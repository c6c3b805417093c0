import StoryAtlas.Proofs.Explore.History

/-!
# No state is explored twice

Two memories keep an exploration from going round in circles. The texts on the way down are handed
from stop to stop, so that each way has its own; the places are kept in the ledger for all ways
alike. Both are filled before the choices of a stop are explored, and both are asked before that. A
marked text is left out of the first, and for a marked stop the second is not asked, though its
place is remembered.

So on one way down the choices of a text are explored once, and those of a place once altogether.
-/

namespace StoryAtlas.Explore

variable {setting : Setting}

/-- The text of an entry whose choices are explored, unless it is empty or marked. -/
def Entry.exploredText (setting : Setting) (entry : Entry) : Option String :=
  entry.stop?.bind fun stop =>
    if stop.Opens setting ∧ stop.scene.clean ≠ "" ∧ stop.scene.isMarked = false then
      some stop.scene.clean
    else none

/-- The place of an entry whose choices are explored, unless its text is marked. -/
def Entry.exploredPlace (setting : Setting) (entry : Entry) : Option String :=
  entry.stop?.bind fun stop =>
    if stop.Opens setting ∧ stop.scene.isMarked = false then some stop.scene.stateHash else none

theorem exploredText_eq_some {entry : Entry} {text : String} :
    entry.exploredText setting = some text ↔
      ∃ stop, entry.stop? = some stop ∧ stop.Opens setting ∧ stop.scene.clean ≠ "" ∧
        stop.scene.isMarked = false ∧ stop.scene.clean = text := by
  simp only [Entry.exploredText, Option.bind_eq_some_iff, Option.ite_none_right_eq_some,
    Option.some.injEq, and_assoc]

/-! ### Texts on one way down -/

def Stop.Knows (text : String) (stop : Stop) : Prop := Register.holds text stop.visit.ancestors

/-- What is known on the way to a stop is known on the ways behind its choices. -/
theorem Stop.Follows.knows {upper lower : Stop} {number : Nat} {text : String}
    (h : upper.Follows setting number lower) (hknows : upper.Knows text) : lower.Knows text := by
  rw [Stop.Knows, h.visit]
  change Register.holds text (upper.scene.pathBelow setting.limits upper.visit upper.id)
  unfold Scene.pathBelow
  split
  · exact Register.holds_put.2 (.inr hknows)
  · exact hknows

/-- The text of a stop is known behind its choices. -/
theorem Stop.Follows.knows_own {upper lower : Stop} {number : Nat}
    (h : upper.Follows setting number lower) (detect : setting.limits.detectTextLoops = true)
    (hclean : upper.scene.clean ≠ "") (hmarked : upper.scene.isMarked = false) :
    lower.Knows upper.scene.clean := by
  rw [Stop.Knows, h.visit]
  change Register.holds upper.scene.clean
    (upper.scene.pathBelow setting.limits upper.visit upper.id)
  have hempty : upper.scene.clean.isEmpty = false := by
    rwa [← Bool.not_eq_true, String.isEmpty_iff]
  rw [Scene.pathBelow, if_pos (by simp [detect, hempty, hmarked])]
  exact Register.holds_put.2 (.inl rfl)

/-- What is known at the stop of a tree is known at all stops of the tree. -/
theorem knows_of_mem_walk {tree below : Rose Entry} {text : String}
    (hlinked : tree.Everywhere (Linked setting)) (hbelow : below ∈ tree.walk)
    (hknows : ∀ stop, tree.value.stop? = some stop → stop.Knows text) :
    ∀ stop, below.value.stop? = some stop → stop.Knows text := by
  induction tree using Rose.induction_on with
  | node entry children ih =>
      obtain ⟨hroot, hchildren⟩ := Rose.everywhere_node.1 hlinked
      rcases Rose.mem_walk.1 hbelow with rfl | hinner
      · exact hknows
      obtain ⟨child, hchild, hwalk⟩ := Rose.mem_walkForest.1 hinner
      refine ih child hchild (hchildren child hchild) hwalk fun lower hlower => ?_
      obtain ⟨upper, hupper, -, hfollows⟩ := hroot.below child hchild
      obtain ⟨number, hnumber⟩ := hfollows lower hlower
      exact hnumber.knows (hknows upper hupper)

/-- Where the text of a stop is known already, its choices are not explored. -/
theorem Stop.Opens.not_knows {stop : Stop} (h : stop.Opens setting)
    (detect : setting.limits.detectTextLoops = true) (hclean : stop.scene.clean ≠ "")
    (hmarked : stop.scene.isMarked = false) : ¬stop.Knows stop.scene.clean := by
  have hempty : stop.scene.clean.isEmpty = false := by
    rwa [← Bool.not_eq_true, String.isEmpty_iff]
  have hloop := h.noLoop
  rw [Scene.textLoop, if_pos (by simp [detect, hempty, hmarked])] at hloop
  rw [Stop.Knows, Register.holds, hloop]
  exact Bool.false_ne_true

theorem exploredText_ne_below (detect : setting.limits.detectTextLoops = true)
    {tree below : Rose Entry} (htree : tree ∈ Rose.walkForest (chronicle setting))
    (hbelow : below ∈ Rose.walkForest tree.children) {text : String}
    (hexplored : tree.value.exploredText setting = some text) :
    below.value.exploredText setting ≠ some text := by
  intro hagain
  obtain ⟨upper, hupper, -, hclean, hmarked, rfl⟩ := exploredText_eq_some.1 hexplored
  obtain ⟨lower, hlower, hopens, hclean', hmarked', hsame⟩ := exploredText_eq_some.1 hagain
  obtain ⟨root, hroot, hwalk⟩ := Rose.mem_walkForest.1 htree
  have hlinked : tree.Everywhere (Linked setting) :=
    (linked_of_mem_chronicle hroot).of_mem_walk hwalk
  obtain ⟨child, hchild, hinner⟩ := Rose.mem_walkForest.1 hbelow
  have hknows : ∀ stop, child.value.stop? = some stop → stop.Knows upper.scene.clean := by
    intro stop hstop
    obtain ⟨parent, hparent, -, hfollows⟩ := (linked_chronicle htree).below child hchild
    obtain rfl : upper = parent := Option.some.inj (hupper.symm.trans hparent)
    obtain ⟨number, hnumber⟩ := hfollows stop hstop
    exact hnumber.knows_own detect hclean hmarked
  have hchild' : child.Everywhere (Linked setting) :=
    hlinked.of_mem_walk (Rose.mem_walk_of_mem_children hchild)
  have hlast := knows_of_mem_walk hchild' hinner hknows lower hlower
  rw [← hsame] at hlast
  exact hopens.not_knows detect hclean' hmarked' hlast

/-! ### Places altogether -/

def exploredPlaces (setting : Setting) (log : List Entry) : List String :=
  log.filterMap (Entry.exploredPlace setting)

/-- Places remembered stay so, and those explored on the way are distinct, were not remembered
before and are so afterwards. -/
structure PlacesOnce (setting : Setting) (before after : Ledger) (log : List Entry) : Prop where
  grown : ∀ hash, Register.holds hash before.states → Register.holds hash after.states
  held : ∀ hash ∈ exploredPlaces setting log, Register.holds hash after.states
  fresh : ∀ hash ∈ exploredPlaces setting log, ¬Register.holds hash before.states
  distinct : (exploredPlaces setting log).Nodup

namespace PlacesOnce

variable {before middle after : Ledger} {log more : List Entry}

/-- Where no choices are explored, it is enough that no place is forgotten. -/
theorem of_unexplored (hgrown : ∀ hash, Register.holds hash before.states →
      Register.holds hash after.states) (hlog : exploredPlaces setting log = []) :
    PlacesOnce setting before after log := by
  refine ⟨hgrown, ?_, ?_, ?_⟩
  all_goals rw [hlog]
  · exact nofun
  · exact nofun
  · exact List.nodup_nil

theorem of_eq (hstates : after.states = before.states) (hlog : exploredPlaces setting log = []) :
    PlacesOnce setting before after log :=
  of_unexplored (fun _ h => hstates ▸ h) hlog

theorem append (first : PlacesOnce setting before middle log)
    (second : PlacesOnce setting middle after more) :
    PlacesOnce setting before after (log ++ more) := by
  have happend : exploredPlaces setting (log ++ more) =
      exploredPlaces setting log ++ exploredPlaces setting more := List.filterMap_append
  refine ⟨fun hash h => second.grown hash (first.grown hash h), ?_, ?_, ?_⟩
  all_goals rw [happend]
  · intro hash hhash
    rcases List.mem_append.1 hhash with hhash | hhash
    · exact second.grown hash (first.held hash hhash)
    · exact second.held hash hhash
  · intro hash hhash hbefore
    rcases List.mem_append.1 hhash with hhash | hhash
    · exact first.fresh hash hhash hbefore
    · exact second.fresh hash hhash (first.grown hash hbefore)
  · refine first.distinct.append second.distinct fun hash hfirst hsecond => ?_
    exact second.fresh hash hsecond (first.held hash hfirst)

theorem then_same (h : PlacesOnce setting before middle log)
    (hstates : after.states = middle.states) : PlacesOnce setting before after log :=
  ⟨fun _ hbefore => hstates ▸ h.grown _ hbefore, hstates ▸ h.held, h.fresh, h.distinct⟩

theorem closed {stop : Stop} {outcome : Except Fault (Option Node)} {world : World}
    (hopens : ¬stop.Opens setting) (hcloses : stop.Closes setting (outcome, world)) :
    PlacesOnce setting stop.world.ledger world.ledger [.settled stop outcome] := by
  refine of_unexplored (fun hash hbefore => ?_) (List.filterMap_cons_none ?_)
  · rcases hcloses.states with hsame | ⟨hput, -⟩
    · rwa [hsame]
    · rw [hput]
      exact Register.holds_put.2 (.inr hbefore)
  · exact if_neg fun hplain => hopens hplain.1

/-- The place of a stop is remembered before its choices are explored. -/
theorem opened (detect : setting.limits.detectRepeatedStates = true) {stop : Stop}
    {outcome : Except Fault (Option Node)} (hopens : stop.Opens setting)
    (h : PlacesOnce setting (opened setting stop.scene stop.world).ledger after log) :
    PlacesOnce setting stop.world.ledger after (.settled stop outcome :: log) := by
  have hremembered : ∀ hash, Register.holds hash stop.world.ledger.states →
      Register.holds hash (Explore.opened setting stop.scene stop.world).ledger.states := by
    intro hash hbefore
    rcases Stop.states_opened setting stop.scene stop.world with hsame | hput
    · rwa [hsame]
    · rw [hput]
      exact Register.holds_put.2 (.inr hbefore)
  have hgrown : ∀ hash, Register.holds hash stop.world.ledger.states →
      Register.holds hash after.states :=
    fun hash hbefore => h.grown hash (hremembered hash hbefore)
  have hfresh : ∀ hash ∈ exploredPlaces setting log,
      ¬Register.holds hash stop.world.ledger.states :=
    fun hash hhash hbefore => h.fresh hash hhash (hremembered hash hbefore)
  by_cases hmarked : stop.scene.isMarked = false
  · have hself := Stop.holds_opened detect stop.scene stop.world
    have hnew : ¬Register.holds stop.scene.stateHash stop.world.ledger.states := by
      have hstate := hopens.noState
      rw [Scene.repeatedState, if_pos (by simp [detect, hmarked])] at hstate
      rw [Register.holds, hstate]
      exact Bool.false_ne_true
    have hlog : exploredPlaces setting (.settled stop outcome :: log) =
        stop.scene.stateHash :: exploredPlaces setting log :=
      List.filterMap_cons_some (if_pos ⟨hopens, hmarked⟩)
    refine ⟨hgrown, ?_, ?_, ?_⟩
    all_goals rw [hlog]
    · exact List.forall_mem_cons.2 ⟨h.grown _ hself, h.held⟩
    · exact List.forall_mem_cons.2 ⟨hnew, hfresh⟩
    · exact List.nodup_cons.2 ⟨fun hhash => h.fresh _ hhash hself, h.distinct⟩
  · have hlog : exploredPlaces setting (.settled stop outcome :: log) =
        exploredPlaces setting log :=
      List.filterMap_cons_none (if_neg fun hplain => hmarked hplain.2)
    refine ⟨hgrown, ?_, ?_, ?_⟩
    all_goals rw [hlog]
    · exact h.held
    · exact hfresh
    · exact h.distinct

theorem tracing (detect : setting.limits.detectRepeatedStates = true) :
    Tracing setting fun before after _ log => PlacesOnce setting before after log where
  idle hsame := of_eq hsame.states rfl
  append := append
  handed _ h := h.then_same (SameBooks.handed ..).states
  glanced _ _ _ hsame := of_eq hsame.states rfl
  cut hsame := of_eq hsame.states rfl
  closed _ hopens hcloses _ := .closed hopens hcloses
  opened _ hopens _ h := (h.opened detect hopens).then_same (Stop.finished_books ..).1

end PlacesOnce

/-- The history tells what the builder did, so that a stop of it opens exactly if the builder explored
its choices. While texts are remembered on the way down, no text is explored again below itself, and
while places are remembered, none is explored again at all; where a text is marked nothing is
promised. -/
theorem explored_once (setting : Setting) :
    Chronicled setting ∧
    (setting.limits.detectTextLoops = true →
      ∀ tree ∈ Rose.walkForest (chronicle setting), ∀ below ∈ Rose.walkForest tree.children,
        ∀ text, tree.value.exploredText setting = some text →
          below.value.exploredText setting ≠ some text) ∧
    (setting.limits.detectRepeatedStates = true →
      (exploredPlaces setting (entries (chronicle setting))).Nodup) :=
  ⟨chronicled setting,
    fun detect _ htree _ hbelow _ hexplored => exploredText_ne_below detect htree hbelow hexplored,
    fun detect => (kept_run (PlacesOnce.tracing detect)).distinct⟩

def rounds : Setting where
  unit := "Rounds"
  script := {
    passages := [
      ("start", { lines := [some "A road."], choices := [⟨"On", "gate", false⟩] }),
      ("gate", { lines := [some "A gate."], choices := [⟨"Back", "start", false⟩] })] }

theorem exploredPlaces_rounds : exploredPlaces rounds (entries (chronicle rounds)) =
    ["_On@start", "On@start_c0_Back@gate"] := by
  decide +kernel

/-- The road is met again behind the gate, and its choices are not explored again. -/
theorem explored_once_rounds :
    (∃ stop below, chronicle rounds = [.node (.settled stop (run rounds).1) below] ∧
      run rounds = stop.settle rounds) ∧
    ((exploredPlaces rounds (entries (chronicle rounds))).length = 2 ∧
      (exploredPlaces rounds (entries (chronicle rounds))).Nodup) ∧
    (stops (chronicle rounds)).length = 3 ∧
    ∃ tree ∈ Rose.walkForest (chronicle rounds), ∃ below ∈ Rose.walkForest tree.children,
      tree.value.exploredText rounds = some "A road." ∧
        below.value.exploredText rounds ≠ some "A road." := by
  obtain ⟨hchronicled, htexts, hplaces⟩ := explored_once rounds
  have hlength : (exploredPlaces rounds (entries (chronicle rounds))).length = 2 :=
    congrArg List.length exploredPlaces_rounds
  have hstops : (stops (chronicle rounds)).length = 3 := by decide +kernel
  have hroad : ∃ tree ∈ Rose.walkForest (chronicle rounds),
      ∃ below ∈ Rose.walkForest tree.children, tree.value.exploredText rounds = some "A road." := by
    decide +kernel
  obtain ⟨tree, htree, below, hbelow, htext⟩ := hroad
  refine ⟨hchronicled.first.resolve_left fun ⟨hnone, _⟩ => ?_, ⟨hlength, hplaces rfl⟩, hstops,
    tree, htree, below, hbelow, htext, htexts rfl tree htree below hbelow _ htext⟩
  rw [hnone] at hstops
  cases hstops

end StoryAtlas.Explore
