import StoryAtlas.Proofs.Explore.Replay
import StoryAtlas.Proofs.Rose.Levels

/-!
# The budgets bound a tree

Each node whose choices are explored is counted, and none is explored where the count has reached
the budget of its depth. The count is started anew once, when the deep levels are first entered; so
there is room for as many nodes with children as both counts allow.

The room that a ledger leaves is the potential of the proof: a node with children takes one from it,
all else takes nothing away from what the later nodes need, and starting the count anew is paid for
from the start. A fold onto the hub makes neither nodes nor depth.
-/

namespace StoryAtlas

namespace Rose

variable {α : Type}

/-- The number of nodes with children. -/
def forks (ts : List (Rose α)) : Nat := (walkForest ts).countP fun s => !s.children.isEmpty

theorem forks_append (ts us : List (Rose α)) : forks (ts ++ us) = forks ts + forks us := by
  simp only [forks, walkForest_append, List.countP_append]

theorem forks_node (a : α) (cs : List (Rose α)) :
    forks [node a cs] = forks cs + if cs.isEmpty then 0 else 1 := by
  simp only [forks, walkForest, walk_node, List.append_nil, List.countP_cons, children_node]
  cases cs <;> simp

theorem length_levels_node (a : α) (cs : List (Rose α)) :
    (levels (node a cs)).length = (levelsForest cs).length + 1 := by
  rw [levels_eq, List.length_cons, children_node]

end Rose

def Limits.widest (limits : Limits) : Int := max limits.siblingFirstBudget limits.depthFirstBudget

namespace Explore

variable {setting : Setting} {next : Visitor} {visit : Visit} {scene : Scene} {frame : Frame}
  {world : World} {limits : Limits} {ledger before middle after : Ledger} {depth : Int}
  {levels : Nat} {nodes others : List Node}

/-! ### The room for nodes with children -/

/-- The number of nodes with children for which a ledger leaves room. -/
def Ledger.room (limits : Limits) (ledger : Ledger) : Int :=
  if ledger.restarted ∨ limits.siblingFirstDepth < 0 then
    max (limits.widest - ledger.nodeTotal) 0
  else max (limits.siblingFirstBudget - ledger.nodeTotal) 0 + max limits.widest 0

/-- A visit may come at a depth: until the count is started anew, none comes below the first of the
deep levels. -/
def Due (limits : Limits) (depth : Int) (ledger : Ledger) : Prop :=
  0 ≤ depth ∧ (ledger.restarted ∨ limits.siblingFirstDepth < 0 ∨ depth ≤ limits.siblingFirstDepth)

theorem Due.of_restarted (h : Due limits depth before)
    (hrestarted : before.restarted → after.restarted) : Due limits depth after :=
  ⟨h.1, h.2.imp_left hrestarted⟩

theorem room_of_counts (htotal : after.nodeTotal = before.nodeTotal)
    (hrestarted : after.restarted = before.restarted) : after.room limits = before.room limits := by
  rw [Ledger.room, Ledger.room, htotal, hrestarted]

theorem room_newNode_le : ledger.newNode.2.room limits ≤ ledger.room limits := by
  have htotal : ledger.newNode.2.nodeTotal = ledger.nodeTotal + 1 := rfl
  have hrestarted : ledger.newNode.2.restarted = ledger.restarted := rfl
  unfold Ledger.room
  rw [htotal, hrestarted]
  split <;> omega

/-- Entering a level, the first of the deep levels included, is paid for. -/
theorem Due.enter (h : Due limits depth ledger) :
    Due limits (depth + 1) (ledger.enter limits depth) ∧
      (ledger.enter limits depth).room limits ≤ ledger.room limits := by
  obtain ⟨hdepth, hdue⟩ := h
  unfold Ledger.enter
  split
  · next hfirst =>
    obtain ⟨hlevel, hcounted⟩ := hfirst
    have hshallow : ¬limits.siblingFirstDepth < 0 := by omega
    have hnew : ledger.restarted = false := by simpa using hcounted
    refine ⟨⟨by omega, .inl rfl⟩, ?_⟩
    simp only [Ledger.room, hnew, hshallow, or_false, if_true, if_false, Bool.false_eq_true]
    omega
  · next hlater =>
    -- not restarted here means restarted before, or above the deep levels still
    refine ⟨⟨by omega, ?_⟩, Int.le_refl _⟩
    by_cases hrestarted : ledger.restarted
    · exact .inl hrestarted
    · rcases hdue with hdue | hdue | hdue
      · exact absurd hdue hrestarted
      · exact .inr (.inl hdue)
      · have hne : depth ≠ limits.siblingFirstDepth := by
          rintro rfl
          exact hlater ⟨rfl, by simpa using hrestarted⟩
        exact .inr (.inr (by omega))

theorem Due.room_newNode (h : Due limits (depth + 1) ledger)
    (budget : ledger.nodeTotal < limits.budget depth) :
    1 + ledger.newNode.2.room limits ≤ ledger.room limits := by
  obtain ⟨hdepth, hdue⟩ := h
  have htotal : ledger.newNode.2.nodeTotal = ledger.nodeTotal + 1 := rfl
  have hrestarted : ledger.newNode.2.restarted = ledger.restarted := rfl
  unfold Ledger.room
  rw [htotal, hrestarted]
  have hwidest : limits.budget depth ≤ limits.widest := by
    unfold Limits.budget Limits.widest
    split <;> omega
  split
  · omega
  · next hcounted =>
    -- before the restart the visit is shallow, so its budget is the one that is counted against
    rw [not_or] at hcounted
    have hshallow : limits.isShallow depth := by
      rcases hdue with hdue | hdue | hdue
      · exact absurd hdue hcounted.1
      · exact absurd hdue hcounted.2
      · exact decide_eq_true (by omega)
    rw [Limits.budget, if_pos hshallow] at budget
    omega

/-! ### What nodes cost -/

/-- The nodes made between two ledgers are paid for, and have no more than so many levels. -/
structure Spent (limits : Limits) (levels : Nat) (before after : Ledger) (nodes : List Node) :
    Prop where
  paid : Rose.forks nodes + after.room limits ≤ before.room limits
  levels : (Rose.levelsForest nodes).length ≤ levels

namespace Spent

theorem nil (h : after.room limits ≤ before.room limits) : Spent limits levels before after [] where
  paid := by simpa [Rose.forks, Rose.walkForest] using h
  levels := Nat.zero_le _

theorem append (first : Spent limits levels before middle nodes)
    (second : Spent limits levels middle after others) :
    Spent limits levels before after (nodes ++ others) where
  paid := by
    have hfirst := first.paid
    have hsecond := second.paid
    rw [Rose.forks_append]
    omega
  levels := by
    rw [Rose.length_levelsForest_append]
    exact Nat.max_le.2 ⟨first.levels, second.levels⟩

theorem after_paid (h : Spent limits levels middle after nodes)
    (hroom : middle.room limits ≤ before.room limits) : Spent limits levels before after nodes :=
  (nil hroom).append h

theorem before_paid (h : Spent limits levels before middle nodes)
    (hroom : after.room limits ≤ middle.room limits) : Spent limits levels before after nodes := by
  have happend := h.append (nil hroom)
  rwa [List.append_nil] at happend

theorem childless (h : after.room limits ≤ before.room limits) (beat : Beat) :
    Spent limits (levels + 1) before after [.node beat []] where
  paid := by
    rw [Rose.forks_node]
    simpa [Rose.forks, Rose.walkForest] using h
  levels := by
    rw [Rose.levelsForest_singleton, Rose.length_levels_node]
    exact Nat.succ_le_succ (Nat.zero_le _)

theorem parent (h : Spent limits levels middle after nodes) (beat : Beat)
    (hroom : 1 + middle.room limits ≤ before.room limits) :
    Spent limits (levels + 1) before after [.node beat nodes] where
  paid := by
    have hpaid := h.paid
    rw [Rose.forks_node]
    split <;> omega
  levels := by
    rw [Rose.levelsForest_singleton, Rose.length_levels_node]
    exact Nat.succ_le_succ h.levels

theorem of_smaller {node other : Node} (h : Spent limits levels before after [node])
    (hforks : Rose.forks [other] ≤ Rose.forks [node])
    (hlevels : other.levels.length ≤ node.levels.length) :
    Spent limits levels before after [other] where
  paid := by
    have hpaid := h.paid
    omega
  levels := by
    have hbound := h.levels
    rw [Rose.levelsForest_singleton] at hbound ⊢
    exact Nat.le_trans hlevels hbound

end Spent

/-! ### Folding onto the hub -/

theorem forks_map_le {fold : Node → Node}
    (h : ∀ node ∈ nodes, Rose.forks [fold node] ≤ Rose.forks [node]) :
    Rose.forks (nodes.map fold) ≤ Rose.forks nodes := by
  induction nodes with
  | nil => exact Nat.le_refl _
  | cons node nodes ih =>
      have hnode := h node List.mem_cons_self
      have hnodes := ih fun other hother => h other (List.mem_cons_of_mem _ hother)
      rw [List.map_cons, ← List.singleton_append, Rose.forks_append,
        ← List.singleton_append (l := nodes), Rose.forks_append]
      omega

theorem levels_map_le {fold : Node → Node}
    (h : ∀ node ∈ nodes, (fold node).levels.length ≤ node.levels.length) :
    (Rose.levelsForest (nodes.map fold)).length ≤ (Rose.levelsForest nodes).length := by
  rw [Rose.length_levelsForest_le, List.forall_mem_map]
  exact fun node hnode =>
    Nat.le_trans (h node hnode) (Rose.length_levelsForest_le.1 (Nat.le_refl _) node hnode)

theorem forks_foldHub_le (menu : Option Menu) (hub : HubSnapshot) (node : Node) :
    Rose.forks [foldHub menu hub node] ≤ Rose.forks [node] := by
  induction node using Rose.induction_on with
  | node beat children ih =>
      rw [foldHub]
      split
      · exact Nat.zero_le _
      · have hchildren := forks_map_le ih
        rw [foldHubs_eq_map, Rose.forks_node, Rose.forks_node, List.isEmpty_map]
        omega

theorem levels_foldHub_le (menu : Option Menu) (hub : HubSnapshot) (node : Node) :
    (foldHub menu hub node).levels.length ≤ node.levels.length := by
  induction node using Rose.induction_on with
  | node beat children ih =>
      rw [foldHub, Rose.length_levels_node]
      split
      · rw [Rose.length_levels_node]
        exact Nat.succ_le_succ (Nat.zero_le _)
      · rw [foldHubs_eq_map, Rose.length_levels_node]
        exact Nat.succ_le_succ (levels_map_le ih)

theorem Spent.relabelled {child : Node} (h : Spent limits levels before after [child])
    (beat : Beat) : Spent limits levels before after [child.withValue beat] := by
  obtain ⟨value, children⟩ := child
  refine h.of_smaller (Nat.le_of_eq ?_) (Nat.le_of_eq ?_)
  · rw [Rose.withValue, Rose.forks_node, Rose.forks_node, Rose.children_node]
  · rw [Rose.withValue, Rose.length_levels_node, Rose.length_levels_node, Rose.children_node]

theorem Spent.foldBelow {child : Node} (h : Spent limits levels before world.ledger [child]) :
    Spent limits levels before (foldBelow setting child world).2.ledger
      [(foldBelow setting child world).1] := by
  obtain hsame | ⟨hub, warned, entries, -, -, hfold⟩ := foldBelow_eq setting child world
  · rw [hsame]
    exact h
  · rw [hfold]
    obtain ⟨beat, children⟩ := child
    refine (h.of_smaller ?_ ?_).before_paid (Int.le_of_eq (room_of_counts rfl rfl))
    · have hforks : Rose.forks (children.map (foldHub setting.menu hub)) ≤ Rose.forks children :=
        forks_map_le fun node _ => forks_foldHub_le setting.menu hub node
      rw [Rose.forks_node, Rose.forks_node, Rose.children_node, List.isEmpty_map]
      omega
    · rw [Rose.length_levels_node, Rose.length_levels_node, Rose.children_node]
      exact Nat.succ_le_succ (levels_map_le fun node _ => levels_foldHub_le setting.menu hub node)

/-! ### Visits -/

/-- A visitor that pays for what it makes, and makes no more than so many levels. -/
def Thrifty (setting : Setting) (levels : Nat) (next : Visitor) : Prop :=
  ∀ visit world, Due setting.limits visit.depth world.ledger →
    Spent setting.limits levels world.ledger (next visit world).2.ledger
      (yielded (next visit world).1)

theorem Thrifty.of_eq (hnext : Thrifty setting levels next)
    (hdue : Due setting.limits visit.depth world.ledger) {result : Except Fault (Option Node)}
    {last : World} (h : next visit world = (result, last)) :
    Spent setting.limits levels world.ledger last.ledger (yielded result) := by
  have hspent := hnext visit world hdue
  rwa [h] at hspent

theorem spent_exploreTaken (hnext : Thrifty setting (levels + 1) next) (verb : String)
    (taken : Taken) (hdue : Due setting.limits (frame.depth + 1) world.ledger) :
    Spent setting.limits (levels + 1) world.ledger
      (exploreTaken setting next frame verb taken world).2.ledger
      (exploreTaken setting next frame verb taken world).1.toList := by
  have h := explores setting next frame verb taken world
  have noted : ∀ (entries : Journal) (ledger : Ledger),
      (ledger.note entries).room setting.limits = ledger.room setting.limits :=
    fun _ _ => room_of_counts rfl rfl
  generalize exploreTaken setting next frame verb taken world = result at h ⊢
  cases h with
  | returned menu stretch content entries found =>
      refine .childless (Int.le_trans room_newNode_le ?_) _
      exact Int.le_of_eq (noted entries _)
  | failed entries fault after found =>
      exact ((hnext.of_eq hdue found).after_paid (Int.le_of_eq (noted entries _))).before_paid
        (Int.le_of_eq (noted _ _))
  | dropped entries after found =>
      exact (hnext.of_eq hdue found).after_paid (Int.le_of_eq (noted entries _))
  | built entries child after found =>
      have hchild := (hnext.of_eq hdue found).after_paid (Int.le_of_eq (noted entries _))
      exact (hchild.relabelled _).foldBelow

theorem spent_exploreChoices (hevolve : Evolving setting next)
    (hnext : Thrifty setting (levels + 1) next)
    (hdue : Due setting.limits (frame.depth + 1) world.ledger) :
    Spent setting.limits (levels + 1) world.ledger
      (exploreChoices setting next frame scene world).2.ledger
      (exploreChoices setting next frame scene world).1 := by
  refine (exploreChoices_rule (K := fun _ nodes now =>
    Spent setting.limits (levels + 1) world.ledger now.ledger nodes ∧
      Due setting.limits (frame.depth + 1) now.ledger) hevolve
    { start := ⟨.nil (Int.le_refl _), hdue⟩
      noted := fun _ _ now entries h => ?_
      skipped := fun _ _ _ h _ => h
      taken := fun _ _ now label verb after h _ _ _ => ?_ }).1
  · exact ⟨h.1.before_paid (Int.le_of_eq (room_of_counts rfl rfl)), h.2.of_restarted id⟩
  · exact ⟨h.1.append (spent_exploreTaken hnext _ _ h.2),
      h.2.of_restarted (evolves_exploreTaken hevolve _ _).restarted⟩

theorem room_finish (calm : scene.kind ≠ .combat) (whole : setting.limits.splitDialogue = false)
    (signature : Option String) (id : Int) (children : List Node) (ledger : Ledger) :
    (finish setting scene signature id children ledger).2.room limits = ledger.room limits := by
  have hclaim : claim (partsOf setting scene children ledger.nextId) ledger = ledger := by
    rw [partsOf_eq calm whole]
    rfl
  unfold finish
  dsimp only
  rw [hclaim]
  generalize (partsOf setting scene children ledger.nextId).children = nodes
  obtain ⟨warned, entries, hwarn⟩ := warnRepeated_eq setting id ledger nodes
  rw [hwarn]
  split
  · exact room_of_counts rfl rfl
  · obtain ⟨converged, hconverge, -⟩ :=
      converge_eq id ({ ledger with thresholdWarned := warned }.note entries) signature nodes
    rw [hconverge]
    exact room_of_counts rfl rfl

theorem spent_finish (calm : scene.kind ≠ .combat) (whole : setting.limits.splitDialogue = false)
    (signature : Option String) (id : Int)
    (h : Spent limits levels middle after nodes)
    (hroom : 1 + middle.room limits ≤ before.room limits) :
    Spent limits (levels + 1) before (finish setting scene signature id nodes after).2
      [(finish setting scene signature id nodes after).1] := by
  refine Spent.before_paid ?_ (Int.le_of_eq (room_finish calm whole signature id nodes after))
  obtain ⟨hubId, hnode⟩ | hnode := finish_node setting scene signature id nodes after
  · have hpaid := h.paid
    rw [hnode]
    exact .childless (by omega) _
  · rw [hnode, partsOf_eq calm whole]
    exact h.parent _ hroom

theorem room_remembered (setting : Setting) (scene : Scene) (world : World) :
    (remembered setting scene world).ledger.room limits = world.ledger.newNode.2.room limits := by
  obtain ⟨states, hplace, -⟩ :=
    rememberPlace_eq setting scene world.ledger.nextId world.ledger.newNode.2
  rw [remembered, hplace]
  exact room_of_counts rfl rfl

theorem room_opened (setting : Setting) (scene : Scene) (world : World) :
    (opened setting scene world).ledger.room limits = world.ledger.newNode.2.room limits := by
  obtain ⟨hubId, hub, entries, hregister, -⟩ :=
    registerHub_eq setting scene world.ledger.nextId (remembered setting scene world).ledger
  rw [← room_remembered setting scene world, opened, World.update, hregister]
  exact room_of_counts rfl rfl

theorem spent_settleScene (hevolve : Evolving setting next)
    (hnext : Thrifty setting (levels + 1) next) (noknots : setting.bytecode.knots = [])
    (whole : setting.limits.splitDialogue = false) (calm : scene.kind ≠ .combat)
    (hdue : Due setting.limits (visit.depth + 1) world.ledger) :
    Spent setting.limits (levels + 2) world.ledger
      (settleScene setting next visit scene world).2.ledger
      (yielded (settleScene setting next visit scene world).1) := by
  have h := settles setting next visit scene world
  generalize settleScene setting next visit scene world = result at h ⊢
  cases h with
  | textLoop ref found => exact .childless room_newNode_le _
  | repeatedState ref noLoop found => exact .childless room_newNode_le _
  | dropped spent => exact .nil (Int.le_of_eq (room_of_counts rfl rfl))
  | expanded command node ledger found made =>
      exact absurd found (branching_ne_some noknots command)
  | unexpanded command fault ledger found failed =>
      exact absurd found (branching_ne_some noknots command)
  | bare silent noChoices => exact .childless room_newNode_le _
  | leaf noChoices =>
      refine .childless (Int.le_trans (Int.le_of_eq ?_) room_newNode_le) _
      exact room_remembered ..
  | converged key ref signed found =>
      refine .childless (Int.le_trans (Int.le_of_eq ?_) room_newNode_le) _
      exact room_opened ..
  | opened noLoop noState budget children after found =>
      have hopened : Due setting.limits (visit.depth + 1) (opened setting scene world).ledger :=
        hdue.of_restarted (evolves_opened setting scene world).restarted
      have hchildren : Spent setting.limits (levels + 1) (opened setting scene world).ledger
          (explored setting next visit scene world).2.ledger
          (explored setting next visit scene world).1 :=
        spent_exploreChoices hevolve hnext hopened
      rw [found] at hchildren
      refine spent_finish calm whole _ _ hchildren ?_
      rw [room_opened]
      exact hdue.room_newNode budget

theorem spent_visitWith (hevolve : Evolving setting next)
    (hnext : Thrifty setting (levels + 1) next) (noknots : setting.bytecode.knots = [])
    (whole : setting.limits.splitDialogue = false) (calm : setting.script.Calm)
    (hdue : Due setting.limits (visit.depth + 1) world.ledger) :
    Spent setting.limits (levels + 2) world.ledger
      (visitWith setting next visit world).2.ledger
      (yielded (visitWith setting next visit world).1) := by
  have hlook : (look setting visit world).2 = (drain setting world).2 := look_eq setting visit world
  have hnoted : (drain setting world).2.ledger.room setting.limits =
      world.ledger.room setting.limits := by
    rw [drain_eq]
    exact room_of_counts rfl rfl
  unfold visitWith
  split
  · next scene after h =>
    obtain ⟨labels, location, -, hscene⟩ := look_eq_ok (congrArg Prod.fst h)
    have hcalm : scene.kind ≠ .combat := by
      rw [hscene, drain_eq]
      exact Kind.ofText_ne_combat (Play.calm_drain calm world.play) _
    have hafter := evolves_look setting visit world
    rw [h] at hlook hafter
    cases hlook
    exact (spent_settleScene hevolve hnext noknots whole hcalm
      (hdue.of_restarted hafter.restarted)).after_paid (Int.le_of_eq hnoted)
  · next fault after h =>
    rw [h] at hlook
    cases hlook
    exact .nil (Int.le_of_eq hnoted)

theorem thrifty_visitLevels (noknots : setting.bytecode.knots = [])
    (whole : setting.limits.splitDialogue = false) (calm : setting.script.Calm) (levels : Nat) :
    Thrifty setting (levels + 1) (visitLevels setting levels) := by
  induction levels with
  | zero =>
      intro visit world hdue
      refine Spent.after_paid ?_ hdue.enter.2
      have hnoted : (world.update (Ledger.enter setting.limits visit.depth)).ledger.newNode.2.room
            setting.limits =
          (visitLevels setting 0 visit world).2.ledger.room setting.limits := room_of_counts rfl rfl
      exact Spent.childless (Int.le_trans (Int.le_of_eq hnoted.symm) room_newNode_le) _
  | succ levels ih =>
      intro visit world hdue
      obtain ⟨hentered, hroom⟩ := hdue.enter
      have hevolve := evolving_visitLevels setting levels
      exact (spent_visitWith hevolve ih noknots whole calm hentered).after_paid hroom

/-! ### The whole tree -/

/-- No tree is made of a scene only where the budget is spent. -/
theorem budget_of_settleScene_eq_none
    (h : (settleScene setting next visit scene world).1 = .ok none) :
    setting.limits.budget visit.depth ≤ world.ledger.nodeTotal := by
  have hsettles := settles setting next visit scene world
  generalize settleScene setting next visit scene world = result at h hsettles
  cases hsettles with
  | dropped spent => exact spent
  | _ => cases h

theorem settleScene_ne_error (noknots : setting.bytecode.knots = []) (fault : Fault) :
    (settleScene setting next visit scene world).1 ≠ .error fault := by
  have hsettles := settles setting next visit scene world
  generalize settleScene setting next visit scene world = result at hsettles ⊢
  intro h
  cases hsettles with
  | unexpanded command fault ledger found failed =>
      exact branching_ne_some noknots command found
  | _ => cases h

theorem look_update (visit : Visit) (change : Ledger → Ledger) (world : World) :
    (look setting visit (world.update change)).1 = (look setting visit world).1 := by
  unfold look World.update
  rw [drain_eq, drain_eq]
  dsimp only
  split <;> rfl

theorem budget_of_visitWith_eq_none (h : (visitWith setting next visit world).1 = .ok none) :
    setting.limits.budget visit.depth ≤ world.ledger.nodeTotal := by
  have hlook := look_eq setting visit world
  rw [drain_eq] at hlook
  unfold visitWith at h
  split at h
  · next scene after hseen =>
    rw [hseen] at hlook
    cases hlook
    have hspent := budget_of_settleScene_eq_none h
    exact hspent
  · cases h

theorem look_of_visitWith_eq_error (noknots : setting.bytecode.knots = []) {fault : Fault}
    (h : (visitWith setting next visit world).1 = .error fault) :
    (look setting visit world).1 = .error fault := by
  unfold visitWith at h
  split at h
  · exact absurd h (settleScene_ne_error noknots fault)
  · next hseen =>
    cases h
    rw [hseen]

theorem nodeTotal_enter_start (limits : Limits) (setting : Setting) :
    ((start setting).update (Ledger.enter limits depth)).ledger.nodeTotal = 0 := by
  unfold World.update Ledger.enter
  split <;> rfl

/-- No tree is made only where the first visit finds no budget. -/
theorem budget_of_run_eq_none (h : (run setting).1 = .ok none) :
    0 ≤ setting.limits.maxDepth ∧ setting.limits.budget 0 ≤ 0 := by
  unfold run at h
  cases hlevels : (setting.limits.maxDepth + 1).toNat with
  | zero =>
      rw [hlevels] at h
      cases h
  | succ levels =>
      rw [hlevels] at h
      have hspent := budget_of_visitWith_eq_none h
      rw [nodeTotal_enter_start] at hspent
      exact ⟨by omega, hspent⟩

/-- An exploration fails only where the start of the story cannot be seen. -/
theorem look_of_run_eq_error (noknots : setting.bytecode.knots = []) {fault : Fault}
    (h : (run setting).1 = .error fault) :
    0 ≤ setting.limits.maxDepth ∧
      (look setting ⟨0, "", []⟩ (start setting)).1 = .error fault := by
  unfold run at h
  cases hlevels : (setting.limits.maxDepth + 1).toNat with
  | zero =>
      rw [hlevels] at h
      cases h
  | succ levels =>
      rw [hlevels] at h
      have hseen := look_of_visitWith_eq_error noknots h
      rw [look_update] at hseen
      exact ⟨by omega, hseen⟩

theorem due_start (setting : Setting) : Due setting.limits 0 (start setting).ledger :=
  ⟨Int.le_refl _, .inr (by omega)⟩

theorem room_start_le (setting : Setting) :
    (start setting).ledger.room setting.limits ≤
      max setting.limits.siblingFirstBudget 0 +
        max (max setting.limits.siblingFirstBudget setting.limits.depthFirstBudget) 0 := by
  have htotal : (start setting).ledger.nodeTotal = 0 := rfl
  unfold Ledger.room Limits.widest
  rw [htotal]
  split <;> omega

theorem depth_lt_of_mem {node root : Node} {depth : Nat}
    (h : (node, depth) ∈ root.breadthWithDepth) : depth < root.levels.length := by
  obtain ⟨level, hlevel, -⟩ := Rose.mem_breadthWithDepth_iff.1 h
  exact (List.getElem?_eq_some_iff.1 hlevel).1

theorem room_nonneg (limits : Limits) (ledger : Ledger) : 0 ≤ ledger.room limits := by
  unfold Ledger.room
  split <;> omega

/-- The budgets bound the nodes with children, the greatest depth bounds the levels, and a tree is
missing only where the first visit finds no budget or nothing to see. -/
theorem run_within_budgets (noknots : setting.bytecode.knots = [])
    (whole : setting.limits.splitDialogue = false) (calm : setting.script.Calm) :
    (∀ root, (run setting).1 = .ok (some root) →
      ((root.walk.countP fun node => !node.children.isEmpty : Nat) : Int) ≤
        max setting.limits.siblingFirstBudget 0 +
          max (max setting.limits.siblingFirstBudget setting.limits.depthFirstBudget) 0 ∧
      ∀ node depth, (node, depth) ∈ root.breadthWithDepth →
        (depth : Int) ≤ max 0 (setting.limits.maxDepth + 1)) ∧
    ((run setting).1 = .ok none →
      0 ≤ setting.limits.maxDepth ∧ setting.limits.budget 0 ≤ 0) ∧
    ∀ fault, (run setting).1 = .error fault →
      0 ≤ setting.limits.maxDepth ∧
        (look setting ⟨0, "", []⟩ (start setting)).1 = .error fault := by
  refine ⟨fun root hroot => ?_, budget_of_run_eq_none, fun fault => look_of_run_eq_error noknots⟩
  have hspent := thrifty_visitLevels noknots whole calm (setting.limits.maxDepth + 1).toNat
    ⟨0, "", []⟩ (start setting) (due_start setting)
  have hmade : yielded (run setting).1 = [root] := by rw [hroot]; rfl
  obtain ⟨hpaid, hlevels⟩ : Spent setting.limits ((setting.limits.maxDepth + 1).toNat + 1)
      (start setting).ledger (run setting).2.ledger [root] := hmade ▸ hspent
  constructor
  · have hforks : Rose.forks [root] = root.walk.countP fun node => !node.children.isEmpty := by
      rw [Rose.forks, Rose.walkForest, Rose.walkForest, List.append_nil]
    have hstart := room_start_le setting
    have hend := room_nonneg setting.limits (run setting).2.ledger
    rw [hforks] at hpaid
    omega
  · intro node depth hmem
    have hdepth := depth_lt_of_mem hmem
    rw [Rose.levelsForest_singleton] at hlevels
    omega

/-- A well that leads down to itself, with room for one node at the top and for one further down. -/
def well : Setting where
  unit := "Well"
  script := {
    passages := [
      ("start", { lines := [some "A well."], choices := [⟨"Down", "start", false⟩] })] }
  limits := {
    maxDepth := 1
    siblingFirstDepth := 1
    siblingFirstBudget := 1
    depthFirstBudget := 1
    detectTextLoops := false
    detectRepeatedStates := false
    splitDialogue := false }

/-- The bounds are reached. -/
theorem run_within_budgets_well : ∃ root, (run well).1 = .ok (some root) ∧
    (root.walk.countP fun node => !node.children.isEmpty) = 2 ∧ root.levels.length = 3 ∧
    ((root.walk.countP fun node => !node.children.isEmpty : Nat) : Int) ≤
      max 1 0 + max (max 1 1) 0 := by
  have hshape : (run well).1.toOption.join.map (fun root =>
      ((root.walk.countP fun node => !node.children.isEmpty), root.levels.length)) =
      some (2, 3) := by decide +kernel
  obtain ⟨root, hrun, hcounted⟩ := exists_root_of_map hshape
  have calm : well.script.Calm := by decide
  have hbounds := (run_within_budgets rfl rfl calm).1 root hrun
  exact ⟨root, hrun, congrArg Prod.fst hcounted, congrArg Prod.snd hcounted, hbounds.1⟩

end Explore

end StoryAtlas
