import StoryAtlas.Proofs.Explore.Recall

/-!
# Which nodes are fights

A node is a fight if the raw text that was read for it starts one. Each way to settle a stop types
its node by the raw text, and what happens to the node afterwards changes no types: it gets the
label of its choice, it may be split and it may be folded onto the hub. A node that is split off is
never a fight, and no more are the results of knots and the marker of a branch that is too deep. So
in the finished tree a node is a fight exactly where it was made as one.

Where an exploration only looks ahead, the node is typed by the clean text. Cleaning takes commands
out of a text, and with them what starts a fight.
-/

namespace StoryAtlas

def StartsFight (text : String) : Prop := Text.mentions text "COMBAT:" = true

theorem Kind.ofText_eq_combat {text : String} {isLeaf : Bool} :
    Kind.ofText text isLeaf = .combat ↔ StartsFight text := by
  unfold Kind.ofText StartsFight
  split
  · next hempty =>
    rw [String.isEmpty_iff.1 hempty]
    decide
  split
  · next hfight => simp [hfight]
  · next hpeace =>
    split <;> simp [hpeace]

namespace Explore

variable {setting : Setting} {before middle after : Ledger} {nodes others : List Node}
  {log more : List Entry} {stop : Stop}

/-! ### Fights among the entries -/

/-- The node of a stop is a fight exactly if the raw text starts one, or the stop branches into
knots and its node has a type of its own. The node of a glance is a fight exactly if the clean text
starts one. -/
def Entry.Typed (setting : Setting) : Entry → Prop
  | settled stop outcome => ∀ node, outcome = .ok (some node) →
      (node.value.kind = .combat ↔ StartsFight stop.scene.stretch.text) ∨
        node.value.kind = .special ∧
          ∃ command, stop.scene.branching setting branchingCommand = some command
  | glanced stretch node => node.value.kind = .combat ↔
      StartsFight (Extract.ofText setting.bytecode.lexicon stretch.text).text

def Entry.glance? : Entry → Option (Stretch × Node)
  | settled _ _ => none
  | glanced stretch node => some (stretch, node)

theorem Entry.glance?_eq_some {entry : Entry} {stretch : Stretch} {node : Node}
    (h : entry.glance? = some (stretch, node)) : entry = .glanced stretch node := by
  cases entry with
  | settled stop outcome => cases h
  | glanced found made =>
      obtain ⟨rfl, rfl⟩ := Prod.mk.inj (Option.some.inj h)
      rfl

theorem Stop.Looked.kind_eq_combat (h : stop.Looked setting) :
    stop.scene.kind = .combat ↔ StartsFight stop.scene.stretch.text := by
  obtain ⟨stretch, labels, location, -, -, hscene⟩ := h.scene_eq
  rw [hscene]
  exact Kind.ofText_eq_combat

theorem kind_expand {command : String} {effects : List String} {ledger later : Ledger} {node : Node}
    (h : expand setting command effects ledger = (.ok node, later)) :
    node.value.kind = .special := by
  obtain ⟨id, results, rfl, -⟩ := exists_of_expand h
  rfl

/-- However a stop is closed, its node has the type of its raw text. -/
theorem Stop.Closes.typed {outcome : Except Fault (Option Node)} {world : World}
    (h : stop.Closes setting (outcome, world)) (hlooked : stop.Looked setting) :
    (Entry.settled stop outcome).Typed setting := by
  intro node hnode
  rw [← hlooked.kind_eq_combat]
  cases h with
  | textLoop ref found =>
      cases hnode
      exact .inl Iff.rfl
  | repeatedState ref found =>
      cases hnode
      exact .inl Iff.rfl
  | dropped => cases hnode
  | expanded command root ledger found made =>
      cases hnode
      exact .inr ⟨kind_expand made, command, found⟩
  | unexpanded command fault ledger found failed => cases hnode
  | bare =>
      cases hnode
      left
      change (if stop.scene.kind = .combat then Kind.combat else .ending) = .combat ↔ _
      split <;> simp_all
  | leaf =>
      cases hnode
      left
      change (if stop.scene.kind = .dialogue then Kind.ending else stop.scene.kind) = .combat ↔ _
      split <;> simp_all
  | converged ref known =>
      cases hnode
      exact .inl Iff.rfl

theorem typed_finished (hlooked : stop.Looked setting) (children : List Node) (ledger : Ledger) :
    (Entry.settled stop (.ok (some (stop.finished setting children ledger).1))).Typed setting := by
  intro node hnode
  obtain rfl : (stop.finished setting children ledger).1 = node :=
    Option.some.inj (Except.ok.inj hnode)
  rw [← hlooked.kind_eq_combat]
  left
  obtain ⟨hubId, hmade⟩ | hmade :=
    finish_node setting stop.scene (stop.signature setting) stop.id children ledger
  · rw [Stop.finished, hmade]
    change (if stop.scene.kind = .choice then Kind.dialogue else stop.scene.kind) = .combat ↔ _
    split <;> simp_all
  · rw [Stop.finished, hmade]
    exact Iff.rfl

theorem tracing_typed (setting : Setting) :
    Tracing setting fun _ _ _ log => ∀ entry ∈ log, entry.Typed setting where
  idle _ _ hentry := absurd hentry List.not_mem_nil
  append first second entry hentry := (List.mem_append.1 hentry).elim (first entry) (second entry)
  handed _ h := h
  glanced _ _ _ _ := List.forall_mem_singleton.2 Kind.ofText_eq_combat
  cut _ _ hentry := absurd hentry List.not_mem_nil
  closed hlooked _ hcloses _ := List.forall_mem_singleton.2 (hcloses.typed hlooked)
  opened hlooked _ _ h := List.forall_mem_cons.2 ⟨typed_finished hlooked _ _, h⟩

/-! ### Nodes that are no fights -/

def Peaceful (nodes : List Node) : Prop :=
  ∀ node ∈ Rose.walkForest nodes, (Rose.value node).kind ≠ .combat

theorem peaceful_nil : Peaceful [] := nofun

/-- Below a node that branches into knots there are no fights. -/
theorem peaceful_expand {command : String} {effects : List String} {ledger later : Ledger}
    {node : Node} (h : expand setting command effects ledger = (.ok node, later)) :
    Peaceful node.children := by
  obtain ⟨id, results, rfl, hresults⟩ := exists_of_expand h
  intro inner hinner
  obtain ⟨result, hresult, hwalk⟩ := Rose.mem_walkForest.1 hinner
  obtain ⟨⟩ := hresults result hresult
  rcases Rose.mem_walk.1 hwalk with rfl | hend
  · exact nofun
  · rw [List.mem_singleton.1 hend]
    exact nofun

theorem Stop.Closes.peaceful {node : Node} {world : World}
    (h : stop.Closes setting (.ok (some node), world)) : Peaceful node.children := by
  cases h with
  | expanded command root ledger found made => exact peaceful_expand made
  | _ => exact peaceful_nil

/-- Below a finished node stand the children, and what was split off. -/
theorem mem_walk_finished {children : List Node} {ledger : Ledger} {node : Node}
    (h : node ∈ (stop.finished setting children ledger).1.walk) :
    node = (stop.finished setting children ledger).1 ∨ node ∈ Rose.walkForest children ∨
      node.value.id = ledger.nextId ∧ node.value.kind ≠ .combat := by
  rcases Rose.mem_walk.1 h with rfl | hbelow
  · exact .inl rfl
  right
  obtain ⟨hubId, hmade⟩ | hmade :=
    finish_node setting stop.scene (stop.signature setting) stop.id children ledger
  · rw [Stop.finished, hmade] at hbelow
    cases hbelow
  rw [Stop.finished, hmade, Rose.children_node] at hbelow
  obtain ⟨-, hsame⟩ | ⟨beat, -, hsplit, hid, -, -, hkind⟩ :=
    partsOf_children setting stop.scene children ledger.nextId
  · exact .inl (hsame ▸ hbelow)
  · rw [hsplit, Rose.walkForest_singleton] at hbelow
    rcases Rose.mem_walk.1 hbelow with rfl | hchild
    · refine .inr ⟨hid, ?_⟩
      rw [Rose.value_node, hkind]
      split <;> decide
    · exact .inl hchild

/-! ### Where the nodes come from -/

/-- The node is as it was made of an entry, or it was made of none and is no fight. -/
def Told (log : List Entry) (node : Node) : Prop :=
  (∃ entry ∈ log, ∃ made, entry.node? = some made ∧ made.value.id = node.value.id ∧
      made.value.kind = node.value.kind) ∨
    node.value.kind ≠ .combat ∧ node.value.id ∉ issued log

namespace Told

variable {node old : Node}

theorem of_same (h : Told log old) (hid : node.value.id = old.value.id)
    (hkind : node.value.kind = old.value.kind) : Told log node := by
  rw [Told, hid, hkind]
  exact h

theorem mono (h : Told log node) (hlog : log ⊆ more)
    (hfree : node.value.id ∈ issued more → node.value.id ∈ issued log) : Told more node := by
  obtain ⟨entry, hentry, hmade⟩ | ⟨hkind, hid⟩ := h
  · exact .inl ⟨entry, hlog hentry, hmade⟩
  · exact .inr ⟨hkind, fun hmem => hid (hfree hmem)⟩

end Told

/-- Folding keeps ids and types. -/
theorem exists_of_mem_walk_foldHub {menu : Option Menu} {hub : HubSnapshot} {child node : Node}
    (h : node ∈ (foldHub menu hub child).walk) :
    ∃ old ∈ child.walk, node.value.id = old.value.id ∧ node.value.kind = old.value.kind := by
  induction child using Rose.induction_on with
  | node beat children ih =>
      rw [foldHub, foldHubs_eq_map] at h
      split at h
      · rw [List.mem_singleton.1 h]
        exact ⟨_, Rose.self_mem_walk _, rfl, rfl⟩
      · rcases Rose.mem_walk.1 h with rfl | hbelow
        · exact ⟨_, Rose.self_mem_walk _, rfl, rfl⟩
        · obtain ⟨folded, hfolded, hnode⟩ := Rose.mem_walkForest.1 hbelow
          obtain ⟨child, hchild, rfl⟩ := List.mem_map.1 hfolded
          obtain ⟨old, hold, hsame⟩ := ih child hchild hnode
          exact ⟨old, Rose.mem_walk_of_mem hchild hold, hsame⟩

theorem exists_of_mem_walk_handed {label : ChoiceLabel} {child node : Node} {world : World}
    (h : node ∈ (handed setting label child world).1.walk) :
    ∃ old ∈ child.walk, node.value.id = old.value.id ∧ node.value.kind = old.value.kind := by
  obtain ⟨beat, children⟩ := child
  rw [handed] at h
  obtain hsame | ⟨hub, warned, entries, -, -, hfold⟩ :=
    foldBelow_eq setting (Rose.withValue (labelBeat label beat) (.node beat children)) world
  · rw [Rose.value_node, hsame] at h
    rcases Rose.mem_walk.1 h with rfl | hbelow
    · exact ⟨_, Rose.self_mem_walk _, rfl, rfl⟩
    · exact ⟨node, Rose.mem_walk.2 (.inr hbelow), rfl, rfl⟩
  · rw [Rose.value_node, hfold] at h
    rcases Rose.mem_walk.1 h with rfl | hbelow
    · exact ⟨_, Rose.self_mem_walk _, rfl, rfl⟩
    · obtain ⟨folded, hfolded, hnode⟩ := Rose.mem_walkForest.1 hbelow
      obtain ⟨child, hchild, rfl⟩ := List.mem_map.1 hfolded
      obtain ⟨old, hold, hsame⟩ := exists_of_mem_walk_foldHub hnode
      exact ⟨old, Rose.mem_walk_of_mem hchild hold, hsame⟩

theorem id_mem_ids_of_mem_walkForest {node : Node} (h : node ∈ Rose.walkForest nodes) :
    node.value.id ∈ nodes.flatMap Node.ids := by
  obtain ⟨root, hroot, hnode⟩ := Rose.mem_walkForest.1 h
  exact List.mem_flatMap.2 ⟨root, hroot, Node.id_mem_ids hnode⟩

theorem mem_yielded {result : Except Fault (Option Node)} {root : Node} :
    root ∈ yielded result ↔ result = .ok (some root) := by
  obtain fault | _ | node := result
  · simp [yielded, Except.toOption]
  · simp [yielded, Except.toOption]
  · simp [yielded, Except.toOption, eq_comm]

/-- The nodes of a stretch have ids of the stretch, and the types of the entries they were made
of. -/
structure Kinds (before after : Ledger) (nodes : List Node) (log : List Entry) : Prop where
  issues : Issues before after log
  within : ∀ node ∈ Rose.walkForest nodes,
    before.nextId ≤ node.value.id ∧ node.value.id < after.nextId
  told : ∀ node ∈ Rose.walkForest nodes, Told log node

namespace Kinds

theorem append (first : Kinds before middle nodes log) (second : Kinds middle after others more) :
    Kinds before after (nodes ++ others) (log ++ more) := by
  have hfirst := first.issues.le
  have hsecond := second.issues.le
  refine ⟨first.issues.append second.issues, ?_, ?_⟩
  all_goals
    intro node hnode
    rw [Rose.walkForest_append, List.mem_append] at hnode
  · rcases hnode with hnode | hnode
    · have := first.within node hnode
      omega
    · have := second.within node hnode
      omega
  -- a node of one stretch has no id that was issued in the other
  · rcases hnode with hnode | hnode
    · refine (first.told node hnode).mono (List.subset_append_left _ _) fun hid => ?_
      rw [issued_append, List.mem_append] at hid
      refine hid.resolve_right fun hlater => ?_
      have := first.within node hnode
      have := second.issues.within _ hlater
      omega
    · refine (second.told node hnode).mono (List.subset_append_right _ _) fun hid => ?_
      rw [issued_append, List.mem_append] at hid
      refine hid.resolve_left fun hearlier => ?_
      have := second.within node hnode
      have := first.issues.within _ hearlier
      omega

theorem lone {entry : Entry} {beat : Beat} (hnode : entry.node? = some (.node beat []))
    (hid : beat.id = before.nextId) (hnext : after.nextId = before.nextId + 1) :
    Kinds before after [.node beat []] [entry] := by
  refine ⟨.cons hnode hid hnext (.of_le (Int.le_refl _) rfl), ?_, ?_⟩
  all_goals
    intro node hmem
    rw [List.mem_singleton.1 hmem]
  · rw [Rose.value_node]
    omega
  · exact .inl ⟨entry, List.mem_cons_self, _, hnode, rfl, rfl⟩

theorem handed {label : ChoiceLabel} {child : Node} {world : World}
    (h : Kinds before world.ledger [child] log) :
    Kinds before (handed setting label child world).2.ledger [(handed setting label child world).1]
      log := by
  have hold : ∀ node ∈ Rose.walkForest [(Explore.handed setting label child world).1],
      ∃ old ∈ Rose.walkForest [child],
        node.value.id = old.value.id ∧ node.value.kind = old.value.kind := by
    intro node hnode
    rw [Rose.walkForest_singleton] at hnode ⊢
    exact exists_of_mem_walk_handed hnode
  refine ⟨(Issues.tracing setting).handed label h.issues, ?_, ?_⟩
  all_goals intro node hnode
  · obtain ⟨old, hmem, hid, -⟩ := hold node hnode
    rw [hid, (SameBooks.handed setting label child world).nextId]
    exact h.within old hmem
  · obtain ⟨old, hmem, hid, hkind⟩ := hold node hnode
    exact (h.told old hmem).of_same hid hkind

/-- The root of a stop that is closed was made of it, and below it nothing is a fight. -/
theorem closed {outcome : Except Fault (Option Node)} {world : World}
    (hcloses : stop.Closes setting (outcome, world))
    (hnumbered : Numbered stop.id world.ledger.nextId (yielded outcome)) :
    Kinds stop.world.ledger world.ledger (yielded outcome) [.settled stop outcome] := by
  refine ⟨.closed hnumbered,
    fun node hnode => hnumbered.within _ (id_mem_ids_of_mem_walkForest hnode), ?_⟩
  intro node hnode
  obtain fault | _ | root := outcome
  · cases hnode
  · cases hnode
  have hwalk : node ∈ root.walk := Rose.walkForest_singleton root ▸ hnode
  rcases Rose.mem_walk.1 hwalk with rfl | hbelow
  · exact .inl ⟨_, List.mem_cons_self, _, rfl, rfl, rfl⟩
  · refine .inr ⟨hcloses.peaceful node hbelow, fun hid => ?_⟩
    have hroot : node.value.id = root.value.id := List.mem_singleton.1 hid
    have hdistinct : (Node.ids root).Nodup := by
      simpa [yielded, Except.toOption] using hnumbered.distinct
    obtain ⟨beat, children⟩ := root
    rw [Node.ids_node, List.nodup_cons] at hdistinct
    exact hdistinct.1 (hroot ▸ id_mem_ids_of_mem_walkForest hbelow)

theorem opened {children : List Node} (hlooked : stop.Looked setting)
    (hopens : stop.Opens setting) (hnumbered : Numbered (stop.id + 1) after.nextId children)
    (h : Kinds (opened setting stop.scene stop.world).ledger after children log) :
    Kinds stop.world.ledger (stop.finished setting children after).2
      [(stop.finished setting children after).1]
      (.settled stop (.ok (some (stop.finished setting children after).1)) :: log) := by
  have hfinished : Numbered stop.id (stop.finished setting children after).2.nextId
      [(stop.finished setting children after).1] := numbered_finish setting stop.scene _ _ hnumbered
  have hissued : issued (.settled stop (.ok (some (stop.finished setting children after).1)) ::
      log) = stop.id :: issued log := by
    rw [issued_cons rfl, Stop.id_finished]
  refine ⟨(Issues.tracing setting).opened hlooked hopens hnumbered h.issues,
    fun node hnode => hfinished.within _ (id_mem_ids_of_mem_walkForest hnode), ?_⟩
  intro node hnode
  rw [Rose.walkForest_singleton] at hnode
  have hle := hnumbered.le
  rcases mem_walk_finished hnode with rfl | hchild | ⟨hid, hkind⟩
  · exact .inl ⟨_, List.mem_cons_self, _, rfl, rfl, rfl⟩
  · refine (h.told node hchild).mono (List.subset_cons_self _ _) fun hmem => ?_
    rw [hissued, List.mem_cons] at hmem
    refine hmem.resolve_left fun hself => ?_
    have := hnumbered.within _ (id_mem_ids_of_mem_walkForest hchild)
    omega
  -- what was split off takes its id after all entries
  · refine .inr ⟨hkind, fun hmem => ?_⟩
    rw [hissued, List.mem_cons, hid] at hmem
    rcases hmem with hself | hmem
    · omega
    · have := h.issues.within _ hmem
      omega

theorem tracing (setting : Setting) : Tracing setting Kinds where
  idle hsame := ⟨(Issues.tracing setting).idle hsame, nofun, nofun⟩
  append := append
  handed _ h := h.handed
  glanced _ _ _ hsame := lone rfl rfl hsame.nextId
  cut hsame := by
    refine ⟨(Issues.tracing setting).cut hsame, fun node hnode => ?_, fun node hnode => ?_⟩
    · rw [List.mem_singleton.1 hnode, hsame.nextId]
      exact ⟨Int.le_refl _, Int.lt_succ _⟩
    · rw [List.mem_singleton.1 hnode]
      exact .inr ⟨nofun, nofun⟩
  closed _ _ hcloses hnumbered := closed hcloses hnumbered
  opened hlooked hopens hnumbered h := h.opened hlooked hopens hnumbered

/-- A node with the id of one that was made of an entry has its type. -/
theorem kind_eq {node made : Node} {entry : Entry} (h : Kinds before after nodes log)
    (hnode : node ∈ Rose.walkForest nodes) (hentry : entry ∈ log) (hmade : entry.node? = some made)
    (hid : made.value.id = node.value.id) : node.value.kind = made.value.kind := by
  have hkeys : issued log = (log.filterMap Entry.node?).map fun node => node.value.id := by
    rw [issued, List.map_filterMap]
  have hdistinct := h.issues.distinct
  rw [hkeys] at hdistinct
  have hmem : made ∈ log.filterMap Entry.node? := List.mem_filterMap.2 ⟨entry, hentry, hmade⟩
  obtain ⟨source, hsource, other, hother, hsame, hkind⟩ | ⟨-, hnone⟩ := h.told node hnode
  · have hmem' : other ∈ log.filterMap Entry.node? := List.mem_filterMap.2 ⟨source, hsource, hother⟩
    rw [← hkind, List.inj_on_of_nodup_map hdistinct hmem' hmem (hsame.trans hid.symm)]
  · refine absurd ?_ hnone
    rw [hkeys, ← hid]
    exact List.mem_map_of_mem hmem

end Kinds

/-- An id tells what a node of an exploration was made of. A node made of a stop is a fight exactly
if the raw text starts one, apart from what branches into knots, and a node made of a glance exactly
if the clean text starts one. There are no other fights. -/
theorem fights_of_run (setting : Setting) {root : Node} (hrun : (run setting).1 = .ok (some root)) :
    (issued (entries (chronicle setting))).Nodup ∧ ∀ node ∈ root.walk,
      (∀ stop made, .settled stop (.ok (some made)) ∈ entries (chronicle setting) →
        made.value.id = node.value.id →
          (node.value.kind = .combat ↔ StartsFight stop.scene.stretch.text) ∨
            node.value.kind = .special ∧
              ∃ command, stop.scene.branching setting branchingCommand = some command) ∧
      (∀ stretch made, .glanced stretch made ∈ entries (chronicle setting) →
        made.value.id = node.value.id →
          (node.value.kind = .combat ↔
            StartsFight (Extract.ofText setting.bytecode.lexicon stretch.text).text)) ∧
      (node.value.kind = .combat → ∃ entry ∈ entries (chronicle setting), ∃ made,
        entry.node? = some made ∧ made.value.id = node.value.id) := by
  have hkinds := kept_run (Kinds.tracing setting)
  have htyped := kept_run (tracing_typed setting)
  refine ⟨hkinds.issues.distinct, fun node hnode => ?_⟩
  have hwalk : node ∈ Rose.walkForest (yielded (run setting).1) :=
    Rose.mem_walkForest.2 ⟨root, mem_yielded.2 hrun, hnode⟩
  refine ⟨fun stop made hentry hid => ?_, fun stretch made hentry hid => ?_, fun hfight => ?_⟩
  · rw [hkinds.kind_eq hwalk hentry rfl hid]
    exact htyped _ hentry made rfl
  · rw [hkinds.kind_eq hwalk hentry rfl hid]
    exact htyped _ hentry
  · obtain ⟨entry, hentry, made, hmade, hid, -⟩ | ⟨hkind, -⟩ := hkinds.told node hwalk
    · exact ⟨entry, hentry, made, hmade, hid⟩
    · exact absurd hfight hkind

/-- A taproom where a brawl is only looked ahead at, and a road with a wolf on it. -/
def taproom : Setting where
  unit := "Taproom"
  script := {
    passages := [
      ("start", {
        lines := [some "A taproom."]
        choices := [⟨"Brawl", "brawl", false⟩, ⟨"Leave", "road", false⟩] }),
      ("brawl", { lines := [some "Fists fly.", some ">>>>COMBAT:Goblin"] }),
      ("road", { lines := [some "A wolf.", some ">>>>COMBAT:Wolf"] })] }
  limits := { detectRepeatedStates := false }
  menu := some { hubPattern := "taproom", exitPatterns := ["Leave"] }

/-- The raw text of the brawl starts a fight, and its node is no fight. -/
theorem taproom_hides_fight : ∃ root, (run taproom).1 = .ok (some root) ∧
    ∃ node ∈ root.walk, node.value.kind = .dialogue ∧
      ∃ stretch made, .glanced stretch made ∈ entries (chronicle taproom) ∧
        made.value.id = node.value.id ∧ StartsFight stretch.text := by
  have hshown : ∃ root ∈ yielded (run taproom).1, ∃ node ∈ root.walk, node.value.kind = .dialogue ∧
      ∃ glance ∈ (entries (chronicle taproom)).filterMap Entry.glance?,
        glance.2.value.id = node.value.id ∧ Text.mentions glance.1.text "COMBAT:" = true := by
    decide +kernel
  obtain ⟨root, hroot, node, hnode, hkind, ⟨stretch, made⟩, hglance, hid, hfight⟩ := hshown
  obtain ⟨entry, hentry, hmade⟩ := List.mem_filterMap.1 hglance
  rw [Entry.glance?_eq_some hmade] at hentry
  exact ⟨root, mem_yielded.1 hroot, node, hnode, hkind, stretch, made, hentry, hid, hfight⟩

theorem fights_of_run_taproom : ∃ root, (run taproom).1 = .ok (some root) ∧
    ∃ node ∈ root.walk, node.value.kind = .combat ∧
      ∃ entry ∈ entries (chronicle taproom), ∃ made, entry.node? = some made ∧
        made.value.id = node.value.id := by
  have hshown : ∃ root ∈ yielded (run taproom).1,
      ∃ node ∈ root.walk, node.value.kind = .combat := by
    decide +kernel
  obtain ⟨root, hroot, node, hnode, hkind⟩ := hshown
  have hrun := mem_yielded.1 hroot
  exact ⟨root, hrun, node, hnode, hkind, ((fights_of_run taproom hrun).2 node hnode).2.2 hkind⟩

end Explore

end StoryAtlas
