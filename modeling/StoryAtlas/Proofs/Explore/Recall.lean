import StoryAtlas.Proofs.Explore.History

/-!
# What is remembered was met

The places and the menus that the ledger of an exploration remembers are those of stops in its
history, each under the id of the node that was made of the stop. Whatever a stop is referred to was
therefore made of an earlier stop under the same key.

The nodes that are made of the stops and glances of a history have ids of their own, so that an id
tells which entry it is about.
-/

namespace StoryAtlas.Explore

variable {setting : Setting} {before middle after : Ledger} {log more : List Entry} {stop : Stop}

/-! ### The ids of the entries -/

def issued (log : List Entry) : List Int :=
  log.filterMap fun entry => entry.node?.map fun node => node.value.id

theorem issued_append (log more : List Entry) : issued (log ++ more) = issued log ++ issued more :=
  List.filterMap_append

theorem issued_cons {entry : Entry} {node : Node} (h : entry.node? = some node) :
    issued (entry :: log) = node.value.id :: issued log := by
  refine List.filterMap_cons_some ?_
  rw [h, Option.map_some]

/-- The nodes made of the entries use distinct ids between the next id before and the one after. -/
structure Issues (before after : Ledger) (log : List Entry) : Prop where
  le : before.nextId ≤ after.nextId
  within : ∀ id ∈ issued log, before.nextId ≤ id ∧ id < after.nextId
  distinct : (issued log).Nodup

namespace Issues

theorem of_le (hle : before.nextId ≤ after.nextId) (hlog : issued log = []) :
    Issues before after log := by
  refine ⟨hle, ?_, ?_⟩
  all_goals rw [hlog]
  · exact nofun
  · exact List.nodup_nil

theorem append (first : Issues before middle log) (second : Issues middle after more) :
    Issues before after (log ++ more) := by
  have happend := issued_append log more
  have hfirst := first.le
  have hsecond := second.le
  refine ⟨Int.le_trans hfirst hsecond, fun id hid => ?_, ?_⟩
  · rw [happend, List.mem_append] at hid
    rcases hid with hid | hid
    · have := first.within id hid
      omega
    · have := second.within id hid
      omega
  · rw [happend]
    refine first.distinct.append second.distinct fun id hid hlater => ?_
    have := first.within id hid
    have := second.within id hlater
    omega

theorem then_le (h : Issues before middle log) (hle : middle.nextId ≤ after.nextId) :
    Issues before after log :=
  ⟨Int.le_trans h.le hle,
    fun id hid => ⟨(h.within id hid).1, Int.lt_of_lt_of_le (h.within id hid).2 hle⟩, h.distinct⟩

theorem cons {entry : Entry} {node : Node} (hnode : entry.node? = some node)
    (hid : node.value.id = before.nextId) (hnext : middle.nextId = before.nextId + 1)
    (h : Issues middle after log) : Issues before after (entry :: log) := by
  have hlog : issued (entry :: log) = before.nextId :: issued log := hid ▸ issued_cons hnode
  have hle := h.le
  refine ⟨by omega, ?_, ?_⟩
  all_goals rw [hlog]
  · refine List.forall_mem_cons.2 ⟨by omega, fun id hmem => ?_⟩
    have := h.within id hmem
    omega
  · refine List.nodup_cons.2 ⟨fun hmem => ?_, h.distinct⟩
    have := h.within _ hmem
    omega

theorem closed {outcome : Except Fault (Option Node)}
    (h : Numbered stop.id after.nextId (yielded outcome)) :
    Issues stop.world.ledger after [.settled stop outcome] := by
  obtain fault | _ | node := outcome
  · exact of_le h.le rfl
  · exact of_le h.le rfl
  · have hroot : node.value.id ∈ (yielded (.ok (some node))).flatMap Node.ids := by
      obtain ⟨beat, children⟩ := node
      simp [yielded, Except.toOption, Node.ids_node]
    refine ⟨h.le, fun id hid => ?_, List.nodup_singleton node.value.id⟩
    rw [List.mem_singleton.1 hid]
    exact h.within _ hroot

theorem tracing (setting : Setting) :
    Tracing setting fun before after _ log => Issues before after log where
  idle hsame := of_le (Int.le_of_eq hsame.nextId.symm) rfl
  append := append
  handed _ h := h.then_le (Int.le_of_eq (SameBooks.handed ..).nextId.symm)
  glanced _ _ _ hsame :=
    cons rfl rfl rfl (of_le (Int.le_of_eq hsame.nextId.symm) rfl)
  cut hsame := of_le (hsame.nextId ▸ Int.le_of_lt (Int.lt_succ _)) rfl
  closed _ _ _ hnumbered := closed hnumbered
  opened _ _ _ h :=
    cons rfl (Stop.id_finished ..) (nextId_opened ..) (h.then_le (Stop.le_nextId_finished ..))

end Issues

/-! ### Where places and menus were met -/

/-- A node with the id was made of a stop at the place. -/
def PlaceMet (log : List Entry) (hash : String) (id : Int) : Prop :=
  ∃ stop node, .settled stop (.ok (some node)) ∈ log ∧ node.value.id = id ∧
    stop.scene.stateHash = hash

/-- A node with the id was made of a stop with the menu, and its choices were explored. -/
def MenuMet (setting : Setting) (log : List Entry) (key : String) (id : Int) : Prop :=
  ∃ stop node, .settled stop (.ok (some node)) ∈ log ∧ node.value.id = id ∧
    stop.Opens setting ∧ stop.signature setting = some key

/-- What a ledger remembers was remembered before, or is written down. -/
structure Recalls (setting : Setting) (before ledger : Ledger) (log : List Entry) : Prop where
  states : ∀ entry ∈ ledger.states, entry ∈ before.states ∨ PlaceMet log entry.1 entry.2
  converged : ∀ entry ∈ ledger.converged,
    entry ∈ before.converged ∨ MenuMet setting log entry.1 entry.2

namespace Recalls

theorem of_same (hstates : after.states = before.states)
    (hconverged : after.converged = before.converged) : Recalls setting before after log :=
  ⟨fun _ hentry => .inl (hstates ▸ hentry), fun _ hentry => .inl (hconverged ▸ hentry)⟩

theorem mono (h : Recalls setting before after log) (hlog : log ⊆ more) :
    Recalls setting before after more where
  states entry hentry := (h.states entry hentry).imp_right
    fun ⟨stop, node, hmem, hrest⟩ => ⟨stop, node, hlog hmem, hrest⟩
  converged entry hentry := (h.converged entry hentry).imp_right
    fun ⟨stop, node, hmem, hrest⟩ => ⟨stop, node, hlog hmem, hrest⟩

theorem trans (first : Recalls setting before middle log)
    (second : Recalls setting middle after log) : Recalls setting before after log where
  states entry hentry := (second.states entry hentry).elim (first.states entry) .inr
  converged entry hentry := (second.converged entry hentry).elim (first.converged entry) .inr

theorem then_same (h : Recalls setting before middle log) (hstates : after.states = middle.states)
    (hconverged : after.converged = middle.converged) : Recalls setting before after log :=
  ⟨hstates ▸ h.states, hconverged ▸ h.converged⟩

/-- A place that is stored for a stop is the place of the stop. -/
theorem of_states {node : Node} (hnode : .settled stop (.ok (some node)) ∈ log)
    (hid : node.value.id = stop.id)
    (hstates : after.states = stop.world.ledger.states ∨
      after.states = Register.put stop.scene.stateHash stop.id stop.world.ledger.states)
    (hconverged : after.converged = stop.world.ledger.converged) :
    Recalls setting stop.world.ledger after log := by
  refine ⟨fun entry hentry => ?_, fun entry hentry => .inl (hconverged ▸ hentry)⟩
  rcases hstates with hsame | hput
  · exact .inl (hsame ▸ hentry)
  · rw [hput] at hentry
    rcases Register.mem_put hentry with rfl | hold
    · exact .inr ⟨stop, node, hnode, hid, rfl⟩
    · exact .inl hold

theorem closed {outcome : Except Fault (Option Node)} {world : World}
    (hcloses : stop.Closes setting (outcome, world)) :
    Recalls setting stop.world.ledger world.ledger [.settled stop outcome] := by
  rcases hcloses.states with hsame | ⟨hput, node, rfl, hid⟩
  · exact of_same hsame hcloses.converged_eq
  · exact of_states List.mem_cons_self hid (.inr hput) hcloses.converged_eq

theorem finished {children : List Node} (hopens : stop.Opens setting)
    (hlog : .settled stop (.ok (some (stop.finished setting children middle).1)) ∈ log) :
    Recalls setting middle (stop.finished setting children middle).2 log := by
  obtain ⟨hstates, hmenu⟩ := Stop.finished_books setting stop children middle
  refine ⟨fun entry hentry => .inl (hstates ▸ hentry), fun entry hentry => ?_⟩
  rcases hmenu with hsame | ⟨key, hkey, hput⟩
  · exact .inl (hsame ▸ hentry)
  · rw [hput] at hentry
    rcases Register.mem_put hentry with rfl | hold
    · exact .inr ⟨stop, _, hlog, Stop.id_finished .., hopens, hkey⟩
    · exact .inl hold

end Recalls

/-- What is remembered at the end of a stretch and at each of its stops was remembered before, or is
written down. -/
structure Recalling (setting : Setting) (before after : Ledger) (log : List Entry) : Prop where
  last : Recalls setting before after log
  stops : ∀ stop outcome, .settled stop outcome ∈ log →
    Recalls setting before stop.world.ledger log

namespace Recalling

theorem of_same (hstates : after.states = before.states)
    (hconverged : after.converged = before.converged) (hlog : log.filterMap Entry.stop? = []) :
    Recalling setting before after log where
  last := .of_same hstates hconverged
  stops stop outcome hstop := by
    have hmem : stop ∈ log.filterMap Entry.stop? := List.mem_filterMap.2 ⟨_, hstop, rfl⟩
    rw [hlog] at hmem
    cases hmem

theorem append (first : Recalling setting before middle log)
    (second : Recalling setting middle after more) :
    Recalling setting before after (log ++ more) where
  last := (first.last.mono (List.subset_append_left _ _)).trans
    (second.last.mono (List.subset_append_right _ _))
  stops stop outcome hstop := by
    have hfirst := first.last.mono (List.subset_append_left log more)
    rcases List.mem_append.1 hstop with hstop | hstop
    · exact (first.stops stop outcome hstop).mono (List.subset_append_left _ _)
    · exact hfirst.trans ((second.stops stop outcome hstop).mono (List.subset_append_right _ _))

theorem opened {children : List Node} (hopens : stop.Opens setting)
    (h : Recalling setting (opened setting stop.scene stop.world).ledger middle log) :
    Recalling setting stop.world.ledger (stop.finished setting children middle).2
      (.settled stop (.ok (some (stop.finished setting children middle).1)) :: log) := by
  have hself : Recalls setting stop.world.ledger
      (Explore.opened setting stop.scene stop.world).ledger
      (.settled stop (.ok (some (stop.finished setting children middle).1)) :: log) :=
    .of_states List.mem_cons_self (Stop.id_finished ..) (Stop.states_opened ..)
      (converged_opened ..)
  refine ⟨?_, fun other outcome hother => ?_⟩
  · have hbelow := hself.trans (h.last.mono (List.subset_cons_self _ _))
    exact hbelow.trans (.finished hopens List.mem_cons_self)
  · rcases List.mem_cons.1 hother with heq | hother
    · obtain ⟨rfl, -⟩ := Entry.settled.inj heq
      exact .of_same rfl rfl
    · exact hself.trans ((h.stops other outcome hother).mono (List.subset_cons_self _ _))

theorem tracing (setting : Setting) :
    Tracing setting fun before after _ log => Recalling setting before after log where
  idle hsame := of_same hsame.states hsame.converged rfl
  append := append
  handed _ h := ⟨h.last.then_same (SameBooks.handed ..).states (SameBooks.handed ..).converged,
    h.stops⟩
  glanced _ _ _ hsame := of_same hsame.states hsame.converged rfl
  cut hsame := of_same hsame.states hsame.converged rfl
  closed _ _ hcloses _ := by
    refine ⟨.closed hcloses, fun stop outcome hstop => ?_⟩
    obtain ⟨rfl, -⟩ := Entry.settled.inj (List.mem_singleton.1 hstop)
    exact .of_same rfl rfl
  opened _ hopens _ h := h.opened hopens

end Recalling

theorem recalls_chronicle (h : stop ∈ stops (chronicle setting)) :
    Recalls setting {} stop.world.ledger (entries (chronicle setting)) := by
  obtain ⟨outcome, hentry⟩ := settled_of_mem_stops h
  exact (kept_run (Recalling.tracing setting)).stops stop outcome hentry

/-- A place that is known at a stop was met before. -/
theorem placeMet_of_get? (h : stop ∈ stops (chronicle setting)) {hash : String} {id : Int}
    (hget : Register.get? hash stop.world.ledger.states = some id) :
    PlaceMet (entries (chronicle setting)) hash id :=
  ((recalls_chronicle h).states _ (Register.mem_of_get? hget)).resolve_left nofun

/-- A menu that is known at a stop was met before. -/
theorem menuMet_of_get? (h : stop ∈ stops (chronicle setting)) {key : String} {id : Int}
    (hget : Register.get? key stop.world.ledger.converged = some id) :
    MenuMet setting (entries (chronicle setting)) key id :=
  ((recalls_chronicle h).converged _ (Register.mem_of_get? hget)).resolve_left nofun

end StoryAtlas.Explore
