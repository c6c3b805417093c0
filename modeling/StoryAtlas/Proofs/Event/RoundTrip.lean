import StoryAtlas.Proofs.Event.Payload

/-!
# Events make the round trip

An event that is written and read again is the same event, and written once more it is the same
document. A reader keeps the values that it could not take as what they should be, so this holds of
documents that were not written here just as of those that were: what is stray is found again where
it stood. The only thing that a document does not tell is the next free id, which the reader puts
right above the largest one in use.
-/

namespace StoryAtlas

namespace Slot

variable {first second : Beat} {slot : Slot} {value : Json}

theorem agrees_congr (hfirst : slot.agrees first value = true)
    (hsecond : slot.agrees second value = true) (other : Json) :
    slot.agrees first other = slot.agrees second other := by
  cases slot <;>
    · have hsame := (eq_of_beq hfirst).trans (eq_of_beq hsecond).symm
      simp only [agrees, hsame]

end Slot

namespace Strays

variable {strays : Strays} {root node : Node} {first second : Beat} {slot : Slot} {value : Json}

/-- Each value is stray in the slot where it was found. -/
def Genuine (strays : Strays) : Prop := ∀ stray ∈ strays, stray.slot.fits stray.value = false

theorem Genuine.append {others : Strays} (h : strays.Genuine) (hothers : others.Genuine) :
    Genuine (strays ++ others) := fun stray hstray =>
  (List.mem_append.1 hstray).elim (h stray) (hothers stray)

theorem genuine_ofNode (fields : List (String × Json)) : (ofNode fields).Genuine := by
  unfold ofNode
  split
  · intro stray hstray
    obtain ⟨slot, -, hslot⟩ := List.mem_filterMap.1 hstray
    split at hslot
    · split at hslot
      · cases hslot
      · next hfits =>
        rw [← Option.some.inj hslot]
        exact Bool.eq_false_iff.2 hfits
    · cases hslot
  · nofun

mutual

theorem genuine_ofPayload : ∀ payload, (ofPayload payload).Genuine
  | .obj fields => (genuine_ofNode fields).append (genuine_ofChildren fields)
  | .null | .bool _ | .int _ | .float _ | .str _ | .arr _ => nofun

theorem genuine_ofChildren : ∀ fields, (ofChildren fields).Genuine
  | [] => nofun
  | (key, value) :: fields => by
    unfold ofChildren
    split
    · split
      · next _ items => exact genuine_ofPayloads items
      · nofun
    · exact genuine_ofChildren fields

theorem genuine_ofPayloads : ∀ items, (ofPayloads items).Genuine
  | [] => nofun
  | item :: items => (genuine_ofPayload item).append (genuine_ofPayloads items)

end

/-! ### What is written again -/

/-- A stray value stands for all beats of its id that have what it counts as. -/
theorem written_eq_of_agrees (hid : first.id = second.id)
    (hwritten : strays.written first slot = some value) (hstray : slot.fits value = false)
    (hagrees : slot.agrees second value = true) : strays.written second slot = some value := by
  rcases strays.written_cases first slot with hheld | ⟨_, hvalue, hfirst, -⟩
  · rw [fits_of_held (hheld.symm.trans hwritten)] at hstray
    cases hstray
  · obtain rfl : _ = value := Option.some.inj (hvalue.symm.trans hwritten)
    have htest : (fun stray : Stray => stray.id == first.id && stray.slot == slot &&
        slot.agrees first stray.value) = fun stray => stray.id == second.id && stray.slot == slot &&
        slot.agrees second stray.value := by
      funext stray
      rw [hid, Slot.agrees_congr hfirst hagrees]
    unfold written at hwritten ⊢
    rw [← htest]
    split at hwritten
    · exact hwritten
    · rw [fits_of_held hwritten] at hstray
      cases hstray

theorem mem_inNode {stray : Stray} : stray ∈ strays.inNode root ↔
    ∃ node ∈ root.walk, strays.strayAt? (Rose.value node) stray.slot = some stray := by
  rw [inNode, List.mem_flatMap]
  refine exists_congr fun node => and_congr_right fun _ => ?_
  rw [List.mem_filterMap]
  constructor
  · rintro ⟨slot, -, hslot⟩
    rwa [(strayAt?_eq_some_iff.1 hslot).2.1]
  · intro hslot
    refine ⟨stray.slot, ?_, hslot⟩
    cases stray.slot <;> simp [Slot.all]

theorem written_inNode (genuine : strays.Genuine) (hnode : node ∈ root.walk) (slot : Slot) :
    (strays.inNode root).written node.value slot = strays.written node.value slot := by
  rw [written]
  split
  · next found hfind =>
    obtain ⟨other, -, hother⟩ := mem_inNode.1 (List.mem_of_find?_eq_some hfind)
    obtain ⟨hid, -, hstray, hwritten⟩ := strayAt?_eq_some_iff.1 hother
    have htest := List.find?_some hfind
    simp only [Bool.and_eq_true, beq_iff_eq] at htest
    obtain ⟨⟨hnodeId, hslot⟩, hagrees⟩ := htest
    rw [hslot] at hwritten hstray
    exact (written_eq_of_agrees (hid.symm.trans hnodeId) hwritten hstray hagrees).symm
  · next hnone =>
    rcases strays.written_cases node.value slot with hheld | ⟨value, hvalue, hagrees, hmem⟩
    · exact hheld.symm
    · have hfound : strays.strayAt? node.value slot = some ⟨node.value.id, slot, value⟩ :=
        strayAt?_eq_some_iff.2 ⟨rfl, rfl, genuine _ hmem, hvalue⟩
      have hkept : (⟨node.value.id, slot, value⟩ : Stray) ∈ strays.inNode root :=
        mem_inNode.2 ⟨node, hnode, hfound⟩
      have htest := List.find?_eq_none.1 hnone _ hkept
      simp [hagrees] at htest

end Strays

namespace Node

/-- The strays of a tree matter only for what they write in it. -/
theorem toPayloadWith_congr {strays others : Strays} {root : Node}
    (h : ∀ node ∈ root.walk, ∀ slot,
      others.written (Rose.value node) slot = strays.written (Rose.value node) slot) :
    toPayloadWith others root = toPayloadWith strays root := by
  induction root using Rose.induction_on with
  | node beat children ih =>
      have hroot := h _ (Rose.self_mem_walk (.node beat children))
      have hchildren : children.map (toPayloadWith others) = children.map (toPayloadWith strays) :=
        List.map_congr_left fun child hchild => ih child hchild fun node hnode =>
          h node (Rose.mem_walk_of_mem hchild hnode)
      rw [toPayloadWith_node, toPayloadWith_node, hchildren, fieldsOf, fieldsOf, table, table]
      rw [Rose.value_node] at hroot
      rw [hroot, hroot, hroot, hroot]

theorem toPayloadWith_inNode {strays : Strays} (genuine : strays.Genuine) (root : Node) :
    toPayloadWith (strays.inNode root) root = toPayloadWith strays root :=
  toPayloadWith_congr fun _ hnode slot => Strays.written_inNode genuine hnode slot

theorem max?_ids (root : Node) : root.ids.max? = some (root.freshId - 1) := by
  have hroot : root.id ∈ root.ids := List.mem_map_of_mem (Rose.self_mem_walk root)
  have hmax : (root.id :: root.ids).max? = some (root.freshId - 1) := by
    rw [List.max?_cons', freshId, Int.add_sub_cancel]
  obtain ⟨hmem, hle⟩ := List.max?_eq_some_iff.1 hmax
  refine List.max?_eq_some_iff.2 ⟨?_, fun id hid => hle id (List.mem_cons_of_mem _ hid)⟩
  rcases List.mem_cons.1 hmem with hsame | hmem
  · rwa [hsame]
  · exact hmem

end Node

namespace EventTree

/-- The second event is what is read where the first was written. -/
structure Reread (tree again : EventTree) : Prop where
  name : again.name = tree.name
  kind : again.kind = tree.kind
  artwork : again.artwork = tree.artwork
  root : again.root = tree.root
  unused : tree.root = none → again.nextId = 0
  /-- The next id is one more than the largest, so that no id in use is given out again. -/
  nextId : ∀ root, tree.root = some root →
    root.ids.max? = some (again.nextId - 1) ∧ ∀ id ∈ root.ids, id < again.nextId
  written : again.toPayload = tree.toPayload

theorem exists_reread {tree : EventTree} (genuine : tree.strays.Genuine) :
    ∃ again, ofPayload tree.toPayload = .ok again ∧ Reread tree again := by
  refine ⟨_, ofPayload_toPayload_strays tree, rfl, rfl, rfl, rfl, ?_, ?_, ?_⟩
  · intro hnone
    rw [hnone]
    rfl
  · intro root hroot
    have hmax := root.max?_ids
    rw [hroot]
    refine ⟨hmax, fun id hid => ?_⟩
    exact Int.lt_of_le_sub_one ((List.max?_eq_some_iff.1 hmax).2 id hid)
  · obtain ⟨name, kind, artwork, root, nextId, strays⟩ := tree
    cases root with
    | none => rfl
    | some root =>
        have hwritten := Node.toPayloadWith_inNode genuine root
        simp only [toPayload, rootPayload, Json.ofOption, Option.map_some, Option.getD_some]
        rw [hwritten]

theorem genuine_of_read {payload : Json} {tree : EventTree} (h : ofPayload payload = .ok tree) :
    tree.strays.Genuine := by
  unfold ofPayload at h
  split at h
  · dsimp only at h
    cases hroot : readRoot ((payload.get? "rootNode").getD .null) with
    | error fault =>
        rw [hroot] at h
        cases h
    | ok root =>
        rw [hroot] at h
        cases h
        exact Strays.genuine_ofPayload _
  · cases h

/-- Writing and reading again gives back every node and every event, and then the same document; this
is so for events with stray values, whichever document these were read from. -/
theorem rereads {strays : Strays} (genuine : strays.Genuine) :
    (∀ root : Node, Node.ofPayload (root.toPayloadWith strays) = .ok root ∧
      root.toPayloadWith (Strays.ofPayload (root.toPayloadWith strays)) =
        root.toPayloadWith strays) ∧
    (∀ tree : EventTree, tree.strays = strays →
      ∃ again, ofPayload tree.toPayload = .ok again ∧ Reread tree again) ∧
    ∀ payload tree, ofPayload payload = .ok tree →
      ∃ again, ofPayload tree.toPayload = .ok again ∧ Reread tree again := by
  refine ⟨fun root => ⟨Node.ofPayload_toPayloadWith strays root, ?_⟩, ?_, fun payload tree h => ?_⟩
  · rw [Node.strays_ofPayload_toPayloadWith]
    exact Node.toPayloadWith_inNode genuine root
  · rintro tree rfl
    exact exists_reread genuine
  · exact exists_reread (genuine_of_read h)

/-- A gate where everything that is there is empty or zero, and where one count was no number. -/
def gate : EventTree where
  name := ""
  root := some (.node { id := 4, kind := .special, text := some "", refChildren := some [] } [
    .node { id := 0, kind := .ending, continues := some 0, ref := some 0 } [],
    .node { id := 2, kind := .choice, label := some "" } []])
  strays := [⟨4, .continues, .str "twice"⟩]

theorem rereads_gate : gate.strays.Genuine ∧
    ∃ again, ofPayload gate.toPayload = .ok again ∧ Reread gate again ∧ again.nextId = 5 := by
  have genuine : gate.strays.Genuine := by
    intro stray hstray
    rw [List.mem_singleton.1 hstray]
    rfl
  obtain ⟨again, hread, hagain⟩ := (rereads genuine).2.1 gate rfl
  refine ⟨genuine, again, hread, hagain, ?_⟩
  have hnext := (hagain.nextId _ rfl).1
  have hmax : (some 4 : Option Int) = some (again.nextId - 1) := hnext
  have hlast := Option.some.inj hmax
  omega

end EventTree

end StoryAtlas
