import StoryAtlas.Proofs.Explore.Links

/-!
# Following the references of an exploration

Where nothing is folded, each reference leads to a node of the tree that was numbered before, so
whoever follows references comes to a node that shows its choices itself. That a choice was dropped,
or failed, or was never explored for lack of budget makes no difference.

A fold is another matter. It looks at nothing but the labels below a node, so it may take away a node
that others refer to, and even the hub itself where the hub lies below a node with a similar menu.
-/

namespace StoryAtlas

namespace Node

/-- Whoever follows references from a node of a tree comes to the last. -/
inductive EndsAt (root : Node) : Node → Node → Prop
  | here {node : Node} (hnone : node.value.ref = none) : EndsAt root node node
  | onward {node later last : Node} (href : node.value.ref = some later.id)
      (hlater : later ∈ root.walk) (rest : EndsAt root later last) : EndsAt root node last

theorem endsAt_of_back {root : Node} (positive : ∀ id ∈ root.ids, 0 ≤ id)
    (back : ∀ node ∈ root.walk, ∀ target, (Rose.value node).ref = some target →
      ∃ earlier : Node, earlier ∈ root.walk ∧ earlier.id = target ∧ earlier.id < Node.id node)
    {node : Node} (hnode : node ∈ root.walk) : ∃ last ∈ root.walk, root.EndsAt node last := by
  -- a reference makes the id smaller, and no id is negative
  induction hid : node.id.toNat using Nat.strongRecOn generalizing node with
  | _ bound ih =>
      cases href : node.value.ref with
      | none => exact ⟨node, hnode, .here href⟩
      | some target =>
          obtain ⟨earlier, hearlier, rfl, hlt⟩ := back node hnode target href
          have hpositive : 0 ≤ earlier.id := positive _ (id_mem_ids hearlier)
          obtain ⟨last, hlast, rest⟩ := ih earlier.id.toNat (by omega) hearlier rfl
          exact ⟨last, hlast, .onward href hearlier rest⟩

end Node

namespace Explore

variable {setting : Setting} {root : Node} {world : World}

theorem Grounded.exists_earlier {ledger : Ledger} (h : Grounded [] [root] ledger) {node : Node}
    (hnode : node ∈ root.walk) {target : Int} (href : node.value.ref = some target) :
    ∃ earlier : Node, earlier ∈ root.walk ∧ earlier.id = target ∧ earlier.id < node.id := by
  obtain ⟨earlier, hearlier, rfl⟩ := Node.mem_ids.1 (h.closed.resolves node hnode target href)
  exact ⟨earlier, hearlier, rfl, h.back root List.mem_cons_self node hnode _ href⟩

/-- Without a threshold menu, every reference of an explored tree leads to a node with a smaller id,
the only one with that id, and following references ends. -/
theorem leadsBack_run
    (nothreshold : ∀ menu, setting.menu = some menu → menu.usesThreshold = false)
    (h : run setting = (.ok (some root), world)) :
    root.ids.Nodup ∧
      (∀ node : Node, node ∈ root.walk → ∀ target, node.value.ref = some target →
        ∃ earlier : Node, earlier ∈ root.walk ∧ earlier.id = target ∧ earlier.id < node.id) ∧
      ∀ node : Node, node ∈ root.walk → ∃ last ∈ root.walk, root.EndsAt node last := by
  obtain ⟨sound, positive⟩ := sound_run h
  have back : ∀ node : Node, node ∈ root.walk → ∀ target, node.value.ref = some target →
      ∃ earlier : Node, earlier ∈ root.walk ∧ earlier.id = target ∧ earlier.id < node.id :=
    fun node hnode target href => (grounded_run nothreshold h).exists_earlier hnode href
  exact ⟨sound.distinct, back, fun node hnode => Node.endsAt_of_back positive back hnode⟩

def refsOf (outcome : Except Fault (Option Node)) : Option (List (Int × Option Int)) :=
  outcome.toOption.join.map fun root => root.walk.map fun node => (Node.id node, node.value.ref)

theorem exists_run_of_refs (setting : Setting) {refs : List (Int × Option Int)}
    (h : refsOf (run setting).1 = some refs) :
    ∃ root, run setting = (.ok (some root), (run setting).2) ∧
      (root.walk.map fun node => (Node.id node, node.value.ref)) = refs := by
  obtain ⟨root, hroot, hrefs⟩ := exists_root_of_map h
  exact ⟨root, Prod.ext hroot rfl, hrefs⟩

/-- A tavern whose menu is offered again after each answer. One choice leads nowhere, and whoever
waits at the door stays there. -/
def tavern : Setting where
  unit := "Tavern"
  script := {
    passages := [
      ("start", {
        lines := [some "A door."]
        choices := [⟨"Wait", "start", false⟩, ⟨"Climb", "roof", false⟩, ⟨"Enter", "inside", false⟩] }),
      ("inside", {
        lines := [some "The tavern."]
        choices := [⟨"Ask", "answer", false⟩, ⟨"Leave", "road", false⟩] }),
      ("answer", { lines := [some "Nobody knows."] }),
      ("road", { lines := [some "The road."] })] }
  limits := { detectRepeatedStates := false }
  menu := some { hubPattern := "tavern", exitPatterns := ["Leave"] }

theorem leadsBack_run_tavern : ∃ root, (run tavern).1 = .ok (some root) ∧
    (root.walk.map fun node => (Node.id node, node.value.ref)) =
      [(0, none), (1, some 0), (2, none), (3, some 2), (4, none)] ∧
    ∀ node : Node, node ∈ root.walk → ∃ last ∈ root.walk, root.EndsAt node last := by
  have hshown : refsOf (run tavern).1 =
      some [(0, none), (1, some 0), (2, none), (3, some 2), (4, none)] := by decide +kernel
  obtain ⟨root, hrun, hrefs⟩ := exists_run_of_refs tavern hshown
  have nothreshold : ∀ menu, tavern.menu = some menu → menu.usesThreshold = false := by
    rintro menu hmenu
    cases hmenu
    rfl
  exact ⟨root, congrArg Prod.fst hrun, hrefs, (leadsBack_run nothreshold hrun).2.2⟩

/-! ### Folds -/

/-- A reference of an explored tree that leads nowhere is the price of a fold: the menu has a threshold,
its hub was captured, and some node of the tree was made to refer to it. -/
theorem folded_of_dangling (h : run setting = (.ok (some root), world)) {node : Node}
    (hnode : node ∈ root.walk) {target : Int} (href : node.value.ref = some target)
    (hlost : target ∉ root.ids) :
    ∃ menu hub, setting.menu = some menu ∧ menu.usesThreshold ∧ world.ledger.hub = some hub ∧
      root.RefersTo hub.hubId := by
  rcases grounded_or_folded h with hground | ⟨hub, hhub, other, hother, hrefers⟩
  · exact absurd (hground.closed.resolves node hnode target href) hlost
  rw [List.mem_singleton.1 hother] at hrefers
  have hkept : HubKept setting (start setting).ledger (run setting).2.ledger :=
    keeping_visitLevels setting _ _ _
  rw [h] at hkept
  obtain hsame | ⟨-, menu, hmenu, husesThreshold⟩ := hkept
  · have hnone : world.ledger.hub = none := hsame
    rw [hhub] at hnone
    cases hnone
  · exact ⟨menu, hub, hmenu, husesThreshold, hhub, hrefers⟩

/-- A hall that is shown to each guest only after the same menu was offered at the gate. -/
def hall : Setting where
  unit := "Hall"
  script := {
    passages := [
      ("start", { lines := [some "A road."], choices := [⟨"In", "yard", false⟩] }),
      ("yard", { lines := [some "A yard."], choices := [⟨"On", "gate", false⟩] }),
      ("gate", {
        lines := [some "A gate."]
        choices := [⟨"Ask", "hall", false⟩, ⟨"Leave", "bye", false⟩] }),
      ("hall", {
        lines := [some "The hall."]
        choices := [⟨"Ask", "told", false⟩, ⟨"Leave", "bye", false⟩] }),
      ("told", { lines := [some "Told."] }),
      ("bye", { lines := [some "Bye."] })] }
  limits := { detectRepeatedStates := false }
  menu := some { hubPattern := "hall", exitPatterns := ["Leave"], threshold := some 60.0 }

theorem gate_hall : ∃ root gate, run hall = (.ok (some root), (run hall).2) ∧
    gate ∈ root.walk ∧ gate.value.ref = some 3 ∧ 3 ∉ root.ids := by
  have hshown : refsOf (run hall).1 = some [(0, none), (1, none), (2, some 3)] := by decide +kernel
  obtain ⟨root, hrun, hrefs⟩ := exists_run_of_refs hall hshown
  have hids : root.ids = [0, 1, 2] := by
    have h := congrArg (List.map Prod.fst) hrefs
    rwa [List.map_map] at h
  have hpair : ((2, some 3) : Int × Option Int) ∈
      root.walk.map fun node => (Node.id node, node.value.ref) := by
    rw [hrefs]
    decide
  obtain ⟨gate, hgate, hsame⟩ := List.mem_map.1 hpair
  refine ⟨root, gate, hrun, hgate, congrArg Prod.snd hsame, ?_⟩
  rw [hids]
  decide

theorem not_resolves_run_hall : ∃ root menu, (run hall).1 = .ok (some root) ∧
    hall.menu = some menu ∧ menu.usesThreshold ∧ ¬root.Resolves := by
  obtain ⟨root, gate, hrun, hgate, href, hlost⟩ := gate_hall
  exact ⟨root, _, congrArg Prod.fst hrun, rfl, rfl, fun resolves =>
    hlost (resolves gate hgate 3 href)⟩

theorem folded_of_dangling_hall : ∃ root hub, (run hall).1 = .ok (some root) ∧
    (run hall).2.ledger.hub = some hub ∧ root.RefersTo hub.hubId := by
  obtain ⟨root, gate, hrun, hgate, href, hlost⟩ := gate_hall
  obtain ⟨menu, hub, -, -, hhub, hrefers⟩ := folded_of_dangling hrun hgate href hlost
  exact ⟨root, hub, congrArg Prod.fst hrun, hhub, hrefers⟩

end Explore

end StoryAtlas
