import StoryAtlas.Event.Tree
import StoryAtlas.Proofs.Register
import StoryAtlas.Proofs.Rose.Walk

/-!
# Reading what was written

What a tree writes is read again as the same tree: what is left out is read as absent, and what says
something although it looks empty is not left out. The written fields are a table of distinct keys with
the values that may be absent, so the reader gets under each key what the table has there. A stray
value is only written where the node has what it counts as, so it is read as that and found again.
-/

namespace StoryAtlas

namespace Register

variable {κ α : Type} [DecidableEq κ]

def filled (table : List (κ × Option α)) : Register κ α :=
  table.flatMap fun entry => (entry.2.map fun value => (entry.1, value)).toList

theorem get?_append (key : κ) (first second : Register κ α) :
    get? key (first ++ second) = (get? key first).or (get? key second) := by
  unfold get?
  rw [List.find?_append]
  cases List.find? (fun entry => entry.1 = key) first <;> rfl

theorem get?_entry (key other : κ) (value : Option α) :
    get? key (value.map fun value => (other, value)).toList = if other = key then value else none := by
  cases value with
  | none => simp [get?]
  | some value => by_cases h : other = key <;> simp [get?, h]

theorem get?_filled_eq_none {table : List (κ × Option α)} {key : κ} (h : key ∉ table.map Prod.fst) :
    get? key (filled table) = none := by
  induction table with
  | nil => rfl
  | cons entry table ih =>
      rw [List.map_cons, List.mem_cons, not_or] at h
      rw [filled, List.flatMap_cons, get?_append, get?_entry, if_neg (Ne.symm h.1), Option.none_or]
      exact ih h.2

theorem get?_filled {table : List (κ × Option α)} {key : κ} {value : Option α}
    (distinct : (table.map Prod.fst).Nodup) (h : (key, value) ∈ table) :
    get? key (filled table) = value := by
  induction table with
  | nil => cases h
  | cons entry table ih =>
      rw [List.map_cons, List.nodup_cons] at distinct
      rw [filled, List.flatMap_cons, get?_append, get?_entry]
      rcases List.mem_cons.1 h with rfl | hrest
      · rw [if_pos rfl]
        have hlater : get? key (filled table) = none := get?_filled_eq_none distinct.1
        rw [filled] at hlater
        rw [hlater, Option.or_none]
      · have hother : entry.1 ≠ key := by
          rintro rfl
          exact distinct.1 (List.mem_map.2 ⟨_, hrest, rfl⟩)
        rw [if_neg hother, Option.none_or]
        exact ih distinct.2 hrest

end Register

namespace Strays

variable {strays : Strays} {beat : Beat} {slot : Slot}

theorem written_cases (strays : Strays) (beat : Beat) (slot : Slot) :
    strays.written beat slot = slot.held beat ∨ ∃ value, strays.written beat slot = some value ∧
      slot.agrees beat value = true ∧ ⟨beat.id, slot, value⟩ ∈ strays := by
  unfold written
  split
  · next stray hfind =>
    have htest := List.find?_some hfind
    simp only [Bool.and_eq_true, beq_iff_eq] at htest
    obtain ⟨⟨hid, hslot⟩, hagrees⟩ := htest
    refine .inr ⟨stray.value, rfl, hagrees, ?_⟩
    rw [← hid, ← hslot]
    exact List.mem_of_find?_eq_some hfind
  · exact .inl rfl

/-- A reader that undoes writing, and that strays agree with, reads from a slot what the beat has. -/
theorem bind_written {α : Type} {read : Json → Option α} {write : α → Json} {held : Option α}
    (hread : ∀ a, read (write a) = some a) (hheld : slot.held beat = held.map write)
    (hagrees : ∀ value, slot.agrees beat value = true → held = read value) :
    (strays.written beat slot).bind read = held := by
  rcases strays.written_cases beat slot with hwritten | ⟨value, hwritten, hvalue, -⟩
  · rw [hwritten, hheld]
    cases held with
    | none => rfl
    | some a => exact hread a
  · rw [hwritten]
    exact (hagrees value hvalue).symm

theorem fits_of_held {value : Json} (h : slot.held beat = some value) : slot.fits value = true := by
  cases slot <;>
    · obtain ⟨held, -, rfl⟩ := Option.map_eq_some_iff.1 h
      rfl

/-- The stray value that is written into a slot. -/
def strayAt? (strays : Strays) (beat : Beat) (slot : Slot) : Option Stray :=
  match strays.written beat slot with
  | some value => if slot.fits value then none else some ⟨beat.id, slot, value⟩
  | none => none

theorem strayAt?_eq_some_iff {stray : Stray} : strays.strayAt? beat slot = some stray ↔
    stray.id = beat.id ∧ stray.slot = slot ∧ slot.fits stray.value = false ∧
      strays.written beat slot = some stray.value := by
  unfold strayAt?
  obtain ⟨id, found, value⟩ := stray
  cases strays.written beat slot with
  | none => simp
  | some other => by_cases hfits : slot.fits other = true <;> grind

def inNode (strays : Strays) (root : Node) : Strays :=
  root.walk.flatMap fun node => Slot.all.filterMap (strays.strayAt? (Rose.value node))

theorem inNode_nil (root : Node) : inNode [] root = [] := by
  refine List.flatMap_eq_nil_iff.2 fun node _ => List.filterMap_eq_nil_iff.2 fun slot _ => ?_
  refine Option.eq_none_iff_forall_ne_some.2 fun stray hstray => ?_
  obtain ⟨-, -, hfits, hwritten⟩ := strayAt?_eq_some_iff.1 hstray
  rw [fits_of_held hwritten] at hfits
  cases hfits

theorem inNode_node (strays : Strays) (beat : Beat) (children : List Node) :
    strays.inNode (.node beat children) =
      Slot.all.filterMap (strays.strayAt? beat) ++ children.flatMap strays.inNode := by
  rw [inNode, Rose.walk_node, List.flatMap_cons, Rose.walkForest_eq_flatMap, List.flatMap_assoc]
  rfl

end Strays

namespace Node

variable (strays : Strays)

/-! ### The written fields -/

def listed (items : List Json) : Option Json := if items.isEmpty then none else some (.arr items)

def table (beat : Beat) (items : List Json) : List (String × Option Json) :=
  [("id", some (.int beat.id)), ("text", strays.written beat .text),
    ("type", some (.str beat.kind.name)), ("choiceLabel", strays.written beat .label),
    ("requirements", listed (beat.requirements.map .str)),
    ("effects", listed (beat.effects.map .str)), ("numContinues", strays.written beat .continues),
    ("ref", strays.written beat .ref), ("refChildren", beat.refChildren.map Json.ofInts),
    ("children", listed items)]

def fieldsOf (beat : Beat) (items : List Json) : List (String × Json) :=
  Register.filled (table strays beat items)

theorem optional_eq {α : Type} (key : String) (write : α → Json) (value : Option α) :
    optional key write value = ((value.map write).map fun value => (key, value)).toList := by
  cases value <;> rfl

theorem unlessEmpty_eq (key : String) (items : List Json) :
    unlessEmpty key items = ((listed items).map fun value => (key, value)).toList := by
  cases items <;> rfl

theorem toPayloadsWith_eq_map (nodes : List Node) :
    toPayloadsWith strays nodes = nodes.map (toPayloadWith strays) := by
  induction nodes with
  | nil => rfl
  | cons node nodes ih => rw [toPayloadsWith, ih, List.map_cons]

theorem toPayloadWith_node (beat : Beat) (children : List Node) :
    toPayloadWith strays (.node beat children) =
      .obj (fieldsOf strays beat (children.map (toPayloadWith strays))) := by
  rw [toPayloadWith, toPayloadsWith_eq_map, beatFields, optional_eq, unlessEmpty_eq, unlessEmpty_eq,
    unlessEmpty_eq]
  simp only [fieldsOf, table, Register.filled, List.flatMap_cons, List.flatMap_nil, slotField,
    List.append_assoc, List.append_nil, List.cons_append, List.nil_append]
  rfl

variable {strays}

theorem get?_fieldsOf {beat : Beat} {items : List Json} {key : String} {value : Option Json}
    (h : (key, value) ∈ table strays beat items) :
    Register.get? key (fieldsOf strays beat items) = value :=
  Register.get?_filled (by simp [table]) h

variable (strays)

theorem get?_slot (beat : Beat) (items : List Json) (slot : Slot) :
    Register.get? slot.key (fieldsOf strays beat items) = strays.written beat slot := by
  cases slot <;> exact get?_fieldsOf (by simp [table, Slot.key])

/-! ### A beat -/

theorem membersOrNone_listed (items : List Json) : Json.membersOrNone (listed items) = .ok items := by
  cases items <;> rfl

theorem display_texts (texts : List String) : (texts.map Json.str).map Json.display = texts := by
  rw [List.map_map]
  exact List.map_id texts

theorem mapM_toWhole (numbers : List Int) :
    (numbers.map Json.int).mapM Json.toWhole = .ok numbers := by
  induction numbers with
  | nil => rfl
  | cons number numbers ih =>
      rw [List.map_cons, List.mapM_cons, ih]
      rfl

theorem readBeat_fieldsOf (beat : Beat) (items : List Json) :
    readBeat (fieldsOf strays beat items) = .ok beat := by
  have hid : Register.get? "id" (fieldsOf strays beat items) = some (.int beat.id) :=
    get?_fieldsOf (by simp [table])
  have hkind : Register.get? "type" (fieldsOf strays beat items) = some (.str beat.kind.name) :=
    get?_fieldsOf (by simp [table])
  have hrequirements : Register.get? "requirements" (fieldsOf strays beat items) =
      listed (beat.requirements.map .str) := get?_fieldsOf (by simp [table])
  have heffects : Register.get? "effects" (fieldsOf strays beat items) =
      listed (beat.effects.map .str) := get?_fieldsOf (by simp [table])
  have hborrowed : Register.get? "refChildren" (fieldsOf strays beat items) =
      beat.refChildren.map Json.ofInts := get?_fieldsOf (by simp [table])
  have htext : (strays.written beat .text).bind Json.text? = beat.text :=
    Strays.bind_written (fun _ => rfl) rfl fun _ => eq_of_beq
  have hlabel : (strays.written beat .label).bind Json.text? = beat.label :=
    Strays.bind_written (fun _ => rfl) rfl fun _ => eq_of_beq
  have hcontinues : (strays.written beat .continues).bind Json.whole? = beat.continues :=
    Strays.bind_written (fun _ => rfl) rfl fun _ => eq_of_beq
  have href : (strays.written beat .ref).bind Json.whole? = beat.ref :=
    Strays.bind_written (fun _ => rfl) rfl fun _ => eq_of_beq
  simp only [readBeat, demand, hid, hkind, hrequirements, heffects, hborrowed, slotText, slotWhole,
    get?_slot, htext, hlabel, hcontinues, href, membersOrNone_listed, bind, Except.bind, readKind,
    Kind.ofName?_name, Json.toWhole, display_texts, pure, Except.pure]
  obtain ⟨id, kind, text, label, requirements, effects, continues, ref, borrowed⟩ := beat
  cases borrowed with
  | none => rfl
  | some numbers => simp only [Option.map_some, Json.ofInts, Json.members, mapM_toWhole]

/-- The stray values found in what is written of a beat are those it was written with. -/
theorem ofNode_fieldsOf (beat : Beat) (items : List Json) :
    Strays.ofNode (fieldsOf strays beat items) = Slot.all.filterMap (strays.strayAt? beat) := by
  have hid : Register.get? "id" (fieldsOf strays beat items) = some (.int beat.id) :=
    get?_fieldsOf (by simp [table])
  rw [Strays.ofNode, hid]
  refine List.filterMap_congr fun slot _ => ?_
  rw [get?_slot]
  rfl

/-! ### A tree -/

theorem listed_eq_none {items : List Json} (h : listed items = none) : items = [] := by
  cases items with
  | nil => rfl
  | cons item items => cases h

theorem listed_eq_some {items : List Json} {value : Json} (h : listed items = some value) :
    value = .arr items := by
  cases items with
  | nil => cases h
  | cons item items => exact (Option.some.inj h).symm

theorem get?_cons_ne {key other : String} (h : other ≠ key) (value : Json)
    (fields : List (String × Json)) :
    Register.get? key ((other, value) :: fields) = Register.get? key fields := by
  rw [Register.get?, List.find?_cons_of_neg (by simpa using h)]
  rfl

/-- A reader that passes over all other fields reads the members of the children. -/
theorem eq_of_get?_children {α : Type} {read : List (String × Json) → α} {items : List Json}
    {found : α} (hnone : items = [] → read [] = found)
    (hchildren : ∀ fields, read (("children", .arr items) :: fields) = found)
    (hother : ∀ key value fields, key ≠ "children" → read ((key, value) :: fields) = read fields)
    {fields : List (String × Json)} (h : Register.get? "children" fields = listed items) :
    read fields = found := by
  induction fields with
  | nil => exact hnone (listed_eq_none h.symm)
  | cons field fields ih =>
      obtain ⟨key, value⟩ := field
      by_cases hkey : key = "children"
      · subst hkey
        obtain rfl : value = .arr items := listed_eq_some h.symm
        exact hchildren fields
      · rw [hother key value fields hkey]
        exact ih ((get?_cons_ne hkey value fields).symm.trans h)

theorem ofChildren_eq {fields : List (String × Json)} {items : List Json}
    (h : Register.get? "children" fields = listed items) : ofChildren fields = ofPayloads items := by
  refine eq_of_get?_children (fun hnone => ?_) (fun fields => ?_) (fun key value fields hkey => ?_) h
  · rw [hnone]
    rfl
  · rw [ofChildren, if_pos rfl]
  · rw [ofChildren.eq_def]
    exact if_neg hkey

theorem strays_ofChildren_eq {fields : List (String × Json)} {items : List Json}
    (h : Register.get? "children" fields = listed items) :
    Strays.ofChildren fields = Strays.ofPayloads items := by
  refine eq_of_get?_children (fun hnone => ?_) (fun fields => ?_) (fun key value fields hkey => ?_) h
  · rw [hnone]
    rfl
  · rw [Strays.ofChildren, if_pos rfl]
  · rw [Strays.ofChildren.eq_def]
    exact if_neg hkey

theorem ofPayloads_eq_ok {nodes : List Node}
    (h : ∀ node ∈ nodes, ofPayload (toPayloadWith strays node) = .ok node) :
    ofPayloads (nodes.map (toPayloadWith strays)) = .ok nodes := by
  induction nodes with
  | nil => rfl
  | cons node nodes ih =>
      rw [List.map_cons, ofPayloads, h node (by simp), ih fun other hother => h other (by simp [hother])]
      rfl

theorem get?_children (beat : Beat) (items : List Json) :
    Register.get? "children" (fieldsOf strays beat items) = listed items :=
  get?_fieldsOf (by simp [table])

/-- A written node is read again as itself. -/
theorem ofPayload_toPayloadWith (root : Node) : ofPayload (toPayloadWith strays root) = .ok root := by
  induction root using Rose.induction_on with
  | node beat children ih =>
      rw [toPayloadWith_node, ofPayload, readBeat_fieldsOf, ofChildren_eq (get?_children strays _ _),
        ofPayloads_eq_ok strays ih]
      rfl

/-- What is found of stray values in a written node is what it was written with. -/
theorem strays_ofPayload_toPayloadWith (root : Node) :
    Strays.ofPayload (toPayloadWith strays root) = strays.inNode root := by
  induction root using Rose.induction_on with
  | node beat children ih =>
      rw [toPayloadWith_node, Strays.ofPayload, ofNode_fieldsOf,
        strays_ofChildren_eq (get?_children strays _ _), Strays.inNode_node]
      congr 1
      induction children with
      | nil => rfl
      | cons child children ihs =>
          rw [List.map_cons, Strays.ofPayloads, ih child (by simp),
            ihs fun other hother => ih other (by simp [hother])]
          rfl

theorem readRoot_toPayloadWith (root : Node) :
    EventTree.readRoot (toPayloadWith strays root) = .ok (some root) := by
  have hroot := ofPayload_toPayloadWith strays root
  obtain ⟨beat, children⟩ := root
  rw [toPayloadWith_node] at hroot ⊢
  rw [EventTree.readRoot, hroot]
  · rfl
  · nofun

end Node

namespace EventTree

/-- A written event is read again as itself, with the stray values that it was written with; the next
id is the first that is free in its tree. -/
theorem ofPayload_toPayload_strays (tree : EventTree) :
    ofPayload tree.toPayload =
      .ok { tree with
        nextId := (tree.root.map Node.freshId).getD 0
        strays := (tree.root.map tree.strays.inNode).getD [] } := by
  obtain ⟨name, kind, artwork, root, nextId, strays⟩ := tree
  cases root with
  | none => rfl
  | some root =>
      have hread := Node.readRoot_toPayloadWith strays root
      have hstrays := Node.strays_ofPayload_toPayloadWith strays root
      show (do
        let found ← readRoot (Node.toPayloadWith strays root)
        return ({
          name := name
          kind := kind
          artwork := artwork
          root := found
          nextId := (found.map Node.freshId).getD 0
          strays := Strays.ofPayload (Node.toPayloadWith strays root) } : EventTree)) = _
      rw [hread, hstrays]
      rfl

theorem ofPayload_toPayload {tree : EventTree} (h : tree.strays = []) :
    ofPayload tree.toPayload =
      .ok { tree with nextId := (tree.root.map Node.freshId).getD 0 } := by
  have hstrays : (tree.root.map tree.strays.inNode).getD [] = tree.strays := by
    rw [h]
    cases tree.root with
    | none => rfl
    | some root => exact Strays.inNode_nil root
  rw [ofPayload_toPayload_strays, hstrays]

end EventTree

end StoryAtlas
