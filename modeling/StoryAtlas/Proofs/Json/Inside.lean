import StoryAtlas.Proofs.Story.Analysis
import StoryAtlas.Total

/-!
# What is inside a document

Arrays and objects have values inside, and a way into a document is a list of their positions. The
lists of a document are the arrays that some way leads to, and they are found in the order of their
ways, a way before its continuations. A loop over a stack, which puts the values inside in the place
of the one on top, finds the same lists.
-/

namespace StoryAtlas

namespace Json

def inside : Json → List Json
  | arr items => items
  | obj fields => fields.map (·.2)
  | _ => []

/-- The value that a way leads to; a step of the way is a position among the values inside. -/
def at? : List Nat → Json → Option Json
  | [], value => some value
  | step :: way, value => (value.inside[step]?).bind (at? way)

theorem at?_append (way rest : List Nat) (value : Json) :
    value.at? (way ++ rest) = (value.at? way).bind (at? rest) := by
  induction way generalizing value with
  | nil => rfl
  | cons step way ih =>
      rw [List.cons_append, at?, at?]
      cases value.inside[step]? with
      | none => rfl
      | some child => exact ih child

def FiniteNumbers (document : Json) : Prop :=
  ∀ way value, document.at? way = some value → value.IsFinite

theorem total_sizeOf_items (items : List Json) : total (items.map sizeOf) < sizeOf items := by
  induction items with
  | nil => decide
  | cons item items ih =>
      rw [List.map_cons, total_cons, List.cons.sizeOf_spec]
      omega

theorem total_sizeOf_fields (fields : List (String × Json)) :
    total ((fields.map (·.2)).map sizeOf) < sizeOf fields := by
  induction fields with
  | nil => decide
  | cons field fields ih =>
      have hfield : sizeOf field = 1 + sizeOf field.1 + sizeOf field.2 := rfl
      rw [List.map_cons, List.map_cons, total_cons, List.cons.sizeOf_spec]
      omega

theorem total_sizeOf_inside (value : Json) : total (value.inside.map sizeOf) < sizeOf value := by
  cases value with
  | arr items =>
      have hitems := total_sizeOf_items items
      rw [inside, arr.sizeOf_spec]
      omega
  | obj fields =>
      have hfields := total_sizeOf_fields fields
      rw [inside, obj.sizeOf_spec]
      omega
  | _ => simp [inside, Nat.add_comm 1]

theorem sizeOf_lt_of_mem_inside {value child : Json} (h : child ∈ value.inside) :
    sizeOf child < sizeOf value := by
  obtain ⟨before, after, hinside⟩ := List.append_of_mem h
  have htotal := total_sizeOf_inside value
  rw [hinside, List.map_append, total_append, List.map_cons, total_cons] at htotal
  omega

/-- What holds of a value if it holds of those inside holds of all. -/
theorem inside_induction {holds : Json → Prop}
    (step : ∀ value, (∀ child ∈ value.inside, holds child) → holds value) (value : Json) :
    holds value :=
  step value fun child h =>
    have := sizeOf_lt_of_mem_inside h
    inside_induction step child
termination_by sizeOf value

theorem FiniteNumbers.of_at? {document value : Json} {way : List Nat}
    (h : document.FiniteNumbers) (hway : document.at? way = some value) :
    value.FiniteNumbers := by
  intro rest found hrest
  refine h (way ++ rest) found ?_
  rwa [at?_append, hway]

theorem finiteNumbers_iff {value : Json} : value.FiniteNumbers ↔
    value.IsFinite ∧ ∀ child ∈ value.inside, child.FiniteNumbers := by
  constructor
  · refine fun h => ⟨h [] value rfl, fun child hchild way found hway => ?_⟩
    obtain ⟨step, hstep⟩ := List.mem_iff_getElem?.1 hchild
    exact h (step :: way) found (by rwa [at?, hstep])
  · rintro ⟨hvalue, hinside⟩ way found hway
    cases way with
    | nil => rwa [Option.some.inj hway] at hvalue
    | cons step way =>
        obtain ⟨child, hchild, hfound⟩ := Option.bind_eq_some_iff.1 hway
        exact hinside child (List.mem_of_getElem? hchild) way found hfound

theorem finiteNumbers_arr {items : List Json} :
    (arr items).FiniteNumbers ↔ ∀ item ∈ items, item.FiniteNumbers := by
  rw [finiteNumbers_iff]
  exact and_iff_right trivial

theorem finiteNumbers_obj {fields : List (String × Json)} :
    (obj fields).FiniteNumbers ↔ ∀ field ∈ fields, field.2.FiniteNumbers := by
  rw [finiteNumbers_iff, inside, List.forall_mem_map]
  exact and_iff_right trivial

theorem finiteNumbers_int (number : Int) : (int number).FiniteNumbers :=
  finiteNumbers_iff.2 ⟨trivial, nofun⟩

theorem finiteNumbers_str (text : String) : (str text).FiniteNumbers :=
  finiteNumbers_iff.2 ⟨trivial, nofun⟩

end Json

namespace Bytecode

open Json

def listOf : Json → List (List Json)
  | .arr items => [items]
  | _ => []

theorem listsInItems_eq (items : List Json) : listsInItems items = items.flatMap listsIn := by
  induction items with
  | nil => rfl
  | cons item items ih => rw [listsInItems, ih, List.flatMap_cons]

theorem listsInFields_eq (fields : List (String × Json)) :
    listsInFields fields = (fields.map (·.2)).flatMap listsIn := by
  induction fields with
  | nil => rfl
  | cons field fields ih => rw [listsInFields, ih, List.map_cons, List.flatMap_cons]

theorem listsIn_eq (value : Json) :
    listsIn value = listOf value ++ value.inside.flatMap listsIn := by
  cases value with
  | arr items => rw [listsIn, listsInItems_eq]; rfl
  | obj fields => rw [listsIn, listsInFields_eq]; rfl
  | _ => rfl

/-- Takes the value on top of the stack and puts the values inside in its place. -/
def listsFrom : List Json → List (List Json)
  | [] => []
  | value :: stack => listOf value ++ listsFrom (value.inside ++ stack)
termination_by stack => total (stack.map sizeOf)
decreasing_by
  have htotal := total_sizeOf_inside value
  rw [List.map_append, total_append, List.map_cons, total_cons]
  omega

theorem listsFrom_eq (stack : List Json) : listsFrom stack = stack.flatMap listsIn := by
  fun_induction listsFrom stack with
  | case1 => rfl
  | case2 value stack ih =>
      rw [ih, List.flatMap_cons, listsIn_eq, List.flatMap_append, List.append_assoc]

/-! ### The ways to the lists -/

mutual

/-- As `listsIn`, with the way to each list. -/
def waysIn : Json → List (List Nat × List Json)
  | .arr items => ([], items) :: waysInItems 0 items
  | .obj fields => waysInFields 0 fields
  | .null => []
  | .bool _ => []
  | .int _ => []
  | .float _ => []
  | .str _ => []

def waysInItems (step : Nat) : List Json → List (List Nat × List Json)
  | [] => []
  | item :: items => (waysIn item).map (Prod.map (step :: ·) id) ++ waysInItems (step + 1) items

def waysInFields (step : Nat) : List (String × Json) → List (List Nat × List Json)
  | [] => []
  | (_, value) :: fields =>
    (waysIn value).map (Prod.map (step :: ·) id) ++ waysInFields (step + 1) fields

end

def waysUnder (child : Json × Nat) : List (List Nat × List Json) :=
  (waysIn child.1).map (Prod.map (child.2 :: ·) id)

theorem waysInItems_eq (step : Nat) (items : List Json) :
    waysInItems step items = (items.zipIdx step).flatMap waysUnder := by
  induction items generalizing step with
  | nil => rfl
  | cons item items ih => rw [waysInItems, ih, List.zipIdx_cons, List.flatMap_cons, waysUnder]

theorem waysInFields_eq (step : Nat) (fields : List (String × Json)) :
    waysInFields step fields = ((fields.map (·.2)).zipIdx step).flatMap waysUnder := by
  induction fields generalizing step with
  | nil => rfl
  | cons field fields ih =>
      rw [waysInFields, ih, List.map_cons, List.zipIdx_cons, List.flatMap_cons, waysUnder]

theorem waysIn_eq (value : Json) : waysIn value =
    (listOf value).map (Prod.mk []) ++ value.inside.zipIdx.flatMap waysUnder := by
  cases value with
  | arr items => rw [waysIn, waysInItems_eq]; rfl
  | obj fields => rw [waysIn, waysInFields_eq]; rfl
  | _ => rfl

theorem map_snd_waysIn (value : Json) : (waysIn value).map Prod.snd = listsIn value := by
  induction value using inside_induction with
  | step value ih =>
      have hunder (child : Json × Nat) (h : child ∈ value.inside.zipIdx) :
          (waysUnder child).map Prod.snd = listsIn child.1 := by
        rw [← ih child.1 (List.fst_mem_of_mem_zipIdx h), waysUnder, List.map_map]
        rfl
      have hinside : value.inside.zipIdx.flatMap (fun child => listsIn child.1) =
          value.inside.flatMap listsIn := by
        rw [← List.flatMap_map Prod.fst listsIn, List.zipIdx_map_fst]
      rw [waysIn_eq, listsIn_eq, List.map_append, List.map_map, List.map_flatMap, ← hinside,
        List.flatMap_def, List.flatMap_def, List.map_congr_left hunder]
      exact congrArg (· ++ _) (List.map_id _)

theorem mem_waysIn_iff {way : List Nat} {items : List Json} {value : Json} :
    (way, items) ∈ waysIn value ↔ value.at? way = some (.arr items) := by
  induction way generalizing value with
  | nil =>
      rw [waysIn_eq, List.mem_append, or_iff_left]
      · cases value <;> simp [listOf, at?, eq_comm]
      · simp [waysUnder]
  | cons step way ih =>
      rw [waysIn_eq, List.mem_append, or_iff_right]
      · simp only [List.mem_flatMap, waysUnder, List.mem_map, Prod.exists, Prod.map_apply, id_eq,
          Prod.mk.injEq, List.cons.injEq, List.mk_mem_zipIdx_iff_getElem?, at?,
          Option.bind_eq_some_iff]
        constructor
        · rintro ⟨child, _, hchild, _, _, hmem, ⟨rfl, rfl⟩, rfl⟩
          exact ⟨child, hchild, ih.1 hmem⟩
        · rintro ⟨child, hchild, hway⟩
          exact ⟨child, step, hchild, way, items, ih.2 hway, ⟨rfl, rfl⟩, rfl⟩
      · simp

theorem pairwise_waysIn (value : Json) :
    (waysIn value).Pairwise fun one other => one.1 < other.1 := by
  induction value using inside_induction with
  | step value ih =>
      have hsteps : value.inside.zipIdx.Pairwise fun one other => one.2 < other.2 := by
        rw [← List.pairwise_map, List.zipIdx_map_snd]
        exact List.pairwise_lt_range'
      rw [waysIn_eq, List.pairwise_append, List.pairwise_flatMap]
      refine ⟨?_, ⟨fun child h => ?_, hsteps.imp fun {one other} hless => ?_⟩, ?_⟩
      · cases value <;> simp [listOf]
      · rw [waysUnder, List.pairwise_map]
        refine (ih child.1 (List.fst_mem_of_mem_zipIdx h)).imp fun hway => ?_
        exact List.cons_lt_cons_iff.2 (.inr ⟨rfl, hway⟩)
      · simp only [waysUnder, List.forall_mem_map]
        exact fun _ _ _ _ => List.cons_lt_cons_iff.2 (.inl hless)
      · simp only [waysUnder, List.forall_mem_map, List.mem_flatMap]
        rintro entry - _ ⟨child, -, hchild⟩
        obtain ⟨_, -, rfl⟩ := List.mem_map.1 hchild
        exact List.nil_lt_cons _ _

end Bytecode

end StoryAtlas
