import StoryAtlas.Proofs.Rose.Agenda
import StoryAtlas.Proofs.Share.Apart
import StoryAtlas.Proofs.Share.Complete

/-!
# Comparing what is below two nodes

Two forests are the same in content if they have nodes in the same positions and the nodes in one
position agree in everything but their ids. The comparison can be run as a loop over pairs of nodes
that starts with the two roots, of which it compares nothing but how many children they have, and
goes on to the children in pairs.

As a relation of nodes the comparison is an equivalence, and it never holds between a node and one
above it, which has more nodes. Nodes that agree and have the same below them have one signature,
whatever its depth, so looking at signatures first loses no pair.
-/

namespace StoryAtlas

namespace Rose

variable {α β : Type}

/-- The subtree that a way leads to; a step of the way is the position of a child. -/
def at? : List Nat → Rose α → Option (Rose α)
  | [], t => some t
  | step :: way, t => (t.children[step]?).bind (at? way)

theorem at?_map (f : α → β) (way : List Nat) (t : Rose α) :
    (t.map f).at? way = (t.at? way).map (map f) := by
  induction way generalizing t with
  | nil => rfl
  | cons step way ih =>
      rw [at?, at?, children_map, List.getElem?_map]
      cases t.children[step]? with
      | none => rfl
      | some child => exact ih child

theorem eq_iff_at? {t u : Rose α} :
    t = u ↔ ∀ way, (t.at? way).map value = (u.at? way).map value := by
  refine ⟨fun h way => h ▸ rfl, fun h => ?_⟩
  induction t using induction_on generalizing u with
  | node a cs ih =>
      obtain ⟨b, ds⟩ := u
      rw [node.injEq]
      refine ⟨Option.some.inj (h []), List.ext_getElem? fun step => ?_⟩
      have hway (way : List Nat) : ((cs[step]?).bind (at? way)).map value =
          ((ds[step]?).bind (at? way)).map value := h (step :: way)
      cases hc : cs[step]? with
      | none =>
          cases hd : ds[step]? with
          | none => rfl
          | some d =>
              have hroot := hway []
              rw [hc, hd] at hroot
              cases hroot
      | some c =>
          cases hd : ds[step]? with
          | none =>
              have hroot := hway []
              rw [hc, hd] at hroot
              cases hroot
          | some d =>
              rw [ih c (List.mem_of_getElem? hc) fun way => ?_]
              have hbelow := hway way
              rwa [hc, hd] at hbelow

theorem children_eq_iff_at? {t u : Rose α} :
    t.children = u.children ↔ ∀ way ≠ [], (t.at? way).map value = (u.at? way).map value := by
  constructor
  · intro h way hway
    obtain ⟨step, way, rfl⟩ := List.exists_cons_of_ne_nil hway
    rw [at?, at?, h]
  · intro h
    have hsame : node t.value t.children = node t.value u.children := by
      rw [eq_iff_at?]
      intro way
      cases way with
      | nil => rfl
      | cons step way => exact h (step :: way) (List.cons_ne_nil step way)
    exact (node.inj hsame).2

theorem sizeForest_reverse (ts : List (Rose α)) : sizeForest ts.reverse = sizeForest ts := by
  induction ts with
  | nil => rfl
  | cons t ts ih =>
      rw [List.reverse_cons, sizeForest_append, ih, sizeForest, sizeForest, sizeForest,
        Nat.add_zero, Nat.add_comm]

end Rose

/-! ### Agreeing in everything but the id -/

/-- The beats agree in everything but their ids. -/
structure Beat.Agrees (beat other : Beat) : Prop where
  text : beat.text = other.text
  kind : beat.kind = other.kind
  label : beat.label = other.label
  requirements : beat.requirements = other.requirements
  effects : beat.effects = other.effects
  continues : beat.continues = other.continues
  ref : beat.ref = other.ref
  refChildren : beat.refChildren = other.refChildren

def Beat.differs (beat other : Beat) : Bool :=
  beat.text != other.text || beat.kind != other.kind || beat.label != other.label ||
    beat.requirements != other.requirements || beat.effects != other.effects ||
    beat.continues != other.continues || beat.ref != other.ref ||
    beat.refChildren != other.refChildren

theorem Beat.content_eq_iff {beat other : Beat} :
    beat.content = other.content ↔ beat.Agrees other := by
  simp only [content, Beat.mk.injEq, true_and]
  constructor
  · rintro ⟨kind, text, label, requirements, effects, continues, ref, refChildren⟩
    exact ⟨text, kind, label, requirements, effects, continues, ref, refChildren⟩
  · rintro ⟨text, kind, label, requirements, effects, continues, ref, refChildren⟩
    exact ⟨kind, text, label, requirements, effects, continues, ref, refChildren⟩

theorem Beat.differs_eq_false_iff {beat other : Beat} :
    beat.differs other = false ↔ beat.Agrees other := by
  simp only [differs, Bool.or_eq_false_iff, bne_eq_false_iff_eq]
  constructor
  · rintro ⟨⟨⟨⟨⟨⟨⟨text, kind⟩, label⟩, requirements⟩, effects⟩, continues⟩, ref⟩, refChildren⟩
    exact ⟨text, kind, label, requirements, effects, continues, ref, refChildren⟩
  · rintro ⟨text, kind, label, requirements, effects, continues, ref, refChildren⟩
    exact ⟨⟨⟨⟨⟨⟨⟨text, kind⟩, label⟩, requirements⟩, effects⟩, continues⟩, ref⟩, refChildren⟩

namespace Node

/-! ### The comparison as a loop -/

/-- With the pairs of their children on the stack, the two nodes themselves are done with. -/
theorem sizeForest_pairs {first second : Node}
    (h : first.children.length = second.children.length) (pairs : List (Node × Node)) :
    Rose.sizeForest (((first.children.zip second.children).reverse ++ pairs).map Prod.fst) + 1 =
      Rose.sizeForest (((first, second) :: pairs).map Prod.fst) := by
  rw [List.map_append, List.map_reverse, List.map_fst_zip (Nat.le_of_eq h), List.map_cons,
    Rose.sizeForest_append, Rose.sizeForest_reverse, Rose.sizeForest, Rose.size_eq first]
  omega

/-- Compares the pair on top of the stack, then the pairs of its children and all that is left. The
values of the roots are not compared. -/
def compareFrom (atRoots : Bool) : List (Node × Node) → Bool
  | [] => true
  | (first, second) :: pairs =>
    if first.children.length ≠ second.children.length then false
    else if !atRoots && first.value.differs second.value then false
    else compareFrom false ((first.children.zip second.children).reverse ++ pairs)
termination_by pairs => Rose.sizeForest (pairs.map Prod.fst)
decreasing_by
  rw [← sizeForest_pairs (Decidable.not_not.1 ‹_›) pairs]
  exact Nat.lt_succ_self _

/-- The nodes agree, and so do all below them, position by position. -/
def SameContent (pair : Node × Node) : Prop :=
  pair.1.map Beat.content = pair.2.map Beat.content

theorem sameBelow_iff {first second : Node} : first.sameBelow second = true ↔
    first.children.map (Rose.map Beat.content) = second.children.map (Rose.map Beat.content) := by
  rw [sameBelow, Rose.sameForest_iff, Rose.mapForest_eq_map, Rose.mapForest_eq_map]

theorem sameContent_iff {first second : Node} : SameContent (first, second) ↔
    first.value.Agrees second.value ∧ first.sameBelow second = true := by
  obtain ⟨beat, children⟩ := first
  obtain ⟨other, others⟩ := second
  rw [SameContent, Rose.map_node, Rose.map_node, Rose.node.injEq, Beat.content_eq_iff,
    sameBelow_iff]
  rfl

theorem map_content_eq_iff {nodes others : List Node} (hlength : nodes.length = others.length) :
    nodes.map (Rose.map Beat.content) = others.map (Rose.map Beat.content) ↔
      ∀ pair ∈ nodes.zip others, SameContent pair := by
  induction nodes generalizing others with
  | nil =>
      obtain rfl := List.length_eq_zero_iff.1 hlength.symm
      exact ⟨fun _ => nofun, fun _ => rfl⟩
  | cons node nodes ih =>
      obtain ⟨other, others, rfl⟩ := List.exists_cons_of_length_eq_add_one hlength.symm
      rw [List.map_cons, List.map_cons, List.cons.injEq, List.zip_cons_cons, List.forall_mem_cons,
        ih (Nat.succ.inj hlength)]
      rfl

theorem length_children_of_sameBelow {first second : Node} (h : first.sameBelow second = true) :
    first.children.length = second.children.length := by
  simpa only [List.length_map] using congrArg List.length (sameBelow_iff.1 h)

theorem compareFrom_iff (pairs : List (Node × Node)) :
    compareFrom false pairs = true ↔ ∀ pair ∈ pairs, SameContent pair := by
  induction hsize : Rose.sizeForest (pairs.map Prod.fst) using Nat.strongRecOn
    generalizing pairs with
  | ind size ih =>
      cases pairs with
      | nil => exact ⟨fun _ => nofun, fun _ => by rw [compareFrom]⟩
      | cons pair pairs =>
          obtain ⟨first, second⟩ := pair
          rw [compareFrom, List.forall_mem_cons, sameContent_iff]
          split
          · next hlength =>
            refine ⟨nofun, fun h => absurd ?_ hlength⟩
            exact length_children_of_sameBelow h.1.2
          · next hlength =>
            have hlength := Decidable.not_not.1 hlength
            rw [Bool.not_false, Bool.true_and]
            split
            · next hdiffers =>
              refine ⟨nofun, fun h => ?_⟩
              rw [Beat.differs_eq_false_iff.2 h.1.1] at hdiffers
              cases hdiffers
            · next hagrees =>
              have hagrees := Beat.differs_eq_false_iff.1 (Bool.eq_false_iff.2 hagrees)
              have hless := sizeForest_pairs hlength pairs
              rw [ih _ (by omega) _ rfl, List.forall_mem_append, sameBelow_iff,
                map_content_eq_iff hlength]
              simp only [List.mem_reverse, hagrees, true_and]

/-- The loop compares the forests below the roots. -/
theorem compareFrom_roots (first second : Node) :
    compareFrom true [(first, second)] = first.sameBelow second := by
  rw [Bool.eq_iff_iff, compareFrom]
  split
  · next hlength => exact ⟨nofun, fun h => absurd (length_children_of_sameBelow h) hlength⟩
  · next hlength =>
    rw [Bool.not_true, Bool.false_and, if_neg Bool.false_ne_true, List.append_nil, compareFrom_iff,
      sameBelow_iff, map_content_eq_iff (Decidable.not_not.1 hlength)]
    simp only [List.mem_reverse]

/-! ### What the comparison says -/

/-- Below the two nodes there are nodes in the same positions, and they agree. -/
def AlikeBelow (first second : Node) : Prop :=
  ∀ way ≠ [], Option.Rel (fun node other : Node => node.value.Agrees other.value)
    (first.at? way) (second.at? way)

theorem agrees_iff {node? other? : Option Node} :
    (node?.map (Rose.map Beat.content)).map Rose.value =
        (other?.map (Rose.map Beat.content)).map Rose.value ↔
      Option.Rel (fun node other : Node => node.value.Agrees other.value) node? other? := by
  cases node? with
  | none =>
      cases other? with
      | none => exact ⟨fun _ => .none, fun _ => rfl⟩
      | some other => exact ⟨nofun, nofun⟩
  | some node =>
      cases other? with
      | none => exact ⟨nofun, nofun⟩
      | some other =>
          simp only [Option.map_some, Rose.value_map, Option.some.injEq, Beat.content_eq_iff]
          exact ⟨fun h => .some h, fun | .some h => h⟩

theorem sameBelow_iff_alikeBelow {first second : Node} :
    first.sameBelow second = true ↔ first.AlikeBelow second := by
  rw [sameBelow_iff, ← Rose.children_map, ← Rose.children_map, Rose.children_eq_iff_at?]
  simp only [Rose.at?_map, agrees_iff]
  rfl

theorem equivalence_sameBelow :
    Equivalence fun first second : Node => first.sameBelow second = true where
  refl _ := sameBelow_iff.2 rfl
  symm h := sameBelow_iff.2 (sameBelow_iff.1 h).symm
  trans h h' := sameBelow_iff.2 ((sameBelow_iff.1 h).trans (sameBelow_iff.1 h'))

/-- A node has fewer nodes below it than one above. -/
theorem not_sameBelow_of_mem_below {upper lower : Node}
    (h : lower ∈ Rose.walkForest upper.children) :
    lower.sameBelow upper = false ∧ upper.sameBelow lower = false := by
  have hne := Nat.ne_of_lt (Rose.size_lt_of_mem_below h)
  exact ⟨Bool.eq_false_iff.2 fun hsame => hne (Share.size_eq_of_sameBelow hsame),
    Bool.eq_false_iff.2 fun hsame => hne (Share.size_eq_of_sameBelow hsame).symm⟩

/-- The widths in a signature are those that are counted level by level. -/
theorem widths_childSignature (depth : Nat) (child : Node) :
    (childSignature depth child).widths =
      (List.range depth).map fun step : Nat => child.width (step + 1) := by
  refine List.map_congr_left fun step _ => ?_
  rw [Rose.width_eq]
  rfl

/-- The comparison, run as a loop or by recursion, holds exactly between nodes that are alike below.
It is an equivalence and does not hold between a node and one above it, and nodes that agree in what
a signature shows of them have then the same signature. -/
theorem sameBelow_compares :
    (∀ first second : Node, compareFrom true [(first, second)] = first.sameBelow second ∧
      (first.sameBelow second = true ↔ first.AlikeBelow second)) ∧
    (Equivalence fun first second : Node => first.sameBelow second = true) ∧
    (∀ upper lower : Node, lower ∈ Rose.walkForest upper.children →
      lower.sameBelow upper = false ∧ upper.sameBelow lower = false) ∧
    (∀ depth (child : Node), (childSignature depth child).widths =
      (List.range depth).map fun step : Nat => child.width (step + 1)) ∧
    ∀ first second : Node, first.sameBelow second = true → first.value.Echoes second.value →
      ∀ depth, first.signature depth = second.signature depth :=
  ⟨fun first second => ⟨compareFrom_roots first second, sameBelow_iff_alikeBelow⟩,
    equivalence_sameBelow, fun _ _ => not_sameBelow_of_mem_below, widths_childSignature,
    fun _ _ hsame hechoes depth => signature_eq_of_sameBelow depth hechoes hsame⟩

def draught (id : Int) : Node :=
  .node { id := id, kind := .dialogue, label := some "Drink", text := some "It is cool." }
    [.node { id := id + 1, kind := .ending, label := some "Go on", ref := some 0 } []]

def spring (id : Int) : Node :=
  .node { id := id, kind := .dialogue, text := some "A spring." } [draught (id + 1)]

/-- Springs with different ids are alike below, but a spring is not like the draught from it. -/
theorem sameBelow_compares_springs :
    (spring 1).sameBelow (spring 4) = true ∧ (spring 1).AlikeBelow (spring 4) ∧
      (spring 1).value.Echoes (spring 4).value ∧
      (∀ depth, (spring 1).signature depth = (spring 4).signature depth) ∧
      draught 2 ∈ Rose.walkForest (spring 1).children ∧
      (draught 2).sameBelow (spring 1) = false ∧ (spring 1).sameBelow (draught 2) = false := by
  obtain ⟨hloop, -, habove, -, hsignature⟩ := sameBelow_compares
  have hsame : (spring 1).sameBelow (spring 4) = true := by decide
  have hechoes : (spring 1).value.Echoes (spring 4).value := ⟨rfl, rfl, rfl⟩
  have hmem : draught 2 ∈ Rose.walkForest (spring 1).children :=
    Rose.mem_walkForest.2 ⟨_, List.mem_singleton.2 rfl, Rose.self_mem_walk _⟩
  exact ⟨hsame, (hloop _ _).2.1 hsame, hechoes, hsignature _ _ hsame hechoes, hmem,
    habove _ _ hmem⟩

end Node

end StoryAtlas
