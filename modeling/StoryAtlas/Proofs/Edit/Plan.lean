import StoryAtlas.Edit.Apply
import StoryAtlas.Proofs.Event.Place

/-!
# Trees that are being altered

Of a tree that is being altered one can say at any moment what has become of the node of each place:
how its beat was changed, whether its children were dropped, and which new nodes were added behind
those that are left. This is a plan, and the tree is what it makes of the tree that the alteration
found. An edit of one place revises the plan at that place, whether the tree still shows the place
or not.
-/

namespace StoryAtlas.Edit

/-- What becomes of a node. -/
structure Remake where
  change : Beat → Beat := id
  drops : Bool := false
  added : List Node := []

namespace Remake

def act (remake : Remake) (node : Working) : Working :=
  .node (node.place, remake.change node.beat)
    ((if remake.drops then [] else node.children) ++ remake.added.map Working.fresh)

/-- One after the other. What was added first is dropped with the children. -/
def andThen (first second : Remake) : Remake where
  change := second.change ∘ first.change
  drops := first.drops || second.drops
  added := (if second.drops then [] else first.added) ++ second.added

theorem act_andThen (first second : Remake) (node : Working) :
    (first.andThen second).act node = second.act (first.act node) := by
  obtain ⟨⟨place, beat⟩, children⟩ := node
  rw [act, act, act, andThen]
  cases second.drops <;> cases first.drops <;> simp [Working.place, Working.beat]

theorem act_idle (node : Working) : act {} node = node := by
  obtain ⟨⟨place, beat⟩, children⟩ := node
  simp [act, Working.place, Working.beat]

theorem andThen_assoc (first second third : Remake) :
    (first.andThen second).andThen third = first.andThen (second.andThen third) := by
  obtain ⟨change, drops, added⟩ := second
  obtain ⟨lastChange, lastDrops, lastAdded⟩ := third
  simp only [andThen, Function.comp_assoc, Bool.or_assoc]
  cases drops <;> cases lastDrops <;> simp

end Remake

abbrev Plan := Nat → Remake

namespace Plan

def untouched : Plan := fun _ => {}

def revise (plan : Plan) (place : Nat) (remake : Remake) : Plan :=
  fun other => if other = place then (plan other).andThen remake else plan other

mutual

def carryOut (plan : Plan) : Placed → Working
  | .node (place, beat) children =>
    (plan place).act (.node (some place, beat) (carryOutForest plan children))

def carryOutForest (plan : Plan) : List Placed → List Working
  | [] => []
  | node :: nodes => carryOut plan node :: carryOutForest plan nodes

end

/-- A node that is still in the tree, since no node above it has dropped its children. -/
structure Shows (plan : Plan) (root node : Placed) : Prop where
  mem : node ∈ root.walk
  uncovered : ∀ upper : Placed, upper ∈ root.walk → (plan upper.place).drops = true →
    node ∉ Rose.walkForest upper.children

variable {plan : Plan} {place : Nat} {remake : Remake} {root node : Placed}

theorem carryOutForest_eq_map (plan : Plan) (nodes : List Placed) :
    carryOutForest plan nodes = nodes.map (carryOut plan) := by
  induction nodes with
  | nil => rfl
  | cons node nodes ih => rw [carryOutForest, ih, List.map_cons]

theorem carryOut_eq (plan : Plan) (node : Placed) :
    plan.carryOut node =
      (plan node.place).act
        (.node (some node.place, node.beat) (node.children.map plan.carryOut)) := by
  obtain ⟨⟨place, beat⟩, children⟩ := node
  rw [carryOut, carryOutForest_eq_map]
  rfl

@[simp] theorem place_carryOut (plan : Plan) (node : Placed) :
    (plan.carryOut node).place = some node.place := by
  rw [carryOut_eq]
  rfl

theorem value_carryOut (plan : Plan) (node : Placed) :
    (plan.carryOut node).value = (some node.place, (plan node.place).change node.beat) := by
  rw [carryOut_eq]
  rfl

@[simp] theorem beat_carryOut (plan : Plan) (node : Placed) :
    (plan.carryOut node).beat = (plan node.place).change node.beat := by
  rw [carryOut_eq]
  rfl

theorem children_carryOut (plan : Plan) (node : Placed) :
    (plan.carryOut node).children =
      (if (plan node.place).drops then [] else node.children.map plan.carryOut) ++
        (plan node.place).added.map Working.fresh := by
  rw [carryOut_eq]
  rfl

theorem carryOut_untouched (root : Node) :
    untouched.carryOut root.placed = Working.ofNode root := by
  rw [Working.ofNode]
  generalize root.placed = placed
  induction placed using Rose.induction_on with
  | node entry children ih =>
      rw [carryOut_eq, Rose.map_node, untouched, Remake.act_idle, Rose.children_node]
      congr 1
      exact List.map_congr_left ih

theorem carryOut_congr {other : Plan}
    (h : ∀ inner : Placed, inner ∈ node.walk → plan inner.place = other inner.place) :
    plan.carryOut node = other.carryOut node := by
  induction node using Rose.induction_on with
  | node entry children ih =>
      rw [carryOut_eq, carryOut_eq, h _ (Rose.self_mem_walk _)]
      congr 2
      exact List.map_congr_left fun child hchild => ih child hchild fun inner hinner =>
        h inner (Rose.mem_walk_of_mem hchild hinner)

theorem revise_self (plan : Plan) (place : Nat) (remake : Remake) :
    plan.revise place remake place = (plan place).andThen remake := if_pos rfl

theorem revise_of_ne {other : Nat} (h : other ≠ place) :
    plan.revise place remake other = plan other := if_neg h

theorem revise_revise (plan : Plan) (place : Nat) (first second : Remake) :
    (plan.revise place first).revise place second = plan.revise place (first.andThen second) := by
  funext other
  by_cases h : other = place
  · rw [h, revise_self, revise_self, revise_self, Remake.andThen_assoc]
  · rw [revise_of_ne h, revise_of_ne h, revise_of_ne h]

/-! ### Edits of one place -/

theorem place_of_mem_walk_fresh {added : Node} {node : Working}
    (h : node ∈ (Working.fresh added).walk) : node.place = none := by
  rw [Working.fresh, Rose.walk_map] at h
  obtain ⟨inner, -, rfl⟩ := List.mem_map.1 h
  rw [Working.place, Rose.value_map]

theorem editAt_fresh (edit : Working → Working) (added : Node) :
    Working.editAt place edit (Working.fresh added) = Working.fresh added := by
  apply Rose.editWhere_eq_self
  intro node hnode
  have hplace : node.value.1 = none := place_of_mem_walk_fresh hnode
  rw [hplace]
  rfl

theorem notMem_children_of_nodup (distinct : (Placed.places node).Nodup) :
    ∀ child ∈ node.children, ∀ inner : Placed, inner ∈ child.walk → inner.place ≠ node.place := by
  intro child hchild inner hinner hplace
  apply Rose.key_notMem_below distinct (Rose.self_mem_walk node)
  rw [← hplace]
  exact List.mem_map_of_mem (Rose.mem_walkForest.2 ⟨child, hchild, hinner⟩)

theorem nodup_places_child {child : Placed} (distinct : (Placed.places node).Nodup)
    (h : child ∈ node.children) : (Placed.places child).Nodup :=
  distinct.sublist ((Rose.walk_sublist_of_mem_walk (Rose.mem_walk_of_mem_children h)).map _)

theorem carryOut_revise_of_ne (h : node.place ≠ place) :
    (plan.revise place remake).carryOut node =
      .node (plan.carryOut node).value
        ((if (plan node.place).drops then []
          else node.children.map (plan.revise place remake).carryOut) ++
            (plan node.place).added.map Working.fresh) := by
  rw [← Rose.node_value_children ((plan.revise place remake).carryOut node), children_carryOut,
    value_carryOut, value_carryOut, revise_of_ne h]

/-- At the place itself, nothing further down is at stake. -/
theorem editAt_carryOut_self (distinct : (Placed.places node).Nodup) :
    Working.editAt node.place remake.act (plan.carryOut node) =
      (plan.revise node.place remake).carryOut node := by
  have hchildren : node.children.map (plan.revise node.place remake).carryOut =
      node.children.map plan.carryOut := by
    refine List.map_congr_left fun child hchild => carryOut_congr fun inner hinner => ?_
    exact revise_of_ne (notMem_children_of_nodup distinct child hchild inner hinner)
  have htest : ((plan.carryOut node).value.1 == some node.place) = true := by
    rw [value_carryOut]
    exact beq_self_eq_true _
  rw [Working.editAt, Rose.editWhere_of_pos htest, carryOut_eq, carryOut_eq, hchildren,
    revise_self, Remake.act_andThen]

theorem editAt_carryOut_of_ne (h : node.place ≠ place)
    (hchildren : ∀ child ∈ node.children, Working.editAt place remake.act (plan.carryOut child) =
      (plan.revise place remake).carryOut child) :
    Working.editAt place remake.act (plan.carryOut node) =
      (plan.revise place remake).carryOut node := by
  have htest : ((plan.carryOut node).value.1 == some place) = false := by
    rw [value_carryOut]
    exact beq_eq_false_iff_ne.2 fun heq => h (Option.some.inj heq)
  have hadded : ((plan node.place).added.map Working.fresh).map
      (Working.editAt place remake.act) = (plan node.place).added.map Working.fresh := by
    rw [List.map_map]
    exact List.map_congr_left fun added _ => editAt_fresh remake.act added
  rw [Working.editAt, Rose.editWhere_of_neg htest, carryOut_revise_of_ne h, children_carryOut,
    List.map_append]
  congr 2
  split
  · rfl
  · rw [List.map_map]
    exact List.map_congr_left hchildren

/-- Acting on the node of a place is the same as planning to. -/
theorem editAt_carryOut (distinct : (Placed.places root).Nodup) :
    Working.editAt place remake.act (plan.carryOut root) =
      (plan.revise place remake).carryOut root := by
  induction root using Rose.induction_on with
  | node entry children ih =>
      by_cases hplace : Placed.place (.node entry children) = place
      · rw [← hplace]
        exact editAt_carryOut_self distinct
      · exact editAt_carryOut_of_ne hplace fun child hchild =>
          ih child hchild (nodup_places_child distinct hchild)

theorem drops_revise (plan : Plan) (place : Nat) (remake : Remake) (other : Nat) :
    (plan.revise place remake other).drops =
      ((plan other).drops || decide (other = place) && remake.drops) := by
  by_cases h : other = place
  · rw [h, revise_self, decide_eq_true rfl, Bool.true_and]
    rfl
  · rw [revise_of_ne h, decide_eq_false h, Bool.false_and, Bool.or_false]

theorem revise_change (edit : Beat → Beat) (other : Nat) :
    plan.revise place { change := edit } other =
      { plan other with
        change := if other = place then edit ∘ (plan other).change else (plan other).change } := by
  by_cases h : other = place
  · rw [if_pos h, h, revise_self, Remake.andThen]
    simp
  · rw [if_neg h, revise_of_ne h]

theorem editBeat_carryOut (edit : Beat → Beat) (root : Placed) :
    editBeat (some place) edit (plan.carryOut root) =
      (plan.revise place { change := edit }).carryOut root := by
  rw [editBeat]
  induction root using Rose.induction_on with
  | node entry children ih =>
      obtain ⟨number, beat⟩ := entry
      rw [← Rose.node_value_children (Rose.map _ _),
        ← Rose.node_value_children ((plan.revise place _).carryOut _), value_carryOut,
        children_carryOut, Rose.value_map, Rose.children_map, value_carryOut, children_carryOut,
        List.map_append, revise_change]
      congr 1
      · by_cases h : number = place <;> simp [Placed.place, Placed.beat, h]
      · congr 1
        · split
          · rfl
          · rw [List.map_map]
            exact List.map_congr_left ih
        · rw [List.map_map]
          refine List.map_congr_left fun added _ => ?_
          rw [Function.comp_apply, Working.fresh, Rose.map_map]
          rfl

/-! ### The nodes of a tree that is being altered -/

theorem shows_self (plan : Plan) (root : Placed) : plan.Shows root root := by
  refine ⟨Rose.self_mem_walk root, fun upper hupper _ hbelow => ?_⟩
  have := Rose.size_lt_of_mem_below hbelow
  have := Rose.size_le_of_mem_walk hupper
  omega

theorem shows_cases (h : plan.Shows root node) :
    node = root ∨
      (plan root.place).drops = false ∧ ∃ child ∈ root.children, plan.Shows child node := by
  rcases Rose.mem_walk.1 h.mem with rfl | hbelow
  · exact .inl rfl
  · refine .inr ⟨?_, ?_⟩
    · rw [← Bool.not_eq_true]
      exact fun hdrops => h.uncovered root (Rose.self_mem_walk root) hdrops hbelow
    · obtain ⟨child, hchild, hnode⟩ := Rose.mem_walkForest.1 hbelow
      refine ⟨child, hchild, hnode, fun upper hupper => h.uncovered upper ?_⟩
      exact Rose.mem_walk_trans hupper (Rose.mem_walk_of_mem_children hchild)

theorem shows_of_child {child : Placed} (distinct : (Placed.places root).Nodup)
    (hdrops : (plan root.place).drops = false) (hchild : child ∈ root.children)
    (h : plan.Shows child node) : plan.Shows root node := by
  refine ⟨Rose.mem_walk_trans h.mem (Rose.mem_walk_of_mem_children hchild), ?_⟩
  intro upper hupper hcovers hbelow
  rcases Rose.mem_walk.1 hupper with rfl | hupper
  · rw [hdrops] at hcovers
    exact Bool.false_ne_true hcovers
  · obtain ⟨other, hother, hunder⟩ := Rose.mem_walkForest.1 hupper
    have hsame : child = other := by
      obtain ⟨entry, children⟩ := root
      exact Rose.eq_of_mem_walk_of_mem_walk (List.nodup_cons.1 distinct).2 hchild hother h.mem
        (Rose.mem_walk_of_mem_below hbelow hunder)
    rw [← hsame] at hunder
    exact h.uncovered upper hunder hcovers hbelow

/-- The nodes are those that are still shown, as the plan makes them, and those that were added to
one of these. -/
theorem mem_walk_carryOut (distinct : (Placed.places root).Nodup) {now : Working} :
    now ∈ (plan.carryOut root).walk ↔
      (∃ node, plan.Shows root node ∧ now = plan.carryOut node) ∨
        ∃ node, plan.Shows root node ∧ ∃ added ∈ (plan node.place).added,
          now ∈ (Working.fresh added).walk := by
  constructor
  · intro h
    induction root using Rose.induction_on with
    | node entry children ih =>
        rcases Rose.mem_walk.1 h with rfl | hbelow
        · exact .inl ⟨_, shows_self plan _, rfl⟩
        rw [children_carryOut] at hbelow
        obtain ⟨next, hnext, hnow⟩ := Rose.mem_walkForest.1 hbelow
        rcases List.mem_append.1 hnext with hold | hadded
        · split at hold
          · exact absurd hold List.not_mem_nil
          · next hdrops =>
            obtain ⟨child, hchild, rfl⟩ := List.mem_map.1 hold
            have hup {node : Placed} (hnode : plan.Shows child node) :
                plan.Shows (.node entry children) node :=
              shows_of_child distinct (Bool.eq_false_iff.2 hdrops) hchild hnode
            rcases ih child hchild (nodup_places_child distinct hchild) hnow with
              ⟨node, hnode, hmade⟩ | ⟨node, hnode, hmade⟩
            · exact .inl ⟨node, hup hnode, hmade⟩
            · exact .inr ⟨node, hup hnode, hmade⟩
        · obtain ⟨added, hmem, rfl⟩ := List.mem_map.1 hadded
          exact .inr ⟨_, shows_self plan _, added, hmem, hnow⟩
  · have hmem {node : Placed} (hnode : plan.Shows root node) :
        plan.carryOut node ∈ (plan.carryOut root).walk := by
      induction root using Rose.induction_on with
      | node entry children ih =>
          rcases shows_cases hnode with rfl | ⟨hdrops, child, hchild, hshown⟩
          · exact Rose.self_mem_walk _
          · refine Rose.mem_walk_trans (ih child hchild (nodup_places_child distinct hchild) hshown)
              (Rose.mem_walk_of_mem_children ?_)
            rw [children_carryOut, hdrops]
            exact List.mem_append_left _ (List.mem_map_of_mem hchild)
    rintro (⟨node, hnode, rfl⟩ | ⟨node, hnode, added, hadded, hnow⟩)
    · exact hmem hnode
    · refine Rose.mem_walk_trans hnow (Rose.mem_walk_trans (Rose.mem_walk_of_mem_children ?_)
        (hmem hnode))
      rw [children_carryOut]
      exact List.mem_append_right _ (List.mem_map_of_mem hadded)

def made (plan : Plan) (root : Placed) : Node := (plan.carryOut root).forget

theorem forget_fresh (added : Node) : (Working.fresh added).forget = added := by
  rw [Working.fresh, Working.forget, Rose.map_map]
  exact Rose.map_id added

@[simp] theorem value_made (plan : Plan) (node : Placed) :
    (plan.made node).value = (plan node.place).change node.beat := by
  rw [made, Working.forget, Rose.value_map]
  exact beat_carryOut plan node

theorem children_made (plan : Plan) (node : Placed) :
    (plan.made node).children =
      (if (plan node.place).drops then [] else node.children.map plan.made) ++
        (plan node.place).added := by
  rw [made, Working.forget, Rose.children_map, children_carryOut, List.map_append, List.map_map]
  congr 1
  · split
    · rfl
    · rw [List.map_map]
      rfl
  · exact (List.map_congr_left fun added _ => forget_fresh added).trans (List.map_id _)

theorem mem_walk_made (distinct : (Placed.places root).Nodup) {now : Node} :
    now ∈ (plan.made root).walk ↔
      (∃ node, plan.Shows root node ∧ now = plan.made node) ∨
        ∃ node, plan.Shows root node ∧ ∃ added ∈ (plan node.place).added, now ∈ added.walk := by
  rw [made, Working.forget, Rose.walk_map, List.mem_map]
  constructor
  · rintro ⟨origin, horigin, rfl⟩
    rcases (mem_walk_carryOut distinct).1 horigin with
      ⟨node, hnode, rfl⟩ | ⟨node, hnode, added, hadded, hmem⟩
    · exact .inl ⟨node, hnode, rfl⟩
    · refine .inr ⟨node, hnode, added, hadded, ?_⟩
      rw [← forget_fresh added, Working.forget, Rose.walk_map]
      exact List.mem_map_of_mem hmem
  · rintro (⟨node, hnode, rfl⟩ | ⟨node, hnode, added, hadded, hmem⟩)
    · exact ⟨_, (mem_walk_carryOut distinct).2 (.inl ⟨node, hnode, rfl⟩), rfl⟩
    · refine ⟨Working.fresh now, (mem_walk_carryOut distinct).2
        (.inr ⟨node, hnode, added, hadded, ?_⟩), forget_fresh now⟩
      rw [Working.fresh, Rose.walk_map]
      exact List.mem_map_of_mem hmem

def KeepsIds (plan : Plan) : Prop := ∀ place beat, ((plan place).change beat).id = beat.id

theorem id_made (keeps : plan.KeepsIds) (node : Placed) : (plan.made node).id = node.id := by
  rw [Node.id, value_made]
  exact keeps _ _

theorem mem_ids_made (distinct : (Placed.places root).Nodup) (keeps : plan.KeepsIds) {id : Int} :
    id ∈ (plan.made root).ids ↔
      ∃ node, plan.Shows root node ∧
        (id = node.id ∨ ∃ added ∈ (plan node.place).added, id ∈ Node.ids added) := by
  rw [Node.mem_ids]
  constructor
  · rintro ⟨now, hnow, rfl⟩
    rcases (mem_walk_made distinct).1 hnow with
      ⟨node, hnode, rfl⟩ | ⟨node, hnode, added, hadded, hmem⟩
    · exact ⟨node, hnode, .inl (id_made keeps node)⟩
    · exact ⟨node, hnode, .inr ⟨added, hadded, Node.id_mem_ids hmem⟩⟩
  · rintro ⟨node, hnode, rfl | ⟨added, hadded, hid⟩⟩
    · exact ⟨_, (mem_walk_made distinct).2 (.inl ⟨node, hnode, rfl⟩), id_made keeps node⟩
    · obtain ⟨now, hnow, rfl⟩ := Node.mem_ids.1 hid
      exact ⟨now, (mem_walk_made distinct).2 (.inr ⟨node, hnode, added, hadded, hnow⟩), rfl⟩

/-- What is left as it was has children of its own, or new ones, only if it does not refer. -/
structure Tidy (plan : Plan) (node : Placed) : Prop where
  self : ((plan node.place).change node.beat).ref.isSome →
    ((plan node.place).drops = true ∨ node.children = []) ∧ (plan node.place).added = []
  added : ∀ added ∈ (plan node.place).added, added.Bare

theorem bare_made_iff (distinct : (Placed.places root).Nodup) :
    (plan.made root).Bare ↔ ∀ node, plan.Shows root node → plan.Tidy node := by
  have hself (node : Placed) : (plan.made node).children = [] ↔
      ((plan node.place).drops = true ∨ node.children = []) ∧ (plan node.place).added = [] := by
    rw [children_made, List.append_eq_nil_iff]
    cases (plan node.place).drops <;> simp
  constructor
  · intro bare node hnode
    refine ⟨fun href => (hself node).1 ?_, fun added hadded inner hinner => ?_⟩
    · refine bare _ ((mem_walk_made distinct).2 (.inl ⟨node, hnode, rfl⟩)) ?_
      rwa [value_made]
    · exact bare inner ((mem_walk_made distinct).2 (.inr ⟨node, hnode, added, hadded, hinner⟩))
  · intro h now hnow
    rcases (mem_walk_made distinct).1 hnow with
      ⟨node, hnode, rfl⟩ | ⟨node, hnode, added, hadded, hmem⟩
    · rw [value_made]
      exact fun href => (hself node).2 ((h node hnode).self href)
    · exact (h node hnode).added added hadded now hmem

theorem exists_of_mem_walk_of_place (distinct : (Placed.places root).Nodup) {now : Working}
    (h : now ∈ (plan.carryOut root).walk) (hplace : now.place = some place) :
    ∃ node, plan.Shows root node ∧ node.place = place ∧ now = plan.carryOut node := by
  rcases (mem_walk_carryOut distinct).1 h with ⟨node, hnode, rfl⟩ | ⟨node, -, added, -, hmem⟩
  · rw [place_carryOut] at hplace
    exact ⟨node, hnode, Option.some.inj hplace, rfl⟩
  · rw [place_of_mem_walk_fresh hmem] at hplace
    exact absurd hplace (by simp)

theorem atPlace?_eq_some (distinct : (Placed.places root).Nodup) {now : Working}
    (h : Working.atPlace? place (plan.carryOut root) = some now) :
    ∃ node, plan.Shows root node ∧ node.place = place ∧ now = plan.carryOut node := by
  have hplace : (now.place == some place) = true :=
    List.find?_some (p := fun node : Working => node.place == some place) h
  exact exists_of_mem_walk_of_place distinct (List.mem_of_find?_eq_some h) (eq_of_beq hplace)

theorem atPlace?_of_shows (distinct : (Placed.places root).Nodup) (h : plan.Shows root node) :
    Working.atPlace? node.place (plan.carryOut root) = some (plan.carryOut node) := by
  cases hfound : Working.atPlace? node.place (plan.carryOut root) with
  | none =>
      have hmem := (mem_walk_carryOut distinct).2 (.inl ⟨node, h, rfl⟩)
      have := List.find?_eq_none.1 hfound _ hmem
      simp at this
  | some now =>
      obtain ⟨other, hother, hplace, rfl⟩ := atPlace?_eq_some distinct hfound
      rw [Placed.eq_of_place_eq distinct hother.mem h.mem hplace]

/-- What is shown after a revision was shown before it. -/
theorem Shows.of_revise (h : (plan.revise place remake).Shows root node) :
    plan.Shows root node := by
  refine ⟨h.mem, fun upper hupper hdrops => h.uncovered upper hupper ?_⟩
  rw [drops_revise, hdrops, Bool.true_or]

/-- A revision leaves a node in the tree unless it drops what is below a node above it. -/
theorem Shows.revise (h : plan.Shows root node)
    (hopen : remake.drops = true → ∀ upper ∈ root.walk, Placed.place upper = place →
      node ∉ Rose.walkForest upper.children) :
    (plan.revise place remake).Shows root node := by
  refine ⟨h.mem, fun upper hupper hdrops => ?_⟩
  rw [drops_revise, Bool.or_eq_true, Bool.and_eq_true, decide_eq_true_iff] at hdrops
  rcases hdrops with hold | ⟨hplace, hnew⟩
  · exact h.uncovered upper hupper hold
  · exact hopen hnew upper hupper hplace

end Plan

end StoryAtlas.Edit
