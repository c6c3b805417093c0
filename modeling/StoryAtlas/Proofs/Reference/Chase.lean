import StoryAtlas.Proofs.Event.Place
import StoryAtlas.Reference.Chase

/-!
# Following references moves them and makes none

Only the reference of a node that has one is followed to its end, and what is written back is again
a reference. Nodes without one keep none.
-/

namespace StoryAtlas.Reference

variable {redirects : Register Int Int} {refs : Register Int (Option Int)} {root : Placed}

def NoNewRefs (refs later : Register Int (Option Int)) : Prop :=
  ∀ id, (Register.get? id later).join.isSome → (Register.get? id refs).join.isSome

theorem noNewRefs_chaseOne {state : Chased} {id : Int} (h : NoNewRefs refs state.refs) :
    NoNewRefs refs (chaseOne redirects state id).refs := by
  unfold chaseOne
  split
  · exact h
  · next target htarget =>
    dsimp only
    split
    · exact h
    · intro other hother
      rw [Register.get?_put] at hother
      split at hother
      · next hsame => exact h other (by rw [hsame, htarget]; rfl)
      · exact h other hother

theorem noNewRefs_chaseAll (redirects : Register Int Int) (root : Placed) :
    NoNewRefs (Register.ofList (root.walk.map fun node => (Placed.id node, (Placed.beat node).ref)))
      (chaseAll redirects root).refs := by
  refine List.foldlRecOn (motive := fun state : Chased => NoNewRefs _ state.refs) _ _ ?_ ?_
  · exact fun _ h => h
  · exact fun state h id _ => noNewRefs_chaseOne h

theorem retold_resolvePlaced (distinct : (Placed.ids root).Nodup) (redirects : Register Int Int) :
    root.forget.Retold (resolvePlaced redirects root).1.forget := by
  refine Rose.Shuffled.map_map (Rose.shuffled_map fun node hnode => ?_)
  have hkeys : ((root.walk.map fun node => (Placed.id node, (Placed.beat node).ref)).map
      (·.1)).Nodup := by
    rw [List.map_map]
    exact distinct
  have hfound := Register.get?_ofList_of_mem hkeys (List.mem_map_of_mem hnode)
  obtain ⟨⟨place, beat⟩, children⟩ := node
  dsimp only [Rose.value_node]
  split
  · refine ⟨rfl, rfl, fun hsome => ?_⟩
    have hold := noNewRefs_chaseAll redirects root _ hsome
    rw [show beat.id = Placed.id (.node (place, beat) children) from rfl, hfound] at hold
    exact hold
  · exact .refl _

end StoryAtlas.Reference
