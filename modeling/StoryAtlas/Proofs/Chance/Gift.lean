import Mathlib.Data.List.Perm.Basic
import StoryAtlas.Proofs.Chance.Reveal
import StoryAtlas.Proofs.Rose.Walk

/-!
# Effects that move

The masking of a tree goes down the lines of single children and may hand the grants of a node over
to the next. `gifts` lists the hand-overs of a run. All that a run does to the effects of a tree is
said by them: the givers lose every copy of what they grant, and each child receives one copy.
-/

namespace StoryAtlas.Roll

open Text

/-- A hand-over, with the giver and the child as they stand before. -/
structure Gift where
  giver : Revealed
  only : Node

mutual

/-- The hand-overs of a run over a tree whose root stands for the given beat. -/
def gifts (beat : Beat) : Node → List Gift
  | .node _ children =>
    match revealBeat beat with
    | .error _ => []
    | .ok own =>
      match children with
      | [only] =>
        match handOver own only.value with
        | .error _ => []
        | .ok (_, received) =>
          if received = only.value then gifts received only
          else { giver := own, only := only } :: gifts received only
      | many => giftsForest many

def giftsForest : List Node → List Gift
  | [] => []
  | node :: nodes => gifts node.value node ++ giftsForest nodes

end

/-- The child's text calls for the hand-over, and the ranges, one for a stake, are those of the
giver's effects. -/
structure Gift.Due (gift : Gift) : Prop where
  due : Roll.Due gift.giver gift.only.value
  stakes : (gift.giver.ranges.map Prod.fst).Nodup
  ranges : ∀ found ∈ gift.giver.ranges, ∃ effect ∈ gift.giver.beat.effects, Grants effect found

def effectsOf (nodes : List Node) : List String :=
  (Rose.walkForest nodes).flatMap fun node => node.value.effects

/-- A node keeps its effects but for those that it hands over to its only child. -/
def Kept (given : List Gift) (node shown : Node) : Prop :=
  ∀ effect ∈ node.value.effects, effect ∉ shown.value.effects →
    ∃ gift ∈ given, node.children = [gift.only] ∧ effect ∈ gift.giver.grants

section Gifts

variable {beat received : Beat} {old : Beat} {only node shown : Node} {nodes others : List Node}
  {own handed : Revealed} {given more : List Gift}

theorem gifts_only (hown : revealBeat beat = .ok own)
    (hhand : handOver own only.value = .ok (handed, received)) :
    gifts beat (.node old [only]) =
      if received = only.value then gifts received only
      else { giver := own, only := only } :: gifts received only := by
  simp only [gifts, hown, hhand]

theorem gifts_many (hown : revealBeat beat = .ok own) (hmany : ∀ only, nodes ≠ [only]) :
    gifts beat (.node old nodes) = giftsForest nodes := by
  simp only [gifts, hown]

/-! ### What the hand-overs make of a tree -/

/-- The nodes are shown as they are, but for what is given. -/
structure Accounts (nodes shown : List Node) (given : List Gift) : Prop where
  balance : (effectsOf shown ++ given.flatMap fun gift => gift.giver.taken).Perm
    (effectsOf nodes ++ given.flatMap fun gift => gift.giver.grants)
  due : ∀ gift ∈ given, gift.Due
  kept : List.Forall₂ (Kept given) (Rose.walkForest nodes) (Rose.walkForest shown)

theorem Kept.mono (h : Kept given node shown) (hsub : given ⊆ more) : Kept more node shown := by
  intro effect heffect hgone
  obtain ⟨gift, hgift, hrest⟩ := h effect heffect hgone
  exact ⟨gift, hsub hgift, hrest⟩

theorem effectsOf_cons (node : Node) (nodes : List Node) :
    effectsOf (node :: nodes) = effectsOf [node] ++ effectsOf nodes := by
  simp [effectsOf, Rose.walkForest]

theorem effectsOf_node (beat : Beat) (nodes : List Node) :
    effectsOf [.node beat nodes] = beat.effects ++ effectsOf nodes := by
  simp [effectsOf, Rose.walkForest, Rose.walk]

theorem walkForest_node (beat : Beat) (nodes : List Node) :
    Rose.walkForest [.node beat nodes] = .node beat nodes :: Rose.walkForest nodes := by
  simp [Rose.walkForest, Rose.walk]

theorem Accounts.nil : Accounts [] [] [] where
  balance := .refl _
  due := by simp
  kept := .nil

theorem Accounts.cons (h : Accounts [node] [shown] given) (hothers : Accounts nodes others more) :
    Accounts (node :: nodes) (shown :: others) (given ++ more) where
  balance := by
    rw [List.perm_iff_count]
    intro effect
    have hfirst := h.balance.count_eq effect
    have hrest := hothers.balance.count_eq effect
    rw [effectsOf_cons shown, effectsOf_cons node]
    simp only [List.flatMap_append, List.count_append] at hfirst hrest ⊢
    omega
  due gift hgift := (List.mem_append.1 hgift).elim (h.due gift) (hothers.due gift)
  kept := by
    have hfirst := h.kept.imp fun _ _ hkept => hkept.mono (List.subset_append_left given more)
    have hrest := hothers.kept.imp fun _ _ hkept => hkept.mono (List.subset_append_right given more)
    have hwalk : ∀ node : Node, Rose.walkForest [node] = node.walk := fun node => by
      simp [Rose.walkForest]
    rw [hwalk, hwalk] at hfirst
    exact List.rel_append hfirst hrest

theorem Accounts.keep {changed : Beat} (h : Accounts nodes others given)
    (heffects : changed.effects = beat.effects) :
    Accounts [.node beat nodes] [.node changed others] given where
  balance := by
    rw [effectsOf_node, effectsOf_node, heffects, List.append_assoc, List.append_assoc]
    exact h.balance.append_left beat.effects
  due := h.due
  kept := by
    rw [walkForest_node, walkForest_node]
    exact .cons (fun effect heffect hgone => absurd (heffects ▸ heffect) hgone) h.kept

theorem perm_taken (own : Revealed) :
    ((own.beat.effects.filter fun effect => !own.grants.contains effect) ++ own.taken).Perm
      own.beat.effects :=
  List.perm_append_comm.trans (List.filter_append_perm _ own.beat.effects)

/-- With a hand-over the child has received the grants before it is shown. -/
theorem Accounts.give {changed : Beat}
    (h : Accounts [only.withValue received] [shown] given)
    (hdue : Gift.Due { giver := own, only := only }) (hown : own.beat.effects = beat.effects)
    (hreceived : received.effects = only.value.effects ++ own.grants)
    (hchanged : changed.effects =
      own.beat.effects.filter fun effect => !own.grants.contains effect) :
    Accounts [.node beat [only]] [.node changed [shown]]
      ({ giver := own, only := only } :: given) where
  balance := by
    obtain ⟨value, children⟩ := only
    rw [List.perm_iff_count]
    intro effect
    have hbelow := h.balance.count_eq effect
    have htaken := (perm_taken own).count_eq effect
    rw [effectsOf_node, effectsOf_node, effectsOf_node, hchanged, ← hown]
    rw [Rose.withValue, effectsOf_node, hreceived] at hbelow
    simp only [List.flatMap_cons, List.count_append, Rose.value_node, Rose.children_node]
      at hbelow htaken ⊢
    omega
  due := List.forall_mem_cons.2 ⟨hdue, h.due⟩
  kept := by
    obtain ⟨value, children⟩ := only
    have hbelow := h.kept.imp fun _ _ hkept => hkept.mono (List.subset_cons_self
      { giver := own, only := .node value children } given)
    rw [Rose.withValue, walkForest_node] at hbelow
    obtain ⟨first, others, hfirst, hothers, heq⟩ := List.forall₂_cons_left_iff.1 hbelow
    rw [walkForest_node beat, walkForest_node changed]
    refine .cons ?_ ?_
    · intro effect heffect hgone
      rw [Rose.value_node, hchanged, hown] at hgone
      refine ⟨_, List.mem_cons_self, rfl, ?_⟩
      by_contra hkeeps
      exact hgone (List.mem_filter.2 ⟨heffect, by simpa using hkeeps⟩)
    · -- what the child had of its own is among what it has with the grants
      rw [walkForest_node, heq]
      refine .cons (fun effect heffect => hfirst effect ?_) hothers
      rw [Rose.value_node, hreceived]
      exact List.mem_append_left _ heffect

theorem accounts_revealForest {count : Nat}
    (ih : ∀ node ∈ nodes, ∀ {shown count}, revealNode node.value node = .ok (shown, count) →
      Accounts [node] [shown] (gifts node.value node))
    (h : revealForest nodes = .ok (others, count)) : Accounts nodes others (giftsForest nodes) := by
  induction nodes generalizing others count with
  | nil =>
      cases h
      exact .nil
  | cons node nodes ihs =>
      obtain ⟨⟨first, changes⟩, hfirst, h⟩ := bind_eq_ok.1 h
      obtain ⟨⟨rest, more⟩, hrest, h⟩ := bind_eq_ok.1 h
      cases h
      rw [giftsForest]
      exact (ih node List.mem_cons_self hfirst).cons
        (ihs (fun other hother => ih other (List.mem_cons_of_mem node hother)) hrest)

theorem accounts_revealNode (node : Node) {count : Nat}
    (h : revealNode beat node = .ok (shown, count)) :
    Accounts [node.withValue beat] [shown] (gifts beat node) := by
  induction node using Rose.induction_on generalizing beat shown count with
  | node old children ih =>
      rw [revealNode] at h
      obtain ⟨own, hown, h⟩ := bind_eq_ok.1 h
      obtain ⟨heffects, hstakes, hranges⟩ := revealBeat_eq_ok hown
      split at h
      · next only _ =>
        obtain ⟨⟨handed, received⟩, hhand, h⟩ := bind_eq_ok.1 h
        obtain ⟨⟨child, changes⟩, hchild, h⟩ := bind_eq_ok.1 h
        cases h
        have hbelow := ih only List.mem_cons_self hchild
        rw [gifts_only hown hhand]
        rcases handOver_eq_ok hhand with ⟨rfl, rfl⟩ | ⟨hdue, hne, hreceived, hhanded⟩
        · rw [if_pos rfl]
          rw [Rose.withValue, Rose.node_value_children] at hbelow
          exact hbelow.keep heffects
        · rw [if_neg hne]
          exact hbelow.give ⟨hdue, hstakes, heffects ▸ hranges⟩ heffects hreceived hhanded
      · next hmany =>
        obtain ⟨⟨nodes, changes⟩, hnodes, h⟩ := bind_eq_ok.1 h
        cases h
        rw [gifts_many hown fun only heq => hmany only heq]
        refine Accounts.keep (accounts_revealForest (fun node hnode shown count hshown => ?_) hnodes)
          heffects
        have hbelow := ih node hnode hshown
        rwa [Rose.withValue, Rose.node_value_children] at hbelow

end Gifts

/-! ### What holds of every giver -/

section Givers

variable {invariant : List String → Node → Prop} {beat : Beat} {shown : Node}
  {nodes others : List Node} {gift : Gift}

theorem mem_giftsForest {count : Nat} (h : revealForest nodes = .ok (others, count))
    (hgift : gift ∈ giftsForest nodes) :
    ∃ node ∈ nodes, ∃ shown changes, revealNode node.value node = .ok (shown, changes) ∧
      gift ∈ gifts node.value node := by
  induction nodes generalizing others count with
  | nil => cases hgift
  | cons node nodes ih =>
      obtain ⟨⟨first, changes⟩, hfirst, h⟩ := bind_eq_ok.1 h
      obtain ⟨⟨rest, more⟩, hrest, -⟩ := bind_eq_ok.1 h
      rcases List.mem_append.1 hgift with hgift | hgift
      · exact ⟨node, List.mem_cons_self, first, changes, hfirst, hgift⟩
      · obtain ⟨other, hother, hfound⟩ := ih hrest hgift
        exact ⟨other, List.mem_cons_of_mem node hother, hfound⟩

/-- What holds of each node with its own effects, and goes on with the grants to the child, holds of
each giver with the effects that it has when it gives. -/
theorem of_mem_gifts
    (hgive : ∀ (gift : Gift) (old : Beat), gift.Due →
      invariant gift.giver.beat.effects (.node old [gift.only]) →
      invariant gift.only.value.effects gift.only →
      invariant (gift.only.value.effects ++ gift.giver.grants) gift.only)
    (node : Node) {count : Nat} (h : revealNode beat node = .ok (shown, count))
    (hroot : invariant beat.effects node)
    (hnodes : ∀ sub ∈ Rose.walkForest node.children, invariant sub.value.effects sub)
    (hgift : gift ∈ gifts beat node) :
    ∃ old, invariant gift.giver.beat.effects (.node old [gift.only]) := by
  induction node using Rose.induction_on generalizing beat shown count with
  | node old children ih =>
      rw [revealNode] at h
      obtain ⟨own, hown, h⟩ := bind_eq_ok.1 h
      obtain ⟨heffects, hstakes, hranges⟩ := revealBeat_eq_ok hown
      have hself : ∀ child ∈ children, invariant child.value.effects child := fun child hchild =>
        hnodes child (Rose.mem_walkForest.2 ⟨child, hchild, Rose.self_mem_walk child⟩)
      have hlater : ∀ child ∈ children, ∀ sub ∈ Rose.walkForest child.children,
          invariant sub.value.effects sub := fun child hchild sub hsub =>
        hnodes sub (Rose.mem_walkForest.2 ⟨child, hchild, Rose.mem_walk.2 (.inr hsub)⟩)
      split at h
      · next only _ =>
        obtain ⟨⟨handed, received⟩, hhand, h⟩ := bind_eq_ok.1 h
        obtain ⟨⟨child, changes⟩, hchild, -⟩ := bind_eq_ok.1 h
        have honly := List.mem_cons_self (a := only) (l := [])
        rw [gifts_only hown hhand] at hgift
        rcases handOver_eq_ok hhand with ⟨rfl, rfl⟩ | ⟨hdue, hne, hreceived, -⟩
        · rw [if_pos rfl] at hgift
          exact ih only honly hchild (hself only honly) (hlater only honly) hgift
        · rw [if_neg hne] at hgift
          rw [← heffects] at hroot hranges
          rcases List.mem_cons.1 hgift with rfl | hgift
          · exact ⟨old, hroot⟩
          · have hnext := hgive ⟨own, only⟩ old ⟨hdue, hstakes, hranges⟩ hroot (hself only honly)
            rw [← hreceived] at hnext
            exact ih only honly hchild hnext (hlater only honly) hgift
      · next hmany =>
        obtain ⟨⟨shown, changes⟩, hforest, -⟩ := bind_eq_ok.1 h
        rw [gifts_many hown fun only heq => hmany only heq] at hgift
        obtain ⟨node, hnode, after, count, hafter, hgift⟩ := mem_giftsForest hforest hgift
        exact ih node hnode hafter (hself node hnode) (hlater node hnode) hgift

end Givers

end StoryAtlas.Roll
