import Mathlib.Data.List.Flatten
import Mathlib.Data.List.Perm.Basic
import StoryAtlas.Proofs.Rose.Walk

/-!
# Shuffled trees

A pass that changes values and the order of children, and nothing else, leaves a shuffled tree: the
values are related one by one and every list of children is a rearrangement. Passes that keep the
order are the special case without rearrangement. All that such a pass can do is in the relation of
values, and `exists_of_mem_walk` and `map_walk_perm` carry the consequences over the whole tree.
-/

namespace StoryAtlas.Rose

variable {α β γ : Type}

mutual

/-- The second tree has related values, and rearranged children at every node. -/
def Shuffled (R : α → β → Prop) : Rose α → Rose β → Prop
  | node a cs, u => R a u.value ∧ ShuffledForest R cs u.children

def ShuffledForest (R : α → β → Prop) : List (Rose α) → List (Rose β) → Prop
  | [], us => us = []
  | t :: ts, us => ∃ u rest, us.Perm (u :: rest) ∧ Shuffled R t u ∧ ShuffledForest R ts rest

end

theorem shuffledForest_iff {R : α → β → Prop} {ts : List (Rose α)} {us : List (Rose β)} :
    ShuffledForest R ts us ↔ ∃ vs, us.Perm vs ∧ List.Forall₂ (Shuffled R) ts vs := by
  induction ts generalizing us with
  | nil =>
      simp only [ShuffledForest, List.forall₂_nil_left_iff, exists_eq_right, List.perm_nil]
  | cons t ts ih =>
      simp only [ShuffledForest, ih]
      constructor
      · rintro ⟨u, rest, hperm, htu, vs, hrest, hvs⟩
        exact ⟨u :: vs, hperm.trans (hrest.cons u), .cons htu hvs⟩
      · rintro ⟨_, hperm, htu⟩
        cases htu with
        | cons htu hvs => exact ⟨_, _, hperm, htu, _, .refl _, hvs⟩

theorem shuffled_iff {R : α → β → Prop} {a : α} {cs : List (Rose α)} {u : Rose β} :
    Shuffled R (.node a cs) u ↔
      R a u.value ∧ ∃ ds, u.children.Perm ds ∧ List.Forall₂ (Shuffled R) cs ds := by
  rw [Shuffled, shuffledForest_iff]

theorem Shuffled.value {R : α → β → Prop} {t : Rose α} {u : Rose β} (h : Shuffled R t u) :
    R t.value u.value := by
  cases t with
  | node a cs => exact (shuffled_iff.1 h).1

theorem Shuffled.length_children {R : α → β → Prop} {t : Rose α} {u : Rose β}
    (h : Shuffled R t u) : u.children.length = t.children.length := by
  cases t with
  | node a cs =>
      obtain ⟨-, ds, hperm, hds⟩ := shuffled_iff.1 h
      rw [hperm.length_eq, children_node, hds.length_eq]

theorem Shuffled.children_eq_nil {R : α → β → Prop} {t : Rose α} {u : Rose β}
    (h : Shuffled R t u) : u.children = [] ↔ t.children = [] := by
  rw [← List.length_eq_zero_iff, h.length_children, List.length_eq_zero_iff]

theorem Shuffled.exists_child {R : α → β → Prop} {t : Rose α} {u : Rose β} (h : Shuffled R t u)
    {c : Rose α} (hc : c ∈ t.children) : ∃ d ∈ u.children, Shuffled R c d := by
  obtain ⟨a, cs⟩ := t
  obtain ⟨-, ds, hperm, hds⟩ := shuffled_iff.1 h
  suffices hforall : ∃ d ∈ ds, Shuffled R c d from
    hforall.imp fun d hd => ⟨hperm.mem_iff.2 hd.1, hd.2⟩
  clear h hperm
  rw [children_node] at hc
  induction hds with
  | nil => cases hc
  | cons hce _ ih =>
      rcases List.mem_cons.1 hc with rfl | hc
      · exact ⟨_, List.mem_cons_self, hce⟩
      · exact (ih hc).imp fun d hd => ⟨List.mem_cons_of_mem _ hd.1, hd.2⟩

/-! ### Composition -/

theorem Shuffled.refl {R : α → α → Prop} (hR : ∀ a, R a a) (t : Rose α) : Shuffled R t t := by
  induction t using induction_on with
  | node a cs ih => exact shuffled_iff.2 ⟨hR a, cs, .refl cs, List.forall₂_same.2 ih⟩

theorem Shuffled.trans {R : α → β → Prop} {S : β → γ → Prop} {T : α → γ → Prop}
    (hT : ∀ a b c, R a b → S b c → T a c) {t : Rose α} {u : Rose β} {v : Rose γ}
    (htu : Shuffled R t u) (huv : Shuffled S u v) : Shuffled T t v := by
  induction t using induction_on generalizing u v with
  | node a cs ih =>
      obtain ⟨b, ds⟩ := u
      obtain ⟨hab, es, hdes, hces⟩ := shuffled_iff.1 htu
      obtain ⟨hbv, fs, hvfs, hdfs⟩ := shuffled_iff.1 huv
      -- the rearrangement of the middle children is moved behind the second relation
      obtain ⟨gs, hegs, hgfs⟩ := List.perm_comp_forall₂ hdes.symm hdfs
      refine shuffled_iff.2 ⟨hT _ _ _ hab hbv, gs, hvfs.trans hgfs.symm, ?_⟩
      clear hdes hab hbv htu huv hvfs hdfs hgfs
      induction hces generalizing gs with
      | nil =>
          cases hegs
          exact .nil
      | cons hce _ ihces =>
          cases hegs with
          | cons heg hegs =>
              refine .cons (ih _ (by simp) hce heg) (ihces ?_ _ hegs)
              exact fun c hc => ih c (by simp [hc])

theorem Shuffled.imp {R S : α → β → Prop} (hS : ∀ a b, R a b → S a b) {t : Rose α} {u : Rose β}
    (h : Shuffled R t u) : Shuffled S t u :=
  h.trans (S := Eq) (fun a b _ hab hbc => hbc ▸ hS a b hab) (Shuffled.refl (fun _ => rfl) u)

theorem Shuffled.symm {R : α → β → Prop} {t : Rose α} {u : Rose β} (h : Shuffled R t u) :
    Shuffled (fun b a => R a b) u t := by
  induction t using induction_on generalizing u with
  | node a cs ih =>
      obtain ⟨b, ds⟩ := u
      obtain ⟨hab, es, hperm, hces⟩ := shuffled_iff.1 h
      have hback : List.Forall₂ (Shuffled fun b a => R a b) es cs := by
        clear hperm hab h
        induction hces with
        | nil => exact .nil
        | cons hce _ ihces =>
            exact .cons (ih _ (by simp) hce) (ihces fun c hc => ih c (by simp [hc]))
      obtain ⟨fs, hdfs, hfs⟩ := List.perm_comp_forall₂ hperm hback
      exact shuffled_iff.2 ⟨hab, fs, hfs.symm, hdfs⟩

theorem Shuffled.exists_of_mem_children {R : α → β → Prop} {t : Rose α} {u : Rose β}
    (h : Shuffled R t u) {d : Rose β} (hd : d ∈ u.children) : ∃ c ∈ t.children, Shuffled R c d :=
  (h.symm.exists_child hd).imp fun _ hc => ⟨hc.1, hc.2.symm⟩

/-- The values that a tree has are the only ones that matter. -/
theorem Shuffled.imp_of_mem {R S : α → β → Prop} {t : Rose α} {u : Rose β}
    (hS : ∀ s ∈ t.walk, ∀ b, R s.value b → S s.value b) (h : Shuffled R t u) : Shuffled S t u := by
  induction t using induction_on generalizing u with
  | node a cs ih =>
      obtain ⟨hau, ds, hperm, hcds⟩ := shuffled_iff.1 h
      refine shuffled_iff.2 ⟨hS _ (self_mem_walk _) _ hau, ds, hperm, ?_⟩
      have hcs : ∀ c ∈ cs, ∀ d, Shuffled R c d → Shuffled S c d := fun c hc d hcd =>
        ih c hc (fun s hs => hS s (mem_walk_of_mem hc hs)) hcd
      clear hperm hau h ih hS
      induction hcds with
      | nil => exact .nil
      | cons hcd _ ihcds =>
          exact .cons (hcs _ (by simp) _ hcd) (ihcds fun c hc => hcs c (by simp [hc]))

/-! ### The walk of a shuffled tree -/

theorem Shuffled.walk {R : α → β → Prop} {t : Rose α} {u : Rose β} (h : Shuffled R t u) :
    ∃ ws, u.walk.Perm ws ∧ List.Forall₂ (Shuffled R) t.walk ws := by
  induction t using induction_on generalizing u with
  | node a cs ih =>
      obtain ⟨b, ds⟩ := u
      obtain ⟨hab, es, hperm, hces⟩ := shuffled_iff.1 h
      have hforest : ∃ ws, (walkForest es).Perm ws ∧ List.Forall₂ (Shuffled R) (walkForest cs) ws := by
        clear hperm hab h
        induction hces with
        | nil => exact ⟨[], .refl _, .nil⟩
        | cons hce _ ihces =>
            obtain ⟨first, hfirst, hc⟩ := ih _ (by simp) hce
            obtain ⟨rest, hrest, hcs⟩ := ihces fun c hc => ih c (by simp [hc])
            exact ⟨first ++ rest, hfirst.append hrest, List.rel_append hc hcs⟩
      obtain ⟨ws, hws, hcs⟩ := hforest
      refine ⟨.node b ds :: ws, ?_, .cons h hcs⟩
      refine List.Perm.cons _ (List.Perm.trans ?_ hws)
      rw [walkForest_eq_flatMap, walkForest_eq_flatMap]
      exact hperm.flatMap_right _

theorem forall₂_imp_of_mem {R S : α → β → Prop} {as : List α} {bs : List β}
    (hS : ∀ a ∈ as, ∀ b ∈ bs, R a b → S a b) (h : List.Forall₂ R as bs) : List.Forall₂ S as bs := by
  induction h with
  | nil => exact .nil
  | cons hab _ ih =>
      refine .cons (hS _ (by simp) _ (by simp) hab) (ih fun a ha b hb => ?_)
      exact hS a (by simp [ha]) b (by simp [hb])

theorem exists_of_mem_right {R : α → β → Prop} {as : List α} {bs : List β} {b : β}
    (h : List.Forall₂ R as bs) (hb : b ∈ bs) : ∃ a ∈ as, R a b := by
  obtain ⟨i, hi, rfl⟩ := List.getElem_of_mem hb
  have hlength := h.length_eq
  exact ⟨as[i], List.getElem_mem _, (List.forall₂_iff_get.1 h).2 i (by omega) hi⟩

theorem Shuffled.exists_of_mem_walk {R : α → β → Prop} {t : Rose α} {u v : Rose β}
    (h : Shuffled R t u) (hv : v ∈ u.walk) : ∃ s ∈ t.walk, Shuffled R s v := by
  obtain ⟨ws, hperm, hws⟩ := h.walk
  exact exists_of_mem_right hws (hperm.mem_iff.1 hv)

theorem Shuffled.exists_mem_walk {R : α → β → Prop} {t s : Rose α} {u : Rose β}
    (h : Shuffled R t u) (hs : s ∈ t.walk) : ∃ v ∈ u.walk, Shuffled R s v :=
  (h.symm.exists_of_mem_walk hs).imp fun _ hv => ⟨hv.1, hv.2.symm⟩

/-- What the values are related by keeping is kept by the whole tree, up to order. -/
theorem Shuffled.map_walk_perm {R : α → β → Prop} {δ : Type} {f : α → δ} {g : β → δ}
    (hR : ∀ a b, R a b → f a = g b) {t : Rose α} {u : Rose β} (h : Shuffled R t u) :
    (u.walk.map fun s => g s.value).Perm (t.walk.map fun s => f s.value) := by
  obtain ⟨ws, hperm, hws⟩ := h.walk
  refine (hperm.map _).trans (.of_eq ?_)
  clear hperm
  generalize t.walk = ss at hws
  induction hws with
  | nil => rfl
  | cons hst _ ih => rw [List.map_cons, List.map_cons, ih, hR _ _ hst.value]

theorem Shuffled.map_children_perm {R : α → β → Prop} {δ : Type} {f : α → δ} {g : β → δ}
    (hR : ∀ a b, R a b → f a = g b) {t : Rose α} {u : Rose β} (h : Shuffled R t u) :
    (u.children.map fun s => g s.value).Perm (t.children.map fun s => f s.value) := by
  obtain ⟨a, cs⟩ := t
  obtain ⟨-, ds, hperm, hcds⟩ := shuffled_iff.1 h
  refine (hperm.map _).trans (.of_eq ?_)
  rw [children_node]
  clear hperm h
  induction hcds with
  | nil => rfl
  | cons hcd _ ih => rw [List.map_cons, List.map_cons, ih, hR _ _ hcd.value]

theorem Shuffled.countP_walk {R : α → β → Prop} {p : Rose α → Bool} {q : β → Bool} {t : Rose α}
    {u : Rose β} (hR : ∀ s ∈ t.walk, ∀ v ∈ u.walk, R s.value v.value → q v.value = p s)
    (h : Shuffled R t u) : (u.walk.countP fun v => q v.value) = t.walk.countP p := by
  obtain ⟨ws, hperm, hws⟩ := h.walk
  rw [hperm.countP_eq]
  have hcounts := forall₂_imp_of_mem (S := fun (s : Rose α) (v : Rose β) => q v.value = p s)
    (fun s hs v hv hsv => hR s hs v (hperm.mem_iff.2 hv) hsv.value) hws
  clear hperm hws h hR
  generalize t.walk = ss at hcounts
  induction hcounts with
  | nil => rfl
  | cons hsv _ ih => rw [List.countP_cons, List.countP_cons, ih, hsv]

/-! ### Passes that keep the order -/

theorem shuffled_of_forall₂ {R : α → β → Prop} {a : α} {b : β} {cs : List (Rose α)}
    {ds : List (Rose β)} (hab : R a b) (h : List.Forall₂ (Shuffled R) cs ds) :
    Shuffled R (.node a cs) (.node b ds) :=
  shuffled_iff.2 ⟨hab, ds, .refl ds, h⟩

theorem forall₂_map_of_forall {R : Rose α → Rose β → Prop} {f : Rose α → Rose β}
    {cs : List (Rose α)} (h : ∀ c ∈ cs, R c (f c)) : List.Forall₂ R cs (cs.map f) := by
  rw [List.forall₂_map_right_iff]
  exact List.forall₂_same.2 h

theorem shuffled_annotate {R : α → β → Prop} {f : Rose α → β} {t : Rose α}
    (h : ∀ s ∈ t.walk, R s.value (f s)) : Shuffled R t (annotate f t) := by
  induction t using induction_on with
  | node a cs ih =>
      rw [annotate, annotateForest_eq_map]
      refine shuffled_of_forall₂ (h _ (self_mem_walk _)) (forall₂_map_of_forall fun c hc => ?_)
      exact ih c hc fun s hs => h s (mem_walk_of_mem hc hs)

theorem shuffled_map {R : α → β → Prop} {f : α → β} {t : Rose α}
    (h : ∀ s ∈ t.walk, R s.value (f s.value)) : Shuffled R t (map f t) := by
  induction t using induction_on with
  | node a cs ih =>
      rw [map_node]
      refine shuffled_of_forall₂ (h _ (self_mem_walk _)) (forall₂_map_of_forall fun c hc => ?_)
      exact ih c hc fun s hs => h s (mem_walk_of_mem hc hs)

theorem map_shuffled (f : α → β) (t : Rose α) : Shuffled (fun b a => b = f a) (map f t) t := by
  induction t using induction_on with
  | node a cs ih =>
      rw [map_node]
      refine shuffled_of_forall₂ rfl ?_
      rw [List.forall₂_map_left_iff]
      exact List.forall₂_same.2 ih

theorem Shuffled.map_map {α' β' : Type} {R : α' → β' → Prop} {f : α → α'} {g : β → β'} {t : Rose α}
    {u : Rose β} (h : Shuffled (fun a b => R (f a) (g b)) t u) : Shuffled R (map f t) (map g u) := by
  have hright : Shuffled (fun b b' => b' = g b) u (map g u) := shuffled_map fun _ _ => rfl
  have hmiddle : Shuffled (fun a b' => R (f a) b') t (map g u) :=
    h.trans (fun a b b' hab hb => by rw [hb]; exact hab) hright
  exact (map_shuffled f t).trans (fun a' a b' ha hab => by rw [ha]; exact hab) hmiddle

/-- Trees of which two functions make the same are related, node by node and in order. -/
theorem shuffled_of_map_eq {f : α → γ} {g : β → γ} {t : Rose α} {u : Rose β}
    (h : map f t = map g u) : Shuffled (fun a b => f a = g b) t u := by
  have hleft : Shuffled (fun a c => f a = c) t (map f t) := shuffled_map fun _ _ => rfl
  rw [h] at hleft
  exact hleft.trans (fun a c b hac hcb => hac.trans hcb) (map_shuffled g u)

theorem shuffled_editWhere {R : α → α → Prop} (hR : ∀ a, R a a) {test : α → Bool}
    {cs : List (Rose α)} {t : Rose α}
    (h : ∀ s ∈ t.walk, test s.value = true → cs.Perm s.children) :
    Shuffled R t (editWhere test (fun s => s.withChildren cs) t) := by
  induction t using induction_on with
  | node a ds ih =>
      rw [editWhere, editForest_eq_map]
      split
      · next htest =>
        refine shuffled_iff.2 ⟨hR a, ds, h _ (self_mem_walk _) htest, ?_⟩
        exact List.forall₂_same.2 fun d _ => .refl hR d
      · refine shuffled_of_forall₂ (hR a) (forall₂_map_of_forall fun d hd => ih d hd fun s hs => ?_)
        exact h s (mem_walk_of_mem hd hs)

/-- What a change that may fail leaves of every value, it leaves of the tree. -/
theorem map_attempt {ε : Type} {f : α → Except ε β} {g : α → γ} {k : β → γ}
    (hf : ∀ a b, f a = .ok b → k b = g a) {t : Rose α} {u : Rose β} (h : attempt f t = .ok u) :
    map k u = map g t := by
  induction t using induction_on generalizing u with
  | node a cs ih =>
      have hforest : ∀ {ds}, attemptForest f cs = .ok ds → ds.map (map k) = cs.map (map g) := by
        clear h
        induction cs with
        | nil =>
            intro ds hds
            cases hds
            rfl
        | cons c cs ihcs =>
            intro ds hds
            rw [attemptForest] at hds
            split at hds
            · cases hds
            · next d hd =>
              cases hrest : attemptForest f cs with
              | error fault => simp [hrest, Except.map] at hds
              | ok rest =>
                  simp only [hrest, Except.map, Except.ok.injEq] at hds
                  subst hds
                  rw [List.map_cons, List.map_cons, ih c (by simp) hd,
                    ihcs (fun e he => ih e (by simp [he])) hrest]
      rw [attempt] at h
      split at h
      · cases h
      · next b hb =>
        cases hds : attemptForest f cs with
        | error fault => simp [hds, Except.map] at h
        | ok ds =>
            simp only [hds, Except.map, Except.ok.injEq] at h
            subst h
            rw [map_node, map_node, hf a b hb, hforest hds]

end StoryAtlas.Rose
