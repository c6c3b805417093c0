import StoryAtlas.Proofs.Reference.Follow

/-!
# Shortening chains

Moving a reference to where its chain stops is a short cut: whatever a chain leads to afterwards it
led to before. A chain that ended still ends at the same place, and a circle is still a circle, since
nothing on a circle is moved: who follows a reference from there comes back to where it began. So the
order of the moves does not matter, and once every reference has been moved each names an end or a
place on a circle, where a second round of moves leaves it.

There is one exception. A node may be redirected by the table and have a reference besides, and if
the chain of that reference leads back to the node then the node has no way out of it.
-/

namespace StoryAtlas.Reference

variable {redirects : Register Int Int} {refs later last : Register Int (Option Int)}
  {id target stop start next : Int}

/-! ### Chains -/

theorem leads_unique : Relator.RightUnique (Leads redirects refs) := by
  intro a b c hb hc
  rw [Leads, hb, Option.some.injEq] at hc
  exact hc

def ChainEnds (redirects : Register Int Int) (refs : Register Int (Option Int)) (start stop : Int) :
    Prop :=
  Relation.ReflTransGen (Leads redirects refs) start stop ∧ onward redirects refs stop = none

def Round (redirects : Register Int Int) (refs : Register Int (Option Int)) (id : Int) : Prop :=
  Relation.TransGen (Leads redirects refs) id id

/-- Following the reference of a node gets to no place twice, the node itself included. -/
structure Straight (redirects : Register Int Int) (refs : Register Int (Option Int))
    (id target : Int) : Prop where
  away : ¬Relation.ReflTransGen (Leads redirects refs) target id
  rounds : ∀ place, Relation.ReflTransGen (Leads redirects refs) target place →
    ¬Round redirects refs place

theorem eq_of_reaches_of_ends (h : Relation.ReflTransGen (Leads redirects refs) stop next)
    (hstop : onward redirects refs stop = none) : next = stop := by
  rcases Relation.ReflTransGen.cases_head h with hsame | ⟨other, hother, -⟩
  · exact hsame.symm
  · rw [Leads, hstop] at hother
    cases hother

theorem ChainEnds.of_reaches (h : ChainEnds redirects refs start stop)
    (hreaches : Relation.ReflTransGen (Leads redirects refs) start next) :
    ChainEnds redirects refs next stop := by
  refine ⟨?_, h.2⟩
  rcases Relation.ReflTransGen.total_of_right_unique leads_unique hreaches h.1 with hmore | hback
  · exact hmore
  · rw [eq_of_reaches_of_ends hback h.2]

/-- What a circle leads to leads back. -/
theorem Round.reaches (h : Round redirects refs start)
    (hreaches : Relation.ReflTransGen (Leads redirects refs) start next) :
    Relation.ReflTransGen (Leads redirects refs) next start := by
  induction hreaches with
  | refl => exact .refl
  | tail _ hstep ih =>
      rcases Relation.ReflTransGen.cases_head ih with rfl | ⟨other, hother, hback⟩
      · obtain ⟨other, hother, hback⟩ := Relation.TransGen.head'_iff.1 h
        rwa [leads_unique hstep hother]
      · rwa [leads_unique hstep hother]

theorem Round.of_reaches (h : Round redirects refs start)
    (hreaches : Relation.ReflTransGen (Leads redirects refs) start next) :
    Round redirects refs next :=
  (Relation.TransGen.trans_right (h.reaches hreaches) h).trans_left hreaches

theorem transGen_of_reachable {α : Type} {R S : α → α → Prop} {x y : α}
    (h : ∀ a b, Relation.ReflTransGen R x a → R a b → S a b) (hpath : Relation.TransGen R x y) :
    Relation.TransGen S x y := by
  induction hpath with
  | single hstep => exact .single (h _ _ .refl hstep)
  | tail hpath hstep ih => exact .tail ih (h _ _ hpath.to_reflTransGen hstep)

/-! ### Where following stops -/

/-- The chain comes to a place for the first time after so many steps. -/
def Meets (redirects : Register Int Int) (refs : Register Int (Option Int)) (goal : Int) :
    Nat → Int → Prop
  | 0, start => start = goal
  | steps + 1, start =>
    start ≠ goal ∧ ∃ next, Leads redirects refs start next ∧ Meets redirects refs goal steps next

theorem Meets.unique {goal : Int} {steps more : Nat} (h : Meets redirects refs goal steps start)
    (hmore : Meets redirects refs goal more start) : steps = more := by
  induction steps generalizing start more with
  | zero =>
      cases more with
      | zero => rfl
      | succ more => exact absurd h hmore.1
  | succ steps ih =>
      cases more with
      | zero => exact absurd hmore h.1
      | succ more =>
          obtain ⟨-, next, hnext, hrest⟩ := h
          obtain ⟨-, other, hother, hmore⟩ := hmore
          rw [leads_unique hother hnext] at hmore
          rw [ih hrest hmore]

theorem exists_meets {goal : Int} (h : Relation.ReflTransGen (Leads redirects refs) start goal) :
    ∃ steps, Meets redirects refs goal steps start := by
  induction h using Relation.ReflTransGen.head_induction_on with
  | refl => exact ⟨0, rfl⟩
  | @head start next hstep _ ih =>
      obtain ⟨steps, hsteps⟩ := ih
      by_cases hsame : start = goal
      · exact ⟨0, hsame⟩
      · exact ⟨steps + 1, hsame, next, hstep, hsteps⟩

/-- Following stops at a place that it has seen, if all else that it has seen lies behind or aside. -/
theorem follow_eq_of_meets {goal : Int} {steps count : Nat} {seen : List Int} (hnodup : seen.Nodup)
    (hseen : seen ⊆ known redirects refs)
    (hsteps : (known redirects refs).length < steps + seen.length) (hgoal : goal ∈ seen)
    (hmeets : Meets redirects refs goal count target)
    (hbehind : ∀ place ∈ seen, place ≠ goal →
      ¬Relation.ReflTransGen (Leads redirects refs) target place ∨
        ∃ more, count < more ∧ Meets redirects refs goal more place) :
    follow redirects refs steps seen target = goal := by
  induction steps generalizing seen target count with
  | zero =>
      have hlength := (hnodup.subperm hseen).length_le
      omega
  | succ steps ih =>
      rw [follow]
      split
      · next hrepeats =>
        rw [List.contains_iff_mem] at hrepeats
        by_contra hne
        rcases hbehind target hrepeats hne with haside | ⟨more, hmore, hfar⟩
        · exact haside .refl
        · have := hmeets.unique hfar
          omega
      · next hfresh =>
        rw [List.contains_iff_mem] at hfresh
        cases count with
        | zero => exact absurd (hmeets ▸ hgoal) hfresh
        | succ count =>
            obtain ⟨hne, next, hnext, hrest⟩ := hmeets
            have honward : onward redirects refs target = some next := hnext
            rw [honward]
            refine ih (List.nodup_cons.2 ⟨hfresh, hnodup⟩)
              (List.cons_subset.2 ⟨mem_known hnext, hseen⟩) (by rw [List.length_cons]; omega)
              (List.mem_cons_of_mem _ hgoal) hrest ?_
            intro place hplace hother
            rcases List.mem_cons.1 hplace with rfl | hplace
            · exact .inr ⟨count + 1, Nat.lt_succ_self count, hne, next, hnext, hrest⟩
            · rcases hbehind place hplace hother with haside | ⟨more, hmore, hfar⟩
              · exact .inl fun hreaches => haside (.head hnext hreaches)
              · exact .inr ⟨more, by omega, hfar⟩

theorem length_known_lt (redirects : Register Int Int) (refs : Register Int (Option Int)) (id : Int) :
    (known redirects refs).length < chaseLimit redirects refs + [id].length := by
  rw [known, List.length_append, List.length_map, List.length_map, chaseLimit,
    List.length_singleton]
  omega

theorem chainEnd_eq_self (hid : id ∈ known redirects refs)
    (h : Relation.ReflTransGen (Leads redirects refs) target id) :
    chainEnd redirects refs id target = id := by
  obtain ⟨count, hmeets⟩ := exists_meets h
  refine follow_eq_of_meets (List.nodup_singleton id) (List.cons_subset.2 ⟨hid, List.nil_subset _⟩)
    (length_known_lt redirects refs id) (List.mem_singleton_self id) hmeets ?_
  exact fun place hplace hne => absurd (List.mem_singleton.1 hplace) hne

theorem chainEnd_of_none (h : onward redirects refs target = none) :
    chainEnd redirects refs id target = target := by
  rw [chainEnd, chaseLimit, follow, h]
  exact ite_self _

/-- On a circle that avoids the node the first place is the first to be seen again. -/
theorem chainEnd_of_round (hid : id ∈ known redirects refs) (h : Round redirects refs target)
    (haway : ¬Relation.ReflTransGen (Leads redirects refs) target id) :
    chainEnd redirects refs id target = target := by
  obtain ⟨next, hnext, hback⟩ := Relation.TransGen.head'_iff.1 h
  obtain ⟨count, hmeets⟩ := exists_meets hback
  have hne : target ≠ id := fun hsame => haway (hsame ▸ .refl)
  have hnodup : [target, id].Nodup := by simpa using hne
  have honward : onward redirects refs target = some next := hnext
  have hlength := length_known_lt redirects refs id
  rw [chainEnd, chaseLimit, follow, if_neg (by simpa using hne), honward]
  refine follow_eq_of_meets hnodup
    (List.cons_subset.2 ⟨mem_known hnext, List.cons_subset.2 ⟨hid, List.nil_subset _⟩⟩) ?_
    List.mem_cons_self hmeets fun place hplace hother => .inl fun hreaches => haway ?_
  · rw [chaseLimit, List.length_singleton] at hlength
    rw [List.length_cons, List.length_singleton]
    omega
  · obtain rfl := List.mem_singleton.1 ((List.mem_cons.1 hplace).resolve_left hother)
    exact .head hnext hreaches

/-- Following with no limit on the steps. -/
inductive Follows (redirects : Register Int Int) (refs : Register Int (Option Int)) :
    List Int → Int → Int → Prop
  | repeats {seen : List Int} {target : Int} (h : target ∈ seen) :
    Follows redirects refs seen target target
  | ends {seen : List Int} {target : Int} (h : target ∉ seen)
    (hend : onward redirects refs target = none) : Follows redirects refs seen target target
  | leads {seen : List Int} {target next last : Int} (h : target ∉ seen)
    (hnext : Leads redirects refs target next)
    (hrest : Follows redirects refs (target :: seen) next last) :
    Follows redirects refs seen target last

theorem follows_follow {steps : Nat} {seen : List Int} (hnodup : seen.Nodup)
    (hseen : seen ⊆ known redirects refs)
    (hsteps : (known redirects refs).length < steps + seen.length) :
    Follows redirects refs seen target (follow redirects refs steps seen target) := by
  induction steps generalizing seen target with
  | zero =>
      have hlength := (hnodup.subperm hseen).length_le
      omega
  | succ steps ih =>
      rw [follow]
      split
      · next hrepeats => exact .repeats (List.contains_iff_mem.1 hrepeats)
      · next hfresh =>
        rw [List.contains_iff_mem] at hfresh
        split
        · next next hnext =>
          refine .leads hfresh hnext (ih (List.nodup_cons.2 ⟨hfresh, hnodup⟩) ?_ ?_)
          · exact List.cons_subset.2 ⟨mem_known hnext, hseen⟩
          · rw [List.length_cons]
            omega
        · next hend => exact .ends hfresh hend

/-- The limit on steps only says in advance that following stops. -/
theorem follows_chainEnd (href : Refers refs id target) :
    Follows redirects refs [id] target (chainEnd redirects refs id target) :=
  follows_follow (List.nodup_singleton id)
    (List.cons_subset.2 ⟨mem_known_of_refers href, List.nil_subset _⟩)
    (length_known_lt redirects refs id)

/-! ### One move -/

/-- What moving references does to the chains. -/
structure Shortens (redirects : Register Int Int) (refs later : Register Int (Option Int)) :
    Prop where
  keys : later.map Prod.fst = refs.map Prod.fst
  steps : ∀ a b, Leads redirects later a b → Relation.TransGen (Leads redirects refs) a b
  ends : ∀ a b, ChainEnds redirects refs a b → ChainEnds redirects later a b
  rounds : ∀ a, Round redirects refs a → Round redirects later a
  moved : ∀ id stop, Refers later id stop → ∃ target, Refers refs id target ∧
    Relation.ReflTransGen (Leads redirects refs) target stop
  kept : ∀ id target, Refers refs id target → ∃ stop, Refers later id stop
  circling : ∀ id, Register.get? id redirects = none → Round redirects refs id →
    Register.get? id later = Register.get? id refs
  selves : ∀ id, Refers later id id → Refers refs id id

namespace Shortens

theorem refl (redirects : Register Int Int) (refs : Register Int (Option Int)) :
    Shortens redirects refs refs where
  keys := rfl
  steps _ _ h := .single h
  ends _ _ h := h
  rounds _ h := h
  moved _ stop h := ⟨stop, h, .refl⟩
  kept _ target h := ⟨target, h⟩
  circling _ _ _ := rfl
  selves _ h := h

theorem reaches (h : Shortens redirects refs later) {a b : Int}
    (hpath : Relation.ReflTransGen (Leads redirects later) a b) :
    Relation.ReflTransGen (Leads redirects refs) a b := by
  induction hpath with
  | refl => exact .refl
  | tail _ hstep ih => exact ih.trans (h.steps _ _ hstep).to_reflTransGen

theorem round_of (h : Shortens redirects refs later) {a : Int} (hround : Round redirects later a) :
    Round redirects refs a := by
  obtain ⟨b, hstep, hback⟩ := Relation.TransGen.head'_iff.1 hround
  exact (h.steps a b hstep).trans_left (h.reaches hback)

theorem trans (first : Shortens redirects refs later) (second : Shortens redirects later last) :
    Shortens redirects refs last where
  keys := second.keys.trans first.keys
  steps a b hstep := by
    obtain ⟨c, hfirst, hrest⟩ := Relation.TransGen.head'_iff.1 (second.steps a b hstep)
    exact (first.steps a c hfirst).trans_left (first.reaches hrest)
  ends a b hend := second.ends a b (first.ends a b hend)
  rounds a hround := second.rounds a (first.rounds a hround)
  moved id stop hstop := by
    obtain ⟨middle, hmiddle, hmore⟩ := second.moved id stop hstop
    obtain ⟨target, htarget, hreaches⟩ := first.moved id middle hmiddle
    exact ⟨target, htarget, hreaches.trans (first.reaches hmore)⟩
  kept id target htarget := by
    obtain ⟨middle, hmiddle⟩ := first.kept id target htarget
    exact second.kept id middle hmiddle
  circling id hkey hround := by
    rw [second.circling id hkey (first.rounds id hround), first.circling id hkey hround]
  selves id hself := first.selves id (second.selves id hself)

end Shortens

section Put

variable (href : Refers refs id target)
  (hreaches : Relation.ReflTransGen (Leads redirects refs) target stop)

theorem onward_put_of_ne {other : Int} (hne : other ≠ id) :
    onward redirects (Register.put id (some stop) refs) other = onward redirects refs other := by
  rw [onward, onward, Register.get?_put, if_neg hne]

theorem onward_put_of_key (hkey : Register.get? id redirects ≠ none) (other : Int) :
    onward redirects (Register.put id (some stop) refs) other = onward redirects refs other := by
  by_cases hne : other = id
  · obtain ⟨value, hvalue⟩ := Option.ne_none_iff_exists'.1 hkey
    rw [hne, onward_of_redirected hvalue, onward_of_redirected hvalue]
  · exact onward_put_of_ne hne

theorem onward_put_self (hkey : Register.get? id redirects = none) :
    onward redirects (Register.put id (some stop) refs) id = some stop := by
  rw [onward_of_not_redirected hkey, Register.get?_put, if_pos rfl]
  rfl

theorem leads_of_refers (hkey : Register.get? id redirects = none) (href : Refers refs id target) :
    Leads redirects refs id target :=
  (onward_of_not_redirected hkey).trans href

include href hreaches in
theorem steps_put {a b : Int} (hstep : Leads redirects (Register.put id (some stop) refs) a b) :
    Relation.TransGen (Leads redirects refs) a b := by
  by_cases hkey : Register.get? id redirects = none
  · by_cases hsame : a = id
    · rw [hsame, Leads, onward_put_self hkey, Option.some.injEq] at hstep
      rw [hsame, ← hstep]
      exact .head' (leads_of_refers hkey href) hreaches
    · rw [Leads, onward_put_of_ne hsame] at hstep
      exact .single hstep
  · rw [Leads, onward_put_of_key hkey] at hstep
    exact .single hstep

include href hreaches in
/-- The rest of the chain is shortened before what leads to it. -/
theorem chainEnds_put {a b : Int} (h : ChainEnds redirects refs a b) :
    ChainEnds redirects (Register.put id (some stop) refs) a b := by
  by_cases hkey : Register.get? id redirects = none
  · have hb : onward redirects (Register.put id (some stop) refs) b = none := by
      rw [onward_put_of_ne, h.2]
      rintro rfl
      have hid := leads_of_refers hkey href
      rw [Leads, h.2] at hid
      cases hid
    refine ⟨?_, hb⟩
    -- for the step from the node itself the short cut has to be known to lead to the end as well
    suffices hall : ∀ c, Relation.ReflTransGen (Leads redirects refs) a c →
        Relation.ReflTransGen (Leads redirects (Register.put id (some stop) refs)) c b from
      hall a .refl
    obtain ⟨hpath, hend⟩ := h
    induction hpath using Relation.ReflTransGen.head_induction_on with
    | refl =>
        intro c hc
        rw [eq_of_reaches_of_ends hc hend]
    | @head a next hstep _ ih =>
        intro c hc
        rcases Relation.ReflTransGen.cases_head hc with rfl | ⟨other, hother, hc⟩
        · by_cases hsame : a = id
          · subst hsame
            rw [leads_unique hstep (leads_of_refers hkey href)] at ih
            exact .head (onward_put_self hkey) (ih stop hreaches)
          · refine .head ?_ (ih next .refl)
            rw [Leads, onward_put_of_ne hsame]
            exact hstep
        · rw [leads_unique hother hstep] at hc
          exact ih c hc
  · have hleads : Leads redirects (Register.put id (some stop) refs) = Leads redirects refs := by
      funext c d
      rw [Leads, onward_put_of_key hkey, Leads]
    rw [ChainEnds, hleads, onward_put_of_key hkey]
    exact h

theorem round_put {a : Int} (haway : Register.get? id redirects = none → ¬Round redirects refs id)
    (h : Round redirects refs a) : Round redirects (Register.put id (some stop) refs) a := by
  refine transGen_of_reachable (fun b c hb hstep => ?_) h
  by_cases hkey : Register.get? id redirects = none
  · rw [Leads, onward_put_of_ne]
    · exact hstep
    · rintro rfl
      exact haway hkey (h.of_reaches hb)
  · rw [Leads, onward_put_of_key hkey]
    exact hstep

include href hreaches in
theorem shortens_put (haway : Register.get? id redirects = none → ¬Round redirects refs id)
    (hne : stop ≠ id) : Shortens redirects refs (Register.put id (some stop) refs) where
  keys := by
    have hkeys := Register.keys_put id (some stop) refs
    rw [Refers, Option.join_eq_some_iff] at href
    have hmem : id ∈ Register.keys refs := List.mem_map_of_mem (Register.mem_of_get? href)
    rw [if_pos hmem] at hkeys
    exact hkeys
  steps a b hstep := steps_put href hreaches hstep
  ends a b h := chainEnds_put href hreaches h
  rounds a h := round_put haway h
  moved other place hplace := by
    rw [Refers, Register.get?_put] at hplace
    split at hplace
    · next hsame =>
      rw [Option.join_some, Option.some.injEq] at hplace
      exact ⟨target, hsame ▸ href, hplace ▸ hreaches⟩
    · exact ⟨place, hplace, .refl⟩
  kept other place hplace := by
    by_cases hsame : other = id
    · refine ⟨stop, ?_⟩
      rw [Refers, Register.get?_put, if_pos hsame]
      rfl
    · refine ⟨place, ?_⟩
      rw [Refers, Register.get?_put, if_neg hsame]
      exact hplace
  circling other hkey hround := by
    rw [Register.get?_put, if_neg]
    rintro rfl
    exact haway hkey hround
  selves other hself := by
    rw [Refers, Register.get?_put] at hself
    split at hself
    · next hsame =>
      rw [Option.join_some, Option.some.injEq] at hself
      exact absurd (hself.trans hsame) hne
    · exact hself

end Put

/-! ### A round of moves -/

/-- No reference of a redirected node leads back to the node. -/
def Escapes (redirects : Register Int Int) (refs : Register Int (Option Int)) : Prop :=
  ∀ id target, Refers refs id target → Register.holds id redirects →
    ¬Relation.ReflTransGen (Leads redirects refs) target id

theorem Escapes.of_shortens (h : Escapes redirects refs) (hshort : Shortens redirects refs later) :
    Escapes redirects later := by
  intro id stop hstop hkey hback
  obtain ⟨target, htarget, hreaches⟩ := hshort.moved id stop hstop
  exact h id target htarget hkey (hreaches.trans (hshort.reaches hback))

/-- What a node refers to is an end or lies on a circle. -/
def Rests (redirects : Register Int Int) (refs : Register Int (Option Int)) (id : Int) : Prop :=
  ∀ target, Refers refs id target →
    onward redirects refs target = none ∨ Round redirects refs target

theorem onward_eq_none_of_shortens (hshort : Shortens redirects refs later)
    (h : onward redirects refs stop = none) : onward redirects later stop = none :=
  (hshort.ends stop stop ⟨.refl, h⟩).2

theorem round_of_back (h : Escapes redirects refs) (href : Refers refs id target)
    (hback : Relation.ReflTransGen (Leads redirects refs) target id) :
    Round redirects refs target := by
  cases hkey : Register.get? id redirects with
  | none => exact .tail' hback (leads_of_refers hkey href)
  | some value =>
      exact absurd hback (h id target href (Option.isSome_iff_exists.2 ⟨value, hkey⟩))

theorem shortens_chaseOne (h : Escapes redirects refs) (moves : Nat) (id : Int) :
    Shortens redirects refs (chaseOne redirects ⟨refs, moves⟩ id).refs ∧
      ∀ other, other = id ∨ Rests redirects refs other →
        Rests redirects (chaseOne redirects ⟨refs, moves⟩ id).refs other := by
  rcases chaseOne_cases redirects ⟨refs, moves⟩ id with ⟨hsame, hstays⟩ | ⟨target, href, -, hne, hput⟩
  · rw [hsame]
    refine ⟨.refl redirects refs, fun other hother => hother.elim ?_ fun hrests => hrests⟩
    rintro rfl target href
    obtain ⟨hreaches, hstops⟩ := stops_chainEnd target (mem_known_of_refers href)
    rcases hstays target href with hstay | hback
    · rw [hstay] at hstops
      rcases hstops with hend | hself | hround
      · exact .inl hend
      · exact .inr (round_of_back h href (List.mem_singleton.1 hself ▸ .refl))
      · exact .inr hround
    · exact .inr (round_of_back h href (hback ▸ hreaches))
  · dsimp only at href hne hput
    obtain ⟨hreaches, hstops⟩ := stops_chainEnd target (mem_known_of_refers href)
    have haway : Register.get? id redirects = none → ¬Round redirects refs id := by
      intro hkey hround
      -- the chain of a node on a circle would have been followed back to it
      refine hne (chainEnd_eq_self (mem_known_of_refers href) ?_)
      exact hround.reaches (.single (leads_of_refers hkey href))
    have hshort := shortens_put href hreaches haway hne
    rw [hput]
    refine ⟨hshort, fun other hother place hplace => ?_⟩
    have hrests : onward redirects refs place = none ∨ Round redirects refs place := by
      rw [Refers, Register.get?_put] at hplace
      split at hplace
      · rw [Option.join_some, Option.some.injEq] at hplace
        subst hplace
        rcases hstops with hend | hback | hround
        · exact .inl hend
        · exact absurd (List.mem_singleton.1 hback) hne
        · exact .inr hround
      · next hother' => exact hother.resolve_left hother' place hplace
    exact hrests.imp (onward_eq_none_of_shortens hshort) (hshort.rounds place)

theorem shortens_foldl_chaseOne (h : Escapes redirects refs) (moves : Nat) (order : List Int) :
    Shortens redirects refs (order.foldl (chaseOne redirects) ⟨refs, moves⟩).refs ∧
      ∀ id, id ∈ order ∨ Rests redirects refs id →
        Rests redirects (order.foldl (chaseOne redirects) ⟨refs, moves⟩).refs id := by
  induction order generalizing refs moves with
  | nil => exact ⟨.refl redirects refs, fun id hid => hid.resolve_left List.not_mem_nil⟩
  | cons first order ih =>
      obtain ⟨hfirst, hfirstRests⟩ := shortens_chaseOne h moves first
      obtain ⟨hrest, hrests⟩ :=
        ih (h.of_shortens hfirst) (chaseOne redirects ⟨refs, moves⟩ first).moved
      refine ⟨hfirst.trans hrest, fun id hid => hrests id ?_⟩
      rcases hid with hmem | hid
      · exact (List.mem_cons.1 hmem).elim (fun hsame => .inr (hfirstRests id (.inl hsame))) .inl
      · exact .inr (hfirstRests id (.inr hid))

theorem foldl_chaseOne_eq_self (hrests : ∀ id, Rests redirects refs id) (moves : Nat)
    (order : List Int) : order.foldl (chaseOne redirects) ⟨refs, moves⟩ = ⟨refs, moves⟩ := by
  induction order with
  | nil => rfl
  | cons id order ih =>
      have hstays : chaseOne redirects ⟨refs, moves⟩ id = ⟨refs, moves⟩ := by
        rcases chaseOne_cases redirects ⟨refs, moves⟩ id with
          ⟨hsame, -⟩ | ⟨target, href, hmoves, hne, -⟩
        · exact hsame
        · have hid : id ∈ known redirects refs := mem_known_of_refers href
          rcases hrests id target href with hend | hround
          · exact absurd (chainEnd_of_none hend) hmoves
          · by_cases hback : Relation.ReflTransGen (Leads redirects refs) target id
            · exact absurd (chainEnd_eq_self hid hback) hne
            · exact absurd (chainEnd_of_round hid hround hback) hmoves
      rw [List.foldl_cons, hstays, ih]

end StoryAtlas.Reference
