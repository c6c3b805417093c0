import StoryAtlas.Proofs.Share.Faithful

/-!
# Sharing a second time

One sweep can make subtrees equal that were not when their turn came, so it can leave something to
the next. The sweeps end when one of them removes nothing, and then a second run finds nothing either;
but they also end when there have been as many as the options allow, and then a second run goes on
where the first one stopped. The two together are one run that is allowed twice as many sweeps.
-/

namespace StoryAtlas

theorem Register.length_put_le {κ α : Type} [DecidableEq κ] (key : κ) (value : α)
    (register : Register κ α) : (Register.put key value register).length ≤ register.length + 1 := by
  have hkeys := congrArg List.length (Register.keys_put key value register)
  rw [Register.keys, List.length_map] at hkeys
  rw [hkeys]
  split
  · rw [Register.keys, List.length_map]
    exact Nat.le_succ _
  · rw [List.length_append, Register.keys, List.length_map, List.length_singleton]

namespace Share

variable {options : Options} {root after : Node}

/-! ### A sweep that removes nothing -/

theorem size_lt_of_step (distinct : root.ids.Nodup) (h : Step root after) :
    after.size < root.size := by
  cases h with
  | share hshares =>
      obtain ⟨child, hchild⟩ := List.exists_mem_of_ne_nil _ hshares.parent
      have hsize := size_shareAt distinct hshares
      have hlarger := Rose.size_lt_of_mem_children hchild
      have hpos := Rose.size_pos child
      omega

theorem eq_or_size_lt_of_steps (distinct : root.ids.Nodup) (h : Steps root after) :
    after = root ∨ after.size < root.size := by
  induction h with
  | refl => exact .inl rfl
  | tail hsteps hstep ih =>
      have hlast := size_lt_of_step (ids_steps_subset distinct hsteps).1 hstep
      rcases ih with rfl | hbefore
      · exact .inr hlast
      · exact .inr (hlast.trans hbefore)

/-- Each node that is dropped loses at least one node below it. -/
theorem duplicates_visit_le {state : State} {byId : Register Int Placed} (node : Placed)
    (h : state.duplicates ≤ state.removed) :
    (visit options byId state node).duplicates ≤ (visit options byId state node).removed := by
  unfold visit
  split
  · next heligible =>
    dsimp only
    split
    · exact h
    · next keeper hkeeper =>
      split
      · split
        · simp only [eligible, Bool.and_eq_true, Bool.not_eq_true', List.isEmpty_eq_false_iff]
            at heligible
          obtain ⟨child, hchild⟩ := List.exists_mem_of_ne_nil _ heligible.1.1.1.2
          have hlarger := Rose.size_lt_of_mem_children hchild
          have hpos := Rose.size_pos child
          have hput := Register.length_put_le node.place keeper state.collapsed
          have hbefore : state.collapsed.length ≤ state.removed := h
          show (Register.put node.place keeper state.collapsed).length ≤
            state.removed + (node.size - 1)
          omega
        · exact h
      · exact h
  · exact h

theorem duplicates_once_le (options : Options) (root : Node) :
    (once options root).duplicates ≤ (once options root).removed := by
  refine List.foldlRecOn root.placed.breadth _ (motive := fun state : State =>
    state.duplicates ≤ state.removed) ?_ fun state h node _ => duplicates_visit_le node h
  exact Nat.le_refl 0

/-- One more sweep would remove nothing. -/
def Settled (options : Options) (root : Node) : Prop := (once options root).removed = 0

theorem Settled.once_eq (distinct : root.ids.Nodup) (h : Settled options root) :
    once options root = { root := root, duplicates := 0, removed := 0 } := by
  obtain ⟨hsteps, hsize⟩ := steps_once options distinct
  have hroot : (once options root).root = root := by
    rcases eq_or_size_lt_of_steps distinct hsteps with hsame | hless
    · exact hsame
    · rw [show (once options root).removed = 0 from h] at hsize
      omega
  have hduplicates : (once options root).duplicates = 0 :=
    Nat.le_zero.1 ((duplicates_once_le options root).trans h.le)
  calc once options root
      = { root := (once options root).root
          duplicates := (once options root).duplicates
          removed := (once options root).removed } := rfl
    _ = { root := root, duplicates := 0, removed := 0 } := by rw [hroot, hduplicates, h]

/-! ### The sweeps of a run -/

/-- What comes of as many sweeps, whatever is told of them. -/
def passes (options : Options) (left : ℕ) (root : Node) : Outcome :=
  (sweeps options "" left 1 root).1

@[simp] theorem passes_zero (options : Options) (root : Node) :
    passes options 0 root = { root := root, duplicates := 0, removed := 0 } := rfl

theorem sweeps_fst (options : Options) (unit : String) (left iteration : ℕ) (root : Node) :
    (sweeps options unit left iteration root).1 = passes options left root := by
  rw [passes]
  generalize 1 = number
  induction left generalizing iteration number root with
  | zero => rfl
  | succ left ih =>
      rw [sweeps, sweeps]
      dsimp only
      split
      · rfl
      · rw [ih (iteration + 1) _ (number + 1)]

theorem passes_succ_of_settled (distinct : root.ids.Nodup) (h : Settled options root) (left : ℕ) :
    passes options (left + 1) root =
      { root := root, duplicates := 0, removed := 0, perIteration := [0] } := by
  rw [passes, sweeps, h.once_eq distinct]
  rfl

theorem passes_succ_of_not_settled (h : ¬Settled options root) (left : ℕ) :
    passes options (left + 1) root =
      { root := (passes options left (once options root).root).root
        duplicates := (once options root).duplicates +
          (passes options left (once options root).root).duplicates
        removed := (once options root).removed +
          (passes options left (once options root).root).removed
        perIteration := (once options root).removed ::
          (passes options left (once options root).root).perIteration } := by
  rw [passes, sweeps]
  dsimp only
  rw [if_neg (show (once options root).removed ≠ 0 from h), sweeps_fst]

theorem steps_passes (options : Options) (left : ℕ) (distinct : root.ids.Nodup) :
    Steps root (passes options left root).root ∧
      (passes options left root).root.size + (passes options left root).removed = root.size :=
  steps_sweeps options "" left 1 distinct

/-- The sweeps end with one that removes nothing, or there were as many as allowed and each of them
removed something. -/
theorem passes_end (options : Options) (left : ℕ) (distinct : root.ids.Nodup) :
    (0 ∈ (passes options left root).perIteration ∧ Settled options (passes options left root).root) ∨
      (0 ∉ (passes options left root).perIteration ∧
        (passes options left root).perIteration.length = left ∧
        left ≤ (passes options left root).removed) := by
  induction left generalizing root with
  | zero => exact .inr ⟨List.not_mem_nil, rfl, Nat.le_refl 0⟩
  | succ left ih =>
      by_cases hsettled : Settled options root
      · rw [passes_succ_of_settled distinct hsettled]
        exact .inl ⟨List.mem_singleton_self 0, hsettled⟩
      · have hfirst : 0 < (once options root).removed := Nat.pos_of_ne_zero hsettled
        have hdistinct := (ids_steps_subset distinct (steps_once options distinct).1).1
        rw [passes_succ_of_not_settled hsettled]
        dsimp only
        rcases ih hdistinct with ⟨hzero, hrest⟩ | ⟨hzero, hlength, hremoved⟩
        · exact .inl ⟨List.mem_cons_of_mem _ hzero, hrest⟩
        · refine .inr ⟨?_, ?_, ?_⟩
          · rw [List.mem_cons, not_or]
            exact ⟨hfirst.ne, hzero⟩
          · rw [List.length_cons, hlength]
          · omega

/-- Sweeps on top of others are as many sweeps in one go. -/
theorem root_passes_add (options : Options) (left more : ℕ) (distinct : root.ids.Nodup) :
    (passes options (left + more) root).root =
      (passes options more (passes options left root).root).root := by
  induction left generalizing root with
  | zero => rw [Nat.zero_add, passes_zero]
  | succ left ih =>
      rw [Nat.add_right_comm]
      by_cases hsettled : Settled options root
      · rw [passes_succ_of_settled distinct hsettled, passes_succ_of_settled distinct hsettled]
        cases more with
        | zero => rfl
        | succ more => rw [passes_succ_of_settled distinct hsettled]
      · have hdistinct := (ids_steps_subset distinct (steps_once options distinct).1).1
        rw [passes_succ_of_not_settled hsettled, passes_succ_of_not_settled hsettled]
        exact ih hdistinct

theorem removed_passes_succ (options : Options) (left : ℕ) (distinct : root.ids.Nodup) :
    (passes options (left + 1) root).removed = 0 ↔ Settled options root := by
  by_cases hsettled : Settled options root
  · rw [passes_succ_of_settled distinct hsettled]
    exact ⟨fun _ => hsettled, fun _ => rfl⟩
  · rw [passes_succ_of_not_settled hsettled]
    refine ⟨fun hremoved => ?_, fun h => absurd h hsettled⟩
    exact (Nat.add_eq_zero_iff.1 hremoved).1

def Options.sweepCount (options : Options) : ℕ := (max 1 options.iterations).toNat

theorem Options.exists_sweepCount (options : Options) : ∃ count, options.sweepCount = count + 1 :=
  Nat.exists_eq_succ_of_ne_zero (by unfold Options.sweepCount; omega)

def Options.twice (options : Options) : Options :=
  { options with iterations := 2 * max 1 options.iterations }

theorem Options.sweepCount_twice (options : Options) :
    options.twice.sweepCount = options.sweepCount + options.sweepCount := by
  unfold Options.sweepCount Options.twice
  dsimp only
  omega

theorem passes_twice (options : Options) (left : ℕ) (root : Node) :
    passes options.twice left root = passes options left root := by
  have honce (root : Node) : once options.twice root = once options root := rfl
  rw [passes, passes]
  generalize 1 = number
  induction left generalizing number root with
  | zero => rfl
  | succ left ih =>
      rw [sweeps, sweeps]
      dsimp only
      rw [honce]
      split
      · rfl
      · rw [ih]

theorem run_fst (options : Options) (unit : String) (root : Node) :
    (run options unit root).1 = passes options options.sweepCount root :=
  sweeps_fst options unit _ 1 root

/-- How a second run with the same options stands to the first. -/
structure Resumed (options : Options) (first again : Outcome) : Prop where
  /-- After a sweep that removed nothing there is nothing left to do. -/
  settled : 0 ∈ first.perIteration →
    again = { root := first.root, duplicates := 0, removed := 0, perIteration := [0] }
  /-- Without such a sweep there were as many as allowed. -/
  bounded : 0 ∉ first.perIteration → first.perIteration.length = options.sweepCount ∧
    options.sweepCount ≤ first.removed
  /-- The second run removes nothing exactly if the next sweep would not have either. -/
  removed_iff : again.removed = 0 ↔ Settled options first.root
  root_iff : again.root = first.root ↔ again.removed = 0

/-- A second run with the same options goes on where the first one stopped. -/
theorem resumed_run (options : Options) (unit other : String) (distinct : root.ids.Nodup) :
    Resumed options (run options unit root).1
        (run options other (run options unit root).1.root).1 ∧
      (run options other (run options unit root).1.root).1.root =
        (run options.twice unit root).1.root := by
  rw [run_fst, run_fst, run_fst, options.sweepCount_twice, passes_twice,
    root_passes_add options _ _ distinct]
  refine ⟨?_, rfl⟩
  obtain ⟨count, hcount⟩ := options.exists_sweepCount
  have hfirst := passes_end options options.sweepCount distinct
  generalize hroot : passes options options.sweepCount root = first at hfirst ⊢
  have hdistinct : first.root.ids.Nodup := by
    rw [← hroot]
    exact (ids_steps_subset distinct (steps_passes options _ distinct).1).1
  obtain ⟨hsteps, hsize⟩ := steps_passes options options.sweepCount hdistinct
  constructor
  · intro hzero
    rcases hfirst with ⟨-, hsettled⟩ | ⟨hnone, -⟩
    · rw [hcount]
      exact passes_succ_of_settled hdistinct hsettled count
    · exact absurd hzero hnone
  · intro hnone
    rcases hfirst with ⟨hzero, -⟩ | ⟨-, hbounded⟩
    · exact absurd hzero hnone
    · exact hbounded
  · rw [hcount]
    exact removed_passes_succ options count hdistinct
  · rcases eq_or_size_lt_of_steps hdistinct hsteps with hsame | hless
    · rw [hsame] at hsize
      exact iff_of_true hsame (by omega)
    · exact iff_of_false (fun hsame => absurd (congrArg Rose.size hsame) hless.ne) (by omega)

theorem resumed_run_shrines : shrines.ids.Nodup ∧ 0 ∈ (run {} "" shrines).1.perIteration ∧
    (run {} "" (run {} "" shrines).1.root).1 =
      { root := (run {} "" shrines).1.root, duplicates := 0, removed := 0, perIteration := [0] } := by
  have distinct : shrines.ids.Nodup := by decide
  have hzero : 0 ∈ (run {} "" shrines).1.perIteration := by decide +kernel
  exact ⟨distinct, hzero, (resumed_run {} "" "" distinct).1.settled hzero⟩

/-- Two markets with an inn each. One inn refers to another already, which has a well like the one
by the other market, so that every sweep makes two places equal one step further up. -/
def markets : Node :=
  spoken 0 "Village." [
    spoken 1 "A well." [spoken 2 "Drink." [], spoken 3 "Leave." []],
    spoken 4 "An inn." [spokenRef 5 "A well." 1, spoken 6 "Sleep." []],
    spoken 7 "A market." [
      spoken 8 "An inn." [
        spoken 9 "A well." [spoken 10 "Drink." [], spoken 11 "Leave." []],
        spoken 12 "Sleep." []],
      spoken 13 "Leave." []],
    spoken 14 "A market." [spokenRef 15 "An inn." 4, spoken 16 "Leave." []]]

/-- The second market is left to the third sweep, and the options allow two. -/
theorem again_run_markets : markets.ids.Nodup ∧ (run {} "" markets).1.perIteration = [2, 2] ∧
    (run {} "" (run {} "" markets).1.root).1.removed = 2 ∧
    (run {} "" (run {} "" markets).1.root).1.root ≠ (run {} "" markets).1.root := by
  have distinct : markets.ids.Nodup := by decide
  have hremoved : (run {} "" (run {} "" markets).1.root).1.removed = 2 := by decide +kernel
  refine ⟨distinct, by decide +kernel, hremoved, fun hsame => ?_⟩
  have hids : (run {} "" (run {} "" markets).1.root).1.root.ids ≠ (run {} "" markets).1.root.ids := by
    decide +kernel
  exact hids (congrArg Node.ids hsame)

end Share

end StoryAtlas
