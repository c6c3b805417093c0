import Mathlib.Data.List.Sort
import Mathlib.Data.List.TakeWhile
import StoryAtlas.Proofs.Share.Tour

/-!
# Looking out for references from outside

A guard can be asked faster if the ids that are referred to are kept in the order of their numbers.
Those in the span of a node stand in a row, so the search skips what comes before the span, goes on
as long as the numbers are in it, and looks for each target whether one of its referrers is outside.

Such a lookout answers as the guard with the same references does, whatever the tree and whatever is
added. Where the ids of a tree are distinct and not negative, both say what they are asked: whether
a node outside the subtree refers to a node in it.
-/

namespace StoryAtlas

/-! ### Searching in a sorted list -/

section Sorted

variable {α : Type} {p : α → Bool} {items : List α} {item : α}

theorem mem_takeWhile_iff (h : items.Pairwise fun one other => p other = true → p one = true) :
    item ∈ items.takeWhile p ↔ item ∈ items ∧ p item = true := by
  refine ⟨fun hmem => ⟨(List.takeWhile_sublist p).subset hmem, List.mem_takeWhile_imp hmem⟩, ?_⟩
  rintro ⟨hmem, hitem⟩
  obtain ⟨before, after, rfl⟩ := List.append_of_mem hmem
  have hbefore : ∀ other ∈ before, p other = true := fun other hother =>
    (List.pairwise_append.1 h).2.2 other hother item List.mem_cons_self hitem
  rw [List.takeWhile_append_of_pos hbefore, List.takeWhile_cons_of_pos hitem]
  exact List.mem_append_right _ List.mem_cons_self

theorem mem_dropWhile_iff (h : items.Pairwise fun one other => p other = true → p one = true) :
    item ∈ items.dropWhile p ↔ item ∈ items ∧ p item = false := by
  induction items with
  | nil => simp
  | cons first items ih =>
      obtain ⟨hfirst, hrest⟩ := List.pairwise_cons.1 h
      cases hp : p first with
      | true =>
          rw [List.dropWhile_cons_of_pos hp, ih hrest, List.mem_cons]
          refine and_congr_left fun hitem => (or_iff_right ?_).symm
          rintro rfl
          rw [hp] at hitem
          cases hitem
      | false =>
          rw [List.dropWhile_cons_of_neg (by simp [hp]), iff_self_and]
          intro hmem
          rcases List.mem_cons.1 hmem with rfl | hmem
          · exact hp
          · exact Bool.eq_false_iff.2 fun hitem => by simp [hfirst item hmem hitem] at hp

end Sorted

/-- The order of targets: by number, and for one number by id. -/
def Precedes (one other : Nat × Int) : Prop :=
  one.1 < other.1 ∨ one.1 = other.1 ∧ one.2 ≤ other.2

instance : DecidableRel Precedes := fun _ _ => inferInstanceAs (Decidable (_ ∨ _))

instance : Std.Total Precedes where
  total one other := by
    unfold Precedes
    omega

instance : IsTrans (Nat × Int) Precedes where
  trans one other last := by
    unfold Precedes
    omega

structure Lookout where
  entries : Register Int Nat
  exits : Register Int Nat
  referrers : Referrers
  /-- The numbers and ids of the nodes that are referred to, in order. -/
  targets : List (Nat × Int)

namespace Lookout

def target? (entries : Register Int Nat) (id : Int) : Option (Nat × Int) :=
  (Register.get? id entries).map fun number => (number, id)

def ofRoot (root : Node) : Lookout :=
  let tour := Tour.ofRoot root
  { entries := tour.entries
    exits := tour.exits
    referrers := tour.referrers
    targets := ((Register.keys tour.referrers).filterMap (target? tour.entries)).mergeSort
      fun one other => Precedes one other }

/-- Puts the target in its place if it is in the tree and was not referred to before. -/
def addRef (referrer target : Int) (lookout : Lookout) : Lookout :=
  { lookout with
    targets :=
      if Register.holds target lookout.referrers then lookout.targets
      else
        match target? lookout.entries target with
        | some entry => lookout.targets.orderedInsert Precedes entry
        | none => lookout.targets
    referrers := lookout.referrers.note referrer target }

def within (first last : Nat) (lookout : Lookout) : List (Nat × Int) :=
  let started :=
    lookout.targets.dropWhile fun entry => !decide (Precedes (first, Guard.leastTarget) entry)
  started.takeWhile fun entry => entry.1 ≤ last

def standsOutside (first last : Nat) (lookout : Lookout) (referrer : Int) : Bool :=
  match Register.get? referrer lookout.entries with
  | some number => !(first ≤ number && number ≤ last)
  | none => false

def wouldOrphan (candidate : Int) (lookout : Lookout) : Bool :=
  match Register.get? candidate lookout.entries, Register.get? candidate lookout.exits with
  | some first, some last =>
    (lookout.within first last).any fun entry =>
      (lookout.referrers.of entry.2).any (lookout.standsOutside first last)
  | _, _ => false

def addRefs (added : List (Int × Int)) (lookout : Lookout) : Lookout :=
  added.foldl (fun lookout pair => lookout.addRef pair.1 pair.2) lookout

end Lookout

/-! ### The lookout and the guard -/

structure Referrers.Records (referrers : Referrers) (refs : List (Int × Int)) : Prop where
  mem_iff : ∀ target referrer, referrer ∈ referrers.of target ↔ (referrer, target) ∈ refs
  holds_iff : ∀ target, Register.holds target referrers ↔ ∃ referrer, (referrer, target) ∈ refs

theorem Referrers.Records.note {referrers : Referrers} {refs : List (Int × Int)}
    (h : referrers.Records refs) (referrer target : Int) :
    (referrers.note referrer target).Records (refs ++ [(referrer, target)]) where
  mem_iff other id := by
    rw [Referrers.mem_of_note, h.mem_iff, List.mem_append, List.mem_singleton, Prod.mk.injEq,
      or_comm]
  holds_iff other := by
    rw [Referrers.note, Register.holds_put, h.holds_iff]
    simp only [List.mem_append, List.mem_singleton, Prod.mk.injEq, exists_or, exists_eq_left,
      or_comm]

theorem Referrers.Records.noteNodes {referrers : Referrers} {refs : List (Int × Int)}
    (h : referrers.Records refs) (nodes : List Placed) :
    Referrers.Records
      (nodes.foldl (fun referrers node => referrers.noteNode (Placed.id node) (Placed.beat node))
        referrers)
      (refs ++ nodes.filterMap fun node =>
        (Placed.beat node).ref.map fun target => (Placed.id node, target)) := by
  induction nodes generalizing referrers refs with
  | nil => rwa [List.filterMap_nil, List.append_nil]
  | cons node nodes ih =>
      rw [List.foldl_cons, Referrers.noteNode]
      cases href : (Placed.beat node).ref with
      | none =>
          rw [List.filterMap_cons_none (by rw [href]; rfl)]
          exact ih h
      | some target =>
          rw [List.filterMap_cons_some (by rw [href]; rfl), List.append_cons]
          exact ih (h.note (Placed.id node) target)

theorem Referrers.records_nil : Referrers.Records [] [] :=
  ⟨fun _ _ => ⟨nofun, nofun⟩, fun _ => ⟨nofun, nofun⟩⟩

def Guard.addRefs (added : List (Int × Int)) (guard : Guard) : Guard :=
  added.foldl (fun guard pair => guard.addRef pair.1 pair.2) guard

theorem Guard.reaches_eq_true_iff {guard : Guard} {first last : Nat} {target : Int} :
    guard.reaches first last target = true ↔ ∃ number,
      Register.get? target guard.entries = some number ∧
        Precedes (first, leastTarget) (number, target) ∧ number ≤ last := by
  unfold reaches Precedes
  cases Register.get? target guard.entries with
  | none => exact ⟨nofun, nofun⟩
  | some number =>
      simp only [Bool.and_eq_true, Bool.or_eq_true, decide_eq_true_eq, beq_iff_eq,
        Option.some.injEq, exists_eq_left']
      rw [@eq_comm _ number first]

namespace Lookout

/-- The lookout has the spans and the references of the guard, and its targets in order. -/
structure Mirrors (lookout : Lookout) (guard : Guard) : Prop where
  entries : lookout.entries = guard.entries
  exits : lookout.exits = guard.exits
  records : lookout.referrers.Records guard.refs
  sorted : lookout.targets.Pairwise Precedes
  mem_targets : ∀ number target, (number, target) ∈ lookout.targets ↔
    Register.get? target guard.entries = some number ∧ ∃ referrer, (referrer, target) ∈ guard.refs

variable {lookout : Lookout} {guard : Guard}

theorem target?_eq_some {entries : Register Int Nat} {id target : Int} {number : Nat} :
    target? entries id = some (number, target) ↔
      id = target ∧ Register.get? target entries = some number := by
  simp only [target?, Option.map_eq_some_iff, Prod.mk.injEq]
  constructor
  · rintro ⟨_, hget, rfl, rfl⟩
    exact ⟨rfl, hget⟩
  · rintro ⟨rfl, hget⟩
    exact ⟨number, hget, rfl, rfl⟩

theorem mirrors_ofRoot (root : Node) : Mirrors (ofRoot root) (Guard.ofPlaced root.placed) := by
  have htour := Tour.ofRoot_eq root
  have hentries : (Tour.ofRoot root).entries = (Guard.ofPlaced root.placed).entries := by
    rw [htour, Guard.ofPlaced, Register.ofList, List.foldl_map, Tour.along,
      Rose.walkForest_singleton]
  have hrecords : (Tour.ofRoot root).referrers.Records (Guard.ofPlaced root.placed).refs := by
    rw [htour, Tour.along, Rose.walkForest_singleton]
    exact Referrers.records_nil.noteNodes root.placed.walk
  have hexits : (Tour.ofRoot root).exits = (Guard.ofPlaced root.placed).exits := by
    change _ = Register.ofList _
    rw [htour, Register.ofList, List.foldl_map, Tour.along, Rose.climbForest, Rose.climbForest,
      List.append_nil]
  refine ⟨hentries, hexits, hrecords, ?_, fun number target => ?_⟩
  · have htrans (one other last : Nat × Int) (h : decide (Precedes one other) = true)
        (h' : decide (Precedes other last) = true) : decide (Precedes one last) = true :=
      decide_eq_true (IsTrans.trans _ _ _ (of_decide_eq_true h) (of_decide_eq_true h'))
    have htotal (one other : Nat × Int) :
        (decide (Precedes one other) || decide (Precedes other one)) = true := by
      simpa using Std.Total.total (r := Precedes) one other
    exact (List.pairwise_mergeSort htrans htotal _).imp fun h => of_decide_eq_true h
  · rw [ofRoot, List.mem_mergeSort, List.mem_filterMap, ← hrecords.holds_iff,
      Register.holds_iff_mem_keys, ← hentries]
    simp only [target?_eq_some]
    constructor
    · rintro ⟨_, hkey, rfl, hget⟩
      exact ⟨hget, hkey⟩
    · rintro ⟨hget, hkey⟩
      exact ⟨target, hkey, rfl, hget⟩

theorem Mirrors.mem_targets_addRef (h : Mirrors lookout guard) (referrer target : Int)
    {number : Nat} {other : Int} : (number, other) ∈ (lookout.addRef referrer target).targets ↔
      (number, other) ∈ lookout.targets ∨
        target = other ∧ Register.get? other guard.entries = some number := by
  rw [Lookout.addRef, ← h.entries, ← target?_eq_some]
  split
  · next hheld =>
    refine (or_iff_left_of_imp fun htarget => ?_).symm
    obtain ⟨rfl, hget⟩ := target?_eq_some.1 htarget
    exact (h.mem_targets _ _).2 ⟨h.entries ▸ hget, (h.records.holds_iff target).1 hheld⟩
  · split
    · next entry hentry => rw [List.mem_orderedInsert, hentry, Option.some.injEq, or_comm, eq_comm]
    · next hnone => simp [hnone]

theorem Mirrors.addRef (h : Mirrors lookout guard) (referrer target : Int) :
    Mirrors (lookout.addRef referrer target) (guard.addRef referrer target) where
  entries := h.entries
  exits := h.exits
  records := h.records.note referrer target
  sorted := by
    rw [Lookout.addRef]
    split
    · exact h.sorted
    · split
      · exact h.sorted.orderedInsert _ _
      · exact h.sorted
  mem_targets number other := by
    rw [h.mem_targets_addRef, h.mem_targets, Guard.addRef]
    simp only [List.mem_append, List.mem_singleton, Prod.mk.injEq, exists_or, exists_eq_left]
    constructor
    · rintro (⟨hget, href⟩ | ⟨rfl, hget⟩)
      · exact ⟨hget, .inl href⟩
      · exact ⟨hget, .inr rfl⟩
    · rintro ⟨hget, href | rfl⟩
      · exact .inl ⟨hget, href⟩
      · exact .inr ⟨rfl, hget⟩

theorem Mirrors.addRefs (h : Mirrors lookout guard) (added : List (Int × Int)) :
    Mirrors (lookout.addRefs added) (guard.addRefs added) := by
  induction added generalizing lookout guard with
  | nil => exact h
  | cons pair added ih => exact ih (h.addRef pair.1 pair.2)

theorem Mirrors.mem_within (h : Mirrors lookout guard) {first last : Nat} {entry : Nat × Int} :
    entry ∈ lookout.within first last ↔ entry ∈ lookout.targets ∧
      Precedes (first, Guard.leastTarget) entry ∧ entry.1 ≤ last := by
  have hstart : lookout.targets.Pairwise fun one other =>
      (!decide (Precedes (first, Guard.leastTarget) other)) = true →
        (!decide (Precedes (first, Guard.leastTarget) one)) = true := by
    refine h.sorted.imp fun {one other} hprecedes => ?_
    simp only [Bool.not_eq_true', decide_eq_false_iff_not]
    exact fun hother hone => hother (IsTrans.trans _ _ _ hone hprecedes)
  have hstop : lookout.targets.Pairwise fun one other =>
      decide (other.1 ≤ last) = true → decide (one.1 ≤ last) = true := by
    refine h.sorted.imp fun {one other} hprecedes => ?_
    simp only [decide_eq_true_eq]
    rcases hprecedes with hless | ⟨hsame, -⟩ <;> omega
  rw [within, mem_takeWhile_iff (hstop.sublist (List.dropWhile_sublist _)),
    mem_dropWhile_iff hstart, Bool.not_eq_false', decide_eq_true_eq, decide_eq_true_eq, and_assoc]

theorem Mirrors.wouldOrphan (h : Mirrors lookout guard) (candidate : Int) :
    lookout.wouldOrphan candidate = guard.wouldOrphan candidate := by
  have houtside (first last : Nat) (referrer : Int) :
      lookout.standsOutside first last referrer = guard.standsOutside first last referrer := by
    rw [standsOutside, h.entries]
    rfl
  rw [Lookout.wouldOrphan, Guard.wouldOrphan, h.entries, h.exits]
  cases Register.get? candidate guard.entries with
  | none => rfl
  | some first =>
      cases Register.get? candidate guard.exits with
      | none => rfl
      | some last =>
          dsimp only
          rw [Bool.eq_iff_iff, List.any_eq_true, List.any_eq_true]
          constructor
          · rintro ⟨⟨number, target⟩, hentry, hreferrers⟩
            obtain ⟨referrer, href, hstands⟩ := List.any_eq_true.1 hreferrers
            obtain ⟨hmem, hprecedes, hle⟩ := h.mem_within.1 hentry
            obtain ⟨hget, -⟩ := (h.mem_targets number target).1 hmem
            refine ⟨_, (h.records.mem_iff target referrer).1 href, Bool.and_eq_true_iff.2 ⟨?_, ?_⟩⟩
            · exact Guard.reaches_eq_true_iff.2 ⟨number, hget, hprecedes, hle⟩
            · rwa [← houtside]
          · rintro ⟨⟨referrer, target⟩, href, hboth⟩
            obtain ⟨hreaches, hstands⟩ := Bool.and_eq_true_iff.1 hboth
            obtain ⟨number, hget, hprecedes, hle⟩ := Guard.reaches_eq_true_iff.1 hreaches
            have hmem := (h.mem_targets number target).2 ⟨hget, referrer, href⟩
            refine ⟨_, h.mem_within.2 ⟨hmem, hprecedes, hle⟩, List.any_eq_true.2 ⟨referrer, ?_, ?_⟩⟩
            · exact (h.records.mem_iff target referrer).2 href
            · rwa [houtside]

end Lookout

/-! ### What both see -/

theorem Guard.refs_addRefs (added : List (Int × Int)) (guard : Guard) :
    (guard.addRefs added).refs = guard.refs ++ added := by
  induction added generalizing guard with
  | nil => exact (List.append_nil _).symm
  | cons pair added ih =>
      rw [Guard.addRefs, List.foldl_cons, ← Guard.addRefs, ih, Guard.addRef, ← List.append_cons]

theorem Guard.Spans.addRefs {tree : Node} {guard : Guard} (h : Spans tree guard)
    (added : List (Int × Int)) : Spans tree (guard.addRefs added) := by
  induction added generalizing guard with
  | nil => exact h
  | cons pair added ih => exact ih (h.addRef pair.1 pair.2)

theorem Guard.mem_refs_addRefs {root : Node} (distinct : root.ids.Nodup)
    {added : List (Int × Int)} {referrer : Placed} (h : referrer ∈ root.placed.walk)
    {target : Int} : (referrer.id, target) ∈ ((ofPlaced root.placed).addRefs added).refs ↔
      referrer.beat.ref = some target ∨ (referrer.id, target) ∈ added := by
  rw [refs_addRefs, List.mem_append]
  refine or_congr_left ?_
  simp only [ofPlaced, List.mem_filterMap, Option.map_eq_some_iff, Prod.mk.injEq]
  constructor
  · rintro ⟨other, hother, _, href, hid, rfl⟩
    rw [← Placed.ids_placed] at distinct
    rwa [Placed.eq_of_id_eq distinct hother h hid] at href
  · exact fun href => ⟨referrer, h, target, href, rfl, rfl⟩

namespace Node

/-- A node outside the subtree refers to a node in it, or was given such a reference. -/
def Wanted (root : Node) (added : List (Int × Int)) (candidate : Node) : Prop :=
  ∃ outside ∈ root.walk, outside ∉ candidate.walk ∧ ∃ inside ∈ candidate.walk,
    outside.value.ref = some (Node.id inside) ∨ (Node.id outside, Node.id inside) ∈ added

variable {root candidate : Node}

theorem forget_mem_walk_iff {root node other : Placed} (distinct : (Placed.ids root).Nodup)
    (hnode : node ∈ root.walk) (hother : other ∈ root.walk) :
    other.forget ∈ node.forget.walk ↔ other ∈ node.walk := by
  refine ⟨fun hmem => ?_, Placed.forget_mem_walk⟩
  obtain ⟨origin, horigin, hforget⟩ := Placed.exists_of_mem_walk_forget hmem
  have hid : Placed.id origin = Placed.id other := by
    rw [← Placed.id_forget, hforget, Placed.id_forget]
  rwa [← Placed.eq_of_id_eq distinct (Rose.mem_walk_trans horigin hnode) hother hid]

theorem wouldOrphan_addRefs_iff (distinct : root.ids.Nodup) (natural : ∀ id ∈ root.ids, 0 ≤ id)
    (added : List (Int × Int)) (h : candidate ∈ root.walk) :
    ((Guard.ofPlaced root.placed).addRefs added).wouldOrphan candidate.id = true ↔
      root.Wanted added candidate := by
  have hplaced : (Placed.ids root.placed).Nodup := by rwa [Placed.ids_placed]
  have hspans : Guard.Spans root ((Guard.ofPlaced root.placed).addRefs added) :=
    Guard.Spans.addRefs ⟨rfl, rfl⟩ added
  obtain ⟨node, hnode, rfl⟩ := Placed.exists_of_mem_walk h
  have hleast : Guard.leastTarget ≤ Placed.id node := by
    have hid : Placed.id node ∈ root.ids := Placed.ids_placed root ▸ Placed.id_mem_ids hnode
    exact le_trans (by decide) (natural _ hid)
  rw [Placed.id_forget, Guard.wouldOrphan_iff distinct hspans hnode]
  constructor
  · rintro ⟨outside, houtside, hout, inside, hinside, href, -⟩
    refine ⟨Placed.forget outside, Placed.forget_mem_walk_placed houtside, ?_, Placed.forget inside,
      Placed.forget_mem_walk hinside, ?_⟩
    · rwa [forget_mem_walk_iff hplaced hnode houtside]
    · rw [Placed.value_forget, Placed.id_forget, Placed.id_forget]
      exact (Guard.mem_refs_addRefs distinct houtside).1 href
  · rintro ⟨_, hwalk, hout, _, hbelow, href⟩
    obtain ⟨outside, houtside, rfl⟩ := Placed.exists_of_mem_walk hwalk
    obtain ⟨inside, hinside, rfl⟩ := Placed.exists_of_mem_walk_forget hbelow
    rw [Placed.value_forget, Placed.id_forget, Placed.id_forget] at href
    rw [forget_mem_walk_iff hplaced hnode houtside] at hout
    exact ⟨outside, houtside, hout, inside, hinside,
      (Guard.mem_refs_addRefs distinct houtside).2 href, fun _ => hleast⟩

end Node

/-- Lookout and guard say of every node of a tree whether a node outside its subtree wants a node in
it. -/
theorem Lookout.wouldOrphan_iff_wanted {root : Node} (distinct : root.ids.Nodup)
    (natural : ∀ id ∈ root.ids, 0 ≤ id) (added : List (Int × Int)) {candidate : Node}
    (h : candidate ∈ root.walk) :
    ((ofRoot root).addRefs added).wouldOrphan candidate.id =
        ((Guard.ofPlaced root.placed).addRefs added).wouldOrphan candidate.id ∧
      (((ofRoot root).addRefs added).wouldOrphan candidate.id = true ↔
        root.Wanted added candidate) := by
  have hmirrors := ((mirrors_ofRoot root).addRefs added).wouldOrphan candidate.id
  exact ⟨hmirrors, hmirrors ▸ Node.wouldOrphan_addRefs_iff distinct natural added h⟩

def hall : Node :=
  .node { id := 0, kind := .dialogue, text := some "A hall." }
    [.node { id := 1, kind := .dialogue, label := some "Down", text := some "A cellar." }
      [.node { id := 3, kind := .ending, label := some "Sleep", text := some "Good night." } []],
      .node { id := 2, kind := .dialogue, label := some "Out", text := some "A yard.",
              ref := some 3 } []]

/-- The cellar is wanted from the yard, and the yard once the sleeper is sent there. -/
theorem Lookout.wouldOrphan_iff_wanted_hall :
    hall.ids.Nodup ∧ (∀ id ∈ hall.ids, 0 ≤ id) ∧ ∃ cellar ∈ hall.walk, ∃ yard ∈ hall.walk,
      hall.Wanted [] cellar ∧ ((ofRoot hall).addRefs []).wouldOrphan 1 = true ∧
      ¬hall.Wanted [] yard ∧ ((ofRoot hall).addRefs []).wouldOrphan 2 = false ∧
      hall.Wanted [(3, 2)] yard ∧ ((ofRoot hall).addRefs [(3, 2)]).wouldOrphan 2 = true := by
  have distinct : hall.ids.Nodup := by decide
  have natural : ∀ id ∈ hall.ids, 0 ≤ id := by decide
  have hcellar : hall.walk[1] ∈ hall.walk := List.getElem_mem _
  have hyard : hall.walk[3] ∈ hall.walk := List.getElem_mem _
  have hbefore := wouldOrphan_iff_wanted distinct natural [] hcellar
  have hnone := wouldOrphan_iff_wanted distinct natural [] hyard
  have hafter := wouldOrphan_iff_wanted distinct natural [(3, 2)] hyard
  have hwanted := hbefore.1.trans (by decide : _ = true)
  have hfree := hnone.1.trans (by decide : _ = false)
  have hsent := hafter.1.trans (by decide : _ = true)
  refine ⟨distinct, natural, _, hcellar, _, hyard, hbefore.2.1 hwanted, hwanted, ?_, hfree,
    hafter.2.1 hsent, hsent⟩
  exact fun h => Bool.noConfusion (hfree.symm.trans (hnone.2.2 h))

end StoryAtlas
