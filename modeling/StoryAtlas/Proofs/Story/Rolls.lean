import Mathlib.Data.List.Induction
import Mathlib.Data.List.Nodup
import StoryAtlas.Proofs.Decimal.Truncate
import StoryAtlas.Proofs.Json.Inside

/-!
# The rolls of a story

A variable is set to a roll by six items in a row, somewhere in a list of the compiled story. The
search takes the lists one after the other, each before those inside it, and looks at every six
items of a list from left to right. So all rolls are found, in the order of the ways to their lists
and of their places there, and of those for one range the first decides where the range is listed.

This is not always the order of the text: what stands in a list inside another one is found after
the rolls of the outer list, also after those that are written behind it.
-/

namespace StoryAtlas

/-- A number and not a truth value, with that whole part. -/
def Json.TruncatesTo : Json → Int → Prop
  | int number, whole => number = whole
  | float number, whole => ∃ parts, Decimal.read number = .finite parts ∧
      Decimal.towardZero parts.toRat = whole
  | _, _ => False

namespace Bytecode

open Json

theorem truncatesTo_iff {value : Json} {whole : Int} :
    value.TruncatesTo whole ↔ isNumber value = true ∧ value.toWhole = .ok whole := by
  cases value with
  | int number =>
      change number = whole ↔ true = true ∧ Except.ok number = .ok whole
      rw [Except.ok.injEq]
      exact (and_iff_right rfl).symm
  | float number =>
      change (∃ parts, _) ↔ true = true ∧ wholeOfFloat number = .ok whole
      rw [and_iff_right rfl]
      unfold wholeOfFloat
      cases Decimal.read number with
      | finite parts => simp [Decimal.Binary.truncate_eq]
      | infinite negative => simp
      | notANumber => simp
  | _ => simp [TruncatesTo, isNumber]

/-! ### Where a roll stands -/

/-- A place in a list of a document. -/
structure Spot where
  way : List Nat
  start : Nat
deriving DecidableEq

def Spot.Precedes (one other : Spot) : Prop :=
  one.way < other.way ∨ one.way = other.way ∧ one.start < other.start

def Spot.position (spot : Spot) : List Nat := spot.way ++ [spot.start]

/-- From the spot on, six items set a variable of that name to a roll in that range. -/
def SetsRoll (document : Json) (spot : Spot) (name : String) (range : RollRange) : Prop :=
  ∃ before least most fields after value,
    document.at? spot.way = some (.arr (before ++
      [.str "ev", least, most, .str "rnd", .str "/ev", .obj fields] ++ after)) ∧
    before.length = spot.start ∧
    least.TruncatesTo range.least ∧ most.TruncatesTo range.most ∧
    Register.get? "VAR=" fields = some value ∧ value.display = name

theorem readRoll_eq_some {rest : List Json} {value least most : Json} :
    readRoll rest = some (value, least, most) ↔ ∃ fields after,
      rest = [.str "ev", least, most, .str "rnd", .str "/ev", .obj fields] ++ after ∧
        isNumber least = true ∧ isNumber most = true ∧
          Register.get? "VAR=" fields = some value := by
  constructor
  · intro h
    unfold readRoll at h
    split at h
    · next fields after =>
      split at h
      · next hnumbers =>
        obtain ⟨name, hname, heq⟩ := Option.map_eq_some_iff.1 h
        rw [Prod.mk.injEq, Prod.mk.injEq] at heq
        obtain ⟨rfl, rfl, rfl⟩ := heq
        obtain ⟨hleast, hmost⟩ := Bool.and_eq_true_iff.1 hnumbers
        exact ⟨_, _, rfl, hleast, hmost, hname⟩
      · cases h
    · cases h
  · rintro ⟨fields, after, rfl, hleast, hmost, hname⟩
    simp [readRoll, hleast, hmost, hname]

def rollAt (rest : List Json) : Option (String × RollRange) :=
  match readRoll rest with
  | some (value, least, most) =>
    match least.toWhole, most.toWhole with
    | .ok least, .ok most => some (value.display, ⟨least, most⟩)
    | _, _ => none
  | none => none

theorem rollAt_eq_some {rest : List Json} {name : String} {range : RollRange} :
    rollAt rest = some (name, range) ↔ ∃ least most fields after value,
      rest = [.str "ev", least, most, .str "rnd", .str "/ev", .obj fields] ++ after ∧
        least.TruncatesTo range.least ∧ most.TruncatesTo range.most ∧
          Register.get? "VAR=" fields = some value ∧ value.display = name := by
  simp only [truncatesTo_iff]
  constructor
  · intro h
    unfold rollAt at h
    split at h
    · next value least most hread =>
      obtain ⟨fields, after, hrest, hleast, hmost, hname⟩ := readRoll_eq_some.1 hread
      split at h
      · next hwhole hwhole' =>
        rw [Option.some.injEq, Prod.mk.injEq] at h
        obtain ⟨rfl, rfl⟩ := h
        exact ⟨least, most, fields, after, value, hrest, ⟨hleast, hwhole⟩, ⟨hmost, hwhole'⟩, hname,
          rfl⟩
      · cases h
    · cases h
  · rintro ⟨least, most, fields, after, value, hrest, ⟨hleast, hwhole⟩, ⟨hmost, hwhole'⟩, hname,
      rfl⟩
    rw [rollAt, readRoll_eq_some.2 ⟨fields, after, hrest, hleast, hmost, hname⟩]
    simp only [hwhole, hwhole']

/-! ### All spots of a document -/

theorem tails_eq {α : Type} (items : List α) :
    tails items = (List.range (items.length + 1)).map items.drop := by
  induction items with
  | nil => rfl
  | cons item items ih =>
      rw [tails, ih, List.length_cons, List.range_succ_eq_map (n := items.length + 1),
        List.map_cons, List.map_map]
      rfl

/-- What remains of the lists from each spot on. -/
def restsIn (document : Json) : List (Spot × List Json) :=
  (waysIn document).flatMap fun (way, items) =>
    (List.range (items.length + 1)).map fun start => (⟨way, start⟩, items.drop start)

theorem map_snd_restsIn (document : Json) :
    (restsIn document).map Prod.snd = (listsIn document).flatMap tails := by
  rw [restsIn, List.map_flatMap, ← map_snd_waysIn, List.flatMap_map]
  refine congrArg (List.flatMap · _) (funext fun entry => ?_)
  rw [List.map_map, tails_eq]
  rfl

theorem mem_restsIn_iff {document : Json} {spot : Spot} {rest : List Json} :
    (spot, rest) ∈ restsIn document ↔ ∃ before,
      document.at? spot.way = some (.arr (before ++ rest)) ∧ before.length = spot.start := by
  obtain ⟨way, start⟩ := spot
  simp only [restsIn, List.mem_flatMap, List.mem_map, List.mem_range, Prod.exists, Prod.mk.injEq,
    Spot.mk.injEq, mem_waysIn_iff]
  constructor
  · rintro ⟨_, items, hway, place, hstart, ⟨rfl, rfl⟩, rfl⟩
    refine ⟨items.take place, ?_, ?_⟩
    · rwa [List.take_append_drop]
    · rw [List.length_take]
      omega
  · rintro ⟨before, hway, rfl⟩
    refine ⟨way, _, hway, before.length, ?_, ⟨rfl, rfl⟩, List.drop_left⟩
    rw [List.length_append]
    omega

theorem pairwise_restsIn (document : Json) :
    (restsIn document).Pairwise fun one other => one.1.Precedes other.1 := by
  rw [restsIn, List.pairwise_flatMap]
  constructor
  · intro entry _
    rw [List.pairwise_map]
    exact List.pairwise_lt_range.imp fun hless => .inr ⟨rfl, hless⟩
  · refine (pairwise_waysIn document).imp fun hless => ?_
    simp only [List.forall_mem_map]
    exact fun _ _ _ _ => .inl hless

def rollsIn (document : Json) : List (Spot × String × RollRange) :=
  (restsIn document).filterMap fun entry => (rollAt entry.2).map (Prod.mk entry.1)

theorem mem_rollsIn_iff {document : Json} {spot : Spot} {name : String} {range : RollRange} :
    (spot, name, range) ∈ rollsIn document ↔ SetsRoll document spot name range := by
  simp only [rollsIn, List.mem_filterMap, Prod.exists, Option.map_eq_some_iff, Prod.mk.injEq,
    mem_restsIn_iff, rollAt_eq_some]
  constructor
  · rintro ⟨_, _, ⟨before, hway, hstart⟩, _, _,
      ⟨least, most, fields, after, value, rfl, hleast, hmost, hname, rfl⟩, rfl, rfl, rfl⟩
    exact ⟨before, least, most, fields, after, value, by rwa [List.append_assoc], hstart, hleast,
      hmost, hname, rfl⟩
  · rintro ⟨before, least, most, fields, after, value, hway, hstart, hleast, hmost, hname, rfl⟩
    exact ⟨spot, _, ⟨before, by rwa [List.append_assoc] at hway, hstart⟩, _, range,
      ⟨least, most, fields, after, value, rfl, hleast, hmost, hname, rfl⟩, rfl, rfl, rfl⟩

theorem pairwise_rollsIn (document : Json) :
    (rollsIn document).Pairwise fun one other => one.1.Precedes other.1 := by
  rw [rollsIn, List.pairwise_filterMap]
  refine (pairwise_restsIn document).imp fun hprecedes one hone other hother => ?_
  obtain ⟨_, -, rfl⟩ := Option.map_eq_some_iff.1 hone
  obtain ⟨_, -, rfl⟩ := Option.map_eq_some_iff.1 hother
  exact hprecedes

/-! ### The table -/

/-- The one was met, and the other not before it. -/
def MetBefore {α : Type} (met : List α) (one other : α) : Prop :=
  ∃ before after, met = before ++ one :: after ∧ other ∉ before

theorem MetBefore.append {α : Type} {met : List α} {one other : α} (h : MetBefore met one other)
    (more : List α) : MetBefore (met ++ more) one other := by
  obtain ⟨before, after, rfl, hother⟩ := h
  exact ⟨before, after ++ more, List.append_assoc .., hother⟩

theorem metBefore_of_notMem {α : Type} {met : List α} {one other : α} (hone : one ∈ met)
    (hother : other ∉ met) : MetBefore met one other := by
  obtain ⟨before, after, rfl⟩ := List.append_of_mem hone
  exact ⟨before, after, rfl, fun hmem => hother (List.mem_append_left _ hmem)⟩

def addEntry (table : RollTable) (entry : String × RollRange) : RollTable :=
  addRange table entry.1 entry.2

/-- The ranges of the table are those that were met, each variable's in the order in which they were
first met. -/
structure Lists (table : RollTable) (met : List (String × RollRange)) : Prop where
  mem_iff : ∀ name range, range ∈ table.ranges name ↔ (name, range) ∈ met
  nodup : ∀ name, (table.ranges name).Nodup
  first : ∀ name, (table.ranges name).Pairwise fun range other =>
    MetBefore met (name, range) (name, other)

theorem ranges_addRange (table : RollTable) (name other : String) (range : RollRange) :
    (addRange table name range).ranges other =
      if other = name ∧ range ∉ table.ranges name then table.ranges other ++ [range]
      else table.ranges other := by
  unfold addRange
  rw [RollTable.ranges, Register.get?_put]
  by_cases hname : other = name
  · subst hname
    rw [if_pos rfl]
    by_cases hmem : range ∈ table.ranges other <;> simp [hmem]
  · rw [if_neg hname, if_neg fun h => hname h.1]
    rfl

theorem Lists.addRange {table : RollTable} {met : List (String × RollRange)}
    (h : Lists table met) (name : String) (range : RollRange) :
    Lists (addRange table name range) (met ++ [(name, range)]) where
  mem_iff other found := by
    rw [ranges_addRange, List.mem_append, List.mem_singleton, Prod.mk.injEq, ← h.mem_iff]
    split
    · next hnew =>
      rw [List.mem_append, List.mem_singleton, and_iff_right hnew.1]
    · next hknown =>
      refine (or_iff_left_of_imp ?_).symm
      rintro ⟨rfl, rfl⟩
      exact by_contra fun hmem => hknown ⟨rfl, hmem⟩
  nodup other := by
    rw [ranges_addRange]
    split
    · next hnew =>
      rw [← List.concat_eq_append]
      exact (h.nodup other).concat (hnew.1 ▸ hnew.2)
    · exact h.nodup other
  first other := by
    have hbefore := (h.first other).imp fun hfirst => hfirst.append [(name, range)]
    rw [ranges_addRange]
    split
    · next hnew =>
      obtain ⟨rfl, hrange⟩ := hnew
      refine List.pairwise_append.2 ⟨hbefore, List.pairwise_singleton _ _, ?_⟩
      intro found hfound _ hsame
      obtain rfl := List.mem_singleton.1 hsame
      have hmet := (h.mem_iff other found).1 hfound
      exact (metBefore_of_notMem hmet fun hmem => hrange ((h.mem_iff other _).2 hmem)).append _
    · exact hbefore

theorem lists_foldl (met : List (String × RollRange)) :
    Lists (met.foldl addEntry []) met := by
  induction met using List.reverseRecOn with
  | nil => exact ⟨fun _ _ => by simp [RollTable.ranges, Register.get?],
      fun _ => List.nodup_nil, fun _ => List.Pairwise.nil⟩
  | append_singleton met entry ih =>
      rw [List.foldl_append]
      exact ih.addRange entry.1 entry.2

theorem addRoll_eq {rest : List Json} {found : Json × Json × Json}
    (hread : readRoll rest = some found) (hbounded : Bounded found) (table : RollTable) :
    ∃ entry, rollAt rest = some entry ∧ addRoll table found = .ok (addEntry table entry) := by
  obtain ⟨hnumber, hnumber'⟩ := isNumber_of_readRoll hread
  obtain ⟨least, hleast⟩ := (exists_toWhole_iff hnumber).2 hbounded.1
  obtain ⟨most, hmost⟩ := (exists_toWhole_iff hnumber').2 hbounded.2
  refine ⟨(found.1.display, ⟨least, most⟩), ?_, ?_⟩
  · rw [rollAt, hread]
    simp only [hleast, hmost]
  · rw [addRoll, hleast, hmost]
    rfl

theorem foldlM_addRoll {rests : List (List Json)}
    (hbounded : ∀ rest ∈ rests, ∀ found, readRoll rest = some found → Bounded found)
    (table : RollTable) : (rests.filterMap readRoll).foldlM addRoll table =
      .ok ((rests.filterMap rollAt).foldl addEntry table) := by
  induction rests generalizing table with
  | nil => rfl
  | cons rest rests ih =>
      have hrests := ih fun other hother => hbounded other (List.mem_cons_of_mem _ hother)
      cases hread : readRoll rest with
      | none =>
          rw [List.filterMap_cons_none hread, List.filterMap_cons_none (by rw [rollAt, hread])]
          exact hrests table
      | some found =>
          obtain ⟨entry, hroll, hadd⟩ :=
            addRoll_eq hread (hbounded rest List.mem_cons_self found hread) table
          rw [List.filterMap_cons_some hread, List.filterMap_cons_some hroll, List.foldlM_cons,
            hadd, List.foldl_cons]
          exact hrests _

theorem bounded_of_readRoll {document : Json} (finite : document.FiniteNumbers)
    {spot : Spot} {rest : List Json} (h : (spot, rest) ∈ restsIn document)
    {found : Json × Json × Json} (hread : readRoll rest = some found) : Bounded found := by
  obtain ⟨before, hway, -⟩ := mem_restsIn_iff.1 h
  obtain ⟨value, least, most⟩ := found
  obtain ⟨fields, after, rfl, -⟩ := readRoll_eq_some.1 hread
  have hitems := finiteNumbers_arr.1 (finite.of_at? hway)
  have hleast : least.FiniteNumbers := hitems least (by simp)
  have hmost : most.FiniteNumbers := hitems most (by simp)
  exact ⟨(finiteNumbers_iff.1 hleast).1, (finiteNumbers_iff.1 hmost).1⟩

theorem rollsOf_eq {document : Json} (finite : document.FiniteNumbers) :
    rollsOf document = .ok (((rollsIn document).map Prod.snd).foldl addEntry []) := by
  have hmap : (rollsIn document).map Prod.snd =
      ((restsIn document).map Prod.snd).filterMap rollAt := by
    rw [rollsIn, List.map_filterMap, List.filterMap_map]
    refine congrArg (List.filterMap · _) (funext fun entry => ?_)
    rw [Option.map_map]
    exact Option.map_id'
  rw [rollsOf, occurrences, ← map_snd_restsIn, hmap]
  refine foldlM_addRoll (fun rest hrest found hread => ?_) []
  obtain ⟨entry, hentry, rfl⟩ := List.mem_map.1 hrest
  exact bounded_of_readRoll finite hentry hread

/-! ### The search as a loop -/

/-- Six items in a row, from each place where so many follow. -/
def windows (items : List Json) : List (List Json) :=
  (List.range (items.length - 5)).map fun start => (items.drop start).take 6

def noteWindow (table : RollTable) (window : List Json) : Except Fault RollTable :=
  match readRoll window with
  | some found => addRoll table found
  | none => .ok table

/-- Goes over the windows of the lists that a stack yields. -/
def rollsByWindow (document : Json) : Except Fault RollTable :=
  (listsFrom [document]).foldlM (fun table items => (windows items).foldlM noteWindow table) []

theorem readRoll_take (items : List Json) : readRoll (items.take 6) = readRoll items := by
  have hsame (found : Json × Json × Json) :
      readRoll (items.take 6) = some found ↔ readRoll items = some found := by
    obtain ⟨value, least, most⟩ := found
    rw [readRoll_eq_some, readRoll_eq_some]
    constructor
    · rintro ⟨fields, after, hitems, hfound⟩
      refine ⟨fields, after ++ items.drop 6, ?_, hfound⟩
      rw [← List.append_assoc, ← hitems, List.take_append_drop]
    · rintro ⟨fields, after, rfl, hfound⟩
      exact ⟨fields, [], rfl, hfound⟩
  exact Option.ext hsame

theorem readRoll_eq_none {items : List Json} (h : items.length < 6) : readRoll items = none := by
  refine Option.eq_none_iff_forall_ne_some.2 fun ⟨value, least, most⟩ hread => ?_
  obtain ⟨fields, after, rfl, -⟩ := readRoll_eq_some.1 hread
  rw [List.length_append] at h
  exact absurd h (by simp)

theorem windows_cons {item : Json} {items : List Json} (h : 5 ≤ items.length) :
    windows (item :: items) = (item :: items).take 6 :: windows items := by
  have hlength : (item :: items).length - 5 = (items.length - 5) + 1 := by
    rw [List.length_cons]
    omega
  rw [windows, hlength, List.range_succ_eq_map, List.map_cons, List.map_map]
  rfl

theorem windows_of_lt {items : List Json} (h : items.length < 6) : windows items = [] := by
  rw [windows, show items.length - 5 = 0 by omega]
  rfl

theorem filterMap_windows (items : List Json) :
    (windows items).filterMap readRoll = (tails items).filterMap readRoll := by
  induction items with
  | nil => rfl
  | cons item items ih =>
      rw [tails]
      by_cases hlength : 5 ≤ items.length
      · rw [windows_cons hlength, List.filterMap_cons, List.filterMap_cons, readRoll_take, ih]
      · have hshort : (item :: items).length < 6 := by
          rw [List.length_cons]
          omega
        rw [windows_of_lt hshort, List.filterMap_cons_none (readRoll_eq_none hshort), ← ih,
          windows_of_lt (by omega)]

theorem foldlM_noteWindow (rests : List (List Json)) (table : RollTable) :
    rests.foldlM noteWindow table = (rests.filterMap readRoll).foldlM addRoll table := by
  induction rests generalizing table with
  | nil => rfl
  | cons rest rests ih =>
      rw [List.foldlM_cons, noteWindow]
      cases hread : readRoll rest with
      | none =>
          rw [List.filterMap_cons_none hread]
          exact ih table
      | some found =>
          rw [List.filterMap_cons_some hread, List.foldlM_cons]
          exact bind_congr ih

theorem foldlM_windows (lists : List (List Json)) (table : RollTable) :
    lists.foldlM (fun table items => (windows items).foldlM noteWindow table) table =
      ((lists.flatMap tails).filterMap readRoll).foldlM addRoll table := by
  induction lists generalizing table with
  | nil => rfl
  | cons items lists ih =>
      rw [List.foldlM_cons, List.flatMap_cons, List.filterMap_append, List.foldlM_append,
        ← filterMap_windows, foldlM_noteWindow]
      exact bind_congr ih

theorem rollsByWindow_eq (document : Json) : rollsByWindow document = rollsOf document := by
  rw [rollsByWindow, listsFrom_eq, List.flatMap_singleton, foldlM_windows]
  rfl

/-! ### What is listed -/

theorem exists_first {found : List (Spot × String × RollRange)}
    (sorted : found.Pairwise fun one other => one.1.Precedes other.1)
    {entry other : String × RollRange} (h : MetBefore (found.map Prod.snd) entry other)
    (hne : entry ≠ other) :
    ∃ spot, (spot, entry) ∈ found ∧ ∀ later, (later, other) ∈ found → spot.Precedes later := by
  obtain ⟨before, after, hmet, hnot⟩ := h
  obtain ⟨front, back, rfl, rfl, hback⟩ := List.map_eq_append_iff.1 hmet
  obtain ⟨⟨spot, _⟩, back, rfl, rfl, rfl⟩ := List.map_eq_cons_iff.1 hback
  refine ⟨spot, List.mem_append_right _ List.mem_cons_self, fun later hlater => ?_⟩
  rcases List.mem_append.1 hlater with hfront | hrest
  · exact absurd (List.mem_map_of_mem hfront) hnot
  · rcases List.mem_cons.1 hrest with heq | hmem
    · exact absurd (congrArg Prod.snd heq).symm hne
    · exact (List.pairwise_cons.1 (List.pairwise_append.1 sorted).2.1).1 _ hmem

/-- The table has exactly the ranges of the rolls in the document, each once, and a range before
another if the first of its rolls is found before all rolls of the other. -/
structure RollsListed (document : Json) (table : RollTable) : Prop where
  mem_iff : ∀ name range, range ∈ table.ranges name ↔ ∃ spot, SetsRoll document spot name range
  nodup : ∀ name, (table.ranges name).Nodup
  first : ∀ name, (table.ranges name).Pairwise fun range other =>
    ∃ spot, SetsRoll document spot name range ∧
      ∀ later, SetsRoll document later name other → spot.Precedes later

theorem rollsListed {document : Json} (finite : document.FiniteNumbers) :
    ∃ table, rollsOf document = .ok table ∧ RollsListed document table := by
  have hlists := lists_foldl ((rollsIn document).map Prod.snd)
  refine ⟨_, rollsOf_eq finite, fun name range => ?_, hlists.nodup, fun name => ?_⟩
  · rw [hlists.mem_iff]
    simp only [← mem_rollsIn_iff, List.mem_map, Prod.exists, exists_eq_right]
  · refine ((hlists.nodup name).and (hlists.first name)).imp fun {range other} hboth => ?_
    obtain ⟨spot, hspot, hprecedes⟩ := exists_first (pairwise_rollsIn document) hboth.2
      fun hsame => hboth.1 (congrArg Prod.snd hsame)
    exact ⟨spot, mem_rollsIn_iff.1 hspot,
      fun later hlater => hprecedes later (mem_rollsIn_iff.2 hlater)⟩

/-- In a document with finite numbers the search, as a loop or by recursion, finds every roll and lists
its range once, in the order in which the ranges are first found. -/
theorem rollsOf_listed (document : Json) (finite : document.FiniteNumbers) :
    rollsByWindow document = rollsOf document ∧
      ∃ table, rollsOf document = .ok table ∧ RollsListed document table :=
  ⟨rollsByWindow_eq document, rollsListed finite⟩

def compiledRoll (name : String) (least most : Int) : List Json :=
  [.str "ev", .int least, .int most, .str "rnd", .str "/ev", .obj [("VAR=", .str name)]]

/-- Two rolls for gold, the first of them in a list that stands before the second. -/
def vault : Json :=
  .obj [("root", .arr (.arr (compiledRoll "gold" 1 2) :: compiledRoll "gold" 3 4))]

theorem finiteNumbers_vault : vault.FiniteNumbers := by
  simp [vault, compiledRoll, finiteNumbers_obj, finiteNumbers_arr, finiteNumbers_int,
    finiteNumbers_str]

theorem rollsOf_vault : rollsOf vault = .ok [("gold", [⟨3, 4⟩, ⟨1, 2⟩])] := rfl

theorem rollsOf_listed_vault : vault.FiniteNumbers ∧ rollsByWindow vault = rollsOf vault ∧
    RollsListed vault [("gold", [⟨3, 4⟩, ⟨1, 2⟩])] := by
  obtain ⟨hloop, table, htable, hlisted⟩ := rollsOf_listed vault finiteNumbers_vault
  rw [rollsOf_vault] at htable
  rw [Except.ok.inj htable]
  exact ⟨finiteNumbers_vault, hloop, hlisted⟩

/-- The roll that is written first is listed last. -/
theorem not_textOrder_vault : ¬∀ document table, document.FiniteNumbers →
    rollsOf document = .ok table → ∀ name, (table.ranges name).Pairwise fun range other =>
      ∃ spot, SetsRoll document spot name range ∧
        ∀ later, SetsRoll document later name other → spot.position < later.position := by
  intro h
  have horder := h vault _ finiteNumbers_vault rollsOf_vault "gold"
  have hranges : RollTable.ranges [("gold", [⟨3, 4⟩, ⟨1, 2⟩])] "gold" = [⟨3, 4⟩, ⟨1, 2⟩] := rfl
  have hrolls : rollsIn vault =
      [(⟨[0], 1⟩, "gold", ⟨3, 4⟩), (⟨[0, 0], 0⟩, "gold", ⟨1, 2⟩)] := rfl
  rw [hranges] at horder
  obtain ⟨spot, hspot, hfirst⟩ := List.rel_of_pairwise_cons horder List.mem_cons_self
  have hinner : SetsRoll vault ⟨[0, 0], 0⟩ "gold" ⟨1, 2⟩ := by
    rw [← mem_rollsIn_iff, hrolls]
    exact List.mem_cons_of_mem _ List.mem_cons_self
  have houter : spot = ⟨[0], 1⟩ := by
    rw [← mem_rollsIn_iff, hrolls] at hspot
    simpa using hspot
  have hless := hfirst _ hinner
  rw [houter] at hless
  exact absurd hless (by decide)

end Bytecode

end StoryAtlas
