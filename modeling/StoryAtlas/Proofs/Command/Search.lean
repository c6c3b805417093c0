import StoryAtlas.Proofs.Command.Seam

/-!
# Searching a text for chains

The chains of a text are also found by a search that leaps from one group of arrows to the next. A
group has three arrows, or four where there are as many, so that a long run holds several. With each
group a chain is tried on the text behind the whole run. The search goes on behind the chain, or, if
there is none, behind the group alone, and then tries the same text again. So it finds the chains of
the scan, and it ends, as each turn takes it three places further.

The chains lie apart and in order. Three arrows lie within a chain, or apart from all chains in a
run behind which no chain can be read.
-/

namespace StoryAtlas.Chain

open Text Command

variable {text : List Char} {cursor place next first last turns : Nat} {chain : Chain}
  {chains : List Chain}

/-! ### The search -/

def ArrowsAt (text : List Char) (place : Nat) : Prop := ∀ i < 3, text[place + i]? = some '>'

instance : Decidable (ArrowsAt text place) :=
  inferInstanceAs (Decidable (∀ i < 3, text[place + i]? = some '>'))

/-- A group of three arrows, or of four where there are as many. -/
structure Sentinel where
  start : Nat
  stop : Nat
deriving DecidableEq, Repr

/-- The first sentinel at a place or behind it. -/
def sentinel? (text : List Char) (cursor : Nat) : Option Sentinel :=
  ((List.range' cursor (text.length - cursor)).find? fun place => ArrowsAt text place).map
    fun place => ⟨place, if text[place + 3]? = some '>' then place + 4 else place + 3⟩

/-- The place behind the arrows that stand at a place and go on from there. -/
def runEnd (text : List Char) (place : Nat) : Nat :=
  place + ((text.drop place).takeWhile isArrow).length

/-- Passes over the arrows that still follow a sentinel and reads a chain behind them. -/
def readFrom (text : List Char) (sentinel : Sentinel) : Option Chain :=
  let bodyAt := runEnd text sentinel.stop
  (readBody (text.drop bodyAt)).map fun found =>
    { start := sentinel.start
      stop := bodyAt + found.length
      commands := found.commands
      prose := found.prose }

/-- One turn of the search: the chain that is read, if any, and the place where the search goes on.
There is none if no sentinel is left. -/
def turn (text : List Char) (cursor : Nat) : Option (Option Chain × Nat) :=
  (sentinel? text cursor).map fun sentinel =>
    match readFrom text sentinel with
    | none => (none, sentinel.stop)
    | some chain => (some chain, max chain.stop sentinel.stop)

/-- The chains from a cursor on, if the search ends within so many turns. -/
def gather (text : List Char) : Nat → Nat → Option (List Chain)
  | 0, _ => none
  | turns + 1, cursor =>
    match turn text cursor with
    | none => some []
    | some (found, next) => (gather text turns next).map (found.toList ++ ·)

/-! ### Runs of arrows -/

theorem ArrowsAt.lt_length (h : ArrowsAt text place) : place + 2 < text.length :=
  (List.getElem?_eq_some_iff.1 (h 2 (by omega))).1

theorem le_runEnd (text : List Char) (place : Nat) : place ≤ runEnd text place :=
  Nat.le_add_right place _

theorem drop_runEnd (text : List Char) (place : Nat) :
    text.drop (runEnd text place) = (text.drop place).dropWhile isArrow := by
  rw [runEnd, ← List.drop_drop, drop_length_takeWhile]

theorem drop_of_arrow (h : text[place]? = some '>') :
    text.drop place = '>' :: text.drop (place + 1) := by
  obtain ⟨hlt, hget⟩ := List.getElem?_eq_some_iff.1 h
  rw [List.drop_eq_getElem_cons hlt, hget]

theorem runEnd_of_arrow (h : text[place]? = some '>') :
    runEnd text place = runEnd text (place + 1) := by
  rw [runEnd, runEnd, drop_of_arrow h, List.takeWhile_cons_of_pos rfl, List.length_cons]
  omega

theorem runEnd_congr (hle : place ≤ next)
    (h : ∀ i, place ≤ i → i < next → text[i]? = some '>') :
    runEnd text place = runEnd text next := by
  induction next, hle using Nat.le_induction with
  | base => rfl
  | succ next hle ih =>
      rw [ih fun i hi hlt => h i hi (by omega)]
      exact runEnd_of_arrow (h next hle (by omega))

theorem ArrowsAt.arrow (h : ArrowsAt text place) (hle : place ≤ next) (hlt : next < place + 3) :
    text[next]? = some '>' := by
  obtain ⟨i, rfl⟩ := Nat.exists_eq_add_of_le hle
  exact h i (by omega)

theorem ArrowsAt.runEnd_eq (h : ArrowsAt text place) (hle : place ≤ next)
    (hnext : next ≤ place + 3) : runEnd text place = runEnd text next :=
  runEnd_congr hle fun _ hi hlt => h.arrow hi (by omega)

theorem ArrowsAt.add_three_le (h : ArrowsAt text place) : place + 3 ≤ runEnd text place := by
  rw [h.runEnd_eq (Nat.le_add_right place 3) le_rfl]
  exact le_runEnd text (place + 3)

theorem arrow_of_lt_runEnd (hle : place ≤ next) (hlt : next < runEnd text place) :
    text[next]? = some '>' := by
  obtain ⟨i, rfl⟩ := Nat.exists_eq_add_of_le hle
  have hi : i < ((text.drop place).takeWhile isArrow).length := Nat.lt_of_add_lt_add_left hlt
  have harrow : isArrow ((text.drop place).takeWhile isArrow)[i] = true :=
    List.mem_takeWhile_imp (List.getElem_mem hi)
  rw [← List.getElem?_drop, ← @List.takeWhile_append_dropWhile _ isArrow (text.drop place),
    List.getElem?_append_left hi, List.getElem?_eq_getElem hi, beq_iff_eq.1 harrow]

theorem runEnd_le_length (h : place ≤ text.length) : runEnd text place ≤ text.length := by
  have hle := (List.takeWhile_prefix (l := text.drop place) isArrow).length_le
  rw [List.length_drop] at hle
  rw [runEnd]
  omega

/-- A longest run of arrows, from its first place up to the place behind it. -/
structure Run (text : List Char) (first last : Nat) : Prop where
  arrows : ∀ i, first ≤ i → i < last → text[i]? = some '>'
  before : ∀ i, i + 1 = first → text[i]? ≠ some '>'
  behind : text[last]? ≠ some '>'

theorem not_arrow_runEnd (text : List Char) (place : Nat) :
    text[runEnd text place]? ≠ some '>' := by
  intro h
  have hdrop := drop_of_arrow h
  rw [drop_runEnd] at hdrop
  have hstops := stops_dropWhile isArrow (text.drop place)
  rw [hdrop] at hstops
  exact absurd (stops_cons.1 hstops) (by decide)

theorem exists_run (text : List Char) (place : Nat) :
    ∃ first ≤ place, Run text first (runEnd text place) := by
  induction place with
  | zero =>
      exact ⟨0, le_rfl, fun i => arrow_of_lt_runEnd, fun i hi => absurd hi (Nat.succ_ne_zero i),
        not_arrow_runEnd text 0⟩
  | succ place ih =>
      by_cases h : text[place]? = some '>'
      · obtain ⟨first, hfirst, hrun⟩ := ih
        exact ⟨first, Nat.le_succ_of_le hfirst, runEnd_of_arrow h ▸ hrun⟩
      · refine ⟨place + 1, le_rfl, fun i => arrow_of_lt_runEnd, fun i hi => ?_,
          not_arrow_runEnd text (place + 1)⟩
        rwa [Nat.succ.inj hi]

/-- The chain that starts at a place and says what was read behind the arrows there. -/
def chainAt (text : List Char) (place : Nat) (found : Body) : Chain where
  start := place
  stop := runEnd text place + found.length
  commands := found.commands
  prose := found.prose

/-! ### The next sentinel -/

structure Sentinel.Next (text : List Char) (cursor : Nat) (sentinel : Sentinel) : Prop where
  cursor_le : cursor ≤ sentinel.start
  arrows : ArrowsAt text sentinel.start
  first : ∀ place, cursor ≤ place → ArrowsAt text place → sentinel.start ≤ place
  long : sentinel.start + 3 ≤ sentinel.stop
  run : ∀ i, sentinel.start ≤ i → i < sentinel.stop → text[i]? = some '>'

theorem next_of_sentinel? {sentinel : Sentinel} (h : sentinel? text cursor = some sentinel) :
    sentinel.Next text cursor := by
  obtain ⟨start, hfind, rfl⟩ := Option.map_eq_some_iff.1 h
  obtain ⟨harrows, hrange, hbefore⟩ := List.find?_range'_eq_some.1 hfind
  have harrows : ArrowsAt text start := of_decide_eq_true harrows
  refine ⟨(List.mem_range'_1.1 hrange).1, harrows, fun place hle hplace => ?_, ?_,
    fun i hle hlt => ?_⟩
  · by_contra hlt
    have hnone := hbefore place hle (Nat.lt_of_not_le hlt)
    rw [decide_eq_true hplace] at hnone
    cases hnone
  · dsimp only
    split <;> omega
  · by_cases hi : i < start + 3
    · exact harrows.arrow hle hi
    · -- only a fourth arrow is left
      dsimp only at hlt
      split at hlt
      · next hfourth =>
        rwa [show i = start + 3 by omega]
      · exact absurd hlt hi

theorem not_arrowsAt_of_sentinel? (h : sentinel? text cursor = none) (hle : cursor ≤ place) :
    ¬ArrowsAt text place := by
  intro harrows
  have hlt := harrows.lt_length
  have hnone := List.find?_range'_eq_none.1 (Option.map_eq_none_iff.1 h) place hle (by omega)
  rw [decide_eq_true harrows] at hnone
  cases hnone

namespace Sentinel.Next

variable {sentinel : Sentinel}

theorem start_le_stop (h : sentinel.Next text cursor) :
    sentinel.start ≤ sentinel.stop :=
  (Nat.le_add_right _ 3).trans h.long

theorem runEnd_eq (h : sentinel.Next text cursor) (hle : sentinel.start ≤ place)
    (hstop : place ≤ sentinel.stop) : runEnd text place = runEnd text sentinel.start :=
  (runEnd_congr hle fun i hi hlt => h.run i hi (by omega)).symm

theorem stop_le (h : sentinel.Next text cursor) :
    sentinel.stop ≤ runEnd text sentinel.start := by
  rw [← h.runEnd_eq h.start_le_stop le_rfl]
  exact le_runEnd text sentinel.stop

/-- A sentinel is refused if no chain can be read behind its run. -/
theorem refused (h : sentinel.Next text cursor)
    (hread : readFrom text sentinel = none) :
    readBody (text.drop (runEnd text sentinel.start)) = none := by
  rw [← h.runEnd_eq h.start_le_stop le_rfl]
  exact Option.map_eq_none_iff.1 hread

theorem found (h : sentinel.Next text cursor)
    (hread : readFrom text sentinel = some chain) :
    ∃ found, readBody (text.drop (runEnd text sentinel.start)) = some found ∧
      chain = chainAt text sentinel.start found := by
  have hrun := h.runEnd_eq h.start_le_stop le_rfl
  obtain ⟨found, hbody, rfl⟩ := Option.map_eq_some_iff.1 hread
  exact ⟨found, hrun ▸ hbody, by rw [hrun]; rfl⟩

end Sentinel.Next

/-! ### Where a chain stands -/

/-- The chain starts with three arrows and is read from the text behind them. -/
inductive Stands (text : List Char) : Chain → Prop where
  | intro {place : Nat} {found : Body} (arrows : ArrowsAt text place)
      (body : readBody (text.drop (runEnd text place)) = some found) :
      Stands text (chainAt text place found)

namespace Stands

theorem arrowsAt (h : Stands text chain) : ArrowsAt text chain.start := by
  cases h with
  | intro arrows body => exact arrows

theorem not_refused (h : Stands text chain) :
    readBody (text.drop (runEnd text chain.start)) ≠ none := by
  cases h with
  | intro arrows body =>
      intro hnone
      cases hnone.symm.trans body

theorem start_lt_stop (h : Stands text chain) : chain.start < chain.stop := by
  cases h with
  | intro arrows body =>
      have hrun := arrows.add_three_le
      simp only [chainAt]
      omega

theorem stop_le_length (h : Stands text chain) : chain.stop ≤ text.length := by
  cases h with
  | @intro place found arrows body =>
      have hfound := (readBody_joint body).1
      have hplace := arrows.lt_length
      have hrun : runEnd text place ≤ text.length := runEnd_le_length (by omega)
      rw [List.length_drop] at hfound
      simp only [chainAt]
      omega

theorem not_arrow_stop (h : Stands text chain) :
    text[chain.stop]? ≠ some '>' ∨ text[chain.stop - 1]? = some ' ' := by
  cases h with
  | @intro place found arrows body =>
      obtain ⟨hle, hbreak | ⟨-, front, hfront⟩⟩ := readBody_joint body
      · refine .inl fun hstop => ?_
        simp only [chainAt] at hstop
        rw [List.drop_drop, drop_of_arrow hstop] at hbreak
        exact absurd (stops_cons.1 hbreak) (by decide)
      · -- the space is the last character of the pause
        have hlength : found.length = front.length + 2 := by
          rw [← Nat.min_eq_left hle, ← List.length_take, ← hfront, List.length_append]
          rfl
        have hspace : (front ++ pause)[front.length + 1]? = some ' ' := by
          rw [List.getElem?_append_right (Nat.le_succ _), Nat.succ_sub le_rfl, Nat.sub_self]
          rfl
        rw [hfront, List.getElem?_take_of_lt (by omega), List.getElem?_drop] at hspace
        right
        rw [← hspace, chainAt, hlength]
        rfl

/-- No three arrows lie across the end of a chain. -/
theorem add_three_le_stop (h : Stands text chain) (harrows : ArrowsAt text place)
    (hlt : place < chain.stop) : place + 3 ≤ chain.stop := by
  by_contra hacross
  have hstop := harrows.arrow hlt.le (Nat.lt_of_not_le hacross)
  have hlast := harrows.arrow (Nat.le_sub_one_of_lt hlt) (by omega)
  rcases h.not_arrow_stop with hnone | hspace
  · exact hnone hstop
  · rw [hlast] at hspace
    exact absurd hspace (by decide)

end Stands

/-! ### The search against the scan -/

def scanAt (text : List Char) (place : Nat) : List Chain := scanFrom place (text.drop place)

theorem opens_iff_arrowsAt {c : Char} {cs : List Char} (h : text.drop place = c :: cs) :
    opens c cs = true ↔ ArrowsAt text place := by
  have hnext (i : Nat) : text[place + (i + 1)]? = cs[i]? := by
    rw [← List.getElem?_drop, h, List.getElem?_cons_succ]
  have hfirst : text[place + 0]? = some c := by
    rw [← List.getElem?_drop, h, List.getElem?_cons_zero]
  have harrow (i : Nat) : isArrow (cs[i]?.getD ' ') = true ↔ cs[i]? = some '>' := by
    cases cs[i]? <;> simp [isArrow]
  rw [opens, Bool.and_eq_true, Bool.and_eq_true, harrow, harrow, ← hnext, ← hnext, isArrow,
    beq_iff_eq, ← Option.some.injEq, ← hfirst]
  constructor
  · rintro ⟨⟨h0, h1⟩, h2⟩ i hi
    obtain rfl | rfl | rfl : i = 0 ∨ i = 1 ∨ i = 2 := by omega
    · exact h0
    · exact h1
    · exact h2
  · exact fun hall => ⟨⟨hall 0 (by omega), hall 1 (by omega)⟩, hall 2 (by omega)⟩

theorem scanAt_of_not_arrowsAt (h : ¬ArrowsAt text place) :
    scanAt text place = scanAt text (place + 1) := by
  rw [scanAt, scanAt, ← List.drop_drop]
  cases hrest : text.drop place with
  | nil => simp [scanFrom]
  | cons c cs =>
      rw [← opens_iff_arrowsAt hrest, Bool.not_eq_true] at h
      rw [scanFrom_skip h]
      rfl

/-- What stands at three arrows, as the scan sees it. -/
theorem exists_of_arrowsAt (h : ArrowsAt text place) :
    ∃ cs, text.drop place = '>' :: cs ∧ opens '>' cs = true ∧
      text.drop (runEnd text place) = cs.dropWhile isArrow ∧
      runEnd text place = place + 1 + (cs.takeWhile isArrow).length := by
  have hrest := drop_of_arrow (h.arrow le_rfl (by omega))
  refine ⟨_, hrest, (opens_iff_arrowsAt hrest).2 h, ?_, ?_⟩
  · rw [drop_runEnd, hrest, List.dropWhile_cons_of_pos rfl]
  · rw [runEnd, hrest, List.takeWhile_cons_of_pos rfl, List.length_cons]
    omega

theorem scanAt_of_found {found : Body} (h : ArrowsAt text place)
    (hbody : readBody (text.drop (runEnd text place)) = some found) :
    scanAt text place =
      chainAt text place found :: scanAt text (chainAt text place found).stop := by
  obtain ⟨cs, hrest, hopens, hbehind, hend⟩ := exists_of_arrowsAt h
  rw [scanAt, scanAt, chainAt, ← List.drop_drop, hrest, scanFrom_found hopens (hbehind ▸ hbody),
    hbehind, hend]

/-- From any place of a run that is refused, the scan goes on behind the run. -/
theorem scanAt_of_refused (hbody : readBody (text.drop (runEnd text place)) = none) :
    scanAt text place = scanAt text (runEnd text place) := by
  induction hlength : runEnd text place - place generalizing place with
  | zero => rw [Nat.le_antisymm (Nat.sub_eq_zero_iff_le.1 hlength) (le_runEnd text place)]
  | succ length ih =>
      have harrow : text[place]? = some '>' := arrow_of_lt_runEnd le_rfl (by omega)
      by_cases h : ArrowsAt text place
      · obtain ⟨cs, hrest, hopens, hbehind, hend⟩ := exists_of_arrowsAt h
        rw [scanAt, scanAt, hrest, scanFrom_refused hopens (hbehind ▸ hbody), hbehind, hend]
      · -- one or two arrows are left of the run
        rw [runEnd_of_arrow harrow] at hbody hlength ⊢
        rw [scanAt_of_not_arrowsAt h]
        exact ih hbody (by omega)

theorem scanAt_congr (hle : place ≤ next) (h : ∀ i, place ≤ i → i < next → ¬ArrowsAt text i) :
    scanAt text place = scanAt text next := by
  induction next, hle using Nat.le_induction with
  | base => rfl
  | succ next hle ih =>
      rw [ih fun i hi hlt => h i hi (by omega)]
      exact scanAt_of_not_arrowsAt (h next hle (by omega))

theorem Sentinel.Next.scanAt_eq {sentinel : Sentinel} (h : sentinel.Next text cursor) :
    scanAt text cursor = scanAt text sentinel.start :=
  scanAt_congr h.cursor_le fun i hi hlt harrows =>
    Nat.not_le_of_lt hlt (h.first i hi harrows)

/-- What a turn of the search can do: no three arrows are left, or a run is refused and its next
sentinel is skipped, or a chain is read. -/
inductive Turned (text : List Char) (cursor : Nat) : Option (Option Chain × Nat) → Prop where
  | finished (none_left : ∀ place, cursor ≤ place → ¬ArrowsAt text place) : Turned text cursor none
  | refused (sentinel : Sentinel) (next : sentinel.Next text cursor)
      (body : readBody (text.drop (runEnd text sentinel.start)) = none) :
      Turned text cursor (some (none, sentinel.stop))
  | found (sentinel : Sentinel) (next : sentinel.Next text cursor) (found : Body)
      (body : readBody (text.drop (runEnd text sentinel.start)) = some found) :
      Turned text cursor (some (some (chainAt text sentinel.start found),
        (chainAt text sentinel.start found).stop))

theorem turned (text : List Char) (cursor : Nat) : Turned text cursor (turn text cursor) := by
  unfold turn
  cases hnext : sentinel? text cursor with
  | none => exact .finished fun place => not_arrowsAt_of_sentinel? hnext
  | some sentinel =>
      have h := next_of_sentinel? hnext
      rw [Option.map_some]
      cases hread : readFrom text sentinel with
      | none => exact .refused sentinel h (h.refused hread)
      | some chain =>
          obtain ⟨found, hbody, rfl⟩ := h.found hread
          have hstop : sentinel.stop ≤ (chainAt text sentinel.start found).stop :=
            h.stop_le.trans (Nat.le_add_right _ _)
          dsimp only
          rw [Nat.max_eq_left hstop]
          exact .found sentinel h found hbody

/-- Each turn moves the search on by three places or more, and not beyond the text. -/
theorem Turned.moves {found : Option Chain} (h : Turned text cursor (some (found, next))) :
    cursor + 3 ≤ next ∧ next ≤ text.length := by
  cases h with
  | refused sentinel next body =>
      have hstart := next.arrows.lt_length
      have hend : runEnd text sentinel.start ≤ text.length := runEnd_le_length (by omega)
      exact ⟨(Nat.add_le_add_right next.cursor_le 3).trans next.long, next.stop_le.trans hend⟩
  | found sentinel next found body =>
      have hstands := Stands.intro next.arrows body
      refine ⟨(Nat.add_le_add_right next.cursor_le 3).trans ?_, hstands.stop_le_length⟩
      exact next.arrows.add_three_le.trans (Nat.le_add_right _ _)

/-- A search with a turn for every three characters ends, with the chains of the scan. -/
theorem gather_eq (h : (text.length - cursor) / 3 < turns) :
    gather text turns cursor = some (scanAt text cursor) := by
  induction turns generalizing cursor with
  | zero => exact absurd h (Nat.not_lt_zero _)
  | succ turns ih =>
      have hturned := turned text cursor
      rw [gather]
      generalize turn text cursor = outcome at hturned ⊢
      cases hturned with
      | finished none_left =>
          have hend : scanAt text cursor = scanAt text (cursor + text.length) :=
            scanAt_congr (Nat.le_add_right _ _) fun i hi _ => none_left i hi
          rw [hend, scanAt, List.drop_of_length_le (Nat.le_add_left _ _), scanFrom]
      | refused sentinel next body =>
          have hmoves := (Turned.refused sentinel next body).moves
          have hrun := next.runEnd_eq next.start_le_stop le_rfl
          dsimp only
          rw [ih (by omega), next.scanAt_eq, scanAt_of_refused body, ← hrun,
            ← scanAt_of_refused (hrun ▸ body)]
          rfl
      | found sentinel next found body =>
          have hmoves := (Turned.found sentinel next found body).moves
          dsimp only
          rw [ih (by omega), next.scanAt_eq, scanAt_of_found next.arrows body]
          rfl

/-! ### Chains that stand apart -/

/-- What the search says of the text from a cursor on: its chains stand there, one behind the other,
and three arrows that are in none of them are refused. -/
structure Searched (text : List Char) (cursor : Nat) (chains : List Chain) : Prop where
  cursor_le : ∀ chain ∈ chains, cursor ≤ chain.start
  stands : ∀ chain ∈ chains, Stands text chain
  ordered : chains.Pairwise fun one other => one.stop ≤ other.start
  refused : ∀ place, cursor ≤ place → ArrowsAt text place →
    (∃ chain ∈ chains, chain.start ≤ place ∧ place < chain.stop) ∨
      readBody (text.drop (runEnd text place)) = none

namespace Searched

theorem nil (h : ∀ place, cursor ≤ place → ¬ArrowsAt text place) : Searched text cursor [] where
  cursor_le _ hchain := absurd hchain List.not_mem_nil
  stands _ hchain := absurd hchain List.not_mem_nil
  ordered := .nil
  refused place hle harrows := absurd harrows (h place hle)

theorem skip {sentinel : Sentinel} (next : sentinel.Next text cursor)
    (body : readBody (text.drop (runEnd text sentinel.start)) = none)
    (h : Searched text sentinel.stop chains) : Searched text cursor chains where
  cursor_le chain hchain :=
    (next.cursor_le.trans next.start_le_stop).trans (h.cursor_le chain hchain)
  stands := h.stands
  ordered := h.ordered
  refused place hle harrows := by
    by_cases hstop : sentinel.stop ≤ place
    · exact h.refused place hstop harrows
    · -- the arrows are of the run that the sentinel begins
      rw [next.runEnd_eq (next.first place hle harrows) (Nat.le_of_not_le hstop)]
      exact .inr body

theorem cons {sentinel : Sentinel} {found : Body} (next : sentinel.Next text cursor)
    (body : readBody (text.drop (runEnd text sentinel.start)) = some found)
    (h : Searched text (chainAt text sentinel.start found).stop chains) :
    Searched text cursor (chainAt text sentinel.start found :: chains) := by
  have hstands : Stands text (chainAt text sentinel.start found) := .intro next.arrows body
  refine ⟨?_, ?_, ?_, fun place hle harrows => ?_⟩
  · rintro chain (_ | ⟨_, hchain⟩)
    · exact next.cursor_le
    · exact (next.cursor_le.trans hstands.start_lt_stop.le).trans (h.cursor_le chain hchain)
  · rintro chain (_ | ⟨_, hchain⟩)
    · exact hstands
    · exact h.stands chain hchain
  · exact List.pairwise_cons.2 ⟨h.cursor_le, h.ordered⟩
  · by_cases hstop : (chainAt text sentinel.start found).stop ≤ place
    · refine (h.refused place hstop harrows).imp_left ?_
      rintro ⟨chain, hchain, hin⟩
      exact ⟨chain, List.mem_cons_of_mem _ hchain, hin⟩
    · exact .inl ⟨_, List.mem_cons_self, next.first place hle harrows, Nat.lt_of_not_le hstop⟩

theorem of_gather (h : gather text turns cursor = some chains) : Searched text cursor chains := by
  induction turns generalizing cursor chains with
  | zero => cases h
  | succ turns ih =>
      have hturned := turned text cursor
      rw [gather] at h
      generalize turn text cursor = outcome at hturned h
      cases hturned with
      | finished none_left =>
          cases h
          exact nil none_left
      | refused sentinel next body =>
          obtain ⟨others, hothers, rfl⟩ := Option.map_eq_some_iff.1 h
          exact (ih hothers).skip next body
      | found sentinel next found body =>
          obtain ⟨others, hothers, rfl⟩ := Option.map_eq_some_iff.1 h
          exact (ih hothers).cons next body

/-- Three arrows that are refused lie apart from all chains, as a chain that began among them would
be read from the same text. -/
theorem apart_of_refused (h : Searched text cursor chains) (harrows : ArrowsAt text place)
    (hnone : readBody (text.drop (runEnd text place)) = none) (hchain : chain ∈ chains)
    (hout : ¬(chain.start ≤ place ∧ place < chain.stop)) :
    place + 3 ≤ chain.start ∨ chain.stop ≤ place := by
  by_contra hmeet
  have hrun : runEnd text place = runEnd text chain.start :=
    harrows.runEnd_eq (by omega) (by omega)
  exact (h.stands chain hchain).not_refused (hrun ▸ hnone)

end Searched

/-- The search ends and finds chains that lie in the text, apart and in order. Three arrows lie
within one of them, or apart from all in a longest run behind which no chain can be read. -/
structure Tiled (text : List Char) : Prop where
  advances : ∀ cursor found next, turn text cursor = some (found, next) →
    cursor + 3 ≤ next ∧ next ≤ text.length
  /-- A turn for every three characters and one more are enough. -/
  ends : ∀ turns, text.length / 3 < turns → gather text turns 0 = some (all text)
  start_lt_stop : ∀ chain ∈ all text, chain.start < chain.stop
  arrows : ∀ chain ∈ all text, ArrowsAt text chain.start
  ordered : (all text).Pairwise fun one other => one.stop ≤ other.start
  stop_le_length : ∀ chain ∈ all text, chain.stop ≤ text.length
  arrows_cases : ∀ place, ArrowsAt text place →
    (∃ chain ∈ all text, chain.start ≤ place ∧ place + 3 ≤ chain.stop) ∨
    (∀ chain ∈ all text, place + 3 ≤ chain.start ∨ chain.stop ≤ place) ∧
      ∃ first last, Run text first last ∧ first ≤ place ∧ place + 3 ≤ last ∧
        readBody (text.drop last) = none

theorem gather_all (h : text.length / 3 < turns) : gather text turns 0 = some (all text) :=
  gather_eq h

theorem searched_all (text : List Char) : Searched text 0 (all text) :=
  .of_gather (gather_all (Nat.lt_succ_self (text.length / 3)))

theorem tiled (text : List Char) : Tiled text where
  advances cursor _ _ hturn := (hturn ▸ turned text cursor).moves
  ends _ := gather_all
  start_lt_stop chain hchain := ((searched_all text).stands chain hchain).start_lt_stop
  arrows chain hchain := ((searched_all text).stands chain hchain).arrowsAt
  ordered := (searched_all text).ordered
  stop_le_length chain hchain := ((searched_all text).stands chain hchain).stop_le_length
  arrows_cases place harrows := by
    have hsearched := searched_all text
    by_cases hin : ∃ chain ∈ all text, chain.start ≤ place ∧ place < chain.stop
    · obtain ⟨chain, hchain, hstart, hstop⟩ := hin
      exact .inl ⟨chain, hchain, hstart,
        (hsearched.stands chain hchain).add_three_le_stop harrows hstop⟩
    · have hnone := (hsearched.refused place (Nat.zero_le place) harrows).resolve_left hin
      obtain ⟨first, hfirst, hrun⟩ := exists_run text place
      refine .inr ⟨fun chain hchain => ?_, first, _, hrun, hfirst, harrows.add_three_le, hnone⟩
      exact hsearched.apart_of_refused harrows hnone hchain fun hout => hin ⟨chain, hchain, hout⟩

/-- A run of seven arrows is refused as four and again as three. -/
example : gather ">>>>>>>! >>>GOLD:5; now".toList 9 0 =
    some [{ start := 9, stop := 20, commands := [⟨"GOLD", some "5"⟩] }] := by
  decide +kernel

end StoryAtlas.Chain
