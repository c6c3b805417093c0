import StoryAtlas.Command.Effect
import StoryAtlas.Proofs.Command.Search

/-!
# What the chains leave of a text

The text without its chains is put together from the places where the chains start and end. Here it
is brought into the form of the scan: a character that starts no chain stays, and a chain leaves the
prose that it keeps.

It is also told as a whole. The chains cut the text into gaps, which have the places outside all
chains, and what is left are the gaps with the prose of a chain between every two.
-/

namespace StoryAtlas.Chain

open Text Command Extract

/-- The text with the chains cut out and their prose put in. -/
def rest (cs : List Char) : List Char := withoutChains cs 0 (all cs)

variable {front cs : List Char}

theorem withoutChains_shift (front cs : List Char) (cursor : Nat) (chains : List Chain) :
    withoutChains (front ++ cs) (front.length + cursor) (chains.map (shift front.length)) =
      withoutChains cs cursor chains := by
  induction chains generalizing cursor with
  | nil => simp [withoutChains]
  | cons chain chains ih =>
      rw [List.map_cons, withoutChains, withoutChains, List.drop_length_add_append,
        show (shift front.length chain).stop = front.length + chain.stop from rfl, ih,
        show (shift front.length chain).start = front.length + chain.start from rfl,
        Nat.add_sub_add_left]
      rfl

theorem withoutChains_append (front cs : List Char) {cursor : Nat} (h : cursor ≤ front.length)
    (chains : List Chain) :
    withoutChains (front ++ cs) cursor (chains.map (shift front.length)) =
      front.drop cursor ++ withoutChains cs 0 chains := by
  cases chains with
  | nil => simp [withoutChains, List.drop_append_of_le_length h]
  | cons chain chains =>
      have hstart : (shift front.length chain).start - cursor =
          (front.drop cursor).length + chain.start := by
        simp [shift]
        omega
      rw [List.map_cons, withoutChains, withoutChains,
        show (shift front.length chain).stop = front.length + chain.stop from rfl,
        withoutChains_shift, hstart, List.drop_append_of_le_length h, List.take_length_add_append]
      simp [shift]

theorem withoutChains_scanFrom (front cs : List Char) {cursor : Nat} (h : cursor ≤ front.length) :
    withoutChains (front ++ cs) cursor (scanFrom front.length cs) =
      front.drop cursor ++ rest cs := by
  rw [← Nat.add_zero front.length, scanFrom_add, withoutChains_append front cs h, rest, all]

section Step

variable {c : Char} {found : Body}

theorem rest_skip (h : opens c cs = false) : rest (c :: cs) = c :: rest cs := by
  rw [rest, all, scanFrom_skip h]
  exact withoutChains_scanFrom [c] cs (Nat.zero_le _)

theorem rest_found (h : opens c cs = true)
    (hbody : readBody (cs.dropWhile isArrow) = some found) :
    rest (c :: cs) = found.prose ++ rest ((cs.dropWhile isArrow).drop found.length) := by
  have hle := (readBody_joint hbody).1
  have hrun : cs.takeWhile isArrow ++ cs.dropWhile isArrow = cs := List.takeWhile_append_dropWhile
  have htext : (c :: cs.takeWhile isArrow ++ (cs.dropWhile isArrow).take found.length) ++
      (cs.dropWhile isArrow).drop found.length = c :: cs := by
    rw [List.append_assoc, List.take_append_drop, List.cons_append, hrun]
  have hstop : 0 + 1 + (cs.takeWhile isArrow).length + found.length =
      (c :: cs.takeWhile isArrow ++ (cs.dropWhile isArrow).take found.length).length := by
    simp
    omega
  rw [rest, all, scanFrom_found h hbody, withoutChains, hstop]
  conv_lhs => rw [← htext]
  rw [withoutChains_scanFrom _ _ le_rfl]
  simp

end Step

/-! ### Between the chains -/

/-- No chain covers the place. -/
def Outside (chains : List Chain) (place : Nat) : Prop :=
  ∀ chain ∈ chains, place < chain.start ∨ chain.stop ≤ place

instance (chains : List Chain) (place : Nat) : Decidable (Outside chains place) :=
  inferInstanceAs (Decidable (∀ chain ∈ chains, place < chain.start ∨ chain.stop ≤ place))

/-- The places before, between and behind the chains, from a cursor up to the size of the text. -/
def gaps (size : Nat) : Nat → List Chain → List (List Nat)
  | cursor, [] => [List.range' cursor (size - cursor)]
  | cursor, chain :: chains =>
    List.range' cursor (chain.start - cursor) :: gaps size chain.stop chains

def charsAt (text : List Char) (places : List Nat) : List Char :=
  places.filterMap fun place => text[place]?

/-- Pieces with a filler between every two. -/
def weave : List (List Char) → List (List Char) → List Char
  | [], _ => []
  | piece :: pieces, [] => piece ++ weave pieces []
  | piece :: pieces, filler :: fillers => piece ++ filler ++ weave pieces fillers

theorem charsAt_range' (text : List Char) (place count : Nat) :
    charsAt text (List.range' place count) = (text.drop place).take count := by
  induction count generalizing place with
  | zero => rfl
  | succ count ih =>
      rw [List.range'_succ, charsAt, List.filterMap_cons, ← charsAt, ih]
      by_cases h : place < text.length
      · rw [List.getElem?_eq_getElem h, List.drop_eq_getElem_cons h, List.take_succ_cons]
      · rw [List.getElem?_eq_none (by omega), List.drop_eq_nil_of_le (by omega),
          List.drop_eq_nil_of_le (by omega)]
        simp

theorem withoutChains_eq_weave (text : List Char) (cursor : Nat) (chains : List Chain) :
    withoutChains text cursor chains =
      weave ((gaps text.length cursor chains).map (charsAt text)) (chains.map Chain.prose) := by
  induction chains generalizing cursor with
  | nil =>
      rw [withoutChains, gaps, List.map_singleton, charsAt_range', List.map_nil, weave, weave,
        List.append_nil, List.take_of_length_le (List.length_drop ▸ le_rfl)]
  | cons chain chains ih =>
      rw [withoutChains, gaps, List.map_cons, List.map_cons, weave, charsAt_range', ih]

theorem range'_cut {first middle last : Nat} (hfirst : first ≤ middle) (hlast : middle ≤ last) :
    List.range' first (last - first) =
      List.range' first (middle - first) ++ List.range' middle (last - middle) := by
  have happend := @List.range'_append_1 first (middle - first) (last - middle)
  rw [Nat.add_sub_of_le hfirst] at happend
  rw [happend, show middle - first + (last - middle) = last - first by omega]

/-- Before its first chain a text has only places outside, and behind it the others matter. -/
theorem filter_outside_cons {size cursor : Nat} {chain : Chain} {chains : List Chain}
    (hcursor : cursor ≤ chain.start) (hlong : chain.start ≤ chain.stop) (hsize : chain.stop ≤ size)
    (hahead : ∀ other ∈ chains, chain.stop ≤ other.start) :
    (List.range' cursor (size - cursor)).filter (fun place => Outside (chain :: chains) place) =
      List.range' cursor (chain.start - cursor) ++
        (List.range' chain.stop (size - chain.stop)).filter fun place => Outside chains place := by
  rw [range'_cut hcursor (hlong.trans hsize), range'_cut hlong hsize, List.filter_append,
    List.filter_append, List.filter_eq_self.2, List.filter_eq_nil_iff.2, List.nil_append]
  · congr 1
    refine List.filter_congr fun place hplace => decide_eq_decide.2 ?_
    exact List.forall_mem_cons.trans (and_iff_right (.inr (List.mem_range'_1.1 hplace).1))
  · intro place hplace hout
    have hbounds := List.mem_range'_1.1 hplace
    have hmeets := of_decide_eq_true hout chain List.mem_cons_self
    omega
  · intro place hplace
    have hbounds := List.mem_range'_1.1 hplace
    refine decide_eq_true (List.forall_mem_cons.2 ⟨.inl (by omega), fun other hother => ?_⟩)
    have hother := hahead other hother
    exact .inl (by omega)

/-- The gaps are the places that no chain covers, each once and in order. -/
theorem flatten_gaps {size cursor : Nat} {chains : List Chain}
    (hcursor : ∀ chain ∈ chains, cursor ≤ chain.start)
    (hstop : ∀ chain ∈ chains, chain.start < chain.stop ∧ chain.stop ≤ size)
    (ordered : chains.Pairwise fun one other => one.stop ≤ other.start) :
    (gaps size cursor chains).flatten =
      (List.range' cursor (size - cursor)).filter fun place => Outside chains place := by
  induction chains generalizing cursor with
  | nil =>
      rw [gaps, List.flatten_singleton, List.filter_eq_self.2]
      exact fun place _ => decide_eq_true fun _ hchain => absurd hchain List.not_mem_nil
  | cons chain chains ih =>
      obtain ⟨hstart, -⟩ := List.forall_mem_cons.1 hcursor
      obtain ⟨⟨hlong, hsize⟩, hstop⟩ := List.forall_mem_cons.1 hstop
      obtain ⟨hahead, ordered⟩ := List.pairwise_cons.1 ordered
      rw [gaps, List.flatten_cons, ih hahead hstop ordered,
        filter_outside_cons hstart hlong.le hsize hahead]

end StoryAtlas.Chain

namespace StoryAtlas.Extract

open Text Chain

/-- Extraction keeps what lies outside the chains of a text. The chains stand apart, the gaps have
each place outside once and in order, and what is cleaned is the text of the gaps, with the prose of
each chain in the place of the chain. -/
theorem ofText_keeps_outside (text : String) :
    let cs := text.toList
    let chains := Chain.all cs
    Tiled cs ∧
      (gaps cs.length 0 chains).flatten =
        (List.range cs.length).filter (fun place => Outside chains place) ∧
      ∀ lexicon, (ofText lexicon text).text =
        String.ofList (Markup.cleanChars (trimWhere (· == ';') (joinSemicolons
          (weave ((gaps cs.length 0 chains).map (charsAt cs)) (chains.map Chain.prose))))) := by
  intro cs chains
  have htiled := tiled cs
  refine ⟨htiled, ?_, fun lexicon => ?_⟩
  · rw [List.range_eq_range']
    exact flatten_gaps (fun _ _ => Nat.zero_le _)
      (fun chain hchain =>
        ⟨htiled.start_lt_stop chain hchain, htiled.stop_le_length chain hchain⟩) htiled.ordered
  · rw [← withoutChains_eq_weave]
    rfl

end StoryAtlas.Extract
