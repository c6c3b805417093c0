import StoryAtlas.Command.Chain
import StoryAtlas.Proofs.Text.Cut

/-!
# Where the chains of a text fall apart

How a chain is read depends on what follows it: whether a line break comes anywhere later, and where
the next quote stands. So the chains of a text are not those of its parts. A seam is a place where a
text can be cut all the same: no run of arrows lies across it, and every chain before it is read
alike as long as the line break that may follow is put in the place of what follows. A chain ends at
a seam, so the text up to there and the text from there on say together what the whole text says.
-/

namespace StoryAtlas.Chain

open Text Command

def content (chain : Chain) : List Command × List Char := (chain.commands, chain.prose)

def contents (cs : List Char) : List (List Command × List Char) := (all cs).map content

def said (cs : List Char) : List Command := (all cs).flatMap Chain.commands

theorem said_eq (cs : List Char) : said cs = (contents cs).flatMap Prod.fst := by
  rw [said, contents, List.flatMap_map]
  rfl

/-! ### One step of a scan -/

def opens (c : Char) (cs : List Char) : Bool :=
  isArrow c && isArrow (cs[0]?.getD ' ') && isArrow (cs[1]?.getD ' ')

section Step

variable {offset : Nat} {c : Char} {cs : List Char} {found : Body}

theorem scanFrom_skip (h : opens c cs = false) :
    scanFrom offset (c :: cs) = scanFrom (offset + 1) cs := by
  rw [scanFrom, ← opens, if_neg (by simp [h])]

theorem scanFrom_refused (h : opens c cs = true) (hbody : readBody (cs.dropWhile isArrow) = none) :
    scanFrom offset (c :: cs) =
      scanFrom (offset + 1 + (cs.takeWhile isArrow).length) (cs.dropWhile isArrow) := by
  rw [scanFrom, ← opens, if_pos h]
  simp only [hbody]

theorem scanFrom_found (h : opens c cs = true)
    (hbody : readBody (cs.dropWhile isArrow) = some found) :
    scanFrom offset (c :: cs) =
      { start := offset
        stop := offset + 1 + (cs.takeWhile isArrow).length + found.length
        commands := found.commands
        prose := found.prose } ::
      scanFrom (offset + 1 + (cs.takeWhile isArrow).length + found.length)
        ((cs.dropWhile isArrow).drop found.length) := by
  rw [scanFrom, ← opens, if_pos h]
  simp only [hbody]

end Step

theorem suffix_dropWhile_drop (count : Nat) (cs : List Char) :
    (cs.dropWhile isArrow).drop count <:+ cs :=
  (List.drop_suffix count _).trans (List.dropWhile_suffix isArrow)

def shift (places : Nat) (chain : Chain) : Chain :=
  { chain with start := places + chain.start, stop := places + chain.stop }

/-- The place where a text starts only moves its chains. -/
theorem scanFrom_add (places offset : Nat) (cs : List Char) :
    scanFrom (places + offset) cs = (scanFrom offset cs).map (shift places) := by
  induction cs using suffix_induction generalizing offset with
  | nil => simp [scanFrom]
  | cons c cs ih =>
      cases hopens : opens c cs with
      | false =>
          rw [scanFrom_skip hopens, scanFrom_skip hopens, Nat.add_assoc]
          exact ih cs List.suffix_rfl _
      | true =>
          cases hbody : readBody (cs.dropWhile isArrow) with
          | none =>
              rw [scanFrom_refused hopens hbody, scanFrom_refused hopens hbody, Nat.add_assoc places,
                Nat.add_assoc places]
              exact ih _ (List.dropWhile_suffix isArrow) _
          | some found =>
              simp only [scanFrom_found hopens hbody, Nat.add_assoc places, List.map_cons]
              rw [ih _ (suffix_dropWhile_drop found.length cs)]
              rfl

theorem map_content_scanFrom_eq (offset : Nat) (cs : List Char) :
    (scanFrom offset cs).map content = contents cs := by
  have h := scanFrom_add offset 0 cs
  rw [Nat.add_zero] at h
  rw [h, List.map_map]
  rfl

section Step

variable {c : Char} {cs : List Char} {found : Body}

theorem contents_skip (h : opens c cs = false) : contents (c :: cs) = contents cs := by
  rw [contents, all, scanFrom_skip h, map_content_scanFrom_eq]

theorem contents_refused (h : opens c cs = true)
    (hbody : readBody (cs.dropWhile isArrow) = none) :
    contents (c :: cs) = contents (cs.dropWhile isArrow) := by
  rw [contents, all, scanFrom_refused h hbody, map_content_scanFrom_eq]

theorem contents_found (h : opens c cs = true)
    (hbody : readBody (cs.dropWhile isArrow) = some found) :
    contents (c :: cs) = (found.commands, found.prose) ::
      contents ((cs.dropWhile isArrow).drop found.length) := by
  rw [contents, all, scanFrom_found h hbody, List.map_cons, map_content_scanFrom_eq]
  rfl

end Step

theorem opens_eq_false {c : Char} {cs : List Char} (h : isArrow c = false) :
    opens c cs = false := by
  simp [opens, h]

theorem contents_append_of_no_arrow {before cs : List Char}
    (h : ∀ c ∈ before, isArrow c = false) : contents (before ++ cs) = contents cs := by
  induction before with
  | nil => rfl
  | cons c before ih =>
      rw [List.cons_append, contents_skip (opens_eq_false (h c List.mem_cons_self))]
      exact ih fun d hd => h d (List.mem_cons_of_mem c hd)

theorem scanFrom_of_no_arrow {cs : List Char} (h : ∀ c ∈ cs, isArrow c = false) (offset : Nat) :
    scanFrom offset cs = [] := by
  induction cs generalizing offset with
  | nil => simp [scanFrom]
  | cons c cs ih =>
      rw [scanFrom_skip (opens_eq_false (h c List.mem_cons_self))]
      exact ih (fun d hd => h d (List.mem_cons_of_mem c hd)) _

theorem contents_of_no_arrow {cs : List Char} (h : ∀ c ∈ cs, isArrow c = false) :
    contents cs = [] := by
  rw [contents, all, scanFrom_of_no_arrow h, List.map_nil]

/-! ### The body of a chain -/

/-- The character does not end a chain that another line follows. -/
def inLine (c : Char) : Bool := c != '\n' && c != '"'

/-- The character does not end a chain on the last line. -/
def inSpeech (c : Char) : Bool := c != '"'

/-- The break at which a chain on the last line ends. -/
def pause : List Char := [';', ' ']

section Body

variable {cs line before after : List Char} {found : Body}

theorem readBody_of_mem (h : '\n' ∈ cs) : readBody cs = readInner (cs.takeWhile inLine) := by
  rw [readBody, if_pos (by simpa using h)]
  rfl

theorem readBody_of_not_mem (h : '\n' ∉ cs) : readBody cs = readLast (cs.takeWhile inSpeech) := by
  rw [readBody, if_neg (by simpa using h)]
  rfl

theorem readInner_eq_some (h : readInner line = some found) :
    opensWithProse (partsOf line) = false ∧
      found = { commands := (partsOf line).filterMap Part.command?
                prose := joinWith pause ((partsOf line).filterMap Part.prose?)
                length := line.length } := by
  unfold readInner at h
  dsimp only at h
  rw [Option.ite_none_left_eq_some, Bool.not_eq_true] at h
  exact ⟨h.1, (Option.some.inj h.2).symm⟩

theorem readInner_eq_none (h : readInner line = none) : opensWithProse (partsOf line) = true := by
  by_contra hopens
  simp [readInner, hopens] at h

theorem length_of_readInner (h : readInner line = some found) : found.length = line.length := by
  rw [(readInner_eq_some h).2]

/-- A chain that says what stands up to a place. -/
def bodyUpTo (front : List Char) (length : Nat) : Option Body :=
  if opensWithProse (partsOf front) || (leading (partsOf front)).isEmpty then none
  else some { commands := leading (partsOf front), prose := [], length := length }

theorem bodyUpTo_eq_some {front : List Char} {length : Nat}
    (h : bodyUpTo front length = some found) :
    found = { commands := leading (partsOf front), prose := [], length := length } := by
  rw [bodyUpTo, Option.ite_none_left_eq_some] at h
  exact (Option.some.inj h.2).symm

theorem readLast_of_breakOn {front back : List Char} (h : breakOn pause line = some (front, back)) :
    readLast line = bodyUpTo front (front.length + 2) := by
  rw [readLast, show breakOn [';', ' '] line = some (front, back) from h]
  rfl

theorem readLast_of_no_pause (h : ¬pause <:+: line) :
    readLast line = bodyUpTo line line.length := by
  rw [readLast, show breakOn [';', ' '] line = none from breakOn_eq_none_iff.2 h]
  rfl

theorem exists_breakOn (h : pause <:+: line) :
    ∃ front back, breakOn pause line = some (front, back) := by
  cases hbreak : breakOn pause line with
  | none => exact absurd h (breakOn_eq_none_iff.1 hbreak)
  | some cut => exact ⟨cut.1, cut.2, rfl⟩

theorem readLast_append (h : pause <:+: line) : readLast (line ++ after) = readLast line := by
  obtain ⟨front, back, hbreak⟩ := exists_breakOn h
  rw [readLast_of_breakOn hbreak, readLast_of_breakOn (breakOn_append hbreak)]

theorem mem_of_not_inLine {c : Char} (h : inLine c = false) : c = '\n' ∨ c = '"' := by
  simpa [inLine, or_iff_not_imp_left] using h

theorem inSpeech_of_inLine {c : Char} (h : inLine c = true) : inSpeech c = true := by
  rw [inLine, Bool.and_eq_true] at h
  exact h.2

/-- Behind a break only the regime can depend on what follows. -/
theorem readBody_append_of_break {other : List Char} (hend : ∃ c ∈ cs, inLine c = false)
    (hline : '\n' ∈ after ↔ '\n' ∈ other) : readBody (cs ++ after) = readBody (cs ++ other) := by
  by_cases hmem : '\n' ∈ cs ++ after
  · have hmem' : '\n' ∈ cs ++ other := by
      rw [List.mem_append] at hmem ⊢
      exact hmem.imp_right hline.1
    rw [readBody_of_mem hmem, readBody_of_mem hmem', takeWhile_append_of_exists hend,
      takeWhile_append_of_exists hend]
  · have hmem' : '\n' ∉ cs ++ other := by
      rw [List.mem_append, not_or] at hmem ⊢
      exact hmem.imp_right (mt hline.2)
    have hquote : ∃ c ∈ cs, inSpeech c = false := by
      obtain ⟨c, hc, hstop⟩ := hend
      rcases mem_of_not_inLine hstop with rfl | rfl
      · exact absurd (List.mem_append_left _ hc) hmem
      · exact ⟨'"', hc, rfl⟩
    rw [readBody_of_not_mem hmem, readBody_of_not_mem hmem', takeWhile_append_of_exists hquote,
      takeWhile_append_of_exists hquote]

theorem forall_inLine (h : ¬∃ c ∈ cs, inLine c = false) : ∀ c ∈ cs, inLine c = true := by
  intro c hc
  by_contra hstop
  exact h ⟨c, hc, by simpa using hstop⟩

theorem notMem_of_forall_inLine (h : ∀ c ∈ cs, inLine c = true) : '\n' ∉ cs :=
  fun hmem => absurd (h '\n' hmem) (by decide)

theorem stops_inSpeech (hline : '\n' ∉ cs) (h : Stops inLine cs) : Stops inSpeech cs := by
  intro c hc
  rcases mem_of_not_inLine (h c hc) with rfl | rfl
  · exact absurd (List.mem_of_mem_head? hc) hline
  · rfl

/-- A place behind which a chain can end. -/
def Joint (before after : List Char) : Prop :=
  Stops inLine after ∨ ('\n' ∉ after ∧ pause <:+ before)

theorem Joint.append (h : Joint before after) (front : List Char) :
    Joint (front ++ before) after :=
  h.imp_right fun hpause => ⟨hpause.1, hpause.2.trans (List.suffix_append front before)⟩

/-- A chain lies in the text and ends at a joint. -/
theorem readBody_joint (h : readBody cs = some found) :
    found.length ≤ cs.length ∧ Joint (cs.take found.length) (cs.drop found.length) := by
  by_cases hline : '\n' ∈ cs
  · rw [readBody_of_mem hline] at h
    rw [length_of_readInner h, drop_length_takeWhile]
    exact ⟨(List.takeWhile_prefix inLine).length_le, .inl (stops_dropWhile inLine cs)⟩
  · rw [readBody_of_not_mem hline] at h
    have hcs : cs = cs.takeWhile inSpeech ++ cs.dropWhile inSpeech :=
      List.takeWhile_append_dropWhile.symm
    by_cases hpause : pause <:+: cs.takeWhile inSpeech
    · obtain ⟨front, back, hbreak⟩ := exists_breakOn hpause
      rw [readLast_of_breakOn hbreak] at h
      have hlength : found.length = (front ++ pause).length := by
        rw [bodyUpTo_eq_some h, List.length_append]
        rfl
      rw [eq_append_of_breakOn hbreak, List.append_assoc _ back] at hcs
      rw [hlength, hcs, List.take_left, List.drop_left]
      refine ⟨by simp, .inr ⟨fun hmem => hline ?_, List.suffix_append front pause⟩⟩
      rw [hcs]
      exact List.mem_append_right _ hmem
    · rw [readLast_of_no_pause hpause] at h
      rw [bodyUpTo_eq_some h, drop_length_takeWhile]
      refine ⟨(List.takeWhile_prefix inSpeech).length_le, .inl fun c hc => ?_⟩
      have hquote := stops_dropWhile inSpeech cs c hc
      simp only [inSpeech, bne_eq_false_iff_eq] at hquote
      rw [hquote]
      rfl

end Body

/-! ### Seams -/

def lineEnd (cs : List Char) : List Char := if '\n' ∈ cs then ['\n'] else []

theorem lineEnd_of_mem {cs : List Char} (h : '\n' ∈ cs) : lineEnd cs = ['\n'] := if_pos h

theorem lineEnd_of_not_mem {cs : List Char} (h : '\n' ∉ cs) : lineEnd cs = [] := if_neg h

theorem isArrow_of_mem_lineEnd {c : Char} {cs : List Char} (h : c ∈ lineEnd cs) :
    isArrow c = false := by
  unfold lineEnd at h
  split at h
  · rw [List.mem_singleton.1 h]
    rfl
  · cases h

theorem stops_lineEnd (cs : List Char) : Stops isArrow (lineEnd cs) :=
  fun _ hc => isArrow_of_mem_lineEnd (List.mem_of_mem_head? hc)

/-- No run of arrows goes on from the text before to the text after. -/
def Apart (before after : List Char) : Prop :=
  (∀ c ∈ before.getLast?, isArrow c = false) ∨ Stops isArrow after

/-- A place where a text can be cut without a chain being read otherwise, as long as the line break
is not lost. -/
structure Seam (before after : List Char) : Prop where
  apart : Apart before after
  body : ∀ body, '>' :: body <:+ before →
    readBody (body ++ after) = readBody (body ++ lineEnd after)

section Seam

variable {before after rest : List Char} {c : Char} {cs : List Char} {found : Body}

theorem Apart.suffix (h : Apart before after) (hrest : rest <:+ before) : Apart rest after := by
  refine h.imp_left fun hlast c hc => hlast c ?_
  obtain ⟨front, rfl⟩ := hrest
  rw [List.getLast?_append, Option.mem_def.1 hc]
  rfl

theorem Seam.suffix (h : Seam before after) (hrest : rest <:+ before) : Seam rest after where
  apart := h.apart.suffix hrest
  body body hbody := h.body body (hbody.trans hrest)

theorem apart_lineEnd (before after : List Char) : Apart before (lineEnd after) :=
  .inr (stops_lineEnd after)

theorem opens_append (h : Apart (c :: cs) after) : opens c (cs ++ after) = opens c cs := by
  rcases cs with - | ⟨d, - | ⟨e, cs⟩⟩
  · cases after with
    | nil => rfl
    | cons d after =>
        rcases h with hlast | hstop
        · rw [opens_eq_false (hlast c rfl), opens_eq_false (hlast c rfl)]
        · have hd := stops_cons.1 hstop
          simp [opens, hd, show isArrow ' ' = false from rfl]
  · cases after with
    | nil => rfl
    | cons e after =>
        rcases h with hlast | hstop
        · simp [opens, hlast d rfl]
        · have he := stops_cons.1 hstop
          simp [opens, he, show isArrow ' ' = false from rfl]
  · rfl

theorem run_append (h : Apart (c :: cs) after) (hopens : opens c cs = true) :
    (cs ++ after).takeWhile isArrow = cs.takeWhile isArrow ∧
      (cs ++ after).dropWhile isArrow = cs.dropWhile isArrow ++ after := by
  rcases h with hlast | hstop
  · have hmem : ∃ d ∈ cs, isArrow d = false := by
      have hne : cs ≠ [] := by
        rintro rfl
        simp [opens, isArrow] at hopens
      refine ⟨cs.getLast hne, List.getLast_mem hne, hlast _ ?_⟩
      rw [List.getLast?_cons_of_ne_nil hne, List.getLast?_eq_some_getLast hne]
      exact rfl
    exact ⟨takeWhile_append_of_exists hmem, dropWhile_append_of_exists hmem⟩
  · exact ⟨takeWhile_append_of_stops hstop, dropWhile_append_of_stops hstop⟩

theorem arrow_cons_dropWhile_suffix (h : isArrow c = true) (cs : List Char) :
    '>' :: cs.dropWhile isArrow <:+ c :: cs := by
  induction cs generalizing c with
  | nil =>
      rw [List.dropWhile_nil, show c = '>' by simpa [isArrow] using h]
  | cons d cs ih =>
      cases hd : isArrow d with
      | true =>
          rw [List.dropWhile_cons_of_pos hd]
          exact (ih hd).trans (List.suffix_cons c (d :: cs))
      | false =>
          rw [List.dropWhile_cons_of_neg (by simp [hd]), show c = '>' by simpa [isArrow] using h]

theorem isArrow_of_opens (h : opens c cs = true) : isArrow c = true := by
  simp only [opens, Bool.and_eq_true] at h
  exact h.1.1

/-- A chain that is read before a line break, if any, takes nothing of it. -/
theorem length_le_of_readBody (h : readBody (cs ++ lineEnd after) = some found) :
    found.length ≤ cs.length := by
  by_cases hline : '\n' ∈ after
  · rw [lineEnd_of_mem hline, readBody_of_mem (by simp)] at h
    rw [length_of_readInner h, takeWhile_append_of_stops (stops_cons.2 rfl)]
    exact (List.takeWhile_prefix inLine).length_le
  · rw [lineEnd_of_not_mem hline, List.append_nil] at h
    exact (readBody_joint h).1

/-- At a seam the scan of the text falls into the scans of its parts. -/
theorem scanFrom_seam (h : Seam before after) (offset : Nat) :
    scanFrom offset (before ++ after) =
      scanFrom offset (before ++ lineEnd after) ++ scanFrom (offset + before.length) after := by
  induction before using suffix_induction generalizing offset with
  | nil =>
      rw [List.nil_append, List.nil_append, List.length_nil,
        scanFrom_of_no_arrow (fun c => isArrow_of_mem_lineEnd), List.nil_append]
      rfl
  | cons c cs ih =>
      -- whatever the step skips or takes, an end of the text before the seam is left
      have hrest : ∀ rest, rest <:+ cs → Seam rest after := fun rest hrest =>
        h.suffix (hrest.trans (List.suffix_cons c cs))
      rw [List.cons_append, List.cons_append, List.length_cons]
      cases hopens : opens c cs with
      | false =>
          rw [scanFrom_skip ((opens_append h.apart).trans hopens),
            scanFrom_skip ((opens_append (apart_lineEnd _ after)).trans hopens),
            ih cs List.suffix_rfl (hrest cs List.suffix_rfl),
            Nat.add_assoc offset 1, Nat.add_comm 1]
      | true =>
          obtain ⟨htake, hdrop⟩ := run_append h.apart hopens
          obtain ⟨htake', hdrop'⟩ := run_append (apart_lineEnd _ after) hopens
          have hlength : (cs.takeWhile isArrow).length + (cs.dropWhile isArrow).length =
              cs.length := by
            rw [← List.length_append, List.takeWhile_append_dropWhile]
          have hread := h.body _ (arrow_cons_dropWhile_suffix (isArrow_of_opens hopens) cs)
          cases hbody : readBody (cs.dropWhile isArrow ++ lineEnd after) with
          | none =>
              rw [scanFrom_refused ((opens_append h.apart).trans hopens)
                  (by rw [hdrop, hread, hbody]),
                scanFrom_refused ((opens_append (apart_lineEnd _ after)).trans hopens)
                  (by rw [hdrop', hbody]),
                htake, hdrop, htake', hdrop',
                ih _ (List.dropWhile_suffix isArrow) (hrest _ (List.dropWhile_suffix isArrow))]
              congr 2
              omega
          | some found =>
              have hle := length_le_of_readBody hbody
              have hsuffix := suffix_dropWhile_drop found.length cs
              rw [scanFrom_found ((opens_append h.apart).trans hopens)
                  (by rw [hdrop, hread, hbody]),
                scanFrom_found ((opens_append (apart_lineEnd _ after)).trans hopens)
                  (by rw [hdrop', hbody]),
                htake, hdrop, htake', hdrop', List.drop_append_of_le_length hle,
                List.drop_append_of_le_length hle, ih _ hsuffix (hrest _ hsuffix),
                List.cons_append, List.length_drop]
              congr 3
              omega

theorem contents_seam (h : Seam before after) :
    contents (before ++ after) = contents (before ++ lineEnd after) ++ contents after := by
  rw [contents, all, scanFrom_seam h, List.map_append, map_content_scanFrom_eq,
    map_content_scanFrom_eq]

/-- Where a chain can end the text can be cut. -/
theorem Joint.seam (h : Joint before after) : Seam before after := by
  rcases h with hstop | ⟨hline, hpause⟩
  · refine ⟨.inr fun c hc => ?_, fun body _ => ?_⟩
    · rcases mem_of_not_inLine (hstop c hc) with rfl | rfl <;> rfl
    · by_cases hafter : '\n' ∈ after
      · rw [lineEnd_of_mem hafter, readBody_of_mem (List.mem_append_right _ hafter),
          readBody_of_mem (by simp), takeWhile_append_of_stops hstop,
          takeWhile_append_of_stops (stops_cons.2 rfl)]
      · rw [lineEnd_of_not_mem hafter, List.append_nil]
        by_cases hbody : '\n' ∈ body
        · rw [readBody_of_mem (List.mem_append_left _ hbody), readBody_of_mem hbody,
            takeWhile_append_of_stops hstop]
        · rw [readBody_of_not_mem (by simp [hbody, hafter]), readBody_of_not_mem hbody,
            takeWhile_append_of_stops (stops_inSpeech hafter hstop)]
  · refine ⟨.inl fun c hc => ?_, fun body hbody => ?_⟩
    · obtain ⟨front, rfl⟩ := hpause
      rw [List.getLast?_append] at hc
      cases hc
      rfl
    · -- the pause stands within the body, as the body is what follows an arrow
      have hwithin : pause <:+ body := by
        rcases List.suffix_or_suffix_of_suffix hpause hbody with hwithin | hshort
        · rcases List.suffix_cons_iff.1 hwithin with heq | hwithin
          · cases heq
          · exact hwithin
        · obtain ⟨front, hfront⟩ := hshort
          have hmem : '>' ∈ pause := by
            rw [← hfront]
            simp
          exact absurd hmem (by decide)
      by_cases hend : ∃ c ∈ body, inLine c = false
      · refine readBody_append_of_break hend ?_
        simp [lineEnd_of_not_mem hline, hline]
      · have hall := forall_inLine hend
        have hlines := notMem_of_forall_inLine hall
        have hspoken : ∀ c ∈ body, inSpeech c = true := fun c hc => inSpeech_of_inLine (hall c hc)
        rw [lineEnd_of_not_mem hline, List.append_nil,
          readBody_of_not_mem (by simp [hlines, hline]), readBody_of_not_mem hlines,
          List.takeWhile_append_of_pos hspoken, List.takeWhile_eq_self_iff.2 hspoken,
          readLast_append hwithin.isInfix]

theorem exists_of_mem_scanFrom {chain : Chain} {offset : Nat} (h : chain ∈ scanFrom offset cs) :
    ∃ before run body found, cs = before ++ run ++ body ∧ (∀ c ∈ run, isArrow c = true) ∧
      Stops isArrow body ∧ readBody body = some found ∧
      chain = { start := offset + before.length
                stop := offset + before.length + run.length + found.length
                commands := found.commands
                prose := found.prose } := by
  induction cs using suffix_induction generalizing offset with
  | nil => simp [scanFrom] at h
  | cons c cs ih =>
      cases hopens : opens c cs with
      | false =>
          rw [scanFrom_skip hopens] at h
          obtain ⟨before, run, body, found, rfl, hrun, hstops, hbody, rfl⟩ := ih cs List.suffix_rfl h
          refine ⟨c :: before, run, body, found, rfl, hrun, hstops, hbody, ?_⟩
          simp only [List.length_cons, Chain.mk.injEq, and_true]
          omega
      | true =>
          have hcs : cs = cs.takeWhile isArrow ++ cs.dropWhile isArrow :=
            List.takeWhile_append_dropWhile.symm
          cases hbody : readBody (cs.dropWhile isArrow) with
          | none =>
              rw [scanFrom_refused hopens hbody] at h
              obtain ⟨before, run, body, found, heq, hrun, hstops, hread, rfl⟩ :=
                ih _ (List.dropWhile_suffix isArrow) h
              refine ⟨c :: cs.takeWhile isArrow ++ before, run, body, found, ?_, hrun, hstops,
                hread, ?_⟩
              · simpa [heq] using hcs
              · simp only [List.length_append, List.length_cons, Chain.mk.injEq, and_true]
                omega
          | some found =>
              have hle := (readBody_joint hbody).1
              rw [scanFrom_found hopens hbody] at h
              rcases List.mem_cons.1 h with rfl | h
              · refine ⟨[], c :: cs.takeWhile isArrow, cs.dropWhile isArrow, found, ?_, ?_,
                  stops_dropWhile isArrow cs, hbody, ?_⟩
                · simp
                · simpa [isArrow_of_opens hopens] using fun d => List.mem_takeWhile_imp
                · simp only [List.length_nil, List.length_cons, Chain.mk.injEq, and_true]
                  omega
              · obtain ⟨before, run, body, other, heq, hrun, hstops, hread, rfl⟩ :=
                  ih _ (suffix_dropWhile_drop found.length cs) h
                have hparts := List.take_append_drop found.length (cs.dropWhile isArrow)
                refine ⟨c :: cs.takeWhile isArrow ++ (cs.dropWhile isArrow).take found.length ++
                  before, run, body, other, ?_, hrun, hstops, hread, ?_⟩
                · rw [heq, ← List.append_assoc, ← List.append_assoc] at hparts
                  rw [← hparts] at hcs
                  simpa using hcs
                · simp only [List.length_append, List.length_cons, List.length_take,
                    Chain.mk.injEq, and_true]
                  omega

theorem joint_of_mem_scanFrom {chain : Chain} {offset : Nat} (h : chain ∈ scanFrom offset cs) :
    ∃ before after, cs = before ++ after ∧ chain.stop = offset + before.length ∧
      Joint before after := by
  obtain ⟨before, run, body, found, rfl, -, -, hbody, rfl⟩ := exists_of_mem_scanFrom h
  obtain ⟨hle, hjoint⟩ := readBody_joint hbody
  refine ⟨before ++ run ++ body.take found.length, body.drop found.length, ?_, ?_,
    hjoint.append _⟩
  · rw [List.append_assoc _ _ (body.drop found.length), List.take_append_drop]
  · simp only [List.length_append, List.length_take]
    omega

end Seam

end StoryAtlas.Chain
