import StoryAtlas.Proofs.Command.Seam

/-!
# How the end of a text is read

The blanks at the end of a text matter only by the line break they may hold. That line break decides
how the last line is read: with it the last chain takes the whole line, and without it the chain
ends at the first pause or the first piece of prose. So a text is steady, and says the same with and
without the line break, if it has no pause and its chains carry no prose.
-/

namespace StoryAtlas.Chain

open Text Command

variable {before after trail body : List Char}

theorem isArrow_of_isBlank {c : Char} (h : isBlank c = true) : isArrow c = false := by
  rw [isArrow, beq_eq_false_iff_ne]
  rintro rfl
  exact absurd h (by decide)

theorem inSpeech_of_isBlank {c : Char} (h : isBlank c = true) : inSpeech c = true := by
  rw [inSpeech, bne_iff_ne]
  rintro rfl
  exact absurd h (by decide)

theorem inLine_of_inSpeech {c : Char} (h : inSpeech c = true) (hline : c ≠ '\n') :
    inLine c = true := by
  rw [inLine, ← inSpeech, h, Bool.and_true, bne_iff_ne]
  exact hline

theorem isBlank_of_allBlank (h : allBlank trail = true) : ∀ c ∈ trail, isBlank c = true :=
  List.all_eq_true.1 h

/-! ### Blanks behind a chain -/

theorem ofPiece_append (h : allBlank trail = true) (piece : List Char) :
    Part.ofPiece (piece ++ trail) = Part.ofPiece piece := by
  rw [Part.ofPiece, Part.ofPiece, allBlank_append, h, Bool.and_true, Command.read, Command.read,
    trim_append h]

theorem partsOf_append (h : allBlank trail = true) (line : List Char) :
    partsOf (line ++ trail) = partsOf line := by
  have hsemicolon : ';' ∉ trail := fun hmem =>
    absurd (isBlank_of_allBlank h ';' hmem) (by decide)
  have hpieces := forall₂_splitAtChar_append hsemicolon line
  unfold partsOf
  generalize splitAtChar ';' (line ++ trail) = longs at hpieces ⊢
  generalize splitAtChar ';' line = shorts at hpieces ⊢
  induction hpieces with
  | nil => rfl
  | cons hpiece _ ih =>
      rw [List.map_cons, List.map_cons, ih]
      rcases hpiece with rfl | rfl
      · rfl
      · rw [ofPiece_append h]

theorem leading_append_blank (parts : List Part) : leading (parts ++ [.blank]) = leading parts := by
  induction parts with
  | nil => rfl
  | cons part parts ih => cases part <;> simp [leading, ih]

theorem partsOf_append_semicolon (front : List Char) :
    partsOf (front ++ [';']) = partsOf front ++ [.blank] := by
  rw [partsOf, splitAtChar_append_separator, List.map_append]
  rfl

theorem opensWithProse_append_blank {parts : List Part} (h : parts ≠ []) :
    opensWithProse (parts ++ [.blank]) = opensWithProse parts := by
  obtain ⟨part, parts, rfl⟩ := List.exists_cons_of_ne_nil h
  cases part <;> rfl

def Body.withLength (length : Nat) (body : Body) : Body := { body with length := length }

theorem bodyUpTo_eq_map {front other : List Char} (length length' : Nat)
    (hopens : opensWithProse (partsOf front) = opensWithProse (partsOf other))
    (hleading : leading (partsOf front) = leading (partsOf other)) :
    bodyUpTo front length = (bodyUpTo other length').map (Body.withLength length) := by
  rw [bodyUpTo, bodyUpTo, hopens, hleading]
  split <;> rfl

theorem length_of_bodyUpTo {front : List Char} {length : Nat} {found : Body}
    (h : bodyUpTo front length = some found) : found.length = length := by
  rw [bodyUpTo_eq_some h]

/-- The two chains say the same, and where they differ both take the whole body. -/
def Alike (body : List Char) (one other : Option Body) : Prop :=
  one = other ∨ ∃ length, body.length ≤ length ∧ one = other.map (Body.withLength length) ∧
    ∀ found, other = some found → body.length ≤ found.length

/-- A pause that only the blanks behind complete begins with the last semicolon. -/
theorem eq_append_semicolon {front back : List Char} (h : allBlank trail = true)
    (hbody : ¬pause <:+: body) (heq : body ++ trail = front ++ pause ++ back) :
    body = front ++ [';'] := by
  have hsemicolon : ';' ∉ trail := fun hmem =>
    absurd (isBlank_of_allBlank h ';' hmem) (by decide)
  rw [List.append_assoc, List.append_eq_append_iff] at heq
  rcases heq with ⟨middle, rfl, htrail⟩ | ⟨middle, rfl, hpause⟩
  · refine absurd ?_ hsemicolon
    rw [htrail]
    simp [pause]
  · rcases middle with - | ⟨c, - | ⟨d, middle⟩⟩
    · refine absurd ?_ hsemicolon
      rw [List.nil_append] at hpause
      rw [← hpause]
      exact List.mem_cons_self
    · rw [pause, List.cons_append, List.cons_append] at hpause
      rw [(List.cons.inj hpause).1]
    · refine absurd ⟨front, middle, ?_⟩ hbody
      rw [pause, List.cons_append, List.cons_append, List.cons_append] at hpause
      obtain ⟨rfl, hrest⟩ := List.cons.inj hpause
      obtain ⟨rfl, -⟩ := List.cons.inj hrest
      simp [pause]

theorem alike_readLast (h : allBlank trail = true) (body : List Char) :
    Alike body (readLast (body ++ trail)) (readLast body) := by
  by_cases hpause : pause <:+: body
  · exact .inl (readLast_append hpause)
  · rw [readLast_of_no_pause hpause]
    have hlong : ∀ found, bodyUpTo body body.length = some found → body.length ≤ found.length :=
      fun found hfound => (length_of_bodyUpTo hfound).ge
    by_cases hboth : pause <:+: body ++ trail
    · obtain ⟨front, back, hbreak⟩ := exists_breakOn hboth
      have heq := eq_append_semicolon h hpause (eq_append_of_breakOn hbreak)
      rw [readLast_of_breakOn hbreak]
      refine .inr ⟨front.length + 2, by simp [heq], bodyUpTo_eq_map _ _ ?_ ?_, hlong⟩
      · rw [heq, partsOf_append_semicolon, opensWithProse_append_blank]
        simp [partsOf, splitAtChar_ne_nil]
      · rw [heq, partsOf_append_semicolon, leading_append_blank]
    · rw [readLast_of_no_pause hboth]
      exact .inr ⟨(body ++ trail).length, by simp, bodyUpTo_eq_map _ _
        (by rw [partsOf_append h]) (by rw [partsOf_append h]), hlong⟩

theorem alike_readInner (h : allBlank trail = true) (body : List Char) :
    Alike body (readInner (body ++ trail)) (readInner body) := by
  refine .inr ⟨(body ++ trail).length, by simp, ?_, fun found hfound =>
    (length_of_readInner hfound).ge⟩
  unfold readInner
  rw [partsOf_append h]
  dsimp only
  split <;> rfl

theorem alike_readBody (h : allBlank trail = true) (hline : '\n' ∉ trail) (body after : List Char) :
    Alike body (readBody (body ++ (trail ++ lineEnd after)))
      (readBody (body ++ lineEnd after)) := by
  have hspeech : ∀ c ∈ trail, inSpeech c = true := fun c hc =>
    inSpeech_of_isBlank (isBlank_of_allBlank h c hc)
  have hinline : ∀ c ∈ trail, inLine c = true := fun c hc =>
    inLine_of_inSpeech (hspeech c hc) fun heq => hline (heq ▸ hc)
  by_cases hend : ∃ c ∈ body, inLine c = false
  · left
    exact readBody_append_of_break hend (by simp [hline])
  · have hall := forall_inLine hend
    have hbody := notMem_of_forall_inLine hall
    by_cases hafter : '\n' ∈ after
    · rw [lineEnd_of_mem hafter, readBody_of_mem (by simp), readBody_of_mem (by simp),
        ← List.append_assoc, takeWhile_append_of_stops (stops_cons.2 rfl),
        takeWhile_append_of_stops (stops_cons.2 rfl), List.takeWhile_eq_self_iff.2 hall,
        List.takeWhile_eq_self_iff.2 fun c hc =>
          (List.mem_append.1 hc).elim (hall c) (hinline c)]
      exact alike_readInner h body
    · have hspoken : ∀ c ∈ body, inSpeech c = true := fun c hc => inSpeech_of_inLine (hall c hc)
      rw [lineEnd_of_not_mem hafter, List.append_nil, List.append_nil, readBody_of_not_mem hbody,
        readBody_of_not_mem (by simp [hbody, hline]), List.takeWhile_eq_self_iff.2 hspoken,
        List.takeWhile_eq_self_iff.2 fun c hc =>
          (List.mem_append.1 hc).elim (hspoken c) (hspeech c)]
      exact alike_readLast h body

theorem contents_drop_of_no_arrow {length : Nat} (hlength : before.length ≤ length)
    (h : ∀ c ∈ after, isArrow c = false) : contents ((before ++ after).drop length) = [] := by
  rw [List.drop_append, List.drop_eq_nil_of_le hlength, List.nil_append]
  exact contents_of_no_arrow fun c hc => h c (List.mem_of_mem_drop hc)

/-- Blanks at the end of a line do not change what a text says. -/
theorem contents_append_blank (h : allBlank trail = true) (hline : '\n' ∉ trail)
    (cs after : List Char) :
    contents (cs ++ (trail ++ lineEnd after)) = contents (cs ++ lineEnd after) := by
  have hlong : ∀ c ∈ trail ++ lineEnd after, isArrow c = false := fun c hc =>
    (List.mem_append.1 hc).elim (fun hc => isArrow_of_isBlank (isBlank_of_allBlank h c hc))
      isArrow_of_mem_lineEnd
  have hshort : ∀ c ∈ lineEnd after, isArrow c = false := fun c => isArrow_of_mem_lineEnd
  have hapart : ∀ {front : List Char}, Apart front (trail ++ lineEnd after) :=
    .inr fun c hc => hlong c (List.mem_of_mem_head? hc)
  induction cs using suffix_induction with
  | nil =>
      rw [List.nil_append, List.nil_append, contents_of_no_arrow hlong,
        contents_of_no_arrow hshort]
  | cons c cs ih =>
      rw [List.cons_append, List.cons_append]
      cases hopens : opens c cs with
      | false =>
          rw [contents_skip ((opens_append hapart).trans hopens),
            contents_skip ((opens_append (apart_lineEnd _ after)).trans hopens)]
          exact ih cs List.suffix_rfl
      | true =>
          have hopens₁ := (opens_append hapart).trans hopens
          have hopens₂ := (opens_append (apart_lineEnd _ after)).trans hopens
          have hdrop₁ := (run_append hapart hopens).2
          have hdrop₂ := (run_append (apart_lineEnd _ after) hopens).2
          have halike := alike_readBody h hline (cs.dropWhile isArrow) after
          cases hbody : readBody (cs.dropWhile isArrow ++ lineEnd after) with
          | none =>
              have hboth : readBody (cs.dropWhile isArrow ++ (trail ++ lineEnd after)) = none := by
                rw [hbody] at halike
                rcases halike with hsame | ⟨length, -, hsame, -⟩ <;> exact hsame
              rw [contents_refused hopens₁ (by rw [hdrop₁, hboth]),
                contents_refused hopens₂ (by rw [hdrop₂, hbody]), hdrop₁, hdrop₂]
              exact ih _ (List.dropWhile_suffix isArrow)
          | some found =>
              rw [hbody] at halike
              rcases halike with hsame | ⟨length, hlength, hsame, hfound⟩
              · have hle := length_le_of_readBody hbody
                rw [contents_found hopens₁ (by rw [hdrop₁, hsame]),
                  contents_found hopens₂ (by rw [hdrop₂, hbody]), hdrop₁, hdrop₂,
                  List.drop_append_of_le_length hle, List.drop_append_of_le_length hle,
                  ih _ (suffix_dropWhile_drop found.length cs)]
              · -- both chains take the whole body, and blanks are all that is left
                rw [contents_found hopens₁ (by rw [hdrop₁, hsame]; rfl),
                  contents_found hopens₂ (by rw [hdrop₂, hbody]), hdrop₁, hdrop₂,
                  show (found.withLength length).length = length from rfl,
                  contents_drop_of_no_arrow hlength hlong,
                  contents_drop_of_no_arrow (hfound found rfl) hshort]
                rfl

/-- Of the blanks at the end only a line break matters. -/
theorem contents_append_trail (h : allBlank trail = true) (cs : List Char) :
    contents (cs ++ trail) = contents (cs ++ lineEnd trail) := by
  by_cases hline : '\n' ∈ trail
  · obtain ⟨front, back, heq, hfront⟩ := List.eq_append_cons_of_mem hline
    have hblank := isBlank_of_allBlank h
    have hback : contents ('\n' :: back) = [] := contents_of_no_arrow fun c hc =>
      isArrow_of_isBlank (hblank c (heq ▸ List.mem_append_right front hc))
    have hseam : Seam (cs ++ front) ('\n' :: back) := Joint.seam (.inl (stops_cons.2 rfl))
    have hfrontBlank : allBlank front = true := List.all_eq_true.2 fun c hc =>
      hblank c (heq ▸ List.mem_append_left _ hc)
    have hend : lineEnd ('\n' :: back) = lineEnd trail := by
      rw [lineEnd_of_mem hline, lineEnd_of_mem List.mem_cons_self]
    calc
      contents (cs ++ trail) = contents (cs ++ front ++ '\n' :: back) := by
        rw [heq, List.append_assoc]
      _ = contents (cs ++ (front ++ lineEnd trail)) := by
        rw [contents_seam hseam, hback, List.append_nil, hend, List.append_assoc]
      _ = contents (cs ++ lineEnd trail) := contents_append_blank hfrontBlank hfront cs trail
  · have hnone := contents_append_blank h hline cs []
    rw [lineEnd_of_not_mem List.not_mem_nil, List.append_nil] at hnone
    rw [hnone, lineEnd_of_not_mem hline]

theorem contents_between {lead : List Char} (hlead : allBlank lead = true)
    (htrail : allBlank trail = true) (cs : List Char) :
    contents (lead ++ cs ++ trail) = contents (cs ++ lineEnd trail) := by
  rw [List.append_assoc, contents_append_of_no_arrow fun c hc =>
    isArrow_of_isBlank (isBlank_of_allBlank hlead c hc), contents_append_trail htrail]

/-! ### Steady texts -/

/-- The text says the same whether or not another line follows it. -/
def Steady (cs : List Char) : Prop := said (cs ++ ['\n']) = said cs

theorem said_skip {c : Char} {cs : List Char} (h : opens c cs = false) :
    said (c :: cs) = said cs := by
  rw [said_eq, contents_skip h, ← said_eq]

theorem said_refused {c : Char} {cs : List Char} (h : opens c cs = true)
    (hbody : readBody (cs.dropWhile isArrow) = none) :
    said (c :: cs) = said (cs.dropWhile isArrow) := by
  rw [said_eq, contents_refused h hbody, ← said_eq]

theorem said_found {c : Char} {cs : List Char} {found : Body} (h : opens c cs = true)
    (hbody : readBody (cs.dropWhile isArrow) = some found) :
    said (c :: cs) =
      found.commands ++ said ((cs.dropWhile isArrow).drop found.length) := by
  rw [said_eq, contents_found h hbody, List.flatMap_cons, ← said_eq]

theorem prose_ne_nil {piece prose : List Char} (h : (Part.ofPiece piece).prose? = some prose) :
    prose ≠ [] := by
  unfold Part.ofPiece at h
  split at h
  · cases h
  · next hblank =>
    split at h
    · cases h
    · cases h
      exact trim_ne_nil (by simpa using hblank)

theorem prose?_eq_none {line : List Char}
    (h : joinWith pause ((partsOf line).filterMap Part.prose?) = []) :
    ∀ part ∈ partsOf line, part.prose? = none := by
  refine List.filterMap_eq_nil_iff.1 (joinWith_eq_nil (fun prose hprose => ?_) h)
  obtain ⟨part, hpart, hshown⟩ := List.mem_filterMap.1 hprose
  obtain ⟨piece, -, rfl⟩ := List.mem_map.1 hpart
  exact prose_ne_nil hshown

theorem leading_eq_filterMap {parts : List Part} (h : ∀ part ∈ parts, part.prose? = none) :
    leading parts = parts.filterMap Part.command? := by
  induction parts with
  | nil => rfl
  | cons part parts ih =>
      have hrest := ih fun other hother => h other (List.mem_cons_of_mem part hother)
      cases part with
      | blank => exact hrest
      | command found => exact congrArg (found :: ·) hrest
      | prose cs => cases h _ List.mem_cons_self

theorem no_arrow_of_forall_blank {line : List Char} (h : ∀ part ∈ partsOf line, part = .blank) :
    ∀ c ∈ line, isArrow c = false := by
  intro c hc
  rw [isArrow, beq_eq_false_iff_ne]
  rintro rfl
  obtain ⟨piece, hpiece, hmem⟩ := exists_piece_of_mem ';' hc (by decide)
  have hblank := h _ (List.mem_map_of_mem hpiece)
  unfold Part.ofPiece at hblank
  split at hblank
  · next hall => exact absurd (isBlank_of_allBlank hall '>' hmem) (by decide)
  · split at hblank <;> cases hblank

/-- A chain without pauses and prose is read alike on the last line, unless it has no command: then
nothing is read in its place. -/
theorem readLast_of_readInner {line : List Char} {found : Body} (hpause : ¬pause <:+: line)
    (h : readInner line = some found) (hprose : found.prose = []) :
    readLast line = some found ∨
      (readLast line = none ∧ found.commands = [] ∧ ∀ c ∈ line, isArrow c = false) := by
  obtain ⟨hopens, rfl⟩ := readInner_eq_some h
  have hparts := prose?_eq_none hprose
  have hleading := leading_eq_filterMap hparts
  rw [readLast_of_no_pause hpause, bodyUpTo, hopens, Bool.false_or]
  split
  · next hempty =>
    have hnone : (partsOf line).filterMap Part.command? = [] := by
      rw [← hleading, List.isEmpty_iff.1 hempty]
    refine .inr ⟨rfl, hnone, no_arrow_of_forall_blank fun part hpart => ?_⟩
    have hcommand := List.filterMap_eq_nil_iff.1 hnone part hpart
    have hprose := hparts part hpart
    cases part with
    | blank => rfl
    | command read => cases hcommand
    | prose cs => cases hprose
  · left
    have hjoin : joinWith pause ((partsOf line).filterMap Part.prose?) = [] := hprose
    rw [hleading, hjoin]

theorem readLast_of_readInner_eq_none {line : List Char} (hpause : ¬pause <:+: line)
    (h : readInner line = none) : readLast line = none := by
  rw [readLast_of_no_pause hpause, bodyUpTo, readInner_eq_none h]
  rfl

/-- The body of a chain without pauses and prose is read alike whether or not a line follows it,
unless it has no command. -/
theorem readBody_of_plain (hpause : ¬pause <:+: body)
    (hprose : ∀ found, readBody (body ++ ['\n']) = some found → found.prose = []) :
    readBody body = readBody (body ++ ['\n']) ∨
      (readBody body = none ∧ ∃ found, readBody (body ++ ['\n']) = some found ∧
        found.commands = [] ∧ ∀ c ∈ body.take found.length, isArrow c = false) := by
  have hlong : readBody (body ++ ['\n']) = readInner (body.takeWhile inLine) := by
    rw [readBody_of_mem (by simp), takeWhile_append_of_stops (stops_cons.2 rfl)]
  rw [hlong] at hprose ⊢
  by_cases hline : '\n' ∈ body
  · exact .inl (readBody_of_mem hline)
  · have hsame : body.takeWhile inSpeech = body.takeWhile inLine := by
      refine takeWhile_congr fun c hc => ?_
      have hne : c ≠ '\n' := fun heq => hline (heq ▸ hc)
      simp [inLine, inSpeech, hne]
    have hpause' : ¬pause <:+: body.takeWhile inLine := fun hin =>
      hpause (hin.trans (List.takeWhile_prefix inLine).isInfix)
    rw [readBody_of_not_mem hline, hsame]
    cases hinner : readInner (body.takeWhile inLine) with
    | none => exact .inl (readLast_of_readInner_eq_none hpause' hinner)
    | some found =>
        refine (readLast_of_readInner hpause' hinner (hprose found hinner)).imp_right ?_
        rintro ⟨hnone, hcommands, harrow⟩
        refine ⟨hnone, found, rfl, hcommands, ?_⟩
        rw [length_of_readInner hinner, take_length_takeWhile]
        exact harrow

/-- A text whose chains carry neither pauses nor prose is steady. -/
theorem steady_of_plain {cs : List Char}
    (hpause : ∀ body, '>' :: body <:+ cs → ¬pause <:+: body)
    (hprose : ∀ part ∈ contents (cs ++ ['\n']), part.2 = []) : Steady cs := by
  have hapart : ∀ {front : List Char}, Apart front ['\n'] := .inr (stops_cons.2 rfl)
  unfold Steady
  induction cs using suffix_induction with
  | nil =>
      rw [said_eq, said_eq, contents_of_no_arrow (by simp [isArrow]),
        contents_of_no_arrow (by simp)]
  | cons c cs ih =>
      have hrest : ∀ rest, rest <:+ cs → ∀ body, '>' :: body <:+ rest → ¬pause <:+: body :=
        fun rest hrest body hbody =>
          hpause body (hbody.trans (hrest.trans (List.suffix_cons c cs)))
      rw [List.cons_append] at hprose ⊢
      cases hopens : opens c cs with
      | false =>
          have hopens' := (opens_append hapart).trans hopens
          rw [contents_skip hopens'] at hprose
          rw [said_skip hopens', said_skip hopens]
          exact ih cs List.suffix_rfl (hrest cs List.suffix_rfl) hprose
      | true =>
          have hopens' := (opens_append hapart).trans hopens
          have hdrop := (run_append hapart hopens).2
          have hsuffix := List.dropWhile_suffix isArrow (l := cs)
          have hbodies := readBody_of_plain
            (hpause _ (arrow_cons_dropWhile_suffix (isArrow_of_opens hopens) cs))
            fun found hfound => by
              rw [contents_found hopens' (by rw [hdrop, hfound])] at hprose
              exact hprose _ List.mem_cons_self
          cases hbody : readBody (cs.dropWhile isArrow ++ ['\n']) with
          | none =>
              rw [hbody] at hbodies
              have hnone : readBody (cs.dropWhile isArrow) = none := by
                rcases hbodies with hsame | ⟨hsame, -⟩ <;> exact hsame
              rw [contents_refused hopens' (by rw [hdrop, hbody]), hdrop] at hprose
              rw [said_refused hopens' (by rw [hdrop, hbody]), hdrop, said_refused hopens hnone]
              exact ih _ hsuffix (hrest _ hsuffix) hprose
          | some found =>
              have hle : found.length ≤ (cs.dropWhile isArrow).length :=
                @length_le_of_readBody ['\n'] _ _ hbody
              have hsuffix' := suffix_dropWhile_drop found.length cs
              rw [contents_found hopens' (by rw [hdrop, hbody]), hdrop,
                List.drop_append_of_le_length hle] at hprose
              rw [said_found hopens' (by rw [hdrop, hbody]), hdrop,
                List.drop_append_of_le_length hle, ih _ hsuffix' (hrest _ hsuffix')
                  fun part hpart => hprose part (List.mem_cons_of_mem _ hpart)]
              rw [hbody] at hbodies
              rcases hbodies with hsame | ⟨hnone, other, hother, hcommands, harrow⟩
              · rw [said_found hopens hsame]
              · -- the chain has no command, and the scan passes over what it would have taken
                cases hother
                rw [said_refused hopens hnone, hcommands, List.nil_append, said_eq, said_eq]
                conv => rhs; arg 2; rw [← List.take_append_drop found.length (cs.dropWhile isArrow)]
                rw [contents_append_of_no_arrow harrow]

/-! ### The last line -/

def lastLine (cs : List Char) : List Char := (cs.reverse.takeWhile (· != '\n')).reverse

theorem eq_lastLine_or (cs : List Char) :
    cs = lastLine cs ∨ ∃ front, cs = front ++ '\n' :: lastLine cs := by
  have hcs : cs = (cs.reverse.dropWhile (· != '\n')).reverse ++ lastLine cs := by
    rw [lastLine, ← List.reverse_append, List.takeWhile_append_dropWhile, List.reverse_reverse]
  have hstop := stops_dropWhile (· != '\n') cs.reverse
  cases hback : cs.reverse.dropWhile (· != '\n') with
  | nil => exact .inl (by rw [hback] at hcs; exact hcs)
  | cons c back =>
      rw [hback] at hcs hstop
      have hc : c = '\n' := by simpa using stops_cons.1 hstop
      refine .inr ⟨back.reverse, ?_⟩
      rw [List.reverse_cons, List.append_assoc, hc] at hcs
      exact hcs

/-- Only the last line of a text can be unsteady. -/
theorem Steady.of_lastLine {cs : List Char} (h : Steady (lastLine cs)) : Steady cs := by
  rcases eq_lastLine_or cs with heq | ⟨front, heq⟩
  · rw [heq]
    exact h
  · have hsplit : ∀ line, said (front ++ '\n' :: line) = said (front ++ ['\n']) ++ said line := by
      intro line
      have hseam : Seam front ('\n' :: line) := Joint.seam (.inl (stops_cons.2 rfl))
      rw [said_eq, contents_seam hseam, lineEnd_of_mem List.mem_cons_self, List.flatMap_append,
        contents_skip (opens_eq_false rfl), ← said_eq, ← said_eq]
    rw [Steady, heq, List.append_assoc, List.cons_append, hsplit (lastLine cs ++ ['\n']),
      hsplit (lastLine cs), h]

/-- On the line, no pause stands behind an arrow, and with a line behind it no chain carries prose.
-/
structure Plain (line : List Char) : Prop where
  pause : ¬pause <:+: line.dropWhile fun c => !isArrow c
  prose : ∀ chain ∈ all (line ++ ['\n']), chain.prose = []

theorem Plain.steady {line : List Char} (h : Plain line) : Steady line := by
  refine steady_of_plain (fun body hbody hin => h.pause ?_) fun part hpart => ?_
  · obtain ⟨front, rfl⟩ := hbody
    have hsuffix : body <:+ (front ++ '>' :: body).dropWhile fun c => !isArrow c := by
      rw [List.dropWhile_append]
      split
      · exact List.suffix_cons '>' body
      · exact (List.suffix_cons '>' body).trans (List.suffix_append _ _)
    exact hin.trans hsuffix.isInfix
  · obtain ⟨chain, hchain, rfl⟩ := List.mem_map.1 hpart
    exact h.prose chain hchain

/-- Where a line follows, the last line before it is plain. -/
def PlainBefore (before after : List Char) : Prop := '\n' ∈ after → Plain (lastLine before)

theorem PlainBefore.said_append {before after : List Char} (h : PlainBefore before after) :
    said (before ++ lineEnd after) = said before := by
  by_cases hline : '\n' ∈ after
  · rw [lineEnd_of_mem hline]
    exact Steady.of_lastLine (h hline).steady
  · rw [lineEnd_of_not_mem hline, List.append_nil]

end StoryAtlas.Chain
