import StoryAtlas.Proofs.Command.Ending

/-!
# What a chain takes of its text

A chain takes the text from its arrows up to the place where the text goes on. The pieces between
the semicolons there are commands, prose or blank. On a line that another follows every command is
read and the prose is kept. On the last line reading ends at the first piece of prose, but the chain
does not: that piece and all pieces behind it are taken and not kept. So nothing is lost from a
chain exactly if a line break follows it or it has no prose.
-/

namespace StoryAtlas.Chain

open Text Command

variable {chain : Chain} {text line front : List Char} {found : Body}

def span (chain : Chain) (text : List Char) : List Char :=
  ((text.take chain.stop).drop chain.start).dropWhile isArrow

def pieces (chain : Chain) (text : List Char) : List (List Char) :=
  splitAtChar ';' (chain.span text)

/-- Every piece that is not blank is a command of the chain or is kept, trimmed, in its prose. -/
def Keeps (chain : Chain) (text : List Char) : Prop :=
  ∀ piece ∈ chain.pieces text, allBlank piece = false →
    (∃ command ∈ chain.commands, Command.read piece = some command) ∨ trim piece <:+: chain.prose

instance : Decidable (chain.Keeps text) := by
  unfold Keeps
  infer_instance

def clear (piece : List Char) : Bool := allBlank piece || (Command.read piece).isSome

theorem exists_body (h : chain ∈ all text) :
    ∃ body found, readBody body = some found ∧ chain.commands = found.commands ∧
      chain.prose = found.prose ∧ chain.span text = body.take found.length ∧
      text.drop chain.stop = body.drop found.length := by
  obtain ⟨before, run, body, found, rfl, hrun, hstops, hbody, rfl⟩ := exists_of_mem_scanFrom h
  have hle := (readBody_joint hbody).1
  have htake : (before ++ run ++ body).take (0 + before.length + run.length + found.length) =
      before ++ (run ++ body.take found.length) := by
    rw [Nat.zero_add, ← List.length_append, List.take_length_add_append, List.append_assoc]
  have hdrop : (before ++ run ++ body).drop (0 + before.length + run.length + found.length) =
      body.drop found.length := by
    rw [Nat.zero_add, ← List.length_append, List.drop_length_add_append]
  refine ⟨body, found, hbody, rfl, rfl, ?_, hdrop⟩
  have hstops' : Stops isArrow (body.take found.length) := fun c hc => hstops c (by
    rw [List.head?_take] at hc
    split at hc
    · cases hc
    · exact hc)
  rw [span, htake, Nat.zero_add, List.drop_left, List.dropWhile_append_of_pos hrun,
    dropWhile_of_stops hstops']

/-! ### Pieces and parts -/

theorem ofPiece_of_blank {piece : List Char} (h : allBlank piece = true) :
    Part.ofPiece piece = .blank := if_pos h

theorem ofPiece_of_read {piece : List Char} {command : Command} (h : allBlank piece = false)
    (hread : Command.read piece = some command) : Part.ofPiece piece = .command command := by
  rw [Part.ofPiece, if_neg (by simp [h]), hread]

theorem ofPiece_of_unread {piece : List Char} (h : allBlank piece = false)
    (hread : Command.read piece = none) : Part.ofPiece piece = .prose (trim piece) := by
  rw [Part.ofPiece, if_neg (by simp [h]), hread]

theorem read_of_blank {piece : List Char} (h : allBlank piece = true) :
    Command.read piece = none := by
  have htrim : trim piece = [] := (trim_append h : trim ([] ++ piece) = trim [])
  simp [Command.read, htrim]

theorem command?_ofPiece (piece : List Char) :
    (Part.ofPiece piece).command? = Command.read piece := by
  cases hblank : allBlank piece with
  | true =>
      rw [ofPiece_of_blank hblank, read_of_blank hblank]
      rfl
  | false =>
      cases hread : Command.read piece with
      | none =>
          rw [ofPiece_of_unread hblank hread]
          rfl
      | some command =>
          rw [ofPiece_of_read hblank hread]
          rfl

theorem commands_partsOf (line : List Char) :
    (partsOf line).filterMap Part.command? = (splitAtChar ';' line).filterMap Command.read := by
  rw [partsOf, List.filterMap_map]
  exact List.filterMap_congr fun piece _ => command?_ofPiece piece

theorem leading_partsOf (line : List Char) :
    leading (partsOf line) = ((splitAtChar ';' line).takeWhile clear).filterMap Command.read := by
  unfold partsOf
  induction splitAtChar ';' line with
  | nil => rfl
  | cons piece pieces ih =>
      rw [List.map_cons]
      cases hblank : allBlank piece with
      | true =>
          rw [ofPiece_of_blank hblank, List.takeWhile_cons_of_pos (by simp [clear, hblank]),
            List.filterMap_cons_none (read_of_blank hblank), leading, ih]
      | false =>
          cases hread : Command.read piece with
          | none =>
              rw [ofPiece_of_unread hblank hread,
                List.takeWhile_cons_of_neg (by simp [clear, hblank, hread])]
              rfl
          | some command =>
              rw [ofPiece_of_read hblank hread,
                List.takeWhile_cons_of_pos (by simp [clear, hread]),
                List.filterMap_cons_some hread, leading, ih]

/-! ### What each regime keeps -/

theorem keeps_readInner (h : readInner line = some found) {piece : List Char}
    (hpiece : piece ∈ splitAtChar ';' line) (hblank : allBlank piece = false) :
    (∃ command ∈ found.commands, Command.read piece = some command) ∨
      trim piece <:+: found.prose := by
  rw [(readInner_eq_some h).2]
  cases hread : Command.read piece with
  | some command =>
      refine .inl ⟨command, ?_, rfl⟩
      rw [commands_partsOf]
      exact List.mem_filterMap.2 ⟨piece, hpiece, hread⟩
  | none =>
      refine .inr (infix_joinWith (List.mem_filterMap.2
        ⟨.prose (trim piece), List.mem_map.2 ⟨piece, hpiece, ?_⟩, rfl⟩))
      exact ofPiece_of_unread hblank hread

theorem partsOf_append_pause (front : List Char) :
    partsOf (front ++ pause) = partsOf front ++ [.blank] := by
  rw [partsOf, pause, splitAtChar_append_separator, List.map_append]
  rfl

/-- On the last line the commands are those before the first piece of prose, and nothing is kept. -/
theorem readLast_spoken (h : readLast line = some found) :
    found.length ≤ line.length ∧ found.prose = [] ∧
      found.commands = leading (partsOf (line.take found.length)) := by
  by_cases hpause : pause <:+: line
  · obtain ⟨front, back, hbreak⟩ := exists_breakOn hpause
    rw [readLast_of_breakOn hbreak] at h
    have hfound := bodyUpTo_eq_some h
    have hlength : found.length = (front ++ pause).length := by simp [hfound, pause]
    rw [eq_append_of_breakOn hbreak, hlength, List.take_left, partsOf_append_pause,
      leading_append_blank, hfound]
    exact ⟨by simp, rfl, rfl⟩
  · rw [readLast_of_no_pause hpause] at h
    rw [bodyUpTo_eq_some h, List.take_length]
    exact ⟨le_rfl, rfl, rfl⟩

/-- A chain that a line break follows has its line, and any other is read on the last line. -/
theorem readBody_cases {body : List Char} (h : readBody body = some found) :
    ('\n' ∈ body.drop found.length ∧ readInner (body.take found.length) = some found) ∨
      ('\n' ∉ body.drop found.length ∧ found.prose = [] ∧
        found.commands = leading (partsOf (body.take found.length))) := by
  by_cases hline : '\n' ∈ body
  · left
    rw [readBody_of_mem hline] at h
    rw [length_of_readInner h, drop_length_takeWhile, take_length_takeWhile]
    refine ⟨?_, h⟩
    have hparts : body.takeWhile inLine ++ body.dropWhile inLine = body :=
      List.takeWhile_append_dropWhile
    rw [← hparts, List.mem_append] at hline
    exact hline.resolve_left fun hmem => absurd (List.mem_takeWhile_imp hmem) (by decide)
  · right
    rw [readBody_of_not_mem hline] at h
    obtain ⟨hle, hprose, hcommands⟩ := readLast_spoken h
    have htake : body.take found.length = (body.takeWhile inSpeech).take found.length := by
      conv_lhs => rw [← @List.takeWhile_append_dropWhile _ inSpeech body]
      exact List.take_append_of_le_length hle
    rw [htake]
    exact ⟨fun hmem => hline (List.mem_of_mem_drop hmem), hprose, hcommands⟩

/-- What becomes of the pieces of a chain. If a line break follows, or no piece is prose, each piece
that is not blank is read or kept, and in no other case. Where no line break follows, the chain says
what stands before the first piece of prose, and keeps nothing of the rest. -/
theorem keeps_iff (h : chain ∈ all text) :
    (chain.Keeps text ↔
      '\n' ∈ text.drop chain.stop ∨ ∀ piece ∈ chain.pieces text, clear piece = true) ∧
    ('\n' ∉ text.drop chain.stop → chain.prose = [] ∧
      chain.commands = ((chain.pieces text).takeWhile clear).filterMap Command.read) := by
  obtain ⟨body, found, hbody, hcommands, hprose, hspan, hdrop⟩ := exists_body h
  rw [Keeps, pieces, hdrop, hcommands, hprose, hspan, ← leading_partsOf]
  rcases readBody_cases hbody with ⟨hline, hinner⟩ | ⟨hline, hnone, hsaid⟩
  · refine ⟨iff_of_true (fun piece hpiece hblank => ?_) (.inl hline), fun hno => absurd hline hno⟩
    exact keeps_readInner hinner hpiece hblank
  · refine ⟨⟨fun hkeeps => .inr fun piece hpiece => ?_, fun hclear piece hpiece hblank => ?_⟩,
      fun _ => ⟨hnone, hsaid⟩⟩
    · -- prose cannot be found in what is kept, as nothing is
      cases hblank : allBlank piece with
      | true => simp [clear, hblank]
      | false =>
          rcases hkeeps piece hpiece hblank with ⟨command, -, hread⟩ | hkept
          · simp [clear, hread]
          · rw [hnone, List.infix_nil] at hkept
            exact absurd hkept (trim_ne_nil hblank)
    · have hall := hclear.resolve_left hline
      have hread : (Command.read piece).isSome := by simpa [clear, hblank] using hall piece hpiece
      obtain ⟨command, hread⟩ := Option.isSome_iff_exists.1 hread
      refine .inl ⟨command, ?_, hread⟩
      rw [hsaid, leading_partsOf, List.takeWhile_eq_self_iff.2 hall]
      exact List.mem_filterMap.2 ⟨piece, hpiece, hread⟩

/-- With a line behind it, a chain of gold keeps what it tells of the coins. -/
theorem keeps_iff_coins :
    let text := ">>>>GOLD:5;the coins glitter!\nDone.".toList
    let chain : Chain := ⟨0, 29, [⟨"GOLD", some "5"⟩], "the coins glitter!".toList⟩
    chain ∈ all text ∧ chain.Keeps text := by
  intro text chain
  have h : chain ∈ all text := by decide +kernel
  exact ⟨h, (keeps_iff h).1.2 (.inl (by decide +kernel))⟩

/-- As the last line, the same chain takes what it tells of the coins and keeps nothing of it. -/
theorem not_keeps_coins :
    let text := ">>>>GOLD:5;the coins glitter!".toList
    ∃ chain ∈ all text, ¬chain.Keeps text := by
  decide +kernel

end StoryAtlas.Chain
