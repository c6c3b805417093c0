import StoryAtlas.Proofs.Command.Phrase
import StoryAtlas.Proofs.Command.Rest

/-!
# Pages read back

A page is a text as an author writes it: lines of prose and lines of commands, and perhaps a last
line on which prose follows the commands. Extraction reads it back. The effects are those of the
commands as they were written, line by line, and what is left to read is the prose.
-/

namespace StoryAtlas

open Text Command

structure Prose where
  chars : List Char
  oneLine : '\n' ∉ chars
  noSemicolon : ';' ∉ chars
  noArrows : ¬['>', '>', '>'] <:+: chars

inductive PageLine where
  | told (prose : Prose)
  | chain (first : Phrase) (others : List Phrase)

/-- A last line on which prose follows the commands. -/
structure PageEnd where
  first : Phrase
  others : List Phrase
  prose : Prose

structure Page where
  lines : List PageLine
  ending : Option PageEnd := none

namespace PageLine

def phrases : PageLine → List Phrase
  | told _ => []
  | chain first others => first :: others

def written : PageLine → List Char
  | told prose => prose.chars
  | chain first others => arrows ++ series (first :: others)

/-- The line without its commands. -/
def kept : PageLine → List Char
  | told prose => prose.chars
  | chain _ _ => []

end PageLine

namespace PageEnd

def phrases (ending : PageEnd) : List Phrase := ending.first :: ending.others

def written (ending : PageEnd) : List Char :=
  arrows ++ (series ending.phrases ++ (Chain.pause ++ ending.prose.chars))

end PageEnd

namespace Page

def phrases (page : Page) : List Phrase :=
  page.lines.flatMap PageLine.phrases ++ page.ending.toList.flatMap PageEnd.phrases

def written (page : Page) : List Char :=
  joinWith ['\n'] (page.lines.map PageLine.written ++ page.ending.toList.map PageEnd.written)

def kept (page : Page) : List Char :=
  joinWith ['\n'] (page.lines.map PageLine.kept ++
    page.ending.toList.map fun ending => ending.prose.chars)

end Page

/-! ### What is read from a text -/

theorem Chain.prefix_of_opens {c : Char} {cs : List Char} (h : Chain.opens c cs = true) :
    ['>', '>', '>'] <+: c :: cs := by
  rcases cs with - | ⟨d, - | ⟨e, cs⟩⟩
  · simp [opens, isArrow] at h
  · simp [opens, isArrow] at h
  · obtain ⟨⟨rfl, rfl⟩, rfl⟩ : (c = '>' ∧ d = '>') ∧ e = '>' := by
      simpa [opens, isArrow] using h
    exact ⟨cs, rfl⟩

/-- The commands of a text and what is left of it. -/
structure Reads (text : List Char) (commands : List Command) (left : List Char) : Prop where
  said : Chain.said text = commands
  rest : Chain.rest text = left

namespace Reads

open Chain

variable {text after left : List Char} {commands : List Command} {found : Body}

theorem nil : Reads [] [] [] where
  said := by simp [Chain.said, all, scanFrom]
  rest := by simp [Chain.rest, all, scanFrom, Extract.withoutChains]

theorem append {before : List Char} (h : Reads after commands left)
    (hopens : ∀ c back, c :: back <:+ before → opens c (back ++ after) = false) :
    Reads (before ++ after) commands (before ++ left) := by
  induction before with
  | nil => exact h
  | cons c before ih =>
      have hfirst := hopens c before List.suffix_rfl
      have hlater := ih fun d back hback => hopens d back (hback.trans (List.suffix_cons c before))
      refine ⟨(said_skip hfirst).trans hlater.said, ?_⟩
      rw [List.cons_append, rest_skip hfirst, hlater.rest]
      rfl

theorem newline (h : Reads after commands left) :
    Reads ('\n' :: after) commands ('\n' :: left) where
  said := (said_skip (opens_eq_false rfl)).trans h.said
  rest := by rw [rest_skip (opens_eq_false rfl), h.rest]

theorem prose (h : Reads after commands left) (prose : Prose) (hstops : Stops isArrow after) :
    Reads (prose.chars ++ after) commands (prose.chars ++ left) := by
  refine h.append fun c back hback => ?_
  rw [opens_append (.inr hstops), Bool.eq_false_iff]
  intro hopens
  refine prose.noArrows (List.IsInfix.trans ?_ hback.isInfix)
  exact (prefix_of_opens hopens).isInfix

theorem chain (hstops : Stops isArrow text) (hbody : readBody text = some found)
    (h : Reads (text.drop found.length) commands left) :
    Reads (arrows ++ text) (found.commands ++ commands) (found.prose ++ left) := by
  have hdrop : (['>', '>', '>'] ++ text).dropWhile isArrow = text := by
    rw [List.dropWhile_append_of_pos (forall_mem_of_all (by decide)),
      dropWhile_of_stops hstops]
  have hopens : opens '>' (['>', '>', '>'] ++ text) = true := rfl
  have hread : readBody ((['>', '>', '>'] ++ text).dropWhile isArrow) = some found := by
    rw [hdrop, hbody]
  constructor
  · refine (said_found hopens hread).trans ?_
    rw [hdrop, h.said]
  · refine (rest_found hopens hread).trans ?_
    rw [hdrop, h.rest]

end Reads

/-! ### Pages -/

section Reading

open Chain

variable {after left : List Char} {commands : List Command}

theorem PageLine.reads_before (line : PageLine) (h : Reads after commands left) :
    Reads (line.written ++ '\n' :: after) (line.phrases.map Phrase.command ++ commands)
      (line.kept ++ '\n' :: left) := by
  cases line with
  | told prose => exact h.newline.prose prose (stops_cons.2 rfl)
  | chain first others =>
      have hne : first :: others ≠ [] := List.cons_ne_nil first others
      have hrest : Reads ((series (first :: others) ++ '\n' :: after).drop
          (series (first :: others)).length) commands ('\n' :: left) := by
        rw [List.drop_left]
        exact h.newline
      have hread := Reads.chain (stops_series hne ('\n' :: after)) (readBody_series_line hne after)
        hrest
      simpa [PageLine.written, PageLine.phrases, PageLine.kept, bodyOf] using hread

theorem PageLine.reads_last (line : PageLine) :
    Reads line.written (line.phrases.map Phrase.command) line.kept := by
  cases line with
  | told prose =>
      have hread := Reads.nil.prose prose (by simp [Stops])
      rwa [List.append_nil] at hread
  | chain first others =>
      have hne : first :: others ≠ [] := List.cons_ne_nil first others
      have hstops := stops_series hne []
      rw [List.append_nil] at hstops
      have hrest : Reads ((series (first :: others)).drop (series (first :: others)).length)
          [] [] := by
        rw [List.drop_length]
        exact Reads.nil
      have hread := Reads.chain hstops (readBody_series hne) hrest
      simpa [PageLine.written, PageLine.phrases, PageLine.kept, bodyOf] using hread

theorem PageEnd.reads (ending : PageEnd) :
    Reads ending.written (ending.phrases.map Phrase.command) ending.prose.chars := by
  have hne : ending.phrases ≠ [] := List.cons_ne_nil _ _
  have hprose : Reads ending.prose.chars [] ending.prose.chars := by
    simpa using Reads.nil.prose ending.prose (by simp [Stops])
  have hrest : Reads ((series ending.phrases ++ (pause ++ ending.prose.chars)).drop
      (series ending.phrases ++ pause).length) [] ending.prose.chars := by
    rw [← List.append_assoc, List.drop_left]
    exact hprose
  have hread := Reads.chain (stops_series hne _) (readBody_series_pause hne ending.prose.oneLine)
    hrest
  simpa [PageEnd.written, bodyOf] using hread

theorem Page.reads (page : Page) :
    Reads page.written (page.phrases.map Phrase.command) page.kept := by
  obtain ⟨lines, ending⟩ := page
  induction lines with
  | nil =>
      cases ending with
      | none => exact Reads.nil
      | some ending => simpa [written, phrases, kept, joinWith] using ending.reads
  | cons line lines ih =>
      by_cases hlast : lines = [] ∧ ending = none
      · obtain ⟨rfl, rfl⟩ := hlast
        simpa [written, phrases, kept, joinWith] using line.reads_last
      · -- a line break stands between the line and the rest of the page
        have hne : lines ≠ [] ∨ ending.toList ≠ [] := by
          rw [← not_and_or]
          simpa using hlast
        have hread := line.reads_before ih
        simp only [written, phrases, kept, List.map_cons, List.cons_append,
          List.flatMap_cons] at hread ⊢
        rw [joinWith_cons (by simpa [-Option.toList_eq_nil_iff, imp_iff_not_or] using hne),
          joinWith_cons (by simpa [-Option.toList_eq_nil_iff, imp_iff_not_or] using hne)]
        simpa using hread

end Reading

theorem Page.semicolon_notMem_kept (page : Page) : ';' ∉ page.kept := by
  intro hmem
  rcases mem_joinWith hmem with hmem | ⟨piece, hpiece, hmem⟩
  · exact absurd hmem (by decide)
  · rcases List.mem_append.1 hpiece with hpiece | hpiece
    · obtain ⟨line, -, rfl⟩ := List.mem_map.1 hpiece
      cases line with
      | told prose => exact prose.noSemicolon hmem
      | chain first others => cases hmem
    · obtain ⟨ending, -, rfl⟩ := List.mem_map.1 hpiece
      exact ending.prose.noSemicolon hmem

theorem Extract.joinSemicolons_of_not_mem {cs : List Char} (h : ';' ∉ cs) :
    joinSemicolons cs = cs := by
  induction cs with
  | nil => rfl
  | cons c cs ih =>
      rw [List.mem_cons, not_or] at h
      rw [joinSemicolons, ih h.2]
      exact fun _ heq => absurd heq.symm h.1

/-- Extraction inverts writing: the effects are those of the phrases, in order, and the text is what
the page tells, cleaned. -/
theorem ofText_written (lexicon : Lexicon) (page : Page) :
    Extract.ofText lexicon (String.ofList page.written) =
      { effects := page.phrases.flatMap fun phrase => phrase.command.effects lexicon
        text := String.ofList (Markup.cleanChars page.kept) } := by
  obtain ⟨hsaid, hrest⟩ := page.reads
  have hkept := page.semicolon_notMem_kept
  have hstops : ∀ cs : List Char, ';' ∉ cs → Stops (· == ';') cs := fun cs hcs c hc =>
    beq_eq_false_iff_ne.2 fun heq => hcs (heq ▸ List.mem_of_mem_head? hc)
  have hcommands : (Chain.all page.written).flatMap Chain.commands =
      page.phrases.map Phrase.command := hsaid
  have hleft : Extract.withoutChains page.written 0 (Chain.all page.written) = page.kept := hrest
  rw [Extract.ofText, String.toList_ofList, Extract.ofChars]
  rw [hcommands, hleft, Extract.joinSemicolons_of_not_mem hkept, trimWhere_of_stops
    (hstops _ hkept) (hstops _ (by simpa using hkept)), List.flatMap_map]

example : ∃ page : Page, page.written = ">>>>GOLD:47; You take the coins".toList := by
  let amount : Value :=
    ⟨"47".toList, by decide, by decide, forall_mem_of_all (by decide), by decide⟩
  let gold : Phrase := ⟨"GOLD".toList, some amount, by decide, forall_mem_of_all (by decide)⟩
  exact ⟨⟨[], some ⟨gold, [], "You take the coins".toList, by decide, by decide, by decide⟩⟩,
    by decide⟩

end StoryAtlas
