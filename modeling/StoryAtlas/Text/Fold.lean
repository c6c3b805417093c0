/-!
# Letters without regard to case

Tags and commands are recognised in any case. Four letters beyond ASCII fold onto ASCII ones and are
recognised too: the long s, the kelvin sign, and the two i that differ in their dot. Raising to
capitals is the other direction and is not its inverse: the kelvin sign and the dotted capital are
capitals already. Lowering alone, without recognising, takes the kelvin sign to a k and leaves the
other three.
-/

namespace StoryAtlas.Text

def foldLetter (c : Char) : Char :=
  if c = 'ſ' then 's'
  else if c = '\u212a' then 'k'
  else if c = 'İ' ∨ c = 'ı' then 'i'
  else c.toLower

def raiseLetter (c : Char) : Char :=
  if c = 'ſ' then 'S' else if c = 'ı' then 'I' else c.toUpper

def smallLetter (c : Char) : Char := if c = '\u212a' then 'k' else c.toLower

def raised (cs : List Char) : List Char := cs.map raiseLetter

/-- What follows a small-letter word that stands at the front in any case. -/
def dropFolded? : List Char → List Char → Option (List Char)
  | [], cs => some cs
  | _ :: _, [] => none
  | letter :: word, c :: cs => if foldLetter c = letter then dropFolded? word cs else none

/-- A letter of a command name, or the underscore, in any case. -/
def isNameChar (c : Char) : Bool :=
  let folded := foldLetter c
  ('a' ≤ folded && folded ≤ 'z') || c == '_'

theorem exists_append_of_dropFolded? {word cs rest : List Char}
    (h : dropFolded? word cs = some rest) :
    ∃ shown, cs = shown ++ rest ∧ shown.map foldLetter = word := by
  induction word generalizing cs with
  | nil => exact ⟨[], by simpa [dropFolded?] using h, rfl⟩
  | cons letter word ih =>
    cases cs with
    | nil => simp [dropFolded?] at h
    | cons c cs =>
      simp only [dropFolded?] at h
      split at h
      · next same =>
        obtain ⟨shown, rfl, hword⟩ := ih h
        exact ⟨c :: shown, rfl, by simp [same, hword]⟩
      · simp at h

end StoryAtlas.Text
