import StoryAtlas.Text.Blank

/-!
# Cutting texts

Trimming, splitting at a separator, joining and searching, all on lists of characters. The functions
on `String` at the end are these seen through `toList`.
-/

namespace StoryAtlas.Text

/-- Drops what satisfies the test from both ends. -/
def trimWhere (drops : Char → Bool) (cs : List Char) : List Char :=
  ((cs.dropWhile drops).reverse.dropWhile drops).reverse

/-- Drops the white space from both ends. -/
def trim (cs : List Char) : List Char := trimWhere isBlank cs

/-- The pieces between the separators; there is always one piece more than separators. -/
def splitAtChar (separator : Char) : List Char → List (List Char)
  | [] => [[]]
  | c :: cs =>
    if c = separator then [] :: splitAtChar separator cs
    else
      match splitAtChar separator cs with
      | [] => [[c]]
      | piece :: pieces => (c :: piece) :: pieces

def joinWith (separator : List Char) : List (List Char) → List Char
  | [] => []
  | [piece] => piece
  | piece :: pieces => piece ++ separator ++ joinWith separator pieces

/-- The text before and after the first occurrence of a pattern. -/
def breakOn (pattern : List Char) : List Char → Option (List Char × List Char)
  | [] => if pattern.isEmpty then some ([], []) else none
  | c :: cs =>
    if pattern.isPrefixOf (c :: cs) then some ([], (c :: cs).drop pattern.length)
    else (breakOn pattern cs).map fun (before, after) => (c :: before, after)

def occursIn (pattern cs : List Char) : Bool := (breakOn pattern cs).isSome

/-- What follows a pattern that stands at the front. -/
def dropPattern? (pattern cs : List Char) : Option (List Char) :=
  if pattern.isPrefixOf cs then some (cs.drop pattern.length) else none

theorem splitAtChar_ne_nil (separator : Char) (cs : List Char) : splitAtChar separator cs ≠ [] := by
  induction cs with
  | nil => simp [splitAtChar]
  | cons c cs ih =>
    unfold splitAtChar
    split
    · simp
    · cases h : splitAtChar separator cs <;> simp

theorem eq_append_of_breakOn {pattern cs before after : List Char}
    (h : breakOn pattern cs = some (before, after)) : cs = before ++ pattern ++ after := by
  induction cs generalizing before after with
  | nil =>
    cases pattern <;> simp_all [breakOn]
  | cons c cs ih =>
    unfold breakOn at h
    split at h
    · next front =>
      obtain ⟨rest, hrest⟩ := List.isPrefixOf_iff_prefix.1 front
      simp only [Option.some.injEq, Prod.mk.injEq] at h
      obtain ⟨rfl, rfl⟩ := h
      simp [← hrest]
    · obtain ⟨⟨b, a⟩, found, hpair⟩ := Option.map_eq_some_iff.1 h
      simp only [Prod.mk.injEq] at hpair
      obtain ⟨rfl, rfl⟩ := hpair
      simp [ih found]

/-- The text holds the pattern somewhere. -/
def mentions (text pattern : String) : Bool := occursIn pattern.toList text.toList

def startsWith (text pattern : String) : Bool := pattern.toList.isPrefixOf text.toList

/-- The text is empty or blank throughout. -/
def isBlankText (text : String) : Bool := allBlank text.toList

/-- The first characters of a text. -/
def clip (count : Nat) (text : String) : String := String.ofList (text.toList.take count)

def join (separator : String) (texts : List String) : String :=
  String.ofList (joinWith separator.toList (texts.map String.toList))

end StoryAtlas.Text
