import StoryAtlas.Text.Fold
import StoryAtlas.Text.Scan
import StoryAtlas.Text.Trim
import StoryAtlas.Text.Word

/-!
# Clean text

What the player reads is the story text without its markup. Commands that were left in the text
become placeholders in brackets, colour and style tags, speaker tags, conditional displays, continue
markers and left-over amounts go, and every run of white space becomes one space. The rules apply
one after the other, each to the whole text.
-/

namespace StoryAtlas.Markup

open Text

/-- A command that was left in the text. -/
structure Leftover where
  name : List Char
  value : List Char := []
deriving DecidableEq, Repr

/-- What follows three or four arrows. -/
def dropArrows? (cs : List Char) : Option (List Char) :=
  (dropPattern? ['>', '>', '>'] cs).map fun rest =>
    match rest with
    | '>' :: after => after
    | after => after

def isValueEnd (c : Char) : Bool := c == ';' || c == '\n' || c == '>' || c == '"'

/-- A value ends with the text, at a semicolon, line break or quote, or at the next arrows. -/
def endsValue : List Char → Bool
  | [] => true
  | '>' :: '>' :: '>' :: _ => true
  | c :: _ => c == ';' || c == '\n' || c == '"'

def readValued : Recogniser Leftover := fun _ cs => do
  let rest ← dropArrows? cs
  let name := rest.takeWhile isNameChar
  if name.isEmpty then none
  else
    match rest.dropWhile isNameChar with
    | ':' :: tail =>
      let value := tail.takeWhile fun c => !isValueEnd c
      let after := tail.dropWhile fun c => !isValueEnd c
      if value.isEmpty || !endsValue after then none
      else some (⟨name, value⟩, after)
    | _ => none

def readBare : Recogniser Leftover := fun _ cs => do
  let rest ← dropArrows? cs
  let name := rest.takeWhile isNameChar
  let after := rest.dropWhile isNameChar
  if name.isEmpty then none
  else
    match after with
    | c :: _ => if c = ':' || isWord c then none else some (⟨name, []⟩, after)
    | [] => some (⟨name, []⟩, after)

def bracket (title value : List Char) : List Char :=
  '[' :: title ++ ':' :: ' ' :: value ++ [']']

/-- The placeholders of the commands that players know by another title. -/
def showValued (leftover : Leftover) : List Char :=
  let value := trim leftover.value
  match String.ofList (raised leftover.name) with
  | "COMBAT" | "DIRECTCOMBAT" => bracket "Combat".toList value
  | "MERCHANT" => "[Merchant]".toList
  | "GOLD" => bracket "Gold".toList value
  | "HEALTH" => bracket "Health".toList value
  | "RELOADEVENTS" => "[Reload Events]".toList
  | "QUESTFLAG" => bracket "Quest Flag".toList value
  | "NEXTSTATUS" => bracket "Status".toList value
  | _ => bracket leftover.name value

def showBare (leftover : Leftover) : List Char :=
  match String.ofList (raised leftover.name) with
  | "MERCHANT" => "[Merchant]".toList
  | "RELOADEVENTS" => []
  | "END" => "[End]".toList
  | _ => '[' :: leftover.name ++ [']']

/-- What follows a closing mark, if at least one character stands before it. -/
def closeAfterSome (mark : Char) (cs : List Char) : Option (List Char) :=
  match cs.takeWhile (· != mark), cs.dropWhile (· != mark) with
  | _ :: _, _ :: after => some after
  | _, _ => none

def colourOpening (cs : List Char) : Option (List Char) := do
  closeAfterSome '>' (← dropFolded? "<color=".toList cs)

def colourClosing (cs : List Char) : Option (List Char) := do
  match (← dropFolded? "</color".toList cs).dropWhile (· != '>') with
  | _ :: after => some after
  | [] => none

def styleTag : List Char → Option (List Char)
  | '<' :: '/' :: c :: '>' :: after | '<' :: c :: '>' :: after =>
    if foldLetter c = 'b' ∨ foldLetter c = 'i' then some after else none
  | _ => none

def speakerTag (cs : List Char) : Option (List Char) := do
  closeAfterSome '\x7d' (← dropPattern? ['\x7b', '#'] cs)

def conditionalDisplay (cs : List Char) : Option (List Char) := do
  closeAfterSome ']' (← dropPattern? ['[', '?'] cs)

def continueMarker (cs : List Char) : Option (List Char) := dropFolded? "[continue]".toList cs

/-- An amount in brackets, with the semicolon and the white space after it. -/
def leftoverAmount (cs : List Char) : Option (List Char) := do
  let rest ←
    dropFolded? "[damage:".toList cs <|> dropFolded? "[gold:".toList cs <|>
      dropFolded? "[health:".toList cs
  let after ← closeAfterSome ']' rest
  match after with
  | ';' :: tail => some (tail.dropWhile isBlank)
  | tail => some (tail.dropWhile isBlank)

/-- A backslash and a small n, which stand for a line break. -/
def writtenBreak : Recogniser Unit := fun _ cs => (dropPattern? ['\\', 'n'] cs).map ((), ·)

/-- Every run of white space becomes one space. -/
def joinBlanks : List Char → List Char
  | [] => []
  | c :: cs =>
    if isBlank c then
      match cs with
      | d :: _ => if isBlank d then joinBlanks cs else ' ' :: joinBlanks cs
      | [] => [' ']
    else c :: joinBlanks cs

/-- The erasing rules in their order. -/
def erasures : List (List Char → Option (List Char)) :=
  [colourOpening, colourClosing, styleTag, speakerTag, conditionalDisplay, continueMarker,
    leftoverAmount]

def cleanChars (cs : List Char) : List Char :=
  let shown := substitute readBare showBare (substitute readValued showValued cs)
  let erased := erasures.foldl (fun text rule => erase rule text) shown
  trim (joinBlanks (substitute writtenBreak (fun _ => [' ']) erased))

def clean (text : String) : String := String.ofList (cleanChars text.toList)

end StoryAtlas.Markup
