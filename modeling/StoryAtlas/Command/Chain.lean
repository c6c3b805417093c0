import StoryAtlas.Text.Trim

/-!
# Chains of commands

A story text carries commands behind a run of at least three arrows: names with optional values,
separated by semicolons. How far a chain reaches depends on whether a line break still follows. If
one does, the chain has the rest of its line, and the pieces that are no commands are kept as prose.
On the last line it ends at the first semicolon that a space follows, so that what comes after stays
in the text. A double quote ends a chain in either case, and a chain whose first piece is no command
is none.
-/

namespace StoryAtlas

structure Command where
  /-- In capitals. -/
  name : String
  value : Option String
deriving DecidableEq, Repr

/-- A chain and the places in the text where it starts and where the text goes on. -/
structure Chain where
  start : Nat
  stop : Nat
  commands : List Command
  prose : List Char := []
deriving DecidableEq, Repr

namespace Command

open Text

def isLetter (c : Char) : Bool := c.isAlpha || c == '_'

/-- What a value may hold besides letters, digits and white space. -/
def valueMarks : List Char := ['_', ':', '\'', '[', ']', '(', ')', '-', '/']

def isValueChar (c : Char) : Bool := c.isAlphanum || valueMarks.contains c || isBlank c

/-- A trimmed piece that is a name, or a name and a value with a colon between. -/
def read (piece : List Char) : Option Command :=
  let cs := trim piece
  let name := cs.takeWhile isLetter
  if name.isEmpty then none
  else
    let shown := String.ofList (name.map Char.toUpper)
    match cs.dropWhile isLetter with
    | [] => some ⟨shown, none⟩
    | ':' :: value =>
      if value.isEmpty || !value.all isValueChar then none
      else some ⟨shown, some (String.ofList (trim value))⟩
    | _ => none

/-- What a piece between semicolons is: nothing, a command, or prose. -/
inductive Part where
  | blank
  | command (read : Command)
  | prose (cs : List Char)
deriving DecidableEq, Repr

def Part.ofPiece (piece : List Char) : Part :=
  if allBlank piece then .blank
  else
    match read piece with
    | some found => .command found
    | none => .prose (trim piece)

def partsOf (cs : List Char) : List Part := (splitAtChar ';' cs).map Part.ofPiece

def Part.command? : Part → Option Command
  | .command found => some found
  | _ => none

def Part.prose? : Part → Option (List Char)
  | .prose cs => some cs
  | _ => none

def opensWithProse : List Part → Bool
  | .prose _ :: _ => true
  | _ => false

/-- The commands before the first piece of prose. -/
def leading : List Part → List Command
  | .command found :: parts => found :: leading parts
  | .blank :: parts => leading parts
  | _ => []

end Command

namespace Chain

open Text Command

/-- What a chain says, and how many characters after the arrows it takes. -/
structure Body where
  commands : List Command
  prose : List Char
  length : Nat
deriving DecidableEq, Repr

/-- A chain on a line that another follows. -/
def readInner (line : List Char) : Option Body :=
  let parts := partsOf line
  if opensWithProse parts then none
  else
    some {
      commands := parts.filterMap Part.command?
      prose := joinWith [';', ' '] (parts.filterMap Part.prose?)
      length := line.length }

/-- A chain on the last line. -/
def readLast (line : List Char) : Option Body :=
  let cut : List Char × Nat :=
    match breakOn [';', ' '] line with
    | some (before, _) => (before, before.length + 2)
    | none => (line, line.length)
  let parts := partsOf cut.1
  let commands := leading parts
  if opensWithProse parts || commands.isEmpty then none
  else some { commands := commands, prose := [], length := cut.2 }

/-- Reads what follows a run of arrows. -/
def readBody (cs : List Char) : Option Body :=
  if cs.contains '\n' then readInner (cs.takeWhile fun c => c != '\n' && c != '"')
  else readLast (cs.takeWhile fun c => c != '"')

def isArrow (c : Char) : Bool := c == '>'

/-- The chains of a text that starts at an offset. A run of arrows that no chain follows is passed
over as a whole. -/
def scanFrom (offset : Nat) : List Char → List Chain
  | [] => []
  | c :: cs =>
    if isArrow c && isArrow (cs[0]?.getD ' ') && isArrow (cs[1]?.getD ' ') then
      let body := cs.dropWhile isArrow
      let bodyAt := offset + 1 + (cs.takeWhile isArrow).length
      match readBody body with
      | some found =>
        { start := offset
          stop := bodyAt + found.length
          commands := found.commands
          prose := found.prose } :: scanFrom (bodyAt + found.length) (body.drop found.length)
      | none => scanFrom bodyAt body
    else scanFrom (offset + 1) cs
termination_by cs => cs.length
decreasing_by
  · have := (List.dropWhile_sublist isArrow (l := cs)).length_le
    simp only [List.length_drop, List.length_cons]
    omega
  · have := (List.dropWhile_sublist isArrow (l := cs)).length_le
    simp only [List.length_cons]
    omega
  · simp

/-- All chains of a text, in order. -/
def all (text : List Char) : List Chain := scanFrom 0 text

/-- The first chain that says something and does not open with one of the commands given. -/
def firstUnless (skipped : List String) (text : List Char) : Option Chain :=
  (all text).find? fun chain =>
    match chain.commands with
    | command :: _ => !skipped.contains command.name
    | [] => false

end Chain

end StoryAtlas
