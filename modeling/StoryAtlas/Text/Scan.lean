/-!
# Scanning a text for pieces

A recogniser looks at the character before and at the rest of the text, and answers with what it
found and with what follows. `scan` runs it from left to right and cuts the text into plain
characters and findings, never twice over the same character. Substituting in a text is scanning it
and writing each finding anew.
-/

namespace StoryAtlas.Text

inductive Piece (α : Type) where
  | plain (c : Char)
  | found (finding : α)
deriving DecidableEq, Repr

/-- The character before, if any, and the rest of the text. -/
abbrev Recogniser (α : Type) := Option Char → List Char → Option (α × List Char)

/-- A finding has to use up at least one character, or it is passed over. -/
def scan {α : Type} (recognise : Recogniser α) (before : Option Char) :
    List Char → List (Piece α)
  | [] => []
  | c :: cs =>
    match recognise before (c :: cs) with
    | some (finding, rest) =>
      if rest.length ≤ cs.length then
        .found finding :: scan recognise (cs.take (cs.length - rest.length)).getLast? rest
      else .plain c :: scan recognise (some c) cs
    | none => .plain c :: scan recognise (some c) cs
termination_by cs => cs.length

def Piece.shown {α : Type} (display : α → List Char) : Piece α → List Char
  | .plain c => [c]
  | .found finding => display finding

/-- Writes every finding anew and keeps the plain characters. -/
def substitute {α : Type} (recognise : Recogniser α) (display : α → List Char) (cs : List Char) :
    List Char :=
  (scan recognise none cs).flatMap (Piece.shown display)

/-- The first finding together with the text before and after it. -/
def search {α : Type} (recognise : List Char → Option (α × List Char)) :
    List Char → Option (List Char × α × List Char)
  | [] => none
  | c :: cs =>
    match recognise (c :: cs) with
    | some (finding, rest) => some ([], finding, rest)
    | none => (search recognise cs).map fun (before, found) => (c :: before, found)

/-- Removes every match of a recogniser that reports only what follows. -/
def erase (matchAt : List Char → Option (List Char)) (cs : List Char) : List Char :=
  substitute (fun _ rest => (matchAt rest).map fun after => ((), after)) (fun _ => []) cs

end StoryAtlas.Text
