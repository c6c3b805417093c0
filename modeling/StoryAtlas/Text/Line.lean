/-!
# Lines

A text falls into lines at newlines, at carriage returns, and at the other characters that separate
lines or larger parts. A carriage return and the newline after it are one end. What follows the last
end is a line of its own unless it is empty.
-/

namespace StoryAtlas.Text

/-- The character ends a line. -/
def endsLine (c : Char) : Bool :=
  (10 ≤ c.toNat && c.toNat ≤ 13) || (28 ≤ c.toNat && c.toNat ≤ 30) || c == '\x85' ||
    c == '\u2028' || c == '\u2029'

/-- The lines of a text that the given characters, in reverse, stand before. -/
def linesAfter (line : List Char) : List Char → List (List Char)
  | [] => if line.isEmpty then [] else [line.reverse]
  | '\r' :: '\n' :: cs => line.reverse :: linesAfter [] cs
  | c :: cs =>
    if endsLine c then line.reverse :: linesAfter [] cs else linesAfter (c :: line) cs

def lines (text : String) : List String := (linesAfter [] text.toList).map String.ofList

end StoryAtlas.Text
