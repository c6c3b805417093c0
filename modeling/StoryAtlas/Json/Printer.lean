import StoryAtlas.Json.Basic
import StoryAtlas.Decimal.Shortest
import StoryAtlas.Text.Quoted

/-!
# Writing documents

Two layouts are written. The compact one has no gaps. The indented one puts every item and field on
a line of its own, two spaces deeper than its container, and writes empty containers as a pair of
brackets. Both keep characters beyond ASCII and escape only the quote, the backslash and the
controls.
-/

namespace StoryAtlas.Json

/-- A point is placed for exponents from -4 to 15; the mark is a small e with at least two
digits. -/
def floatLayout : Decimal.Layout where
  leastPositional := -4
  mostPositional := 15
  exponentMark := "e"
  exponentDigits := 2
  notANumber := "NaN"
  infinity := "Infinity"

def floatText (value : Float) : String :=
  String.ofList (floatLayout.write (Decimal.read value))

def intText (value : Int) : String := toString value

def escapeChar (c : Char) : List Char :=
  if c = '"' then ['\\', '"']
  else if c = '\\' then ['\\', '\\']
  else if c = '\n' then ['\\', 'n']
  else if c = '\r' then ['\\', 'r']
  else if c = '\t' then ['\\', 't']
  else if c = '\x08' then ['\\', 'b']
  else if c = '\x0c' then ['\\', 'f']
  else if c.toNat < 32 then '\\' :: 'u' :: Text.hexDigits 4 c.toNat
  else [c]

def stringText (text : String) : String :=
  String.ofList ('"' :: text.toList.flatMap escapeChar ++ ['"'])

/-- The text of a value that is not a container. -/
def scalarText : Json → String
  | bool true => "true"
  | bool false => "false"
  | int value => intText value
  | float value => floatText value
  | str text => stringText text
  | _ => "null"

mutual

def compact : Json → String
  | arr items => "[" ++ compactItems items ++ "]"
  | obj fields => "\x7b" ++ compactFields fields ++ "\x7d"
  | null => "null"
  | bool value => scalarText (bool value)
  | int value => scalarText (int value)
  | float value => scalarText (float value)
  | str text => scalarText (str text)

def compactItems : List Json → String
  | [] => ""
  | [item] => compact item
  | item :: items => compact item ++ "," ++ compactItems items

def compactFields : List (String × Json) → String
  | [] => ""
  | [(key, value)] => stringText key ++ ":" ++ compact value
  | (key, value) :: fields => stringText key ++ ":" ++ compact value ++ "," ++ compactFields fields

end

def newline (depth : Nat) : String := String.ofList ('\n' :: List.replicate (2 * depth) ' ')

mutual

def indented (depth : Nat) : Json → String
  | arr [] => "[]"
  | arr items => "[" ++ indentedItems (depth + 1) items ++ newline depth ++ "]"
  | obj [] => "\x7b\x7d"
  | obj fields => "\x7b" ++ indentedFields (depth + 1) fields ++ newline depth ++ "\x7d"
  | null => "null"
  | bool value => scalarText (bool value)
  | int value => scalarText (int value)
  | float value => scalarText (float value)
  | str text => scalarText (str text)

def indentedItems (depth : Nat) : List Json → String
  | [] => ""
  | [item] => newline depth ++ indented depth item
  | item :: items => newline depth ++ indented depth item ++ "," ++ indentedItems depth items

def indentedFields (depth : Nat) : List (String × Json) → String
  | [] => ""
  | [(key, value)] => newline depth ++ stringText key ++ ": " ++ indented depth value
  | (key, value) :: fields =>
    newline depth ++ stringText key ++ ": " ++ indented depth value ++ "," ++
      indentedFields depth fields

end

end StoryAtlas.Json
