import StoryAtlas.Json.Printer

/-!
# Values in messages

A message shows a value as a literal: strings are quoted, the truth values and the absent value are
capitalised words, and containers are written with a space after each separator. Where a message or
a field wants plain text, a string stands for itself and anything else for its literal.
-/

namespace StoryAtlas.Json

/-- As `floatLayout`, with small-letter words. -/
def literalLayout : Decimal.Layout := { floatLayout with notANumber := "nan", infinity := "inf" }

def floatLiteral (value : Float) : String :=
  String.ofList (literalLayout.write (Decimal.read value))

mutual

def literal : Json → String
  | null => "None"
  | bool true => "True"
  | bool false => "False"
  | int value => intText value
  | float value => floatLiteral value
  | str text => Text.quoted text
  | arr items => "[" ++ literalItems items ++ "]"
  | obj fields => "\x7b" ++ literalFields fields ++ "\x7d"

def literalItems : List Json → String
  | [] => ""
  | [item] => literal item
  | item :: items => literal item ++ ", " ++ literalItems items

def literalFields : List (String × Json) → String
  | [] => ""
  | [(key, value)] => Text.quoted key ++ ": " ++ literal value
  | (key, value) :: fields =>
    Text.quoted key ++ ": " ++ literal value ++ ", " ++ literalFields fields

end

def display : Json → String
  | str text => text
  | value => literal value

end StoryAtlas.Json
