import StoryAtlas.Command.Chain
import StoryAtlas.Markup.Clean
import StoryAtlas.Register

/-!
# Effects of a text

A raw text holds commands and prose. Extraction takes every chain of commands out, turns each
command into the effects it stands for, and cleans what remains. A keyword that a story function may
return is one of several, and its effect lists them all.
-/

namespace StoryAtlas

/-- What the story's functions return, and which variable holds the result of which function. -/
structure Lexicon where
  definitions : Register String (List String) := []
  calls : Register String String := []
deriving DecidableEq, Repr

namespace Lexicon

/-- The values that a function may return. -/
def returns (lexicon : Lexicon) (function : String) : List String :=
  (Register.get? function lexicon.definitions).getD []

end Lexicon

namespace Command

/-- The commands that start a fight. -/
def combatNames : List String := ["COMBAT", "DIRECTCOMBAT"]

def anyKeyword : String := "a keyword"

def chaosKeyword : String := "chaos"

def chaosEffects : List String :=
  ["ADDKEYWORD: random", "ADDKEYWORD: random", "ADDTYPE: Corruption", "SWAPCOST: blood"]

def keywordEffects (lexicon : Lexicon) (value : String) : List String :=
  if value = anyKeyword then ["ADDKEYWORD: random"]
  else if value = chaosKeyword then chaosEffects
  else
    match (lexicon.calls.map fun call => lexicon.returns call.2).find? (·.contains value) with
    | some values => ["ADDKEYWORD: random [" ++ Text.join ", " values ++ "]"]
    | none => ["ADDKEYWORD: " ++ value]

def effects (lexicon : Lexicon) (command : Command) : List String :=
  match command.value with
  | none => [command.name]
  | some value =>
    if combatNames.contains command.name then ["COMBAT: " ++ value]
    else if command.name = "ADDKEYWORD" then keywordEffects lexicon value
    else [command.name ++ ": " ++ value]

end Command

/-- The effects of a text and what is left to read. -/
structure Extract where
  effects : List String := []
  text : String := ""
deriving DecidableEq, Repr

namespace Extract

open Text

/-- The text with the chains cut out and their prose put in. -/
def withoutChains (cs : List Char) (cursor : Nat) : List Chain → List Char
  | [] => cs.drop cursor
  | chain :: chains =>
    (cs.drop cursor).take (chain.start - cursor) ++ chain.prose ++
      withoutChains cs chain.stop chains

/-- A run of semicolons becomes one. -/
def joinSemicolons : List Char → List Char
  | ';' :: ';' :: cs => joinSemicolons (';' :: cs)
  | c :: cs => c :: joinSemicolons cs
  | [] => []

def ofChars (lexicon : Lexicon) (cs : List Char) : Extract :=
  let chains := Chain.all cs
  let remaining := trimWhere (· == ';') (joinSemicolons (withoutChains cs 0 chains))
  { effects := (chains.flatMap Chain.commands).flatMap (Command.effects lexicon)
    text := String.ofList (Markup.cleanChars remaining) }

def ofText (lexicon : Lexicon) (text : String) : Extract := ofChars lexicon text.toList

end Extract

end StoryAtlas
