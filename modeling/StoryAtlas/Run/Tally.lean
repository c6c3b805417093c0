import StoryAtlas.Register

/-!
# Tallies

A tally adds up what each pass did over all trees. The passes stand in the order in which they first
counted, even if what they counted was nothing.
-/

namespace StoryAtlas

abbrev Tally := Register String Nat

namespace Tally

def amount (name : String) (tally : Tally) : Nat := (Register.get? name tally).getD 0

def add (tally : Tally) (count : String × Nat) : Tally :=
  Register.put count.1 (tally.amount count.1 + count.2) tally

def addAll (tally : Tally) (counts : List (String × Nat)) : Tally := counts.foldl add tally

end Tally

end StoryAtlas
