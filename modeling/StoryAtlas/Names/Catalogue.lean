import StoryAtlas.Failure
import StoryAtlas.Journal
import StoryAtlas.Names.Replace

/-!
# Catalogues of cards and talents

A catalogue lists cards with an id and a name. Cards that lack either are passed over. A card whose
id is no number is reported and passed over, except that an infinite id is a fault. Of two cards
with one id the later gives the name.
-/

namespace StoryAtlas.NameTable

/-- The value of a field that is there and not null. -/
def given (key : String) (card : Json) : Option Json :=
  match card.get? key with
  | none | some .null => none
  | some value => some value

def reportId (id : Json) : Journal :=
  Journal.warning ("skipping lookup entry with non-numeric id: " ++ id.literal)

def addCard (names : NameTable) (card : Json) : Except Fault (NameTable × Journal) :=
  match given "id" card, given "name" card with
  | some id, some name =>
    match id.toWhole with
    | .ok number => .ok (Register.put number name.display names, [])
    | .error .wholeOfInfinity => .error .wholeOfInfinity
    | .error _ => .ok (names, reportId id)
  | _, _ => .ok (names, [])

def addCards : NameTable → List Json → Except Fault (NameTable × Journal)
  | names, [] => .ok (names, [])
  | names, card :: cards => do
    let (named, first) ← addCard names card
    let (all, rest) ← addCards named cards
    return (all, first ++ rest)

/-- The names that the catalogues give. -/
def ofCatalogues : NameTable → List Json → Except Fault (NameTable × Journal)
  | names, [] => .ok (names, [])
  | names, catalogue :: rest => do
    let (named, first) ← addCards names (← Json.membersOrNone (catalogue.get? "cards"))
    let (all, last) ← ofCatalogues named rest
    return (all, first ++ last)

end StoryAtlas.NameTable
