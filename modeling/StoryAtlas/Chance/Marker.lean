/-!
# The mark of a rolled amount

Where a text names an amount that was rolled, the player's copy shows a mark. A text that bears the
mark is not compared with other texts, since the mark hides what told them apart.
-/

namespace StoryAtlas.Roll

def marker : String := "«random»"

/-- The label of a choice whose keyword is one of several. -/
def keywordLabel : String := "Add «random»"

end StoryAtlas.Roll
