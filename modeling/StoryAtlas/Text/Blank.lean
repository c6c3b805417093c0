import StoryAtlas.Text.Ranges

/-!
# Blank characters

The white space of the story format is that of Unicode's bidirectional classes, so it also holds the
four separators U+001C to U+001F, the next-line and the no-break space, and it does not hold the
zero-width characters.
-/

namespace StoryAtlas.Text

def blankRanges : List CodeRange :=
  [(9, 13), (28, 32), (133, 133), (160, 160), (5760, 5760), (8192, 8202), (8232, 8233),
    (8239, 8239), (8287, 8287), (12288, 12288)]

def isBlank (c : Char) : Bool := inRanges blankRanges c.toNat

/-- Blank throughout; the empty text is. -/
def allBlank (cs : List Char) : Bool := cs.all isBlank

end StoryAtlas.Text
