import StoryAtlas.Unit.Tuning

/-!
# Shipped tuning

The menus and the repeated places of the units that need them. A menu without a threshold sends
every question straight back to its hub.
-/

namespace StoryAtlas.Tuning

def shippedMenus : Register String Menu :=
  [ ("A Strange Painting",
      { hubPattern := "Amongst the paintings near the"
        exitPatterns := ["Make a note of the painting and leave"]
        threshold := some 60.0 }),
    ("Brightcandle Consul",
      { hubPattern := "The Consul looks up and seems to think"
        exitPatterns := ["Ask about the 'plan'"]
        threshold := some 50.0 }),
    ("Dawnbringer Ystel",
      { hubPattern := "Ystel's figure exudes a sense"
        exitPatterns := ["Leave"]
        threshold := some 100.0 }),
    ("Frozen Heart",
      { hubPattern := "A rhythmic pulse fills the cave"
        exitPatterns := ["Take the left tunnel", "Take the right tunnel"]
        threshold := some 30.0
        passOnlyExits := true }),
    ("Heroes' Rest Cemetery Start",
      { hubPattern := "The old wooden wheels creak"
        exitPatterns := ["I have no more questions"]
        threshold := some 60.0 }),
    ("Historic Shard",
      { hubPattern := "You stare into the mirror"
        exitPatterns := ["Skip: We don't have time"]
        threshold := some 60.0 }),
    ("Isle of Talos",
      { hubPattern := "Bolgar straightens his muddied"
        exitPatterns := ["I have no more questions"]
        threshold := some 60.0 }),
    ("Kaius Tagdahar Death",
      { hubPattern := "A quick strike ends the young"
        exitPatterns := ["Let's go"]
        threshold := some 50.0 }),
    ("Statue of Ilthar II Death",
      { hubPattern := "As a [[relation]]? Because you are"
        exitPatterns := ["Skip: I've heard it all before"]
        threshold := some 60.0 }),
    ("Sunfall Meadows Start",
      { hubPattern := "You find yourself journeying along"
        exitPatterns := ["What about my pay?"]
        threshold := some 60.0 }),
    ("Rathael the Slain Death",
      { hubPattern := "A chance to tangle with one of these"
        exitPatterns := ["Fight: Confront the Seraph"] }),
    ("Rotting Residence",
      { hubPattern := "You can distinguish several rooms"
        exitPatterns := ["Leave"]
        threshold := some 80.0 }),
    ("The Boneyard",
      { hubPattern := "\"A parasite, one of the worst"
        exitPatterns := ["Continue"]
        threshold := some 60.0 }),
    ("The Defiled Sanctum",
      { hubPattern := "\"First.\" one of the heads answers."
        exitPatterns := ["Tell me something else."]
        threshold := some 60.0 }),
    ("The Ferryman",
      { hubPattern := "\"I am but a guide for the souls"
        exitPatterns := ["Back to other questions."]
        threshold := some 60.0 }),
    ("The Priestess",
      { hubPattern := "In this mystical place"
        exitPatterns := ["We have to keep moving."]
        threshold := some 60.0 }),
    ("Warfront Survivor",
      { hubPattern := "Amidst the carnage you notice"
        exitPatterns := ["Attack the Demon"]
        threshold := some 50.0 }),
    ("Weeping Woods Start",
      { hubPattern := "\"A wise decision. The dark lands"
        exitPatterns := ["That is all I needed to know"]
        threshold := some 60.0 }) ]

def shippedConvergence : Register String Convergence :=
  [ ("Frozen Heart",
      { skipPatterns :=
          [ "You make your way up to the peak, only to reveal a final challenge",
            "A large chasm greets you on the other side",
            "A masterful illusion",
            "The simple chamber presents two obvious choices" ] }) ]

def shipped : Tuning := { menus := shippedMenus, convergence := shippedConvergence }

end StoryAtlas.Tuning
