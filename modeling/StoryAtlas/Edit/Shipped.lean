import StoryAtlas.Edit.Alteration

/-!
# Shipped alterations

Three units have parts that no exploration can find: a puzzle that the story decides by itself, a
change of place, and a door that opens after a detour. The alterations that put these parts in come
with the library.
-/

namespace StoryAtlas.Edit.Shipped

/-- The puzzle in the ice, which the story decides by itself. -/
def puzzle : DraftTree :=
  .node
    { kind := .special
      text := some ""
      effects := ["SELECTCARD", "CARDPUZZLE"]
      continues := some 0 }
    [.node
        { kind := .choice
          label := some "default"
          requirements := ["PUZZLE SUCCESS"] }
        [.node
            { kind := .dialogue
              text := some
                ("Using one of your abilities, the ice fades quickly! Only the sizzling " ++
                 "steam of the broken prison of ice now stands between you and the chest's " ++
                 "contents. The chest pulses with a radiant heat, but is cool to the touch. " ++
                 "In turn, the hum within the cavern rises to a deafening level.")
              continues := some 2
              refCreate := some "You smash at the ice repeatedly" } []],
      .node
        { kind := .choice
          label := some "default"
          requirements := ["PUZZLE FAILURE"] }
        [.node
            { kind := .dialogue
              text := some
                ("Try as you might, you find no solution to breaking the ice around the " ++
                 "strange chest. With no other option left, you descend the icy walls back " ++
                 "to your starting point. At the bottom of the steps the chamber splits into " ++
                 "two passageways.")
              continues := some 1
              refCreate := some "A rhythmic pulse fills the cave" } []]]

/-- The door at the end of the hallway, open once the key has been found upstairs. -/
def unlockedDoor : DraftTree :=
  .node
    { kind := .choice
      label := some "Investigate the large door"
      requirements := ["COMPLETED: Go Upstairs"] }
    [.node
        { kind := .dialogue
          text := some "It doesn't budge. You notice a small keyhole on the door."
          continues := some 0 }
        [.node
            { kind := .choice
              label := some "Unlock the door" }
            [.node
                { kind := .dialogue
                  text := some
                    ("You slowly push open the door, as soon as you make a small opening, " ++
                     "the air around you gets even worse. The Rot intensifies (+20 Rot).")
                  effects := ["AREASPECIAL: 20:Rot"]
                  continues := some 1 }
                [.node
                    { kind := .choice
                      label := some "Continue Pushing" }
                    [.node
                        { kind := .dialogue
                          text := some
                            ("You fully open the door, revealing a small chamber. Inside you " ++
                             "find a corpse next to a scrawled dark green circle covering " ++
                             "the floor. You find a small treasure chest in the back.")
                          effects := ["DELVEFROMANY: treasure", "GOLD: 1", "AREASPECIAL: 20:Rot"]
                          continues := some 2 }
                        [.node
                            { kind := .choice
                              label := some "Leave through the portal" }
                            [.node
                                { kind := .ending
                                  text :=
                                    some "As you leave, the portal closes behind you." }
                                []]]]]],
          .node
            { kind := .choice
              label := some "Leave" }
            [.node
                { kind := .dialogue
                  text := some
                    ("You can distinguish several rooms that are still accessible and a " ++
                     "large closed door is visible in the back of the hallway.")
                  continues := some 0
                  refCreate := some "Enter the portal" } []]]]

def frozenHeart : UnitAlterations where
  name := "Frozen Heart"
  alterations :=
    [ { find := { effect := some "CARDPUZZLE" }
        replaceNode := some puzzle } ]

/-- The talk with the heads ends with a change of place, which the story leaves as a loop. -/
def defiledSanctum : UnitAlterations where
  name := "The Defiled Sanctum"
  alterations :=
    [ { find :=
          { textOrLabel := some "The heads turn in unison before you speak"
            effect := some "GOTOAREA: 91" }
        modify := some {
          removeRef := true
          removeContinues := true
          removeText := true
          removeChildren := true
          kind := some .ending } } ]

def rottingResidence : UnitAlterations where
  name := "Rotting Residence"
  alterations :=
    [ { find := { textOrLabel := some "Investigate the large door" }
        addRequirements := some ["NOT COMPLETED: Go Upstairs"] },
      { find := { textOrLabel := some "The hallway seems to have been part of a large residence" }
        addChild := some unlockedDoor } ]

def all : List UnitAlterations := [frozenHeart, defiledSanctum, rottingResidence]

end StoryAtlas.Edit.Shipped
