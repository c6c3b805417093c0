import StoryAtlas.Proofs.Explore.Visit

/-!
# The play is put back

All branches of an exploration are played on one play. Looking ahead behind a choice and exploring
behind it, in either order, leave the play where it stood, whatever happens there. So a visit leaves
it where the stretch that it read ends, and each choice of a node is taken from that same point.

The levels left are those that the limits leave below the depth of a visit: only a visit beyond the
greatest depth is cut, and it leaves the play untouched.
-/

namespace StoryAtlas.Explore

variable {setting : Setting} {next other : Visitor} {visit : Visit} {scene : Scene} {frame : Frame}
  {world : World}

/-! ### One branch after the other -/

theorem play_peek (setting : Setting) (frame : Frame) (label : ChoiceLabel) (world : World) :
    (peek setting frame label world).2.play = world.play := by
  obtain ⟨entries, h⟩ | ⟨menu, entries, -, h⟩ := peek_eq setting frame label world
  · rw [h]
  · rw [h]

theorem play_exploreAll (setting : Setting) (next : Visitor) (frame : Frame) (taken : List Taken)
    (world : World) : (exploreAll setting next frame taken world).2.play = world.play := by
  induction taken generalizing world with
  | nil => rfl
  | cons first taken ih => exact (ih _).trans (play_exploreTaken ..)

theorem play_siblingFirst (setting : Setting) (next : Visitor) (frame : Frame)
    (choices : List (ChoiceLabel × Nat)) (world : World) :
    (siblingFirst setting next frame choices world).2.play = world.play :=
  play_exploreAll ..

theorem play_depthFirst (setting : Setting) (next : Visitor) (frame : Frame)
    (choices : List (ChoiceLabel × Nat)) (world : World) :
    (depthFirst setting next frame choices world).2.play = world.play := by
  induction choices generalizing world with
  | nil => rfl
  | cons choice choices ih =>
      rw [depthFirst]
      split
      · exact ih _
      · exact (ih _).trans (play_exploreTaken ..)

theorem play_exploreChoices (setting : Setting) (next : Visitor) (frame : Frame) (scene : Scene)
    (world : World) : (exploreChoices setting next frame scene world).2.play = world.play := by
  unfold exploreChoices
  dsimp only
  split
  · exact play_siblingFirst ..
  · exact play_depthFirst ..

theorem play_settleScene (setting : Setting) (next : Visitor) (visit : Visit) (scene : Scene)
    (world : World) : (settleScene setting next visit scene world).2.play = world.play := by
  have h := settles setting next visit scene world
  generalize settleScene setting next visit scene world = result at h ⊢
  cases h with
  | opened noLoop noState budget children after found =>
      have hplay : (explored setting next visit scene world).2.play = world.play :=
        play_exploreChoices ..
      rw [found] at hplay
      exact hplay
  | _ => rfl

/-- A visit leaves the play where the stretch that it read ends. -/
theorem play_visitWith (setting : Setting) (next : Visitor) (visit : Visit) (world : World) :
    (visitWith setting next visit world).2.play =
      (world.play.drain setting.script setting.bytecode.rolls).2 := by
  have hlook : (look setting visit world).2.play =
      (world.play.drain setting.script setting.bytecode.rolls).2 := by
    rw [look_eq, drain_eq]
  unfold visitWith
  split
  · next scene after h =>
    rw [h] at hlook
    exact (play_settleScene ..).trans hlook
  · next fault after h =>
    rw [h] at hlook
    exact hlook

/-! ### Every branch from the same point -/

/-- Two visitors that do the same one level down, from wherever a choice leads. -/
def AgreeBehind (setting : Setting) (depth : Int) (play : Play) (next other : Visitor) : Prop :=
  ∀ visit world number, visit.depth = depth + 1 →
    play.choose setting.script number = .ok world.play → next visit world = other visit world

theorem exploreTaken_congr {taken : Taken} {play : Play} (verb : String)
    (hagree : AgreeBehind setting frame.depth play next other)
    (htaken : play.choose setting.script taken.number = .ok taken.play) :
    exploreTaken setting next frame verb taken world =
      exploreTaken setting other frame verb taken world := by
  have hplay := play_peek setting frame taken.label { world with play := taken.play }
  unfold exploreTaken childBehind
  generalize peek setting frame taken.label { world with play := taken.play } = peeked at hplay
  obtain ⟨_ | node, ahead⟩ := peeked
  · have hnext := hagree (frame.behind taken.number) ahead taken.number rfl (hplay ▸ htaken)
    rw [Frame.behind] at hnext
    dsimp only
    rw [hnext]
  · rfl

theorem choose_of_mem_takeAll {play : Play} {choices : List (ChoiceLabel × Nat)} {taken : Taken}
    (h : taken ∈ (takeAll setting play choices).1) :
    play.choose setting.script taken.number = .ok taken.play := by
  induction choices with
  | nil => cases h
  | cons choice choices ih =>
      rw [takeAll] at h
      dsimp only at h
      split at h
      · next after hafter =>
        rcases List.mem_cons.1 h with rfl | hrest
        · exact hafter
        · exact ih hrest
      · exact ih h

theorem exploreAll_congr {play : Play} {taken : List Taken}
    (hagree : AgreeBehind setting frame.depth play next other)
    (htaken : ∀ one ∈ taken, play.choose setting.script one.number = .ok one.play) (world : World) :
    exploreAll setting next frame taken world = exploreAll setting other frame taken world := by
  induction taken generalizing world with
  | nil => rfl
  | cons first taken ih =>
      rw [List.forall_mem_cons] at htaken
      rw [exploreAll, exploreAll, exploreTaken_congr _ hagree htaken.1]
      dsimp only
      rw [ih htaken.2]

theorem depthFirst_congr {choices : List (ChoiceLabel × Nat)}
    (hagree : AgreeBehind setting frame.depth world.play next other) :
    depthFirst setting next frame choices world = depthFirst setting other frame choices world := by
  induction choices generalizing world with
  | nil => rfl
  | cons choice choices ih =>
      rw [depthFirst, depthFirst]
      split
      · exact ih hagree
      · next after hafter =>
        have hplay := play_exploreTaken setting other frame "exploring" ⟨choice.2, choice.1, after⟩
          world
        rw [exploreTaken_congr _ hagree hafter]
        dsimp only
        rw [ih (hplay ▸ hagree)]

theorem exploreChoices_congr (hagree : AgreeBehind setting frame.depth world.play next other) :
    exploreChoices setting next frame scene world =
      exploreChoices setting other frame scene world := by
  unfold exploreChoices siblingFirst
  dsimp only
  split
  · exact exploreAll_congr hagree (fun _ hone => choose_of_mem_takeAll hone) _
  · exact depthFirst_congr hagree

theorem openScene_congr {id : Int}
    (hagree : AgreeBehind setting visit.depth world.play next other) :
    openScene setting next visit scene id world = openScene setting other visit scene id world := by
  unfold openScene
  dsimp only
  split
  · rfl
  · rw [exploreChoices_congr]
    exact hagree

theorem settleScene_congr (hagree : AgreeBehind setting visit.depth world.play next other) :
    settleScene setting next visit scene world = settleScene setting other visit scene world := by
  unfold settleScene
  dsimp only
  rw [openScene_congr]
  exact hagree

/-- A visit looks below only from where the choices at the end of its stretch lead. -/
theorem visitWith_congr (hagree : AgreeBehind setting visit.depth
    (world.play.drain setting.script setting.bytecode.rolls).2 next other) :
    visitWith setting next visit world = visitWith setting other visit world := by
  have hlook : (look setting visit world).2.play =
      (world.play.drain setting.script setting.bytecode.rolls).2 := by
    rw [look_eq, drain_eq]
  unfold visitWith
  split
  · next scene after h =>
    rw [h] at hlook
    exact settleScene_congr (hlook ▸ hagree)
  · rfl

/-! ### Levels and depths -/

/-- A visit with as many levels as the limits leave below its depth. -/
def visitAt (setting : Setting) : Visitor := fun visit =>
  visitLevels setting (setting.limits.maxDepth + 1 - visit.depth).toNat visit

/-- Only a visit beyond the greatest depth is cut; any other makes visits of the same kind. -/
theorem visitAt_eq (setting : Setting) (visit : Visit) (world : World) :
    visitAt setting visit world =
      if setting.limits.maxDepth < visit.depth then
        marker setting (world.update (Ledger.enter setting.limits visit.depth))
      else
        visitWith setting (visitAt setting) visit
          (world.update (Ledger.enter setting.limits visit.depth)) := by
  unfold visitAt
  split
  · next hdeep =>
    have hlevels : (setting.limits.maxDepth + 1 - visit.depth).toNat = 0 := by omega
    rw [hlevels]
    rfl
  · next hdepth =>
    have hlevels : (setting.limits.maxDepth + 1 - visit.depth).toNat =
        (setting.limits.maxDepth - visit.depth).toNat + 1 := by omega
    rw [hlevels, visitLevels]
    apply visitWith_congr
    intro below after number hbelow hafter
    have hsame : setting.limits.maxDepth + 1 - below.depth =
        setting.limits.maxDepth - visit.depth := by omega
    dsimp only
    rw [hsame]

theorem play_visitAt (setting : Setting) (visit : Visit) (world : World) :
    (visitAt setting visit world).2.play =
      if setting.limits.maxDepth < visit.depth then world.play
      else (world.play.drain setting.script setting.bytecode.rolls).2 := by
  rw [visitAt_eq]
  split
  · rfl
  · exact play_visitWith ..

/-- A whole story is explored by a visit with all the levels that the limits leave. -/
theorem run_eq_visitAt (setting : Setting) :
    run setting = visitAt setting ⟨0, "", []⟩ (start setting) := by
  rw [visitAt, Int.sub_zero]
  rfl

/-- The play after a visit is the play before it, drained unless the visit is too deep, and so it is
for the visit that explores a whole story. Exploring the choices of a node in either order, or
looking ahead behind one of them, leaves it where it stood. -/
theorem restored_visit (setting : Setting) (visit : Visit) (world : World) :
    (visitAt setting visit world).2.play =
      (if setting.limits.maxDepth < visit.depth then world.play
      else (world.play.drain setting.script setting.bytecode.rolls).2) ∧
    (run setting).2.play =
      (if setting.limits.maxDepth < 0 then .opening setting.script
      else ((Play.opening setting.script).drain setting.script setting.bytecode.rolls).2) ∧
    (∀ next frame choices, (siblingFirst setting next frame choices world).2.play = world.play) ∧
    (∀ next frame choices, (depthFirst setting next frame choices world).2.play = world.play) ∧
    ∀ frame label, (peek setting frame label world).2.play = world.play := by
  refine ⟨play_visitAt .., ?_, fun next frame choices => play_siblingFirst ..,
    fun next frame choices => play_depthFirst .., fun frame label => play_peek ..⟩
  rw [run_eq_visitAt]
  exact play_visitAt setting ⟨0, "", []⟩ (start setting)

end StoryAtlas.Explore
