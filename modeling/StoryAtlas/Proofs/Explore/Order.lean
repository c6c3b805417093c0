import StoryAtlas.Proofs.Explore.Replay

/-!
# The order of exploration does not matter

Near the root all choices of a node are taken before the first is explored, further down each is
explored as it is taken. Every choice is taken from the same play, so the two orders do the same but
for the order of the reports. Where the deep levels begin and how many nodes there may be is seen in
a tree only by the branches that are dropped: explorations that drop none agree.

What two such explorations share of their ledgers is the gist: everything but the counts and the
reports.
-/

namespace StoryAtlas.Explore

/-- The setting with another depth at which the deep levels begin and with other budgets. -/
def Setting.rationed (setting : Setting) (level first second : Int) : Setting :=
  { setting with
    limits := { setting.limits with
      siblingFirstDepth := level
      siblingFirstBudget := first
      depthFirstBudget := second } }

/-- What a ledger knows, apart from counts and reports. -/
def Ledger.gist (ledger : Ledger) : Ledger :=
  { ledger with nodeTotal := 0, restarted := false, truncatedBranches := 0, journal := [] }

/-- The same result, and states that are alike in what matters. -/
def Alike {α β : Type} (same : β → β → Prop) (one other : α × β) : Prop :=
  one.1 = other.1 ∧ same one.2 other.2

theorem Alike.exists_eq {α β : Type} {same : β → β → Prop} {one other : α × β}
    (h : Alike same one other) :
    ∃ result now later, one = (result, now) ∧ other = (result, later) ∧ same now later :=
  ⟨one.1, one.2, other.2, rfl, Prod.ext h.1.symm rfl, h.2⟩

def SameGist (one other : Ledger) : Prop := one.gist = other.gist

/-- Two worlds in which the play stands at the same place, with the same gist of their ledgers. -/
structure Abreast (one other : World) : Prop where
  play : one.play = other.play
  gist : SameGist one.ledger other.ledger

variable {setting : Setting} {scene : Scene} {one other : Ledger}

/-! ### Steps that see no more than the gist -/

theorem exists_of_gist (h : SameGist one other) :
    ∃ nodeTotal restarted dropped journal, other = { one with
      nodeTotal := nodeTotal
      restarted := restarted
      truncatedBranches := dropped
      journal := journal } := by
  refine ⟨other.nodeTotal, other.restarted, other.truncatedBranches, other.journal, ?_⟩
  cases one
  cases other
  simp only [SameGist, Ledger.gist, Ledger.mk.injEq, true_and, and_true] at h ⊢
  tauto

theorem seen_of_gist {α : Type} {view : Ledger → α}
    (hview : ∀ ledger, view ledger.gist = view ledger) (h : SameGist one other) :
    view one = view other := by
  rw [← hview one, h, hview]

theorem gist_enter (limits : Limits) (depth : Int) (ledger : Ledger) :
    (ledger.enter limits depth).gist = ledger.gist := by
  unfold Ledger.enter
  split <;> rfl

theorem gist_newNode (h : SameGist one other) : SameGist one.newNode.2 other.newNode.2 :=
  congrArg (fun gist : Ledger => gist.takeId.2) h

theorem gist_rememberPlace (setting : Setting) (scene : Scene) (id : Int)
    (h : SameGist one other) :
    SameGist (rememberPlace setting scene id one) (rememberPlace setting scene id other) := by
  obtain ⟨nodeTotal, restarted, dropped, journal, rfl⟩ := exists_of_gist h
  unfold rememberPlace Ledger.remember
  dsimp only
  split
  · split <;> rfl
  · rfl

theorem gist_registerHub (setting : Setting) (scene : Scene) (id : Int)
    (h : SameGist one other) :
    SameGist (registerHub setting scene id one) (registerHub setting scene id other) := by
  obtain ⟨nodeTotal, restarted, dropped, journal, rfl⟩ := exists_of_gist h
  unfold registerHub Ledger.registerHub
  dsimp only
  split
  · split
    · split
      · split <;> rfl
      · rfl
    · rfl
  · rfl

theorem gist_warnThreshold (unit : String) (hub : HubSnapshot) (compared : Bool)
    (h : SameGist one other) :
    SameGist (one.warnThreshold unit hub compared) (other.warnThreshold unit hub compared) := by
  obtain ⟨nodeTotal, restarted, dropped, journal, rfl⟩ := exists_of_gist h
  unfold Ledger.warnThreshold
  dsimp only
  split <;> rfl

theorem gist_claim (parts : Segment.Parts) (h : SameGist one other) :
    SameGist (claim parts one) (claim parts other) := by
  unfold claim
  split
  · exact gist_newNode h
  · exact h

theorem gist_warnRepeated (setting : Setting) (id : Int) (children : List Node)
    (h : SameGist one other) :
    SameGist (warnRepeated setting id children one) (warnRepeated setting id children other) := by
  have hhub : one.hub = other.hub := seen_of_gist (fun _ => rfl) h
  unfold warnRepeated
  rw [hhub]
  split
  · exact gist_warnThreshold _ _ _ h
  · exact h

theorem gist_converge (signature : Option String) (id : Int) (children : List Node)
    (h : SameGist one other) :
    SameGist (converge signature id children one) (converge signature id children other) := by
  obtain ⟨nodeTotal, restarted, dropped, journal, rfl⟩ := exists_of_gist h
  unfold converge
  split
  · split <;> rfl
  · rfl

theorem alike_finish (setting : Setting) (scene : Scene) (signature : Option String) (id : Int)
    (children : List Node) (h : SameGist one other) :
    Alike SameGist (finish setting scene signature id children one)
      (finish setting scene signature id children other) := by
  have hnextId : one.nextId = other.nextId := seen_of_gist (fun _ => rfl) h
  unfold finish
  rw [hnextId]
  generalize partsOf setting scene children other.nextId = parts
  have hwarned := gist_warnRepeated setting id parts.children (gist_claim parts h)
  have hrepeated : repeatedHub setting id parts.children
        (warnRepeated setting id parts.children (claim parts one)) =
      repeatedHub setting id parts.children
        (warnRepeated setting id parts.children (claim parts other)) :=
    seen_of_gist (fun _ => rfl) hwarned
  dsimp only
  rw [hrepeated]
  split
  · exact ⟨rfl, hwarned⟩
  · exact ⟨rfl, gist_converge _ _ _ hwarned⟩

theorem alike_branch (setting : Setting) (command : String) (knot : String × Json)
    (h : SameGist one other) :
    Alike SameGist (branch setting command knot one) (branch setting command knot other) := by
  obtain ⟨nodeTotal, restarted, dropped, journal, rfl⟩ := exists_of_gist h
  unfold branch
  split
  · exact ⟨rfl, rfl⟩
  · dsimp only
    split <;> exact ⟨rfl, rfl⟩

theorem alike_branches (setting : Setting) (command : String) (knots : List (String × Json))
    (h : SameGist one other) :
    Alike SameGist (branches setting command knots one) (branches setting command knots other) := by
  induction knots generalizing one other with
  | nil => exact ⟨rfl, h⟩
  | cons knot knots ih =>
      obtain ⟨result, now, later, hone, hother, hgist⟩ :=
        (alike_branch setting command knot h).exists_eq
      rw [branches, branches, hone, hother]
      cases result with
      | error fault => exact ⟨rfl, hgist⟩
      | ok first =>
          obtain ⟨results, last, latest, hrest, hrest', hlast⟩ := (ih hgist).exists_eq
          dsimp only
          rw [hrest, hrest']
          cases results with
          | error fault => exact ⟨rfl, hlast⟩
          | ok nodes => exact ⟨rfl, hlast⟩

theorem alike_expand (setting : Setting) (command : String) (effects : List String)
    (h : SameGist one other) :
    Alike SameGist (expand setting command effects one) (expand setting command effects other) := by
  have hnoted : SameGist (one.note (reportKnots setting command))
      (other.note (reportKnots setting command)) := h
  obtain ⟨results, now, later, hone, hother, hgist⟩ :=
    (alike_branches setting command setting.bytecode.knots hnoted).exists_eq
  rw [expand, expand, hone, hother]
  cases results with
  | error fault => exact ⟨rfl, hgist⟩
  | ok nodes =>
      have hnextId : now.nextId = later.nextId := seen_of_gist (fun _ => rfl) hgist
      refine ⟨?_, gist_newNode hgist⟩
      dsimp only
      rw [Ledger.newNode_fst, Ledger.newNode_fst, hnextId]

/-! ### Steps of two worlds side by side -/

variable {next other : Visitor} {visit : Visit} {frame : Frame} {here there : World}

theorem alike_look (setting : Setting) (visit : Visit) (h : Abreast here there) :
    Alike Abreast (look setting visit here) (look setting visit there) := by
  obtain ⟨play, ledger⟩ := here
  obtain ⟨play', ledger'⟩ := there
  obtain ⟨rfl, hgist⟩ := h
  unfold look
  rw [drain_eq, drain_eq]
  dsimp only
  split <;> exact ⟨rfl, rfl, hgist⟩

theorem alike_peek (setting : Setting) (frame : Frame) (label : ChoiceLabel)
    (h : Abreast here there) :
    Alike Abreast (peek setting frame label here) (peek setting frame label there) := by
  obtain ⟨play, ledger⟩ := here
  obtain ⟨play', ledger'⟩ := there
  obtain ⟨rfl, hgist⟩ := h
  have hnextId : ledger.nextId = ledger'.nextId := seen_of_gist (fun _ => rfl) hgist
  unfold peek
  split
  · exact ⟨rfl, rfl, hgist⟩
  rw [drain_eq, drain_eq]
  dsimp only
  split
  · exact ⟨rfl, rfl, hgist⟩
  · refine ⟨?_, rfl, gist_newNode hgist⟩
    dsimp only
    rw [Ledger.newNode_fst, Ledger.newNode_fst, Ledger.nextId_note, Ledger.nextId_note, hnextId]

theorem alike_foldBelow (setting : Setting) (child : Node) (h : Abreast here there) :
    Alike Abreast (foldBelow setting child here) (foldBelow setting child there) := by
  have hhub : here.ledger.hub = there.ledger.hub := seen_of_gist (fun _ => rfl) h.gist
  unfold foldBelow
  rw [hhub]
  split
  · split
    · exact ⟨rfl, h⟩
    · exact ⟨rfl, h.play, gist_warnThreshold _ _ _ h.gist⟩
  · exact ⟨rfl, h⟩

theorem alike_single (beat : Int → Beat) (h : Abreast here there) :
    Alike Abreast (single beat here) (single beat there) := by
  have hnextId : here.ledger.nextId = there.ledger.nextId := seen_of_gist (fun _ => rfl) h.gist
  refine ⟨?_, h.play, gist_newNode h.gist⟩
  unfold single
  dsimp only
  rw [Ledger.newNode_fst, Ledger.newNode_fst, hnextId]

/-! ### Where no branch is dropped -/

/-- No branch was dropped on the way. -/
def Spared (before after : World) : Prop :=
  after.ledger.truncatedBranches = before.ledger.truncatedBranches

/-- What drops no branch on the whole drops none on a part of the way. -/
theorem Spared.part {before start finish after : World} (h : Spared before after)
    (hstart : Evolves setting before.ledger start.ledger)
    (hpart : Evolves setting start.ledger finish.ledger)
    (hfinish : Evolves setting finish.ledger after.ledger) : Spared start finish := by
  have hfirst := hstart.dropped
  have hsecond := hpart.dropped
  have hthird := hfinish.dropped
  unfold Spared at h ⊢
  omega

/-- Two visitors that do alike as long as neither drops a branch. -/
def Matching (next other : Visitor) : Prop :=
  ∀ visit here there, Abreast here there → Spared here (next visit here).2 →
    Spared there (other visit there).2 → Alike Abreast (next visit here) (other visit there)

theorem evolves_peek (setting : Setting) (frame : Frame) (label : ChoiceLabel) (world : World) :
    Evolves setting world.ledger (peek setting frame label world).2.ledger := by
  obtain ⟨entries, h⟩ | ⟨menu, entries, -, h⟩ := peek_eq setting frame label world
  · rw [h]
    exact .note ..
  · rw [h]
    exact (Evolves.note ..).trans (evolves_newNode ..)

/-- Where exploring behind a choice drops no branch, neither does the visit behind it. -/
theorem spared_behind (hnext : Evolving setting next) {taken : Taken} {verb : String}
    {world ahead : World}
    (hpeek : peek setting frame taken.label { world with play := taken.play } = (none, ahead))
    (h : Spared world (exploreTaken setting next frame verb taken world).2) :
    Spared ahead (next (frame.behind taken.number) ahead).2 := by
  have hahead := evolves_peek setting frame taken.label { world with play := taken.play }
  have hafter := hnext (frame.behind taken.number) ahead
  unfold exploreTaken childBehind at h
  rw [hpeek] at hahead h
  rw [Frame.behind] at hafter ⊢
  dsimp only at h
  generalize next _ ahead = found at h hafter ⊢
  obtain ⟨fault | _ | child, after⟩ := found
  · exact h.part hahead hafter (.note ..)
  · exact h.part hahead hafter (.refl ..)
  · exact h.part hahead hafter (evolves_foldBelow ..)

theorem alike_exploreTaken (hmatch : Matching next other) (hnext : Evolving setting next)
    (hother : Evolving setting other) (taken : Taken) {verb verb' : String}
    (h : Abreast here there)
    (hhere : Spared here (exploreTaken setting next frame verb taken here).2)
    (hthere : Spared there (exploreTaken setting other frame verb' taken there).2) :
    Alike Abreast (exploreTaken setting next frame verb taken here)
      (exploreTaken setting other frame verb' taken there) := by
  have htaken : Abreast { here with play := taken.play } { there with play := taken.play } :=
    ⟨rfl, h.gist⟩
  obtain ⟨peeked, ahead, ahead', hpeek, hpeek', habreast⟩ :=
    (alike_peek setting frame taken.label htaken).exists_eq
  cases peeked with
  | some node =>
      unfold exploreTaken childBehind
      rw [hpeek, hpeek']
      exact ⟨rfl, h.play, habreast.gist⟩
  | none =>
      obtain ⟨result, after, after', hfound, hfound', hsame⟩ :=
        (hmatch _ _ _ habreast (spared_behind hnext hpeek hhere)
          (spared_behind hother hpeek' hthere)).exists_eq
      unfold exploreTaken childBehind
      rw [hpeek, hpeek']
      rw [Frame.behind] at hfound hfound'
      dsimp only
      rw [hfound, hfound']
      obtain fault | _ | child := result
      · exact ⟨rfl, h.play, hsame.gist⟩
      · exact ⟨rfl, h.play, hsame.gist⟩
      · have hfolded := alike_foldBelow setting
          (child.withValue (labelBeat taken.label child.value)) hsame
        exact ⟨congrArg some hfolded.1, h.play, hfolded.2.gist⟩

/-! ### One choice after the other -/

/-- The worlds differ at most in what was reported since. -/
def Noted (world now : World) : Prop := ∃ entries, now = world.note entries

theorem Noted.refl (world : World) : Noted world world :=
  ⟨[], by simp only [World.note, World.update, Ledger.note, List.append_nil]⟩

theorem Noted.trans {world now later : World} (first : Noted world now) (second : Noted now later) :
    Noted world later := by
  obtain ⟨entries, rfl⟩ := first
  obtain ⟨more, rfl⟩ := second
  exact ⟨entries ++ more, by simp only [World.note, World.update, Ledger.note, List.append_assoc]⟩

/-- What comes of choices that are explored one after the other, no matter when each of them was
taken and what is reported in between. -/
inductive OneByOne (setting : Setting) (next : Visitor) (frame : Frame) (play : Play) :
    List (ChoiceLabel × Nat) → World → List Node × World → Prop
  | none {world now : World} (noted : Noted world now) :
      OneByOne setting next frame play [] world ([], now)
  | skipped {choices : List (ChoiceLabel × Nat)} {label : ChoiceLabel} {number : Nat}
      {world now : World} {fault : Fault} {result : List Node × World} (noted : Noted world now)
      (failed : play.choose setting.script number = .error fault)
      (rest : OneByOne setting next frame play choices now result) :
      OneByOne setting next frame play ((label, number) :: choices) world result
  | taken {choices : List (ChoiceLabel × Nat)} {label : ChoiceLabel} {number : Nat}
      {world now : World} {after : Play} {result : List Node × World} (verb : String)
      (noted : Noted world now) (chosen : play.choose setting.script number = .ok after)
      (rest : OneByOne setting next frame play choices
        (exploreTaken setting next frame verb ⟨number, label, after⟩ now).2 result) :
      OneByOne setting next frame play ((label, number) :: choices) world
        ((exploreTaken setting next frame verb ⟨number, label, after⟩ now).1.toList ++ result.1,
          result.2)

variable {choices : List (ChoiceLabel × Nat)} {world now : World} {play : Play}
  {result : List Node × World}

theorem OneByOne.of_noted (h : OneByOne setting next frame play choices now result)
    (hnow : Noted world now) : OneByOne setting next frame play choices world result := by
  cases h with
  | none noted => exact .none (hnow.trans noted)
  | skipped noted failed rest => exact .skipped (hnow.trans noted) failed rest
  | taken verb noted chosen rest => exact .taken verb (hnow.trans noted) chosen rest

theorem oneByOne_exploreAll (setting : Setting) (next : Visitor) (frame : Frame) (play : Play)
    (choices : List (ChoiceLabel × Nat)) (world : World) :
    OneByOne setting next frame play choices world
      (exploreAll setting next frame (takeAll setting play choices).1 world) := by
  induction choices generalizing world with
  | nil => exact .none (.refl world)
  | cons choice choices ih =>
      rw [takeAll]
      dsimp only
      split
      · next after hafter => exact .taken "building" (.refl world) hafter (ih _)
      · next fault hfault => exact .skipped (.refl world) hfault (ih world)

theorem oneByOne_depthFirst (setting : Setting) (next : Visitor) (frame : Frame)
    (choices : List (ChoiceLabel × Nat)) (world : World) :
    OneByOne setting next frame world.play choices world
      (depthFirst setting next frame choices world) := by
  induction choices generalizing world with
  | nil => exact .none (.refl world)
  | cons choice choices ih =>
      rw [depthFirst]
      split
      · next fault hfault => exact .skipped ⟨_, rfl⟩ hfault (ih (world.note _))
      · next after hafter =>
        refine .taken "exploring" (.refl world) hafter ?_
        have hrest := ih (exploreTaken setting next frame "exploring"
          ⟨choice.2, choice.1, after⟩ world).2
        rw [play_exploreTaken] at hrest
        exact hrest

/-- Both orders explore one choice after the other from the same play. -/
theorem oneByOne_exploreChoices (setting : Setting) (next : Visitor) (frame : Frame)
    (scene : Scene) (world : World) :
    OneByOne setting next frame world.play scene.choices.zipIdx world
      (exploreChoices setting next frame scene world) := by
  unfold exploreChoices siblingFirst
  dsimp only
  split
  · exact (oneByOne_exploreAll setting next frame world.play _ _).of_noted ⟨_, rfl⟩
  · exact oneByOne_depthFirst ..

theorem Noted.evolves (h : Noted world now) : Evolves setting world.ledger now.ledger := by
  obtain ⟨entries, rfl⟩ := h
  exact .note ..

theorem OneByOne.evolves (hnext : Evolving setting next)
    (h : OneByOne setting next frame play choices world result) :
    Evolves setting world.ledger result.2.ledger := by
  induction h with
  | none noted => exact noted.evolves
  | skipped noted failed rest ih => exact noted.evolves.trans ih
  | taken verb noted chosen rest ih =>
      exact (noted.evolves.trans (evolves_exploreTaken hnext verb _)).trans ih

theorem Abreast.of_noted (h : Abreast here there) (hhere : Noted here now)
    (hthere : Noted there world) : Abreast now world := by
  obtain ⟨entries, rfl⟩ := hhere
  obtain ⟨entries', rfl⟩ := hthere
  exact ⟨h.play, h.gist⟩

/-- Two explorations of the same choices one by one do alike if neither drops a branch. -/
theorem OneByOne.alike {result' : List Node × World} (hmatch : Matching next other)
    (hnext : Evolving setting next) (hother : Evolving setting other)
    (h : OneByOne setting next frame play choices here result)
    (h' : OneByOne setting other frame play choices there result') (habreast : Abreast here there)
    (hhere : Spared here result.2) (hthere : Spared there result'.2) :
    Alike Abreast result result' := by
  induction h generalizing there result' with
  | none noted =>
      cases h' with
      | none noted' => exact ⟨rfl, habreast.of_noted noted noted'⟩
  | skipped noted failed rest ih =>
      cases h' with
      | skipped noted' failed' rest' =>
          exact ih rest' (habreast.of_noted noted noted')
            (hhere.part noted.evolves (rest.evolves hnext) (.refl ..))
            (hthere.part noted'.evolves (rest'.evolves hother) (.refl ..))
      | taken verb' noted' chosen' rest' =>
          rw [failed] at chosen'
          cases chosen'
  | @taken choices label number world now after result verb noted chosen rest ih =>
      cases h' with
      | skipped noted' failed' rest' =>
          rw [chosen] at failed'
          cases failed'
      | @taken _ _ _ _ now' after' _ verb' noted' chosen' rest' =>
          rw [chosen] at chosen'
          cases chosen'
          have hstep : Evolves setting now.ledger
              (exploreTaken setting next frame verb ⟨number, label, after⟩ now).2.ledger :=
            evolves_exploreTaken hnext ..
          have hstep' : Evolves setting now'.ledger
              (exploreTaken setting other frame verb' ⟨number, label, after⟩ now').2.ledger :=
            evolves_exploreTaken hother ..
          have hlast := rest.evolves hnext
          have hlast' := rest'.evolves hother
          have hchild := alike_exploreTaken hmatch hnext hother ⟨number, label, after⟩
            (habreast.of_noted noted noted') (hhere.part noted.evolves hstep hlast)
            (hthere.part noted'.evolves hstep' hlast')
          have hrest := ih rest' hchild.2
            (hhere.part (noted.evolves.trans hstep) hlast (.refl ..))
            (hthere.part (noted'.evolves.trans hstep') hlast' (.refl ..))
          refine ⟨?_, hrest.2⟩
          dsimp only
          rw [hchild.1, hrest.1]

/-! ### Visits -/

variable {level first second : Int}

theorem OneByOne.of_rationed (h : OneByOne
      (setting.rationed level first second) next frame play choices
      world result) :
    OneByOne setting next frame play choices world result := by
  induction h with
  | none noted => exact .none noted
  | skipped noted failed rest ih => exact .skipped noted failed ih
  | taken verb noted chosen rest ih => exact .taken verb noted chosen ih

theorem Evolving.of_rationed (h : Evolving
      (setting.rationed level first second) next) :
    Evolving setting next := by
  intro visit world
  have hnext := h visit world
  exact ⟨hnext.journal, hnext.hub, hnext.dropped, hnext.restarted⟩

def knownMenu (setting : Setting) (scene : Scene) (ledger : Ledger) : Option Int :=
  (scene.signature setting (isHubScene setting scene)).bind fun key =>
    Register.get? key ledger.converged

theorem openScene_known {id ref : Int}
    (h : knownMenu setting scene (registerHub setting scene id world.ledger) = some ref) :
    openScene setting next visit scene id world =
      (.node (scene.refBeat id ref) [], world.update (registerHub setting scene id)) := by
  unfold knownMenu at h
  unfold openScene World.update
  dsimp only
  rw [h]

def behind (setting : Setting) (next : Visitor) (visit : Visit) (scene : Scene) (id : Int)
    (world : World) : List Node × World :=
  exploreChoices setting next (frameOf setting visit scene id) scene
    (world.update (registerHub setting scene id))

theorem openScene_unknown {id : Int}
    (h : knownMenu setting scene (registerHub setting scene id world.ledger) = none) :
    openScene setting next visit scene id world =
      ((finish setting scene (scene.signature setting (isHubScene setting scene)) id
          (behind setting next visit scene id world).1
          (behind setting next visit scene id world).2.ledger).1,
        { (behind setting next visit scene id world).2 with
          ledger := (finish setting scene (scene.signature setting (isHubScene setting scene)) id
            (behind setting next visit scene id world).1
            (behind setting next visit scene id world).2.ledger).2 }) := by
  unfold knownMenu at h
  unfold openScene World.update
  dsimp only
  rw [h]
  rfl

theorem evolves_openScene (hnext : Evolving setting next) {id : Int} :
    Evolves setting world.ledger (openScene setting next visit scene id world).2.ledger := by
  have hregister : Evolves setting world.ledger
      (world.update (registerHub setting scene id)).ledger := .registerHub ..
  cases hmenu : knownMenu setting scene (registerHub setting scene id world.ledger) with
  | some ref =>
      rw [openScene_known hmenu]
      exact hregister
  | none =>
      rw [openScene_unknown hmenu]
      exact (hregister.trans (evolves_exploreChoices hnext)).trans (.finish ..)

theorem spared_openScene {id : Int} (hnext : Evolving setting next)
    (hmenu : knownMenu setting scene (registerHub setting scene id world.ledger) = none)
    (h : Spared world (openScene setting next visit scene id world).2) :
    Spared (world.update (registerHub setting scene id))
      (behind setting next visit scene id world).2 := by
  rw [openScene_unknown hmenu] at h
  have hregister : Evolves setting world.ledger
      (world.update (registerHub setting scene id)).ledger := .registerHub ..
  exact h.part hregister (evolves_exploreChoices hnext) (.finish ..)

theorem alike_openScene (hmatch : Matching next other) (hnext : Evolving setting next)
    (hother : Evolving (setting.rationed level first second) other) {id : Int}
    (h : Abreast here there) (hhere : Spared here (openScene setting next visit scene id here).2)
    (hthere : Spared there
      (openScene (setting.rationed level first second) other visit scene id there).2) :
    Alike Abreast (openScene setting next visit scene id here)
      (openScene (setting.rationed level first second) other visit scene id there) := by
  have hregistered := gist_registerHub setting scene id h.gist
  have hopened : Abreast (here.update (registerHub setting scene id))
      (there.update (registerHub setting scene id)) := ⟨h.play, hregistered⟩
  have hknown : knownMenu setting scene (registerHub setting scene id here.ledger) =
      knownMenu (setting.rationed level first second) scene
        (registerHub (setting.rationed level first second) scene id there.ledger) :=
    seen_of_gist (fun _ => rfl) hregistered
  cases hmenu : knownMenu setting scene (registerHub setting scene id here.ledger) with
  | some ref =>
      rw [openScene_known hmenu, openScene_known (hknown.symm.trans hmenu)]
      exact ⟨rfl, hopened⟩
  | none =>
      have hmenu' := hknown.symm.trans hmenu
      have hbehind : OneByOne setting next (frameOf setting visit scene id) here.play
          scene.choices.zipIdx (here.update (registerHub setting scene id))
          (behind setting next visit scene id here) :=
        oneByOne_exploreChoices setting next _ scene (here.update (registerHub setting scene id))
      have hbehind' : OneByOne setting other (frameOf setting visit scene id) there.play
          scene.choices.zipIdx (there.update (registerHub setting scene id))
          (behind (setting.rationed level first second) other visit scene id there) :=
        (oneByOne_exploreChoices (setting.rationed level first second) other _ scene
          (there.update (registerHub setting scene id))).of_rationed
      rw [← h.play] at hbehind'
      obtain ⟨hnodes, hlast⟩ := hbehind.alike hmatch hnext hother.of_rationed hbehind' hopened
        (spared_openScene hnext hmenu hhere) (spared_openScene hother hmenu' hthere)
      have hfinished := alike_finish setting scene
        (scene.signature setting (isHubScene setting scene)) id
        (behind setting next visit scene id here).1 hlast.gist
      rw [openScene_unknown hmenu, openScene_unknown hmenu', ← hnodes]
      exact ⟨hfinished.1, hlast.play, hfinished.2⟩

theorem abreast_remembered (setting : Setting) (scene : Scene) (h : Abreast here there) :
    Abreast (remembered setting scene here) (remembered setting scene there) := by
  have hnextId : here.ledger.nextId = there.ledger.nextId := seen_of_gist (fun _ => rfl) h.gist
  refine ⟨h.play, ?_⟩
  unfold remembered
  rw [hnextId]
  exact gist_rememberPlace _ _ _ (gist_newNode h.gist)

theorem branches_rationed (setting : Setting) (level first second : Int) (command : String)
    (knots : List (String × Json)) (ledger : Ledger) :
    branches (setting.rationed level first second) command knots ledger =
      branches setting command knots ledger := by
  induction knots generalizing ledger with
  | nil => rfl
  | cons knot knots ih =>
      simp only [branches, ih]
      rfl

theorem expand_rationed (setting : Setting) (level first second : Int) (command : String)
    (effects : List String) (ledger : Ledger) :
    expand (setting.rationed level first second) command effects ledger =
      expand setting command effects ledger := by
  unfold expand
  rw [branches_rationed]
  rfl

/-- What is made of a scene that is new and within the budget. -/
def settleNew (setting : Setting) (next : Visitor) (visit : Visit) (scene : Scene)
    (world : World) : Except Fault (Option Node) × World :=
  match scene.branching setting branchingCommand with
  | some command =>
    match expand setting command scene.content.effects world.ledger with
    | (.ok node, ledger) => (.ok (some node), { world with ledger := ledger })
    | (.error fault, ledger) => (.error fault, { world with ledger := ledger })
  | none =>
  if scene.clean.isEmpty && scene.choices.isEmpty then single (bareBeat · scene) world
  else if scene.choices.isEmpty then
    (.ok (some (.node (leafBeat world.ledger.nextId scene) [])), remembered setting scene world)
  else
    (.ok (some (openScene setting next visit scene world.ledger.nextId
        (remembered setting scene world)).1),
      (openScene setting next visit scene world.ledger.nextId (remembered setting scene world)).2)

theorem settleScene_eq (setting : Setting) (next : Visitor) (visit : Visit) (scene : Scene)
    (world : World) :
    settleScene setting next visit scene world =
      match scene.textLoop setting.limits visit with
      | some ref => single (scene.refBeat · ref) world
      | none =>
      match scene.repeatedState setting.limits world.ledger with
      | some ref => single (scene.refBeat · ref) world
      | none =>
      if setting.limits.budget visit.depth ≤ world.ledger.nodeTotal then
        dropBranch setting visit scene world
      else settleNew setting next visit scene world := rfl

theorem alike_settleNew (hmatch : Matching next other) (hnext : Evolving setting next)
    (hother : Evolving (setting.rationed level first second) other) (h : Abreast here there)
    (hhere : Spared here (settleNew setting next visit scene here).2)
    (hthere : Spared there
      (settleNew (setting.rationed level first second) other visit scene there).2) :
    Alike Abreast (settleNew setting next visit scene here)
      (settleNew (setting.rationed level first second) other visit scene there) := by
  have hnextId : here.ledger.nextId = there.ledger.nextId := seen_of_gist (fun _ => rfl) h.gist
  have hbranching : scene.branching (setting.rationed level first second) branchingCommand =
      scene.branching setting branchingCommand := rfl
  unfold settleNew at hhere hthere ⊢
  rw [hbranching] at hthere ⊢
  cases hcommand : scene.branching setting branchingCommand with
  | some command =>
      obtain ⟨result, now, later, hexpand, hexpand', hgist⟩ :=
        (alike_expand setting command scene.content.effects h.gist).exists_eq
      dsimp only
      rw [expand_rationed, hexpand, hexpand']
      cases result with
      | error fault => exact ⟨rfl, h.play, hgist⟩
      | ok node => exact ⟨rfl, h.play, hgist⟩
  | none =>
      rw [hcommand] at hhere hthere
      dsimp only at hhere hthere ⊢
      have hremembered := abreast_remembered setting scene h
      split
      · exact alike_single _ h
      next hspeaks =>
      rw [if_neg hspeaks] at hhere hthere
      split
      · exact ⟨by rw [hnextId], hremembered⟩
      next hchoices =>
      rw [if_neg hchoices] at hhere hthere
      rw [hnextId] at hhere ⊢
      have hremember : Evolves (setting.rationed level first second) there.ledger
          (remembered setting scene there).ledger := evolves_remembered ..
      have hopened := alike_openScene hmatch hnext hother hremembered
        (hhere.part (evolves_remembered ..) (evolves_openScene hnext) (.refl ..))
        (hthere.part hremember (evolves_openScene hother) (.refl ..))
      exact ⟨congrArg (fun node => Except.ok (some node)) hopened.1, hopened.2⟩

theorem alike_settleScene (hmatch : Matching next other) (hnext : Evolving setting next)
    (hother : Evolving (setting.rationed level first second) other) (h : Abreast here there)
    (hhere : Spared here (settleScene setting next visit scene here).2)
    (hthere : Spared there
      (settleScene (setting.rationed level first second) other visit scene there).2) :
    Alike Abreast (settleScene setting next visit scene here)
      (settleScene (setting.rationed level first second) other visit scene there) := by
  have hstates : here.ledger.states = there.ledger.states := seen_of_gist (fun _ => rfl) h.gist
  have htext : scene.textLoop (setting.rationed level first second).limits visit =
      scene.textLoop setting.limits visit := rfl
  have hstate : scene.repeatedState (setting.rationed level first second).limits there.ledger =
      scene.repeatedState setting.limits here.ledger := by
    unfold Scene.repeatedState
    rw [hstates]
    rfl
  rw [settleScene_eq] at hhere hthere ⊢
  rw [settleScene_eq]
  rw [htext, hstate] at hthere ⊢
  cases hloop : scene.textLoop setting.limits visit with
  | some ref => exact alike_single _ h
  | none =>
  cases hrepeated : scene.repeatedState setting.limits here.ledger with
  | some ref => exact alike_single _ h
  | none =>
  rw [hloop, hrepeated] at hhere hthere
  dsimp only at hhere hthere ⊢
  -- a branch dropped here would count
  have hbudget : ¬setting.limits.budget visit.depth ≤ here.ledger.nodeTotal := by
    intro hspent
    rw [if_pos hspent] at hhere
    exact absurd hhere (Nat.succ_ne_self _)
  have hbudget' : ¬(setting.rationed level first second).limits.budget visit.depth ≤
      there.ledger.nodeTotal := by
    intro hspent
    rw [if_pos hspent] at hthere
    exact absurd hthere (Nat.succ_ne_self _)
  rw [if_neg hbudget] at hhere ⊢
  rw [if_neg hbudget'] at hthere ⊢
  exact alike_settleNew hmatch hnext hother h hhere hthere

theorem alike_marker (setting : Setting) (level first second : Int) (h : Abreast here there) :
    Alike Abreast (marker setting here) (marker (setting.rationed level first second) there) := by
  have hnextId : here.ledger.nextId = there.ledger.nextId := seen_of_gist (fun _ => rfl) h.gist
  obtain ⟨nodeTotal, restarted, dropped, journal, hledger⟩ := exists_of_gist h.gist
  refine ⟨?_, h.play, ?_⟩
  · unfold marker
    dsimp only
    rw [Ledger.newNode_fst, Ledger.newNode_fst]
    exact congrArg (fun id => Except.ok (some (Rose.node (markerBeat id) []))) hnextId
  · unfold marker
    dsimp only
    rw [hledger]
    rfl

theorem alike_visitWith (hmatch : Matching next other) (hnext : Evolving setting next)
    (hother : Evolving (setting.rationed level first second) other) :
    Matching (visitWith setting next) (visitWith (setting.rationed level first second) other) := by
  intro visit here there h hhere hthere
  obtain ⟨result, after, after', hlook, hlook', hafter⟩ := (alike_look setting visit h).exists_eq
  have hrationed : look (setting.rationed level first second) visit there = (result, after') :=
    hlook'
  have hlooked := evolves_look setting visit here
  have hlooked' := evolves_look (setting.rationed level first second) visit there
  rw [hlook] at hlooked
  rw [hrationed] at hlooked'
  unfold visitWith at hhere hthere ⊢
  rw [hlook] at hhere ⊢
  rw [hrationed] at hthere ⊢
  cases result with
  | error fault => exact ⟨rfl, hafter⟩
  | ok scene =>
      exact alike_settleScene hmatch hnext hother hafter
        (hhere.part hlooked (evolves_settleScene hnext) (.refl ..))
        (hthere.part hlooked' (evolves_settleScene hother) (.refl ..))

theorem abreast_enter (limits limits' : Limits) (depth : Int) (h : Abreast here there) :
    Abreast (here.update (Ledger.enter limits depth)) (there.update (Ledger.enter limits' depth)) :=
  ⟨h.play, (gist_enter limits depth here.ledger).trans
    (h.gist.trans (gist_enter limits' depth there.ledger).symm)⟩

/-- Visits of any depth do alike under other bounds as long as neither drops a branch. -/
theorem matching_visitLevels (setting : Setting) (level first second : Int) (levels : Nat) :
    Matching (visitLevels setting levels)
      (visitLevels (setting.rationed level first second) levels) := by
  induction levels with
  | zero =>
      intro visit here there h hhere hthere
      exact alike_marker setting level first second (abreast_enter _ _ _ h)
  | succ levels ih =>
      intro visit here there h hhere hthere
      have hnext := evolving_visitLevels setting levels
      have hother := evolving_visitLevels (setting.rationed level first second) levels
      exact alike_visitWith ih hnext hother visit _ _ (abreast_enter _ _ _ h)
        (hhere.part (.enter ..) (evolves_visitWith hnext) (.refl ..))
        (hthere.part (.enter ..) (evolves_visitWith hother) (.refl ..))

/-- Explorations under different bounds that drop no branch make the same tree, with the same
numbers, and end with the same knowledge of places, of menus and of the hub. -/
theorem run_rationed (setting : Setting) (level first second : Int)
    (kept : (run setting).2.ledger.truncatedBranches = 0)
    (kept' : (run (setting.rationed level first second)).2.ledger.truncatedBranches = 0) :
    (run (setting.rationed level first second)).1 = (run setting).1 ∧
      (run (setting.rationed level first second)).2.ledger.nextId =
        (run setting).2.ledger.nextId ∧
      (run (setting.rationed level first second)).2.ledger.states =
        (run setting).2.ledger.states ∧
      (run (setting.rationed level first second)).2.ledger.converged =
        (run setting).2.ledger.converged ∧
      (run (setting.rationed level first second)).2.ledger.hub = (run setting).2.ledger.hub := by
  have hmatching := matching_visitLevels setting level first second
    (setting.limits.maxDepth + 1).toNat ⟨0, "", []⟩ (start setting)
    (start (setting.rationed level first second)) ⟨rfl, rfl⟩ kept kept'
  obtain ⟨htree, hend⟩ := hmatching
  have hgist : SameGist (run (setting.rationed level first second)).2.ledger
      (run setting).2.ledger := hend.gist.symm
  exact ⟨htree.symm, seen_of_gist (fun _ => rfl) hgist, seen_of_gist (fun _ => rfl) hgist,
    seen_of_gist (fun _ => rfl) hgist, seen_of_gist (fun _ => rfl) hgist⟩

theorem run_rationed_brook :
    (run brook).2.ledger.restarted = false ∧
      (run (brook.rationed 1 10 10)).2.ledger.restarted = true ∧
      (run (brook.rationed 1 10 10)).1 = (run brook).1 := by
  have hshallow : ((run brook).2.ledger.truncatedBranches, (run brook).2.ledger.restarted) =
      (0, false) := by decide +kernel
  have hdeep : ((run (brook.rationed 1 10 10)).2.ledger.truncatedBranches,
      (run (brook.rationed 1 10 10)).2.ledger.restarted) = (0, true) := by decide +kernel
  exact ⟨congrArg Prod.snd hshallow, congrArg Prod.snd hdeep,
    (run_rationed brook 1 10 10 (congrArg Prod.fst hshallow) (congrArg Prod.fst hdeep)).1⟩

end StoryAtlas.Explore
