import StoryAtlas.Proofs.Hub.Fold
import StoryAtlas.Proofs.Hub.Promote
import StoryAtlas.Proofs.Reference.Borrow
import StoryAtlas.Proofs.Run.Retelling
import StoryAtlas.Proofs.Run.Trees
import StoryAtlas.Proofs.Share.Sweep
import StoryAtlas.Proofs.Split.Choice

/-!
# The shape of the trees of a run

Every pass keeps ids distinct and below the next one, and never gives a node both a reference and
children. Separation makes every node of type choice a wrapper of one outcome, and from then on every
pass keeps that, but for two: the promotion of a hub moves children about, and alterations do as they
are told.
-/

namespace StoryAtlas.Run

variable {settings : Settings} {tuning : Tuning} {alterations : Register String (List Alteration)}

def Unpromoted (settings : Settings) (tuning : Tuning) (name : String) : Prop :=
  settings.passes.promoteHubs = false ∨
    ∀ menu, tuning.menuOf name = some menu → menu.usesThreshold = false

def Unaltered (settings : Settings) (alterations : Register String (List Alteration))
    (name : String) : Prop :=
  settings.passes.applyAlterations = false ∨ (Register.get? name alterations).getD [] = []

/-- The root is sound, and under a condition on the name every choice wraps one outcome. -/
structure Shaped (wraps : String → Prop) (name : String) (nextId : Int) (root : Node) : Prop where
  sound : root.Sound nextId
  wrapsOne : wraps name → root.WrapsOne

theorem Shaped.of_retold {wraps : String → Prop} {name : String} {nextId : Int} {root after : Node}
    (h : Shaped wraps name nextId root) (hretold : root.Retold after) :
    Shaped wraps name nextId after :=
  ⟨h.sound.of_retold hretold, fun hname => (h.wrapsOne hname).of_retold hretold⟩

open Stage

theorem shaped_shape (wraps : String → Prop)
    (hwraps : ∀ name, wraps name → settings.passes.separateChoices = true) :
    Leads (Rooted (Shaped fun _ => False)) (shape settings) (Rooted (Shaped wraps)) := by
  refine leads_inOrder fun tree => ⟨_, rfl, Leads.imp ?_ fun _ => Rooted.imp fun _ _ _ h => h.2⟩
  refine .cons (M := Rooted (Shaped fun _ => False)) (.onlyIf (fun _ => ?_) fun _ _ h => h) ?_
  · apply leads_dropFallbacks
    intro name nextId root h
    exact ⟨Split.sound_dropFallbacks h.sound, fun hname => hname.elim⟩
  refine .cons (M := Rooted (Shaped wraps)) (.onlyIf (fun _ => ?_) fun hskipped => ?_) ?_
  · apply leads_separateChoices
    intro name nextId root h
    exact ⟨Split.sound_separate h.sound, fun _ => Split.wrapsOne_separate name nextId root⟩
  · rintro tree ⟨root, hroot, hstrays, h⟩
    refine ⟨root, hroot, hstrays, h.sound, fun hname => ?_⟩
    rw [hwraps _ hname] at hskipped
    cases hskipped
  refine .cons (M := Rooted (Shaped wraps)) ?_ (.nil fun tree htree => htree)
  apply leads_maskKeywords
  intro name nextId root h
  exact h.of_retold (Roll.relinked_maskKeywordLabels root).retold

theorem shaped_share {wraps : String → Prop} (options : Share.Options) :
    Leads (Rooted (Shaped wraps)) (share options) (Rooted (Shaped wraps)) := by
  apply leads_share
  intro name nextId root h
  obtain ⟨hsteps, -⟩ := Share.steps_run options name h.sound.distinct
  refine ⟨Share.sound_steps h.sound hsteps, fun hname => ?_⟩
  exact Share.wrapsOne_steps h.sound.distinct (h.wrapsOne hname) hsteps

theorem shaped_promoteHub {wraps : String → Prop}
    (hwraps : ∀ name, wraps name →
      ∀ menu, tuning.menuOf name = some menu → menu.usesThreshold = false) :
    Leads (Rooted (Shaped wraps)) (promoteHub tuning) (Rooted (Shaped wraps)) := by
  refine leads_promoteHub fun name nextId root h => ⟨Hub.sound_promote h.sound, fun hname => ?_⟩
  rw [Hub.promote_of_not_usesThreshold name root (hwraps name hname)]
  exact h.wrapsOne hname

theorem shaped_fold {wraps : String → Prop}
    (hwraps : ∀ name, wraps name → Unpromoted settings tuning name) :
    Leads (Rooted (Shaped wraps)) (fold settings tuning) (Rooted (Shaped wraps)) := by
  have idle : ∀ tree, Rooted (Shaped wraps) tree → Rooted (Shaped wraps) tree := fun _ h => h
  refine leads_inOrder fun tree => ⟨_, rfl, Leads.imp ?_ fun _ => Rooted.imp fun _ _ _ h => h.2⟩
  refine .cons (.onlyIf (fun _ => shaped_share settings.sharing) fun _ => idle) ?_
  refine .cons (M := Rooted (Shaped wraps)) (leads_foldHubs fun name nextId root h => ?_) ?_
  · refine ⟨Hub.sound_run h.sound, fun hname => ?_⟩
    exact Hub.wrapsOne_run h.sound.distinct (h.wrapsOne hname)
  refine .cons (M := Rooted (Shaped wraps)) (.onlyIf (fun _ => ?_) fun _ => idle) ?_
  · apply leads_skipWrappers
    intro name nextId root h
    exact h.of_retold (Reference.relinked_skipWrappers name root).retold
  refine .cons (M := Rooted (Shaped wraps)) (.onlyIf (fun _ => ?_) fun _ => idle) ?_
  · apply leads_skipFights
    intro name nextId root h
    exact h.of_retold (Reference.relinked_skipFights name root).retold
  refine .cons (M := Rooted (Shaped wraps)) (.onlyIf (fun hpromotes => ?_) fun _ => idle) ?_
  · refine shaped_promoteHub fun name hname => (hwraps name hname).resolve_left ?_
    rw [hpromotes]
    exact Bool.noConfusion
  refine .cons (.onlyIf (fun _ => ?_) fun _ => idle) (.nil idle)
  apply leads_borrowChildren
  intro name nextId root h
  exact h.of_retold
    (Reference.relinked_borrowAll _ _ h.sound.distinct h.sound.bare).retold

theorem leads_alter_unaltered (p : String → Int → Node → Prop) :
    Leads (Rooted p) (onlyIf settings.passes.applyAlterations (alter alterations))
      (Rooted fun name nextId root => Unaltered settings alterations name → p name nextId root) := by
  refine .onlyIf (fun happly => ?_) fun _ => ?_
  · refine leads_alter (fun name nextId root _ hp _ => hp) fun name nextId root hsome hname => ?_
    rcases hname with hoff | hnone
    · rw [happly] at hoff
      cases hoff
    · exact absurd hnone hsome
  · rintro tree ⟨root, hroot, hstrays, hp⟩
    exact ⟨root, hroot, hstrays, fun _ => hp⟩

/-- The last stage keeps what does not depend on what the beats tell. -/
theorem leads_finish {p : String → Int → Node → Prop} (names : NameTable)
    (h : ∀ name nextId root after, p name nextId root →
      Rose.map Beat.skeleton after = Rose.map Beat.skeleton root → p name nextId after) :
    Leads (Rooted p) (finish settings names) (Rooted p) := by
  refine .cons (.onlyIf (fun _ => ?_) fun _ tree htree => htree)
    (.cons (.onlyIf (fun _ => ?_) fun _ tree htree => htree) (.nil fun tree htree => htree))
  · apply leads_reveal
    intro name nextId root changed count hp hchanged
    exact h _ _ _ _ hp (Roll.skeleton_reveal hchanged)
  · apply leads_nameCards
    intro name nextId root changed count hp hchanged
    exact h _ _ _ _ hp (NameTable.skeleton_apply hchanged)

theorem shaped_finish {wraps unaltered : String → Prop} (names : NameTable) :
    Leads
      (Rooted fun name nextId root => unaltered name → Shaped wraps name nextId root)
      (finish settings names)
      (Rooted fun name nextId root => unaltered name → Shaped wraps name nextId root) := by
  apply leads_finish
  intro name nextId root after h hbones hname
  exact (h hname).of_retold (Node.relinked_of_skeleton hbones).retold

theorem shaped_of_raw {tree : EventTree} (h : Raw settings tuning tree) :
    Rooted (Shaped fun _ => False) tree := by
  obtain ⟨setting, root, world, -, -, hbuilt, hroot, hnextId, hstrays⟩ := h
  refine ⟨root, hroot, hstrays, ?_, fun hname => hname.elim⟩
  rw [hnextId]
  exact (Explore.sound_run hbuilt).1

/-- Every tree of a run without alterations has distinct ids below its next one and no node with both
a reference and children, and where choices are separated and hubs not promoted, each node of type
choice has exactly one child. -/
theorem shaped_run {engine : Engine} {lookup : Lookup} {skipLookup : Bool} {units : List UnitRecord}
    {trees : List EventTree} {report : Report}
    (h : (run engine settings tuning alterations lookup skipLookup units).1 = .ok (trees, report))
    {tree : EventTree} (htree : tree ∈ trees)
    (unaltered : Unaltered settings alterations tree.name) :
    ∃ root, tree.root = some root ∧ root.Sound tree.nextId ∧
      (settings.passes.separateChoices = true → Unpromoted settings tuning tree.name →
        root.WrapsOne) := by
  have htrees := (holds_run (L := fun _ => True) (fun tree => shaped_of_raw)
    (shaped_shape (fun name => settings.passes.separateChoices = true ∧
      Unpromoted settings tuning name) fun name hname => hname.1)
    (shaped_fold fun name hname => hname.2)
    (leads_alter_unaltered _) (fun _ _ _ _ => trivial) shaped_finish
    (Prod.ext h rfl)).1
  obtain ⟨root, hroot, -, hshaped⟩ := htrees tree htree
  obtain ⟨hsound, hwraps⟩ := hshaped unaltered
  exact ⟨root, hroot, hsound, fun hseparate hunpromoted => hwraps ⟨hseparate, hunpromoted⟩⟩

theorem shaped_run_crossing :
    ∃ trees report, (run crossing quietSettings {} [] (.ok [], []) true [crossingUnit]).1 =
        .ok (trees, report) ∧
      ∃ tree ∈ trees, Unaltered quietSettings [] tree.name ∧
        ∃ root, tree.root = some root ∧ root.Sound tree.nextId ∧ root.WrapsOne := by
  obtain ⟨trees, report, hrun, tree, htree, hname⟩ := run_crossing
  have unaltered : Unaltered quietSettings [] tree.name := .inr rfl
  have unpromoted : Unpromoted quietSettings {} tree.name := .inr fun menu hmenu => nomatch hmenu
  obtain ⟨root, hroot, hsound, hwraps⟩ := shaped_run hrun htree unaltered
  exact ⟨trees, report, hrun, tree, htree, unaltered, root, hroot, hsound, hwraps rfl unpromoted⟩

end StoryAtlas.Run
