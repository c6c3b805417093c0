import StoryAtlas.Proofs.Attempt
import StoryAtlas.Run.Pipeline

/-!
# What a run hands on

A stage is a sequence of passes, and what it hands on is what its last pass did, if none gave up. So
a claim about a stage is put together from claims about passes, as conditions before and after. A run
takes the trees of the units, one by one, through the stages; a tree that it returns was built from a
unit and has gone through them all.
-/

namespace StoryAtlas

namespace Stage

variable {P M Q : EventTree → Prop} {stage : Stage} {stages : List Stage} {tree after : EventTree}

/-- From a tree with the first property, whatever the stage hands on has the second. -/
def Leads (P : EventTree → Prop) (stage : Stage) (Q : EventTree → Prop) : Prop :=
  ∀ tree, P tree → ∀ after, (stage tree).tree = .ok after → Q after

theorem Leads.idle (h : ∀ tree, P tree → Q tree) : Leads P idle Q := by
  intro tree htree after hafter
  rw [← Except.ok.inj hafter]
  exact h tree htree

theorem Leads.onlyIf {condition : Bool} (h : condition = true → Leads P stage Q)
    (hnot : condition = false → ∀ tree, P tree → Q tree) :
    Leads P (Stage.onlyIf condition stage) Q := by
  unfold Stage.onlyIf
  split
  · next hcondition => exact h hcondition
  · next hcondition => exact .idle (hnot (by simpa using hcondition))

theorem tree_foldl_andThen (stages : List Stage) (work : Work) :
    (stages.foldl Work.andThen work).tree = work.tree.bind fun tree => (inOrder stages tree).tree := by
  induction stages generalizing work with
  | nil => cases hwork : work.tree <;> simp [hwork, inOrder, Work.ofTree, Except.bind]
  | cons stage stages ih =>
      rw [List.foldl_cons, ih]
      cases hwork : work.tree with
      | error fault => simp [Work.andThen, hwork, Except.bind]
      | ok tree =>
          simp only [Work.andThen, hwork, inOrder, List.foldl_cons, Except.bind]
          rw [ih]
          rfl

theorem Leads.imp {P' : EventTree → Prop} (h : Leads P stage Q) (himp : ∀ tree, P' tree → P tree) :
    Leads P' stage Q :=
  fun tree htree => h tree (himp tree htree)

theorem Leads.nil (h : ∀ tree, P tree → Q tree) : Leads P (inOrder []) Q := Leads.idle h

theorem tree_inOrder_cons (stage : Stage) (stages : List Stage) (tree : EventTree) :
    (inOrder (stage :: stages) tree).tree =
      (stage tree).tree.bind fun tree => (inOrder stages tree).tree :=
  tree_foldl_andThen stages (Work.andThen (Work.ofTree tree) stage)

theorem Leads.cons (h : Leads P stage M) (hrest : Leads M (inOrder stages) Q) :
    Leads P (inOrder (stage :: stages)) Q := by
  intro tree htree after hafter
  rw [tree_inOrder_cons] at hafter
  cases hstage : (stage tree).tree with
  | error fault =>
      rw [hstage] at hafter
      cases hafter
  | ok between =>
      rw [hstage] at hafter
      exact hrest between (h tree htree between hstage) after hafter

/-! ### Passes over a root -/

/-- What holds of the name, the next id and the root of a tree without stray values. -/
def Rooted (p : String → Int → Node → Prop) (tree : EventTree) : Prop :=
  ∃ root, tree.root = some root ∧ tree.strays = [] ∧ p tree.name tree.nextId root

variable {p q : String → Int → Node → Prop}

theorem Rooted.imp (himp : ∀ name nextId root, p name nextId root → q name nextId root)
    (h : Rooted p tree) : Rooted q tree := by
  obtain ⟨root, hroot, hstrays, hp⟩ := h
  exact ⟨root, hroot, hstrays, himp _ _ _ hp⟩

/-- A stage that looks at the name of the unit; the tree keeps its name all the way. -/
theorem leads_inOrder (h : ∀ tree, ∃ stages, stage tree = inOrder stages tree ∧
    Leads (Rooted fun name nextId root => name = tree.name ∧ p name nextId root) (inOrder stages)
      (Rooted q)) :
    Leads (Rooted p) stage (Rooted q) := by
  rintro tree ⟨root, hroot, hstrays, hp⟩ after hafter
  obtain ⟨stages, hstages, hleads⟩ := h tree
  rw [hstages] at hafter
  exact hleads tree ⟨root, hroot, hstrays, rfl, hp⟩ after hafter

theorem leads_onRoot {work : EventTree → Node → Work}
    (h : ∀ tree root after, tree.root = some root → p tree.name tree.nextId root →
      (work tree root).tree = .ok after →
      ∃ changed nextId, after = { tree with root := some changed, nextId := nextId } ∧
        q tree.name nextId changed) :
    Leads (Rooted p) (onRoot work) (Rooted q) := by
  rintro tree ⟨root, hroot, hstrays, hp⟩ after hafter
  rw [onRoot, hroot] at hafter
  obtain ⟨changed, nextId, hchanged, hq⟩ := h tree root after hroot hp hafter
  rw [hchanged]
  exact ⟨changed, rfl, hstrays, hq⟩

/-- A pass that cannot fail, and takes no ids. -/
theorem leads_onRoot_done {work : EventTree → Node → Work} {pass : String → Int → Node → Node}
    (h : ∀ name nextId root, p name nextId root → q name nextId (pass name nextId root))
    (hwork : ∀ tree root, (work tree root).tree =
      .ok { tree with root := some (pass tree.name tree.nextId root) }) :
    Leads (Rooted p) (onRoot work) (Rooted q) := by
  apply leads_onRoot
  intro tree root after _ hp hafter
  rw [hwork] at hafter
  exact ⟨_, tree.nextId, (Except.ok.inj hafter).symm, h _ _ _ hp⟩

theorem leads_dropFallbacks (h : ∀ name nextId root, p name nextId root →
    q name nextId (Split.dropFallbacks root).1) : Leads (Rooted p) dropFallbacks (Rooted q) :=
  leads_onRoot_done h fun _ _ => rfl

theorem leads_separateChoices (h : ∀ name nextId root, p name nextId root →
    q name (Split.separate name nextId root).nextId (Split.separate name nextId root).root) :
    Leads (Rooted p) separateChoices (Rooted q) := by
  apply leads_onRoot
  intro tree root after _ hp hafter
  exact ⟨_, _, (Except.ok.inj hafter).symm, h _ _ _ hp⟩

theorem leads_maskKeywords (h : ∀ name nextId root, p name nextId root →
    q name nextId (Roll.maskKeywordLabels root).1) :
    Leads (Rooted p) maskKeywords (Rooted q) :=
  leads_onRoot_done h fun _ _ => rfl

theorem leads_share {options : Share.Options} (h : ∀ name nextId root, p name nextId root →
    q name nextId (Share.run options name root).1.root) :
    Leads (Rooted p) (share options) (Rooted q) :=
  leads_onRoot_done h fun _ _ => rfl

theorem leads_foldHubs {minChoices : Int} {enabled : Bool}
    (h : ∀ name nextId root, p name nextId root →
      q name nextId (Hub.run minChoices enabled name root).1.root) :
    Leads (Rooted p) (foldHubs minChoices enabled) (Rooted q) :=
  leads_onRoot_done h fun _ _ => rfl

theorem leads_skipWrappers (h : ∀ name nextId root, p name nextId root →
    q name nextId (Reference.skipWrappers name root).root) :
    Leads (Rooted p) skipWrappers (Rooted q) :=
  leads_onRoot_done h fun _ _ => rfl

theorem leads_skipFights (h : ∀ name nextId root, p name nextId root →
    q name nextId (Reference.skipFights name root).root) :
    Leads (Rooted p) skipFights (Rooted q) :=
  leads_onRoot_done h fun _ _ => rfl

theorem leads_promoteHub {tuning : Tuning} (h : ∀ name nextId root, p name nextId root →
    q name nextId (Hub.promote (tuning.menuOf name) name root).1) :
    Leads (Rooted p) (promoteHub tuning) (Rooted q) :=
  leads_onRoot_done h fun _ _ => rfl

theorem leads_borrowChildren {skipCousins skipCrowded : Bool}
    (h : ∀ name nextId root, p name nextId root →
      q name nextId (Reference.borrowAll skipCousins skipCrowded root).1) :
    Leads (Rooted p) (borrowChildren skipCousins skipCrowded) (Rooted q) :=
  leads_onRoot_done h fun _ _ => rfl

/-- A tree without alterations stays; of an altered one nothing is known but its name. -/
theorem leads_alter {alterations : Register String (List Alteration)}
    (h : ∀ name nextId root, (Register.get? name alterations).getD [] = [] →
      p name nextId root → q name nextId root)
    (haltered : ∀ name nextId root, (Register.get? name alterations).getD [] ≠ [] →
      q name nextId root) :
    Leads (Rooted p) (alter alterations) (Rooted q) := by
  apply leads_onRoot
  intro tree root after hroot hp hafter
  split at hafter
  · next hnone =>
    refine ⟨root, tree.nextId, ?_, h _ _ _ hnone hp⟩
    rw [← Except.ok.inj hafter, ← hroot]
  · next found hsome =>
    refine ⟨_, _, (Except.ok.inj hafter).symm, haltered _ _ _ fun hnone => ?_⟩
    exact hsome hnone

theorem attempted_ok {name : String} {found : Except Fault (Node × Nat)}
    (h : (attempted tree name found).tree = .ok after) :
    ∃ changed count, found = .ok (changed, count) ∧ after = { tree with root := some changed } := by
  cases found with
  | error fault => cases h
  | ok found => exact ⟨found.1, found.2, rfl, (Except.ok.inj h).symm⟩

/-- A pass that may fail, and takes no ids. -/
theorem leads_onRoot_attempted {label : String} {pass : Node → Except Fault (Node × Nat)}
    (h : ∀ name nextId root changed count, p name nextId root →
      pass root = .ok (changed, count) → q name nextId changed) :
    Leads (Rooted p) (onRoot fun tree root => attempted tree label (pass root)) (Rooted q) := by
  apply leads_onRoot
  intro tree root after _ hp hafter
  obtain ⟨changed, count, hchanged, htree⟩ := attempted_ok hafter
  exact ⟨changed, tree.nextId, htree, h _ _ _ _ _ hp hchanged⟩

theorem leads_reveal (h : ∀ name nextId root changed count, p name nextId root →
    Roll.reveal root = .ok (changed, count) → q name nextId changed) :
    Leads (Rooted p) reveal (Rooted q) :=
  leads_onRoot_attempted h

theorem leads_nameCards {names : NameTable} (h : ∀ name nextId root changed count,
    p name nextId root → names.apply root = .ok (changed, count) → q name nextId changed) :
    Leads (Rooted p) (nameCards names) (Rooted q) :=
  leads_onRoot_attempted h

/-! ### Names -/

def KeepsName (stage : Stage) : Prop :=
  ∀ tree after, (stage tree).tree = .ok after → after.name = tree.name

theorem keepsName_idle : KeepsName idle := by
  intro tree after h
  rw [← Except.ok.inj h]

theorem keepsName_onlyIf (condition : Bool) (h : KeepsName stage) :
    KeepsName (onlyIf condition stage) := by
  unfold onlyIf
  split
  · exact h
  · exact keepsName_idle

theorem keepsName_inOrder (h : ∀ stage ∈ stages, KeepsName stage) : KeepsName (inOrder stages) := by
  induction stages with
  | nil => exact keepsName_idle
  | cons stage stages ih =>
      intro tree after hafter
      have hrest := ih fun other hother => h other (List.mem_cons_of_mem _ hother)
      rw [tree_inOrder_cons] at hafter
      cases hstage : (stage tree).tree with
      | error fault =>
          rw [hstage] at hafter
          cases hafter
      | ok between =>
          rw [hstage] at hafter
          exact (hrest between after hafter).trans (h stage List.mem_cons_self tree between hstage)

theorem keepsName_onRoot {work : EventTree → Node → Work}
    (h : ∀ tree root after, (work tree root).tree = .ok after → after.name = tree.name) :
    KeepsName (onRoot work) := by
  intro tree after hafter
  unfold onRoot at hafter
  split at hafter
  · next root _ => exact h tree root after hafter
  · rw [← Except.ok.inj hafter]

theorem keepsName_shape (settings : Settings) : KeepsName (shape settings) := by
  intro tree
  refine keepsName_inOrder ?_ tree
  simp only [List.forall_mem_cons, List.not_mem_nil, false_implies, implies_true, and_true]
  refine ⟨keepsName_onlyIf _ ?_, keepsName_onlyIf _ ?_, ?_⟩
  all_goals
    refine keepsName_onRoot fun tree root after h => ?_
    rw [← Except.ok.inj h]

theorem keepsName_fold (settings : Settings) (tuning : Tuning) :
    KeepsName (fold settings tuning) := by
  intro tree
  refine keepsName_inOrder ?_ tree
  simp only [List.forall_mem_cons, List.not_mem_nil, false_implies, implies_true, and_true]
  refine ⟨keepsName_onlyIf _ ?_, ?_, keepsName_onlyIf _ ?_, keepsName_onlyIf _ ?_,
    keepsName_onlyIf _ ?_, keepsName_onlyIf _ ?_⟩
  all_goals
    refine keepsName_onRoot fun tree root after h => ?_
    rw [← Except.ok.inj h]

theorem keepsName_alter (alterations : Register String (List Alteration)) :
    KeepsName (alter alterations) := by
  refine keepsName_onRoot fun tree root after h => ?_
  split at h
  · rw [← Except.ok.inj h]
  · rw [← Except.ok.inj h]

theorem keepsName_finish (settings : Settings) (names : NameTable) :
    KeepsName (finish settings names) := by
  refine keepsName_inOrder ?_
  simp only [List.forall_mem_cons, List.not_mem_nil, false_implies, implies_true, and_true]
  refine ⟨keepsName_onlyIf _ ?_, keepsName_onlyIf _ ?_⟩
  all_goals
    refine keepsName_onRoot fun tree root after h => ?_
    obtain ⟨changed, count, -, rfl⟩ := attempted_ok h
    rfl

end Stage

end StoryAtlas
