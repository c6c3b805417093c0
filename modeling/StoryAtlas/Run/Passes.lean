import StoryAtlas.Chance.Reveal
import StoryAtlas.Edit.Apply
import StoryAtlas.Hub.Fold
import StoryAtlas.Hub.Promote
import StoryAtlas.Names.Replace
import StoryAtlas.Reference.Cousin
import StoryAtlas.Reference.Outcome
import StoryAtlas.Run.Work
import StoryAtlas.Settings.Basic
import StoryAtlas.Share.Collapse
import StoryAtlas.Split.Choice
import StoryAtlas.Split.Fallback
import StoryAtlas.Unit.Tuning

/-!
# The passes of a run

Every tree goes through four stages. The first gives the tree its structure: choices apart from
outcomes. The second folds what is repeated into references and straightens them. The third applies
the alterations of the unit, and the last puts in what only a reader needs: ranges for rolls and
names for cards. The passes of a stage have a fixed order.
-/

namespace StoryAtlas

namespace Stage

/-! ### Structure -/

def dropFallbacks : Stage := onRoot fun tree root =>
  let (pruned, count) := Split.dropFallbacks root
  counted tree "default_nodes_filtered" pruned count

def separateChoices : Stage := onRoot fun tree root =>
  let found := Split.separate tree.name tree.nextId root
  counted { tree with nextId := found.nextId } "choices_separated" found.root found.separated
    found.journal

def maskKeywords : Stage := onRoot fun tree root =>
  let (masked, count) := Roll.maskKeywordLabels root
  counted tree "random_keyword_labels" masked count

/-- The first stage. -/
def shape (settings : Settings) : Stage := fun tree =>
  inOrder
    [onlyIf (settings.passes.dropFallbacks && settings.fallbacksDropped.contains tree.name)
      dropFallbacks,
    onlyIf settings.passes.separateChoices separateChoices,
    maskKeywords] tree

/-! ### References -/

def share (options : Share.Options) : Stage := onRoot fun tree root =>
  let (found, journal) := Share.run options tree.name root
  { tree := .ok { tree with root := some found.root }
    counts := [("dedup_duplicates", found.duplicates), ("dedup_nodes_removed", found.removed)]
    journal := journal }

def foldHubs (minChoices : Int) (enabled : Bool) : Stage := onRoot fun tree root =>
  let (found, journal) := Hub.run minChoices enabled tree.name root
  counted tree "hub_refs_created" found.root found.refsCreated journal

def skipWrappers : Stage := onRoot fun tree root =>
  let found := Reference.skipWrappers tree.name root
  counted tree "choice_refs_rewritten" found.root found.count found.journal

def skipFights : Stage := onRoot fun tree root =>
  let found := Reference.skipFights tree.name root
  counted tree "combat_refs_rewritten" found.root found.count found.journal

def promoteHub (tuning : Tuning) : Stage := onRoot fun tree root =>
  let (after, promotion, journal) := Hub.promote (tuning.menuOf tree.name) tree.name root
  counted tree "hubs_promoted" after (if promotion.isSome then 1 else 0) journal

def borrowChildren (skipCousins skipCrowded : Bool) : Stage := onRoot fun tree root =>
  let (after, conversions, journal) := Reference.borrowAll skipCousins skipCrowded root
  counted tree "ref_children_conversions" after conversions.total journal

/-- The second stage. -/
def fold (settings : Settings) (tuning : Tuning) : Stage := fun tree =>
  let passes := settings.passes
  inOrder
    [onlyIf (0 < settings.sharing.iterations && !settings.unshared.contains tree.name)
      (share settings.sharing),
    foldHubs settings.hubMinChoices (passes.foldHubs && !settings.hubsKept.contains tree.name),
    onlyIf passes.skipWrappers skipWrappers,
    onlyIf passes.skipFights skipFights,
    onlyIf passes.promoteHubs (promoteHub tuning),
    onlyIf passes.borrowChildren
      (borrowChildren (settings.cousinsKept.contains tree.name)
        (settings.crowdedCousinsKept.contains tree.name))] tree

/-! ### Alterations -/

/-- The third stage; a unit without alterations is not counted. -/
def alter (alterations : Register String (List Alteration)) : Stage := onRoot fun tree root =>
  match (Register.get? tree.name alterations).getD [] with
  | [] => Work.ofTree tree
  | found =>
    let done := Edit.apply tree.name found tree.nextId root
    counted { tree with nextId := done.nextId } "alterations_applied" done.root done.applied
      done.journal

/-! ### What readers need -/

def reveal : Stage := onRoot fun tree root =>
  attempted tree "random_values_cleaned" (Roll.reveal root)

def nameCards (names : NameTable) : Stage := onRoot fun tree root =>
  attempted tree "card_ids_replaced" (names.apply root)

/-- The last stage. -/
def finish (settings : Settings) (names : NameTable) : Stage :=
  inOrder [onlyIf settings.passes.revealRolls reveal, onlyIf (!names.isEmpty) (nameCards names)]

end Stage

end StoryAtlas
