import StoryAtlas.Audit
import StoryAtlas.Run.Tally

/-!
# The report of a run

The report accounts for every unit: it was parsed, it failed, or it had no content. It names the
units whose exploration was cut short, adds up what the passes did, and lists the references that
lead nowhere.
-/

namespace StoryAtlas.Run

structure Report where
  parsed : Nat := 0
  failed : List String := []
  empty : Nat := 0
  truncated : List String := []
  nodesBuilt : Nat := 0
  nodesFinal : Nat := 0
  passCounts : Tally := []
  dangling : List Dangling := []

namespace Report

/-- What each pass did, and how many nodes are left. -/
def summary (report : Report) : Journal :=
  report.passCounts.flatMap (fun (name, amount) =>
    Journal.info (name ++ ": " ++ toString amount)) ++
    Journal.info ("final node count: " ++ toString report.nodesFinal ++ " (built " ++
      toString report.nodesBuilt ++ ")")

def buildSummary (report : Report) : Journal :=
  Journal.info ("parsed=" ++ toString report.parsed ++
    " failed=" ++ toString report.failed.length ++
    " no_content=" ++ toString report.empty ++ " nodes=" ++ toString report.nodesBuilt)

end Report

end StoryAtlas.Run
