import StoryAtlas.Main
import StoryAtlas.Text.Line
import StoryAtlas.Proofs.Rose.Shuffle
import StoryAtlas.Proofs.Event.Shape
import StoryAtlas.Proofs.Explore.Visit
import StoryAtlas.Proofs.Explore.Ledger
import StoryAtlas.Proofs.Explore.Numbering
import StoryAtlas.Proofs.Split.Choice
import StoryAtlas.Proofs.Register
import StoryAtlas.Proofs.Rose.Edit
import StoryAtlas.Proofs.Event.Place
import StoryAtlas.Proofs.Event.Index
import StoryAtlas.Proofs.Hub.Fold
import StoryAtlas.Proofs.Hub.Promote
import StoryAtlas.Proofs.Run.Retelling
import StoryAtlas.Proofs.Reference.Sibling
import StoryAtlas.Proofs.Reference.Cousin
import StoryAtlas.Proofs.Share.Step
import StoryAtlas.Proofs.Share.Guard
import StoryAtlas.Proofs.Share.Sweep
import StoryAtlas.Proofs.Run.Stages
import StoryAtlas.Proofs.Run.Trees
import StoryAtlas.Proofs.Run.Shape
import StoryAtlas.Proofs.Explore.Links
import StoryAtlas.Proofs.Run.Closed
import StoryAtlas.Proofs.Share.Unfold
import StoryAtlas.Proofs.Share.Faithful
import StoryAtlas.Proofs.Story.Fight
import StoryAtlas.Proofs.Explore.Replay
import StoryAtlas.Proofs.Explore.Resolve
import StoryAtlas.Proofs.Event.Payload
import StoryAtlas.Proofs.Run.Audit
import StoryAtlas.Proofs.Hub.Resolve
import StoryAtlas.Proofs.Hub.Order
import StoryAtlas.Proofs.Reference.Follow
import StoryAtlas.Proofs.Explore.Restore
import StoryAtlas.Proofs.Explore.Order
import StoryAtlas.Proofs.Explore.Budget
import StoryAtlas.Proofs.Stable
import StoryAtlas.Proofs.Run.Isolation
import StoryAtlas.Proofs.Names.Fetch
import StoryAtlas.Proofs.Run.Containment
import StoryAtlas.Proofs.Edit.Plan
import StoryAtlas.Proofs.Split.Contract
import StoryAtlas.Proofs.Edit.Draft
import StoryAtlas.Proofs.Edit.Steps
import StoryAtlas.Proofs.Edit.Bare
import StoryAtlas.Proofs.Edit.Links
import StoryAtlas.Proofs.Edit.Targets
import StoryAtlas.Proofs.Share.Apart
import StoryAtlas.Proofs.Share.Again
import StoryAtlas.Proofs.Event.RoundTrip
import StoryAtlas.Proofs.Edit.Removal
import StoryAtlas.Proofs.Edit.Fresh
import StoryAtlas.Proofs.Edit.Frame
import StoryAtlas.Proofs.Share.Complete
import StoryAtlas.Proofs.Reference.Shorten
import StoryAtlas.Proofs.Reference.Settle
import StoryAtlas.Proofs.Hub.Settle
import StoryAtlas.Proofs.Rose.Depth
import StoryAtlas.Proofs.Reference.Kin
import StoryAtlas.Proofs.Reference.Pair
import StoryAtlas.Proofs.Reference.Borrow
import StoryAtlas.Proofs.Total
import StoryAtlas.Proofs.Hub.Swap
import StoryAtlas.Proofs.Split.Wrapper
import StoryAtlas.Proofs.Command.Seam
import StoryAtlas.Proofs.Command.Ending
import StoryAtlas.Proofs.Split.Segment
import StoryAtlas.Proofs.Command.Span
import StoryAtlas.Proofs.Command.Search
import StoryAtlas.Proofs.Command.Rest
import StoryAtlas.Proofs.Command.Phrase
import StoryAtlas.Proofs.Command.Page
import StoryAtlas.Proofs.Chance.Mask
import StoryAtlas.Proofs.Chance.Agree
import StoryAtlas.Proofs.Chance.Reveal
import StoryAtlas.Proofs.Chance.Gift
import StoryAtlas.Proofs.Chance.Line
import StoryAtlas.Proofs.Explore.History
import StoryAtlas.Proofs.Explore.Once
import StoryAtlas.Proofs.Hub.Offer
import StoryAtlas.Proofs.Explore.Recall
import StoryAtlas.Proofs.Explore.Keys
import StoryAtlas.Proofs.Explore.Fights
import StoryAtlas.Proofs.Choice.Gate
import StoryAtlas.Proofs.Explore.Parents
import StoryAtlas.Proofs.Split.Expected
import StoryAtlas.Proofs.Reference.Outcome
import StoryAtlas.Proofs.Edit.Copy
import StoryAtlas.Proofs.Edit.Copies
import StoryAtlas.Proofs.Rose.Agenda
import StoryAtlas.Proofs.Event.Traversal
import StoryAtlas.Proofs.Share.Compare
import StoryAtlas.Proofs.Share.Tour
import StoryAtlas.Proofs.Share.Lookout
import StoryAtlas.Proofs.Story.Rolls
