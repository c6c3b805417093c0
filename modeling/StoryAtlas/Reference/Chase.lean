import StoryAtlas.Event.Place

/-!
# Following references to their end

A reference may name a node that only refers on. Following a reference goes from target to target,
first by a table of redirections and else by the target's own reference, until a target is met that
leads nowhere or was met before. A node whose own reference leads back to it keeps it.
-/

namespace StoryAtlas.Reference

/-- Where a target leads: by the table first, then by its own reference. -/
def onward (redirects : Register Int Int) (refs : Register Int (Option Int)) (target : Int) :
    Option Int :=
  match Register.get? target redirects with
  | some next => some next
  | none => (Register.get? target refs).join

/-- Follows a target until it leads nowhere or to an id seen before. -/
def follow (redirects : Register Int Int) (refs : Register Int (Option Int)) :
    Nat → List Int → Int → Int
  | 0, _, target => target
  | steps + 1, seen, target =>
    if seen.contains target then target
    else
      match onward redirects refs target with
      | some next => follow redirects refs steps (target :: seen) next
      | none => target

/-- No chain without repetition is longer. -/
def chaseLimit (redirects : Register Int Int) (refs : Register Int (Option Int)) : Nat :=
  redirects.length + refs.length + 2

/-- The end of the chain that starts with the reference of a node. -/
def chainEnd (redirects : Register Int Int) (refs : Register Int (Option Int))
    (id target : Int) : Int :=
  follow redirects refs (chaseLimit redirects refs) [id] target

structure Chased where
  refs : Register Int (Option Int)
  moved : Nat := 0

/-- Points the reference of one node at the end of its chain. -/
def chaseOne (redirects : Register Int Int) (state : Chased) (id : Int) : Chased :=
  match (Register.get? id state.refs).join with
  | none => state
  | some target =>
    let last := chainEnd redirects state.refs id target
    if last = target ∨ last = id then state
    else { refs := Register.put id (some last) state.refs, moved := state.moved + 1 }

/-- Moves the references node by node in walk order, each move being seen by the next. -/
def chaseAll (redirects : Register Int Int) (root : Placed) : Chased :=
  let refs := Register.ofList (root.walk.map fun (node : Placed) => (node.id, node.beat.ref))
  (Register.keys refs).foldl (chaseOne redirects) { refs := refs }

/-- Points every reference at the end of its chain, and counts the changes. -/
def resolvePlaced (redirects : Register Int Int) (root : Placed) : Placed × Nat :=
  let places := Register.ofList (root.walk.map fun (node : Placed) => (node.id, node.place))
  let chased := chaseAll redirects root
  let settled := root.map fun (place, beat) =>
    if Register.get? beat.id places = some place then
      (place, { beat with ref := (Register.get? beat.id chased.refs).join })
    else (place, beat)
  (settled, chased.moved)

def resolve (redirects : Register Int Int) (root : Node) : Node × Nat :=
  let (settled, moved) := resolvePlaced redirects root.placed
  (settled.forget, moved)

end StoryAtlas.Reference
