/-!
# Dependency graphs

A graph whose edges read "depends on".  Its nodes are grouped into components of nodes that depend
on each other, and every component comes after those that it depends on.

The order is that of a depth-first search which starts from the nodes in turn and follows edges in
the order of their adding.  A component is listed when the search leaves its first node for good,
and its nodes are listed backwards, the latest found first.
-/

namespace ManySorted

universe u

/-- A directed graph with marked edges. -/
structure DepGraph (N : Type u) where
  nodes : Array N := #[]
  /-- For each node, what it depends on, with the mark of the edge. -/
  edges : Array (List (Nat × Bool)) := #[]
deriving Repr

/-- How far a depth-first search has got. -/
structure Visit where
  /-- The nodes found, latest first. -/
  found : List Nat := []
  /-- The nodes left for good, latest first. -/
  left : List Nat := []
deriving DecidableEq, Repr

namespace DepGraph

variable {N : Type u}

def size (g : DepGraph N) : Nat := g.nodes.size

/-- The index of a node, which is added if it is new. -/
def addNode [DecidableEq N] (g : DepGraph N) (node : N) : Nat × DepGraph N :=
  match g.nodes.idxOf? node with
  | some i => (i, g)
  | none => (g.nodes.size, { nodes := g.nodes.push node, edges := g.edges.push [] })

/-- Adds an edge, and its two nodes if they are new. -/
def addEdge [DecidableEq N] (g : DepGraph N) (source target : N) (mark : Bool) : DepGraph N :=
  let (i, g) := g.addNode source
  let (j, g) := g.addNode target
  { g with edges := g.edges.modify i (· ++ [(j, mark)]) }

/-- The edges that leave a node. -/
def edgesOf (g : DepGraph N) (i : Nat) : List (Nat × Bool) := g.edges.getD i []

/-- What a node depends on. -/
def targets (g : DepGraph N) (i : Nat) : List Nat := (g.edgesOf i).map Prod.fst

/-- Searches from node `i`, along paths of at most `fuel` nodes. -/
def visit (g : DepGraph N) : Nat → Visit → Nat → Visit
  | 0, state, _ => state
  | fuel + 1, state, i =>
      if state.found.contains i then state
      else
        let below := (g.targets i).foldl (g.visit fuel) { state with found := i :: state.found }
        { below with left := i :: below.left }

/-- Searches from each of the given nodes in turn.  A path has no more nodes than the graph. -/
def visitAll (g : DepGraph N) (starts : List Nat) : Visit :=
  starts.foldl (g.visit g.size) {}

/-- Every node that `i` depends on, directly or not, and `i` itself. -/
def reachable (g : DepGraph N) (i : Nat) : List Nat := (g.visitAll [i]).found

/-- For each of the first `n` numbers, whether it is in the list. -/
def membership (n : Nat) (l : List Nat) : Array Bool :=
  l.foldl (fun marks i => marks.setIfInBounds i true) (Array.replicate n false)

/-- For each node, the nodes that depend on each other with it, the latest found first. -/
def groups (g : DepGraph N) : Array (List Nat) :=
  let order := (g.visitAll (List.range g.size)).found
  let reached := (Array.range g.size).map fun i => membership g.size (g.reachable i)
  let reaches (i j : Nat) : Bool := (reached.getD i #[]).getD j false
  (Array.range g.size).map fun i => order.filter fun j => reaches i j && reaches j i

/-- The components, each after those that it depends on.  A component stands for the node of it
that was found first. -/
def components (g : DepGraph N) : List (List Nat) :=
  let groups := g.groups
  ((g.visitAll (List.range g.size)).left.reverse.map fun i => (i, groups.getD i [])).filterMap
    fun (i, group) => if group.getLast? = some i then some group else none

/-- Whether the nodes of a component lie on a cycle: there are several, or one depends on itself. -/
def isCyclic (g : DepGraph N) : List Nat → Bool
  | [i] => (g.targets i).contains i
  | _ => true

end DepGraph

end ManySorted
