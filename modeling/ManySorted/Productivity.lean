import ManySorted.Draft

/-!
# Productivity

A data sort must have at least one finite term.  Nodes are a root, one node for each constructor and
map, and one for each of its positions.  A position needs one producer: the root, if it accepts a
value that is no data or data of an imported module, or the node of any data of the module that it
accepts.  A constructor or map needs all its positions.  Every node counts how many producers it
still needs, and those that need none wait on a worklist until what they enable is told.
-/

namespace ManySorted

inductive ProductivityNode where
  | root
  | function (data : SymbolId)
  | argument (data : SymbolId) (position : Nat)
deriving DecidableEq, Repr

structure NodeState where
  /-- The producers still needed. -/
  required : Nat
  /-- The places of the nodes for which the node is a producer. -/
  enables : List Nat := []
deriving DecidableEq, Repr, Inhabited

/-- The nodes, an index of their places, and their states by places. -/
structure ProductivityGraph where
  nodes : Array ProductivityNode := #[]
  index : List (ProductivityNode × Nat) := []
  states : Array NodeState := #[]
deriving Repr

/-- How far the productive nodes are known. -/
structure Solving where
  states : Array NodeState
  productive : List ProductivityNode
  /-- The places of the productive nodes of which nothing was told yet, the last one first. -/
  worklist : List Nat
deriving Repr

namespace Solving

def stateAt (s : Solving) (i : Nat) : NodeState := s.states.getD i default

end Solving

namespace ProductivityGraph

def nodeAt (g : ProductivityGraph) (i : Nat) : ProductivityNode := g.nodes.getD i .root

def stateAt (g : ProductivityGraph) (i : Nat) : NodeState := g.states.getD i default

/-- Adds a node, and returns its place. -/
def add (g : ProductivityGraph) (node : ProductivityNode) (required : Nat) :
    Nat × ProductivityGraph :=
  let i := g.nodes.size
  (i, { nodes := g.nodes.push node
        index := enter g.index node i
        states := g.states.push { required } })

/-- Makes the node at place `i` a producer for the one at place `target`. -/
def enableAt (g : ProductivityGraph) (i target : Nat) : ProductivityGraph :=
  { g with states := g.states.modify i fun state =>
    { state with enables := state.enables ++ [target] } }

/-- Makes a node, if there is one, a producer for the one at place `target`. -/
def enable (g : ProductivityGraph) (node : ProductivityNode) (target : Nat) : ProductivityGraph :=
  match g.index.lookup node with
  | some i => g.enableAt i target
  | none => g

/-! ## Solving -/

/-- At first the productive nodes are those that need no producer. -/
def begin (g : ProductivityGraph) : Solving :=
  let free := (List.range g.nodes.size).filter fun i => (g.stateAt i).required = 0
  { states := g.states, productive := free.map g.nodeAt, worklist := free.reverse }

/-- Tells the node at place `next` of one more producer. -/
def supply (g : ProductivityGraph) (s : Solving) (next : Nat) : Solving :=
  let required := (s.stateAt next).required
  if required = 0 then s
  else
    let states := s.states.modify next ({ · with required := required - 1 })
    if required - 1 = 0 then
      { states, productive := g.nodeAt next :: s.productive, worklist := next :: s.worklist }
    else { s with states }

/-- Tells all nodes for which the one at place `i` is a producer. -/
def spread (g : ProductivityGraph) (s : Solving) (i : Nat) : Solving :=
  (s.stateAt i).enables.foldl g.supply s

/-- Works the worklist off, at most `fuel` nodes of it.  Every node counts as a step. -/
def drain (g : ProductivityGraph) : Nat → Solving → DraftM Solving
  | 0, s => return s
  | fuel + 1, s =>
      match s.worklist with
      | [] => return s
      | i :: worklist => do
          Draft.tick
          g.drain fuel (g.spread { s with worklist } i)

/-- The productive nodes.  No node is on the worklist twice. -/
def solve (g : ProductivityGraph) : DraftM (List ProductivityNode) :=
  return (← g.drain g.nodes.size g.begin).productive

end ProductivityGraph

namespace Table

/-- The constructors and maps that the module itself declares and that resolved. -/
def ownData (t : Table) : List SymbolId :=
  (t.symbols.toList.filter fun s => s.kind.isData && !s.failed && !s.isImported).map Symbol.id

/-- Adds the nodes of a constructor or map, which needs all its positions. -/
def addFunction (t : Table) (g : ProductivityGraph) (data : SymbolId) : ProductivityGraph :=
  let arity := (t.symbolAt data).arity
  let (function, g) := g.add (.function data) arity
  (List.range arity).foldl (fun g position =>
    let (argument, g) := g.add (.argument data position) 1
    g.enableAt argument function) g

/-- The nodes that produce for a position, with its place. -/
def producers (t : Table) (values : AcceptedValues) : List ProductivityNode :=
  (if values.hasGroundValues then [.root] else []) ++
    (values.sorts.toList.filterMap t.dataOf?).map fun producer =>
      if (t.symbolAt producer).isImported then .root else .function producer

/-- Enables the positions of a constructor or map, if it has a form. -/
def enableArguments (t : Table) (g : ProductivityGraph) (data : SymbolId) : ProductivityGraph :=
  match (t.symbolAt data).canonical with
  | none => g
  | some form =>
      form.positions.zipIdx.foldl (fun g (values, position) =>
        match g.index.lookup (.argument data position) with
        | none => g
        | some argument => (t.producers values).foldl (·.enable · argument) g) g

def productivityGraph (t : Table) : ProductivityGraph :=
  let root := (ProductivityGraph.add {} .root 0).2
  t.ownData.foldl t.enableArguments (t.ownData.foldl t.addFunction root)

/-- The report about data without finite terms. -/
def unproductiveReport (t : Table) (names : Interner) (data : SymbolId) : Report :=
  ⟨(t.symbolAt data).location,
    .badTypeDecl (t.qualifiedName names data) "does not accept any finite terms"⟩

end Table

namespace Draft

/-- Reports the data without finite terms and returns the productive data. -/
def checkProductivity : DraftM (List SymbolId) := do
  let t ← getTable
  let nodes ← t.productivityGraph.solve
  let (productive, unproductive) := t.ownData.partition fun data => nodes.contains (.function data)
  modify fun d =>
    { d with table := d.table.reportAll (unproductive.map (t.unproductiveReport d.names)) }
  return productive

end Draft

end ManySorted
