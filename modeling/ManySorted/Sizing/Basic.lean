import ManySorted.Draft
import ManySorted.Rule.Synthesis
import ManySorted.Sizing.Graph

/-!
# Sizes of sorts

Sorts are sized after what they depend on.  A position counts the values that are no data and adds
the sizes of the sorts it accepts; an infinite sort at a relational position counts with the number
of its facts.  The size of a constructor is the product of its positions, that of a map the product
of its domain.  What lies on a cycle is infinite, and a cycle through a relational codomain is an
error.  Once the size of a map is known, its demands are held against the sizes of its positions.
-/

namespace ManySorted

/-- The sizes known so far, latest first. -/
abbrev Sizes := List (SizeNode × SizeExpr)

/-- Why a map cannot meet its demands. -/
inductive MapMisfit where
  | unboundedDomain (position : String)
  | unboundedCodomain (position : String)
  | unequalBijection (domain codomain : Nat)
  | crowdedInjection (domain codomain : Nat)
  | sparseSurjection (domain codomain : Nat)
deriving DecidableEq, Repr

/-- The wording of a misfit. -/
def MapMisfit.reason : MapMisfit → String
  | unboundedDomain position => s!"is total but its domain position `{position}` is unbounded"
  | unboundedCodomain position =>
      s!"is surjective but its codomain position `{position}` is unbounded"
  | unequalBijection domain codomain =>
      s!"is a bijection but its domain has {domain} values and its codomain {codomain}"
  | crowdedInjection domain codomain =>
      s!"is injective and total but maps {domain} values into {codomain}"
  | sparseSurjection domain codomain =>
      s!"is surjective but maps {domain} values onto {codomain}"

/-- Whether the numbers of domain and codomain tuples fit the demands of a map. -/
def MapFlags.misfit? (flags : MapFlags) (domain codomain : Nat) : Option MapMisfit :=
  if flags.injective && flags.surjective && flags.total then
    if domain ≠ codomain then some (.unequalBijection domain codomain) else none
  else if flags.injective && flags.total && codomain < domain then
    some (.crowdedInjection domain codomain)
  else if flags.surjective && domain < codomain then some (.sparseSurjection domain codomain)
  else none

namespace Sizes

def find? (sizes : Sizes) (node : SizeNode) : Option SizeExpr := sizes.lookup node

/-- The size of a position. -/
def slot (sizes : Sizes) (sort : SymbolId) (position : Nat) : SizeExpr :=
  (sizes.find? (.slot sort position)).getD .infinity

/-- The product of some positions. -/
def product (sizes : Sizes) (sort : SymbolId) (positions : List Nat) : SizeExpr :=
  .multiply (positions.map (sizes.slot sort))

end Sizes

namespace Table

/-- The size of a sort that a position accepts.  A sort of this module without a size has no
terms. -/
def sortSizeAt (t : Table) (sizes : Sizes) (any : Bool) (sort : SymbolId) : SizeExpr :=
  let size :=
    match sizes.find? (.sort sort) with
    | some size => size
    | none =>
        let s := t.symbolAt sort
        if s.isImported then s.size?.getD .infinity else .count 0
  if size.isInfinite && !any then .card sort else size

/-- The size of a position. -/
def slotSize (t : Table) (sizes : Sizes) (sort : SymbolId) (position : Nat) : SizeExpr :=
  match (t.symbolAt sort).accepted? position with
  | none => .count 0
  | some values =>
      let any := (t.dataOf? sort).any fun data => (t.kindOf data).isAny position
      let ground :=
        match values.groundCount with
        | some n => .count n
        | none => .infinity
      .add (ground :: values.sorts.toList.map (t.sortSizeAt sizes any))

/-- The positions that count for the size of a data symbol. -/
def countedArity (s : Symbol) : Nat :=
  match s.kind with
  | .data (.map _ _ domainArity) _ => domainArity
  | _ => s.arity

/-- The size of a sort, given those of its positions. -/
def sortSize (t : Table) (sizes : Sizes) (sort : SymbolId) : SizeExpr :=
  match t.dataOf? sort with
  | none => .infinity
  | some data => sizes.product sort (List.range (countedArity (t.symbolAt data)))

/-- How a position is spoken of: by its label or else by its number. -/
def positionName (t : Table) (names : Interner) (data : SymbolId) (position : Nat) : String :=
  match (t.kindOf data).labels.getD position none with
  | some label => names.text label
  | none => toString position

/-- Why a map cannot meet its demands. -/
def misfits (t : Table) (names : Interner) (sizes : Sizes) (data sort : SymbolId) :
    List MapMisfit :=
  let s := t.symbolAt data
  match s.kind with
  | .data (.map kind isPartial domainArity) _ =>
      let flags := MapFlags.ofKind kind isPartial
      let domain := List.range domainArity
      let codomain := (List.range (s.arity - domainArity)).map (domainArity + ·)
      let unbounded (positions : List Nat) :=
        (positions.filter fun i => (sizes.slot sort i).isInfinite).map (t.positionName names data)
      (if flags.total then (unbounded domain).map .unboundedDomain else [])
        ++ (if flags.surjective then (unbounded codomain).map .unboundedCodomain else [])
        ++ (match (sizes.product sort domain).closed, (sizes.product sort codomain).closed with
            | some m, some n => (flags.misfit? m n).toList
            | _, _ => [])
  | _ => []

/-- The reports about the demands of a map. -/
def totalityReports (t : Table) (names : Interner) (sizes : Sizes) (data sort : SymbolId) :
    List Report :=
  (t.misfits names sizes data sort).map fun misfit =>
    ⟨(t.symbolAt data).location, .totality (t.qualifiedName names data) misfit.reason⟩

/-- The relational codomain positions inside a component, by sort and position. -/
def relationalSlots (g : DepGraph SizeNode) (component : List Nat) : List (SymbolId × Nat) :=
  (component.flatMap g.edgesOf).filterMap fun (j, mark) =>
    if mark || !component.contains j then none
    else
      match g.nodes[j]? with
      | some (.slot sort position) => some (sort, position)
      | _ => none

/-- The reports about relational positions on a cycle. -/
def relationalReports (t : Table) (names : Interner) (g : DepGraph SizeNode)
    (component : List Nat) : List Report :=
  (relationalSlots g component).filterMap fun (sort, position) =>
    (t.dataOf? sort).map fun data =>
      ⟨(t.symbolAt data).location,
        .relational (t.qualifiedName names data) (t.positionName names data position)⟩

/-- Writes the size of a sort, checks the demands of its map and adds its rules. -/
def finishSort (t : Table) (names : Interner) (sizes : Sizes) (sort : SymbolId) :
    Except Fault Table := do
  let t ← t.setSize sort ((sizes.find? (.sort sort)).getD .infinity)
  match t.dataOf? sort with
  | none => return t
  | some data =>
      let t := t.reportAll (t.totalityReports names sizes data sort)
      return { t with rules := t.rules ++ t.impliedRules names data }

/-- The sizes of a component, given those of what it depends on. -/
def componentSizes (t : Table) (g : DepGraph SizeNode) (sizes : Sizes) (component : List Nat) :
    Sizes :=
  let nodes := component.filterMap (g.nodes[·]?)
  if g.isCyclic component then nodes.map (·, .infinity)
  else
    nodes.map fun node =>
      match node with
      | .sort sort => (node, t.sortSize sizes sort)
      | .slot sort position => (node, t.slotSize sizes sort position)

/-- The sorts of a component. -/
def componentSorts (g : DepGraph SizeNode) (component : List Nat) : List SymbolId :=
  (component.filterMap (g.nodes[·]?)).filterMap fun
    | .sort sort => some sort
    | .slot .. => none

end Table

namespace Draft

/-- Sizes a component and finishes its sorts. -/
def sizeComponent (g : DepGraph SizeNode) (sizes : Sizes) (component : List Nat) :
    DraftM Sizes := do
  tick
  let names ← getNames
  let t ← getTable
  let sizes := t.componentSizes g sizes component ++ sizes
  if g.isCyclic component then
    modifyTable fun t => t.reportAll (t.relationalReports names g component)
  (Table.componentSorts g component).forM fun sort =>
    tryModifyTable (·.finishSort names sizes sort)
  return sizes

/-- Sizes the productive data. -/
def sizeData (productive : List SymbolId) : DraftM Unit := do
  let g := (← getTable).sizeGraph productive
  discard <| g.components.foldlM (sizeComponent g) []

end Draft

end ManySorted
