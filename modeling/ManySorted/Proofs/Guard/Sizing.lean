import ManySorted.Proofs.Guard.Components
import ManySorted.Proofs.Sizing.Safety

/-!
# Guarded sizing

Sizing reads the sorts and data of the graph of sizes and writes to sorts; the rules of a data
symbol name its arguments by their places.  All of this is guarded here.

## Strategy

* The sorts that the graph speaks of are there (`Draft.NodesHeld`): they belong to productive data.
* What a form accepts is closed, so the sorts that a position refers to are there as well.
* A form has a position for each argument (`Table.Intact.form`), so the argument of a relational
  position is there.
* Sizing a component keeps all this (`Draft.Sizing`), so the passes agree component by component.
-/

namespace ManySorted

/-- The sort that a node of the graph of sizes speaks of. -/
def SizeNode.subject : SizeNode → SymbolId
  | .sort s => s
  | .slot s _ => s

namespace Table

/-! ## The guarded graph of sizes -/

def ownSortsAt? (t : Table) (productive : List SymbolId) (s : Symbol) (position : Nat) :
    Option (List SymbolId) :=
  match s.accepted? position with
  | none => some []
  | some values =>
      values.sorts.toList.filterM fun sort => return (← t.dataOf?? sort).any productive.contains

def addSlot? (t : Table) (productive : List SymbolId) (s : Symbol) (sort : SymbolId)
    (g : DepGraph SizeNode) (position : Nat) : Option (DepGraph SizeNode) := do
  let targets ← t.ownSortsAt? productive s position
  let g ← g.addEdge? (.sort sort) (.slot sort position) (s.kind.isUnbounded position)
  targets.foldlM (fun g target => g.addEdge? (.slot sort position) (.sort target) true) g

def addSort? (t : Table) (productive : List SymbolId) (g : DepGraph SizeNode) (data : SymbolId) :
    Option (DepGraph SizeNode) := do
  match ← t.sortOf?? data with
  | none => return g
  | some sort =>
      let s ← t.symbol? data
      (List.range s.arity).foldlM (t.addSlot? productive s sort) (g.addNode (.sort sort)).2

def sizeGraph? (t : Table) (productive : List SymbolId) : Option (DepGraph SizeNode) :=
  productive.foldlM (t.addSort? productive) {}

/-! ## Guarded sizes -/

/-- The size of a sort, before it is asked whether the position is relational. -/
def knownSize? (t : Table) (sizes : Sizes) (sort : SymbolId) : Option SizeExpr :=
  match sizes.find? (.sort sort) with
  | some size => some size
  | none => do
      let s ← t.symbol? sort
      return if s.isImported then s.size?.getD .infinity else .count 0

def sortSizeAt? (t : Table) (sizes : Sizes) (any : Bool) (sort : SymbolId) : Option SizeExpr := do
  let size ← t.knownSize? sizes sort
  return if size.isInfinite && !any then .card sort else size

def isAnyAt? (t : Table) (sort : SymbolId) (position : Nat) : Option Bool := do
  match ← t.dataOf?? sort with
  | some data => return (← t.kindOf? data).isAny position
  | none => return false

def slotSize? (t : Table) (sizes : Sizes) (sort : SymbolId) (position : Nat) :
    Option SizeExpr := do
  match (← t.symbol? sort).accepted? position with
  | none => return .count 0
  | some values =>
      let any ← t.isAnyAt? sort position
      let ground :=
        match values.groundCount with
        | some n => .count n
        | none => .infinity
      return .add (ground :: (← values.sorts.toList.mapM (t.sortSizeAt? sizes any)))

def sortSize? (t : Table) (sizes : Sizes) (sort : SymbolId) : Option SizeExpr := do
  match ← t.dataOf?? sort with
  | none => return .infinity
  | some data =>
      return sizes.product sort (List.range (countedArity (← t.symbol? data)))

/-- The size of a node that is in no cycle. -/
def nodeSize? (t : Table) (sizes : Sizes) : SizeNode → Option SizeExpr
  | .sort sort => t.sortSize? sizes sort
  | .slot sort position => t.slotSize? sizes sort position

/-- A component without a cycle is its first node. -/
def componentSizes? (t : Table) (g : DepGraph SizeNode) (sizes : Sizes) (component : List Nat) :
    Option Sizes := do
  if ← g.isCyclic? component then
    return (← component.mapM (g.nodes[·]?)).map (·, .infinity)
  else
    let node ← g.nodes[(← component.head?)]?
    return [(node, ← t.nodeSize? sizes node)]

/-! ## Guarded demands -/

def positionName? (t : Table) (names : Interner) (data : SymbolId) (position : Nat) :
    Option String := do
  match (← t.kindOf? data).labels.getD position none with
  | some label => return names.text label
  | none => return toString position

/-- The names of unbounded positions, if they are asked for. -/
def unboundedNames? (t : Table) (names : Interner) (sizes : Sizes) (data sort : SymbolId)
    (asked : Bool) (positions : List Nat) : Option (List String) :=
  if asked then
    (positions.filter fun i => (sizes.slot sort i).isInfinite).mapM (t.positionName? names data)
  else some []

def misfits? (t : Table) (names : Interner) (sizes : Sizes) (data sort : SymbolId) :
    Option (List MapMisfit) := do
  let s ← t.symbol? data
  match s.kind with
  | .data (.map kind isPartial domainArity) _ =>
      let flags := MapFlags.ofKind kind isPartial
      let domain := List.range domainArity
      let codomain := (List.range (s.arity - domainArity)).map (domainArity + ·)
      let wide ← t.unboundedNames? names sizes data sort flags.total domain
      let wide' ← t.unboundedNames? names sizes data sort flags.surjective codomain
      return wide.map .unboundedDomain ++ wide'.map .unboundedCodomain ++
        (match (sizes.product sort domain).closed, (sizes.product sort codomain).closed with
          | some m, some n => (flags.misfit? m n).toList
          | _, _ => [])
  | _ => return []

def totalityReports? (t : Table) (names : Interner) (sizes : Sizes) (data sort : SymbolId) :
    Option (List Report) := do
  (← t.misfits? names sizes data sort).mapM fun misfit =>
    return ⟨(← t.symbol? data).location,
      .totality (← t.qualifiedName? names data) misfit.reason⟩

def relationalSlots? (g : DepGraph SizeNode) (component : List Nat) :
    Option (List (SymbolId × Nat)) := do
  let edges ← component.mapM g.edgesOf?
  edges.flatten.filterMapM fun (j, mark) => do
    if mark || !component.contains j then return none
    else
      match ← g.nodes[j]? with
      | .slot sort position => return some (sort, position)
      | .sort _ => return none

def relationalReports? (t : Table) (names : Interner) (g : DepGraph SizeNode)
    (component : List Nat) : Option (List Report) := do
  (← relationalSlots? g component).filterMapM fun (sort, position) => do
    match ← t.dataOf?? sort with
    | none => return none
    | some data =>
        return some ⟨(← t.symbol? data).location, .relational (← t.qualifiedName? names data)
          (← t.positionName? names data position)⟩

/-! ## Guarded rules -/

/-- The argument at the position has to be among the arguments. -/
def ruleOfPosition? (name : String) (subject : SymbolId) (arity position : Nat) : Option Rule := do
  let args := Rule.argNames "a" arity
  let arg ← args[position]?
  return { kind := .relational, subject, position := some position, head :=
    s!"{name}.%notRelational",
           body := [Rule.app name args, Rule.acceptedAt name position arg, s!"no {arg}"] }

def impliedRules? (t : Table) (names : Interner) (data : SymbolId) : Option (List Rule) := do
  let s ← t.symbol? data
  let name ← t.qualifiedName? names data
  let mapRules :=
    match s.kind with
    | .data (.map kind isPartial domainArity) _ =>
        Rule.ofMap name data (.ofKind kind isPartial) domainArity (s.arity - domainArity)
    | _ => []
  return mapRules ++ (← s.relationalPositions.mapM (ruleOfPosition? name data s.arity))

def finishSort? (t : Table) (names : Interner) (sizes : Sizes) (sort : SymbolId) :
    ExceptT Fault Option Table := do
  let t ← ExceptT.mk (t.setSize? sort ((sizes.find? (.sort sort)).getD .infinity))
  match ← (t.dataOf?? sort : Option (Option SymbolId)) with
  | none => return t
  | some data =>
      let t := t.reportAll (← t.totalityReports? names sizes data sort)
      return { t with rules := t.rules ++ (← t.impliedRules? names data) }

section

variable {names : Interner} {t : Table} {g : DepGraph SizeNode} {productive : List SymbolId}
  {sizes : Sizes} {x s : SymbolId}

/-! ## The graph -/

theorem ownSortsAt?_eq {symbol : Symbol} {position : Nat}
    (hclosed : ∀ values, symbol.accepted? position = some values → values.Closed t) :
    t.ownSortsAt? productive symbol position =
      some (t.ownSortsAt productive symbol position) := by
  rw [ownSortsAt?, ownSortsAt]
  cases haccepted : symbol.accepted? position with
  | none => rfl
  | some values =>
      refine filterM_eq_some fun s hs => ?_
      rw [dataOf??_eq ((hclosed values haccepted).sorts hs).holds]
      rfl

theorem addSlot?_eq {symbol : Symbol} {position : Nat}
    (hclosed : ∀ values, symbol.accepted? position = some values → values.Closed t)
    (hg : g.Proper) : t.addSlot? productive symbol s g position =
      some (t.addSlot productive symbol s g position) ∧
        (t.addSlot productive symbol s g position).Proper := by
  rw [addSlot?, ownSortsAt?_eq hclosed, hg.addEdge?_eq]
  exact foldlM_eq_some (hg.addEdge _ _ _).1.proper fun g' target _ hg' =>
    ⟨hg'.addEdge?_eq _ _ _, (hg'.addEdge _ _ _).1.proper⟩

theorem sortSizeAt?_eq (hs : t.Holds s) (any : Bool) :
    t.sortSizeAt? sizes any s = some (t.sortSizeAt sizes any s) := by
  rw [sortSizeAt?, sortSizeAt, knownSize?, symbol?_eq hs]
  cases sizes.find? (.sort s) <;> rfl

variable (ht : t.Intact names)
include ht

theorem Intact.addSort?_eq (hx : t.Holds x) (hg : g.Proper) :
    t.addSort? productive g x = some (t.addSort productive g x) ∧
      (t.addSort productive g x).Proper := by
  rw [addSort?, addSort, sortOf??_eq hx]
  cases hsort : t.sortOf? x with
  | none => exact ⟨rfl, hg⟩
  | some s =>
      simp only [Option.bind_eq_bind, Option.bind_some, symbol?_eq hx]
      exact foldlM_eq_some (hg.addNode _).1.proper fun g' position _ hg' =>
        addSlot?_eq (fun values haccepted => closed_accepted ht.closed haccepted) hg'

theorem Intact.sizeGraph?_eq (hproductive : ∀ x ∈ productive, t.Holds x) :
    t.sizeGraph? productive = some (t.sizeGraph productive) :=
  (foldlM_eq_some DepGraph.proper_empty fun _ x hx hg =>
    ht.addSort?_eq (hproductive x hx) hg).1

/-! ## Sizes -/

theorem Intact.slotSize?_eq (hs : t.Holds s) (position : Nat) :
    t.slotSize? sizes s position = some (t.slotSize sizes s position) := by
  have hany : t.isAnyAt? s position =
      some ((t.dataOf? s).any fun data => (t.kindOf data).isAny position) := by
    rw [isAnyAt?, dataOf??_eq hs]
    cases hdata : t.dataOf? s with
    | none => rfl
    | some d => simp [kindOf?_eq (ht.formed.families.holds_of_dataOf? hdata)]
  rw [slotSize?, slotSize, symbol?_eq hs]
  simp only [Option.bind_eq_bind, Option.bind_some]
  cases haccepted : (t.symbolAt s).accepted? position with
  | none => rfl
  | some values =>
      have hsizes : ∀ any, values.sorts.toList.mapM (t.sortSizeAt? sizes any) =
          some (values.sorts.toList.map (t.sortSizeAt sizes any)) := fun any =>
        mapM_eq_some fun s' hs' =>
          sortSizeAt?_eq ((closed_accepted ht.closed haccepted).sorts hs').holds any
      simp only [hany, hsizes, Option.bind_some]
      rfl

theorem Intact.sortSize?_eq (hs : t.Holds s) :
    t.sortSize? sizes s = some (t.sortSize sizes s) := by
  rw [sortSize?, sortSize, dataOf??_eq hs]
  cases hdata : t.dataOf? s with
  | none => rfl
  | some d =>
      simp only [Option.bind_eq_bind, Option.bind_some,
        symbol?_eq (ht.formed.families.holds_of_dataOf? hdata)]
      rfl

omit ht in
theorem getElem?_nodes_eq_some {component : List Nat} (hlt : ∀ i ∈ component, i < g.size) :
    component.mapM (g.nodes[·]?) = some (component.filterMap (g.nodes[·]?)) := by
  refine mapM_eq_some_filterMap fun i hi => ?_
  rw [Array.getElem?_eq_getElem (hlt i hi)]
  rfl

/-- The sizes of a component are worked out without anything missing. -/
theorem Intact.componentSizes?_eq (hg : g.Proper) {component : List Nat}
    (hlt : ∀ i ∈ component, i < g.size)
    (hheld : ∀ (i : Nat) n, g.nodes[i]? = some n → t.Holds n.subject) :
    t.componentSizes? g sizes component = some (t.componentSizes g sizes component) := by
  rw [componentSizes?, componentSizes, hg.isCyclic?_eq hlt]
  simp only [Option.bind_eq_bind, Option.bind_some]
  cases hcyclic : g.isCyclic component with
  | true =>
      rw [if_pos rfl, if_pos rfl, getElem?_nodes_eq_some hlt]
      rfl
  | false =>
      obtain ⟨i, rfl⟩ : ∃ i, component = [i] := by
        match component, hcyclic with
        | [i], _ => exact ⟨i, rfl⟩
      obtain ⟨node, hnode⟩ : ∃ node, g.nodes[i]? = some node :=
        ⟨_, Array.getElem?_eq_getElem (hlt i List.mem_cons_self)⟩
      have hs := hheld i node hnode
      simp only [Bool.false_eq_true, if_false, List.head?_cons, Option.bind_some, hnode,
        List.filterMap_cons, List.filterMap_nil, List.map_cons, List.map_nil]
      cases node with
      | sort s =>
          have hsize : t.sortSize? sizes s = _ := ht.sortSize?_eq hs
          rw [nodeSize?, hsize]
          rfl
      | slot s position =>
          have hsize : t.slotSize? sizes s position = _ := ht.slotSize?_eq hs position
          rw [nodeSize?, hsize]
          rfl

/-! ## Demands -/

omit ht in
theorem positionName?_eq (hx : t.Holds x) (names' : Interner) (position : Nat) :
    t.positionName? names' x position = some (t.positionName names' x position) := by
  rw [positionName?, positionName, kindOf?_eq hx]
  simp only [Option.bind_eq_bind, Option.bind_some]
  cases (t.kindOf x).labels.getD position none <;> rfl

omit ht in
theorem misfits?_eq (hx : t.Holds x) (names' : Interner) :
    t.misfits? names' sizes x s = some (t.misfits names' sizes x s) := by
  have hnames : ∀ asked positions, t.unboundedNames? names' sizes x s asked positions =
      some (if asked then (positions.filter fun i => (sizes.slot s i).isInfinite).map
        (t.positionName names' x) else []) := by
    intro asked positions
    rw [unboundedNames?]
    split
    · exact mapM_eq_some fun i _ => positionName?_eq hx names' i
    · rfl
  rw [misfits?, misfits, symbol?_eq hx]
  simp only [Option.bind_eq_bind, Option.bind_some]
  cases (t.symbolAt x).kind with
  | data shape info =>
      cases shape with
      | constructor isNew => rfl
      | map kind isPartial domainArity =>
          simp only [hnames, Option.bind_some, apply_ite (List.map MapMisfit.unboundedDomain),
            apply_ite (List.map MapMisfit.unboundedCodomain), List.map_nil]
          rfl
  | _ => rfl

theorem Intact.totalityReports?_eq (hx : t.Holds x) (names' : Interner) :
    t.totalityReports? names' sizes x s = some (t.totalityReports names' sizes x s) := by
  rw [totalityReports?, totalityReports, misfits?_eq hx]
  refine mapM_eq_some fun misfit _ => ?_
  simp only [symbol?_eq hx, ht.formed.toRegular.qualifiedName?_eq hx, Option.bind_eq_bind,
    Option.bind_some]
  rfl

omit ht in
theorem relationalSlots?_eq (hg : g.Proper) {component : List Nat}
    (hlt : ∀ i ∈ component, i < g.size) :
    relationalSlots? g component = some (relationalSlots g component) := by
  have hedges : component.mapM g.edgesOf? = some (component.map g.edgesOf) :=
    mapM_eq_some fun i hi => hg.edgesOf?_eq (hlt i hi)
  rw [relationalSlots?, relationalSlots, hedges, List.flatMap_def]
  refine filterMapM_eq_some fun edge hedge => ?_
  obtain ⟨j, mark⟩ := edge
  obtain ⟨edges, hmem, hedge⟩ := List.mem_flatten.1 hedge
  obtain ⟨i, -, rfl⟩ := List.mem_map.1 hmem
  have hj : j < g.size := hg.inRange i j (List.mem_map_of_mem (f := Prod.fst) hedge)
  dsimp only
  split
  · rfl
  · rw [Array.getElem?_eq_getElem hj]
    cases g.nodes[j] <;> rfl

theorem Intact.relationalReports?_eq (hg : g.Proper) {component : List Nat}
    (hlt : ∀ i ∈ component, i < g.size)
    (hheld : ∀ (i : Nat) n, g.nodes[i]? = some n → t.Holds n.subject) (names' : Interner) :
    t.relationalReports? names' g component = some (t.relationalReports names' g component) := by
  rw [relationalReports?, relationalReports, relationalSlots?_eq hg hlt]
  refine filterMapM_eq_some fun slot hslot => ?_
  obtain ⟨s, position⟩ := slot
  have hs : t.Holds s := by
    obtain ⟨⟨j, mark⟩, -, hslot⟩ := List.mem_filterMap.1 hslot
    dsimp only at hslot
    split at hslot
    · cases hslot
    · split at hslot
      · next hnode =>
          cases hslot
          exact hheld j _ hnode
      · cases hslot
  dsimp only
  rw [dataOf??_eq hs]
  cases hdata : t.dataOf? s with
  | none => rfl
  | some d =>
      have hd := ht.formed.families.holds_of_dataOf? hdata
      simp only [symbol?_eq hd, ht.formed.toRegular.qualifiedName?_eq hd, positionName?_eq hd,
        Option.bind_eq_bind, Option.bind_some]
      rfl

/-! ## Rules -/

omit ht in
theorem ruleOfPosition?_eq {name : String} {arity position : Nat} (hlt : position < arity) :
    ruleOfPosition? name x arity position = some (Rule.ofPosition name x arity position) := by
  have harg : (Rule.argNames "a" arity)[position]? = some s!"a{position}" := by
    rw [Rule.argNames, List.getElem?_map, List.getElem?_range hlt]
    rfl
  rw [ruleOfPosition?, harg]
  rfl

theorem Intact.impliedRules?_eq {shape : DataShape} {info : DataInfo}
    (hkind : t.kindOf x = .data shape info) (names' : Interner) :
    t.impliedRules? names' x = some (t.impliedRules names' x) := by
  have hx := holds_of_data hkind
  have hpositions : ∀ position ∈ (t.symbolAt x).relationalPositions,
      position < (t.symbolAt x).arity := by
    intro position hposition
    unfold Symbol.relationalPositions at hposition
    split at hposition
    · cases hposition
    · next form hform =>
        have hnot : ¬ t.IsSort x := by
          rintro ⟨d, hd⟩
          rw [hkind] at hd
          cases hd
        have hsize := ht.form hx hnot hform
        rw [formSize?_of_data hkind] at hsize
        rw [Option.some.inj hsize]
        exact List.mem_range.1 (List.mem_filter.1 hposition).1
  have hrules : (t.symbolAt x).relationalPositions.mapM
      (ruleOfPosition? (t.qualifiedName names' x) x (t.symbolAt x).arity) = _ :=
    mapM_eq_some fun position hposition => ruleOfPosition?_eq (hpositions position hposition)
  simp only [impliedRules?, symbol?_eq hx, ht.formed.toRegular.qualifiedName?_eq hx, hrules,
    Option.bind_eq_bind, Option.bind_some]
  rfl

theorem Intact.finishSort?_eq (hsort : t.IsSort s) (hnone : (t.symbolAt s).size? = none)
    (hsizes : ∀ {n e}, sizes.find? n = some e → e.Closed t) (names' : Interner) :
    (t.finishSort? names' sizes s).run = some (t.finishSort names' sizes s) := by
  refine run_bind_eq_some (setSize?_eq hsort.holds _) fun t₁ ht₁ => ?_
  -- Once the size is written, the table is intact, whatever is reported then.
  have hintact : t₁.Intact names := by
    obtain ⟨t', hfinish, hintact, -⟩ := ht.finishSort hsort hnone hsizes names'
    obtain ⟨t₂, ht₂, hid, hnamespaces, hsymbols⟩ := finishSort_ok hfinish
    cases ht₁.symm.trans ht₂
    exact hintact.unwritten (.of_eq hid.symm hnamespaces.symm hsymbols.symm)
      (fun y => by rw [symbolAt, symbolAt, hsymbols]) fun y => by rw [symbolAt, symbolAt, hsymbols]
  have hs : t₁.Holds s := holds_of_setSize ht₁ hsort.holds
  refine run_read_eq_some (dataOf??_eq hs) ?_
  cases hdata : t₁.dataOf? s with
  | none => rfl
  | some d =>
      obtain ⟨shape, info, hd, -⟩ := hintact.formed.families.sort (dataOf?_eq_some_iff.1 hdata)
      refine run_read_eq_some (hintact.totalityReports?_eq (holds_of_data hd) names') ?_
      -- The reports leave the data symbol as it is.
      have hmarks : t₁.Marks (t₁.reportAll (t₁.totalityReports names' sizes d s)) :=
        .of_eq (reportAll_eq ..).1 (reportAll_eq ..).2.1 (reportAll_eq ..).2.2
      refine run_read_eq_some (Intact.impliedRules?_eq (hintact.marks hmarks)
        (hmarks.toAlike.kindOf_data.2 hd) names') rfl

end

end Table

namespace Draft

/-! ## The passes -/

def sizeComponent? (g : DepGraph SizeNode) (sizes : Sizes) (component : List Nat) :
    GuardedM Sizes := do
  tick
  let names ← getNames
  let t ← getTable
  let sizes := (← t.componentSizes? g sizes component) ++ sizes
  if ← g.isCyclic? component then
    modifyTable? fun t => return t.reportAll (← t.relationalReports? names g component)
  let nodes ← (component.mapM (g.nodes[·]?) : Option (List SizeNode))
  (nodes.filterMap fun
    | .sort sort => some sort
    | .slot .. => none).forM fun sort =>
      tryModifyTable? fun t => (t.finishSort? names sizes sort).run
  return sizes

def sizeData? (productive : List SymbolId) : GuardedM Unit := do
  let g ← (← getTable).sizeGraph? productive
  let components ← g.components?
  discard <| components.foldlM (sizeComponent? g) []

section

variable {base d : Draft} {sorts : List SymbolId} {g : DepGraph SizeNode} {sizes : Sizes}
  {m : Module} {origin : Table}

/-- The sorts that a graph speaks of are there. -/
def NodesHeld (t : Table) (g : DepGraph SizeNode) : Prop :=
  ∀ (i : Nat) (n : SizeNode), g.nodes[i]? = some n → t.Holds n.subject

/-- The graph of sizes speaks of the sorts of productive data. -/
theorem Declared.nodesHeld (h : Declared m origin d) (hunsized : d.Unsized) :
    NodesHeld d.table (d.table.sizeGraph d.table.productiveData) := by
  intro i n hi
  cases n with
  | sort s => exact ((h.sizable hunsized).sort hi).1.holds
  | slot s position =>
      obtain ⟨data, hdata, hsort, -⟩ := (d.table.traced_sizeGraph d.table.productiveData).slot hi
      obtain ⟨-, hkind, -⟩ :=
        h.intact.formed.arena.mem_ownData.1 (Table.mem_productiveData.1 hdata).1
      obtain ⟨shape, info, hkind⟩ := Table.exists_data_of_isData hkind
      rw [Table.sortOf?, hkind] at hsort
      obtain rfl := Option.some.inj hsort
      have hsort : d.table.IsSort info.sort :=
        ⟨data, (h.intact.formed.families.data hkind).sort_kind⟩
      exact hsort.holds

theorem Sizing.nodesHeld (h : Sizing base sorts sizes d) (hheld : NodesHeld base.table g) :
    NodesHeld d.table g := fun i n hi => (h.written.toAlike.holds _).2 (hheld i n hi)

/-- One more sort is finished. -/
theorem agrees_finishSort {names : Interner} {s : SymbolId} (hsort : base.table.IsSort s)
    (hnone : (base.table.symbolAt s).size? = none) (hnew : s ∉ sorts) :
    Agrees (Sizing base sorts sizes)
      (tryModifyTable? fun t => (t.finishSort? names sizes s).run)
      (tryModifyTable (·.finishSort names sizes s)) :=
  agrees_tryModifyTable fun _ hd => hd.intact.finishSort?_eq (hd.written.isSort.2 hsort)
    ((hd.others s hnew).trans hnone) hd.closed names

/-- The sorts of a component are finished, each of them once. -/
theorem agrees_finishSorts (hg : Sizable base g) {names : Interner} {done l : List SymbolId}
    (hnodup : (done ++ l).Nodup) (hl : ∀ s ∈ l, ∃ i : Nat, g.nodes[i]? = some (.sort s)) :
    Agrees (Sizing base done sizes)
      (l.forM fun s => tryModifyTable? fun t => (t.finishSort? names sizes s).run)
      (l.forM fun s => tryModifyTable (·.finishSort names sizes s)) := by
  refine (agrees_forM (motive := fun before => Sizing base (done ++ before) sizes)
    fun before s rest hall => ?_).imp fun _ hd => (List.append_nil done).symm ▸ hd
  have hmem : s ∈ l := by
    rw [hall]
    exact List.mem_append_right _ List.mem_cons_self
  obtain ⟨i, hi⟩ := hl s hmem
  obtain ⟨hsort, howns, hnone⟩ := hg.sort hi
  have hnew : s ∉ done ++ before := by
    rw [hall, ← List.append_assoc] at hnodup
    exact fun hs => (List.nodup_append.1 hnodup).2.2 s hs s List.mem_cons_self rfl
  refine ⟨agrees_finishSort hsort hnone hnew, (safe_tryModifyTable (C := fun _ => True)
    fun d hd => ?_).ends⟩
  rw [← List.append_assoc]
  exact hd.finishSort hsort howns hnone hnew names

/-- Sizing a component reads and writes only what is there. -/
theorem agrees_sizeComponent (hg : Sizable base g) (hheld : NodesHeld base.table g)
    {done rest : List (List Nat)} {component : List Nat}
    (hcomponents : g.components = done ++ component :: rest) :
    Agrees (Sizing base (done.flatMap (Table.componentSorts g)) sizes)
      (sizeComponent? g sizes component) (sizeComponent g sizes component) := by
  have hmem : component ∈ g.components := by
    rw [hcomponents]
    exact List.mem_append_right _ List.mem_cons_self
  have hlt : ∀ i ∈ component, i < g.size := fun i hi =>
    (DepGraph.mem_component_iff hg.proper.inRange hmem hi (j := i)).1
  have hnodup := Table.nodup_componentSorts hg.proper
  rw [hcomponents, List.flatMap_append, List.flatMap_cons, ← List.append_assoc] at hnodup
  refine agrees_lift_bind (ends_tick fun d clock hd => hd.of_eq rfl rfl rfl rfl) fun _ =>
    agrees_getNames_bind fun names => agrees_getTable_bind fun t => ?_
  refine agrees_read_bind (a := t.componentSizes g sizes component) (fun d hd => ?_) ?_
  · obtain ⟨⟨hd, -⟩, rfl⟩ := hd
    exact hd.intact.componentSizes?_eq hg.proper hlt (hd.nodesHeld hheld)
  refine agrees_read_bind (a := g.isCyclic component) (fun _ _ => hg.proper.isCyclic?_eq hlt) ?_
  -- The sizes are worked out once, and stay closed while they are written.
  let sizes' : Sizes := t.componentSizes g sizes component ++ sizes
  have hfinish : Agrees (Sizing base (done.flatMap (Table.componentSorts g)) sizes')
      (do
        let nodes ← (component.mapM (g.nodes[·]?) : Option (List SizeNode))
        (nodes.filterMap fun
          | .sort sort => some sort
          | .slot .. => none).forM fun sort =>
            tryModifyTable? fun t => (t.finishSort? names sizes' sort).run
        return sizes')
      (do
        (Table.componentSorts g component).forM fun sort =>
          tryModifyTable (·.finishSort names sizes' sort)
        return sizes') := by
    refine agrees_read_bind (fun _ _ => Table.getElem?_nodes_eq_some hlt) ?_
    refine Agrees.bind_pure (agrees_finishSorts hg (List.nodup_append.1 hnodup).1 fun s hs => ?_) _
    obtain ⟨i, -, hi⟩ := List.mem_filterMap.1 (Table.mem_componentSorts.1 hs)
    exact ⟨i, hi⟩
  refine Agrees.imp (P := Sizing base (done.flatMap (Table.componentSorts g)) sizes') ?_ ?_
  · refine Agrees.ite (fun _ => Agrees.bind (agrees_modifyTable fun d hd => ?_)
      (ends_modifyTable fun d hd => ?_) fun _ => hfinish) fun _ => hfinish
    · rw [hd.intact.relationalReports?_eq hg.proper hlt (hd.nodesHeld hheld)]
      rfl
    · obtain ⟨hid, hnamespaces, hsymbols⟩ :=
        d.table.reportAll_eq (d.table.relationalReports names g component)
      exact hd.of_eq rfl hid hnamespaces hsymbols
  · rintro d ⟨⟨hd, -⟩, rfl⟩
    exact { hd with closed := hd.closed_componentSizes component }

/-- Sizing reads and writes only what is there. -/
theorem agrees_sizeData (h : Declared m origin base) (hunsized : base.Unsized) :
    Agrees (· = base) (sizeData? base.table.productiveData)
      (sizeData base.table.productiveData) := by
  have hg := h.sizable hunsized
  have hproductive : ∀ x ∈ base.table.productiveData, base.table.Holds x := fun x hx =>
    (h.intact.formed.arena.mem_ownData.1 (Table.mem_productiveData.1 hx).1).1.holds
  refine agrees_getTable_bind fun t => ?_
  refine agrees_read_bind (a := t.sizeGraph base.table.productiveData) (fun d hd => ?_) ?_
  · obtain ⟨rfl, rfl⟩ := hd
    exact h.intact.sizeGraph?_eq hproductive
  rintro d ⟨rfl, rfl⟩
  refine agrees_read_bind (P := (· = d)) (fun _ _ => hg.proper.components?_eq) ?_ d rfl
  refine Agrees.discard ?_
  refine (agrees_foldlM (motive := fun done sizes => Sizing d (done.flatMap
    (Table.componentSorts (d.table.sizeGraph d.table.productiveData))) sizes)
    (fun done sizes component rest hall => ⟨agrees_sizeComponent hg (h.nodesHeld hunsized) hall,
      (safe_sizeComponent hg hall).ends⟩) []).imp ?_
  rintro _ rfl
  exact h.sizing

end

end Draft

end ManySorted
