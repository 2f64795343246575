import ManySorted.Proofs.Guard.Pass
import ManySorted.Proofs.Table.Intact

/-!
# Guarded reading and writing of tables

Every access to the namespaces and symbols of a table is guarded here, and so are the places of a
qualifier that a search compares.  In a table that hangs together (`Table.Regular`) each handle that
is stored is in range: parents and children of namespaces, homes and companions of symbols, and what
a name stands for.  So it is enough that the handles with which a function is called are in range.

## Strategy

* **Reading.**  A guarded read is the plain one where the handle is in range (`Table.node?_eq`,
  `Table.symbol?_eq`).  Walks up the tree meet parents only (`Tree.ancestors?_eq`), walks down meet
  children (`Tree.descend??_eq`), and companions are there (`Table.Families.bearer?_eq`).
* **Growing.**  A data symbol promises its companions the next two handles, which they get
  (`Table.Regular.registerData?_eq`).
* **Resolving.**  The queue of a search holds points of namespaces that are there, which have
  matched no more of the qualifier than there is (`Table.Lies`).  A point that is taken from it only
  adds such points (`Tree.lies_of_mem_nextPoints`), so the search agrees (`Tree.searchQueue?_eq`),
  and what it finds is there (`Table.Regular.holds_of_resolveId`).
-/

namespace ManySorted

/-- Changes one entry of an array, which has to be there. -/
def modifyAt? {α : Type} (a : Array α) (i : Nat) (f : α → α) : Option (Array α) :=
  if i < a.size then some (a.modify i f) else none

theorem modifyAt?_eq {α : Type} {a : Array α} {i : Nat} (h : i < a.size) (f : α → α) :
    modifyAt? a i f = some (a.modify i f) := if_pos h

namespace Table

/-! ## Reading -/

def node? (t : Table) (ns : NamespaceId) : Option Namespace := t.namespaces[ns.index]?

def symbol? (t : Table) (id : SymbolId) : Option Symbol := t.symbols[id.index]?

def kindOf? (t : Table) (id : SymbolId) : Option SymbolKind := (t.symbol? id).map Symbol.kind

/-- The walk up the tree has to come to the root. -/
def ancestorsWithin? (t : Table) : Nat → NamespaceId → Option (List NamespaceId)
  | 0, _ => none
  | fuel + 1, ns => do
      match (← t.node? ns).parent with
      | some parent => return ns :: (← t.ancestorsWithin? fuel parent)
      | none => return [ns]

def ancestors? (t : Table) (ns : NamespaceId) : Option (List NamespaceId) :=
  t.ancestorsWithin? t.namespaces.size ns

def path? (t : Table) (ns : NamespaceId) : Option (List Name) := do
  let nodes ← (← t.ancestors? ns).mapM t.node?
  return nodes.reverse.filterMap fun node => if node.parent.isSome then some node.name else none

def isWithin? (t : Table) (ns ancestor : NamespaceId) : Option Bool :=
  return (← t.ancestors? ns).contains ancestor

def dataOf?? (t : Table) (sort : SymbolId) : Option (Option SymbolId) := do
  match ← t.kindOf? sort with
  | .userSort data _ => return some data
  | _ => return none

def sortOf?? (t : Table) (id : SymbolId) : Option (Option SymbolId) := do
  match ← t.kindOf? id with
  | .userSort .. => return some id
  | kind => return kind.info?.map DataInfo.sort

def bearer? (t : Table) (id : SymbolId) : Option Symbol := do
  t.symbol? ((← t.dataOf?? id).getD id)

def qualifiedName? (t : Table) (names : Interner) (id : SymbolId) : Option String := do
  let path ← t.path? (← t.symbol? id).home
  return names.join (path ++ [(← t.bearer? id).name])

section

variable {names : Interner} {t : Table} {ns : NamespaceId} {id : SymbolId}

theorem node?_eq (h : t.HasNamespace ns) : t.node? ns = some (t.namespaceAt ns) := by
  have hlt : ns.index < t.namespaces.size := h
  simp [node?, namespaceAt, hlt]

theorem symbol?_eq (h : t.Holds id) : t.symbol? id = some (t.symbolAt id) := by
  have hlt : id.index < t.symbols.size := h
  simp [symbol?, symbolAt, hlt]

theorem kindOf?_eq (h : t.Holds id) : t.kindOf? id = some (t.kindOf id) := by
  rw [kindOf?, symbol?_eq h]
  rfl

theorem Tree.ancestorsWithin?_eq (ht : t.Tree) {fuel : Nat} (hns : t.HasNamespace ns)
    (hfuel : ns.index < fuel) : t.ancestorsWithin? fuel ns = some (t.ancestorsWithin fuel ns) := by
  induction fuel generalizing ns with
  | zero => exact absurd hfuel (Nat.not_lt_zero _)
  | succ fuel ih =>
      rw [ancestorsWithin?, ancestorsWithin, node?_eq hns]
      cases hp : (t.namespaceAt ns).parent with
      | none => simp [hp]
      | some p =>
          have hlt := ht.parent_lt hp
          simp [hp, ih (ht.hasNamespace_parent hp) (by omega)]

theorem Tree.ancestors?_eq (ht : t.Tree) (hns : t.HasNamespace ns) :
    t.ancestors? ns = some (t.ancestors ns) := ht.ancestorsWithin?_eq hns hns

theorem Tree.hasNamespace_of_mem_ancestors (ht : t.Tree) (hns : t.HasNamespace ns) :
    ∀ above ∈ t.ancestors ns, t.HasNamespace above := by
  refine ht.induct (motive := fun ns => ∀ above ∈ t.ancestors ns, t.HasNamespace above) ?_ ?_ hns
  · rw [ht.ancestors_root]
    exact List.forall_mem_singleton.2 ht.root
  · intro ns p hp ih
    rw [ht.ancestors_of_parent hp]
    exact List.forall_mem_cons.2 ⟨hasNamespace_of_parent hp, ih⟩

theorem Tree.path?_eq (ht : t.Tree) (hns : t.HasNamespace ns) :
    t.path? ns = some (t.path ns) := by
  have hnodes : (t.ancestors ns).mapM t.node? = some ((t.ancestors ns).map t.namespaceAt) :=
    mapM_eq_some fun above habove => node?_eq (ht.hasNamespace_of_mem_ancestors hns above habove)
  simp [path?, path, ht.ancestors?_eq hns, hnodes]

theorem Tree.isWithin?_eq (ht : t.Tree) (hns : t.HasNamespace ns) (ancestor : NamespaceId) :
    t.isWithin? ns ancestor = some (t.isWithin ns ancestor) := by
  simp [isWithin?, isWithin, ht.ancestors?_eq hns]

theorem dataOf??_eq (h : t.Holds id) : t.dataOf?? id = some (t.dataOf? id) := by
  rw [dataOf??, dataOf?, kindOf?_eq h]
  cases t.kindOf id <;> simp

theorem sortOf??_eq (h : t.Holds id) : t.sortOf?? id = some (t.sortOf? id) := by
  rw [sortOf??, sortOf?, kindOf?_eq h]
  cases t.kindOf id <;> simp

/-- The data symbol of a sort is there. -/
theorem Families.holds_of_dataOf? {d : SymbolId} (ht : t.Families names)
    (h : t.dataOf? id = some d) : t.Holds d := by
  obtain ⟨shape, info, hd, -⟩ := ht.sort (dataOf?_eq_some_iff.1 h)
  exact holds_of_data hd

theorem Families.bearer?_eq (ht : t.Families names) (h : t.Holds id) :
    t.bearer? id = some (t.bearer id) := by
  have hholds : t.Holds ((t.dataOf? id).getD id) := by
    cases hdata : t.dataOf? id with
    | none => exact h
    | some d => exact ht.holds_of_dataOf? hdata
  simp [bearer?, bearer, dataOf??_eq h, symbol?_eq hholds]

theorem Regular.qualifiedName?_eq (ht : t.Regular names) (h : t.Holds id) (names' : Interner) :
    t.qualifiedName? names' id = some (t.qualifiedName names' id) := by
  simp [qualifiedName?, qualifiedName, symbol?_eq h, ht.tree.path?_eq (ht.arena.home h),
    ht.families.bearer?_eq h]

end

/-! ## Growing -/

def reportDuplicate? (t : Table) (names : Interner) (location : Location) (name : Name)
    (previous : SymbolId) : Option Table :=
  return t.report
    ⟨location, .duplicateDefinition (names.text name) (← t.symbol? previous).location⟩

def childNamespace? (t : Table) (parent : NamespaceId) (name : Name) :
    Option (NamespaceId × Table) := do
  let above ← t.node? parent
  match above.child? name with
  | some existing => return (existing, t)
  | none =>
      let id : NamespaceId := ⟨t.namespaces.size⟩
      let node : Namespace := { name, parent := some parent, depth := above.depth + 1 }
      let namespaces ← modifyAt? t.namespaces parent.index (·.addChild name id)
      return (id, { t with namespaces := namespaces.push node })

def register? (t : Table) (home : NamespaceId) (name : Name) (arity : Nat) (location : Location)
    (kind : SymbolKind) : Option (Except SymbolId (SymbolId × Table)) := do
  let id : SymbolId := ⟨t.symbols.size⟩
  let symbols := t.symbols.push { id, name, home, arity, location, kind }
  if name.isEmpty then return .ok (id, { t with symbols })
  else
    match (← t.node? home).addSymbol name id with
    | .error existing => return .error existing
    | .ok node =>
        let namespaces ← modifyAt? t.namespaces home.index fun _ => node
        return .ok (id, { t with symbols, namespaces })

/-- Registers a symbol that has to get a promised handle. -/
def registerAs? (t : Table) (promised : SymbolId) (home : NamespaceId) (name : Name)
    (location : Location) (kind : SymbolKind) : Option Table := do
  match ← t.register? home name 0 location kind with
  | .ok (id, t) => if id = promised then return t else none
  | .error _ => none

/-- The companions have to get the handles that the data symbol has for them. -/
def registerData? (t : Table) (names : Interner) (home : NamespaceId) (name : Name) (arity : Nat)
    (location : Location) (shape : DataShape) (labels : List (Option Name)) (any : List Bool) :
    Option (Except SymbolId (SymbolId × Interner × Table)) := do
  let sort : SymbolId := ⟨t.symbols.size + 1⟩
  let typeConstant : SymbolId := ⟨t.symbols.size + 2⟩
  match ← t.register? home name arity location (.data shape { labels, any, sort, typeConstant })
    with
  | .error existing => return .error existing
  | .ok (data, t) =>
      let t ← t.registerAs? sort home .empty location (.userSort data none)
      let (hashed, names) := names.intern ("#" ++ names.text name)
      let t ← t.registerAs? typeConstant home hashed location (.userConstant (.type sort))
      return .ok (data, names, t)

def updateSymbol? (t : Table) (id : SymbolId) (f : Symbol → Symbol) : Option Table :=
  return { t with symbols := ← modifyAt? t.symbols id.index f }

def setOrigin? (t : Table) (id : SymbolId) (origin : Origin) : Option Table :=
  t.updateSymbol? id ({ · with origin := some origin })

def markFailed? (t : Table) (id : SymbolId) : Option Table :=
  t.updateSymbol? id ({ · with failed := true })

def setCanonical? (t : Table) (id : SymbolId) (form : CanonicalForm) :
    Option (Except Fault Table) := do
  if (← t.symbol? id).canonical.isSome then return .error (.formWrittenTwice id)
  else return .ok (← t.updateSymbol? id ({ · with canonical := some form }))

def setSize? (t : Table) (id : SymbolId) (size : SizeExpr) : Option (Except Fault Table) := do
  match ← t.kindOf? id with
  | .userSort data none =>
      return .ok (← t.updateSymbol? id ({ · with kind := .userSort data (some size) }))
  | _ => return .error (.sizeWrittenTwice id)

section

variable {names : Interner} {t : Table} {home : NamespaceId} {id : SymbolId} {name : Name}
  {arity : Nat} {location : Location} {kind : SymbolKind}

theorem reportDuplicate?_eq (h : t.Holds id) :
    t.reportDuplicate? names location name id =
      some (t.reportDuplicate names location name id) := by
  simp [reportDuplicate?, reportDuplicate, symbol?_eq h]

theorem childNamespace?_eq (h : t.HasNamespace home) (name : Name) :
    t.childNamespace? home name = some (t.childNamespace home name) := by
  have hlt : home.index < t.namespaces.size := h
  rw [childNamespace?, childNamespace, node?_eq h]
  cases hchild : (t.namespaceAt home).child? name <;> simp [hchild, modifyAt?_eq hlt]

theorem register?_eq (h : t.HasNamespace home) :
    t.register? home name arity location kind =
      some (t.register home name arity location kind) := by
  simp only [register?, register, node?_eq h, modifyAt?_eq h]
  split
  · rfl
  · cases hadd : (t.namespaceAt home).addSymbol name ⟨t.symbols.size⟩ <;> simp [hadd]

/-- A symbol whose name is free gets the next handle. -/
theorem registerAs?_eq (h : t.HasNamespace home) (hfree : t.Free home name)
    (hid : id.index = t.symbols.size) :
    t.registerAs? id home name location kind =
      some (t.registerIfFree home name 0 location kind) := by
  obtain rfl : id = ⟨t.symbols.size⟩ := by rw [← hid]
  simp [registerAs?, registerIfFree, register?_eq h, register_of_free hfree]

/-- A data symbol and its companions get the handles that they are promised. -/
theorem Regular.registerData?_eq (ht : t.Regular names) (h : t.HasNamespace home)
    (hname : names.Knows name) (hnamed : name.isEmpty = false)
    (hplain : ¬ Hashed (names.text name)) (arity : Nat) (location : Location) (shape : DataShape)
    (labels : List (Option Name)) (any : List Bool) : t.registerData? names home name arity location
      shape labels any =
      some (t.registerData names home name arity location shape labels any) := by
  rw [registerData?, registerData]
  dsimp only
  rw [register?_eq h]
  obtain ⟨hfree, hregister⟩ | ⟨existing, -, hregister⟩ := t.register_cases home name arity location
    (.data shape ⟨labels, any, ⟨t.symbols.size + 1⟩, ⟨t.symbols.size + 2⟩⟩)
  · have hdata := ht.dataRegistered hname hnamed hplain (hfree.of_named hnamed)
    have hsort : ∀ kind, (t.withSymbol home name arity location kind).Free home .empty :=
      fun _ => .inl rfl
    have hsize : ∀ kind, (t.withSymbol home name arity location kind).symbols.size =
        t.symbols.size + 1 := fun kind => Array.size_push _
    have hsize' : ∀ kind kind' : SymbolKind, ((t.withSymbol home name arity location
        kind).withSymbol home .empty 0 location kind').symbols.size = t.symbols.size + 2 :=
      fun kind kind' => (Array.size_push _).trans (congrArg (· + 1) (hsize kind))
    simp only [hregister, Option.bind_eq_bind, Option.bind_some]
    rw [registerAs?_eq (hasNamespace_withSymbol.2 h) (hsort _) (hsize _).symm,
      registerIfFree_of_free (hsort _)]
    simp only [Option.bind_some]
    rw [registerAs?_eq (hasNamespace_withSymbol.2 (hasNamespace_withSymbol.2 h))
      (hdata.free_constant ..) (hsize' _ _).symm]
    rfl
  · simp [hregister]

theorem updateSymbol?_eq (h : t.Holds id) (f : Symbol → Symbol) :
    t.updateSymbol? id f = some (t.updateSymbol id f) := by
  rw [updateSymbol?, modifyAt?_eq h]
  rfl

theorem setOrigin?_eq (h : t.Holds id) (origin : Origin) :
    t.setOrigin? id origin = some (t.setOrigin id origin) := updateSymbol?_eq h _

theorem markFailed?_eq (h : t.Holds id) : t.markFailed? id = some (t.markFailed id) :=
  updateSymbol?_eq h _

theorem setCanonical?_eq (h : t.Holds id) (form : CanonicalForm) :
    t.setCanonical? id form = some (t.setCanonical id form) := by
  rw [setCanonical?, setCanonical, symbol?_eq h, updateSymbol?_eq h]
  simp only [Option.bind_eq_bind, Option.bind_some]
  split <;> rfl

theorem holds_of_setCanonical {t' : Table} {form : CanonicalForm} {x : SymbolId}
    (h : t.setCanonical id form = .ok t') (hx : t.Holds x) : t'.Holds x := by
  unfold setCanonical at h
  split at h
  · cases h
  · cases h
    exact holds_updateSymbol.2 hx

theorem holds_of_setSize {t' : Table} {size : SizeExpr} {x : SymbolId}
    (h : t.setSize id size = .ok t') (hx : t.Holds x) : t'.Holds x := by
  unfold setSize at h
  split at h
  · cases h
    exact holds_updateSymbol.2 hx
  · cases h

theorem setSize?_eq (h : t.Holds id) (size : SizeExpr) :
    t.setSize? id size = some (t.setSize id size) := by
  simp only [setSize?, setSize, kindOf?_eq h, updateSymbol?_eq h]
  cases t.kindOf id with
  | userSort data written => cases written <;> simp
  | _ => simp

end

/-! ## Resolving -/

/-- The points behind a point.  The place of the next segment has to be one of the qualifier. -/
def nextPoints? (t : Table) (qualifier : List Name) (point : SearchPoint) :
    Option (List SearchPoint) := do
  let node ← t.node? point.ns
  let followed ←
    if point.matched = qualifier.length then pure []
    else do
      let segment ← qualifier[point.matched]?
      pure ((node.child? segment).toList.map fun child => ⟨child, point.matched + 1⟩)
  let spawned := if point.matched = 0 then node.childList.map fun child => ⟨child, 0⟩ else []
  return followed ++ spawned

def matchOf? {α : Type} (qualifier : List Name) (matchAt? : NamespaceId → Option (Option α))
    (point : SearchPoint) : Option (Option α) :=
  if point.matched = qualifier.length then matchAt? point.ns else some none

def searchQueue? {α : Type} [DecidableEq α] (t : Table) (qualifier : List Name)
    (matchAt? : NamespaceId → Option (Option α)) :
    Nat → List SearchPoint → Finding α → Option (Finding α)
  | 0, _, f => some f
  | _ + 1, [], f => some f
  | fuel + 1, point :: queue, f => do
      let depth := (← t.node? point.ns).depth
      if f.isBelow depth then return f
      else
        let f := match ← matchOf? qualifier matchAt? point with
          | some found => f.note found depth
          | none => f
        t.searchQueue? qualifier matchAt? fuel (queue ++ (← t.nextPoints? qualifier point)) f

def search? {α : Type} [DecidableEq α] (t : Table) (start : NamespaceId) (qualifier : List Name)
    (matchAt? : NamespaceId → Option (Option α)) : Option (Resolution α) :=
  return (← t.searchQueue? qualifier matchAt? (t.namespaces.size * (qualifier.length + 1))
    [⟨start, 0⟩] {}).resolution

def searchPreferring? {α : Type} [DecidableEq α] (t : Table) (preferred : Option NamespaceId)
    (qualifier : List Name) (matchAt? : NamespaceId → Option (Option α)) :
    Option (Resolution α) := do
  match ← t.search? (preferred.getD .root) qualifier matchAt? with
  | .notFound => t.search? .root qualifier matchAt?
  | resolution => return resolution

def resolveSymbol? (t : Table) (path : List Name) (preferred : Option NamespaceId)
    (filter : Symbol → Bool) : Option (Resolution SymbolId) :=
  match path.getLast? with
  | none => some .notFound
  | some last =>
      t.searchPreferring? preferred path.dropLast fun ns => do
        match (← t.node? ns).symbol? last with
        | some id => return if filter (← t.symbol? id) then some id else none
        | none => return none

def resolveId? (t : Table) (id : QualifiedId) (filter : Symbol → Bool) :
    Option (Resolution SymbolId) := t.resolveSymbol? id.segments none filter

def resolveOrProblem? (t : Table) (names : Interner) (id : QualifiedId) (filter : Symbol → Bool)
    (usage : Option String) : Option (Except Problem SymbolId) := do
  let name := names.join id.segments
  match ← t.resolveId? id filter with
  | .found symbol => return .ok symbol
  | .ambiguous first second =>
      return .error (.ambiguousSymbol name (← t.symbol? first).location
        (← t.symbol? second).location)
  | .notFound =>
      match usage, (← t.resolveId? id anySymbol).found? with
      | some usage, some _ => return .error (.badId name usage)
      | _, _ => return .error (.undefinedSymbol name)

def descend?? (t : Table) : NamespaceId → List Name → Option (Option NamespaceId)
  | ns, [] => some (some ns)
  | ns, segment :: rest => do
      match (← t.node? ns).child? segment with
      | some child => t.descend?? child rest
      | none => return none

def resolveForeign? (t foreign : Table) (symbol : SymbolId) (path : ForeignPath) :
    Option (Option SymbolId) := do
  let named ← foreign.bearer? symbol
  let namespaces := path.rename.toList ++ (← foreign.path? named.home)
  let qualifier := if path.dropParent then namespaces.dropLast else namespaces
  match ← t.descend?? .root qualifier with
  | none => return none
  | some ns =>
      match (← t.node? ns).symbol? named.name with
      | none => return none
      | some found =>
          if (← t.symbol? found).arity ≠ named.arity then return none
          else if (← foreign.dataOf?? symbol).isSome then t.sortOf?? found
          else return some found

section

variable {α : Type} [DecidableEq α] {names : Interner} {t foreign : Table}
  {qualifier : List Name} {matchAt? : NamespaceId → Option (Option α)}
  {matchAt : NamespaceId → Option α} {start : NamespaceId} {point : SearchPoint}
  {filter : Symbol → Bool}

/-- A point of a namespace that is there, which has matched no more than there is. -/
def Lies (t : Table) (qualifier : List Name) (point : SearchPoint) : Prop :=
  t.HasNamespace point.ns ∧ point.matched ≤ qualifier.length

theorem Tree.lies_of_mem_nextPoints (ht : t.Tree) :
    ∀ next ∈ t.nextPoints qualifier point, t.Lies qualifier next := by
  intro next hnext
  rcases List.mem_append.1 hnext with hnext | hnext
  · cases hsegment : qualifier[point.matched]? with
    | none =>
        rw [hsegment] at hnext
        cases hnext
    | some segment =>
        rw [hsegment] at hnext
        obtain ⟨child, hchild, rfl⟩ := List.mem_map.1 hnext
        exact ⟨(ht.child (Option.mem_toList.1 hchild)).1, (List.getElem?_eq_some_iff.1 hsegment).1⟩
  · split at hnext
    · obtain ⟨child, hchild, rfl⟩ := List.mem_map.1 hnext
      rw [ht.childList_eq] at hchild
      obtain ⟨entry, hentry, rfl⟩ := List.mem_map.1 hchild
      exact ⟨(ht.child (ht.found hentry)).1, Nat.zero_le _⟩
    · cases hnext

theorem nextPoints?_eq (hpoint : t.Lies qualifier point) :
    t.nextPoints? qualifier point = some (t.nextPoints qualifier point) := by
  obtain ⟨hns, hle⟩ := hpoint
  rw [nextPoints?, nextPoints, node?_eq hns]
  by_cases hall : point.matched = qualifier.length
  · simp [hall]
  · have hlt : point.matched < qualifier.length := Nat.lt_of_le_of_ne hle hall
    simp [hall, hlt]

/-- No point that is taken from the queue is out of range. -/
theorem Tree.searchQueue?_eq (ht : t.Tree)
    (hmatch : ∀ ns, t.HasNamespace ns → matchAt? ns = some (matchAt ns)) {fuel : Nat}
    {queue : List SearchPoint} {f : Finding α} (hqueue : ∀ point ∈ queue, t.Lies qualifier point) :
    t.searchQueue? qualifier matchAt? fuel queue f =
      some (t.searchQueue qualifier matchAt fuel queue f) := by
  induction fuel generalizing queue f with
  | zero => rfl
  | succ fuel ih =>
      cases queue with
      | nil => rfl
      | cons point queue =>
          have hpoint := hqueue point List.mem_cons_self
          have hrest : ∀ next ∈ queue ++ t.nextPoints qualifier point, t.Lies qualifier next := by
            intro next hnext
            rcases List.mem_append.1 hnext with hnext | hnext
            · exact hqueue next (List.mem_cons_of_mem _ hnext)
            · exact ht.lies_of_mem_nextPoints next hnext
          have hfound : matchOf? qualifier matchAt? point =
              some (matchOf qualifier matchAt point) := by
            rw [matchOf?, matchOf, hmatch _ hpoint.1]
            split <;> rfl
          rw [searchQueue?, searchQueue, node?_eq hpoint.1]
          simp only [Option.bind_eq_bind, Option.bind_some, hfound, nextPoints?_eq hpoint,
            Option.pure_def]
          split
          · rfl
          · exact ih hrest

theorem Tree.search?_eq (ht : t.Tree)
    (hmatch : ∀ ns, t.HasNamespace ns → matchAt? ns = some (matchAt ns))
    (hstart : t.HasNamespace start) (qualifier : List Name) :
    t.search? start qualifier matchAt? = some (t.search start qualifier matchAt) := by
  rw [search?, search, ht.searchQueue?_eq hmatch
    (List.forall_mem_singleton.2 ⟨hstart, Nat.zero_le _⟩)]
  rfl

theorem Tree.searchPreferring?_eq (ht : t.Tree)
    (hmatch : ∀ ns, t.HasNamespace ns → matchAt? ns = some (matchAt ns)) (qualifier : List Name) :
    t.searchPreferring? none qualifier matchAt? =
      some (t.searchPreferring none qualifier matchAt) := by
  simp only [searchPreferring?, searchPreferring, Option.getD_none,
    ht.search?_eq hmatch ht.root, Option.bind_eq_bind, Option.bind_some]
  cases t.search .root qualifier matchAt <;> rfl

end

section

variable {names : Interner} {t foreign : Table} {id : QualifiedId} {filter : Symbol → Bool}
  {ns base : NamespaceId} {x : SymbolId}

theorem Regular.resolveId?_eq (ht : t.Regular names) (id : QualifiedId)
    (filter : Symbol → Bool) : t.resolveId? id filter = some (t.resolveId id filter) := by
  rw [resolveId?, resolveId, resolveSymbol?, resolveSymbol]
  cases id.segments.getLast? with
  | none => rfl
  | some last =>
      refine ht.tree.searchPreferring?_eq (fun ns hns => ?_) _
      rw [node?_eq hns]
      cases hsymbol : (t.namespaceAt ns).symbol? last with
      | none => simp [hsymbol]
      | some x =>
          have hx := (ht.arena.entry hsymbol).1
          simp [hsymbol, symbol?_eq hx, Option.filter]

/-- What a search finds matches somewhere. -/
theorem Tree.exists_of_search (ht : t.Tree) {α : Type} [DecidableEq α]
    {qualifier : List Name} {matchAt : NamespaceId → Option α} {a : α}
    (h : t.search .root qualifier matchAt = .found a ∨
      ∃ b, t.search .root qualifier matchAt = .ambiguous a b ∨
        t.search .root qualifier matchAt = .ambiguous b a) : ∃ ns, matchAt ns = some a := by
  rcases ht.search_cases ht.root qualifier matchAt with
    ⟨hresult, -⟩ | ⟨k, first, others, hmatches, -, hresult⟩
  · simp [hresult] at h
  · have hmem : a ∈ first :: others := by
      rw [hresult, Resolution.ofMatches] at h
      cases hother : others.find? (· ≠ first) with
      | none =>
          simp only [hother] at h
          obtain h | ⟨b, h | h⟩ := h <;> cases h
          exact List.mem_cons_self
      | some second =>
          have hsecond := List.mem_cons_of_mem first (List.mem_of_find?_eq_some hother)
          simp only [hother] at h
          obtain h | ⟨b, h | h⟩ := h <;> cases h
          · exact List.mem_cons_self
          · exact hsecond
    rw [← hmatches, levelMatches, List.mem_filterMap] at hmem
    obtain ⟨point, -, hpoint⟩ := hmem
    unfold matchOf at hpoint
    split at hpoint
    · exact ⟨_, hpoint⟩
    · cases hpoint

/-- What an identifier names, or may name, is there. -/
theorem Regular.holds_of_resolveId (ht : t.Regular names)
    (h : t.resolveId id filter = .found x ∨
      ∃ y, t.resolveId id filter = .ambiguous x y ∨ t.resolveId id filter = .ambiguous y x) :
    t.Holds x := by
  cases hlast : id.segments.getLast? with
  | none => simp [resolveId_eq_notFound hlast] at h
  | some last =>
      rw [resolveId_eq_search hlast] at h
      obtain ⟨ns, hns⟩ := ht.tree.exists_of_search h
      exact (ht.arena.entry (symbol?_of_filtered hns)).1

theorem Regular.resolveOrProblem?_eq (ht : t.Regular names) (names' : Interner) (id : QualifiedId)
    (filter : Symbol → Bool) (usage : Option String) :
    t.resolveOrProblem? names' id filter usage =
      some (t.resolveOrProblem names' id filter usage) := by
  simp only [resolveOrProblem?, resolveOrProblem, ht.resolveId?_eq, Option.bind_eq_bind,
    Option.bind_some]
  cases hfound : t.resolveId id filter with
  | found x => rfl
  | ambiguous x y =>
      have hx := ht.holds_of_resolveId (.inr ⟨y, .inl hfound⟩)
      have hy := ht.holds_of_resolveId (.inr ⟨x, .inr hfound⟩)
      simp only [symbol?_eq hx, symbol?_eq hy, Option.bind_some]
      rfl
  | notFound =>
      cases usage with
      | none => rfl
      | some usage => cases (t.resolveId id anySymbol).found? <;> rfl

/-- What an identifier names is there. -/
theorem Regular.holds_of_resolveOrProblem (ht : t.Regular names) {names' : Interner}
    {usage : Option String} (h : t.resolveOrProblem names' id filter usage = .ok x) :
    t.Holds x := by
  unfold resolveOrProblem at h
  dsimp only at h
  split at h
  · next hfound =>
      cases h
      exact ht.holds_of_resolveId (.inl hfound)
  · cases h
  · split at h <;> cases h

theorem Tree.descend??_eq (ht : t.Tree) (hns : t.HasNamespace ns) (segments : List Name) :
    t.descend?? ns segments = some (t.descend? ns segments) := by
  induction segments generalizing ns with
  | nil => rfl
  | cons segment rest ih =>
      rw [descend??, descend?, node?_eq hns]
      cases hchild : (t.namespaceAt ns).child? segment with
      | none => simp [hchild]
      | some child => simp [hchild, ih (ht.child hchild).1]

theorem Regular.resolveForeign?_eq (ht : t.Regular names) (hforeign : foreign.Regular names)
    (hx : foreign.Holds x) (path : ForeignPath) :
    t.resolveForeign? foreign x path = some (t.resolveForeign foreign x path) := by
  have hhome : foreign.HasNamespace (foreign.bearer x).home := by
    refine hforeign.arena.home ?_
    cases hdata : foreign.dataOf? x with
    | none => exact hx
    | some d => exact hforeign.families.holds_of_dataOf? hdata
  rw [resolveForeign?, resolveForeign]
  simp only [hforeign.families.bearer?_eq hx, hforeign.tree.path?_eq hhome, dataOf??_eq hx,
    ht.tree.descend??_eq ht.tree.root, Option.bind_eq_bind, Option.bind_some]
  cases hdescend : t.descend? .root (if path.dropParent = true then
      (path.rename.toList ++ foreign.path (foreign.bearer x).home).dropLast
    else path.rename.toList ++ foreign.path (foreign.bearer x).home) with
  | none => rfl
  | some ns =>
      have hns := ht.tree.hasNamespace_of_descend? ht.tree.root hdescend
      simp only [node?_eq hns, Option.bind_some]
      cases hfound : (t.namespaceAt ns).symbol? (foreign.bearer x).name with
      | none => rfl
      | some found =>
          have hheld := (ht.arena.entry hfound).1
          simp only [symbol?_eq hheld, sortOf??_eq hheld, Option.bind_some]
          split
          · rfl
          · split <;> rfl

end

end Table

end ManySorted
