import ManySorted.Proofs.Guard.Declaring
import ManySorted.Proofs.Declaration.Inscription
import ManySorted.Proofs.Draft.Walk

/-!
# Guarded forms and restrictions

Writing forms reads the unions that members name and writes to declarations and their sorts; the
restrictions read what forms accept.  All of this is guarded here.

## Strategy

* What a resolved declaration refers to is there, and the unions among its members are among what
  it refers to (`Position.Held`).
* Every pass keeps what is there, so it is enough that this holds when a declaration is resolved.
* Once all forms are written, the table is intact, so the sorts and constants that a form speaks of
  are there, and so are their data symbols.
-/

namespace ManySorted

/-! ## Opening unions -/

def flatten? (known? : SymbolId → Option AcceptedValues) (unopened : UnionMembers)
    (stack : List Member) (out : AcceptedValues) : Option AcceptedValues :=
  match stack with
  | [] => some out
  | .values values :: rest => flatten? known? unopened rest (out.union values)
  | .union u :: rest =>
      match _ : unopened.find? u with
      | some entry => flatten? known? (unopened.without u) (entry.2 ++ rest) out
      | none => do flatten? known? unopened rest (out.union (← known? u))
termination_by unopened.weight + stack.length
decreasing_by
  · simp
  · have := UnionMembers.weight_without_lt ‹_›
    simp only [List.length_append, List.length_cons]
    omega
  · simp

/-- Opening unions looks up those that are met and not opened. -/
theorem flatten?_eq {known? : SymbolId → Option AcceptedValues}
    {known : SymbolId → AcceptedValues} {unopened : UnionMembers} {stack : List Member}
    {out : AcceptedValues}
    (hunopened : ∀ entry ∈ unopened, ∀ u, .union u ∈ entry.2 → known? u = some (known u))
    (hstack : ∀ u, .union u ∈ stack → known? u = some (known u)) :
    flatten? known? unopened stack out = some (flatten known unopened stack out) := by
  fun_induction flatten known unopened stack out with
  | case1 => rw [flatten?]
  | case2 unopened out values rest ih =>
      rw [flatten?]
      exact ih hunopened fun u hu => hstack u (List.mem_cons_of_mem _ hu)
  | case3 unopened out u rest entry hfound ih =>
      have hentry : entry ∈ unopened := List.mem_of_find?_eq_some hfound
      rw [flatten?]
      split
      · next entry' hfound' =>
          obtain rfl : entry = entry' := Option.some.inj (hfound.symm.trans hfound')
          refine ih (fun e he => hunopened e (List.mem_filter.1 he).1) fun w hw => ?_
          rcases List.mem_append.1 hw with hw | hw
          · exact hunopened entry hentry w hw
          · exact hstack w (List.mem_cons_of_mem _ hw)
      · next hnone => cases hfound.symm.trans hnone
  | case4 unopened out u rest hnone ih =>
      rw [flatten?]
      split
      · next hfound => cases hnone.symm.trans hfound
      · rw [hstack u List.mem_cons_self]
        exact ih hunopened fun w hw => hstack w (List.mem_cons_of_mem _ hw)

namespace Table

/-! ## Working out and writing forms -/

def unionMembers? (t : Table) (types : List ResolvedType) : Option UnionMembers := do
  let unions ← types.filterM fun d => do
    let s ← t.symbol? d.symbol
    return !s.failed && s.kind.isUnion
  return unions.map fun d => (d.symbol, d.members)

def knownUnion? (t : Table) (unions : UnionMembers) (u : SymbolId) : Option AcceptedValues := do
  if (unions.find? u).isSome then return ∅
  else return ((← t.symbol? u).accepted? 0).getD ∅

def acceptedAt? (t : Table) (unions : UnionMembers) (p : Position) : Option AcceptedValues :=
  flatten? (t.knownUnion? unions) unions p.members ∅

def writeForm? (t : Table) (symbol : SymbolId) (form : CanonicalForm) :
    ExceptT Fault Option Table := do
  let kind ← t.kindOf? symbol
  let t ←
    match kind.info? with
    | some info => ExceptT.mk (t.setCanonical? info.sort form)
    | none => pure t
  ExceptT.mk (t.setCanonical? symbol form)

def writeConstantForms? (t : Table) : ExceptT Fault Option Table :=
  ((t.symbols.toList.filter lacksConstantForm).map Symbol.id).foldlM
    (fun t id => ExceptT.mk (t.setCanonical? id {})) t

section

variable {names : Interner} {t : Table} {types : List ResolvedType} {unions : UnionMembers}
  {p : Position} {x : SymbolId}

theorem unionMembers?_eq (h : ∀ d ∈ types, t.Holds d.symbol) :
    t.unionMembers? types = some (t.unionMembers types) := by
  have hfilter : types.filterM (m := Option) (fun d => do
      let s ← t.symbol? d.symbol
      return !s.failed && s.kind.isUnion) =
      some (types.filter fun d => !(t.symbolAt d.symbol).failed && (t.kindOf d.symbol).isUnion) :=
    filterM_eq_some fun d hd => by
      rw [symbol?_eq (h d hd)]
      rfl
  rw [unionMembers?, hfilter]
  rfl

/-- The unions that were opened have members that are there. -/
theorem held_of_mem_unionMembers (h : ∀ d ∈ types, d.Held t) :
    ∀ entry ∈ t.unionMembers types, ∀ u, .union u ∈ entry.2 → t.Holds u := by
  intro entry hentry u hu
  obtain ⟨d, hd, rfl⟩ := List.mem_map.1 hentry
  obtain ⟨p, hp, hu⟩ := List.mem_flatMap.1 hu
  exact ((h d (List.mem_filter.1 hd).1).positions p hp).unions u hu

theorem acceptedAt?_eq (hunions : ∀ entry ∈ unions, ∀ u, .union u ∈ entry.2 → t.Holds u)
    (hp : p.Held t) : t.acceptedAt? unions p = some (t.acceptedAt unions p) := by
  have hknown : ∀ u, t.Holds u → t.knownUnion? unions u = some (t.knownUnion unions u) := by
    intro u hu
    rw [knownUnion?, knownUnion, symbol?_eq hu]
    split <;> rfl
  exact flatten?_eq (fun entry hentry u hu => hknown u (hunions entry hentry u hu))
    fun u hu => hknown u (hp.unions u hu)

theorem Families.writeForm?_eq (ht : t.Families names) (hx : t.Holds x) (form : CanonicalForm) :
    (t.writeForm? x form).run = some (t.writeForm x form) := by
  rw [writeForm?, writeForm, kindOf?_eq hx]
  cases hkind : t.kindOf x with
  | data shape info =>
      refine run_bind_eq_some (setCanonical?_eq (ht.data hkind).holds_sort form) fun t' ht' => ?_
      exact setCanonical?_eq (holds_of_setCanonical ht' hx) form
  | _ => exact setCanonical?_eq hx form

theorem Arena.writeConstantForms?_eq (ht : t.Arena) :
    t.writeConstantForms?.run = some t.writeConstantForms := by
  have hids : ∀ id ∈ (t.symbols.toList.filter lacksConstantForm).map Symbol.id, t.Holds id := by
    intro id hid
    obtain ⟨s, hs, rfl⟩ := List.mem_map.1 hid
    obtain ⟨x, hx, rfl⟩ := mem_symbols_toList.1 (List.mem_filter.1 hs).1
    rwa [ht.id_eq hx]
  refine run_foldlM_eq_some (motive := fun t' => ∀ x, t.Holds x → t'.Holds x) (fun _ hx => hx)
    fun t' id hid ht' => ⟨setCanonical?_eq (ht' id (hids id hid)) _,
      fun t'' ht'' x hx => holds_of_setCanonical ht'' (ht' x hx)⟩

end

/-! ## Restrictions -/

def derivedRef?? (t : Table) (id : SymbolId) : Option (Option SymbolId) := do
  let data := (← t.dataOf?? id).getD id
  match ← t.kindOf? data with
  | .data (.constructor false) _ | .userConstant .derived => return some data
  | _ => return none

def derivedMembers? (t : Table) (u : SymbolId) : Option (List SymbolId) := do
  match (← t.symbol? u).accepted? 0 with
  | some values => (values.sorts.toList ++ values.constantSymbols).filterMapM t.derivedRef??
  | none => return []

def derivedBehind? (t : Table) (ref : SymbolId) :
    Option (List (SymbolId × Option SymbolId)) := do
  match ← t.derivedRef?? ref with
  | some arg => return [(arg, none)]
  | none =>
      if (← t.kindOf? ref).isUnion then return (← t.derivedMembers? ref).map (·, some ref)
      else return []

/-- The report about new data that takes derived data. -/
def newnessReport? (t : Table) (names : Interner) (s : Symbol) (symbol : SymbolId)
    (behind : SymbolId × Option SymbolId) : Option Report := do
  let symbol ← t.qualifiedName? names symbol
  let arg ← t.qualifiedName? names behind.1
  match behind.2 with
  | none => return ⟨s.location, .argumentNewness symbol arg⟩
  | some u => return ⟨s.location, .subArgumentNewness symbol arg (← t.qualifiedName? names u)⟩

def newnessReports? (t : Table) (names : Interner) (d : ResolvedType) :
    Option (List Report) := do
  let s ← t.symbol? d.symbol
  if s.failed || !s.kind.isNew then return []
  else
    let behind ← d.refs.mapM t.derivedBehind?
    behind.flatten.mapM (t.newnessReport? names s d.symbol)

def outputNamespaces? (t : Table) (m : Module) : Option (List NamespaceId) := do
  let root ← t.node? .root
  return m.outputs.filterMap fun reference => reference.rename.bind root.child?

/-- The report about a parameter that accepts new data of an output. -/
def parameterReport? (t : Table) (names : Interner) (outputs : List NamespaceId)
    (param data : SymbolId) : Option (Option Report) := do
  let s ← t.symbol? data
  if s.kind.isNew && (← outputs.anyM (t.isWithin? s.home)) then
    return some ⟨(← t.symbol? param).location,
      .transformNewness (← t.qualifiedName? names param) (← t.qualifiedName? names data)⟩
  else return none

def parameterReports? (t : Table) (names : Interner) (outputs : List NamespaceId)
    (param : SymbolId) : Option (List Report) := do
  match (← t.symbol? param).accepted? 0 with
  | none => return []
  | some values =>
      let data ← values.sorts.toList.filterMapM t.dataOf??
      data.filterMapM (t.parameterReport? names outputs param)

def restrictionReports? (t : Table) (names : Interner) (m : Module) (types : List ResolvedType)
    (params : List SymbolId) : Option (List Report) := do
  let newness ← types.mapM (t.newnessReports? names)
  let outputs ← t.outputNamespaces? m
  let parameters ←
    if m.kind = .transform then params.mapM (t.parameterReports? names outputs) else pure []
  return newness.flatten ++ t.labelReports names m ++ parameters.flatten

section

variable {names names' : Interner} {t : Table} {x : SymbolId}

theorem holds_of_derivedRef? {d : SymbolId} (h : t.derivedRef? x = some d) : t.Holds d := by
  unfold derivedRef? at h
  dsimp only at h
  split at h
  · next hkind =>
      cases h
      exact holds_of_data hkind
  · next hkind =>
      cases h
      exact holds_of_constant hkind
  · cases h

/-- Data behind a reference is there, and so is the union that it is reached through. -/
theorem holds_of_mem_derivedBehind (hx : t.Holds x) : ∀ behind ∈ t.derivedBehind x,
    t.Holds behind.1 ∧ ∀ u, behind.2 = some u → t.Holds u := by
  intro behind hbehind
  unfold derivedBehind at hbehind
  split at hbehind
  · next arg harg =>
      rw [List.mem_singleton.1 hbehind]
      exact ⟨holds_of_derivedRef? harg, fun u hu => nomatch hu⟩
  · split at hbehind
    · obtain ⟨arg, harg, rfl⟩ := List.mem_map.1 hbehind
      refine ⟨?_, fun u hu => ?_⟩
      · unfold derivedMembers at harg
        split at harg
        · obtain ⟨member, -, harg⟩ := List.mem_filterMap.1 harg
          exact holds_of_derivedRef? harg
        · cases harg
      · cases hu
        exact hx
    · cases hbehind

variable (ht : t.Intact names)
include ht

theorem Intact.derivedRef??_eq (hx : t.Holds x) : t.derivedRef?? x = some (t.derivedRef? x) := by
  have hdata : t.Holds ((t.dataOf? x).getD x) := by
    cases hdata : t.dataOf? x with
    | none => exact hx
    | some d => exact ht.formed.families.holds_of_dataOf? hdata
  rw [derivedRef??, derivedRef?, dataOf??_eq hx]
  simp only [Option.bind_eq_bind, Option.bind_some, kindOf?_eq hdata]
  cases t.kindOf ((t.dataOf? x).getD x) with
  | data shape info =>
      cases shape with
      | constructor isNew => cases isNew <;> rfl
      | map kind isPartial domainArity => rfl
  | userConstant constant => cases constant <;> rfl
  | _ => rfl

theorem Intact.derivedMembers?_eq (hx : t.Holds x) :
    t.derivedMembers? x = some (t.derivedMembers x) := by
  rw [derivedMembers?, derivedMembers, symbol?_eq hx]
  cases haccepted : (t.symbolAt x).accepted? 0 with
  | none => simp [haccepted]
  | some values =>
      have hclosed := closed_accepted ht.closed haccepted
      have hmembers : (values.sorts.toList ++ values.constantSymbols).filterMapM t.derivedRef?? =
          some ((values.sorts.toList ++ values.constantSymbols).filterMap t.derivedRef?) := by
        refine filterMapM_eq_some fun y hy => ht.derivedRef??_eq ?_
        rcases List.mem_append.1 hy with hy | hy
        · exact (hclosed.sorts hy).holds
        · exact (hclosed.constants (AcceptedValues.mem_constantSymbols.1 hy)).holds
      simp [haccepted, hmembers]

theorem Intact.derivedBehind?_eq (hx : t.Holds x) :
    t.derivedBehind? x = some (t.derivedBehind x) := by
  rw [derivedBehind?, derivedBehind, ht.derivedRef??_eq hx]
  cases href : t.derivedRef? x with
  | some arg => rfl
  | none =>
      simp only [Option.bind_eq_bind, Option.bind_some, kindOf?_eq hx, ht.derivedMembers?_eq hx]
      split <;> rfl

theorem Intact.newnessReports?_eq {d : ResolvedType} (hd : d.Held t) :
    t.newnessReports? names' d = some (t.newnessReports names' d) := by
  have hname : ∀ {y}, t.Holds y → t.qualifiedName? names' y = some (t.qualifiedName names' y) :=
    fun hy => ht.formed.toRegular.qualifiedName?_eq hy names'
  have hbehind : d.refs.mapM t.derivedBehind? = some (d.refs.map t.derivedBehind) :=
    mapM_eq_some fun y hy => ht.derivedBehind?_eq (hd.refs y hy)
  rw [newnessReports?, newnessReports, symbol?_eq hd.symbol]
  simp only [Option.bind_eq_bind, Option.bind_some]
  split
  · rfl
  · simp only [hbehind, Option.bind_some]
    rw [List.flatMap_def]
    refine mapM_eq_some fun behind hmem => ?_
    rw [← List.flatMap_def] at hmem
    obtain ⟨y, hy, hmem⟩ := List.mem_flatMap.1 hmem
    obtain ⟨harg, hvia⟩ := holds_of_mem_derivedBehind (hd.refs y hy) behind hmem
    obtain ⟨arg, via⟩ := behind
    rw [newnessReport?, hname hd.symbol, hname harg]
    cases via with
    | none => rfl
    | some u => simp [hname (hvia u rfl)]

theorem Intact.parameterReports?_eq (hx : t.Holds x) (outputs : List NamespaceId) :
    t.parameterReports? names' outputs x = some (t.parameterReports names' outputs x) := by
  have hname : ∀ {y}, t.Holds y → t.qualifiedName? names' y = some (t.qualifiedName names' y) :=
    fun hy => ht.formed.toRegular.qualifiedName?_eq hy names'
  rw [parameterReports?, parameterReports, symbol?_eq hx]
  simp only [Option.bind_eq_bind, Option.bind_some]
  cases haccepted : (t.symbolAt x).accepted? 0 with
  | none => rfl
  | some values =>
      have hclosed := closed_accepted ht.closed haccepted
      have hdata : values.sorts.toList.filterMapM t.dataOf?? =
          some (values.sorts.toList.filterMap t.dataOf?) :=
        filterMapM_eq_some fun s hs => dataOf??_eq (hclosed.sorts hs).holds
      simp only [hdata, Option.bind_some]
      refine filterMapM_eq_some fun d hd => ?_
      obtain ⟨s, -, hdata⟩ := List.mem_filterMap.1 hd
      have hd := ht.formed.families.holds_of_dataOf? hdata
      have houtputs : outputs.anyM (t.isWithin? (t.symbolAt d).home) =
          some (outputs.any (t.isWithin (t.symbolAt d).home)) :=
        anyM_eq_some fun ns _ => ht.formed.tree.isWithin?_eq (ht.formed.arena.home hd) ns
      simp only [parameterReport?, symbol?_eq hd, symbol?_eq hx, houtputs, hname hx, hname hd,
        Option.bind_eq_bind, Option.bind_some]
      split <;> rfl

theorem Intact.restrictionReports?_eq {types : List ResolvedType} {params : List SymbolId}
    (htypes : ∀ d ∈ types, d.Held t) (hparams : ∀ p ∈ params, t.Holds p) (m : Module) :
    t.restrictionReports? names' m types params =
      some (t.restrictionReports names' m types params) := by
  have hnewness : types.mapM (t.newnessReports? names') =
      some (types.map (t.newnessReports names')) :=
    mapM_eq_some fun d hd => ht.newnessReports?_eq (htypes d hd)
  have houtputs : t.outputNamespaces? m = some (t.outputNamespaces m) := by
    rw [outputNamespaces?, node?_eq ht.formed.tree.root]
    rfl
  have hreports : params.mapM (t.parameterReports? names' (t.outputNamespaces m)) =
      some (params.map (t.parameterReports names' (t.outputNamespaces m))) :=
    mapM_eq_some fun p hp => ht.parameterReports?_eq (hparams p hp) _
  rw [restrictionReports?, restrictionReports]
  simp only [hnewness, houtputs, Option.bind_eq_bind, Option.bind_some]
  split <;> simp [hreports, List.flatMap_def]

end

end Table

/-! ## The passes -/

namespace Draft

def writeTypeForm? (unions : UnionMembers) (d : ResolvedType) : GuardedM Unit := do
  tick
  let t ← getTable
  if !(← t.symbol? d.symbol).failed then
    let positions ← (d.positions.mapM (t.acceptedAt? unions) : Option (List AcceptedValues))
    tryModifyTable? fun t => (t.writeForm? d.symbol ⟨positions⟩).run

def writeParamForm? (unions : UnionMembers) (p : ResolvedParam) : GuardedM Unit := do
  match p.type with
  | some position =>
      let t ← getTable
      let values ← t.acceptedAt? unions position
      tryModifyTable? (·.setCanonical? p.symbol ⟨[values]⟩)
  | none => return

def writeForms? (types : List ResolvedType) (params : List ResolvedParam) : GuardedM Unit := do
  spreadFailures? types (types.length + 1)
  let params ← params.mapM spreadToParam?
  let unions ← (← getTable).unionMembers? types
  types.forM (writeTypeForm? unions)
  params.forM (writeParamForm? unions)
  tryModifyTable? (·.writeConstantForms?.run)

def declare? (m : Module) : GuardedM Unit := do
  let declarations ← registerDeclarations? m
  let types ← declarations.types.mapM (resolveType? m)
  let params ← declarations.params.mapM (resolveParam? m)
  writeForms? types params
  modifyGet? fun d => do
    let reports ← d.table.restrictionReports? d.names m types (params.map ResolvedParam.symbol)
    return ((), { d with table := d.table.reportAll reports })

section

variable {m : Module} {origin : Table} {start base : Draft} {declarations : Declarations}
  {unions : UnionMembers}

/-- What is there stays there. -/
theorem Paced.ends_holds {α : Type} {x : DraftM α} (hx : Paced Table.NoSources x)
    (P : SymbolId → Prop) : Ends (fun d => ∀ y, P y → d.table.Holds y) x
      fun _ d => ∀ y, P y → d.table.Holds y := by
  intro d a d' hd hrun y hy
  have hmoves := (hx.paces d).moves
  rw [after, hrun] at hmoves
  exact (hmoves.advances (hd y hy)).holds

/-- A parameter that stands speaks of what is there. -/
theorem Registered.held_stands (h : Registered m origin declarations start)
    {r : ResolvedParam} (hr : ParamStands m start declarations base r) : r.Held start.table := by
  obtain ⟨p, hp, hsymbol, hcases⟩ := hr
  refine h.held_param hp hsymbol fun position hposition => ?_
  rcases hcases with ⟨hnone, -⟩ | ⟨hsome, -⟩
  · cases hposition.symm.trans hnone
  · exact Option.some.inj (hposition.symm.trans hsome)

theorem agrees_writeTypeForm {d : ResolvedType} :
    Agrees (fun draft => draft.Intact ∧ d.Held draft.table ∧
        ∀ entry ∈ unions, ∀ u, .union u ∈ entry.2 → draft.table.Holds u)
      (writeTypeForm? unions d) (writeTypeForm unions d) := by
  refine agrees_lift_bind (ends_tick fun _ _ hd => hd) fun _ => agrees_getTable_bind fun t => ?_
  refine agrees_read_bind (a := t.symbolAt d.symbol) (fun draft hd => ?_) ?_
  · rw [← hd.2]
    exact Table.symbol?_eq hd.1.2.1.symbol
  refine Agrees.ite (fun _ => ?_) fun _ => agrees_pure _ _
  refine agrees_read_bind (a := d.positions.map (t.acceptedAt unions)) (fun draft hd => ?_) ?_
  · obtain ⟨⟨-, hheld, hunions⟩, rfl⟩ := hd
    exact mapM_eq_some fun p hp => Table.acceptedAt?_eq hunions (hheld.positions p hp)
  · exact agrees_tryModifyTable fun draft hd =>
      hd.1.1.formed.families.writeForm?_eq hd.1.2.1.symbol _

theorem agrees_writeParamForm {p : ResolvedParam} :
    Agrees (fun draft => p.Held draft.table ∧
        ∀ entry ∈ unions, ∀ u, .union u ∈ entry.2 → draft.table.Holds u)
      (writeParamForm? unions p) (writeParamForm unions p) := by
  unfold writeParamForm? writeParamForm
  cases htype : p.type with
  | none => exact agrees_pure _ _
  | some position =>
      refine agrees_getTable_bind fun t => ?_
      refine agrees_read_bind (a := t.acceptedAt unions position) (fun draft hd => ?_) ?_
      · obtain ⟨⟨hheld, hunions⟩, rfl⟩ := hd
        exact Table.acceptedAt?_eq hunions (hheld.type position htype)
      · exact agrees_tryModifyTable fun draft hd => Table.setCanonical?_eq hd.1.1.symbol _

theorem Inscribing.holds {items : List Item} {d : Draft} {x : SymbolId}
    (h : Inscribing m base items d) (hx : base.table.Holds x) : d.table.Holds x := by
  obtain ⟨plan, hplan, -⟩ := h.written
  exact (hplan.toAlike.holds x).2 hx

/-- The forms are written of all that stands, in a table where all failures are marked. -/
theorem agrees_writeAll (hstart : Registered m origin declarations start)
    {params : List ResolvedParam} (hbase : Sifted m start declarations params base) :
    Agrees (· = base)
      (do
        (declarations.types.map (start.resolved m)).forM (writeTypeForm?
          (base.table.unionMembers (declarations.types.map (start.resolved m))))
        params.forM (writeParamForm?
          (base.table.unionMembers (declarations.types.map (start.resolved m))))
        tryModifyTable? (·.writeConstantForms?.run))
      (do
        (declarations.types.map (start.resolved m)).forM (writeTypeForm
          (base.table.unionMembers (declarations.types.map (start.resolved m))))
        params.forM (writeParamForm
          (base.table.unionMembers (declarations.types.map (start.resolved m))))
        tryModifyTable (·.writeConstantForms)) := by
  have htypes : ∀ r ∈ declarations.types.map (start.resolved m), r.Held base.table :=
    fun r hr => (hstart.held_types r hr).mono fun _ => hbase.toSifting.holds
  have hunions := Table.held_of_mem_unionMembers htypes
  refine Agrees.bind (P := Inscribing m base []) ?_ (safe_writeTypeForms hstart hbase).ends
    (fun _ => ?_) |>.imp ?_
  · simp only [List.forM_eq_forM, List.forM_map]
    refine agrees_forM (motive := fun done => Inscribing m base (done.map Declaration.item))
      fun done b rest hall => ⟨agrees_writeTypeForm.imp fun d hd => ⟨hd.intact, ?_, ?_⟩,
        (safe_writeTypeForm hstart hbase hall).ends⟩
    · have hb : b ∈ declarations.types := by
        rw [hall]
        exact List.mem_append_right _ List.mem_cons_self
      exact (htypes _ (List.mem_map_of_mem hb)).mono fun _ => hd.holds
    · exact fun entry hentry u hu => hd.holds (hunions entry hentry u hu)
  · refine Agrees.bind ?_ (safe_writeParamForms hstart hbase).ends fun _ =>
      agrees_tryModifyTable fun d hd => ?_
    · refine Agrees.imp (agrees_forM (motive := ParamsInscribed m base declarations)
        fun done r rest hall => ⟨agrees_writeParamForm.imp fun d hd => ?_,
          (safe_writeParamForm hstart hbase hall).ends⟩) fun d hd => hd.paramsInscribed
      have hr : r ∈ params := by
        rw [hall]
        exact List.mem_append_right _ List.mem_cons_self
      obtain ⟨items, hd, -⟩ := hd
      refine ⟨(hstart.held_stands (hbase.param r hr)).mono fun _ hx =>
        hd.holds (hbase.toSifting.holds hx), fun entry hentry u hu =>
          hd.holds (hunions entry hentry u hu)⟩
    · obtain ⟨items, hd, -⟩ := hd
      exact hd.intact.formed.arena.writeConstantForms?_eq
  · rintro d rfl
    exact .nil (hbase.intact hstart.intact)

/-- Failures are spread, and then forms are written. -/
theorem agrees_writeForms (hstart : Registered m origin declarations start)
    {types : List ResolvedType} {params : List ResolvedParam} :
    Agrees (fun d => Examined m start declarations.types types d ∧
        ParamsExamined m start declarations.params params d)
      (writeForms? types params) (writeForms types params) := by
  intro d₀ hd₀
  obtain rfl := hd₀.1.resolved_eq
  refine Agrees.bind ((agrees_spreadFailures hstart (belong_resolved m declarations start)
    hstart.held_types
    _).imp fun d hd => hd.1.toSifting) (safe_spreadTypes hstart).ends (fun _ => ?_) d₀ hd₀
  refine Agrees.bind (agrees_spreadParams hstart) (safe_spreadParams hstart).ends fun params => ?_
  refine agrees_getTable_bind fun t => ?_
  refine agrees_read_bind (a := t.unionMembers (declarations.types.map (start.resolved m)))
    (fun d hd => ?_) ?_
  · obtain ⟨hd, rfl⟩ := hd
    exact Table.unionMembers?_eq fun r hr => hd.toSifting.holds (hstart.held_types r hr).symbol
  · rintro base ⟨hbase, rfl⟩
    exact agrees_writeAll hstart hbase base rfl

/-- Declaring reads and writes only what is there. -/
theorem agrees_declare (m : Module) (hformed : ImportsFormed origin) :
    Agrees (Enrolled origin [] [] []) (declare? m) (declare m) := by
  refine (agrees_registerDeclarations m).bind (safe_registerDeclarations m).ends
    fun declarations => ?_
  intro start hstart
  refine Agrees.bind (P := (· = start)) ?_ (safe_resolveTypes hstart).ends (fun types => ?_)
    start rfl
  · refine (agrees_mapM (motive := Examined m start) fun done types b rest hall => ?_).imp ?_
    · have hb : b ∈ declarations.types := by
        rw [hall]
        exact List.mem_append_right _ List.mem_cons_self
      refine ⟨(agrees_resolveType b).imp fun d hd => ⟨hd.intact hstart.intact, ?_⟩,
        (safe_resolveType hstart hb).ends⟩
      exact hd.toSifting.holds (hstart.listsTypes.mem_iff.1 (List.mem_map_of_mem hb)).1.holds
    · rintro d rfl
      exact ⟨⟨rfl, .refl _⟩, rfl, fun _ hb => absurd hb List.not_mem_nil⟩
  refine Agrees.bind ?_ (safe_resolveParams hstart).ends fun params => ?_
  · refine (agrees_mapM (motive := fun done params d =>
      Examined m start declarations.types types d ∧ ParamsExamined m start done params d)
      fun done params p rest hall => ?_).imp
        fun d hd => ⟨hd, rfl, fun _ hr => absurd hr List.not_mem_nil⟩
    have hp : p ∈ declarations.params := by
      rw [hall]
      exact List.mem_append_right _ List.mem_cons_self
    refine ⟨(agrees_resolveParam p).imp fun d hd => ⟨hd.1.intact hstart.intact, ?_⟩,
      (safe_resolveParam hstart hp).ends⟩
    exact hd.1.toSifting.holds (hstart.listsParams.mem_iff.1 (List.mem_map_of_mem hp)).1.holds
  -- What was resolved stays there while the forms are written.
  intro d hd
  have htypes : ∀ r ∈ types, r.Held d.table := by
    rw [hd.1.resolved_eq]
    exact fun r hr => (hstart.held_types r hr).mono fun _ => hd.1.toSifting.holds
  have hparams : ∀ r ∈ params, r.Held d.table := fun r hr =>
    (hstart.held_params hd.2 r hr).mono fun _ => hd.1.toSifting.holds
  have hends := ((safe_writeForms hstart hformed).ends.and
    ((paced_writeForms types params).ends_holds d.table.Holds)).imp (fun d' hd' => hd')
      fun _ d' hd' => (⟨hd'.1.1.intact, hd'.2⟩ :
        d'.Intact ∧ ∀ x, d.table.Holds x → d'.table.Holds x)
  refine Agrees.bind ((agrees_writeForms hstart).imp fun d' hd' => hd'.1) hends (fun _ => ?_) d
    ⟨hd, fun _ hx => hx⟩
  refine agrees_modifyGet fun d' hd' => ?_
  rw [Table.Intact.restrictionReports?_eq hd'.1 (fun r hr => (htypes r hr).mono hd'.2)
    (fun p hp => ?_) m]
  · rfl
  · obtain ⟨r, hr, rfl⟩ := List.mem_map.1 hp
    exact hd'.2 _ (hparams r hr).symbol

end

end Draft

end ManySorted
