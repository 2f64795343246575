import ManySorted.Proofs.Guard.Forming
import ManySorted.Proofs.Guard.Importing
import ManySorted.Proofs.Guard.Productivity
import ManySorted.Proofs.Guard.Sizing
import ManySorted.Proofs.Session.Safety

/-!
# Checking never breaks down

Whatever module is checked, with whatever errors, a check ends and hands out a table in which
nothing dangles (`checkModule_total`): no form or size is written twice, every clone is found again,
and data symbols have the companions that they were promised.  Nothing that it reads or writes on
the way is out of range.  A check relies on the tables of its library, and these were handed out by
checks.

What is out of range stops the guarded check (`checkModule?`).  It looks after

* the handles of namespaces and symbols, wherever a table is read or written;
* the handles that are promised to the sort and the type constant of data;
* the next segment of a qualifier that is searched for;
* the new home of a foreign namespace when a table is recreated in another one;
* the nodes, states and edges of the graph that is solved for productive data;
* the nodes and edges of the graph of sizes, and the marks of the search for its components;
* the argument that the rule of a relational position is about.

## Strategy

* A table starts with a root, where the built-in symbols are entered.
* Contracts name their data and conditions by identifiers, and what an identifier resolves to is
  there.
* The passes agree one after the other.  Each of them starts from what the passes before it have
  made: imports from a table that only has what is built in, declarations from a collected table,
  productivity and sizing from one where everything is declared, contracts from one that is sized.
* So the guarded check does the same as the check, and that one ends (`exists_checkModule`).
-/

namespace ManySorted

namespace Table

/-! ## The guarded table of a module -/

def addBuiltin? (state : Interner × Table) (builtin : String × Nat × SymbolKind) :
    Option (Interner × Table) := do
  let (text, arity, kind) := builtin
  let (name, names) := state.1.intern text
  match ← state.2.register? .root name arity .generated kind with
  | .ok (_, t) => return (names, t)
  | .error _ => return (names, state.2)

def create? (names : Interner) (id : TableId) (module : Name) (kind : ModuleKind) (file : Name) :
    Option (Interner × Table) :=
  builtins.foldlM addBuiltin?
    (names, { id, module, kind, file, dependencies := ⟨[(module, id)]⟩ })

/-- The root stays when a built-in symbol is entered. -/
theorem addBuiltin?_eq {state : Interner × Table} (h : state.2.HasNamespace .root)
    (builtin : String × Nat × SymbolKind) :
    addBuiltin? state builtin = some (addBuiltin state builtin) ∧
      (addBuiltin state builtin).2.HasNamespace .root := by
  obtain ⟨text, arity, kind⟩ := builtin
  rw [addBuiltin?, addBuiltin]
  simp only [register?_eq h, registerIfFree, Option.bind_eq_bind, Option.bind_some]
  rcases state.2.register_cases .root (state.1.intern text).1 arity .generated kind with
    ⟨hfree, hregister⟩ | ⟨existing, -, hregister⟩
  · rw [hregister]
    exact ⟨rfl, hasNamespace_withSymbol.2 h⟩
  · rw [hregister]
    exact ⟨rfl, h⟩

theorem create?_eq (names : Interner) (id : TableId) (module : Name) (kind : ModuleKind)
    (file : Name) :
    create? names id module kind file = some (create names id module kind file) := by
  have hroot : ({ id, module, kind, file, dependencies := ⟨[(module, id)]⟩ } :
      Table).HasNamespace .root := Nat.one_pos
  exact (foldlM_eq_some (motive := fun state : Interner × Table => state.2.HasNamespace .root)
    hroot fun _ builtin _ h => addBuiltin?_eq h builtin).1

/-! ## Guarded contracts -/

/-- The number of values that data may have, if it is known. -/
def closedSize? (t : Table) (symbol : SymbolId) : Option (Option Nat) := do
  match ← t.sortOf?? symbol with
  | none => return none
  | some sort => return (← t.symbol? sort).size?.bind SizeExpr.closed

def checkCardinality? (t : Table) (names : Interner) (location : Location) (kind : ContractKind)
    (c : Cardinality) (symbol : SymbolId) : Option ContractOutcome := do
  let name ← t.qualifiedName? names symbol
  if !(← t.kindOf? symbol).isNew then
    return { reports := [⟨location, .cardinalityNewness name⟩] }
  else
    let size ← t.closedSize? symbol
    return { reports := (size.bind (c.oddity? name)).toList.map fun reason =>
               ⟨location, .cardinalityContract name reason⟩
             rules := [{ kind := .contract kind, subject := symbol, head := kind.head,
                         body := [s!"count({name}) {c.comparison} {c.bound}"] }] }

def condition? (t : Table) (names : Interner) (id : QualifiedId) :
    Option (Except Problem SymbolId) := do
  match ← t.resolveOrProblem? names id anySymbol none with
  | .error problem => return .error problem
  | .ok symbol =>
      match ← t.kindOf? symbol with
      | .userConstant .derived | .baseConstant _ => return .ok symbol
      | _ => return .error (.badId (names.join id.segments) "a contract condition")

/-- The rule of a contract whose conditions are there, or the problems with them. -/
def ruleOfConditions? (t : Table) (names : Interner) (location : Location) (kind : ContractKind)
    (problems : List Problem) (symbols : List SymbolId) : Option ContractOutcome := do
  match problems, symbols with
  | [], subject :: _ =>
      return { rules := [{ kind := .contract kind, subject, head := kind.head,
                           body := ← symbols.mapM (t.qualifiedName? names) }] }
  | _, _ => return { reports := problems.map (⟨location, ·⟩) }

def checkConditions? (t : Table) (names : Interner) (location : Location) (kind : ContractKind)
    (ids : List QualifiedId) : Option ContractOutcome := do
  let conditions ← ids.mapM (t.condition? names)
  t.ruleOfConditions? names location kind
    (conditions.filterMap fun | .error problem => some problem | .ok _ => none)
    (conditions.filterMap fun | .ok symbol => some symbol | .error _ => none)

def checkContract? (t : Table) (names : Interner) (m : Module) (contract : ContractDecl) :
    Option ContractOutcome := do
  let location := m.locate contract.span
  match contract.item with
  | .cardinality c sort =>
      match ← t.resolveOrProblem? names sort typeDefining none with
      | .ok symbol => t.checkCardinality? names location contract.kind c symbol
      | .error problem => return { reports := [⟨location, problem⟩] }
  | .holds ids => t.checkConditions? names location contract.kind ids

section

variable {names : Interner} {t : Table} {x : SymbolId} (ht : t.Intact names)
include ht

theorem Intact.closedSize?_eq (hx : t.Holds x) : t.closedSize? x =
    some (((t.sortOf? x).bind fun sort => (t.symbolAt sort).size?).bind SizeExpr.closed) := by
  rw [closedSize?, sortOf??_eq hx]
  cases hsort : t.sortOf? x with
  | none => rfl
  | some s => simp [symbol?_eq (ht.formed.toRegular.isSort_of_sortOf? hsort).holds]

theorem Intact.checkCardinality?_eq (hx : t.Holds x) (names' : Interner) (location : Location)
    (kind : ContractKind) (c : Cardinality) : t.checkCardinality? names' location kind c x =
      some (t.checkCardinality names' location kind c x) := by
  rw [checkCardinality?, checkCardinality]
  simp only [ht.formed.toRegular.qualifiedName?_eq hx, kindOf?_eq hx, ht.closedSize?_eq hx,
    Option.bind_eq_bind, Option.bind_some]
  split <;> rfl

theorem Intact.condition?_eq (names' : Interner) (id : QualifiedId) :
    t.condition? names' id = some (t.condition names' id) := by
  rw [condition?, condition, ht.formed.toRegular.resolveOrProblem?_eq]
  cases hfound : t.resolveOrProblem names' id anySymbol none with
  | error problem => rfl
  | ok symbol =>
      have hsymbol := ht.formed.toRegular.holds_of_resolveOrProblem hfound
      simp only [kindOf?_eq hsymbol, Option.bind_some, bind, Except.bind]
      cases t.kindOf symbol with
      | userConstant constant => cases constant <;> rfl
      | _ => rfl

/-- A condition is there. -/
theorem Intact.holds_of_condition {names' : Interner} {id : QualifiedId}
    (h : t.condition names' id = .ok x) : t.Holds x := by
  obtain ⟨symbol, hfound, h⟩ := except_bind_eq_ok.1 h
  have hsymbol := ht.formed.toRegular.holds_of_resolveOrProblem hfound
  split at h
  · cases h
    exact hsymbol
  · cases h
    exact hsymbol
  · cases h

theorem Intact.ruleOfConditions?_eq (names' : Interner) (location : Location) (kind : ContractKind)
    (problems : List Problem) (symbols : List SymbolId) : (∀ x ∈ symbols, t.Holds x) →
      t.ruleOfConditions? names' location kind problems symbols =
        some (match problems, symbols with
          | [], subject :: _ =>
              { rules := [{ kind := .contract kind, subject, head := kind.head,
                            body := symbols.map (t.qualifiedName names') }] }
          | _, _ => { reports := problems.map (⟨location, ·⟩) }) := by
  intro h
  have hnames : symbols.mapM (t.qualifiedName? names') =
      some (symbols.map (t.qualifiedName names')) :=
    mapM_eq_some fun x hx => ht.formed.toRegular.qualifiedName?_eq (h x hx) names'
  cases problems with
  | cons problem rest => rfl
  | nil =>
      cases symbols with
      | nil => rfl
      | cons subject rest =>
          simp only [ruleOfConditions?, hnames]
          rfl

theorem Intact.checkConditions?_eq (names' : Interner) (location : Location) (kind : ContractKind)
    (ids : List QualifiedId) : t.checkConditions? names' location kind ids =
      some (t.checkConditions names' location kind ids) := by
  have hconditions : ids.mapM (t.condition? names') = some (ids.map (t.condition names')) :=
    mapM_eq_some fun id _ => ht.condition?_eq names' id
  rw [checkConditions?, hconditions]
  refine ht.ruleOfConditions?_eq names' location kind _ _ fun x hx => ?_
  obtain ⟨found, hmem, hx⟩ := List.mem_filterMap.1 hx
  obtain ⟨id, -, rfl⟩ := List.mem_map.1 hmem
  cases hfound : t.condition names' id with
  | error problem =>
      rw [hfound] at hx
      cases hx
  | ok symbol =>
      rw [hfound] at hx
      cases hx
      exact ht.holds_of_condition hfound

/-- A contract reads only what is there. -/
theorem Intact.checkContract?_eq (names' : Interner) (m : Module) (contract : ContractDecl) :
    t.checkContract? names' m contract = some (t.checkContract names' m contract) := by
  rw [checkContract?, checkContract]
  cases contract.item with
  | cardinality c sort =>
      simp only [ht.formed.toRegular.resolveOrProblem?_eq, Option.bind_eq_bind, Option.bind_some]
      cases hfound : t.resolveOrProblem names' sort typeDefining none with
      | error problem => rfl
      | ok symbol =>
          have hsymbol := ht.formed.toRegular.holds_of_resolveOrProblem hfound
          exact ht.checkCardinality?_eq hsymbol names' _ _ c
  | holds ids => exact ht.checkConditions?_eq names' _ _ ids

end

end Table

namespace Draft

/-! ## The guarded check -/

def checkContract? (m : Module) (contract : ContractDecl) : GuardedM Unit := do
  tick
  modifyGet? fun d => do
    let outcome ← d.table.checkContract? d.names m contract
    let table := d.table.reportAll outcome.reports
    return ((), { d with table := { table with rules := table.rules ++ outcome.rules } })

def judge? (m : Module) : GuardedM Unit := do
  let productive ← checkProductivity?
  sizeData? productive
  m.contracts.forM (checkContract? m)

def checkPasses? (library : Library) (m : Module) : GuardedM Unit := do
  m.references.forM (importReference? library m)
  declare? m
  judge? m

variable {tables : List Table} {library : Library} {m : Module} {origin : Table} {base d : Draft}

theorem agrees_checkContract (m : Module) (contract : ContractDecl) :
    Agrees Intact (checkContract? m contract) (checkContract m contract) := by
  refine agrees_lift_bind (ends_tick fun d clock hd => hd) fun _ => ?_
  refine agrees_modifyGet fun d hd => ?_
  rw [Table.Intact.checkContract?_eq hd]
  rfl

/-- The passes after the declarations read and write only what is there. -/
theorem agrees_judge (h : Declared m origin base) (hunsized : base.Unsized) :
    Agrees (· = base) (judge? m) (judge m) := by
  have hends := (safe_checkProductivity h.intact).ends.imp
    (fun d hd => (⟨congrArg names hd, congrArg table hd⟩ :
      d.names = base.names ∧ d.table = base.table)) fun _ _ hd => hd
  refine Agrees.bind (P := (· = base)) (agrees_checkProductivity.imp ?_) hends fun productive => ?_
  · rintro _ rfl
    exact h.intact
  rintro d ⟨rfl, hnames, htable⟩
  obtain ⟨hid, hnamespaces, hsymbols⟩ := base.table.reportAll_eq base.unproductiveReports
  rw [← htable] at hid hnamespaces hsymbols
  obtain ⟨hdeclared, hunsized'⟩ := h.reported hunsized hnames htable
  rw [← (Table.SizesWritten.of_eq hid hnamespaces hsymbols).productiveData]
  refine (agrees_sizeData hdeclared hunsized').bind (safe_sizeData hdeclared hunsized').ends
    (fun _ => ?_) d rfl
  exact agrees_forM (motive := fun _ => Sized d) fun _ contract _ _ =>
    ⟨(agrees_checkContract m contract).imp fun d' hd' => hd'.intact,
      (safe_checkContract m contract).ends⟩

/-- All passes over a module read and write only what is there. -/
theorem agrees_checkPasses (hlibrary : ∀ entry ∈ library.tables, entry.2 ∈ tables) (m : Module) :
    Agrees (Collected tables) (checkPasses? library m) (checkPasses library m) := by
  rw [checkPasses_eq]
  refine (agrees_imports hlibrary m m.references).bind (safe_imports hlibrary m m.references).ends
    fun _ => ?_
  intro d hd
  refine Agrees.bind (P := (· = d)) ?_ (hd.safe_declare m).ends (fun _ => ?_) d rfl
  · have hformed : ImportsFormed d.table := by
      intro x constant hkind hvalue hnone
      cases (hd.constants hkind hvalue).symm.trans hnone
    refine (agrees_declare m hformed).imp ?_
    rintro _ rfl
    exact enrolled_start hd.intact hd.settled
  · exact fun d' hd' => agrees_judge hd'.1 hd'.2 d' rfl

end Draft

/-- Checks a module, unless something is missing on the way. -/
def checkModule? (names : Interner) (id : TableId) (library : Library) (config : CheckConfig)
    (m : Module) : Option (Interner × Except Fault CheckOutput) := do
  let (names, table) ← Table.create? names id m.name m.kind m.file
  let clock : Clock := { batch := config.batch, cancelledBy := config.cancelledBy }
  match Draft.checkPasses? library m { names, table, clock } with
  | .ok _ d => return (d.names, d.table.output config.errorLimit false)
  | .error (.abort .cancelled) d => return (d.names, d.table.output config.errorLimit true)
  | .error (.abort (.fault fault)) d => return (d.names, .error fault)
  | .error .missing _ => none

section

variable {names : Interner} {tables : List Table} {library : Library}

/-- Nothing is missing when a module is checked against intact tables. -/
theorem checkModule?_eq (hnames : names.Proper) (harchive : Table.Archive names tables)
    (hintact : ∀ t ∈ tables, t.isValid = true → t.Intact names)
    (held : ∀ entry ∈ library.tables, entry.2 ∈ tables) (id : TableId) (config : CheckConfig)
    (m : Module) : checkModule? names id library config m =
      some (checkModule names id library config m) := by
  have hagrees := Draft.agrees_checkPasses held m (Draft.initial names id config m)
    (Draft.collected_initial hnames harchive hintact id config m)
  rw [checkModule?, Table.create?_eq, checkModule_eq]
  change (match Draft.checkPasses? library m (Draft.initial names id config m) with
    | .ok _ d => _
    | .error (.abort .cancelled) d => _
    | .error (.abort (.fault fault)) d => _
    | .error .missing _ => _) = _
  rw [hagrees]
  cases hrun : Draft.checkPasses library m (Draft.initial names id config m) with
  | ok _ d => rw [Draft.lift_of_ok hrun]; rfl
  | error abort d =>
      rw [Draft.lift_of_error hrun]
      cases abort <;> rfl

/-- Checking a module never breaks down: whatever the module, its errors and the moment at which the
check is cancelled, a table is handed out, and nothing in it dangles.  Nothing is missing on the
way. -/
theorem checkModule_total (h : Session names tables)
    (held : ∀ entry ∈ library.tables, entry.2 ∈ tables) (id : TableId) (config : CheckConfig)
    (m : Module) : ∃ names' out, checkModule names id library config m = (names', .ok out) ∧
      out.table.Intact names' ∧
      checkModule? names id library config m = some (names', .ok out) := by
  have hintact : ∀ t ∈ tables, t.isValid = true → t.Intact names := fun t ht _ => h.intact t ht
  obtain ⟨names', out, hchecked, hout⟩ :=
    exists_checkModule h.archive.1 h.archive.2 hintact held id config m
  refine ⟨names', out, hchecked, hout, ?_⟩
  rw [checkModule?_eq h.archive.1 h.archive.2 hintact held id config m, hchecked]

end

/-! ## A name that is taken -/

namespace Clash

theorem checkModule_total_importer :
    ∃ names' out, checkModule session.1 ⟨2⟩ library {} importer = (names', .ok out) ∧
      out.table.Intact names' ∧
      checkModule? session.1 ⟨2⟩ library {} importer = some (names', .ok out) :=
  checkModule_total (session_checkAll _ modules) (fun _ => Library.mem_of) ⟨2⟩ {} importer

end Clash

end ManySorted
