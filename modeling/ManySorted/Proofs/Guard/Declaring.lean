import ManySorted.Proofs.Guard.Table
import ManySorted.Proofs.Declaration.Failing

/-!
# Guarded registering and resolving

Registering reads the symbol that has a name already, and resolving reads what the names of a
declaration stand for; then failures are marked and spread.  All of this is guarded here.

## Strategy

* What a name stands for is there (`Table.Regular.holds_of_resolveOrProblem`), and so is every
  symbol that a resolved position refers to (`Scope.holds_of_mem_refs`).
* Declarations are registered before they are resolved, and what is there stays there when failures
  are marked (`Draft.Sifting.holds`).
* So a pass agrees with its guarded counterpart wherever nothing dangles and its declaration is
  there.
-/

namespace ManySorted

/-! ## Resolving positions -/

namespace Scope

def memberOf? (scope : Scope) (symbol : SymbolId) : Option Member := do
  match ← scope.table.kindOf? symbol with
  | .baseSort base => return .values ((∅ : AcceptedValues).addBase (.singleton base))
  | .union _ => return .union symbol
  | .data _ info => return .values ((∅ : AcceptedValues).addSort info.sort)
  | _ => return .values ∅

def resolveType? (scope : Scope) (id : QualifiedId) : Option Position := do
  match ← scope.table.resolveOrProblem? scope.names id Table.typeDefining (some "a type") with
  | .ok symbol => return { members := [← scope.memberOf? symbol], refs := [symbol] }
  | .error problem => return { problems := [⟨⟨scope.file, id.span⟩, problem⟩] }

/-- Only constants name symbols. -/
def readElement? (scope : Scope) (r : Reading) : EnumElement → Option Reading
  | .constant id => do
      let location : Location := ⟨scope.file, id.span⟩
      match ← scope.table.resolveOrProblem? scope.names id Table.anySymbol none with
      | .error problem => return r.fail location problem
      | .ok symbol =>
          match ← scope.table.kindOf? symbol with
          | .userConstant _ | .baseConstant _ =>
              return { r with values := r.values.addConstant symbol, refs := r.refs ++ [symbol] }
          | _ =>
              return r.fail location
                (.badId (scope.names.join id.segments) "an enumeration constant")
  | element => some (scope.readElement r element)

def resolveTerm? (scope : Scope) : TypeTerm → Option Position
  | .named id => scope.resolveType? id
  | .enumeration elements _ => do
      let r ← elements.foldlM scope.readElement? {}
      return { members := [.values r.values], refs := r.refs, problems := r.problems }

def resolvePosition? (scope : Scope) (terms : List TypeTerm) : Option Position :=
  terms.foldlM (fun p term => return p.append (← scope.resolveTerm? term)) ∅

section

variable {names : Interner} {scope : Scope} (h : scope.table.Regular names)
include h

theorem resolveType?_eq (id : QualifiedId) :
    scope.resolveType? id = some (scope.resolveType id) := by
  rw [resolveType?, resolveType, h.resolveOrProblem?_eq]
  cases hresolve : scope.table.resolveOrProblem scope.names id Table.typeDefining (some "a type")
    with
  | error problem => rfl
  | ok x =>
      have hx := h.holds_of_resolveOrProblem hresolve
      have hmember : scope.memberOf? x = some (scope.memberOf x) := by
        rw [memberOf?, memberOf, Table.kindOf?_eq hx]
        cases scope.table.kindOf x <;> rfl
      simp [hmember]

theorem readElement?_eq (r : Reading) (element : EnumElement) :
    scope.readElement? r element = some (scope.readElement r element) := by
  cases element with
  | literal literal span => rfl
  | range low high span => rfl
  | constant id =>
      rw [readElement?, readElement, h.resolveOrProblem?_eq]
      cases hresolve : scope.table.resolveOrProblem scope.names id Table.anySymbol none with
      | error problem => rfl
      | ok x =>
          have hx := h.holds_of_resolveOrProblem hresolve
          simp only [Option.bind_eq_bind, Option.bind_some, Table.kindOf?_eq hx]
          cases scope.table.kindOf x <;> rfl

theorem resolveTerm?_eq (term : TypeTerm) :
    scope.resolveTerm? term = some (scope.resolveTerm term) := by
  cases term with
  | named id => exact resolveType?_eq h id
  | enumeration elements span =>
      have hread : elements.foldlM scope.readElement? {} =
          some (elements.foldl scope.readElement {}) :=
        (foldlM_eq_some (motive := fun _ => True) trivial fun r element _ _ =>
          ⟨readElement?_eq h r element, trivial⟩).1
      simp [resolveTerm?, resolveTerm, hread]

theorem resolvePosition?_eq (terms : List TypeTerm) :
    scope.resolvePosition? terms = some (scope.resolvePosition terms) :=
  (foldlM_eq_some (motive := fun _ => True) trivial fun p term _ _ =>
    ⟨by rw [resolveTerm?_eq h]; rfl, trivial⟩).1

/-! ### What a position refers to is there -/

theorem holds_of_mem_readElement {r : Reading} (hr : ∀ x ∈ r.refs, scope.table.Holds x)
    (element : EnumElement) : ∀ x ∈ (scope.readElement r element).refs, scope.table.Holds x := by
  cases element with
  | literal literal span => cases literal <;> exact hr
  | range low high span =>
      rw [readElement]
      split <;> exact hr
  | constant id =>
      simp only [readElement]
      cases hresolve : scope.table.resolveOrProblem scope.names id Table.anySymbol none with
      | error problem => exact hr
      | ok x =>
          have hx := h.holds_of_resolveOrProblem hresolve
          have hall : ∀ y ∈ r.refs ++ [x], scope.table.Holds y :=
            List.forall_mem_append.2 ⟨hr, List.forall_mem_singleton.2 hx⟩
          dsimp only
          split
          · exact hall
          · exact hall
          · exact hr

theorem holds_of_mem_resolveTerm (term : TypeTerm) :
    ∀ x ∈ (scope.resolveTerm term).refs, scope.table.Holds x := by
  cases term with
  | named id =>
      rw [resolveTerm, resolveType]
      cases hresolve : scope.table.resolveOrProblem scope.names id Table.typeDefining
        (some "a type") with
      | error problem => exact fun x hx => absurd hx List.not_mem_nil
      | ok x => exact List.forall_mem_singleton.2 (h.holds_of_resolveOrProblem hresolve)
  | enumeration elements span =>
      have hfold : ∀ (elements : List EnumElement) (r : Reading),
          (∀ x ∈ r.refs, scope.table.Holds x) →
          ∀ x ∈ (elements.foldl scope.readElement r).refs, scope.table.Holds x := by
        intro elements
        induction elements with
        | nil => exact fun r hr => hr
        | cons element rest ih => exact fun r hr => ih _ (holds_of_mem_readElement h hr element)
      exact hfold elements {} fun x hx => absurd hx List.not_mem_nil

theorem holds_of_mem_refs (terms : List TypeTerm) :
    ∀ x ∈ (scope.resolvePosition terms).refs, scope.table.Holds x := by
  have hfold : ∀ (terms : List TypeTerm) (p : Position), (∀ x ∈ p.refs, scope.table.Holds x) →
      ∀ x ∈ (terms.foldl (fun p term => p.append (scope.resolveTerm term)) p).refs,
        scope.table.Holds x := by
    intro terms
    induction terms with
    | nil => exact fun p hp => hp
    | cons term rest ih =>
        exact fun p hp => ih _ (List.forall_mem_append.2 ⟨hp, holds_of_mem_resolveTerm h term⟩)
  exact hfold terms ∅ fun x hx => absurd hx List.not_mem_nil

end

end Scope

/-! ## What a declaration speaks of -/

/-- What the position refers to and the unions among its members are there. -/
structure Position.Held (t : Table) (p : Position) : Prop where
  refs : ∀ x ∈ p.refs, t.Holds x
  unions : ∀ u, .union u ∈ p.members → t.Holds u

/-- The declaration and what its positions speak of are there. -/
structure ResolvedType.Held (t : Table) (d : ResolvedType) : Prop where
  symbol : t.Holds d.symbol
  positions : ∀ p ∈ d.positions, p.Held t

structure ResolvedParam.Held (t : Table) (p : ResolvedParam) : Prop where
  symbol : t.Holds p.symbol
  type : ∀ position, p.type = some position → position.Held t

section

variable {t t' : Table}

theorem Position.Held.mono {p : Position} (h : p.Held t) (ht : ∀ x, t.Holds x → t'.Holds x) :
    p.Held t' where
  refs x hx := ht x (h.refs x hx)
  unions u hu := ht u (h.unions u hu)

theorem ResolvedType.Held.mono {d : ResolvedType} (h : d.Held t)
    (ht : ∀ x, t.Holds x → t'.Holds x) : d.Held t' where
  symbol := ht _ h.symbol
  positions p hp := (h.positions p hp).mono ht

theorem ResolvedParam.Held.mono {p : ResolvedParam} (h : p.Held t)
    (ht : ∀ x, t.Holds x → t'.Holds x) : p.Held t' where
  symbol := ht _ h.symbol
  type position hposition := (h.type position hposition).mono ht

theorem ResolvedType.Held.refs {d : ResolvedType} (h : d.Held t) : ∀ x ∈ d.refs, t.Holds x := by
  intro x hx
  obtain ⟨p, hp, hx⟩ := List.mem_flatMap.1 hx
  exact (h.positions p hp).refs x hx

end

namespace Scope

variable {names : Interner} {scope : Scope}

/-- A union that is a member is referred to. -/
theorem mem_refs_of_mem_members (scope : Scope) (terms : List TypeTerm) :
    ∀ u, .union u ∈ (scope.resolvePosition terms).members →
      u ∈ (scope.resolvePosition terms).refs := by
  refine List.foldlRecOn (motive := fun p : Position => ∀ u, .union u ∈ p.members → u ∈ p.refs)
    terms _ ?_ fun p hp term _ u hu => ?_
  · intro u hu
    exact absurd hu List.not_mem_nil
  rcases List.mem_append.1 hu with hu | hu
  · exact List.mem_append_left _ (hp u hu)
  refine List.mem_append_right _ ?_
  cases term with
  | enumeration elements span => cases List.mem_singleton.1 hu
  | named id =>
      rw [resolveTerm, resolveType] at hu ⊢
      split at hu
      · next x _ =>
          have hmember := List.mem_singleton.1 hu
          unfold memberOf at hmember
          split at hmember <;> cases hmember
          exact List.mem_cons_self
      · cases hu

theorem held_resolvePosition (h : scope.table.Regular names) (terms : List TypeTerm) :
    (scope.resolvePosition terms).Held scope.table where
  refs := holds_of_mem_refs h terms
  unions u hu := holds_of_mem_refs h terms u (scope.mem_refs_of_mem_members terms u hu)

end Scope

def Table.markFamilyFailed? (t : Table) (symbol : SymbolId) : Option Table := do
  let t ← t.markFailed? symbol
  match (← t.kindOf? symbol).info? with
  | some info => t.markFailed? info.sort
  | none => return t

theorem Table.Families.markFamilyFailed?_eq {names : Interner} {t : Table} {x : SymbolId}
    (ht : t.Families names) (hx : t.Holds x) :
    t.markFamilyFailed? x = some (t.markFamilyFailed x) := by
  have hx' : (t.markFailed x).Holds x := Table.holds_updateSymbol.2 hx
  rw [markFamilyFailed?, markFamilyFailed, markFailed?_eq hx]
  simp only [Option.bind_eq_bind, Option.bind_some, kindOf?_eq hx']
  cases hinfo : ((t.markFailed x).kindOf x).info? with
  | none => rfl
  | some info =>
      rw [kindOf_markFailed] at hinfo
      cases hkind : t.kindOf x with
      | data shape info' =>
          rw [hkind] at hinfo
          cases hinfo
          exact markFailed?_eq (Table.holds_updateSymbol.2 (ht.data hkind).holds_sort)
      | _ =>
          rw [hkind] at hinfo
          cases hinfo

namespace Draft

/-! ## Registering -/

def register? (home : NamespaceId) (name : Name) (arity : Nat) (location : Location)
    (kind : SymbolKind) : GuardedM (Except SymbolId SymbolId) :=
  modifyGet? fun d => do
    match ← d.table.register? home name arity location kind with
    | .ok (id, table) => return (.ok id, { d with table })
    | .error existing => return (.error existing, d)

def registerData? (home : NamespaceId) (name : Name) (arity : Nat) (location : Location)
    (shape : DataShape) (labels : List (Option Name)) (any : List Bool) :
    GuardedM (Except SymbolId SymbolId) :=
  modifyGet? fun d => do
    match ← d.table.registerData? d.names home name arity location shape labels any with
    | .ok (id, names, table) => return (.ok id, { d with names, table })
    | .error existing => return (.error existing, d)

def reportDuplicate? (location : Location) (name : Name) (previous : SymbolId) : GuardedM Unit :=
  modifyGet? fun d => do
    let table ← d.table.reportDuplicate? d.names location name previous
    return ((), { d with table })

def registerConveniences? (m : Module) : GuardedM (List (Convenience × SymbolId)) :=
  Convenience.all.filterMapM fun convenience => do
    let name ← intern convenience.name
    match ← register? .root name 0 (m.locate m.span) (.union (some convenience)) with
    | .ok id => return some (convenience, id)
    | .error _ => return none

def registerBody? (decl : TypeDecl) (location : Location) :
    GuardedM (Except SymbolId SymbolId) :=
  let fields := decl.body.fields
  let registerShape (shape : DataShape) :=
    registerData? .root decl.name fields.length location shape (fields.map Field.label)
      (fields.map Field.any)
  match decl.body with
  | .union _ => register? .root decl.name 0 location (.union none)
  | .constructor isNew _ => registerShape (.constructor isNew)
  | .map kind isPartial domain _ => registerShape (.map kind isPartial domain.length)

def registerNamed? (location : Location) (name : Name) (usage : String)
    (registration? : GuardedM (Except SymbolId SymbolId)) : GuardedM (Option SymbolId) := do
  if ← checkId location name usage then
    match ← registration? with
    | .ok id => return some id
    | .error previous =>
        reportDuplicate? location name previous
        return none
  else return none

def registerType? (m : Module) (decl : TypeDecl) : GuardedM (Option Declaration) := do
  tick
  let location := m.locate decl.span
  let symbol ← registerNamed? location decl.name "a type name" (registerBody? decl location)
  return symbol.map ({ decl, symbol := · })

def registerConstant? (m : Module) (constant : ConstantDecl) : GuardedM Unit := do
  tick
  let location := m.locate constant.span
  let kind : ConstantKind :=
    match constant.kind with
    | .derived => .derived
    | .symbolic => .symbolic
  discard <| registerNamed? location constant.name "a constant"
    (register? .root constant.name 0 location (.userConstant kind))

def registerParam? (m : Module) : Param → GuardedM (Option Parameter)
  | .model _ => return none
  | .value name type span => do
      let location := m.locate span
      let symbol ← registerNamed? location name "a parameter"
        (register? .root name 0 location (.userConstant .parameter))
      return symbol.map ({ name, type, symbol := · })

def registerEnumConstant? (m : Module) (id : QualifiedId) : GuardedM Unit := do
  let t ← getTable
  let resolution ← t.resolveId? id Table.anySymbol
  if !id.isQualified && resolution == .notFound then
    let location := m.locate id.span
    if ← checkId location id.last "an enumeration constant" then
      discard <| register? .root id.last 0 location (.userConstant .enumerated)

/-- Literals are noted without any access. -/
def registerElement? (m : Module) : EnumElement → GuardedM Unit
  | .constant id => do
      tick
      registerEnumConstant? m id
  | element => registerElement m element

def writeConveniences? (conveniences : List (Convenience × SymbolId)) : GuardedM Unit := do
  let t ← getTable
  conveniences.forM fun (convenience, symbol) =>
    tryModifyTable? (·.setCanonical? symbol ⟨[t.convenienceValues convenience]⟩)

def registerDeclarations? (m : Module) : GuardedM Declarations := do
  let conveniences ← registerConveniences? m
  let types ← m.types.filterMapM (registerType? m)
  m.constants.forM (registerConstant? m)
  let params ← if m.kind = .transform then m.params.filterMapM (registerParam? m) else pure []
  (Node.module m).enumElements.forM (registerElement? m)
  writeConveniences? conveniences
  return { types, params }

section

variable {P : Draft → Prop}
  {home : NamespaceId} {name : Name} {arity : Nat} {location : Location} {kind : SymbolKind}
  {shape : DataShape} {labels : List (Option Name)} {any : List Bool} {usage : String}
  {m : Module} {start : Table} {conveniences : List (Convenience × SymbolId)}
  {types : List Declaration} {params : List Parameter}

theorem intact_reportAll {d : Draft} (hd : d.Intact) (rs : List Report) :
    Intact { d with table := d.table.reportAll rs } :=
  Table.Intact.marks hd (marks_reportAll d.table rs)

theorem agrees_register (hhome : ∀ d, P d → d.table.HasNamespace home) :
    Agrees P (register? home name arity location kind) (register home name arity location kind) :=
  agrees_modifyGet fun d hd => by
    rw [Table.register?_eq (hhome d hd)]
    generalize d.table.register home name arity location kind = r
    cases r <;> rfl

theorem agrees_registerData (hhome : ∀ d, P d → d.table.HasNamespace home)
    (hname : ∀ d, P d → d.table.Regular d.names ∧ d.names.Fitting name) :
    Agrees P (registerData? home name arity location shape labels any)
      (registerData home name arity location shape labels any) :=
  agrees_modifyGet fun d hd => by
    obtain ⟨hregular, hfitting⟩ := hname d hd
    rw [hregular.registerData?_eq (hhome d hd) hfitting.knows hfitting.named hfitting.plain]
    generalize d.table.registerData d.names home name arity location shape labels any = r
    cases r <;> rfl

theorem agrees_reportDuplicate {previous : SymbolId} (h : ∀ d, P d → d.table.Holds previous) :
    Agrees P (reportDuplicate? location name previous) (reportDuplicate location name previous) :=
  agrees_modifyGet fun d hd => by
    rw [Table.reportDuplicate?_eq (h d hd)]
    rfl

/-- A registration that fails comes upon a symbol that is there. -/
def NamesHeld (r : Except SymbolId SymbolId) (d : Draft) : Prop :=
  ∀ previous, r = .error previous → d.table.Holds previous

theorem ends_register (hP : ∀ d, P d → d.Intact) :
    Ends P (register home name arity location kind) NamesHeld := by
  refine ends_modifyGet fun d hd => ?_
  rcases d.table.register_cases home name arity location kind with
    ⟨-, hregister⟩ | ⟨existing, hfound, hregister⟩
  · rw [hregister]
    exact fun previous hprevious => nomatch hprevious
  · rw [hregister]
    rintro previous ⟨⟩
    exact ((hP d hd).formed.arena.entry hfound).1

theorem ends_registerData
    (hname : ∀ d, P d → d.table.Regular d.names ∧ d.names.Fitting name) :
    Ends P (registerData home name arity location shape labels any) NamesHeld := by
  refine ends_modifyGet fun d hd => ?_
  obtain ⟨hregular, hfitting⟩ := hname d hd
  rcases hregular.registerData_cases hfitting.knows hfitting.named hfitting.plain home arity
    location shape labels any with
    ⟨existing, hfound, hregister⟩ | ⟨-, hashed, names', hregister, -⟩
  · rw [hregister]
    rintro previous ⟨⟩
    exact (hregular.arena.entry hfound).1
  · rw [hregister]
    exact fun previous hprevious => nomatch hprevious

/-- A name is registered if it is legal, and what has it already is reported. -/
theorem agrees_registerNamed {registration? : GuardedM (Except SymbolId SymbolId)}
    {registration : DraftM (Except SymbolId SymbolId)}
    (hagrees : Agrees (fun d => P d ∧ isLegalId (d.names.text name) = true) registration?
      registration)
    (hends : Ends (fun d => P d ∧ isLegalId (d.names.text name) = true) registration NamesHeld) :
    Agrees P (registerNamed? location name usage registration?)
      (registerNamed location name usage registration) := by
  have hlegal : Ends P (checkId location name usage) fun legal d =>
      legal = true → P d ∧ isLegalId (d.names.text name) = true :=
    (safe_checkId (C := fun _ => True) (fun d hd hname _ => ⟨hd, hname⟩)
      fun d _ _ r h => absurd h Bool.false_ne_true).ends
  refine agrees_lift_bind hlegal fun legal => Agrees.ite (fun hlegal => ?_) fun _ =>
    agrees_pure _ _
  refine (hagrees.imp fun d hd => hd hlegal).bind
    (hends.imp (fun d hd => hd hlegal) fun _ _ hd => hd) fun r => ?_
  cases r with
  | ok id => exact agrees_pure _ _
  | error previous =>
      exact (agrees_reportDuplicate fun d hd => hd previous rfl).bind_pure _

theorem ends_tick_intact : Ends Intact tick fun _ => Intact := ends_tick fun _ _ hd => hd

theorem intact_fitting (d : Draft) (hd : d.Intact ∧ isLegalId (d.names.text name) = true) :
    d.table.Regular d.names ∧ d.names.Fitting name :=
  ⟨hd.1.formed.toRegular, hd.1.formed.proper.fitting_of_isLegalId hd.2⟩

theorem agrees_registerType (decl : TypeDecl) :
    Agrees Intact (registerType? m decl) (registerType m decl) := by
  refine agrees_lift_bind ends_tick_intact fun _ => ?_
  refine Agrees.bind_pure (agrees_registerNamed ?_ ?_) _
  · have hdata : ∀ shape, Agrees (fun d => d.Intact ∧ isLegalId (d.names.text decl.name) = true)
        (registerData? .root decl.name decl.body.fields.length (m.locate decl.span) shape
          (decl.body.fields.map Field.label) (decl.body.fields.map Field.any))
        (registerData .root decl.name decl.body.fields.length (m.locate decl.span) shape
          (decl.body.fields.map Field.label) (decl.body.fields.map Field.any)) :=
      fun shape => agrees_registerData (fun d hd => hd.1.formed.tree.root) intact_fitting
    obtain ⟨name, span, body⟩ := decl
    cases body with
    | union members => exact agrees_register fun d hd => hd.1.formed.tree.root
    | constructor isNew fields => exact hdata _
    | map kind isPartial domain codomain => exact hdata _
  · obtain ⟨name, span, body⟩ := decl
    cases body with
    | union members => exact ends_register fun d hd => hd.1
    | constructor isNew fields => exact ends_registerData intact_fitting
    | map kind isPartial domain codomain => exact ends_registerData intact_fitting

theorem agrees_registerConstant (constant : ConstantDecl) :
    Agrees Intact (registerConstant? m constant) (registerConstant m constant) := by
  refine agrees_lift_bind ends_tick_intact fun _ => ?_
  exact (agrees_registerNamed (agrees_register fun d hd => hd.1.formed.tree.root)
    (ends_register fun d hd => hd.1)).bind_pure _

theorem agrees_registerParam (param : Param) :
    Agrees Intact (registerParam? m param) (registerParam m param) := by
  cases param with
  | model reference => exact agrees_pure _ _
  | value name type span =>
      exact (agrees_registerNamed (agrees_register fun d hd => hd.1.formed.tree.root)
        (ends_register fun d hd => hd.1)).bind_pure _

theorem agrees_registerElement (element : EnumElement) :
    Agrees Intact (registerElement? m element) (registerElement m element) := by
  cases element with
  | literal literal span => exact agrees_lift _ _
  | range low high span => exact agrees_lift _ _
  | constant id =>
      refine agrees_lift_bind ends_tick_intact fun _ => ?_
      refine agrees_getTable_bind fun t => ?_
      refine agrees_read_bind (a := t.resolveId id Table.anySymbol) (fun d hd => ?_) ?_
      · rw [← hd.2]
        exact hd.1.formed.toRegular.resolveId?_eq id _
      · refine Agrees.ite (fun _ => ?_) fun _ => agrees_pure _ _
        refine agrees_lift_bind (Q := fun _ => Intact) ?_ fun legal => ?_
        · exact (safe_checkId (C := fun _ => True) (fun d hd _ => hd.1) fun d hd _ r =>
            intact_reportAll hd.1 [r]).ends
        · refine Agrees.ite (fun _ => ?_) fun _ => agrees_pure _ _
          exact (agrees_register fun d hd => hd.formed.tree.root).bind_pure _

/-- The forms of conveniences are written to symbols that are there. -/
theorem agrees_writeConveniences (hP : ∀ d, P d → ∀ c ∈ conveniences, d.table.Holds c.2) :
    Agrees P (writeConveniences? conveniences) (writeConveniences conveniences) := by
  refine agrees_getTable_bind fun t => Agrees.imp (agrees_forM
    (motive := fun _ d => ∀ c ∈ conveniences, d.table.Holds c.2) fun done c rest hall => ?_)
    fun d hd => hP d hd.1
  have hc : c ∈ conveniences := by
    rw [hall]
    exact List.mem_append_right _ List.mem_cons_self
  exact ⟨agrees_tryModifyTable fun d hd => Table.setCanonical?_eq (hd c hc) _,
    ends_tryModifyTable fun d table hd hset c' hc' =>
      Table.holds_of_setCanonical hset (hd c' hc')⟩

theorem agrees_registerConveniences (m : Module) :
    Agrees (fun d => d.table.HasNamespace .root) (registerConveniences? m)
      (registerConveniences m) := by
  refine agrees_filterMapM (motive := fun _ _ d => d.table.HasNamespace .root)
    fun _ _ c _ _ => ?_
  have hintern : Ends (fun d => d.table.HasNamespace .root) (intern c.name) fun _ d =>
      d.table.HasNamespace .root := ends_modifyGet fun d hd => hd
  have hregister : ∀ name, Ends (fun d => d.table.HasNamespace .root)
      (register .root name 0 (m.locate m.span) (.union (some c))) fun _ d =>
        d.table.HasNamespace .root := by
    refine fun name => ends_modifyGet fun d hd => ?_
    rcases d.table.register_cases .root name 0 (m.locate m.span) (.union (some c)) with
      ⟨-, hregister⟩ | ⟨existing, -, hregister⟩
    · rw [hregister]
      exact Table.hasNamespace_withSymbol.2 hd
    · rw [hregister]
      exact hd
  refine ⟨agrees_lift_bind hintern fun name => (agrees_register fun d hd => hd).bind
    (hregister name) fun r => ?_, hintern.bind fun name => (hregister name).bind fun r => ?_⟩
  · cases r <;> exact agrees_pure _ _
  · cases r <;> exact ends_pure fun _ hd => hd

/-- Registering reads and writes only what is there. -/
theorem agrees_registerDeclarations (m : Module) :
    Agrees (Enrolled start [] [] []) (registerDeclarations? m) (registerDeclarations m) := by
  refine ((agrees_registerConveniences m).imp fun d hd => hd.intact.formed.tree.root).bind
    (safe_registerConveniences m).ends fun conveniences => ?_
  refine Agrees.bind ?_ (safe_registerTypes m).ends fun types => ?_
  · refine (agrees_filterMapM (motive := TypesSeen start conveniences m)
      fun done types decl rest hall => ⟨(agrees_registerType decl).imp fun d hd => hd.1.intact,
        (safe_registerType hall).ends⟩).imp fun d hd => hd.typesSeen m
  refine Agrees.bind (P := TypesSeen start conveniences m m.types types) ?_
    ((safe_registerConstants m).ends.imp (fun d hd => hd.1.toEnrolled) fun _ _ hd => hd) fun _ => ?_
  · exact (agrees_forM (motive := fun _ => Enrolled start conveniences types [])
      fun _ constant _ _ => ⟨(agrees_registerConstant constant).imp fun d hd => hd.intact,
        (safe_registerConstant constant).ends⟩).imp fun d hd => hd.1.toEnrolled
  have hrest : ∀ params, Agrees (Enrolled start conveniences types params)
      (do
        (Node.module m).enumElements.forM (registerElement? m)
        writeConveniences? conveniences
        return (⟨types, params⟩ : Declarations))
      (do
        (Node.module m).enumElements.forM (registerElement m)
        writeConveniences conveniences
        return ⟨types, params⟩) := by
    intro params
    refine Agrees.bind ?_ (safe_registerElements _).ends fun _ => ?_
    · exact agrees_forM (motive := fun _ => Enrolled start conveniences types params)
        fun _ element _ _ => ⟨(agrees_registerElement element).imp fun d hd => hd.intact,
          (safe_registerElement element).ends⟩
    · refine (agrees_writeConveniences fun d hd c hc => ?_).bind_pure _
      exact (hd.convenience_union (List.mem_map_of_mem hc)).1.holds
  refine Agrees.ite (fun _ => Agrees.bind ?_ ((safe_registerParams m).ends.imp (fun _ hd => hd)
    fun _ _ hd => hd.1.toEnrolled) hrest) fun _ => hrest []
  exact (agrees_filterMapM (motive := ParamsSeen start conveniences types m)
    fun done params param rest hall => ⟨(agrees_registerParam param).imp fun d hd => hd.1.intact,
      (safe_registerParam hall).ends⟩).imp fun d hd => hd.paramsSeen m

end

/-! ## Resolving and spreading failures -/

def resolveType? (m : Module) (d : Declaration) : GuardedM ResolvedType := do
  tick
  let scope ← scopeOf m d.decl.name
  let positions ← (d.decl.body.positions.mapM scope.resolvePosition? : Option (List Position))
  modifyTable (·.reportAll (positions.flatMap Position.problems))
  if !positions.all Position.isOk then modifyTable? (·.markFamilyFailed? d.symbol)
  return { symbol := d.symbol, positions }

def resolveParam? (m : Module) (p : Parameter) : GuardedM ResolvedParam := do
  let scope ← scopeOf m p.name
  let position ← scope.resolvePosition? p.type
  modifyTable (·.reportAll position.problems)
  if position.isOk then return { symbol := p.symbol, type := some position }
  else
    modifyTable? (·.markFailed? p.symbol)
    return { symbol := p.symbol, type := none }

/-- Whether a declaration stands but refers to a failed symbol. -/
def isFailing? (t : Table) (d : ResolvedType) : Option Bool := do
  let s ← t.symbol? d.symbol
  let fallen ← d.refs.anyM fun r => return (← t.symbol? r).failed
  return !s.failed && fallen

def spreadFailuresOnce? (types : List ResolvedType) : GuardedM Bool := do
  let failing ← types.filterM fun d => do
    tick
    let t ← getTable
    isFailing? t d
  modifyTable? fun t => failing.foldlM (fun t d => t.markFamilyFailed? d.symbol) t
  return !failing.isEmpty

def spreadFailures? (types : List ResolvedType) : Nat → GuardedM Unit
  | 0 => return
  | rounds + 1 => do
      if ← spreadFailuresOnce? types then spreadFailures? types rounds

def spreadToParam? (p : ResolvedParam) : GuardedM ResolvedParam := do
  let t ← getTable
  match p.type with
  | some position =>
      if ← (position.refs.anyM fun r => return (← t.symbol? r).failed : Option Bool) then
        modifyTable? (·.markFailed? p.symbol)
        return { p with type := none }
      else return p
  | none => return p

section

variable {β : Type} {P : Draft → Prop} {m : Module} {origin : Table} {start d : Draft}
  {declarations : Declarations} {types : List ResolvedType}

theorem agrees_scopeOf_bind {owner : Name} {g? : Scope → GuardedM β} {g : Scope → DraftM β}
    (h : ∀ d, P d → Agrees (· = d) (g? (d.scope m owner)) (g (d.scope m owner))) :
    Agrees P (liftM (scopeOf m owner) >>= g?) (scopeOf m owner >>= g) :=
  fun d hd => h d hd d rfl

theorem holds_reportAll {t : Table} {x : SymbolId} (hx : t.Holds x) (rs : List Report) :
    (t.reportAll rs).Holds x := ((marks_reportAll t rs).toAlike.holds x).2 hx

theorem agrees_resolveType (b : Declaration) :
    Agrees (fun d => d.Intact ∧ d.table.Holds b.symbol) (resolveType? m b) (resolveType m b) := by
  refine agrees_lift_bind (ends_tick fun _ _ hd => hd) fun _ => agrees_scopeOf_bind fun d hd => ?_
  have hregular : (d.scope m b.decl.name).table.Regular d.names := hd.1.formed.toRegular
  have hpositions := mapM_eq_some (l := b.decl.body.positions) fun terms _ =>
    Scope.resolvePosition?_eq hregular terms
  refine agrees_read_bind (fun _ _ => hpositions) ?_
  refine agrees_lift_bind (Q := fun _ d => d.Intact ∧ d.table.Holds b.symbol)
    (ends_modifyTable ?_) fun _ => Agrees.ite (fun _ => ?_) fun _ => agrees_pure _ _
  · rintro _ rfl
    exact ⟨intact_reportAll hd.1 _, holds_reportAll hd.2 _⟩
  · exact (agrees_modifyTable fun d hd =>
      hd.1.formed.families.markFamilyFailed?_eq hd.2).bind_pure _

theorem agrees_resolveParam (p : Parameter) :
    Agrees (fun d => d.Intact ∧ d.table.Holds p.symbol) (resolveParam? m p)
      (resolveParam m p) := by
  refine agrees_scopeOf_bind fun d hd => ?_
  have hregular : (d.scope m p.name).table.Regular d.names := hd.1.formed.toRegular
  refine agrees_read_bind (fun _ _ => Scope.resolvePosition?_eq hregular p.type) ?_
  refine agrees_lift_bind (Q := fun _ d => d.table.Holds p.symbol) (ends_modifyTable ?_) fun _ =>
    Agrees.ite (fun _ => agrees_pure _ _) fun _ => ?_
  · rintro _ rfl
    exact holds_reportAll hd.2 _
  · exact (agrees_modifyTable fun d hd => Table.markFailed?_eq hd).bind_pure _

/-! ### What is resolved is there -/

/-- What a pass keeps is what resolved declarations speak of. -/
theorem Sifting.holds (h : Sifting start d) {x : SymbolId} (hx : start.table.Holds x) :
    d.table.Holds x := (h.marks.toAlike.holds x).2 hx

theorem Registered.held_types (h : Registered m origin declarations start) :
    ∀ r ∈ declarations.types.map (start.resolved m), r.Held start.table := by
  intro r hr
  obtain ⟨b, hb, rfl⟩ := List.mem_map.1 hr
  refine ⟨(h.listsTypes.mem_iff.1 (List.mem_map_of_mem hb)).1.holds, fun p hp => ?_⟩
  obtain ⟨terms, -, rfl⟩ := List.mem_map.1 hp
  have hregular : (start.scope m b.decl.name).table.Regular start.names :=
    h.intact.formed.toRegular
  exact Scope.held_resolvePosition hregular terms

theorem Registered.held_param (h : Registered m origin declarations start) {p : Parameter}
    (hp : p ∈ declarations.params) {r : ResolvedParam} (hsymbol : p.symbol = r.symbol)
    (htype : ∀ position, r.type = some position → position = start.resolvedParam m p) :
    r.Held start.table where
  symbol := hsymbol ▸ (h.listsParams.mem_iff.1 (List.mem_map_of_mem hp)).1.holds
  type position hposition := by
    rw [htype position hposition]
    have hregular : (start.scope m p.name).table.Regular start.names := h.intact.formed.toRegular
    exact Scope.held_resolvePosition hregular p.type

theorem Registered.held_params {params : List ResolvedParam}
    (h : Registered m origin declarations start)
    (hparams : ParamsExamined m start declarations.params params d) :
    ∀ r ∈ params, r.Held start.table := by
  intro r hr
  obtain ⟨p, hp, hsymbol, hcases⟩ := hparams.type r hr
  refine h.held_param hp hsymbol fun position hposition => ?_
  rcases hcases with ⟨hnone, -⟩ | ⟨hsome, -⟩
  · cases hposition.symm.trans hnone
  · exact Option.some.inj (hposition.symm.trans hsome)

theorem belong_resolved (m : Module) (declarations : Declarations) (start : Draft) :
    Belong declarations (declarations.types.map (start.resolved m)) := by
  intro r hr
  obtain ⟨b, hb, rfl⟩ := List.mem_map.1 hr
  exact ⟨b, hb, rfl⟩

/-! ### Rounds of failures -/

theorem isFailing?_eq {t : Table} {r : ResolvedType} (hr : r.Held t) : isFailing? t r =
    some (!(t.symbolAt r.symbol).failed && r.refs.any fun x => (t.symbolAt x).failed) := by
  have hrefs : r.refs.anyM (m := Option) (fun x => return (← t.symbol? x).failed) =
      some (r.refs.any fun x => (t.symbolAt x).failed) :=
    anyM_eq_some fun x hx => by
      rw [Table.symbol?_eq (hr.refs x hx)]
      rfl
  rw [isFailing?, Table.symbol?_eq hr.symbol, hrefs]
  rfl

theorem alike_markFamilyFailed (t : Table) (x : SymbolId) : t.Alike (t.markFamilyFailed x) := by
  have hmark : ∀ (t : Table) (x : SymbolId), t.Alike (t.markFailed x) := fun _ _ =>
    .updateSymbol (fun _ => rfl) fun _ => rfl
  unfold Table.markFamilyFailed
  dsimp only
  split
  · exact (hmark t x).trans (hmark _ _)
  · exact hmark t x

/-- One round marks declarations that are there. -/
theorem agrees_spreadFailuresOnce (hstart : start.Intact)
    (htypes : ∀ r ∈ types, r.Held start.table) :
    Agrees (Sifting start) (spreadFailuresOnce? types) (spreadFailuresOnce types) := by
  intro d₀ hd₀
  have hheld : ∀ r ∈ types, r.Held d₀.table := fun r hr =>
    (htypes r hr).mono fun _ => hd₀.holds
  have hfailing := safe_failing hstart hd₀ types
  refine Agrees.bind (P := fun d => d.names = d₀.names ∧ d.table = d₀.table)
    (agrees_filterM fun r hr => ⟨?_, ?_⟩) hfailing.ends (fun failing => ?_) d₀ ⟨rfl, rfl⟩
  · refine agrees_lift_bind (ends_tick fun _ _ hd => hd) fun _ => agrees_getTable_bind fun t => ?_
    rintro d ⟨⟨-, htable⟩, rfl⟩
    rw [htable, isFailing?_eq (hheld r hr)]
    rfl
  · exact (ends_tick fun _ _ hd => hd).bind fun _ => ends_getTable_bind fun t =>
      ends_pure fun d hd => hd.1
  · refine Agrees.bind_pure (agrees_modifyTable fun d hd => ?_) _
    obtain ⟨⟨-, htable⟩, rfl⟩ := hd
    rw [htable]
    have hregular := (hd₀.intact hstart).formed.toRegular
    refine (foldlM_eq_some (motive := d₀.table.Alike) (.refl _) fun t r hr ht => ⟨?_, ?_⟩).1
    · have hr := (hheld r (List.mem_filter.1 hr).1).symbol
      exact (ht.regular hregular).families.markFamilyFailed?_eq ((ht.holds _).2 hr)
    · exact ht.trans (alike_markFamilyFailed t r.symbol)

theorem agrees_spreadFailures (hstart : Registered m origin declarations start)
    (htypes : Belong declarations types) (hheld : ∀ r ∈ types, r.Held start.table)
    (rounds : Nat) :
    Agrees (Sifting start) (spreadFailures? types rounds) (spreadFailures types rounds) := by
  have hends : Ends (Sifting start) (spreadFailuresOnce types) fun _ => Sifting start :=
    fun d _ d' hd hrun => hd.trans
      ((safe_spreadFailuresOnce hstart htypes hd).ends d _ d' ⟨rfl, rfl⟩ hrun).1
  induction rounds with
  | zero => exact agrees_pure _ _
  | succ rounds ih =>
      exact (agrees_spreadFailuresOnce hstart.intact hheld).bind hends fun again =>
        Agrees.ite (fun _ => ih) fun _ => agrees_pure _ _

theorem agrees_spreadToParam (p : ResolvedParam) :
    Agrees (fun d => p.Held d.table) (spreadToParam? p) (spreadToParam p) := by
  refine agrees_getTable_bind fun t => ?_
  cases htype : p.type with
  | none => exact agrees_pure _ _
  | some position =>
      refine agrees_read_bind (a := position.refs.any fun x => (t.symbolAt x).failed)
        (fun d hd => ?_) (Agrees.ite (fun _ => ?_) fun _ => agrees_pure _ _)
      · obtain ⟨hheld, rfl⟩ := hd
        refine anyM_eq_some fun x hx => ?_
        rw [Table.symbol?_eq ((hheld.type position htype).refs x hx)]
        rfl
      · exact (agrees_modifyTable fun d hd => Table.markFailed?_eq hd.1.symbol).bind_pure _

/-- The failures spread to parameters that are there. -/
theorem agrees_spreadParams {resolved : List ResolvedParam}
    (hstart : Registered m origin declarations start) :
    Agrees (Spread m start declarations resolved [] []) (resolved.mapM spreadToParam?)
      (resolved.mapM spreadToParam) := by
  refine agrees_mapM (motive := Spread m start declarations resolved)
    fun done params r rest hall => ?_
  have hr : r ∈ resolved := by
    rw [hall]
    exact List.mem_append_right _ List.mem_cons_self
  refine ⟨(agrees_spreadToParam r).imp fun d hd => ?_, (safe_spreadToParam hstart hr).ends⟩
  exact (hstart.held_params hd.examined r hr).mono fun _ => hd.toSifting.holds

end

end Draft

end ManySorted
