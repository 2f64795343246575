import ManySorted.Declaration.Form

/-!
# Restrictions on declarations

Declarations whose forms are known are held to three restrictions: new data does not contain
derived data, field labels are no names of namespaces, and the parameters of a transform do not
accept new data of its outputs.
-/

namespace ManySorted

namespace Table

/-- The derived data symbol or derived constant that a symbol or sort stands for, if it does. -/
def derivedRef? (t : Table) (id : SymbolId) : Option SymbolId :=
  let data := (t.dataOf? id).getD id
  match t.kindOf data with
  | .data (.constructor false) _ | .userConstant .derived => some data
  | _ => none

/-- The derived symbols that a union accepts: the data first, then the constants. -/
def derivedMembers (t : Table) (u : SymbolId) : List SymbolId :=
  match (t.symbolAt u).accepted? 0 with
  | some values => (values.sorts.toList ++ values.constantSymbols).filterMap t.derivedRef?
  | none => []

/-- The derived symbols behind one reference of a declaration, with the union that they are reached
through. -/
def derivedBehind (t : Table) (ref : SymbolId) : List (SymbolId × Option SymbolId) :=
  match t.derivedRef? ref with
  | some arg => [(arg, none)]
  | none =>
      if (t.kindOf ref).isUnion then (t.derivedMembers ref).map (·, some ref)
      else []

/-- The reports about new data that takes derived data. -/
def newnessReports (t : Table) (names : Interner) (d : ResolvedType) : List Report :=
  let s := t.symbolAt d.symbol
  if s.failed || !s.kind.isNew then []
  else
    (d.refs.flatMap t.derivedBehind).map fun (arg, via) =>
      let symbol := t.qualifiedName names d.symbol
      let arg := t.qualifiedName names arg
      match via with
      | none => ⟨s.location, .argumentNewness symbol arg⟩
      | some u => ⟨s.location, .subArgumentNewness symbol arg (t.qualifiedName names u)⟩

/-- The reports about field labels that are names of namespaces. -/
def labelReports (t : Table) (names : Interner) (m : Module) : List Report :=
  let taken := t.namespaceNames
  m.declaredFields.filterMap fun (_, field) =>
    match field.label with
    | some label =>
        if taken.contains label then
          some ⟨m.locate field.span, .labelClash (names.text label)⟩
        else none
    | none => none

/-- The namespaces that renamed outputs of a transform are imported under. -/
def outputNamespaces (t : Table) (m : Module) : List NamespaceId :=
  m.outputs.filterMap fun reference =>
    reference.rename.bind (t.namespaceAt .root).child?

/-- The reports about a parameter that accepts new data of an output. -/
def parameterReports (t : Table) (names : Interner) (outputs : List NamespaceId)
    (param : SymbolId) : List Report :=
  match (t.symbolAt param).accepted? 0 with
  | none => []
  | some values =>
      (values.sorts.toList.filterMap t.dataOf?).filterMap fun data =>
        let s := t.symbolAt data
        if s.kind.isNew && outputs.any (t.isWithin s.home) then
          some ⟨(t.symbolAt param).location,
            .transformNewness (t.qualifiedName names param) (t.qualifiedName names data)⟩
        else none

/-- All reports about the restrictions on the declarations of a module. -/
def restrictionReports (t : Table) (names : Interner) (m : Module) (types : List ResolvedType)
    (params : List SymbolId) : List Report :=
  types.flatMap (t.newnessReports names)
    ++ t.labelReports names m
    ++ (if m.kind = .transform then
          params.flatMap (t.parameterReports names (t.outputNamespaces m))
        else [])

end Table

namespace Draft

/-- Registers, resolves and checks all that a module declares. -/
def declare (m : Module) : DraftM Unit := do
  let declarations ← registerDeclarations m
  let types ← declarations.types.mapM (resolveType m)
  let params ← declarations.params.mapM (resolveParam m)
  writeForms types params
  modify fun d =>
    { d with
      table := d.table.reportAll
        (d.table.restrictionReports d.names m types (params.map ResolvedParam.symbol)) }

end Draft

end ManySorted
