import ManySorted.Draft
import ManySorted.Syntax.Node

/-!
# Registering declarations

The declarations of a module are registered before any of them is resolved, so that they may refer
to each other in any order: the convenience unions, types with their companions, constants,
parameters of a transform, and the constants that enumerations introduce.
-/

namespace ManySorted

/-- A registered type declaration. -/
structure Declaration where
  decl : TypeDecl
  symbol : SymbolId
deriving DecidableEq, Repr

/-- A registered value parameter of a transform. -/
structure Parameter where
  name : Name
  type : List TypeTerm
  symbol : SymbolId
deriving DecidableEq, Repr

/-- What a module declares, once registered. -/
structure Declarations where
  types : List Declaration
  params : List Parameter
deriving DecidableEq, Repr

namespace Draft

/-- Registers the convenience unions in the root. -/
def registerConveniences (m : Module) : DraftM (List (Convenience × SymbolId)) :=
  Convenience.all.filterMapM fun convenience => do
    let name ← intern convenience.name
    match ← register .root name 0 (m.locate m.span) (.union (some convenience)) with
    | .ok id => return some (convenience, id)
    | .error _ => return none

/-- Registers the symbol of a type declaration. -/
def registerBody (decl : TypeDecl) (location : Location) : DraftM (Except SymbolId SymbolId) :=
  let fields := decl.body.fields
  let registerShape (shape : DataShape) :=
    registerData .root decl.name fields.length location shape (fields.map Field.label)
      (fields.map Field.any)
  match decl.body with
  | .union _ => register .root decl.name 0 location (.union none)
  | .constructor isNew _ => registerShape (.constructor isNew)
  | .map kind isPartial domain _ => registerShape (.map kind isPartial domain.length)

/-- Runs `registration` if `name` is legal, and reports a name that is illegal or taken. -/
def registerNamed (location : Location) (name : Name) (usage : String)
    (registration : DraftM (Except SymbolId SymbolId)) : DraftM (Option SymbolId) := do
  if ← checkId location name usage then
    match ← registration with
    | .ok id => return some id
    | .error previous =>
        reportDuplicate location name previous
        return none
  else return none

def registerType (m : Module) (decl : TypeDecl) : DraftM (Option Declaration) := do
  tick
  let location := m.locate decl.span
  let symbol ← registerNamed location decl.name "a type name" (registerBody decl location)
  return symbol.map ({ decl, symbol := · })

def registerConstant (m : Module) (constant : ConstantDecl) : DraftM Unit := do
  tick
  let location := m.locate constant.span
  let kind : ConstantKind :=
    match constant.kind with
    | .derived => .derived
    | .symbolic => .symbolic
  discard <| registerNamed location constant.name "a constant"
    (register .root constant.name 0 location (.userConstant kind))

/-- Registers a value parameter; model parameters are imported instead. -/
def registerParam (m : Module) : Param → DraftM (Option Parameter)
  | .model _ => return none
  | .value name type span => do
      let location := m.locate span
      let symbol ← registerNamed location name "a parameter"
        (register .root name 0 location (.userConstant .parameter))
      return symbol.map ({ name, type, symbol := · })

/-- Declares the constant of an enumeration, if it is unqualified and does not resolve. -/
def registerEnumConstant (m : Module) (id : QualifiedId) : DraftM Unit := do
  if !id.isQualified && (← getTable).resolveId id Table.anySymbol == .notFound then
    let location := m.locate id.span
    if ← checkId location id.last "an enumeration constant" then
      discard <| register .root id.last 0 location (.userConstant .enumerated)

def addLiteral (literal : Literal) : DraftM Unit :=
  modifyTable fun t => { t with literals := t.literals.insert literal }

/-- Declares the constant of an enumeration element, or notes its literals. -/
def registerElement (m : Module) (element : EnumElement) : DraftM Unit := do
  tick
  match element with
  | .constant id => registerEnumConstant m id
  | .literal literal _ => addLiteral literal
  | .range low high _ =>
      addLiteral (.integer low)
      addLiteral (.integer high)

end Draft

namespace Table

/-- The sorts registered so far. -/
def allSorts (t : Table) : AcceptedValues :=
  t.symbols.foldl (fun v s => if s.kind matches .userSort .. then v.addSort s.id else v) ∅

/-- The constants registered so far that are values: not the derived ones, nor parameters. -/
def allConstants (t : Table) : AcceptedValues :=
  t.symbols.foldl
    (fun v s =>
      match s.kind with
      | .userConstant .enumerated | .userConstant .symbolic | .userConstant (.type _) =>
          v.addConstant s.id
      | _ => v)
    ∅

/-- What a convenience union accepts. -/
def convenienceValues (t : Table) : Convenience → AcceptedValues
  | .any => (t.allSorts.union t.allConstants).addBase .full
  | .data => t.allSorts
  | .constant => t.allConstants

end Table

namespace Draft

/-- Writes the canonical forms of the convenience unions. -/
def writeConveniences (conveniences : List (Convenience × SymbolId)) : DraftM Unit := do
  let t ← getTable
  conveniences.forM fun (convenience, symbol) =>
    tryModifyTable (·.setCanonical symbol ⟨[t.convenienceValues convenience]⟩)

/-- Registers all that a module declares. -/
def registerDeclarations (m : Module) : DraftM Declarations := do
  let conveniences ← registerConveniences m
  let types ← m.types.filterMapM (registerType m)
  m.constants.forM (registerConstant m)
  let params ← if m.kind = .transform then m.params.filterMapM (registerParam m) else pure []
  (Node.module m).enumElements.forM (registerElement m)
  writeConveniences conveniences
  return { types, params }

end Draft

end ManySorted
