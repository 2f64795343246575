import ManySorted.Span

/-!
# Module syntax trees

A module is a domain, a model, a transform or a transform system.  It composes other modules, whose
checked tables are supplied apart from it, and declares types, constants and contracts.
-/

namespace ManySorted

/-- A possibly qualified identifier such as `Graph.V`. -/
structure QualifiedId where
  segments : List Name
  span : Span := {}
deriving DecidableEq, Repr, Inhabited

namespace QualifiedId

/-- The last segment, which names the symbol itself. -/
def last (id : QualifiedId) : Name := id.segments.getLast?.getD .empty

/-- All segments but the last, which name a path of namespaces. -/
def qualifier (id : QualifiedId) : List Name := id.segments.dropLast

def isQualified (id : QualifiedId) : Bool := 1 < id.segments.length

end QualifiedId

/-- What a module is. -/
inductive ModuleKind where
  | domain
  | model
  | transform
  | transformSystem
deriving DecidableEq, Repr, Inhabited

/-- How a module composes another one. -/
inductive CompositionKind where
  | includes
  | extends
  /-- A model is `of` a domain. -/
  | of
  /-- A model parameter of a transform. -/
  | input
  /-- An output model of a transform. -/
  | output
deriving DecidableEq, Repr

/-- A reference to another module, possibly under a new name. -/
structure ModuleRef where
  rename : Option Name := none
  module : Name
  kind : CompositionKind
  span : Span := {}
deriving DecidableEq, Repr

/-- A literal constant. -/
inductive Literal where
  | integer (value : Int)
  | string (value : Name)
deriving DecidableEq, Repr

/-- Integers come before strings. -/
instance : Ord Literal where
  compare
    | .integer a, .integer b => compare a b
    | .integer _, .string _ => .lt
    | .string _, .integer _ => .gt
    | .string a, .string b => compare a b

/-- An element of an enumeration. -/
inductive EnumElement where
  /-- A constant, declared here if it is unqualified and not yet defined. -/
  | constant (id : QualifiedId)
  | literal (literal : Literal) (span : Span)
  /-- All integers from `low` to `high`, both included. -/
  | range (low high : Int) (span : Span)
deriving DecidableEq, Repr

/-- One member of a union. -/
inductive TypeTerm where
  /-- A sort, union, base sort or data symbol, by name. -/
  | named (id : QualifiedId)
  | enumeration (elements : List EnumElement) (span : Span)
deriving DecidableEq, Repr

def TypeTerm.span : TypeTerm → Span
  | .named id => id.span
  | .enumeration _ span => span

/-- An argument position of a constructor or map. -/
structure Field where
  label : Option Name := none
  /-- The position accepts the union of these terms. -/
  type : List TypeTerm
  /-- Whether the position is marked `any`, so that it is not relational. -/
  any : Bool := false
  span : Span := {}
deriving DecidableEq, Repr

/-- A parameter of a transform. -/
inductive Param where
  | value (name : Name) (type : List TypeTerm) (span : Span)
  | model (reference : ModuleRef)
deriving DecidableEq, Repr

/-- How the relation of a map is constrained. -/
inductive MapKind where
  | function
  | injection
  | surjection
  | bijection
deriving DecidableEq, Repr

/-- What a type declaration declares. -/
inductive TypeBody where
  | union (members : List TypeTerm)
  /-- Data; with `isNew` it may be given as a fact of a model, else rules derive it. -/
  | constructor (isNew : Bool) (fields : List Field)
  /-- A map from its domain to its codomain; one that `isPartial` need not be total. -/
  | map (kind : MapKind) (isPartial : Bool) (domain codomain : List Field)
deriving DecidableEq, Repr

namespace TypeBody

/-- The fields of the arguments, in order of position. -/
def fields : TypeBody → List Field
  | union _ => []
  | constructor _ fields => fields
  | map _ _ domain codomain => domain ++ codomain

/-- The type terms of each position.  A union has a single position, which holds its members. -/
def positions : TypeBody → List (List TypeTerm)
  | union members => [members]
  | body => body.fields.map Field.type

end TypeBody

structure TypeDecl where
  name : Name
  span : Span := {}
  body : TypeBody
deriving DecidableEq, Repr

/-- How a declared constant gets its meaning. -/
inductive ConstantDeclKind where
  /-- Defined by rules. -/
  | derived
  /-- Names a fact of a model. -/
  | symbolic
deriving DecidableEq, Repr

structure ConstantDecl where
  name : Name
  kind : ConstantDeclKind
  span : Span := {}
deriving DecidableEq, Repr

inductive ContractKind where
  | requires
  | ensures
  | conforms
deriving DecidableEq, Repr

/-- A bound on the number of facts. -/
inductive Cardinality where
  | some
  | atLeast (bound : Nat)
  | atMost (bound : Nat)
deriving DecidableEq, Repr

inductive ContractItem where
  /-- The number of facts of a sort is bounded. -/
  | cardinality (cardinality : Cardinality) (sort : QualifiedId)
  /-- All the named conditions hold. -/
  | holds (conditions : List QualifiedId)
deriving DecidableEq, Repr

structure ContractDecl where
  kind : ContractKind
  item : ContractItem
  span : Span := {}
deriving DecidableEq, Repr

/-- One module. -/
structure Module where
  kind : ModuleKind
  name : Name
  file : Name
  span : Span := {}
  compositions : List ModuleRef := []
  params : List Param := []
  outputs : List ModuleRef := []
  types : List TypeDecl := []
  constants : List ConstantDecl := []
  contracts : List ContractDecl := []
deriving DecidableEq, Repr

namespace Module

/-- The location of a span of the module's file. -/
def locate (m : Module) (span : Span) : Location := ⟨m.file, span⟩

/-- Every reference to another module in the order of import: compositions, model parameters,
outputs. -/
def references (m : Module) : List ModuleRef :=
  m.compositions
    ++ m.params.filterMap (fun | .model reference => some reference | .value .. => none)
    ++ m.outputs

end Module

end ManySorted
