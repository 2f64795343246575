import ManySorted.Syntax.Module

/-!
# Writing modules without a parser

A builder interns the names it is given and hands out synthetic spans, so that declarations which
no file contains can still be told apart in diagnostics.  Terms and declarations draw their spans
from two sequences that start far apart.
-/

namespace ManySorted

/-- The spans still to be handed out: each is one byte long, with a gap of one byte to the next. -/
structure SpanSupply where
  next : Nat
deriving DecidableEq, Repr

/-- The next span, and the supply without it. -/
def SpanSupply.take (supply : SpanSupply) : Span × SpanSupply :=
  (⟨supply.next, supply.next + 1⟩, ⟨supply.next + 2⟩)

/-- A module under construction. -/
structure Builder where
  names : Interner
  termSpans : SpanSupply := ⟨0⟩
  declSpans : SpanSupply := ⟨10000⟩
  module : Module

/-- A step of building a module. -/
abbrev BuildM := StateM Builder

namespace Builder

/-- An empty module, in a file named for it. -/
def start (names : Interner) (kind : ModuleKind) (name : String) : Builder :=
  let (module, names) := names.intern name
  let (file, names) := names.intern (name ++ ".4ml")
  { names, module := { kind, name := module, file } }

def intern (s : String) : BuildM Name :=
  modifyGet fun b => let (name, names) := b.names.intern s; (name, { b with names })

def termSpan : BuildM Span :=
  modifyGet fun b => let (span, termSpans) := b.termSpans.take; (span, { b with termSpans })

def declSpan : BuildM Span :=
  modifyGet fun b => let (span, declSpans) := b.declSpans.take; (span, { b with declSpans })

/-- Changes the module under construction. -/
def change (f : Module → Module) : BuildM Unit :=
  modify fun b => { b with module := f b.module }

/-! ## Terms -/

/-- The identifier of a dotted path, each segment trimmed. -/
def id (dotted : String) : BuildM QualifiedId := do
  let segments ← (Text.split '.' dotted).mapM fun segment => intern (Text.trim segment)
  return { segments, span := ← termSpan }

/-- The references of a union written with plus signs.  Empty members are left out. -/
def terms (union : String) : BuildM (List TypeTerm) :=
  (((Text.split '+' union).map Text.trim).filter (· ≠ "")).mapM fun member =>
    return .named (← id member)

def enumeration (elements : List EnumElement) : BuildM TypeTerm :=
  return .enumeration elements (← termSpan)

def constantElement (dotted : String) : BuildM EnumElement :=
  return .constant (← id dotted)

def integerElement (value : Int) : BuildM EnumElement :=
  return .literal (.integer value) (← termSpan)

def stringElement (value : String) : BuildM EnumElement := do
  let name ← intern value
  return .literal (.string name) (← termSpan)

def rangeElement (low high : Int) : BuildM EnumElement :=
  return .range low high (← termSpan)

def field (label : Option String) (type : List TypeTerm) (any : Bool) : BuildM Field := do
  let label ← label.mapM intern
  return { label, type, any, span := ← termSpan }

/-! ## Declarations -/

def file (path : String) : BuildM Unit := do
  let file ← intern path
  change ({ · with file })

def reference (rename : Option String) (module : String) (kind : CompositionKind) :
    BuildM ModuleRef := do
  let rename ← rename.mapM intern
  let module ← intern module
  return { rename, module, kind, span := ← declSpan }

/-- Composes a module by one of `includes`, `extends` and `of`. -/
def compose (kind : CompositionKind) (rename : Option String) (module : String) : BuildM Unit := do
  let r ← reference rename module kind
  change fun m => { m with compositions := m.compositions ++ [r] }

/-- Adds a model parameter. -/
def input (rename module : String) : BuildM Unit := do
  let r ← reference (some rename) module .input
  change fun m => { m with params := m.params ++ [.model r] }

/-- Adds an output model. -/
def output (rename module : String) : BuildM Unit := do
  let r ← reference (some rename) module .output
  change fun m => { m with outputs := m.outputs ++ [r] }

/-- Adds a value parameter. -/
def valueParam (name : String) (type : List TypeTerm) : BuildM Unit := do
  let name ← intern name
  let span ← declSpan
  change fun m => { m with params := m.params ++ [.value name type span] }

def declareType (name : String) (body : TypeBody) : BuildM Unit := do
  let name ← intern name
  let span ← declSpan
  change fun m => { m with types := m.types ++ [{ name, span, body }] }

def declareConstant (name : String) (kind : ConstantDeclKind) : BuildM Unit := do
  let name ← intern name
  let span ← declSpan
  change fun m => { m with constants := m.constants ++ [{ name, kind, span }] }

/-- The identifier of a dotted path inside a contract, whose segments are taken as they are. -/
def contractId (dotted : String) (span : Span) : BuildM QualifiedId := do
  let segments ← (Text.split '.' dotted).mapM intern
  return { segments, span }

def declareContract (kind : ContractKind) (item : Span → BuildM ContractItem) : BuildM Unit := do
  let span ← declSpan
  let item ← item span
  change fun m => { m with contracts := m.contracts ++ [{ kind, item, span }] }

/-- Bounds the number of facts of a sort. -/
def cardinality (kind : ContractKind) (cardinality : Cardinality) (sort : String) : BuildM Unit :=
  declareContract kind fun span => return .cardinality cardinality (← contractId sort span)

/-- Asks that all the named conditions hold. -/
def holds (kind : ContractKind) (conditions : List String) : BuildM Unit :=
  declareContract kind fun span => return .holds (← conditions.mapM (contractId · span))

end Builder

end ManySorted
