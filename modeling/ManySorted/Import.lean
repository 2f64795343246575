import ManySorted.Draft

/-!
# Importing another module

The namespaces of an imported table are recreated below the namespace of the renaming or, without a
renaming, below the root.  Its symbols are cloned there, and their canonical forms and sizes speak
of the clones.  Some symbols are not cloned:

* built-in operators and constants are those of the importing table, and so are base sorts that
  land in the root;
* enumerated and symbolic constants go to the root, where those of one name and arity are one;
* convenience unions that land in the root are dropped, for the importing module has its own.

Where a name is taken by a clone of the same declaration, that clone is used; any other clash is a
duplicate definition.
-/

namespace ManySorted

/-- Why a module of kind `importer` may not compose one of kind `imported`, if it may not. -/
def compositionError? (importer : ModuleKind) (how : CompositionKind) (imported : ModuleKind) :
    Option String :=
  match importer, how, imported with
  | .domain, .includes, .domain | .domain, .extends, .domain => none
  | .model, .of, .domain | .model, .includes, .model => none
  | .transform, .input, .domain | .transform, .output, .domain | .transform, .includes, .domain =>
      none
  | .transformSystem, _, _ => none
  | .domain, _, _ => some "a domain may only include or extend domains"
  | .model, _, _ => some "a model must be `of` a domain and may only include models"
  | .transform, _, _ => some "transform inputs and outputs must be domains"

/-- A module name that stands for different tables in `t` and in `foreign`. -/
def Table.moduleClash? (t foreign : Table) : Option Name :=
  (foreign.dependencies.toList.find? fun (name, id) =>
    match t.dependencies.find? name with
    | some existing => existing ≠ id
    | none => false).map Prod.fst

/-- Why `foreign` is not imported as `reference` asks, if it is not. -/
def Table.importRefusal? (names : Interner) (t : Table) (reference : ModuleRef) (foreign : Table) :
    Option Problem :=
  if !foreign.isValid then
    some (.badComposition s!"module `{names.text foreign.module}` has errors")
  else
    match compositionError? t.kind reference.kind foreign.kind with
    | some reason => some (.badComposition reason)
    | none =>
        match reference.rename.bind (Draft.illegalId? names · "a renaming") with
        | some problem => some problem
        | none =>
            (t.moduleClash? foreign).map fun name =>
              .badComposition s!"two different modules are named `{names.text name}`"

/-- Which local symbols stand for the foreign ones. -/
structure Links where
  /-- The local symbol of each foreign one that has one, newest first. -/
  ids : List (SymbolId × SymbolId) := []
  /-- The foreign symbols that were cloned, with their clones, newest first. -/
  created : List (SymbolId × SymbolId) := []
deriving DecidableEq, Repr

namespace Links

def find? (links : Links) (foreign : SymbolId) : Option SymbolId := links.ids.lookup foreign

/-- Lets an existing symbol stand for a foreign one. -/
def link (links : Links) (foreign id : SymbolId) : Links :=
  { links with ids := (foreign, id) :: links.ids }

/-- Lets a new clone stand for a foreign symbol. -/
def clone (links : Links) (foreign id : SymbolId) : Links :=
  { ids := (foreign, id) :: links.ids, created := (foreign, id) :: links.created }

end Links

/-- What is imported, and where to. -/
structure Importing where
  foreign : Table
  /-- The place of the module reference. -/
  location : Location
  /-- The local namespace of each foreign one. -/
  homes : List NamespaceId

namespace Importing

/-- Where a foreign symbol was first declared. -/
def originOf (imp : Importing) (s : Symbol) : Origin := s.origin.getD ⟨imp.foreign.id, s.id⟩

/-- The data symbol with its two companions, paired with those of a local symbol. -/
def family (s found : Symbol) : List (SymbolId × SymbolId) :=
  match s.kind.info?, found.kind.info? with
  | some info, some foundInfo =>
      [(s.id, found.id), (info.sort, foundInfo.sort), (info.typeConstant, foundInfo.typeConstant)]
  | _, _ => [(s.id, found.id)]

/-- Whether an existing symbol stands for the same declaration as a foreign one. -/
def isSame (imp : Importing) (s existing : Symbol) : Bool :=
  existing.origin == some (imp.originOf s) ||
    (s.kind.mergesIntoRoot && existing.kind.mergesIntoRoot && s.arity == existing.arity)

/-- Registers a clone of a foreign symbol. -/
def registerClone (d : Draft) (s : Symbol) (home : NamespaceId) : Option (SymbolId × Draft) :=
  match s.kind with
  | .data shape info =>
      match d.table.registerData d.names home s.name s.arity s.location shape info.labels
        info.any with
      | .ok (id, names, table) => some (id, { d with names, table })
      | .error _ => none
  | kind =>
      match d.table.register home s.name s.arity s.location kind with
      | .ok (id, table) => some (id, { d with table })
      | .error _ => none

/-- Marks a clone with the origin of its foreign symbol. -/
def adopt (imp : Importing) (state : Links × Table) (pair : SymbolId × SymbolId) : Links × Table :=
  (state.1.clone pair.1 pair.2,
    state.2.setOrigin pair.2 (imp.originOf (imp.foreign.symbolAt pair.1)))

/-- Clones a foreign symbol into `home`, or uses the symbol that has its name there. -/
def cloneInto (imp : Importing) (s : Symbol) (home : NamespaceId) (links : Links) (d : Draft) :
    Links × Draft :=
  match (d.table.namespaceAt home).symbol? s.name with
  | some existing =>
      if imp.isSame s (d.table.symbolAt existing) then
        ((family s (d.table.symbolAt existing)).foldl (fun links (a, b) => links.link a b) links, d)
      else (links, { d with table := d.table.reportDuplicate d.names imp.location s.name existing })
  | none =>
      match registerClone d s home with
      | none => (links, d)
      | some (id, d) =>
          let (links, table) := (family s (d.table.symbolAt id)).foldl imp.adopt (links, d.table)
          (links, { d with table })

/-- Lets the built-in symbol of the same name stand for a foreign one. -/
def linkBuiltin (s : Symbol) (links : Links) (d : Draft) : Links :=
  match (d.table.namespaceAt .root).symbol? s.name with
  | some id => links.link s.id id
  | none => links

/-- Finds or makes the local symbol for a foreign one.  Companions are placed together with their
data symbol. -/
def place (imp : Importing) (s : Symbol) (links : Links) (d : Draft) : Links × Draft :=
  if (links.find? s.id).isSome then (links, d)
  else
    let home := imp.homes.getD s.home.index .root
    match s.kind with
    | .baseOperator _ | .baseConstant _ => (linkBuiltin s links d, d)
    | .baseSort _ =>
        if home = .root then (linkBuiltin s links d, d) else imp.cloneInto s home links d
    | .union (some _) => if home = .root then (links, d) else imp.cloneInto s home links d
    | .userSort .. | .userConstant (.type _) => (links, d)
    | .userConstant kind => imp.cloneInto s (if kind.mergesIntoRoot then .root else home) links d
    | .data .. | .union none => imp.cloneInto s home links d

/-- Places a symbol as one step of a run. -/
def placeStep (imp : Importing) (links : Links) (s : Symbol) : DraftM Links := do
  Draft.tick
  modifyGet (imp.place s links)

/-- Writes the canonical form and the size of a clone. -/
def fillClone (foreign : Table) (links : Links) (t : Table) (pair : SymbolId × SymbolId) :
    Except Fault Table := do
  let s := foreign.symbolAt pair.1
  let t ←
    match s.canonical with
    | some form => t.setCanonical pair.2 (form.mapIds links.find?)
    | none => pure t
  match s.size? with
  | some size => t.setSize pair.2 (size.mapIds links.find?)
  | none => pure t

/-- Checks that a clone is found by the renamed path of its foreign symbol. -/
def verify (names : Interner) (t foreign : Table) (rename : Option Name)
    (pair : SymbolId × SymbolId) : Except Fault Unit :=
  let s := foreign.symbolAt pair.1
  if s.name.isEmpty || s.kind.mergesIntoRoot ||
      t.resolveForeign foreign pair.1 { rename } == some pair.2 then .ok ()
  else .error (.relabelFailed (foreign.qualifiedName names pair.1))

end Importing

/-- Recreates the namespaces of `foreign` below `destination` and lists them in their order. -/
def Table.recreateNamespaces (t : Table) (destination : NamespaceId) (foreign : Table) :
    List NamespaceId × Table :=
  (foreign.namespaces.toList.drop 1).foldl
    (fun (homes, t) node =>
      let parent := (node.parent.bind fun p => homes[p.index]?).getD destination
      let (home, t) := t.childNamespace parent node.name
      (homes ++ [home], t))
    ([destination], t)

/-- Notes what a module brings in besides its symbols: its dependencies and literals. -/
def Table.absorb (t foreign : Table) : Table :=
  { t with
    dependencies := t.dependencies.union foreign.dependencies
    literals := t.literals.union foreign.literals }

namespace Draft

/-- Imports `foreign` under the given renaming. -/
def embed (foreign : Table) (rename : Option Name) (span : Span) : DraftM Unit := do
  modifyTable (·.absorb foreign)
  let homes ← modifyGet fun d =>
    let (destination, table) :=
      match rename with
      | some name => d.table.childNamespace .root name
      | none => (.root, d.table)
    let (homes, table) := table.recreateNamespaces destination foreign
    (homes, { d with table })
  let imp : Importing := { foreign, location := ⟨(← getTable).file, span⟩, homes }
  let links ← foreign.symbols.toList.foldlM imp.placeStep {}
  let created := links.created.reverse
  tryModifyTable fun t => created.foldlM (Importing.fillClone foreign links) t
  let names ← getNames
  tryModifyTable fun t => do
    created.forM (Importing.verify names t foreign rename)
    return t

/-- Imports `foreign` as `reference` asks, or reports why it is not imported. -/
def importModule (reference : ModuleRef) (foreign : Table) : DraftM Unit := do
  let d ← get
  match d.table.importRefusal? d.names reference foreign with
  | some problem => report ⟨d.table.file, reference.span⟩ problem
  | none => embed foreign reference.rename reference.span

end Draft

end ManySorted
