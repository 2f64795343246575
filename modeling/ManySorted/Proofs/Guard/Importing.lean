import ManySorted.Proofs.Guard.Table
import ManySorted.Proofs.Import.Safety

/-!
# Guarded imports

An import reads symbols and namespaces of the foreign table, looks up which local namespace stands
for a foreign one, and writes to the clones that it made.  All of this is guarded here.

## Strategy

* The foreign table is valid, so what it stores is in range (`Table.Regular`).
* The local namespaces are listed in the order of the foreign ones, and the parent of a namespace
  comes before it (`Table.Recreated`), so there is an entry for every foreign namespace.
* What is linked to a foreign symbol is there (`Importing.Gathering`), and so are the companions of
  both.
* Each stage of an import is known to lead to drafts from which the next one agrees with its guarded
  counterpart (`Draft.safe_layOut`, `Draft.safe_gathered`, `Draft.safe_fill`).
-/

namespace ManySorted

namespace Importing

/-! ## Placing -/

def registerClone? (d : Draft) (s : Symbol) (home : NamespaceId) :
    Option (Option (SymbolId × Draft)) := do
  match s.kind with
  | .data shape info =>
      match ← d.table.registerData? d.names home s.name s.arity s.location shape info.labels
        info.any with
      | .ok (id, names, table) => return some (id, { d with names, table })
      | .error _ => return none
  | kind =>
      match ← d.table.register? home s.name s.arity s.location kind with
      | .ok (id, table) => return some (id, { d with table })
      | .error _ => return none

def adopt? (imp : Importing) (state : Links × Table) (pair : SymbolId × SymbolId) :
    Option (Links × Table) := do
  let s ← imp.foreign.symbol? pair.1
  return (state.1.clone pair.1 pair.2, ← state.2.setOrigin? pair.2 (imp.originOf s))

def cloneInto? (imp : Importing) (s : Symbol) (home : NamespaceId) (links : Links) (d : Draft) :
    Option (Links × Draft) := do
  match (← d.table.node? home).symbol? s.name with
  | some existing =>
      let found ← d.table.symbol? existing
      if imp.isSame s found then
        return ((family s found).foldl (fun links (a, b) => links.link a b) links, d)
      else
        let table ← d.table.reportDuplicate? d.names imp.location s.name existing
        return (links, { d with table })
  | none =>
      match ← registerClone? d s home with
      | none => return (links, d)
      | some (id, d) =>
          let found ← d.table.symbol? id
          let (links, table) ← (family s found).foldlM imp.adopt? (links, d.table)
          return (links, { d with table })

def linkBuiltin? (s : Symbol) (links : Links) (d : Draft) : Option Links := do
  match (← d.table.node? .root).symbol? s.name with
  | some id => return links.link s.id id
  | none => return links

/-- The home of the symbol has to be among the namespaces that were recreated. -/
def place? (imp : Importing) (s : Symbol) (links : Links) (d : Draft) :
    Option (Links × Draft) := do
  if (links.find? s.id).isSome then return (links, d)
  else
    let home ← imp.homes[s.home.index]?
    match s.kind with
    | .baseOperator _ | .baseConstant _ => return (← linkBuiltin? s links d, d)
    | .baseSort _ =>
        if home = .root then return (← linkBuiltin? s links d, d)
        else imp.cloneInto? s home links d
    | .union (some _) => if home = .root then return (links, d) else imp.cloneInto? s home links d
    | .userSort .. | .userConstant (.type _) => return (links, d)
    | .userConstant kind => imp.cloneInto? s (if kind.mergesIntoRoot then .root else home) links d
    | .data .. | .union none => imp.cloneInto? s home links d

def placeStep? (imp : Importing) (links : Links) (s : Symbol) : GuardedM Links := do
  Draft.tick
  Draft.modifyGet? (imp.place? s links)

section

variable {tables : List Table} {imp : Importing} {base home : NamespaceId} {start d : Draft}
  {links : Links} {r : SymbolId} {t : Table}

theorem Clonable.registerClone?_eq (h : Clonable imp base r home d) :
    registerClone? d (imp.foreign.symbolAt r) home =
      some (registerClone d (imp.foreign.symbolAt r) home) := by
  rw [registerClone?, registerClone]
  cases hkind : (imp.foreign.symbolAt r).kind with
  | data shape info =>
      have hregister := h.regular.registerData?_eq h.hasNamespace
        (h.foreign.families.knows h.holds) h.named h.plain (imp.foreign.symbolAt r).arity
        (imp.foreign.symbolAt r).location shape info.labels info.any
      simp only [hregister, Option.bind_eq_bind, Option.bind_some]
      cases d.table.registerData d.names home (imp.foreign.symbolAt r).name
        (imp.foreign.symbolAt r).arity (imp.foreign.symbolAt r).location shape info.labels
        info.any <;> rfl
  | _ =>
      simp only [Table.register?_eq h.hasNamespace, Option.bind_eq_bind, Option.bind_some]
      generalize d.table.register _ _ _ _ _ = registered
      cases registered <;> rfl

theorem foldlM_adopt?_eq {news : List (SymbolId × SymbolId)}
    (hnews : ∀ p ∈ news, imp.foreign.Holds p.1 ∧ t.Holds p.2) (links : Links) :
    news.foldlM imp.adopt? (links, t) = some (news.foldl imp.adopt (links, t)) := by
  refine (foldlM_eq_some (motive := fun state => ∀ p ∈ news, state.2.Holds p.2)
    (fun p hp => (hnews p hp).2) fun state p hp hstate => ⟨?_, fun q hq => ?_⟩).1
  · simp only [adopt?, Table.symbol?_eq (hnews p hp).1, Table.setOrigin?_eq (hstate p hp),
      Option.bind_eq_bind, Option.bind_some]
    rfl
  · exact Table.holds_updateSymbol.2 (hstate q hq)

theorem Gathering.cloneInto?_eq (h : Gathering imp base start links d)
    (hprep : Arranged tables imp base start) (hr : imp.foreign.Holds r)
    (halone : (imp.foreign.kindOf r).isCompanion = false)
    (hlanding : imp.foreign.landing? start.table base (imp.foreign.symbolAt r) = some home) :
    imp.cloneInto? (imp.foreign.symbolAt r) home links d =
      some (imp.cloneInto (imp.foreign.symbolAt r) home links d) := by
  have hhome : d.table.HasNamespace home :=
    h.regular.tree.hasNamespace_of_landing? (h.later.hasNamespace hprep.base_mem)
      (h.later.landing? hlanding)
  rw [Importing.cloneInto?, Importing.cloneInto, Table.node?_eq hhome]
  simp only [Option.bind_eq_bind, Option.bind_some]
  cases hfound : (d.table.namespaceAt home).symbol? (imp.foreign.symbolAt r).name with
  | some existing =>
      have hx := (h.regular.arena.entry hfound).1
      simp only [Table.symbol?_eq hx, Table.reportDuplicate?_eq hx, Option.bind_some]
      split <;> rfl
  | none =>
      have hclonable := h.clonable hprep hr halone hlanding hfound
      obtain ⟨x, d', hregister, hreg⟩ := hclonable.registered
      have hforeign := hclonable.foreign.grown hreg.grown hreg.regular.proper
      have hx := (hforeign.landing?_of_relocate? hreg.regular hreg.linked.found).1
      have hnews : ∀ p ∈ family (imp.foreign.symbolAt r) (d'.table.symbolAt x),
          imp.foreign.Holds p.1 ∧ d'.table.Holds p.2 := fun p hp =>
        ⟨(linked_of_mem_family hforeign hreg.regular hreg.linked hx hp).holds, (hreg.fresh hp).2⟩
      have hadopt := foldlM_adopt?_eq hnews links
      simp only [hclonable.registerClone?_eq, hregister, Option.bind_some, Table.symbol?_eq hx,
        hadopt]
      rfl

theorem linkBuiltin?_eq (hroot : d.table.HasNamespace .root) (s : Symbol) (links : Links) :
    linkBuiltin? s links d = some (linkBuiltin s links d) := by
  rw [linkBuiltin?, linkBuiltin, Table.node?_eq hroot]
  simp only [Option.bind_eq_bind, Option.bind_some]
  cases (d.table.namespaceAt .root).symbol? s.name <;> rfl

/-- The home of a foreign symbol was recreated, and what it is cloned into is there. -/
theorem Gathering.place?_eq (h : Gathering imp base start links d)
    (hprep : Arranged tables imp base start)
    (hlength : imp.homes.length = imp.foreign.namespaces.size) (hr : imp.foreign.Holds r) :
    imp.place? (imp.foreign.symbolAt r) links d =
      some (imp.place (imp.foreign.symbolAt r) links d) := by
  have hlinks := linkBuiltin?_eq h.regular.tree.root (imp.foreign.symbolAt r) links
  have hmoves := hprep.landing? hr
  have hclone : ∀ {home}, (imp.foreign.kindOf r).isCompanion = false →
      imp.foreign.landing? start.table base (imp.foreign.symbolAt r) = some home →
      imp.cloneInto? (imp.foreign.symbolAt r) home links d =
        some (imp.cloneInto (imp.foreign.symbolAt r) home links d) :=
    fun halone hlanding => h.cloneInto?_eq hprep hr halone hlanding
  have hread : imp.homes[(imp.foreign.symbolAt r).home.index]? =
      some (imp.homes.getD (imp.foreign.symbolAt r).home.index .root) := by
    have hlt : (imp.foreign.symbolAt r).home.index < imp.homes.length :=
      hlength.symm ▸ hprep.trusted.formed.arena.home hr
    rw [List.getD_eq_getElem?_getD, List.getElem?_eq_getElem hlt]
    rfl
  rw [Importing.place?, Importing.place]
  simp only [hread, Option.bind_eq_bind, Option.bind_some]
  split
  · rfl
  · cases hkind : imp.foreign.kindOf r with
    | baseOperator op => simp [show (imp.foreign.symbolAt r).kind = _ from hkind, hlinks]
    | baseConstant constant => simp [show (imp.foreign.symbolAt r).kind = _ from hkind, hlinks]
    | userSort data size => simp [show (imp.foreign.symbolAt r).kind = _ from hkind]
    | baseSort sort =>
        have hcloned := hclone (by rw [hkind]; rfl) (hmoves (by rw [hkind]; rfl))
        simp only [show (imp.foreign.symbolAt r).kind = _ from hkind, hlinks, Option.bind_some]
        split
        · rfl
        · exact hcloned
    | data shape info =>
        have hcloned := hclone (by rw [hkind]; rfl) (hmoves (by rw [hkind]; rfl))
        simp only [show (imp.foreign.symbolAt r).kind = _ from hkind]
        exact hcloned
    | union convenience =>
        have hcloned := hclone (by rw [hkind]; rfl) (hmoves (by rw [hkind]; rfl))
        cases convenience with
        | none =>
            simp only [show (imp.foreign.symbolAt r).kind = _ from hkind]
            exact hcloned
        | some convenience =>
            simp only [show (imp.foreign.symbolAt r).kind = _ from hkind]
            split
            · rfl
            · exact hcloned
    | userConstant constant =>
        simp only [show (imp.foreign.symbolAt r).kind = _ from hkind]
        -- values go to the root, and all other constants to where they belong
        have hroot : constant.mergesIntoRoot = true →
            imp.foreign.landing? start.table base (imp.foreign.symbolAt r) = some .root := by
          intro hmerges
          rw [Table.landing?, if_pos]
          rw [show (imp.foreign.symbolAt r).kind = _ from hkind]
          cases constant <;> first | rfl | cases hmerges
        cases constant with
        | type sort => rfl
        | enumerated => exact hclone (by rw [hkind]; rfl) (hroot rfl)
        | symbolic => exact hclone (by rw [hkind]; rfl) (hroot rfl)
        | derived => exact hclone (by rw [hkind]; rfl) (hmoves (by rw [hkind]; rfl))
        | parameter => exact hclone (by rw [hkind]; rfl) (hmoves (by rw [hkind]; rfl))

theorem Arranged.agrees_place (h : Arranged tables imp base start)
    (hlength : imp.homes.length = imp.foreign.namespaces.size) :
    Draft.Agrees (fun d => d.names = start.names ∧ d.table = start.table)
      (imp.foreign.symbols.toList.foldlM imp.placeStep? {})
      (imp.foreign.symbols.toList.foldlM imp.placeStep {}) := by
  refine (Draft.agrees_foldlM (motive := fun _ links d => Gathering imp base start links d)
    (fun _ links s rest hall => ?_) {}).imp ?_
  · obtain ⟨r, hr, rfl⟩ : ∃ r, imp.foreign.Holds r ∧ imp.foreign.symbolAt r = s := by
      refine Table.mem_symbols_toList.1 ?_
      rw [hall]
      exact List.mem_append_right _ List.mem_cons_self
    have htick : Draft.Ends (Gathering imp base start links) Draft.tick fun _ =>
        Gathering imp base start links := Draft.ends_tick fun _ clock hd => hd.of_clock clock
    exact ⟨Draft.agrees_lift_bind htick fun _ => Draft.agrees_modifyGet fun d hd =>
        hd.place?_eq h hlength hr,
      htick.bind fun _ => Draft.ends_modifyGet fun d hd => (hd.place h hr).1⟩
  · rintro ⟨names, table, clock⟩ ⟨rfl, rfl⟩
    exact h.gathering.of_clock clock

end

/-! ## Writing to clones -/

def fillForm? (links : Links) (t : Table) (id : SymbolId) :
    Option CanonicalForm → ExceptT Fault Option Table
  | some form => ExceptT.mk (t.setCanonical? id (form.mapIds links.find?))
  | none => pure t

def fillSize? (links : Links) (t : Table) (id : SymbolId) :
    Option SizeExpr → ExceptT Fault Option Table
  | some size => ExceptT.mk (t.setSize? id (size.mapIds links.find?))
  | none => pure t

def fillClone? (foreign : Table) (links : Links) (t : Table) (pair : SymbolId × SymbolId) :
    ExceptT Fault Option Table := do
  let s ← foreign.symbol? pair.1
  let t ← fillForm? links t pair.2 s.canonical
  fillSize? links t pair.2 s.size?

def verify? (names : Interner) (t foreign : Table) (rename : Option Name)
    (pair : SymbolId × SymbolId) : ExceptT Fault Option Unit := do
  let s ← foreign.symbol? pair.1
  if s.name.isEmpty || s.kind.mergesIntoRoot then return ()
  else if (← t.resolveForeign? foreign pair.1 { rename }) == some pair.2 then return ()
  else throw (.relabelFailed (← foreign.qualifiedName? names pair.1))

section

variable {names : Interner} {foreign t : Table} {p : SymbolId × SymbolId} {rename : Option Name}

theorem fillClone?_eq (hforeign : foreign.Holds p.1) (hp : t.Holds p.2) (links : Links) :
    (fillClone? foreign links t p).run = some (fillClone foreign links t p) := by
  have hsize : ∀ t' : Table, t'.Holds p.2 →
      (fillSize? links t' p.2 (foreign.symbolAt p.1).size?).run =
        some (match (foreign.symbolAt p.1).size? with
          | some size => t'.setSize p.2 (size.mapIds links.find?)
          | none => pure t') := by
    intro t' hp'
    cases (foreign.symbolAt p.1).size? with
    | none => rfl
    | some size => exact Table.setSize?_eq hp' _
  refine run_read_eq_some (Table.symbol?_eq hforeign) ?_
  rw [fillClone]
  cases hform : (foreign.symbolAt p.1).canonical with
  | none => exact hsize t hp
  | some form =>
      have hform? : (fillForm? links t p.2 (some form)).run = _ := Table.setCanonical?_eq hp _
      refine run_bind_eq_some hform? fun t' ht' => hsize t' ?_
      exact Table.holds_of_setCanonical ht' hp

theorem holds_of_fillClone {t' : Table} {links : Links} {x : SymbolId}
    (h : fillClone foreign links t p = .ok t') (hx : t.Holds x) : t'.Holds x := by
  obtain ⟨t₁, hform, hsize⟩ := fillClone_cases h
  have hfirst : t₁.Holds x := by
    rcases hform with ⟨-, rfl⟩ | ⟨form, -, hset⟩
    · exact hx
    · exact Table.holds_of_setCanonical hset hx
  rcases hsize with ⟨-, rfl⟩ | ⟨size, -, hset⟩
  · exact hfirst
  · exact Table.holds_of_setSize hset hfirst

theorem foldlM_fillClone?_eq {created : List (SymbolId × SymbolId)}
    (hcreated : ∀ p ∈ created, foreign.Holds p.1 ∧ t.Holds p.2) (links : Links) :
    (created.foldlM (fillClone? foreign links) t).run =
      some (created.foldlM (fillClone foreign links) t) := by
  refine run_foldlM_eq_some (motive := fun t => ∀ p ∈ created, t.Holds p.2)
    (fun p hp => (hcreated p hp).2) fun t p hp ht =>
      ⟨fillClone?_eq (hcreated p hp).1 (ht p hp) links, fun t' ht' q hq =>
        holds_of_fillClone ht' (ht q hq)⟩

theorem verify?_eq {names' : Interner} (hforeign : foreign.Regular names')
    (ht : t.Regular names') (hp : foreign.Holds p.1) :
    (verify? names t foreign rename p).run = some (verify names t foreign rename p) := by
  refine run_read_eq_some (Table.symbol?_eq hp) ?_
  rw [verify]
  cases hplain : (foreign.symbolAt p.1).name.isEmpty ||
    (foreign.symbolAt p.1).kind.mergesIntoRoot with
  | true => rfl
  | false =>
      refine run_read_eq_some (ht.resolveForeign?_eq hforeign hp _) ?_
      cases t.resolveForeign foreign p.1 { rename } == some p.2 with
      | true => rfl
      | false => exact run_read_eq_some (hforeign.qualifiedName?_eq hp names) rfl

end

end Importing

/-! ## Namespaces -/

namespace Table

/-- Recreates one namespace.  Its parent has to be among those that were recreated. -/
def recreateNext? (destination : NamespaceId) (state : List NamespaceId × Table)
    (node : Namespace) : Option (List NamespaceId × Table) := do
  let parent ←
    match node.parent with
    | some parent => state.1[parent.index]?
    | none => some destination
  let (home, t) ← state.2.childNamespace? parent node.name
  return (state.1 ++ [home], t)

def recreateNamespaces? (t : Table) (destination : NamespaceId) (foreign : Table) :
    Option (List NamespaceId × Table) :=
  (foreign.namespaces.toList.drop 1).foldlM (recreateNext? destination) ([destination], t)

def destination? (t : Table) : Option Name → Option (NamespaceId × Table)
  | some name => t.childNamespace? .root name
  | none => some (.root, t)

section

variable {names : Interner} {foreign start t : Table} {base : NamespaceId}
  {homes : List NamespaceId} {i : Nat}

/-- The parent of the next namespace was recreated before. -/
theorem Recreated.recreateNext?_eq (h : Recreated names foreign base start t homes i)
    (hforeign : foreign.Tree) (hbase : start.HasNamespace base) (hi : 0 < i)
    (hns : foreign.HasNamespace ⟨i⟩) :
    recreateNext? base (homes, t) (foreign.namespaceAt ⟨i⟩) =
      some (homes ++ [(t.childNamespace
          (((foreign.namespaceAt ⟨i⟩).parent.bind fun p => homes[p.index]?).getD base)
          (foreign.namespaceAt ⟨i⟩).name).1],
        (t.childNamespace
          (((foreign.namespaceAt ⟨i⟩).parent.bind fun p => homes[p.index]?).getD base)
          (foreign.namespaceAt ⟨i⟩).name).2) := by
  obtain ⟨p, hp, hget, hleads⟩ := h.parent hforeign hi hns
  have hparent : t.HasNamespace (homes.getD p.index .root) :=
    h.regular.tree.hasNamespace_of_descend? (h.later.hasNamespace hbase) hleads
  simp only [recreateNext?, hp, hget, childNamespace?_eq hparent, Option.bind_eq_bind,
    Option.bind_some, Option.getD_some, Option.pure_def]

theorem Recreated.foldlM_recreateNext?_eq (hforeign : foreign.Tree)
    (hbase : start.HasNamespace base) {rest : List Namespace} (hi : 0 < i)
    (hrest : foreign.namespaces.toList.drop i = rest)
    (h : Recreated names foreign base start t homes i) :
    rest.foldlM (recreateNext? base) (homes, t) =
      some (rest.foldl (fun (homes, t) node =>
        let parent := (node.parent.bind fun p => homes[p.index]?).getD base
        let (home, t) := t.childNamespace parent node.name
        (homes ++ [home], t)) (homes, t)) := by
  induction rest generalizing i homes t with
  | nil => rfl
  | cons node rest ih =>
      obtain ⟨hns, hnode, hdrop⟩ := hasNamespace_of_drop_eq_cons hrest
      have hnext := h.recreateNext?_eq hforeign hbase hi hns
      have hstep := h.step hforeign hbase hi hns
      rw [hnode] at hnext hstep
      rw [List.foldlM_cons, hnext, List.foldl_cons]
      exact ih (Nat.succ_pos i) hdrop hstep

theorem Regular.recreateNamespaces?_eq (ht : t.Regular names) (hforeign : foreign.Tree)
    (hbase : t.HasNamespace base) :
    t.recreateNamespaces? base foreign = some (t.recreateNamespaces base foreign) :=
  (ht.recreated_first hforeign base).foldlM_recreateNext?_eq hforeign hbase Nat.one_pos rfl

theorem Regular.destination?_eq (ht : t.Regular names) (rename : Option Name) :
    t.destination? rename = some (t.destination rename) := by
  cases rename with
  | none => rfl
  | some name => exact childNamespace?_eq ht.tree.root name

end

end Table

/-! ## Imports as a whole -/

namespace Draft

def embed? (foreign : Table) (rename : Option Name) (span : Span) : GuardedM Unit := do
  modifyTable (·.absorb foreign)
  let homes ← modifyGet? fun d => do
    let (destination, table) ← d.table.destination? rename
    let (homes, table) ← table.recreateNamespaces? destination foreign
    return (homes, { d with table })
  let imp : Importing := { foreign, location := ⟨(← getTable).file, span⟩, homes }
  let links ← foreign.symbols.toList.foldlM imp.placeStep? {}
  let created := links.created.reverse
  tryModifyTable? fun t => (created.foldlM (Importing.fillClone? foreign links) t).run
  let names ← getNames
  tryModifyTable? fun t => ExceptT.run do
    created.forM (Importing.verify? names t foreign rename)
    return t

def importModule? (reference : ModuleRef) (foreign : Table) : GuardedM Unit := do
  let d ← get
  match d.table.importRefusal? d.names reference foreign with
  | some problem => report ⟨d.table.file, reference.span⟩ problem
  | none => embed? foreign reference.rename reference.span

def importReference? (library : Library) (m : Module) (reference : ModuleRef) :
    GuardedM Unit := do
  tick
  modify fun d => { d with clock := d.clock.request }
  match library.find? reference.module with
  | some foreign => importModule? reference foreign
  | none =>
      let module := (← getNames).text reference.module
      report (m.locate reference.span) (.badComposition s!"module `{module}` is not available")

variable {tables : List Table} {foreign : Table} {rename : Option Name} {span : Span}

theorem agrees_layOut (hmem : foreign ∈ tables) (hvalid : foreign.isValid = true) :
    Agrees (Collected tables)
      (modifyGet? fun d => do
        let (destination, table) ← d.table.destination? rename
        let (homes, table) ← table.recreateNamespaces? destination foreign
        return (homes, { d with table }))
      (modifyGet fun d =>
        let (destination, table) :=
          match rename with
          | some name => d.table.childNamespace .root name
          | none => (.root, d.table)
        let (homes, table) := table.recreateNamespaces destination foreign
        (homes, { d with table })) := by
  refine agrees_modifyGet fun d hd => ?_
  have hforeign := (hd.archive.trusted hmem hvalid).formed.tree
  have hregular := hd.formed.toRegular
  obtain ⟨base, t, heq, -, ht, -, hbase, -⟩ := hregular.destination rename
  rw [hregular.destination?_eq, heq]
  simp only [Option.bind_eq_bind, Option.bind_some, ht.recreateNamespaces?_eq hforeign hbase]
  cases rename with
  | none =>
      cases heq
      rfl
  | some name =>
      rw [Table.destination] at heq
      simp only [heq]
      rfl

/-- An import agrees with its guarded counterpart, whatever names are taken. -/
theorem agrees_embed (hmem : foreign ∈ tables) (hvalid : foreign.isValid = true) :
    Agrees (Collected tables) (embed? foreign rename span) (embed foreign rename span) := by
  refine agrees_lift_bind (safe_absorb foreign).ends fun _ => ?_
  refine (agrees_layOut hmem hvalid).bind (safe_layOut hmem hvalid).ends fun homes => ?_
  refine agrees_getTable_bind fun t => ?_
  have himp : (⟨foreign, ⟨t.file, span⟩, homes⟩ : Importing).foreign = foreign := rfl
  refine Agrees.bind ?_ ((safe_gathered hmem hvalid himp).ends.imp (fun _ hd => hd.1)
    fun _ _ hd => hd) fun links => ?_
  · rintro d ⟨⟨hcollected, _, hlaid⟩, -⟩
    obtain ⟨_, base, hbase, -, hrecreated⟩ := hlaid.recreated
    have harranged := hcollected.arranged hmem hvalid hbase hrecreated ⟨t.file, span⟩
    exact harranged.agrees_place hrecreated.length d ⟨rfl, rfl⟩
  refine Agrees.bind (agrees_tryModifyTable ?_) safe_fill.ends fun _ => ?_
  · rintro d ⟨base, start, hd⟩
    have hforeign := hd.arranged.foreign_regular hd.toGathering
    refine Importing.foldlM_fillClone?_eq (fun p hp => ?_) links
    have hlinked := hd.created_mem (List.mem_reverse.1 hp)
    exact ⟨(hd.linked hlinked).holds, hd.holds hforeign hlinked⟩
  · refine agrees_getNames_bind fun names => agrees_tryModifyTable ?_
    rintro d ⟨hd, -⟩
    have hforeign := (hd.archive.trusted hmem hvalid).formed.toRegular
    obtain ⟨base, -, hfound⟩ := hd.found
    refine run_bind_eq_some (run_forM_eq_some fun p hp => ?_) fun _ _ => rfl
    exact Importing.verify?_eq hforeign hd.formed.toRegular (hfound p hp).1.holds

theorem agrees_importModule (reference : ModuleRef) (hmem : foreign ∈ tables) :
    Agrees (Collected tables) (importModule? reference foreign)
      (importModule reference foreign) := by
  refine agrees_get_bind fun start => ?_
  cases hrefusal : start.table.importRefusal? start.names reference foreign with
  | some problem => exact agrees_lift _ _
  | none =>
      have hvalid := Table.isValid_of_importRefusal? hrefusal
      exact (agrees_embed hmem hvalid).imp fun d hd => hd.1

theorem agrees_importReference {library : Library}
    (hlibrary : ∀ entry ∈ library.tables, entry.2 ∈ tables) (m : Module) (reference : ModuleRef) :
    Agrees (Collected tables) (importReference? library m reference)
      (importReference library m reference) := by
  refine agrees_lift_bind (ends_tick fun d clock hd => hd.of_clock clock) fun _ => ?_
  refine agrees_lift_bind (Q := fun _ => Collected tables)
    (ends_modify fun d hd => hd.of_clock d.clock.request) fun _ => ?_
  cases hfind : library.find? reference.module with
  | some foreign =>
      exact agrees_importModule reference (hlibrary _ (Library.mem_of_find? hfind))
  | none => exact agrees_getNames_bind fun names => agrees_lift _ _

theorem agrees_imports {library : Library}
    (hlibrary : ∀ entry ∈ library.tables, entry.2 ∈ tables) (m : Module)
    (references : List ModuleRef) :
    Agrees (Collected tables) (references.forM (importReference? library m))
      (references.forM (importReference library m)) :=
  agrees_forM (motive := fun _ => Collected tables) fun _ reference _ _ =>
    ⟨agrees_importReference hlibrary m reference,
      (safe_importReference hlibrary m reference).ends⟩

end Draft

end ManySorted
