import ManySorted.Proofs.Transfer.Course

/-!
# One domain within another

All that one domain declares may be declared by a domain that refers to no modules as well
(`Draft.Contained`).  The tables of both have no namespaces but the root, so there is one place only
for each name.  If the identifiers of the first domain do not name conveniences, then what they find
has a counterpart, provided that what the first domain imports has one (`Draft.Absorbed.finds`).

## Strategy

* **One place for each name.**  The table of a domain whose imports bring no namespaces has just the
  root (`Table.Regular.home_eq_root`), so a symbol is found by its name.
* **Plain domains.**  What is declared is new, and all that is imported was there before
  (`Draft.Course.Plain.holds_of_isImported`).
* **Declarations among others.**  What the first domain declares is declared by the other one, and
  no name that it introduces stands for anything else there (`Draft.Contained.exists_firm`).
* **Counterparts.**  So everything but the conveniences has a counterpart in its place
  (`Draft.Absorbed.retraces`), identifiers find counterparts (`Draft.Absorbed.finds`), and the
  declarations come to the same (`Draft.Absorbed.conveyed`).
-/

namespace ManySorted

/-- No identifier of the module ends in the name of a convenience. -/
def Module.Avoids (m : Module) (names : Interner) : Prop :=
  ∀ id ∈ (Node.module m).qualifiedIds, ∀ last ∈ id.segments.getLast?, ∀ c ∈ Convenience.all,
    names.text last ≠ c.name

instance (m : Module) (names : Interner) : Decidable (m.Avoids names) :=
  inferInstanceAs (Decidable (∀ id ∈ (Node.module m).qualifiedIds, ∀ last ∈ id.segments.getLast?,
    ∀ c ∈ Convenience.all, names.text last ≠ c.name))

theorem Module.Avoids.grown {m : Module} {names names' : Interner} (h : m.Avoids names)
    (hinterned : m.Interned names) (hgrown : names.Grown names') : m.Avoids names' := by
  intro id hid last hlast c hc
  rw [hgrown.text (hinterned.id id hid last (List.mem_of_getLast? hlast))]
  exact h id hid last hlast c hc

/-- A constant of an enumeration may go by the name: it is legal, or the one of the type of some
data. -/
def Module.Allows (m : Module) (names : Interner) (name : Name) : Prop :=
  isLegalId (names.text name) = true ∨ ∃ e ∈ m.firmEntries, e.kind.isData = true ∧
    names.text name = "#" ++ names.text e.name

theorem Module.Allows.grown {m : Module} {names names' : Interner} {name : Name}
    (h : m.Allows names name) (hgrown : names.Grown names') (hknows : names.Knows name)
    (hfirm : ∀ e ∈ m.firmEntries, names.Knows e.name) : m.Allows names' name := by
  rw [Allows, hgrown.text hknows]
  refine h.imp id ?_
  rintro ⟨e, he, hdata, htext⟩
  exact ⟨e, he, hdata, by rw [htext, hgrown.text (hfirm e he)]⟩

namespace Table

variable {names : Interner} {t t' : Table} {path : List Name} {name : Name} {x : SymbolId}

/-- What a table holds besides the conveniences. -/
structure Genuine (t : Table) (x : SymbolId) : Prop where
  holds : t.Holds x
  plain : (t.kindOf x).convenience? = none

theorem Genuine.not_isRootConvenience (h : t.Genuine x) : ¬ t.IsRootConvenience x := by
  rintro ⟨-, k, hkind⟩
  have hplain := h.plain
  rw [hkind] at hplain
  cases hplain

theorem Alike.genuine_iff (h : t.Alike t') : t'.Genuine x ↔ t.Genuine x := by
  have hkind : (t'.kindOf x).convenience? = (t.kindOf x).convenience? := by
    rw [← convenience?_unsized, h.unsized, convenience?_unsized]
  exact ⟨fun hx => ⟨(h.holds x).1 hx.holds, hkind ▸ hx.plain⟩,
    fun hx => ⟨(h.holds x).2 hx.holds, hkind.symm ▸ hx.plain⟩⟩

theorem genuine_of_isBase (h : t.Holds x) (hbase : (t.kindOf x).isBase = true) : t.Genuine x := by
  refine ⟨h, ?_⟩
  cases hkind : t.kindOf x <;> first | rfl | (rw [hkind] at hbase; cases hbase)

theorem genuine_of_isSort (h : t.IsSort x) : t.Genuine x := by
  have hholds := h.holds
  obtain ⟨_, hkind⟩ := h
  obtain ⟨size, hkind⟩ := SymbolKind.unsized_eq_userSort.1 hkind
  exact ⟨hholds, by rw [hkind]; rfl⟩

theorem genuine_of_isConstant (h : t.IsConstant x) : t.Genuine x := by
  refine ⟨h.holds, ?_⟩
  rw [IsConstant] at h
  cases hkind : t.kindOf x <;> first | rfl | (rw [hkind] at h; cases h)

/-- A new table has no namespaces but the root. -/
theorem namespaceNames_create {id : TableId} {module file : Name} {kind : ModuleKind} :
    (create names id module kind file).2.namespaceNames = [] := by
  refine List.foldlRecOn (motive := fun state : Interner × Table => state.2.namespaceNames = [])
    builtins addBuiltin rfl fun state h builtin _ => ?_
  obtain ⟨names, t⟩ := state
  obtain ⟨text, arity, kind⟩ := builtin
  change (t.registerIfFree .root (names.intern text).1 arity .generated kind).namespaceNames = []
  unfold registerIfFree
  rcases t.register_cases .root (names.intern text).1 arity .generated kind with
    ⟨-, heq⟩ | ⟨existing, -, heq⟩
  · rw [heq]
    exact entersRoot_withSymbol.namespaceNames_eq.trans h
  · rw [heq]
    exact h

theorem Regular.home_eq_root (ht : t.Regular names) (hflat : t.namespaceNames = [])
    (hx : t.Holds x) : (t.symbolAt x).home = .root := by
  by_contra hne
  have hmem : (t.namespaceAt (t.symbolAt x).home).name ∈ t.namespaceNames :=
    mem_namespaceNames.2 ⟨_, ht.arena.home hx, hne, rfl⟩
  rw [hflat] at hmem
  exact absurd hmem List.not_mem_nil

/-- Without namespaces all names are in the root. -/
theorem Regular.path_eq_nil (ht : t.Regular names) (hflat : t.namespaceNames = [])
    (hx : t.under? path name = some x) : path = [] := by
  obtain ⟨hholds, rfl, -, -⟩ := ht.of_under? hx
  rw [ht.home_eq_root hflat hholds, ht.tree.path_root]

/-- What is built in has what is built in there in its place. -/
theorem Regular.exists_linked_builtin (ht : t.Regular names) (ht' : t'.WellFormed names)
    (hx : t.Holds x) (hbase : (t.kindOf x).isBase = true) (hhome : (t.symbolAt x).home = .root) :
    ∃ y, t'.Holds y ∧ t'.kindOf y = t.kindOf x ∧
      (t'.namespaceAt .root).symbol? (t.symbolAt x).name = some y ∧ t.Linked t' .root x y := by
  obtain ⟨y, hy, hkind, -, harity, hfound⟩ := ht'.exists_builtin ht hx hbase
  have hlisted := ht.arena.listed hx (ht.families.isEmpty_eq_false hx (dataOf?_of_isBase hbase))
  rw [hhome] at hlisted
  exact ⟨y, hy, hkind, hfound, ht.linked_of_symbol? hlisted hfound harity (by rw [hkind])⟩

end Table

namespace Draft

variable {m m' : Module} {c c' : Course} {names : Interner} {path : List Name} {name : Name}
  {id : QualifiedId} {e : Entry} {b' : Declaration} {x y : SymbolId}

/-! ## Domains without namespaces -/

namespace Course

/-- The check of a domain whose imports bring neither namespaces nor conveniences. -/
structure Plain (c : Course) (m : Module) : Prop where
  taken : ∃ tables library initial, c.Taken tables library m initial
  domain : m.kind = .domain
  interned : m.Interned c.imported.names
  normal : ∀ x, c.base.table.NormalAt x
  flat : c.imported.table.namespaceNames = []
  genuine : ∀ {x}, c.imported.table.Holds x → c.imported.table.Genuine x

namespace Plain

variable (h : c.Plain m)
include h

theorem entered : Entered m c.imported c.origin c.start c.declarations :=
  let ⟨_, _, _, htaken⟩ := h.taken
  htaken.entered

theorem account : Account m c.imported.table c.declarations c.start c.base :=
  let ⟨_, _, _, htaken⟩ := h.taken
  htaken.account

theorem judged : Judged m c.base c.last :=
  let ⟨_, _, _, htaken⟩ := h.taken
  htaken.judged

theorem declared : Declared m c.imported.table c.base :=
  let ⟨_, _, _, htaken⟩ := h.taken
  htaken.staged.declared

theorem intact : c.imported.Intact :=
  let ⟨_, _, _, htaken⟩ := h.taken
  htaken.staged.collected.intact

theorem settled (hx : c.imported.table.Holds x) :
    (c.imported.table.symbolAt x).isSettled = true :=
  let ⟨_, _, _, htaken⟩ := h.taken
  htaken.settled hx

theorem symbolAt_imported (hx : c.imported.table.Holds x) :
    c.start.table.symbolAt x = c.imported.table.symbolAt x ∧
      c.base.table.symbolAt x = c.imported.table.symbolAt x :=
  let ⟨_, _, _, htaken⟩ := h.taken
  htaken.symbolAt_imported hx

theorem start_clean_iff : c.start.table.hasErrors = false ↔
    c.imported.table.hasErrors = false ∧ c.origin.Admits m := h.entered.clean_iff

theorem clean_iff : c.last.table.hasErrors = false ↔ c.Clean m :=
  let ⟨_, _, _, htaken⟩ := h.taken
  htaken.clean_iff

theorem grown : c.imported.names.Grown c.start.names :=
  h.entered.equipped.grown.trans h.entered.grown

theorem flat_start : c.start.table.namespaceNames = [] := h.entered.namespaceNames.trans h.flat

theorem flat_base : c.base.table.namespaceNames = [] := by
  rw [Table.namespaceNames, h.account.alike.namespaces_eq, ← Table.namespaceNames, h.flat_start]

theorem names_last : c.last.names = c.start.names :=
  h.judged.names_eq.trans h.account.names_eq

theorem alike_last : c.start.table.Alike c.last.table :=
  h.account.alike.trans h.judged.written.toAlike

theorem boundParams_eq_nil : m.boundParams = [] := by
  rw [Module.boundParams, if_neg (by rw [h.domain]; exact fun h => by cases h)]

theorem paramEntries_eq_nil : m.paramEntries = [] := by
  rw [Module.paramEntries, if_neg (by rw [h.domain]; exact fun h => by cases h)]

theorem mem_firmEntries : e ∈ m.firmEntries ↔ (∃ decl ∈ m.types, Entry.ofType m decl = e) ∨
    ∃ constant ∈ m.constants, Entry.ofConstant m constant = e := by
  rw [Module.firmEntries, h.paramEntries_eq_nil, List.append_nil, Module.leadingEntries,
    List.mem_append, List.mem_map, List.mem_map]

theorem map_name_firmEntries : m.firmEntries.map Entry.name =
    m.types.map TypeDecl.name ++ m.constants.map ConstantDecl.name := by
  rw [Module.firmEntries, h.paramEntries_eq_nil, List.append_nil, Module.leadingEntries,
    List.map_append, List.map_map, List.map_map]
  rfl

theorem knows_firm (he : e ∈ m.firmEntries) : c.imported.names.Knows e.name := by
  rcases h.mem_firmEntries.1 he with ⟨decl, hdecl, rfl⟩ | ⟨constant, hconstant, rfl⟩
  · exact h.interned.type decl hdecl
  · exact h.interned.constant constant hconstant

theorem knows_last (hid : id ∈ (Node.module m).qualifiedIds) : c.imported.names.Knows id.last := by
  rw [QualifiedId.last]
  cases hlast : id.segments.getLast? with
  | none => exact h.intact.formed.proper.knows_empty
  | some last => exact h.interned.id id hid last (List.mem_of_getLast? hlast)

/-- What is declared goes by a name that a constant of an enumeration may have. -/
theorem allows_of_new (hx : c.start.table.Genuine x) (hnew : ¬ c.imported.table.Holds x)
    (hnamed : (c.start.table.symbolAt x).name.isEmpty = false) :
    m.Allows c.start.names (c.start.table.symbolAt x).name := by
  have hentered := h.entered
  have hregular := hentered.intact.formed.toRegular
  cases hcompanion : (c.start.table.kindOf x).isCompanion with
  | false =>
      obtain ⟨-, ⟨k, hkind, -⟩ | ⟨-, e, hchosen, -⟩⟩ := hentered.single hx.holds hnew hcompanion
      · have hplain := hx.plain
        rw [hkind] at hplain
        cases hplain
      · have hlegal := (opens_of_chosen hchosen).2
        rw [← hentered.grown.text (Interner.knows_of_isLegalId hlegal)] at hlegal
        exact .inl hlegal
  | true =>
      obtain ⟨y, shape, info, hkind, hy, rfl | rfl⟩ := hentered.owner hx.holds hnew hcompanion
      · -- sorts have no names
        have hsort := hregular.families.dataOf?_of_named hx.holds hnamed
        cases hsort.symm.trans
          (Table.dataOf?_eq_some_iff.2 (hregular.families.data hkind).sort_kind)
      · have hholds := Table.holds_of_data hkind
        obtain ⟨-, ⟨k, hunion, -⟩ | ⟨-, e, hchosen, hshows⟩⟩ :=
          hentered.single hholds hy (by rw [hkind]; rfl)
        · cases hunion.symm.trans hkind
        · obtain ⟨hname, he | ⟨-, id, -, rfl⟩⟩ := chosen_cases hchosen
          · refine .inr ⟨e, he, ?_, ?_⟩
            · rw [← hshows.outline, hkind]
              rfl
            · rw [(hregular.families.data hkind).constant_text, hname]
          · -- data is no constant
            have houtline := hshows.outline
            rw [hkind] at houtline
            cases houtline

/-- What is imported was there before the declarations. -/
theorem holds_of_isImported (hx : c.start.table.Holds x)
    (himported : (c.start.table.symbolAt x).isImported = true) : c.imported.table.Holds x := by
  by_contra hnew
  obtain ⟨horigin, -⟩ := h.entered.extended.new hx hnew
  rw [Symbol.isImported, horigin] at himported
  cases himported

theorem isImported_base :
    (c.base.table.symbolAt x).isImported = (c.start.table.symbolAt x).isImported := by
  rw [Symbol.isImported, h.account.alike.origin, ← Symbol.isImported]

/-- Where only what is built in was there before, nothing is imported. -/
theorem not_isImported (hpristine : c.imported.table.Pristine) (hx : c.start.table.Holds x) :
    (c.start.table.symbolAt x).isImported = false := by
  refine Bool.eq_false_iff.2 fun himported => ?_
  have hold := h.holds_of_isImported hx himported
  rw [(h.symbolAt_imported hold).1, Symbol.isImported, (hpristine hold).2.2.1] at himported
  cases himported

theorem genuine_of_isSort (hs : c.base.table.IsSort x) : c.start.table.Genuine x :=
  h.account.alike.genuine_iff.1 (Table.genuine_of_isSort hs)

theorem params_eq_nil (hstart : c.start.table.hasErrors = false) : c.declarations.params = [] :=
  List.map_eq_nil_iff.1 ((h.entered.exhausts hstart).2.1.trans h.boundParams_eq_nil)

section

variable (hclean : c.Clean m)
include hclean

theorem unfailed (x : SymbolId) : (c.base.table.symbolAt x).failed = false :=
  h.account.unfailed hclean.types hclean.params x

/-- The sort of data that is not imported is sized. -/
theorem has_sort (hs : c.base.table.dataOf? x = some y)
    (howns : (c.base.table.symbolAt y).isImported = false) :
    c.base.table.ownGraph.Has (.sort x) := by
  have hregular := h.declared.intact.formed.toRegular
  obtain ⟨shape, info, hkind, -⟩ := hregular.families.sort (Table.dataOf?_eq_some_iff.1 hs)
  refine (Table.has_sort_iff hregular).2 ⟨y, hclean.feasible.productive y ?_, hs⟩
  exact hregular.arena.mem_ownData_iff.2
    ⟨Table.holds_of_data hkind, howns, by rw [hkind]; rfl, h.unfailed hclean y⟩

/-- Where nothing is imported, all sorts are sized. -/
theorem has_sort_of_pristine (hpristine : c.imported.table.Pristine)
    (hs : c.base.table.IsSort x) : c.base.table.ownGraph.Has (.sort x) := by
  obtain ⟨d, hd⟩ := Table.isSort_iff_dataOf?.1 hs
  obtain ⟨shape, info, hkind, -⟩ :=
    h.declared.intact.formed.families.sort (Table.dataOf?_eq_some_iff.1 hd)
  refine h.has_sort hclean hd ?_
  rw [h.isImported_base]
  exact h.not_isImported hpristine ((h.account.alike.holds d).1 (Table.holds_of_data hkind))

/-- Declared data is own data. -/
theorem mem_ownData {b : Declaration} (hb : b ∈ c.declarations.types)
    (hdata : (c.base.table.kindOf b.symbol).isData = true) : b.symbol ∈ c.base.table.ownData := by
  obtain ⟨howns, -⟩ := h.entered.registered.listsTypes.mem_iff.1 (List.mem_map_of_mem hb)
  refine h.declared.intact.formed.arena.mem_ownData_iff.2
    ⟨(h.account.alike.holds _).2 howns.holds, ?_, hdata, h.unfailed hclean _⟩
  rw [h.isImported_base]
  have hunsettled := howns.unsettled
  rw [Symbol.isSettled, Bool.or_eq_false_iff] at hunsettled
  exact hunsettled.1

end

/-- Where nothing is imported, all data is declared. -/
theorem exists_declaration (hpristine : c.imported.table.Pristine) {shape : DataShape}
    {info : DataInfo} (hkind : c.start.table.kindOf x = .data shape info) :
    ∃ b ∈ c.declarations.types, b.symbol = x := by
  obtain ⟨_, _, _, htaken⟩ := h.taken
  refine h.entered.registered.mem_types_of_owns
    (htaken.owns_of_new (Table.holds_of_data hkind) fun hold => ?_) (by rw [hkind]; rfl)
  have hbase := (hpristine hold).1
  rw [Table.kindOf, ← (h.symbolAt_imported hold).1, ← Table.kindOf, hkind] at hbase
  cases hbase

theorem formed_imported (hgrown : c.imported.names.Grown names) (hproper : names.Proper) :
    c.imported.table.WellFormed names :=
  (h.intact.grown hgrown hproper).formed

/-- What stands under a name where nothing is imported does so wherever the name is known. -/
theorem exists_there (hpristine : c.imported.table.Pristine) (h' : c'.Plain m')
    (hgrown : c.imported.names.Grown names) (hgrown' : c'.imported.names.Grown names)
    (hproper : names.Proper) (hknows : c'.origin.names.Knows name)
    (htext : c.origin.names.text name = c'.origin.names.text name)
    (hx : c.origin.table.under? path name = some x) :
    ∃ x', c'.origin.table.under? path name = some x' := by
  refine h.entered.equipped.exists_there h.intact h'.entered.equipped hknows htext
    (fun y hy => ?_) hx
  have ht := (h.formed_imported hgrown hproper).toRegular
  obtain ⟨hholds, -, rfl, -⟩ := ht.of_under? hy
  obtain rfl := ht.path_eq_nil h.flat hy
  obtain ⟨hbase, hhome, -⟩ := hpristine hholds
  obtain ⟨y', -, -, hfound, -⟩ :=
    ht.exists_linked_builtin (h'.formed_imported hgrown' hproper) hholds hbase hhome
  exact ⟨y', hfound⟩

end Plain

end Course

/-! ## Declarations among others -/

/-- What one domain declares is among what another one declares, which refers to no modules and is
checked later. -/
structure Contained (m m' : Module) (c c' : Course) : Prop where
  left : c.Plain m
  right : c'.Plain m'
  pristine : c'.imported.table.Pristine
  grown : c.start.names.Grown c'.imported.names
  clean : c.Clean m
  avoids : m.Avoids c.imported.names
  types : ∀ decl ∈ m.types, decl ∈ m'.types
  constants : ∀ constant ∈ m.constants, constant ∈ m'.constants
  elements : ∀ element ∈ (Node.module m).enumElements, element ∈ (Node.module m').enumElements

namespace Contained

variable (h : Contained m m' c c')
include h

theorem grown_start : c.start.names.Grown c'.start.names := h.grown.trans h.right.grown

theorem grown_origin : c.origin.names.Grown c'.origin.names :=
  (h.left.entered.grown.trans h.grown).trans h.right.entered.equipped.grown

theorem proper : c'.start.names.Proper := h.right.entered.intact.formed.proper

/-- A name that stands for something after the conveniences of the other domain does so here. -/
theorem exists_there (hknows : c.origin.names.Knows name)
    (hx : c'.origin.table.under? path name = some x) :
    ∃ y, c.origin.table.under? path name = some y :=
  h.right.exists_there h.pristine h.left h.right.grown (h.left.grown.trans h.grown_start) h.proper
    hknows (h.grown_origin.text hknows) hx

theorem opens (hopens : c.origin.Opens name) : c'.origin.Opens name := by
  have hknows :=
    (h.left.entered.equipped.intact.formed.proper.fitting_of_isLegalId hopens.2).knows
  refine ⟨Option.eq_none_iff_forall_ne_some.2 fun x hx => ?_, ?_⟩
  · have hroot : c'.origin.table.under? [] name = some x := hx
    obtain ⟨y, hy⟩ := h.exists_there hknows hroot
    cases hopens.1.symm.trans hy
  · rw [h.grown_origin.text hknows]
    exact hopens.2

theorem introduces (hid : m.Introduces c.origin.table id) : m'.Introduces c'.origin.table id where
  element := h.elements _ hid.element
  misses := by
    have hids := Node.mem_qualifiedIds_of_element hid.element
    refine ⟨hid.misses.1, h.right.entered.equipped.intact.formed.tree.resolveId_eq_notFound
      (fun last hlast _ _ hx => h.exists_there ?_ hx)
      h.left.entered.equipped.intact.formed.tree hid.misses.2⟩
    exact h.left.entered.equipped.grown.knows
      (h.left.interned.id id hids last (List.mem_of_getLast? hlast))

/-- All that is declared here is declared there. -/
theorem exists_firm (he : e ∈ m.firmEntries) : ∃ e' ∈ m'.firmEntries, e.Equals e' := by
  rcases h.left.mem_firmEntries.1 he with ⟨decl, hdecl, rfl⟩ | ⟨constant, hconstant, rfl⟩
  · exact ⟨_, h.right.mem_firmEntries.2 (.inl ⟨decl, h.types decl hdecl, rfl⟩), rfl, rfl, rfl⟩
  · exact ⟨_, h.right.mem_firmEntries.2 (.inr ⟨constant, h.constants constant hconstant, rfl⟩),
      rfl, rfl, rfl⟩

/-- A name that may be used here may be used there. -/
theorem allows (hknows : c.start.names.Knows name) (hallows : m.Allows c.start.names name) :
    m'.Allows c'.origin.names name := by
  have hgrown := h.grown.trans h.right.entered.equipped.grown
  refine (hallows.grown hgrown hknows fun e he =>
    h.left.grown.knows (h.left.knows_firm he)).imp id ?_
  rintro ⟨e, he, hdata, htext⟩
  obtain ⟨e', he', hequals⟩ := h.exists_firm he
  exact ⟨e', he', hequals.kind ▸ hdata, by rw [htext, hequals.name]⟩

theorem allows_of_introduces (hid : m.Introduces c.origin.table id) :
    m'.Allows c'.origin.names id.last := by
  have hgrown := h.left.entered.equipped.grown
  have hknows := h.left.knows_last (Node.mem_qualifiedIds_of_element hid.element)
  refine h.allows (h.left.grown.knows hknows) ?_
  exact Module.Allows.grown (h.clean.admits.elements hid) h.left.entered.grown
    (hgrown.knows hknows) fun e he => hgrown.knows (h.left.knows_firm he)

/-- What is built in stands for what is built in there. -/
theorem exists_linked_builtin (hx : c.imported.table.Holds x)
    (hbase : (c.imported.table.kindOf x).isBase = true) : ∃ y, c'.imported.table.Holds y ∧
      c.imported.table.Linked c'.start.table .root x y := by
  have ht := h.left.formed_imported (h.left.grown.trans h.grown_start) h.proper
  obtain ⟨y, hy, -, -, hlinked⟩ := ht.toRegular.exists_linked_builtin
    (h.right.formed_imported h.right.grown h.proper) hx hbase
      (ht.toRegular.home_eq_root h.left.flat hx)
  exact ⟨y, hy, hlinked.later hy h.right.entered.extended.later⟩

/-- What is built in has no form in either table. -/
theorem form_of_builtin (hx : c.imported.table.Holds x)
    (hbase : (c.imported.table.kindOf x).isBase = true)
    (hnone : (c.imported.table.symbolAt x).canonical = none) :
    (c'.base.table.symbolAt (c.start.table.standIn c'.start.table x)).canonical =
      (c.base.table.symbolAt x).canonical.map
        (CanonicalForm.rename (c.start.table.standIn c'.start.table)) := by
  obtain ⟨y, hy, hlinked⟩ := h.exists_linked_builtin hx hbase
  have hstands := (hlinked.grown h.left.intact.formed.toRegular h.left.entered.extended.later
    h.left.entered.intact.formed.toRegular).standIn_eq
  rw [hstands, (h.right.symbolAt_imported hy).2, (h.pristine hy).2.2.2.canonical,
    (h.left.symbolAt_imported hx).2, hnone]
  rfl

end Contained

/-! ## Counterparts -/

/-- The other domain declares nothing else under the names that the first one introduces, and has
what the first one imports. -/
structure Absorbed (m m' : Module) (c c' : Course) : Prop extends Contained m m' c c' where
  clean' : c'.imported.table.hasErrors = false
  admits' : c'.origin.Admits m'
  apart : ∀ e' ∈ m'.firmEntries,
    (c.origin.chosen (m.entries c.origin.table) e'.name).isSome = true →
      ∃ e ∈ m.firmEntries, e.name = e'.name
  exists_imported : ∀ {x}, c.imported.table.Holds x →
    ∃ y, c.imported.table.Linked c'.start.table .root x y

namespace Absorbed

variable (h : Absorbed m m' c c')
include h

theorem clean_left : c.start.table.hasErrors = false :=
  h.left.start_clean_iff.2 ⟨h.clean.imported, h.clean.admits⟩

theorem clean_right : c'.start.table.hasErrors = false :=
  h.right.start_clean_iff.2 ⟨h.clean', h.admits'⟩

theorem exists_equal (hchosen : c.origin.chosen (m.entries c.origin.table) name = some e) :
    ∃ e', c'.origin.chosen (m'.entries c'.origin.table) name = some e' ∧ e.Equals e' :=
  h.admits'.exists_equal (m := m) (fun _ => h.exists_firm) h.apart
    (fun hid hopen => ⟨h.introduces hid, h.opens hopen⟩) hchosen

/-- All but the conveniences has counterparts. -/
theorem retraces :
    Table.Retraces c'.start.names c.start.table c'.start.table c.start.table.Genuine where
  regular := h.left.entered.toStocked.regular_of_grown h.right.entered.toStocked h.grown_start
  regular' := h.right.entered.intact.formed.toRegular
  holds hx := hx.holds
  covers hx hplain := ⟨hx, hplain⟩
  linked hx := by
    obtain ⟨y, hy⟩ := h.left.entered.linked h.right.entered.toStocked h.exists_equal
      h.left.intact h.grown_start h.exists_imported hx.holds (.inr hx.plain)
    rwa [hy.standIn_eq]

/-- What the identifiers of the domain may find is no convenience. -/
theorem genuine_of_under? (hid : id ∈ (Node.module m).qualifiedIds)
    (hlast : id.segments.getLast? = some name) (hx : c.start.table.under? path name = some x) :
    c.start.table.Genuine x := by
  obtain ⟨hholds, -, rfl, -⟩ := h.left.entered.intact.formed.toRegular.of_under? hx
  refine ⟨hholds, ?_⟩
  by_cases hold : c.imported.table.Holds x
  · rw [Table.kindOf, (h.left.symbolAt_imported hold).1]
    exact (h.left.genuine hold).plain
  · cases hcompanion : (c.start.table.kindOf x).isCompanion with
    | true =>
        cases hkind : c.start.table.kindOf x <;>
          first | rfl | (rw [hkind] at hcompanion; cases hcompanion)
    | false =>
        obtain ⟨-, ⟨k, -, -, htext⟩ | ⟨hplain, -⟩⟩ := h.left.entered.single hholds hold hcompanion
        · exact absurd htext (h.avoids.grown h.left.interned h.left.grown id hid _ hlast
            k k.mem_all)
        · exact hplain

/-- What the identifiers of the domain find has a counterpart that they find there. -/
theorem finds : c.start.table.Finds c'.start.table c.start.table.Genuine
    (c.start.table.standIn c'.start.table) (· ∈ (Node.module m).qualifiedIds) := by
  refine h.retraces.finds (fun id hid last hlast path y hy => h.genuine_of_under? hid hlast hy) ?_
  rintro id hid last hlast ⟨path, y, hy⟩ path' y' hy'
  -- in either table the name stands in the root
  obtain rfl := h.retraces.regular.path_eq_nil h.left.flat_start hy
  obtain rfl := h.retraces.regular'.path_eq_nil h.right.flat_start hy'
  exact ⟨y, hy⟩

theorem portion : Portion m c.start c'.start c.declarations c'.declarations
    c.start.table.Genuine (c.start.table.standIn c'.start.table) := by
  obtain ⟨_, _, _, htaken⟩ := h.left.taken
  obtain ⟨_, _, _, htaken'⟩ := h.right.taken
  refine htaken.portion htaken' h.retraces h.clean h.clean_right h.types (fun p hp => ?_) h.finds
  rw [h.left.boundParams_eq_nil] at hp
  exact absurd hp List.not_mem_nil

/-- The declarations come to the same, if this is so for what is imported. -/
theorem conveyed (hunfailed : ∀ x, (c'.base.table.symbolAt x).failed = false)
    (hpreset : ∀ {x}, c.imported.table.Holds x →
      (c'.base.table.symbolAt (c.start.table.standIn c'.start.table x)).canonical =
        (c.base.table.symbolAt x).canonical.map
          (CanonicalForm.rename (c.start.table.standIn c'.start.table))) :
    Conveyed m m' c.imported.table c'.imported.table c.start c'.start c.base c'.base
      c.declarations c'.declarations c.start.table.Genuine
      (c.start.table.standIn c'.start.table) := by
  obtain ⟨_, _, _, htaken⟩ := h.left.taken
  obtain ⟨_, _, _, htaken'⟩ := h.right.taken
  refine htaken.conveyed htaken' h.retraces h.portion hunfailed h.left.normal h.right.normal
    (fun {x} hx himported => ?_) fun {x} hx hcase _ => ?_
  · cases (h.right.not_isImported h.pristine (h.retraces.holds' hx)).symm.trans himported
  · refine hpreset (hcase.resolve_right ?_)
    rw [hx.plain]
    exact fun hsome => by cases hsome

/-- Contracts of the first domain are upheld. -/
theorem upholds {contract : ContractDecl} (hcontract : contract ∈ m.contracts) :
    c'.last.table.Upholds contract.item := by
  have hfinds := h.finds.alike h.left.alike_last h.right.alike_last
  refine hfinds.upholds (fun id hid => ?_) (h.clean.upholds contract hcontract)
  cases hitem : contract.item with
  | cardinality bound sort =>
      rw [hitem] at hid
      cases hid
      exact Node.mem_qualifiedIds_of_cardinality hcontract hitem
  | holds ids =>
      rw [hitem] at hid
      exact Node.mem_qualifiedIds_of_condition hcontract hitem hid

/-- A type of the other domain that the first one declares is a counterpart. -/
theorem exists_type (hb' : b' ∈ c'.declarations.types) (hdecl : b'.decl ∈ m.types) :
    ∃ b ∈ c.declarations.types, b.rename (c.start.table.standIn c'.start.table) = b' := by
  rw [← (h.left.entered.exhausts h.clean_left).1] at hdecl
  obtain ⟨b, hb, heq⟩ := List.mem_map.1 hdecl
  refine ⟨b, hb, ?_⟩
  obtain ⟨-, hmem, -⟩ := h.portion.type b hb
  have hfound := h.right.entered.registered.symbol?_type h.right.settled hmem
  have hfound' := h.right.entered.registered.symbol?_type h.right.settled hb'
  rw [← heq] at hfound'
  have hsymbol : (b.rename (c.start.table.standIn c'.start.table)).symbol = b'.symbol :=
    Option.some.inj (hfound.symm.trans hfound')
  cases b'
  cases heq
  cases hsymbol
  rfl

end Absorbed

end Draft

end ManySorted
