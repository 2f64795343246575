import ManySorted.Proofs.Session

/-!
# An import is an isomorphic embedding

Whatever was imported before, an import that reports no error leaves a copy of the foreign table
below its destination (`Draft.importModule_mirrors`): different symbols have different copies, and
the form and size of a copy are those of the symbol, read through the map from symbols to copies.
It makes no difference whether a copy is a new clone or was there already.
-/

namespace ManySorted

namespace Table

variable {names : Interner} {foreign t : Table} {rename : Option Name} {base : NamespaceId}
  {f ρ : SymbolId → SymbolId} {r x : SymbolId}

/-- Whether an import brings a foreign symbol in.  The convenience unions of the foreign root stay
behind if there is no renaming. -/
structure BroughtIn (foreign : Table) (rename : Option Name) (r : SymbolId) : Prop where
  holds : foreign.Holds r
  kept : ¬ (rename = none ∧ foreign.IsRootConvenience r)

/-- The map `f` takes the foreign symbols to their copies below the destination of an import. -/
structure Mirrored (foreign t : Table) (rename : Option Name) (f : SymbolId → SymbolId) :
    Prop where
  holds : ∀ {r}, foreign.BroughtIn rename r → t.Holds (f r)
  injective : ∀ {r r'}, foreign.BroughtIn rename r → foreign.BroughtIn rename r' →
    f r = f r' → r = r'
  name : ∀ {r}, foreign.BroughtIn rename r →
    (t.symbolAt (f r)).name = (foreign.symbolAt r).name
  arity : ∀ {r}, foreign.BroughtIn rename r →
    (t.symbolAt (f r)).arity = (foreign.symbolAt r).arity
  /-- The copies of operators, built-in constants and merging constants are in the root. -/
  root : ∀ {r}, foreign.BroughtIn rename r → (foreign.kindOf r).staysInRoot = true →
    (t.symbolAt (f r)).home = .root
  /-- All others are at the destination, followed by the path of the foreign symbol. -/
  path : ∀ {r}, foreign.BroughtIn rename r → (foreign.kindOf r).staysInRoot = false →
    t.path (t.symbolAt (f r)).home =
      rename.toList ++ foreign.path (foreign.symbolAt r).home
  /-- A data symbol keeps its shape, labels and marks, and its companions go with it. -/
  companions : ∀ {r shape info}, foreign.kindOf r = .data shape info →
    t.kindOf (f r) = .data shape
      { info with sort := f info.sort, typeConstant := f info.typeConstant }
  /-- What a symbol mentions is brought in, and the copy mentions its copy. -/
  mentions : ∀ {r p}, foreign.BroughtIn rename r → (foreign.symbolAt r).Mentions p →
    foreign.BroughtIn rename p ∧ (t.symbolAt (f r)).Mentions (f p)
  form : ∀ {r}, foreign.BroughtIn rename r →
    (t.symbolAt (f r)).canonical = (foreign.symbolAt r).canonical.map (CanonicalForm.rename f)
  size : ∀ {r}, foreign.BroughtIn rename r →
    (t.symbolAt (f r)).size? = (foreign.symbolAt r).size?.map (SizeExpr.rename f)

/-- Under a name everything is brought in. -/
theorem Holds.broughtIn (h : foreign.Holds r) (name : Name) : foreign.BroughtIn (some name) r :=
  ⟨h, fun hnone => nomatch hnone.1⟩

theorem Carries.broughtIn (h : foreign.Carries r) : foreign.BroughtIn rename r :=
  ⟨h.holds, fun hnone => h.declared hnone.2⟩

/-- A copy mentions the copies of what the symbol mentions. -/
theorem Copies.mentions_copy (h : foreign.Copies t ρ r x) {p : SymbolId}
    (hp : (foreign.symbolAt r).Mentions p) : (t.symbolAt x).Mentions (ρ p) := by
  rcases hp with ⟨form, hform, hp⟩ | ⟨e, he, hp⟩
  · refine .inl ⟨form.rename ρ, by rw [h.form, hform]; rfl, ?_⟩
    obtain ⟨v, hv, hp⟩ := CanonicalForm.mem_refs.1 hp
    refine CanonicalForm.mem_refs.2 ⟨v.rename ρ, List.mem_map.2 ⟨v, hv, rfl⟩, ?_⟩
    rcases AcceptedValues.mem_refs.1 hp with hp | hp
    · exact AcceptedValues.mem_refs.2
        (.inl (AcceptedValues.symbol_mem_constants_mapIds.2 ⟨p, hp, rfl⟩))
    · exact AcceptedValues.mem_refs.2 (.inr (AcceptedValues.mem_sorts_mapIds.2 ⟨p, hp, rfl⟩))
  · refine .inr ⟨e.rename ρ, by rw [h.size, he]; rfl, ?_⟩
    rw [SizeExpr.cards_rename]
    exact List.mem_map.2 ⟨p, hp, rfl⟩

/-- A data symbol and its companions have copies that belong together. -/
theorem Imported.companions (h : foreign.Imported t base ρ) (hforeign : foreign.Regular names)
    (ht : t.Regular names) {shape : DataShape} {info : DataInfo}
    (hr : foreign.kindOf r = .data shape info) :
    t.kindOf (ρ r) = .data shape
      { info with sort := ρ info.sort, typeConstant := ρ info.typeConstant } := by
  have hembed := h.embedding
  have hfamily := hforeign.families.data hr
  have hcarries := carries_of_data hr
  have houtline := (hembed.copies hcarries).outline
  rw [hr] at houtline
  obtain ⟨info', hkind, hlabels, hany⟩ := SymbolKind.data_of_outline houtline
  obtain ⟨hsort, hconstant⟩ :=
    hforeign.relocate?_companions ht hr (hembed.relocates hcarries) hkind
  have hsort' := hembed.relocates (IsSort.carries ⟨r, hfamily.sort_kind⟩)
  have hconstant' := hembed.relocates
    (IsConstant.carries (by rw [IsConstant, hfamily.constant_kind]; rfl))
  rw [hkind]
  obtain ⟨sort, constant, labels, any⟩ := info'
  rw [← Option.some.inj (hsort.symm.trans hsort'),
    ← Option.some.inj (hconstant.symm.trans hconstant'), ← hlabels, ← hany]

/-- The copies that an import leaves are all that is asked for. -/
theorem Imported.mirrored (h : foreign.Imported t base ρ) (hforeign : foreign.Regular names)
    (ht : t.Regular names) (hbase : t.descend? .root rename.toList = some base)
    (hclosed : ∀ {r}, foreign.Holds r → (foreign.symbolAt r).Closed foreign) :
    foreign.Mirrored t rename ρ := by
  have hpath : t.path base = rename.toList := by
    rw [ht.tree.path_of_descend? hbase, ht.tree.path_root, List.nil_append]
  have hkept : ∀ {r}, foreign.BroughtIn rename r →
      ¬ (base = .root ∧ foreign.IsRootConvenience r) := by
    rintro r hr ⟨rfl, hconvenience⟩
    rw [ht.tree.path_root] at hpath
    exact hr.kept ⟨Option.toList_eq_nil_iff.1 hpath.symm, hconvenience⟩
  have hcopies : ∀ {r}, foreign.BroughtIn rename r → foreign.Copies t ρ r (ρ r) :=
    fun hr => h.copies hr.holds (hkept hr)
  have hfound : ∀ {r}, foreign.BroughtIn rename r → foreign.relocate? t base r = some (ρ r) :=
    fun hr => h.relocates hr.holds (hkept hr)
  have hlanding : ∀ {r}, foreign.BroughtIn rename r →
      foreign.landing? t base (foreign.symbolAt r) = some (t.symbolAt (ρ r)).home :=
    fun hr => (hforeign.landing?_of_relocate? ht (hfound hr)).2
  refine ⟨fun hr => (hcopies hr).holds, fun {r r'} hr hr' heq => ?_, fun hr => (hcopies hr).name,
    fun hr => (hcopies hr).arity, fun {r} hr hstays => ?_, fun {r} hr hmoves => ?_,
    fun hr => h.companions hforeign ht hr, fun {r p} hr hp => ?_, fun hr => (hcopies hr).form,
    fun hr => (hcopies hr).size⟩
  · exact hforeign.relocate?_inj ht hr.holds hr'.holds (hfound hr) (heq ▸ hfound hr')
  · have hhome := hlanding hr
    rw [landing?, show (foreign.symbolAt r).kind.staysInRoot = true from hstays, if_pos rfl]
      at hhome
    exact (Option.some.inj hhome).symm
  · have hhome := hlanding hr
    rw [landing?, show (foreign.symbolAt r).kind.staysInRoot = false from hmoves,
      if_neg Bool.false_ne_true] at hhome
    rw [ht.tree.path_of_descend? hhome, hpath]
  · exact ⟨(carries_of_mentions (hclosed hr.holds) hp).broughtIn, (hcopies hr).mentions_copy hp⟩

end Table

namespace Draft

variable {names : Interner} {tables : List Table} {id : TableId} {library : Library}
  {config : CheckConfig} {m : Module} {references : List ModuleRef} {reference : ModuleRef}
  {foreign : Table} {d d' : Draft}

/-- An import without errors mirrors the foreign table, whatever was imported before. -/
theorem importModule_mirrors (session : Session names tables)
    (held : ∀ entry ∈ library.tables, entry.2 ∈ tables)
    (reached : references.forM (importReference library m) (initial names id config m) = .ok () d)
    (checked : foreign ∈ tables) (ran : importModule reference foreign d = .ok () d')
    (clean : d'.table.hasErrors = false) :
    ∃ f, foreign.Mirrored d'.table reference.rename f := by
  obtain ⟨hnames, harchive⟩ := session.archive
  have himport := establishes_importModule reference checked
  have hclean := (himport.proceeds.ok ran).table.hasErrors_eq_false clean
  have hassembled := (establishes_imports held m references).run
    (assembled_initial hnames harchive) reached hclean
  obtain ⟨hlanded, hvalid⟩ := himport.run hassembled ran clean
  obtain ⟨base, ρ, hbase, himported⟩ := hlanded.imported
  have hforeign := (hlanded.archive.trusted checked hvalid).formed.toRegular
  exact ⟨ρ, himported.mirrored hforeign hlanded.formed.toRegular hbase
    fun hr => hlanded.archive.closed_of_mem checked hvalid hr⟩

end Draft

/-! ## A declaration that comes twice -/

namespace Diamond

/-- The names of the modules `G`, `H` and `P`, of the types `A` and `B`, and of a renaming `L`. -/
def names : Interner := internAll ["G", "H", "P", "A", "B", "L"]

/-- `G` under the name `L`. -/
def renamed : ModuleRef := { rename := some ⟨33⟩, module := ⟨28⟩, kind := .includes }

/-- `H` without a renaming. -/
def plain : ModuleRef := { module := ⟨29⟩, kind := .includes }

def field : Field := { type := [.named { segments := [⟨33⟩, ⟨31⟩] }] }

/-- `G` has a type `A` with two values, and `H`, which includes `G` as `L`, a type `B` of pairs of
those. -/
def modules : List Module :=
  [{ kind := .domain, name := ⟨28⟩, file := ⟨0⟩,
     types := [⟨⟨31⟩, {}, .constructor true [{ type := [.enumeration [.range 0 1 {}] {}] }]⟩] },
   { kind := .domain, name := ⟨29⟩, file := ⟨0⟩, compositions := [renamed],
     types := [⟨⟨32⟩, {}, .constructor true [field, field]⟩] }]

def session : Interner × List Table := checkAll names [] modules

def library : Library := .of session.2

/-- The module `P`, which includes both. -/
def importer : Module := { kind := .domain, name := ⟨30⟩, file := ⟨0⟩ }

/-- The table of `P` after it included `G`. -/
def afterFirst : EStateM.Result Abort Draft Unit :=
  [renamed].forM (Draft.importReference library importer)
    (.initial session.1 ⟨2⟩ {} importer)

/-- Whether including `H` goes well. -/
def goesWell (foreign? : Option Table) (first : EStateM.Result Abort Draft Unit) : Bool :=
  match foreign?, first with
  | some foreign, .ok _ d =>
      match Draft.importModule plain foreign d with
      | .ok _ d' => !d'.table.hasErrors
      | .error .. => false
  | _, _ => false

theorem exists_of_goesWell {foreign? : Option Table} {first : EStateM.Result Abort Draft Unit}
    (h : goesWell foreign? first = true) : ∃ foreign d d', foreign? = some foreign ∧
      first = .ok () d ∧ Draft.importModule plain foreign d = .ok () d' ∧
      d'.table.hasErrors = false := by
  unfold goesWell at h
  split at h
  · split at h
    · exact ⟨_, _, _, rfl, rfl, ‹_›, by simpa using h⟩
    · cases h
  · cases h

theorem goesWell_afterFirst : goesWell session.2[1]? afterFirst = true := by decide +kernel

/-- `A` comes to `P` with `G`, and once more with `H`. -/
theorem importModule_mirrors_twice : ∃ foreign ∈ session.2, ∃ d d',
    [renamed].forM (Draft.importReference library importer)
        (.initial session.1 ⟨2⟩ {} importer) = .ok () d ∧
      Draft.importModule plain foreign d = .ok () d' ∧ d'.table.hasErrors = false ∧
      ∃ f, foreign.Mirrored d'.table none f := by
  obtain ⟨foreign, d, d', hforeign, hfirst, hrun, hclean⟩ := exists_of_goesWell goesWell_afterFirst
  have hmem := List.mem_of_getElem? hforeign
  exact ⟨foreign, hmem, d, d', hfirst, hrun, hclean,
    Draft.importModule_mirrors (session_checkAll _ modules) (fun _ => Library.mem_of) hfirst hmem
      hrun hclean⟩

end Diamond

end ManySorted
