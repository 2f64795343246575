import ManySorted.Proofs.Declaration.Early
import ManySorted.Proofs.Draft.Notes
import ManySorted.Proofs.Import.Recognition
import ManySorted.Proofs.Table.Moves

/-!
# What a table is compiled from

After all imports of a module without errors the table holds what was built in and copies of the
symbols of the tables that are referred to, and the interner is as it was (`Draft.Compiled`).

## Strategy

* **Names.**  An import leaves the interner as it is, for the foreign table has the names of its
  types already (`Importing.names_place`).
* **Reports.**  It reports nothing if matches stand wherever a place is taken (`Importing.Matched`):
  then each foreign symbol is cloned or finds its match.
* **One import.**  Without errors it leaves copies of the foreign symbols in the places that the
  renaming tells, and nothing else is new (`Draft.Admitted`).  If what stands in these places before
  matches, it is without errors (`Draft.Assembled.reports_embed`).
* **All imports.**  They are gone through one after the other, and each one keeps what was compiled
  before (`Draft.Compiled.step`).
-/

namespace ManySorted

/-! ## Names -/

/-- A text that is known is not interned again. -/
theorem Interner.Proper.intern_text {names : Interner} (hnames : names.Proper) {name : Name}
    (hname : names.Knows name) : names.intern (names.text name) = (name, names) := by
  rw [Interner.intern, hnames.find?_text hname]

namespace Importing

variable {tables : List Table} {imp : Importing} {base home : NamespaceId} {start d d' : Draft}
  {links : Links} {r x : SymbolId}

/-- The name of the type of foreign data is known. -/
theorem names_registerClone (hforeign : imp.foreign.Regular d.names)
    (hregister : registerClone d (imp.foreign.symbolAt r) home = some (x, d')) :
    d'.names = d.names := by
  unfold registerClone at hregister
  split at hregister
  · next shape info hkind =>
      split at hregister
      · next hdata =>
          cases hregister
          have hfamily := hforeign.families.data (show imp.foreign.kindOf r = _ from hkind)
          unfold Table.registerData at hdata
          simp only at hdata
          split at hdata
          · cases hdata
          · cases hdata
            rw [← hfamily.constant_text, hforeign.proper.intern_text
              (hforeign.families.knows hfamily.holds_constant)]
      · cases hregister
  · split at hregister
    · cases hregister
      rfl
    · cases hregister

theorem names_cloneInto (hforeign : imp.foreign.Regular d.names) :
    (imp.cloneInto (imp.foreign.symbolAt r) home links d).2.names = d.names := by
  unfold Importing.cloneInto
  split
  · split <;> rfl
  · split
    · rfl
    · next y d₁ hregister =>
        exact show d₁.names = d.names from names_registerClone hforeign hregister

theorem names_place (hforeign : imp.foreign.Regular d.names) :
    (imp.place (imp.foreign.symbolAt r) links d).2.names = d.names := by
  have hclone : ∀ home, (imp.cloneInto (imp.foreign.symbolAt r) home links d).2.names = d.names :=
    fun _ => names_cloneInto hforeign
  unfold place
  split
  · rfl
  · simp only
    split
    any_goals first | rfl | exact hclone _
    all_goals
      split
      · rfl
      · exact hclone _

/-! ## Reports -/

/-- What is built in is looked up where it lands in the root. -/
theorem Arranged.place_of_isBuiltin (h : Arranged tables imp base start) (hr : imp.foreign.Holds r)
    (hunlinked : (links.find? r).isSome = false)
    (hbuiltin : imp.foreign.IsBuiltin start.table base r) :
    imp.place (imp.foreign.symbolAt r) links d =
      (linkBuiltin (imp.foreign.symbolAt r) links d, d) := by
  obtain ⟨hbase, hroot⟩ := hbuiltin
  unfold place
  rw [h.trusted.formed.arena.id_eq hr, hunlinked, if_neg Bool.false_ne_true]
  cases hkind : imp.foreign.kindOf r with
  | baseOperator op => simp only [show (imp.foreign.symbolAt r).kind = _ from hkind]
  | baseConstant constant => simp only [show (imp.foreign.symbolAt r).kind = _ from hkind]
  | baseSort sort =>
      have hhome := h.landing? hr (by rw [hkind]; rfl)
      simp only [show (imp.foreign.symbolAt r).kind = _ from hkind]
      rw [if_pos (Option.some.inj (hhome.symm.trans hroot))]
  | _ =>
      rw [hkind] at hbase
      cases hbase

/-- Matches stand wherever the places of foreign symbols are taken, what is built in apart. -/
def Matched (imp : Importing) (base : NamespaceId) (t : Table) : Prop :=
  ∀ ⦃r x⦄, imp.foreign.Holds r → Wanted imp base r → ¬ imp.foreign.IsBuiltin t base r →
    imp.foreign.relocate? t base r = some x →
      imp.foreign.Matches (imp.foreign.symbolAt r) (t.symbolAt x)

section

variable (h : Gathering imp base start links d) (hprep : Arranged tables imp base start)
  (hmatched : Matched imp base start.table)
include h hprep hmatched

/-- Where matches stand, nothing is reported. -/
theorem Gathering.reports_cloneInto (hr : imp.foreign.Holds r) (hwanted : Wanted imp base r)
    (hdeclared : ¬ imp.foreign.IsBuiltin start.table base r)
    (hlanding : imp.foreign.landing? start.table base (imp.foreign.symbolAt r) = some home)
    (hunlinked : (links.find? r).isSome = false) :
    (imp.cloneInto (imp.foreign.symbolAt r) home links d).2.table.reports = d.table.reports := by
  unfold Importing.cloneInto
  split
  · next x hx =>
      have halone := hwanted.dataOf?
      have hfound : imp.foreign.relocate? d.table base r = some x := by
        rw [Table.relocate?_of_not_sort halone, Table.place?, h.later.landing? hlanding]
        exact hx
      have hold : start.table.Holds x := by
        by_contra hnew
        obtain ⟨r', hr'⟩ := h.new_created (h.regular.arena.entry hx).1 hnew
        have hlinked := h.linked (h.created_mem hr')
        obtain rfl := (hprep.foreign_regular h).relocate?_inj h.regular hr hlinked.holds hfound
          hlinked.found
        rw [Links.find?_of_mem (h.created_mem hr')] at hunlinked
        cases hunlinked
      have hsymbol := h.later.symbol hold
      have hsame : imp.isSame (imp.foreign.symbolAt r) (d.table.symbolAt x) = true :=
        isSame_iff.2 ((hmatched hr hwanted hdeclared
          (h.found_start hprep hr hfound hold halone)).congr hsymbol.blank_eq hsymbol.origin_eq)
      rw [if_pos hsame]
  · split
    · rfl
    · next hregister =>
        exact (Table.stable_reports.foldl_adopt ..).trans
          (Table.stable_reports.registerClone hregister)

theorem Gathering.reports_place (hr : imp.foreign.Holds r) :
    (imp.place (imp.foreign.symbolAt r) links d).2.table.reports = d.table.reports := by
  cases hfind : (links.find? r).isSome with
  | true => rw [Importing.place, (hprep.foreign_regular h).arena.id_eq hr, if_pos hfind]
  | false =>
      by_cases hbuiltin : imp.foreign.IsBuiltin start.table base r
      · rw [hprep.place_of_isBuiltin hr hfind hbuiltin]
      · rcases hprep.place_cases (d := d) hr hfind with
          ⟨-, heq⟩ | ⟨hbase, hlanding, -⟩ | ⟨home, hwanted, -, hlanding, heq⟩
        · rw [heq]
        · exact absurd ⟨hbase, hlanding⟩ hbuiltin
        · rw [heq]
          exact h.reports_cloneInto hprep hmatched hr hwanted hbuiltin hlanding hfind

end

/-- Placing all foreign symbols reports nothing where matches stand. -/
theorem Arranged.ends_gather (hprep : Arranged tables imp base start)
    (hmatched : Matched imp base start.table) :
    Draft.Ends (fun d => d.names = start.names ∧ d.table = start.table)
      (imp.foreign.symbols.toList.foldlM imp.placeStep {}) fun links d =>
        Gathering imp base start links d ∧ d.table.reports = start.table.reports := by
  let motive (_ : List Symbol) (links : Links) (d : Draft) : Prop :=
    Gathering imp base start links d ∧ d.table.reports = start.table.reports
  refine (Draft.ends_foldlM (motive := motive) (fun done links s rest hall => ?_) {}).imp ?_
    fun _ _ hd => hd
  · have hs : s ∈ imp.foreign.symbols.toList := by
      rw [hall]
      exact List.mem_append_right _ List.mem_cons_self
    obtain ⟨q, hq, rfl⟩ := Table.mem_symbols_toList.1 hs
    refine Draft.Ends.bind (Q := fun _ => motive done links) ?_ fun _ => ?_
    · exact Draft.ends_tick fun d clock hd => ⟨hd.1.of_clock clock, hd.2⟩
    · exact Draft.ends_modifyGet fun d hd =>
        ⟨(hd.1.place hprep hq).1, (hd.1.reports_place hprep hmatched hq).trans hd.2⟩
  · rintro ⟨names, table, clock⟩ ⟨rfl, rfl⟩
    exact ⟨hprep.gathering.of_clock clock, rfl⟩

end Importing

namespace Table

variable {names : Interner} {foreign t t' : Table} {base : NamespaceId} {rename : Option Name}
  {x : SymbolId} {name : Name}

/-! ## Names of namespaces -/

/-- A namespace that is created has the name that it is created under. -/
theorem mem_namespaceNames_childNamespace {parent : NamespaceId} {child : Name}
    (h : name ∈ (t.childNamespace parent child).2.namespaceNames) :
    name ∈ t.namespaceNames ∨ name = child := by
  unfold childNamespace at h
  split at h
  · exact .inl h
  · rw [namespaceNames, List.map_drop] at h ⊢
    rw [Array.toList_push, List.map_append, map_name_modify, List.drop_append] at h
    · rcases List.mem_append.1 h with h | h
      · exact .inl h
      · exact .inr (List.mem_singleton.1 (List.mem_of_mem_drop h))
    · exact fun _ => rfl

/-- All namespaces that are recreated have foreign names. -/
theorem mem_namespaceNames_recreateNamespaces
    (h : name ∈ (t.recreateNamespaces base foreign).2.namespaceNames) :
    name ∈ t.namespaceNames ∨ name ∈ foreign.namespaceNames := by
  unfold recreateNamespaces at h
  revert h
  refine List.foldlRecOn (motive := fun state : List NamespaceId × Table =>
    name ∈ state.2.namespaceNames → name ∈ t.namespaceNames ∨ name ∈ foreign.namespaceNames)
    _ _ .inl fun state ih node hnode h => ?_
  rcases mem_namespaceNames_childNamespace h with h | rfl
  · exact ih h
  · exact .inr (List.mem_map_of_mem hnode)

/-- The names of namespaces are those of all but the root. -/
theorem mem_namespaceNames : name ∈ t.namespaceNames ↔
    ∃ ns, t.HasNamespace ns ∧ ns ≠ .root ∧ (t.namespaceAt ns).name = name := by
  rw [namespaceNames, List.mem_map]
  constructor
  · rintro ⟨node, hnode, rfl⟩
    obtain ⟨i, hi, rfl⟩ := List.mem_iff_getElem.1 hnode
    rw [List.length_drop, Array.length_toList] at hi
    refine ⟨⟨1 + i⟩, show 1 + i < t.namespaces.size by omega, fun heq => ?_, ?_⟩
    · exact absurd (congrArg NamespaceId.index heq) (by simp [NamespaceId.root])
    · have hlt : 1 + i < t.namespaces.size := by omega
      simp [namespaceAt, hlt, Nat.add_comm i 1]
  · rintro ⟨⟨i⟩, hns, hne, rfl⟩
    have hpos : i ≠ 0 := fun h => hne (congrArg NamespaceId.mk h)
    refine ⟨_, List.mem_iff_getElem.2 ⟨i - 1, ?_, ?_⟩, rfl⟩
    · have hlt : i < t.namespaces.size := hns
      rw [List.length_drop, Array.length_toList]
      omega
    · have hlt : i < t.namespaces.size := hns
      have hi : i - 1 + 1 = i := by omega
      simp [namespaceAt, hlt, hi]

/-! ## What a reference brings -/

/-- The foreign table is received and imported under a renaming. -/
def Brought (foreign t : Table) (rename : Option Name) : Prop :=
  ∃ base ρ, t.descend? .root rename.toList = some base ∧ foreign.Received t base ∧
    foreign.Imported t base ρ

/-- The symbol stands in the place of a foreign one that is imported under a renaming, and goes back
to the same declaration. -/
def Stems (foreign t : Table) (rename : Option Name) (x : SymbolId) : Prop :=
  ∃ base r, t.descend? .root rename.toList = some base ∧ foreign.Holds r ∧
    ¬ (base = .root ∧ foreign.IsRootConvenience r) ∧ foreign.relocate? t base r = some x ∧
      (t.symbolAt x).origin =
        some ((foreign.symbolAt r).origin.getD ⟨foreign.id, (foreign.symbolAt r).id⟩)

theorem Imported.later {ρ : SymbolId → SymbolId} (h : foreign.Imported t base ρ)
    (hlater : t.Later t') : foreign.Imported t' base ρ where
  relocates hr hkept := hlater.relocate? (h.relocates hr hkept)
  copies hr hkept := (h.copies hr hkept).later hlater

theorem Brought.later (h : foreign.Brought t rename) (hlater : t.Later t') :
    foreign.Brought t' rename := by
  obtain ⟨base, ρ, hdescend, hreceived, himported⟩ := h
  exact ⟨base, ρ, hlater.descend? hdescend, hreceived.later hlater, himported.later hlater⟩

theorem Stems.later (h : foreign.Stems t rename x) (hx : t.Holds x) (hlater : t.Later t') :
    foreign.Stems t' rename x := by
  obtain ⟨base, r, hdescend, hr, hkept, hfound, horigin⟩ := h
  exact ⟨base, r, hlater.descend? hdescend, hr, hkept, hlater.relocate? hfound,
    (hlater.symbol hx).origin_eq.trans horigin⟩

end Table

/-- The library has the table for a reference with the renaming. -/
def Library.Lends (library : Library) (references : List ModuleRef) (rename : Option Name)
    (foreign : Table) : Prop :=
  ∃ reference ∈ references, reference.rename = rename ∧
    library.find? reference.module = some foreign

theorem Library.lends_concat {library : Library} {done : List ModuleRef} {reference : ModuleRef}
    {foreign u : Table} {rename : Option Name}
    (hfind : library.find? reference.module = some foreign) :
    library.Lends (done ++ [reference]) rename u ↔
      library.Lends done rename u ∨ rename = reference.rename ∧ u = foreign := by
  constructor
  · rintro ⟨r, hr, rfl, hu⟩
    rcases List.mem_append.1 hr with hr | hr
    · exact .inl ⟨r, hr, rfl, hu⟩
    · obtain rfl := List.mem_singleton.1 hr
      exact .inr ⟨rfl, Option.some.inj (hu.symm.trans hfind)⟩
  · rintro (⟨r, hr, hrename, hu⟩ | ⟨rfl, rfl⟩)
    · exact ⟨r, List.mem_append_left _ hr, hrename, hu⟩
    · exact ⟨reference, List.mem_append_right _ List.mem_cons_self, rfl, hfind⟩

namespace Draft

variable {tables : List Table} {origin start d d' : Draft} {foreign : Table} {rename : Option Name}
  {span : Span} {library : Library} {m : Module} {reference : ModuleRef}
  {references done : List ModuleRef}

/-! ## One import -/

/-- Nothing happened since `origin` but to namespaces and to things other than symbols. -/
structure Readied (tables : List Table) (origin d : Draft) : Prop extends d.Assembled tables where
  names_eq : d.names = origin.names
  later : origin.table.Later d.table
  symbols_eq : d.table.symbols = origin.table.symbols
  reports_eq : d.table.reports = origin.table.reports

/-- What an import without errors leaves. -/
structure Admitted (tables : List Table) (foreign : Table) (rename : Option Name)
    (origin d : Draft) : Prop extends Since tables origin d where
  names_eq : d.names = origin.names
  namespaces : ∀ name ∈ d.table.namespaceNames, name ∈ origin.table.namespaceNames ∨
    name ∈ rename.toList ∨ name ∈ foreign.namespaceNames
  brought : foreign.Brought d.table rename
  covered : ∀ {x}, d.table.Holds x → origin.table.Holds x ∨ foreign.Stems d.table rename x

/-- Placing changes neither the interner nor the namespaces. -/
theorem ends_foldlM_placeStep {imp : Importing} (hforeign : imp.foreign.Regular start.names) :
    Ends (fun d => d.names = start.names ∧ d.table = start.table)
      (imp.foreign.symbols.toList.foldlM imp.placeStep {}) fun _ d =>
        d.names = start.names ∧ d.table.namespaceNames = start.table.namespaceNames := by
  let motive (_ : List Symbol) (_ : Links) (d : Draft) : Prop :=
    d.names = start.names ∧ d.table.namespaceNames = start.table.namespaceNames
  refine (ends_foldlM (motive := motive) (fun done links s rest hall => ?_) {}).imp
    (fun d hd => ⟨hd.1, congrArg _ hd.2⟩) fun _ _ hd => hd
  have hs : s ∈ imp.foreign.symbols.toList := by
    rw [hall]
    exact List.mem_append_right _ List.mem_cons_self
  obtain ⟨r, -, rfl⟩ := Table.mem_symbols_toList.1 hs
  refine (ends_tick fun _ _ hd => hd).bind fun _ => ends_modifyGet fun d hd => ⟨?_, ?_⟩
  · exact (Importing.names_place (hd.1 ▸ hforeign)).trans hd.1
  · exact (Table.stable_namespaceNames.place (fun _ _ => rfl) ..).trans hd.2

/-- The namespaces of a foreign table are laid out under names of its own and the renaming. -/
theorem mem_namespaceNames_layOut {t : Table} {name : Name}
    (h : name ∈ ((t.destination rename).2.recreateNamespaces (t.destination rename).1
      foreign).2.namespaceNames) :
    name ∈ t.namespaceNames ∨ name ∈ rename.toList ∨ name ∈ foreign.namespaceNames := by
  rcases Table.mem_namespaceNames_recreateNamespaces h with h | h
  · cases rename with
    | none => exact .inl h
    | some new =>
        rcases Table.mem_namespaceNames_childNamespace h with h | rfl
        · exact .inl h
        · exact .inr (.inl (List.mem_singleton.2 rfl))
  · exact .inr (.inr h)

/-- The foreign symbols are placed in a table of the same interner, and no namespace has a name from
elsewhere. -/
structure Furnished (tables : List Table) (origin : Draft) (imp : Importing) (rename : Option Name)
    (links : Links) (d : Draft) : Prop where
  names_eq : d.names = origin.names
  namespaces : ∀ name ∈ d.table.namespaceNames, name ∈ origin.table.namespaceNames ∨
    name ∈ rename.toList ∨ name ∈ imp.foreign.namespaceNames
  placed : ∃ base start, Readied tables origin start ∧ Importing.Prepared tables imp base start ∧
    start.table.descend? .root rename.toList = some base ∧
    Importing.Placed imp base start links d ∧ Importing.Matching imp base start.table links d.table

/-- Writing to the clones completes the import. -/
theorem Furnished.admitted {imp : Importing} {links : Links}
    (h : Furnished tables origin imp rename links d) {t' : Table}
    (hfill : links.created.reverse.foldlM (Importing.fillClone imp.foreign links)
      d.table = .ok t') :
    Admitted tables imp.foreign rename origin { d with table := t' } := by
  obtain ⟨base, start, hready, hprep, hdescend, hplaced, hmatching⟩ := h.placed
  obtain ⟨htouched, -⟩ := hplaced.filled hfill
  have hlater := hplaced.later_filled htouched
  have hdescend' := hlater.descend? hdescend
  have himported := hplaced.imported hprep hfill
  refine ⟨⟨hplaced.assembled hprep hfill, hready.later.trans hlater⟩, h.names_eq, ?_,
    ⟨base, _, hdescend', hplaced.received hprep hmatching hfill, himported⟩, fun {x} hx => ?_⟩
  · have hkept : t'.namespaceNames = d.table.namespaceNames :=
      foldlM_ok_induct (motive := fun t => t.namespaceNames = d.table.namespaceNames) hfill rfl
        fun _ _ _ _ h hstep => (Table.stable_namespaceNames.fillClone hstep).trans h
    exact hkept ▸ h.namespaces
  · rcases hplaced.symbol_cases hprep hfill hx with ⟨hold, -⟩ | ⟨r, hclone⟩
    · rw [Table.Holds, hready.symbols_eq] at hold
      exact .inl hold
    · refine .inr ⟨base, r, hdescend', hclone.holds, hclone.kept, ?_, ?_⟩
      · exact (himported.relocates hclone.holds hclone.kept).trans (congrArg some hclone.standsIn)
      · exact hclone.origin

/-- The dependencies of the foreign table are noted first. -/
theorem Assembled.readied_absorb (h : origin.Assembled tables) (foreign : Table) :
    Readied tables origin { origin with table := origin.table.absorb foreign } :=
  ⟨h.of_later rfl (h.formed.toRegular.of_eq rfl rfl) (.of_eq rfl rfl rfl), rfl,
    .of_eq rfl rfl rfl, rfl, rfl⟩

/-- Then the namespaces are laid out. -/
theorem Readied.layOut (h : Readied tables origin d) (hforeign : foreign.Tree)
    (rename : Option Name) :
    Readied tables origin { d with table := ((d.table.destination rename).2.recreateNamespaces
        (d.table.destination rename).1 foreign).2 } ∧
      Table.Laid d.names foreign rename d.table
        ((d.table.destination rename).2.recreateNamespaces (d.table.destination rename).1 foreign).2
        ((d.table.destination rename).2.recreateNamespaces
          (d.table.destination rename).1 foreign).1 := by
  have hlaid := h.formed.toRegular.laid hforeign rename
  refine ⟨⟨h.of_later hlaid.symbols_eq hlaid.regular hlaid.later, h.names_eq,
    h.later.trans hlaid.later, hlaid.symbols_eq.trans h.symbols_eq, ?_⟩, hlaid⟩
  refine (Table.reports_recreateNamespaces ..).trans ?_
  cases rename with
  | none => exact h.reports_eq
  | some name => exact (Table.reports_childNamespace ..).trans h.reports_eq

section

variable (hmem : foreign ∈ tables) (hvalid : foreign.isValid = true)
include hmem hvalid

/-- An import without errors. -/
theorem establishes_embed_admitted (h : origin.Assembled tables) :
    Establishes (· = origin) (embed foreign rename span)
      fun _ => Admitted tables foreign rename origin := by
  refine Establishes.bind (Q := fun _ d => Readied tables origin d ∧
    d.table.namespaceNames = origin.table.namespaceNames) ?_ fun _ => ?_
  · refine establishes_modify (proceeds_absorb foreign) fun d hd _ => ?_
    subst hd
    exact ⟨h.readied_absorb foreign, rfl⟩
  refine Establishes.bind (Q := fun homes d => Readied tables origin d ∧
    (∀ name ∈ d.table.namespaceNames, name ∈ origin.table.namespaceNames ∨
      name ∈ rename.toList ∨ name ∈ foreign.namespaceNames) ∧
    ∃ t, Table.Laid d.names foreign rename t d.table homes) ?_ fun homes => ?_
  · refine establishes_modifyGet (proceeds_layOut foreign rename) fun d hd _ => ?_
    obtain ⟨hready, hnames⟩ := hd
    obtain ⟨hready', hlaid⟩ :=
      hready.layOut (hready.archive.trusted hmem hvalid).formed.tree rename
    have hnamed := fun name (hname : name ∈ ((d.table.destination rename).2.recreateNamespaces
      (d.table.destination rename).1 foreign).2.namespaceNames) =>
        hnames ▸ mem_namespaceNames_layOut hname
    cases rename <;> exact ⟨hready', hnamed, d.table, hlaid⟩
  refine establishes_getTable_bind fun t => ?_
  refine Establishes.bind (Q := fun links d => Furnished tables origin
    { foreign, location := ⟨t.file, span⟩, homes } rename links d) ?_ fun links => ?_
  · refine ⟨proceeds_foldlM _ (proceeds_placeStep _) _, fun {d links d'} hd hrun hclean => ?_⟩
    obtain ⟨⟨hready, hnamed, _, hlaid⟩, -⟩ := hd
    obtain ⟨start, base, hbase, hdescend, hrecreated⟩ := hlaid.recreated
    have hprep := hready.prepared hmem hvalid hbase hrecreated ⟨t.file, span⟩
    obtain ⟨hnames, hkept⟩ := ends_foldlM_placeStep hprep.trusted.formed.toRegular d links d'
      ⟨rfl, rfl⟩ hrun
    exact ⟨hnames.trans hready.names_eq, hkept ▸ hnamed, base, d, hready, hprep, hdescend,
      hprep.establishes_placed.run ⟨rfl, rfl⟩ hrun hclean,
      hprep.arranged.ends_matching d links d' ⟨rfl, rfl⟩ hrun⟩
  refine Establishes.bind (Q := fun _ => Admitted tables foreign rename origin) ?_ fun _ => ?_
  · exact establishes_tryModifyTable (proceeds_fillClones ..) fun d table hd hfill _ =>
      hd.admitted hfill
  refine establishes_getNames_bind fun names => ?_
  refine establishes_tryModifyTable (proceeds_verify ..) fun d table hd hverify _ => ?_
  obtain ⟨_, _, hreturn⟩ := except_bind_eq_ok.1 hverify
  cases hreturn
  exact hd.1

/-- Matches stand in the places that an import is going to look at. -/
def Welcomes (tables : List Table) (foreign : Table) (rename : Option Name)
    (origin : Draft) : Prop :=
  ∀ ⦃imp : Importing⦄ ⦃base : NamespaceId⦄ ⦃start : Draft⦄, imp.foreign = foreign →
    Readied tables origin start → start.table.descend? .root rename.toList = some base →
      Importing.Arranged tables imp base start → Importing.Matched imp base start.table

/-- An import that finds matches reports nothing. -/
theorem Assembled.reports_embed (h : origin.Assembled tables)
    (hwelcomes : Welcomes tables foreign rename origin) :
    Ends (· = origin) (embed foreign rename span) fun _ d =>
      d.table.reports = origin.table.reports := by
  refine Ends.bind (Q := fun _ => Readied tables origin) ?_ fun _ => ?_
  · exact ends_modifyTable fun d hd => hd ▸ h.readied_absorb foreign
  refine Ends.bind (Q := fun homes d => Readied tables origin d ∧
    ∃ t, Table.Laid d.names foreign rename t d.table homes) ?_ fun homes => ?_
  · refine ends_modifyGet fun d hd => ?_
    obtain ⟨hready, hlaid⟩ := hd.layOut (hd.archive.trusted hmem hvalid).formed.tree rename
    cases rename <;> exact ⟨hready, d.table, hlaid⟩
  refine ends_getTable_bind fun t => ?_
  refine Ends.bind (Q := fun _ d => d.table.reports = origin.table.reports) ?_ fun links => ?_
  · rintro d links d' ⟨⟨hready, _, hlaid⟩, -⟩ hrun
    obtain ⟨start, base, hbase, hdescend, hrecreated⟩ := hlaid.recreated
    have hprep := hready.prepared hmem hvalid hbase hrecreated ⟨t.file, span⟩
    obtain ⟨-, hreports⟩ := hprep.arranged.ends_gather 
      (hwelcomes rfl hready hdescend hprep.arranged) d links d' ⟨rfl, rfl⟩ hrun
    exact hreports.trans hready.reports_eq
  refine Ends.bind (Q := fun _ d => d.table.reports = origin.table.reports) ?_ fun _ => ?_
  · refine ends_tryModifyTable fun d table hd hfill => ?_
    exact foldlM_ok_induct (motive := fun t => t.reports = origin.table.reports) hfill hd
      fun _ _ _ _ h hstep => (Table.stable_reports.fillClone hstep).trans h
  refine ends_getNames_bind fun names => ends_tryModifyTable fun d table hd hverify => ?_
  obtain ⟨_, _, hreturn⟩ := except_bind_eq_ok.1 hverify
  cases hreturn
  exact hd.1

end

/-! ## All imports of a module -/

/-- What a table is compiled from: each reference names a table that suits it and is imported, and
nothing else is added to `initial`. -/
structure Compiled (tables : List Table) (library : Library) (initial : Draft)
    (references : List ModuleRef) (d : Draft) : Prop extends Since tables initial d where
  names_eq : d.names = initial.names
  kind_eq : d.table.kind = initial.table.kind
  mapped : d.table.Mapped
  fits : ∀ reference ∈ references, ∃ foreign, library.find? reference.module = some foreign ∧
    foreign.Fits initial.names initial.table.kind reference
  lent : ∀ {rename foreign}, library.Lends references rename foreign →
    foreign ∈ tables ∧ foreign.isValid = true
  brought : ∀ {rename foreign}, library.Lends references rename foreign →
    foreign.Brought d.table rename
  depends : ∀ {entry}, entry ∈ d.table.dependencies.toList ↔
    entry ∈ initial.table.dependencies.toList ∨ ∃ rename foreign,
      library.Lends references rename foreign ∧ entry ∈ foreign.dependencies.toList
  namespaces : ∀ name ∈ d.table.namespaceNames, name ∈ initial.table.namespaceNames ∨
    ∃ rename foreign, library.Lends references rename foreign ∧
      (name ∈ rename.toList ∨ name ∈ foreign.namespaceNames)
  covered : ∀ {x}, d.table.Holds x → initial.table.Holds x ∨
    ∃ rename foreign, library.Lends references rename foreign ∧ foreign.Stems d.table rename x

/-- Before the first import nothing is brought in. -/
theorem compiled_nil {initial : Draft} (h : initial.Assembled tables)
    (hmapped : initial.table.Mapped) : Compiled tables library initial [] initial where
  toAssembled := h
  later := .refl _
  names_eq := rfl
  kind_eq := rfl
  mapped := hmapped
  fits _ hreference := absurd hreference List.not_mem_nil
  lent := by
    rintro _ _ ⟨_, hreference, -⟩
    exact absurd hreference List.not_mem_nil
  brought := by
    rintro _ _ ⟨_, hreference, -⟩
    exact absurd hreference List.not_mem_nil
  depends := by
    refine ⟨.inl, ?_⟩
    rintro (hentry | ⟨_, _, ⟨_, hreference, -⟩, -⟩)
    · exact hentry
    · exact absurd hreference List.not_mem_nil
  namespaces _ hname := .inl hname
  covered hx := .inl hx

section

variable {initial : Draft}

theorem Compiled.of_clock (h : Compiled tables library initial references d) (clock : Clock) :
    Compiled tables library initial references { d with clock } :=
  { h with toSince := h.toSince.of_clock clock }

/-- One import more. -/
theorem Compiled.step (h : Compiled tables library initial done d)
    (hlibrary : ∀ entry ∈ library.tables, entry.2 ∈ tables ∧ entry.2.Mapped)
    (hrun : importReference library m reference d = .ok () d')
    (hclean : d'.table.hasErrors = false) :
    Compiled tables library initial (done ++ [reference]) d' := by
  obtain ⟨foreign, hfind⟩ := find?_of_importReference hrun hclean
  obtain ⟨hrefusal, clock, hembed⟩ := embed_of_importReference hfind hrun hclean
  obtain ⟨hmem, hforeign⟩ := hlibrary _ (Library.mem_of_find? hfind)
  obtain ⟨hfits, hclash⟩ := Table.importRefusal?_eq_none_iff_fits.1 hrefusal
  rw [h.names_eq, h.kind_eq] at hfits
  have hadmitted := (establishes_embed_admitted hmem hfits.valid
    (h.toAssembled.of_clock clock)).run rfl hembed hclean
  have hnotes : d'.table.notes = (d.table.absorb foreign).notes :=
    notes_embed (d := { d with clock }) hembed
  have hdependencies : d'.table.dependencies = (d.table.absorb foreign).dependencies :=
    congrArg Notes.dependencies hnotes
  obtain ⟨hmapped, hmem'⟩ := Table.absorbed h.mapped hforeign hclash
  -- The tables lent so far are those lent before and the one imported now.
  have hlends : ∀ {rename u}, library.Lends (done ++ [reference]) rename u ↔
      library.Lends done rename u ∨ rename = reference.rename ∧ u = foreign :=
    Library.lends_concat hfind
  have hthis : library.Lends (done ++ [reference]) reference.rename foreign :=
    hlends.2 (.inr ⟨rfl, rfl⟩)
  exact
    { toAssembled := hadmitted.toAssembled
      later := h.later.trans hadmitted.later
      names_eq := hadmitted.names_eq.trans h.names_eq
      kind_eq := (congrArg Notes.kind hnotes).trans h.kind_eq
      mapped := by rwa [Table.Mapped, hdependencies]
      fits := fun r hr => by
        rcases List.mem_append.1 hr with hr | hr
        · exact h.fits r hr
        · obtain rfl := List.mem_singleton.1 hr
          exact ⟨foreign, hfind, hfits⟩
      lent := fun hu => by
        rcases hlends.1 hu with hu | ⟨rfl, rfl⟩
        · exact h.lent hu
        · exact ⟨hmem, hfits.valid⟩
      brought := fun hu => by
        rcases hlends.1 hu with hu | ⟨rfl, rfl⟩
        · exact (h.brought hu).later hadmitted.later
        · exact hadmitted.brought
      depends := fun {entry} => by
        rw [hdependencies, hmem', h.depends]
        constructor
        · rintro ((hold | ⟨rename, u, hu, hentry⟩) | hentry)
          · exact .inl hold
          · exact .inr ⟨rename, u, hlends.2 (.inl hu), hentry⟩
          · exact .inr ⟨_, _, hthis, hentry⟩
        · rintro (hold | ⟨rename, u, hu, hentry⟩)
          · exact .inl (.inl hold)
          · rcases hlends.1 hu with hu | ⟨rfl, rfl⟩
            · exact .inl (.inr ⟨rename, u, hu, hentry⟩)
            · exact .inr hentry
      namespaces := fun name hname => by
        rcases hadmitted.namespaces name hname with hold | hnew
        · refine (h.namespaces name hold).imp_right ?_
          rintro ⟨rename, u, hu, hname⟩
          exact ⟨rename, u, hlends.2 (.inl hu), hname⟩
        · exact .inr ⟨_, _, hthis, hnew⟩
      covered := fun {x} hx => by
        rcases hadmitted.covered hx with hold | hnew
        · refine (h.covered hold).imp_right ?_
          rintro ⟨rename, u, hu, hstems⟩
          exact ⟨rename, u, hlends.2 (.inl hu), hstems.later hold hadmitted.later⟩
        · exact .inr ⟨_, _, hthis, hnew⟩ }

/-- Imports without errors compile a table. -/
theorem establishes_compiled (hlibrary : ∀ entry ∈ library.tables, entry.2 ∈ tables ∧
    entry.2.Mapped)
    (h : initial.Assembled tables) (hmapped : initial.table.Mapped) :
    Establishes (· = initial) (references.forM (importReference library m)) fun _ =>
      Compiled tables library initial references := by
  refine (establishes_forM (motive := Compiled tables library initial)
    fun done reference rest => ?_).imp (fun d hd => ?_) fun _ _ hd => hd
  · exact ⟨proceeds_importReference library m reference, fun hd hrun hclean =>
      hd.step hlibrary hrun hclean⟩
  · subst hd
    exact compiled_nil h hmapped

end

end Draft

end ManySorted
