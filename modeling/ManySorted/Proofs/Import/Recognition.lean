import ManySorted.Proofs.Draft.Ending
import ManySorted.Proofs.Import.Embed

/-!
# What an import recognises

A foreign symbol is looked up by name, and what is found stands for it if both go back to one
declaration (`Table.Matches`).  After an import without errors, what stands in the place of a
foreign symbol is such a match, whether it was cloned or there before; only what is built in is
found by its name alone.  So the foreign table is received as a whole (`Table.Received`), and it
stays so whatever is imported afterwards (`Received.later`).

## Strategy

* **Links lead to matches.**  A clone goes back to the same declaration, and what is used instead of
  one does so as well (`Importing.Gathering.matching_place`).
* **Places.**  What is linked stands in the place of its foreign symbol, so after writing the
  foreign table is received (`Importing.Placed.received`).
* **Later.**  What stands in a place stays there with its origin (`Table.Received.later`), so the
  foreign table stays received.
* **Two parts of an import.**  Placing and writing are told apart, since a second import does the
  first part only (`Draft.takeIn`, `Draft.finish`, `Draft.embed_eq`).
-/

namespace ManySorted

namespace Table

variable {names : Interner} {tables : List Table} {foreign t t' : Table} {base : NamespaceId}
  {r : SymbolId} {s existing existing' : Symbol}

/-- The existing symbol goes back to the declaration of the foreign one, or both merge in the
root. -/
def Matches (foreign : Table) (s existing : Symbol) : Prop :=
  existing.origin = some (s.origin.getD ⟨foreign.id, s.id⟩) ∨
    s.kind.mergesIntoRoot = true ∧ existing.kind.mergesIntoRoot = true ∧ s.arity = existing.arity

/-- Forms and sizes play no part. -/
theorem Matches.congr (h : foreign.Matches s existing) (hblank : existing'.blank = existing.blank)
    (horigin : existing'.origin = existing.origin) : foreign.Matches s existing' := by
  rw [Matches, horigin, Symbol.arity_of_blank hblank,
    ← SymbolKind.mergesIntoRoot_unsized existing'.kind, Symbol.kind_of_blank hblank,
    SymbolKind.mergesIntoRoot_unsized]
  exact h

/-- The foreign symbol is built in and lands where what is built in lives. -/
def IsBuiltin (foreign t : Table) (base : NamespaceId) (r : SymbolId) : Prop :=
  (foreign.kindOf r).isBase = true ∧
    foreign.landing? t base (foreign.symbolAt r) = some .root

/-- The namespaces of the foreign table are there below `base`, and in the places of its symbols
stands what matches them. -/
structure Received (foreign t : Table) (base : NamespaceId) : Prop where
  hasNamespace : t.HasNamespace base
  laid : ∀ {ns}, foreign.HasNamespace ns → ∃ home, t.descend? base (foreign.path ns) = some home
  matched : ∀ {r}, foreign.Holds r → (foreign.kindOf r).isCompanion = false →
    ¬ (base = .root ∧ foreign.IsRootConvenience r) → ¬ foreign.IsBuiltin t base r →
      ∃ x, t.Holds x ∧ foreign.Linked t base r x ∧
        foreign.Matches (foreign.symbolAt r) (t.symbolAt x)

/-- What is received stays. -/
theorem Received.later (h : foreign.Received t base) (hlater : t.Later t') :
    foreign.Received t' base where
  hasNamespace := hlater.hasNamespace h.hasNamespace
  laid hns := (h.laid hns).imp fun _ hhome => hlater.descend? hhome
  matched {r} hr halone hkept hdeclared := by
    obtain ⟨x, hx, hlinked, hmatches⟩ := h.matched hr halone hkept fun hbuiltin =>
      hdeclared ⟨hbuiltin.1, hlater.landing? hbuiltin.2⟩
    have hsymbol := hlater.symbol hx
    exact ⟨x, hlater.holds hx, hlinked.later hx hlater,
      hmatches.congr hsymbol.blank_eq hsymbol.origin_eq⟩

end Table

namespace Importing

variable {tables : List Table} {imp : Importing} {base : NamespaceId} {start d d' : Draft}
  {t' : Table} {links : Links} {r x : SymbolId} {s existing : Symbol}

theorem isSame_iff : imp.isSame s existing = true ↔ imp.foreign.Matches s existing := by
  simp only [isSame, originOf, Table.Matches, Bool.or_eq_true, Bool.and_eq_true, beq_iff_eq,
    and_assoc]

/-- What the links lead to matches, companions and what is built in apart. -/
def Matching (imp : Importing) (base : NamespaceId) (start : Table) (links : Links) (t : Table) :
    Prop :=
  ∀ {p}, p ∈ links.ids → (imp.foreign.kindOf p.1).isCompanion = false →
    ¬ imp.foreign.IsBuiltin start base p.1 →
      imp.foreign.Matches (imp.foreign.symbolAt p.1) (t.symbolAt p.2)

/-- Only the first of a family is no companion. -/
theorem eq_of_mem_family {names : Interner} (hforeign : imp.foreign.Regular names)
    (ht : d.table.Regular names) (hlinked : imp.foreign.Linked d.table base r x)
    (hx : d.table.Holds x) {p : SymbolId × SymbolId}
    (hp : p ∈ family (imp.foreign.symbolAt r) (d.table.symbolAt x))
    (halone : (imp.foreign.kindOf p.1).isCompanion = false) : p = (r, x) := by
  rcases family_cases hforeign ht hlinked hx with
    ⟨-, hsingle⟩ | ⟨shape, info, info', hkind, -, -, -, htriple⟩
  · rw [hsingle] at hp
    exact List.mem_singleton.1 hp
  · have hfamily := hforeign.families.data hkind
    rw [htriple] at hp
    simp only [List.mem_cons, List.not_mem_nil, or_false] at hp
    rcases hp with rfl | rfl | rfl
    · rfl
    · obtain ⟨size, hsort⟩ := SymbolKind.unsized_eq_userSort.1 hfamily.sort_kind
      rw [hsort] at halone
      cases halone
    · rw [hfamily.constant_kind] at halone
      cases halone

section

variable (h : Gathering imp base start links d) (hprep : Arranged tables imp base start)
  (hmatching : Matching imp base start.table links d.table)
include h hprep hmatching

theorem Gathering.matching_cloneInto (hr : imp.foreign.Holds r) (hwanted : Wanted imp base r)
    {home : NamespaceId}
    (hlanding : imp.foreign.landing? start.table base (imp.foreign.symbolAt r) = some home)
    (hunlinked : (links.find? r).isSome = false) :
    Matching imp base start.table (imp.cloneInto (imp.foreign.symbolAt r) home links d).1
      (imp.cloneInto (imp.foreign.symbolAt r) home links d).2.table := by
  rcases h.cloneInto_cases hprep hr hwanted hlanding hunlinked with
    ⟨previous, heq⟩ | ⟨x, -, hlinked, hold, hsame, heq⟩ | ⟨news, d', heq, hcloned⟩
  · rw [heq]
    exact hmatching
  · rw [heq, foldl_link]
    intro p hp halone hdeclared
    rcases List.mem_append.1 hp with hp | hp
    · obtain rfl := eq_of_mem_family (hprep.foreign_regular h) h.regular hlinked
        (h.later.holds hold) (List.mem_reverse.1 hp) halone
      exact isSame_iff.1 hsame
    · exact hmatching hp halone hdeclared
  · rw [heq]
    intro p hp halone hdeclared
    rcases List.mem_append.1 hp with hp | hp
    · exact .inl (hcloned.fresh (List.mem_reverse.1 hp)).2.2.1
    · have hsymbol := hcloned.later.symbol (h.holds (hprep.foreign_regular h) hp)
      exact (hmatching hp halone hdeclared).congr hsymbol.blank_eq hsymbol.origin_eq

theorem Gathering.matching_place (hr : imp.foreign.Holds r) :
    Matching imp base start.table (imp.place (imp.foreign.symbolAt r) links d).1
      (imp.place (imp.foreign.symbolAt r) links d).2.table := by
  cases hfind : (links.find? r).isSome with
  | true =>
      rw [Importing.place, (hprep.foreign_regular h).arena.id_eq hr, if_pos hfind]
      exact hmatching
  | false =>
      rcases hprep.place_cases (d := d) hr hfind with
        ⟨-, heq⟩ | ⟨hbase, hlanding, heq⟩ | ⟨home, hwanted, -, hlanding, heq⟩
      · rw [heq]
        exact hmatching
      · obtain ⟨x, hx, -, -, hlinked, hfound⟩ := hprep.linked_builtin hr hbase hlanding
        rw [heq, h.linkBuiltin_eq hprep hr hbase hx hfound, foldl_link]
        intro p hp halone hdeclared
        rcases List.mem_append.1 hp with hp | hp
        · obtain rfl := eq_of_mem_family (hprep.foreign_regular h) h.regular
            (hlinked.later hx h.later) (h.later.holds hx) (List.mem_reverse.1 hp) halone
          exact absurd ⟨hbase, hlanding⟩ hdeclared
        · exact hmatching hp halone hdeclared
      · rw [heq]
        exact h.matching_cloneInto hprep hmatching hr hwanted hlanding hfind

end

/-- Placing the foreign symbols links them to matches. -/
theorem Arranged.ends_matching (hprep : Arranged tables imp base start) :
    Draft.Ends (fun d => d.names = start.names ∧ d.table = start.table)
      (imp.foreign.symbols.toList.foldlM imp.placeStep {}) fun links d =>
        Matching imp base start.table links d.table := by
  let motive (_ : List Symbol) (links : Links) (d : Draft) : Prop :=
    Gathering imp base start links d ∧ Matching imp base start.table links d.table
  refine (Draft.ends_foldlM (motive := motive) (fun done links s rest hall => ?_) {}).imp ?_
    fun _ _ hd => hd.2
  · have hs : s ∈ imp.foreign.symbols.toList := by
      rw [hall]
      exact List.mem_append_right _ List.mem_cons_self
    obtain ⟨q, hq, rfl⟩ := Table.mem_symbols_toList.1 hs
    refine Draft.Ends.bind (Q := fun _ => motive done links) ?_ fun _ => ?_
    · exact Draft.ends_tick fun d clock hd => ⟨hd.1.of_clock clock, hd.2⟩
    · exact Draft.ends_modifyGet fun d hd =>
        ⟨(hd.1.place hprep hq).1, hd.1.matching_place hprep hd.2 hq⟩
  · rintro ⟨names, table, clock⟩ ⟨rfl, rfl⟩
    exact ⟨hprep.gathering.of_clock clock, fun hp => absurd hp List.not_mem_nil⟩

/-- After writing to the clones the foreign table is received. -/
theorem Placed.received (h : Placed imp base start links d)
    (hprep : Prepared tables imp base start)
    (hmatching : Matching imp base start.table links d.table)
    (hfill : links.created.reverse.foldlM (fillClone imp.foreign links) d.table = .ok t') :
    imp.foreign.Received t' base := by
  obtain ⟨htouched, hfilled⟩ := h.filled hfill
  have hlater := h.later_filled htouched
  have horigin : ∀ x, (t'.symbolAt x).origin = (d.table.symbolAt x).origin := by
    intro x
    by_cases hx : x ∈ links.created.map Prod.snd
    · obtain ⟨p, hp, rfl⟩ := List.mem_map.1 hx
      exact (hfilled p hp).origin_eq
    · rw [htouched.same hx]
  refine ⟨hlater.hasNamespace hprep.base_mem, fun hns => ⟨_, hlater.descend? (hprep.homes hns)⟩,
    fun {r} hr halone hkept hdeclared => ?_⟩
  obtain ⟨x, hx⟩ := h.complete hr hkept
  have hmem := Links.mem_of_find? hx
  refine ⟨x, (htouched.holds x).2 (h.holds (hprep.foreign_regular h.toPlacing) hmem),
    linked_touched htouched (h.linked hmem), ?_⟩
  refine (hmatching hmem halone fun hbuiltin => ?_).congr (htouched.blank x) (horigin x)
  exact hdeclared ⟨hbuiltin.1, hlater.landing? hbuiltin.2⟩

end Importing

namespace Draft

variable {tables : List Table} {origin d d' : Draft} {foreign : Table} {rename : Option Name}
  {span : Span} {reference : ModuleRef} {library : Library}

/-- A table that is put together by imports, some of them after `origin`. -/
structure Since (tables : List Table) (origin d : Draft) : Prop extends d.Assembled tables where
  later : origin.table.Later d.table

theorem Since.of_clock (h : Since tables origin d) (clock : Clock) :
    Since tables origin { d with clock } := ⟨h.toAssembled.of_clock clock, h.later⟩

theorem Since.of_later (h : Since tables origin d) {t : Table}
    (hsymbols : t.symbols = d.table.symbols) (hregular : t.Regular d.names)
    (hlater : d.table.Later t) : Since tables origin { d with table := t } :=
  ⟨h.toAssembled.of_later hsymbols hregular hlater, h.later.trans hlater⟩

/-- The first part of an import: the foreign symbols are placed below the destination. -/
def takeIn (foreign : Table) (rename : Option Name) (span : Span) : DraftM Links := do
  modifyTable (·.absorb foreign)
  let homes ← modifyGet fun d =>
    let (destination, table) :=
      match rename with
      | some name => d.table.childNamespace .root name
      | none => (.root, d.table)
    let (homes, table) := table.recreateNamespaces destination foreign
    (homes, { d with table })
  let imp : Importing := { foreign, location := ⟨(← getTable).file, span⟩, homes }
  foreign.symbols.toList.foldlM imp.placeStep {}

/-- The second part: the forms and sizes of the clones are written, and their places looked at. -/
def finish (foreign : Table) (rename : Option Name) (links : Links) : DraftM Unit := do
  tryModifyTable fun t => links.created.reverse.foldlM (Importing.fillClone foreign links) t
  let names ← getNames
  tryModifyTable fun t => do
    links.created.reverse.forM (Importing.verify names t foreign rename)
    return t

theorem embed_eq (foreign : Table) (rename : Option Name) (span : Span) :
    embed foreign rename span = takeIn foreign rename span >>= finish foreign rename := by
  unfold embed takeIn
  simp only [bind_assoc]
  rfl

/-- The foreign symbols are placed in a table that grew out of that of `origin`. -/
def PlacedSince (tables : List Table) (foreign : Table) (rename : Option Name) (origin : Draft)
    (links : Links) (d : Draft) : Prop :=
  ∃ imp base start, imp.foreign = foreign ∧ Since tables origin start ∧
    Importing.Prepared tables imp base start ∧
    start.table.descend? .root rename.toList = some base ∧
    Importing.Placed imp base start links d ∧
    Importing.Matching imp base start.table links d.table

theorem establishes_takeIn (hmem : foreign ∈ tables) (hvalid : foreign.isValid = true) :
    Establishes (Since tables origin) (takeIn foreign rename span)
      (PlacedSince tables foreign rename origin) := by
  refine Establishes.bind (Q := fun _ => Since tables origin) ?_ fun _ => ?_
  · exact establishes_modify (proceeds_absorb foreign) fun d hd _ =>
      hd.of_later rfl (hd.formed.toRegular.of_eq rfl rfl) (.of_eq rfl rfl rfl)
  refine Establishes.bind (Q := fun homes d => Since tables origin d ∧
    ∃ t, Table.Laid d.names foreign rename t d.table homes) ?_ fun homes => ?_
  · refine establishes_modifyGet (proceeds_layOut foreign rename) fun d hd _ => ?_
    have hlaid := hd.formed.toRegular.laid (hd.archive.trusted hmem hvalid).formed.tree rename
    cases rename <;>
      exact ⟨hd.of_later hlaid.symbols_eq hlaid.regular hlaid.later, d.table, hlaid⟩
  refine establishes_getTable_bind fun t => ?_
  refine ⟨proceeds_foldlM _ (proceeds_placeStep _) _, fun {d links d'} hd hrun hclean => ?_⟩
  obtain ⟨⟨hsince, _, hlaid⟩, _⟩ := hd
  obtain ⟨start, base, hbase, hdescend, hrecreated⟩ := hlaid.recreated
  have hprep := hsince.prepared hmem hvalid hbase hrecreated ⟨t.file, span⟩
  exact ⟨_, base, d, rfl, hsince, hprep, hdescend, hprep.establishes_placed.run ⟨rfl, rfl⟩
    hrun hclean,
    hprep.arranged.ends_matching d links d' ⟨rfl, rfl⟩ hrun⟩

/-- After writing to the clones the foreign table is received, and what is linked stands in the
place of its foreign symbol. -/
structure Received (tables : List Table) (foreign : Table) (rename : Option Name)
    (origin : Draft) (links : Links) (d : Draft) : Prop extends Since tables origin d where
  received : ∃ base, d.table.descend? .root rename.toList = some base ∧
    foreign.Received d.table base ∧
    ∀ {r x}, (r, x) ∈ links.ids → d.table.Holds x ∧ foreign.Linked d.table base r x

theorem establishes_finish {links : Links} :
    Establishes (PlacedSince tables foreign rename origin links) (finish foreign rename links)
      fun _ => Received tables foreign rename origin links := by
  refine Establishes.bind (Q := fun _ => Received tables foreign rename origin links) ?_ fun _ => ?_
  · refine establishes_tryModifyTable (proceeds_fillClones ..) fun d table hd hfill _ => ?_
    obtain ⟨imp, base, start, rfl, hsince, hprep, hdescend, hplaced, hmatching⟩ := hd
    obtain ⟨htouched, -⟩ := hplaced.filled hfill
    have hlater := hplaced.later_filled htouched
    refine ⟨⟨hplaced.assembled hprep hfill, hsince.later.trans hlater⟩, base,
      hlater.descend? hdescend, hplaced.received hprep hmatching hfill, fun hmem => ?_⟩
    exact ⟨(htouched.holds _).2 (hplaced.holds (hprep.foreign_regular hplaced.toPlacing) hmem),
      Importing.linked_touched htouched (hplaced.linked hmem)⟩
  refine establishes_getNames_bind fun names => ?_
  refine establishes_tryModifyTable (proceeds_verify ..) fun d table hd hverify _ => ?_
  obtain ⟨_, _, hreturn⟩ := except_bind_eq_ok.1 hverify
  cases hreturn
  exact hd.1

theorem importModule_eq_embed
    (h : d.table.importRefusal? d.names reference foreign = none) :
    importModule reference foreign d = embed foreign reference.rename reference.span d := by
  rw [importModule, get_bind, h]

/-- An import that reports no error was not refused. -/
theorem importRefusal?_eq_none_of_clean (ran : importModule reference foreign d = .ok () d')
    (clean : d'.table.hasErrors = false) :
    d.table.importRefusal? d.names reference foreign = none := by
  refine Table.importRefusal?_eq_none_iff.2 fun hrefuses => ?_
  obtain ⟨problem, hgrave, hrun⟩ := importModule_of_refuses hrefuses
  cases ran.symm.trans hrun
  rw [Table.hasErrors, List.any_append, Bool.or_eq_false_iff] at clean
  simp [Report.isWarning, hgrave] at clean

/-- An import without errors receives the foreign table. -/
theorem establishes_embed_received (hmem : foreign ∈ tables) (hvalid : foreign.isValid = true) :
    Establishes (Since tables origin) (embed foreign rename span)
      fun _ d => ∃ links, Received tables foreign rename origin links d := by
  rw [embed_eq]
  exact (establishes_takeIn hmem hvalid).bind fun links =>
    establishes_finish.imp (fun _ hd => hd) fun _ _ hd => ⟨links, hd⟩

theorem establishes_importModule_received (reference : ModuleRef) (hmem : foreign ∈ tables) :
    Establishes (Since tables origin) (importModule reference foreign) fun _ d =>
      ∃ links, Received tables foreign reference.rename origin links d := by
  refine establishes_get_bind fun start => ?_
  cases hrefusal : start.table.importRefusal? start.names reference foreign with
  | some problem =>
      refine ⟨proceeds_report .., fun {d a d'} hd hrun hclean => ?_⟩
      have hwarning := Table.isWarning_of_importRefusal? hrefusal
      cases hrun
      rw [Table.hasErrors_report, Report.isWarning, hwarning, Bool.or_eq_false_iff] at hclean
      cases hclean.2
  | none =>
      exact (establishes_embed_received hmem (Table.isValid_of_importRefusal? hrefusal)).imp
        (fun d hd => hd.1) fun _ d hd => hd

/-- Imports without errors keep what was there. -/
theorem establishes_imports_since (hlibrary : ∀ entry ∈ library.tables, entry.2 ∈ tables)
    (m : Module) (references : List ModuleRef) :
    Establishes (Since tables origin) (references.forM (importReference library m))
      fun _ => Since tables origin := by
  refine establishes_forM (motive := fun _ => Since tables origin) fun _ reference _ => ?_
  refine Establishes.bind (Q := fun _ => Since tables origin) ?_ fun _ => ?_
  · exact establishes_tick fun d hd => hd.of_clock _
  refine Establishes.bind (Q := fun _ => Since tables origin) ?_ fun _ => ?_
  · exact establishes_modify proceeds_request fun d hd _ => hd.of_clock _
  cases hfind : library.find? reference.module with
  | some foreign =>
      have hmem := hlibrary _ (Library.mem_of_find? hfind)
      exact (establishes_importModule_received reference hmem).imp (fun _ hd => hd)
        fun _ _ ⟨_, hd⟩ => hd.toSince
  | none =>
      refine establishes_getNames_bind fun names => ?_
      refine ⟨proceeds_report .., fun {d a d'} _ hrun hclean => ?_⟩
      cases hrun
      rw [Table.hasErrors_report, Bool.or_eq_false_iff] at hclean
      cases hclean.2

end Draft

end ManySorted
