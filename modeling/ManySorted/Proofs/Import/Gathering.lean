import ManySorted.Proofs.Draft.Passes
import ManySorted.Proofs.Import.Cloning

/-!
# Gathering foreign symbols

Placing goes through the foreign symbols in turn and gives each a local one: a clone, or what stands
in its place already; where another declaration has the name, this is reported and the symbol goes
without.  Whatever is reported on the way, every link leads to the place of the foreign symbol, to
one of its kind, and the new symbols are exactly the clones (`Importing.Gathering`).

## Strategy

* **The invariant.**  After some foreign symbols were placed, links lead to the places of foreign
  symbols, and all that is new is a clone (`Importing.Gathering`).  At the start nothing is placed
  (`Importing.Arranged.gathering`).
* **What stands there already.**  A symbol that stands for the same declaration is of the same kind
  (`Importing.Gathering.outline_of_isSame`), since origins tell declarations apart.  Two foreign
  symbols have different places, so no symbol is linked twice (`Importing.Gathering.eq_of_linked`).
* **One step.**  A foreign symbol is linked already, or linked to what has its name, or reported, or
  cloned (`Importing.Gathering.cloneInto_cases`).  Each of these keeps the invariant
  (`Importing.Gathering.link`, `Importing.Gathering.report`, `Importing.Gathering.clone`).
* **What is built in** is found in the root under its own name
  (`Importing.Arranged.linked_builtin`).
* So placing one more symbol keeps the invariant, whatever kind it is of
  (`Importing.Gathering.place`).
-/

namespace ManySorted

namespace Links

variable {links : Links} {r x : SymbolId}

theorem mem_of_find? (h : links.find? r = some x) : (r, x) ∈ links.ids := by
  obtain ⟨before, after, heq, _⟩ := List.lookup_eq_some_iff.1 h
  rw [heq]
  simp

theorem find?_of_mem (h : (r, x) ∈ links.ids) : (links.find? r).isSome = true := by
  rw [find?, List.lookup_isSome_iff]
  exact ⟨(r, x), h, by simp⟩

end Links

/-- Whether a name was reported as taken. -/
def Table.hasDuplicates (t : Table) : Bool :=
  t.reports.any fun r => r.problem matches .duplicateDefinition ..

/-- Reports stay. -/
theorem Table.Onward.hasDuplicates_eq_false {t t' : Table} (h : t.Onward t')
    (ht' : t'.hasDuplicates = false) : t.hasDuplicates = false := by
  obtain ⟨more, hmore⟩ := h.reports
  rw [hasDuplicates, ← hmore, List.any_append, Bool.or_eq_false_iff] at ht'
  exact ht'.1

/-- A name that is taken is an error. -/
theorem Table.hasDuplicates_eq_false {t : Table} (h : t.hasErrors = false) :
    t.hasDuplicates = false := by
  rw [hasErrors, List.any_eq_false] at h
  rw [hasDuplicates, List.any_eq_false]
  intro r hr hduplicate
  refine h r hr ?_
  rw [Report.isWarning]
  cases hproblem : r.problem with
  | duplicateDefinition name previous => rfl
  | _ =>
      rw [hproblem] at hduplicate
      cases hduplicate

theorem Table.hasDuplicates_reportDuplicate (t : Table) (names : Interner) (location : Location)
    (name : Name) (previous : SymbolId) :
    (t.reportDuplicate names location name previous).hasDuplicates = true := by
  simp [hasDuplicates, reportDuplicate, report]

/-- A table whose imported symbols go back to declarations of other tables. -/
structure Draft.Traced (tables : List Table) (d : Draft) : Prop where
  archive : Table.Archive d.names tables
  formed : d.table.WellFormed d.names
  origin : ∀ {x o}, d.table.Holds x → (d.table.symbolAt x).origin = some o →
    ∃ source, Source tables o source ∧
      (source.kindOf o.symbol).outline = (d.table.kindOf x).outline ∧
      (source.symbolAt o.symbol).arity = (d.table.symbolAt x).arity

namespace Importing

variable {tables : List Table} {imp : Importing} {base : NamespaceId} {start d : Draft}
  {links : Links} {r x : SymbolId} {s : Symbol}

/-- A table that is ready for placing the symbols of a foreign one below `base`. -/
structure Arranged (tables : List Table) (imp : Importing) (base : NamespaceId) (start : Draft) :
    Prop extends start.Traced tables where
  mem : imp.foreign ∈ tables
  valid : imp.foreign.isValid = true
  base_mem : start.table.HasNamespace base
  homes : ∀ {ns}, imp.foreign.HasNamespace ns →
    start.table.descend? base (imp.foreign.path ns) = some (imp.homes.getD ns.index .root)

/-- Whether a foreign symbol needs a link of its own: companions are linked with their data symbol,
and the convenience unions are left out where they land in the root. -/
def Wanted (imp : Importing) (base : NamespaceId) (r : SymbolId) : Prop :=
  (imp.foreign.kindOf r).isCompanion = false ∧
    ¬ (base = .root ∧ imp.foreign.IsRootConvenience r)

theorem Wanted.dataOf? (h : Wanted imp base r) : imp.foreign.dataOf? r = none := by
  refine Option.eq_none_iff_forall_ne_some.2 fun data hdata => ?_
  obtain ⟨size, hkind⟩ := SymbolKind.unsized_eq_userSort.1 (Table.dataOf?_eq_some_iff.1 hdata)
  have halone := h.1
  rw [hkind] at halone
  cases halone

/-- How far placing has got. -/
structure Gathering (imp : Importing) (base : NamespaceId) (start : Draft) (links : Links)
    (d : Draft) : Prop where
  grown : start.names.Grown d.names
  regular : d.table.Regular d.names
  later : start.table.Later d.table
  linked : ∀ {p}, p ∈ links.ids → imp.foreign.Linked d.table base p.1 p.2
  created_mem : ∀ {p}, p ∈ links.created → p ∈ links.ids
  created_new : ∀ {p}, p ∈ links.created → ¬ start.table.Holds p.2 ∧ d.table.Holds p.2 ∧
    (d.table.symbolAt p.2).origin = some (imp.originOf (imp.foreign.symbolAt p.1)) ∧
    (d.table.symbolAt p.2).Bare
  created_kept : ∀ {p}, p ∈ links.created →
    ¬ (base = .root ∧ imp.foreign.IsRootConvenience p.1) ∧
      ((imp.foreign.kindOf p.1).staysInRoot = true →
        (imp.foreign.kindOf p.1).mergesIntoRoot = true)
  created_nodup : (links.created.map Prod.snd).Nodup
  new_created : ∀ {x}, d.table.Holds x → ¬ start.table.Holds x → ∃ r, (r, x) ∈ links.created
  families : ∀ {r x shape info}, imp.foreign.kindOf r = .data shape info → (r, x) ∈ links.ids →
    (∃ y, (info.sort, y) ∈ links.ids) ∧ ∃ y, (info.typeConstant, y) ∈ links.ids

theorem Arranged.trusted (h : Arranged tables imp base start) :
    imp.foreign.Trusted start.names tables := h.archive.trusted h.mem h.valid

theorem Arranged.foreign_regular (h : Arranged tables imp base start)
    (hp : Gathering imp base start links d) : imp.foreign.Regular d.names :=
  h.trusted.formed.toRegular.grown hp.grown hp.regular.proper

/-- Nothing is placed at the start. -/
theorem Arranged.gathering (h : Arranged tables imp base start) :
    Gathering imp base start {} start where
  grown := .refl _
  regular := h.formed.toRegular
  later := .refl _
  linked hp := absurd hp List.not_mem_nil
  created_mem hp := absurd hp List.not_mem_nil
  created_new hp := absurd hp List.not_mem_nil
  created_kept hp := absurd hp List.not_mem_nil
  created_nodup := List.nodup_nil
  new_created hx hnew := absurd hx hnew
  families _ hp := absurd hp List.not_mem_nil

theorem Gathering.holds (h : Gathering imp base start links d)
    (hforeign : imp.foreign.Regular d.names) {p : SymbolId × SymbolId} (hp : p ∈ links.ids) :
    d.table.Holds p.2 :=
  (hforeign.landing?_of_relocate? h.regular (h.linked hp).found).1

/-- Placing for one symbol leads to the namespace where it lands. -/
theorem Arranged.landing? (h : Arranged tables imp base start) (hr : imp.foreign.Holds r)
    (hmoves : (imp.foreign.kindOf r).staysInRoot = false) :
    imp.foreign.landing? start.table base (imp.foreign.symbolAt r) =
      some (imp.homes.getD (imp.foreign.symbolAt r).home.index .root) := by
  rw [Table.landing?, show (imp.foreign.symbolAt r).kind.staysInRoot = false from hmoves,
    if_neg Bool.false_ne_true]
  exact h.homes (h.trusted.formed.arena.home hr)

/-! ## Origins tell declarations apart -/

theorem Arranged.source_of_origin (h : Arranged tables imp base start)
    (hr : imp.foreign.Holds r) :
    ∃ source, Source tables (imp.originOf (imp.foreign.symbolAt r)) source ∧
      (source.kindOf (imp.originOf (imp.foreign.symbolAt r)).symbol).outline =
        (imp.foreign.kindOf r).outline ∧
      (source.symbolAt (imp.originOf (imp.foreign.symbolAt r)).symbol).arity =
        (imp.foreign.symbolAt r).arity := by
  have hid := h.trusted.formed.arena.id_eq hr
  cases horigin : (imp.foreign.symbolAt r).origin with
  | none =>
      have horiginOf : imp.originOf (imp.foreign.symbolAt r) = ⟨imp.foreign.id, r⟩ := by
        rw [originOf, horigin, hid]
        rfl
      rw [horiginOf]
      exact ⟨imp.foreign, ⟨h.mem, h.valid, rfl, hr, horigin⟩, rfl, rfl⟩
  | some o =>
      have horiginOf : imp.originOf (imp.foreign.symbolAt r) = o := by
        rw [originOf, horigin]
        rfl
      rw [horiginOf]
      exact h.trusted.provenance.origin hr horigin

/-- Foreign symbols of one origin are of one kind. -/
theorem Arranged.outline_of_origin (h : Arranged tables imp base start) {r' : SymbolId}
    (hr : imp.foreign.Holds r) (hr' : imp.foreign.Holds r')
    (horigin : imp.originOf (imp.foreign.symbolAt r) =
      imp.originOf (imp.foreign.symbolAt r')) :
    (imp.foreign.kindOf r).outline = (imp.foreign.kindOf r').outline ∧
      (imp.foreign.symbolAt r).arity = (imp.foreign.symbolAt r').arity := by
  obtain ⟨source, hsource, houtline, harity⟩ := h.source_of_origin hr
  obtain ⟨source', hsource', houtline', harity'⟩ := h.source_of_origin hr'
  rw [horigin] at hsource houtline harity
  obtain rfl := h.archive.source_unique hsource hsource'
  exact ⟨houtline.symm.trans houtline', harity.symm.trans harity'⟩

/-- A symbol that stands for the same declaration as a foreign one is of the same kind. -/
theorem Gathering.outline_of_isSame (h : Gathering imp base start links d)
    (hprep : Arranged tables imp base start) (hr : imp.foreign.Holds r) (hx : d.table.Holds x)
    (hsame : imp.isSame (imp.foreign.symbolAt r) (d.table.symbolAt x) = true) :
    (d.table.kindOf x).outline = (imp.foreign.kindOf r).outline ∧
      (d.table.symbolAt x).arity = (imp.foreign.symbolAt r).arity := by
  rw [isSame, Bool.or_eq_true] at hsame
  rcases hsame with horigin | hmerge
  · have horigin : (d.table.symbolAt x).origin =
        some (imp.originOf (imp.foreign.symbolAt r)) := by simpa using horigin
    by_cases hold : start.table.Holds x
    · rw [(h.later.symbol hold).origin_eq] at horigin
      obtain ⟨source, hsource, houtline, harity⟩ := hprep.origin hold horigin
      obtain ⟨source', hsource', houtline', harity'⟩ := hprep.source_of_origin hr
      obtain rfl := hprep.archive.source_unique hsource hsource'
      rw [← SymbolKind.outline_unsized, h.later.unsized_kindOf hold, SymbolKind.outline_unsized,
        h.later.arity_symbolAt hold]
      exact ⟨houtline.symm.trans houtline', harity.symm.trans harity'⟩
    · obtain ⟨r', hr'⟩ := h.new_created hx hold
      have hlinked := h.linked (h.created_mem hr')
      rw [(h.created_new hr').2.2.1, Option.some.injEq] at horigin
      obtain ⟨houtline, harity⟩ := hprep.outline_of_origin hlinked.holds hr horigin
      exact ⟨hlinked.outline.trans houtline, hlinked.arity.trans harity⟩
  · simp only [Bool.and_eq_true, beq_iff_eq] at hmerge
    obtain ⟨⟨hmerges, hmerges'⟩, harity⟩ := hmerge
    exact ⟨by rw [Table.kindOf, Table.kindOf, SymbolKind.outline_of_mergesIntoRoot hmerges,
      SymbolKind.outline_of_mergesIntoRoot hmerges'], harity.symm⟩

/-! ## Linking clones -/

/-- Clones are added to what is placed. -/
theorem Gathering.clone (h : Gathering imp base start links d)
    (hprep : Arranged tables imp base start)
    {news : List (SymbolId × SymbolId)} {d' : Draft} (hcloned : Cloned imp base r news d d')
    (hwanted : Wanted imp base r)
    (hroot : (imp.foreign.kindOf r).staysInRoot = true →
      (imp.foreign.kindOf r).mergesIntoRoot = true) :
    Gathering imp base start ⟨news.reverse ++ links.ids, news.reverse ++ links.created⟩ d' := by
  have hforeign := hprep.foreign_regular h
  have hforeign' := hforeign.grown hcloned.grown hcloned.regular.proper
  obtain ⟨x, hlinked, hfamily⟩ := hcloned.family
  have hx := (hforeign'.landing?_of_relocate? hcloned.regular hlinked.found).1
  have hmem : ∀ {p : SymbolId × SymbolId} {old : List (SymbolId × SymbolId)},
      p ∈ news.reverse ++ old ↔ p ∈ news ∨ p ∈ old := by simp
  -- Each link is a new one, to a clone, or an old one, which is kept.
  refine ⟨h.grown.trans hcloned.grown, hcloned.regular, h.later.trans hcloned.later,
    fun {p} hp => ?_, fun {p} hp => ?_, fun {p} hp => ?_, fun {p} hp => ?_, ?_,
    fun {y} hy hnew => ?_, fun {q y shape info} hq hqy => ?_⟩
  · rcases hmem.1 hp with hp | hp
    · exact linked_of_mem_family hforeign' hcloned.regular hlinked hx (hfamily ▸ hp)
    · exact (h.linked hp).later (h.holds hforeign hp) hcloned.later
  · exact hmem.2 ((hmem.1 hp).imp_right h.created_mem)
  · rcases hmem.1 hp with hp | hp
    · obtain ⟨hnew, hrest⟩ := hcloned.fresh hp
      exact ⟨fun hold => hnew (h.later.holds hold), hrest⟩
    · obtain ⟨hnew, hheld, horigin, hrest⟩ := h.created_new hp
      have hsame : d'.table.symbolAt p.2 = d.table.symbolAt p.2 := by
        refine (hcloned.later.symbol hheld).settled ?_
        rw [Symbol.isSettled, Symbol.isImported, horigin]
        rfl
      rw [hsame]
      exact ⟨hnew, hcloned.later.holds hheld, horigin, hrest⟩
  · rcases hmem.1 hp with hp | hp
    · rw [hfamily] at hp
      rcases family_cases hforeign' hcloned.regular hlinked hx with
        ⟨_, hsingle⟩ | ⟨shape, info, info', hkind, _, _, _, htriple⟩
      · rw [hsingle, List.mem_singleton] at hp
        rw [hp]
        exact ⟨hwanted.2, hroot⟩
      · rw [htriple] at hp
        have hcompanions := hforeign'.families.data hkind
        simp only [List.mem_cons, List.not_mem_nil, or_false] at hp
        -- The companions are neither unions nor built in, so there is nothing to keep out of the
        -- root.
        rcases hp with rfl | rfl | rfl
        · exact ⟨hwanted.2, hroot⟩
        · have hsort : imp.foreign.IsSort info.sort := ⟨_, hcompanions.sort_kind⟩
          refine ⟨fun hdropped => hsort.carries.declared hdropped.2, fun hstays => ?_⟩
          rw [← SymbolKind.staysInRoot_unsized, hcompanions.sort_kind] at hstays
          cases hstays
        · have hconstant : imp.foreign.IsConstant info.typeConstant := by
            rw [Table.IsConstant, hcompanions.constant_kind]
            rfl
          refine ⟨fun hdropped => hconstant.carries.declared hdropped.2, fun hstays => ?_⟩
          rw [hcompanions.constant_kind] at hstays
          cases hstays
    · exact h.created_kept hp
  · rw [List.map_append, List.map_reverse, List.nodup_append]
    refine ⟨List.pairwise_reverse.2 (hcloned.nodup.imp Ne.symm), h.created_nodup, ?_⟩
    rintro y hy z hz rfl
    obtain ⟨p, hp, rfl⟩ := List.mem_map.1 (List.mem_reverse.1 hy)
    obtain ⟨q, hq, heq⟩ := List.mem_map.1 hz
    exact (hcloned.fresh hp).1 (heq ▸ (h.created_new hq).2.1)
  · by_cases hheld : d.table.Holds y
    · obtain ⟨q, hq⟩ := h.new_created hheld hnew
      exact ⟨q, hmem.2 (.inr hq)⟩
    · obtain ⟨q, hq⟩ := hcloned.exact hy hheld
      exact ⟨q, hmem.2 (.inl hq)⟩
  · rcases hmem.1 hqy with hqy | hqy
    · obtain ⟨⟨a, ha⟩, b, hb⟩ := companions_mem_family hforeign' hcloned.regular hlinked hx
        (hfamily ▸ hqy) hq
      exact ⟨⟨a, hmem.2 (.inl (hfamily ▸ ha))⟩, b, hmem.2 (.inl (hfamily ▸ hb))⟩
    · obtain ⟨⟨a, ha⟩, b, hb⟩ := h.families hq hqy
      exact ⟨⟨a, hmem.2 (.inr ha)⟩, b, hmem.2 (.inr hb)⟩

/-! ## Linking what is there -/

theorem foldl_link (links : Links) (pairs : List (SymbolId × SymbolId)) :
    pairs.foldl (fun links (a, b) => links.link a b) links =
      { links with ids := pairs.reverse ++ links.ids } := by
  induction pairs generalizing links with
  | nil => rfl
  | cons p rest ih =>
      rw [List.foldl_cons, ih]
      simp [Links.link]

/-- Links to old symbols are added to what is placed. -/
theorem Gathering.link (h : Gathering imp base start links d)
    (hprep : Arranged tables imp base start)
    (hlinked : imp.foreign.Linked d.table base r x) (hx : d.table.Holds x) :
    Gathering imp base start
      ((family (imp.foreign.symbolAt r) (d.table.symbolAt x)).foldl
        (fun links (a, b) => links.link a b) links) d := by
  have hforeign := hprep.foreign_regular h
  rw [foldl_link]
  have hmem : ∀ {p : SymbolId × SymbolId} {news old : List (SymbolId × SymbolId)},
      p ∈ news.reverse ++ old ↔ p ∈ news ∨ p ∈ old := by simp
  refine ⟨h.grown, h.regular, h.later, fun {p} hp => ?_,
    fun {p} hp => hmem.2 (.inr (h.created_mem hp)), h.created_new, h.created_kept,
    h.created_nodup, h.new_created,
    fun {q y shape info} hq hqy => ?_⟩
  · rcases hmem.1 hp with hp | hp
    · exact linked_of_mem_family hforeign h.regular hlinked hx hp
    · exact h.linked hp
  · rcases hmem.1 hqy with hqy | hqy
    · obtain ⟨⟨a, ha⟩, b, hb⟩ := companions_mem_family hforeign h.regular hlinked hx hqy hq
      exact ⟨⟨a, hmem.2 (.inl ha)⟩, b, hmem.2 (.inl hb)⟩
    · obtain ⟨⟨a, ha⟩, b, hb⟩ := h.families hq hqy
      exact ⟨⟨a, hmem.2 (.inr ha)⟩, b, hmem.2 (.inr hb)⟩

/-- Where a symbol lands is settled before anything is placed. -/
theorem Arranged.landing_start (h : Arranged tables imp base start) (hr : imp.foreign.Holds r)
    (hlater : start.table.Later d.table) {home : NamespaceId}
    (hlanding : imp.foreign.landing? d.table base (imp.foreign.symbolAt r) = some home) :
    imp.foreign.landing? start.table base (imp.foreign.symbolAt r) = some home := by
  cases hstays : (imp.foreign.kindOf r).staysInRoot with
  | true =>
      have hstays : (imp.foreign.symbolAt r).kind.staysInRoot = true := hstays
      rw [Table.landing?, if_pos hstays] at hlanding ⊢
      exact hlanding
  | false =>
      have hstart := h.landing? hr hstays
      rw [hlater.landing? hstart] at hlanding
      rw [hstart, hlanding]

/-- What stands in the places of two foreign symbols tells them apart. -/
theorem Gathering.eq_of_linked (h : Gathering imp base start links d)
    (hprep : Arranged tables imp base start) {r' : SymbolId}
    (hlinked : imp.foreign.Linked d.table base r x)
    (hlinked' : imp.foreign.Linked d.table base r' x) : r = r' :=
  (hprep.foreign_regular h).relocate?_inj h.regular hlinked.holds hlinked'.holds hlinked.found
    hlinked'.found

/-- A symbol that stands for the same declaration as a foreign one that is not linked yet was there
before. -/
theorem Gathering.holds_of_isSame (h : Gathering imp base start links d)
    (hprep : Arranged tables imp base start) (hlinked : imp.foreign.Linked d.table base r x)
    (hx : d.table.Holds x) (hunlinked : (links.find? r).isSome = false) : start.table.Holds x := by
  by_cases hold : start.table.Holds x
  · exact hold
  · obtain ⟨r', hr'⟩ := h.new_created hx hold
    obtain rfl := h.eq_of_linked hprep hlinked (h.linked (h.created_mem hr'))
    rw [Links.find?_of_mem (h.created_mem hr')] at hunlinked
    cases hunlinked

/-- What stands in the place of a foreign symbol and is old stood there before. -/
theorem Gathering.found_start (h : Gathering imp base start links d)
    (hprep : Arranged tables imp base start) (hr : imp.foreign.Holds r)
    (hfound : imp.foreign.relocate? d.table base r = some x) (hx : start.table.Holds x)
    (halone : imp.foreign.dataOf? r = none) :
    imp.foreign.relocate? start.table base r = some x := by
  rw [Table.relocate?_of_not_sort halone] at hfound
  obtain ⟨_, hname, hnamed, hlanding⟩ := h.regular.arena.of_place? hfound
  rw [Table.relocate?_of_not_sort halone, Table.place?,
    hprep.landing_start hr h.later hlanding, Option.bind_some, h.later.home_symbolAt hx, ← hname,
    h.later.name_symbolAt hx]
  exact hprep.formed.arena.listed hx (h.later.name_symbolAt hx ▸ hnamed)

/-- A link to an old symbol was there before. -/
theorem Gathering.linked_start (h : Gathering imp base start links d)
    (hprep : Arranged tables imp base start) (hlinked : imp.foreign.Linked d.table base r x)
    (hx : start.table.Holds x) (halone : imp.foreign.dataOf? r = none) :
    imp.foreign.Linked start.table base r x where
  holds := hlinked.holds
  found := h.found_start hprep hlinked.holds hlinked.found hx halone
  arity := by rw [← h.later.arity_symbolAt hx, hlinked.arity]
  outline := by
    rw [← SymbolKind.outline_unsized, ← h.later.unsized_kindOf hx, SymbolKind.outline_unsized,
      hlinked.outline]

/-! ## One step -/

theorem mem_family (hid : s.id = r) (found : Symbol) : (r, found.id) ∈ family s found := by
  unfold family
  split <;> simp [hid]

/-- A foreign symbol whose name is free can be cloned. -/
theorem Gathering.clonable (h : Gathering imp base start links d)
    (hprep : Arranged tables imp base start) (hr : imp.foreign.Holds r)
    (halone : (imp.foreign.kindOf r).isCompanion = false) {home : NamespaceId}
    (hlanding : imp.foreign.landing? start.table base (imp.foreign.symbolAt r) = some home)
    (hfree : (d.table.namespaceAt home).symbol? (imp.foreign.symbolAt r).name = none) :
    Clonable imp base r home d := by
  have hlanding' := h.later.landing? hlanding
  refine ⟨hprep.foreign_regular h, h.regular, hr, halone, hlanding', ?_, hfree⟩
  exact h.regular.tree.hasNamespace_of_landing? (h.later.hasNamespace hprep.base_mem) hlanding'

/-- The name of a foreign symbol is taken by another declaration, or what has it is used, or the
symbol is cloned. -/
theorem Gathering.cloneInto_cases (h : Gathering imp base start links d)
    (hprep : Arranged tables imp base start) (hr : imp.foreign.Holds r)
    (hwanted : Wanted imp base r) {home : NamespaceId}
    (hlanding : imp.foreign.landing? start.table base (imp.foreign.symbolAt r) = some home)
    (hunlinked : (links.find? r).isSome = false) :
    (∃ previous, imp.cloneInto (imp.foreign.symbolAt r) home links d = (links, { d with
        table := d.table.reportDuplicate d.names imp.location (imp.foreign.symbolAt r).name
          previous })) ∨
      (∃ x, imp.foreign.dataOf? r = none ∧ imp.foreign.Linked d.table base r x ∧
        start.table.Holds x ∧
        imp.isSame (imp.foreign.symbolAt r) (d.table.symbolAt x) = true ∧
        imp.cloneInto (imp.foreign.symbolAt r) home links d =
          ((family (imp.foreign.symbolAt r) (d.table.symbolAt x)).foldl
            (fun links (a, b) => links.link a b) links, d)) ∨
      ∃ news d', imp.cloneInto (imp.foreign.symbolAt r) home links d =
          (⟨news.reverse ++ links.ids, news.reverse ++ links.created⟩, d') ∧
        Cloned imp base r news d d' := by
  have hlanding' := h.later.landing? hlanding
  have hsort := hwanted.dataOf?
  cases hfound : (d.table.namespaceAt home).symbol? (imp.foreign.symbolAt r).name with
  | some x =>
      have hx := (h.regular.arena.entry hfound).1
      cases hsame : imp.isSame (imp.foreign.symbolAt r) (d.table.symbolAt x) with
      | false =>
          refine .inl ⟨x, ?_⟩
          rw [Importing.cloneInto, hfound]
          simp only [hsame, Bool.false_eq_true, if_false]
      | true =>
          obtain ⟨houtline, harity⟩ := h.outline_of_isSame hprep hr hx hsame
          have hlinked : imp.foreign.Linked d.table base r x := by
            refine ⟨hr, ?_, harity, houtline⟩
            rw [Table.relocate?_of_not_sort hsort, Table.place?, hlanding']
            exact hfound
          refine .inr (.inl ⟨x, hsort, hlinked, h.holds_of_isSame hprep hlinked hx hunlinked,
            hsame, ?_⟩)
          rw [Importing.cloneInto, hfound]
          simp only [hsame, if_true]
  | none =>
      have hclonable := h.clonable hprep hr hwanted.1 hlanding hfound
      exact .inr (.inr (hclonable.cloneInto_of_free links))

/-- What a step makes of the links and the draft: the invariant still holds, old links are kept and
the symbol is linked, unless its name is taken. -/
structure GatherStep (imp : Importing) (base : NamespaceId) (start : Draft) (r : SymbolId)
    (links links' : Links) (d' : Draft) : Prop where
  gathering : Gathering imp base start links' d'
  kept : ∀ {p}, p ∈ links.ids → p ∈ links'.ids
  linked : d'.table.hasDuplicates = false → (links'.find? r).isSome = true

theorem Gathering.report (h : Gathering imp base start links d) (r : Report) :
    Gathering imp base start links { d with table := d.table.report r } := by
  have hlater : d.table.Later (d.table.report r) := .of_eq rfl rfl rfl
  exact
    { h with
      regular := h.regular.of_eq rfl rfl
      later := h.later.trans hlater
      linked := fun hp => { h.linked hp with found := hlater.relocate? (h.linked hp).found } }

theorem linked_foldl_link (hid : (imp.foreign.symbolAt r).id = r) (links : Links) (found : Symbol) :
    (((family (imp.foreign.symbolAt r) found).foldl
      (fun links (a, b) => links.link a b) links).find? r).isSome = true := by
  rw [foldl_link]
  exact Links.find?_of_mem (List.mem_append_left _ (List.mem_reverse.2 (mem_family hid _)))

theorem Gathering.cloneInto (h : Gathering imp base start links d)
    (hprep : Arranged tables imp base start) (hr : imp.foreign.Holds r)
    (hwanted : Wanted imp base r)
    (hroot : (imp.foreign.kindOf r).staysInRoot = true →
      (imp.foreign.kindOf r).mergesIntoRoot = true)
    {home : NamespaceId}
    (hlanding : imp.foreign.landing? start.table base (imp.foreign.symbolAt r) = some home)
    (hunlinked : (links.find? r).isSome = false) :
    GatherStep imp base start r links (imp.cloneInto (imp.foreign.symbolAt r) home links d).1
      (imp.cloneInto (imp.foreign.symbolAt r) home links d).2 := by
  have hid := (hprep.foreign_regular h).arena.id_eq hr
  rcases h.cloneInto_cases hprep hr hwanted hlanding hunlinked with
    ⟨previous, heq⟩ | ⟨x, -, hlinked, hold, -, heq⟩ | ⟨news, d', heq, hcloned⟩
  · rw [heq]
    refine ⟨h.report _, fun hp => hp, fun hclean => ?_⟩
    cases hclean.symm.trans (Table.hasDuplicates_reportDuplicate ..)
  · rw [heq]
    refine ⟨h.link hprep hlinked (h.later.holds hold), fun {p} hp => ?_,
      fun _ => linked_foldl_link hid links _⟩
    rw [foldl_link]
    exact List.mem_append_right _ hp
  · obtain ⟨x, _, hfamily⟩ := hcloned.family
    rw [heq]
    refine ⟨h.clone hprep hcloned hwanted hroot, fun {p} hp => List.mem_append_right _ hp,
      fun _ => ?_⟩
    have hmem : (r, (d'.table.symbolAt x).id) ∈ news := hfamily ▸ mem_family hid _
    exact Links.find?_of_mem (List.mem_append_left _ (List.mem_reverse.2 hmem))

/-- What is built in is found in the root under its own name. -/
theorem Arranged.linked_builtin (h : Arranged tables imp base start) (hr : imp.foreign.Holds r)
    (hbase : (imp.foreign.kindOf r).isBase = true)
    (hlanding : imp.foreign.landing? start.table base (imp.foreign.symbolAt r) = some .root) :
    ∃ x, start.table.Holds x ∧ start.table.kindOf x = imp.foreign.kindOf r ∧
      (start.table.symbolAt x).name = (imp.foreign.symbolAt r).name ∧
      imp.foreign.Linked start.table base r x ∧
      (start.table.namespaceAt .root).symbol? (imp.foreign.symbolAt r).name = some x := by
  have hforeign' := h.trusted.formed.toRegular
  obtain ⟨x, hx, hkind, hname, harity, hfound⟩ := h.formed.exists_builtin hforeign' hr hbase
  refine ⟨x, hx, hkind, hname, ⟨hr, ?_, harity, by rw [hkind]⟩, hfound⟩
  rw [Table.relocate?_of_not_sort (Table.dataOf?_of_isBase hbase), Table.place?, hlanding]
  exact hfound

theorem Gathering.linkBuiltin_eq (h : Gathering imp base start links d)
    (hprep : Arranged tables imp base start) (hr : imp.foreign.Holds r)
    (hbase : (imp.foreign.kindOf r).isBase = true) (hx : start.table.Holds x)
    (hfound : (start.table.namespaceAt .root).symbol? (imp.foreign.symbolAt r).name = some x) :
    linkBuiltin (imp.foreign.symbolAt r) links d =
      (family (imp.foreign.symbolAt r) (d.table.symbolAt x)).foldl
        (fun links (a, b) => links.link a b) links := by
  have hid := (hprep.foreign_regular h).arena.id_eq hr
  have hdata : (imp.foreign.symbolAt r).kind.isData = false := by
    cases hk : (imp.foreign.symbolAt r).kind with
    | data =>
        rw [Table.kindOf, hk] at hbase
        cases hbase
    | _ => rfl
  rw [family_of_not_data hdata, hid, h.regular.arena.id_eq (h.later.holds hx), linkBuiltin,
    h.later.symbol? hfound, hid]
  rfl

theorem Gathering.linkBuiltin (h : Gathering imp base start links d)
    (hprep : Arranged tables imp base start) (hr : imp.foreign.Holds r)
    (hbase : (imp.foreign.kindOf r).isBase = true)
    (hlanding : imp.foreign.landing? start.table base (imp.foreign.symbolAt r) = some .root) :
    GatherStep imp base start r links (linkBuiltin (imp.foreign.symbolAt r) links d) d := by
  obtain ⟨x, hx, -, -, hlinked, hfound⟩ := hprep.linked_builtin hr hbase hlanding
  rw [h.linkBuiltin_eq hprep hr hbase hx hfound]
  refine ⟨h.link hprep (hlinked.later hx h.later) (h.later.holds hx), fun {p} hp => ?_,
    fun _ => linked_foldl_link ((hprep.foreign_regular h).arena.id_eq hr) links _⟩
  rw [foldl_link]
  exact List.mem_append_right _ hp

/-- Only the root lands in the root. -/
theorem Arranged.home_eq_root (h : Arranged tables imp base start) (hr : imp.foreign.Holds r)
    (hhome : imp.homes.getD (imp.foreign.symbolAt r).home.index .root = .root) :
    base = .root ∧ (imp.foreign.symbolAt r).home = .root := by
  have hns := h.trusted.formed.arena.home hr
  have hdescend := h.homes hns
  rw [hhome] at hdescend
  have hpath := h.formed.tree.path_of_descend? hdescend
  rw [h.formed.tree.path_root] at hpath
  obtain ⟨hbase, hrest⟩ := List.append_eq_nil_iff.1 hpath.symm
  exact ⟨(h.formed.tree.path_eq_nil_iff h.base_mem).1 hbase,
    (h.trusted.formed.tree.path_eq_nil_iff hns).1 hrest⟩

/-- What placing does with a symbol that is not linked yet. -/
theorem Arranged.place_cases (h : Arranged tables imp base start) (hr : imp.foreign.Holds r)
    (hunlinked : (links.find? r).isSome = false) :
    (¬ Wanted imp base r ∧ imp.place (imp.foreign.symbolAt r) links d = (links, d)) ∨
      ((imp.foreign.kindOf r).isBase = true ∧
        imp.foreign.landing? start.table base (imp.foreign.symbolAt r) = some .root ∧
        imp.place (imp.foreign.symbolAt r) links d =
          (linkBuiltin (imp.foreign.symbolAt r) links d, d)) ∨
      ∃ home, Wanted imp base r ∧
        ((imp.foreign.kindOf r).staysInRoot = true →
          (imp.foreign.kindOf r).mergesIntoRoot = true) ∧
        imp.foreign.landing? start.table base (imp.foreign.symbolAt r) = some home ∧
        imp.place (imp.foreign.symbolAt r) links d =
          imp.cloneInto (imp.foreign.symbolAt r) home links d := by
  have hid := h.trusted.formed.arena.id_eq hr
  have hlanding := h.landing? hr
  have hroot : ∀ {kind}, imp.foreign.kindOf r = kind → kind.staysInRoot = true →
      imp.foreign.landing? start.table base (imp.foreign.symbolAt r) = some .root := by
    intro kind hkind hstays
    rw [Table.landing?, show (imp.foreign.symbolAt r).kind = kind from hkind, if_pos hstays]
  have hwanted : ∀ {kind}, imp.foreign.kindOf r = kind → kind.isCompanion = false →
      kind.convenience? = none → Wanted imp base r := by
    rintro kind hkind halone hdeclared
    refine ⟨hkind ▸ halone, ?_⟩
    rintro ⟨_, _, convenience, hunion⟩
    rw [← hkind, hunion] at hdeclared
    cases hdeclared
  unfold place
  rw [hid, hunlinked, if_neg Bool.false_ne_true]
  cases hkind : imp.foreign.kindOf r with
  | baseOperator op =>
      -- operators and constants are linked to those that are built in
      refine .inr (.inl ⟨rfl, hroot hkind rfl, ?_⟩)
      simp only [show (imp.foreign.symbolAt r).kind = _ from hkind]
  | baseConstant constant =>
      refine .inr (.inl ⟨rfl, hroot hkind rfl, ?_⟩)
      simp only [show (imp.foreign.symbolAt r).kind = _ from hkind]
  | baseSort sort =>
      -- base sorts as well, unless they are imported under a renaming
      simp only [show (imp.foreign.symbolAt r).kind = _ from hkind]
      have hmoves := hlanding (by rw [hkind]; rfl)
      split
      case isTrue hhome => exact .inr (.inl ⟨rfl, hhome ▸ hmoves, rfl⟩)
      case isFalse =>
        exact .inr (.inr ⟨_, hwanted hkind rfl rfl, (fun h => by cases h), hmoves, rfl⟩)
  | userSort data size =>
      -- companions come with their data
      rw [show (imp.foreign.symbolAt r).kind = _ from hkind]
      refine .inl ⟨fun hwanted => ?_, rfl⟩
      have halone := hwanted.1
      rw [hkind] at halone
      cases halone
  | data shape info =>
      simp only [show (imp.foreign.symbolAt r).kind = _ from hkind]
      exact .inr (.inr ⟨_, hwanted hkind rfl rfl, (fun h => by cases h),
        hlanding (by rw [hkind]; rfl), rfl⟩)
  | union convenience =>
      -- a convenience union is wanted only if it is imported under a renaming
      have hmoves := hlanding (by rw [hkind]; rfl)
      cases convenience with
      | none =>
          simp only [show (imp.foreign.symbolAt r).kind = _ from hkind]
          exact .inr (.inr ⟨_, hwanted hkind rfl rfl, (fun h => by cases h), hmoves, rfl⟩)
      | some convenience =>
          simp only [show (imp.foreign.symbolAt r).kind = _ from hkind]
          split
          case isTrue hhome =>
            obtain ⟨hbase, hhome'⟩ := h.home_eq_root hr hhome
            exact .inl ⟨fun hwanted => hwanted.2 ⟨hbase, hhome', convenience, hkind⟩, rfl⟩
          case isFalse hhome =>
            refine .inr (.inr ⟨_, ⟨by rw [hkind]; rfl, ?_⟩, (fun h => by cases h), hmoves, rfl⟩)
            rintro ⟨hbase, hhome', _⟩
            rw [Table.landing?, show (imp.foreign.symbolAt r).kind = _ from hkind, hhome', hbase,
              h.trusted.formed.tree.path_root] at hmoves
            exact hhome (hhome' ▸ (Option.some.inj hmoves).symm)
  | userConstant constant =>
      -- values go to the root, and all other constants to where they belong
      simp only [show (imp.foreign.symbolAt r).kind = _ from hkind]
      cases constant with
      | type sort =>
          refine .inl ⟨fun hwanted => ?_, rfl⟩
          have halone := hwanted.1
          rw [hkind] at halone
          cases halone
      | enumerated =>
          exact .inr (.inr ⟨.root, hwanted hkind rfl rfl, fun _ => rfl, hroot hkind rfl, rfl⟩)
      | symbolic =>
          exact .inr (.inr ⟨.root, hwanted hkind rfl rfl, fun _ => rfl, hroot hkind rfl, rfl⟩)
      | derived =>
          exact .inr (.inr ⟨_, hwanted hkind rfl rfl, (fun h => by cases h),
            hlanding (by rw [hkind]; rfl), rfl⟩)
      | parameter =>
          exact .inr (.inr ⟨_, hwanted hkind rfl rfl, (fun h => by cases h),
            hlanding (by rw [hkind]; rfl), rfl⟩)

/-- Placing one more foreign symbol. -/
theorem Gathering.place (h : Gathering imp base start links d)
    (hprep : Arranged tables imp base start)
    (hr : imp.foreign.Holds r) :
    Gathering imp base start (imp.place (imp.foreign.symbolAt r) links d).1
        (imp.place (imp.foreign.symbolAt r) links d).2 ∧
      (∀ {p}, p ∈ links.ids → p ∈ (imp.place (imp.foreign.symbolAt r) links d).1.ids) ∧
      ((imp.place (imp.foreign.symbolAt r) links d).2.table.hasDuplicates = false →
        Wanted imp base r →
        ((imp.place (imp.foreign.symbolAt r) links d).1.find? r).isSome = true) := by
  have hid := (hprep.foreign_regular h).arena.id_eq hr
  have hstep : ∀ {links' : Links} {d' : Draft}, GatherStep imp base start r links links' d' →
      Gathering imp base start links' d' ∧ (∀ {p}, p ∈ links.ids → p ∈ links'.ids) ∧
        (d'.table.hasDuplicates = false → Wanted imp base r → (links'.find? r).isSome = true) :=
    fun hs => ⟨hs.gathering, hs.kept, fun hclean _ => hs.linked hclean⟩
  cases hfind : (links.find? r).isSome with
  | true =>
      have hskip : imp.place (imp.foreign.symbolAt r) links d = (links, d) := by
        rw [Importing.place, hid, if_pos hfind]
      rw [hskip]
      exact ⟨h, fun hp => hp, fun _ _ => hfind⟩
  | false =>
      rcases hprep.place_cases (d := d) hr hfind with
        ⟨hunwanted, heq⟩ | ⟨hbase, hlanding, heq⟩ | ⟨home, hwanted, hroot, hlanding, heq⟩
      · rw [heq]
        exact ⟨h, fun hp => hp, fun _ hwanted => absurd hwanted hunwanted⟩
      · rw [heq]
        exact hstep (h.linkBuiltin hprep hr hbase hlanding)
      · rw [heq]
        exact hstep (h.cloneInto hprep hr hwanted hroot hlanding hfind)

/-- The clock plays no part in placing. -/
theorem Gathering.of_clock (h : Gathering imp base start links d) (clock : Clock) :
    Gathering imp base start links { d with clock } :=
  { h with }

end Importing

end ManySorted
