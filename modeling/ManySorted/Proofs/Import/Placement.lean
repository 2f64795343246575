import ManySorted.Proofs.Draft.Safety
import ManySorted.Proofs.Import.Gathering

/-!
# Placing foreign symbols

As long as no name is taken by another declaration, every foreign symbol gets a local one, and a
symbol that is used instead of a clone is a copy already (`Placing`).  A step keeps this
(`Placing.place`), and so all foreign symbols are placed in the end (`Placed`).

## Strategy

* **What is used.**  What stands for the same declaration is a copy already, with its companions
  (`Importing.Placing.reuses_of_isSame`).  A merging constant that is there has no positions, like
  the foreign one, and what is built in is used for what is built in.
* **One step** links a foreign symbol to what is there or to a clone, or reports that its name is
  taken (`Importing.Placing.place`); without errors it does not report.
* **All symbols.**  They are placed one after the other (`Importing.Prepared.establishes_placed`).
  If something is reported on the way, placing still ends (`Importing.Arranged.safe_gather`).
-/

namespace ManySorted

/-- A table that has nothing but what is built in or imported. -/
structure Draft.Assembled (tables : List Table) (d : Draft) : Prop where
  archive : Table.Archive d.names tables
  formed : d.table.WellFormed d.names
  provenance : d.table.Provenance tables
  settled : ∀ {x}, d.table.Holds x → (d.table.symbolAt x).isSettled = true
  unfailed : ∀ {x}, d.table.Holds x → (d.table.symbolAt x).failed = false

theorem Draft.Assembled.traced {tables : List Table} {d : Draft} (h : d.Assembled tables) :
    d.Traced tables where
  archive := h.archive
  formed := h.formed
  origin hx horigin := h.provenance.origin hx horigin

namespace Importing

variable {tables : List Table} {imp : Importing} {base : NamespaceId} {start d : Draft}
  {links : Links} {r x : SymbolId}

/-- A table without errors that is ready for placing the symbols of a foreign one below `base`. -/
structure Prepared (tables : List Table) (imp : Importing) (base : NamespaceId) (start : Draft) :
    Prop extends start.Assembled tables where
  mem : imp.foreign ∈ tables
  valid : imp.foreign.isValid = true
  base_mem : start.table.HasNamespace base
  homes : ∀ {ns}, imp.foreign.HasNamespace ns →
    start.table.descend? base (imp.foreign.path ns) = some (imp.homes.getD ns.index .root)

theorem Prepared.arranged (h : Prepared tables imp base start) :
    Arranged tables imp base start where
  toTraced := h.toAssembled.traced
  mem := h.mem
  valid := h.valid
  base_mem := h.base_mem
  homes := h.homes

/-- How far placing has got, where what is used instead of clones are copies. -/
structure Placing (imp : Importing) (base : NamespaceId) (start : Draft) (links : Links)
    (d : Draft) : Prop extends Gathering imp base start links d where
  reused : ∀ {p}, p ∈ links.ids → start.table.Holds p.2 →
    imp.foreign.Reuses start.table base p.1 p.2

theorem Prepared.trusted (h : Prepared tables imp base start) :
    imp.foreign.Trusted start.names tables := h.archive.trusted h.mem h.valid

theorem Prepared.foreign_regular (h : Prepared tables imp base start)
    (hp : Placing imp base start links d) : imp.foreign.Regular d.names :=
  h.arranged.foreign_regular hp.toGathering

/-- Nothing is placed at the start. -/
theorem Prepared.placing (h : Prepared tables imp base start) :
    Placing imp base start {} start where
  toGathering := h.arranged.gathering
  reused hp := absurd hp List.not_mem_nil

/-! ## Using what is there -/

/-- A merging constant that is there has no positions, like the foreign one. -/
theorem Prepared.reuses_of_merges (h : Prepared tables imp base start)
    (hlinked : imp.foreign.Linked start.table base r x) (hx : start.table.Holds x)
    (hname : (start.table.symbolAt x).name = (imp.foreign.symbolAt r).name)
    (hmerges : (imp.foreign.kindOf r).mergesIntoRoot = true) :
    imp.foreign.Reuses start.table base r x := by
  have hmerges' : (start.table.kindOf x).mergesIntoRoot = true := by
    rw [← SymbolKind.mergesIntoRoot_outline, hlinked.outline, SymbolKind.mergesIntoRoot_outline,
      hmerges]
  have himported : (start.table.symbolAt x).isImported = true := by
    have hsettled := h.settled hx
    rw [Symbol.isSettled, Bool.or_eq_true] at hsettled
    refine hsettled.resolve_right fun hbase => ?_
    rw [Table.kindOf, SymbolKind.mergesIntoRoot_of_isBase hbase] at hmerges'
    cases hmerges'
  have hform := h.trusted.merging hmerges
  refine Table.reuses_of_plain hlinked hx hname (h.settled hx) ?_ (fun form hform' => ?_) ?_
  · rw [h.provenance.merged hx himported hmerges', hform]
  · rw [hform] at hform'
    exact (Option.some.inj hform').symm
  · rintro ⟨data, hdata⟩
    obtain ⟨size, hsort⟩ := SymbolKind.unsized_eq_userSort.1 hdata
    rw [hsort] at hmerges
    cases hmerges

/-- What stands for the same declaration is used, with its companions. -/
theorem Placing.reuses_of_isSame (h : Placing imp base start links d)
    (hprep : Prepared tables imp base start) (hlinked : imp.foreign.Linked d.table base r x)
    (hx : start.table.Holds x) (halone : imp.foreign.dataOf? r = none)
    (hroot : (imp.foreign.kindOf r).staysInRoot = true →
      (imp.foreign.kindOf r).mergesIntoRoot = true)
    (hsame : imp.isSame (imp.foreign.symbolAt r) (d.table.symbolAt x) = true) :
    ∀ p ∈ family (imp.foreign.symbolAt r) (d.table.symbolAt x),
      imp.foreign.Reuses start.table base p.1 p.2 := by
  have hforeign := hprep.foreign_regular h
  have hstart := h.linked_start hprep.arranged hlinked hx halone
  have hcases := family_cases hforeign h.regular hlinked (h.later.holds hx)
  cases hmerges : (imp.foreign.kindOf r).mergesIntoRoot with
  | true =>
      -- what merges into the root is the same as any constant there
      rcases hcases with ⟨_, hfamily⟩ | ⟨shape, info, info', hkind, _⟩
      · intro p hp
        rw [hfamily, List.mem_singleton] at hp
        rw [hp]
        have hplace := hstart.found
        rw [Table.relocate?_of_not_sort halone] at hplace
        exact hprep.reuses_of_merges hstart hx (hprep.formed.arena.of_place? hplace).2.1 hmerges
      · rw [hkind] at hmerges
        cases hmerges
  | false =>
      -- anything else is the same only if it has the same origin
      have hmoves : (imp.foreign.kindOf r).staysInRoot = false := by
        refine Bool.eq_false_iff.2 fun hstays => ?_
        rw [hroot hstays] at hmerges
        cases hmerges
      have horigin : (start.table.symbolAt x).origin =
          some ((imp.foreign.symbolAt r).origin.getD ⟨imp.foreign.id, r⟩) := by
        rw [isSame, Bool.or_eq_true] at hsame
        rcases hsame with horigin | hmerge
        · rw [← (h.later.symbol hx).origin_eq, eq_of_beq horigin, originOf,
            hforeign.arena.id_eq hlinked.holds]
        · rw [show (imp.foreign.symbolAt r).kind.mergesIntoRoot = false from hmerges] at hmerge
          cases hmerge
      obtain ⟨hreuses, hcompanions⟩ := hprep.archive.reuses_of_origin hprep.mem hprep.valid
        hprep.formed.toRegular hprep.provenance hstart hx hmoves horigin
      intro p hp
      rcases hcases with ⟨_, hfamily⟩ | ⟨shape, info, info', hkind, hkind', _, _, hfamily⟩
      · rw [hfamily, List.mem_singleton] at hp
        exact hp ▸ hreuses
      · obtain ⟨info'', hx', _⟩ := hstart.companions (hprep.trusted.formed.toRegular)
          hprep.formed.toRegular hkind
        have hsame' := h.later.kindOf_data hx'
        rw [hkind'] at hsame'
        cases hsame'
        obtain ⟨hsort, hconstant⟩ := hcompanions hkind hx'
        rw [hfamily] at hp
        simp only [List.mem_cons, List.not_mem_nil, or_false] at hp
        rcases hp with rfl | rfl | rfl
        · exact hreuses
        · exact hsort
        · exact hconstant

/-- What is built in is used for what is built in. -/
theorem Prepared.reuses_of_isBase (h : Prepared tables imp base start) (hr : imp.foreign.Holds r)
    (hbase : (imp.foreign.kindOf r).isBase = true) (hx : start.table.Holds x)
    (hkind : start.table.kindOf x = imp.foreign.kindOf r)
    (hname : (start.table.symbolAt x).name = (imp.foreign.symbolAt r).name)
    (hlinked : imp.foreign.Linked start.table base r x) :
    imp.foreign.Reuses start.table base r x := by
  have hbare := h.trusted.provenance.bare hr hbase
  refine Table.reuses_of_plain hlinked hx hname (h.settled hx) ?_ (fun form hform => ?_) ?_
  · rw [hbare, h.provenance.bare hx (hkind ▸ hbase)]
  · rw [hbare] at hform
    cases hform
  · rintro ⟨data, hdata⟩
    obtain ⟨size, hkind⟩ := SymbolKind.unsized_eq_userSort.1 hdata
    rw [hkind] at hbase
    cases hbase

/-! ## One step -/

/-- Links to old symbols are added to what is placed. -/
theorem Placing.link (h : Placing imp base start links d)
    (hreuses : ∀ p ∈ family (imp.foreign.symbolAt r) (d.table.symbolAt x),
      imp.foreign.Reuses start.table base p.1 p.2) {p : SymbolId × SymbolId}
    (hp : p ∈ ((family (imp.foreign.symbolAt r) (d.table.symbolAt x)).foldl
      (fun links (a, b) => links.link a b) links).ids) (hold : start.table.Holds p.2) :
    imp.foreign.Reuses start.table base p.1 p.2 := by
  rw [foldl_link] at hp
  rcases List.mem_append.1 hp with hp | hp
  · exact hreuses p (List.mem_reverse.1 hp)
  · exact h.reused hp hold

theorem Placing.cloneInto (h : Placing imp base start links d)
    (hprep : Prepared tables imp base start) (hr : imp.foreign.Holds r)
    (hwanted : Wanted imp base r)
    (hroot : (imp.foreign.kindOf r).staysInRoot = true →
      (imp.foreign.kindOf r).mergesIntoRoot = true)
    {home : NamespaceId}
    (hlanding : imp.foreign.landing? start.table base (imp.foreign.symbolAt r) = some home)
    (hunlinked : (links.find? r).isSome = false)
    (hclean : (imp.cloneInto (imp.foreign.symbolAt r) home links d).2.table.hasDuplicates = false) :
    Placing imp base start (imp.cloneInto (imp.foreign.symbolAt r) home links d).1
      (imp.cloneInto (imp.foreign.symbolAt r) home links d).2 := by
  refine ⟨(h.toGathering.cloneInto hprep.arranged hr hwanted hroot hlanding hunlinked).gathering,
    fun {p} hp hold => ?_⟩
  rcases h.toGathering.cloneInto_cases hprep.arranged hr hwanted hlanding hunlinked with
    ⟨previous, heq⟩ | ⟨x, hsort, hlinked, hx, hsame, heq⟩ | ⟨news, d', heq, hcloned⟩
  · -- the name is taken by another declaration, which is reported
    rw [heq] at hclean
    cases hclean.symm.trans (Table.hasDuplicates_reportDuplicate ..)
  · rw [heq] at hp
    exact h.link (h.reuses_of_isSame hprep hlinked hx hsort hroot hsame) hp hold
  · rw [heq] at hp
    rcases List.mem_append.1 hp with hp | hp
    · exact absurd (h.later.holds hold) (hcloned.fresh (List.mem_reverse.1 hp)).1
    · exact h.reused hp hold

theorem Placing.linkBuiltin (h : Placing imp base start links d)
    (hprep : Prepared tables imp base start) (hr : imp.foreign.Holds r)
    (hbase : (imp.foreign.kindOf r).isBase = true)
    (hlanding : imp.foreign.landing? start.table base (imp.foreign.symbolAt r) = some .root) :
    Placing imp base start (linkBuiltin (imp.foreign.symbolAt r) links d) d := by
  refine ⟨(h.toGathering.linkBuiltin hprep.arranged hr hbase hlanding).gathering,
    fun {p} hp hold => ?_⟩
  obtain ⟨x, hx, hkind, hname, hlinked, hfound⟩ := hprep.arranged.linked_builtin hr hbase hlanding
  rw [h.toGathering.linkBuiltin_eq hprep.arranged hr hbase hx hfound] at hp
  refine h.link (fun q hq => ?_) hp hold
  have hdata : (imp.foreign.symbolAt r).kind.isData = false := by
    cases hk : (imp.foreign.symbolAt r).kind with
    | data =>
        rw [Table.kindOf, hk] at hbase
        cases hbase
    | _ => rfl
  rw [family_of_not_data hdata, (hprep.foreign_regular h).arena.id_eq hr,
    h.regular.arena.id_eq (h.later.holds hx), List.mem_singleton] at hq
  rw [hq]
  exact hprep.reuses_of_isBase hr hbase hx hkind hname hlinked

/-- Placing one more foreign symbol, as long as its name is not taken. -/
theorem Placing.place (h : Placing imp base start links d) (hprep : Prepared tables imp base start)
    (hr : imp.foreign.Holds r)
    (hclean : (imp.place (imp.foreign.symbolAt r) links d).2.table.hasDuplicates = false) :
    Placing imp base start (imp.place (imp.foreign.symbolAt r) links d).1
      (imp.place (imp.foreign.symbolAt r) links d).2 := by
  cases hfind : (links.find? r).isSome with
  | true =>
      have hskip : imp.place (imp.foreign.symbolAt r) links d = (links, d) := by
        rw [Importing.place, (hprep.foreign_regular h).arena.id_eq hr, if_pos hfind]
      rw [hskip]
      exact h
  | false =>
      rcases hprep.arranged.place_cases (d := d) hr hfind with
        ⟨_, heq⟩ | ⟨hbase, hlanding, heq⟩ | ⟨home, hwanted, hroot, hlanding, heq⟩
      · rw [heq]
        exact h
      · rw [heq]
        exact h.linkBuiltin hprep hr hbase hlanding
      · rw [heq] at hclean ⊢
        exact h.cloneInto hprep hr hwanted hroot hlanding hfind hclean

/-! ## All foreign symbols -/

/-- Everything is placed. -/
structure Placed (imp : Importing) (base : NamespaceId) (start : Draft) (links : Links)
    (d : Draft) : Prop extends Placing imp base start links d where
  complete : ∀ {r}, imp.foreign.Holds r → ¬ (base = .root ∧ imp.foreign.IsRootConvenience r) →
    ∃ x, links.find? r = some x

theorem Placing.placed (h : Placing imp base start links d)
    (hprep : Prepared tables imp base start)
    (hlinked : ∀ {r}, imp.foreign.Holds r → Wanted imp base r → (links.find? r).isSome = true) :
    Placed imp base start links d where
  toPlacing := h
  complete {r} hr hkept := by
    have hforeign := hprep.trusted.formed.toRegular
    have hfamily : ∀ {data shape info}, imp.foreign.kindOf data = .data shape info →
        (∃ y, (info.sort, y) ∈ links.ids) ∧ ∃ y, (info.typeConstant, y) ∈ links.ids := by
      intro data shape info hdata
      have hwanted : Wanted imp base data :=
        ⟨by rw [hdata]; rfl, fun hroot => (Table.carries_of_data hdata).declared hroot.2⟩
      obtain ⟨x, hx⟩ := Option.isSome_iff_exists.1 (hlinked (Table.holds_of_data hdata) hwanted)
      exact h.families hdata (Links.mem_of_find? hx)
    refine Option.isSome_iff_exists.1 ?_
    cases halone : (imp.foreign.kindOf r).isCompanion with
    | false => exact hlinked hr ⟨halone, hkept⟩
    | true =>
        cases hkind : imp.foreign.kindOf r with
        | userSort data size =>
            obtain ⟨shape, info, hdata, rfl⟩ :=
              hforeign.families.sort (s := r) (d := data) (by rw [hkind]; rfl)
            obtain ⟨⟨y, hy⟩, _⟩ := hfamily hdata
            exact Links.find?_of_mem hy
        | userConstant constant =>
            rw [hkind] at halone
            cases constant with
            | type sort =>
                obtain ⟨data, shape, info, hdata, _, rfl⟩ := hforeign.families.type hkind
                obtain ⟨_, y, hy⟩ := hfamily hdata
                exact Links.find?_of_mem hy
            | _ => cases halone
        | _ =>
            rw [hkind] at halone
            cases halone

/-- Placing all foreign symbols, one after the other, whatever is reported on the way. -/
theorem Arranged.safe_gather {C : Draft → Prop} (h : Arranged tables imp base start)
    (hC : ∀ {links d}, Gathering imp base start links d → C d) :
    Draft.Safe C (fun d => d.names = start.names ∧ d.table = start.table)
      (imp.foreign.symbols.toList.foldlM imp.placeStep {}) fun links d =>
        Gathering imp base start links d ∧ (d.table.hasDuplicates = false →
          start.table.hasDuplicates = false ∧
            (Prepared tables imp base start → Placed imp base start links d)) := by
  let motive (done : List Symbol) (links : Links) (d : Draft) : Prop :=
    Gathering imp base start links d ∧ (d.table.hasDuplicates = false →
      start.table.hasDuplicates = false ∧
      (Prepared tables imp base start → Placing imp base start links d) ∧
      ∀ {r}, imp.foreign.Holds r → imp.foreign.symbolAt r ∈ done → Wanted imp base r →
        (links.find? r).isSome = true)
  -- One more symbol is placed.
  have hplaced : ∀ (done : List Symbol) (links : Links) (s : Symbol),
      s ∈ imp.foreign.symbols.toList → ∀ d, motive done links d →
      motive (done ++ [s]) (imp.place s links d).1 (imp.place s links d).2 := by
    intro done links s hs d hd
    obtain ⟨q, hq, rfl⟩ := Table.mem_symbols_toList.1 hs
    obtain ⟨hgathering, hkept, hlinked⟩ := hd.1.place h hq
    refine ⟨hgathering, fun hclean => ?_⟩
    obtain ⟨hstart, hplacing, hbefore⟩ :=
      hd.2 ((onward_place imp _ links d).table.hasDuplicates_eq_false hclean)
    refine ⟨hstart, fun hprep => (hplacing hprep).place hprep hq hclean,
      fun {r} hr hmem hwanted => ?_⟩
    rcases List.mem_append.1 hmem with hmem | hmem
    · obtain ⟨x, hx⟩ := Option.isSome_iff_exists.1 (hbefore hr hmem hwanted)
      exact Links.find?_of_mem (hkept (Links.mem_of_find? hx))
    · have hsame := congrArg Symbol.id (List.mem_singleton.1 hmem)
      rw [h.trusted.formed.arena.id_eq hr, h.trusted.formed.arena.id_eq hq] at hsame
      rw [hsame] at hwanted ⊢
      exact hlinked hclean hwanted
  refine (Draft.safe_foldlM (motive := motive) (fun done links s rest hall => ?_) {}).imp ?_ ?_
  · refine Draft.Safe.bind (Q := fun _ => motive done links) ?_ fun _ => ?_
    · refine Draft.safe_tick_of (fun d clock hd => ?_) fun d hd => hC hd.1
      refine ⟨hd.1.of_clock clock, fun hclean => ?_⟩
      obtain ⟨hstart, hplacing, hbefore⟩ := hd.2 hclean
      exact ⟨hstart, fun hprep => { hplacing hprep with }, hbefore⟩
    · refine Draft.safe_modifyGet fun d hd => hplaced done links s ?_ d hd
      rw [hall]
      exact List.mem_append_right _ List.mem_cons_self
  · -- nothing is placed at first
    rintro d ⟨hnames, htable⟩
    have hgathering := h.gathering.of_clock d.clock
    have hplacing : Prepared tables imp base start →
        Placing imp base start {} { start with clock := d.clock } :=
      fun hprep => { hprep.placing with }
    obtain ⟨names, table, clock⟩ := d
    cases hnames
    cases htable
    exact ⟨hgathering, fun hclean =>
      ⟨hclean, hplacing, fun _ hmem => absurd hmem List.not_mem_nil⟩⟩
  · -- all symbols are placed in the end
    intro links d hd
    refine ⟨hd.1, fun hclean => ?_⟩
    obtain ⟨hstart, hplacing, hlinked⟩ := hd.2 hclean
    refine ⟨hstart, fun hprep => (hplacing hprep).placed hprep fun {r} hr hwanted =>
      hlinked hr ?_ hwanted⟩
    exact Table.mem_symbols_toList.2 ⟨r, hr, rfl⟩

/-- Placing all foreign symbols without errors. -/
theorem Prepared.establishes_placed (h : Prepared tables imp base start) :
    Draft.Establishes (fun d => d.names = start.names ∧ d.table = start.table)
      (imp.foreign.symbols.toList.foldlM imp.placeStep {}) (Placed imp base start) where
  proceeds := Draft.proceeds_foldlM _ (Draft.proceeds_placeStep _) _
  run hd hrun hclean := by
    have hgather := h.arranged.safe_gather (C := fun _ => True) fun _ => trivial
    exact ((hgather.ok hd hrun).2 (Table.hasDuplicates_eq_false hclean)).2 h

end Importing

end ManySorted
