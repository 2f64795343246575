import ManySorted.Proofs.Session.Completeness
import ManySorted.Proofs.Sizing.Final

/-!
# Sizes solve their equations

Between the sorts of productive data there is a relation that can be told from forms alone: one
depends on another if some position accepts it (`Table.DependsOn`).  What lies on a cycle of it is
infinite.  The size of any other sort is the product of its positions, each worked out from the
sizes that the sorts it accepts have in the end (`Table.productValue?`).  The graph of sizes has
positions as nodes too, so the two relations are compared (`Table.Regular.circular_iff`), and the
account that sizing gives of itself on the graph becomes one in terms of sorts (`Table.Balanced`).

## Strategy

* **Cycles.**  A path in the graph of sizes alternates between sorts and positions, so the sorts on
  it depend on each other, and conversely a sort leads to those that it depends on by way of a
  position (`Table.Regular.circular_iff`).
* **Order.**  When a component is sized, all that it depends on is sized (`Table.sizedInOrder`).
* **Equations.**  What sizing arrives at solves the equations of nodes.  If these sizes are the ones
  that are stored, they solve the equations of sorts (`Table.Stored.balanced`).
* **Checks.**  Contracts leave the sizes as they are (`Draft.safe_checkContracts`), so the sizes
  that a check hands out are those that sizing arrived at, also if it is cancelled afterwards
  (`checkModule_shows`).
-/

namespace ManySorted

namespace Table

variable {names : Interner} {t t' : Table} {d s s' : SymbolId} {n m : SizeNode} {position : Nat}

/-! ## The graph of a sized table -/

/-- The graph of sizes is made of forms, and so can be told when sizes are written. -/
theorem SizesWritten.ownGraph (h : t.SizesWritten t') : t'.ownGraph = t.ownGraph := by
  have hunbounded : ∀ kind : SymbolKind, kind.unsized.isUnbounded = kind.isUnbounded := by
    intro kind
    cases kind <;> rfl
  have hslot : ∀ x, t'.addSlot t.productiveData (t'.symbolAt x) =
      t.addSlot t.productiveData (t.symbolAt x) := by
    intro x
    have hkind := congrArg SymbolKind.isUnbounded (h.unsized x)
    rw [hunbounded, hunbounded] at hkind
    funext s g position
    simp only [addSlot, ownSortsAt, Symbol.accepted?, h.canonical, h.dataOf?,
      show (t'.symbolAt x).kind.isUnbounded = (t.symbolAt x).kind.isUnbounded from hkind]
  have hsort : t'.addSort t.productiveData = t.addSort t.productiveData := by
    funext g data
    simp only [addSort, sortOf?_congr (h.unsized data), h.arity, hslot]
  rw [Table.ownGraph, Table.ownGraph, h.productiveData, sizeGraph, hsort, sizeGraph]

theorem SizesWritten.finalSizes (h : t.SizesWritten t') : t'.finalSizes = t.finalSizes := by
  rw [Table.finalSizes, Table.finalSizes, h.ownGraph, h.sizesOf]

/-! ## The equations -/

/-- Whether the sort of productive data accepts another one at some position. -/
def DependsOn (t : Table) (s s' : SymbolId) : Prop :=
  ∃ d ∈ t.productiveData, t.dataOf? s = some d ∧ ∃ position < (t.symbolAt d).arity, ∃ v,
    (t.symbolAt d).accepted? position = some v ∧ s' ∈ v.sorts ∧
      ∃ d' ∈ t.productiveData, t.dataOf? s' = some d'

/-- Whether the sort depends on itself, at once or not. -/
def Circular (t : Table) (s : SymbolId) : Prop := Relation.TransGen t.DependsOn s s

/-- The size that a sort has in the end: what is stored for it if it is imported or belongs to
productive data of the module, and zero otherwise. -/
def finalSize? (t : Table) (s : SymbolId) : Option SizeExpr :=
  if (t.symbolAt s).isImported || (t.dataOf? s).any t.productiveData.contains then
    (t.symbolAt s).size?
  else some (.count 0)

/-- What a sort adds to a position.  At a relational position an infinite sort counts with the
number of its facts. -/
def addend? (t : Table) (any : Bool) (s : SymbolId) : Option SizeExpr :=
  (t.finalSize? s).map fun size => if size.isInfinite && !any then .card s else size

/-- The size of a position: the values that are no data, and what the sorts add. -/
def slotValue? (t : Table) (d : SymbolId) (position : Nat) : Option SizeExpr := do
  let values ← (t.symbolAt d).accepted? position
  let addends ← values.sorts.toList.mapM (t.addend? ((t.kindOf d).isAny position))
  return .add (values.groundCount.elim .infinity .count :: addends)

/-- The product of the positions that count. -/
def productValue? (t : Table) (d : SymbolId) : Option SizeExpr :=
  ((List.range (countedArity (t.symbolAt d))).mapM (t.slotValue? d)).map .multiply

/-- Every sort of productive data has a size.  It is infinite on a cycle, and otherwise what the
sizes of the sorts that it accepts make it. -/
def Balanced (t : Table) : Prop :=
  ∀ d ∈ t.productiveData, ∃ s e, t.sortOf? d = some s ∧ (t.symbolAt s).size? = some e ∧
    (t.Circular s → e = .infinity) ∧ (¬ t.Circular s → t.productValue? d = some e)

/-- When the nodes of a component are sized, everything that they depend on is sized already, unless
they lie on a cycle. -/
def SizedInOrder (t : Table) : Prop :=
  ∀ before c after, t.ownGraph.components = before ++ c :: after →
    ∀ n ∈ componentNodes t.ownGraph c, ¬ t.ownGraph.Cycles n → ∀ m, t.ownGraph.Leads n m →
      ∃ e, (t.sizesOf t.ownGraph before).find? m = some e

/-! ## Cycles of sorts and cycles of nodes -/

section

variable (ht : t.Regular names)
include ht

theorem Regular.exists_of_leads_sort (h : t.ownGraph.Leads (.sort s) m) :
    ∃ position, m = .slot s position := by
  obtain ⟨d, hd, hs⟩ := (has_sort_iff ht).1 (t.proper_ownGraph.has_of_leads h).1
  obtain ⟨mark, hmem⟩ := h
  rw [outlets_sort ht hd hs] at hmem
  obtain ⟨position, -, heq⟩ := List.mem_map.1 hmem
  exact ⟨position, (Prod.mk.inj heq).1.symm⟩

theorem Regular.exists_of_leads_slot (h : t.ownGraph.Leads (.slot s position) m) :
    ∃ s', m = .sort s' ∧ t.DependsOn s s' := by
  obtain ⟨d, hd, hs, hlt⟩ := (has_slot_iff ht).1 (t.proper_ownGraph.has_of_leads h).1
  obtain ⟨s', rfl, v, hv, hs', hown⟩ := (leads_slot_iff ht hd hs hlt).1 h
  exact ⟨s', rfl, d, hd, hs, position, hlt, v, hv, hs', hown⟩

/-- A path in the graph alternates between sorts and positions, and the sorts on it depend on each
other. -/
theorem Regular.dependsOn_of_leads (h : Relation.TransGen t.ownGraph.Leads (.sort s) m) :
    match m with
    | .sort s' => Relation.TransGen t.DependsOn s s'
    | .slot s' _ => Relation.ReflTransGen t.DependsOn s s' := by
  induction h with
  | single hleads =>
      obtain ⟨position, rfl⟩ := ht.exists_of_leads_sort hleads
      exact .refl
  | @tail n m _ hleads ih =>
      cases n with
      | sort s₁ =>
          obtain ⟨position, rfl⟩ := ht.exists_of_leads_sort hleads
          exact Relation.TransGen.to_reflTransGen ih
      | slot s₁ position =>
          obtain ⟨s₂, rfl, hdepends⟩ := ht.exists_of_leads_slot hleads
          exact Relation.TransGen.tail' ih hdepends

/-- A sort leads to those that it depends on, by way of a position. -/
theorem Regular.leads_of_dependsOn (h : t.DependsOn s s') :
    Relation.TransGen t.ownGraph.Leads (.sort s) (.sort s') := by
  obtain ⟨d, hd, hs, position, hlt, v, hv, hs', hown⟩ := h
  exact .tail (.single (leads_slot ht hd hs hlt))
    (leads_sort ht hd hs hlt hv hs' ((has_sort_iff ht).2 hown))

/-- The sorts on cycles are the same. -/
theorem Regular.circular_iff : t.Circular s ↔ t.ownGraph.Cycles (.sort s) :=
  ⟨Relation.TransGen.lift' SizeNode.sort (fun _ _ => ht.leads_of_dependsOn) s s,
    ht.dependsOn_of_leads⟩

/-- So are the sorts that can be reached. -/
theorem Regular.reaches_iff : Relation.ReflTransGen t.DependsOn s s' ↔
    Relation.ReflTransGen t.ownGraph.Leads (.sort s) (.sort s') := by
  rw [Relation.reflTransGen_iff_eq_or_transGen, Relation.reflTransGen_iff_eq_or_transGen]
  refine or_congr (by rw [SizeNode.sort.injEq]) ⟨fun h => ?_, ht.dependsOn_of_leads⟩
  exact Relation.TransGen.lift' SizeNode.sort (fun _ _ => ht.leads_of_dependsOn) s s' h

/-- A position is on a cycle only together with its sort. -/
theorem Regular.cycles_of_slot (h : t.ownGraph.Cycles (.slot s position)) :
    t.ownGraph.Cycles (.sort s) := by
  obtain ⟨n, hreach, hleads⟩ := Relation.TransGen.tail'_iff.1 h
  cases n with
  | sort s₁ =>
      obtain ⟨position', heq⟩ := ht.exists_of_leads_sort hleads
      cases heq
      exact .head' hleads hreach
  | slot s₁ position' =>
      obtain ⟨s₂, heq, -⟩ := ht.exists_of_leads_slot hleads
      cases heq

end

/-! ## The order of components -/

theorem exists_find?_sizesOf {g : DepGraph SizeNode} {done : List (List Nat)} {c : List Nat}
    (hc : c ∈ done) (hn : n ∈ componentNodes g c) : ∃ e, (t.sizesOf g done).find? n = some e := by
  induction done using List.reverseRecOn with
  | nil => exact absurd hc List.not_mem_nil
  | append_singleton done c' ih =>
      rw [sizesOf_snoc, find?_componentSizes]
      split
      · exact ⟨_, rfl⟩
      · next hnot =>
          refine ih ((List.mem_append.1 hc).resolve_right fun hlast => hnot ?_)
          rwa [← List.mem_singleton.1 hlast]

theorem exists_find?_finalSizes (t : Table) (hn : t.ownGraph.Has n) :
    ∃ e, t.finalSizes.find? n = some e := by
  obtain ⟨before, c, after, hcomponents, hmem⟩ := exists_component_of_has t.proper_ownGraph hn
  exact exists_find?_sizesOf (hcomponents ▸ List.mem_append_right _ List.mem_cons_self) hmem

theorem sizedInOrder (t : Table) : t.SizedInOrder := by
  intro before c after hcomponents n hn hacyclic m hleads
  obtain ⟨c', hc', hm⟩ := exists_sized_before t.proper_ownGraph hcomponents hn hacyclic hleads
  exact exists_find?_sizesOf hc' hm

/-! ## Solving the equations -/

/-- The sorts of productive data have the sizes that sizing arrives at, and imported sorts have
sizes as well. -/
structure Stored (t : Table) : Prop where
  own : ∀ {s}, t.ownGraph.Has (.sort s) → (t.symbolAt s).size? = t.finalSizes.find? (.sort s)
  imported : ∀ {s}, t.IsSort s → (t.symbolAt s).isImported = true → (t.symbolAt s).size? ≠ none

section

variable (ht : t.Intact names) (h : t.Stored)
include ht h

theorem Stored.addend?_eq (hsort : t.IsSort s) (any : Bool) :
    t.addend? any s = some (t.sortSizeAt t.finalSizes any s) := by
  have hregular := ht.formed.toRegular
  have hown : (t.dataOf? s).any t.productiveData.contains = true ↔ t.ownGraph.Has (.sort s) := by
    rw [has_sort_iff hregular, Option.any_eq_true]
    exact exists_congr fun d => by rw [List.contains_iff_mem, and_comm]
  rw [addend?, finalSize?, sortSizeAt]
  by_cases hhas : t.ownGraph.Has (.sort s)
  · obtain ⟨e, he⟩ := t.exists_find?_finalSizes hhas
    rw [hown.2 hhas, Bool.or_true, if_pos rfl, h.own hhas, he]
    rfl
  · rw [Bool.eq_false_iff.2 (mt hown.1 hhas), Bool.or_false, find?_finalSizes_none hhas]
    cases himported : (t.symbolAt s).isImported with
    | false =>
        simp only [himported]
        rfl
    | true =>
        obtain ⟨e, he⟩ := Option.ne_none_iff_exists'.1 (h.imported hsort himported)
        simp only [himported, he]
        rfl

theorem Stored.slotValue?_eq (hd : d ∈ t.productiveData) (hs : t.dataOf? s = some d)
    (hlt : position < (t.symbolAt d).arity) :
    t.slotValue? d position = some (t.slotSize t.finalSizes s position) := by
  obtain ⟨v, hv⟩ := (accepted?_of_mem_productiveData hd).2 position hlt
  have hsorts : ∀ s' ∈ v.sorts.toList, t.addend? ((t.kindOf d).isAny position) s' =
      some (t.sortSizeAt t.finalSizes ((t.kindOf d).isAny position) s') := fun s' hs' =>
    h.addend?_eq ht ((closed_accepted ht.closed hv).sorts hs') _
  rw [slotValue?, slotSize, ht.accepted?_eq hs, hv, hs, Option.any_some]
  simp only [Option.bind_eq_bind, Option.bind_some, mapM_eq_some_map hsorts, pure]
  cases v.groundCount <;> rfl

theorem Stored.productValue?_eq (hd : d ∈ t.productiveData) (hs : t.dataOf? s = some d)
    (hacyclic : ¬ t.ownGraph.Cycles (.sort s)) :
    t.productValue? d = some (t.sortSize t.finalSizes s) := by
  have hregular := ht.formed.toRegular
  obtain ⟨shape, info, hkind⟩ := exists_data_of_isData (ht.formed.arena.isData_of_productive hd)
  have hslots : ∀ position ∈ List.range (countedArity (t.symbolAt d)),
      t.slotValue? d position = some (t.finalSizes.slot s position) := by
    intro position hposition
    have hlt := Nat.lt_of_lt_of_le (List.mem_range.1 hposition) (ht.domainArity_le hkind)
    have hfind := (ht.find?_finalSizes ((has_slot_iff hregular).2 ⟨d, hd, hs, hlt⟩)).2
      (mt hregular.cycles_of_slot hacyclic)
    rw [h.slotValue?_eq ht hd hs hlt, Sizes.slot, hfind]
    rfl
  rw [productValue?, mapM_eq_some_map hslots, sortSize, hs]
  rfl

/-- Sizes that are stored as sizing arrives at them solve the equations. -/
theorem Stored.balanced : t.Balanced := by
  intro d hd
  have hregular := ht.formed.toRegular
  have hdata := ht.formed.arena.isData_of_productive hd
  obtain ⟨shape, info, hkind⟩ := exists_data_of_isData hdata
  have hs : t.dataOf? info.sort = some d := ht.formed.families.dataOf?_sort hkind
  have hsort := (ht.formed.families.sortOf?_iff hdata).2 hs
  have hhas := (has_sort_iff hregular).2 ⟨d, hd, hs⟩
  obtain ⟨hcycle, hacyclic⟩ := ht.find?_finalSizes hhas
  have hcircular := hregular.circular_iff (s := info.sort)
  by_cases hc : t.ownGraph.Cycles (.sort info.sort)
  · exact ⟨info.sort, .infinity, hsort, (h.own hhas).trans (hcycle hc), fun _ => rfl,
      fun hnot => absurd (hcircular.2 hc) hnot⟩
  · exact ⟨info.sort, _, hsort, (h.own hhas).trans (hacyclic hc),
      fun hcirc => absurd (hcircular.1 hcirc) hc, fun _ => h.productValue?_eq ht hd hs hc⟩

end

end Table

/-! ## Sizing in a check -/

namespace Draft

variable {tables : List Table} {library : Library} {m : Module} {start sized : Draft} {t : Table}

/-- The passes up to sizing. -/
def sizingPasses (library : Library) (m : Module) : DraftM Unit := do
  m.references.forM (importReference library m)
  declare m
  let productive ← checkProductivity
  sizeData productive

theorem checkPasses_eq_sizing (library : Library) (m : Module) : checkPasses library m = (do
    sizingPasses library m
    m.contracts.forM (checkContract m)) := by
  simp only [checkPasses, sizingPasses, bind_assoc]

/-- The symbols and namespaces are those of a table. -/
def Shows (t : Table) (d : Draft) : Prop :=
  d.table.id = t.id ∧ d.table.namespaces = t.namespaces ∧ d.table.symbols = t.symbols

/-- Contracts leave symbols and namespaces as they are, whenever they are cancelled. -/
theorem safe_checkContracts (t : Table) (m : Module) :
    Safe (Shows t) (Shows t) (m.contracts.forM (checkContract m)) fun _ => Shows t :=
  safe_forM (motive := fun _ => Shows t) fun _ contract _ _ =>
    Safe.bind (safe_tick_of (fun _ _ hd => hd) fun _ hd => hd) fun _ => safe_modify fun d hd => by
      obtain ⟨hid, hnamespaces, hsymbols⟩ :=
        d.table.reportAll_eq (d.table.checkContract d.names m contract).reports
      exact ⟨hid.trans hd.1, hnamespaces.trans hd.2.1, hsymbols.trans hd.2.2⟩

/-- A sort that a module imports has a size once it declares its own. -/
theorem Declared.size_ne_none {origin : Table} {base : Draft} {s : SymbolId}
    (h : Declared m origin base)
    (hsized : ∀ s, origin.IsSort s → (origin.symbolAt s).size? ≠ none)
    (hsettled : ∀ {x}, origin.Holds x → (origin.symbolAt x).isSettled = true)
    (hsort : base.table.IsSort s) (himported : (base.table.symbolAt s).isImported = true) :
    (base.table.symbolAt s).size? ≠ none := by
  have hold : origin.Holds s := by
    by_contra hnew
    have hnone := (h.extended.new hsort.holds hnew).1
    rw [Symbol.isImported, hnone] at himported
    cases himported
  have hsame := (h.extended.later.symbol hold).settled (hsettled hold)
  rw [hsame]
  refine hsized s ?_
  obtain ⟨d, hd⟩ := hsort
  rw [Table.kindOf, hsame] at hd
  exact ⟨d, hd⟩

/-- Once sizing is complete, the sizes that it arrives at are stored. -/
theorem Collected.stored (h : start.Collected tables)
    (hlibrary : ∀ entry ∈ library.tables, entry.2 ∈ tables)
    (hsizes : ∀ t ∈ tables, t.isValid = true → ∀ s, t.IsSort s → (t.symbolAt s).size? ≠ none)
    (hrun : sizingPasses library m start = .ok () sized) (hshows : sized.Shows t) : t.Stored := by
  obtain ⟨_, imported, himports, hrun⟩ := bind_eq_ok.1 hrun
  obtain ⟨_, declared, hdeclare, hrun⟩ := bind_eq_ok.1 hrun
  obtain ⟨productive, base, hproductive, hsize⟩ := bind_eq_ok.1 hrun
  have hcollected := (safe_imports hlibrary m m.references).ok h himports
  obtain ⟨hdeclared, hunsized⟩ := (hcollected.safe_declare m).ok rfl hdeclare
  obtain ⟨rfl, hnames, htable⟩ :=
    (safe_checkProductivity hdeclared.intact).ok ⟨rfl, rfl⟩ hproductive
  obtain ⟨hbase, hbase'⟩ := hdeclared.reported hunsized hnames htable
  obtain ⟨hid, hnamespaces, hsymbols⟩ := declared.table.reportAll_eq declared.unproductiveReports
  rw [← htable] at hid hnamespaces hsymbols
  rw [← (Table.SizesWritten.of_eq hid hnamespaces hsymbols).productiveData] at hsize
  obtain ⟨sizes, htallied⟩ := exists_tallied hbase hbase' hsize
  have hwritten : base.table.SizesWritten t :=
    htallied.sizing.written.trans (.of_eq hshows.1.symm hshows.2.1.symm hshows.2.2.symm)
  have hat : ∀ x, t.symbolAt x = sized.table.symbolAt x := fun x => by
    rw [Table.symbolAt, Table.symbolAt, hshows.2.2]
  refine ⟨fun {s} hhas => ?_, fun {s} hsort himported => ?_⟩
  · rw [hwritten.ownGraph] at hhas
    rw [hwritten.finalSizes]
    obtain ⟨e, he⟩ := base.table.exists_find?_finalSizes hhas
    obtain ⟨i, hi⟩ := hhas
    rw [hat, htallied.size s (Table.mem_flatMap_componentSorts base.table.proper_ownGraph hi),
      htallied.sizes_eq]
    exact (congrArg (fun size : Option SizeExpr => some (size.getD .infinity)) he).trans he.symm
  · have himported' : (base.table.symbolAt s).isImported = true := by
      rw [Symbol.isImported, ← hwritten.origin]
      exact himported
    rw [hwritten.settled (by rw [Symbol.isSettled, himported', Bool.true_or])]
    exact hbase.size_ne_none (hcollected.sized hsizes) hcollected.settled
      (hwritten.isSort.1 hsort) himported'

end Draft

section

variable {names names' : Interner} {tables : List Table} {id : TableId} {library : Library}
  {config : CheckConfig} {m : Module} {out : CheckOutput} {sized : Draft}

/-- However a check ends once its sizing is complete, it hands out the symbols as sizing left
them. -/
theorem checkModule_shows (checked : checkModule names id library config m = (names', .ok out))
    (completed : Draft.sizingPasses library m (Draft.initial names id config m) = .ok () sized) :
    sized.Shows out.table := by
  have hcontracts := Draft.safe_checkContracts sized.table m sized ⟨rfl, rfl, rfl⟩
  have hrun := Draft.bind_of_ok (f := fun _ => m.contracts.forM (Draft.checkContract m)) completed
  rw [← Draft.checkPasses_eq_sizing] at hrun
  rw [checkModule_eq, hrun] at checked
  rcases hcontracts with ⟨_, d, hd, hshows⟩ | ⟨d, hd, hshows⟩ <;>
  · rw [hd] at checked
    dsimp only at checked
    rw [Table.output_eq] at checked
    cases checked
    exact ⟨hshows.1.symm, hshows.2.1.symm, hshows.2.2.symm⟩

/-- The sizing of a check that is not cancelled is complete. -/
theorem exists_sizingPasses (checked : checkModule names id library config m = (names', .ok out))
    (uncancelled : out.cancelled = false) :
    ∃ sized, Draft.sizingPasses library m (Draft.initial names id config m) = .ok () sized := by
  obtain ⟨d, hrun, -, -⟩ := checkModule_uncancelled checked uncancelled
  rw [Draft.checkPasses_eq_sizing] at hrun
  obtain ⟨_, sized, hsized, -⟩ := Draft.bind_eq_ok.1 hrun
  exact ⟨sized, hsized⟩

/-- Once the sizing of a check is complete, the sizes that it arrives at are stored. -/
theorem checkModule_stored (h : Session names tables)
    (held : ∀ entry ∈ library.tables, entry.2 ∈ tables)
    (checked : checkModule names id library config m = (names', .ok out))
    (completed : Draft.sizingPasses library m (Draft.initial names id config m) = .ok () sized) :
    out.table.Stored := by
  have hsizes : ∀ t ∈ tables, t.isValid = true → ∀ s, t.IsSort s → (t.symbolAt s).size? ≠ none :=
    fun t ht hvalid s hs => (h.archive.2.trusted ht hvalid).size_ne_none
      (fun t ht hvalid => (h.furnished t ht hvalid).1) (h.furnished t ht hvalid).1 hs
  have hcollected := Draft.collected_initial h.archive.1 h.archive.2 (fun t ht _ =>
      h.intact t ht) id
    config m
  exact hcollected.stored held hsizes completed (checkModule_shows checked completed)

/-- Sizes solve their equations: once sizing is complete, whether or not the check is cancelled
later and whatever errors there are, every sort of productive data of the module has a size.  It is
infinite on a cycle, and else the product of the positions that count, each worked out from the
final sizes of the sorts that it accepts.  Nothing is sized before what it depends on. -/
theorem checkModule_balanced (h : Session names tables)
    (held : ∀ entry ∈ library.tables, entry.2 ∈ tables)
    (checked : checkModule names id library config m = (names', .ok out))
    (completed : Draft.sizingPasses library m (Draft.initial names id config m) = .ok () sized) :
    out.table.Balanced ∧ out.table.SizedInOrder :=
  ⟨(checkModule_stored h held checked completed).balanced (h.intact_of_check held checked),
    out.table.sizedInOrder⟩

end

namespace Loop

/-- The names of the modules `G` and `H` and of the types `A`, `B`, `C` and `D`. -/
def names : Interner := internAll ["G", "H", "A", "B", "C", "D"]

def typed (name : Nat) : Field := { type := [.named { segments := [⟨name⟩] }] }

/-- `G` has a type `C` with two values. -/
def source : Module where
  kind := .domain
  name := ⟨28⟩
  file := ⟨0⟩
  types := [⟨⟨32⟩, {}, .constructor true [{ type := [.enumeration [.range 1 2 {}] {}] }]⟩]

def zero : TypeTerm := .enumeration [.literal (.integer 0) {}] {}

/-- `H` includes `G` and has types `A (B + {0}, C)` and `B (A + {0})`, which refer to each other,
and pairs `D (C, C)`. -/
def includer : Module where
  kind := .domain
  name := ⟨29⟩
  file := ⟨0⟩
  compositions := [{ module := ⟨28⟩, kind := .includes }]
  types :=
    [⟨⟨30⟩, {}, .constructor true [{ type := [.named { segments := [⟨31⟩] }, zero] }, typed 32]⟩,
     ⟨⟨31⟩, {}, .constructor true [{ type := [.named { segments := [⟨30⟩] }, zero] }]⟩,
     ⟨⟨33⟩, {}, .constructor true [typed 32, typed 32]⟩]

def session : Interner × List Table := checkAll names [] [source]

def result : Interner × Except Fault CheckOutput :=
  checkModule session.1 ⟨1⟩ (.of session.2) {} includer

/-- Whether a check is not cancelled, `A` is infinite and `D` has four values. -/
def sizes (out : CheckOutput) : Bool :=
  !out.cancelled && (out.table.productiveData == [⟨24⟩, ⟨27⟩, ⟨30⟩]) &&
    ((out.table.symbolAt ⟨25⟩).size?.any SizeExpr.isInfinite) &&
    ((out.table.symbolAt ⟨31⟩).size?.bind SizeExpr.closed == some 4)

theorem sizes_result : result.2.toOption.any sizes = true := by decide +kernel

/-- The sizes of `H`, among them an infinite one on a cycle, solve their equations. -/
theorem checkModule_balanced_includer : ∃ out sized,
    checkModule session.1 ⟨1⟩ (.of session.2) {} includer = (result.1, .ok out) ∧
      Draft.sizingPasses (.of session.2) includer (Draft.initial session.1 ⟨1⟩ {} includer) =
        .ok () sized ∧
      out.table.productiveData = [⟨24⟩, ⟨27⟩, ⟨30⟩] ∧ out.table.Balanced ∧
        out.table.SizedInOrder := by
  obtain ⟨out, checked, hsizes⟩ := exists_of_any_toOption sizes_result
  simp only [sizes, Bool.and_eq_true, Bool.not_eq_true', beq_iff_eq] at hsizes
  obtain ⟨sized, completed⟩ := exists_sizingPasses checked hsizes.1.1.1
  exact ⟨out, sized, checked, completed, hsizes.1.1.2,
    checkModule_balanced (session_checkAll _ [source]) (fun _ => Library.mem_of) checked completed⟩

end Loop

end ManySorted
