import ManySorted.Proofs.Declaration.Restricting
import ManySorted.Proofs.Draft.Ending
import ManySorted.Proofs.Sizing.Safety

/-!
# What judging reports

Judging reports the data without finite terms, then, one component after the other, the cycles
through relational positions and the demands that maps cannot meet, and at last what is wrong with
the contracts.  The sizes that are written on the way are not read again, so all of this can be told
from the table as it was before (`Draft.Judged`).

## Strategy

* **What sizing does not read.**  Sizes of the module's own sorts are written once and not read
  again, so names, demands, cycles and the sizes of nodes are the same before and after
  (`Table.SizesWritten.nodeSize`, `Table.Alike.demandReports`).
* **Components.**  The reports about a component follow from the sizes of those before it, so the
  reports of sizing can be written down beforehand (`Table.sizingReports`).  Sizing one component
  after the other makes just these (`Draft.Tallied`).
* **Contracts** are checked one by one when all sizes are known (`Draft.ends_checkContracts`).
* Together with the data that is not productive this is all that judging reports
  (`Draft.judged_of_judge`).
-/

namespace ManySorted

namespace Table

variable {t t' : Table} {names : Interner} {g : DepGraph SizeNode} {sizes : Sizes}
  {component : List Nat}

/-- The reports about the demands of the map that a sort belongs to, if it does. -/
def demandReports (t : Table) (names : Interner) (sizes : Sizes) (sort : SymbolId) : List Report :=
  (t.dataOf? sort).toList.flatMap fun data => t.totalityReports names sizes data sort

/-- The reports about a component whose sizes are known. -/
def componentReports (t : Table) (names : Interner) (g : DepGraph SizeNode) (sizes : Sizes)
    (component : List Nat) : List Report :=
  (if g.isCyclic component then t.relationalReports names g component else []) ++
    (componentSorts g component).flatMap (t.demandReports names sizes)

/-- The sizes of some components, one after the other. -/
def sizesOf (t : Table) (g : DepGraph SizeNode) (components : List (List Nat)) : Sizes :=
  components.foldl (fun sizes component => t.componentSizes g sizes component ++ sizes) []

/-- The reports about some components, the sizes of all before them being known. -/
def sizingReports (t : Table) (names : Interner) (g : DepGraph SizeNode) :
    Sizes → List (List Nat) → List Report
  | _, [] => []
  | sizes, component :: rest =>
      t.componentReports names g (t.componentSizes g sizes component ++ sizes) component ++
        t.sizingReports names g (t.componentSizes g sizes component ++ sizes) rest

theorem sizesOf_snoc (t : Table) (g : DepGraph SizeNode) (done : List (List Nat))
    (component : List Nat) : t.sizesOf g (done ++ [component]) =
      t.componentSizes g (t.sizesOf g done) component ++ t.sizesOf g done := by
  rw [sizesOf, List.foldl_append]
  rfl

/-! ## What sizing does not read -/

theorem Alike.positionName (h : t.Alike t') : t'.positionName = t.positionName := by
  have hlabels : ∀ kind : SymbolKind, kind.unsized.labels = kind.labels := by
    intro kind
    cases kind <;> rfl
  funext names data position
  have hsame := congrArg SymbolKind.labels (h.unsized data)
  rw [hlabels, hlabels] at hsame
  rw [Table.positionName, Table.positionName, hsame]

theorem Alike.misfits (h : t.Alike t') : t'.misfits = t.misfits := by
  funext names sizes data sort
  by_cases hsort : t.IsSort data
  · obtain ⟨_, hd⟩ := isSort_iff_dataOf?.1 hsort
    have hd' := (h.dataOf? data).trans hd
    obtain ⟨_, hkind⟩ := SymbolKind.unsized_eq_userSort.1 (dataOf?_eq_some_iff.1 hd)
    obtain ⟨_, hkind'⟩ := SymbolKind.unsized_eq_userSort.1 (dataOf?_eq_some_iff.1 hd')
    simp only [Table.misfits, show (t.symbolAt data).kind = _ from hkind,
      show (t'.symbolAt data).kind = _ from hkind']
  · have hkind : (t'.symbolAt data).kind = (t.symbolAt data).kind := h.kindOf hsort
    simp only [Table.misfits, hkind, h.arity, h.positionName]

theorem Alike.demandReports (h : t.Alike t') : t'.demandReports = t.demandReports := by
  funext names sizes sort
  simp only [Table.demandReports, Table.totalityReports, h.dataOf?, h.misfits, h.location,
    h.qualifiedName]

theorem Alike.relationalReports (h : t.Alike t') :
    t'.relationalReports = t.relationalReports := by
  funext names g component
  simp only [Table.relationalReports, h.dataOf?, h.location, h.qualifiedName, h.positionName]

/-- The size of a node depends on forms, and on sizes only of what is imported. -/
theorem SizesWritten.nodeSize (h : t.SizesWritten t') : t'.nodeSize = t.nodeSize := by
  have hany : ∀ kind : SymbolKind, kind.unsized.isAny = kind.isAny := by
    intro kind
    cases kind <;> rfl
  have harity : ∀ x, countedArity (t'.symbolAt x) = countedArity (t.symbolAt x) := by
    have hunsized : ∀ s : Symbol, countedArity s =
        countedArity { s with kind := s.kind.unsized } := by
      intro s
      unfold countedArity
      cases s.kind <;> rfl
    intro x
    have hkind : (t'.symbolAt x).kind.unsized = (t.symbolAt x).kind.unsized := h.unsized x
    rw [hunsized, hunsized (t.symbolAt x), hkind]
    simp only [countedArity, h.arity]
  have hsortSizeAt : t'.sortSizeAt = t.sortSizeAt := by
    funext sizes any sort
    have himported : (t'.symbolAt sort).isImported = (t.symbolAt sort).isImported := by
      rw [Symbol.isImported, Symbol.isImported, h.origin]
    simp only [sortSizeAt, himported]
    cases horigin : (t.symbolAt sort).isImported with
    | false => rfl
    | true =>
        have hsettled : (t.symbolAt sort).isSettled = true := by
          rw [Symbol.isSettled, horigin, Bool.true_or]
        rw [h.settled hsettled]
  funext sizes node
  cases node with
  | sort sort => simp only [Table.nodeSize, sortSize, h.dataOf?, harity]
  | slot sort position =>
      have hmark : (fun data => (t'.kindOf data).isAny position) =
          fun data => (t.kindOf data).isAny position := by
        funext data
        have hsame := congrArg (fun kind : SymbolKind => kind.isAny position) (h.unsized data)
        simpa only [hany] using hsame
      simp only [Table.nodeSize, slotSize, Symbol.accepted?, h.canonical, h.dataOf?, hmark,
        hsortSizeAt]

theorem componentSizes_eq (t : Table) (g : DepGraph SizeNode) (sizes : Sizes)
    (component : List Nat) : t.componentSizes g sizes component =
      (componentNodes g component).map fun node =>
        (node, t.componentSize g sizes component node) := by
  unfold componentSizes componentSize
  split
  · rfl
  · refine List.map_congr_left fun node _ => ?_
    cases node <;> rfl

theorem SizesWritten.componentSizes (h : t.SizesWritten t') :
    t'.componentSizes = t.componentSizes := by
  funext g sizes component
  simp only [componentSizes_eq, componentSize, h.nodeSize]

theorem SizesWritten.sizesOf (h : t.SizesWritten t') : t'.sizesOf = t.sizesOf := by
  funext g components
  rw [Table.sizesOf, Table.sizesOf, h.componentSizes]

theorem SizesWritten.sizingReports (h : t.SizesWritten t') : t'.sizingReports =
    t.sizingReports := by
  funext names g sizes components
  induction components generalizing sizes with
  | nil => rfl
  | cons component rest ih =>
      simp only [Table.sizingReports, Table.componentReports, ih, h.componentSizes,
        h.relationalReports, h.demandReports]

theorem sizeGraph_congr (h : t'.symbols = t.symbols) : t'.sizeGraph = t.sizeGraph := by
  cases t
  cases t'
  cases h
  rfl

theorem Alike.condition (h : t.Alike t') : t'.condition = t.condition := by
  funext names id
  unfold Table.condition
  rw [h.resolveOrProblem names (h.resolveId_any id)]
  cases t.resolveOrProblem names id anySymbol none with
  | error problem => rfl
  | ok x =>
      by_cases hsort : t.IsSort x
      · obtain ⟨_, hd⟩ := isSort_iff_dataOf?.1 hsort
        have hd' := (h.dataOf? x).trans hd
        obtain ⟨_, hkind⟩ := SymbolKind.unsized_eq_userSort.1 (dataOf?_eq_some_iff.1 hd)
        obtain ⟨_, hkind'⟩ := SymbolKind.unsized_eq_userSort.1 (dataOf?_eq_some_iff.1 hd')
        simp only [bind, Except.bind, hkind, hkind']
      · simp only [bind, Except.bind, h.kindOf hsort]

/-- Contracts read the sizes of sorts, and nothing else that is written. -/
theorem Alike.checkContract (h : t.Alike t')
    (hsize : ∀ x, (t'.symbolAt x).size? = (t.symbolAt x).size?) :
    t'.checkContract = t.checkContract := by
  have hsort : t'.sortOf? = t.sortOf? := funext fun x => sortOf?_congr (h.unsized x)
  funext names m contract
  cases hitem : contract.item with
  | cardinality c sort =>
      simp only [Table.checkContract, hitem, h.resolveOrProblem names (h.resolveId_type sort),
        checkCardinality, h.qualifiedName, h.isNew, hsort, hsize]
  | holds ids =>
      simp only [Table.checkContract, hitem, checkConditions, h.condition, h.qualifiedName]

theorem reports_finishSort {s : SymbolId} (hs : t.Holds s)
    (h : t.finishSort names sizes s = .ok t') :
    t'.reports = t.reports ++ t.demandReports names sizes s := by
  have halike := (writesSize_finishSort hs h).toAlike
  obtain ⟨t₁, hsize, h⟩ := except_bind_eq_ok.1 h
  have hreports := reports_setSize hsize
  dsimp only at h
  split at h
  · next hnone =>
      cases h
      rw [hreports, ← halike.demandReports, Table.demandReports, hnone]
      exact (List.append_nil _).symm
  · next data hdata =>
      cases h
      obtain ⟨hid, hnamespaces, hsymbols⟩ :=
        t₁.reportAll_eq (t₁.totalityReports names sizes data s)
      have hdemands : t₁.demandReports = t.demandReports := by
        refine Eq.trans (Eq.symm ?_) halike.demandReports
        exact Alike.demandReports (.of_eq hid hnamespaces hsymbols)
      rw [← hdemands, Table.demandReports, hdata]
      change (t₁.reportAll _).reports = _
      rw [reports_reportAll, hreports, Option.toList_some, List.flatMap_singleton]

end Table

namespace Draft

variable {base d : Draft} {g : DepGraph SizeNode} {m : Module} {origin : Table}

/-- What is known once some sorts were finished: they have their sizes, and the reports are
known. -/
structure Finished (base : Draft) (sorts : List SymbolId) (sizes : Sizes) (reports : List Report)
    (d : Draft) : Prop where
  alike : base.table.Alike d.table
  size : ∀ s ∈ sorts,
    (d.table.symbolAt s).size? = some ((sizes.find? (.sort s)).getD .infinity)
  reports_eq : d.table.reports = reports

theorem ends_finishSorts {done sorts : List SymbolId} {sizes : Sizes} {reports : List Report}
    (hholds : ∀ s ∈ sorts, base.table.Holds s) :
    Ends (Finished base done sizes reports)
      (sorts.forM fun sort => tryModifyTable (·.finishSort base.names sizes sort))
      fun _ => Finished base (done ++ sorts) sizes
        (reports ++ sorts.flatMap (base.table.demandReports base.names sizes)) := by
  refine (ends_forM (motive := fun before => Finished base (done ++ before) sizes
    (reports ++ before.flatMap (base.table.demandReports base.names sizes)))
    fun before s after hall => ends_tryModifyTable fun d table hd hfinish => ?_).imp
      (fun d hd => ?_) fun _ _ hd => hd
  · have hs : d.table.Holds s := (hd.alike.holds s).2 (hholds s (hall ▸ by simp))
    have hwrites := Table.writesSize_finishSort hs hfinish
    refine ⟨hd.alike.trans hwrites.toAlike, fun s' hs' => ?_, ?_⟩
    · change (table.symbolAt s').size? = _
      rw [hwrites.size]
      split
      · next heq => rw [heq]
      · next hne =>
          refine hd.size s' ?_
          simp only [List.mem_append, List.mem_singleton, hne, or_false] at hs' ⊢
          exact hs'
    · change table.reports = _
      rw [Table.reports_finishSort hs hfinish, hd.reports_eq, hd.alike.demandReports,
        List.flatMap_append, List.flatMap_singleton, List.append_assoc]
  · rwa [List.append_nil, List.flatMap_nil, List.append_nil]

/-- A cycle is reported before the sorts of its component are finished. -/
theorem ends_finishComponent {done : List SymbolId} {component : List Nat} {sizes : Sizes}
    {reports : List Report} (hholds : ∀ s ∈ Table.componentSorts g component, base.table.Holds s) :
    Ends (Finished base done sizes reports)
      (do
        if g.isCyclic component then
          modifyTable fun t => t.reportAll (t.relationalReports base.names g component)
        (Table.componentSorts g component).forM fun sort =>
          tryModifyTable (·.finishSort base.names sizes sort)
        return sizes)
      fun sizes' d => sizes' = sizes ∧
        Finished base (done ++ Table.componentSorts g component) sizes
          (reports ++ base.table.componentReports base.names g sizes component) d := by
  have hfinish : ∀ reports, Ends (Finished base done sizes reports)
      (do
        (Table.componentSorts g component).forM fun sort =>
          tryModifyTable (·.finishSort base.names sizes sort)
        return sizes)
      fun sizes' d => sizes' = sizes ∧ Finished base (done ++ Table.componentSorts g component)
        sizes (reports ++ (Table.componentSorts g component).flatMap
          (base.table.demandReports base.names sizes)) d :=
    fun reports => (ends_finishSorts hholds).bind fun _ => ends_pure fun d hd => ⟨rfl, hd⟩
  dsimp only
  refine .ite (fun hcyclic => ?_) fun hacyclic => (hfinish _).imp (fun _ hd => hd) ?_
  · refine (ends_modifyTable (Q := fun _ => Finished base done sizes
      (reports ++ base.table.relationalReports base.names g component)) fun d hd => ?_).bind
        fun _ => (hfinish _).imp (fun _ hd => hd) ?_
    · obtain ⟨hid, hnamespaces, hsymbols⟩ :=
        d.table.reportAll_eq (d.table.relationalReports base.names g component)
      refine ⟨hd.alike.trans (.of_eq hid hnamespaces hsymbols), fun s hs => ?_, ?_⟩
      · rw [Table.symbolAt, hsymbols]
        exact hd.size s hs
      · rw [Table.reports_reportAll, hd.reports_eq, hd.alike.relationalReports]
    · rintro sizes' d ⟨hsizes, hd⟩
      rw [Table.componentReports, if_pos hcyclic, ← List.append_assoc]
      exact ⟨hsizes, hd⟩
  · rintro sizes' d ⟨hsizes, hd⟩
    rw [Table.componentReports, if_neg hacyclic, List.nil_append]
    exact ⟨hsizes, hd⟩

/-- What is known once some components were sized.  With the reports on those that are still to
come, the reports are as they will be in the end. -/
structure Tallied (base : Draft) (g : DepGraph SizeNode) (done : List (List Nat)) (sizes : Sizes)
    (d : Draft) : Prop extends
    Finished base (done.flatMap (Table.componentSorts g)) sizes d.table.reports d where
  sizing : Sizing base (done.flatMap (Table.componentSorts g)) sizes d
  sizes_eq : sizes = base.table.sizesOf g done
  reports : ∀ rest, g.components = done ++ rest →
    d.table.reports ++ base.table.sizingReports base.names g sizes rest =
      base.table.reports ++ base.table.sizingReports base.names g [] g.components

theorem Tallied.of_clock {sizes : Sizes} {done : List (List Nat)} (h : Tallied base g done sizes d)
    (clock : Clock) : Tallied base g done sizes { d with clock } where
  alike := h.alike
  size := h.size
  reports_eq := h.reports_eq
  sizing := h.sizing.of_eq rfl rfl rfl rfl
  sizes_eq := h.sizes_eq
  reports := h.reports

theorem ends_sizeComponent (hg : Sizable base g) {sizes : Sizes} {done rest : List (List Nat)}
    {component : List Nat} (hcomponents : g.components = done ++ component :: rest) :
    Ends (Tallied base g done sizes) (sizeComponent g sizes component)
      (Tallied base g (done ++ [component])) := by
  intro d₀ sizes' d' hd₀ hrun
  have hsizing := (safe_sizeComponent hg hcomponents).ok hd₀.sizing hrun
  have hnodup := Table.nodup_componentSorts hg.proper
  rw [hcomponents, List.flatMap_append, List.flatMap_cons] at hnodup
  have hholds : ∀ s ∈ Table.componentSorts g component, base.table.Holds s := by
    intro s hs
    obtain ⟨i, _, hi⟩ := List.mem_filterMap.1 (Table.mem_componentSorts.1 hs)
    exact (hg.sort hi).1.holds
  -- What was sized before keeps its size, for no sort is in two components.
  have hkept : ∀ s ∈ done.flatMap (Table.componentSorts g),
      Sizes.find? (base.table.componentSizes g sizes component ++ sizes) (.sort s) =
        sizes.find? (.sort s) := by
    intro s hs
    rw [Table.find?_componentSizes, if_neg]
    intro hmem
    exact (List.nodup_append.1 hnodup).2.2 s hs s
      (List.mem_append_left _ (Table.mem_componentSorts.2 hmem)) rfl
  suffices hfinished : Ends (· = d₀) (sizeComponent g sizes component) fun sizes' =>
      fun d => sizes' = base.table.componentSizes g sizes component ++ sizes ∧
        Finished base ((done ++ [component]).flatMap (Table.componentSorts g)) sizes'
          (d₀.table.reports ++ base.table.componentReports base.names g sizes' component) d by
    obtain ⟨hsizes, hfinished⟩ := hfinished d₀ sizes' d' rfl hrun
    refine ⟨⟨hfinished.alike, hfinished.size, rfl⟩, hsizing, ?_, fun rest' hrest' => ?_⟩
    · rw [hsizes, Table.sizesOf_snoc, hd₀.sizes_eq]
    · have hreports := hd₀.reports (component :: rest') (by
        rw [hrest', List.append_assoc, List.singleton_append])
      rw [← hreports, hfinished.reports_eq, List.append_assoc, Table.sizingReports, hsizes]
  have hequal : d₀.table.componentSizes = base.table.componentSizes :=
    hd₀.sizing.written.componentSizes
  refine (ends_tick (P := fun d => d.names = d₀.names ∧ d.table = d₀.table)
    (fun _ _ hd => hd)).bind (fun _ => ends_getNames_bind fun names =>
      ends_getTable_bind fun t => ?_)
    |>.imp (fun d hd => by rw [hd]; exact ⟨rfl, rfl⟩) fun _ _ hd => hd
  rintro d a d'' ⟨⟨⟨hnames, htable⟩, rfl⟩, rfl⟩ hrun
  rw [hnames, htable, hequal, hd₀.sizing.names_eq] at hrun
  have hstart : Finished base (done.flatMap (Table.componentSorts g))
      (base.table.componentSizes g sizes component ++ sizes) d₀.table.reports d := by
    refine ⟨htable ▸ hd₀.alike, fun s hs => ?_, by rw [htable]⟩
    rw [htable, hkept s hs]
    exact hd₀.size s hs
  obtain ⟨rfl, hfinished⟩ := ends_finishComponent hholds d a d'' hstart hrun
  rw [List.flatMap_append, List.flatMap_singleton]
  exact ⟨rfl, hfinished⟩

/-! ## The account -/

/-- What judging leaves: the sizes of productive data, and reports that could be told before. -/
structure Judged (m : Module) (base d : Draft) : Prop where
  names_eq : d.names = base.names
  written : base.table.SizesWritten d.table
  size : ∀ s ∈ (base.table.sizeGraph base.table.productiveData).components.flatMap
      (Table.componentSorts (base.table.sizeGraph base.table.productiveData)),
    (d.table.symbolAt s).size? = some (((base.table.sizesOf
      (base.table.sizeGraph base.table.productiveData)
      (base.table.sizeGraph base.table.productiveData).components).find? (.sort s)).getD .infinity)
  others : ∀ s, s ∉ (base.table.sizeGraph base.table.productiveData).components.flatMap
      (Table.componentSorts (base.table.sizeGraph base.table.productiveData)) →
    (d.table.symbolAt s).size? = (base.table.symbolAt s).size?
  reports_eq : d.table.reports = base.table.reports ++ base.unproductiveReports ++
    base.table.sizingReports base.names (base.table.sizeGraph base.table.productiveData) []
      (base.table.sizeGraph base.table.productiveData).components ++
    m.contracts.flatMap fun contract => (d.table.checkContract d.names m contract).reports

/-- Contracts are checked one by one, and sizes do not change any more. -/
theorem ends_checkContracts (m : Module) {names : Interner} {t : Table} :
    Ends (fun d => d.names = names ∧ d.table = t) (m.contracts.forM (checkContract m))
      fun _ d => d.names = names ∧ d.table.id = t.id ∧ d.table.namespaces = t.namespaces ∧
        d.table.symbols = t.symbols ∧ d.table.reports = t.reports ++
          m.contracts.flatMap fun contract => (t.checkContract names m contract).reports := by
  refine (ends_forM (motive := fun done d => d.names = names ∧ d.table.id = t.id ∧
    d.table.namespaces = t.namespaces ∧ d.table.symbols = t.symbols ∧ d.table.reports =
      t.reports ++ done.flatMap fun contract => (t.checkContract names m contract).reports)
    fun done contract rest _ => (ends_tick fun _ _ hd => hd).bind fun _ => ends_modify ?_).imp
      (fun d hd => ?_) fun _ _ hd => hd
  · rintro d ⟨hnames, hid, hnamespaces, hsymbols, hreports⟩
    have halike : t.Alike d.table := .of_eq hid hnamespaces hsymbols
    have hcheck : d.table.checkContract = t.checkContract := halike.checkContract fun x => by
      rw [Table.symbolAt, hsymbols]
      rfl
    obtain ⟨hid', hnamespaces', hsymbols'⟩ :=
      d.table.reportAll_eq (d.table.checkContract d.names m contract).reports
    refine ⟨hnames, hid'.trans hid, hnamespaces'.trans hnamespaces, hsymbols'.trans hsymbols, ?_⟩
    change (d.table.reportAll _).reports = _
    rw [Table.reports_reportAll, hreports, hcheck, hnames, List.flatMap_append,
      List.flatMap_singleton, List.append_assoc]
  · obtain ⟨hnames, rfl⟩ := hd
    exact ⟨hnames, rfl, rfl, rfl, (List.append_nil _).symm⟩

/-- Sizing leaves the sizes of all components. -/
theorem exists_tallied (h : Declared m origin base) (hunsized : base.Unsized)
    (hrun : sizeData base.table.productiveData base = .ok () d) : ∃ sizes, Tallied base
      (base.table.sizeGraph base.table.productiveData)
      (base.table.sizeGraph base.table.productiveData).components sizes d := by
  have hfold := ends_foldlM (motive := Tallied base
      (base.table.sizeGraph base.table.productiveData))
    (fun done sizes component rest hall => ends_sizeComponent (h.sizable hunsized) hall) []
  rw [sizeData, getTable_bind] at hrun
  refine (hfold.discard (R := fun _ d => ∃ sizes, Tallied base _ _ sizes d)
    fun sizes d hd => ⟨sizes, hd⟩) base () d ?_ hrun
  exact ⟨⟨.refl _, fun s hs => absurd hs List.not_mem_nil, rfl⟩, h.sizing, rfl,
    fun rest hrest => by rw [hrest, List.nil_append]⟩

/-- What judging leaves. -/
theorem judged_of_judge (h : Declared m origin base) (hunsized : base.Unsized)
    (hrun : judge m base = .ok () d) : Judged m base d := by
  obtain ⟨productive, d₁, hproductive, hrun⟩ := bind_eq_ok.1 hrun
  obtain ⟨_, d₂, hsize, hcheck⟩ := bind_eq_ok.1 hrun
  obtain ⟨rfl, hnames, htable⟩ :=
    (safe_checkProductivity h.intact).ok ⟨rfl, rfl⟩ hproductive
  obtain ⟨hid, hnamespaces, hsymbols⟩ := base.table.reportAll_eq base.unproductiveReports
  have hreports := base.table.reports_reportAll base.unproductiveReports
  rw [← htable] at hid hnamespaces hsymbols hreports
  obtain ⟨hdeclared, hunsized'⟩ := h.reported hunsized hnames htable
  have haside : base.table.SizesWritten d₁.table := .of_eq hid hnamespaces hsymbols
  have hgraph := Table.sizeGraph_congr hsymbols
  -- The sizes are those that the table before had in store.
  rw [← haside.productiveData] at hsize
  obtain ⟨sizes, hsizes⟩ := exists_tallied hdeclared hunsized' hsize
  rw [hgraph, haside.productiveData] at hsizes
  have hnames₂ : d₂.names = base.names := hsizes.sizing.names_eq.trans hnames
  obtain ⟨hnames₃, hid₃, hnamespaces₃, hsymbols₃, hreports₃⟩ :=
    ends_checkContracts m d₂ () d ⟨hnames₂, rfl⟩ hcheck
  have haside₃ : d₂.table.SizesWritten d.table := .of_eq hid₃ hnamespaces₃ hsymbols₃
  have hat : ∀ x, d.table.symbolAt x = d₂.table.symbolAt x := fun x => by
    rw [Table.symbolAt, Table.symbolAt, hsymbols₃]
  refine ⟨hnames₃, haside.trans (hsizes.sizing.written.trans haside₃), fun s hs => ?_,
    fun s hs => ?_, ?_⟩
  · rw [hat, hsizes.size s hs, hsizes.sizes_eq, haside.sizesOf]
  · rw [hat, hsizes.sizing.others s hs, Table.symbolAt, hsymbols]
    rfl
  · have htally := hsizes.reports [] (List.append_nil _).symm
    rw [Table.sizingReports, List.append_nil, hreports, haside.sizingReports, hnames] at htally
    rw [hreports₃, htally, hnames₃, haside₃.toAlike.checkContract fun x => by rw [hat]]

end Draft

end ManySorted
