import ManySorted.Contract
import ManySorted.Proofs.Declaration.Inscription
import ManySorted.Proofs.Productivity
import ManySorted.Proofs.Sizing.Run

/-!
# Sizing does not break down

Whatever errors a module has, a size is written to the sort of every productive data symbol, and to
no other sort (`Draft.Sizing`).  The sorts in the graph of sizes are those of declarations of the
module, which have no size yet, and no sort is in two components; so no size is written twice.

## Strategy

* **No sort twice.**  No node is in two components, and no sort has two nodes
  (`Table.nodup_componentSorts`).
* **One sort.**  A sort without a size takes one (`Table.exists_finishSort`), and if the size is
  closed nothing dangles afterwards (`Table.Intact.finishSort`).
* **One component.**  Its sizes are worked out first and are closed
  (`Draft.Sizing.closed_componentSizes`); they stay so while they are written
  (`Draft.safe_sizeComponent`).
* **All passes of judging.**  The search for productive data and the contracts write nothing
  (`Draft.safe_checkProductivity`, `Draft.safe_checkContract`), so judging never breaks down
  (`Draft.safe_judge`).
-/

namespace ManySorted

namespace Table

variable {names : Interner} {t t' : Table} {s : SymbolId} {g : DepGraph SizeNode} {sizes : Sizes}
  {component : List Nat}

/-! ## No sort is sized twice -/

/-- The sort that a node of the graph stands for. -/
def sortAt? (g : DepGraph SizeNode) (i : Nat) : Option SymbolId :=
  match g.nodes[i]? with
  | some (.sort s) => some s
  | _ => none

theorem sortAt?_eq_some {i : Nat} : sortAt? g i = some s ↔ g.nodes[i]? = some (.sort s) := by
  unfold sortAt?
  split
  · rename_i s' hnode
    rw [hnode]
    exact ⟨fun h => congrArg (some ∘ SizeNode.sort) (Option.some.inj h),
      fun h => congrArg some (SizeNode.sort.inj (Option.some.inj h))⟩
  · rename_i hnode
    exact ⟨fun h => absurd h (by simp), fun h => absurd h (hnode s)⟩

theorem componentSorts_eq (g : DepGraph SizeNode) (component : List Nat) :
    componentSorts g component = component.filterMap (sortAt? g) := by
  rw [componentSorts, List.filterMap_filterMap]
  refine List.filterMap_congr fun i _ => ?_
  unfold sortAt?
  cases g.nodes[i]? with
  | none => rfl
  | some n => cases n <;> rfl

/-- The sorts of all components. -/
theorem flatMap_componentSorts (g : DepGraph SizeNode) (components : List (List Nat)) :
    components.flatMap (componentSorts g) = components.flatten.filterMap (sortAt? g) := by
  rw [List.filterMap_flatten, List.flatMap_def]
  exact congrArg List.flatten (List.map_congr_left fun component _ => componentSorts_eq g component)

theorem nodup_componentSorts (hg : g.Proper) :
    (g.components.flatMap (componentSorts g)).Nodup := by
  rw [flatMap_componentSorts]
  refine (DepGraph.nodup_components hg.inRange).filterMap fun i j s hi hj => ?_
  exact hg.index_unique (sortAt?_eq_some.1 hi) (sortAt?_eq_some.1 hj)

theorem mem_flatMap_componentSorts (hg : g.Proper) {i : Nat} (hi : g.nodes[i]? = some (.sort s)) :
    s ∈ g.components.flatMap (componentSorts g) := by
  rw [flatMap_componentSorts]
  have hlt : i < g.size := (Array.getElem?_eq_some_iff.1 hi).1
  exact List.mem_filterMap.2 ⟨i, DepGraph.mem_components hg.inRange hlt, sortAt?_eq_some.2 hi⟩

/-! ## Writing one size -/

/-- What a symbol has for a sort is one. -/
theorem Regular.isSort_of_sortOf? (h : t.Regular names) {x : SymbolId}
    (hs : t.sortOf? x = some s) : t.IsSort s := by
  rw [sortOf?] at hs
  cases hkind : t.kindOf x with
  | userSort d size =>
      rw [hkind] at hs
      cases hs
      exact ⟨d, by rw [hkind]; rfl⟩
  | data shape info =>
      rw [hkind] at hs
      cases hs
      exact ⟨x, (h.families.data hkind).sort_kind⟩
  | _ =>
      rw [hkind] at hs
      cases hs

theorem exists_finishSort (hsort : t.IsSort s) (hnone : (t.symbolAt s).size? = none)
    (names : Interner) (sizes : Sizes) : ∃ t', t.finishSort names sizes s = .ok t' := by
  obtain ⟨t₁, ht₁⟩ := setSize_of_none hsort hnone ((sizes.find? (.sort s)).getD .infinity)
  cases hdata : t₁.dataOf? s with
  | none => exact ⟨_, except_bind_eq_ok.2 ⟨t₁, ht₁, by simp only [hdata]; rfl⟩⟩
  | some d => exact ⟨_, except_bind_eq_ok.2 ⟨t₁, ht₁, by simp only [hdata]; rfl⟩⟩

/-- The size of a sort was written, and nothing else. -/
structure WritesSize (t t' : Table) (s : SymbolId) (e : SizeExpr) : Prop extends
    t.Alike t' where
  canonical : ∀ y, (t'.symbolAt y).canonical = (t.symbolAt y).canonical
  failed : ∀ y, (t'.symbolAt y).failed = (t.symbolAt y).failed
  size : ∀ y, (t'.symbolAt y).size? = if y = s then some e else (t.symbolAt y).size?

theorem writesSize_finishSort (hs : t.Holds s) (h : t.finishSort names sizes s = .ok t') :
    t.WritesSize t' s ((sizes.find? (.sort s)).getD .infinity) := by
  obtain ⟨t₁, ht₁, hid, hnamespaces, hsymbols⟩ := finishSort_ok h
  obtain ⟨d, htouched, _, hat⟩ := touched_setSize ht₁ hs
  have hsame : ∀ y, t'.symbolAt y = t₁.symbolAt y := fun y => by
    rw [Table.symbolAt, hsymbols]
    rfl
  have hother : ∀ {y}, y ≠ s → t'.symbolAt y = t.symbolAt y := fun {y} hy => by
    rw [hsame, htouched.same (by simpa using hy)]
  rw [← hsame] at hat
  refine ⟨⟨hid.trans htouched.id_eq, hnamespaces.trans htouched.namespaces_eq, fun y => ?_,
    fun y => ?_, fun y => ?_⟩, fun y => ?_, fun y => ?_, fun y => ?_⟩
  · rw [← htouched.holds y, Table.Holds, hsymbols]
    rfl
  · rw [hsame, htouched.blank]
  · by_cases hy : y = s
    · rw [hy, hat]
    · rw [hother hy]
  · by_cases hy : y = s
    · rw [hy, hat]
    · rw [hother hy]
  · by_cases hy : y = s
    · rw [hy, hat]
    · rw [hother hy]
  · by_cases hy : y = s
    · rw [hy, hat, if_pos rfl]
      rfl
    · rw [hother hy, if_neg hy]

/-- Finishing a sort that has no size never breaks down. -/
theorem Intact.finishSort (h : t.Intact names) (hsort : t.IsSort s)
    (hnone : (t.symbolAt s).size? = none)
    (hsizes : ∀ {n e}, sizes.find? n = some e → e.Closed t) (names' : Interner) :
    ∃ t', t.finishSort names' sizes s = .ok t' ∧ t'.Intact names ∧
      t.WritesSize t' s ((sizes.find? (.sort s)).getD .infinity) := by
  obtain ⟨t', ht'⟩ := exists_finishSort hsort hnone names' sizes
  have hwrites := writesSize_finishSort hsort.holds ht'
  refine ⟨t', ht', ?_, hwrites⟩
  refine h.revised hwrites.toAlike (fun {y} hy => ⟨fun {form} hform => ?_, fun {e} he => ?_⟩)
    (fun {y form} hy hplain hform => ?_) fun {x shape info} hx => ?_
  · rw [hwrites.canonical] at hform
    exact (h.closed hy).form hform
  · rw [hwrites.size] at he
    split at he
    · obtain rfl := Option.some.inj he
      cases hfind : sizes.find? (.sort s) with
      | none => exact closed_infinity t
      | some e => exact hsizes hfind
    · exact (h.closed hy).size he
  · rw [hwrites.canonical] at hform
    exact h.form hy hplain hform
  · rw [hwrites.canonical, hwrites.canonical]
    exact (h.data hx).form_eq

theorem WritesSize.sizesWritten {e : SizeExpr} (h : t.WritesSize t' s e) (howns : t.Owns s)
    (hnone : (t.symbolAt s).size? = none) : t.SizesWritten t' where
  toAlike := h.toAlike
  canonical := h.canonical
  failed := h.failed
  size {y e'} he := by
    rw [h.size, if_neg, he]
    rintro rfl
    cases hnone.symm.trans he
  settled {y} hy := by
    rw [h.size, if_neg]
    rintro rfl
    cases howns.unsettled.symm.trans hy

end Table

namespace Draft

variable {base d : Draft} {sorts : List SymbolId} {g : DepGraph SizeNode} {sizes : Sizes}
  {m : Module} {origin : Table}

/-! ## Sizing the productive data -/

/-- Some sorts of the module were sized since `base`, and no others. -/
structure Sizing (base : Draft) (sorts : List SymbolId) (sizes : Sizes) (d : Draft) : Prop where
  intact : d.Intact
  names_eq : d.names = base.names
  written : base.table.SizesWritten d.table
  sized : ∀ s ∈ sorts, (d.table.symbolAt s).size? ≠ none
  others : ∀ s, s ∉ sorts → (d.table.symbolAt s).size? = (base.table.symbolAt s).size?
  closed : ∀ {n e}, sizes.find? n = some e → e.Closed d.table

/-- Whatever changes but the namespaces and symbols. -/
theorem Sizing.of_eq (h : Sizing base sorts sizes d) {d' : Draft} (hnames : d'.names = d.names)
    (hid : d'.table.id = d.table.id) (hnamespaces : d'.table.namespaces = d.table.namespaces)
    (hsymbols : d'.table.symbols = d.table.symbols) : Sizing base sorts sizes d' := by
  have hsame : ∀ y, d'.table.symbolAt y = d.table.symbolAt y := fun y => by
    rw [Table.symbolAt, hsymbols]
    rfl
  have haside : d.table.SizesWritten d'.table := .of_eq hid hnamespaces hsymbols
  refine ⟨?_, hnames.trans h.names_eq, h.written.trans haside,
    fun s hs => by rw [hsame]; exact h.sized s hs,
    fun s hs => by rw [hsame]; exact h.others s hs, fun hfind =>
      (h.closed hfind).later haside.later⟩
  have hintact := Table.Intact.unwritten h.intact haside.toAlike haside.canonical
    fun y => by rw [hsame]
  rw [← hnames] at hintact
  exact hintact

/-- What the graph of sizes has to be like: its sorts are the module's own and have no size. -/
structure Sizable (base : Draft) (g : DepGraph SizeNode) : Prop where
  proper : g.Proper
  sort : ∀ {i : Nat} {s}, g.nodes[i]? = some (.sort s) → base.table.IsSort s ∧
    base.table.Owns s ∧ (base.table.symbolAt s).size? = none

/-- The sizes of a component are closed. -/
theorem Sizing.closed_componentSizes (h : Sizing base sorts sizes d) (component : List Nat)
    {n : SizeNode} {e : SizeExpr}
    (hfind : Sizes.find? (d.table.componentSizes g sizes component ++ sizes) n = some e) :
    e.Closed d.table := by
  rw [Table.find?_componentSizes] at hfind
  split at hfind
  · obtain rfl := Option.some.inj hfind
    unfold Table.componentSize
    split
    · exact Table.closed_infinity d.table
    · cases n with
      | sort s => exact Table.closed_sortSize h.closed
      | slot s position => exact Table.closed_slotSize h.intact.closed h.closed s position
  · exact h.closed hfind

/-- One more sort is sized. -/
theorem Sizing.finishSort (h : Sizing base sorts sizes d) {s : SymbolId}
    (hsort : base.table.IsSort s) (howns : base.table.Owns s)
    (hnone : (base.table.symbolAt s).size? = none) (hnew : s ∉ sorts) (names : Interner) :
    ∃ table, d.table.finishSort names sizes s = .ok table ∧
      Sizing base (sorts ++ [s]) sizes { d with table } := by
  have hnone' : (d.table.symbolAt s).size? = none := (h.others s hnew).trans hnone
  obtain ⟨table, hfinish, hintact, hwrites⟩ := h.intact.finishSort
    (h.written.isSort.2 hsort) hnone' h.closed names
  have hwritten := hwrites.sizesWritten (howns.later h.written.later) hnone'
  refine ⟨table, hfinish, hintact, h.names_eq, h.written.trans hwritten, fun y hy =>
    ?_, fun y hy => ?_,
    fun hfind => (h.closed hfind).later hwritten.later⟩
  · change (table.symbolAt y).size? ≠ none
    rw [hwrites.size]
    split
    · exact Option.some_ne_none _
    · rename_i hne
      exact h.sized y ((List.mem_append.1 hy).resolve_right fun hy => hne (List.mem_singleton.1 hy))
  · change (table.symbolAt y).size? = _
    have hne : y ≠ s := fun heq => hy (List.mem_append_right _ (List.mem_singleton.2 heq))
    rw [hwrites.size, if_neg hne]
    exact h.others y fun hmem => hy (List.mem_append_left _ hmem)

/-- A component is sized, after those before it. -/
theorem safe_sizeComponent (hg : Sizable base g) {done rest : List (List Nat)}
    {component : List Nat} (hcomponents : g.components = done ++ component :: rest) :
    Safe Intact (Sizing base (done.flatMap (Table.componentSorts g)) sizes)
      (sizeComponent g sizes component)
      (Sizing base ((done ++ [component]).flatMap (Table.componentSorts g))) := by
  have hnodup := Table.nodup_componentSorts hg.proper
  rw [hcomponents, List.flatMap_append, List.flatMap_cons] at hnodup
  refine Safe.bind (safe_tick_of (fun d clock hd => hd.of_eq rfl rfl rfl rfl) fun d hd => hd.intact)
    fun _ => safe_getNames_bind fun names => safe_getTable_bind fun t => ?_
  -- The sizes are worked out once, and stay closed while they are written.
  let sizes' : Sizes := t.componentSizes g sizes component ++ sizes
  have hfinish : Safe Intact (Sizing base (done.flatMap (Table.componentSorts g)) sizes')
      (do
        (Table.componentSorts g component).forM fun sort =>
          tryModifyTable (·.finishSort names sizes' sort)
        return sizes')
      (Sizing base ((done ++ [component]).flatMap (Table.componentSorts g))) := by
    refine Safe.bind (Q := fun _ => Sizing base (done.flatMap (Table.componentSorts g) ++
      Table.componentSorts g component) sizes') ?_ fun _ => safe_pure fun d hd => ?_
    · have hforM := safe_forM (C := Intact)
        (g := fun sort => tryModifyTable (·.finishSort names sizes' sort))
        (l := Table.componentSorts g component) (motive := fun sorts =>
          Sizing base (done.flatMap (Table.componentSorts g) ++ sorts) sizes')
        fun before s after hall => safe_tryModifyTable fun d hd => ?_
      · simpa only [List.append_nil] using hforM
      · have hs : s ∈ Table.componentSorts g component := hall ▸ by simp
        obtain ⟨i, _, hi⟩ := List.mem_filterMap.1 (Table.mem_componentSorts.1 hs)
        obtain ⟨hsort, howns, hnone⟩ := hg.sort hi
        rw [hall] at hnodup
        have hnew : s ∉ done.flatMap (Table.componentSorts g) ++ before := by
          simp only [List.nodup_append, List.nodup_cons, List.mem_append, List.mem_cons] at hnodup
          grind
        rw [← List.append_assoc]
        exact hd.finishSort hsort howns hnone hnew names
    · simpa using hd
  have hstart : ∀ d : Draft, (Sizing base (done.flatMap (Table.componentSorts g)) sizes d ∧
      d.names = names) ∧ d.table = t →
      Sizing base (done.flatMap (Table.componentSorts g)) sizes' d := by
    rintro d ⟨⟨hd, _⟩, rfl⟩
    exact { hd with closed := hd.closed_componentSizes component }
  refine Safe.imp (P := Sizing base (done.flatMap (Table.componentSorts g)) sizes') ?_ hstart
    fun _ _ hd => hd
  dsimp only
  refine .ite (fun _ => Safe.bind (safe_modifyTable fun d hd => ?_) fun _ => hfinish)
    fun _ => hfinish
  obtain ⟨hid, hnamespaces, hsymbols⟩ :=
    d.table.reportAll_eq (d.table.relationalReports names g component)
  exact hd.of_eq rfl hid hnamespaces hsymbols

/-- The graph of sizes of what a module declares. -/
theorem Declared.sizable (h : Declared m origin d) (hunsized : d.Unsized) :
    Sizable d (d.table.sizeGraph d.table.productiveData) := by
  have htraced := d.table.traced_sizeGraph d.table.productiveData
  refine ⟨htraced.proper, fun {i s} hi => ?_⟩
  obtain ⟨data, hdata, hs⟩ := htraced.sort hi
  obtain ⟨howns, hkind, _⟩ :=
    h.intact.formed.arena.mem_ownData.1 (Table.mem_productiveData.1 hdata).1
  obtain ⟨shape, info, hkind⟩ := Table.exists_data_of_isData hkind
  obtain rfl : s = info.sort := by
    rcases hs with hs | hs
    · rw [Table.sortOf?, hkind] at hs
      exact (Option.some.inj hs).symm
    · obtain ⟨_, info', hkind', hsort⟩ :=
        h.intact.formed.families.sort (Table.dataOf?_eq_some_iff.1 hs)
      cases hkind.symm.trans hkind'
      exact hsort.symm
  have howns' := (h.owns_sort hkind).2 howns
  exact ⟨⟨data, (h.intact.formed.families.data hkind).sort_kind⟩, howns', hunsized howns'⟩

/-- Productive data was sized since `base`, and nothing else was written. -/
structure Sized (base d : Draft) : Prop where
  intact : d.Intact
  names_eq : d.names = base.names
  written : base.table.SizesWritten d.table
  sized : ∀ x ∈ base.table.productiveData, ∀ {s}, base.table.sortOf? x = some s →
    (d.table.symbolAt s).size? ≠ none

theorem Declared.sizing (h : Declared m origin base) : Sizing base [] [] base where
  intact := h.intact
  names_eq := rfl
  written := .refl base.table
  sized _ hs := absurd hs List.not_mem_nil
  others _ _ := rfl
  closed hfind := by cases hfind

/-- Sizing never breaks down, and sizes all productive data. -/
theorem safe_sizeData (h : Declared m origin base) (hunsized : base.Unsized) :
    Safe Intact (· = base) (sizeData base.table.productiveData) fun _ => Sized base := by
  have hg := h.sizable hunsized
  have hfold := safe_foldlM (C := Intact)
    (g := sizeComponent (base.table.sizeGraph base.table.productiveData))
    (l := (base.table.sizeGraph base.table.productiveData).components)
    (motive := fun done sizes => Sizing base (done.flatMap
      (Table.componentSorts (base.table.sizeGraph base.table.productiveData))) sizes)
    (fun done sizes component rest hall => safe_sizeComponent hg hall) []
  have hsized := hfold.discard (R := fun _ => Sized base) fun sizes d hd =>
    ⟨hd.intact, hd.names_eq, hd.written, fun x hx s hs => by
      obtain ⟨i, hi⟩ := Table.exists_sort_sizeGraph hx hs
      exact hd.sized s (Table.mem_flatMap_componentSorts hg.proper hi)⟩
  rintro d rfl
  rw [sizeData, getTable_bind]
  exact hsized d h.sizing

/-! ## The passes around it -/

theorem Sized.of_eq {d' : Draft} (h : Sized base d) (hnames : d'.names = d.names)
    (hid : d'.table.id = d.table.id) (hnamespaces : d'.table.namespaces = d.table.namespaces)
    (hsymbols : d'.table.symbols = d.table.symbols) : Sized base d' := by
  have hsame : ∀ y, d'.table.symbolAt y = d.table.symbolAt y := fun y => by
    rw [Table.symbolAt, hsymbols]
    rfl
  have haside : d.table.SizesWritten d'.table := .of_eq hid hnamespaces hsymbols
  refine ⟨?_, hnames.trans h.names_eq, h.written.trans haside, fun x hx s hs => ?_⟩
  · have hintact := Table.Intact.unwritten h.intact haside.toAlike haside.canonical
      fun y => by rw [hsame]
    rw [← hnames] at hintact
    exact hintact
  · rw [hsame]
    exact h.sized x hx hs

/-- Contracts only report and add rules. -/
theorem safe_checkContract (m : Module) (contract : ContractDecl) :
    Safe Intact (Sized base) (checkContract m contract) fun _ => Sized base := by
  refine Safe.bind (safe_tick_of (fun d clock hd => hd.of_eq rfl rfl rfl rfl) fun d hd => hd.intact)
    fun _ => safe_modify fun d hd => ?_
  obtain ⟨hid, hnamespaces, hsymbols⟩ :=
    d.table.reportAll_eq (d.table.checkContract d.names m contract).reports
  exact hd.of_eq rfl hid hnamespaces hsymbols

theorem safe_ticks {P : Draft → Prop} (hclock : ∀ d clock, P d → P { d with clock })
    (hC : ∀ d, P d → d.Intact) (n : Nat) : Safe Intact P (ticks n) fun _ => P := by
  induction n with
  | zero => exact safe_pure fun _ hd => hd
  | succ n ih => exact (safe_tick_of hclock hC).bind fun _ => ih

/-- The reports about data that is not productive. -/
def unproductiveReports (d : Draft) : List Report :=
  (d.table.ownData.filter fun data => !d.table.productiveData.contains data).map
    (d.table.unproductiveReport d.names)

/-- The search for productive data reports what it does not find, and does nothing else. -/
theorem safe_checkProductivity (h : base.Intact) :
    Safe Intact (fun d => d.names = base.names ∧ d.table = base.table) checkProductivity
      fun productive d => productive = base.table.productiveData ∧ d.names = base.names ∧
        d.table = base.table.reportAll base.unproductiveReports := by
  have hintact : ∀ d : Draft, d.names = base.names ∧ d.table = base.table → d.Intact := by
    rintro d ⟨hnames, htable⟩
    rw [Intact, hnames, htable]
    exact h
  have harena : base.table.Arena := h.formed.arena
  rintro d ⟨hnames, htable⟩
  rw [checkProductivity_eq, getTable_bind, htable]
  refine ((safe_ticks (P := fun d => d.names = base.names ∧ d.table = base.table)
    (fun _ _ hd => hd) hintact _).bind fun _ => Safe.bind (Q := fun _ d => d.names = base.names ∧
      d.table = base.table.reportAll base.unproductiveReports) (safe_modify ?_) fun _ =>
        safe_pure fun _ hd => ⟨harena.solvedData_eq, hd⟩) d ⟨hnames, htable⟩
  rintro d ⟨hnames, htable⟩
  refine ⟨hnames, ?_⟩
  rw [unproductiveReports, ← harena.unsolvedData_eq]
  dsimp only
  rw [hnames, htable]

/-- Reports make no difference to what is sized. -/
theorem Sized.of_reported {d' : Draft} (h : Sized d' d) (hnames : d'.names = base.names)
    (hid : d'.table.id = base.table.id) (hnamespaces : d'.table.namespaces = base.table.namespaces)
    (hsymbols : d'.table.symbols = base.table.symbols) : Sized base d := by
  have haside : base.table.SizesWritten d'.table := .of_eq hid hnamespaces hsymbols
  refine ⟨h.intact, h.names_eq.trans hnames, haside.trans h.written, fun x hx s hs => ?_⟩
  rw [← haside.productiveData] at hx
  refine h.sized x hx ?_
  rw [← hs]
  unfold Table.sortOf? Table.kindOf Table.symbolAt
  rw [hsymbols]

/-- The passes after the declarations. -/
def judge (m : Module) : DraftM Unit := do
  let productive ← checkProductivity
  sizeData productive
  m.contracts.forM (checkContract m)

/-- The passes after the declarations never break down. -/
theorem safe_judge (h : Declared m origin base) (hunsized : base.Unsized) :
    Safe Intact (· = base) (judge m) fun _ => Sized base := by
  refine Safe.bind ((safe_checkProductivity h.intact).imp (fun d hd => ⟨congrArg names hd,
    congrArg table hd⟩) fun _ _ hd => hd) fun productive => ?_
  rintro d ⟨rfl, hnames, htable⟩
  obtain ⟨hid, hnamespaces, hsymbols⟩ := base.table.reportAll_eq base.unproductiveReports
  rw [← htable] at hid hnamespaces hsymbols
  obtain ⟨hdeclared, hunsized'⟩ := h.reported hunsized hnames htable
  have hsizing := (safe_sizeData hdeclared hunsized').bind fun _ =>
    safe_forM (motive := fun _ => Sized d) (l := m.contracts) fun _ contract _ _ =>
      safe_checkContract m contract
  have hproductive := (Table.SizesWritten.of_eq hid hnamespaces hsymbols).productiveData
  rw [← hproductive]
  exact (hsizing.imp (fun _ hd => hd) fun _ _ hd =>
    hd.of_reported hnames hid hnamespaces hsymbols) d rfl

end Draft

end ManySorted
