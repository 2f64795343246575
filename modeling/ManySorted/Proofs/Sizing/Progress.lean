import ManySorted.Proofs.Session.Findings
import ManySorted.Proofs.Session.Normality
import ManySorted.Proofs.Session.Verdict
import ManySorted.Proofs.Sizing.Positive

/-!
# How far sizing gets

A check may be cancelled before it sizes the data of its module, between two components, or when the
contracts are checked.  In each case the sorts of some components at the front have sizes, their
reports are all that is reported about sizes, and no other sort of the module has a size
(`Table.SizedUpTo`, `Session.sizedUpTo`).  What comes before sizing is told from the run that is
never cancelled, which goes through the same drafts.

## Strategy

* **Where a pass may stop.**  A pass that takes its only step on the clock first leaves all else
  alone if it is cancelled (`Draft.eq_of_cancelled_tick`), and sizing a component is such a pass.
* **Sizing.**  So wherever sizing is cancelled, the components at the front are done
  (`Draft.Underway`).  Contracts write no sizes (`Draft.Contracted`).
* **Before sizing.**  What is known when sizing begins (`Draft.Poised`) is known of every run that
  gets there (`Draft.Staged.poised`).  A run that does not has written no size to what is the
  module's own (`Draft.Poised.sizedUpTo_before`, `Draft.Halted.sizedUpTo`).
* **Whole runs.**  These are all the places where a run may stop (`Draft.Staged.sizedUpTo`).  Over a
  session it follows that no size is zero (`Session.positive`).
-/

namespace ManySorted

/-! ## Passes without a step on the clock -/

namespace Draft

variable {α β : Type} {x : DraftM α} {f : α → DraftM β} {d d' : Draft}

/-- The pass takes no step on the clock at which it could be cancelled. -/
def Prompt (x : DraftM α) : Prop := ∀ d d', x d ≠ .error .cancelled d'

theorem Prompt.bind (hx : Prompt x) (hf : ∀ a, Prompt (f a)) : Prompt (x >>= f) := by
  intro d d' h
  cases hrun : x d with
  | ok a d₁ =>
      rw [bind_of_ok hrun] at h
      exact hf a d₁ d' h
  | error abort d₁ =>
      rw [bind_of_error hrun] at h
      cases h
      exact hx d d' hrun

theorem prompt_pure (a : α) : Prompt (pure a) := fun _ _ h => by cases h

theorem prompt_modify (g : Draft → Draft) : Prompt (modify g) := fun _ _ h => by cases h

theorem prompt_tryModifyTable (g : Table → Except Fault Table) : Prompt (tryModifyTable g) := by
  intro d d' h
  rw [tryModifyTable, getTable_bind] at h
  cases hg : g d.table <;> rw [hg] at h <;> cases h

theorem prompt_forM {g : α → DraftM PUnit} (l : List α) (h : ∀ a, Prompt (g a)) :
    Prompt (l.forM g) := by
  induction l with
  | nil => exact prompt_pure _
  | cons a rest ih => exact (h a).bind fun _ => ih

/-- A pass whose only step on the clock is its first one leaves all else as it is if it is
cancelled. -/
theorem eq_of_cancelled_tick {f : Unit → DraftM α} (hf : ∀ a, Prompt (f a))
    (h : (tick >>= f) d = .error .cancelled d') : d' = { d with clock := d.clock.advance } := by
  cases hsees : d.clock.advance.seesCancellation with
  | true =>
      have hrun : tick d = .error .cancelled { d with clock := d.clock.advance } := by
        rw [tick_eq, if_pos hsees]
      rw [bind_of_error hrun] at h
      cases h
      rfl
  | false =>
      rw [bind_of_ok (tick_of_not_sees hsees)] at h
      exact absurd h (hf () _ _)

theorem eq_of_cancelled_sizeComponent {g : DepGraph SizeNode} {sizes : Sizes} {component : List Nat}
    (h : sizeComponent g sizes component d = .error .cancelled d') :
    d' = { d with clock := d.clock.advance } := by
  refine eq_of_cancelled_tick (fun _ => ?_) h
  have hfinish : ∀ (names : Interner) (sizes : Sizes), Prompt (do
      (Table.componentSorts g component).forM fun sort =>
        tryModifyTable (·.finishSort names sizes sort)
      return sizes) := fun names sizes =>
    (prompt_forM _ fun _ => prompt_tryModifyTable _).bind fun _ => prompt_pure _
  refine Prompt.bind (fun _ _ h => by cases h) fun names => ?_
  refine Prompt.bind (fun _ _ h => by cases h) fun t => ?_
  dsimp only
  split
  · exact (prompt_modify _).bind fun _ => hfinish names _
  · exact hfinish names _

/-! ## Sizing -/

variable {m : Module} {origin : Table} {base : Draft} {g : DepGraph SizeNode}

/-- The components at the front were sized. -/
def Underway (base : Draft) (g : DepGraph SizeNode) (d : Draft) : Prop :=
  ∃ done rest sizes, g.components = done ++ rest ∧ Tallied base g done sizes d

theorem safe_tallied (hg : Sizable base g) (sizes : Sizes) {done rest : List (List Nat)}
    {component : List Nat} (hcomponents : g.components = done ++ component :: rest) :
    Safe (Underway base g) (Tallied base g done sizes) (sizeComponent g sizes component)
      (Tallied base g (done ++ [component])) := by
  intro d hd
  rcases safe_sizeComponent hg hcomponents d hd.sizing with ⟨sizes', d', hrun, -⟩ | ⟨d', hrun, -⟩
  · exact .inl ⟨sizes', d', hrun, ends_sizeComponent hg hcomponents d sizes' d' hd hrun⟩
  · refine .inr ⟨d', hrun, done, component :: rest, sizes, hcomponents, ?_⟩
    rw [eq_of_cancelled_sizeComponent hrun]
    exact hd.of_clock _

/-- Wherever sizing is cancelled, the components at the front were sized. -/
theorem safe_underway (h : Declared m origin base) (hunsized : base.Unsized) :
    Safe (Underway base base.table.ownGraph) (· = base) (sizeData base.table.productiveData)
      fun _ d => ∃ sizes, Tallied base base.table.ownGraph base.table.ownGraph.components
        sizes d := by
  have hfold := safe_foldlM (C := Underway base base.table.ownGraph)
    (g := sizeComponent base.table.ownGraph) (motive := Tallied base base.table.ownGraph)
    (fun done sizes component rest hall => safe_tallied (h.sizable hunsized) sizes hall) []
  have hsizes := hfold.discard (R := fun _ d => ∃ sizes, Tallied base base.table.ownGraph
    base.table.ownGraph.components sizes d) fun sizes d hd => ⟨sizes, hd⟩
  rintro d rfl
  rw [sizeData, getTable_bind]
  exact hsizes d ⟨⟨.refl _, fun s hs => absurd hs List.not_mem_nil, rfl⟩, h.sizing, rfl,
    fun rest hrest => by rw [hrest, List.nil_append]⟩

/-- Only contracts were checked since. -/
structure Contracted (base d : Draft) : Prop where
  names_eq : d.names = base.names
  shows : d.Shows base.table
  reports : ∃ more, d.table.reports = base.table.reports ++ more ∧ ∀ r ∈ more, r.problem.Aside

theorem safe_contracted (m : Module) (base : Draft) : Safe (Contracted base) (Contracted base)
    (m.contracts.forM (checkContract m)) fun _ => Contracted base :=
  safe_forM (motive := fun _ => Contracted base) fun _ contract _ _ =>
    Safe.bind (safe_tick_of (fun _ _ hd => { hd with }) fun _ hd => hd) fun _ =>
      safe_modify fun d hd => by
        obtain ⟨hid, hnamespaces, hsymbols⟩ :=
          d.table.reportAll_eq (d.table.checkContract d.names m contract).reports
        obtain ⟨more, hmore, haside⟩ := hd.reports
        refine ⟨hd.names_eq, ⟨hid.trans hd.shows.1, hnamespaces.trans hd.shows.2.1,
          hsymbols.trans hd.shows.2.2⟩,
          more ++ (d.table.checkContract d.names m contract).reports, ?_, fun r hr => ?_⟩
        · exact (d.table.reports_reportAll _).trans (by rw [hmore, List.append_assoc])
        · rcases List.mem_append.1 hr with hr | hr
          · exact haside r hr
          · exact Table.aside_checkContract contract r hr

end Draft

/-! ## How far sizing got -/

namespace Table

variable {names : Interner} {t t' : Table} {done rest : List (List Nat)}

theorem sizingReports_append (t : Table) (names : Interner) (g : DepGraph SizeNode) (sizes : Sizes)
    (done rest : List (List Nat)) : t.sizingReports names g sizes (done ++ rest) =
      t.sizingReports names g sizes done ++ t.sizingReports names g
        (done.foldl (fun sizes component => t.componentSizes g sizes component ++ sizes) sizes)
          rest := by
  induction done generalizing sizes with
  | nil => rfl
  | cons component done ih =>
      rw [List.cons_append, sizingReports, sizingReports, ih, List.append_assoc, List.foldl_cons]

/-- Sizing got through some components at the front: the sorts of the module that have sizes are
just theirs, and so are the reports about sizes. -/
structure SizedUpTo (t : Table) (names : Interner) (done rest : List (List Nat)) : Prop where
  components : t.ownGraph.components = done ++ rest
  sized_iff : ∀ {d s}, d ∈ t.productiveData → t.dataOf? s = some d →
    ((t.symbolAt s).size? ≠ none ↔ s ∈ done.flatMap (componentSorts t.ownGraph))
  /-- Where something is sized, different data goes by different names. -/
  named : done ≠ [] → ∀ {x y}, x ∈ t.ownData → y ∈ t.ownData →
    t.qualifiedName names x = t.qualifiedName names y → x = y
  reports_eq : t.reports.filter (·.problem.isOfSizes) = t.sizingReports names t.ownGraph [] done
  grounded : t.Grounded

theorem Grounded.written (h : t.Grounded) (hwritten : t.SizesWritten t') : t'.Grounded where
  normal x form hform := h.normal x form ((hwritten.canonical x).symm.trans hform)
  sort {d s} himported hs := by
    rw [Symbol.isImported, hwritten.origin] at himported ⊢
    exact h.sort himported ((hwritten.toAlike.dataOf? s).symm.trans hs)
  positive {s e} himported he := by
    rw [Symbol.isImported, hwritten.origin] at himported
    refine h.positive himported ((hwritten.settled ?_).symm.trans he)
    rw [Symbol.isSettled]
    exact Bool.or_eq_true_iff.2 (.inl himported)

/-- Neither the validity of a table nor reports of other passes make a difference. -/
theorem SizedUpTo.of_symbols (h : t.SizedUpTo names done rest) (hid : t'.id = t.id)
    (hnamespaces : t'.namespaces = t.namespaces) (hsymbols : t'.symbols = t.symbols)
    (hreports : t'.reports.filter (·.problem.isOfSizes) =
      t.reports.filter (·.problem.isOfSizes)) : t'.SizedUpTo names done rest := by
  have hwritten : t.SizesWritten t' := .of_eq hid hnamespaces hsymbols
  have hat : ∀ x, t'.symbolAt x = t.symbolAt x := fun x => by rw [symbolAt, symbolAt, hsymbols]
  refine ⟨hwritten.ownGraph ▸ h.components, fun {d s} hd hs =>
    ?_, fun hdone {x y} hx hy hname => ?_,
    ?_, h.grounded.written hwritten⟩
  · rw [hat, hwritten.ownGraph]
    rw [hwritten.productiveData] at hd
    exact h.sized_iff hd ((hwritten.toAlike.dataOf? s).symm.trans hs)
  · rw [hwritten.ownData] at hx hy
    rw [hwritten.toAlike.qualifiedName] at hname
    exact h.named hdone hx hy hname
  · rw [hreports, h.reports_eq, hwritten.ownGraph, hwritten.sizingReports]

/-- Nothing was sized. -/
theorem SizedUpTo.of_unsized (hgrounded : t.Grounded)
    (hunsized : ∀ {d s}, d ∈ t.productiveData → t.dataOf? s = some d →
      (t.symbolAt s).size? = none)
    (hreports : t.reports.filter (·.problem.isOfSizes) = []) :
    t.SizedUpTo names [] t.ownGraph.components where
  components := rfl
  sized_iff hd hs := iff_of_false (fun h => h (hunsized hd hs)) List.not_mem_nil
  named hne := absurd rfl hne
  reports_eq := hreports
  grounded := hgrounded

end Table

namespace Draft

variable {tables : List Table} {library : Library} {m : Module} {origin : Table}
  {start imported base b d : Draft} {done rest : List (List Nat)} {sizes : Sizes}

/-- What is known when sizing begins. -/
structure Poised (m : Module) (origin : Table) (b : Draft) : Prop where
  declared : Declared m origin b
  unsized : b.Unsized
  quiet : b.table.reports.filter (·.problem.isOfSizes) = []
  named : ∀ {x y}, x ∈ b.table.ownData → y ∈ b.table.ownData →
    b.table.qualifiedName b.names x = b.table.qualifiedName b.names y → x = y
  normal : ∀ x, b.table.NormalAt x
  positive : ∀ {s e}, (b.table.symbolAt s).size? = some e → e.Positive
  sort : ∀ {x s}, (b.table.symbolAt x).isImported = true → b.table.dataOf? s = some x →
    (b.table.symbolAt s).isImported = true

theorem Poised.grounded (h : Poised m origin b) : b.table.Grounded :=
  ⟨h.normal, h.sort, fun _ => h.positive⟩

theorem Poised.sizedUpTo (h : Poised m origin b)
    (htallied : Tallied b b.table.ownGraph done sizes d)
    (hcomponents : b.table.ownGraph.components = done ++ rest) :
    d.table.SizedUpTo d.names done rest := by
  have hwritten := htallied.sizing.written
  have hregular := h.declared.intact.formed.toRegular
  refine ⟨hwritten.ownGraph ▸ hcomponents, fun {x s} hx hs => ?_, fun _ {x y} hx hy hname => ?_, ?_,
    h.grounded.written hwritten⟩
  · rw [hwritten.productiveData] at hx
    rw [hwritten.toAlike.dataOf?] at hs
    rw [hwritten.ownGraph]
    refine ⟨fun hsized => ?_, fun hmem => ?_⟩
    · by_contra hmem
      obtain ⟨i, hi⟩ := (Table.has_sort_iff hregular).2 ⟨x, hx, hs⟩
      rw [htallied.sizing.others s hmem] at hsized
      exact hsized ((h.declared.sizable h.unsized).sort hi).2.2
    · rw [htallied.size s hmem]
      exact Option.some_ne_none _
  · rw [hwritten.ownData] at hx hy
    rw [hwritten.toAlike.qualifiedName, htallied.sizing.names_eq] at hname
    exact h.named hx hy hname
  · have hreports := htallied.reports rest hcomponents
    rw [hcomponents, Table.sizingReports_append, htallied.sizes_eq, ← List.append_assoc] at hreports
    rw [List.append_cancel_right hreports, List.filter_append, h.quiet, List.nil_append,
      hwritten.ownGraph, hwritten.sizingReports, htallied.sizing.names_eq]
    exact List.filter_eq_self.2 (Table.isOfSizes_of_mem_sizingReports _)

theorem Contracted.sizedUpTo {names : Interner} (h : Contracted b d)
    (hsized : b.table.SizedUpTo names done rest) : d.table.SizedUpTo names done rest := by
  obtain ⟨more, hmore, haside⟩ := h.reports
  have hnone : more.filter (·.problem.isOfSizes) = [] :=
    List.filter_eq_nil_iff.2 fun r hr => Bool.eq_false_iff.1 (haside r hr).isOfSizes_eq
  refine hsized.of_symbols h.shows.1 h.shows.2.1 h.shows.2.2 ?_
  rw [hmore, List.filter_append, hnone, List.append_nil]

/-! ## What comes before -/

/-- After the imports, a sort is imported with its data. -/
theorem isImported_sort {names names' names'' : Interner} {t t' : Table} (ht : t.Intact names)
    (ht' : t'.Intact names') (hsettled : ∀ {x}, t.Holds x → (t.symbolAt x).isSettled = true)
    (hmoves : Table.Moves Table.NoSources names'' t t') {x s : SymbolId}
    (himported : (t'.symbolAt x).isImported = true) (hs : t'.dataOf? s = some x) :
    (t'.symbolAt s).isImported = true := by
  obtain ⟨shape, info, hkind', rfl⟩ := ht'.formed.families.sort (Table.dataOf?_eq_some_iff.1 hs)
  obtain ⟨o, ho⟩ := Option.isSome_iff_exists.1 himported
  have ho : (t.symbolAt x).origin = some o :=
    (hmoves.origin ho).resolve_right fun ⟨_, _, hnone, _⟩ => hnone
  have hx : t.Holds x := by
    by_contra hnot
    rw [Table.symbolAt_of_not_holds hnot] at ho
    cases ho
  have hkind : t.kindOf x = .data shape info := by
    rw [← SymbolKind.unsized_eq_data]
    exact (Symbol.kind_of_blank (hmoves.advances hx).blank_eq).symm.trans
      (SymbolKind.unsized_eq_data.2 hkind')
  have hsort := (ht.formed.families.data hkind).sort_kind
  have hholds := Table.holds_of_sort hsort
  have hbase : (t.symbolAt info.sort).kind.isBase = false := by
    rw [← SymbolKind.isBase_unsized, show (t.symbolAt info.sort).kind.unsized = _ from hsort]
    rfl
  have himported := hsettled hholds
  rw [Symbol.isSettled, hbase, Bool.or_false, Symbol.isImported, ← hmoves.origin_eq hholds]
    at himported
  exact himported

/-- What declaring leaves is in normal form if the sources are. -/
theorem Staged.normal (h : Staged tables library m start imported base d)
    (hnormal : ∀ t ∈ tables, t.isValid = true → ∀ x, t.NormalAt x) (x : SymbolId) :
    base.table.NormalAt x := by
  obtain ⟨declarations, registered, -, haccount⟩ := h.account
  refine haccount.normalAt h.declared.intact (fun x himported form hform => ?_) x
  by_cases hx : imported.table.Holds x
  · rw [(h.declared.extended.later.symbol hx).settled (h.collected.settled hx)] at hform
    exact h.collected.normal hnormal x form hform
  · obtain ⟨horigin, -⟩ := h.declared.extended.new (Table.holds_of_canonical hform) hx
    rw [Symbol.isImported, horigin] at himported
    cases himported

/-- What declaring leaves is in normal form, and no size is zero, if that is so for the sources. -/
theorem Staged.grounds (h : Staged tables library m start imported base d)
    (hnormal : ∀ t ∈ tables, t.isValid = true → ∀ x, t.NormalAt x)
    (hpositive : ∀ t ∈ tables, t.isValid = true →
      ∀ s e, (t.symbolAt s).size? = some e → e.Positive) :
    (∀ x, base.table.NormalAt x) ∧
      ∀ {s e}, (base.table.symbolAt s).size? = some e → e.Positive := by
  refine ⟨h.normal hnormal, fun {s e} he => ?_⟩
  by_cases hs : imported.table.Holds s
  · rw [(h.declared.extended.later.symbol hs).settled (h.collected.settled hs)] at he
    exact h.collected.positive hpositive s e he
  · have hholds := Table.holds_of_size? he
    obtain ⟨horigin, -, hbase⟩ := h.declared.extended.new hholds hs
    cases (h.unsized (Table.owns_of_origin hholds horigin hbase)).symm.trans he

theorem Staged.poised (h : Staged tables library m start imported base d) (hstart : start.Early)
    (hnormal : ∀ t ∈ tables, t.isValid = true → ∀ x, t.NormalAt x)
    (hpositive : ∀ t ∈ tables, t.isValid = true →
      ∀ s e, (t.symbolAt s).size? = some e → e.Positive)
    (hnames : b.names = base.names)
    (htable : b.table = base.table.reportAll base.unproductiveReports) :
    Poised m imported.table b := by
  obtain ⟨hnormal, hpositive⟩ := h.grounds hnormal hpositive
  obtain ⟨hid, hnamespaces, hsymbols⟩ := base.table.reportAll_eq base.unproductiveReports
  have hreports := base.table.reports_reportAll base.unproductiveReports
  rw [← htable] at hid hnamespaces hsymbols hreports
  have hwritten : base.table.SizesWritten b.table := .of_eq hid hnamespaces hsymbols
  have hat : ∀ x, b.table.symbolAt x = base.table.symbolAt x := fun x => by
    rw [Table.symbolAt, Table.symbolAt, hsymbols]
  obtain ⟨hdeclared, hunsized⟩ := h.declared.reported h.unsized hnames htable
  refine ⟨hdeclared, hunsized, ?_, fun {x y} hx hy hname => ?_, fun x form hform => ?_,
    fun {s e} he => ?_, fun {x s} himported hs => ?_⟩
  · rw [hreports, List.filter_append, List.append_eq_nil_iff, List.filter_eq_nil_iff,
      List.filter_eq_nil_iff]
    refine ⟨fun r hr => Bool.eq_false_iff.1 (h.aside hstart r hr).isOfSizes_eq, fun r hr => ?_⟩
    obtain ⟨x, -, rfl⟩ := List.mem_map.1 hr
    exact Bool.false_ne_true
  · have hfinal := h.sized.written
    rw [hwritten.ownData, ← hfinal.ownData] at hx hy
    rw [hwritten.toAlike.qualifiedName, hnames, ← hfinal.toAlike.qualifiedName, ← h.sized.names_eq]
      at hname
    exact h.qualifiedName_inj hx hy hname
  · exact hnormal x form ((congrArg Symbol.canonical (hat x)).symm.trans hform)
  · exact hpositive ((congrArg Symbol.size? (hat s)).symm.trans he)
  · have hmoves : Table.Moves Table.NoSources base.names imported.table base.table := by
      have hpaced : Paced Table.NoSources (declare m) := paced_declare m
      have hmoved := (hpaced.paces imported).toMoved.moves
      rwa [after_of_ok h.declares] at hmoved
    rw [hat] at himported ⊢
    exact isImported_sort h.collected.intact h.declared.intact h.collected.settled hmoves himported
      ((hwritten.toAlike.dataOf? s).symm.trans hs)

/-- A table from which what is poised to be sized comes, without sizes of its own. -/
theorem Poised.before (h : Poised m origin b) {names : Interner} {t : Table}
    (hadvances : ∀ {x}, t.Holds x → Table.Advances t b.table x)
    (hreports : t.reports <+: b.table.reports)
    (hsort : ∀ {x s}, (t.symbolAt x).isImported = true → t.dataOf? s = some x →
      (t.symbolAt s).isImported = true)
    (hunsized : ∀ {x s}, x ∈ t.productiveData → t.dataOf? s = some x →
      (t.symbolAt s).size? = none) : t.SizedUpTo names [] t.ownGraph.components := by
  refine .of_unsized ⟨fun x form hform => ?_, hsort, fun {s e} _ he => ?_⟩ hunsized ?_
  · exact h.normal x form ((hadvances (Table.holds_of_canonical hform)).canonical hform)
  · exact h.positive ((hadvances (Table.holds_of_size? he)).size he)
  · exact List.filter_eq_nil_iff.2 fun r hr =>
      List.filter_eq_nil_iff.1 h.quiet r (hreports.subset hr)

end Draft

/-! ## Whole runs -/

section

variable {names names' : Interner} {tables : List Table} {id : TableId} {library : Library}
  {config : CheckConfig} {m : Module} {out : CheckOutput}

namespace Draft

variable {start imported base b d d₁ : Draft}

/-- Cancelled while imports are made: there is no data of the module yet. -/
theorem Halted.sizedUpTo (h : d.Halted) {origin : Table} (hb : Poised m origin b)
    (hadvances : ∀ {x}, d.table.Holds x → Table.Advances d.table b.table x)
    (hreports : d.table.reports <+: b.table.reports) :
    d.table.SizedUpTo names [] d.table.ownGraph.components := by
  refine hb.before hadvances hreports (fun {x s} himported hs => ?_) fun {x s} hx _ => ?_
  · have hmoves : Table.Moves Table.NoSources d.names d.table d.table := Relation.ReflTransGen.refl
    exact isImported_sort h.intact h.intact h.settled hmoves himported hs
  · obtain ⟨howns, -⟩ := h.intact.formed.arena.mem_ownData.1 (Table.mem_productiveData.1 hx).1
    exact absurd (howns.unsettled.symm.trans (h.settled howns.holds)) Bool.false_ne_true

/-- Cancelled while declarations are read: no size is written to what is the module's own. -/
theorem Poised.sizedUpTo_before (hb : Poised m imported.table b) (h : imported.Collected tables)
    (hd : d.Intact) {names₁ names₂ : Interner}
    (hbefore : Table.Moves Table.NoSources names₁ imported.table d.table)
    (hafter : Table.Moves Table.NoSources names₂ d.table b.table) :
    d.table.SizedUpTo names [] d.table.ownGraph.components := by
  refine hb.before hafter.advances hafter.onset.reports
    (fun {x s} himported hs => isImported_sort h.intact hd h.settled hbefore himported hs)
    fun {x s} hx hs => ?_
  obtain ⟨howns, -⟩ := hd.formed.arena.mem_ownData.1 (Table.mem_productiveData.1 hx).1
  obtain ⟨shape, info, hkind, rfl⟩ := hd.formed.families.sort (Table.dataOf?_eq_some_iff.1 hs)
  have hadvances := hafter.advances howns.holds
  have hkind' : b.table.kindOf x = .data shape info := by
    rw [← SymbolKind.unsized_eq_data]
    exact (Symbol.kind_of_blank hadvances.blank_eq).trans (SymbolKind.unsized_eq_data.2 hkind)
  have howns' : b.table.Owns x := by
    refine Table.owns_of_origin hadvances.holds ((hafter.origin_eq howns.holds).trans ?_) ?_
    · have hunsettled := howns.unsettled
      rw [Symbol.isSettled, Bool.or_eq_false_iff] at hunsettled
      exact Option.isNone_iff_eq_none.1 (Option.isSome_eq_false_iff.1 hunsettled.1)
    · rw [hkind']
      rfl
  cases hsize : (d.table.symbolAt info.sort).size? with
  | none => rfl
  | some e =>
      have hsize' := (hafter.advances (Table.holds_of_size? hsize)).size hsize
      cases (hb.unsized ((hb.declared.owns_sort hkind').2 howns')).symm.trans hsize'

theorem checkPasses_eq_declaring (library : Library) (m : Module) : checkPasses library m = (do
    m.references.forM (importReference library m)
    (do declare m; checkProductivity) >>= fun productive => (do
      sizeData productive
      m.contracts.forM (checkContract m))) := by
  simp only [checkPasses, bind_assoc]

/-- Once sizing begins, the components at the front are sized until it is cancelled, and all of them
if it is not. -/
theorem Poised.cases {origin : Table} (h : Poised m origin b) :
    (∃ d, (do sizeData b.table.productiveData; m.contracts.forM (checkContract m)) b = .ok () d ∧
      d.table.SizedUpTo d.names b.table.ownGraph.components []) ∨
    ∃ d, (do sizeData b.table.productiveData; m.contracts.forM (checkContract m)) b =
        .error .cancelled d ∧ ∃ done rest, d.table.SizedUpTo d.names done rest := by
  rcases safe_underway h.declared h.unsized b rfl with
    ⟨_, e, hsize, sizes, htallied⟩ | ⟨e, hsize, done, rest, sizes, hcomponents, htallied⟩
  · have hsized := h.sizedUpTo htallied (List.append_nil _).symm
    rcases safe_contracted m e e ⟨rfl, ⟨rfl, rfl, rfl⟩, [], (List.append_nil _).symm,
        fun _ hr => absurd hr List.not_mem_nil⟩ with ⟨_, d, hrun, hd⟩ | ⟨d, hrun, hd⟩
    · exact .inl ⟨d, (bind_of_ok hsize).trans hrun, hd.names_eq ▸ hd.sizedUpTo hsized⟩
    · exact .inr ⟨d, (bind_of_ok hsize).trans hrun, _, _, hd.names_eq ▸ hd.sizedUpTo hsized⟩
  · exact .inr ⟨e, bind_of_error hsize, done, rest, h.sizedUpTo htallied hcomponents⟩

/-- Wherever a run is cancelled, sizing got through the components at the front, and through all of
them if it is not.  The drafts before sizing are those of a run that is spared. -/
theorem Staged.sizedUpTo {c : Clock} (h : Staged tables library m (start.on c) imported base d₁)
    (hspares : c.Spares start.clock) (hlibrary : ∀ entry ∈ library.tables, entry.2 ∈ tables)
    (hstart : start.Collected tables)
    (hpoised : ∀ b : Draft, b.names = base.names →
      b.table = base.table.reportAll base.unproductiveReports → Poised m imported.table b) :
    (∃ d done, checkPasses library m start = .ok () d ∧ d.table.SizedUpTo d.names done []) ∨
      ∃ d, checkPasses library m start = .error .cancelled d ∧
        ∃ done rest, d.table.SizedUpTo d.names done rest := by
  obtain ⟨_, b₁, hproductive, -⟩ := bind_eq_ok.1 h.judges
  obtain ⟨rfl, hnames₁, htable₁⟩ :=
    (safe_checkProductivity h.declared.intact).ok ⟨rfl, rfl⟩ hproductive
  have hb₁ := hpoised b₁ hnames₁ htable₁
  have hdeclaring : (do declare m; checkProductivity) imported =
      .ok base.table.productiveData b₁ := (bind_of_ok h.declares).trans hproductive
  have hpaced : Paced Table.NoSources (do declare m; checkProductivity) :=
    (paced_declare m).bind fun _ => paced_checkProductivity
  cases ((paced_imports library m m.references).paces start).keeps hspares with
  | fault run full => cases h.imports.symm.trans full
  | @cancelled d run seen later moves ticks_le =>
      -- the spared run goes on from here to its imports, and from there to what is sized
      obtain ⟨d', hrun', hhalted⟩ :=
        ((safe_imports hlibrary m m.references) start hstart).resolve_left
        fun ⟨_, _, hok, _⟩ => by cases run.symm.trans hok
      cases run.symm.trans hrun'
      have hmoved := (hpaced.paces imported).toMoved.moves
      rw [after_of_ok hdeclaring] at hmoved
      rw [after_of_ok h.imports] at moves
      have hcancelled : checkPasses library m start = .error .cancelled d := by
        rw [checkPasses_eq_declaring, bind_of_error run]
      have hadvances : ∀ {x}, d.table.Holds x → Table.Advances d.table b₁.table x := fun hx =>
        (moves.advances hx).trans (hmoved.advances (moves.advances hx).holds)
      exact .inr ⟨d, hcancelled, _, _,
        hhalted.sizedUpTo hb₁ hadvances (moves.onset.trans hmoved.onset).reports⟩
  | @ok _ d₀ run full unseen =>
      cases h.imports.symm.trans full
      have hcollected := (safe_imports hlibrary m m.references).ok hstart run
      cases (hpaced.paces d₀).keeps (unseen.spares hspares) with
      | fault run' full' => cases hdeclaring.symm.trans full'
      | @ok _ b run' full' unseen' =>
          cases hdeclaring.symm.trans full'
          have hb := hpoised b hnames₁ htable₁
          obtain ⟨hid, hnamespaces, hsymbols⟩ := base.table.reportAll_eq base.unproductiveReports
          rw [← htable₁] at hid hnamespaces hsymbols
          rw [← (Table.SizesWritten.of_eq hid hnamespaces hsymbols).productiveData] at run'
          rw [checkPasses_eq_declaring, bind_of_ok run, bind_of_ok run']
          exact hb.cases.imp (fun ⟨d, hd⟩ => ⟨d, _, hd⟩) id
      | @cancelled d run' seen later moves ticks_le =>
          have hrun : checkPasses library m start = .error .cancelled d := by
            rw [checkPasses_eq_declaring, bind_of_ok run, bind_of_error run']
          have hintact : d.Intact := by
            rcases safe_checkPasses hlibrary m start hstart with ⟨_, _, hok, -⟩ | ⟨_, hcut, hintact⟩
            · cases hrun.symm.trans hok
            · cases hrun.symm.trans hcut
              exact hintact
          have hbefore := (hpaced.paces d₀).toMoved.moves
          rw [after_of_error run'] at hbefore
          rw [after_of_ok hdeclaring] at moves
          exact .inr ⟨d, hrun, _, _, hb₁.sizedUpTo_before (hcollected.of_clock _) hintact
            hbefore moves⟩

end Draft

theorem Table.SizedUpTo.reads {t t' : Table} {done rest : List (List Nat)}
    (h : t.SizedUpTo names done rest) (hreads : t.Reads t') : t'.SizedUpTo names done rest :=
  h.of_symbols hreads.id_eq hreads.namespaces_eq hreads.symbols_eq (by rw [hreads.reports_eq])

theorem Session.exists_sizedUpTo (h : Session names tables)
    (hpositive : ∀ t ∈ tables, t.isValid = true →
      ∀ s e, (t.symbolAt s).size? = some e → e.Positive)
    (held : ∀ entry ∈ library.tables, entry.2 ∈ tables)
    (checked : checkModule names id library config m = (names', .ok out)) :
    ∃ done rest, out.table.SizedUpTo names' done rest ∧ (out.cancelled = false → rest = []) := by
  obtain ⟨d₁, hpatient⟩ := h.exists_patient held id config m
  obtain ⟨imported, base, hstaged⟩ := h.staged held hpatient
  have hpoised : ∀ b : Draft, b.names = base.names →
      b.table = base.table.reportAll base.unproductiveReports → Draft.Poised m imported.table b :=
    fun b => hstaged.poised (Draft.early_initial names id config.patient m) h.normal hpositive
  rw [Draft.initial_patient] at hstaged
  rcases hstaged.sizedUpTo (Clock.spares_of_patient fun _ => rfl) held (Draft.collected_initial
      h.archive.1 h.archive.2 (fun t ht _ => h.intact t ht) id config m) hpoised with
    ⟨d, done, hrun, hsized⟩ | ⟨d, hrun, done, rest, hsized⟩
  · rw [checkModule_of_ok hrun] at checked
    cases checked
    exact ⟨done, [], hsized.reads ⟨rfl, rfl, rfl, rfl⟩, fun _ => rfl⟩
  · rw [checkModule_of_cancelled hrun] at checked
    cases checked
    exact ⟨done, rest, hsized.reads ⟨rfl, rfl, rfl, rfl⟩, fun h => by cases h⟩

/-- No size in a valid table is zero, if none is in the valid tables before. -/
theorem checkModule_positive (h : Session names tables)
    (hpositive : ∀ t ∈ tables, t.isValid = true →
      ∀ s e, (t.symbolAt s).size? = some e → e.Positive)
    (held : ∀ entry ∈ library.tables, entry.2 ∈ tables)
    (checked : checkModule names id library config m = (names', .ok out))
    (hvalid : out.table.isValid = true) {s : SymbolId} {e : SizeExpr}
    (he : (out.table.symbolAt s).size? = some e) : e.Positive := by
  have hintact := h.intact_of_check held checked
  obtain ⟨_, _, hsized, -⟩ := h.exists_sizedUpTo hpositive held checked
  obtain ⟨d, hrun, rfl, -, htable⟩ := checkModule_valid checked hvalid
  obtain ⟨imported, base, hstaged⟩ := h.staged held hrun
  have hjudged := Draft.judged_of_judge hstaged.declared hstaged.unsized hstaged.judges
  have hwritten : base.table.SizesWritten out.table := by
    rw [htable]
    exact hjudged.written.trans (.of_eq rfl rfl rfl)
  have hsize : (d.table.symbolAt s).size? = some e := by
    rw [htable] at he
    exact he
  by_cases hmem : s ∈ base.table.ownGraph.components.flatMap
      (Table.componentSorts base.table.ownGraph)
  · cases hsize.symm.trans (hjudged.size s hmem)
    change ((base.table.finalSizes.find? (.sort s)).getD .infinity).Positive
    rw [← hwritten.finalSizes]
    cases hfind : out.table.finalSizes.find? (.sort s) with
    | none => exact SizeExpr.positive_infinity
    | some e => exact hsized.grounded.positive_finalSizes hintact hfind
  · exact (hstaged.grounds h.normal hpositive).2 ((hjudged.others s hmem).symm.trans hsize)

/-- No size in a valid table is zero. -/
theorem Session.positive (h : Session names tables) : ∀ t ∈ tables, t.isValid = true →
    ∀ s e, (t.symbolAt s).size? = some e → e.Positive := by
  induction h with
  | start => exact fun _ ht => absurd ht List.not_mem_nil
  | intern _ _ ih => exact ih
  | failed _ _ ih => exact ih
  | check h fresh held checked ih =>
      intro t ht hvalid s e he
      rcases List.mem_append.1 ht with ht | ht
      · exact ih t ht hvalid s e he
      · obtain rfl := List.mem_singleton.1 ht
        exact checkModule_positive h ih held checked hvalid he

/-- However a check ends, the components at the front were sized, and all of them if it was not
cancelled. -/
theorem Session.sizedUpTo (h : Session names tables)
    (held : ∀ entry ∈ library.tables, entry.2 ∈ tables)
    (checked : checkModule names id library config m = (names', .ok out)) :
    ∃ done rest, out.table.SizedUpTo names' done rest ∧ (out.cancelled = false → rest = []) :=
  h.exists_sizedUpTo h.positive held checked

end

end ManySorted
