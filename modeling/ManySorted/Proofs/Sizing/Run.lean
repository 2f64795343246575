import ManySorted.Proofs.Draft.Passes
import ManySorted.Proofs.Sizing.Component

/-!
# Sizing the sorts of a module

If nothing is reported, all data of the module is productive.  Components are sized one after the
other; each size that is written is closed and bounds what it should, so the table stays sound.
The passes after the declarations add no symbols (`Draft.establishes_sizes`).
-/

namespace ManySorted

namespace Table

variable {names : Interner} {t t' : Table} {s : SymbolId} {sizes : Sizes}

/-- Finishing a sort writes its size and nothing else that counts. -/
theorem finishSort_ok (h : t.finishSort names sizes s = .ok t') :
    ∃ t₁, t.setSize s ((sizes.find? (.sort s)).getD .infinity) = .ok t₁ ∧
      t'.id = t₁.id ∧ t'.namespaces = t₁.namespaces ∧ t'.symbols = t₁.symbols := by
  unfold finishSort at h
  obtain ⟨t₁, hsize, h⟩ := except_bind_eq_ok.1 h
  refine ⟨t₁, hsize, ?_⟩
  dsimp only at h
  split at h
  · cases h
    exact ⟨rfl, rfl, rfl⟩
  · cases h
    exact reportAll_eq _ _

end Table

namespace Draft

variable {g : DepGraph SizeNode} {sizes : Sizes} {done rest : List (List Nat)}
  {component : List Nat} {names : Interner} {t : Table} {s : SymbolId}

/-- What finishing a sort relies on. -/
def Finishable (sizes : Sizes) (s : SymbolId) (d : Draft) : Prop :=
  d.table.Owns s ∧ ∃ e, sizes.find? (.sort s) = some e ∧ e.Closed d.table ∧ d.table.Bounds s e

/-- Finishing a sort writes its size. -/
theorem enlarges_finishSort (names : Interner) :
    Enlarges (Finishable sizes s) (tryModifyTable (·.finishSort names sizes s)) fun _ d =>
      (d.table.symbolAt s).size? = sizes.find? (.sort s) := by
  refine enlarges_tryModifyTable (proceeds_tryModifyTable fun _ _ => Table.onward_finishSort)
    fun d table hsound ⟨howns, e, hfind, hclosed, hbounds⟩ hfinish => ?_
  obtain ⟨t₁, hsize, hid, hnamespaces, hsymbols⟩ := Table.finishSort_ok hfinish
  rw [hfind, Option.getD_some] at hsize
  have hwritten := Table.Sound.written_setSize hsound hsize howns hclosed hbounds
  obtain ⟨_, _, _, hat⟩ := Table.touched_setSize hsize howns.holds
  refine ⟨hwritten.extends.trans (.of_eq hid hnamespaces hsymbols),
    (Table.Sound.written hsound hwritten).of_eq hid hnamespaces hsymbols, ?_⟩
  change (table.symbolAt s).size? = _
  rw [hfind, Table.symbolAt, hsymbols]
  change (t₁.symbolAt s).size? = _
  rw [hat]
  rfl

/-- What sizing a component relies on, as of the table that the sizes are read from. -/
structure Component (t : Table) (g : DepGraph SizeNode) (done : List (List Nat)) (sizes : Sizes)
    (component : List Nat) (d : Draft) : Prop where
  later : t.Later d.table
  ready : t.Ready g
  counted : t.Counted g done sizes
  bounds : ∀ n ∈ Table.componentNodes g component,
    (t.componentSize g sizes component n).Closed t ∧
      t.NodeBounds (t.componentSize g sizes component n) n

theorem lasting_component : Lasting (Component t g done sizes component) :=
  fun _ _ hext h => { h with later := h.later.trans hext.table.later }

theorem Component.finishable {d : Draft} (h : Component t g done sizes component d)
    (hs : s ∈ Table.componentSorts g component) :
    Finishable (t.componentSizes g sizes component ++ sizes) s d := by
  have hn := Table.mem_componentSorts.1 hs
  obtain ⟨i, _, hi⟩ := List.mem_filterMap.1 hn
  obtain ⟨hclosed, hbounds⟩ := h.bounds _ hn
  refine ⟨(h.ready.sort hi).1.later h.later, _, ?_, hclosed.later h.later,
    Table.Bounds.later hbounds h.later⟩
  rw [Table.find?_componentSizes, if_pos hn]

theorem enlarges_finishSorts (names : Interner) :
    Enlarges (Component t g done sizes component)
      ((Table.componentSorts g component).forM fun sort =>
        tryModifyTable (·.finishSort names (t.componentSizes g sizes component ++ sizes) sort))
      fun _ d => d.table.Ready g ∧ d.table.Counted g (done ++ [component])
        (t.componentSizes g sizes component ++ sizes) := by
  have hlasting : ∀ s, Lasting fun d => (d.table.symbolAt s).size? =
      some (t.componentSize g sizes component (.sort s)) :=
    fun s d d' hext h => (hext.table.later.symbol (Table.holds_of_size? h)).size h
  refine (enlarges_forM_each lasting_component hlasting fun s hs => ?_).imp (fun _ hd => hd)
    fun _ d ⟨hd, hwritten⟩ => ⟨hd.ready.later hd.later,
      hd.counted.append hd.later hd.bounds hwritten⟩
  refine (enlarges_finishSort names).imp (fun d hd => hd.finishable hs) fun _ d hd => ?_
  rw [hd, Table.find?_componentSizes, if_pos (Table.mem_componentSorts.1 hs)]

theorem enlarges_sizeComponent (hcomponents : g.components = done ++ component :: rest) :
    Enlarges (fun d => d.table.Ready g ∧ d.table.Counted g done sizes)
      (sizeComponent g sizes component)
      fun sizes d => d.table.Ready g ∧ d.table.Counted g (done ++ [component]) sizes := by
  have hlasting : Lasting fun d => d.table.Ready g ∧ d.table.Counted g done sizes :=
    fun d d' hext h => ⟨h.1.later hext.table.later, h.2.later hext.table.later⟩
  refine (enlarges_tick hlasting).bind fun _ => enlarges_getNames_bind fun names => ?_
  refine enlarges_getTable_bind fun t => ?_
  have hfinish : Enlarges (Component t g done sizes component) (do
      (Table.componentSorts g component).forM fun sort =>
        tryModifyTable (·.finishSort names (t.componentSizes g sizes component ++ sizes) sort)
      return t.componentSizes g sizes component ++ sizes)
      fun sizes d => d.table.Ready g ∧ d.table.Counted g (done ++ [component]) sizes :=
    (enlarges_finishSorts names).bind fun _ => enlarges_pure fun _ hd => hd
  have hstart : ∀ d : Draft, d.Sound → ((d.table.Ready g ∧ d.table.Counted g done sizes) ∧
      d.names = names) ∧ d.table = t → Component t g done sizes component d := by
    rintro d hsound ⟨⟨⟨hready, hcounted⟩, _⟩, rfl⟩
    exact ⟨.refl _, hready, hcounted, fun n hn =>
      Table.Sound.nodeBounds_component hsound hready hcounted hcomponents hn⟩
  refine Enlarges.of_sound (P := Component t g done sizes component) ?_ hstart
  dsimp only
  refine .ite (fun _ => Enlarges.bind (Q := fun _ => Component t g done sizes component) ?_
    fun _ => hfinish) fun _ => hfinish
  refine enlarges_aside (proceeds_modify fun d => .of_table (d.table.onward_reportAll _))
    (fun _ => rfl) (fun d => d.table.reportAll_eq _) fun d hd _ => ?_
  obtain ⟨hid, hnamespaces, hsymbols⟩ :=
    d.table.reportAll_eq (d.table.relationalReports names g component)
  exact { hd with later := hd.later.trans (.of_eq hid hnamespaces hsymbols) }

/-! ## The passes -/

theorem enlarges_ticks {P : Draft → Prop}
    (hP : ∀ d, P d → P { d with clock := d.clock.advance }) (n : Nat) :
    Enlarges P (ticks n) fun _ => P := by
  induction n with
  | zero => exact enlarges_pure fun _ hd => hd
  | succ n ih => exact (enlarges_tick_of hP).bind fun _ => ih

/-- If nothing is reported, all data of the module is productive. -/
theorem enlarges_checkProductivity :
    Enlarges (fun _ => True) checkProductivity fun productive d =>
      productive = d.table.productiveData ∧ ∀ x ∈ d.table.ownData, x ∈ productive := by
  rw [checkProductivity_eq]
  refine enlarges_getTable_bind fun t => ?_
  let Unchanged (d : Draft) : Prop := t.Arena ∧ d.table = t
  refine Enlarges.of_sound (P := Unchanged) ?_ fun d hsound hd =>
    ⟨hd.2 ▸ (Table.Sound.regular hsound).arena, hd.2⟩
  refine (enlarges_ticks (fun _ hd => hd) _).bind fun _ => ?_
  refine Enlarges.bind (Q := fun _ d => Unchanged d ∧ ∀ x ∈ t.ownData, x ∈ t.productiveData)
    ?_ fun _ => enlarges_pure ?_
  · refine enlarges_aside (proceeds_modify fun d => .of_table (d.table.onward_reportAll _))
      (fun _ => rfl) (fun d => d.table.reportAll_eq _) ?_
    rintro d ⟨harena, rfl⟩ hclean
    have hnone := Table.problems_eq_nil (fun r hr => ?_) hclean
    · refine ⟨⟨harena, congrArg d.table.reportAll hnone⟩, fun x hx => ?_⟩
      have hnot := List.filter_eq_nil_iff.1 (List.map_eq_nil_iff.1 hnone) x hx
      rw [Bool.not_eq_true, Bool.not_eq_false', List.contains_iff_mem] at hnot
      exact harena.mem_solution_iff.1 hnot
    · obtain ⟨x, _, rfl⟩ := List.mem_map.1 hr
      rfl
  · rintro d ⟨⟨harena, rfl⟩, hall⟩
    exact ⟨harena.solvedData_eq, fun x hx => harena.solvedData_eq ▸ hall x hx⟩

/-- Sizing keeps the table sound: the sizes that are written bound what they should. -/
theorem enlarges_sizeData (productive : List SymbolId) :
    Enlarges (fun d => productive = d.table.productiveData ∧
      ∀ x ∈ d.table.ownData, x ∈ productive) (sizeData productive) fun _ _ => True := by
  refine enlarges_getTable_bind fun t => ?_
  have hfold := enlarges_foldlM (l := (t.sizeGraph productive).components)
    (motive := fun done sizes d => d.table.Ready (t.sizeGraph productive) ∧
      d.table.Counted (t.sizeGraph productive) done sizes)
    (fun done sizes component rest hcomponents => enlarges_sizeComponent hcomponents) []
  refine (hfold.of_sound ?_).discard fun _ _ _ => trivial
  rintro d hsound ⟨⟨rfl, hall⟩, rfl⟩
  exact ⟨Table.Sound.ready_sizeGraph hsound hall, Table.counted_nil _ _⟩

theorem enlarges_checkContract (m : Module) (contract : ContractDecl) :
    Enlarges (fun _ => True) (checkContract m contract) fun _ _ => True := by
  refine (enlarges_tick fun _ _ _ h => h).bind fun _ => ?_
  exact enlarges_aside (proceeds_modify fun d => .of_table
      ((d.table.onward_reportAll _).trans (.of_eq rfl rfl rfl)))
    (fun _ => rfl) (fun d => d.table.reportAll_eq _) fun _ _ _ => trivial

/-! ## No more symbols -/

/-- A run that ends well and leaves no errors has added no symbols. -/
def Settled {α : Type} (x : DraftM α) : Prop :=
  ∀ n, Establishes (fun d => d.table.symbols.size = n) x fun _ d => d.table.symbols.size = n

namespace Settled

variable {α β : Type} {x : DraftM α}

theorem bind {f : α → DraftM β} (hx : Settled x) (hf : ∀ a, Settled (f a)) : Settled (x >>= f) :=
  fun n => (hx n).bind fun a => hf a n

theorem pure (a : α) : Settled (Pure.pure a) := fun _ => establishes_pure fun _ hd => hd

theorem getTable : Settled Draft.getTable := fun _ => ⟨proceeds_getTable, fun hd hrun _ => by
  cases hrun
  exact hd⟩

theorem getNames : Settled Draft.getNames := fun _ => ⟨proceeds_getNames, fun hd hrun _ => by
  cases hrun
  exact hd⟩

theorem tick : Settled Draft.tick := fun _ => establishes_tick fun _ hd => hd

theorem modify {f : Draft → Draft} (hproceeds : Proceeds (modify f))
    (hsymbols : ∀ d, (f d).table.symbols = d.table.symbols) : Settled (modify f) :=
  fun _ => establishes_modify hproceeds fun d hd _ => by rw [hsymbols, hd]

theorem forM {f : α → DraftM PUnit} {l : List α} (h : ∀ a ∈ l, Settled (f a)) :
    Settled (l.forM f) := fun n =>
  establishes_forM (motive := fun _ d => d.table.symbols.size = n) fun _ a ha => h a ha n

end Settled

theorem settled_finishSort (names : Interner) (sizes : Sizes) (s : SymbolId) :
    Settled (tryModifyTable (·.finishSort names sizes s)) := by
  refine fun n => establishes_tryModifyTable
    (proceeds_tryModifyTable fun _ _ => Table.onward_finishSort) fun d table hd hfinish _ => ?_
  obtain ⟨t₁, hsize, _, _, hsymbols⟩ := Table.finishSort_ok hfinish
  change table.symbols.size = n
  rw [hsymbols, ← hd]
  unfold Table.setSize at hsize
  split at hsize
  · cases hsize
    simp [Table.updateSymbol]
  · cases hsize

theorem settled_sizeComponent (g : DepGraph SizeNode) (sizes : Sizes) (component : List Nat) :
    Settled (sizeComponent g sizes component) := by
  refine Settled.tick.bind fun _ => Settled.getNames.bind fun names => ?_
  refine Settled.getTable.bind fun t => ?_
  have hfinish : ∀ sizes : Sizes, Settled (do
      (Table.componentSorts g component).forM fun sort =>
        tryModifyTable (·.finishSort names sizes sort)
      return sizes) := fun sizes =>
    (Settled.forM fun s _ => settled_finishSort names sizes s).bind fun _ => .pure _
  refine fun n => .ite (fun _ => (Settled.bind ?_ fun _ => hfinish _) n) fun _ => hfinish _ n
  exact .modify (proceeds_modify fun d => .of_table (d.table.onward_reportAll _))
    fun d => (d.table.reportAll_eq _).2.2

theorem settled_ticks (n : Nat) : Settled (ticks n) := by
  induction n with
  | zero => exact .pure _
  | succ n ih => exact Settled.tick.bind fun _ => ih

/-- The passes after the declarations add no symbols. -/
theorem settled_judging (m : Module) : Settled (do
    let productive ← checkProductivity
    sizeData productive
    m.contracts.forM (checkContract m)) := by
  refine Settled.bind ?_ fun productive => Settled.bind ?_ fun _ =>
    Settled.forM fun contract _ => ?_
  · rw [checkProductivity_eq]
    refine Settled.getTable.bind fun t => ?_
    refine (settled_ticks _).bind fun _ => Settled.bind ?_ fun _ => .pure _
    exact .modify (proceeds_modify fun d => .of_table (d.table.onward_reportAll _))
      fun d => (d.table.reportAll_eq _).2.2
  · refine Settled.getTable.bind fun t => Settled.bind (fun n => ?_) fun _ => .pure _
    exact establishes_foldlM (motive := fun _ _ d => d.table.symbols.size = n)
      (fun _ sizes component _ => settled_sizeComponent _ sizes component n) []
  · refine Settled.tick.bind fun _ => .modify (proceeds_modify fun d => .of_table ?_) fun d => ?_
    · exact (d.table.onward_reportAll _).trans (.of_eq rfl rfl rfl)
    · exact (d.table.reportAll_eq _).2.2

end Draft

end ManySorted
