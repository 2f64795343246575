import ManySorted.Proofs.Echo.Conveying

/-!
# Judging counterparts

If a table holds just the counterparts of the symbols of another one, and these are spoken of alike,
then judging the two tables leads to the same reports, in some order (`Table.Recounts.perm_judged`).

## Strategy

* **Graphs.**  If productive data has productive counterparts, the graphs of sizes are the same up
  to the order of edges (`Table.Weighs.perm_outlets`).
* **Sizes.**  So the sizes of one table are found again in the other one (`Table.Weighs.conveys`).
* **Reports.**  Each kind of report is about data with certain sizes, and the data of one table are
  the counterparts of those of the other.
-/

namespace ManySorted

namespace Table

variable {names names' : Interner} {t t' : Table} {f : SymbolId → SymbolId} {d s x : SymbolId}
  {n m : SizeNode} {position : Nat}

/-- A table is rendered with what it imports, and with the sizes of that. -/
structure Weighs (names names' : Interner) (t t' : Table) (f : SymbolId → SymbolId) : Prop
    extends t.Renders t' t.Holds f where
  intact : t.Intact names
  intact' : t'.Intact names'
  foreign : ∀ {x}, t.Holds x → (t.symbolAt x).isImported = true →
    (t'.symbolAt (f x)).isImported = true
  stored : ∀ {s}, t.IsSort s → (t.symbolAt s).isImported = true → SizeExpr.Shuffled
    (((t.symbolAt s).size?.getD .infinity).rename f) ((t'.symbolAt (f s)).size?.getD .infinity)

/-- The node with the mark of an edge that leads to it, for the counterpart. -/
def renameEdge (f : SymbolId → SymbolId) (edge : SizeNode × Bool) : SizeNode × Bool :=
  (edge.1.rename f, edge.2)

namespace Weighs

variable (h : Weighs names names' t t' f)
include h

theorem isImported (hx : t.Holds x) :
    (t'.symbolAt (f x)).isImported = (t.symbolAt x).isImported :=
  Bool.eq_iff_iff.2 ⟨h.imported hx, h.foreign hx⟩

theorem mem_ownData (hx : t.Holds x) : f x ∈ t'.ownData ↔ x ∈ t.ownData := by
  rw [h.intact.formed.arena.mem_ownData_iff, h.intact'.formed.arena.mem_ownData_iff,
    h.isImported hx, h.isData hx, h.failed hx]
  exact and_congr_left fun _ => iff_of_true (h.holds hx).2 hx

/-- Just the productive data has productive counterparts. -/
theorem productive (hx : t.Holds x) : f x ∈ t'.productiveData ↔ x ∈ t.productiveData := by
  have ht := h.intact.formed.arena
  have ht' := h.intact'.formed.arena
  constructor
  · intro hproductive
    have hown := (h.mem_ownData hx).1 (mem_productiveData.1 hproductive).1
    exact h.mem_productiveData_of_rename ht ht' hx (ht.mem_ownData_iff.1 hown).2.1 hproductive
  · exact h.mem_productiveData_rename ht ht'
      (fun hs hd himported => .inl (h.foreign (h.data hs hd) himported)) hx

theorem holds_data (hs : t.dataOf? s = some d) : t.Holds d :=
  h.data (isSort_iff_dataOf?.2 ⟨d, hs⟩).holds hs

theorem has_sort_rename (hs : t.Holds s) :
    t'.ownGraph.Has (.sort (f s)) ↔ t.ownGraph.Has (.sort s) := by
  rw [has_sort_iff h.intact.formed.toRegular, has_sort_iff h.intact'.formed.toRegular,
    h.dataOf? hs]
  constructor
  · rintro ⟨d', hd', hs'⟩
    obtain ⟨d, hsd, rfl⟩ := Option.map_eq_some_iff.1 hs'
    exact ⟨d, (h.productive (h.holds_data hsd)).1 hd', hsd⟩
  · rintro ⟨d, hd, hsd⟩
    exact ⟨f d, (h.productive (h.holds_data hsd)).2 hd, by rw [hsd]; rfl⟩

/-- What a table sizes is sized in the other one alike. -/
theorem conveys : Conveys names names' t t' t.Holds f where
  toRenders := h.toRenders
  intact := h.intact
  intact' := h.intact'
  covers := IsSort.holds
  productive hx := (h.productive hx).2
  known {s} hs hhas := by
    have hhas' := mt (h.has_sort_rename hs.holds).1 hhas
    rw [outcome, outcome, find?_finalSizes_none hhas, find?_finalSizes_none hhas']
    dsimp only
    rw [h.isImported hs.holds]
    cases himported : (t.symbolAt s).isImported with
    | true => exact h.stored hs himported
    | false => exact .refl _
  apart {s n} hs hhas hn hreach := by
    rcases Relation.ReflTransGen.cases_head hreach with heq | ⟨m, hleads, -⟩
    · cases n with
      | slot s' position => cases heq
      | sort s' =>
          obtain ⟨d, -, hs'⟩ := (has_sort_iff h.intact.formed.toRegular).1 hn
          have hholds := (isSort_iff_dataOf?.2 ⟨d, hs'⟩).holds
          exact hhas (h.injective hs.holds hholds (SizeNode.sort.inj heq) ▸ hn)
    · exact hhas ((h.has_sort_rename hs.holds).1 (t'.proper_ownGraph.has_of_leads hleads).1)

theorem perm_ownSortsAt (hs : t.dataOf? s = some d) :
    (t'.ownSortsAt t'.productiveData (t'.symbolAt (f d)) position).Perm
      ((t.ownSortsAt t.productiveData (t.symbolAt d) position).map f) := by
  have hholds := h.holds_data hs
  rw [ownSortsAt, ownSortsAt, h.accepted? hholds]
  cases hv : (t.symbolAt d).accepted? position with
  | none => exact .nil
  | some v =>
      dsimp only [Option.map_some]
      refine ((h.perm_sorts hholds hv).filter _).trans (.of_eq ?_)
      rw [List.filter_map]
      congr 1
      refine List.filter_congr fun s' hs' => ?_
      have hs'holds := h.accepted_refs hholds hv s' (AcceptedValues.mem_refs.2 (.inr hs'))
      rw [Function.comp_apply, h.dataOf? hs'holds]
      cases hd' : t.dataOf? s' with
      | none => rfl
      | some d' =>
          rw [Option.map_some, Option.any_some, Option.any_some, Bool.eq_iff_iff,
            List.contains_iff_mem, List.contains_iff_mem]
          exact h.productive (h.data hs'holds hd')

/-- A counterpart depends on the counterparts of what a node depends on. -/
theorem perm_outlets (hn : t.ownGraph.Has n) :
    (t'.ownGraph.outlets (n.rename f)).Perm ((t.ownGraph.outlets n).map (renameEdge f)) := by
  cases n with
  | sort s =>
      obtain ⟨d, hd, hs⟩ := (has_sort_iff h.intact.formed.toRegular).1 hn
      have hholds := h.holds_data hs
      rw [SizeNode.rename, outlets_sort h.intact.formed.toRegular hd hs,
        outlets_sort h.intact'.formed.toRegular ((h.productive hholds).2 hd)
          (h.conveys.dataOf?_rename hs), h.arity hholds, h.conveys.isUnbounded_rename hs,
            List.map_map]
      exact .refl _
  | slot s position =>
      obtain ⟨d, hd, hs, hlt⟩ := (has_slot_iff h.intact.formed.toRegular).1 hn
      have hholds := h.holds_data hs
      rw [SizeNode.rename, outlets_slot h.intact.formed.toRegular hd hs hlt,
        outlets_slot h.intact'.formed.toRegular ((h.productive hholds).2 hd)
          (h.conveys.dataOf?_rename hs) (by rwa [h.arity hholds]), List.map_map]
      refine ((h.perm_ownSortsAt hs).map _).trans (.of_eq ?_)
      rw [List.map_map]
      rfl

end Weighs

end Table

namespace Table

variable {names names' : Interner} {t t' : Table} {f : SymbolId → SymbolId} {d s x : SymbolId}
  {n m : SizeNode}

/-! ## The reports about counterparts -/

/-- Both tables hold counterparts only, and these are spoken of alike. -/
structure Recounts (names names' : Interner) (t t' : Table) (f : SymbolId → SymbolId) : Prop
    extends Weighs names names' t t' f where
  onto : ∀ {y}, t'.Holds y → ∃ x, t.Holds x ∧ f x = y
  name : ∀ {x}, t.Holds x → t'.qualifiedName names' (f x) = t.qualifiedName names x
  location : ∀ {x}, (t.kindOf x).isData = true →
    (t'.symbolAt (f x)).location = (t.symbolAt x).location
  label : ∀ {x label}, t.Holds x → (t.symbolAt x).isImported = false →
    some label ∈ (t.kindOf x).labels → names'.text label = names.text label

namespace Recounts

variable (h : Recounts names names' t t' f)
include h

theorem isData_of_dataOf? (hs : t.dataOf? s = some d) : (t.kindOf d).isData = true := by
  obtain ⟨shape, info, hkind, -⟩ := h.intact.formed.families.sort (dataOf?_eq_some_iff.1 hs)
  rw [hkind]
  rfl

theorem perm_ownData : t'.ownData.Perm (t.ownData.map f) := by
  have ht := h.intact.formed.arena
  have ht' := h.intact'.formed.arena
  refine (List.perm_ext_iff_of_nodup ht'.nodup_ownData (ht.nodup_ownData.map_on
    fun x hx y hy => h.injective (ht.mem_ownData_iff.1 hx).1 (ht.mem_ownData_iff.1 hy).1)).2
      fun y => ?_
  rw [List.mem_map]
  constructor
  · intro hy
    obtain ⟨x, hx, rfl⟩ := h.onto (ht'.mem_ownData_iff.1 hy).1
    exact ⟨x, (h.mem_ownData hx).1 hy, rfl⟩
  · rintro ⟨x, hx, rfl⟩
    exact (h.mem_ownData (ht.mem_ownData_iff.1 hx).1).2 hx

/-- The same data is reported to have no finite terms. -/
theorem perm_unproductive :
    ((t'.ownData.filter fun d => !t'.productiveData.contains d).map
        (t'.unproductiveReport names')).Perm
      ((t.ownData.filter fun d => !t.productiveData.contains d).map
        (t.unproductiveReport names)) := by
  have ht := h.intact.formed.arena
  refine ((h.perm_ownData.filter _).map _).trans (.of_eq ?_)
  rw [List.filter_map, List.map_map]
  have hfilter : t.ownData.filter ((fun d => !t'.productiveData.contains d) ∘ f) =
      t.ownData.filter fun d => !t.productiveData.contains d := by
    refine List.filter_congr fun d hd => ?_
    rw [Function.comp_apply, Bool.not_eq_eq_eq_not, Bool.not_not, Bool.eq_iff_iff,
      List.contains_iff_mem, List.contains_iff_mem]
    exact h.productive (ht.mem_ownData_iff.1 hd).1
  rw [hfilter]
  refine List.map_congr_left fun d hd => ?_
  obtain ⟨hholds, -, hdata, -⟩ := ht.mem_ownData_iff.1 (List.mem_filter.1 hd).1
  rw [Function.comp_apply, unproductiveReport, unproductiveReport, h.location hdata,
    h.name hholds]

theorem exists_node {n' : SizeNode} (hn' : t'.ownGraph.Has n') :
    ∃ n, t.ownGraph.Has n ∧ n.rename f = n' := by
  have hregular := h.intact.formed.toRegular
  cases n' with
  | sort s' =>
      obtain ⟨d', -, hs'⟩ := (has_sort_iff h.intact'.formed.toRegular).1 hn'
      obtain ⟨s, hs, rfl⟩ := h.onto (isSort_iff_dataOf?.2 ⟨d', hs'⟩).holds
      exact ⟨.sort s, (h.has_sort_rename hs).1 hn', rfl⟩
  | slot s' position =>
      obtain ⟨d', hd', hs', hlt⟩ := (has_slot_iff h.intact'.formed.toRegular).1 hn'
      obtain ⟨s, hs, rfl⟩ := h.onto (isSort_iff_dataOf?.2 ⟨d', hs'⟩).holds
      rw [h.dataOf? hs] at hs'
      obtain ⟨d, hd, rfl⟩ := Option.map_eq_some_iff.1 hs'
      have hholds := h.data hs hd
      refine ⟨.slot s position, (has_slot_iff hregular).2
        ⟨d, (h.productive hholds).1 hd', hd, ?_⟩, rfl⟩
      rwa [h.arity hholds] at hlt

theorem perm_sizedNodes : t'.sizedNodes.Perm (t.sizedNodes.map (SizeNode.rename f)) := by
  refine (List.perm_ext_iff_of_nodup t'.nodup_sizedNodes (t.nodup_sizedNodes.map_on
    fun n hn m hm => h.conveys.node_injective (mem_sizedNodes.1 hn) (mem_sizedNodes.1 hm))).2
      fun n' => ?_
  rw [List.mem_map, mem_sizedNodes]
  constructor
  · intro hn'
    obtain ⟨n, hn, rfl⟩ := h.exists_node hn'
    exact ⟨n, mem_sizedNodes.2 hn, rfl⟩
  · rintro ⟨n, hn, rfl⟩
    exact h.conveys.has_rename (mem_sizedNodes.1 hn)

theorem isImported_of_productive (hd : d ∈ t.productiveData) :
    (t.symbolAt d).isImported = false :=
  (h.intact.formed.arena.mem_ownData_iff.1 (mem_productiveData.1 hd).1).2.1

theorem positionName_rename (hd : t.Holds d) (hown : (t.symbolAt d).isImported = false)
    (position : Nat) :
    t'.positionName names' (f d) position = t.positionName names d position := by
  rw [positionName, positionName, h.labels hd]
  cases hlabel : (t.kindOf d).labels.getD position none with
  | none => rfl
  | some label =>
      refine h.label hd hown ?_
      rw [List.getD_eq_getElem?_getD] at hlabel
      cases hget : (t.kindOf d).labels[position]? with
      | none =>
          rw [hget] at hlabel
          cases hlabel
      | some entry =>
          rw [hget, Option.getD_some] at hlabel
          exact hlabel ▸ List.mem_of_getElem? hget

theorem perm_cycleReports (hn : t.ownGraph.Has n) :
    (t'.cycleReports names' (n.rename f)).Perm (t.cycleReports names n) := by
  refine ((h.perm_outlets hn).filterMap _).trans (.of_eq ?_)
  rw [List.filterMap_map, cycleReports]
  refine List.filterMap_congr fun edge hedge => ?_
  have hm := (t.proper_ownGraph.has_of_mem_outlets hedge).2
  have hback : Relation.ReflTransGen t'.ownGraph.Leads (edge.1.rename f) (n.rename f) ↔
      Relation.ReflTransGen t.ownGraph.Leads edge.1 n := h.conveys.reaches_rename_iff hm hn
  have hreport : t'.cycleReport? names' (edge.1.rename f) = t.cycleReport? names edge.1 := by
    cases hedge : edge.1 with
    | sort s => rfl
    | slot s position =>
        obtain ⟨d, hproductive, hd, -⟩ :=
          (has_slot_iff h.intact.formed.toRegular).1 (hedge ▸ hm)
        have hholds := h.holds_data hd
        simp only [SizeNode.rename, cycleReport?]
        rw [h.conveys.dataOf?_rename hd, hd, Option.map_some, Option.map_some, h.name hholds,
          h.positionName_rename hholds (h.isImported_of_productive hproductive),
          h.location (h.isData_of_dataOf? hd)]
  classical
  change (if edge.2 = true ∨ ¬ Relation.ReflTransGen t'.ownGraph.Leads (edge.1.rename f)
    (n.rename f) then none else t'.cycleReport? names' (edge.1.rename f)) = _
  rw [hreport]
  exact if_congr (or_congr_right (not_congr hback)) rfl rfl

/-- The demands of a map are met or missed by sizes, and its counterpart has the same. -/
theorem demandReports_rename (hd : d ∈ t.productiveData) (hs : t.dataOf? s = some d) :
    t'.demandReports names' t'.finalSizes (f s) = t.demandReports names t.finalSizes s := by
  obtain ⟨shape, info, hkind, -⟩ := h.intact.formed.families.sort (dataOf?_eq_some_iff.1 hs)
  have hholds := h.holds_data hs
  have hmisfits : t'.misfits names' t'.finalSizes (f d) (f s) =
      t.misfits names t.finalSizes d s := by
    have hkind₁ : (t.symbolAt d).kind = .data shape info := hkind
    have hkind₂ : (t'.symbolAt (f d)).kind = _ := h.kindOf_data hholds hkind
    cases shape with
    | constructor isNew => simp only [misfits, hkind₁, hkind₂]
    | map kind isPartial domainArity =>
        have hdomain : domainArity ≤ (t.symbolAt d).arity := (h.intact.data hkind).domain
        have hpositions : ∀ positions : List Nat,
            (∀ position ∈ positions, position < (t.symbolAt d).arity) →
            (positions.filter fun i => (t'.finalSizes.slot (f s) i).isInfinite).map
                (t'.positionName names' (f d)) =
              (positions.filter fun i => (t.finalSizes.slot s i).isInfinite).map
                (t.positionName names d) ∧
            (t'.finalSizes.product (f s) positions).closed =
              (t.finalSizes.product s positions).closed := by
          intro positions hlt
          have hslot := fun position hposition =>
            h.conveys.slot_finalSizes hd hs (hlt position hposition)
          refine ⟨?_, ?_⟩
          · rw [List.filter_congr fun i hi => show _ = (t.finalSizes.slot s i).isInfinite by
              rw [(hslot i hi).isInfinite, SizeExpr.isInfinite_rename]]
            exact List.map_congr_left fun i _ =>
              h.positionName_rename hholds (h.isImported_of_productive hd) i
          · rw [Sizes.product, Sizes.product, ← SizeExpr.closed_rename f (.multiply
              (positions.map (t.finalSizes.slot s))), SizeExpr.rename_multiply, List.map_map]
            exact (SizeExpr.Shuffled.multiply (List.forall₂_map_left_iff.2
              (List.forall₂_map_right_iff.2 (List.forall₂_same.2 hslot)))).closed.symm
        have hfirst := hpositions (List.range domainArity) fun position hposition =>
          Nat.lt_of_lt_of_le (List.mem_range.1 hposition) hdomain
        have hsecond := hpositions
          ((List.range ((t.symbolAt d).arity - domainArity)).map (domainArity + ·)) fun i hi => by
            obtain ⟨k, hk, rfl⟩ := List.mem_map.1 hi
            have := List.mem_range.1 hk
            omega
        simp only [misfits, hkind₁, hkind₂, h.arity hholds, hfirst, hsecond]
  rw [demandReports, demandReports, h.conveys.dataOf?_rename hs, hs, Option.toList_some,
    Option.toList_some, List.flatMap_singleton, List.flatMap_singleton, totalityReports,
    totalityReports, hmisfits, h.location (h.isData_of_dataOf? hs), h.name hholds]

/-- Sizing leads to the same reports, in some order. -/
theorem perm_sizingReports :
    (t'.sizingReports names' t'.ownGraph [] t'.ownGraph.components).Perm
      (t.sizingReports names t.ownGraph [] t.ownGraph.components) := by
  refine h.intact'.perm_sizingReports.trans (.trans ?_ h.intact.perm_sizingReports.symm)
  have hnodes := h.perm_sizedNodes
  refine .append ?_ ?_
  · refine (hnodes.flatMap_right _).trans ?_
    rw [List.flatMap_map]
    exact List.Perm.flatMap_left _ fun n hn => h.perm_cycleReports (mem_sizedNodes.1 hn)
  · refine ((hnodes.filterMap _).flatMap_right _).trans (.of_eq ?_)
    rw [List.filterMap_map]
    have hsorts : t.sizedNodes.filterMap (SizeNode.sort? ∘ SizeNode.rename f) =
        (t.sizedNodes.filterMap SizeNode.sort?).map f := by
      rw [List.map_filterMap]
      exact List.filterMap_congr fun n _ => by cases n <;> rfl
    rw [hsorts, List.flatMap_map]
    refine List.flatMap_congr fun s hs => ?_
    obtain ⟨n, hn, hsort⟩ := List.mem_filterMap.1 hs
    cases n with
    | slot s' position => cases hsort
    | sort s' =>
        cases hsort
        obtain ⟨d, hd, hsd⟩ :=
          (has_sort_iff h.intact.formed.toRegular).1 (mem_sizedNodes.1 hn)
        exact h.demandReports_rename hd hsd

end Recounts

end Table

end ManySorted
