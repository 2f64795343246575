import ManySorted.Proofs.Sizing.Equations
import ManySorted.Proofs.Sizing.Imported

/-!
# Productive sorts have positive sizes

Productive data can be built, so each of its positions accepts some value, and its size is not zero.
This takes for granted that forms are in normal form, whose ranges are not empty, and that the sizes
of what is imported are positive (`Table.Grounded`).  Sorts are judged in the order of their sizes,
each after those that it depends on (`Table.Grounded.positive_finalSizes`).
-/

namespace ManySorted

namespace AcceptedValues

variable {v : AcceptedValues}

/-- If values other than data are accepted, then at least one is counted. -/
theorem Normal.one_le_groundSum (h : v.Normal) (hground : v.hasGroundValues = true)
    (hfinite : { v.base with boolean := false }.isEmpty = true) : 1 ≤ v.groundSum := by
  simp only [hasGroundValues, Bool.or_eq_true, Bool.not_eq_true'] at hground
  rw [groundSum]
  rcases hground with (hconstants | hranges) | hbase
  · have hpos : 0 < v.constants.size :=
      List.length_pos_iff.2 (List.isEmpty_eq_false_iff.1 hconstants)
    omega
  · obtain ⟨r, hr⟩ := List.exists_mem_of_ne_nil _ (List.isEmpty_eq_false_iff.1 hranges)
    have hle := h.ranges.nonempty r hr
    have hone : 1 ≤ r.size := by
      rw [IntRange.size]
      omega
    have := hone.trans (List.le_sum_of_mem (List.mem_map_of_mem hr))
    omega
  · have hboolean : v.base.boolean = true := by
      by_contra hnot
      have hsame : { v.base with boolean := false } = v.base := by
        rw [← Bool.eq_false_iff.2 hnot]
      rw [hsame] at hfinite
      exact Bool.false_ne_true (hbase.symm.trans hfinite)
    rw [hboolean, if_pos rfl]
    omega

/-- What is counted at a position is positive if it accepts values other than data. -/
theorem Normal.positive_groundCount (h : v.Normal) (hground : v.hasGroundValues = true) :
    (match v.groundCount with
      | some n => SizeExpr.count n
      | none => SizeExpr.infinity).Positive := by
  cases hcount : v.groundCount with
  | none => exact SizeExpr.positive_infinity
  | some n =>
      obtain ⟨hfinite, -, rfl⟩ := groundCount_eq_some.1 hcount
      exact SizeExpr.positive_count.2 (h.one_le_groundSum hground hfinite)

end AcceptedValues

namespace Table

variable {names : Interner} {t : Table} {d s : SymbolId} {position : Nat} {e : SizeExpr}

/-- What the sizes of productive data rest on: forms in normal form, and imported sorts that belong
to imported data and whose sizes are positive. -/
structure Grounded (t : Table) : Prop where
  normal : ∀ x, t.NormalAt x
  sort : ∀ {d s}, (t.symbolAt d).isImported = true → t.dataOf? s = some d →
    (t.symbolAt s).isImported = true
  positive : ∀ {s e}, (t.symbolAt s).isImported = true → (t.symbolAt s).size? = some e → e.Positive

theorem Grounded.positive_sortSizeAt (h : t.Grounded) (any : Bool)
    (hsized : ∀ e, t.finalSizes.find? (.sort s) = some e → e.Positive)
    (himported : t.finalSizes.find? (.sort s) = none → (t.symbolAt s).isImported = true) :
    (t.sortSizeAt t.finalSizes any s).Positive := by
  have hcapped : ∀ e : SizeExpr, e.Positive →
      (if e.isInfinite && !any then SizeExpr.card s else e).Positive := by
    intro e he
    split
    · exact SizeExpr.positive_card s
    · exact he
  rw [sortSizeAt]
  refine hcapped _ ?_
  cases hfind : t.finalSizes.find? (.sort s) with
  | some e => exact hsized e hfind
  | none =>
      have himported := himported hfind
      simp only [himported, if_true]
      cases hsize : (t.symbolAt s).size? with
      | none => exact SizeExpr.positive_infinity
      | some e => exact h.positive himported hsize

section

variable (ht : t.Intact names)
include ht

/-- A position of productive data has a positive size if the sorts that it depends on do. -/
theorem Grounded.positive_slotSize (h : t.Grounded) (hd : d ∈ t.productiveData)
    (hs : t.dataOf? s = some d) (hlt : position < (t.symbolAt d).arity)
    (hleads : ∀ s', t.ownGraph.Leads (.slot s position) (.sort s') →
      ∀ e, t.finalSizes.find? (.sort s') = some e → e.Positive) :
    (t.slotSize t.finalSizes s position).Positive := by
  have hregular := ht.formed.toRegular
  obtain ⟨v, hv, hfill⟩ := canBuild_eq_true.1 (mem_productiveData.1 hd).2 position hlt
  have hv' := (ht.accepted?_eq hs position).trans hv
  rw [slotSize, hv']
  rw [canFill, Bool.or_eq_true, List.any_eq_true] at hfill
  rcases hfill with hground | ⟨d', hmem, hd'⟩
  · exact SizeExpr.positive_add List.mem_cons_self
      (((h.normal d).accepted? hv).positive_groundCount hground)
  · obtain ⟨s', hs', hdata⟩ := List.mem_filterMap.1 hmem
    refine SizeExpr.positive_add (List.mem_cons_of_mem _ (List.mem_map_of_mem hs'))
      (h.positive_sortSizeAt _ (fun e he => ?_) fun hnone => ?_)
    · have hhas : t.ownGraph.Has (.sort s') := by
        by_contra hnot
        cases (find?_finalSizes_none hnot).symm.trans he
      exact hleads s' (leads_sort hregular hd hs hlt hv hs' hhas) e he
    · rw [Bool.or_eq_true] at hd'
      refine hd'.elim (fun himported => h.sort himported hdata) fun hproductive => ?_
      -- productive data is sized
      have hhas := (has_sort_iff hregular).2 ⟨d', by simpa using hproductive, hdata⟩
      obtain ⟨e, he⟩ := t.exists_find?_finalSizes hhas
      cases hnone.symm.trans he

/-- The sizes that sizing arrives at are positive. -/
theorem Grounded.positive_finalSizes (h : t.Grounded) {n : SizeNode}
    (he : t.finalSizes.find? n = some e) : e.Positive := by
  have hregular := ht.formed.toRegular
  have hall : ∀ n, t.ownGraph.Has n → ∀ e, t.finalSizes.find? n = some e → e.Positive := by
    refine t.proper_ownGraph.dependency_induction fun n hn hleads e he => ?_
    obtain ⟨hcyclic, hacyclic⟩ := ht.find?_finalSizes hn
    by_cases hcycle : t.ownGraph.Cycles n
    · cases he.symm.trans (hcyclic hcycle)
      exact SizeExpr.positive_infinity
    · cases he.symm.trans (hacyclic hcycle)
      have hleads := hleads hcycle
      cases n with
      | sort s =>
          obtain ⟨d, hd, hs⟩ := (has_sort_iff hregular).1 hn
          obtain ⟨shape, info, hkind, -⟩ := ht.formed.families.sort (dataOf?_eq_some_iff.1 hs)
          rw [nodeSize, sortSize, hs]
          refine SizeExpr.positive_multiply fun e he => ?_
          obtain ⟨position, hposition, rfl⟩ := List.mem_map.1 he
          have hlt := Nat.lt_of_lt_of_le (List.mem_range.1 hposition) (ht.domainArity_le hkind)
          have hslot := leads_slot hregular hd hs hlt
          obtain ⟨e, he⟩ := t.exists_find?_finalSizes (t.proper_ownGraph.has_of_leads hslot).2
          rw [Sizes.slot, he]
          exact hleads _ hslot e he
      | slot s position =>
          obtain ⟨d, hd, hs, hlt⟩ := (has_slot_iff hregular).1 hn
          exact h.positive_slotSize ht hd hs hlt fun s' => hleads _
  refine hall n ?_ e he
  by_contra hnot
  cases (find?_finalSizes_none hnot).symm.trans he

theorem Grounded.positive_slot (h : t.Grounded) (s : SymbolId) (position : Nat) :
    (t.finalSizes.slot s position).Positive := by
  rw [Sizes.slot]
  cases he : t.finalSizes.find? (.slot s position) with
  | none => exact SizeExpr.positive_infinity
  | some e => exact h.positive_finalSizes ht he

end

end Table

end ManySorted
