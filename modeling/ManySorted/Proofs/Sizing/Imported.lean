import ManySorted.Proofs.Import.Provenance
import ManySorted.Proofs.Import.Safety
import ManySorted.Proofs.Sizing.Amount

/-!
# Imported sizes

A position of a copy takes no more values than the position of the original, with the facts of a
copy counted for those of the original (`Table.Embedding.slotAmount_le`).  So a size that bounds a
sort bounds its copies, and in a table that may be relied on every size bounds its sort
(`Table.Trusted.productAmount_le`).
-/

namespace ManySorted

/-! ## Renamed values -/

namespace OrderedSet

variable {α : Type*} [Ord α]

theorem length_insertList_le (a : α) (l : List α) : (insertList a l).length ≤ l.length + 1 := by
  induction l with
  | nil => exact Nat.le_refl 1
  | cons b rest ih =>
      rw [insertList]
      split
      · exact Nat.le_refl _
      · exact Nat.le_succ _
      · exact Nat.succ_le_succ ih

/-- A set has no more elements than the list that it is made of. -/
theorem size_ofList_le (l : List α) : (ofList l).size ≤ l.length := by
  have hfold : ∀ s : OrderedSet α, (l.foldl insert s).size ≤ s.size + l.length := by
    induction l with
    | nil => exact fun s => Nat.le_refl _
    | cons a rest ih =>
        intro s
        have hinsert : (s.insert a).size ≤ s.size + 1 := length_insertList_le a s.toList
        have hrest := ih (s.insert a)
        rw [List.foldl_cons, List.length_cons]
        omega
  exact (hfold ∅).trans (le_of_eq (Nat.zero_add _))

theorem sum_insertList_le (amount : α → ℕ∞) (a : α) (l : List α) :
    ((insertList a l).map amount).sum ≤ amount a + (l.map amount).sum := by
  induction l with
  | nil => exact le_rfl
  | cons b rest ih =>
      rw [insertList]
      split
      · exact le_rfl
      · exact le_add_self
      · rw [List.map_cons, List.map_cons, List.sum_cons, List.sum_cons, add_left_comm]
        exact add_le_add_right ih _

/-- Adding up over a set is no more than adding up over the list that it is made of. -/
theorem sum_ofList_le (amount : α → ℕ∞) (l : List α) :
    ((ofList l).toList.map amount).sum ≤ (l.map amount).sum := by
  have hfold : ∀ s : OrderedSet α, ((l.foldl insert s).toList.map amount).sum ≤
      (s.toList.map amount).sum + (l.map amount).sum := by
    induction l with
    | nil => exact fun s => le_add_right le_rfl
    | cons a rest ih =>
        intro s
        refine (ih (s.insert a)).trans ?_
        rw [List.map_cons, List.sum_cons, ← add_assoc, add_comm (List.sum _) (amount a)]
        exact add_le_add_left (sum_insertList_le amount a s.toList) _
  exact (hfold ∅).trans (le_of_eq (zero_add _))

end OrderedSet

namespace AcceptedValues

variable {v : AcceptedValues} {ρ : SymbolId → SymbolId}

theorem foldl_range_size (ranges : List IntRange) (total : Nat) :
    ranges.foldl (fun total range => total + range.size) total =
      total + (ranges.map IntRange.size).sum := by
  induction ranges generalizing total with
  | nil => rfl
  | cons range rest ih => rw [List.foldl_cons, ih, List.map_cons, List.sum_cons, Nat.add_assoc]

/-- The number of values that are no data, however great, unless a base sort without bound is among
them. -/
def groundSum (v : AcceptedValues) : Nat :=
  v.constants.size + (if v.base.boolean then 2 else 0) + (v.ranges.map IntRange.size).sum

theorem groundCount_eq_some {n : Nat} : v.groundCount = some n ↔
    { v.base with boolean := false }.isEmpty = true ∧ v.groundSum ≤ maxCount ∧ v.groundSum = n := by
  rw [groundCount]
  dsimp only
  rw [foldl_range_size]
  change (if _ then if v.groundSum ≤ maxCount then some v.groundSum else none else none) =
    some n ↔ _
  split
  · split <;> simp_all
  · simp_all

/-- Renaming makes no more of the values that are no data. -/
theorem groundAmount_rename_le : (v.rename ρ).groundAmount ≤ v.groundAmount := by
  have hsize : (v.rename ρ).constants.size ≤ v.constants.size :=
    (OrderedSet.size_ofList_le _).trans (List.length_filterMap_le _ _)
  have hsum : (v.rename ρ).groundSum ≤ v.groundSum :=
    Nat.add_le_add_right (Nat.add_le_add_right hsize _) _
  unfold groundAmount
  cases hcount : v.groundCount with
  | none => exact le_top
  | some n =>
      obtain ⟨hfinite, hmax, rfl⟩ := groundCount_eq_some.1 hcount
      have hcount' : (v.rename ρ).groundCount = some (v.rename ρ).groundSum :=
        groundCount_eq_some.2 ⟨hfinite, hsum.trans hmax, rfl⟩
      rw [hcount']
      exact Nat.cast_le.2 hsum

end AcceptedValues

namespace Table

variable {names : Interner} {tables : List Table} {foreign t : Table} {base : NamespaceId}
  {ρ : SymbolId → SymbolId} {s : SymbolId} {facts : SymbolId → ℕ∞}

theorem Embedding.sortAmount (h : foreign.Embedding t base ρ) (hs : foreign.IsSort s) (any : Bool) :
    t.sortAmount facts any (ρ s) = foreign.sortAmount (facts ∘ ρ) any s := by
  have hsize : ((t.symbolAt (ρ s)).size?.getD .infinity) =
      ((foreign.symbolAt s).size?.getD .infinity).rename ρ := by
    rw [(h.copies hs.carries).size]
    cases (foreign.symbolAt s).size? <;> rfl
  rw [Table.sortAmount, Table.sortAmount, hsize, SizeExpr.isInfinite_rename, SizeExpr.amount_rename]
  rfl

theorem Embedding.isAnyAt (h : foreign.Embedding t base ρ) (hforeign : foreign.Regular names)
    (ht : t.Regular names) (hs : foreign.IsSort s) (position : Nat) :
    t.isAnyAt (ρ s) position = foreign.isAnyAt s position := by
  obtain ⟨d, hd⟩ := isSort_iff_dataOf?.1 hs
  obtain ⟨shape, info, hkind, -⟩ := hforeign.families.sort (dataOf?_eq_some_iff.1 hd)
  obtain ⟨info', hkind', -, hany, -⟩ := h.data hforeign ht hkind
  rw [Table.isAnyAt, Table.isAnyAt, h.dataOf? hforeign ht hd, hd, Option.any_some, Option.any_some,
    hkind, hkind']
  exact congrArg (fun marks : List Bool => marks.getD position false) hany

/-- A position of a copy takes no more values than that of the original. -/
theorem Embedding.slotAmount_le (h : foreign.Embedding t base ρ) (hforeign : foreign.Regular names)
    (ht : t.Regular names) (hs : foreign.IsSort s) (hclosed : (foreign.symbolAt s).Closed foreign)
    (position : Nat) :
    t.slotAmount facts (ρ s) position ≤ foreign.slotAmount (facts ∘ ρ) s position := by
  have haccepted : (t.symbolAt (ρ s)).accepted? position =
      ((foreign.symbolAt s).accepted? position).map (·.rename ρ) := by
    rw [Symbol.accepted?, Symbol.accepted?, (h.copies hs.carries).form]
    cases (foreign.symbolAt s).canonical with
    | none => rfl
    | some form => exact List.getElem?_map
  rw [Table.slotAmount, Table.slotAmount, haccepted]
  cases hv : (foreign.symbolAt s).accepted? position with
  | none => exact le_rfl
  | some v =>
      obtain ⟨form, hform, hget⟩ := Option.bind_eq_some_iff.1 hv
      have hvclosed := hclosed.form hform v (List.mem_of_getElem? hget)
      refine add_le_add AcceptedValues.groundAmount_rename_le ?_
      refine (OrderedSet.sum_ofList_le _ _).trans (le_of_eq ?_)
      rw [List.filterMap_eq_map', List.map_map, h.isAnyAt hforeign ht hs]
      exact congrArg List.sum (List.map_congr_left fun s' hs' =>
        h.sortAmount (hvclosed.sorts hs') _)

theorem Embedding.productAmount_le (h : foreign.Embedding t base ρ)
    (hforeign : foreign.Regular names) (ht : t.Regular names) (hs : foreign.IsSort s)
    (hclosed : (foreign.symbolAt s).Closed foreign) :
    t.productAmount facts (ρ s) ≤ foreign.productAmount (facts ∘ ρ) s := by
  obtain ⟨d, hd⟩ := isSort_iff_dataOf?.1 hs
  obtain ⟨shape, info, hkind, -⟩ := hforeign.families.sort (dataOf?_eq_some_iff.1 hd)
  obtain ⟨info', hkind', -⟩ := h.data hforeign ht hkind
  have hcounted : countedArity (t.symbolAt (ρ d)) = countedArity (foreign.symbolAt d) := by
    rw [countedArity, countedArity, (h.copies (carries_of_data hkind)).arity,
      show (t.symbolAt (ρ d)).kind = _ from hkind', show (foreign.symbolAt d).kind = _ from hkind]
    cases shape <;> rfl
  rw [Table.productAmount, Table.productAmount, h.dataOf? hforeign ht hd, hd]
  dsimp only
  rw [hcounted]
  exact List.prod_le_prod' fun position _ => h.slotAmount_le hforeign ht hs hclosed position

/-- An imported sort is the copy of a sort in the table where it was declared. -/
theorem Provenance.exists_sort {o : Origin} (h : t.Provenance tables) (hs : t.IsSort s)
    (horigin : (t.symbolAt s).origin = some o) :
    ∃ source base ρ, Source tables o source ∧ source.Embedding t base ρ ∧
      source.IsSort o.symbol ∧ ρ o.symbol = s := by
  obtain ⟨d, hd⟩ := isSort_iff_dataOf?.1 hs
  obtain ⟨size, hkind⟩ := SymbolKind.unsized_eq_userSort.1 (dataOf?_eq_some_iff.1 hd)
  obtain ⟨source, ρ, hsource, hembed, hcopy, hfound⟩ :=
    h.embedded hs.holds horigin (by rw [hkind]; rfl)
  have hsort : source.IsSort o.symbol := isSort_of_outline hcopy.outline.symm hs
  exact ⟨source, _, ρ, hsource, hembed, hsort,
    Option.some.inj ((hembed.relocates hsort.carries).symm.trans hfound)⟩

/-- The sizes of a table that may be relied on bound the ways to fill the positions. -/
theorem Trusted.productAmount_le (h : t.Trusted names tables) (harchive : Archive names tables)
    {e : SizeExpr} (he : (t.symbolAt s).size? = some e) :
      t.productAmount facts s ≤ e.amount facts := by
  have hsort : t.IsSort s := by
    unfold Symbol.size? at he
    split at he
    · next d _ hkind => exact ⟨d, SymbolKind.unsized_eq_userSort.2 ⟨_, hkind⟩⟩
    · cases he
  cases horigin : (t.symbolAt s).origin with
  | none => exact h.own_bounded hsort.holds horigin he t (.refl t) facts
  | some o =>
      obtain ⟨source, base, ρ, hsource, hembed, hsort', rfl⟩ :=
        h.provenance.exists_sort hsort horigin
      have htrusted := harchive.trusted hsource.mem hsource.valid
      have hclosed := htrusted.own_closed hsource.holds hsource.own
      obtain ⟨e', he', rfl⟩ : ∃ e', (source.symbolAt o.symbol).size? = some e' ∧
          e'.rename ρ = e := by
        rw [(hembed.copies hsort'.carries).size] at he
        exact Option.map_eq_some_iff.1 he
      rw [SizeExpr.amount_rename]
      exact (hembed.productAmount_le htrusted.formed.toRegular h.formed.toRegular hsort'
        hclosed).trans
        (htrusted.own_bounded hsource.holds hsource.own he' source (.refl source) _)

end Table

end ManySorted
