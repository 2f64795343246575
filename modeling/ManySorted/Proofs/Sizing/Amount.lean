import ManySorted.Proofs.Renaming
import ManySorted.Proofs.Table.Closed
import ManySorted.Sizing.Basic
import Mathlib.Algebra.BigOperators.Ring.Finset
import Mathlib.Algebra.BigOperators.Ring.List
import Mathlib.Algebra.Order.BigOperators.Group.List
import Mathlib.Data.ENat.Basic

/-!
# What a size amounts to, and what it has to bound

Given the number of facts of every sort, a size amounts to a number or to infinity.  The size of a
sort has to bound the product over the positions that count (`Table.Bounds`).  It does so in every
later table, since sizes stay.

## Strategy

* **Amounts.**  Simplifying sums and products may give up and say infinity, but never makes them
  smaller (`SizeExpr.sum_le_amount_add`, `SizeExpr.prod_le_amount_multiply`), and a size that can be
  evaluated amounts to its value (`SizeExpr.amount_of_evaluate`).
* **Positions.**  A position takes the values that are no data, and for each of its sorts as many
  values as the size of that sort amounts to, or as there are facts if the size is infinite and the
  position is relational (`Table.slotAmount`).
* **Sorts.**  If every position is bounded, then so is the product over the positions that count
  (`Table.bounds_sortSize`).
-/

namespace ManySorted

/-! ## Folding with a limit -/

/-- Folds numbers while all of them are known and the total can be counted. -/
def foldCounted (op : Nat → Nat → Nat) (total : Nat) : List (Option Nat) → Option Nat
  | [] => some total
  | none :: _ => none
  | some n :: rest => if op total n ≤ maxCount then foldCounted op (op total n) rest else none

/-- A result comes of numbers that are all known. -/
theorem exists_of_foldCounted {op : Nat → Nat → Nat} {total n : Nat} {numbers : List (Option Nat)}
    (h : foldCounted op total numbers = some n) :
    ∃ values : List Nat, numbers = values.map some ∧ values.foldl op total = n := by
  fun_induction foldCounted op total numbers with
  | case1 total => exact ⟨[], rfl, Option.some.inj h⟩
  | case2 => cases h
  | case3 total m rest hfits ih =>
      obtain ⟨values, rfl, hvalues⟩ := ih h
      exact ⟨m :: values, rfl, hvalues⟩
  | case4 => cases h

namespace SizeExpr

variable {facts : SymbolId → ℕ∞}

mutual

/-- What a size amounts to, for the given numbers of facts. -/
def amount (facts : SymbolId → ℕ∞) : SizeExpr → ℕ∞
  | infinity => ⊤
  | count n => n
  | card sort => facts sort
  | sum parts => amountSum facts parts
  | product parts => amountProduct facts parts

/-- What the parts of a sum amount to. -/
def amountSum (facts : SymbolId → ℕ∞) : List SizeExpr → ℕ∞
  | [] => 0
  | part :: rest => amount facts part + amountSum facts rest

/-- What the parts of a product amount to. -/
def amountProduct (facts : SymbolId → ℕ∞) : List SizeExpr → ℕ∞
  | [] => 1
  | part :: rest => amount facts part * amountProduct facts rest

end

theorem amountSum_eq (parts : List SizeExpr) :
    amountSum facts parts = (parts.map (amount facts)).sum := by
  induction parts with
  | nil => rfl
  | cons part rest ih => rw [amountSum, ih, List.map_cons, List.sum_cons]

theorem amountProduct_eq (parts : List SizeExpr) :
    amountProduct facts parts = (parts.map (amount facts)).prod := by
  induction parts with
  | nil => rfl
  | cons part rest ih => rw [amountProduct, ih, List.map_cons, List.prod_cons]

theorem amount_rename (f : SymbolId → SymbolId) (e : SizeExpr) :
    amount facts (rename f e) = amount (fun s => facts (f s)) e := by
  induction e with
  | infinity => rfl
  | count n => rfl
  | card sort => rfl
  | sum parts ih =>
      rw [rename, amount, amount, amountSum_eq, amountSum_eq, renameAll_eq, List.map_map]
      exact congrArg List.sum (List.map_congr_left ih)
  | product parts ih =>
      rw [rename, amount, amount, amountProduct_eq, amountProduct_eq, renameAll_eq, List.map_map]
      exact congrArg List.prod (List.map_congr_left ih)

/-! ## Taking sums and products apart -/

theorem sum_addends (e : SizeExpr) : ((addends e).map (amount facts)).sum = amount facts e := by
  induction e with
  | sum parts ih =>
      rw [addends, addendsOf_eq, amount, amountSum_eq, List.map_flatMap, List.flatMap_def,
        List.sum_flatten, List.map_map]
      exact congrArg List.sum (List.map_congr_left ih)
  | _ => simp [addends]

theorem prod_factors (e : SizeExpr) : ((factors e).map (amount facts)).prod = amount facts e := by
  induction e with
  | product parts ih =>
      rw [factors, factorsOf_eq, amount, amountProduct_eq, List.map_flatMap, List.flatMap_def,
        List.prod_flatten, List.map_map]
      exact congrArg List.prod (List.map_congr_left ih)
  | _ => simp [factors]

theorem sum_addendsOf (parts : List SizeExpr) :
    ((addendsOf parts).map (amount facts)).sum = (parts.map (amount facts)).sum := by
  rw [addendsOf_eq, List.map_flatMap, List.flatMap_def, List.sum_flatten, List.map_map]
  exact congrArg List.sum (List.map_congr_left fun part _ => sum_addends part)

theorem prod_factorsOf (parts : List SizeExpr) :
    ((factorsOf parts).map (amount facts)).prod = (parts.map (amount facts)).prod := by
  rw [factorsOf_eq, List.map_flatMap, List.flatMap_def, List.prod_flatten, List.map_map]
  exact congrArg List.prod (List.map_congr_left fun part _ => prod_factors part)

theorem eq_count_of_count? {e : SizeExpr} {n : Nat} (h : e.count? = some n) : e = count n := by
  cases e <;> simp_all [count?]

/-- The counts of a sum can be added up apart from the rest. -/
theorem sum_split (flat : List SizeExpr) :
    (flat.map (amount facts)).sum =
      ((uncounted flat).map (amount facts)).sum + (countSum flat : ℕ∞) := by
  induction flat with
  | nil => simp [countSum]
  | cons e rest ih =>
      rw [List.map_cons, List.sum_cons, ih]
      cases h : e.count? with
      | none => rw [uncounted_cons h, countSum_cons h, List.map_cons, List.sum_cons, add_assoc]
      | some n =>
          obtain rfl := eq_count_of_count? h
          rw [countSum_count, Nat.cast_add, add_left_comm]
          rfl

theorem prod_split (flat : List SizeExpr) :
    (flat.map (amount facts)).prod =
      ((uncounted flat).map (amount facts)).prod * (countProduct flat : ℕ∞) := by
  induction flat with
  | nil => simp [countProduct]
  | cons e rest ih =>
      rw [List.map_cons, List.prod_cons, ih]
      cases h : e.count? with
      | none => rw [uncounted_cons h, countProduct_cons h, List.map_cons, List.prod_cons, mul_assoc]
      | some n =>
          obtain rfl := eq_count_of_count? h
          rw [countProduct_count, Nat.cast_mul, mul_left_comm]
          rfl

/-! ## Simplifying -/

theorem amount_assemble_sum (terms : List SizeExpr) (folded : Nat) :
    amount facts (assemble sum 0 terms folded) = (terms.map (amount facts)).sum + folded := by
  have hparts : ((assembled 0 terms folded).map (amount facts)).sum =
      (terms.map (amount facts)).sum + folded := by
    unfold assembled
    split
    · simp [amount]
    · next h =>
        obtain ⟨hzero, _⟩ := not_or.1 h
        simp [not_not.1 hzero]
  rw [← hparts, assemble_eq]
  match assembled 0 terms folded with
  | [] => simp [amount, amountSum]
  | [term] => simp
  | first :: second :: rest => rw [amount, amountSum_eq]

theorem amount_assemble_product (terms : List SizeExpr) (folded : Nat) :
    amount facts (assemble product 1 terms folded) = (terms.map (amount facts)).prod * folded := by
  have hparts : ((assembled 1 terms folded).map (amount facts)).prod =
      (terms.map (amount facts)).prod * folded := by
    unfold assembled
    split
    · simp [amount]
    · next h =>
        obtain ⟨hone, _⟩ := not_or.1 h
        simp [not_not.1 hone]
  rw [← hparts, assemble_eq]
  match assembled 1 terms folded with
  | [] => simp [amount, amountProduct]
  | [term] => simp
  | first :: second :: rest => rw [amount, amountProduct_eq]

/-- A simplified sum is no smaller than its parts together. -/
theorem sum_le_amount_add (parts : List SizeExpr) :
    (parts.map (amount facts)).sum ≤ amount facts (add parts) := by
  rcases add_cases parts with hinfinite | ⟨_, _, hadd⟩
  · rw [hinfinite]
    exact le_top
  · rw [hadd, amount_assemble_sum, ← sum_split, sum_addendsOf]

/-- A simplified product is no smaller than its parts multiplied. -/
theorem prod_le_amount_multiply (parts : List SizeExpr) :
    (parts.map (amount facts)).prod ≤ amount facts (multiply parts) := by
  rcases multiply_cases parts with ⟨hzero, hmultiply⟩ | hinfinite | ⟨_, _, _, hmultiply⟩
  · rw [hmultiply, ← prod_factorsOf]
    refine le_of_eq_of_le (List.prod_eq_zero ?_) (zero_le)
    exact List.mem_map.2 ⟨count 0, hzero, by simp [amount]⟩
  · rw [hinfinite]
    exact le_top
  · rw [hmultiply, amount_assemble_product, ← prod_split, prod_factorsOf]

/-! ## Evaluating -/

section

variable {known : SymbolId → Option Nat} {parts : List SizeExpr} {total n : Nat}

theorem evaluateSum_eq_foldCounted :
    evaluateSum known total parts = foldCounted (· + ·) total (parts.map (evaluate known)) := by
  induction parts generalizing total with
  | nil => rfl
  | cons part rest ih =>
      rw [evaluateSum, List.map_cons]
      cases part.evaluate known with
      | none => rfl
      | some n => simp only [ih, foldCounted]

theorem evaluateProduct_eq_foldCounted :
    evaluateProduct known total parts = foldCounted (· * ·) total (parts.map (evaluate known)) := by
  induction parts generalizing total with
  | nil => rfl
  | cons part rest ih =>
      rw [evaluateProduct, List.map_cons]
      cases part.evaluate known with
      | none => rfl
      | some n => simp only [ih, foldCounted]

/-- Parts that have values amount to these. -/
theorem map_amount_of_map_evaluate {values : List Nat}
    (hparts : ∀ part ∈ parts, ∀ n, part.evaluate known = some n → amount facts part = n)
    (h : parts.map (evaluate known) = values.map some) :
    parts.map (amount facts) = values.map Nat.cast := by
  induction parts generalizing values with
  | nil =>
      obtain rfl : values = [] := by simpa using h.symm
      rfl
  | cons part rest ih =>
      cases values with
      | nil => cases h
      | cons n values =>
          rw [List.map_cons, List.map_cons, List.cons.injEq] at h
          rw [List.map_cons, List.map_cons, hparts part List.mem_cons_self n h.1,
            ih (fun part hpart => hparts part (List.mem_cons_of_mem _ hpart)) h.2]

/-- A size that can be evaluated amounts to its value. -/
theorem amount_of_evaluate (hknown : ∀ s n, known s = some n → facts s = n) {e : SizeExpr}
    (h : e.evaluate known = some n) : amount facts e = n := by
  induction e generalizing n with
  | infinity => cases h
  | count m =>
      obtain rfl : m = n := Option.some.inj h
      rfl
  | card sort => exact hknown sort n h
  | sum parts ih =>
      rw [evaluate, evaluateSum_eq_foldCounted] at h
      obtain ⟨values, hvalues, rfl⟩ := exists_of_foldCounted h
      rw [amount, amountSum_eq,
        map_amount_of_map_evaluate (fun part hpart _ => ih part hpart) hvalues,
        ← Nat.cast_list_sum]
      exact congrArg _ List.sum_eq_foldl
  | product parts ih =>
      rw [evaluate, evaluateProduct_eq_foldCounted] at h
      obtain ⟨values, hvalues, rfl⟩ := exists_of_foldCounted h
      rw [amount, amountProduct_eq,
        map_amount_of_map_evaluate (fun part hpart _ => ih part hpart) hvalues,
        ← Nat.cast_list_prod]
      exact congrArg _ List.prod_eq_foldl

end

/-! ## Sizes that are not zero -/

/-- Whether a size is not zero if no sort lacks facts. -/
def Positive (e : SizeExpr) : Prop := 1 ≤ amount (fun _ => ⊤) e

variable {e : SizeExpr} {parts : List SizeExpr} {n : Nat}

theorem positive_infinity : infinity.Positive := le_top

theorem positive_card (s : SymbolId) : (card s).Positive := le_top

theorem positive_count : (count n).Positive ↔ 1 ≤ n := by
  rw [Positive, amount]
  exact Nat.one_le_cast

theorem positive_add (he : e ∈ parts) (h : e.Positive) : (add parts).Positive := by
  have hle : amount (fun _ => ⊤) e ≤ (parts.map (amount fun _ => ⊤)).sum :=
    List.single_le_sum (fun _ _ => zero_le) _ (List.mem_map_of_mem he)
  exact h.trans (hle.trans (sum_le_amount_add parts))

theorem positive_multiply (h : ∀ e ∈ parts, e.Positive) : (multiply parts).Positive := by
  refine le_trans (List.one_le_prod_of_one_le fun x hx => ?_) (prod_le_amount_multiply parts)
  obtain ⟨e, he, rfl⟩ := List.mem_map.1 hx
  exact h e he

/-- Renaming sorts makes no size smaller: a sort that is lost counts as unbounded. -/
theorem amount_le_mapIds (f : SymbolId → Option SymbolId) (e : SizeExpr) :
    amount (fun _ => ⊤) e ≤ amount (fun _ => ⊤) (mapIds f e) := by
  induction e with
  | infinity => exact le_rfl
  | count n => exact le_rfl
  | card s =>
      rw [mapIds]
      split <;> exact le_rfl
  | sum parts ih =>
      rw [mapIds, mapIdsOf_eq, amount, amountSum_eq]
      refine le_trans ?_ (sum_le_amount_add _)
      rw [List.map_map]
      exact List.sum_le_sum ih
  | product parts ih =>
      rw [mapIds, mapIdsOf_eq, amount, amountProduct_eq]
      refine le_trans ?_ (prod_le_amount_multiply _)
      rw [List.map_map]
      exact List.prod_le_prod' ih

theorem Positive.mapIds (h : e.Positive) (f : SymbolId → Option SymbolId) :
    (e.mapIds f).Positive := h.trans (amount_le_mapIds f e)

theorem amount_of_closed {facts : SymbolId → ℕ∞} (h : e.closed = some n) : amount facts e = n :=
  amount_of_evaluate (fun _ _ hnone => by cases hnone) h

theorem Positive.one_le (h : e.Positive) (hn : e.closed = some n) : 1 ≤ n := by
  rw [Positive, amount_of_closed hn] at h
  exact Nat.one_le_cast.1 h

/-- No factor of a product that can be evaluated is infinite, if none is zero. -/
theorem isInfinite_eq_false_of_closed (h : ∀ e ∈ parts, e.Positive)
    (hn : (multiply parts).closed = some n) (he : e ∈ parts) : e.isInfinite = false := by
  have hpositive : ∀ x ∈ parts.map (amount fun _ => ⊤), 1 ≤ x := by
    intro x hx
    obtain ⟨e', he', rfl⟩ := List.mem_map.1 hx
    exact h e' he'
  have hmem : amount (fun _ => ⊤) e ∈ parts.map (amount fun _ => ⊤) := List.mem_map_of_mem he
  have hle : amount (fun _ => ⊤) e ≤ n := by
    have hamount : amount (fun _ => ⊤) (multiply parts) = n := amount_of_closed hn
    rw [← hamount]
    refine le_trans ?_ (prod_le_amount_multiply parts)
    rw [← List.prod_erase hmem]
    exact le_mul_of_one_le_right' (List.one_le_prod_of_one_le fun x hx =>
      hpositive x (List.mem_of_mem_erase hx))
  cases e with
  | infinity => exact absurd (top_le_iff.1 hle) (ENat.natCast_ne_top n)
  | _ => rfl

end SizeExpr

/-- The number of accepted values that are no data. -/
def AcceptedValues.groundAmount (v : AcceptedValues) : ℕ∞ :=
  match v.groundCount with
  | some n => n
  | none => ⊤

namespace Table

variable {t t' : Table} {s : SymbolId} {e : SizeExpr} {facts : SymbolId → ℕ∞}

/-- Whether a position of a sort is marked `any`. -/
def isAnyAt (t : Table) (s : SymbolId) (position : Nat) : Bool :=
  (t.dataOf? s).any fun data => (t.kindOf data).isAny position

/-- The number of values that a sort contributes to a position. -/
def sortAmount (facts : SymbolId → ℕ∞) (t : Table) (any : Bool) (s : SymbolId) : ℕ∞ :=
  if ((t.symbolAt s).size?.getD .infinity).isInfinite && !any then facts s
  else ((t.symbolAt s).size?.getD .infinity).amount facts

/-- The number of values that a position takes. -/
def slotAmount (facts : SymbolId → ℕ∞) (t : Table) (s : SymbolId) (position : Nat) : ℕ∞ :=
  match (t.symbolAt s).accepted? position with
  | none => 0
  | some v => v.groundAmount
      + (v.sorts.toList.map (t.sortAmount facts (t.isAnyAt s position))).sum

/-- The number of ways to fill the positions that count. -/
def productAmount (facts : SymbolId → ℕ∞) (t : Table) (s : SymbolId) : ℕ∞ :=
  match t.dataOf? s with
  | none => 0
  | some data => ((List.range (countedArity (t.symbolAt data))).map (t.slotAmount facts s)).prod

/-- The size bounds the ways to fill the positions, now and in every later table. -/
def Bounds (t : Table) (s : SymbolId) (e : SizeExpr) : Prop :=
  ∀ t', t.Later t' → ∀ facts, t'.productAmount facts s ≤ e.amount facts

theorem Bounds.later (h : t.Bounds s e) (hlater : t.Later t') : t'.Bounds s e :=
  fun t'' hlater' => h t'' (hlater.trans hlater')

/-- The size bounds the values of a position, now and in every later table. -/
def SlotBounds (t : Table) (s : SymbolId) (position : Nat) (e : SizeExpr) : Prop :=
  ∀ t', t.Later t' → ∀ facts, t'.slotAmount facts s position ≤ e.amount facts

theorem SlotBounds.later {position : Nat} (h : t.SlotBounds s position e) (hlater : t.Later t') :
    t'.SlotBounds s position e := fun t'' hlater' => h t'' (hlater.trans hlater')

theorem bounds_infinity (t : Table) (s : SymbolId) : t.Bounds s .infinity :=
  fun _ _ _ => le_top

theorem slotBounds_infinity (t : Table) (s : SymbolId) (position : Nat) :
    t.SlotBounds s position .infinity := fun _ _ _ => le_top

/-! ## The sizes that are computed -/

/-- What is known about a sort that a position accepts when the position is sized: the sort is
settled, or its size is written. -/
def Fixed (t : Table) (s : SymbolId) : Prop :=
  t.Holds s ∧ ((t.symbolAt s).isSettled = true ∨ (t.symbolAt s).size?.isSome = true)

/-- The size of a fixed sort stays. -/
theorem Fixed.size?_eq (h : t.Fixed s) (hlater : t.Later t') :
    (t'.symbolAt s).size? = (t.symbolAt s).size? := by
  obtain ⟨hs, hsettled | hsize⟩ := h
  · rw [(hlater.symbol hs).settled hsettled]
  · obtain ⟨e, he⟩ := Option.isSome_iff_exists.1 hsize
    rw [he, (hlater.symbol hs).size he]

/-- The product of the positions bounds the ways to fill them. -/
theorem bounds_sortSize {sizes : Sizes} {d : SymbolId} (hs : t.dataOf? s = some d)
    (hd : ∃ shape info, t.kindOf d = .data shape info)
    (hslots : ∀ position e, sizes.find? (.slot s position) = some e → t.SlotBounds s position e) :
    t.Bounds s (t.sortSize sizes s) := by
  intro t' hlater facts
  obtain ⟨shape, info, hd⟩ := hd
  have hkind : (t'.symbolAt d).kind = (t.symbolAt d).kind :=
    (hlater.kindOf_data hd).trans (Eq.symm hd)
  have hcounted : countedArity (t'.symbolAt d) = countedArity (t.symbolAt d) := by
    rw [countedArity, countedArity, hkind, hlater.arity_symbolAt (holds_of_data hd)]
  rw [productAmount, hlater.dataOf? hs, sortSize, hs]
  dsimp only
  rw [hcounted, Sizes.product]
  refine le_trans ?_ (SizeExpr.prod_le_amount_multiply _)
  rw [List.map_map]
  refine List.prod_le_prod' fun position _ => ?_
  change t'.slotAmount facts s position ≤ (sizes.slot s position).amount facts
  unfold Sizes.slot
  cases hfind : sizes.find? (.slot s position) with
  | none => exact le_top
  | some e => exact hslots position e hfind t' hlater facts

end Table

end ManySorted
