import ManySorted.Proofs.Renaming

/-!
# Simplifying from front to back

A sum or product can be simplified in one pass.  What is left to do stands in a queue: the parts of
a sum that is met among the addends go to the front of it, and counts are folded as they come.  The
pass may end early.  For a sum it ends at infinity or when the count is too great; for a product it
ends at a zero, while infinity and too great a count are only noted, since a zero may follow.

Both passes come to what is got by taking all parts to pieces first (`sumInPass_eq_add`,
`productInPass_eq_multiply`).
-/

namespace ManySorted

namespace SizeExpr

variable {parts queue terms : List SizeExpr} {total folded : Nat} {infinite : Bool}

/-! ## The two passes -/

theorem sizeOf_append_lt_sum (parts rest : List SizeExpr) :
    sizeOf (parts ++ rest) < sizeOf (sum parts :: rest) := by
  induction parts with
  | nil => simp
  | cons part parts ih =>
      simp only [List.cons_append, List.cons.sizeOf_spec, sum.sizeOf_spec] at ih ⊢
      omega

theorem sizeOf_append_lt_product (parts rest : List SizeExpr) :
    sizeOf (parts ++ rest) < sizeOf (product parts :: rest) := by
  induction parts with
  | nil => simp
  | cons part parts ih =>
      simp only [List.cons_append, List.cons.sizeOf_spec, product.sizeOf_spec] at ih ⊢
      omega

/-- Adds up a queue.  So far the counts are added up to `total`, and `terms` are the other addends.
-/
def sumInPass (total : Nat) (terms : List SizeExpr) : List SizeExpr → SizeExpr
  | [] => assemble sum 0 terms total
  | infinity :: _ => infinity
  | count n :: rest =>
      if total + n ≤ maxCount then sumInPass (total + n) terms rest else infinity
  | sum parts :: rest => sumInPass total terms (parts ++ rest)
  | card sort :: rest => sumInPass total (terms ++ [card sort]) rest
  | product parts :: rest => sumInPass total (terms ++ [product parts]) rest
termination_by queue => sizeOf queue
decreasing_by
  all_goals first | exact sizeOf_append_lt_sum _ _ | (simp only [List.cons.sizeOf_spec]; omega)

/-- Multiplies a queue.  So far the counts are multiplied to `folded`, `infinite` tells whether a
factor was infinite or the counts too great, and `terms` are the other factors. -/
def productInPass (folded : Nat) (infinite : Bool) (terms : List SizeExpr) :
    List SizeExpr → SizeExpr
  | [] => if infinite then infinity else assemble product 1 terms folded
  | count 0 :: _ => count 0
  | infinity :: rest => productInPass folded true terms rest
  | count n :: rest =>
      if folded * n ≤ maxCount then productInPass (folded * n) infinite terms rest
      else productInPass folded true terms rest
  | product parts :: rest => productInPass folded infinite terms (parts ++ rest)
  | card sort :: rest => productInPass folded infinite (terms ++ [card sort]) rest
  | sum parts :: rest => productInPass folded infinite (terms ++ [sum parts]) rest
termination_by queue => sizeOf queue
decreasing_by
  all_goals first | exact sizeOf_append_lt_product _ _ | (simp only [List.cons.sizeOf_spec]; omega)

/-! ## What the passes come to -/

theorem addendsOf_append (parts rest : List SizeExpr) :
    addendsOf (parts ++ rest) = addendsOf parts ++ addendsOf rest := by
  simp only [addendsOf_eq, List.flatMap_append]

theorem factorsOf_append (parts rest : List SizeExpr) :
    factorsOf (parts ++ rest) = factorsOf parts ++ factorsOf rest := by
  simp only [factorsOf_eq, List.flatMap_append]

/-- What is no sum is one addend. -/
theorem addendsOf_cons_self {e : SizeExpr} (h : addends e = [e]) (rest : List SizeExpr) :
    addendsOf (e :: rest) = e :: addendsOf rest := by
  rw [addendsOf, h, List.singleton_append]

/-- What is no product is one factor. -/
theorem factorsOf_cons_self {e : SizeExpr} (h : factors e = [e]) (rest : List SizeExpr) :
    factorsOf (e :: rest) = e :: factorsOf rest := by
  rw [factorsOf, h, List.singleton_append]

/-- What a sum comes to when the addends `flat` are left. -/
def sumFrom (total : Nat) (terms flat : List SizeExpr) : SizeExpr :=
  if flat.any isInfinite ∨ maxCount < total + countSum flat then infinity
  else assemble sum 0 (terms ++ uncounted flat) (total + countSum flat)

theorem sumFrom_nil (htotal : total ≤ maxCount) :
    sumFrom total terms [] = assemble sum 0 terms total := by
  rw [sumFrom, if_neg (by simpa [countSum] using htotal)]
  exact congrArg (assemble sum 0 · total) (List.append_nil terms)

theorem sumFrom_count (n : Nat) (flat : List SizeExpr) :
    sumFrom total terms (count n :: flat) =
      if total + n ≤ maxCount then sumFrom (total + n) terms flat else infinity := by
  have hfolded : total + countSum (count n :: flat) = total + n + countSum flat := by
    rw [countSum_count, Nat.add_assoc]
  unfold sumFrom
  rw [hfolded]
  by_cases hfits : total + n ≤ maxCount
  · rw [if_pos hfits]
    rfl
  · rw [if_neg hfits, if_pos (.inr (by omega))]

/-- An addend that is neither infinite nor a count is put to the others. -/
theorem sumFrom_term {e : SizeExpr} (hcount : e.count? = none) (hfinite : e.isInfinite = false)
    (flat : List SizeExpr) :
    sumFrom total terms (e :: flat) = sumFrom total (terms ++ [e]) flat := by
  unfold sumFrom
  rw [countSum_cons hcount, uncounted_cons hcount, List.any_cons, hfinite, Bool.false_or,
    List.append_assoc, List.singleton_append]

theorem sumInPass_eq_sumFrom (htotal : total ≤ maxCount) :
    sumInPass total terms queue = sumFrom total terms (addendsOf queue) := by
  fun_induction sumInPass total terms queue with
  | case1 total terms => rw [addendsOf, sumFrom_nil htotal]
  | case2 total terms rest =>
      rw [addendsOf_cons_self rfl, sumFrom, if_pos (.inl rfl)]
  | case3 total terms n rest hfits ih =>
      rw [ih hfits, addendsOf_cons_self rfl, sumFrom_count, if_pos hfits]
  | case4 total terms n rest hgreat =>
      rw [addendsOf_cons_self rfl, sumFrom_count, if_neg hgreat]
  | case5 total terms parts rest ih => rw [ih htotal, addendsOf_append, addendsOf, addends]
  | case6 total terms sort rest ih =>
      rw [ih htotal, addendsOf_cons_self rfl, sumFrom_term rfl rfl]
  | case7 total terms parts rest ih =>
      rw [ih htotal, addendsOf_cons_self rfl, sumFrom_term rfl rfl]

/-- What a product comes to when the factors `flat` are left. -/
def productFrom (folded : Nat) (infinite : Bool) (terms flat : List SizeExpr) : SizeExpr :=
  if 0 ∈ flat.filterMap count? then count 0
  else if infinite ∨ flat.any isInfinite ∨ maxCount < folded * countProduct flat then infinity
  else assemble product 1 (terms ++ uncounted flat) (folded * countProduct flat)

theorem productFrom_nil (hfits : folded ≤ maxCount) :
    productFrom folded infinite terms [] =
      if infinite then infinity else assemble product 1 terms folded := by
  cases infinite with
  | true => simp [productFrom]
  | false => simp [productFrom, countProduct, uncounted, Nat.not_lt.2 hfits]

theorem productFrom_zero (flat : List SizeExpr) :
    productFrom folded infinite terms (count 0 :: flat) = count 0 := if_pos List.mem_cons_self

theorem productFrom_infinity (flat : List SizeExpr) :
    productFrom folded infinite terms (infinity :: flat) = productFrom folded true terms flat := by
  simp [productFrom, count?, isInfinite]

/-- A count that is not zero is folded.  If it makes the product too great, the product stays so,
as no zero follows. -/
theorem productFrom_count {n : Nat} (hn : n ≠ 0) (flat : List SizeExpr) :
    productFrom folded infinite terms (count n :: flat) =
      if folded * n ≤ maxCount then productFrom (folded * n) infinite terms flat
      else productFrom folded true terms flat := by
  have hzero : 0 ∈ (count n :: flat).filterMap count? ↔ 0 ∈ flat.filterMap count? :=
    List.mem_cons.trans (or_iff_right (Ne.symm hn))
  have hproduct : folded * countProduct (count n :: flat) = folded * n * countProduct flat := by
    rw [countProduct_count, Nat.mul_assoc]
  unfold productFrom
  simp only [hzero, hproduct]
  -- a zero that follows decides whatever was folded
  by_cases hlater : 0 ∈ flat.filterMap count?
  · simp only [if_pos hlater, ite_self]
  simp only [if_neg hlater]
  by_cases hfits : folded * n ≤ maxCount
  · rw [if_pos hfits]
    rfl
  · have hgreat : maxCount < folded * n * countProduct flat :=
      Nat.lt_of_lt_of_le (Nat.lt_of_not_le hfits)
        (Nat.le_mul_of_pos_right _ (Nat.pos_of_ne_zero (foldl_mul_ne_zero Nat.one_ne_zero hlater)))
    rw [if_neg hfits, if_pos (.inr (.inr hgreat)), if_pos (.inl trivial)]

theorem productFrom_term {e : SizeExpr} (hcount : e.count? = none) (hfinite : e.isInfinite = false)
    (flat : List SizeExpr) :
    productFrom folded infinite terms (e :: flat) =
      productFrom folded infinite (terms ++ [e]) flat := by
  have hcounts : (e :: flat).filterMap count? = flat.filterMap count? :=
    List.filterMap_cons_none hcount
  unfold productFrom
  rw [hcounts, countProduct_cons hcount, uncounted_cons hcount, List.any_cons, hfinite,
    Bool.false_or, List.append_assoc, List.singleton_append]

theorem productInPass_eq_productFrom (hfolded : folded ≠ 0) (hfits : folded ≤ maxCount) :
    productInPass folded infinite terms queue =
      productFrom folded infinite terms (factorsOf queue) := by
  fun_induction productInPass folded infinite terms queue with
  | case1 folded terms => rw [factorsOf, productFrom_nil hfits, if_pos rfl]
  | case2 folded infinite terms hfinite =>
      rw [factorsOf, productFrom_nil hfits, if_neg hfinite]
  | case3 folded infinite terms rest => rw [factorsOf_cons_self rfl, productFrom_zero]
  | case4 folded infinite terms rest ih =>
      rw [ih hfolded hfits, factorsOf_cons_self rfl, productFrom_infinity]
  | case5 folded infinite terms n rest hn hless ih =>
      rw [ih (Nat.mul_ne_zero hfolded hn) hless, factorsOf_cons_self rfl, productFrom_count hn,
        if_pos hless]
  | case6 folded infinite terms n rest hn hgreat ih =>
      rw [ih hfolded hfits, factorsOf_cons_self rfl, productFrom_count hn, if_neg hgreat]
  | case7 folded infinite terms parts rest ih =>
      rw [ih hfolded hfits, factorsOf_append, factorsOf, factors]
  | case8 folded infinite terms sort rest ih =>
      rw [ih hfolded hfits, factorsOf_cons_self rfl, productFrom_term rfl rfl]
  | case9 folded infinite terms parts rest ih =>
      rw [ih hfolded hfits, factorsOf_cons_self rfl, productFrom_term rfl rfl]

/-- Adding up in one pass is adding up the parts that are taken to pieces first. -/
theorem sumInPass_eq_add (parts : List SizeExpr) : sumInPass 0 [] parts = add parts := by
  rw [sumInPass_eq_sumFrom (Nat.zero_le _), sumFrom, Nat.zero_add, List.nil_append, add]
  simp only [Bool.or_eq_true, decide_eq_true_eq]

/-- Multiplying in one pass is multiplying the parts that are taken to pieces first. -/
theorem productInPass_eq_multiply (parts : List SizeExpr) :
    productInPass 1 false [] parts = multiply parts := by
  rw [productInPass_eq_productFrom Nat.one_ne_zero (by decide), productFrom, Nat.one_mul,
    List.nil_append, multiply]
  simp only [List.contains_iff_mem, Bool.or_eq_true, decide_eq_true_eq, Bool.false_eq_true,
    false_or]

end SizeExpr

end ManySorted
