import ManySorted.Proofs.Sizing.Simplifying
import ManySorted.Proofs.Sizing.Shuffling

/-!
# When a size has a value

Where all numbers of facts are known, a size should have a value unless what it amounts to is too
great.  Of a sum this is true: its addends only make it greater, so a total that is too great on the
way is too great in the end.  A product may be too great on the way and zero in the end.  Then it
has no value (`Overshoots`), and it depends on the order of its factors whether this happens.

Nothing else keeps a size from having its value (`valueAt_eq_none_iff`).  No product that was
simplified is zero if every sort that it depends on has facts (`Reduced.worth_ne_zero`), and where
nothing overshoots the order of addends and factors does not matter (`Reordered.valueAt_eq`).

## Strategy

* **Folding.**  A fold with a limit has no result if and only if a number is not known or some first
  numbers come to too much (`foldCounted_eq_none_iff`).
* **Without a value.**  A size without a value amounts to too much or overshoots
  (`SizeExpr.great_or_overshoots`), by induction on the size; and what is too great, or overshoots,
  has no value (`SizeExpr.Fits.valueAt_eq_none`, `SizeExpr.Overshoots.valueAt_eq_none`).
* **Zero.**  A simplified product has no zero among its counts, so it overshoots only if one of its
  sorts has no facts (`SizeExpr.Reduced.not_overshoots`).
* **Order.**  What a size amounts to does not depend on the order of its parts, so neither does its
  value where nothing overshoots (`SizeExpr.Reordered.valueAt_eq`).
-/

namespace ManySorted

/-! ## Folding with a limit -/

section

variable {op : Nat → Nat → Nat} {values : List (Option Nat)} {total n : Nat}

theorem le_of_foldCounted (htotal : total ≤ maxCount) (h : foldCounted op total values = some n) :
    n ≤ maxCount := by
  fun_induction foldCounted op total values with
  | case1 total =>
      cases h
      exact htotal
  | case2 => cases h
  | case3 total m rest hfits ih => exact ih hfits h
  | case4 => cases h

/-- There is no result just if a number is not known or some first numbers come to too much. -/
theorem foldCounted_eq_none_iff (htotal : total ≤ maxCount) :
    foldCounted op total values = none ↔
      none ∈ values ∨ ∃ front : List Nat, front.map some <+: values ∧
        maxCount < front.foldl op total := by
  fun_induction foldCounted op total values with
  | case1 total =>
      refine iff_of_false (by simp) ?_
      rintro (hmem | ⟨front, hfront, hgreat⟩)
      · cases hmem
      · rw [List.prefix_nil, List.map_eq_nil_iff] at hfront
        rw [hfront] at hgreat
        exact Nat.not_lt.2 htotal hgreat
  | case2 total rest => exact iff_of_true rfl (.inl List.mem_cons_self)
  | case3 total m rest hfits ih =>
      rw [ih hfits, List.mem_cons, or_iff_right (by simp : none ≠ some m)]
      refine or_congr_right ⟨?_, ?_⟩
      · rintro ⟨front, hfront, hgreat⟩
        exact ⟨m :: front, List.cons_prefix_cons.2 ⟨rfl, hfront⟩, hgreat⟩
      · rintro ⟨front, hfront, hgreat⟩
        cases front with
        | nil => exact absurd hgreat (Nat.not_lt.2 htotal)
        | cons first front =>
            obtain ⟨hfirst, hrest⟩ := List.cons_prefix_cons.1 hfront
            cases hfirst
            exact ⟨front, hrest, hgreat⟩
  | case4 total m rest hgreat =>
      refine iff_of_true rfl (.inr ⟨[m], ?_, Nat.lt_of_not_le hgreat⟩)
      exact List.cons_prefix_cons.2 ⟨rfl, List.nil_prefix⟩

end

namespace SizeExpr

variable {facts : SymbolId → Nat} {e e' part : SizeExpr} {parts parts' before after : List SizeExpr}
  {n : Nat}

/-! ## What parts with values amount to -/

/-- What a size amounts to where all numbers of facts are known. -/
abbrev worth (facts : SymbolId → Nat) (e : SizeExpr) : ℕ∞ := amount (fun s => facts s) e

/-- The value of a size where all numbers of facts are known. -/
abbrev valueAt (facts : SymbolId → Nat) (e : SizeExpr) : Option Nat :=
  e.evaluate fun s => some (facts s)

theorem worth_of_valueAt (h : e.valueAt facts = some n) : e.worth facts = n :=
  amount_of_evaluate (fun _ _ hs => congrArg _ (Option.some.inj hs)) h

theorem worth_sum : worth facts (sum parts) = (parts.map (worth facts)).sum :=
  amountSum_eq parts

theorem worth_product : worth facts (product parts) = (parts.map (worth facts)).prod :=
  amountProduct_eq parts

/-- The first values belong to the first parts. -/
theorem exists_front {values : List Nat} (h : values.map some <+: parts.map (valueAt facts)) :
    ∃ before after, parts = before ++ after ∧
      before.map (worth facts) = values.map Nat.cast := by
  obtain ⟨rest, hrest⟩ := h
  obtain ⟨before, after, rfl, hbefore, -⟩ := List.map_eq_append_iff.1 hrest.symm
  exact ⟨before, after, rfl, map_amount_of_map_evaluate (fun _ _ _ => worth_of_valueAt) hbefore⟩

theorem valueAt_sum_eq_none_iff :
    (sum parts).valueAt facts = none ↔ (∃ part ∈ parts, part.valueAt facts = none) ∨
      ∃ values : List Nat, values.map some <+: parts.map (valueAt facts) ∧
        maxCount < values.sum := by
  have hfold : ∀ values : List Nat, values.foldl (· + ·) 0 = values.sum := fun values =>
    List.sum_eq_foldl.symm
  rw [valueAt, evaluate, evaluateSum_eq_foldCounted, foldCounted_eq_none_iff (Nat.zero_le _),
    List.mem_map]
  simp only [hfold]

theorem valueAt_product_eq_none_iff :
    (product parts).valueAt facts = none ↔ (∃ part ∈ parts, part.valueAt facts = none) ∨
      ∃ values : List Nat, values.map some <+: parts.map (valueAt facts) ∧
        maxCount < values.prod := by
  have hfold : ∀ values : List Nat, values.foldl (· * ·) 1 = values.prod := fun values =>
    List.prod_eq_foldl.symm
  rw [valueAt, evaluate, evaluateProduct_eq_foldCounted, foldCounted_eq_none_iff (by decide),
    List.mem_map]
  simp only [hfold]

/-! ## Sizes without a value -/

/-- A product in the size is zero, but one of its factors or the product of its first factors is too
great. -/
inductive Overshoots (facts : SymbolId → Nat) : SizeExpr → Prop
  | addend {parts : List SizeExpr} {part : SizeExpr} (mem : part ∈ parts)
      (overshoots : Overshoots facts part) : Overshoots facts (sum parts)
  | factor {parts : List SizeExpr} {part : SizeExpr} (mem : part ∈ parts)
      (overshoots : Overshoots facts part) : Overshoots facts (product parts)
  | great {parts : List SizeExpr} {part : SizeExpr} (zero : worth facts (product parts) = 0)
      (mem : part ∈ parts) (great : maxCount < worth facts part) : Overshoots facts (product parts)
  | front {before after : List SizeExpr} (zero : worth facts (product (before ++ after)) = 0)
      (great : maxCount < worth facts (product before)) :
      Overshoots facts (product (before ++ after))

/-- All counts in the size can be counted. -/
inductive Fits : SizeExpr → Prop
  | infinity : Fits infinity
  | count {n : Nat} (fits : n ≤ maxCount) : Fits (count n)
  | card (sort : SymbolId) : Fits (card sort)
  | sum {parts : List SizeExpr} (fits : ∀ part ∈ parts, Fits part) : Fits (sum parts)
  | product {parts : List SizeExpr} (fits : ∀ part ∈ parts, Fits part) : Fits (product parts)

theorem Reduced.fits (h : Reduced e) : Fits e := by
  induction h with
  | count fits => exact .count fits
  | card sort => exact .card sort
  | sum _ _ _ ih => exact .sum ih
  | product _ _ _ _ ih => exact .product ih

theorem Normal.fits (h : Normal e) : Fits e := by
  rcases h with rfl | h
  · exact .infinity
  · exact h.fits

/-- A value can be counted. -/
theorem Fits.le_maxCount (he : Fits e) (hfacts : ∀ s, facts s ≤ maxCount)
    (h : e.valueAt facts = some n) : n ≤ maxCount := by
  cases he with
  | infinity => cases h
  | count fits =>
      cases h
      exact fits
  | card sort =>
      cases h
      exact hfacts sort
  | sum _ => exact le_of_foldCounted (Nat.zero_le _) (evaluateSum_eq_foldCounted.symm.trans h)
  | product _ => exact le_of_foldCounted (by decide) (evaluateProduct_eq_foldCounted.symm.trans h)

/-- What is too great has no value. -/
theorem Fits.valueAt_eq_none (he : Fits e) (hfacts : ∀ s, facts s ≤ maxCount)
    (hgreat : maxCount < e.worth facts) : e.valueAt facts = none := by
  refine Option.eq_none_iff_forall_ne_some.2 fun n hn => ?_
  rw [worth_of_valueAt hn, Nat.cast_lt] at hgreat
  exact Nat.not_lt.2 (he.le_maxCount hfacts hn) hgreat

theorem Overshoots.valueAt_eq_none (h : Overshoots facts e) (he : Fits e)
    (hfacts : ∀ s, facts s ≤ maxCount) : e.valueAt facts = none := by
  induction h with
  | addend mem _ ih =>
      cases he with
      | sum fits => exact valueAt_sum_eq_none_iff.2 (.inl ⟨_, mem, ih (fits _ mem)⟩)
  | factor mem _ ih =>
      cases he with
      | product fits => exact valueAt_product_eq_none_iff.2 (.inl ⟨_, mem, ih (fits _ mem)⟩)
  | great _ mem great =>
      cases he with
      | product fits =>
          exact valueAt_product_eq_none_iff.2
            (.inl ⟨_, mem, (fits _ mem).valueAt_eq_none hfacts great⟩)
  | @front before after _ great =>
      cases he with
      | product fits =>
          -- the first factors have no product, and no more factors help
          have hbefore : Fits (product before) :=
            .product fun part hpart => fits part (List.mem_append_left _ hpart)
          rcases valueAt_product_eq_none_iff.1 (hbefore.valueAt_eq_none hfacts great) with
            ⟨part, hpart, hnone⟩ | ⟨values, hfront, hgreat⟩
          · exact valueAt_product_eq_none_iff.2
              (.inl ⟨part, List.mem_append_left _ hpart, hnone⟩)
          · refine valueAt_product_eq_none_iff.2 (.inr ⟨values, ?_, hgreat⟩)
            rw [List.map_append]
            exact hfront.trans (List.prefix_append _ _)

theorem le_mul_right_of_ne_zero {x y : ℕ∞} (h : x * y ≠ 0) : x ≤ x * y :=
  le_mul_of_one_le_right' (Order.one_le_iff_ne_zero.2 (right_ne_zero_of_mul h))

/-- A size without a value is too great or overshoots. -/
theorem great_or_overshoots (h : e.valueAt facts = none) :
    maxCount < e.worth facts ∨ Overshoots facts e := by
  -- on the size; a part without a value is itself too great or overshoots
  induction e with
  | infinity => exact .inl (ENat.natCast_lt_top _)
  | count n => cases h
  | card sort => cases h
  | sum parts ih =>
      rcases valueAt_sum_eq_none_iff.1 h with ⟨part, hpart, hnone⟩ | ⟨values, hfront, hgreat⟩
      · rcases ih part hpart hnone with hgreat | hovershoots
        · refine .inl (lt_of_lt_of_le hgreat ?_)
          rw [worth_sum]
          exact List.single_le_sum (fun _ _ => zero_le) _ (List.mem_map_of_mem hpart)
        · exact .inr (.addend hpart hovershoots)
      · obtain ⟨before, after, rfl, hbefore⟩ := exists_front hfront
        refine .inl (lt_of_lt_of_le (Nat.cast_lt.2 hgreat) ?_)
        rw [worth_sum, List.map_append, List.sum_append, hbefore, ← Nat.cast_list_sum]
        exact le_self_add
  | product parts ih =>
      rcases valueAt_product_eq_none_iff.1 h with ⟨part, hpart, hnone⟩ | ⟨values, hfront, hgreat⟩
      · rcases ih part hpart hnone with hgreat | hovershoots
        · by_cases hzero : worth facts (product parts) = 0
          · exact .inr (.great hzero hpart hgreat)
          -- a product that is not zero is no less than a factor
          · refine .inl (lt_of_lt_of_le hgreat ?_)
            rw [worth_product, ← List.prod_erase (List.mem_map_of_mem hpart)] at hzero ⊢
            exact le_mul_right_of_ne_zero hzero
        · exact .inr (.factor hpart hovershoots)
      · obtain ⟨before, after, rfl, hbefore⟩ := exists_front hfront
        have hgreat : maxCount < worth facts (product before) := by
          rw [worth_product, hbefore, ← Nat.cast_list_prod]
          exact Nat.cast_lt.2 hgreat
        by_cases hzero : worth facts (product (before ++ after)) = 0
        · exact .inr (.front hzero hgreat)
        -- nor less than the product of its first factors
        · refine .inl (lt_of_lt_of_le hgreat ?_)
          rw [worth_product, List.map_append, List.prod_append] at hzero
          rw [worth_product, worth_product, List.map_append, List.prod_append]
          exact le_mul_right_of_ne_zero hzero

theorem valueAt_eq_none_iff (he : Fits e) (hfacts : ∀ s, facts s ≤ maxCount) :
    e.valueAt facts = none ↔ maxCount < e.worth facts ∨ Overshoots facts e :=
  ⟨great_or_overshoots, fun h =>
    h.elim (he.valueAt_eq_none hfacts) fun hovershoots => hovershoots.valueAt_eq_none he hfacts⟩

theorem valueAt_eq_some_iff (he : Fits e) (hfacts : ∀ s, facts s ≤ maxCount) :
    e.valueAt facts = some n ↔ e.worth facts = n ∧ n ≤ maxCount ∧ ¬ Overshoots facts e := by
  constructor
  · intro h
    refine ⟨worth_of_valueAt h, he.le_maxCount hfacts h, fun hovershoots => ?_⟩
    rw [hovershoots.valueAt_eq_none he hfacts] at h
    cases h
  · rintro ⟨hworth, hn, hovershoots⟩
    cases hvalue : e.valueAt facts with
    | none =>
        have hgreat := (great_or_overshoots hvalue).resolve_right hovershoots
        rw [hworth, Nat.cast_lt] at hgreat
        exact absurd hgreat (Nat.not_lt.2 hn)
    | some m => rw [Nat.cast_injective ((worth_of_valueAt hvalue).symm.trans hworth)]

/-! ## Sizes that are not zero -/

/-- If every sort that a reduced size depends on has facts, only the count zero is zero. -/
theorem Reduced.worth_ne_zero (h : Reduced e) (hzero : e ≠ SizeExpr.count 0)
    (hfacts : ∀ s ∈ e.cards, facts s ≠ 0) : e.worth facts ≠ 0 := by
  induction h with
  | count _ => exact fun h => hzero (congrArg _ (Nat.cast_eq_zero.1 h))
  | card sort => exact fun h => hfacts sort List.mem_cons_self (Nat.cast_eq_zero.1 h)
  | @sum parts tidy _ _ ih =>
      -- the first part suffices
      obtain ⟨part, rest, rfl⟩ := List.exists_cons_of_length_pos (Nat.zero_lt_of_lt tidy.two_le)
      rw [worth_sum, List.map_cons, List.sum_cons]
      intro hsum
      refine ih part List.mem_cons_self (fun heq => ?_) (fun s hs => ?_) (add_eq_zero.1 hsum).1
      · exact tidy.identity_notMem (heq ▸ List.mem_cons_self)
      · exact hfacts s (mem_cardsOf.2 ⟨part, List.mem_cons_self, hs⟩)
  | @product parts _ zero _ _ ih =>
      rw [worth_product]
      intro hproduct
      obtain ⟨part, hpart, hworth⟩ := List.mem_map.1 (List.prod_eq_zero_iff.1 hproduct)
      exact ih part hpart (fun heq => zero (heq ▸ hpart))
        (fun s hs => hfacts s (mem_cardsOf.2 ⟨part, hpart, hs⟩)) hworth

/-- Nothing overshoots if every sort that the size depends on has facts. -/
theorem Reduced.not_overshoots (h : Reduced e) (hfacts : ∀ s ∈ e.cards, facts s ≠ 0) :
    ¬ Overshoots facts e := by
  induction h with
  | count _ => rintro ⟨⟩
  | card _ => rintro ⟨⟩
  | @sum parts _ _ _ ih =>
      intro hovershoots
      cases hovershoots with
      | addend mem hpart =>
          exact ih _ mem (fun s hs => hfacts s (mem_cardsOf.2 ⟨_, mem, hs⟩)) hpart
  | @product parts tidy zero flat reduced ih =>
      have hworth : worth facts (SizeExpr.product parts) ≠ 0 :=
        (Reduced.product tidy zero flat reduced).worth_ne_zero (by rintro ⟨⟩) hfacts
      intro hovershoots
      cases hovershoots with
      | factor mem hpart =>
          exact ih _ mem (fun s hs => hfacts s (mem_cardsOf.2 ⟨_, mem, hs⟩)) hpart
      | great hzero _ _ => exact hworth hzero
      | front hzero _ => exact hworth hzero

theorem Normal.not_overshoots (h : Normal e) (hfacts : ∀ s ∈ e.cards, facts s ≠ 0) :
    ¬ Overshoots facts e := by
  rcases h with rfl | h
  · rintro ⟨⟩
  · exact h.not_overshoots hfacts

/-! ## The order of addends and factors -/

/-- The second size is the first one with addends and factors in another order. -/
inductive Reordered : SizeExpr → SizeExpr → Prop
  | refl (e : SizeExpr) : Reordered e e
  | trans {e e' e'' : SizeExpr} (first : Reordered e e') (second : Reordered e' e'') :
      Reordered e e''
  | addends {parts parts' : List SizeExpr} (perm : parts.Perm parts') :
      Reordered (sum parts) (sum parts')
  | factors {parts parts' : List SizeExpr} (perm : parts.Perm parts') :
      Reordered (product parts) (product parts')
  | addend {before after : List SizeExpr} {e e' : SizeExpr} (part : Reordered e e') :
      Reordered (sum (before ++ e :: after)) (sum (before ++ e' :: after))
  | factor {before after : List SizeExpr} {e e' : SizeExpr} (part : Reordered e e') :
      Reordered (product (before ++ e :: after)) (product (before ++ e' :: after))

theorem Reordered.worth_eq (h : Reordered e e') : e.worth facts = e'.worth facts := by
  induction h with
  | refl e => rfl
  | trans _ _ ih ih' => exact ih.trans ih'
  | addends perm => rw [worth_sum, worth_sum, (perm.map _).sum_eq]
  | factors perm => rw [worth_product, worth_product, (perm.map _).prod_eq]
  | addend _ ih =>
      rw [worth_sum, worth_sum, List.map_append, List.map_append, List.map_cons, List.map_cons, ih]
  | factor _ ih =>
      rw [worth_product, worth_product, List.map_append, List.map_append, List.map_cons,
        List.map_cons, ih]

theorem forall_fits_replace (ih : Fits e → Fits e')
    (h : ∀ part ∈ before ++ e :: after, Fits part) : ∀ part ∈ before ++ e' :: after, Fits part := by
  simp only [List.forall_mem_append, List.forall_mem_cons] at h ⊢
  exact ⟨h.1, ih h.2.1, h.2.2⟩

theorem Reordered.fits (h : Reordered e e') (he : Fits e) : Fits e' := by
  induction h with
  | refl e => exact he
  | trans _ _ ih ih' => exact ih' (ih he)
  | addends perm =>
      cases he with
      | sum fits => exact .sum fun part hpart => fits part (perm.mem_iff.2 hpart)
  | factors perm =>
      cases he with
      | product fits => exact .product fun part hpart => fits part (perm.mem_iff.2 hpart)
  | addend _ ih =>
      cases he with
      | sum fits => exact .sum (forall_fits_replace ih fits)
  | factor _ ih =>
      cases he with
      | product fits => exact .product (forall_fits_replace ih fits)

/-- Where nothing overshoots, a value does not depend on the order of addends and factors. -/
theorem Reordered.valueAt_eq (h : Reordered e e') (he : Fits e) (hfacts : ∀ s, facts s ≤ maxCount)
    (hstays : ¬ Overshoots facts e) (hstays' : ¬ Overshoots facts e') :
    e.valueAt facts = e'.valueAt facts := by
  refine Option.ext fun n => ?_
  rw [valueAt_eq_some_iff he hfacts, valueAt_eq_some_iff (h.fits he) hfacts, h.worth_eq,
    and_iff_left hstays, and_iff_left hstays']

theorem perm_assembled (h : parts.Perm parts') (identity folded : Nat) :
    (assembled identity parts folded).Perm (assembled identity parts' folded) := by
  have hnil : parts = [] ↔ parts' = [] := by
    rw [← List.length_eq_zero_iff, h.length_eq, List.length_eq_zero_iff]
  unfold assembled
  simp only [hnil]
  split
  · exact h.append_right _
  · exact h

/-- Products of the same factors are the same up to the order of factors. -/
theorem reordered_multiply (h : parts.Perm parts') :
    Reordered (multiply parts) (multiply parts') := by
  have hflat : (factorsOf parts).Perm (factorsOf parts') := by
    rw [factorsOf_eq, factorsOf_eq]
    exact h.flatMap_right _
  have hcounts := hflat.filterMap count?
  have hzero : ((factorsOf parts).filterMap count?).contains 0 =
      ((factorsOf parts').filterMap count?).contains 0 :=
    Bool.eq_iff_iff.2 (by rw [List.contains_iff_mem, List.contains_iff_mem, hcounts.mem_iff])
  unfold multiply
  dsimp only
  rw [hzero, hflat.any_eq, hcounts.foldl_eq]
  split
  · exact .refl _
  split
  · exact .refl _
  · have hperm := perm_assembled (hflat.filter (·.count?.isNone)) 1
      (((factorsOf parts').filterMap count?).foldl (· * ·) 1)
    rw [assemble_eq, assemble_eq]
    generalize assembled 1 _ _ = all at hperm ⊢
    generalize assembled 1 _ _ = all' at hperm ⊢
    match all, all', hperm.length_eq with
    | [], [], _ => exact .refl _
    | [part], [part'], _ =>
        rw [List.singleton_perm_singleton.1 hperm]
        exact .refl _
    | _ :: _ :: _, _ :: _ :: _, _ => exact .factors hperm

/-- A size has the value that it amounts to, unless this cannot be counted or a product that is zero
overshoots.  None overshoots if every sort that the size depends on has facts.  The order of addends
never matters, and the order of factors only where something overshoots. -/
theorem evaluate_exact (built : Built e) (hfacts : ∀ s, facts s ≤ maxCount) :
    (∀ n, e.valueAt facts = some n ↔
      e.worth facts = n ∧ n ≤ maxCount ∧ ¬ Overshoots facts e) ∧
    (e.valueAt facts = none ↔ maxCount < e.worth facts ∨ Overshoots facts e) ∧
    ((∀ s ∈ e.cards, facts s ≠ 0) → ¬ Overshoots facts e) ∧
    (∀ e', Shuffled e e' → e.valueAt facts = e'.valueAt facts) ∧
    (∀ e', Reordered e e' → ¬ Overshoots facts e → ¬ Overshoots facts e' →
      e.valueAt facts = e'.valueAt facts) ∧
    (∀ parts parts' : List SizeExpr, parts.Perm parts' →
      Shuffled (add parts) (add parts') ∧ Reordered (multiply parts) (multiply parts')) :=
  have hfits := built.normal.fits
  ⟨fun _ => valueAt_eq_some_iff hfits hfacts, valueAt_eq_none_iff hfits hfacts,
    built.normal.not_overshoots, fun _ hshuffled => hshuffled.evaluate _,
    fun _ hreordered => hreordered.valueAt_eq hfits hfacts,
    fun _ _ hperm => ⟨(Shuffles.of_perm hperm).add, reordered_multiply hperm⟩⟩

/-- The box with its sum behind the other factors and the addends exchanged. -/
def turnedBox : SizeExpr := product [card ⟨1⟩, count 3, sum [count 2, card ⟨0⟩]]

theorem reordered_turnedBox : Reordered box turnedBox := by
  have hsum : Reordered (sum [card ⟨0⟩, count 2]) (sum [count 2, card ⟨0⟩]) :=
    .addends (.swap _ _ _)
  have hbox : Reordered (product ([] ++ sum [card ⟨0⟩, count 2] :: [card ⟨1⟩, count 3]))
      (product ([] ++ sum [count 2, card ⟨0⟩] :: [card ⟨1⟩, count 3])) := .factor hsum
  have hperm : ([sum [count 2, card ⟨0⟩]] ++ [card ⟨1⟩, count 3]).Perm
      ([card ⟨1⟩, count 3] ++ [sum [count 2, card ⟨0⟩]]) := List.perm_append_comm
  exact hbox.trans (.factors hperm)

/-- Both boxes have a value. -/
theorem evaluate_exact_boxes :
    Built box ∧ (∀ _ : SymbolId, 2 ≤ maxCount) ∧ (∀ s ∈ box.cards, (fun _ => 2) s ≠ 0) ∧
    box.worth (fun _ => 2) = 24 ∧ box.valueAt (fun _ => 2) = some 24 ∧
    Reordered box turnedBox ∧ ¬ Overshoots (fun _ => 2) turnedBox ∧
    turnedBox.valueAt (fun _ => 2) = some 24 := by
  have hfacts : ∀ _ : SymbolId, 2 ≤ maxCount := fun _ => by decide
  have hsome : ∀ s ∈ box.cards, (fun _ => 2) s ≠ 0 := fun _ _ => Nat.succ_ne_zero 1
  obtain ⟨hvalue, -, hstays, -, hreordered, -⟩ := evaluate_exact built_box hfacts
  have hturned : ¬ Overshoots (fun _ => 2) turnedBox :=
    ((valueAt_eq_some_iff (reordered_turnedBox.fits built_box.normal.fits) hfacts (n := 24)).1
      rfl).2.2
  have hbox := ((hvalue 24).1 rfl).1
  exact ⟨built_box, hfacts, hsome, hbox, rfl, reordered_turnedBox, hturned,
    (hreordered _ reordered_turnedBox (hstays hsome) hturned).symm⟩

/-- Two sorts that have too many facts for their pairs to be counted, and others without facts. -/
def crowd : SymbolId → Nat
  | ⟨0⟩ => 2 ^ 32
  | ⟨1⟩ => 2 ^ 32
  | _ => 0

/-- A product with the value zero loses it when the zero comes last. -/
theorem not_evaluate_exact :
    (multiply [card ⟨2⟩, card ⟨0⟩, card ⟨1⟩]).valueAt crowd = some 0 ∧
    (multiply [card ⟨0⟩, card ⟨1⟩, card ⟨2⟩]).valueAt crowd = none ∧
    (multiply [card ⟨0⟩, card ⟨1⟩, card ⟨2⟩]).worth crowd = 0 ∧
    ¬ ∀ (e : SizeExpr) (facts : SymbolId → Nat), Built e → e ≠ infinity →
        (∀ s, facts s ≤ maxCount) →
      (∀ n, e.valueAt facts = some n ↔ e.worth facts = n ∧ n ≤ maxCount) ∧
      (e.valueAt facts = none ↔ maxCount < e.worth facts) := by
  have hnone : (multiply [card ⟨0⟩, card ⟨1⟩, card ⟨2⟩]).valueAt crowd = none := by decide
  have hworth : (multiply [card ⟨0⟩, card ⟨1⟩, card ⟨2⟩]).worth crowd = 0 := by
    have hmultiply : multiply [card ⟨0⟩, card ⟨1⟩, card ⟨2⟩] =
        product [card ⟨0⟩, card ⟨1⟩, card ⟨2⟩] := rfl
    rw [hmultiply, worth_product]
    exact List.prod_eq_zero (List.mem_map.2 ⟨card ⟨2⟩, by simp, rfl⟩)
  refine ⟨by decide, hnone, hworth, fun h => ?_⟩
  have hbuilt : Built (multiply [card ⟨0⟩, card ⟨1⟩, card ⟨2⟩]) :=
    .multiply (List.forall_mem_cons.2 ⟨.card _, List.forall_mem_cons.2 ⟨.card _,
      List.forall_mem_cons.2 ⟨.card _, List.forall_mem_nil _⟩⟩⟩)
  have hfacts : ∀ s, crowd s ≤ maxCount := by
    intro s
    unfold crowd
    split <;> decide
  have hgreat := (h _ crowd hbuilt (by rintro ⟨⟩) hfacts).2.1 hnone
  exact absurd (hworth ▸ hgreat) not_lt_zero

end SizeExpr

end ManySorted
