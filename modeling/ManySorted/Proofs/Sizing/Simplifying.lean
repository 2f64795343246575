import ManySorted.Proofs.Sizing.Amount
import ManySorted.Proofs.Sizing.Folding

/-!
# Simplified sizes

Simplifying gives up only where it has to: unless counts are folded to more than can be counted, a
sum amounts to what its parts amount to, and so does a product none of whose factors is infinite
(`amount_add_eq`, `amount_multiply_eq`).

What simplifying makes is in normal form (`Normal`).  A size is infinite as a whole or infinity does
not occur in it, so the test for infinity need not look inside (`Normal.isInfinite_iff`).  A sum has
no sums among its parts and a product no products, there are at least two parts, and at most the
last of them is a count.  Adding, multiplying and renaming keep to normal forms, also where renaming
loses a sort and infinity is simplified away again (`Normal.mapIds`).
-/

namespace ManySorted

namespace SizeExpr

variable {facts : SymbolId → ℕ∞} {e q : SizeExpr} {parts terms : List SizeExpr}
  {make : List SizeExpr → SizeExpr} {identity folded : Nat}

/-! ## What simplifying keeps -/

theorem add_eq_assemble (hfinite : (addendsOf parts).any isInfinite = false)
    (hfits : countSum (addendsOf parts) ≤ maxCount) :
    add parts = assemble sum 0 (uncounted (addendsOf parts)) (countSum (addendsOf parts)) :=
  if_neg (by simp [hfinite, Nat.not_lt.2 hfits])

theorem multiply_eq_assemble (hzero : 0 ∉ (factorsOf parts).filterMap count?)
    (hfinite : (factorsOf parts).any isInfinite = false)
    (hfits : countProduct (factorsOf parts) ≤ maxCount) :
    multiply parts =
      assemble product 1 (uncounted (factorsOf parts)) (countProduct (factorsOf parts)) :=
  (if_neg (by simpa using hzero)).trans (if_neg (by simp [hfinite, Nat.not_lt.2 hfits]))

theorem any_isInfinite_eq_true_iff {flat : List SizeExpr} :
    flat.any isInfinite = true ↔ infinity ∈ flat := by
  rw [List.any_eq_true]
  constructor
  · rintro ⟨e, he, hinfinite⟩
    cases e with
    | infinity => exact he
    | _ => cases hinfinite
  · exact fun h => ⟨infinity, h, rfl⟩

/-- A sum amounts to what its parts amount to, unless its counts are too great. -/
theorem amount_add_eq (hfits : countSum (addendsOf parts) ≤ maxCount) :
    amount facts (add parts) = (parts.map (amount facts)).sum := by
  cases hfinite : (addendsOf parts).any isInfinite with
  | false => rw [add_eq_assemble hfinite hfits, amount_assemble_sum, ← sum_split, sum_addendsOf]
  | true =>
      have hmem : amount facts infinity ∈ (addendsOf parts).map (amount facts) :=
        List.mem_map_of_mem (any_isInfinite_eq_true_iff.1 hfinite)
      have hsum : ⊤ ≤ (parts.map (amount facts)).sum := by
        rw [← sum_addendsOf]
        exact List.single_le_sum (fun _ _ => zero_le) _ hmem
      rw [top_le_iff.1 hsum]
      exact congrArg (amount facts) (if_pos (by simp [hfinite]) : add parts = infinity)

/-- A product amounts to what its parts amount to, unless a factor is infinite or its counts are too
great. -/
theorem amount_multiply_eq (hfinite : infinity ∉ factorsOf parts)
    (hfits : countProduct (factorsOf parts) ≤ maxCount) :
    amount facts (multiply parts) = (parts.map (amount facts)).prod := by
  by_cases hzero : 0 ∈ (factorsOf parts).filterMap count?
  · -- the product is zero, and no amount is less
    have hmultiply : multiply parts = count 0 := if_pos (by simpa using hzero)
    refine le_antisymm ?_ (prod_le_amount_multiply parts)
    rw [hmultiply]
    exact zero_le
  · have hfinite : (factorsOf parts).any isInfinite = false :=
      Bool.eq_false_iff.2 fun h => hfinite (any_isInfinite_eq_true_iff.1 h)
    rw [multiply_eq_assemble hzero hfinite hfits, amount_assemble_product, ← prod_split,
      prod_factorsOf]

/-! ## Normal forms -/

/-- The parts of a simplified sum or product.  There are several, at most the last of them is a
count, and that is not the identity. -/
structure Tidy (identity : Nat) (parts : List SizeExpr) : Prop where
  two_le : 2 ≤ parts.length
  dropLast : ∀ part ∈ parts.dropLast, part.count? = none
  identity_notMem : count identity ∉ parts

/-- A simplified size in which infinity does not occur. -/
inductive Reduced : SizeExpr → Prop
  | count {n : Nat} (fits : n ≤ maxCount) : Reduced (count n)
  | card (sort : SymbolId) : Reduced (card sort)
  | sum {parts : List SizeExpr} (tidy : Tidy 0 parts) (flat : ∀ inner, SizeExpr.sum inner ∉ parts)
      (reduced : ∀ part ∈ parts, Reduced part) : Reduced (sum parts)
  | product {parts : List SizeExpr} (tidy : Tidy 1 parts) (zero : SizeExpr.count 0 ∉ parts)
      (flat : ∀ inner, SizeExpr.product inner ∉ parts) (reduced : ∀ part ∈ parts, Reduced part) :
      Reduced (product parts)

/-- A simplified size: it is infinite as a whole, or infinity does not occur in it. -/
def Normal (e : SizeExpr) : Prop := e = infinity ∨ Reduced e

theorem Normal.reduced (h : Normal e) (hfinite : e.isInfinite = false) : Reduced e := by
  refine h.resolve_left ?_
  rintro rfl
  cases hfinite

theorem addends_of_ne_sum (h : ∀ inner, e ≠ sum inner) : addends e = [e] := by
  cases e with
  | sum inner => exact absurd rfl (h inner)
  | _ => rfl

theorem factors_of_ne_product (h : ∀ inner, e ≠ product inner) : factors e = [e] := by
  cases e with
  | product inner => exact absurd rfl (h inner)
  | _ => rfl

/-- The addends of a simplified size are simplified and no sums. -/
theorem Normal.of_mem_addends (h : Normal e) (hq : q ∈ addends e) :
    Normal q ∧ ∀ inner, q ≠ sum inner := by
  cases e with
  | sum parts =>
      cases h.reduced rfl with
      | sum _ flat reduced =>
          rw [addends, addendsOf_eq] at hq
          obtain ⟨part, hpart, hq⟩ := List.mem_flatMap.1 hq
          have hne : ∀ inner, part ≠ sum inner := fun inner heq => flat inner (heq ▸ hpart)
          rw [addends_of_ne_sum hne, List.mem_singleton] at hq
          rw [hq]
          exact ⟨.inr (reduced part hpart), hne⟩
  | _ =>
      rw [List.mem_singleton.1 hq]
      exact ⟨h, fun inner => by rintro ⟨⟩⟩

/-- The factors of a simplified size are simplified and no products. -/
theorem Normal.of_mem_factors (h : Normal e) (hq : q ∈ factors e) :
    Normal q ∧ ∀ inner, q ≠ product inner := by
  cases e with
  | product parts =>
      cases h.reduced rfl with
      | product _ _ flat reduced =>
          rw [factors, factorsOf_eq] at hq
          obtain ⟨part, hpart, hq⟩ := List.mem_flatMap.1 hq
          have hne : ∀ inner, part ≠ product inner := fun inner heq => flat inner (heq ▸ hpart)
          rw [factors_of_ne_product hne, List.mem_singleton] at hq
          rw [hq]
          exact ⟨.inr (reduced part hpart), hne⟩
  | _ =>
      rw [List.mem_singleton.1 hq]
      exact ⟨h, fun inner => by rintro ⟨⟩⟩

/-! ## Assembling -/

theorem tidy_assembled (hterms : ∀ term ∈ terms, term.count? = none)
    (hlength : 2 ≤ (assembled identity terms folded).length) :
    Tidy identity (assembled identity terms folded) := by
  have hcount : ∀ n, count n ∉ terms := fun n hn => by cases hterms _ hn
  by_cases hlast : folded ≠ identity ∨ terms = []
  · have heq : assembled identity terms folded = terms ++ [count folded] := if_pos hlast
    rw [heq] at hlength ⊢
    refine ⟨hlength, ?_, fun hmem => ?_⟩
    · rwa [List.dropLast_concat]
    · -- the count is the identity only if it stands alone
      rcases List.mem_append.1 hmem with hmem | hmem
      · exact hcount _ hmem
      · obtain rfl : identity = folded := by simpa using hmem
        obtain rfl : terms = [] := hlast.resolve_left fun hne => hne rfl
        exact absurd hlength (Nat.not_succ_le_self 1)
  · have heq : assembled identity terms folded = terms := if_neg hlast
    rw [heq] at hlength ⊢
    exact ⟨hlength, fun part hpart => hterms part (List.dropLast_subset _ hpart), hcount _⟩

/-- Of reduced parts, none of them a count, reduced sizes are assembled. -/
theorem reduced_assemble (hterms : ∀ term ∈ terms, Reduced term ∧ term.count? = none)
    (hfits : folded ≤ maxCount)
    (hmake : Tidy identity (assembled identity terms folded) →
      (∀ part ∈ assembled identity terms folded, Reduced part) →
        Reduced (make (assembled identity terms folded))) :
    Reduced (assemble make identity terms folded) := by
  have hreduced : ∀ part ∈ assembled identity terms folded, Reduced part := by
    intro part hpart
    rcases mem_assembled hpart with hpart | rfl
    · exact (hterms part hpart).1
    · exact .count hfits
  have htidy : 2 ≤ (assembled identity terms folded).length →
      Tidy identity (assembled identity terms folded) :=
    tidy_assembled fun term hterm => (hterms term hterm).2
  have hne : assembled identity terms folded ≠ [] := by
    unfold assembled
    split
    · simp
    · next hterms => exact fun heq => hterms (.inr heq)
  rw [assemble_eq]
  generalize assembled identity terms folded = all at hmake hreduced htidy hne
  match all with
  | [] => exact absurd rfl hne
  | [term] => exact hreduced term List.mem_cons_self
  | _ :: _ :: _ => exact hmake (htidy (by simp)) hreduced

theorem reduced_of_mem_uncounted {flat : List SizeExpr} (hflat : ∀ q ∈ flat, Normal q)
    (hfinite : flat.any isInfinite = false) (hq : q ∈ uncounted flat) :
    Reduced q ∧ q.count? = none := by
  obtain ⟨hmem, hcount, hq⟩ := mem_uncounted hfinite hq
  exact ⟨(hflat q hmem).reduced hq, hcount⟩

theorem normal_add (hparts : ∀ part ∈ parts, Normal part) : Normal (add parts) := by
  have hflat : ∀ q ∈ addendsOf parts, Normal q ∧ ∀ inner, q ≠ sum inner := by
    intro q hq
    rw [addendsOf_eq] at hq
    obtain ⟨part, hpart, hq⟩ := List.mem_flatMap.1 hq
    exact (hparts part hpart).of_mem_addends hq
  rcases add_cases parts with hinfinity | ⟨hfinite, hfits, hadd⟩
  · exact .inl hinfinity
  rw [hadd]
  -- what is assembled are addends, so there is no sum among them
  refine .inr (reduced_assemble (fun q hq => reduced_of_mem_uncounted (fun q hq => (hflat q hq).1)
    hfinite hq) hfits fun htidy hreduced => .sum htidy (fun inner hmem => ?_) hreduced)
  rcases mem_assembled hmem with hmem | hmem
  · exact (hflat _ (List.mem_filter.1 hmem).1).2 inner rfl
  · cases hmem

theorem normal_multiply (hparts : ∀ part ∈ parts, Normal part) : Normal (multiply parts) := by
  have hflat : ∀ q ∈ factorsOf parts, Normal q ∧ ∀ inner, q ≠ product inner := by
    intro q hq
    rw [factorsOf_eq] at hq
    obtain ⟨part, hpart, hq⟩ := List.mem_flatMap.1 hq
    exact (hparts part hpart).of_mem_factors hq
  rcases multiply_cases parts with ⟨_, hzero⟩ | hinfinity | ⟨hzero, hfinite, hfits, hmultiply⟩
  · rw [hzero]
    exact .inr (.count (Nat.zero_le _))
  · exact .inl hinfinity
  rw [hmultiply]
  have hterms : ∀ q ∈ uncounted (factorsOf parts), Reduced q ∧ q.count? = none := fun q hq =>
    reduced_of_mem_uncounted (fun q hq => (hflat q hq).1) hfinite hq
  refine .inr (reduced_assemble hterms hfits fun htidy hreduced =>
    .product htidy (fun hmem => ?_) (fun inner hmem => ?_) hreduced)
  -- the terms are no counts, and the folded count is not zero because none was
  · rcases mem_assembled hmem with hmem | hmem
    · cases (hterms _ hmem).2
    · exact foldl_mul_ne_zero Nat.one_ne_zero hzero (count.inj hmem).symm
  · rcases mem_assembled hmem with hmem | hmem
    · exact (hflat _ (List.mem_filter.1 hmem).1).2 inner rfl
    · cases hmem

/-- Renaming simplifies again, so that also what comes of a lost sort is in normal form. -/
theorem Normal.mapIds (h : Normal e) (f : SymbolId → Option SymbolId) : Normal (mapIds f e) := by
  rcases h with rfl | h
  · exact .inl rfl
  induction h with
  | count fits => exact .inr (.count fits)
  | card sort =>
      rw [SizeExpr.mapIds]
      split
      · exact .inr (.card _)
      · exact .inl rfl
  | sum _ _ _ ih =>
      rw [SizeExpr.mapIds, mapIdsOf_eq]
      exact normal_add (List.forall_mem_map.2 ih)
  | product _ _ _ _ ih =>
      rw [SizeExpr.mapIds, mapIdsOf_eq]
      exact normal_multiply (List.forall_mem_map.2 ih)

/-! ## The test for infinity -/

/-- Where numbers of facts are finite, a size in which infinity does not occur is finite. -/
theorem Reduced.amount_ne_top (h : Reduced e) (hfacts : ∀ s, facts s ≠ ⊤) :
    amount facts e ≠ ⊤ := by
  induction h with
  | count _ => exact ENat.natCast_ne_top _
  | card sort => exact hfacts sort
  | sum _ _ _ ih =>
      rw [amount, amountSum_eq]
      refine List.sum_induction (· ≠ ⊤) (fun x y hx hy => ?_) ENat.zero_ne_top
        (List.forall_mem_map.2 ih)
      exact fun h => (WithTop.add_eq_top.1 h).elim hx hy
  | product _ _ _ _ ih =>
      rw [amount, amountProduct_eq]
      exact List.prod_induction (· ≠ ⊤) (fun _ _ => WithTop.mul_ne_top) ENat.one_ne_top
        (List.forall_mem_map.2 ih)

theorem Normal.isInfinite_iff (h : Normal e) (hfacts : ∀ s, facts s ≠ ⊤) :
    e.isInfinite = true ↔ amount facts e = ⊤ := by
  rcases h with rfl | h
  · exact iff_of_true rfl rfl
  · refine iff_of_false ?_ (h.amount_ne_top hfacts)
    cases h <;> exact Bool.false_ne_true

/-! ## What can be built -/

/-- The sizes that are put together from infinity, counts and numbers of facts. -/
inductive Built : SizeExpr → Prop
  | infinity : Built infinity
  | count {n : Nat} (fits : n ≤ maxCount) : Built (count n)
  | card (sort : SymbolId) : Built (card sort)
  | add {parts : List SizeExpr} (built : ∀ part ∈ parts, Built part) : Built (add parts)
  | multiply {parts : List SizeExpr} (built : ∀ part ∈ parts, Built part) : Built (multiply parts)
  | mapIds {e : SizeExpr} (f : SymbolId → Option SymbolId) (built : Built e) : Built (mapIds f e)

theorem Built.normal (h : Built e) : Normal e := by
  induction h with
  | infinity => exact .inl rfl
  | count fits => exact .inr (.count fits)
  | card sort => exact .inr (.card sort)
  | add _ ih => exact normal_add ih
  | multiply _ ih => exact normal_multiply ih
  | mapIds f _ ih => exact ih.mapIds f

theorem Built.stable (h : Built e) : Stable e := by
  induction h with
  | infinity => exact .infinity
  | count _ => exact .count _
  | card sort => exact .card sort
  | add _ ih => exact stable_add ih
  | multiply _ ih => exact stable_multiply ih
  | mapIds f _ _ => exact stable_mapIds f _

/-- Simplifying from front to back makes sums and products that amount to no less than their parts,
and to as much unless counts are folded to too great a number or a factor is infinite.  Whatever is
built is in normal form, so it is infinite only if it is written as infinity, and where every sort
has a new name, renaming replaces nothing but the names. -/
theorem simplified (parts : List SizeExpr) (facts : SymbolId → ℕ∞) (built : Built e)
    (f : SymbolId → SymbolId) :
    sumInPass 0 [] parts = add parts ∧
    productInPass 1 false [] parts = multiply parts ∧
    (parts.map (amount facts)).sum ≤ amount facts (add parts) ∧
    (countSum (addendsOf parts) ≤ maxCount →
      amount facts (add parts) = (parts.map (amount facts)).sum) ∧
    (parts.map (amount facts)).prod ≤ amount facts (multiply parts) ∧
    (infinity ∉ factorsOf parts → countProduct (factorsOf parts) ≤ maxCount →
      amount facts (multiply parts) = (parts.map (amount facts)).prod) ∧
    Normal e ∧
    ((∀ s, facts s ≠ ⊤) → (e.isInfinite = true ↔ amount facts e = ⊤)) ∧
    mapIds (fun s => some (f s)) e = rename f e :=
  ⟨sumInPass_eq_add parts, productInPass_eq_multiply parts, sum_le_amount_add parts, amount_add_eq,
    prod_le_amount_multiply parts, amount_multiply_eq, built.normal, built.normal.isInfinite_iff,
    built.stable.mapIds_eq_rename fun _ _ => rfl⟩

/-- Parts with sums and products inside each other and counts on every level. -/
def pieces : List SizeExpr :=
  [sum [card ⟨0⟩, sum [count 2]], product [card ⟨1⟩, product [count 3]], count 2]

/-- A product of a sum and a product. -/
def box : SizeExpr := multiply [add [card ⟨0⟩, count 2], multiply [card ⟨1⟩, count 3]]

theorem built_box : Built box := by
  have hsum : Built (add [card ⟨0⟩, count 2]) := by
    refine .add (List.forall_mem_cons.2 ⟨.card _, List.forall_mem_cons.2 ⟨.count ?_, ?_⟩⟩)
    · decide
    · exact List.forall_mem_nil _
  have hproduct : Built (multiply [card ⟨1⟩, count 3]) := by
    refine .multiply (List.forall_mem_cons.2 ⟨.card _, List.forall_mem_cons.2 ⟨.count ?_, ?_⟩⟩)
    · decide
    · exact List.forall_mem_nil _
  exact .multiply (List.forall_mem_cons.2 ⟨hsum, List.forall_mem_cons.2
    ⟨hproduct, List.forall_mem_nil _⟩⟩)

/-- The pieces are added and multiplied without loss, and the box is renamed as it stands. -/
theorem simplified_pieces :
    add pieces = sum [card ⟨0⟩, product [card ⟨1⟩, product [count 3]], count 4] ∧
    countSum (addendsOf pieces) ≤ maxCount ∧
    amount (·.index) (add pieces) = (pieces.map (amount (·.index))).sum ∧
    infinity ∉ factorsOf pieces ∧ countProduct (factorsOf pieces) ≤ maxCount ∧
    amount (·.index) (multiply pieces) = (pieces.map (amount (·.index))).prod ∧
    box = product [sum [card ⟨0⟩, count 2], card ⟨1⟩, count 3] ∧ Built box ∧ Normal box ∧
    (∀ s : SymbolId, (s.index : ℕ∞) ≠ ⊤) ∧ amount (·.index) box ≠ ⊤ ∧
    mapIds (fun s => some ⟨s.index + 5⟩) box =
      product [sum [card ⟨5⟩, count 2], card ⟨6⟩, count 3] := by
  obtain ⟨-, -, -, hadd, -, hmultiply, hnormal, hinfinite, hrename⟩ :=
    simplified pieces (·.index) built_box fun s => ⟨s.index + 5⟩
  have hsum : countSum (addendsOf pieces) ≤ maxCount := by decide
  have hfinite : infinity ∉ factorsOf pieces :=
    mt any_isInfinite_eq_true_iff.2 Bool.false_ne_true
  have hproduct : countProduct (factorsOf pieces) ≤ maxCount := by decide
  have hfacts : ∀ s : SymbolId, (s.index : ℕ∞) ≠ ⊤ := fun s => ENat.natCast_ne_top _
  exact ⟨rfl, hsum, hadd hsum, hfinite, hproduct, hmultiply hfinite hproduct, rfl, built_box,
    hnormal, hfacts, mt (hinfinite hfacts).2 Bool.false_ne_true, hrename⟩

end SizeExpr

end ManySorted
