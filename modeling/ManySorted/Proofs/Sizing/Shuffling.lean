import Mathlib.Data.List.Perm.Basic
import ManySorted.Proofs.Renaming

/-!
# Sizes up to the order of addends

The addends of the size of a position come in the order of the symbols of the sorts it accepts.
With the addends in another order it is the same size: it has the same value for all numbers of
facts (`SizeExpr.Shuffled.evaluate`), and so have the sums and products that it is put into.  The
order of factors is not free, since a product has no value if it is too great on the way.

## Strategy

* **Lists of sizes.**  The addends of a sum are compared as lists up to their order
  (`SizeExpr.Shuffles`), those of a product one by one.
* **What does not matter.**  Being infinite, being a count and the value do not depend on the order
  of addends (`SizeExpr.Shuffled.isInfinite`, `SizeExpr.Shuffled.count?`,
  `SizeExpr.Shuffled.evaluate`).  A sum that is too great on the way is too great in the end,
  whatever the order.
* **Putting together.**  Taking sums and products apart and assembling them respects the order of
  addends (`SizeExpr.Shuffles.addends`, `SizeExpr.Shuffles.assemble`), and so do adding and
  multiplying (`SizeExpr.Shuffles.add`, `SizeExpr.Shuffled.multiply`).
-/

namespace ManySorted

namespace SizeExpr

/-- The second size is the first one with the addends in another order. -/
inductive Shuffled : SizeExpr → SizeExpr → Prop
  | refl (e : SizeExpr) : Shuffled e e
  | trans {e e' e'' : SizeExpr} (first : Shuffled e e') (second : Shuffled e' e'') : Shuffled e e''
  | perm {parts parts' : List SizeExpr} (perm : parts.Perm parts') :
      Shuffled (sum parts) (sum parts')
  | addend {before after : List SizeExpr} {e e' : SizeExpr} (part : Shuffled e e') :
      Shuffled (sum (before ++ e :: after)) (sum (before ++ e' :: after))
  | factor {before after : List SizeExpr} {e e' : SizeExpr} (part : Shuffled e e') :
      Shuffled (product (before ++ e :: after)) (product (before ++ e' :: after))

/-- The second list has the sizes of the first one in some order, with their addends in some
order. -/
def Shuffles (parts parts' : List SizeExpr) : Prop :=
  ∃ mid, parts.Perm mid ∧ List.Forall₂ Shuffled mid parts'

variable {e e' : SizeExpr} {parts parts' rest rest' : List SizeExpr}

/-! ## Lists of sizes -/

theorem forall₂_shuffled_refl (parts : List SizeExpr) : List.Forall₂ Shuffled parts parts :=
  List.forall₂_same.2 fun e _ => .refl e

theorem Shuffles.of_perm (h : parts.Perm parts') : Shuffles parts parts' :=
  ⟨parts', h, forall₂_shuffled_refl parts'⟩

theorem Shuffles.of_forall₂ (h : List.Forall₂ Shuffled parts parts') : Shuffles parts parts' :=
  ⟨parts, .refl parts, h⟩

theorem Shuffles.single (h : Shuffled e e') : Shuffles [e] [e'] :=
  .of_forall₂ (.cons h .nil)

theorem forall₂_shuffled_trans {parts'' : List SizeExpr} (h : List.Forall₂ Shuffled parts parts')
    (h' : List.Forall₂ Shuffled parts' parts'') : List.Forall₂ Shuffled parts parts'' := by
  induction h generalizing parts'' with
  | nil => exact h'
  | cons hhead _ ih =>
      cases h' with
      | cons hhead' hrest' => exact .cons (hhead.trans hhead') (ih hrest')

theorem Shuffles.trans {parts'' : List SizeExpr} (h : Shuffles parts parts')
    (h' : Shuffles parts' parts'') : Shuffles parts parts'' := by
  obtain ⟨mid, hperm, hmid⟩ := h
  obtain ⟨mid', hperm', hmid'⟩ := h'
  obtain ⟨mid'', hmid'', hperm''⟩ : Relation.Comp List.Perm (List.Forall₂ Shuffled) mid mid' :=
    List.forall₂_comp_perm_eq_perm_comp_forall₂ ▸ ⟨parts', hmid, hperm'⟩
  exact ⟨mid'', hperm.trans hmid'', forall₂_shuffled_trans hperm'' hmid'⟩

theorem Shuffles.append (h : Shuffles parts parts') (h' : Shuffles rest rest') :
    Shuffles (parts ++ rest) (parts' ++ rest') := by
  obtain ⟨mid, hperm, hmid⟩ := h
  obtain ⟨mid', hperm', hmid'⟩ := h'
  exact ⟨mid ++ mid', hperm.append hperm', List.rel_append hmid hmid'⟩

theorem Shuffles.cons (h : Shuffled e e') (h' : Shuffles rest rest') :
    Shuffles (e :: rest) (e' :: rest') := (Shuffles.single h).append h'

/-! ## What the order of addends does not matter for -/

theorem Shuffled.isInfinite (h : Shuffled e e') : e'.isInfinite = e.isInfinite := by
  induction h with
  | refl e => rfl
  | trans _ _ ih ih' => exact ih'.trans ih
  | _ => rfl

theorem Shuffled.count? (h : Shuffled e e') : e'.count? = e.count? := by
  induction h with
  | refl e => rfl
  | trans _ _ ih ih' => exact ih'.trans ih
  | _ => rfl

theorem evaluateSum_perm (card : SymbolId → Option Nat) (h : parts.Perm parts') (total : Nat) :
    evaluateSum card total parts = evaluateSum card total parts' := by
  induction h generalizing total with
  | nil => rfl
  | cons e _ ih =>
      simp only [evaluateSum]
      cases evaluate card e with
      | none => rfl
      | some n => simp only [ih]
  | swap e e' rest =>
      simp only [evaluateSum]
      cases evaluate card e with
      | none => cases evaluate card e' with
        | none => rfl
        | some n => simp only [ite_self]
      | some n => cases evaluate card e' with
        | none => simp only [ite_self]
        | some n' =>
            dsimp only
            rw [Nat.add_right_comm total n' n]
            by_cases hboth : total + n + n' ≤ maxCount
            · rw [if_pos hboth, if_pos (by omega), if_pos (by omega)]
            · rw [if_neg hboth, ite_self, ite_self]
  | trans _ _ ih ih' => exact (ih total).trans (ih' total)

/-- A value does not depend on the order of addends. -/
theorem Shuffled.evaluate (h : Shuffled e e') (card : SymbolId → Option Nat) :
    e.evaluate card = e'.evaluate card := by
  induction h with
  | refl e => rfl
  | trans _ _ ih ih' => exact ih.trans ih'
  | perm hperm => exact evaluateSum_perm card hperm 0
  | @addend before after e e' _ ih =>
      have hsum : ∀ total, evaluateSum card total (before ++ e :: after) =
          evaluateSum card total (before ++ e' :: after) := by
        induction before with
        | nil =>
            intro total
            simp only [List.nil_append, evaluateSum, ih]
        | cons part before hbefore =>
            intro total
            simp only [List.cons_append, evaluateSum]
            cases SizeExpr.evaluate card part with
            | none => rfl
            | some n => simp only [hbefore]
      exact hsum 0
  | @factor before after e e' _ ih =>
      have hproduct : ∀ total, evaluateProduct card total (before ++ e :: after) =
          evaluateProduct card total (before ++ e' :: after) := by
        induction before with
        | nil =>
            intro total
            simp only [List.nil_append, evaluateProduct, ih]
        | cons part before hbefore =>
            intro total
            simp only [List.cons_append, evaluateProduct]
            cases SizeExpr.evaluate card part with
            | none => rfl
            | some n => simp only [hbefore]
      exact hproduct 1

theorem Shuffled.closed (h : Shuffled e e') : e.closed = e'.closed := h.evaluate _

/-- Renaming sorts carries the numbers of facts along. -/
theorem evaluate_rename (f : SymbolId → SymbolId) (card : SymbolId → Option Nat) (e : SizeExpr) :
    (e.rename f).evaluate card = e.evaluate (card ∘ f) := by
  induction e with
  | infinity => rfl
  | count n => rfl
  | card sort => rfl
  | sum parts ih =>
      rw [rename, SizeExpr.evaluate, SizeExpr.evaluate]
      generalize 0 = total
      induction parts generalizing total with
      | nil => rfl
      | cons part rest hrest =>
          simp only [renameAll, evaluateSum, ih part List.mem_cons_self,
            hrest fun part hpart => ih part (List.mem_cons_of_mem _ hpart)]
  | product parts ih =>
      rw [rename, SizeExpr.evaluate, SizeExpr.evaluate]
      generalize 1 = total
      induction parts generalizing total with
      | nil => rfl
      | cons part rest hrest =>
          simp only [renameAll, evaluateProduct, ih part List.mem_cons_self,
            hrest fun part hpart => ih part (List.mem_cons_of_mem _ hpart)]

theorem closed_rename (f : SymbolId → SymbolId) (e : SizeExpr) : (e.rename f).closed = e.closed :=
  evaluate_rename f _ e

/-! ## Sums and products -/

theorem Shuffles.addends (h : Shuffles parts parts')
    (hparts : ∀ {e e'}, Shuffled e e' → Shuffles e.addends e'.addends) :
    Shuffles (parts.flatMap SizeExpr.addends) (parts'.flatMap SizeExpr.addends) := by
  obtain ⟨mid, hperm, hmid⟩ := h
  refine (Shuffles.of_perm (hperm.flatMap_right _)).trans ?_
  clear hperm
  induction hmid with
  | nil => exact .of_perm .nil
  | cons hhead _ ih =>
      rw [List.flatMap_cons, List.flatMap_cons]
      exact (hparts hhead).append ih

theorem Shuffled.addends (h : Shuffled e e') : Shuffles e.addends e'.addends := by
  induction h with
  | refl e => exact .of_perm (.refl _)
  | trans _ _ ih ih' => exact ih.trans ih'
  | perm hperm =>
      rw [SizeExpr.addends, SizeExpr.addends, addendsOf_eq, addendsOf_eq]
      exact .of_perm (hperm.flatMap_right _)
  | addend _ ih =>
      rw [SizeExpr.addends, SizeExpr.addends, addendsOf_eq, addendsOf_eq, List.flatMap_append,
        List.flatMap_append, List.flatMap_cons, List.flatMap_cons]
      exact (Shuffles.of_perm (.refl _)).append (ih.append (.of_perm (.refl _)))
  | factor hpart _ => exact .single (.factor hpart)

theorem Shuffled.factors (h : Shuffled e e') : List.Forall₂ Shuffled e.factors e'.factors := by
  induction h with
  | refl e => exact forall₂_shuffled_refl _
  | trans _ _ ih ih' => exact forall₂_shuffled_trans ih ih'
  | perm hperm => exact .cons (.perm hperm) .nil
  | addend hpart _ => exact .cons (.addend hpart) .nil
  | factor _ ih =>
      rw [SizeExpr.factors, SizeExpr.factors, factorsOf_eq, factorsOf_eq, List.flatMap_append,
        List.flatMap_append, List.flatMap_cons, List.flatMap_cons]
      exact List.rel_append (forall₂_shuffled_refl _)
        (List.rel_append ih (forall₂_shuffled_refl _))

theorem forall₂_filter_count? (h : List.Forall₂ Shuffled parts parts') :
    List.Forall₂ Shuffled (parts.filter (·.count?.isNone)) (parts'.filter (·.count?.isNone)) := by
  induction h with
  | nil => exact .nil
  | cons hhead _ ih =>
      rw [List.filter_cons, List.filter_cons, hhead.count?]
      split
      · exact .cons hhead ih
      · exact ih

theorem filterMap_count? (h : List.Forall₂ Shuffled parts parts') :
    parts.filterMap SizeExpr.count? = parts'.filterMap SizeExpr.count? := by
  induction h with
  | nil => rfl
  | cons hhead _ ih => rw [List.filterMap_cons, List.filterMap_cons, hhead.count?, ih]

theorem any_isInfinite (h : List.Forall₂ Shuffled parts parts') :
    parts.any SizeExpr.isInfinite = parts'.any SizeExpr.isInfinite := by
  induction h with
  | nil => rfl
  | cons hhead _ ih => rw [List.any_cons, List.any_cons, hhead.isInfinite, ih]

theorem Shuffles.eq_nil_iff (h : Shuffles parts parts') : parts = [] ↔ parts' = [] := by
  obtain ⟨mid, hperm, hmid⟩ := h
  rw [← List.length_eq_zero_iff, hperm.length_eq, hmid.length_eq, List.length_eq_zero_iff]

theorem Shuffles.assembled (h : Shuffles parts parts') (identity folded : Nat) :
    Shuffles (SizeExpr.assembled identity parts folded)
      (SizeExpr.assembled identity parts' folded) := by
  unfold SizeExpr.assembled
  simp only [h.eq_nil_iff]
  split
  · exact h.append (.of_perm (.refl _))
  · exact h

theorem forall₂_assembled (h : List.Forall₂ Shuffled parts parts') (identity folded : Nat) :
    List.Forall₂ Shuffled (assembled identity parts folded) (assembled identity parts' folded) := by
  unfold assembled
  simp only [(Shuffles.of_forall₂ h).eq_nil_iff]
  split
  · exact List.rel_append h (.cons (.refl _) .nil)
  · exact h

theorem Shuffled.sum_of_forall₂ (h : List.Forall₂ Shuffled parts parts') :
    Shuffled (sum parts) (sum parts') := by
  have hbefore : ∀ before, Shuffled (sum (before ++ parts)) (sum (before ++ parts')) := by
    induction h with
    | nil => exact fun before => .refl _
    | @cons e e' rest rest' hhead _ ih =>
        intro before
        refine (Shuffled.addend hhead).trans ?_
        have hrest := ih (before ++ [e'])
        rwa [List.append_assoc, List.append_assoc] at hrest
  exact hbefore []

theorem Shuffled.product_of_forall₂ (h : List.Forall₂ Shuffled parts parts') :
    Shuffled (product parts) (product parts') := by
  have hbefore : ∀ before, Shuffled (product (before ++ parts)) (product (before ++ parts')) := by
    induction h with
    | nil => exact fun before => .refl _
    | @cons e e' rest rest' hhead _ ih =>
        intro before
        refine (Shuffled.factor hhead).trans ?_
        have hrest := ih (before ++ [e'])
        rwa [List.append_assoc, List.append_assoc] at hrest
  exact hbefore []

theorem Shuffles.sum (h : Shuffles parts parts') : Shuffled (sum parts) (sum parts') := by
  obtain ⟨mid, hperm, hmid⟩ := h
  exact (Shuffled.perm hperm).trans (.sum_of_forall₂ hmid)

theorem Shuffles.assemble (h : Shuffles parts parts') (folded : Nat) :
    Shuffled (SizeExpr.assemble SizeExpr.sum 0 parts folded)
      (SizeExpr.assemble SizeExpr.sum 0 parts' folded) := by
  rw [assemble_eq, assemble_eq]
  have hall := h.assembled 0 folded
  generalize SizeExpr.assembled 0 parts folded = all at hall
  generalize SizeExpr.assembled 0 parts' folded = all' at hall
  obtain ⟨mid, hperm, hmid⟩ := hall
  match all, all', hperm.length_eq.trans hmid.length_eq with
  | [], [], _ => exact .refl _
  | [e], [e'], _ =>
      rw [← List.singleton_perm.1 hperm] at hmid
      cases hmid with
      | cons hhead _ => exact hhead
  | _ :: _ :: _, _ :: _ :: _, _ => exact Shuffles.sum ⟨mid, hperm, hmid⟩

/-- Sums of the same addends are the same. -/
theorem Shuffles.add (h : Shuffles parts parts') : Shuffled (add parts) (add parts') := by
  have hflat := h.addends Shuffled.addends
  obtain ⟨mid, hperm, hmid⟩ := hflat
  unfold SizeExpr.add
  rw [addendsOf_eq, addendsOf_eq]
  have hfolded : (parts.flatMap SizeExpr.addends |>.filterMap SizeExpr.count?).foldl (· + ·) 0 =
      (parts'.flatMap SizeExpr.addends |>.filterMap SizeExpr.count?).foldl (· + ·) 0 := by
    rw [(hperm.filterMap _).foldl_eq, filterMap_count? hmid]
  have hinfinite : (parts.flatMap SizeExpr.addends).any SizeExpr.isInfinite =
      (parts'.flatMap SizeExpr.addends).any SizeExpr.isInfinite := by
    rw [← any_isInfinite hmid, hperm.any_eq]
  dsimp only
  rw [hfolded, hinfinite]
  split
  · exact .refl _
  · exact Shuffles.assemble ⟨_, hperm.filter _, forall₂_filter_count? hmid⟩ _

theorem Shuffled.assemble (h : List.Forall₂ Shuffled parts parts') (folded : Nat) :
    Shuffled (SizeExpr.assemble SizeExpr.product 1 parts folded)
      (SizeExpr.assemble SizeExpr.product 1 parts' folded) := by
  rw [assemble_eq, assemble_eq]
  have hall := forall₂_assembled h 1 folded
  generalize SizeExpr.assembled 1 parts folded = all at hall
  generalize SizeExpr.assembled 1 parts' folded = all' at hall
  cases hall with
  | nil => exact .refl _
  | cons hhead hrest => cases hrest with
    | nil => exact hhead
    | cons hsecond hrest => exact .product_of_forall₂ (.cons hhead (.cons hsecond hrest))

/-- Products of the same factors are the same. -/
theorem Shuffled.multiply (h : List.Forall₂ Shuffled parts parts') :
    Shuffled (multiply parts) (multiply parts') := by
  have hflat : List.Forall₂ Shuffled (parts.flatMap SizeExpr.factors)
      (parts'.flatMap SizeExpr.factors) := by
    induction h with
    | nil => exact .nil
    | cons hhead _ ih =>
        rw [List.flatMap_cons, List.flatMap_cons]
        exact List.rel_append hhead.factors ih
  unfold SizeExpr.multiply
  dsimp only
  rw [factorsOf_eq, factorsOf_eq, filterMap_count? hflat, any_isInfinite hflat]
  split
  · exact .refl _
  · split
    · exact .refl _
    · exact .assemble (forall₂_filter_count? hflat) _

end SizeExpr

end ManySorted
