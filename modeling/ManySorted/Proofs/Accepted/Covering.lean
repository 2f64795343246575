import Mathlib.Data.List.Pairwise
import ManySorted.Proofs.Accepted.Parts

/-!
# The tests for integers are exact

A position in normal form accepts every integer of a range just if the range passes the test
(`AcceptedValues.acceptsRange_iff`), and it accepts every value of some base sorts just if they pass
theirs (`AcceptedValues.acceptsBase_iff`).  Ranges that are apart can only cover a range if one of
them does, for the integer behind a range belongs to none.  A position lists finitely many ranges,
so only base sorts reach arbitrarily far.
-/

namespace ManySorted

namespace IntRange

variable {r s : IntRange} {l : List IntRange} {low high : Int}

/-- Of two ranges one ends before there is a gap to the other. -/
theorem Apart.separate (h : Apart l) (hr : r ∈ l) (hs : s ∈ l) (hne : r ≠ s) :
    r.high + 1 < s.low ∨ s.high + 1 < r.low := by
  have hgap : l.Pairwise fun r s => r.high + 1 < s.low ∨ s.high + 1 < r.low :=
    h.gap.imp fun hgap => .inl hgap
  have hsymm : Std.Symm fun r s : IntRange => r.high + 1 < s.low ∨ s.high + 1 < r.low :=
    ⟨fun _ _ => Or.symm⟩
  exact hgap.forall hr hs hne

/-- Ranges that are apart cover a range only if one of them does. -/
theorem Apart.exists_of_forall (h : Apart l) (hle : low ≤ high)
    (hall : ∀ n, low ≤ n → n ≤ high → ∃ r ∈ l, r.Has n) :
    ∃ r ∈ l, r.low ≤ low ∧ high ≤ r.high := by
  obtain ⟨r, hr, hrlow, hrhigh⟩ := hall low (Int.le_refl _) hle
  refine ⟨r, hr, hrlow, ?_⟩
  by_contra hshort
  -- the integer behind the range that holds the lower end would have to lie in another one
  obtain ⟨q, hq, hqlow, hqhigh⟩ := hall (r.high + 1) (by omega) (by omega)
  have hne : r ≠ q := by
    rintro rfl
    omega
  have hgap := h.separate hr hq hne
  omega

/-- Every integer of some ranges lies between two bounds. -/
theorem exists_bound (l : List IntRange) :
    ∃ bound : Int, 0 ≤ bound ∧ ∀ r ∈ l, ∀ n, r.Has n → -bound < n ∧ n < bound := by
  induction l with
  | nil => exact ⟨0, Int.le_refl _, fun _ hr => absurd hr List.not_mem_nil⟩
  | cons r rest ih =>
      obtain ⟨bound, hbound, hrest⟩ := ih
      refine ⟨max bound (max (1 - r.low) (r.high + 1)), by omega, fun q hq n hn => ?_⟩
      rcases List.mem_cons.1 hq with rfl | hq
      · obtain ⟨hlow, hhigh⟩ := hn
        omega
      · have := hrest q hq n hn
        omega

end IntRange

namespace AcceptedValues

variable {v : AcceptedValues} {low high : Int} {stretch : Stretch}

theorem apart_foldl_window (h : IntRange.Apart v.ranges) (stretches : List Stretch) :
    IntRange.Apart (stretches.foldl (fun ranges s => IntRange.insert (s.window low high) ranges)
      v.ranges) := by
  refine List.foldlRecOn (motive := IntRange.Apart) stretches _ h fun ranges hranges s _ => ?_
  refine hranges.insert ?_
  cases s <;> simp only [Stretch.window] <;> omega

/-- A window has the integers of its stretch that lie in the range. -/
theorem has_window {n : Int} (hn : stretch.Has n) (hlow : low ≤ n) (hhigh : n ≤ high) :
    (stretch.window low high).Has n := by
  cases stretch <;> simp only [Stretch.Has, Stretch.window, IntRange.Has] at hn ⊢ <;> omega

/-- A range passes the test just if all its integers are accepted. -/
theorem acceptsRange_iff (h : IntRange.Apart v.ranges) :
    v.acceptsRange low high = true ↔ ∀ n, low ≤ n → n ≤ high → v.HasInteger n := by
  refine ⟨fun haccepts n => hasInteger_of_acceptsRange haccepts, fun hall => ?_⟩
  simp only [acceptsRange, Bool.or_eq_true, decide_eq_true_eq, List.any_eq_true, Bool.and_eq_true]
  rcases Int.lt_or_le high low with hempty | hle
  · exact .inl hempty
  · right
    refine (apart_foldl_window h v.base.stretches).exists_of_forall hle fun n hlow hhigh => ?_
    · have hcover : ∀ (stretches : List Stretch) (ranges : List IntRange),
          ((∃ r ∈ ranges, r.Has n) ∨ ∃ stretch ∈ stretches, stretch.Has n) →
          ∃ r ∈ stretches.foldl (fun ranges s => IntRange.insert (s.window low high) ranges) ranges,
            r.Has n := by
        intro stretches
        induction stretches with
        | nil => simp
        | cons stretch rest ih =>
            rintro ranges (hranges | ⟨other, hother, hn⟩)
            · exact ih _ (.inl (IntRange.exists_mem_insert.2 (.inr hranges)))
            · rcases List.mem_cons.1 hother with rfl | hother
              · exact ih _ (.inl (IntRange.exists_mem_insert.2 (.inl (has_window hn hlow hhigh))))
              · exact ih _ (.inr ⟨other, hother, hn⟩)
      exact hcover _ _ (hasInteger_iff.1 (hall n hlow hhigh))

/-- An integer that lies in no range belongs to a stretch. -/
theorem HasInteger.exists_stretch {n : Int} (h : v.HasInteger n)
    (hranges : ∀ r ∈ v.ranges, ¬ r.Has n) : ∃ stretch ∈ v.base.stretches, stretch.Has n := by
  rcases hasInteger_iff.1 h with ⟨r, hr, hn⟩ | hstretch
  · exact absurd hn (hranges r hr)
  · exact hstretch

theorem mem_stretches {base : BaseSortSet} : stretch ∈ base.stretches ↔
    match stretch with
    | .negatives => base.closure.negInteger = true
    | .naturals => base.closure.natural = true
    | .positives => base.closure.natural = false ∧ base.closure.posInteger = true := by
  unfold BaseSortSet.stretches
  dsimp only
  cases stretch <;> cases base.closure.negInteger <;> cases base.closure.natural <;>
    cases base.closure.posInteger <;> simp

/-- A base sort of natural numbers has the positive ones. -/
theorem closure_posInteger {base : BaseSortSet} (h : base.closure.natural = true) :
    base.closure.posInteger = true := by
  simp only [BaseSortSet.closure, Bool.or_eq_true] at h ⊢
  exact .inr h

/-- A stretch passes the test just if all its integers are accepted. -/
theorem acceptsStretch_iff :
    v.acceptsStretch stretch = true ↔ ∀ n, stretch.Has n → v.HasInteger n := by
  refine ⟨fun haccepts n hn => hasInteger_of_acceptsStretch haccepts hn, fun hall => ?_⟩
  obtain ⟨bound, hbound, hranges⟩ := IntRange.exists_bound v.ranges
  have hfar : ∀ n, stretch.Has n → bound ≤ n ∨ n ≤ -bound →
      ∃ s ∈ v.base.stretches, s.Has n := by
    intro n hn hfar
    refine (hall n hn).exists_stretch fun r hr hhas => ?_
    have := hranges r hr n hhas
    omega
  -- an integer far above zero shows that the positive integers are accepted
  have hpositive : (stretch.Has (bound + 1)) → v.base.closure.posInteger = true := by
    intro hn
    obtain ⟨s, hs, hhas⟩ := hfar (bound + 1) hn (by omega)
    rw [mem_stretches] at hs
    cases s with
    | negatives =>
        simp only [Stretch.Has] at hhas
        omega
    | naturals => exact closure_posInteger hs
    | positives => exact hs.2
  cases stretch with
  | negatives =>
      obtain ⟨s, hs, hhas⟩ := hfar (-bound - 1) (by simp only [Stretch.Has]; omega) (by omega)
      rw [mem_stretches] at hs
      cases s with
      | negatives => exact hs
      | naturals =>
          simp only [Stretch.Has] at hhas
          omega
      | positives =>
          simp only [Stretch.Has] at hhas
          omega
  | positives => exact hpositive (by simp only [Stretch.Has]; omega)
  | naturals =>
      have hpos := hpositive (by simp only [Stretch.Has]; omega)
      simp only [acceptsStretch, hpos, Bool.true_and, Bool.or_eq_true, List.any_eq_true]
      -- zero is natural, or it lies in a range
      rcases hasInteger_iff.1 (hall 0 (Int.le_refl _)) with ⟨r, hr, hzero⟩ | ⟨s, hs, hzero⟩
      · refine .inr ⟨r, hr, ?_⟩
        simp only [IntRange.contains, Bool.and_eq_true, decide_eq_true_eq]
        exact hzero
      · rw [mem_stretches] at hs
        cases s with
        | naturals => exact .inl hs
        | negatives => exact absurd hzero (Int.lt_irrefl 0)
        | positives => exact absurd hzero (Int.lt_irrefl 0)

/-- Base sorts pass the test just if all their values are accepted: integers in whatever way, other
values by their own base sort. -/
theorem acceptsBase_iff {base : BaseSortSet} : v.acceptsBase base = true ↔
    (∀ n, (∃ b, base.contains b = true ∧ b.HasInteger n) → v.HasInteger n) ∧
      (base.real = true → v.base.real = true) ∧ (base.string = true → v.base.string = true) ∧
      (base.boolean = true → v.base.boolean = true) := by
  constructor
  · intro haccepts
    refine ⟨fun n => ?_, contains_of_acceptsBase haccepts⟩
    rintro ⟨b, hb, hn⟩
    exact hasInteger_of_acceptsBase haccepts hb hn
  · rintro ⟨hintegers, hreal, hstring, hboolean⟩
    rw [acceptsBase, Bool.and_eq_true, List.all_eq_true]
    constructor
    · simp only [BaseSortSet.subset, BaseSortSet.inter, BaseSortSet.nonInteger,
        BaseSortSet.closure, Bool.and_false, Bool.and_true, beq_iff_eq]
      cases hr : base.real <;> cases hs : base.string <;> cases hb : base.boolean <;>
        simp [hr, hs, hb] at hreal hstring hboolean <;> simp [*]
    · intro stretch hstretch
      refine acceptsStretch_iff.2 fun n hn => hintegers n ?_
      exact BaseSortSet.exists_stretch_iff.1 ⟨stretch, hstretch, hn⟩

end AcceptedValues

end ManySorted
