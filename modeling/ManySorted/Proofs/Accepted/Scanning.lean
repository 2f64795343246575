import ManySorted.Proofs.Accepted.Covering
import ManySorted.Proofs.Declaration.Denotation

/-!
# Scanning intervals for gaps

Literals have 64 bits, and what a position accepts of the integers can be decided in 128 bits: the
ranges and the base sorts, the latter cut off at the ends of 128 bits, are joined into one ascending
list of intervals, which is then scanned for a gap.  On whatever is composed of literals and base
sorts this scan answers as the tests do, and both are exact, up to the last literal on either side
(`AcceptedValues.Composed.coverage_exact`): all literals are far from the ends of 128 bits, so an
integer out there belongs to a base sort if it is accepted at all.

## Strategy

* **Joining.**  In an ascending list each interval is joined with those behind it that it overlaps
  or touches.  This neither adds nor loses integers (`IntRange.Ascending.exists_mem_joinFrom`).
* **Scanning.**  An ascending list covers the integers of an interval if and only if the scan finds
  no gap (`IntRange.scan_merged_iff`).
* **Base sorts.**  A stretch without end is cut off at the ends of 128 bits.  It has an integer that
  no literal reaches, and goes on from there (`Stretch.exists_remote`), so nothing is lost that a
  position of literals and base sorts could tell apart.
* **Both tests.**  So the scan answers as the tests do (`AcceptedValues.scan_intervals`,
  `AcceptedValues.scan_interval`), and these are exact.
-/

namespace ManySorted

/-- Whether an integer can be written as a literal, which has 64 bits. -/
def IsLiteral (n : Int) : Prop := -2 ^ 63 ≤ n ∧ n ≤ 2 ^ 63 - 1

namespace IntRange

variable {r s : IntRange} {l : List IntRange} {low high n : Int}

/-- The least number that an interval starts at. -/
def leastEnd : Int := -2 ^ 127

/-- The greatest number that an interval ends at. -/
def greatestEnd : Int := 2 ^ 127 - 1

/-- What holds of some ranges and is kept by joining two holds of what insertion makes. -/
theorem forall_mem_insert {P : IntRange → Prop} (hhull : ∀ r s, P r → P s → P (r.hull s))
    (hr : P r) (hl : ∀ q ∈ l, P q) : ∀ q ∈ insert r l, P q := by
  induction l generalizing r with
  | nil => exact fun q hq => List.mem_singleton.1 hq ▸ hr
  | cons s rest ih =>
      obtain ⟨hs, hrest⟩ := List.forall_mem_cons.1 hl
      unfold insert
      split
      · exact List.forall_mem_cons.2 ⟨hr, hl⟩
      · split
        · exact List.forall_mem_cons.2 ⟨hs, ih hr hrest⟩
        · exact ih (hhull r s hr hs) hrest

/-! ## Joining -/

/-- Joins to an interval the intervals of an ascending list that it overlaps or touches, and these
to each other.  The number behind the greatest end is that end itself. -/
def joinFrom (r : IntRange) : List IntRange → List IntRange
  | [] => [r]
  | s :: rest =>
      if s.low ≤ min (r.high + 1) greatestEnd then joinFrom ⟨r.low, max r.high s.high⟩ rest
      else r :: joinFrom s rest

/-- Joins the intervals of an ascending list. -/
def joined : List IntRange → List IntRange
  | [] => []
  | r :: rest => joinFrom r rest

/-- The order of intervals: by their lower ends, then by their upper ends. -/
def precedes (r s : IntRange) : Bool := r.low < s.low || r.low == s.low && r.high ≤ s.high

/-- The intervals that a list is joined to. -/
def merged (l : List IntRange) : List IntRange := joined (l.mergeSort precedes)

/-- The intervals start one after the other. -/
def Ascending (l : List IntRange) : Prop := l.Pairwise fun r s => r.low ≤ s.low

theorem Ascending.tail (h : Ascending (r :: l)) : Ascending l := (List.pairwise_cons.1 h).2

theorem Ascending.low_le (h : Ascending (r :: l)) (hs : s ∈ l) : r.low ≤ s.low :=
  (List.pairwise_cons.1 h).1 s hs

/-- An interval that starts the list with a greater upper end leaves it ascending. -/
theorem Ascending.skip (h : Ascending (r :: s :: l)) (high : Int) :
    Ascending (⟨r.low, high⟩ :: l) :=
  List.pairwise_cons.2 ⟨fun _ hq => h.low_le (List.mem_cons_of_mem _ hq), h.tail.tail⟩

theorem Ascending.low_le_of_mem_joinFrom (h : Ascending (r :: l)) :
    ∀ q ∈ joinFrom r l, r.low ≤ q.low := by
  induction l generalizing r with
  | nil =>
      intro q hq
      rw [joinFrom, List.mem_singleton] at hq
      exact hq ▸ Int.le_refl _
  | cons s rest ih =>
      rw [joinFrom]
      split
      · exact ih (h.skip _)
      · intro q hq
        rcases List.mem_cons.1 hq with rfl | hq
        · exact Int.le_refl _
        · exact Int.le_trans (h.low_le List.mem_cons_self) (ih h.tail q hq)

theorem Ascending.joinFrom (h : Ascending (r :: l)) : Ascending (joinFrom r l) := by
  induction l generalizing r with
  | nil => exact List.pairwise_singleton _ _
  | cons s rest ih =>
      rw [IntRange.joinFrom]
      split
      · exact ih (h.skip _)
      · refine List.pairwise_cons.2 ⟨fun q hq => ?_, ih h.tail⟩
        exact Int.le_trans (h.low_le List.mem_cons_self) (h.tail.low_le_of_mem_joinFrom q hq)

/-- Joining neither adds nor loses integers. -/
theorem Ascending.exists_mem_joinFrom (h : Ascending (r :: l)) :
    (∃ q ∈ IntRange.joinFrom r l, q.Has n) ↔ ∃ q ∈ r :: l, q.Has n := by
  induction l generalizing r with
  | nil => rw [IntRange.joinFrom]
  | cons s rest ih =>
      rw [IntRange.joinFrom]
      split
      · next htouch =>
          -- the first two intervals leave no gap, so they have the integers of the joined one
          have hle := h.low_le (List.mem_cons_self (a := s))
          have hjoin : Has ⟨r.low, max r.high s.high⟩ n ↔ r.Has n ∨ s.Has n := by
            simp only [Has]
            omega
          rw [ih (h.skip _)]
          simp only [List.mem_cons, exists_eq_or_imp, hjoin]
          exact or_assoc
      · rw [List.exists_mem_cons_iff, ih h.tail, List.exists_mem_cons_iff (l := s :: rest)]

theorem ascending_mergeSort (l : List IntRange) : Ascending (l.mergeSort precedes) := by
  have hsorted : (l.mergeSort precedes).Pairwise fun r s => precedes r s = true := by
    refine List.pairwise_mergeSort (fun r s q hrs hsq => ?_) (fun r s => ?_) l
    · simp only [precedes, Bool.or_eq_true, Bool.and_eq_true, decide_eq_true_eq, beq_iff_eq]
        at hrs hsq ⊢
      omega
    · simp only [precedes, Bool.or_eq_true, Bool.and_eq_true, decide_eq_true_eq, beq_iff_eq]
      omega
  refine hsorted.imp fun {r s} hrs => ?_
  simp only [precedes, Bool.or_eq_true, Bool.and_eq_true, decide_eq_true_eq, beq_iff_eq] at hrs
  omega

theorem ascending_merged (l : List IntRange) : Ascending (merged l) := by
  rw [merged]
  have hsorted := ascending_mergeSort l
  cases hl : l.mergeSort precedes with
  | nil => exact List.Pairwise.nil
  | cons r rest => exact (hl ▸ hsorted).joinFrom

theorem exists_mem_merged : (∃ q ∈ merged l, q.Has n) ↔ ∃ q ∈ l, q.Has n := by
  have hsorted := ascending_mergeSort l
  have hmem : ∀ q, q ∈ l ↔ q ∈ l.mergeSort precedes := fun q => List.mem_mergeSort.symm
  simp only [merged, hmem]
  cases hl : l.mergeSort precedes with
  | nil => rfl
  | cons r rest => exact (hl ▸ hsorted).exists_mem_joinFrom

/-! ## Scanning -/

/-- Whether ascending intervals cover the integers from `low` to `high` without a gap. -/
def scan (low high : Int) : List IntRange → Bool
  | [] => false
  | r :: rest =>
      if low < r.low then false
      else if high ≤ r.high then true
      else scan (max low (r.high + 1)) high rest

/-- The scan finds a gap if there is one. -/
theorem Ascending.scan_iff (h : Ascending l) (hle : low ≤ high) :
    scan low high l = true ↔ ∀ n, low ≤ n → n ≤ high → ∃ r ∈ l, r.Has n := by
  induction l generalizing low with
  | nil =>
      simp only [scan, Bool.false_eq_true, List.not_mem_nil, false_and, exists_false, false_iff]
      exact fun hall => hall low (Int.le_refl _) hle
  | cons r rest ih =>
      rw [scan]
      split
      · next hgap =>
          -- all intervals start above the lower end
          simp only [Bool.false_eq_true, false_iff]
          intro hall
          obtain ⟨q, hq, hn⟩ := hall low (Int.le_refl _) hle
          rcases List.mem_cons.1 hq with rfl | hq
          · exact absurd hn.1 (Int.not_le.2 hgap)
          · exact absurd (Int.le_trans (h.low_le hq) hn.1) (Int.not_le.2 hgap)
      · next hlow =>
          split
          · next hhigh =>
              simp only [true_iff]
              intro n hnlow hnhigh
              exact ⟨r, List.mem_cons_self, by simp only [Has]; omega⟩
          · next hhigh =>
              rw [ih h.tail (by omega)]
              constructor
              · intro hall n hnlow hnhigh
                by_cases hn : n ≤ r.high
                · exact ⟨r, List.mem_cons_self, by simp only [Has]; omega⟩
                · obtain ⟨q, hq, hqn⟩ := hall n (by omega) hnhigh
                  exact ⟨q, List.mem_cons_of_mem _ hq, hqn⟩
              · intro hall n hnlow hnhigh
                obtain ⟨q, hq, hqn⟩ := hall n (by omega) hnhigh
                rcases List.mem_cons.1 hq with rfl | hq
                · have := hqn.2
                  omega
                · exact ⟨q, hq, hqn⟩

theorem scan_merged_iff (hle : low ≤ high) :
    scan low high (merged l) = true ↔ ∀ n, low ≤ n → n ≤ high → ∃ r ∈ l, r.Has n := by
  rw [(ascending_merged l).scan_iff hle]
  simp only [exists_mem_merged]

end IntRange

/-! ## Base sorts as intervals -/

namespace Stretch

open IntRange (leastEnd greatestEnd)

/-- The integers of a stretch that have 128 bits. -/
def interval : Stretch → IntRange
  | .negatives => ⟨leastEnd, -1⟩
  | .naturals => ⟨0, greatestEnd⟩
  | .positives => ⟨1, greatestEnd⟩

theorem has_interval {s : Stretch} {n : Int} :
    s.interval.Has n ↔ s.Has n ∧ leastEnd ≤ n ∧ n ≤ greatestEnd := by
  cases s <;> simp only [interval, IntRange.Has, Has, leastEnd, greatestEnd] <;> omega

theorem low_le_high_interval (s : Stretch) : s.interval.low ≤ s.interval.high := by
  cases s <;> simp only [interval, leastEnd, greatestEnd] <;> omega

/-- Every stretch has an integer that no literal reaches, and a stretch that has it goes on from
there as far as this one does. -/
theorem exists_remote (s : Stretch) : ∃ far, s.interval.Has far ∧ ¬ IsLiteral far ∧
    ∀ other : Stretch, other.Has far → ∀ n, s.Has n → ¬ IsLiteral n → other.Has n := by
  cases s with
  | negatives =>
      refine ⟨leastEnd, ?_, ?_, fun other hfar n hn _ => ?_⟩
      · simp only [interval, IntRange.Has, leastEnd]
        omega
      · simp only [IsLiteral, leastEnd]
        omega
      · cases other <;> simp only [Has, leastEnd] at hfar hn ⊢ <;> omega
  | naturals | positives =>
      refine ⟨greatestEnd, ?_, ?_, fun other hfar n hn hremote => ?_⟩
      · simp only [interval, IntRange.Has, greatestEnd]
        omega
      · simp only [IsLiteral, greatestEnd]
        omega
      · cases other <;> simp only [Has, greatestEnd, IsLiteral] at hfar hn hremote ⊢ <;> omega

end Stretch

namespace AcceptedValues

open IntRange (leastEnd greatestEnd scan)

variable {v w : AcceptedValues} {low high n : Int} {stretch : Stretch}

/-- The accepted integers of 128 bits as intervals. -/
def intervals (v : AcceptedValues) : List IntRange :=
  IntRange.merged (v.ranges ++ v.base.stretches.map Stretch.interval)

theorem scan_intervals_iff (hlow : leastEnd ≤ low) (hhigh : high ≤ greatestEnd) (hle : low ≤ high) :
    scan low high v.intervals = true ↔ ∀ n, low ≤ n → n ≤ high → v.HasInteger n := by
  rw [intervals, IntRange.scan_merged_iff hle]
  refine forall_congr' fun n => imp_congr_right fun hnlow => imp_congr_right fun hnhigh => ?_
  rw [hasInteger_iff]
  simp only [List.mem_append, List.mem_map, or_and_right, exists_or]
  refine or_congr_right ⟨?_, ?_⟩
  · rintro ⟨_, ⟨s, hs, rfl⟩, hn⟩
    exact ⟨s, hs, (Stretch.has_interval.1 hn).1⟩
  · rintro ⟨s, hs, hn⟩
    exact ⟨_, ⟨s, hs, rfl⟩, Stretch.has_interval.2
      ⟨hn, Int.le_trans hlow hnlow, Int.le_trans hnhigh hhigh⟩⟩

theorem acceptsInteger_iff : v.acceptsInteger n = true ↔ v.HasInteger n := by
  simp only [acceptsInteger, Bool.or_eq_true, BaseSortSet.acceptsInteger_iff, List.any_eq_true,
    IntRange.contains, Bool.and_eq_true, decide_eq_true_eq, HasInteger]
  exact or_comm

/-- The ends of the ranges are literals. -/
def Literal (v : AcceptedValues) : Prop := ∀ r ∈ v.ranges, IsLiteral r.low ∧ IsLiteral r.high

theorem literal_empty : (∅ : AcceptedValues).Literal := fun _ hr => absurd hr List.not_mem_nil

/-- Inserting a literal range into literal ranges. -/
theorem literal_insert {r : IntRange} {l : List IntRange} (hr : IsLiteral r.low ∧ IsLiteral r.high)
    (hl : ∀ q ∈ l, IsLiteral q.low ∧ IsLiteral q.high) :
    ∀ q ∈ IntRange.insert r l, IsLiteral q.low ∧ IsLiteral q.high := by
  refine IntRange.forall_mem_insert (P := fun q => IsLiteral q.low ∧ IsLiteral q.high)
    (fun r s hr hs => ?_) hr hl
  simp only [IntRange.hull, IsLiteral] at hr hs ⊢
  omega

theorem Literal.addRange (h : v.Literal) (hlow : IsLiteral low) (hhigh : IsLiteral high) :
    (v.addRange low high).Literal := by
  unfold AcceptedValues.addRange
  split
  · exact literal_insert ⟨hlow, hhigh⟩ h
  · exact h

theorem Literal.union (h : v.Literal) (h' : w.Literal) : (v.union w).Literal := by
  refine List.foldlRecOn (motive := fun ranges : List IntRange =>
    ∀ q ∈ ranges, IsLiteral q.low ∧ IsLiteral q.high) w.ranges _ h fun ranges hranges r hr => ?_
  exact literal_insert (h' r hr) hranges

/-- On literals the scan answers as the test does. -/
theorem scan_intervals (h : IntRange.Apart v.ranges) (hlow : IsLiteral low) (hhigh : IsLiteral high)
    (hle : low ≤ high) : scan low high v.intervals = v.acceptsRange low high := by
  have hleast : leastEnd ≤ low := by
    simp only [leastEnd, IsLiteral] at hlow ⊢
    omega
  have hgreatest : high ≤ greatestEnd := by
    simp only [greatestEnd, IsLiteral] at hhigh ⊢
    omega
  rw [Bool.eq_iff_iff, scan_intervals_iff hleast hgreatest hle, acceptsRange_iff h]

/-- On the part of a stretch that has 128 bits the scan answers as the test does on all of it. -/
theorem scan_interval (h : v.Literal) (s : Stretch) :
    scan s.interval.low s.interval.high v.intervals = v.acceptsStretch s := by
  have hends : leastEnd ≤ s.interval.low ∧ s.interval.high ≤ greatestEnd := by
    cases s <;> simp only [Stretch.interval, leastEnd, greatestEnd] <;> omega
  rw [Bool.eq_iff_iff, scan_intervals_iff hends.1 hends.2 s.low_le_high_interval,
    acceptsStretch_iff]
  constructor
  · intro hall n hn
    by_cases hinside : s.interval.Has n
    · exact hall n hinside.1 hinside.2
    · -- what accepts an integer that no literal reaches accepts all that lie out there
      obtain ⟨far, hfar, hremote, hgoesOn⟩ := s.exists_remote
      obtain ⟨other, hother, hotherFar⟩ := (hall far hfar.1 hfar.2).exists_stretch
        fun r hr hhas => hremote ⟨Int.le_trans (h r hr).1.1 hhas.1,
          Int.le_trans hhas.2 (h r hr).2.2⟩
      refine hasInteger_iff.2 (.inr ⟨other, hother, hgoesOn other hotherFar n hn fun hliteral =>
        ?_⟩)
      refine hinside (Stretch.has_interval.2 ⟨hn, ?_⟩)
      simp only [IsLiteral, leastEnd, greatestEnd] at hliteral ⊢
      omega
  · intro hall n hnlow hnhigh
    exact hall n (Stretch.has_interval.1 ⟨hnlow, hnhigh⟩).1

/-! ## What is composed of literals and base sorts -/

/-- What additions of literals, ranges and base sorts and unions make of nothing. -/
inductive Composed : AcceptedValues → Prop
  | empty : Composed ∅
  | addInteger {v : AcceptedValues} {value : Int} (h : Composed v) (hvalue : IsLiteral value) :
      Composed (v.addInteger value)
  | addRange {v : AcceptedValues} {low high : Int} (h : Composed v) (hlow : IsLiteral low)
      (hhigh : IsLiteral high) : Composed (v.addRange low high)
  | addBase {v : AcceptedValues} (h : Composed v) (base : BaseSortSet) : Composed (v.addBase base)
  | union {v w : AcceptedValues} (h : Composed v) (h' : Composed w) : Composed (v.union w)

theorem Composed.normal (h : v.Composed) : v.Normal := by
  induction h with
  | empty => exact normal_empty
  | addInteger _ _ ih => exact ih.addRange _ _
  | addRange _ _ _ ih => exact ih.addRange _ _
  | addBase _ base ih => exact ih.addBase base
  | union _ _ ih ih' => exact ih.union ih'

theorem Composed.literal (h : v.Composed) : v.Literal := by
  induction h with
  | empty => exact literal_empty
  | addInteger _ hvalue ih => exact ih.addRange hvalue hvalue
  | addRange _ hlow hhigh ih => exact ih.addRange hlow hhigh
  | addBase _ _ ih => exact ih
  | union _ _ ih ih' => exact ih.union ih'

/-- On what is composed of literals and base sorts the tests are exact: a range passes just if each
of its integers does, and base sorts pass just if all their integers lie in a range or belong to a
base sort that is listed, and their other values have a base sort of their own.  And the scan of
intervals of 128 bits, with all ends literals, answers both in the same way. -/
theorem Composed.coverage_exact (h : v.Composed) :
    (∀ low high, v.acceptsRange low high = true ↔
      ∀ n, low ≤ n → n ≤ high → v.acceptsInteger n = true) ∧
    (∀ base : BaseSortSet, v.acceptsBase base = true ↔
      (∀ b ∈ [BaseSort.real, .string, .boolean], base.contains b = true →
        v.base.contains b = true) ∧
      ∀ n, (∃ b, base.contains b = true ∧ b.HasInteger n) →
        (∃ r ∈ v.ranges, r.Has n) ∨ ∃ b, v.base.contains b = true ∧ b.HasInteger n) ∧
    v.Literal ∧
    (∀ low high, IsLiteral low → IsLiteral high → low ≤ high →
      v.acceptsRange low high = scan low high v.intervals) ∧
    ∀ base : BaseSortSet, v.acceptsBase base = ((base.inter .nonInteger).subset v.base.closure &&
      base.stretches.all fun s => scan s.interval.low s.interval.high v.intervals) := by
  have hapart := h.normal.ranges
  refine ⟨fun low high => ?_, fun base => ?_, h.literal, fun low high hlow hhigh hle => ?_,
    fun base => ?_⟩
  · rw [acceptsRange_iff hapart]
    simp only [acceptsInteger_iff]
  · rw [acceptsBase_iff, and_comm]
    refine and_congr ?_ Iff.rfl
    simp only [List.mem_cons, List.not_mem_nil, or_false, forall_eq_or_imp, forall_eq,
      BaseSortSet.contains]
  · exact (scan_intervals hapart hlow hhigh hle).symm
  · rw [acceptsBase]
    simp only [scan_interval h.literal]

/-- The integers on both sides of zero, the literal zero, and the last two literals. -/
def split : AcceptedValues :=
  (((∅ : AcceptedValues).addBase { negInteger := true, posInteger := true }).addInteger 0).union
    ((∅ : AcceptedValues).addRange (2 ^ 63 - 2) (2 ^ 63 - 1))

/-- Zero fills the gap between `NegInteger` and `PosInteger`: all literals are accepted, and so is
`Integer`, which is not listed. -/
theorem coverage_exact_split : split.Composed ∧
    (∀ n, -2 ^ 63 ≤ n → n ≤ 2 ^ 63 - 1 → split.acceptsInteger n = true) ∧
    (∀ n, (∃ r ∈ split.ranges, r.Has n) ∨
      ∃ b, split.base.contains b = true ∧ b.HasInteger n) ∧
    split.acceptsRange (-2 ^ 63) (2 ^ 63 - 1) = scan (-2 ^ 63) (2 ^ 63 - 1) split.intervals := by
  have hcomposed : split.Composed :=
    .union (.addInteger (.addBase .empty _) ⟨by decide, by decide⟩)
      (.addRange .empty ⟨by decide, by decide⟩ ⟨by decide, by decide⟩)
  obtain ⟨hrange, hbase, -, hscan, -⟩ := hcomposed.coverage_exact
  refine ⟨hcomposed, (hrange _ _).1 (by decide), fun n => ?_,
    hscan _ _ ⟨by decide, by decide⟩ ⟨by decide, by decide⟩ (by decide)⟩
  exact ((hbase { integer := true }).1 (by decide)).2 n ⟨.integer, rfl, trivial⟩

end AcceptedValues

end ManySorted
