import ManySorted.Proofs.Table.Closed
import Mathlib.Data.List.Forall2

/-!
# Ground terms

Ground terms are literals, constants and applications of data symbols.  Which of them a position
accepts, and which of them belong to a sort, follows from the canonical forms of the table
(`Table.Admits`, `Table.HasSort`).

## Strategy

* A position is asked for integers through its base sorts and its ranges, so the tests of a position
  are first read as statements about integers (`AcceptedValues.hasInteger_iff`).
* The tests for ranges and base sorts are right: a position that passes them accepts every integer
  of the range (`AcceptedValues.hasInteger_of_acceptsRange`) and every number of the base sorts
  (`AcceptedValues.hasInteger_of_acceptsBase`).  Joining ranges neither adds nor loses integers.
-/

namespace ManySorted

/-- A finite ground term. -/
inductive Term where
  | integer (value : Int)
  /-- A number that is not written as an integer. -/
  | fraction (value : Rat)
  | string (value : Name)
  | constant (symbol : SymbolId)
  | data (symbol : SymbolId) (arguments : List Term)

/-- Induction over a term, with the arguments taken as members of a list. -/
@[induction_eliminator]
theorem Term.induct {motive : Term → Prop} (integer : ∀ n, motive (.integer n))
    (fraction : ∀ q, motive (.fraction q)) (string : ∀ s, motive (.string s))
    (constant : ∀ c, motive (.constant c))
    (data : ∀ d arguments, (∀ x ∈ arguments, motive x) → motive (.data d arguments)) :
    ∀ x, motive x := by
  intro x
  refine @Term.rec motive (fun arguments => ∀ x ∈ arguments, motive x) integer fraction string
    constant data ?_ ?_ x
  · intro x hx
    exact absurd hx List.not_mem_nil
  · intro head rest hhead hrest x hx
    rcases List.mem_cons.1 hx with rfl | hx
    · exact hhead
    · exact hrest x hx

/-- Whether an integer belongs to a base sort. -/
def BaseSort.HasInteger : BaseSort → Int → Prop
  | natural, n => 0 ≤ n
  | posInteger, n => 0 < n
  | negInteger, n => n < 0
  | integer, _ | real, _ => True
  | string, _ | boolean, _ => False

namespace AcceptedValues

/-- Whether an integer is accepted: it lies in a range or belongs to a base sort. -/
def HasInteger (v : AcceptedValues) (n : Int) : Prop :=
  (∃ r ∈ v.ranges, r.low ≤ n ∧ n ≤ r.high) ∨ ∃ b, v.base.contains b = true ∧ b.HasInteger n

/-- Whether a string is accepted. -/
def HasString (v : AcceptedValues) (s : Name) : Prop :=
  .string s ∈ v.constants ∨ v.base.string = true

/-- Whether a constant is accepted: it is listed, or it is a truth value. -/
def HasConstant (v : AcceptedValues) (t : Table) (c : SymbolId) : Prop :=
  .symbol c ∈ v.constants ∨ v.base.boolean = true ∧ ∃ value, t.kindOf c = .baseConstant value

end AcceptedValues

namespace Table

mutual

/-- Whether a term is accepted by a position. -/
def Admits (t : Table) (v : AcceptedValues) : Term → Prop
  | .integer n => v.HasInteger n
  | .fraction _ => v.base.real = true
  | .string s => v.HasString s
  | .constant c => v.HasConstant t c
  | .data d arguments => ∃ s ∈ v.sorts, t.dataOf? s = some d ∧
      ∃ form, (t.symbolAt s).canonical = some form ∧ AdmitsAll t form.positions arguments

/-- Whether each of some terms is accepted by its position. -/
def AdmitsAll (t : Table) (positions : List AcceptedValues) : List Term → Prop
  | [] => positions = []
  | x :: rest => ∃ v others, positions = v :: others ∧ Admits t v x ∧ AdmitsAll t others rest

end

/-- Whether a term is of a sort: its symbol is the data symbol of the sort, and the canonical form
of the sort accepts its arguments. -/
def HasSort (t : Table) (s : SymbolId) : Term → Prop
  | .data d arguments => t.dataOf? s = some d ∧
      ∃ form, (t.symbolAt s).canonical = some form ∧ t.AdmitsAll form.positions arguments
  | _ => False

variable {t : Table} {v : AcceptedValues} {s d : SymbolId} {x : Term} {arguments : List Term}

theorem admits_data : t.Admits v (.data d arguments) ↔
    ∃ s ∈ v.sorts, t.HasSort s (.data d arguments) := Iff.rfl

/-- The arguments are accepted one by one. -/
theorem admitsAll_iff {positions : List AcceptedValues} :
    t.AdmitsAll positions arguments ↔ List.Forall₂ (fun v x => t.Admits v x) positions
      arguments := by
  induction arguments generalizing positions with
  | nil =>
      rw [AdmitsAll]
      constructor
      · rintro rfl
        exact .nil
      · rintro ⟨⟩
        rfl
  | cons x rest ih =>
      rw [AdmitsAll]
      constructor
      · rintro ⟨v, others, rfl, hx, hrest⟩
        exact .cons hx (ih.1 hrest)
      · rintro (_ | ⟨hx, hrest⟩)
        exact ⟨_, _, rfl, hx, ih.2 hrest⟩

theorem HasSort.exists_data (h : t.HasSort s x) : ∃ d arguments, x = .data d arguments := by
  cases x with
  | data d arguments => exact ⟨d, arguments, rfl⟩
  | _ => exact h.elim

end Table

/-- Whether an integer lies in a range. -/
def IntRange.Has (r : IntRange) (n : Int) : Prop := r.low ≤ n ∧ n ≤ r.high

/-- The integers of a stretch. -/
def Stretch.Has : Stretch → Int → Prop
  | .negatives, n => n < 0
  | .naturals, n => 0 ≤ n
  | .positives, n => 0 < n

/-- Inserting a range adds its integers and no others. -/
theorem IntRange.exists_mem_insert {r : IntRange} {ranges : List IntRange} {n : Int} :
    (∃ q ∈ insert r ranges, q.Has n) ↔ r.Has n ∨ ∃ q ∈ ranges, q.Has n := by
  induction ranges generalizing r with
  | nil => simp [insert]
  | cons s rest ih =>
      unfold insert
      split
      · simp
      · split
        · simp only [List.mem_cons, exists_eq_or_imp, ih]
          exact or_left_comm
        · next hright hleft =>
            -- ranges that overlap or touch leave no gap below their hull
            have hhull : (r.hull s).Has n ↔ r.Has n ∨ s.Has n := by
              simp only [Has, hull]
              omega
            simp only [List.mem_cons, exists_eq_or_imp, ih, hhull]
            exact or_assoc

theorem Stretch.has_of_window {stretch : Stretch} {low high n : Int}
    (h : (stretch.window low high).Has n) : stretch.Has n := by
  cases stretch <;> simp only [window, IntRange.Has, Has] at h ⊢ <;> omega

namespace BaseSortSet

/-- The stretches of a set of base sorts hold its integers. -/
theorem exists_stretch_iff {base : BaseSortSet} {n : Int} :
    (∃ stretch ∈ base.stretches, stretch.Has n) ↔
      ∃ b, base.contains b = true ∧ b.HasInteger n := by
  have hsorts : (∃ b, base.contains b = true ∧ b.HasInteger n) ↔
      (base.natural = true ∧ 0 ≤ n) ∨ (base.posInteger = true ∧ 0 < n) ∨
        (base.negInteger = true ∧ n < 0) ∨ base.integer = true ∨ base.real = true := by
    constructor
    · rintro ⟨b, hb, hn⟩
      cases b <;> simp_all [contains, BaseSort.HasInteger]
    · rintro (⟨hb, hn⟩ | ⟨hb, hn⟩ | ⟨hb, hn⟩ | hb | hb)
      · exact ⟨.natural, hb, hn⟩
      · exact ⟨.posInteger, hb, hn⟩
      · exact ⟨.negInteger, hb, hn⟩
      · exact ⟨.integer, hb, trivial⟩
      · exact ⟨.real, hb, trivial⟩
  rw [hsorts]
  obtain ⟨natural, posInteger, negInteger, integer, real, _, _⟩ := base
  cases natural <;> cases posInteger <;> cases negInteger <;> cases integer <;> cases real <;>
    simp [stretches, closure, Stretch.Has] <;> omega

end BaseSortSet

namespace AcceptedValues

variable {v w : AcceptedValues} {n low high : Int}

theorem hasInteger_iff : v.HasInteger n ↔
    (∃ r ∈ v.ranges, r.Has n) ∨ ∃ stretch ∈ v.base.stretches, stretch.Has n := by
  rw [BaseSortSet.exists_stretch_iff]
  rfl

/-- A range that passes the test is accepted. -/
theorem hasInteger_of_acceptsRange (h : v.acceptsRange low high = true) (hlow : low ≤ n)
    (hhigh : n ≤ high) : v.HasInteger n := by
  have hcover : ∀ (stretches : List Stretch) (ranges : List IntRange),
      (∃ r ∈ stretches.foldl (fun ranges s => IntRange.insert (s.window low high) ranges) ranges,
        r.Has n) → (∃ r ∈ ranges, r.Has n) ∨ ∃ stretch ∈ stretches, stretch.Has n := by
    intro stretches
    induction stretches with
    | nil => exact fun _ h => .inl h
    | cons stretch rest ih =>
        intro ranges h
        rcases ih _ h with h | ⟨other, hother, hn⟩
        · rcases IntRange.exists_mem_insert.1 h with hn | h
          · exact .inr ⟨stretch, List.mem_cons_self, Stretch.has_of_window hn⟩
          · exact .inl h
        · exact .inr ⟨other, List.mem_cons_of_mem _ hother, hn⟩
  simp only [acceptsRange, Bool.or_eq_true, decide_eq_true_eq, List.any_eq_true,
    Bool.and_eq_true] at h
  rcases h with h | ⟨r, hr, hrlow, hrhigh⟩
  · omega
  · exact hasInteger_iff.2 (hcover _ _ ⟨r, hr, Int.le_trans hrlow hlow, Int.le_trans hhigh hrhigh⟩)

theorem hasInteger_of_acceptsStretch {stretch : Stretch} (h : v.acceptsStretch stretch = true)
    (hn : stretch.Has n) : v.HasInteger n := by
  have hbase : ∀ {b : BaseSort}, v.base.contains b = true → b.HasInteger n → v.HasInteger n :=
    fun hb hn => .inr ⟨_, hb, hn⟩
  cases stretch with
  | negatives =>
      simp only [acceptsStretch, BaseSortSet.closure, Bool.or_eq_true] at h
      rcases h with h | h | h
      · exact hbase (b := .negInteger) h hn
      · exact hbase (b := .integer) h trivial
      · exact hbase (b := .real) h trivial
  | positives =>
      simp only [acceptsStretch, BaseSortSet.closure, Bool.or_eq_true] at h
      rcases h with h | h | h | h
      · exact hbase (b := .posInteger) h hn
      · exact hbase (b := .natural) h (Int.le_of_lt hn)
      · exact hbase (b := .integer) h trivial
      · exact hbase (b := .real) h trivial
  | naturals =>
      simp only [acceptsStretch, BaseSortSet.closure, Bool.or_eq_true, Bool.and_eq_true,
        List.any_eq_true] at h
      have hnatural : v.base.natural = true → v.HasInteger n := fun h => hbase (b := .natural) h hn
      have hinteger : v.base.integer = true → v.HasInteger n :=
        fun h => hbase (b := .integer) h trivial
      have hreal : v.base.real = true → v.HasInteger n := fun h => hbase (b := .real) h trivial
      rcases h with (h | h | h) | ⟨h | h | h | h, r, hr, hzero⟩
      · exact hnatural h
      · exact hinteger h
      · exact hreal h
      · -- the positive integers and a literal zero
        rcases Int.lt_or_eq_of_le hn with hpos | rfl
        · exact hbase (b := .posInteger) h hpos
        · simp only [IntRange.contains, Bool.and_eq_true, decide_eq_true_eq] at hzero
          exact .inl ⟨r, hr, hzero⟩
      · exact hnatural h
      · exact hinteger h
      · exact hreal h

/-- Base sorts that pass the test are accepted. -/
theorem hasInteger_of_acceptsBase {base : BaseSortSet} (h : v.acceptsBase base = true)
    {b : BaseSort} (hb : base.contains b = true) (hn : b.HasInteger n) : v.HasInteger n := by
  obtain ⟨stretch, hstretch, hn⟩ := BaseSortSet.exists_stretch_iff.2 ⟨b, hb, hn⟩
  simp only [acceptsBase, Bool.and_eq_true, List.all_eq_true] at h
  exact hasInteger_of_acceptsStretch (h.2 stretch hstretch) hn

/-- The base sorts of values that are no integers are there themselves. -/
theorem contains_of_acceptsBase {base : BaseSortSet} (h : v.acceptsBase base = true) :
    (base.real = true → v.base.real = true) ∧ (base.string = true → v.base.string = true) ∧
      (base.boolean = true → v.base.boolean = true) := by
  simp only [acceptsBase, Bool.and_eq_true, BaseSortSet.subset, beq_iff_eq,
    BaseSortSet.inter, BaseSortSet.nonInteger, BaseSortSet.closure, BaseSortSet.mk.injEq] at h
  obtain ⟨⟨_, _, _, _, hreal, hstring, hboolean⟩, _⟩ := h
  simp only [Bool.and_true] at hreal hstring hboolean
  refine ⟨fun h => ?_, fun h => ?_, fun h => ?_⟩
  · simpa [h] using hreal
  · simpa [h] using hstring
  · simpa [h] using hboolean

end AcceptedValues

end ManySorted
