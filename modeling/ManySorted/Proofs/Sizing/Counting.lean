import ManySorted.Proofs.Accepted.Parts
import ManySorted.Proofs.Sizing.Imported
import ManySorted.Proofs.Term
import Mathlib.Data.Int.Interval
import Mathlib.Data.Set.Card.Arithmetic

/-!
# Counting terms

The values at a position that are no data are listed constants, truth values and the integers of its
ranges (`Table.groundTerms_eq`).  Their number never exceeds what is counted for them, and is just
that unless a truth value is listed where all of them are accepted anyway
(`Table.WellFormed.encard_groundTerms`).  Data at a position belongs to one of its sorts, and the
terms of a sort are its symbol with an accepted value at each position, so sums and products count
the terms of a sort (`Table.Regular.encard_terms`).

## Strategy

* **Counting.**  What belongs to one of several sets is counted in one of them
  (`encard_exists_mem_le`), and just once if the sets are disjoint (`encard_exists_mem`).  Lists
  with one member of each are counted by the product (`encard_forall₂_mem`).
* **Values that are no data** are literals, listed constants and truth values
  (`Table.groundTerms_eq`).  Each of these sets is counted by what is counted for it, and they are
  disjoint unless a truth value is listed where all of them are accepted anyway.
* **Data.**  A term has one sort, so the terms of a position are no data or belong to just one of
  its sorts (`Table.Regular.encard_admitted`), and those of a sort are lists of arguments.
-/

namespace ManySorted

/-! ## Counting -/

section

variable {α β : Type*}

/-- What belongs to one of several sets is counted in one of them. -/
theorem encard_exists_mem_le (l : List β) (S : β → Set α) :
    {a | ∃ b ∈ l, a ∈ S b}.encard ≤ (l.map fun b => (S b).encard).sum := by
  induction l with
  | nil => simp
  | cons b rest ih =>
      have hcons : {a | ∃ b' ∈ b :: rest, a ∈ S b'} = S b ∪ {a | ∃ b' ∈ rest, a ∈ S b'} := by
        ext a
        simp
      rw [hcons, List.map_cons, List.sum_cons]
      exact (Set.encard_union_le _ _).trans (add_le_add_right ih _)

/-- If nothing belongs to two of the sets, it is counted just once. -/
theorem encard_exists_mem {l : List β} {S : β → Set α}
    (hapart : l.Pairwise fun b c => ∀ a ∈ S b, a ∉ S c) :
    {a | ∃ b ∈ l, a ∈ S b}.encard = (l.map fun b => (S b).encard).sum := by
  induction l with
  | nil => simp
  | cons b rest ih =>
      obtain ⟨hb, hrest⟩ := List.pairwise_cons.1 hapart
      have hcons : {a | ∃ b' ∈ b :: rest, a ∈ S b'} = S b ∪ {a | ∃ b' ∈ rest, a ∈ S b'} := by
        ext a
        simp
      have hdisjoint : Disjoint (S b) {a | ∃ b' ∈ rest, a ∈ S b'} :=
        Set.disjoint_left.2 fun a ha ⟨b', hb', ha'⟩ => hb b' hb' a ha ha'
      rw [hcons, Set.encard_union_eq hdisjoint, ih hrest, List.map_cons, List.sum_cons]

/-- The lists with one member of each of several sets are counted by their product. -/
theorem encard_forall₂_mem (sets : List (Set α)) :
    {l : List α | List.Forall₂ (fun a S => a ∈ S) l sets}.encard =
      (sets.map Set.encard).prod := by
  induction sets with
  | nil =>
      have hnil : {l : List α | List.Forall₂ (fun (a : α) (S : Set α) => a ∈ S) l []} = {[]} := by
        ext l
        simp
      rw [hnil, Set.encard_singleton]
      rfl
  | cons S rest ih =>
      have hcons : {l : List α | List.Forall₂ (fun a S => a ∈ S) l (S :: rest)} =
          (fun p : α × List α => p.1 :: p.2) ''
            (S ×ˢ {l : List α | List.Forall₂ (fun a S => a ∈ S) l rest}) := by
        ext l
        constructor
        · rintro (_ | ⟨ha, hrest⟩)
          exact ⟨(_, _), ⟨ha, hrest⟩, rfl⟩
        · rintro ⟨⟨a, l⟩, ⟨ha, hrest⟩, rfl⟩
          exact .cons ha hrest
      have hinjective : Function.Injective fun p : α × List α => p.1 :: p.2 := by
        rintro ⟨a, l⟩ ⟨a', l'⟩ heq
        cases heq
        rfl
      rw [hcons, hinjective.encard_image, Set.encard_prod, ih, List.map_cons, List.prod_cons]

end

/-- The integers of a range are counted by its size. -/
theorem IntRange.encard_integers (r : IntRange) :
    {n | r.low ≤ n ∧ n ≤ r.high}.encard = r.size := by
  have hset : {n | r.low ≤ n ∧ n ≤ r.high} = ↑(Finset.Icc r.low r.high) := by
    ext n
    rw [Finset.mem_coe, Finset.mem_Icc]
    rfl
  rw [hset, Set.encard_coe_eq_coe_finsetCard, Int.card_Icc, IntRange.size]
  exact congrArg _ (congrArg Int.toNat (by omega))

namespace Table

variable {names : Interner} {t : Table} {s d : SymbolId} {v : AcceptedValues}

/-- There is one symbol for a truth value. -/
theorem Regular.eq_of_baseConstant (h : t.Regular names) {x y : SymbolId} {value : BaseConstant}
    (hx : t.kindOf x = .baseConstant value) (hy : t.kindOf y = .baseConstant value) : x = y := by
  have hholds : ∀ {x}, t.kindOf x = .baseConstant value → t.Holds x := fun hx =>
    IsConstant.holds (by rw [IsConstant, hx]; rfl)
  have hhome : ∀ {x}, t.kindOf x = .baseConstant value → (t.symbolAt x).home = .root := fun hx =>
    h.rooted (hholds hx) (by rw [hx]; rfl)
  have htext : ∀ {x}, t.kindOf x = .baseConstant value →
      names.text (t.symbolAt x).name = value.name := fun hx => by
    rw [(h.spelled (hholds hx) (by rw [hx]; rfl)).1, hx]
    rfl
  have hnamed := h.families.isEmpty_eq_false (hholds hx) (by rw [dataOf?, hx])
  exact h.arena.eq_of_home_of_name (hholds hx) (hholds hy) hnamed ((hhome hx).trans (hhome hy).symm)
    (h.proper.text_inj (h.families.knows (hholds hx)) (h.families.knows (hholds hy))
      ((htext hx).trans (htext hy).symm))

/-! ## Values that are no data -/

/-- The accepted terms that are no data. -/
def groundTerms (t : Table) (v : AcceptedValues) : Set Term :=
  {a | t.Admits v a ∧ ∀ d arguments, a ≠ .data d arguments}

/-- The term of a constant. -/
def constantTerm : ConstantValue → Term
  | .string value => .string value
  | .symbol c => .constant c

theorem constantTerm_injective : Function.Injective constantTerm := by
  rintro (a | a) (b | b) heq <;> cases heq <;> rfl

/-- The terms of the constants that are listed. -/
def listedTerms (v : AcceptedValues) : Set Term :=
  {a | ∃ c ∈ v.constants.toList, a ∈ ({constantTerm c} : Set Term)}

/-- The terms of the truth values, if all of them are accepted. -/
def truthTerms (t : Table) (v : AcceptedValues) : Set Term :=
  {a | ∃ b ∈ if v.base.boolean then [BaseConstant.true, .false] else [],
    a ∈ Term.constant '' {c | t.kindOf c = .baseConstant b}}

/-- The terms of the integers that lie in ranges. -/
def rangeTerms (v : AcceptedValues) : Set Term :=
  {a | ∃ r ∈ v.ranges, a ∈ Term.integer '' {n | r.low ≤ n ∧ n ≤ r.high}}

/-- Whether the base sorts that are accepted have finitely many values. -/
def BoundedBase (v : AcceptedValues) : Prop := ∀ b, v.base.contains b = true → b = .boolean

theorem boundedBase_iff : BoundedBase v ↔ { v.base with boolean := false }.isEmpty = true := by
  constructor
  · intro h
    have hfalse : ∀ b ≠ BaseSort.boolean, v.base.contains b = false := fun b hb =>
      Bool.eq_false_iff.2 fun hcontains => hb (h b hcontains)
    refine beq_iff_eq.2 (BaseSortSet.ext_of_contains fun b => ?_)
    have hb := hfalse b
    cases b with
    | boolean => rfl
    | _ => exact hb (by decide)
  · intro h b hb
    have hempty : ({ v.base with boolean := false } : BaseSortSet) = ∅ := beq_iff_eq.1 h
    have hcontains := congrArg (fun base : BaseSortSet => base.contains b) hempty
    cases b <;> first | rfl | exact absurd (hb.symm.trans hcontains) (by decide)

theorem groundTerms_eq (t : Table) (hbase : BoundedBase v) :
    t.groundTerms v = listedTerms v ∪ t.truthTerms v ∪ rangeTerms v := by
  have hnone : ∀ b ≠ BaseSort.boolean, v.base.contains b = false := fun b hb =>
    Bool.eq_false_iff.2 fun hcontains => hb (hbase b hcontains)
  ext a
  constructor
  · rintro ⟨hadmits, hdata⟩
    cases a with
    | integer n =>
        rw [Admits] at hadmits
        rcases hadmits with ⟨r, hr, hn⟩ | ⟨b, hb, hn⟩
        · exact .inr ⟨r, hr, n, hn, rfl⟩
        · cases hbase b hb
          exact hn.elim
    | fraction q =>
        rw [Admits] at hadmits
        cases (hnone .real (by decide)).symm.trans hadmits
    | string value =>
        rw [Admits] at hadmits
        rcases hadmits with hlisted | hstring
        · exact .inl (.inl ⟨_, hlisted, rfl⟩)
        · cases (hnone .string (by decide)).symm.trans hstring
    | constant c =>
        rw [Admits] at hadmits
        rcases hadmits with hlisted | ⟨hboolean, value, hvalue⟩
        · exact .inl (.inl ⟨_, hlisted, rfl⟩)
        · refine .inl (.inr ⟨value, ?_, c, hvalue, rfl⟩)
          rw [if_pos hboolean]
          cases value <;> simp
    | data d arguments => exact absurd rfl (hdata d arguments)
  · rintro ((⟨c, hc, rfl⟩ | ⟨value, hvalue, c, hc, rfl⟩) | ⟨r, hr, n, hn, rfl⟩)
    · refine ⟨?_, fun d arguments heq => ?_⟩
      · cases c <;> exact .inl hc
      · cases c <;> cases heq
    · refine ⟨.inr ⟨?_, value, hc⟩, fun d arguments heq => by cases heq⟩
      by_contra hnot
      rw [if_neg hnot] at hvalue
      exact List.not_mem_nil hvalue
    · exact ⟨.inl ⟨r, hr, hn⟩, fun d arguments heq => by cases heq⟩

/-- No more is accepted than is counted. -/
theorem Regular.encard_groundTerms_le (h : t.Regular names) :
    (t.groundTerms v).encard ≤ v.groundAmount := by
  unfold AcceptedValues.groundAmount
  cases hcount : v.groundCount with
  | none => exact le_top
  | some n =>
      obtain ⟨hfinite, -, rfl⟩ := AcceptedValues.groundCount_eq_some.1 hcount
      rw [t.groundTerms_eq (boundedBase_iff.2 hfinite)]
      refine (Set.encard_union_le _ _).trans ?_
      change _ ≤ (v.groundSum : ℕ∞)
      rw [AcceptedValues.groundSum, Nat.cast_add, Nat.cast_add]
      refine add_le_add ((Set.encard_union_le _ _).trans (add_le_add ?_ ?_)) ?_
      · refine (encard_exists_mem_le _ _).trans (le_of_eq ?_)
        simp only [Set.encard_singleton, List.map_const', List.sum_replicate, nsmul_eq_mul, mul_one]
        rfl
      · refine (encard_exists_mem_le _ _).trans ?_
        have hone : ∀ b, (Term.constant '' {c | t.kindOf c = .baseConstant b}).encard ≤ 1 := by
          intro b
          refine Set.encard_le_one_iff.2 ?_
          rintro _ _ ⟨c, hc, rfl⟩ ⟨c', hc', rfl⟩
          rw [h.eq_of_baseConstant hc hc']
        split
        · simpa [one_add_one_eq_two] using add_le_add (hone .true) (hone .false)
        · exact le_rfl
      · refine (encard_exists_mem_le _ _).trans ?_
        rw [Nat.cast_list_sum, List.map_map]
        refine List.sum_le_sum fun r _ => ?_
        exact (Set.encard_image_le _ _).trans (le_of_eq r.encard_integers)

/-- No truth value is listed where all of them are accepted anyway. -/
def TruthsApart (t : Table) (v : AcceptedValues) : Prop :=
  v.base.boolean = true → ∀ c value, t.kindOf c = .baseConstant value → .symbol c ∉ v.constants

theorem encard_listedTerms (hv : v.Normal) : (listedTerms v).encard = v.constants.size := by
  have hapart : v.constants.toList.Pairwise fun c c' =>
      ∀ a ∈ ({constantTerm c} : Set Term), a ∉ ({constantTerm c'} : Set Term) :=
    hv.constants.nodup.imp fun hne _ ha ha' => hne (constantTerm_injective (ha.symm.trans ha'))
  rw [listedTerms, encard_exists_mem hapart]
  simp only [Set.encard_singleton, List.map_const', List.sum_replicate, nsmul_eq_mul, mul_one]
  rfl

theorem WellFormed.encard_truthTerms (h : t.WellFormed names) :
    (t.truthTerms v).encard = if v.base.boolean then 2 else 0 := by
  have hone : ∀ b, (Term.constant '' {c | t.kindOf c = .baseConstant b}).encard = 1 := by
    intro b
    obtain ⟨c, -, -, hc⟩ := h.present (show (SymbolKind.baseConstant b).isBase = true from rfl)
    refine Set.encard_eq_one.2 ⟨.constant c, Set.eq_singleton_iff_unique_mem.2 ⟨⟨c, hc, rfl⟩, ?_⟩⟩
    rintro _ ⟨c', hc', rfl⟩
    rw [h.eq_of_baseConstant hc' hc]
  have hapart : (if v.base.boolean then [BaseConstant.true, .false] else []).Pairwise fun b b' =>
      ∀ a ∈ Term.constant '' {c | t.kindOf c = .baseConstant b},
        a ∉ Term.constant '' {c | t.kindOf c = .baseConstant b'} := by
    split
    · refine List.pairwise_pair.2 ?_
      rintro _ ⟨c, hc, rfl⟩ ⟨c', hc', heq⟩
      cases heq
      cases hc.symm.trans hc'
    · exact .nil
  rw [truthTerms, encard_exists_mem hapart]
  split
  · simp [hone, one_add_one_eq_two]
  · rfl

theorem encard_rangeTerms (hv : v.Normal) :
    (rangeTerms v).encard = (v.ranges.map IntRange.size).sum := by
  have hinteger : Function.Injective Term.integer := fun _ _ => Term.integer.inj
  have hapart : v.ranges.Pairwise fun r r' =>
      ∀ a ∈ Term.integer '' {n | r.low ≤ n ∧ n ≤ r.high},
        a ∉ Term.integer '' {n | r'.low ≤ n ∧ n ≤ r'.high} := by
    refine hv.ranges.gap.imp fun {r r'} hgap => ?_
    rintro _ ⟨n, hn, rfl⟩ ⟨n', hn', heq⟩
    cases heq
    have := hn.2
    have := hn'.1
    omega
  rw [rangeTerms, encard_exists_mem hapart, Nat.cast_list_sum, List.map_map]
  refine congrArg List.sum (List.map_congr_left fun r _ => ?_)
  rw [hinteger.encard_image, r.encard_integers]
  rfl

/-- What is accepted is counted just once. -/
theorem WellFormed.encard_groundTerms (h : t.WellFormed names) (hv : v.Normal)
    (hbase : BoundedBase v) (hapart : t.TruthsApart v) :
    (t.groundTerms v).encard = v.groundSum := by
  have hlisted : Disjoint (listedTerms v) (t.truthTerms v) := by
    refine Set.disjoint_left.2 ?_
    rintro _ ⟨c, hc, rfl⟩ ⟨b, hb, c', hc', heq⟩
    cases c with
    | string value => cases heq
    | symbol c =>
        cases heq
        split at hb
        · next hboolean => exact hapart hboolean _ b hc' hc
        · exact List.not_mem_nil hb
  have hranges : Disjoint (listedTerms v ∪ t.truthTerms v) (rangeTerms v) := by
    refine Set.disjoint_left.2 ?_
    rintro _ (⟨c, -, rfl⟩ | ⟨b, -, c, -, rfl⟩) ⟨r, -, n, -, heq⟩
    · cases c <;> cases heq
    · cases heq
  rw [t.groundTerms_eq hbase, Set.encard_union_eq hranges, Set.encard_union_eq hlisted,
    encard_listedTerms hv, h.encard_truthTerms, encard_rangeTerms hv, AcceptedValues.groundSum,
    Nat.cast_add, Nat.cast_add]
  split <;> rfl

/-! ## Data -/

/-- The terms of a sort. -/
def terms (t : Table) (s : SymbolId) : Set Term := {x | t.HasSort s x}

theorem HasSort.exists_form {x : Term} (h : t.HasSort s x) :
    ∃ form, (t.symbolAt s).canonical = some form := by
  obtain ⟨d, arguments, rfl⟩ := h.exists_data
  obtain ⟨-, form, hform, -⟩ := h
  exact ⟨form, hform⟩

theorem terms_eq_empty (hform : (t.symbolAt s).canonical = none) : t.terms s = ∅ := by
  refine Set.eq_empty_of_forall_notMem fun x hx => ?_
  obtain ⟨form, hform'⟩ := HasSort.exists_form hx
  cases hform.symm.trans hform'

/-- The terms that a position accepts are no data or belong to just one of its sorts. -/
theorem Regular.encard_admitted (h : t.Regular names) (hv : v.Normal) :
    {a | t.Admits v a}.encard =
      (t.groundTerms v).encard + (v.sorts.toList.map fun s => (t.terms s).encard).sum := by
  have hsplit : {a | t.Admits v a} =
      t.groundTerms v ∪ {a | ∃ s ∈ v.sorts.toList, a ∈ t.terms s} := by
    ext a
    constructor
    · intro ha
      by_cases hdata : ∃ d arguments, a = .data d arguments
      · obtain ⟨d, arguments, rfl⟩ := hdata
        exact .inr (admits_data.1 ha)
      · exact .inl ⟨ha, fun d arguments heq => hdata ⟨d, arguments, heq⟩⟩
    · rintro (ha | ⟨s, hs, ha⟩)
      · exact ha.1
      · obtain ⟨d, arguments, rfl⟩ := HasSort.exists_data ha
        exact admits_data.2 ⟨s, hs, ha⟩
  have hground : Disjoint (t.groundTerms v) {a | ∃ s ∈ v.sorts.toList, a ∈ t.terms s} := by
    refine Set.disjoint_left.2 ?_
    rintro a ⟨-, hnone⟩ ⟨s, -, ha⟩
    obtain ⟨d, arguments, rfl⟩ := HasSort.exists_data ha
    exact hnone d arguments rfl
  have hapart : v.sorts.toList.Pairwise fun s s' => ∀ a ∈ t.terms s, a ∉ t.terms s' := by
    refine hv.sorts.nodup.imp fun {s s'} hne a ha ha' => ?_
    obtain ⟨d, arguments, rfl⟩ := HasSort.exists_data ha
    exact hne (h.eq_of_dataOf? ha.1 ha'.1)
  rw [hsplit, Set.encard_union_eq hground, encard_exists_mem hapart]

/-- A term of a sort has an accepted value at each position. -/
theorem encard_terms {form : CanonicalForm} (hd : t.dataOf? s = some d)
    (hform : (t.symbolAt s).canonical = some form) :
    (t.terms s).encard = (form.positions.map fun v => {a | t.Admits v a}.encard).prod := by
  have himage : t.terms s = Term.data d ''
      {arguments | List.Forall₂ (fun a S => a ∈ S) arguments
        (form.positions.map fun v => {a | t.Admits v a})} := by
    have hadmits : ∀ arguments, t.AdmitsAll form.positions arguments ↔
        List.Forall₂ (fun a S => a ∈ S) arguments
          (form.positions.map fun v => {a | t.Admits v a}) := fun arguments => by
      rw [admitsAll_iff, List.forall₂_map_right_iff]
      exact ⟨List.Forall₂.flip, List.Forall₂.flip⟩
    ext x
    constructor
    · intro hx
      obtain ⟨d', arguments, rfl⟩ := HasSort.exists_data hx
      obtain ⟨hd', form', hform', hall⟩ := hx
      cases hd.symm.trans hd'
      cases hform.symm.trans hform'
      exact ⟨arguments, (hadmits arguments).1 hall, rfl⟩
    · rintro ⟨arguments, hall, rfl⟩
      exact ⟨hd, form, hform, (hadmits arguments).2 hall⟩
  have hinjective : Function.Injective (Term.data d) := fun _ _ heq => (Term.data.inj heq).2
  rw [himage, hinjective.encard_image, encard_forall₂_mem, List.map_map]
  rfl

end Table

end ManySorted
