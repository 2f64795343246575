import ManySorted.Proofs.Renaming
import ManySorted.Proofs.Term
import Mathlib.Data.List.Nodup

/-!
# The parts of a position

What a position accepts is put together from parts: integers, strings, constants, base sorts and
data sorts.  Values in normal form are determined by their parts (`AcceptedValues.Normal.ext`): sets
are ascending lists, and the ranges of integers keep a gap between them, so that they are the
maximal ranges of their union.  Everything that makes positions keeps them in normal form.

## Strategy

* **Ranges.**  Inserting a range joins it with those that it overlaps or touches, so the gaps stay
  (`IntRange.Apart.insert`).  Ranges that are apart are the maximal ranges of their union, hence
  determined by their integers (`IntRange.Apart.ext`).
* **Sets.**  They are ascending lists, which are determined by their members.
* **Normal forms.**  All that makes positions keeps them in normal form
  (`AcceptedValues.Normal.union`, `AcceptedValues.Normal.addRange`, `AcceptedValues.Normal.rename`),
  and values in normal form are determined by their parts (`AcceptedValues.Normal.ext`).
* **Renaming.**  If different symbols have different counterparts, no part is lost, and the numbers
  of constants and of ground values stay (`AcceptedValues.groundCount_rename`).
-/

namespace ManySorted

/-- A part of what a position accepts. -/
inductive Part where
  /-- An integer literal, or an integer of a range. -/
  | integer (value : Int)
  | string (value : Name)
  | constant (symbol : SymbolId)
  | base (sort : BaseSort)
  | sort (symbol : SymbolId)
deriving DecidableEq

/-- Replaces the symbol of a part, if it has one. -/
def Part.rename (f : SymbolId → SymbolId) : Part → Part
  | constant c => constant (f c)
  | sort s => sort (f s)
  | p => p

/-! ## Maximal ranges -/

namespace IntRange

variable {r s : IntRange} {l l' : List IntRange} {n : Int}

/-- The ranges are not empty, and each ends before there is a gap to the next. -/
structure Apart (l : List IntRange) : Prop where
  nonempty : ∀ r ∈ l, r.low ≤ r.high
  gap : l.Pairwise fun r s => r.high + 1 < s.low

theorem apart_nil : Apart [] := ⟨fun _ hr => absurd hr List.not_mem_nil, .nil⟩

theorem Apart.tail (h : Apart (r :: l)) : Apart l :=
  ⟨fun s hs => h.nonempty s (List.mem_cons_of_mem _ hs), (List.pairwise_cons.1 h.gap).2⟩

/-- The integers of later ranges lie above the gap. -/
theorem Apart.lt_of_has (h : Apart (r :: l)) (hn : ∃ q ∈ l, q.Has n) : r.high + 1 < n := by
  obtain ⟨q, hq, hn⟩ := hn
  exact Int.lt_of_lt_of_le ((List.pairwise_cons.1 h.gap).1 q hq) hn.1

/-- A range that is inserted before all others stays below them, also where it is joined with
some. -/
theorem le_low_of_mem_insert {bound : Int} (hr : bound < r.low)
    (hl : ∀ q ∈ l, bound < q.low) : ∀ q ∈ insert r l, bound < q.low := by
  induction l generalizing r with
  | nil =>
      intro q hq
      exact List.mem_singleton.1 hq ▸ hr
  | cons s rest ih =>
      have hs := hl s List.mem_cons_self
      have hrest : ∀ q ∈ rest, bound < q.low := fun q hq => hl q (List.mem_cons_of_mem _ hq)
      unfold insert
      split
      · exact List.forall_mem_cons.2 ⟨hr, hl⟩
      · split
        · exact List.forall_mem_cons.2 ⟨hs, ih hr hrest⟩
        · refine ih ?_ hrest
          change bound < min r.low s.low
          omega

/-- Inserting a range keeps the ranges apart. -/
theorem Apart.insert (h : Apart l) (hr : r.low ≤ r.high) : Apart (insert r l) := by
  refine ⟨fun q hq => low_le_high_of_mem_insert hr h.nonempty hq, ?_⟩
  induction l generalizing r with
  | nil => exact List.pairwise_singleton _ _
  | cons s rest ih =>
      obtain ⟨hgap, -⟩ := List.pairwise_cons.1 h.gap
      unfold IntRange.insert
      split
      · next hbelow =>
          refine List.pairwise_cons.2 ⟨List.forall_mem_cons.2 ⟨hbelow, fun q hq => ?_⟩, h.gap⟩
          have hs := h.nonempty s List.mem_cons_self
          have hq := hgap q hq
          omega
      · split
        · next habove =>
            exact List.pairwise_cons.2 ⟨le_low_of_mem_insert habove hgap, ih h.tail hr⟩
        · refine ih h.tail ?_
          change min r.low s.low ≤ max r.high s.high
          omega

/-- Ranges that are apart are determined by their integers. -/
theorem Apart.ext (h : Apart l) (h' : Apart l')
    (hsame : ∀ n, (∃ r ∈ l, r.Has n) ↔ ∃ r ∈ l', r.Has n) : l = l' := by
  induction l generalizing l' with
  | nil =>
      cases l' with
      | nil => rfl
      | cons s rest =>
          have hs := h'.nonempty s List.mem_cons_self
          obtain ⟨r, hr, -⟩ := (hsame s.low).2 ⟨s, List.mem_cons_self, Int.le_refl _, hs⟩
          exact absurd hr List.not_mem_nil
  | cons r rest ih =>
      have hr := h.nonempty r List.mem_cons_self
      cases l' with
      | nil =>
          obtain ⟨s, hs, -⟩ := (hsame r.low).1 ⟨r, List.mem_cons_self, Int.le_refl _, hr⟩
          exact absurd hs List.not_mem_nil
      | cons s rest' =>
          have hs := h'.nonempty s List.mem_cons_self
          -- an integer of either list lies in its first range or above the gap behind it
          have hsplit : ∀ n, (r.Has n ∨ ∃ q ∈ rest, q.Has n) ↔
              (s.Has n ∨ ∃ q ∈ rest', q.Has n) := by
            intro n
            simpa only [List.mem_cons, exists_eq_or_imp] using hsame n
          have habove : ∀ n, (∃ q ∈ rest, q.Has n) → r.high + 1 < n := fun n => h.lt_of_has
          have habove' : ∀ n, (∃ q ∈ rest', q.Has n) → s.high + 1 < n := fun n => h'.lt_of_has
          have hlow : r.low = s.low := by
            have hle : s.low ≤ r.low := by
              rcases (hsplit r.low).1 (.inl ⟨Int.le_refl _, hr⟩) with hn | hn
              · exact hn.1
              · have := habove' _ hn
                omega
            have hge : r.low ≤ s.low := by
              rcases (hsplit s.low).2 (.inl ⟨Int.le_refl _, hs⟩) with hn | hn
              · exact hn.1
              · have := habove _ hn
                omega
            omega
          have hhigh : r.high = s.high := by
            by_contra hne
            rcases Int.lt_or_gt_of_ne hne with hlt | hgt
            · rcases (hsplit (r.high + 1)).2 (.inl ⟨by omega, by omega⟩) with hn | hn
              · have := hn.2
                omega
              · have := habove _ hn
                omega
            · rcases (hsplit (s.high + 1)).1 (.inl ⟨by omega, by omega⟩) with hn | hn
              · have := hn.2
                omega
              · have := habove' _ hn
                omega
          have hhead : r = s := by
            cases r
            cases s
            exact congrArg₂ _ hlow hhigh
          have htail : ∀ n, (∃ q ∈ rest, q.Has n) ↔ ∃ q ∈ rest', q.Has n := by
            intro n
            constructor
            · intro hn
              have hlt := habove n hn
              rcases (hsplit n).1 (.inr hn) with hs' | hn'
              · have := hs'.2
                omega
              · exact hn'
            · intro hn
              have hlt := habove' n hn
              rcases (hsplit n).2 (.inr hn) with hr' | hn'
              · have := hr'.2
                omega
              · exact hn'
          rw [hhead, ih h.tail h'.tail htail]

end IntRange

/-! ## Parts of values -/

theorem BaseSortSet.ext_of_contains {s t : BaseSortSet} (h : ∀ b, s.contains b = t.contains b) :
    s = t := by
  have hnatural := h .natural
  have hpos := h .posInteger
  have hneg := h .negInteger
  have hinteger := h .integer
  have hreal := h .real
  have hstring := h .string
  have hboolean := h .boolean
  simp only [contains] at hnatural hpos hneg hinteger hreal hstring hboolean
  cases s
  cases t
  simp_all

theorem IntRange.exists_mem_foldl_insert {news ranges : List IntRange} {n : Int} :
    (∃ r ∈ news.foldl (fun ranges r => IntRange.insert r ranges) ranges, r.Has n) ↔
      (∃ r ∈ ranges, r.Has n) ∨ ∃ r ∈ news, r.Has n := by
  induction news generalizing ranges with
  | nil => simp
  | cons r rest ih =>
      rw [List.foldl_cons, ih, IntRange.exists_mem_insert]
      simp only [List.mem_cons, exists_eq_or_imp]
      exact or_assoc.trans or_left_comm

namespace AcceptedValues

variable {v w : AcceptedValues} {p : Part}

/-- Whether the values have a part. -/
def HasPart (v : AcceptedValues) : Part → Prop
  | .integer n => ∃ r ∈ v.ranges, r.Has n
  | .string s => .string s ∈ v.constants
  | .constant c => .symbol c ∈ v.constants
  | .base b => v.base.contains b = true
  | .sort s => s ∈ v.sorts

theorem not_hasPart_empty : ¬ (∅ : AcceptedValues).HasPart p := by
  cases p with
  | integer n =>
      rintro ⟨r, hr, -⟩
      exact List.not_mem_nil hr
  | string s => exact OrderedSet.not_mem_empty _
  | constant c => exact OrderedSet.not_mem_empty _
  | base b => cases b <;> exact Bool.false_ne_true
  | sort s => exact OrderedSet.not_mem_empty _

theorem hasPart_union : (v.union w).HasPart p ↔ v.HasPart p ∨ w.HasPart p := by
  cases p with
  | integer n => exact IntRange.exists_mem_foldl_insert
  | string s => exact OrderedSet.mem_union
  | constant c => exact OrderedSet.mem_union
  | base b =>
      simp only [HasPart, union]
      cases b <;> exact Bool.or_eq_true_iff
  | sort s => exact OrderedSet.mem_union

/-- Renaming puts the new symbols in the place of the old ones. -/
theorem hasPart_rename {f : SymbolId → SymbolId} :
    (v.rename f).HasPart p ↔ ∃ q, v.HasPart q ∧ q.rename f = p := by
  constructor
  · intro hp
    cases p with
    | integer n => exact ⟨.integer n, hp, rfl⟩
    | string s => exact ⟨.string s, string_mem_constants_mapIds.1 hp, rfl⟩
    | constant c =>
        obtain ⟨d, hd, hc⟩ := symbol_mem_constants_mapIds.1 hp
        exact ⟨.constant d, hd, congrArg Part.constant (Option.some.inj hc)⟩
    | base b => exact ⟨.base b, hp, rfl⟩
    | sort s =>
        obtain ⟨d, hd, hs⟩ := mem_sorts_mapIds.1 hp
        exact ⟨.sort d, hd, congrArg Part.sort (Option.some.inj hs)⟩
  · rintro ⟨q, hq, rfl⟩
    cases q with
    | integer n => exact hq
    | string s => exact string_mem_constants_mapIds.2 hq
    | constant c => exact symbol_mem_constants_mapIds.2 ⟨c, hq, rfl⟩
    | base b => exact hq
    | sort s => exact mem_sorts_mapIds.2 ⟨s, hq, rfl⟩

/-! ## Normal forms -/

/-- Sets are ascending, and ranges are apart. -/
structure Normal (v : AcceptedValues) : Prop where
  constants : v.constants.Sorted
  ranges : IntRange.Apart v.ranges
  sorts : v.sorts.Sorted

/-- Values in normal form are determined by their parts. -/
theorem Normal.ext (h : v.Normal) (h' : w.Normal) (hsame : ∀ p, v.HasPart p ↔ w.HasPart p) :
    v = w := by
  have hconstants : v.constants = w.constants := by
    refine OrderedSet.ext h.constants h'.constants fun c => ?_
    cases c with
    | string s => exact hsame (.string s)
    | symbol c => exact hsame (.constant c)
  have hranges : v.ranges = w.ranges := h.ranges.ext h'.ranges fun n => hsame (.integer n)
  have hbase : v.base = w.base := by
    refine BaseSortSet.ext_of_contains fun b => Bool.eq_iff_iff.2 (hsame (.base b))
  have hsorts : v.sorts = w.sorts := OrderedSet.ext h.sorts h'.sorts fun s => hsame (.sort s)
  exact (AcceptedValues.mk.injEq ..).mpr ⟨hconstants, hranges, hbase, hsorts⟩

theorem normal_empty : (∅ : AcceptedValues).Normal := ⟨.nil, IntRange.apart_nil, .nil⟩

theorem Normal.union (h : v.Normal) (h' : w.Normal) : (v.union w).Normal where
  constants := h.constants.foldl_insert _
  ranges := by
    have hall : ∀ news ranges : List IntRange, (∀ r ∈ news, r.low ≤ r.high) →
        IntRange.Apart ranges →
        IntRange.Apart (news.foldl (fun ranges r => IntRange.insert r ranges) ranges) := by
      intro news
      induction news with
      | nil => exact fun _ _ hranges => hranges
      | cons r rest ih =>
          intro ranges hnews hranges
          exact ih _ (fun q hq => hnews q (List.mem_cons_of_mem _ hq))
            (hranges.insert (hnews r List.mem_cons_self))
    exact hall _ _ h'.ranges.nonempty h.ranges
  sorts := h.sorts.foldl_insert _

theorem Normal.addSort (h : v.Normal) (s : SymbolId) : (v.addSort s).Normal :=
  { h with sorts := h.sorts.insert s }

theorem Normal.addConstant (h : v.Normal) (c : SymbolId) : (v.addConstant c).Normal :=
  { h with constants := h.constants.insert _ }

theorem Normal.addString (h : v.Normal) (s : Name) : (v.addString s).Normal :=
  { h with constants := h.constants.insert _ }

theorem Normal.addBase (h : v.Normal) (base : BaseSortSet) : (v.addBase base).Normal := { h with }

theorem Normal.addRange (h : v.Normal) (low high : Int) : (v.addRange low high).Normal := by
  unfold AcceptedValues.addRange
  split
  · next hle => exact { h with ranges := h.ranges.insert hle }
  · exact h

theorem Normal.rename (h : v.Normal) (f : SymbolId → SymbolId) : (v.rename f).Normal where
  constants := OrderedSet.sorted_ofList _
  ranges := h.ranges
  sorts := OrderedSet.sorted_ofList _

end AcceptedValues

/-! ## Renaming without loss -/

/-- The constant with its symbol renamed. -/
def ConstantValue.rename (f : SymbolId → SymbolId) : ConstantValue → ConstantValue
  | string value => string value
  | symbol c => symbol (f c)

namespace AcceptedValues

variable {f : SymbolId → SymbolId} {v : AcceptedValues}

/-- Different symbols of the values have different counterparts. -/
def InjectiveOn (f : SymbolId → SymbolId) (v : AcceptedValues) : Prop :=
  ∀ x ∈ v.refs, ∀ y ∈ v.refs, f x = f y → x = y

section

variable (hv : v.Normal) (hf : v.InjectiveOn f)
include hv hf

theorem perm_constants_rename :
    (v.rename f).constants.toList.Perm (v.constants.toList.map (ConstantValue.rename f)) := by
  have hinjective : ∀ x ∈ v.constants.toList, ∀ y ∈ v.constants.toList,
      ConstantValue.rename f x = ConstantValue.rename f y → x = y := by
    intro x hx y hy hxy
    cases x with
    | string value =>
        cases y with
        | string value' => exact hxy
        | symbol c => cases hxy
    | symbol c =>
        cases y with
        | string value => cases hxy
        | symbol c' =>
            rw [hf c (mem_refs.2 (.inl hx)) c' (mem_refs.2 (.inl hy))
              (ConstantValue.symbol.inj hxy)]
  refine (List.perm_ext_iff_of_nodup (OrderedSet.sorted_ofList _).nodup
    (hv.constants.nodup.map_on hinjective)).2 fun c => ?_
  have hmem : c ∈ (v.rename f).constants ↔ ∃ d ∈ v.constants, d.rename f = c := by
    cases c with
    | string value =>
        refine string_mem_constants_mapIds.trans ⟨fun h => ⟨_, h, rfl⟩, ?_⟩
        rintro ⟨d, hd, hc⟩
        cases d with
        | string value' => exact ConstantValue.string.inj hc ▸ hd
        | symbol d => cases hc
    | symbol c =>
        refine symbol_mem_constants_mapIds.trans ⟨?_, ?_⟩
        · rintro ⟨d, hd, hc⟩
          exact ⟨_, hd, congrArg _ (Option.some.inj hc)⟩
        · rintro ⟨d, hd, hc⟩
          cases d with
          | string value => cases hc
          | symbol d => exact ⟨d, hd, congrArg some (ConstantValue.symbol.inj hc)⟩
  exact hmem.trans List.mem_map.symm

theorem perm_sorts_rename : (v.rename f).sorts.toList.Perm (v.sorts.toList.map f) := by
  refine (List.perm_ext_iff_of_nodup (OrderedSet.sorted_ofList _).nodup
    (hv.sorts.nodup.map_on fun x hx y hy => hf x (mem_refs.2 (.inr hx)) y
      (mem_refs.2 (.inr hy)))).2 fun s => ?_
  refine Iff.trans (b := s ∈ (v.rename f).sorts) Iff.rfl (mem_sorts_mapIds.trans ?_)
  exact ⟨fun ⟨d, hd, hs⟩ => List.mem_map.2 ⟨d, hd, Option.some.inj hs⟩, fun h =>
    let ⟨d, hd, hs⟩ := List.mem_map.1 h
    ⟨d, hd, congrArg some hs⟩⟩

theorem perm_constantSymbols_rename :
    (v.rename f).constantSymbols.Perm (v.constantSymbols.map f) := by
  refine ((perm_constants_rename hv hf).filterMap _).trans (.of_eq ?_)
  rw [List.filterMap_map, constantSymbols, List.map_filterMap]
  refine List.filterMap_congr fun c _ => ?_
  cases c <;> rfl

theorem hasGroundValues_rename : (v.rename f).hasGroundValues = v.hasGroundValues := by
  have hconstants : (v.rename f).constants.isEmpty = v.constants.isEmpty := by
    rw [OrderedSet.isEmpty, OrderedSet.isEmpty, Bool.eq_iff_iff, List.isEmpty_iff,
      List.isEmpty_iff, ← List.length_eq_zero_iff, (perm_constants_rename hv hf).length_eq,
      List.length_map, List.length_eq_zero_iff]
  rw [hasGroundValues, hasGroundValues, hconstants]
  rfl

theorem size_constants_rename : (v.rename f).constants.size = v.constants.size := by
  rw [OrderedSet.size, OrderedSet.size, (perm_constants_rename hv hf).length_eq, List.length_map]

theorem groundCount_rename : (v.rename f).groundCount = v.groundCount := by
  rw [groundCount, groundCount, size_constants_rename hv hf]
  rfl

end

end AcceptedValues

/-- The form of a symbol is in normal form, if it has one. -/
def Table.NormalAt (t : Table) (x : SymbolId) : Prop :=
  ∀ form, (t.symbolAt x).canonical = some form → ∀ v ∈ form.positions, v.Normal

theorem Table.NormalAt.accepted? {t : Table} {x : SymbolId} (h : t.NormalAt x) {position : Nat}
    {v : AcceptedValues} (hv : (t.symbolAt x).accepted? position = some v) : v.Normal := by
  obtain ⟨form, hform, hv⟩ := Option.bind_eq_some_iff.1 hv
  exact h form hform v (List.mem_of_getElem? hv)

end ManySorted
