import ManySorted.Proofs.Accepted.Scanning
import ManySorted.Proofs.Echo.Conveniences

/-!
# What is added decides what is accepted

A recipe says how accepted values are put together: by additions, unions and renamings, the latter
with or without loss.  It adds parts to nothing (`Recipe.Adds`), and whatever the order of its
steps, its values have just these parts in normal form.  So two recipes give the same values if and
only if they add the same parts, and joining values is joining sets of parts (`Recipe.normal_form`).

A range may also be added by sorting it in among the ranges that are there and joining them all
anew, in 128 bits, and cutting the ends back to 64 bits (`AcceptedValues.mergeRange`).  On literals
nothing is ever cut, and the outcome is the same, because ranges that are apart are determined by
their integers.
-/

namespace ManySorted

/-! ## Joining makes ranges that are apart -/

namespace IntRange

variable {r s : IntRange} {l : List IntRange}

/-- What holds of some ranges and is kept by joining two holds of what joining makes. -/
theorem forall_mem_joinFrom {P : IntRange → Prop}
    (hjoin : ∀ r s, P r → P s → P ⟨r.low, max r.high s.high⟩) (hr : P r) (hl : ∀ q ∈ l, P q) :
    ∀ q ∈ joinFrom r l, P q := by
  induction l generalizing r with
  | nil => exact fun q hq => List.mem_singleton.1 hq ▸ hr
  | cons s rest ih =>
      obtain ⟨hs, hrest⟩ := List.forall_mem_cons.1 hl
      rw [joinFrom]
      split
      · exact ih (hjoin r s hr hs) hrest
      · exact List.forall_mem_cons.2 ⟨hr, ih hs hrest⟩

theorem forall_mem_merged {P : IntRange → Prop}
    (hjoin : ∀ r s, P r → P s → P ⟨r.low, max r.high s.high⟩) (hl : ∀ q ∈ l, P q) :
    ∀ q ∈ merged l, P q := by
  have hsorted : ∀ q ∈ l.mergeSort precedes, P q := fun q hq => hl q (List.mem_mergeSort.1 hq)
  rw [merged]
  cases hsort : l.mergeSort precedes with
  | nil => exact fun q hq => absurd hq List.not_mem_nil
  | cons r rest =>
      rw [hsort, List.forall_mem_cons] at hsorted
      exact forall_mem_joinFrom hjoin hsorted.1 hsorted.2

/-- The range is not empty and ends before the numbers of 128 bits do. -/
def Short (r : IntRange) : Prop := r.low ≤ r.high ∧ r.high < greatestEnd

theorem Short.join (hr : r.Short) (hs : s.Short) : Short ⟨r.low, max r.high s.high⟩ := by
  simp only [Short] at hr hs ⊢
  omega

theorem Ascending.gap_joinFrom (h : Ascending (r :: l)) (hr : r.Short) (hl : ∀ q ∈ l, q.Short) :
    (IntRange.joinFrom r l).Pairwise fun r s => r.high + 1 < s.low := by
  induction l generalizing r with
  | nil => exact List.pairwise_singleton _ _
  | cons s rest ih =>
      obtain ⟨hs, hrest⟩ := List.forall_mem_cons.1 hl
      rw [IntRange.joinFrom]
      split
      · exact ih (h.skip _) (hr.join hs) hrest
      · next hgap =>
          refine List.pairwise_cons.2 ⟨fun q hq => ?_, ih h.tail hs hrest⟩
          -- the number behind the upper end has 128 bits as well, so there is a gap behind it
          have hlow : s.low ≤ q.low := h.tail.low_le_of_mem_joinFrom q hq
          have hend : r.high < greatestEnd := hr.2
          omega

/-- Joining short ranges makes ranges that are apart. -/
theorem apart_merged (hl : ∀ q ∈ l, q.Short) : Apart (merged l) := by
  refine ⟨fun q hq => (forall_mem_merged (fun _ _ => Short.join) hl q hq).1, ?_⟩
  have hsorted : ∀ q ∈ l.mergeSort precedes, q.Short := fun q hq => hl q (List.mem_mergeSort.1 hq)
  have hascending := ascending_mergeSort l
  rw [merged]
  cases hsort : l.mergeSort precedes with
  | nil => exact List.Pairwise.nil
  | cons r rest =>
      rw [hsort] at hsorted hascending
      obtain ⟨hr, hrest⟩ := List.forall_mem_cons.1 hsorted
      exact hascending.gap_joinFrom hr hrest

/-- The literal next to a number. -/
def narrow (n : Int) : Int :=
  if n < -2 ^ 63 then -2 ^ 63 else if 2 ^ 63 - 1 < n then 2 ^ 63 - 1 else n

theorem narrow_of_isLiteral {n : Int} (h : IsLiteral n) : narrow n = n := by
  obtain ⟨hlow, hhigh⟩ := h
  rw [narrow, if_neg (Int.not_lt.2 hlow), if_neg (Int.not_lt.2 hhigh)]

theorem map_narrow {l : List IntRange} (h : ∀ r ∈ l, IsLiteral r.low ∧ IsLiteral r.high) :
    l.map (fun r => ⟨narrow r.low, narrow r.high⟩) = l := by
  refine (List.map_congr_left fun r hr => ?_).trans (List.map_id l)
  rw [narrow_of_isLiteral (h r hr).1, narrow_of_isLiteral (h r hr).2]
  rfl

end IntRange

namespace AcceptedValues

variable {v w : AcceptedValues} {p : Part} {low high : Int}

/-- Adds a range by joining all ranges anew in 128 bits. -/
def mergeRange (v : AcceptedValues) (low high : Int) : AcceptedValues :=
  if low ≤ high then
    { v with ranges := (IntRange.merged (v.ranges ++ [⟨low, high⟩])).map fun r =>
        ⟨IntRange.narrow r.low, IntRange.narrow r.high⟩ }
  else v

/-- Accepts what either of the two accepts, where each range is added by joining. -/
def mergeUnion (v w : AcceptedValues) : AcceptedValues :=
  w.ranges.foldl (fun u r => u.mergeRange r.low r.high)
    { v with
      constants := v.constants.union w.constants
      base := v.base.union w.base
      sorts := v.sorts.union w.sorts }

theorem mergeRange_eq (hv : IntRange.Apart v.ranges) (hliteral : v.Literal) (hlow : IsLiteral low)
    (hhigh : IsLiteral high) : v.mergeRange low high = v.addRange low high := by
  unfold mergeRange addRange
  split
  · next hle =>
      have hall : ∀ q ∈ v.ranges ++ [⟨low, high⟩], IsLiteral q.low ∧ IsLiteral q.high := by
        intro q hq
        rcases List.mem_append.1 hq with hq | hq
        · exact hliteral q hq
        · exact List.mem_singleton.1 hq ▸ ⟨hlow, hhigh⟩
      have hshort : ∀ q ∈ v.ranges ++ [⟨low, high⟩], q.Short := by
        intro q hq
        refine ⟨?_, Int.lt_of_le_of_lt (hall q hq).2.2 (by decide)⟩
        rcases List.mem_append.1 hq with hq | hq
        · exact hv.nonempty q hq
        · exact List.mem_singleton.1 hq ▸ hle
      have hends : ∀ q ∈ IntRange.merged (v.ranges ++ [⟨low, high⟩]),
          IsLiteral q.low ∧ IsLiteral q.high := by
        refine IntRange.forall_mem_merged (fun r s hr hs => ?_) hall
        simp only [IsLiteral] at hr hs ⊢
        omega
      -- both lists are apart, and they hold the same integers
      have hsame : IntRange.merged (v.ranges ++ [⟨low, high⟩]) =
          IntRange.insert ⟨low, high⟩ v.ranges := by
        refine (IntRange.apart_merged hshort).ext (hv.insert hle) fun n => ?_
        rw [IntRange.exists_mem_merged, IntRange.exists_mem_insert]
        simp only [List.mem_append, List.mem_singleton, or_and_right, exists_or, exists_eq_left]
        exact or_comm
      rw [IntRange.map_narrow hends, hsame]
  · rfl

theorem mergeUnion_eq (hv : v.Normal) (hw : w.Normal) (hliteral : v.Literal)
    (hliteral' : w.Literal) : v.mergeUnion w = v.union w := by
  have hfold : ∀ (news : List IntRange) (u : AcceptedValues), IntRange.Apart u.ranges → u.Literal →
      (∀ r ∈ news, r.low ≤ r.high) → (∀ r ∈ news, IsLiteral r.low ∧ IsLiteral r.high) →
      news.foldl (fun u r => u.mergeRange r.low r.high) u =
        { u with ranges := news.foldl (fun ranges r => IntRange.insert r ranges) u.ranges } := by
    intro news
    induction news with
    | nil => exact fun _ _ _ _ _ => rfl
    | cons r rest ih =>
        intro u hu hul hne hnl
        obtain ⟨hr, hrest⟩ := List.forall_mem_cons.1 hne
        obtain ⟨hrl, hrestl⟩ := List.forall_mem_cons.1 hnl
        have hadd : u.addRange r.low r.high = { u with ranges := IntRange.insert r u.ranges } :=
          if_pos hr
        rw [List.foldl_cons, mergeRange_eq hu hul hrl.1 hrl.2, hadd,
          ih { u with ranges := IntRange.insert r u.ranges } (hu.insert hr)
            (literal_insert hrl hul) hrest hrestl, List.foldl_cons]
  exact hfold w.ranges _ hv.ranges hliteral hw.ranges.nonempty hliteral'

/-! ## Parts that are added -/

theorem hasPart_addRange :
    (v.addRange low high).HasPart p ↔ v.HasPart p ∨ ∃ n, low ≤ n ∧ n ≤ high ∧ p = .integer n := by
  unfold addRange
  cases p with
  | integer n =>
      simp only [Part.integer.injEq, exists_eq_right_right']
      split
      · exact IntRange.exists_mem_insert.trans or_comm
      · next hempty =>
          refine (or_iff_left ?_).symm
          omega
  | _ => split <;> simp [HasPart]

theorem hasPart_addString {s : Name} :
    (v.addString s).HasPart p ↔ v.HasPart p ∨ p = .string s := by
  cases p with
  | string s' =>
      refine (OrderedSet.mem_insert).trans ?_
      rw [Part.string.injEq, ConstantValue.string.injEq, or_comm]
      rfl
  | constant c => simp [HasPart, addString]
  | _ => simp [HasPart, addString]

theorem hasPart_addBase {base : BaseSortSet} :
    (v.addBase base).HasPart p ↔ v.HasPart p ∨ ∃ b, base.contains b = true ∧ p = .base b := by
  cases p with
  | base b =>
      simp only [Part.base.injEq, exists_eq_right', HasPart, addBase,
        BaseSortSet.contains_union, Bool.or_eq_true]
  | _ => simp [HasPart, addBase]

end AcceptedValues

/-- The part with its symbol replaced; it is dropped if the symbol has no replacement. -/
def Part.mapId (f : SymbolId → Option SymbolId) : Part → Option Part
  | constant c => (f c).map constant
  | sort s => (f s).map sort
  | p => some p

theorem AcceptedValues.hasPart_mapIds {v : AcceptedValues} {f : SymbolId → Option SymbolId}
    {p : Part} : (v.mapIds f).HasPart p ↔ ∃ q, v.HasPart q ∧ q.mapId f = some p := by
  constructor
  · intro hp
    cases p with
    | integer n => exact ⟨.integer n, hp, rfl⟩
    | string s => exact ⟨.string s, string_mem_constants_mapIds.1 hp, rfl⟩
    | constant c =>
        obtain ⟨d, hd, hc⟩ := symbol_mem_constants_mapIds.1 hp
        exact ⟨.constant d, hd, by rw [Part.mapId, hc]; rfl⟩
    | base b => exact ⟨.base b, hp, rfl⟩
    | sort s =>
        obtain ⟨d, hd, hs⟩ := mem_sorts_mapIds.1 hp
        exact ⟨.sort d, hd, by rw [Part.mapId, hs]; rfl⟩
  · rintro ⟨q, hq, hp⟩
    cases q with
    | constant c =>
        obtain ⟨d, hd, rfl⟩ := Option.map_eq_some_iff.1 hp
        exact symbol_mem_constants_mapIds.2 ⟨c, hq, hd⟩
    | sort s =>
        obtain ⟨d, hd, rfl⟩ := Option.map_eq_some_iff.1 hp
        exact mem_sorts_mapIds.2 ⟨s, hq, hd⟩
    | string s =>
        cases hp
        exact string_mem_constants_mapIds.2 hq
    | _ =>
        cases hp
        exact hq

/-! ## Recipes -/

/-- How accepted values are put together from nothing. -/
inductive Recipe where
  | empty
  | addInteger (recipe : Recipe) (value : Int)
  | addRange (recipe : Recipe) (low high : Int)
  | addString (recipe : Recipe) (value : Name)
  | addConstant (recipe : Recipe) (symbol : SymbolId)
  | addBase (recipe : Recipe) (base : BaseSortSet)
  | addSort (recipe : Recipe) (sort : SymbolId)
  | union (recipe other : Recipe)
  | mapIds (f : SymbolId → Option SymbolId) (recipe : Recipe)

namespace Recipe

/-- The values that a recipe gives. -/
def values : Recipe → AcceptedValues
  | empty => ∅
  | addInteger recipe value => recipe.values.addInteger value
  | addRange recipe low high => recipe.values.addRange low high
  | addString recipe value => recipe.values.addString value
  | addConstant recipe symbol => recipe.values.addConstant symbol
  | addBase recipe base => recipe.values.addBase base
  | addSort recipe sort => recipe.values.addSort sort
  | union recipe other => recipe.values.union other.values
  | mapIds f recipe => recipe.values.mapIds f

/-- The values that a recipe gives if every range is added by joining all ranges anew. -/
def mergedValues : Recipe → AcceptedValues
  | empty => ∅
  | addInteger recipe value => recipe.mergedValues.mergeRange value value
  | addRange recipe low high => recipe.mergedValues.mergeRange low high
  | addString recipe value => recipe.mergedValues.addString value
  | addConstant recipe symbol => recipe.mergedValues.addConstant symbol
  | addBase recipe base => recipe.mergedValues.addBase base
  | addSort recipe sort => recipe.mergedValues.addSort sort
  | union recipe other => recipe.mergedValues.mergeUnion other.mergedValues
  | mapIds f recipe => recipe.mergedValues.mapIds f

/-- Whether a recipe adds a part.  Renaming replaces the symbols that were added before. -/
def Adds : Recipe → Part → Prop
  | empty, _ => False
  | addInteger recipe value, p => recipe.Adds p ∨ p = .integer value
  | addRange recipe low high, p => recipe.Adds p ∨ ∃ n, low ≤ n ∧ n ≤ high ∧ p = .integer n
  | addString recipe value, p => recipe.Adds p ∨ p = .string value
  | addConstant recipe symbol, p => recipe.Adds p ∨ p = .constant symbol
  | addBase recipe base, p => recipe.Adds p ∨ ∃ b, base.contains b = true ∧ p = .base b
  | addSort recipe sort, p => recipe.Adds p ∨ p = .sort sort
  | union recipe other, p => recipe.Adds p ∨ other.Adds p
  | mapIds f recipe, p => ∃ q, recipe.Adds q ∧ q.mapId f = some p

/-- The integers of a recipe are literals. -/
def Literal : Recipe → Prop
  | empty => True
  | addInteger recipe value => recipe.Literal ∧ IsLiteral value
  | addRange recipe low high => recipe.Literal ∧ IsLiteral low ∧ IsLiteral high
  | addString recipe _ | addConstant recipe _ | addBase recipe _ | addSort recipe _
  | mapIds _ recipe => recipe.Literal
  | union recipe other => recipe.Literal ∧ other.Literal

variable {recipe other : Recipe} {p : Part}

theorem normal_values (recipe : Recipe) : recipe.values.Normal := by
  induction recipe with
  | empty => exact AcceptedValues.normal_empty
  | addInteger _ value ih => exact ih.addRange value value
  | addRange _ low high ih => exact ih.addRange low high
  | addString _ value ih => exact ih.addString value
  | addConstant _ symbol ih => exact ih.addConstant symbol
  | addBase _ base ih => exact ih.addBase base
  | addSort _ sort ih => exact ih.addSort sort
  | union _ _ ih ih' => exact ih.union ih'
  | mapIds f _ ih => exact ih.mapIds f

/-- The values have just the parts that the recipe adds. -/
theorem hasPart_values : recipe.values.HasPart p ↔ recipe.Adds p := by
  induction recipe generalizing p with
  | empty => exact iff_false_intro AcceptedValues.not_hasPart_empty
  | addInteger recipe value ih =>
      rw [values, AcceptedValues.addInteger, AcceptedValues.hasPart_addRange, ih, Adds]
      refine or_congr_right ⟨?_, fun hp => ⟨value, Int.le_refl _, Int.le_refl _, hp⟩⟩
      rintro ⟨n, hlow, hhigh, rfl⟩
      rw [Int.le_antisymm hhigh hlow]
  | addRange recipe low high ih => rw [values, AcceptedValues.hasPart_addRange, ih, Adds]
  | addString recipe value ih => rw [values, AcceptedValues.hasPart_addString, ih, Adds]
  | addConstant recipe symbol ih => rw [values, AcceptedValues.hasPart_addConstant, ih, Adds]
  | addBase recipe base ih => rw [values, AcceptedValues.hasPart_addBase, ih, Adds]
  | addSort recipe sort ih => rw [values, AcceptedValues.hasPart_addSort, ih, Adds]
  | union recipe other ih ih' => rw [values, AcceptedValues.hasPart_union, ih, ih', Adds]
  | mapIds f recipe ih =>
      rw [values, AcceptedValues.hasPart_mapIds, Adds]
      exact exists_congr fun q => and_congr_left' ih

theorem Literal.values (h : recipe.Literal) : recipe.values.Literal := by
  induction recipe with
  | empty => exact AcceptedValues.literal_empty
  | addInteger _ _ ih => exact (ih h.1).addRange h.2 h.2
  | addRange _ _ _ ih => exact (ih h.1).addRange h.2.1 h.2.2
  | addString _ _ ih | addConstant _ _ ih | addBase _ _ ih | addSort _ _ ih | mapIds _ _ ih =>
      exact ih h
  | union _ _ ih ih' => exact (ih h.1).union (ih' h.2)

/-- On literals, joining all ranges anew makes the same values. -/
theorem Literal.mergedValues_eq (h : recipe.Literal) : recipe.mergedValues = recipe.values := by
  induction recipe with
  | empty => rfl
  | addInteger recipe value ih =>
      rw [mergedValues, ih h.1]
      exact AcceptedValues.mergeRange_eq recipe.normal_values.ranges (Literal.values h.1) h.2 h.2
  | addRange recipe low high ih =>
      rw [mergedValues, ih h.1]
      exact AcceptedValues.mergeRange_eq recipe.normal_values.ranges
        (Literal.values h.1) h.2.1 h.2.2
  | addString _ _ ih | addConstant _ _ ih | addBase _ _ ih | addSort _ _ ih | mapIds _ _ ih =>
      rw [mergedValues, ih h, Recipe.values]
  | union recipe other ih ih' =>
      rw [mergedValues, ih h.1, ih' h.2]
      exact AcceptedValues.mergeUnion_eq recipe.normal_values other.normal_values
        (Literal.values h.1) (Literal.values h.2)

/-- Recipes that add the same parts give the same values. -/
theorem values_eq_iff : recipe.values = other.values ↔ ∀ p, recipe.Adds p ↔ other.Adds p := by
  constructor
  · intro heq p
    rw [← hasPart_values, ← hasPart_values, heq]
  · intro hsame
    refine recipe.normal_values.ext other.normal_values fun p => ?_
    rw [hasPart_values, hasPart_values, hsame]

/-- Joining the values of two recipes gives the values of a recipe that adds the parts of both. -/
theorem union_values_eq {recipe₁ recipe₂ : Recipe}
    (h : ∀ p, recipe.Adds p ∨ other.Adds p ↔ recipe₁.Adds p ∨ recipe₂.Adds p) :
    recipe.values.union other.values = recipe₁.values.union recipe₂.values := by
  have hsame : (recipe.union other).values = (recipe₁.union recipe₂).values := values_eq_iff.2 h
  exact hsame

/-- However values are put together, their ranges are not empty, ascend with a gap between any two
of them and hold just the integers that were added; values are equal just if the same parts were
added; joining values is commutative, associative and idempotent, and joining nothing changes
nothing.  And if only literals are added, joining all ranges anew at every addition gives the same
values. -/
theorem normal_form (recipe recipe₁ recipe₂ : Recipe) :
    IntRange.Apart recipe.values.ranges ∧
    (∀ n, (∃ r ∈ recipe.values.ranges, r.Has n) ↔ recipe.Adds (.integer n)) ∧
    (recipe.values = recipe₁.values ↔ ∀ p, recipe.Adds p ↔ recipe₁.Adds p) ∧
    recipe.values.union recipe₁.values = recipe₁.values.union recipe.values ∧
    (recipe.values.union recipe₁.values).union recipe₂.values =
      recipe.values.union (recipe₁.values.union recipe₂.values) ∧
    recipe.values.union recipe.values = recipe.values ∧
    recipe.values.union ∅ = recipe.values ∧
    (∅ : AcceptedValues).union recipe.values = recipe.values ∧
    (recipe.Literal → recipe.mergedValues = recipe.values) := by
  have hunion : ∀ r s : Recipe, (r.union s).values = r.values.union s.values := fun _ _ => rfl
  refine ⟨recipe.normal_values.ranges, fun n => hasPart_values (p := .integer n),
    values_eq_iff, ?_, ?_, ?_, ?_, ?_, Literal.mergedValues_eq⟩
  · exact union_values_eq fun _ => or_comm
  · rw [← hunion, ← hunion recipe₁]
    exact union_values_eq fun _ => or_assoc
  · rw [← hunion, values_eq_iff]
    exact fun _ => or_self_iff
  · refine (hunion recipe empty).symm.trans (values_eq_iff.2 fun _ => ?_)
    simp only [Adds, or_false]
  · refine (hunion empty recipe).symm.trans (values_eq_iff.2 fun _ => ?_)
    simp only [Adds, false_or]

/-- The integers from 1 to 9 in three pieces, out of order and overlapping, with a string
between. -/
def pieces : Recipe :=
  .addRange (.addString (.addRange (.addRange .empty 6 9) 1 3) ⟨30⟩) 3 5

/-- The string, and the same integers as one range, to which a renaming is applied that drops a
sort. -/
def whole : Recipe :=
  .mapIds (fun _ => none) (.addSort (.addRange (.addString .empty ⟨30⟩) 1 9) ⟨20⟩)

/-- The pieces add up to one range. -/
theorem normal_form_pieces : pieces.Literal ∧ (∀ p, pieces.Adds p ↔ whole.Adds p) ∧
    pieces.values = whole.values ∧ pieces.mergedValues = whole.values ∧
    whole.values.ranges = [⟨1, 9⟩] := by
  have hvalues : pieces.values = whole.values := by decide +kernel
  have hliteral : pieces.Literal := by simp [pieces, Literal, IsLiteral]
  obtain ⟨-, -, hsame, -, -, -, -, -, hmerged⟩ := normal_form pieces whole .empty
  exact ⟨hliteral, hsame.1 hvalues, hvalues, (hmerged hliteral).trans hvalues, by decide +kernel⟩

end Recipe

end ManySorted
