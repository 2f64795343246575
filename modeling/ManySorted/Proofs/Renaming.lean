import ManySorted.Proofs.Ordered
import ManySorted.Size

/-!
# Renaming the symbols of forms and sizes

Forms and sizes are carried from one table to another by replacing each symbol that they speak of.
Where every symbol has a replacement, nothing is dropped: `mapIds` is then a plain `rename`, and
renamings compose.  For sizes this needs that simplifying them once more changes nothing
(`SizeExpr.Stable`), which holds of every size that `add` and `multiply` build.

## Strategy

* **Forms.**  What a position accepts is determined by what it holds, so renaming is compared member
  by member (`AcceptedValues.mapIds_eq_mapIds`), and forms go position by position.
* **Taking apart.**  Renaming does not change which parts of a size are sums, products, counts or
  infinite, so it commutes with taking sums and products apart and with putting them together
  (`SizeExpr.rename_add`, `SizeExpr.rename_multiply`).
* **Putting together again.**  An assembled sum or product consists of parts that are none of the
  kind, with at most one count, and adding up or multiplying these parts gives it again
  (`SizeExpr.add_assembled`, `SizeExpr.multiply_assembled`).
* **Stability.**  So every size that `add` or `multiply` builds of stable parts is stable
  (`SizeExpr.stable_add`, `SizeExpr.stable_multiply`), and stable sizes are renamed in place
  (`SizeExpr.Stable.mapIds_eq_rename`).
* **Dependence.**  A simplified size depends on no sort on which none of its parts depends
  (`SizeExpr.exists_of_mem_cards_add`, `SizeExpr.exists_of_mem_cards_multiply`).
-/

namespace ManySorted

/-! ## Accepted values -/

namespace AcceptedValues

/-- Every symbol that the values speak of. -/
def refs (v : AcceptedValues) : List SymbolId := v.constantSymbols ++ v.sorts.toList

/-- Replaces every symbol. -/
def rename (f : SymbolId → SymbolId) (v : AcceptedValues) : AcceptedValues :=
  v.mapIds fun id => some (f id)

@[simp]
theorem mem_constantSymbols {v : AcceptedValues} {id : SymbolId} :
    id ∈ v.constantSymbols ↔ .symbol id ∈ v.constants := by
  constructor
  · intro h
    obtain ⟨value, hvalue, hid⟩ := List.mem_filterMap.1 h
    cases value with
    | string value => cases hid
    | symbol other =>
        obtain rfl : other = id := by simpa using hid
        exact hvalue
  · intro h
    exact List.mem_filterMap.2 ⟨.symbol id, h, rfl⟩

@[simp]
theorem mem_refs {v : AcceptedValues} {id : SymbolId} :
    id ∈ v.refs ↔ .symbol id ∈ v.constants ∨ id ∈ v.sorts := by
  rw [refs, List.mem_append, mem_constantSymbols]
  rfl

@[simp]
theorem ranges_mapIds (f : SymbolId → Option SymbolId) (v : AcceptedValues) :
    (v.mapIds f).ranges = v.ranges := rfl

@[simp]
theorem base_mapIds (f : SymbolId → Option SymbolId) (v : AcceptedValues) :
    (v.mapIds f).base = v.base := rfl

@[simp]
theorem mem_sorts_mapIds {f : SymbolId → Option SymbolId} {v : AcceptedValues} {id : SymbolId} :
    id ∈ (v.mapIds f).sorts ↔ ∃ s ∈ v.sorts, f s = some id := by
  simp only [mapIds, OrderedSet.mem_ofList, List.mem_filterMap]
  rfl

@[simp]
theorem symbol_mem_constants_mapIds {f : SymbolId → Option SymbolId} {v : AcceptedValues}
    {id : SymbolId} :
    .symbol id ∈ (v.mapIds f).constants ↔ ∃ c, .symbol c ∈ v.constants ∧ f c = some id := by
  simp only [mapIds, OrderedSet.mem_ofList, List.mem_filterMap]
  constructor
  · rintro ⟨value, hvalue, hid⟩
    cases value with
    | string value => simp at hid
    | symbol c => exact ⟨c, hvalue, by simpa using hid⟩
  · rintro ⟨c, hc, hid⟩
    exact ⟨.symbol c, hc, by simp [hid]⟩

@[simp]
theorem string_mem_constants_mapIds {f : SymbolId → Option SymbolId} {v : AcceptedValues}
    {value : Name} :
    .string value ∈ (v.mapIds f).constants ↔ .string value ∈ v.constants := by
  simp only [mapIds, OrderedSet.mem_ofList, List.mem_filterMap]
  constructor
  · rintro ⟨other, hother, hvalue⟩
    cases other with
    | string other =>
        obtain rfl : other = value := by simpa using hvalue
        exact hother
    | symbol c => simp at hvalue
  · intro hvalue
    exact ⟨.string value, hvalue, rfl⟩

/-- Renamed values are determined by what they hold. -/
theorem mapIds_eq_mapIds {f g : SymbolId → Option SymbolId} {v w : AcceptedValues}
    (hranges : v.ranges = w.ranges) (hbase : v.base = w.base)
    (hstrings : ∀ value, .string value ∈ v.constants ↔ .string value ∈ w.constants)
    (hsymbols : ∀ id, (∃ c, .symbol c ∈ v.constants ∧ f c = some id) ↔
      ∃ c, .symbol c ∈ w.constants ∧ g c = some id)
    (hsorts : ∀ id, (∃ s ∈ v.sorts, f s = some id) ↔ ∃ s ∈ w.sorts, g s = some id) :
    v.mapIds f = w.mapIds g := by
  have hconstants : (v.mapIds f).constants = (w.mapIds g).constants := by
    refine OrderedSet.ext (OrderedSet.sorted_ofList _) (OrderedSet.sorted_ofList _) fun c => ?_
    cases c with
    | string value => rw [string_mem_constants_mapIds, string_mem_constants_mapIds, hstrings]
    | symbol id => rw [symbol_mem_constants_mapIds, symbol_mem_constants_mapIds, hsymbols]
  have hsorts' : (v.mapIds f).sorts = (w.mapIds g).sorts := by
    refine OrderedSet.ext (OrderedSet.sorted_ofList _) (OrderedSet.sorted_ofList _) fun id => ?_
    rw [mem_sorts_mapIds, mem_sorts_mapIds, hsorts]
  exact (AcceptedValues.mk.injEq ..).mpr ⟨hconstants, hranges, hbase, hsorts'⟩

theorem mapIds_congr {f g : SymbolId → Option SymbolId} {v : AcceptedValues}
    (h : ∀ id ∈ v.refs, f id = g id) : v.mapIds f = v.mapIds g := by
  refine mapIds_eq_mapIds rfl rfl (fun _ => Iff.rfl) (fun id => ?_) fun id => ?_
  · refine exists_congr fun c => and_congr_right fun hc => ?_
    rw [h c (mem_refs.2 (.inl hc))]
  · refine exists_congr fun s => and_congr_right fun hs => ?_
    rw [h s (mem_refs.2 (.inr hs))]

/-- Where every symbol has a replacement, none is dropped. -/
theorem mapIds_eq_rename {f : SymbolId → Option SymbolId} {g : SymbolId → SymbolId}
    {v : AcceptedValues} (h : ∀ id ∈ v.refs, f id = some (g id)) : v.mapIds f = v.rename g :=
  mapIds_congr h

theorem rename_congr {f g : SymbolId → SymbolId} {v : AcceptedValues}
    (h : ∀ id ∈ v.refs, f id = g id) : v.rename f = v.rename g :=
  mapIds_congr fun id hid => congrArg some (h id hid)

theorem rename_rename (f g : SymbolId → SymbolId) (v : AcceptedValues) :
    (v.rename f).rename g = v.rename (g ∘ f) := by
  refine mapIds_eq_mapIds rfl rfl (fun _ => string_mem_constants_mapIds) (fun id => ?_)
    fun id => ?_
  · simp only [rename, symbol_mem_constants_mapIds, Option.some.injEq, Function.comp]
    constructor
    · rintro ⟨_, ⟨c, hc, rfl⟩, hid⟩
      exact ⟨c, hc, hid⟩
    · rintro ⟨c, hc, hid⟩
      exact ⟨f c, ⟨c, hc, rfl⟩, hid⟩
  · simp only [rename, mem_sorts_mapIds, Option.some.injEq, Function.comp]
    constructor
    · rintro ⟨_, ⟨s, hs, rfl⟩, hid⟩
      exact ⟨s, hs, hid⟩
    · rintro ⟨s, hs, hid⟩
      exact ⟨f s, ⟨s, hs, rfl⟩, hid⟩

end AcceptedValues

/-! ## Canonical forms -/

namespace CanonicalForm

/-- Every symbol that a form speaks of. -/
def refs (form : CanonicalForm) : List SymbolId := form.positions.flatMap AcceptedValues.refs

/-- Replaces every symbol. -/
def rename (f : SymbolId → SymbolId) (form : CanonicalForm) : CanonicalForm :=
  ⟨form.positions.map (·.rename f)⟩

theorem mem_refs {form : CanonicalForm} {id : SymbolId} :
    id ∈ form.refs ↔ ∃ v ∈ form.positions, id ∈ v.refs := List.mem_flatMap

/-- Where every symbol has a replacement, none is dropped. -/
theorem mapIds_eq_rename {f : SymbolId → Option SymbolId} {g : SymbolId → SymbolId}
    {form : CanonicalForm} (h : ∀ id ∈ form.refs, f id = some (g id)) :
    form.mapIds f = form.rename g := by
  refine congrArg CanonicalForm.mk (List.map_congr_left fun v hv => ?_)
  exact AcceptedValues.mapIds_eq_rename fun id hid => h id (mem_refs.2 ⟨v, hv, hid⟩)

theorem rename_congr {f g : SymbolId → SymbolId} {form : CanonicalForm}
    (h : ∀ id ∈ form.refs, f id = g id) : form.rename f = form.rename g := by
  refine congrArg CanonicalForm.mk (List.map_congr_left fun v hv => ?_)
  exact AcceptedValues.rename_congr fun id hid => h id (mem_refs.2 ⟨v, hv, hid⟩)

theorem rename_rename (f g : SymbolId → SymbolId) (form : CanonicalForm) :
    (form.rename f).rename g = form.rename (g ∘ f) := by
  simp only [rename, List.map_map]
  refine congrArg CanonicalForm.mk (List.map_congr_left fun v _ => ?_)
  exact AcceptedValues.rename_rename f g v

@[simp]
theorem size_rename (f : SymbolId → SymbolId) (form : CanonicalForm) :
    (form.rename f).size = form.size := List.length_map _

end CanonicalForm

/-! ## Sizes -/

namespace SizeExpr

/-- Induction over a size, with the parts of sums and products taken as members of a list. -/
@[induction_eliminator]
theorem induct {motive : SizeExpr → Prop} (infinity : motive infinity)
    (count : ∀ n, motive (count n)) (card : ∀ sort, motive (card sort))
    (sum : ∀ parts, (∀ part ∈ parts, motive part) → motive (sum parts))
    (product : ∀ parts, (∀ part ∈ parts, motive part) → motive (product parts)) :
    ∀ e, motive e := by
  intro e
  refine @SizeExpr.rec motive (fun parts => ∀ part ∈ parts, motive part) infinity count card
    (fun parts ih => sum parts ih) (fun parts ih => product parts ih) ?_ ?_ e
  · intro part hpart
    exact absurd hpart List.not_mem_nil
  · intro head rest hhead hrest part hpart
    rcases List.mem_cons.1 hpart with rfl | hpart
    · exact hhead
    · exact hrest part hpart

theorem addendsOf_eq (parts : List SizeExpr) : addendsOf parts = parts.flatMap addends := by
  induction parts with
  | nil => rfl
  | cons part rest ih => rw [addendsOf, ih, List.flatMap_cons]

theorem factorsOf_eq (parts : List SizeExpr) : factorsOf parts = parts.flatMap factors := by
  induction parts with
  | nil => rfl
  | cons part rest ih => rw [factorsOf, ih, List.flatMap_cons]

theorem mapIdsOf_eq (f : SymbolId → Option SymbolId) (parts : List SizeExpr) :
    mapIdsOf f parts = parts.map (mapIds f) := by
  induction parts with
  | nil => rfl
  | cons part rest ih => rw [mapIdsOf, ih, List.map_cons]

mutual

/-- Replaces every sort. -/
def rename (f : SymbolId → SymbolId) : SizeExpr → SizeExpr
  | infinity => infinity
  | count n => count n
  | card sort => card (f sort)
  | sum parts => sum (renameAll f parts)
  | product parts => product (renameAll f parts)

/-- Replaces every sort of all the expressions of a list. -/
def renameAll (f : SymbolId → SymbolId) : List SizeExpr → List SizeExpr
  | [] => []
  | part :: rest => rename f part :: renameAll f rest

end

mutual

/-- The sorts whose numbers of facts a size depends on. -/
def cards : SizeExpr → List SymbolId
  | infinity | count _ => []
  | card sort => [sort]
  | sum parts | product parts => cardsOf parts

/-- The sorts that the expressions of a list depend on. -/
def cardsOf : List SizeExpr → List SymbolId
  | [] => []
  | part :: rest => cards part ++ cardsOf rest

end

theorem renameAll_eq (f : SymbolId → SymbolId) (parts : List SizeExpr) :
    renameAll f parts = parts.map (rename f) := by
  induction parts with
  | nil => rfl
  | cons part rest ih => rw [renameAll, ih, List.map_cons]

theorem mem_cardsOf {parts : List SizeExpr} {sort : SymbolId} :
    sort ∈ cardsOf parts ↔ ∃ part ∈ parts, sort ∈ cards part := by
  induction parts with
  | nil => simp [cardsOf]
  | cons part rest ih => simp [cardsOf, ih]

@[simp]
theorem isInfinite_rename (f : SymbolId → SymbolId) (e : SizeExpr) :
    (rename f e).isInfinite = e.isInfinite := by
  cases e <;> rfl

@[simp]
theorem count?_rename (f : SymbolId → SymbolId) (e : SizeExpr) :
    (rename f e).count? = e.count? := by
  cases e <;> rfl

theorem rename_rename (f g : SymbolId → SymbolId) (e : SizeExpr) :
    rename g (rename f e) = rename (g ∘ f) e := by
  induction e with
  | infinity => rfl
  | count n => rfl
  | card sort => rfl
  | sum parts ih =>
      simp only [rename, renameAll_eq, List.map_map]
      exact congrArg sum (List.map_congr_left fun part hpart => ih part hpart)
  | product parts ih =>
      simp only [rename, renameAll_eq, List.map_map]
      exact congrArg product (List.map_congr_left fun part hpart => ih part hpart)

theorem rename_congr {f g : SymbolId → SymbolId} {e : SizeExpr}
    (h : ∀ sort ∈ cards e, f sort = g sort) : rename f e = rename g e := by
  induction e with
  | infinity => rfl
  | count n => rfl
  | card sort => exact congrArg card (h sort (List.mem_singleton.2 rfl))
  | sum parts ih =>
      simp only [rename, renameAll_eq]
      refine congrArg sum (List.map_congr_left fun part hpart => ih part hpart ?_)
      exact fun sort hsort => h sort (mem_cardsOf.2 ⟨part, hpart, hsort⟩)
  | product parts ih =>
      simp only [rename, renameAll_eq]
      refine congrArg product (List.map_congr_left fun part hpart => ih part hpart ?_)
      exact fun sort hsort => h sort (mem_cardsOf.2 ⟨part, hpart, hsort⟩)

theorem cards_rename (f : SymbolId → SymbolId) (e : SizeExpr) :
    cards (rename f e) = (cards e).map f := by
  have hparts : ∀ parts : List SizeExpr,
      (∀ part ∈ parts, cards (rename f part) = (cards part).map f) →
        cardsOf (renameAll f parts) = (cardsOf parts).map f := by
    intro parts
    induction parts with
    | nil => intro _; rfl
    | cons part rest ih =>
        intro h
        simp only [renameAll, cardsOf, List.map_append]
        rw [h part (List.mem_cons_self ..),
          ih fun p hp => h p (List.mem_cons_of_mem _ hp)]
  induction e with
  | infinity => rfl
  | count n => rfl
  | card sort => rfl
  | sum parts ih => exact hparts parts ih
  | product parts ih => exact hparts parts ih

/-! ### Simplifying commutes with renaming -/

theorem addends_rename (f : SymbolId → SymbolId) (e : SizeExpr) :
    addends (rename f e) = (addends e).map (rename f) := by
  induction e with
  | infinity => rfl
  | count n => rfl
  | card sort => rfl
  | sum parts ih =>
      simp only [rename, addends, addendsOf_eq, renameAll_eq, List.flatMap_map,
        List.map_flatMap]
      rw [List.flatMap_def, List.flatMap_def, List.map_congr_left ih]
  | product parts ih => rfl

theorem factors_rename (f : SymbolId → SymbolId) (e : SizeExpr) :
    factors (rename f e) = (factors e).map (rename f) := by
  induction e with
  | infinity => rfl
  | count n => rfl
  | card sort => rfl
  | sum parts ih => rfl
  | product parts ih =>
      simp only [rename, factors, factorsOf_eq, renameAll_eq, List.flatMap_map,
        List.map_flatMap]
      rw [List.flatMap_def, List.flatMap_def, List.map_congr_left ih]

/-- The parts of an assembled size: the folded count stands last, unless it is the identity. -/
def assembled (identity : Nat) (terms : List SizeExpr) (folded : Nat) : List SizeExpr :=
  if folded ≠ identity ∨ terms = [] then terms ++ [count folded] else terms

theorem assemble_eq (make : List SizeExpr → SizeExpr) (identity : Nat) (terms : List SizeExpr)
    (folded : Nat) :
    assemble make identity terms folded =
      match assembled identity terms folded with
      | [term] => term
      | parts => make parts := rfl

theorem map_rename_assembled (f : SymbolId → SymbolId) (identity : Nat) (terms : List SizeExpr)
    (folded : Nat) :
    (assembled identity terms folded).map (rename f) =
      assembled identity (terms.map (rename f)) folded := by
  unfold assembled
  by_cases h : folded ≠ identity ∨ terms = []
  · rw [if_pos h, if_pos (by simpa using h), List.map_append]
    rfl
  · rw [if_neg h, if_neg (by simpa using h)]

theorem rename_assemble {make : List SizeExpr → SizeExpr} (f : SymbolId → SymbolId)
    (hmake : ∀ parts, rename f (make parts) = make (parts.map (rename f))) (identity : Nat)
    (terms : List SizeExpr) (folded : Nat) :
    rename f (assemble make identity terms folded) =
      assemble make identity (terms.map (rename f)) folded := by
  rw [assemble_eq, assemble_eq, ← map_rename_assembled]
  match assembled identity terms folded with
  | [] => exact hmake []
  | [term] => rfl
  | first :: second :: rest => exact hmake (first :: second :: rest)

theorem rename_add (f : SymbolId → SymbolId) (parts : List SizeExpr) :
    rename f (add parts) = add (parts.map (rename f)) := by
  have hflat : addendsOf (parts.map (rename f)) = (addendsOf parts).map (rename f) := by
    simp only [addendsOf_eq, List.flatMap_map, List.map_flatMap, addends_rename]
  unfold add
  simp only [hflat, List.filterMap_map, List.any_map, List.filter_map, Function.comp_def,
    count?_rename, isInfinite_rename]
  split
  · rfl
  · exact rename_assemble f (fun l => by rw [rename, renameAll_eq]) ..

theorem rename_multiply (f : SymbolId → SymbolId) (parts : List SizeExpr) :
    rename f (multiply parts) = multiply (parts.map (rename f)) := by
  have hflat : factorsOf (parts.map (rename f)) = (factorsOf parts).map (rename f) := by
    simp only [factorsOf_eq, List.flatMap_map, List.map_flatMap, factors_rename]
  unfold multiply
  simp only [hflat, List.filterMap_map, List.any_map, List.filter_map, Function.comp_def,
    count?_rename, isInfinite_rename]
  split
  · rfl
  · split
    · rfl
    · exact rename_assemble f (fun l => by rw [rename, renameAll_eq]) ..

/-! ### Simplified sizes -/

/-- Simplifying the size, or a part of it, once more changes nothing. -/
inductive Stable : SizeExpr → Prop
  | infinity : Stable infinity
  | count (n : Nat) : Stable (count n)
  | card (sort : SymbolId) : Stable (card sort)
  | sum {parts : List SizeExpr} (hparts : ∀ part ∈ parts, Stable part)
      (hadd : add parts = sum parts) : Stable (sum parts)
  | product {parts : List SizeExpr} (hparts : ∀ part ∈ parts, Stable part)
      (hmultiply : multiply parts = product parts) : Stable (product parts)

/-- A stable size is renamed in place, if every sort has a replacement. -/
theorem Stable.mapIds_eq_rename {f : SymbolId → Option SymbolId} {g : SymbolId → SymbolId}
    {e : SizeExpr} (he : Stable e) (h : ∀ sort ∈ cards e, f sort = some (g sort)) :
    mapIds f e = rename g e := by
  induction he with
  | infinity => rfl
  | count n => rfl
  | card sort =>
      rw [mapIds, h sort (List.mem_singleton.2 rfl)]
      rfl
  | sum _ hadd ih =>
      rw [mapIds, mapIdsOf_eq, List.map_congr_left fun part hpart => ih part hpart
        fun sort hsort => h sort (mem_cardsOf.2 ⟨part, hpart, hsort⟩), ← rename_add, hadd]
  | product _ hmultiply ih =>
      rw [mapIds, mapIdsOf_eq, List.map_congr_left fun part hpart => ih part hpart
        fun sort hsort => h sort (mem_cardsOf.2 ⟨part, hpart, hsort⟩), ← rename_multiply,
        hmultiply]

theorem Stable.rename {e : SizeExpr} (he : Stable e) (f : SymbolId → SymbolId) :
    Stable (rename f e) := by
  induction he with
  | infinity => exact .infinity
  | count n => exact .count n
  | card sort => exact .card (f sort)
  | @sum parts _ hadd ih =>
      rw [SizeExpr.rename, renameAll_eq]
      refine .sum (fun part hpart => ?_) ?_
      · obtain ⟨original, horiginal, rfl⟩ := List.mem_map.1 hpart
        exact ih original horiginal
      · rw [← rename_add, hadd, SizeExpr.rename, renameAll_eq]
  | @product parts _ hmultiply ih =>
      rw [SizeExpr.rename, renameAll_eq]
      refine .product (fun part hpart => ?_) ?_
      · obtain ⟨original, horiginal, rfl⟩ := List.mem_map.1 hpart
        exact ih original horiginal
      · rw [← rename_multiply, hmultiply, SizeExpr.rename, renameAll_eq]

/-- Taking sums apart leaves stable parts, none of which is a sum. -/
theorem Stable.of_mem_addends {e q : SizeExpr} (he : Stable e) (hq : q ∈ addends e) :
    Stable q ∧ addends q = [q] := by
  induction he with
  | infinity => rw [List.mem_singleton.1 hq]; exact ⟨.infinity, rfl⟩
  | count n => rw [List.mem_singleton.1 hq]; exact ⟨.count n, rfl⟩
  | card sort => rw [List.mem_singleton.1 hq]; exact ⟨.card sort, rfl⟩
  | sum _ _ ih =>
      rw [addends, addendsOf_eq] at hq
      obtain ⟨part, hpart, hq⟩ := List.mem_flatMap.1 hq
      exact ih part hpart hq
  | product hparts hmultiply =>
      rw [List.mem_singleton.1 hq]
      exact ⟨.product hparts hmultiply, rfl⟩

/-- Taking products apart leaves stable parts, none of which is a product. -/
theorem Stable.of_mem_factors {e q : SizeExpr} (he : Stable e) (hq : q ∈ factors e) :
    Stable q ∧ factors q = [q] := by
  induction he with
  | infinity => rw [List.mem_singleton.1 hq]; exact ⟨.infinity, rfl⟩
  | count n => rw [List.mem_singleton.1 hq]; exact ⟨.count n, rfl⟩
  | card sort => rw [List.mem_singleton.1 hq]; exact ⟨.card sort, rfl⟩
  | product _ _ ih =>
      rw [factors, factorsOf_eq] at hq
      obtain ⟨part, hpart, hq⟩ := List.mem_flatMap.1 hq
      exact ih part hpart hq
  | sum hparts hadd =>
      rw [List.mem_singleton.1 hq]
      exact ⟨.sum hparts hadd, rfl⟩

theorem mem_assembled {identity : Nat} {terms : List SizeExpr} {folded : Nat} {q : SizeExpr}
    (hq : q ∈ assembled identity terms folded) : q ∈ terms ∨ q = count folded := by
  unfold assembled at hq
  split at hq
  · simpa using hq
  · exact .inl hq

/-- An assembled size is one of its parts or made of all of them. -/
theorem assemble_cases (make : List SizeExpr → SizeExpr) (identity : Nat) (terms : List SizeExpr)
    (folded : Nat) :
    assemble make identity terms folded ∈ assembled identity terms folded ∨
      assemble make identity terms folded = make (assembled identity terms folded) := by
  rw [assemble_eq]
  match assembled identity terms folded with
  | [] => exact .inr rfl
  | [term] => exact .inl (List.mem_singleton.2 rfl)
  | first :: second :: rest => exact .inr rfl

theorem filterMap_count?_assembled {identity : Nat} {terms : List SizeExpr} {folded : Nat}
    (hterms : ∀ q ∈ terms, q.count? = none) :
    (assembled identity terms folded).filterMap count? =
      if folded ≠ identity ∨ terms = [] then [folded] else [] := by
  have hnone : terms.filterMap count? = [] := List.filterMap_eq_nil_iff.2 hterms
  unfold assembled
  split
  · rw [List.filterMap_append, hnone]
    rfl
  · exact hnone

theorem filter_assembled {identity : Nat} {terms : List SizeExpr} {folded : Nat}
    (hterms : ∀ q ∈ terms, q.count? = none) :
    (assembled identity terms folded).filter (·.count?.isNone) = terms := by
  have hall : terms.filter (·.count?.isNone) = terms :=
    List.filter_eq_self.2 fun q hq => by simp [hterms q hq]
  unfold assembled
  split
  · rw [List.filter_append, hall]
    simp [count?]
  · exact hall

/-- Adding up the parts of an assembled sum gives the sum again. -/
theorem add_assembled {terms : List SizeExpr} {folded : Nat}
    (hterms : ∀ q ∈ terms, q.count? = none ∧ q.isInfinite = false ∧ addends q = [q])
    (hfolded : folded ≤ maxCount) :
    add (assembled 0 terms folded) = assemble sum 0 terms folded := by
  have hflat : addendsOf (assembled 0 terms folded) = assembled 0 terms folded := by
    rw [addendsOf_eq]
    have hsingle : ∀ q ∈ assembled 0 terms folded, addends q = [q] := by
      intro q hq
      rcases mem_assembled hq with hq | rfl
      · exact (hterms q hq).2.2
      · rfl
    rw [List.flatMap_def, List.map_congr_left hsingle, ← List.flatMap_def, List.flatMap_singleton']
  have hfinite : (assembled 0 terms folded).any isInfinite = false := by
    refine List.any_eq_false.2 fun q hq => ?_
    rcases mem_assembled hq with hq | rfl
    · simp [(hterms q hq).2.1]
    · simp [isInfinite]
  have hsum : ((assembled 0 terms folded).filterMap count?).foldl (· + ·) 0 = folded := by
    rw [filterMap_count?_assembled fun q hq => (hterms q hq).1]
    split
    · simp
    · simp_all
  unfold add
  simp only [hflat, hfinite, hsum, filter_assembled fun q hq => (hterms q hq).1]
  rw [if_neg (by simpa using hfolded)]

/-- Multiplying the parts of an assembled product gives the product again. -/
theorem multiply_assembled {terms : List SizeExpr} {folded : Nat}
    (hterms : ∀ q ∈ terms, q.count? = none ∧ q.isInfinite = false ∧ factors q = [q])
    (hfolded : folded ≤ maxCount) (hzero : folded ≠ 0) :
    multiply (assembled 1 terms folded) = assemble product 1 terms folded := by
  have hflat : factorsOf (assembled 1 terms folded) = assembled 1 terms folded := by
    rw [factorsOf_eq]
    have hsingle : ∀ q ∈ assembled 1 terms folded, factors q = [q] := by
      intro q hq
      rcases mem_assembled hq with hq | rfl
      · exact (hterms q hq).2.2
      · rfl
    rw [List.flatMap_def, List.map_congr_left hsingle, ← List.flatMap_def, List.flatMap_singleton']
  have hfinite : (assembled 1 terms folded).any isInfinite = false := by
    refine List.any_eq_false.2 fun q hq => ?_
    rcases mem_assembled hq with hq | rfl
    · simp [(hterms q hq).2.1]
    · simp [isInfinite]
  have hcounts : (assembled 1 terms folded).filterMap count? =
      if folded ≠ 1 ∨ terms = [] then [folded] else [] :=
    filterMap_count?_assembled fun q hq => (hterms q hq).1
  have hcontains : ((assembled 1 terms folded).filterMap count?).contains 0 = false := by
    rw [hcounts]
    split
    · simpa using fun h => hzero h.symm
    · simp
  have hproduct : ((assembled 1 terms folded).filterMap count?).foldl (· * ·) 1 = folded := by
    rw [hcounts]
    split
    · simp
    · simp_all
  unfold multiply
  simp only [hflat, hfinite, hproduct, hcontains, filter_assembled fun q hq => (hterms q hq).1]
  rw [if_neg (by simp), if_neg (by simpa using hfolded)]

/-- The parts that are no counts. -/
abbrev uncounted (flat : List SizeExpr) : List SizeExpr := flat.filter (·.count?.isNone)

/-- The counts, added up. -/
abbrev countSum (flat : List SizeExpr) : Nat := (flat.filterMap count?).foldl (· + ·) 0

/-- The counts, multiplied. -/
abbrev countProduct (flat : List SizeExpr) : Nat := (flat.filterMap count?).foldl (· * ·) 1

theorem uncounted_cons {e : SizeExpr} (hcount : e.count? = none) (flat : List SizeExpr) :
    uncounted (e :: flat) = e :: uncounted flat :=
  List.filter_cons_of_pos (by simp [hcount])

theorem countSum_cons {e : SizeExpr} (hcount : e.count? = none) (flat : List SizeExpr) :
    countSum (e :: flat) = countSum flat := by
  rw [countSum, List.filterMap_cons_none hcount]

theorem countProduct_cons {e : SizeExpr} (hcount : e.count? = none) (flat : List SizeExpr) :
    countProduct (e :: flat) = countProduct flat := by
  rw [countProduct, List.filterMap_cons_none hcount]

theorem countSum_count (n : Nat) (flat : List SizeExpr) :
    countSum (count n :: flat) = n + countSum flat := by
  have hfold : (flat.filterMap count?).foldl (· + ·) (n + 0) = n + countSum flat :=
    List.foldl_assoc
  rwa [Nat.add_comm n 0] at hfold

theorem countProduct_count (n : Nat) (flat : List SizeExpr) :
    countProduct (count n :: flat) = n * countProduct flat := by
  have hfold : (flat.filterMap count?).foldl (· * ·) (n * 1) = n * countProduct flat :=
    List.foldl_assoc
  rwa [Nat.mul_comm n 1] at hfold

/-- A sum is infinite, or it is assembled from parts that are not. -/
theorem add_cases (parts : List SizeExpr) :
    add parts = infinity ∨
      ((addendsOf parts).any isInfinite = false ∧ countSum (addendsOf parts) ≤ maxCount ∧
        add parts = assemble sum 0 (uncounted (addendsOf parts)) (countSum (addendsOf parts))) := by
  by_cases h : ((addendsOf parts).any isInfinite ||
      decide (maxCount < countSum (addendsOf parts))) = true
  · exact .inl (if_pos h)
  · have hneither := Bool.or_eq_false_iff.1 (Bool.eq_false_iff.2 h)
    exact .inr ⟨hneither.1, by simpa using hneither.2, if_neg h⟩

/-- A product has a zero factor, or it is infinite, or it is assembled from parts that are
neither. -/
theorem multiply_cases (parts : List SizeExpr) :
    (count 0 ∈ factorsOf parts ∧ multiply parts = count 0) ∨ multiply parts = infinity ∨
      (0 ∉ (factorsOf parts).filterMap count? ∧ (factorsOf parts).any isInfinite = false ∧
        countProduct (factorsOf parts) ≤ maxCount ∧
        multiply parts =
          assemble product 1 (uncounted (factorsOf parts)) (countProduct (factorsOf parts))) := by
  by_cases hzero : ((factorsOf parts).filterMap count?).contains 0 = true
  · refine .inl ⟨?_, if_pos hzero⟩
    obtain ⟨q, hq, hcount⟩ := List.mem_filterMap.1 (List.contains_iff_mem.1 hzero)
    cases q with
    | count n =>
        obtain rfl : n = 0 := by simpa [count?] using hcount
        exact hq
    | _ => cases hcount
  · refine .inr ?_
    have hne : multiply parts = if (factorsOf parts).any isInfinite ||
        decide (maxCount < countProduct (factorsOf parts)) then infinity
        else assemble product 1 (uncounted (factorsOf parts)) (countProduct (factorsOf parts)) :=
      if_neg hzero
    by_cases h : ((factorsOf parts).any isInfinite ||
        decide (maxCount < countProduct (factorsOf parts))) = true
    · exact .inl (hne.trans (if_pos h))
    · have hneither := Bool.or_eq_false_iff.1 (Bool.eq_false_iff.2 h)
      exact .inr ⟨fun hmem => hzero (List.contains_iff_mem.2 hmem), hneither.1,
        by simpa using hneither.2, hne.trans (if_neg h)⟩

theorem mem_uncounted {flat : List SizeExpr} (hfinite : flat.any isInfinite = false)
    {q : SizeExpr} (hq : q ∈ uncounted flat) :
    q ∈ flat ∧ q.count? = none ∧ q.isInfinite = false := by
  obtain ⟨hmem, hcount⟩ := List.mem_filter.1 hq
  refine ⟨hmem, by simpa using hcount, ?_⟩
  simpa using List.any_eq_false.1 hfinite q hmem

theorem stable_assembled {flat : List SizeExpr} {identity folded : Nat}
    (hflat : ∀ q ∈ flat, Stable q) :
    ∀ q ∈ assembled identity (uncounted flat) folded, Stable q := by
  intro q hq
  rcases mem_assembled hq with hq | rfl
  · exact hflat q (List.mem_filter.1 hq).1
  · exact .count _

theorem stable_add {parts : List SizeExpr} (hparts : ∀ part ∈ parts, Stable part) :
    Stable (add parts) := by
  have hflat : ∀ q ∈ addendsOf parts, Stable q ∧ addends q = [q] := by
    intro q hq
    rw [addendsOf_eq] at hq
    obtain ⟨part, hpart, hq⟩ := List.mem_flatMap.1 hq
    exact (hparts part hpart).of_mem_addends hq
  rcases add_cases parts with hinfinity | ⟨hfinite, hfolded, hadd⟩
  · rw [hinfinity]
    exact .infinity
  have hstable : ∀ q ∈ assembled 0 (uncounted (addendsOf parts)) (countSum (addendsOf parts)),
      Stable q := stable_assembled fun q hq => (hflat q hq).1
  rw [hadd]
  rcases assemble_cases sum 0 (uncounted (addendsOf parts)) (countSum (addendsOf parts)) with
    hone | hall
  · exact hstable _ hone
  · rw [hall]
    refine .sum hstable ?_
    rw [← hall]
    refine add_assembled (fun q hq => ?_) hfolded
    obtain ⟨hmem, hcount, hq⟩ := mem_uncounted hfinite hq
    exact ⟨hcount, hq, (hflat q hmem).2⟩

theorem foldl_mul_ne_zero {counts : List Nat} {n : Nat} (hn : n ≠ 0) (hcounts : 0 ∉ counts) :
    counts.foldl (· * ·) n ≠ 0 := by
  induction counts generalizing n with
  | nil => exact hn
  | cons head rest ih =>
      have hhead : head ≠ 0 := fun h => hcounts (h ▸ List.mem_cons_self ..)
      exact ih (Nat.mul_ne_zero hn hhead) fun h => hcounts (List.mem_cons_of_mem _ h)

theorem stable_multiply {parts : List SizeExpr} (hparts : ∀ part ∈ parts, Stable part) :
    Stable (multiply parts) := by
  have hflat : ∀ q ∈ factorsOf parts, Stable q ∧ factors q = [q] := by
    intro q hq
    rw [factorsOf_eq] at hq
    obtain ⟨part, hpart, hq⟩ := List.mem_flatMap.1 hq
    exact (hparts part hpart).of_mem_factors hq
  rcases multiply_cases parts with ⟨_, hzero⟩ | hinfinity | ⟨hzero, hfinite, hfolded, hmultiply⟩
  · rw [hzero]
    exact .count 0
  · rw [hinfinity]
    exact .infinity
  have hstable : ∀ q ∈ assembled 1 (uncounted (factorsOf parts))
      (countProduct (factorsOf parts)), Stable q := stable_assembled fun q hq => (hflat q hq).1
  rw [hmultiply]
  rcases assemble_cases product 1 (uncounted (factorsOf parts)) (countProduct (factorsOf parts))
    with hone | hall
  · exact hstable _ hone
  · rw [hall]
    refine .product hstable ?_
    rw [← hall]
    refine multiply_assembled (fun q hq => ?_) hfolded (foldl_mul_ne_zero Nat.one_ne_zero hzero)
    obtain ⟨hmem, hcount, hq⟩ := mem_uncounted hfinite hq
    exact ⟨hcount, hq, (hflat q hmem).2⟩

theorem stable_mapIds (f : SymbolId → Option SymbolId) (e : SizeExpr) : (e.mapIds f).Stable := by
  induction e with
  | infinity => exact .infinity
  | count n => exact .count n
  | card sort =>
      rw [mapIds]
      split
      · exact .card _
      · exact .infinity
  | sum parts ih =>
      rw [mapIds, mapIdsOf_eq]
      refine stable_add fun part hpart => ?_
      obtain ⟨q, hq, rfl⟩ := List.mem_map.1 hpart
      exact ih q hq
  | product parts ih =>
      rw [mapIds, mapIdsOf_eq]
      refine stable_multiply fun part hpart => ?_
      obtain ⟨q, hq, rfl⟩ := List.mem_map.1 hpart
      exact ih q hq

/-! ### The sorts that a simplified size depends on -/

theorem mem_cards_of_mem_addends {e q : SizeExpr} {sort : SymbolId} (hq : q ∈ addends e)
    (hsort : sort ∈ cards q) : sort ∈ cards e := by
  induction e with
  | infinity | count | card | product => rwa [List.mem_singleton.1 hq] at hsort
  | sum parts ih =>
      rw [addends, addendsOf_eq] at hq
      obtain ⟨part, hpart, hq⟩ := List.mem_flatMap.1 hq
      exact mem_cardsOf.2 ⟨part, hpart, ih part hpart hq⟩

theorem mem_cards_of_mem_factors {e q : SizeExpr} {sort : SymbolId} (hq : q ∈ factors e)
    (hsort : sort ∈ cards q) : sort ∈ cards e := by
  induction e with
  | infinity | count | card | sum => rwa [List.mem_singleton.1 hq] at hsort
  | product parts ih =>
      rw [factors, factorsOf_eq] at hq
      obtain ⟨part, hpart, hq⟩ := List.mem_flatMap.1 hq
      exact mem_cardsOf.2 ⟨part, hpart, ih part hpart hq⟩

theorem mem_cards_assemble {make : List SizeExpr → SizeExpr}
    (hmake : ∀ parts, cards (make parts) = cardsOf parts) {identity folded : Nat}
    {terms : List SizeExpr} {sort : SymbolId}
    (hsort : sort ∈ cards (assemble make identity terms folded)) :
    ∃ term ∈ terms, sort ∈ cards term := by
  have hpart : ∃ q ∈ assembled identity terms folded, sort ∈ cards q := by
    rcases assemble_cases make identity terms folded with hone | hall
    · exact ⟨_, hone, hsort⟩
    · rw [hall, hmake] at hsort
      exact mem_cardsOf.1 hsort
  obtain ⟨q, hq, hsort⟩ := hpart
  rcases mem_assembled hq with hq | rfl
  · exact ⟨q, hq, hsort⟩
  · exact absurd hsort List.not_mem_nil

theorem exists_of_mem_cards_add {parts : List SizeExpr} {sort : SymbolId}
    (hsort : sort ∈ cards (add parts)) : ∃ part ∈ parts, sort ∈ cards part := by
  rcases add_cases parts with hinfinity | ⟨_, _, hadd⟩
  · rw [hinfinity] at hsort
    exact absurd hsort List.not_mem_nil
  · rw [hadd] at hsort
    obtain ⟨q, hq, hsort⟩ := mem_cards_assemble (fun _ => rfl) hsort
    have hflat := (List.mem_filter.1 hq).1
    rw [addendsOf_eq] at hflat
    obtain ⟨part, hpart, hq⟩ := List.mem_flatMap.1 hflat
    exact ⟨part, hpart, mem_cards_of_mem_addends hq hsort⟩

theorem exists_of_mem_cards_multiply {parts : List SizeExpr} {sort : SymbolId}
    (hsort : sort ∈ cards (multiply parts)) : ∃ part ∈ parts, sort ∈ cards part := by
  rcases multiply_cases parts with ⟨_, hzero⟩ | hinfinity | ⟨_, _, _, hmultiply⟩
  · rw [hzero] at hsort
    exact absurd hsort List.not_mem_nil
  · rw [hinfinity] at hsort
    exact absurd hsort List.not_mem_nil
  · rw [hmultiply] at hsort
    obtain ⟨q, hq, hsort⟩ := mem_cards_assemble (fun _ => rfl) hsort
    have hflat := (List.mem_filter.1 hq).1
    rw [factorsOf_eq] at hflat
    obtain ⟨part, hpart, hq⟩ := List.mem_flatMap.1 hflat
    exact ⟨part, hpart, mem_cards_of_mem_factors hq hsort⟩

end SizeExpr

end ManySorted
