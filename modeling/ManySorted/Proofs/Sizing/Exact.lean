import ManySorted.Proofs.Inhabitation
import ManySorted.Proofs.Sizing.Counting
import ManySorted.Proofs.Sizing.Progress

/-!
# Sizes count terms

Where only constructor sorts are reached from a sort, none of them on a cycle, and no position
accepts base sorts other than truth values, the sort has finitely many terms (`Table.Enumerable`).
Its size is their number, if that is not too great (`Session.size_exact`): for the sorts of a module
this follows from the equations that sizes solve, for imported sorts from the originals, whose terms
are as many.  Positions that list a truth value besides accepting all of them are left out, for
there it is counted twice (`Doubled.not_size_exact`).

## Strategy

* **Counting terms.**  The terms of a constructor sort are lists of what its positions accept, so
  there are as many as the product says, where the terms of the accepted sorts are counted
  (`Table.WellFormed.encard_terms_eq`).
* **Induction.**  There is no cycle, so what holds of a sort if it holds of all that it accepts
  holds of every sort (`Table.Intact.reach_induction`).
* **The sorts of a module.**  Their sizes solve the equations, and these count in the same way
  (`Table.Balanced.sizedByTerms`).
* **Imported sorts.**  A copy accepts copies of what the original accepts, and has as many terms
  (`Table.Embedding.encard_terms`), so it is sized by its terms if the original is
  (`Table.Trusted.sizedByTerms`).
* **Whole sessions.**  Tables are checked one after the other, and sizes count terms in each one if
  they do in those before (`checkModule_countsTerms`, `Session.countsTerms`).
-/

namespace ManySorted

/-! ## Sums and products of counts -/

namespace SizeExpr

variable {counts : List Nat}

theorem addendsOf_counts : addendsOf (counts.map count) = counts.map count := by
  rw [addendsOf_eq, List.flatMap_map]
  exact List.flatMap_pure_eq_map count counts

theorem factorsOf_counts : factorsOf (counts.map count) = counts.map count := by
  rw [factorsOf_eq, List.flatMap_map]
  exact List.flatMap_pure_eq_map count counts

@[simp]
theorem filterMap_count?_counts : (counts.map count).filterMap count? = counts := by
  rw [List.filterMap_map]
  exact List.filterMap_some

@[simp]
theorem any_isInfinite_counts : (counts.map count).any isInfinite = false := by
  simp [isInfinite]

@[simp]
theorem filter_not_counts : (counts.map count).filter (·.count?.isNone) = [] := by
  simp [count?]

theorem add_counts (h : counts.sum ≤ maxCount) : add (counts.map count) = count counts.sum := by
  have hfolded : counts.foldl (· + ·) 0 = counts.sum := List.sum_eq_foldl.symm
  rw [add, addendsOf_counts, filterMap_count?_counts, any_isInfinite_counts, filter_not_counts,
    hfolded, Bool.false_or, if_neg (by simpa using h), assemble_eq]
  simp [assembled]

theorem multiply_counts (h : counts.prod ≤ maxCount) :
    multiply (counts.map count) = count counts.prod := by
  have hfolded : counts.foldl (· * ·) 1 = counts.prod := List.prod_eq_foldl.symm
  rw [multiply, factorsOf_counts, filterMap_count?_counts]
  split
  · next hzero => rw [List.prod_eq_zero (List.contains_iff_mem.1 hzero)]
  · rw [any_isInfinite_counts, filter_not_counts, hfolded, Bool.false_or,
      if_neg (by simpa using h), assemble_eq]
    simp [assembled]

end SizeExpr

namespace Table

variable {names names' : Interner} {t source : Table} {base : NamespaceId} {ρ : SymbolId → SymbolId}
  {d s s' : SymbolId} {v : AcceptedValues}

/-! ## What is reached from a sort -/

/-- Whether some position of a sort accepts another sort. -/
def Accepts (t : Table) (s s' : SymbolId) : Prop :=
  ∃ form, (t.symbolAt s).canonical = some form ∧ ∃ v ∈ form.positions, s' ∈ v.sorts

/-- A constructor sort that is not on a cycle and none of whose positions accepts a base sort other
than that of the truth values. -/
structure Enumerable (t : Table) (s : SymbolId) : Prop where
  constructor : ∃ d isNew info, t.dataOf? s = some d ∧
    t.kindOf d = .data (.constructor isNew) info
  acyclic : ¬ Relation.TransGen t.Accepts s s
  bounded : ∀ form, (t.symbolAt s).canonical = some form → ∀ v ∈ form.positions, BoundedBase v

/-- No position of a sort lists a truth value besides accepting all of them. -/
def TruthsApartAt (t : Table) (s : SymbolId) : Prop :=
  ∀ form, (t.symbolAt s).canonical = some form → ∀ v ∈ form.positions, t.TruthsApart v

/-- The terms of a sort are finitely many, and their number is its size unless it is too great. -/
def SizedByTerms (t : Table) (s : SymbolId) : Prop :=
  ∃ n : Nat, (t.terms s).encard = n ∧ (n ≤ maxCount → (t.symbolAt s).size? = some (.count n))

/-- The sizes of all sorts from which only such sorts are reached count their terms. -/
def CountsTerms (t : Table) : Prop := ∀ s, t.IsSort s →
  (∀ s', Relation.ReflTransGen t.Accepts s s' → t.Enumerable s' ∧ t.TruthsApartAt s') →
    t.SizedByTerms s

theorem Intact.isSort_of_accepts (ht : t.Intact names) (h : t.Accepts s s') : t.IsSort s' := by
  obtain ⟨form, hform, v, hv, hs'⟩ := h
  exact ((ht.closed (holds_of_canonical hform)).form hform v hv).sorts hs'

/-- What holds of a sort that is reached if it holds of all that it accepts holds of the sort
itself, unless one that is reached is on a cycle. -/
theorem Intact.reach_induction (ht : t.Intact names) {Q : SymbolId → Prop} (hs : t.IsSort s)
    (hacyclic : ∀ s', Relation.ReflTransGen t.Accepts s s' → ¬ Relation.TransGen t.Accepts s' s')
    (step : ∀ s', t.IsSort s' → Relation.ReflTransGen t.Accepts s s' →
      (∀ s'', t.Accepts s' s'' → Q s'') → Q s') : Q s := by
  let Reached := {s' // Relation.ReflTransGen t.Accepts s s'}
  have hsort : ∀ {s'}, Relation.ReflTransGen t.Accepts s s' → t.IsSort s' := by
    rintro s' (_ | ⟨-, haccepts⟩)
    · exact hs
    · exact ht.isSort_of_accepts haccepts
  have hfinite : Finite Reached := by
    refine Finite.of_injective (β := Fin t.symbols.size)
      (fun s' => ⟨s'.1.index, (hsort s'.2).holds⟩) fun a b heq => Subtype.ext ?_
    have hindex := Fin.mk.inj heq
    cases ha : a.1
    cases hb : b.1
    simp_all
  let r (a b : Reached) : Prop := Relation.TransGen t.Accepts b.1 a.1
  have htrans : IsTrans Reached r := ⟨fun a b c hab hbc => hbc.trans hab⟩
  have hirrefl : Std.Irrefl r := ⟨fun a => hacyclic a.1 a.2⟩
  have hwf : WellFounded r := Finite.wellFounded_of_trans_of_irrefl r
  have hall : ∀ s' : Reached, Q s'.1 := fun s' => hwf.induction s' fun a ih =>
    step a.1 (hsort a.2) a.2 fun s'' haccepts => ih ⟨s'', a.2.tail haccepts⟩ (.single haccepts)
  exact hall ⟨s, .refl⟩

/-! ## How many terms there are -/

/-- The number of terms that a position accepts, if there are finitely many. -/
noncomputable def admittedCount (t : Table) (v : AcceptedValues) : Nat :=
  v.groundSum + (v.sorts.toList.map fun s => (t.terms s).ncard).sum

/-- Where the terms of the sorts that it accepts are counted, so are those of a sort. -/
theorem WellFormed.encard_terms_eq (h : t.WellFormed names) (hnormal : t.NormalAt s)
    (hd : t.dataOf? s = some d) {form : CanonicalForm}
    (hform : (t.symbolAt s).canonical = some form) (henumerable : t.Enumerable s)
    (hapart : t.TruthsApartAt s) (hfinite : ∀ s', t.Accepts s s' → (t.terms s').Finite) :
    (t.terms s).encard = ((form.positions.map t.admittedCount).prod : Nat) := by
  rw [encard_terms hd hform, Nat.cast_list_prod, List.map_map]
  refine congrArg List.prod (List.map_congr_left fun v hv => ?_)
  rw [h.encard_admitted (hnormal form hform v hv), h.encard_groundTerms (hnormal form hform v hv)
    (henumerable.bounded form hform v hv) (hapart form hform v hv)]
  rw [Function.comp_apply, admittedCount, Nat.cast_add, Nat.cast_list_sum, List.map_map]
  refine congrArg _ (congrArg List.sum (List.map_congr_left fun s' hs' => ?_))
  exact ((hfinite s' ⟨form, hform, v, hv, hs'⟩).cast_ncard_eq).symm

theorem SizedByTerms.finite (h : t.SizedByTerms s) : (t.terms s).Finite := by
  obtain ⟨n, hn, -⟩ := h
  exact Set.finite_of_encard_eq_coe hn

theorem SizedByTerms.size (h : t.SizedByTerms s) (hle : (t.terms s).ncard ≤ maxCount) :
    (t.symbolAt s).size? = some (.count (t.terms s).ncard) := by
  obtain ⟨n, hn, hsize⟩ := h
  obtain rfl : (t.terms s).ncard = n := by rw [Set.ncard_def, hn, ENat.toNat_natCast]
  exact hsize hle

/-! ## The sorts of a module -/

/-- The size of a position whose sorts are sized by their terms. -/
theorem slotValue?_eq_count {position : Nat}
    (hv : (t.symbolAt d).accepted? position = some v) (hbase : BoundedBase v)
    (hle : t.admittedCount v ≤ maxCount)
    (hsorts : ∀ s ∈ v.sorts, t.finalSize? s = some (.count (t.terms s).ncard)) :
    t.slotValue? d position = some (.count (t.admittedCount v)) := by
  have hground : v.groundCount = some v.groundSum := AcceptedValues.groundCount_eq_some.2
    ⟨boundedBase_iff.1 hbase, (Nat.le_add_right _ _).trans hle, rfl⟩
  have haddends : ∀ s ∈ v.sorts.toList, t.addend? ((t.kindOf d).isAny position) s =
      some (.count (t.terms s).ncard) := fun s hs => by
    rw [addend?, hsorts s hs]
    rfl
  rw [slotValue?, hv]
  simp only [Option.bind_eq_bind, Option.bind_some, mapM_eq_some_map haddends, hground, pure]
  have hsum : (v.groundSum :: v.sorts.toList.map fun s => (t.terms s).ncard).sum ≤ maxCount := by
    rw [List.sum_cons]
    exact hle
  have hcounts := SizeExpr.add_counts hsum
  rw [List.map_cons, List.map_map, List.sum_cons] at hcounts
  exact congrArg some hcounts

/-- The product over the positions of a constructor, if each counts what it accepts. -/
theorem productValue?_eq_count {form : CanonicalForm}
    (harity : countedArity (t.symbolAt d) = form.positions.length)
    (hslots : ∀ position v, form.positions[position]? = some v →
      t.slotValue? d position = some (.count (t.admittedCount v)))
    (hle : (form.positions.map t.admittedCount).prod ≤ maxCount) :
    t.productValue? d = some (.count (form.positions.map t.admittedCount).prod) := by
  have hvalues : ∀ position ∈ List.range form.positions.length, t.slotValue? d position =
      some (.count ((form.positions[position]?).elim 0 t.admittedCount)) := by
    intro position hposition
    have hget := List.getElem?_eq_getElem (List.mem_range.1 hposition)
    rw [hget]
    exact hslots position _ hget
  have hmap : (List.range form.positions.length).map (fun position =>
      SizeExpr.count ((form.positions[position]?).elim 0 t.admittedCount)) =
        (form.positions.map t.admittedCount).map SizeExpr.count := by
    refine List.ext_getElem (by simp) fun i hi _ => ?_
    have hlt : i < form.positions.length := by simpa using hi
    simp [hlt]
  rw [productValue?, harity, mapM_eq_some_map hvalues, hmap, Option.map_some,
    SizeExpr.multiply_counts hle]

/-- The cycles of the graph of sizes are cycles of sorts that accept each other. -/
theorem Enumerable.not_circular (h : t.Enumerable s) (ht : t.Intact names) : ¬ t.Circular s := by
  refine fun hcircular => h.acyclic (Relation.TransGen.mono ?_ _ _ hcircular)
  rintro s s' ⟨d, -, hs, position, -, v, hv, hs', -⟩
  rw [← ht.accepted?_eq hs] at hv
  obtain ⟨form, hform, hv⟩ := Option.bind_eq_some_iff.1 hv
  exact ⟨form, hform, v, List.mem_of_getElem? hv, hs'⟩

theorem Enumerable.countedArity_eq (h : t.Enumerable s) (hs : t.dataOf? s = some d) :
    countedArity (t.symbolAt d) = (t.symbolAt d).arity := by
  obtain ⟨d', isNew, info, hs', hkind⟩ := h.constructor
  cases hs.symm.trans hs'
  rw [countedArity, show (t.symbolAt d).kind = _ from hkind]

/-- A sort of the module is sized by its terms, if those that it accepts are. -/
theorem Balanced.sizedByTerms (h : t.Balanced) (ht : t.Intact names) (hpopulated : t.Populated)
    (hsizes : ∀ s, t.IsSort s → t.finalSize? s = (t.symbolAt s).size?) (hnormal : t.NormalAt s)
    (hd : d ∈ t.productiveData) (hs : t.dataOf? s = some d) (henumerable : t.Enumerable s)
    (hapart : t.TruthsApartAt s) (hcounted : ∀ s', t.Accepts s s' → t.SizedByTerms s') :
    t.SizedByTerms s := by
  obtain ⟨x, hx⟩ := hpopulated s (isSort_iff_dataOf?.2 ⟨d, hs⟩)
  obtain ⟨form, hform⟩ := hx.exists_form
  have hcount := ht.formed.encard_terms_eq hnormal hs hform henumerable hapart fun s' haccepts =>
    (hcounted s' haccepts).finite
  refine ⟨_, hcount, fun hle => ?_⟩
  -- no factor is zero, since there is a term
  have hone : ∀ n ∈ form.positions.map t.admittedCount, n ≤ maxCount := by
    intro n hn
    refine le_trans (Nat.le_of_dvd (Nat.pos_of_ne_zero fun hzero => ?_) (List.dvd_prod hn)) hle
    rw [hzero, Nat.cast_zero, Set.encard_eq_zero] at hcount
    exact Set.notMem_empty x ((Set.ext_iff.1 hcount x).1 hx)
  obtain ⟨hsize, haccepted⟩ := ht.accepted?_data hs hform
  have hslots : ∀ position v, form.positions[position]? = some v →
      t.slotValue? d position = some (.count (t.admittedCount v)) := by
    intro position v hget
    have hv := List.mem_of_getElem? hget
    have hle := hone _ (List.mem_map_of_mem hv)
    refine slotValue?_eq_count ((haccepted position).trans hget)
      (henumerable.bounded form hform v hv) hle fun s' hs' => ?_
    have haccepts : t.Accepts s s' := ⟨form, hform, v, hv, hs'⟩
    have hterm : (t.terms s').ncard ∈ v.sorts.toList.map fun s => (t.terms s).ncard :=
      List.mem_map.2 ⟨s', hs', rfl⟩
    rw [hsizes s' (ht.isSort_of_accepts haccepts)]
    exact (hcounted s' haccepts).size
      ((List.le_sum_of_mem hterm).trans ((Nat.le_add_left _ _).trans hle))
  have hproduct := productValue?_eq_count ((henumerable.countedArity_eq hs).trans hsize.symm) hslots
    hle
  obtain ⟨s', e, hs', he, -, hacyclic⟩ := h d hd
  have hdata := ht.formed.arena.isData_of_productive hd
  obtain rfl : s' = s :=
    Option.some.inj (hs'.symm.trans ((ht.formed.families.sortOf?_iff hdata).2 hs))
  rw [he, ← hacyclic (henumerable.not_circular ht), hproduct]

/-! ## Imported sorts -/

section

variable (h : source.Embedding t base ρ) (hsource : source.Intact names)
include h

theorem Embedding.canonical (hs : source.IsSort s) :
    (t.symbolAt (ρ s)).canonical = (source.symbolAt s).canonical.map (·.rename ρ) :=
  (h.copies hs.carries).form

theorem Embedding.canonical_eq_some (hs : source.IsSort s) {form : CanonicalForm}
    (hform : (source.symbolAt s).canonical = some form) :
    (t.symbolAt (ρ s)).canonical = some (form.rename ρ) := by
  rw [h.canonical hs, hform, Option.map_some]

/-- The copy of a sort accepts the copies of what the sort accepts, and nothing else. -/
theorem Embedding.accepts_iff (hs : source.IsSort s) {x : SymbolId} :
    t.Accepts (ρ s) x ↔ ∃ s', source.Accepts s s' ∧ ρ s' = x := by
  constructor
  · rintro ⟨form, hform, v, hv, hx⟩
    rw [h.canonical hs] at hform
    obtain ⟨form, hform', rfl⟩ := Option.map_eq_some_iff.1 hform
    obtain ⟨v, hv', rfl⟩ := List.mem_map.1 hv
    obtain ⟨s', hs', hx⟩ := AcceptedValues.mem_sorts_mapIds.1 hx
    exact ⟨s', ⟨form, hform', v, hv', hs'⟩, Option.some.inj hx⟩
  · rintro ⟨s', ⟨form, hform, v, hv, hs'⟩, rfl⟩
    exact ⟨form.rename ρ, h.canonical_eq_some hs hform, v.rename ρ, List.mem_map_of_mem hv,
      AcceptedValues.mem_sorts_mapIds.2 ⟨s', hs', rfl⟩⟩

include hsource

theorem Embedding.reaches (hs : source.IsSort s)
    (hreach : Relation.ReflTransGen source.Accepts s s') :
    source.IsSort s' ∧ Relation.ReflTransGen t.Accepts (ρ s) (ρ s') := by
  induction hreach with
  | refl => exact ⟨hs, .refl⟩
  | tail _ haccepts ih =>
      exact ⟨hsource.isSort_of_accepts haccepts,
        ih.2.tail ((h.accepts_iff ih.1).2 ⟨_, haccepts, rfl⟩)⟩

/-- A sort can be enumerated if its copy can. -/
theorem Embedding.enumerable (ht : t.Regular names) (hs : source.IsSort s)
    (henumerable : t.Enumerable (ρ s)) : source.Enumerable s where
  constructor := by
    obtain ⟨d, hd⟩ := isSort_iff_dataOf?.1 hs
    obtain ⟨shape, info, hkind, -⟩ :=
      hsource.formed.families.sort (dataOf?_eq_some_iff.1 hd)
    obtain ⟨info', hkind', -⟩ := h.data hsource.formed.toRegular ht hkind
    obtain ⟨d', isNew, info'', hd', hkind''⟩ := henumerable.constructor
    cases (h.dataOf? hsource.formed.toRegular ht hd).symm.trans hd'
    cases hkind'.symm.trans hkind''
    exact ⟨d, isNew, info, hd, hkind⟩
  acyclic hcycle := by
    obtain ⟨s₁, haccepts, hreach⟩ := Relation.TransGen.head'_iff.1 hcycle
    have hs₁ := hsource.isSort_of_accepts haccepts
    exact henumerable.acyclic (.head' ((h.accepts_iff hs).2 ⟨s₁, haccepts, rfl⟩)
      (h.reaches hsource hs₁ hreach).2)
  bounded form hform v hv :=
    henumerable.bounded _ (h.canonical_eq_some hs hform) (v.rename ρ) (List.mem_map_of_mem hv)

omit hsource in
theorem Embedding.truthsApartAt (hs : source.IsSort s) (hapart : t.TruthsApartAt (ρ s)) :
    source.TruthsApartAt s := by
  intro form hform v hv hboolean c value hc hlisted
  exact hapart _ (h.canonical_eq_some hs hform) (v.rename ρ) (List.mem_map_of_mem hv) hboolean (ρ c)
    value (h.baseConstant hc) (AcceptedValues.symbol_mem_constants_mapIds.2 ⟨c, hlisted, rfl⟩)

/-- Different symbols of a form have different copies. -/
theorem Embedding.injectiveOn (ht : t.Regular names) (hv : v.Closed source) :
    v.InjectiveOn ρ := by
  have hcarries : ∀ x ∈ v.refs, source.Carries x := fun x hx => by
    rcases AcceptedValues.mem_refs.1 hx with hx | hx
    · exact (hv.constants hx).carries
    · exact (hv.sorts hx).carries
  intro x hx y hy heq
  exact hsource.formed.toRegular.relocate?_inj ht (hcarries x hx).holds (hcarries y hy).holds
    (h.relocates (hcarries x hx)) (heq ▸ h.relocates (hcarries y hy))

/-- The copy of a position accepts as much, if the sorts that it accepts have as many terms. -/
theorem Embedding.admittedCount_rename (ht : t.Regular names) (hv : v.Closed source)
    (hnormal : v.Normal)
    (hsorts : ∀ s ∈ v.sorts, (t.terms (ρ s)).encard = (source.terms s).encard) :
    t.admittedCount (v.rename ρ) = source.admittedCount v := by
  have hinjective := h.injectiveOn hsource ht hv
  have hground : (v.rename ρ).groundSum = v.groundSum := by
    rw [AcceptedValues.groundSum, AcceptedValues.groundSum,
      AcceptedValues.size_constants_rename hnormal hinjective]
    rfl
  have hperm := (AcceptedValues.perm_sorts_rename hnormal hinjective).map fun s => (t.terms s).ncard
  rw [admittedCount, admittedCount, hground, hperm.sum_eq, List.map_map]
  refine congrArg _ (congrArg List.sum (List.map_congr_left fun s hs => ?_))
  rw [Function.comp_apply, Set.ncard_def, Set.ncard_def, hsorts s hs]

/-- The copy of a sort has as many terms as the sort. -/
theorem Embedding.encard_terms (ht : t.Intact names) (hnormal : ∀ x, source.NormalAt x)
    (hnormal' : ∀ x, t.NormalAt x) (hs : source.IsSort s)
    (henumerable : ∀ x, Relation.ReflTransGen t.Accepts (ρ s) x → t.Enumerable x)
    (hapart : ∀ x, Relation.ReflTransGen t.Accepts (ρ s) x → t.TruthsApartAt x) :
    (t.terms (ρ s)).encard = (source.terms s).encard := by
  have hregular := ht.formed.toRegular
  refine (hsource.reach_induction
    (Q := fun s => (source.terms s).Finite ∧ (t.terms (ρ s)).encard = (source.terms s).encard)
    hs (fun s' hreach => ?_) fun s' hs' hreach ih => ?_).2
  · obtain ⟨hs', hreach'⟩ := h.reaches hsource hs hreach
    exact (h.enumerable hsource hregular hs' (henumerable _ hreach')).acyclic
  · have hreach' := (h.reaches hsource hs hreach).2
    have henumerable' := henumerable _ hreach'
    have hapart' := hapart _ hreach'
    obtain ⟨d, hd⟩ := isSort_iff_dataOf?.1 hs'
    cases hform : (source.symbolAt s').canonical with
    | none =>
        have hform' : (t.symbolAt (ρ s')).canonical = none := by
          rw [h.canonical hs', hform, Option.map_none]
        rw [terms_eq_empty hform, terms_eq_empty hform']
        exact ⟨Set.finite_empty, rfl⟩
    | some form =>
        have hcount := hsource.formed.encard_terms_eq (hnormal s') hd hform
          (h.enumerable hsource hregular hs' henumerable') (h.truthsApartAt hs' hapart')
          fun s'' haccepts => (ih s'' haccepts).1
        have hcount' := ht.formed.encard_terms_eq (hnormal' (ρ s'))
          (h.dataOf? hsource.formed.toRegular hregular hd) (h.canonical_eq_some hs' hform)
          henumerable' hapart' fun x haccepts => by
            obtain ⟨s'', haccepts', rfl⟩ := (h.accepts_iff hs').1 haccepts
            obtain ⟨hfinite, heq⟩ := ih s'' haccepts'
            rw [← Set.encard_ne_top_iff, heq]
            exact Set.encard_ne_top_iff.2 hfinite
        refine ⟨Set.finite_of_encard_eq_coe hcount, ?_⟩
        rw [hcount, hcount', CanonicalForm.rename, List.map_map]
        refine congrArg (fun counts : List Nat => (counts.prod : ℕ∞))
          (List.map_congr_left fun v hv => ?_)
        exact h.admittedCount_rename hsource hregular ((hsource.closed hs'.holds).form hform v hv)
          (hnormal s' form hform v hv) fun s'' hs'' => (ih s'' ⟨form, hform, v, hv, hs''⟩).2

end

/-- An imported sort is sized by its terms, if sizes count terms in the tables before. -/
theorem Trusted.sizedByTerms {tables : List Table} {o : Origin} (h : t.Trusted names tables)
    (ht : t.Intact names) (hnormal : ∀ x, t.NormalAt x)
    (hsources : ∀ source ∈ tables, source.isValid = true →
      source.Intact names ∧ (∀ x, source.NormalAt x) ∧ source.CountsTerms)
    (hs : t.IsSort s) (horigin : (t.symbolAt s).origin = some o)
    (hall : ∀ s', Relation.ReflTransGen t.Accepts s s' → t.Enumerable s' ∧ t.TruthsApartAt s') :
    t.SizedByTerms s := by
  obtain ⟨source, base, ρ, hsource, hembed, hsort, rfl⟩ := h.provenance.exists_sort hs horigin
  obtain ⟨hintact, hnormal', hcounted⟩ := hsources source hsource.mem hsource.valid
  obtain ⟨n, hn, hsize⟩ := hcounted o.symbol hsort fun s' hreach => by
    obtain ⟨hs', hreach⟩ := hembed.reaches hintact hsort hreach
    exact ⟨hembed.enumerable hintact ht.formed.toRegular hs' (hall _ hreach).1,
      hembed.truthsApartAt hs' (hall _ hreach).2⟩
  refine ⟨n, ?_, fun hle => ?_⟩
  · rw [hembed.encard_terms hintact ht hnormal' hnormal hsort (fun x hx => (hall x hx).1)
      fun x hx => (hall x hx).2, hn]
  · rw [(hembed.copies hsort.carries).size, hsize hle]
    rfl

end Table

/-! ## Whole sessions -/

section

variable {names names' : Interner} {tables : List Table} {id : TableId} {library : Library}
  {config : CheckConfig} {m : Module} {out : CheckOutput}

/-- The sorts of a valid table that are not imported belong to productive data. -/
theorem checkModule_productive_sort (h : Session names tables)
    (held : ∀ entry ∈ library.tables, entry.2 ∈ tables)
    (checked : checkModule names id library config m = (names', .ok out))
    (hvalid : out.table.isValid = true) {s d : SymbolId} (hs : out.table.dataOf? s = some d)
    (himported : (out.table.symbolAt s).isImported = false) : d ∈ out.table.productiveData := by
  obtain ⟨hintact, -, -, hproductive⟩ := checkModule_productive h h.populated held checked hvalid
  obtain ⟨_, _, hsized, -⟩ := h.sizedUpTo held checked
  obtain ⟨shape, info, hkind, rfl⟩ := hintact.formed.families.sort (Table.dataOf?_eq_some_iff.1 hs)
  refine hproductive d ⟨Table.holds_of_data hkind, ?_⟩ (by rw [hkind]; rfl)
  rw [Symbol.isSettled, show (out.table.symbolAt d).kind = _ from hkind]
  refine Bool.or_eq_false_iff.2 ⟨Bool.eq_false_iff.2 fun himported' => ?_, rfl⟩
  cases himported.symm.trans (hsized.grounded.sort himported' hs)

/-- The sorts of a valid table count with the sizes that are stored for them. -/
theorem checkModule_finalSize? (h : Session names tables)
    (held : ∀ entry ∈ library.tables, entry.2 ∈ tables)
    (checked : checkModule names id library config m = (names', .ok out))
    (hvalid : out.table.isValid = true) {s : SymbolId} (hs : out.table.IsSort s) :
    out.table.finalSize? s = (out.table.symbolAt s).size? := by
  obtain ⟨d, hd⟩ := Table.isSort_iff_dataOf?.1 hs
  rw [Table.finalSize?]
  refine if_pos (Bool.or_eq_true_iff.2 ?_)
  cases himported : (out.table.symbolAt s).isImported with
  | true => exact .inl rfl
  | false =>
      refine .inr ?_
      rw [hd, Option.any_some]
      exact List.contains_iff_mem.2 (checkModule_productive_sort h held checked hvalid hd himported)

/-- The sizes of a valid table solve their equations. -/
theorem checkModule_balanced_of_valid (h : Session names tables)
    (held : ∀ entry ∈ library.tables, entry.2 ∈ tables)
    (checked : checkModule names id library config m = (names', .ok out))
    (hvalid : out.table.isValid = true) : out.table.Balanced := by
  obtain ⟨d, hrun, -⟩ := checkModule_valid checked hvalid
  rw [Draft.checkPasses_eq_sizing] at hrun
  obtain ⟨_, sized, hsizing, -⟩ := Draft.bind_eq_ok.1 hrun
  exact (checkModule_stored h held checked hsizing).balanced (h.intact_of_check held checked)

/-- In a valid table, sizes count terms if they do in all valid tables before. -/
theorem checkModule_countsTerms (h : Session names tables)
    (hcounted : ∀ source ∈ tables, source.isValid = true → source.CountsTerms)
    (held : ∀ entry ∈ library.tables, entry.2 ∈ tables)
    (checked : checkModule names id library config m = (names', .ok out))
    (hvalid : out.table.isValid = true) : out.table.CountsTerms := by
  intro s hs hall
  have hintact := h.intact_of_check held checked
  have htrusted := checkModule_trusted h.archive.1 h.archive.2 held checked hvalid
  have hpopulated := checkModule_populated h h.populated held checked hvalid
  obtain ⟨hgrown, hproper⟩ := checkModule_grown h.archive.1 checked
  obtain ⟨_, _, hsized, -⟩ := h.sizedUpTo held checked
  refine hintact.reach_induction (Q := out.table.SizedByTerms) hs
    (fun s' hreach => (hall s' hreach).1.acyclic) fun s' hs' hreach ih => ?_
  cases horigin : (out.table.symbolAt s').origin with
  | none =>
      obtain ⟨d, hd⟩ := Table.isSort_iff_dataOf?.1 hs'
      have himported : (out.table.symbolAt s').isImported = false := by
        rw [Symbol.isImported, horigin]
        rfl
      exact (checkModule_balanced_of_valid h held checked hvalid).sizedByTerms hintact hpopulated
        (fun s hs => checkModule_finalSize? h held checked hvalid hs) (hsized.grounded.normal s')
        (checkModule_productive_sort h held checked hvalid hd himported) hd (hall s' hreach).1
        (hall s' hreach).2 ih
  | some o =>
      refine htrusted.sizedByTerms hintact hsized.grounded.normal (fun source hmem hvalid =>
        ⟨(h.intact source hmem).grown hgrown hproper, h.normal source hmem hvalid,
          hcounted source hmem hvalid⟩) hs' horigin fun x hx => hall x (hreach.trans hx)

/-- In all valid tables of a session, sizes count terms. -/
theorem Session.countsTerms (h : Session names tables) :
    ∀ t ∈ tables, t.isValid = true → t.CountsTerms := by
  induction h with
  | start => exact fun _ ht => absurd ht List.not_mem_nil
  | intern _ _ ih => exact ih
  | failed _ _ ih => exact ih
  | check h fresh held checked ih =>
      intro t ht hvalid
      rcases List.mem_append.1 ht with ht | ht
      · exact ih t ht hvalid
      · obtain rfl := List.mem_singleton.1 ht
        exact checkModule_countsTerms h ih held checked hvalid

/-- Sizes of constructor sorts are exact: if only constructor sorts are reached from a sort of a
valid table, none on a cycle, and positions accept no base sort but that of the truth values and
list no truth value besides, then the sort has finitely many terms, and its size is their number if
that is below `2 ^ 64`. -/
theorem Session.size_exact (h : Session names tables) {t : Table} (ht : t ∈ tables)
    (hvalid : t.isValid = true) {s : SymbolId}
    (hall : ∀ s', Relation.ReflTransGen t.Accepts s s' → t.Enumerable s' ∧ t.TruthsApartAt s') :
    (t.terms s).Finite ∧ ((t.terms s).ncard < 2 ^ 64 →
      (t.symbolAt s).size? = some (.count (t.terms s).ncard)) := by
  obtain ⟨d, -, -, hd, -⟩ := (hall s .refl).1.constructor
  have hsized := h.countsTerms t ht hvalid s (Table.isSort_iff_dataOf?.2 ⟨d, hd⟩) hall
  exact ⟨hsized.finite, fun hlt => hsized.size (Nat.le_of_lt_succ hlt)⟩

end

/-! ## A truth value that is counted twice -/

namespace Doubled

/-- The names of the module `D` and of its types `F`, `A` and `W`. -/
def names : Interner := internAll ["D", "F", "A", "W"]

def flag : TypeTerm := .named { segments := [⟨7⟩] }

/-- Flags, pairs of a flag or one of two integers with a flag, and `W` whose position accepts all
truth values and lists `TRUE`. -/
def module : Module where
  kind := .domain
  name := ⟨28⟩
  file := ⟨0⟩
  types :=
    [⟨⟨29⟩, {}, .constructor true [{ type := [flag] }]⟩,
     ⟨⟨30⟩, {}, .constructor true
       [{ type := [.named { segments := [⟨29⟩] }, .enumeration [.range 0 1 {}] {}] },
        { type := [.named { segments := [⟨29⟩] }] }]⟩,
     ⟨⟨31⟩, {}, .constructor true
       [{ type := [flag, .enumeration [.constant { segments := [⟨8⟩] }] {}] }]⟩]

def session : Interner × List Table := checkAll names [] [module]

def flags : AcceptedValues := { base := { boolean := true } }

def flagsOrBits : AcceptedValues := { ranges := [⟨0, 1⟩], sorts := ⟨[⟨22⟩]⟩ }

def justFlags : AcceptedValues := { sorts := ⟨[⟨22⟩]⟩ }

def flagsTwice : AcceptedValues := { base := { boolean := true }, constants := ⟨[.symbol ⟨16⟩]⟩ }

def isConstructor : SymbolKind → Bool
  | .data (.constructor _) _ => true
  | _ => false

def isTrue : SymbolKind → Bool
  | .baseConstant .true => true
  | _ => false

/-- Whether a table is valid and has the types under the handles that they have in that of `D`, and
`W` is its own and is counted with three values. -/
def describes (t : Table) : Bool :=
  t.isValid && !(t.symbolAt ⟨28⟩).isImported && t.dataOf? ⟨22⟩ == some ⟨21⟩ &&
    t.dataOf? ⟨25⟩ == some ⟨24⟩ && t.dataOf? ⟨28⟩ == some ⟨27⟩ && isConstructor (t.kindOf ⟨21⟩) &&
    isConstructor (t.kindOf ⟨24⟩) && isConstructor (t.kindOf ⟨27⟩) && isTrue (t.kindOf ⟨16⟩) &&
    (t.symbolAt ⟨22⟩).canonical == some ⟨[flags]⟩ &&
    (t.symbolAt ⟨25⟩).canonical == some ⟨[flagsOrBits, justFlags]⟩ &&
    (t.symbolAt ⟨28⟩).canonical == some ⟨[flagsTwice]⟩ &&
    ((t.symbolAt ⟨28⟩).size?.bind SizeExpr.count? == some 3)

theorem describes_session : session.2[0]?.any describes = true := by decide +kernel

/-- What `describes` says. -/
structure Described (t : Table) : Prop where
  valid : t.isValid = true
  own : (t.symbolAt ⟨28⟩).isImported = false
  flags : t.dataOf? ⟨22⟩ = some ⟨21⟩
  pairs : t.dataOf? ⟨25⟩ = some ⟨24⟩
  listed : t.dataOf? ⟨28⟩ = some ⟨27⟩
  constructors : ∀ d ∈ [(⟨21⟩ : SymbolId), ⟨24⟩, ⟨27⟩], isConstructor (t.kindOf d) = true
  truth : t.kindOf ⟨16⟩ = .baseConstant .true
  flagsForm : (t.symbolAt ⟨22⟩).canonical = some ⟨[Doubled.flags]⟩
  pairsForm : (t.symbolAt ⟨25⟩).canonical = some ⟨[flagsOrBits, justFlags]⟩
  listedForm : (t.symbolAt ⟨28⟩).canonical = some ⟨[flagsTwice]⟩
  size : (t.symbolAt ⟨28⟩).size? = some (.count 3)

theorem described_of_describes {t : Table} (h : describes t = true) : Described t := by
  simp only [describes, Bool.and_eq_true, Bool.not_eq_true', beq_iff_eq] at h
  obtain ⟨⟨⟨⟨⟨⟨⟨⟨⟨⟨⟨⟨hvalid, hown⟩, h22⟩, h25⟩, h28⟩, h21⟩, h24⟩, h27⟩, h16⟩, hflags⟩, hpairs⟩,
    hlisted⟩, hsize⟩ := h
  refine ⟨hvalid, hown, h22, h25, h28, by simp [h21, h24, h27], ?_, hflags, hpairs, hlisted, ?_⟩
  · unfold isTrue at h16
    split at h16
    · assumption
    · cases h16
  · obtain ⟨e, he, hcount⟩ := Option.bind_eq_some_iff.1 hsize
    rw [he, SizeExpr.eq_count_of_count? hcount]

section

variable {t : Table} {s x : SymbolId}

theorem accepts_iff {form : CanonicalForm} (hform : (t.symbolAt s).canonical = some form) :
    t.Accepts s x ↔ ∃ v ∈ form.positions, x ∈ v.sorts := by
  constructor
  · rintro ⟨form', hform', h⟩
    cases hform.symm.trans hform'
    exact h
  · exact fun h => ⟨form, hform, h⟩

theorem boundedBase :
    ∀ v ∈ [flags, flagsOrBits, justFlags, flagsTwice], Table.BoundedBase v := by
  simp only [Table.boundedBase_iff]
  decide

variable (h : Described t)
include h

theorem Described.enumerable {d : SymbolId} (hd : t.dataOf? s = some d)
    (hmem : d ∈ [(⟨21⟩ : SymbolId), ⟨24⟩, ⟨27⟩]) {form : CanonicalForm}
    (hform : (t.symbolAt s).canonical = some form)
    (hpositions : form.positions ⊆ [Doubled.flags, flagsOrBits, justFlags, flagsTwice])
    (hacyclic : ¬ Relation.TransGen t.Accepts s s) : t.Enumerable s where
  constructor := by
    have hconstructor := h.constructors d hmem
    unfold isConstructor at hconstructor
    split at hconstructor
    · next isNew info hkind => exact ⟨d, isNew, info, hd, hkind⟩
    · cases hconstructor
  acyclic := hacyclic
  bounded form' hform' v hv := by
    cases hform.symm.trans hform'
    exact boundedBase v (hpositions hv)

/-- A flag and a `W` are made of truth values. -/
theorem Described.not_accepts (hs : s ∈ [(⟨22⟩ : SymbolId), ⟨28⟩]) : ¬ t.Accepts s x := by
  simp only [List.mem_cons, List.not_mem_nil, or_false] at hs
  rcases hs with rfl | rfl
  · rw [accepts_iff h.flagsForm]
    rintro ⟨v, hv, hx⟩
    rw [List.mem_singleton.1 hv] at hx
    exact List.not_mem_nil hx
  · rw [accepts_iff h.listedForm]
    rintro ⟨v, hv, hx⟩
    rw [List.mem_singleton.1 hv] at hx
    exact List.not_mem_nil hx

theorem Described.accepts_pairs (hx : t.Accepts ⟨25⟩ x) : x = ⟨22⟩ := by
  obtain ⟨v, hv, hx⟩ := (accepts_iff h.pairsForm).1 hx
  simp only [List.mem_cons, List.not_mem_nil, or_false] at hv
  rcases hv with rfl | rfl
  · exact List.mem_singleton.1 hx
  · exact List.mem_singleton.1 hx

theorem Described.not_cyclic (hs : s ∈ [(⟨22⟩ : SymbolId), ⟨28⟩]) :
    ¬ Relation.TransGen t.Accepts s s := fun hcycle => by
  obtain ⟨_, haccepts, -⟩ := Relation.TransGen.head'_iff.1 hcycle
  exact h.not_accepts hs haccepts

theorem Described.reaches (hs : s ∈ [(⟨22⟩ : SymbolId), ⟨28⟩])
    (hreach : Relation.ReflTransGen t.Accepts s x) : x = s := by
  rcases Relation.ReflTransGen.cases_head hreach with heq | ⟨_, haccepts, -⟩
  · exact heq.symm
  · exact absurd haccepts (h.not_accepts hs)

theorem Described.enumerable_flags : t.Enumerable ⟨22⟩ :=
  h.enumerable h.flags (by simp) h.flagsForm (by simp) (h.not_cyclic (by simp))

theorem Described.enumerable_listed : t.Enumerable ⟨28⟩ :=
  h.enumerable h.listed (by simp) h.listedForm (by simp) (h.not_cyclic (by simp))

theorem Described.enumerable_pairs : t.Enumerable ⟨25⟩ := by
  refine h.enumerable h.pairs (by simp) h.pairsForm (by simp) fun hcycle => ?_
  obtain ⟨x, haccepts, hreach⟩ := Relation.TransGen.head'_iff.1 hcycle
  obtain rfl := h.accepts_pairs haccepts
  cases h.reaches (by simp) hreach

/-- Neither flags nor pairs list truth values. -/
theorem Described.truthsApartAt (hs : s ∈ [(⟨22⟩ : SymbolId), ⟨25⟩]) : t.TruthsApartAt s := by
  have hapart : ∀ v ∈ [Doubled.flags, flagsOrBits, justFlags], t.TruthsApart v := by
    intro v hv _ c value _ hlisted
    have hnone : ∀ v ∈ [Doubled.flags, flagsOrBits, justFlags], v.constants.toList = [] := by decide
    have hlisted : ConstantValue.symbol c ∈ v.constants.toList := hlisted
    rw [hnone v hv] at hlisted
    exact List.not_mem_nil hlisted
  simp only [List.mem_cons, List.not_mem_nil, or_false] at hs
  intro form hform v hv
  rcases hs with rfl | rfl
  · cases h.flagsForm.symm.trans hform
    exact hapart v (by simp_all)
  · cases h.pairsForm.symm.trans hform
    exact hapart v (by simp_all)

theorem Described.reaches_pairs (hreach : Relation.ReflTransGen t.Accepts ⟨25⟩ x) :
    t.Enumerable x ∧ t.TruthsApartAt x := by
  rcases Relation.ReflTransGen.cases_head hreach with rfl | ⟨y, haccepts, hreach⟩
  · exact ⟨h.enumerable_pairs, h.truthsApartAt (by simp)⟩
  · obtain rfl := h.accepts_pairs haccepts
    obtain rfl := h.reaches (by simp) hreach
    exact ⟨h.enumerable_flags, h.truthsApartAt (by simp)⟩

/-- There are two flags. -/
theorem Described.encard_flags {names : Interner} (ht : t.WellFormed names)
    (hnormal : ∀ x, t.NormalAt x) : (t.terms ⟨22⟩).encard = (2 : Nat) := by
  rw [ht.encard_terms_eq (hnormal _) h.flags h.flagsForm h.enumerable_flags
    (h.truthsApartAt (by simp)) fun _ haccepts => absurd haccepts (h.not_accepts (by simp))]
  rfl

/-- There are eight pairs. -/
theorem Described.encard_pairs {names : Interner} (ht : t.WellFormed names)
    (hnormal : ∀ x, t.NormalAt x) : (t.terms ⟨25⟩).encard = (8 : Nat) := by
  have hflags := h.encard_flags ht hnormal
  have hncard : (t.terms ⟨22⟩).ncard = 2 := by rw [Set.ncard_def, hflags, ENat.toNat_natCast]
  rw [ht.encard_terms_eq (hnormal _) h.pairs h.pairsForm h.enumerable_pairs
    (h.truthsApartAt (by simp)) fun x haccepts => by
      rw [h.accepts_pairs haccepts]
      exact Set.finite_of_encard_eq_coe hflags]
  simp only [List.map_cons, List.map_nil, Table.admittedCount, flagsOrBits, justFlags, hncard]
  rfl

/-- There are two values of `W`, whichever way `TRUE` is accepted. -/
theorem Described.encard_listed {names : Interner} (ht : t.WellFormed names) :
    (t.terms ⟨28⟩).encard = (2 : Nat) := by
  have hground : t.groundTerms flagsTwice = t.truthTerms flagsTwice := by
    rw [t.groundTerms_eq (boundedBase _ (by simp))]
    refine Set.Subset.antisymm ?_ fun a ha => .inl (.inr ha)
    rintro a ((⟨c, hc, rfl⟩ | ha) | ⟨r, hr, -⟩)
    · rw [List.mem_singleton.1 hc]
      exact ⟨.true, List.mem_cons_self, ⟨16⟩, h.truth, rfl⟩
    · exact ha
    · exact absurd hr List.not_mem_nil
  have hnormal : flagsTwice.Normal := ⟨List.pairwise_singleton _ _, IntRange.apart_nil, .nil⟩
  rw [Table.encard_terms h.listed h.listedForm, List.map_singleton, List.prod_singleton,
    ht.encard_admitted hnormal, hground, ht.encard_truthTerms]
  rfl

end

/-- Pairs of a flag or a bit with a flag are counted. -/
theorem size_exact_pairs : ∃ t ∈ session.2, t.isValid = true ∧ (t.terms ⟨25⟩).ncard = 8 ∧
    (t.symbolAt ⟨25⟩).size? = some (.count 8) := by
  obtain ⟨t, ht, hdescribes⟩ := (Option.any_eq_true _ _).1 describes_session
  have h := described_of_describes hdescribes
  have hmem := List.mem_of_getElem? ht
  have hsession : Session session.1 session.2 := session_checkAll _ [module]
  obtain ⟨-, hsize⟩ := hsession.size_exact hmem h.valid fun _ hreach => h.reaches_pairs hreach
  have hcount := h.encard_pairs (hsession.intact t hmem).formed (hsession.normal t hmem h.valid)
  have hncard : (t.terms ⟨25⟩).ncard = 8 := by rw [Set.ncard_def, hcount, ENat.toNat_natCast]
  rw [hncard] at hsize
  exact ⟨t, hmem, h.valid, hncard, hsize (by omega)⟩

/-- The two values of `W` are counted as three. -/
theorem not_size_exact : ¬ ∀ t ∈ session.2, t.isValid = true → ∀ s,
    (t.symbolAt s).isImported = false →
      (∀ s', Relation.ReflTransGen t.Accepts s s' → t.Enumerable s') →
        (t.terms s).ncard < 2 ^ 64 → (t.symbolAt s).size? = some (.count (t.terms s).ncard) := by
  intro hexact
  obtain ⟨t, ht, hdescribes⟩ := (Option.any_eq_true _ _).1 describes_session
  have h := described_of_describes hdescribes
  have hmem := List.mem_of_getElem? ht
  have hcount := h.encard_listed ((session_checkAll _ [module]).intact t hmem).formed
  have hncard : (t.terms ⟨28⟩).ncard = 2 := by rw [Set.ncard_def, hcount, ENat.toNat_natCast]
  have hsize := hexact t hmem h.valid ⟨28⟩ h.own (fun s' hreach => by
    rw [h.reaches (by simp) hreach]
    exact h.enumerable_listed) (by rw [hncard]; omega)
  rw [h.size, hncard] at hsize
  cases hsize

end Doubled

end ManySorted
