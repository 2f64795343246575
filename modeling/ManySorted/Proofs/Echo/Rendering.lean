import ManySorted.Proofs.Accepted.Parts
import ManySorted.Proofs.Echo.Basic
import ManySorted.Proofs.Productivity

/-!
# Forms in terms of counterparts

The form of a symbol may be found again at its counterpart, with the symbols renamed
(`Table.Renders`).  Then counterparts accept counterparts, and what is productive has a productive
counterpart and conversely (`Table.Renders.mem_productiveData`).
-/

namespace ManySorted

namespace Table

variable {t t' : Table} {D : SymbolId → Prop} {f : SymbolId → SymbolId} {x s : SymbolId}
  {v : AcceptedValues} {position : Nat} {known known' : List SymbolId}

theorem isBase_eq_false_of_isData {kind : SymbolKind} (h : kind.isData = true) :
    kind.isBase = false := by
  cases kind <;> first | rfl | cases h

/-- The data of a table is what it holds and did not import, unless it failed. -/
theorem Arena.mem_ownData_iff (h : t.Arena) : x ∈ t.ownData ↔ t.Holds x ∧
    (t.symbolAt x).isImported = false ∧ (t.kindOf x).isData = true ∧
      (t.symbolAt x).failed = false := by
  rw [h.mem_ownData]
  constructor
  · rintro ⟨howns, hdata, hfailed⟩
    exact ⟨howns.holds, (Bool.or_eq_false_iff.1 howns.unsettled).1, hdata, hfailed⟩
  · rintro ⟨hholds, himported, hdata, hfailed⟩
    refine ⟨⟨hholds, ?_⟩, hdata, hfailed⟩
    rw [Symbol.isSettled, himported, Bool.false_or]
    exact isBase_eq_false_of_isData hdata

/-- What is written to the symbols that `D` tells is found again at their counterparts, in terms of
counterparts. -/
structure Renders (t t' : Table) (D : SymbolId → Prop) (f : SymbolId → SymbolId) : Prop
    extends t.Echoes t' D f where
  holds : ∀ {x}, D x → t.Holds x ∧ t'.Holds (f x)
  form : ∀ {x}, D x →
    (t'.symbolAt (f x)).canonical = (t.symbolAt x).canonical.map (CanonicalForm.rename f)
  inside : ∀ {x form}, D x → (t.symbolAt x).canonical = some form → ∀ y ∈ form.refs, D y
  normal : ∀ {x}, D x → t.NormalAt x
  failed : ∀ {x}, D x → (t'.symbolAt (f x)).failed = (t.symbolAt x).failed
  imported : ∀ {x}, D x → (t'.symbolAt (f x)).isImported = true → (t.symbolAt x).isImported = true

namespace Renders

variable (h : t.Renders t' D f)
include h

theorem accepted? (hx : D x) (position : Nat) :
    (t'.symbolAt (f x)).accepted? position =
      ((t.symbolAt x).accepted? position).map (AcceptedValues.rename f) := by
  rw [Symbol.accepted?, Symbol.accepted?, h.form hx]
  cases (t.symbolAt x).canonical with
  | none => rfl
  | some form => exact List.getElem?_map

section

variable (hx : D x) (hv : (t.symbolAt x).accepted? position = some v)
include hx hv

theorem accepted_refs : ∀ y ∈ v.refs, D y := by
  obtain ⟨form, hform, hget⟩ := Option.bind_eq_some_iff.1 hv
  exact fun y hy => h.inside hx hform y
    (CanonicalForm.mem_refs.2 ⟨v, List.mem_of_getElem? hget, hy⟩)

theorem accepted_normal : v.Normal := by
  obtain ⟨form, hform, hget⟩ := Option.bind_eq_some_iff.1 hv
  exact h.normal hx form hform v (List.mem_of_getElem? hget)

theorem accepted_injectiveOn : v.InjectiveOn f := fun y hy z hz =>
  h.injective (h.accepted_refs hx hv y hy) (h.accepted_refs hx hv z hz)

theorem perm_sorts : (v.rename f).sorts.toList.Perm (v.sorts.toList.map f) :=
  AcceptedValues.perm_sorts_rename (h.accepted_normal hx hv) (h.accepted_injectiveOn hx hv)

/-- What a position can be filled with leads to what the counterpart can be filled with. -/
theorem canFill_rename
    (hknown : ∀ {s d}, D s → t.dataOf? s = some d → (t.symbolAt d).isImported = true ∨ d ∈ known →
      (t'.symbolAt (f d)).isImported = true ∨ f d ∈ known')
    (hfill : t.canFill known v = true) : t'.canFill known' (v.rename f) = true := by
  rw [canFill, Bool.or_eq_true, AcceptedValues.hasGroundValues_rename (h.accepted_normal hx hv)
    (h.accepted_injectiveOn hx hv)]
  rcases Bool.or_eq_true _ _ ▸ hfill with hground | hsorts
  · exact .inl hground
  · obtain ⟨d, hd, hthere⟩ := List.any_eq_true.1 hsorts
    obtain ⟨s, hs, hd⟩ := List.mem_filterMap.1 hd
    have hDs := h.accepted_refs hx hv s (AcceptedValues.mem_refs.2 (.inr hs))
    rw [Bool.or_eq_true, List.contains_iff_mem] at hthere
    refine .inr (List.any_eq_true.2 ⟨f d, List.mem_filterMap.2 ⟨f s, ?_, ?_⟩, ?_⟩)
    · exact (h.perm_sorts hx hv).mem_iff.2 (List.mem_map_of_mem hs)
    · rw [h.dataOf? hDs, hd]
      rfl
    · rw [Bool.or_eq_true, List.contains_iff_mem]
      exact hknown hDs hd hthere

theorem canFill_of_rename
    (hknown : ∀ {s d}, D s → t.dataOf? s = some d →
      (t'.symbolAt (f d)).isImported = true ∨ f d ∈ known' →
        (t.symbolAt d).isImported = true ∨ d ∈ known)
    (hfill : t'.canFill known' (v.rename f) = true) : t.canFill known v = true := by
  rw [canFill, Bool.or_eq_true]
  rw [canFill, Bool.or_eq_true, AcceptedValues.hasGroundValues_rename (h.accepted_normal hx hv)
    (h.accepted_injectiveOn hx hv)] at hfill
  refine hfill.imp_right fun hsorts => ?_
  obtain ⟨d', hd', hthere⟩ := List.any_eq_true.1 hsorts
  obtain ⟨s', hs', hd'⟩ := List.mem_filterMap.1 hd'
  obtain ⟨s, hs, rfl⟩ := List.mem_map.1 ((h.perm_sorts hx hv).mem_iff.1 hs')
  have hDs := h.accepted_refs hx hv s (AcceptedValues.mem_refs.2 (.inr hs))
  rw [h.dataOf? hDs] at hd'
  obtain ⟨d, hd, rfl⟩ := Option.map_eq_some_iff.1 hd'
  rw [Bool.or_eq_true, List.contains_iff_mem] at hthere
  refine List.any_eq_true.2 ⟨d, List.mem_filterMap.2 ⟨s, hs, hd⟩, ?_⟩
  rw [Bool.or_eq_true, List.contains_iff_mem]
  exact hknown hDs hd hthere

end

/-- What can be built has a counterpart that can be built. -/
theorem canBuild_rename (hx : D x)
    (hknown : ∀ {s d}, D s → t.dataOf? s = some d → (t.symbolAt d).isImported = true ∨ d ∈ known →
      (t'.symbolAt (f d)).isImported = true ∨ f d ∈ known')
    (hbuild : t.canBuild known x = true) : t'.canBuild known' (f x) = true := by
  rw [canBuild_eq_true] at hbuild ⊢
  rw [h.arity hx]
  intro position hposition
  obtain ⟨v, hv, hfill⟩ := hbuild position hposition
  exact ⟨v.rename f, by rw [h.accepted? hx, hv]; rfl, h.canFill_rename hx hv hknown hfill⟩

theorem canBuild_of_rename (hx : D x)
    (hknown : ∀ {s d}, D s → t.dataOf? s = some d →
      (t'.symbolAt (f d)).isImported = true ∨ f d ∈ known' →
        (t.symbolAt d).isImported = true ∨ d ∈ known)
    (hbuild : t'.canBuild known' (f x) = true) : t.canBuild known x = true := by
  rw [canBuild_eq_true] at hbuild ⊢
  rw [h.arity hx] at hbuild
  intro position hposition
  obtain ⟨v', hv', hfill⟩ := hbuild position hposition
  rw [h.accepted? hx] at hv'
  obtain ⟨v, hv, rfl⟩ := Option.map_eq_some_iff.1 hv'
  exact ⟨v, hv, h.canFill_of_rename hx hv hknown hfill⟩

theorem mem_ownData_rename (ht : t.Arena) (ht' : t'.Arena) (hx : D x) (hown : x ∈ t.ownData) :
    f x ∈ t'.ownData := by
  obtain ⟨-, howns, hdata, hfailed⟩ := ht.mem_ownData_iff.1 hown
  refine ht'.mem_ownData_iff.2 ⟨(h.holds hx).2, ?_, (h.isData hx).trans hdata,
    (h.failed hx).trans hfailed⟩
  exact Bool.eq_false_iff.2 fun himported => Bool.eq_false_iff.1 howns (h.imported hx himported)

theorem mem_productiveData_rename (ht : t.Arena) (ht' : t'.Arena)
    (himports : ∀ {s d}, D s → t.dataOf? s = some d → (t.symbolAt d).isImported = true →
      (t'.symbolAt (f d)).isImported = true ∨ f d ∈ t'.productiveData)
    (hx : D x) (hproductive : x ∈ t.productiveData) : f x ∈ t'.productiveData := by
  refine productive_induction (P := fun x => D x → f x ∈ t'.productiveData) ?_ x hproductive hx
  intro x known hown hbuild hknown hx
  refine mem_productiveData.2 ⟨h.mem_ownData_rename ht ht' hx hown, ?_⟩
  refine h.canBuild_rename hx (fun {s d} hs hd hthere => ?_) hbuild
  rcases hthere with himported | hmem
  · exact himports hs hd himported
  · exact .inr (hknown d hmem (h.data hs hd))

/-- Data whose counterpart is productive is productive, unless it is imported. -/
theorem mem_productiveData_of_rename (ht : t.Arena) (ht' : t'.Arena) (hx : D x)
    (howns : (t.symbolAt x).isImported = false) (hproductive : f x ∈ t'.productiveData) :
    x ∈ t.productiveData := by
  have hall := productive_induction (t := t') (P := fun y => ∀ x, D x → f x = y →
    (t.symbolAt x).isImported = true ∨ x ∈ t.productiveData) ?_ (f x) hproductive x hx rfl
  · exact hall.resolve_left fun himported => Bool.false_ne_true (howns.symm.trans himported)
  · rintro _ known hown hbuild hknown x hx rfl
    cases himported : (t.symbolAt x).isImported with
    | true => exact .inl rfl
    | false =>
        obtain ⟨-, -, hdata, hfailed⟩ := ht'.mem_ownData_iff.1 hown
        refine .inr (mem_productiveData.2 ⟨ht.mem_ownData_iff.2 ⟨(h.holds hx).1, himported,
          (h.isData hx).symm.trans hdata, (h.failed hx).symm.trans hfailed⟩, ?_⟩)
        refine h.canBuild_of_rename hx (fun {s d} hs hd hthere => ?_) hbuild
        rcases hthere with himported | hmem
        · exact .inl (h.imported (h.data hs hd) himported)
        · exact hknown _ hmem d (h.data hs hd) rfl

end Renders

end Table

end ManySorted
