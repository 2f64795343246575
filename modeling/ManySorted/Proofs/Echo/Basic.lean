import ManySorted.Proofs.Declaration.Restricting
import ManySorted.Proofs.Import.Relocation

/-!
# Counterparts in another table

The same declarations have other handles in another table, for there they are registered in another
order or among others.  A renaming of handles leads to the counterparts if it keeps kinds and
arities and takes companions to companions (`Table.Echoes`).  What is read off a symbol is then read
off its counterpart as well, up to the renaming.

## Strategy

* **Kinds.**  Renaming the symbols in a kind keeps what the kind is (`SymbolKind.relabel`), so
  whatever is told by the kind alone is the same for counterparts (`Table.Echoes.isNew`,
  `Table.Echoes.isData`, `Table.Echoes.isAny`).
* **Companions.**  They are taken to companions, so data symbols and sorts are found through
  counterparts (`Table.Echoes.dataOf?`, `Table.Echoes.sortOf?`, `Table.Echoes.holders`).
* **What is written** to symbols does not matter (`Table.Echoes.alike`).
-/

namespace ManySorted

namespace SymbolKind

variable {f : SymbolId → SymbolId} {kind kind' : SymbolKind}

/-- The kind with the symbols in it renamed.  The size of a sort is left out, and so is how a
constant that merges was declared. -/
def relabel (f : SymbolId → SymbolId) : SymbolKind → SymbolKind
  | userSort d _ => userSort (f d) none
  | data shape info =>
      data shape { info with sort := f info.sort, typeConstant := f info.typeConstant }
  | userConstant .symbolic => userConstant .enumerated
  | userConstant (.type sort) => userConstant (.type (f sort))
  | kind => kind

theorem relabel_unsized (f : SymbolId → SymbolId) (kind : SymbolKind) :
    kind.unsized.relabel f = kind.relabel f := by
  cases kind <;> rfl

theorem isUnion_relabel (f : SymbolId → SymbolId) (kind : SymbolKind) :
    (kind.relabel f).isUnion = kind.isUnion := by
  cases kind with
  | userConstant constant => cases constant <;> rfl
  | _ => rfl

theorem isNew_relabel (f : SymbolId → SymbolId) (kind : SymbolKind) :
    (kind.relabel f).isNew = kind.isNew := by
  cases kind with
  | userConstant constant => cases constant <;> rfl
  | data shape info => cases shape <;> rfl
  | _ => rfl

theorem isData_relabel (f : SymbolId → SymbolId) (kind : SymbolKind) :
    (kind.relabel f).isData = kind.isData := by
  cases kind with
  | userConstant constant => cases constant <;> rfl
  | _ => rfl

theorem isTypeDefining_relabel (f : SymbolId → SymbolId) (kind : SymbolKind) :
    (kind.relabel f).isTypeDefining = kind.isTypeDefining := by
  cases kind with
  | userConstant constant => cases constant <;> rfl
  | _ => rfl

theorem isBase_relabel (f : SymbolId → SymbolId) (kind : SymbolKind) :
    (kind.relabel f).isBase = kind.isBase := by
  cases kind with
  | userConstant constant => cases constant <;> rfl
  | _ => rfl

theorem isDeclaredType_relabel (f : SymbolId → SymbolId) (kind : SymbolKind) :
    (kind.relabel f).isDeclaredType = kind.isDeclaredType := by
  cases kind with
  | userConstant constant => cases constant <;> rfl
  | _ => rfl

theorem convenience?_relabel (f : SymbolId → SymbolId) (kind : SymbolKind) :
    (kind.relabel f).convenience? = kind.convenience? := by
  cases kind with
  | userConstant constant => cases constant <;> rfl
  | _ => rfl

theorem isConstant_relabel (f : SymbolId → SymbolId) (kind : SymbolKind) :
    (kind.relabel f).isConstant = kind.isConstant := by
  cases kind with
  | userConstant constant => cases constant <;> rfl
  | _ => rfl

theorem relabel_eq_data {shape : DataShape} {info : DataInfo}
    (h : kind'.relabel (fun y => y) = (data shape info).relabel f) :
    kind' = data shape { info with sort := f info.sort, typeConstant := f info.typeConstant } := by
  cases kind' with
  | userConstant constant => cases constant <;> cases h
  | data shape' info' => exact h
  | _ => cases h

theorem relabel_eq_union {convenience : Option Convenience}
    (h : kind'.relabel (fun y => y) = (union convenience).relabel f) :
      kind' = union convenience := by
  cases kind' with
  | userConstant constant => cases constant <;> cases h
  | union convenience' => exact h
  | _ => cases h

theorem relabel_eq_baseSort {base : BaseSort}
    (h : kind'.relabel (fun y => y) = (baseSort base).relabel f) : kind' = baseSort base := by
  cases kind' with
  | userConstant constant => cases constant <;> cases h
  | baseSort base' => exact h
  | _ => cases h

theorem unsized_of_relabel {d : SymbolId} {size : Option SizeExpr}
    (h : kind'.relabel (fun y => y) = (userSort d size).relabel f) :
    kind'.unsized = userSort (f d) none := by
  cases kind' with
  | userConstant constant => cases constant <;> cases h
  | userSort d' size' => exact h
  | _ => cases h

end SymbolKind

namespace Table

variable {t t' u u' : Table} {D : SymbolId → Prop} {f : SymbolId → SymbolId} {x y d s : SymbolId}

/-- The symbols of `t` that `D` tells have counterparts in `t'`, to which the renaming leads. -/
structure Echoes (t t' : Table) (D : SymbolId → Prop) (f : SymbolId → SymbolId) : Prop where
  injective : ∀ {x y}, D x → D y → f x = f y → x = y
  kind : ∀ {x}, D x → (t'.kindOf (f x)).relabel (fun y => y) = (t.kindOf x).relabel f
  arity : ∀ {x}, D x → (t'.symbolAt (f x)).arity = (t.symbolAt x).arity
  sort : ∀ {d shape info}, D d → t.kindOf d = .data shape info → D info.sort
  data : ∀ {s d}, D s → t.dataOf? s = some d → D d

namespace Echoes

/-- What is written to symbols does not matter. -/
theorem alike (h : t.Echoes t' D f) (hu : t.Alike u) (hu' : t'.Alike u') : u.Echoes u' D f where
  injective := h.injective
  kind hx := by
    rw [← SymbolKind.relabel_unsized, hu'.unsized, SymbolKind.relabel_unsized, h.kind hx,
      ← SymbolKind.relabel_unsized, ← hu.unsized, SymbolKind.relabel_unsized]
  arity hx := by rw [hu'.arity, hu.arity, h.arity hx]
  sort hd hkind := h.sort hd (hu.kindOf_data.1 hkind)
  data hs hd := h.data hs ((hu.dataOf? _).symm.trans hd)

section

variable (h : t.Echoes t' D f) (hx : D x)
include h hx

theorem isUnion : (t'.kindOf (f x)).isUnion = (t.kindOf x).isUnion := by
  rw [← SymbolKind.isUnion_relabel (fun y => y), h.kind hx, SymbolKind.isUnion_relabel]

theorem isNew : (t'.kindOf (f x)).isNew = (t.kindOf x).isNew := by
  rw [← SymbolKind.isNew_relabel (fun y => y), h.kind hx, SymbolKind.isNew_relabel]

theorem isData : (t'.kindOf (f x)).isData = (t.kindOf x).isData := by
  rw [← SymbolKind.isData_relabel (fun y => y), h.kind hx, SymbolKind.isData_relabel]

theorem isTypeDefining : (t'.kindOf (f x)).isTypeDefining = (t.kindOf x).isTypeDefining := by
  rw [← SymbolKind.isTypeDefining_relabel (fun y => y), h.kind hx,
    SymbolKind.isTypeDefining_relabel]

theorem isConstant : (t'.kindOf (f x)).isConstant = (t.kindOf x).isConstant := by
  rw [← SymbolKind.isConstant_relabel (fun y => y), h.kind hx, SymbolKind.isConstant_relabel]

theorem kindOf_data {shape : DataShape} {info : DataInfo} (hkind : t.kindOf x = .data shape info) :
    t'.kindOf (f x) = .data shape
      { info with sort := f info.sort, typeConstant := f info.typeConstant } :=
  SymbolKind.relabel_eq_data (hkind ▸ h.kind hx)

theorem kindOf_union {convenience : Option Convenience} (hkind : t.kindOf x = .union convenience) :
    t'.kindOf (f x) = .union convenience :=
  SymbolKind.relabel_eq_union (hkind ▸ h.kind hx)

/-- A constant other than a parameter has one as its counterpart. -/
theorem kindOf_constant {constant : ConstantKind} (hkind : t.kindOf x = .userConstant constant)
    (hvalue : constant ≠ .parameter) :
    ∃ constant', t'.kindOf (f x) = .userConstant constant' ∧ constant' ≠ .parameter := by
  have hrelabel := h.kind hx
  rw [hkind] at hrelabel
  cases hkind' : t'.kindOf (f x) with
  | userConstant constant' =>
      refine ⟨constant', rfl, fun hparameter => ?_⟩
      rw [hkind', hparameter] at hrelabel
      cases constant <;> first | exact hvalue rfl | cases hrelabel
  | _ =>
      rw [hkind'] at hrelabel
      cases constant <;> cases hrelabel

theorem info? : (t'.kindOf (f x)).info? = (t.kindOf x).info?.map fun info =>
    { info with sort := f info.sort, typeConstant := f info.typeConstant } := by
  cases hkind : t.kindOf x with
  | data shape info =>
      rw [h.kindOf_data hx hkind]
      rfl
  | _ =>
      have hdata := h.isData hx
      rw [hkind] at hdata
      cases hkind' : t'.kindOf (f x) <;> first | rfl | (rw [hkind'] at hdata; cases hdata)

theorem labels : (t'.kindOf (f x)).labels = (t.kindOf x).labels := by
  rw [SymbolKind.labels, SymbolKind.labels, h.info? hx]
  cases (t.kindOf x).info? <;> rfl

theorem isAny : (t'.kindOf (f x)).isAny = (t.kindOf x).isAny := by
  funext position
  rw [SymbolKind.isAny, SymbolKind.isAny, SymbolKind.anyMarks, SymbolKind.anyMarks, h.info? hx]
  cases (t.kindOf x).info? <;> rfl

theorem dataOf? : t'.dataOf? (f x) = (t.dataOf? x).map f := by
  have hkind := h.kind hx
  cases hd : t.dataOf? x with
  | some d =>
      obtain ⟨size, hsort⟩ := SymbolKind.unsized_eq_userSort.1 (dataOf?_eq_some_iff.1 hd)
      rw [hsort] at hkind
      exact dataOf?_eq_some_iff.2 (SymbolKind.unsized_of_relabel hkind)
  | none =>
      refine Option.eq_none_iff_forall_ne_some.2 fun d' hd' => ?_
      obtain ⟨size, hsort⟩ := SymbolKind.unsized_eq_userSort.1 (dataOf?_eq_some_iff.1 hd')
      rw [hsort] at hkind
      cases hother : t.kindOf x with
      | userSort d size =>
          rw [Table.dataOf?, hother] at hd
          cases hd
      | userConstant constant =>
          rw [hother] at hkind
          cases constant <;> cases hkind
      | _ =>
          rw [hother] at hkind
          cases hkind

/-- Counterparts go under the name of counterparts. -/
theorem dataOf?_getD : (t'.dataOf? (f x)).getD (f x) = f ((t.dataOf? x).getD x) := by
  rw [h.dataOf? hx]
  cases t.dataOf? x <;> rfl

omit hx in
theorem data_getD (hx : D x) : D ((t.dataOf? x).getD x) := by
  cases hd : t.dataOf? x with
  | none => exact hx
  | some d => exact h.data hx hd

theorem sortOf? : t'.sortOf? (f x) = (t.sortOf? x).map f := by
  cases hkind : t.kindOf x with
  | userSort d size =>
      obtain ⟨size', hsort⟩ := SymbolKind.unsized_eq_userSort.1
        (SymbolKind.unsized_of_relabel (hkind ▸ h.kind hx))
      rw [Table.sortOf?, Table.sortOf?, hkind, hsort]
      rfl
  | data shape info =>
      rw [Table.sortOf?, Table.sortOf?, h.kindOf_data hx hkind, hkind]
      rfl
  | _ =>
      have hinfo := h.info? hx
      have hd := h.dataOf? hx
      rw [hkind] at hinfo
      rw [Table.dataOf?, Table.dataOf?, hkind] at hd
      rw [Table.sortOf?, Table.sortOf?, hkind]
      cases hkind' : t'.kindOf (f x) with
      | userSort d' size' =>
          rw [hkind'] at hd
          cases hd
      | data shape' info' =>
          rw [hkind'] at hinfo
          cases hinfo
      | _ => rfl

theorem holders : t'.holders (f x) = (t.holders x).map f := by
  rw [Table.holders, Table.holders, h.info? hx]
  cases (t.kindOf x).info? <;> rfl

theorem derivedRef? : t'.derivedRef? (f x) = (t.derivedRef? x).map f := by
  have hdata := h.data_getD hx
  rw [Table.derivedRef?, Table.derivedRef?, h.dataOf?_getD hx]
  have hkind := h.kind hdata
  cases hd : t.kindOf ((t.dataOf? x).getD x) with
  | data shape info =>
      rw [h.kindOf_data hdata hd]
      cases shape with
      | constructor isNew => cases isNew <;> rfl
      | map => rfl
  | userConstant constant =>
      rw [hd] at hkind
      cases hkind' : t'.kindOf (f ((t.dataOf? x).getD x)) with
      | userConstant constant' =>
          rw [hkind'] at hkind
          cases constant <;> cases constant' <;> first | rfl | cases hkind
      | _ =>
          rw [hkind'] at hkind
          cases constant <;> cases hkind
  | _ =>
      rw [hd] at hkind
      cases hkind' : t'.kindOf (f ((t.dataOf? x).getD x)) with
      | userConstant constant' =>
          rw [hkind'] at hkind
          cases constant' <;> cases hkind
      | data shape' info' =>
          rw [hkind'] at hkind
          cases hkind
      | _ => rfl

end

end Echoes

end Table

end ManySorted
