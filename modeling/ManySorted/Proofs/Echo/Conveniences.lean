import ManySorted.Proofs.Accepted.Parts
import ManySorted.Proofs.Declaration.Forms
import ManySorted.Proofs.Echo.Basic
import ManySorted.Proofs.Session.Normality

/-!
# What the convenience unions accept

The convenience unions accept all sorts and all constants of a table.  So if a table holds just the
counterparts of the symbols of another one, its convenience unions accept the counterparts of what
those of the other one accept (`Table.Echoes.convenienceValues`).
-/

namespace ManySorted

/-- Whether symbols of the kind are among the constants that a convenience union accepts. -/
def SymbolKind.isValue : SymbolKind → Bool
  | userConstant .enumerated | userConstant .symbolic | userConstant (.type _) => true
  | _ => false

theorem SymbolKind.isValue_relabel (f : SymbolId → SymbolId) (kind : SymbolKind) :
    (kind.relabel f).isValue = kind.isValue := by
  cases kind with
  | userConstant constant => cases constant <;> rfl
  | _ => rfl

namespace AcceptedValues

variable {v w : AcceptedValues} {f : SymbolId → SymbolId} {p : Part}

theorem hasPart_addSort {s : SymbolId} :
    (v.addSort s).HasPart p ↔ v.HasPart p ∨ p = .sort s := by
  cases p with
  | sort s' =>
      refine (OrderedSet.mem_insert).trans ?_
      rw [Part.sort.injEq, or_comm]
      rfl
  | _ => simp [HasPart, addSort]

theorem hasPart_addConstant {c : SymbolId} :
    (v.addConstant c).HasPart p ↔ v.HasPart p ∨ p = .constant c := by
  cases p with
  | constant c' =>
      refine (OrderedSet.mem_insert).trans ?_
      rw [Part.constant.injEq, ConstantValue.symbol.injEq, or_comm]
      rfl
  | string s => simp [HasPart, addConstant]
  | _ => simp [HasPart, addConstant]

/-- What is gathered from symbols one after the other. -/
theorem hasPart_foldl {add : AcceptedValues → Symbol → AcceptedValues} (Adds : Symbol → Prop)
    (hadd : ∀ v s, (add v s).HasPart p ↔ v.HasPart p ∨ Adds s) (l : List Symbol)
    (v : AcceptedValues) : (l.foldl add v).HasPart p ↔ v.HasPart p ∨ ∃ s ∈ l, Adds s := by
  induction l generalizing v with
  | nil => simp
  | cons s l ih =>
      rw [List.foldl_cons, ih, hadd]
      simp only [List.mem_cons, exists_eq_or_imp, or_assoc]

theorem rename_union (hv : v.Normal) (hw : w.Normal) :
    (v.union w).rename f = (v.rename f).union (w.rename f) := by
  refine ((hv.union hw).rename f).ext ((hv.rename f).union (hw.rename f)) fun p => ?_
  simp only [hasPart_union, hasPart_rename, or_and_right, exists_or]

theorem rename_addBase (base : BaseSortSet) : (v.addBase base).rename f =
    (v.rename f).addBase base :=
  rfl

/-- Values in which no symbol is renamed stay. -/
theorem Normal.rename_eq_self (hv : v.Normal) (hf : ∀ x ∈ v.refs, f x = x) : v.rename f = v := by
  refine (hv.rename f).ext hv fun p => hasPart_rename.trans ?_
  have hsame : ∀ q, v.HasPart q → q.rename f = q := by
    intro q hq
    cases q with
    | constant c => exact congrArg Part.constant (hf c (mem_refs.2 (.inl hq)))
    | sort s => exact congrArg Part.sort (hf s (mem_refs.2 (.inr hq)))
    | _ => rfl
  constructor
  · rintro ⟨q, hq, rfl⟩
    rwa [hsame q hq]
  · exact fun hp => ⟨p, hp, hsame p hp⟩

end AcceptedValues

theorem CanonicalForm.rename_eq_self {form : CanonicalForm} {f : SymbolId → SymbolId}
    (hnormal : ∀ v ∈ form.positions, v.Normal) (hf : ∀ x ∈ form.refs, f x = x) :
    form.rename f = form := by
  refine congrArg CanonicalForm.mk ((List.map_congr_left fun v hv => ?_).trans (List.map_id _))
  exact (hnormal v hv).rename_eq_self fun x hx => hf x (mem_refs.2 ⟨v, hv, hx⟩)

namespace Table

variable {t t' : Table} {f : SymbolId → SymbolId} {p : Part}

theorem Arena.hasPart_allSorts (h : t.Arena) :
    t.allSorts.HasPart p ↔ ∃ s, t.IsSort s ∧ p = .sort s := by
  rw [allSorts, ← Array.foldl_toList]
  refine (AcceptedValues.hasPart_foldl
    (fun s => (∃ d size, s.kind = .userSort d size) ∧ p = .sort s.id) (fun v s => ?_) _ _).trans ?_
  · cases hkind : s.kind <;> simp [AcceptedValues.hasPart_addSort]
  · simp only [AcceptedValues.not_hasPart_empty, false_or]
    constructor
    · rintro ⟨s, hs, ⟨d, size, hkind⟩, rfl⟩
      refine ⟨s.id, ⟨d, ?_⟩, rfl⟩
      rw [kindOf, (symbol_eq_symbolAt h hs).2, hkind]
      rfl
    · rintro ⟨x, hx, rfl⟩
      obtain ⟨d, hd⟩ := hx
      obtain ⟨size, hkind⟩ := SymbolKind.unsized_eq_userSort.1 hd
      have hholds := holds_of_sort hd
      refine ⟨t.symbolAt x, mem_symbols_toList.2 ⟨x, hholds, rfl⟩, ⟨d, size, hkind⟩, ?_⟩
      rw [h.id_eq hholds]

theorem holds_of_isValue {x : SymbolId} (hx : (t.kindOf x).isValue = true) : t.Holds x :=
  holds_of_kindOf fun hcount => by
    rw [hcount] at hx
    cases hx

theorem Arena.hasPart_allConstants (h : t.Arena) :
    t.allConstants.HasPart p ↔ ∃ c, (t.kindOf c).isValue = true ∧ p = .constant c := by
  rw [allConstants, ← Array.foldl_toList]
  refine (AcceptedValues.hasPart_foldl
    (fun s => s.kind.isValue = true ∧ p = .constant s.id) (fun v s => ?_) _ _).trans ?_
  · cases hkind : s.kind with
    | userConstant constant =>
        cases constant <;> simp [AcceptedValues.hasPart_addConstant, SymbolKind.isValue]
    | _ => simp [SymbolKind.isValue]
  · simp only [AcceptedValues.not_hasPart_empty, false_or]
    constructor
    · rintro ⟨s, hs, hvalue, rfl⟩
      refine ⟨s.id, ?_, rfl⟩
      rwa [kindOf, (symbol_eq_symbolAt h hs).2]
    · rintro ⟨x, hx, rfl⟩
      have hholds := holds_of_isValue hx
      refine ⟨t.symbolAt x, mem_symbols_toList.2 ⟨x, hholds, rfl⟩, hx, ?_⟩
      rw [h.id_eq hholds]

theorem normal_allSorts (t : Table) : t.allSorts.Normal := t.normal_convenienceValues .data

theorem normal_allConstants (t : Table) : t.allConstants.Normal :=
  t.normal_convenienceValues .constant

namespace Echoes

section

variable (h : t.Echoes t' t.Holds f) {x : SymbolId} (hx : t.Holds x)
include h hx

theorem isSort : t'.IsSort (f x) ↔ t.IsSort x := by
  rw [isSort_iff_dataOf?, isSort_iff_dataOf?, h.dataOf? hx]
  simp

theorem isValue : (t'.kindOf (f x)).isValue = (t.kindOf x).isValue := by
  rw [← SymbolKind.isValue_relabel (fun y => y), h.kind hx, SymbolKind.isValue_relabel]

end

variable (h : t.Echoes t' t.Holds f) (ht : t.Arena) (ht' : t'.Arena)
  (honto : ∀ {y}, t'.Holds y → ∃ x, t.Holds x ∧ f x = y)
include h ht ht' honto

theorem allSorts : t'.allSorts = t.allSorts.rename f := by
  refine t'.normal_allSorts.ext (t.normal_allSorts.rename f) fun p => ?_
  rw [ht'.hasPart_allSorts, AcceptedValues.hasPart_rename]
  simp only [ht.hasPart_allSorts]
  constructor
  · rintro ⟨s', hs', rfl⟩
    obtain ⟨s, hs, rfl⟩ := honto hs'.holds
    exact ⟨.sort s, ⟨s, (h.isSort hs).1 hs', rfl⟩, rfl⟩
  · rintro ⟨_, ⟨s, hs, rfl⟩, rfl⟩
    exact ⟨f s, (h.isSort hs.holds).2 hs, rfl⟩

theorem allConstants : t'.allConstants = t.allConstants.rename f := by
  refine t'.normal_allConstants.ext (t.normal_allConstants.rename f) fun p => ?_
  rw [ht'.hasPart_allConstants, AcceptedValues.hasPart_rename]
  simp only [ht.hasPart_allConstants]
  constructor
  · rintro ⟨c', hc', rfl⟩
    obtain ⟨c, hc, rfl⟩ := honto (holds_of_isValue hc')
    exact ⟨.constant c, ⟨c, (h.isValue hc).symm.trans hc', rfl⟩, rfl⟩
  · rintro ⟨_, ⟨c, hc, rfl⟩, rfl⟩
    exact ⟨f c, (h.isValue (holds_of_isValue hc)).trans hc, rfl⟩

/-- Convenience unions accept the counterparts of what they accept. -/
theorem convenienceValues (c : Convenience) :
    t'.convenienceValues c = (t.convenienceValues c).rename f := by
  cases c with
  | any =>
      rw [Table.convenienceValues, Table.convenienceValues, h.allSorts ht ht' honto,
        h.allConstants ht ht' honto, AcceptedValues.rename_addBase,
        AcceptedValues.rename_union t.normal_allSorts t.normal_allConstants]
  | data => exact h.allSorts ht ht' honto
  | constant => exact h.allConstants ht ht' honto

end Echoes

end Table

end ManySorted
