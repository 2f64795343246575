import ManySorted.Proofs.Declaration.Inscription

/-!
# What restrictions depend on

The names by which problems speak of symbols depend on the namespaces and on what the symbols are,
and not on what is written to them (`Table.Alike.qualifiedName`).  The restrictions on declarations
depend also on forms and on what failed, but neither on reports nor on sizes
(`Table.restrictionReports_congr`).
-/

namespace ManySorted

theorem SymbolKind.isNew_unsized (kind : SymbolKind) : kind.unsized.isNew = kind.isNew := by
  cases kind <;> rfl

namespace Table

variable {t t' : Table}

/-! ## Names in problems -/

theorem ancestors_congr (h : t'.namespaces = t.namespaces) : t'.ancestors = t.ancestors := by
  have hwithin : ∀ fuel ns, t'.ancestorsWithin fuel ns = t.ancestorsWithin fuel ns := by
    intro fuel
    induction fuel with
    | zero => exact fun _ => rfl
    | succ fuel ih =>
        intro ns
        rw [ancestorsWithin, ancestorsWithin, namespaceAt_congr h]
        split <;> simp only [ih]
  funext ns
  rw [ancestors, ancestors, h, hwithin]

theorem path_congr (h : t'.namespaces = t.namespaces) : t'.path = t.path := by
  funext ns
  rw [path, path, ancestors_congr h, namespaceAt_congr h]

theorem isWithin_congr (h : t'.namespaces = t.namespaces) : t'.isWithin = t.isWithin := by
  funext ns ancestor
  rw [isWithin, isWithin, ancestors_congr h]

theorem Alike.bearer_name (h : t.Alike t') (x : SymbolId) :
    (t'.bearer x).name = (t.bearer x).name := by
  rw [bearer, bearer, h.dataOf?, h.name]

theorem Alike.qualifiedName (h : t.Alike t') : t'.qualifiedName = t.qualifiedName := by
  funext names x
  rw [Table.qualifiedName, Table.qualifiedName, path_congr h.namespaces_eq, h.home, h.bearer_name]

/-! ## Restrictions -/

theorem Alike.isNew (h : t.Alike t') (x : SymbolId) :
    (t'.kindOf x).isNew = (t.kindOf x).isNew := by
  rw [← SymbolKind.isNew_unsized, h.unsized, SymbolKind.isNew_unsized]

/-- Only data and constants are derived, so sizes do not matter. -/
theorem derivedRef?_eq (t : Table) (x : SymbolId) : t.derivedRef? x =
    match (t.kindOf ((t.dataOf? x).getD x)).unsized with
    | .data (.constructor false) _ | .userConstant .derived => some ((t.dataOf? x).getD x)
    | _ => none := by
  unfold derivedRef?
  generalize (t.dataOf? x).getD x = y
  dsimp only
  cases t.kindOf y <;> rfl

theorem Alike.derivedRef? (h : t.Alike t') : t'.derivedRef? = t.derivedRef? := by
  funext x
  rw [derivedRef?_eq, derivedRef?_eq, h.dataOf?, h.unsized]

section

variable (h : t.Alike t') (hforms : ∀ x, (t'.symbolAt x).canonical = (t.symbolAt x).canonical)
  (hfailed : ∀ x, (t'.symbolAt x).failed = (t.symbolAt x).failed)
include h hforms

omit h in
theorem accepted?_congr (x : SymbolId) (position : Nat) :
    (t'.symbolAt x).accepted? position = (t.symbolAt x).accepted? position := by
  rw [Symbol.accepted?, Symbol.accepted?, hforms]

theorem derivedBehind_congr : t'.derivedBehind = t.derivedBehind := by
  funext x
  rw [derivedBehind, derivedBehind, h.derivedRef?, h.isUnion, derivedMembers, derivedMembers,
    accepted?_congr hforms, h.derivedRef?]

theorem parameterReports_congr : t'.parameterReports = t.parameterReports := by
  have hsymbol : ∀ x, (t'.symbolAt x).kind.isNew = (t.symbolAt x).kind.isNew := h.isNew
  have hdata : t'.dataOf? = t.dataOf? := funext h.dataOf?
  funext names outputs param
  unfold parameterReports
  simp only [accepted?_congr hforms, hdata, hsymbol, isWithin_congr h.namespaces_eq, h.home,
    h.location, h.qualifiedName]

include hfailed

theorem newnessReports_congr : t'.newnessReports = t.newnessReports := by
  have hsymbol : ∀ x, (t'.symbolAt x).kind.isNew = (t.symbolAt x).kind.isNew := h.isNew
  funext names d
  unfold newnessReports
  simp only [hfailed, hsymbol, derivedBehind_congr h hforms, h.qualifiedName, h.location]

/-- Restrictions depend on namespaces, on forms and on what failed. -/
theorem restrictionReports_congr : t'.restrictionReports = t.restrictionReports := by
  funext names m types params
  have hlabels : t'.labelReports names m = t.labelReports names m := by
    rw [labelReports, labelReports, namespaceNames, namespaceNames, h.namespaces_eq]
  have houtputs : t'.outputNamespaces m = t.outputNamespaces m := by
    rw [outputNamespaces, outputNamespaces, namespaceAt_congr h.namespaces_eq]
  rw [restrictionReports, restrictionReports, newnessReports_congr h hforms hfailed, hlabels,
    parameterReports_congr h hforms, houtputs]

end

end Table

end ManySorted
