import ManySorted.Proofs.Echo.Declaring

/-!
# Restrictions in another order

The restrictions on declarations are read off forms, homes and names, which counterparts have in
common.  So the same violations are reported whatever the order of the types
(`Draft.Enacted.perm_restrictionReports`), and with the problems of type terms all that declaring
reports (`Draft.Enacted.perm_reports`).

## Strategy

* **Members.**  A form of one draft has the counterparts of the members that it has in the other
  one, up to order (`Table.Renders.perm_derivedMembers`, `Table.Renders.perm_derivedBehind`).
* **Newness.**  New data is found to take derived data just where its counterpart is
  (`Draft.Enacted.perm_newnessReports`).
* **Labels and parameters.**  Labels are compared with the names of namespaces
  (`Draft.Enacted.perm_labelReports`), parameters with the new data of the outputs
  (`Draft.Enacted.perm_parameterReports`).
-/

namespace ManySorted

/-- What is gathered from counterparts is what is gathered from members, up to order. -/
theorem perm_flatMap_map {α β γ : Type} {g : α → β} {l : List α} {k' : β → List γ}
    {k : α → List γ} (h : ∀ a ∈ l, (k' (g a)).Perm (k a)) :
    ((l.map g).flatMap k').Perm (l.flatMap k) := by
  rw [List.flatMap_map]
  exact List.Perm.flatMap_left _ h

namespace Table

variable {t t' : Table} {D : SymbolId → Prop} {f : SymbolId → SymbolId} {x a u : SymbolId}

namespace Renders

variable (h : t.Renders t' D f)
include h

theorem mem_of_derivedRef? (hx : D x) (ha : t.derivedRef? x = some a) : D a := by
  have hdata := h.data_getD hx
  unfold Table.derivedRef? at ha
  dsimp only at ha
  split at ha
  · exact Option.some.inj ha ▸ hdata
  · exact Option.some.inj ha ▸ hdata
  · cases ha

/-- A union accepts the counterparts of the derived symbols that its counterpart accepts. -/
theorem perm_derivedMembers (hu : D u) :
    (t'.derivedMembers (f u)).Perm ((t.derivedMembers u).map f) := by
  rw [derivedMembers, derivedMembers, h.accepted? hu]
  cases hv : (t.symbolAt u).accepted? 0 with
  | none => exact .nil
  | some v =>
      dsimp only [Option.map_some]
      have hnormal := h.accepted_normal hu hv
      have hinjective := h.accepted_injectiveOn hu hv
      have hperm := (AcceptedValues.perm_sorts_rename hnormal hinjective).append
        (AcceptedValues.perm_constantSymbols_rename hnormal hinjective)
      refine (hperm.filterMap _).trans (.of_eq ?_)
      rw [← List.map_append, List.filterMap_map, List.map_filterMap]
      refine List.filterMap_congr fun y hy => ?_
      refine h.derivedRef? (h.accepted_refs hu hv y (AcceptedValues.mem_refs.2 ?_))
      rcases List.mem_append.1 hy with hsort | hconstant
      · exact .inr hsort
      · exact .inl (AcceptedValues.mem_constantSymbols.1 hconstant)

theorem mem_of_derivedMembers (hu : D u) (ha : a ∈ t.derivedMembers u) : D a := by
  rw [derivedMembers] at ha
  cases hv : (t.symbolAt u).accepted? 0 with
  | none =>
      rw [hv] at ha
      cases ha
  | some v =>
      rw [hv] at ha
      obtain ⟨y, hy, ha⟩ := List.mem_filterMap.1 ha
      refine h.mem_of_derivedRef? (h.accepted_refs hu hv y (AcceptedValues.mem_refs.2 ?_)) ha
      rcases List.mem_append.1 hy with hsort | hconstant
      · exact .inr hsort
      · exact .inl (AcceptedValues.mem_constantSymbols.1 hconstant)

theorem perm_derivedBehind (hx : D x) :
    (t'.derivedBehind (f x)).Perm ((t.derivedBehind x).map (Prod.map f (Option.map f))) := by
  rw [derivedBehind, derivedBehind, h.derivedRef? hx, h.isUnion hx]
  cases t.derivedRef? x with
  | some a => exact .refl _
  | none =>
      dsimp only [Option.map_none]
      split
      · refine ((h.perm_derivedMembers hx).map _).trans (.of_eq ?_)
        rw [List.map_map, List.map_map]
        rfl
      · exact .nil

theorem mem_of_derivedBehind (hx : D x) {entry : SymbolId × Option SymbolId}
    (hentry : entry ∈ t.derivedBehind x) : D entry.1 ∧ ∀ u ∈ entry.2, D u := by
  rw [derivedBehind] at hentry
  cases ha : t.derivedRef? x with
  | some a =>
      rw [ha] at hentry
      obtain rfl := List.mem_singleton.1 hentry
      exact ⟨h.mem_of_derivedRef? hx ha, fun u hu => by cases hu⟩
  | none =>
      rw [ha] at hentry
      dsimp only at hentry
      split at hentry
      · obtain ⟨a, ha, rfl⟩ := List.mem_map.1 hentry
        exact ⟨h.mem_of_derivedMembers hx ha, fun u hu => Option.some.inj hu ▸ hx⟩
      · cases hentry

end Renders

end Table

namespace Draft

variable {m : Module} {types : List TypeDecl} {imported origin start start' d d' : Draft}
  {declarations declarations' : Declarations} {f : SymbolId → SymbolId} {x : SymbolId}

namespace Enacted

variable (h : Enacted m types imported origin start start' d d' declarations declarations' f)
include h

theorem holds_type {b : Declaration} (hb : b ∈ declarations.types) : d.table.Holds b.symbol :=
  (h.left.alike.holds _).2 (h.coupled.owns_type hb).holds

theorem holds_param {p : Parameter} (hp : p ∈ declarations.params) : d.table.Holds p.symbol :=
  (h.left.alike.holds _).2 (h.coupled.left.kindOf_param hp).1.holds

theorem location_of_new (hx : d.table.Holds x) (hnew : (d.table.kindOf x).isNew = true) :
    (d'.table.symbolAt (f x)).location = (d.table.symbolAt x).location := by
  refine h.mates.location hx ?_ fun hconstant => ?_
  · cases hkind : d.table.kindOf x with
    | userConstant constant =>
        rw [hkind] at hnew
        cases constant <;> first | rfl | cases hnew
    | userSort =>
        rw [hkind] at hnew
        cases hnew
    | _ => rfl
  · rw [hconstant] at hnew
    cases hnew

/-- New data takes the counterparts of the derived data that its counterpart takes. -/
theorem perm_newnessReports {b : Declaration} (hb : b ∈ declarations.types) :
    (d'.table.newnessReports d'.names (start'.resolved (m.withTypes types) (b.rename f))).Perm
      (d.table.newnessReports d.names (start.resolved m b)) := by
  have hx := h.holds_type hb
  have hrefs : ∀ r ∈ (start.resolved m b).refs, d.table.Holds r := fun r hr =>
    (h.left.alike.holds r).2 (h.coupled.parallel.refs_resolved hb r hr)
  have hnew : (d'.table.symbolAt (f b.symbol)).kind.isNew =
      (d.table.symbolAt b.symbol).kind.isNew :=
    h.mates.isNew hx
  rw [h.coupled.parallel.resolved hb, Table.newnessReports, Table.newnessReports,
    ResolvedType.refs_rename]
  by_cases hskip : ((d.table.symbolAt b.symbol).failed ||
      !(d.table.symbolAt b.symbol).kind.isNew) = true
  · -- nothing is said of what failed or is not new
    have hskip' : ((d'.table.symbolAt (f b.symbol)).failed ||
        !(d'.table.symbolAt (f b.symbol)).kind.isNew) = true := by
      rw [h.failed hx, hnew]
      exact hskip
    exact .of_eq ((if_pos hskip').trans (if_pos hskip).symm)
  · -- the same derived data is behind the references, perhaps in another order
    have hskip' : ¬ ((d'.table.symbolAt (f b.symbol)).failed ||
        !(d'.table.symbolAt (f b.symbol)).kind.isNew) = true := by
      rw [h.failed hx, hnew]
      exact hskip
    refine (List.Perm.of_eq (if_neg hskip')).trans (.trans ?_ (.of_eq (if_neg hskip).symm))
    rw [Bool.not_eq_true, Bool.or_eq_false_iff, Bool.not_eq_false'] at hskip
    have hperm : (((start.resolved m b).refs.map f).flatMap d'.table.derivedBehind).Perm
        (((start.resolved m b).refs.flatMap d.table.derivedBehind).map
          (Prod.map f (Option.map f))) := by
      rw [List.map_flatMap]
      exact perm_flatMap_map fun r hr => h.renders.perm_derivedBehind (hrefs r hr)
    refine (hperm.map _).trans (.of_eq ?_)
    rw [List.map_map]
    refine List.map_congr_left fun entry hentry => ?_
    obtain ⟨r, hr, hentry⟩ := List.mem_flatMap.1 hentry
    obtain ⟨harg, hvia⟩ := h.renders.mem_of_derivedBehind (hrefs r hr) hentry
    have hlocation := h.location_of_new hx hskip.2
    have hname := h.qualifiedName hx
    obtain ⟨arg, via⟩ := entry
    cases via with
    | none =>
        change (⟨(d'.table.symbolAt (f b.symbol)).location, .argumentNewness
          (d'.table.qualifiedName d'.names (f b.symbol))
          (d'.table.qualifiedName d'.names (f arg))⟩ : Report) = _
        rw [hlocation, hname, h.qualifiedName harg]
        rfl
    | some u =>
        change (⟨(d'.table.symbolAt (f b.symbol)).location, .subArgumentNewness
          (d'.table.qualifiedName d'.names (f b.symbol))
          (d'.table.qualifiedName d'.names (f arg))
          (d'.table.qualifiedName d'.names (f u))⟩ : Report) = _
        rw [hlocation, hname, h.qualifiedName harg, h.qualifiedName (hvia u rfl)]
        rfl

/-- The same labels are names of namespaces. -/
theorem perm_labelReports :
    (d'.table.labelReports d'.names (m.withTypes types)).Perm (d.table.labelReports d.names m) := by
  rw [Table.labelReports, Table.labelReports, h.mates.namespaceNames_eq]
  refine ((Module.perm_declaredFields h.coupled.perm).filterMap _).trans (.of_eq ?_)
  refine List.filterMap_congr fun entry hentry => ?_
  obtain ⟨hdecl, hfield⟩ := Node.mem_declaredFields hentry
  obtain ⟨decl, field⟩ := entry
  cases hlabel : field.label with
  | none => simp only [hlabel]
  | some label =>
      simp only [hlabel]
      rw [h.mates.text (h.coupled.interned.label decl hdecl field hfield label hlabel)]
      rfl

theorem outputNamespaces_eq :
    d'.table.outputNamespaces (m.withTypes types) = d.table.outputNamespaces m := by
  rw [Table.outputNamespaces, Table.outputNamespaces]
  refine List.filterMap_congr fun reference _ => ?_
  cases reference.rename with
  | none => rfl
  | some name =>
      rw [Option.bind_some, Option.bind_some, Namespace.child?_of_unlisted (h.mates.node_eq _)]

/-- A parameter accepts the counterparts of the new data of outputs that its counterpart accepts. -/
theorem perm_parameterReports {p : Parameter} (hp : p ∈ declarations.params) :
    (d'.table.parameterReports d'.names (d'.table.outputNamespaces (m.withTypes types))
        (f p.symbol)).Perm
      (d.table.parameterReports d.names (d.table.outputNamespaces m) p.symbol) := by
  have hx := h.holds_param hp
  have hkind : d.table.kindOf p.symbol = .userConstant .parameter := by
    obtain ⟨howns, hkind⟩ := h.coupled.left.kindOf_param hp
    rw [h.left.alike.kindOf, hkind]
    rintro ⟨y, hy⟩
    rw [hkind] at hy
    cases hy
  have hlocation : (d'.table.symbolAt (f p.symbol)).location =
      (d.table.symbolAt p.symbol).location :=
    h.mates.location hx (by rw [hkind]; rfl) (by rw [hkind]; exact fun heq => by cases heq)
  rw [Table.parameterReports, Table.parameterReports, h.renders.accepted? hx,
    h.outputNamespaces_eq]
  cases hv : (d.table.symbolAt p.symbol).accepted? 0 with
  | none => exact .nil
  | some v =>
      dsimp only [Option.map_some]
      refine (((h.renders.perm_sorts hx hv).filterMap _).filterMap _).trans (.of_eq ?_)
      rw [List.filterMap_map, List.filterMap_filterMap, List.filterMap_filterMap]
      refine List.filterMap_congr fun s hs => ?_
      have hholds := h.renders.accepted_refs hx hv s (AcceptedValues.mem_refs.2 (.inr hs))
      rw [Function.comp_apply, h.mates.dataOf? hholds]
      cases hd : d.table.dataOf? s with
      | none => rfl
      | some y =>
          have hy := h.mates.data hholds hd
          have hnew : (d'.table.symbolAt (f y)).kind.isNew = (d.table.symbolAt y).kind.isNew :=
            h.mates.isNew hy
          rw [Option.map_some, Option.bind_some, Option.bind_some, hnew, h.mates.home hy, hlocation,
            h.qualifiedName hx, h.qualifiedName hy,
            show d'.table.isWithin = d.table.isWithin from funext₂ h.mates.isWithin_eq]

/-- The same violations of restrictions are reported. -/
theorem perm_restrictionReports :
    (d'.table.restrictionReports d'.names (m.withTypes types)
        (declarations'.types.map (start'.resolved (m.withTypes types)))
        (declarations'.params.map Parameter.symbol)).Perm
      (d.table.restrictionReports d.names m (declarations.types.map (start.resolved m))
        (declarations.params.map Parameter.symbol)) := by
  rw [Table.restrictionReports, Table.restrictionReports]
  refine .append (.append ?_ h.perm_labelReports) ?_
  · rw [List.flatMap_map, List.flatMap_map]
    exact (h.coupled.perm_types.flatMap_right _).trans
      (perm_flatMap_map fun b hb => h.perm_newnessReports hb)
  · change (if m.kind = .transform then _ else []).Perm _
    split
    · rw [h.coupled.params_eq, List.map_map, List.flatMap_map, List.flatMap_map]
      exact List.Perm.flatMap_left _ fun p hp => h.perm_parameterReports hp
    · exact .nil

/-- The same is reported by declaring. -/
theorem perm_reports (hstart : start'.table.reports.Perm start.table.reports) :
    d'.table.reports.Perm d.table.reports := by
  rw [h.left.reports_eq, h.right.reports_eq]
  refine .append (.append (.append hstart ?_) ?_) h.perm_restrictionReports
  · refine (h.coupled.perm_types.flatMap_right _).trans (perm_flatMap_map fun b hb => ?_)
    rw [h.coupled.parallel.typeProblems hb]
  · rw [h.coupled.params_eq]
    refine perm_flatMap_map fun p hp => ?_
    rw [h.coupled.parallel.resolvedParam hp]
    exact .refl _

end Enacted

end Draft

end ManySorted
