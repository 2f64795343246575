import ManySorted.Proofs.Echo.Outcome
import ManySorted.Proofs.Session.Verdict
import ManySorted.Proofs.Transfer.Placing

/-!
# When nothing but warnings is reported

A contract is upheld if what it names is there and of the right kind (`Table.Upholds`); at most a
warning is reported then.  All other reports of declaring and of judging are errors, so a stage ends
without errors just if each single thing that it looks at is in order
(`Draft.Account.hasErrors_eq_false_iff`, `Draft.Judged.hasErrors_eq_false_iff`).  What contracts
name is found again in a table in which identifiers find counterparts (`Table.Finds.upholds`).

## Strategy

* **Warnings.**  Reports that are all errors are all warnings only if there are none
  (`forall_isWarning_iff`).
* **Contracts.**  What a contract names is found and of the right kind, or there is an error
  (`Table.forall_reports_checkContract`).
* **Sizes.**  All reports about sizes are errors, and each is about one node
  (`Table.Intact.sizingReports_eq_nil_iff`).  So sizes are feasible if all own data is found in
  tables whose sizes are feasible (`Table.Feasible.of_conveys`).
* **Stages.**  Declaring and judging report no errors if and only if each single thing that they
  look at is in order.
-/

namespace ManySorted

/-- Reports that are all errors are all warnings only if there are none. -/
theorem forall_isWarning_iff {rs : List Report} (hgrave : ∀ r ∈ rs, r.isWarning = false) :
    (∀ r ∈ rs, r.isWarning = true) ↔ rs = [] := by
  refine ⟨fun hall => List.eq_nil_iff_forall_not_mem.2 fun r hr => ?_, ?_⟩
  · cases (hgrave r hr).symm.trans (hall r hr)
  · rintro rfl r hr
    exact absurd hr List.not_mem_nil

namespace Table

variable {names names' : Interner} {t t' : Table} {D : SymbolId → Prop} {f : SymbolId → SymbolId}
  {ids : QualifiedId → Prop} {id : QualifiedId} {n : SizeNode} {s x : SymbolId}

/-! ## Contracts -/

/-- What a contract names is there: new data where facts are counted, and conditions elsewhere. -/
def Upholds (t : Table) : ContractItem → Prop
  | .cardinality _ id => ∃ x, t.resolveId id typeDefining = .found x ∧ (t.kindOf x).isNew = true
  | .holds ids => ∀ id ∈ ids, ∃ x, t.resolveId id anySymbol = .found x ∧
      (t.kindOf x).isCondition = true

theorem isWarning_of_resolveOrProblem {filter : Symbol → Bool} {usage : Option String}
    {problem : Problem} (h : t.resolveOrProblem names id filter usage = .error problem) :
    problem.isWarning = false :=
  @Scope.isWarning_of_resolveOrProblem ⟨names, t, default, default⟩ id filter usage problem h

/-- A bound is reported as an error just if it is not on new data. -/
theorem forall_reports_checkCardinality {location : Location} {kind : ContractKind}
    {c : Cardinality}
    {x : SymbolId} :
    (∀ r ∈ (t.checkCardinality names location kind c x).reports, r.isWarning = true) ↔
      (t.kindOf x).isNew = true := by
  cases hnew : (t.kindOf x).isNew with
  | false =>
      rw [checkCardinality, hnew]
      simp [Report.isWarning, Problem.isWarning, Problem.code, DiagnosticCode.isWarning]
  | true =>
      rw [checkCardinality, hnew]
      refine iff_of_true (fun r hr => ?_) rfl
      obtain ⟨reason, -, rfl⟩ := List.mem_map.1 hr
      rfl

/-- A condition is in order just if its name finds one. -/
theorem error?_condition_eq_none_iff : error? (t.condition names id) = none ↔
    ∃ x, t.resolveId id anySymbol = .found x ∧ (t.kindOf x).isCondition = true := by
  rw [condition_eq]
  cases hx : t.resolveOrProblem names id anySymbol none with
  | error problem =>
      refine iff_of_false (fun h => by cases h) ?_
      rintro ⟨x, hfound, -⟩
      cases hx.symm.trans (resolveOrProblem_eq_ok.2 hfound)
  | ok x =>
      have hfound := resolveOrProblem_eq_ok.1 hx
      rw [Except.bind]
      constructor
      · intro hnone
        refine ⟨x, hfound, ?_⟩
        by_contra hcondition
        rw [if_neg hcondition] at hnone
        cases hnone
      · rintro ⟨y, hfound', hcondition⟩
        cases hfound.symm.trans hfound'
        rw [if_pos hcondition]
        rfl

theorem isWarning_of_condition {problem : Problem} (h : error? (t.condition names id) =
    some problem) :
    problem.isWarning = false := by
  rw [condition_eq] at h
  cases hx : t.resolveOrProblem names id anySymbol none with
  | error problem' =>
      rw [hx] at h
      cases h
      exact isWarning_of_resolveOrProblem hx
  | ok x =>
      rw [hx, Except.bind] at h
      split at h
      · cases h
      · cases h
        rfl

/-- A contract is reported as an error just if it is not upheld. -/
theorem forall_reports_checkContract {m : Module} {contract : ContractDecl} :
    (∀ r ∈ (t.checkContract names m contract).reports, r.isWarning = true) ↔
      t.Upholds contract.item := by
  cases hitem : contract.item with
  | cardinality c id =>
      simp only [checkContract, hitem, Upholds]
      cases hx : t.resolveOrProblem names id typeDefining none with
      | ok x =>
          rw [forall_reports_checkCardinality]
          refine ⟨fun hnew => ⟨x, resolveOrProblem_eq_ok.1 hx, hnew⟩, ?_⟩
          rintro ⟨y, hfound, hnew⟩
          cases hx.symm.trans (resolveOrProblem_eq_ok.2 hfound)
          exact hnew
      | error problem =>
          refine iff_of_false (fun hall => ?_) ?_
          · have hwarning := hall _ (List.mem_singleton_self _)
            rw [Report.isWarning, isWarning_of_resolveOrProblem hx] at hwarning
            cases hwarning
          · rintro ⟨x, hfound, -⟩
            cases hx.symm.trans (resolveOrProblem_eq_ok.2 hfound)
  | holds ids =>
      simp only [checkContract, hitem, Upholds]
      rw [reports_checkConditions, forall_isWarning_iff, List.map_eq_nil_iff,
        List.filterMap_eq_nil_iff, List.forall_mem_map]
      · exact forall₂_congr fun id _ => error?_condition_eq_none_iff
      · intro r hr
        obtain ⟨problem, hproblem, rfl⟩ := List.mem_map.1 hr
        obtain ⟨outcome, houtcome, hproblem⟩ := List.mem_filterMap.1 hproblem
        obtain ⟨id, -, rfl⟩ := List.mem_map.1 houtcome
        exact isWarning_of_condition hproblem

/-- The identifiers of a contract. -/
def ContractIds : ContractItem → QualifiedId → Prop
  | .cardinality _ id, id' => id' = id
  | .holds ids, id => id ∈ ids

/-- A contract that is upheld is upheld where its identifiers find counterparts. -/
theorem Finds.upholds {item : ContractItem} (h : t.Finds t' D f ids)
    (hids : ∀ id, ContractIds item id → ids id) (hupholds : t.Upholds item) : t'.Upholds item := by
  cases item with
  | cardinality c id =>
      obtain ⟨x, hfound, hnew⟩ := hupholds
      obtain ⟨hinside, hfound'⟩ := h.type (hids id rfl) hfound
      exact ⟨f x, hfound', (h.isNew hinside).trans hnew⟩
  | holds conditions =>
      intro id hid
      obtain ⟨x, hfound, hcondition⟩ := hupholds id hid
      obtain ⟨hinside, hfound'⟩ := h.symbol (hids id hid) hfound
      refine ⟨f x, hfound', ?_⟩
      rw [← SymbolKind.isCondition_relabel (fun y => y), h.kind hinside,
        SymbolKind.isCondition_relabel]
      exact hcondition

/-- Identifiers find the same in tables that are alike. -/
theorem Finds.alike {u u' : Table} (h : t.Finds t' D f ids) (hleft : t.Alike u)
    (hright : t'.Alike u') : u.Finds u' D f ids where
  toEchoes := h.toEchoes.alike hleft hright
  type {id x} hid hfound := by
    rw [hleft.resolveId_type] at hfound
    rw [hright.resolveId_type]
    exact h.type hid hfound
  symbol {id x} hid hfound := by
    rw [hleft.resolveId_any] at hfound
    rw [hright.resolveId_any]
    exact h.symbol hid hfound

/-! ## Sizes -/

theorem isWarning_of_mem_cycleReports {r : Report} (h : r ∈ t.cycleReports names n) :
    r.isWarning = false := by
  obtain ⟨edge, -, hr⟩ := List.mem_filterMap.1 h
  split at hr
  · cases hr
  · cases hnode : edge.1 with
    | sort s =>
        rw [hnode] at hr
        cases hr
    | slot s position =>
        rw [hnode] at hr
        obtain ⟨d, -, rfl⟩ := Option.map_eq_some_iff.1 hr
        rfl

theorem isWarning_of_mem_demandReports {sizes : Sizes} {r : Report}
    (h : r ∈ t.demandReports names sizes s) : r.isWarning = false := by
  obtain ⟨d, -, hr⟩ := List.mem_flatMap.1 h
  obtain ⟨misfit, -, rfl⟩ := List.mem_map.1 hr
  rfl

/-- Nothing is wrong with the sizes: all data has finite terms, no position without a bound is on a
cycle, and the demands of maps are met. -/
structure Feasible (names : Interner) (t : Table) : Prop where
  productive : ∀ x ∈ t.ownData, x ∈ t.productiveData
  acyclic : ∀ {n}, t.ownGraph.Has n → t.cycleReports names n = []
  met : ∀ {s}, t.ownGraph.Has (.sort s) → t.demandReports names t.finalSizes s = []

/-- The sort of own data has its nodes in the graph of the first table. -/
theorem Conveys.exists_has (h : Conveys names names' t t' D f) (hproductive : x ∈ t.productiveData)
    (hx : D x) {n' : SizeNode} (hn' : t'.ownGraph.Has n')
      (howner : t'.dataOf? n'.owner = some (f x)) :
    ∃ n, t.ownGraph.Has n ∧ n.rename f = n' := by
  have hregular := h.intact.formed.toRegular
  have hregular' := h.intact'.formed.toRegular
  obtain ⟨shape, info, hkind⟩ :=
    exists_data_of_isData (hregular.arena.isData_of_productive hproductive)
  have hsort : t.dataOf? info.sort = some x :=
    dataOf?_eq_some_iff.2 (hregular.families.data hkind).sort_kind
  have heq : n'.owner = f info.sort := by
    obtain ⟨shape', info', hkind', hsort'⟩ := hregular'.families.sort (dataOf?_eq_some_iff.1 howner)
    cases (h.kindOf_data hx hkind).symm.trans hkind'
    exact hsort'.symm
  cases n' with
  | sort s' => exact ⟨.sort info.sort, (has_sort_iff hregular).2 ⟨x, hproductive, hsort⟩,
      congrArg SizeNode.sort heq.symm⟩
  | slot s' position =>
      obtain ⟨d, -, hd, hlt⟩ := (has_slot_iff hregular').1 hn'
      cases howner.symm.trans hd
      rw [h.arity hx] at hlt
      exact ⟨.slot info.sort position, (has_slot_iff hregular).2 ⟨x, hproductive, hsort, hlt⟩,
        congrArg (SizeNode.slot · position) heq.symm⟩

/-- Sizes are feasible if all own data is found in other tables, whose sizes are feasible. -/
theorem Feasible.of_conveys (ht' : t'.Intact names')
    (h : ∀ x' ∈ t'.ownData, ∃ (names : Interner) (t : Table) (D : SymbolId → Prop)
      (f : SymbolId → SymbolId) (x : SymbolId), Conveys names names' t t' D f ∧ t.Feasible names ∧
        x ∈ t.ownData ∧ D x ∧ f x = x') : t'.Feasible names' := by
  have hnode : ∀ {n'}, t'.ownGraph.Has n' → ∃ (names : Interner) (t : Table) (D : SymbolId → Prop)
      (f : SymbolId → SymbolId) (n : SizeNode), Conveys names names' t t' D f ∧ t.Feasible names ∧
        t.ownGraph.Has n ∧ n.rename f = n' := by
    intro n' hn'
    obtain ⟨d', hd', howner⟩ := ht'.formed.toRegular.exists_data_of_has hn'
    obtain ⟨names, t, D, f, x, hconveys, hfeasible, hx, hinside, rfl⟩ :=
      h d' (mem_productiveData.1 hd').1
    obtain ⟨n, hn, heq⟩ := hconveys.exists_has (hfeasible.productive x hx) hinside hn' howner
    exact ⟨names, t, D, f, n, hconveys, hfeasible, hn, heq⟩
  refine ⟨fun x' hx' => ?_, fun {n'} hn' => ?_, fun {s'} hs' => ?_⟩
  · obtain ⟨names, t, D, f, x, hconveys, hfeasible, hx, hinside, rfl⟩ := h x' hx'
    exact hconveys.productive hinside (hfeasible.productive x hx)
  · obtain ⟨names, t, D, f, n, hconveys, hfeasible, hn, rfl⟩ := hnode hn'
    exact hconveys.cycleReports_eq_nil hn (hfeasible.acyclic hn)
  · obtain ⟨names, t, D, f, n, hconveys, hfeasible, hn, heq⟩ := hnode hs'
    cases n with
    | slot s position => cases heq
    | sort s =>
        cases heq
        exact hconveys.demandReports_eq_nil hn (hfeasible.met hn)

/-- Sizing reports nothing just if each node is in order. -/
theorem Intact.sizingReports_eq_nil_iff (ht : t.Intact names) :
    t.sizingReports names t.ownGraph [] t.ownGraph.components = [] ↔
      (∀ {n}, t.ownGraph.Has n → t.cycleReports names n = []) ∧
        ∀ {s}, t.ownGraph.Has (.sort s) → t.demandReports names t.finalSizes s = [] := by
  have hempty : t.sizingReports names t.ownGraph [] t.ownGraph.components = [] ↔
      t.sizedNodes.flatMap (t.cycleReports names) ++
        (t.sizedNodes.filterMap SizeNode.sort?).flatMap (t.demandReports names t.finalSizes) = [] :=
    ⟨fun h => (h ▸ ht.perm_sizingReports).nil_eq.symm, fun h => (h ▸ ht.perm_sizingReports).eq_nil⟩
  rw [hempty, List.append_eq_nil_iff, List.flatMap_eq_nil_iff, List.flatMap_eq_nil_iff]
  refine and_congr ⟨fun h n hn => h n (mem_sizedNodes.2 hn), fun h n hn => h (mem_sizedNodes.1 hn)⟩
    ⟨fun h s hs => h s (List.mem_filterMap.2 ⟨_, mem_sizedNodes.2 hs, rfl⟩), fun h s hs => ?_⟩
  obtain ⟨n, hn, hsort⟩ := List.mem_filterMap.1 hs
  rw [SizeNode.sort?_eq_some_iff] at hsort
  exact h (hsort ▸ mem_sizedNodes.1 hn)

theorem Intact.isWarning_of_mem_sizingReports (ht : t.Intact names) {r : Report}
    (hr : r ∈ t.sizingReports names t.ownGraph [] t.ownGraph.components) : r.isWarning = false := by
  rcases List.mem_append.1 (ht.perm_sizingReports.mem_iff.1 hr) with hr | hr
  · obtain ⟨n, -, hr⟩ := List.mem_flatMap.1 hr
    exact isWarning_of_mem_cycleReports hr
  · obtain ⟨s, -, hr⟩ := List.mem_flatMap.1 hr
    exact isWarning_of_mem_demandReports hr

/-! ## Restrictions -/

theorem isWarning_of_mem_newnessReports {d : ResolvedType} {r : Report}
    (h : r ∈ t.newnessReports names d) : r.isWarning = false := by
  unfold newnessReports at h
  dsimp only at h
  split at h
  · exact absurd h List.not_mem_nil
  · obtain ⟨⟨arg, via⟩, -, rfl⟩ := List.mem_map.1 h
    cases via <;> rfl

theorem isWarning_of_mem_restrictionReports {m : Module} {types : List ResolvedType}
    {params : List SymbolId} {r : Report} (h : r ∈ t.restrictionReports names m types params) :
    r.isWarning = false := by
  rcases List.mem_append.1 h with h | h
  · rcases List.mem_append.1 h with h | h
    · obtain ⟨d, -, h⟩ := List.mem_flatMap.1 h
      exact isWarning_of_mem_newnessReports h
    · obtain ⟨⟨owner, field⟩, -, h⟩ := List.mem_filterMap.1 h
      cases hlabel : field.label with
      | none =>
          simp only [hlabel] at h
          cases h
      | some label =>
          simp only [hlabel] at h
          split at h
          · cases h
            rfl
          · cases h
  · split at h
    · obtain ⟨p, -, h⟩ := List.mem_flatMap.1 h
      unfold parameterReports at h
      split at h
      · exact absurd h List.not_mem_nil
      · obtain ⟨data, -, h⟩ := List.mem_filterMap.1 h
        dsimp only at h
        split at h
        · cases h
          rfl
        · cases h
    · exact absurd h List.not_mem_nil

end Table

/-! ## Stages -/

namespace Draft

variable {m : Module} {origin : Table} {start base d : Draft} {declarations : Declarations}

/-- Declaring reports no errors just if no term has a problem and no restriction is violated. -/
theorem Account.hasErrors_eq_false_iff (h : Account m origin declarations start d)
    (hstart : start.table.Regular start.names) : d.table.hasErrors = false ↔
      start.table.hasErrors = false ∧ (∀ b ∈ declarations.types, start.typeProblems m b = []) ∧
        (∀ p ∈ declarations.params, (start.resolvedParam m p).problems = []) ∧
        d.table.restrictionReports d.names m (declarations.types.map (start.resolved m))
          (declarations.params.map Parameter.symbol) = [] := by
  have hgrave : ∀ owner terms,
      ∀ r ∈ ((start.scope m owner).resolvePosition terms).problems, r.isWarning = false :=
    fun owner terms => (@Scope.resolvePosition_sound start.names (start.scope m owner)
      hstart terms).2
  rw [Table.hasErrors_eq_false_iff, h.reports_eq]
  simp only [List.forall_mem_append, and_assoc]
  rw [← Table.hasErrors_eq_false_iff, ← List.flatMap_eq_nil_iff, ← List.flatMap_eq_nil_iff]
  refine and_congr_right fun _ => and_congr (forall_isWarning_iff fun r hr => ?_)
    (and_congr (forall_isWarning_iff fun r hr => ?_)
      (forall_isWarning_iff fun r hr => Table.isWarning_of_mem_restrictionReports hr))
  · obtain ⟨b, -, hr⟩ := List.mem_flatMap.1 hr
    obtain ⟨p, hp, hr⟩ := List.mem_flatMap.1 hr
    obtain ⟨terms, -, rfl⟩ := List.mem_map.1 hp
    exact hgrave _ _ r hr
  · obtain ⟨p, -, hr⟩ := List.mem_flatMap.1 hr
    exact hgrave _ _ r hr

/-- Judging reports no errors just if the sizes are feasible and all contracts are upheld. -/
theorem Judged.hasErrors_eq_false_iff (h : Judged m base d)
    (hintact : base.table.Intact base.names) : d.table.hasErrors = false ↔
      base.table.hasErrors = false ∧ base.table.Feasible base.names ∧
        ∀ contract ∈ m.contracts, d.table.Upholds contract.item := by
  have hproductive : (∀ r ∈ base.unproductiveReports, r.isWarning = true) ↔
      ∀ x ∈ base.table.ownData, x ∈ base.table.productiveData := by
    rw [forall_isWarning_iff, unproductiveReports, List.map_eq_nil_iff, List.filter_eq_nil_iff]
    · simp
    · intro r hr
      obtain ⟨x, -, rfl⟩ := List.mem_map.1 hr
      rfl
  rw [Table.hasErrors_eq_false_iff, h.reports_eq]
  simp only [List.forall_mem_append, and_assoc]
  rw [← Table.hasErrors_eq_false_iff, hproductive,
    forall_isWarning_iff fun r hr => hintact.isWarning_of_mem_sizingReports hr,
    hintact.sizingReports_eq_nil_iff, List.forall_mem_flatMap]
  refine and_congr_right fun _ => ?_
  rw [← and_assoc]
  refine and_congr ⟨fun h => ⟨h.1, h.2.1, h.2.2⟩, fun h => ⟨h.productive, h.acyclic, h.met⟩⟩ ?_
  exact forall₂_congr fun contract _ => Table.forall_reports_checkContract

end Draft

end ManySorted
