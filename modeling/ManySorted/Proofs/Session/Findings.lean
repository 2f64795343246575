import ManySorted.Proofs.Declaration.Early
import ManySorted.Proofs.Session.Completeness
import ManySorted.Proofs.Sizing.Tally

/-!
# Which pass finds which problem

Every pass reports problems of its own kind.  What importing, declaring and the contracts report is
never about data without finite terms or about sizes (`Problem.Aside`), so the reports about these
can be told from the passes that judge productivity and sizes alone (`Draft.Staged.aside`,
`Table.aside_checkContract`).
-/

namespace ManySorted

variable {names : Interner} {t : Table} {m : Module}

/-- The problems that are found neither by judging productivity nor by sizing. -/
inductive Problem.Aside : Problem → Prop
  | undefinedSymbol (name : String) : Aside (.undefinedSymbol name)
  | ambiguousSymbol (name : String) (first second : Location) :
      Aside (.ambiguousSymbol name first second)
  | badComposition (reason : String) : Aside (.badComposition reason)
  | badId (id usage : String) : Aside (.badId id usage)
  | duplicateDefinition (name : String) (previous : Location) :
      Aside (.duplicateDefinition name previous)
  | emptyRange (name : String) (low high : Int) :
      Aside (.badTypeDecl name s!"has the empty range {low}..{high}")
  | argumentNewness (symbol arg : String) : Aside (.argumentNewness symbol arg)
  | subArgumentNewness (symbol arg via : String) : Aside (.subArgumentNewness symbol arg via)
  | labelClash (label : String) : Aside (.labelClash label)
  | transformNewness (param sort : String) : Aside (.transformNewness param sort)
  | cardinalityNewness (sort : String) : Aside (.cardinalityNewness sort)
  | cardinalityContract (sort reason : String) : Aside (.cardinalityContract sort reason)

/-- Whether a problem is found by sizing. -/
def Problem.isOfSizes : Problem → Bool
  | totality .. | relational .. => true
  | _ => false

theorem Problem.Aside.of_isEarly {p : Problem} (h : p.isEarly = true) : p.Aside := by
  cases p with
  | badComposition reason => exact .badComposition reason
  | badId id usage => exact .badId id usage
  | duplicateDefinition name previous => exact .duplicateDefinition name previous
  | _ => cases h

theorem Problem.Aside.isOfSizes_eq {p : Problem} (h : p.Aside) : p.isOfSizes = false := by
  cases h <;> rfl

namespace Table

/-- All that sizing reports is about sizes. -/
theorem isOfSizes_of_mem_sizingReports {g : DepGraph SizeNode} {components : List (List Nat)} :
    ∀ sizes, ∀ r ∈ t.sizingReports names g sizes components, r.problem.isOfSizes = true := by
  induction components with
  | nil => exact fun _ _ hr => absurd hr List.not_mem_nil
  | cons component rest ih =>
      intro sizes r hr
      rcases List.mem_append.1 hr with hr | hr
      · rcases List.mem_append.1 hr with hr | hr
        · split at hr
          · obtain ⟨⟨sort, position⟩, _, hr⟩ := List.mem_filterMap.1 hr
            obtain ⟨data, _, rfl⟩ := Option.map_eq_some_iff.1 hr
            rfl
          · exact absurd hr List.not_mem_nil
        · obtain ⟨sort, _, hr⟩ := List.mem_flatMap.1 hr
          obtain ⟨data, _, hr⟩ := List.mem_flatMap.1 hr
          obtain ⟨misfit, _, rfl⟩ := List.mem_map.1 hr
          rfl
      · exact ih _ r hr

theorem aside_of_resolveOrProblem {id : QualifiedId} {filter : Symbol → Bool}
    {usage : Option String} {problem : Problem}
    (h : t.resolveOrProblem names id filter usage = .error problem) : problem.Aside := by
  unfold resolveOrProblem at h
  dsimp only at h
  split at h
  · cases h
  · cases h
    exact .ambiguousSymbol ..
  · split at h
    · cases h
      exact .badId ..
    · cases h
      exact .undefinedSymbol _

end Table

/-! ## Terms -/

namespace Scope

variable {scope : Scope}

theorem aside_resolveTerm (term : TypeTerm) :
    ∀ r ∈ (scope.resolveTerm term).problems, r.problem.Aside := by
  cases term with
  | named id =>
      intro r hr
      change r ∈ (scope.resolveType id).problems at hr
      unfold resolveType at hr
      split at hr
      · exact absurd hr List.not_mem_nil
      · next hproblem =>
          rw [List.mem_singleton.1 hr]
          exact Table.aside_of_resolveOrProblem hproblem
  | enumeration elements span =>
      change ∀ r ∈ (elements.foldl scope.readElement {}).problems, r.problem.Aside
      refine List.foldlRecOn (motive := fun r : Reading => ∀ p ∈ r.problems, p.problem.Aside)
        elements _ (fun _ hp => absurd hp List.not_mem_nil) fun r hr element _ => ?_
      have hfail : ∀ location problem, problem.Aside →
          ∀ p ∈ (r.fail location problem).problems, p.problem.Aside := by
        intro location problem hproblem p hp
        rcases List.mem_append.1 hp with hp | hp
        · exact hr p hp
        · rw [List.mem_singleton.1 hp]
          exact hproblem
      cases element with
      | constant id =>
          simp only [readElement]
          split
          · next hproblem => exact hfail _ _ (Table.aside_of_resolveOrProblem hproblem)
          · split
            · exact hr
            · exact hr
            · exact hfail _ _ (.badId ..)
      | literal literal span => cases literal <;> exact hr
      | range low high span =>
          simp only [readElement]
          split
          · exact hr
          · exact hfail _ _ (.emptyRange ..)

theorem aside_resolvePosition (terms : List TypeTerm) :
    ∀ r ∈ (scope.resolvePosition terms).problems, r.problem.Aside := by
  rw [(scope.resolvePosition_eq terms).2.2]
  intro r hr
  obtain ⟨term, _, hr⟩ := List.mem_flatMap.1 hr
  exact aside_resolveTerm term r hr

end Scope

/-! ## Restrictions and contracts -/

namespace Table

theorem aside_restrictionReports {types : List ResolvedType} {params : List SymbolId} :
    ∀ r ∈ t.restrictionReports names m types params, r.problem.Aside := by
  have hnewness : ∀ d, ∀ r ∈ t.newnessReports names d, r.problem.Aside := by
    intro d r hr
    unfold newnessReports at hr
    dsimp only at hr
    split at hr
    · exact absurd hr List.not_mem_nil
    · obtain ⟨⟨arg, via⟩, _, rfl⟩ := List.mem_map.1 hr
      cases via with
      | none => exact .argumentNewness ..
      | some u => exact .subArgumentNewness ..
  have hlabel : ∀ r ∈ t.labelReports names m, r.problem.Aside := by
    intro r hr
    obtain ⟨⟨_, field⟩, _, hr⟩ := List.mem_filterMap.1 hr
    dsimp only at hr
    split at hr
    · split at hr <;> cases hr
      exact .labelClash _
    · cases hr
  have hparam : ∀ outputs param, ∀ r ∈ t.parameterReports names outputs param, r.problem.Aside := by
    intro outputs param r hr
    unfold parameterReports at hr
    split at hr
    · exact absurd hr List.not_mem_nil
    · obtain ⟨data, _, hr⟩ := List.mem_filterMap.1 hr
      dsimp only at hr
      split at hr <;> cases hr
      exact .transformNewness ..
  intro r hr
  rw [restrictionReports] at hr
  rcases List.mem_append.1 hr with hr | hr
  · rcases List.mem_append.1 hr with hr | hr
    · obtain ⟨d, _, hr⟩ := List.mem_flatMap.1 hr
      exact hnewness d r hr
    · exact hlabel r hr
  · split at hr
    · obtain ⟨param, _, hr⟩ := List.mem_flatMap.1 hr
      exact hparam _ param r hr
    · exact absurd hr List.not_mem_nil

theorem aside_of_condition {id : QualifiedId} {problem : Problem}
    (h : t.condition names id = .error problem) : problem.Aside := by
  unfold condition at h
  cases hsymbol : t.resolveOrProblem names id anySymbol none with
  | error problem' =>
      rw [hsymbol] at h
      cases h
      exact aside_of_resolveOrProblem hsymbol
  | ok symbol =>
      simp only [hsymbol, bind, Except.bind] at h
      split at h <;> cases h
      exact .badId ..

theorem aside_checkContract (contract : ContractDecl) :
    ∀ r ∈ (t.checkContract names m contract).reports, r.problem.Aside := by
  intro r hr
  unfold checkContract at hr
  dsimp only at hr
  split at hr
  · split at hr
    · unfold checkCardinality at hr
      dsimp only at hr
      split at hr
      · rw [List.mem_singleton.1 hr]
        exact .cardinalityNewness _
      · obtain ⟨reason, _, rfl⟩ := List.mem_map.1 hr
        exact .cardinalityContract ..
    · next hproblem =>
        rw [List.mem_singleton.1 hr]
        exact aside_of_resolveOrProblem hproblem
  · unfold checkConditions at hr
    dsimp only at hr
    split at hr
    · exact absurd hr List.not_mem_nil
    · obtain ⟨problem, hproblem, rfl⟩ := List.mem_map.1 hr
      obtain ⟨condition, hcondition, hproblem⟩ := List.mem_filterMap.1 hproblem
      obtain ⟨id, _, rfl⟩ := List.mem_map.1 hcondition
      split at hproblem
      · next hfailed =>
          cases hproblem
          exact aside_of_condition hfailed
      · cases hproblem

end Table

/-! ## The passes before judging -/

namespace Draft

variable {tables : List Table} {library : Library} {m : Module} {start imported base d : Draft}

/-- What is reported before productivity is judged. -/
theorem Staged.aside (h : Staged tables library m start imported base d) (hstart : start.Early) :
    ∀ r ∈ base.table.reports, r.problem.Aside := by
  obtain ⟨declarations, registered, hregister, haccount⟩ := h.account
  have himported : imported.Early :=
    ends_forM (motive := fun _ => Early) (fun _ reference _ _ =>
      ends_early_importReference library m reference) _ _ _ hstart h.imports
  have hregistered : registered.Early :=
    ends_early_registerDeclarations m _ _ _ himported hregister
  intro r hr
  rw [haccount.reports_eq] at hr
  rcases List.mem_append.1 hr with hr | hr
  · rcases List.mem_append.1 hr with hr | hr
    · rcases List.mem_append.1 hr with hr | hr
      · exact .of_isEarly (hregistered.isEarly r hr)
      · obtain ⟨b, _, hr⟩ := List.mem_flatMap.1 hr
        obtain ⟨p, hp, hr⟩ := List.mem_flatMap.1 hr
        obtain ⟨terms, _, rfl⟩ := List.mem_map.1 hp
        exact Scope.aside_resolvePosition terms r hr
    · obtain ⟨p, _, hr⟩ := List.mem_flatMap.1 hr
      exact Scope.aside_resolvePosition _ r hr
  · exact Table.aside_restrictionReports r hr

end Draft

end ManySorted
