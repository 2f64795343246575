import ManySorted.Proofs.Declaration.Registering

/-!
# Resolved positions speak of what is there

A term resolves to a base sort, to the sort of a data symbol, to constants or to a union.  So the
members of a position are closed, whatever its problems, and every problem is an error: in a table
without errors nothing fails.

## Strategy

* **Terms.**  An identifier that a scope resolves gives a member that is closed
  (`Scope.closed_memberOf`), and so does a list of values, read element by element
  (`Scope.Reading.Sound`).
* **Problems.**  A problem is an error (`Scope.isWarning_of_resolveOrProblem`), so a draft without
  errors had none (`Table.problems_eq_nil`).
* **Positions.**  What was resolved stays closed while more is registered (`Member.Closed.later`),
  so this holds of all declarations in the end (`Draft.lasting_resolves`).
* **Failures.**  They spread from declarations with problems, of which there are none
  (`Draft.enlarges_spreadFailures`).
-/

namespace ManySorted

/-- The values that a member gives at once are closed. -/
def Member.Closed (t : Table) : Member → Prop
  | .values v => v.Closed t
  | .union _ => True

/-- The members of the position are closed. -/
def Position.Closed (t : Table) (p : Position) : Prop := ∀ m ∈ p.members, m.Closed t

/-- Every problem of the position is an error. -/
def Position.Grave (p : Position) : Prop := ∀ r ∈ p.problems, r.isWarning = false

theorem Member.Closed.later {t t' : Table} {m : Member} (h : m.Closed t) (hlater : t.Later t') :
    m.Closed t' := by
  cases m with
  | values v => exact AcceptedValues.Closed.later h hlater
  | union u => trivial

theorem Position.Closed.later {t t' : Table} {p : Position} (h : p.Closed t)
    (hlater : t.Later t') : p.Closed t' := fun m hm => (h m hm).later hlater

namespace Scope

variable {names : Interner} {scope : Scope}

theorem closed_memberOf (h : scope.table.Regular names) (symbol : SymbolId) :
    (scope.memberOf symbol).Closed scope.table := by
  unfold memberOf
  split
  · exact (AcceptedValues.closed_empty _).addBase _
  · trivial
  · next shape info hkind =>
      exact (AcceptedValues.closed_empty _).addSort ⟨symbol, (h.families.data hkind).sort_kind⟩
  · exact AcceptedValues.closed_empty _

theorem isWarning_of_resolveOrProblem {id : QualifiedId} {filter : Symbol → Bool}
    {usage : Option String} {problem : Problem}
    (h : scope.table.resolveOrProblem scope.names id filter usage = .error problem) :
    problem.isWarning = false := by
  unfold Table.resolveOrProblem at h
  dsimp only at h
  split at h
  · cases h
  · cases h
    rfl
  · split at h
    · cases h
      rfl
    · cases h
      rfl

theorem resolveType_sound (h : scope.table.Regular names) (id : QualifiedId) :
    (scope.resolveType id).Closed scope.table ∧ (scope.resolveType id).Grave := by
  unfold resolveType
  split
  · next symbol _ =>
      refine ⟨fun m hm => ?_, fun r hr => absurd hr List.not_mem_nil⟩
      rw [List.mem_singleton.1 hm]
      exact closed_memberOf h symbol
  · next problem hproblem =>
      refine ⟨fun m hm => absurd hm List.not_mem_nil, fun r hr => ?_⟩
      rw [List.mem_singleton.1 hr]
      exact isWarning_of_resolveOrProblem hproblem

/-- The values read so far are closed, and the problems are errors. -/
structure Reading.Sound (t : Table) (r : Reading) : Prop where
  closed : r.values.Closed t
  grave : ∀ report ∈ r.problems, report.isWarning = false

theorem Reading.Sound.fail {t : Table} {r : Reading} (h : r.Sound t) (location : Location)
    {problem : Problem} (hproblem : problem.isWarning = false) :
    (r.fail location problem).Sound t where
  closed := h.closed
  grave report hreport := by
    rcases List.mem_append.1 hreport with hreport | hreport
    · exact h.grave report hreport
    · rw [List.mem_singleton.1 hreport]
      exact hproblem

theorem Reading.Sound.readElement {r : Reading} (h : r.Sound scope.table) (element : EnumElement) :
    (scope.readElement r element).Sound scope.table := by
  cases element with
  | constant id =>
      simp only [Scope.readElement]
      split
      · next problem hproblem => exact h.fail _ (isWarning_of_resolveOrProblem hproblem)
      · next symbol _ =>
          split
          · next constant hkind =>
              exact ⟨h.closed.addConstant (by rw [Table.IsConstant, hkind]; rfl), h.grave⟩
          · next constant hkind =>
              exact ⟨h.closed.addConstant (by rw [Table.IsConstant, hkind]; rfl), h.grave⟩
          · exact h.fail _ rfl
  | literal literal span =>
      cases literal with
      | integer value => exact ⟨h.closed.addRange value value, h.grave⟩
      | string value => exact ⟨h.closed.addString value, h.grave⟩
  | range low high span =>
      rw [Scope.readElement]
      split
      · exact ⟨h.closed.addRange low high, h.grave⟩
      · exact h.fail _ rfl

theorem resolveTerm_sound (h : scope.table.Regular names) (term : TypeTerm) :
    (scope.resolveTerm term).Closed scope.table ∧ (scope.resolveTerm term).Grave := by
  cases term with
  | named id => exact resolveType_sound h id
  | enumeration elements span =>
      have hsound : (elements.foldl scope.readElement {}).Sound scope.table := by
        refine List.foldlRecOn (motive := fun r => Reading.Sound scope.table r) elements _ ?_ ?_
        · exact ⟨AcceptedValues.closed_empty _, fun _ hr => absurd hr List.not_mem_nil⟩
        · exact fun r hr element _ => hr.readElement element
      refine ⟨fun m hm => ?_, hsound.grave⟩
      rw [List.mem_singleton.1 hm]
      exact hsound.closed

/-- The members of a position are closed, and its problems are errors. -/
theorem resolvePosition_sound (h : scope.table.Regular names) (terms : List TypeTerm) :
    (scope.resolvePosition terms).Closed scope.table ∧ (scope.resolvePosition terms).Grave := by
  refine List.foldlRecOn
    (motive := fun p : Position => p.Closed scope.table ∧ p.Grave) terms _ ?_ ?_
  · exact ⟨fun m hm => absurd hm List.not_mem_nil, fun r hr => absurd hr List.not_mem_nil⟩
  · intro p hp term _
    obtain ⟨hclosed, hgrave⟩ := resolveTerm_sound h term
    refine ⟨fun m hm => ?_, fun r hr => ?_⟩
    · exact (List.mem_append.1 hm).elim (hp.1 m) (hclosed m)
    · exact (List.mem_append.1 hr).elim (hp.2 r) (hgrave r)

end Scope

namespace Table

theorem hasErrors_reportAll (t : Table) (rs : List Report) :
    (t.reportAll rs).hasErrors = (t.hasErrors || rs.any (!·.isWarning)) := by
  induction rs generalizing t with
  | nil => simp [reportAll]
  | cons r rest ih =>
      change ((t.report r).reportAll rest).hasErrors = _
      rw [ih, hasErrors_report, List.any_cons, Bool.or_assoc]

/-- Grave problems that are reported without leaving an error are none. -/
theorem problems_eq_nil {t : Table} {rs : List Report} (hgrave : ∀ r ∈ rs, r.isWarning = false)
    (hclean : (t.reportAll rs).hasErrors = false) : rs = [] := by
  rw [hasErrors_reportAll, Bool.or_eq_false_iff, List.any_eq_false] at hclean
  cases rs with
  | nil => rfl
  | cons r rest =>
      have hnot := hclean.2 r List.mem_cons_self
      rw [hgrave r List.mem_cons_self] at hnot
      exact absurd rfl hnot

/-- A declaration of the module whose positions are resolved. -/
structure Resolves (t : Table) (r : ResolvedType) : Prop where
  closed : ∀ p ∈ r.positions, p.Closed t
  declares : t.Declares r.symbol (.union none) 0 ∨
    ∃ shape info, t.Declares r.symbol (.data shape info) r.positions.length

/-- A parameter of the module whose type is resolved. -/
structure ResolvesParam (t : Table) (r : ResolvedParam) : Prop where
  closed : ∀ p, r.type = some p → p.Closed t
  declares : t.Declares r.symbol (.userConstant .parameter) 0

end Table

namespace Draft

theorem lasting_resolves (r : ResolvedType) : Lasting fun d => d.table.Resolves r := by
  intro d d' hext h
  refine ⟨fun p hp => (h.closed p hp).later hext.table.later, ?_⟩
  rcases h.declares with hunion | ⟨shape, info, hdata⟩
  · exact .inl (hunion.later hext.table.later)
  · exact .inr ⟨shape, info, hdata.later hext.table.later⟩

theorem lasting_resolvesParam (r : ResolvedParam) : Lasting fun d => d.table.ResolvesParam r :=
  fun _ _ hext h => ⟨fun p hp => (h.closed p hp).later hext.table.later,
    h.declares.later hext.table.later⟩

/-! ## Resolving without errors -/

theorem enlarges_scopeOf_bind {β : Type} {P : Draft → Prop} {R : β → Draft → Prop} {m : Module}
    {owner : Name} {g : Scope → DraftM β}
    (h : ∀ scope, Enlarges (fun d => P d ∧ d.table = scope.table) (g scope) R) :
    Enlarges P (scopeOf m owner >>= g) R where
  proceeds := (proceeds_scopeOf m owner).bind fun scope => (h scope).proceeds
  run hsound hd hrun hclean := (h _).run hsound ⟨hd, rfl⟩ hrun hclean

/-- Problems that leave no errors are none. -/
theorem enlarges_reportAll {P : Draft → Prop} (hP : Lasting P) {rs : List Report}
    (hgrave : ∀ d, P d → ∀ r ∈ rs, r.isWarning = false) :
    Enlarges P (modifyTable (·.reportAll rs)) fun _ d => P d ∧ rs = [] := by
  refine enlarges_aside (proceeds_modifyTable fun t => t.onward_reportAll _) (fun _ => rfl)
    (fun d => d.table.reportAll_eq rs) fun d hd hclean =>
      ⟨?_, Table.problems_eq_nil (hgrave d hd) hclean⟩
  obtain ⟨hid, hnamespaces, hsymbols⟩ := d.table.reportAll_eq rs
  exact hP d _ ⟨.refl _, .of_eq hid hnamespaces hsymbols⟩ hd

theorem lasting_positions (positions : List Position) :
    Lasting fun d => ∀ p ∈ positions, p.Closed d.table ∧ p.Grave :=
  fun _ _ hext h p hp => ⟨(h p hp).1.later hext.table.later, (h p hp).2⟩

/-- A type that is resolved without errors has closed positions. -/
theorem enlarges_resolveType (m : Module) (decl : Declaration) :
    Enlarges (fun d => d.table.DeclaresType decl.decl.body decl.symbol) (resolveType m decl)
      fun r d => d.table.Resolves r := by
  refine (enlarges_tick (lasting_declaresType _ _)).bind fun _ => ?_
  refine enlarges_scopeOf_bind fun scope => ?_
  let positions := decl.decl.body.positions.map scope.resolvePosition
  have hlasting := (lasting_declaresType decl.decl.body decl.symbol).and
      (lasting_positions positions)
  refine Enlarges.of_sound (P := fun d => d.table.DeclaresType decl.decl.body decl.symbol ∧
    ∀ p ∈ positions, p.Closed d.table ∧ p.Grave) ?_ fun d hsound hd => ⟨hd.1, fun p hp => ?_⟩
  · refine (enlarges_reportAll hlasting fun d hd r hr => ?_).bind fun _ => ?_
    · obtain ⟨p, hp, hr⟩ := List.mem_flatMap.1 hr
      exact (hd.2 p hp).2 r hr
    refine .ite (fun hfailed => ?_) fun _ => enlarges_pure fun d hd => ⟨fun p hp => ?_, ?_⟩
    · refine Enlarges.bind (Q := fun _ _ => False) ?_ fun _ => ?_
      · refine ⟨proceeds_modifyTable fun t => t.onward_markFamilyFailed _,
          fun hsound hd _ _ => absurd hfailed ?_⟩
        have hnone := hd.2
        simp only [List.flatMap_eq_nil_iff] at hnone
        simp only [Bool.not_eq_true, Bool.not_eq_false', List.all_eq_true]
        intro p hp
        rw [Position.isOk, hnone p hp]
        rfl
      · exact enlarges_pure fun _ hd => hd.elim
    · exact (hd.1.2 p hp).1
    · rcases hd.1.1 with hunion | ⟨shape, info, hdata⟩
      · exact .inl hunion
      · exact .inr ⟨shape, info, by rwa [List.length_map]⟩
  · obtain ⟨terms, _, rfl⟩ := List.mem_map.1 hp
    have hregular : scope.table.Regular d.names := hd.2 ▸ hsound.regular
    rw [hd.2]
    exact Scope.resolvePosition_sound hregular terms

theorem enlarges_resolveParam (m : Module) (param : Parameter) :
    Enlarges (fun d => d.table.Declares param.symbol (.userConstant .parameter) 0)
      (resolveParam m param) fun r d => d.table.ResolvesParam r := by
  refine enlarges_scopeOf_bind fun scope => ?_
  let position := scope.resolvePosition param.type
  have hlasting := (lasting_declares param.symbol (.userConstant .parameter) 0).and
    (lasting_positions [position])
  refine Enlarges.of_sound (P := fun d =>
    d.table.Declares param.symbol (.userConstant .parameter) 0 ∧
      ∀ p ∈ [position], p.Closed d.table ∧ p.Grave) ?_
    fun d hsound hd => ⟨hd.1, List.forall_mem_singleton.2 ?_⟩
  · refine (enlarges_reportAll hlasting fun d hd => (hd.2 position (by simp)).2).bind fun _ => ?_
    refine .ite (fun _ => enlarges_pure fun d hd => ⟨fun p hp => ?_, hd.1.1⟩) fun hfailed => ?_
    · obtain rfl := Option.some.inj hp
      exact (hd.1.2 position (by simp)).1
    · refine Enlarges.bind (Q := fun _ _ => False) ?_ fun _ => enlarges_pure fun _ hd => hd.elim
      refine ⟨proceeds_modifyTable fun t => t.onward_updateSymbol _ _,
        fun hsound hd _ _ => absurd ?_ hfailed⟩
      rw [Position.isOk, hd.2]
      rfl
  · have hregular : scope.table.Regular d.names := hd.2 ▸ hsound.regular
    rw [hd.2]
    exact Scope.resolvePosition_sound hregular param.type

/-! ## Nothing fails -/

theorem Sound.unfailed {d : Draft} (h : d.Sound) (x : SymbolId) :
    (d.table.symbolAt x).failed = false := by
  by_cases hx : d.table.Holds x
  · exact Table.Sound.unfailed h hx
  · rw [Table.symbolAt_of_not_holds hx]
    rfl

theorem enlarges_filterM_none {α : Type} {P : Draft → Prop} {g : α → DraftM Bool}
    (h : ∀ a, Enlarges P (g a) fun keep d => P d ∧ keep = false) (l : List α) :
    Enlarges P (l.filterM g) fun kept d => P d ∧ kept = [] := by
  have haux : Enlarges P (l.filterAuxM g []) fun kept d => P d ∧ kept = [] := by
    induction l with
    | nil => exact enlarges_pure fun _ hd => ⟨hd, rfl⟩
    | cons a rest ih =>
        refine (h a).bind fun keep => ?_
        cases keep with
        | false => exact ih.imp (fun _ hd => hd.1) fun _ _ hd => hd
        | true =>
            exact ⟨proceeds_filterAuxM rest [a] fun a => (h a).proceeds,
              fun _ hd _ _ => by cases hd.2⟩
  refine haux.bind fun kept => enlarges_pure fun _ hd => ⟨hd.1, ?_⟩
  rw [hd.2]
  rfl

theorem enlarges_spreadFailuresOnce {P : Draft → Prop} (hP : Lasting P)
    (types : List ResolvedType) :
    Enlarges P (spreadFailuresOnce types) fun _ => P := by
  refine (enlarges_filterM_none (fun r => ?_) types).bind fun failing => ?_
  · refine (enlarges_tick hP).bind fun _ => enlarges_getTable_bind fun t => ?_
    refine Enlarges.of_sound (P := fun d => P d ∧ ∀ x, (t.symbolAt x).failed = false)
      (enlarges_pure fun d hd => ⟨hd.1, ?_⟩) fun d hsound hd => ⟨hd.1, hd.2 ▸ hsound.unfailed⟩
    simp [hd.2]
  · refine Enlarges.bind (Q := fun _ => P) ?_ fun _ => enlarges_pure fun _ hd => hd
    refine ⟨proceeds_modifyTable (Table.onward_foldl _ fun t r =>
      t.onward_markFamilyFailed r.symbol),
      fun hsound hd hrun _ => ?_⟩
    obtain ⟨hd, rfl⟩ := hd
    cases hrun
    exact ⟨.refl _, hsound, hd⟩

theorem enlarges_spreadFailures {P : Draft → Prop} (hP : Lasting P) (types : List ResolvedType)
    (rounds : Nat) : Enlarges P (spreadFailures types rounds) fun _ => P := by
  induction rounds with
  | zero => exact enlarges_pure fun _ hd => hd
  | succ rounds ih =>
      refine (enlarges_spreadFailuresOnce hP types).bind fun changed => ?_
      exact .ite (fun _ => ih) fun _ => enlarges_pure fun _ hd => hd

theorem enlarges_spreadToParam (r : ResolvedParam) :
    Enlarges (fun d => d.table.ResolvesParam r) (spreadToParam r)
      fun r d => d.table.ResolvesParam r := by
  refine enlarges_getTable_bind fun t => ?_
  refine Enlarges.of_sound (P := fun d => d.table.ResolvesParam r ∧
    ∀ x, (t.symbolAt x).failed = false) ?_ fun d hsound hd => ⟨hd.1, hd.2 ▸ hsound.unfailed⟩
  cases htype : r.type with
  | none => exact enlarges_pure fun _ hd => hd.1
  | some position =>
      refine .ite (fun hfailed => ?_) fun _ => enlarges_pure fun _ hd => hd.1
      refine ⟨Proceeds.bind (proceeds_modifyTable fun t => t.onward_updateSymbol _ _)
        fun _ => proceeds_pure _, fun hsound hd _ _ => absurd hfailed ?_⟩
      simp [hd.2]

end Draft

end ManySorted
