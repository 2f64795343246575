import ManySorted.Proofs.Declaration.Account
import ManySorted.Proofs.Draft.Notes

/-!
# What is reported before types are resolved

Imports and registrations report modules that cannot be had, names that cannot be used and names
that are taken (`Problem.IsEarly`).  Whatever is said about what a declared type accepts comes
later.

## Strategy

* **One report.**  A draft is early as long as what it is reported is (`Draft.Early.report`), and a
  pass that reports nothing keeps it so (`Draft.Early.of_reports`).
* **Imports.**  Placing reports names that are taken (`Draft.Early.place`), and refusals are early,
  too (`Draft.isEarly_of_importRefusal?`).
* **Registrations.**  They report names that are illegal or taken
  (`Draft.ends_early_registerNamed`), one declaration after the other
  (`Draft.ends_early_registerDeclarations`).
-/

namespace ManySorted

/-- Whether a problem may be found by importing and registering. -/
def Problem.isEarly : Problem → Bool
  | badComposition _ | badId .. | duplicateDefinition .. => true
  | _ => false

namespace Draft

variable {α : Type} {library : Library} {m : Module} {d : Draft} {name : Name} {location : Location}

/-- Nothing but early problems was reported. -/
structure Early (d : Draft) : Prop where
  isEarly : ∀ r ∈ d.table.reports, r.problem.isEarly = true

theorem Early.report (h : d.Early) {r : Report} (hr : r.problem.isEarly = true) :
    Early { d with table := d.table.report r } := by
  refine ⟨fun r' hr' => ?_⟩
  rcases List.mem_append.1 hr' with hr' | hr'
  · exact h.isEarly r' hr'
  · exact List.mem_singleton.1 hr' ▸ hr

theorem Early.of_reports {d' : Draft} (h : d.Early)
    (hreports : d'.table.reports = d.table.reports) :
    d'.Early := by
  refine ⟨fun r hr => ?_⟩
  rw [hreports] at hr
  exact h.isEarly r hr

theorem isEarly_of_illegalId? {names : Interner} {usage : String} {problem : Problem}
    (h : illegalId? names name usage = some problem) : problem.isEarly = true := by
  unfold illegalId? at h
  split at h
  · cases h
  · cases h
    rfl

theorem ends_early_tick : Ends Early tick fun _ => Early := ends_tick fun _ _ hd => ⟨hd.isEarly⟩

theorem ends_early_report {problem : Problem} (h : problem.isEarly = true) :
    Ends Early (report location problem) fun _ => Early :=
  ends_modifyTable fun _ hd => hd.report h

end Draft

/-! ## What reports nothing -/

namespace Table

variable {names : Interner}

theorem reports_childNamespace (t : Table) (parent : NamespaceId) (name : Name) :
    (t.childNamespace parent name).2.reports = t.reports := by
  unfold childNamespace
  split <;> rfl

theorem reports_recreateNamespaces (t : Table) (destination : NamespaceId) (foreign : Table) :
    (t.recreateNamespaces destination foreign).2.reports = t.reports :=
  List.foldlRecOn (motive := fun state : List NamespaceId × Table => state.2.reports = t.reports)
    _ _ rfl fun _ h _ _ => (reports_childNamespace ..).trans h

/-- A new table reports nothing. -/
theorem reports_create {id : TableId} {module file : Name} {kind : ModuleKind} :
    (create names id module kind file).2.reports = [] :=
  List.foldlRecOn (motive := fun state : Interner × Table => state.2.reports = [])
    builtins addBuiltin rfl fun _ h _ _ => (stable_reports.registerIfFree ..).trans h

end Table

/-! ## Imports -/

namespace Draft

theorem early_initial (names : Interner) (id : TableId) (config : CheckConfig) (m : Module) :
    (initial names id config m).Early := by
  refine ⟨fun r hr => ?_⟩
  rw [show (initial names id config m).table.reports = [] from Table.reports_create] at hr
  exact absurd hr List.not_mem_nil

theorem Early.cloneInto (h : d.Early) (imp : Importing) (s : Symbol) (home : NamespaceId)
    (links : Links) : (imp.cloneInto s home links d).2.Early := by
  unfold Importing.cloneInto
  split
  · split
    · exact h
    · exact h.report rfl
  · split
    · exact h
    · next hclone =>
        exact h.of_reports ((Table.stable_reports.foldl_adopt ..).trans
          (Table.stable_reports.registerClone hclone))

theorem Early.place (h : d.Early) (imp : Importing) (s : Symbol) (links : Links) :
    (imp.place s links d).2.Early := by
  unfold Importing.place
  split
  · exact h
  · dsimp only
    split
    · exact h
    · exact h
    · split
      · exact h
      · exact h.cloneInto ..
    · split
      · exact h
      · exact h.cloneInto ..
    · exact h
    · exact h
    · exact h.cloneInto ..
    · exact h.cloneInto ..
    · exact h.cloneInto ..

theorem ends_early_embed (foreign : Table) (rename : Option Name) (span : Span) :
    Ends Early (embed foreign rename span) fun _ => Early := by
  refine (ends_modifyTable (P := Early) (Q := fun _ => Early) fun _ hd =>
    ⟨hd.isEarly⟩).bind fun _ => ?_
  refine Ends.bind (Q := fun _ => Early) (ends_modifyGet fun d hd => ?_) fun homes => ?_
  · refine hd.of_reports ((Table.reports_recreateNamespaces ..).trans ?_)
    cases rename with
    | none => rfl
    | some name => exact Table.reports_childNamespace ..
  refine ends_getTable_bind fun t => Ends.imp (P := Early) ?_ (fun _ hd => hd.1) fun _ _ hd => hd
  refine (ends_foldlM (motive := fun _ _ => Early) (fun _ links s _ _ =>
    ends_early_tick.bind fun _ => ends_modifyGet fun d hd => hd.place ..) {}).bind fun links => ?_
  refine Ends.bind (Q := fun _ => Early) (ends_tryModifyTable fun d table hd hfill =>
    hd.of_reports ?_) fun _ => ends_getNames_bind fun names =>
      ends_tryModifyTable fun d table hd hverify => ?_
  · exact foldlM_ok_induct (motive := fun t => t.reports = d.table.reports) hfill rfl
      fun _ _ _ _ h hstep => (Table.stable_reports.fillClone hstep).trans h
  · obtain ⟨_, _, hsame⟩ := except_bind_eq_ok.1 hverify
    cases hsame
    exact hd.1

theorem isEarly_of_importRefusal? {names : Interner} {t foreign : Table} {reference : ModuleRef}
    {problem : Problem} (h : t.importRefusal? names reference foreign = some problem) :
    problem.isEarly = true := by
  unfold Table.importRefusal? at h
  split at h
  · cases h
    rfl
  · split at h
    · cases h
      rfl
    · split at h
      · next hillegal =>
          cases h
          obtain ⟨_, _, hname⟩ := Option.bind_eq_some_iff.1 hillegal
          exact isEarly_of_illegalId? hname
      · obtain ⟨_, _, rfl⟩ := Option.map_eq_some_iff.1 h
        rfl

theorem ends_early_importReference (library : Library) (m : Module) (reference : ModuleRef) :
    Ends Early (importReference library m reference) fun _ => Early := by
  refine ends_early_tick.bind fun _ => ?_
  refine (ends_modify (Q := fun _ => Early) fun _ hd => ⟨hd.isEarly⟩).bind fun _ => ?_
  split
  · refine ends_get_bind fun d => ?_
    split
    · next hrefusal =>
        exact (ends_early_report (isEarly_of_importRefusal? hrefusal)).imp (fun _ hd => hd.1)
          fun _ _ hd => hd
    · exact Ends.imp (ends_early_embed _ _ _) (fun _ hd => hd.1) fun _ _ hd => hd
  · exact ends_getNames_bind fun names => (ends_early_report rfl).imp (fun _ hd => hd.1)
      fun _ _ hd => hd

/-! ## Registrations -/

theorem ends_early_register {home : NamespaceId} {arity : Nat} {kind : SymbolKind} :
    Ends Early (register home name arity location kind) fun _ => Early := by
  refine ends_modifyGet fun d hd => ?_
  split
  · next hregister => exact hd.of_reports (Table.stable_reports.register hregister)
  · exact hd

theorem ends_early_registerData {home : NamespaceId} {arity : Nat} {shape : DataShape}
    {labels : List (Option Name)} {any : List Bool} :
    Ends Early (registerData home name arity location shape labels any) fun _ => Early := by
  refine ends_modifyGet fun d hd => ?_
  split
  · next hregister => exact hd.of_reports (Table.stable_reports.registerData hregister)
  · exact hd

theorem ends_early_checkId {usage : String} :
    Ends Early (checkId location name usage) fun _ => Early := by
  refine ends_getNames_bind fun names => ?_
  split
  · exact ends_pure fun _ hd => hd.1
  · next hillegal =>
      exact Ends.bind ((ends_early_report (isEarly_of_illegalId? hillegal)).imp (fun _ hd => hd.1)
        fun _ _ hd => hd) fun _ => ends_pure fun _ hd => hd

theorem ends_early_registerNamed {usage : String}
    {registration : DraftM (Except SymbolId SymbolId)}
    (h : Ends Early registration fun _ => Early) :
    Ends Early (registerNamed location name usage registration) fun _ => Early := by
  refine ends_early_checkId.bind fun legal => .ite (fun _ => h.bind fun r => ?_) fun _ =>
    ends_pure fun _ hd => hd
  cases r with
  | ok id => exact ends_pure fun _ hd => hd
  | error previous =>
      exact Ends.bind (Q := fun _ => Early) (ends_modify fun _ hd => hd.report rfl) fun _ =>
        ends_pure fun _ hd => hd

theorem ends_early_registerBody (decl : TypeDecl) :
    Ends Early (registerBody decl location) fun _ => Early := by
  unfold registerBody
  dsimp only
  split
  · exact ends_early_register
  · exact ends_early_registerData
  · exact ends_early_registerData

theorem ends_early_registerElement (m : Module) (element : EnumElement) :
    Ends Early (registerElement m element) fun _ => Early := by
  have hliteral : ∀ literal, Ends Early (addLiteral literal) fun _ => Early := fun literal =>
    ends_modifyTable fun d hd => hd.of_reports rfl
  refine ends_early_tick.bind fun _ => ?_
  cases element with
  | literal literal span => exact hliteral literal
  | range low high span => exact (hliteral _).bind fun _ => hliteral _
  | constant id =>
      refine ends_getTable_bind fun t => .ite (fun _ => ?_) fun _ => ends_pure fun _ hd => hd.1
      refine Ends.bind (ends_early_checkId.imp (fun _ hd => hd.1) fun _ _ hd => hd) fun legal =>
        .ite (fun _ => ?_) fun _ => ends_pure fun _ hd => hd
      exact ends_early_register.discard fun _ _ hd => hd

theorem ends_early_registerDeclarations (m : Module) :
    Ends Early (registerDeclarations m) fun _ => Early := by
  have hconveniences : Ends Early (registerConveniences m) fun _ => Early := by
    refine ends_filterMapM (motive := fun _ _ => Early) fun _ _ convenience _ _ => ?_
    refine Ends.bind (Q := fun _ => Early) (ends_modifyGet fun d hd =>
      hd.of_reports rfl) fun name =>
      ends_early_register.bind fun r => ?_
    cases r with
    | ok id => exact ends_pure fun _ hd => hd
    | error previous => exact ends_pure fun _ hd => hd
  have htypes : Ends Early (m.types.filterMapM (registerType m)) fun _ => Early :=
    ends_filterMapM (motive := fun _ _ => Early) fun _ _ decl _ _ => ends_early_tick.bind fun _ =>
      Ends.bind (ends_early_registerNamed (ends_early_registerBody decl)) fun _ =>
        ends_pure fun _ hd => hd
  have hconstants : Ends Early (m.constants.forM (registerConstant m)) fun _ => Early :=
    ends_forM (motive := fun _ => Early) fun _ constant _ _ => ends_early_tick.bind fun _ =>
      (ends_early_registerNamed ends_early_register).discard fun _ _ hd => hd
  have hparams : Ends Early (m.params.filterMapM (registerParam m)) fun _ => Early := by
    refine ends_filterMapM (motive := fun _ _ => Early) fun _ _ param _ _ => ?_
    cases param with
    | model reference => exact ends_pure fun _ hd => hd
    | value name type span =>
        exact Ends.bind (ends_early_registerNamed ends_early_register) fun _ =>
          ends_pure fun _ hd => hd
  have hwrite : ∀ conveniences, Ends Early (writeConveniences conveniences) fun _ => Early := by
    refine fun conveniences => ends_getTable_bind fun t => ?_
    refine (ends_forM (motive := fun _ => Early) fun _ pair _ _ =>
      ends_tryModifyTable fun d table hd hwrite => ?_).imp (fun _ hd => hd.1) fun _ _ hd => hd
    exact hd.of_reports (Table.canonical_setCanonical hwrite).2.2
  refine hconveniences.bind fun conveniences => htypes.bind fun types => hconstants.bind fun _ => ?_
  have hrest : ∀ params, Ends Early (do
      (Node.module m).enumElements.forM (registerElement m)
      writeConveniences conveniences
      return ({ types, params } : Declarations)) fun _ => Early := fun params =>
    (ends_forM (motive := fun _ => Early) fun _ element _ _ =>
      ends_early_registerElement m element).bind fun _ => (hwrite conveniences).bind fun _ =>
        ends_pure fun _ hd => hd
  exact .ite (fun _ => hparams.bind hrest) fun _ =>
    Ends.bind (Q := fun _ => Early) (ends_pure fun _ hd => hd) hrest

end Draft

end ManySorted
