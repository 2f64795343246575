import ManySorted.Proofs.Declaration.Entering

/-!
# Registering without errors

If registering reports no error, then all that a module declares is entered (`Draft.exhausts`), and
the interner that it leaves depends on nothing but the one before (`Module.enlist`).  It reports
none just if the names that the module declares are legal, free and different, and so are the
constants of its enumerations (`Draft.Admits`).  The convenience unions come first, each unless its
name is taken (`Draft.Equipped`).

## Strategy

* **Names that are interned.**  Registering interns the names of conveniences and, with each type
  that is entered, the name of its type constant (`Module.enlist`).  Constants and parameters intern
  none.
* **Without errors.**  A declaration that is not entered is reported, so if no error is reported
  then all of them are entered (`Draft.exhausts`).
* **Conveniences.**  Each of them is entered unless its name is taken; in either case its name is
  taken afterwards (`Draft.Equipped.taken`), and nothing else is (`Draft.ends_equipped`).
-/

namespace ManySorted

/-! ## The interner -/

/-- The interner after the type is registered. -/
def TypeDecl.enlist (names : Interner) (decl : TypeDecl) : Interner :=
  if decl.body.shape?.isSome then (names.intern ("#" ++ names.text decl.name)).2 else names

/-- The interner after the name of a convenience is looked up. -/
def Convenience.enlist (names : Interner) (c : Convenience) : Interner := (names.intern c.name).2

/-- The value parameters that a module has entered: those of a transform. -/
def Module.boundParams (m : Module) : List (Name × List TypeTerm) :=
  if m.kind = .transform then m.valueParams else []

/-- The interner after the conveniences and the types of a module are registered. -/
def Module.enlist (m : Module) (names : Interner) : Interner :=
  m.types.foldl TypeDecl.enlist (Convenience.all.foldl Convenience.enlist names)

namespace Draft

variable {P : Draft → Prop} {m : Module} {imported origin start d d' : Draft}
  {conveniences : List (Convenience × SymbolId)} {names : Interner} {name : Name}
  {location : Location} {entries before : List Entry} {e : Entry}

theorem ends_names_register {home : NamespaceId} {arity : Nat} {kind : SymbolKind} :
    Ends (·.names = names) (register home name arity location kind) fun _ d => d.names = names := by
  refine ends_modifyGet fun d hd => ?_
  split
  · exact hd
  · exact hd

/-- A type that is entered has its name interned. -/
theorem ends_names_registerData {arity : Nat} {shape : DataShape} {labels : List (Option Name)}
    {any : List Bool} :
    Ends (·.names = names) (registerData .root name arity location shape labels any) fun r d =>
      match r with
      | .ok _ => d.names = (names.intern ("#" ++ names.text name)).2
      | .error _ => True := by
  refine ends_modifyGet fun d hd => ?_
  subst hd
  cases hregister : d.table.registerData d.names .root name arity location shape labels any with
  | ok registered => exact (Table.onward_registerData hregister).2
  | error _ => trivial

theorem ends_names_registerBody (decl : TypeDecl) :
    Ends (·.names = names) (registerBody decl location) fun r d =>
      match r with
      | .ok _ => d.names = decl.enlist names
      | .error _ => True := by
  unfold registerBody TypeDecl.enlist
  cases hbody : decl.body with
  | union members =>
      refine ends_names_register.imp (fun d hd => hd) fun r d hd => ?_
      cases r with
      | ok _ => exact hd
      | error _ => trivial
  | constructor isNew fields => exact ends_names_registerData
  | map kind isPartial domain codomain => exact ends_names_registerData

/-- Without errors a declaration is entered. -/
theorem ends_registerNamed_of_clean {Q : Draft → Prop} {usage : String}
    {registration : DraftM (Except SymbolId SymbolId)}
    (hregister : Ends P registration fun r d =>
      match r with
      | .ok _ => Q d
      | .error _ => True) :
    Ends P (registerNamed location name usage registration) fun r d =>
      d.table.hasErrors = false → r.isSome = true ∧ Q d := by
  refine ends_registerNamed (hregister.imp (fun d hd => hd.1) fun r d hd => ?_)
    fun d _ _ hclean => ?_
  · cases r with
    | ok id => exact fun _ => ⟨rfl, hd⟩
    | error previous =>
        intro hclean
        rw [Table.reportDuplicate, Table.hasErrors_report, Bool.or_eq_false_iff] at hclean
        cases hclean.2
  · rw [Table.hasErrors_report, Bool.or_eq_false_iff] at hclean
    cases hclean.2

theorem ends_registerType_of_clean (decl : TypeDecl) :
    Ends (·.names = names) (registerType m decl) fun b d => d.table.hasErrors = false →
      b.map Declaration.decl = some decl ∧ d.names = decl.enlist names := by
  refine (ends_tick fun d clock hd => hd).bind fun _ => ?_
  refine (ends_registerNamed_of_clean (ends_names_registerBody decl)).bind fun x =>
    ends_pure fun d hd hclean => ?_
  obtain ⟨hsome, hnames⟩ := hd hclean
  obtain ⟨x, rfl⟩ := Option.isSome_iff_exists.1 hsome
  exact ⟨rfl, hnames⟩

/-- Without errors all types are entered. -/
theorem ends_registerTypes_of_clean :
    Ends (·.names = names) (m.types.filterMapM (registerType m)) fun types d =>
      d.table.hasErrors = false → types.map Declaration.decl = m.types ∧
        d.names = m.types.foldl TypeDecl.enlist names := by
  refine (ends_filterMapM (motive := fun done types d => d.table.hasErrors = false →
    types.map Declaration.decl = done ∧ d.names = done.foldl TypeDecl.enlist names)
    fun done types decl rest _ d b d' hd hrun hclean => ?_).imp (fun d hd _ => ⟨rfl, hd⟩)
      fun _ _ hd => hd
  have hproceeds := proceeds_registerType m decl
  obtain ⟨htypes, hnames⟩ := hd ((hproceeds.ok hrun).table.hasErrors_eq_false hclean)
  obtain ⟨hdecl, hnames'⟩ := ends_registerType_of_clean decl d b d' hnames hrun hclean
  obtain ⟨b, rfl⟩ : ∃ b', b = some b' := by
    cases b with
    | none => cases hdecl
    | some b => exact ⟨b, rfl⟩
  refine ⟨?_, by rw [hnames', List.foldl_append]; rfl⟩
  rw [List.map_append, htypes]
  exact congrArg (done ++ [·]) (Option.some.inj hdecl)

/-! ## What follows the types -/

theorem ends_names_registerNamed {usage : String} {arity : Nat} {kind : SymbolKind} :
    Ends (·.names = names)
      (registerNamed location name usage (register .root name arity location kind))
      fun _ d => d.names = names := by
  refine ends_registerNamed (ends_names_register.imp (fun d hd => hd.1) fun r d hd => ?_)
    fun d hd _ => hd
  cases r with
  | ok _ => exact hd
  | error _ => exact hd

theorem ends_names_registerConstant (constant : ConstantDecl) :
    Ends (·.names = names) (registerConstant m constant) fun _ d => d.names = names :=
  (ends_tick fun _ _ hd => hd).bind fun _ =>
    Ends.discard ends_names_registerNamed fun _ _ hd => hd

/-- Without errors a value parameter is entered. -/
theorem ends_registerParam_of_clean (param : Param) :
    Ends (·.names = names) (registerParam m param) fun p d => d.names = names ∧
      (d.table.hasErrors = false → p.map (fun p => (p.name, p.type)) = param.value?) := by
  cases param with
  | model reference => exact ends_pure fun d hd => ⟨hd, fun _ => rfl⟩
  | value name type span =>
      have hregister : Ends (·.names = names)
          (register .root name 0 (m.locate span) (.userConstant .parameter)) fun r d =>
          match r with
          | .ok _ => d.names = names
          | .error _ => True :=
        ends_names_register.imp (fun d hd => hd) fun r d hd => by
          cases r with
          | ok _ => exact hd
          | error _ => trivial
      refine (Ends.and ends_names_registerNamed (ends_registerNamed_of_clean hregister)).imp
        (fun d hd => ⟨hd, hd⟩) (fun _ _ hd => hd)
        |>.bind fun x => ends_pure fun d hd => ⟨hd.1, fun hclean => ?_⟩
      obtain ⟨x, rfl⟩ := Option.isSome_iff_exists.1 (hd.2 hclean).1
      rfl

/-- Without errors all parameters of a transform are entered. -/
theorem ends_registerParams_of_clean :
    Ends (·.names = names)
      (if m.kind = .transform then m.params.filterMapM (registerParam m) else pure [])
      fun params d => d.names = names ∧ (d.table.hasErrors = false →
        params.map (fun p => (p.name, p.type)) = m.boundParams) := by
  refine Ends.ite (fun hkind => ?_) fun hkind => ends_pure fun d hd => ⟨hd, fun _ => ?_⟩
  · rw [Module.boundParams, if_pos hkind]
    refine (ends_filterMapM (motive := fun done params d => d.names = names ∧
      (d.table.hasErrors = false →
        params.map (fun p => (p.name, p.type)) = done.filterMap Param.value?))
      fun done params param rest _ d p d' hd hrun => ?_).imp (fun d hd => ⟨hd, fun _ => rfl⟩)
        fun _ _ hd => hd
    obtain ⟨hnames, hparam⟩ := ends_registerParam_of_clean param d p d' hd.1 hrun
    refine ⟨hnames, fun hclean => ?_⟩
    have hbefore := hd.2
      (((proceeds_registerParam m param).ok hrun).table.hasErrors_eq_false hclean)
    rw [List.map_append, hbefore, List.filterMap_append, List.filterMap_cons, ← hparam hclean]
    cases p <;> rfl
  · rw [Module.boundParams, if_neg hkind]
    rfl

theorem ends_names_registerElement (element : EnumElement) :
    Ends (·.names = names) (registerElement m element) fun _ d => d.names = names := by
  refine (ends_tick fun _ _ hd => hd).bind fun _ => ?_
  cases element with
  | literal literal span => exact ends_modifyTable fun d hd => hd
  | range low high span =>
      exact (ends_modifyTable (Q := fun _ d => d.names = names) fun d hd => hd).bind fun _ =>
        ends_modifyTable fun d hd => hd
  | constant id =>
      refine ends_getTable_bind fun t => Ends.ite (fun _ => ?_) fun _ => ends_pure fun d hd => hd.1
      refine (ends_checkId (Q := fun _ d => d.names = names) fun d hd => ?_).bind fun legal =>
        Ends.ite (fun _ => Ends.discard ends_names_register fun _ _ hd => hd) fun _ =>
          ends_pure fun d hd => hd
      split
      · exact hd.1
      · exact hd.1

theorem ends_names_registerConveniences :
    Ends (·.names = names) (registerConveniences m) fun _ d =>
      d.names = Convenience.all.foldl Convenience.enlist names := by
  refine ends_filterMapM (motive := fun done _ d => d.names = done.foldl Convenience.enlist names)
    fun done conveniences c rest _ => ?_
  rw [List.foldl_append]
  refine Ends.bind (Q := fun _ d =>
    d.names = Convenience.enlist (done.foldl Convenience.enlist names) c)
    (ends_modifyGet fun d hd => by rw [← hd]; rfl) fun name =>
      ends_names_register.bind fun r => ?_
  cases r with
  | ok _ => exact ends_pure fun d hd => hd
  | error _ => exact ends_pure fun d hd => hd

/-- Without errors all that a module declares is entered, and only names of types and conveniences
are interned. -/
theorem exhausts {imported start : Draft} {declarations : Declarations}
    (hrun : registerDeclarations m imported = .ok declarations start)
    (hclean : start.table.hasErrors = false) : declarations.types.map Declaration.decl = m.types ∧
      declarations.params.map (fun p => (p.name, p.type)) = m.boundParams ∧
      start.names = m.enlist imported.names := by
  obtain ⟨conveniences, origin, typed, constant, bound, base, hconveniences, htypes, hconstants,
    hparams, helements, hwritten⟩ := registerDeclarations_eq_ok hrun
  -- an error of any stage would still be there in the end
  have hbase := ((proceeds_writeConveniences _).ok hwritten).table.hasErrors_eq_false hclean
  have hbound := ((proceeds_forM fun element _ => proceeds_registerElement m element).ok
    helements).table.hasErrors_eq_false hbase
  have hproceeds : Proceeds (if m.kind = .transform then m.params.filterMapM (registerParam m)
      else pure []) := .ite (proceeds_filterMapM _ (proceeds_registerParam m)) (proceeds_pure _)
  have hconstant := (hproceeds.ok hparams).table.hasErrors_eq_false hbound
  have htyped := ((proceeds_forM fun constant _ => proceeds_registerConstant m constant).ok
    hconstants).table.hasErrors_eq_false hconstant
  obtain ⟨htypes', hnames⟩ := ends_registerTypes_of_clean _ _ _
    (ends_names_registerConveniences _ _ _ rfl hconveniences) htypes htyped
  have hkept := ends_forM (motive := fun _ (d : Draft) => d.names = typed.names)
    (fun _ constant _ _ => ends_names_registerConstant (m := m) constant) _ _ _ rfl hconstants
  obtain ⟨hkept', hparams'⟩ := ends_registerParams_of_clean _ _ _ hkept hparams
  have hkept'' := ends_forM (motive := fun _ (d : Draft) => d.names = typed.names)
    (fun _ element _ _ => ends_names_registerElement (m := m) element) _ _ _ hkept' helements
  exact ⟨htypes', hparams' hbound,
    ((ends_writeConveniences _ _ _ _ _ rfl hwritten).1.trans hkept'').trans hnames⟩

/-! ## Conveniences -/

/-- What some of the conveniences leave: each has its name in the root, or finds it taken. -/
structure Equipped (imported : Draft) (done : List Convenience) (d : Draft) : Prop where
  intact : d.Intact
  grown : imported.names.Grown d.names
  added : imported.table.Added d.table
  entersRoot : imported.table.EntersRoot d.table
  reports_eq : d.table.reports = imported.table.reports
  stands : ∀ c ∈ done, ∃ name x, d.names.Knows name ∧ d.names.text name = c.name ∧
    (d.table.namespaceAt .root).symbol? name = some x
  new : ∀ {x}, d.table.Holds x → ¬ imported.table.Holds x → ∃ c ∈ done,
    d.table.kindOf x = .union (some c) ∧ (d.table.symbolAt x).arity = 0 ∧
      d.names.text (d.table.symbolAt x).name = c.name

namespace Equipped

variable {done : List Convenience} {c : Convenience} {x : SymbolId}

theorem of_intern (h : Equipped imported done d) (c : Convenience) :
    Equipped imported done { d with names := (d.names.intern c.name).2 } where
  intact := h.intact.grown (Interner.grown_intern _ _) (h.intact.formed.proper.intern _)
  grown := h.grown.trans (Interner.grown_intern _ _)
  added := h.added
  entersRoot := h.entersRoot
  reports_eq := h.reports_eq
  stands c' hc' := by
    obtain ⟨name, x, hknows, htext, hx⟩ := h.stands c' hc'
    have hgrown := Interner.grown_intern d.names c.name
    exact ⟨name, x, hgrown.knows hknows, (hgrown.text hknows).trans htext, hx⟩
  new {x} hx hnew := by
    obtain ⟨c', hc', hkind, harity, htext⟩ := h.new hx hnew
    exact ⟨c', hc', hkind, harity, ((Interner.grown_intern d.names c.name).text
      (h.intact.formed.families.knows hx)).trans htext⟩

/-- The name of a convenience is taken by now. -/
theorem taken (h : Equipped imported done d) (hknows : d.names.Knows name)
    (htext : d.names.text name = c.name)
    (hx : (d.table.namespaceAt .root).symbol? name = some x) :
    Equipped imported (done ++ [c]) d where
  intact := h.intact
  grown := h.grown
  added := h.added
  entersRoot := h.entersRoot
  reports_eq := h.reports_eq
  stands c' hc' := by
    rcases List.mem_append.1 hc' with hc' | hc'
    · exact h.stands c' hc'
    · obtain rfl := List.mem_singleton.1 hc'
      exact ⟨name, x, hknows, htext, hx⟩
  new hx hnew := by
    obtain ⟨c', hc', hthere⟩ := h.new hx hnew
    exact ⟨c', List.mem_append_left _ hc', hthere⟩

/-- The union of a convenience is entered. -/
theorem enter (h : Equipped imported done d) (hname : d.names.Fitting name)
    (htext : d.names.text name = c.name)
    (hfree : (d.table.namespaceAt .root).symbol? name = none) (location : Location) :
    Equipped imported (done ++ [c])
      { d with table := d.table.withSymbol .root name 0 location (.union (some c)) } := by
  obtain ⟨hintact, hadded⟩ := Table.Intact.withSymbol h.intact hname hfree 0 location
    (.union (some c)) rfl rfl rfl fun _ => rfl
  refine ⟨hintact, h.grown, h.added.trans hadded, h.entersRoot.trans Table.entersRoot_withSymbol,
    h.reports_eq, fun c' hc' => ?_, fun {x} hx hnew => ?_⟩
  · rcases List.mem_append.1 hc' with hc' | hc'
    · obtain ⟨other, x, hknows, htext', hx⟩ := h.stands c' hc'
      exact ⟨other, x, hknows, htext', hadded.later.symbol? hx⟩
    · obtain rfl := List.mem_singleton.1 hc'
      refine ⟨name, ⟨d.table.symbols.size⟩, hname.knows, htext, ?_⟩
      rw [Table.symbol?_withSymbol h.intact.formed.tree.root,
        if_pos ⟨hname.named, rfl, rfl⟩]
  · by_cases hold : d.table.Holds x
    · obtain ⟨c', hc', hkind, harity, htext'⟩ := h.new hold hnew
      have hsame := hadded.same hold
      refine ⟨c', List.mem_append_left _ hc', ?_, ?_, ?_⟩
      · rw [Table.kindOf, hsame]
        exact hkind
      · rw [hsame]
        exact harity
      · rw [hsame]
        exact htext'
    · obtain rfl := Table.eq_of_holds_withSymbol hx hold
      have hself : (d.table.withSymbol .root name 0 location (.union (some c))).symbolAt
            ⟨d.table.symbols.size⟩ =
          { id := ⟨d.table.symbols.size⟩, name, home := .root, arity := 0, location,
            kind := .union (some c) } := Table.symbolAt_withSymbol_self
      refine ⟨c, List.mem_append_right _ List.mem_cons_self, ?_, ?_, ?_⟩
      · rw [Table.kindOf, hself]
      · rw [hself]
      · rw [hself]
        exact htext

end Equipped

theorem equipped_nil (h : imported.Intact) : Equipped imported [] imported where
  intact := h
  grown := .refl _
  added := .refl _
  entersRoot := .refl _
  reports_eq := rfl
  stands _ hc := absurd hc List.not_mem_nil
  new hx hnew := absurd hx hnew

/-- The conveniences are in the root, each unless its name was taken. -/
theorem ends_equipped (h : imported.Intact) :
    Ends (· = imported) (registerConveniences m) fun _ => Equipped imported Convenience.all := by
  refine (ends_filterMapM (motive := fun done _ => Equipped imported done)
    fun done conveniences c rest _ => ?_).imp (by rintro _ rfl; exact equipped_nil h)
      fun _ _ hd => hd
  refine Ends.bind (Q := fun name d => Equipped imported done d ∧ d.names.Fitting name ∧
    d.names.text name = c.name) (ends_modifyGet fun d hd => ?_) fun name => ?_
  · have htext : (d.names.intern c.name).2.text (d.names.intern c.name).1 = c.name :=
      Interner.text_intern _ _
    refine ⟨hd.of_intern c, (hd.intact.formed.proper.intern c.name).fitting
      (Interner.knows_intern _ _) ?_ ?_, htext⟩
    · rw [htext]
      exact (plain_convenience c).1
    · rw [htext]
      exact (plain_convenience c).2
  · refine Ends.bind (Q := fun _ => Equipped imported (done ++ [c])) (Safe.ends (C := fun _ => True)
      (safe_register (fun d hd => hd.2.1.named) (fun d hd hfree => ?_)
        fun d previous hd htaken => ?_)) fun r => ?_
    · exact hd.1.enter hd.2.1 hd.2.2 hfree _
    · exact hd.1.taken hd.2.1.knows hd.2.2 htaken
    · cases r with
      | ok _ => exact ends_pure fun d hd => hd
      | error _ => exact ends_pure fun d hd => hd

end Draft

end ManySorted
