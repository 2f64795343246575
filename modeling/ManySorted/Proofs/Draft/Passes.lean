import ManySorted.Checking
import ManySorted.Proofs.Draft.Run
import ManySorted.Proofs.Productivity.Worklist

/-!
# Every pass goes onward

None of the passes of a check takes back a report or a name, and none settles the validity of the
table other than by reporting (`Draft.proceeds_checkPasses`).  So a table that is handed out as
valid has no errors (`checkModule_hasErrors`).

## Strategy

* Each step of a table goes onward, and so do several steps in a row (`Table.onward_foldl`,
  `Table.onward_foldlM`).
* Each pass is put together from such steps, so it goes onward by the rules of `Draft.Proceeds`:
  there is one lemma for each pass, in the order in which the passes are made.
* A new table is open, and no pass settles its validity other than by reporting.  So a table that is
  handed out as valid comes from a run that ended well and left no errors (`checkModule_valid`).
-/

namespace ManySorted

namespace Table

variable {t t' : Table}

theorem onward_registerData {names names' : Interner} {home : NamespaceId} {name : Name}
    {arity : Nat} {location : Location} {shape : DataShape} {labels : List (Option Name)}
    {any : List Bool} {id : SymbolId}
    (h : t.registerData names home name arity location shape labels any = .ok (id, names', t')) :
    t.Onward t' ∧ names' = (names.intern ("#" ++ names.text name)).2 := by
  unfold registerData at h
  simp only at h
  split at h
  · cases h
  · next hregister =>
      cases h
      refine ⟨?_, rfl⟩
      exact ((onward_register hregister).trans (onward_registerIfFree ..)).trans
        (onward_registerIfFree ..)

theorem onward_recreateNamespaces (t : Table) (destination : NamespaceId) (foreign : Table) :
    t.Onward (t.recreateNamespaces destination foreign).2 := by
  unfold recreateNamespaces
  generalize [destination] = homes
  induction foreign.namespaces.toList.drop 1 generalizing homes t with
  | nil => exact .refl t
  | cons node rest ih =>
      rw [List.foldl_cons]
      exact (t.onward_childNamespace _ _).trans (ih _ _)

theorem onward_markFamilyFailed (t : Table) (symbol : SymbolId) :
    t.Onward (t.markFamilyFailed symbol) := by
  unfold markFamilyFailed
  simp only
  split
  · exact (onward_updateSymbol ..).trans (onward_updateSymbol ..)
  · exact onward_updateSymbol ..

theorem onward_foldl {α : Type} {f : Table → α → Table} (l : List α)
    (h : ∀ (t : Table) a, t.Onward (f t a)) (t : Table) : t.Onward (l.foldl f t) := by
  induction l generalizing t with
  | nil => exact .refl t
  | cons a rest ih => exact (h t a).trans (ih _)

theorem onward_writeForm {symbol : SymbolId} {form : CanonicalForm}
    (h : t.writeForm symbol form = .ok t') : t.Onward t' := by
  unfold writeForm at h
  split at h
  · next info _ =>
      cases hsort : t.setCanonical info.sort form with
      | error fault =>
          rw [hsort] at h
          cases h
      | ok t₁ =>
          rw [hsort] at h
          exact (onward_setCanonical hsort).trans (onward_setCanonical h)
  · exact onward_setCanonical h

theorem onward_foldlM {α : Type} {f : Table → α → Except Fault Table} {l : List α}
    (hf : ∀ (t t' : Table) a, f t a = .ok t' → t.Onward t') (h : l.foldlM f t = .ok t') :
    t.Onward t' :=
  foldlM_ok_induct h (.refl t) fun a _ c c' hc hstep => hc.trans (hf c c' a hstep)

theorem onward_finishSort {names : Interner} {sizes : Sizes} {sort : SymbolId}
    (h : t.finishSort names sizes sort = .ok t') : t.Onward t' := by
  unfold finishSort at h
  obtain ⟨t₁, hsize, h⟩ := except_bind_eq_ok.1 h
  dsimp only at h
  split at h
  · cases h
    exact onward_setSize hsize
  · cases h
    exact ((onward_setSize hsize).trans (onward_reportAll _ _)).trans (.of_eq rfl rfl rfl)

end Table

namespace Importing

variable {imp : Importing} {s : Symbol} {home : NamespaceId} {links : Links} {d d' : Draft}

theorem onward_registerClone {id : SymbolId} (h : registerClone d s home = some (id, d')) :
    d.Onward d' := by
  unfold registerClone at h
  split at h
  · split at h
    · next hregister =>
        cases h
        obtain ⟨htable, rfl⟩ := Table.onward_registerData hregister
        exact ⟨d.names.grown_intern _, fun hd => hd.intern _, htable⟩
    · cases h
  · split at h
    · next hregister =>
        cases h
        exact .of_table (Table.onward_register hregister)
    · cases h

theorem onward_foldl_adopt (imp : Importing) (news : List (SymbolId × SymbolId)) (links : Links)
    (t : Table) : t.Onward (news.foldl imp.adopt (links, t)).2 := by
  induction news generalizing links t with
  | nil => exact .refl t
  | cons p rest ih => exact (Table.onward_updateSymbol ..).trans (ih _ _)

theorem onward_cloneInto (imp : Importing) (s : Symbol) (home : NamespaceId) (links : Links)
    (d : Draft) : d.Onward (imp.cloneInto s home links d).2 := by
  unfold cloneInto
  split
  · split
    · exact .refl d
    · exact .of_table (Table.onward_report _ _)
  · split
    · exact .refl d
    · next hregister =>
        exact (onward_registerClone hregister).trans (.of_table (onward_foldl_adopt ..))

theorem onward_place (imp : Importing) (s : Symbol) (links : Links) (d : Draft) :
    d.Onward (imp.place s links d).2 := by
  unfold place
  split
  · exact .refl d
  · simp only
    split
    · exact .refl d
    · exact .refl d
    · split
      · exact .refl d
      · exact onward_cloneInto ..
    · split
      · exact .refl d
      · exact onward_cloneInto ..
    · exact .refl d
    · exact .refl d
    · exact onward_cloneInto ..
    · exact onward_cloneInto ..
    · exact onward_cloneInto ..

/-- A clone gets a form if its foreign symbol has one, and then a size. -/
theorem fillClone_cases {foreign t t' : Table} {pair : SymbolId × SymbolId}
    (h : fillClone foreign links t pair = .ok t') : ∃ t₁,
      ((foreign.symbolAt pair.1).canonical = none ∧ t₁ = t ∨
        ∃ form, (foreign.symbolAt pair.1).canonical = some form ∧
          t.setCanonical pair.2 (form.mapIds links.find?) = .ok t₁) ∧
      ((foreign.symbolAt pair.1).size? = none ∧ t' = t₁ ∨
        ∃ size, (foreign.symbolAt pair.1).size? = some size ∧
          t₁.setSize pair.2 (size.mapIds links.find?) = .ok t') := by
  unfold fillClone at h
  dsimp only at h
  cases hsize : (foreign.symbolAt pair.1).size? with
  | none =>
      cases hform : (foreign.symbolAt pair.1).canonical with
      | none =>
          rw [hform, hsize] at h
          cases h
          exact ⟨t, .inl ⟨rfl, rfl⟩, .inl ⟨rfl, rfl⟩⟩
      | some form =>
          rw [hform, hsize] at h
          obtain ⟨t₁, hset, h⟩ := except_bind_eq_ok.1 h
          cases h
          exact ⟨t', .inr ⟨form, rfl, hset⟩, .inl ⟨rfl, rfl⟩⟩
  | some size =>
      cases hform : (foreign.symbolAt pair.1).canonical with
      | none =>
          rw [hform, hsize] at h
          exact ⟨t, .inl ⟨rfl, rfl⟩, .inr ⟨size, rfl, h⟩⟩
      | some form =>
          rw [hform, hsize] at h
          obtain ⟨t₁, hset, h⟩ := except_bind_eq_ok.1 h
          exact ⟨t₁, .inr ⟨form, rfl, hset⟩, .inr ⟨size, rfl, h⟩⟩

theorem onward_fillClone {foreign t t' : Table} {pair : SymbolId × SymbolId}
    (h : fillClone foreign links t pair = .ok t') : t.Onward t' := by
  obtain ⟨t₁, hform, hsize⟩ := fillClone_cases h
  have hfirst : t.Onward t₁ := by
    rcases hform with ⟨_, rfl⟩ | ⟨form, _, hset⟩
    · exact .refl t₁
    · exact Table.onward_setCanonical hset
  rcases hsize with ⟨_, rfl⟩ | ⟨size, _, hset⟩
  · exact hfirst
  · exact hfirst.trans (Table.onward_setSize hset)

end Importing

namespace Draft

variable {α : Type}

/-! ## Importing -/

theorem proceeds_placeStep (imp : Importing) (links : Links) (s : Symbol) :
    Proceeds (imp.placeStep links s) :=
  proceeds_tick.bind fun _ => proceeds_modifyGet fun d => Importing.onward_place imp s links d

theorem proceeds_absorb (foreign : Table) : Proceeds (modifyTable (·.absorb foreign)) :=
  proceeds_modifyTable fun _ => .of_eq rfl rfl rfl

theorem proceeds_layOut (foreign : Table) (rename : Option Name) :
    Proceeds (modifyGet fun d =>
      let (destination, table) :=
        match rename with
        | some name => d.table.childNamespace .root name
        | none => (.root, d.table)
      let (homes, table) := table.recreateNamespaces destination foreign
      (homes, { d with table })) := by
  refine proceeds_modifyGet fun d => .of_table ?_
  cases rename with
  | none => exact Table.onward_recreateNamespaces ..
  | some name =>
      exact (Table.onward_childNamespace ..).trans (Table.onward_recreateNamespaces ..)

theorem proceeds_fillClones (foreign : Table) (links : Links)
    (created : List (SymbolId × SymbolId)) :
    Proceeds (tryModifyTable fun t => created.foldlM (Importing.fillClone foreign links) t) :=
  proceeds_tryModifyTable fun _ _ h =>
    Table.onward_foldlM (fun _ _ _ => Importing.onward_fillClone) h

theorem proceeds_verify (names : Interner) (foreign : Table) (rename : Option Name)
    (created : List (SymbolId × SymbolId)) :
    Proceeds (tryModifyTable fun t => do
      created.forM (Importing.verify names t foreign rename)
      return t) := by
  refine proceeds_tryModifyTable fun t t' h => ?_
  obtain ⟨_, _, hreturn⟩ := except_bind_eq_ok.1 h
  cases hreturn
  exact .refl t

theorem proceeds_embed (foreign : Table) (rename : Option Name) (span : Span) :
    Proceeds (embed foreign rename span) := by
  refine (proceeds_absorb foreign).bind fun _ => ?_
  refine (proceeds_layOut foreign rename).bind fun homes => ?_
  refine proceeds_getTable.bind fun t => ?_
  refine (proceeds_foldlM _ (proceeds_placeStep _) _).bind fun links => ?_
  refine (proceeds_fillClones ..).bind fun _ => ?_
  exact proceeds_getNames.bind fun names => proceeds_verify ..

theorem proceeds_importModule (reference : ModuleRef) (foreign : Table) :
    Proceeds (importModule reference foreign) := by
  refine proceeds_get.bind fun d => ?_
  split
  · exact proceeds_report ..
  · exact proceeds_embed ..

theorem proceeds_request : Proceeds (modify fun d => { d with clock := d.clock.request }) :=
  proceeds_modify fun _ => ⟨.refl _, fun h => h, .refl _⟩

theorem proceeds_importReference (library : Library) (m : Module) (reference : ModuleRef) :
    Proceeds (importReference library m reference) := by
  refine proceeds_tick.bind fun _ => proceeds_request.bind fun _ => ?_
  split
  · exact proceeds_importModule ..
  · exact proceeds_getNames.bind fun _ => proceeds_report ..

/-! ## Registering declarations -/

theorem proceeds_register (home : NamespaceId) (name : Name) (arity : Nat) (location : Location)
    (kind : SymbolKind) : Proceeds (register home name arity location kind) := by
  refine proceeds_modifyGet fun d => ?_
  split
  · next h => exact .of_table (Table.onward_register h)
  · exact .refl d

theorem proceeds_registerData (home : NamespaceId) (name : Name) (arity : Nat)
    (location : Location) (shape : DataShape) (labels : List (Option Name)) (any : List Bool) :
    Proceeds (registerData home name arity location shape labels any) := by
  refine proceeds_modifyGet fun d => ?_
  split
  · next h =>
      obtain ⟨htable, rfl⟩ := Table.onward_registerData h
      exact ⟨d.names.grown_intern _, fun hd => hd.intern _, htable⟩
  · exact .refl d

theorem proceeds_checkId (location : Location) (name : Name) (usage : String) :
    Proceeds (checkId location name usage) := by
  refine proceeds_getNames.bind fun names => ?_
  split
  · exact proceeds_pure _
  · exact (proceeds_report ..).bind fun _ => proceeds_pure _

theorem proceeds_registerConveniences (m : Module) : Proceeds (registerConveniences m) := by
  refine proceeds_filterMapM _ fun convenience => (proceeds_intern _).bind fun name => ?_
  refine (proceeds_register ..).bind fun result => ?_
  split <;> exact proceeds_pure _

theorem proceeds_registerBody (decl : TypeDecl) (location : Location) :
    Proceeds (registerBody decl location) := by
  unfold registerBody
  simp only
  split
  · exact proceeds_register ..
  · exact proceeds_registerData ..
  · exact proceeds_registerData ..

theorem proceeds_registerNamed (location : Location) (name : Name) (usage : String)
    {registration : DraftM (Except SymbolId SymbolId)} (h : Proceeds registration) :
    Proceeds (registerNamed location name usage registration) := by
  refine (proceeds_checkId ..).bind fun legal => .ite (h.bind fun result => ?_) (proceeds_pure _)
  split
  · exact proceeds_pure _
  · refine Proceeds.bind ?_ fun _ => proceeds_pure _
    exact proceeds_modify fun d => .of_table (d.table.onward_report _)

theorem proceeds_registerType (m : Module) (decl : TypeDecl) : Proceeds (registerType m decl) :=
  proceeds_tick.bind fun _ =>
    (proceeds_registerNamed _ _ _ (proceeds_registerBody ..)).bind fun _ => proceeds_pure _

theorem proceeds_registerConstant (m : Module) (constant : ConstantDecl) :
    Proceeds (registerConstant m constant) :=
  proceeds_tick.bind fun _ =>
    (proceeds_registerNamed _ _ _ (proceeds_register ..)).discard

theorem proceeds_registerParam (m : Module) (param : Param) : Proceeds (registerParam m param) := by
  cases param with
  | model => exact proceeds_pure _
  | value name type span =>
      exact (proceeds_registerNamed _ _ _ (proceeds_register ..)).bind fun _ => proceeds_pure _

theorem proceeds_registerEnumConstant (m : Module) (id : QualifiedId) :
    Proceeds (registerEnumConstant m id) := by
  refine proceeds_getTable.bind fun t => .ite ?_ (proceeds_pure _)
  exact (proceeds_checkId ..).bind fun legal =>
    .ite (proceeds_register ..).discard (proceeds_pure _)

theorem proceeds_addLiteral (literal : Literal) : Proceeds (addLiteral literal) :=
  proceeds_modifyTable fun _ => .of_eq rfl rfl rfl

theorem proceeds_registerElement (m : Module) (element : EnumElement) :
    Proceeds (registerElement m element) := by
  refine proceeds_tick.bind fun _ => ?_
  cases element with
  | constant id => exact proceeds_registerEnumConstant m id
  | literal literal => exact proceeds_addLiteral literal
  | range low high => exact (proceeds_addLiteral _).bind fun _ => proceeds_addLiteral _

theorem proceeds_setCanonical (symbol : SymbolId) (form : CanonicalForm) :
    Proceeds (tryModifyTable (·.setCanonical symbol form)) :=
  proceeds_tryModifyTable fun _ _ => Table.onward_setCanonical

theorem proceeds_writeConveniences (conveniences : List (Convenience × SymbolId)) :
    Proceeds (writeConveniences conveniences) :=
  proceeds_getTable.bind fun _ => proceeds_forM fun _ _ => proceeds_setCanonical ..

theorem proceeds_registerDeclarations (m : Module) : Proceeds (registerDeclarations m) := by
  have hrest : ∀ conveniences types params, Proceeds (do
      (Node.module m).enumElements.forM (registerElement m)
      writeConveniences conveniences
      return ({ types, params } : Declarations)) := fun conveniences types params =>
    (proceeds_forM fun _ _ => proceeds_registerElement m _).bind fun _ =>
      (proceeds_writeConveniences conveniences).bind fun _ => proceeds_pure _
  refine (proceeds_registerConveniences m).bind fun conveniences => ?_
  refine (proceeds_filterMapM _ (proceeds_registerType m)).bind fun types => ?_
  refine (proceeds_forM fun _ _ => proceeds_registerConstant m _).bind fun _ => ?_
  dsimp only
  refine .ite ?_ ?_
  · exact (proceeds_filterMapM _ (proceeds_registerParam m)).bind (hrest _ _)
  · exact (proceeds_pure _).bind (hrest _ _)

/-! ## Resolving declarations and writing their forms -/

theorem proceeds_scopeOf (m : Module) (owner : Name) : Proceeds (scopeOf m owner) :=
  proceeds_get.bind fun _ => proceeds_pure _

theorem proceeds_resolveType (m : Module) (decl : Declaration) : Proceeds (resolveType m decl) := by
  refine proceeds_tick.bind fun _ => (proceeds_scopeOf ..).bind fun scope => ?_
  refine (proceeds_modifyTable fun t => t.onward_reportAll _).bind fun _ => ?_
  dsimp only
  refine .ite (Proceeds.bind ?_ fun _ => proceeds_pure _) (proceeds_pure _)
  exact proceeds_modifyTable fun t => t.onward_markFamilyFailed _

theorem proceeds_resolveParam (m : Module) (param : Parameter) :
    Proceeds (resolveParam m param) := by
  refine (proceeds_scopeOf ..).bind fun scope => ?_
  refine (proceeds_modifyTable fun t => t.onward_reportAll _).bind fun _ => ?_
  refine .ite (proceeds_pure _) (Proceeds.bind ?_ fun _ => proceeds_pure _)
  exact proceeds_modifyTable fun t => t.onward_updateSymbol _ _

theorem proceeds_spreadFailuresOnce (types : List ResolvedType) :
    Proceeds (spreadFailuresOnce types) := by
  refine (proceeds_filterM _ fun d => ?_).bind fun failing => ?_
  · exact proceeds_tick.bind fun _ => proceeds_getTable.bind fun _ => proceeds_pure _
  refine Proceeds.bind ?_ fun _ => proceeds_pure _
  exact proceeds_modifyTable (Table.onward_foldl _ fun t d => t.onward_markFamilyFailed d.symbol)

theorem proceeds_spreadFailures (types : List ResolvedType) (rounds : Nat) :
    Proceeds (spreadFailures types rounds) := by
  induction rounds with
  | zero => exact proceeds_pure _
  | succ rounds ih =>
      exact (proceeds_spreadFailuresOnce types).bind fun changed => .ite ih (proceeds_pure _)

theorem proceeds_spreadToParam (p : ResolvedParam) : Proceeds (spreadToParam p) := by
  refine proceeds_getTable.bind fun t => ?_
  split
  · refine .ite (Proceeds.bind ?_ fun _ => proceeds_pure _) (proceeds_pure _)
    exact proceeds_modifyTable fun t => t.onward_updateSymbol _ _
  · exact proceeds_pure _

theorem proceeds_writeTypeForm (unions : UnionMembers) (d : ResolvedType) :
    Proceeds (writeTypeForm unions d) := by
  refine proceeds_tick.bind fun _ => proceeds_getTable.bind fun t => ?_
  exact .ite (proceeds_tryModifyTable fun _ _ => Table.onward_writeForm) (proceeds_pure _)

theorem proceeds_writeParamForm (unions : UnionMembers) (p : ResolvedParam) :
    Proceeds (writeParamForm unions p) := by
  unfold writeParamForm
  split
  · exact proceeds_getTable.bind fun t => proceeds_setCanonical ..
  · exact proceeds_pure _

theorem proceeds_writeForms (types : List ResolvedType) (params : List ResolvedParam) :
    Proceeds (writeForms types params) := by
  refine (proceeds_spreadFailures ..).bind fun _ => ?_
  refine (proceeds_mapM _ proceeds_spreadToParam).bind fun params => ?_
  refine proceeds_getTable.bind fun t => ?_
  refine (proceeds_forM fun _ _ => proceeds_writeTypeForm ..).bind fun _ => ?_
  refine (proceeds_forM fun _ _ => proceeds_writeParamForm ..).bind fun _ => ?_
  exact proceeds_tryModifyTable fun t t' h =>
    Table.onward_foldlM (fun _ _ _ => Table.onward_setCanonical) h

theorem proceeds_declare (m : Module) : Proceeds (declare m) := by
  refine (proceeds_registerDeclarations m).bind fun declarations => ?_
  refine (proceeds_mapM _ (proceeds_resolveType m)).bind fun types => ?_
  refine (proceeds_mapM _ (proceeds_resolveParam m)).bind fun params => ?_
  refine (proceeds_writeForms types params).bind fun _ => ?_
  exact proceeds_modify fun d => .of_table (d.table.onward_reportAll _)

/-! ## The passes after the declarations -/

theorem proceeds_ticks (n : Nat) : Proceeds (ticks n) := by
  induction n with
  | zero => exact proceeds_pure _
  | succ n ih => exact proceeds_tick.bind fun _ => ih

theorem proceeds_checkProductivity : Proceeds checkProductivity := by
  rw [checkProductivity_eq]
  refine proceeds_getTable.bind fun t => ?_
  refine (proceeds_ticks _).bind fun _ => Proceeds.bind ?_ fun _ => proceeds_pure _
  exact proceeds_modify fun d => .of_table (d.table.onward_reportAll _)

theorem proceeds_sizeComponent (g : DepGraph SizeNode) (sizes : Sizes) (component : List Nat) :
    Proceeds (sizeComponent g sizes component) := by
  refine proceeds_tick.bind fun _ => proceeds_getNames.bind fun names => ?_
  refine proceeds_getTable.bind fun t => ?_
  have hrest : ∀ sizes, Proceeds (do
      (Table.componentSorts g component).forM fun sort =>
        tryModifyTable (·.finishSort names sizes sort)
      return sizes) := fun sizes =>
    (proceeds_forM fun _ _ => proceeds_tryModifyTable fun _ _ => Table.onward_finishSort).bind
      fun _ => proceeds_pure _
  dsimp only
  refine .ite (Proceeds.bind ?_ fun _ => hrest _) (hrest _)
  exact proceeds_modifyTable fun t => t.onward_reportAll _

theorem proceeds_sizeData (productive : List SymbolId) : Proceeds (sizeData productive) :=
  proceeds_getTable.bind fun _ => (proceeds_foldlM _ (proceeds_sizeComponent _) _).discard

theorem proceeds_checkContract (m : Module) (contract : ContractDecl) :
    Proceeds (checkContract m contract) := by
  refine proceeds_tick.bind fun _ => proceeds_modify fun d => .of_table ?_
  exact (d.table.onward_reportAll _).trans (.of_eq rfl rfl rfl)

/-- Every pass over a module goes onward. -/
theorem proceeds_checkPasses (library : Library) (m : Module) :
    Proceeds (checkPasses library m) := by
  refine (proceeds_forM fun _ _ => proceeds_importReference library m _).bind fun _ => ?_
  refine (proceeds_declare m).bind fun _ => ?_
  refine proceeds_checkProductivity.bind fun productive => ?_
  refine (proceeds_sizeData productive).bind fun _ => ?_
  exact proceeds_forM fun _ _ => proceeds_checkContract m _

end Draft

/-! ## What is handed out -/

namespace Table

variable {names : Interner} {id : TableId} {module : Name} {kind : ModuleKind} {file : Name}

theorem onward_foldl_addBuiltin (l : List (String × Nat × SymbolKind)) (names : Interner)
    (t : Table) : t.Onward (l.foldl addBuiltin (names, t)).2 := by
  induction l generalizing names t with
  | nil => exact .refl t
  | cons builtin rest ih => exact (onward_registerIfFree ..).trans (ih _ _)

theorem judged_create : (create names id module kind file).2.Judged :=
  (onward_foldl_addBuiltin builtins names _).judged rfl

theorem id_create : (create names id module kind file).2.id = id :=
  (onward_foldl_addBuiltin builtins names _).id_eq

end Table

variable {names names' : Interner} {id : TableId} {library : Library} {config : CheckConfig}
  {m : Module} {out : CheckOutput}

/-- The draft that a check starts from. -/
def Draft.initial (names : Interner) (id : TableId) (config : CheckConfig)
    (m : Module) : Draft where
  names := (Table.create names id m.name m.kind m.file).1
  table := (Table.create names id m.name m.kind m.file).2
  clock := { batch := config.batch, cancelledBy := config.cancelledBy }

/-- A table is handed out as it is, with its validity decided if it was open. -/
theorem Table.output_eq (t : Table) (errorLimit : Nat) (cancelled : Bool) :
    t.output errorLimit cancelled =
      .ok ⟨{ t with
        validity := if t.validity.isPending then .decided (!cancelled) else t.validity },
        t.diagnostics errorLimit, cancelled⟩ := by
  obtain ⟨_, _, _, _, _, _, validity, _, _, _, _⟩ := t
  cases validity <;> cases cancelled <;> rfl

/-- What a check hands out depends on how its passes end. -/
theorem checkModule_eq : checkModule names id library config m =
    match Draft.checkPasses library m (Draft.initial names id config m) with
    | .ok _ d => (d.names, d.table.output config.errorLimit false)
    | .error .cancelled d => (d.names, d.table.output config.errorLimit true)
    | .error (.fault fault) d => (d.names, .error fault) := rfl

/-- However a check ends, it leaves the names of its last draft. -/
theorem checkModule_names : (checkModule names id library config m).1 =
    (Draft.after (Draft.checkPasses library m) (Draft.initial names id config m)).names := by
  rw [checkModule_eq, Draft.after]
  split <;> simp_all

/-- A valid table comes from a run that ended well and left no errors. -/
theorem checkModule_valid (h : checkModule names id library config m = (names', .ok out))
    (hvalid : out.table.isValid = true) :
    ∃ d, Draft.checkPasses library m (Draft.initial names id config m) = .ok () d ∧
      d.names = names' ∧ d.table.hasErrors = false ∧
      out.table = { d.table with validity := .decided true } := by
  have hjudged : (Draft.initial names id config m).table.Judged := Table.judged_create
  rw [checkModule_eq] at h
  have hproceeds := Draft.proceeds_checkPasses library m
  split at h
  · next d hrun =>
      rw [Table.output_eq] at h
      cases h
      have hd := (hproceeds.ok hrun).table.judged hjudged
      refine ⟨d, hrun, rfl, ?_⟩
      rw [Table.Judged] at hd
      cases herrors : d.table.hasErrors with
      | true => simp [Table.isValid, hd, herrors, Decision.isPending] at hvalid
      | false => simp [hd, herrors, Decision.isPending]
  · next d hrun =>
      rw [Table.output_eq] at h
      cases h
      have hd := (hproceeds.error hrun).table.judged hjudged
      rw [Table.Judged] at hd
      cases herrors : d.table.hasErrors <;>
        simp [Table.isValid, hd, herrors, Decision.isPending] at hvalid
  · cases congrArg Prod.snd h

end ManySorted
