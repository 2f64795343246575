import ManySorted.Proofs.Draft.Notes

/-!
# Rules before sizing

Rules are added by two passes only: sizing adds those of a declaration once its sort has a size, and
contracts add their own.  Importing, declaring and the search for productive data leave the rules as
they are, so a module that is about to be sized has none (`Draft.rules_of_declared`); rules of a
module that is imported stay there.
-/

namespace ManySorted

namespace Draft

/-! ## Declaring -/

theorem preserves_register (home : NamespaceId) (name : Name) (arity : Nat) (location : Location)
    (kind : SymbolKind) : Preserves Notes.rules (register home name arity location kind) := by
  refine .modifyGet fun d => ?_
  split
  · next h => exact Table.stable_notes.register h
  · rfl

theorem preserves_registerBody (decl : TypeDecl) (location : Location) :
    Preserves Notes.rules (registerBody decl location) := by
  have hdata : ∀ shape labels any, Preserves Notes.rules (registerData .root decl.name
      decl.body.fields.length location shape labels any) := by
    intro shape labels any
    refine .modifyGet fun d => ?_
    split
    · next h => exact Table.stable_notes.registerData h
    · rfl
  unfold registerBody
  simp only
  split
  · exact preserves_register ..
  · exact hdata ..
  · exact hdata ..

theorem preserves_checkId (location : Location) (name : Name) (usage : String) :
    Preserves Notes.rules (checkId location name usage) := by
  refine Preserves.getNames.bind fun names => ?_
  split
  · exact .pure _
  · exact (Preserves.report ..).bind fun _ => .pure _

theorem preserves_registerNamed (location : Location) (name : Name) (usage : String)
    {registration : DraftM (Except SymbolId SymbolId)} (h : Preserves Notes.rules registration) :
    Preserves Notes.rules (registerNamed location name usage registration) := by
  refine (preserves_checkId ..).bind fun legal => .ite (h.bind fun result => ?_) (.pure _)
  split
  · exact .pure _
  · exact (Preserves.modify fun _ => by rfl).bind fun _ => .pure _

theorem preserves_registerConveniences (m : Module) :
    Preserves Notes.rules (registerConveniences m) := by
  refine .filterMapM _ fun convenience => Preserves.bind (.modifyGet fun _ => rfl) fun name => ?_
  refine (preserves_register ..).bind fun result => ?_
  split <;> exact .pure _

theorem preserves_registerParam (m : Module) (param : Param) :
    Preserves Notes.rules (registerParam m param) := by
  cases param with
  | model => exact .pure _
  | value name type span =>
      exact (preserves_registerNamed _ _ _ (preserves_register ..)).bind fun _ => .pure _

theorem preserves_registerElement (m : Module) (element : EnumElement) :
    Preserves Notes.rules (registerElement m element) := by
  have hliteral : ∀ literal, Preserves Notes.rules (addLiteral literal) := fun _ =>
    ⟨fun hrun => by cases hrun; rfl⟩
  refine Preserves.tick.bind fun _ => ?_
  cases element with
  | constant id =>
      refine Preserves.getTable.bind fun t => .ite ?_ (.pure _)
      exact (preserves_checkId ..).bind fun legal =>
        .ite (preserves_register ..).discard (.pure _)
  | literal literal => exact hliteral _
  | range low high => exact (hliteral _).bind fun _ => hliteral _

theorem preserves_setCanonical (x : SymbolId) (form : CanonicalForm) :
    Preserves Notes.rules (tryModifyTable (·.setCanonical x form)) :=
  .tryModifyTable fun _ _ => Table.stable_notes.setCanonical

theorem preserves_registerDeclarations (m : Module) :
    Preserves Notes.rules (registerDeclarations m) := by
  have hrest : ∀ conveniences types params, Preserves Notes.rules (do
      (Node.module m).enumElements.forM (registerElement m)
      writeConveniences conveniences
      return ({ types, params } : Declarations)) := fun conveniences types params =>
    (Preserves.forM _ fun _ => preserves_registerElement m _).bind fun _ =>
      Preserves.bind (Preserves.getTable.bind fun _ => .forM _ fun _ =>
        preserves_setCanonical ..) fun _ => .pure _
  refine (preserves_registerConveniences m).bind fun conveniences => ?_
  refine (Preserves.filterMapM _ fun decl => Preserves.tick.bind fun _ =>
    (preserves_registerNamed _ _ _ (preserves_registerBody ..)).bind fun _ => .pure _).bind
      fun types => ?_
  refine (Preserves.forM _ fun constant => Preserves.tick.bind fun _ =>
    (preserves_registerNamed _ _ _ (preserves_register ..)).discard).bind fun _ => ?_
  dsimp only
  refine .ite ?_ ?_
  · exact (Preserves.filterMapM _ (preserves_registerParam m)).bind (hrest _ _)
  · exact (Preserves.pure _).bind (hrest _ _)

theorem preserves_resolveType (m : Module) (decl : Declaration) :
    Preserves Notes.rules (resolveType m decl) := by
  refine Preserves.tick.bind fun _ => Preserves.bind (Preserves.get.bind fun _ => .pure _)
    fun scope => (Preserves.modifyTable fun t => t.notes_reportAll _).bind fun _ => ?_
  dsimp only
  exact .ite ((Preserves.modifyTable fun t => t.notes_markFamilyFailed _).bind fun _ => .pure _)
    (.pure _)

theorem preserves_resolveParam (m : Module) (param : Parameter) :
    Preserves Notes.rules (resolveParam m param) := by
  refine Preserves.bind (Preserves.get.bind fun _ => .pure _) fun scope =>
    (Preserves.modifyTable fun t => t.notes_reportAll _).bind fun _ => ?_
  exact .ite (.pure _) ((Preserves.modifyTable fun _ => by rfl).bind fun _ => .pure _)

theorem preserves_spreadFailures (types : List ResolvedType) (rounds : Nat) :
    Preserves Notes.rules (spreadFailures types rounds) := by
  have honce : Preserves Notes.rules (spreadFailuresOnce types) := by
    refine (Preserves.filterM _ fun d => ?_).bind fun failing => ?_
    · exact Preserves.tick.bind fun _ => Preserves.getTable.bind fun _ => .pure _
    · refine Preserves.bind (.modifyTable fun t => ?_) fun _ => .pure _
      exact Table.notes_foldl _ (fun t _ => t.notes_markFamilyFailed _) t
  induction rounds with
  | zero => exact .pure _
  | succ rounds ih => exact honce.bind fun changed => .ite ih (.pure _)

theorem preserves_spreadToParam (p : ResolvedParam) : Preserves Notes.rules (spreadToParam p) := by
  refine Preserves.getTable.bind fun t => ?_
  split
  · exact .ite ((Preserves.modifyTable fun _ => by rfl).bind fun _ => .pure _) (.pure _)
  · exact .pure _

theorem preserves_writeForms (types : List ResolvedType) (params : List ResolvedParam) :
    Preserves Notes.rules (writeForms types params) := by
  refine (preserves_spreadFailures ..).bind fun _ =>
    (Preserves.mapM _ preserves_spreadToParam).bind fun params =>
      Preserves.getTable.bind fun t => ?_
  refine (Preserves.forM _ fun d => ?_).bind fun _ =>
    (Preserves.forM _ fun p => ?_).bind fun _ => ?_
  · refine Preserves.tick.bind fun _ => Preserves.getTable.bind fun t => ?_
    exact .ite (.tryModifyTable fun _ _ => Table.notes_writeForm) (.pure _)
  · unfold writeParamForm
    split
    · exact Preserves.getTable.bind fun t => preserves_setCanonical ..
    · exact .pure _
  · exact .tryModifyTable fun t t' h =>
      Table.notes_foldlM (fun _ _ _ => Table.stable_notes.setCanonical) h

theorem preserves_declare (m : Module) : Preserves Notes.rules (declare m) := by
  refine (preserves_registerDeclarations m).bind fun declarations => ?_
  refine (Preserves.mapM _ (preserves_resolveType m)).bind fun types => ?_
  refine (Preserves.mapM _ (preserves_resolveParam m)).bind fun params => ?_
  refine (preserves_writeForms types params).bind fun _ => ?_
  exact .modify fun d => d.table.notes_reportAll _

/-! ## Before sizing -/

/-- A module that is imported and declared has no rules yet. -/
theorem rules_of_declared {names : Interner} {id : TableId} {library : Library}
    {config : CheckConfig} {m : Module} {imported base : Draft}
    (himports : m.references.forM (importReference library m) (initial names id config m) =
      .ok () imported)
    (hdeclare : declare m imported = .ok () base) : base.table.rules = [] :=
  calc base.table.rules
    _ = imported.table.rules := (preserves_declare m).ok hdeclare
    _ = (initial names id config m).table.rules :=
        (Preserves.forM _ (preserves_importReference library m)).ok himports
    _ = [] := congrArg Notes.rules (Table.notes_create names id m.name m.kind m.file)

end Draft

end ManySorted
