import ManySorted.Proofs.Draft.Pacing
import ManySorted.Proofs.Import.Refusal
import ManySorted.Proofs.Productivity.Worklist

/-!
# Every pass keeps pace

The passes of a check, one after the other: what each does to the table are moves, and time enters
only through cancellation (`Draft.paced_checkPasses`).  The tables that a module imports are valid,
and they are those of its references (`Library.Supplies`).

## Strategy

* **Importing.**  Clones are placed and filled without a look at the clock
  (`Importing.timeless_place`), so an import keeps pace (`Draft.paced_importModule`).
* **Declaring.**  Registering goes declaration by declaration, and a name that is registered has
  passed the check of names (`Draft.segment_of_checkId`).  Resolving and writing touch the symbols
  only.
* **The passes after that.**  Productivity, sizes and contracts each take their steps on the clock
  between moves of the table (`Draft.paced_checkProductivity`, `Draft.paced_sizeData`,
  `Draft.paced_checkContract`).
* **The whole check.**  The passes are bound one to the other (`Draft.paced_checkPasses`), so the
  table that is handed out comes from a new one by moves (`checkModule_moves`).
-/

namespace ManySorted

open Relation (ReflTransGen)

variable {sources : Table → Prop}

namespace Table

variable {t t' : Table} {names : Interner}

theorem mem_namespaces_toList {node : Namespace} (h : node ∈ t.namespaces.toList) :
    ∃ ns, t.namespaceAt ns = node := by
  obtain ⟨i, hi, rfl⟩ := List.mem_iff_getElem.1 h
  have hlt : i < t.namespaces.size := by simpa using hi
  exact ⟨⟨i⟩, by simp [namespaceAt, hlt]⟩

theorem moves_recreateNamespaces (t : Table) (destination : NamespaceId) {foreign : Table}
    (hforeign : sources foreign) :
    Moves sources names t (t.recreateNamespaces destination foreign).2 := by
  have hmem : ∀ node ∈ foreign.namespaces.toList.drop 1, node ∈ foreign.namespaces.toList :=
    fun _ => List.mem_of_mem_drop
  unfold recreateNamespaces
  generalize [destination] = homes
  generalize foreign.namespaces.toList.drop 1 = nodes at hmem ⊢
  induction nodes generalizing homes t with
  | nil => exact ReflTransGen.refl
  | cons node rest ih =>
      rw [List.foldl_cons]
      obtain ⟨ns, rfl⟩ := mem_namespaces_toList (hmem node List.mem_cons_self)
      exact (moves_childNamespace t _ (.imported hforeign ns)).trans
        (ih _ _ fun node hnode => hmem node (List.mem_cons_of_mem _ hnode))

theorem moves_markFamilyFailed (t : Table) (symbol : SymbolId) :
    Moves sources names t (t.markFamilyFailed symbol) := by
  unfold markFamilyFailed
  simp only
  split
  · exact (moves_markFailed ..).trans (moves_markFailed ..)
  · exact moves_markFailed ..

theorem moves_foldlM {α : Type} {f : Table → α → Except Fault Table} {l : List α}
    (hf : ∀ (t t' : Table) a, f t a = .ok t' → Moves sources names t t')
      (h : l.foldlM f t = .ok t') :
    Moves sources names t t' :=
  foldlM_ok_induct h (motive := Moves sources names t) ReflTransGen.refl
    fun a _ c c' hc hstep => hc.trans (hf c c' a hstep)

theorem moves_writeForm {symbol : SymbolId} {form : CanonicalForm}
    (h : t.writeForm symbol form = .ok t') : Moves sources names t t' := by
  unfold writeForm at h
  split at h
  · next info _ =>
      obtain ⟨t₁, hsort, h⟩ := except_bind_eq_ok.1 h
      exact (moves_setCanonical hsort).trans (moves_setCanonical h)
  · exact moves_setCanonical h

theorem moves_finishSort {reader : Interner} {sizes : Sizes} {sort : SymbolId}
    (h : t.finishSort reader sizes sort = .ok t') : Moves sources names t t' := by
  unfold finishSort at h
  obtain ⟨t₁, hsize, h⟩ := except_bind_eq_ok.1 h
  dsimp only at h
  split at h
  · cases h
    exact moves_setSize hsize
  · cases h
    exact ((moves_setSize hsize).trans (moves_reportAll ..)).trans
      (ReflTransGen.single (.addRules _ _))

end Table

namespace Importing

variable {imp : Importing} {s : Symbol} {home : NamespaceId} {links : Links} {d d' : Draft}

theorem moved_registerClone (hname : Table.NamesSymbol sources d.names s.name) {id : SymbolId}
    (h : registerClone d s home = some (id, d')) : Draft.Moved sources d d' := by
  unfold registerClone at h
  split at h
  · split at h
    · next hregister =>
        cases h
        obtain ⟨hgrown, hmoves⟩ := Table.moves_registerData hname hregister
        exact ⟨hgrown, hmoves⟩
    · cases h
  · split at h
    · next hregister =>
        cases h
        exact ⟨.refl _, Table.moves_register hname hregister⟩
    · cases h

/-- Clones are marked with the origins of symbols of the foreign table. -/
theorem moves_foldl_adopt {names : Interner} (hforeign : sources imp.foreign)
    (news : List (SymbolId × SymbolId)) (links : Links) (t : Table) :
    Table.Moves sources names t (news.foldl imp.adopt (links, t)).2 := by
  induction news generalizing links t with
  | nil => exact ReflTransGen.refl
  | cons p rest ih => exact ReflTransGen.head (.adopt t p.2 hforeign p.1) (ih _ _)

theorem moved_cloneInto (hforeign : sources imp.foreign) (s : Symbol)
    (hname : Table.NamesSymbol sources d.names s.name) (home : NamespaceId) (links : Links) :
    Draft.Moved sources d (imp.cloneInto s home links d).2 := by
  unfold cloneInto
  split
  · split
    · exact .refl d
    · exact ⟨.refl _, ReflTransGen.single (.report _ _)⟩
  · split
    · exact .refl d
    · next hregister =>
        exact (moved_registerClone hname hregister).trans
          ⟨.refl _, moves_foldl_adopt hforeign ..⟩

/-- Clones are called what their foreign symbols are called. -/
theorem moved_place (hforeign : sources imp.foreign) (x : SymbolId) (links : Links) (d : Draft) :
    Draft.Moved sources d (imp.place (imp.foreign.symbolAt x) links d).2 := by
  have hclone : ∀ home, Draft.Moved sources d
      (imp.cloneInto (imp.foreign.symbolAt x) home links d).2 := fun home =>
    moved_cloneInto hforeign _ (.imported hforeign x) home links
  unfold place
  split
  · exact .refl d
  · dsimp only
    split <;> first
      | exact .refl d
      | exact hclone _
      | (split <;> first | exact .refl d | exact hclone _)

theorem timeless_registerClone (d : Draft) (clock : Clock) (s : Symbol) (home : NamespaceId) :
    registerClone { d with clock } s home =
      (registerClone d s home).map fun p => (p.1, { p.2 with clock }) := by
  unfold registerClone
  dsimp only
  split <;> split <;> rfl

theorem timeless_cloneInto (imp : Importing) (s : Symbol) (home : NamespaceId) (links : Links) :
    Draft.Timeless (imp.cloneInto s home links) := by
  intro d clock
  unfold cloneInto
  dsimp only
  split
  · split <;> rfl
  · rw [timeless_registerClone]
    cases registerClone d s home with
    | none => rfl
    | some p => rfl

/-- Placing a symbol neither reads the clock nor changes it. -/
theorem timeless_place (imp : Importing) (s : Symbol) (links : Links) :
    Draft.Timeless (imp.place s links) := by
  intro d clock
  unfold place
  split
  · rfl
  · dsimp only
    split <;> first
      | rfl
      | exact timeless_cloneInto imp s _ links d clock
      | (split <;> first | rfl | exact timeless_cloneInto imp s _ links d clock)

theorem moves_fillClone {foreign t t' : Table} {pair : SymbolId × SymbolId}
    (h : fillClone foreign links t pair = .ok t') : Table.Moves sources names t t' := by
  obtain ⟨t₁, hform, hsize⟩ := fillClone_cases h
  have hfirst : Table.Moves sources names t t₁ := by
    rcases hform with ⟨_, rfl⟩ | ⟨form, _, hset⟩
    · exact ReflTransGen.refl
    · exact Table.moves_setCanonical hset
  rcases hsize with ⟨_, rfl⟩ | ⟨size, _, hset⟩
  · exact hfirst
  · exact hfirst.trans (Table.moves_setSize hset)

end Importing

/-- The valid tables that a library has for these references. -/
def Library.Supplies (library : Library) (references : List ModuleRef) (t : Table) : Prop :=
  t.isValid = true ∧ ∃ reference ∈ references, library.find? reference.module = some t

namespace Draft

/-! ## Importing -/

theorem paced_placeStep {imp : Importing} (hforeign : sources imp.foreign) (links : Links)
    {s : Symbol} (hs : s ∈ imp.foreign.symbols.toList) : Paced sources (imp.placeStep links s) := by
  obtain ⟨x, -, rfl⟩ := Table.mem_symbols_toList.1 hs
  exact paced_tick.bind fun _ => paced_modifyGet (Importing.timeless_place imp _ links)
    (Importing.moved_place hforeign x links)

/-- After the dependencies are noted, the rest of an import keeps pace. -/
theorem exists_embed_eq {foreign : Table} (hforeign : sources foreign) (rename : Option Name)
    (span : Span) : ∃ rest : Unit → DraftM Unit,
      embed foreign rename span = modifyTable (·.absorb foreign) >>= rest ∧
        ∀ a (d : Draft), (∀ name, rename = some name → d.names.Segment name) →
          Paces sources (rest a) d := by
  refine ⟨_, rfl, fun _ d hrename => ?_⟩
  refine Paces.bind (paces_modifyGet (fun d clock => ?_) ⟨?_, ?_⟩) fun homes => ?_
  · cases rename <;> rfl
  · cases rename <;> exact .refl _
  · cases rename with
    | none => exact Table.moves_recreateNamespaces _ _ hforeign
    | some name =>
        exact (Table.moves_childNamespace d.table .root (.segment (hrename name rfl))).trans
          (Table.moves_recreateNamespaces _ _ hforeign)
  refine paced_getTable.bind fun t => ?_
  refine (paced_foldlM _ (fun links s hs => paced_placeStep hforeign links hs) _).bind
    fun links => ?_
  refine (paced_tryModifyTable fun _ _ h =>
    Table.moves_foldlM (fun _ _ _ => Importing.moves_fillClone) h).bind fun _ => ?_
  refine paced_getNames.bind fun names => paced_tryModifyTable fun t t' h => ?_
  obtain ⟨_, _, hreturn⟩ := except_bind_eq_ok.1 h
  cases hreturn
  exact ReflTransGen.refl

theorem paces_embed {foreign : Table} (hforeign : sources foreign) (rename : Option Name)
    (span : Span) {d : Draft} (hrename : ∀ name, rename = some name → d.names.Segment name)
    (hagree : d.table.moduleClash? foreign = none) :
    Paces sources (embed foreign rename span) d := by
  obtain ⟨rest, hembed, hrest⟩ := exists_embed_eq hforeign rename span
  have habsorb : Paces sources (modifyTable (·.absorb foreign)) d :=
    ⟨⟨.refl _, ReflTransGen.single (.absorb _ hforeign hagree)⟩, .refl _,
      fun _ => .ok rfl rfl (.of_ticks_eq (.refl _) rfl)⟩
  rw [hembed]
  refine habsorb.bind_of fun c _ d' hrun => hrest _ d' ?_
  cases hrun
  exact hrename

theorem paced_importModule (reference : ModuleRef) {foreign : Table}
    (hforeign : foreign.isValid = true → sources foreign) :
    Paced sources (importModule reference foreign) := by
  refine paced_get_bind (fun _ _ => rfl) fun d => ?_
  split
  · exact (paced_report ..).paces d
  · next hnone =>
      refine paces_embed (hforeign (Table.isValid_of_importRefusal? hnone)) _ _
        (fun name hname => ?_) (Table.moduleClash?_of_importRefusal? hnone)
      exact Interner.segment_of_isLegalId (Table.isLegalId_of_importRefusal? hnone hname)

theorem paced_importReference (library : Library) (m : Module) (reference : ModuleRef) :
    Paced (library.Supplies [reference]) (importReference library m reference) := by
  refine paced_tick.bind fun _ => paced_request.bind fun _ => ?_
  split
  · next foreign hfound =>
      exact paced_importModule _ fun hvalid => ⟨hvalid, _, List.mem_singleton_self _, hfound⟩
  · exact paced_getNames.bind fun _ => paced_report ..

/-! ## Registering declarations -/

theorem paces_register {d : Draft} {name : Name} (hname : Table.NamesSymbol sources d.names name)
    (home : NamespaceId) (arity : Nat) (location : Location) (kind : SymbolKind) :
    Paces sources (register home name arity location kind) d := by
  refine paces_modifyGet (fun d clock => ?_) ?_
  · dsimp only
    split <;> rfl
  · split
    · next h => exact ⟨.refl _, Table.moves_register hname h⟩
    · exact .refl d

theorem paces_registerData {d : Draft} {name : Name}
    (hname : Table.NamesSymbol sources d.names name) (home : NamespaceId) (arity : Nat)
    (location : Location) (shape : DataShape) (labels : List (Option Name)) (any : List Bool) :
    Paces sources (registerData home name arity location shape labels any) d := by
  refine paces_modifyGet (fun d clock => ?_) ?_
  · dsimp only
    split <;> rfl
  · split
    · next h =>
        obtain ⟨hgrown, hmoves⟩ := Table.moves_registerData hname h
        exact ⟨hgrown, hmoves⟩
    · exact .refl d

theorem paced_checkId (location : Location) (name : Name) (usage : String) :
    Paced sources (checkId location name usage) := by
  refine paced_getNames.bind fun names => ?_
  split
  · exact paced_pure _
  · exact (paced_report ..).bind fun _ => paced_pure _

/-- Names that pass the check are segments of paths. -/
theorem segment_of_checkId {location : Location} {name : Name} {usage : String} {d d' : Draft}
    (h : checkId location name usage d = .ok true d') : d'.names.Segment name := by
  rw [checkId, getNames_bind] at h
  cases hlegal : illegalId? d.names name usage with
  | none =>
      rw [hlegal] at h
      cases h
      exact Interner.segment_of_isLegalId (Table.illegalId?_eq_none_iff.1 hlegal)
  | some problem =>
      rw [hlegal] at h
      cases h

/-- What follows a check of a name can rely on it. -/
theorem paced_checkId_bind {location : Location} {name : Name} {usage : String} {α : Type}
    {f : Bool → DraftM α}
    (hlegal : ∀ d : Draft, d.names.Segment name → Paces sources (f true) d)
    (hillegal : Paced sources (f false)) : Paced sources (checkId location name usage >>= f) :=
  (paced_checkId ..).bind_of fun legal d d' hrun => by
    cases legal with
    | true => exact hlegal d' (segment_of_checkId hrun)
    | false => exact hillegal.paces d'

theorem dotless_convenience (convenience : Convenience) : '.' ∉ convenience.name.toList := by
  cases convenience <;> decide

theorem paced_registerConveniences (m : Module) : Paced sources (registerConveniences m) := by
  refine paced_filterMapM _ fun convenience => (paced_intern _).bind_of fun name d d' hrun => ?_
  cases hrun
  have hname := d.names.segment_intern (dotless_convenience convenience)
  refine Paces.bind (paces_register (.segment hname) ..) fun result => ?_
  cases result <;> exact paced_pure _

theorem paces_registerBody (decl : TypeDecl) (location : Location) {d : Draft}
    (hname : d.names.Segment decl.name) : Paces sources (registerBody decl location) d := by
  unfold registerBody
  dsimp only
  split
  · exact paces_register (.segment hname) ..
  · exact paces_registerData (.segment hname) ..
  · exact paces_registerData (.segment hname) ..

theorem paced_registerNamed (location : Location) (name : Name) (usage : String)
    {registration : DraftM (Except SymbolId SymbolId)}
    (h : ∀ d : Draft, d.names.Segment name → Paces sources registration d) :
    Paced sources (registerNamed location name usage registration) := by
  refine paced_checkId_bind (fun d hname => Paces.bind (h d hname) fun result => ?_) (paced_pure _)
  cases result with
  | ok id => exact paced_pure _
  | error previous =>
      refine Paced.bind (paced_modify (fun _ _ => rfl) (fun _ => rfl) fun d => ?_) fun _ =>
        paced_pure _
      exact ReflTransGen.single (.report _ _)

theorem paced_registerType (m : Module) (decl : TypeDecl) : Paced sources (registerType m decl) :=
  paced_tick.bind fun _ =>
    (paced_registerNamed _ _ _ fun _ => paces_registerBody decl _).bind fun _ => paced_pure _

theorem paced_registerConstant (m : Module) (constant : ConstantDecl) :
    Paced sources (registerConstant m constant) :=
  paced_tick.bind fun _ =>
    (paced_registerNamed _ _ _ fun _ hname => paces_register (.segment hname) ..).discard

theorem paced_registerParam (m : Module) (param : Param) :
    Paced sources (registerParam m param) := by
  cases param with
  | model => exact paced_pure _
  | value name type span =>
      exact (paced_registerNamed _ _ _ fun _ hname => paces_register (.segment hname) ..).bind
        fun _ => paced_pure _

theorem paced_registerEnumConstant (m : Module) (id : QualifiedId) :
    Paced sources (registerEnumConstant m id) := by
  refine paced_getTable.bind fun t => .ite ?_ (paced_pure _)
  exact paced_checkId_bind (fun d hname => Paces.bind (f := fun _ => pure ())
    (paces_register (.segment hname) ..) fun _ => paced_pure _) (paced_pure _)

theorem paced_addLiteral (literal : Literal) : Paced sources (addLiteral literal) :=
  paced_modifyTable fun _ => ReflTransGen.single
    (.write ⟨rfl, rfl, rfl, rfl, fun _ => rfl, fun _ => rfl, fun hform => hform, fun hsize => hsize,
      rfl, rfl, rfl⟩)

theorem paced_registerElement (m : Module) (element : EnumElement) :
    Paced sources (registerElement m element) := by
  refine paced_tick.bind fun _ => ?_
  cases element with
  | constant id => exact paced_registerEnumConstant m id
  | literal literal => exact paced_addLiteral literal
  | range low high => exact (paced_addLiteral _).bind fun _ => paced_addLiteral _

theorem paced_setCanonical (symbol : SymbolId) (form : CanonicalForm) :
    Paced sources (tryModifyTable (·.setCanonical symbol form)) :=
  paced_tryModifyTable fun _ _ => Table.moves_setCanonical

theorem paced_writeConveniences (conveniences : List (Convenience × SymbolId)) :
    Paced sources (writeConveniences conveniences) :=
  paced_getTable.bind fun _ => paced_forM fun _ _ => paced_setCanonical ..

theorem paced_registerDeclarations (m : Module) : Paced sources (registerDeclarations m) := by
  have hrest : ∀ conveniences types params, Paced sources (do
      (Node.module m).enumElements.forM (registerElement m)
      writeConveniences conveniences
      return ({ types, params } : Declarations)) := fun conveniences types params =>
    (paced_forM fun _ _ => paced_registerElement m _).bind fun _ =>
      (paced_writeConveniences conveniences).bind fun _ => paced_pure _
  refine (paced_registerConveniences m).bind fun conveniences => ?_
  refine (paced_filterMapM _ (paced_registerType m)).bind fun types => ?_
  refine (paced_forM fun _ _ => paced_registerConstant m _).bind fun _ => ?_
  dsimp only
  refine .ite ?_ ?_
  · exact (paced_filterMapM _ (paced_registerParam m)).bind (hrest _ _)
  · exact (paced_pure _).bind (hrest _ _)

/-! ## Resolving declarations and writing their forms -/

theorem paced_scopeOf (m : Module) (owner : Name) : Paced sources (scopeOf m owner) :=
  paced_get_bind (fun _ _ => rfl) fun d => (paced_pure _).paces d

theorem paced_resolveType (m : Module) (decl : Declaration) :
    Paced sources (resolveType m decl) := by
  refine paced_tick.bind fun _ => (paced_scopeOf ..).bind fun scope => ?_
  refine (paced_modifyTable fun t => Table.moves_reportAll t _).bind fun _ => ?_
  dsimp only
  refine .ite (Paced.bind ?_ fun _ => paced_pure _) (paced_pure _)
  exact paced_modifyTable fun t => Table.moves_markFamilyFailed t _

theorem paced_resolveParam (m : Module) (param : Parameter) :
    Paced sources (resolveParam m param) := by
  refine (paced_scopeOf ..).bind fun scope => ?_
  refine (paced_modifyTable fun t => Table.moves_reportAll t _).bind fun _ => ?_
  refine .ite (paced_pure _) (Paced.bind ?_ fun _ => paced_pure _)
  exact paced_modifyTable fun t => Table.moves_markFailed t _

theorem paced_spreadFailuresOnce (types : List ResolvedType) :
    Paced sources (spreadFailuresOnce types) := by
  refine (paced_filterM _ fun d => ?_).bind fun failing => ?_
  · exact paced_tick.bind fun _ => paced_getTable.bind fun _ => paced_pure _
  refine Paced.bind ?_ fun _ => paced_pure _
  exact paced_modifyTable (Table.moves_foldl _ fun t d => Table.moves_markFamilyFailed t d.symbol)

theorem paced_spreadFailures (types : List ResolvedType) (rounds : Nat) :
    Paced sources (spreadFailures types rounds) := by
  induction rounds with
  | zero => exact paced_pure _
  | succ rounds ih =>
      exact (paced_spreadFailuresOnce types).bind fun changed => .ite ih (paced_pure _)

theorem paced_spreadToParam (p : ResolvedParam) : Paced sources (spreadToParam p) := by
  refine paced_getTable.bind fun t => ?_
  split
  · refine .ite (Paced.bind ?_ fun _ => paced_pure _) (paced_pure _)
    exact paced_modifyTable fun t => Table.moves_markFailed t _
  · exact paced_pure _

theorem paced_writeTypeForm (unions : UnionMembers) (d : ResolvedType) :
    Paced sources (writeTypeForm unions d) := by
  refine paced_tick.bind fun _ => paced_getTable.bind fun t => ?_
  exact .ite (paced_tryModifyTable fun _ _ => Table.moves_writeForm) (paced_pure _)

theorem paced_writeParamForm (unions : UnionMembers) (p : ResolvedParam) :
    Paced sources (writeParamForm unions p) := by
  unfold writeParamForm
  split
  · exact paced_getTable.bind fun t => paced_setCanonical ..
  · exact paced_pure _

theorem paced_writeForms (types : List ResolvedType) (params : List ResolvedParam) :
    Paced sources (writeForms types params) := by
  refine (paced_spreadFailures ..).bind fun _ => ?_
  refine (paced_mapM _ paced_spreadToParam).bind fun params => ?_
  refine paced_getTable.bind fun t => ?_
  refine (paced_forM fun _ _ => paced_writeTypeForm ..).bind fun _ => ?_
  refine (paced_forM fun _ _ => paced_writeParamForm ..).bind fun _ => ?_
  exact paced_tryModifyTable fun t t' h =>
    Table.moves_foldlM (fun _ _ _ => Table.moves_setCanonical) h

theorem paced_declare (m : Module) : Paced sources (declare m) := by
  refine (paced_registerDeclarations m).bind fun declarations => ?_
  refine (paced_mapM _ (paced_resolveType m)).bind fun types => ?_
  refine (paced_mapM _ (paced_resolveParam m)).bind fun params => ?_
  refine (paced_writeForms types params).bind fun _ => ?_
  exact paced_modify (fun _ _ => rfl) (fun _ => rfl) fun d => Table.moves_reportAll d.table _

/-! ## The passes after the declarations -/

theorem paced_ticks (n : Nat) : Paced sources (ticks n) := by
  induction n with
  | zero => exact paced_pure _
  | succ n ih => exact paced_tick.bind fun _ => ih

theorem paced_checkProductivity : Paced sources checkProductivity := by
  rw [checkProductivity_eq]
  refine paced_getTable.bind fun t => ?_
  refine (paced_ticks _).bind fun _ => Paced.bind ?_ fun _ => paced_pure _
  exact paced_modify (fun _ _ => rfl) (fun _ => rfl) fun d => Table.moves_reportAll d.table _

theorem paced_sizeComponent (g : DepGraph SizeNode) (sizes : Sizes) (component : List Nat) :
    Paced sources (sizeComponent g sizes component) := by
  refine paced_tick.bind fun _ => paced_getNames.bind fun names => ?_
  refine paced_getTable.bind fun t => ?_
  have hrest : ∀ sizes, Paced sources (do
      (Table.componentSorts g component).forM fun sort =>
        tryModifyTable (·.finishSort names sizes sort)
      return sizes) := fun sizes =>
    (paced_forM fun _ _ => paced_tryModifyTable fun _ _ => Table.moves_finishSort).bind
      fun _ => paced_pure _
  dsimp only
  refine .ite (Paced.bind ?_ fun _ => hrest _) (hrest _)
  exact paced_modifyTable fun t => Table.moves_reportAll t _

theorem paced_sizeData (productive : List SymbolId) : Paced sources (sizeData productive) :=
  paced_getTable.bind fun _ => (paced_foldlM _ (fun _ _ _ => paced_sizeComponent ..) _).discard

theorem paced_checkContract (m : Module) (contract : ContractDecl) :
    Paced sources (checkContract m contract) := by
  refine paced_tick.bind fun _ => paced_modify (fun _ _ => rfl) (fun _ => rfl) fun d => ?_
  exact (Table.moves_reportAll d.table _).trans (ReflTransGen.single (.addRules _ _))

/-! ## The check as a whole -/

theorem paced_imports (library : Library) (m : Module) (references : List ModuleRef) :
    Paced (library.Supplies references) (references.forM (importReference library m)) := by
  refine paced_forM fun reference hreference => (paced_importReference library m reference).mono ?_
  rintro t ⟨hvalid, r, hr, hfound⟩
  obtain rfl := List.mem_singleton.1 hr
  exact ⟨hvalid, r, hreference, hfound⟩

/-- Once the imports are made, no more is imported. -/
theorem paced_declaring (m : Module) : Paced sources (do
    declare m
    let productive ← checkProductivity
    sizeData productive
    m.contracts.forM (checkContract m)) :=
  (paced_declare m).bind fun _ => paced_checkProductivity.bind fun productive =>
    (paced_sizeData productive).bind fun _ => paced_forM fun _ _ => paced_checkContract m _

/-- A check makes moves with the tables that it imports, and it keeps pace. -/
theorem paced_checkPasses (library : Library) (m : Module) :
    Paced (library.Supplies m.references) (checkPasses library m) :=
  (paced_imports library m m.references).bind fun _ => paced_declaring m

end Draft

/-! ## What is handed out -/

namespace Table

theorem moves_foldl_addBuiltin {l : List (String × Nat × SymbolKind)}
    (hl : ∀ builtin ∈ l, '.' ∉ builtin.1.toList) (names : Interner) (t : Table) :
    names.Grown (l.foldl addBuiltin (names, t)).1 ∧
      Moves NoSources (l.foldl addBuiltin (names, t)).1 t (l.foldl addBuiltin (names, t)).2 := by
  induction l generalizing names t with
  | nil => exact ⟨.refl _, ReflTransGen.refl⟩
  | cons builtin rest ih =>
      have hname := names.segment_intern (hl builtin List.mem_cons_self)
      obtain ⟨hgrown, hmoves⟩ := ih (fun b hb => hl b (List.mem_cons_of_mem _ hb))
        (addBuiltin (names, t) builtin).1 (addBuiltin (names, t) builtin).2
      exact ⟨(names.grown_intern _).trans hgrown,
        ((moves_registerIfFree _ _ (.segment hname) ..).grown hgrown).trans hmoves⟩

theorem dotless_builtins : ∀ builtin ∈ builtins, '.' ∉ builtin.1.toList := by decide

end Table

section

variable {names names' : Interner} {id : TableId} {library : Library} {config : CheckConfig}
  {m : Module} {out : CheckOutput}

/-- However a check ends, its table is that of its last draft, with a verdict. -/
theorem checkModule_table (checked : checkModule names id library config m = (names', .ok out)) :
    out.table = { (Draft.after (Draft.checkPasses library m)
      (Draft.initial names id config m)).table with validity := out.table.validity } := by
  rw [checkModule_eq] at checked
  rw [Draft.after]
  split at checked
  · next d hrun =>
      rw [Table.output_eq] at checked
      cases checked
      rw [hrun]
  · next d hrun =>
      rw [Table.output_eq] at checked
      cases checked
      rw [hrun]
  · cases congrArg Prod.snd checked

/-- However a check ends, its table comes from a new one by moves, but for the verdict. -/
theorem checkModule_moves (checked : checkModule names id library config m = (names', .ok out)) :
    ∃ t, Table.Moves (library.Supplies m.references) names'
        (Table.create names id m.name m.kind m.file).2 t ∧
      out.table = { t with validity := out.table.validity } := by
  have hmoves := ((Draft.paced_checkPasses library m).paces (Draft.initial names id config m)).moves
  rw [← checkModule_names, checked] at hmoves
  exact ⟨_, hmoves, checkModule_table checked⟩

end

end ManySorted
