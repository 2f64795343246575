import ManySorted.Proofs.Declaration.Roster
import ManySorted.Proofs.Syntax
import ManySorted.Proofs.Table.Searching

/-!
# Entering declarations

Each declaration of a module puts one entry on the roster (`Module.entries`), whether its name is
free or not, and so the roster after all of them is known (`Draft.ends_enterAll`).

## Strategy

* **Whether an entry counts.**  An entry is the one that its name comes to stand for if the name is
  legal and free, and no entry before has it (`Draft.Enters`).
* **Registering.**  A symbol is registered under a name if and only if the entry counts
  (`Draft.Roster.ends_register`, `Draft.Roster.ends_registerData`), and otherwise one report is made
  (`Draft.Roster.ends_registerNamed`).
* **Elements of enumerations.**  They declare a constant only if their identifier is a single name
  that is found nowhere; then it is also free in the root (`Draft.Roster.ends_declareElement`).
* **Runs.**  The roster grows by one entry for each declaration, through types, constants,
  parameters and elements (`Draft.ends_enterTypes`, `Draft.ends_enterConstants`,
  `Draft.ends_enterParams`, `Draft.ends_enterElements`).
-/

namespace ManySorted

/-- The kind that a type declaration enters. -/
def TypeBody.outline (body : TypeBody) : SymbolKind :=
  match body.shape? with
  | none => .union none
  | some shape => .data shape
      { labels := body.fields.map Field.label, any := body.fields.map Field.any,
        sort := default, typeConstant := default }

/-- Whether an identifier may declare a constant: it is a single name that is found nowhere. -/
def Table.Misses (t : Table) (id : QualifiedId) : Prop :=
  id.isQualified = false ∧ t.resolveId id Table.anySymbol = .notFound

instance (t : Table) (id : QualifiedId) : Decidable (t.Misses id) :=
  inferInstanceAs (Decidable (_ ∧ _))

namespace Entry

def ofType (m : Module) (decl : TypeDecl) : Entry where
  name := decl.name
  usage := "a type name"
  location := m.locate decl.span
  arity := decl.body.fields.length
  kind := decl.body.outline

def ofConstant (m : Module) (constant : ConstantDecl) : Entry where
  name := constant.name
  usage := "a constant"
  location := m.locate constant.span
  arity := 0
  kind := (SymbolKind.userConstant
    (match constant.kind with
      | .derived => .derived
      | .symbolic => .symbolic)).outline

def ofParam? (m : Module) : Param → Option Entry
  | .model _ => none
  | .value name _ span => some
      { name, usage := "a parameter", location := m.locate span, arity := 0
        kind := .userConstant .parameter }

/-- The constant that an enumeration names. -/
def ofId (m : Module) (id : QualifiedId) : Entry where
  name := id.last
  usage := "an enumeration constant"
  location := m.locate id.span
  arity := 0
  kind := .userConstant .enumerated
  tacit := true

/-- The entry of an enumeration element: a constant that is found nowhere. -/
def ofElement? (m : Module) (origin : Table) : EnumElement → Option Entry
  | .constant id => if origin.Misses id then some (ofId m id) else none
  | _ => none

end Entry

namespace Module

/-- The entries of types and constants. -/
def leadingEntries (m : Module) : List Entry :=
  m.types.map (Entry.ofType m) ++ m.constants.map (Entry.ofConstant m)

/-- The entries of parameters. -/
def paramEntries (m : Module) : List Entry :=
  if m.kind = .transform then m.params.filterMap (Entry.ofParam? m) else []

/-- What the declarations of a module enter, in the order in which they are looked at. -/
def entries (m : Module) (origin : Table) : List Entry :=
  m.leadingEntries ++ m.paramEntries ++
    (Node.module m).enumElements.filterMap (Entry.ofElement? m origin)

end Module

/-- The names that a module is written with are in the interner. -/
structure Module.Interned (m : Module) (names : Interner) : Prop where
  type : ∀ decl ∈ m.types, names.Knows decl.name
  label : ∀ decl ∈ m.types, ∀ field ∈ decl.body.fields, ∀ label, field.label = some label →
    names.Knows label
  constant : ∀ constant ∈ m.constants, names.Knows constant.name
  param : ∀ p ∈ m.valueParams, names.Knows p.1
  id : ∀ id ∈ (Node.module m).qualifiedIds, ∀ segment ∈ id.segments, names.Knows segment

theorem Module.Interned.grown {m : Module} {names names' : Interner} (h : m.Interned names)
    (hgrown : names.Grown names') : m.Interned names' where
  type decl hdecl := hgrown.knows (h.type decl hdecl)
  label decl hdecl field hfield label hlabel :=
    hgrown.knows (h.label decl hdecl field hfield label hlabel)
  constant constant hconstant := hgrown.knows (h.constant constant hconstant)
  param p hp := hgrown.knows (h.param p hp)
  id id hid segment hsegment := hgrown.knows (h.id id hid segment hsegment)

namespace Table

variable {t t' : Table} {id : QualifiedId}

/-- A name that is free in the root is found in both tables or in none. -/
theorem EntersRoot.resolveId_eq (h : t.EntersRoot t')
    (hfree : (t.namespaceAt .root).symbol? id.last = none)
    (hfree' : (t'.namespaceAt .root).symbol? id.last = none) :
    t'.resolveId id anySymbol = t.resolveId id anySymbol := by
  cases hlast : id.segments.getLast? with
  | none => rw [resolveId_eq_notFound hlast, resolveId_eq_notFound hlast]
  | some last =>
      have hname : id.last = last := by rw [QualifiedId.last, hlast, Option.getD_some]
      rw [hname] at hfree hfree'
      have hmatch : t'.filtered anySymbol last = t.filtered anySymbol last := by
        funext ns
        by_cases hns : ns = .root
        · rw [filtered, filtered, hns, hfree, hfree']
          rfl
        · rw [filtered, filtered, h.below ns hns]
          rfl
      rw [resolveId_eq_search hlast, resolveId_eq_search hlast, hmatch,
        search_congr h.size_eq h.node_eq]

/-- What stands in the root is found under its name. -/
theorem Arena.resolveId_eq_found {x : SymbolId} (ht : t.Arena) (htree : t.Tree)
    (hshort : id.isQualified = false) (hx : (t.namespaceAt .root).symbol? id.last = some x) :
    t.resolveId id anySymbol = .found x := by
  cases hlast : id.segments.getLast? with
  | none =>
      have hname : id.last = .empty := by rw [QualifiedId.last, hlast, Option.getD_none]
      rw [hname] at hx
      cases (ht.entry hx).2.2.2
  | some last =>
      have hname : id.last = last := by rw [QualifiedId.last, hlast, Option.getD_some]
      have hnone : id.segments.dropLast = [] := by
        have hlength : id.segments.length ≤ 1 := Nat.le_of_not_lt (of_decide_eq_false hshort)
        refine List.eq_nil_of_length_eq_zero ?_
        rw [List.length_dropLast]
        omega
      rw [hname] at hx
      rw [resolveId_eq_search hlast, hnone]
      refine htree.search_fullPath htree.root rfl ?_
      rw [filtered, hx]
      rfl

end Table

namespace Draft

variable {α : Type} {P : Draft → Prop} {origin d : Draft} {entries : List Entry} {e : Entry}
  {name : Name} {kind : SymbolKind} {m : Module}

/-! ## Single steps -/

theorem ends_checkId {Q : Bool → Draft → Prop} {location : Location} {usage : String}
    (h : ∀ d, P d → match illegalId? d.names name usage with
      | none => Q true d
      | some problem => Q false { d with table := d.table.report ⟨location, problem⟩ }) :
    Ends P (checkId location name usage) Q := by
  refine ends_getNames_bind fun names => ?_
  cases hproblem : illegalId? names name usage with
  | none =>
      refine ends_pure ?_
      rintro d ⟨hd, rfl⟩
      have hd := h d hd
      rwa [hproblem] at hd
  | some problem =>
      refine Ends.bind (Q := fun _ => Q false) (ends_modifyTable ?_) fun _ =>
        ends_pure fun d hd => hd
      rintro d ⟨hd, rfl⟩
      have hd := h d hd
      rwa [hproblem] at hd

theorem ends_registerNamed {Q : Option SymbolId → Draft → Prop} {location : Location}
    {usage : String} {registration : DraftM (Except SymbolId SymbolId)}
    (hregister : Ends (fun d => P d ∧ isLegalId (d.names.text name) = true) registration fun r d =>
      match r with
      | .ok id => Q (some id) d
      | .error previous => Q none { d with
          table := d.table.reportDuplicate d.names location name previous })
    (hillegal : ∀ d, P d → isLegalId (d.names.text name) = false →
      Q none { d with table := d.table.report ⟨location, .badId (d.names.text name) usage⟩ }) :
    Ends P (registerNamed location name usage registration) Q := by
  refine (ends_checkId (Q := fun legal d =>
    (legal = true → P d ∧ isLegalId (d.names.text name) = true) ∧ (legal = false → Q none d))
    fun d hd => ?_).bind fun legal => ?_
  · rw [illegalId?]
    cases hlegal : isLegalId (d.names.text name) with
    | true => exact ⟨fun _ => ⟨hd, rfl⟩, fun h => absurd h.symm Bool.false_ne_true⟩
    | false => exact ⟨fun h => absurd h Bool.false_ne_true, fun _ => hillegal d hd hlegal⟩
  · refine Ends.ite (fun hlegal => ?_) fun hlegal => ends_pure fun d hd => ?_
    · refine (hregister.imp (fun d hd => hd.1 hlegal) fun r d hd => hd).bind fun r => ?_
      cases r with
      | ok id => exact ends_pure fun d hd => hd
      | error previous =>
          exact Ends.bind (Q := fun _ => Q none) (ends_modify fun d hd => hd) fun _ =>
            ends_pure fun d hd => hd
    · exact hd.2 (by rwa [Bool.not_eq_true] at hlegal)

/-- Whether the entry is the one that its name comes to stand for. -/
def Enters (d : Draft) (before : List Entry) (e : Entry) : Prop :=
  d.Opens e.name ∧ (d.chosen before e.name).isNone = true

instance (d : Draft) (before : List Entry) (e : Entry) : Decidable (d.Enters before e) :=
  inferInstanceAs (Decidable (_ ∧ _))

/-- The entry, if it is the one that its name comes to stand for. -/
def entrants (d : Draft) (before : List Entry) (e : Entry) : List Entry :=
  if d.Enters before e then [e] else []

section

variable (hintact : origin.Intact)
include hintact

/-- A name that is free and legal is open and stands for nothing yet. -/
theorem Roster.enters_of_free (h : Roster origin entries d)
    (hlegal : isLegalId (origin.names.text e.name) = true)
    (hfree : (d.table.namespaceAt .root).symbol? e.name = none) :
    origin.Opens e.name ∧ origin.chosen entries e.name = none := by
  have htaken := h.takenAt?_eq hintact hlegal
  rw [hfree, Option.map_none, takenAt?] at htaken
  cases hfound : (origin.table.namespaceAt .root).symbol? e.name with
  | some previous =>
      rw [hfound] at htaken
      cases htaken
  | none =>
      rw [hfound] at htaken
      exact ⟨⟨hfound, hlegal⟩, Option.map_eq_none_iff.1 htaken⟩

/-- A name that is taken is not open or stands for something. -/
theorem Roster.not_enters_of_taken (h : Roster origin entries d) {previous : SymbolId}
    (htaken : (d.table.namespaceAt .root).symbol? e.name = some previous)
    (hopen : origin.Opens e.name) : origin.chosen entries e.name ≠ none := by
  have hlocation := h.takenAt?_eq hintact hopen.2
  rw [htaken, Option.map_some, takenAt?, hopen.1] at hlocation
  intro hnone
  rw [hnone] at hlocation
  cases hlocation

/-- A symbol is entered, unless its name is taken. -/
theorem Roster.ends_register (entries : List Entry) (kind : SymbolKind)
    (hknows : origin.names.Knows e.name) (hbase : kind.isBase = false)
    (hdata : kind.isData = false) (hcompanion : kind.isCompanion = false)
    (hnullary : kind.isConstant = true → e.arity = 0) (hkind : kind.outline = e.kind)
    (htacit : e.tacit = true → kind = .userConstant .enumerated) :
    Ends (fun d => Roster origin entries d ∧ isLegalId (d.names.text e.name) = true)
      (register .root e.name e.arity e.location kind) fun r d =>
      match r with
      | .ok _ => Roster origin (entries ++ [e]) d ∧ origin.Enters entries e
      | .error previous => Roster origin entries d ∧ isLegalId (origin.names.text e.name) = true ∧
          (d.table.namespaceAt .root).symbol? e.name = some previous := by
  refine Safe.ends (C := fun _ => True) (safe_register (fun d hd => ?_) (fun d hd hfree => ?_)
    fun d previous hd htaken => ?_)
  · exact (hd.1.intact.formed.proper.fitting_of_isLegalId hd.2).named
  · obtain ⟨h, hlegal⟩ := hd
    have hname := h.intact.formed.proper.fitting_of_isLegalId hlegal
    rw [h.text hknows] at hlegal
    obtain ⟨hopen, hnone⟩ := h.enters_of_free hintact hlegal hfree
    obtain ⟨hintact', hadded⟩ := Table.Intact.withSymbol h.intact hname hfree e.arity e.location
      kind hbase hdata hcompanion hnullary
    refine ⟨h.enter (x := ⟨d.table.symbols.size⟩) hopen hnone hknows hintact' (.refl _) hadded
      Table.entersRoot_withSymbol ?_ (fun {y} hy hnew _ => ?_) rfl, hopen,
      Option.isNone_iff_eq_none.2 hnone⟩
    · rw [Table.symbol?_withSymbol h.intact.formed.tree.root,
        if_pos ⟨hname.named, rfl, rfl⟩]
    · obtain rfl := Table.eq_of_holds_withSymbol hy hnew
      have hself : (d.table.withSymbol .root e.name e.arity e.location kind).symbolAt
            ⟨d.table.symbols.size⟩ =
          { id := ⟨d.table.symbols.size⟩, name := e.name, home := .root, arity := e.arity,
            location := e.location, kind } :=
        Table.symbolAt_withSymbol_self
      refine ⟨by rw [hself], by rw [hself], by rw [hself], ?_, fun h => ?_⟩
      · rw [Table.kindOf, hself]
        exact hkind
      · rw [Table.kindOf, hself]
        exact htacit h
  · obtain ⟨h, hlegal⟩ := hd
    rw [h.text hknows] at hlegal
    exact ⟨h, hlegal, htaken⟩

/-- Data is entered with its companions, unless its name is taken. -/
theorem Roster.ends_registerData (hknows : origin.names.Knows e.name) {shape : DataShape}
    {labels : List (Option Name)} {any : List Bool} (hlabels : labels.length = e.arity)
    (hany : any.length = e.arity) (hdomain : shape.domainArity ≤ e.arity)
    (hkind : e.kind = .data shape { labels, any, sort := default, typeConstant := default })
    (htacit : e.tacit = false) :
    Ends (fun d => Roster origin entries d ∧ isLegalId (d.names.text e.name) = true)
      (registerData .root e.name e.arity e.location shape labels any) fun r d =>
      match r with
      | .ok _ => Roster origin (entries ++ [e]) d ∧ origin.Enters entries e
      | .error previous => Roster origin entries d ∧ isLegalId (origin.names.text e.name) = true ∧
          (d.table.namespaceAt .root).symbol? e.name = some previous := by
  refine Safe.ends (C := fun _ => True) (safe_registerData (fun d hd => ?_)
    (fun d hashed names' hd hfree hregistered _ => ?_) fun d previous hd htaken => ?_)
  · exact ⟨hd.1.intact.formed.toRegular, hd.1.intact.formed.proper.fitting_of_isLegalId hd.2⟩
  · obtain ⟨h, hlegal⟩ := hd
    have hname := h.intact.formed.proper.fitting_of_isLegalId hlegal
    rw [h.text hknows] at hlegal
    obtain ⟨hopen, hnone⟩ := h.enters_of_free hintact hlegal hfree
    obtain ⟨hintact', hadded⟩ := Table.Intact.withData h.intact hname hfree hregistered hlabels hany
      hdomain e.location
    refine ⟨h.enter (x := ⟨d.table.symbols.size⟩) hopen hnone hknows hintact' hregistered.grown
      hadded Table.entersRoot_withData ?_ (fun {y} hy hnew hcompanion => ?_) rfl, hopen,
      Option.isNone_iff_eq_none.2 hnone⟩
    · rw [Table.symbol?_withData h.intact.formed.tree.root hname.named hregistered.named
        hregistered.ne, if_pos ⟨rfl, rfl⟩]
    · rcases Table.holds_withData_cases hy with rfl | rfl | rfl | hold
      · have hself : (d.table.withData hashed .root e.name e.arity e.location shape labels
              any).symbolAt ⟨d.table.symbols.size⟩ =
            { id := ⟨d.table.symbols.size⟩, name := e.name, home := .root, arity := e.arity,
              location := e.location,
              kind := .data shape
                { labels, any, sort := ⟨d.table.symbols.size + 1⟩,
                  typeConstant := ⟨d.table.symbols.size + 2⟩ } } := by
          rw [Table.symbolAt_withData, if_pos rfl]
        refine ⟨by rw [hself], by rw [hself], by rw [hself], ?_, fun h => ?_⟩
        · rw [Table.kindOf, hself, hkind]
          rfl
        · cases htacit.symm.trans h
      · rw [Table.kindOf, Table.symbolAt_withData, if_neg (Nat.succ_ne_self _),
          if_pos rfl] at hcompanion
        cases hcompanion
      · rw [Table.kindOf, Table.symbolAt_withData, if_neg (by simp), if_neg (by simp),
          if_pos rfl] at hcompanion
        cases hcompanion
      · exact absurd hold hnew
  · obtain ⟨h, hlegal⟩ := hd
    rw [h.text hknows] at hlegal
    exact ⟨h, hlegal, htaken⟩

/-- An entry is put on the roster, with a report if its name is illegal or taken. -/
theorem Roster.ends_registerNamed (hknows : origin.names.Knows e.name) (htacit : e.tacit = false)
    {registration : DraftM (Except SymbolId SymbolId)}
    (hregister : Ends (fun d => Roster origin entries d ∧ isLegalId (d.names.text e.name) = true)
      registration fun r d =>
        match r with
        | .ok _ => Roster origin (entries ++ [e]) d ∧ origin.Enters entries e
        | .error previous => Roster origin entries d ∧ isLegalId (origin.names.text e.name) = true ∧
            (d.table.namespaceAt .root).symbol? e.name = some previous) :
    Ends (Roster origin entries) (registerNamed e.location e.name e.usage registration) fun r d =>
      Roster origin (entries ++ [e]) d ∧ (r.isSome = true ↔ origin.Enters entries e) := by
  refine Draft.ends_registerNamed (hregister.imp (fun d hd => hd) fun r d hd => ?_)
    fun d h hillegal => ?_
  · cases r with
    | ok id => exact ⟨hd.1, iff_of_true rfl hd.2⟩
    | error previous =>
        obtain ⟨h, hlegal, htaken⟩ := hd
        have hclosed := h.not_enters_of_taken hintact htaken
        refine ⟨h.refuse hclosed rfl rfl rfl ?_, iff_of_false Bool.false_ne_true fun henters => ?_⟩
        · rw [entryReports, illegalId?, if_pos hlegal, htacit, h.takenAt?_eq hintact hlegal, htaken,
            ← h.text hknows]
          rfl
        · exact hclosed henters.1 (Option.isNone_iff_eq_none.1 henters.2)
  · rw [h.text hknows] at hillegal
    have hclosed : ¬ origin.Opens e.name := fun hopen => by cases hillegal.symm.trans hopen.2
    refine ⟨h.refuse (fun hopen => absurd hopen hclosed) rfl rfl rfl ?_,
      iff_of_false Bool.false_ne_true fun henters => hclosed henters.1⟩
    rw [entryReports, illegalId?, if_neg (Bool.eq_false_iff.1 hillegal), htacit, ← h.text hknows]
    rfl

/-! ## Declarations -/

theorem Roster.ends_registerType {decl : TypeDecl} (hknows : origin.names.Knows decl.name) :
    Ends (Roster origin entries) (registerType m decl) fun _ =>
      Roster origin (entries ++ [Entry.ofType m decl]) := by
  refine (ends_tick fun d clock hd => hd.of_clock clock).bind fun _ => ?_
  refine (Ends.imp (Roster.ends_registerNamed (e := Entry.ofType m decl) hintact hknows rfl ?_)
    (fun d hd => hd) fun r d hd => hd.1).bind fun _ => ends_pure fun d hd => hd
  have hdata : ∀ shape, decl.body.shape? = some shape →
      shape.domainArity ≤ decl.body.fields.length →
      Ends (fun d => Roster origin entries d ∧ isLegalId (d.names.text decl.name) = true)
        (registerData .root decl.name decl.body.fields.length (m.locate decl.span) shape
          (decl.body.fields.map Field.label) (decl.body.fields.map Field.any)) fun r d =>
        match r with
        | .ok _ => Roster origin (entries ++ [Entry.ofType m decl]) d ∧
            origin.Enters entries (Entry.ofType m decl)
        | .error previous => Roster origin entries d ∧
            isLegalId (origin.names.text decl.name) = true ∧
            (d.table.namespaceAt .root).symbol? decl.name = some previous := by
    intro shape hshape hdomain
    refine Roster.ends_registerData (e := Entry.ofType m decl) hintact hknows
      (List.length_map _) (List.length_map _) hdomain ?_ rfl
    rw [Entry.ofType, TypeBody.outline, hshape]
  unfold registerBody
  cases hbody : decl.body with
  | union members =>
      have harity : (Entry.ofType m decl).arity = 0 := by
        rw [Entry.ofType, hbody]
        rfl
      have hends := Roster.ends_register (e := Entry.ofType m decl) hintact entries (.union none)
        hknows rfl rfl rfl (fun h => by cases h)
        (by rw [Entry.ofType, hbody]; rfl) (fun h => by cases h)
      rwa [harity] at hends
  | constructor isNew fields =>
      have hends := hdata (.constructor isNew) (by rw [hbody]; rfl) (Nat.zero_le _)
      rwa [hbody] at hends
  | map kind isPartial domain codomain =>
      have hends := hdata (.map kind isPartial domain.length) (by rw [hbody]; rfl)
        (by rw [hbody]; exact (List.length_append ..).symm ▸ Nat.le_add_right _ _)
      rwa [hbody] at hends

theorem Roster.ends_registerConstant {constant : ConstantDecl}
    (hknows : origin.names.Knows constant.name) :
    Ends (Roster origin entries) (registerConstant m constant) fun _ =>
      Roster origin (entries ++ [Entry.ofConstant m constant]) := by
  refine (ends_tick fun d clock hd => hd.of_clock clock).bind fun _ => ?_
  refine Ends.discard (Roster.ends_registerNamed (e := Entry.ofConstant m constant)
    hintact hknows rfl
    ?_) fun _ d hd => hd.1
  refine Roster.ends_register (e := Entry.ofConstant m constant) hintact _ _ hknows rfl rfl ?_
    (fun _ => rfl) rfl (fun h => by cases h)
  cases constant.kind <;> rfl

/-- What is known after some parameters were looked at. -/
def ParamsEntered (origin : Draft) (m : Module) (before : List Entry) (done : List Param)
    (params : List Parameter) (d : Draft) : Prop :=
  Roster origin (before ++ done.filterMap (Entry.ofParam? m)) d ∧
    params.map Parameter.name =
      (gather origin.entrants before (done.filterMap (Entry.ofParam? m))).map Entry.name

theorem ends_enterParam {before : List Entry} {done : List Param} {params : List Parameter}
    {param : Param} (hknows : ∀ e, Entry.ofParam? m param = some e → origin.names.Knows e.name) :
    Ends (ParamsEntered origin m before done params) (registerParam m param) fun p =>
      ParamsEntered origin m before (done ++ [param]) (params ++ p.toList) := by
  cases param with
  | model reference =>
      refine ends_pure fun d hd => ?_
      have hsame : (done ++ [Param.model reference]).filterMap (Entry.ofParam? m) =
          done.filterMap (Entry.ofParam? m) := by
        rw [List.filterMap_append]
        exact List.append_nil _
      rw [ParamsEntered, hsame, Option.toList_none, List.append_nil]
      exact hd
  | value name type span =>
      obtain ⟨e, he⟩ : ∃ e, Entry.ofParam? m (.value name type span) = some e := ⟨_, rfl⟩
      have hsnoc : (done ++ [Param.value name type span]).filterMap (Entry.ofParam? m) =
          done.filterMap (Entry.ofParam? m) ++ [e] := by
        rw [List.filterMap_append, List.filterMap_cons_some he, List.filterMap_nil]
      have hname : e.name = name := by cases he; rfl
      have hends : Ends (Roster origin (before ++ done.filterMap (Entry.ofParam? m)))
          (registerNamed (m.locate span) name "a parameter"
            (register .root name 0 (m.locate span) (.userConstant .parameter))) fun r d =>
          Roster origin (before ++ done.filterMap (Entry.ofParam? m) ++ [e]) d ∧
            (r.isSome = true ↔ origin.Enters (before ++ done.filterMap (Entry.ofParam? m)) e) := by
        cases he
        exact Roster.ends_registerNamed (e := ⟨name, "a parameter", m.locate span, 0,
          .userConstant .parameter, false⟩) hintact (hknows _ rfl) rfl
          (Roster.ends_register (e := ⟨name, "a parameter", m.locate span, 0,
            .userConstant .parameter, false⟩) hintact _ _ (hknows _ rfl) rfl rfl rfl
              (fun _ => rfl) rfl
            (fun h => by cases h))
      intro d p d' hd hrun
      obtain ⟨r, d₁, hrun, hpure⟩ := bind_eq_ok.1 hrun
      cases hpure
      obtain ⟨hroster, henters⟩ := hends d r d' hd.1 hrun
      rw [ParamsEntered, hsnoc, ← List.append_assoc, List.map_append, hd.2, gather_snoc,
        List.map_append, entrants]
      refine ⟨hroster, congrArg _ ?_⟩
      cases r with
      | none =>
          rw [if_neg fun h => by cases henters.2 h]
          rfl
      | some symbol =>
          rw [if_pos (henters.1 rfl), List.map_singleton, hname]
          rfl

/-- A constant that is found is not declared, and its entry is left out if there is one. -/
theorem Roster.skipElement (h : Roster origin entries d) {id : QualifiedId}
    (hknows : origin.names.Knows id.last) (hfound : ¬ d.table.Misses id) :
    Roster origin (entries ++ (Entry.ofElement? m origin.table (.constant id)).toList) d := by
  by_cases hmisses : origin.table.Misses id
  · rw [Entry.ofElement?, if_pos hmisses, Option.toList_some]
    have hfree : (origin.table.namespaceAt .root).symbol? id.last = none := by
      refine Option.eq_none_iff_forall_ne_some.2 fun x hx => ?_
      cases hmisses.2.symm.trans (hintact.formed.arena.resolveId_eq_found hintact.formed.tree
        hmisses.1 hx)
    cases htaken : (d.table.namespaceAt .root).symbol? id.last with
    | none =>
        refine absurd ⟨hmisses.1, ?_⟩ hfound
        rw [h.entersRoot.resolveId_eq hfree htaken]
        exact hmisses.2
    | some x =>
        refine h.refuse (e := Entry.ofId m id) (t := d.table)
          (h.not_enters_of_taken hintact htaken) rfl rfl rfl ?_
        rw [entryReports, illegalId?]
        cases hlegal : isLegalId (origin.names.text (Entry.ofId m id).name) with
        | true => exact (List.append_nil _).symm
        | false =>
            have hnames := h.isSome_symbol?_of_illegal hintact hknows hlegal hfree
            rw [htaken] at hnames
            have htacit : ((Entry.ofId m id).tacit &&
                origin.namesType entries (Entry.ofId m id).name) = true := hnames.symm
            rw [if_neg Bool.false_ne_true]
            dsimp only
            rw [if_pos htacit, List.append_nil]
  · rwa [Entry.ofElement?, if_neg hmisses, Option.toList_none, List.append_nil]

/-- A constant that is found nowhere is entered, if its name is legal. -/
theorem Roster.ends_declareElement {id : QualifiedId} (hknows : origin.names.Knows id.last) :
    Ends (fun d => Roster origin entries d ∧ d.table.Misses id) (do
        if ← checkId (m.locate id.span) id.last "an enumeration constant" then
          discard <| register .root id.last 0 (m.locate id.span) (.userConstant .enumerated))
      fun _ => Roster origin
        (entries ++ (Entry.ofElement? m origin.table (.constant id)).toList) := by
  refine (ends_checkId (Q := fun legal d =>
    (legal = true → Roster origin entries d ∧ isLegalId (d.names.text id.last) = true ∧
      origin.table.Misses id) ∧
    (legal = false → Roster origin
      (entries ++ (Entry.ofElement? m origin.table (.constant id)).toList) d)) ?_).bind
    fun legal => ?_
  · rintro d ⟨h, hmisses⟩
    -- What is found nowhere is not in the root, now or at the start.
    have hfree : (d.table.namespaceAt .root).symbol? id.last = none := by
      refine Option.eq_none_iff_forall_ne_some.2 fun x hx => ?_
      cases hmisses.2.symm.trans (h.intact.formed.arena.resolveId_eq_found h.intact.formed.tree
        hmisses.1 hx)
    have hfree' : (origin.table.namespaceAt .root).symbol? id.last = none := by
      refine Option.eq_none_iff_forall_ne_some.2 fun x hx => ?_
      cases hfree.symm.trans (h.added.later.symbol? hx)
    have hmisses' : origin.table.Misses id :=
      ⟨hmisses.1, (h.entersRoot.resolveId_eq hfree' hfree).symm.trans hmisses.2⟩
    rw [illegalId?]
    cases hlegal : isLegalId (d.names.text id.last) with
    | true => exact ⟨fun _ => ⟨h, rfl, hmisses'⟩, fun hnot => absurd hnot.symm Bool.false_ne_true⟩
    | false =>
        refine ⟨fun hyes => absurd hyes Bool.false_ne_true, fun _ => ?_⟩
        rw [Entry.ofElement?, if_pos hmisses', Option.toList_some]
        rw [h.text hknows] at hlegal
        refine h.refuse (e := Entry.ofId m id) (fun hopen => ?_) rfl rfl rfl ?_
        · cases hlegal.symm.trans hopen.2
        · have hnames := h.isSome_symbol?_of_illegal hintact hknows hlegal hfree'
          rw [hfree] at hnames
          have htacit : ((Entry.ofId m id).tacit &&
              origin.namesType entries (Entry.ofId m id).name) = false := hnames.symm
          have hname : isLegalId (origin.names.text (Entry.ofId m id).name) = false := hlegal
          rw [entryReports, illegalId?, hname, if_neg Bool.false_ne_true]
          dsimp only
          rw [htacit, if_neg Bool.false_ne_true, h.text hknows]
          rfl
  · -- the constant is registered, unless its name was illegal
    refine Ends.ite (fun hlegal => ?_) fun hlegal => ends_pure fun d hd => ?_
    · have hkept : Ends (fun _ => origin.table.Misses id)
          (register .root id.last 0 (m.locate id.span) (.userConstant .enumerated))
          fun _ _ => origin.table.Misses id := fun _ _ _ hmisses _ => hmisses
      have hregister := (Roster.ends_register (e := Entry.ofId m id) hintact entries
        (.userConstant .enumerated) hknows rfl rfl rfl (fun _ => rfl) rfl fun _ => rfl).and hkept
      refine (Ends.discard hregister fun r d hd => ?_).imp
        (fun d hd => ⟨⟨(hd.1 hlegal).1, (hd.1 hlegal).2.1⟩, (hd.1 hlegal).2.2⟩) fun _ d hd => hd
      obtain ⟨hd, hmisses⟩ := hd
      cases r with
      | ok x =>
          rw [Entry.ofElement?, if_pos hmisses, Option.toList_some]
          exact hd.1
      | error previous =>
          refine hd.1.skipElement hintact hknows fun hmisses' => ?_
          have hregular := hd.1.intact.formed.toRegular
          cases hmisses'.2.symm.trans
            (hregular.arena.resolveId_eq_found hregular.tree hmisses.1 hd.2.2)
    · exact hd.2 (by rwa [Bool.not_eq_true] at hlegal)

theorem Roster.ends_registerElement {element : EnumElement}
    (hknows : ∀ id, element = .constant id → origin.names.Knows id.last) :
    Ends (Roster origin entries) (registerElement m element) fun _ =>
      Roster origin (entries ++ (Entry.ofElement? m origin.table element).toList) := by
  refine (ends_tick fun d clock hd => hd.of_clock clock).bind fun _ => ?_
  have hliteral : ∀ literal, Ends (Roster origin entries) (addLiteral literal) fun _ =>
      Roster origin entries := fun literal => ends_modifyTable fun d hd => hd.of_eq rfl rfl rfl rfl
  cases element with
  | literal literal span =>
      refine (hliteral literal).imp (fun d hd => hd) fun _ d hd => ?_
      change Roster origin (entries ++ []) d
      rwa [List.append_nil]
  | range low high span =>
      refine ((hliteral (.integer low)).bind fun _ => hliteral (.integer high)).imp
        (fun d hd => hd) fun _ d hd => ?_
      change Roster origin (entries ++ []) d
      rwa [List.append_nil]
  | constant id =>
      refine ends_getTable_bind fun t => Ends.ite (fun hcond => ?_) fun hcond => ends_pure ?_
      · refine (Roster.ends_declareElement hintact (hknows id rfl)).imp ?_ fun _ d hd => hd
        rintro d ⟨hd, rfl⟩
        rw [Bool.and_eq_true, Bool.not_eq_true', beq_iff_eq] at hcond
        exact ⟨hd, hcond⟩
      · rintro d ⟨hd, rfl⟩
        refine hd.skipElement hintact (hknows id rfl) fun hmisses => hcond ?_
        rw [hmisses.1, hmisses.2]
        rfl

end

/-! ## All declarations -/

/-- Writing the forms of the conveniences reports nothing. -/
theorem ends_writeConveniences (base : Draft) (conveniences : List (Convenience × SymbolId)) :
    Ends (· = base) (writeConveniences conveniences) fun _ d =>
      d.names = base.names ∧ base.table.Alike d.table ∧ d.table.reports = base.table.reports := by
  refine ends_getTable_bind fun t => ?_
  refine (ends_forM (motive := fun _ d => d.names = base.names ∧ base.table.Alike d.table ∧
    d.table.reports = base.table.reports) fun done pair rest hall => ?_).imp ?_ fun _ d hd => hd
  · refine ends_tryModifyTable fun d table hd hwritten => ?_
    obtain ⟨hnames, halike, hreports⟩ := hd
    rw [Table.setCanonical] at hwritten
    split at hwritten
    · cases hwritten
    · cases hwritten
      exact ⟨hnames, halike.trans (.updateSymbol (fun _ => rfl) fun _ => rfl), hreports⟩
  · rintro d ⟨rfl, -⟩
    exact ⟨rfl, .refl _, rfl⟩

/-- The draft with everything entered, before the conveniences get their forms. -/
structure Enrollment (m : Module) (origin base : Draft) (declarations : Declarations) : Prop where
  roster : Roster origin (m.entries origin.table) base
  params : declarations.params.map Parameter.name =
    (gather origin.entrants m.leadingEntries m.paramEntries).map Entry.name

section

variable (hintact : origin.Intact) (hinterned : m.Interned origin.names)
include hintact hinterned

theorem ends_enterTypes :
    Ends (Roster origin []) (m.types.filterMapM (registerType m)) fun _ =>
      Roster origin (m.types.map (Entry.ofType m)) := by
  refine ends_filterMapM (motive := fun done _ => Roster origin (done.map (Entry.ofType m)))
    fun done _ decl rest hall => ?_
  rw [List.map_append, List.map_singleton]
  refine Roster.ends_registerType hintact (hinterned.type decl ?_)
  rw [hall]
  exact List.mem_append_right _ List.mem_cons_self

theorem ends_enterConstants :
    Ends (Roster origin entries) (m.constants.forM (registerConstant m)) fun _ =>
      Roster origin (entries ++ m.constants.map (Entry.ofConstant m)) := by
  refine (ends_forM (motive := fun done =>
    Roster origin (entries ++ done.map (Entry.ofConstant m))) fun done constant rest hall => ?_).imp
    (fun d hd => ?_) fun _ d hd => hd
  · rw [List.map_append, List.map_singleton, ← List.append_assoc]
    refine Roster.ends_registerConstant hintact (hinterned.constant constant ?_)
    rw [hall]
    exact List.mem_append_right _ List.mem_cons_self
  · rwa [List.map_nil, List.append_nil]

theorem ends_enterParams :
    Ends (Roster origin entries)
      (if m.kind = .transform then m.params.filterMapM (registerParam m) else pure [])
      fun params d => Roster origin (entries ++ m.paramEntries) d ∧
        params.map Parameter.name =
          (gather origin.entrants entries m.paramEntries).map Entry.name := by
  refine Ends.ite (fun hkind => ?_) fun hkind => ends_pure fun d hd => ?_
  · rw [Module.paramEntries, if_pos hkind]
    refine (ends_filterMapM (motive := ParamsEntered origin m entries)
      fun done params param rest hall => ends_enterParam hintact fun e he => ?_).imp
      (fun d hd => ?_) fun _ d hd => hd
    · have hparam : param ∈ m.params := by
        rw [hall]
        exact List.mem_append_right _ List.mem_cons_self
      cases param with
      | model reference => cases he
      | value name type span =>
          cases he
          exact hinterned.param (name, type) (List.mem_filterMap.2 ⟨_, hparam, rfl⟩)
    · refine ⟨?_, rfl⟩
      rwa [List.filterMap_nil, List.append_nil]
  · rw [Module.paramEntries, if_neg hkind, List.append_nil]
    exact ⟨hd, rfl⟩

theorem ends_enterElements :
    Ends (Roster origin entries) ((Node.module m).enumElements.forM (registerElement m)) fun _ =>
      Roster origin (entries ++
        (Node.module m).enumElements.filterMap (Entry.ofElement? m origin.table)) := by
  refine (ends_forM (motive := fun done => Roster origin
    (entries ++ done.filterMap (Entry.ofElement? m origin.table)))
    fun done element rest hall => ?_).imp (fun d hd => ?_) fun _ d hd => hd
  · have hsnoc : (done ++ [element]).filterMap (Entry.ofElement? m origin.table) =
        done.filterMap (Entry.ofElement? m origin.table) ++
          (Entry.ofElement? m origin.table element).toList := by
      rw [List.filterMap_append, List.filterMap_cons, List.filterMap_nil]
      cases Entry.ofElement? m origin.table element <;> rfl
    rw [hsnoc, ← List.append_assoc]
    refine Roster.ends_registerElement hintact fun id hid => ?_
    subst hid
    have hmem : .constant id ∈ (Node.module m).enumElements := by
      rw [hall]
      exact List.mem_append_right _ List.mem_cons_self
    cases hlast : id.segments.getLast? with
    | none =>
        rw [QualifiedId.last, hlast]
        exact Table.Regular.knows_empty hintact.formed.proper
    | some last =>
        rw [QualifiedId.last, hlast]
        exact hinterned.id id (Node.mem_qualifiedIds_of_element hmem) last
          (List.mem_of_getLast? hlast)
  · rwa [List.filterMap_nil, List.append_nil]

end

/-- The stages of registering. -/
theorem registerDeclarations_eq_ok {imported start : Draft} {declarations : Declarations}
    (hrun : registerDeclarations m imported = .ok declarations start) :
    ∃ conveniences origin typed constant bound base,
      registerConveniences m imported = .ok conveniences origin ∧
      m.types.filterMapM (registerType m) origin = .ok declarations.types typed ∧
      m.constants.forM (registerConstant m) typed = .ok () constant ∧
      (if m.kind = .transform then m.params.filterMapM (registerParam m) else pure []) constant =
        .ok declarations.params bound ∧
      (Node.module m).enumElements.forM (registerElement m) bound = .ok () base ∧
      writeConveniences conveniences base = .ok () start := by
  obtain ⟨conveniences, origin, hconveniences, hrun⟩ := bind_eq_ok.1 hrun
  obtain ⟨types, typed, htypes, hrun⟩ := bind_eq_ok.1 hrun
  obtain ⟨_, constant, hconstants, hrun⟩ := bind_eq_ok.1 hrun
  have hrun : ((if m.kind = .transform then m.params.filterMapM (registerParam m) else pure []) >>=
      fun params => do
        (Node.module m).enumElements.forM (registerElement m)
        writeConveniences conveniences
        return ({ types, params } : Declarations)) constant = .ok declarations start := by
    by_cases hkind : m.kind = .transform
    · rw [if_pos hkind] at hrun ⊢
      exact hrun
    · rw [if_neg hkind] at hrun ⊢
      exact hrun
  obtain ⟨params, bound, hparams, hrun⟩ := bind_eq_ok.1 hrun
  obtain ⟨_, base, helements, hrun⟩ := bind_eq_ok.1 hrun
  obtain ⟨_, written, hwritten, hrun⟩ := bind_eq_ok.1 hrun
  cases hrun
  exact ⟨conveniences, origin, typed, constant, bound, base, hconveniences, htypes, hconstants,
    hparams, helements, hwritten⟩

/-- Everything that a module declares is put on the roster, after the conveniences. -/
theorem enrollment_of_registerDeclarations {imported start : Draft} {declarations : Declarations}
    (hrun : registerDeclarations m imported = .ok declarations start) :
    ∃ conveniences origin base, registerConveniences m imported = .ok conveniences origin ∧
      (origin.Intact → m.Interned origin.names → Enrollment m origin base declarations) ∧
      start.names = base.names ∧ base.table.Alike start.table ∧
      start.table.reports = base.table.reports := by
  obtain ⟨conveniences, origin, typed, constant, bound, base, hconveniences, htypes, hconstants,
    hparams, helements, hwritten⟩ := registerDeclarations_eq_ok hrun
  refine ⟨conveniences, origin, base, hconveniences, fun hintact hinterned => ?_,
    ends_writeConveniences base conveniences base _ _ rfl hwritten⟩
  have htyped := ends_enterTypes hintact hinterned _ _ _ (roster_nil hintact) htypes
  have hconstant := ends_enterConstants hintact hinterned _ _ _ htyped hconstants
  obtain ⟨hbound, hnames⟩ := ends_enterParams hintact hinterned _ _ _ hconstant hparams
  exact ⟨ends_enterElements hintact hinterned _ _ _ hbound helements, hnames⟩

end Draft

end ManySorted
