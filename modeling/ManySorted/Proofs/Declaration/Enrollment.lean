import ManySorted.Proofs.Declaration.Enrolling
import ManySorted.Proofs.Declaration.Forms
import ManySorted.Proofs.Table.Writing

/-!
# Registering never breaks down

Registering goes through the declarations of a module in turn.  A declaration is entered unless its
name is illegal or taken, so what is entered under a name is the first declaration of that name
(`Draft.Registered`).  The convenience unions get their forms when everything is registered, since
they accept all of it.

## Strategy

* **Single steps.**  Registering a symbol or data either enters it or finds its name taken, and
  neither breaks down (`Draft.safe_register`, `Draft.safe_registerData`,
  `Draft.safe_registerNamed`).
* **The first of a name.**  Once a declaration was looked at, its name cannot be used again, whether
  it was entered or not (`Draft.Decided`, `Draft.Enlisted`).  So what is entered is the first
  declaration of its name (`Draft.FirstTypes`, `Draft.FirstParams`).
* **Runs.**  These facts are carried through the types, constants, parameters and elements of a
  module (`Draft.safe_registerTypes`, `Draft.safe_registerConstants`, `Draft.safe_registerParams`,
  `Draft.safe_registerElements`).
* **Conveniences.**  They are entered first and have no form, so each gets its form once
  (`Draft.safe_writeConveniences`).
-/

namespace ManySorted

theorem convenience?_unsized (kind : SymbolKind) : kind.unsized.convenience? =
    kind.convenience? := by
  cases kind <;> rfl

theorem isDeclaredType_unsized (kind : SymbolKind) :
    kind.unsized.isDeclaredType = kind.isDeclaredType := by
  cases kind <;> rfl

theorem isParameter_unsized (kind : SymbolKind) : kind.unsized.isParameter = kind.isParameter := by
  cases kind <;> rfl

theorem Table.Enrolls.alike {t t' : Table} {b : Declaration} (h : t.Enrolls b)
    (halike : t.Alike t') : t'.Enrolls b where
  name := (halike.name _).trans h.name
  arity := (halike.arity _).trans h.arity
  union hbody := by
    have hunsized := halike.unsized b.symbol
    rw [h.union hbody] at hunsized
    cases hkind : t'.kindOf b.symbol <;> rw [hkind] at hunsized <;> cases hunsized
    rfl
  data hbody := by
    obtain ⟨info, hkind⟩ := h.data hbody
    exact ⟨info, halike.kindOf_data.2 hkind⟩

/-- What conveniences accept depends on the symbols and not on what is written to them. -/
theorem Table.Alike.convenienceValues {t t' : Table} (h : t.Alike t') (c : Convenience) :
    t'.convenienceValues c = t.convenienceValues c := by
  have hlength : t'.symbols.toList.length = t.symbols.toList.length := by
    refine le_antisymm (not_lt.1 fun hlt => ?_) (not_lt.1 fun hlt => ?_)
    · exact Nat.lt_irrefl _ ((h.holds ⟨t.symbols.toList.length⟩).1 hlt)
    · exact Nat.lt_irrefl _ ((h.holds ⟨t'.symbols.toList.length⟩).2 hlt)
  have hblank : t'.symbols.toList.map Symbol.blank = t.symbols.toList.map Symbol.blank := by
    refine List.ext_getElem (by simpa using hlength) fun i hi hi' => ?_
    rw [List.length_map, Array.length_toList] at hi hi'
    have hat := h.blank ⟨i⟩
    simp only [Table.symbolAt, Array.getD, dif_pos hi, dif_pos hi'] at hat
    simpa using hat
  have hfold : ∀ f : AcceptedValues → Symbol → AcceptedValues, (∀ v s, f v s.blank = f v s) →
      t'.symbols.foldl f ∅ = t.symbols.foldl f ∅ := by
    intro f hf
    have hlist : ∀ t : Table,
        t.symbols.foldl f ∅ = (t.symbols.toList.map Symbol.blank).foldl f ∅ := by
      intro t
      rw [← Array.foldl_toList, List.foldl_map]
      simp only [hf]
    rw [hlist, hlist, hblank]
  have hsorts : t'.allSorts = t.allSorts := by
    refine hfold _ fun v s => ?_
    cases hkind : s.kind <;> simp [Symbol.blank, hkind, SymbolKind.unsized]
  have hconstants : t'.allConstants = t.allConstants := by
    refine hfold _ fun v s => ?_
    cases hkind : s.kind with
    | userConstant constant =>
        cases constant <;> simp [Symbol.blank, hkind, SymbolKind.unsized]
    | _ => simp [Symbol.blank, hkind, SymbolKind.unsized]
  cases c with
  | any => rw [Table.convenienceValues, Table.convenienceValues, hsorts, hconstants]
  | data => exact hsorts
  | constant => exact hconstants

namespace Draft

variable {α : Type} {C P : Draft → Prop} {start : Table} {m : Module}
  {conveniences : List (Convenience × SymbolId)} {types : List Declaration}
  {params : List Parameter} {d : Draft} {name : Name}

/-! ## Single steps -/

theorem Enrolled.of_clock (h : Enrolled start conveniences types params d) (clock : Clock) :
    Enrolled start conveniences types params { d with clock } :=
  h.of_eq (.refl _) h.intact.formed.proper rfl rfl rfl

/-- A symbol is registered, unless its name is taken. -/
theorem safe_register {Q : Except SymbolId SymbolId → Draft → Prop} {arity : Nat}
    {location : Location} {kind : SymbolKind} (hnamed : ∀ d, P d → name.isEmpty = false)
    (hfree : ∀ d, P d → (d.table.namespaceAt .root).symbol? name = none →
      Q (.ok ⟨d.table.symbols.size⟩)
        { d with table := d.table.withSymbol .root name arity location kind })
    (htaken : ∀ d previous, P d → (d.table.namespaceAt .root).symbol? name = some previous →
      Q (.error previous) d) :
    Safe C P (register .root name arity location kind) Q := by
  refine safe_modifyGet fun d hd => ?_
  rcases d.table.register_cases .root name arity location kind with
    ⟨hname, hregister⟩ | ⟨previous, hprevious, hregister⟩
  · rw [hregister]
    refine hfree d hd (hname.resolve_left ?_)
    rw [hnamed d hd]
    exact Bool.false_ne_true
  · rw [hregister]
    exact htaken d previous hd hprevious

/-- A data symbol is registered with its companions, unless its name is taken. -/
theorem safe_registerData {Q : Except SymbolId SymbolId → Draft → Prop} {arity : Nat}
    {location : Location} {shape : DataShape} {labels : List (Option Name)} {any : List Bool}
    (hregular : ∀ d, P d → d.table.Regular d.names ∧ d.names.Fitting name)
    (hfree : ∀ d hashed names', P d → (d.table.namespaceAt .root).symbol? name = none →
      Table.DataRegistered d.names d.table .root name hashed names' →
      names' = (d.names.intern ("#" ++ d.names.text name)).2 →
      Q (.ok ⟨d.table.symbols.size⟩)
        { d with
          names := names'
          table := d.table.withData hashed .root name arity location shape labels any })
    (htaken : ∀ d previous, P d → (d.table.namespaceAt .root).symbol? name = some previous →
      Q (.error previous) d) :
    Safe C P (registerData .root name arity location shape labels any) Q := by
  refine safe_modifyGet fun d hd => ?_
  obtain ⟨hregular, hname⟩ := hregular d hd
  rcases hregular.registerData_cases hname.knows hname.named hname.plain .root arity location shape
    labels any with ⟨previous, hprevious, hregister⟩ | ⟨hnone, hashed, names', hregister, hdata⟩
  · rw [hregister]
    exact htaken d previous hd hprevious
  · rw [hregister]
    exact hfree d hashed names' hd hnone hdata (Table.onward_registerData hregister).2

theorem safe_reportDuplicate {Q : Unit → Draft → Prop} {location : Location} {previous : SymbolId}
    (h : ∀ d, P d → ∀ r, Q () { d with table := d.table.report r }) :
    Safe C P (reportDuplicate location name previous) Q :=
  safe_modify fun d hd => h d hd _

/-- A name is legal, or it is reported. -/
theorem safe_checkId {Q : Bool → Draft → Prop} {location : Location} {usage : String}
    (hlegal : ∀ d, P d → isLegalId (d.names.text name) = true → Q true d)
    (hillegal : ∀ d, P d → isLegalId (d.names.text name) = false → ∀ r,
      Q false { d with table := d.table.report r }) :
    Safe C P (checkId location name usage) Q := by
  refine safe_getNames_bind fun names => ?_
  rw [illegalId?]
  cases hname : isLegalId (names.text name) with
  | true =>
      refine safe_pure ?_
      rintro d ⟨hd, rfl⟩
      exact hlegal d hd hname
  | false =>
      refine Safe.bind (Q := fun _ => Q false) (safe_modifyTable ?_) fun _ =>
        safe_pure fun d hd => hd
      rintro d ⟨hd, rfl⟩
      exact hillegal d hd hname _

/-- A declaration is registered, unless its name is illegal or taken. -/
theorem safe_registerNamed {Q : Option SymbolId → Draft → Prop} {location : Location}
    {usage : String} {registration : DraftM (Except SymbolId SymbolId)}
    (hregister : Safe C (fun d => P d ∧ isLegalId (d.names.text name) = true) registration
      fun r d =>
        match r with
        | .ok id => Q (some id) d
        | .error _ => ∀ report, Q none { d with table := d.table.report report })
    (hillegal : ∀ d, P d → isLegalId (d.names.text name) = false → ∀ r,
      Q none { d with table := d.table.report r }) :
    Safe C P (registerNamed location name usage registration) Q := by
  refine (safe_checkId (Q := fun legal d =>
    (legal = true → P d ∧ isLegalId (d.names.text name) = true) ∧ (legal = false → Q none d))
    (fun d hd hname => ⟨fun _ => ⟨hd, hname⟩, fun h => absurd h.symm Bool.false_ne_true⟩)
    fun d hd hname r =>
      ⟨fun h => absurd h Bool.false_ne_true, fun _ => hillegal d hd hname r⟩).bind fun legal => ?_
  refine Safe.ite (fun hlegal => ?_) fun hlegal => safe_pure fun d hd => ?_
  · refine (hregister.imp (fun d hd => hd.1 hlegal) fun r d hd => hd).bind fun r => ?_
    cases r with
    | ok id => exact safe_pure fun d hd => hd
    | error previous =>
        exact Safe.bind (Q := fun _ => Q none) (safe_reportDuplicate fun d hd => hd) fun _ =>
          safe_pure fun d hd => hd
  · exact hd.2 (by rwa [Bool.not_eq_true] at hlegal)

/-! ## Conveniences -/

theorem safe_registerConveniences (m : Module) :
    Safe Intact (Enrolled start [] [] []) (registerConveniences m) fun conveniences =>
      Enrolled start conveniences [] [] := by
  refine safe_filterMapM
    (motive := fun _ conveniences => Enrolled start conveniences [] [])
    fun done conveniences c rest hall => ?_
  refine Safe.bind (Q := fun name d => Enrolled start conveniences [] [] d ∧ d.names.Fitting name)
    (safe_modifyGet fun d hd => ?_) fun name => ?_
  · have hproper := hd.intact.formed.proper.intern c.name
    refine ⟨hd.of_eq (Interner.grown_intern _ _) hproper rfl rfl rfl, ?_⟩
    refine hproper.fitting (Interner.knows_intern _ _) ?_ ?_
    · rw [Interner.text_intern]
      exact (plain_convenience c).1
    · rw [Interner.text_intern]
      exact (plain_convenience c).2
  · refine Safe.bind (Q := fun r => match r with
      | .ok id => Enrolled start (conveniences ++ [(c, id)]) [] []
      | .error _ => Enrolled start conveniences [] []) ?_ fun r => ?_
    · refine safe_register (fun d hd => hd.2.named) (fun d hd hfree => ?_) fun d _ hd _ => hd.1
      exact hd.1.convenience hd.2 hfree c _
    · cases r with
      | ok id => exact safe_pure fun d hd => hd
      | error previous =>
          refine safe_pure fun d hd => ?_
          rw [Option.toList_none, List.append_nil]
          exact hd

/-! ## Types -/

/-- No further declaration can be entered under the name. -/
def Decided (d : Draft) (name : Name) : Prop :=
  (d.table.namespaceAt .root).symbol? name ≠ none ∨ isLegalId (d.names.text name) = false

theorem Decided.of_taken {previous : SymbolId}
    (h : (d.table.namespaceAt .root).symbol? name = some previous) : d.Decided name :=
  .inl fun hnone => by cases h.symm.trans hnone

/-- Names are not given back, and types intern only names with a hash sign. -/
theorem Decided.later {d' : Draft} (h : d.Decided name) (hlater : d.table.Later d'.table)
    (hnames : d'.names = d.names ∨ ∃ text, d'.names = (d.names.intern ("#" ++ text)).2) :
    d'.Decided name := by
  rcases h with htaken | hillegal
  · cases hsymbol : (d.table.namespaceAt .root).symbol? name with
    | none => exact absurd hsymbol htaken
    | some id => exact .of_taken (hlater.symbol? hsymbol)
  · rcases hnames with hnames | ⟨text, hnames⟩
    · exact .inr (by rwa [hnames])
    · exact .inr (by rw [hnames]; exact Interner.isLegalId_intern_hash text hillegal)

theorem later_report (d : Draft) (r : Report) : d.table.Later (d.table.report r) :=
  .of_eq rfl rfl rfl

/-- The first declaration of its name is found among all. -/
theorem find?_of_decided {done rest : List α} {a : α} (key : α → Name)
    (hdone : ∀ b ∈ done, d.Decided (key b))
    (hfree : (d.table.namespaceAt .root).symbol? (key a) = none)
    (hlegal : isLegalId (d.names.text (key a)) = true) :
    (done ++ a :: rest).find? (key · = key a) = some a := by
  have hnone : done.find? (key · = key a) = none := by
    rw [List.find?_eq_none]
    intro b hb hkey
    have hkey : key b = key a := of_decide_eq_true hkey
    rcases hdone b hb with htaken | hillegal
    · exact htaken (hkey ▸ hfree)
    · rw [hkey, hlegal] at hillegal
      cases hillegal
  rw [List.find?_append, hnone, Option.none_or]
  exact List.find?_cons_of_pos (decide_eq_true rfl)

/-- What is enrolled so far, where the names that were looked at cannot be used again. -/
structure Enlisted (start : Table) (conveniences : List (Convenience × SymbolId))
    (types : List Declaration) (params : List Parameter) (seen : List Name) (d : Draft) :
    Prop extends Enrolled start conveniences types params d where
  decided : ∀ name ∈ seen, d.Decided name

theorem Enlisted.of_clock {seen : List Name}
    (h : Enlisted start conveniences types params seen d) (clock : Clock) :
    Enlisted start conveniences types params seen { d with clock } where
  toEnrolled := h.toEnrolled.of_clock clock
  decided := h.decided

/-- A declaration that is not entered. -/
theorem Enlisted.refuse {seen : List Name} (h : Enlisted start conveniences types params seen d)
    (hdecided : d.Decided name) (r : Report) :
    Enlisted start conveniences types params (seen ++ [name])
      { d with table := d.table.report r } where
  toEnrolled := h.report r
  decided other hother := by
    refine Decided.later ?_ (later_report d r) (.inl rfl)
    rcases List.mem_append.1 hother with hother | hother
    · exact h.decided other hother
    · exact List.mem_singleton.1 hother ▸ hdecided

/-- A declaration that is entered. -/
theorem Enlisted.enter {seen : List Name} {types' : List Declaration} {params' : List Parameter}
    {x : SymbolId} {d' : Draft} (h : Enlisted start conveniences types params seen d)
    (henrolled : Enrolled start conveniences types' params' d')
    (hlater : d.table.Later d'.table)
    (hnames : d'.names = d.names ∨ ∃ text, d'.names = (d.names.intern ("#" ++ text)).2)
    (htaken : (d'.table.namespaceAt .root).symbol? name = some x) :
    Enlisted start conveniences types' params' (seen ++ [name]) d' where
  toEnrolled := henrolled
  decided other hother := by
    rcases List.mem_append.1 hother with hother | hother
    · exact (h.decided other hother).later hlater hnames
    · exact List.mem_singleton.1 hother ▸ .of_taken htaken

/-- The types that are enrolled are the first of their names. -/
def FirstTypes (m : Module) (types : List Declaration) : Prop :=
  ∀ b ∈ types, m.types.find? (·.name = b.decl.name) = some b.decl

/-- What is known after some type declarations were looked at. -/
def TypesSeen (start : Table) (conveniences : List (Convenience × SymbolId)) (m : Module)
    (done : List TypeDecl) (types : List Declaration) (d : Draft) : Prop :=
  Enlisted start conveniences types [] (done.map TypeDecl.name) d ∧ FirstTypes m types

/-- A type that is entered is the first one of its name. -/
theorem TypesSeen.enter {done rest : List TypeDecl} {decl : TypeDecl} {x : SymbolId}
    {d' : Draft} (h : TypesSeen start conveniences m done types d)
    (hall : m.types = done ++ decl :: rest) (hlegal : isLegalId (d.names.text decl.name) = true)
    (hfree : (d.table.namespaceAt .root).symbol? decl.name = none)
    (henrolled : Enrolled start conveniences (types ++ [⟨decl, x⟩]) [] d')
    (hlater : d.table.Later d'.table)
    (hnames : d'.names = d.names ∨ ∃ text, d'.names = (d.names.intern ("#" ++ text)).2)
    (htaken : (d'.table.namespaceAt .root).symbol? decl.name = some x) :
    TypesSeen start conveniences m (done ++ [decl]) (types ++ [⟨decl, x⟩]) d' := by
  refine ⟨?_, fun b hb => ?_⟩
  · rw [List.map_append]
    exact h.1.enter henrolled hlater hnames htaken
  · rcases List.mem_append.1 hb with hb | hb
    · exact h.2 b hb
    · obtain rfl := List.mem_singleton.1 hb
      rw [hall]
      exact find?_of_decided TypeDecl.name
        (fun other hother => h.1.decided _ (List.mem_map_of_mem hother)) hfree hlegal

theorem safe_registerBody {done rest : List TypeDecl} {decl : TypeDecl} {location : Location}
    (hall : m.types = done ++ decl :: rest) :
    Safe Intact (fun d => TypesSeen start conveniences m done types d ∧
        isLegalId (d.names.text decl.name) = true) (registerBody decl location) fun r d =>
      match r with
      | .ok id => TypesSeen start conveniences m (done ++ [decl]) (types ++ [⟨decl, id⟩]) d
      | .error _ => TypesSeen start conveniences m done types d ∧ d.Decided decl.name := by
  have hfitting : ∀ d : Draft, TypesSeen start conveniences m done types d ∧
      isLegalId (d.names.text decl.name) = true → d.names.Fitting decl.name :=
    fun d hd => hd.1.1.intact.formed.proper.fitting_of_isLegalId hd.2
  have hdata : ∀ shape, decl.body.shape? = some shape →
      Safe Intact (fun d => TypesSeen start conveniences m done types d ∧
          isLegalId (d.names.text decl.name) = true)
        (registerData .root decl.name decl.body.fields.length location shape
          (decl.body.fields.map Field.label) (decl.body.fields.map Field.any)) fun r d =>
        match r with
        | .ok id => TypesSeen start conveniences m (done ++ [decl]) (types ++ [⟨decl, id⟩]) d
        | .error _ => TypesSeen start conveniences m done types d ∧ d.Decided decl.name := by
    intro shape hshape
    refine safe_registerData (fun d hd => ⟨hd.1.1.intact.formed.toRegular, hfitting d hd⟩)
      (fun d hashed names' hd hfree hregistered hnames => ?_)
      fun d previous hd htaken => ⟨hd.1, .of_taken htaken⟩
    have hroot := hd.1.1.intact.formed.tree.root
    have hname := hfitting d hd
    refine hd.1.enter hall hd.2 hfree
      (hd.1.1.toEnrolled.data hname hfree hregistered location rfl hshape)
      (Table.later_withData hroot hregistered.ne hfree hregistered.free) (.inr ⟨_, hnames⟩) ?_
    rw [Table.symbol?_withData hroot hname.named hregistered.named hregistered.ne,
      if_pos ⟨rfl, rfl⟩]
  unfold registerBody
  cases hbody : decl.body with
  | union members =>
      refine safe_register (fun d hd => (hfitting d hd).named) (fun d hd hfree => ?_)
        fun d previous hd htaken => ⟨hd.1, .of_taken htaken⟩
      have hroot := hd.1.1.intact.formed.tree.root
      have hname := hfitting d hd
      refine hd.1.enter hall hd.2 hfree
        (hd.1.1.toEnrolled.union hname hfree location rfl (by rw [hbody]; rfl))
        (Table.later_withSymbol hroot (.inr hfree)) (.inl rfl) ?_
      rw [Table.symbol?_withSymbol hroot, if_pos ⟨hname.named, rfl, rfl⟩]
  | constructor isNew fields =>
      have hsafe := hdata (.constructor isNew) (by rw [hbody]; rfl)
      rwa [hbody] at hsafe
  | map kind isPartial domain codomain =>
      have hsafe := hdata (.map kind isPartial domain.length) (by rw [hbody]; rfl)
      rwa [hbody] at hsafe

theorem safe_registerType {done rest : List TypeDecl} {decl : TypeDecl}
    (hall : m.types = done ++ decl :: rest) :
    Safe Intact (TypesSeen start conveniences m done types) (registerType m decl) fun b =>
      TypesSeen start conveniences m (done ++ [decl]) (types ++ b.toList) := by
  refine (safe_tick_of (fun d clock hd => ⟨hd.1.of_clock clock, hd.2⟩)
    fun d hd => hd.1.intact).bind fun _ => ?_
  refine Safe.bind (Q := fun x => TypesSeen start conveniences m (done ++ [decl])
    (types ++ (x.map fun symbol => (⟨decl, symbol⟩ : Declaration)).toList)) ?_ fun x =>
      safe_pure fun d hd => hd
  have hrefuse : ∀ (d : Draft) (r : Report), TypesSeen start conveniences m done types d →
      d.Decided decl.name → TypesSeen start conveniences m (done ++ [decl]) (types ++ [])
        { d with table := d.table.report r } := by
    intro d r hd hdecided
    rw [List.append_nil]
    refine ⟨?_, hd.2⟩
    rw [List.map_append]
    exact hd.1.refuse hdecided r
  refine safe_registerNamed ((safe_registerBody hall).imp (fun d hd => hd) fun r d hd => ?_)
    fun d hd hillegal r => hrefuse d r hd (.inr hillegal)
  cases r with
  | ok id => exact hd
  | error previous => exact fun report => hrefuse d report hd.1 hd.2

/-! ## Constants and parameters -/

theorem safe_registerConstant (constant : ConstantDecl) :
    Safe Intact (Enrolled start conveniences types params) (registerConstant m constant) fun _ =>
      Enrolled start conveniences types params := by
  refine (safe_tick_of (fun d clock hd => hd.of_clock clock) fun d hd => hd.intact).bind fun _ => ?_
  refine Safe.discard (Q := fun _ => Enrolled start conveniences types params) ?_ fun _ _ hd => hd
  refine safe_registerNamed ?_ fun d hd _ r => hd.report r
  have hfitting : ∀ d : Draft, Enrolled start conveniences types params d ∧
      isLegalId (d.names.text constant.name) = true → d.names.Fitting constant.name :=
    fun d hd => hd.1.intact.formed.proper.fitting_of_isLegalId hd.2
  refine safe_register (fun d hd => (hfitting d hd).named) (fun d hd hfree => ?_)
    fun d previous hd htaken report => hd.1.report report
  cases constant.kind with
  | derived =>
      exact hd.1.constant (hfitting d hd) hfree _ (by simp) (by simp)
  | symbolic =>
      exact hd.1.constant (hfitting d hd) hfree _ (by simp) (by simp)

/-- The parameters that are enrolled are the first of their names. -/
def FirstParams (m : Module) (params : List Parameter) : Prop :=
  ∀ p ∈ params, m.valueParams.find? (·.1 = p.name) = some (p.name, p.type)

/-- What is known after some parameters were looked at. -/
def ParamsSeen (start : Table) (conveniences : List (Convenience × SymbolId))
    (types : List Declaration) (m : Module) (done : List Param) (params : List Parameter)
    (d : Draft) : Prop :=
  Enlisted start conveniences types params ((done.filterMap Param.value?).map Prod.fst) d ∧
    FirstParams m params

theorem safe_registerParam {done rest : List Param} {param : Param}
    (hall : m.params = done ++ param :: rest) :
    Safe Intact (ParamsSeen start conveniences types m done params) (registerParam m param)
      fun p => ParamsSeen start conveniences types m (done ++ [param]) (params ++ p.toList) := by
  cases param with
  | model reference =>
      -- a model parameter adds no value parameter
      refine safe_pure fun d hd => ?_
      rw [Option.toList_none, List.append_nil]
      have hseen : (done ++ [Param.model reference]).filterMap Param.value? =
          done.filterMap Param.value? := by
        rw [List.filterMap_append]
        exact List.append_nil _
      rw [ParamsSeen, hseen]
      exact hd
  | value name type span =>
      have hseen : ((done ++ [Param.value name type span]).filterMap Param.value?).map Prod.fst =
          (done.filterMap Param.value?).map Prod.fst ++ [name] := by
        rw [List.filterMap_append, List.map_append]
        rfl
      have hvalues : m.valueParams =
          done.filterMap Param.value? ++ (name, type) :: rest.filterMap Param.value? := by
        rw [Module.valueParams, hall, List.filterMap_append, List.filterMap_cons]
        rfl
      refine Safe.bind (Q := fun x => ParamsSeen start conveniences types m
        (done ++ [.value name type span])
        (params ++ (x.map fun symbol => (⟨name, type, symbol⟩ : Parameter)).toList)) ?_ fun x =>
          safe_pure fun d hd => hd
      -- A name that is refused is illegal or taken, so it is decided who bears it.
      have hrefuse : ∀ (d : Draft) (r : Report),
          ParamsSeen start conveniences types m done params d → d.Decided name →
          ParamsSeen start conveniences types m (done ++ [.value name type span]) (params ++ [])
            { d with table := d.table.report r } := by
        intro d r hd hdecided
        rw [List.append_nil]
        refine ⟨?_, hd.2⟩
        rw [hseen]
        exact hd.1.refuse hdecided r
      refine safe_registerNamed ?_ fun d hd hillegal r => hrefuse d r hd (.inr hillegal)
      have hfitting : ∀ d : Draft, ParamsSeen start conveniences types m done params d ∧
          isLegalId (d.names.text name) = true → d.names.Fitting name :=
        fun d hd => hd.1.1.intact.formed.proper.fitting_of_isLegalId hd.2
      refine safe_register (fun d hd => (hfitting d hd).named) (fun d hd hfree => ?_)
        fun d previous hd htaken report => hrefuse d report hd.1 (.of_taken htaken)
      -- The first parameter of its name is entered.
      have hroot := hd.1.1.intact.formed.tree.root
      refine ⟨?_, fun p hp => ?_⟩
      · rw [hseen]
        refine hd.1.1.enter (hd.1.1.toEnrolled.parameter (hfitting d hd) hfree type _)
          (Table.later_withSymbol hroot (.inr hfree)) (.inl rfl) (x := ⟨d.table.symbols.size⟩) ?_
        rw [Table.symbol?_withSymbol hroot, if_pos ⟨(hfitting d hd).named, rfl, rfl⟩]
      · rcases List.mem_append.1 hp with hp | hp
        · exact hd.1.2 p hp
        · obtain rfl := List.mem_singleton.1 hp
          rw [hvalues]
          exact find?_of_decided (a := (name, type)) Prod.fst
            (fun other hother => hd.1.1.decided _ (List.mem_map_of_mem hother)) hfree hd.2

theorem safe_registerElement (element : EnumElement) :
    Safe Intact (Enrolled start conveniences types params) (registerElement m element) fun _ =>
      Enrolled start conveniences types params := by
  have hliteral : ∀ literal, Safe Intact (Enrolled start conveniences types params)
      (addLiteral literal) fun _ => Enrolled start conveniences types params :=
    fun literal => safe_modifyTable fun d hd =>
      hd.of_eq (.refl _) hd.intact.formed.proper rfl rfl rfl
  refine (safe_tick_of (fun d clock hd => hd.of_clock clock) fun d hd => hd.intact).bind fun _ => ?_
  cases element with
  | literal literal span => exact hliteral literal
  | range low high span => exact (hliteral (.integer low)).bind fun _ => hliteral (.integer high)
  | constant id =>
      refine safe_getTable_bind fun t => Safe.ite (fun _ => ?_) fun _ => safe_pure fun d hd => hd.1
      refine Safe.bind (Q := fun legal d => Enrolled start conveniences types params d ∧
          (legal = true → d.names.Fitting id.last))
        (safe_checkId (fun d hd hlegal => ?_) fun d hd _ r => ?_) fun legal => ?_
      · exact ⟨hd.1, fun _ => hd.1.intact.formed.proper.fitting_of_isLegalId hlegal⟩
      · exact ⟨hd.1.report r, fun h => absurd h Bool.false_ne_true⟩
      · refine Safe.ite (fun hlegal => ?_) fun _ => safe_pure fun d hd => hd.1
        refine Safe.discard (Q := fun _ => Enrolled start conveniences types params) ?_
          fun _ _ hd => hd
        refine safe_register (fun d hd => (hd.2 hlegal).named) (fun d hd hfree => ?_)
          fun d _ hd _ => hd.1
        exact hd.1.constant (hd.2 hlegal) hfree _ (by simp) (by simp)

/-! ## The forms of conveniences -/

/-- The forms of conveniences, which accept what is registered. -/
def conveniencePlan (t : Table) (conveniences : List (Convenience × SymbolId)) :
    List (SymbolId × CanonicalForm) :=
  conveniences.map fun p => (p.2, ⟨[t.convenienceValues p.1]⟩)

theorem mem_conveniencePlan {t : Table} {e : SymbolId × CanonicalForm}
    (he : e ∈ conveniencePlan t conveniences) : e.1 ∈ conveniences.map Prod.snd := by
  obtain ⟨p, hp, rfl⟩ := List.mem_map.1 he
  exact List.mem_map_of_mem hp

/-- A convenience of the module is a union to which nothing is written. -/
theorem Enrolled.convenience_union (h : Enrolled start conveniences types params d) {x : SymbolId}
    (hx : x ∈ conveniences.map Prod.snd) :
    d.table.Owns x ∧ ∃ convenience, d.table.kindOf x = .union convenience := by
  obtain ⟨howns, hkind⟩ := h.listsConveniences.mem_iff.1 hx
  refine ⟨howns, ?_⟩
  cases hkindOf : d.table.kindOf x with
  | union convenience => exact ⟨convenience, rfl⟩
  | _ =>
      rw [hkindOf] at hkind
      cases hkind

theorem safe_writeConveniences :
    Safe Intact (Enrolled start conveniences types params) (writeConveniences conveniences)
      fun _ d => ∃ d₀, Enrolled start conveniences types params d₀ ∧ d.names = d₀.names ∧
        d₀.table.Inscribed d₀.names (conveniencePlan d₀.table conveniences) d.table := by
  refine safe_getTable_bind fun t d₀ hd₀ => ?_
  obtain ⟨henrolled, rfl⟩ := hd₀
  refine (safe_forM (C := Intact) (motive := fun done d => d.names = d₀.names ∧
    d₀.table.Inscribed d₀.names (conveniencePlan d₀.table done) d.table)
    fun done pair rest hall => ?_).imp (fun d hd => hd) (fun _ d hd => ⟨d₀, henrolled, hd⟩) d₀
      ⟨rfl, .nil henrolled.intact⟩
  obtain ⟨c, x⟩ := pair
  refine safe_tryModifyTable fun d hd => ?_
  obtain ⟨hnames, hinscribed⟩ := hd
  have hx : x ∈ conveniences.map Prod.snd := by
    rw [hall, List.map_append]
    exact List.mem_append_right _ List.mem_cons_self
  obtain ⟨howns, convenience, hkind⟩ := henrolled.convenience_union hx
  have hdata : (d₀.table.kindOf x).isData = false := by rw [hkind]; rfl
  have hholders := Table.holders_of_not_data hdata
  have hsort : ¬ d₀.table.IsSort x := by
    rintro ⟨_, hsort⟩
    rw [hkind] at hsort
    cases hsort
  have hsize : (d₀.table.symbolAt x).formSize? = some 1 := by
    rw [Symbol.formSize?, show (d₀.table.symbolAt x).kind = _ from hkind]
  have hnew : ∀ e ∈ conveniencePlan d₀.table done, e.1 ≠ x := by
    rintro e he rfl
    have hnodup := henrolled.listsConveniences.nodup
    rw [hall, List.map_append, List.map_cons] at hnodup
    exact (List.nodup_append.1 hnodup).2.2 _ (mem_conveniencePlan he) _ List.mem_cons_self rfl
  obtain ⟨table, hwrite, hinscribed'⟩ := hinscribed.write howns.holds hsort hnew
    (by rw [hholders]; exact List.forall_mem_singleton.2 howns.unsettled)
    (by rw [hholders]; exact List.forall_mem_singleton.2 (henrolled.new howns).2.canonical)
    (Table.closed_singleton (Table.closed_convenienceValues henrolled.intact.formed.arena c)) hsize
  refine ⟨table, ?_, hnames, ?_⟩
  · rw [← hwrite, Table.writeForm_of_not_data]
    rw [hinscribed.kindOf hsort]
    exact hdata
  · rw [conveniencePlan, List.map_append]
    exact hinscribed'

/-! ## All declarations -/

/-- What a module declares is registered: types and parameters are listed, each under the first
declaration of its name, and nothing but the conveniences has a form. -/
structure Registered (m : Module) (start : Table) (declarations : Declarations) (d : Draft) :
    Prop where
  intact : d.Intact
  extended : start.Extends d.table
  listsTypes : d.table.Lists (declarations.types.map Declaration.symbol) SymbolKind.isDeclaredType
  listsParams : d.table.Lists (declarations.params.map Parameter.symbol) SymbolKind.isParameter
  decl : ∀ b ∈ declarations.types, d.table.Enrolls b
  param : ∀ p ∈ declarations.params, (d.table.symbolAt p.symbol).name = p.name
  firstTypes : FirstTypes m declarations.types
  firstParams : FirstParams m declarations.params
  owns_sort : ∀ {x shape info}, d.table.kindOf x = .data shape info →
    (d.table.Owns info.sort ↔ d.table.Owns x)
  fresh : ∀ {x}, d.table.Owns x →
    (d.table.symbolAt x).failed = false ∧ (d.table.symbolAt x).size? = none
  convenience : ∀ {x convenience}, d.table.Owns x → d.table.kindOf x = .union (some convenience) →
    (d.table.symbolAt x).canonical = some ⟨[d.table.convenienceValues convenience]⟩
  unwritten : ∀ {x}, d.table.Owns x → (d.table.kindOf x).convenience?.isSome = false →
    (d.table.symbolAt x).canonical = none

theorem Enrolled.registered (h : Enrolled start conveniences types params d) {d' : Draft}
    (hnames : d'.names = d.names)
    (hwritten : d.table.Inscribed d.names (conveniencePlan d.table conveniences) d'.table)
    (htypes : FirstTypes m types) (hparams : FirstParams m params) :
    Registered m start ⟨types, params⟩ d' := by
  have halike := hwritten.toAlike
  have howns : ∀ {x}, d'.table.Owns x → d.table.Owns x := halike.owns.1
  have hconvenience : ∀ {x}, (d'.table.kindOf x).convenience? =
      (d.table.kindOf x).convenience? := by
    intro x
    rw [← convenience?_unsized, halike.unsized, convenience?_unsized]
  refine ⟨?_, h.added.extends.trans (halike.extends hwritten.later),
    h.listsTypes.alike halike isDeclaredType_unsized,
    h.listsParams.alike halike isParameter_unsized, fun b hb => (h.decl b hb).alike halike,
    fun p hp => ?_, htypes, hparams, fun {x shape info} hx => ?_, fun {x} hx => ?_,
    fun {x c} hx hkind => ?_, fun {x} hx hkind => ?_⟩
  · rw [Intact, hnames]
    exact hwritten.intact
  · rw [halike.name]
    exact h.param p hp
  · rw [halike.owns, halike.owns]
    exact h.owns_sort (halike.kindOf_data.1 hx)
  · have hbare := (h.new (howns hx)).2
    exact ⟨(hwritten.failed x).trans hbare.unfailed, (hwritten.size x).trans hbare.size⟩
  · have hsome : (d.table.kindOf x).convenience? = some c := by
      rw [← hconvenience, hkind]
      rfl
    have hmem := h.listsConveniences.mem_iff.2 ⟨howns hx, by rw [hsome]; rfl⟩
    obtain ⟨p, hp, rfl⟩ := List.mem_map.1 hmem
    rw [h.kind p hp] at hsome
    obtain rfl := Option.some.inj hsome
    have hplan : (p.2, (⟨[d.table.convenienceValues p.1]⟩ : CanonicalForm)) ∈
        conveniencePlan d.table conveniences := List.mem_map_of_mem hp
    rw [hwritten.formed _ hplan _ (Table.self_mem_holders _ _), halike.convenienceValues]
  · refine Eq.trans ?_ (h.new (howns hx)).2.canonical
    refine hwritten.kept x fun e he hmem => ?_
    obtain ⟨-, convenience, hunion⟩ := h.convenience_union (mem_conveniencePlan he)
    rw [Table.holders_of_not_data (by rw [hunion]; rfl), List.mem_singleton] at hmem
    have hsome := (h.listsConveniences.mem_iff.1 (mem_conveniencePlan he)).2
    rw [← hmem, ← hconvenience, hkind] at hsome
    cases hsome

theorem Registered.convenience_ne_none {declarations : Declarations}
    (h : Registered m start declarations d) {x : SymbolId} (howns : d.table.Owns x)
    (hkind : (d.table.kindOf x).convenience?.isSome = true) :
    (d.table.symbolAt x).canonical ≠ none := by
  cases hkindOf : d.table.kindOf x with
  | union convenience =>
      rw [hkindOf] at hkind
      obtain ⟨c, rfl⟩ := Option.isSome_iff_exists.1 hkind
      rw [h.convenience howns hkindOf]
      exact Option.some_ne_none _
  | _ =>
      rw [hkindOf] at hkind
      cases hkind

/-! ## All declarations -/

theorem Enrolled.typesSeen (h : Enrolled start conveniences [] [] d) (m : Module) :
    TypesSeen start conveniences m [] [] d :=
  ⟨⟨h, fun _ hname => absurd hname List.not_mem_nil⟩, fun _ hb => absurd hb List.not_mem_nil⟩

theorem Enrolled.paramsSeen (h : Enrolled start conveniences types [] d) (m : Module) :
    ParamsSeen start conveniences types m [] [] d :=
  ⟨⟨h, fun _ hname => absurd hname List.not_mem_nil⟩, fun _ hp => absurd hp List.not_mem_nil⟩

theorem safe_registerTypes (m : Module) :
    Safe Intact (Enrolled start conveniences [] []) (m.types.filterMapM (registerType m))
      (TypesSeen start conveniences m m.types) :=
  (safe_filterMapM (motive := TypesSeen start conveniences m)
    fun _ _ _ _ hall => safe_registerType hall).imp (fun _ hd => hd.typesSeen m) fun _ _ hd => hd

theorem safe_registerConstants (m : Module) :
    Safe Intact (Enrolled start conveniences types []) (m.constants.forM (registerConstant m))
      fun _ => Enrolled start conveniences types [] :=
  safe_forM (motive := fun _ => Enrolled start conveniences types [])
    fun _ constant _ _ => safe_registerConstant constant

theorem safe_registerParams (m : Module) :
    Safe Intact (Enrolled start conveniences types []) (m.params.filterMapM (registerParam m))
      (ParamsSeen start conveniences types m m.params) :=
  (safe_filterMapM (motive := ParamsSeen start conveniences types m)
    fun _ _ _ _ hall => safe_registerParam hall).imp (fun _ hd => hd.paramsSeen m) fun _ _ hd => hd

theorem safe_registerElements (elements : List EnumElement) :
    Safe Intact (Enrolled start conveniences types params) (elements.forM (registerElement m))
      fun _ => Enrolled start conveniences types params :=
  safe_forM (motive := fun _ => Enrolled start conveniences types params)
    fun _ element _ _ => safe_registerElement element

/-- Registering ends, whatever errors the module has, and the table is complete. -/
theorem safe_registerDeclarations (m : Module) :
    Safe Intact (Enrolled start [] [] []) (registerDeclarations m) fun declarations =>
      Registered m start declarations := by
  refine (safe_registerConveniences m).bind fun conveniences => (safe_registerTypes m).bind
    fun types => ?_
  refine Safe.bind (Q := fun _ d => Enrolled start conveniences types [] d ∧ FirstTypes m types) ?_
    fun _ => ?_
  · exact fun d hd => (safe_registerConstants m).imp (fun d hd => hd)
      (fun _ d hd' => ⟨hd', hd.2⟩) d hd.1.toEnrolled
  have hrest : ∀ params, Safe Intact (fun d => Enrolled start conveniences types params d ∧
      FirstTypes m types ∧ FirstParams m params) (do
        (Node.module m).enumElements.forM (registerElement m)
        writeConveniences conveniences
        return { types, params }) fun declarations => Registered m start declarations := by
    refine fun params d hd => ((safe_registerElements _).bind fun _ =>
        safe_writeConveniences.bind fun _ => safe_pure fun d' hd' => ?_) d hd.1
    obtain ⟨d₀, henrolled, hnames, hwritten⟩ := hd'
    exact henrolled.registered hnames hwritten hd.2.1 hd.2.2
  refine Safe.ite (fun _ => Safe.bind (fun d hd => ?_) hrest) fun _ =>
    (safe_pure fun d hd => ⟨hd.1, hd.2, fun _ hp => absurd hp List.not_mem_nil⟩).bind hrest
  exact (safe_registerParams m).imp (fun d hd => hd)
    (fun _ d hd' => ⟨hd'.1.toEnrolled, hd.2, hd'.2⟩) d hd.1

end Draft

end ManySorted
