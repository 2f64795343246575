import ManySorted.Proofs.Draft.Enlarging
import ManySorted.Proofs.Draft.Passes

/-!
# Registering what a module declares

Declarations are registered in the root under legal names.  Each gives a symbol of the module with
nothing written to it (`Table.Declares`); a constructor or map has as many arguments as positions.

## Strategy

* **Names.**  A name that is used without an error is legal (`Draft.enlarges_checkId`), and legal
  names fit every kind (`Interner.Proper.fitting`).
* **Single symbols.**  A symbol that is no data symbol, or a data symbol with its companions, is
  declared once it is registered (`Table.Sound.register`, `Table.Sound.registerData`).
* **Declarations.**  Whatever is declared stays declared (`Draft.lasting_declares`), so the parts of
  a declaration, and the declarations of a module, are gone through one after the other.
-/

namespace ManySorted

namespace Interner

variable {names names' : Interner} {name : Name}

/-- A declaration may have the name. -/
structure Fitting (names : Interner) (name : Name) : Prop where
  knows : names.Knows name
  named : name.isEmpty = false
  plain : ¬ Hashed (names.text name)

theorem Fitting.grown (h : names.Fitting name) (hnames : names.Grown names') :
    names'.Fitting name where
  knows := hnames.knows h.knows
  named := h.named
  plain := by rw [hnames.text h.knows]; exact h.plain

theorem Proper.fitting (hnames : names.Proper) (hknows : names.Knows name)
    (hempty : names.text name ≠ "") (hplain : ¬ Hashed (names.text name)) :
    names.Fitting name where
  knows := hknows
  named := Bool.eq_false_iff.2 fun h => hempty ((hnames.isEmpty_iff hknows).1 h)
  plain := hplain

theorem Proper.fitting_of_isLegalId (hnames : names.Proper)
    (h : isLegalId (names.text name) = true) : names.Fitting name := by
  refine hnames.fitting (knows_of_isLegalId h) (fun hempty => ?_) (not_hashed_of_isLegalId h)
  rw [hempty] at h
  cases h

end Interner

namespace Table

variable {names : Interner} {t t' : Table} {id : SymbolId} {kind : SymbolKind} {arity : Nat}

/-- The module declares a symbol of the given kind and arity. -/
structure Declares (t : Table) (id : SymbolId) (kind : SymbolKind) (arity : Nat) : Prop where
  owns : t.Owns id
  kind_eq : (t.kindOf id).unsized = kind
  arity_eq : (t.symbolAt id).arity = arity

theorem Declares.later (h : t.Declares id kind arity) (hlater : t.Later t') :
    t'.Declares id kind arity where
  owns := h.owns.later hlater
  kind_eq := (hlater.unsized_kindOf h.owns.holds).trans h.kind_eq
  arity_eq := (hlater.arity_symbolAt h.owns.holds).trans h.arity_eq

/-- The module declares a type with the given body. -/
def DeclaresType (t : Table) (body : TypeBody) (id : SymbolId) : Prop :=
  t.Declares id (.union none) 0 ∨
    ∃ shape info, t.Declares id (.data shape info) body.positions.length

theorem DeclaresType.later {body : TypeBody} (h : t.DeclaresType body id) (hlater : t.Later t') :
    t'.DeclaresType body id := by
  rcases h with h | ⟨shape, info, h⟩
  · exact .inl (h.later hlater)
  · exact .inr ⟨shape, info, h.later hlater⟩

/-- A symbol that is neither a data symbol nor a companion. -/
theorem Sound.register (h : t.Sound names) {name : Name} (arity : Nat) (location : Location)
    (hname : names.Fitting name) (hfree : t.Free .root name) (hbase : kind.isBase = false)
    (hdata : kind.isData = false) (hcompanion : kind.isCompanion = false)
    (hnullary : kind.isConstant = true → arity = 0) :
    t.Extends (t.withSymbol .root name arity location kind) ∧
      (t.withSymbol .root name arity location kind).Sound names ∧
      (t.withSymbol .root name arity location kind).Declares ⟨t.symbols.size⟩ kind arity := by
  have hroot := h.regular.tree.root
  have hnone := hfree.of_named hname.named
  have hadded : t.Added (t.withSymbol .root name arity location kind) :=
    added_withSymbol hroot hnone hbase hcompanion hnullary
  have hregular : (t.withSymbol .root name arity location kind).Regular names :=
    h.regular.withSymbol hroot hnone hname.knows hname.named hname.plain hdata hcompanion
      (fun hkind => absurd (hkind.symm.trans hbase) Bool.noConfusion) fun _ => rfl
  have hsymbol : (t.withSymbol .root name arity location kind).symbolAt ⟨t.symbols.size⟩ =
      { id := ⟨t.symbols.size⟩, name, home := .root, arity, location, kind } := by
    rw [symbolAt_withSymbol, if_pos rfl]
  refine ⟨hadded.extends, h.added hadded hregular, hadded.owns ?_ (Nat.lt_irrefl _), ?_, ?_⟩
  · exact holds_withSymbol.2 (Nat.le_refl _)
  · rw [kindOf, hsymbol]
    cases kind <;> first | rfl | cases hcompanion
  · rw [hsymbol]

theorem Sound.registerData (h : t.Sound names) {names' : Interner} {name hashed : Name}
    (hname : names.Fitting name) (hfree : (t.namespaceAt .root).symbol? name = none)
    (hdata : DataRegistered names t .root name hashed names') (arity : Nat) (location : Location)
    (shape : DataShape) (labels : List (Option Name)) (any : List Bool) :
    t.Extends (t.withData hashed .root name arity location shape labels any) ∧
      (t.withData hashed .root name arity location shape labels any).Sound names' ∧
      ∃ info, (t.withData hashed .root name arity location shape labels any).Declares
        ⟨t.symbols.size⟩ (.data shape info) arity := by
  have hroot := h.regular.tree.root
  have hadded : t.Added (t.withData hashed .root name arity location shape labels any) :=
    added_withData hroot hfree hdata
  have hregular : (t.withData hashed .root name arity location shape labels any).Regular names' :=
    h.regular.withData hroot hname.knows hname.named hname.plain hfree hdata
  have hholds : (t.withData hashed .root name arity location shape labels any).Holds
      ⟨t.symbols.size⟩ := holds_withData.2 (Nat.lt_add_of_pos_right (by decide))
  refine ⟨hadded.extends, h.added hadded hregular,
    { labels, any, sort := ⟨t.symbols.size + 1⟩, typeConstant := ⟨t.symbols.size + 2⟩ },
    hadded.owns hholds (Nat.lt_irrefl _), ?_, ?_⟩
  · rw [kindOf, symbolAt_withData, if_pos rfl]
    rfl
  · rw [symbolAt_withData, if_pos rfl]

end Table

namespace Draft

variable {P : Draft → Prop} {name : Name} {kind : SymbolKind} {arity : Nat} {location : Location}

theorem lasting_declares (id : SymbolId) (kind : SymbolKind) (arity : Nat) :
    Lasting fun d => d.table.Declares id kind arity := fun _ _ hext h => h.later hext.table.later

theorem lasting_declaresType (body : TypeBody) (id : SymbolId) :
    Lasting fun d => d.table.DeclaresType body id := fun _ _ hext h => h.later hext.table.later

theorem lasting_true : Lasting fun _ => True := fun _ _ _ h => h

/-! ## Names -/

theorem enlarges_intern (s : String) :
    Enlarges (fun _ => True) (intern s) fun name d =>
      d.names.Knows name ∧ d.names.text name = s where
  proceeds := proceeds_intern s
  run {d name d'} hsound _ hrun _ := by
    cases hrun
    exact ⟨⟨d.names.grown_intern s, .refl _⟩,
      hsound.grown (d.names.grown_intern s) (hsound.regular.proper.intern s),
      d.names.knows_intern s, d.names.text_intern s⟩

/-- A name that is used without an error is legal. -/
theorem enlarges_checkId (location : Location) (name : Name) (usage : String) :
    Enlarges P (checkId location name usage) fun _ d => P d ∧ d.names.Fitting name where
  proceeds := proceeds_checkId ..
  run {d legal d'} hsound hd hrun hclean := by
    rw [checkId, getNames_bind, illegalId?] at hrun
    by_cases hlegal : isLegalId (d.names.text name) = true
    · rw [if_pos hlegal] at hrun
      cases hrun
      exact ⟨.refl _, hsound, hd, hsound.regular.proper.fitting_of_isLegalId hlegal⟩
    · rw [if_neg hlegal] at hrun
      cases hrun
      rw [Table.hasErrors_report, Bool.or_eq_false_iff] at hclean
      cases hclean.2

/-! ## Single symbols -/

theorem enlarges_register (hbase : kind.isBase = false) (hdata : kind.isData = false)
    (hcompanion : kind.isCompanion = false) (hnullary : kind.isConstant = true → arity = 0) :
    Enlarges (fun d => d.names.Fitting name) (register .root name arity location kind)
      fun r d => ∀ id, r = .ok id → d.table.Declares id kind arity where
  proceeds := proceeds_register ..
  run {d r d'} hsound hname hrun _ := by
    rcases d.table.register_cases .root name arity location kind with
      ⟨hfree, heq⟩ | ⟨existing, _, heq⟩
    · have hrun' : register .root name arity location kind d = .ok (.ok ⟨d.table.symbols.size⟩)
          { d with table := d.table.withSymbol .root name arity location kind } := by
        change EStateM.Result.ok _ _ = _
        rw [heq]
      rw [hrun'] at hrun
      cases hrun
      obtain ⟨hext, hsound', hdeclares⟩ := Table.Sound.register hsound arity location
        hname hfree hbase hdata hcompanion hnullary
      exact ⟨⟨.refl _, hext⟩, hsound', fun id hid => Except.ok.inj hid ▸ hdeclares⟩
    · have hrun' : register .root name arity location kind d = .ok (.error existing) d := by
        change EStateM.Result.ok _ _ = _
        rw [heq]
      rw [hrun'] at hrun
      cases hrun
      exact ⟨.refl _, hsound, fun id hid => by cases hid⟩

theorem enlarges_registerData {shape : DataShape} {labels : List (Option Name)}
    {any : List Bool} :
    Enlarges (fun d => d.names.Fitting name)
      (registerData .root name arity location shape labels any)
      fun r d => ∀ id, r = .ok id → ∃ info, d.table.Declares id (.data shape info) arity where
  proceeds := proceeds_registerData ..
  run {d r d'} hsound hname hrun _ := by
    rcases hsound.regular.registerData_cases hname.knows hname.named hname.plain .root arity
      location shape labels any with ⟨existing, _, heq⟩ | ⟨hfree, hashed, names', heq, hdata⟩
    · have hrun' : registerData .root name arity location shape labels any d =
          .ok (.error existing) d := by
        change EStateM.Result.ok _ _ = _
        rw [heq]
      rw [hrun'] at hrun
      cases hrun
      exact ⟨.refl _, hsound, fun id hid => by cases hid⟩
    · have hrun' : registerData .root name arity location shape labels any d =
          .ok (.ok ⟨d.table.symbols.size⟩) { d with
            names := names'
            table := d.table.withData hashed .root name arity location shape labels any } := by
        change EStateM.Result.ok _ _ = _
        rw [heq]
      rw [hrun'] at hrun
      cases hrun
      obtain ⟨hext, hsound', hdeclares⟩ := Table.Sound.registerData hsound hname hfree hdata
        arity location shape labels any
      exact ⟨⟨hdata.grown, hext⟩, hsound', fun id hid => Except.ok.inj hid ▸ hdeclares⟩

/-- A name that is illegal or taken is an error. -/
theorem enlarges_registerNamed {Q : SymbolId → Draft → Prop} {usage : String}
    {registration : DraftM (Except SymbolId SymbolId)}
    (h : Enlarges (fun d => d.names.Fitting name) registration
      fun r d => ∀ id, r = .ok id → Q id d) :
    Enlarges (fun _ => True) (registerNamed location name usage registration)
      fun r d => ∀ id, r = some id → Q id d := by
  refine (enlarges_checkId location name usage).bind fun legal => ?_
  refine .ite (fun _ => ?_) fun _ => enlarges_pure fun _ _ id hid => by cases hid
  refine (h.imp (fun _ hd => hd.2) fun _ _ hd => hd).bind fun r => ?_
  cases r with
  | ok id =>
      refine enlarges_pure fun d hd id' hid => ?_
      obtain rfl := Option.some.inj hid
      exact hd id rfl
  | error existing =>
      refine Enlarges.bind (Q := fun _ _ => True) ?_ fun _ =>
        enlarges_pure fun _ _ id hid => by cases hid
      exact enlarges_aside (proceeds_modify fun d => .of_table (d.table.onward_report _))
        (fun _ => rfl) (fun _ => ⟨rfl, rfl, rfl⟩) fun _ _ _ => trivial

/-! ## The declarations of a module -/

theorem plain_convenience (c : Convenience) : c.name ≠ "" ∧ ¬ Hashed c.name := by
  have hhead : c.name ≠ "" ∧ c.name.toList.head? ≠ some '#' := by
    cases c <;> decide
  refine ⟨hhead.1, ?_⟩
  rintro ⟨rest, heq⟩
  rw [heq] at hhead
  simp at hhead

theorem enlarges_registerConveniences (m : Module) :
    Enlarges (fun _ => True) (registerConveniences m) fun conveniences d =>
      ∀ p ∈ conveniences, d.table.Declares p.2 (.union (some p.1)) 0 := by
  refine (enlarges_filterMapM
    (F := fun (p : Convenience × SymbolId) d => d.table.Declares p.2 (.union (some p.1)) 0)
    lasting_true (fun _ => lasting_declares _ _ _) fun c _ => ?_).imp (fun _ hd => hd)
    fun _ _ hd => hd.2
  refine (enlarges_intern c.name).bind fun name => ?_
  have hregister : Enlarges (fun d => d.names.Knows name ∧ d.names.text name = c.name)
      (register .root name 0 (m.locate m.span) (.union (some c)))
      fun r d => ∀ id, r = .ok id → d.table.Declares id (.union (some c)) 0 := by
    refine ⟨proceeds_register .., fun {d r d'} hsound hd hrun hclean => ?_⟩
    refine (enlarges_register rfl rfl rfl fun _ => rfl).run hsound ?_ hrun hclean
    obtain ⟨hempty, hplain⟩ := plain_convenience c
    exact hsound.regular.proper.fitting hd.1 (hd.2 ▸ hempty) (hd.2 ▸ hplain)
  refine hregister.bind fun r => ?_
  cases r with
  | ok id =>
      refine enlarges_pure fun d hd b hb => ?_
      obtain rfl := Option.some.inj hb
      exact hd id rfl
  | error existing => exact enlarges_pure fun _ _ b hb => by cases hb

theorem enlarges_registerBody (decl : TypeDecl) (location : Location) :
    Enlarges (fun d => d.names.Fitting decl.name) (registerBody decl location)
      fun r d => ∀ id, r = .ok id → d.table.DeclaresType decl.body id := by
  unfold registerBody
  dsimp only
  cases hbody : decl.body with
  | union members =>
      exact (enlarges_register rfl rfl rfl fun _ => rfl).imp (fun _ hd => hd)
        fun _ _ hd id hid => .inl (hd id hid)
  | constructor isNew fields =>
      have hlength : (TypeBody.constructor isNew fields).positions.length = fields.length := by
        simp [TypeBody.positions, TypeBody.fields]
      refine enlarges_registerData.imp (fun _ hd => hd) fun _ _ hd id hid => ?_
      obtain ⟨info, hinfo⟩ := hd id hid
      exact .inr ⟨_, info, hlength.symm ▸ hinfo⟩
  | map kind isPartial domain codomain =>
      have hlength : (TypeBody.map kind isPartial domain codomain).positions.length =
          (domain ++ codomain).length := by
        simp [TypeBody.positions, TypeBody.fields]
      refine enlarges_registerData.imp (fun _ hd => hd) fun _ _ hd id hid => ?_
      obtain ⟨info, hinfo⟩ := hd id hid
      exact .inr ⟨_, info, hlength.symm ▸ hinfo⟩

theorem enlarges_registerType (m : Module) (decl : TypeDecl) :
    Enlarges (fun _ => True) (registerType m decl)
      fun r d => ∀ b, r = some b → d.table.DeclaresType b.decl.body b.symbol := by
  refine (enlarges_tick lasting_true).bind fun _ => ?_
  refine (enlarges_registerNamed (enlarges_registerBody decl _)).bind fun symbol => ?_
  refine enlarges_pure fun d hd b hb => ?_
  obtain ⟨id, hid, rfl⟩ := Option.map_eq_some_iff.1 hb
  exact hd id hid

theorem enlarges_registerConstant (m : Module) (constant : ConstantDecl) :
    Enlarges (fun _ => True) (registerConstant m constant) fun _ _ => True := by
  refine (enlarges_tick lasting_true).bind fun _ => ?_
  refine (enlarges_registerNamed (enlarges_register rfl rfl ?_ fun _ => rfl)).discard
    fun _ _ _ => trivial
  cases constant.kind <;> rfl

theorem enlarges_registerParam (m : Module) (param : Param) :
    Enlarges (fun _ => True) (registerParam m param) fun r d =>
      ∀ b, r = some b → d.table.Declares b.symbol (.userConstant .parameter) 0 := by
  cases param with
  | model reference => exact enlarges_pure fun _ _ b hb => by cases hb
  | value name type span =>
      refine (enlarges_registerNamed (enlarges_register rfl rfl rfl fun _ => rfl)).bind
        fun symbol => ?_
      refine enlarges_pure fun d hd b hb => ?_
      obtain ⟨id, hid, rfl⟩ := Option.map_eq_some_iff.1 hb
      exact hd id hid

theorem enlarges_addLiteral (literal : Literal) :
    Enlarges (fun _ => True) (addLiteral literal) fun _ _ => True :=
  enlarges_aside (proceeds_addLiteral literal) (fun _ => rfl) (fun _ => ⟨rfl, rfl, rfl⟩)
    fun _ _ _ => trivial

theorem enlarges_registerElement (m : Module) (element : EnumElement) :
    Enlarges (fun _ => True) (registerElement m element) fun _ _ => True := by
  refine (enlarges_tick lasting_true).bind fun _ => ?_
  cases element with
  | constant id =>
      refine enlarges_getTable_bind fun t => .ite (fun _ => ?_) fun _ =>
        enlarges_pure fun _ _ => trivial
      refine ((enlarges_checkId (P := fun _ => True) _ _ _).imp (fun _ _ => trivial)
        fun _ _ hd => hd.2).bind fun legal => ?_
      refine .ite (fun _ => ?_) fun _ => enlarges_pure fun _ _ => trivial
      exact (enlarges_register rfl rfl rfl fun _ => rfl).discard fun _ _ _ => trivial
  | literal literal => exact enlarges_addLiteral literal
  | range low high => exact (enlarges_addLiteral _).bind fun _ => enlarges_addLiteral _

end Draft

end ManySorted
