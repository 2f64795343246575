import ManySorted.Proofs.Declaration.Resolving

/-!
# Forms that speak of what is there

The forms of conveniences, types, parameters and constants are closed.  Opening the unions of a
position brings in the members of unions, which are closed, and what other unions accept by their
forms, which are closed as well (`closed_flatten`).

## Strategy

* **Opening unions** brings in what members give at once and what other unions accept, all of which
  is closed (`closed_flatten`, `Table.closed_acceptedAt`).
* **Conveniences** accept sorts and constants of the table (`Table.closed_convenienceValues`).
* **Writing.**  A closed form that fits keeps the table sound (`Table.Sound.setCanonical`).  What is
  left to write stays as it is meanwhile (`Draft.Writing`, `Draft.lasting_writing`).
* **Declaring.**  Types, parameters and constants are written in turn, so after the declarations
  everything that the module declares is in order (`Draft.enlarges_declare`).
-/

namespace ManySorted

theorem closed_flatten {t : Table} {known : SymbolId → AcceptedValues} {unopened : UnionMembers}
    {stack : List Member} {out : AcceptedValues} (hknown : ∀ u, (known u).Closed t)
    (hunopened : ∀ entry ∈ unopened, ∀ m ∈ entry.2, m.Closed t)
    (hstack : ∀ m ∈ stack, m.Closed t) (hout : out.Closed t) :
    (flatten known unopened stack out).Closed t := by
  fun_induction flatten known unopened stack out with
  | case1 => exact hout
  | case2 unopened out values rest ih =>
      refine ih hunopened (fun m hm => hstack m (List.mem_cons_of_mem _ hm)) ?_
      exact hout.union (hstack _ List.mem_cons_self)
  | case3 unopened out u rest entry hfound ih =>
      have hentry : entry ∈ unopened := List.mem_of_find?_eq_some hfound
      refine ih (fun e he => hunopened e (List.mem_filter.1 he).1) (fun m hm => ?_) hout
      rcases List.mem_append.1 hm with hm | hm
      · exact hunopened entry hentry m hm
      · exact hstack m (List.mem_cons_of_mem _ hm)
  | case4 unopened out u rest hfound ih =>
      refine ih hunopened (fun m hm => hstack m (List.mem_cons_of_mem _ hm)) ?_
      exact hout.union (hknown u)

namespace Table

variable {names : Interner} {t t' : Table} {x : SymbolId}

theorem closed_acceptedAt (h : ∀ {x}, t.Holds x → (t.symbolAt x).Closed t) {unions : UnionMembers}
    {p : Position} (hunions : ∀ entry ∈ unions, ∀ m ∈ entry.2, m.Closed t) (hp : p.Closed t) :
    (t.acceptedAt unions p).Closed t := by
  refine closed_flatten (fun u => ?_) hunions hp (AcceptedValues.closed_empty t)
  unfold knownUnion
  split
  · exact AcceptedValues.closed_empty t
  · cases hv : (t.symbolAt u).accepted? 0 with
    | none => exact AcceptedValues.closed_empty t
    | some v => exact closed_accepted h hv

/-! ## Conveniences -/

theorem symbol_eq_symbolAt (h : t.Arena) {s : Symbol} (hs : s ∈ t.symbols.toList) :
    t.Holds s.id ∧ t.symbolAt s.id = s := by
  obtain ⟨id, hid, rfl⟩ := mem_symbols_toList.1 hs
  rw [h.id_eq hid]
  exact ⟨hid, rfl⟩

theorem closed_allSorts (h : t.Arena) : t.allSorts.Closed t := by
  rw [allSorts, ← Array.foldl_toList]
  refine List.foldlRecOn (motive := fun v => AcceptedValues.Closed t v) _ _
    (AcceptedValues.closed_empty t) fun v hv s hs => ?_
  obtain ⟨_, hat⟩ := symbol_eq_symbolAt h hs
  split
  · next hkind =>
      cases hsort : s.kind with
      | userSort d size => exact hv.addSort ⟨d, by rw [kindOf, hat, hsort]; rfl⟩
      | _ => simp [hsort] at hkind
  · exact hv

theorem closed_allConstants (h : t.Arena) : t.allConstants.Closed t := by
  rw [allConstants, ← Array.foldl_toList]
  refine List.foldlRecOn (motive := fun v => AcceptedValues.Closed t v) _ _
    (AcceptedValues.closed_empty t) fun v hv s hs => ?_
  obtain ⟨_, hat⟩ := symbol_eq_symbolAt h hs
  have hconstant : ∀ kind, s.kind = .userConstant kind → (v.addConstant s.id).Closed t :=
    fun kind hkind => hv.addConstant (by rw [IsConstant, kindOf, hat, hkind]; rfl)
  split
  · exact hconstant _ ‹_›
  · exact hconstant _ ‹_›
  · exact hconstant _ ‹_›
  · exact hv

theorem closed_convenienceValues (h : t.Arena) (c : Convenience) :
    (t.convenienceValues c).Closed t := by
  cases c with
  | any => exact ((closed_allSorts h).union (closed_allConstants h)).addBase _
  | data => exact closed_allSorts h
  | constant => exact closed_allConstants h

theorem closed_singleton {v : AcceptedValues} (h : v.Closed t) :
    (CanonicalForm.mk [v]).Closed t := List.forall_mem_singleton.2 h

/-- Writing the form of a symbol that the module declares and that is no data. -/
theorem Sound.setCanonical (h : t.Sound names) {kind : SymbolKind} {arity : Nat}
    {form : CanonicalForm} (hdeclares : t.Declares x kind arity) (hdata : kind.isData = false)
    (hsort : ∀ d, kind ≠ .userSort d none) (hform : form.Closed t)
    (hplain : ∀ constant, kind = .userConstant constant → constant ≠ .parameter → form = {})
    (hset : t.setCanonical x form = .ok t') : t.Extends t' ∧ t'.Sound names := by
  have hkind := hdeclares.kind_eq
  have hwritten := h.written_setCanonical hset hdeclares.owns hform ?_ ?_ ?_
  · exact ⟨hwritten.extends, h.written hwritten⟩
  · cases hx : t.kindOf x with
    | data shape info =>
        rw [hx] at hkind
        rw [← hkind] at hdata
        cases hdata
    | _ => rfl
  · rintro ⟨d, hd⟩
    exact hsort d (hkind.symm.trans hd)
  · intro constant hconstant
    rw [hconstant] at hkind
    exact hplain constant hkind.symm

/-! ## Constants -/

/-- Constants other than parameters have a form without positions. -/
def ConstantsFormed (t : Table) : Prop :=
  ∀ x kind, t.kindOf x = .userConstant kind → kind ≠ .parameter →
    (t.symbolAt x).canonical = some {}

/-- A constant that lacks its form is the module's own. -/
theorem Sound.declares_of_lacking (h : t.Sound names) {s : Symbol} (hs : s ∈ t.symbols.toList)
    (hlacks : lacksConstantForm s = true) :
    ∃ kind, kind ≠ .parameter ∧ t.Declares s.id (.userConstant kind) s.arity := by
  obtain ⟨hholds, hat⟩ := symbol_eq_symbolAt h.regular.arena hs
  unfold lacksConstantForm at hlacks
  simp only [Bool.and_eq_true] at hlacks
  obtain ⟨⟨hnone, _⟩, hconstant⟩ := hlacks
  cases hkind : s.kind with
  | userConstant kind =>
      have hvalue : kind ≠ .parameter := by simpa [hkind] using hconstant
      have hkind' : t.kindOf s.id = .userConstant kind := by rw [kindOf, hat, hkind]
      refine ⟨kind, hvalue, owns_of_origin hholds ?_ (by rw [hkind']; rfl), by rw [hkind']; rfl,
        by rw [hat]⟩
      cases horigin : (t.symbolAt s.id).origin with
      | none => rfl
      | some o =>
          have hform := h.imported hkind' hvalue (by rw [Symbol.isImported, horigin]; rfl)
          rw [hat] at hform
          rw [hform] at hnone
          cases hnone
  | _ => simp [hkind] at hconstant

theorem Sound.writeConstantForms (h : t.Sound names) (hwrite : t.writeConstantForms = .ok t') :
    t.Extends t' ∧ t'.Sound names ∧ t'.ConstantsFormed := by
  have hstep : ∀ x ∈ (t.symbols.toList.filter lacksConstantForm).map Symbol.id, ∀ t₁ t₂ : Table,
      (t.Extends t₁ ∧ t₁.Sound names ∧ ∀ x, t₁.Holds x → t.Holds x) →
      t₁.setCanonical x {} = .ok t₂ →
      (t.Extends t₂ ∧ t₂.Sound names ∧ ∀ x, t₂.Holds x → t.Holds x) ∧
        (t₂.symbolAt x).canonical = some {} ∧
        ∀ y, (t₁.symbolAt y).canonical = some {} → (t₂.symbolAt y).canonical = some {} := by
    intro x hx t₁ t₂ ht₁ hset
    obtain ⟨s, hs, rfl⟩ := List.mem_map.1 hx
    obtain ⟨hs, hlacks⟩ := List.mem_filter.1 hs
    obtain ⟨kind, hvalue, hdeclares⟩ := h.declares_of_lacking hs hlacks
    have hdeclares₁ := hdeclares.later ht₁.1.later
    obtain ⟨hext, hsound⟩ := ht₁.2.1.setCanonical hdeclares₁ rfl (fun _ h => by cases h)
      (fun v hv => absurd hv List.not_mem_nil) (fun _ _ _ => rfl) hset
    obtain ⟨htouched, _, hat⟩ := touched_setCanonical hset hdeclares₁.owns.holds
    refine ⟨⟨ht₁.1.trans hext, hsound, fun y hy => ht₁.2.2 y ((htouched.holds y).1 hy)⟩, ?_,
      fun y hy => ?_⟩
    · rw [hat]
    · by_cases hne : y = s.id
      · rw [hne, hat]
      · rwa [htouched.same (by simpa using hne)]
  obtain ⟨⟨hext, hsound, hheld⟩, hall⟩ := foldlM_ok_each hwrite ⟨.refl t, h, fun _ hx => hx⟩ hstep
  refine ⟨hext, hsound, fun x kind hkind hvalue => ?_⟩
  have hx := hheld x (holds_of_constant hkind)
  have hkind' : t.kindOf x = .userConstant kind := by
    have hsame := hext.later.unsized_kindOf hx
    rw [hkind] at hsame
    exact SymbolKind.unsized_eq_userConstant.1 hsame.symm
  cases hform : (t.symbolAt x).canonical with
  | some form => rw [(hext.later.symbol hx).canonical hform, h.plain hkind' hvalue hform]
  | none =>
      refine hall x (List.mem_map.2 ⟨t.symbolAt x, List.mem_filter.2 ⟨?_, ?_⟩, ?_⟩)
      · exact mem_symbols_toList.2 ⟨x, hx, rfl⟩
      · simp [lacksConstantForm, hform, h.unfailed hx,
          show (t.symbolAt x).kind = .userConstant kind from hkind', hvalue]
      · exact h.regular.arena.id_eq hx

end Table

namespace Draft

/-! ## Registering, with the forms of conveniences -/

theorem enlarges_writeConveniences (conveniences : List (Convenience × SymbolId)) :
    Enlarges (fun d => ∀ p ∈ conveniences, d.table.Declares p.2 (.union (some p.1)) 0)
      (writeConveniences conveniences) fun _ _ => True := by
  refine enlarges_getTable_bind fun t => ?_
  have hlasting : Lasting fun d =>
      (∀ p ∈ conveniences, d.table.Declares p.2 (.union (some p.1)) 0) ∧
        ∀ c, (t.convenienceValues c).Closed d.table :=
    fun _ _ hext h => ⟨fun p hp => (h.1 p hp).later hext.table.later,
      fun c => (h.2 c).later hext.table.later⟩
  refine Enlarges.of_sound ((enlarges_forM hlasting fun p hp => ?_).imp (fun _ hd => hd)
    fun _ _ _ => trivial) fun d hsound hd => ⟨hd.1, fun c => ?_⟩
  · refine enlarges_tryModifyTable (proceeds_setCanonical ..) fun d table hsound hd hset => ?_
    obtain ⟨hext, hsound'⟩ := hsound.setCanonical (hd.1 p hp) rfl (fun _ h => by cases h)
      (Table.closed_singleton (hd.2 p.1)) (fun _ h => by cases h) hset
    exact ⟨hext, hsound', trivial⟩
  · rw [hd.2]
    exact Table.closed_convenienceValues (hd.2 ▸ hsound.regular.arena) c

/-- What the module declares is registered. -/
structure Registers (declarations : Declarations) (d : Draft) : Prop where
  types : ∀ decl ∈ declarations.types, d.table.DeclaresType decl.decl.body decl.symbol
  params : ∀ p ∈ declarations.params, d.table.Declares p.symbol (.userConstant .parameter) 0

theorem lasting_registers (declarations : Declarations) : Lasting (Registers declarations) :=
  fun _ _ hext h => ⟨fun decl hdecl => (h.types decl hdecl).later hext.table.later,
    fun p hp => (h.params p hp).later hext.table.later⟩

theorem enlarges_registerDeclarations (m : Module) :
    Enlarges (fun _ => True) (registerDeclarations m) Registers := by
  have hconveniences : ∀ conveniences : List (Convenience × SymbolId), Lasting fun d =>
      ∀ p ∈ conveniences, d.table.Declares p.2 (.union (some p.1)) 0 :=
    fun l => lasting_forall_mem l fun p => lasting_declares _ _ _
  have hrest : ∀ conveniences types params, Enlarges
      (fun d => (∀ p ∈ conveniences, d.table.Declares p.2 (.union (some p.1)) 0) ∧
        Registers { types, params } d)
      (do
        (Node.module m).enumElements.forM (registerElement m)
        writeConveniences conveniences
        return ({ types, params } : Declarations)) Registers := by
    intro conveniences types params
    refine (enlarges_forM ((hconveniences conveniences).and (lasting_registers _))
      fun element _ => (enlarges_registerElement m element).imp (fun _ _ => trivial)
        fun _ _ hd => hd).bind fun _ => ?_
    refine ((enlarges_writeConveniences conveniences).frame (lasting_registers _)).bind fun _ => ?_
    exact enlarges_pure fun _ hd => hd.2
  refine (enlarges_registerConveniences m).bind fun conveniences => ?_
  have htypes := enlarges_filterMapM (l := m.types) (hconveniences conveniences)
    (fun b => lasting_declaresType b.decl.body b.symbol) fun decl _ =>
      (enlarges_registerType m decl).imp (fun _ _ => trivial) fun _ _ hd => hd
  refine htypes.bind fun types => ?_
  have hlasting := (hconveniences conveniences).and
    (lasting_forall_mem types fun b => lasting_declaresType b.decl.body b.symbol)
  refine (enlarges_forM hlasting fun constant _ => (enlarges_registerConstant m constant).imp
    (fun _ _ => trivial) fun _ _ hd => hd).bind fun _ => ?_
  dsimp only
  refine .ite (fun _ => ?_) fun _ => ?_
  · have hparams := enlarges_filterMapM (l := m.params) hlasting
      (fun b => lasting_declares b.symbol (.userConstant .parameter) 0) fun param _ =>
        (enlarges_registerParam m param).imp (fun _ _ => trivial) fun _ _ hd => hd
    refine hparams.bind fun params => ?_
    exact (hrest conveniences types params).imp (fun _ hd => ⟨hd.1.1, hd.1.2, hd.2⟩)
      fun _ _ hd => hd
  · exact (hrest conveniences types []).imp
      (fun _ hd => ⟨hd.1, hd.2, fun p hp => absurd hp List.not_mem_nil⟩) fun _ _ hd => hd

/-! ## The forms of declarations -/

/-- What is left to write: types and parameters, with the members of the unions among them. -/
structure Writing (unions : UnionMembers) (types : List ResolvedType)
    (params : List ResolvedParam) (d : Draft) : Prop where
  unions : ∀ entry ∈ unions, ∀ m ∈ entry.2, m.Closed d.table
  types : ∀ r ∈ types, d.table.Resolves r
  params : ∀ r ∈ params, d.table.ResolvesParam r

theorem lasting_writing (unions : UnionMembers) (types : List ResolvedType)
    (params : List ResolvedParam) : Lasting (Writing unions types params) :=
  fun d d' hext h => ⟨fun entry he m hm => (h.unions entry he m hm).later hext.table.later,
    fun r hr => lasting_resolves r d d' hext (h.types r hr),
    fun r hr => lasting_resolvesParam r d d' hext (h.params r hr)⟩

theorem enlarges_writeTypeForm {unions : UnionMembers} {types : List ResolvedType}
    {params : List ResolvedParam} {r : ResolvedType} (hr : r ∈ types) :
    Enlarges (Writing unions types params) (writeTypeForm unions r) fun _ _ => True := by
  refine (enlarges_tick (lasting_writing unions types params)).bind fun _ => ?_
  refine enlarges_getTable_bind fun t => .ite (fun _ => ?_) fun _ =>
    enlarges_pure fun _ _ => trivial
  refine enlarges_tryModifyTable (proceeds_tryModifyTable fun _ _ => Table.onward_writeForm)
    fun d table hsound hd hwrite => ?_
  obtain ⟨hd, rfl⟩ := hd
  have hform : (CanonicalForm.mk (r.positions.map (d.table.acceptedAt unions))).Closed d.table := by
    intro v hv
    obtain ⟨p, hp, rfl⟩ := List.mem_map.1 hv
    exact Table.closed_acceptedAt hsound.closed hd.unions ((hd.types r hr).closed p hp)
  rcases (hd.types r hr).declares with hunion | ⟨shape, info, hdata⟩
  · have hset : d.table.setCanonical r.symbol
        ⟨r.positions.map (d.table.acceptedAt unions)⟩ = .ok table := by
      have hkind : (d.table.kindOf r.symbol).info? = none := by
        have hkind := hunion.kind_eq
        cases h : d.table.kindOf r.symbol <;> rw [h] at hkind <;> first | rfl | cases hkind
      rw [Table.writeForm, hkind] at hwrite
      exact hwrite
    obtain ⟨hext, hsound'⟩ := hsound.setCanonical hunion rfl (fun _ h => by cases h) hform
      (fun _ h => by cases h) hset
    exact ⟨hext, hsound', trivial⟩
  · have hkind := SymbolKind.unsized_eq_data.1 hdata.kind_eq
    have hsize : (CanonicalForm.mk (r.positions.map (d.table.acceptedAt unions))).size =
        (d.table.symbolAt r.symbol).arity := by
      rw [hdata.arity_eq, CanonicalForm.size, List.length_map]
    have hwritten := Table.Sound.written_writeForm hsound hwrite hkind hdata.owns hform hsize
    exact ⟨hwritten.extends, Table.Sound.written hsound hwritten, trivial⟩

theorem enlarges_writeParamForm {unions : UnionMembers} {types : List ResolvedType}
    {params : List ResolvedParam} {r : ResolvedParam} (hr : r ∈ params) :
    Enlarges (Writing unions types params) (writeParamForm unions r) fun _ _ => True := by
  unfold writeParamForm
  cases htype : r.type with
  | none => exact enlarges_pure fun _ _ => trivial
  | some position =>
      refine enlarges_getTable_bind fun t => ?_
      refine enlarges_tryModifyTable (proceeds_setCanonical ..) fun d table hsound hd hset => ?_
      obtain ⟨hd, rfl⟩ := hd
      have hposition := (hd.params r hr).closed position htype
      obtain ⟨hext, hsound'⟩ :=
        hsound.setCanonical (hd.params r hr).declares rfl (fun _ h => by cases h)
        (Table.closed_singleton (Table.closed_acceptedAt hsound.closed hd.unions hposition))
        (fun constant heq hvalue => absurd (SymbolKind.userConstant.inj heq).symm hvalue) hset
      exact ⟨hext, hsound', trivial⟩

theorem enlarges_writeForms (types : List ResolvedType) (params : List ResolvedParam) :
    Enlarges (fun d => (∀ r ∈ types, d.table.Resolves r) ∧ ∀ r ∈ params, d.table.ResolvesParam r)
      (writeForms types params) fun _ d => d.table.ConstantsFormed := by
  have htypes := lasting_forall_mem types lasting_resolves
  refine (enlarges_spreadFailures (htypes.and (lasting_forall_mem params lasting_resolvesParam))
    types _).bind fun _ => ?_
  refine Enlarges.bind (Q := fun params d =>
    (∀ r ∈ types, d.table.Resolves r) ∧ ∀ r ∈ params, d.table.ResolvesParam r) ?_ fun params => ?_
  · refine (enlarges_mapM (htypes.and (lasting_forall_mem params lasting_resolvesParam))
      lasting_resolvesParam fun r hr => ?_).imp (fun _ hd => hd) fun _ _ hd => ⟨hd.1.1, hd.2⟩
    exact (enlarges_spreadToParam r).imp (fun _ hd => hd.2 r hr) fun _ _ hd => hd
  refine enlarges_getTable_bind fun t => ?_
  refine Enlarges.bind (Q := fun _ => Writing (t.unionMembers types) types params) ?_ fun _ => ?_
  · refine (enlarges_forM (lasting_writing _ types params) fun r hr =>
      enlarges_writeTypeForm hr).imp (fun d hd => ⟨fun entry he m hm => ?_, hd.1.1, hd.1.2⟩)
      fun _ _ hd => hd
    obtain ⟨r, hr, rfl⟩ := List.mem_map.1 he
    obtain ⟨p, hp, hm⟩ := List.mem_flatMap.1 hm
    exact (hd.1.1 r (List.mem_filter.1 hr).1).closed p hp m hm
  refine (enlarges_forM (lasting_writing _ types params) fun r hr =>
    enlarges_writeParamForm hr).bind fun _ => ?_
  refine enlarges_tryModifyTable ?_ fun d table hsound hd hwrite => hsound.writeConstantForms hwrite
  exact proceeds_tryModifyTable fun t t' h =>
    Table.onward_foldlM (fun _ _ _ => Table.onward_setCanonical) h

/-- After the declarations, everything that the module declares is in order. -/
theorem enlarges_declare (m : Module) :
    Enlarges (fun _ => True) (declare m) fun _ d => d.table.ConstantsFormed := by
  refine (enlarges_registerDeclarations m).bind fun declarations => ?_
  have htypes := enlarges_mapM (l := declarations.types) (lasting_registers declarations)
    lasting_resolves fun decl hdecl => (enlarges_resolveType m decl).imp
      (fun _ hd => hd.types decl hdecl) fun _ _ hd => hd
  refine htypes.bind fun types => ?_
  have hparams := enlarges_mapM (l := declarations.params)
    ((lasting_registers declarations).and (lasting_forall_mem types lasting_resolves))
    lasting_resolvesParam fun param hparam => (enlarges_resolveParam m param).imp
      (fun _ hd => hd.1.params param hparam) fun _ _ hd => hd
  refine hparams.bind fun params => ?_
  refine ((enlarges_writeForms types params).imp (fun _ hd => ⟨hd.1.2, hd.2⟩)
    fun _ _ hd => hd).bind fun _ => ?_
  refine enlarges_aside (proceeds_modify fun d => .of_table (d.table.onward_reportAll _))
    (fun _ => rfl) (fun d => d.table.reportAll_eq _) fun d hd _ => ?_
  obtain ⟨_, _, hsymbols⟩ := d.table.reportAll_eq
    (d.table.restrictionReports d.names m types (params.map ResolvedParam.symbol))
  intro x kind
  rw [Table.kindOf, Table.symbolAt, hsymbols]
  exact hd x kind

end Draft

end ManySorted
