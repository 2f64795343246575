import ManySorted.Proofs.Declaration.Denotation

/-!
# The forms of declarations

Once the failures have spread, the forms of all that stands are written: of types, of parameters and
of the other constants, which have no positions.  Each is written to a symbol that has none, so
writing never breaks down, and a form accepts just what the type terms of its declaration denote
(`Draft.Declared`).  Forms are worked out while others are written already; this makes no
difference, since a position reads the forms of stored unions only.

## Strategy

* **What is opened.**  The unions to be opened are those of the module that stand, with the members
  of their declarations (`Draft.TypesStand.opens`).  This is settled before anything is written.
* **One form.**  The items that are written are kept in a list (`Draft.Inscribing`).  Writing one
  more form leaves the stored unions as they are (`Draft.Inscribing.stored`), so what is worked out
  next is still what the terms denote (`Draft.Inscribing.expresses`, `Draft.Inscribing.write`).
  Data that failed is passed over (`Draft.Inscribing.skip`).
* **Nothing is written twice.**  The symbols of types, parameters and constants differ, and a symbol
  of the module has nothing written to it but the form of a convenience
  (`Draft.Registered.blank_type`, `Draft.Registered.blank_param`,
  `Draft.Registered.blank_constant`).
* **All forms.**  Types, parameters and constants are written one after the other
  (`Draft.safe_writeTypeForms`, `Draft.safe_writeParamForms`,
  `Draft.ParamsInscribed.writeConstantForms`).  In the end what is found at a symbol is what was
  written to its item (`Draft.AllInscribed.declared`).
-/

namespace ManySorted

/-- The form accepts, position by position, what type terms denote. -/
structure CanonicalForm.Expresses (m : Module) (t : Table) (positions : List (List TypeTerm))
    (form : CanonicalForm) : Prop where
  size_eq : form.size = positions.length
  accepts_iff : ∀ {i terms v}, positions[i]? = some terms → form.get? i = some v →
    ∀ x, t.accepts v x = true ↔ ∃ term ∈ terms, Denotes m t term x

theorem CanonicalForm.expresses_nil (m : Module) (t : Table) :
    ({} : CanonicalForm).Expresses m t [] where
  size_eq := rfl
  accepts_iff hterms := by cases hterms

/-- Tables that are alike and agree on stored unions agree on what forms express. -/
theorem CanonicalForm.Expresses.alike {m : Module} {t t' : Table}
    {positions : List (List TypeTerm)} {form : CanonicalForm} (h : form.Expresses m t positions)
    (halike : t.Alike t')
    (hforms : ∀ u, t.isStored u = true → (t'.symbolAt u).canonical = (t.symbolAt u).canonical) :
    form.Expresses m t' positions where
  size_eq := h.size_eq
  accepts_iff {i terms v} hterms hv x := by
    have hback : ∀ u, t'.isStored u = true →
        (t.symbolAt u).canonical = (t'.symbolAt u).canonical := by
      intro u hu
      exact (hforms u ((halike.isStored u).symm.trans hu)).symm
    rw [Table.accepts_iff, halike.has, ← Table.accepts_iff, h.accepts_iff hterms hv x]
    constructor
    · rintro ⟨term, hterm, hdenotes⟩
      exact ⟨term, hterm, hdenotes.alike halike hforms⟩
    · rintro ⟨term, hterm, hdenotes⟩
      exact ⟨term, hterm, hdenotes.alike halike.symm hback⟩

namespace Table

variable {names : Interner} {t t' : Table} {unions : UnionMembers}

theorem Alike.isUnion (h : t.Alike t') (u : SymbolId) :
    (t'.kindOf u).isUnion = (t.kindOf u).isUnion := by
  by_cases hsort : t.IsSort u
  · have hnot : ∀ {t : Table}, t.IsSort u → (t.kindOf u).isUnion = false := by
      rintro t ⟨d, hd⟩
      cases hkind : t.kindOf u with
      | union _ =>
          rw [hkind] at hd
          cases hd
      | _ => rfl
    rw [hnot hsort, hnot (h.isSort.2 hsort)]
  · rw [h.kindOf hsort]

theorem formSize?_of_data {x : SymbolId} {shape : DataShape} {info : DataInfo}
    (hkind : t.kindOf x = .data shape info) :
    (t.symbolAt x).formSize? = some (t.symbolAt x).arity := by
  rw [kindOf] at hkind
  rw [Symbol.formSize?, hkind]

theorem formSize?_of_union {x : SymbolId} {convenience : Option Convenience}
    (hkind : t.kindOf x = .union convenience) : (t.symbolAt x).formSize? = some 1 := by
  rw [kindOf] at hkind
  rw [Symbol.formSize?, hkind]

theorem formSize?_of_parameter {x : SymbolId} (hkind : t.kindOf x = .userConstant .parameter) :
    (t.symbolAt x).formSize? = some 1 := by
  rw [kindOf] at hkind
  rw [Symbol.formSize?, hkind]

theorem formSize?_of_constant {x : SymbolId} {constant : ConstantKind}
    (hkind : t.kindOf x = .userConstant constant) (hvalue : constant ≠ .parameter) :
    (t.symbolAt x).formSize? = some 0 := by
  rw [kindOf] at hkind
  rw [Symbol.formSize?, hkind]
  cases constant with
  | parameter => exact absurd rfl hvalue
  | _ => rfl

/-- Nothing is written to what is built in. -/
theorem Intact.isBase_eq_false (h : t.Intact names) {x : SymbolId} {form : CanonicalForm}
    (hform : (t.symbolAt x).canonical = some form) : (t.kindOf x).isBase = false := by
  refine Bool.eq_false_iff.2 fun hbase => ?_
  have hsort : ¬ t.IsSort x := by
    rintro ⟨d, hd⟩
    rw [← SymbolKind.isBase_unsized, hd] at hbase
    cases hbase
  have hsize := h.form (holds_of_canonical hform) hsort hform
  rw [kindOf] at hbase
  unfold Symbol.formSize? at hsize
  split at hsize
  case h_5 => cases hsize
  all_goals
    next hkind =>
      rw [hkind] at hbase
      cases hbase

/-- Constants other than parameters have no positions. -/
theorem Intact.form_eq_empty (h : t.Intact names) {x : SymbolId} {form : CanonicalForm}
    {constant : ConstantKind} (hkind : t.kindOf x = .userConstant constant)
    (hvalue : constant ≠ .parameter) (hform : (t.symbolAt x).canonical = some form) :
      form = {} := by
  have hsort : ¬ t.IsSort x := by
    rintro ⟨d, hd⟩
    rw [hkind] at hd
    cases hd
  have hsize := h.form (holds_of_canonical hform) hsort hform
  rw [formSize?_of_constant hkind hvalue] at hsize
  exact congrArg CanonicalForm.mk (List.eq_nil_of_length_eq_zero (Option.some.inj hsize).symm)

theorem Arena.nodup_ids (h : t.Arena) : (t.symbols.toList.map Symbol.id).Nodup := by
  rw [List.nodup_iff_pairwise_ne, List.pairwise_iff_getElem]
  intro i j hi hj hlt heq
  have hid : ∀ {k : Nat} (hk : k < (t.symbols.toList.map Symbol.id).length),
      (t.symbols.toList.map Symbol.id)[k] = ⟨k⟩ := by
    intro k hk
    have hk' : k < t.symbols.size := by simpa using hk
    have hat : t.symbolAt ⟨k⟩ = t.symbols[k] := by simp [symbolAt, hk']
    rw [List.getElem_map, Array.getElem_toList, ← hat]
    exact h.id_eq hk'
  rw [hid hi, hid hj] at heq
  cases heq
  exact Nat.lt_irrefl _ hlt

end Table

/-- The unions that are opened do not depend on what is written. -/
theorem Opens.alike {m : Module} {t t' : Table} {stands : SymbolId → Prop} {unions : UnionMembers}
    (h : Opens m t stands unions) (halike : t.Alike t') : Opens m t' stands unions where
  own {u} hunion hown hu := by
    rw [halike.isUnion] at hunion
    rw [halike.isStored] at hown
    obtain ⟨decl, members, scope, hdecl, hbody, rfl, hfind, hstands⟩ := h.own hunion hown hu
    refine ⟨decl, members, { scope with table := t' }, ?_, hbody, rfl, ?_, ?_, ?_⟩
    · rw [halike.name]
      exact hdecl
    · rw [Scope.resolvePosition_alike halike]
      exact hfind
    · rw [Scope.resolvePosition_alike halike]
      exact hstands.ok
    · intro w hw hkind
      rw [Scope.resolvePosition_alike halike] at hw
      exact hstands.refs w hw ((halike.isUnion w).symm.trans hkind)
  stored hu := h.stored ((halike.isStored _).symm.trans hu)

namespace Draft

variable {m : Module} {origin : Table} {start base d : Draft} {declarations : Declarations}
  {unions : UnionMembers}

@[simp]
theorem resolved_symbol (d : Draft) (m : Module) (b : Declaration) :
    (d.resolved m b).symbol = b.symbol := rfl

/-! ## The unions that are opened -/

/-- Whether the symbol did not fail. -/
def Stands (d : Draft) (x : SymbolId) : Prop := (d.table.symbolAt x).failed = false

theorem find?_of_nodup {entries : UnionMembers} (hnodup : (entries.map Prod.fst).Nodup)
    {entry : SymbolId × List Member} (hentry : entry ∈ entries) :
    entries.find? entry.1 = some entry := by
  induction entries with
  | nil => cases hentry
  | cons head rest ih =>
      rw [List.map_cons, List.nodup_cons] at hnodup
      rcases List.mem_cons.1 hentry with rfl | hentry
      · simp [UnionMembers.find?]
      · have hne : head.1 ≠ entry.1 := by
          intro heq
          exact hnodup.1 (heq ▸ List.mem_map_of_mem hentry)
        have hskip : UnionMembers.find? (head :: rest) entry.1 = UnionMembers.find? rest
            entry.1 := by
          simp [UnionMembers.find?, hne]
        rw [hskip]
        exact ih hnodup.2 hentry

/-- The symbol of a type declaration is declared by the module and stores no form. -/
theorem Registered.not_isStored (h : Registered m origin declarations start) {b : Declaration}
    (hb : b ∈ declarations.types) : start.table.isStored b.symbol = false := by
  obtain ⟨howns, hkind⟩ := h.listsTypes.mem_iff.1 (List.mem_map_of_mem hb)
  have hconvenience : (start.table.kindOf b.symbol).convenience? = none := by
    cases hx : start.table.kindOf b.symbol with
    | union convenience =>
        cases convenience with
        | none => rfl
        | some c =>
            rw [hx] at hkind
            cases hkind
    | _ => rfl
  rw [Table.isStored, Symbol.isImported, howns.origin, hconvenience]
  rfl

/-- A union of the module that is no convenience comes from a declaration. -/
theorem Registered.exists_union (h : Registered m origin declarations start) {u : SymbolId}
    (hunion : (start.table.kindOf u).isUnion = true) (hown : start.table.isStored u = false) :
    ∃ b ∈ declarations.types, b.symbol = u ∧ ∃ members, b.decl.body = .union members := by
  rw [Table.isStored, Bool.or_eq_false_iff] at hown
  obtain ⟨himported, hconvenience⟩ := hown
  obtain ⟨convenience, hkind⟩ : ∃ convenience, start.table.kindOf u = .union convenience := by
    cases hkind : start.table.kindOf u with
    | union convenience => exact ⟨convenience, rfl⟩
    | _ =>
        rw [hkind] at hunion
        cases hunion
  have hnone : convenience = none := by
    rw [hkind] at hconvenience
    cases convenience with
    | none => rfl
    | some c => cases hconvenience
  subst hnone
  have howns : start.table.Owns u := by
    refine Table.owns_of_origin ?_ ?_ (by rw [hkind]; rfl)
    · by_contra hholds
      rw [Table.kindOf, Table.symbolAt_of_not_holds hholds] at hkind
      cases hkind
    · rw [Symbol.isImported] at himported
      exact Option.isSome_eq_false_iff.1 himported |> Option.isNone_iff_eq_none.1
  obtain ⟨b, hb, rfl⟩ := List.mem_map.1
    (h.listsTypes.mem_iff.2 ⟨howns, by rw [hkind]; rfl⟩)
  refine ⟨b, hb, rfl, ?_⟩
  cases hbody : b.decl.body with
  | union members => exact ⟨members, rfl⟩
  | _ =>
      obtain ⟨info, hdata⟩ := (h.decl b hb).data (by rw [hbody]; rfl)
      cases hkind.symm.trans hdata

/-- The positions of a type that stands do so. -/
theorem TypesStand.stands (h : TypesStand m start declarations d) {b : Declaration}
    (hb : b ∈ declarations.types) (hstands : d.Stands b.symbol)
    {terms : List TypeTerm} (hterms : terms ∈ b.decl.body.positions) :
    ((d.scope m b.decl.name).resolvePosition terms).Stands d.table d.Stands := by
  obtain ⟨hok, hupright⟩ := h.type b hb hstands
  have hposition : (start.scope m b.decl.name).resolvePosition terms ∈
      (start.resolved m b).positions := List.mem_map_of_mem hterms
  rw [h.resolvePosition]
  refine ⟨List.isEmpty_iff.1 (hok _ hposition), fun u hu => ?_⟩
  exact hupright u (List.mem_flatMap.2 ⟨_, hposition, hu⟩)

section

variable (hstart : Registered m origin declarations start)
  (h : TypesStand m start declarations d)
include hstart h

/-- The unions that are opened are those that stand. -/
theorem TypesStand.opens : Opens m d.table d.Stands
    (d.table.unionMembers (declarations.types.map (start.resolved m))) where
  own {u} hunion hown hu := by
    have halike := h.marks.toAlike
    rw [halike.isStored] at hown
    obtain ⟨b, hb, rfl, members, hbody⟩ :=
      hstart.exists_union ((halike.isUnion u).symm.trans hunion) hown
    refine ⟨b.decl, members, d.scope m b.decl.name, ?_, hbody, rfl, ?_, ?_⟩
    · rw [halike.name, (hstart.decl b hb).name]
      exact hstart.firstTypes b hb
    · have hmembers : (start.resolved m b).members =
          ((d.scope m b.decl.name).resolvePosition members).members := by
        rw [h.resolvePosition, ResolvedType.members, resolved, hbody]
        exact List.append_nil _
      rw [← hmembers]
      -- The symbols of declarations differ, so the entry of a union is the one of its declaration.
      have hentry : (b.symbol, (start.resolved m b).members) ∈
          d.table.unionMembers (declarations.types.map (start.resolved m)) := by
        refine List.mem_map.2 ⟨start.resolved m b,
          List.mem_filter.2 ⟨List.mem_map_of_mem hb, ?_⟩, rfl⟩
        rw [Bool.and_eq_true, Bool.not_eq_true']
        exact ⟨hu, hunion⟩
      refine find?_of_nodup ?_ hentry
      rw [Table.unionMembers, List.map_map]
      refine List.Nodup.sublist (List.Sublist.map _ List.filter_sublist) ?_
      rw [List.map_map]
      exact hstart.listsTypes.nodup
    · exact h.stands hb hu (by rw [hbody]; exact List.mem_cons_self)
  stored {u} hu := by
    rw [UnionMembers.find?, List.find?_eq_none]
    rintro entry hentry heq
    obtain ⟨r, hr, rfl⟩ := List.mem_map.1 hentry
    obtain ⟨b, hb, rfl⟩ := List.mem_map.1 (List.mem_filter.1 hr).1
    rw [← of_decide_eq_true heq, h.marks.toAlike.isStored] at hu
    cases (hstart.not_isStored hb).symm.trans hu

/-- The members of the unions are closed. -/
theorem TypesStand.closed_unionMembers : ∀ entry ∈
    d.table.unionMembers (declarations.types.map (start.resolved m)), ∀ member ∈ entry.2,
      member.Closed d.table := by
  intro entry hentry member hmember
  obtain ⟨r, hr, rfl⟩ := List.mem_map.1 hentry
  obtain ⟨b, hb, rfl⟩ := List.mem_map.1 (List.mem_filter.1 hr).1
  obtain ⟨p, hp, hmember⟩ := List.mem_flatMap.1 hmember
  obtain ⟨terms, -, rfl⟩ := List.mem_map.1 hp
  rw [← h.resolvePosition] at hmember
  exact (Scope.resolvePosition_sound (h.intact hstart.intact).formed.toRegular terms).1 _ hmember

end

/-! ## Writing one form -/

/-- What the forms are worked out from: a draft in which all failures are marked, and the unions to
be opened in it. -/
structure Ready (m : Module) (unions : UnionMembers) (base : Draft) : Prop where
  intact : base.Intact
  opens : Opens m base.table base.Stands unions
  closed : ∀ entry ∈ unions, ∀ member ∈ entry.2, member.Closed base.table
  stored : ∀ {u}, base.table.isStored u = true →
    (base.table.symbolAt u).isSettled = true ∨ (base.table.symbolAt u).canonical ≠ none

/-- A symbol with the type terms of its positions. -/
abbrev Item := SymbolId × List (List TypeTerm)

/-- The symbol has no form yet, and is to have one with a position for each list of terms. -/
structure Item.Blank (t : Table) (item : Item) : Prop where
  plain : ¬ t.IsSort item.1
  owns : ∀ y ∈ t.holders item.1, t.Owns y
  unwritten : ∀ y ∈ t.holders item.1, (t.symbolAt y).canonical = none
  size : (t.symbolAt item.1).formSize? = some item.2.length

/-- The forms of some items were written since `base`, where data that failed is passed over. -/
structure Inscribing (m : Module) (base : Draft) (items : List Item) (d : Draft) : Prop where
  names_eq : d.names = base.names
  written : ∃ plan, base.table.Inscribed base.names plan d.table ∧
    (∀ e ∈ plan, e.1 ∈ items.map Prod.fst ∧
      ((base.table.kindOf e.1).isData = true → base.Stands e.1)) ∧
    ∀ item ∈ items, base.Stands item.1 → ∃ form, (item.1, form) ∈ plan ∧
      form.Expresses m base.table item.2

theorem Inscribing.nil (h : base.Intact) : Inscribing m base [] base where
  names_eq := rfl
  written := ⟨[], .nil h, fun _ he => absurd he List.not_mem_nil,
    fun _ hitem => absurd hitem List.not_mem_nil⟩

theorem Inscribing.of_clock {items : List Item} (h : Inscribing m base items d) (clock : Clock) :
    Inscribing m base items { d with clock } where
  names_eq := h.names_eq
  written := h.written

theorem Inscribing.intact {items : List Item} (h : Inscribing m base items d) : d.Intact := by
  obtain ⟨plan, hplan, -⟩ := h.written
  rw [Intact, h.names_eq]
  exact hplan.intact

/-- An item that failed is passed over. -/
theorem Inscribing.skip {items : List Item} {item : Item} (h : Inscribing m base items d)
    (hfailed : ¬ base.Stands item.1) : Inscribing m base (items ++ [item]) d where
  names_eq := h.names_eq
  written := by
    obtain ⟨plan, hplan, hsound, hcomplete⟩ := h.written
    refine ⟨plan, hplan, fun e he => ⟨?_, (hsound e he).2⟩, fun other hother hstands => ?_⟩
    · rw [List.map_append]
      exact List.mem_append_left _ (hsound e he).1
    · rcases List.mem_append.1 hother with hother | hother
      · exact hcomplete other hother hstands
      · exact absurd (List.mem_singleton.1 hother ▸ hstands) hfailed

/-- The form of an item is written. -/
theorem Inscribing.write {items : List Item} {item : Item} {form : CanonicalForm}
    (h : Inscribing m base items d) (hitem : item.Blank base.table)
    (hstands : (base.table.kindOf item.1).isData = true → base.Stands item.1)
    (hnew : item.1 ∉ items.map Prod.fst) (hclosed : form.Closed base.table)
    (hexpresses : form.Expresses m base.table item.2) :
    ∃ table, d.table.writeForm item.1 form = .ok table ∧
      Inscribing m base (items ++ [item]) { d with table } := by
  obtain ⟨plan, hplan, hsound, hcomplete⟩ := h.written
  have hfresh : ∀ e ∈ plan, e.1 ≠ item.1 := by
    intro e he heq
    exact hnew (heq ▸ (hsound e he).1)
  obtain ⟨table, hwrite, hplan'⟩ := hplan.write
    (hitem.owns _ (base.table.self_mem_holders _)).holds hitem.plain hfresh
    (fun y hy => (hitem.owns y hy).unsettled) hitem.unwritten hclosed
    (hitem.size.trans (congrArg some hexpresses.size_eq.symm))
  refine ⟨table, hwrite, h.names_eq, _, hplan', fun e he => ?_, fun other hother hstands => ?_⟩
  · rw [List.map_append]
    rcases List.mem_append.1 he with he | he
    · exact ⟨List.mem_append_left _ (hsound e he).1, (hsound e he).2⟩
    · obtain rfl := List.mem_singleton.1 he
      exact ⟨List.mem_append_right _ List.mem_cons_self, hstands⟩
  · rcases List.mem_append.1 hother with hother | hother
    · obtain ⟨form, hform, hexpresses⟩ := hcomplete other hother hstands
      exact ⟨form, List.mem_append_left _ hform, hexpresses⟩
    · obtain rfl := List.mem_singleton.1 hother
      exact ⟨form, List.mem_append_right _ List.mem_cons_self, hexpresses⟩

/-- The forms of stored unions stay. -/
theorem Inscribing.stored {items : List Item} (h : Inscribing m base items d)
    (hready : Ready m unions base) {u : SymbolId} (hu : base.table.isStored u = true) :
    (d.table.symbolAt u).canonical = (base.table.symbolAt u).canonical := by
  obtain ⟨plan, hplan, -, -⟩ := h.written
  refine hplan.kept u fun e he hmem => ?_
  rcases hready.stored hu with hsettled | hwritten
  · cases hsettled.symm.trans (hplan.unsettled e he u hmem)
  · exact hwritten (hplan.unwritten e he u hmem)

/-- What is worked out in the table as far as it is written is what the terms denote. -/
theorem Inscribing.expresses {items : List Item} (h : Inscribing m base items d)
    (hready : Ready m unions base) {owner : Name} {positions : List (List TypeTerm)}
    (hstands : ∀ terms ∈ positions,
      ((base.scope m owner).resolvePosition terms).Stands base.table base.Stands) :
    CanonicalForm.Expresses m base.table positions
        ⟨(positions.map (base.scope m owner).resolvePosition).map (d.table.acceptedAt unions)⟩ ∧
      CanonicalForm.Closed base.table
        ⟨(positions.map (base.scope m owner).resolvePosition).map (d.table.acceptedAt unions)⟩ := by
  obtain ⟨plan, hplan, -, -⟩ := h.written
  have halike : (base.scope m owner).table.Alike d.table := hplan.toAlike
  have hopens := hready.opens.alike halike
  have hresolve := Scope.resolvePosition_alike halike
  refine ⟨CanonicalForm.Expresses.alike (t := d.table) ⟨?_, ?_⟩ halike.symm fun u hu => ?_, ?_⟩
  · simp [CanonicalForm.size]
  · intro i terms v hterms hv x
    have hmem := List.mem_of_getElem? hterms
    rw [CanonicalForm.get?, List.getElem?_map, List.getElem?_map, hterms] at hv
    cases hv
    rw [Table.accepts_iff, ← hresolve]
    refine hopens.has_acceptedAt hplan.intact.formed.toRegular rfl ?_
    rw [hresolve]
    refine ⟨(hstands terms hmem).ok, fun w hw hunion => ?_⟩
    exact (hstands terms hmem).refs w hw ((halike.isUnion w).symm.trans hunion)
  · exact (h.stored hready ((halike.isStored u).symm.trans hu)).symm
  · intro v hv
    obtain ⟨p, hp, rfl⟩ := List.mem_map.1 hv
    obtain ⟨terms, -, rfl⟩ := List.mem_map.1 hp
    have hclosed : ((base.scope m owner).resolvePosition terms).Closed base.table :=
      (Scope.resolvePosition_sound hready.intact.formed.toRegular terms).1
    refine halike.symm.closed_values
      (Table.closed_acceptedAt hplan.intact.closed ?_ fun member hmember => ?_)
    · intro entry hentry member hmember
      exact (hready.closed entry hentry member hmember).later hplan.later
    · exact (hclosed member hmember).later hplan.later

/-! ## What there is to write -/

end Draft

/-- A declared type as an item. -/
def Declaration.item (b : Declaration) : Draft.Item := (b.symbol, b.decl.body.positions)

/-- A parameter as an item. -/
def Parameter.item (p : Parameter) : Draft.Item := (p.symbol, [p.type])

namespace Draft

theorem Item.Blank.marks {t t' : Table} {item : Item} (h : item.Blank t) (hmarks : t.Marks t') :
    item.Blank t' where
  plain hsort := h.plain (hmarks.isSort.1 hsort)
  owns y hy := by
    rw [hmarks.holders] at hy
    exact hmarks.owns.2 (h.owns y hy)
  unwritten y hy := by
    rw [hmarks.holders] at hy
    exact (hmarks.canonical y).trans (h.unwritten y hy)
  size := (hmarks.formSize? _).trans h.size

/-- A symbol of the module that is no data has nothing written to it but the form of a
convenience. -/
theorem Registered.blank_of_plain (h : Registered m origin declarations start) {x : SymbolId}
    (howns : start.table.Owns x) (hdata : (start.table.kindOf x).isData = false)
    (hsort : ¬ start.table.IsSort x)
    (hconvenience : (start.table.kindOf x).convenience?.isSome = false)
    {positions : List (List TypeTerm)}
    (hsize : (start.table.symbolAt x).formSize? = some positions.length) :
    Item.Blank start.table (x, positions) := by
  have hmem : ∀ y ∈ start.table.holders x, y = x := by
    intro y hy
    rw [Table.holders_of_not_data hdata] at hy
    exact List.mem_singleton.1 hy
  refine ⟨hsort, fun y hy => ?_, fun y hy => ?_, hsize⟩
  · rw [hmem y hy]
    exact howns
  · rw [hmem y hy]
    exact h.unwritten howns hconvenience

theorem Registered.blank_type (h : Registered m origin declarations start) {b : Declaration}
    (hb : b ∈ declarations.types) : b.item.Blank start.table := by
  have hown := h.not_isStored hb
  rw [Table.isStored, Bool.or_eq_false_iff] at hown
  cases hshape : b.decl.body.shape? with
  | none =>
      have hkind := (h.decl b hb).union hshape
      refine h.blank_of_plain (h.owns_holders hb (start.table.self_mem_holders _))
        (by rw [hkind]; rfl) ?_ hown.2 ?_
      · rintro ⟨d, hd⟩
        rw [hkind] at hd
        cases hd
      · rw [Table.formSize?_of_union hkind]
        cases hbody : b.decl.body with
        | union members => rfl
        | _ =>
            rw [hbody] at hshape
            cases hshape
  | some shape =>
      obtain ⟨info, hkind⟩ := (h.decl b hb).data hshape
      refine ⟨Table.not_isSort_of_data hkind, fun y hy => h.owns_holders hb hy, fun y hy => ?_, ?_⟩
      · refine h.unwritten (h.owns_holders hb hy) ?_
        change y ∈ start.table.holders b.symbol at hy
        rw [Table.holders_of_data hkind] at hy
        rcases List.mem_cons.1 hy with rfl | hy
        · exact hown.2
        · obtain rfl := List.mem_singleton.1 hy
          rw [← convenience?_unsized, (h.intact.formed.families.data hkind).sort_kind]
          rfl
      · change (start.table.symbolAt b.symbol).formSize? = some b.decl.body.positions.length
        rw [Table.formSize?_of_data hkind, (h.decl b hb).arity]
        cases hbody : b.decl.body with
        | union members =>
            rw [hbody] at hshape
            cases hshape
        | _ => simp [TypeBody.positions, TypeBody.fields]

theorem Registered.kindOf_param (h : Registered m origin declarations start) {p : Parameter}
    (hp : p ∈ declarations.params) : start.table.Owns p.symbol ∧
      start.table.kindOf p.symbol = .userConstant .parameter := by
  obtain ⟨howns, hkind⟩ := h.listsParams.mem_iff.1 (List.mem_map_of_mem hp)
  refine ⟨howns, ?_⟩
  cases hx : start.table.kindOf p.symbol with
  | userConstant constant =>
      cases constant with
      | parameter => rfl
      | _ =>
          rw [hx] at hkind
          cases hkind
  | _ =>
      rw [hx] at hkind
      cases hkind

theorem Registered.blank_constant (h : Registered m origin declarations start) {x : SymbolId}
    {constant : ConstantKind} (howns : start.table.Owns x)
    (hkind : start.table.kindOf x = .userConstant constant) {positions : List (List TypeTerm)}
    (hsize : (start.table.symbolAt x).formSize? = some positions.length) :
    Item.Blank start.table (x, positions) := by
  refine h.blank_of_plain howns (by rw [hkind]; rfl) ?_ (by rw [hkind]; rfl) hsize
  rintro ⟨d, hd⟩
  rw [hkind] at hd
  cases hd

theorem Registered.blank_param (h : Registered m origin declarations start) {p : Parameter}
    (hp : p ∈ declarations.params) : p.item.Blank start.table := by
  obtain ⟨howns, hkind⟩ := h.kindOf_param hp
  exact h.blank_constant howns hkind (Table.formSize?_of_parameter hkind)

theorem Sifted.ready {params : List ResolvedParam} (h : Sifted m start declarations params d)
    (hstart : Registered m origin declarations start) :
    Ready m (d.table.unionMembers (declarations.types.map (start.resolved m))) d where
  intact := h.intact hstart.intact
  opens := h.toTypesStand.opens hstart
  closed := h.toTypesStand.closed_unionMembers hstart
  stored {u} hu := by
    have halike := h.marks.toAlike
    rw [halike.isSettled, h.marks.canonical]
    rw [halike.isStored, Table.isStored, Bool.or_eq_true] at hu
    rcases hu with himported | hconvenience
    · exact .inl (by rw [Symbol.isSettled, himported]; rfl)
    · cases hsettled : (start.table.symbolAt u).isSettled with
      | true => exact .inl rfl
      | false =>
          refine .inr (hstart.convenience_ne_none ⟨?_, hsettled⟩ hconvenience)
          by_contra hholds
          rw [Table.kindOf, Table.symbolAt_of_not_holds hholds] at hconvenience
          cases hconvenience

/-! ## Writing all forms -/

/-- The items of some parameters. -/
structure ParamItems (declarations : Declarations) (done : List ResolvedParam)
    (items : List Item) : Prop where
  symbols_eq : items.map Prod.fst = done.map ResolvedParam.symbol
  param : ∀ item ∈ items, ∃ p ∈ declarations.params, item = p.item

/-- The types and some of the parameters have their forms. -/
def ParamsInscribed (m : Module) (base : Draft) (declarations : Declarations)
    (done : List ResolvedParam) (d : Draft) : Prop :=
  ∃ items, Inscribing m base (declarations.types.map Declaration.item ++ items) d ∧
    ParamItems declarations done items

theorem ParamItems.snoc {done : List ResolvedParam} {items : List Item} {p : Parameter}
    {r : ResolvedParam} (h : ParamItems declarations done items) (hp : p ∈ declarations.params)
    (hsymbol : p.symbol = r.symbol) :
    ParamItems declarations (done ++ [r]) (items ++ [p.item]) where
  symbols_eq := by
    rw [List.map_append, List.map_append, h.symbols_eq]
    exact congrArg (done.map ResolvedParam.symbol ++ [·]) hsymbol
  param item hitem := by
    rcases List.mem_append.1 hitem with hitem | hitem
    · exact h.param item hitem
    · exact ⟨p, hp, List.mem_singleton.1 hitem⟩

section

variable {params : List ResolvedParam} (hstart : Registered m origin declarations start)
  (hbase : Sifted m start declarations params base)
include hstart hbase

theorem safe_writeTypeForm {done rest : List Declaration} {b : Declaration}
    (hall : declarations.types = done ++ b :: rest) :
    Safe Intact (Inscribing m base (done.map Declaration.item))
      (writeTypeForm (base.table.unionMembers (declarations.types.map (start.resolved m)))
        (start.resolved m b)) fun _ =>
      Inscribing m base ((done ++ [b]).map Declaration.item) := by
  have hb : b ∈ declarations.types := by
    rw [hall]
    exact List.mem_append_right _ List.mem_cons_self
  have hready := hbase.ready hstart
  refine (safe_tick_of (fun d clock hd => hd.of_clock clock) fun d hd => hd.intact).bind fun _ => ?_
  refine safe_getTable_bind fun t => ?_
  rw [List.map_append]
  refine Safe.ite (fun hstands => ?_) fun hfailed => ?_
  · refine safe_tryModifyTable ?_
    rintro d ⟨hd, rfl⟩
    have hstands : base.Stands b.symbol := by
      obtain ⟨plan, hplan, -, -⟩ := hd.written
      rw [Bool.not_eq_true', start.resolved_symbol, hplan.failed] at hstands
      exact hstands
    have hpositions : (start.resolved m b).positions =
        b.decl.body.positions.map (base.scope m b.decl.name).resolvePosition := by
      rw [hbase.resolvePosition]
      rfl
    rw [hpositions]
    obtain ⟨hexpresses, hclosed⟩ := hd.expresses hready fun terms hterms =>
      hbase.stands hb hstands hterms
    refine hd.write ((hstart.blank_type hb).marks hbase.marks) (fun _ => hstands) ?_ hclosed
      hexpresses
    -- The symbols of declarations differ.
    have hnodup := hstart.listsTypes.nodup
    rw [hall, List.map_append, List.nodup_append] at hnodup
    intro hmem
    rw [List.map_map] at hmem
    exact hnodup.2.2 _ hmem _ List.mem_cons_self rfl
  · refine safe_pure ?_
    rintro d ⟨hd, rfl⟩
    refine hd.skip fun hstands => hfailed ?_
    obtain ⟨plan, hplan, -, -⟩ := hd.written
    rw [Bool.not_eq_true', start.resolved_symbol, hplan.failed]
    exact hstands

theorem safe_writeParamForm {done rest : List ResolvedParam} {r : ResolvedParam}
    (hall : params = done ++ r :: rest) :
    Safe Intact (ParamsInscribed m base declarations done)
      (writeParamForm (base.table.unionMembers (declarations.types.map (start.resolved m))) r)
      fun _ => ParamsInscribed m base declarations (done ++ [r]) := by
  have hr : r ∈ params := by
    rw [hall]
    exact List.mem_append_right _ List.mem_cons_self
  obtain ⟨p, hp, hsymbol, hfailed | ⟨htype, hok, hupright⟩⟩ := hbase.param r hr
  · -- a parameter that failed is skipped
    rw [writeParamForm, hfailed.1]
    refine safe_pure ?_
    rintro d ⟨items, hd, hitems⟩
    refine ⟨items ++ [p.item], ?_, hitems.snoc hp hsymbol⟩
    rw [← List.append_assoc]
    refine hd.skip fun hstands => ?_
    change (base.table.symbolAt p.symbol).failed = false at hstands
    rw [hsymbol, hfailed.2] at hstands
    cases hstands
  · obtain ⟨howns, hkind⟩ := hstart.kindOf_param hp
    rw [writeParamForm, htype]
    refine safe_getTable_bind fun t => safe_tryModifyTable ?_
    rintro d ⟨⟨items, hd, hitems⟩, rfl⟩
    obtain ⟨plan, hplan, -, -⟩ := hd.written
    -- A parameter is no data, so its form is written once and not for a sort as well.
    have hplain : ∀ {t : Table}, start.table.Alike t → (t.kindOf p.symbol).isData = false := by
      intro t halike
      rw [halike.kindOf, hkind]
      · rfl
      · rintro ⟨_, hsort⟩
        rw [hkind] at hsort
        cases hsort
    have hstands : ∀ terms ∈ [p.type],
        ((base.scope m p.name).resolvePosition terms).Stands base.table base.Stands := by
      intro terms hterms
      obtain rfl := List.mem_singleton.1 hterms
      rw [hbase.resolvePosition]
      exact ⟨List.isEmpty_iff.1 hok, hupright⟩
    obtain ⟨hexpresses, hclosed⟩ := hd.expresses (hbase.ready hstart) hstands
    -- No form was written for it before.
    have hnew : p.symbol ∉ (declarations.types.map Declaration.item ++ items).map Prod.fst := by
      rw [List.map_append, List.map_map, hitems.symbols_eq, List.mem_append]
      rintro (hmem | hmem)
      · have hdeclared := (hstart.listsTypes.mem_iff.1 hmem).2
        rw [hkind] at hdeclared
        cases hdeclared
      · have hnodup := hstart.listsParams.nodup
        rw [← hbase.symbols_eq, hall, List.map_append, List.nodup_append] at hnodup
        exact hnodup.2.2 _ hmem _ List.mem_cons_self hsymbol
    obtain ⟨table, hwrite, hd'⟩ := hd.write ((hstart.blank_param hp).marks hbase.marks)
      (fun hdata => by cases (hplain hbase.marks.toAlike).symm.trans hdata) hnew hclosed hexpresses
    rw [List.append_assoc] at hd'
    refine ⟨table, ?_, items ++ [p.item], hd', hitems.snoc hp hsymbol⟩
    rw [← hsymbol, ← Table.writeForm_of_not_data
      (hplain (hbase.marks.toAlike.trans hplan.toAlike)), resolvedParam, ← hbase.resolvePosition]
    exact hwrite

end

/-! ## Constants -/

/-- Constants get their forms one after the other. -/
theorem Inscribing.writeConstants {items : List Item} {l : List SymbolId}
    (h : Inscribing m base items d) (hnodup : l.Nodup)
    (hl : ∀ c ∈ l, Item.Blank base.table (c, []) ∧ (base.table.kindOf c).isData = false ∧
      c ∉ items.map Prod.fst) :
    ∃ table, l.foldlM (·.setCanonical · {}) d.table = .ok table ∧
      Inscribing m base (items ++ l.map (·, [])) { d with table } := by
  induction l generalizing items d with
  | nil => exact ⟨d.table, rfl, by simpa using h⟩
  | cons c rest ih =>
      obtain ⟨hblank, hplain, hnew⟩ := hl c List.mem_cons_self
      obtain ⟨hc, hrest⟩ := List.nodup_cons.1 hnodup
      obtain ⟨plan, hplan, -, -⟩ := h.written
      have hplain' : (d.table.kindOf c).isData = false := by
        rw [hplan.kindOf hblank.plain]
        exact hplain
      have hclosed : CanonicalForm.Closed base.table {} := fun v hv => absurd hv List.not_mem_nil
      obtain ⟨table, hwrite, hd⟩ := h.write hblank (fun hdata => by cases hplain.symm.trans hdata)
        hnew hclosed (CanonicalForm.expresses_nil _ _)
      rw [Table.writeForm_of_not_data hplain'] at hwrite
      have hl' : ∀ other ∈ rest, Item.Blank base.table (other, []) ∧
          (base.table.kindOf other).isData = false ∧
          other ∉ (items ++ [(c, [])]).map Prod.fst := by
        intro other hother
        obtain ⟨hblank', hplain', hnew'⟩ := hl other (List.mem_cons_of_mem c hother)
        refine ⟨hblank', hplain', fun hmem => ?_⟩
        rw [List.map_append, List.mem_append] at hmem
        rcases hmem with hmem | hmem
        · exact hnew' hmem
        · obtain rfl : other = c := List.mem_singleton.1 hmem
          exact hc hother
      obtain ⟨table', hfold, hd'⟩ := ih hd hrest hl'
      refine ⟨table', ?_, ?_⟩
      · rw [List.foldlM_cons, hwrite]
        exact hfold
      · rw [List.append_assoc] at hd'
        exact hd'

/-- A constant that is imported has its form. -/
def ImportsFormed (origin : Table) : Prop :=
  ∀ {x constant}, origin.kindOf x = .userConstant constant → constant ≠ .parameter →
    (origin.symbolAt x).canonical ≠ none

/-- A constant without a form is declared by the module. -/
theorem Registered.owns_constant (h : Registered m origin declarations start)
    (hformed : ImportsFormed origin) {x : SymbolId} {constant : ConstantKind}
    (hkind : start.table.kindOf x = .userConstant constant) (hvalue : constant ≠ .parameter)
    (hnone : (start.table.symbolAt x).canonical = none) : start.table.Owns x := by
  have hholds : start.table.Holds x :=
    Table.holds_of_kindOf (by rw [hkind]; exact fun h => by cases h)
  by_cases hold : origin.Holds x
  · exfalso
    have hkind' := h.extended.later.unsized_kindOf hold
    rw [hkind] at hkind'
    have hform := hformed (SymbolKind.unsized_eq_userConstant.1 hkind'.symm) hvalue
    obtain ⟨form, hform⟩ := Option.ne_none_iff_exists'.1 hform
    cases hnone.symm.trans ((h.extended.later.symbol hold).canonical hform)
  · obtain ⟨horigin, -, hbase⟩ := h.extended.new hholds hold
    exact Table.owns_of_origin hholds horigin hbase

theorem lacksConstantForm_iff {s : Symbol} : Table.lacksConstantForm s = true ↔
    s.canonical = none ∧ s.failed = false ∧
      ∃ constant, s.kind = .userConstant constant ∧ constant ≠ .parameter := by
  rw [Table.lacksConstantForm, Bool.and_eq_true, Bool.and_eq_true, Option.isNone_iff_eq_none,
    Bool.not_eq_true', and_assoc]
  refine and_congr_right fun _ => and_congr_right fun _ => ?_
  cases s.kind with
  | userConstant constant => simp
  | _ => simp

/-- All declarations are written: types, parameters and the other constants. -/
structure AllInscribed (m : Module) (base : Draft) (declarations : Declarations)
    (params : List ResolvedParam) (d : Draft) : Prop where
  items : ∃ (items : List Item) (constants : List SymbolId), ParamItems declarations params items ∧
    Inscribing m base (declarations.types.map Declaration.item ++ items ++
      constants.map (·, [])) d
  constants : ∀ {x constant}, d.table.kindOf x = .userConstant constant → constant ≠ .parameter →
    d.Stands x → (d.table.symbolAt x).canonical ≠ none

/-- A constant that lacks a form belongs to the module and is not among the items. -/
theorem Inscribing.blank_of_lacksConstantForm {items : List Item} {params : List ResolvedParam}
    (h : Inscribing m base items d) (hstart : Registered m origin declarations start)
    (hformed : ImportsFormed origin) (hbase : Sifted m start declarations params base) :
    ∀ c ∈ (d.table.symbols.toList.filter Table.lacksConstantForm).map Symbol.id,
      Item.Blank base.table (c, []) ∧ (base.table.kindOf c).isData = false ∧
        c ∉ items.map Prod.fst := by
  obtain ⟨plan, hplan, -, hcomplete⟩ := h.written
  have halike := hbase.marks.toAlike.trans hplan.toAlike
  intro c hc
  obtain ⟨s, hs, rfl⟩ := List.mem_map.1 hc
  obtain ⟨hs, hlacks⟩ := List.mem_filter.1 hs
  obtain ⟨hholds, hat⟩ := Table.symbol_eq_symbolAt hplan.intact.formed.arena hs
  obtain ⟨hnone, hstands, constant, hkind, hvalue⟩ := lacksConstantForm_iff.1 hlacks
  rw [← hat] at hnone hstands hkind
  have hplain : ¬ d.table.IsSort s.id := by
    rintro ⟨_, hsort⟩
    rw [Table.kindOf, hkind] at hsort
    cases hsort
  have hkind₀ : start.table.kindOf s.id = .userConstant constant :=
    (halike.symm.kindOf hplain).trans hkind
  have hnone₀ : (base.table.symbolAt s.id).canonical = none := by
    rw [Option.eq_none_iff_forall_ne_some]
    intro form hform
    have hholds₀ := (hplan.toAlike.holds s.id).1 hholds
    cases hnone.symm.trans ((hplan.later.symbol hholds₀).canonical hform)
  have howns := hstart.owns_constant hformed hkind₀ hvalue
    ((hbase.marks.canonical s.id).symm.trans hnone₀)
  have hblank : Item.Blank start.table (s.id, []) :=
    hstart.blank_constant howns hkind₀ (Table.formSize?_of_constant hkind₀ hvalue)
  refine ⟨hblank.marks hbase.marks, ?_, fun hmem => ?_⟩
  · rw [hplan.toAlike.symm.kindOf hplain, Table.kindOf, hkind]
    rfl
  · -- an item that stands has a form already
    obtain ⟨item, hitem, heq⟩ := List.mem_map.1 hmem
    have hstands₀ : base.Stands item.1 := by
      rw [heq]
      exact (hplan.failed s.id).symm.trans hstands
    obtain ⟨form, hform, -⟩ := hcomplete item hitem hstands₀
    rw [heq] at hform
    cases hnone.symm.trans (hplan.formed _ hform _ (base.table.self_mem_holders _))

/-- Once the constants that lacked a form have got one, no constant that stands lacks one: one that
is among the items has its form, and any other had it from the start. -/
theorem Inscribing.canonical_ne_none {items : List Item} {table : Table}
    (h : Inscribing m base items d) (hintact : base.Intact)
    (h' : Inscribing m base (items ++ ((d.table.symbols.toList.filter
      Table.lacksConstantForm).map Symbol.id).map (·, [])) { d with table })
    {x : SymbolId} {constant : ConstantKind} (hkind : table.kindOf x = .userConstant constant)
    (hvalue : constant ≠ .parameter) (hstands : (table.symbolAt x).failed = false) :
    (table.symbolAt x).canonical ≠ none := by
  intro hnone
  obtain ⟨plan, hplan, hsound, -⟩ := h.written
  obtain ⟨plan', hplan', -, hcomplete'⟩ := h'.written
  have hplain : ∀ {t : Table}, table.Alike t → ¬ t.IsSort x := by
    rintro t halike hsort
    obtain ⟨_, hsort⟩ := halike.isSort.1 hsort
    rw [hkind] at hsort
    cases hsort
  have hback : table.Alike d.table := hplan'.toAlike.symm.trans hplan.toAlike
  have hstands₀ : base.Stands x := (hplan'.failed x).symm.trans hstands
  have hunlisted : x ∉ (items ++ ((d.table.symbols.toList.filter
      Table.lacksConstantForm).map Symbol.id).map (·, [])).map Prod.fst := by
    intro hmem
    obtain ⟨item, hitem, rfl⟩ := List.mem_map.1 hmem
    obtain ⟨form, hplanned, -⟩ := hcomplete' item hitem hstands₀
    cases hnone.symm.trans (hplan'.formed _ hplanned _ (base.table.self_mem_holders _))
  have hsame : (d.table.symbolAt x).canonical = (base.table.symbolAt x).canonical := by
    refine hplan.kept x fun e he hx => hunlisted ?_
    rcases hintact.formed.toRegular.mem_holders_cases hx with rfl | hdata
    · rw [List.map_append]
      exact List.mem_append_left _ (hsound e he).1
    · exact absurd (Table.isSort_iff_dataOf?.2 ⟨_, hdata⟩) (hplain hplan'.toAlike.symm)
  have hheld : table.Holds x := Table.holds_of_kindOf (by rw [hkind]; exact fun h => by cases h)
  cases hform : (base.table.symbolAt x).canonical with
  | some form =>
      have hholds : base.table.Holds x := (hplan'.toAlike.holds x).1 hheld
      cases hnone.symm.trans ((hplan'.later.symbol hholds).canonical hform)
  | none =>
      have hholds : d.table.Holds x := (hback.holds x).2 hheld
      have hmem : x ∈ (d.table.symbols.toList.filter Table.lacksConstantForm).map Symbol.id := by
        refine List.mem_map.2 ⟨d.table.symbolAt x, List.mem_filter.2
          ⟨Table.mem_symbols_toList.2 ⟨x, hholds, rfl⟩, ?_⟩,
          hplan.intact.formed.arena.id_eq hholds⟩
        refine lacksConstantForm_iff.2
          ⟨hsame.trans hform, (hplan.failed x).trans hstands₀, constant, ?_, hvalue⟩
        exact (hback.kindOf (hplain (.refl table))).trans hkind
      refine hunlisted ?_
      rw [List.map_append, List.map_map]
      exact List.mem_append_right _ (List.mem_map_of_mem hmem)

/-- The constants that lack a form get one. -/
theorem ParamsInscribed.writeConstantForms {params : List ResolvedParam}
    (hstart : Registered m origin declarations start)
    (hformed : ImportsFormed origin) (hbase : Sifted m start declarations params base)
    (h : ParamsInscribed m base declarations params d) :
    ∃ table, d.table.writeConstantForms = .ok table ∧
      AllInscribed m base declarations params { d with table } := by
  obtain ⟨items, hd, hitems⟩ := h
  obtain ⟨plan, hplan, -, -⟩ := hd.written
  have hnodup : ((d.table.symbols.toList.filter Table.lacksConstantForm).map Symbol.id).Nodup :=
    hplan.intact.formed.arena.nodup_ids.sublist (List.Sublist.map _ List.filter_sublist)
  obtain ⟨table, hwrite, hd'⟩ :=
    hd.writeConstants hnodup (hd.blank_of_lacksConstantForm hstart hformed hbase)
  exact ⟨table, hwrite, ⟨items, _, hitems, hd'⟩,
    hd.canonical_ne_none (hbase.intact hstart.intact) hd'⟩

/-! ## All declarations -/

/-- What a module declares has its forms, apart from what failed. -/
structure Declared (m : Module) (origin : Table) (d : Draft) : Prop where
  intact : d.Intact
  extended : origin.Extends d.table
  /-- A type of the module is the first declaration of its name, and its form says what that
  declaration says. -/
  type : ∀ {x}, d.table.Owns x → (d.table.kindOf x).isDeclaredType = true → d.Stands x →
    ∃ decl form, m.types.find? (·.name = (d.table.symbolAt x).name) = some decl ∧
      (d.table.symbolAt x).canonical = some form ∧
      form.Expresses m d.table decl.body.positions
  param : ∀ {x}, d.table.Owns x → (d.table.kindOf x).isParameter = true → d.Stands x →
    ∃ type form, m.valueParams.find? (·.1 = (d.table.symbolAt x).name) =
        some ((d.table.symbolAt x).name, type) ∧
      (d.table.symbolAt x).canonical = some form ∧ form.Expresses m d.table [type]
  constant : ∀ {x constant}, d.table.kindOf x = .userConstant constant → constant ≠ .parameter →
    d.Stands x → (d.table.symbolAt x).canonical ≠ none
  convenience : ∀ {x}, d.table.Owns x → (d.table.kindOf x).convenience?.isSome = true →
    (d.table.symbolAt x).canonical ≠ none
  fallen : ∀ {x}, d.table.Owns x → (d.table.kindOf x).isData = true → ¬ d.Stands x →
    (d.table.symbolAt x).canonical = none
  owns_sort : ∀ {x shape info}, d.table.kindOf x = .data shape info →
    (d.table.Owns info.sort ↔ d.table.Owns x)

/-- No sort of the module has a size yet. -/
def Unsized (d : Draft) : Prop := ∀ {x}, d.table.Owns x → (d.table.symbolAt x).size? = none

section

variable {params : List ResolvedParam}

/-- What is written to the items is what is found at their symbols. -/
theorem Inscribing.exists_form {items : List Item} (h : Inscribing m base items d) {item : Item}
    (hitem : item ∈ items) (hstands : d.Stands item.1) : ∃ form,
      (d.table.symbolAt item.1).canonical = some form ∧ form.Expresses m base.table item.2 := by
  obtain ⟨plan, hplan, -, hcomplete⟩ := h.written
  obtain ⟨form, hform, hexpresses⟩ := hcomplete item hitem ((hplan.failed _).symm.trans hstands)
  exact ⟨form, hplan.formed _ hform _ (base.table.self_mem_holders _), hexpresses⟩

theorem AllInscribed.declared (h : AllInscribed m base declarations params d)
    (hstart : Registered m origin declarations start)
    (hbase : Sifted m start declarations params base) : Declared m origin d ∧ d.Unsized := by
  obtain ⟨items, constants, hitems, hd⟩ := h.items
  have hready := hbase.ready hstart
  obtain ⟨plan, hplan, hsound, -⟩ := hd.written
  have halike := hbase.marks.toAlike.trans hplan.toAlike
  have hlater := hbase.marks.later.trans hplan.later
  have hexpresses : ∀ {form positions}, CanonicalForm.Expresses m base.table positions form →
      form.Expresses m d.table positions := by
    intro form positions hform
    exact hform.alike hplan.toAlike fun u hu => hd.stored hready hu
  have hdeclared : ∀ x, (d.table.kindOf x).isDeclaredType =
      (start.table.kindOf x).isDeclaredType := by
    intro x
    rw [← isDeclaredType_unsized, halike.unsized, isDeclaredType_unsized]
  have hparameter : ∀ x, (d.table.kindOf x).isParameter = (start.table.kindOf x).isParameter := by
    intro x
    rw [← isParameter_unsized, halike.unsized, isParameter_unsized]
  have hconvenience : ∀ x, (d.table.kindOf x).convenience? =
      (start.table.kindOf x).convenience? := by
    intro x
    rw [← convenience?_unsized, halike.unsized, convenience?_unsized]
  -- What holds of the forms in turn: those of types, of parameters, of convenience unions, none for
  -- data that failed; then sorts belong to the module with their data, and nothing has a size.
  refine ⟨⟨hd.intact, hstart.extended.trans (halike.extends hlater), ?_, ?_, h.constants, ?_, ?_,
    ?_⟩, ?_⟩
  · intro x howns hkind hstands
    rw [hdeclared] at hkind
    obtain ⟨b, hb, rfl⟩ := List.mem_map.1 (hstart.listsTypes.mem_iff.2 ⟨halike.owns.1 howns, hkind⟩)
    have hitem : b.item ∈ declarations.types.map Declaration.item ++ items ++
        constants.map (·, []) :=
      List.mem_append_left _ (List.mem_append_left _ (List.mem_map_of_mem hb))
    obtain ⟨form, hform, hexpressed⟩ := hd.exists_form hitem hstands
    refine ⟨b.decl, form, ?_, hform, hexpresses hexpressed⟩
    rw [halike.name, (hstart.decl b hb).name]
    exact hstart.firstTypes b hb
  · intro x howns hkind hstands
    rw [hparameter] at hkind
    have hx := hstart.listsParams.mem_iff.2 ⟨halike.owns.1 howns, hkind⟩
    rw [← hbase.symbols_eq, ← hitems.symbols_eq] at hx
    obtain ⟨item, hitem, rfl⟩ := List.mem_map.1 hx
    obtain ⟨p, hp, rfl⟩ := hitems.param item hitem
    obtain ⟨form, hform, hexpressed⟩ := hd.exists_form
      (List.mem_append_left _ (List.mem_append_right _ hitem)) hstands
    have hname : (d.table.symbolAt p.symbol).name = p.name :=
      (halike.name _).trans (hstart.param p hp)
    refine ⟨p.type, form, ?_, hform, hexpresses hexpressed⟩
    change m.valueParams.find? (·.1 = (d.table.symbolAt p.symbol).name) =
      some ((d.table.symbolAt p.symbol).name, p.type)
    rw [hname]
    exact hstart.firstParams p hp
  · -- the conveniences had their forms at the start
    intro x howns hkind hnone
    rw [hconvenience] at hkind
    have howns := halike.owns.1 howns
    obtain ⟨form, hform⟩ := Option.ne_none_iff_exists'.1
      (hstart.convenience_ne_none howns hkind)
    cases hnone.symm.trans ((hlater.symbol howns.holds).canonical hform)
  · -- a plan writes forms only for what stands
    intro x howns hdata hfailed
    obtain ⟨shape, info, hkind⟩ := Table.exists_data_of_isData hdata
    have hkind₀ := hplan.toAlike.kindOf_data.1 hkind
    have hkept := hplan.kept x fun e he hx => ?_
    · rw [hkept, hbase.marks.canonical]
      refine hstart.unwritten (halike.owns.1 howns) ?_
      rw [halike.kindOf_data.1 hkind]
      rfl
    · rcases (hbase.intact hstart.intact).formed.toRegular.mem_holders_cases hx with rfl | hsort
      · refine hfailed ((hplan.failed _).trans ((hsound e he).2 ?_))
        rw [hkind₀]
        rfl
      · exact Table.not_isSort_of_data hkind₀ (Table.isSort_iff_dataOf?.2 ⟨_, hsort⟩)
  · intro x shape info hkind
    rw [halike.owns, halike.owns]
    exact hstart.owns_sort (halike.kindOf_data.1 hkind)
  · intro x howns
    rw [hplan.size, hbase.marks.size]
    exact (hstart.fresh (halike.owns.1 howns)).2

end

/-- What is declared does not depend on sizes. -/
theorem Declared.sized {d' : Draft} (h : Declared m origin d)
    (hsized : d.table.SizesWritten d'.table) (hintact : d'.Intact) : Declared m origin d' := by
  have halike := hsized.toAlike
  have hstands : ∀ {x}, d'.Stands x ↔ d.Stands x := by
    intro x
    rw [Stands, Stands, hsized.failed]
  have hexpresses : ∀ {form positions}, CanonicalForm.Expresses m d.table positions form →
      form.Expresses m d'.table positions := by
    intro form positions hform
    exact hform.alike halike fun u _ => hsized.canonical u
  refine ⟨hintact, h.extended.trans (halike.extends hsized.later), ?_, ?_, ?_, ?_, ?_, ?_⟩
  · intro x howns hkind hx
    rw [← isDeclaredType_unsized, halike.unsized, isDeclaredType_unsized] at hkind
    obtain ⟨decl, form, hdecl, hform, hexpressed⟩ :=
      h.type (halike.owns.1 howns) hkind (hstands.1 hx)
    rw [halike.name, hsized.canonical]
    exact ⟨decl, form, hdecl, hform, hexpresses hexpressed⟩
  · intro x howns hkind hx
    rw [← isParameter_unsized, halike.unsized, isParameter_unsized] at hkind
    obtain ⟨type, form, hparam, hform, hexpressed⟩ :=
      h.param (halike.owns.1 howns) hkind (hstands.1 hx)
    rw [halike.name, hsized.canonical]
    exact ⟨type, form, hparam, hform, hexpresses hexpressed⟩
  · intro x constant hkind hvalue hx
    rw [hsized.canonical]
    have hkind' := halike.unsized x
    rw [hkind] at hkind'
    exact h.constant (SymbolKind.unsized_eq_userConstant.1 hkind'.symm) hvalue (hstands.1 hx)
  · intro x howns hkind
    rw [← convenience?_unsized, halike.unsized, convenience?_unsized] at hkind
    rw [hsized.canonical]
    exact h.convenience (halike.owns.1 howns) hkind
  · intro x howns hkind hx
    obtain ⟨shape, info, hkind⟩ := Table.exists_data_of_isData hkind
    rw [hsized.canonical]
    refine h.fallen (halike.owns.1 howns) ?_ fun hstood => hx (hstands.2 hstood)
    rw [halike.kindOf_data.1 hkind]
    rfl
  · intro x shape info hkind
    rw [halike.owns, halike.owns]
    exact h.owns_sort (halike.kindOf_data.1 hkind)

theorem Declared.reported {d' : Draft} {rs : List Report} (h : Declared m origin d)
    (hunsized : d.Unsized) (hnames : d'.names = d.names)
      (htable : d'.table = d.table.reportAll rs) :
    Declared m origin d' ∧ d'.Unsized := by
  obtain ⟨hid, hnamespaces, hsymbols⟩ := d.table.reportAll_eq rs
  rw [← htable] at hid hnamespaces hsymbols
  refine ⟨h.sized (.of_eq hid hnamespaces hsymbols) ?_, fun {x} howns => ?_⟩
  · have hintact := Table.Intact.marks h.intact (marks_reportAll d.table rs)
    rw [← hnames, ← htable] at hintact
    exact hintact
  · rw [Table.symbolAt, hsymbols]
    exact hunsized ((Table.Alike.of_eq hid hnamespaces hsymbols).owns.1 howns)

/-- At first no parameter has a form. -/
theorem Inscribing.paramsInscribed
    (h : Inscribing m base (declarations.types.map Declaration.item) d) :
    ParamsInscribed m base declarations [] d := by
  refine ⟨[], ?_, rfl, fun _ hitem => absurd hitem List.not_mem_nil⟩
  rw [List.append_nil]
  exact h

theorem safe_writeTypeForms (hstart : Registered m origin declarations start)
    (hbase : Sifted m start declarations params base) : Safe Intact (Inscribing m base [])
      ((declarations.types.map (start.resolved m)).forM (writeTypeForm
        (base.table.unionMembers (declarations.types.map (start.resolved m)))))
      fun _ => Inscribing m base (declarations.types.map Declaration.item) := by
  rw [List.forM_eq_forM, List.forM_map, ← List.forM_eq_forM]
  exact safe_forM (motive := fun done => Inscribing m base (done.map Declaration.item))
    fun _ _ _ hall => safe_writeTypeForm hstart hbase hall

theorem safe_writeParamForms (hstart : Registered m origin declarations start)
    (hbase : Sifted m start declarations params base) :
    Safe Intact (Inscribing m base (declarations.types.map Declaration.item))
      (params.forM (writeParamForm
        (base.table.unionMembers (declarations.types.map (start.resolved m)))))
      fun _ => ParamsInscribed m base declarations params :=
  (safe_forM (motive := ParamsInscribed m base declarations) fun _ _ _ hall =>
    safe_writeParamForm hstart hbase hall).imp (fun _ hd => hd.paramsInscribed) fun _ _ hd => hd

/-- Spreading failures and writing forms never breaks down. -/
theorem safe_writeForms (hstart : Registered m origin declarations start)
    (hformed : ImportsFormed origin) {types : List ResolvedType} {params : List ResolvedParam} :
    Safe Intact (fun d => Examined m start declarations.types types d ∧
        ParamsExamined m start declarations.params params d) (writeForms types params)
      fun _ d => Declared m origin d ∧ d.Unsized := by
  have hwrite : ∀ types params, types = declarations.types.map (start.resolved m) →
      Safe Intact (Sifted m start declarations params) (do
        let unions := (← getTable).unionMembers types
        types.forM (writeTypeForm unions)
        params.forM (writeParamForm unions)
        tryModifyTable (·.writeConstantForms)) fun _ d => Declared m origin d ∧ d.Unsized := by
    rintro types params rfl base hbase
    have hconstants : Safe Intact (ParamsInscribed m base declarations params)
        (tryModifyTable (·.writeConstantForms)) fun _ d => Declared m origin d ∧ d.Unsized := by
      refine safe_tryModifyTable fun d hd => ?_
      obtain ⟨table, hwrite, hd'⟩ := hd.writeConstantForms hstart hformed hbase
      exact ⟨table, hwrite, hd'.declared hstart hbase⟩
    have hrun := (safe_writeTypeForms hstart hbase).bind fun _ =>
      (safe_writeParamForms hstart hbase).bind fun _ => hconstants
    exact hrun base (.nil (hbase.intact hstart.intact))
  intro d hd
  exact (safe_spreadTypes hstart).bind (fun _ => (safe_spreadParams hstart).bind fun params =>
    hwrite types params hd.1.resolved_eq) d hd

/-- Declaring never breaks down, whatever errors the module has, and gives every declaration that
stands the form that it denotes. -/
theorem safe_declare (m : Module) (hformed : ImportsFormed origin) :
    Safe Intact (Enrolled origin [] [] []) (declare m) fun _ d =>
      Declared m origin d ∧ d.Unsized := by
  refine (safe_registerDeclarations m).bind fun declarations => ?_
  intro start hstart
  have hreport : ∀ (types : List ResolvedType) (params : List ResolvedParam),
      Safe Intact (fun d => Declared m origin d ∧ d.Unsized) (modify fun d =>
        { d with
          table := d.table.reportAll
            (d.table.restrictionReports d.names m types (params.map ResolvedParam.symbol)) })
        fun _ d => Declared m origin d ∧ d.Unsized :=
    fun types params => safe_modify fun d hd => hd.1.reported hd.2 rfl rfl
  exact (safe_resolveTypes hstart).bind (fun types =>
    (safe_resolveParams hstart).bind fun params =>
      (safe_writeForms hstart hformed).bind fun _ => hreport types params) start rfl

end Draft

end ManySorted
