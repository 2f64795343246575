import ManySorted.Proofs.Session.Completeness

/-!
# Valid tables are in normal form

A type term contributes values in normal form, and so do the conveniences.  Opening unions joins
such values, and copying renames their symbols, which both keep the normal form.  So all forms of a
valid table are in normal form (`Session.normal`): what a position accepts is determined by its
parts, and the integers of its ranges are listed by maximal ranges.

## Strategy

* **Members.**  What an element adds to values in normal form is in normal form
  (`Scope.normal_readElement`), and so are all members of a position (`Scope.member_cases`).
* **Declarations.**  Opening unions joins values in normal form, so all that is declared is in
  normal form if what is imported is (`Draft.Account.normal_acceptedAt`, `Draft.Account.normalAt`).
* **Imported forms** are renamed forms of tables that were checked before
  (`Table.Trusted.normalAt`), so the tables of a session are in normal form one after the other.
-/

namespace ManySorted

namespace Scope

variable {scope : Scope}

theorem normal_readElement {r : Reading} (hr : r.values.Normal) (element : EnumElement) :
    (scope.readElement r element).values.Normal := by
  cases element with
  | constant id =>
      simp only [readElement]
      split
      · exact hr
      · split
        · exact hr.addConstant _
        · exact hr.addConstant _
        · exact hr
  | literal literal span =>
      cases literal with
      | integer value => exact hr.addRange value value
      | string value => exact hr.addString value
  | range low high span =>
      simp only [readElement]
      split
      · exact hr.addRange low high
      · exact hr

/-- The members of a position are values in normal form and unions. -/
theorem member_cases {terms : List TypeTerm} {member : Member}
    (h : member ∈ (scope.resolvePosition terms).members) :
    (∃ v, member = .values v ∧ v.Normal) ∨
      ∃ u convenience, member = .union u ∧ scope.table.kindOf u = .union convenience := by
  rw [(scope.resolvePosition_eq terms).1] at h
  obtain ⟨term, -, h⟩ := List.mem_flatMap.1 h
  cases term with
  | enumeration elements span =>
      refine .inl ⟨_, List.mem_singleton.1 h, ?_⟩
      exact List.foldlRecOn (motive := fun r : Reading => r.values.Normal) elements _
        AcceptedValues.normal_empty fun r hr element _ => normal_readElement hr element
  | named id =>
      change member ∈ (scope.resolveType id).members at h
      unfold resolveType at h
      split at h
      · next symbol _ =>
          rw [List.mem_singleton.1 h, memberOf]
          split
          · exact .inl ⟨_, rfl, AcceptedValues.normal_empty.addBase _⟩
          · next hkind => exact .inr ⟨symbol, _, rfl, hkind⟩
          · exact .inl ⟨_, rfl, AcceptedValues.normal_empty.addSort _⟩
          · exact .inl ⟨_, rfl, AcceptedValues.normal_empty⟩
      · exact absurd h List.not_mem_nil

end Scope

namespace Table

variable {names names' : Interner} {tables : List Table} {t : Table} {x : SymbolId}

theorem normal_convenienceValues (t : Table) (c : Convenience) :
    (t.convenienceValues c).Normal := by
  have hsorts : t.allSorts.Normal := by
    rw [allSorts, ← Array.foldl_toList]
    refine List.foldlRecOn (motive := AcceptedValues.Normal) _ _ AcceptedValues.normal_empty
      fun v hv s _ => ?_
    split
    · exact hv.addSort _
    · exact hv
  have hconstants : t.allConstants.Normal := by
    rw [allConstants, ← Array.foldl_toList]
    refine List.foldlRecOn (motive := AcceptedValues.Normal) _ _ AcceptedValues.normal_empty
      fun v hv s _ => ?_
    split
    · exact hv.addConstant _
    · exact hv.addConstant _
    · exact hv.addConstant _
    · exact hv
  cases c with
  | any => exact (hsorts.union hconstants).addBase _
  | data => exact hsorts
  | constant => exact hconstants

/-- An imported form is in normal form. -/
theorem Trusted.normalAt (h : t.Trusted names tables) (harchive : Archive names' tables)
    (hall : ∀ t ∈ tables, t.isValid = true → ∀ x, t.Owns x → t.NormalAt x)
    (himported : (t.symbolAt x).isImported = true) : t.NormalAt x := by
  intro form hform v hv
  have hx : t.Holds x := holds_of_canonical hform
  obtain ⟨o, horigin⟩ := Option.isSome_iff_exists.1 himported
  cases hmerges : (t.kindOf x).mergesIntoRoot with
  | true =>
      obtain rfl := Option.some.inj (hform.symm.trans (h.merging hmerges))
      exact absurd hv List.not_mem_nil
  | false =>
      obtain ⟨source, ρ, hsource, -, hcopy, -⟩ := h.provenance.embedded hx horigin hmerges
      rw [hcopy.form] at hform
      obtain ⟨original, horiginal, rfl⟩ := Option.map_eq_some_iff.1 hform
      obtain ⟨w, hw, rfl⟩ := List.mem_map.1 hv
      refine (hall source hsource.mem hsource.valid o.symbol ?_ original horiginal w hw).rename ρ
      -- nothing is written to what is built in, so the original is a declaration
      refine owns_of_origin hsource.holds hsource.own ?_
      by_contra hbase
      have hbare := (harchive.trusted hsource.mem hsource.valid).provenance.bare hsource.holds
        (by simpa using hbase)
      cases hbare.symm.trans horiginal

end Table

/-! ## The declarations of a module -/

namespace Draft

variable {m : Module} {origin : Table} {start d : Draft} {declarations : Declarations}

namespace Account

/-- What has a form is imported or one of the module's own. -/
theorem owns_of_form (h : Account m origin declarations start d) (hintact : d.Intact)
    {x : SymbolId} {form : CanonicalForm} (hown : (d.table.symbolAt x).isImported = false)
    (hform : (d.table.symbolAt x).canonical = some form) : start.table.Owns x := by
  refine h.alike.owns.1 (Table.owns_of_origin (Table.holds_of_canonical hform) ?_ ?_)
  · exact Option.isNone_iff_eq_none.1 (Option.isSome_eq_false_iff.1 hown)
  · exact hintact.isBase_eq_false hform

section

variable (h : Account m origin declarations start d) (hintact : d.Intact)
  (himported : ∀ x, (d.table.symbolAt x).isImported = true → d.table.NormalAt x)
include h hintact himported

/-- A union that is not opened is imported or a convenience. -/
theorem normal_knownUnion {u : SymbolId} {convenience : Option Convenience}
    (hkind : start.table.kindOf u = .union convenience) :
    (d.table.knownUnion (d.table.unionMembers (declarations.types.map (start.resolved m)))
      u).Normal := by
  cases hfind : (d.table.unionMembers (declarations.types.map (start.resolved m))).find? u with
  | some entry =>
      rw [Table.knownUnion_of_some hfind]
      exact AcceptedValues.normal_empty
  | none =>
      rw [Table.knownUnion_of_none hfind]
      cases haccepted : (d.table.symbolAt u).accepted? 0 with
      | none => exact AcceptedValues.normal_empty
      | some v =>
          cases hown : (d.table.symbolAt u).isImported with
          | true => exact (himported u hown).accepted? haccepted
          | false =>
              obtain ⟨form, hform, hget⟩ := Option.bind_eq_some_iff.1 haccepted
              have howns := h.owns_of_form hintact hown hform
              cases convenience with
              | some c =>
                  have hwritten := (h.later.symbol howns.holds).canonical
                    (h.registered.convenience howns hkind)
                  cases hform.symm.trans hwritten
                  cases hget
                  exact start.table.normal_convenienceValues c
              | none =>
                  -- a declared union with a form stands, so it is opened
                  obtain ⟨b, hb, rfl⟩ := List.mem_map.1 (h.registered.listsTypes.mem_iff.2
                    ⟨howns, by rw [hkind]; rfl⟩)
                  have hstands := h.stands howns (.inl (by rw [hkind]; rfl)) hform
                  have hentry : (b.symbol, (start.resolved m b).members) ∈
                      d.table.unionMembers (declarations.types.map (start.resolved m)) := by
                    refine mem_unionMembers.2 ⟨_, List.mem_map_of_mem hb, hstands, ?_, rfl⟩
                    rw [start.resolved_symbol, h.alike.isUnion, hkind]
                    rfl
                  have hnone := List.find?_eq_none.1 hfind _ hentry
                  exact absurd (decide_eq_true rfl) hnone

/-- All members of a position are in normal form, and with them what it accepts. -/
theorem normal_acceptedAt (owner : Name) (terms : List TypeTerm) :
    (d.table.acceptedAt (d.table.unionMembers (declarations.types.map (start.resolved m)))
      ((start.scope m owner).resolvePosition terms)).Normal := by
  have hmember : ∀ (owner : Name) (terms : List TypeTerm),
      ∀ member ∈ ((start.scope m owner).resolvePosition terms).members,
        member.Normal (d.table.knownUnion
          (d.table.unionMembers (declarations.types.map (start.resolved m)))) := by
    intro owner terms member hmember
    obtain ⟨v, rfl, hv⟩ | ⟨u, convenience, rfl, hkind⟩ := Scope.member_cases hmember
    · exact hv
    · exact h.normal_knownUnion hintact himported hkind
  refine normal_flatten (fun entry hentry => ?_) (hmember owner terms) AcceptedValues.normal_empty
  obtain ⟨r, hr, -, -, rfl⟩ := mem_unionMembers.1 hentry
  obtain ⟨b, -, rfl⟩ := List.mem_map.1 hr
  intro member hm
  obtain ⟨p, hp, hm⟩ := List.mem_flatMap.1 hm
  obtain ⟨terms, -, rfl⟩ := List.mem_map.1 hp
  exact hmember _ terms member hm

/-- The form of a declared type consists of what its positions accept. -/
theorem normalAt_of_isDeclaredType {x : SymbolId}
    (hkind : (start.table.kindOf x).isDeclaredType = true) (howns : start.table.Owns x) :
    d.table.NormalAt x := by
  intro form hform v hv
  obtain ⟨b, hb, rfl⟩ := List.mem_map.1 (h.registered.listsTypes.mem_iff.2 ⟨howns, hkind⟩)
  cases hform.symm.trans (h.type b hb (h.stands howns (.inl hkind) hform))
  obtain ⟨p, hp, rfl⟩ := List.mem_map.1 hv
  obtain ⟨terms, -, rfl⟩ := List.mem_map.1 hp
  exact h.normal_acceptedAt hintact himported _ terms

/-- If what is imported is in normal form, then all that is declared is. -/
theorem normalAt (x : SymbolId) : d.table.NormalAt x := by
  intro form hform v hv
  cases hown : (d.table.symbolAt x).isImported with
  | true => exact himported x hown form hform v hv
  | false =>
      have howns := h.owns_of_form hintact hown hform
      have htype : ∀ {y}, (start.table.kindOf y).isDeclaredType = true → start.table.Owns y →
          d.table.NormalAt y := h.normalAt_of_isDeclaredType hintact himported
      -- Forms that are not those of declared types are of three kinds: written with the convenience
      -- unions, shared with the data of a sort, or those of constants.
      cases hkind : start.table.kindOf x with
      | data shape info => exact htype (by rw [hkind]; rfl) howns form hform v hv
      | union convenience =>
          cases convenience with
          | none => exact htype (by rw [hkind]; rfl) howns form hform v hv
          | some c =>
              have hwritten := (h.later.symbol howns.holds).canonical
                (h.registered.convenience howns hkind)
              cases hform.symm.trans hwritten
              rw [List.mem_singleton.1 hv]
              exact start.table.normal_convenienceValues c
      | userSort data size =>
          -- a sort has the form of its data symbol
          obtain ⟨shape, info, hdata, rfl⟩ := h.registered.intact.formed.families.sort
            (show (start.table.kindOf x).unsized = .userSort data none by rw [hkind]; rfl)
          rw [(hintact.data (h.alike.symm.kindOf_data.1 hdata)).form_eq] at hform
          exact htype (by rw [hdata]; rfl) ((h.registered.owns_sort hdata).1 howns) form hform
            v hv
      | userConstant constant =>
          by_cases hparameter : constant = .parameter
          · subst hparameter
            obtain ⟨p, hp, rfl⟩ := List.mem_map.1 (h.registered.listsParams.mem_iff.2
              ⟨howns, by rw [hkind]; rfl⟩)
            cases hform.symm.trans
              (h.param p hp (h.stands howns (.inr (by rw [hkind]; rfl)) hform))
            rw [List.mem_singleton.1 hv]
            exact h.normal_acceptedAt hintact himported _ _
          · -- other constants have no positions
            have hkind' : d.table.kindOf x = .userConstant constant :=
              SymbolKind.unsized_eq_userConstant.1 ((h.alike.unsized x).trans (by rw [hkind]; rfl))
            obtain rfl := hintact.form_eq_empty hkind' hparameter hform
            exact absurd hv List.not_mem_nil
      | baseSort _ | baseOperator _ | baseConstant _ =>
          refine absurd (hintact.isBase_eq_false hform) (Bool.not_eq_false _ ▸ ?_)
          rw [← SymbolKind.isBase_unsized, h.alike.unsized, SymbolKind.isBase_unsized, hkind]
          rfl

end

end Account

end Draft

section

variable {names names' : Interner} {tables : List Table} {id : TableId} {library : Library}
  {config : CheckConfig} {m : Module} {out : CheckOutput} {t : Table}

theorem checkModule_normal (h : Session names tables)
    (held : ∀ entry ∈ library.tables, entry.2 ∈ tables)
    (hall : ∀ t ∈ tables, t.isValid = true → ∀ x, t.NormalAt x)
    (checked : checkModule names id library config m = (names', .ok out))
    (hvalid : out.table.isValid = true) (x : SymbolId) : out.table.NormalAt x := by
  obtain ⟨d, hrun, rfl, hclean, htable⟩ := checkModule_valid checked hvalid
  obtain ⟨imported, base, hstaged⟩ := h.staged held hrun
  obtain ⟨declarations, registered, -, haccount⟩ := hstaged.account
  have htrusted := checkModule_trusted h.archive.1 h.archive.2 held checked hvalid
  have halike : base.table.Alike out.table := by
    rw [htable]
    exact hstaged.sized.written.toAlike.trans (.of_eq rfl rfl rfl)
  have hforms : ∀ x, (out.table.symbolAt x).canonical = (base.table.symbolAt x).canonical := by
    rw [htable]
    exact hstaged.sized.written.canonical
  intro form hform
  refine haccount.normalAt hstaged.declared.intact (fun x himported form hform => ?_) x form
    ((hforms x).symm.trans hform)
  refine htrusted.normalAt h.archive.2 (fun t ht hvalid x _ => hall t ht hvalid x) ?_ form
    ((hforms x).trans hform)
  rwa [Symbol.isImported, halike.origin]

/-- All forms of a valid table are in normal form. -/
theorem Session.normal (h : Session names tables) :
    ∀ t ∈ tables, t.isValid = true → ∀ x, t.NormalAt x := by
  induction h with
  | start => exact fun _ ht => absurd ht List.not_mem_nil
  | intern _ _ ih => exact ih
  | failed _ _ ih => exact ih
  | check h fresh held checked ih =>
      intro t ht hvalid
      rcases List.mem_append.1 ht with ht | ht
      · exact ih t ht hvalid
      · obtain rfl := List.mem_singleton.1 ht
        exact checkModule_normal h held ih checked hvalid

end

end ManySorted
