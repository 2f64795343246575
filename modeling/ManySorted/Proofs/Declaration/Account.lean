import ManySorted.Proofs.Declaration.Restricting
import ManySorted.Proofs.Declaration.Survey

/-!
# What declaring does to a table

Once failures are marked, the forms of all declarations that stand are written, each worked out from
the forms that are there.  What is looked up in working out a form was written before, so the forms
are in the end just those that the final table itself gives (`Draft.Account`).  Writing forms
reports nothing; the restrictions are reported at last.

## Strategy

* **What is looked up.**  Opening unions looks up those that are met and not opened, and whatever is
  opened needs no form (`flatten_congr`).  So two tables give a position the same if they agree on
  the unions that have a form already (`Table.acceptedAt_congr`).
* **While forms are written.**  Forms are written over none, and what is worked out in the table as
  far as it is written is what is worked out at once (`Draft.Inscribing.acceptedAt_eq`).
* **What is spared.**  What failed gets no form, neither as a type nor as a parameter or constant
  (`Draft.Spared`).
* **The account.**  The forms that were worked out one after the other are those that the final
  table gives (`Draft.Penned.account`).  With the account of failures before it, this says all that
  declaring does (`Draft.account_of_declare`).
-/

namespace ManySorted

/-- Opening unions looks up those that are met and not opened. -/
theorem flatten_congr {known known' : SymbolId → AcceptedValues} {unopened : UnionMembers}
    {stack : List Member} {out : AcceptedValues}
    (hunopened : ∀ entry ∈ unopened, ∀ u, .union u ∈ entry.2 → known u = known' u)
    (hstack : ∀ u, .union u ∈ stack → known u = known' u) :
    flatten known unopened stack out = flatten known' unopened stack out := by
  fun_induction flatten known unopened stack out with
  | case1 => rw [flatten]
  | case2 unopened out values rest ih =>
      rw [flatten]
      exact ih hunopened fun u hu => hstack u (List.mem_cons_of_mem _ hu)
  | case3 unopened out u rest entry hfound ih =>
      have hentry : entry ∈ unopened := List.mem_of_find?_eq_some hfound
      rw [flatten]
      split
      · next entry' hfound' =>
          obtain rfl : entry = entry' := Option.some.inj (hfound.symm.trans hfound')
          refine ih (fun e he => hunopened e (List.mem_filter.1 he).1) fun w hw => ?_
          rcases List.mem_append.1 hw with hw | hw
          · exact hunopened entry hentry w hw
          · exact hstack w (List.mem_cons_of_mem _ hw)
      · next hnone => cases hfound.symm.trans hnone
  | case4 unopened out u rest hnone ih =>
      rw [flatten]
      split
      · next hfound => cases hnone.symm.trans hfound
      · rw [← hstack u List.mem_cons_self]
        exact ih hunopened fun w hw => hstack w (List.mem_cons_of_mem _ hw)

namespace Table

variable {t t' : Table} {x : SymbolId} {form : CanonicalForm}

theorem canonical_setCanonical (h : t.setCanonical x form = .ok t') :
    (t.Holds x → (t'.symbolAt x).canonical = some form) ∧
      (∀ y form', (t.symbolAt y).canonical = some form' →
        (t'.symbolAt y).canonical = some form') ∧
      t'.reports = t.reports := by
  unfold setCanonical at h
  split at h
  · cases h
  · next hnone =>
      cases h
      refine ⟨fun hx => ?_, fun y form' hy => ?_, rfl⟩
      · rw [symbolAt_updateSymbol, if_pos ⟨rfl, hx⟩]
      · have hne : y ≠ x := by
          rintro rfl
          exact hnone (by rw [hy]; rfl)
        rw [symbolAt_updateSymbol, if_neg fun h => hne h.1]
        exact hy

/-- Writing a form writes over none, and reports nothing. -/
theorem canonical_writeForm (h : t.writeForm x form = .ok t') :
    (t.Holds x → (t'.symbolAt x).canonical = some form) ∧
      (∀ y form', (t.symbolAt y).canonical = some form' →
        (t'.symbolAt y).canonical = some form') ∧
      t'.reports = t.reports := by
  unfold writeForm at h
  split at h
  · next info _ =>
      obtain ⟨t₁, hsort, h⟩ := except_bind_eq_ok.1 h
      have hholds : t.Holds x → t₁.Holds x := by
        unfold setCanonical at hsort
        split at hsort
        · cases hsort
        · cases hsort
          exact holds_updateSymbol.2
      obtain ⟨-, hkept, hreports⟩ := canonical_setCanonical hsort
      obtain ⟨hwritten, hkept', hreports'⟩ := canonical_setCanonical h
      exact ⟨fun hx => hwritten (hholds hx), fun y form' hy => hkept' y form' (hkept y form' hy),
        hreports'.trans hreports⟩
  · exact canonical_setCanonical h

theorem canonical_writeConstantForms (h : t.writeConstantForms = .ok t') :
    (∀ y form, (t.symbolAt y).canonical = some form → (t'.symbolAt y).canonical = some form) ∧
      t'.reports = t.reports := by
  refine foldlM_ok_induct (motive := fun c =>
    (∀ y form, (t.symbolAt y).canonical = some form → (c.symbolAt y).canonical = some form) ∧
      c.reports = t.reports) h ⟨fun _ _ h => h, rfl⟩ fun id _ c c' hc hstep => ?_
  obtain ⟨-, hkept, hreports⟩ := canonical_setCanonical hstep
  exact ⟨fun y form hy => hkept y form (hc.1 y form hy), hreports.trans hc.2⟩

/-! ### What is left alone -/

theorem canonical_setCanonical_of_ne (h : t.setCanonical x form = .ok t') {y : SymbolId}
    (hne : y ≠ x) : (t'.symbolAt y).canonical = (t.symbolAt y).canonical := by
  unfold setCanonical at h
  split at h
  · cases h
  · cases h
    rw [symbolAt_updateSymbol, if_neg fun h => hne h.1]

/-- A form is written to a symbol and to its sort only. -/
theorem canonical_writeForm_of_ne {names : Interner} (ht : t.Regular names)
    (h : t.writeForm x form = .ok t') {y : SymbolId} (hne : y ≠ x) (hsort : ¬ t.IsSort y) :
    (t'.symbolAt y).canonical = (t.symbolAt y).canonical := by
  unfold writeForm at h
  split at h
  · next info hinfo =>
      obtain ⟨t₁, hfirst, h⟩ := except_bind_eq_ok.1 h
      have hdata : (t.kindOf x).isData = true := by
        cases hkind : t.kindOf x <;> rw [hkind] at hinfo <;> first | rfl | cases hinfo
      obtain ⟨shape, info', hkind⟩ := exists_data_of_isData hdata
      rw [hkind] at hinfo
      cases hinfo
      refine (canonical_setCanonical_of_ne h hne).trans (canonical_setCanonical_of_ne hfirst ?_)
      rintro rfl
      exact hsort ⟨x, (ht.families.data hkind).sort_kind⟩
  · exact canonical_setCanonical_of_ne h hne

/-- Constants that failed get no form. -/
theorem canonical_writeConstantForms_of_failed (ht : t.Arena)
    (h : t.writeConstantForms = .ok t') {y : SymbolId} (hfailed : (t.symbolAt y).failed = true) :
    (t'.symbolAt y).canonical = (t.symbolAt y).canonical := by
  refine foldlM_ok_induct (motive := fun c =>
    (c.symbolAt y).canonical = (t.symbolAt y).canonical) h rfl fun id hid c c' hc hstep => ?_
  refine (canonical_setCanonical_of_ne hstep ?_).trans hc
  rintro rfl
  obtain ⟨s, hs, rfl⟩ := List.mem_map.1 hid
  obtain ⟨hs, hlacks⟩ := List.mem_filter.1 hs
  rw [(symbol_eq_symbolAt ht hs).2, (Draft.lacksConstantForm_iff.1 hlacks).2.1] at hfailed
  cases hfailed

/-- Whether what a union accepts is known once failures are marked: it is opened, or its form is
written. -/
def Settles (t : Table) (unions : UnionMembers) (u : SymbolId) : Prop :=
  (unions.find? u).isSome = true ∨ t.isStored u = true

/-- A position accepts the same in tables that agree on the unions with a form. -/
theorem acceptedAt_congr {unions : UnionMembers} {p : Position}
    (hforms : ∀ u, t.isStored u = true → (t'.symbolAt u).canonical = (t.symbolAt u).canonical)
    (hunions : ∀ entry ∈ unions, ∀ u, .union u ∈ entry.2 → t.Settles unions u)
    (hp : ∀ u, .union u ∈ p.members → t.Settles unions u) :
    t'.acceptedAt unions p = t.acceptedAt unions p := by
  have hknown : ∀ u, t.Settles unions u → t'.knownUnion unions u = t.knownUnion unions u := by
    rintro u (hsome | hstored)
    · rw [knownUnion, knownUnion, if_pos hsome, if_pos hsome]
    · rw [knownUnion, knownUnion, Symbol.accepted?, Symbol.accepted?, hforms u hstored]
  exact flatten_congr (fun entry hentry u hu => hknown u (hunions entry hentry u hu))
    fun u hu => hknown u (hp u hu)

end Table

/-- The unions among the members of a position are among its references. -/
theorem Scope.mem_refs_of_union {scope : Scope} {terms : List TypeTerm} {u : SymbolId}
    (hok : (scope.resolvePosition terms).problems = [])
    (hu : .union u ∈ (scope.resolvePosition terms).members) :
    u ∈ (scope.resolvePosition terms).refs ∧ (scope.table.kindOf u).isUnion = true := by
  obtain ⟨hmembers, hrefs, hproblems⟩ := scope.resolvePosition_eq terms
  rw [hmembers] at hu
  rw [hproblems, List.flatMap_eq_nil_iff] at hok
  obtain ⟨term, hterm, hu⟩ := List.mem_flatMap.1 hu
  obtain ⟨-, href, hunion⟩ := named_of_union_mem (hok term hterm) hu
  rw [hrefs]
  exact ⟨List.mem_flatMap.2 ⟨term, hterm, href⟩, hunion⟩

namespace Draft

variable {m : Module} {origin : Table} {start base d : Draft} {declarations : Declarations}

theorem Ready.settles {unions : UnionMembers} (h : Ready m unions base) {owner : Name}
    {terms : List TypeTerm}
    (hstands : ((base.scope m owner).resolvePosition terms).Stands base.table base.Stands)
    {u : SymbolId} (hu : .union u ∈ ((base.scope m owner).resolvePosition terms).members) :
    base.table.Settles unions u := by
  obtain ⟨href, hunion⟩ := Scope.mem_refs_of_union hstands.ok hu
  cases hstored : base.table.isStored u with
  | true => exact .inr hstored
  | false =>
      obtain ⟨_, _, _, _, _, _, hfind, _⟩ :=
        h.opens.own hunion hstored (hstands.refs u href hunion)
      exact .inl (by rw [hfind]; rfl)

section

variable {params : List ResolvedParam} (hstart : Registered m origin declarations start)
  (hbase : Sifted m start declarations params base)
include hstart hbase

theorem Sifted.settles_entry : ∀ entry ∈
    base.table.unionMembers (declarations.types.map (start.resolved m)), ∀ u, .union u ∈ entry.2 →
      base.table.Settles
        (base.table.unionMembers (declarations.types.map (start.resolved m))) u := by
  intro entry hentry u hu
  obtain ⟨r, hr, rfl⟩ := List.mem_map.1 hentry
  obtain ⟨hr, hkept⟩ := List.mem_filter.1 hr
  obtain ⟨b, hb, rfl⟩ := List.mem_map.1 hr
  rw [Bool.and_eq_true, Bool.not_eq_true'] at hkept
  obtain ⟨p, hp, hu⟩ := List.mem_flatMap.1 hu
  obtain ⟨terms, hterms, rfl⟩ := List.mem_map.1 hp
  rw [← hbase.resolvePosition] at hu
  exact (hbase.ready hstart).settles (hbase.stands hb hkept.1 hterms) hu

/-- What is worked out in the table as far as it is written is what is worked out at once. -/
theorem Inscribing.acceptedAt_eq {items : List Item} (h : Inscribing m base items d) {owner : Name}
    {terms : List TypeTerm}
    (hstands : ((base.scope m owner).resolvePosition terms).Stands base.table base.Stands) :
    d.table.acceptedAt (base.table.unionMembers (declarations.types.map (start.resolved m)))
        ((start.scope m owner).resolvePosition terms) =
      base.table.acceptedAt (base.table.unionMembers (declarations.types.map (start.resolved m)))
        ((start.scope m owner).resolvePosition terms) := by
  have hready := hbase.ready hstart
  rw [← hbase.resolvePosition]
  exact Table.acceptedAt_congr (fun u hu => h.stored hready hu) (hbase.settles_entry hstart)
    fun u hu => hready.settles hstands hu

end

/-! ## Writing all forms -/

/-- The symbol failed and is no sort, and no parameter with a type stands under it. -/
structure Spared (base : Draft) (params : List ResolvedParam) (y : SymbolId) : Prop where
  failed : (base.table.symbolAt y).failed = true
  plain : ¬ base.table.IsSort y
  param : ∀ r ∈ params, r.symbol = y → r.type = none

/-- The forms of some types and parameters are written as they are worked out in `base`, and nothing
is reported. -/
structure Penned (m : Module) (start base : Draft) (declarations : Declarations)
    (types : List Declaration) (params : List ResolvedParam) (d : Draft) : Prop where
  type : ∀ b ∈ types, base.Stands b.symbol → (d.table.symbolAt b.symbol).canonical =
    some ⟨(start.resolved m b).positions.map (base.table.acceptedAt
      (base.table.unionMembers (declarations.types.map (start.resolved m))))⟩
  param : ∀ r ∈ params, ∀ position, r.type = some position →
    (d.table.symbolAt r.symbol).canonical = some ⟨[base.table.acceptedAt
      (base.table.unionMembers (declarations.types.map (start.resolved m))) position]⟩
  reports_eq : d.table.reports = base.table.reports
  /-- Nothing is written to what failed. -/
  spared : ∀ y, Spared base params y →
    (d.table.symbolAt y).canonical = (base.table.symbolAt y).canonical

/-- What is written stays. -/
theorem Penned.keep {types : List Declaration} {params : List ResolvedParam} {d' : Draft}
    (h : Penned m start base declarations types params d)
    (hkept : ∀ y form, (d.table.symbolAt y).canonical = some form →
      (d'.table.symbolAt y).canonical = some form)
    (hreports : d'.table.reports = d.table.reports)
    (hspared : ∀ y, Spared base params y →
      (d'.table.symbolAt y).canonical = (d.table.symbolAt y).canonical) :
    Penned m start base declarations types params d' where
  type b hb hstands := hkept _ _ (h.type b hb hstands)
  param r hr position htype := hkept _ _ (h.param r hr position htype)
  reports_eq := hreports.trans h.reports_eq
  spared y hy := (hspared y hy).trans (h.spared y hy)

section

variable {params : List ResolvedParam} (hstart : Registered m origin declarations start)
  (hbase : Sifted m start declarations params base)
include hstart hbase

theorem ends_writeTypeForm {done rest : List Declaration} {b : Declaration}
    (hall : declarations.types = done ++ b :: rest) :
    Ends (fun d => Inscribing m base (done.map Declaration.item) d ∧
        Penned m start base declarations done [] d)
      (writeTypeForm (base.table.unionMembers (declarations.types.map (start.resolved m)))
        (start.resolved m b)) fun _ d =>
      Inscribing m base ((done ++ [b]).map Declaration.item) d ∧
        Penned m start base declarations (done ++ [b]) [] d := by
  have hb : b ∈ declarations.types := by
    rw [hall]
    exact List.mem_append_right _ List.mem_cons_self
  suffices hpenned : Ends (fun d => Inscribing m base (done.map Declaration.item) d ∧
      Penned m start base declarations done [] d)
      (writeTypeForm (base.table.unionMembers (declarations.types.map (start.resolved m)))
        (start.resolved m b)) fun _ => Penned m start base declarations (done ++ [b]) [] from
    fun d u d' hd hrun => ⟨(safe_writeTypeForm hstart hbase hall).ok hd.1 hrun,
      hpenned d u d' hd hrun⟩
  refine (ends_tick fun d clock hd => ⟨hd.1.of_clock clock,
    ⟨hd.2.type, hd.2.param, hd.2.reports_eq, hd.2.spared⟩⟩).bind fun _ => ?_
  refine ends_getTable_bind fun t => Ends.ite (fun hstands => ?_) fun hfailed => ends_pure ?_
  · -- the form is written, and those that were written before are kept
    refine ends_tryModifyTable ?_
    rintro d table ⟨⟨hinscribing, hpenned⟩, rfl⟩ hwrite
    obtain ⟨plan, hplan, -, -⟩ := hinscribing.written
    have hstands : base.Stands b.symbol := by
      rw [Bool.not_eq_true', start.resolved_symbol, hplan.failed] at hstands
      exact hstands
    have hholds : d.table.Holds b.symbol := (hplan.toAlike.holds _).2
      ((hbase.marks.toAlike.holds _).2
        (hstart.owns_holders hb (start.table.self_mem_holders _)).holds)
    obtain ⟨hwritten, hkept, hreports⟩ := Table.canonical_writeForm hwrite
    have hkept : Penned m start base declarations done [] { d with table } := by
      refine hpenned.keep hkept hreports fun y hy => Table.canonical_writeForm_of_ne
        hinscribing.intact.formed.toRegular hwrite ?_ fun hsort => hy.plain (hplan.isSort.1 hsort)
      rintro rfl
      exact Bool.false_ne_true (hstands.symm.trans hy.failed)
    refine ⟨fun b' hb' hstands' => ?_, hkept.param, hkept.reports_eq, hkept.spared⟩
    rcases List.mem_append.1 hb' with hb' | hb'
    · exact hkept.type b' hb' hstands'
    · obtain rfl := List.mem_singleton.1 hb'
      refine (hwritten hholds).trans ?_
      refine congrArg (fun l => some (CanonicalForm.mk l)) (List.map_congr_left fun p hp => ?_)
      obtain ⟨terms, hterms, rfl⟩ := List.mem_map.1 hp
      exact hinscribing.acceptedAt_eq hstart hbase (hbase.stands hb hstands hterms)
  · -- a declaration that failed gets no form, so nothing is asked of it
    rintro d ⟨⟨hinscribing, hpenned⟩, rfl⟩
    obtain ⟨plan, hplan, -, -⟩ := hinscribing.written
    refine ⟨fun b' hb' hstands' => ?_, hpenned.param, hpenned.reports_eq, hpenned.spared⟩
    rcases List.mem_append.1 hb' with hb' | hb'
    · exact hpenned.type b' hb' hstands'
    · obtain rfl := List.mem_singleton.1 hb'
      refine absurd ?_ hfailed
      rw [Bool.not_eq_true', start.resolved_symbol, hplan.failed]
      exact hstands'

theorem ends_writeParamForm {done rest : List ResolvedParam} {r : ResolvedParam}
    (hall : params = done ++ r :: rest) :
    Ends (fun d => ParamsInscribed m base declarations done d ∧
        Penned m start base declarations declarations.types done d)
      (writeParamForm (base.table.unionMembers (declarations.types.map (start.resolved m))) r)
      fun _ d => ParamsInscribed m base declarations (done ++ [r]) d ∧
        Penned m start base declarations declarations.types (done ++ [r]) d := by
  have hr : r ∈ params := by
    rw [hall]
    exact List.mem_append_right _ List.mem_cons_self
  suffices hpenned : Ends (fun d => ParamsInscribed m base declarations done d ∧
      Penned m start base declarations declarations.types done d)
      (writeParamForm (base.table.unionMembers (declarations.types.map (start.resolved m))) r)
      fun _ => Penned m start base declarations declarations.types (done ++ [r]) from
    fun d u d' hd hrun => ⟨(safe_writeParamForm hstart hbase hall).ok hd.1 hrun,
      hpenned d u d' hd hrun⟩
  -- What is spared of all parameters is spared of those before, and no parameter is written to it.
  have hdone : ∀ {y}, Spared base (done ++ [r]) y → Spared base done y := fun hy =>
    ⟨hy.failed, hy.plain, fun r' hr' => hy.param r' (List.mem_append_left _ hr')⟩
  have hlast : ∀ {y position}, Spared base (done ++ [r]) y → r.type = some position →
      y ≠ r.symbol := by
    rintro _ position hy htype rfl
    cases htype.symm.trans (hy.param r (List.mem_append_right _ List.mem_cons_self) rfl)
  have hsnoc : ∀ {d d' : Draft}, Penned m start base declarations declarations.types done d →
      (∀ y form, (d.table.symbolAt y).canonical = some form →
        (d'.table.symbolAt y).canonical = some form) →
      d'.table.reports = d.table.reports →
      (∀ y, Spared base (done ++ [r]) y →
        (d'.table.symbolAt y).canonical = (d.table.symbolAt y).canonical) →
      (∀ position, r.type = some position → (d'.table.symbolAt r.symbol).canonical =
        some ⟨[base.table.acceptedAt
          (base.table.unionMembers (declarations.types.map (start.resolved m))) position]⟩) →
      Penned m start base declarations declarations.types (done ++ [r]) d' := by
    intro d d' hd hkept hreports hspared hform
    refine ⟨fun b hb hstands => hkept _ _ (hd.type b hb hstands), fun r' hr' => ?_,
      hreports.trans hd.reports_eq, fun y hy => (hspared y hy).trans (hd.spared y (hdone hy))⟩
    rcases List.mem_append.1 hr' with hr' | hr'
    · exact fun position htype => hkept _ _ (hd.param r' hr' position htype)
    · exact List.mem_singleton.1 hr' ▸ hform
  obtain ⟨p, hp, hsymbol, hfailed | ⟨htype, hok, hupright⟩⟩ := hbase.param r hr
  · rw [writeParamForm, hfailed.1]
    exact ends_pure fun d hd => hsnoc hd.2 (fun _ _ h => h) rfl (fun _ _ => rfl)
      fun position h => by cases hfailed.1.symm.trans h
  · rw [writeParamForm, htype]
    refine ends_getTable_bind fun t => ends_tryModifyTable ?_
    rintro d table ⟨⟨⟨items, hinscribing, -⟩, hpenned⟩, rfl⟩ hwrite
    obtain ⟨plan, hplan, -, -⟩ := hinscribing.written
    have hholds : d.table.Holds r.symbol := (hplan.toAlike.holds _).2
      ((hbase.marks.toAlike.holds _).2 (hsymbol ▸ (hstart.kindOf_param hp).1.holds))
    obtain ⟨hwritten, hkept, hreports⟩ := Table.canonical_setCanonical hwrite
    refine hsnoc hpenned hkept hreports (fun y hy =>
      Table.canonical_setCanonical_of_ne hwrite (hlast hy htype)) fun position h => ?_
    obtain rfl := Option.some.inj (htype.symm.trans h)
    refine (hwritten hholds).trans ?_
    refine congrArg (fun v => some (CanonicalForm.mk [v]))
      (hinscribing.acceptedAt_eq hstart hbase ?_)
    rw [hbase.resolvePosition]
    exact ⟨List.isEmpty_iff.1 hok, hupright⟩

end

/-! ## The account -/

/-- The entries of the unions that are opened are those of unions that stand. -/
theorem mem_unionMembers {t : Table} {types : List ResolvedType} {entry : SymbolId × List Member} :
    entry ∈ t.unionMembers types ↔ ∃ r ∈ types, (t.symbolAt r.symbol).failed = false ∧
      (t.kindOf r.symbol).isUnion = true ∧ (r.symbol, r.members) = entry := by
  simp only [Table.unionMembers, List.mem_map, List.mem_filter, Bool.and_eq_true, Bool.not_eq_true',
    and_assoc]

/-- What declaring leaves: what falls has failed, the other declarations have the forms that the
table gives them, and all problems are reported. -/
structure Account (m : Module) (origin : Table) (declarations : Declarations) (start d : Draft) :
    Prop where
  registered : Registered m origin declarations start
  names_eq : d.names = start.names
  alike : start.table.Alike d.table
  later : start.table.Later d.table
  failed_iff : ∀ x, (d.table.symbolAt x).failed = true ↔
    Fallen m start declarations declarations.params x
  type : ∀ b ∈ declarations.types, d.Stands b.symbol → (d.table.symbolAt b.symbol).canonical =
    some ⟨(start.resolved m b).positions.map (d.table.acceptedAt
      (d.table.unionMembers (declarations.types.map (start.resolved m))))⟩
  param : ∀ p ∈ declarations.params, d.Stands p.symbol →
    (d.table.symbolAt p.symbol).canonical = some ⟨[d.table.acceptedAt
      (d.table.unionMembers (declarations.types.map (start.resolved m))) (start.resolvedParam m p)]⟩
  spared : ∀ {x}, (d.table.symbolAt x).failed = true → ¬ d.table.IsSort x →
    (d.table.symbolAt x).canonical = (start.table.symbolAt x).canonical
  reports_eq : d.table.reports = start.table.reports ++
    declarations.types.flatMap (start.typeProblems m) ++
    declarations.params.flatMap (fun p => (start.resolvedParam m p).problems) ++
    d.table.restrictionReports d.names m (declarations.types.map (start.resolved m))
      (declarations.params.map Parameter.symbol)

/-- A declared type or parameter that has a form stands. -/
theorem Account.stands (h : Account m origin declarations start d) {x : SymbolId}
    {form : CanonicalForm} (howns : start.table.Owns x)
    (hkind : (start.table.kindOf x).isDeclaredType = true ∨
      (start.table.kindOf x).isParameter = true)
    (hform : (d.table.symbolAt x).canonical = some form) : d.Stands x := by
  refine Bool.eq_false_iff.2 fun hfailed => ?_
  have hsort : ¬ d.table.IsSort x := by
    rw [h.alike.isSort]
    rintro ⟨_, hsort⟩
    rw [← isDeclaredType_unsized, ← isParameter_unsized, hsort] at hkind
    rcases hkind with hkind | hkind <;> cases hkind
  have hconvenience : (start.table.kindOf x).convenience?.isSome = false := by
    cases hx : start.table.kindOf x with
    | union convenience =>
        rw [hx] at hkind
        rcases hkind with hkind | hkind
        · cases convenience with
          | none => rfl
          | some _ => cases hkind
        · cases hkind
    | _ => rfl
  rw [h.spared hfailed hsort, h.registered.unwritten howns hconvenience] at hform
  cases hform

/-- A union supplies what it accepts by its form, whether it is opened or not. -/
theorem Account.supplies_union_iff (h : Account m origin declarations start d)
    {P : AcceptedValues → Prop} (hP : Additive P) (hempty : ¬ P ∅) {u : SymbolId} :
    Supplies P (d.table.knownUnion
      (d.table.unionMembers (declarations.types.map (start.resolved m))))
        (d.table.unionMembers (declarations.types.map (start.resolved m))) (.union u) ↔
      ∃ v, (d.table.symbolAt u).accepted? 0 = some v ∧ P v := by
  cases hfind : (d.table.unionMembers (declarations.types.map (start.resolved m))).find? u with
  | none =>
      -- a union that is not opened supplies what it is known for
      have hsupplies : Supplies P (d.table.knownUnion
          (d.table.unionMembers (declarations.types.map (start.resolved m))))
          (d.table.unionMembers (declarations.types.map (start.resolved m))) (.union u) ↔
          P (((d.table.symbolAt u).accepted? 0).getD ∅) := by
        rw [← Table.knownUnion_of_none hfind]
        constructor
        · rintro (_ | ⟨-, hp⟩ | ⟨hfind', -, -⟩)
          · exact hp
          · cases hfind.symm.trans hfind'
        · exact .known hfind
      rw [hsupplies]
      cases (d.table.symbolAt u).accepted? 0 with
      | none => simpa using hempty
      | some v => simp
  | some entry =>
      -- a union that is opened is declared here, and its form is what its members supply
      have heq : entry.1 = u := by
        rw [UnionMembers.find?] at hfind
        simpa using List.find?_some hfind
      obtain ⟨r, hr, hstands, hunion, rfl⟩ := mem_unionMembers.1 (List.mem_of_find?_eq_some hfind)
      obtain ⟨b, hb, rfl⟩ := List.mem_map.1 hr
      obtain rfl : b.symbol = u := heq
      obtain ⟨b', hb', hsymbol, members, hbody⟩ := h.registered.exists_union
        ((h.alike.isUnion b.symbol).symm.trans hunion) (h.registered.not_isStored hb)
      obtain rfl : b' = b :=
        List.inj_on_of_nodup_map h.registered.listsTypes.nodup hb' hb hsymbol
      have hpositions : (start.resolved m b').positions =
          [(start.scope m b'.decl.name).resolvePosition members] := by
        rw [resolved, hbody]
        rfl
      have hmembers : (start.resolved m b').members =
          ((start.scope m b'.decl.name).resolvePosition members).members := by
        rw [ResolvedType.members, hpositions, List.flatMap_singleton]
      have hform := h.type b' hb hstands
      rw [hpositions] at hform
      rw [Symbol.accepted?, hform]
      simp only [Option.bind_some, CanonicalForm.get?, List.map_cons, List.getElem?_cons_zero,
        Option.some.injEq, exists_eq_left', Table.acceptedAt_iff hP hempty]
      rw [← hmembers]
      constructor
      · rintro (_ | ⟨hfind', -⟩ | ⟨hfind', hmember, hsupplies⟩)
        · cases hfind.symm.trans hfind'
        · obtain rfl := Option.some.inj (hfind.symm.trans hfind')
          exact ⟨_, hmember, hsupplies⟩
      · rintro ⟨member, hmember, hsupplies⟩
        exact .opened hfind hmember hsupplies

/-- Nothing fails if no term has a problem. -/
theorem Account.unfailed (h : Account m origin declarations start d)
    (htypes : ∀ b ∈ declarations.types, start.typeProblems m b = [])
    (hparams : ∀ p ∈ declarations.params, (start.resolvedParam m p).problems = []) (x : SymbolId) :
    (d.table.symbolAt x).failed = false := by
  have hfalls : ∀ x, ¬ Falls m start declarations x := by
    intro x hx
    induction hx with
    | flawed hx =>
        rcases hx with ⟨b, hb, hflawed, -⟩ | ⟨p, hp, hproblem, -⟩
        · have hok : (start.resolved m b).positions.all Position.isOk = true := by
            refine List.all_eq_true.2 fun p hp => ?_
            rw [Position.isOk, List.flatMap_eq_nil_iff.1 (htypes b hb) p hp]
            rfl
          rw [isFlawed, hok] at hflawed
          cases hflawed
        · rw [Position.isOk, hparams p hp] at hproblem
          cases hproblem
    | spread _ _ _ _ ih => exact ih
  have hfallen : ∀ (params : List Parameter) x, ¬ Fallen m start declarations params x := by
    intro params
    induction params using List.reverseRecOn with
    | nil => exact hfalls
    | append_singleton params p ih =>
        intro x hx
        rcases fallen_snoc.1 hx with hx | ⟨-, r, -, hr⟩
        · exact ih x hx
        · exact ih r hr
  exact Bool.eq_false_iff.2 fun hfailed => hfallen _ x ((h.failed_iff x).1 hfailed)

section

variable {params : List ResolvedParam}

theorem unionMembers_congr {t t' : Table} {types : List ResolvedType}
    (h : t.FormsWritten t') : t'.unionMembers types = t.unionMembers types := by
  rw [Table.unionMembers, Table.unionMembers]
  refine congrArg _ (List.filter_congr fun r _ => ?_)
  rw [h.failed, h.toAlike.isUnion]

/-- The forms that were worked out one after the other are those that the final table gives. -/
theorem Penned.account {reports : List Report}
    (h : Penned m start base declarations declarations.types params d)
    (hwritten : AllInscribed m base declarations params d)
    (hfelled : Felled m start declarations reports declarations.params params base)
    (hbase : Sifted m start declarations params base)
    (hstart : Registered m origin declarations start) {d' : Draft} (hnames : d'.names = d.names)
    (hreports : d'.table.reports = start.table.reports ++
      declarations.types.flatMap (start.typeProblems m) ++
      declarations.params.flatMap (fun p => (start.resolvedParam m p).problems) ++
      d'.table.restrictionReports d'.names m (declarations.types.map (start.resolved m))
        (declarations.params.map Parameter.symbol))
    (hid : d'.table.id = d.table.id) (hnamespaces : d'.table.namespaces = d.table.namespaces)
    (hsymbols : d'.table.symbols = d.table.symbols) : Account m origin declarations start d' := by
  obtain ⟨items, constants, -, hd⟩ := hwritten.items
  obtain ⟨plan, hplan, -, -⟩ := hd.written
  have hat : ∀ x, d'.table.symbolAt x = d.table.symbolAt x := fun x => by
    rw [Table.symbolAt, Table.symbolAt, hsymbols]
  have hforms : base.table.FormsWritten d'.table :=
    hplan.toFormsWritten.trans ⟨.of_eq hid hnamespaces hsymbols, fun x => by rw [hat],
      fun x => by rw [hat]⟩
  have hstands : ∀ {x}, d'.Stands x → base.Stands x := fun {x} hx => (hforms.failed x).symm.trans hx
  -- What a position accepts by the table that was worked with is what it accepts by the final one.
  have haccepted : ∀ {owner : Name} {terms : List TypeTerm},
      ((base.scope m owner).resolvePosition terms).Stands base.table base.Stands →
      base.table.acceptedAt (base.table.unionMembers (declarations.types.map (start.resolved m)))
          ((start.scope m owner).resolvePosition terms) =
        d'.table.acceptedAt (d'.table.unionMembers (declarations.types.map (start.resolved m)))
          ((start.scope m owner).resolvePosition terms) := by
    intro owner terms hterms
    rw [unionMembers_congr hforms, ← hd.acceptedAt_eq hstart hbase hterms, Table.acceptedAt,
      Table.acceptedAt]
    refine congrArg (flatten · _ _ _) (funext fun u => ?_)
    rw [Table.knownUnion, Table.knownUnion, hat]
  have hlater : d.table.Later d'.table := .of_eq hid hnamespaces hsymbols
  refine ⟨hstart, hnames.trans (hd.names_eq.trans hbase.names_eq),
    hbase.marks.toAlike.trans hforms.toAlike,
    hbase.marks.later.trans (hplan.later.trans hlater), fun x => ?_, fun b hb hb' => ?_,
    fun p hp hp' => ?_, fun {x} hfailed hsort => ?_, hreports⟩
  · rw [hforms.failed, hfelled.failed_iff]
  · rw [hat, h.type b hb (hstands hb')]
    refine congrArg (fun l => some (CanonicalForm.mk l)) (List.map_congr_left fun q hq => ?_)
    obtain ⟨terms, hterms, rfl⟩ := List.mem_map.1 hq
    exact haccepted (hbase.stands hb (hstands hb') hterms)
  · -- a parameter that stands has kept its type
    obtain ⟨r, hr, hsymbol⟩ : ∃ r ∈ params, r.symbol = p.symbol := by
      have hmem := List.mem_map_of_mem (f := Parameter.symbol) hp
      rw [← hfelled.params_eq] at hmem
      exact List.mem_map.1 hmem
    obtain ⟨q, hq, hqsymbol, htype⟩ := hfelled.param r hr
    obtain rfl : q = p := List.inj_on_of_nodup_map hstart.listsParams.nodup hq hp
      (hqsymbol.symm.trans hsymbol)
    rw [if_neg (by rw [hstands hp']; exact Bool.false_ne_true)] at htype
    have hupright : ((base.scope m q.name).resolvePosition q.type).Stands base.table
        base.Stands := by
      obtain ⟨p', hp', hsymbol', hfailed | ⟨htype', hok, hupright⟩⟩ := hbase.param r hr
      · cases hfailed.1.symm.trans htype
      · obtain rfl : p' = q := List.inj_on_of_nodup_map hstart.listsParams.nodup hp' hq
          (hsymbol'.trans hqsymbol)
        rw [hbase.resolvePosition]
        exact ⟨List.isEmpty_iff.1 hok, hupright⟩
    rw [hat, ← hsymbol, h.param r hr _ htype]
    exact congrArg (fun v => some (CanonicalForm.mk [v])) (haccepted hupright)
  · rw [hforms.failed] at hfailed
    rw [hat, h.spared x ⟨hfailed, fun hsort' => hsort (hforms.isSort.2 hsort'), ?_⟩,
      hbase.marks.canonical]
    rintro r hr rfl
    obtain ⟨p, -, hsymbol, htype⟩ := hfelled.param r hr
    rw [htype, ← hsymbol, if_pos hfailed]

/-- The forms that are written once failures have spread. -/
theorem ends_writeSpreadForms (hstart : Registered m origin declarations start)
    (hformed : ImportsFormed origin) (hbase : Sifted m start declarations params base) :
    Ends (· = base) (do
        let unions := (← getTable).unionMembers (declarations.types.map (start.resolved m))
        (declarations.types.map (start.resolved m)).forM (writeTypeForm unions)
        params.forM (writeParamForm unions)
        tryModifyTable (·.writeConstantForms)) fun _ d =>
      AllInscribed m base declarations params d ∧
        Penned m start base declarations declarations.types params d := by
  refine ends_getTable_bind fun t => ?_
  have hparams : Ends (fun d => Inscribing m base (declarations.types.map Declaration.item) d ∧
      Penned m start base declarations declarations.types [] d)
      (params.forM (writeParamForm
        (base.table.unionMembers (declarations.types.map (start.resolved m)))))
      fun _ d => ParamsInscribed m base declarations params d ∧
        Penned m start base declarations declarations.types params d := by
    refine (ends_forM (motive := fun done d => ParamsInscribed m base declarations done d ∧
      Penned m start base declarations declarations.types done d)
      fun done r rest hall => ends_writeParamForm hstart hbase hall).imp (fun d hd => ?_)
      fun _ _ hd => hd
    refine ⟨⟨[], ?_, rfl, fun _ hitem => absurd hitem List.not_mem_nil⟩, hd.2⟩
    rw [List.append_nil]
    exact hd.1
  have hconstants : Ends (fun d => ParamsInscribed m base declarations params d ∧
      Penned m start base declarations declarations.types params d)
      (tryModifyTable (·.writeConstantForms)) fun _ d => AllInscribed m base declarations params d ∧
        Penned m start base declarations declarations.types params d := by
    refine ends_tryModifyTable fun d table hd hwrite => ?_
    obtain ⟨table', hwrite', hinscribed⟩ := hd.1.writeConstantForms hstart hformed hbase
    cases hwrite.symm.trans hwrite'
    obtain ⟨hkept, hreports⟩ := Table.canonical_writeConstantForms hwrite
    obtain ⟨items, hinscribing, -⟩ := hd.1
    obtain ⟨plan, hplan, -, -⟩ := hinscribing.written
    refine ⟨hinscribed, hd.2.keep hkept hreports fun y hy => ?_⟩
    exact Table.canonical_writeConstantForms_of_failed hinscribing.intact.formed.arena hwrite
      ((hplan.failed y).trans hy.failed)
  rintro d a d' ⟨rfl, rfl⟩ hrun
  refine Ends.bind ?_ (fun _ => hparams.bind fun _ => hconstants) d a d' rfl hrun
  rw [List.forM_eq_forM, List.forM_map, ← List.forM_eq_forM]
  refine (ends_forM (motive := fun done d' => Inscribing m d (done.map Declaration.item) d' ∧
    Penned m start d declarations done [] d')
    fun done b rest hall => ends_writeTypeForm hstart hbase hall).imp ?_ fun _ _ hd => hd
  rintro d' rfl
  exact ⟨.nil (hbase.intact hstart.intact), fun _ hb => absurd hb List.not_mem_nil,
    fun _ hr => absurd hr List.not_mem_nil, rfl, fun _ _ => rfl⟩

end

/-- Declaring, from a table in which all symbols are settled. -/
theorem account_of_declare {imported : Draft} (hformed : ImportsFormed imported.table)
    (henrolled : Enrolled imported.table [] [] [] imported)
    (hsettled : ∀ {x}, imported.table.Holds x → (imported.table.symbolAt x).isSettled = true)
    (hunfailed : ∀ {x}, imported.table.Holds x → (imported.table.symbolAt x).failed = false)
    (hrun : declare m imported = .ok () d) :
    ∃ declarations start, registerDeclarations m imported = .ok declarations start ∧
      Account m imported.table declarations start d := by
  obtain ⟨declarations, start, hregister, hrun⟩ := bind_eq_ok.1 hrun
  have hstart := (safe_registerDeclarations m).ok henrolled hregister
  have hfresh : ∀ x, (start.table.symbolAt x).failed = false := by
    intro x
    by_cases hold : imported.table.Holds x
    · rw [(hstart.extended.later.symbol hold).settled (hsettled hold)]
      exact hunfailed hold
    · by_cases hx : start.table.Holds x
      · obtain ⟨horigin, -, hbase⟩ := hstart.extended.new hx hold
        exact (hstart.fresh (Table.owns_of_origin hx horigin hbase)).1
      · rw [Table.symbolAt_of_not_holds hx]
        rfl
  refine ⟨declarations, start, hregister, ?_⟩
  obtain ⟨types, d₁, htypes, hrun⟩ := bind_eq_ok.1 hrun
  obtain ⟨params, d₂, hparams, hrun⟩ := bind_eq_ok.1 hrun
  obtain ⟨_, d₃, hwrite, hreport⟩ := bind_eq_ok.1 hrun
  have hexamined := (safe_resolveTypes hstart).ok rfl htypes
  obtain ⟨hsurveyed₁, rfl⟩ := ends_resolveTypes hstart hfresh _ _ _ rfl htypes
  have hexamined₂ := (safe_resolveParams hstart).ok hexamined hparams
  obtain ⟨hsurveyed, rfl⟩ := ends_resolveParams hstart _ _ _ hsurveyed₁ hparams
  -- The failures spread to the types, and from there to the parameters.
  obtain ⟨_, d₄, hspread, hwrite⟩ := bind_eq_ok.1 hwrite
  obtain ⟨params, base, hfell, hwrite⟩ := bind_eq_ok.1 hwrite
  have hspread₄ := (safe_spreadTypes hstart).ok hexamined₂ hspread
  have hbase := (safe_spreadParams hstart).ok hspread₄ hfell
  have hspreading := ends_spreadFailures hstart _ _ _ _ (hsurveyed.spreading hstart) hspread
  have hnone : failing d₄.table (declarations.types.map (start.resolved m)) = [] := by
    have hbelong : Belong declarations (declarations.types.map (start.resolved m)) := by
      intro r hr
      obtain ⟨b, hb, rfl⟩ := List.mem_map.1 hr
      exact ⟨b, hb, rfl⟩
    exact ((safe_spreadFailures hstart hbelong _ hexamined₂.1.toSifting
      (Nat.lt_succ_of_le (List.length_filter_le _ _))).ok ⟨rfl, rfl⟩ hspread).2
  have hfelled := ends_spreadParams hstart _ _ _ ⟨hspreading.toSifting,
    hspreading.failed_iff hnone, hspreading.reports_eq, rfl, fun _ hr => absurd hr List.not_mem_nil⟩
    hfell
  obtain ⟨hinscribed, hpenned⟩ := ends_writeSpreadForms hstart hformed hbase _ _ _ rfl hwrite
  cases hreport
  obtain ⟨hid, hnamespaces, hsymbols⟩ := d₃.table.reportAll_eq (d₃.table.restrictionReports d₃.names
    m (declarations.types.map (start.resolved m))
      ((declarations.params.map (start.surveyedParam m)).map ResolvedParam.symbol))
  refine hpenned.account hinscribed hfelled hbase hstart rfl ?_ hid hnamespaces hsymbols
  have hsymbol : (declarations.params.map (start.surveyedParam m)).map ResolvedParam.symbol =
      declarations.params.map Parameter.symbol := by
    rw [List.map_map]
    rfl
  have hat : ∀ x, ((d₃.table.reportAll (d₃.table.restrictionReports d₃.names m
      (declarations.types.map (start.resolved m))
      ((declarations.params.map (start.surveyedParam m)).map ResolvedParam.symbol))).symbolAt x) =
      d₃.table.symbolAt x := fun x => by rw [Table.symbolAt, Table.symbolAt, hsymbols]
  dsimp only
  rw [Table.restrictionReports_congr (.of_eq hid hnamespaces hsymbols)
    (fun x => by rw [hat]) fun x => by rw [hat], Table.reports_reportAll, hpenned.reports_eq,
    hfelled.reports_eq, hsurveyed.reports_eq, hsymbol]

end Draft

end ManySorted
