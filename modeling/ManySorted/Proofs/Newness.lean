import ManySorted.Proofs.Accepted.Opening
import ManySorted.Proofs.Import.Provenance
import ManySorted.Proofs.Session.Completeness

/-!
# New data contains nothing derived

The restriction on new data looks at the symbols that a position names and at what the unions among
them accept, one level deep, and only at the declarations of the module itself.  That is enough:
what a position accepts is named there or accepted by a union that is named (`Supplies.derived`), so
the form of new data accepts no derived data and no derived constant, and copying does not change
what is derived.  All data that new data accepts is then new in turn, and by induction over terms
nothing derived occurs at any depth (`Session.newness`).

## Strategy

* **Positions.**  What a position accepts is named by its terms or supplied by a union that is named
  (`Draft.Account.derivedMembers_ne_nil`).
* **Declarations.**  If nothing is reported, new data of the module accepts nothing derived
  (`Draft.Account.not_takesDerived`).
* **Imported data.**  Renamed values take something derived only if the values do
  (`Table.Embedding.takesDerived`), so the restriction holds of copies as it holds of the originals
  (`Table.Trusted.not_takesDerived`).
* **Terms.**  Data that new data accepts is new in turn, so nothing derived occurs at any depth, by
  induction on the term (`Session.newness`).
-/

namespace ManySorted

/-- A symbol occurs in a term, as a constant or as the head of an application, at some depth. -/
inductive Term.Mentions (x : SymbolId) : Term → Prop
  | constant : Mentions x (.constant x)
  | head {arguments : List Term} : Mentions x (.data x arguments)
  | argument {d : SymbolId} {arguments : List Term} {a : Term} (ha : a ∈ arguments)
      (h : Mentions x a) : Mentions x (.data d arguments)

namespace Table

variable {t t' : Table} {x : SymbolId} {v w : AcceptedValues}

/-- Whether a symbol is a derived constructor or a derived constant. -/
def IsDerived (t : Table) (x : SymbolId) : Prop :=
  (∃ info, t.kindOf x = .data (.constructor false) info) ∨ t.kindOf x = .userConstant .derived

/-- Whether the values speak of a derived constant or of the sort of derived data. -/
def TakesDerived (t : Table) (v : AcceptedValues) : Prop :=
  ∃ x ∈ v.refs, t.IsDerived ((t.dataOf? x).getD x)

theorem derivedRef?_isSome : (t.derivedRef? x).isSome = true ↔
    t.IsDerived ((t.dataOf? x).getD x) := by
  unfold derivedRef? IsDerived
  cases hkind : t.kindOf ((t.dataOf? x).getD x) with
  | data shape info =>
      cases shape with
      | constructor isNew => cases isNew <;> simp [hkind]
      | map kind isPartial domainArity => simp [hkind]
  | userConstant constant => cases constant <;> simp [hkind]
  | _ => simp [hkind]

theorem additive_takesDerived (t : Table) : Additive t.TakesDerived := by
  intro v w
  simp only [TakesDerived, AcceptedValues.mem_refs, AcceptedValues.union, OrderedSet.mem_union,
    or_and_right, exists_or]
  exact or_or_or_comm

theorem not_takesDerived_empty : ¬ t.TakesDerived ∅ := by
  rintro ⟨x, hx, -⟩
  exact List.not_mem_nil hx

theorem takesDerived_iff {u : SymbolId} {values : AcceptedValues}
    (haccepted : (t.symbolAt u).accepted? 0 = some values) :
    t.TakesDerived values ↔ t.derivedMembers u ≠ [] := by
  rw [derivedMembers, haccepted]
  dsimp only
  rw [Ne, List.filterMap_eq_nil_iff]
  push Not
  refine exists_congr fun x => and_congr ?_ ?_
  · rw [AcceptedValues.refs, List.mem_append, List.mem_append, or_comm]
  · rw [← derivedRef?_isSome, Option.isSome_iff_ne_none]

/-- Every argument is accepted by a position. -/
theorem AdmitsAll.exists_mem {positions : List AcceptedValues} {arguments : List Term}
    (h : t.AdmitsAll positions arguments) {a : Term} (ha : a ∈ arguments) :
    ∃ v ∈ positions, t.Admits v a := by
  have hall := admitsAll_iff.1 h
  induction hall with
  | nil => exact absurd ha List.not_mem_nil
  | @cons v b positions arguments hadmits hall ih =>
      rcases List.mem_cons.1 ha with rfl | ha
      · exact ⟨v, List.mem_cons_self, hadmits⟩
      · obtain ⟨w, hw, hadmits⟩ := ih (admitsAll_iff.2 hall) ha
        exact ⟨w, List.mem_cons_of_mem _ hw, hadmits⟩

end Table

/-! ## What a position speaks of -/

namespace Scope

variable {scope : Scope}

/-- What an enumeration accepts are literals and the constants that it names. -/
theorem refs_foldl_readElement (scope : Scope) (elements : List EnumElement) :
    (elements.foldl scope.readElement {}).values.sorts = ∅ ∧
      ∀ x, .symbol x ∈ (elements.foldl scope.readElement {}).values.constants →
        x ∈ (elements.foldl scope.readElement {}).refs := by
  refine List.foldlRecOn (motive := fun r : Reading => r.values.sorts = ∅ ∧
    ∀ x, .symbol x ∈ r.values.constants → x ∈ r.refs) elements _ ?_ fun r hr element _ => ?_
  · exact ⟨rfl, fun x hx => absurd hx List.not_mem_nil⟩
  · have hrange : ∀ low high, (r.values.addRange low high).sorts = ∅ ∧
        ∀ x, .symbol x ∈ (r.values.addRange low high).constants → x ∈ r.refs := by
      intro low high
      unfold AcceptedValues.addRange
      split
      · exact hr
      · exact hr
    cases element with
    | constant id =>
        simp only [readElement]
        split
        · exact hr
        · next symbol _ =>
            have hadd : ∀ x, .symbol x ∈ (r.values.addConstant symbol).constants →
                x ∈ r.refs ++ [symbol] := by
              intro x hx
              rcases OrderedSet.mem_insert.1 hx with heq | hx
              · cases heq
                exact List.mem_append_right _ List.mem_cons_self
              · exact List.mem_append_left _ (hr.2 x hx)
            split
            · exact ⟨hr.1, hadd⟩
            · exact ⟨hr.1, hadd⟩
            · exact hr
    | literal literal span =>
        cases literal with
        | integer value => exact hrange value value
        | string value =>
            refine ⟨hr.1, fun x hx => hr.2 x ?_⟩
            rcases OrderedSet.mem_insert.1 hx with heq | hx
            · cases heq
            · exact hx
    | range low high span =>
        simp only [readElement]
        split
        · exact hrange low high
        · exact hr

/-- The values of a term speak of the symbols that it names, or of their sorts. -/
theorem refs_of_mem_members {names : Interner} (hregular : scope.table.Regular names)
    {terms : List TypeTerm} {v : AcceptedValues}
    (hv : .values v ∈ (scope.resolvePosition terms).members) {x : SymbolId} (hx : x ∈ v.refs) :
    ∃ r ∈ (scope.resolvePosition terms).refs,
      (scope.table.dataOf? x).getD x = (scope.table.dataOf? r).getD r := by
  obtain ⟨hmembers, hrefs, -⟩ := scope.resolvePosition_eq terms
  rw [hmembers] at hv
  rw [hrefs]
  obtain ⟨term, hterm, hv⟩ := List.mem_flatMap.1 hv
  suffices h : ∃ r ∈ (scope.resolveTerm term).refs,
      (scope.table.dataOf? x).getD x = (scope.table.dataOf? r).getD r by
    obtain ⟨r, hr, heq⟩ := h
    exact ⟨r, List.mem_flatMap.2 ⟨term, hterm, hr⟩, heq⟩
  cases term with
  | enumeration elements span =>
      -- an enumeration lists constants only, and refers to each of them
      cases List.mem_singleton.1 hv
      obtain ⟨hsorts, hconstants⟩ := scope.refs_foldl_readElement elements
      rcases AcceptedValues.mem_refs.1 hx with hx | hx
      · exact ⟨x, hconstants x hx, rfl⟩
      · rw [hsorts] at hx
        exact absurd hx List.not_mem_nil
  | named id =>
      -- a name contributes values only if it is of data, of which it then names the sort
      change Member.values v ∈ (scope.resolveType id).members at hv
      change ∃ r ∈ (scope.resolveType id).refs, _
      unfold resolveType at hv ⊢
      split
      · next symbol hfound =>
          rw [hfound] at hv
          refine ⟨symbol, List.mem_cons_self, ?_⟩
          have hv := List.mem_singleton.1 hv
          unfold memberOf at hv
          split at hv
          · cases hv
            exact absurd hx List.not_mem_nil
          · cases hv
          · next shape info hkind =>
              cases hv
              have hsort := Table.dataOf?_eq_some_iff.2 (hregular.families.data hkind).sort_kind
              have hdata : scope.table.dataOf? symbol = none := by
                rw [Table.dataOf?, hkind]
              obtain rfl : x = info.sort := by
                rcases AcceptedValues.mem_refs.1 hx with hx | hx
                · exact absurd hx List.not_mem_nil
                · rcases OrderedSet.mem_insert.1 hx with heq | hx
                  · exact heq
                  · exact absurd hx List.not_mem_nil
              rw [hsort, hdata]
              rfl
          · cases hv
            exact absurd hx List.not_mem_nil
      · next hproblem =>
          rw [hproblem] at hv
          exact absurd hv List.not_mem_nil

end Scope

/-! ## The declarations of a module -/

namespace Draft

variable {m : Module} {origin : Table} {start d : Draft} {declarations : Declarations}

/-- A union that supplies something derived accepts it by its form. -/
theorem Account.derivedMembers_ne_nil (h : Account m origin declarations start d) {u : SymbolId}
    (hsupplies : Supplies d.table.TakesDerived
      (d.table.knownUnion (d.table.unionMembers (declarations.types.map (start.resolved m))))
      (d.table.unionMembers (declarations.types.map (start.resolved m))) (.union u)) :
    d.table.derivedMembers u ≠ [] := by
  obtain ⟨v, hv, htakes⟩ := (h.supplies_union_iff (Table.additive_takesDerived _)
    Table.not_takesDerived_empty).1 hsupplies
  exact (Table.takesDerived_iff hv).1 htakes

/-- The restriction on new data: if nothing is reported, new data of the module accepts nothing
derived. -/
theorem Account.not_takesDerived (h : Account m origin declarations start d)
    (hclean : d.table.hasErrors = false) {x : SymbolId} (howns : d.table.Owns x)
    (hnew : (d.table.kindOf x).isNew = true) (hstands : d.Stands x) {form : CanonicalForm}
    (hform : (d.table.symbolAt x).canonical = some form) :
    ∀ v ∈ form.positions, ¬ d.table.TakesDerived v := by
  have hregular := h.registered.intact.formed.toRegular
  obtain ⟨b, hb, rfl⟩ : ∃ b ∈ declarations.types, b.symbol = x := by
    refine List.mem_map.1 (h.registered.listsTypes.mem_iff.2 ⟨h.alike.owns.1 howns, ?_⟩)
    rw [← isDeclaredType_unsized, ← h.alike.unsized, isDeclaredType_unsized]
    cases hkind : d.table.kindOf x <;> rw [hkind] at hnew <;> first | rfl | cases hnew
  have hmem : ∀ r ∈ start.typeProblems m b ++
      d.table.newnessReports d.names (start.resolved m b), r ∈ d.table.reports := by
    intro r hr
    rw [h.reports_eq, Table.restrictionReports]
    simp only [List.mem_append, List.mem_flatMap, List.mem_map] at hr ⊢
    rcases hr with hr | hr
    · exact .inl (.inl (.inr ⟨b, hb, hr⟩))
    · exact .inr (.inl (.inl ⟨_, ⟨b, hb, rfl⟩, hr⟩))
  rw [h.type b hb hstands] at hform
  cases hform
  intro v hv htakes
  obtain ⟨p, hp, rfl⟩ := List.mem_map.1 hv
  rw [Table.acceptedAt_iff (Table.additive_takesDerived _) Table.not_takesDerived_empty] at htakes
  obtain ⟨member, hmember, hsupplies⟩ := htakes
  obtain ⟨terms, -, rfl⟩ := List.mem_map.1 hp
  -- A position with a problem would have left an error.
  have hok : ((start.scope m b.decl.name).resolvePosition terms).problems = [] := by
    refine List.eq_nil_iff_forall_not_mem.2 fun r hr => ?_
    refine Bool.false_ne_true (hclean.symm.trans (Table.hasErrors_of_mem (hmem r ?_)
      ((Scope.resolvePosition_sound hregular terms).2 r hr)))
    exact List.mem_append_left _ (List.mem_flatMap.2 ⟨_, hp, hr⟩)
  -- What is derived is behind one of the references, which is reported.
  obtain ⟨ref, href, hbehind⟩ : ∃ ref ∈ ((start.scope m b.decl.name).resolvePosition terms).refs,
      d.table.derivedBehind ref ≠ [] := by
    cases member with
    | values v =>
        cases hsupplies with
        | values htakes =>
            obtain ⟨y, hy, hderived⟩ := htakes
            obtain ⟨r, hr, heq⟩ := Scope.refs_of_mem_members hregular hmember hy
            refine ⟨r, hr, ?_⟩
            change (start.table.dataOf? y).getD y = (start.table.dataOf? r).getD r at heq
            rw [h.alike.dataOf?, heq, ← h.alike.dataOf?, ← Table.derivedRef?_isSome] at hderived
            obtain ⟨arg, harg⟩ := Option.isSome_iff_exists.1 hderived
            rw [Table.derivedBehind, harg]
            exact List.cons_ne_nil _ _
    | union u =>
        obtain ⟨href, hunion⟩ := Scope.mem_refs_of_union hok hmember
        refine ⟨u, href, ?_⟩
        have hunion' : (d.table.kindOf u).isUnion = true := (h.alike.isUnion u).trans hunion
        rw [Table.derivedBehind]
        split
        · exact List.cons_ne_nil _ _
        · rw [if_pos hunion']
          exact fun hnil => h.derivedMembers_ne_nil hsupplies (List.map_eq_nil_iff.1 hnil)
  obtain ⟨found, rest, hfound⟩ := List.exists_cons_of_ne_nil hbehind
  have hrefs : found ∈ (start.resolved m b).refs.flatMap d.table.derivedBehind := by
    refine List.mem_flatMap.2 ⟨ref, List.mem_flatMap.2 ⟨_, hp, href⟩, ?_⟩
    rw [hfound]
    exact List.mem_cons_self
  obtain ⟨r, hr, hgrave⟩ : ∃ r ∈ d.table.newnessReports d.names (start.resolved m b),
      r.isWarning = false := by
    have hdue : ¬ ((d.table.symbolAt b.symbol).failed ||
        !(d.table.symbolAt b.symbol).kind.isNew) = true := by
      rw [show (d.table.symbolAt b.symbol).failed = false from hstands,
        show (d.table.symbolAt b.symbol).kind.isNew = true from hnew]
      exact Bool.false_ne_true
    rw [Table.newnessReports, resolved_symbol, if_neg hdue]
    refine ⟨_, List.mem_map_of_mem hrefs, ?_⟩
    obtain ⟨arg, via⟩ := found
    cases via <;> rfl
  exact Bool.false_ne_true (hclean.symm.trans
    (Table.hasErrors_of_mem (hmem r (List.mem_append_right _ hr)) hgrave))

end Draft

/-! ## Valid tables -/

namespace Table

variable {names : Interner} {tables : List Table} {foreign t t' : Table} {base : NamespaceId}
  {ρ : SymbolId → SymbolId} {x : SymbolId} {v : AcceptedValues}

/-- New data of the module accepts nothing derived. -/
def Renews (t : Table) : Prop := ∀ {x form}, t.Owns x → (t.kindOf x).isNew = true →
  (t.symbolAt x).canonical = some form → ∀ v ∈ form.positions, ¬ t.TakesDerived v

theorem Alike.takesDerived (h : t.Alike t') : t'.TakesDerived v ↔ t.TakesDerived v := by
  refine exists_congr fun x => and_congr_right fun _ => ?_
  rw [← derivedRef?_isSome, h.derivedRef?, derivedRef?_isSome]

/-- What is derived is derived in the original. -/
theorem isDerived_of_outline {y : SymbolId}
    (h : (t.kindOf y).outline = (foreign.kindOf x).outline) (hderived : t.IsDerived y) :
    foreign.IsDerived x := by
  rcases hderived with ⟨info, hkind⟩ | hkind
  · rw [hkind] at h
    obtain ⟨info', hkind', -⟩ := SymbolKind.data_of_outline h.symm
    exact .inl ⟨info', hkind'⟩
  · rw [hkind] at h
    cases hkind' : foreign.kindOf x with
    | userConstant constant =>
        rw [hkind'] at h
        cases constant <;> first | exact .inr hkind' | cases h
    | _ =>
        rw [hkind'] at h
        cases h

/-- Renamed values take something derived only if the values do. -/
theorem Embedding.takesDerived (h : foreign.Embedding t base ρ) (hforeign : foreign.Regular names)
    (ht : t.Regular names) (hclosed : v.Closed foreign) (htakes : t.TakesDerived (v.rename ρ)) :
    foreign.TakesDerived v := by
  obtain ⟨y, hy, hderived⟩ := htakes
  rcases AcceptedValues.mem_refs.1 hy with hy | hy
  · obtain ⟨c, hc, heq⟩ := AcceptedValues.symbol_mem_constants_mapIds.1 hy
    obtain rfl := Option.some.inj heq
    have hconstant : foreign.IsConstant c := hclosed.constants hc
    have hnone : ∀ {t : Table} {c : SymbolId}, t.IsConstant c → t.dataOf? c = none := by
      intro t c hc
      refine Option.eq_none_iff_forall_ne_some.2 fun d hd => ?_
      obtain ⟨size, hkind⟩ := SymbolKind.unsized_eq_userSort.1 (dataOf?_eq_some_iff.1 hd)
      rw [IsConstant, hkind] at hc
      cases hc
    rw [hnone (h.isConstant hconstant)] at hderived
    refine ⟨c, AcceptedValues.mem_refs.2 (.inl hc), ?_⟩
    rw [hnone hconstant]
    exact isDerived_of_outline (h.copies hconstant.carries).outline hderived
  · obtain ⟨s, hs, heq⟩ := AcceptedValues.mem_sorts_mapIds.1 hy
    obtain rfl := Option.some.inj heq
    obtain ⟨d, hd⟩ := isSort_iff_dataOf?.1 (hclosed.sorts hs)
    obtain ⟨shape, info, hkind, -⟩ := hforeign.families.sort (dataOf?_eq_some_iff.1 hd)
    rw [h.dataOf? hforeign ht hd] at hderived
    refine ⟨s, AcceptedValues.mem_refs.2 (.inr hs), ?_⟩
    rw [hd]
    exact isDerived_of_outline (h.copies (carries_of_data hkind)).outline hderived

/-- The restriction on new data holds of imported data, for it holds where the data comes from. -/
theorem Trusted.not_takesDerived (h : t.Trusted names tables) (harchive : Archive names tables)
    (hall : ∀ t ∈ tables, t.isValid = true → t.Renews) (hown : t.Renews)
    (hnew : (t.kindOf x).isNew = true) {form : CanonicalForm}
    (hform : (t.symbolAt x).canonical = some form) : ∀ v ∈ form.positions, ¬ t.TakesDerived v := by
  obtain ⟨shape, info, hkind⟩ : ∃ shape info, t.kindOf x = .data shape info := by
    cases hkind : t.kindOf x <;> rw [hkind] at hnew <;> first | exact ⟨_, _, rfl⟩ | cases hnew
  have hbase : (t.kindOf x).isBase = false := by rw [hkind]; rfl
  cases horigin : (t.symbolAt x).origin with
  | none => exact hown (owns_of_origin (holds_of_data hkind) horigin hbase) hnew hform
  | some o =>
      have hmerges : (t.kindOf x).mergesIntoRoot = false := by rw [hkind]; rfl
      obtain ⟨source, ρ, hsource, hembed, hcopy, _⟩ :=
        h.provenance.embedded (holds_of_data hkind) horigin hmerges
      have hsourceTrusted := harchive.trusted hsource.mem hsource.valid
      have howns := Source.owns hsource hcopy.outline hbase
      have houtline := hcopy.outline
      rw [hkind] at houtline
      obtain ⟨info', hkind', -⟩ := SymbolKind.data_of_outline houtline.symm
      have hnew' : (source.kindOf o.symbol).isNew = true := by
        rw [hkind'] at ⊢
        rw [hkind] at hnew
        cases shape <;> exact hnew
      rw [hcopy.form] at hform
      obtain ⟨original, horiginal, rfl⟩ := Option.map_eq_some_iff.1 hform
      intro v hv htakes
      obtain ⟨w, hw, rfl⟩ := List.mem_map.1 hv
      refine hall source hsource.mem hsource.valid howns hnew' horiginal w hw ?_
      refine hembed.takesDerived hsourceTrusted.formed.toRegular h.formed.toRegular ?_ htakes
      exact (hsourceTrusted.own_closed hsource.holds hsource.own).form horiginal w hw

end Table

section

variable {names names' : Interner} {tables : List Table} {id : TableId} {library : Library}
  {config : CheckConfig} {m : Module} {out : CheckOutput} {t : Table}

theorem checkModule_renews (h : Session names tables)
    (held : ∀ entry ∈ library.tables, entry.2 ∈ tables)
    (checked : checkModule names id library config m = (names', .ok out))
    (hvalid : out.table.isValid = true) : out.table.Renews := by
  obtain ⟨d, hrun, rfl, hclean, htable⟩ := checkModule_valid checked hvalid
  obtain ⟨imported, base, hstaged⟩ := h.staged held hrun
  obtain ⟨declarations, registered, -, haccount⟩ := hstaged.account
  have hfurnished := checkModule_furnished h held checked hvalid
  have halike : base.table.Alike out.table := by
    rw [htable]
    exact hstaged.sized.written.toAlike.trans (.of_eq rfl rfl rfl)
  have hforms : ∀ x, (out.table.symbolAt x).canonical = (base.table.symbolAt x).canonical := by
    rw [htable]
    exact hstaged.sized.written.canonical
  intro x form howns hnew hform v hv
  rw [halike.takesDerived]
  rw [hforms] at hform
  refine haccount.not_takesDerived (hstaged.clean hclean).2 (halike.owns.1 howns)
    ((halike.isNew x).symm.trans hnew) ?_ hform v hv
  have hunfailed := hfurnished.2 x howns.holds
  rw [htable] at hunfailed
  exact (hstaged.sized.written.failed x).symm.trans hunfailed

theorem Session.renews (h : Session names tables) : ∀ t ∈ tables, t.isValid = true → t.Renews := by
  induction h with
  | start => exact fun _ ht => absurd ht List.not_mem_nil
  | intern _ _ ih => exact ih
  | failed _ _ ih => exact ih
  | check h fresh held checked ih =>
      intro t ht hvalid
      rcases List.mem_append.1 ht with ht | ht
      · exact ih t ht hvalid
      · obtain rfl := List.mem_singleton.1 ht
        exact checkModule_renews h held checked hvalid

/-- Newness is sound at every depth: in a valid table, nothing derived occurs in a term of new data,
be it declared by the module or imported. -/
theorem Session.newness (h : Session names tables) (ht : t ∈ tables) (hvalid : t.isValid = true)
    {s d : SymbolId} (hdata : t.dataOf? s = some d) (hnew : (t.kindOf d).isNew = true)
    {term : Term} (hterm : t.HasSort s term) {x : SymbolId} (hx : term.Mentions x) :
    ¬ t.IsDerived x := by
  have htrusted := h.archive.2.trusted ht hvalid
  have hintact := h.intact t ht
  have hnone : ∀ {d form}, (t.kindOf d).isNew = true → (t.symbolAt d).canonical = some form →
      ∀ v ∈ form.positions, ¬ t.TakesDerived v := fun hnew hform =>
    htrusted.not_takesDerived h.archive.2 h.renews (h.renews t ht hvalid) hnew hform
  -- Induction over the term: an argument is a constant that is not derived, or a term of new data.
  induction term generalizing s d with
  | data d' arguments ih =>
      obtain ⟨hd', form, hform, hall⟩ := hterm
      obtain rfl : d = d' := Option.some.inj (hdata.symm.trans hd')
      obtain ⟨shape, info, hkind, rfl⟩ :=
        hintact.formed.families.sort (Table.dataOf?_eq_some_iff.1 hdata)
      have hform' : (t.symbolAt d).canonical = some form :=
        (hintact.data hkind).form_eq.symm.trans hform
      cases hx with
      | head =>
          rintro (⟨_, hderived⟩ | hderived) <;> rw [hderived] at hnew <;> cases hnew
      | @argument _ _ a ha hx =>
          obtain ⟨v, hv, hadmits⟩ := hall.exists_mem ha
          have htakes := hnone hnew hform' v hv
          cases hx with
          | constant =>
              rintro hderived
              rcases hadmits with hlisted | ⟨-, value, hvalue⟩
              · refine htakes ⟨x, AcceptedValues.mem_refs.2 (.inl hlisted), ?_⟩
                cases hdata' : t.dataOf? x with
                | none => exact hderived
                | some d' =>
                    obtain ⟨size, hsort⟩ :=
                      SymbolKind.unsized_eq_userSort.1 (Table.dataOf?_eq_some_iff.1 hdata')
                    rcases hderived with ⟨_, hderived⟩ | hderived <;>
                      cases hsort.symm.trans hderived
              · rcases hderived with ⟨_, hderived⟩ | hderived <;> cases hvalue.symm.trans hderived
          | @head arguments' =>
              obtain ⟨s', hs', hterm'⟩ := Table.admits_data.1 hadmits
              intro hderived
              refine htakes ⟨s', AcceptedValues.mem_refs.2 (.inr hs'), ?_⟩
              rw [hterm'.1]
              exact hderived
          | @argument d' arguments' a' ha' hx =>
              obtain ⟨s', hs', hterm'⟩ := Table.admits_data.1 hadmits
              refine ih _ ha hterm'.1 ?_ hterm' (.argument ha' hx)
              obtain ⟨shape', info', hkind', -⟩ :=
                hintact.formed.families.sort (Table.dataOf?_eq_some_iff.1 hterm'.1)
              have hplain : ¬ t.IsDerived d' := fun hderived => by
                refine htakes ⟨s', AcceptedValues.mem_refs.2 (.inr hs'), ?_⟩
                rw [hterm'.1]
                exact hderived
              rw [hkind']
              cases shape' with
              | constructor isNew =>
                  cases isNew with
                  | true => rfl
                  | false => exact absurd (.inl ⟨info', hkind'⟩) hplain
              | map kind isPartial domainArity => rfl
  | _ => exact hterm.elim

end

namespace Diamond

/-- What `A` and `B` accept in the table of `H`. -/
def bit : CanonicalForm := ⟨[{ ranges := [⟨0, 1⟩] }]⟩

def pair : CanonicalForm := ⟨[{ sorts := ⟨[⟨29⟩]⟩ }, { sorts := ⟨[⟨29⟩]⟩ }]⟩

/-- Whether a table is valid and has `A` and `B` under the handles that they have in that of `H`. -/
def holdsPairs (t : Table) : Bool :=
  t.isValid && (t.kindOf ⟨34⟩).isNew && t.dataOf? ⟨35⟩ == some ⟨34⟩ &&
    t.dataOf? ⟨29⟩ == some ⟨28⟩ &&
    (t.symbolAt ⟨35⟩).canonical == some pair && (t.symbolAt ⟨29⟩).canonical == some bit

theorem holdsPairs_session : session.2[1]?.any holdsPairs = true := by decide +kernel

/-- A value of `A`. -/
def bitTerm (n : Int) : Term := .data ⟨28⟩ [.integer n]

/-- A pair of both values. -/
def pairTerm : Term := .data ⟨34⟩ [bitTerm 0, bitTerm 1]

theorem hasSort_pairTerm {t : Table} (h : holdsPairs t = true) : t.HasSort ⟨35⟩ pairTerm := by
  simp only [holdsPairs, Bool.and_eq_true, beq_iff_eq] at h
  obtain ⟨⟨⟨-, hpair⟩, hbit⟩, hpairForm⟩ := h.1
  have hbitTerm : ∀ n : Int, 0 ≤ n → n ≤ 1 → t.Admits { sorts := ⟨[⟨29⟩]⟩ } (bitTerm n) :=
    fun n low high => ⟨⟨29⟩, List.mem_cons_self, hbit, bit, h.2, Table.admitsAll_iff.2
      (.cons (.inl ⟨⟨0, 1⟩, List.mem_cons_self, low, high⟩) .nil)⟩
  exact ⟨hpair, pair, hpairForm, Table.admitsAll_iff.2
    (.cons (hbitTerm 0 (by decide) (by decide)) (.cons (hbitTerm 1 (by decide) (by decide)) .nil))⟩

/-- The pairs of `H` are made of values of `A`, which is not derived. -/
theorem newness_pair : ∃ t ∈ session.2, t.isValid = true ∧ t.HasSort ⟨35⟩ pairTerm ∧
    pairTerm.Mentions ⟨28⟩ ∧ ¬ t.IsDerived ⟨28⟩ := by
  obtain ⟨t, ht, hpairs⟩ := (Option.any_eq_true _ _).1 holdsPairs_session
  have hterm := hasSort_pairTerm hpairs
  have hmentions : pairTerm.Mentions ⟨28⟩ := .argument List.mem_cons_self .head
  have hmem := List.mem_of_getElem? ht
  simp only [holdsPairs, Bool.and_eq_true, beq_iff_eq] at hpairs
  obtain ⟨⟨hvalid, hnew⟩, hdata⟩ := hpairs.1.1.1
  exact ⟨t, hmem, hvalid, hterm, hmentions,
    (session_checkAll _ modules).newness hmem hvalid hdata hnew hterm hmentions⟩

end Diamond

end ManySorted
