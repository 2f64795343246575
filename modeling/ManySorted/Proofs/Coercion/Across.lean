import ManySorted.Coercion.Across
import ManySorted.Proofs.Coercion.Copies
import ManySorted.Proofs.Session.Normality
import ManySorted.Proofs.Table.Searching

/-!
# Comparing two tables

The table that is made to compare two others holds nothing but copies of them, under two names that
are different (`Scratch`).  A path leads from the name of the first table to the copy of what it
names there (`Table.Resident.coercibleAt?_of_lookup`), and the copy can be coerced just if the
symbol narrows to one of the second table.  So `coerceAcross` decides `Table.Narrows`
(`Session.coerceAcross_iff`).

It is reflexive but for value parameters (`Session.coerceAcross_self_iff`), and transitive
(`Session.coerceAcross_trans`).

## Strategy

* **Paths.**  What a path matches below the name of a foreign table are the copies of what it
  matches in that table (`Table.Resident.matchesAt_copy`), so it leads to the copy of what it names
  there (`Table.Resident.resolveSymbol_copy`).
* **Queries.**  The copy of a sort can be coerced if and only if the sort narrows to one of the
  other table, whatever else is hosted beside them (`Table.Resident.exists_coerce`).
* **The table for a comparison.**  Two valid tables are put side by side without errors, since
  nothing is in the way under two different names (`Session.exists_scratch`).  So the comparison
  decides narrowing (`Session.coerceAcross_iff`).
* Reflexivity and transitivity are those of narrowing, along full paths.
-/

namespace ManySorted

/-! ## Paths below a name -/

namespace Table

variable {names : Interner} {t foreign : Table} {name last : Name} {ns : NamespaceId}
  {f : SymbolId → SymbolId} {qualifier segments : List Name} {r x : SymbolId} {k : Nat}

theorem sortOf?_of_data {shape : DataShape} {info : DataInfo} (h : t.kindOf x = .data shape info) :
    t.sortOf? x = some info.sort := by
  rw [sortOf?, h]
  rfl

namespace Resident

section

variable (h : foreign.Resident names t name ns f)
include h

/-- What matches below the name is the copy of what matches in the foreign table. -/
theorem exists_of_matchesAt
    (hx : t.MatchesAt ns qualifier (fun ns => (t.namespaceAt ns).symbol? last) k x) :
    ∃ r, f r = x ∧ foreign.MatchesAt .root qualifier
      (fun ns => (foreign.namespaceAt ns).symbol? last) k r := by
  obtain ⟨above, inner, hlength, hdescend, hlisted⟩ := hx
  obtain ⟨hholds, rfl, rfl, hnamed⟩ := h.regular.arena.entry hlisted
  have hpath := h.regular.tree.path_of_descend? hdescend
  rw [h.path_base, List.singleton_append] at hpath
  obtain ⟨r, hr, -, rfl, hhome⟩ := h.exists_copy hholds hpath
  have hname := (h.copies hr).name
  rw [hname] at hnamed
  refine ⟨r, rfl, above, (foreign.symbolAt r).home, hlength, ?_, ?_⟩
  · rw [← hhome]
    exact h.formed.tree.descend?_path (h.formed.arena.home hr)
  · rw [hname]
    exact h.formed.arena.listed hr hnamed

/-- The copy of what matches in the foreign table matches below the name. -/
theorem matchesAt_copy (hmoves : (foreign.kindOf r).staysInRoot = false)
    (hr : foreign.MatchesAt .root qualifier (fun ns => (foreign.namespaceAt ns).symbol? last) k r) :
    t.MatchesAt ns qualifier (fun ns => (t.namespaceAt ns).symbol? last) k (f r) := by
  obtain ⟨above, inner, hlength, hdescend, hlisted⟩ := hr
  obtain ⟨hholds, rfl, rfl, hnamed⟩ := h.formed.arena.entry hlisted
  have hforeign := h.formed.tree.path_of_descend? hdescend
  rw [h.formed.tree.path_root, List.nil_append] at hforeign
  have hcopy := h.copies hholds
  refine ⟨above, (t.symbolAt (f r)).home, hlength, ?_, ?_⟩
  · have hfull := h.regular.tree.descend?_path (h.regular.arena.home hcopy.holds)
    rw [h.path hholds hmoves, hforeign, ← List.singleton_append, descend?_append,
      descend?_singleton, h.child, Option.bind_some] at hfull
    exact hfull
  · rw [← hcopy.name]
    exact h.regular.arena.listed hcopy.holds (by rw [hcopy.name, hnamed])

/-- A path that leads to a symbol of the foreign table leads to its copy from the name. -/
theorem resolveSymbol_copy (hmoves : (foreign.kindOf r).staysInRoot = false)
    (hfound : foreign.resolveSymbol segments none anySymbol = .found r) :
    t.resolveSymbol segments (some ns) anySymbol = .found (f r) := by
  rcases List.eq_nil_or_concat segments with rfl | ⟨qualifier, last, rfl⟩
  · cases hfound
  rw [List.concat_eq_append, resolveSymbol_concat] at hfound ⊢
  rw [searchPreferring_none, h.formed.tree.search_eq_found_iff h.formed.tree.root] at hfound
  obtain ⟨k, hhere, honly, hbefore⟩ := hfound
  apply searchPreferring_eq_found
  refine (h.regular.tree.search_eq_found_iff h.hasNamespace).2
    ⟨k, h.matchesAt_copy hmoves hhere, fun x hx => ?_, fun j hj x hx => ?_⟩
  · obtain ⟨r', rfl, hr'⟩ := h.exists_of_matchesAt hx
    rw [honly r' hr']
  · obtain ⟨r', -, hr'⟩ := h.exists_of_matchesAt hx
    exact hbefore j hj r' hr'

theorem isCoercible_sort {shape : DataShape} {info : DataInfo}
    (hdata : foreign.kindOf r = .data shape info) :
    (t.kindOf (f info.sort)).isCoercible = true := by
  have hkind := h.mirrored.companions hdata
  have hsort := (h.regular.families.data hkind).sort_kind
  exact isCoercible_of_isSort ⟨_, hsort⟩

/-- A path of the foreign table leads to the copy of the sort of what it names. -/
theorem coercibleAt?_of_lookup {path : String} {shape : DataShape} {info : DataInfo}
    (hfound : foreign.lookup names path = .found r) (hdata : foreign.kindOf r = .data shape info) :
    t.coercibleAt? names ns path = some (f info.sort) := by
  have hmoves := staysInRoot_of_data hdata
  have hunder := h.liesUnder (holds_of_data hdata) hmoves
  rw [Table.liesUnder] at hunder
  unfold lookup at hfound
  split at hfound
  · next segments hsegments =>
      have hsort := sortOf?_of_data (h.mirrored.companions hdata)
      simp only [coercibleAt?, hsegments, h.resolveSymbol_copy hmoves hfound, Resolution.found?,
        hsort, hunder, h.isCoercible_sort hdata, Option.bind_eq_bind, Option.bind_some,
        Option.getD_some, Bool.and_self, if_true]
  · cases hfound

end

/-- A query about a copy of a sort is answered by what the sort narrows to, whatever else there is
in the table. -/
theorem exists_coerce {first second : Table} {left right : Name} {source target : NamespaceId}
    {g : SymbolId → SymbolId} {shape : DataShape} {info : DataInfo}
    (hleft : first.Resident names t left source f)
    (hright : second.Resident names t right target g) (hne : left ≠ right)
    (hclosed : ∀ {x}, t.Holds x → (t.symbolAt x).Closed t) (hnormal : ∀ y, second.NormalAt y)
    (hdata : first.kindOf r = .data shape info) :
    ∃ answer cache, t.coerce (f info.sort) source target {} = .ok answer cache ∧
      (answer.coercible = true ↔ ∃ y, first.Narrows second info.sort y) := by
  have hsort : first.IsCompared info.sort :=
    .inl ⟨r, (hleft.formed.families.data hdata).sort_kind⟩
  have hne' : source ≠ target := by
    intro heq
    have hpath := hleft.path_base
    rw [heq, hright.path_base] at hpath
    exact hne (List.cons.inj hpath).1.symm
  obtain ⟨answer, cache, hanswer, hiff⟩ := coerce_coercible_iff hleft.regular.families hclosed hne'
    (hleft.isCoercible_sort hdata)
  exact ⟨answer, cache, hanswer, hiff.trans (hleft.coercible_iff hright hne hnormal hsort)⟩

end Resident

end Table

/-! ## The table that is made for a comparison -/

/-- A table that hosts two others under different names, as it is made to compare them. -/
structure Scratch (names : Interner) (left right : Table) (d : Draft) (source target : NamespaceId)
    (f g : SymbolId → SymbolId) : Prop where
  intact : d.table.Intact d.names
  grown : names.Grown d.names
  hosts : ∃ a b, a ≠ b ∧ left.Resident d.names d.table a source f ∧
    right.Resident d.names d.table b target g
  /-- The comparison asks about what a path names under the first name. -/
  answers : ∀ {path symbol answer cache}, d.table.coercibleAt? d.names source path = some symbol →
    d.table.coerce symbol source target {} = .ok answer cache →
      coerceAcross names left right path = (d.names, .ok ⟨answer.coercible, none⟩)

namespace Draft

variable {tables : List Table} {names : Interner} {origin start d : Draft}
  {foreign left right : Table} {name : Name} {ns source target : NamespaceId}
  {f g : SymbolId → SymbolId}

/-- What is hosted in a table that is put together by imports is in good order. -/
theorem Assembled.resident (h : d.Assembled tables) (hmem : foreign ∈ tables)
    (hvalid : foreign.isValid = true) (hhosted : foreign.Hosted d.table name ns f) :
    foreign.Resident d.names d.table name ns f :=
  { hhosted with
    formed := (h.archive.trusted hmem hvalid).formed
    closed := h.archive.closed_of_mem hmem hvalid
    regular := h.formed.toRegular }

/-- A table that was annexed lives under its name. -/
theorem Annexed.hosted_at (h : Annexed tables foreign name origin d)
    (horigin : origin.table.Regular origin.names) (hvacant : origin.table.Vacant name)
    (hchild : (d.table.namespaceAt .root).child? name = some ns) :
    ∃ f, foreign.Hosted d.table name ns f := by
  obtain ⟨base, f, hhosted, -⟩ := h.hosted horigin hvacant
  obtain rfl := Option.some.inj (hchild.symm.trans hhosted.child)
  exact ⟨f, hhosted⟩

/-- On a clock that never cancels, a valid table is put under a vacant name. -/
theorem Collected.exists_embedUnder (h : start.Collected tables) (hclock : start.clock.Patient)
    (hclean : start.table.hasErrors = false) (hmem : foreign ∈ tables)
    (hvalid : foreign.isValid = true)
    (hnullary : ∀ x, foreign.IsConstant x → (foreign.symbolAt x).arity = 0) (rename : String)
    (hvacant : start.table.Vacant (start.names.intern rename).1) :
    ∃ ns d, embedUnder rename foreign start = .ok (some ns) d ∧
      Annexed tables foreign (start.names.intern rename).1
        { start with names := (start.names.intern rename).2 } d ∧
      (d.table.namespaceAt .root).child? (start.names.intern rename).1 = some ns ∧
      d.Collected tables ∧ d.clock.Patient := by
  have hproper := h.formed.proper.intern rename
  have hstart := h.grown (start.names.grown_intern rename) hproper
  have hclean' : Table.hasErrors { start with names := (start.names.intern rename).2 }.table =
      false := hclean
  obtain ⟨d, hrun, hannexed, hcollected, hpatient⟩ :=
    hstart.exists_embed hmem hvalid hclean' hvacant hnullary hclock {}
  obtain ⟨ns, f, hhosted, -⟩ := hannexed.hosted hstart.formed.toRegular hvacant
  refine ⟨ns, d, ?_, hannexed, hhosted.child, hcollected, hpatient⟩
  have hintern : intern rename start = .ok (start.names.intern rename).1
      { start with names := (start.names.intern rename).2 } := rfl
  rw [embedUnder, bind_of_ok hintern, if_pos hvalid, bind_of_ok hrun]
  dsimp only
  rw [getTable_bind, hhosted.child]
  rfl

/-- Once both tables are in place, the comparison is one query. -/
theorem compareAcross_eq {left' both : Draft} {path : String} {symbol : SymbolId}
    {answer : Coercibility} {cache : CoercionCache}
    (hleft : embedUnder "%a" left start = .ok (some source) left')
    (hright : embedUnder "%b" right left' = .ok (some target) both)
    (hsymbol : both.table.coercibleAt? both.names source path = some symbol)
    (hanswer : both.table.coerce symbol source target {} = .ok answer cache) :
    compareAcross left right path start = .ok answer.coercible both := by
  rw [compareAcross, bind_of_ok hleft]
  dsimp only
  rw [bind_of_ok hright]
  dsimp only
  rw [get_bind, hsymbol]
  dsimp only
  rw [hanswer]
  rfl

/-- Two valid tables are put side by side where nothing is in the way. -/
theorem Collected.exists_beside (h : start.Collected tables) (hclock : start.clock.Patient)
    (hclean : start.table.hasErrors = false) (hvacant : ∀ name, start.table.Vacant name)
    (hnullary : ∀ t ∈ tables, t.isValid = true → ∀ x, t.IsConstant x → (t.symbolAt x).arity = 0)
    (hleft : left ∈ tables) (hvalid : left.isValid = true) (hright : right ∈ tables)
    (hvalid' : right.isValid = true) :
    ∃ source target f g left' both, embedUnder "%a" left start = .ok (some source) left' ∧
      embedUnder "%b" right left' = .ok (some target) both ∧
      both.Collected tables ∧ start.names.Grown both.names ∧
      ∃ a b, a ≠ b ∧ left.Resident both.names both.table a source f ∧
        right.Resident both.names both.table b target g := by
  obtain ⟨source, left', hrun, hannexed, hchild, hcollected, hpatient⟩ :=
    h.exists_embedUnder hclock hclean hleft hvalid (hnullary left hleft hvalid) "%a" (hvacant _)
  have hregular : start.table.Regular (start.names.intern "%a").2 :=
    h.formed.toRegular.grown (start.names.grown_intern "%a") (h.formed.proper.intern "%a")
  -- the second name is another one, and as vacant as it was
  have hne : (start.names.intern "%a").1 ≠ (left'.names.intern "%b").1 := by
    intro heq
    have htext := (left'.names.grown_intern "%b").text
      (hannexed.grown.knows (start.names.knows_intern "%a"))
    rw [hannexed.grown.text (start.names.knows_intern "%a"), Interner.text_intern, heq,
      Interner.text_intern] at htext
    exact absurd htext (by decide)
  have hvacant' := hannexed.vacant hregular hleft hvalid (hvacant _) hne
    (hnullary left hleft hvalid) (hvacant _)
  have hclean' : left'.table.hasErrors = false := hannexed.hasErrors_eq.trans hclean
  obtain ⟨target, both, hrun', hannexed', hchild', hcollected', -⟩ :=
    hcollected.exists_embedUnder hpatient hclean' hright hvalid' (hnullary right hright hvalid')
      "%b" hvacant'
  have hregular' : left'.table.Regular (left'.names.intern "%b").2 :=
    hannexed.formed.toRegular.grown (left'.names.grown_intern "%b")
      (hannexed.formed.proper.intern "%b")
  obtain ⟨f, hhosted⟩ := hannexed.hosted_at hregular (hvacant _) hchild
  obtain ⟨g, hhosted'⟩ := hannexed'.hosted_at hregular' hvacant' hchild'
  have hkept := hannexed'.keeps hregular' hright hvalid' hvacant' hne.symm hhosted
  have hgrown : start.names.Grown left'.names :=
    (start.names.grown_intern "%a").trans hannexed.grown
  have hgrown' : left'.names.Grown both.names :=
    (left'.names.grown_intern "%b").trans hannexed'.grown
  exact ⟨source, target, f, g, left', both, hrun, hrun', hcollected', hgrown.trans hgrown', _, _,
    hne, hannexed'.toAssembled.resident hleft hvalid hkept,
    hannexed'.toAssembled.resident hright hvalid' hhosted'⟩

end Draft

section

variable {names : Interner} {tables : List Table} {left right : Table} {x : SymbolId}

/-- The new table into which tables are put to be compared. -/
def scratchModule (module : Name) : Module where
  kind := .transformSystem
  name := module
  file := module

/-- Any two valid tables of a session can be put side by side. -/
theorem Session.exists_scratch (session : Session names tables) (hleft : left ∈ tables)
    (hvalid : left.isValid = true) (hright : right ∈ tables) (hvalid' : right.isValid = true) :
    ∃ d source target f g, Scratch names left right d source target f g := by
  have hinterned := session.intern "%scratch"
  have hinitial := Draft.collected_initial hinterned.archive.1 hinterned.archive.2
    (fun t ht _ => hinterned.intact t ht) ⟨0⟩ {} (scratchModule (names.intern "%scratch").1)
  -- the table is new, and holds nothing but what is built in
  have hclean : Table.hasErrors (Draft.initial (names.intern "%scratch").2 ⟨0⟩ {}
      (scratchModule (names.intern "%scratch").1)).table = false := by
    rw [Table.hasErrors, Draft.initial, Table.reports_create]
    rfl
  obtain ⟨source, target, f, g, left', both, hrun, hrun', hcollected, hgrown, hhosts⟩ :=
    hinitial.exists_beside (fun _ => rfl) hclean
      (fun _ => Table.vacant_create hinterned.archive.1 _ _ _ _) session.nullary hleft hvalid hright
      hvalid'
  have hcreated := (Table.wellFormed_create hinterned.archive.1 ⟨0⟩ (names.intern "%scratch").1
    .transformSystem (names.intern "%scratch").1).2
  refine ⟨both, source, target, f, g, hcollected.intact,
    ((names.grown_intern _).trans hcreated).trans hgrown, hhosts, fun hsymbol hanswer => ?_⟩
  have hcompare := Draft.compareAcross_eq hrun hrun' hsymbol hanswer
  unfold coerceAcross
  dsimp only
  split
  · next hok =>
      cases hok.symm.trans hcompare
      rfl
  · next herror => cases herror.symm.trans hcompare

/-- The values of a sort can be used in another table just if the sort narrows to one of it. -/
theorem Session.coerceAcross_iff (session : Session names tables) (hleft : left ∈ tables)
    (hvalid : left.isValid = true) (hright : right ∈ tables) (hvalid' : right.isValid = true)
    {path : String} {shape : DataShape} {info : DataInfo}
    (hfound : left.lookup names path = .found x) (hdata : left.kindOf x = .data shape info) :
    ∃ names' answer, coerceAcross names left right path = (names', .ok answer) ∧
      (answer.coercible = true ↔ ∃ y, left.Narrows right info.sort y) ∧
      names.Grown names' ∧ names'.Proper := by
  obtain ⟨d, source, target, f, g, hscratch⟩ :=
    session.exists_scratch hleft hvalid hright hvalid'
  obtain ⟨a, b, hne, hresident, hresident'⟩ := hscratch.hosts
  have hproper := hscratch.intact.formed.proper
  have hfound' : left.lookup d.names path = .found x := by
    unfold Table.lookup at hfound ⊢
    split at hfound
    · next segments hsegments =>
        rw [hscratch.grown.path? hproper hsegments]
        exact hfound
    · cases hfound
  obtain ⟨answer, cache, hanswer, hiff⟩ := hresident.exists_coerce hresident' hne
    hscratch.intact.closed (session.normal right hright hvalid') hdata
  exact ⟨d.names, _, hscratch.answers (hresident.coercibleAt?_of_lookup hfound' hdata) hanswer,
    hiff, hscratch.grown, hproper⟩

/-! ## Reflexivity -/

/-- Whether a path leads to a data symbol. -/
def Table.offers (t : Table) (names : Interner) (path : String) : Bool :=
  (t.lookup names path).found?.any fun x => (t.kindOf x).info?.isSome

theorem Table.exists_of_offers {t : Table} {path : String} (h : t.offers names path = true) :
    ∃ x shape info, t.lookup names path = .found x ∧ t.kindOf x = .data shape info := by
  rw [offers] at h
  cases hfound : t.lookup names path with
  | found x =>
      rw [hfound] at h
      cases hkind : t.kindOf x with
      | data shape info => exact ⟨x, shape, info, rfl, hkind⟩
      | _ =>
          simp only [Resolution.found?, Option.any_some, hkind] at h
          cases h
  | _ =>
      rw [hfound] at h
      cases h

/-- The values of a sort can be used in another copy of its own table just if nothing that is
compared on the way lists a value parameter: parameters of two copies are different constants. -/
theorem Session.coerceAcross_self_iff (session : Session names tables) {t : Table} (ht : t ∈ tables)
    (hvalid : t.isValid = true) {path : String} {shape : DataShape} {info : DataInfo}
    (hfound : t.lookup names path = .found x) (hdata : t.kindOf x = .data shape info) :
    ∃ names' answer, coerceAcross names t t path = (names', .ok answer) ∧
      (answer.coercible = true ↔ ∀ z, t.Encounters info.sort z → ¬ t.ListsParameter z) := by
  obtain ⟨names', answer, hrun, hiff, -⟩ :=
    session.coerceAcross_iff ht hvalid ht hvalid hfound hdata
  refine ⟨names', answer, hrun, hiff.trans ?_⟩
  have hregular := (session.intact t ht).formed.toRegular
  have hsort : t.IsCompared info.sort := .inl ⟨x, (hregular.families.data hdata).sort_kind⟩
  have hcomplete := (session.archive.2.trusted ht hvalid).isComplete (session.intact t ht)
    session.furnished ht hvalid
  have hself := Table.narrows_self_iff hregular hcomplete
    (fun hz => (session.intact t ht).closed hz) hsort
  rw [← hself]
  constructor
  · intro ⟨y, hy⟩
    have heq := (hsort.matched_self hregular).unique hregular hy.matched
    rwa [heq] at hy
  · intro h
    exact ⟨info.sort, h⟩

end

namespace Parameter

/-- The names of the transform `T`, of its parameter `p` and of the types `A` and `B`. -/
def names : Interner := internAll ["T", "p", "A", "B"]

/-- A transform with a parameter `p` of integers and the types `A ({p})` and `B (Integer)`. -/
def transform : Module where
  kind := .transform
  name := ⟨28⟩
  file := ⟨0⟩
  params := [.value ⟨29⟩ [.named { segments := [⟨4⟩] }] {}]
  types :=
    [⟨⟨30⟩, {}, .constructor true
        [{ type := [.enumeration [.constant { segments := [⟨29⟩] }] {}] }]⟩,
     ⟨⟨31⟩, {}, .constructor true [{ type := [.named { segments := [⟨4⟩] }] }]⟩]

def session : Interner × List Table := checkAll names [] [transform]

theorem any_session : session.2.any (fun t => t.isValid && t.offers session.1 "A" &&
    t.offers session.1 "B" &&
    ((coerceAcross session.1 t t "A").2.toOption.any fun answer => !answer.coercible) &&
    (coerceAcross session.1 t t "B").2.toOption.any fun answer => answer.coercible) = true := by
  decide +kernel

/-- The type `B` can be used in another copy of its own table, and comes to nothing that lists the
parameter. -/
theorem coerceAcross_self_iff_b : ∃ t ∈ session.2, ∃ x shape info,
    t.lookup session.1 "B" = .found x ∧ t.kindOf x = .data shape info ∧
      ∃ names' answer, coerceAcross session.1 t t "B" = (names', .ok answer) ∧
        answer.coercible = true ∧ ∀ z, t.Encounters info.sort z → ¬ t.ListsParameter z := by
  obtain ⟨t, ht, hchecks⟩ := List.any_eq_true.1 any_session
  simp only [Bool.and_eq_true] at hchecks
  obtain ⟨⟨⟨⟨hvalid, -⟩, hb⟩, -⟩, hused⟩ := hchecks
  obtain ⟨x, shape, info, hfound, hdata⟩ := Table.exists_of_offers hb
  obtain ⟨names', answer, hrun, hiff⟩ :=
    (session_checkAll _ [transform]).coerceAcross_self_iff ht hvalid hfound hdata
  obtain ⟨answer', hrun', hyes⟩ := exists_of_any_toOption hused
  cases hrun'.symm.trans hrun
  exact ⟨t, ht, x, shape, info, hfound, hdata, _, _, hrun, hyes, hiff.1 hyes⟩

/-- The type `A`, which lists the parameter, cannot be used in another copy of its own table. -/
theorem not_coerceAcross_self : ¬ ∀ {names : Interner} {tables : List Table} {t : Table}
    {path : String} {x : SymbolId} {shape : DataShape} {info : DataInfo}, Session names tables →
      t ∈ tables → t.isValid = true → t.lookup names path = .found x →
      t.kindOf x = .data shape info → ∃ names' answer,
        coerceAcross names t t path = (names', .ok answer) ∧ answer.coercible = true := by
  intro hreflexive
  obtain ⟨t, ht, hchecks⟩ := List.any_eq_true.1 any_session
  simp only [Bool.and_eq_true] at hchecks
  obtain ⟨⟨⟨⟨hvalid, ha⟩, -⟩, hrefused⟩, -⟩ := hchecks
  obtain ⟨x, shape, info, hfound, hdata⟩ := Table.exists_of_offers ha
  obtain ⟨names', answer, hrun, hyes⟩ :=
    hreflexive (session_checkAll _ [transform]) ht hvalid hfound hdata
  obtain ⟨answer', hrun', hno⟩ := exists_of_any_toOption hrefused
  cases hrun'.symm.trans hrun
  rw [hyes] at hno
  cases hno

end Parameter

/-! ## Transitivity -/

section

variable {names : Interner} {tables : List Table}
variable {names₁ names₂ : Interner} {first second third : Table} {d e : SymbolId} {path : String}
  {shape shape' : DataShape} {info info' : DataInfo} {answer answer' : Coercibility}

/-- What a full path names is found by it. -/
theorem Table.Regular.lookup_eq (h : second.Regular names) (he : second.kindOf e = .data shape info)
    (hpath : names.path? path =
      some (second.path (second.symbolAt e).home ++ [(second.symbolAt e).name])) :
    second.lookup names path = .found e := by
  have hholds := Table.holds_of_data he
  have hnamed := h.families.isEmpty_eq_false hholds (by rw [Table.dataOf?, he])
  rw [Table.lookup, hpath]
  exact h.arena.resolveSymbol_fullPath h.tree hholds hnamed

/-- If the data symbols of a full path narrow to something, then one narrows to the other. -/
theorem Table.Narrows.eq_sort {y : SymbolId} (h : first.Narrows second info.sort y)
    (hfirst : first.Regular names) (hsecond : second.Regular names)
    (hd : first.kindOf d = .data shape info) (he : second.kindOf e = .data shape' info')
    (hpath : first.path (first.symbolAt d).home = second.path (second.symbolAt e).home)
    (hname : (first.symbolAt d).name = (second.symbolAt e).name) : y = info'.sort := by
  cases h.matched with
  | @sort d' e' hd' he' hfaces =>
      obtain rfl := Option.some.inj (hd'.symm.trans (hfirst.families.dataOf?_sort hd))
      have hnamed := hsecond.families.isEmpty_eq_false (Table.holds_of_data he)
        (by rw [Table.dataOf?, he])
      have hsame : e = e' := by
        apply hsecond.eq_of_path (Table.holds_of_data he) hfaces.holds' hnamed
        · rw [hfaces.path, hpath]
        · rw [hfaces.name, hname]
      subst hsame
      obtain ⟨shape'', info'', he'', rfl⟩ :=
        hsecond.families.sort (Table.dataOf?_eq_some_iff.1 he')
      cases he.symm.trans he''
      rfl
  | constant hnested =>
      have hsort := (hfirst.families.dataOf?_sort hd)
      cases hsort.symm.trans (Table.dataOf?_of_isNestedConstant hnested)

/-- If the values of a sort can be used in a second table, and those of the sort of the same full
path there in a third one, then the values of the first can be used in the third. -/
theorem Session.coerceAcross_trans (session : Session names tables)
    (hfirst : first ∈ tables) (hvalid : first.isValid = true)
    (hsecond : second ∈ tables) (hvalid' : second.isValid = true)
    (hthird : third ∈ tables) (hvalid'' : third.isValid = true)
    (hd : first.kindOf d = .data shape info)
    (hpath : names.path? path =
      some (first.path (first.symbolAt d).home ++ [(first.symbolAt d).name]))
    (he : second.kindOf e = .data shape' info')
    (hpath' : names.path? path =
      some (second.path (second.symbolAt e).home ++ [(second.symbolAt e).name]))
    (hleft : coerceAcross names first second path = (names₁, .ok answer))
    (hyes : answer.coercible = true)
    (hright : coerceAcross names₁ second third path = (names₂, .ok answer'))
    (hyes' : answer'.coercible = true) :
    ∃ names₃ answer'', coerceAcross names₂ first third path = (names₃, .ok answer'') ∧
      answer''.coercible = true := by
  have hregular := (session.intact first hfirst).formed.toRegular
  have hregular' := (session.intact second hsecond).formed.toRegular
  have hlookup := hregular.lookup_eq hd hpath
  -- the first comparison
  obtain ⟨_, _, hrun, hiff, hgrown, hproper⟩ :=
    session.coerceAcross_iff hfirst hvalid hsecond hvalid' hlookup hd
  cases hleft.symm.trans hrun
  obtain ⟨y, hy⟩ := hiff.1 hyes
  have hsegments := List.append_inj' (Option.some.inj (hpath.symm.trans hpath')) rfl
  have hname := (List.cons.inj hsegments.2).1
  obtain rfl := hy.eq_sort hregular hregular' hd he hsegments.1 hname
  -- the second comparison, with the names that the first one left
  have session₁ := session.grown hgrown hproper
  have hlookup' := (hregular'.grown hgrown hproper).lookup_eq he (hgrown.path? hproper hpath')
  obtain ⟨_, _, hrun', hiff', hgrown', hproper'⟩ :=
    session₁.coerceAcross_iff hsecond hvalid' hthird hvalid'' hlookup' he
  cases hright.symm.trans hrun'
  obtain ⟨z, hz⟩ := hiff'.1 hyes'
  -- the third
  have session₂ := session₁.grown hgrown' hproper'
  have hlookup'' := (hregular.grown (hgrown.trans hgrown') hproper').lookup_eq hd
    ((hgrown.trans hgrown').path? hproper' hpath)
  obtain ⟨names₃, answer'', hrun'', hiff'', -⟩ :=
    session₂.coerceAcross_iff hfirst hvalid hthird hvalid'' hlookup'' hd
  refine ⟨names₃, answer'', hrun'', hiff''.2 ⟨z, ?_⟩⟩
  exact hy.trans hz (session.intact first hfirst).formed hregular'
    (fun hx => (session.intact first hfirst).closed hx)
    fun hx => (session.intact second hsecond).closed hx

end

namespace Widening

/-- The names of the modules `G`, `H`, `K` and `P`, of the type `A`, of the constant `NIL`, and of
the renamings `L` and `R`. -/
def names : Interner := internAll ["G", "H", "K", "A", "NIL", "P", "L", "R"]

/-- Lists `A` of numbers up to `top`. -/
def module (name : Nat) (top : Int) : Module where
  kind := .domain
  name := ⟨name⟩
  file := ⟨0⟩
  types := [⟨⟨31⟩, {}, .constructor true
    [{ type := [.enumeration [.range 0 top {}] {}] },
     { type := [.enumeration [.constant { segments := [⟨32⟩] }] {},
         .named { segments := [⟨31⟩] }] }]⟩]

/-- The numbers go up to `1` in `G`, to `2` in `H` and to `3` in `K`. -/
def modules : List Module := [module 28 1, module 29 2, module 30 3]

def session : Interner × List Table := checkAll names [] modules

/-- Whether the path `A` is the full path of a data symbol of a valid table. -/
def declares (t : Table) : Bool :=
  t.isValid && (t.lookup session.1 "A").found?.any fun x => (t.kindOf x).info?.isSome &&
    session.1.path? "A" == some (t.path (t.symbolAt x).home ++ [(t.symbolAt x).name])

theorem exists_of_declares {t : Table} (h : declares t = true) : t.isValid = true ∧
    ∃ x shape info, t.kindOf x = .data shape info ∧
      session.1.path? "A" = some (t.path (t.symbolAt x).home ++ [(t.symbolAt x).name]) := by
  simp only [declares, Bool.and_eq_true, Option.any_eq_true] at h
  obtain ⟨hvalid, x, -, hinfo, hpath⟩ := h
  refine ⟨hvalid, x, ?_⟩
  cases hkind : t.kindOf x with
  | data shape info => exact ⟨shape, info, rfl, eq_of_beq hpath⟩
  | _ =>
      rw [hkind] at hinfo
      cases hinfo

/-- The tables of `G`, `H` and `K`. -/
def table (i : Nat) : Table := session.2.getD i (Table.create names ⟨0⟩ ⟨28⟩ .domain ⟨0⟩).2

/-- The comparison of `G` with `H`, and that of `H` with `K`. -/
def first : Interner × Except Abort Coercibility :=
  coerceAcross session.1 (table 0) (table 1) "A"

@[inherit_doc first]
def second : Interner × Except Abort Coercibility :=
  coerceAcross first.1 (table 1) (table 2) "A"

theorem coercible_session : session.2.length = 3 ∧ (∀ i < 3, declares (table i) = true) ∧
    (first.2.toOption.any fun answer => answer.coercible) = true ∧
    (second.2.toOption.any fun answer => answer.coercible) = true := by decide +kernel

theorem table_mem {i : Nat} (hi : i < 3) : table i ∈ session.2 := by
  have hlt : i < session.2.length := by rw [coercible_session.1]; exact hi
  rw [table, List.getD_eq_getElem?_getD, List.getElem?_eq_getElem hlt, Option.getD_some]
  exact List.getElem_mem hlt

/-- Lists of `G` can be used in `K`, since they can be used in `H`, and those of `H` in `K`. -/
theorem coerceAcross_trans_lists : ∃ names answer,
    coerceAcross second.1 (table 0) (table 2) "A" = (names, .ok answer) ∧
      answer.coercible = true := by
  obtain ⟨-, hdeclares, hcoercible, hcoercible'⟩ := coercible_session
  obtain ⟨hvalid, d, shape, info, hd, hpath⟩ := exists_of_declares (hdeclares 0 (by decide))
  obtain ⟨hvalid', e, shape', info', he, hpath'⟩ := exists_of_declares (hdeclares 1 (by decide))
  obtain ⟨hvalid'', -⟩ := exists_of_declares (hdeclares 2 (by decide))
  obtain ⟨answer, hleft, hyes⟩ := exists_of_any_toOption hcoercible
  obtain ⟨answer', hright, hyes'⟩ := exists_of_any_toOption hcoercible'
  exact (session_checkAll _ modules).coerceAcross_trans (table_mem (by decide)) hvalid
    (table_mem (by decide)) hvalid' (table_mem (by decide)) hvalid'' hd hpath he hpath' hleft hyes
    hright hyes'

end Widening

end ManySorted
