import ManySorted.Proofs.Echo.Basic
import ManySorted.Proofs.Echo.Resolving
import ManySorted.Proofs.Import.Reuse
import ManySorted.Proofs.Table.Searching

/-!
# Reading in another table, and symbols in the same place

The symbol of another table in the place of a given one is its counterpart (`Table.standIn`), if it
is of the same kind (`Table.Retraces`).

## Strategy

* **Reading.**  Identifiers that name something in one table may name its counterpart in another one
  (`Table.Finds`).  Nothing is said of identifiers that name nothing, so the other table may hold
  more.  A position without problems is then read in both tables alike, up to the renaming
  (`Table.Finds.resolvePosition`).
* **Places.**  What is found under a path is found by its name, so a symbol and its counterpart have
  one path, and going back and forth leads to where one started (`Table.Retraces.inverse`).
* **Searches.**  An identifier that finds a symbol finds its counterpart, unless the other table has
  the last name of the identifier in places where the first one has nothing
  (`Table.Retraces.resolveId`).
-/

namespace ManySorted

namespace Table

/-- Identifiers that name something name its counterpart in the other table. -/
structure Finds (t t' : Table) (D : SymbolId → Prop) (f : SymbolId → SymbolId)
    (ids : QualifiedId → Prop) : Prop extends t.Echoes t' D f where
  type : ∀ {id x}, ids id → t.resolveId id typeDefining = .found x →
    D x ∧ t'.resolveId id typeDefining = .found (f x)
  symbol : ∀ {id x}, ids id → t.resolveId id anySymbol = .found x →
    D x ∧ t'.resolveId id anySymbol = .found (f x)

end Table

namespace Table.Finds

variable {scope scope' : Scope} {D : SymbolId → Prop} {f : SymbolId → SymbolId}
  {ids : QualifiedId → Prop} {id : QualifiedId} (h : scope.table.Finds scope'.table D f ids)
include h

theorem resolveType (hid : ids id) (hclean : (scope.resolveType id).problems = []) :
    scope'.resolveType id = (scope.resolveType id).rename f := by
  unfold Scope.resolveType at hclean ⊢
  cases hx : scope.table.resolveOrProblem scope.names id typeDefining (some "a type") with
  | error problem =>
      rw [hx] at hclean
      cases hclean
  | ok x =>
      obtain ⟨hinside, hfound⟩ := h.type hid (resolveOrProblem_eq_ok.1 hx)
      rw [resolveOrProblem_eq_ok.2 hfound]
      simp only [Scope.memberOf_rename h.toEchoes hinside, Position.rename, List.map]

theorem readElement {element : EnumElement} (hids : ∀ id, element.id? = some id → ids id)
    {r : Scope.Reading} (hclean : (scope.readElement r element).problems = []) :
    scope'.readElement (r.rename f) element = (scope.readElement r element).rename f := by
  have hfail : ∀ location problem, (r.fail location problem).problems ≠ [] :=
    fun _ _ => by simp [Scope.Reading.fail]
  cases element with
  | literal literal span =>
      cases literal with
      | integer value =>
          simp only [Scope.readElement, Scope.Reading.rename, AcceptedValues.addInteger,
            AcceptedValues.rename_addRange]
      | string value =>
          simp only [Scope.readElement, Scope.Reading.rename, AcceptedValues.rename_addString]
  | range low high span =>
      simp only [Scope.readElement] at hclean ⊢
      split at hclean
      · next hle => simp only [if_pos hle, Scope.Reading.rename, AcceptedValues.rename_addRange]
      · exact absurd hclean (hfail _ _)
  | constant id =>
      rw [Scope.readElement_constant] at hclean ⊢
      rw [Scope.readElement_constant]
      cases hx : scope.table.resolveOrProblem scope.names id anySymbol none with
      | error problem =>
          rw [hx] at hclean
          exact absurd hclean (hfail _ _)
      | ok x =>
          rw [hx] at hclean
          obtain ⟨hinside, hfound⟩ := h.symbol (hids id rfl) (resolveOrProblem_eq_ok.1 hx)
          rw [resolveOrProblem_eq_ok.2 hfound]
          dsimp only at hclean ⊢
          rw [h.isConstant hinside]
          split at hclean
          · next hconstant =>
              simp only [if_pos hconstant, Scope.Reading.rename, AcceptedValues.rename_addConstant,
                List.map_append, List.map_cons, List.map_nil]
          · exact absurd hclean (hfail _ _)

theorem foldl_readElement {elements : List EnumElement} {r : Scope.Reading}
    (hids : ∀ id ∈ elements.filterMap EnumElement.id?, ids id)
    (hclean : (elements.foldl scope.readElement r).problems = []) : r.problems = [] ∧
      elements.foldl scope'.readElement (r.rename f) =
        (elements.foldl scope.readElement r).rename f := by
  induction elements generalizing r with
  | nil => exact ⟨hclean, rfl⟩
  | cons element rest ih =>
      have hrest : ∀ id ∈ rest.filterMap EnumElement.id?, ids id := fun id hid => hids id (by
        rw [List.filterMap_cons]
        split
        · exact hid
        · exact List.mem_cons_of_mem _ hid)
      obtain ⟨hproblems, hall⟩ := ih hrest hclean
      refine ⟨Scope.readElement_problems hproblems, ?_⟩
      rw [List.foldl_cons, List.foldl_cons, h.readElement (fun id hid => ?_) hproblems, hall]
      exact hids id (List.mem_filterMap.2 ⟨element, List.mem_cons_self, hid⟩)

theorem resolveTerm {term : TypeTerm} (hids : ∀ id ∈ term.ids, ids id)
    (hclean : (scope.resolveTerm term).problems = []) :
    scope'.resolveTerm term = (scope.resolveTerm term).rename f := by
  cases term with
  | named id => exact h.resolveType (hids id List.mem_cons_self) hclean
  | enumeration elements span =>
      have hstart : ({} : Scope.Reading).rename f = {} := rfl
      have hall := (h.foldl_readElement hids hclean).2
      rw [hstart] at hall
      simp only [Scope.resolveTerm, hall]
      rfl

/-- A position without problems is read alike in both tables. -/
theorem resolvePosition {terms : List TypeTerm} (hids : ∀ term ∈ terms, ∀ id ∈ term.ids, ids id)
    (hclean : (scope.resolvePosition terms).problems = []) :
    scope'.resolvePosition terms = (scope.resolvePosition terms).rename f := by
  have hfold : ∀ (terms : List TypeTerm) (p : Position),
      (∀ term ∈ terms, (∀ id ∈ term.ids, ids id) ∧ (scope.resolveTerm term).problems = []) →
      terms.foldl (fun p term => p.append (scope'.resolveTerm term)) (p.rename f) =
        (terms.foldl (fun p term => p.append (scope.resolveTerm term)) p).rename f := by
    intro terms
    induction terms with
    | nil => exact fun _ _ => rfl
    | cons term rest ih =>
        intro p hterms
        obtain ⟨hids, hclean⟩ := hterms term List.mem_cons_self
        rw [List.foldl_cons, List.foldl_cons, h.resolveTerm hids hclean,
          ← Position.rename_append, ih _ fun term hterm =>
            hterms term (List.mem_cons_of_mem _ hterm)]
  rw [(scope.resolvePosition_eq terms).2.2, List.flatMap_eq_nil_iff] at hclean
  exact hfold terms ∅ fun term hterm => ⟨hids term hterm, hclean term hterm⟩

omit h in
/-- What a position refers to has a counterpart. -/
theorem inside_of_mem_refs {t' : Table} (h : scope.table.Finds t' D f ids) {terms : List TypeTerm}
    (hids : ∀ term ∈ terms, ∀ id ∈ term.ids, ids id) {x : SymbolId}
    (hx : x ∈ (scope.resolvePosition terms).refs) : D x :=
  scope.forall_refs_resolvePosition hids (fun hid hfound => (h.type hid hfound).1)
    (fun hid hfound => (h.symbol hid hfound).1) x hx

end Table.Finds

namespace Table

variable {names names' : Interner} {foreign t t' : Table} {base : NamespaceId}
  {rename : Option Name} {D : SymbolId → Prop} {path : List Name} {s : Symbol}
  {last name : Name} {x y : SymbolId} {id : QualifiedId} {filter : Symbol → Bool}

/-- The symbol of a name in the namespace of a path. -/
def under? (t : Table) (path : List Name) (name : Name) : Option SymbolId :=
  (t.descend? .root path).bind fun ns => (t.namespaceAt ns).symbol? name

/-! ## Searches -/

theorem filtered_eq_some_iff {ns : NamespaceId} : t.filtered filter name ns = some x ↔
    (t.namespaceAt ns).symbol? name = some x ∧ filter (t.symbolAt x) = true := by
  rw [filtered, Option.filter_eq_some_iff]

/-- What matches at a depth is told by paths. -/
theorem matchesAt_filtered_iff {qualifier : List Name} {k : Nat} :
    t.MatchesAt .root qualifier (t.filtered filter last) k x ↔ ∃ above,
      above.length + qualifier.length = k ∧ t.under? (above ++ qualifier) last = some x ∧
        filter (t.symbolAt x) = true := by
  constructor
  · rintro ⟨above, ns, hlength, hdescend, hmatch⟩
    obtain ⟨hx, hfilter⟩ := filtered_eq_some_iff.1 hmatch
    exact ⟨above, hlength, Option.bind_eq_some_iff.2 ⟨ns, hdescend, hx⟩, hfilter⟩
  · rintro ⟨above, hlength, hx, hfilter⟩
    obtain ⟨ns, hdescend, hx⟩ := Option.bind_eq_some_iff.1 hx
    exact ⟨above, ns, hlength, hdescend, filtered_eq_some_iff.2 ⟨hx, hfilter⟩⟩

/-- What an identifier finds stands under its last name. -/
theorem Tree.under?_of_resolveId (ht : t.Tree) (hfound : t.resolveId id filter = .found x) :
    ∃ last path, id.segments.getLast? = some last ∧ t.under? path last = some x := by
  cases hlast : id.segments.getLast? with
  | none => cases (resolveId_eq_notFound hlast).symm.trans hfound
  | some last =>
      rw [resolveId_eq_search hlast, ht.search_eq_found_iff ht.root] at hfound
      obtain ⟨k, hnearest⟩ := hfound
      obtain ⟨above, -, hx, -⟩ := matchesAt_filtered_iff.1 hnearest.here
      exact ⟨last, _, rfl, hx⟩

/-- Counterparts are found if the last name of the identifier stands for counterparts. -/
theorem Tree.resolveId_eq_found (ht : t.Tree) (ht' : t'.Tree) {f : SymbolId → SymbolId}
    (hlast : id.segments.getLast? = some last)
    (hthere : ∀ path y, t.under? path last = some y → t'.under? path last = some (f y))
    (hback : ∀ path y', t'.under? path last = some y' → ∃ y, t.under? path last = some y)
    (hfilter : ∀ path y, t.under? path last = some y →
      filter (t'.symbolAt (f y)) = filter (t.symbolAt y))
    (hfound : t.resolveId id filter = .found x) : t'.resolveId id filter = .found (f x) := by
  have hmatches : ∀ {k y'}, t'.MatchesAt .root id.segments.dropLast (t'.filtered filter last) k y' →
      ∃ y, f y = y' ∧ t.MatchesAt .root id.segments.dropLast (t.filtered filter last) k y := by
    intro k y' hmatch
    obtain ⟨above, hlength, hy', hpasses⟩ := matchesAt_filtered_iff.1 hmatch
    obtain ⟨y, hy⟩ := hback _ _ hy'
    obtain rfl := Option.some.inj ((hthere _ _ hy).symm.trans hy')
    exact ⟨y, rfl, matchesAt_filtered_iff.2
      ⟨above, hlength, hy, (hfilter _ _ hy).symm.trans hpasses⟩⟩
  rw [resolveId_eq_search hlast] at hfound ⊢
  rw [ht.search_eq_found_iff ht.root] at hfound
  rw [ht'.search_eq_found_iff ht'.root]
  obtain ⟨k, hhere, honly, hbefore⟩ := hfound
  refine ⟨k, ?_, fun y' hy' => ?_, fun j hj y' hy' => ?_⟩
  · obtain ⟨above, hlength, hx, hpasses⟩ := matchesAt_filtered_iff.1 hhere
    exact matchesAt_filtered_iff.2
      ⟨above, hlength, hthere _ _ hx, (hfilter _ _ hx).trans hpasses⟩
  · obtain ⟨y, rfl, hy⟩ := hmatches hy'
    rw [honly y hy]
  · obtain ⟨y, -, hy⟩ := hmatches hy'
    exact hbefore j hj y hy

/-- A name that stands nowhere in one of two tables only is missed in both or in none. -/
theorem Tree.resolveId_eq_notFound (ht : t.Tree)
    (hback : ∀ last, id.segments.getLast? = some last → ∀ path y,
      t.under? path last = some y → ∃ y', t'.under? path last = some y')
    (ht' : t'.Tree) (hmissed : t'.resolveId id anySymbol = .notFound) :
    t.resolveId id anySymbol = .notFound := by
  cases hlast : id.segments.getLast? with
  | none => exact Table.resolveId_eq_notFound hlast
  | some last =>
      rw [resolveId_eq_search hlast] at hmissed ⊢
      rcases ht.search_cases ht.root id.segments.dropLast (t.filtered anySymbol last) with
        ⟨hresult, -⟩ | ⟨k, first, others, hmatches, -, -⟩
      · exact hresult
      · -- a match on some level would be one in the other table as well
        obtain ⟨above, hlength, hy, -⟩ := matchesAt_filtered_iff.1
          (ht.mem_levelMatches_iff.1 (hmatches ▸ List.mem_cons_self))
        obtain ⟨y', hy'⟩ := hback last hlast _ _ hy
        have hmatch : t'.MatchesAt .root id.segments.dropLast (t'.filtered anySymbol last) k y' :=
          matchesAt_filtered_iff.2 ⟨above, hlength, hy', rfl⟩
        rcases ht'.search_cases ht'.root id.segments.dropLast (t'.filtered anySymbol last) with
          ⟨-, hnone⟩ | ⟨j, first', others', -, -, hresult'⟩
        · have hmem := ht'.mem_levelMatches_iff.2 hmatch
          rw [hnone k] at hmem
          exact absurd hmem List.not_mem_nil
        · rw [hmissed] at hresult'
          unfold Resolution.ofMatches at hresult'
          split at hresult' <;> cases hresult'

/-! ## Places -/

/-- The path at which a named foreign symbol is looked for. -/
def placePath (foreign : Table) (rename : Option Name) (s : Symbol) : List Name :=
  if s.kind.staysInRoot then [] else rename.toList ++ foreign.path s.home

theorem landing?_eq (h : t.descend? .root rename.toList = some base) :
    foreign.landing? t base s = t.descend? .root (foreign.placePath rename s) := by
  unfold landing? placePath
  split
  · rfl
  · rw [descend?_append, h, Option.bind_some]

theorem place?_eq (h : t.descend? .root rename.toList = some base) :
    foreign.place? t base s = t.under? (foreign.placePath rename s) s.name := by
  rw [place?, landing?_eq h, under?]

/-- The path to the root is empty. -/
theorem Tree.descend?_eq_root (ht : t.Tree) : t.descend? .root path = some .root ↔ path = [] := by
  refine ⟨fun h => ?_, ?_⟩
  · have hpath := ht.path_of_descend? h
    rw [ht.path_root, List.nil_append] at hpath
    exact hpath.symm
  · rintro rfl
    rfl

theorem Tree.eq_root_iff (ht : t.Tree) (h : t.descend? .root rename.toList = some base) :
    base = .root ↔ rename = none := by
  refine Iff.trans ⟨?_, fun hroot => ?_⟩ Option.toList_eq_nil_iff
  · rintro rfl
    exact ht.descend?_eq_root.1 h
  · exact Option.some.inj (h.symm.trans (ht.descend?_eq_root.2 hroot))

/-- A name at a path stands for a symbol that has the name and lives there. -/
theorem Regular.of_under? (ht : t.Regular names) (h : t.under? path name = some x) :
    t.Holds x ∧ t.path (t.symbolAt x).home = path ∧ (t.symbolAt x).name = name ∧
      (t.symbolAt x).name.isEmpty = false := by
  obtain ⟨ns, hdescend, hname⟩ := Option.bind_eq_some_iff.1 h
  obtain ⟨hx, rfl, rfl, hnamed⟩ := ht.arena.entry hname
  have hpath := ht.tree.path_of_descend? hdescend
  rw [ht.tree.path_root, List.nil_append] at hpath
  exact ⟨hx, hpath, rfl, hnamed⟩

theorem Regular.under?_self (ht : t.Regular names) (hx : t.Holds x)
    (hnamed : (t.symbolAt x).name.isEmpty = false) :
    t.under? (t.path (t.symbolAt x).home) (t.symbolAt x).name = some x :=
  Option.bind_eq_some_iff.2
    ⟨_, ht.tree.descend?_path (ht.arena.home hx), ht.arena.listed hx hnamed⟩

theorem Later.under? (h : t.Later t') (hx : t.under? path name = some x) :
    t'.under? path name = some x := by
  obtain ⟨ns, hdescend, hname⟩ := Option.bind_eq_some_iff.1 hx
  exact Option.bind_eq_some_iff.2 ⟨ns, h.descend? hdescend, h.symbol? hname⟩

/-- What was there before was in the same place. -/
theorem Later.under?_of_holds (h : t.Later t') (ht : t.Regular names) (ht' : t'.Regular names')
    (hx : t'.under? path name = some x) (hold : t.Holds x) : t.under? path name = some x := by
  obtain ⟨-, hpath, hname, hnamed⟩ := ht'.of_under? hx
  rw [h.home_symbolAt hold, h.path_eq ht.tree ht'.tree (ht.arena.home hold)] at hpath
  rw [h.name_symbolAt hold] at hname hnamed
  rw [← hpath, ← hname]
  exact ht.under?_self hold hnamed

/-- A named symbol is looked for in the place that it has. -/
theorem Regular.relocate?_root (ht : t.Regular names) (hx : t.Holds x)
    (hnamed : (t.symbolAt x).name.isEmpty = false) :
    t.relocate? t' .root x = t'.under? (t.path (t.symbolAt x).home) (t.symbolAt x).name := by
  have hroot : t'.descend? .root (none : Option Name).toList = some .root := rfl
  rw [relocate?_of_not_sort (ht.families.dataOf?_of_named hx hnamed), place?_eq hroot, placePath]
  split
  · next hstays => rw [ht.rooted hx hstays, ht.tree.path_root]
  · rfl

/-- A symbol is in its own place. -/
theorem Regular.relocate?_self (ht : t.Regular names) (hx : t.Holds x) :
    t.relocate? t .root x = some x := by
  have hplain : ∀ {y}, t.Holds y → t.dataOf? y = none →
      t.place? t .root (t.symbolAt y) = some y := by
    intro y hy hsort
    have hnamed := ht.families.isEmpty_eq_false hy hsort
    rw [← relocate?_of_not_sort hsort, ht.relocate?_root hy hnamed]
    exact ht.under?_self hy hnamed
  cases hsort : t.dataOf? x with
  | none => rw [relocate?_of_not_sort hsort, hplain hx hsort]
  | some d =>
      obtain ⟨shape, info, hkind, rfl⟩ := ht.families.sort (dataOf?_eq_some_iff.1 hsort)
      rw [relocate?_of_dataOf? hsort, hplain (holds_of_data hkind) (by rw [dataOf?, hkind]),
        Option.bind_some, sortOf?, hkind]
      rfl

/-! ## Counterparts -/

/-- The symbol in the same place of another table. -/
def standIn (t t' : Table) (x : SymbolId) : SymbolId := (t.relocate? t' .root x).getD x

/-- The symbols that `D` tells, which are all but convenience unions at least, have others of their
kind in their places. -/
structure Retraces (names : Interner) (t t' : Table) (D : SymbolId → Prop) : Prop where
  regular : t.Regular names
  regular' : t'.Regular names
  holds : ∀ {x}, D x → t.Holds x
  covers : ∀ {x}, t.Holds x → (t.kindOf x).convenience? = none → D x
  linked : ∀ {x}, D x → t.Linked t' .root x (t.standIn t' x)

theorem Linked.standIn_eq (h : t.Linked t' .root x y) : t.standIn t' x = y := by
  rw [standIn, h.found, Option.getD_some]

namespace Retraces

variable (h : Retraces names t t' D)
include h

theorem holds' (hx : D x) : t'.Holds (t.standIn t' x) :=
  (h.regular.landing?_of_relocate? h.regular' (h.linked hx).found).1

/-- What stands in for a counterpart is the symbol itself. -/
theorem inverse (hx : D x) : t'.standIn t (t.standIn t' x) = x := by
  have hlinked := h.linked hx
  have hback : t'.relocate? t .root (t.standIn t' x) = t.relocate? t .root x :=
    h.regular.relocate?_trans h.regular' (by rw [h.regular'.tree.path_root]; rfl) hlinked.found
      hlinked.outline
  rw [standIn, hback, h.regular.relocate?_self (h.holds hx), Option.getD_some]

theorem injective (hx : D x) (hy : D y) (heq : t.standIn t' x = t.standIn t' y) : x = y := by
  rw [← h.inverse hx, heq, h.inverse hy]

theorem inside_of_data {shape : DataShape} {info : DataInfo}
    (hkind : t.kindOf x = .data shape info) :
    D x ∧ D info.sort ∧ D info.typeConstant := by
  have hfamily := h.regular.families.data hkind
  refine ⟨h.covers (holds_of_data hkind) (by rw [hkind]; rfl), h.covers hfamily.holds_sort ?_,
    h.covers hfamily.holds_constant (by rw [hfamily.constant_kind]; rfl)⟩
  obtain ⟨size, hsort⟩ := SymbolKind.unsized_eq_userSort.1 hfamily.sort_kind
  rw [hsort]
  rfl

/-- Data stands in for data, with its companions. -/
theorem kindOf_data {shape : DataShape} {info : DataInfo} (hkind : t.kindOf x = .data shape info) :
    ∃ info', t'.kindOf (t.standIn t' x) = .data shape info' ∧ info'.labels = info.labels ∧
      info'.any = info.any ∧ t.standIn t' info.sort = info'.sort ∧
      t.standIn t' info.typeConstant = info'.typeConstant := by
  have hlinked := h.linked (h.inside_of_data hkind).1
  obtain ⟨info', hkind', hsort, hconstant⟩ := hlinked.companions h.regular h.regular' hkind
  have houtline := hlinked.outline
  rw [hkind] at houtline
  obtain ⟨_, heq, hlabels, hany⟩ := SymbolKind.data_of_outline houtline
  cases hkind'.symm.trans heq
  exact ⟨info', hkind', hlabels, hany, hsort.standIn_eq, hconstant.standIn_eq⟩

theorem kind (hx : D x) : (t'.kindOf (t.standIn t' x)).relabel (fun y => y) =
    (t.kindOf x).relabel (t.standIn t') := by
  have houtline := (h.linked hx).outline
  -- companions go by their data, and the outline tells the rest
  cases hkind : t.kindOf x with
  | data shape info =>
      obtain ⟨info', hkind', hlabels, hany, hsort, hconstant⟩ := h.kindOf_data hkind
      rw [hkind', SymbolKind.relabel, SymbolKind.relabel, hsort, hconstant, ← hlabels, ← hany]
  | userSort d size =>
      obtain ⟨shape, info, hdata, rfl⟩ :=
        h.regular.families.sort (s := x) (d := d) (by rw [hkind]; rfl)
      obtain ⟨info', hkind', -, -, hsort, -⟩ := h.kindOf_data hdata
      obtain ⟨size', hsized⟩ := SymbolKind.unsized_eq_userSort.1
        (h.regular'.families.data hkind').sort_kind
      rw [hsort, hsized]
      rfl
  | userConstant constant =>
      cases constant with
      | type s =>
          obtain ⟨d, shape, info, hdata, rfl, rfl⟩ := h.regular.families.type hkind
          obtain ⟨info', hkind', -, -, hsort, hconstant⟩ := h.kindOf_data hdata
          rw [hconstant, (h.regular'.families.data hkind').constant_kind, SymbolKind.relabel,
            SymbolKind.relabel, hsort]
      | _ =>
          rw [hkind] at houtline
          cases hkind' : t'.kindOf (t.standIn t' x) with
          | userConstant constant' =>
              rw [hkind'] at houtline
              cases constant' <;> first | rfl | cases houtline
          | _ =>
              rw [hkind'] at houtline
              cases houtline
  | _ =>
      rw [hkind] at houtline
      cases hkind' : t'.kindOf (t.standIn t' x) with
      | userConstant constant' =>
          rw [hkind'] at houtline
          cases constant' <;> cases houtline
      | _ =>
          rw [hkind'] at houtline
          first | exact houtline | cases houtline

/-- What stands in for the symbols are their counterparts. -/
theorem echoes : t.Echoes t' D (t.standIn t') where
  injective := h.injective
  kind := h.kind
  arity hx := (h.linked hx).arity
  sort _ hkind := (h.inside_of_data hkind).2.1
  data _ hd := by
    obtain ⟨shape, info, hkind, -⟩ := h.regular.families.sort (dataOf?_eq_some_iff.1 hd)
    exact (h.inside_of_data hkind).1

/-- A name stands for counterparts in the same place. -/
theorem under? (hx : t.under? path name = some x) (hinside : D x) :
    t'.under? path name = some (t.standIn t' x) := by
  obtain ⟨hholds, rfl, rfl, hnamed⟩ := h.regular.of_under? hx
  rw [← h.regular.relocate?_root hholds hnamed]
  exact (h.linked hinside).found

theorem name_eq (hx : D x) (hnamed : (t.symbolAt x).name.isEmpty = false) :
    (t'.symbolAt (t.standIn t' x)).name = (t.symbolAt x).name :=
  (h.regular'.of_under? (h.under? (h.regular.under?_self (h.holds hx) hnamed) hx)).2.2.1

/-- Counterparts live under the same path. -/
theorem path_home (hx : D x) :
    t'.path (t'.symbolAt (t.standIn t' x)).home = t.path (t.symbolAt x).home := by
  obtain ⟨-, hlanding⟩ := h.regular.landing?_of_relocate? h.regular' (h.linked hx).found
  unfold landing? at hlanding
  split at hlanding
  · next hstays =>
      rw [h.regular.rooted (h.holds hx) hstays, h.regular.tree.path_root,
        ← Option.some.inj hlanding,
        h.regular'.tree.path_root]
  · rw [h.regular'.tree.path_of_descend? hlanding, h.regular'.tree.path_root, List.nil_append]

/-- An identifier that finds a symbol finds its counterpart, if the other table has the last name in
no other places. -/
theorem resolveId (hinside : ∀ last, id.segments.getLast? = some last → ∀ path y,
      t.under? path last = some y → D y)
    (hback : ∀ last, id.segments.getLast? = some last → (∃ path y, t.under? path last = some y) →
      ∀ path y', t'.under? path last = some y' → ∃ y, t.under? path last = some y)
    (hfilter : ∀ y, D y → filter (t'.symbolAt (t.standIn t' y)) = filter (t.symbolAt y))
    (hfound : t.resolveId id filter = .found x) :
    D x ∧ t'.resolveId id filter = .found (t.standIn t' x) := by
  obtain ⟨last, path, hlast, hx⟩ := h.regular.tree.under?_of_resolveId hfound
  have hinside := hinside last hlast
  refine ⟨hinside path x hx, ?_⟩
  exact h.regular.tree.resolveId_eq_found h.regular'.tree hlast
    (fun path y hy => h.under? hy (hinside path y hy)) (hback last hlast ⟨path, x, hx⟩)
    (fun path y hy => hfilter y (hinside path y hy)) hfound

/-- Identifiers are read alike if their last names stand for nothing new. -/
theorem finds {ids : QualifiedId → Prop}
    (hinside : ∀ id, ids id → ∀ last, id.segments.getLast? = some last → ∀ path y,
      t.under? path last = some y → D y)
    (hback : ∀ id, ids id → ∀ last, id.segments.getLast? = some last →
      (∃ path y, t.under? path last = some y) → ∀ path y', t'.under? path last = some y' →
        ∃ y, t.under? path last = some y) :
    t.Finds t' D (t.standIn t') ids where
  toEchoes := h.echoes
  type hid hfound := h.resolveId (hinside _ hid) (hback _ hid)
    (fun _ hy => h.echoes.isTypeDefining hy) hfound
  symbol hid hfound := h.resolveId (hinside _ hid) (hback _ hid) (fun _ _ => rfl) hfound

end Retraces

end Table

end ManySorted
