import ManySorted.Proofs.Session.Dependencies
import ManySorted.Proofs.Session.Reordering
import ManySorted.Proofs.Transfer.Recomposing

/-!
# Checks with another order of compositions

If a check is without errors, then so is the check of the module with its compositions in any other
order (`Draft.Staged.hasErrors_recomposed`).  So the order makes no difference to the validity of
the table (`checkModule_recomposed`).

## Strategy

* **Labels.**  Two checks that make the same imports in different orders have the same namespaces,
  so labels clash with the same names, and outputs hold the same data.
* **Sizes.**  All that is declared comes to the same, so the sizes are feasible for both or for none
  (`Draft.Aligned.feasible`).
* **Contracts.**  The same contracts are upheld (`Draft.Aligned.upholds`).
* So one check ends without errors if the other one does (`Draft.Recomposed.clean`).  The rest is to
  find that the imports of both checks are compiled alike.
-/

namespace ManySorted

namespace Table

variable {t : Table} {ns : NamespaceId} {name : Name}

/-! ## Labels -/

/-- The names of namespaces are the last ones of paths. -/
theorem Tree.mem_namespaceNames_iff (ht : t.Tree) :
    name ∈ t.namespaceNames ↔ ∃ ns, t.HasNamespace ns ∧ (t.path ns).getLast? = some name := by
  rw [mem_namespaceNames]
  refine exists_congr fun ns => and_congr_right fun hns => ?_
  by_cases hroot : ns = .root
  · subst hroot
    rw [ht.path_root]
    exact iff_of_false (fun h => h.1 rfl) (fun h => by cases h)
  · obtain ⟨parent, hparent⟩ := ht.parent hns hroot
    rw [ht.path_of_parent hparent, List.getLast?_concat, Option.some.injEq]
    exact and_iff_right hroot

/-- A namespace of a foreign table is there under its name after an import. -/
theorem Brought.mem_namespaceNames {foreign : Table} {rename : Option Name}
    (h : foreign.Brought t rename) (ht : t.Tree) (hforeign : foreign.Tree)
    (hname : name ∈ rename.toList ∨ name ∈ foreign.namespaceNames) : name ∈ t.namespaceNames := by
  obtain ⟨base, ρ, hdescend, hreceived, -⟩ := h
  have hpath := ht.path_of_descend? hdescend
  rw [ht.path_root, List.nil_append] at hpath
  rcases hname with hname | hname
  · refine ht.mem_namespaceNames_iff.2 ⟨base, hreceived.hasNamespace, ?_⟩
    rw [hpath, Option.mem_toList.1 hname]
    rfl
  · obtain ⟨ns, hns, hlast⟩ := hforeign.mem_namespaceNames_iff.1 hname
    obtain ⟨home, hhome⟩ := hreceived.laid hns
    refine ht.mem_namespaceNames_iff.2
      ⟨home, ht.hasNamespace_of_descend? hreceived.hasNamespace hhome, ?_⟩
    rw [ht.path_of_descend? hhome, List.getLast?_append, hlast]
    rfl

end Table

namespace Draft

variable {tables : List Table} {library : Library} {m : Module} {compositions : List ModuleRef}
  {initial : Draft} {c c' : Course} {x y : SymbolId}

namespace Aligned

variable (h : Aligned tables library m compositions initial c c')
include h

theorem namespaces_base : c.base.table.namespaces = c.start.table.namespaces :=
  h.left.account.alike.namespaces_eq

/-- No namespace has a name that none has in the other order. -/
theorem mem_namespaceNames {name : Name} (hname : name ∈ c'.base.table.namespaceNames) :
    name ∈ c.base.table.namespaceNames := by
  rw [Table.namespaceNames, h.symm.namespaces_base, ← Table.namespaceNames,
    h.right.entered.namespaceNames] at hname
  rw [Table.namespaceNames, h.namespaces_base, ← Table.namespaceNames,
    h.left.entered.namespaceNames]
  have ht := h.compiled.formed.tree
  rcases h.compiled'.namespaces name hname with hold | ⟨rename, foreign, hlends, hname⟩
  · obtain ⟨ns, hns, hne, rfl⟩ := Table.mem_namespaceNames.1 hold
    have hlater := h.compiled.later
    refine Table.mem_namespaceNames.2 ⟨ns, hlater.hasNamespace hns, hne, ?_⟩
    exact hlater.name_eq hns
  · have hlends := h.symm.lends hlends
    obtain ⟨hmem, hvalid⟩ := h.compiled.lent hlends
    exact (h.compiled.brought hlends).mem_namespaceNames ht
      (h.compiled.archive.trusted hmem hvalid).formed.tree hname

/-- What lies within outputs does so in the other order. -/
theorem isWithin_outputs (hx : c.start.table.Holds x)
    (hwithin : (c'.base.table.outputNamespaces (m.withCompositions compositions)).any
      (c'.base.table.isWithin
        (c'.base.table.symbolAt (c.start.table.standIn c'.start.table x)).home) = true) :
    (c.base.table.outputNamespaces m).any
      (c.base.table.isWithin (c.base.table.symbolAt x).home) = true := by
  have hoff : ∀ {t u : Table} (m : Module), u.namespaces = t.namespaces →
      u.outputNamespaces m = t.outputNamespaces m := fun m hsame => by
    rw [Table.outputNamespaces, Table.outputNamespaces, Table.namespaceAt_congr hsame]
  rw [hoff _ h.symm.namespaces_base, Table.isWithin_congr h.symm.namespaces_base,
    h.right.account.alike.home, h.retraces.regular'.tree.any_outputNamespaces_iff
      (h.retraces.regular'.arena.home (h.retraces.holds' hx)), h.retraces.path_home hx] at hwithin
  rwa [hoff _ h.namespaces_base, Table.isWithin_congr h.namespaces_base,
    h.left.account.alike.home, h.retraces.regular.tree.any_outputNamespaces_iff
      (h.retraces.regular.arena.home hx)]

variable (hclean : c.Clean m)
include hclean

/-- The restrictions are kept in the other order as well. -/
theorem restrictionReports_eq_nil : c'.base.table.restrictionReports c'.base.names
    (m.withCompositions compositions)
      (c'.declarations.types.map (c'.start.resolved (m.withCompositions compositions)))
        (c'.declarations.params.map Parameter.symbol) = [] := by
  have hconveyed := h.conveyed hclean
  have hrestrictions := hclean.restrictions
  rw [Table.restrictionReports, List.append_eq_nil_iff, List.append_eq_nil_iff] at hrestrictions ⊢
  obtain ⟨⟨hnewness, hlabels⟩, hparams⟩ := hrestrictions
  refine ⟨⟨?_, ?_⟩, ?_⟩
  · rw [List.flatMap_eq_nil_iff, List.forall_mem_map] at hnewness ⊢
    intro b' hb'
    obtain ⟨b, hb, rfl⟩ := h.exists_type hb'
    exact hconveyed.newnessReports_eq_nil hb (hnewness b hb)
  · rw [Table.labelReports_eq_nil_iff] at hlabels ⊢
    exact fun entry hentry label hlabel =>
      mt h.mem_namespaceNames (hlabels entry hentry label hlabel)
  · change (if m.kind = .transform then _ else []) = _
    split at hparams
    · next hkind =>
        rw [if_pos hkind]
        rw [List.flatMap_eq_nil_iff, List.forall_mem_map] at hparams ⊢
        intro p' hp'
        obtain ⟨p, hp, rfl⟩ := h.exists_param hp'
        exact hconveyed.parameterReports_eq_nil hp h.isWithin_outputs (hparams p hp)
    · next hkind => rw [if_neg hkind]

/-! ## Sizes -/

theorem weighs : Table.Weighs c.base.names c'.base.names c.base.table c'.base.table
    (c.start.table.standIn c'.start.table) where
  toRenders := by
    have hsame : c.base.table.Holds = c.start.table.Holds :=
      funext fun x => propext (h.left.account.alike.holds x)
    rw [hsame]
    exact (h.conveyed hclean).renders
  intact := h.left.staged.declared.intact
  intact' := h.right.staged.declared.intact
  foreign {x} hx himported := by
    have hx := (h.left.account.alike.holds x).1 hx
    rw [Symbol.isImported, h.left.account.alike.origin, ← Symbol.isImported] at himported
    rw [Symbol.isImported, h.right.account.alike.origin, ← Symbol.isImported]
    exact h.symm.isImported (h.retraces.holds' hx) (by rwa [h.inverse hx])
  stored {s} hs himported := by
    have hstart := (h.left.account.alike.holds s).1 hs.holds
    have hold : c.imported.table.Holds s := by
      by_contra hnew
      obtain ⟨horigin, -⟩ := h.left.entered.extended.new hstart hnew
      rw [Symbol.isImported, h.left.account.alike.origin, horigin] at himported
      cases himported
    have hcopy := h.copies hold
    rw [(h.left.symbolAt_imported hold).2, (h.right.symbolAt_imported hcopy.holds).2, hcopy.size]
    cases (c.imported.table.symbolAt s).size? with
    | none => exact .refl _
    | some e => exact .refl _

theorem feasible : c'.base.table.Feasible c'.base.names := by
  have hweighs := h.weighs hclean
  refine Table.Feasible.of_conveys hweighs.intact' fun x' hx' => ?_
  have hholds' := (hweighs.intact'.formed.arena.mem_ownData_iff.1 hx').1
  obtain ⟨x, hx, rfl⟩ := h.onto ((h.right.account.alike.holds x').1 hholds')
  have hx := (h.left.account.alike.holds x).2 hx
  exact ⟨_, _, _, _, x, hweighs.conveys, hclean.feasible, (hweighs.mem_ownData hx).1 hx', hx, rfl⟩

/-! ## Contracts -/

theorem upholds (contract : ContractDecl) (hcontract : contract ∈ m.contracts) :
    c'.last.table.Upholds contract.item := by
  have hall : c.start.table.Finds c'.start.table c.start.table.Holds
      (c.start.table.standIn c'.start.table) (fun _ => True) := h.finds
  have hfinds := hall.alike (h.left.account.alike.trans h.left.judged.written.toAlike)
    (h.right.account.alike.trans h.right.judged.written.toAlike)
  exact hfinds.upholds (fun _ _ => trivial) (hclean.upholds contract hcontract)

end Aligned

/-- If one check is without errors, then so is the other one. -/
theorem Recomposed.clean (h : Recomposed tables library m compositions initial c c')
    (hclean : c.Clean m) (himported : c'.imported.table.hasErrors = false) :
    c'.Clean (m.withCompositions compositions) := by
  have haligned := h.aligned (h.left.start_clean_iff.2 ⟨hclean.imported, hclean.admits⟩) himported
  exact
    { imported := himported
      admits := h.admits hclean.admits
      types := haligned.typeProblems_eq_nil hclean
      params := haligned.paramProblems_eq_nil hclean
      restrictions := haligned.restrictionReports_eq_nil hclean
      feasible := haligned.feasible hclean
      upholds := haligned.upholds hclean }

end Draft

theorem Module.Interned.withCompositions {m : Module} {compositions : List ModuleRef}
    {names : Interner} (h : m.Interned names) (hperm : compositions.Perm m.compositions) :
    (m.withCompositions compositions).Interned names where
  type := h.type
  label := h.label
  constant := h.constant
  param := h.param
  id id hid := h.id id (Node.mem_qualifiedIds.2 (Node.below_withCompositions (fun h => by cases h)
    (m := m.withCompositions compositions) hperm.symm (Node.mem_qualifiedIds.1 hid)))

theorem Session.supplied {names : Interner} {tables : List Table} {library : Library}
    (h : Session names tables) (held : ∀ entry ∈ library.tables, entry.2 ∈ tables) :
    ∀ entry ∈ library.tables, entry.2 ∈ tables ∧ entry.2.Mapped := fun entry hentry =>
  ⟨held entry hentry, h.mapped _ (held entry hentry)⟩

namespace Draft

variable {names : Interner} {tables : List Table} {library : Library} {m : Module}
  {compositions : List ModuleRef} {id : TableId} {config : CheckConfig}
  {imported imported' base base' last last' : Draft}

theorem hasErrors_initial (names : Interner) (id : TableId) (config : CheckConfig) (m : Module) :
    (initial names id config m).table.hasErrors = false := by
  have hreports : (initial names id config m).table.reports = [] := Table.reports_create ..
  rw [Table.hasErrors, hreports]
  rfl

theorem mapped_initial (names : Interner) (id : TableId) (config : CheckConfig) (m : Module) :
    (initial names id config m).table.Mapped :=
  (Table.dependencies_create names id m.name m.kind m.file).1

/-- If the imports of a check are without errors, then its references are what it is compiled
from. -/
theorem Staged.compiled (hsession : Session names tables)
    (held : ∀ entry ∈ library.tables, entry.2 ∈ tables)
    (h : Staged tables library m (initial names id config m) imported base last)
    (hclean : imported.table.hasErrors = false) :
    Compiled tables library (initial names id config m) m.references imported := by
  obtain ⟨hproper, harchive⟩ := hsession.archive
  exact (establishes_compiled (hsession.supplied held) (assembled_initial hproper harchive)
    (mapped_initial names id config m)).run rfl h.imports hclean

/-- If one check ends without errors, then so does the one of the other order. -/
theorem Staged.hasErrors_recomposed (hsession : Session names tables)
    (held : ∀ entry ∈ library.tables, entry.2 ∈ tables) (interned : m.Interned names)
    (perm : compositions.Perm m.compositions)
    (hleft : Staged tables library m (initial names id config m) imported base last)
    (hright : Staged tables library (m.withCompositions compositions) (initial names id config m)
      imported' base' last')
    (hclean : last.table.hasErrors = false) : last'.table.hasErrors = false := by
  obtain ⟨hgrown, -⟩ := hleft.spelled hsession held
  obtain ⟨hgrown', -⟩ := hright.spelled (m := m.withCompositions compositions) hsession held
  obtain ⟨c, hc, rfl, rfl⟩ := hleft.exists_course (interned.grown hgrown)
  obtain ⟨c', hc', rfl, rfl⟩ := hright.exists_course
    ((interned.withCompositions perm).grown hgrown')
  rw [hc.clean_iff] at hclean
  rw [hc'.clean_iff]
  obtain ⟨hproper, harchive⟩ := hsession.archive
  have hassembled : (initial names id config m).Assembled tables :=
    assembled_initial hproper harchive
  have hpristine : (initial names id config m).table.Pristine := Table.pristine_create
  have hregular := hassembled.formed.toRegular
  have hcompiled := hleft.compiled hsession held hclean.imported
  -- what could be imported in one order can be imported in the other one
  obtain ⟨hcompiled', himported'⟩ := hcompiled.ends_imports hpristine hregular
    (hsession.supplied held) hassembled (mapped_initial names id config m)
    (hasErrors_initial names id config m) (fun r hr => (Module.mem_references perm).1 hr) _ () _ rfl
      hright.imports
  have hrecomposed : Recomposed tables library m compositions (initial names id config m) c c' :=
    ⟨hc, hc', perm, hcompiled, hcompiled', hpristine, hregular, hsession.normal⟩
  exact hrecomposed.clean hclean himported'

end Draft

section

variable {names names' : Interner} {tables : List Table} {library : Library} {m : Module}
  {compositions : List ModuleRef} {id : TableId} {config : CheckConfig} {out : CheckOutput}

/-- A check that is not cancelled hands out a valid table just if it ends without errors. -/
theorem checkModule_isValid_iff (checked : checkModule names id library config m =
    (names', .ok out))
    (uncancelled : out.cancelled = false) :
    ∃ d, Draft.checkPasses library m (Draft.initial names id config m) = .ok () d ∧
      d.names = names' ∧
      d.table.Reads out.table ∧ (out.table.isValid = true ↔ d.table.hasErrors = false) := by
  obtain ⟨d, hrun, hnames, hreads⟩ := checkModule_uncancelled checked uncancelled
  refine ⟨d, hrun, hnames, hreads, ?_⟩
  have herrors : out.table.hasErrors = d.table.hasErrors := by
    rw [Table.hasErrors, hreads.reports_eq, ← Table.hasErrors]
  rw [Table.isValid, (checkModule_decided checked).1, uncancelled, herrors]
  cases d.table.hasErrors <;> decide

/-- The order of its compositions makes no difference to the validity of a module: the check of one
order is valid just if the check of any other one is. -/
theorem checkModule_recomposed (h : Session names tables)
    (held : ∀ entry ∈ library.tables, entry.2 ∈ tables) (interned : m.Interned names)
    (perm : compositions.Perm m.compositions) (id : TableId) (config : CheckConfig) :
    ∃ names' names'' out out', checkModule names id library config m = (names', .ok out) ∧
      checkModule names id library config (m.withCompositions compositions) = (names'', .ok out') ∧
      (out.cancelled = false → out'.cancelled = false →
        (out'.table.isValid = true ↔ out.table.isValid = true)) := by
  have hintact : ∀ t ∈ tables, t.isValid = true → t.Intact names := fun t ht _ => h.intact t ht
  obtain ⟨names', out, checked, -⟩ :=
    exists_checkModule h.archive.1 h.archive.2 hintact held id config m
  obtain ⟨names'', out', checked', -⟩ :=
    exists_checkModule h.archive.1 h.archive.2 hintact held id config
      (m.withCompositions compositions)
  refine ⟨names', names'', out, out', checked, checked', fun uncancelled uncancelled' => ?_⟩
  obtain ⟨d, hrun, -, -, hvalid⟩ := checkModule_isValid_iff checked uncancelled
  obtain ⟨d', hrun', -, -, hvalid'⟩ := checkModule_isValid_iff checked' uncancelled'
  obtain ⟨imported, base, hstaged⟩ := h.staged held hrun
  obtain ⟨imported', base', hstaged'⟩ := h.staged held hrun'
  rw [hvalid, hvalid']
  exact ⟨hstaged'.hasErrors_recomposed h held (interned.withCompositions perm) perm.symm hstaged,
    hstaged.hasErrors_recomposed h held interned perm hstaged'⟩

end

/-! ## What comes in twice -/

namespace Twice

/-- The names of the modules `G`, `H` and `K` and of their types `A`, `B` and `C`. -/
def names : Interner := internAll ["G", "H", "K", "A", "B", "C"]

def values : Field := { type := [.enumeration [.range 0 1 {}] {}] }

def refersTo (name : Name) : Field := { type := [.named { segments := [name] }] }

/-- `H` includes `G` and uses its type `A`. -/
def modules : List Module :=
  [{ kind := .domain, name := ⟨28⟩, file := ⟨0⟩,
     types := [⟨⟨31⟩, {}, .constructor true [values]⟩] },
   { kind := .domain, name := ⟨29⟩, file := ⟨0⟩,
     compositions := [{ module := ⟨28⟩, kind := .includes }],
     types := [⟨⟨32⟩, {}, .constructor true [refersTo ⟨31⟩]⟩] }]

def session : Interner × List Table := checkAll names [] modules

def library : Library := .of session.2

/-- `K` includes both `G` and `H`, which brings `A` a second time, and uses all types. -/
def importer : Module where
  kind := .domain
  name := ⟨30⟩
  file := ⟨0⟩
  compositions := [{ module := ⟨28⟩, kind := .includes }, { module := ⟨29⟩, kind := .includes }]
  types := [⟨⟨33⟩, {}, .constructor true [refersTo ⟨31⟩, refersTo ⟨32⟩]⟩]

theorem interned_importer : importer.Interned names where
  type := by decide +kernel
  label := by
    intro decl hdecl field hfield label hlabel
    have hnone : ∀ decl ∈ importer.types, ∀ field ∈ decl.body.fields, field.label =
        none := by decide
    cases (hnone decl hdecl field hfield).symm.trans hlabel
  constant := by decide
  param := by decide
  id := by decide +kernel

/-- Whether a check ends by itself, and whether its table is then valid. -/
def accepts (out : CheckOutput) : Bool := !out.cancelled && out.table.isValid

theorem accepts_importer :
    (checkModule session.1 ⟨2⟩ library {} importer).2.toOption.any accepts = true ∧
      (checkModule session.1 ⟨2⟩ library {}
        (importer.withCompositions importer.compositions.reverse)).2.toOption.any
          (!·.cancelled) = true := by
  decide +kernel

/-- `K` is valid, whichever of `G` and `H` it includes first. -/
theorem checkModule_recomposed_importer : ∃ names' names'' out out',
    checkModule session.1 ⟨2⟩ library {} importer = (names', .ok out) ∧
      checkModule session.1 ⟨2⟩ library {}
        (importer.withCompositions importer.compositions.reverse) = (names'', .ok out') ∧
      out.table.isValid = true ∧ out'.table.isValid = true := by
  obtain ⟨names', names'', out, out', checked, checked', hsame⟩ :=
    checkModule_recomposed (session_checkAll _ modules) (fun _ => Library.mem_of)
      (interned_importer.grown (grown_checkAll (session_internAll _).archive.1 [] modules))
      importer.compositions.reverse_perm ⟨2⟩ {}
  obtain ⟨_, hchecked, haccepts⟩ := exists_of_any_toOption accepts_importer.1
  cases checked.symm.trans hchecked
  obtain ⟨_, hchecked', hcompletes⟩ := exists_of_any_toOption accepts_importer.2
  cases checked'.symm.trans hchecked'
  rw [accepts, Bool.and_eq_true, Bool.not_eq_true'] at haccepts
  rw [Bool.not_eq_true'] at hcompletes
  exact ⟨_, _, _, _, checked, checked', haccepts.2,
    (hsame haccepts.1 hcompletes).2 haccepts.2⟩

end Twice

end ManySorted
