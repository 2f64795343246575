import ManySorted.Proofs.Session.Completeness
import ManySorted.Proofs.Sizing.Progress
import ManySorted.Proofs.Transfer.Declaring
import ManySorted.Proofs.Transfer.Registering

/-!
# The course of a check

A check imports, registers, declares and judges (`Draft.Course`).  It is without errors just if each
stage is (`Draft.Course.Taken.clean_iff`).  If all that one check declares is declared in the course
of another one as well, and the first one is without errors, then what it declares is found again
there (`Draft.Course.Taken.portion`), and so are the forms, provided that this is so for what it
imports (`Draft.Course.Taken.conveyed`).

## Strategy

* **The course.**  A check that is not cancelled goes through drafts that are named once
  (`Draft.Course.Taken`), and there is such a course for every run (`Draft.Staged.exists_course`).
* **Errors.**  Each stage adds its reports to those before it, so a check is clean just if its
  stages are (`Draft.Course.Taken.start_clean_iff`, `Draft.Course.Taken.clean_iff`).
* **What is found again.**  What a module declares is new (`Draft.Course.Taken.owns_of_new`) and is
  found by its name, in either course (`Draft.Registered.symbol?_type`).  So declarations stand for
  their counterparts (`Draft.Course.Taken.rename_mem_types`,
  `Draft.Course.Taken.rename_mem_params`).
-/

namespace ManySorted

namespace Table

variable {t t' : Table} {D : SymbolId → Prop} {f : SymbolId → SymbolId}
    {ids ids' : QualifiedId → Prop}

theorem Finds.mono (h : t.Finds t' D f ids) (hsub : ∀ id, ids' id → ids id) :
    t.Finds t' D f ids' where
  toEchoes := h.toEchoes
  type hid := h.type (hsub _ hid)
  symbol hid := h.symbol (hsub _ hid)

end Table

namespace Draft

variable {tables tables' : List Table} {library library' : Library} {m m' : Module}
  {initial initial' imported base last : Draft} {names : Interner} {D : SymbolId → Prop}
  {x : SymbolId}

/-- A type is found by its name. -/
theorem Registered.symbol?_type {start : Draft} {declarations : Declarations}
    (h : Registered m imported.table declarations start)
    (hsettled : ∀ {x}, imported.table.Holds x → (imported.table.symbolAt x).isSettled = true)
    {b : Declaration} (hb : b ∈ declarations.types) :
    (start.table.namespaceAt .root).symbol? b.decl.name = some b.symbol := by
  obtain ⟨howns, hkind⟩ := h.listsTypes.mem_iff.1 (List.mem_map_of_mem hb)
  have hnamed : start.table.dataOf? b.symbol = none := by
    cases hthis : start.table.kindOf b.symbol with
    | userSort =>
        rw [hthis] at hkind
        cases hkind
    | _ => rw [Table.dataOf?, hthis]
  have hlisted := h.intact.formed.arena.listed howns.holds
    (h.intact.formed.families.isEmpty_eq_false howns.holds hnamed)
  rwa [h.home_eq hsettled howns, (h.decl b hb).name] at hlisted

/-- The drafts that a check goes through, and what it registers. -/
structure Course where
  imported : Draft
  /-- The draft with the conveniences. -/
  origin : Draft
  start : Draft
  declarations : Declarations
  base : Draft
  last : Draft

namespace Course

/-- A check of the module goes that way. -/
structure Taken (c : Course) (tables : List Table) (library : Library) (m : Module)
    (initial : Draft) : Prop where
  staged : Staged tables library m initial c.imported c.base c.last
  entered : Entered m c.imported c.origin c.start c.declarations
  account : Account m c.imported.table c.declarations c.start c.base
  judged : Judged m c.base c.last

/-- Nothing that a check comes across is an error. -/
structure Clean (c : Course) (m : Module) : Prop where
  imported : c.imported.table.hasErrors = false
  admits : c.origin.Admits m
  types : ∀ b ∈ c.declarations.types, c.start.typeProblems m b = []
  params : ∀ p ∈ c.declarations.params, (c.start.resolvedParam m p).problems = []
  restrictions : c.base.table.restrictionReports c.base.names m
    (c.declarations.types.map (c.start.resolved m))
      (c.declarations.params.map Parameter.symbol) = []
  feasible : c.base.table.Feasible c.base.names
  upholds : ∀ contract ∈ m.contracts, c.last.table.Upholds contract.item

end Course

theorem Staged.exists_course (h : Staged tables library m initial imported base last)
    (hinterned : m.Interned imported.names) : ∃ c : Course,
      c.Taken tables library m initial ∧ c.imported = imported ∧ c.last = last := by
  obtain ⟨declarations, start, hrun, haccount⟩ := h.account
  obtain ⟨origin, hentered⟩ :=
    exists_entered h.collected.intact hinterned hrun haccount.registered
  exact ⟨⟨imported, origin, start, declarations, base, last⟩,
    ⟨h, hentered, haccount, judged_of_judge h.declared h.unsized h.judges⟩, rfl, rfl⟩

namespace Course

variable {c c' : Course}

namespace Taken

variable (h : c.Taken tables library m initial)
include h

theorem start_clean_iff : c.start.table.hasErrors = false ↔
    c.imported.table.hasErrors = false ∧ c.origin.Admits m := h.entered.clean_iff

/-- A check ends without errors just if it comes across none. -/
theorem clean_iff : c.last.table.hasErrors = false ↔ c.Clean m := by
  rw [h.judged.hasErrors_eq_false_iff h.staged.declared.intact,
    h.account.hasErrors_eq_false_iff h.entered.intact.formed.toRegular, h.start_clean_iff]
  constructor
  · rintro ⟨⟨⟨himported, hadmits⟩, htypes, hparams, hrestrictions⟩, hfeasible, hupholds⟩
    exact ⟨himported, hadmits, htypes, hparams, hrestrictions, hfeasible, hupholds⟩
  · rintro ⟨himported, hadmits, htypes, hparams, hrestrictions, hfeasible, hupholds⟩
    exact ⟨⟨⟨himported, hadmits⟩, htypes, hparams, hrestrictions⟩, hfeasible, hupholds⟩

theorem settled (hx : c.imported.table.Holds x) :
    (c.imported.table.symbolAt x).isSettled = true := h.staged.collected.settled hx

/-- What is imported stays as it is. -/
theorem symbolAt_imported (hx : c.imported.table.Holds x) :
    c.start.table.symbolAt x = c.imported.table.symbolAt x ∧
      c.base.table.symbolAt x = c.imported.table.symbolAt x := by
  have hlater := h.entered.extended.later
  exact ⟨(hlater.symbol hx).settled (h.settled hx),
    ((hlater.trans h.account.later).symbol hx).settled (h.settled hx)⟩

/-- What is new belongs to the module. -/
theorem owns_of_new (hx : c.start.table.Holds x) (hnew : ¬ c.imported.table.Holds x) :
    c.start.table.Owns x := by
  obtain ⟨horigin, -, hbase⟩ := h.entered.extended.new hx hnew
  exact Table.owns_of_origin hx horigin hbase

theorem mem_types {b : Declaration} (hb : b ∈ c.declarations.types) : b.decl ∈ m.types :=
  List.mem_of_find?_eq_some (h.entered.registered.firstTypes b hb)

theorem mem_valueParams {p : Parameter} (hp : p ∈ c.declarations.params) :
    (p.name, p.type) ∈ m.valueParams :=
  List.mem_of_find?_eq_some (h.entered.registered.firstParams p hp)

/-- The identifiers of a type are among those of the module. -/
theorem mem_ids_of_type {b : Declaration} (hb : b ∈ c.declarations.types) {terms : List TypeTerm}
    (hterms : terms ∈ b.decl.body.positions) {id : QualifiedId} (hid : Names terms id) :
    id ∈ (Node.module m).qualifiedIds := by
  obtain ⟨term, hterm, hid⟩ := hid
  exact Node.mem_qualifiedIds_of_type (h.mem_types hb) hterms hterm hid

theorem mem_ids_of_param {p : Parameter} (hp : p ∈ c.declarations.params) {id : QualifiedId}
    (hid : Names p.type id) : id ∈ (Node.module m).qualifiedIds := by
  obtain ⟨term, hterm, hid⟩ := hid
  obtain ⟨param, hparam, hvalue⟩ := List.mem_filterMap.1 (h.mem_valueParams hp)
  cases param with
  | model reference => cases hvalue
  | value name type span =>
      cases hvalue
      exact Node.mem_qualifiedIds_of_param hparam hterm hid

variable (h' : c'.Taken tables' library' m' initial')
  (hretraces : Table.Retraces names c.start.table c'.start.table D)
include h' hretraces

/-- What is declared in both modules stands for its counterpart. -/
theorem rename_mem_types (hstart : c'.start.table.hasErrors = false)
    (htypes : ∀ decl ∈ m.types, decl ∈ m'.types) {b : Declaration}
    (hb : b ∈ c.declarations.types) : D b.symbol ∧
      b.rename (c.start.table.standIn c'.start.table) ∈ c'.declarations.types := by
  obtain ⟨howns, hkind⟩ := h.entered.registered.listsTypes.mem_iff.1 (List.mem_map_of_mem hb)
  have hinside : D b.symbol := by
    refine hretraces.covers howns.holds ?_
    cases hthis : c.start.table.kindOf b.symbol with
    | union convenience =>
        cases convenience with
        | none => rfl
        | some _ =>
            rw [hthis] at hkind
            cases hkind
    | _ => rfl
  refine ⟨hinside, ?_⟩
  obtain ⟨b', hb', hdecl⟩ : ∃ b' ∈ c'.declarations.types, b'.decl = b.decl := by
    rw [← List.mem_map, (h'.entered.exhausts hstart).1]
    exact htypes _ (h.mem_types hb)
  have hlisted : c.start.table.under? [] b.decl.name = some b.symbol :=
    h.entered.registered.symbol?_type h.settled hb
  have hfound := hretraces.under? hlisted hinside
  have hfound' := h'.entered.registered.symbol?_type h'.settled hb'
  rw [hdecl] at hfound'
  have hsymbol := Option.some.inj (hfound'.symm.trans hfound)
  have heq : b.rename (c.start.table.standIn c'.start.table) = b' := by
    rw [Declaration.rename, ← hdecl, ← hsymbol]
  rwa [heq]

theorem rename_mem_params (hclean : c.start.table.hasErrors = false)
    (hstart : c'.start.table.hasErrors = false)
    (hparams : ∀ p ∈ m.boundParams, p ∈ m'.boundParams) {p : Parameter}
    (hp : p ∈ c.declarations.params) : D p.symbol ∧
      p.rename (c.start.table.standIn c'.start.table) ∈ c'.declarations.params := by
  obtain ⟨howns, hkind⟩ := h.entered.registered.kindOf_param hp
  have hinside : D p.symbol := hretraces.covers howns.holds (by rw [hkind]; rfl)
  refine ⟨hinside, ?_⟩
  obtain ⟨p', hp', hsame⟩ : ∃ p' ∈ c'.declarations.params, (p'.name, p'.type) =
      (p.name, p.type) := by
    rw [← List.mem_map (f := fun p : Parameter => (p.name, p.type)),
      (h'.entered.exhausts hstart).2.1]
    refine hparams _ ?_
    rw [← (h.entered.exhausts hclean).2.1]
    exact List.mem_map_of_mem (f := fun p : Parameter => (p.name, p.type)) hp
  obtain ⟨hname, htype⟩ := Prod.mk.inj hsame
  have hlisted : c.start.table.under? [] p.name = some p.symbol :=
    h.entered.registered.symbol?_param h.settled hp
  have hfound := hretraces.under? hlisted hinside
  have hfound' := h'.entered.registered.symbol?_param h'.settled hp'
  rw [hname] at hfound'
  have hsymbol := Option.some.inj (hfound'.symm.trans hfound)
  have heq : p.rename (c.start.table.standIn c'.start.table) = p' := by
    rw [Parameter.rename, ← hname, ← htype, ← hsymbol]
  rwa [heq]

/-- What one check declares without errors is declared and read alike in the course of another one
that declares it as well. -/
theorem portion (hclean : c.Clean m) (hstart : c'.start.table.hasErrors = false)
    (htypes : ∀ decl ∈ m.types, decl ∈ m'.types) (hparams : ∀ p ∈ m.boundParams, p ∈ m'.boundParams)
    (hfinds : c.start.table.Finds c'.start.table D (c.start.table.standIn c'.start.table)
      (· ∈ (Node.module m).qualifiedIds)) :
    Portion m c.start c'.start c.declarations c'.declarations D
      (c.start.table.standIn c'.start.table) where
  table := hretraces.echoes
  type b hb := by
    obtain ⟨hinside, hmem⟩ := h.rename_mem_types h' hretraces hstart htypes hb
    exact ⟨hinside, hmem, fun terms hterms =>
      hfinds.mono fun id hid => h.mem_ids_of_type hb hterms hid⟩
  param p hp := by
    obtain ⟨hinside, hmem⟩ := h.rename_mem_params h' hretraces
      (h.start_clean_iff.2 ⟨hclean.imported, hclean.admits⟩) hstart hparams hp
    exact ⟨hinside, hmem, hfinds.mono fun id hid => h.mem_ids_of_param hp hid⟩
  cleanType := hclean.types
  cleanParam := hclean.params

/-- What is declared without errors comes to the same, if this is so for what is imported and for
the conveniences. -/
theorem conveyed
    (hportion : Portion m c.start c'.start c.declarations c'.declarations D
      (c.start.table.standIn c'.start.table))
    (hunfailed' : ∀ x, (c'.base.table.symbolAt x).failed = false)
    (hnormal : ∀ x, c.base.table.NormalAt x) (hnormal' : ∀ x, c'.base.table.NormalAt x)
    (himported : ∀ {x}, D x →
      (c'.start.table.symbolAt (c.start.table.standIn c'.start.table x)).isImported = true →
        (c.start.table.symbolAt x).isImported = true)
    (hpreset : ∀ {x}, D x →
      c.imported.table.Holds x ∨ (c.start.table.kindOf x).convenience?.isSome = true →
      ¬ c.start.table.IsSort x →
        (c'.base.table.symbolAt (c.start.table.standIn c'.start.table x)).canonical =
          (c.base.table.symbolAt x).canonical.map
            (CanonicalForm.rename (c.start.table.standIn c'.start.table))) :
    Conveyed m m' c.imported.table c'.imported.table c.start c'.start c.base c'.base c.declarations
      c'.declarations D (c.start.table.standIn c'.start.table) where
  portion := hportion
  left := h.account
  right := h'.account
  declared := h.staged.declared
  declared' := h'.staged.declared
  unfailed := h.account.unfailed hportion.cleanType hportion.cleanParam
  unfailed' := hunfailed'
  normal := hnormal
  normal' := hnormal'
  holds hx := ⟨hretraces.holds hx, hretraces.holds' hx⟩
  covers := hretraces.covers
  imported := himported
  preset {x} hx hown hsort := by
    refine hpreset hx ?_ hsort
    by_cases hthere : c.imported.table.Holds x
    · exact .inl hthere
    · refine .inr (Option.isSome_iff_ne_none.2 fun hplain => hown ⟨?_, hplain⟩)
      exact h.owns_of_new (hretraces.holds hx) hthere

end Taken

end Course

end Draft

end ManySorted
