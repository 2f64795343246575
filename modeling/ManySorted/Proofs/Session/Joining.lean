import ManySorted.Proofs.Session.Recomposing
import ManySorted.Proofs.Transfer.Combining

/-!
# Checking domains apart and as one

A domain that includes another one may be checked against the table of that domain.  If both checks
hand out valid tables, then the domain that declares what both declare is valid as well, and its
table corresponds to the one of the second domain (`checkModule_joined`).

## Strategy

* **Stages.**  Checks that end without errors have gone through all the stages of a check
  (`Draft.exists_taken`).
* **Imports.**  A domain that refers to nothing imports nothing (`Draft.exists_plain`).  One that
  includes such a domain imports copies of what it declares (`Draft.exists_plain_including`), since
  nothing else is there to be imported (`Draft.Compiled.exists_drawsOn`).
* **The joint domain.**  So the two checks come to the same as that of the joint domain, which is
  shown stage by stage in the modules that this one relies on (`Draft.Joined.joint`,
  `Draft.Joined.parallels`).
-/

namespace ManySorted

/-- The module refers to nothing but another one, which it includes under its own name. -/
def Module.Includes (m other : Module) : Prop :=
  ∃ reference, m.references = [reference] ∧ reference.module = other.name ∧
    reference.kind = .includes ∧ reference.rename = none

theorem Module.Includes.lends_iff {m other : Module} {library : Library} {foreign : Table}
    (h : m.Includes other) (found : library.find? other.name = some foreign) (rename : Option Name)
    (u : Table) : library.Lends m.references rename u ↔ rename = none ∧ u = foreign := by
  obtain ⟨reference, hreferences, hmodule, -, hrename⟩ := h
  rw [Library.Lends, hreferences]
  simp [hmodule, hrename, found, eq_comm]

theorem Module.Joins.interned {m first second : Module} {names : Interner}
    (h : m.Joins first second)
    (hfirst : first.Interned names) (hsecond : second.Interned names) : m.Interned names where
  type := by
    rw [h.types]
    exact List.forall_mem_append.2 ⟨hfirst.type, hsecond.type⟩
  label := by
    rw [h.types]
    exact List.forall_mem_append.2 ⟨hfirst.label, hsecond.label⟩
  constant := by
    rw [h.constants]
    exact List.forall_mem_append.2 ⟨hfirst.constant, hsecond.constant⟩
  param := by
    rw [Module.valueParams, h.params, List.filterMap_append]
    exact List.forall_mem_append.2 ⟨hfirst.param, hsecond.param⟩
  id id hid := (h.mem_qualifiedIds.1 hid).elim (hfirst.id id) (hsecond.id id)

/-- A module is checked in a session, and its table is valid. -/
structure Accepted (names : Interner) (tables : List Table) (library : Library) (m : Module)
    (names' : Interner) (out : CheckOutput) : Prop where
  session : Session names tables
  held : ∀ entry ∈ library.tables, entry.2 ∈ tables
  interned : m.Interned names
  checked : ∃ id config, checkModule names id library config m = (names', .ok out)
  valid : out.table.isValid = true

namespace Draft

variable {names names' : Interner} {tables : List Table} {library : Library} {m other : Module}
  {references : List ModuleRef} {id : TableId} {config : CheckConfig} {d : Draft} {foreign : Table}

theorem namespaceNames_initial (names : Interner) (id : TableId) (config : CheckConfig)
    (m : Module) :
    (initial names id config m).table.namespaceNames = [] := Table.namespaceNames_create

/-- The stages of a check of a session. -/
theorem exists_taken (h : Session names tables) (held : ∀ entry ∈ library.tables, entry.2 ∈ tables)
    (interned : m.Interned names)
    (hrun : checkPasses library m (initial names id config m) = .ok () d) :
    ∃ c : Course, c.Taken tables library m (initial names id config m) ∧ c.last = d ∧
      names.Grown c.imported.names := by
  obtain ⟨imported, base, hstaged⟩ := h.staged held hrun
  obtain ⟨hgrown, -⟩ := hstaged.spelled h held
  obtain ⟨c, hc, rfl, rfl⟩ := hstaged.exists_course (interned.grown hgrown)
  exact ⟨c, hc, rfl, hgrown⟩

/-- A domain that refers to no modules imports nothing. -/
theorem exists_plain (h : Session names tables) (held : ∀ entry ∈ library.tables, entry.2 ∈ tables)
    (interned : m.Interned names) (domain : m.kind = .domain) (hnone : m.references = [])
    (hrun : checkPasses library m (initial names id config m) = .ok () d) :
    ∃ c : Course, c.Plain m ∧ c.last = d ∧ names.Grown c.imported.names ∧
      c.imported.table.Pristine ∧ c.imported.table.hasErrors = false := by
  obtain ⟨c, hc, rfl, hgrown⟩ := exists_taken h held interned hrun
  have himports := hc.staged.imports
  rw [hnone] at himports
  have hinitial : initial names id config m = c.imported := (EStateM.Result.ok.inj himports).2
  have hpristine : c.imported.table.Pristine := hinitial ▸ Table.pristine_create
  exact ⟨c, ⟨⟨_, _, _, hc⟩, domain, interned.grown hgrown, hc.staged.normal h.normal,
    hinitial ▸ namespaceNames_initial names id config m,
    fun hx => Table.genuine_of_isBase hx (hpristine hx).1⟩, rfl, hgrown, hpristine,
    hinitial ▸ hasErrors_initial names id config m⟩

/-- All that a module without namespaces imports from one foreign table is a copy of what that table
declares. -/
theorem Compiled.exists_drawsOn (h : Compiled tables library (initial names id config m)
    references d)
    (hforeign : foreign.Regular names') (hflat : foreign.namespaceNames = [])
    (hlends : ∀ {rename u}, library.Lends references rename u ↔ rename = none ∧ u = foreign) :
    ∃ ρ, d.table.DrawsOn foreign ρ := by
  have hpristine : (initial names id config m).table.Pristine := Table.pristine_create
  obtain ⟨base, ρ, hdescend, -, himported⟩ := h.brought (hlends.2 ⟨rfl, rfl⟩)
  obtain rfl : base = .root := (Option.some.inj hdescend).symm
  refine ⟨ρ, himported, fun {x} hx => ?_⟩
  rcases h.covered hx with hold | ⟨rename, u, hlent, base, r, hdescend, hr, hkept, hfound, horigin⟩
  · obtain ⟨hbase, -, -, hbare⟩ := hpristine hold
    rw [Table.kindOf, hpristine.symbolAt_eq h.later hold]
    exact .inl ⟨hbase, hbare⟩
  · obtain ⟨rfl, rfl⟩ := hlends.1 hlent
    obtain rfl : base = .root := (Option.some.inj hdescend).symm
    refine .inr ⟨by rw [Symbol.isImported, horigin]; rfl, r, ⟨hr, ?_⟩,
      Option.some.inj ((himported.relocates hr hkept).symm.trans hfound)⟩
    -- conveniences in the root of the foreign table are not imported
    refine Option.eq_none_iff_forall_ne_some.2 fun k hk => hkept ⟨rfl, ?_, k, ?_⟩
    · exact hforeign.home_eq_root hflat hr
    · cases hkind : u.kindOf r <;> rw [hkind] at hk <;> cases hk
      rfl

theorem Compiled.namespaceNames_eq_nil
    (h : Compiled tables library (initial names id config m) references d)
    (hflat : foreign.namespaceNames = [])
    (hlends : ∀ {rename u}, library.Lends references rename u ↔ rename = none ∧ u = foreign) :
    d.table.namespaceNames = [] := by
  refine List.eq_nil_iff_forall_not_mem.2 fun name hname => ?_
  rcases h.namespaces name hname with hold | ⟨rename, u, hlent, hname⟩
  · rw [namespaceNames_initial] at hold
    exact absurd hold List.not_mem_nil
  · obtain ⟨rfl, rfl⟩ := hlends.1 hlent
    rw [hflat] at hname
    exact hname.elim List.not_mem_nil List.not_mem_nil

/-- A domain that includes another one without namespaces imports what that one declares. -/
theorem exists_plain_including (h : Session names tables)
    (held : ∀ entry ∈ library.tables, entry.2 ∈ tables) (interned : m.Interned names)
    (domain : m.kind = .domain) (includes : m.Includes other)
    (found : library.find? other.name = some foreign) (hflat : foreign.namespaceNames = [])
    (hrun : checkPasses library m (initial names id config m) = .ok () d)
    (hclean : d.table.hasErrors = false) :
    ∃ c : Course, c.Plain m ∧ c.last = d ∧ names.Grown c.imported.names ∧ foreign ∈ tables ∧
      ∃ ρ, c.imported.table.DrawsOn foreign ρ := by
  obtain ⟨c, hc, rfl, hgrown⟩ := exists_taken h held interned hrun
  have hcompiled := hc.staged.compiled h held (hc.clean_iff.1 hclean).imported
  have hlends {rename u} := includes.lends_iff found rename u
  obtain ⟨hmem, -⟩ := hcompiled.lent (hlends.2 ⟨rfl, rfl⟩)
  obtain ⟨ρ, hdraws⟩ :=
    hcompiled.exists_drawsOn (h.intact foreign hmem).formed.toRegular hflat hlends
  exact ⟨c, ⟨⟨_, _, _, hc⟩, domain, interned.grown hgrown, hc.staged.normal h.normal,
    hcompiled.namespaceNames_eq_nil hflat hlends, hdraws.genuine⟩, rfl, hgrown, hmem, ρ, hdraws⟩

end Draft

section

variable {names names' names₁ names₁' names₂ names₂' : Interner}
  {tables tables₁ tables₂ : List Table} {library library₁ library₂ : Library}
  {m first second : Module} {out out₁ out₂ : CheckOutput}

/-- A check that hands out a valid table has ended without errors. -/
theorem Accepted.exists_draft (h : Accepted names tables library m names' out) : ∃ id config d,
    Draft.checkPasses library m (Draft.initial names id config m) = .ok () d ∧ d.names = names' ∧
      d.table.Reads out.table ∧ d.table.hasErrors = false := by
  obtain ⟨id, config, checked⟩ := h.checked
  have hvalid := h.valid
  have uncancelled : out.cancelled = false := by
    rw [Table.isValid, (checkModule_decided checked).1] at hvalid
    cases hcancelled : out.cancelled with
    | false => rfl
    | true =>
        rw [hcancelled] at hvalid
        cases hvalid
  obtain ⟨d, hrun, hnames, hreads, hiff⟩ := checkModule_isValid_iff checked uncancelled
  exact ⟨id, config, d, hrun, hnames, hreads, hiff.1 hvalid⟩

/-- Checking a domain, and then one that includes it, agrees with checking the domain that declares
what both declare: if both are valid, then so is that one, and its table corresponds to the one of
the second domain.  A check that nobody cancels comes to that. -/
theorem checkModule_joined (hfirst : Accepted names₁ tables₁ library₁ first names₁' out₁)
    (hsecond : Accepted names₂ tables₂ library₂ second names₂' out₂)
    (h : Session names tables) (held : ∀ entry ∈ library.tables, entry.2 ∈ tables)
    (grown₂ : names₁'.Grown names₂) (grown : names₂'.Grown names)
    (domain₁ : first.kind = .domain) (secluded : first.references = [])
    (domain₂ : second.kind = .domain) (includes : second.Includes first)
    (found : library₂.find? first.name = some out₁.table) (avoids₁ : first.Avoids names₁)
    (avoids₂ : second.Avoids names₂) (joins : m.Joins first second) (id : TableId)
    (config : CheckConfig) :
    ∃ names' out, checkModule names id library config m = (names', .ok out) ∧
      ((∀ progress, config.cancelledBy progress = false) → out.cancelled = false) ∧
      (out.cancelled = false → out.table.isValid = true ∧
        ∃ f, out₂.table.Parallels names₂' names' out.table f) := by
  obtain ⟨id₁, config₁, d₁, hrun₁, rfl, hreads₁, hclean₁⟩ := hfirst.exists_draft
  obtain ⟨id₂, config₂, d₂, hrun₂, rfl, hreads₂, hclean₂⟩ := hsecond.exists_draft
  obtain ⟨c₁, hplain₁, rfl, hgrown₁, hpristine₁, -⟩ := Draft.exists_plain hfirst.session hfirst.held
    hfirst.interned domain₁ secluded hrun₁
  -- the table of the first domain has no namespaces, so neither has the one that imports it
  have hflat : out₁.table.namespaceNames = [] := by
    rw [Table.namespaceNames, hreads₁.namespaces_eq, hplain₁.alike_last.namespaces_eq,
      ← Table.namespaceNames, hplain₁.flat_start]
  obtain ⟨c₂, hplain₂, rfl, hgrown₂, hmem, ρ, hdraws⟩ :=
    Draft.exists_plain_including hsecond.session hsecond.held hsecond.interned domain₂
      includes found
      hflat hrun₂ hclean₂
  rw [hplain₁.names_last] at grown₂
  rw [hplain₂.names_last] at grown
  -- the joint domain is checked with the names that both checks have left
  have hfollows := grown₂.trans hgrown₂
  have hkept := (hgrown₁.trans hplain₁.grown).trans (hfollows.trans hplain₂.grown)
  have hinterned := joins.interned (hfirst.interned.grown (hkept.trans grown))
    (hsecond.interned.grown ((hgrown₂.trans hplain₂.grown).trans grown))
  obtain ⟨names', out, checked, -⟩ :=
    exists_checkModule h.archive.1 h.archive.2 (fun t ht _ => h.intact t ht) held id config m
  refine ⟨names', out, checked, h.uncancelled held checked, fun uncancelled => ?_⟩
  obtain ⟨d, hrun, rfl, hreads, hvalid⟩ := checkModule_isValid_iff checked uncancelled
  obtain ⟨c, hplain, rfl, hgrown, hpristine, hclean⟩ :=
    Draft.exists_plain h held hinterned joins.kind joins.references hrun
  have hjoined : Draft.Joined first second m c₁ c₂ c out₁.table ρ :=
    { joins
      left :=
        { left := hplain₁
          right := hplain
          pristine := hpristine
          grown := hfollows.trans (hplain₂.grown.trans (grown.trans hgrown))
          clean := hplain₁.clean_iff.1 hclean₁
          avoids := avoids₁.grown hfirst.interned hgrown₁
          types decl hdecl := by rw [joins.types]; exact List.mem_append_left _ hdecl
          constants decl hdecl := by rw [joins.constants]; exact List.mem_append_left _ hdecl
          elements element helement := joins.mem_enumElements.2 (.inl helement) }
      right :=
        { left := hplain₂
          right := hplain
          pristine := hpristine
          grown := grown.trans hgrown
          clean := hplain₂.clean_iff.1 hclean₂
          avoids := avoids₂.grown hsecond.interned hgrown₂
          types decl hdecl := by rw [joins.types]; exact List.mem_append_right _ hdecl
          constants decl hdecl := by rw [joins.constants]; exact List.mem_append_right _ hdecl
          elements element helement := joins.mem_enumElements.2 (.inr helement) }
      pristine := hpristine₁
      clean := hclean
      reads := hreads₁
      intact := (hsecond.session.intact _ hmem).grown hgrown₂ hplain₂.intact.formed.proper
      grown := hfollows
      draws := hdraws }
  exact ⟨hvalid.2 (hplain.clean_iff.2 hjoined.joint), _, hjoined.parallels hreads₂ hreads⟩

end

/-! ## A domain and one that includes it -/

namespace Apart

/-- The names of the domains `G` and `H`, of the types `A` and `L` of the first and `P` of the
second one, and of the constants of enumerations. -/
def names : Interner := internAll ["G", "H", "A", "L", "P", "NIL", "FULL"]

def values : Field := { type := [.enumeration [.range 0 1 {}] {}] }

def refersTo (name : Name) : TypeTerm := .named { segments := [name] }

def constants (l : List Name) : TypeTerm :=
  .enumeration (l.map fun name => .constant { segments := [name] }) {}

/-- `G` has lists of values, which end in `NIL`. -/
def first : Module where
  kind := .domain
  name := ⟨28⟩
  file := ⟨0⟩
  types := [⟨⟨30⟩, {}, .constructor true [values]⟩,
    ⟨⟨31⟩, {}, .constructor true
      [{ type := [refersTo ⟨30⟩] }, { type := [refersTo ⟨31⟩, constants [⟨33⟩]] }]⟩]

/-- `H` includes `G` and has pairs of a list and a mark, for which it uses `NIL` as well. -/
def second : Module where
  kind := .domain
  name := ⟨29⟩
  file := ⟨0⟩
  compositions := [{ module := ⟨28⟩, kind := .includes }]
  types := [⟨⟨32⟩, {}, .constructor true
    [{ type := [refersTo ⟨31⟩] }, { type := [constants [⟨33⟩, ⟨34⟩]] }]⟩]

/-- What both declare, as one domain. -/
def whole : Module :=
  { second with compositions := [], types := first.types ++ second.types }

theorem joins_whole : whole.Joins first second := ⟨rfl, rfl, rfl, rfl, rfl, rfl⟩

def session : Interner × List Table := checkAll names [] [first]

theorem interned_first : first.Interned names where
  type := by decide +kernel
  label := by
    intro decl hdecl field hfield label hlabel
    have hnone : ∀ decl ∈ first.types, ∀ field ∈ decl.body.fields, field.label = none := by decide
    cases (hnone decl hdecl field hfield).symm.trans hlabel
  constant := by decide
  param := by decide
  id := by decide +kernel

theorem interned_second : second.Interned names where
  type := by decide +kernel
  label := by
    intro decl hdecl field hfield label hlabel
    have hnone : ∀ decl ∈ second.types, ∀ field ∈ decl.body.fields, field.label = none := by decide
    cases (hnone decl hdecl field hfield).symm.trans hlabel
  constant := by decide
  param := by decide
  id := by decide +kernel

theorem accepts_session : ((checkModule names ⟨0⟩ (.of []) {} first).2.toOption.any
      fun out => out.table.isValid && (out.table.module == first.name)) = true ∧
    (checkModule session.1 ⟨1⟩ (.of session.2) {} second).2.toOption.any
      (·.table.isValid) = true := by
  decide +kernel

/-- `G` and `H` come to the same, whether they are checked apart or as one. -/
theorem checkModule_joined_whole : ∃ names₂ out₂ names' out f,
    checkModule session.1 ⟨1⟩ (.of session.2) {} second = (names₂, .ok out₂) ∧
      checkModule names₂ ⟨2⟩ (.of []) {} whole = (names', .ok out) ∧
        out.table.isValid = true ∧ out₂.table.Parallels names₂ names' out.table f := by
  obtain ⟨out₁, checked₁, haccepts₁⟩ := exists_of_any_toOption accepts_session.1
  rw [Bool.and_eq_true, beq_iff_eq] at haccepts₁
  obtain ⟨hvalid₁, hmodule⟩ := haccepts₁
  obtain ⟨out₂, checked₂, hvalid₂⟩ := exists_of_any_toOption accepts_session.2
  have hnames : Session names [] := session_internAll _
  have hsession : Session session.1 session.2 := session_checkAll _ _
  have hgrown : names.Grown session.1 := grown_checkAll hnames.archive.1 [] [first]
  have heq : session = ((checkModule names ⟨0⟩ (.of []) {} first).1, [out₁.table]) :=
    checkAll_singleton checked₁
  have hfollows : (checkModule names ⟨0⟩ (.of []) {} first).1.Grown session.1 := by
    rw [heq]
    exact .refl _
  have hfound : (Library.of session.2).find? first.name = some out₁.table := by
    rw [heq, Library.find?, Library.of, List.map_singleton, hmodule]
    rfl
  obtain ⟨hgrown₂, hproper₂⟩ := checkModule_grown hsession.archive.1 checked₂
  obtain ⟨names', out, checked, hcompletes, hjoined⟩ := checkModule_joined (m := whole)
    ⟨hnames, fun _ => Library.mem_of, interned_first, ⟨_, _, checked₁⟩, hvalid₁⟩
    ⟨hsession, fun _ => Library.mem_of, interned_second.grown hgrown, ⟨_, _, checked₂⟩, hvalid₂⟩
    (hsession.grown hgrown₂ hproper₂) (fun entry hentry => absurd hentry List.not_mem_nil)
    hfollows (.refl _) rfl rfl rfl ⟨_, rfl, rfl, rfl, rfl⟩ hfound (by decide +kernel)
    (Module.Avoids.grown (by decide +kernel) interned_second hgrown) joins_whole ⟨2⟩ {}
  obtain ⟨hvalid, f, hparallels⟩ := hjoined (hcompletes fun _ => rfl)
  exact ⟨_, out₂, _, out, f, checked₂, checked, hvalid, hparallels⟩

end Apart

end ManySorted
