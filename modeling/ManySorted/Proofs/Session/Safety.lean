import ManySorted.Proofs.Import.Safety
import ManySorted.Proofs.Session
import ManySorted.Proofs.Sizing.Safety

/-!
# Checks of a session end

Whatever module is checked against the tables of a session, with whatever errors, the check ends and
hands out a table in which nothing dangles (`exists_checkModule`).

## Strategy

* A table that has only what is built in is intact, and it is a start for imports
  (`Draft.collected_initial`).
* Each pass is safe from what the passes before it have made: it ends, or is cancelled, in an intact
  table.  The passes are put together by `Draft.Safe.bind` (`Draft.safe_checkPasses`).
* Neither the reports nor the validity of a table matter for whether it hangs together, so the table
  that is handed out is intact as well.
* The tables of a session are handed out by such checks, and all that changes later are the names,
  so they stay intact (`Session.intact`).
-/

namespace ManySorted

namespace Table

variable {names : Interner} {t : Table}

/-- A table in which nothing is written hangs together. -/
theorem intact_create (hnames : names.Proper) (id : TableId) (module : Name) (kind : ModuleKind)
    (file : Name) :
    (create names id module kind file).2.Intact (create names id module kind file).1 where
  formed := (wellFormed_create hnames id module kind file).1
  closed hx := (builtin_of_create hx).2.2.2.closed _
  form hx _ hform := by
    rw [(builtin_of_create hx).2.2.2.canonical] at hform
    cases hform
  data hd := by
    have hbase := (builtin_of_create (holds_of_data hd)).1
    rw [hd] at hbase
    cases hbase

/-- Neither the validity of a table nor its reports matter for whether it hangs together. -/
theorem Intact.output (h : t.Intact names) {errorLimit : Nat} {cancelled : Bool} {out : CheckOutput}
    (hout : t.output errorLimit cancelled = .ok out) : out.table.Intact names := by
  rw [output_eq] at hout
  cases hout
  exact h.unwritten (.of_eq rfl rfl rfl) (fun _ => rfl) fun _ => rfl

end Table

namespace Draft

variable {tables : List Table} {library : Library} {m : Module} {d d' : Draft}

/-- A new table has nothing to trace back, and nothing in it dangles. -/
theorem collected_initial {names : Interner} (hnames : names.Proper)
    (harchive : Table.Archive names tables)
    (hintact : ∀ t ∈ tables, t.isValid = true → t.Intact names) (id : TableId)
    (config : CheckConfig) (m : Module) : (initial names id config m).Collected tables := by
  have hassembled : (initial names id config m).Assembled tables :=
    assembled_initial hnames harchive
  obtain ⟨hformed, hgrown⟩ := Table.wellFormed_create hnames id m.name m.kind m.file
  refine ⟨⟨hassembled.traced, Table.intact_create hnames id m.name m.kind m.file,
    fun t ht hvalid => (hintact t ht hvalid).grown hgrown hformed.proper, hassembled.settled,
    hassembled.unfailed, fun {x constant} hkind _ => ?_, fun _ x form hform => ?_,
    fun _ s hs => ?_, fun _ s e he => ?_⟩, fun _ => hassembled⟩
  · have hbase := (Table.builtin_of_create (Table.holds_of_constant hkind)).1
    rw [show (Table.create names id m.name m.kind m.file).2.kindOf x = _ from hkind] at hbase
    cases hbase
  · have hbare := (Table.builtin_of_create (Table.holds_of_canonical hform)).2.2.2
    cases hbare.canonical.symm.trans hform
  · obtain ⟨data, hdata⟩ := hs
    have hbase := (Table.builtin_of_create (Table.holds_of_sort hdata)).1
    rw [← SymbolKind.isBase_unsized,
      show ((Table.create names id m.name m.kind m.file).2.kindOf s).unsized =
        _ from hdata] at hbase
    cases hbase
  · cases (Table.builtin_of_create (Table.holds_of_size? he)).2.2.2.size.symm.trans he

theorem checkPasses_eq (library : Library) (m : Module) :
    checkPasses library m = (do
      m.references.forM (importReference library m)
      declare m
      judge m) := rfl

/-- Declaring and judging never break down after imports. -/
theorem Collected.safe_declare (h : d.Collected tables) (m : Module) :
    Safe Intact (· = d) (declare m) fun _ d' => Declared m d.table d' ∧ d'.Unsized := by
  have hformed : ImportsFormed d.table := by
    intro x constant hkind hvalue hnone
    cases (h.constants hkind hvalue).symm.trans hnone
  intro start hstart
  rw [hstart]
  exact Draft.safe_declare m hformed d (enrolled_start h.intact h.settled)

/-- All passes over a module end, or are cancelled, in an intact table. -/
theorem safe_checkPasses (hlibrary : ∀ entry ∈ library.tables, entry.2 ∈ tables) (m : Module) :
    Safe Intact (Collected tables) (checkPasses library m) fun _ => Intact := by
  rw [checkPasses_eq]
  refine ((safe_imports hlibrary m m.references).imp_cancelled fun _ hd => hd.intact).bind
    fun _ => ?_
  intro d hd
  refine ((hd.safe_declare m).bind fun _ => ?_) d rfl
  intro d' hd'
  exact ((safe_judge hd'.1 hd'.2).imp (fun _ h => h) fun _ _ h => h.intact) d' rfl

/-- The stages that a check goes through. -/
structure Staged (tables : List Table) (library : Library) (m : Module)
    (start imported base d : Draft) : Prop where
  imports : m.references.forM (importReference library m) start = .ok () imported
  declares : declare m imported = .ok () base
  judges : judge m base = .ok () d
  collected : imported.Collected tables
  declared : Declared m imported.table base
  unsized : base.Unsized
  sized : Sized base d

/-- A check that ends well has gone through all stages. -/
theorem Collected.staged (h : d.Collected tables)
    (hlibrary : ∀ entry ∈ library.tables, entry.2 ∈ tables)
    (hrun : checkPasses library m d = .ok () d') :
    ∃ imported base, Staged tables library m d imported base d' := by
  rw [checkPasses_eq] at hrun
  obtain ⟨_, imported, himports, hrun⟩ := bind_eq_ok.1 hrun
  obtain ⟨_, base, hdeclare, hjudge⟩ := bind_eq_ok.1 hrun
  have hcollected := (safe_imports hlibrary m m.references).ok h himports
  obtain ⟨hdeclared, hunsized⟩ := (hcollected.safe_declare m).ok rfl hdeclare
  exact ⟨imported, base, himports, hdeclare, hjudge, hcollected, hdeclared, hunsized,
    (safe_judge hdeclared hunsized).ok rfl hjudge⟩

end Draft

section

variable {names names' : Interner} {tables : List Table} {library : Library} {out : CheckOutput}

/-- A check against intact tables ends, and hands out an intact table. -/
theorem exists_checkModule (hnames : names.Proper) (harchive : Table.Archive names tables)
    (hintact : ∀ t ∈ tables, t.isValid = true → t.Intact names)
    (held : ∀ entry ∈ library.tables, entry.2 ∈ tables) (id : TableId) (config : CheckConfig)
    (m : Module) : ∃ names' out, checkModule names id library config m = (names', .ok out) ∧
      out.table.Intact names' := by
  have hsafe := Draft.safe_checkPasses held m (Draft.initial names id config m)
    (Draft.collected_initial hnames harchive hintact id config m)
  rw [checkModule_eq]
  rcases hsafe with ⟨_, d, hrun, hd⟩ | ⟨d, hrun, hd⟩
  · obtain ⟨out, hout⟩ : ∃ out, d.table.output config.errorLimit false = .ok out :=
      ⟨_, d.table.output_eq config.errorLimit false⟩
    rw [hrun]
    exact ⟨d.names, out, congrArg _ hout, Table.Intact.output hd hout⟩
  · obtain ⟨out, hout⟩ : ∃ out, d.table.output config.errorLimit true = .ok out :=
      ⟨_, d.table.output_eq config.errorLimit true⟩
    rw [hrun]
    exact ⟨d.names, out, congrArg _ hout, Table.Intact.output hd hout⟩

/-- Nothing dangles in the tables of a session, valid or not. -/
theorem Session.intact (h : Session names tables) : ∀ t ∈ tables, t.Intact names := by
  induction h with
  | start => exact fun _ ht => absurd ht List.not_mem_nil
  | @intern names tables text h ih =>
      intro t ht
      exact (ih t ht).grown (names.grown_intern text) (h.archive.1.intern text)
  | failed h checked ih =>
      intro t ht
      obtain ⟨hgrown, hproper⟩ := checkModule_grown h.archive.1 checked
      exact (ih t ht).grown hgrown hproper
  | @check names names' tables id library config m out h fresh held checked ih =>
      intro t ht
      rcases List.mem_append.1 ht with ht | ht
      · obtain ⟨hgrown, hproper⟩ := checkModule_grown h.archive.1 checked
        exact (ih t ht).grown hgrown hproper
      · obtain rfl := List.mem_singleton.1 ht
        obtain ⟨names'', out', checked', hintact⟩ := exists_checkModule h.archive.1 h.archive.2
          (fun t ht _ => ih t ht) held id config m
        rw [checked] at checked'
        cases checked'
        exact hintact

/-- A check against tables of the session hands out an intact table. -/
theorem Session.intact_of_check {id : TableId} {config : CheckConfig} {m : Module}
    (h : Session names tables) (held : ∀ entry ∈ library.tables, entry.2 ∈ tables)
    (checked : checkModule names id library config m = (names', .ok out)) :
    out.table.Intact names' := by
  obtain ⟨names'', out', checked', hintact⟩ := exists_checkModule h.archive.1 h.archive.2
    (fun t ht _ => h.intact t ht) held id config m
  cases checked.symm.trans checked'
  exact hintact

end

/-! ## A name that is taken -/

namespace Clash

/-- The names of the modules `G`, `H` and `K` and of the types `A`, `P` and `E`. -/
def names : Interner := internAll ["G", "H", "K", "A", "P", "E"]

def values : Field := { type := [.enumeration [.range 0 1 {}] {}] }

def pair : Field := { type := [.named { segments := [⟨31⟩] }] }

/-- `G` and `H` both have a type `A`, and that of `H` is used by its type `P`. -/
def modules : List Module :=
  [{ kind := .domain, name := ⟨28⟩, file := ⟨0⟩,
     types := [⟨⟨31⟩, {}, .constructor true [values]⟩] },
   { kind := .domain, name := ⟨29⟩, file := ⟨0⟩,
     types := [⟨⟨31⟩, {}, .constructor true [values]⟩, ⟨⟨32⟩, {}, .constructor true [pair]⟩] }]

def session : Interner × List Table := checkAll names [] modules

def library : Library := .of session.2

/-- `K` includes `G` and `H`, whose types `A` clash, and uses `P` in a type `E`. -/
def importer : Module where
  kind := .domain
  name := ⟨30⟩
  file := ⟨0⟩
  compositions := [{ module := ⟨28⟩, kind := .includes }, { module := ⟨29⟩, kind := .includes }]
  types := [⟨⟨33⟩, {}, .constructor true [{ type := [.named { segments := [⟨32⟩] }] }]⟩]

end Clash

end ManySorted
