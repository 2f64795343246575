import ManySorted.Proofs.Draft.Walk
import ManySorted.Proofs.Session.Completeness

/-!
# Which modules a table depends on

A table maps the name of every module that it depends on to that module's table.  While a module is
checked no entry of the map is ever rebound (`neverRebinds`), and what is refused
leaves no trace but an error.  In a valid table the map has just the module itself and all that it
imports, directly or through others, and every imported symbol comes from one of these
(`Chronicle.dependencies_exact`).

## Strategy

* **One check.**  What a check enters is never rebound, since each move of a table keeps the entries
  that are there (`checkModule_bound`).  This holds wherever a run could be cut short
  (`neverRebinds`).
* **Valid tables.**  Without errors every import brings in all dependencies of its foreign table
  (`Draft.absorbed_of_imports`), and nothing else is entered (`checkModule_dependencies`).
* **The history.**  A session is a chronicle of its checks (`Session.exists_chronicle`).  What a
  table imports does not change with later checks (`Chronicle.imports_append`).
* **Induction on the history.**  The dependencies of a table are those of what it was checked
  against (`Chronicle.accounted_check`), so they are all that it imports, directly or through others
  (`Chronicle.accounted`).
-/

namespace ManySorted

open Relation (ReflTransGen TransGen)

/-! ## One check -/

namespace Table

variable (names : Interner) (id : TableId) (module : Name) (kind : ModuleKind) (file : Name)

/-- A new table depends on itself only. -/
theorem dependencies_create : (create names id module kind file).2.Mapped ∧
    ∀ entry, entry ∈ (create names id module kind file).2.dependencies.toList ↔
      entry = (module, id) := by
  have hbound := (moves_foldl_addBuiltin dotless_builtins names
    { id, module, kind, file, dependencies := ⟨[(module, id)]⟩ }).2.bound
      (fun _ hu => hu.elim) (List.pairwise_singleton _ _)
  refine ⟨hbound.mapped, fun entry => ⟨fun hentry => ?_, ?_⟩⟩
  · rcases hbound.cases hentry with hold | ⟨_, hsource, _⟩
    · exact List.mem_singleton.1 hold
    · exact hsource.elim
  · rintro rfl
    exact hbound.kept (List.mem_singleton_self _)

/-- Nothing in a new table is imported. -/
theorem origin_create (x : SymbolId) :
    ((create names id module kind file).2.symbolAt x).origin = none := by
  by_cases hx : (create names id module kind file).2.Holds x
  · exact (builtin_of_create hx).2.2.1
  · rw [symbolAt_of_not_holds hx]
    rfl

end Table

namespace Draft

variable {library : Library} {m : Module} {reference : ModuleRef} {references : List ModuleRef}
  {d d' : Draft}

/-- An import that reports no error brings in all dependencies of a valid table. -/
theorem establishes_absorbed (m : Module) (reference : ModuleRef)
    (hmapped : ∀ t, library.Supplies [reference] t → t.Mapped) :
    Establishes (fun d => d.table.Mapped) (importReference library m reference) fun _ d =>
      ∃ foreign, library.find? reference.module = some foreign ∧ foreign.isValid = true ∧
        ∀ entry ∈ foreign.dependencies.toList, entry ∈ d.table.dependencies.toList := by
  refine Establishes.bind (Q := fun _ d => d.table.Mapped) (establishes_tick fun d hd => hd)
    fun _ => ?_
  refine Establishes.bind (Q := fun _ d => d.table.Mapped)
    (establishes_modify proceeds_request fun d hd _ => hd) fun _ => ?_
  cases hfind : library.find? reference.module with
  | none =>
      refine establishes_getNames_bind fun names => ?_
      refine ⟨proceeds_report .., fun {d a d'} _ hrun hclean => ?_⟩
      cases hrun
      rw [Table.hasErrors_report, Bool.or_eq_false_iff] at hclean
      cases hclean.2
  | some foreign =>
      refine establishes_get_bind fun start => ?_
      cases hrefusal : start.table.importRefusal? start.names reference foreign with
      | some problem =>
          refine ⟨proceeds_report .., fun {d a d'} hd hrun hclean => ?_⟩
          have hgrave := Table.isWarning_of_importRefusal? hrefusal
          cases hrun
          rw [Table.hasErrors_report, Report.isWarning, hgrave, Bool.or_eq_false_iff] at hclean
          cases hclean.2
      | none =>
          have hvalid := Table.isValid_of_importRefusal? hrefusal
          have hsource : library.Supplies [reference] foreign :=
            ⟨hvalid, reference, List.mem_singleton_self _, hfind⟩
          refine ⟨proceeds_embed .., ?_⟩
          rintro d a d' ⟨hd, rfl⟩ hrun -
          obtain ⟨rest, hembed, hrest⟩ :=
            exists_embed_eq hsource reference.rename reference.span
          dsimp only at hrun
          rw [hembed] at hrun
          obtain ⟨_, d₁, habsorb, hrun⟩ := bind_eq_ok.1 hrun
          cases habsorb
          obtain ⟨habsorbed, hmem⟩ := Table.absorbed hd (hmapped _ hsource)
            (Table.moduleClash?_of_importRefusal? hrefusal)
          have hmoves := (hrest () { d with table := d.table.absorb foreign } fun name hname =>
            Interner.segment_of_isLegalId (Table.isLegalId_of_importRefusal? hrefusal hname)).moves
          rw [after_of_ok hrun] at hmoves
          exact ⟨foreign, rfl, hvalid, fun entry hentry =>
            (hmoves.bound hmapped habsorbed).kept ((hmem entry).2 (.inr hentry))⟩

/-- Imports that report no error bring in the dependencies of a valid table each. -/
theorem absorbed_of_imports (hmapped : ∀ t, library.Supplies references t → t.Mapped)
    (hd : d.table.Mapped) (hrun : references.forM (importReference library m) d = .ok () d')
    (hclean : d'.table.hasErrors = false) : ∀ reference ∈ references, ∃ foreign,
      library.find? reference.module = some foreign ∧ foreign.isValid = true ∧
        ∀ entry ∈ foreign.dependencies.toList, entry ∈ d'.table.dependencies.toList := by
  induction references generalizing d with
  | nil => exact fun _ h => absurd h List.not_mem_nil
  | cons first rest ih =>
      obtain ⟨_, d₁, hfirst, hrest⟩ := bind_eq_ok.1 hrun
      have hclean₁ := ((proceeds_forM (l := rest) fun r _ =>
        proceeds_importReference library m r).ok hrest).table.hasErrors_eq_false hclean
      have hmappedFirst : ∀ t, library.Supplies [first] t → t.Mapped := by
        rintro t ⟨hvalid, r, hr, hfound⟩
        exact hmapped t ⟨hvalid, r, List.mem_cons.2 (.inl (List.mem_singleton.1 hr)), hfound⟩
      have hmappedRest : ∀ t, library.Supplies rest t → t.Mapped := by
        rintro t ⟨hvalid, r, hr, hfound⟩
        exact hmapped t ⟨hvalid, r, List.mem_cons_of_mem _ hr, hfound⟩
      have hmovesFirst := ((paced_importReference library m first).paces d).moves
      rw [after_of_ok hfirst] at hmovesFirst
      have hd₁ := (hmovesFirst.bound hmappedFirst hd).mapped
      have hmovesRest := ((paced_imports library m rest).paces d₁).moves
      rw [after_of_ok hrest] at hmovesRest
      intro reference hreference
      rcases List.mem_cons.1 hreference with rfl | hreference
      · obtain ⟨foreign, hfind, hvalid, hentries⟩ :=
          (establishes_absorbed m reference hmappedFirst).run hd hfirst hclean₁
        exact ⟨foreign, hfind, hvalid, fun entry hentry =>
          (hmovesRest.bound hmappedRest hd₁).kept (hentries entry hentry)⟩
      · exact ih hmappedRest hd₁ hrest reference hreference

end Draft

section

variable {names names' : Interner} {id : TableId} {library : Library} {config : CheckConfig}
  {m : Module} {out : CheckOutput}

/-- Whatever a check does, its table depends on the module, and on what it imports depends on. -/
theorem checkModule_bound (hmapped : ∀ t, library.Supplies m.references t → t.Mapped)
    (checked : checkModule names id library config m = (names', .ok out)) :
    out.table.Mapped ∧ (m.name, id) ∈ out.table.dependencies.toList ∧
      ∀ entry ∈ out.table.dependencies.toList, entry = (m.name, id) ∨
        ∃ foreign, library.Supplies m.references foreign ∧
          entry ∈ foreign.dependencies.toList := by
  obtain ⟨hcreated, hself⟩ := Table.dependencies_create names id m.name m.kind m.file
  obtain ⟨t, hmoves, htable⟩ := checkModule_moves checked
  have hbound := hmoves.bound hmapped hcreated
  rw [htable]
  refine ⟨hbound.mapped, hbound.kept ((hself _).2 rfl), fun entry hentry => ?_⟩
  exact (hbound.cases hentry).imp_left (hself entry).1

/-- A valid table depends on the module and on all that its imports depend on, and nothing else. -/
theorem checkModule_dependencies (hmapped : ∀ t, library.Supplies m.references t → t.Mapped)
    (checked : checkModule names id library config m = (names', .ok out))
    (hvalid : out.table.isValid = true) :
    (∀ reference ∈ m.references, ∃ foreign, library.find? reference.module = some foreign ∧
      foreign.isValid = true) ∧
    ∀ entry, entry ∈ out.table.dependencies.toList ↔ entry = (m.name, id) ∨
      ∃ reference ∈ m.references, ∃ foreign, library.find? reference.module = some foreign ∧
        entry ∈ foreign.dependencies.toList := by
  obtain ⟨-, hself, hcases⟩ := checkModule_bound hmapped checked
  obtain ⟨d, hrun, -, hclean, htable⟩ := checkModule_valid checked hvalid
  rw [Draft.checkPasses_eq] at hrun
  obtain ⟨_, d₁, himports, hrest⟩ := Draft.bind_eq_ok.1 hrun
  have hclean₁ := (((Draft.proceeds_declare m).bind fun _ =>
    Draft.proceeds_judge m).ok hrest).table.hasErrors_eq_false hclean
  have himported := Draft.absorbed_of_imports hmapped
    (Table.dependencies_create ..).1 himports hclean₁
  -- what is imported stays to the end
  have hstart := ((Draft.paced_imports library m m.references).paces
    (Draft.initial names id config m)).moves
  rw [Draft.after_of_ok himports] at hstart
  have hmoves : Table.Moves (library.Supplies m.references) _ d₁.table (Draft.after (do
      Draft.declare m
      Draft.judge m) d₁).table := ((Draft.paced_declaring m).paces d₁).moves
  rw [Draft.after_of_ok hrest] at hmoves
  have hkept := hmoves.bound hmapped (hstart.bound hmapped (Table.dependencies_create ..).1).mapped
  refine ⟨fun reference hreference => ?_, fun entry => ⟨fun hentry => ?_, ?_⟩⟩
  · obtain ⟨foreign, hfind, hvalid, -⟩ := himported reference hreference
    exact ⟨foreign, hfind, hvalid⟩
  · refine (hcases entry hentry).imp_right ?_
    rintro ⟨foreign, ⟨-, reference, hreference, hfind⟩, hentry⟩
    exact ⟨reference, hreference, foreign, hfind, hentry⟩
  · rintro (rfl | ⟨reference, hreference, foreign, hfind, hentry⟩)
    · exact hself
    · obtain ⟨foreign', hfind', -, hentries⟩ := himported reference hreference
      obtain rfl := Option.some.inj (hfind.symm.trans hfind')
      rw [htable]
      exact hkept.kept (hentries entry hentry)

end

/-! ## Runs that are cut short -/

/-- Wherever a run with the first configuration looks and finds itself cancelled, so does one with
the second. -/
def CheckConfig.Spares (late early : CheckConfig) : Prop :=
  ∀ progress : Progress, progress.ticks % max 1 late.batch = 0 →
    late.cancelledBy progress = true →
      progress.ticks % max 1 early.batch = 0 ∧ early.cancelledBy progress = true

/-- Whatever a check has entered among the dependencies at the moment at which it could be
cancelled, it keeps to the end, or to a later moment: no entry is rebound. -/
def NeverRebinds (names : Interner) (id : TableId) (library : Library) (m : Module) : Prop :=
  ∀ {early late : CheckConfig} {names₁ names₂ : Interner} {cut out : CheckOutput},
    late.Spares early → checkModule names id library early m = (names₁, .ok cut) →
      checkModule names id library late m = (names₂, .ok out) →
        cut.table.dependencies.find? m.name = some id ∧ ∀ {name dependency},
          cut.table.dependencies.find? name = some dependency →
            out.table.dependencies.find? name = some dependency

theorem neverRebinds {names : Interner} {id : TableId} {library : Library} {m : Module}
    (hmapped : ∀ t, library.Supplies m.references t → t.Mapped) :
    NeverRebinds names id library m := by
  intro early late names₁ names₂ cut out hspares hcut hout
  obtain ⟨hcutMapped, hself, -⟩ := checkModule_bound hmapped hcut
  have hkept : ∀ entry ∈ cut.table.dependencies.toList, entry ∈ out.table.dependencies.toList := by
    obtain ⟨-, -, hkeeps⟩ := (Draft.paced_checkPasses library m).paces
      (Draft.initial names id early m)
    have hclock : (Draft.initial names id late m).clock.Spares
        (Draft.initial names id early m).clock := by
      intro progress hsees
      rw [Clock.seesCancellation, Bool.and_eq_true, beq_iff_eq] at hsees ⊢
      exact hspares progress hsees.1 hsees.2
    have hon : (Draft.initial names id early m).on (Draft.initial names id late m).clock =
        Draft.initial names id late m := rfl
    rw [checkModule_table hcut, checkModule_table hout]
    cases hkeeps hclock with
    | ok run full =>
        rw [hon] at full
        rw [Draft.after_of_ok run, Draft.after_of_ok full]
        exact fun entry hentry => hentry
    | fault run full =>
        rw [hon] at full
        rw [Draft.after_of_error run, Draft.after_of_error full]
        exact fun entry hentry => hentry
    | cancelled run seen later moves ticks_le =>
        rw [hon] at moves
        have hmappedCut := hcutMapped
        rw [checkModule_table hcut, Draft.after_of_error run] at hmappedCut
        rw [Draft.after_of_error run]
        exact fun entry hentry => (moves.bound hmapped hmappedCut).kept hentry
  refine ⟨hcutMapped.find?_eq_some_iff.2 hself, fun {name dependency} hfound => ?_⟩
  exact (checkModule_bound hmapped hout).1.find?_eq_some_iff.2
    (hkept _ (hcutMapped.find?_eq_some_iff.1 hfound))

/-! ## The history of a session -/

/-- A check that handed out a table. -/
structure CheckRecord where
  library : Library
  module : Module
  table : Table

/-- The checks of a session, in their order. -/
inductive Chronicle : Interner → List CheckRecord → Prop
  | start : Chronicle .initial []
  | intern {names : Interner} {log : List CheckRecord} (text : String) (h : Chronicle names log) :
      Chronicle (names.intern text).2 log
  | check {names names' : Interner} {log : List CheckRecord} {id : TableId} {library : Library}
      {config : CheckConfig} {m : Module} {out : CheckOutput} (h : Chronicle names log)
      (fresh : ∀ r ∈ log, r.table.id ≠ id)
      (held : ∀ entry ∈ library.tables, ∃ r ∈ log, r.table = entry.2)
      (checked : checkModule names id library config m = (names', .ok out)) :
      Chronicle names' (log ++ [⟨library, m, out.table⟩])
  | failed {names names' : Interner} {log : List CheckRecord} {id : TableId} {library : Library}
      {config : CheckConfig} {m : Module} {fault : Fault} (h : Chronicle names log)
      (checked : checkModule names id library config m = (names', .error fault)) :
      Chronicle names' log

/-- The module of the first table was checked against the second, which it refers to. -/
def Imports (log : List CheckRecord) (t u : Table) : Prop :=
  ∃ r ∈ log, r.table = t ∧
    ∃ reference ∈ r.module.references, r.library.find? reference.module = some u

/-- A table of the log. -/
def Logged (log : List CheckRecord) (t : Table) : Prop := ∃ r ∈ log, r.table = t

/-- The dependencies of a table are those that it imports, directly or through others. -/
structure Table.Accounted (log : List CheckRecord) (t : Table) : Prop where
  mapped : t.Mapped
  /-- The map has the table itself and all that it imports, and nothing else. -/
  dependencies : ∀ {name id}, (name, id) ∈ t.dependencies.toList ↔
    ∃ u, ReflTransGen (Imports log) t u ∧ u.module = name ∧ u.id = id
  /-- Different tables among them have different names. -/
  apart : ∀ {u v}, ReflTransGen (Imports log) t u → ReflTransGen (Imports log) t v →
    u.module = v.module → u = v
  /-- What is imported comes from one of them. -/
  origin : ∀ {x o}, (t.symbolAt x).origin = some o →
    ∃ u, TransGen (Imports log) t u ∧ u.id = o.table

variable {names names' : Interner} {log : List CheckRecord} {r : CheckRecord} {t u v : Table}

/-- A chronicle is a session that remembers. -/
theorem Chronicle.session (h : Chronicle names log) :
    Session names (log.map CheckRecord.table) := by
  induction h with
  | start => exact .start
  | intern text _ ih => exact ih.intern text
  | failed _ checked ih => exact ih.failed checked
  | check _ fresh held checked ih =>
      rw [List.map_append]
      refine ih.check (fun t ht => ?_) (fun entry hentry => ?_) checked
      · obtain ⟨r, hr, rfl⟩ := List.mem_map.1 ht
        exact fresh r hr
      · obtain ⟨r, hr, heq⟩ := held entry hentry
        exact List.mem_map.2 ⟨r, hr, heq⟩

/-- Every session has its chronicle. -/
theorem Session.exists_chronicle {tables : List Table} (h : Session names tables) :
    ∃ log, Chronicle names log ∧ log.map CheckRecord.table = tables := by
  induction h with
  | start => exact ⟨[], .start, rfl⟩
  | intern text _ ih =>
      obtain ⟨log, hlog, htables⟩ := ih
      exact ⟨log, hlog.intern text, htables⟩
  | failed _ checked ih =>
      obtain ⟨log, hlog, htables⟩ := ih
      exact ⟨log, hlog.failed checked, htables⟩
  | @check names names' tables id library config m out _ fresh held checked ih =>
      obtain ⟨log, hlog, rfl⟩ := ih
      refine ⟨log ++ [⟨library, m, out.table⟩], hlog.check (fun r hr => ?_) (fun entry hentry => ?_)
        checked, List.map_append⟩
      · exact fresh _ (List.mem_map_of_mem hr)
      · exact List.mem_map.1 (held entry hentry)

/-- The dependencies of every table of a session are a map. -/
theorem Session.mapped {tables : List Table} (h : Session names tables) :
    ∀ t ∈ tables, t.Mapped := by
  induction h with
  | start => exact fun _ ht => absurd ht List.not_mem_nil
  | intern _ _ ih => exact ih
  | failed _ _ ih => exact ih
  | check _ fresh held checked ih =>
      intro t ht
      rcases List.mem_append.1 ht with ht | ht
      · exact ih t ht
      · obtain rfl := List.mem_singleton.1 ht
        refine (checkModule_bound (fun u hu => ?_) checked).1
        obtain ⟨-, reference, -, hfind⟩ := hu
        exact ih u (held _ (Library.mem_of_find? hfind))

/-! ### Imports of earlier checks -/

theorem Chronicle.imports (h : Chronicle names log) (himports : Imports log t u) :
    Logged log t ∧ Logged log u := by
  induction h with
  | start =>
      obtain ⟨r, hr, -⟩ := himports
      exact absurd hr List.not_mem_nil
  | intern _ _ ih => exact ih himports
  | failed _ _ ih => exact ih himports
  | check _ fresh held checked ih =>
      obtain ⟨r, hr, rfl, reference, hreference, hfind⟩ := himports
      rcases List.mem_append.1 hr with hold | hnew
      · obtain ⟨-, r', hr', heq⟩ := ih ⟨r, hold, rfl, reference, hreference, hfind⟩
        exact ⟨⟨r, hr, rfl⟩, r', List.mem_append_left _ hr', heq⟩
      · obtain rfl := List.mem_singleton.1 hnew
        obtain ⟨r', hr', heq⟩ := held _ (Library.mem_of_find? hfind)
        exact ⟨⟨_, hr, rfl⟩, r', List.mem_append_left _ hr', heq⟩

theorem Chronicle.logged_of_reaches (h : Chronicle names log) (ht : Logged log t)
    (hreaches : ReflTransGen (Imports log) t u) : Logged log u := by
  induction hreaches with
  | refl => exact ht
  | tail _ hstep => exact (h.imports hstep).2

/-- What a table imports does not change with later checks. -/
theorem Chronicle.imports_append (ht : Logged log t)
    (hfresh : ∀ r' ∈ log, r'.table.id ≠ r.table.id) :
    Imports (log ++ [r]) t u ↔ Imports log t u := by
  constructor
  · rintro ⟨r', hr', heq, himports⟩
    rcases List.mem_append.1 hr' with hold | hnew
    · exact ⟨r', hold, heq, himports⟩
    · obtain rfl := List.mem_singleton.1 hnew
      obtain ⟨r'', hr'', heq'⟩ := ht
      exact absurd (congrArg Table.id (heq'.trans heq.symm)) (hfresh r'' hr'')
  · rintro ⟨r', hr', h⟩
    exact ⟨r', List.mem_append_left _ hr', h⟩

theorem Chronicle.reaches_append (h : Chronicle names log) (ht : Logged log t)
    (hfresh : ∀ r' ∈ log, r'.table.id ≠ r.table.id) :
    ReflTransGen (Imports (log ++ [r])) t u ↔ ReflTransGen (Imports log) t u := by
  constructor
  · intro hreaches
    induction hreaches with
    | refl => exact ReflTransGen.refl
    | tail _ hstep ih =>
        exact ih.tail ((Chronicle.imports_append (h.logged_of_reaches ht ih) hfresh).1 hstep)
  · intro hreaches
    induction hreaches with
    | refl => exact ReflTransGen.refl
    | tail hreaches hstep ih =>
        exact ih.tail ((Chronicle.imports_append (h.logged_of_reaches ht hreaches) hfresh).2 hstep)

/-- What is known of a table stays known. -/
theorem Chronicle.accounted_append (h : Chronicle names log) (ht : Logged log t)
    (hfresh : ∀ r' ∈ log, r'.table.id ≠ r.table.id) (haccounted : t.Accounted log) :
    t.Accounted (log ++ [r]) where
  mapped := haccounted.mapped
  dependencies {name id} := by
    rw [haccounted.dependencies]
    exact exists_congr fun u => and_congr_left' (h.reaches_append ht hfresh).symm
  apart hu hv := haccounted.apart ((h.reaches_append ht hfresh).1 hu)
    ((h.reaches_append ht hfresh).1 hv)
  origin ho := by
    obtain ⟨u, hreaches, hid⟩ := haccounted.origin ho
    obtain ⟨v, hstep, hrest⟩ := TransGen.head'_iff.1 hreaches
    refine ⟨u, TransGen.head'_iff.2 ⟨v, (Chronicle.imports_append ht hfresh).2 hstep, ?_⟩, hid⟩
    exact (h.reaches_append (h.imports hstep).2 hfresh).2 hrest

/-- What a module imports is what its references name in the library. -/
theorem imports_self_iff {library : Library} {m : Module} (hfresh : ∀ r ∈ log, r.table.id ≠ t.id) :
    Imports (log ++ [⟨library, m, t⟩]) t u ↔
      ∃ reference ∈ m.references, library.find? reference.module = some u := by
  constructor
  · rintro ⟨r, hr, heq, himports⟩
    rcases List.mem_append.1 hr with hold | hnew
    · exact absurd (congrArg Table.id heq) (hfresh r hold)
    · obtain rfl := List.mem_singleton.1 hnew
      exact himports
  · exact fun himports => ⟨_, List.mem_append_right _ (List.mem_singleton_self _), rfl, himports⟩

/-- The dependencies of a valid table, given those of what it is checked against. -/
theorem Chronicle.accounted_check {id : TableId} {library : Library} {config : CheckConfig}
    {m : Module} {out : CheckOutput} (h : Chronicle names log) (fresh : ∀ r ∈ log, r.table.id ≠ id)
    (held : ∀ entry ∈ library.tables, ∃ r ∈ log, r.table = entry.2)
    (checked : checkModule names id library config m = (names', .ok out))
    (hvalid : out.table.isValid = true)
    (ih : ∀ r ∈ log, r.table.isValid = true → r.table.Accounted log) :
    out.table.Accounted (log ++ [⟨library, m, out.table⟩]) := by
  have hid := checkModule_id checked
  have hfresh : ∀ r ∈ log, r.table.id ≠ out.table.id := by rwa [hid]
  have hnext := h.check fresh held checked
  have hmapped : ∀ u, library.Supplies m.references u → u.Mapped := by
    rintro u ⟨-, reference, -, hfind⟩
    obtain ⟨r, hr, rfl⟩ := held _ (Library.mem_of_find? hfind)
    exact h.session.mapped _ (List.mem_map_of_mem hr)
  obtain ⟨hfound, hentries⟩ := checkModule_dependencies hmapped checked hvalid
  have hmodule : out.table.module = m.name := by
    obtain ⟨t, hmoves, htable⟩ := checkModule_moves checked
    rw [htable]
    exact hmoves.module_eq.trans
      (Table.moves_foldl_addBuiltin Table.dotless_builtins names _).2.module_eq
  -- what the module imports is accounted for
  have hknown : ∀ {u}, Imports (log ++ [⟨library, m, out.table⟩]) out.table u →
      u.isValid = true ∧ u.Accounted (log ++ [⟨library, m, out.table⟩]) := by
    intro u himports
    obtain ⟨reference, hreference, hfind⟩ := (imports_self_iff hfresh).1 himports
    obtain ⟨foreign, hfind', hforeign⟩ := hfound reference hreference
    obtain rfl := Option.some.inj (hfind.symm.trans hfind')
    obtain ⟨r, hr, rfl⟩ := held _ (Library.mem_of_find? hfind)
    exact ⟨hforeign, h.accounted_append ⟨r, hr, rfl⟩ hfresh (ih r hr hforeign)⟩
  have hmappedSelf := (checkModule_bound hmapped checked).1
  have hdependencies : ∀ {name dependency}, (name, dependency) ∈ out.table.dependencies.toList ↔
      ∃ u, ReflTransGen (Imports (log ++ [⟨library, m, out.table⟩])) out.table u ∧
        u.module = name ∧ u.id = dependency := by
    intro name dependency
    rw [hentries]
    constructor
    · rintro (heq | ⟨reference, hreference, foreign, hfind, hentry⟩)
      · cases heq
        exact ⟨out.table, ReflTransGen.refl, hmodule, hid⟩
      · have himports := (imports_self_iff (t := out.table) hfresh).2 ⟨reference, hreference, hfind⟩
        obtain ⟨u, hreaches, hu⟩ := (hknown himports).2.dependencies.1 hentry
        exact ⟨u, ReflTransGen.head himports hreaches, hu⟩
    · rintro ⟨u, hreaches, rfl, rfl⟩
      rcases ReflTransGen.cases_head hreaches with rfl | ⟨foreign, himports, hrest⟩
      · exact .inl (by rw [hmodule, hid])
      · obtain ⟨reference, hreference, hfind⟩ := (imports_self_iff hfresh).1 himports
        exact .inr ⟨reference, hreference, foreign, hfind,
          (hknown himports).2.dependencies.2 ⟨u, hrest, rfl, rfl⟩⟩
  refine ⟨hmappedSelf, hdependencies, fun {u v} hu hv hsame => ?_, fun {x o} ho => ?_⟩
  · have hlogged : Logged (log ++ [⟨library, m, out.table⟩]) out.table :=
      ⟨⟨library, m, out.table⟩, List.mem_append_right _ (List.mem_singleton_self _), rfl⟩
    have hmem : ∀ {w}, ReflTransGen (Imports (log ++ [⟨library, m, out.table⟩])) out.table w →
        w ∈ List.map CheckRecord.table (log ++ [⟨library, m, out.table⟩]) := by
      intro w hreaches
      obtain ⟨r, hr, rfl⟩ := hnext.logged_of_reaches hlogged hreaches
      exact List.mem_map_of_mem hr
    have heq := hmappedSelf.unique (hdependencies.2 ⟨u, hu, rfl, rfl⟩)
      (hdependencies.2 ⟨v, hv, rfl, rfl⟩) hsame
    exact hnext.session.archive.2.unique (hmem hu) (hmem hv) (congrArg Prod.snd heq)
  · obtain ⟨t, hmoves, htable⟩ := checkModule_moves checked
    rw [htable] at ho
    rcases hmoves.origin ho with hbuiltin | ⟨foreign, s, ⟨-, reference, hreference, hfind⟩, rfl⟩
    · rw [Table.origin_create] at hbuiltin
      cases hbuiltin
    · have himports := (imports_self_iff (t := out.table) hfresh).2 ⟨reference, hreference, hfind⟩
      cases horigin : (foreign.symbolAt s).origin with
      | none => exact ⟨foreign, TransGen.single himports, rfl⟩
      | some o =>
          obtain ⟨u, hreaches, hu⟩ := (hknown himports).2.origin horigin
          exact ⟨u, TransGen.head himports hreaches, hu⟩

/-- The valid tables of a session depend on what they import, directly or through others. -/
theorem Chronicle.accounted (h : Chronicle names log) : ∀ r ∈ log, r.table.isValid = true →
    r.table.Accounted log := by
  induction h with
  | start => exact fun _ hr => absurd hr List.not_mem_nil
  | intern _ _ ih => exact ih
  | failed _ _ ih => exact ih
  | @check names names' log id library config m out h fresh held checked ih =>
      have hid := checkModule_id checked
      have hfresh : ∀ r ∈ log, r.table.id ≠ out.table.id := by rwa [hid]
      intro r hr hvalid
      rcases List.mem_append.1 hr with hold | hnew
      · exact h.accounted_append ⟨r, hold, rfl⟩ hfresh (ih r hold hvalid)
      · obtain rfl := List.mem_singleton.1 hnew
        exact h.accounted_check fresh held checked hvalid ih

/-- While a module is checked against tables of a session no entry among the dependencies is
rebound; a refused import appends one error, and but for the verdict nothing else happens; and the
dependencies of a valid table are just the table itself and what it imports, directly or through
others, no two of which share a name, and from which all that is imported comes. -/
theorem Chronicle.dependencies_exact (h : Chronicle names log) :
    (∀ library : Library, (∀ entry ∈ library.tables, Logged log entry.2) →
      ∀ id m, NeverRebinds names id library m) ∧
    (∀ (d : Draft) reference foreign, d.table.Refuses d.names reference foreign →
      ∃ problem : Problem, problem.isWarning = false ∧
        Draft.importModule reference foreign d = .ok () { d with table := { d.table with
          validity := d.table.validity.falsify
          reports := d.table.reports ++ [⟨⟨d.table.file, reference.span⟩, problem⟩] } }) ∧
    ∀ r ∈ log, r.table.isValid = true → r.table.Accounted log := by
  refine ⟨fun library held id m => neverRebinds ?_,
    fun _ _ _ hrefuses => Draft.importModule_of_refuses hrefuses, h.accounted⟩
  rintro t ⟨-, reference, -, hfind⟩
  obtain ⟨r, hr, rfl⟩ := held _ (Library.mem_of_find? hfind)
  exact h.session.mapped _ (List.mem_map_of_mem hr)

namespace Diamond

/-- The table of `H`, which includes `G`, is accounted for, and no check against the two tables
rebinds an entry. -/
theorem dependencies_exact_session : ∃ log, Chronicle session.1 log ∧
    log.map CheckRecord.table = session.2 ∧ (∀ id m, NeverRebinds session.1 id library m) ∧
      ∃ r ∈ log, session.2[1]? = some r.table ∧ r.table.isValid = true ∧ r.table.Accounted log := by
  have hsession : Session session.1 session.2 := session_checkAll _ modules
  obtain ⟨log, hlog, htables⟩ := hsession.exists_chronicle
  obtain ⟨t, ht, hvalid⟩ := (Option.any_eq_true _ _).1 isValid_session
  obtain ⟨r, hr, rfl⟩ := List.mem_map.1 (htables ▸ List.mem_of_getElem? ht)
  obtain ⟨hnever, -, haccounted⟩ := hlog.dependencies_exact
  refine ⟨log, hlog, htables, fun id m => hnever library (fun entry hentry => ?_) id m, r, hr, ht,
    hvalid, haccounted r hr hvalid⟩
  exact List.mem_map.1 (htables ▸ Library.mem_of hentry)

end Diamond

end ManySorted
