import ManySorted.Proofs.Draft.Walk
import ManySorted.Proofs.Queue
import ManySorted.Proofs.Session.Completeness

/-!
# Cancelled checks, and the verdict of a check

Cancelling a check only cuts it short (`checkModule_truncates`): what it hands out is what the whole
check hands out or, if it was cancelled, an invalid table that is a beginning of the whole one.
Whether a table is valid and which diagnostics come with it are two views of its reports, and they
agree (`checkModule_verdict`): a table is valid if and only if its check was not cancelled and
reported no error, and the number of errors among the diagnostics is that of the distinct errors
reported, up to the limit.

## Strategy

* A check with the same pace that nobody cancels goes through the same drafts, except for the clock,
  until the moment at which the other one is cancelled (`Clock.Spares`).
* That check ends (`Session.exists_patient`), and the drafts on the way to its end are beginnings of
  the last one.
* A diagnostic is an error if its report is no warning, and two reports have one key if they say the
  same.  So counting keys of diagnostics counts distinct errors (`Table.card_errorKeys`).
-/

namespace ManySorted

/-- The same configuration for a check that is never cancelled. -/
def CheckConfig.patient (config : CheckConfig) : CheckConfig :=
  { config with cancelledBy := fun _ => false }

/-- The number of steps that a check takes if it is never cancelled. -/
def patientTicks (names : Interner) (id : TableId) (library : Library) (config : CheckConfig)
    (m : Module) : Nat :=
  (Draft.after (Draft.checkPasses library m)
    (Draft.initial names id config.patient m)).clock.progress.ticks

/-- A check was cancelled and handed out an invalid beginning of the table of the whole check. -/
structure CheckOutput.Truncates (out full : CheckOutput) : Prop where
  cancelled : out.cancelled = true
  invalid : out.table.isValid = false
  onset : out.table.Onset full.table

section

variable {names names' : Interner} {tables : List Table} {id : TableId} {library : Library}
  {config : CheckConfig} {m : Module} {out : CheckOutput} {d : Draft}

/-- A clock that never cancels spares every run. -/
theorem Clock.spares_of_patient {c c' : Clock} (h : c'.Patient) : c'.Spares c := by
  intro progress hsees
  rw [seesCancellation, h, Bool.and_false] at hsees
  exact absurd hsees Bool.false_ne_true

theorem Draft.initial_patient (names : Interner) (id : TableId) (config : CheckConfig)
    (m : Module) :
    Draft.initial names id config.patient m = (Draft.initial names id config m).on
      { batch := config.batch, cancelledBy := fun _ => false } := rfl

/-- What a check hands out if its passes end. -/
theorem checkModule_of_ok
    (hrun : Draft.checkPasses library m (Draft.initial names id config m) = .ok () d) :
    checkModule names id library config m = (d.names, .ok ⟨{ d.table with
      validity := if d.table.validity.isPending then .decided true else d.table.validity },
      d.table.diagnostics config.errorLimit, false⟩) := by
  rw [checkModule_eq, hrun]
  dsimp only
  rw [Table.output_eq]
  rfl

/-- What a check hands out if it is cancelled: its table is invalid. -/
theorem checkModule_of_cancelled
    (hrun : Draft.checkPasses library m (Draft.initial names id config m) = .error .cancelled d) :
    checkModule names id library config m = (d.names, .ok ⟨{ d.table with
      validity := .decided false }, d.table.diagnostics config.errorLimit, true⟩) := by
  have hjudged := ((Draft.proceeds_checkPasses library m).error hrun).table.judged
    Table.judged_create
  have hvalidity : (if d.table.validity.isPending then .decided false else d.table.validity) =
      Decision.decided false := by
    rw [Table.Judged] at hjudged
    rw [hjudged]
    cases d.table.hasErrors <;> rfl
  rw [checkModule_eq, hrun]
  dsimp only
  rw [Table.output_eq, Bool.not_true, hvalidity]

/-- A patient run ends, since it neither breaks down nor is cancelled. -/
theorem Session.exists_patient (h : Session names tables)
    (held : ∀ entry ∈ library.tables, entry.2 ∈ tables) (id : TableId) (config : CheckConfig)
    (m : Module) :
    ∃ d, Draft.checkPasses library m (Draft.initial names id config.patient m) = .ok () d := by
  obtain ⟨names'', full, hfull, -⟩ := exists_checkModule h.archive.1 h.archive.2
    (fun t ht _ => h.intact t ht) held id config.patient m
  cases hrun : Draft.checkPasses library m (Draft.initial names id config.patient m) with
  | ok _ d => exact ⟨d, rfl⟩
  | error abort d =>
      cases abort with
      | cancelled =>
          exact absurd hrun ((Draft.paced_checkPasses library m).not_cancelled fun _ => rfl)
      | fault fault =>
          rw [checkModule_eq, hrun] at hfull
          cases congrArg Prod.snd hfull

/-- A check that nobody cancels is not cancelled. -/
theorem Session.uncancelled (h : Session names tables)
    (held : ∀ entry ∈ library.tables, entry.2 ∈ tables)
    (checked : checkModule names id library config m = (names', .ok out))
    (never : ∀ progress, config.cancelledBy progress = false) : out.cancelled = false := by
  have hpatient : config.patient = config := by
    rw [CheckConfig.patient, ← funext never]
  obtain ⟨d, hrun⟩ := h.exists_patient held id config m
  rw [hpatient] at hrun
  rw [checkModule_of_ok hrun] at checked
  cases checked
  rfl

/-- Whatever a check against tables of the session is given and whenever it is cancelled, it hands
out what it hands out if it is never cancelled, or it was cancelled, and its table is an invalid
beginning of the whole one.  If it is cancelled from the start, it notices so if and only if there
are enough steps for it to look once. -/
theorem checkModule_truncates (h : Session names tables)
    (held : ∀ entry ∈ library.tables, entry.2 ∈ tables) (id : TableId) (config : CheckConfig)
    (m : Module) : ∃ names' names'' out full,
      checkModule names id library config m = (names', .ok out) ∧
      checkModule names id library config.patient m = (names'', .ok full) ∧
      full.cancelled = false ∧ (out = full ∨ out.Truncates full) ∧
      ((∀ progress, config.cancelledBy progress = true) →
        (out.cancelled = true ↔ max 1 config.batch ≤ patientTicks names id library config m)) := by
  have hpaced := Draft.paced_checkPasses library m
  have hintact : ∀ t ∈ tables, t.isValid = true → t.Intact names := fun t ht _ => h.intact t ht
  obtain ⟨names', out, hout, -⟩ :=
    exists_checkModule h.archive.1 h.archive.2 hintact held id config m
  obtain ⟨names'', full, hfull, -⟩ :=
    exists_checkModule h.archive.1 h.archive.2 hintact held id config.patient m
  refine ⟨names', names'', out, full, hout, hfull, ?_⟩
  obtain ⟨d₁, hrun₁⟩ := h.exists_patient held id config m
  have hticks : patientTicks names id library config m = d₁.clock.progress.ticks := by
    rw [patientTicks, Draft.after_of_ok hrun₁]
  rw [checkModule_of_ok hrun₁] at hfull
  cases hfull
  rw [hticks]
  refine ⟨rfl, ?_⟩
  obtain ⟨-, -, hkeeps⟩ := hpaced.paces (Draft.initial names id config m)
  have hspares : ({ batch := config.batch, cancelledBy := fun _ => false } : Clock).Spares
      (Draft.initial names id config m).clock := Clock.spares_of_patient fun _ => rfl
  cases hkeeps hspares with
  | @ok a d run patient unseen =>
      rw [checkModule_of_ok run] at hout
      cases hout
      rw [Draft.initial_patient, patient] at hrun₁
      cases hrun₁
      refine ⟨.inl rfl, fun hstart =>
        ⟨fun hcancelled => Bool.noConfusion hcancelled, fun hle => ?_⟩⟩
      -- the run would have looked at the end of the first batch
      obtain ⟨requests, hlooked⟩ := unseen.looked
        (Nat.lt_of_lt_of_le Nat.zero_lt_one (Nat.le_max_left 1 _)) hle (Nat.mod_self _)
      exact absurd (hstart _) (Bool.eq_false_iff.1 hlooked)
  | @fault fault d run patient unseen =>
      rw [checkModule_eq, run] at hout
      cases congrArg Prod.snd hout
  | @cancelled d run seen later moves ticks_le =>
      rw [checkModule_of_cancelled run] at hout
      cases hout
      rw [← Draft.initial_patient, Draft.after_of_ok hrun₁] at moves ticks_le
      have honset := moves.onset
      refine ⟨.inr ⟨rfl, rfl, { honset with }⟩, fun _ => ⟨fun _ => ?_, fun _ => rfl⟩⟩
      -- a run looks at the end of a batch only
      have hbatch : d.clock.batch = config.batch := by
        have hclock := (hpaced.paces (Draft.initial names id config m)).clock.batch_eq
        rwa [Draft.after_of_error run] at hclock
      rw [Clock.seesCancellation, Bool.and_eq_true, beq_iff_eq, hbatch] at seen
      refine Nat.le_trans (Nat.le_of_dvd ?_ (Nat.dvd_of_mod_eq_zero seen.1)) ticks_le
      exact Nat.lt_of_le_of_lt (Nat.zero_le _) later

end

namespace Clash

/-- Cancelled from the start, and looking every three steps. -/
def hasty : CheckConfig := { batch := 3, cancelledBy := fun _ => true }

theorem three_le_patientTicks : 3 ≤ patientTicks session.1 ⟨2⟩ library hasty importer := by
  decide +kernel

/-- The check of `K` is cut short after three steps. -/
theorem checkModule_truncates_importer : ∃ names' names'' out full,
    checkModule session.1 ⟨2⟩ library hasty importer = (names', .ok out) ∧
      checkModule session.1 ⟨2⟩ library hasty.patient importer = (names'', .ok full) ∧
      out.Truncates full := by
  obtain ⟨names', names'', out, full, hout, hfull, hnever, hcases, hstart⟩ :=
    checkModule_truncates (session_checkAll _ modules) (fun _ => Library.mem_of) ⟨2⟩ hasty importer
  refine ⟨names', names'', out, full, hout, hfull, hcases.resolve_left ?_⟩
  rintro rfl
  have hcancelled := (hstart fun _ => rfl).2 three_le_patientTicks
  exact Bool.noConfusion (hcancelled.symm.trans hnever)

end Clash

/-- The code, the place and the message of each error that was reported. -/
def Table.distinctErrors (t : Table) : Finset (DiagnosticCode × Location × String) :=
  ((t.reports.filter fun r => !r.isWarning).map fun r =>
    (r.problem.code, r.location, r.problem.message)).toFinset

namespace Report

theorem isError_toDiagnostic (r : Report) : r.toDiagnostic.isError = !r.isWarning := by
  rw [Diagnostic.isError, toDiagnostic]
  dsimp only
  cases r.isWarning <;> rfl

theorem key_toDiagnostic (r : Report) : r.toDiagnostic.key =
    (r.problem.code, some r.location, r.problem.message) := rfl

theorem graded_toDiagnostic (rs : List Report) : Graded (rs.map toDiagnostic) := by
  intro d hd
  obtain ⟨r, -, rfl⟩ := List.mem_map.1 hd
  exact r.isError_toDiagnostic

end Report

namespace Table

variable {t : Table}

theorem hasErrors_eq_false_iff : t.hasErrors = false ↔ ∀ r ∈ t.reports, r.isWarning = true := by
  simp [hasErrors]

/-- The keys of the errors among the diagnostics are those of the errors reported. -/
theorem card_errorKeys (t : Table) :
    (errorKeys (t.reports.map Report.toDiagnostic)).toFinset.card = t.distinctErrors.card := by
  have hkeys : (errorKeys (t.reports.map Report.toDiagnostic)).toFinset =
      t.distinctErrors.image fun k => (k.1, some k.2.1, k.2.2) := by
    ext k
    simp [mem_errorKeys, distinctErrors, Report.isError_toDiagnostic, Report.key_toDiagnostic,
      and_assoc]
  rw [hkeys]
  refine Finset.card_image_of_injective _ fun a b hab => ?_
  simpa [Prod.ext_iff] using hab

/-- The diagnostics of a table have as many errors as it has distinct ones, up to the limit. -/
theorem countP_diagnostics (t : Table) (errorLimit : Nat) :
    (t.diagnostics errorLimit).countP Diagnostic.isError =
      cutAt errorLimit t.distinctErrors.card := by
  obtain ⟨hconfig, htallies⟩ := DiagnosticQueue.tallies_foldl_add
    (show ({ errorLimit } : QueueConfig).deduplicate = true from rfl)
    (Report.graded_toDiagnostic t.reports)
  have hcount := htallies.errorCount_eq
  rw [hconfig, card_errorKeys] at hcount
  exact (List.mergeSort_perm _ _).countP_eq _ |>.trans hcount

/-- The diagnostics have an error if the table has. -/
theorem exists_isError_of_hasErrors (h : t.hasErrors = true) (errorLimit : Nat) :
    ∃ d ∈ t.diagnostics errorLimit, d.isError = true := by
  obtain ⟨r, hr, hgrave⟩ := List.any_eq_true.1 h
  have hpos : 0 < t.distinctErrors.card := Finset.card_pos.2
    ⟨_, List.mem_toFinset.2 (List.mem_map.2 ⟨r, List.mem_filter.2 ⟨hr, hgrave⟩, rfl⟩)⟩
  have hcount : 0 < (t.diagnostics errorLimit).countP Diagnostic.isError := by
    rw [countP_diagnostics, cutAt]
    split
    · exact hpos
    · exact Nat.lt_min.2 ⟨hpos, by omega⟩
  exact List.countP_pos_iff.1 hcount

end Table

section

variable {names names' : Interner} {id : TableId} {library : Library} {config : CheckConfig}
  {m : Module} {out : CheckOutput}

/-- What a check hands out: the reports and the diagnostics are those of one table, and its validity
is decided by the reports unless the check was cancelled. -/
theorem checkModule_decided (checked : checkModule names id library config m = (names', .ok out)) :
    out.table.validity = .decided (!out.cancelled && !out.table.hasErrors) ∧
      out.diagnostics = out.table.diagnostics config.errorLimit := by
  cases hrun : Draft.checkPasses library m (Draft.initial names id config m) with
  | ok _ d =>
      have hjudged := ((Draft.proceeds_checkPasses library m).ok hrun).table.judged
        Table.judged_create
      rw [checkModule_of_ok hrun] at checked
      cases checked
      refine ⟨?_, rfl⟩
      change (if d.table.validity.isPending then _ else d.table.validity) =
        Decision.decided (!false && !d.table.hasErrors)
      rw [Table.Judged] at hjudged
      rw [hjudged]
      cases d.table.hasErrors <;> rfl
  | error abort d =>
      cases abort with
      | cancelled =>
          rw [checkModule_of_cancelled hrun] at checked
          cases checked
          exact ⟨rfl, rfl⟩
      | fault fault =>
          rw [checkModule_eq, hrun] at checked
          cases congrArg Prod.snd checked

/-- Whatever a check is given, what it hands out is valid if and only if the check was not cancelled
and reported no error; an invalid table of a check that was not cancelled comes with an error among
its diagnostics; and there are as many errors among them as there are distinct errors among the
reports, cut at the limit if there is one. -/
theorem checkModule_verdict (checked : checkModule names id library config m = (names', .ok out)) :
    (out.table.isValid = true ↔
        out.cancelled = false ∧ ∀ r ∈ out.table.reports, r.isWarning = true) ∧
      (out.table.isValid = false → out.cancelled = false →
        ∃ d ∈ out.diagnostics, d.isError = true) ∧
      out.errorCount = cutAt config.errorLimit out.table.distinctErrors.card := by
  obtain ⟨hvalidity, hdiagnostics⟩ := checkModule_decided checked
  have hvalid : out.table.isValid = (!out.cancelled && !out.table.hasErrors) := by
    rw [Table.isValid, hvalidity]
    cases out.cancelled <;> cases out.table.hasErrors <;> rfl
  refine ⟨?_, fun hinvalid huncancelled => ?_, ?_⟩
  · rw [hvalid, Bool.and_eq_true, Bool.not_eq_true', Bool.not_eq_true',
      Table.hasErrors_eq_false_iff]
  · rw [hvalid, huncancelled, Bool.not_false, Bool.true_and, Bool.not_eq_false'] at hinvalid
    rw [hdiagnostics]
    exact Table.exists_isError_of_hasErrors hinvalid _
  · rw [CheckOutput.errorCount, hdiagnostics, Table.countP_diagnostics]

end

namespace Clash

/-- Whether a check ended with an invalid table. -/
def rejects (out : CheckOutput) : Bool := !out.cancelled && !out.table.isValid

theorem rejects_importer :
    (checkModule session.1 ⟨2⟩ library {} importer).2.toOption.any rejects = true := by
  decide +kernel

/-- The name `A` is taken twice, so not all that is reported is a warning, and the diagnostics have
an error for each that is reported. -/
theorem checkModule_verdict_importer : ∃ names' out,
    checkModule session.1 ⟨2⟩ library {} importer = (names', .ok out) ∧
      (¬ ∀ r ∈ out.table.reports, r.isWarning = true) ∧
      (∃ d ∈ out.diagnostics, d.isError = true) ∧
      out.errorCount = cutAt 100 out.table.distinctErrors.card := by
  obtain ⟨out, checked, hrejects⟩ := exists_of_any_toOption rejects_importer
  rw [rejects, Bool.and_eq_true, Bool.not_eq_true', Bool.not_eq_true'] at hrejects
  obtain ⟨huncancelled, hinvalid⟩ := hrejects
  obtain ⟨hvalid, hdiagnostics, hcount⟩ := checkModule_verdict checked
  refine ⟨_, out, checked, fun hwarnings => ?_, hdiagnostics hinvalid huncancelled, hcount⟩
  exact Bool.noConfusion (hinvalid.symm.trans (hvalid.2 ⟨huncancelled, hwarnings⟩))

end Clash

end ManySorted
