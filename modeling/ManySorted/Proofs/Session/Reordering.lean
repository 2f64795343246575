import ManySorted.Proofs.Echo.Outcome
import ManySorted.Proofs.Session.Naming
import ManySorted.Proofs.Session.Normality
import ManySorted.Proofs.Session.Verdict

/-!
# The order of declarations

The verdict on a module does not depend on the order of its types (`checkModule_reordered`).  Both
checks make the same imports and add the same conveniences.  From there on the types are entered in
two orders, and each symbol of one draft has a counterpart in the other one
(`Draft.Rostered.coupled`).  What fails in one draft fails in the other (`Draft.exists_enacted`), so
all that is reported in one order is reported in the other.

## Strategy

* **The same start.**  Both checks make the same imports and add the same conveniences
  (`Draft.exists_rostered`).
* **Registering.**  From there on the types are entered in two orders, which leaves the same up to
  the handles (`Draft.Rostered.coupled`), and the same is reported about names.
* **Declaring.**  What fails in one order fails in the other (`Draft.Coupled.failed`), and forms are
  those of counterparts, so the problems and restrictions are the same.
* **Judging.**  What is reported depends on forms, and so it is the same in some order
  (`Draft.Staged.perm_reports`).
-/

namespace ManySorted

namespace Draft

variable {tables : List Table} {library : Library} {m : Module} {types : List TypeDecl}
  {conveniences : List (Convenience × SymbolId)}
  {initial imported imported' origin base base' start start' d d' e e' : Draft}
  {declarations declarations' : Declarations} {x : SymbolId}

/-! ## Registering -/

/-- What registering leaves, from the draft on that has the conveniences. -/
structure Rostered (m : Module) (imported origin base start : Draft) (declarations : Declarations) :
    Prop where
  enrollment : Enrollment m origin base declarations
  registered : Registered m imported.table declarations start
  names_eq : start.names = base.names
  alike : base.table.Alike start.table
  reports_eq : start.table.reports = base.table.reports

/-- All data among the imports and the conveniences is imported. -/
theorem Enrolled.labels_eq_nil (h : Enrolled imported.table conveniences [] [] origin)
    (hx : origin.table.Holds x) (hown : (origin.table.symbolAt x).isImported = false) :
    (origin.table.kindOf x).labels = [] := by
  cases hkind : origin.table.kindOf x with
  | data shape info =>
      have howns : origin.table.Owns x := by
        refine ⟨hx, ?_⟩
        rw [Symbol.isSettled, hown, Bool.false_or]
        change (origin.table.kindOf x).isBase = false
        rw [hkind]
        rfl
      cases h.listsTypes.mem_iff.2 ⟨howns, by rw [hkind]; rfl⟩
  | _ => rfl

section

variable (henrolled : Enrolled imported.table conveniences [] [] origin)
  (hinterned : m.Interned origin.names) (hperm : types.Perm m.types)
  (hdistinct : (m.types.map TypeDecl.name).Nodup)
  (h : Rostered m imported origin base start declarations)
  (h' : Rostered (m.withTypes types) imported origin base' start' declarations')
include henrolled hinterned hperm hdistinct h h'

/-- Registering in two orders leaves the same up to handles. -/
theorem Rostered.coupled :
    Coupled m types imported origin start start' declarations declarations'
      (counterpart origin base base') where
  mates := by
    have htwins := h.enrollment.twins hperm hdistinct h'.enrollment henrolled.intact
    refine (htwins.mates (fun e he label hlabel => hinterned.label_of_mem_entries he hlabel)
      fun x label hx hown hlabel => ?_).alike h.names_eq h.alike h'.names_eq h'.alike
    rw [henrolled.labels_eq_nil hx hown] at hlabel
    cases hlabel
  left := h.registered
  right := h'.registered
  settled := henrolled.settled
  older := henrolled.added.later.holds
  interned := hinterned
  perm := hperm
  distinct := hdistinct
  paramNames := h.enrollment.params_eq hperm hdistinct h'.enrollment

omit hinterned in
/-- The counterpart of a counterpart is the symbol. -/
theorem Rostered.counterpart_counterpart (hx : start.table.Holds x) :
    counterpart origin base' base (counterpart origin base base' x) = x :=
  (h.enrollment.twins hperm hdistinct h'.enrollment henrolled.intact).counterpart_counterpart
    ((h.alike.holds x).1 hx)

omit henrolled hinterned in
/-- Registering reports the same in both orders. -/
theorem Rostered.perm_reports : start'.table.reports.Perm start.table.reports := by
  rw [h.reports_eq, h'.reports_eq]
  exact h.enrollment.perm_reports hperm hdistinct h'.enrollment

end

/-- Both orders go on from the same conveniences. -/
theorem exists_rostered (hcollected : imported.Collected tables)
    (hinterned : m.Interned imported.names)
    (hperm : types.Perm m.types)
    (hspelled : imported.table.Spelled imported.names)
    (hrun : registerDeclarations m imported = .ok declarations start)
    (hrun' : registerDeclarations (m.withTypes types) imported = .ok declarations' start')
    (hleft : Registered m imported.table declarations start)
    (hright : Registered (m.withTypes types) imported.table declarations' start') :
    ∃ conveniences origin base base', Enrolled imported.table conveniences [] [] origin ∧
      imported.names.Grown origin.names ∧ origin.table.Spelled origin.names ∧
      Rostered m imported origin base start declarations ∧
      Rostered (m.withTypes types) imported origin base' start' declarations' := by
  obtain ⟨conveniences, origin, base, hconveniences, henrollment, hnames, halike, hreports⟩ :=
    enrollment_of_registerDeclarations hrun
  obtain ⟨_, _, base', hconveniences', henrollment', hnames', halike', hreports'⟩ :=
    enrollment_of_registerDeclarations hrun'
  cases hconveniences.symm.trans hconveniences'
  have henrolled := (safe_registerConveniences m).ok
    (enrolled_start hcollected.intact hcollected.settled) hconveniences
  have hpaced : Paced Table.NoSources (registerConveniences m) := paced_registerConveniences m
  have hmoved := (hpaced.paces imported).toMoved
  rw [after_of_ok hconveniences] at hmoved
  have hinterned := hinterned.grown hmoved.grown
  exact ⟨conveniences, origin, base, base', henrolled, hmoved.grown,
    hmoved.moves.spelled henrolled.intact.formed.proper (fun _ hu => hu.elim)
      (hspelled.grown hmoved.grown),
    ⟨henrollment henrolled.intact hinterned, hleft, hnames, halike, hreports⟩,
    ⟨henrollment' henrolled.intact (hinterned.withTypes hperm), hright, hnames',
      halike', hreports'⟩⟩

/-! ## Declaring -/

/-- What fails in one order fails in the other. -/
theorem Coupled.failed {f g : SymbolId → SymbolId}
    (h : Coupled m types imported origin start start' declarations declarations' f)
    (hback : Coupled (m.withTypes types) m.types imported origin start' start declarations'
      declarations g)
    (hinverse : g (f x) = x)
    (hleft : Account m imported.table declarations start d)
    (hright : Account (m.withTypes types) imported.table declarations' start' d') :
    (d'.table.symbolAt (f x)).failed = (d.table.symbolAt x).failed := by
  rw [Bool.eq_iff_iff, hleft.failed_iff, hright.failed_iff]
  refine ⟨fun hfallen => ?_, h.parallel.fallen⟩
  have hthere := hback.parallel.fallen hfallen
  rwa [hinverse] at hthere

theorem exists_enacted (hleft : Staged tables library m initial imported d e)
    (hright : Staged tables library (m.withTypes types) initial imported d' e')
    (hnormal : ∀ t ∈ tables, t.isValid = true → ∀ x, t.NormalAt x)
    (hspelled : imported.table.Spelled imported.names) (hinterned : m.Interned imported.names)
    (hperm : types.Perm m.types) (hdistinct : (m.types.map TypeDecl.name).Nodup) :
    ∃ origin start start' declarations declarations' f,
      Enacted m types imported origin start start' d d' declarations declarations' f ∧
        start'.table.reports.Perm start.table.reports := by
  obtain ⟨declarations, start, hrun, haccount⟩ := hleft.account
  obtain ⟨declarations', start', hrun', haccount'⟩ := hright.account
  obtain ⟨conveniences, origin, base, base', henrolled, hgrown, hspelled, hrostered, hrostered'⟩ :=
    exists_rostered hleft.collected hinterned hperm hspelled hrun hrun' haccount.registered
      haccount'.registered
  have hinterned := hinterned.grown hgrown
  have hcoupled := hrostered.coupled henrolled hinterned hperm hdistinct hrostered'
  have hagain : Rostered ((m.withTypes types).withTypes m.types) imported origin base start
      declarations := hrostered
  have hback := hrostered'.coupled henrolled (hinterned.withTypes hperm) hperm.symm
    ((hperm.map _).nodup_iff.2 hdistinct) hagain
  refine ⟨origin, start, start', declarations, declarations', counterpart origin base base', ?_,
    hrostered.perm_reports hperm hdistinct hrostered'⟩
  exact
    { coupled := hcoupled
      left := haccount
      right := haccount'
      declared := hleft.declared
      declared' := hright.declared
      failed := fun {x} hx => hcoupled.failed hback
        (hrostered.counterpart_counterpart henrolled hperm hdistinct hrostered'
          ((haccount.alike.holds x).1 hx)) haccount haccount'
      intact := hleft.collected.intact
      normal := hleft.collected.normal hnormal
      tree := henrolled.intact.formed.tree
      spelled := hspelled }

/-- The stages of two checks leave the same reports, in some order. -/
theorem Staged.perm_reports (hleft : Staged tables library m initial imported d e)
    (hright : Staged tables library (m.withTypes types) initial imported' d' e')
    (hnormal : ∀ t ∈ tables, t.isValid = true → ∀ x, t.NormalAt x)
    (hspelled : imported.table.Spelled imported.names) (hinterned : m.Interned imported.names)
    (hperm : types.Perm m.types) (hdistinct : (m.types.map TypeDecl.name).Nodup) :
    e'.table.reports.Perm e.table.reports := by
  cases hleft.imports.symm.trans hright.imports
  obtain ⟨origin, start, start', declarations, declarations', f, henacted, hreports⟩ :=
    exists_enacted hleft hright hnormal hspelled hinterned hperm hdistinct
  exact henacted.perm_judged (judged_of_judge hleft.declared hleft.unsized hleft.judges)
    (judged_of_judge hright.declared hright.unsized hright.judges) hleft.unsized hright.unsized
    (henacted.perm_reports hreports)

/-- Importing leaves only names that are segments of paths. -/
theorem Staged.spelled {names : Interner} {id : TableId} {config : CheckConfig}
    (h : Staged tables library m (Draft.initial names id config m) imported d e)
    (hsession : Session names tables) (held : ∀ entry ∈ library.tables, entry.2 ∈ tables) :
    names.Grown imported.names ∧ imported.table.Spelled imported.names := by
  have hcreated := (Table.wellFormed_create hsession.archive.1 id m.name m.kind m.file).2
  have hmoved := ((paced_imports library m m.references).paces
      (Draft.initial names id config m)).toMoved
  rw [after_of_ok h.imports] at hmoved
  have hgrown : names.Grown imported.names := hcreated.trans hmoved.grown
  refine ⟨hgrown, hmoved.moves.spelled h.collected.intact.formed.proper ?_
    ((Table.spelled_create hsession.archive.1 id m.name m.kind m.file).grown hmoved.grown)⟩
  rintro u ⟨-, reference, -, hfind⟩
  exact (hsession.spelled _ (held _ (Library.mem_of_find? hfind))).grown hgrown

end Draft

/-! ## Two checks -/

section

variable {names : Interner} {tables : List Table} {library : Library} {m : Module}
  {types : List TypeDecl}

/-- If the types of a module have different names, their order makes no difference to what a check
reports, each report as often as before, nor to the validity of the table. -/
theorem checkModule_reordered (h : Session names tables)
    (held : ∀ entry ∈ library.tables, entry.2 ∈ tables) (interned : m.Interned names)
    (distinct : (m.types.map TypeDecl.name).Nodup) (perm : types.Perm m.types) (id : TableId)
    (config : CheckConfig) : ∃ names' names'' out out',
      checkModule names id library config m = (names', .ok out) ∧
      checkModule names id library config (m.withTypes types) = (names'', .ok out') ∧
      (out.cancelled = false → out'.cancelled = false →
        out'.table.reports.Perm out.table.reports ∧
          out'.table.isValid = out.table.isValid) := by
  have hintact : ∀ t ∈ tables, t.isValid = true → t.Intact names := fun t ht _ => h.intact t ht
  obtain ⟨names', out, checked, -⟩ :=
    exists_checkModule h.archive.1 h.archive.2 hintact held id config m
  obtain ⟨names'', out', checked', -⟩ :=
    exists_checkModule h.archive.1 h.archive.2 hintact held id config (m.withTypes types)
  refine ⟨names', names'', out, out', checked, checked', fun uncancelled uncancelled' => ?_⟩
  obtain ⟨d, hrun, -, hreads⟩ := checkModule_uncancelled checked uncancelled
  obtain ⟨d', hrun', -, hreads'⟩ := checkModule_uncancelled checked' uncancelled'
  obtain ⟨imported, base, hstaged⟩ := h.staged held hrun
  obtain ⟨imported', base', hstaged'⟩ := h.staged held hrun'
  obtain ⟨hgrown, hspelled⟩ := hstaged.spelled h held
  have hreports : out'.table.reports.Perm out.table.reports := by
    rw [hreads.reports_eq, hreads'.reports_eq]
    exact hstaged.perm_reports hstaged' h.normal hspelled (interned.grown hgrown) perm distinct
  refine ⟨hreports, ?_⟩
  -- validity is decided by the reports
  have herrors : out'.table.hasErrors = out.table.hasErrors := hreports.any_eq
  rw [Table.isValid, Table.isValid, (checkModule_decided checked).1,
    (checkModule_decided checked').1, uncancelled, uncancelled', herrors]

end

/-! ## A type that refers to one with a misspelt position -/

namespace Misspelt

/-- The names of the module `G`, of the types `A` and `B`, and one that stands for nothing. -/
def names : Interner := internAll ["G", "A", "B", "Z"]

def decls : List TypeDecl :=
  [⟨⟨29⟩, {}, .constructor true [{ type := [.named { segments := [⟨30⟩] }] }]⟩,
   ⟨⟨30⟩, {}, .constructor true [{ type := [.named { segments := [⟨31⟩] }] }]⟩]

/-- `A` refers to `B`, and `B` to a type that is not there. -/
def misspelt : Module := { kind := .domain, name := ⟨28⟩, file := ⟨0⟩, types := decls }

theorem interned_misspelt : misspelt.Interned names where
  type := by decide +kernel
  label := by
    intro decl hdecl field hfield label hlabel
    have hnone : ∀ decl ∈ decls, ∀ field ∈ decl.body.fields, field.label = none := by decide
    cases (hnone decl hdecl field hfield).symm.trans hlabel
  constant := by decide
  param := by decide
  id := by decide +kernel

/-- Whether a check ends by itself, with something to report. -/
def complains (out : CheckOutput) : Bool := !out.cancelled && !out.table.reports.isEmpty

theorem complains_result (types : List TypeDecl) (h : types ∈ [decls, decls.reverse]) :
    (checkModule names ⟨0⟩ {} {} (misspelt.withTypes types)).2.toOption.any complains = true := by
  revert types
  decide +kernel

/-- Whether `A` or `B` is declared first, the same is reported, and it is not nothing. -/
theorem checkModule_reordered_misspelt : ∃ names' names'' out out',
    checkModule names ⟨0⟩ {} {} misspelt = (names', .ok out) ∧
      checkModule names ⟨0⟩ {} {} (misspelt.withTypes decls.reverse) = (names'', .ok out') ∧
      out'.table.reports.Perm out.table.reports ∧ out.table.reports ≠ [] ∧
      out'.table.isValid = out.table.isValid := by
  obtain ⟨names', names'', out, out', checked, checked', hsame⟩ :=
    checkModule_reordered (session_internAll _) (fun _ h => absurd h List.not_mem_nil)
      interned_misspelt (by decide) decls.reverse_perm ⟨0⟩ {}
  have hcomplains : ∀ {types names' out}, types ∈ [decls, decls.reverse] →
      checkModule names ⟨0⟩ {} {} (misspelt.withTypes types) = (names', .ok out) →
      complains out = true := by
    intro types names' out htypes hchecked
    obtain ⟨out', hchecked', htest⟩ := exists_of_any_toOption (complains_result types htypes)
    cases hchecked.symm.trans hchecked'
    exact htest
  have hout := hcomplains (List.mem_cons_self : decls ∈ [decls, decls.reverse]) checked
  have hout' := hcomplains (List.mem_cons_of_mem _ List.mem_cons_self) checked'
  simp only [complains, Bool.and_eq_true, Bool.not_eq_true',
    List.isEmpty_eq_false_iff] at hout hout'
  obtain ⟨hperm, hvalid⟩ := hsame hout.1 hout'.1
  exact ⟨names', names'', out, out', checked, checked', hperm, hout.2, hvalid⟩

end Misspelt

end ManySorted
