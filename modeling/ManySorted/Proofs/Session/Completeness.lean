import ManySorted.Proofs.Declaration.Account
import ManySorted.Proofs.Import.Isomorphism
import ManySorted.Proofs.Session.Safety

/-!
# What the tables of a session say

A check that is not cancelled gives every declaration that stands the form that its type terms
denote (`checkModule_expresses`).  In a valid table nothing failed, and every symbol has what it is
to have: data has a form for its positions and a size, and unions, parameters and constants have
their forms (`Table.Complete`).

## Strategy

* **Stages.**  A check that is not cancelled imports, declares and judges (`Draft.Staged`).  What
  declaring leaves is accounted for in full (`Draft.Staged.account`), and errors of one stage are
  errors of all that follow.
* **Declarations of the module.**  In a valid table nothing failed, so each of them has the form
  that its declaration denotes, and a size if it is data (`Table.Furnished`).
* **Imported symbols.**  An imported symbol has what its declaration has, with the symbols renamed.
  Its declaration is in a valid table that was handed out before, so the tables are complete one
  after the other (`Session.complete`).
-/

namespace ManySorted

/-! ## Runs that are not cancelled -/

/-- The two tables differ in their validity at most. -/
structure Table.Reads (t t' : Table) : Prop where
  id_eq : t'.id = t.id
  namespaces_eq : t'.namespaces = t.namespaces
  symbols_eq : t'.symbols = t.symbols
  reports_eq : t'.reports = t.reports

section

variable {names names' : Interner} {tables : List Table} {id : TableId} {library : Library}
  {config : CheckConfig} {m : Module} {out : CheckOutput}

/-- A result that passes a test is there. -/
theorem exists_of_any_toOption {α β ε : Type} {run : α × Except ε β} {test : β → Bool}
    (h : run.2.toOption.any test = true) : ∃ out, run = (run.1, .ok out) ∧ test out = true := by
  obtain ⟨names, result⟩ := run
  cases result with
  | error fault => cases h
  | ok out => exact ⟨out, rfl, h⟩

/-- A check that is not cancelled hands out the table that its passes leave. -/
theorem checkModule_uncancelled (h : checkModule names id library config m = (names', .ok out))
    (uncancelled : out.cancelled = false) :
    ∃ d, Draft.checkPasses library m (Draft.initial names id config m) = .ok () d ∧
      d.names = names' ∧ d.table.Reads out.table := by
  rw [checkModule_eq] at h
  split at h
  · next d hrun =>
      rw [Table.output_eq] at h
      cases h
      exact ⟨d, hrun, rfl, rfl, rfl, rfl, rfl⟩
  · rw [Table.output_eq] at h
    cases h
    cases uncancelled
  · cases congrArg Prod.snd h

/-- The stages that a check of a session goes through. -/
theorem Session.staged (h : Session names tables)
    (held : ∀ entry ∈ library.tables, entry.2 ∈ tables) {d : Draft}
    (hrun : Draft.checkPasses library m (Draft.initial names id config m) = .ok () d) :
    ∃ imported base, Draft.Staged tables library m (Draft.initial names id config m) imported
      base d :=
  (Draft.collected_initial h.archive.1 h.archive.2 (fun t ht _ => h.intact t ht) id config
    m).staged held hrun

/-- What an uncancelled check declares. -/
theorem Session.declared (h : Session names tables)
    (held : ∀ entry ∈ library.tables, entry.2 ∈ tables)
    (checked : checkModule names id library config m = (names', .ok out))
    (uncancelled : out.cancelled = false) :
    ∃ origin, Draft.Declared m origin { names := names', table := out.table } := by
  obtain ⟨d, hrun, rfl, hreads⟩ := checkModule_uncancelled checked uncancelled
  obtain ⟨imported, base, hstaged⟩ := h.staged held hrun
  have hsized : Draft.Sized base { names := d.names, table := out.table } :=
    hstaged.sized.of_eq rfl hreads.id_eq hreads.namespaces_eq hreads.symbols_eq
  exact ⟨imported.table, hstaged.declared.sized hsized.written hsized.intact⟩

/-- Forms say what is declared: in a table that is checked without being cancelled, every position
of a declaration of the module that did not fail accepts just the values that one of its type terms
denotes. -/
theorem checkModule_expresses (h : Session names tables)
    (held : ∀ entry ∈ library.tables, entry.2 ∈ tables)
    (checked : checkModule names id library config m = (names', .ok out))
    (uncancelled : out.cancelled = false) {x : SymbolId} (own : out.table.Owns x)
    (stands : (out.table.symbolAt x).failed = false) :
    ((out.table.kindOf x).isDeclaredType = true →
      ∃ decl form, m.types.find? (·.name = (out.table.symbolAt x).name) = some decl ∧
        (out.table.symbolAt x).canonical = some form ∧
        form.Expresses m out.table decl.body.positions) ∧
    ((out.table.kindOf x).isParameter = true →
      ∃ type form, m.valueParams.find? (·.1 = (out.table.symbolAt x).name) =
          some ((out.table.symbolAt x).name, type) ∧
        (out.table.symbolAt x).canonical = some form ∧ form.Expresses m out.table [type]) := by
  obtain ⟨origin, hdeclared⟩ := h.declared held checked uncancelled
  exact ⟨fun hkind => hdeclared.type own hkind stands,
    fun hkind => hdeclared.param own hkind stands⟩

end

namespace Knot

/-- The names of the module `G` and of the types `U`, `V` and `D`. -/
def names : Interner := internAll ["G", "U", "V", "D"]

/-- Two unions `U` and `V` that are members of each other, and a type `D` of their values. -/
def tangled : Module where
  kind := .domain
  name := ⟨28⟩
  file := ⟨0⟩
  types :=
    [⟨⟨29⟩, {}, .union [.named { segments := [⟨30⟩] }, .enumeration [.range 0 1 {}] {}]⟩,
     ⟨⟨30⟩, {}, .union [.named { segments := [⟨29⟩] }, .enumeration [.literal (.integer 5) {}] {}]⟩,
     ⟨⟨31⟩, {}, .constructor true [{ type := [.named { segments := [⟨29⟩] }] }]⟩]

def result : Interner × Except Fault CheckOutput := checkModule names ⟨0⟩ {} {} tangled

/-- Whether a check is not cancelled and gives a type under the handle of `U`. -/
def declares (out : CheckOutput) : Bool :=
  !out.cancelled && decide (21 < out.table.symbols.size) && !(out.table.symbolAt ⟨21⟩).isSettled &&
    !(out.table.symbolAt ⟨21⟩).failed && (out.table.kindOf ⟨21⟩).isDeclaredType

theorem declares_result : result.2.toOption.any declares = true := by decide +kernel

theorem checkModule_expresses_union : ∃ names' out,
    checkModule names ⟨0⟩ {} {} tangled = (names', .ok out) ∧
      ∃ decl form, tangled.types.find? (·.name = (out.table.symbolAt ⟨21⟩).name) = some decl ∧
        (out.table.symbolAt ⟨21⟩).canonical = some form ∧
        form.Expresses tangled out.table decl.body.positions := by
  obtain ⟨out, checked, hdeclares⟩ := exists_of_any_toOption declares_result
  simp only [declares, Bool.and_eq_true, Bool.not_eq_true', decide_eq_true_eq] at hdeclares
  obtain ⟨⟨⟨⟨huncancelled, hholds⟩, hunsettled⟩, hstands⟩, hkind⟩ := hdeclares
  exact ⟨result.1, out, checked, (checkModule_expresses (session_internAll _)
    (fun _ h => absurd h List.not_mem_nil) checked huncancelled ⟨hholds, hunsettled⟩ hstands).1
    hkind⟩

end Knot

/-! ## Declarations of valid tables -/

/-- Every declaration of the module has its form, and every sort of the module its size. -/
structure Table.Furnished (t : Table) : Prop where
  form : ∀ {x n}, t.Owns x → (t.symbolAt x).formSize? = some n → (t.symbolAt x).canonical ≠ none
  size : ∀ {s}, t.Owns s → t.IsSort s → (t.symbolAt s).size? ≠ none

namespace Draft

variable {tables : List Table} {library : Library} {m : Module} {origin : Table}
  {start imported base d : Draft}

/-- If nothing is reported, all data of the module is productive. -/
theorem Staged.productive (h : Staged tables library m start imported base d)
    (hclean : d.table.hasErrors = false) {x : SymbolId} (hx : x ∈ base.table.ownData) :
    x ∈ base.table.productiveData := by
  obtain ⟨productive, d₁, hproductivity, hrest⟩ := bind_eq_ok.1 h.judges
  obtain ⟨_, _, htable⟩ := (safe_checkProductivity h.declared.intact).ok ⟨rfl, rfl⟩ hproductivity
  have hproceeds := (proceeds_sizeData productive).bind fun _ =>
    proceeds_forM (l := m.contracts) fun contract _ => proceeds_checkContract m contract
  have hclean₁ := (hproceeds.ok hrest).table.hasErrors_eq_false hclean
  rw [htable] at hclean₁
  have hnone := Table.problems_eq_nil (fun r hr => ?_) hclean₁
  · have hnot := List.filter_eq_nil_iff.1 (List.map_eq_nil_iff.1 hnone) x hx
    simpa using hnot
  · obtain ⟨_, _, rfl⟩ := List.mem_map.1 hr
    rfl

/-- What is declared has its form unless it failed. -/
theorem Declared.canonical_ne_none (h : Declared m origin d) {x : SymbolId} {n : Nat}
    (howns : d.table.Owns x) (hstands : d.Stands x)
    (hsize : (d.table.symbolAt x).formSize? = some n) : (d.table.symbolAt x).canonical ≠ none := by
  have htype : (d.table.kindOf x).isDeclaredType = true →
      (d.table.symbolAt x).canonical ≠ none := by
    intro hkind hnone
    obtain ⟨_, form, _, hform, _⟩ := h.type howns hkind hstands
    cases hform.symm.trans hnone
  unfold Symbol.formSize? at hsize
  split at hsize
  · rename_i hkind
    exact htype (by rw [Table.kindOf, hkind]; rfl)
  · rename_i convenience hkind
    cases convenience with
    | none => exact htype (by rw [Table.kindOf, hkind]; rfl)
    | some convenience => exact h.convenience howns (by rw [Table.kindOf, hkind]; rfl)
  · rename_i hkind
    intro hnone
    obtain ⟨_, form, _, hform, _⟩ := h.param howns (by rw [Table.kindOf, hkind]; rfl) hstands
    cases hform.symm.trans hnone
  · rename_i hvalue hkind
    exact h.constant hkind hvalue hstands
  · cases hsize

/-- A check without errors gives all declarations their forms and sizes. -/
theorem Staged.furnished (h : Staged tables library m start imported base d)
    (hclean : d.table.hasErrors = false)
    (hunfailed : ∀ {x}, d.table.Holds x → (d.table.symbolAt x).failed = false) :
    d.table.Furnished := by
  have hdeclared := h.declared.sized h.sized.written h.sized.intact
  refine ⟨fun howns hsize => hdeclared.canonical_ne_none howns (hunfailed howns.holds) hsize,
    fun {s} howns hsort => ?_⟩
  obtain ⟨x, hx⟩ := hsort
  obtain ⟨shape, info, hkind, rfl⟩ := h.sized.intact.formed.families.sort hx
  have hown : x ∈ base.table.ownData := by
    rw [← h.sized.written.ownData]
    have hownsData := (hdeclared.owns_sort hkind).1 howns
    exact h.sized.intact.formed.arena.mem_ownData.2
      ⟨hownsData, by rw [hkind]; rfl, hunfailed hownsData.holds⟩
  refine h.sized.sized x (h.productive hclean hown) ?_
  rw [Table.sortOf?, h.sized.written.kindOf_data.1 hkind]
  rfl

end Draft

section

variable {names names' : Interner} {tables : List Table} {id : TableId} {library : Library}
  {config : CheckConfig} {m : Module} {out : CheckOutput}

/-- In a valid table nothing failed, and all declarations have their forms and sizes. -/
theorem checkModule_furnished (h : Session names tables)
    (held : ∀ entry ∈ library.tables, entry.2 ∈ tables)
    (checked : checkModule names id library config m = (names', .ok out))
    (hvalid : out.table.isValid = true) :
    out.table.Furnished ∧ ∀ x, out.table.Holds x → (out.table.symbolAt x).failed = false := by
  obtain ⟨d, hrun, rfl, hclean, htable⟩ := checkModule_valid checked hvalid
  obtain ⟨_, _, _, _, hsound, _⟩ := Draft.sound_checkPasses held
    (Draft.assembled_initial h.archive.1 h.archive.2) hrun hclean
  obtain ⟨imported, base, hstaged⟩ := h.staged held hrun
  have hfurnished := hstaged.furnished hclean fun _ => hsound.unfailed _
  rw [htable]
  exact ⟨⟨fun howns => hfurnished.form ⟨howns.holds, howns.unsettled⟩,
    fun howns hsort => hfurnished.size ⟨howns.holds, howns.unsettled⟩ hsort⟩,
    fun x _ => hsound.unfailed x⟩

theorem Session.furnished (h : Session names tables) : ∀ t ∈ tables, t.isValid = true →
    t.Furnished ∧ ∀ x, t.Holds x → (t.symbolAt x).failed = false := by
  induction h with
  | start => exact fun _ ht => absurd ht List.not_mem_nil
  | intern _ _ ih => exact ih
  | failed _ _ ih => exact ih
  | check h fresh held checked ih =>
      intro t ht hvalid
      rcases List.mem_append.1 ht with ht | ht
      · exact ih t ht hvalid
      · obtain rfl := List.mem_singleton.1 ht
        exact checkModule_furnished h held checked hvalid

end

/-! ## Valid tables are complete -/

/-- Nothing failed, every symbol has what it is to have, and what it speaks of is there. -/
structure Table.Complete (names : Interner) (t : Table) : Prop where
  unfailed : ∀ {x}, t.Holds x → (t.symbolAt x).failed = false
  /-- Data has its companions, shares its form with its sort, and is sized. -/
  data : ∀ {d shape info}, t.kindOf d = .data shape info →
    t.Family names d info ∧ ∃ form size, (t.symbolAt d).canonical = some form ∧
      form.size = (t.symbolAt d).arity ∧ (t.symbolAt info.sort).canonical = some form ∧
      (t.symbolAt info.sort).size? = some size
  union : ∀ {u convenience}, t.kindOf u = .union convenience →
    ∃ form, (t.symbolAt u).canonical = some form ∧ form.size = 1
  parameter : ∀ {c}, t.kindOf c = .userConstant .parameter →
    ∃ form, (t.symbolAt c).canonical = some form ∧ form.size = 1
  constant : ∀ {c constant}, t.kindOf c = .userConstant constant → constant ≠ .parameter →
    (t.symbolAt c).canonical = some {}
  /-- Forms speak of sorts of data and of constants. -/
  form : ∀ {x form}, (t.symbolAt x).canonical = some form → ∀ v ∈ form.positions,
    (∀ s ∈ v.sorts, ∃ d shape info, t.kindOf d = .data shape info ∧ info.sort = s) ∧
      ∀ c, .symbol c ∈ v.constants → (t.kindOf c).isConstant = true
  /-- Sizes speak of sorts of data. -/
  size : ∀ {x e}, (t.symbolAt x).size? = some e → ∀ s ∈ e.cards,
    ∃ d shape info, t.kindOf d = .data shape info ∧ info.sort = s

namespace Table

variable {names : Interner} {tables : List Table} {t source : Table} {ρ : SymbolId → SymbolId}
  {x : SymbolId} {o : Origin}

/-- A symbol that is imported is copied from a declaration. -/
theorem Source.owns (h : Source tables o source)
    (houtline : (t.kindOf x).outline = (source.kindOf o.symbol).outline)
    (hbase : (t.kindOf x).isBase = false) : source.Owns o.symbol := by
  refine owns_of_origin h.holds h.own ?_
  rw [← SymbolKind.isBase_outline, ← houtline, SymbolKind.isBase_outline, hbase]

/-- The declarations of all valid tables being furnished, so is every symbol of a valid table. -/
theorem Trusted.canonical_ne_none (h : t.Trusted names tables)
    (hall : ∀ t ∈ tables, t.isValid = true → t.Furnished) (hown : t.Furnished) (hx : t.Holds x)
    {n : Nat} (hsize : (t.symbolAt x).formSize? = some n) : (t.symbolAt x).canonical ≠ none := by
  have hbase : (t.kindOf x).isBase = false := by
    unfold Symbol.formSize? at hsize
    unfold Table.kindOf
    cases hkind : (t.symbolAt x).kind <;> simp_all [SymbolKind.isBase]
  cases horigin : (t.symbolAt x).origin with
  | none => exact hown.form (owns_of_origin hx horigin hbase) hsize
  | some o =>
      cases hmerges : (t.kindOf x).mergesIntoRoot with
      | true =>
          rw [h.merging hmerges]
          exact Option.some_ne_none _
      | false =>
          obtain ⟨source, ρ, hsource, _, hcopy, _⟩ := h.provenance.embedded hx horigin hmerges
          have howns := Source.owns hsource hcopy.outline hbase
          rw [formSize?_outline _ _ hcopy.outline hcopy.arity] at hsize
          have hform := (hall source hsource.mem hsource.valid).form howns hsize
          rw [hcopy.form]
          exact fun hnone => hform (Option.map_eq_none_iff.1 hnone)

theorem Trusted.size_ne_none (h : t.Trusted names tables)
    (hall : ∀ t ∈ tables, t.isValid = true → t.Furnished) (hown : t.Furnished)
    (hx : t.IsSort x) : (t.symbolAt x).size? ≠ none := by
  have hkind : ∃ d size, t.kindOf x = .userSort d size := by
    obtain ⟨d, hd⟩ := hx
    obtain ⟨size, hkind⟩ := SymbolKind.unsized_eq_userSort.1 hd
    exact ⟨d, size, hkind⟩
  obtain ⟨d, size, hkind⟩ := hkind
  have hbase : (t.kindOf x).isBase = false := by rw [hkind]; rfl
  cases horigin : (t.symbolAt x).origin with
  | none => exact hown.size (owns_of_origin hx.holds horigin hbase) hx
  | some o =>
      have hmerges : (t.kindOf x).mergesIntoRoot = false := by rw [hkind]; rfl
      obtain ⟨source, ρ, hsource, _, hcopy, _⟩ := h.provenance.embedded hx.holds horigin hmerges
      have howns := Source.owns hsource hcopy.outline hbase
      have hsize := (hall source hsource.mem hsource.valid).size howns
        (isSort_of_outline hcopy.outline.symm hx)
      rw [hcopy.size]
      exact fun hnone => hsize (Option.map_eq_none_iff.1 hnone)

end Table

/-- The declarations of all valid tables being furnished, a valid table is complete. -/
theorem Table.Trusted.isComplete {names : Interner} {tables : List Table} {t : Table}
    (htrusted : t.Trusted names tables) (hintact : t.Intact names)
    (hfurnished : ∀ t ∈ tables, t.isValid = true →
      t.Furnished ∧ ∀ x, t.Holds x → (t.symbolAt x).failed = false) (ht : t ∈ tables)
    (hvalid : t.isValid = true) : t.Complete names := by
  have hall : ∀ t ∈ tables, t.isValid = true → t.Furnished :=
    fun t ht hvalid => (hfurnished t ht hvalid).1
  obtain ⟨hown, hunfailed⟩ := hfurnished t ht hvalid
  have hform : ∀ {x n}, t.Holds x → ¬ t.IsSort x → (t.symbolAt x).formSize? = some n →
      ∃ form, (t.symbolAt x).canonical = some form ∧ form.size = n := by
    intro x n hx hsort hsize
    obtain ⟨form, hform⟩ :=
      Option.ne_none_iff_exists'.1 (htrusted.canonical_ne_none hall hown hx hsize)
    exact ⟨form, hform, Option.some.inj ((hintact.form hx hsort hform).symm.trans hsize)⟩
  have hsort : ∀ {s}, t.IsSort s → ∃ d shape info, t.kindOf d = .data shape info ∧
      info.sort = s := by
    rintro s ⟨d, hd⟩
    obtain ⟨shape, info, hkind, hs⟩ := hintact.formed.families.sort hd
    exact ⟨d, shape, info, hkind, hs⟩
  refine ⟨fun hx => hunfailed _ hx, fun {d shape info} hd => ?_, fun {u convenience} hu => ?_,
    fun {c} hc => ?_, fun hc hvalue => htrusted.constants hc hvalue, fun {x form} hx v hv => ?_,
    fun {x e} hx s hs => ?_⟩
  · have hfamily := hintact.formed.families.data hd
    obtain ⟨form, hd', hsize⟩ := hform (Table.holds_of_data hd) (Table.not_isSort_of_data hd)
      (Table.formSize?_of_data hd)
    obtain ⟨size, hsize'⟩ := Option.ne_none_iff_exists'.1
      (htrusted.size_ne_none hall hown ⟨d, hfamily.sort_kind⟩)
    exact ⟨hfamily, form, size, hd', hsize, (hintact.data hd).form_eq.trans hd', hsize'⟩
  · refine hform (Table.holds_of_kindOf (by rw [hu]; simp)) ?_ (Table.formSize?_of_union hu)
    rintro ⟨d, hd⟩
    rw [hu] at hd
    cases hd
  · refine hform (Table.holds_of_constant hc) ?_ (Table.formSize?_of_parameter hc)
    rintro ⟨d, hd⟩
    rw [hc] at hd
    cases hd
  · have hclosed := (hintact.closed (Table.holds_of_canonical hx)).form hx v hv
    exact ⟨fun s hs => hsort (hclosed.sorts hs), fun c hc => hclosed.constants hc⟩
  · exact hsort (((hintact.closed (Table.holds_of_size? hx)).size hx).cards hs)

/-- Valid tables of a session are closed and complete. -/
theorem Session.complete {names : Interner} {tables : List Table} {t : Table}
    (h : Session names tables) (ht : t ∈ tables) (hvalid : t.isValid = true) :
    t.Complete names :=
  (h.archive.2.trusted ht hvalid).isComplete (h.intact t ht) h.furnished ht hvalid

namespace Diamond

theorem isValid_session : session.2[1]?.any Table.isValid = true := by decide +kernel

/-- The table of `H`, which includes `G`, is complete. -/
theorem complete_session : ∃ t ∈ session.2, t.isValid = true ∧ t.Complete session.1 := by
  obtain ⟨t, ht, hvalid⟩ := (Option.any_eq_true _ _).1 isValid_session
  have hmem := List.mem_of_getElem? ht
  exact ⟨t, hmem, hvalid, (session_checkAll _ modules).complete hmem hvalid⟩

end Diamond

/-- An error among the reports is an error of the table. -/
theorem Table.hasErrors_of_mem {t : Table} {r : Report} (hr : r ∈ t.reports)
    (hgrave : r.isWarning = false) : t.hasErrors = true :=
  List.any_eq_true.2 ⟨r, hr, by rw [hgrave]; rfl⟩

namespace Draft

variable {tables : List Table} {library : Library} {m : Module} {start imported base d : Draft}

theorem proceeds_judge (m : Module) : Proceeds (judge m) :=
  proceeds_checkProductivity.bind fun productive => (proceeds_sizeData productive).bind fun _ =>
    proceeds_forM fun contract _ => proceeds_checkContract m contract

/-- No errors are left behind by a stage of a check without errors. -/
theorem Staged.clean (h : Staged tables library m start imported base d)
    (hclean : d.table.hasErrors = false) :
    imported.table.hasErrors = false ∧ base.table.hasErrors = false := by
  have hbase := ((proceeds_judge m).ok h.judges).table.hasErrors_eq_false hclean
  exact ⟨((proceeds_declare m).ok h.declares).table.hasErrors_eq_false hbase, hbase⟩

/-- What the stage of declaring leaves. -/
theorem Staged.account (h : Staged tables library m start imported base d) :
    ∃ declarations registered, registerDeclarations m imported = .ok declarations registered ∧
      Account m imported.table declarations registered base := by
  have hformed : ImportsFormed imported.table := by
    intro x constant hkind hvalue hnone
    cases (h.collected.constants hkind hvalue).symm.trans hnone
  exact account_of_declare hformed (enrolled_start h.collected.intact h.collected.settled)
    h.collected.settled h.collected.unfailed h.declares

theorem Staged.owns_root (h : Staged tables library m start imported base d) {x : SymbolId}
    (hx : d.table.Owns x) : (d.table.symbolAt x).home = .root := by
  have hdeclared := h.declared.sized h.sized.written h.sized.intact
  refine (hdeclared.extended.new hx.holds fun hold => ?_).2.1
  have hunsettled := hx.unsettled
  rw [(hdeclared.extended.later.symbol hold).settled (h.collected.settled hold),
    h.collected.settled hold] at hunsettled
  cases hunsettled

/-- Different data of the module goes by different names. -/
theorem Staged.qualifiedName_inj (h : Staged tables library m start imported base d)
    {x y : SymbolId} (hx : x ∈ d.table.ownData) (hy : y ∈ d.table.ownData)
    (hname : d.table.qualifiedName d.names x = d.table.qualifiedName d.names y) : x = y := by
  have hformed := h.sized.intact.formed
  have hqualified : ∀ {z}, z ∈ d.table.ownData → d.table.Owns z ∧
      (d.table.symbolAt z).name.isEmpty = false ∧
      d.table.qualifiedName d.names z = d.names.text (d.table.symbolAt z).name := by
    intro z hz
    obtain ⟨howns, hdata, -⟩ := hformed.arena.mem_ownData.1 hz
    have hnamed : (d.table.symbolAt z).name.isEmpty = false := by
      refine Bool.eq_false_iff.2 fun hempty => ?_
      obtain ⟨_, hsort⟩ := (hformed.families.named howns.holds).1 hempty
      obtain ⟨_, hkind⟩ := SymbolKind.unsized_eq_userSort.1 hsort
      rw [hkind] at hdata
      cases hdata
    refine ⟨howns, hnamed, ?_⟩
    rw [Table.qualifiedName, h.owns_root howns, hformed.tree.path_root, Table.bearer,
      hformed.families.dataOf?_of_named howns.holds hnamed]
    rfl
  obtain ⟨hxowns, hxnamed, hxname⟩ := hqualified hx
  obtain ⟨hyowns, -, hyname⟩ := hqualified hy
  rw [hxname, hyname] at hname
  refine hformed.arena.eq_of_home_of_name hxowns.holds hyowns.holds hxnamed ?_
    (hformed.proper.text_inj (hformed.families.knows hxowns.holds)
      (hformed.families.knows hyowns.holds) hname)
  rw [h.owns_root hxowns, h.owns_root hyowns]

end Draft

end ManySorted
