import ManySorted.Proofs.Import.Provenance
import ManySorted.Proofs.Session.Findings
import ManySorted.Proofs.Term

/-!
# Inhabited sorts

Data that is reported as accepting no finite terms has none.  The converse takes for granted that
data which is imported has terms.  So it has in the table that it comes from, and it keeps them
unless a name is taken that is to be imported: what clashes is dropped from the forms of all that is
imported with it (`checkModule_inhabited`).  Every sort of a valid table has a term.

## Strategy

* **Terms are embedded.**  A term of a foreign table, with every symbol replaced by its copy, is a
  term of the table that the foreign one is embedded in (`Table.Embedding.admits`).  So data that is
  imported has terms if the original has.
* **One table.**  What a check finds productive has terms if imported data has, by the least fixed
  point that it computes (`Table.Intact.mem_productiveData_iff`).
* **All tables.**  The tables of a session come one after the other, so all valid ones have terms of
  all their sorts (`Session.populated`).
-/

namespace ManySorted

namespace Term

mutual

/-- Replaces every symbol. -/
def rename (f : SymbolId → SymbolId) : Term → Term
  | integer value => integer value
  | fraction value => fraction value
  | string value => string value
  | constant symbol => constant (f symbol)
  | data symbol arguments => data (f symbol) (renameAll f arguments)

/-- Replaces every symbol of all the terms of a list. -/
def renameAll (f : SymbolId → SymbolId) : List Term → List Term
  | [] => []
  | x :: rest => rename f x :: renameAll f rest

end

end Term

namespace Table

variable {names : Interner} {foreign t : Table} {base : NamespaceId} {ρ : SymbolId → SymbolId}
  {s : SymbolId}

/-- Arguments that stay accepted one by one stay accepted together. -/
theorem admitsAll_rename {arguments : List Term} {positions : List AcceptedValues}
    (hadmits : ∀ x ∈ arguments, ∀ v ∈ positions, foreign.Admits v x →
      t.Admits (v.rename ρ) (x.rename ρ)) (h : foreign.AdmitsAll positions arguments) :
    t.AdmitsAll (positions.map (·.rename ρ)) (Term.renameAll ρ arguments) := by
  induction arguments generalizing positions with
  | nil =>
      rw [AdmitsAll] at h
      rw [h]
      rfl
  | cons x rest ih =>
      rw [AdmitsAll] at h
      obtain ⟨v, others, rfl, hx, hrest⟩ := h
      rw [Term.renameAll, AdmitsAll]
      exact ⟨v.rename ρ, others.map (·.rename ρ), rfl,
        hadmits x List.mem_cons_self v List.mem_cons_self hx,
        ih (fun y hy w hw => hadmits y (List.mem_cons_of_mem _ hy) w (List.mem_cons_of_mem _ hw))
          hrest⟩

/-- What stands for a truth value is that truth value. -/
theorem Embedding.baseConstant (h : foreign.Embedding t base ρ) {c : SymbolId}
    {value : BaseConstant}
    (hc : foreign.kindOf c = .baseConstant value) : t.kindOf (ρ c) = .baseConstant value := by
  have hconstant : foreign.IsConstant c := by
    rw [IsConstant, hc]
    rfl
  have houtline := (h.copies hconstant.carries).outline
  rw [hc] at houtline
  cases hkind : t.kindOf (ρ c) with
  | userConstant constant =>
      rw [hkind] at houtline
      cases constant <;> cases houtline
  | _ =>
      rw [hkind] at houtline
      cases houtline
      try rfl

/-- What is accepted stays accepted when everything is replaced by its copy. -/
theorem Embedding.admits (h : foreign.Embedding t base ρ) (hforeign : foreign.Regular names)
    (ht : t.Regular names) (hclosed : ∀ {x}, foreign.Holds x → (foreign.symbolAt x).Closed foreign)
    (x : Term) : ∀ v : AcceptedValues, v.Closed foreign → foreign.Admits v x →
      t.Admits (v.rename ρ) (x.rename ρ) := by
  induction x with
  | integer n => exact fun v _ hx => hx
  | fraction q => exact fun v _ hx => hx
  | string name =>
      rintro v _ (hx | hx)
      · exact .inl (AcceptedValues.string_mem_constants_mapIds.2 hx)
      · exact .inr hx
  | constant c =>
      rintro v hv (hx | ⟨hbase, value, hx⟩)
      · exact .inl (AcceptedValues.symbol_mem_constants_mapIds.2 ⟨c, hx, rfl⟩)
      · exact .inr ⟨hbase, value, h.baseConstant hx⟩
  | data d arguments ih =>
      rintro v hv ⟨s, hs, hd, form, hform, harguments⟩
      have hsort := hv.sorts hs
      refine ⟨ρ s, AcceptedValues.mem_sorts_mapIds.2 ⟨s, hs, rfl⟩, h.dataOf? hforeign ht hd,
        form.rename ρ, ?_, ?_⟩
      · rw [(h.copies hsort.carries).form, hform]
        rfl
      · exact admitsAll_rename (fun x hx w hw => ih x hx w ((hclosed hsort.holds).form hform w hw))
          harguments

/-- The copy of a sort with terms has terms. -/
theorem Embedding.hasSort (h : foreign.Embedding t base ρ) (hforeign : foreign.Regular names)
    (ht : t.Regular names) (hclosed : ∀ {x}, foreign.Holds x → (foreign.symbolAt x).Closed foreign)
    (hs : foreign.IsSort s) {x : Term} (hx : foreign.HasSort s x) :
      t.HasSort (ρ s) (x.rename ρ) := by
  obtain ⟨d, arguments, rfl⟩ := hx.exists_data
  obtain ⟨hd, form, hform, harguments⟩ := hx
  refine ⟨h.dataOf? hforeign ht hd, form.rename ρ, ?_, ?_⟩
  · rw [(h.copies hs.carries).form, hform]
    rfl
  · exact admitsAll_rename (fun x _ w hw hx => h.admits hforeign ht hclosed x w
      ((hclosed hs.holds).form hform w hw) hx) harguments

end Table

/-! ## Who speaks of finite terms -/

/-- Whether a report is about data without finite terms. -/
def Report.IsBarren (r : Report) : Prop :=
  ∃ name, r.problem = .badTypeDecl name "does not accept any finite terms"

theorem emptyRange_ne (low high : Int) :
    s!"has the empty range {low}..{high}" ≠ "does not accept any finite terms" := by
  intro h
  have hstart : toString "has the empty range " = "has the empty range " := rfl
  have hhead := congrArg (fun s : String => s.toList.head?) h
  simp [String.toList_append, hstart] at hhead

theorem Problem.Aside.not_isBarren {r : Report} (h : r.problem.Aside) : ¬ r.IsBarren := by
  rintro ⟨name, hproblem⟩
  rw [hproblem] at h
  generalize hreason : "does not accept any finite terms" = reason at h
  cases h
  exact emptyRange_ne _ _ hreason.symm

theorem Report.not_isBarren_of_isOfSizes {r : Report} (h : r.problem.isOfSizes = true) :
    ¬ r.IsBarren := by
  rintro ⟨name, hproblem⟩
  rw [hproblem] at h
  cases h

namespace Draft

variable {tables : List Table} {library : Library} {m : Module} {start imported base d : Draft}

/-- Of the data of the module, just that is reported which is not productive. -/
theorem Staged.unproductive_iff (h : Staged tables library m start imported base d)
    (hstart : start.Early) {x : SymbolId} (hx : x ∈ d.table.ownData) :
    d.table.unproductiveReport d.names x ∈ d.table.reports ↔ x ∉ d.table.productiveData := by
  have hjudged := judged_of_judge h.declared h.unsized h.judges
  have hown := hjudged.written.ownData
  have hproductive := hjudged.written.productiveData
  have hreport : base.table.unproductiveReport base.names =
      d.table.unproductiveReport d.names := by
    funext y
    rw [Table.unproductiveReport, Table.unproductiveReport, hjudged.written.toAlike.location,
      hjudged.written.toAlike.qualifiedName, hjudged.names_eq]
  have hmem : ∀ r, r ∈ base.unproductiveReports ↔ ∃ y, (y ∈ d.table.ownData ∧
      y ∉ d.table.productiveData) ∧ d.table.unproductiveReport d.names y = r := by
    intro r
    rw [unproductiveReports, List.mem_map, hreport, hown, hproductive]
    simp only [List.mem_filter, Bool.not_eq_true', List.contains_eq_mem, decide_eq_false_iff_not]
  rw [hjudged.reports_eq]
  constructor
  · intro hr
    have hbarren : (d.table.unproductiveReport d.names x).IsBarren := ⟨_, rfl⟩
    rcases List.mem_append.1 hr with hr | hr
    · rcases List.mem_append.1 hr with hr | hr
      · rcases List.mem_append.1 hr with hr | hr
        · exact absurd hbarren (h.aside hstart _ hr).not_isBarren
        · obtain ⟨y, ⟨hy, hunproductive⟩, heq⟩ := (hmem _).1 hr
          obtain rfl := h.qualifiedName_inj hy hx
            (Problem.badTypeDecl.inj (congrArg Report.problem heq)).1
          exact hunproductive
      · exact absurd hbarren
          (Report.not_isBarren_of_isOfSizes (Table.isOfSizes_of_mem_sizingReports _ _ hr))
    · obtain ⟨contract, _, hr⟩ := List.mem_flatMap.1 hr
      exact absurd hbarren (Table.aside_checkContract contract _ hr).not_isBarren
  · intro hunproductive
    exact List.mem_append_left _ (List.mem_append_left _ (List.mem_append_right _
      ((hmem _).2 ⟨x, ⟨hx, hunproductive⟩, rfl⟩)))

end Draft

/-! ## What is taken for granted -/

namespace Table

variable {t : Table}

/-- Whether every sort has a finite term. -/
def Populated (t : Table) : Prop := ∀ s, t.IsSort s → t.HasTerms s

end Table

namespace Draft

variable {tables : List Table} {m : Module} {origin t : Table} {imported d : Draft}
    {names : Interner}

/-- What is declared has a form if it did not fail, and only then. -/
theorem Declared.dataFormed (h : Declared m origin d) : d.table.DataFormed := by
  intro x howns hdata
  constructor
  · intro hnone
    by_contra hstands
    obtain ⟨n, hsize⟩ : ∃ n, (d.table.symbolAt x).formSize? = some n := by
      cases hkind : d.table.kindOf x with
      | data shape info =>
          exact ⟨_, by rw [Symbol.formSize?, show (d.table.symbolAt x).kind = _ from hkind]⟩
      | _ =>
          rw [hkind] at hdata
          cases hdata
    exact h.canonical_ne_none howns (Bool.eq_false_iff.2 hstands) hsize hnone
  · exact fun hfailed => h.fallen howns hdata fun hstands => by
      rw [Stands, hfailed] at hstands
      cases hstands

/-- What is imported without running into a name that is taken has terms, for the originals have. -/
theorem Collected.importsTerms (h : imported.Collected tables)
    (hclean : imported.table.hasDuplicates = false)
    (hpopulated : ∀ source ∈ tables, source.isValid = true → source.Populated)
    (hext : imported.table.Extends t) (hgrown : imported.names.Grown names)
    (ht : t.Regular names) : t.ImportsTerms := by
  have hassembled := h.assembled hclean
  intro s d hdata himported
  obtain ⟨shape, info, hkind, rfl⟩ := ht.families.sort (Table.dataOf?_eq_some_iff.1 hdata)
  have hold : imported.table.Holds d := by
    by_contra hnew
    rw [Symbol.isImported, (hext.new (Table.holds_of_data hkind) hnew).1] at himported
    cases himported
  have hsame := (hext.later.symbol hold).settled (h.settled hold)
  obtain ⟨o, horigin⟩ := Option.isSome_iff_exists.1 himported
  have hmerges : (imported.table.kindOf d).mergesIntoRoot = false := by
    rw [Table.kindOf, ← hsame, show (t.symbolAt d).kind = _ from hkind]
    rfl
  obtain ⟨source, ρ, hsource, hembed, hcopy, hfound⟩ :=
    hassembled.provenance.embedded hold (hsame ▸ horigin) hmerges
  have hembed := hembed.later hext.later
  have hintact := (h.valid_intact source hsource.mem hsource.valid).grown hgrown ht.proper
  have houtline := hcopy.outline
  rw [Table.kindOf, ← hsame, show (t.symbolAt d).kind = _ from hkind] at houtline
  obtain ⟨info', hkind', -⟩ := SymbolKind.data_of_outline houtline.symm
  obtain ⟨info'', hcopied, -, -, hsort, -⟩ := hembed.data hintact.formed.toRegular ht hkind'
  have hd : ρ o.symbol = d := Option.some.inj
    ((hembed.relocates (Table.carries_of_data hkind')).symm.trans (hext.later.relocate? hfound))
  rw [hd, hkind] at hcopied
  cases hcopied
  have hfamily := hintact.formed.families.data hkind'
  obtain ⟨x, hx⟩ := hpopulated source hsource.mem hsource.valid info'.sort ⟨_, hfamily.sort_kind⟩
  rw [hsort]
  exact ⟨_, hembed.hasSort hintact.formed.toRegular ht hintact.closed ⟨_, hfamily.sort_kind⟩ hx⟩

end Draft

/-! ## Productive is inhabited -/

section

variable {names names' : Interner} {tables : List Table} {id : TableId} {library : Library}
  {config : CheckConfig} {m : Module} {out : CheckOutput}

/-- Whether the imports of a module run into no name that is taken. -/
def ImportsApart (names : Interner) (id : TableId) (library : Library) (config : CheckConfig)
    (m : Module) : Prop :=
  ∀ imported, m.references.forM (Draft.importReference library m)
    (Draft.initial names id config m) = .ok () imported → imported.table.hasDuplicates = false

/-- What the passes of a module say about its own data, if all valid tables before have terms. -/
theorem Session.productive (h : Session names tables)
    (hpopulated : ∀ source ∈ tables, source.isValid = true → source.Populated)
    (held : ∀ entry ∈ library.tables, entry.2 ∈ tables) {d : Draft}
    (hrun : Draft.checkPasses library m (Draft.initial names id config m) = .ok () d) {t : Table}
    (hreads : d.table.Reads t) :
    t.Intact d.names ∧ t.DataFormed ∧ (ImportsApart names id library config m → t.ImportsTerms) ∧
      (∀ x ∈ t.ownData, t.unproductiveReport d.names x ∈ t.reports ↔ x ∉ t.productiveData) := by
  obtain ⟨imported, base, hstaged⟩ := h.staged held hrun
  have hsized : Draft.Sized base { names := d.names, table := t } :=
    hstaged.sized.of_eq rfl hreads.id_eq hreads.namespaces_eq hreads.symbols_eq
  have hdeclared := hstaged.declared.sized hsized.written hsized.intact
  refine ⟨hsized.intact, hdeclared.dataFormed, fun hapart => ?_, fun x hx => ?_⟩
  · have hgrown := ((Draft.proceeds_declare m).ok hstaged.declares).grown.trans
      ((Draft.proceeds_judge m).ok hstaged.judges).grown
    exact hstaged.collected.importsTerms (hapart imported hstaged.imports) hpopulated
      hdeclared.extended hgrown hsized.intact.formed.toRegular
  · have hreport : t.unproductiveReport d.names x = d.table.unproductiveReport d.names x := by
      rw [Table.unproductiveReport, Table.unproductiveReport, hsized.written.toAlike.location,
        hsized.written.toAlike.qualifiedName, hstaged.sized.written.toAlike.location,
        hstaged.sized.written.toAlike.qualifiedName]
    have hproductive : t.productiveData = d.table.productiveData :=
      hsized.written.productiveData.trans hstaged.sized.written.productiveData.symm
    have hown : t.ownData = d.table.ownData :=
      hsized.written.ownData.trans hstaged.sized.written.ownData.symm
    rw [hreport, hreads.reports_eq, hproductive]
    exact hstaged.unproductive_iff (Draft.early_initial names id config m) (hown ▸ hx)

/-- The imports of a module without errors run into no name that is taken. -/
theorem Session.importsApart (h : Session names tables)
    (held : ∀ entry ∈ library.tables, entry.2 ∈ tables) {d : Draft}
    (hrun : Draft.checkPasses library m (Draft.initial names id config m) = .ok () d)
    (hclean : d.table.hasErrors = false) : ImportsApart names id library config m := by
  obtain ⟨imported, base, hstaged⟩ := h.staged held hrun
  intro imported' himports
  cases hstaged.imports.symm.trans himports
  exact Table.hasDuplicates_eq_false (hstaged.clean hclean).1

/-- The data of a valid module is all productive, if all valid tables before have terms. -/
theorem checkModule_productive (h : Session names tables)
    (hpopulated : ∀ source ∈ tables, source.isValid = true → source.Populated)
    (held : ∀ entry ∈ library.tables, entry.2 ∈ tables)
    (checked : checkModule names id library config m = (names', .ok out))
    (hvalid : out.table.isValid = true) :
    out.table.Intact names' ∧ out.table.DataFormed ∧ out.table.ImportsTerms ∧
      ∀ x, out.table.Owns x → (out.table.kindOf x).isData = true →
        x ∈ out.table.productiveData := by
  obtain ⟨d, hrun, rfl, hclean, htable⟩ := checkModule_valid checked hvalid
  have hreads : d.table.Reads out.table := by
    rw [htable]
    exact ⟨rfl, rfl, rfl, rfl⟩
  obtain ⟨hintact, hformed, himports, hreported⟩ := h.productive hpopulated held hrun hreads
  refine ⟨hintact, hformed, himports (h.importsApart held hrun hclean), fun x howns hdata => ?_⟩
  have hown : x ∈ out.table.ownData := hintact.formed.arena.mem_ownData.2
    ⟨howns, hdata, (checkModule_furnished h held checked hvalid).2 x howns.holds⟩
  by_contra hunproductive
  have hmem := (hreported x hown).2 hunproductive
  rw [hreads.reports_eq] at hmem
  exact Bool.false_ne_true (hclean.symm.trans (Table.hasErrors_of_mem hmem rfl))

/-- A valid table has terms of all its sorts, if all valid tables before have. -/
theorem checkModule_populated (h : Session names tables)
    (hpopulated : ∀ source ∈ tables, source.isValid = true → source.Populated)
    (held : ∀ entry ∈ library.tables, entry.2 ∈ tables)
    (checked : checkModule names id library config m = (names', .ok out))
    (hvalid : out.table.isValid = true) : out.table.Populated := by
  obtain ⟨hintact, hformed, himports, hproductive⟩ :=
    checkModule_productive h hpopulated held checked hvalid
  intro s hsort
  obtain ⟨x, hx⟩ := hsort
  obtain ⟨shape, info, hkind, rfl⟩ := hintact.formed.families.sort hx
  have hdata := hintact.formed.families.dataOf?_sort hkind
  cases himported : (out.table.symbolAt x).isImported with
  | true => exact himports _ _ hdata himported
  | false =>
      have howns : out.table.Owns x := by
        refine ⟨Table.holds_of_data hkind, ?_⟩
        rw [Symbol.isSettled, himported, show (out.table.symbolAt x).kind = _ from hkind]
        rfl
      exact (hintact.mem_productiveData_iff hformed himports howns hdata).1
        (hproductive x howns (by rw [hkind]; rfl))

/-- Every sort of a valid table of a session has a term. -/
theorem Session.populated (h : Session names tables) :
    ∀ t ∈ tables, t.isValid = true → t.Populated := by
  induction h with
  | start => exact fun _ ht => absurd ht List.not_mem_nil
  | intern _ _ ih => exact ih
  | failed _ _ ih => exact ih
  | check h fresh held checked ih =>
      intro t ht hvalid
      rcases List.mem_append.1 ht with ht | ht
      · exact ih t ht hvalid
      · obtain rfl := List.mem_singleton.1 ht
        exact checkModule_populated h ih held checked hvalid

/-- Productivity is inhabitation.  Data of the module that is reported as accepting no finite terms
has none; data without terms is reported if the imports ran into no name that is taken; and every
sort of a valid table, declared or imported, has a finite term. -/
theorem checkModule_inhabited (h : Session names tables)
    (held : ∀ entry ∈ library.tables, entry.2 ∈ tables)
    (checked : checkModule names id library config m = (names', .ok out))
    (uncancelled : out.cancelled = false) :
    (∀ x s, out.table.dataOf? s = some x → out.table.Owns x →
      (out.table.symbolAt x).failed = false →
      (out.table.unproductiveReport names' x ∈ out.table.reports → ¬ out.table.HasTerms s) ∧
      (ImportsApart names id library config m → ¬ out.table.HasTerms s →
        out.table.unproductiveReport names' x ∈ out.table.reports)) ∧
    (out.table.isValid = true → ∀ s, out.table.IsSort s → out.table.HasTerms s) := by
  refine ⟨fun x s hdata howns hstands => ?_, fun hvalid =>
    checkModule_populated h h.populated held checked hvalid⟩
  obtain ⟨d, hrun, rfl, hreads⟩ := checkModule_uncancelled checked uncancelled
  obtain ⟨hintact, hformed, himports, hreported⟩ := h.productive h.populated held hrun hreads
  have hx : x ∈ out.table.ownData := by
    obtain ⟨shape, info, hkind, -⟩ :=
      hintact.formed.families.sort (Table.dataOf?_eq_some_iff.1 hdata)
    exact hintact.formed.arena.mem_ownData.2 ⟨howns, by rw [hkind]; rfl, hstands⟩
  rw [hreported x hx]
  exact ⟨fun hunproductive hterms =>
      hunproductive (hintact.mem_productiveData hformed howns hdata hterms),
    fun hapart hterms hproductive => hterms
      ((hintact.mem_productiveData_iff hformed (himports hapart) howns hdata).1 hproductive)⟩

end

/-! ## Data without terms -/

namespace Barren

/-- The names of the module `D` and of its type `V`. -/
def names : Interner := internAll ["D", "V"]

/-- A type whose values are made of values of the type. -/
def circular : Module where
  kind := .domain
  name := ⟨28⟩
  file := ⟨0⟩
  types := [⟨⟨29⟩, {}, .constructor true [{ type := [.named { segments := [⟨29⟩] }] }]⟩]

def result : Interner × Except Fault CheckOutput := checkModule names ⟨0⟩ {} {} circular

/-- Whether a check is not cancelled and does not find the type under the handle of `V`
productive. -/
def isStuck (out : CheckOutput) : Bool :=
  !out.cancelled && out.table.dataOf? ⟨22⟩ == some ⟨21⟩ && out.table.ownData.contains ⟨21⟩ &&
    !out.table.productiveData.contains ⟨21⟩

theorem isStuck_result : result.2.toOption.any isStuck = true := by decide +kernel

/-- No value is made of itself. -/
theorem checkModule_inhabited_circular : ∃ names' out,
    checkModule names ⟨0⟩ {} {} circular = (names', .ok out) ∧
      out.table.unproductiveReport names' ⟨21⟩ ∈ out.table.reports ∧ ¬ out.table.HasTerms ⟨22⟩ := by
  obtain ⟨out, checked, hstuck⟩ := exists_of_any_toOption isStuck_result
  simp only [isStuck, Bool.and_eq_true, Bool.not_eq_true', beq_iff_eq, List.contains_eq_mem,
    decide_eq_true_eq, decide_eq_false_iff_not] at hstuck
  obtain ⟨⟨⟨uncancelled, hdata⟩, hown⟩, hunproductive⟩ := hstuck
  have hsession : Session names [] := session_internAll _
  have held : ∀ entry ∈ ({} : Library).tables, entry.2 ∈ ([] : List Table) :=
    fun _ h => absurd h List.not_mem_nil
  obtain ⟨d, hrun, hnames, hreads⟩ := checkModule_uncancelled checked uncancelled
  obtain ⟨hintact, -, -, hreported⟩ := hsession.productive hsession.populated held hrun hreads
  rw [hnames] at hreported
  have hreported := (hreported _ hown).2 hunproductive
  obtain ⟨howns, -, hstands⟩ := hintact.formed.arena.mem_ownData.1 hown
  exact ⟨result.1, out, checked, hreported, ((checkModule_inhabited hsession held checked
    uncancelled).1 _ _ hdata howns hstands).1 hreported⟩

end Barren

namespace Clash

def result : Interner × Except Fault CheckOutput := checkModule session.1 ⟨2⟩ library {} importer

/-- Whether `E` is data of the module that takes values of `P`, `P` takes no values at all, and `E`
is not reported. -/
def isSilent (out : CheckOutput) : Bool :=
  !out.cancelled && out.table.dataOf? ⟨28⟩ == some ⟨27⟩ && decide (27 < out.table.symbols.size) &&
    !(out.table.symbolAt ⟨27⟩).isSettled && !(out.table.symbolAt ⟨27⟩).failed &&
    (out.table.symbolAt ⟨28⟩).canonical == some ⟨[{ sorts := ⟨[⟨22⟩]⟩ }]⟩ &&
    (out.table.symbolAt ⟨22⟩).canonical == some ⟨[∅]⟩ &&
    !out.table.reports.any fun r => r.problem matches .badTypeDecl ..

theorem isSilent_result : result.2.toOption.any isSilent = true := by decide +kernel

/-- What clashes is dropped from the type `P`, so neither `P` nor `E` has terms, and nothing is said
about `E`. -/
theorem checkModule_not_reported : ∃ names' out,
    checkModule session.1 ⟨2⟩ library {} importer = (names', .ok out) ∧ out.cancelled = false ∧
      out.table.dataOf? ⟨28⟩ = some ⟨27⟩ ∧ out.table.Owns ⟨27⟩ ∧
      (out.table.symbolAt ⟨27⟩).failed = false ∧ ¬ out.table.HasTerms ⟨28⟩ ∧
      out.table.unproductiveReport names' ⟨27⟩ ∉ out.table.reports := by
  obtain ⟨out, checked, hsilent⟩ := exists_of_any_toOption isSilent_result
  simp only [isSilent, Bool.and_eq_true, Bool.not_eq_true', decide_eq_true_eq,
    beq_iff_eq] at hsilent
  obtain ⟨⟨⟨⟨⟨⟨⟨uncancelled, hdata⟩, hholds⟩, hunsettled⟩, hstands⟩, hform⟩, hempty⟩, hsilent⟩ :=
    hsilent
  refine ⟨result.1, out, checked, uncancelled, hdata, ⟨hholds, hunsettled⟩, hstands, ?_,
    fun hr => List.any_eq_false.1 hsilent _ hr rfl⟩
  -- An argument of `E` is a value of `P`, whose argument nothing accepts.
  have hnothing : ∀ x, ¬ out.table.Admits ∅ x := by
    intro x hx
    rcases hx.cases with hground | ⟨s, hs, -⟩
    · cases hground
    · exact List.not_mem_nil hs
  have hempty' : ∀ x, ¬ out.table.HasSort ⟨22⟩ x := by
    intro x hx
    obtain ⟨d, arguments, rfl⟩ := hx.exists_data
    obtain ⟨-, form, hform, hall⟩ := hx
    cases hempty.symm.trans hform
    cases Table.admitsAll_iff.1 hall with
    | cons hx _ => exact hnothing _ hx
  rintro ⟨x, hx⟩
  obtain ⟨d, arguments, rfl⟩ := hx.exists_data
  obtain ⟨-, form, hform', hall⟩ := hx
  cases hform.symm.trans hform'
  cases Table.admitsAll_iff.1 hall with
  | cons hx _ =>
      rcases hx.cases with hground | ⟨s, hs, hterm⟩
      · cases hground
      · cases List.mem_singleton.1 hs
        exact hempty' _ hterm

end Clash

end ManySorted
