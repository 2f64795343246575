import Mathlib.Data.List.Induction
import Mathlib.Data.List.Nodup
import ManySorted.Proofs.Declaration.Inscription
import ManySorted.Proofs.Draft.Ending

/-!
# Which declarations fail

A declaration fails if its terms have problems, or if it refers to something that failed.  Types are
looked through again and again until nothing changes, so what fails among them is the least set that
is closed in this way (`Draft.Falls`).  Parameters are looked through once, one after the other: a
parameter fails if it refers to a type that failed or to an earlier parameter that did
(`Draft.Fallen`, `Draft.ends_spreadParams`).  Nothing else fails, and the reports are the problems
of the terms, in order (`Draft.ends_resolveTypes`, `Draft.ends_resolveParams`).

## Strategy

* **Resolving.**  All declarations are resolved in one table, but for marks.  Their problems are
  reported in order, and those that have any are marked (`Draft.Surveyed`).
* **Rounds.**  Whatever a round marks falls (`Draft.Spreading.round`).  In the end there is nothing
  left to mark, so what failed is closed under references, and the least such set has failed
  (`Draft.Spreading.failed_iff`).
* **Parameters.**  They are looked through in turn.  One without problems stands until its own turn
  (`Draft.not_fallen_param`) and falls if it refers to something that has fallen by then
  (`Draft.Felled.step`).
-/

namespace ManySorted

theorem Table.reports_markFamilyFailed (t : Table) (x : SymbolId) :
    (t.markFamilyFailed x).reports = t.reports := by
  unfold markFamilyFailed
  dsimp only
  split
  · rfl
  · rfl

namespace Draft

variable {m : Module} {origin : Table} {start d : Draft} {declarations : Declarations}
  {x : SymbolId}

/-- Whether some term of a type declaration has a problem. -/
def isFlawed (d : Draft) (m : Module) (b : Declaration) : Bool :=
  !(d.resolved m b).positions.all Position.isOk

/-- The problems of the terms of a type declaration. -/
def typeProblems (d : Draft) (m : Module) (b : Declaration) : List Report :=
  (d.resolved m b).positions.flatMap Position.problems

/-- A parameter as it is resolved in a draft, without its type if that has a problem. -/
def surveyedParam (d : Draft) (m : Module) (p : Parameter) : ResolvedParam where
  symbol := p.symbol
  type := if (d.resolvedParam m p).isOk then some (d.resolvedParam m p) else none

/-- The symbols of the declarations that have problems themselves. -/
def Flawed (m : Module) (start : Draft) (types : List Declaration) (params : List Parameter)
    (x : SymbolId) : Prop :=
  (∃ b ∈ types, start.isFlawed m b = true ∧ x ∈ start.table.holders b.symbol) ∨
    ∃ p ∈ params, (start.resolvedParam m p).isOk = false ∧ x = p.symbol

/-- What falls because of a problem in a type or parameter, directly or through references of
types. -/
inductive Falls (m : Module) (start : Draft) (declarations : Declarations) : SymbolId → Prop
  | flawed {x : SymbolId} (h : Flawed m start declarations.types declarations.params x) :
      Falls m start declarations x
  | spread {b : Declaration} {r x : SymbolId} (hb : b ∈ declarations.types)
      (href : r ∈ (start.resolved m b).refs) (hfalls : Falls m start declarations r)
      (hx : x ∈ start.table.holders b.symbol) : Falls m start declarations x

/-- What has fallen once some of the parameters were looked through. -/
def Fallen (m : Module) (start : Draft) (declarations : Declarations) (params : List Parameter) :
    SymbolId → Prop :=
  params.foldl
    (fun fallen p x => fallen x ∨
      x = p.symbol ∧ ∃ r ∈ (start.resolvedParam m p).refs, fallen r)
    (Falls m start declarations)

theorem fallen_snoc {params : List Parameter} {p : Parameter} :
    Fallen m start declarations (params ++ [p]) x ↔ Fallen m start declarations params x ∨
      x = p.symbol ∧ ∃ r ∈ (start.resolvedParam m p).refs, Fallen m start declarations
        params r := by
  rw [Fallen, List.foldl_append]
  rfl

theorem Falls.fallen (h : Falls m start declarations x) (params : List Parameter) :
    Fallen m start declarations params x := by
  induction params using List.reverseRecOn with
  | nil => exact h
  | append_singleton params p ih => exact fallen_snoc.2 (.inl ih)

theorem ends_scopeOf_bind {β : Type} {P : Draft → Prop} {R : β → Draft → Prop} {owner : Name}
    {g : Scope → DraftM β} (h : ∀ d, P d → Ends (· = d) (g (d.scope m owner)) R) :
    Ends P (scopeOf m owner >>= g) R :=
  fun d b d' hd hrun => h d hd d b d' rfl hrun

/-! ## Resolving -/

/-- Some types and parameters were resolved: their problems are reported, and those that have any
are marked. -/
structure Surveyed (m : Module) (start : Draft) (types : List Declaration)
    (params : List Parameter) (d : Draft) : Prop extends Sifting start d where
  failed_iff : ∀ x, (d.table.symbolAt x).failed = true ↔ Flawed m start types params x
  reports_eq : d.table.reports = start.table.reports ++ types.flatMap (start.typeProblems m) ++
    params.flatMap fun p => (start.resolvedParam m p).problems

theorem Surveyed.of_clock {types : List Declaration} {params : List Parameter}
    (h : Surveyed m start types params d) (clock : Clock) :
    Surveyed m start types params { d with clock } :=
  ⟨⟨h.names_eq, h.marks⟩, h.failed_iff, h.reports_eq⟩

theorem flawed_snoc {types : List Declaration} {b : Declaration} :
    Flawed m start (types ++ [b]) [] x ↔ Flawed m start types [] x ∨
      start.isFlawed m b = true ∧ x ∈ start.table.holders b.symbol := by
  simp only [Flawed, List.mem_append, List.mem_singleton, or_and_right, exists_or, exists_eq_left,
    List.not_mem_nil, false_and, exists_false, or_false]

theorem flawed_param_snoc {types : List Declaration} {params : List Parameter} {p : Parameter} :
    Flawed m start types (params ++ [p]) x ↔ Flawed m start types params x ∨
      (start.resolvedParam m p).isOk = false ∧ x = p.symbol := by
  simp only [Flawed, List.mem_append, List.mem_singleton, or_and_right, exists_or, exists_eq_left,
    or_assoc]

section

variable (hstart : Registered m origin declarations start)
include hstart

/-- The symbols of a declaration that is marked are there. -/
theorem Sifting.failed_markFamilyFailed (h : Sifting start d) {b : Declaration}
    (hb : b ∈ declarations.types) (x : SymbolId) :
    ((d.table.markFamilyFailed b.symbol).symbolAt x).failed = true ↔
      (d.table.symbolAt x).failed = true ∨ x ∈ start.table.holders b.symbol := by
  have howns : ∀ y ∈ d.table.holders b.symbol, d.table.Owns y := by
    intro y hy
    rw [h.marks.holders] at hy
    exact h.marks.owns.2 (hstart.owns_holders hb hy)
  rw [(Table.marks_markFamilyFailed fun y hy => (howns y hy).unsettled).2 x]
  refine or_congr_right ?_
  rw [← h.marks.holders]
  exact ⟨And.left, fun hx => ⟨hx, (howns x hx).holds⟩⟩

theorem ends_resolveType {types : List Declaration} {b : Declaration}
    (hb : b ∈ declarations.types) :
    Ends (Surveyed m start types []) (resolveType m b) fun r d =>
      Surveyed m start (types ++ [b]) [] d ∧ r = start.resolved m b := by
  refine (ends_tick fun d clock hd => hd.of_clock clock).bind fun _ => ?_
  refine ends_scopeOf_bind fun d₀ hd₀ => ?_
  have hpositions : b.decl.body.positions.map (d₀.scope m b.decl.name).resolvePosition =
      (start.resolved m b).positions := by
    rw [hd₀.resolvePosition]
    rfl
  rw [hpositions]
  -- The problems are reported first, which marks nothing.
  refine Ends.bind (Q := fun _ d => Sifting start d ∧
    (∀ x, (d.table.symbolAt x).failed = true ↔ Flawed m start types [] x) ∧
    d.table.reports = start.table.reports ++ (types ++ [b]).flatMap (start.typeProblems m))
    (ends_modifyTable ?_) fun _ => ?_
  · rintro d rfl
    have hmarks := marks_reportAll d.table
        ((start.resolved m b).positions.flatMap Position.problems)
    refine ⟨hd₀.toSifting.trans ⟨rfl, hmarks⟩, fun x => ?_, ?_⟩
    · rw [← hd₀.failed_iff, Table.symbolAt, (Table.reportAll_eq d.table _).2.2]
      rfl
    · rw [Table.reports_reportAll, hd₀.reports_eq, List.flatMap_nil, List.append_nil,
        List.append_assoc, List.flatMap_append, List.flatMap_singleton]
      rfl
  have hfinish : ∀ d : Draft, Sifting start d →
      (∀ x, (d.table.symbolAt x).failed = true ↔ Flawed m start types [] x ∨
        start.isFlawed m b = true ∧ x ∈ start.table.holders b.symbol) →
      d.table.reports = start.table.reports ++ (types ++ [b]).flatMap (start.typeProblems m) →
      Surveyed m start (types ++ [b]) [] d := by
    intro d hsift hfailed hreports
    refine ⟨hsift, fun x => (hfailed x).trans flawed_snoc.symm, ?_⟩
    rw [hreports, List.flatMap_nil, List.append_nil]
  refine Ends.ite (fun hflawed => Ends.bind (Q := fun _ => Surveyed m start (types ++ [b]) [])
    (ends_modifyTable fun d hd => ?_) fun _ => ends_pure fun d hd => ⟨hd, rfl⟩)
    fun hfine => ends_pure fun d hd => ⟨?_, rfl⟩
  · obtain ⟨hsift, hfailed, hreports⟩ := hd
    refine hfinish _ (hsift.trans ⟨rfl, (hsift.markFamilyFailed hstart hb).1⟩) (fun x => ?_) ?_
    · rw [Sifting.failed_markFamilyFailed hstart hsift hb, hfailed]
      exact or_congr_right (iff_and_self.2 fun _ => hflawed)
    · rw [Table.reports_markFamilyFailed, hreports]
  · obtain ⟨hsift, hfailed, hreports⟩ := hd
    refine hfinish d hsift (fun x => (hfailed x).trans ?_) hreports
    exact (or_iff_left fun h => hfine h.1).symm

theorem ends_resolveTypes (hfresh : ∀ x, (start.table.symbolAt x).failed = false) :
    Ends (· = start) (declarations.types.mapM (resolveType m)) fun types d =>
      Surveyed m start declarations.types [] d ∧
        types = declarations.types.map (start.resolved m) := by
  refine (ends_mapM (l := declarations.types) (motive := fun done types d =>
    Surveyed m start done [] d ∧ types = done.map (start.resolved m))
    fun done types b rest hall => ?_).imp ?_ fun _ _ hd => hd
  · have hb : b ∈ declarations.types := by
      rw [hall]
      exact List.mem_append_right _ List.mem_cons_self
    intro d r d' hd hrun
    obtain ⟨hd', rfl⟩ := ends_resolveType hstart hb d r d' hd.1 hrun
    exact ⟨hd', by rw [hd.2, List.map_append]; rfl⟩
  · rintro d rfl
    refine ⟨⟨⟨rfl, .refl _⟩, fun x => ?_, ?_⟩, rfl⟩
    · rw [hfresh x]
      refine iff_of_false Bool.false_ne_true ?_
      rintro (⟨_, h, -⟩ | ⟨_, h, -⟩) <;> exact List.not_mem_nil h
    · rw [List.flatMap_nil, List.flatMap_nil, List.append_nil, List.append_nil]

theorem ends_resolveParam {params : List Parameter} {p : Parameter}
    (hp : p ∈ declarations.params) :
    Ends (Surveyed m start declarations.types params) (resolveParam m p) fun r d =>
      Surveyed m start declarations.types (params ++ [p]) d ∧ r = start.surveyedParam m p := by
  refine ends_scopeOf_bind fun d₀ hd₀ => ?_
  have hposition : (d₀.scope m p.name).resolvePosition p.type = start.resolvedParam m p := by
    rw [hd₀.resolvePosition]
    rfl
  rw [hposition]
  refine Ends.bind (Q := fun _ d => Sifting start d ∧
    (∀ x, (d.table.symbolAt x).failed = true ↔ Flawed m start declarations.types params x) ∧
    d.table.reports = start.table.reports ++ declarations.types.flatMap (start.typeProblems m) ++
      (params ++ [p]).flatMap fun p => (start.resolvedParam m p).problems)
    (ends_modifyTable ?_) fun _ => ?_
  · rintro d rfl
    refine ⟨hd₀.toSifting.trans ⟨rfl, marks_reportAll _ _⟩, fun x => ?_, ?_⟩
    · rw [← hd₀.failed_iff, Table.symbolAt, (Table.reportAll_eq d.table _).2.2]
      rfl
    · rw [Table.reports_reportAll, hd₀.reports_eq, List.append_assoc, List.flatMap_append,
        List.flatMap_singleton]
  refine Ends.ite (fun hok => ends_pure fun d hd => ?_) fun hproblem =>
    Ends.bind (Q := fun _ => Surveyed m start declarations.types (params ++ [p]))
      (ends_modifyTable fun d hd => ?_) fun _ => ends_pure fun d hd => ⟨hd, ?_⟩
  · obtain ⟨hsift, hfailed, hreports⟩ := hd
    refine ⟨⟨hsift, fun x => ?_, hreports⟩, ?_⟩
    · rw [hfailed, flawed_param_snoc]
      exact (or_iff_left fun h => Bool.noConfusion (hok.symm.trans h.1)).symm
    · rw [surveyedParam, if_pos hok]
  · obtain ⟨hsift, hfailed, hreports⟩ := hd
    have howns := hsift.marks.owns.2
      (hstart.listsParams.mem_iff.1 (List.mem_map_of_mem hp)).1
    refine ⟨hsift.trans ⟨rfl, Table.marks_markFailed howns.unsettled⟩, fun x => ?_, hreports⟩
    change ((d.table.markFailed p.symbol).symbolAt x).failed = true ↔ _
    rw [Table.failed_markFailed, hfailed, flawed_param_snoc]
    refine or_congr_right ⟨fun h => ⟨Bool.not_eq_true _ ▸ hproblem, h.1⟩, fun h => ⟨h.2, ?_⟩⟩
    rw [h.2]
    exact howns.holds
  · rw [surveyedParam, if_neg hproblem]

theorem ends_resolveParams : Ends (Surveyed m start declarations.types [])
    (declarations.params.mapM (resolveParam m)) fun params d =>
      Surveyed m start declarations.types declarations.params d ∧
        params = declarations.params.map (start.surveyedParam m) := by
  refine (ends_mapM (l := declarations.params) (motive := fun done params d =>
    Surveyed m start declarations.types done d ∧ params = done.map (start.surveyedParam m))
    fun done params p rest hall => ?_).imp (fun d hd => ⟨hd, rfl⟩) fun _ _ hd => hd
  have hp : p ∈ declarations.params := by
    rw [hall]
    exact List.mem_append_right _ List.mem_cons_self
  intro d r d' hd hrun
  obtain ⟨hd', rfl⟩ := ends_resolveParam hstart hp d r d' hd.1 hrun
  exact ⟨hd', by rw [hd.2, List.map_append]; rfl⟩

/-! ## Spreading failures -/

/-- The symbols of a declaration belong to no other. -/
theorem Registered.eq_of_mem_holders {b : Declaration} (hb : b ∈ declarations.types) {y : SymbolId}
    (hy : b.symbol ∈ start.table.holders y) : b.symbol = y := by
  rcases hstart.intact.formed.toRegular.mem_holders_cases hy with heq | hdata
  · exact heq
  · have hkind := (hstart.listsTypes.mem_iff.1 (List.mem_map_of_mem hb)).2
    obtain ⟨size, hsort⟩ := SymbolKind.unsized_eq_userSort.1 (Table.dataOf?_eq_some_iff.1 hdata)
    rw [hsort] at hkind
    cases hkind

/-- Marking several declarations marks the symbols of each. -/
theorem Sifting.failed_markAll (h : Sifting start d) {types : List ResolvedType}
    (htypes : Belong declarations types) (x : SymbolId) :
    ((types.foldl (fun t r => t.markFamilyFailed r.symbol) d.table).symbolAt x).failed = true ↔
      (d.table.symbolAt x).failed = true ∨ ∃ r ∈ types, x ∈ start.table.holders r.symbol := by
  induction types generalizing d with
  | nil =>
      refine (or_iff_left ?_).symm
      rintro ⟨_, hr, -⟩
      exact List.not_mem_nil hr
  | cons r rest ih =>
      obtain ⟨b, hb, hsymbol⟩ := htypes r List.mem_cons_self
      have hmarks := (h.markFamilyFailed hstart hb).1
      have hfailed := Sifting.failed_markFamilyFailed hstart h hb x
      rw [hsymbol] at hmarks hfailed
      have hsift : Sifting d { d with table := d.table.markFamilyFailed r.symbol } := ⟨rfl, hmarks⟩
      rw [List.foldl_cons, ih (h.trans hsift) fun r hr => htypes r (List.mem_cons_of_mem _ hr)]
      change ((d.table.markFamilyFailed r.symbol).symbolAt x).failed = true ∨ _ ↔ _
      rw [hfailed]
      simp only [List.mem_cons, exists_eq_or_imp, or_assoc]

omit hstart in
theorem reports_markAll (t : Table) (types : List ResolvedType) :
    (types.foldl (fun t r => t.markFamilyFailed r.symbol) t).reports = t.reports := by
  induction types generalizing t with
  | nil => rfl
  | cons r rest ih => rw [List.foldl_cons, ih, Table.reports_markFamilyFailed]

omit hstart in
/-- One round marks what refers to something that failed, all at once. -/
theorem ends_spreadFailuresOnce (types : List ResolvedType) (d₀ : Draft) :
    Ends (fun d => d.names = d₀.names ∧ d.table = d₀.table) (spreadFailuresOnce types) fun _ d =>
      d.names = d₀.names ∧ d.table =
        (failing d₀.table types).foldl (fun t r => t.markFamilyFailed r.symbol) d₀.table := by
  refine Ends.bind (Safe.ends (C := fun _ => True) (safe_filterM
    (p := fun r => !(d₀.table.symbolAt r.symbol).failed &&
      r.refs.any fun x => (d₀.table.symbolAt x).failed) fun r _ => ?_)) fun kept => ?_
  · refine (safe_tick_of (fun d clock hd => hd) fun _ _ => trivial).bind fun _ => ?_
    refine safe_getTable_bind fun t => safe_pure ?_
    rintro d ⟨hd, rfl⟩
    exact ⟨hd, by rw [hd.2]⟩
  · refine Ends.bind (Q := fun _ d => d.names = d₀.names ∧ d.table =
      (failing d₀.table types).foldl (fun t r => t.markFamilyFailed r.symbol) d₀.table)
      (ends_modifyTable ?_) fun _ => ends_pure fun _ hd => hd
    rintro d ⟨⟨hnames, htable⟩, rfl⟩
    exact ⟨hnames, by rw [htable]; rfl⟩

/-- What failed so far falls, and what has problems has failed. -/
structure Spreading (m : Module) (start : Draft) (declarations : Declarations)
    (reports : List Report) (d : Draft) : Prop extends Sifting start d where
  flawed : ∀ x, Flawed m start declarations.types declarations.params x →
    (d.table.symbolAt x).failed = true
  falls : ∀ x, (d.table.symbolAt x).failed = true → Falls m start declarations x
  whole : ∀ b ∈ declarations.types, (d.table.symbolAt b.symbol).failed = true →
    ∀ x ∈ start.table.holders b.symbol, (d.table.symbolAt x).failed = true
  reports_eq : d.table.reports = reports

theorem Surveyed.spreading (h : Surveyed m start declarations.types declarations.params d) :
    Spreading m start declarations d.table.reports d where
  toSifting := h.toSifting
  flawed x := (h.failed_iff x).2
  falls x hx := .flawed ((h.failed_iff x).1 hx)
  whole b hb hfailed x hx := by
    rcases (h.failed_iff _).1 hfailed with ⟨b', hb', hflawed, hmem⟩ | ⟨p, hp, -, hsymbol⟩
    · rw [hstart.eq_of_mem_holders hb hmem] at hx
      exact (h.failed_iff x).2 (.inl ⟨b', hb', hflawed, hx⟩)
    · have hkind := (hstart.listsTypes.mem_iff.1 (List.mem_map_of_mem hb)).2
      rw [hsymbol, (hstart.kindOf_param hp).2] at hkind
      cases hkind
  reports_eq := rfl

theorem Spreading.round {reports : List Report} (h : Spreading m start declarations reports d)
    {d' : Draft} (hnames : d'.names = d.names)
    (htable : d'.table = (failing d.table (declarations.types.map (start.resolved m))).foldl
      (fun t r => t.markFamilyFailed r.symbol) d.table) :
    Spreading m start declarations reports d' := by
  have hbelong : Belong declarations
      (failing d.table (declarations.types.map (start.resolved m))) := by
    intro r hr
    obtain ⟨b, hb, rfl⟩ := List.mem_map.1 (List.mem_filter.1 hr).1
    exact ⟨b, hb, rfl⟩
  have hfailed := h.toSifting.failed_markAll hstart hbelong
  rw [← htable] at hfailed
  have hmarks := (h.toSifting.markAll hstart hbelong).1.marks
  refine ⟨h.toSifting.trans ⟨hnames, htable ▸ hmarks⟩, fun x hx =>
    (hfailed x).2 (.inl (h.flawed x hx)),
    fun x hx => ?_, fun b hb hb' x hx => (hfailed x).2 ?_, ?_⟩
  · rcases (hfailed x).1 hx with hx | ⟨r, hr, hx⟩
    · exact h.falls x hx
    · obtain ⟨hr, hrefs⟩ := List.mem_filter.1 hr
      obtain ⟨b, hb, rfl⟩ := List.mem_map.1 hr
      obtain ⟨y, hy, hyfailed⟩ := List.any_eq_true.1 (Bool.and_eq_true_iff.1 hrefs).2
      exact .spread hb hy (h.falls y hyfailed) hx
  · rcases (hfailed _).1 hb' with hb' | ⟨r, hr, hmem⟩
    · exact .inl (h.whole b hb hb' x hx)
    · rw [hstart.eq_of_mem_holders hb hmem] at hx
      exact .inr ⟨r, hr, hx⟩
  · rw [htable, reports_markAll, h.reports_eq]

theorem ends_spreadFailures (rounds : Nat) {reports : List Report} :
    Ends (Spreading m start declarations reports)
      (spreadFailures (declarations.types.map (start.resolved m)) rounds) fun _ =>
        Spreading m start declarations reports := by
  induction rounds with
  | zero => exact ends_pure fun _ hd => hd
  | succ rounds ih =>
      refine Ends.bind (Q := fun _ => Spreading m start declarations reports)
        (fun d again d' hd hrun => ?_) fun again => Ends.ite (fun _ => ih) fun _ =>
          ends_pure fun _ hd => hd
      obtain ⟨hnames, htable⟩ := ends_spreadFailuresOnce _ d d again d' ⟨rfl, rfl⟩ hrun
      exact hd.round hstart hnames htable

omit hstart in
/-- In the end just that has failed which falls. -/
theorem Spreading.failed_iff {reports : List Report}
    (h : Spreading m start declarations reports d)
    (hnone : failing d.table (declarations.types.map (start.resolved m)) = []) (x : SymbolId) :
    (d.table.symbolAt x).failed = true ↔ Falls m start declarations x := by
  refine ⟨h.falls x, fun hfalls => ?_⟩
  induction hfalls with
  | flawed hx => exact h.flawed _ hx
  | @spread b r x hb href hfalls hx ih =>
      -- A declaration with a reference that failed would be left for another round.
      have hsymbol : (d.table.symbolAt b.symbol).failed = true := by
        by_contra hstands
        rw [Bool.not_eq_true] at hstands
        have hmem : start.resolved m b ∈
            failing d.table (declarations.types.map (start.resolved m)) := by
          refine List.mem_filter.2 ⟨List.mem_map_of_mem hb, ?_⟩
          rw [Bool.and_eq_true, Bool.not_eq_true']
          exact ⟨hstands, List.any_eq_true.2 ⟨r, href, ih⟩⟩
        rw [hnone] at hmem
        exact List.not_mem_nil hmem
      exact h.whole b hb hsymbol x hx

/-! ## Parameters -/

/-- The failures have spread to some of the parameters. -/
structure Felled (m : Module) (start : Draft) (declarations : Declarations)
    (reports : List Report) (done : List Parameter) (params : List ResolvedParam) (d : Draft) :
    Prop extends Sifting start d where
  failed_iff : ∀ x, (d.table.symbolAt x).failed = true ↔ Fallen m start declarations done x
  reports_eq : d.table.reports = reports
  params_eq : params.map ResolvedParam.symbol = done.map Parameter.symbol
  param : ∀ r ∈ params, ∃ p ∈ done, r.symbol = p.symbol ∧
    r.type = if (d.table.symbolAt p.symbol).failed then none else some (start.resolvedParam m p)

theorem Felled.step {reports : List Report} {done rest : List Parameter}
    {params : List ResolvedParam} {p : Parameter} {d' : Draft}
    (h : Felled m start declarations reports done params d)
    (hall : declarations.params = done ++ p :: rest) (hsift : Sifting start d')
    (hfailed : ∀ x, (d'.table.symbolAt x).failed = true ↔ (d.table.symbolAt x).failed = true ∨
      x = p.symbol ∧ ∃ r ∈ (start.resolvedParam m p).refs, (d.table.symbolAt r).failed = true)
    (hreports : d'.table.reports = d.table.reports) {r : ResolvedParam}
    (hr : r.symbol = p.symbol) (htype : r.type =
      if (d'.table.symbolAt p.symbol).failed then none else some (start.resolvedParam m p)) :
    Felled m start declarations reports (done ++ [p]) (params ++ [r]) d' where
  toSifting := hsift
  failed_iff x := by simp only [hfailed, h.failed_iff, fallen_snoc]
  reports_eq := hreports.trans h.reports_eq
  params_eq := by
    rw [List.map_append, List.map_append, h.params_eq]
    exact congrArg (done.map Parameter.symbol ++ [·]) hr
  param r' hr' := by
    rcases List.mem_append.1 hr' with hr' | hr'
    · obtain ⟨q, hq, hsymbol, htype⟩ := h.param r' hr'
      refine ⟨q, List.mem_append_left _ hq, hsymbol, ?_⟩
      -- the symbols of parameters differ, so marking one leaves the others as they were
      have hne : q.symbol ≠ p.symbol := by
        have hnodup := hstart.listsParams.nodup
        rw [hall, List.map_append, List.nodup_append] at hnodup
        exact hnodup.2.2 _ (List.mem_map_of_mem hq) _ List.mem_cons_self
      have hsame : (d'.table.symbolAt q.symbol).failed = (d.table.symbolAt q.symbol).failed := by
        rw [Bool.eq_iff_iff, hfailed]
        exact or_iff_left fun h => hne h.1
      rw [hsame]
      exact htype
    · obtain rfl := List.mem_singleton.1 hr'
      exact ⟨p, List.mem_append_right _ List.mem_cons_self, hr, htype⟩

/-- A parameter is no part of a type. -/
theorem Registered.not_mem_holders_param {p : Parameter} (hp : p ∈ declarations.params)
    {b : Declaration} (hb : b ∈ declarations.types) :
    p.symbol ∉ start.table.holders b.symbol := by
  intro hmem
  have hkind := (hstart.kindOf_param hp).2
  rcases hstart.intact.formed.toRegular.mem_holders_cases hmem with heq | hdata
  · have htype := (hstart.listsTypes.mem_iff.1 (List.mem_map_of_mem hb)).2
    rw [← heq, hkind] at htype
    cases htype
  · obtain ⟨size, hsort⟩ := SymbolKind.unsized_eq_userSort.1 (Table.dataOf?_eq_some_iff.1 hdata)
    rw [hkind] at hsort
    cases hsort

/-- A parameter without problems stands until its own turn. -/
theorem not_fallen_param {done rest : List Parameter} {p : Parameter}
    (hall : declarations.params = done ++ p :: rest)
    (hok : (start.resolvedParam m p).isOk = true) :
    ¬ Fallen m start declarations done p.symbol := by
  have hp : p ∈ declarations.params := by
    rw [hall]
    exact List.mem_append_right _ List.mem_cons_self
  have hnodup := hstart.listsParams.nodup
  have hbase : ¬ Falls m start declarations p.symbol := by
    rintro (⟨⟨b, hb, -, hmem⟩ | ⟨q, hq, hflawed, hsymbol⟩⟩ | ⟨hb, -, -, hmem⟩)
    · exact hstart.not_mem_holders_param hp hb hmem
    · rw [List.inj_on_of_nodup_map hnodup hp hq hsymbol, hflawed] at hok
      cases hok
    · exact hstart.not_mem_holders_param hp hb hmem
  rw [hall, List.map_append, List.nodup_append] at hnodup
  have hne : ∀ q ∈ done, q.symbol ≠ p.symbol := fun q hq =>
    hnodup.2.2 _ (List.mem_map_of_mem hq) _ List.mem_cons_self
  clear hall hnodup
  induction done using List.reverseRecOn with
  | nil => exact hbase
  | append_singleton done q ih =>
      rw [fallen_snoc]
      rintro (hfallen | ⟨hsymbol, -⟩)
      · exact ih (fun q hq => hne q (List.mem_append_left _ hq)) hfallen
      · exact hne q (List.mem_append_right _ List.mem_cons_self) hsymbol.symm

theorem ends_spreadToParam {reports : List Report} {done rest : List Parameter}
    {params : List ResolvedParam} {p : Parameter}
    (hall : declarations.params = done ++ p :: rest) :
    Ends (Felled m start declarations reports done params)
      (spreadToParam (start.surveyedParam m p)) fun r =>
        Felled m start declarations reports (done ++ [p]) (params ++ [r]) := by
  have hp : p ∈ declarations.params := by
    rw [hall]
    exact List.mem_append_right _ List.mem_cons_self
  have hflawed : (start.resolvedParam m p).isOk = false → Falls m start declarations p.symbol :=
    fun hok => .flawed (.inr ⟨p, hp, hok, rfl⟩)
  refine ends_getTable_bind fun t => ?_
  cases hok : (start.resolvedParam m p).isOk with
  | false =>
      -- a parameter whose type did not resolve is marked already
      have htype : (start.surveyedParam m p).type = none := by
        rw [surveyedParam, hok]
        rfl
      rw [htype]
      refine ends_pure ?_
      rintro d ⟨hd, rfl⟩
      have hfailed : (d.table.symbolAt p.symbol).failed = true :=
        (hd.failed_iff _).2 ((hflawed hok).fallen done)
      refine hd.step hstart hall hd.toSifting (fun x => ?_) rfl rfl ?_
      · refine (or_iff_left_of_imp ?_).symm
        rintro ⟨rfl, -⟩
        exact hfailed
      · rw [hfailed, htype]
        rfl
  | true =>
      -- a parameter whose type resolved
      have htype : (start.surveyedParam m p).type = some (start.resolvedParam m p) := by
        rw [surveyedParam, hok]
        rfl
      have howns : ∀ {d}, Sifting start d → d.table.Owns p.symbol := fun hd =>
        hd.marks.owns.2 (hstart.listsParams.mem_iff.1 (List.mem_map_of_mem hp)).1
      rw [htype]
      refine Ends.ite (fun hrefs => Ends.bind (Q := fun _ =>
        Felled m start declarations reports (done ++ [p])
          (params ++ [{ start.surveyedParam m p with type := none }]))
        (ends_modifyTable ?_) fun _ => ends_pure fun _ hd => hd) fun hrefs => ends_pure ?_
      · -- is marked if it refers to something that is
        rintro d ⟨hd, rfl⟩
        have hfailed : ∀ x, ((d.table.markFailed p.symbol).symbolAt x).failed = true ↔
            (d.table.symbolAt x).failed = true ∨ x = p.symbol := by
          intro x
          rw [Table.failed_markFailed]
          refine or_congr_right (and_iff_left_of_imp ?_)
          rintro rfl
          exact (howns hd.toSifting).holds
        have hsift : Sifting d { d with table := d.table.markFailed p.symbol } :=
          ⟨rfl, Table.marks_markFailed (howns hd.toSifting).unsettled⟩
        refine hd.step hstart hall (hd.toSifting.trans hsift) (fun x => ?_) rfl rfl ?_
        · refine (hfailed x).trans (or_congr_right (iff_self_and.2 fun _ => ?_))
          exact List.any_eq_true.1 hrefs
        · change none = if ((d.table.markFailed p.symbol).symbolAt p.symbol).failed then none else _
          rw [(hfailed p.symbol).2 (.inr rfl)]
          rfl
      · -- and otherwise stands
        rintro d ⟨hd, rfl⟩
        have hnone : ¬ ∃ r ∈ (start.resolvedParam m p).refs,
            (d.table.symbolAt r).failed = true := fun h => hrefs (List.any_eq_true.2 h)
        refine hd.step hstart hall hd.toSifting (fun x => (or_iff_left fun h => hnone h.2).symm) rfl
          rfl ?_
        have hstands : (d.table.symbolAt p.symbol).failed = false :=
          Bool.eq_false_iff.2 fun h => not_fallen_param hstart hall hok ((hd.failed_iff _).1 h)
        rw [hstands, htype]
        rfl

/-- The parameters are looked through in turn. -/
theorem ends_spreadParams {reports : List Report} :
    Ends (Felled m start declarations reports [] [])
      ((declarations.params.map (start.surveyedParam m)).mapM spreadToParam)
      (Felled m start declarations reports declarations.params) := by
  rw [List.mapM_map]
  exact ends_mapM fun done params p rest hall => ends_spreadToParam hstart hall

end

end Draft

end ManySorted
