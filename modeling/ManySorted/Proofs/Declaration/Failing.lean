import ManySorted.Proofs.Declaration.Enrollment

/-!
# Declarations that fail

Resolving only marks failures, so all declarations are resolved in one and the same table
(`Draft.Sifting`).  A declaration with a problem fails, and so does every declaration that refers to
one that failed.  Every round of spreading failures marks at least one more declaration, unless
there is nothing left to mark; so the rounds that are allowed are enough, and what stands at the end
refers to nothing that failed (`Draft.safe_spreadFailures`).

## Strategy

* **Resolving.**  Marking failures changes nothing that names lead to, so a declaration resolves at
  any time as it does at the start (`Scope.resolvePosition_alike`).
* **Own problems.**  A declaration with a problem is marked when it is resolved (`Draft.Examined`,
  `Draft.ParamsExamined`).
* **Rounds.**  A round looks for what refers to something that failed, and marks it
  (`Draft.safe_failing`, `Draft.safe_spreadFailuresOnce`).  One that marks something leaves fewer
  declarations standing (`Draft.standing_lt`), so there are enough rounds.
* **Parameters.**  They are looked through once afterwards.  Marking one leaves all unions as they
  are (`Draft.Upright.markFailed`), so what stood before stands still (`Draft.Spread.fell`).
* In the end what stands refers to no union that failed (`Draft.Sifted`).
-/

namespace ManySorted

namespace Table

variable {t t' : Table}

theorem Alike.location (h : t.Alike t') (x : SymbolId) :
    (t'.symbolAt x).location = (t.symbolAt x).location := by
  change (t'.symbolAt x).blank.location = (t.symbolAt x).blank.location
  rw [h.blank]

theorem Alike.resolveOrProblem (h : t.Alike t') (names : Interner) {id : QualifiedId}
    {filter : Symbol → Bool} (hfilter : t'.resolveId id filter = t.resolveId id filter)
    (usage : Option String) :
    t'.resolveOrProblem names id filter usage = t.resolveOrProblem names id filter usage := by
  simp only [Table.resolveOrProblem, hfilter, h.resolveId_any, h.location]

end Table

/-! ## Resolving in tables that are alike -/

namespace Scope

variable {scope : Scope} {t : Table}

theorem memberOf_alike (h : scope.table.Alike t) (x : SymbolId) :
    { scope with table := t }.memberOf x = scope.memberOf x := by
  by_cases hsort : scope.table.IsSort x
  · obtain ⟨_, hd⟩ := Table.isSort_iff_dataOf?.1 hsort
    have hd' := (h.dataOf? x).trans hd
    obtain ⟨_, hkind⟩ := SymbolKind.unsized_eq_userSort.1 (Table.dataOf?_eq_some_iff.1 hd)
    obtain ⟨_, hkind'⟩ := SymbolKind.unsized_eq_userSort.1 (Table.dataOf?_eq_some_iff.1 hd')
    simp only [memberOf, hkind, hkind']
  · simp only [memberOf, h.kindOf hsort]

theorem resolveType_alike (h : scope.table.Alike t) (id : QualifiedId) :
    { scope with table := t }.resolveType id = scope.resolveType id := by
  simp only [resolveType, h.resolveOrProblem scope.names (h.resolveId_type id), memberOf_alike h]

theorem readElement_alike (h : scope.table.Alike t) (r : Reading) (element : EnumElement) :
    { scope with table := t }.readElement r element = scope.readElement r element := by
  cases element with
  | constant id =>
      simp only [readElement, h.resolveOrProblem scope.names (h.resolveId_any id)]
      cases scope.table.resolveOrProblem scope.names id Table.anySymbol none with
      | error problem => rfl
      | ok x =>
          by_cases hsort : scope.table.IsSort x
          · obtain ⟨_, hd⟩ := Table.isSort_iff_dataOf?.1 hsort
            have hd' := (h.dataOf? x).trans hd
            obtain ⟨_, hkind⟩ := SymbolKind.unsized_eq_userSort.1 (Table.dataOf?_eq_some_iff.1 hd)
            obtain ⟨_, hkind'⟩ :=
              SymbolKind.unsized_eq_userSort.1 (Table.dataOf?_eq_some_iff.1 hd')
            simp only [hkind, hkind']
          · simp only [h.kindOf hsort]
  | literal literal span => cases literal <;> rfl
  | range low high span => rfl

theorem resolveTerm_alike (h : scope.table.Alike t) (term : TypeTerm) :
    { scope with table := t }.resolveTerm term = scope.resolveTerm term := by
  cases term with
  | named id => exact resolveType_alike h id
  | enumeration elements span =>
      have hread : ({ scope with table := t } : Scope).readElement = scope.readElement :=
        funext fun r => funext fun element => readElement_alike h r element
      simp only [resolveTerm, hread]

/-- Terms are resolved in the same way in tables that are alike. -/
theorem resolvePosition_alike (h : scope.table.Alike t) :
    { scope with table := t }.resolvePosition = scope.resolvePosition := by
  have hterm : ({ scope with table := t } : Scope).resolveTerm = scope.resolveTerm :=
    funext fun term => resolveTerm_alike h term
  funext terms
  simp only [resolvePosition, hterm]

end Scope

namespace Draft

variable {m : Module} {start d d' : Draft} {declarations : Declarations}

/-- The scope of a declaration in a draft. -/
def scope (d : Draft) (m : Module) (owner : Name) : Scope where
  names := d.names
  table := d.table
  file := m.file
  owner := d.names.text owner

/-- A type declaration as it is resolved in a draft. -/
def resolved (d : Draft) (m : Module) (b : Declaration) : ResolvedType where
  symbol := b.symbol
  positions := b.decl.body.positions.map (d.scope m b.decl.name).resolvePosition

/-- The type of a parameter as it is resolved in a draft. -/
def resolvedParam (d : Draft) (m : Module) (p : Parameter) : Position :=
  (d.scope m p.name).resolvePosition p.type

/-- Nothing was done since `start` but marking failures. -/
structure Sifting (start d : Draft) : Prop where
  names_eq : d.names = start.names
  marks : start.table.Marks d.table

theorem Sifting.intact (h : Sifting start d) (hstart : start.Intact) : d.Intact := by
  rw [Intact, h.names_eq]
  exact Table.Intact.marks hstart h.marks

theorem Sifting.resolvePosition (h : Sifting start d) (m : Module) (owner : Name) :
    (d.scope m owner).resolvePosition = (start.scope m owner).resolvePosition := by
  have hscope : d.scope m owner = { start.scope m owner with table := d.table } := by
    rw [scope, h.names_eq]
    rfl
  have halike : (start.scope m owner).table.Alike d.table := h.marks.toAlike
  rw [hscope]
  exact Scope.resolvePosition_alike halike

theorem Sifting.trans (h : Sifting start d) (h' : Sifting d d') : Sifting start d' where
  names_eq := h'.names_eq.trans h.names_eq
  marks := h.marks.trans h'.marks

theorem sifting_of_clock (d : Draft) (clock : Clock) : Sifting d { d with clock } := ⟨rfl, .refl _⟩

/-- What stands later stood before. -/
theorem Sifting.unfailed (h : Sifting start d) {x : SymbolId}
    (hx : (d.table.symbolAt x).failed = false) : (start.table.symbolAt x).failed = false := by
  rw [← Bool.not_eq_true] at hx ⊢
  exact fun hfailed => hx (h.marks.failed hfailed)

theorem marks_reportAll (t : Table) (rs : List Report) : t.Marks (t.reportAll rs) :=
  .of_eq (Table.reportAll_eq t rs).1 (Table.reportAll_eq t rs).2.1 (Table.reportAll_eq t rs).2.2

theorem safe_scopeOf_bind {β : Type} {C P : Draft → Prop} {R : β → Draft → Prop} {owner : Name}
    {g : Scope → DraftM β} (h : ∀ d, P d → Safe C (· = d) (g (d.scope m owner)) R) :
    Safe C P (scopeOf m owner >>= g) R :=
  fun d hd => h d hd d rfl

/-! ## Declarations with problems -/

/-- What registering knows of the symbols of a declaration. -/
theorem Registered.owns_holders {origin : Table} (h : Registered m origin declarations start)
    {b : Declaration} (hb : b ∈ declarations.types) {y : SymbolId}
    (hy : y ∈ start.table.holders b.symbol) : start.table.Owns y := by
  have howns := (h.listsTypes.mem_iff.1 (List.mem_map_of_mem hb)).1
  cases hdata : (start.table.kindOf b.symbol).isData with
  | true =>
      obtain ⟨shape, info, hd⟩ := Table.exists_data_of_isData hdata
      rw [Table.holders_of_data hd] at hy
      rcases List.mem_cons.1 hy with rfl | hy
      · exact howns
      · exact List.mem_singleton.1 hy ▸ (h.owns_sort hd).2 howns
  | false =>
      rw [Table.holders_of_not_data hdata] at hy
      exact List.mem_singleton.1 hy ▸ howns

/-- A declaration of the module is marked as failed. -/
theorem Sifting.markFamilyFailed {origin : Table} (h : Sifting start d)
    (hstart : Registered m origin declarations start) {b : Declaration}
    (hb : b ∈ declarations.types) :
    d.table.Marks (d.table.markFamilyFailed b.symbol) ∧
      ((d.table.markFamilyFailed b.symbol).symbolAt b.symbol).failed = true := by
  have howns : ∀ y ∈ d.table.holders b.symbol, d.table.Owns y := by
    intro y hy
    rw [h.marks.holders] at hy
    exact h.marks.owns.2 (hstart.owns_holders hb hy)
  obtain ⟨hmarks, hfailed⟩ := Table.marks_markFamilyFailed fun y hy => (howns y hy).unsettled
  have hself := Table.self_mem_holders d.table b.symbol
  exact ⟨hmarks, (hfailed b.symbol).2 (.inr ⟨hself, (howns _ hself).holds⟩)⟩

/-- The declarations that were resolved, where those with problems have failed. -/
structure Examined (m : Module) (start : Draft) (done : List Declaration)
    (resolved : List ResolvedType) (d : Draft) : Prop extends Sifting start d where
  resolved_eq : resolved = done.map (start.resolved m)
  ok : ∀ b ∈ done, (d.table.symbolAt b.symbol).failed = false →
    ∀ p ∈ (start.resolved m b).positions, p.isOk = true

theorem Examined.sift {done : List Declaration} {resolved : List ResolvedType}
    (h : Examined m start done resolved d) (hsift : Sifting d d') :
    Examined m start done resolved d' where
  toSifting := h.toSifting.trans hsift
  resolved_eq := h.resolved_eq
  ok b hb hfailed := h.ok b hb (hsift.unfailed hfailed)

theorem safe_resolveType {origin : Table} (hstart : Registered m origin declarations start)
    {done : List Declaration} {resolved : List ResolvedType} {b : Declaration}
    (hb : b ∈ declarations.types) :
    Safe Intact (Examined m start done resolved) (resolveType m b) fun r =>
      Examined m start (done ++ [b]) (resolved ++ [r]) := by
  refine (safe_tick_of (fun d clock hd => hd.sift (sifting_of_clock d clock))
    fun d hd => hd.intact hstart.intact).bind fun _ => ?_
  refine safe_scopeOf_bind fun d₀ hd₀ => ?_
  have hpositions : b.decl.body.positions.map (d₀.scope m b.decl.name).resolvePosition =
      (start.resolved m b).positions := by
    rw [hd₀.resolvePosition]
    rfl
  rw [hpositions]
  refine Safe.bind (Q := fun _ d => Examined m start done resolved d)
    (safe_modifyTable ?_) fun _ => ?_
  · rintro d rfl
    exact hd₀.sift ⟨rfl, marks_reportAll _ _⟩
  have hfinish : Safe Intact (fun d => Examined m start done resolved d ∧
      ((d.table.symbolAt b.symbol).failed = false →
        ∀ p ∈ (start.resolved m b).positions, p.isOk = true))
      (pure { symbol := b.symbol, positions := (start.resolved m b).positions })
      fun r => Examined m start (done ++ [b]) (resolved ++ [r]) := by
    refine safe_pure fun d hd => ⟨hd.1.toSifting, ?_, fun b' hb' => ?_⟩
    · rw [hd.1.resolved_eq, List.map_append]
      rfl
    · rcases List.mem_append.1 hb' with hb' | hb'
      · exact hd.1.ok b' hb'
      · exact List.mem_singleton.1 hb' ▸ hd.2
  refine Safe.ite (fun hproblem => ?_) fun hfine => ?_
  · refine Safe.bind (safe_modifyTable fun d hd => ?_) fun _ => hfinish
    obtain ⟨hmarks, hfailed⟩ := hd.toSifting.markFamilyFailed hstart hb
    exact ⟨hd.sift ⟨rfl, hmarks⟩,
      fun hunfailed => absurd (hfailed.symm.trans hunfailed) Bool.noConfusion⟩
  · refine hfinish.imp (fun d hd => ⟨hd, fun _ p hp => ?_⟩) fun _ _ hd => hd
    rw [Bool.not_eq_true, Bool.not_eq_false', List.all_eq_true] at hfine
    exact hfine p hp

/-! ## Parameters with problems -/

/-- The parameters that were resolved, where those with problems have failed and have no type. -/
structure ParamsExamined (m : Module) (start : Draft) (done : List Parameter)
    (resolved : List ResolvedParam) (d : Draft) : Prop where
  symbols_eq : resolved.map ResolvedParam.symbol = done.map Parameter.symbol
  type : ∀ r ∈ resolved, ∃ p ∈ done, p.symbol = r.symbol ∧
    (r.type = none ∧ (d.table.symbolAt r.symbol).failed = true ∨
      r.type = some (start.resolvedParam m p) ∧ (start.resolvedParam m p).isOk = true)

theorem ParamsExamined.sift {done : List Parameter} {resolved : List ResolvedParam}
    (h : ParamsExamined m start done resolved d) (hsift : Sifting d d') :
    ParamsExamined m start done resolved d' where
  symbols_eq := h.symbols_eq
  type r hr := by
    obtain ⟨p, hp, hsymbol, ⟨hnone, hfailed⟩ | hsome⟩ := h.type r hr
    · exact ⟨p, hp, hsymbol, .inl ⟨hnone, hsift.marks.failed hfailed⟩⟩
    · exact ⟨p, hp, hsymbol, .inr hsome⟩

theorem ParamsExamined.snoc {done : List Parameter} {resolved : List ResolvedParam}
    {p : Parameter} {r : ResolvedParam} (h : ParamsExamined m start done resolved d)
    (hsymbol : p.symbol = r.symbol)
    (htype : r.type = none ∧ (d.table.symbolAt r.symbol).failed = true ∨
      r.type = some (start.resolvedParam m p) ∧ (start.resolvedParam m p).isOk = true) :
    ParamsExamined m start (done ++ [p]) (resolved ++ [r]) d where
  symbols_eq := by
    rw [List.map_append, List.map_append, h.symbols_eq, List.map_singleton, List.map_singleton,
      hsymbol]
  type r' hr' := by
    rcases List.mem_append.1 hr' with hr' | hr'
    · obtain ⟨p', hp', hrest⟩ := h.type r' hr'
      exact ⟨p', List.mem_append_left _ hp', hrest⟩
    · obtain rfl := List.mem_singleton.1 hr'
      exact ⟨p, List.mem_append_right _ List.mem_cons_self, hsymbol, htype⟩

/-- A parameter of the module is marked as failed. -/
theorem Sifting.markParamFailed {origin : Table} (h : Sifting start d)
    (hstart : Registered m origin declarations start) {x : SymbolId}
    (hx : x ∈ declarations.params.map Parameter.symbol) :
    d.table.Marks (d.table.markFailed x) ∧ ((d.table.markFailed x).symbolAt x).failed = true := by
  have howns := h.marks.owns.2 (hstart.listsParams.mem_iff.1 hx).1
  exact ⟨Table.marks_markFailed howns.unsettled,
    (Table.failed_markFailed x).2 (.inr ⟨rfl, howns.holds⟩)⟩

theorem safe_resolveParam {origin : Table} (hstart : Registered m origin declarations start)
    {types : List ResolvedType} {done : List Parameter} {resolved : List ResolvedParam}
    {p : Parameter} (hp : p ∈ declarations.params) :
    Safe Intact (fun d => Examined m start declarations.types types d ∧
        ParamsExamined m start done resolved d) (resolveParam m p) fun r d =>
      Examined m start declarations.types types d ∧
        ParamsExamined m start (done ++ [p]) (resolved ++ [r]) d := by
  refine safe_scopeOf_bind fun d₀ hd₀ => ?_
  have hposition : (d₀.scope m p.name).resolvePosition p.type = start.resolvedParam m p := by
    rw [hd₀.1.resolvePosition]
    rfl
  rw [hposition]
  refine Safe.bind (Q := fun _ d => Examined m start declarations.types types d ∧
    ParamsExamined m start done resolved d) (safe_modifyTable ?_) fun _ => ?_
  · rintro d rfl
    have hsift :
        Sifting d { d with table := d.table.reportAll (start.resolvedParam m p).problems } :=
      ⟨rfl, marks_reportAll _ _⟩
    exact ⟨hd₀.1.sift hsift, hd₀.2.sift hsift⟩
  refine Safe.ite (fun hok => safe_pure fun d hd => ?_) fun _ => ?_
  · exact ⟨hd.1, hd.2.snoc rfl (.inr ⟨rfl, hok⟩)⟩
  · refine Safe.bind (safe_modifyTable (Q := fun _ d =>
      (Examined m start declarations.types types d ∧ ParamsExamined m start done resolved d) ∧
        (d.table.symbolAt p.symbol).failed = true) fun d hd => ?_) fun _ =>
      safe_pure fun d hd => ⟨hd.1.1, hd.1.2.snoc rfl (.inl ⟨rfl, hd.2⟩)⟩
    obtain ⟨hmarks, hfailed⟩ :=
      hd.1.toSifting.markParamFailed hstart (List.mem_map_of_mem hp)
    exact ⟨⟨hd.1.sift ⟨rfl, hmarks⟩, hd.2.sift ⟨rfl, hmarks⟩⟩, hfailed⟩

/-! ## Spreading failures -/

/-- The declarations that stand, but refer to something that failed. -/
def failing (t : Table) (types : List ResolvedType) : List ResolvedType :=
  types.filter fun r =>
    !(t.symbolAt r.symbol).failed && r.refs.any fun x => (t.symbolAt x).failed

/-- The declarations that stand. -/
def standing (t : Table) (types : List ResolvedType) : List ResolvedType :=
  types.filter fun r => !(t.symbolAt r.symbol).failed

/-- The resolved types belong to declarations of the module. -/
def Belong (declarations : Declarations) (types : List ResolvedType) : Prop :=
  ∀ r ∈ types, ∃ b ∈ declarations.types, b.symbol = r.symbol

/-- Declarations are marked one after the other. -/
theorem Sifting.markAll {origin : Table} (h : Sifting start d)
    (hstart : Registered m origin declarations start) {types : List ResolvedType}
    (htypes : Belong declarations types) :
    Sifting d { d with
      table := types.foldl (fun t r => t.markFamilyFailed r.symbol) d.table } ∧
      ∀ r ∈ types, ((types.foldl (fun t r => t.markFamilyFailed r.symbol) d.table).symbolAt
        r.symbol).failed = true := by
  induction types generalizing d with
  | nil => exact ⟨⟨rfl, .refl _⟩, fun _ hr => absurd hr List.not_mem_nil⟩
  | cons r rest ih =>
      obtain ⟨b, hb, hsymbol⟩ := htypes r List.mem_cons_self
      obtain ⟨hmarks, hfailed⟩ := h.markFamilyFailed hstart hb
      rw [hsymbol] at hmarks hfailed
      have hsift : Sifting d { d with table := d.table.markFamilyFailed r.symbol } := ⟨rfl, hmarks⟩
      obtain ⟨hrest, hall⟩ := ih (h.trans hsift) fun r hr => htypes r (List.mem_cons_of_mem _ hr)
      refine ⟨⟨rfl, hmarks.trans hrest.marks⟩, fun r' hr' => ?_⟩
      rcases List.mem_cons.1 hr' with rfl | hr'
      · exact hrest.marks.failed hfailed
      · exact hall r' hr'

/-- A round that marks something leaves fewer declarations standing. -/
theorem standing_lt {t t' : Table} {types : List ResolvedType} (hmarks : t.Marks t')
    {r : ResolvedType} (hr : r ∈ failing t types)
    (hfailed : (t'.symbolAt r.symbol).failed = true) :
    (standing t' types).length < (standing t types).length := by
  have hsub : standing t' types = (standing t types).filter
      fun r => !(t'.symbolAt r.symbol).failed := by
    rw [standing, standing, List.filter_filter]
    refine List.filter_congr fun r _ => ?_
    cases hfailed' : (t'.symbolAt r.symbol).failed with
    | true => rfl
    | false =>
        cases hfailed : (t.symbolAt r.symbol).failed with
        | true => cases hfailed'.symm.trans (hmarks.failed hfailed)
        | false => rfl
  rw [hsub, List.length_filter_lt_length_iff_exists]
  obtain ⟨hmem, hstands⟩ := List.mem_filter.1 hr
  refine ⟨r, List.mem_filter.2 ⟨hmem, (Bool.and_eq_true_iff.1 hstands).1⟩, ?_⟩
  rw [hfailed]
  exact Bool.false_ne_true

/-- What refers to something that failed is looked for, and nothing is marked yet. -/
theorem safe_failing (hstart : start.Intact) {d₀ : Draft} (hsift : Sifting start d₀)
    (types : List ResolvedType) :
    Safe Intact (fun d => d.names = d₀.names ∧ d.table = d₀.table)
      (types.filterM fun r => do
        tick
        let t ← getTable
        return !(t.symbolAt r.symbol).failed && r.refs.any fun x => (t.symbolAt x).failed)
      fun kept d => (d.names = d₀.names ∧ d.table = d₀.table) ∧ kept = failing d₀.table types := by
  refine safe_filterM fun r _ => (safe_tick_of (fun d clock hd => hd) fun d hd => ?_).bind
    fun _ => safe_getTable_bind fun t => safe_pure ?_
  · rw [Intact, hd.1, hd.2]
    exact hsift.intact hstart
  · rintro d ⟨hd, rfl⟩
    exact ⟨hd, by rw [hd.2]⟩

/-- One round marks what refers to something that failed. -/
theorem safe_spreadFailuresOnce {origin : Table} (hstart : Registered m origin declarations start)
    {types : List ResolvedType} (htypes : Belong declarations types) {d₀ : Draft}
    (hsift : Sifting start d₀) :
    Safe Intact (fun d => d.names = d₀.names ∧ d.table = d₀.table) (spreadFailuresOnce types)
      fun again d => Sifting d₀ d ∧
        (again = true → (standing d.table types).length < (standing d₀.table types).length) ∧
        (again = false → failing d.table types = []) := by
  refine (safe_failing hstart.intact hsift types).bind fun kept => ?_
  refine Safe.bind (safe_modifyTable (Q := fun _ d => Sifting d₀ d ∧
    kept = failing d₀.table types ∧ (∀ r ∈ kept, (d.table.symbolAt r.symbol).failed = true) ∧
    (kept = [] → d.table = d₀.table)) ?_)
    fun _ => safe_pure fun d hd => ⟨hd.1, fun hagain => ?_, fun hagain => ?_⟩
  · rintro d ⟨⟨hnames, htable⟩, hfailing⟩
    have hbelong : Belong declarations kept := fun r hr =>
      htypes r (List.mem_filter.1 (hfailing ▸ hr)).1
    obtain ⟨hsift, hall⟩ := hsift.markAll hstart hbelong
    rw [htable]
    exact ⟨⟨hnames, hsift.marks⟩, hfailing, hall, fun hnil => by rw [hnil]; rfl⟩
  · obtain ⟨hsift, hfailing, hall, -⟩ := hd
    cases hkept : kept with
    | nil =>
        rw [hkept] at hagain
        cases hagain
    | cons r rest =>
        have hr : r ∈ kept := hkept ▸ List.mem_cons_self
        exact standing_lt hsift.marks (hfailing ▸ hr) (hall r hr)
  · obtain ⟨hsift, hfailing, hall, hsame⟩ := hd
    have hnil : kept = [] := List.isEmpty_iff.1 (by rwa [Bool.not_eq_false'] at hagain)
    rw [hsame hnil, ← hfailing, hnil]

/-- Since every round but the last marks something, there are enough rounds. -/
theorem safe_spreadFailures {origin : Table} (hstart : Registered m origin declarations start)
    {types : List ResolvedType} (htypes : Belong declarations types) (rounds : Nat) {d₀ : Draft}
    (hsift : Sifting start d₀) (hrounds : (standing d₀.table types).length < rounds) :
    Safe Intact (fun d => d.names = d₀.names ∧ d.table = d₀.table) (spreadFailures types rounds)
      fun _ d => Sifting d₀ d ∧ failing d.table types = [] := by
  induction rounds generalizing d₀ with
  | zero => exact absurd hrounds (Nat.not_lt_zero _)
  | succ rounds ih =>
      refine (safe_spreadFailuresOnce hstart htypes hsift).bind fun again => ?_
      refine Safe.ite (fun hagain d hd => ?_) fun hagain => safe_pure fun d hd => ⟨hd.1, ?_⟩
      · have hfewer : (standing d.table types).length < rounds := by
          have hlt := hd.2.1 hagain
          omega
        refine (ih (hsift.trans hd.1) hfewer).imp (fun _ hd' => hd') (fun _ d' hd' => ?_) d
          ⟨rfl, rfl⟩
        exact ⟨hd.1.trans hd'.1, hd'.2⟩
      · exact hd.2.2 (by rwa [Bool.not_eq_true] at hagain)

/-! ## What stands -/

/-- No union among the references failed. -/
def Upright (t : Table) (refs : List SymbolId) : Prop :=
  ∀ x ∈ refs, (t.kindOf x).isUnion = true → (t.symbolAt x).failed = false

/-- The types that stand have no problems and refer to no union that failed. -/
structure TypesStand (m : Module) (start : Draft) (declarations : Declarations) (d : Draft) :
    Prop extends Sifting start d where
  type : ∀ b ∈ declarations.types, (d.table.symbolAt b.symbol).failed = false →
    (∀ p ∈ (start.resolved m b).positions, p.isOk = true) ∧
      Upright d.table (start.resolved m b).refs

/-- A parameter failed, or it has a type without problems that refers to no union that failed. -/
def ParamStands (m : Module) (start : Draft) (declarations : Declarations) (d : Draft)
    (r : ResolvedParam) : Prop :=
  ∃ p ∈ declarations.params, p.symbol = r.symbol ∧
    (r.type = none ∧ (d.table.symbolAt r.symbol).failed = true ∨
      r.type = some (start.resolvedParam m p) ∧ (start.resolvedParam m p).isOk = true ∧
        Upright d.table (start.resolvedParam m p).refs)

/-- Everything is resolved, and what stands refers to no union that failed. -/
structure Sifted (m : Module) (start : Draft) (declarations : Declarations)
    (params : List ResolvedParam) (d : Draft) : Prop extends
    TypesStand m start declarations d where
  symbols_eq : params.map ResolvedParam.symbol = declarations.params.map Parameter.symbol
  param : ∀ r ∈ params, ParamStands m start declarations d r

/-- Marking a parameter fells no union. -/
theorem Upright.markFailed {t : Table} {refs : List SymbolId} {x : SymbolId}
    (h : Upright t refs) (hx : (t.kindOf x).isUnion = false) : Upright (t.markFailed x) refs := by
  intro y hy hunion
  rw [Table.kindOf_markFailed] at hunion
  rw [← Bool.not_eq_true, Table.failed_markFailed]
  rintro (hfailed | ⟨rfl, -⟩)
  · exact Bool.noConfusion (hfailed.symm.trans (h y hy hunion))
  · exact Bool.noConfusion (hunion.symm.trans hx)

/-- The failures have spread to some of the parameters. -/
structure Spread (m : Module) (start : Draft) (declarations : Declarations)
    (resolved done params : List ResolvedParam) (d : Draft) : Prop extends
    TypesStand m start declarations d where
  examined : ParamsExamined m start declarations.params resolved d
  spread_eq : params.map ResolvedParam.symbol = done.map ResolvedParam.symbol
  spread : ∀ r ∈ params, ParamStands m start declarations d r

section

variable {origin : Table} {resolved done params : List ResolvedParam} {r : ResolvedParam}

theorem Spread.keep (h : Spread m start declarations resolved done params d)
    (hr : ParamStands m start declarations d r) :
    Spread m start declarations resolved (done ++ [r]) (params ++ [r]) d where
  toTypesStand := h.toTypesStand
  examined := h.examined
  spread_eq := by rw [List.map_append, List.map_append, h.spread_eq]
  spread r' hr' := by
    rcases List.mem_append.1 hr' with hr' | hr'
    · exact h.spread r' hr'
    · exact List.mem_singleton.1 hr' ▸ hr

/-- A parameter is marked, which leaves all unions as they are. -/
theorem Spread.fell (h : Spread m start declarations resolved done params d)
    (hstart : Registered m origin declarations start) (hr : r ∈ resolved) :
    Spread m start declarations resolved (done ++ [r]) (params ++ [{ r with type := none }])
      { d with table := d.table.markFailed r.symbol } := by
  obtain ⟨p, hp, hsymbol, -⟩ := h.examined.type r hr
  have hx : r.symbol ∈ declarations.params.map Parameter.symbol :=
    hsymbol ▸ List.mem_map_of_mem hp
  have hunion : (d.table.kindOf r.symbol).isUnion = false := by
    have hkind := (hstart.listsParams.alike h.marks.toAlike isParameter_unsized).mem_iff.1 hx
    cases hkindOf : d.table.kindOf r.symbol with
    | union convenience =>
        rw [hkindOf] at hkind
        cases hkind.2
    | _ => rfl
  obtain ⟨hmarks, hfailed⟩ := h.toSifting.markParamFailed hstart hx
  have hsift : Sifting d { d with table := d.table.markFailed r.symbol } := ⟨rfl, hmarks⟩
  refine ⟨⟨h.toSifting.trans hsift, fun b hb hstands => ?_⟩, h.examined.sift hsift, ?_,
    fun r' hr' => ?_⟩
  · obtain ⟨hok, hupright⟩ := h.type b hb (hsift.unfailed hstands)
    exact ⟨hok, hupright.markFailed hunion⟩
  · rw [List.map_append, List.map_append, h.spread_eq]
    rfl
  · rcases List.mem_append.1 hr' with hr' | hr'
    · obtain ⟨p', hp', hsymbol', ⟨hnone, hfailed'⟩ | ⟨hsome, hok, hupright⟩⟩ := h.spread r' hr'
      · exact ⟨p', hp', hsymbol', .inl ⟨hnone, hmarks.failed hfailed'⟩⟩
      · exact ⟨p', hp', hsymbol', .inr ⟨hsome, hok, hupright.markFailed hunion⟩⟩
    · obtain rfl := List.mem_singleton.1 hr'
      exact ⟨p, hp, hsymbol, .inl ⟨rfl, hfailed⟩⟩

theorem safe_spreadToParam (hstart : Registered m origin declarations start) (hr : r ∈ resolved) :
    Safe Intact (Spread m start declarations resolved done params) (spreadToParam r) fun r' =>
      Spread m start declarations resolved (done ++ [r]) (params ++ [r']) := by
  refine safe_getTable_bind fun t => ?_
  cases htype : r.type with
  | none =>
      refine safe_pure fun d hd => hd.1.keep ?_
      obtain ⟨p, hp, hsymbol, hnone | ⟨hsome, -⟩⟩ := hd.1.examined.type r hr
      · exact ⟨p, hp, hsymbol, .inl hnone⟩
      · cases htype.symm.trans hsome
  | some position =>
      refine Safe.ite (fun _ => ?_) fun hstands => safe_pure fun d hd => hd.1.keep ?_
      · refine Safe.bind (safe_modifyTable (Q := fun _ => Spread m start declarations resolved
          (done ++ [r]) (params ++ [{ r with type := none }])) fun d hd => ?_) fun _ =>
          safe_pure fun d hd => hd
        exact hd.1.fell hstart hr
      · obtain ⟨hd, rfl⟩ := hd
        obtain ⟨p, hp, hsymbol, ⟨hnone, -⟩ | ⟨hsome, hok⟩⟩ := hd.examined.type r hr
        · cases htype.symm.trans hnone
        · refine ⟨p, hp, hsymbol, .inr ⟨hsome, hok, fun x hx _ => ?_⟩⟩
          cases htype.symm.trans hsome
          rw [Bool.not_eq_true, List.any_eq_false] at hstands
          exact Bool.not_eq_true _ ▸ hstands x hx

end

/-! ## All declarations -/

section

variable {origin : Table} (hstart : Registered m origin declarations start)

include hstart

theorem safe_resolveTypes :
    Safe Intact (· = start) (declarations.types.mapM (resolveType m))
      (Examined m start declarations.types) := by
  refine (safe_mapM (l := declarations.types) (motive := Examined m start)
    fun done types b rest hall => safe_resolveType hstart ?_).imp ?_ fun _ _ hd => hd
  · rw [hall]
    exact List.mem_append_right _ List.mem_cons_self
  · rintro d rfl
    exact ⟨⟨rfl, .refl _⟩, rfl, fun _ hb => absurd hb List.not_mem_nil⟩

theorem safe_resolveParams {types : List ResolvedType} :
    Safe Intact (Examined m start declarations.types types)
      (declarations.params.mapM (resolveParam m)) fun params d =>
        Examined m start declarations.types types d ∧
          ParamsExamined m start declarations.params params d := by
  refine (safe_mapM (l := declarations.params)
    (motive := fun done params d => Examined m start declarations.types types d ∧
      ParamsExamined m start done params d) fun done params p rest hall =>
      safe_resolveParam hstart ?_).imp
      (fun d hd => ⟨hd, rfl, fun _ hr => absurd hr List.not_mem_nil⟩) fun _ _ hd => hd
  rw [hall]
  exact List.mem_append_right _ List.mem_cons_self

/-- The failures of types spread until nothing that stands refers to what failed. -/
theorem safe_spreadTypes {types : List ResolvedType} {params : List ResolvedParam} :
    Safe Intact (fun d => Examined m start declarations.types types d ∧
        ParamsExamined m start declarations.params params d)
      (spreadFailures types (types.length + 1)) fun _ =>
        Spread m start declarations params [] [] := by
  intro d hd
  obtain ⟨hexamined, hparams⟩ := hd
  have hbelong : Belong declarations types := by
    intro r hr
    rw [hexamined.resolved_eq] at hr
    obtain ⟨b, hb, rfl⟩ := List.mem_map.1 hr
    exact ⟨b, hb, rfl⟩
  have hrounds : (standing d.table types).length < types.length + 1 :=
    Nat.lt_succ_of_le (List.length_filter_le _ _)
  refine (safe_spreadFailures hstart hbelong _ hexamined.toSifting hrounds).imp (fun _ hd => hd)
    (fun _ d' hd' => ?_) d ⟨rfl, rfl⟩
  obtain ⟨hsift, hnone⟩ := hd'
  have hexamined' := hexamined.sift hsift
  refine ⟨⟨hexamined'.toSifting, fun b hb hstands => ⟨hexamined'.ok b hb hstands, ?_⟩⟩,
    hparams.sift hsift, rfl, fun _ hr => absurd hr List.not_mem_nil⟩
  intro x hx _
  have hr : start.resolved m b ∈ types := by
    rw [hexamined.resolved_eq]
    exact List.mem_map_of_mem hb
  rw [← Bool.not_eq_true]
  intro hfailed
  refine List.not_mem_nil (hnone ▸ List.mem_filter.2 ⟨hr, ?_⟩ : start.resolved m b ∈ [])
  rw [Bool.and_eq_true]
  refine ⟨?_, List.any_eq_true.2 ⟨x, hx, hfailed⟩⟩
  rw [Bool.not_eq_true', ← hstands]
  rfl

/-- Then they spread to the parameters. -/
theorem safe_spreadParams {resolved : List ResolvedParam} :
    Safe Intact (Spread m start declarations resolved [] []) (resolved.mapM spreadToParam)
      (Sifted m start declarations) := by
  refine (safe_mapM (l := resolved) (motive := Spread m start declarations resolved)
    fun done params r rest hall => safe_spreadToParam hstart ?_).imp (fun _ hd => hd)
      fun params d hd => ⟨hd.toTypesStand, hd.spread_eq.trans hd.examined.symbols_eq, hd.spread⟩
  rw [hall]
  exact List.mem_append_right _ List.mem_cons_self

end

end Draft

end ManySorted
