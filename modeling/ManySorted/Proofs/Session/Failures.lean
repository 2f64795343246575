import ManySorted.Proofs.Declaration.Entering
import ManySorted.Proofs.Echo.Finding
import ManySorted.Proofs.Session.Completeness
import ManySorted.Proofs.Sizing.Tally

/-!
# Which declarations are marked as failed

A declaration fails if its own terms do not resolve.  From there failures spread along references,
but not along all of them: types are looked through until nothing changes, and the parameters only
afterwards, once and in order.  So the failure of a parameter whose own terms are fine comes too
late for the types that refer to it, and for parameters before it (`Draft.Relays`).  What is marked
in the end is the least set that is closed under the references along which failures do spread
(`Draft.Lapses`), and just the declarations outside of it have forms (`checkModule_lapses`).

The account of declaring tells what falls in the drafts on the way (`Draft.Fallen`).  The statement
here speaks of the table that is handed out: names resolve there as they did when they were
resolved, since nothing that resolution looks at has changed.

## Strategy

* **References.**  Only symbols that the module declares have positions, and these resolve at the
  end as they did when they were registered (`Draft.positionsOf_type`, `Draft.positionsOf_param`).
* **What falls lapses.**  Types fall by the least set of their rounds, and a parameter by the
  references that are marked when its turn comes (`Draft.Falls.lapses`, `Draft.lapses_of_fallen`).
* **What lapses has fallen.**  By induction on why it lapses: through a type the rounds find it, and
  a parameter is passed on only to parameters behind it (`Draft.Lapses.fallen`).
* **The order of parameters.**  They are registered in the order of their handles
  (`Draft.pairwise_params`), so the statement needs nothing but the table.
-/

namespace ManySorted

/-! ## What a declaration refers to -/

/-- The terms that the module declares under a symbol of its own, position by position. -/
def Table.termsOf (t : Table) (m : Module) (x : SymbolId) : List (List TypeTerm) :=
  let s := t.symbolAt x
  if s.isSettled then []
  else if s.kind.isDeclaredType then
    ((m.types.find? (·.name = s.name)).map (·.body.positions)).getD []
  else if s.kind.isParameter then ((m.valueParams.find? (·.1 = s.name)).map ([·.2])).getD []
  else []

/-- References are symbols that a name led to. -/
theorem Scope.exists_of_mem_refs {scope : Scope} {terms : List TypeTerm} {r : SymbolId}
    (hr : r ∈ (scope.resolvePosition terms).refs) :
    ∃ id filter, scope.table.resolveId id filter = .found r := by
  obtain ⟨-, hrefs, -⟩ := scope.resolvePosition_eq terms
  rw [hrefs] at hr
  obtain ⟨term, -, hr⟩ := List.mem_flatMap.1 hr
  cases term with
  | named id =>
      change r ∈ (scope.resolveType id).refs at hr
      unfold resolveType at hr
      split at hr
      · next symbol hfound =>
          rw [List.mem_singleton.1 hr]
          exact ⟨id, _, Table.resolveOrProblem_eq_ok.1 hfound⟩
      · cases hr
  | enumeration elements span =>
      change r ∈ (elements.foldl scope.readElement {}).refs at hr
      refine List.foldlRecOn (motive := fun reading : Reading => r ∈ reading.refs →
        ∃ id filter, scope.table.resolveId id filter = .found r) elements _ (fun h => by cases h)
        (fun reading ih element _ => ?_) hr
      cases element with
      | constant id =>
          simp only [readElement]
          split
          · exact ih
          · next symbol hfound =>
              have hsnoc : r ∈ reading.refs ++ [symbol] →
                  ∃ id filter, scope.table.resolveId id filter = .found r := by
                intro hmem
                rcases List.mem_append.1 hmem with hmem | hmem
                · exact ih hmem
                · rw [List.mem_singleton.1 hmem]
                  exact ⟨id, _, Table.resolveOrProblem_eq_ok.1 hfound⟩
              split
              · exact hsnoc
              · exact hsnoc
              · exact ih
      | literal literal span => cases literal <;> exact ih
      | range low high span =>
          simp only [readElement]
          split <;> exact ih

theorem SymbolKind.eq_of_isParameter {kind : SymbolKind} (h : kind.isParameter = true) :
    kind = .userConstant .parameter := by
  unfold isParameter at h
  split at h
  · rfl
  · cases h

namespace Draft

variable {m : Module} {imported start e d : Draft} {origin : Table} {declarations : Declarations}
  {x r : SymbolId}

/-- The positions of the declaration that a symbol stands for, as the draft resolves them. -/
def positionsOf (m : Module) (d : Draft) (x : SymbolId) : List Position :=
  (d.table.termsOf m x).map (d.scope m (d.table.symbolAt x).name).resolvePosition

/-- Only symbols that the module declares have positions. -/
theorem owns_of_mem_positionsOf {q : Position} (hq : q ∈ d.positionsOf m x) :
    d.table.Owns x ∧ ((d.table.kindOf x).isDeclaredType = true ∨
      (d.table.kindOf x).isParameter = true) := by
  obtain ⟨terms, hterms, -⟩ := List.mem_map.1 hq
  suffices h : (d.table.symbolAt x).isSettled = false ∧ ((d.table.kindOf x).isDeclaredType = true ∨
      (d.table.kindOf x).isParameter = true) by
    refine ⟨⟨Table.holds_of_kindOf fun heq => ?_, h.1⟩, h.2⟩
    rw [heq] at h
    rcases h.2 with hkind | hkind <;> cases hkind
  unfold Table.termsOf at hterms
  dsimp only at hterms
  split at hterms
  · cases hterms
  · next hsettled =>
      refine ⟨Bool.not_eq_true _ ▸ hsettled, ?_⟩
      split at hterms
      · next hkind => exact .inl hkind
      · split at hterms
        · next hkind => exact .inr hkind
        · cases hterms

/-- What the terms and enumeration elements of a declaration resolve to. -/
def refsOf (m : Module) (d : Draft) (x : SymbolId) : List SymbolId :=
  (d.positionsOf m x).flatMap Position.refs

/-- Some term of the declaration does not resolve. -/
def Unresolved (m : Module) (d : Draft) (x : SymbolId) : Prop :=
  ∃ p ∈ d.positionsOf m x, p.isOk = false

/-- What fails if failures spread along certain references: the least set with the declarations that
have terms that do not resolve which is closed under these references. -/
inductive Lapses (m : Module) (d : Draft) (spreads : SymbolId → SymbolId → Prop) : SymbolId → Prop
  | unresolved {x : SymbolId} (h : d.Unresolved m x) : Lapses m d spreads x
  | through {x r : SymbolId} (href : r ∈ d.refsOf m x) (hr : Lapses m d spreads r)
      (hspreads : spreads x r) : Lapses m d spreads x

/-- A failure spreads from `r` to the declaration `x` that refers to it, unless `r` is a parameter
that fails through its references: this is noticed by later parameters only. -/
def Relays (m : Module) (d : Draft) (x r : SymbolId) : Prop :=
  (d.table.kindOf r).isParameter = true →
    d.Unresolved m r ∨ (d.table.kindOf x).isParameter = true ∧ r.index < x.index

/-! ## The order of parameters -/

/-- What is known after some parameters were registered. -/
def InOrder (params : List Parameter) (d : Draft) : Prop :=
  params.Pairwise (·.symbol.index < ·.symbol.index) ∧ ∀ p ∈ params, d.table.Holds p.symbol

theorem ends_registerParam_inOrder {params : List Parameter} (param : Param) :
    Ends (InOrder params) (registerParam m param) fun p => InOrder (params ++ p.toList) := by
  cases param with
  | model reference =>
      refine ends_pure fun d hd => ?_
      rw [Option.toList_none, List.append_nil]
      exact hd
  | value name type span =>
      refine Ends.bind (Q := fun symbol d => InOrder params d ∧
        ∀ x, symbol = some x → d.table.Holds x ∧ ∀ p ∈ params, p.symbol.index < x.index)
        (ends_registerNamed ?_ fun d hd _ => ⟨hd, fun _ h => by cases h⟩) fun symbol => ?_
      · refine ends_modifyGet fun d hd => ?_
        rcases d.table.register_cases .root name 0 (m.locate span) (.userConstant .parameter) with
          ⟨-, hregister⟩ | ⟨previous, -, hregister⟩
        · rw [hregister]
          refine ⟨⟨hd.1.1, fun p hp => Table.holds_withSymbol.2 (Nat.le_of_lt (hd.1.2 p hp))⟩, ?_⟩
          rintro x ⟨⟩
          exact ⟨Table.holds_withSymbol.2 (Nat.le_refl _), hd.1.2⟩
        · rw [hregister]
          exact ⟨hd.1, fun _ h => by cases h⟩
      · refine ends_pure fun d hd => ?_
        cases symbol with
        | none =>
            rw [Option.map_none, Option.toList_none, List.append_nil]
            exact hd.1
        | some x =>
            obtain ⟨hholds, hlt⟩ := hd.2 x rfl
            rw [Option.map_some, Option.toList_some]
            refine ⟨List.pairwise_append.2 ⟨hd.1.1, List.pairwise_singleton .., ?_⟩, ?_⟩
            · intro p hp q hq
              rw [List.mem_singleton.1 hq]
              exact hlt p hp
            · intro p hp
              rcases List.mem_append.1 hp with hp | hp
              · exact hd.1.2 p hp
              · rw [List.mem_singleton.1 hp]
                exact hholds

/-- Parameters are registered one after the other. -/
theorem pairwise_params (hrun : registerDeclarations m imported = .ok declarations start) :
    declarations.params.Pairwise (·.symbol.index < ·.symbol.index) := by
  obtain ⟨_, _, _, constant, bound, _, -, -, -, hparams, -, -⟩ := registerDeclarations_eq_ok hrun
  have hends : Ends (fun _ => True)
      (if m.kind = .transform then m.params.filterMapM (registerParam m) else pure [])
      fun params _ => params.Pairwise (·.symbol.index < ·.symbol.index) :=
    .ite (fun _ => (ends_filterMapM (motive := fun _ => InOrder)
        fun _ _ param _ _ => ends_registerParam_inOrder param).imp
        (fun _ _ => ⟨.nil, fun _ h => absurd h List.not_mem_nil⟩) fun _ _ hd => hd.1)
      fun _ => ends_pure fun _ _ => .nil
  exact hends constant declarations.params bound trivial hparams

/-! ## What falls is what lapses -/

theorem isParameter_of_alike (halike : start.table.Alike e.table) (x : SymbolId) :
    (e.table.kindOf x).isParameter = (start.table.kindOf x).isParameter := by
  rw [← isParameter_unsized, halike.unsized, isParameter_unsized]

theorem resolvePosition_of_alike (hnames : e.names = start.names)
    (halike : start.table.Alike e.table) (owner : Name) :
    (e.scope m owner).resolvePosition = (start.scope m owner).resolvePosition := by
  have hscope : (start.scope m owner).table.Alike e.table := halike
  rw [← Scope.resolvePosition_alike hscope, scope, hnames]
  rfl

/-- Looking through parameters adds none but them. -/
theorem fallen_of_append {done rest : List Parameter}
    (h : Fallen m start declarations (done ++ rest) x) (hx : ∀ p ∈ rest, x ≠ p.symbol) :
    Fallen m start declarations done x := by
  induction rest using List.reverseRecOn with
  | nil => rwa [List.append_nil] at h
  | append_singleton rest p ih =>
      rw [← List.append_assoc] at h
      rcases fallen_snoc.1 h with h | ⟨rfl, -⟩
      · exact ih h fun q hq => hx q (List.mem_append_left _ hq)
      · exact absurd rfl (hx p (List.mem_append_right _ List.mem_cons_self))

theorem fallen_append {done : List Parameter} (h : Fallen m start declarations done x)
    (rest : List Parameter) : Fallen m start declarations (done ++ rest) x := by
  induction rest using List.reverseRecOn with
  | nil => rwa [List.append_nil]
  | append_singleton rest p ih =>
      rw [← List.append_assoc]
      exact fallen_snoc.2 (.inl ih)

theorem fallen_cases {params : List Parameter} (h : Fallen m start declarations params x) :
    Falls m start declarations x ∨ ∃ p ∈ params, p.symbol = x := by
  by_cases hx : ∃ p ∈ params, p.symbol = x
  · exact .inr hx
  · have h : Fallen m start declarations ([] ++ params) x := h
    exact .inl (fallen_of_append h fun p hp heq => hx ⟨p, hp, heq.symm⟩)

section

variable (hstart : Registered m origin declarations start)
include hstart

/-- References are not sorts. -/
theorem Registered.not_isSort_of_mem_refs {owner : Name} {terms : List TypeTerm}
    (hr : r ∈ ((start.scope m owner).resolvePosition terms).refs) : ¬ start.table.IsSort r := by
  obtain ⟨id, filter, hfound⟩ := Scope.exists_of_mem_refs hr
  obtain ⟨ns, name, hname⟩ := hstart.intact.formed.tree.exists_of_resolveId_eq_found hfound
  obtain ⟨hholds, -, rfl, hnamed⟩ := hstart.intact.formed.arena.entry hname
  intro hsort
  obtain ⟨data, hdata⟩ := Table.isSort_iff_dataOf?.1 hsort
  rw [(hstart.intact.formed.families.named hholds).2 ⟨data, Table.dataOf?_eq_some_iff.1 hdata⟩]
    at hnamed
  cases hnamed

theorem Registered.isParameter_type {b : Declaration} (hb : b ∈ declarations.types) :
    (start.table.kindOf b.symbol).isParameter = false := by
  have htype := (hstart.listsTypes.mem_iff.1 (List.mem_map_of_mem hb)).2
  refine Bool.eq_false_iff.2 fun hparam => ?_
  rw [SymbolKind.eq_of_isParameter hparam] at htype
  cases htype

/-- A parameter falls only by its own problems. -/
theorem Falls.unresolved_param (h : Falls m start declarations x)
    (hparam : (start.table.kindOf x).isParameter = true) :
    ∃ p ∈ declarations.params, (start.resolvedParam m p).isOk = false ∧ x = p.symbol := by
  have hnot : ∀ b ∈ declarations.types, x ∉ start.table.holders b.symbol := by
    intro b hb hx
    rcases hstart.intact.formed.toRegular.mem_holders_cases hx with rfl | hdata
    · cases (hstart.isParameter_type hb).symm.trans hparam
    · rw [← isParameter_unsized, Table.dataOf?_eq_some_iff.1 hdata] at hparam
      cases hparam
  cases h with
  | flawed h =>
      rcases h with ⟨b, hb, -, hx⟩ | h
      · exact absurd hx (hnot b hb)
      · exact h
  | spread hb _ _ hx => exact absurd hx (hnot _ hb)

variable (hnames : e.names = start.names) (halike : start.table.Alike e.table)
include hnames halike

/-- A type declaration resolves as it did when it was registered. -/
theorem positionsOf_type {b : Declaration} (hb : b ∈ declarations.types) :
    e.positionsOf m b.symbol = (start.resolved m b).positions := by
  obtain ⟨howns, htype⟩ := hstart.listsTypes.mem_iff.1 (List.mem_map_of_mem hb)
  have hsettled := (halike.owns.2 howns).unsettled
  have hname : (e.table.symbolAt b.symbol).name = b.decl.name :=
    (halike.name _).trans (hstart.decl b hb).name
  have hkind : (e.table.symbolAt b.symbol).kind.isDeclaredType = true := by
    change (e.table.kindOf b.symbol).isDeclaredType = true
    rw [← isDeclaredType_unsized, halike.unsized, isDeclaredType_unsized, htype]
  rw [positionsOf, Table.termsOf, hname, hsettled, if_neg Bool.false_ne_true, if_pos hkind,
    hstart.firstTypes b hb, resolvePosition_of_alike hnames halike]
  rfl

/-- A parameter resolves as it did when it was registered. -/
theorem positionsOf_param {p : Parameter} (hp : p ∈ declarations.params) :
    e.positionsOf m p.symbol = [start.resolvedParam m p] := by
  obtain ⟨howns, hparam⟩ := hstart.listsParams.mem_iff.1 (List.mem_map_of_mem hp)
  have hsettled := (halike.owns.2 howns).unsettled
  have hname : (e.table.symbolAt p.symbol).name = p.name :=
    (halike.name _).trans (hstart.param p hp)
  have hkind : (e.table.symbolAt p.symbol).kind = .userConstant .parameter :=
    SymbolKind.eq_of_isParameter ((isParameter_of_alike halike _).trans hparam)
  rw [positionsOf, Table.termsOf, hname, hsettled, if_neg Bool.false_ne_true, hkind,
    hstart.firstParams p hp, resolvePosition_of_alike hnames halike]
  rfl

omit hnames in
/-- A symbol with positions was registered for a declaration. -/
theorem declared_of_mem_positionsOf {q : Position} (hq : q ∈ e.positionsOf m x) :
    (∃ b ∈ declarations.types, b.symbol = x) ∨ ∃ p ∈ declarations.params, p.symbol = x := by
  obtain ⟨howns, hkind⟩ := owns_of_mem_positionsOf hq
  rw [← isDeclaredType_unsized, halike.unsized, isDeclaredType_unsized,
    isParameter_of_alike halike] at hkind
  have howns := halike.owns.1 howns
  exact hkind.imp (fun hkind => List.mem_map.1 (hstart.listsTypes.mem_iff.2 ⟨howns, hkind⟩))
    fun hkind => List.mem_map.1 (hstart.listsParams.mem_iff.2 ⟨howns, hkind⟩)

/-- What falls among the types lapses. -/
theorem Falls.lapses (h : Falls m start declarations x) (hsort : ¬ start.table.IsSort x) :
    Lapses m e (e.Relays m) x := by
  have hself : ∀ {b : Declaration} {y}, b ∈ declarations.types → ¬ start.table.IsSort y →
      y ∈ start.table.holders b.symbol → y = b.symbol := by
    intro b y hb hy hmem
    rcases hstart.intact.formed.toRegular.mem_holders_cases hmem with heq | hdata
    · exact heq
    · exact absurd (Table.isSort_iff_dataOf?.2 ⟨_, hdata⟩) hy
  induction h with
  | @flawed x h =>
      refine .unresolved ?_
      rcases h with ⟨b, hb, hflawed, hx⟩ | ⟨p, hp, hproblem, rfl⟩
      · obtain rfl := hself hb hsort hx
        rw [Unresolved, positionsOf_type hstart hnames halike hb]
        rw [isFlawed, Bool.not_eq_true', List.all_eq_false] at hflawed
        simpa only [Bool.not_eq_true] using hflawed
      · rw [Unresolved, positionsOf_param hstart hnames halike hp]
        exact ⟨_, List.mem_singleton_self _, hproblem⟩
  | @spread b r x hb href hr hx ih =>
      obtain rfl := hself hb hsort hx
      obtain ⟨q, hq, hrq⟩ := List.mem_flatMap.1 href
      obtain ⟨terms, -, hresolved⟩ := List.mem_map.1 hq
      have hrsort : ¬ start.table.IsSort r :=
        hstart.not_isSort_of_mem_refs (by rw [hresolved]; exact hrq)
      refine .through ?_ (ih hrsort) fun hparam => .inl ?_
      · rw [refsOf, positionsOf_type hstart hnames halike hb]
        exact href
      · rw [isParameter_of_alike halike] at hparam
        obtain ⟨p, hp, hproblem, rfl⟩ := hr.unresolved_param hstart hparam
        rw [Unresolved, positionsOf_param hstart hnames halike hp]
        exact ⟨_, List.mem_singleton_self _, hproblem⟩

/-- What has fallen after the parameters were looked through lapses. -/
theorem lapses_of_fallen (hordered : declarations.params.Pairwise (·.symbol.index < ·.symbol.index))
    {done rest : List Parameter} (hall : declarations.params = done ++ rest)
    (h : Fallen m start declarations done x) (hsort : ¬ start.table.IsSort x) :
    Lapses m e (e.Relays m) x := by
  induction done using List.reverseRecOn generalizing rest x with
  | nil => exact Falls.lapses hstart hnames halike h hsort
  | append_singleton done p ih =>
      rw [List.append_assoc] at hall
      rcases fallen_snoc.1 h with h | ⟨rfl, r, href, hr⟩
      · exact ih hall h hsort
      · have hp : p ∈ declarations.params := by
          rw [hall]
          exact List.mem_append_right _ List.mem_cons_self
        refine .through ?_ (ih hall hr (hstart.not_isSort_of_mem_refs href)) fun hparam => ?_
        · rw [refsOf, positionsOf_param hstart hnames halike hp, List.flatMap_singleton]
          exact href
        rw [isParameter_of_alike halike] at hparam
        rcases fallen_cases hr with hfalls | ⟨p', hp', rfl⟩
        · obtain ⟨p', hp', hproblem, rfl⟩ := hfalls.unresolved_param hstart hparam
          rw [Unresolved, positionsOf_param hstart hnames halike hp']
          exact .inl ⟨_, List.mem_singleton_self _, hproblem⟩
        · rw [hall] at hordered
          refine .inr ⟨?_, (List.pairwise_append.1 hordered).2.2 p' hp' p List.mem_cons_self⟩
          rw [isParameter_of_alike halike, (hstart.kindOf_param hp).2]
          rfl

/-- A declaration falls by its own problems. -/
theorem Unresolved.falls (h : e.Unresolved m x) : Falls m start declarations x := by
  obtain ⟨q, hq, hproblem⟩ := h
  refine .flawed ?_
  rcases declared_of_mem_positionsOf hstart halike hq with ⟨b, hb, rfl⟩ | ⟨p, hp, rfl⟩
  · rw [positionsOf_type hstart hnames halike hb] at hq
    refine .inl ⟨b, hb, ?_, start.table.self_mem_holders b.symbol⟩
    rw [isFlawed, Bool.not_eq_true', List.all_eq_false]
    exact ⟨q, hq, by rw [hproblem]; exact Bool.false_ne_true⟩
  · rw [positionsOf_param hstart hnames halike hp, List.mem_singleton] at hq
    exact .inr ⟨p, hp, hq ▸ hproblem, rfl⟩

/-- What lapses has fallen once all parameters were looked through. -/
theorem Lapses.fallen (hordered : declarations.params.Pairwise (·.symbol.index < ·.symbol.index))
    (h : Lapses m e (e.Relays m) x) : Fallen m start declarations declarations.params x := by
  induction h with
  | unresolved h => exact (h.falls hstart hnames halike).fallen _
  | @through x r href hr hrelays ih =>
      obtain ⟨q, hq, hrq⟩ := List.mem_flatMap.1 href
      -- A parameter that fails through its references is noticed by later parameters only.
      have hfalls : (e.table.kindOf x).isParameter = true ∧
          (∃ p ∈ declarations.params, p.symbol = r ∧ r.index < x.index) ∨
          Falls m start declarations r := by
        rcases fallen_cases ih with hfalls | ⟨p, hp, rfl⟩
        · exact .inr hfalls
        · have hparam : (e.table.kindOf p.symbol).isParameter = true := by
            rw [isParameter_of_alike halike, (hstart.kindOf_param hp).2]
            rfl
          rcases hrelays hparam with hown | ⟨hx, hlt⟩
          · exact .inr (hown.falls hstart hnames halike)
          · exact .inl ⟨hx, p, hp, rfl, hlt⟩
      rcases declared_of_mem_positionsOf hstart halike hq with ⟨b, hb, rfl⟩ | ⟨p, hp, rfl⟩
      · rcases hfalls with ⟨hparam, -⟩ | hfalls
        · rw [isParameter_of_alike halike] at hparam
          cases (hstart.isParameter_type hb).symm.trans hparam
        · rw [refsOf, positionsOf_type hstart hnames halike hb] at href
          exact (Falls.spread hb href hfalls (start.table.self_mem_holders _)).fallen _
      · obtain ⟨done, rest, hall⟩ := List.append_of_mem hp
        rw [refsOf, positionsOf_param hstart hnames halike hp, List.flatMap_singleton] at href
        have hbefore : Fallen m start declarations done r := by
          rcases hfalls with ⟨-, p', hp', rfl, hlt⟩ | hfalls
          · rw [hall] at ih hordered
            refine fallen_of_append ih fun q hq heq => ?_
            -- All that follow come later than the parameter itself.
            rcases List.mem_cons.1 hq with rfl | hq
            · exact absurd (heq ▸ hlt) (Nat.lt_irrefl _)
            · have := (List.pairwise_cons.1 (List.pairwise_append.1 hordered).2.1).1 q hq
              rw [← heq] at this
              exact absurd hlt (Nat.lt_asymm this)
          · exact hfalls.fallen _
        have hsnoc := fallen_snoc.2 (.inr ⟨rfl, r, href, hbefore⟩)
        rw [hall, List.append_cons]
        exact fallen_append hsnoc rest

end

/-- Without parameters that fail through their references, all references pass failures on. -/
theorem Lapses.relayed {spreads : SymbolId → SymbolId → Prop} (h : Lapses m d spreads x)
    (hown : ∀ r, Lapses m d (d.Relays m) r → (d.table.kindOf r).isParameter = true →
      d.Unresolved m r) : Lapses m d (d.Relays m) x := by
  induction h with
  | unresolved h => exact .unresolved h
  | through href _ _ ih => exact .through href ih fun hparam => .inl (hown _ ih hparam)

theorem Lapses.owns {spreads : SymbolId → SymbolId → Prop} (h : Lapses m d spreads x) :
    d.table.Owns x := by
  cases h with
  | unresolved h =>
      obtain ⟨q, hq, -⟩ := h
      exact (owns_of_mem_positionsOf hq).1
  | through href _ _ =>
      obtain ⟨q, hq, -⟩ := List.mem_flatMap.1 href
      exact (owns_of_mem_positionsOf hq).1

theorem Lapses.mono {spreads spreads' : SymbolId → SymbolId → Prop} (h : Lapses m d spreads x)
    (hle : ∀ x r, spreads x r → spreads' x r) : Lapses m d spreads' x := by
  induction h with
  | unresolved h => exact .unresolved h
  | through href _ hspreads ih => exact .through href ih (hle _ _ hspreads)

/-- What is marked once declaring is over is what lapses, and forms are given to all else. -/
theorem Account.lapses (h : Account m origin declarations start d)
    (hordered : declarations.params.Pairwise (·.symbol.index < ·.symbol.index))
    (hnames : e.names = start.names) (halike : start.table.Alike e.table) (howns : e.table.Owns x)
    (hkind : (e.table.kindOf x).isDeclaredType = true ∨ (e.table.kindOf x).isParameter = true) :
    ((d.table.symbolAt x).failed = true ↔ Lapses m e (e.Relays m) x) ∧
      ((d.table.symbolAt x).canonical.isSome = true ↔ (d.table.symbolAt x).failed = false) := by
  rw [← isDeclaredType_unsized, halike.unsized, isDeclaredType_unsized,
    isParameter_of_alike halike] at hkind
  have howns := halike.owns.1 howns
  have hsort : ¬ start.table.IsSort x := by
    rintro ⟨_, hsort⟩
    rw [← isDeclaredType_unsized, ← isParameter_unsized, hsort] at hkind
    rcases hkind with hkind | hkind <;> cases hkind
  refine ⟨(h.failed_iff x).trans ⟨fun hx => ?_, fun hx => ?_⟩, fun hform => ?_, fun hstands => ?_⟩
  · exact lapses_of_fallen h.registered hnames halike hordered (List.append_nil _).symm hx hsort
  · exact hx.fallen h.registered hnames halike hordered
  · obtain ⟨form, hform⟩ := Option.isSome_iff_exists.1 hform
    exact h.stands howns hkind hform
  · rcases hkind with hkind | hkind
    · obtain ⟨b, hb, rfl⟩ := List.mem_map.1 (h.registered.listsTypes.mem_iff.2 ⟨howns, hkind⟩)
      rw [h.type b hb hstands]
      rfl
    · obtain ⟨p, hp, rfl⟩ := List.mem_map.1 (h.registered.listsParams.mem_iff.2 ⟨howns, hkind⟩)
      rw [h.param p hp hstands]
      rfl

end Draft

section

variable {names names' : Interner} {tables : List Table} {id : TableId} {library : Library}
  {config : CheckConfig} {m : Module} {out : CheckOutput}

/-- In a check that is not cancelled, a type or a parameter that the module declares is marked as
failed just if it has a term that does not resolve, or a reference along which a failure spreads to
it; and it has a form just if it is not marked.  Where no parameter fails through its references,
failures spread along all references. -/
theorem checkModule_lapses (h : Session names tables)
    (held : ∀ entry ∈ library.tables, entry.2 ∈ tables)
    (checked : checkModule names id library config m = (names', .ok out))
    (uncancelled : out.cancelled = false) {x : SymbolId} (own : out.table.Owns x)
    (declared : (out.table.kindOf x).isDeclaredType = true ∨
      (out.table.kindOf x).isParameter = true) :
    let d : Draft := { names := names', table := out.table }
    ((out.table.symbolAt x).failed = true ↔ d.Lapses m (d.Relays m) x) ∧
      ((out.table.symbolAt x).canonical.isSome = true ↔ (out.table.symbolAt x).failed = false) ∧
      ((∀ p, out.table.Owns p → (out.table.kindOf p).isParameter = true →
          (out.table.symbolAt p).failed = true → d.Unresolved m p) →
        ((out.table.symbolAt x).failed = true ↔ d.Lapses m (fun _ _ => True) x)) := by
  obtain ⟨d, hrun, rfl, hreads⟩ := checkModule_uncancelled checked uncancelled
  obtain ⟨imported, base, hstaged⟩ := h.staged held hrun
  obtain ⟨declarations, start, hregister, haccount⟩ := hstaged.account
  have hjudged := Draft.judged_of_judge hstaged.declared hstaged.unsized hstaged.judges
  have hwritten := hjudged.written.trans
    (.of_eq hreads.id_eq hreads.namespaces_eq hreads.symbols_eq)
  intro e
  have hnames : e.names = start.names := hjudged.names_eq.trans haccount.names_eq
  have halike : start.table.Alike e.table := haccount.alike.trans hwritten.toAlike
  have hall : ∀ {y}, e.table.Owns y → (e.table.kindOf y).isDeclaredType = true ∨
      (e.table.kindOf y).isParameter = true →
      ((e.table.symbolAt y).failed = true ↔ e.Lapses m (e.Relays m) y) ∧
        ((e.table.symbolAt y).canonical.isSome = true ↔ (e.table.symbolAt y).failed = false) := by
    intro y hown hkind
    rw [hwritten.failed, hwritten.canonical]
    exact haccount.lapses (Draft.pairwise_params hregister) hnames halike hown hkind
  obtain ⟨hfailed, hform⟩ := hall own declared
  refine ⟨hfailed, hform, fun hparams => hfailed.trans ⟨fun hx => hx.mono fun _ _ _ => trivial,
    fun hx => hx.relayed fun r hr hkind => ?_⟩⟩
  exact hparams r hr.owns hkind ((hall hr.owns (.inr hkind)).1.2 hr)

end

namespace Belated

/-- The names of the module `T`, of its parameter `p`, of the types `A` and `B`, and a name that
nothing has. -/
def names : Interner := internAll ["T", "p", "A", "B", "Missing"]

/-- The type `A` has a term that does not resolve.  The parameter `p` refers to `A`, and the type
`B` to `p`. -/
def referring : Module where
  kind := .transform
  name := ⟨28⟩
  file := ⟨0⟩
  params := [.value ⟨29⟩ [.named { segments := [⟨30⟩] }] {}]
  types :=
    [⟨⟨30⟩, {}, .constructor true [{ type := [.named { segments := [⟨32⟩] }] }]⟩,
     ⟨⟨31⟩, {}, .constructor true
        [{ type := [.enumeration [.constant { segments := [⟨29⟩] }] {}] }]⟩]

def result : Interner × Except Fault CheckOutput := checkModule names ⟨0⟩ {} {} referring

/-- Whether the failure of `A` reaches `p`, but not `B`, which has the handle 24. -/
def stopsShort (out : CheckOutput) : Bool :=
  let d : Draft := { names := result.1, table := out.table }
  !out.cancelled && decide (27 < out.table.symbols.size) && !(out.table.symbolAt ⟨24⟩).isSettled &&
    (out.table.kindOf ⟨24⟩).isDeclaredType && !(out.table.symbolAt ⟨24⟩).failed &&
    !(out.table.symbolAt ⟨27⟩).isSettled && (out.table.kindOf ⟨27⟩).isParameter &&
    decide (⟨27⟩ ∈ d.refsOf referring ⟨24⟩) && decide (⟨21⟩ ∈ d.refsOf referring ⟨27⟩) &&
    (d.positionsOf referring ⟨21⟩).any fun p => !p.isOk

theorem stopsShort_result : result.2.toOption.any stopsShort = true := by decide +kernel

/-- The parameter is marked and has no form, as the failure of `A` spreads to it. -/
theorem checkModule_lapses_parameter : ∃ names' out,
    checkModule names ⟨0⟩ {} {} referring = (names', .ok out) ∧ out.cancelled = false ∧
      out.table.Owns ⟨27⟩ ∧ (out.table.kindOf ⟨27⟩).isParameter = true ∧
        (out.table.symbolAt ⟨27⟩).failed = true ∧
          (out.table.symbolAt ⟨27⟩).canonical.isSome = false := by
  obtain ⟨out, checked, hstops⟩ := exists_of_any_toOption stopsShort_result
  simp only [stopsShort, Bool.and_eq_true, Bool.not_eq_true', decide_eq_true_eq,
    List.any_eq_true] at hstops
  obtain ⟨⟨⟨⟨⟨⟨⟨⟨⟨huncancelled, hholds⟩, -⟩, -⟩, -⟩, hunsettled⟩, hkind⟩, -⟩, hdata⟩,
    hproblem⟩ := hstops
  obtain ⟨hfailed, hform, -⟩ := checkModule_lapses (session_internAll _)
    (fun _ h => absurd h List.not_mem_nil) checked huncancelled ⟨hholds, hunsettled⟩ (.inr hkind)
  have hmarked := hfailed.2 (.through hdata (.unresolved hproblem) fun _ => .inl hproblem)
  refine ⟨result.1, out, checked, huncancelled, ⟨hholds, hunsettled⟩, hkind, hmarked, ?_⟩
  rw [Bool.eq_false_iff]
  intro hsome
  exact absurd (hmarked.symm.trans (hform.1 hsome)) (by decide)

/-- The type `B` refers to a parameter that failed, but it is not marked itself. -/
theorem not_checkModule_spreads : ¬ ∀ names' out,
    checkModule names ⟨0⟩ {} {} referring = (names', .ok out) → out.cancelled = false →
      ∀ x, out.table.Owns x → (out.table.kindOf x).isDeclaredType = true →
        let d : Draft := { names := names', table := out.table }
        ((out.table.symbolAt x).failed = true ↔ d.Lapses referring (fun _ _ => True) x) := by
  intro hspreads
  obtain ⟨out, checked, hstops⟩ := exists_of_any_toOption stopsShort_result
  simp only [stopsShort, Bool.and_eq_true, Bool.not_eq_true', decide_eq_true_eq,
    List.any_eq_true] at hstops
  obtain ⟨⟨⟨⟨⟨⟨⟨⟨⟨huncancelled, hholds⟩, hunsettled⟩, hkind⟩, hstands⟩, -⟩, -⟩, hparam⟩, hdata⟩,
    hproblem⟩ := hstops
  have hholds : out.table.Holds ⟨24⟩ := Nat.lt_trans (by decide) hholds
  have hfailed := (hspreads result.1 out checked huncancelled ⟨24⟩ ⟨hholds, hunsettled⟩ hkind).2
    (.through hparam (.through hdata (.unresolved hproblem) trivial) trivial)
  exact absurd (hstands.symm.trans hfailed) Bool.false_ne_true

end Belated

end ManySorted
