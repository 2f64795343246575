import ManySorted.Proofs.Sizing.Progress

/-!
# Recursion through relational positions

A map must not depend on itself through a codomain position that is relational.  The check looks for
such a position by its node in the graph of sizes: it lies in one component with the sort that it
belongs to.  In terms of forms, the position accepts a sort from which the sort of the map can be
reached (`Table.Recurs`).  A position can be left for sorts only, and it is entered from its own
sort only, so the two come to the same (`Table.Regular.mem_recursions_iff`), and each recursion is
reported just once (`checkModule_recursions`).

## Strategy

* **Edges.**  A bounded position is entered from its own sort only, so it is found at the edge from
  there (`Table.recursion?_eq_some_iff`).
* **Cycles.**  A position leads back to its sort if the sort can be reached from one that it accepts
  (`Table.Regular.leads_back_iff`), which can be told from forms
  (`Table.Regular.mem_recursions_iff`).
* **Once each.**  Nodes are distinct, and each edge is looked at in one component, so no recursion
  is reported twice (`Table.Regular.nodup_recursions`).
* **Checks.**  Of all that is reported, only the cycles of sizing are relational errors.
-/

namespace ManySorted

open Relation (ReflTransGen)

/-- Whether a problem is a recursion through a relational position. -/
def Problem.isRelational : Problem → Bool
  | relational .. => true
  | _ => false

/-- Just the codomain of a map is bounded, where it is not marked `any`. -/
theorem SymbolKind.isUnbounded_eq_false_iff {kind : SymbolKind} {position : Nat} :
    kind.isUnbounded position = false ↔ (∃ shape isPartial domainArity info,
      kind = .data (.map shape isPartial domainArity) info ∧ domainArity ≤ position) ∧
        kind.isAny position = false := by
  unfold isUnbounded
  split
  · next shape isPartial domainArity info =>
      rw [Bool.or_eq_false_iff, decide_eq_false_iff_not, Nat.not_lt]
      refine and_congr_left fun _ =>
        ⟨fun hle => ⟨shape, isPartial, domainArity, info, rfl, hle⟩, ?_⟩
      rintro ⟨_, _, _, _, ⟨⟩, hle⟩
      exact hle
  · next hother =>
      refine iff_of_false (fun h => by cases h) ?_
      rintro ⟨⟨shape, isPartial, domainArity, info, rfl, -⟩, -⟩
      exact hother _ _ _ _ rfl

namespace Table

variable {names : Interner} {t : Table} {d s : SymbolId} {n : SizeNode} {position : Nat}

/-- A productive map of the module accepts, at a codomain position that is not marked `any`, the
sort of productive data of the module from which its own sort can be reached. -/
structure Recurs (t : Table) (d : SymbolId) (position : Nat) : Prop where
  productive : d ∈ t.productiveData
  codomain : ∃ shape isPartial domainArity info,
    t.kindOf d = .data (.map shape isPartial domainArity) info ∧ domainArity ≤ position
  lt : position < (t.symbolAt d).arity
  relational : (t.kindOf d).isAny position = false
  reached : ∃ s v s', t.sortOf? d = some s ∧ (t.symbolAt d).accepted? position = some v ∧
    s' ∈ v.sorts ∧ (∃ d' ∈ t.productiveData, t.dataOf? s' = some d') ∧
      ReflTransGen t.DependsOn s' s

/-- The report about a recursion. -/
def recursionReport (t : Table) (names : Interner) (recursion : SymbolId × Nat) : Report where
  location := (t.symbolAt recursion.1).location
  problem := .relational (t.qualifiedName names recursion.1)
    (t.positionName names recursion.1 recursion.2)

open Classical in
/-- The position that an edge leads to, if it is bounded and depends on the node that it is left
from. -/
noncomputable def recursion? (t : Table) (n : SizeNode) (edge : SizeNode × Bool) :
    Option (SymbolId × Nat) :=
  if edge.2 ∨ ¬ ReflTransGen t.ownGraph.Leads edge.1 n then none
  else
    match edge.1 with
    | .sort _ => none
    | .slot s position => (t.dataOf? s).map (·, position)

theorem recursion?_eq_some_iff {edge : SizeNode × Bool} :
    t.recursion? n edge = some (d, position) ↔
      edge.2 = false ∧ ReflTransGen t.ownGraph.Leads edge.1 n ∧
        ∃ s, edge.1 = .slot s position ∧ t.dataOf? s = some d := by
  unfold recursion?
  split
  · next hnot =>
      refine iff_of_false (fun h => by cases h) ?_
      rintro ⟨hmark, hback, -⟩
      exact hnot.elim (fun h => Bool.false_ne_true (hmark.symm.trans h)) fun h => h hback
  · next hback =>
      obtain ⟨hmark, hback⟩ := not_or.1 hback
      rw [Bool.eq_false_iff, ← not_not (a := ReflTransGen _ _ _), and_iff_right hmark,
        and_iff_right hback]
      cases edge.1 with
      | sort s => exact iff_of_false (fun h => by cases h) (by rintro ⟨_, ⟨⟩, -⟩)
      | slot s position' =>
          rw [Option.map_eq_some_iff]
          constructor
          · rintro ⟨d', hd', heq⟩
            cases heq
            exact ⟨s, rfl, hd'⟩
          · rintro ⟨_, heq, hs⟩
            cases heq
            exact ⟨d, hs, rfl⟩

/-- The bounded positions that a node depends on and that depend on it. -/
noncomputable def recursionsFrom (t : Table) (n : SizeNode) : List (SymbolId × Nat) :=
  (t.ownGraph.outlets n).filterMap (t.recursion? n)

/-- The recursions of all nodes. -/
noncomputable def recursions (t : Table) : List (SymbolId × Nat) :=
  t.sizedNodes.flatMap t.recursionsFrom

theorem cycleReports_eq_map (t : Table) (names : Interner) (n : SizeNode) :
    t.cycleReports names n = (t.recursionsFrom n).map (t.recursionReport names) := by
  rw [cycleReports, recursionsFrom, List.map_filterMap]
  refine List.filterMap_congr fun edge _ => ?_
  unfold recursion?
  split
  · rfl
  · cases edge.1 with
    | sort s => rfl
    | slot s position =>
        rw [cycleReport?, Option.map_map]
        rfl

section

variable (ht : t.Regular names)
include ht

/-- A position leads back to its sort if the sort can be reached from one that it accepts. -/
theorem Regular.leads_back_iff (hd : d ∈ t.productiveData) (hs : t.dataOf? s = some d)
    (hlt : position < (t.symbolAt d).arity) :
    ReflTransGen t.ownGraph.Leads (.slot s position) (.sort s) ↔
      ∃ v s', (t.symbolAt d).accepted? position = some v ∧ s' ∈ v.sorts ∧
        (∃ d' ∈ t.productiveData, t.dataOf? s' = some d') ∧ ReflTransGen t.DependsOn s' s := by
  constructor
  · intro h
    rcases ReflTransGen.cases_head h with heq | ⟨m, hleads, hback⟩
    · cases heq
    · obtain ⟨s', rfl, v, hv, hs', hown⟩ := (leads_slot_iff ht hd hs hlt).1 hleads
      exact ⟨v, s', hv, hs', hown, ht.reaches_iff.2 hback⟩
  · rintro ⟨v, s', hv, hs', hown, hback⟩
    exact .head ((leads_slot_iff ht hd hs hlt).2 ⟨s', rfl, v, hv, hs', hown⟩)
      (ht.reaches_iff.1 hback)

/-- Only sorts have recursions, namely those of the map that they belong to. -/
theorem Regular.mem_recursionsFrom_iff :
    (d, position) ∈ t.recursionsFrom n ↔ t.sortOf? d = n.sort? ∧ t.Recurs d position := by
  rw [recursionsFrom, List.mem_filterMap]
  constructor
  · rintro ⟨⟨m, mark⟩, hedge, hsome⟩
    obtain ⟨hmark, hback, s, rfl, hs⟩ := recursion?_eq_some_iff.1 hsome
    cases n with
    | slot s₀ position₀ =>
        -- the edges that leave a position lead to sorts
        obtain ⟨_, hnode, -⟩ := ht.exists_of_leads_slot ⟨_, hedge⟩
        cases hnode
    | sort s₀ =>
        obtain ⟨d₀, hd₀, hs₀⟩ := (has_sort_iff ht).1 (t.proper_ownGraph.has_of_mem_outlets hedge).1
        rw [outlets_sort ht hd₀ hs₀] at hedge
        obtain ⟨position₀, hlt, heq⟩ := List.mem_map.1 hedge
        cases heq
        cases hs.symm.trans hs₀
        have hlt := List.mem_range.1 hlt
        have hsort := (ht.families.sortOf?_iff (ht.arena.isData_of_productive hd₀)).2 hs
        obtain ⟨hcodomain, hrelational⟩ := SymbolKind.isUnbounded_eq_false_iff.1 hmark
        obtain ⟨v, s', hreached⟩ := (ht.leads_back_iff hd₀ hs hlt).1 hback
        exact ⟨hsort, hd₀, hcodomain, hlt, hrelational, s, v, s', hsort, hreached⟩
  · rintro ⟨hsort, hd, hcodomain, hlt, hrelational, s, v, s', hs, hv, hs', hown, hback⟩
    cases n with
    | slot => cases hs.symm.trans hsort
    | sort s₀ =>
        cases hs.symm.trans hsort
        have hs := (ht.families.sortOf?_iff (ht.arena.isData_of_productive hd)).1 hs
        have hbounded := SymbolKind.isUnbounded_eq_false_iff.2 ⟨hcodomain, hrelational⟩
        have hback := (ht.leads_back_iff hd hs hlt).2 ⟨v, s', hv, hs', hown, hback⟩
        refine ⟨(.slot s position, false), ?_, recursion?_eq_some_iff.2 ⟨rfl, hback, s, rfl, hs⟩⟩
        rw [outlets_sort ht hd hs]
        exact List.mem_map.2 ⟨position, List.mem_range.2 hlt, by rw [hbounded]⟩

/-- The recursions are those that can be told from forms. -/
theorem Regular.mem_recursions_iff : (d, position) ∈ t.recursions ↔ t.Recurs d position := by
  rw [recursions, List.mem_flatMap]
  constructor
  · rintro ⟨n, -, hmem⟩
    exact (ht.mem_recursionsFrom_iff.1 hmem).2
  · intro h
    obtain ⟨s, -, -, hs, -⟩ := h.reached
    refine ⟨.sort s, mem_sizedNodes.2 ((has_sort_iff ht).2 ⟨d, h.productive, ?_⟩),
      ht.mem_recursionsFrom_iff.2 ⟨hs, h⟩⟩
    exact (ht.families.sortOf?_iff (ht.arena.isData_of_productive h.productive)).1 hs

theorem Regular.nodup_recursions : t.recursions.Nodup := by
  rw [recursions, List.nodup_flatMap]
  refine ⟨fun n hn => ?_, t.nodup_sizedNodes.imp fun {n m} hne => ?_⟩
  · cases n with
    | slot s position =>
        have hnil : t.recursionsFrom (.slot s position) = [] := by
          refine List.eq_nil_iff_forall_not_mem.2 fun ⟨d, position'⟩ hp => ?_
          obtain ⟨hsort, h⟩ := ht.mem_recursionsFrom_iff.1 hp
          obtain ⟨_, _, _, hs, -⟩ := h.reached
          cases hs.symm.trans hsort
        rw [hnil]
        exact List.nodup_nil
    | sort s =>
        obtain ⟨d, hd, hs⟩ := (has_sort_iff ht).1 (mem_sizedNodes.1 hn)
        rw [recursionsFrom, outlets_sort ht hd hs, List.filterMap_map]
        refine List.nodup_range.filterMap fun i j p hi hj => ?_
        obtain ⟨-, -, _, heq, -⟩ := recursion?_eq_some_iff.1 hi
        obtain ⟨-, -, _, heq', -⟩ := recursion?_eq_some_iff.1 hj
        cases heq
        cases heq'
        rfl
  · rintro ⟨d, position⟩ hp hp'
    obtain ⟨hsort, h⟩ := ht.mem_recursionsFrom_iff.1 hp
    obtain ⟨hsort', -⟩ := ht.mem_recursionsFrom_iff.1 hp'
    obtain ⟨s, -, -, hs, -⟩ := h.reached
    rw [hs] at hsort hsort'
    exact hne ((SizeNode.sort?_eq_some_iff.1 hsort.symm).trans
      (SizeNode.sort?_eq_some_iff.1 hsort'.symm).symm)

end

/-- Of what sizing reports, the recursions are what is reported about relational positions. -/
theorem Intact.perm_filter_isRelational (ht : t.Intact names) :
    ((t.sizingReports names t.ownGraph [] t.ownGraph.components).filter
      (·.problem.isRelational)).Perm (t.recursions.map (t.recursionReport names)) := by
  refine (ht.perm_sizingReports.filter _).trans (.of_eq ?_)
  have hcycles : t.sizedNodes.flatMap (t.cycleReports names) =
      t.recursions.map (t.recursionReport names) := by
    rw [recursions, List.map_flatMap]
    exact List.flatMap_congr fun n _ => t.cycleReports_eq_map names n
  rw [List.filter_append, hcycles, List.filter_eq_self.2, List.filter_eq_nil_iff.2, List.append_nil]
  · intro r hr
    obtain ⟨s, -, hr⟩ := List.mem_flatMap.1 hr
    obtain ⟨d, -, hr⟩ := List.mem_flatMap.1 hr
    obtain ⟨misfit, -, rfl⟩ := List.mem_map.1 hr
    exact Bool.false_ne_true
  · intro r hr
    obtain ⟨recursion, -, rfl⟩ := List.mem_map.1 hr
    rfl

end Table

/-! ## The reports of a check -/

section

variable {names names' : Interner} {tables : List Table} {id : TableId} {library : Library}
  {config : CheckConfig} {m : Module} {out : CheckOutput}

/-- Relational errors are the recursive codomains: there is just one for each productive map of the
module and each of its codomain positions that is not marked `any` and accepts a sort from which its
own can be reached, and there are no others. -/
theorem checkModule_recursions (h : Session names tables)
    (held : ∀ entry ∈ library.tables, entry.2 ∈ tables)
    (checked : checkModule names id library config m = (names', .ok out))
    (uncancelled : out.cancelled = false) :
    ∃ recursions : List (SymbolId × Nat), recursions.Nodup ∧
      (∀ d position, (d, position) ∈ recursions ↔ out.table.Recurs d position) ∧
      (out.table.reports.filter (·.problem.isRelational)).Perm
        (recursions.map (out.table.recursionReport names')) := by
  have hintact := h.intact_of_check held checked
  have hregular := hintact.formed.toRegular
  obtain ⟨done, rest, hsized, hrest⟩ := h.sizedUpTo held checked
  obtain rfl := hrest uncancelled
  have hsizes := hsized.reports_eq
  rw [← List.append_nil done, ← hsized.components] at hsizes
  refine ⟨out.table.recursions, hregular.nodup_recursions, fun _ _ =>
    hregular.mem_recursions_iff, ?_⟩
  have hrelational : ∀ p : Problem, (p.isRelational && p.isOfSizes) = p.isRelational := by
    intro p
    cases p <;> rfl
  refine .trans (.of_eq ?_) hintact.perm_filter_isRelational
  rw [← hsizes, List.filter_filter]
  simp only [hrelational]

end

namespace Chained

/-- The names of the module `D`, of its maps `Chain` and `Loose` and of the position `next`. -/
def names : Interner := internAll ["D", "Chain", "Loose", "next"]

/-- A partial function from naturals to `{0}` and itself, whose codomain may be marked `any`. -/
def map (name : Nat) (any : Bool) : TypeDecl where
  name := ⟨name⟩
  body := .map .function true [{ type := [.named { segments := [⟨1⟩] }] }]
    [{ label := some ⟨31⟩
       type := [.named { segments := [⟨name⟩] }, .enumeration [.literal (.integer 0) {}] {}]
       any := any }]

/-- `Chain` is recursive through a relational position, `Loose` through one that is not. -/
def module : Module where
  kind := .domain
  name := ⟨28⟩
  file := ⟨0⟩
  types := [map 29 false, map 30 true]

def result : Interner × Except Fault CheckOutput := checkModule names ⟨0⟩ (.of []) {} module

/-- Whether a check is not cancelled and reports just that `Chain` is recursive. -/
def reportsChain (out : CheckOutput) : Bool :=
  !out.cancelled && (out.table.reports.filter (·.problem.isRelational)).map Report.problem ==
    [.relational "Chain" "next"]

theorem reportsChain_result : result.2.toOption.any reportsChain = true := by decide +kernel

/-- There is just one recursion. -/
theorem checkModule_recursions_chain : ∃ out,
    checkModule names ⟨0⟩ (.of []) {} module = (result.1, .ok out) ∧
      ∃ recursion : SymbolId × Nat,
        (∀ d position, recursion = (d, position) ↔ out.table.Recurs d position) ∧
          (out.table.recursionReport result.1 recursion).problem = .relational "Chain" "next" := by
  obtain ⟨out, checked, hreports⟩ := exists_of_any_toOption reportsChain_result
  simp only [reportsChain, Bool.and_eq_true, Bool.not_eq_true', beq_iff_eq] at hreports
  obtain ⟨uncancelled, hproblems⟩ := hreports
  obtain ⟨recursions, -, hrecurs, hperm⟩ := checkModule_recursions (session_internAll _)
    (fun _ h => absurd h List.not_mem_nil) checked uncancelled
  have hperm := hperm.map Report.problem
  rw [hproblems, List.map_map] at hperm
  obtain ⟨recursion, rfl, hproblem⟩ :=
    List.map_eq_singleton_iff.1 (List.perm_singleton.1 hperm.symm)
  refine ⟨out, checked, recursion, fun d position => ?_, hproblem⟩
  rw [← hrecurs, List.mem_singleton, eq_comm]

end Chained

end ManySorted
