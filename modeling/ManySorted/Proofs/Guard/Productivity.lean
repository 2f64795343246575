import ManySorted.Proofs.Guard.Table
import ManySorted.Proofs.Sizing.Safety

/-!
# The guarded search for productive data

The graph has two arrays, of nodes and of their states, and both are accessed at places: at those in
its index, at those that a node enables, and at those on the worklist.  All of them are places of
nodes (`ProductivityGraph.InRange`, `Solving.InRange`), from the first node that is added to the
last one that is taken, so the search agrees with its guarded counterpart.

## Strategy

* **Making the graph.**  A new node gets a state, and edges lead from nodes to nodes
  (`ProductivityGraph.InRange.add`, `ProductivityGraph.InRange.enable`).  Members of closed forms
  are there, so the graph of an intact table is in range (`Table.Intact.productivityGraph?_eq`).
* **Solving.**  Supplying a node puts its own place on the worklist (`Solving.InRange.supply?_eq`),
  and what is taken from it supplies nodes that it enables (`Solving.InRange.spread?_eq`).
* **Reporting.**  What is left over is read off the states of nodes
  (`Table.Intact.unproductiveReport?_eq`).
-/

namespace ManySorted

namespace ProductivityGraph

variable {g : ProductivityGraph} {s : Solving} {n : ProductivityNode} {i target required fuel : Nat}

/-! ## The guarded graph -/

def enableAt? (g : ProductivityGraph) (i target : Nat) : Option ProductivityGraph :=
  return { g with states := ← modifyAt? g.states i fun state =>
    { state with enables := state.enables ++ [target] } }

def enable? (g : ProductivityGraph) (node : ProductivityNode) (target : Nat) :
    Option ProductivityGraph :=
  match g.index.lookup node with
  | some i => g.enableAt? i target
  | none => some g

def begin? (g : ProductivityGraph) : Option Solving := do
  let free ← (List.range g.nodes.size).filterM fun i =>
    return decide ((← g.states[i]?).required = 0)
  return { states := g.states, productive := ← free.mapM (g.nodes[·]?), worklist := free.reverse }

def supply? (g : ProductivityGraph) (s : Solving) (next : Nat) : Option Solving := do
  let required := (← s.states[next]?).required
  if required = 0 then return s
  else
    let states ← modifyAt? s.states next ({ · with required := required - 1 })
    if required - 1 = 0 then
      let node ← g.nodes[next]?
      return { states, productive := node :: s.productive, worklist := next :: s.worklist }
    else return { s with states }

def spread? (g : ProductivityGraph) (s : Solving) (i : Nat) : Option Solving := do
  (← s.states[i]?).enables.foldlM g.supply? s

def drain? (g : ProductivityGraph) : Nat → Solving → GuardedM Solving
  | 0, s => return s
  | fuel + 1, s =>
      match s.worklist with
      | [] => return s
      | i :: worklist => do
          Draft.tick
          let s ← g.spread? { s with worklist } i
          g.drain? fuel s

def solve? (g : ProductivityGraph) : GuardedM (List ProductivityNode) := do
  let s ← g.begin?
  return (← g.drain? g.nodes.size s).productive

/-! ## Places of nodes -/

/-- Every node has a state, and all places in the graph are places of nodes. -/
structure InRange (g : ProductivityGraph) : Prop where
  paired : g.states.size = g.nodes.size
  index : ∀ n i, g.index.lookup n = some i → i < g.nodes.size
  enables : ∀ i, ∀ target ∈ g.enables i, target < g.nodes.size

theorem inRange_empty : ({} : ProductivityGraph).InRange where
  paired := rfl
  index _ _ h := nomatch h
  enables i target h := by simp [enables, stateAt, show (default : NodeState).enables =
    [] from rfl] at h

theorem InRange.add (h : g.InRange) (n : ProductivityNode) (required : Nat) :
    (g.add n required).2.InRange where
  paired := by rw [ProductivityGraph.add, Array.size_push, Array.size_push, h.paired]
  index m i hi := by
    rw [ProductivityGraph.add, lookup_enter] at hi
    rw [ProductivityGraph.add, Array.size_push]
    split at hi
    · exact Option.some.inj hi ▸ Nat.lt_succ_self _
    · exact Nat.lt_succ_of_lt (h.index m i hi)
  enables i target htarget := by
    rw [ProductivityGraph.enables,
      show (g.add n required).2 = g.grow n { required } from rfl,
      stateAt_grow h.paired] at htarget
    rw [ProductivityGraph.add, Array.size_push]
    split at htarget
    · cases htarget
    · exact Nat.lt_succ_of_lt (h.enables i target htarget)

theorem size_add (n : ProductivityNode) (required : Nat) :
    (g.add n required).2.nodes.size = g.nodes.size + 1 := Array.size_push _

theorem InRange.enableAt (h : g.InRange) (hi : i < g.nodes.size) (htarget : target < g.nodes.size) :
    (g.enableAt i target).InRange where
  paired := (Array.size_modify ..).trans h.paired
  index := h.index
  enables j k hk := by
    rw [ProductivityGraph.enables, stateAt_enableAt target (h.paired ▸ hi)] at hk
    split at hk
    · rcases List.mem_append.1 hk with hk | hk
      · exact h.enables j k hk
      · exact List.mem_singleton.1 hk ▸ htarget
    · exact h.enables j k hk

theorem enableAt?_eq (h : g.InRange) (hi : i < g.nodes.size) (target : Nat) :
    g.enableAt? i target = some (g.enableAt i target) := by
  rw [enableAt?, modifyAt?_eq (h.paired ▸ hi)]
  rfl

theorem enable?_eq (h : g.InRange) (n : ProductivityNode) (target : Nat) :
    g.enable? n target = some (g.enable n target) := by
  rw [enable?, enable]
  cases hindex : g.index.lookup n with
  | none => rfl
  | some i => exact enableAt?_eq h (h.index n i hindex) target

theorem InRange.enable (h : g.InRange) (n : ProductivityNode) (htarget : target < g.nodes.size) :
    (g.enable n target).InRange ∧ (g.enable n target).nodes = g.nodes := by
  unfold ProductivityGraph.enable
  split
  · next i hindex => exact ⟨h.enableAt (h.index n i hindex) htarget, rfl⟩
  · exact ⟨h, rfl⟩

theorem getElem?_nodes (hi : i < g.nodes.size) : g.nodes[i]? = some (g.nodeAt i) := by
  simp [nodeAt, hi]

end ProductivityGraph

namespace Solving

open ProductivityGraph (spread? supply? getElem?_nodes stateAt_modify)

variable {g : ProductivityGraph} {s : Solving} {i : Nat}

/-! ## Solving -/

/-- What waits and what is enabled are places of nodes. -/
structure InRange (g : ProductivityGraph) (s : Solving) : Prop where
  paired : s.states.size = g.nodes.size
  enables : ∀ i, ∀ target ∈ (s.stateAt i).enables, target < g.nodes.size
  worklist : ∀ i ∈ s.worklist, i < g.nodes.size

theorem InRange.getElem?_states (h : s.InRange g) (hi : i < g.nodes.size) :
    s.states[i]? = some (s.stateAt i) := by
  have hlt : i < s.states.size := h.paired ▸ hi
  simp [stateAt, hlt]

/-- Telling a node of one more producer. -/
theorem InRange.supply?_eq (h : s.InRange g) (hi : i < g.nodes.size) :
    g.supply? s i = some (g.supply s i) ∧ (g.supply s i).InRange g := by
  have hlt : i < s.states.size := h.paired ▸ hi
  have hmodified : ∀ n j, ({ s with
      states := s.states.modify i ({ · with required := n }) } : Solving).stateAt j =
        if j = i then { s.stateAt j with required := n } else s.stateAt j :=
    fun n j => stateAt_modify s _ hlt j
  have hfewer : ∀ n, InRange g { s with
      states := s.states.modify i ({ · with required := n }) } := fun n => {
    paired := (Array.size_modify ..).trans h.paired
    enables := fun j target htarget => by
      rw [hmodified] at htarget
      split at htarget <;> exact h.enables j target htarget
    worklist := h.worklist }
  simp only [supply?, ProductivityGraph.supply, h.getElem?_states hi, modifyAt?_eq hlt,
    getElem?_nodes hi, Option.bind_eq_bind, Option.bind_some]
  split
  · exact ⟨rfl, h⟩
  · split
    · refine ⟨rfl, (hfewer _).paired, (hfewer _).enables, ?_⟩
      exact List.forall_mem_cons.2 ⟨hi, h.worklist⟩
    · exact ⟨rfl, hfewer _⟩

theorem InRange.spread?_eq (h : s.InRange g) (hi : i < g.nodes.size) :
    g.spread? s i = some (g.spread s i) ∧ (g.spread s i).InRange g := by
  rw [spread?, h.getElem?_states hi]
  exact foldlM_eq_some h fun s' target htarget hs' => hs'.supply?_eq (h.enables i target htarget)

end Solving

namespace ProductivityGraph

variable {g : ProductivityGraph} {s : Solving}

theorem InRange.begin?_eq (h : g.InRange) : g.begin? = some g.begin ∧ g.begin.InRange g := by
  have hfree : (List.range g.nodes.size).filterM (m := Option) (fun i =>
      return decide ((← g.states[i]?).required = 0)) =
      some ((List.range g.nodes.size).filter fun i => (g.stateAt i).required = 0) := by
    refine filterM_eq_some fun i hi => ?_
    have hlt : i < g.states.size := h.paired ▸ List.mem_range.1 hi
    simp [stateAt, hlt]
  have hlt : ∀ i ∈ (List.range g.nodes.size).filter fun i => (g.stateAt i).required = 0,
      i < g.nodes.size := fun i hi => List.mem_range.1 (List.mem_filter.1 hi).1
  refine ⟨?_, h.paired, h.enables, fun i hi => hlt i (List.mem_reverse.1 hi)⟩
  rw [begin?, hfree]
  simp only [Option.bind_eq_bind, Option.bind_some,
    mapM_eq_some fun i hi => getElem?_nodes (hlt i hi)]
  rfl

theorem agrees_drain (fuel : Nat) (h : s.InRange g) :
    Draft.Agrees (fun _ => True) (g.drain? fuel s) (g.drain fuel s) := by
  induction fuel generalizing s with
  | zero => exact Draft.agrees_pure _ s
  | succ fuel ih =>
      rw [drain?, drain]
      cases hworklist : s.worklist with
      | nil => exact Draft.agrees_pure _ s
      | cons i worklist =>
          have hmem : ∀ j ∈ i :: worklist, j < g.nodes.size := hworklist ▸ h.worklist
          have hrest : Solving.InRange g { s with worklist } :=
            ⟨h.paired, h.enables, fun j hj => hmem j (List.mem_cons_of_mem i hj)⟩
          obtain ⟨hspread, hnext⟩ := hrest.spread?_eq (hmem i List.mem_cons_self)
          exact Draft.agrees_lift_bind (Draft.ends_tick fun _ _ hd => hd) fun _ =>
            Draft.agrees_read_bind (fun _ _ => hspread) (ih hnext)

theorem InRange.agrees_solve (h : g.InRange) :
    Draft.Agrees (fun _ => True) g.solve? g.solve := by
  obtain ⟨hbegin, hstart⟩ := h.begin?_eq
  refine Draft.agrees_read_bind (fun _ _ => hbegin) ?_
  exact (agrees_drain g.nodes.size hstart).bind_pure _

end ProductivityGraph

namespace Table

/-! ## Making the graph -/

def addFunction? (t : Table) (g : ProductivityGraph) (data : SymbolId) :
    Option ProductivityGraph := do
  let arity := (← t.symbol? data).arity
  let (function, g) := g.add (.function data) arity
  (List.range arity).foldlM (fun g position =>
    let (argument, g) := g.add (.argument data position) 1
    g.enableAt? argument function) g

def producers? (t : Table) (values : AcceptedValues) : Option (List ProductivityNode) := do
  let data ← values.sorts.toList.filterMapM t.dataOf??
  let producers ← data.mapM fun producer =>
    return if (← t.symbol? producer).isImported then .root else .function producer
  return (if values.hasGroundValues then [.root] else []) ++ producers

def enableArguments? (t : Table) (g : ProductivityGraph) (data : SymbolId) :
    Option ProductivityGraph := do
  match (← t.symbol? data).canonical with
  | none => return g
  | some form =>
      form.positions.zipIdx.foldlM (fun g (values, position) => do
        match g.index.lookup (.argument data position) with
        | none => return g
        | some argument => (← t.producers? values).foldlM (·.enable? · argument) g) g

def productivityGraph? (t : Table) : Option ProductivityGraph := do
  let root := (ProductivityGraph.add {} .root 0).2
  t.ownData.foldlM t.enableArguments? (← t.ownData.foldlM t.addFunction? root)

def unproductiveReport? (t : Table) (names : Interner) (data : SymbolId) : Option Report :=
  return ⟨(← t.symbol? data).location,
    .badTypeDecl (← t.qualifiedName? names data) "does not accept any finite terms"⟩

variable {names : Interner} {t : Table} {g : ProductivityGraph} {x : SymbolId}
  {v : AcceptedValues}

theorem addFunction?_eq (hx : t.Holds x) (h : g.InRange) :
    t.addFunction? g x = some (t.addFunction g x) ∧ (t.addFunction g x).InRange := by
  rw [addFunction?, symbol?_eq hx]
  have hstart := h.add (.function x) (t.symbolAt x).arity
  have hplace : g.nodes.size < (g.add (.function x) (t.symbolAt x).arity).2.nodes.size := by
    rw [ProductivityGraph.size_add]
    exact Nat.lt_succ_self _
  -- The constructor or map stays at its place while its positions are added.
  have hstep : ∀ (g' : ProductivityGraph) (position : Nat),
      g'.InRange ∧ g.nodes.size < g'.nodes.size →
      (g'.add (.argument x position) 1).2.enableAt? g'.nodes.size g.nodes.size =
        some ((g'.add (.argument x position) 1).2.enableAt g'.nodes.size g.nodes.size) ∧
      ((g'.add (.argument x position) 1).2.enableAt g'.nodes.size g.nodes.size).InRange ∧
      g.nodes.size <
        ((g'.add (.argument x position) 1).2.enableAt g'.nodes.size g.nodes.size).nodes.size := by
    rintro g' position ⟨hg', hlt⟩
    have hadd := hg'.add (.argument x position) 1
    have hsize := ProductivityGraph.size_add (g := g') (.argument x position) 1
    have hself : g'.nodes.size < (g'.add (.argument x position) 1).2.nodes.size := by omega
    have hlt' : g.nodes.size < (g'.add (.argument x position) 1).2.nodes.size := by omega
    exact ⟨ProductivityGraph.enableAt?_eq hadd hself _, hadd.enableAt hself hlt', hlt'⟩
  have hfold := foldlM_eq_some (l := List.range (t.symbolAt x).arity) ⟨hstart, hplace⟩
    fun g' position _ hg' => hstep g' position hg'
  exact ⟨hfold.1, hfold.2.1⟩

variable (ht : t.Intact names)
include ht

theorem Intact.producers?_eq (hv : v.Closed t) : t.producers? v = some (t.producers v) := by
  have hdata : v.sorts.toList.filterMapM t.dataOf?? =
      some (v.sorts.toList.filterMap t.dataOf?) :=
    filterMapM_eq_some fun s hs => dataOf??_eq (hv.sorts hs).holds
  rw [producers?, hdata]
  simp only [Option.bind_eq_bind, Option.bind_some]
  rw [mapM_eq_some (f := fun producer => if (t.symbolAt producer).isImported then
    ProductivityNode.root else .function producer) fun d hd => ?_]
  · rfl
  · obtain ⟨s, -, hs⟩ := List.mem_filterMap.1 hd
    rw [symbol?_eq (ht.formed.families.holds_of_dataOf? hs)]
    rfl

theorem Intact.enableArguments?_eq (hx : t.Holds x) (h : g.InRange) :
    t.enableArguments? g x = some (t.enableArguments g x) ∧ (t.enableArguments g x).InRange := by
  rw [enableArguments?, symbol?_eq hx, enableArguments]
  simp only [Option.bind_eq_bind, Option.bind_some]
  cases hform : (t.symbolAt x).canonical with
  | none => exact ⟨rfl, h⟩
  | some form =>
      refine foldlM_eq_some h fun g' entry hentry hg' => ?_
      obtain ⟨values, position⟩ := entry
      have hvalues : values ∈ form.positions := by
        rw [(List.mem_zipIdx hentry).2.2]
        exact List.getElem_mem _
      have hclosed := (ht.closed (holds_of_canonical hform)).form hform values hvalues
      dsimp only
      cases hargument : g'.index.lookup (.argument x position) with
      | none => exact ⟨rfl, hg'⟩
      | some argument =>
          have hlt := hg'.index _ _ hargument
          rw [ht.producers?_eq hclosed]
          have hstep : ∀ (g₁ : ProductivityGraph) (n : ProductivityNode),
              g₁.InRange ∧ argument < g₁.nodes.size →
              g₁.enable? n argument = some (g₁.enable n argument) ∧
              (g₁.enable n argument).InRange ∧ argument < (g₁.enable n argument).nodes.size := by
            rintro g₁ n ⟨hg₁, hlt₁⟩
            obtain ⟨hrange, hnodes⟩ := hg₁.enable n hlt₁
            exact ⟨ProductivityGraph.enable?_eq hg₁ n argument, hrange, hnodes ▸ hlt₁⟩
          have hfold := foldlM_eq_some (l := t.producers values) ⟨hg', hlt⟩
            fun g₁ n _ hg₁ => hstep g₁ n hg₁
          exact ⟨hfold.1, hfold.2.1⟩

/-- The graph is made without a place out of range, and has none. -/
theorem Intact.productivityGraph?_eq :
    t.productivityGraph? = some t.productivityGraph ∧ t.productivityGraph.InRange := by
  have hown : ∀ x ∈ t.ownData, t.Holds x := fun x hx =>
    (ht.formed.arena.mem_ownData.1 hx).1.holds
  have hadd := foldlM_eq_some (motive := ProductivityGraph.InRange)
    (ProductivityGraph.inRange_empty.add .root 0) fun g x hx hg => addFunction?_eq (hown x hx) hg
  rw [productivityGraph?, hadd.1]
  exact foldlM_eq_some hadd.2 fun g x hx hg => ht.enableArguments?_eq (hown x hx) hg

theorem Intact.unproductiveReport?_eq (hx : t.Holds x) (names' : Interner) :
    t.unproductiveReport? names' x = some (t.unproductiveReport names' x) := by
  simp [unproductiveReport?, unproductiveReport, symbol?_eq hx,
    ht.formed.toRegular.qualifiedName?_eq hx]

end Table

namespace Draft

/-- Steps on the clock do nothing else. -/
theorem ends_ticks {P : Draft → Prop} (hclock : ∀ d clock, P d → P { d with clock }) (n : Nat) :
    Ends P (ticks n) fun _ => P := by
  induction n with
  | zero => exact ends_pure fun _ hd => hd
  | succ n ih => exact (ends_tick hclock).bind fun _ => ih

def checkProductivity? : GuardedM (List SymbolId) := do
  let t ← getTable
  let g ← t.productivityGraph?
  let nodes ← g.solve?
  let (productive, unproductive) := t.ownData.partition fun data => nodes.contains (.function data)
  modifyGet? fun d => do
    let reports ← unproductive.mapM (t.unproductiveReport? d.names)
    return ((), { d with table := d.table.reportAll reports })
  return productive

theorem agrees_checkProductivity : Agrees Intact checkProductivity? checkProductivity := by
  refine agrees_getTable_bind fun t => ?_
  intro d hd
  obtain ⟨hd, rfl⟩ := hd
  have hintact : d.table.Intact d.names := hd
  obtain ⟨hgraph, hrange⟩ := hintact.productivityGraph?_eq
  have hends : Ends (fun d' => d'.table = d.table) d.table.productivityGraph.solve
      fun _ d' => d'.table = d.table := by
    rw [ProductivityGraph.solve_eq]
    exact (ends_ticks (fun _ _ hd' => hd') _).bind fun _ => ends_pure fun _ hd' => hd'
  refine agrees_read_bind (P := fun d' => d'.table = d.table) (fun _ _ => hgraph)
    ((hrange.agrees_solve.imp fun _ _ => trivial).bind hends fun nodes => ?_) d rfl
  simp only [List.partition_eq_filter_filter]
  refine (agrees_modifyGet fun d' hd' => ?_).bind_pure _
  rw [mapM_eq_some (f := d.table.unproductiveReport d'.names) fun x hx =>
    hintact.unproductiveReport?_eq
      (hintact.formed.arena.mem_ownData.1 (List.mem_filter.1 hx).1).1.holds d'.names]
  rfl

end Draft

end ManySorted
