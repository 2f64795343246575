import ManySorted.Proofs.Dependency.Strong
import ManySorted.Proofs.Guard.Table
import ManySorted.Proofs.Sizing.Graph

/-!
# The guarded search for components

The search with low links has arrays of numbers, of low links and of marks, one entry for each node,
and accesses them at the nodes that it visits, meets, returns to and takes off its stack.  All of
them are nodes of the graph, as edges lead to nodes, and so the search agrees with its guarded
counterpart (`DepGraph.components?_eq`).

## Strategy

* **What is kept.**  Visited nodes and those on either stack are nodes of the graph
  (`DepGraph.Placed`).
* **One step.**  A step enters a node, meets one that is known, or leaves one and takes a component
  off the stack, and each of them keeps to nodes (`DepGraph.Placed.enter`, `DepGraph.Placed.meet`,
  `DepGraph.Placed.leave`).
* **The whole search.**  So steps agree (`DepGraph.Placed.step?_eq`) and, by induction on their
  number, the search does (`DepGraph.Placed.settle?_eq`).
-/

namespace ManySorted

universe u

namespace DepGraph

variable {N : Type u} {g : DepGraph N} {s : LinkSearch} {i : Nat}

/-! ## The guarded graph -/

def addEdge? [DecidableEq N] (g : DepGraph N) (source target : N) (mark : Bool) :
    Option (DepGraph N) :=
  let (i, g) := g.addNode source
  let (j, g) := g.addNode target
  (modifyAt? g.edges i (· ++ [(j, mark)])).map fun edges => { g with edges }

def edgesOf? (g : DepGraph N) (i : Nat) : Option (List (Nat × Bool)) := g.edges[i]?

def isCyclic? (g : DepGraph N) : List Nat → Option Bool
  | [i] => return ((← g.edgesOf? i).map Prod.fst).contains i
  | _ => some true

theorem Proper.addEdge?_eq [DecidableEq N] (hg : g.Proper) (a b : N) (mark : Bool) :
    g.addEdge? a b mark = some (g.addEdge a b mark) := by
  obtain ⟨hext, hplace⟩ := hg.addNode a
  obtain ⟨hext', -⟩ := hext.proper.addNode b
  have hlt : (g.addNode a).1 < ((g.addNode a).2.addNode b).2.edges.size := by
    rw [hext'.proper.size_eq]
    exact (Array.getElem?_eq_some_iff.1 (hext'.grown.node hplace)).1
  rw [addEdge?]
  dsimp only
  rw [modifyAt?_eq hlt]
  rfl

theorem Proper.edgesOf?_eq (hg : g.Proper) (hi : i < g.size) :
    g.edgesOf? i = some (g.edgesOf i) := by
  have hlt : i < g.edges.size := hg.size_eq.symm ▸ hi
  simp [edgesOf?, edgesOf, hlt]

theorem Proper.isCyclic?_eq (hg : g.Proper) {component : List Nat}
    (hlt : ∀ i ∈ component, i < g.size) :
    g.isCyclic? component = some (g.isCyclic component) := by
  match component with
  | [] => rfl
  | [i] =>
      rw [isCyclic?, hg.edgesOf?_eq (hlt i List.mem_cons_self)]
      rfl
  | _ :: _ :: _ => rfl

/-! ## The guarded search -/

/-- Follows an edge from a node to a node, or returns to a node; what may be taken off the stack are
nodes. -/
def step? (g : DepGraph N) (s : LinkSearch) : Option LinkSearch :=
  match s.frames with
  | [] => some s
  | (i, next) :: frames => do
      let edges ← g.edgesOf? i
      guard (i < g.size)
      match edges[next]? with
      | some (j, _) =>
          guard (j < g.size)
          return { s with frames := (i, next + 1) :: frames }.meet i j
      | none =>
          guard (frames.all (·.1 < g.size) ∧ s.stack.all (· < g.size))
          return s.leave i frames

theorem step?_eq_some {s' : LinkSearch} (h : g.step? s = some s') : s' = g.step s := by
  unfold step? at h
  unfold step
  cases hframes : s.frames with
  | nil =>
      rw [hframes] at h
      exact (Option.some.inj h).symm
  | cons frame frames =>
      rw [hframes] at h
      dsimp only at h ⊢
      obtain ⟨edges, hedges, h⟩ := Option.bind_eq_some_iff.1 h
      have htargets : g.targets frame.1 = edges.map Prod.fst := by
        rw [edgesOf?] at hedges
        rw [targets, edgesOf, Array.getD_eq_getD_getElem?, hedges, Option.getD_some]
      obtain ⟨-, h⟩ := guard_bind_eq_some h
      rw [htargets, List.getElem?_map]
      cases hedge : edges[frame.2]? with
      | some edge =>
          rw [hedge] at h
          exact (Option.some.inj (guard_bind_eq_some h).2).symm
      | none =>
          rw [hedge] at h
          exact (Option.some.inj (guard_bind_eq_some h).2).symm

def settle? (g : DepGraph N) (s : LinkSearch) : Option LinkSearch :=
  if s.frames = [] then some s
  else
    match _ : g.step? s with
    | some s' => g.settle? s'
    | none => none
termination_by g.potential s
decreasing_by
  rw [step?_eq_some (show g.step? s = some s' from ‹_›)]
  exact potential_step_lt ‹_›

def searchFrom? (g : DepGraph N) (s : LinkSearch) (start : Nat) : Option LinkSearch := do
  guard (start < g.size)
  if (s.number start).isSome then return s else g.settle? (s.enter start)

def linkSearch? (g : DepGraph N) : Option LinkSearch :=
  (List.range g.size).foldlM g.searchFrom? {}

def components? (g : DepGraph N) : Option (List (List Nat)) :=
  return (← g.linkSearch?).listed

/-! ## Nodes of the graph -/

/-- What is visited and what waits are nodes of the graph. -/
structure Placed (g : DepGraph N) (s : LinkSearch) : Prop where
  frames : ∀ frame ∈ s.frames, frame.1 < g.size
  stack : ∀ i ∈ s.stack, i < g.size

theorem placed_empty (g : DepGraph N) : g.Placed {} where
  frames _ h := absurd h List.not_mem_nil
  stack _ h := absurd h List.not_mem_nil

theorem Placed.enter (h : g.Placed s) (hi : i < g.size) : g.Placed (s.enter i) where
  frames := List.forall_mem_cons.2 ⟨hi, h.frames⟩
  stack := List.forall_mem_cons.2 ⟨hi, h.stack⟩

theorem Placed.meet (h : g.Placed s) (i : Nat) {j : Nat} (hj : j < g.size) :
    g.Placed (s.meet i j) := by
  unfold LinkSearch.meet
  split
  · exact h.enter hj
  · split
    · exact ⟨h.frames, h.stack⟩
    · exact h

theorem mem_of_mem_popTo {l : List Nat} {j : Nat} (h : j ∈ (popTo i l).2) : j ∈ l := by
  induction l with
  | nil => exact h
  | cons k rest ih =>
      rw [popTo] at h
      split at h
      · exact List.mem_cons_of_mem _ h
      · exact List.mem_cons_of_mem _ (ih h)

theorem Placed.leave (h : g.Placed s) {next : Nat} {frames : List (Nat × Nat)}
    (hframes : s.frames = (i, next) :: frames) : g.Placed (s.leave i frames) where
  frames frame hframe := by
    rw [LinkSearch.frames_leave] at hframe
    exact h.frames frame (hframes ▸ List.mem_cons_of_mem _ hframe)
  stack j hj := by
    unfold LinkSearch.leave at hj
    dsimp only at hj
    split at hj
    · have hmem := mem_of_mem_popTo hj
      rw [LinkSearch.stack_drop] at hmem
      exact h.stack j hmem
    · rw [LinkSearch.stack_drop] at hj
      exact h.stack j hj

/-- One step of the search. -/
theorem Placed.step?_eq (h : g.Placed s) (hg : g.Proper) :
    g.step? s = some (g.step s) ∧ g.Placed (g.step s) := by
  rw [step?, step]
  cases hframes : s.frames with
  | nil => exact ⟨rfl, h⟩
  | cons frame frames =>
      obtain ⟨i, next⟩ := frame
      have hall : ∀ frame ∈ (i, next) :: frames, frame.1 < g.size := hframes ▸ h.frames
      have hi : i < g.size := hall _ List.mem_cons_self
      have hrest : ∀ frame ∈ frames, frame.1 < g.size :=
        fun frame hframe => hall frame (List.mem_cons_of_mem _ hframe)
      dsimp only
      rw [hg.edgesOf?_eq hi, Option.bind_eq_bind, Option.bind_some, guard_bind hi, targets,
        List.getElem?_map]
      cases hedge : (g.edgesOf i)[next]? with
      | some edge =>
          obtain ⟨j, mark⟩ := edge
          have hj : j < g.size := hg.inRange i j
            (List.mem_map_of_mem (f := Prod.fst) (List.mem_of_getElem? hedge))
          have hmoved : g.Placed { s with frames := (i, next + 1) :: frames } :=
            ⟨List.forall_mem_cons.2 ⟨hi, hrest⟩, h.stack⟩
          exact ⟨guard_bind hj _, hmoved.meet i hj⟩
      | none =>
          have hguard : (frames.all (·.1 < g.size) = true) ∧
              s.stack.all (· < g.size) = true := by
            simpa using And.intro hrest h.stack
          exact ⟨guard_bind hguard _, h.leave hframes⟩

/-- The search for components never leaves the graph. -/
theorem Placed.settle?_eq (h : g.Placed s) (hg : g.Proper) :
    g.settle? s = some (g.settle s) ∧ g.Placed (g.settle s) := by
  fun_induction settle g s with
  | case1 s hframes =>
      rw [settle?, if_pos hframes]
      exact ⟨rfl, h⟩
  | case2 s hframes ih =>
      obtain ⟨hstep, hnext⟩ := h.step?_eq hg
      obtain ⟨hsettle, hend⟩ := ih hnext
      refine ⟨?_, hend⟩
      rw [settle?, if_neg hframes]
      split
      · next s' hs' =>
          cases hstep.symm.trans hs'
          exact hsettle
      · next hnone => cases hstep.symm.trans hnone

theorem Proper.components?_eq (hg : g.Proper) : g.components? = some g.components := by
  have hsearch : g.linkSearch? = some g.linkSearch := by
    refine (foldlM_eq_some (motive := g.Placed) (placed_empty g) fun s start hstart hs => ?_).1
    have hlt : start < g.size := List.mem_range.1 hstart
    obtain ⟨hsettle, hend⟩ := (hs.enter hlt).settle?_eq hg
    rw [searchFrom?, guard_bind hlt, searchFrom]
    split
    · exact ⟨rfl, hs⟩
    · exact ⟨hsettle, hend⟩
  rw [components?, hsearch, ← lowLinkComponents_eq hg.inRange]
  rfl

end DepGraph

end ManySorted
