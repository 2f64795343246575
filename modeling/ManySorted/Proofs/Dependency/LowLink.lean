import Mathlib.Algebra.GroupWithZero.Nat
import Mathlib.Algebra.Order.BigOperators.Group.Finset
import ManySorted.Dependency

/-!
# Components by low links

A search numbers the nodes in the order in which it finds them and keeps them on a stack until their
component is listed.  The low link of a node is the least number that is known of a node on the
stack that it reaches.  When the search leaves a node whose low link is its own number, the nodes on
the stack down to it are a component (`DepGraph.lowLinkComponents`).

The search does not call itself.  It keeps a frame for each node that it visits, with the number of
edges that were followed, and each step follows one edge of the last frame or drops the frame.  As
no node is entered twice and no edge followed twice, it comes to an end
(`DepGraph.potential_step_lt`).
-/

namespace ManySorted

universe u

/-- How far a search with low links has got. -/
structure LinkSearch where
  /-- How many nodes were found before a node, if it is found. -/
  number : Nat → Option Nat := fun _ => none
  low : Nat → Nat := fun _ => 0
  /-- Whether a node is on the stack. -/
  waiting : Nat → Bool := fun _ => false
  /-- The nodes whose component is not listed, latest first. -/
  stack : List Nat := []
  /-- The components, oldest first. -/
  listed : List (List Nat) := []
  /-- How many nodes are found. -/
  counter : Nat := 0
  /-- The nodes that are visited, latest first, with the number of edges that were followed. -/
  frames : List (Nat × Nat) := []

/-- Takes nodes off a stack, down to a given one. -/
def popTo (i : Nat) : List Nat → List Nat × List Nat
  | [] => ([], [])
  | j :: rest => if j = i then ([j], rest) else ((j :: (popTo i rest).1), (popTo i rest).2)

theorem popTo_append {i : Nat} {before : List Nat} (after : List Nat) (h : i ∉ before) :
    popTo i (before ++ i :: after) = (before ++ [i], after) := by
  induction before with
  | nil => simp [popTo]
  | cons j before ih =>
      rw [List.mem_cons, not_or] at h
      rw [List.cons_append, popTo, if_neg (Ne.symm h.1), ih h.2]
      rfl

namespace LinkSearch

/-- Finds a node. -/
def enter (s : LinkSearch) (i : Nat) : LinkSearch :=
  { s with
    number := Function.update s.number i (some s.counter)
    low := Function.update s.low i s.counter
    waiting := Function.update s.waiting i true
    stack := i :: s.stack
    counter := s.counter + 1
    frames := (i, 0) :: s.frames }

/-- Lowers the low link of a node to a number. -/
def lower (s : LinkSearch) (i n : Nat) : LinkSearch :=
  { s with low := Function.update s.low i (min (s.low i) n) }

/-- Lists the nodes on the stack down to a given one. -/
def close (s : LinkSearch) (i : Nat) : LinkSearch :=
  { s with
    waiting := fun j => s.waiting j && !(popTo i s.stack).1.contains j
    stack := (popTo i s.stack).2
    listed := s.listed ++ [(popTo i s.stack).1] }

/-- Drops the frame of a node, above other frames, and lowers the low link of the node from which it
was entered. -/
def drop (s : LinkSearch) (i : Nat) : List (Nat × Nat) → LinkSearch
  | [] => { s with frames := [] }
  | (parent, next) :: frames =>
      { s with frames := (parent, next) :: frames }.lower parent (s.low i)

/-- Leaves a node, and lists its component if it is the first node of it. -/
def leave (s : LinkSearch) (i : Nat) (frames : List (Nat × Nat)) : LinkSearch :=
  let s := s.drop i frames
  if s.number i = some (s.low i) then s.close i else s

/-- Comes to a node by an edge that leaves another. -/
def meet (s : LinkSearch) (i j : Nat) : LinkSearch :=
  match s.number j with
  | none => s.enter j
  | some n => if s.waiting j then s.lower i n else s

section

variable (s : LinkSearch) (i : Nat) (frames : List (Nat × Nat))

@[simp] theorem frames_drop : (s.drop i frames).frames = frames := by
  cases frames <;> rfl

@[simp] theorem number_drop : (s.drop i frames).number = s.number := by
  cases frames <;> rfl

@[simp] theorem waiting_drop : (s.drop i frames).waiting = s.waiting := by
  cases frames <;> rfl

@[simp] theorem stack_drop : (s.drop i frames).stack = s.stack := by
  cases frames <;> rfl

@[simp] theorem listed_drop : (s.drop i frames).listed = s.listed := by
  cases frames <;> rfl

@[simp] theorem counter_drop : (s.drop i frames).counter = s.counter := by
  cases frames <;> rfl

theorem low_drop_of_ne {j : Nat} (h : ∀ frame ∈ frames.head?, j ≠ frame.1) :
    (s.drop i frames).low j = s.low j := by
  cases frames with
  | nil => rfl
  | cons frame frames => exact Function.update_of_ne (h frame rfl) _ _

theorem low_drop_head {frame : Nat × Nat} (h : frame ∈ frames.head?) :
    (s.drop i frames).low frame.1 = min (s.low frame.1) (s.low i) := by
  cases frames with
  | nil => cases h
  | cons frame frames =>
      cases h
      exact Function.update_self ..

@[simp] theorem frames_leave : (s.leave i frames).frames = frames := by
  unfold leave
  dsimp only
  split <;> exact frames_drop s i frames

@[simp] theorem number_leave : (s.leave i frames).number = s.number := by
  unfold leave
  dsimp only
  split <;> exact number_drop s i frames

@[simp] theorem low_leave : (s.leave i frames).low = (s.drop i frames).low := by
  unfold leave
  dsimp only
  split <;> rfl

end

end LinkSearch

namespace DepGraph

variable {N : Type u} {g : DepGraph N} {s s' : LinkSearch}

/-- Follows one edge of the last frame, or drops it when none is left. -/
def step (g : DepGraph N) (s : LinkSearch) : LinkSearch :=
  match s.frames with
  | [] => s
  | (i, next) :: frames =>
      match (g.targets i)[next]? with
      | some j => { s with frames := (i, next + 1) :: frames }.meet i j
      | none => s.leave i frames

/-! ## The end of a search -/

/-- What may happen yet: every node that is not found may be entered, every edge may be followed,
and every frame may be dropped. -/
def potential (g : DepGraph N) (s : LinkSearch) : Nat :=
  (∑ i ∈ Finset.range g.edges.size with s.number i = none, (2 * (g.targets i).length + 1)) +
    (s.frames.map fun frame => 2 * ((g.targets frame.1).length - frame.2) + 1).sum

/-- A node that is found may not be entered any more. -/
theorem sum_enter_add_le {j : Nat} (hnew : s.number j = none) :
    (∑ i ∈ Finset.range g.edges.size with (s.enter j).number i = none,
      (2 * (g.targets i).length + 1)) + 2 * (g.targets j).length ≤
    ∑ i ∈ Finset.range g.edges.size with s.number i = none, (2 * (g.targets i).length + 1) := by
  have hrest : (Finset.range g.edges.size).filter (fun i => (s.enter j).number i = none) =
      ((Finset.range g.edges.size).filter fun i => s.number i = none).erase j := by
    ext i
    by_cases hi : i = j <;> simp [LinkSearch.enter, Function.update_apply, hi]
  rw [hrest]
  by_cases hj : j < g.edges.size
  · have hmem : j ∈ (Finset.range g.edges.size).filter fun i => s.number i = none :=
      Finset.mem_filter.2 ⟨Finset.mem_range.2 hj, hnew⟩
    rw [← Finset.sum_erase_add _ _ hmem]
    omega
  · have hnone : g.targets j = [] := by simp [targets, edgesOf, Nat.le_of_not_lt hj]
    rw [hnone, List.length_nil, Nat.mul_zero, Nat.add_zero]
    exact Finset.sum_le_sum_of_subset (Finset.erase_subset _ _)

theorem potential_meet_le (i j : Nat) : g.potential (s.meet i j) ≤ g.potential s + 1 := by
  unfold LinkSearch.meet
  split
  · next hnew =>
      have hsum := sum_enter_add_le (g := g) hnew
      unfold potential
      simp only [LinkSearch.enter, List.map_cons, List.sum_cons, Nat.sub_zero] at hsum ⊢
      omega
  · split <;> exact Nat.le_succ _

theorem potential_step_lt (h : s.frames ≠ []) : g.potential (g.step s) < g.potential s := by
  obtain ⟨⟨i, next⟩, frames, hframes⟩ := List.exists_cons_of_ne_nil h
  unfold step
  rw [hframes]
  dsimp only
  split
  · next j hedge =>
      have hlt : next < (g.targets i).length := (List.getElem?_eq_some_iff.1 hedge).1
      have hmeet := potential_meet_le (g := g) (s :=
        { s with frames := (i, next + 1) :: frames }) i j
      unfold potential at hmeet ⊢
      rw [hframes]
      simp only [List.map_cons, List.sum_cons] at hmeet ⊢
      omega
  · unfold potential
    rw [LinkSearch.number_leave, LinkSearch.frames_leave, hframes, List.map_cons, List.sum_cons]
    omega

/-- Goes on until no frame is left. -/
def settle (g : DepGraph N) (s : LinkSearch) : LinkSearch :=
  if s.frames = [] then s else g.settle (g.step s)
termination_by g.potential s
decreasing_by exact potential_step_lt ‹_›

/-- Searches from a node, unless it is found. -/
def searchFrom (g : DepGraph N) (s : LinkSearch) (start : Nat) : LinkSearch :=
  if (s.number start).isSome then s else g.settle (s.enter start)

/-- Searches from all nodes in turn. -/
def linkSearch (g : DepGraph N) : LinkSearch :=
  (List.range g.size).foldl g.searchFrom {}

/-- The components in the order in which a search with low links lists them. -/
def lowLinkComponents (g : DepGraph N) : List (List Nat) := g.linkSearch.listed

end DepGraph

end ManySorted
