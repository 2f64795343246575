import ManySorted.Productivity
import Mathlib.Data.List.Nodup
import Mathlib.Data.List.Perm.Subperm

/-!
# The worklist of productive nodes

Counters decrease and nodes are pushed and popped until the worklist is empty.  What comes out
depends on the graph alone: the nodes taken are closed, in that a node is taken just if enough of
the nodes taken enable it (`ProductivityGraph.Solved.mem_iff`), and they are the least such, in that
whatever passes from producers to what has enough of them holds of all nodes taken
(`ProductivityGraph.Solved.induction`).

## Strategy

* **Steps apart from time.**  Only the taking of a node is a step of the run, and what is taken does
  not depend on the run.  So the loop is a number of steps and then a result (`drain_eq`), and all
  that follows is about the result.
* **Counters are differences.**  A counter is what the node needs at first less how often it was
  told of a producer so far, cut off at zero (`Supplied.required`).  Telling a node whose counter is
  at zero changes nothing, which is what the difference does too; so the invariant needs no cases.
* **A node is pushed once.**  It is pushed when its counter reaches zero, and from then on the
  counter stays there (`Supplied.nodup`).  Hence no more nodes are taken than there are, and with
  that much fuel the worklist ends empty (`drained_worklist`).
-/

namespace ManySorted

namespace Draft

/-- Takes several steps. -/
def ticks : Nat → DraftM Unit
  | 0 => return
  | n + 1 => do
      tick
      ticks n

end Draft

namespace ProductivityGraph

variable {g : ProductivityGraph} {s : Solving} {taken : List Nat} {told : Nat → Nat}
  {i next fuel : Nat} {node : ProductivityNode}

/-! ## Steps apart from time -/

/-- What is left when the worklist is worked off. -/
def drained (g : ProductivityGraph) : Nat → Solving → Solving
  | 0, s => s
  | fuel + 1, s =>
      match s.worklist with
      | [] => s
      | i :: worklist => g.drained fuel (g.spread { s with worklist } i)

/-- How many nodes are taken from the worklist. -/
def pops (g : ProductivityGraph) : Nat → Solving → Nat
  | 0, _ => 0
  | fuel + 1, s =>
      match s.worklist with
      | [] => 0
      | i :: worklist => g.pops fuel (g.spread { s with worklist } i) + 1

/-- Every node that is taken is a step, and what is taken does not depend on the run. -/
theorem drain_eq (g : ProductivityGraph) (fuel : Nat) (s : Solving) : g.drain fuel s = do
    Draft.ticks (g.pops fuel s)
    return g.drained fuel s := by
  induction fuel generalizing s with
  | zero => rfl
  | succ fuel ih =>
      rw [drain, pops, drained]
      cases s.worklist with
      | nil => rfl
      | cons i worklist =>
          simp only [ih, Draft.ticks, bind_assoc]

/-- The productive nodes. -/
def solution (g : ProductivityGraph) : List ProductivityNode :=
  (g.drained g.nodes.size g.begin).productive

theorem solve_eq (g : ProductivityGraph) : g.solve = do
    Draft.ticks (g.pops g.nodes.size g.begin)
    return g.solution := by
  rw [solve, drain_eq]
  simp only [bind_assoc, pure_bind]
  rfl

/-! ## What a node needs and enables -/

/-- How many producers the node at a place needs. -/
def needs (g : ProductivityGraph) (i : Nat) : Nat := (g.stateAt i).required

/-- The places that the node at a place enables. -/
def enables (g : ProductivityGraph) (i : Nat) : List Nat := (g.stateAt i).enables

/-- How often the node at place `i` is told of a producer when the nodes in `taken` tell all. -/
def toldBy (g : ProductivityGraph) (taken : List Nat) (i : Nat) : Nat :=
  (taken.flatMap g.enables).count i

theorem toldBy_cons (j : Nat) (taken : List Nat) (i : Nat) :
    g.toldBy (j :: taken) i = g.toldBy taken i + (g.enables j).count i := by
  rw [toldBy, List.flatMap_cons, List.count_append, Nat.add_comm]
  rfl

/-- The nodes in `taken` have told what they enable, and nodes were told as often as `told` says. -/
structure Supplied (g : ProductivityGraph) (taken : List Nat) (told : Nat → Nat) (s : Solving) :
    Prop where
  size_eq : s.states.size = g.nodes.size
  required : ∀ i, (s.stateAt i).required = g.needs i - told i
  enables : ∀ i, (s.stateAt i).enables = g.enables i
  nodup : (taken ++ s.worklist).Nodup
  mem_iff : ∀ i, i ∈ taken ++ s.worklist ↔ i < g.nodes.size ∧ g.needs i ≤ told i
  productive_iff : ∀ node, node ∈ s.productive ↔ ∃ i ∈ taken ++ s.worklist, g.nodeAt i = node

theorem Supplied.congr {told' : Nat → Nat} (h : g.Supplied taken told s)
    (hsame : ∀ i, told' i = told i) : g.Supplied taken told' s := by
  obtain rfl : told' = told := funext hsame
  exact h

/-- Whoever waits on the worklist may be taken. -/
theorem Supplied.take {worklist : List Nat} (h : g.Supplied taken told s)
    (hworklist : s.worklist = i :: worklist) :
    g.Supplied (i :: taken) told { s with worklist } := by
  have hperm : ((i :: taken) ++ worklist).Perm (taken ++ s.worklist) := by
    rw [hworklist]
    exact List.perm_middle.symm
  exact {
    size_eq := h.size_eq
    required := h.required
    enables := h.enables
    nodup := hperm.nodup_iff.2 h.nodup
    mem_iff := fun j => hperm.mem_iff.trans (h.mem_iff j)
    productive_iff := fun node => (h.productive_iff node).trans
      (exists_congr fun j => and_congr_left fun _ => hperm.mem_iff.symm) }

/-! ## Telling of one more producer -/

theorem stateAt_modify (s : Solving) (f : NodeState → NodeState) (hnext : next < s.states.size)
    (i : Nat) : ({ s with states := s.states.modify next f } : Solving).stateAt i =
      if i = next then f (s.stateAt i) else s.stateAt i := by
  simp only [Solving.stateAt, Array.getD_eq_getD_getElem?, Array.getElem?_modify,
    eq_comm (a := next)]
  by_cases hi : i = next
  · simp [hi, hnext]
  · simp [hi]

theorem Supplied.supply (h : g.Supplied taken told s) (next : Nat) :
    g.Supplied taken (fun i => told i + if i = next then 1 else 0) (g.supply s next) := by
  unfold ProductivityGraph.supply
  dsimp only
  split
  · -- nothing is needed any more, or there is no such node
    next hzero =>
      rw [h.required] at hzero
      refine { h with required := fun i => ?_, mem_iff := fun i => ?_ }
      · rw [h.required]
        split
        · next heq => subst heq; omega
        · rfl
      · rw [h.mem_iff]
        split
        · next heq => subst heq; exact and_congr_right fun _ => by omega
        · rfl
  · next hsome =>
      have hneeds := h.required next
      have hlt : next < s.states.size := by
        refine Nat.lt_of_not_le fun hle => hsome ?_
        rw [Solving.stateAt, Array.getD_eq_getD_getElem?, Array.getElem?_eq_none hle]
        rfl
      have hstate := stateAt_modify s
        (fun state => { state with required := (s.stateAt next).required - 1 }) hlt
      have hrequired : ∀ i, (if i = next then (s.stateAt next).required - 1
          else (s.stateAt i).required) = g.needs i - (told i + if i = next then 1 else 0) := by
        intro i
        split
        · next heq => subst heq; omega
        · exact h.required i
      have hnew : next ∉ taken ++ s.worklist := fun hmem => by
        have hle := ((h.mem_iff next).1 hmem).2
        omega
      split
      · -- the last producer that was needed
        next hlast =>
          have hperm : (taken ++ next :: s.worklist).Perm (next :: (taken ++ s.worklist)) :=
            List.perm_middle
          refine ⟨by rw [← h.size_eq]; exact Array.size_modify, fun i => ?_, fun i => ?_,
            hperm.nodup_iff.2 (List.nodup_cons.2 ⟨hnew, h.nodup⟩), fun i => ?_, fun node => ?_⟩
          · exact (congrArg NodeState.required (hstate i)).trans
              (by rw [← hrequired i]; split <;> rfl)
          · exact (congrArg NodeState.enables (hstate i)).trans
              (by rw [← h.enables i]; split <;> rfl)
          · rw [hperm.mem_iff, List.mem_cons, h.mem_iff]
            rw [h.size_eq] at hlt
            split
            · next heq => subst heq; exact iff_of_true (.inl rfl) ⟨hlt, by omega⟩
            · next hne => simp [hne]
          · simp only [hperm.mem_iff, List.mem_cons, exists_eq_or_imp, h.productive_iff,
              eq_comm (a := node)]
      · next hmore =>
          refine ⟨by rw [← h.size_eq]; exact Array.size_modify, fun i => ?_, fun i => ?_, h.nodup,
            fun i => ?_, h.productive_iff⟩
          · exact (congrArg NodeState.required (hstate i)).trans
              (by rw [← hrequired i]; split <;> rfl)
          · exact (congrArg NodeState.enables (hstate i)).trans
              (by rw [← h.enables i]; split <;> rfl)
          · rw [h.mem_iff]
            split
            · next heq => subst heq; exact and_congr_right fun _ => by omega
            · rfl

theorem Supplied.foldl_supply (h : g.Supplied taken told s) (l : List Nat) :
    g.Supplied taken (fun i => told i + l.count i) (l.foldl g.supply s) := by
  induction l generalizing told s with
  | nil => exact h
  | cons next rest ih =>
      refine (ih (h.supply next)).congr fun i => ?_
      have hsame : (next == i) = true ↔ i = next := by rw [beq_iff_eq, eq_comm]
      rw [List.count_cons, Nat.add_assoc, Nat.add_comm (rest.count i)]
      simp only [hsame]

/-! ## Working the worklist off -/

theorem Supplied.spread (h : g.Supplied taken told s) (i : Nat) :
    g.Supplied taken (fun j => told j + (g.enables i).count j) (g.spread s i) := by
  rw [ProductivityGraph.spread, h.enables]
  exact h.foldl_supply _

/-- What the nodes in `taken` told is known, the others that may be taken are waiting, and whatever
passes from producers to what has enough of them holds of all these. -/
structure Underway (g : ProductivityGraph) (taken : List Nat) (s : Solving) : Prop where
  supplied : g.Supplied taken (g.toldBy taken) s
  least : ∀ {P : Nat → Prop},
    (∀ i (known : List Nat), i < g.nodes.size → known.Nodup → (∀ j ∈ known, P j) →
      g.needs i ≤ g.toldBy known i → P i) → ∀ i ∈ taken ++ s.worklist, P i

theorem Underway.spread {worklist : List Nat} (h : g.Underway taken s)
    (hworklist : s.worklist = i :: worklist) :
    g.Underway (i :: taken) (g.spread { s with worklist } i) where
  supplied := ((h.supplied.take hworklist).spread i).congr fun j => g.toldBy_cons i taken j
  least {P} hstep j hj := by
    have htaken := h.supplied.take hworklist
    have hthen := (htaken.spread i).congr fun j => g.toldBy_cons i taken j
    obtain ⟨hlt, hle⟩ := (hthen.mem_iff j).1 hj
    refine hstep j (i :: taken) hlt (List.nodup_append.1 htaken.nodup).1 (fun k hk => ?_) hle
    refine h.least hstep k ?_
    rw [hworklist]
    rcases List.mem_cons.1 hk with rfl | hk
    · exact List.mem_append_right _ List.mem_cons_self
    · exact List.mem_append_left _ hk

theorem underway_begin (hpaired : g.states.size = g.nodes.size) : g.Underway [] g.begin := by
  have hmem : ∀ i, i ∈ [] ++ g.begin.worklist ↔ i < g.nodes.size ∧ g.needs i ≤ 0 := by
    intro i
    rw [List.nil_append, begin, List.mem_reverse, List.mem_filter, List.mem_range,
      decide_eq_true_iff, Nat.le_zero]
    rfl
  refine ⟨⟨hpaired, fun i => (Nat.sub_zero _).symm, fun _ => rfl, ?_, hmem, fun node => ?_⟩,
    fun {P} hstep i hi => ?_⟩
  · rw [List.nil_append, begin, List.nodup_reverse]
    exact List.nodup_range.filter _
  · simp only [begin, List.mem_map, List.nil_append, List.mem_reverse]
  · obtain ⟨hlt, hle⟩ := (hmem i).1 hi
    exact hstep i [] hlt List.nodup_nil (fun _ hj => absurd hj List.not_mem_nil) hle

/-- What is known when nobody is waiting any more. -/
structure Solved (g : ProductivityGraph) (taken : List Nat) (s : Solving) : Prop where
  nodup : taken.Nodup
  /-- A node is taken just if enough of the nodes taken enable it. -/
  mem_iff : ∀ i, i ∈ taken ↔ i < g.nodes.size ∧ g.needs i ≤ g.toldBy taken i
  productive_iff : ∀ node, node ∈ s.productive ↔ ∃ i ∈ taken, g.nodeAt i = node
  induction : ∀ {P : Nat → Prop},
    (∀ i (known : List Nat), i < g.nodes.size → known.Nodup → (∀ j ∈ known, P j) →
      g.needs i ≤ g.toldBy known i → P i) → ∀ i ∈ taken, P i

theorem Underway.solved (h : g.Underway taken s) (hdone : s.worklist = []) : g.Solved taken s := by
  obtain ⟨⟨-, -, -, hnodup, hmem, hproductive⟩, hleast⟩ := h
  rw [hdone, List.append_nil] at hnodup hmem hproductive
  refine ⟨hnodup, hmem, hproductive, fun hstep i hi => hleast hstep i ?_⟩
  rw [hdone, List.append_nil]
  exact hi

/-- No more nodes are taken and waiting than there are. -/
theorem Supplied.length_le (h : g.Supplied taken told s) :
    taken.length + s.worklist.length ≤ g.nodes.size := by
  have hsubset : taken ++ s.worklist ⊆ List.range g.nodes.size := fun i hi =>
    List.mem_range.2 ((h.mem_iff i).1 hi).1
  have hlength := (List.Nodup.subperm h.nodup hsubset).length_le
  rwa [List.length_append, List.length_range] at hlength

/-- With as much fuel as there are nodes that were not taken, the worklist is worked off, and every
node that is taken was one step. -/
theorem Underway.drained (h : g.Underway taken s) (hfuel : g.nodes.size ≤ taken.length + fuel) :
    ∃ taken', g.Solved taken' (g.drained fuel s) ∧ taken'.length = taken.length + g.pops
      fuel s := by
  induction fuel generalizing taken s with
  | zero =>
      have hle := h.supplied.length_le
      have hdone : s.worklist = [] := List.eq_nil_of_length_eq_zero (by omega)
      exact ⟨taken, h.solved hdone, rfl⟩
  | succ fuel ih =>
      rw [ProductivityGraph.drained, pops]
      cases hworklist : s.worklist with
      | nil => exact ⟨taken, h.solved hworklist, rfl⟩
      | cons i worklist =>
          obtain ⟨taken', hsolved, hlength⟩ := ih (h.spread hworklist)
            (by rw [List.length_cons]; omega)
          refine ⟨taken', hsolved, ?_⟩
          rw [hlength, List.length_cons]
          dsimp only
          omega

/-- Every node of the solution is taken once, and that is all that the run counts. -/
theorem exists_solved (hpaired : g.states.size = g.nodes.size) : ∃ taken,
    g.Solved taken (g.drained g.nodes.size g.begin) ∧
      taken.length = g.pops g.nodes.size g.begin := by
  obtain ⟨taken, hsolved, hlength⟩ := (underway_begin hpaired).drained
    (show g.nodes.size ≤ ([] : List Nat).length + g.nodes.size by simp)
  exact ⟨taken, hsolved, by rw [hlength, List.length_nil, Nat.zero_add]⟩

end ProductivityGraph

/-! ## The pass -/

/-- The module's own data that the worklist finds productive. -/
def Table.solvedData (t : Table) : List SymbolId :=
  t.ownData.filter fun data => t.productivityGraph.solution.contains (.function data)

/-- The module's own data that the worklist does not find. -/
def Table.unsolvedData (t : Table) : List SymbolId :=
  t.ownData.filter fun data => !t.productivityGraph.solution.contains (.function data)

/-- The pass takes some steps, and then reports what the worklist did not find. -/
theorem Draft.checkProductivity_eq : Draft.checkProductivity = do
    let t ← getTable
    let g := t.productivityGraph
    ticks (g.pops g.nodes.size g.begin)
    modify fun d =>
      { d with table := d.table.reportAll (t.unsolvedData.map (t.unproductiveReport d.names)) }
    return t.solvedData := by
  rw [checkProductivity]
  simp only [ProductivityGraph.solve_eq, bind_assoc, pure_bind, List.partition_eq_filter_filter]
  rfl

end ManySorted
