import Mathlib.Data.List.Nodup
import Mathlib.Logic.Relation
import ManySorted.Dependency

/-!
# The order of components

A depth-first search keeps a stack of nodes that are found and not yet left, each of which reaches
the node that is visited.  So when a node is left, whatever the nodes left so far depend on is left
as well, or reaches the node (`Closing`).  Hence a node that lies on no cycle comes after everything
that it depends on (`exists_component_of_target`).  Every node is in just one component
(`mem_components`, `nodup_components`).

## Strategy

* **What a search keeps.**  The nodes on the stack are those found and not left, and each of them
  reaches the node that is visited (`DepGraph.Searching`).  There is fuel for as many nodes as are
  not found yet (`DepGraph.Room`).
* **Visiting.**  A node is put on the stack, its targets are visited in turn, and it is left
  (`DepGraph.visited_visit`, by induction on the fuel).
* **Order.**  When a node is left, what it depends on was left before or reaches it
  (`DepGraph.Closing`), so a node on no cycle comes after all that it depends on
  (`DepGraph.exists_component_of_target`).
* **Partition.**  A search finds and leaves every node once (`DepGraph.nodup_visitAll`), and nodes
  that depend on each other share one group, which is listed once (`DepGraph.nodup_components`,
  `DepGraph.mem_components`).
-/

namespace ManySorted

universe u

namespace DepGraph

variable {N : Type u} {g : DepGraph N} {stack : List Nat} {state : Visit} {fuel i j : Nat}

/-- Every edge leads to a node of the graph. -/
def InRange (g : DepGraph N) : Prop := ∀ i, ∀ j ∈ g.targets i, j < g.size

/-- Whether a path of edges leads from one node to another. -/
abbrev Reaches (g : DepGraph N) : Nat → Nat → Prop :=
  Relation.ReflTransGen fun i j => j ∈ g.targets i

theorem InRange.lt_of_reaches (hg : g.InRange) (hi : i < g.size) (h : g.Reaches i j) :
    j < g.size := by
  induction h with
  | refl => exact hi
  | tail _ hedge _ => exact hg _ _ hedge

/-- When a node is left, what the nodes left so far depend on was left before or reaches it. -/
def Closing (g : DepGraph N) : List Nat → Prop
  | [] => True
  | i :: rest => (∀ p ∈ i :: rest, ∀ q ∈ g.targets p, q ∈ rest ∨ g.Reaches q i) ∧ Closing g rest

theorem Closing.of_append {before after : List Nat} (h : g.Closing (after ++ before)) :
    g.Closing before := by
  induction after with
  | nil => exact h
  | cons _ _ ih => exact ih h.2

/-- What a node on no cycle depends on was left before it, with all that it reaches. -/
theorem Closing.mem_of_reaches {rest : List Nat} (h : g.Closing (i :: rest))
    (hedge : j ∈ g.targets i) (hback : ¬ g.Reaches j i) {r : Nat} (hr : g.Reaches j r) :
    r ∈ rest := by
  induction hr with
  | refl => exact (h.1 i List.mem_cons_self j hedge).resolve_right hback
  | tail hpath hstep ih =>
      refine (h.1 _ (List.mem_cons_of_mem _ ih) _ hstep).resolve_right fun hcycle => hback ?_
      exact (hpath.tail hstep).trans hcycle

/-! ## What a search keeps -/

/-- The nodes on the stack are those found and not left. -/
structure Searching (g : DepGraph N) (stack : List Nat) (state : Visit) : Prop where
  found_iff : ∀ p, p ∈ state.found ↔ p ∈ state.left ∨ p ∈ stack
  targets : ∀ p ∈ state.left, ∀ q ∈ g.targets p, q ∈ state.found
  closing : g.Closing state.left

theorem searching_nil (g : DepGraph N) : g.Searching [] {} :=
  ⟨fun p => by simp, fun p hp => absurd hp List.not_mem_nil, trivial⟩

/-- Finding a node puts it on the stack. -/
theorem Searching.push (h : g.Searching stack state) (i : Nat) :
    g.Searching (i :: stack) { state with found := i :: state.found } where
  found_iff p := by rw [List.mem_cons, List.mem_cons, h.found_iff, or_left_comm]
  targets p hp q hq := List.mem_cons_of_mem _ (h.targets p hp q hq)
  closing := h.closing

/-- The stack leaves room for `fuel` more nodes. -/
structure Room (g : DepGraph N) (stack : List Nat) (fuel : Nat) : Prop where
  nodup : stack.Nodup
  lt : ∀ p ∈ stack, p < g.size
  size_le : g.size ≤ stack.length + fuel

theorem room_nil (g : DepGraph N) : g.Room [] g.size :=
  ⟨List.nodup_nil, fun p hp => absurd hp List.not_mem_nil, by simp⟩

/-- A stack that leaves no room holds every node. -/
theorem Room.mem_of_full (h : g.Room stack 0) (hi : i < g.size) : i ∈ stack := by
  by_cases hmem : i ∈ stack
  · exact hmem
  · have hsub : (i :: stack) ⊆ List.range g.size := by
      intro p hp
      rcases List.mem_cons.1 hp with rfl | hp
      · exact List.mem_range.2 hi
      · exact List.mem_range.2 (h.lt p hp)
    have hle := (List.nodup_cons.2 ⟨hmem, h.nodup⟩).length_le_of_subset hsub
    rw [List.length_cons, List.length_range] at hle
    exact absurd (Nat.le_trans hle h.size_le) (Nat.not_succ_le_self _)

theorem Room.push (h : g.Room stack (fuel + 1)) (hi : i < g.size) (hnew : i ∉ stack) :
    g.Room (i :: stack) fuel where
  nodup := List.nodup_cons.2 ⟨hnew, h.nodup⟩
  lt p hp := by
    rcases List.mem_cons.1 hp with rfl | hp
    · exact hi
    · exact h.lt p hp
  size_le := by
    have := h.size_le
    rw [List.length_cons]
    omega

/-- The stack with a node on top reaches what the node depends on. -/
theorem reaches_of_target (hreach : ∀ p ∈ stack, g.Reaches p i) (hedge : j ∈ g.targets i) :
    ∀ p ∈ i :: stack, g.Reaches p j := by
  intro p hp
  rcases List.mem_cons.1 hp with rfl | hp
  · exact .single hedge
  · exact (hreach p hp).tail hedge

/-- What visiting nodes does to a search. -/
structure Visited (g : DepGraph N) (stack : List Nat) (state state' : Visit) (nodes : List Nat) :
    Prop where
  searching : g.Searching stack state'
  mono : ∀ p ∈ state.found, p ∈ state'.found
  found : ∀ p ∈ nodes, p ∈ state'.found

/-- Visiting nodes in turn, where visiting a single one does as it should. -/
theorem visited_foldl (hvisit : ∀ state i, g.Searching stack state → i < g.size →
      (∀ p ∈ stack, g.Reaches p i) → g.Visited stack state (g.visit fuel state i) [i])
    (hstate : g.Searching stack state) (nodes : List Nat) (hlt : ∀ i ∈ nodes, i < g.size)
    (hreach : ∀ i ∈ nodes, ∀ p ∈ stack, g.Reaches p i) :
    g.Visited stack state (nodes.foldl (g.visit fuel) state) nodes := by
  induction nodes generalizing state with
  | nil => exact ⟨hstate, fun _ hp => hp, fun _ hp => absurd hp List.not_mem_nil⟩
  | cons i rest ih =>
      have hfirst := hvisit state i hstate (hlt i List.mem_cons_self) (hreach i List.mem_cons_self)
      have hrest := ih hfirst.searching (fun j hj => hlt j (List.mem_cons_of_mem _ hj))
        fun j hj => hreach j (List.mem_cons_of_mem _ hj)
      refine ⟨hrest.searching, fun p hp => hrest.mono p (hfirst.mono p hp), fun p hp => ?_⟩
      rcases List.mem_cons.1 hp with rfl | hp
      · exact hrest.mono p (hfirst.found p (List.mem_singleton_self p))
      · exact hrest.found p hp

/-- Leaving a node whose targets are all found. -/
theorem Searching.leave (h : g.Searching (i :: stack) state)
    (htargets : ∀ q ∈ g.targets i, q ∈ state.found) (hreach : ∀ p ∈ stack, g.Reaches p i) :
    g.Searching stack { state with left := i :: state.left } where
  found_iff p := by
    rw [h.found_iff, List.mem_cons, List.mem_cons, or_left_comm, or_assoc]
  targets p hp q hq := by
    rcases List.mem_cons.1 hp with rfl | hp
    · exact htargets q hq
    · exact h.targets p hp q hq
  closing := by
    refine ⟨fun p hp q hq => ?_, h.closing⟩
    have hfound : q ∈ state.found := by
      rcases List.mem_cons.1 hp with rfl | hp
      · exact htargets q hq
      · exact h.targets p hp q hq
    rcases (h.found_iff q).1 hfound with hleft | hstack
    · exact .inl hleft
    · rcases List.mem_cons.1 hstack with rfl | hstack
      · exact .inr .refl
      · exact .inr (hreach q hstack)

/-- Visiting a node that the stack reaches. -/
theorem visited_visit (hg : g.InRange) (hroom : g.Room stack fuel)
    (hstate : g.Searching stack state) (hi : i < g.size) (hreach : ∀ p ∈ stack, g.Reaches p i) :
    g.Visited stack state (g.visit fuel state i) [i] := by
  induction fuel generalizing stack state i with
  | zero =>
      refine ⟨hstate, fun _ hp => hp, fun p hp => ?_⟩
      rw [List.mem_singleton.1 hp]
      exact (hstate.found_iff i).2 (.inr (hroom.mem_of_full hi))
  | succ fuel ih =>
      rw [visit]
      by_cases hfound : i ∈ state.found
      · rw [if_pos (List.contains_iff_mem.2 hfound)]
        exact ⟨hstate, fun _ hp => hp, fun p hp => List.mem_singleton.1 hp ▸ hfound⟩
      · rw [if_neg (fun h => hfound (List.contains_iff_mem.1 h))]
        have hnew : i ∉ stack := fun h => hfound ((hstate.found_iff i).2 (.inr h))
        have hbelow := visited_foldl (fun state j => ih (hroom.push hi hnew)) (hstate.push i)
          (g.targets i) (hg i) fun j hj => reaches_of_target hreach hj
        refine ⟨hbelow.searching.leave hbelow.found hreach, fun p hp => ?_, fun p hp => ?_⟩
        · exact hbelow.mono p (List.mem_cons_of_mem _ hp)
        · rw [List.mem_singleton.1 hp]
          exact hbelow.mono i List.mem_cons_self

/-- A search that starts from some nodes finds them, and leaves whatever it finds. -/
theorem visited_visitAll (hg : g.InRange) (starts : List Nat) (hlt : ∀ i ∈ starts, i < g.size) :
    g.Visited [] {} (g.visitAll starts) starts :=
  visited_foldl (fun _ _ hstate hi => visited_visit hg (room_nil g) hstate hi) (searching_nil g)
    starts hlt fun _ _ _ hp => absurd hp List.not_mem_nil

theorem mem_left_visitAll (hg : g.InRange) {starts : List Nat} (hlt : ∀ i ∈ starts, i < g.size) :
    i ∈ (g.visitAll starts).left ↔ i ∈ (g.visitAll starts).found := by
  have hsearch := (visited_visitAll hg starts hlt).searching.found_iff i
  rw [hsearch]
  exact ⟨.inl, fun h => h.resolve_right List.not_mem_nil⟩

/-! ## What was found stays found -/

theorem suffix_foldl_visit (hvisit : ∀ state i, state.found <:+ (g.visit fuel state i).found)
    (nodes : List Nat) (state : Visit) :
    state.found <:+ (nodes.foldl (g.visit fuel) state).found := by
  induction nodes generalizing state with
  | nil => exact List.suffix_rfl
  | cons i rest ih => exact (hvisit state i).trans (ih _)

theorem suffix_visit (g : DepGraph N) (fuel : Nat) (state : Visit) (i : Nat) :
    state.found <:+ (g.visit fuel state i).found := by
  induction fuel generalizing state i with
  | zero => exact List.suffix_rfl
  | succ fuel ih =>
      rw [visit]
      split
      · exact List.suffix_rfl
      · exact (List.suffix_cons i state.found).trans
          (suffix_foldl_visit ih (g.targets i) { state with found := i :: state.found })

/-! ## Reachability -/

/-- A search finds nothing but what its start reaches. -/
theorem found_visit {P : Nat → Prop} (hclosed : ∀ p, P p → ∀ q ∈ g.targets p, P q)
    (hstate : ∀ p ∈ state.found, P p) (hi : P i) : ∀ p ∈ (g.visit fuel state i).found, P p := by
  induction fuel generalizing state i with
  | zero => exact hstate
  | succ fuel ih =>
      rw [visit]
      split
      · exact hstate
      · refine List.foldlRecOn (motive := fun s : Visit => ∀ p ∈ s.found, P p) (g.targets i) _ ?_ ?_
        · intro p hp
          rcases List.mem_cons.1 hp with rfl | hp
          · exact hi
          · exact hstate p hp
        · exact fun s hs j hj => ih hs (hclosed i hi j hj)

theorem mem_reachable (hg : g.InRange) (hi : i < g.size) : j ∈ g.reachable i ↔ g.Reaches i j := by
  have hvisited := visited_visitAll hg [i] (by simpa using hi)
  constructor
  · exact found_visit (P := g.Reaches i) (fun p hp q hq => hp.tail hq)
      (fun p hp => absurd hp List.not_mem_nil) .refl j
  · intro h
    induction h with
    | refl => exact hvisited.found i (List.mem_singleton_self i)
    | tail _ hedge ih =>
        refine hvisited.searching.targets _ ?_ _ hedge
        exact (mem_left_visitAll hg (by simpa using hi)).2 ih

theorem getD_membership (n : Nat) (l : List Nat) (j : Nat) :
    (membership n l).getD j false = decide (j < n ∧ j ∈ l) := by
  have hfold : ∀ (l : List Nat) (marks : Array Bool), marks.size = n →
      (l.foldl (fun marks i => marks.setIfInBounds i true) marks).getD j false =
        (marks.getD j false || decide (j < n ∧ j ∈ l)) := by
    intro l
    induction l with
    | nil => simp
    | cons i rest ih =>
        intro marks hsize
        rw [List.foldl_cons, ih _ (by rw [Array.size_setIfInBounds, hsize])]
        simp only [Array.getD_eq_getD_getElem?, Array.getElem?_setIfInBounds, List.mem_cons, hsize]
        by_cases hij : i = j
        · subst hij
          by_cases hlt : i < n <;> simp [hlt, hsize]
        · have hji : ¬ j = i := fun h => hij h.symm
          simp [hij, hji]
  rw [membership, hfold l _ (by simp)]
  by_cases hlt : j < n <;> simp [hlt]

/-! ## Components -/

theorem mem_order (hg : g.InRange) :
    i ∈ (g.visitAll (List.range g.size)).found ↔ i < g.size := by
  constructor
  · refine List.foldlRecOn (motive := fun s : Visit => ∀ p ∈ s.found, p < g.size)
      (List.range g.size) _ (fun p hp => absurd hp List.not_mem_nil) (fun s hs j hj => ?_) i
    exact found_visit (fun p _ q hq => hg p q hq) hs (List.mem_range.1 hj)
  · intro hi
    exact (visited_visitAll hg _ fun _ h => List.mem_range.1 h).found i (List.mem_range.2 hi)

/-- The nodes that depend on each other with `i`. -/
theorem groups_eq (hg : g.InRange) (hi : i < g.size) :
    g.groups.getD i [] = (g.visitAll (List.range g.size)).found.filter fun j =>
      decide (j ∈ g.reachable i ∧ i ∈ g.reachable j) := by
  have hreaches : ∀ a b, a < g.size → b < g.size → (((Array.range g.size).map fun i =>
      membership g.size (g.reachable i)).getD a #[]).getD b false = decide (b ∈ g.reachable a) := by
    intro a b ha hb
    have hrow : ((Array.range g.size).map fun i => membership g.size (g.reachable i)).getD a #[] =
        membership g.size (g.reachable a) := by simp [ha]
    rw [hrow, getD_membership]
    simp [hb]
  have hgroup : g.groups.getD i [] = (g.visitAll (List.range g.size)).found.filter fun j =>
      (((Array.range g.size).map fun i =>
        membership g.size (g.reachable i)).getD i #[]).getD j false
        && (((Array.range g.size).map fun i => membership g.size (g.reachable i)).getD j #[]).getD i
          false := by
    simp [groups, hi]
  rw [hgroup]
  refine List.filter_congr fun j hj => ?_
  have hj := (mem_order hg).1 hj
  rw [hreaches i j hi hj, hreaches j i hj hi, Bool.decide_and]

theorem mem_groups (hg : g.InRange) (hi : i < g.size) :
    j ∈ g.groups.getD i [] ↔ g.Reaches i j ∧ g.Reaches j i := by
  rw [groups_eq hg hi, List.mem_filter, mem_order hg, decide_eq_true_iff, mem_reachable hg hi]
  constructor
  · rintro ⟨hj, hij, hji⟩
    exact ⟨hij, (mem_reachable hg hj).1 hji⟩
  · rintro ⟨hij, hji⟩
    have hj := hg.lt_of_reaches hi hij
    exact ⟨hj, hij, (mem_reachable hg hj).2 hji⟩

/-- Nodes that depend on each other have the same group. -/
theorem groups_congr (hg : g.InRange) (hi : i < g.size) (hj : j ∈ g.groups.getD i []) :
    g.groups.getD j [] = g.groups.getD i [] := by
  obtain ⟨hij, hji⟩ := (mem_groups hg hi).1 hj
  have hlt := hg.lt_of_reaches hi hij
  rw [groups_eq hg hi, groups_eq hg hlt]
  refine List.filter_congr fun k hk => decide_eq_decide.2 ?_
  have hk := (mem_order hg).1 hk
  rw [mem_reachable hg hi, mem_reachable hg hlt, mem_reachable hg hk, mem_reachable hg hk]
  exact ⟨fun h => ⟨hij.trans h.1, h.2.trans hji⟩, fun h => ⟨hji.trans h.1, h.2.trans hij⟩⟩

/-- The group that is listed when a node is left, if the node stands for it. -/
def listed? (g : DepGraph N) (i : Nat) : Option (List Nat) :=
  if (g.groups.getD i []).getLast? = some i then some (g.groups.getD i []) else none

theorem components_eq (g : DepGraph N) :
    g.components = (g.visitAll (List.range g.size)).left.reverse.filterMap g.listed? := by
  rw [components, List.filterMap_map]
  rfl

/-- A node whose group is listed comes after all that it depends on, unless it lies on a cycle. -/
theorem exists_component_of_target (hg : g.InRange) {before after : List (List Nat)}
    (hcomponents : g.components = before ++ [i] :: after) (hacyclic : g.isCyclic [i] = false)
    (hedge : j ∈ g.targets i) : ∃ c ∈ before, j ∈ c := by
  rw [components_eq] at hcomponents
  obtain ⟨first, second, hleft, rfl, hsecond⟩ := List.filterMap_eq_append_iff.1 hcomponents
  obtain ⟨skipped, k, later, rfl, hskipped, hlisted, _⟩ := List.filterMap_eq_cons_iff.1 hsecond
  have hgroup : (g.groups.getD k []).getLast? = some k ∧ g.groups.getD k [] = [i] := by
    unfold listed? at hlisted
    split at hlisted
    · exact ⟨‹_›, Option.some.inj hlisted⟩
    · cases hlisted
  obtain rfl : i = k := by simpa [hgroup.2] using hgroup.1
  have hvisited := visited_visitAll hg (List.range g.size) fun _ h => List.mem_range.1 h
  have hleft' : (g.visitAll (List.range g.size)).left =
      later.reverse ++ i :: (skipped.reverse ++ first.reverse) := by
    rw [← List.reverse_reverse (g.visitAll _).left, hleft]
    simp
  have hi : i < g.size := by
    rw [← mem_order hg, ← mem_left_visitAll hg fun _ h => List.mem_range.1 h, hleft']
    simp
  have hne : j ≠ i := by
    rintro rfl
    simp [isCyclic, hedge] at hacyclic
  have hback : ¬ g.Reaches j i := by
    intro hji
    have hmem : j ∈ g.groups.getD i [] := (mem_groups hg hi).2 ⟨.single hedge, hji⟩
    rw [hgroup.2] at hmem
    exact hne (List.mem_singleton.1 hmem)
  have hclosing := hvisited.searching.closing
  rw [hleft'] at hclosing
  have hbefore : ∀ r, g.Reaches j r → r ∈ skipped ++ first := by
    intro r hr
    have hmem := hclosing.of_append.mem_of_reaches hedge hback hr
    simpa [or_comm] using hmem
  -- the node that stands for the group of `j` was left before `i`
  have hj : j < g.size := hg i j hedge
  have hself : j ∈ g.groups.getD j [] := (mem_groups hg hj).2 ⟨.refl, .refl⟩
  obtain ⟨r, hr⟩ : ∃ r, (g.groups.getD j []).getLast? = some r :=
    ⟨_, List.getLast?_eq_some_getLast (List.ne_nil_of_mem hself)⟩
  have hmem : r ∈ g.groups.getD j [] := List.mem_of_getLast? hr
  have hlisted : g.listed? r = some (g.groups.getD j []) := by
    rw [listed?, groups_congr hg hj hmem, if_pos hr]
  rcases List.mem_append.1 (hbefore r ((mem_groups hg hj).1 hmem).1) with hskip | hfirst
  · cases hlisted.symm.trans (hskipped r hskip)
  · exact ⟨_, List.mem_filterMap.2 ⟨r, hfirst, hlisted⟩, hself⟩

/-! ## Every node is in one component -/

end DepGraph

/-- What a search adds: nodes that were not found before, each once. -/
structure Visit.Adds (state state' : Visit) : Prop where
  mono : ∀ p ∈ state.found, p ∈ state'.found
  nodup : state.found.Nodup → state'.found.Nodup
  left : ∃ news, state'.left = news ++ state.left ∧ news.Nodup ∧
    ∀ p ∈ news, p ∉ state.found ∧ p ∈ state'.found

theorem Visit.Adds.refl (state : Visit) : state.Adds state :=
  ⟨fun _ hp => hp, fun h => h, [], rfl, List.nodup_nil, fun _ hp => absurd hp List.not_mem_nil⟩

theorem Visit.Adds.trans {state state' state'' : Visit} (h : state.Adds state')
    (h' : state'.Adds state'') : state.Adds state'' where
  mono p hp := h'.mono p (h.mono p hp)
  nodup hstate := h'.nodup (h.nodup hstate)
  left := by
    obtain ⟨news, hleft, hnodup, hnews⟩ := h.left
    obtain ⟨news', hleft', hnodup', hnews'⟩ := h'.left
    refine ⟨news' ++ news, by rw [hleft', hleft, List.append_assoc], ?_, fun p hp => ?_⟩
    · exact List.nodup_append.2 ⟨hnodup', hnodup, fun p hp q hq hpq =>
        (hnews' p hp).1 (hpq ▸ (hnews q hq).2)⟩
    · rcases List.mem_append.1 hp with hp | hp
      · exact ⟨fun hfound => (hnews' p hp).1 (h.mono p hfound), (hnews' p hp).2⟩
      · exact ⟨(hnews p hp).1, h'.mono p (hnews p hp).2⟩

namespace DepGraph

variable {N : Type u} {g : DepGraph N} {i : Nat}

theorem adds_visit (g : DepGraph N) (fuel : Nat) (state : Visit) (i : Nat) :
    state.Adds (g.visit fuel state i) := by
  induction fuel generalizing state i with
  | zero => exact .refl state
  | succ fuel ih =>
      rw [visit]
      split
      · exact .refl state
      · rename_i hcontains
        have hnew : i ∉ state.found := fun h => hcontains (List.contains_iff_mem.2 h)
        have hbelow : Visit.Adds { state with found := i :: state.found }
            ((g.targets i).foldl (g.visit fuel) { state with found := i :: state.found }) :=
          List.foldlRecOn (motive := Visit.Adds { state with found := i :: state.found })
            (g.targets i) _ (.refl _) fun state' h j _ => h.trans (ih state' j)
        obtain ⟨news, hleft, hnodup, hnews⟩ := hbelow.left
        have hfound := hbelow.mono i List.mem_cons_self
        refine ⟨fun p hp => hbelow.mono p (List.mem_cons_of_mem i hp),
          fun h => hbelow.nodup (List.nodup_cons.2 ⟨hnew, h⟩), i :: news, ?_, ?_, fun p hp => ?_⟩
        · exact congrArg (i :: ·) hleft
        · exact List.nodup_cons.2 ⟨fun h => (hnews i h).1 List.mem_cons_self, hnodup⟩
        · rcases List.mem_cons.1 hp with rfl | hp
          · exact ⟨hnew, hfound⟩
          · exact ⟨fun h => (hnews p hp).1 (List.mem_cons_of_mem i h), (hnews p hp).2⟩

/-- A search finds every node once and leaves it once. -/
theorem nodup_visitAll (g : DepGraph N) (starts : List Nat) :
    (g.visitAll starts).found.Nodup ∧ (g.visitAll starts).left.Nodup := by
  have hadds : Visit.Adds {} (g.visitAll starts) :=
    List.foldlRecOn (motive := Visit.Adds {}) starts _ (.refl _) fun state h i _ =>
      h.trans (adds_visit g g.size state i)
  obtain ⟨news, hleft, hnodup, _⟩ := hadds.left
  rw [hleft, List.append_nil]
  exact ⟨hadds.nodup List.nodup_nil, hnodup⟩

theorem listed?_eq_some {group : List Nat} : g.listed? i = some group ↔
    group.getLast? = some i ∧ g.groups.getD i [] = group := by
  unfold listed?
  split
  · rename_i hlast
    exact ⟨fun h => ⟨Option.some.inj h ▸ hlast, Option.some.inj h⟩, fun h => congrArg some h.2⟩
  · rename_i hlast
    refine ⟨fun h => absurd h (by simp), fun h => absurd ?_ hlast⟩
    rw [h.2]
    exact h.1

theorem lt_of_mem_left (hg : g.InRange) (hi : i ∈ (g.visitAll (List.range g.size)).left) :
    i < g.size :=
  (mem_order hg).1 ((mem_left_visitAll hg fun _ h => List.mem_range.1 h).1 hi)

/-- No node is in two components, nor twice in one. -/
theorem nodup_components (hg : g.InRange) : g.components.flatten.Nodup := by
  rw [components_eq, List.nodup_flatten]
  constructor
  · intro group hgroup
    obtain ⟨i, hi, hlisted⟩ := List.mem_filterMap.1 hgroup
    rw [← (listed?_eq_some.1 hlisted).2,
      groups_eq hg (lt_of_mem_left hg (List.mem_reverse.1 hi))]
    exact (nodup_visitAll g _).1.filter _
  · refine List.pairwise_filterMap.2 ?_
    have hleft := List.nodup_reverse.2 (nodup_visitAll g (List.range g.size)).2
    refine hleft.imp_of_mem fun {i j} hi hj hne group hgroup group' hgroup' => ?_
    obtain ⟨hlast, rfl⟩ := listed?_eq_some.1 hgroup
    obtain ⟨hlast', rfl⟩ := listed?_eq_some.1 hgroup'
    have hi := lt_of_mem_left hg (List.mem_reverse.1 hi)
    have hj := lt_of_mem_left hg (List.mem_reverse.1 hj)
    -- a common node would make the groups one, and so the nodes that stand for them
    intro p hp hp'
    have hsame := (groups_congr hg hi hp).symm.trans (groups_congr hg hj hp')
    rw [hsame, hlast'] at hlast
    exact hne (Option.some.inj hlast).symm

/-- Every node is in a component. -/
theorem mem_components (hg : g.InRange) (hi : i < g.size) : i ∈ g.components.flatten := by
  have hself : i ∈ g.groups.getD i [] := (mem_groups hg hi).2 ⟨.refl, .refl⟩
  obtain ⟨r, hr⟩ : ∃ r, (g.groups.getD i []).getLast? = some r :=
    ⟨_, List.getLast?_eq_some_getLast (List.ne_nil_of_mem hself)⟩
  have hmem : r ∈ g.groups.getD i [] := List.mem_of_getLast? hr
  have hlisted : g.listed? r = some (g.groups.getD i []) :=
    listed?_eq_some.2 ⟨hr, groups_congr hg hi hmem⟩
  have hleft : r ∈ (g.visitAll (List.range g.size)).left :=
    (mem_left_visitAll hg fun _ h => List.mem_range.1 h).2
      ((mem_order hg).2 (hg.lt_of_reaches hi ((mem_groups hg hi).1 hmem).1))
  rw [components_eq]
  exact List.mem_flatten.2 ⟨_, List.mem_filterMap.2 ⟨r, List.mem_reverse.2 hleft, hlisted⟩, hself⟩

end DepGraph

end ManySorted
