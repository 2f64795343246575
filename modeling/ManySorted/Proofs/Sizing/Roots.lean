import ManySorted.Proofs.Dependency

/-!
# Components come after what they depend on

The node of a component that a search finds first is left last (`DepGraph.Rooted`): while it is
visited, no other node of the component is on the stack, so all of them are found and left.  Hence a
component is listed when the search has left all its nodes, and everything that these depend on
outside of it is in a component before (`DepGraph.exists_component_before`).
-/

namespace ManySorted

universe u

namespace DepGraph

variable {N : Type u} {g : DepGraph N} {stack : List Nat} {state : Visit} {fuel i j : Nat}

/-- Two nodes that depend on each other. -/
def Mutual (g : DepGraph N) (i j : Nat) : Prop := g.Reaches i j ∧ g.Reaches j i

/-- A node that was found before all that depends on each other with it was left after all that. -/
def Rooted (g : DepGraph N) (state : Visit) : Prop :=
  ∀ p ∈ state.left, (∀ q, g.Mutual p q → q ≠ p → ¬ [p, q].Sublist state.found) →
    ∀ q, g.Mutual p q → q = p ∨ [p, q].Sublist state.left

/-- While a node is visited that is found before its component, all of that is left. -/
theorem Searching.mem_left (h : g.Searching (i :: stack) state)
    (htargets : ∀ j ∈ g.targets i, j ∈ state.found) (hnew : ∀ q, g.Mutual i q → q ∉ stack)
    (hj : g.Mutual i j) : j = i ∨ j ∈ state.left := by
  obtain ⟨hij, hji⟩ := hj
  induction hij with
  | refl => exact .inl rfl
  | @tail r j hir hrj ih =>
      have hfound : j ∈ state.found := by
        rcases ih (.head hrj hji) with rfl | hleft
        · exact htargets j hrj
        · exact h.targets r hleft j hrj
      rcases (h.found_iff j).1 hfound with hleft | hstack
      · exact .inr hleft
      · exact .inl ((List.mem_cons.1 hstack).resolve_right (hnew j ⟨hir.tail hrj, hji⟩))

theorem Rooted.push (h : g.Rooted state) (i : Nat) :
    g.Rooted { state with found := i :: state.found } :=
  fun p hp hfirst q hq => h p hp
    (fun r hr hne hsub => hfirst r hr hne (hsub.trans (List.sublist_cons_self i _))) q hq

theorem Rooted.leave (h : g.Rooted state)
    (hleft : (∀ q, g.Mutual i q → q ≠ i → ¬ [i, q].Sublist state.found) →
      ∀ q, g.Mutual i q → q = i ∨ q ∈ state.left) :
    g.Rooted { state with left := i :: state.left } := by
  intro p hp hfirst q hq
  rcases List.mem_cons.1 hp with rfl | hp
  · exact (hleft hfirst q hq).imp_right fun hmem =>
      List.cons_sublist_cons.2 (List.singleton_sublist.2 hmem)
  · exact (h p hp hfirst q hq).imp_right fun hsub => hsub.trans (List.sublist_cons_self i _)

theorem rooted_foldl (hg : g.InRange) (hroom : g.Room stack fuel)
    (hvisit : ∀ state i, g.Searching stack state → g.Rooted state → i < g.size →
      (∀ p ∈ stack, g.Reaches p i) → g.Rooted (g.visit fuel state i))
    (hstate : g.Searching stack state) (hrooted : g.Rooted state) (nodes : List Nat)
    (hlt : ∀ i ∈ nodes, i < g.size) (hreach : ∀ i ∈ nodes, ∀ p ∈ stack, g.Reaches p i) :
    g.Rooted (nodes.foldl (g.visit fuel) state) := by
  induction nodes generalizing state with
  | nil => exact hrooted
  | cons i rest ih =>
      have hi := hlt i List.mem_cons_self
      have hfirst := hvisit state i hstate hrooted hi (hreach i List.mem_cons_self)
      have hsearching := (visited_visit hg hroom hstate hi (hreach i List.mem_cons_self)).searching
      exact ih hsearching hfirst (fun j hj => hlt j (List.mem_cons_of_mem _ hj))
        fun j hj => hreach j (List.mem_cons_of_mem _ hj)

theorem rooted_visit (hg : g.InRange) (hroom : g.Room stack fuel) (hstate : g.Searching stack state)
    (hrooted : g.Rooted state) (hi : i < g.size) (hreach : ∀ p ∈ stack, g.Reaches p i) :
    g.Rooted (g.visit fuel state i) := by
  induction fuel generalizing stack state i with
  | zero => exact hrooted
  | succ fuel ih =>
      rw [visit]
      by_cases hfound : i ∈ state.found
      · rw [if_pos (List.contains_iff_mem.2 hfound)]
        exact hrooted
      · rw [if_neg (fun h => hfound (List.contains_iff_mem.1 h))]
        have hnew : i ∉ stack := fun h => hfound ((hstate.found_iff i).2 (.inr h))
        have hroom' := hroom.push hi hnew
        have hreach' := fun j (hj : j ∈ g.targets i) => reaches_of_target hreach hj
        have hbelow := rooted_foldl hg hroom' (fun state j hstate hrooted =>
            ih hroom' hstate hrooted)
          (hstate.push i) (hrooted.push i) (g.targets i) (hg i) hreach'
        have hvisited := visited_foldl (fun state j hstate => visited_visit hg hroom' hstate)
          (hstate.push i) (g.targets i) (hg i) hreach'
        have hgrown := suffix_foldl_visit (suffix_visit g fuel) (g.targets i)
          { state with found := i :: state.found }
        refine hbelow.leave fun hfirst q hq => ?_
        refine hvisited.searching.mem_left hvisited.found (fun r hr hstack => ?_) hq
        have hold : r ∈ state.found := (hstate.found_iff r).2 (.inr hstack)
        refine hfirst r hr (fun heq => hnew (heq ▸ hstack)) ?_
        exact (List.cons_sublist_cons.2 (List.singleton_sublist.2 hold)).trans hgrown.sublist

theorem rooted_visitAll (hg : g.InRange) (starts : List Nat) (hlt : ∀ i ∈ starts, i < g.size) :
    g.Rooted (g.visitAll starts) :=
  rooted_foldl hg (room_nil g)
    (fun _ _ hstate hrooted => rooted_visit hg (room_nil g) hstate hrooted) (searching_nil g)
    (fun _ hp => absurd hp List.not_mem_nil) starts hlt fun _ _ _ hp => absurd hp List.not_mem_nil

/-- What was left by the time that a node is left depends on nothing else, unless it reaches the
node. -/
theorem Closing.mem_of_path {rest : List Nat} {k r : Nat} (h : g.Closing (k :: rest))
    (hi : i ∈ k :: rest) (hedge : j ∈ g.targets i) (hback : ¬ g.Reaches j k) (hr : g.Reaches j r) :
    r ∈ rest := by
  induction hr with
  | refl => exact (h.1 i hi j hedge).resolve_right hback
  | tail hpath hstep ih =>
      refine (h.1 _ (List.mem_cons_of_mem _ ih) _ hstep).resolve_right fun hcycle => hback ?_
      exact (hpath.tail hstep).trans hcycle

theorem mem_of_pair_sublist {before after : List Nat} (hnodup : (before ++ i :: after).Nodup)
    (hsub : [i, j].Sublist (before ++ i :: after)) : j ∈ after := by
  induction before with
  | nil => exact List.singleton_sublist.1 (List.cons_sublist_cons.1 hsub)
  | cons k before ih =>
      have hnodup' := List.nodup_cons.1 hnodup
      cases hsub with
      | cons _ hsub => exact ih hnodup'.2 hsub
      | cons_cons _ _ =>
          exact absurd (List.mem_append_right before List.mem_cons_self) hnodup'.1

/-- The node that stands for a component was found first, so it is left last. -/
theorem mem_rest_of_listed (hg : g.InRange) {later rest c : List Nat} {k : Nat}
    (hleft : (g.visitAll (List.range g.size)).left = later ++ k :: rest)
    (hlisted : g.listed? k = some c) (hi : i ∈ c) : i ∈ k :: rest := by
  obtain ⟨hlast, rfl⟩ := listed?_eq_some.1 hlisted
  have hk : k ∈ (g.visitAll (List.range g.size)).left := by
    rw [hleft]
    exact List.mem_append_right _ List.mem_cons_self
  have hklt := lt_of_mem_left hg hk
  have hnodup := nodup_visitAll g (List.range g.size)
  have hfirst : ∀ q, g.Mutual k q → q ≠ k →
      ¬ [k, q].Sublist (g.visitAll (List.range g.size)).found := by
    intro q hq hne hsub
    have hgroup : [k, q].Sublist (g.groups.getD k []) := by
      rw [groups_eq hg hklt]
      have hall := hsub.filter fun j => decide (j ∈ g.reachable k ∧ k ∈ g.reachable j)
      rwa [List.filter_eq_self.2] at hall
      intro r hr
      rw [decide_eq_true_iff]
      rcases List.mem_cons.1 hr with rfl | hr
      · exact ⟨(mem_reachable hg hklt).2 .refl, (mem_reachable hg hklt).2 .refl⟩
      · rw [List.mem_singleton.1 hr]
        have hqlt := hg.lt_of_reaches hklt hq.1
        exact ⟨(mem_reachable hg hklt).2 hq.1, (mem_reachable hg hqlt).2 hq.2⟩
    have hgroupNodup : (g.groups.getD k []).Nodup := by
      rw [groups_eq hg hklt]
      exact hnodup.1.filter _
    obtain ⟨before, hbefore⟩ := List.getLast?_eq_some_iff.1 hlast
    rw [hbefore] at hgroup hgroupNodup
    exact absurd (mem_of_pair_sublist hgroupNodup hgroup) List.not_mem_nil
  have hmutual := (mem_groups hg hklt).1 hi
  rcases rooted_visitAll hg _ (fun _ h => List.mem_range.1 h) k hk hfirst i hmutual with rfl | hsub
  · exact List.mem_cons_self
  · rw [hleft] at hsub
    exact List.mem_cons_of_mem _ (mem_of_pair_sublist (hleft ▸ hnodup.2) hsub)

/-- What the nodes of a component depend on is in the component or in one before. -/
theorem exists_component_before (hg : g.InRange) {before after : List (List Nat)} {c : List Nat}
    (hcomponents : g.components = before ++ c :: after) (hi : i ∈ c) (hedge : j ∈ g.targets i) :
    j ∈ c ∨ ∃ c' ∈ before, j ∈ c' := by
  rw [components_eq] at hcomponents
  obtain ⟨first, second, hleft, rfl, hsecond⟩ := List.filterMap_eq_append_iff.1 hcomponents
  obtain ⟨skipped, k, later, rfl, hskipped, hlisted, _⟩ := List.filterMap_eq_cons_iff.1 hsecond
  have hvisited := visited_visitAll hg (List.range g.size) fun _ h => List.mem_range.1 h
  have hleft' : (g.visitAll (List.range g.size)).left =
      later.reverse ++ k :: (skipped.reverse ++ first.reverse) := by
    rw [← List.reverse_reverse (g.visitAll _).left, hleft]
    simp
  have hk : k < g.size := by
    refine lt_of_mem_left hg ?_
    rw [hleft']
    exact List.mem_append_right _ List.mem_cons_self
  obtain ⟨-, hgroup⟩ := listed?_eq_some.1 hlisted
  have hki := (mem_groups hg hk).1 (hgroup ▸ hi)
  by_cases hback : g.Reaches j k
  · exact .inl (hgroup ▸ (mem_groups hg hk).2 ⟨hki.1.tail hedge, hback⟩)
  · have hclosing := hvisited.searching.closing
    rw [hleft'] at hclosing
    have hrest := mem_rest_of_listed hg hleft' hlisted hi
    have hbefore : ∀ r, g.Reaches j r → r ∈ skipped ++ first := by
      intro r hr
      have hmem := hclosing.of_append.mem_of_path hrest hedge hback hr
      simpa [or_comm] using hmem
    -- the node that stands for the group of `j` was left before `k`
    have hj : j < g.size := hg i j hedge
    have hself : j ∈ g.groups.getD j [] := (mem_groups hg hj).2 ⟨.refl, .refl⟩
    obtain ⟨r, hr⟩ : ∃ r, (g.groups.getD j []).getLast? = some r :=
      ⟨_, List.getLast?_eq_some_getLast (List.ne_nil_of_mem hself)⟩
    have hmem : r ∈ g.groups.getD j [] := List.mem_of_getLast? hr
    have hlistedr : g.listed? r = some (g.groups.getD j []) :=
      listed?_eq_some.2 ⟨hr, groups_congr hg hj hmem⟩
    rcases List.mem_append.1 (hbefore r ((mem_groups hg hj).1 hmem).1) with hskip | hfirst
    · cases hlistedr.symm.trans (hskipped r hskip)
    · exact .inr ⟨_, List.mem_filterMap.2 ⟨r, hfirst, hlistedr⟩, hself⟩

end DepGraph

end ManySorted
