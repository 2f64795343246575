import ManySorted.Proofs.Dependency.Linked
import ManySorted.Proofs.Sizing.Graph
import ManySorted.Proofs.Sizing.Outlets

/-!
# Strong components

However a graph was made of nodes and edges, its components are what a search with low links lists.
They are the classes of nodes that reach each other, each after those that it depends on
(`DepGraph.strong_components`).

## Strategy

* **The depth-first search is the guide.**  A search with low links is as far as a depth-first
  search if its frames are the path, its numbers count the nodes that were found before, its stack
  holds the open nodes and it has listed the groups of the nodes that were left
  (`DepGraph.Follows`).
* **It keeps up.**  Whatever a depth-first search makes of a node, a search with low links comes to
  the same in some steps (`DepGraph.explores`), by the fuel of the depth-first search and by the
  edges of a node: in the midst of these the low link of the node is right as far as they were
  followed (`DepGraph.Amid`).  So both list the same components in the same order
  (`DepGraph.lowLinkComponents_eq`).
* **What is listed** is known from the depth-first search: groups of nodes that reach each other.
-/

namespace ManySorted

universe u

namespace DepGraph

variable {N : Type u} {g : DepGraph N} {path old done todo : List Nat} {state below : Visit}
  {s s' : LinkSearch} {frames : List (Nat × Nat)} {fuel i j n : Nat}

section

open scoped Classical

/-- A search with low links is as far as a depth-first search on a path. -/
structure Follows (g : DepGraph N) (path : List Nat) (state : Visit) (s : LinkSearch) : Prop where
  frames : s.frames.map Prod.fst = path
  number : ∀ i, s.number i = if i ∈ state.found then some (rank state.found i) else none
  counter : s.counter = state.found.length
  stack : s.stack = state.found.filter fun i => decide (g.Open path i)
  waiting : ∀ i, s.waiting i = true ↔ i ∈ s.stack
  listed : s.listed = state.left.reverse.filterMap g.listed?

theorem Follows.waiting_iff (h : g.Follows path state s) (hi : i ∈ state.found) :
    s.waiting i = true ↔ g.Open path i := by
  rw [h.waiting, h.stack, List.mem_filter, and_iff_right hi, decide_eq_true_iff]

theorem Follows.enter (h : g.Follows path state s) (hstate : g.Searching path state)
    (hreach : ∀ p ∈ path, g.Reaches p i) (hnew : i ∉ state.found) :
    g.Follows (i :: path) { state with found := i :: state.found } (s.enter i) where
  frames := congrArg (i :: ·) h.frames
  number j := by
    by_cases hj : j = i
    · simp [LinkSearch.enter, hj, rank, h.counter]
    · simp [LinkSearch.enter, hj, rank, h.number]
  counter := congrArg (· + 1) h.counter
  stack := by
    rw [List.filter_cons_of_pos (p := fun j => decide (g.Open (i :: path) j))
      (decide_eq_true (open_self i path))]
    refine congrArg (i :: ·) (h.stack.trans (List.filter_congr fun j hj => ?_))
    exact decide_eq_decide.2 (hstate.open_cons_iff hreach hnew hj).symm
  waiting j := by
    by_cases hj : j = i
    · simp [LinkSearch.enter, hj]
    · simp [LinkSearch.enter, hj, h.waiting]
  listed := h.listed

/-- Neither low links nor the edges that were followed matter here. -/
theorem Follows.with_frames (h : g.Follows path state s) (hframes : frames.map Prod.fst = path) :
    g.Follows path state { s with frames } :=
  ⟨hframes, h.number, h.counter, h.stack, h.waiting, h.listed⟩

theorem Follows.lower (h : g.Follows path state s) (i n : Nat) :
    g.Follows path state (s.lower i n) :=
  ⟨h.frames, h.number, h.counter, h.stack, h.waiting, h.listed⟩

theorem Follows.drop (h : g.Follows (i :: path) below s) (hframes : frames.map Prod.fst = path)
    (hstack : s.stack = below.found.filter fun j => decide (g.Open path j))
    (hlisted : g.listed? i = none) :
    g.Follows path { below with left := i :: below.left } (s.drop i frames) where
  frames := by rw [LinkSearch.frames_drop, hframes]
  number := by simpa using h.number
  counter := by simpa using h.counter
  stack := by simpa using hstack
  waiting := by simpa using h.waiting
  listed := by simpa [hlisted] using h.listed

theorem Follows.close (h : g.Follows (i :: path) below s) (hframes : frames.map Prod.fst = path)
    (hnodup : s.stack.Nodup) {before after : List Nat} (hstack : s.stack = before ++ i :: after)
    (hafter : after = below.found.filter fun j => decide (g.Open path j))
    (hlisted : g.listed? i = some (before ++ [i])) :
    g.Follows path { below with left := i :: below.left } ((s.drop i frames).close i) := by
  rw [hstack] at hnodup
  have hbefore : i ∉ before := fun hi =>
    (List.nodup_append.1 hnodup).2.2 i hi i List.mem_cons_self rfl
  have hpop : popTo i s.stack = (before ++ [i], after) := by rw [hstack, popTo_append after hbefore]
  rw [List.append_cons] at hnodup hstack
  constructor
  · simpa [LinkSearch.close] using hframes
  · simpa [LinkSearch.close] using h.number
  · simpa [LinkSearch.close] using h.counter
  · simpa [LinkSearch.close, hpop] using hafter
  · intro j
    have hwaiting : s.waiting j = true ↔ j ∈ before ++ [i] ∨ j ∈ after := by
      rw [h.waiting, hstack, List.mem_append]
    have hdisjoint : j ∈ after → j ∉ before ++ [i] := fun hafter hbefore =>
      (List.nodup_append.1 hnodup).2.2 j hbefore j hafter rfl
    rw [LinkSearch.close, LinkSearch.waiting_drop, LinkSearch.stack_drop, hpop, Bool.and_eq_true,
      hwaiting, Bool.not_eq_true', ← Bool.not_eq_true, List.contains_iff_mem]
    exact ⟨fun hj => hj.1.resolve_left hj.2, fun hj => ⟨.inr hj, hdisjoint hj⟩⟩
  · simp [LinkSearch.close, hpop, h.listed, hlisted]

/-- What is found when a node is left is found by the whole search. -/
theorem Follows.leave (h : g.Follows (i :: path) below s) (hg : g.InRange) (hi : i < g.size)
    (hleaving : g.Leaving path state below i)
    (hwithin : below.found <:+ (g.visitAll (List.range g.size)).found)
    (hlinked : g.Linked (i :: path) state.found below.found (g.targets i) i (s.low i))
    (hframes : frames.map Prod.fst = path) :
    g.Follows path { below with left := i :: below.left } (s.leave i frames) := by
  have hself : i ∈ below.found := hleaving.suffix.subset List.mem_cons_self
  have hnumber : s.number i = some state.found.length := by
    rw [h.number, if_pos hself, hleaving.rank_self]
  have hlow : (s.drop i frames).low i = s.low i := by
    refine LinkSearch.low_drop_of_ne s i frames fun frame hframe heq => ?_
    have hpath : i ∈ path := by
      rw [heq, ← hframes]
      exact List.mem_map_of_mem (List.mem_of_head? hframe)
    exact hleaving.new (hleaving.mem_found_of_path hpath)
  have hclose : (s.drop i frames).number i = some ((s.drop i frames).low i) ↔
      ¬ g.Open path i := by
    rw [LinkSearch.number_drop, hnumber, hlow, Option.some.injEq, ← hleaving.low_lt_iff hlinked,
      Nat.not_lt]
    exact ⟨Nat.le_of_eq, fun hle => Nat.le_antisymm hle hlinked.le⟩
  by_cases hopen : g.Open path i
  · rw [LinkSearch.leave, if_neg fun heq => hclose.1 heq hopen]
    exact h.drop hframes (h.stack.trans (hleaving.filter_open hopen))
      (hleaving.listed?_of_open hg hi hopen hwithin)
  · obtain ⟨news, hnews⟩ := hleaving.suffix
    rw [LinkSearch.leave, if_pos (hclose.2 hopen)]
    exact h.close hframes (h.stack ▸ hleaving.nodup.filter _)
      (h.stack.trans (hleaving.filter_open_of_root hnews.symm hopen))
      (hleaving.filter_open_below hnews.symm hopen).symm
      (hleaving.listed?_of_root hnews.symm hg hi hopen hwithin)

end

/-! ## Steps -/

/-- What a search with low links comes to. -/
abbrev Steps (g : DepGraph N) : LinkSearch → LinkSearch → Prop :=
  Relation.ReflTransGen fun s s' => s.frames ≠ [] ∧ g.step s = s'

theorem settle_eq_of_steps (h : g.Steps s s') : g.settle s = g.settle s' := by
  induction h with
  | refl => rfl
  | tail _ hstep ih =>
      obtain ⟨hframes, rfl⟩ := hstep
      rw [ih, settle, if_neg hframes]

/-- What a search with low links makes of a node that is not found, when a depth-first search makes
`state'` of it. -/
structure Explored (g : DepGraph N) (path : List Nat) (state state' : Visit) (s s' : LinkSearch)
    (i : Nat) : Prop where
  steps : g.Steps (s.enter i) s'
  follows : g.Follows path state' s'
  frames : s'.frames = s.frames
  low_tail : ∀ r ∈ path.tail, s'.low r = s.low r
  linked : ∀ p ∈ path.head?, i ∈ g.targets p → ∀ old done, old <:+ state.found →
    g.Linked path old state.found done p (s.low p) →
    g.Linked path old state'.found (done ++ [i]) p (s'.low p)

/-- Every node that is not found and not beyond reach is visited as a depth-first search of some
fuel visits it. -/
def Explores (g : DepGraph N) (fuel : Nat) : Prop :=
  ∀ {path : List Nat} {state : Visit} {s : LinkSearch} {i : Nat}, g.Room path fuel →
    g.Searching path state → state.found.Nodup → g.Follows path state s →
    (∀ p ∈ path, g.Reaches p i) → i < g.size → i ∉ state.found →
    (g.visit fuel state i).found <:+ (g.visitAll (List.range g.size)).found →
    ∃ s', g.Explored path state (g.visit fuel state i) s s' i

theorem visit_of_mem (hj : j ∈ state.found) : g.visit fuel state j = state := by
  cases fuel with
  | zero => rfl
  | succ fuel => rw [visit, if_pos (List.contains_iff_mem.2 hj)]

/-! ## Following edges -/

/-- A search with low links has followed the edges of node `i` to the nodes in `done`. -/
structure Amid (g : DepGraph N) (path old : List Nat) (frames : List (Nat × Nat)) (i : Nat)
    (done : List Nat) (state : Visit) (s : LinkSearch) : Prop where
  searching : g.Searching (i :: path) state
  nodup : state.found.Nodup
  suffix : i :: old <:+ state.found
  follows : g.Follows (i :: path) state s
  frames : s.frames = (i, done.length) :: frames
  linked : g.Linked (i :: path) old state.found done i (s.low i)

section

variable (h : g.Amid path old frames i done state s)
include h

theorem Amid.frames_ne_nil : s.frames ≠ [] := by
  rw [h.frames]
  exact List.cons_ne_nil _ _

theorem Amid.advance (j : Nat) :
    g.Follows (i :: path) state { s with frames := (i, (done ++ [j]).length) :: frames } := by
  refine h.follows.with_frames ?_
  have hframes := h.follows.frames
  rwa [h.frames] at hframes

variable (htargets : g.targets i = done ++ j :: todo)
include htargets

theorem Amid.step_eq :
    g.step s = { s with frames := (i, (done ++ [j]).length) :: frames }.meet i j := by
  rw [step, h.frames]
  simp [htargets]

/-- Following an edge to a node that is found. -/
theorem Amid.follow_found (hi : i ∉ path) (hj : j ∈ state.found) :
    g.Amid path old frames i (done ++ [j]) state (g.step s) ∧
      ∀ r ∈ path, (g.step s).low r = s.low r := by
  have hnumber := (h.follows.number j).trans (if_pos hj)
  rw [h.step_eq htargets, LinkSearch.meet]
  dsimp only
  rw [hnumber]
  dsimp only
  split
  · next hwaiting =>
      have hedge : j ∈ g.targets i := by simp [htargets]
      have hlow : (LinkSearch.lower { s with frames := (i, (done ++ [j]).length) :: frames } i
          (rank state.found j)).low i = min (s.low i) (rank state.found j) :=
        Function.update_self ..
      refine ⟨⟨h.searching, h.nodup, h.suffix, (h.advance j).lower _ _, rfl, ?_⟩, fun r hr => ?_⟩
      · rw [hlow]
        exact h.linked.meet hedge hj ((h.follows.waiting_iff hj).1 hwaiting)
      · have hne : r ≠ i := fun heq => hi (heq ▸ hr)
        exact Function.update_of_ne hne _ _
  · next hclosed =>
      refine ⟨⟨h.searching, h.nodup, h.suffix, h.advance j, rfl, ?_⟩, fun r _ => rfl⟩
      exact h.linked.skip fun hopen => hclosed ((h.follows.waiting_iff hj).2 hopen)

variable (hexplores : g.Explores fuel) (hg : g.InRange) (hroom : g.Room (i :: path) fuel)
  (hreach : ∀ p ∈ path, g.Reaches p i)
  (hwithin : (g.visit fuel state j).found <:+ (g.visitAll (List.range g.size)).found)
include hexplores hg hroom hreach hwithin

/-- Following an edge to a node that is not found. -/
theorem Amid.follow_new (hj : j ∉ state.found) :
    ∃ s', g.Steps s s' ∧ g.Amid path old frames i (done ++ [j]) (g.visit fuel state j) s' ∧
      ∀ r ∈ path, s'.low r = s.low r := by
  have hedge : j ∈ g.targets i := by simp [htargets]
  have hreach' := reaches_of_target hreach hedge
  have hjlt := hg i j hedge
  obtain ⟨s', hs'⟩ := hexplores hroom h.searching h.nodup (h.advance j) hreach' hjlt hj hwithin
  have hstep : g.step s = { s with frames := (i, (done ++ [j]).length) :: frames }.enter j := by
    rw [h.step_eq htargets, LinkSearch.meet]
    dsimp only
    rw [h.follows.number, if_neg hj]
  refine ⟨s', .head ⟨h.frames_ne_nil, hstep⟩ hs'.steps,
    ⟨?_, ?_, ?_, hs'.follows, hs'.frames, ?_⟩, hs'.low_tail⟩
  · exact (visited_visit hg hroom h.searching hjlt hreach').searching
  · exact (adds_visit g fuel state j).nodup h.nodup
  · exact h.suffix.trans (suffix_visit g fuel state j)
  · exact hs'.linked i rfl hedge old done ((List.suffix_cons i old).trans h.suffix) h.linked

theorem Amid.follow :
    ∃ s', g.Steps s s' ∧ g.Amid path old frames i (done ++ [j]) (g.visit fuel state j) s' ∧
      ∀ r ∈ path, s'.low r = s.low r := by
  by_cases hj : j ∈ state.found
  · obtain ⟨hamid, hlow⟩ := h.follow_found htargets (List.nodup_cons.1 hroom.nodup).1 hj
    exact ⟨g.step s, .single ⟨h.frames_ne_nil, rfl⟩, (visit_of_mem hj).symm ▸ hamid, hlow⟩
  · exact h.follow_new htargets hexplores hg hroom hreach hwithin hj

end

/-- Following the edges that are left. -/
theorem Amid.follow_all (hexplores : g.Explores fuel) (hg : g.InRange)
    (hroom : g.Room (i :: path) fuel) (hreach : ∀ p ∈ path, g.Reaches p i)
    (h : g.Amid path old frames i done state s) (htargets : g.targets i = done ++ todo)
    (hwithin : (todo.foldl (g.visit fuel) state).found <:+
      (g.visitAll (List.range g.size)).found) :
    ∃ s', g.Steps s s' ∧
      g.Amid path old frames i (g.targets i) (todo.foldl (g.visit fuel) state) s' ∧
      ∀ r ∈ path, s'.low r = s.low r := by
  induction todo generalizing done state s with
  | nil =>
      rw [List.append_nil] at htargets
      exact ⟨s, .refl, htargets ▸ h, fun _ _ => rfl⟩
  | cons j todo ih =>
      have hfirst := (suffix_foldl_visit (suffix_visit g fuel) todo (g.visit fuel state j)).trans
        hwithin
      obtain ⟨s₁, hsteps, hamid, hlow⟩ := h.follow htargets hexplores hg hroom hreach hfirst
      obtain ⟨s₂, hsteps', hamid', hlow'⟩ := ih hamid (by simp [htargets]) hwithin
      exact ⟨s₂, hsteps.trans hsteps', hamid', fun r hr => (hlow' r hr).trans (hlow r hr)⟩

/-- Leaving a node when all its edges were followed. -/
theorem Amid.leave {s₁ : LinkSearch} (h : g.Amid path state.found s.frames i (g.targets i) below s₁)
    (hg : g.InRange) (hi : i < g.size) (hleaving : g.Leaving path state below i)
    (hwithin : below.found <:+ (g.visitAll (List.range g.size)).found)
    (hfollows : g.Follows path state s) (hpath : path.Nodup) (hsteps : g.Steps (s.enter i) s₁)
    (hlow : ∀ r ∈ path, s₁.low r = (s.enter i).low r) :
    g.Explored path state { below with left := i :: below.left } s (s₁.leave i s.frames) i := by
  have hstep : g.step s₁ = s₁.leave i s.frames := by
    rw [step, h.frames]
    simp
  have hkept : ∀ r ∈ path, s₁.low r = s.low r := by
    intro r hr
    have hne : r ≠ i := fun heq => hleaving.new (heq ▸ hleaving.mem_found_of_path hr)
    exact (hlow r hr).trans (Function.update_of_ne hne _ _)
  have hhead : path.head? = s.frames.head?.map Prod.fst := by
    rw [← hfollows.frames, List.head?_map]
  refine ⟨hsteps.tail ⟨h.frames_ne_nil, hstep⟩, ?_, LinkSearch.frames_leave .., ?_, ?_⟩
  · exact h.follows.leave hg hi hleaving hwithin h.linked hfollows.frames
  · intro r hr
    rw [LinkSearch.low_leave, LinkSearch.low_drop_of_ne]
    · exact hkept r (List.mem_of_mem_tail hr)
    · rintro frame hframe rfl
      rw [Option.mem_def.1 hframe, Option.map_some] at hhead
      obtain ⟨rest, rfl⟩ := List.head?_eq_some_iff.1 hhead
      exact (List.nodup_cons.1 hpath).1 hr
  · intro p hp hedge old done hold hparent
    rw [hhead] at hp
    obtain ⟨frame, hframe, rfl⟩ := Option.mem_map.1 hp
    rw [LinkSearch.low_leave, LinkSearch.low_drop_head _ _ _ hframe, hkept]
    · exact hleaving.linked hparent hedge hold h.linked
    · exact List.mem_of_head? (hhead ▸ hp)

theorem explores (hg : g.InRange) (fuel : Nat) : g.Explores fuel := by
  induction fuel with
  | zero =>
      intro path state s i hroom hstate _ _ _ hi hnew _
      exact absurd ((hstate.found_iff i).2 (.inr (hroom.mem_of_full hi))) hnew
  | succ fuel ih =>
      intro path state s i hroom hstate hnodup hfollows hreach hi hnew hwithin
      have hroom' := hroom.push hi fun hpath => hnew ((hstate.found_iff i).2 (.inr hpath))
      let start : Visit := { state with found := i :: state.found }
      let below := (g.targets i).foldl (g.visit fuel) start
      have hvisit : g.visit (fuel + 1) state i = { below with left := i :: below.left } := by
        rw [visit, if_neg fun h => hnew (List.contains_iff_mem.1 h)]
      have hstart : g.Amid path state.found s.frames i [] start (s.enter i) := by
        refine ⟨hstate.push i, List.nodup_cons.2 ⟨hnew, hnodup⟩, List.suffix_rfl,
          hfollows.enter hstate hreach hnew, rfl, ?_⟩
        have hlow : (s.enter i).low i = state.found.length :=
          (Function.update_self ..).trans hfollows.counter
        exact hlow ▸ linked_enter i path state.found
      have hwithin' : below.found <:+ (g.visitAll (List.range g.size)).found := by
        rw [hvisit] at hwithin
        exact hwithin
      obtain ⟨s₁, hsteps, hamid, hlow⟩ := hstart.follow_all ih hg hroom' hreach rfl hwithin'
      have hvisited := visited_foldl (fun state j hstate => visited_visit hg hroom' hstate)
        (hstate.push i) (g.targets i) (hg i) fun j hj => reaches_of_target hreach hj
      have hreached : ∀ p ∈ below.found, p ∉ state.found → g.Reaches i p := by
        intro p hp
        have hmem : p ∈ (g.visit (fuel + 1) state i).found := by
          rw [hvisit]
          exact hp
        exact (reaches_of_mem_visit hmem).resolve_left
      have hleaving : g.Leaving path state below i :=
        ⟨hstate, hreach, hnew, hamid.searching, hvisited.found, hamid.suffix, hamid.nodup, hreached⟩
      exact ⟨_, hvisit ▸ hamid.leave hg hi hleaving hwithin' hfollows hroom.nodup hsteps hlow⟩

/-! ## The whole search -/

theorem follows_foldl (hg : g.InRange) (starts : List Nat) (hlt : ∀ i ∈ starts, i < g.size)
    (hstate : g.Searching [] state) (hnodup : state.found.Nodup) (h : g.Follows [] state s)
    (hwithin : (starts.foldl (g.visit g.size) state).found <:+
      (g.visitAll (List.range g.size)).found) :
    g.Follows [] (starts.foldl (g.visit g.size) state) (starts.foldl g.searchFrom s) := by
  induction starts generalizing state s with
  | nil => exact h
  | cons i rest ih =>
      have hi := hlt i List.mem_cons_self
      have hsearching := (visited_visit hg (room_nil g) hstate hi
        fun _ hp => absurd hp List.not_mem_nil).searching
      refine ih (fun j hj => hlt j (List.mem_cons_of_mem i hj)) hsearching
        ((adds_visit g g.size state i).nodup hnodup) ?_ hwithin
      rw [searchFrom, h.number]
      by_cases hfound : i ∈ state.found
      · rw [visit_of_mem hfound, if_pos hfound, if_pos Option.isSome_some]
        exact h
      · rw [if_neg hfound, if_neg (by simp)]
        have hfirst := (suffix_foldl_visit (suffix_visit g g.size) rest
          (g.visit g.size state i)).trans hwithin
        obtain ⟨s', hs'⟩ := explores hg g.size (room_nil g) hstate hnodup h
          (fun _ hp => absurd hp List.not_mem_nil) hi hfound hfirst
        have hend : s'.frames = [] := List.map_eq_nil_iff.1 hs'.follows.frames
        rw [settle_eq_of_steps hs'.steps, settle, if_pos hend]
        exact hs'.follows

theorem follows_linkSearch (hg : g.InRange) :
    g.Follows [] (g.visitAll (List.range g.size)) g.linkSearch := by
  have hempty : g.Follows [] {} {} :=
    ⟨rfl, fun _ => rfl, rfl, rfl, fun _ => by simp, rfl⟩
  exact follows_foldl hg _ (fun _ h => List.mem_range.1 h) (searching_nil g) List.nodup_nil
    hempty List.suffix_rfl

/-- A search with low links lists the components in the same order, and so their nodes. -/
theorem lowLinkComponents_eq (hg : g.InRange) : g.lowLinkComponents = g.components :=
  (follows_linkSearch hg).listed.trans (components_eq g).symm

/-- As many numbers are given as there are nodes. -/
theorem counter_linkSearch (hg : g.InRange) : g.linkSearch.counter = g.size := by
  have hperm : (g.visitAll (List.range g.size)).found.Perm (List.range g.size) :=
    (List.perm_ext_iff_of_nodup (nodup_visitAll g _).1 List.nodup_range).2 fun i => by
      rw [mem_order hg, List.mem_range]
  rw [(follows_linkSearch hg).counter, hperm.length_eq, List.length_range]

theorem exists_number_linkSearch (hg : g.InRange) (hi : i < g.size) :
    ∃ n < g.size, g.linkSearch.number i = some n := by
  have hfollows := follows_linkSearch hg
  have hmem := (mem_order hg).2 hi
  have hlength := hfollows.counter.symm.trans (counter_linkSearch hg)
  exact ⟨_, Nat.lt_of_lt_of_eq (rank_lt hmem) hlength, (hfollows.number i).trans (if_pos hmem)⟩

end DepGraph

/-- What may be added to a graph. -/
inductive GraphCall (N : Type u) where
  | node (n : N)
  | edge (source target : N) (mark : Bool)

namespace DepGraph

variable {N : Type u} {g : DepGraph N} {c : List Nat} {i j : Nat}

/-- What a call makes of a graph. -/
def call [DecidableEq N] (g : DepGraph N) : GraphCall N → DepGraph N
  | .node n => (g.addNode n).2
  | .edge source target mark => g.addEdge source target mark

theorem proper_foldl_call [DecidableEq N] (calls : List (GraphCall N)) :
    (calls.foldl call ({} : DepGraph N)).Proper := by
  refine List.foldlRecOn (motive := Proper) calls call proper_empty fun g hg added _ => ?_
  cases added with
  | node n => exact (hg.addNode n).1.proper
  | edge source target mark => exact (hg.addEdge source target mark).1.proper

theorem ne_nil_of_mem_components (hc : c ∈ g.components) : c ≠ [] := by
  rw [components_eq] at hc
  obtain ⟨i, -, hlisted⟩ := List.mem_filterMap.1 hc
  exact List.ne_nil_of_mem (List.mem_of_getLast? (listed?_eq_some.1 hlisted).1)

theorem perm_components (hg : g.InRange) : g.components.flatten.Perm (List.range g.size) := by
  refine (List.perm_ext_iff_of_nodup (nodup_components hg) List.nodup_range).2 fun i => ?_
  rw [List.mem_range]
  refine ⟨fun hi => ?_, mem_components hg⟩
  obtain ⟨c, hc, hi⟩ := List.mem_flatten.1 hi
  exact (mem_component_iff hg hc hi (j := i)).1

/-- In a graph to which nodes and edges were added, the lists are not empty and hold every node
once.  Two nodes are in one list just if each of them reaches the other, an edge leads into the same
list or into one before, and a list is cyclic just if its nodes lie on cycles.  All this a search
with low links finds out, and it needs no number beyond the number of nodes. -/
theorem strong_components [DecidableEq N] (calls : List (GraphCall N)) :
    let g : DepGraph N := calls.foldl call {}
    g.lowLinkComponents = g.components ∧
    g.linkSearch.counter = g.size ∧
    (∀ i < g.size, ∃ n < g.size, g.linkSearch.number i = some n) ∧
    (∀ c ∈ g.components, c ≠ []) ∧
    g.components.flatten.Perm (List.range g.size) ∧
    (∀ i j, (∃ c ∈ g.components, i ∈ c ∧ j ∈ c) ↔
      i < g.size ∧ j < g.size ∧ g.Reaches i j ∧ g.Reaches j i) ∧
    (∀ before c after, g.components = before ++ c :: after → ∀ i ∈ c, ∀ j ∈ g.targets i,
      ∃ c' ∈ before ++ [c], j ∈ c') ∧
    (∀ c ∈ g.components, (g.isCyclic c = true ↔ ∃ i ∈ c, g.OnCycle i) ∧
      (g.isCyclic c = true ↔ ∀ i ∈ c, g.OnCycle i)) := by
  intro g
  have hg : g.InRange := (proper_foldl_call calls).inRange
  refine ⟨lowLinkComponents_eq hg, counter_linkSearch hg, fun i => exists_number_linkSearch hg,
    fun c => ne_nil_of_mem_components, perm_components hg, fun i j => ?_,
    fun before c after hcomponents i hi j hedge => ?_, fun c hc => ?_⟩
  · constructor
    · rintro ⟨c, hc, hi, hj⟩
      obtain ⟨hilt, hmem⟩ := mem_component_iff hg hc hi (j := j)
      have hmutual := hmem.1 hj
      exact ⟨hilt, hg.lt_of_reaches hilt hmutual.1, hmutual⟩
    · rintro ⟨hilt, -, hmutual⟩
      obtain ⟨c, hc, hi⟩ := List.mem_flatten.1 (mem_components hg hilt)
      exact ⟨c, hc, hi, (mem_component_iff hg hc hi).2.2 hmutual⟩
  · rcases exists_component_before hg hcomponents hi hedge with hsame | ⟨c', hc', hj⟩
    · exact ⟨c, List.mem_append_right _ (List.mem_singleton_self c), hsame⟩
    · exact ⟨c', List.mem_append_left _ hc', hj⟩
  · obtain ⟨i, hi⟩ := List.exists_mem_of_ne_nil c (ne_nil_of_mem_components hc)
    have hcyclic := fun {k} (hk : k ∈ c) => isCyclic_iff_onCycle hg hc hk
    exact ⟨⟨fun h => ⟨i, hi, (hcyclic hi).1 h⟩, fun ⟨k, hk, h⟩ => (hcyclic hk).2 h⟩,
      ⟨fun h k hk => (hcyclic hk).1 h, fun h => (hcyclic hi).2 (h i hi)⟩⟩

theorem strong_components_of_loops :
    let calls : List (GraphCall Nat) := [.edge 10 11 false, .edge 11 10 true, .edge 11 12 false,
      .edge 12 12 false, .node 13]
    let g : DepGraph Nat := calls.foldl call {}
    g.lowLinkComponents = [[2], [1, 0], [3]] ∧ g.OnCycle 2 ∧ ¬ g.OnCycle 3 := by
  intro calls g
  obtain ⟨hlow, -, -, -, -, -, -, hcyclic⟩ := strong_components calls
  have hcomponents : g.components = [[2], [1, 0], [3]] := by decide +kernel
  have hmem : ∀ c ∈ [[2], [1, 0], [3]], c ∈ g.components := fun c hc => hcomponents ▸ hc
  refine ⟨hlow.trans hcomponents, ?_, fun hcycle => ?_⟩
  · exact (hcyclic [2] (hmem _ (by decide))).2.1 (by decide +kernel) 2 List.mem_cons_self
  · have h := (hcyclic [3] (hmem _ (by decide))).1.2 ⟨3, List.mem_cons_self, hcycle⟩
    exact absurd h (by decide +kernel)

end DepGraph

end ManySorted
