import ManySorted.Proofs.Dependency.LowLink
import ManySorted.Proofs.Sizing.Roots

/-!
# What low links tell

The path of a depth-first search leads from where it started to the node that it visits.  A node is
open if it depends on each other with one on the path, and the stack of a search with low links
holds just the open nodes.

* A node that is found is open before another one is found just if it is open afterwards
  (`Searching.open_cons_iff`): whoever reaches a node that is not found goes through the path.
* A node that is left with a low link below its number reaches an open node that was found before,
  so its component was entered elsewhere.  If its component was entered elsewhere, an edge leads
  back from what was found below it, and the low link is at most the number at its end
  (`Leaving.low_lt_iff`).
* If the component of a node was entered at this node, then when the node is left the nodes of the
  component are what is open below it (`Leaving.filter_open_of_root`), and its group is listed
  (`Leaving.listed?_of_root`).
-/

namespace ManySorted

universe u

/-! ## Numbers -/

/-- How many nodes were found before a node.  The nodes found are given latest first. -/
def rank : List Nat → Nat → Nat
  | [], _ => 0
  | j :: rest, i => if i = j then rest.length else rank rest i

section

variable {old found : List Nat} {i : Nat}

theorem rank_lt (hi : i ∈ found) : rank found i < found.length := by
  induction found with
  | nil => exact absurd hi List.not_mem_nil
  | cons j rest ih =>
      rw [rank]
      split
      · exact Nat.lt_succ_self _
      · next hne => exact Nat.lt_succ_of_lt (ih ((List.mem_cons.1 hi).resolve_left hne))

theorem rank_eq_of_suffix (h : old <:+ found) (hnodup : found.Nodup) (hi : i ∈ old) :
    rank found i = rank old i := by
  obtain ⟨news, rfl⟩ := h
  induction news with
  | nil => rfl
  | cons j news ih =>
      obtain ⟨hj, hnodup⟩ := List.nodup_cons.1 hnodup
      have hne : i ≠ j := fun heq => hj (heq ▸ List.mem_append_right news hi)
      rw [List.cons_append, rank, if_neg hne, ih hnodup]

theorem length_le_rank (h : old <:+ found) (hi : i ∈ found) (hnew : i ∉ old) :
    old.length ≤ rank found i := by
  obtain ⟨news, rfl⟩ := h
  induction news with
  | nil => exact absurd hi hnew
  | cons j news ih =>
      rw [List.cons_append, rank]
      split
      · rw [List.length_append]
        exact Nat.le_add_left _ _
      · next hne => exact ih ((List.mem_cons.1 hi).resolve_left hne)

end

namespace DepGraph

variable {N : Type u} {g : DepGraph N} {path : List Nat} {state : Visit} {fuel i j k : Nat}

theorem Mutual.refl (i : Nat) : g.Mutual i i := ⟨.refl, .refl⟩

theorem Mutual.symm (h : g.Mutual i j) : g.Mutual j i := ⟨h.2, h.1⟩

theorem Mutual.trans (h : g.Mutual i j) (h' : g.Mutual j k) : g.Mutual i k :=
  ⟨h.1.trans h'.1, h'.2.trans h.2⟩

/-! ## What a depth-first search finds -/

/-- What a visit finds is reached from where it starts. -/
theorem reaches_of_mem_visit (hj : j ∈ (g.visit fuel state i).found) :
    j ∈ state.found ∨ g.Reaches i j := by
  induction fuel generalizing state i j with
  | zero => exact .inl hj
  | succ fuel ih =>
      rw [visit] at hj
      split at hj
      · exact .inl hj
      · have hbelow := List.foldlRecOn (motive := fun s : Visit =>
          ∀ j ∈ s.found, j ∈ state.found ∨ g.Reaches i j) (g.targets i)
            (b := { state with found := i :: state.found }) (g.visit fuel) ?_ ?_
        · exact hbelow j hj
        · intro j hj
          rcases List.mem_cons.1 hj with rfl | hj
          · exact .inr .refl
          · exact .inl hj
        · intro s hs k hk j hj
          rcases ih hj with hj | hj
          · exact hs j hj
          · exact .inr (.head hk hj)

/-! ## Open nodes -/

/-- Whether a node depends on each other with one on the path. -/
def Open (g : DepGraph N) (path : List Nat) (i : Nat) : Prop := ∃ r ∈ path, g.Mutual i r

theorem Open.cons (h : g.Open path i) (j : Nat) : g.Open (j :: path) i := by
  obtain ⟨r, hr, hir⟩ := h
  exact ⟨r, List.mem_cons_of_mem j hr, hir⟩

theorem Open.of_mutual (h : g.Open path j) (hij : g.Mutual i j) : g.Open path i := by
  obtain ⟨r, hr, hjr⟩ := h
  exact ⟨r, hr, hij.trans hjr⟩

theorem open_self (i : Nat) (path : List Nat) : g.Open (i :: path) i :=
  ⟨i, List.mem_cons_self, .refl i⟩

/-- A node was open before, if it depends on each other with a node that is only found now. -/
theorem Searching.open_of_mutual (h : g.Searching path state)
    (hreach : ∀ p ∈ path, g.Reaches p i) (hi : i ∉ state.found) (hj : j ∈ state.found)
    (hmutual : g.Mutual j i) : g.Open path j := by
  obtain ⟨r, hr, hjr⟩ : ∃ r ∈ path, g.Reaches j r := by
    have hji := hmutual.1
    induction hji using Relation.ReflTransGen.head_induction_on with
    | refl => exact absurd hj hi
    | @head j k hjk hki ih =>
        rcases (h.found_iff j).1 hj with hleft | hpath
        · have hmutual' : g.Mutual k i := ⟨hki, hmutual.2.tail hjk⟩
          obtain ⟨r, hr, hkr⟩ := ih (h.targets j hleft k hjk) hmutual'
          exact ⟨r, hr, .head hjk hkr⟩
        · exact ⟨j, hpath, .refl⟩
  exact ⟨r, hr, hjr, (hreach r hr).trans hmutual.2⟩

theorem Searching.open_cons_iff (h : g.Searching path state)
    (hreach : ∀ p ∈ path, g.Reaches p i) (hi : i ∉ state.found) (hj : j ∈ state.found) :
    g.Open (i :: path) j ↔ g.Open path j := by
  refine ⟨fun hopen => ?_, fun hopen => hopen.cons i⟩
  obtain ⟨r, hr, hjr⟩ := hopen
  rcases List.mem_cons.1 hr with rfl | hr
  · exact h.open_of_mutual hreach hi hj hjr
  · exact ⟨r, hr, hjr⟩

/-! ## Low links -/

/-- A number is right as the low link of node `i`, which was found after those in `old`, when the
edges to the nodes in `done` were followed. -/
structure Linked (g : DepGraph N) (path old found done : List Nat) (i n : Nat) : Prop where
  le : n ≤ old.length
  reaches : ∃ p ∈ found, g.Reaches i p ∧ g.Open path p ∧ rank found p = n
  bound : ∀ q ∈ old, g.Open path q →
    (q ∈ done ∨ ∃ p ∈ found, p ∉ old ∧ p ≠ i ∧ q ∈ g.targets p) → n ≤ rank found q

variable {old found found' done : List Nat} {n m : Nat}

theorem linked_enter (i : Nat) (path old : List Nat) :
    g.Linked (i :: path) old (i :: old) [] i old.length where
  le := Nat.le_refl _
  reaches := ⟨i, List.mem_cons_self, .refl, open_self i path, if_pos rfl⟩
  bound q _ _ hedge := by
    rcases hedge with hdone | ⟨p, hp, hnew, hne, -⟩
    · exact absurd hdone List.not_mem_nil
    · exact absurd ((List.mem_cons.1 hp).resolve_left hne) hnew

/-- An edge to a node that is open. -/
theorem Linked.meet (h : g.Linked path old found done i n) (hedge : j ∈ g.targets i)
    (hj : j ∈ found) (hopen : g.Open path j) :
    g.Linked path old found (done ++ [j]) i (min n (rank found j)) where
  le := Nat.le_trans (Nat.min_le_left ..) h.le
  reaches := by
    rcases Nat.le_total n (rank found j) with hle | hle
    · rw [Nat.min_eq_left hle]
      exact h.reaches
    · rw [Nat.min_eq_right hle]
      exact ⟨j, hj, .single hedge, hopen, rfl⟩
  bound q hq hqopen hqedge := by
    rw [List.mem_append, List.mem_singleton, or_right_comm] at hqedge
    rcases hqedge with hqedge | rfl
    · exact Nat.le_trans (Nat.min_le_left ..) (h.bound q hq hqopen hqedge)
    · exact Nat.min_le_right ..

/-- An edge to a node whose component is listed. -/
theorem Linked.skip (h : g.Linked path old found done i n) (hclosed : ¬ g.Open path j) :
    g.Linked path old found (done ++ [j]) i n where
  le := h.le
  reaches := h.reaches
  bound q hq hqopen hqedge := by
    rw [List.mem_append, List.mem_singleton, or_right_comm] at hqedge
    rcases hqedge with hqedge | rfl
    · exact h.bound q hq hqopen hqedge
    · exact absurd hqopen hclosed

/-! ## Leaving a node -/

/-- A search found node `i` on a path, followed all its edges and is about to leave it. -/
structure Leaving (g : DepGraph N) (path : List Nat) (state below : Visit) (i : Nat) : Prop where
  before : g.Searching path state
  reach : ∀ p ∈ path, g.Reaches p i
  new : i ∉ state.found
  searching : g.Searching (i :: path) below
  targets : ∀ q ∈ g.targets i, q ∈ below.found
  suffix : i :: state.found <:+ below.found
  nodup : below.found.Nodup
  reached : ∀ p ∈ below.found, p ∉ state.found → g.Reaches i p

section

variable {below : Visit} (h : g.Leaving path state below i)
include h

theorem Leaving.suffix_found : state.found <:+ below.found :=
  (List.suffix_cons i state.found).trans h.suffix

theorem Leaving.rank_self : rank below.found i = state.found.length :=
  (rank_eq_of_suffix h.suffix h.nodup List.mem_cons_self).trans (if_pos rfl)

theorem Leaving.mem_found_of_path {r : Nat} (hr : r ∈ path) : r ∈ state.found :=
  (h.before.found_iff r).2 (.inr hr)

/-- An open node that was found before is open without the node that is left. -/
theorem Leaving.open_cons_iff (hj : j ∈ state.found) : g.Open (i :: path) j ↔ g.Open path j :=
  h.before.open_cons_iff h.reach h.new hj

/-- What is found below is open just if it depends on each other with the node that is left, unless
that is open itself. -/
theorem Leaving.mutual_of_open (hroot : ¬ g.Open path i) (hj : j ∈ below.found)
    (hnew : j ∉ state.found) (hopen : g.Open (i :: path) j) : g.Mutual i j := by
  obtain ⟨r, hr, hjr⟩ := hopen
  rcases List.mem_cons.1 hr with rfl | hr
  · exact hjr.symm
  · exact absurd ⟨r, hr, (h.reached j hj hnew).trans hjr.1, h.reach r hr⟩ hroot

/-- A way back to what was found before has an edge that leads there. -/
theorem Leaving.exists_edge {r : Nat} (hr : r ∈ state.found) (hj : j ∈ below.found)
    (hnew : j ∉ state.found) (hjr : g.Reaches j r) :
    ∃ p ∈ below.found, p ∉ state.found ∧
      ∃ q ∈ g.targets p, q ∈ state.found ∧ g.Reaches q r := by
  induction hjr using Relation.ReflTransGen.head_induction_on with
  | refl => exact absurd hr hnew
  | @head j k hedge hkr ih =>
      by_cases hk : k ∈ state.found
      · exact ⟨j, hj, hnew, k, hedge, hk, hkr⟩
      · refine ih ?_ hk
        rcases (h.searching.found_iff j).1 hj with hleft | hpath
        · exact h.searching.targets j hleft k hedge
        · rcases List.mem_cons.1 hpath with rfl | hpath
          · exact h.targets k hedge
          · exact absurd (h.mem_found_of_path hpath) hnew

/-- The low link of a node is its number just if no node of its component was found before. -/
theorem Leaving.low_lt_iff
    (hlinked : g.Linked (i :: path) state.found below.found (g.targets i) i n) :
    n < state.found.length ↔ g.Open path i := by
  constructor
  · intro hlt
    -- the low link is the number of an open node, which was found before
    obtain ⟨p, hp, hip, hopen, rfl⟩ := hlinked.reaches
    have hold : p ∈ state.found := by
      by_contra hnew
      exact Nat.not_lt.2 (length_le_rank h.suffix_found hp hnew) hlt
    obtain ⟨r, hr, hpr⟩ := (h.open_cons_iff hold).1 hopen
    exact ⟨r, hr, hip.trans hpr.1, h.reach r hr⟩
  · rintro ⟨r, hr, hir⟩
    -- the edge that leads back ends at an open node, so its number bounds the low link
    have hself : i ∈ below.found := h.suffix.subset List.mem_cons_self
    obtain ⟨p, hp, hnew, q, hpq, hq, hqr⟩ :=
      h.exists_edge (h.mem_found_of_path hr) hself h.new hir.1
    have hiq : g.Mutual q i := ⟨hqr.trans hir.2, (h.reached p hp hnew).tail hpq⟩
    have hopen : g.Open (i :: path) q := ⟨i, List.mem_cons_self, hiq⟩
    have hedge : q ∈ g.targets i ∨ ∃ p ∈ below.found, p ∉ state.found ∧ p ≠ i ∧
        q ∈ g.targets p := by
      by_cases heq : p = i
      · exact .inl (heq ▸ hpq)
      · exact .inr ⟨p, hp, hnew, heq, hpq⟩
    calc n ≤ rank below.found q := hlinked.bound q hq hopen hedge
      _ = rank state.found q := rank_eq_of_suffix h.suffix_found h.nodup hq
      _ < state.found.length := rank_lt hq

/-- The low link of a node is passed on to the node from which it was entered. -/
theorem Leaving.linked {p : Nat}
    (hparent : g.Linked path old state.found done p n) (hedge : i ∈ g.targets p)
    (hold : old <:+ state.found)
    (hlinked : g.Linked (i :: path) state.found below.found (g.targets i) i m) :
    g.Linked path old below.found (done ++ [i]) p (min n m) where
  le := Nat.le_trans (Nat.min_le_left ..) hparent.le
  reaches := by
    rcases Nat.lt_or_ge m n with hlt | hle
    · -- such a low link is below the number of the node, so what it reaches stays open
      have hnotroot : g.Open path i := by
        refine (h.low_lt_iff hlinked).1 ?_
        exact Nat.lt_of_lt_of_le hlt (Nat.le_trans hparent.le hold.length_le)
      obtain ⟨q, hq, hiq, hopen, hrank⟩ := hlinked.reaches
      rw [Nat.min_eq_right (Nat.le_of_lt hlt)]
      refine ⟨q, hq, .head hedge hiq, ?_, hrank⟩
      obtain ⟨r, hr, hqr⟩ := hopen
      rcases List.mem_cons.1 hr with rfl | hr
      · exact hnotroot.of_mutual hqr
      · exact ⟨r, hr, hqr⟩
    · obtain ⟨q, hq, hpq, hopen, hrank⟩ := hparent.reaches
      rw [Nat.min_eq_left hle]
      exact ⟨q, h.suffix_found.subset hq, hpq, hopen,
        (rank_eq_of_suffix h.suffix_found h.nodup hq).trans hrank⟩
  bound q hq hopen hqedge := by
    have hqstate : q ∈ state.found := hold.subset hq
    rw [List.mem_append, List.mem_singleton, or_right_comm] at hqedge
    rcases hqedge with (hdone | ⟨r, hr, hrnew, hne, hrq⟩) | rfl
    · rw [rank_eq_of_suffix h.suffix_found h.nodup hqstate]
      exact Nat.le_trans (Nat.min_le_left ..) (hparent.bound q hq hopen (.inl hdone))
    · by_cases hrold : r ∈ state.found
      · rw [rank_eq_of_suffix h.suffix_found h.nodup hqstate]
        exact Nat.le_trans (Nat.min_le_left ..)
          (hparent.bound q hq hopen (.inr ⟨r, hrold, hrnew, hne, hrq⟩))
      · refine Nat.le_trans (Nat.min_le_right ..)
          (hlinked.bound q hqstate (hopen.cons i) ?_)
        by_cases heq : r = i
        · exact .inl (heq ▸ hrq)
        · exact .inr ⟨r, hr, hrold, heq, hrq⟩
    · exact absurd hqstate h.new

end

/-! ## The component of a node that is left -/

section

open scoped Classical

/-- The component of a node, in the order of the whole search. -/
theorem groups_eq_filter (hg : g.InRange) (hi : i < g.size) : g.groups.getD i [] =
    (g.visitAll (List.range g.size)).found.filter fun j => decide (g.Mutual i j) := by
  rw [groups_eq hg hi]
  refine List.filter_congr fun j hj => decide_eq_decide.2 ?_
  rw [mem_reachable hg hi, mem_reachable hg ((mem_order hg).1 hj)]
  rfl

variable {below : Visit} (h : g.Leaving path state below i)
include h

/-- The stack when a node is left after another one of its component. -/
theorem Leaving.filter_open (hopen : g.Open path i) :
    (below.found.filter fun j => decide (g.Open (i :: path) j)) =
      below.found.filter fun j => decide (g.Open path j) := by
  refine List.filter_congr fun j _ => decide_eq_decide.2 ⟨?_, fun hj => hj.cons i⟩
  rintro ⟨r, hr, hjr⟩
  rcases List.mem_cons.1 hr with rfl | hr
  · exact hopen.of_mutual hjr
  · exact ⟨r, hr, hjr⟩

theorem Leaving.listed?_of_open (hg : g.InRange) (hi : i < g.size) (hopen : g.Open path i)
    (hwithin : below.found <:+ (g.visitAll (List.range g.size)).found) : g.listed? i = none := by
  refine Option.eq_none_iff_forall_ne_some.2 fun group hlisted => ?_
  obtain ⟨hlast, rfl⟩ := listed?_eq_some.1 hlisted
  obtain ⟨later, hlater⟩ := h.suffix_found.trans hwithin
  obtain ⟨r, hr, hir⟩ := hopen
  have hmem : r ∈ state.found.filter fun j => decide (g.Mutual i j) :=
    List.mem_filter.2 ⟨h.mem_found_of_path hr, decide_eq_true hir⟩
  rw [groups_eq_filter hg hi, ← hlater, List.filter_append, List.getLast?_append,
    List.getLast?_eq_some_getLast (List.ne_nil_of_mem hmem), Option.some_or,
    Option.some.injEq] at hlast
  exact h.new (List.mem_filter.1 (hlast ▸ List.getLast_mem (List.ne_nil_of_mem hmem))).1

variable {news : List Nat} (hfound : below.found = news ++ i :: state.found)
include hfound

theorem Leaving.not_mem_of_news (hj : j ∈ news) :
    j ∈ below.found ∧ j ∉ state.found ∧ j ≠ i := by
  have hnodup := h.nodup
  rw [hfound] at hnodup ⊢
  have hdisjoint := (List.nodup_append.1 hnodup).2.2 j hj
  exact ⟨List.mem_append_left _ hj,
    fun hold => hdisjoint j (List.mem_cons_of_mem i hold) rfl, hdisjoint i List.mem_cons_self⟩

/-- The stack when a node is left that was found before the others of its component. -/
theorem Leaving.filter_open_of_root (hroot : ¬ g.Open path i) :
    (below.found.filter fun j => decide (g.Open (i :: path) j)) =
      (news.filter fun j => decide (g.Mutual i j)) ++
        i :: state.found.filter fun j => decide (g.Open path j) := by
  rw [hfound, List.filter_append,
    List.filter_cons_of_pos (p := fun j => decide (g.Open (i :: path) j))
      (decide_eq_true (open_self i path))]
  congr 1
  · refine List.filter_congr fun j hj => decide_eq_decide.2 ?_
    obtain ⟨hmem, hnew, -⟩ := h.not_mem_of_news hfound hj
    exact ⟨h.mutual_of_open hroot hmem hnew, fun hij => ⟨i, List.mem_cons_self, hij.symm⟩⟩
  · congr 1
    exact List.filter_congr fun j hj => decide_eq_decide.2 (h.open_cons_iff hj)

/-- The stack when such a node was left. -/
theorem Leaving.filter_open_below (hroot : ¬ g.Open path i) :
    (below.found.filter fun j => decide (g.Open path j)) =
      state.found.filter fun j => decide (g.Open path j) := by
  have hnews : ∀ j ∈ news, ¬ g.Open path j := by
    intro j hj hopen
    obtain ⟨hmem, hnew, -⟩ := h.not_mem_of_news hfound hj
    exact hroot (hopen.of_mutual (h.mutual_of_open hroot hmem hnew (hopen.cons i)))
  rw [hfound, List.filter_append, List.filter_cons_of_neg (by simpa using hroot),
    List.filter_eq_nil_iff.2 (by simpa using hnews), List.nil_append]

/-- The component of such a node is listed, and it is what lies above the node on the stack. -/
theorem Leaving.listed?_of_root (hg : g.InRange) (hi : i < g.size) (hroot : ¬ g.Open path i)
    (hwithin : below.found <:+ (g.visitAll (List.range g.size)).found) :
    g.listed? i = some ((news.filter fun j => decide (g.Mutual i j)) ++ [i]) := by
  obtain ⟨later, hlater⟩ := hwithin
  have hold : ∀ j ∈ state.found, ¬ g.Mutual i j := fun j hj hij =>
    hroot ((h.before.open_of_mutual h.reach h.new hj hij.symm).of_mutual hij)
  have hlate : ∀ j ∈ later, ¬ g.Mutual i j := by
    intro j hj hij
    have hmem : j ∈ below.found := by
      refine (h.searching.found_iff j).2 ?_
      rcases h.searching.mem_left h.targets
        (fun r hir hr => hold r (h.mem_found_of_path hr) hir) hij with rfl | hleft
      · exact .inr List.mem_cons_self
      · exact .inl hleft
    have hnodup := (nodup_visitAll g (List.range g.size)).1
    rw [← hlater] at hnodup
    exact (List.nodup_append.1 hnodup).2.2 j hj j hmem rfl
  have hnone : ∀ l : List Nat, (∀ j ∈ l, ¬ g.Mutual i j) →
      (l.filter fun j => decide (g.Mutual i j)) = [] :=
    fun l hl => List.filter_eq_nil_iff.2 fun j hj heq => hl j hj (of_decide_eq_true heq)
  have hgroup : g.groups.getD i [] = (news.filter fun j => decide (g.Mutual i j)) ++ [i] := by
    rw [groups_eq_filter hg hi, ← hlater, hfound, List.filter_append, List.filter_append,
      List.filter_cons_of_pos (p := fun j => decide (g.Mutual i j))
        (decide_eq_true (Mutual.refl i)), hnone later hlate, hnone state.found hold,
      List.nil_append]
  rw [listed?_eq_some, hgroup]
  exact ⟨List.getLast?_concat, rfl⟩

end

end DepGraph

end ManySorted
