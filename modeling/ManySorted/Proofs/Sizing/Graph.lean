import ManySorted.Proofs.Dependency
import ManySorted.Proofs.Declaration.Sound

/-!
# The edges of the size graph

Nodes and edges are only added.  Every position in the graph of sizes belongs to a productive data
symbol and has an edge to each sort that it accepts of productive data (`Table.Traced`).

## Strategy

* **Growing.**  Adding nodes and edges keeps what is there (`DepGraph.Extended`), and every node
  stands at one place only (`DepGraph.Proper.index_unique`).
* **One symbol.**  Its sort becomes a node, each of its positions becomes a node that the sort
  depends on, and each position gets its edges (`Table.Traced.addSlot`, `Table.Traced.addSort`).
* **All productive data.**  What is known of the graph so far stays when it grows, so the graph of
  sizes knows what everything depends on (`Table.traced_sizeGraph`).
-/

namespace ManySorted

universe u

namespace DepGraph

variable {N : Type u} {g g' g'' : DepGraph N}

/-- Every node is there once and has its list of edges, which lead to nodes. -/
structure Proper (g : DepGraph N) : Prop where
  size_eq : g.edges.size = g.nodes.size
  inRange : g.InRange
  nodup : g.nodes.toList.Nodup

/-- The nodes of `g` are in `g'` at the same place, with all their edges. -/
structure Grown (g g' : DepGraph N) : Prop where
  node : ∀ {i : Nat} {n}, g.nodes[i]? = some n → g'.nodes[i]? = some n
  target : ∀ {i j}, j ∈ g.targets i → j ∈ g'.targets i

/-- An edge from one node to another. -/
def Edge (g : DepGraph N) (i : Nat) (n : N) : Prop :=
  ∃ j, g.nodes[j]? = some n ∧ j ∈ g.targets i

theorem proper_empty : ({} : DepGraph N).Proper where
  size_eq := rfl
  inRange i j hj := by simp [targets, edgesOf] at hj
  nodup := List.nodup_nil

theorem Grown.refl (g : DepGraph N) : g.Grown g := ⟨fun h => h, fun h => h⟩

theorem Grown.trans (h : g.Grown g') (h' : g'.Grown g'') : g.Grown g'' :=
  ⟨fun hn => h'.node (h.node hn), fun hj => h'.target (h.target hj)⟩

theorem Grown.edge (h : g.Grown g') {i : Nat} {n : N} (hedge : g.Edge i n) : g'.Edge i n := by
  obtain ⟨j, hn, hj⟩ := hedge
  exact ⟨j, h.node hn, h.target hj⟩

/-- A node stands at one place only. -/
theorem Proper.index_unique (hg : g.Proper) {i j : Nat} {n : N} (hi : g.nodes[i]? = some n)
    (hj : g.nodes[j]? = some n) : i = j := by
  have hlt : i < g.nodes.toList.length := (Array.getElem?_eq_some_iff.1 hi).1
  refine (List.getElem?_inj hlt hg.nodup).1 ?_
  rw [Array.getElem?_toList, Array.getElem?_toList, hi, hj]

/-- What adding nodes and edges does: nothing is lost, and the new nodes are among the given. -/
structure Extended (g g' : DepGraph N) (news : List N) : Prop where
  proper : g'.Proper
  grown : g.Grown g'
  mem : ∀ {i : Nat} {n}, g'.nodes[i]? = some n → g.nodes[i]? = some n ∨ n ∈ news

theorem Extended.trans {news news' : List N} (h : g.Extended g' news)
    (h' : g'.Extended g'' news') : g.Extended g'' (news ++ news') where
  proper := h'.proper
  grown := h.grown.trans h'.grown
  mem hn := by
    rcases h'.mem hn with hn | hn
    · exact (h.mem hn).imp id (List.mem_append_left _)
    · exact .inr (List.mem_append_right _ hn)

section

variable [DecidableEq N]

theorem Proper.addNode (hg : g.Proper) (n : N) :
    g.Extended (g.addNode n).2 [n] ∧ (g.addNode n).2.nodes[(g.addNode n).1]? = some n := by
  unfold DepGraph.addNode
  cases hfind : g.nodes.idxOf? n with
  | some i =>
      refine ⟨⟨hg, .refl g, fun hn => .inl hn⟩, ?_⟩
      rw [Array.idxOf?_eq_map_finIdxOf?_val, Option.map_eq_some_iff] at hfind
      obtain ⟨k, hk, rfl⟩ := hfind
      have hat : g.nodes[k] = n := (Array.finIdxOf?_eq_some_iff.1 hk).1
      simpa using hat
  | none =>
      have hnew : n ∉ g.nodes.toList := by simpa using hfind
      refine ⟨⟨⟨?_, fun i j hj => ?_, ?_⟩, ⟨fun {i m} hm => ?_, fun {i j} hj => ?_⟩,
        fun {i m} hm => ?_⟩, by simp⟩
      · simp [hg.size_eq]
      · have hold : j ∈ g.targets i := by
          simp only [targets, edgesOf, Array.getD_eq_getD_getElem?, Array.getElem?_push] at hj ⊢
          split at hj
          · simp at hj
          · exact hj
        have := hg.inRange i j hold
        simp only [size, Array.size_push] at this ⊢
        omega
      · simp only [Array.toList_push]
        refine List.nodup_append.2 ⟨hg.nodup, by simp, fun a ha b hb heq => ?_⟩
        obtain rfl := List.mem_singleton.1 hb
        exact hnew (heq ▸ ha)
      · have hi := (Array.getElem?_eq_some_iff.1 hm).1
        rw [Array.getElem?_push_lt hi, ← hm, Array.getElem?_eq_getElem hi]
      · have hi : i < g.edges.size := by
          by_contra hge
          simp [targets, edgesOf, Nat.le_of_not_lt hge] at hj
        simp only [targets, edgesOf, Array.getD_eq_getD_getElem?, Array.getElem?_push,
          Nat.ne_of_lt hi, if_false] at hj ⊢
        exact hj
      · rw [Array.getElem?_push] at hm
        split at hm
        · exact .inr (List.mem_singleton.2 (Option.some.inj hm).symm)
        · exact .inl hm

theorem Proper.addEdge (hg : g.Proper) (a b : N) (mark : Bool) :
    g.Extended (g.addEdge a b mark) [a, b] ∧
      ∃ i, (g.addEdge a b mark).nodes[i]? = some a ∧ (g.addEdge a b mark).Edge i b := by
  obtain ⟨hext₁, hat₁⟩ := hg.addNode a
  obtain ⟨hext₂, hat₂⟩ := hext₁.proper.addNode b
  have hboth := hext₁.trans hext₂
  let i := (g.addNode a).1
  let j := ((g.addNode a).2.addNode b).1
  let g₂ := ((g.addNode a).2.addNode b).2
  have hadd : g.addEdge a b mark = { g₂ with edges := g₂.edges.modify i (· ++ [(j, mark)]) } := rfl
  have hi : g₂.nodes[i]? = some a := hext₂.grown.node hat₁
  have hilt : i < g₂.edges.size := by
    rw [hext₂.proper.size_eq]
    exact (Array.getElem?_eq_some_iff.1 hi).1
  have htargets : ∀ k, (g.addEdge a b mark).targets k =
      if k = i then g₂.targets k ++ [j] else g₂.targets k := by
    intro k
    rw [hadd]
    simp only [targets, edgesOf, Array.getD_eq_getD_getElem?, Array.getElem?_modify]
    by_cases hk : i = k
    · subst hk
      simp [hilt]
    · have hne : ¬ k = i := fun h => hk h.symm
      simp [hk, hne]
  refine ⟨⟨⟨?_, fun k l hl => ?_, hext₂.proper.nodup⟩, ⟨fun hn => hboth.grown.node hn, ?_⟩,
    fun hn => hboth.mem hn⟩, i, hi, j, hat₂, ?_⟩
  · rw [hadd]
    simpa using hext₂.proper.size_eq
  · rw [htargets] at hl
    have hjlt : j < g₂.size := (Array.getElem?_eq_some_iff.1 hat₂).1
    change l < g₂.size
    split at hl
    · rcases List.mem_append.1 hl with hl | hl
      · exact hext₂.proper.inRange k l hl
      · rwa [List.mem_singleton.1 hl]
    · exact hext₂.proper.inRange k l hl
  · intro k l hl
    rw [htargets]
    have hold := hboth.grown.target hl
    split
    · exact List.mem_append_left _ hold
    · exact hold
  · rw [htargets, if_pos rfl]
    exact List.mem_append_right _ (List.mem_singleton.2 rfl)

end

end DepGraph

namespace Table

variable {t : Table} {productive : List SymbolId} {g : DepGraph SizeNode} {data s : SymbolId}

/-- The sort of a productive data symbol. -/
def Productive (t : Table) (productive : List SymbolId) (s : SymbolId) : Prop :=
  ∃ data ∈ productive, t.sortOf? data = some s ∨ t.dataOf? s = some data

/-- Sorts and positions of the graph belong to productive data, and every position has an edge to
each sort of productive data that it accepts. -/
structure Traced (t : Table) (productive : List SymbolId) (g : DepGraph SizeNode) : Prop where
  proper : g.Proper
  sort : ∀ {i : Nat} {s}, g.nodes[i]? = some (.sort s) → t.Productive productive s
  slot : ∀ {i : Nat} {s position}, g.nodes[i]? = some (.slot s position) →
    ∃ data ∈ productive, t.sortOf? data = some s ∧ position < (t.symbolAt data).arity ∧
      ∀ target ∈ t.ownSortsAt productive (t.symbolAt data) position, g.Edge i (.sort target)

theorem productive_of_mem_ownSortsAt {symbol : Symbol} {position : Nat} {target : SymbolId}
    (h : target ∈ t.ownSortsAt productive symbol position) : t.Productive productive target := by
  unfold ownSortsAt at h
  split at h
  · exact absurd h List.not_mem_nil
  · have hany := (List.mem_filter.1 h).2
    cases hdata : t.dataOf? target with
    | none => simp [hdata] at hany
    | some data =>
        have hmem : data ∈ productive := by simpa [hdata] using hany
        exact ⟨data, hmem, .inr hdata⟩

/-- Adding an edge from a position to each of some sorts. -/
theorem extended_targets (hg : g.Proper) {i position : Nat}
    (hi : g.nodes[i]? = some (.slot s position)) (targets : List SymbolId) :
    g.Extended (targets.foldl (fun g target => g.addEdge (.slot s position) (.sort target) true) g)
        (.slot s position :: targets.map .sort) ∧
      ∀ target ∈ targets, (targets.foldl (fun g target =>
        g.addEdge (.slot s position) (.sort target) true) g).Edge i (.sort target) := by
  induction targets generalizing g with
  | nil => exact ⟨⟨hg, .refl g, fun hn => .inl hn⟩, fun _ h => absurd h List.not_mem_nil⟩
  | cons target rest ih =>
      obtain ⟨hext, k, hk, hedge⟩ := hg.addEdge (.slot s position) (.sort target) true
      have hi' := hext.grown.node hi
      obtain rfl := hext.proper.index_unique hi' hk
      obtain ⟨hrest, hedges⟩ := ih hext.proper hi'
      refine ⟨⟨hrest.proper, hext.grown.trans hrest.grown, fun {k n} hn => ?_⟩,
        fun target' htarget => ?_⟩
      · rcases hrest.mem hn with hn | hn
        · refine (hext.mem hn).imp (fun hold => hold) fun hn => ?_
          rcases List.mem_cons.1 hn with rfl | hn
          · exact List.mem_cons_self
          · simp [List.mem_singleton.1 hn]
        · rcases List.mem_cons.1 hn with rfl | hn
          · exact .inr List.mem_cons_self
          · exact .inr (List.mem_cons_of_mem _ (List.mem_cons_of_mem _ hn))
      · rcases List.mem_cons.1 htarget with rfl | htarget
        · exact hrest.grown.edge hedge
        · exact hedges target' htarget

theorem Traced.addSlot (h : t.Traced productive g) (hdata : data ∈ productive)
    (hs : t.sortOf? data = some s) {position : Nat} (hlt : position < (t.symbolAt data).arity) :
    t.Traced productive (t.addSlot productive (t.symbolAt data) s g position) ∧
      g.Grown (t.addSlot productive (t.symbolAt data) s g position) := by
  obtain ⟨hext, k, hk, i, hi, _⟩ := h.proper.addEdge (.sort s) (.slot s position)
    ((t.symbolAt data).kind.isUnbounded position)
  obtain ⟨hrest, hedges⟩ := extended_targets hext.proper hi
    (t.ownSortsAt productive (t.symbolAt data) position)
  have hboth := hext.trans hrest
  have hnew : ∀ {k : Nat} {n},
      (t.addSlot productive (t.symbolAt data) s g position).nodes[k]? = some n →
      g.nodes[k]? = some n ∨ n = .sort s ∨ n = .slot s position ∨
        ∃ target ∈ t.ownSortsAt productive (t.symbolAt data) position, n = .sort target := by
    intro k n hn
    refine (hboth.mem hn).imp (fun hold => hold) fun hn => ?_
    simp only [List.mem_append, List.mem_cons, List.not_mem_nil, or_false, List.mem_map] at hn
    rcases hn with (hn | hn) | hn | ⟨target, htarget, hn⟩
    · exact .inl hn
    · exact .inr (.inl hn)
    · exact .inr (.inl hn)
    · exact .inr (.inr ⟨target, htarget, hn.symm⟩)
  refine ⟨⟨hboth.proper, fun {k s'} hn => ?_, fun {k s' position'} hn => ?_⟩, hboth.grown⟩
  · rcases hnew hn with hold | heq | heq | ⟨target, htarget, heq⟩
    · exact h.sort hold
    · exact ⟨data, hdata, .inl (SizeNode.sort.inj heq ▸ hs)⟩
    · cases heq
    · exact SizeNode.sort.inj heq ▸ productive_of_mem_ownSortsAt htarget
  · by_cases hsame : SizeNode.slot s' position' = .slot s position
    · cases hsame
      obtain rfl := hboth.proper.index_unique hn (hrest.grown.node hi)
      exact ⟨data, hdata, hs, hlt, hedges⟩
    · rcases hnew hn with hold | heq | heq | ⟨target, _, heq⟩
      · obtain ⟨data', hdata', hs', hlt', htargets⟩ := h.slot hold
        exact ⟨data', hdata', hs', hlt', fun target ht => hboth.grown.edge (htargets target ht)⟩
      · cases heq
      · exact absurd heq hsame
      · cases heq

theorem Traced.addSort (h : t.Traced productive g) (hdata : data ∈ productive) :
    t.Traced productive (t.addSort productive g data) ∧ g.Grown (t.addSort productive g data) ∧
      ∀ {s}, t.sortOf? data = some s →
        ∃ i : Nat, (t.addSort productive g data).nodes[i]? = some (.sort s) := by
  unfold Table.addSort
  split
  · next hnone => exact ⟨h, .refl g, fun hs => absurd (hs.symm.trans hnone) (by simp)⟩
  · next s hs =>
      obtain ⟨hext, hnode⟩ := h.proper.addNode (.sort s)
      have hadded : t.Traced productive (g.addNode (.sort s)).2 := by
        refine ⟨hext.proper, fun {k s'} hn => ?_, fun {k s' position'} hn => ?_⟩
        · rcases hext.mem hn with hold | hnew
          · exact h.sort hold
          · exact ⟨data, hdata, .inl (SizeNode.sort.inj (List.mem_singleton.1 hnew) ▸ hs)⟩
        · rcases hext.mem hn with hold | hnew
          · obtain ⟨data', hdata', hs', hlt, htargets⟩ := h.slot hold
            exact ⟨data', hdata', hs', hlt, fun target ht => hext.grown.edge (htargets target ht)⟩
          · cases List.mem_singleton.1 hnew
      have hslots := List.foldlRecOn
        (motive := fun g' => t.Traced productive g' ∧ (g.addNode (.sort s)).2.Grown g')
        (List.range (t.symbolAt data).arity) (t.addSlot productive (t.symbolAt data) s)
        ⟨hadded, .refl _⟩ fun g' hg position hlt => by
          obtain ⟨htraced, hgrown⟩ := hg.1.addSlot hdata hs (List.mem_range.1 hlt)
          exact ⟨htraced, hg.2.trans hgrown⟩
      refine ⟨hslots.1, hext.grown.trans hslots.2, fun {s'} hs' => ?_⟩
      obtain rfl : s = s' := Option.some.inj (hs.symm.trans hs')
      exact ⟨_, hslots.2.node hnode⟩

theorem Traced.addSorts (h : t.Traced productive g) (l : List SymbolId)
    (hl : ∀ data ∈ l, data ∈ productive) :
    t.Traced productive (l.foldl (t.addSort productive) g) ∧
      g.Grown (l.foldl (t.addSort productive) g) ∧
      ∀ data ∈ l, ∀ {s}, t.sortOf? data = some s →
        ∃ i : Nat, (l.foldl (t.addSort productive) g).nodes[i]? = some (.sort s) := by
  induction l generalizing g with
  | nil => exact ⟨h, .refl g, fun _ hdata => absurd hdata List.not_mem_nil⟩
  | cons first rest ih =>
      obtain ⟨hfirst, hgrown, hnode⟩ := h.addSort (hl first List.mem_cons_self)
      obtain ⟨hrest, hgrown', hnodes⟩ :=
        ih hfirst fun data hdata => hl data (List.mem_cons_of_mem _ hdata)
      refine ⟨hrest, hgrown.trans hgrown', fun data hdata s hs => ?_⟩
      rcases List.mem_cons.1 hdata with rfl | hdata
      · obtain ⟨i, hi⟩ := hnode hs
        exact ⟨i, hgrown'.node hi⟩
      · exact hnodes data hdata hs

theorem traced_empty (t : Table) (productive : List SymbolId) : t.Traced productive {} :=
  ⟨DepGraph.proper_empty, fun hn => by simp at hn, fun hn => by simp at hn⟩

/-- The graph of sizes knows what everything depends on. -/
theorem traced_sizeGraph (t : Table) (productive : List SymbolId) :
    t.Traced productive (t.sizeGraph productive) :=
  ((t.traced_empty productive).addSorts productive fun _ h => h).1

/-- The sort of every productive data symbol is in the graph of sizes. -/
theorem exists_sort_sizeGraph (hdata : data ∈ productive) (hs : t.sortOf? data = some s) :
    ∃ i : Nat, (t.sizeGraph productive).nodes[i]? = some (.sort s) :=
  ((t.traced_empty productive).addSorts productive fun _ h => h).2.2 data hdata hs

end Table

end ManySorted
