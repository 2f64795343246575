import ManySorted.Proofs.Productivity

/-!
# The edges of the graph of sizes

What a node depends on can be told without the indices of nodes.  In the graph of sizes a sort
depends on its positions in turn, and a position on the sorts of productive data that it accepts
(`Table.outlets_sort`, `Table.outlets_slot`).

## Strategy

* **Nodes instead of indices.**  No node is in the graph twice, so what a node depends on can be
  read off by looking it up (`DepGraph.Proper.outlets_eq`), and adding nodes and edges changes it as
  one expects (`DepGraph.Proper.outlets_addNode`, `DepGraph.Proper.outlets_addEdge`).
* **Components.**  Reaching and lying on a cycle are told in terms of nodes as well
  (`DepGraph.Proper.reaches_iff`, `DepGraph.Proper.isCyclic_iff`).
* **The graph of sizes.**  It is made of the edges of one data symbol after the other
  (`Table.outlets_sizeGraph`).  Only the data of a sort has edges that leave the sort or its
  positions (`Table.outlets_of_data`).
-/

namespace ManySorted

universe u

namespace DepGraph

variable {N : Type u}

/-- Whether a node is in the graph. -/
def Has (g : DepGraph N) (n : N) : Prop := ∃ i : Nat, g.nodes[i]? = some n

variable [DecidableEq N] {g g' : DepGraph N} {n m a b : N} {i : Nat} {mark : Bool}

/-- What a node depends on, with the marks of the edges. -/
def outlets (g : DepGraph N) (n : N) : List (N × Bool) :=
  match g.nodes.idxOf? n with
  | some i => (g.edgesOf i).filterMap fun edge => g.nodes[edge.1]?.map (·, edge.2)
  | none => []

/-- Adds edges, each from its first to its second node. -/
def addEdges (g : DepGraph N) (edges : List (N × N × Bool)) : DepGraph N :=
  edges.foldl (fun g edge => g.addEdge edge.1 edge.2.1 edge.2.2) g

theorem Proper.idxOf?_eq_some (hg : g.Proper) :
    g.nodes.idxOf? n = some i ↔ g.nodes[i]? = some n := by
  have hforward : ∀ {k}, g.nodes.idxOf? n = some k → g.nodes[k]? = some n := by
    intro k hfind
    rw [Array.idxOf?_eq_map_finIdxOf?_val, Option.map_eq_some_iff] at hfind
    obtain ⟨k, hk, rfl⟩ := hfind
    have hat : g.nodes[k] = n := (Array.finIdxOf?_eq_some_iff.1 hk).1
    simpa using hat
  refine ⟨hforward, fun hi => ?_⟩
  cases hfind : g.nodes.idxOf? n with
  | some k => rw [hg.index_unique (hforward hfind) hi]
  | none =>
      have hnew : n ∉ g.nodes := by simpa using hfind
      exact absurd (Array.mem_of_getElem? hi) hnew

theorem Proper.outlets_eq (hg : g.Proper) (hi : g.nodes[i]? = some n) :
    g.outlets n = (g.edgesOf i).filterMap fun edge => g.nodes[edge.1]?.map (·, edge.2) := by
  rw [outlets, hg.idxOf?_eq_some.2 hi]

theorem Proper.outlets_of_not_has (hg : g.Proper) (hn : ¬ g.Has n) : g.outlets n = [] := by
  rw [outlets]
  cases hfind : g.nodes.idxOf? n with
  | none => rfl
  | some i => exact absurd ⟨i, hg.idxOf?_eq_some.1 hfind⟩ hn

/-- What a node depends on is in the graph. -/
theorem Proper.has_of_mem_outlets (hg : g.Proper) (hm : (m, mark) ∈ g.outlets n) :
    g.Has n ∧ g.Has m := by
  by_cases hn : g.Has n
  · obtain ⟨i, hi⟩ := hn
    rw [hg.outlets_eq hi] at hm
    obtain ⟨edge, _, hedge⟩ := List.mem_filterMap.1 hm
    obtain ⟨m', hm', heq⟩ := Option.map_eq_some_iff.1 hedge
    obtain rfl := (Prod.mk.inj heq).1
    exact ⟨⟨i, hi⟩, edge.1, hm'⟩
  · rw [hg.outlets_of_not_has hn] at hm
    exact absurd hm List.not_mem_nil

/-- Edges lead to the targets of a node. -/
theorem Proper.mem_targets_iff (hg : g.Proper) {j : Nat} (hi : g.nodes[i]? = some n)
    (hj : g.nodes[j]? = some m) : j ∈ g.targets i ↔ ∃ mark, (m, mark) ∈ g.outlets n := by
  rw [hg.outlets_eq hi, targets, List.mem_map]
  constructor
  · rintro ⟨edge, hedge, rfl⟩
    exact ⟨edge.2, List.mem_filterMap.2 ⟨edge, hedge, by rw [hj]; rfl⟩⟩
  · rintro ⟨mark, hm⟩
    obtain ⟨edge, hedge, hat⟩ := List.mem_filterMap.1 hm
    obtain ⟨m', hm', heq⟩ := Option.map_eq_some_iff.1 hat
    obtain rfl := (Prod.mk.inj heq).1
    exact ⟨edge, hedge, hg.index_unique hm' hj⟩

theorem Proper.outlets_grown (hg : g.Proper) (hg' : g'.Proper) (hgrown : g.Grown g')
    (hi : g.nodes[i]? = some n) (hedges : g'.edgesOf i = g.edgesOf i) :
    g'.outlets n = g.outlets n := by
  rw [hg'.outlets_eq (hgrown.node hi), hg.outlets_eq hi, hedges]
  refine List.filterMap_congr fun edge hedge => ?_
  have hlt : edge.1 < g.nodes.size := hg.inRange i edge.1 (List.mem_map_of_mem hedge)
  have hat : g.nodes[edge.1]? = some g.nodes[edge.1] := Array.getElem?_eq_getElem hlt
  rw [hat, hgrown.node hat]

theorem Proper.outlets_addNode (hg : g.Proper) (n m : N) :
    (g.addNode n).2.outlets m = g.outlets m := by
  obtain ⟨hext, -⟩ := hg.addNode n
  by_cases hm : g.Has m
  · obtain ⟨i, hi⟩ := hm
    refine hg.outlets_grown hext.proper hext.grown hi ?_
    have hlt : i < g.edges.size := hg.size_eq ▸ (Array.getElem?_eq_some_iff.1 hi).1
    unfold DepGraph.addNode
    split
    · rfl
    · simp only [edgesOf, Array.getD_eq_getD_getElem?, Array.getElem?_push_lt hlt,
        Array.getElem?_eq_getElem hlt]
  · rw [hg.outlets_of_not_has hm]
    by_cases hm' : (g.addNode n).2.Has m
    · obtain ⟨i, hi⟩ := hm'
      rw [hext.proper.outlets_eq hi]
      have hnew : ¬ i < g.edges.size := by
        intro hlt
        rw [hg.size_eq] at hlt
        have hold := Array.getElem?_eq_getElem hlt
        exact hm ⟨i, hold.trans ((hext.grown.node hold).symm.trans hi)⟩
      have hnone : (g.addNode n).2.edgesOf i = [] := by
        unfold DepGraph.addNode
        split
        · simp [edgesOf, Nat.le_of_not_lt hnew]
        · simp only [edgesOf, Array.getD_eq_getD_getElem?, Array.getElem?_push]
          split
          · rfl
          · simp [Nat.le_of_not_lt hnew]
      rw [hnone]
      rfl
    · exact hext.proper.outlets_of_not_has hm'

theorem Proper.outlets_addEdge (hg : g.Proper) (a b : N) (mark : Bool) (m : N) :
    (g.addEdge a b mark).outlets m = g.outlets m ++ if a = m then [(b, mark)] else [] := by
  obtain ⟨hext₁, hat₁⟩ := hg.addNode a
  obtain ⟨hext₂, hat₂⟩ := hext₁.proper.addNode b
  obtain ⟨hext, -⟩ := hg.addEdge a b mark
  let i := (g.addNode a).1
  let j := ((g.addNode a).2.addNode b).1
  let g₂ := ((g.addNode a).2.addNode b).2
  have hg₂ : g₂.Proper := hext₂.proper
  have hadd : g.addEdge a b mark = { g₂ with edges := g₂.edges.modify i (· ++ [(j, mark)]) } := rfl
  have hi : g₂.nodes[i]? = some a := hext₂.grown.node hat₁
  have hsame : g₂.outlets m = g.outlets m :=
    (hext₁.proper.outlets_addNode b m).trans (hg.outlets_addNode a m)
  rw [← hsame]
  by_cases hm : g₂.Has m
  · obtain ⟨k, hk⟩ := hm
    have hklt : k < g₂.edges.size := hg₂.size_eq ▸ (Array.getElem?_eq_some_iff.1 hk).1
    rw [hext.proper.outlets_eq (i := k) hk, hg₂.outlets_eq hk]
    have hedges : (g.addEdge a b mark).edgesOf k =
        g₂.edgesOf k ++ if i = k then [(j, mark)] else [] := by
      rw [hadd]
      simp only [edgesOf, Array.getD_eq_getD_getElem?, Array.getElem?_modify]
      by_cases hik : i = k
      · simp [hik, hklt]
      · simp [hik]
    rw [hedges, List.filterMap_append]
    congr 1
    by_cases hik : i = k
    · obtain rfl : a = m := Option.some.inj (hi.symm.trans (hik ▸ hk))
      rw [if_pos hik, if_pos rfl]
      have hj : (g.addEdge a b mark).nodes[j]? = some b := hat₂
      simp only [List.filterMap_cons, hj, Option.map_some, List.filterMap_nil]
    · rw [if_neg hik, if_neg (fun ham : a = m => hik (hg₂.index_unique hi (ham ▸ hk)))]
      rfl
  · have hne : a ≠ m := fun ham => hm ⟨i, ham ▸ hi⟩
    rw [hext.proper.outlets_of_not_has hm, hg₂.outlets_of_not_has hm, if_neg hne]
    rfl

theorem Proper.addEdges (hg : g.Proper) (edges : List (N × N × Bool)) :
    (g.addEdges edges).Proper := by
  induction edges generalizing g with
  | nil => exact hg
  | cons edge rest ih => exact ih (hg.addEdge edge.1 edge.2.1 edge.2.2).1.proper

theorem Proper.outlets_addEdges (hg : g.Proper) (edges : List (N × N × Bool)) (m : N) :
    (g.addEdges edges).outlets m = g.outlets m ++ (edges.filter (·.1 = m)).map Prod.snd := by
  induction edges generalizing g with
  | nil => exact (List.append_nil _).symm
  | cons edge rest ih =>
      refine (ih (hg.addEdge edge.1 edge.2.1 edge.2.2).1.proper).trans ?_
      rw [hg.outlets_addEdge, List.append_assoc]
      congr 1
      by_cases hm : edge.1 = m
      · simp [hm]
      · simp [hm]

/-! ## Components -/

/-- Whether the first node depends on the second one at once. -/
def Leads (g : DepGraph N) (n m : N) : Prop := ∃ mark, (m, mark) ∈ g.outlets n

/-- Whether the node depends on itself, at once or not. -/
def Cycles (g : DepGraph N) (n : N) : Prop := Relation.TransGen g.Leads n n

theorem Proper.has_of_leads (hg : g.Proper) (h : g.Leads n m) : g.Has n ∧ g.Has m :=
  hg.has_of_mem_outlets h.choose_spec

theorem Proper.reaches_iff (hg : g.Proper) {j : Nat} (hi : g.nodes[i]? = some n)
    (hj : g.nodes[j]? = some m) : g.Reaches i j ↔ Relation.ReflTransGen g.Leads n m := by
  constructor
  · intro hreach
    induction hreach generalizing m with
    | refl => rw [Option.some.inj (hi.symm.trans hj)]
    | @tail k l hik hkl ih =>
        have hk : k < g.nodes.size := by
          by_contra hge
          have hedges : ¬ k < g.edges.size := hg.size_eq ▸ hge
          simp [targets, edgesOf, Nat.le_of_not_lt hedges] at hkl
        have hat := Array.getElem?_eq_getElem hk
        exact (ih hat).tail ((hg.mem_targets_iff hat hj).1 hkl)
  · intro hreach
    induction hreach generalizing j with
    | refl => rw [hg.index_unique hi hj]
    | @tail l m _ hlm ih =>
        obtain ⟨mark, hmem⟩ := hlm
        obtain ⟨k, hk⟩ := (hg.has_of_mem_outlets hmem).1
        exact (ih hk).tail ((hg.mem_targets_iff hk hj).2 ⟨mark, hmem⟩)

omit [DecidableEq N] in
/-- A component has what depends on any node of it, and on which that depends. -/
theorem mem_component_iff (hg : g.InRange) {c : List Nat} (hc : c ∈ g.components) {i j : Nat}
    (hi : i ∈ c) : i < g.size ∧ (j ∈ c ↔ g.Reaches i j ∧ g.Reaches j i) := by
  rw [components_eq] at hc
  obtain ⟨k, hk, hlisted⟩ := List.mem_filterMap.1 hc
  have hklt := lt_of_mem_left hg (List.mem_reverse.1 hk)
  obtain ⟨-, rfl⟩ := listed?_eq_some.1 hlisted
  have hilt := hg.lt_of_reaches hklt ((mem_groups hg hklt).1 hi).1
  refine ⟨hilt, ?_⟩
  rw [← groups_congr hg hklt hi]
  exact mem_groups hg hilt

/-- Whether some edges lead from the node with an index back to it. -/
abbrev OnCycle (g : DepGraph N) (i : Nat) : Prop :=
  Relation.TransGen (fun i j => j ∈ g.targets i) i i

omit [DecidableEq N] in
/-- The nodes of a component are on a cycle if it is cyclic. -/
theorem isCyclic_iff_onCycle (hg : g.InRange) {c : List Nat} (hc : c ∈ g.components) (hi : i ∈ c) :
    g.isCyclic c = true ↔ g.OnCycle i := by
  have hnodup : c.Nodup := (List.nodup_flatten.1 (nodup_components hg)).1 c hc
  have hmem := fun j => (mem_component_iff hg hc hi (j := j)).2
  match c, hnodup, hi, hmem with
  | [k], _, hi, hmem =>
      obtain rfl := List.mem_singleton.1 hi
      rw [isCyclic, List.contains_iff_mem]
      refine ⟨fun hself => .single hself, fun hcycle => ?_⟩
      obtain ⟨j, hij, hji⟩ := Relation.TransGen.head'_iff.1 hcycle
      have hj := List.mem_singleton.1 ((hmem j).2 ⟨.single hij, hji⟩)
      exact hj ▸ hij
  | k :: l :: rest, hnodup, hi, hmem =>
      refine iff_of_true rfl ?_
      obtain ⟨j, hj, hne⟩ : ∃ j ∈ k :: l :: rest, j ≠ i := by
        by_cases hk : k = i
        · refine ⟨l, List.mem_cons_of_mem _ List.mem_cons_self, fun hl => ?_⟩
          exact (List.nodup_cons.1 hnodup).1 ((hk.trans hl.symm) ▸ List.mem_cons_self)
        · exact ⟨k, List.mem_cons_self, hk⟩
      obtain ⟨hij, hji⟩ := (hmem j).1 hj
      rcases Relation.reflTransGen_iff_eq_or_transGen.1 hij with heq | htrans
      · exact absurd heq hne
      · exact htrans.trans_left hji

/-- A node is on a cycle just if its index is. -/
theorem Proper.onCycle_iff (hg : g.Proper) (hn : g.nodes[i]? = some n) :
    g.OnCycle i ↔ g.Cycles n := by
  rw [OnCycle, Cycles, Relation.TransGen.head'_iff, Relation.TransGen.head'_iff]
  constructor
  · rintro ⟨j, hij, hji⟩
    have hat := Array.getElem?_eq_getElem (hg.inRange i j hij)
    exact ⟨_, (hg.mem_targets_iff hn hat).1 hij, (hg.reaches_iff hat hn).1 hji⟩
  · rintro ⟨m, hnm, hmn⟩
    obtain ⟨j, hj⟩ := (hg.has_of_leads hnm).2
    exact ⟨j, (hg.mem_targets_iff hn hj).2 hnm, (hg.reaches_iff hj hn).2 hmn⟩

theorem Proper.isCyclic_iff (hg : g.Proper) {c : List Nat} (hc : c ∈ g.components) (hi : i ∈ c)
    (hn : g.nodes[i]? = some n) : g.isCyclic c = true ↔ g.Cycles n :=
  (isCyclic_iff_onCycle hg.inRange hc hi).trans (hg.onCycle_iff hn)

end DepGraph

namespace Table

variable {names : Interner} {t : Table} {productive : List SymbolId} {g : DepGraph SizeNode}
  {d s : SymbolId} {position : Nat}

/-- The edges that belong to a position of a sort. -/
def positionEdges (t : Table) (productive : List SymbolId) (d s : SymbolId) (position : Nat) :
    List (SizeNode × SizeNode × Bool) :=
  (.sort s, .slot s position, (t.kindOf d).isUnbounded position) ::
    (t.ownSortsAt productive (t.symbolAt d) position).map fun target =>
      (.slot s position, .sort target, true)

/-- The edges that belong to data. -/
def dataEdges (t : Table) (productive : List SymbolId) (d : SymbolId) :
    List (SizeNode × SizeNode × Bool) :=
  (t.sortOf? d).toList.flatMap fun s =>
    (List.range (t.symbolAt d).arity).flatMap (t.positionEdges productive d s)

theorem addSlots_eq (positions : List Nat) (g : DepGraph SizeNode) :
    positions.foldl (t.addSlot productive (t.symbolAt d) s) g =
      g.addEdges (positions.flatMap (t.positionEdges productive d s)) := by
  induction positions generalizing g with
  | nil => rfl
  | cons position rest ih =>
      rw [List.foldl_cons, ih, List.flatMap_cons, DepGraph.addEdges, DepGraph.addEdges,
        List.foldl_append, positionEdges, List.foldl_cons, List.foldl_map]
      rfl

theorem outlets_addSort (hg : g.Proper) (m : SizeNode) :
    (t.addSort productive g d).Proper ∧ (t.addSort productive g d).outlets m =
      g.outlets m ++ ((t.dataEdges productive d).filter (·.1 = m)).map Prod.snd := by
  unfold addSort dataEdges
  cases t.sortOf? d with
  | none => exact ⟨hg, (List.append_nil _).symm⟩
  | some s =>
      have hnode := (hg.addNode (.sort s)).1.proper
      dsimp only
      rw [addSlots_eq, Option.toList_some, List.flatMap_singleton]
      exact ⟨hnode.addEdges _, by rw [hnode.outlets_addEdges, hg.outlets_addNode]⟩

theorem outlets_sizeGraph (t : Table) (productive : List SymbolId) (m : SizeNode) :
    (t.sizeGraph productive).outlets m =
      productive.flatMap fun d => ((t.dataEdges productive d).filter (·.1 = m)).map Prod.snd := by
  have hall : ∀ (l : List SymbolId) (g : DepGraph SizeNode), g.Proper →
      (l.foldl (t.addSort productive) g).outlets m = g.outlets m ++
        l.flatMap fun d => ((t.dataEdges productive d).filter (·.1 = m)).map Prod.snd := by
    intro l
    induction l with
    | nil => exact fun g _ => (List.append_nil _).symm
    | cons d rest ih =>
        intro g hg
        obtain ⟨hproper, houtlets⟩ : (t.addSort productive g d).Proper ∧
            (t.addSort productive g d).outlets m = g.outlets m ++
              ((t.dataEdges productive d).filter (·.1 = m)).map Prod.snd := outlets_addSort hg m
        rw [List.foldl_cons, ih _ hproper, houtlets, List.append_assoc, List.flatMap_cons]
  refine (hall productive {} DepGraph.proper_empty).trans ?_
  rw [DepGraph.proper_empty.outlets_of_not_has, List.nil_append]
  rintro ⟨i, hi⟩
  simp at hi

/-! ## The productive data of a table -/

theorem Families.sortOf?_iff (h : t.Families names) (hd : (t.kindOf d).isData = true) :
    t.sortOf? d = some s ↔ t.dataOf? s = some d := by
  constructor
  · intro hs
    cases hkind : t.kindOf d with
    | data shape info =>
        rw [sortOf?, hkind] at hs
        exact Option.some.inj hs ▸ h.dataOf?_sort hkind
    | _ =>
        rw [hkind] at hd
        cases hd
  · intro hs
    obtain ⟨shape, info, hkind, rfl⟩ := h.sort (dataOf?_eq_some_iff.1 hs)
    rw [sortOf?, hkind]
    rfl

theorem Arena.isData_of_productive (h : t.Arena) (hd : d ∈ t.productiveData) :
    (t.kindOf d).isData = true :=
  (h.mem_ownData.1 (mem_productiveData.1 hd).1).2.1

/-! ## The graph of the productive data -/

/-- The dependency graph of the sizes that are determined for a table. -/
abbrev ownGraph (t : Table) : DepGraph SizeNode := t.sizeGraph t.productiveData

theorem proper_ownGraph (t : Table) : t.ownGraph.Proper := (t.traced_sizeGraph _).proper

theorem flatMap_of_unique {α β : Type} {l : List α} {F : α → List β} {d : α} (hl : l.Nodup)
    (hd : d ∈ l) (hothers : ∀ x ∈ l, x ≠ d → F x = []) : l.flatMap F = F d := by
  obtain ⟨before, after, rfl⟩ := List.append_of_mem hd
  have hnodup := List.nodup_middle.1 hl
  have hnot := (List.nodup_cons.1 hnodup).1
  have hbefore : before.flatMap F = [] := List.flatMap_eq_nil_iff.2 fun x hx =>
    hothers x (List.mem_append_left _ hx) fun heq => hnot (List.mem_append_left _ (heq ▸ hx))
  have hafter : after.flatMap F = [] := List.flatMap_eq_nil_iff.2 fun x hx =>
    hothers x (List.mem_append_right _ (List.mem_cons_of_mem _ hx)) fun heq =>
      hnot (List.mem_append_right _ (heq ▸ hx))
  rw [List.flatMap_append, List.flatMap_cons, hbefore, hafter, List.append_nil, List.nil_append]

theorem dataEdges_of_sort (hs : t.sortOf? d = some s) : t.dataEdges productive d =
    (List.range (t.symbolAt d).arity).flatMap (t.positionEdges productive d s) := by
  rw [dataEdges, hs, Option.toList_some, List.flatMap_singleton]

/-- The edges of data leave its sort and the positions of its sort. -/
theorem source_of_mem_dataEdges {edge : SizeNode × SizeNode × Bool}
    (hedge : edge ∈ t.dataEdges productive d) : ∃ s, t.sortOf? d = some s ∧
      (edge.1 = .sort s ∨ ∃ position < (t.symbolAt d).arity, edge.1 = .slot s position) := by
  obtain ⟨s, hs, hedge⟩ := List.mem_flatMap.1 hedge
  obtain ⟨position, hposition, hedge⟩ := List.mem_flatMap.1 hedge
  refine ⟨s, Option.mem_toList.1 hs, ?_⟩
  rcases List.mem_cons.1 hedge with rfl | hedge
  · exact .inl rfl
  · obtain ⟨target, _, rfl⟩ := List.mem_map.1 hedge
    exact .inr ⟨position, List.mem_range.1 hposition, rfl⟩

section

variable (ht : t.Regular names)
include ht

/-- Only the data of a sort has edges that leave the sort or its positions. -/
theorem outlets_of_data (hd : d ∈ t.productiveData) (hs : t.dataOf? s = some d) {m : SizeNode}
    (hm : m = .sort s ∨ ∃ position, m = .slot s position) : t.ownGraph.outlets m =
      (((List.range (t.symbolAt d).arity).flatMap (t.positionEdges t.productiveData d s)).filter
        (·.1 = m)).map Prod.snd := by
  have hsort := (ht.families.sortOf?_iff (ht.arena.isData_of_productive hd)).2 hs
  rw [outlets_sizeGraph, flatMap_of_unique ht.arena.nodup_productiveData hd,
    dataEdges_of_sort hsort]
  intro d' hd' hne
  rw [List.map_eq_nil_iff, List.filter_eq_nil_iff]
  intro edge hedge heq
  obtain ⟨s', hs', hsource⟩ := source_of_mem_dataEdges hedge
  have hs'd := (ht.families.sortOf?_iff (ht.arena.isData_of_productive hd')).1 hs'
  have hsame : s' = s := by
    rw [of_decide_eq_true heq] at hsource
    rcases hsource with hsource | ⟨position, _, hsource⟩ <;>
      rcases hm with rfl | ⟨position', rfl⟩ <;> cases hsource <;> rfl
  exact hne (Option.some.inj ((hsame ▸ hs'd).symm.trans hs))

/-- A sort depends on its positions in turn. -/
theorem outlets_sort (hd : d ∈ t.productiveData) (hs : t.dataOf? s = some d) :
    t.ownGraph.outlets (.sort s) = (List.range (t.symbolAt d).arity).map fun position =>
      (.slot s position, (t.kindOf d).isUnbounded position) := by
  rw [outlets_of_data ht hd hs (.inl rfl), List.filter_flatMap, List.map_flatMap,
    ← List.flatMap_singleton' (List.map _ _), List.flatMap_map]
  refine List.flatMap_congr fun position _ => ?_
  rw [positionEdges, List.filter_cons, if_pos (decide_eq_true rfl), List.filter_eq_nil_iff.2]
  · rfl
  · intro edge hedge heq
    obtain ⟨target, _, rfl⟩ := List.mem_map.1 hedge
    cases of_decide_eq_true heq

/-- A position depends on the sorts of productive data that it accepts. -/
theorem outlets_slot (hd : d ∈ t.productiveData) (hs : t.dataOf? s = some d)
    (hposition : position < (t.symbolAt d).arity) : t.ownGraph.outlets (.slot s position) =
      (t.ownSortsAt t.productiveData (t.symbolAt d) position).map fun target =>
        (.sort target, true) := by
  rw [outlets_of_data ht hd hs (.inr ⟨position, rfl⟩), List.filter_flatMap, List.map_flatMap]
  have hothers : ∀ position' ∈ List.range (t.symbolAt d).arity, position' ≠ position →
      (((t.positionEdges t.productiveData d s position').filter
        (·.1 = .slot s position)).map Prod.snd) = [] := by
    intro position' _ hne
    rw [List.map_eq_nil_iff, List.filter_eq_nil_iff]
    intro edge hedge heq
    rcases List.mem_cons.1 hedge with rfl | hedge
    · cases of_decide_eq_true heq
    · obtain ⟨target, _, rfl⟩ := List.mem_map.1 hedge
      exact hne (SizeNode.slot.inj (of_decide_eq_true heq)).2
  rw [flatMap_of_unique List.nodup_range (List.mem_range.2 hposition) hothers, positionEdges,
    List.filter_cons, if_neg (by simp), List.filter_eq_self.2, List.map_map]
  · rfl
  · intro edge hedge
    obtain ⟨target, _, rfl⟩ := List.mem_map.1 hedge
    exact decide_eq_true rfl

theorem leads_slot (hd : d ∈ t.productiveData) (hs : t.dataOf? s = some d)
    (hposition : position < (t.symbolAt d).arity) :
    t.ownGraph.Leads (.sort s) (.slot s position) := by
  refine ⟨(t.kindOf d).isUnbounded position, ?_⟩
  rw [outlets_sort ht hd hs]
  exact List.mem_map.2 ⟨position, List.mem_range.2 hposition, rfl⟩

theorem has_sort_iff :
    t.ownGraph.Has (.sort s) ↔ ∃ d ∈ t.productiveData, t.dataOf? s = some d := by
  constructor
  · rintro ⟨i, hi⟩
    obtain ⟨d, hd, hs | hs⟩ := (t.traced_sizeGraph _).sort hi
    · exact ⟨d, hd, (ht.families.sortOf?_iff (ht.arena.isData_of_productive hd)).1 hs⟩
    · exact ⟨d, hd, hs⟩
  · rintro ⟨d, hd, hs⟩
    exact exists_sort_sizeGraph hd
      ((ht.families.sortOf?_iff (ht.arena.isData_of_productive hd)).2 hs)

theorem has_slot_iff : t.ownGraph.Has (.slot s position) ↔
    ∃ d ∈ t.productiveData, t.dataOf? s = some d ∧ position < (t.symbolAt d).arity := by
  constructor
  · rintro ⟨i, hi⟩
    obtain ⟨d, hd, hs, hlt, -⟩ := (t.traced_sizeGraph _).slot hi
    exact ⟨d, hd, (ht.families.sortOf?_iff (ht.arena.isData_of_productive hd)).1 hs, hlt⟩
  · rintro ⟨d, hd, hs, hlt⟩
    exact (t.proper_ownGraph.has_of_leads (leads_slot ht hd hs hlt)).2

/-- A position depends on every sort of productive data that it accepts, and on nothing else. -/
theorem leads_slot_iff {m : SizeNode} (hd : d ∈ t.productiveData) (hs : t.dataOf? s = some d)
    (hlt : position < (t.symbolAt d).arity) : t.ownGraph.Leads (.slot s position) m ↔
      ∃ s', m = .sort s' ∧ ∃ v, (t.symbolAt d).accepted? position = some v ∧ s' ∈ v.sorts ∧
        ∃ d' ∈ t.productiveData, t.dataOf? s' = some d' := by
  have hmem : ∀ s', s' ∈ t.ownSortsAt t.productiveData (t.symbolAt d) position ↔
      ∃ v, (t.symbolAt d).accepted? position = some v ∧ s' ∈ v.sorts ∧
        ∃ d' ∈ t.productiveData, t.dataOf? s' = some d' := by
    intro s'
    have hown : (t.dataOf? s').any t.productiveData.contains = true ↔
        ∃ d' ∈ t.productiveData, t.dataOf? s' = some d' := by
      rw [Option.any_eq_true]
      exact exists_congr fun d' => by rw [List.contains_iff_mem, and_comm]
    unfold ownSortsAt
    split
    · next hnone => simp [hnone]
    · next v hv =>
        rw [List.mem_filter, hown]
        refine ⟨fun h => ⟨v, hv, h⟩, ?_⟩
        rintro ⟨v', hv', h⟩
        cases hv.symm.trans hv'
        exact h
  rw [DepGraph.Leads, outlets_slot ht hd hs hlt]
  constructor
  · rintro ⟨mark, h⟩
    obtain ⟨s', hs', heq⟩ := List.mem_map.1 h
    exact ⟨s', (Prod.mk.inj heq).1.symm, (hmem s').1 hs'⟩
  · rintro ⟨s', rfl, h⟩
    exact ⟨true, List.mem_map.2 ⟨s', (hmem s').2 h, rfl⟩⟩

/-- A position depends on every sort of productive data that it accepts. -/
theorem leads_sort {v : AcceptedValues} {s' : SymbolId} (hd : d ∈ t.productiveData)
    (hs : t.dataOf? s = some d) (hlt : position < (t.symbolAt d).arity)
    (hv : (t.symbolAt d).accepted? position = some v) (hs' : s' ∈ v.sorts)
    (hown : t.ownGraph.Has (.sort s')) : t.ownGraph.Leads (.slot s position) (.sort s') :=
  (leads_slot_iff ht hd hs hlt).2 ⟨s', rfl, v, hv, hs', (has_sort_iff ht).1 hown⟩

end

end Table

end ManySorted
