import Mathlib.Data.List.Induction
import ManySorted.Proofs.Sizing.Outlets
import ManySorted.Proofs.Sizing.Roots
import ManySorted.Proofs.Sizing.Tally

/-!
# The sizes that sizing arrives at

When all components are sized, a node on a cycle is infinite, and any other node has the size that
follows from the sizes of what it depends on (`Table.find?_finalSizes`).  These are the sizes that
the demands of maps are held against, since a component comes after what it depends on
(`Table.sizingReports_eq`).  The reports are those about the cycles that single nodes lie on and
those about the demands of single maps (`Table.perm_sizingReports`).

## Strategy

* **Induction.**  What holds of every node on a cycle, and of every other node if it holds of all
  that it depends on, holds of every node, since components are ordered
  (`DepGraph.Proper.dependency_induction`).
* **Looking up.**  A size that is found once a component is sized is not changed any more
  (`Table.find?_sizesOf_stays`), and it only depends on the sizes of what the node depends on
  (`Table.Intact.nodeSize_congr`).
* **Reports.**  By the time that a component is sized, so are the positions of its sorts, so demands
  are held against the sizes that sizing arrives at (`Table.Intact.sizingReports_eq`).
* **By nodes.**  The reports of components are those of their nodes, in some order
  (`Table.Intact.perm_sizingReports`).
-/

namespace ManySorted

universe u

namespace DepGraph

variable {N : Type u} [DecidableEq N] {g : DepGraph N}

/-- What holds of every node on a cycle, and of every other node if it holds of all that it depends
on, holds of every node. -/
theorem Proper.dependency_induction (hg : g.Proper) {Q : N → Prop}
    (step : ∀ n, g.Has n → (¬ g.Cycles n → ∀ m, g.Leads n m → Q m) → Q n) :
    ∀ n, g.Has n → Q n := by
  have hprefix : ∀ done rest, g.components = done ++ rest →
      ∀ c ∈ done, ∀ i ∈ c, ∀ n, g.nodes[i]? = some n → Q n := by
    intro done
    induction done using List.reverseRecOn with
    | nil => exact fun _ _ c hc => absurd hc List.not_mem_nil
    | append_singleton done c ih =>
        intro rest hcomponents c' hc' i hi n hn
        rw [List.append_assoc] at hcomponents
        rcases List.mem_append.1 hc' with hc' | hc'
        · exact ih _ hcomponents c' hc' i hi n hn
        · rw [List.mem_singleton.1 hc'] at hi
          refine step n ⟨i, hn⟩ fun hacyclic m hleads => ?_
          have hc : c ∈ g.components := hcomponents ▸ List.mem_append_right _ List.mem_cons_self
          obtain ⟨j, hj⟩ := (hg.has_of_leads hleads).2
          have hedge := (hg.mem_targets_iff hn hj).2 hleads
          rcases exists_component_before hg.inRange hcomponents hi hedge with hjc | ⟨c', hc', hjc⟩
          · obtain ⟨-, hji⟩ := (mem_component_iff hg.inRange hc hi).2.1 hjc
            exact absurd (Relation.TransGen.head' hleads ((hg.reaches_iff hj hn).1 hji)) hacyclic
          · exact ih _ hcomponents c' hc' j hjc m hj
  intro n hn
  obtain ⟨i, hi⟩ := hn
  have hlt : i < g.size := (Array.getElem?_eq_some_iff.1 hi).1
  obtain ⟨c, hc, hic⟩ := List.mem_flatten.1 (mem_components hg.inRange hlt)
  exact hprefix g.components [] (List.append_nil _).symm c hc i hic n hi

end DepGraph

/-- The sort that a node stands for, if it is no position. -/
def SizeNode.sort? : SizeNode → Option SymbolId
  | sort s => some s
  | slot .. => none

theorem SizeNode.sort?_eq_some_iff {n : SizeNode} {s : SymbolId} : n.sort? = some s ↔
    n = .sort s := by
  cases n <;> simp [sort?]

namespace Table

variable {names : Interner} {t : Table} {g : DepGraph SizeNode} {sizes sizes' : Sizes}
  {d s : SymbolId} {n m : SizeNode} {done later : List (List Nat)} {c : List Nat}

/-! ## Looking up sizes -/

theorem mem_componentNodes : n ∈ componentNodes g c ↔ ∃ i ∈ c, g.nodes[i]? = some n :=
  List.mem_filterMap

theorem find?_sizesOf_append (hlater : ∀ c ∈ later, n ∉ componentNodes g c) :
    (t.sizesOf g (done ++ later)).find? n = (t.sizesOf g done).find? n := by
  induction later using List.reverseRecOn with
  | nil => rw [List.append_nil]
  | append_singleton later c ih =>
      rw [← List.append_assoc, sizesOf_snoc, find?_componentSizes,
        if_neg (hlater c (List.mem_append_right _ List.mem_cons_self))]
      exact ih fun c hc => hlater c (List.mem_append_left _ hc)

theorem find?_sizesOf_none (hnone : ∀ c ∈ done, n ∉ componentNodes g c) :
    (t.sizesOf g done).find? n = none := by
  have h : (t.sizesOf g ([] ++ done)).find? n = (t.sizesOf g []).find? n :=
    find?_sizesOf_append hnone
  exact h

theorem not_mem_componentNodes (hg : g.Proper) {before after : List (List Nat)}
    (hcomponents : g.components = before ++ c :: after) (hn : n ∈ componentNodes g c) :
    ∀ c' ∈ after, n ∉ componentNodes g c' := by
  intro c' hc' hn'
  obtain ⟨i, hi, hni⟩ := mem_componentNodes.1 hn
  obtain ⟨j, hj, hnj⟩ := mem_componentNodes.1 hn'
  obtain rfl := hg.index_unique hni hnj
  have hdisjoint := (List.nodup_flatten.1 (DepGraph.nodup_components hg.inRange)).2
  rw [hcomponents, List.pairwise_append, List.pairwise_cons] at hdisjoint
  exact hdisjoint.2.1.1 c' hc' hi hj

/-- A size that is found once a component is sized is not changed any more. -/
theorem find?_sizesOf_stays (hg : g.Proper) {before after : List (List Nat)}
    (hcomponents : g.components = before ++ after) {c : List Nat} (hc : c ∈ before)
    (hn : n ∈ componentNodes g c) :
    (t.sizesOf g g.components).find? n = (t.sizesOf g before).find? n := by
  rw [hcomponents]
  refine find?_sizesOf_append fun c' hc' => ?_
  obtain ⟨first, second, rfl⟩ := List.append_of_mem hc
  rw [List.append_assoc, List.cons_append] at hcomponents
  exact not_mem_componentNodes hg hcomponents hn c' (List.mem_append_right _ hc')

/-- The sizes once all components are sized. -/
def finalSizes (t : Table) : Sizes := t.sizesOf t.ownGraph t.ownGraph.components

theorem find?_finalSizes_none (hn : ¬ t.ownGraph.Has n) : t.finalSizes.find? n = none := by
  refine find?_sizesOf_none fun _ _ hmem => ?_
  obtain ⟨i, -, hi⟩ := mem_componentNodes.1 hmem
  exact hn ⟨i, hi⟩

theorem exists_component_of_has (hg : g.Proper) (hn : g.Has n) : ∃ before c after,
    g.components = before ++ c :: after ∧ n ∈ componentNodes g c := by
  obtain ⟨i, hi⟩ := hn
  have hlt : i < g.size := (Array.getElem?_eq_some_iff.1 hi).1
  obtain ⟨c, hc, hic⟩ := List.mem_flatten.1 (DepGraph.mem_components hg.inRange hlt)
  obtain ⟨before, after, hcomponents⟩ := List.append_of_mem hc
  exact ⟨before, c, after, hcomponents, mem_componentNodes.2 ⟨i, hic, hi⟩⟩

/-- What a node of a component depends on is sized together with it or before. -/
theorem exists_sized_of_leads (hg : g.Proper) {before after : List (List Nat)}
    (hcomponents : g.components = before ++ c :: after) (hn : n ∈ componentNodes g c)
    (hleads : g.Leads n m) :
    m ∈ componentNodes g c ∨ ∃ c' ∈ before, m ∈ componentNodes g c' := by
  obtain ⟨i, hi, hni⟩ := mem_componentNodes.1 hn
  obtain ⟨j, hj⟩ := (hg.has_of_leads hleads).2
  have hedge := (hg.mem_targets_iff hni hj).2 hleads
  refine (DepGraph.exists_component_before hg.inRange hcomponents hi hedge).imp (fun hjc => ?_) ?_
  · exact mem_componentNodes.2 ⟨j, hjc, hj⟩
  · rintro ⟨c', hc', hjc⟩
    exact ⟨c', hc', mem_componentNodes.2 ⟨j, hjc, hj⟩⟩

/-- What a node off all cycles depends on is sized before. -/
theorem exists_sized_before (hg : g.Proper) {before after : List (List Nat)}
    (hcomponents : g.components = before ++ c :: after) (hn : n ∈ componentNodes g c)
    (hacyclic : ¬ g.Cycles n) (hleads : g.Leads n m) : ∃ c' ∈ before, m ∈ componentNodes g c' := by
  refine (exists_sized_of_leads hg hcomponents hn hleads).resolve_left fun hm => ?_
  obtain ⟨i, hi, hni⟩ := mem_componentNodes.1 hn
  obtain ⟨j, hj, hmj⟩ := mem_componentNodes.1 hm
  have hc : c ∈ g.components := hcomponents ▸ List.mem_append_right _ List.mem_cons_self
  obtain ⟨-, hji⟩ := (DepGraph.mem_component_iff hg.inRange hc hi).2.1 hj
  exact hacyclic (Relation.TransGen.head' hleads ((hg.reaches_iff hmj hni).1 hji))

/-! ## What the size of a node is made of -/

section

variable (ht : t.Intact names)
include ht

theorem Intact.domainArity_le {shape : DataShape} {info : DataInfo}
    (hd : t.kindOf d = .data shape info) : countedArity (t.symbolAt d) ≤ (t.symbolAt d).arity := by
  have hdomain := (ht.data hd).domain
  have hkind : (t.symbolAt d).kind = .data shape info := hd
  unfold countedArity
  rw [hkind]
  cases shape with
  | constructor isNew => exact Nat.le_refl _
  | map => exact hdomain

theorem Intact.accepted?_eq (hs : t.dataOf? s = some d) (position : Nat) :
    (t.symbolAt s).accepted? position = (t.symbolAt d).accepted? position := by
  obtain ⟨shape, info, hd, rfl⟩ := ht.formed.families.sort (dataOf?_eq_some_iff.1 hs)
  rw [Symbol.accepted?, Symbol.accepted?, (ht.data hd).form_eq]

/-- The size of a node follows from the sizes of what it depends on. -/
theorem Intact.nodeSize_congr (hn : t.ownGraph.Has n)
    (hleads : ∀ m, t.ownGraph.Leads n m → sizes.find? m = sizes'.find? m)
    (hnone : ∀ m, ¬ t.ownGraph.Has m → sizes.find? m = sizes'.find? m) :
    t.nodeSize sizes n = t.nodeSize sizes' n := by
  have hregular := ht.formed.toRegular
  cases n with
  | sort s =>
      obtain ⟨d, hd, hs⟩ := (has_sort_iff hregular).1 hn
      obtain ⟨shape, info, hkind, -⟩ := ht.formed.families.sort (dataOf?_eq_some_iff.1 hs)
      have hslots : ∀ position ∈ List.range (countedArity (t.symbolAt d)),
          sizes.slot s position = sizes'.slot s position := by
        intro position hposition
        have hlt := Nat.lt_of_lt_of_le (List.mem_range.1 hposition) (ht.domainArity_le hkind)
        rw [Sizes.slot, Sizes.slot, hleads _ (leads_slot hregular hd hs hlt)]
      simp only [nodeSize, sortSize, hs, Sizes.product]
      rw [List.map_congr_left hslots]
  | slot s position =>
      obtain ⟨d, hd, hs, hlt⟩ := (has_slot_iff hregular).1 hn
      simp only [nodeSize, slotSize]
      cases hv : (t.symbolAt s).accepted? position with
      | none => rfl
      | some v =>
          have hsorts : ∀ any, ∀ s' ∈ v.sorts.toList,
              t.sortSizeAt sizes any s' = t.sortSizeAt sizes' any s' := by
            intro any s' hs'
            have hfind : sizes.find? (.sort s') = sizes'.find? (.sort s') := by
              by_cases hhas : t.ownGraph.Has (.sort s')
              · exact hleads _ (leads_sort hregular hd hs hlt
                  ((ht.accepted?_eq hs position).symm.trans hv) hs' hhas)
              · exact hnone _ hhas
            rw [sortSizeAt, sortSizeAt, hfind]
          dsimp only
          rw [List.map_congr_left (hsorts _)]

/-- A node on a cycle is infinite, and any other one has the size that follows from those of what it
depends on. -/
theorem Intact.find?_finalSizes (hn : t.ownGraph.Has n) :
    (t.ownGraph.Cycles n → t.finalSizes.find? n = some .infinity) ∧
      (¬ t.ownGraph.Cycles n → t.finalSizes.find? n = some (t.nodeSize t.finalSizes n)) := by
  have hg := t.proper_ownGraph
  obtain ⟨before, c, after, hcomponents, hnode⟩ := exists_component_of_has hg hn
  obtain ⟨i, hi, hni⟩ := mem_componentNodes.1 hnode
  have hc : c ∈ t.ownGraph.components := hcomponents ▸ List.mem_append_right _ List.mem_cons_self
  have hcyclic := hg.isCyclic_iff hc hi hni
  have hsnoc : t.ownGraph.components = (before ++ [c]) ++ after := by
    rw [hcomponents, List.append_assoc, List.singleton_append]
  have hfind : t.finalSizes.find? n =
      some (t.componentSize t.ownGraph (t.sizesOf t.ownGraph before) c n) := by
    rw [finalSizes, find?_sizesOf_stays hg hsnoc (List.mem_append_right _ List.mem_cons_self) hnode,
      sizesOf_snoc, find?_componentSizes, if_pos hnode]
  rw [hfind, componentSize]
  refine ⟨fun hcycle => by rw [if_pos (hcyclic.2 hcycle)], fun hacyclic => ?_⟩
  rw [if_neg fun hcycle => hacyclic (hcyclic.1 hcycle)]
  refine congrArg some (ht.nodeSize_congr hn (fun m hleads => ?_) fun m hm => ?_)
  · obtain ⟨c', hc', hmc⟩ := exists_sized_before hg hcomponents hnode hacyclic hleads
    exact (find?_sizesOf_stays hg hcomponents hc' hmc).symm
  · rw [find?_finalSizes_none hm]
    refine find?_sizesOf_none fun c' _ hmc => ?_
    obtain ⟨j, -, hj⟩ := mem_componentNodes.1 hmc
    exact hm ⟨j, hj⟩

/-! ## The reports of sizing -/

/-- The demands of a map are held against the sizes of its positions. -/
theorem Intact.demandReports_congr (hs : t.dataOf? s = some d)
    (hslots : ∀ position < (t.symbolAt d).arity, sizes.slot s position = sizes'.slot s position) :
    t.demandReports names sizes s = t.demandReports names sizes' s := by
  obtain ⟨shape, info, hkind, -⟩ := ht.formed.families.sort (dataOf?_eq_some_iff.1 hs)
  have hmisfits : t.misfits names sizes d s = t.misfits names sizes' d s := by
    cases shape with
    | constructor isNew =>
        have hkind' : (t.symbolAt d).kind = .data (.constructor isNew) info := hkind
        simp only [misfits, hkind']
    | map kind isPartial domainArity =>
        have hkind' : (t.symbolAt d).kind = .data (.map kind isPartial domainArity) info := hkind
        have hdomain : domainArity ≤ (t.symbolAt d).arity := (ht.data hkind).domain
        have hslots₁ : ∀ position ∈ List.range domainArity,
            sizes.slot s position = sizes'.slot s position := fun position hposition =>
          hslots position (Nat.lt_of_lt_of_le (List.mem_range.1 hposition) hdomain)
        have hslots₂ : ∀ position ∈
            (List.range ((t.symbolAt d).arity - domainArity)).map (domainArity + ·),
            sizes.slot s position = sizes'.slot s position := by
          intro position hposition
          obtain ⟨k, hk, rfl⟩ := List.mem_map.1 hposition
          have := List.mem_range.1 hk
          exact hslots _ (by omega)
        have hunbounded : ∀ positions : List Nat,
            (∀ position ∈ positions, sizes.slot s position = sizes'.slot s position) →
            (positions.filter fun i => (sizes.slot s i).isInfinite) =
              positions.filter fun i => (sizes'.slot s i).isInfinite :=
          fun positions h => List.filter_congr fun i hi => by rw [h i hi]
        simp only [misfits, hkind', Sizes.product, hunbounded _ hslots₁, hunbounded _ hslots₂,
          List.map_congr_left hslots₁, List.map_congr_left hslots₂]
  rw [demandReports, demandReports, hs, Option.toList_some, List.flatMap_singleton,
    List.flatMap_singleton, totalityReports, totalityReports, hmisfits]

/-- By the time that a component is sized, so are the positions of its sorts. -/
theorem Intact.demandReports_sizesOf {rest : List (List Nat)}
    (hcomponents : t.ownGraph.components = done ++ c :: rest)
    (hs : s ∈ componentSorts t.ownGraph c) :
    t.demandReports names (t.sizesOf t.ownGraph (done ++ [c])) s =
      t.demandReports names t.finalSizes s := by
  have hg := t.proper_ownGraph
  have hregular := ht.formed.toRegular
  have hsnoc : t.ownGraph.components = (done ++ [c]) ++ rest := by
    rw [hcomponents, List.append_assoc, List.singleton_append]
  have hnode := mem_componentSorts.1 hs
  obtain ⟨i, -, hi⟩ := mem_componentNodes.1 hnode
  obtain ⟨d, hd, hsd⟩ := (has_sort_iff hregular).1 ⟨i, hi⟩
  refine ht.demandReports_congr hsd fun position hlt => ?_
  obtain ⟨c', hc', hm⟩ : ∃ c' ∈ done ++ [c], .slot s position ∈ componentNodes t.ownGraph c' := by
    rcases exists_sized_of_leads hg hcomponents hnode (leads_slot hregular hd hsd hlt) with
      hm | ⟨c', hc', hm⟩
    · exact ⟨c, List.mem_append_right _ List.mem_cons_self, hm⟩
    · exact ⟨c', List.mem_append_left _ hc', hm⟩
  rw [Sizes.slot, Sizes.slot, finalSizes, find?_sizesOf_stays hg hsnoc hc' hm]

/-- The reports of a component in terms of the sizes that sizing arrives at. -/
def settledReports (t : Table) (names : Interner) (c : List Nat) : List Report :=
  (if t.ownGraph.isCyclic c then t.relationalReports names t.ownGraph c else []) ++
    (componentSorts t.ownGraph c).flatMap (t.demandReports names t.finalSizes)

theorem Intact.sizingReports_eq {rest : List (List Nat)}
    (hcomponents : t.ownGraph.components = done ++ rest) :
    t.sizingReports names t.ownGraph [] done = done.flatMap (t.settledReports names) := by
  have hfrom : ∀ before cs, t.ownGraph.components = before ++ cs ++ rest →
      t.sizingReports names t.ownGraph (t.sizesOf t.ownGraph before) cs =
        cs.flatMap (t.settledReports names) := by
    intro before cs
    induction cs generalizing before with
    | nil => exact fun _ => rfl
    | cons c cs ih =>
        intro hcomponents
        have hsnoc : t.ownGraph.components = (before ++ [c]) ++ cs ++ rest := by
          rw [hcomponents, ← List.append_cons]
        have hdemands : ∀ s ∈ componentSorts t.ownGraph c,
            t.demandReports names (t.sizesOf t.ownGraph (before ++ [c])) s =
              t.demandReports names t.finalSizes s :=
          fun s hs => ht.demandReports_sizesOf
            (by rw [hcomponents, List.append_assoc, List.cons_append]) hs
        rw [sizingReports, List.flatMap_cons, ← sizesOf_snoc, ih _ hsnoc, componentReports,
          settledReports, List.flatMap_congr hdemands]
  exact hfrom [] done hcomponents

end

/-! ## The reports of sizing by nodes -/

/-- The nodes that are sized. -/
def sizedNodes (t : Table) : List SizeNode :=
  t.ownGraph.components.flatMap (componentNodes t.ownGraph)

theorem mem_sizedNodes : n ∈ t.sizedNodes ↔ t.ownGraph.Has n := by
  rw [sizedNodes, List.mem_flatMap]
  constructor
  · rintro ⟨c, -, hn⟩
    obtain ⟨i, -, hi⟩ := mem_componentNodes.1 hn
    exact ⟨i, hi⟩
  · intro hn
    obtain ⟨before, c, after, hcomponents, hn⟩ := exists_component_of_has t.proper_ownGraph hn
    exact ⟨c, hcomponents ▸ List.mem_append_right _ List.mem_cons_self, hn⟩

theorem sizedNodes_eq (t : Table) :
    t.sizedNodes = t.ownGraph.components.flatten.filterMap (t.ownGraph.nodes[·]?) := by
  rw [sizedNodes, List.filterMap_flatten, List.flatMap_def]
  rfl

theorem nodup_sizedNodes (t : Table) : t.sizedNodes.Nodup := by
  rw [sizedNodes_eq]
  exact (DepGraph.nodup_components t.proper_ownGraph.inRange).filterMap fun i j n hi hj =>
    t.proper_ownGraph.index_unique hi hj

theorem flatMap_componentSorts_eq (t : Table) :
    t.ownGraph.components.flatMap (componentSorts t.ownGraph) =
      t.sizedNodes.filterMap SizeNode.sort? := by
  rw [sizedNodes, List.filterMap_flatMap]
  refine List.flatMap_congr fun c _ => ?_
  rw [componentSorts, componentNodes]
  refine List.filterMap_congr fun n _ => ?_
  cases n <;> rfl

/-- The sorts that are sized are those with nodes. -/
theorem mem_componentSorts_iff {s : SymbolId} :
    s ∈ t.ownGraph.components.flatMap (componentSorts t.ownGraph) ↔ t.ownGraph.Has (.sort s) := by
  rw [flatMap_componentSorts_eq, List.mem_filterMap, ← mem_sizedNodes]
  constructor
  · rintro ⟨n, hn, hsort⟩
    cases n with
    | slot => cases hsort
    | sort s' =>
        cases hsort
        exact hn
  · exact fun hn => ⟨_, hn, rfl⟩

/-- The report about a position on a cycle. -/
def cycleReport? (t : Table) (names : Interner) : SizeNode → Option Report
  | .sort _ => none
  | .slot s position => (t.dataOf? s).map fun d =>
      ⟨(t.symbolAt d).location,
        .relational (t.qualifiedName names d) (t.positionName names d position)⟩

open Classical in
/-- The reports about the positions that a node depends on without bound and that depend on it. -/
noncomputable def cycleReports (t : Table) (names : Interner) (n : SizeNode) : List Report :=
  (t.ownGraph.outlets n).filterMap fun edge =>
    if edge.2 ∨ ¬ Relation.ReflTransGen t.ownGraph.Leads edge.1 n then none
    else t.cycleReport? names edge.1

/-- The reports about one edge: the search for cycles by indices comes to the same. -/
theorem cycleReports_eq (t : Table) (names : Interner) {c : List Nat} {i : Nat}
    (hc : c ∈ t.ownGraph.components) (hi : i ∈ c) (hn : t.ownGraph.nodes[i]? = some n) :
    ((t.ownGraph.edgesOf i).filterMap fun edge =>
      if edge.2 || !c.contains edge.1 then none
      else t.ownGraph.nodes[edge.1]?.bind (t.cycleReport? names)) = t.cycleReports names n := by
  have hg := t.proper_ownGraph
  rw [cycleReports, hg.outlets_eq hn, List.filterMap_filterMap]
  refine List.filterMap_congr fun edge hedge => ?_
  have htarget : edge.1 ∈ t.ownGraph.targets i := List.mem_map_of_mem hedge
  obtain ⟨m, hm⟩ : ∃ m, t.ownGraph.nodes[edge.1]? = some m :=
    ⟨_, Array.getElem?_eq_getElem (hg.inRange i edge.1 htarget)⟩
  have hback : edge.1 ∈ c ↔ Relation.ReflTransGen t.ownGraph.Leads m n := by
    rw [(DepGraph.mem_component_iff hg.inRange hc hi).2, hg.reaches_iff hm hn]
    exact and_iff_right (.single htarget)
  simp only [hm, Option.map_some, Option.bind_some, ← hback]
  cases edge.2 <;> by_cases hmem : edge.1 ∈ c <;> simp [hmem]

theorem relationalReports_eq (t : Table) (names : Interner) {c : List Nat}
    (hc : c ∈ t.ownGraph.components) : t.relationalReports names t.ownGraph c =
      (componentNodes t.ownGraph c).flatMap (t.cycleReports names) := by
  have hall : ∀ l : List Nat, (∀ i ∈ l, i ∈ c) →
      ((l.flatMap t.ownGraph.edgesOf).filterMap fun edge =>
        if edge.2 || !c.contains edge.1 then none
        else t.ownGraph.nodes[edge.1]?.bind (t.cycleReport? names)) =
          (componentNodes t.ownGraph l).flatMap (t.cycleReports names) := by
    intro l
    induction l with
    | nil => exact fun _ => rfl
    | cons i rest ih =>
        intro hl
        have hi := hl i List.mem_cons_self
        have hlt := (DepGraph.mem_component_iff t.proper_ownGraph.inRange hc hi (j := i)).1
        have hn := Array.getElem?_eq_getElem hlt
        rw [List.flatMap_cons, List.filterMap_append, t.cycleReports_eq names hc hi hn,
          ih fun j hj => hl j (List.mem_cons_of_mem _ hj), componentNodes, componentNodes,
          List.filterMap_cons_some hn, List.flatMap_cons]
  rw [← hall c fun _ hi => hi, relationalReports, relationalSlots, List.filterMap_filterMap]
  refine List.filterMap_congr fun edge _ => ?_
  obtain ⟨j, mark⟩ := edge
  dsimp only
  split
  · rfl
  · cases t.ownGraph.nodes[j]? with
    | none => rfl
    | some n => cases n <;> rfl

/-- A component that is on no cycle has no such reports. -/
theorem relationalReports_of_acyclic (t : Table) (names : Interner) {c : List Nat}
    (hc : c ∈ t.ownGraph.components) (hacyclic : t.ownGraph.isCyclic c = false) :
    t.relationalReports names t.ownGraph c = [] := by
  rw [relationalReports_eq t names hc, List.flatMap_eq_nil_iff]
  intro n hn
  obtain ⟨i, hi, hni⟩ := mem_componentNodes.1 hn
  rw [cycleReports, List.filterMap_eq_nil_iff]
  intro edge hedge
  refine if_pos (.inr fun hback => Bool.false_ne_true (hacyclic.symm.trans ?_))
  exact (t.proper_ownGraph.isCyclic_iff hc hi hni).2 (.head' ⟨edge.2, hedge⟩ hback)

/-- The reports of sizing, ordered by nodes. -/
theorem Intact.perm_sizingReports (ht : t.Intact names) :
    (t.sizingReports names t.ownGraph [] t.ownGraph.components).Perm
      (t.sizedNodes.flatMap (t.cycleReports names) ++
        (t.sizedNodes.filterMap SizeNode.sort?).flatMap (t.demandReports names t.finalSizes)) := by
  rw [ht.sizingReports_eq (List.append_nil _).symm]
  refine (List.flatMap_append_perm _ _ _).symm.trans (.of_eq ?_)
  rw [← flatMap_componentSorts_eq, List.flatMap_assoc, sizedNodes, List.flatMap_assoc]
  congr 1
  refine List.flatMap_congr fun c hc => ?_
  rw [← relationalReports_eq t names hc]
  split
  · rfl
  · next hacyclic =>
      exact (relationalReports_of_acyclic t names hc (Bool.eq_false_iff.2 hacyclic)).symm

end Table

end ManySorted
