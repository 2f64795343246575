import ManySorted.Proofs.Declaration.Forms
import ManySorted.Proofs.Productivity.Wiring
import ManySorted.Proofs.Sizing.Graph

/-!
# Sizing a component

When all data of the module is productive, the graph of sizes has an edge from each position to
every sort that it accepts and that is not settled (`Table.Sound.ready_sizeGraph`).  What a position
depends on is therefore sized before it, unless it lies on a cycle and is infinite, and the sizes of
a component bound what they should (`Table.Sound.nodeBounds_component`).

## Strategy

* **The graph is ready.**  Every position of productive data accepts something, and there is an edge
  to every sort that it accepts and that is not settled (`Table.Sound.ready_sizeGraph`).
* **What a position relies on.**  Outside of cycles, all that it depends on is sized
  (`Table.Counted.rests`), so its size bounds the values that it takes
  (`Table.slotBounds_slotSize`).
* **A component.**  Its sizes are closed, and bound what they should, on a cycle because they are
  infinite (`Table.Sound.nodeBounds_component`).
* **The components so far.**  Once its sorts are written, a component is done
  (`Table.Counted.append`), and what is known of the ones before stays.
-/

namespace ManySorted

namespace Table

variable {names : Interner} {t t' : Table} {d s : SymbolId} {g : DepGraph SizeNode}
  {sizes : Sizes} {component : List Nat} {done : List (List Nat)} {facts : SymbolId → ℕ∞}
  {e : SizeExpr}

/-! ## Productive data -/

/-- Every position of productive data accepts something. -/
theorem accepted?_of_mem_productiveData (hd : d ∈ t.productiveData) :
    d ∈ t.ownData ∧ ∀ position < (t.symbolAt d).arity,
      ∃ v, (t.symbolAt d).accepted? position = some v := by
  obtain ⟨hown, hbuild⟩ := mem_productiveData.1 hd
  refine ⟨hown, fun position hlt => ?_⟩
  obtain ⟨v, hv, -⟩ := canBuild_eq_true.1 hbuild position hlt
  exact ⟨v, hv⟩

theorem Arena.mem_ownData (h : t.Arena) : d ∈ t.ownData ↔
    t.Owns d ∧ (t.kindOf d).isData = true ∧ (t.symbolAt d).failed = false := by
  have hbase : ∀ kind : SymbolKind, kind.isData = true → kind.isBase = false := by
    intro kind hkind
    cases kind <;> first | rfl | cases hkind
  simp only [ownData, List.mem_map, List.mem_filter, Bool.and_eq_true, Bool.not_eq_true']
  constructor
  · rintro ⟨symbol, ⟨hmem, ⟨hdata, hfailed⟩, himported⟩, rfl⟩
    obtain ⟨x, hx, rfl⟩ := mem_symbols_toList.1 hmem
    rw [h.id_eq hx]
    refine ⟨⟨hx, ?_⟩, hdata, hfailed⟩
    rw [Symbol.isSettled, himported, hbase _ hdata]
    rfl
  · rintro ⟨howns, hdata, hfailed⟩
    exact ⟨t.symbolAt d, ⟨mem_symbols_toList.2 ⟨d, howns.holds, rfl⟩, ⟨hdata, hfailed⟩,
      (Bool.or_eq_false_iff.1 howns.unsettled).1⟩, h.id_eq howns.holds⟩

theorem Sound.mem_ownData (hsound : t.Sound names) :
    d ∈ t.ownData ↔ t.Owns d ∧ (t.kindOf d).isData = true := by
  rw [hsound.regular.arena.mem_ownData]
  exact ⟨fun h => ⟨h.1, h.2.1⟩, fun h => ⟨h.1, h.2, hsound.unfailed h.1.holds⟩⟩

/-! ## What sizing relies on -/

/-- The sorts of the graph are the module's own, and a position has an edge to every sort that it
accepts and that is not settled. -/
structure Ready (t : Table) (g : DepGraph SizeNode) : Prop where
  proper : g.Proper
  sort : ∀ {i : Nat} {s}, g.nodes[i]? = some (.sort s) → t.Owns s ∧ t.IsSort s
  slot : ∀ {i : Nat} {s position}, g.nodes[i]? = some (.slot s position) →
    t.IsSort s ∧ ∃ v, (t.symbolAt s).accepted? position = some v ∧ v.Closed t ∧
      ∀ {s'}, s' ∈ v.sorts → (t.symbolAt s').isSettled = true ∨ g.Edge i (.sort s')

theorem Later.accepted? (h : t.Later t') (hs : t.Holds s) {position : Nat} {v : AcceptedValues}
    (hv : (t.symbolAt s).accepted? position = some v) :
    (t'.symbolAt s).accepted? position = some v := by
  obtain ⟨form, hform, hget⟩ := Option.bind_eq_some_iff.1 hv
  rw [Symbol.accepted?, (h.symbol hs).canonical hform]
  exact hget

theorem Ready.later (h : t.Ready g) (hlater : t.Later t') : t'.Ready g where
  proper := h.proper
  sort hn := ⟨(h.sort hn).1.later hlater, hlater.isSort (h.sort hn).2⟩
  slot hn := by
    obtain ⟨hs, v, hv, hclosed, hsorts⟩ := h.slot hn
    refine ⟨hlater.isSort hs, v, hlater.accepted? hs.holds hv, hclosed.later hlater, fun hs' => ?_⟩
    refine (hsorts hs').imp (fun hsettled => ?_) fun hedge => hedge
    rw [(hlater.symbol (hclosed.sorts hs').holds).settled hsettled]
    exact hsettled

/-- The graph of sizes is ready when all data of the module is productive. -/
theorem Sound.ready_sizeGraph (hsound : t.Sound names)
    (hall : ∀ d ∈ t.ownData, d ∈ t.productiveData) : t.Ready (t.sizeGraph t.productiveData) := by
  have htraced := t.traced_sizeGraph t.productiveData
  have hdata : ∀ {d}, d ∈ t.productiveData →
      ∃ shape info, t.kindOf d = .data shape info ∧ t.Owns d := by
    intro d hd
    obtain ⟨howns, hdata⟩ := hsound.mem_ownData.1 (accepted?_of_mem_productiveData hd).1
    cases hkind : t.kindOf d with
    | data shape info => exact ⟨shape, info, rfl, howns⟩
    | _ => simp [hkind, SymbolKind.isData] at hdata
  refine ⟨htraced.proper, fun {i s} hn => ?_, fun {i s position} hn => ?_⟩
  · obtain ⟨d, hd, hsort⟩ := htraced.sort hn
    obtain ⟨shape, info, hkind, howns⟩ := hdata hd
    have hs : info.sort = s := by
      rcases hsort with hsort | hsort
      · rw [sortOf?, hkind] at hsort
        exact Option.some.inj hsort
      · obtain ⟨_, _, hkind', heq⟩ := hsound.regular.families.sort (dataOf?_eq_some_iff.1 hsort)
        rw [hkind] at hkind'
        cases hkind'
        exact heq
    exact hs ▸ ⟨(hsound.paired hkind howns).owns_sort,
      d, (hsound.regular.families.data hkind).sort_kind⟩
  · obtain ⟨d, hd, hsort, hlt, hedges⟩ := htraced.slot hn
    obtain ⟨shape, info, hkind, howns⟩ := hdata hd
    obtain rfl : info.sort = s := by
      rw [sortOf?, hkind] at hsort
      exact Option.some.inj hsort
    have hpaired := hsound.paired hkind howns
    obtain ⟨v, hv⟩ := (accepted?_of_mem_productiveData hd).2 position hlt
    have hclosed := closed_accepted hsound.closed hv
    refine ⟨⟨d, (hsound.regular.families.data hkind).sort_kind⟩, v, ?_, hclosed,
      fun {s'} hs' => ?_⟩
    · rw [Symbol.accepted?, hpaired.form_eq]
      exact hv
    · by_cases hsettled : (t.symbolAt s').isSettled = true
      · exact .inl hsettled
      · refine .inr (hedges s' ?_)
        obtain ⟨d', hd'⟩ := hclosed.sorts hs'
        have howns' := hsound.owns_data hd' ⟨holds_of_sort hd', Bool.eq_false_iff.2 hsettled⟩
        obtain ⟨_, _, hkind', _⟩ := hsound.regular.families.sort hd'
        have hmem := hall d' (hsound.mem_ownData.2 ⟨howns', by rw [hkind']; rfl⟩)
        rw [ownSortsAt, hv]
        refine List.mem_filter.2 ⟨hs', ?_⟩
        rw [dataOf?_eq_some_iff.2 hd']
        simpa using hmem

/-! ## The sizes known so far -/

/-- What the size of a node has to bound. -/
def NodeBounds (t : Table) (e : SizeExpr) : SizeNode → Prop
  | .sort s => t.Bounds s e
  | .slot s position => t.SlotBounds s position e

/-- The nodes of the components that are done have sizes, which are closed, bound what they should,
and are written to the sorts. -/
structure Counted (t : Table) (g : DepGraph SizeNode) (done : List (List Nat)) (sizes : Sizes) :
    Prop where
  closed : ∀ {n e}, sizes.find? n = some e → e.Closed t
  bounds : ∀ {n e}, sizes.find? n = some e → t.NodeBounds e n
  written : ∀ {s e}, sizes.find? (.sort s) = some e → (t.symbolAt s).size? = some e
  found : ∀ c ∈ done, ∀ i ∈ c, ∀ n, g.nodes[i]? = some n → ∃ e, sizes.find? n = some e

theorem NodeBounds.later {n : SizeNode} (h : t.NodeBounds e n) (hlater : t.Later t') :
    t'.NodeBounds e n := by
  cases n with
  | sort s => exact Bounds.later h hlater
  | slot s position => exact SlotBounds.later h hlater

theorem Counted.later (h : t.Counted g done sizes) (hlater : t.Later t') :
    t'.Counted g done sizes where
  closed hfind := (h.closed hfind).later hlater
  bounds hfind := (h.bounds hfind).later hlater
  written hfind := (hlater.symbol (holds_of_size? (h.written hfind))).size (h.written hfind)
  found := h.found

theorem counted_nil (t : Table) (g : DepGraph SizeNode) : t.Counted g [] [] where
  closed hfind := by cases hfind
  bounds hfind := by cases hfind
  written hfind := by cases hfind
  found _ hc := absurd hc List.not_mem_nil

/-! ## The size of a position -/

/-- A sort with a known size counts with the size that is written to it. -/
theorem sortSizeAt_eq (hwritten : ∀ e, sizes.find? (.sort s) = some e →
      (t.symbolAt s).size? = some e)
    (himported : sizes.find? (.sort s) = none → (t.symbolAt s).isImported = true) (any : Bool) :
    t.sortSizeAt sizes any s =
      if ((t.symbolAt s).size?.getD .infinity).isInfinite && !any then .card s
      else (t.symbolAt s).size?.getD .infinity := by
  unfold sortSizeAt
  cases hfind : sizes.find? (.sort s) with
  | none => simp [himported hfind]
  | some e => simp [hwritten e hfind]

/-- What a position relies on: each sort that it accepts has a size that stays, and that the
position counts with. -/
def Rests (t : Table) (sizes : Sizes) (s : SymbolId) : Prop :=
  t.Fixed s ∧ ∀ any, t.sortSizeAt sizes any s =
    if ((t.symbolAt s).size?.getD .infinity).isInfinite && !any then .card s
    else (t.symbolAt s).size?.getD .infinity

theorem Rests.sortAmount (h : t.Rests sizes s) (hlater : t.Later t') (any : Bool) :
    t'.sortAmount facts any s = (t.sortSizeAt sizes any s).amount facts := by
  unfold Table.sortAmount
  rw [h.2, h.1.size?_eq hlater]
  split <;> rfl

theorem Later.isAnyAt (h : t.Later t') (hs : t.dataOf? s = some d)
    (hd : ∃ shape info, t.kindOf d = .data shape info) (position : Nat) :
    t'.isAnyAt s position = t.isAnyAt s position := by
  obtain ⟨shape, info, hd⟩ := hd
  rw [Table.isAnyAt, Table.isAnyAt, hs, h.dataOf? hs, Option.any_some, Option.any_some, hd,
    h.kindOf_data hd]

/-- The size of a position bounds the values that it takes. -/
theorem slotBounds_slotSize (hs : t.dataOf? s = some d)
    (hd : ∃ shape info, t.kindOf d = .data shape info) {position : Nat} {v : AcceptedValues}
    (hv : (t.symbolAt s).accepted? position = some v)
    (hrests : ∀ {s'}, s' ∈ v.sorts → t.Rests sizes s') :
    t.SlotBounds s position (t.slotSize sizes s position) := by
  intro t' hlater facts
  have hholds : t.Holds s := holds_of_sort (dataOf?_eq_some_iff.1 hs)
  rw [slotAmount, hlater.accepted? hholds hv, slotSize, hv, hlater.isAnyAt hs hd]
  refine le_trans (le_of_eq ?_) (SizeExpr.sum_le_amount_add _)
  change v.groundAmount + _ = _
  rw [List.map_cons, List.sum_cons, List.map_map]
  congr 1
  · unfold AcceptedValues.groundAmount
    cases v.groundCount <;> rfl
  · exact congrArg List.sum
      (List.map_congr_left fun s' hs' => (hrests hs').sortAmount hlater _)

/-! ## Sizes that are closed -/

theorem closed_infinity (t : Table) : SizeExpr.Closed t .infinity :=
  ⟨.infinity, fun hs => absurd hs List.not_mem_nil⟩

theorem closed_count (t : Table) (n : Nat) : SizeExpr.Closed t (.count n) :=
  ⟨.count n, fun hs => absurd hs List.not_mem_nil⟩

theorem closed_add {parts : List SizeExpr} (h : ∀ part ∈ parts, part.Closed t) :
    (SizeExpr.add parts).Closed t where
  stable := SizeExpr.stable_add fun part hpart => (h part hpart).stable
  cards hs := by
    obtain ⟨part, hpart, hs⟩ := SizeExpr.exists_of_mem_cards_add hs
    exact (h part hpart).cards hs

theorem closed_multiply {parts : List SizeExpr} (h : ∀ part ∈ parts, part.Closed t) :
    (SizeExpr.multiply parts).Closed t where
  stable := SizeExpr.stable_multiply fun part hpart => (h part hpart).stable
  cards hs := by
    obtain ⟨part, hpart, hs⟩ := SizeExpr.exists_of_mem_cards_multiply hs
    exact (h part hpart).cards hs

theorem closed_sortSize (hclosed : ∀ {n e}, sizes.find? n = some e → e.Closed t) :
    (t.sortSize sizes s).Closed t := by
  unfold sortSize
  split
  · exact closed_infinity t
  · refine closed_multiply fun part hpart => ?_
    obtain ⟨position, _, rfl⟩ := List.mem_map.1 hpart
    unfold Sizes.slot
    cases hfind : sizes.find? (.slot s position) with
    | none => exact closed_infinity t
    | some e => exact hclosed hfind

theorem closed_sortSizeAt (h : ∀ {x}, t.Holds x → (t.symbolAt x).Closed t)
    (hsizes : ∀ {n e}, sizes.find? n = some e → e.Closed t) (hs : t.IsSort s) (any : Bool) :
    (t.sortSizeAt sizes any s).Closed t := by
  have hcard : ∀ e : SizeExpr, e.Closed t →
      (if e.isInfinite && !any then SizeExpr.card s else e).Closed t := by
    intro e he
    split
    · refine ⟨.card s, fun hs' => ?_⟩
      obtain rfl := List.mem_singleton.1 hs'
      exact hs
    · exact he
  cases hfind : sizes.find? (.sort s) with
  | some e =>
      simp only [sortSizeAt, hfind]
      exact hcard e (hsizes hfind)
  | none =>
      simp only [sortSizeAt, hfind]
      refine hcard _ ?_
      split
      · cases hsize : (t.symbolAt s).size? with
        | none => exact closed_infinity t
        | some e => exact (h hs.holds).size hsize
      · exact closed_count t 0

/-- The size of a position is closed if everything that is written and known is. -/
theorem closed_slotSize (h : ∀ {x}, t.Holds x → (t.symbolAt x).Closed t)
    (hsizes : ∀ {n e}, sizes.find? n = some e → e.Closed t) (s : SymbolId) (position : Nat) :
    (t.slotSize sizes s position).Closed t := by
  unfold slotSize
  split
  · exact closed_count t 0
  · rename_i v hv
    refine closed_add (List.forall_mem_cons.2 ⟨?_, fun part hpart => ?_⟩)
    · cases v.groundCount with
      | none => exact closed_infinity t
      | some n => exact closed_count t n
    · obtain ⟨s', hs', rfl⟩ := List.mem_map.1 hpart
      exact closed_sortSizeAt h hsizes ((closed_accepted h hv).sorts hs') _

/-! ## The sizes of a component -/

/-- The size of a node, given those of what it depends on. -/
def nodeSize (t : Table) (sizes : Sizes) : SizeNode → SizeExpr
  | .sort s => t.sortSize sizes s
  | .slot s position => t.slotSize sizes s position

/-- The size that a node of the component gets. -/
def componentSize (t : Table) (g : DepGraph SizeNode) (sizes : Sizes) (component : List Nat)
    (n : SizeNode) : SizeExpr :=
  if g.isCyclic component then .infinity else t.nodeSize sizes n

/-- The nodes of a component. -/
def componentNodes (g : DepGraph SizeNode) (component : List Nat) : List SizeNode :=
  component.filterMap (g.nodes[·]?)

theorem find?_componentSizes (n : SizeNode) :
    Sizes.find? (t.componentSizes g sizes component ++ sizes) n =
      if n ∈ componentNodes g component then some (t.componentSize g sizes component n)
      else sizes.find? n := by
  have hlookup : ∀ (f : SizeNode → SizeExpr) (nodes : List SizeNode),
      (nodes.map (fun n => (n, f n)) ++ sizes).lookup n =
        if n ∈ nodes then some (f n) else sizes.lookup n := by
    intro f nodes
    induction nodes with
    | nil => simp
    | cons first rest ih =>
        rw [List.map_cons, List.cons_append, List.lookup_cons, ih]
        by_cases heq : n = first
        · simp [heq]
        · simp [heq, beq_false_of_ne heq]
  have hsizes : t.componentSizes g sizes component = (componentNodes g component).map fun n =>
      (n, t.componentSize g sizes component n) := by
    unfold componentSizes componentSize componentNodes
    split
    · rfl
    · refine List.map_congr_left fun n _ => ?_
      cases n <;> rfl
  rw [Sizes.find?, hsizes, hlookup, Sizes.find?]

/-- What a position outside of cycles depends on is sized. -/
theorem Counted.rests (hcounted : t.Counted g done sizes) (hready : t.Ready g) {i : Nat}
    {rest : List (List Nat)} (hcomponents : g.components = done ++ [i] :: rest)
    (hacyclic : g.isCyclic [i] = false) {v : AcceptedValues} (hclosed : v.Closed t)
    (hsorts : ∀ {s}, s ∈ v.sorts → (t.symbolAt s).isSettled = true ∨ g.Edge i (.sort s))
    (hs : s ∈ v.sorts) : t.Rests sizes s := by
  have hsort := hclosed.sorts hs
  rcases hsorts hs with hsettled | ⟨j, hj, hedge⟩
  · refine ⟨⟨hsort.holds, .inl hsettled⟩,
      sortSizeAt_eq (fun _ hfind => hcounted.written hfind) fun _ => ?_⟩
    obtain ⟨d, hd⟩ := hsort
    obtain ⟨size, hkind⟩ := SymbolKind.unsized_eq_userSort.1 hd
    have hbase : (t.symbolAt s).kind.isBase = false := by
      rw [show (t.symbolAt s).kind = _ from hkind]
      rfl
    rwa [Symbol.isSettled, hbase, Bool.or_false] at hsettled
  · obtain ⟨c, hc, hjc⟩ :=
      g.exists_component_of_target hready.proper.inRange hcomponents hacyclic hedge
    obtain ⟨e, hfind⟩ := hcounted.found c hc j hjc _ hj
    refine ⟨⟨hsort.holds, .inr (by rw [hcounted.written hfind]; rfl)⟩,
      sortSizeAt_eq (fun _ hfind => hcounted.written hfind) fun hnone => ?_⟩
    cases hfind.symm.trans hnone

/-- The sizes of a component are closed and bound what they should. -/
theorem Sound.nodeBounds_component (hsound : t.Sound names) (hready : t.Ready g)
    (hcounted : t.Counted g done sizes) {rest : List (List Nat)}
    (hcomponents : g.components = done ++ component :: rest) {n : SizeNode}
    (hn : n ∈ componentNodes g component) :
    (t.componentSize g sizes component n).Closed t ∧
      t.NodeBounds (t.componentSize g sizes component n) n := by
  have hdata : ∀ {s}, t.IsSort s →
      ∃ d, t.dataOf? s = some d ∧ ∃ shape info, t.kindOf d = .data shape info := by
    rintro s ⟨d, hd⟩
    obtain ⟨shape, info, hkind, _⟩ := hsound.regular.families.sort hd
    exact ⟨d, dataOf?_eq_some_iff.2 hd, shape, info, hkind⟩
  unfold componentSize
  split
  · refine ⟨closed_infinity t, ?_⟩
    cases n with
    | sort s => exact bounds_infinity t s
    | slot s position => exact slotBounds_infinity t s position
  · next hcyclic =>
      -- a component without a cycle is a single node
      obtain ⟨i, rfl⟩ : ∃ i, component = [i] := by
        match component, hcyclic with
        | [i], _ => exact ⟨i, rfl⟩
        | [], h => exact absurd rfl h
        | _ :: _ :: _, h => exact absurd rfl h
      have hi : g.nodes[i]? = some n := by simpa [componentNodes] using hn
      cases n with
      | sort s =>
          obtain ⟨d, hd, hkind⟩ := hdata (hready.sort hi).2
          exact ⟨closed_sortSize hcounted.closed,
            bounds_sortSize hd hkind fun _ _ hfind => hcounted.bounds hfind⟩
      | slot s position =>
          obtain ⟨hsort, v, hv, hclosed, hsorts⟩ := hready.slot hi
          obtain ⟨d, hd, hkind⟩ := hdata hsort
          have hrests : ∀ {s'}, s' ∈ v.sorts → t.Rests sizes s' := fun hs' =>
            hcounted.rests hready hcomponents (Bool.eq_false_iff.2 hcyclic) hclosed hsorts hs'
          exact ⟨closed_slotSize hsound.closed hcounted.closed s position,
            slotBounds_slotSize hd hkind hv hrests⟩

theorem mem_componentSorts : s ∈ componentSorts g component ↔
    .sort s ∈ componentNodes g component := by
  simp only [componentSorts, componentNodes, List.mem_filterMap]
  constructor
  · rintro ⟨n, hn, hs⟩
    cases n with
    | sort s' => exact Option.some.inj hs ▸ hn
    | slot s' position => cases hs
  · exact fun hn => ⟨_, hn, rfl⟩

/-- Once its sorts are written, a component is done. -/
theorem Counted.append (hcounted : t.Counted g done sizes) (hlater : t.Later t')
    (hnew : ∀ n ∈ componentNodes g component, (t.componentSize g sizes component n).Closed t ∧
      t.NodeBounds (t.componentSize g sizes component n) n)
    (hwritten : ∀ s ∈ componentSorts g component,
      (t'.symbolAt s).size? = some (t.componentSize g sizes component (.sort s))) :
    t'.Counted g (done ++ [component]) (t.componentSizes g sizes component ++ sizes) := by
  have hcases : ∀ {n e}, Sizes.find? (t.componentSizes g sizes component ++ sizes) n = some e →
      (n ∈ componentNodes g component ∧ t.componentSize g sizes component n = e) ∨
        sizes.find? n = some e := by
    intro n e hfind
    rw [find?_componentSizes] at hfind
    split at hfind
    · exact .inl ⟨‹_›, Option.some.inj hfind⟩
    · exact .inr hfind
  have hold := hcounted.later hlater
  refine ⟨fun {n e} hfind => ?_, fun {n e} hfind => ?_, fun {s e} hfind => ?_,
    fun c hc i hi n hn => ?_⟩
  · rcases hcases hfind with ⟨hn, rfl⟩ | hfind
    · exact (hnew n hn).1.later hlater
    · exact hold.closed hfind
  · rcases hcases hfind with ⟨hn, rfl⟩ | hfind
    · exact (hnew n hn).2.later hlater
    · exact hold.bounds hfind
  · rcases hcases hfind with ⟨hn, rfl⟩ | hfind
    · exact hwritten s (mem_componentSorts.2 hn)
    · exact hold.written hfind
  · rw [find?_componentSizes]
    split
    · exact ⟨_, rfl⟩
    · next hnot =>
        rcases List.mem_append.1 hc with hc | hc
        · exact hcounted.found c hc i hi n hn
        · obtain rfl := List.mem_singleton.1 hc
          exact absurd (List.mem_filterMap.2 ⟨i, hi, hn⟩) hnot

end Table

end ManySorted
