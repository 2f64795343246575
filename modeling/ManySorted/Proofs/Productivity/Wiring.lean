import ManySorted.Proofs.Productivity.Worklist
import ManySorted.Proofs.Table.Arena

/-!
# The least set of productive data

Productive data is what can be built from productive data, and the least such set
(`Table.mem_productiveData`, `Table.productive_induction`).  It is described by rounds: what can be
built from nothing, then from that, and so on (`Table.growProductive`).  A check does not go by
rounds but works a worklist off, and what it finds is the same (`Table.Arena.solvedData_eq`).

## Strategy

* **The graph.**  It is made by adding nodes one after the other and then by enabling positions.
  What is known while this goes on (`Table.Wired`) is that every node is indexed at its place, needs
  what it should, and enables what it was made a producer for.  Each of the two kinds of steps keeps
  it (`Wired.grow`, `Wired.enable`), and the graph is two runs of such steps (`Table.wired`).
* **Counting.**  A constructor or map is enabled by its positions only, by each of them once, and so
  its counter is at zero just if all its positions are taken (`Wired.needs_le_toldBy_iff`).  A
  position needs one producer, so it is enough that one is taken.
* **Both inclusions.**  What is taken is productive by induction over what is taken
  (`ProductivityGraph.Solved.induction`); productive data is taken by induction over productive
  data.
-/

namespace ManySorted

namespace Table

/-! ## What can be built -/

/-- Whether a term for a position can be built from the productive data. -/
def canFill (t : Table) (productive : List SymbolId) (values : AcceptedValues) : Bool :=
  values.hasGroundValues ||
    (values.sorts.toList.filterMap t.dataOf?).any fun data =>
      (t.symbolAt data).isImported || productive.contains data

/-- Whether a term for a position of a data symbol can be built from the productive data. -/
def canFillPosition (t : Table) (productive : List SymbolId) (data : SymbolId) (position : Nat) :
    Bool :=
  match (t.symbolAt data).accepted? position with
  | some values => t.canFill productive values
  | none => false

/-- Whether a term of a data symbol can be built from the productive data. -/
def canBuild (t : Table) (productive : List SymbolId) (data : SymbolId) : Bool :=
  (List.range (t.symbolAt data).arity).all (t.canFillPosition productive data)

/-- Adds what can be built until nothing is added, in at most the given number of rounds. -/
def growProductive (t : Table) (own : List SymbolId) : Nat → List SymbolId → List SymbolId
  | 0, productive => productive
  | rounds + 1, productive =>
      let grown := own.filter (t.canBuild productive)
      if grown.length = productive.length then productive
      else t.growProductive own rounds grown

/-- The productive data among the module's own.  Every round but the last adds something, so there
are no more rounds than data. -/
def productiveData (t : Table) : List SymbolId := t.growProductive t.ownData t.ownData.length []

variable {t : Table} {own known known' : List SymbolId} {x d : SymbolId} {v : AcceptedValues}

/-! ## The least fixed point -/

theorem canFill_mono (hknown : ∀ y ∈ known, y ∈ known') (h : t.canFill known v = true) :
    t.canFill known' v = true := by
  unfold canFill at h ⊢
  rw [Bool.or_eq_true] at h ⊢
  refine h.imp (fun h => h) fun h => ?_
  obtain ⟨data, hdata, h⟩ := List.any_eq_true.1 h
  refine List.any_eq_true.2 ⟨data, hdata, ?_⟩
  rw [Bool.or_eq_true] at h ⊢
  exact h.imp (fun h => h) fun h =>
    List.contains_iff_mem.2 (hknown data (List.contains_iff_mem.1 h))

theorem canFillPosition_eq_true {position : Nat} : t.canFillPosition known x position = true ↔
    ∃ v, (t.symbolAt x).accepted? position = some v ∧ t.canFill known v = true := by
  unfold canFillPosition
  split
  · rename_i v hv
    rw [hv]
    exact ⟨fun h => ⟨v, rfl, h⟩, fun h => by
      obtain ⟨w, hw, hfill⟩ := h
      rw [Option.some.inj hw]
      exact hfill⟩
  · rename_i hv
    rw [hv]
    simp

theorem canBuild_eq_true : t.canBuild known x = true ↔ ∀ position < (t.symbolAt x).arity,
    ∃ v, (t.symbolAt x).accepted? position = some v ∧ t.canFill known v = true := by
  rw [canBuild, List.all_eq_true]
  simp only [List.mem_range, canFillPosition_eq_true]

theorem canBuild_mono (hknown : ∀ y ∈ known, y ∈ known') (h : t.canBuild known x = true) :
    t.canBuild known' x = true := by
  rw [canBuild_eq_true] at h ⊢
  intro position hlt
  obtain ⟨v, hv, hfill⟩ := h position hlt
  exact ⟨v, hv, canFill_mono hknown hfill⟩

/-- What is known is among the module's own, and can be built from what is known. -/
structure Supported (t : Table) (own known : List SymbolId) : Prop where
  sublist : known.Sublist own
  built : ∀ y ∈ known, t.canBuild known y = true

theorem Supported.grows (h : t.Supported own known) :
    known.Sublist (own.filter (t.canBuild known)) := by
  have hall : known.filter (t.canBuild known) = known := List.filter_eq_self.2 h.built
  rw [← hall]
  nth_rewrite 2 [hall]
  exact h.sublist.filter _

theorem Supported.filter (h : t.Supported own known) :
    t.Supported own (own.filter (t.canBuild known)) where
  sublist := List.filter_sublist
  built _ hy := canBuild_mono (fun _ hz => h.grows.subset hz) (List.mem_filter.1 hy).2

/-- Given enough rounds, everything that can be built is found. -/
theorem Supported.filter_growProductive {rounds : Nat} (h : t.Supported own known)
    (hrounds : own.length ≤ known.length + rounds) :
    own.filter (t.canBuild (t.growProductive own rounds known)) =
      t.growProductive own rounds known := by
  induction rounds generalizing known with
  | zero =>
      obtain rfl := h.sublist.eq_of_length_le hrounds
      exact List.filter_eq_self.2 h.built
  | succ rounds ih =>
      rw [growProductive]
      split
      · rename_i heq
        exact (h.grows.eq_of_length heq.symm).symm
      · rename_i hne
        have hlt := Nat.lt_of_le_of_ne h.grows.length_le fun heq => hne heq.symm
        exact ih h.filter (by omega)

theorem filter_productiveData (t : Table) :
    t.ownData.filter (t.canBuild t.productiveData) = t.productiveData := by
  have hstart : t.Supported t.ownData [] :=
    ⟨List.nil_sublist _, fun _ hy => absurd hy List.not_mem_nil⟩
  exact hstart.filter_growProductive (by simp)

/-- The productive data is just what can be built from productive data. -/
theorem mem_productiveData : x ∈ t.productiveData ↔
    x ∈ t.ownData ∧ t.canBuild t.productiveData x = true := by
  nth_rewrite 1 [← t.filter_productiveData]
  exact List.mem_filter

/-- What holds of everything that is built from what it holds of holds of all productive data. -/
theorem productive_induction {P : SymbolId → Prop}
    (step : ∀ x known, x ∈ t.ownData → t.canBuild known x = true → (∀ y ∈ known, P y) → P x) :
    ∀ x ∈ t.productiveData, P x := by
  have hgrow : ∀ rounds known, (∀ y ∈ known, P y) →
      ∀ y ∈ t.growProductive t.ownData rounds known, P y := by
    intro rounds
    induction rounds with
    | zero => exact fun _ h => h
    | succ rounds ih =>
        intro known hknown
        rw [growProductive]
        split
        · exact hknown
        · refine ih _ fun y hy => ?_
          obtain ⟨hown, hbuild⟩ := List.mem_filter.1 hy
          exact step y known hown hbuild hknown
  exact hgrow _ [] fun _ hy => absurd hy List.not_mem_nil

/-! ## The module's own data -/

theorem symbols_toList_eq (t : Table) :
    t.symbols.toList = (List.range t.symbols.size).map fun i => t.symbolAt ⟨i⟩ := by
  refine List.ext_getElem (by simp) fun i hi hi' => ?_
  simp only [List.getElem_map, List.getElem_range, Array.getElem_toList]
  rw [Table.symbolAt, Array.getD_eq_getD_getElem?, Array.getElem?_eq_getElem (by simpa using hi)]
  rfl

theorem sublist_productiveData (t : Table) : t.productiveData.Sublist t.ownData := by
  have hall : ∀ (rounds : Nat) (known : List SymbolId), known.Sublist t.ownData →
      (t.growProductive t.ownData rounds known).Sublist t.ownData := by
    intro rounds
    induction rounds with
    | zero => exact fun _ h => h
    | succ rounds ih =>
        intro known h
        rw [growProductive]
        split
        · exact h
        · exact ih _ List.filter_sublist
  exact hall _ _ (List.nil_sublist _)

theorem Arena.nodup_ownData (h : t.Arena) : t.ownData.Nodup := by
  refine List.Nodup.map_on ?_ (List.Nodup.filter _ ?_)
  · intro a ha b hb hab
    obtain ⟨x, hx, rfl⟩ := mem_symbols_toList.1 (List.mem_filter.1 ha).1
    obtain ⟨y, hy, rfl⟩ := mem_symbols_toList.1 (List.mem_filter.1 hb).1
    rw [h.id_eq hx, h.id_eq hy] at hab
    rw [hab]
  · rw [symbols_toList_eq]
    refine List.Nodup.map_on (fun i hi j hj hij => ?_) List.nodup_range
    have heq := congrArg Symbol.id hij
    rw [h.id_eq (List.mem_range.1 hi), h.id_eq (List.mem_range.1 hj)] at heq
    exact congrArg SymbolId.index heq

theorem Arena.nodup_productiveData (h : t.Arena) : t.productiveData.Nodup :=
  t.sublist_productiveData.nodup h.nodup_ownData

end Table

/-! ## The steps that make the graph -/

namespace ProductivityGraph

variable {g : ProductivityGraph} {n : ProductivityNode} {state : NodeState} {i j : Nat}

/-- The graph with one more node. -/
def grow (g : ProductivityGraph) (n : ProductivityNode) (state : NodeState) :
    ProductivityGraph where
  nodes := g.nodes.push n
  index := enter g.index n g.nodes.size
  states := g.states.push state

theorem nodes_grow (g : ProductivityGraph) (n : ProductivityNode) (state : NodeState) :
    (g.grow n state).nodes.toList = g.nodes.toList ++ [n] := Array.toList_push

theorem getElem?_nodes_grow : (g.grow n state).nodes[i]? =
    if i = g.nodes.size then some n else g.nodes[i]? := by
  rw [grow, Array.getElem?_push]

theorem stateAt_grow (hpaired : g.states.size = g.nodes.size) :
    (g.grow n state).stateAt i = if i = g.nodes.size then state else g.stateAt i := by
  rw [stateAt, grow, Array.getD_eq_getD_getElem?, Array.getElem?_push, hpaired]
  split
  · rfl
  · rw [stateAt, Array.getD_eq_getD_getElem?]

/-- What a new node enables can be said when it is made. -/
theorem enableAt_grow (hpaired : g.states.size = g.nodes.size) (k : Nat) :
    (g.grow n state).enableAt g.nodes.size k =
      g.grow n { state with enables := state.enables ++ [k] } := by
  rw [enableAt, grow, grow]
  refine congrArg (fun states => (⟨_, _, states⟩ : ProductivityGraph)) ?_
  refine Array.ext_getElem? fun i => ?_
  rw [Array.getElem?_modify, Array.getElem?_push, Array.getElem?_push, hpaired]
  by_cases hi : i = g.nodes.size
  · simp [hi]
  · simp [hi, Ne.symm hi]

theorem stateAt_enableAt (target : Nat) (hi : i < g.states.size) : (g.enableAt i target).stateAt j =
    if j = i then { g.stateAt j with enables := g.enables j ++ [target] } else g.stateAt j := by
  simp only [stateAt, enables, enableAt, Array.getD_eq_getD_getElem?, Array.getElem?_modify,
    eq_comm (a := i)]
  by_cases hj : j = i
  · simp [hj, hi]
  · simp [hj]

/-- Whether the node at a place is a position of the given constructor or map. -/
def argues (g : ProductivityGraph) (d : SymbolId) (j : Nat) : Bool :=
  match g.nodes[j]? with
  | some (.argument d' _) => d' = d
  | _ => false

theorem argues_iff {d : SymbolId} :
    g.argues d j = true ↔ ∃ p, g.nodes[j]? = some (.argument d p) := by
  unfold argues
  split
  · next d' p hj => simp [hj, eq_comm]
  · next hother =>
      refine iff_of_false Bool.false_ne_true ?_
      rintro ⟨p, hp⟩
      exact hother d p hp

end ProductivityGraph

namespace Table

open ProductivityGraph (grow getElem?_nodes_grow stateAt_grow)

variable {t : Table} {d : SymbolId} {v : AcceptedValues} {g : ProductivityGraph}
  {n : ProductivityNode} {i j k p : Nat} {known : List SymbolId}
    {edges : List (ProductivityNode × Nat)}

/-- How many producers a node needs. -/
def needOf (t : Table) : ProductivityNode → Nat
  | .root => 0
  | .function d => (t.symbolAt d).arity
  | .argument _ _ => 1

/-- The nodes are at their places, need what they should, and enable what is said of them: a
position what it is a position of, and any other node what it was made a producer for. -/
structure Wired (t : Table) (edges : List (ProductivityNode × Nat)) (g : ProductivityGraph) :
    Prop where
  paired : g.states.size = g.nodes.size
  index_iff : ∀ {n i}, g.index.lookup n = some i ↔ g.nodes[i]? = some n
  needs : ∀ {n i}, g.nodes[i]? = some n → g.needs i = t.needOf n
  argument : ∀ {d p i}, g.nodes[i]? = some (.argument d p) →
    ∃ k, g.nodes[k]? = some (.function d) ∧ g.enables i = [k]
  producer : ∀ {n i}, g.nodes[i]? = some n → (∀ d p, n ≠ .argument d p) →
    g.enables i = (edges.filter fun edge => edge.1 = n).map Prod.snd

/-- A node is added that was not there before. -/
theorem Wired.grow (h : t.Wired [] g) {state : NodeState} (hn : n ∉ g.nodes.toList)
    (hneeds : state.required = t.needOf n)
    (hargument : ∀ d p, n = .argument d p →
      ∃ k, g.nodes[k]? = some (.function d) ∧ state.enables = [k])
    (hproducer : (∀ d p, n ≠ .argument d p) → state.enables = []) :
    t.Wired [] (g.grow n state) := by
  have hold : ∀ {i m}, g.nodes[i]? = some m → i ≠ g.nodes.size := fun {i m} hi heq => by
    rw [heq, Array.getElem?_eq_none (Nat.le_refl _)] at hi
    cases hi
  have hkept : ∀ {i m}, g.nodes[i]? = some m → (g.grow n state).nodes[i]? = some m := fun hi => by
    rw [getElem?_nodes_grow, if_neg (hold hi), hi]
  refine ⟨?_, fun {m i} => ?_, fun {m i} hi => ?_, fun {d p i} hi => ?_, fun {m i} hi hm => ?_⟩
  · rw [ProductivityGraph.grow, Array.size_push, Array.size_push, h.paired]
  · rw [getElem?_nodes_grow, ProductivityGraph.grow, lookup_enter]
    by_cases hm : m = n
    · subst hm
      rw [if_pos rfl, Option.some.injEq]
      split
      · next heq => exact iff_of_true heq.symm rfl
      · next hne =>
          refine iff_of_false (fun heq => hne heq.symm) fun hi => hn ?_
          exact Array.mem_toList_iff.2 (Array.mem_of_getElem? hi)
    · rw [if_neg hm, h.index_iff]
      split
      · next heq =>
            exact iff_of_false (fun hi => hold hi heq) fun hi => hm (Option.some.inj hi).symm
      · rfl
  · rw [getElem?_nodes_grow] at hi
    rw [ProductivityGraph.needs, stateAt_grow h.paired]
    split at hi
    · next heq => rw [if_pos heq, hneeds, Option.some.inj hi]
    · next hne => rw [if_neg hne, ← h.needs hi, ProductivityGraph.needs]
  · rw [getElem?_nodes_grow] at hi
    rw [ProductivityGraph.enables, stateAt_grow h.paired]
    split at hi
    · next heq =>
        obtain ⟨k, hk, henables⟩ := hargument d p (Option.some.inj hi)
        exact ⟨k, hkept hk, by rw [if_pos heq, henables]⟩
    · next hne =>
        obtain ⟨k, hk, henables⟩ := h.argument hi
        exact ⟨k, hkept hk, by rw [if_neg hne, ← henables, ProductivityGraph.enables]⟩
  · rw [getElem?_nodes_grow] at hi
    rw [ProductivityGraph.enables, stateAt_grow h.paired]
    split at hi
    · next heq =>
        rw [if_pos heq, hproducer (Option.some.inj hi ▸ hm)]
        rfl
    · next hne => rw [if_neg hne, ← h.producer hi hm, ProductivityGraph.enables]

/-- A position is added to what it is a position of. -/
theorem Wired.growArgument (h : t.Wired [] g) (hn : .argument d p ∉ g.nodes.toList)
    (hk : g.nodes[k]? = some (.function d)) :
    t.Wired [] (g.grow (.argument d p) ⟨1, [k]⟩) := by
  refine h.grow hn rfl (fun d' p' heq => ?_) fun hne => absurd rfl (hne d p)
  cases heq
  exact ⟨k, hk, rfl⟩

/-- The nodes of a constructor or map. -/
def nodesFor (t : Table) (d : SymbolId) : List ProductivityNode :=
  .function d :: (List.range (t.symbolAt d).arity).map (.argument d)

theorem Wired.foldl_arguments (h : t.Wired [] g) (hk : g.nodes[k]? = some (.function d))
    (positions : List Nat)
    (hnodup : (g.nodes.toList ++ positions.map (ProductivityNode.argument d)).Nodup) :
    let g' := positions.foldl (fun g position =>
      let (argument, g) := g.add (.argument d position) 1
      g.enableAt argument k) g
    t.Wired [] g' ∧ g'.nodes.toList = g.nodes.toList ++
      positions.map (ProductivityNode.argument d) := by
  induction positions generalizing g with
  | nil => exact ⟨h, (List.append_nil _).symm⟩
  | cons p rest ih =>
      have hn : .argument d p ∉ g.nodes.toList := fun hmem =>
        (List.nodup_append.1 hnodup).2.2 _ hmem _ List.mem_cons_self rfl
      have hstep : ((g.add (.argument d p) 1).2.enableAt (g.add (.argument d p) 1).1 k) =
          g.grow (.argument d p) ⟨1, [k]⟩ := ProductivityGraph.enableAt_grow h.paired k
      have hnodes := g.nodes_grow (.argument d p) ⟨1, [k]⟩
      have hplace : (g.grow (.argument d p) ⟨1, [k]⟩).nodes[k]? = some (.function d) := by
        have hlt : k < g.nodes.size := (Array.getElem?_eq_some_iff.1 hk).1
        rw [getElem?_nodes_grow, if_neg (Nat.ne_of_lt hlt), hk]
      have hrest := ih (h.growArgument hn hk) hplace (by
        rw [hnodes, List.append_assoc]
        exact hnodup)
      rw [hnodes, List.append_assoc] at hrest
      dsimp only [List.foldl_cons]
      rw [hstep]
      exact hrest

theorem Wired.addFunction (h : t.Wired [] g)
    (hnodup : (g.nodes.toList ++ t.nodesFor d).Nodup) : t.Wired [] (t.addFunction g d) ∧
      (t.addFunction g d).nodes.toList = g.nodes.toList ++ t.nodesFor d := by
  have hn : .function d ∉ g.nodes.toList := fun hmem =>
    (List.nodup_append.1 hnodup).2.2 _ hmem _ List.mem_cons_self rfl
  have hgrown : t.Wired [] (g.grow (.function d) ⟨(t.symbolAt d).arity, []⟩) :=
    h.grow hn rfl (fun _ _ heq => by cases heq) fun _ => rfl
  have hnodes := g.nodes_grow (.function d) ⟨(t.symbolAt d).arity, []⟩
  have hplace : (g.grow (.function d) ⟨(t.symbolAt d).arity, []⟩).nodes[g.nodes.size]? =
      some (.function d) := by
    rw [getElem?_nodes_grow, if_pos rfl]
  have hrest := hgrown.foldl_arguments hplace (List.range (t.symbolAt d).arity) (by
    rw [hnodes, List.append_assoc]
    exact hnodup)
  rw [hnodes, List.append_assoc] at hrest
  exact hrest

theorem Wired.foldl_addFunction (h : t.Wired [] g) (l : List SymbolId)
    (hnodup : (g.nodes.toList ++ l.flatMap t.nodesFor).Nodup) :
    t.Wired [] (l.foldl t.addFunction g) ∧
      (l.foldl t.addFunction g).nodes.toList = g.nodes.toList ++ l.flatMap t.nodesFor := by
  induction l generalizing g with
  | nil => exact ⟨h, (List.append_nil _).symm⟩
  | cons d rest ih =>
      rw [List.flatMap_cons, ← List.append_assoc] at hnodup ⊢
      obtain ⟨hadded, hnodes⟩ := h.addFunction (List.nodup_append.1 hnodup).1
      rw [← hnodes] at hnodup ⊢
      exact ih hadded hnodup

/-! ## Enabling positions -/

/-- A node other than a position is made a producer. -/
theorem Wired.enable (h : t.Wired edges g) (hn : ∀ d p, n ≠ .argument d p) (target : Nat) :
    t.Wired (edges ++ [(n, target)]) (g.enable n target) ∧
      (g.enable n target).nodes = g.nodes ∧ (g.enable n target).index = g.index := by
  have hfilter : ∀ m, ((edges ++ [(n, target)]).filter fun edge => edge.1 = m).map Prod.snd =
      (edges.filter fun edge => edge.1 = m).map Prod.snd ++ if m = n then [target] else [] := by
    intro m
    rw [List.filter_append, List.map_append]
    by_cases hm : m = n
    · simp [hm]
    · simp [hm, Ne.symm hm]
  unfold ProductivityGraph.enable
  cases hlookup : g.index.lookup n with
  | none =>
      dsimp only
      refine ⟨{ h with producer := fun {m i} hi hm => ?_ }, rfl, rfl⟩
      have hne : m ≠ n := by
        rintro rfl
        cases hlookup.symm.trans (h.index_iff.2 hi)
      rw [hfilter, if_neg hne, List.append_nil, h.producer hi hm]
  | some i =>
      dsimp only
      have hi := h.index_iff.1 hlookup
      have hlt : i < g.states.size := by
        rw [h.paired]
        exact (Array.getElem?_eq_some_iff.1 hi).1
      have hstate := fun {j} => ProductivityGraph.stateAt_enableAt (g := g) (j := j) target hlt
      have hsame : ∀ {j m}, g.nodes[j]? = some m → (j = i ↔ m = n) := by
        intro j m hj
        constructor
        · rintro rfl
          exact Option.some.inj (hj.symm.trans hi)
        · rintro rfl
          exact Option.some.inj ((h.index_iff.2 hj).symm.trans hlookup)
      refine ⟨⟨Array.size_modify.trans h.paired, h.index_iff, fun {m j} hj => ?_,
        fun {d p j} hj => ?_, fun {m j} hj hm => ?_⟩, rfl, rfl⟩
      · rw [← h.needs hj, ProductivityGraph.needs, hstate]
        split <;> rfl
      · obtain ⟨k, hk, henables⟩ := h.argument hj
        refine ⟨k, hk, ?_⟩
        rw [← henables, ProductivityGraph.enables, hstate, if_neg, ProductivityGraph.enables]
        exact fun heq => hn d p ((hsame hj).1 heq).symm
      · rw [hfilter, ← h.producer hj hm, ProductivityGraph.enables, hstate]
        by_cases hj' : j = i
        · rw [if_pos hj', if_pos ((hsame hj).1 hj')]
        · rw [if_neg hj', if_neg fun heq => hj' ((hsame hj).2 heq), List.append_nil]
          rfl

theorem Wired.foldl_enable (h : t.Wired edges g) (producers : List ProductivityNode)
    (hproducers : ∀ n ∈ producers, ∀ d p, n ≠ .argument d p) (target : Nat) :
    t.Wired (edges ++ producers.map (·, target)) (producers.foldl (·.enable · target) g) ∧
      (producers.foldl (·.enable · target) g).nodes = g.nodes ∧
      (producers.foldl (·.enable · target) g).index = g.index := by
  induction producers generalizing edges g with
  | nil => exact ⟨by rwa [List.map_nil, List.append_nil], rfl, rfl⟩
  | cons n rest ih =>
      obtain ⟨hwired, hnodes, hindex⟩ := h.enable (hproducers n List.mem_cons_self) target
      obtain ⟨hwired, hnodes', hindex'⟩ :=
        ih hwired fun m hm => hproducers m (List.mem_cons_of_mem n hm)
      rw [List.append_assoc] at hwired
      exact ⟨hwired, hnodes'.trans hnodes, hindex'.trans hindex⟩

theorem producers_ne_argument : ∀ n ∈ t.producers v, ∀ d p, n ≠ .argument d p := by
  rintro n hn d p rfl
  rcases List.mem_append.1 hn with hn | hn
  · split at hn
    · cases List.mem_singleton.1 hn
    · exact absurd hn List.not_mem_nil
  · obtain ⟨c, -, hc⟩ := List.mem_map.1 hn
    split at hc <;> cases hc

/-- What a position is enabled by. -/
def edgesAt (t : Table) (index : List (ProductivityNode × Nat)) (d : SymbolId)
    (entry : AcceptedValues × Nat) : List (ProductivityNode × Nat) :=
  match index.lookup (.argument d entry.2) with
  | none => []
  | some argument => (t.producers entry.1).map (·, argument)

/-- What the positions of a constructor or map are enabled by. -/
def edgesFor (t : Table) (index : List (ProductivityNode × Nat)) (d : SymbolId) :
    List (ProductivityNode × Nat) :=
  match (t.symbolAt d).canonical with
  | none => []
  | some form => form.positions.zipIdx.flatMap (t.edgesAt index d)

theorem Wired.foldl_positions (h : t.Wired edges g) (entries : List (AcceptedValues × Nat)) :
    let g' := entries.foldl (fun g (values, position) =>
      match g.index.lookup (.argument d position) with
      | none => g
      | some argument => (t.producers values).foldl (·.enable · argument) g) g
    t.Wired (edges ++ entries.flatMap (t.edgesAt g.index d)) g' ∧ g'.nodes = g.nodes ∧
      g'.index = g.index := by
  induction entries generalizing edges g with
  | nil => exact ⟨by rwa [List.flatMap_nil, List.append_nil], rfl, rfl⟩
  | cons entry rest ih =>
      obtain ⟨values, position⟩ := entry
      rw [List.flatMap_cons, ← List.append_assoc]
      dsimp only [List.foldl_cons]
      rw [edgesAt]
      cases hlookup : g.index.lookup (.argument d position) with
      | none =>
          rw [List.append_nil]
          exact ih h
      | some argument =>
          obtain ⟨hwired, hnodes, hindex⟩ :=
            h.foldl_enable (t.producers values) producers_ne_argument argument
          have hrest := ih hwired
          rw [hnodes, hindex] at hrest
          exact hrest

theorem Wired.foldl_enableArguments (h : t.Wired edges g) (l : List SymbolId) :
    t.Wired (edges ++ l.flatMap (t.edgesFor g.index)) (l.foldl t.enableArguments g) ∧
      (l.foldl t.enableArguments g).nodes = g.nodes ∧
      (l.foldl t.enableArguments g).index = g.index := by
  induction l generalizing edges g with
  | nil => exact ⟨by rwa [List.flatMap_nil, List.append_nil], rfl, rfl⟩
  | cons d rest ih =>
      have hstep : t.Wired (edges ++ t.edgesFor g.index d) (t.enableArguments g d) ∧
          (t.enableArguments g d).nodes = g.nodes ∧ (t.enableArguments g d).index = g.index := by
        rw [enableArguments, edgesFor]
        cases (t.symbolAt d).canonical with
        | none => exact ⟨by rwa [List.append_nil], rfl, rfl⟩
        | some form => exact h.foldl_positions form.positions.zipIdx
      obtain ⟨hwired, hnodes, hindex⟩ := hstep
      have hrest := ih hwired
      rw [hnodes, hindex] at hrest
      rw [List.flatMap_cons, ← List.append_assoc]
      exact hrest

/-! ## The graph -/

/-- The graph has the nodes of the module's own data, and is wired as the forms say. -/
structure WiredUp (t : Table) (g : ProductivityGraph) : Prop where
  nodes_eq : g.nodes.toList = .root :: t.ownData.flatMap t.nodesFor
  wired : t.Wired (t.ownData.flatMap (t.edgesFor g.index)) g

theorem Arena.wiredUp (h : t.Arena) : t.WiredUp t.productivityGraph := by
  have hroot : t.Wired [] (ProductivityGraph.add {} .root 0).2 := by
    have hempty : t.Wired [] {} :=
      ⟨rfl, fun {n i} => by simp, fun hi => by simp at hi, fun hi => by simp at hi,
        fun hi => by simp at hi⟩
    exact hempty.grow (n := .root) List.not_mem_nil rfl
      (fun _ _ heq => by cases heq) fun _ => rfl
  have hnodup : (.root :: t.ownData.flatMap t.nodesFor).Nodup := by
    refine List.nodup_cons.2 ⟨fun hmem => ?_, List.nodup_flatMap.2 ⟨fun d _ => ?_, ?_⟩⟩
    · obtain ⟨d, -, hd⟩ := List.mem_flatMap.1 hmem
      simp [nodesFor] at hd
    · refine List.nodup_cons.2 ⟨by simp, List.nodup_range.map fun p q heq => ?_⟩
      exact (ProductivityNode.argument.inj heq).2
    · refine h.nodup_ownData.imp fun hne n hn hn' => ?_
      simp only [nodesFor, List.mem_cons, List.mem_map] at hn hn'
      rcases hn with rfl | ⟨p, -, rfl⟩
      · rcases hn' with heq | ⟨p, -, heq⟩
        · exact hne (ProductivityNode.function.inj heq)
        · cases heq
      · rcases hn' with heq | ⟨q, -, heq⟩
        · cases heq
        · exact hne (ProductivityNode.argument.inj heq).1.symm
  obtain ⟨hadded, hnodes⟩ := hroot.foldl_addFunction t.ownData hnodup
  obtain ⟨hwired, hnodes', hindex⟩ := hadded.foldl_enableArguments t.ownData
  refine ⟨by rw [productivityGraph, hnodes', hnodes]; rfl, ?_⟩
  rw [List.nil_append, ← hindex] at hwired
  exact hwired

namespace WiredUp

variable (h : t.WiredUp g)
include h

theorem exists_place_iff : (∃ i : Nat, g.nodes[i]? = some n) ↔
    n ∈ .root :: t.ownData.flatMap t.nodesFor := by
  rw [← h.nodes_eq, Array.mem_toList_iff, Array.mem_iff_getElem?]

theorem exists_place_function : (∃ i : Nat, g.nodes[i]? = some (ProductivityNode.function d)) ↔
    d ∈ t.ownData := by
  rw [h.exists_place_iff]
  simp [nodesFor]

theorem exists_place_argument : (∃ i : Nat, g.nodes[i]? = some (.argument d p)) ↔
    d ∈ t.ownData ∧ p < (t.symbolAt d).arity := by
  rw [h.exists_place_iff]
  simp [nodesFor]

/-- What is enabled by a node other than a position is a position, and one that the node produces
for. -/
theorem mem_enables_iff (hj : g.nodes[j]? = some n) (hn : ∀ d p, n ≠ .argument d p) :
    i ∈ g.enables j ↔ ∃ d p v, g.nodes[i]? = some (.argument d p) ∧
      (t.symbolAt d).accepted? p = some v ∧ n ∈ t.producers v := by
  rw [h.wired.producer hj hn, List.mem_map]
  constructor
  · rintro ⟨⟨m, a⟩, hedge, rfl⟩
    obtain ⟨hmem, hm⟩ := List.mem_filter.1 hedge
    obtain rfl : m = n := of_decide_eq_true hm
    obtain ⟨d, -, hd⟩ := List.mem_flatMap.1 hmem
    rw [edgesFor] at hd
    split at hd
    · exact absurd hd List.not_mem_nil
    · next form hform =>
        obtain ⟨⟨v, p⟩, hentry, hat⟩ := List.mem_flatMap.1 hd
        rw [edgesAt] at hat
        split at hat
        · exact absurd hat List.not_mem_nil
        · next argument hlookup =>
            obtain ⟨m', hproducer, heq⟩ := List.mem_map.1 hat
            cases heq
            refine ⟨d, p, v, h.wired.index_iff.1 hlookup, ?_, hproducer⟩
            rw [Symbol.accepted?, hform]
            exact List.mk_mem_zipIdx_iff_getElem?.1 hentry
  · rintro ⟨d, p, v, hi, hv, hproducer⟩
    have hown := (h.exists_place_argument.1 ⟨i, hi⟩).1
    rw [Symbol.accepted?, Option.bind_eq_some_iff] at hv
    obtain ⟨form, hform, hv⟩ := hv
    refine ⟨(n, i), List.mem_filter.2 ⟨List.mem_flatMap.2 ⟨d, hown, ?_⟩, decide_eq_true rfl⟩, rfl⟩
    rw [edgesFor, hform]
    refine List.mem_flatMap.2 ⟨(v, p), List.mk_mem_zipIdx_iff_getElem?.2 hv, ?_⟩
    rw [edgesAt, h.wired.index_iff.2 hi]
    exact List.mem_map.2 ⟨n, hproducer, rfl⟩

/-! ## Counting -/

/-- A constructor or map is enabled by its positions only, and by each of them once. -/
theorem count_enables (hi : g.nodes[i]? = some (.function d)) (hj : j < g.nodes.size) :
    (g.enables j).count i = if g.argues d j then 1 else 0 := by
  have hthere : g.nodes[j]? = some g.nodes[j] := Array.getElem?_eq_getElem hj
  by_cases hargument : ∃ d' p, g.nodes[j] = .argument d' p
  · obtain ⟨d', p, hargument⟩ := hargument
    rw [hargument] at hthere
    obtain ⟨k, hk, henables⟩ := h.wired.argument hthere
    rw [henables, List.count_singleton]
    refine if_congr ?_ rfl rfl
    rw [beq_iff_eq, ProductivityGraph.argues_iff]
    constructor
    · rintro rfl
      cases hk.symm.trans hi
      exact ⟨p, hthere⟩
    · rintro ⟨q, hq⟩
      cases hthere.symm.trans hq
      exact Option.some.inj ((h.wired.index_iff.2 hk).symm.trans (h.wired.index_iff.2 hi))
  · rw [if_neg, List.count_eq_zero]
    · intro hmem
      have hproducer : ∀ d' p, g.nodes[j] ≠ .argument d' p := fun d' p heq =>
        hargument ⟨d', p, heq⟩
      obtain ⟨d', p, -, hplace, -⟩ := (h.mem_enables_iff hthere hproducer).1 hmem
      cases hi.symm.trans hplace
    · rw [ProductivityGraph.argues_iff]
      rintro ⟨p, hp⟩
      exact hargument ⟨d, p, Option.some.inj (hthere.symm.trans hp)⟩

theorem toldBy_function {known : List Nat} (hi : g.nodes[i]? = some (.function d))
    (hknown : ∀ j ∈ known, j < g.nodes.size) :
    g.toldBy known i = (known.filter (g.argues d)).length := by
  induction known with
  | nil => rfl
  | cons j rest ih =>
      rw [ProductivityGraph.toldBy_cons, ih fun k hk => hknown k (List.mem_cons_of_mem j hk),
        h.count_enables hi (hknown j List.mem_cons_self), List.filter_cons]
      split <;> rfl

/-- The counter of a constructor or map is at zero just if all its positions have told. -/
theorem needs_le_toldBy_iff {known : List Nat} (hnodup : known.Nodup)
    (hi : g.nodes[i]? = some (.function d)) (hknown : ∀ j ∈ known, j < g.nodes.size) :
    g.needs i ≤ g.toldBy known i ↔
      ∀ p < (t.symbolAt d).arity, ∃ j ∈ known, g.nodes[j]? = some (.argument d p) := by
  have hown := h.exists_place_function.1 ⟨i, hi⟩
  have hplace : ∀ p, ∃ j : Nat, p < (t.symbolAt d).arity →
      g.nodes[j]? = some (ProductivityNode.argument d p) := by
    intro p
    by_cases hp : p < (t.symbolAt d).arity
    · obtain ⟨j, hj⟩ := h.exists_place_argument.2 ⟨hown, hp⟩
      exact ⟨j, fun _ => hj⟩
    · exact ⟨0, fun hlt => absurd hlt hp⟩
  choose place hplace using hplace
  -- the places of the positions, as many as there are positions
  let places := (List.range (t.symbolAt d).arity).map place
  have hplaces : places.Nodup := by
    refine List.Nodup.map_on (fun p hp q hq heq => ?_) List.nodup_range
    have hsame := hplace p (List.mem_range.1 hp)
    rw [heq, hplace q (List.mem_range.1 hq)] at hsame
    exact (ProductivityNode.argument.inj (Option.some.inj hsame)).2.symm
  have hfilter : known.filter (g.argues d) ⊆ places := by
    intro j hj
    obtain ⟨p, hp⟩ := ProductivityGraph.argues_iff.1 (List.mem_filter.1 hj).2
    have hlt := (h.exists_place_argument.1 ⟨j, hp⟩).2
    refine List.mem_map.2 ⟨p, List.mem_range.2 hlt, ?_⟩
    exact Option.some.inj ((h.wired.index_iff.2 (hplace p hlt)).symm.trans (h.wired.index_iff.2 hp))
  rw [h.toldBy_function hi hknown, h.wired.needs hi, needOf]
  constructor
  · intro hle p hp
    have hperm := (List.Nodup.subperm (hnodup.filter _) hfilter).perm_of_length_le (by
      rw [List.length_map, List.length_range]
      exact hle)
    have hmem := hperm.mem_iff.2 (List.mem_map.2 ⟨p, List.mem_range.2 hp, rfl⟩)
    exact ⟨place p, (List.mem_filter.1 hmem).1, hplace p hp⟩
  · intro hall
    have hsubset : places ⊆ known.filter (g.argues d) := by
      intro j hj
      obtain ⟨p, hp, rfl⟩ := List.mem_map.1 hj
      obtain ⟨j, hj, hargument⟩ := hall p (List.mem_range.1 hp)
      have heq := Option.some.inj ((h.wired.index_iff.2 hargument).symm.trans
        (h.wired.index_iff.2 (hplace p (List.mem_range.1 hp))))
      exact List.mem_filter.2 ⟨heq ▸ hj, ProductivityGraph.argues_iff.2 ⟨p, heq ▸ hargument⟩⟩
    have hle := (List.Nodup.subperm hplaces hsubset).length_le
    rwa [List.length_map, List.length_range] at hle

/-- A position is told of a producer just if one of those that have told produces for it. -/
theorem one_le_toldBy_iff {known : List Nat} (hi : g.nodes[i]? = some (.argument d p))
    (hknown : ∀ j ∈ known, j < g.nodes.size) : 1 ≤ g.toldBy known i ↔
      ∃ v, (t.symbolAt d).accepted? p = some v ∧
        ∃ j ∈ known, ∃ n ∈ t.producers v, g.nodes[j]? = some n := by
  rw [ProductivityGraph.toldBy, Nat.one_le_iff_ne_zero, ← Nat.pos_iff_ne_zero, List.count_pos_iff,
    List.mem_flatMap]
  constructor
  · rintro ⟨j, hj, henables⟩
    have hlt := hknown j hj
    have hthere : g.nodes[j]? = some g.nodes[j] := Array.getElem?_eq_getElem hlt
    by_cases hargument : ∃ d' p', g.nodes[j] = .argument d' p'
    · obtain ⟨d', p', hargument⟩ := hargument
      rw [hargument] at hthere
      obtain ⟨k, hk, hone⟩ := h.wired.argument hthere
      rw [hone, List.mem_singleton] at henables
      cases (henables ▸ hk).symm.trans hi
    · obtain ⟨d', p', v, hplace, hv, hproducer⟩ :=
        (h.mem_enables_iff hthere fun d' p' heq => hargument ⟨d', p', heq⟩).1 henables
      cases hplace.symm.trans hi
      exact ⟨v, hv, j, hj, _, hproducer, hthere⟩
  · rintro ⟨v, hv, j, hj, n, hproducer, hn⟩
    exact ⟨j, hj, (h.mem_enables_iff hn (producers_ne_argument n hproducer)).2
      ⟨d, p, v, hi, hv, hproducer⟩⟩

end WiredUp

/-! ## What is found -/

theorem canFill_eq_true_iff : t.canFill known v = true ↔
    .root ∈ t.producers v ∨ ∃ c ∈ known, .function c ∈ t.producers v := by
  have hproducer : ∀ c, c ∈ v.sorts.toList.filterMap t.dataOf? →
      (if (t.symbolAt c).isImported then ProductivityNode.root else .function c) ∈ t.producers v :=
    fun c hc => List.mem_append_right _ (List.mem_map.2 ⟨c, hc, rfl⟩)
  rw [canFill, Bool.or_eq_true, List.any_eq_true]
  constructor
  · rintro (hground | ⟨c, hc, hany⟩)
    · exact .inl (List.mem_append_left _ (by rw [if_pos hground]; exact List.mem_cons_self))
    · have hmem := hproducer c hc
      split at hmem
      · exact .inl hmem
      · next himported =>
          rw [Bool.or_eq_true, List.contains_iff_mem] at hany
          exact .inr ⟨c, hany.resolve_left himported, hmem⟩
  · rintro (hroot | ⟨c, hc, hfunction⟩)
    · rcases List.mem_append.1 hroot with hroot | hroot
      · split at hroot
        · next hground => exact .inl hground
        · exact absurd hroot List.not_mem_nil
      · obtain ⟨c, hc, heq⟩ := List.mem_map.1 hroot
        split at heq
        · next himported => exact .inr ⟨c, hc, by rw [himported, Bool.true_or]⟩
        · cases heq
    · rcases List.mem_append.1 hfunction with hfunction | hfunction
      · split at hfunction
        · cases List.mem_singleton.1 hfunction
        · exact absurd hfunction List.not_mem_nil
      · obtain ⟨c', hc', heq⟩ := List.mem_map.1 hfunction
        split at heq
        · cases heq
        · cases heq
          exact .inr ⟨c, hc', by rw [List.contains_iff_mem.2 hc, Bool.or_true]⟩

/-- The nodes taken are those of productive data and of the positions that productive data fills. -/
theorem Arena.mem_solution_iff (h : t.Arena) :
    .function d ∈ t.productivityGraph.solution ↔ d ∈ t.productiveData := by
  have hwired := h.wiredUp
  generalize t.productivityGraph = g at hwired ⊢
  obtain ⟨taken, hsolved, -⟩ := g.exists_solved hwired.wired.paired
  have hplaced : ∀ {i}, i ∈ taken → i < g.nodes.size := fun {i} hi => ((hsolved.mem_iff i).1 hi).1
  have hnode : ∀ {i}, i < g.nodes.size → g.nodes[i]? = some (g.nodeAt i) := fun {i} hi => by
    rw [ProductivityGraph.nodeAt, Array.getD_eq_getD_getElem?, Array.getElem?_eq_getElem hi]
    rfl
  -- what stands for a node to be productive
  let Productive : ProductivityNode → Prop
    | .root => True
    | .function d => d ∈ t.productiveData
    | .argument d p => t.canFillPosition t.productiveData d p = true
  have hsound : ∀ i ∈ taken, Productive (g.nodeAt i) ∧ i < g.nodes.size := by
    refine hsolved.induction fun i known hi hnodup hknown hneeds => ⟨?_, hi⟩
    have hthere := hnode hi
    cases hcase : g.nodeAt i with
    | root => exact trivial
    | function d =>
        rw [hcase] at hthere
        have hall := (hwired.needs_le_toldBy_iff hnodup hthere fun j hj => (hknown j hj).2).1 hneeds
        refine mem_productiveData.2 ⟨hwired.exists_place_function.1 ⟨i, hthere⟩, ?_⟩
        refine List.all_eq_true.2 fun p hp => ?_
        obtain ⟨j, hj, hargument⟩ := hall p (List.mem_range.1 hp)
        have hfill := (hknown j hj).1
        rwa [Option.some.inj ((hnode (hknown j hj).2).symm.trans hargument)] at hfill
    | argument d p =>
        rw [hcase] at hthere
        rw [hwired.wired.needs hthere, needOf] at hneeds
        obtain ⟨v, hv, j, hj, n, hproducer, hn⟩ :=
          (hwired.one_le_toldBy_iff hthere fun j hj => (hknown j hj).2).1 hneeds
        have hproductive := (hknown j hj).1
        rw [Option.some.inj ((hnode (hknown j hj).2).symm.trans hn)] at hproductive
        refine canFillPosition_eq_true.2 ⟨v, hv, canFill_eq_true_iff.2 ?_⟩
        cases n with
        | root => exact .inl hproducer
        | function c => exact .inr ⟨c, hproductive, hproducer⟩
        | argument d' p' => exact absurd rfl (producers_ne_argument _ hproducer d' p')
  constructor
  · intro hmem
    obtain ⟨i, hi, heq⟩ := (hsolved.productive_iff _).1 hmem
    have hproductive := (hsound i hi).1
    rwa [heq] at hproductive
  · -- by induction over the productive data, whose positions have been told
    have htaken : ∀ {i n}, g.nodes[i]? = some n → g.needs i ≤ g.toldBy taken i → i ∈ taken :=
      fun {i n} hi hle => (hsolved.mem_iff i).2 ⟨(Array.getElem?_eq_some_iff.1 hi).1, hle⟩
    obtain ⟨r, hr⟩ := hwired.exists_place_iff.2 (List.mem_cons_self (a := ProductivityNode.root))
    have hroot : r ∈ taken := htaken hr (by rw [hwired.wired.needs hr]; exact Nat.zero_le _)
    have hcomplete : ∀ d ∈ t.productiveData, ∃ i ∈ taken, g.nodes[i]? = some (.function d) := by
      refine productive_induction fun d known hown hbuild hknown => ?_
      obtain ⟨i, hi⟩ := hwired.exists_place_function.2 hown
      refine ⟨i, htaken hi ((hwired.needs_le_toldBy_iff hsolved.nodup hi
        fun j hj => hplaced hj).2 fun p hp => ?_), hi⟩
      obtain ⟨j, hj⟩ := hwired.exists_place_argument.2 ⟨hown, hp⟩
      obtain ⟨v, hv, hfill⟩ := canBuild_eq_true.1 hbuild p hp
      refine ⟨j, htaken hj ?_, hj⟩
      rw [hwired.wired.needs hj, needOf]
      refine (hwired.one_le_toldBy_iff hj fun j hj => hplaced hj).2 ⟨v, hv, ?_⟩
      rcases canFill_eq_true_iff.1 hfill with hproducer | ⟨c, hc, hproducer⟩
      · exact ⟨r, hroot, _, hproducer, hr⟩
      · obtain ⟨k, hk, hc⟩ := hknown c hc
        exact ⟨k, hk, _, hproducer, hc⟩
    intro hd
    obtain ⟨i, hi, heq⟩ := hcomplete d hd
    exact (hsolved.productive_iff _).2
      ⟨i, hi, Option.some.inj ((hnode (hplaced hi)).symm.trans heq)⟩

/-- What the worklist finds is what the rounds find. -/
theorem Arena.solvedData_eq (h : t.Arena) : t.solvedData = t.productiveData := by
  have hfilter : t.ownData.filter (t.canBuild t.productiveData) = t.productiveData :=
    filter_productiveData t
  rw [← hfilter, solvedData]
  refine List.filter_congr fun d hd => Bool.eq_iff_iff.2 ?_
  rw [List.contains_iff_mem, h.mem_solution_iff, mem_productiveData]
  exact and_iff_right hd

theorem Arena.unsolvedData_eq (h : t.Arena) :
    t.unsolvedData = t.ownData.filter fun data => !t.productiveData.contains data := by
  refine List.filter_congr fun d _ => congrArg not (Bool.eq_iff_iff.2 ?_)
  rw [List.contains_iff_mem, List.contains_iff_mem, h.mem_solution_iff]

end Table

end ManySorted
