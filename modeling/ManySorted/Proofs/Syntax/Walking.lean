import Mathlib.Algebra.GroupWithZero.Nat
import Mathlib.Data.List.ReduceOption
import ManySorted.Proofs.Syntax

/-!
# Walking a syntax tree

`Node.walk` goes through a tree with a stack of the nodes that are still to come.  Beside each of
them it keeps how many kinds of the chain its ancestors have matched, and it hands the nodes that
end the chain to a visitor.

The nodes of a tree are told apart by their addresses, the indices of the children that lead to
them.  In the lexicographic order of addresses a node stands before all that lies below it and after
all that lies below its elder siblings, which is the order in which the tree is written.  A node
ends a chain if the kinds above its own are found among those of its ancestors, in this order
(`Node.EndsChain`).  A chain that is matched as early as possible leaves the most room below, so no
node is lost in this way (`Node.endsChain_cons`), and the walk comes to each of them once
(`Node.walk_chainEnds`).
-/

namespace ManySorted

/-! ## Matching a chain as early as possible -/

namespace NodeKind

/-- What is left of a chain when a kind has been matched if possible. -/
def advance (kind : NodeKind) : List NodeKind → List NodeKind
  | [] => []
  | first :: rest => if kind = first then rest else first :: rest

/-- A chain is found among some kinds just if what is left of it after the first is found among the
others. -/
theorem sublist_cons_iff {kind : NodeKind} {chain kinds : List NodeKind} :
    chain.Sublist (kind :: kinds) ↔ (kind.advance chain).Sublist kinds := by
  cases chain with
  | nil => exact iff_of_true (List.nil_sublist _) (List.nil_sublist _)
  | cons first rest =>
      rw [advance]
      split
      · next heq => rw [heq, List.cons_sublist_cons]
      · next hne =>
          refine ⟨fun h => ?_, List.Sublist.cons kind⟩
          cases h with
          | cons _ h => exact h
          | cons_cons _ h => exact absurd rfl hne

end NodeKind

namespace Node

variable {node root : Node} {kinds : List NodeKind} {address : List Nat} {i : Nat}

/-- What is to be matched below a node if a chain is to be matched at it.  Its last kind is matched
by any number of nodes. -/
def remaining (kinds : List NodeKind) (node : Node) : List NodeKind :=
  match kinds with
  | first :: second :: rest => node.kind.advance (first :: second :: rest)
  | kinds => kinds

theorem remaining_concat (above : List NodeKind) (last : NodeKind) (node : Node) :
    remaining (above ++ [last]) node = node.kind.advance above ++ [last] := by
  cases above with
  | nil => rfl
  | cons first rest =>
      cases rest <;>
        · simp only [List.cons_append, List.nil_append, remaining, NodeKind.advance]
          split <;> rfl

theorem select_eq (kinds : List NodeKind) (node : Node) :
    node.select kinds = (if kinds = [node.kind] then [node] else []) ++
      node.children.flatMap (·.select (remaining kinds node)) := by
  match kinds with
  | [] => simp [remaining, select]
  | [last] =>
      rw [select_singleton]
      simp only [remaining, List.cons.injEq, and_true, eq_comm]
  | first :: second :: rest =>
      rw [select, List.flatMap_subtype (g := (·.select (remaining (first :: second :: rest) node)))
        (fun _ _ => rfl), List.unattach_attach, if_neg (by simp), List.nil_append]

/-! ## Addresses -/

/-- The node at an address below a root. -/
def descendant? : Node → List Nat → Option Node
  | node, [] => some node
  | node, i :: address => node.children[i]?.bind (·.descendant? address)

/-- The kinds of the nodes above an address, from the root on. -/
def ancestry : Node → List Nat → List NodeKind
  | _, [] => []
  | node, i :: address => node.kind :: node.children[i]?.elim [] (·.ancestry address)

/-- There is a node at the address, its kind is the last one of the chain, and the kinds before are
found among those of its ancestors. -/
def EndsChain (kinds : List NodeKind) (root : Node) (address : List Nat) : Prop :=
  ∃ node above, root.descendant? address = some node ∧ kinds = above ++ [node.kind] ∧
    above.Sublist (root.ancestry address)

theorem endsChain_nil : EndsChain kinds node [] ↔ kinds = [node.kind] := by
  constructor
  · rintro ⟨_, above, hnode, hkinds, habove⟩
    cases hnode
    rw [hkinds, List.sublist_nil.1 habove, List.nil_append]
  · exact fun hkinds => ⟨node, [], rfl, hkinds, List.Sublist.refl []⟩

/-- A node below another ends a chain just if it ends what the other leaves of it. -/
theorem endsChain_cons : EndsChain kinds node (i :: address) ↔
    ∃ child, node.children[i]? = some child ∧ EndsChain (remaining kinds node) child address := by
  unfold EndsChain
  rw [descendant?, ancestry]
  cases hchild : node.children[i]? with
  | none => simp
  | some child =>
      simp only [Option.bind_some, Option.elim_some, Option.some.injEq, exists_eq_left',
        NodeKind.sublist_cons_iff]
      constructor
      · rintro ⟨n, above, hn, rfl, habove⟩
        exact ⟨n, node.kind.advance above, hn, remaining_concat .., habove⟩
      · rintro ⟨n, below, hn, hremaining, hbelow⟩
        rcases List.eq_nil_or_concat kinds with rfl | ⟨above, last, rfl⟩
        · simp [remaining] at hremaining
        · rw [List.concat_eq_append, remaining_concat] at hremaining
          obtain ⟨rfl, hlast⟩ := List.append_inj' hremaining rfl
          exact ⟨n, above, hn, by rw [List.concat_eq_append, hlast], hbelow⟩

/-- The addresses of the nodes that end a chain, in the order in which the tree is written. -/
def chainEnds (kinds : List NodeKind) (node : Node) : List (List Nat) :=
  (if kinds = [node.kind] then [[]] else []) ++
    node.children.zipIdx.attach.flatMap fun ⟨(child, i), hmem⟩ =>
      have := height_lt_of_mem_children (List.fst_mem_of_mem_zipIdx hmem)
      (child.chainEnds (remaining kinds node)).map (i :: ·)
termination_by node.height

theorem chainEnds_eq (kinds : List NodeKind) (node : Node) :
    node.chainEnds kinds = (if kinds = [node.kind] then [[]] else []) ++
      node.children.zipIdx.flatMap fun entry =>
        (entry.1.chainEnds (remaining kinds node)).map (entry.2 :: ·) := by
  rw [chainEnds, List.flatMap_subtype (g := fun entry : Node × Nat =>
    (entry.1.chainEnds (remaining kinds node)).map (entry.2 :: ·)) (fun _ _ => rfl),
    List.unattach_attach]

theorem mem_chainEnds (kinds : List NodeKind) (root : Node) (address : List Nat) :
    address ∈ root.chainEnds kinds ↔ EndsChain kinds root address := by
  induction address generalizing kinds root with
  | nil =>
      rw [chainEnds_eq, endsChain_nil, List.mem_append, or_iff_left (by simp)]
      split <;> simp_all
  | cons i address ih =>
      have hself : i :: address ∉ if kinds = [root.kind] then [[]] else [] := by
        split <;> simp
      rw [chainEnds_eq, endsChain_cons, List.mem_append, or_iff_right hself, List.mem_flatMap]
      constructor
      · rintro ⟨⟨child, j⟩, hentry, hmem⟩
        obtain ⟨_, haddress, heq⟩ := List.mem_map.1 hmem
        cases heq
        exact ⟨child, List.mk_mem_zipIdx_iff_getElem?.1 hentry, (ih _ child).1 haddress⟩
      · rintro ⟨child, hchild, hends⟩
        exact ⟨(child, i), List.mk_mem_zipIdx_iff_getElem?.2 hchild,
          List.mem_map_of_mem ((ih _ child).2 hends)⟩

/-- The addresses come in lexicographic order. -/
theorem pairwise_chainEnds (kinds : List NodeKind) (root : Node) :
    (root.chainEnds kinds).Pairwise (· < ·) := by
  have ih : ∀ child ∈ root.children,
      (child.chainEnds (remaining kinds root)).Pairwise (· < ·) := fun child hchild =>
    have := height_lt_of_mem_children hchild
    pairwise_chainEnds _ child
  rw [chainEnds_eq, List.pairwise_append, List.pairwise_flatMap]
  refine ⟨by split <;> simp, ⟨?_, ?_⟩, ?_⟩
  · rintro ⟨child, i⟩ hentry
    refine List.pairwise_map.2 ((ih child (List.fst_mem_of_mem_zipIdx hentry)).imp fun hlt => ?_)
    exact List.cons_lt_cons_self.2 hlt
  · have hindices : root.children.zipIdx.Pairwise (fun entry later => entry.2 < later.2) := by
      rw [← List.pairwise_map (f := Prod.snd), List.zipIdx_map_snd]
      exact List.pairwise_lt_range'
    refine hindices.imp fun hlt a ha b hb => ?_
    obtain ⟨_, -, rfl⟩ := List.mem_map.1 ha
    obtain ⟨_, -, rfl⟩ := List.mem_map.1 hb
    exact List.cons_lt_cons_iff.2 (.inl hlt)
  · intro a ha b hb
    obtain ⟨_, -, hb⟩ := List.mem_flatMap.1 hb
    obtain ⟨_, -, rfl⟩ := List.mem_map.1 hb
    have ha : a = [] := by
      split at ha
      · exact List.mem_singleton.1 ha
      · exact absurd ha List.not_mem_nil
    rw [ha]
    exact List.nil_lt_cons _ _
termination_by root.height

/-- The nodes at these addresses are those that are selected. -/
theorem filterMap_chainEnds (kinds : List NodeKind) (root : Node) :
    (root.chainEnds kinds).filterMap root.descendant? = root.select kinds := by
  have ih : ∀ child ∈ root.children, (child.chainEnds (remaining kinds root)).filterMap
      child.descendant? = child.select (remaining kinds root) := fun child hchild =>
    have := height_lt_of_mem_children hchild
    filterMap_chainEnds _ child
  rw [chainEnds_eq, select_eq, List.filterMap_append, List.filterMap_flatMap]
  congr 1
  · split <;> rfl
  · calc
      root.children.zipIdx.flatMap (fun entry =>
          ((entry.1.chainEnds (remaining kinds root)).map (entry.2 :: ·)).filterMap
            root.descendant?) =
          root.children.zipIdx.flatMap fun entry => entry.1.select (remaining kinds root) := by
        refine List.flatMap_congr fun ⟨child, i⟩ hentry => ?_
        have hchild : root.children[i]? = some child := List.mk_mem_zipIdx_iff_getElem?.1 hentry
        rw [List.filterMap_map, ← ih child (List.fst_mem_of_mem_zipIdx hentry)]
        refine List.filterMap_congr fun address _ => ?_
        rw [Function.comp, descendant?, hchild, Option.bind_some]
      _ = root.children.flatMap (·.select (remaining kinds root)) := by
        conv_rhs => rw [← List.zipIdx_map_fst 0 root.children, List.flatMap_map]
termination_by root.height

/-! ## The walk -/

/-- The number of nodes at or below a node. -/
def size (node : Node) : Nat :=
  1 + (node.children.attach.map fun ⟨child, _⟩ => child.size).sum
termination_by node.height
decreasing_by exact height_lt_of_mem_children ‹_›

theorem size_eq (node : Node) : node.size = 1 + (node.children.map size).sum := by
  rw [size, List.map_subtype (g := size) (fun _ _ => rfl), List.unattach_attach]

section

universe u

variable {σ α : Type u}

/-- The number of kinds that are matched below a node.  The last kind is never left behind. -/
def nextMatched (node : Node) (matched : Fin kinds.length) : Fin kinds.length :=
  if h : node.kind = kinds[matched] ∧ matched + 1 < kinds.length then
    ⟨matched + 1, h.2⟩ else matched

/-- Goes on with the nodes on a stack, the topmost first.  A node comes with the number of kinds
that its ancestors have matched. -/
def walkFrom (visit : Node → StateM σ (Option α)) :
    List (Node × Fin kinds.length) → List α → StateM σ (List α)
  | [], found => pure found
  | (node, matched) :: stack, found => do
      let stack' := node.children.map (·, node.nextMatched matched) ++ stack
      if node.kind = kinds[matched] ∧ matched + 1 = kinds.length then
        let result ← visit node
        walkFrom visit stack' (found ++ result.toList)
      else walkFrom visit stack' found
termination_by stack => (stack.map fun entry => entry.1.size).sum
decreasing_by
  all_goals
    rw [List.map_append, List.map_map, List.sum_append, List.map_cons, List.sum_cons, size_eq]
    simp [Function.comp_def]

/-- Hands the nodes that end a chain to a visitor and gathers what it returns. -/
def walk (kinds : List NodeKind) (visit : Node → StateM σ (Option α)) (root : Node) :
    StateM σ (List α) :=
  if h : 0 < kinds.length then walkFrom visit [(root, ⟨0, h⟩)] [] else pure []

/-- The nodes that are still to be handed to the visitor. -/
def pending (stack : List (Node × Fin kinds.length)) : List Node :=
  stack.flatMap fun entry => entry.1.select (kinds.drop entry.2)

theorem drop_eq_singleton_iff (node : Node) (matched : Fin kinds.length) :
    kinds.drop matched = [node.kind] ↔
      node.kind = kinds[matched] ∧ matched + 1 = kinds.length := by
  have hle : matched + 1 ≤ kinds.length := matched.2
  rw [List.drop_eq_getElem_cons matched.2, List.cons.injEq, List.drop_eq_nil_iff, eq_comm]
  exact and_congr_right fun _ => ⟨Nat.le_antisymm hle, Nat.le_of_eq ∘ Eq.symm⟩

theorem remaining_drop (node : Node) (matched : Fin kinds.length) :
    remaining (kinds.drop matched) node = kinds.drop (node.nextMatched matched) := by
  rw [List.drop_eq_getElem_cons matched.2]
  by_cases hlast : matched + 1 < kinds.length
  · rw [List.drop_eq_getElem_cons hlast, remaining, NodeKind.advance,
      ← List.drop_eq_getElem_cons hlast, ← List.drop_eq_getElem_cons matched.2, nextMatched]
    split
    · next heq => rw [dif_pos ⟨heq, hlast⟩]
    · next hne => rw [dif_neg fun h => hne h.1]
  · rw [List.drop_eq_nil_of_le (Nat.not_lt.1 hlast), nextMatched, dif_neg fun h => hlast h.2,
      List.drop_eq_getElem_cons matched.2, List.drop_eq_nil_of_le (Nat.not_lt.1 hlast)]
    rfl

theorem pending_cons (node : Node) (matched : Fin kinds.length)
    (stack : List (Node × Fin kinds.length)) :
    pending ((node, matched) :: stack) =
      (if node.kind = kinds[matched] ∧ matched + 1 = kinds.length then [node] else []) ++
        pending (node.children.map (·, node.nextMatched matched) ++ stack) := by
  rw [pending, List.flatMap_cons, select_eq, remaining_drop, pending, List.flatMap_append,
    List.flatMap_map, List.append_assoc]
  simp only [drop_eq_singleton_iff]

variable {visit : Node → StateM σ (Option α)}

/-- The walk hands over what is pending and adds the results to those that were found before. -/
theorem walkFrom_eq (stack : List (Node × Fin kinds.length)) (found : List α) :
    walkFrom visit stack found =
      (fun results => found ++ results.reduceOption) <$> (pending stack).mapM visit := by
  fun_induction walkFrom visit stack found with
  | case1 found => simp [pending]
  | case2 node matched stack found stack' hends ih =>
      rw [pending_cons, if_pos hends, List.singleton_append, List.mapM_cons, map_bind]
      refine bind_congr fun result => ?_
      rw [ih result, map_bind, ← bind_pure_comp]
      refine bind_congr fun results => ?_
      rw [map_pure]
      cases result <;> simp [List.reduceOption_cons_of_some, List.reduceOption_cons_of_none]
  | case3 node matched stack found stack' hends ih =>
      rw [pending_cons, if_neg hends, List.nil_append, ih]

/-- For every tree, chain and visitor, the walk hands the visitor the nodes that end the chain, each
once and in the order in which the tree is written, and returns what the visitor makes of them.
These are the nodes that are selected.  There are none for an empty chain. -/
theorem walk_chainEnds (kinds : List NodeKind) (visit : Node → StateM σ (Option α)) (root : Node) :
    ∃ addresses : List (List Nat), addresses.Pairwise (· < ·) ∧
      (∀ address, address ∈ addresses ↔ EndsChain kinds root address) ∧
      walk kinds visit root =
        List.reduceOption <$> (addresses.filterMap root.descendant?).mapM visit ∧
      root.select kinds = addresses.filterMap root.descendant? ∧
      walk [] visit root = pure [] := by
  refine ⟨root.chainEnds kinds, pairwise_chainEnds kinds root, mem_chainEnds kinds root, ?_,
    (filterMap_chainEnds kinds root).symm, rfl⟩
  rw [filterMap_chainEnds, walk]
  split
  · rw [walkFrom_eq, pending, List.flatMap_singleton, List.drop_zero]
    simp only [List.nil_append]
  · next hempty =>
      rw [List.length_eq_zero_iff.1 (Nat.eq_zero_of_not_pos hempty), select]
      rfl

end

end Node

end ManySorted
