import ManySorted.Proofs.Echo.Rendering
import ManySorted.Proofs.Sizing.Recursion
import ManySorted.Proofs.Sizing.Shuffling

/-!
# Sizes among others

The sorts that one table sizes may be sized by another one as well, among others.  Their
counterparts then have the same sizes up to the order of addends (`Table.Conveys.find?_finalSizes`),
if this is so for the sorts that the first table does not size itself, and nothing leads back from
these (`Table.Conveys.apart`).  Demands of maps that are met in the first table are met in the other
one, and positions without a bound are on no new cycle (`Table.Conveys.sizingReports_eq_nil`).

## Strategy

* **The graph.**  A node leads to counterparts, or to sorts that the first table does not size
  (`Table.Conveys.cases_of_leads`).  Nothing leads back from these, so counterparts of nodes reach
  each other if and only if the nodes do (`Table.Conveys.reaches_rename_iff`).
* **Sizes.**  By induction along dependencies, a counterpart on no cycle has a size that is made of
  those of counterparts (`Table.Conveys.nodeSize_rename`), and both tables agree on what is on a
  cycle (`Table.Conveys.find?_finalSizes`).
* **Reports.**  No position without a bound is on a cycle among others if none is in the first table
  (`Table.Conveys.cycleReports_eq_nil`), and demands are held against the same sizes
  (`Table.Conveys.demandReports_eq_nil`).
-/

namespace ManySorted

/-- The node of the counterpart. -/
def SizeNode.rename (f : SymbolId → SymbolId) : SizeNode → SizeNode
  | sort s => sort (f s)
  | slot s position => slot (f s) position

/-- The sort that a node belongs to. -/
def SizeNode.owner : SizeNode → SymbolId
  | sort s | slot s _ => s

@[simp]
theorem SizeNode.owner_rename (f : SymbolId → SymbolId) (n : SizeNode) :
    (n.rename f).owner = f n.owner := by
  cases n <;> rfl

namespace Table

variable {names names' : Interner} {t t' : Table} {D : SymbolId → Prop} {f : SymbolId → SymbolId}
  {d s x : SymbolId} {n m : SizeNode} {position : Nat}

theorem Intact.isSort_of_accepted (ht : t.Intact names) {v : AcceptedValues} (hx : t.Holds x)
    (hv : (t.symbolAt x).accepted? position = some v) (hs : s ∈ v.sorts) : t.IsSort s := by
  obtain ⟨form, hform, hget⟩ := Option.bind_eq_some_iff.1 hv
  exact ((ht.closed hx).form hform v (List.mem_of_getElem? hget)).sorts hs

/-- The size that a sort turns out to have: the one that is worked out, or else the one that is
imported. -/
def outcome (t : Table) (s : SymbolId) : SizeExpr :=
  match t.finalSizes.find? (.sort s) with
  | some size => size
  | none => if (t.symbolAt s).isImported then (t.symbolAt s).size?.getD .infinity else .count 0

theorem sortSizeAt_finalSizes (any : Bool) : t.sortSizeAt t.finalSizes any s =
    if (t.outcome s).isInfinite && !any then .card s else t.outcome s := by
  cases h : t.finalSizes.find? (.sort s) <;> simp only [sortSizeAt, outcome, h]

/-- No cycle is reported just if no bounded position is on one. -/
theorem Regular.cycleReports_eq_nil_iff (ht : t.Regular names) : t.cycleReports names' n = [] ↔
    ∀ m, (m, false) ∈ t.ownGraph.outlets n → ¬ Relation.ReflTransGen t.ownGraph.Leads m n := by
  rw [cycleReports_eq_map, List.map_eq_nil_iff, recursionsFrom, List.filterMap_eq_nil_iff]
  constructor
  · intro hnone m hedge hback
    -- an edge without a bound leads from a sort to a position
    obtain ⟨hn, hm⟩ := t.proper_ownGraph.has_of_mem_outlets hedge
    cases m with
    | sort s' =>
        cases n with
        | sort s =>
            obtain ⟨d, hd, hs⟩ := (has_sort_iff ht).1 hn
            rw [outlets_sort ht hd hs] at hedge
            obtain ⟨_, -, heq⟩ := List.mem_map.1 hedge
            cases heq
        | slot s position =>
            obtain ⟨d, hd, hs, hlt⟩ := (has_slot_iff ht).1 hn
            rw [outlets_slot ht hd hs hlt] at hedge
            obtain ⟨_, -, heq⟩ := List.mem_map.1 hedge
            cases heq
    | slot s' position =>
        obtain ⟨d, -, hs, -⟩ := (has_slot_iff ht).1 hm
        exact Option.some_ne_none _
          ((recursion?_eq_some_iff.2 ⟨rfl, hback, s', rfl, hs⟩).symm.trans (hnone _ hedge))
  · intro hnone edge hedge
    refine Option.eq_none_iff_forall_ne_some.2 fun recursion hsome => ?_
    obtain ⟨hmark, hback, -⟩ := recursion?_eq_some_iff.1 hsome
    exact hnone edge.1 (hmark ▸ hedge) hback

/-- The demands of a map, as they are checked: what must be bounded is, and the numbers fit. -/
theorem misfits_eq_nil_iff {sizes : Sizes} {kind : MapKind} {isPartial : Bool} {domainArity : Nat}
    {info : DataInfo} (hkind : t.kindOf d = .data (.map kind isPartial domainArity) info) :
    t.misfits names sizes d s = [] ↔
      ((MapFlags.ofKind kind isPartial).total = true →
        ∀ i < domainArity, (sizes.slot s i).isInfinite = false) ∧
      ((MapFlags.ofKind kind isPartial).surjective = true →
        ∀ i < (t.symbolAt d).arity - domainArity,
          (sizes.slot s (domainArity + i)).isInfinite = false) ∧
      ∀ m n, (sizes.product s (List.range domainArity)).closed = some m →
        (sizes.product s ((List.range ((t.symbolAt d).arity - domainArity)).map
          (domainArity + ·))).closed = some n →
        (MapFlags.ofKind kind isPartial).misfit? m n = none := by
  have hkind' : (t.symbolAt d).kind = .data (.map kind isPartial domainArity) info := hkind
  simp only [misfits, hkind', List.append_eq_nil_iff, and_assoc]
  refine and_congr ?_ (and_congr ?_ ?_)
  · split
    · next htotal =>
        simp [htotal, List.filter_eq_nil_iff]
    · next hfree => exact iff_of_true rfl fun htotal => absurd htotal hfree
  · split
    · next hsurjective =>
        simp [hsurjective, List.filter_eq_nil_iff]
    · next hfree => exact iff_of_true rfl fun hsurjective => absurd hsurjective hfree
  · split
    · next m n hm hn =>
        rw [Option.toList_eq_nil_iff, hm, hn]
        simp
    · next hopen =>
        refine iff_of_true rfl fun m n hm hn => ?_
        exact absurd hn (hopen m n hm)

/-- A node belongs to the sort of productive data. -/
theorem Regular.exists_data_of_has (ht : t.Regular names) (hn : t.ownGraph.Has n) :
    ∃ d ∈ t.productiveData, t.dataOf? n.owner = some d := by
  cases n with
  | sort s => exact (has_sort_iff ht).1 hn
  | slot s position =>
      obtain ⟨d, hd, hs, -⟩ := (has_slot_iff ht).1 hn
      exact ⟨d, hd, hs⟩

/-- A table is rendered in another one, where its sorts have the same sizes: those that it does not
size itself have them, and do not lead back to those that it does. -/
structure Conveys (names names' : Interner) (t t' : Table) (D : SymbolId → Prop)
    (f : SymbolId → SymbolId) : Prop extends t.Renders t' D f where
  intact : t.Intact names
  intact' : t'.Intact names'
  covers : ∀ {s}, t.IsSort s → D s
  productive : ∀ {d}, D d → d ∈ t.productiveData → f d ∈ t'.productiveData
  known : ∀ {s}, t.IsSort s → ¬ t.ownGraph.Has (.sort s) →
    SizeExpr.Shuffled ((t.outcome s).rename f) (t'.outcome (f s))
  apart : ∀ {s n}, t.IsSort s → ¬ t.ownGraph.Has (.sort s) → t.ownGraph.Has n →
    ¬ Relation.ReflTransGen t'.ownGraph.Leads (.sort (f s)) (n.rename f)

namespace Conveys

variable (h : Conveys names names' t t' D f)
include h

/-! ## The graph of sizes -/

theorem inside_of_dataOf? (hs : t.dataOf? s = some d) : D s ∧ D d := by
  have hinside := h.covers (isSort_iff_dataOf?.2 ⟨d, hs⟩)
  exact ⟨hinside, h.data hinside hs⟩

theorem dataOf?_rename (hs : t.dataOf? s = some d) : t'.dataOf? (f s) = some (f d) := by
  rw [h.dataOf? (h.inside_of_dataOf? hs).1, hs]
  rfl

theorem isSort_rename (hs : t.IsSort s) : t'.IsSort (f s) := by
  obtain ⟨d, hd⟩ := isSort_iff_dataOf?.1 hs
  exact isSort_iff_dataOf?.2 ⟨f d, h.dataOf?_rename hd⟩

theorem inside_of_has (hn : t.ownGraph.Has n) : D n.owner := by
  obtain ⟨d, -, hs⟩ := h.intact.formed.toRegular.exists_data_of_has hn
  exact (h.inside_of_dataOf? hs).1

theorem node_injective (hn : t.ownGraph.Has n) (hm : t.ownGraph.Has m)
    (heq : n.rename f = m.rename f) : n = m := by
  have howner := h.injective (h.inside_of_has hn) (h.inside_of_has hm)
  cases n with
  | sort s =>
      cases m with
      | sort s' => exact congrArg _ (howner (SizeNode.sort.inj heq))
      | slot s' position => cases heq
  | slot s position =>
      cases m with
      | sort s' => cases heq
      | slot s' position' =>
          obtain ⟨hsort, rfl⟩ := SizeNode.slot.inj heq
          exact congrArg (SizeNode.slot · position) (howner hsort)

theorem has_rename (hn : t.ownGraph.Has n) : t'.ownGraph.Has (n.rename f) := by
  cases n with
  | sort s =>
      obtain ⟨d, hd, hs⟩ := (has_sort_iff h.intact.formed.toRegular).1 hn
      exact (has_sort_iff h.intact'.formed.toRegular).2
        ⟨f d, h.productive (h.inside_of_dataOf? hs).2 hd, h.dataOf?_rename hs⟩
  | slot s position =>
      obtain ⟨d, hd, hs, hlt⟩ := (has_slot_iff h.intact.formed.toRegular).1 hn
      have hinside := (h.inside_of_dataOf? hs).2
      exact (has_slot_iff h.intact'.formed.toRegular).2
        ⟨f d, h.productive hinside hd, h.dataOf?_rename hs, by rwa [h.arity hinside]⟩

theorem isUnbounded_rename (hs : t.dataOf? s = some d) :
    (t'.kindOf (f d)).isUnbounded = (t.kindOf d).isUnbounded := by
  obtain ⟨shape, info, hkind, -⟩ := h.intact.formed.families.sort (dataOf?_eq_some_iff.1 hs)
  have hinside := (h.inside_of_dataOf? hs).2
  have hany := h.isAny hinside
  rw [h.kindOf_data hinside hkind] at hany ⊢
  rw [hkind] at hany ⊢
  funext position
  cases shape with
  | constructor => rfl
  | map => rw [SymbolKind.isUnbounded, SymbolKind.isUnbounded, hany]

/-- A sort leads to counterparts only. -/
theorem outlets_sort_rename (hn : t.ownGraph.Has (.sort s)) {edge : SizeNode × Bool} :
    edge ∈ t'.ownGraph.outlets (.sort (f s)) ↔
      ∃ m, (m, edge.2) ∈ t.ownGraph.outlets (.sort s) ∧ m.rename f = edge.1 := by
  obtain ⟨d, hd, hs⟩ := (has_sort_iff h.intact.formed.toRegular).1 hn
  have hinside := (h.inside_of_dataOf? hs).2
  rw [outlets_sort h.intact.formed.toRegular hd hs,
    outlets_sort h.intact'.formed.toRegular (h.productive hinside hd) (h.dataOf?_rename hs),
    h.arity hinside, h.isUnbounded_rename hs]
  simp only [List.mem_map]
  constructor
  · rintro ⟨position, hposition, rfl⟩
    exact ⟨.slot s position, ⟨position, hposition, rfl⟩, rfl⟩
  · rintro ⟨m, ⟨position, hposition, heq⟩, hedge⟩
    obtain ⟨rfl, hmark⟩ := Prod.mk.inj heq
    exact ⟨position, hposition, Prod.ext hedge hmark⟩

/-- A position leads to counterparts, or to sorts that the first table does not size. -/
theorem leads_slot_rename (hn : t.ownGraph.Has (.slot s position)) {m' : SizeNode}
    (hleads : t'.ownGraph.Leads (.slot (f s) position) m') :
    ∃ s', t.IsSort s' ∧ m' = .sort (f s') ∧
      (t.ownGraph.Has (.sort s') → t.ownGraph.Leads (.slot s position) (.sort s')) := by
  have hregular := h.intact.formed.toRegular
  obtain ⟨d, hd, hs, hlt⟩ := (has_slot_iff hregular).1 hn
  have hinside := (h.inside_of_dataOf? hs).2
  obtain ⟨s'', rfl, v', hv', hs'', -⟩ := (leads_slot_iff h.intact'.formed.toRegular
    (h.productive hinside hd) (h.dataOf?_rename hs) (by rwa [h.arity hinside])).1 hleads
  rw [h.accepted? hinside] at hv'
  obtain ⟨v, hv, rfl⟩ := Option.map_eq_some_iff.1 hv'
  obtain ⟨s', hs', rfl⟩ := List.mem_map.1 ((h.perm_sorts hinside hv).mem_iff.1 hs'')
  refine ⟨s', h.intact.isSort_of_accepted (h.holds hinside).1 hv hs', rfl, fun hhas => ?_⟩
  exact (leads_slot_iff hregular hd hs hlt).2 ⟨s', rfl, v, hv, hs', (has_sort_iff hregular).1 hhas⟩

/-- What the counterpart of a node leads to is a counterpart, or the sort of something that the
first table does not size. -/
theorem cases_of_leads (hn : t.ownGraph.Has n) {m' : SizeNode}
    (hleads : t'.ownGraph.Leads (n.rename f) m') :
    (∃ m, t.ownGraph.Leads n m ∧ m.rename f = m') ∨
      ∃ s, t.IsSort s ∧ ¬ t.ownGraph.Has (.sort s) ∧ m' = .sort (f s) := by
  cases n with
  | sort s =>
      obtain ⟨mark, hedge⟩ := hleads
      obtain ⟨m, hm, heq⟩ := (h.outlets_sort_rename hn).1 hedge
      exact .inl ⟨m, ⟨mark, hm⟩, heq⟩
  | slot s position =>
      obtain ⟨s', hsort, rfl, hown⟩ := h.leads_slot_rename hn hleads
      by_cases hhas : t.ownGraph.Has (.sort s')
      · exact .inl ⟨_, hown hhas, rfl⟩
      · exact .inr ⟨s', hsort, hhas, rfl⟩

/-- A counterpart leads to the counterparts of what a node leads to. -/
theorem leads_rename (hleads : t.ownGraph.Leads n m) :
    t'.ownGraph.Leads (n.rename f) (m.rename f) := by
  have hregular := h.intact.formed.toRegular
  obtain ⟨hn, hm⟩ := t.proper_ownGraph.has_of_leads hleads
  cases n with
  | sort s =>
      obtain ⟨mark, hedge⟩ := hleads
      exact ⟨mark, (h.outlets_sort_rename hn).2 ⟨m, hedge, rfl⟩⟩
  | slot s position =>
      obtain ⟨d, hd, hs, hlt⟩ := (has_slot_iff hregular).1 hn
      obtain ⟨s', rfl, v, hv, hs', -⟩ := (leads_slot_iff hregular hd hs hlt).1 hleads
      have hinside := (h.inside_of_dataOf? hs).2
      refine (leads_slot_iff h.intact'.formed.toRegular (h.productive hinside hd)
        (h.dataOf?_rename hs) (by rwa [h.arity hinside])).2 ⟨f s', rfl, v.rename f, ?_, ?_, ?_⟩
      · rw [h.accepted? hinside, hv]
        rfl
      · exact (h.perm_sorts hinside hv).mem_iff.2 (List.mem_map_of_mem hs')
      · exact (has_sort_iff h.intact'.formed.toRegular).1 (h.has_rename hm)

theorem reaches_rename (hreach : Relation.ReflTransGen t.ownGraph.Leads n m) :
    Relation.ReflTransGen t'.ownGraph.Leads (n.rename f) (m.rename f) := by
  induction hreach with
  | refl => exact .refl
  | tail _ hstep ih => exact ih.tail (h.leads_rename hstep)

/-- What is reached from a counterpart is one, or it is reached from a sort that the first table
does not size. -/
theorem cases_of_reaches (hn : t.ownGraph.Has n) {m' : SizeNode}
    (hreach : Relation.ReflTransGen t'.ownGraph.Leads (n.rename f) m') :
    (∃ m, Relation.ReflTransGen t.ownGraph.Leads n m ∧ t.ownGraph.Has m ∧ m.rename f = m') ∨
      ∃ s, t.IsSort s ∧ ¬ t.ownGraph.Has (.sort s) ∧
        Relation.ReflTransGen t'.ownGraph.Leads (.sort (f s)) m' := by
  induction hreach with
  | refl => exact .inl ⟨n, .refl, hn, rfl⟩
  | tail _ hstep ih =>
      rcases ih with ⟨m, hnm, hm, rfl⟩ | ⟨s, hsort, hhas, hreach⟩
      · rcases h.cases_of_leads hm hstep with ⟨l, hml, rfl⟩ | ⟨s, hsort, hhas, rfl⟩
        · exact .inl ⟨l, hnm.tail hml, (t.proper_ownGraph.has_of_leads hml).2, rfl⟩
        · exact .inr ⟨s, hsort, hhas, .refl⟩
      · exact .inr ⟨s, hsort, hhas, hreach.tail hstep⟩

/-- Counterparts of nodes reach each other just if the nodes do. -/
theorem reaches_rename_iff (hn : t.ownGraph.Has n) (hm : t.ownGraph.Has m) :
    Relation.ReflTransGen t'.ownGraph.Leads (n.rename f) (m.rename f) ↔
      Relation.ReflTransGen t.ownGraph.Leads n m := by
  refine ⟨fun hreach => ?_, h.reaches_rename⟩
  rcases h.cases_of_reaches hn hreach with ⟨m₁, hnm, hm₁, heq⟩ | ⟨s, hsort, hhas, hreach⟩
  · exact h.node_injective hm₁ hm heq ▸ hnm
  · exact absurd hreach (h.apart hsort hhas hm)

theorem cycles_rename (hn : t.ownGraph.Has n) :
    t'.ownGraph.Cycles (n.rename f) ↔ t.ownGraph.Cycles n := by
  rw [DepGraph.Cycles, DepGraph.Cycles, Relation.TransGen.head'_iff, Relation.TransGen.head'_iff]
  constructor
  · rintro ⟨m', hleads, hreach⟩
    rcases h.cases_of_leads hn hleads with ⟨m, hnm, rfl⟩ | ⟨s, hsort, hhas, rfl⟩
    · exact ⟨m, hnm, (h.reaches_rename_iff (t.proper_ownGraph.has_of_leads hnm).2 hn).1 hreach⟩
    · exact absurd hreach (h.apart hsort hhas hn)
  · rintro ⟨m, hnm, hmn⟩
    exact ⟨m.rename f, h.leads_rename hnm, h.reaches_rename hmn⟩

/-! ## Sizes -/

theorem isAnyAt_rename (hs : D s) (position : Nat) :
    ((t'.dataOf? (f s)).any fun d => (t'.kindOf d).isAny position) =
      (t.dataOf? s).any fun d => (t.kindOf d).isAny position := by
  rw [h.dataOf? hs]
  cases hd : t.dataOf? s with
  | none => rfl
  | some d => rw [Option.map_some, Option.any_some, Option.any_some, h.isAny (h.data hs hd)]

omit h in
/-- Sizes correspond at a position if the sorts turn out to have corresponding ones. -/
theorem sortSizeAt_rename
    (hs : SizeExpr.Shuffled ((t.outcome s).rename f) (t'.outcome (f s))) (any : Bool) :
    SizeExpr.Shuffled ((t.sortSizeAt t.finalSizes any s).rename f)
      (t'.sortSizeAt t'.finalSizes any (f s)) := by
  rw [sortSizeAt_finalSizes, sortSizeAt_finalSizes, hs.isInfinite, SizeExpr.isInfinite_rename]
  split
  · exact .refl _
  · exact hs

theorem nodeSize_rename (hn : t.ownGraph.Has n)
    (hknown : ∀ m, t.ownGraph.Leads n m → ∃ e e', t.finalSizes.find? m = some e ∧
      t'.finalSizes.find? (m.rename f) = some e' ∧ SizeExpr.Shuffled (e.rename f) e') :
    SizeExpr.Shuffled ((t.nodeSize t.finalSizes n).rename f)
      (t'.nodeSize t'.finalSizes (n.rename f)) := by
  have hregular := h.intact.formed.toRegular
  cases n with
  | sort s =>
      -- the product of the same positions
      obtain ⟨d, hd, hs⟩ := (has_sort_iff hregular).1 hn
      obtain ⟨shape, info, hkind, -⟩ := hregular.families.sort (dataOf?_eq_some_iff.1 hs)
      have hinside := (h.inside_of_dataOf? hs).2
      have hcounted : countedArity (t'.symbolAt (f d)) = countedArity (t.symbolAt d) := by
        have hkind₁ : (t.symbolAt d).kind = .data shape info := hkind
        have hkind₂ : (t'.symbolAt (f d)).kind = _ := h.kindOf_data hinside hkind
        rw [countedArity, countedArity, hkind₁, hkind₂, h.arity hinside]
        cases shape <;> rfl
      simp only [nodeSize, SizeNode.rename, sortSize, hs, h.dataOf?_rename hs, hcounted,
        Sizes.product]
      rw [SizeExpr.rename_multiply, List.map_map]
      refine SizeExpr.Shuffled.multiply (List.forall₂_map_left_iff.2
        (List.forall₂_map_right_iff.2 (List.forall₂_same.2 fun position hposition => ?_)))
      have hlt := Nat.lt_of_lt_of_le (List.mem_range.1 hposition) (h.intact.domainArity_le hkind)
      obtain ⟨e, e', he, he', hshuffled⟩ := hknown _ (leads_slot hregular hd hs hlt)
      simp only [Function.comp_apply, Sizes.slot, he]
      rw [SizeNode.rename] at he'
      rw [he']
      exact hshuffled
  | slot s position =>
      -- the sum of the ground values, which are as many, and of the same sorts in some order
      obtain ⟨d, hd, hs, hlt⟩ := (has_slot_iff hregular).1 hn
      have hinside := (h.inside_of_dataOf? hs).1
      simp only [nodeSize, SizeNode.rename, slotSize, h.accepted? hinside, h.isAnyAt_rename hinside]
      cases hv : (t.symbolAt s).accepted? position with
      | none => exact .refl _
      | some v =>
          have hground := AcceptedValues.groundCount_rename (h.accepted_normal hinside hv)
            (h.accepted_injectiveOn hinside hv)
          dsimp only [Option.map_some]
          rw [hground, SizeExpr.rename_add, List.map_cons]
          refine SizeExpr.Shuffles.add ?_
          refine .cons ?_ ?_
          · cases v.groundCount <;> exact .refl _
          · refine SizeExpr.Shuffles.trans ?_
              (.of_perm ((h.perm_sorts hinside hv).map _).symm)
            rw [List.map_map, List.map_map]
            refine .of_forall₂ (List.forall₂_map_left_iff.2 (List.forall₂_map_right_iff.2
              (List.forall₂_same.2 fun s' hs' => ?_)))
            simp only [Function.comp_apply]
            refine sortSizeAt_rename ?_ _
            -- A sort has the size that was worked out for it, or else the one that it is stored
            -- with.
            by_cases hhas : t.ownGraph.Has (.sort s')
            · obtain ⟨e, e', he, he', hshuffled⟩ := hknown _ ((leads_slot_iff hregular hd hs hlt).2
                ⟨s', rfl, v, (h.intact.accepted?_eq hs position).symm.trans hv, hs',
                  (has_sort_iff hregular).1 hhas⟩)
              rw [SizeNode.rename] at he'
              rw [outcome, outcome, he, he']
              exact hshuffled
            · exact h.known (h.intact.isSort_of_accepted (h.holds hinside).1 hv hs') hhas

/-- Counterparts have the same sizes up to the order of addends. -/
theorem find?_finalSizes (hn : t.ownGraph.Has n) : ∃ e e', t.finalSizes.find? n = some e ∧
    t'.finalSizes.find? (n.rename f) = some e' ∧ SizeExpr.Shuffled (e.rename f) e' := by
  refine t.proper_ownGraph.dependency_induction (Q := fun n => ∃ e e',
    t.finalSizes.find? n = some e ∧ t'.finalSizes.find? (n.rename f) = some e' ∧
      SizeExpr.Shuffled (e.rename f) e') (fun n hn ih => ?_) n hn
  have hfinal := h.intact.find?_finalSizes hn
  have hfinal' := h.intact'.find?_finalSizes (h.has_rename hn)
  rw [h.cycles_rename hn] at hfinal'
  by_cases hcycle : t.ownGraph.Cycles n
  · exact ⟨_, _, hfinal.1 hcycle, hfinal'.1 hcycle, .refl _⟩
  · exact ⟨_, _, hfinal.2 hcycle, hfinal'.2 hcycle, h.nodeSize_rename hn (ih hcycle)⟩

/-- Sorts turn out to have the sizes of their counterparts. -/
theorem outcome_rename (hs : t.IsSort s) :
    SizeExpr.Shuffled ((t.outcome s).rename f) (t'.outcome (f s)) := by
  by_cases hhas : t.ownGraph.Has (.sort s)
  · obtain ⟨e, e', he, he', hshuffled⟩ := h.find?_finalSizes hhas
    rw [SizeNode.rename] at he'
    rw [outcome, outcome, he, he']
    exact hshuffled
  · exact h.known hs hhas

/-! ## Reports -/

theorem slot_finalSizes (hd : d ∈ t.productiveData) (hs : t.dataOf? s = some d)
    (hlt : position < (t.symbolAt d).arity) :
    SizeExpr.Shuffled ((t.finalSizes.slot s position).rename f)
      (t'.finalSizes.slot (f s) position) := by
  have hhas := (has_slot_iff h.intact.formed.toRegular).2 ⟨d, hd, hs, hlt⟩
  obtain ⟨e, e', he, he', hshuffled⟩ := h.find?_finalSizes hhas
  rw [Sizes.slot, Sizes.slot, he, ← SizeNode.rename, he']
  exact hshuffled

/-- Positions without a bound are on no cycle among others if they are on none. -/
theorem cycleReports_eq_nil (hn : t.ownGraph.Has n) (hclean : t.cycleReports names n = []) :
    t'.cycleReports names' (n.rename f) = [] := by
  rw [h.intact.formed.toRegular.cycleReports_eq_nil_iff] at hclean
  rw [h.intact'.formed.toRegular.cycleReports_eq_nil_iff]
  intro m' hedge hback
  cases n with
  | sort s =>
      obtain ⟨m, hm, rfl⟩ := (h.outlets_sort_rename hn).1 hedge
      have hhas := (t.proper_ownGraph.has_of_mem_outlets hm).2
      exact hclean m hm ((h.reaches_rename_iff hhas hn).1 hback)
  | slot s position =>
      obtain ⟨d, hd, hs, hlt⟩ := (has_slot_iff h.intact'.formed.toRegular).1 (h.has_rename hn)
      rw [SizeNode.rename, outlets_slot h.intact'.formed.toRegular hd hs hlt] at hedge
      obtain ⟨_, -, heq⟩ := List.mem_map.1 hedge
      cases heq

/-- Demands that are met are met among others. -/
theorem demandReports_eq_nil (hn : t.ownGraph.Has (.sort s))
    (hclean : t.demandReports names t.finalSizes s = []) :
    t'.demandReports names' t'.finalSizes (f s) = [] := by
  obtain ⟨d, hd, hs⟩ := (has_sort_iff h.intact.formed.toRegular).1 hn
  obtain ⟨shape, info, hkind, -⟩ := h.intact.formed.families.sort (dataOf?_eq_some_iff.1 hs)
  have hinside := (h.inside_of_dataOf? hs).2
  have hkind' := h.kindOf_data hinside hkind
  rw [demandReports, hs, Option.toList_some, List.flatMap_singleton, totalityReports,
    List.map_eq_nil_iff] at hclean
  rw [demandReports, h.dataOf?_rename hs, Option.toList_some, List.flatMap_singleton,
    totalityReports, List.map_eq_nil_iff]
  cases shape with
  | constructor isNew =>
      rw [misfits, show (t'.symbolAt (f d)).kind = _ from hkind']
  | map kind isPartial domainArity =>
      rw [misfits_eq_nil_iff hkind] at hclean
      rw [misfits_eq_nil_iff hkind', h.arity hinside]
      have hdomain : domainArity ≤ (t.symbolAt d).arity := (h.intact.data hkind).domain
      have hslot : ∀ i < (t.symbolAt d).arity, SizeExpr.Shuffled
          ((t.finalSizes.slot s i).rename f) (t'.finalSizes.slot (f s) i) :=
        fun i hi => h.slot_finalSizes hd hs hi
      have hbounded : ∀ i < (t.symbolAt d).arity,
          (t'.finalSizes.slot (f s) i).isInfinite = (t.finalSizes.slot s i).isInfinite :=
        fun i hi => by rw [(hslot i hi).isInfinite, SizeExpr.isInfinite_rename]
      have hclosed : ∀ positions : List Nat, (∀ i ∈ positions, i < (t.symbolAt d).arity) →
          (t'.finalSizes.product (f s) positions).closed =
            (t.finalSizes.product s positions).closed := by
        intro positions hlt
        rw [Sizes.product, Sizes.product, ← SizeExpr.closed_rename f (.multiply
          (positions.map (t.finalSizes.slot s))), SizeExpr.rename_multiply, List.map_map]
        exact (SizeExpr.Shuffled.multiply (List.forall₂_map_left_iff.2
          (List.forall₂_map_right_iff.2 (List.forall₂_same.2 fun i hi =>
            hslot i (hlt i hi))))).closed.symm
      obtain ⟨htotal, hsurjective, hnumbers⟩ := hclean
      refine ⟨fun hflag i hi => ?_, fun hflag i hi => ?_, fun m n hm hn => hnumbers m n ?_ ?_⟩
      · rw [hbounded i (Nat.lt_of_lt_of_le hi hdomain)]
        exact htotal hflag i hi
      · rw [hbounded _ (by omega)]
        exact hsurjective hflag i hi
      · rw [← hclosed _ fun i hi => Nat.lt_of_lt_of_le (List.mem_range.1 hi) hdomain]
        exact hm
      · rw [← hclosed _ fun i hi => ?_]
        · exact hn
        · obtain ⟨k, hk, rfl⟩ := List.mem_map.1 hi
          have := List.mem_range.1 hk
          omega

end Conveys

end Table

end ManySorted
