import ManySorted.Proofs.Renaming
import ManySorted.Proofs.Table.WellFormed

/-!
# What forms and sizes speak of

The forms of a table speak of its sorts and constants, and the sizes of its sorts.  Neither speaks
of unions, for these are flattened, nor of symbols that are not there.
-/

namespace ManySorted

/-- Whether the symbol is a constant. -/
def SymbolKind.isConstant : SymbolKind → Bool
  | userConstant _ | baseConstant _ => true
  | _ => false

theorem SymbolKind.isConstant_of_mergesIntoRoot {kind : SymbolKind}
    (h : kind.mergesIntoRoot = true) : kind.isConstant = true := by
  unfold SymbolKind.mergesIntoRoot at h
  split at h
  · rfl
  · cases h

namespace Table

variable {names : Interner} {t t' : Table} {id : SymbolId}

/-- Whether a handle is a sort of the table. -/
def IsSort (t : Table) (id : SymbolId) : Prop := ∃ d, (t.kindOf id).unsized = .userSort d none

/-- Whether a handle is a constant of the table. -/
def IsConstant (t : Table) (id : SymbolId) : Prop := (t.kindOf id).isConstant = true

theorem IsSort.holds (h : t.IsSort id) : t.Holds id := holds_of_sort h.choose_spec

theorem IsConstant.holds (h : t.IsConstant id) : t.Holds id := by
  refine holds_of_kindOf fun hcount => ?_
  rw [IsConstant, hcount] at h
  cases h

theorem isSort_iff_dataOf? : t.IsSort id ↔ ∃ d, t.dataOf? id = some d :=
  exists_congr fun _ => dataOf?_eq_some_iff.symm

theorem isConstant_unsized (kind : SymbolKind) : kind.unsized.isConstant = kind.isConstant := by
  cases kind <;> rfl

theorem Later.isSort (h : t.Later t') (hid : t.IsSort id) : t'.IsSort id := by
  obtain ⟨d, hd⟩ := hid
  exact ⟨d, (h.unsized_kindOf (holds_of_sort hd)).trans hd⟩

theorem Later.isConstant (h : t.Later t') (hid : t.IsConstant id) : t'.IsConstant id := by
  rw [IsConstant, ← isConstant_unsized, h.unsized_kindOf hid.holds, isConstant_unsized]
  exact hid

end Table

/-- The values are sorts and constants of the table, or no symbols at all, and no range is empty. -/
structure AcceptedValues.Closed (t : Table) (v : AcceptedValues) : Prop where
  sorts : ∀ {s}, s ∈ v.sorts → t.IsSort s
  constants : ∀ {c}, .symbol c ∈ v.constants → t.IsConstant c
  ranges : ∀ {r}, r ∈ v.ranges → r.low ≤ r.high

/-- Every position of the form is closed. -/
def CanonicalForm.Closed (t : Table) (form : CanonicalForm) : Prop :=
  ∀ v ∈ form.positions, v.Closed t

/-- The size is simplified and depends on sorts of the table. -/
structure SizeExpr.Closed (t : Table) (e : SizeExpr) : Prop where
  stable : e.Stable
  cards : ∀ {s}, s ∈ e.cards → t.IsSort s

/-- What is written to a symbol speaks of the table's own sorts and constants. -/
structure Symbol.Closed (t : Table) (s : Symbol) : Prop where
  form : ∀ {form}, s.canonical = some form → form.Closed t
  size : ∀ {e}, s.size? = some e → e.Closed t

theorem Symbol.Bare.closed {s : Symbol} (h : s.Bare) (t : Table) : s.Closed t where
  form hform := by cases hform.symm.trans h.canonical
  size he := by cases he.symm.trans h.size

/-- Every symbol that the form or size of a symbol speaks of. -/
def Symbol.Mentions (s : Symbol) (id : SymbolId) : Prop :=
  (∃ form, s.canonical = some form ∧ id ∈ form.refs) ∨ ∃ e, s.size? = some e ∧ id ∈ e.cards

theorem Symbol.Closed.mentions {t : Table} {s : Symbol} {id : SymbolId} (h : s.Closed t)
    (hid : s.Mentions id) : t.IsSort id ∨ t.IsConstant id := by
  rcases hid with ⟨form, hform, hid⟩ | ⟨e, he, hid⟩
  · obtain ⟨v, hv, hid⟩ := CanonicalForm.mem_refs.1 hid
    rcases AcceptedValues.mem_refs.1 hid with hid | hid
    · exact .inr ((h.form hform v hv).constants hid)
    · exact .inl ((h.form hform v hv).sorts hid)
  · exact .inl ((h.size he).cards hid)

/-! ## Values that are put together -/

/-- Joining ranges makes no empty ones. -/
theorem IntRange.low_le_high_of_mem_insert {r q : IntRange} {ranges : List IntRange}
    (hr : r.low ≤ r.high) (hranges : ∀ q ∈ ranges, q.low ≤ q.high) (hq : q ∈ insert r ranges) :
    q.low ≤ q.high := by
  induction ranges generalizing r with
  | nil =>
      obtain rfl := List.mem_singleton.1 hq
      exact hr
  | cons s rest ih =>
      have hs := hranges s List.mem_cons_self
      have hrest : ∀ q ∈ rest, q.low ≤ q.high := fun q hq => hranges q (List.mem_cons_of_mem _ hq)
      unfold insert at hq
      split at hq
      · rcases List.mem_cons.1 hq with rfl | hq
        · exact hr
        · exact hranges q hq
      · split at hq
        · rcases List.mem_cons.1 hq with rfl | hq
          · exact hs
          · exact ih hr hrest hq
        · refine ih ?_ hrest hq
          change min r.low s.low ≤ max r.high s.high
          omega

namespace AcceptedValues

variable {t : Table} {v w : AcceptedValues}

theorem closed_empty (t : Table) : (∅ : AcceptedValues).Closed t where
  sorts hs := absurd hs (OrderedSet.not_mem_empty _)
  constants hc := absurd hc (OrderedSet.not_mem_empty _)
  ranges hr := absurd hr List.not_mem_nil

theorem Closed.addBase (h : v.Closed t) (base : BaseSortSet) : (v.addBase base).Closed t where
  sorts hs := h.sorts hs
  constants hc := h.constants hc
  ranges hr := h.ranges hr

theorem Closed.addRange (h : v.Closed t) (low high : Int) : (v.addRange low high).Closed t := by
  unfold AcceptedValues.addRange
  split
  · next hle =>
      exact ⟨fun hs => h.sorts hs, fun hc => h.constants hc,
        fun hr => IntRange.low_le_high_of_mem_insert hle (fun _ => h.ranges) hr⟩
  · exact h

theorem Closed.addString (h : v.Closed t) (value : Name) : (v.addString value).Closed t where
  sorts hs := h.sorts hs
  constants hc := by
    rcases OrderedSet.mem_insert.1 hc with heq | hc
    · cases heq
    · exact h.constants hc
  ranges hr := h.ranges hr

theorem Closed.addConstant (h : v.Closed t) {c : SymbolId} (hc : t.IsConstant c) :
    (v.addConstant c).Closed t where
  sorts hs := h.sorts hs
  constants hc' := by
    rcases OrderedSet.mem_insert.1 hc' with heq | hc'
    · exact ConstantValue.symbol.inj heq ▸ hc
    · exact h.constants hc'
  ranges hr := h.ranges hr

theorem Closed.addSort (h : v.Closed t) {s : SymbolId} (hs : t.IsSort s) :
    (v.addSort s).Closed t where
  sorts hs' := by
    rcases OrderedSet.mem_insert.1 hs' with rfl | hs'
    · exact hs
    · exact h.sorts hs'
  constants hc := h.constants hc
  ranges hr := h.ranges hr

theorem Closed.union (h : v.Closed t) (h' : w.Closed t) : (v.union w).Closed t where
  sorts hs := (OrderedSet.mem_union.1 hs).elim h.sorts h'.sorts
  constants hc := (OrderedSet.mem_union.1 hc).elim h.constants h'.constants
  ranges {r} hr := by
    have hjoin : ∀ (news ranges : List IntRange), (∀ q ∈ news, q.low ≤ q.high) →
        (∀ q ∈ ranges, q.low ≤ q.high) →
        ∀ q ∈ news.foldl (fun ranges r => IntRange.insert r ranges) ranges, q.low ≤ q.high := by
      intro news
      induction news with
      | nil => exact fun ranges _ hranges => hranges
      | cons r rest ih =>
          intro ranges hnews hranges
          refine ih _ (fun q hq => hnews q (List.mem_cons_of_mem _ hq)) fun q hq => ?_
          exact IntRange.low_le_high_of_mem_insert (hnews r List.mem_cons_self) hranges hq
    exact hjoin w.ranges v.ranges (fun _ => h'.ranges) (fun _ => h.ranges) r hr

end AcceptedValues

section

variable {t t' : Table}

theorem AcceptedValues.Closed.later {v : AcceptedValues} (h : v.Closed t)
    (hlater : t.Later t') : v.Closed t' where
  sorts hs := hlater.isSort (h.sorts hs)
  constants hc := hlater.isConstant (h.constants hc)
  ranges hr := h.ranges hr

theorem CanonicalForm.Closed.later {form : CanonicalForm} (h : form.Closed t)
    (hlater : t.Later t') : form.Closed t' := fun v hv => (h v hv).later hlater

theorem SizeExpr.Closed.later {e : SizeExpr} (h : e.Closed t) (hlater : t.Later t') :
    e.Closed t' where
  stable := h.stable
  cards hs := hlater.isSort (h.cards hs)

theorem Symbol.Closed.later {s : Symbol} (h : s.Closed t) (hlater : t.Later t') :
    s.Closed t' where
  form hform := (h.form hform).later hlater
  size he := (h.size he).later hlater

theorem Table.holds_of_canonical {x : SymbolId} {form : CanonicalForm}
    (h : (t.symbolAt x).canonical = some form) : t.Holds x := by
  by_cases hx : t.Holds x
  · exact hx
  · rw [symbolAt_of_not_holds hx] at h
    cases h

theorem Table.holds_of_size? {x : SymbolId} {e : SizeExpr} (h : (t.symbolAt x).size? = some e) :
    t.Holds x := by
  refine holds_of_kindOf fun hkind => ?_
  rw [Symbol.size?, show (t.symbolAt x).kind = _ from hkind] at h
  cases h

/-- What a position accepts is closed if everything that is written is. -/
theorem Table.closed_accepted (h : ∀ {x}, t.Holds x → (t.symbolAt x).Closed t) {x : SymbolId}
    {position : Nat} {v : AcceptedValues} (hv : (t.symbolAt x).accepted? position = some v) :
    v.Closed t := by
  obtain ⟨form, hform, hget⟩ := Option.bind_eq_some_iff.1 hv
  exact (h (holds_of_canonical hform)).form hform v (List.mem_of_getElem? hget)

end

end ManySorted
