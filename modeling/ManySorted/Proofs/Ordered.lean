import ManySorted.Accepted.Values

/-!
# Ascending lists as sets

What insertion makes is strictly ascending, and a strictly ascending list is determined by its
members (`OrderedSet.ext`).  So a set depends on its members alone, whatever the order in which they
were inserted and however often.

## Strategy

* **Insertion** keeps a list strictly ascending (`OrderedSet.Sorted.insert`) and adds one member
  (`OrderedSet.mem_insert`).  For a map, the new entry takes the place of the one that its key had
  (`OrderedMap.mem_insertList`).
* **Extensionality.**  Two strictly ascending lists with the same members are equal, since each
  starts with its least member.
* **Again.**  What is there already changes nothing when it comes again
  (`OrderedSet.Sorted.union_of_subset`, `OrderedMap.Sorted.union_of_subset`).
-/

namespace ManySorted

universe u

/-! ## The orders in use are lawful -/

instance : Std.TransOrd SymbolId where
  eq_swap {a b} := Std.OrientedOrd.eq_swap (α := Nat) (a := a.index) (b := b.index)
  isLE_trans {a b c} := Std.TransOrd.isLE_trans (α := Nat) (a := a.index) (b := b.index)
    (c := c.index)

instance : Std.LawfulEqOrd SymbolId where
  compare_self {a} := Std.ReflOrd.compare_self (α := Nat) (a := a.index)
  eq_of_compare {a b} h := by
    have hindex : a.index = b.index := Std.LawfulEqOrd.eq_of_compare h
    cases a
    cases b
    simpa using hindex

instance : Std.TransOrd Name where
  eq_swap {a b} := Std.OrientedOrd.eq_swap (α := Nat) (a := a.index) (b := b.index)
  isLE_trans {a b c} := Std.TransOrd.isLE_trans (α := Nat) (a := a.index) (b := b.index)
    (c := c.index)

instance : Std.LawfulEqOrd Name where
  compare_self {a} := Std.ReflOrd.compare_self (α := Nat) (a := a.index)
  eq_of_compare {a b} h := by
    have hindex : a.index = b.index := Std.LawfulEqOrd.eq_of_compare h
    cases a
    cases b
    simpa using hindex

instance : Std.TransOrd ConstantValue where
  eq_swap {a b} := by
    cases a with
    | string a =>
        cases b with
        | string b => exact Std.OrientedOrd.eq_swap (α := Name) (a := a) (b := b)
        | symbol b => rfl
    | symbol a =>
        cases b with
        | string b => rfl
        | symbol b => exact Std.OrientedOrd.eq_swap (α := SymbolId) (a := a) (b := b)
  isLE_trans {a b c} hab hbc := by
    cases a with
    | string a =>
        cases c with
        | symbol c => rfl
        | string c =>
            cases b with
            | string b => exact Std.TransOrd.isLE_trans (α := Name) hab hbc
            | symbol b => exact absurd hbc Bool.false_ne_true
    | symbol a =>
        cases b with
        | string b => exact absurd hab Bool.false_ne_true
        | symbol b =>
            cases c with
            | string c => exact absurd hbc Bool.false_ne_true
            | symbol c => exact Std.TransOrd.isLE_trans (α := SymbolId) hab hbc

instance : Std.LawfulEqOrd ConstantValue where
  compare_self {a} := by
    cases a with
    | string a => exact Std.ReflOrd.compare_self (α := Name) (a := a)
    | symbol a => exact Std.ReflOrd.compare_self (α := SymbolId) (a := a)
  eq_of_compare {a b} h := by
    cases a with
    | string a =>
        cases b with
        | string b => exact congrArg _ (Std.LawfulEqOrd.eq_of_compare (α := Name) h)
        | symbol b => cases show Ordering.lt = .eq from h
    | symbol a =>
        cases b with
        | string b => cases show Ordering.gt = .eq from h
        | symbol b => exact congrArg _ (Std.LawfulEqOrd.eq_of_compare (α := SymbolId) h)

namespace OrderedSet

variable {α : Type u}

@[simp]
theorem not_mem_empty (a : α) : a ∉ (∅ : OrderedSet α) := List.not_mem_nil

variable [Ord α]

/-! ## Insertion keeps a list strictly ascending -/

/-- The list of a set is strictly ascending. -/
def Sorted (s : OrderedSet α) : Prop := s.toList.Pairwise fun a b => compare a b = .lt

section

variable [Std.LawfulEqOrd α]

theorem mem_insertList {a b : α} {l : List α} : a ∈ insertList b l ↔ a = b ∨ a ∈ l := by
  induction l with
  | nil => simp [insertList]
  | cons head rest ih =>
      rw [insertList]
      split
      · simp
      · have heq : b = head := Std.LawfulEqOrd.eq_of_compare ‹_›
        simp [heq]
      · rw [List.mem_cons, ih, List.mem_cons, or_left_comm]

@[simp]
theorem mem_insert {a b : α} {s : OrderedSet α} : a ∈ s.insert b ↔ a = b ∨ a ∈ s :=
  mem_insertList

theorem mem_foldl_insert {a : α} {l : List α} {s : OrderedSet α} :
    a ∈ l.foldl insert s ↔ a ∈ s ∨ a ∈ l := by
  induction l generalizing s with
  | nil => simp
  | cons head rest ih =>
      rw [List.foldl_cons, ih, mem_insert, List.mem_cons, or_comm (a := a = head), or_assoc]

@[simp]
theorem mem_ofList {a : α} {l : List α} : a ∈ ofList l ↔ a ∈ l := by
  rw [ofList, mem_foldl_insert]
  simp

@[simp]
theorem mem_union {a : α} {s t : OrderedSet α} : a ∈ s.union t ↔ a ∈ s ∨ a ∈ t :=
  mem_foldl_insert

theorem Sorted.nodup {s : OrderedSet α} (hs : s.Sorted) : s.toList.Nodup :=
  List.Pairwise.imp (fun {a b} hlt heq => by subst heq; simp at hlt) hs

end

variable [Std.TransOrd α]

theorem pairwise_insertList [Std.LawfulEqOrd α] (a : α) {l : List α}
    (hl : l.Pairwise fun a b => compare a b = .lt) :
    (insertList a l).Pairwise fun a b => compare a b = .lt := by
  induction l with
  | nil => simp [insertList]
  | cons head rest ih =>
      have hcons := List.pairwise_cons.1 hl
      rw [insertList]
      split
      case h_1 hlt =>
        refine List.pairwise_cons.2 ⟨fun b hb => ?_, hl⟩
        rcases List.mem_cons.1 hb with rfl | hb
        · exact hlt
        · exact Std.TransCmp.lt_trans hlt (hcons.1 b hb)
      case h_2 => exact hl
      case h_3 hgt =>
        refine List.pairwise_cons.2 ⟨fun b hb => ?_, ih hcons.2⟩
        rcases mem_insertList.1 hb with rfl | hb
        · exact Std.OrientedCmp.lt_of_gt hgt
        · exact hcons.1 b hb

variable [Std.LawfulEqOrd α]

theorem Sorted.insert {s : OrderedSet α} (hs : s.Sorted) (a : α) : (s.insert a).Sorted :=
  pairwise_insertList a hs

theorem Sorted.foldl_insert {s : OrderedSet α} (hs : s.Sorted) (l : List α) :
    (l.foldl OrderedSet.insert s).Sorted := by
  induction l generalizing s with
  | nil => exact hs
  | cons head rest ih => exact ih (hs.insert head)

theorem sorted_ofList (l : List α) : (ofList l).Sorted :=
  Sorted.foldl_insert (s := ∅) List.Pairwise.nil l

/-! ## A set is determined by its members -/

theorem ext {s t : OrderedSet α} (hs : s.Sorted) (ht : t.Sorted) (h : ∀ a, a ∈ s ↔ a ∈ t) :
    s = t := by
  have hperm : s.toList.Perm t.toList :=
    (List.perm_ext_iff_of_nodup hs.nodup ht.nodup).2 h
  have hanti : ∀ a b : α, a ∈ s.toList → b ∈ t.toList → compare a b = .lt →
      compare b a = .lt → a = b :=
    fun a b _ _ hab hba => False.elim (Std.OrientedCmp.not_lt_of_lt hab hba)
  have heq : s.toList = t.toList := hperm.eq_of_pairwise hanti hs ht
  cases s
  cases t
  exact congrArg _ heq

/-- What is there already changes nothing when it comes again. -/
theorem Sorted.union_of_subset {s t : OrderedSet α} (hs : s.Sorted) (h : ∀ a, a ∈ t → a ∈ s) :
    s.union t = s :=
  ext (hs.foldl_insert t.toList) hs fun a => mem_union.trans (or_iff_left_of_imp (h a))

end OrderedSet

/-! ## Ascending lists as maps -/

namespace OrderedMap

universe v

variable {κ : Type u} {ν : Type v} [Ord κ]

/-- The keys are strictly ascending. -/
def Sorted (m : OrderedMap κ ν) : Prop := m.toList.Pairwise fun a b => compare a.1 b.1 = .lt

variable [Std.TransOrd κ] [Std.LawfulEqOrd κ] {k : κ} {v : ν} {entry : κ × ν}

/-- The new entry takes the place of the one that its key had. -/
theorem mem_insertList {l : List (κ × ν)} (hl : l.Pairwise fun a b => compare a.1 b.1 = .lt) :
    entry ∈ insertList k v l ↔ entry = (k, v) ∨ entry ∈ l ∧ entry.1 ≠ k := by
  have hapart : ∀ {a b : κ × ν}, compare a.1 b.1 = .lt → a.1 ≠ b.1 := by
    intro a b hlt heq
    rw [heq, Std.ReflOrd.compare_self] at hlt
    cases hlt
  induction l with
  | nil => simp [insertList]
  | cons head rest ih =>
      obtain ⟨hhead, hrest⟩ := List.pairwise_cons.1 hl
      rw [insertList]
      split
      · next hlt =>
          -- all keys that are there come after the new one
          have hne : ∀ b ∈ head :: rest, b.1 ≠ k := by
            intro b hb
            rcases List.mem_cons.1 hb with rfl | hb
            · exact fun heq => hapart (a := (k, v)) hlt heq.symm
            · exact fun heq =>
                hapart (a := (k, v)) (Std.TransCmp.lt_trans hlt (hhead b hb)) heq.symm
          rw [List.mem_cons]
          exact or_congr_right ⟨fun h => ⟨h, hne entry h⟩, fun h => h.1⟩
      · next heq =>
          obtain rfl : k = head.1 := Std.LawfulEqOrd.eq_of_compare heq
          rw [List.mem_cons, List.mem_cons]
          constructor
          · rintro (h | h)
            · exact .inl h
            · exact .inr ⟨.inr h, fun heq => hapart (hhead entry h) heq.symm⟩
          · rintro (h | ⟨rfl | h, hne⟩)
            · exact .inl h
            · exact absurd rfl hne
            · exact .inr h
      · next hgt =>
          have hne : head.1 ≠ k := hapart (b := (k, v)) (Std.OrientedCmp.lt_of_gt hgt)
          rw [List.mem_cons, List.mem_cons]
          refine (or_congr_right (ih hrest)).trans ?_
          constructor
          · rintro (rfl | h | h)
            · exact .inr ⟨.inl rfl, hne⟩
            · exact .inl h
            · exact .inr ⟨.inr h.1, h.2⟩
          · rintro (h | ⟨h | h, hk⟩)
            · exact .inr (.inl h)
            · exact .inl h
            · exact .inr (.inr ⟨h, hk⟩)

theorem Sorted.mem_insert {m : OrderedMap κ ν} (hm : m.Sorted) :
    entry ∈ (m.insert k v).toList ↔ entry = (k, v) ∨ entry ∈ m.toList ∧ entry.1 ≠ k :=
  mem_insertList hm

theorem pairwise_insertList {l : List (κ × ν)}
    (hl : l.Pairwise fun a b => compare a.1 b.1 = .lt) :
    (insertList k v l).Pairwise fun a b => compare a.1 b.1 = .lt := by
  induction l with
  | nil => exact List.pairwise_singleton _ _
  | cons head rest ih =>
      obtain ⟨hhead, hrest⟩ := List.pairwise_cons.1 hl
      rw [insertList]
      split
      · next hlt =>
          refine List.pairwise_cons.2 ⟨fun b hb => ?_, hl⟩
          rcases List.mem_cons.1 hb with rfl | hb
          · exact hlt
          · exact Std.TransCmp.lt_trans hlt (hhead b hb)
      · next heq =>
          obtain rfl : k = head.1 := Std.LawfulEqOrd.eq_of_compare heq
          exact List.pairwise_cons.2 ⟨hhead, hrest⟩
      · next hgt =>
          refine List.pairwise_cons.2 ⟨fun b hb => ?_, ih hrest⟩
          rcases (mem_insertList hrest).1 hb with rfl | hb
          · exact Std.OrientedCmp.lt_of_gt hgt
          · exact hhead b hb.1

theorem Sorted.insert {m : OrderedMap κ ν} (hm : m.Sorted) (k : κ) (v : ν) :
    (m.insert k v).Sorted :=
  pairwise_insertList hm

omit [Std.TransOrd κ] in
/-- A sorted map has one entry for each key. -/
theorem Sorted.unique {m : OrderedMap κ ν} (hm : m.Sorted) {a b : κ × ν} (ha : a ∈ m.toList)
    (hb : b ∈ m.toList) (h : a.1 = b.1) : a = b := by
  obtain ⟨i, hi, rfl⟩ := List.mem_iff_getElem.1 ha
  obtain ⟨j, hj, rfl⟩ := List.mem_iff_getElem.1 hb
  have hapart := List.pairwise_iff_getElem.1 hm
  rcases Nat.lt_trichotomy i j with hlt | rfl | hlt
  · have hkeys := hapart i j hi hj hlt
    rw [h, Std.ReflOrd.compare_self] at hkeys
    cases hkeys
  · rfl
  · have hkeys := hapart j i hj hi hlt
    rw [h, Std.ReflOrd.compare_self] at hkeys
    cases hkeys

/-- What a map says of a key is its entry. -/
theorem Sorted.find?_eq_some_iff [BEq κ] [LawfulBEq κ] {m : OrderedMap κ ν} (hm : m.Sorted) :
    m.find? k = some v ↔ (k, v) ∈ m.toList := by
  constructor
  · intro h
    obtain ⟨before, after, heq, -⟩ := List.lookup_eq_some_iff.1 h
    rw [heq]
    simp
  · intro h
    obtain ⟨w, hw⟩ := Option.isSome_iff_exists.1
      (List.lookup_isSome_iff.2 ⟨(k, v), h, beq_self_eq_true k⟩)
    obtain ⟨before, after, heq, -⟩ := List.lookup_eq_some_iff.1 hw
    have hmem : (k, w) ∈ m.toList := by
      rw [heq]
      simp
    rw [find?, hw, (Prod.mk.inj (hm.unique hmem h rfl)).2]

/-- Where two maps agree on the keys that they share, their union has the entries of both. -/
theorem Sorted.union [BEq κ] [LawfulBEq κ] {m n : OrderedMap κ ν} (hm : m.Sorted)
    (hagree : ∀ a ∈ m.toList, ∀ b ∈ n.toList, a.1 = b.1 → a = b)
    (hn : ∀ a ∈ n.toList, ∀ b ∈ n.toList, a.1 = b.1 → a = b) :
    (m.union n).Sorted ∧
      ∀ entry, entry ∈ (m.union n).toList ↔ entry ∈ m.toList ∨ entry ∈ n.toList := by
  unfold OrderedMap.union
  obtain ⟨l⟩ := n
  dsimp only at hagree hn ⊢
  induction l generalizing m with
  | nil => exact ⟨hm, fun entry => by simp⟩
  | cons head rest ih =>
      have hmem : ∀ entry, entry ∈ (m.insert head.1 head.2).toList ↔
          entry = head ∨ entry ∈ m.toList := by
        intro entry
        rw [hm.mem_insert]
        constructor
        · rintro (h | h)
          · exact .inl h
          · exact .inr h.1
        · rintro (h | h)
          · exact .inl h
          · by_cases hkey : entry.1 = head.1
            · exact .inl (hagree entry h head List.mem_cons_self hkey)
            · exact .inr ⟨h, hkey⟩
      obtain ⟨hsorted, hall⟩ := ih (hm.insert head.1 head.2)
        (fun a ha b hb heq => by
          rcases (hmem a).1 ha with rfl | ha
          · exact hn _ List.mem_cons_self b (List.mem_cons_of_mem _ hb) heq
          · exact hagree a ha b (List.mem_cons_of_mem _ hb) heq)
        fun a ha b hb => hn a (List.mem_cons_of_mem _ ha) b (List.mem_cons_of_mem _ hb)
      refine ⟨hsorted, fun entry => ?_⟩
      rw [List.foldl_cons, hall, hmem, List.mem_cons, or_comm (a := entry = head), or_assoc]

/-- An entry that is there already changes nothing when it is entered again. -/
theorem Sorted.insert_of_mem {m : OrderedMap κ ν} (hm : m.Sorted) (h : (k, v) ∈ m.toList) :
    m.insert k v = m := by
  obtain ⟨l⟩ := m
  refine congrArg OrderedMap.mk ?_
  dsimp only [Sorted] at hm h
  induction l with
  | nil => cases h
  | cons head rest ih =>
      obtain ⟨hhead, hrest⟩ := List.pairwise_cons.1 hm
      rw [insertList]
      rcases List.mem_cons.1 h with rfl | h
      · rw [Std.ReflOrd.compare_self]
      · have hgt : compare k head.1 = .gt := Std.OrientedCmp.gt_of_lt (hhead (k, v) h)
        rw [hgt]
        exact congrArg (head :: ·) (ih hrest h)

theorem Sorted.union_of_subset {m n : OrderedMap κ ν} (hm : m.Sorted)
    (h : ∀ entry ∈ n.toList, entry ∈ m.toList) : m.union n = m := by
  unfold OrderedMap.union
  obtain ⟨l⟩ := n
  dsimp only at h ⊢
  induction l with
  | nil => rfl
  | cons head rest ih =>
      rw [List.foldl_cons, hm.insert_of_mem (h head List.mem_cons_self)]
      exact ih fun entry hentry => h entry (List.mem_cons_of_mem _ hentry)

end OrderedMap

end ManySorted
