import ManySorted.Proofs.Table.Tree

/-!
# The arena of symbols

A symbol is found at its own handle, lives in a namespace of the table and, if it has a name, is in
the index of that namespace under it; and the index has nothing else.  So a named symbol is
determined by its home and its name (`Arena.eq_of_home_of_name`).  Registering appends one symbol.

## Strategy

* **Registering** appends one symbol, at its handle, and enters it in its home if it has a name
  (`Table.withSymbol`).  The name is free, or the symbol that has it is returned
  (`Table.register_cases`).
* **What a node is** apart from its symbols stays (`Table.parent_withSymbol`,
  `Table.depth_withSymbol`), so the table is still a tree (`Table.Tree.withSymbol`).
* **The new symbol** is found at its handle and under its name, and all others are where they were
  (`Table.Arena.withSymbol`).
* **Changing a symbol** touches no other one (`Table.symbolAt_updateSymbol`).
-/

namespace ManySorted

/-- The node with one more symbol. -/
def Namespace.withSymbol (ns : Namespace) (name : Name) (id : SymbolId) : Namespace :=
  { ns with symbols := enter ns.symbols name id, symbolList := ns.symbolList ++ [id] }

theorem Namespace.addSymbol_of_free {ns : Namespace} {name : Name} (hfree : ns.symbol? name = none)
    (id : SymbolId) : ns.addSymbol name id = .ok (ns.withSymbol name id) := by
  rw [addSymbol, hfree]
  rfl

theorem Namespace.addSymbol_of_taken {ns : Namespace} {name : Name} {existing : SymbolId}
    (htaken : ns.symbol? name = some existing) (id : SymbolId) :
    ns.addSymbol name id = .error existing := by
  rw [addSymbol, htaken]

namespace Table

variable {t : Table} {ns home : NamespaceId} {id other : SymbolId} {name key : Name} {arity : Nat}
  {location : Location} {kind : SymbolKind}

/-- Whether a handle is one of the table's symbols. -/
def Holds (t : Table) (id : SymbolId) : Prop := id.index < t.symbols.size

instance (t : Table) (id : SymbolId) : Decidable (t.Holds id) :=
  inferInstanceAs (Decidable (_ < _))

theorem symbolAt_of_not_holds (h : ¬ t.Holds id) : t.symbolAt id = default := by
  have hsize : t.symbols.size ≤ id.index := Nat.le_of_not_lt h
  simp [symbolAt, hsize]

/-- What is read where there is no symbol has no companions and stands for no value. -/
theorem holds_of_kindOf (hkind : t.kindOf id ≠ .baseOperator .count) : t.Holds id := by
  by_cases h : t.Holds id
  · exact h
  · rw [kindOf, symbolAt_of_not_holds h] at hkind
    exact absurd rfl hkind

/-- The symbols stand at their handles and are listed in their namespaces. -/
structure Arena (t : Table) : Prop where
  id_eq : ∀ {id}, t.Holds id → (t.symbolAt id).id = id
  home : ∀ {id}, t.Holds id → t.HasNamespace (t.symbolAt id).home
  listed : ∀ {id}, t.Holds id → (t.symbolAt id).name.isEmpty = false →
    (t.namespaceAt (t.symbolAt id).home).symbol? (t.symbolAt id).name = some id
  entry : ∀ {ns name id}, (t.namespaceAt ns).symbol? name = some id →
    t.Holds id ∧ (t.symbolAt id).home = ns ∧ (t.symbolAt id).name = name ∧ name.isEmpty = false

theorem Arena.eq_of_home_of_name (ht : t.Arena) (hid : t.Holds id) (hother : t.Holds other)
    (hnamed : (t.symbolAt id).name.isEmpty = false)
    (hhome : (t.symbolAt id).home = (t.symbolAt other).home)
    (hname : (t.symbolAt id).name = (t.symbolAt other).name) : id = other := by
  have hsame : some id = some other := by
    rw [← ht.listed hid hnamed, hhome, hname, ht.listed hother (hname ▸ hnamed)]
  exact Option.some.inj hsame

theorem mem_symbols_toList {s : Symbol} :
    s ∈ t.symbols.toList ↔ ∃ id, t.Holds id ∧ t.symbolAt id = s := by
  constructor
  · intro hs
    obtain ⟨i, hi, rfl⟩ := List.mem_iff_getElem.1 hs
    have hlt : i < t.symbols.size := by simpa using hi
    exact ⟨⟨i⟩, hlt, by simp [symbolAt, hlt]⟩
  · rintro ⟨id, hid, rfl⟩
    have hlt : id.index < t.symbols.size := hid
    simp [symbolAt, hlt]

/-! ## Registering -/

/-- The table with one more symbol. -/
def withSymbol (t : Table) (home : NamespaceId) (name : Name) (arity : Nat) (location : Location)
    (kind : SymbolKind) : Table :=
  let id : SymbolId := ⟨t.symbols.size⟩
  { t with
    symbols := t.symbols.push { id, name, home, arity, location, kind }
    namespaces :=
      if name.isEmpty then t.namespaces
      else t.namespaces.modify home.index (·.withSymbol name id) }

/-- A name is free in a namespace; any number of symbols may go without a name. -/
def Free (t : Table) (home : NamespaceId) (name : Name) : Prop :=
  name.isEmpty = true ∨ (t.namespaceAt home).symbol? name = none

/-- A node that is read, changed and written back is changed in place. -/
theorem modify_namespaceAt (t : Table) (ns : NamespaceId) (f : Namespace → Namespace) :
    (t.namespaces.modify ns.index fun _ => f (t.namespaceAt ns)) =
      t.namespaces.modify ns.index f := by
  refine Array.ext (by simp) fun i hi hi' => ?_
  rw [Array.getElem_modify, Array.getElem_modify]
  split
  · next hsame =>
      have hlt : ns.index < t.namespaces.size := by simpa [hsame] using hi'
      simp [namespaceAt, hsame ▸ hlt, hsame]
  · rfl

theorem Free.of_named (h : t.Free home name) (hnamed : name.isEmpty = false) :
    (t.namespaceAt home).symbol? name = none :=
  h.resolve_left (Bool.eq_false_iff.1 hnamed)

theorem register_cases (t : Table) (home : NamespaceId) (name : Name) (arity : Nat)
    (location : Location) (kind : SymbolKind) :
    (t.Free home name ∧ t.register home name arity location kind =
        .ok (⟨t.symbols.size⟩, t.withSymbol home name arity location kind)) ∨
      (∃ existing, (t.namespaceAt home).symbol? name = some existing ∧
        t.register home name arity location kind = .error existing) := by
  unfold register
  by_cases hempty : name.isEmpty = true
  · exact .inl ⟨.inl hempty, by simp [hempty, withSymbol]⟩
  · cases hfound : (t.namespaceAt home).symbol? name with
    | none =>
        refine .inl ⟨.inr hfound, ?_⟩
        have hmodify := t.modify_namespaceAt home (·.withSymbol name ⟨t.symbols.size⟩)
        simp only [hempty, Bool.false_eq_true, if_false, withSymbol,
          Namespace.addSymbol_of_free hfound, hmodify]
    | some existing =>
        exact .inr ⟨existing, rfl, by simp [hempty, Namespace.addSymbol_of_taken hfound]⟩

theorem register_of_free (hfree : t.Free home name) : t.register home name arity location kind =
    .ok (⟨t.symbols.size⟩, t.withSymbol home name arity location kind) := by
  rcases t.register_cases home name arity location kind with ⟨_, h⟩ | ⟨existing, hfound, h⟩
  · exact h
  · rcases hfree with hempty | hnone
    · simp [register, hempty] at h
    · rw [hnone] at hfound
      cases hfound

theorem registerIfFree_of_free (hfree : t.Free home name) :
    t.registerIfFree home name arity location kind =
      t.withSymbol home name arity location kind := by
  rw [registerIfFree, register_of_free hfree]

theorem size_withSymbol :
    (t.withSymbol home name arity location kind).namespaces.size = t.namespaces.size := by
  rw [withSymbol]
  dsimp only
  split
  · rfl
  · exact Array.size_modify

@[simp]
theorem hasNamespace_withSymbol :
    (t.withSymbol home name arity location kind).HasNamespace ns ↔ t.HasNamespace ns := by
  simp only [HasNamespace, withSymbol]
  split <;> simp

theorem holds_withSymbol :
    (t.withSymbol home name arity location kind).Holds id ↔ id.index ≤ t.symbols.size := by
  rw [Holds, withSymbol, Array.size_push, Nat.lt_succ_iff]

theorem symbolAt_withSymbol (id : SymbolId) :
    (t.withSymbol home name arity location kind).symbolAt id =
      if id.index = t.symbols.size then { id, name, home, arity, location, kind }
      else t.symbolAt id := by
  simp only [symbolAt, withSymbol, Array.getD_eq_getD_getElem?, Array.getElem?_push]
  split
  case isTrue h =>
    cases id
    simp_all
  case isFalse => rfl

/-- Registering changes no node of the tree but for its symbols. -/
theorem namespaceAt_withSymbol (ns : NamespaceId) :
    (t.withSymbol home name arity location kind).namespaceAt ns =
      if name.isEmpty = false ∧ ns = home ∧ t.HasNamespace ns then
        (t.namespaceAt ns).withSymbol name ⟨t.symbols.size⟩
      else t.namespaceAt ns := by
  have hsame : home.index = ns.index ↔ ns = home := by
    cases ns
    cases home
    simp [eq_comm]
  cases hempty : name.isEmpty with
  | true => simp [withSymbol, namespaceAt, hempty]
  | false =>
      simp only [withSymbol, namespaceAt, hempty, Array.getD_eq_getD_getElem?, true_and,
        Bool.false_eq_true, if_false, Array.getElem?_modify, hsame]
      by_cases hns : ns = home
      · by_cases hlt : t.HasNamespace home
        · have hlt' : home.index < t.namespaces.size := hlt
          simp [hns, hlt, hlt']
        · have hge : t.namespaces.size ≤ home.index := Nat.le_of_not_lt hlt
          simp [hns, hlt, hge]
      · simp [hns]

@[simp]
theorem parent_withSymbol (ns : NamespaceId) :
    ((t.withSymbol home name arity location kind).namespaceAt ns).parent =
      (t.namespaceAt ns).parent := by
  rw [namespaceAt_withSymbol]
  split <;> rfl

@[simp]
theorem name_withSymbol (ns : NamespaceId) :
    ((t.withSymbol home name arity location kind).namespaceAt ns).name =
      (t.namespaceAt ns).name := by
  rw [namespaceAt_withSymbol]
  split <;> rfl

@[simp]
theorem child?_withSymbol (ns : NamespaceId) :
    ((t.withSymbol home name arity location kind).namespaceAt ns).child? key =
      (t.namespaceAt ns).child? key := by
  rw [namespaceAt_withSymbol]
  split <;> rfl

@[simp]
theorem depth_withSymbol (ns : NamespaceId) :
    ((t.withSymbol home name arity location kind).namespaceAt ns).depth =
      (t.namespaceAt ns).depth := by
  rw [namespaceAt_withSymbol]
  split <;> rfl

@[simp]
theorem children_withSymbol (ns : NamespaceId) :
    ((t.withSymbol home name arity location kind).namespaceAt ns).children =
      (t.namespaceAt ns).children := by
  rw [namespaceAt_withSymbol]
  split <;> rfl

@[simp]
theorem childList_withSymbol (ns : NamespaceId) :
    ((t.withSymbol home name arity location kind).namespaceAt ns).childList =
      (t.namespaceAt ns).childList := by
  rw [namespaceAt_withSymbol]
  split <;> rfl

theorem symbol?_withSymbol (hhome : t.HasNamespace home) (ns : NamespaceId) :
    ((t.withSymbol home name arity location kind).namespaceAt ns).symbol? key =
      if name.isEmpty = false ∧ ns = home ∧ key = name then some ⟨t.symbols.size⟩
      else (t.namespaceAt ns).symbol? key := by
  rw [namespaceAt_withSymbol]
  by_cases hlisted : name.isEmpty = false ∧ ns = home
  · obtain ⟨hnamed, rfl⟩ := hlisted
    rw [if_pos ⟨hnamed, rfl, hhome⟩, Namespace.symbol?, Namespace.withSymbol, lookup_enter]
    simp only [hnamed, true_and]
    rfl
  · rw [if_neg (fun h => hlisted ⟨h.1, h.2.1⟩), if_neg (fun h => hlisted ⟨h.1, h.2.1⟩)]

theorem Tree.withSymbol (ht : t.Tree) : (t.withSymbol home name arity location kind).Tree where
  root := hasNamespace_withSymbol.2 ht.root
  parent_root := by rw [parent_withSymbol, ht.parent_root]
  parent hns hroot := by
    rw [parent_withSymbol]
    exact ht.parent (hasNamespace_withSymbol.1 hns) hroot
  parent_lt hp := ht.parent_lt (by rwa [parent_withSymbol] at hp)
  listed hp := by
    rw [parent_withSymbol] at hp
    rw [child?_withSymbol, name_withSymbol, ht.listed hp]
  child hc := by
    rw [child?_withSymbol] at hc
    rw [hasNamespace_withSymbol, parent_withSymbol, name_withSymbol]
    exact ht.child hc
  found {ns name c} hc := by
    rw [children_withSymbol] at hc
    rw [child?_withSymbol, ht.found hc]
  depth_root := by rw [depth_withSymbol, ht.depth_root]
  depth {ns p} hp := by
    rw [parent_withSymbol] at hp
    rw [depth_withSymbol, depth_withSymbol, ht.depth hp]
  childList_eq ns := by rw [childList_withSymbol, children_withSymbol, ht.childList_eq]
  ascending ns := by
    rw [childList_withSymbol]
    exact ht.ascending ns

theorem Arena.withSymbol (ht : t.Arena) (hhome : t.HasNamespace home)
    (hfree : t.Free home name) : (t.withSymbol home name arity location kind).Arena where
  id_eq {id} hid := by
    rw [symbolAt_withSymbol]
    split
    · rfl
    · exact ht.id_eq (Nat.lt_of_le_of_ne (holds_withSymbol.1 hid) ‹_›)
  home {id} hid := by
    rw [hasNamespace_withSymbol, symbolAt_withSymbol]
    split
    · exact hhome
    · exact ht.home (Nat.lt_of_le_of_ne (holds_withSymbol.1 hid) ‹_›)
  listed {id} hid hnamed := by
    rw [symbol?_withSymbol hhome]
    rw [symbolAt_withSymbol] at hnamed ⊢
    split at hnamed
    case isTrue hnew =>
      rw [if_pos hnew, if_pos ⟨hnamed, rfl, rfl⟩, ← hnew]
    case isFalse hold =>
      have hlisted := ht.listed (Nat.lt_of_le_of_ne (holds_withSymbol.1 hid) hold) hnamed
      rw [if_neg hold, if_neg, hlisted]
      rintro ⟨hname, hsame, heq⟩
      rw [hsame, heq, hfree.of_named hname] at hlisted
      cases hlisted
  entry {ns key id} hentry := by
    rw [symbol?_withSymbol hhome] at hentry
    rw [holds_withSymbol, symbolAt_withSymbol]
    split at hentry
    case isTrue h =>
      obtain rfl : ⟨t.symbols.size⟩ = id := by simpa using hentry
      rw [if_pos rfl]
      exact ⟨Nat.le_refl _, h.2.1.symm, h.2.2.symm, h.2.2 ▸ h.1⟩
    case isFalse =>
      obtain ⟨hlt, hrest⟩ := ht.entry hentry
      rw [if_neg (Nat.ne_of_lt hlt)]
      exact ⟨Nat.le_of_lt hlt, hrest⟩

theorem Arena.withChild {p : NamespaceId} (ht : t.Arena) : (t.withChild p name).Arena where
  id_eq hid := ht.id_eq hid
  home hid := hasNamespace_withChild.2 (Nat.le_of_lt (ht.home hid))
  listed hid hnamed := by
    rw [symbol?_withChild]
    exact ht.listed hid hnamed
  entry hentry := by
    rw [symbol?_withChild] at hentry
    exact ht.entry hentry

/-! ## Changing one symbol -/

@[simp]
theorem holds_updateSymbol {f : Symbol → Symbol} :
    (t.updateSymbol other f).Holds id ↔ t.Holds id := by
  simp [Holds, updateSymbol]

theorem symbolAt_updateSymbol {f : Symbol → Symbol} (id : SymbolId) :
    (t.updateSymbol other f).symbolAt id =
      if id = other ∧ t.Holds id then f (t.symbolAt id) else t.symbolAt id := by
  have hsame : other.index = id.index ↔ id = other := by
    cases id
    cases other
    simp [eq_comm]
  simp only [symbolAt, updateSymbol, Array.getD_eq_getD_getElem?, Array.getElem?_modify, hsame]
  by_cases hid : id = other
  · by_cases hlt : t.Holds other
    · have hlt' : other.index < t.symbols.size := hlt
      simp [hid, hlt, hlt']
    · have hge : t.symbols.size ≤ other.index := Nat.le_of_not_lt hlt
      simp [hid, hlt, hge]
  · simp [hid]

end Table

end ManySorted
