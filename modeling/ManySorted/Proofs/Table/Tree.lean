import ManySorted.Table.Resolution

/-!
# The tree of namespaces

Every namespace but the root has a parent of a smaller index, which lists it and has it in its index
under its name.  So a namespace and its path determine each other: following the path of `ns` from
the root leads to `ns` (`Tree.descend?_path`), and where a path leads has that path
(`Tree.path_of_descend?`).

All that is known of a table's namespaces is gathered in `Table.Tree`, the list and the index of the
children among it.  There is one way to add to a tree, `Table.withChild`, and the last section goes
through what it does to a node (`namespaceAt_withChild`): the new one, its parent, and those that
stay as they were.  Each field of `Tree.withChild` is one of these three cases.  That the child goes
to the end of the list and into the index at once keeps the two in step; the name being free keeps
the entry from taking the place of another.
-/

namespace ManySorted

/-! ## Indexes -/

section

variable {κ α : Type} [DecidableEq κ] {index : List (κ × α)} {name key : κ} {a b : α}

theorem mem_enter : (key, b) ∈ enter index name a ↔
    key ≠ name ∧ (key, b) ∈ index ∨ key = name ∧ b = a := by
  rw [enter, List.mem_append, List.mem_filter, List.mem_singleton, decide_eq_true_iff,
    Prod.mk.injEq,
    and_comm]

theorem lookup_enter : (enter index name a).lookup key =
    if key = name then some a else index.lookup key := by
  have hold : (index.filter fun entry => entry.1 ≠ name).lookup key =
      if key = name then none else index.lookup key := by
    induction index with
    | nil => simp
    | cons entry rest ih =>
        by_cases hentry : entry.1 = name
        · rw [List.filter_cons_of_neg (by simpa using hentry), ih, List.lookup_cons]
          by_cases hkey : key = name
          · rw [if_pos hkey, if_pos hkey]
          · have hne : (key == entry.1) = false := by simpa [hentry] using hkey
            rw [if_neg hkey, if_neg hkey, hne]
        · rw [List.filter_cons_of_pos (by simpa using hentry), List.lookup_cons,
            List.lookup_cons, ih]
          by_cases hkey : key = name
          · have hne : (key == entry.1) = false := by
              simpa [hkey] using fun h => hentry h.symm
            rw [if_pos hkey, if_pos hkey, hne]
          · rw [if_neg hkey, if_neg hkey]
  rw [enter, List.lookup_append, hold]
  by_cases hkey : key = name
  · simp [hkey]
  · have hne : (key == name) = false := by simpa using hkey
    simp [hkey, List.lookup_cons, hne]

/-- What is entered under a free key comes last. -/
theorem enter_of_free (hfree : index.lookup name = none) :
    enter index name a = index ++ [(name, a)] := by
  rw [enter, List.filter_eq_self.2]
  intro entry hentry
  have hne : name ≠ entry.1 := by simpa using List.lookup_eq_none_iff.1 hfree entry hentry
  exact decide_eq_true hne.symm

end

/-- The node without its symbols. -/
def Namespace.unlisted (ns : Namespace) : Namespace := { ns with symbolList := [], symbols := [] }

theorem Namespace.child?_of_unlisted {ns ns' : Namespace} (h : ns'.unlisted = ns.unlisted) :
    ns'.child? = ns.child? :=
  show ns'.unlisted.child? = ns.unlisted.child? by rw [h]

namespace Table

variable {t : Table} {ns p child base : NamespaceId} {name : Name}

/-- Whether a handle is one of the table's namespaces. -/
def HasNamespace (t : Table) (ns : NamespaceId) : Prop := ns.index < t.namespaces.size

instance (t : Table) (ns : NamespaceId) : Decidable (t.HasNamespace ns) :=
  inferInstanceAs (Decidable (_ < _))

/-- The namespaces form a tree. -/
structure Tree (t : Table) : Prop where
  root : t.HasNamespace .root
  parent_root : (t.namespaceAt .root).parent = none
  parent : ∀ {ns}, t.HasNamespace ns → ns ≠ .root → ∃ p, (t.namespaceAt ns).parent = some p
  parent_lt : ∀ {ns p}, (t.namespaceAt ns).parent = some p → p.index < ns.index
  depth_root : (t.namespaceAt .root).depth = 0
  depth : ∀ {ns p}, (t.namespaceAt ns).parent = some p →
    (t.namespaceAt ns).depth = (t.namespaceAt p).depth + 1
  /-- A parent has its children in its index. -/
  listed : ∀ {ns p}, (t.namespaceAt ns).parent = some p →
    (t.namespaceAt p).child? (t.namespaceAt ns).name = some ns
  /-- What the index of a namespace has is its child. -/
  child : ∀ {ns name c}, (t.namespaceAt ns).child? name = some c →
    t.HasNamespace c ∧ (t.namespaceAt c).parent = some ns ∧ (t.namespaceAt c).name = name
  /-- Every child is found by its name. -/
  found : ∀ {ns name c}, (name, c) ∈ (t.namespaceAt ns).children →
    (t.namespaceAt ns).child? name = some c
  /-- The list of the children has what their index has. -/
  childList_eq : ∀ ns, (t.namespaceAt ns).childList = (t.namespaceAt ns).children.map Prod.snd
  ascending : ∀ ns, (t.namespaceAt ns).childList.Pairwise fun a b => a.index < b.index

theorem namespaceAt_of_not_hasNamespace (h : ¬ t.HasNamespace ns) :
    t.namespaceAt ns = default := by
  have hsize : t.namespaces.size ≤ ns.index := Nat.le_of_not_lt h
  simp [namespaceAt, hsize]

theorem hasNamespace_of_parent (h : (t.namespaceAt ns).parent = some p) : t.HasNamespace ns := by
  by_cases hns : t.HasNamespace ns
  · exact hns
  · rw [namespaceAt_of_not_hasNamespace hns] at h
    cases h

namespace Tree

/-- What holds of the root and passes from parents to children holds of every namespace. -/
theorem induct (ht : t.Tree) {motive : NamespaceId → Prop} (root : motive .root)
    (step : ∀ ns p, (t.namespaceAt ns).parent = some p → motive p → motive ns)
    (hns : t.HasNamespace ns) : motive ns := by
  have hall : ∀ (n : Nat) (ns : NamespaceId), ns.index < n → t.HasNamespace ns → motive ns := by
    intro n
    induction n with
    | zero => exact fun ns hlt => absurd hlt (Nat.not_lt_zero _)
    | succ n ih =>
        intro ns hlt hns
        by_cases hroot : ns = .root
        · exact hroot ▸ root
        · obtain ⟨p, hp⟩ := ht.parent hns hroot
          have hsmaller := ht.parent_lt hp
          exact step ns p hp (ih p (by omega) (Nat.lt_trans hsmaller hns))
  exact hall (ns.index + 1) ns (Nat.lt_succ_self _) hns

theorem hasNamespace_parent (ht : t.Tree) (hp : (t.namespaceAt ns).parent = some p) :
    t.HasNamespace p :=
  Nat.lt_trans (ht.parent_lt hp) (hasNamespace_of_parent hp)

/-- The tree does not depend on anything else in the table. -/
theorem of_eq {t' : Table} (ht : t.Tree) (h : t'.namespaces = t.namespaces) : t'.Tree := by
  cases t
  cases t'
  subst h
  exact ⟨ht.root, ht.parent_root, ht.parent, ht.parent_lt, ht.depth_root, ht.depth, ht.listed,
    ht.child, ht.found, ht.childList_eq, ht.ascending⟩

/-- The list of the children and their index have the same. -/
theorem mem_childList_iff (ht : t.Tree) :
    child ∈ (t.namespaceAt ns).childList ↔ (t.namespaceAt child).parent = some ns := by
  rw [ht.childList_eq, List.mem_map]
  constructor
  · rintro ⟨⟨name, c⟩, hmem, rfl⟩
    exact (ht.child (ht.found hmem)).2.1
  · intro hp
    obtain ⟨before, after, hlisted, -⟩ := List.lookup_eq_some_iff.1 (ht.listed hp)
    exact ⟨((t.namespaceAt child).name, child), by rw [hlisted]; simp, rfl⟩

/-! ## Ancestors and paths -/

theorem ancestorsWithin_congr (ht : t.Tree) {fuel fuel' : Nat} (hfuel : ns.index < fuel)
    (hfuel' : ns.index < fuel') : t.ancestorsWithin fuel ns = t.ancestorsWithin fuel' ns := by
  induction fuel generalizing fuel' ns with
  | zero => exact absurd hfuel (Nat.not_lt_zero _)
  | succ fuel ih =>
      cases fuel' with
      | zero => exact absurd hfuel' (Nat.not_lt_zero _)
      | succ fuel' =>
          rw [ancestorsWithin, ancestorsWithin]
          cases hp : (t.namespaceAt ns).parent with
          | none => rfl
          | some p =>
              have hsmaller := ht.parent_lt hp
              exact congrArg _ (ih (by omega) (by omega))

theorem ancestors_of_parent (ht : t.Tree) (hp : (t.namespaceAt ns).parent = some p) :
    t.ancestors ns = ns :: t.ancestors p := by
  have hns : ns.index < t.namespaces.size := hasNamespace_of_parent hp
  have hsmaller := ht.parent_lt hp
  have hone : t.ancestors ns = t.ancestorsWithin (t.namespaces.size + 1) ns :=
    ht.ancestorsWithin_congr hns (by omega)
  have hrest : t.ancestorsWithin t.namespaces.size p = t.ancestors p := rfl
  simp only [hone, ancestorsWithin, hp, hrest]

theorem ancestors_root (ht : t.Tree) : t.ancestors .root = [.root] := by
  have hone : t.ancestors .root = t.ancestorsWithin (t.namespaces.size + 1) .root :=
    ht.ancestorsWithin_congr ht.root (Nat.lt_succ_of_lt ht.root)
  rw [hone, ancestorsWithin, ht.parent_root]

theorem path_root (ht : t.Tree) : t.path .root = [] := by
  simp [path, ht.ancestors_root, ht.parent_root]

theorem path_of_parent (ht : t.Tree) (hp : (t.namespaceAt ns).parent = some p) :
    t.path ns = t.path p ++ [(t.namespaceAt ns).name] := by
  simp [path, ht.ancestors_of_parent hp, List.filterMap_append, hp]

theorem path_of_child? (ht : t.Tree) (hc : (t.namespaceAt ns).child? name = some child) :
    t.path child = t.path ns ++ [name] := by
  obtain ⟨_, hparent, rfl⟩ := ht.child hc
  exact ht.path_of_parent hparent

/-! ## Following a path -/

theorem hasNamespace_of_descend? (ht : t.Tree) (hbase : t.HasNamespace base)
    {segments : List Name} (h : t.descend? base segments = some ns) : t.HasNamespace ns := by
  induction segments generalizing base with
  | nil =>
      obtain rfl : base = ns := by simpa [descend?] using h
      exact hbase
  | cons segment rest ih =>
      rw [descend?] at h
      cases hc : (t.namespaceAt base).child? segment with
      | none => simp [hc] at h
      | some child =>
          rw [hc] at h
          exact ih (ht.child hc).1 h

/-- Where a path leads has that path. -/
theorem path_of_descend? (ht : t.Tree) {segments : List Name}
    (h : t.descend? base segments = some ns) : t.path ns = t.path base ++ segments := by
  induction segments generalizing base with
  | nil =>
      obtain rfl : base = ns := by simpa [descend?] using h
      simp
  | cons segment rest ih =>
      rw [descend?] at h
      cases hc : (t.namespaceAt base).child? segment with
      | none => simp [hc] at h
      | some child =>
          rw [hc] at h
          rw [ih h, ht.path_of_child? hc]
          simp

end Tree

theorem descend?_append (base : NamespaceId) (first second : List Name) :
    t.descend? base (first ++ second) = (t.descend? base first).bind (t.descend? · second) := by
  induction first generalizing base with
  | nil => rfl
  | cons segment rest ih =>
      rw [List.cons_append, descend?, descend?]
      cases (t.namespaceAt base).child? segment with
      | none => rfl
      | some child => exact ih child

theorem descend?_singleton (base : NamespaceId) (name : Name) :
    t.descend? base [name] = (t.namespaceAt base).child? name := by
  rw [descend?]
  cases (t.namespaceAt base).child? name <;> rfl

namespace Tree

/-- The path of a namespace leads to it. -/
theorem descend?_path (ht : t.Tree) (hns : t.HasNamespace ns) :
    t.descend? .root (t.path ns) = some ns := by
  refine ht.induct (motive := fun ns => t.descend? .root (t.path ns) = some ns) ?_ ?_ hns
  · rw [ht.path_root]
    rfl
  · intro ns p hp ih
    rw [ht.path_of_parent hp, descend?_append, ih, Option.bind_some, descend?_singleton,
      ht.listed hp]

theorem path_inj (ht : t.Tree) {a b : NamespaceId} (ha : t.HasNamespace a)
    (hb : t.HasNamespace b) (h : t.path a = t.path b) : a = b := by
  have hsame : some a = some b := by rw [← ht.descend?_path ha, h, ht.descend?_path hb]
  exact Option.some.inj hsame

theorem path_eq_nil_iff (ht : t.Tree) (hns : t.HasNamespace ns) : t.path ns = [] ↔ ns = .root := by
  constructor
  · intro h
    exact ht.path_inj hns ht.root (h.trans ht.path_root.symm)
  · rintro rfl
    exact ht.path_root

/-- A namespace within another is reached from it by the rest of its path. -/
theorem descend?_of_isWithin (ht : t.Tree) (hns : t.HasNamespace ns)
    (h : t.isWithin ns base = true) :
    t.HasNamespace base ∧ ∃ rest, t.path ns = t.path base ++ rest ∧
      t.descend? base rest = some ns := by
  refine ht.induct (motive := fun ns => t.isWithin ns base = true → t.HasNamespace base ∧
    ∃ rest, t.path ns = t.path base ++ rest ∧ t.descend? base rest = some ns) ?_ ?_ hns h
  · intro h
    obtain rfl : base = .root := by simpa [isWithin, ht.ancestors_root] using h
    exact ⟨ht.root, [], by simp, rfl⟩
  · intro ns p hp ih h
    simp only [isWithin, ht.ancestors_of_parent hp, List.contains_cons, Bool.or_eq_true,
      beq_iff_eq] at h
    rcases h with rfl | h
    · exact ⟨hasNamespace_of_parent hp, [], by simp, rfl⟩
    · obtain ⟨hbase, rest, hpath, hdescend⟩ := ih h
      refine ⟨hbase, rest ++ [(t.namespaceAt ns).name], ?_, ?_⟩
      · rw [ht.path_of_parent hp, hpath, List.append_assoc]
      · rw [descend?_append, hdescend, Option.bind_some, descend?_singleton, ht.listed hp]

theorem isWithin_self (ht : t.Tree) (hns : t.HasNamespace ns) : t.isWithin ns ns = true := by
  by_cases hroot : ns = .root
  · rw [isWithin, hroot, ht.ancestors_root]
    rfl
  · obtain ⟨p, hp⟩ := ht.parent hns hroot
    rw [isWithin, ht.ancestors_of_parent hp]
    simp

/-- The namespaces within another are those whose paths begin with its path. -/
theorem isWithin_iff (ht : t.Tree) (hns : t.HasNamespace ns) (hbase : t.HasNamespace base) :
    t.isWithin ns base = true ↔ ∃ rest, t.path ns = t.path base ++ rest := by
  constructor
  · intro h
    obtain ⟨-, rest, hpath, -⟩ := ht.descend?_of_isWithin hns h
    exact ⟨rest, hpath⟩
  · refine ht.induct (motive := fun ns => (∃ rest, t.path ns = t.path base ++ rest) →
      t.isWithin ns base = true) ?_ ?_ hns
    · rintro ⟨rest, hpath⟩
      rw [ht.path_root] at hpath
      obtain rfl := (ht.path_eq_nil_iff hbase).1 (List.append_eq_nil_iff.1 hpath.symm).1
      exact ht.isWithin_self ht.root
    · rintro ns p hp ih ⟨rest, hpath⟩
      rcases List.eq_nil_or_concat rest with rfl | ⟨rest, name, rfl⟩
      · rw [List.append_nil] at hpath
        obtain rfl := ht.path_inj (hasNamespace_of_parent hp) hbase hpath
        exact ht.isWithin_self hbase
      · rw [ht.path_of_parent hp, List.concat_eq_append, ← List.append_assoc] at hpath
        have hparent := congrArg List.dropLast hpath
        rw [List.dropLast_concat, List.dropLast_concat] at hparent
        have hwithin := ih ⟨rest, hparent⟩
        rw [isWithin] at hwithin
        rw [isWithin, ht.ancestors_of_parent hp, List.contains_cons, hwithin, Bool.or_true]

end Tree

/-! ## Making a child -/

section

variable {key : Name}

/-- The table in which a child was made that was not there before. -/
def withChild (t : Table) (parent : NamespaceId) (name : Name) : Table :=
  let node : Namespace :=
    { name, parent := some parent, depth := (t.namespaceAt parent).depth + 1 }
  { t with
    namespaces :=
      (t.namespaces.modify parent.index (·.addChild name ⟨t.namespaces.size⟩)).push node }

/-- A child is found, or else it is made under the next free handle. -/
theorem childNamespace_cases (t : Table) (parent : NamespaceId) (name : Name) :
    (∃ c, (t.namespaceAt parent).child? name = some c ∧
        t.childNamespace parent name = (c, t)) ∨
      ((t.namespaceAt parent).child? name = none ∧
        t.childNamespace parent name = (⟨t.namespaces.size⟩, t.withChild parent name)) := by
  unfold childNamespace
  cases h : (t.namespaceAt parent).child? name with
  | some c => exact .inl ⟨c, rfl, rfl⟩
  | none => exact .inr ⟨rfl, rfl⟩

theorem hasNamespace_withChild :
    (t.withChild p name).HasNamespace ns ↔ ns.index ≤ t.namespaces.size := by
  rw [HasNamespace, withChild, Array.size_push, Array.size_modify, Nat.lt_succ_iff]

/-- The nodes after a child was made: a new one, its parent, and those that stay as they were. -/
theorem namespaceAt_withChild (t : Table) (p ns : NamespaceId) (name : Name) :
    (t.withChild p name).namespaceAt ns =
      if ns.index = t.namespaces.size then
        { name, parent := some p, depth := (t.namespaceAt p).depth + 1 }
      else if ns = p ∧ t.HasNamespace ns then
        (t.namespaceAt ns).addChild name ⟨t.namespaces.size⟩
      else t.namespaceAt ns := by
  have hsame : p.index = ns.index ↔ ns = p := by
    cases ns
    cases p
    simp [eq_comm]
  simp only [withChild, namespaceAt, HasNamespace, Array.getD_eq_getD_getElem?,
    Array.getElem?_push, Array.size_modify, Array.getElem?_modify, hsame]
  by_cases hnew : ns.index = t.namespaces.size
  · simp [hnew]
  · by_cases hp : ns = p
    · by_cases hlt : p.index < t.namespaces.size
      · simp [hp, hlt, Nat.ne_of_lt hlt]
      · have hge : t.namespaces.size ≤ p.index := Nat.le_of_not_lt hlt
        subst hp
        simp [hnew, hlt]
    · simp [hnew, hp]

theorem parent_withChild (ns : NamespaceId) :
    ((t.withChild p name).namespaceAt ns).parent =
      if ns.index = t.namespaces.size then some p else (t.namespaceAt ns).parent := by
  rw [namespaceAt_withChild]
  split
  · rfl
  · split <;> rfl

theorem depth_withChild (ns : NamespaceId) :
    ((t.withChild p name).namespaceAt ns).depth =
      if ns.index = t.namespaces.size then (t.namespaceAt p).depth + 1
      else (t.namespaceAt ns).depth := by
  rw [namespaceAt_withChild]
  split
  · rfl
  · split <;> rfl

theorem name_withChild (ns : NamespaceId) :
    ((t.withChild p name).namespaceAt ns).name =
      if ns.index = t.namespaces.size then name else (t.namespaceAt ns).name := by
  rw [namespaceAt_withChild]
  split
  · rfl
  · split <;> rfl

/-- Making a child registers no symbol. -/
theorem symbols_withChild (ns : NamespaceId) :
    ((t.withChild p name).namespaceAt ns).symbols = (t.namespaceAt ns).symbols := by
  rw [namespaceAt_withChild]
  split
  case isTrue hnew =>
    rw [namespaceAt_of_not_hasNamespace (Nat.not_lt.2 (Nat.le_of_eq hnew.symm))]
    rfl
  case isFalse => split <;> rfl

theorem symbolList_withChild (ns : NamespaceId) :
    ((t.withChild p name).namespaceAt ns).symbolList = (t.namespaceAt ns).symbolList := by
  rw [namespaceAt_withChild]
  split
  case isTrue hnew =>
    rw [namespaceAt_of_not_hasNamespace (Nat.not_lt.2 (Nat.le_of_eq hnew.symm))]
    rfl
  case isFalse => split <;> rfl

theorem symbol?_withChild (ns : NamespaceId) :
    ((t.withChild p name).namespaceAt ns).symbol? key = (t.namespaceAt ns).symbol? key := by
  rw [Namespace.symbol?, symbols_withChild, Namespace.symbol?]

theorem child?_withChild (hp : t.HasNamespace p) (ns : NamespaceId) :
    ((t.withChild p name).namespaceAt ns).child? key =
      if ns = p ∧ key = name then some ⟨t.namespaces.size⟩ else (t.namespaceAt ns).child? key := by
  rw [namespaceAt_withChild]
  by_cases hnew : ns.index = t.namespaces.size
  · have hne : ns ≠ p := fun h => Nat.ne_of_lt (h ▸ hp) hnew
    have hnot : ¬ t.HasNamespace ns := Nat.not_lt.2 (Nat.le_of_eq hnew.symm)
    rw [if_pos hnew, if_neg (fun h => hne h.1), namespaceAt_of_not_hasNamespace hnot]
    rfl
  · rw [if_neg hnew]
    by_cases hns : ns = p
    · subst hns
      rw [if_pos ⟨rfl, hp⟩, Namespace.child?, Namespace.addChild, lookup_enter]
      simp only [true_and]
      rfl
    · rw [if_neg (fun h => hns h.1), if_neg (fun h => hns h.1)]

theorem Tree.withChild (ht : t.Tree) (hp : t.HasNamespace p)
    (hfree : (t.namespaceAt p).child? name = none) : (t.withChild p name).Tree where
  root := hasNamespace_withChild.2 (Nat.le_of_lt ht.root)
  parent_root := by
    rw [parent_withChild, if_neg (Nat.ne_of_lt ht.root), ht.parent_root]
  parent {ns} hns hroot := by
    rw [parent_withChild]
    split
    · exact ⟨p, rfl⟩
    · have hle := hasNamespace_withChild.1 hns
      exact ht.parent (Nat.lt_of_le_of_ne hle ‹_›) hroot
  parent_lt {ns q} hq := by
    rw [parent_withChild] at hq
    split at hq
    · obtain rfl : p = q := by simpa using hq
      rename_i hnew
      exact hnew ▸ hp
    · exact ht.parent_lt hq
  depth_root := by
    rw [depth_withChild, if_neg (Nat.ne_of_lt ht.root), ht.depth_root]
  depth {ns q} hq := by
    rw [parent_withChild] at hq
    rw [depth_withChild, depth_withChild]
    split at hq
    case isTrue hnew =>
      obtain rfl : p = q := by simpa using hq
      rw [if_pos hnew, if_neg (Nat.ne_of_lt hp)]
    case isFalse hold =>
      rw [if_neg hold, if_neg (Nat.ne_of_lt (ht.hasNamespace_parent hq)), ht.depth hq]
  listed {ns q} hq := by
    rw [parent_withChild] at hq
    rw [child?_withChild hp, name_withChild]
    split at hq
    case isTrue hnew =>
      obtain rfl : p = q := by simpa using hq
      rw [if_pos hnew, if_pos ⟨rfl, rfl⟩, ← hnew]
    case isFalse hold =>
      rw [if_neg hold, if_neg, ht.listed hq]
      rintro ⟨rfl, hname⟩
      have := ht.listed hq
      rw [hname, hfree] at this
      cases this
  child {ns key c} hc := by
    rw [child?_withChild hp] at hc
    rw [parent_withChild, name_withChild]
    split at hc
    case isTrue h =>
      obtain rfl : ⟨t.namespaces.size⟩ = c := by simpa using hc
      exact ⟨hasNamespace_withChild.2 (Nat.le_refl _), by simp [h.1], by simp [h.2]⟩
    case isFalse =>
      obtain ⟨hlt, hparent, hname⟩ := ht.child hc
      have hne : c.index ≠ t.namespaces.size := Nat.ne_of_lt hlt
      rw [if_neg hne, if_neg hne]
      exact ⟨hasNamespace_withChild.2 (Nat.le_of_lt hlt), hparent, hname⟩
  found {ns key c} hc := by
    rw [namespaceAt_withChild] at hc
    rw [child?_withChild hp]
    split at hc
    case isTrue => exact absurd hc List.not_mem_nil
    case isFalse =>
      split at hc
      case isTrue hns =>
        rcases mem_enter.1 hc with ⟨hkey, hmem⟩ | ⟨rfl, rfl⟩
        · rw [if_neg (fun h => hkey h.2), ht.found hmem]
        · rw [if_pos ⟨hns.1, rfl⟩]
      case isFalse =>
        have hfound := ht.found hc
        rw [if_neg, hfound]
        rintro ⟨rfl, rfl⟩
        cases hfree.symm.trans hfound
  childList_eq ns := by
    rw [namespaceAt_withChild]
    split
    case isTrue => rfl
    case isFalse =>
      split
      case isTrue hns =>
        obtain rfl := hns.1
        rw [Namespace.addChild, enter_of_free hfree, List.map_append, ht.childList_eq]
        rfl
      case isFalse => exact ht.childList_eq ns
  ascending ns := by
    rw [namespaceAt_withChild]
    split
    case isTrue => exact List.Pairwise.nil
    case isFalse =>
      split
      case isTrue hns =>
        -- the new child has the greatest handle
        refine List.pairwise_append.2 ⟨ht.ascending ns, List.pairwise_singleton _ _, ?_⟩
        intro c hc new hnew
        rw [List.mem_singleton.1 hnew]
        exact hasNamespace_of_parent (ht.mem_childList_iff.1 hc)
      case isFalse => exact ht.ascending ns

end

end Table

end ManySorted
