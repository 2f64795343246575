import ManySorted.Proofs.Table.WellFormed

/-!
# Where a foreign symbol is found

A symbol of a foreign table that is embedded below a namespace is found there by its own path and
name; constants that are shared by all modules, and operators, are found in the root; and a sort is
found through its data symbol.  Since paths compose, so does the search (`Regular.relocate?_trans`):
what stands for a symbol of `first` in `second` is found in `third` where the symbol of `first`
itself is found.

## Strategy

* **Outlines.**  Whether a symbol is looked for in the root is told by its kind without handles and
  sizes (`SymbolKind.outline`), and copies share that.
* **Places.**  A sort is found through its data symbol and all else by its name
  (`Table.Regular.relocate?_cases`).  What is found stays when the table grows
  (`Table.Later.relocate?`).
* **Composition.**  What is found lives where the foreign symbol lands
  (`Table.Regular.landing?_of_relocate?`), so searching for it from there leads to the same place as
  searching at once.
* **Injectivity.**  Places differ in their paths or names, so different symbols are found in
  different places (`Table.Regular.relocate?_inj`).
-/

namespace ManySorted

namespace SymbolKind

/-- The kind without handles and sizes.  Constants that merge in the root count as the same kind. -/
def outline : SymbolKind → SymbolKind
  | userSort _ _ => userSort default none
  | data shape info => data shape { info with sort := default, typeConstant := default }
  | userConstant .symbolic => userConstant .enumerated
  | userConstant (.type _) => userConstant (.type default)
  | kind => kind

theorem outline_unsized (kind : SymbolKind) : kind.unsized.outline = kind.outline := by
  cases kind <;> rfl

theorem staysInRoot_outline (kind : SymbolKind) : kind.outline.staysInRoot = kind.staysInRoot := by
  cases kind with
  | userConstant constant => cases constant <;> rfl
  | _ => rfl

theorem isBase_outline (kind : SymbolKind) : kind.outline.isBase = kind.isBase := by
  cases kind with
  | userConstant constant => cases constant <;> rfl
  | _ => rfl

theorem mergesIntoRoot_outline (kind : SymbolKind) :
    kind.outline.mergesIntoRoot = kind.mergesIntoRoot := by
  cases kind with
  | userConstant constant => cases constant <;> rfl
  | _ => rfl

theorem mergesIntoRoot_of_isBase {kind : SymbolKind} (h : kind.isBase = true) :
    kind.mergesIntoRoot = false := by
  cases kind <;> first | rfl | cases h

theorem outline_of_mergesIntoRoot {kind : SymbolKind} (h : kind.mergesIntoRoot = true) :
    kind.outline = userConstant .enumerated := by
  cases kind with
  | userConstant constant => cases constant <;> first | rfl | cases h
  | _ => cases h

theorem outline_eq_union {kind : SymbolKind} {convenience : Option Convenience} :
    kind.outline = union convenience ↔ kind = union convenience := by
  cases kind with
  | userConstant constant => cases constant <;> simp [outline]
  | _ => simp [outline]

theorem outline_eq_userSort {kind : SymbolKind} (h : kind.outline = userSort default none) :
    ∃ d, kind.unsized = userSort d none := by
  cases kind with
  | userConstant constant => cases constant <;> cases h
  | userSort d size => exact ⟨d, rfl⟩
  | _ => cases h

theorem data_of_outline {kind : SymbolKind} {shape : DataShape} {info : DataInfo}
    (h : kind.outline = (data shape info).outline) :
    ∃ info', kind = data shape info' ∧ info'.labels = info.labels ∧ info'.any = info.any := by
  cases kind with
  | userConstant constant => cases constant <;> cases h
  | data shape' info' =>
      simp only [outline, data.injEq, DataInfo.mk.injEq, and_true] at h
      obtain ⟨rfl, hlabels, hany⟩ := h
      exact ⟨info', rfl, hlabels, hany⟩
  | _ => cases h

theorem userConstant_of_outline {kind : SymbolKind} {constant : ConstantKind}
    (h : kind.outline = (userConstant constant).outline) (hvalue : constant ≠ .parameter) :
    ∃ constant', kind = userConstant constant' ∧ constant' ≠ .parameter := by
  cases kind with
  | userConstant constant' =>
      refine ⟨constant', rfl, ?_⟩
      rintro rfl
      cases constant <;> first | exact hvalue rfl | cases h
  | _ => cases constant <;> cases h

end SymbolKind

namespace Table

variable {names : Interner} {foreign t t' first second third : Table} {base b b' : NamespaceId}
  {q r x d : SymbolId} {s : Symbol}

/-- The namespace in which a named foreign symbol is looked for. -/
def landing? (foreign t : Table) (base : NamespaceId) (s : Symbol) : Option NamespaceId :=
  if s.kind.staysInRoot then some .root else t.descend? base (foreign.path s.home)

/-- The symbol with the name of a foreign one, in the place of the foreign one. -/
def place? (foreign t : Table) (base : NamespaceId) (s : Symbol) : Option SymbolId :=
  (foreign.landing? t base s).bind fun ns => (t.namespaceAt ns).symbol? s.name

/-- The symbol in the place of a foreign one; sorts go by their data symbols. -/
def relocate? (foreign t : Table) (base : NamespaceId) (r : SymbolId) : Option SymbolId :=
  match foreign.dataOf? r with
  | some d => (foreign.place? t base (foreign.symbolAt d)).bind t.sortOf?
  | none => foreign.place? t base (foreign.symbolAt r)

theorem Tree.hasNamespace_of_landing? (ht : t.Tree) (hbase : t.HasNamespace base)
    {ns : NamespaceId} (h : foreign.landing? t base s = some ns) : t.HasNamespace ns := by
  unfold landing? at h
  split at h
  · cases h
    exact ht.root
  · exact ht.hasNamespace_of_descend? hbase h

theorem relocate?_of_dataOf? (h : foreign.dataOf? r = some d) :
    foreign.relocate? t base r =
      (foreign.place? t base (foreign.symbolAt d)).bind t.sortOf? := by
  rw [relocate?, h]

theorem relocate?_of_not_sort (h : foreign.dataOf? r = none) :
    foreign.relocate? t base r = foreign.place? t base (foreign.symbolAt r) := by
  rw [relocate?, h]

/-! ## What is found stays -/

theorem Later.landing? (h : t.Later t') {ns : NamespaceId}
    (hns : foreign.landing? t base s = some ns) : foreign.landing? t' base s = some ns := by
  unfold Table.landing? at hns ⊢
  split at hns
  · rw [if_pos ‹_›, hns]
  · rw [if_neg ‹_›, h.descend? hns]

theorem Later.place? (h : t.Later t') (hx : foreign.place? t base s = some x) :
    foreign.place? t' base s = some x := by
  obtain ⟨ns, hns, hx⟩ := Option.bind_eq_some_iff.1 hx
  exact Option.bind_eq_some_iff.2 ⟨ns, h.landing? hns, h.symbol? hx⟩

theorem Later.relocate? (h : t.Later t') (hx : foreign.relocate? t base r = some x) :
    foreign.relocate? t' base r = some x := by
  cases hd : foreign.dataOf? r with
  | none =>
      rw [relocate?_of_not_sort hd] at hx ⊢
      exact h.place? hx
  | some d =>
      rw [relocate?_of_dataOf? hd] at hx ⊢
      obtain ⟨y, hy, hx⟩ := Option.bind_eq_some_iff.1 hx
      exact Option.bind_eq_some_iff.2 ⟨y, h.place? hy, h.sortOf? hx⟩

theorem sortOf?_congr {id : SymbolId} (h : (t'.kindOf id).unsized = (t.kindOf id).unsized) :
    t'.sortOf? id = t.sortOf? id := by
  unfold sortOf?
  generalize t.kindOf id = kind at h
  generalize t'.kindOf id = kind' at h
  cases kind <;> cases kind' <;> simp_all [SymbolKind.unsized, SymbolKind.info?]

/-- The search only reads the namespaces and the kinds of symbols. -/
theorem Touched.relocate?_eq {ids : List SymbolId} (h : Touched ids t t') :
    foreign.relocate? t' base r = foreign.relocate? t base r := by
  have hnode : ∀ ns, t'.namespaceAt ns = t.namespaceAt ns := fun ns => by
    rw [namespaceAt, namespaceAt, h.namespaces_eq]
  have hdescend : ∀ (segments : List Name) (ns : NamespaceId),
      t'.descend? ns segments = t.descend? ns segments := by
    intro segments
    induction segments with
    | nil => exact fun _ => rfl
    | cons segment rest ih =>
        intro ns
        rw [descend?, descend?, hnode]
        split
        · exact ih _
        · rfl
  have hplace : ∀ s, foreign.place? t' base s = foreign.place? t base s := by
    intro s
    rw [place?, place?, landing?, landing?, hdescend]
    simp only [hnode]
  have hsort : t'.sortOf? = t.sortOf? :=
    funext fun id => sortOf?_congr (Symbol.kind_of_blank (h.blank id))
  rw [relocate?, relocate?, hsort]
  split
  · rw [hplace]
  · rw [hplace]

/-! ## What is found has the name and stands in the place -/

theorem Arena.of_place? (ht : t.Arena) (hx : foreign.place? t base s = some x) :
    t.Holds x ∧ (t.symbolAt x).name = s.name ∧ (t.symbolAt x).name.isEmpty = false ∧
      foreign.landing? t base s = some (t.symbolAt x).home := by
  obtain ⟨ns, hns, hx⟩ := Option.bind_eq_some_iff.1 hx
  obtain ⟨hholds, hhome, hname, hnamed⟩ := ht.entry hx
  exact ⟨hholds, hname, hname ▸ hnamed, hhome ▸ hns⟩

namespace Regular

/-- A sort is found through its data symbol, and all else by its name. -/
theorem relocate?_cases (ht : t.Regular names) (hx : foreign.relocate? t base r = some x) :
    (∃ d y shape info, foreign.dataOf? r = some d ∧
        foreign.place? t base (foreign.symbolAt d) = some y ∧ t.kindOf y = .data shape info ∧
        info.sort = x ∧ t.dataOf? x = some y) ∨
      (foreign.dataOf? r = none ∧ foreign.place? t base (foreign.symbolAt r) = some x ∧
        t.dataOf? x = none) := by
  cases hd : foreign.dataOf? r with
  | none =>
      rw [relocate?_of_not_sort hd] at hx
      obtain ⟨hholds, _, hnamed, _⟩ := ht.arena.of_place? hx
      exact .inr ⟨rfl, hx, ht.families.dataOf?_of_named hholds hnamed⟩
  | some d =>
      rw [relocate?_of_dataOf? hd] at hx
      obtain ⟨y, hy, hx⟩ := Option.bind_eq_some_iff.1 hx
      obtain ⟨hholds, _, hnamed, _⟩ := ht.arena.of_place? hy
      obtain ⟨shape, info, hkind, rfl⟩ := ht.families.data_of_sortOf? hholds hnamed hx
      exact .inl ⟨d, y, shape, info, rfl, hy, hkind, rfl, ht.families.dataOf?_sort hkind⟩

/-! ## Searches compose -/

theorem place?_trans (hsecond : second.Regular names)
    (hb : third.descend? base (second.path b) = some b')
    (hr : first.place? second b s = some r)
    (hroot : (second.kindOf r).staysInRoot = s.kind.staysInRoot) :
    second.place? third base (second.symbolAt r) = first.place? third b' s := by
  obtain ⟨_, hname, _, hlanding⟩ := hsecond.arena.of_place? hr
  have hroot' : (second.symbolAt r).kind.staysInRoot = s.kind.staysInRoot := hroot
  have hsame : second.landing? third base (second.symbolAt r) = first.landing? third b' s := by
    unfold landing? at hlanding ⊢
    rw [hroot']
    split at hlanding
    case isTrue hstays => rw [if_pos hstays, if_pos hstays]
    case isFalse hmoves =>
      rw [if_neg hmoves, if_neg hmoves, hsecond.tree.path_of_descend? hlanding, descend?_append,
        hb, Option.bind_some]
  rw [place?, place?, hsame, hname]

/-- What stands for a symbol is found where the symbol itself is found. -/
theorem relocate?_trans (hfirst : first.Regular names) (hsecond : second.Regular names)
    (hb : third.descend? base (second.path b) = some b')
    (hr : first.relocate? second b q = some r)
    (houtline : (second.kindOf r).outline = (first.kindOf q).outline) :
    second.relocate? third base r = first.relocate? third b' q := by
  rcases hsecond.relocate?_cases hr with
    ⟨d, y, shape, info, hd, hy, hkind, rfl, hdata⟩ | ⟨hq, hr, hsort⟩
  · rw [relocate?_of_dataOf? hdata, relocate?_of_dataOf? hd, hsecond.place?_trans hb hy]
    obtain ⟨shape', info', hd', _⟩ := hfirst.families.sort (dataOf?_eq_some_iff.1 hd)
    rw [hkind, show (first.symbolAt d).kind = .data shape' info' from hd']
    rfl
  · rw [relocate?_of_not_sort hsort, relocate?_of_not_sort hq, hsecond.place?_trans hb hr]
    rw [← SymbolKind.staysInRoot_outline, houtline, SymbolKind.staysInRoot_outline]
    rfl

/-- What is found lives where the foreign symbol lands. -/
theorem landing?_of_relocate? (hforeign : foreign.Regular names) (ht : t.Regular names)
    (hx : foreign.relocate? t base r = some x) :
    t.Holds x ∧ foreign.landing? t base (foreign.symbolAt r) = some (t.symbolAt x).home := by
  rcases ht.relocate?_cases hx with ⟨d, y, shape, info, hd, hy, hkind, rfl, _⟩ | ⟨_, hy, _⟩
  · obtain ⟨_, _, _, hlanding⟩ := ht.arena.of_place? hy
    have hsort := dataOf?_eq_some_iff.1 hd
    obtain ⟨shape', info', hd', rfl⟩ := hforeign.families.sort hsort
    have hfamily := ht.families.data hkind
    have hfamily' := hforeign.families.data hd'
    refine ⟨hfamily.holds_sort, ?_⟩
    obtain ⟨size, hkind'⟩ := SymbolKind.unsized_eq_userSort.1 hsort
    rw [hfamily.sort_home, ← hlanding, landing?, landing?, hfamily'.sort_home,
      show (foreign.symbolAt d).kind = .data shape' info' from hd',
      show (foreign.symbolAt info'.sort).kind = .userSort d size from hkind']
    rfl
  · obtain ⟨hholds, _, _, hlanding⟩ := ht.arena.of_place? hy
    exact ⟨hholds, hlanding⟩

/-- The companions of a data symbol are found with it. -/
theorem relocate?_companions (hforeign : foreign.Regular names) (ht : t.Regular names)
    {shape shape' : DataShape} {info info' : DataInfo} (hr : foreign.kindOf r = .data shape info)
    (hx : foreign.relocate? t base r = some x) (hkind : t.kindOf x = .data shape' info') :
    foreign.relocate? t base info.sort = some info'.sort ∧
      foreign.relocate? t base info.typeConstant = some info'.typeConstant := by
  have hnot : ∀ {id : SymbolId}, foreign.Holds id →
      (∀ d, (foreign.kindOf id).unsized ≠ .userSort d none) → foreign.dataOf? id = none := by
    intro id hid hother
    exact Option.eq_none_iff_forall_ne_some.2 fun d hd => hother d (dataOf?_eq_some_iff.1 hd)
  have hfamily := hforeign.families.data hr
  have hfamily' := ht.families.data hkind
  have hplaced : foreign.place? t base (foreign.symbolAt r) = some x := by
    rwa [relocate?_of_not_sort (hnot (holds_of_data hr) (by simp [hr, SymbolKind.unsized]))] at hx
  obtain ⟨_, hname, _, hlanding⟩ := ht.arena.of_place? hplaced
  constructor
  · rw [relocate?_of_dataOf? (hforeign.families.dataOf?_sort hr), hplaced, Option.bind_some,
      sortOf?, hkind]
    rfl
  · rw [relocate?_of_not_sort (hnot hfamily.holds_constant
      (by simp [hfamily.constant_kind, SymbolKind.unsized])), place?]
    have hsame : foreign.landing? t base (foreign.symbolAt info.typeConstant) =
        foreign.landing? t base (foreign.symbolAt r) := by
      rw [landing?, landing?, hfamily.constant_home,
        show (foreign.symbolAt r).kind = .data shape info from hr,
        show (foreign.symbolAt info.typeConstant).kind = _ from hfamily.constant_kind]
      rfl
    -- both constants are spelled like the data symbol, behind a hash sign
    have hspelled : names.text (t.symbolAt info'.typeConstant).name =
        names.text (foreign.symbolAt info.typeConstant).name := by
      rw [hfamily'.constant_text, hfamily.constant_text, hname]
    have hnamed : (t.symbolAt info'.typeConstant).name.isEmpty = false :=
      ht.families.isEmpty_eq_false hfamily'.holds_constant (by rw [dataOf?, hfamily'.constant_kind])
    rw [hsame, hlanding, Option.bind_some, ← hfamily'.constant_home]
    exact ht.symbol?_of_text hfamily'.holds_constant
      (hforeign.families.knows hfamily.holds_constant) hnamed hspelled

/-! ## Different symbols are found in different places -/

theorem place?_inj (hforeign : foreign.Regular names) (ht : t.Regular names) {r' : SymbolId}
    (hr : foreign.Holds r) (hr' : foreign.Holds r')
    (hx : foreign.place? t base (foreign.symbolAt r) = some x)
    (hx' : foreign.place? t base (foreign.symbolAt r') = some x) : r = r' := by
  obtain ⟨_, hname, hnamed, hlanding⟩ := ht.arena.of_place? hx
  obtain ⟨_, hname', _, hlanding'⟩ := ht.arena.of_place? hx'
  refine hforeign.arena.eq_of_home_of_name hr hr' (hname ▸ hnamed) ?_ (hname.symm.trans hname')
  refine hforeign.tree.path_inj (hforeign.arena.home hr) (hforeign.arena.home hr') ?_
  have hpaths : ∀ {q}, foreign.Holds q →
      foreign.landing? t base (foreign.symbolAt q) = some (t.symbolAt x).home →
      (foreign.path (foreign.symbolAt q).home = [] ∧ t.path (t.symbolAt x).home = []) ∨
        t.path (t.symbolAt x).home = t.path base ++ foreign.path (foreign.symbolAt q).home := by
    intro q hq hlanding
    unfold landing? at hlanding
    split at hlanding
    case isTrue hstays =>
      rw [hforeign.rooted hq hstays, hforeign.tree.path_root, ← Option.some.inj hlanding,
        ht.tree.path_root]
      exact .inl ⟨rfl, rfl⟩
    case isFalse => exact .inr (ht.tree.path_of_descend? hlanding)
  -- a symbol that moves is found in the root only if it comes from the root
  rcases hpaths hr hlanding with ⟨hpath, hroot⟩ | hpath <;>
    rcases hpaths hr' hlanding' with ⟨hpath', hroot'⟩ | hpath'
  · rw [hpath, hpath']
  · rw [hroot] at hpath'
    rw [hpath, (List.append_eq_nil_iff.1 hpath'.symm).2]
  · rw [hroot'] at hpath
    rw [hpath', (List.append_eq_nil_iff.1 hpath.symm).2]
  · rwa [hpath', List.append_cancel_left_eq, eq_comm] at hpath

theorem relocate?_inj (hforeign : foreign.Regular names) (ht : t.Regular names) {r' : SymbolId}
    (hr : foreign.Holds r) (hr' : foreign.Holds r') (hx : foreign.relocate? t base r = some x)
    (hx' : foreign.relocate? t base r' = some x) : r = r' := by
  rcases ht.relocate?_cases hx with
    ⟨d, y, shape, info, hd, hy, _, _, hdata⟩ | ⟨hd, hy, hdata⟩
  · rcases ht.relocate?_cases hx' with
      ⟨d', y', shape', info', hd', hy', _, _, hdata'⟩ | ⟨_, _, hdata'⟩
    · obtain rfl : y = y' := Option.some.inj (hdata.symm.trans hdata')
      obtain ⟨sh, inf, hkind, rfl⟩ := hforeign.families.sort (dataOf?_eq_some_iff.1 hd)
      obtain ⟨sh', inf', hkind', rfl⟩ := hforeign.families.sort (dataOf?_eq_some_iff.1 hd')
      obtain rfl : d = d' := hforeign.place?_inj ht (holds_of_data hkind) (holds_of_data hkind')
        hy hy'
      rw [hkind] at hkind'
      cases hkind'
      rfl
    · rw [hdata] at hdata'
      cases hdata'
  · rcases ht.relocate?_cases hx' with
      ⟨d', y', shape', info', _, _, _, _, hdata'⟩ | ⟨_, hy', _⟩
    · rw [hdata] at hdata'
      cases hdata'
    · exact hforeign.place?_inj ht hr hr' hy hy'

end Regular

end Table

end ManySorted
