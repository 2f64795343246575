import ManySorted.Proofs.Import.Reuse

/-!
# Cloning one foreign symbol

A symbol is cloned under a free name, a data symbol together with its companions, and the clones are
marked with the origins of what they stand for.  `Importing.cloneInto_of_free` says all that this
does: the clones are the new symbols, each stands in the place of its foreign symbol and is of its
kind, and nothing is written to them yet.

## Strategy

* **Registering.**  A free name is taken by the clone; data comes with its companions, whose names
  are free as well (`Importing.Clonable.registerPlain`, `Importing.Clonable.registerFamily`).  What
  gets the name is found in the place of the foreign symbol (`Importing.Clonable.found`).
* **Marking.**  The clones are marked with origins, which leaves all else alone
  (`Importing.touched_foldl_adopt`).
* **Families.**  A linked symbol stands alone, or comes with both companions
  (`Importing.family_cases`), and all of them are linked (`Importing.linked_of_mem_family`).
* These make up one step (`Importing.Clonable.cloneInto_of_free`).
-/

namespace ManySorted

namespace Importing

variable {names : Interner} {imp : Importing} {base home : NamespaceId} {d d' : Draft}
    {t t' : Table}
  {links : Links} {r x : SymbolId} {news : List (SymbolId × SymbolId)}

/-! ## Marking clones -/

theorem foldl_adopt_links (imp : Importing) (news : List (SymbolId × SymbolId)) (links : Links)
    (t : Table) : (news.foldl imp.adopt (links, t)).1 =
      ⟨news.reverse ++ links.ids, news.reverse ++ links.created⟩ := by
  induction news generalizing links t with
  | nil => rfl
  | cons p rest ih =>
      rw [List.foldl_cons, adopt, ih]
      simp [Links.clone]

theorem touched_setOrigin {origin : Origin} : Table.Touched [x] t (t.setOrigin x origin) :=
  .updateSymbol fun _ => rfl

/-- Marking writes to the clones alone. -/
theorem touched_foldl_adopt (imp : Importing) (news : List (SymbolId × SymbolId)) (links : Links)
    (t : Table) : Table.Touched (news.map Prod.snd) t (news.foldl imp.adopt (links, t)).2 := by
  induction news generalizing links t with
  | nil => exact .refl _ t
  | cons p rest ih =>
      rw [List.foldl_cons, adopt]
      refine (touched_setOrigin.mono fun y hy => ?_).trans ((ih _ _).mono fun y hy => ?_)
      · exact List.mem_singleton.1 hy ▸ List.mem_cons_self
      · exact List.mem_cons_of_mem _ hy

theorem symbolAt_foldl_adopt (imp : Importing) (links : Links)
    (hnodup : (news.map Prod.snd).Nodup) (hholds : ∀ p ∈ news, t.Holds p.2)
    {p : SymbolId × SymbolId} (hp : p ∈ news) :
    (news.foldl imp.adopt (links, t)).2.symbolAt p.2 =
      { t.symbolAt p.2 with origin := some (imp.originOf (imp.foreign.symbolAt p.1)) } := by
  induction news generalizing links t with
  | nil => exact absurd hp List.not_mem_nil
  | cons q rest ih =>
      obtain ⟨hfresh, hnodup⟩ := List.nodup_cons.1 hnodup
      rw [List.foldl_cons, adopt]
      rcases List.mem_cons.1 hp with rfl | hp
      · rw [(touched_foldl_adopt imp rest _ _).same hfresh, Table.setOrigin,
          Table.symbolAt_updateSymbol, if_pos ⟨rfl, hholds p List.mem_cons_self⟩]
      · have hne : p.2 ≠ q.2 := fun heq => hfresh (heq ▸ List.mem_map_of_mem hp)
        rw [ih _ hnodup (fun p hp => ?_) hp, Table.setOrigin, Table.symbolAt_updateSymbol,
          if_neg (fun h => hne h.1)]
        exact Table.holds_updateSymbol.2 (hholds p (List.mem_cons_of_mem _ hp))

theorem linked_touched {ids : List SymbolId} (htouched : Table.Touched ids t t')
    (hx : imp.foreign.Linked t base r x) : imp.foreign.Linked t' base r x where
  holds := hx.holds
  found := htouched.relocate?_eq.trans hx.found
  arity := (Symbol.arity_of_blank (htouched.blank x)).trans hx.arity
  outline := by
    rw [← SymbolKind.outline_unsized, show (t'.kindOf x).unsized = (t.kindOf x).unsized from
      Symbol.kind_of_blank (htouched.blank x), SymbolKind.outline_unsized, hx.outline]

/-! ## Registering clones -/

/-- What registering a clone `x` of the foreign symbol `r` yields. -/
structure Registered (imp : Importing) (base : NamespaceId) (r : SymbolId) (d d' : Draft)
    (x : SymbolId) : Prop where
  grown : d.names.Grown d'.names
  regular : d'.table.Regular d'.names
  later : d.table.Later d'.table
  linked : imp.foreign.Linked d'.table base r x
  fresh : ∀ {p}, p ∈ family (imp.foreign.symbolAt r) (d'.table.symbolAt x) →
    ¬ d.table.Holds p.2 ∧ d'.table.Holds p.2
  nodup : ((family (imp.foreign.symbolAt r) (d'.table.symbolAt x)).map Prod.snd).Nodup
  exact : ∀ {y}, d'.table.Holds y → ¬ d.table.Holds y →
    (∃ q, (q, y) ∈ family (imp.foreign.symbolAt r) (d'.table.symbolAt x)) ∧
      (d'.table.symbolAt y).Bare

theorem family_of_not_data {s found : Symbol} (h : s.kind.isData = false) :
    family s found = [(s.id, found.id)] := by
  unfold family
  cases hkind : s.kind with
  | data shape info =>
      rw [hkind] at h
      cases h
  | _ => rfl

theorem family_of_data {s found : Symbol} {shape shape' : DataShape} {info info' : DataInfo}
    (h : s.kind = .data shape info) (h' : found.kind = .data shape' info') :
    family s found =
      [(s.id, found.id), (info.sort, info'.sort), (info.typeConstant, info'.typeConstant)] := by
  rw [family, h, h']
  rfl

/-- What is needed for cloning a foreign symbol into a namespace. -/
structure Clonable (imp : Importing) (base : NamespaceId) (r : SymbolId) (home : NamespaceId)
    (d : Draft) : Prop where
  foreign : imp.foreign.Regular d.names
  regular : d.table.Regular d.names
  holds : imp.foreign.Holds r
  alone : (imp.foreign.kindOf r).isCompanion = false
  landing : imp.foreign.landing? d.table base (imp.foreign.symbolAt r) = some home
  hasNamespace : d.table.HasNamespace home
  free : (d.table.namespaceAt home).symbol? (imp.foreign.symbolAt r).name = none

namespace Clonable

theorem named (h : Clonable imp base r home d) :
    (imp.foreign.symbolAt r).name.isEmpty = false := by
  apply h.foreign.families.isEmpty_eq_false h.holds
  refine Option.eq_none_iff_forall_ne_some.2 fun data hdata => ?_
  obtain ⟨size, hkind⟩ := SymbolKind.unsized_eq_userSort.1 (Table.dataOf?_eq_some_iff.1 hdata)
  have halone := h.alone
  rw [hkind] at halone
  cases halone

theorem plain (h : Clonable imp base r home d) :
    ¬ Hashed (d.names.text (imp.foreign.symbolAt r).name) := by
  refine h.foreign.families.plain h.holds fun sort hkind => ?_
  have halone := h.alone
  rw [hkind] at halone
  cases halone

theorem dataOf? (h : Clonable imp base r home d) : imp.foreign.dataOf? r = none :=
  h.foreign.families.dataOf?_of_named h.holds h.named

theorem root (h : Clonable imp base r home d)
    (hroot : (imp.foreign.kindOf r).staysInRoot = true) : home = .root := by
  have hlanding := h.landing
  rw [Table.landing?, show (imp.foreign.symbolAt r).kind.staysInRoot = true from hroot,
    if_pos rfl] at hlanding
  exact (Option.some.inj hlanding).symm

/-- A symbol that gets the name in its namespace is found in the place of the foreign one. -/
theorem found (h : Clonable imp base r home d) (hlater : d.table.Later t)
    (hx : (t.namespaceAt home).symbol? (imp.foreign.symbolAt r).name = some x) :
    imp.foreign.relocate? t base r = some x := by
  rw [Table.relocate?_of_not_sort h.dataOf?, Table.place?, hlater.landing? h.landing]
  exact hx

theorem registerPlain (h : Clonable imp base r home d)
    (hdata : (imp.foreign.kindOf r).isData = false) :
    ∃ x d', registerClone d (imp.foreign.symbolAt r) home = some (x, d') ∧
      Registered imp base r d d' x := by
  have hfree : d.table.Free home (imp.foreign.symbolAt r).name := .inr h.free
  let s := imp.foreign.symbolAt r
  let table := d.table.withSymbol home s.name s.arity s.location s.kind
  have hlater : d.table.Later table :=
    Table.later_withSymbol h.hasNamespace hfree
  have hfamily : ∀ found, family s found = [(s.id, found.id)] :=
    fun found => family_of_not_data hdata
  have hregular : table.Regular d.names :=
    h.regular.withSymbol h.hasNamespace h.free (h.foreign.families.knows h.holds) h.named h.plain
      hdata h.alone (h.foreign.spelled h.holds) h.root
  have hat : table.symbolAt ⟨d.table.symbols.size⟩ =
      { id := ⟨d.table.symbols.size⟩, name := s.name, home, arity := s.arity,
        location := s.location, kind := s.kind } := by
    rw [Table.symbolAt_withSymbol, if_pos rfl]
  have hnew : ∀ {y}, table.Holds y → ¬ d.table.Holds y → y = ⟨d.table.symbols.size⟩ := by
    intro y hy hold
    have hle := Table.holds_withSymbol.1 hy
    cases y
    exact congrArg SymbolId.mk (Nat.le_antisymm hle (Nat.le_of_not_lt hold))
  refine ⟨⟨d.table.symbols.size⟩, { d with table }, ?_, ?_⟩
  · -- the name is free, so the clone is registered
    have hregister : d.table.register home s.name s.arity s.location s.kind =
        .ok (⟨d.table.symbols.size⟩, table) := by
      rcases d.table.register_cases home s.name s.arity s.location s.kind with
        ⟨_, heq⟩ | ⟨existing, hfound, _⟩
      · exact heq
      · rw [h.free] at hfound
        cases hfound
    unfold registerClone
    split
    case h_1 hkind =>
      rw [Table.kindOf, hkind] at hdata
      cases hdata
    case h_2 => simp only [hregister, s]
  · -- it is the only new symbol, and linked to the foreign one
    refine ⟨.refl _, hregular, hlater, ⟨h.holds, ?_, ?_, ?_⟩, fun {p} hp => ?_, ?_,
      fun {y} hy hold => ?_⟩
    · refine h.found hlater ?_
      rw [Table.symbol?_withSymbol h.hasNamespace, if_pos ⟨h.named, rfl, rfl⟩]
    · rw [hat]
    · rw [Table.kindOf, hat]
      rfl
    · rw [hfamily, hat, List.mem_singleton] at hp
      rw [hp]
      exact ⟨Nat.lt_irrefl _, Table.holds_withSymbol.2 (Nat.le_refl _)⟩
    · rw [hfamily]
      simp
    · obtain rfl := hnew hy hold
      rw [hfamily, hat]
      refine ⟨⟨s.id, List.mem_singleton_self _⟩, rfl, ?_, rfl⟩
      unfold Symbol.size?
      split
      case h_1 data size hkind =>
        have halone := h.alone
        rw [Table.kindOf, show (imp.foreign.symbolAt r).kind = .userSort data size from hkind]
          at halone
        cases halone
      case h_2 => rfl

theorem registerFamily (h : Clonable imp base r home d) {shape : DataShape} {info : DataInfo}
    (hkind : imp.foreign.kindOf r = .data shape info) :
    ∃ x d', registerClone d (imp.foreign.symbolAt r) home = some (x, d') ∧
      Registered imp base r d d' x := by
  let s := imp.foreign.symbolAt r
  have hs : s.kind = .data shape info := hkind
  have hknows := h.foreign.families.knows h.holds
  rcases h.regular.registerData_cases hknows h.named h.plain home s.arity s.location shape
    info.labels info.any with
    ⟨existing, hfound, _⟩ | ⟨_, hashed, names, hregister, hdata⟩
  · rw [h.free] at hfound
    cases hfound
  let table := d.table.withData hashed home s.name s.arity s.location shape info.labels info.any
  have hlater : d.table.Later table :=
    Table.later_withData h.hasNamespace hdata.ne h.free hdata.free
  have hregular : table.Regular names :=
    h.regular.withData h.hasNamespace hknows h.named h.plain h.free hdata
  have hat : table.symbolAt ⟨d.table.symbols.size⟩ =
      { id := ⟨d.table.symbols.size⟩, name := s.name, home, arity := s.arity,
        location := s.location,
        kind := .data shape { labels := info.labels, any := info.any,
                              sort := ⟨d.table.symbols.size + 1⟩,
                              typeConstant := ⟨d.table.symbols.size + 2⟩ } } := by
    rw [Table.symbolAt_withData, if_pos rfl]
  have hfamily : family s (table.symbolAt ⟨d.table.symbols.size⟩) =
      [(s.id, ⟨d.table.symbols.size⟩), (info.sort, ⟨d.table.symbols.size + 1⟩),
        (info.typeConstant, ⟨d.table.symbols.size + 2⟩)] := by
    rw [family_of_data hs (congrArg Symbol.kind hat), hat]
  refine ⟨⟨d.table.symbols.size⟩, { d with names, table }, ?_, ?_⟩
  · -- the name is free, so the clone is registered with its companions
    rw [registerClone, show (imp.foreign.symbolAt r).kind = _ from hs]
    simp only [hregister, s, table]
  · -- the three are the only new symbols, and linked to the foreign family
    refine ⟨hdata.grown, hregular, hlater, ⟨h.holds, ?_, ?_, ?_⟩, fun {p} hp => ?_, ?_,
      fun {y} hy hold => ?_⟩
    · refine h.found hlater ?_
      rw [Table.symbol?_withData h.hasNamespace h.named hdata.named hdata.ne, if_pos ⟨rfl, rfl⟩]
    · rw [hat]
    · rw [Table.kindOf, hat, hkind]
      rfl
    · rw [hfamily] at hp
      have hbound : d.table.symbols.size ≤ p.2.index ∧ p.2.index < d.table.symbols.size + 3 := by
        simp only [List.mem_cons, List.not_mem_nil, or_false] at hp
        rcases hp with rfl | rfl | rfl <;> simp
      exact ⟨Nat.not_lt.2 hbound.1, Table.holds_withData.2 hbound.2⟩
    · rw [hfamily]
      simp
    · rw [hfamily]
      rcases Table.holds_withData_cases hy with rfl | rfl | rfl | hheld
      · refine ⟨⟨s.id, by simp⟩, ?_⟩
        rw [hat]
        exact ⟨rfl, rfl, rfl⟩
      · refine ⟨⟨info.sort, by simp⟩, ?_⟩
        rw [Table.symbolAt_withData, if_neg (by simp), if_pos rfl]
        exact ⟨rfl, rfl, rfl⟩
      · refine ⟨⟨info.typeConstant, by simp⟩, ?_⟩
        rw [Table.symbolAt_withData, if_neg (by simp), if_neg (by simp), if_pos rfl]
        exact ⟨rfl, rfl, rfl⟩
      · exact absurd hheld hold

theorem registered (h : Clonable imp base r home d) :
    ∃ x d', registerClone d (imp.foreign.symbolAt r) home = some (x, d') ∧
      Registered imp base r d d' x := by
  cases hkind : imp.foreign.kindOf r with
  | data shape info => exact h.registerFamily hkind
  | _ => exact h.registerPlain (by rw [hkind]; rfl)

end Clonable

/-! ## The step as a whole -/

/-- The clones `news` of the foreign symbol `r` and its companions are made. -/
structure Cloned (imp : Importing) (base : NamespaceId) (r : SymbolId)
    (news : List (SymbolId × SymbolId)) (d d' : Draft) : Prop where
  grown : d.names.Grown d'.names
  regular : d'.table.Regular d'.names
  later : d.table.Later d'.table
  family : ∃ x, imp.foreign.Linked d'.table base r x ∧
    news = family (imp.foreign.symbolAt r) (d'.table.symbolAt x)
  fresh : ∀ {p}, p ∈ news → ¬ d.table.Holds p.2 ∧ d'.table.Holds p.2 ∧
    (d'.table.symbolAt p.2).origin = some (imp.originOf (imp.foreign.symbolAt p.1)) ∧
    (d'.table.symbolAt p.2).Bare
  nodup : (news.map Prod.snd).Nodup
  exact : ∀ {y}, d'.table.Holds y → ¬ d.table.Holds y → ∃ q, (q, y) ∈ news

theorem family_congr {s found found' : Symbol} (h : found'.blank = found.blank) :
    family s found' = family s found := by
  have hinfo : found'.kind.info? = found.kind.info? := by
    have hunsized : ∀ kind : SymbolKind, kind.unsized.info? = kind.info? := fun kind => by
      cases kind <;> rfl
    rw [← hunsized, Symbol.kind_of_blank h, hunsized]
  rw [family, family, hinfo, Symbol.id_of_blank h]

/-- Cloning under a free name. -/
theorem Clonable.cloneInto_of_free (h : Clonable imp base r home d) (links : Links) :
    ∃ news d', imp.cloneInto (imp.foreign.symbolAt r) home links d =
        (⟨news.reverse ++ links.ids, news.reverse ++ links.created⟩, d') ∧
      Cloned imp base r news d d' := by
  obtain ⟨x, d₁, hregister, hreg⟩ := h.registered
  obtain ⟨table, htable⟩ : ∃ table, table = ((family (imp.foreign.symbolAt r)
    (d₁.table.symbolAt x)).foldl imp.adopt (links, d₁.table)).2 := ⟨_, rfl⟩
  have htouched := touched_foldl_adopt imp
    (family (imp.foreign.symbolAt r) (d₁.table.symbolAt x)) links d₁.table
  have hadopted := fun {p} => symbolAt_foldl_adopt imp links hreg.nodup
    (fun p hp => (hreg.fresh hp).2) (p := p)
  rw [← htable] at htouched
  simp only [← htable] at hadopted
  refine ⟨_, { d₁ with table }, ?_, ⟨hreg.grown, hreg.regular.touched htouched, ?_, ?_, ?_,
    hreg.nodup, ?_⟩⟩
  · rw [cloneInto, h.free]
    simp only [hregister]
    rw [← foldl_adopt_links imp _ links d₁.table, htable]
  · -- the clones are the only symbols that were marked
    refine hreg.later.touched htouched fun y hy => ?_
    obtain ⟨p, hp, rfl⟩ := List.mem_map.1 hy
    exact (hreg.fresh hp).1
  · exact ⟨x, linked_touched htouched hreg.linked, (family_congr (htouched.blank x)).symm⟩
  · intro p hp
    obtain ⟨hnew, hheld⟩ := hreg.fresh hp
    obtain ⟨_, hbare⟩ := hreg.exact hheld hnew
    rw [hadopted hp]
    exact ⟨hnew, (htouched.holds _).2 hheld, rfl, hbare.canonical, hbare.size, hbare.unfailed⟩
  · intro y hy hold
    exact (hreg.exact ((htouched.holds y).1 hy) hold).1

/-! ## Families of links -/

/-- A linked symbol stands alone, or comes with both companions. -/
theorem family_cases (hforeign : imp.foreign.Regular names) (ht : t.Regular names)
    (hlinked : imp.foreign.Linked t base r x) (hx : t.Holds x) :
    ((imp.foreign.kindOf r).isData = false ∧
        family (imp.foreign.symbolAt r) (t.symbolAt x) = [(r, x)]) ∨
      ∃ shape info info', imp.foreign.kindOf r = .data shape info ∧
        t.kindOf x = .data shape info' ∧
        imp.foreign.Linked t base info.sort info'.sort ∧
        imp.foreign.Linked t base info.typeConstant info'.typeConstant ∧
        family (imp.foreign.symbolAt r) (t.symbolAt x) =
          [(r, x), (info.sort, info'.sort), (info.typeConstant, info'.typeConstant)] := by
  have hid := hforeign.arena.id_eq hlinked.holds
  have hid' := ht.arena.id_eq hx
  cases hkind : imp.foreign.kindOf r with
  | data shape info =>
      obtain ⟨info', hkind', hsort, hconstant⟩ := hlinked.companions hforeign ht hkind
      refine .inr ⟨shape, info, info', rfl, hkind', hsort, hconstant, ?_⟩
      rw [family_of_data hkind hkind', hid, hid']
  | _ =>
      refine .inl ⟨rfl, ?_⟩
      rw [family_of_not_data (congrArg SymbolKind.isData hkind), hid, hid']

theorem linked_of_mem_family (hforeign : imp.foreign.Regular names) (ht : t.Regular names)
    (hlinked : imp.foreign.Linked t base r x) (hx : t.Holds x) {p : SymbolId × SymbolId}
    (hp : p ∈ family (imp.foreign.symbolAt r) (t.symbolAt x)) :
    imp.foreign.Linked t base p.1 p.2 := by
  rcases family_cases hforeign ht hlinked hx with
    ⟨_, hfamily⟩ | ⟨shape, info, info', _, _, hsort, hconstant, hfamily⟩
  · rw [hfamily, List.mem_singleton] at hp
    exact hp ▸ hlinked
  · rw [hfamily] at hp
    simp only [List.mem_cons, List.not_mem_nil, or_false] at hp
    rcases hp with rfl | rfl | rfl
    · exact hlinked
    · exact hsort
    · exact hconstant

/-- A family of links leaves no companion out. -/
theorem companions_mem_family (hforeign : imp.foreign.Regular names) (ht : t.Regular names)
    (hlinked : imp.foreign.Linked t base r x) (hx : t.Holds x) {p : SymbolId × SymbolId}
    (hp : p ∈ family (imp.foreign.symbolAt r) (t.symbolAt x)) {shape : DataShape}
    {info : DataInfo} (hkind : imp.foreign.kindOf p.1 = .data shape info) :
    (∃ y, (info.sort, y) ∈ family (imp.foreign.symbolAt r) (t.symbolAt x)) ∧
      ∃ y, (info.typeConstant, y) ∈ family (imp.foreign.symbolAt r) (t.symbolAt x) := by
  rcases family_cases hforeign ht hlinked hx with
    ⟨hdata, hfamily⟩ | ⟨shape', info₀, info', hr, _, _, _, hfamily⟩
  · rw [hfamily, List.mem_singleton] at hp
    rw [hp] at hkind
    rw [hkind] at hdata
    cases hdata
  · rw [hfamily] at hp ⊢
    have hfamily := hforeign.families.data hr
    simp only [List.mem_cons, List.not_mem_nil, or_false] at hp
    rcases hp with rfl | rfl | rfl
    · rw [hr] at hkind
      cases hkind
      exact ⟨⟨info'.sort, by simp⟩, info'.typeConstant, by simp⟩
    · have hsort := hfamily.sort_kind
      rw [hkind] at hsort
      cases hsort
    · rw [hfamily.constant_kind] at hkind
      cases hkind

end Importing

end ManySorted
