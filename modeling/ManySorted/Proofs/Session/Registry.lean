import ManySorted.Proofs.Draft.Walk
import ManySorted.Proofs.Session.Safety
import Mathlib.Data.List.Sort

/-!
# Symbols and namespaces where they belong

However a table came about, its symbols stand at their handles and are listed in their namespaces in
the order of their handles, and its namespaces are a tree in which each is found by its path
(`Table.Arises.orderly`).  A namespace keeps a list and an index of its symbols, and a list and an
index of its children; that the two have the same is a part of this.

## Strategy

What is known of nodes and symbols is kept in three bundles, each of which one step preserves:
`Table.Tree` for the children of nodes, `Table.Arena` for what the indexes of symbols have, and
`Table.Levelled` for their lists.  `Table.Ranged` is all three.

* For a namespace that is made and a symbol that is registered by hand, the step lemmas of the three
  bundles are applied one after the other (`Ranged.childNamespace`, `Ranged.register`,
  `Ranged.registerData`).
* For the tables of checks the tree and the arena are known from the passes (`Table.Intact`), and
  the rest from the moves that every pass is made of (`Moves.levelled`).

What is stated in the end (`Table.Orderly`) speaks of all children and of all named symbols of the
arena, in the order of their handles.  An ascending list with the right members can only be that one
(`eq_filter_of_ascending`).
-/

namespace ManySorted

namespace Table

variable {t t' : Table} {names names' : Interner} {ns home parent : NamespaceId} {id : SymbolId}
  {name : Name}

/-! ## What there is to know of nodes and symbols -/

/-- The children of a namespace, in the order of their handles. -/
def childrenOf (t : Table) (ns : NamespaceId) : List NamespaceId :=
  ((List.range t.namespaces.size).map NamespaceId.mk).filter fun c =>
    (t.namespaceAt c).parent = some ns

/-- The named symbols of a namespace, in the order of their handles. -/
def namedIn (t : Table) (ns : NamespaceId) : List SymbolId :=
  ((List.range t.symbols.size).map SymbolId.mk).filter fun x =>
    (t.symbolAt x).home = ns ∧ (t.symbolAt x).name.isEmpty = false

/-- Symbols and namespaces are where they belong. -/
structure Orderly (t : Table) : Prop where
  id_eq : ∀ {id}, t.Holds id → (t.symbolAt id).id = id
  /-- A named symbol is what the index of its namespace has under its name. -/
  found : ∀ {id}, t.Holds id → (t.symbolAt id).name.isEmpty = false →
    (t.namespaceAt (t.symbolAt id).home).symbol? (t.symbolAt id).name = some id
  /-- A namespace lists just its named symbols, in the order of their handles. -/
  symbolList_eq : ∀ ns, (t.namespaceAt ns).symbolList = t.namedIn ns
  /-- The index of the symbols has what their list has, each under its own name. -/
  symbol?_iff : ∀ {ns name id}, (t.namespaceAt ns).symbol? name = some id ↔
    id ∈ (t.namespaceAt ns).symbolList ∧ (t.symbolAt id).name = name
  /-- A namespace lists just its children, in the order of their handles. -/
  childList_eq : ∀ ns, (t.namespaceAt ns).childList = t.childrenOf ns
  /-- The index of the children has what their list has, each under its own name. -/
  child?_iff : ∀ {ns name c}, (t.namespaceAt ns).child? name = some c ↔
    c ∈ (t.namespaceAt ns).childList ∧ (t.namespaceAt c).name = name
  root : t.HasNamespace .root ∧ (t.namespaceAt .root).parent = none ∧
    (t.namespaceAt .root).depth = 0
  /-- Every other namespace is a child of one that comes before it. -/
  parent : ∀ {ns}, t.HasNamespace ns → ns ≠ .root → ∃ p, (t.namespaceAt ns).parent = some p ∧
    p.index < ns.index ∧ (t.namespaceAt ns).depth = (t.namespaceAt p).depth + 1 ∧
    (t.namespaceAt p).child? (t.namespaceAt ns).name = some ns
  path_injective : ∀ {a b}, t.HasNamespace a → t.HasNamespace b → t.path a = t.path b → a = b
  isWithin_iff : ∀ {ns a}, t.HasNamespace ns → t.HasNamespace a →
    (t.isWithin ns a = true ↔ t.path a <+: t.path ns)
  /-- Registering under a name that is taken returns the symbol that has it and changes nothing. -/
  clash : ∀ {ns name existing}, (t.namespaceAt ns).symbol? name = some existing →
    ∀ d : Draft, d.table = t →
      (∀ arity location kind,
        Draft.register ns name arity location kind d = .ok (.error existing) d) ∧
      ∀ arity location shape labels any,
        Draft.registerData ns name arity location shape labels any d = .ok (.error existing) d

/-- Nodes form a tree, and symbols and nodes know of each other. -/
structure Ranged (t : Table) : Prop where
  tree : t.Tree
  arena : t.Arena
  levelled : t.Levelled

/-- An ascending list of handles is determined by what it has. -/
theorem eq_filter_of_ascending {α : Type} (index : α → Nat) {make : Nat → α}
    (hindex : ∀ i, index (make i) = i) (hmake : ∀ a, make (index a) = a) {l : List α}
    (hascending : l.Pairwise fun a b => index a < index b) {n : Nat} {p : α → Prop}
    [DecidablePred p] (hmem : ∀ a, a ∈ l ↔ index a < n ∧ p a) :
    l = ((List.range n).map make).filter fun a => p a := by
  let before (a b : α) : Prop := index a < index b
  have : Std.Irrefl before := ⟨fun a => Nat.lt_irrefl (index a)⟩
  have : Std.Antisymm before := ⟨fun a b hab hba => absurd hba (Nat.lt_asymm hab)⟩
  have hsorted : (((List.range n).map make).filter fun a => p a).Pairwise before := by
    refine List.Pairwise.filter _ (List.pairwise_map.2 (List.pairwise_lt_range.imp fun hlt => ?_))
    show index (make _) < index (make _)
    rwa [hindex, hindex]
  refine List.Pairwise.eq_of_mem_iff (r := before) hascending hsorted fun a => ?_
  rw [hmem, List.mem_filter, List.mem_map, decide_eq_true_iff]
  refine and_congr_left fun _ => ⟨fun hlt => ⟨index a, List.mem_range.2 hlt, hmake a⟩, ?_⟩
  rintro ⟨i, hi, rfl⟩
  rw [hindex]
  exact List.mem_range.1 hi

/-- What the list of a namespace has is named and lives there. -/
theorem Ranged.mem_symbolList_iff (h : t.Ranged) : id ∈ (t.namespaceAt ns).symbolList ↔
    t.Holds id ∧ (t.symbolAt id).home = ns ∧ (t.symbolAt id).name.isEmpty = false := by
  rw [h.levelled.symbolList_eq, List.mem_map]
  constructor
  · rintro ⟨entry, hentry, rfl⟩
    obtain ⟨hid, hhome, hname, hnamed⟩ := h.levelled.entry hentry
    exact ⟨hid, hhome, hname ▸ hnamed⟩
  · rintro ⟨hid, rfl, hnamed⟩
    obtain ⟨before, after, hlisted, -⟩ := List.lookup_eq_some_iff.1 (h.arena.listed hid hnamed)
    exact ⟨((t.symbolAt id).name, id), by rw [hlisted]; simp, rfl⟩

theorem Ranged.symbolList_eq (h : t.Ranged) (ns : NamespaceId) :
    (t.namespaceAt ns).symbolList = t.namedIn ns :=
  eq_filter_of_ascending SymbolId.index (fun _ => rfl) (fun _ => rfl)
    (h.levelled.ascending ns) fun _ => h.mem_symbolList_iff

theorem Ranged.childList_eq (h : t.Ranged) (ns : NamespaceId) :
    (t.namespaceAt ns).childList = t.childrenOf ns := by
  refine eq_filter_of_ascending NamespaceId.index (fun _ => rfl) (fun _ => rfl)
    (h.tree.ascending ns) fun c => ?_
  rw [h.tree.mem_childList_iff]
  exact ⟨fun hp => ⟨hasNamespace_of_parent hp, hp⟩, fun hp => hp.2⟩

theorem orderly_of_ranged (h : t.Ranged) : t.Orderly where
  id_eq := h.arena.id_eq
  found := h.arena.listed
  symbolList_eq := h.symbolList_eq
  symbol?_iff := by
    intro ns name id
    rw [h.mem_symbolList_iff]
    constructor
    · intro hsymbol
      obtain ⟨hid, hhome, hname, hnamed⟩ := h.arena.entry hsymbol
      exact ⟨⟨hid, hhome, hname ▸ hnamed⟩, hname⟩
    · rintro ⟨⟨hid, rfl, hnamed⟩, rfl⟩
      exact h.arena.listed hid hnamed
  childList_eq := h.childList_eq
  child?_iff := by
    intro ns name c
    rw [h.tree.mem_childList_iff]
    constructor
    · intro hchild
      exact (h.tree.child hchild).2
    · rintro ⟨hparent, rfl⟩
      exact h.tree.listed hparent
  root := ⟨h.tree.root, h.tree.parent_root, h.tree.depth_root⟩
  parent hns hroot := by
    obtain ⟨p, hp⟩ := h.tree.parent hns hroot
    have hlt := h.tree.parent_lt hp
    exact ⟨p, hp, hlt, h.tree.depth hp, h.tree.listed hp⟩
  path_injective := h.tree.path_inj
  isWithin_iff {ns a} hns ha := by
    rw [h.tree.isWithin_iff hns ha]
    exact exists_congr fun rest => eq_comm
  clash {ns name existing} hexisting d hd := by
    obtain ⟨-, -, -, hnamed⟩ := h.arena.entry hexisting
    have hregister : ∀ arity location kind,
        d.table.register ns name arity location kind = .error existing := by
      intro arity location kind
      rw [hd, register, hnamed, Namespace.addSymbol_of_taken hexisting]
      rfl
    refine ⟨fun arity location kind => ?_, fun arity location shape labels any => ?_⟩
    · change EStateM.Result.ok _ _ = _
      rw [hregister]
    · change EStateM.Result.ok _ _ = _
      rw [registerData, hregister]

/-! ## Tables of sessions and what is registered in them -/

theorem Ranged.withChild (h : t.Ranged) (hparent : t.HasNamespace parent)
    (hfree : (t.namespaceAt parent).child? name = none) : (t.withChild parent name).Ranged :=
  ⟨h.tree.withChild hparent hfree, h.arena.withChild, h.levelled.withChild parent name⟩

theorem Ranged.childNamespace (h : t.Ranged) (hparent : t.HasNamespace parent) (name : Name) :
    (t.childNamespace parent name).2.Ranged := by
  rcases t.childNamespace_cases parent name with ⟨c, -, hcase⟩ | ⟨hfree, hcase⟩
  · rw [hcase]
    exact h
  · rw [hcase]
    exact h.withChild hparent hfree

theorem Ranged.register (h : t.Ranged) (hhome : t.HasNamespace home) {arity : Nat}
    {location : Location}
    {kind : SymbolKind} (hregister : t.register home name arity location kind = .ok (id, t')) :
    t'.Ranged ∧ t'.HasNamespace home := by
  rcases t.register_cases home name arity location kind with ⟨hfree, hcase⟩ | ⟨existing, -, hcase⟩
  · rw [hcase] at hregister
    cases hregister
    exact ⟨⟨h.tree.withSymbol, h.arena.withSymbol hhome hfree, h.levelled.withSymbol hfree ..⟩,
      hasNamespace_withSymbol.2 hhome⟩
  · rw [hcase] at hregister
    cases hregister

theorem Ranged.registerIfFree (h : t.Ranged) (hhome : t.HasNamespace home) (name : Name)
    (arity : Nat)
    (location : Location) (kind : SymbolKind) :
    (t.registerIfFree home name arity location kind).Ranged ∧
      (t.registerIfFree home name arity location kind).HasNamespace home := by
  unfold Table.registerIfFree
  split
  · next hregister => exact h.register hhome hregister
  · exact ⟨h, hhome⟩

theorem Ranged.registerData (h : t.Ranged) (hhome : t.HasNamespace home) {arity : Nat}
    {location : Location} {shape : DataShape} {labels : List (Option Name)} {any : List Bool}
    (hregister : t.registerData names home name arity location shape labels any =
      .ok (id, names', t')) : t'.Ranged := by
  unfold Table.registerData at hregister
  dsimp only at hregister
  split at hregister
  · cases hregister
  · next hdata =>
      cases hregister
      obtain ⟨hranged, hhome⟩ := h.register hhome hdata
      obtain ⟨hranged, hhome⟩ := hranged.registerIfFree hhome ..
      exact (hranged.registerIfFree hhome ..).1

/-- A node that is not there is taken for one without anything. -/
theorem levelled_of_bare (hnode : ∀ ns, (t.namespaceAt ns).symbolList = [] ∧
    (t.namespaceAt ns).symbols = []) : t.Levelled where
  entry {ns entry} hentry := by
    rw [(hnode ns).2] at hentry
    exact absurd hentry List.not_mem_nil
  symbolList_eq ns := by
    rw [(hnode ns).1, (hnode ns).2]
    rfl
  ascending ns := by
    rw [(hnode ns).1]
    exact List.Pairwise.nil

theorem levelled_create (names : Interner) (id : TableId) (module : Name) (kind : ModuleKind)
    (file : Name) : (create names id module kind file).2.Levelled := by
  refine (moves_foldl_addBuiltin dotless_builtins names _).2.levelled
    (levelled_of_bare fun ns => ?_)
  rw [namespaceAt_of_empty rfl]
  exact ⟨rfl, rfl⟩

theorem ranged_create (hnames : names.Proper) (id : TableId) (module : Name) (kind : ModuleKind)
    (file : Name) : (create names id module kind file).2.Ranged := by
  have hformed := (wellFormed_create hnames id module kind file).1
  exact ⟨hformed.tree, hformed.arena, levelled_create names id module kind file⟩

/-- How tables come about: new, from a check, valid or not, or by making namespaces and registering
symbols in a table that there is. -/
inductive Arises : Table → Prop
  | create {names : Interner} (hnames : names.Proper) (id : TableId) (module : Name)
      (kind : ModuleKind) (file : Name) : Arises (create names id module kind file).2
  | check {names names' : Interner} {tables : List Table} {id : TableId} {library : Library}
      {config : CheckConfig} {m : Module} {out : CheckOutput} (session : Session names tables)
      (held : ∀ entry ∈ library.tables, entry.2 ∈ tables)
      (checked : checkModule names id library config m = (names', .ok out)) : Arises out.table
  | child {t : Table} {parent : NamespaceId} (h : Arises t) (hparent : t.HasNamespace parent)
      (name : Name) : Arises (t.childNamespace parent name).2
  | register {t t' : Table} {home : NamespaceId} {name : Name} {arity : Nat} {location : Location}
      {kind : SymbolKind} {id : SymbolId} (h : Arises t) (hhome : t.HasNamespace home)
      (hregister : t.register home name arity location kind = .ok (id, t')) : Arises t'
  | registerData {t t' : Table} {names names' : Interner} {home : NamespaceId} {name : Name}
      {arity : Nat} {location : Location} {shape : DataShape} {labels : List (Option Name)}
      {any : List Bool} {id : SymbolId} (h : Arises t) (hhome : t.HasNamespace home)
      (hregister : t.registerData names home name arity location shape labels any =
        .ok (id, names', t')) : Arises t'

theorem ranged_of_check {tables : List Table} {tableId : TableId} {library : Library}
    {config : CheckConfig} {m : Module} {out : CheckOutput} (session : Session names tables)
    (held : ∀ entry ∈ library.tables, entry.2 ∈ tables)
    (checked : checkModule names tableId library config m = (names', .ok out)) :
    out.table.Ranged := by
  obtain ⟨names'', out', checked', hintact⟩ := exists_checkModule session.archive.1
    session.archive.2 (fun t ht _ => session.intact t ht) held tableId config m
  rw [checked] at checked'
  cases checked'
  obtain ⟨t, hmoves, htable⟩ := checkModule_moves checked
  refine ⟨hintact.formed.tree, hintact.formed.arena, ?_⟩
  rw [htable]
  exact (hmoves.levelled (levelled_create ..)).congr rfl (fun _ hid => hid) fun _ _ => rfl

theorem Arises.ranged (h : t.Arises) : t.Ranged := by
  induction h with
  | create hnames id module kind file => exact ranged_create hnames id module kind file
  | check session held checked => exact ranged_of_check session held checked
  | child _ hparent name ih => exact ih.childNamespace hparent name
  | register _ hhome hregister ih => exact (ih.register hhome hregister).1
  | registerData _ hhome hregister ih => exact ih.registerData hhome hregister

/-- However a table came about, its symbols and namespaces are where they belong. -/
theorem Arises.orderly (h : t.Arises) : t.Orderly := orderly_of_ranged h.ranged

end Table

namespace Clash

/-- The table of `K`, in which the name `A` was taken twice, with a further namespace. -/
theorem orderly_importer : ∃ names' out,
    checkModule session.1 ⟨2⟩ library {} importer = (names', .ok out) ∧
      (out.table.childNamespace .root ⟨31⟩).2.Orderly := by
  have hsession : Session session.1 session.2 := session_checkAll _ modules
  obtain ⟨names', out, checked, hintact⟩ := exists_checkModule hsession.archive.1
    hsession.archive.2 (fun t ht _ => hsession.intact t ht)
    (fun entry (h : entry ∈ library.tables) => Library.mem_of h) ⟨2⟩ {} importer
  have harises : out.table.Arises := .check hsession (fun _ => Library.mem_of) checked
  exact ⟨names', out, checked, (harises.child hintact.formed.tree.root ⟨31⟩).orderly⟩

end Clash

end ManySorted
