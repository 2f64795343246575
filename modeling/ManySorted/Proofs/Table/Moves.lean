import ManySorted.Proofs.Import.Refusal
import ManySorted.Proofs.Ordered
import ManySorted.Proofs.Table.Growth
import Mathlib.Data.List.Infix
import Mathlib.Logic.Relation

/-!
# The moves of a growing table

Whatever a pass does to a table is put together from a few moves: a namespace is made, a symbol is
registered, something is written to symbols, a problem is reported, rules are added; and an import
notes the dependencies of a foreign table and marks clones with their origins.  What each move
keeps, every run keeps: what is listed stays at its place (`Onset`), namespaces list their symbols
by handles (`Levelled`), names are such that paths can be read back (`Spelled`), and entries of the
dependency map are never rebound (`Moves.bound`).

## Strategy

* **Moves.**  Every step of a table is one of a few (`Table.Move`), and a run makes several of them
  (`Table.Moves`).  More names and more tables to import from leave a move what it is
  (`Table.Moves.mono`).
* **Steps are moves.**  This is shown once for each step that changes a table
  (`Table.moves_register`, `Table.moves_registerData`, `Table.moves_setCanonical`,
  `Table.moves_setSize`).
* **One case per move.**  Whatever is to hold after any run is shown for a single move and carried
  along a run by induction: what is listed (`Table.Moves.onset`), handles (`Table.Moves.levelled`),
  names (`Table.Moves.spelled`), dependencies and origins (`Table.Moves.bound`,
  `Table.Moves.origin`), and what is written (`Table.Moves.advances`).
-/

namespace ManySorted

open Relation (ReflTransGen)

/-- What a namespace is, apart from what it lists. -/
def Namespace.heading (node : Namespace) : Name × Option NamespaceId × Nat :=
  (node.name, node.parent, node.depth)

namespace Table

/-- Nothing was done but to write to symbols what is written to them later, and to take note of
literals.  A form or size that is there stays as it is. -/
structure Writes (t t' : Table) : Prop where
  id_eq : t'.id = t.id
  module_eq : t'.module = t.module
  namespaces_eq : t'.namespaces = t.namespaces
  size_eq : t'.symbols.size = t.symbols.size
  blank : ∀ id, (t'.symbolAt id).blank = (t.symbolAt id).blank
  origin : ∀ id, (t'.symbolAt id).origin = (t.symbolAt id).origin
  form : ∀ {id form}, (t.symbolAt id).canonical = some form →
    (t'.symbolAt id).canonical = some form
  size : ∀ {id e}, (t.symbolAt id).size? = some e → (t'.symbolAt id).size? = some e
  reports_eq : t'.reports = t.reports
  rules_eq : t'.rules = t.rules
  dependencies_eq : t'.dependencies = t.dependencies

/-- What a namespace may be called: a segment of a path, or what an imported namespace is called. -/
inductive NamesNode (sources : Table → Prop) (names : Interner) : Name → Prop
  | segment {name : Name} (h : names.Segment name) : NamesNode sources names name
  | imported {foreign : Table} (source : sources foreign) (ns : NamespaceId) :
      NamesNode sources names (foreign.namespaceAt ns).name

/-- What a symbol may be called: nothing, a segment of a path, some text behind a hash sign, or what
an imported symbol is called. -/
inductive NamesSymbol (sources : Table → Prop) (names : Interner) : Name → Prop
  | empty : NamesSymbol sources names .empty
  | segment {name : Name} (h : names.Segment name) : NamesSymbol sources names name
  | hashed {name : Name} (knows : names.Knows name) (hashed : Hashed (names.text name)) :
      NamesSymbol sources names name
  | imported {foreign : Table} (source : sources foreign) (x : SymbolId) :
      NamesSymbol sources names (foreign.symbolAt x).name

/-- What one step may do to a table, if what it imports is among `sources` and these are the names
after it. -/
inductive Move (sources : Table → Prop) (names : Interner) : Table → Table → Prop
  | child (t : Table) (parent : NamespaceId) (name : Name) (called : NamesNode sources names name)
      (free : (t.namespaceAt parent).child? name = none) :
      Move sources names t (t.withChild parent name)
  | symbol (t : Table) (home : NamespaceId) (name : Name) (arity : Nat) (location : Location)
      (kind : SymbolKind) (called : NamesSymbol sources names name) (free : t.Free home name) :
      Move sources names t (t.withSymbol home name arity location kind)
  | write {t t' : Table} (h : t.Writes t') : Move sources names t t'
  | report (t : Table) (r : Report) : Move sources names t (t.report r)
  | addRules (t : Table) (rules : List Rule) :
      Move sources names t { t with rules := t.rules ++ rules }
  | adopt (t : Table) (id : SymbolId) {foreign : Table} (source : sources foreign) (s : SymbolId) :
      Move sources names t (t.setOrigin id
        ((foreign.symbolAt s).origin.getD ⟨foreign.id, (foreign.symbolAt s).id⟩))
  | absorb (t : Table) {foreign : Table} (source : sources foreign)
      (agree : t.moduleClash? foreign = none) : Move sources names t (t.absorb foreign)

/-- What several steps may do to a table. -/
abbrev Moves (sources : Table → Prop) (names : Interner) : Table → Table → Prop :=
  ReflTransGen (Move sources names)

/-- The imports of a module that imports nothing. -/
def NoSources : Table → Prop := fun _ => False

variable {sources more : Table → Prop} {names names' : Interner} {t t' t'' : Table}
  {ns home parent : NamespaceId} {id x : SymbolId} {name : Name}

theorem NamesNode.mono (h : NamesNode sources names name) (hmore : ∀ u, sources u → more u)
    (hgrown : names.Grown names') : NamesNode more names' name := by
  cases h with
  | segment h => exact .segment (h.grown hgrown)
  | imported source ns => exact .imported (hmore _ source) ns

theorem NamesSymbol.mono (h : NamesSymbol sources names name) (hmore : ∀ u, sources u → more u)
    (hgrown : names.Grown names') : NamesSymbol more names' name := by
  cases h with
  | empty => exact .empty
  | segment h => exact .segment (h.grown hgrown)
  | hashed knows hashed => exact .hashed (hgrown.knows knows) (hgrown.text knows ▸ hashed)
  | imported source x => exact .imported (hmore _ source) x

/-- More tables and more names leave a move what it is. -/
theorem Move.mono (h : Move sources names t t') (hmore : ∀ u, sources u → more u)
    (hgrown : names.Grown names') : Move more names' t t' := by
  cases h with
  | child parent name called free => exact .child t parent name (called.mono hmore hgrown) free
  | symbol home name arity location kind called free =>
      exact .symbol t home name arity location kind (called.mono hmore hgrown) free
  | write h => exact .write h
  | report r => exact .report t r
  | addRules rules => exact .addRules t rules
  | adopt id source s => exact .adopt t id (hmore _ source) s
  | absorb source agree => exact .absorb t (hmore _ source) agree

theorem Moves.mono (h : Moves sources names t t') (hmore : ∀ u, sources u → more u)
    (hgrown : names.Grown names') : Moves more names' t t' :=
  ReflTransGen.mono (fun _ _ (h : Move sources names _ _) => h.mono hmore hgrown) _ _ h

theorem Moves.grown (h : Moves sources names t t') (hgrown : names.Grown names') :
    Moves sources names' t t' := h.mono (fun _ hu => hu) hgrown

/-! ## The steps of tables are moves -/

theorem Writes.updateSymbol {f : Symbol → Symbol}
    (hblank : t.Holds id → (f (t.symbolAt id)).blank = (t.symbolAt id).blank)
    (horigin : t.Holds id → (f (t.symbolAt id)).origin = (t.symbolAt id).origin)
    (hform : ∀ {form}, (t.symbolAt id).canonical = some form →
      (f (t.symbolAt id)).canonical = some form)
    (hsize : ∀ {e}, (t.symbolAt id).size? = some e → (f (t.symbolAt id)).size? = some e) :
    t.Writes (t.updateSymbol id f) where
  id_eq := rfl
  module_eq := rfl
  namespaces_eq := rfl
  size_eq := Array.size_modify
  blank y := by
    rw [symbolAt_updateSymbol]
    split
    · next h =>
        obtain ⟨rfl, hy⟩ := h
        exact hblank hy
    · rfl
  origin y := by
    rw [symbolAt_updateSymbol]
    split
    · next h =>
        obtain ⟨rfl, hy⟩ := h
        exact horigin hy
    · rfl
  form {y form} hy := by
    rw [symbolAt_updateSymbol]
    split
    · next h => exact h.1 ▸ hform (h.1 ▸ hy)
    · exact hy
  size {y e} hy := by
    rw [symbolAt_updateSymbol]
    split
    · next h => exact h.1 ▸ hsize (h.1 ▸ hy)
    · exact hy
  reports_eq := rfl
  rules_eq := rfl
  dependencies_eq := rfl

theorem moves_childNamespace (t : Table) (parent : NamespaceId)
    (hname : NamesNode sources names name) :
    Moves sources names t (t.childNamespace parent name).2 := by
  rcases t.childNamespace_cases parent name with ⟨c, -, h⟩ | ⟨hfree, h⟩
  · rw [h]
  · rw [h]
    exact ReflTransGen.single (.child t parent name hname hfree)

theorem moves_register (hname : NamesSymbol sources names name) {arity : Nat} {location : Location}
    {kind : SymbolKind} (h : t.register home name arity location kind = .ok (id, t')) :
    Moves sources names t t' := by
  rcases t.register_cases home name arity location kind with ⟨hfree, heq⟩ | ⟨existing, -, heq⟩
  · rw [heq] at h
    cases h
    exact ReflTransGen.single (.symbol t home name arity location kind hname hfree)
  · rw [heq] at h
    cases h

theorem moves_registerIfFree (t : Table) (home : NamespaceId)
    (hname : NamesSymbol sources names name) (arity : Nat) (location : Location)
    (kind : SymbolKind) : Moves sources names t
      (t.registerIfFree home name arity location kind) := by
  unfold registerIfFree
  split
  · next h => exact moves_register hname h
  · exact ReflTransGen.refl

theorem namesSymbol_hashed (names : Interner) (text : String) :
    NamesSymbol sources (names.intern ("#" ++ text)).2 (names.intern ("#" ++ text)).1 :=
  .hashed (names.knows_intern _) ⟨text, names.text_intern _⟩

theorem moves_registerData (hname : NamesSymbol sources names name) {arity : Nat}
    {location : Location} {shape : DataShape} {labels : List (Option Name)} {any : List Bool}
    (h : t.registerData names home name arity location shape labels any = .ok (id, names', t')) :
    names.Grown names' ∧ Moves sources names' t t' := by
  unfold registerData at h
  simp only at h
  split at h
  · cases h
  · next hregister =>
      cases h
      have hgrown := names.grown_intern ("#" ++ names.text name)
      have hdata := moves_register (hname.mono (fun _ hu => hu) hgrown) hregister
      exact ⟨hgrown, (hdata.trans (moves_registerIfFree _ _ .empty ..)).trans
        (moves_registerIfFree _ _ (namesSymbol_hashed names _) ..)⟩

theorem moves_reportAll (t : Table) (rs : List Report) :
    Moves sources names t (t.reportAll rs) := by
  induction rs generalizing t with
  | nil => exact ReflTransGen.refl
  | cons r rest ih => exact ReflTransGen.head (.report t r) (ih (t.report r))

theorem moves_setCanonical {form : CanonicalForm} (h : t.setCanonical id form = .ok t') :
    Moves sources names t t' := by
  unfold setCanonical at h
  split at h
  · cases h
  · next hnone =>
      cases h
      refine ReflTransGen.single (.write (.updateSymbol (fun _ => rfl) (fun _ => rfl)
        (fun hform => ?_) fun hsize => hsize))
      rw [hform] at hnone
      exact absurd rfl hnone

theorem moves_setSize {e : SizeExpr} (h : t.setSize id e = .ok t') : Moves sources names t t' := by
  unfold setSize at h
  split at h
  · next hkind =>
      cases h
      have hkind' : (t.symbolAt id).kind = .userSort _ none := hkind
      refine ReflTransGen.single (.write (.updateSymbol (fun _ => ?_) (fun _ => rfl)
        (fun hform => hform) fun hsize => ?_))
      · rw [Symbol.blank, Symbol.blank, hkind']
        rfl
      · rw [Symbol.size?, hkind'] at hsize
        cases hsize
  · cases h

theorem moves_markFailed (t : Table) (id : SymbolId) : Moves sources names t (t.markFailed id) :=
  ReflTransGen.single (.write (.updateSymbol (fun _ => rfl) (fun _ => rfl) (fun hform => hform)
    fun hsize => hsize))

theorem moves_foldl {α : Type} {f : Table → α → Table} (l : List α)
    (h : ∀ (t : Table) a, Moves sources names t (f t a)) (t : Table) :
    Moves sources names t (l.foldl f t) := by
  induction l generalizing t with
  | nil => exact ReflTransGen.refl
  | cons a rest ih => exact (h t a).trans (ih _)

/-! ## What is listed stays at its place -/

/-- How a table began: what it lists is a beginning of what the later one lists. -/
structure Onset (t t' : Table) : Prop where
  namespaces : t.namespaces.toList.map Namespace.heading <+: t'.namespaces.toList.map
    Namespace.heading
  childList : ∀ ns, (t.namespaceAt ns).childList <+: (t'.namespaceAt ns).childList
  children : ∀ ns, (t.namespaceAt ns).children <+: (t'.namespaceAt ns).children
  symbolList : ∀ ns, (t.namespaceAt ns).symbolList <+: (t'.namespaceAt ns).symbolList
  listed : ∀ ns, (t.namespaceAt ns).symbols <+: (t'.namespaceAt ns).symbols
  symbols : t.symbols.toList.map Symbol.blank <+: t'.symbols.toList.map Symbol.blank
  reports : t.reports <+: t'.reports
  rules : t.rules <+: t'.rules

namespace Onset

theorem refl (t : Table) : t.Onset t :=
  ⟨List.prefix_rfl, fun _ => List.prefix_rfl, fun _ => List.prefix_rfl, fun _ => List.prefix_rfl,
    fun _ => List.prefix_rfl, List.prefix_rfl, List.prefix_rfl, List.prefix_rfl⟩

theorem trans (h : t.Onset t') (h' : t'.Onset t'') : t.Onset t'' where
  namespaces := h.namespaces.trans h'.namespaces
  childList ns := (h.childList ns).trans (h'.childList ns)
  children ns := (h.children ns).trans (h'.children ns)
  symbolList ns := (h.symbolList ns).trans (h'.symbolList ns)
  listed ns := (h.listed ns).trans (h'.listed ns)
  symbols := h.symbols.trans h'.symbols
  reports := h.reports.trans h'.reports
  rules := h.rules.trans h'.rules

theorem of_eq (hnamespaces : t'.namespaces = t.namespaces)
    (hblanks : t'.symbols.toList.map Symbol.blank = t.symbols.toList.map Symbol.blank)
    (hreports : t.reports <+: t'.reports) (hrules : t.rules <+: t'.rules) : t.Onset t' := by
  have hnode : ∀ ns, t'.namespaceAt ns = t.namespaceAt ns := fun ns => by
    rw [namespaceAt, namespaceAt, hnamespaces]
  refine ⟨?_, fun ns => ?_, fun ns => ?_, fun ns => ?_, fun ns => ?_, ?_, hreports, hrules⟩
  · rw [hnamespaces]
  · rw [hnode]
  · rw [hnode]
  · rw [hnode]
  · rw [hnode]
  · rw [hblanks]

end Onset

theorem headings_modify (namespaces : Array Namespace) (i : Nat) {f : Namespace → Namespace}
    (hf : ∀ node, (f node).heading = node.heading) :
    (namespaces.modify i f).toList.map Namespace.heading =
      namespaces.toList.map Namespace.heading := by
  rw [Array.toList_modify]
  refine List.ext_getElem? fun j => ?_
  rw [List.getElem?_map, List.getElem?_map, List.getElem?_modify]
  cases namespaces.toList[j]? with
  | none => rfl
  | some node => by_cases h : i = j <;> simp [h, hf]

/-- The symbols as they are listed, without what is written to them later. -/
theorem blanks_eq (hsize : t'.symbols.size = t.symbols.size)
    (hblank : ∀ id, (t'.symbolAt id).blank = (t.symbolAt id).blank) :
    t'.symbols.toList.map Symbol.blank = t.symbols.toList.map Symbol.blank := by
  refine List.ext_getElem (by simp [hsize]) fun i hi hi' => ?_
  have hlt : i < t.symbols.size := by simpa using hi'
  have hlt' : i < t'.symbols.size := by omega
  simpa [symbolAt, hlt, hlt'] using hblank ⟨i⟩

/-- A node that was not there before lists what it likes. -/
theorem prefix_of_new {α : Type} {list : Namespace → List α} (hdefault : list default = [])
    (hnew : ns.index = t.namespaces.size) (l : List α) : list (t.namespaceAt ns) <+: l := by
  rw [namespaceAt_of_not_hasNamespace (Nat.not_lt.2 (Nat.le_of_eq hnew.symm)), hdefault]
  exact List.nil_prefix

theorem onset_withChild (hfree : (t.namespaceAt parent).child? name = none) :
    t.Onset (t.withChild parent name) where
  namespaces := by
    rw [withChild, Array.toList_push, List.map_append, headings_modify]
    · exact List.prefix_append _ _
    · exact fun _ => rfl
  childList ns := by
    rw [namespaceAt_withChild]
    split
    · next hnew => exact prefix_of_new rfl hnew _
    · split
      · exact List.prefix_append _ _
      · exact List.prefix_rfl
  children ns := by
    rw [namespaceAt_withChild]
    split
    · next hnew => exact prefix_of_new rfl hnew _
    · split
      · next hns =>
          rw [hns.1, Namespace.addChild, enter_of_free hfree]
          exact List.prefix_append _ _
      · exact List.prefix_rfl
  symbolList ns := by
    rw [symbolList_withChild]
  listed ns := by
    rw [symbols_withChild]
  symbols := List.prefix_rfl
  reports := List.prefix_rfl
  rules := List.prefix_rfl

theorem onset_withSymbol (hfree : t.Free home name) (arity : Nat) (location : Location)
    (kind : SymbolKind) : t.Onset (t.withSymbol home name arity location kind) where
  namespaces := by
    rw [withSymbol]
    dsimp only
    split
    · exact List.prefix_rfl
    · rw [headings_modify]
      exact fun _ => rfl
  childList ns := by
    rw [childList_withSymbol]
  children ns := by
    rw [children_withSymbol]
  symbolList ns := by
    rw [namespaceAt_withSymbol]
    split
    · exact List.prefix_append _ _
    · exact List.prefix_rfl
  listed ns := by
    rw [namespaceAt_withSymbol]
    split
    · next hns =>
        rw [hns.2.1, Namespace.withSymbol, enter_of_free (hfree.of_named hns.1)]
        exact List.prefix_append _ _
    · exact List.prefix_rfl
  symbols := by
    rw [withSymbol, Array.toList_push, List.map_append]
    exact List.prefix_append _ _
  reports := List.prefix_rfl
  rules := List.prefix_rfl

theorem Writes.onset (h : t.Writes t') : t.Onset t' := by
  refine .of_eq h.namespaces_eq (blanks_eq h.size_eq h.blank) ?_ ?_
  · rw [h.reports_eq]
  · rw [h.rules_eq]

theorem onset_setOrigin (t : Table) (id : SymbolId) (origin : Origin) :
    t.Onset (t.setOrigin id origin) := by
  refine .of_eq rfl (blanks_eq Array.size_modify fun y => ?_) List.prefix_rfl List.prefix_rfl
  rw [setOrigin, symbolAt_updateSymbol]
  split <;> rfl

theorem Move.onset (h : Move sources names t t') : t.Onset t' := by
  cases h with
  | child parent name called free => exact onset_withChild free
  | symbol home name arity location kind called free => exact onset_withSymbol free ..
  | write h => exact h.onset
  | report r => exact .of_eq rfl rfl (List.prefix_append _ _) List.prefix_rfl
  | addRules rules => exact .of_eq rfl rfl List.prefix_rfl (List.prefix_append _ _)
  | adopt id source s => exact onset_setOrigin ..
  | absorb source agree => exact .of_eq rfl rfl List.prefix_rfl List.prefix_rfl

theorem Moves.onset (h : Moves sources names t t') : t.Onset t' := by
  induction h with
  | refl => exact .refl t
  | tail _ h ih => exact ih.trans h.onset

/-! ## Namespaces list their symbols by handles -/

/-- What holds of the symbols that namespaces list, whatever is done to the table. -/
structure Levelled (t : Table) : Prop where
  /-- What the index of a namespace has is called so and lives there. -/
  entry : ∀ {ns entry}, entry ∈ (t.namespaceAt ns).symbols → t.Holds entry.2 ∧
    (t.symbolAt entry.2).home = ns ∧ (t.symbolAt entry.2).name = entry.1 ∧ entry.1.isEmpty = false
  /-- The list of the symbols has what their index has. -/
  symbolList_eq : ∀ ns, (t.namespaceAt ns).symbolList = (t.namespaceAt ns).symbols.map Prod.snd
  ascending : ∀ ns, (t.namespaceAt ns).symbolList.Pairwise fun a b => a.index < b.index

/-- Only the nodes, and what symbols are called and where they live, matter. -/
theorem Levelled.congr (h : t.Levelled) (hnamespaces : t'.namespaces = t.namespaces)
    (hholds : ∀ id, t.Holds id → t'.Holds id)
    (hblank : ∀ id, t.Holds id → (t'.symbolAt id).blank = (t.symbolAt id).blank) : t'.Levelled := by
  have hnode : ∀ ns, t'.namespaceAt ns = t.namespaceAt ns := fun ns => by
    rw [namespaceAt, namespaceAt, hnamespaces]
  refine ⟨fun {ns entry} hentry => ?_, fun ns => ?_, fun ns => ?_⟩
  · rw [hnode] at hentry
    obtain ⟨hid, hhome, hname, hnamed⟩ := h.entry hentry
    refine ⟨hholds _ hid, ?_, ?_, hnamed⟩
    · rw [Symbol.home_of_blank (hblank _ hid), hhome]
    · rw [Symbol.name_of_blank (hblank _ hid), hname]
  · rw [hnode]
    exact h.symbolList_eq ns
  · rw [hnode]
    exact h.ascending ns

theorem Levelled.withChild (h : t.Levelled) (parent : NamespaceId) (name : Name) :
    (t.withChild parent name).Levelled where
  entry {ns entry} hentry := by
    rw [symbols_withChild] at hentry
    exact h.entry hentry
  symbolList_eq ns := by
    rw [symbols_withChild, symbolList_withChild]
    exact h.symbolList_eq ns
  ascending ns := by
    rw [symbolList_withChild]
    exact h.ascending ns

theorem Levelled.withSymbol (h : t.Levelled) (hfree : t.Free home name) (arity : Nat)
    (location : Location) (kind : SymbolKind) :
    (t.withSymbol home name arity location kind).Levelled where
  entry {ns entry} hentry := by
    rw [namespaceAt_withSymbol] at hentry
    have hold : entry ∈ (t.namespaceAt ns).symbols →
        (t.withSymbol home name arity location kind).Holds entry.2 ∧
          ((t.withSymbol home name arity location kind).symbolAt entry.2).home = ns ∧
          ((t.withSymbol home name arity location kind).symbolAt entry.2).name = entry.1 ∧
          entry.1.isEmpty = false := by
      intro hmem
      obtain ⟨hid, hrest⟩ := h.entry hmem
      rw [symbolAt_withSymbol, if_neg (Nat.ne_of_lt hid)]
      exact ⟨holds_withSymbol.2 (Nat.le_of_lt hid), hrest⟩
    split at hentry
    · next hns =>
        rcases mem_enter.1 hentry with ⟨-, hmem⟩ | ⟨hname, hid⟩
        · exact hold hmem
        · rw [symbolAt_withSymbol, hid, if_pos rfl, hname]
          exact ⟨holds_withSymbol.2 (Nat.le_refl _), hns.2.1.symm, rfl, hns.1⟩
    · exact hold hentry
  symbolList_eq ns := by
    rw [namespaceAt_withSymbol]
    split
    · next hns =>
        obtain rfl := hns.2.1
        rw [Namespace.withSymbol, enter_of_free (hfree.of_named hns.1), List.map_append,
          h.symbolList_eq]
        rfl
    · exact h.symbolList_eq ns
  ascending ns := by
    rw [namespaceAt_withSymbol]
    split
    · -- the new symbol has the greatest handle
      refine List.pairwise_append.2 ⟨h.ascending ns, List.pairwise_singleton _ _, ?_⟩
      intro a ha b hb
      rw [h.symbolList_eq] at ha
      obtain ⟨entry, hentry, rfl⟩ := List.mem_map.1 ha
      rw [List.mem_singleton.1 hb]
      exact (h.entry hentry).1
    · exact h.ascending ns

theorem Move.levelled (hmove : Move sources names t t') (h : t.Levelled) : t'.Levelled := by
  cases hmove with
  | child parent name called free => exact h.withChild parent name
  | symbol home name arity location kind called free => exact h.withSymbol free ..
  | write hwrites =>
      refine h.congr hwrites.namespaces_eq (fun id hid => ?_) fun id _ => hwrites.blank id
      rw [Holds, hwrites.size_eq]
      exact hid
  | report r => exact h.congr rfl (fun _ hid => hid) fun _ _ => rfl
  | addRules rules => exact h.congr rfl (fun _ hid => hid) fun _ _ => rfl
  | adopt id source s =>
      refine h.congr rfl (fun _ hid => holds_updateSymbol.2 hid) fun y _ => ?_
      rw [setOrigin, symbolAt_updateSymbol]
      split <;> rfl
  | absorb source agree => exact h.congr rfl (fun _ hid => hid) fun _ _ => rfl

theorem Moves.levelled (hmoves : Moves sources names t t') (h : t.Levelled) : t'.Levelled := by
  induction hmoves with
  | refl => exact h
  | tail _ hmove ih => exact hmove.levelled ih

/-! ## Names can be read back -/

/-- Namespaces are called by segments of paths, and so are symbols unless a hash sign stands in
front. -/
structure Spelled (names : Interner) (t : Table) : Prop where
  node : ∀ ns, names.Segment (t.namespaceAt ns).name
  symbol : ∀ x, names.Segment (t.symbolAt x).name ∨
    names.Knows (t.symbolAt x).name ∧ Hashed (names.text (t.symbolAt x).name)

theorem Spelled.grown (h : t.Spelled names) (hgrown : names.Grown names') : t.Spelled names' where
  node ns := (h.node ns).grown hgrown
  symbol x := (h.symbol x).imp (fun hsegment => hsegment.grown hgrown)
    fun ⟨hknows, hhashed⟩ => ⟨hgrown.knows hknows, hgrown.text hknows ▸ hhashed⟩

/-- The path of a namespace consists of names of namespaces. -/
theorem Tree.segment_of_mem_path (ht : t.Tree) (h : t.Spelled names) (hns : t.HasNamespace ns) :
    ∀ name ∈ t.path ns, names.Segment name := by
  refine ht.induct (motive := fun ns => ∀ name ∈ t.path ns, names.Segment name) ?_ ?_ hns
  · rw [ht.path_root]
    exact fun _ hname => absurd hname List.not_mem_nil
  · intro ns p hp ih name hname
    rw [ht.path_of_parent hp] at hname
    rcases List.mem_append.1 hname with habove | hlast
    · exact ih name habove
    · obtain rfl := List.mem_singleton.1 hlast
      exact h.node ns

/-- Only what namespaces and symbols are called matters. -/
theorem Spelled.congr (h : t.Spelled names)
    (hnode : ∀ ns, (t'.namespaceAt ns).name = (t.namespaceAt ns).name)
    (hsymbol : ∀ x, (t'.symbolAt x).name = (t.symbolAt x).name) : t'.Spelled names where
  node ns := by
    rw [hnode]
    exact h.node ns
  symbol x := by
    rw [hsymbol]
    exact h.symbol x

theorem Move.spelled (hmove : Move sources names t t') (hnames : names.Proper)
    (hsources : ∀ u, sources u → u.Spelled names) (h : t.Spelled names) : t'.Spelled names := by
  cases hmove with
  | child parent name called free =>
      refine ⟨fun ns => ?_, h.symbol⟩
      rw [namespaceAt_withChild]
      split
      · cases called with
        | segment hsegment => exact hsegment
        | imported source ns => exact (hsources _ source).node ns
      · split <;> exact h.node ns
  | symbol home name arity location kind called free =>
      refine ⟨fun ns => ?_, fun x => ?_⟩
      · rw [namespaceAt_withSymbol]
        split <;> exact h.node ns
      · rw [symbolAt_withSymbol]
        split
        · cases called with
          | empty => exact .inl hnames.segment_empty
          | segment hsegment => exact .inl hsegment
          | hashed knows hashed => exact .inr ⟨knows, hashed⟩
          | imported source x => exact (hsources _ source).symbol x
        · exact h.symbol x
  | write hwrites =>
      refine h.congr (fun ns => ?_) fun x => Symbol.name_of_blank (hwrites.blank x)
      rw [namespaceAt, namespaceAt, hwrites.namespaces_eq]
  | adopt id source s =>
      refine h.congr (fun _ => rfl) fun x => ?_
      rw [setOrigin, symbolAt_updateSymbol]
      split <;> rfl
  | _ => exact h.congr (fun _ => rfl) fun _ => rfl

theorem Moves.spelled (hmoves : Moves sources names t t') (hnames : names.Proper)
    (hsources : ∀ u, sources u → u.Spelled names) (h : t.Spelled names) : t'.Spelled names := by
  induction hmoves with
  | refl => exact h
  | tail _ hmove ih => exact hmove.spelled hnames hsources ih

/-! ## Dependencies and origins -/

theorem Move.module_eq (h : Move sources names t t') : t'.module = t.module := by
  cases h with
  | write h => exact h.module_eq
  | _ => rfl

theorem Moves.module_eq (h : Moves sources names t t') : t'.module = t.module := by
  induction h with
  | refl => rfl
  | tail _ h ih => exact h.module_eq.trans ih

/-- What two maps of dependencies both list, they list with the same table. -/
theorem agree_of_moduleClash? {foreign : Table} (hsorted : t.dependencies.Sorted)
    (h : t.moduleClash? foreign = none) :
    ∀ a ∈ t.dependencies.toList, ∀ b ∈ foreign.dependencies.toList, a.1 = b.1 → a = b := by
  rintro ⟨name, id⟩ ha ⟨name', id'⟩ hb rfl
  rw [moduleClash?_eq_none_iff.1 h name id id' (hsorted.find?_eq_some_iff.2 ha) hb]

/-- The dependencies of a table are a map. -/
def Mapped (t : Table) : Prop := t.dependencies.Sorted

theorem absorbed {foreign : Table} (ht : t.Mapped) (hforeign : foreign.Mapped)
    (h : t.moduleClash? foreign = none) : (t.absorb foreign).Mapped ∧
      ∀ entry, entry ∈ (t.absorb foreign).dependencies.toList ↔
        entry ∈ t.dependencies.toList ∨ entry ∈ foreign.dependencies.toList :=
  ht.union (agree_of_moduleClash? ht h) fun _ ha _ hb => hforeign.unique ha hb

/-- No entry is rebound, and what is new comes from what is imported. -/
structure Bound (sources : Table → Prop) (t t' : Table) : Prop where
  mapped : t'.Mapped
  kept : ∀ {entry}, entry ∈ t.dependencies.toList → entry ∈ t'.dependencies.toList
  cases : ∀ {entry}, entry ∈ t'.dependencies.toList → entry ∈ t.dependencies.toList ∨
    ∃ foreign, sources foreign ∧ entry ∈ foreign.dependencies.toList

theorem Bound.of_eq (ht : t.Mapped) (h : t'.dependencies = t.dependencies) :
    Bound sources t t' := by
  refine ⟨?_, fun hentry => ?_, fun hentry => .inl ?_⟩
  · rw [Mapped, h]
    exact ht
  · rwa [h]
  · rwa [h] at hentry

theorem Move.bound (hmove : Move sources names t t') (hsources : ∀ u, sources u → u.Mapped)
    (ht : t.Mapped) : Bound sources t t' := by
  cases hmove with
  | write h => exact .of_eq ht h.dependencies_eq
  | absorb source agree =>
      obtain ⟨hmapped, hmem⟩ := absorbed ht (hsources _ source) agree
      refine ⟨hmapped, fun hentry => (hmem _).2 (.inl hentry), fun hentry => ?_⟩
      rcases (hmem _).1 hentry with hentry | hentry
      · exact .inl hentry
      · exact .inr ⟨_, source, hentry⟩
  | _ => exact .of_eq ht rfl

theorem Moves.bound (hmoves : Moves sources names t t') (hsources : ∀ u, sources u → u.Mapped)
    (ht : t.Mapped) : Bound sources t t' := by
  induction hmoves with
  | refl => exact .of_eq ht rfl
  | tail _ hmove ih =>
      have hnext := hmove.bound hsources ih.mapped
      refine ⟨hnext.mapped, fun hentry => hnext.kept (ih.kept hentry), fun hentry => ?_⟩
      rcases hnext.cases hentry with hentry | hentry
      · exact ih.cases hentry
      · exact .inr hentry

/-- An origin is one that was there, or it comes with what is imported. -/
theorem Move.origin (hmove : Move sources names t t') {o : Origin}
    (ho : (t'.symbolAt x).origin = some o) : (t.symbolAt x).origin = some o ∨
      ∃ foreign s, sources foreign ∧
        o = (foreign.symbolAt s).origin.getD ⟨foreign.id, (foreign.symbolAt s).id⟩ := by
  cases hmove with
  | child parent name called free => exact .inl ho
  | symbol home name arity location kind called free =>
      rw [symbolAt_withSymbol] at ho
      split at ho
      · cases ho
      · exact .inl ho
  | write h =>
      rw [h.origin] at ho
      exact .inl ho
  | report r => exact .inl ho
  | addRules rules => exact .inl ho
  | adopt id source s =>
      rw [setOrigin, symbolAt_updateSymbol] at ho
      split at ho
      · exact .inr ⟨_, s, source, (Option.some.inj ho).symm⟩
      · exact .inl ho
  | absorb source agree => exact .inl ho

theorem Moves.origin (hmoves : Moves sources names t t') {o : Origin}
    (ho : (t'.symbolAt x).origin = some o) : (t.symbolAt x).origin = some o ∨
      ∃ foreign s, sources foreign ∧
        o = (foreign.symbolAt s).origin.getD ⟨foreign.id, (foreign.symbolAt s).id⟩ := by
  induction hmoves with
  | refl => exact .inl ho
  | tail _ hmove ih =>
      rcases hmove.origin ho with ho | ho
      · exact ih ho
      · exact .inr ho

/-! ## What is written stays -/

/-- A symbol stays what it is, and what is written to it is not written again. -/
structure Advances (t t' : Table) (x : SymbolId) : Prop where
  holds : t'.Holds x
  blank_eq : (t'.symbolAt x).blank = (t.symbolAt x).blank
  canonical : ∀ {form}, (t.symbolAt x).canonical = some form →
    (t'.symbolAt x).canonical = some form
  size : ∀ {e}, (t.symbolAt x).size? = some e → (t'.symbolAt x).size? = some e

theorem Advances.of_eq (hx : t'.Holds x) (h : t'.symbolAt x = t.symbolAt x) : Advances t t' x := by
  refine ⟨hx, by rw [h], fun hform => ?_, fun he => ?_⟩
  · rwa [h]
  · rwa [h]

theorem Advances.trans (h : Advances t t' x) (h' : Advances t' t'' x) : Advances t t'' x where
  holds := h'.holds
  blank_eq := h'.blank_eq.trans h.blank_eq
  canonical hform := h'.canonical (h.canonical hform)
  size he := h'.size (h.size he)

theorem Move.advances (hmove : Move sources names t t') (hx : t.Holds x) : Advances t t' x := by
  cases hmove with
  | symbol home name arity location kind called free =>
      refine .of_eq (holds_withSymbol.2 (Nat.le_of_lt hx)) ?_
      rw [symbolAt_withSymbol, if_neg (Nat.ne_of_lt hx)]
  | write h =>
      refine ⟨?_, h.blank x, h.form, h.size⟩
      rw [Holds, h.size_eq]
      exact hx
  | adopt id source s =>
      refine ⟨?_, ?_, fun hform => ?_, fun he => ?_⟩
      · rw [Holds, setOrigin, updateSymbol, Array.size_modify]
        exact hx
      all_goals
        rw [setOrigin, symbolAt_updateSymbol]
        split
      exacts [rfl, rfl, hform, hform, he, he]
  | _ => exact .of_eq hx rfl

theorem Moves.advances (hmoves : Moves sources names t t') (hx : t.Holds x) : Advances t t' x := by
  induction hmoves with
  | refl => exact .of_eq hx rfl
  | tail _ hmove ih => exact ih.trans (hmove.advances ih.holds)

/-- Where nothing is imported, no origins are noted. -/
theorem Moves.origin_eq (hmoves : Moves NoSources names t t') (hx : t.Holds x) :
    (t'.symbolAt x).origin = (t.symbolAt x).origin := by
  induction hmoves with
  | refl => rfl
  | tail hbefore hmove ih =>
      refine Eq.trans ?_ ih
      have hx' := (Moves.advances hbefore hx).holds
      cases hmove with
      | symbol home name arity location kind called free =>
          rw [symbolAt_withSymbol, if_neg (Nat.ne_of_lt hx')]
      | write h => exact h.origin x
      | adopt id source s => exact source.elim
      | absorb source agree => exact source.elim
      | _ => rfl

end Table

end ManySorted
