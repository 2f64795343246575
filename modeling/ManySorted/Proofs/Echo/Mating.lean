import ManySorted.Proofs.Echo.Reordering
import ManySorted.Proofs.Table.Moves

/-!
# Drafts that hold the same

Two drafts that grew from one draft differ in nothing but handles, if each symbol has a counterpart
of the same text, home and origin (`Draft.Mates`).  Twins are of this kind, and they stay so
whatever is written to their symbols (`Draft.Mates.alike`).  So symbols are called the same in both
drafts (`Draft.Mates.qualifiedName`), and type terms are read alike (`Draft.Mates.scope`).
-/

namespace ManySorted

/-- What is written to symbols does not matter to a search. -/
theorem Table.Overlays.alike {names names' : Interner} {t t' u u' : Table} {D : SymbolId → Prop}
    {f : SymbolId → SymbolId} {known : Name → Prop} (h : Overlays names names' t t' D f known)
    (hu : t.Alike u) (hu' : t'.Alike u') : Overlays names names' u u' D f known where
  toEchoes := h.toEchoes.alike hu hu'
  tree := h.tree.of_eq hu.namespaces_eq
  size_eq := by rw [hu.namespaces_eq, hu'.namespaces_eq, h.size_eq]
  node_eq ns := by
    rw [namespaceAt_congr hu.namespaces_eq, namespaceAt_congr hu'.namespaces_eq, h.node_eq]
  symbol? hname := by
    rw [namespaceAt_congr hu.namespaces_eq, namespaceAt_congr hu'.namespaces_eq, h.symbol? hname]
  listed hx := by
    rw [namespaceAt_congr hu.namespaces_eq] at hx
    exact h.listed hx
  below hns hx := by
    rw [namespaceAt_congr hu.namespaces_eq] at hx
    rw [Symbol.location_of_blank (hu.blank _), Symbol.location_of_blank (hu'.blank _),
      h.below hns hx]
  text := h.text

namespace Draft

variable {origin d d' e e' : Draft} {f : SymbolId → SymbolId} {x y : SymbolId}
  {entries entries' : List Entry}

/-- Both drafts grew from `origin`, and what one of them holds the other one holds under
counterparts. -/
structure Mates (origin d d' : Draft) (f : SymbolId → SymbolId) : Prop
    extends Table.Overlays d.names d'.names d.table d'.table d.table.Holds f
      origin.names.Knows where
  regular : d.table.Regular d.names
  regular' : d'.table.Regular d'.names
  holds : ∀ {x}, d.table.Holds x → d'.table.Holds (f x)
  onto : ∀ {y}, d'.table.Holds y → ∃ x, d.table.Holds x ∧ f x = y
  kept : ∀ {x}, origin.table.Holds x → d.table.Holds x ∧ f x = x
  symbolText : ∀ {x}, d.table.Holds x →
    d'.names.text (d'.table.symbolAt (f x)).name = d.names.text (d.table.symbolAt x).name
  home : ∀ {x}, d.table.Holds x → (d'.table.symbolAt (f x)).home = (d.table.symbolAt x).home
  origin_eq : ∀ {x}, d.table.Holds x →
    (d'.table.symbolAt (f x)).origin = (d.table.symbolAt x).origin
  /-- All but the constants of enumerations are declared at one place. -/
  location : ∀ {x}, d.table.Holds x → (d.table.kindOf x).isCompanion = false →
    d.table.kindOf x ≠ .userConstant .enumerated →
    (d'.table.symbolAt (f x)).location = (d.table.symbolAt x).location
  /-- The labels of data that is not imported were known before. -/
  label : ∀ {x label}, d.table.Holds x → (d.table.symbolAt x).isImported = false →
    some label ∈ (d.table.kindOf x).labels → origin.names.Knows label
  grown : origin.names.Grown d.names
  grown' : origin.names.Grown d'.names
  entersRoot : origin.table.EntersRoot d.table
  entersRoot' : origin.table.EntersRoot d'.table

/-- The labels of new data are those of an entry. -/
theorem Fresh.labels {entry : Entry} (h : Fresh origin entries d x entry)
    (hlabels : ∀ e ∈ entries, ∀ label, some label ∈ e.kind.labels → origin.names.Knows label)
    {label : Name} (hlabel : some label ∈ (d.table.kindOf x).labels) :
      origin.names.Knows label := by
  refine hlabels entry (mem_of_chosen h.chosen).1 label ?_
  have hkind := h.bears.kind
  cases hdata : d.table.kindOf x with
  | data shape info =>
      rw [hdata] at hlabel hkind
      rw [← hkind]
      exact hlabel
  | _ =>
      rw [hdata] at hlabel
      cases hlabel

/-- Twins hold the same. -/
theorem Twins.mates (h : Twins origin entries entries' d d')
    (hlabels : ∀ e ∈ entries, ∀ label, some label ∈ e.kind.labels → origin.names.Knows label)
    (hkept : ∀ x label, origin.table.Holds x → (origin.table.symbolAt x).isImported = false →
      some label ∈ (origin.table.kindOf x).labels → origin.names.Knows label) :
    Mates origin d d' (counterpart origin d d') where
  toOverlays := h.overlays
  regular := h.left.intact.formed.toRegular
  regular' := h.right.intact.formed.toRegular
  holds := h.holds_counterpart
  onto hy := ⟨_, h.symm.holds_counterpart hy, h.symm.counterpart_counterpart hy⟩
  kept hx := ⟨h.left.added.later.holds hx, (h.symbolAt_of_holds hx).1⟩
  symbolText hx := h.text (h.counterpart_of_holds hx)
  home hx := h.home (h.counterpart_of_holds hx)
  origin_eq hx := h.origin_eq (h.counterpart_of_holds hx)
  location hx := h.location (h.counterpart_of_holds hx)
  label {x label} hx hown hlabel := by
    by_cases hnew : origin.table.Holds x
    · rw [h.left.added.same hnew] at hown
      rw [h.left.kindOf_of_holds hnew] at hlabel
      exact hkept x label hnew hown hlabel
    cases hcompanion : (d.table.kindOf x).isCompanion with
    | false =>
        obtain ⟨e, hfresh, -⟩ := h.left.fresh_of_new hx hnew hcompanion
        exact hfresh.labels hlabels hlabel
    | true =>
        cases hkind : d.table.kindOf x with
        | data shape info =>
            rw [hkind] at hcompanion
            cases hcompanion
        | _ =>
            rw [hkind] at hlabel
            cases hlabel
  grown := h.left.grown
  grown' := h.right.grown
  entersRoot := h.left.entersRoot
  entersRoot' := h.right.entersRoot

namespace Mates

variable (h : Mates origin d d' f)
include h

/-- What is written to the symbols does not matter. -/
theorem alike (hnames : e.names = d.names) (halike : d.table.Alike e.table)
    (hnames' : e'.names = d'.names) (halike' : d'.table.Alike e'.table) : Mates origin e e' f where
  toOverlays := by
    have hoverlays := h.toOverlays.alike halike halike'
    have hholds : d.table.Holds = e.table.Holds := funext fun x => propext (halike.holds x).symm
    rwa [hnames, hnames', ← hholds]
  regular := hnames ▸ halike.regular h.regular
  regular' := hnames' ▸ halike'.regular h.regular'
  holds hx := (halike'.holds _).2 (h.holds ((halike.holds _).1 hx))
  onto hy := by
    obtain ⟨x, hx, hfx⟩ := h.onto ((halike'.holds _).1 hy)
    exact ⟨x, (halike.holds x).2 hx, hfx⟩
  kept hx := ⟨(halike.holds _).2 (h.kept hx).1, (h.kept hx).2⟩
  symbolText hx := by
    rw [hnames, hnames', halike.name, halike'.name, h.symbolText ((halike.holds _).1 hx)]
  home hx := by rw [halike.home, halike'.home, h.home ((halike.holds _).1 hx)]
  origin_eq hx := by rw [halike.origin, halike'.origin, h.origin_eq ((halike.holds _).1 hx)]
  location {x} hx hcompanion hplain := by
    have hsort : ¬ d.table.IsSort x := fun hsort => by
      obtain ⟨y, hy⟩ := halike.isSort.2 hsort
      obtain ⟨size, hkind⟩ := SymbolKind.unsized_eq_userSort.1 hy
      rw [hkind] at hcompanion
      cases hcompanion
    rw [halike.kindOf hsort] at hcompanion hplain
    rw [Symbol.location_of_blank (halike.blank _), Symbol.location_of_blank (halike'.blank _),
      h.location ((halike.holds x).1 hx) hcompanion hplain]
  label {x label} hx hown hlabel := by
    rw [Symbol.isImported, halike.origin] at hown
    refine h.label ((halike.holds x).1 hx) hown ?_
    cases hkind : e.table.kindOf x with
    | data shape info => rwa [halike.kindOf_data.1 hkind, ← hkind]
    | _ =>
        rw [hkind] at hlabel
        cases hlabel
  grown := hnames ▸ h.grown
  grown' := hnames' ▸ h.grown'
  entersRoot := h.entersRoot.trans (.of_eq halike.namespaces_eq)
  entersRoot' := h.entersRoot'.trans (.of_eq halike'.namespaces_eq)

theorem path_eq (ns : NamespaceId) : d'.table.path ns = d.table.path ns :=
  (h.entersRoot'.path_eq ns).trans (h.entersRoot.path_eq ns).symm

theorem isWithin_eq (ns ancestor : NamespaceId) :
    d'.table.isWithin ns ancestor = d.table.isWithin ns ancestor :=
  (h.entersRoot'.isWithin_eq ns ancestor).trans (h.entersRoot.isWithin_eq ns ancestor).symm

theorem namespaceNames_eq : d'.table.namespaceNames = d.table.namespaceNames :=
  h.entersRoot'.namespaceNames_eq.trans h.entersRoot.namespaceNames_eq.symm

theorem isImported (hx : d.table.Holds x) :
    (d'.table.symbolAt (f x)).isImported = (d.table.symbolAt x).isImported := by
  rw [Symbol.isImported, Symbol.isImported, h.origin_eq hx]

/-- A symbol is called the same, as its namespace is. -/
theorem qualifiedName (htree : origin.table.Tree) (hspelled : origin.table.Spelled origin.names)
    (hx : d.table.Holds x) :
    d'.table.qualifiedName d'.names (f x) = d.table.qualifiedName d.names x := by
  have hhome : origin.table.HasNamespace (d.table.symbolAt x).home := by
    rw [Table.HasNamespace, ← h.entersRoot.size_eq]
    exact h.regular.arena.home hx
  have hpath : (d.table.path (d.table.symbolAt x).home).map d'.names.text =
      (d.table.path (d.table.symbolAt x).home).map d.names.text := by
    rw [h.entersRoot.path_eq]
    refine List.map_congr_left fun name hname => ?_
    exact h.text (htree.segment_of_mem_path hspelled hhome name hname).knows
  rw [Table.qualifiedName, Table.qualifiedName, Table.bearer, Table.bearer, h.dataOf?_getD hx,
    h.home hx, h.path_eq, Interner.join, Interner.join, List.map_append, List.map_append, hpath,
    List.map_singleton, List.map_singleton, h.symbolText (h.data_getD hx)]

end Mates

end Draft

end ManySorted
