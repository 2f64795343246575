import ManySorted.Draft
import ManySorted.Proofs.Table.Closed
import ManySorted.Proofs.Table.Searching

/-!
# Tables in which nothing dangles

Whatever errors a module has, its table hangs together: forms and sizes speak of sorts and constants
that are there, a form has as many positions as its symbol calls for, and a data symbol and its sort
have one form (`Table.Intact`).  This is kept by everything that leaves the symbols alike, apart
from what is written to them, as long as what is written fits (`Intact.revised`).
-/

namespace ManySorted

/-- The number of positions of the form of a symbol, if it is to have one.  Sorts have the form of
their data symbol. -/
def Symbol.formSize? (s : Symbol) : Option Nat :=
  match s.kind with
  | .data .. => some s.arity
  | .union _ | .userConstant .parameter => some 1
  | .userConstant _ => some 0
  | _ => none

theorem Symbol.formSize?_blank (s : Symbol) : s.blank.formSize? = s.formSize? := by
  unfold formSize? blank
  cases s.kind <;> rfl

/-- The number of positions of a map that belong to its domain. -/
def DataShape.domainArity : DataShape → Nat
  | constructor _ => 0
  | map _ _ domainArity => domainArity

namespace Table

variable {names names' : Interner} {t t' t'' : Table} {x d : SymbolId}

/-! ## Tables that differ in what is written -/

/-- The two tables have the same symbols and namespaces, and differ at most in what is written to
the symbols. -/
structure Alike (t t' : Table) : Prop where
  id_eq : t'.id = t.id
  namespaces_eq : t'.namespaces = t.namespaces
  holds : ∀ y, t'.Holds y ↔ t.Holds y
  blank : ∀ y, (t'.symbolAt y).blank = (t.symbolAt y).blank
  origin : ∀ y, (t'.symbolAt y).origin = (t.symbolAt y).origin

namespace Alike

theorem refl (t : Table) : t.Alike t := ⟨rfl, rfl, fun _ => Iff.rfl, fun _ => rfl, fun _ => rfl⟩

theorem trans (h : t.Alike t') (h' : t'.Alike t'') : t.Alike t'' where
  id_eq := h'.id_eq.trans h.id_eq
  namespaces_eq := h'.namespaces_eq.trans h.namespaces_eq
  holds y := (h'.holds y).trans (h.holds y)
  blank y := (h'.blank y).trans (h.blank y)
  origin y := (h'.origin y).trans (h.origin y)

theorem symm (h : t.Alike t') : t'.Alike t where
  id_eq := h.id_eq.symm
  namespaces_eq := h.namespaces_eq.symm
  holds y := (h.holds y).symm
  blank y := (h.blank y).symm
  origin y := (h.origin y).symm

/-- Whatever changes but the namespaces and symbols. -/
theorem of_eq (hid : t'.id = t.id) (hnamespaces : t'.namespaces = t.namespaces)
    (hsymbols : t'.symbols = t.symbols) : t.Alike t' where
  id_eq := hid
  namespaces_eq := hnamespaces
  holds y := by rw [Holds, Holds, hsymbols]
  blank y := by rw [symbolAt, symbolAt, hsymbols]
  origin y := by rw [symbolAt, symbolAt, hsymbols]

theorem updateSymbol {f : Symbol → Symbol} (hblank : ∀ s, (f s).blank = s.blank)
    (horigin : ∀ s, (f s).origin = s.origin) : t.Alike (t.updateSymbol x f) where
  id_eq := rfl
  namespaces_eq := rfl
  holds y := holds_updateSymbol
  blank y := by
    rw [symbolAt_updateSymbol]
    split
    · exact hblank _
    · rfl
  origin y := by
    rw [symbolAt_updateSymbol]
    split
    · exact horigin _
    · rfl

theorem name (h : t.Alike t') (y : SymbolId) : (t'.symbolAt y).name = (t.symbolAt y).name :=
  Symbol.name_of_blank (h.blank y)

theorem home (h : t.Alike t') (y : SymbolId) : (t'.symbolAt y).home = (t.symbolAt y).home :=
  Symbol.home_of_blank (h.blank y)

theorem arity (h : t.Alike t') (y : SymbolId) : (t'.symbolAt y).arity = (t.symbolAt y).arity :=
  Symbol.arity_of_blank (h.blank y)

theorem unsized (h : t.Alike t') (y : SymbolId) :
    (t'.kindOf y).unsized = (t.kindOf y).unsized := Symbol.kind_of_blank (h.blank y)

/-- The kind stays, unless it is a sort and its size is written. -/
theorem kindOf (h : t.Alike t') (hsort : ¬ t.IsSort x) : t'.kindOf x = t.kindOf x := by
  have hunsized := h.unsized x
  cases hkind : t.kindOf x with
  | userSort d size => exact absurd ⟨d, by rw [hkind]; rfl⟩ hsort
  | _ =>
      cases hkind' : t'.kindOf x <;> rw [hkind, hkind'] at hunsized <;>
        first | exact hunsized | cases hunsized

theorem kindOf_data (h : t.Alike t') {shape : DataShape} {info : DataInfo} :
    t'.kindOf x = .data shape info ↔ t.kindOf x = .data shape info := by
  rw [← SymbolKind.unsized_eq_data, h.unsized, SymbolKind.unsized_eq_data]

theorem dataOf? (h : t.Alike t') (y : SymbolId) : t'.dataOf? y = t.dataOf? y := by
  ext d
  rw [dataOf?_eq_some_iff, dataOf?_eq_some_iff, h.unsized]

theorem isSort (h : t.Alike t') : t'.IsSort x ↔ t.IsSort x := by
  rw [isSort_iff_dataOf?, isSort_iff_dataOf?, h.dataOf?]

theorem isConstant (h : t.Alike t') : t'.IsConstant x ↔ t.IsConstant x := by
  rw [IsConstant, IsConstant, ← isConstant_unsized, h.unsized, isConstant_unsized]

theorem isSettled (h : t.Alike t') (y : SymbolId) :
    (t'.symbolAt y).isSettled = (t.symbolAt y).isSettled :=
  Symbol.isSettled_eq (h.blank y) (h.origin y)

theorem formSize? (h : t.Alike t') (y : SymbolId) :
    (t'.symbolAt y).formSize? = (t.symbolAt y).formSize? := by
  rw [← Symbol.formSize?_blank, h.blank, Symbol.formSize?_blank]

theorem closed_values (h : t.Alike t') {v : AcceptedValues} (hv : v.Closed t) : v.Closed t' where
  sorts hx := h.isSort.2 (hv.sorts hx)
  constants hx := h.isConstant.2 (hv.constants hx)
  ranges := hv.ranges

theorem closed (h : t.Alike t') {s : Symbol} (hs : s.Closed t) : s.Closed t' where
  form hform v hv := h.closed_values (hs.form hform v hv)
  size he := ⟨(hs.size he).stable, fun hx => h.isSort.2 ((hs.size he).cards hx)⟩

theorem regular (h : t.Alike t') (ht : t.Regular names) : t'.Regular names :=
  ht.of_blank h.namespaces_eq h.holds h.blank

theorem wellFormed (h : t.Alike t') (ht : t.WellFormed names) : t'.WellFormed names where
  toRegular := h.regular ht.toRegular
  present {kind} hkind := by
    obtain ⟨y, hy, hhome, hkindOf⟩ := ht.present hkind
    refine ⟨y, (h.holds y).2 hy, (h.home y).trans hhome, (h.kindOf ?_).trans hkindOf⟩
    rintro ⟨d, hd⟩
    rw [hkindOf, SymbolKind.unsized_of_isBase hkind] at hd
    rw [hd] at hkind
    cases hkind

end Alike

/-! ## Names stand for the same -/

theorem namespaceAt_congr (h : t'.namespaces = t.namespaces) : t'.namespaceAt = t.namespaceAt := by
  funext ns
  rw [namespaceAt, namespaceAt, h]

/-- What a name stands for depends on the namespaces and on which symbols pass the filter. -/
theorem resolveId_congr {filter : Symbol → Bool} (h : t'.namespaces = t.namespaces)
    (hfilter : ∀ y, filter (t'.symbolAt y) = filter (t.symbolAt y)) (id : QualifiedId) :
    t'.resolveId id filter = t.resolveId id filter := by
  have hsearch : ∀ start qualifier (matchAt : NamespaceId → Option SymbolId),
      t'.search start qualifier matchAt = t.search start qualifier matchAt :=
    search_congr (by rw [h]) fun ns => by rw [namespaceAt_congr h]
  unfold resolveId resolveSymbol searchPreferring
  simp only [hsearch, namespaceAt_congr h, hfilter]

theorem Alike.resolveId_type (h : t.Alike t') (id : QualifiedId) :
    t'.resolveId id typeDefining = t.resolveId id typeDefining := by
  refine resolveId_congr h.namespaces_eq (fun y => ?_) id
  have hunsized : ∀ kind : SymbolKind, kind.unsized.isTypeDefining = kind.isTypeDefining := by
    intro kind
    cases kind <;> rfl
  have hsame := congrArg SymbolKind.isTypeDefining (h.unsized y)
  rwa [hunsized, hunsized] at hsame

theorem Alike.resolveId_any (h : t.Alike t') (id : QualifiedId) :
    t'.resolveId id anySymbol = t.resolveId id anySymbol :=
  resolveId_congr h.namespaces_eq (fun _ => rfl) id

/-! ## Intact tables -/

/-- What a data symbol has for its positions. -/
structure Outfitted (t : Table) (d : SymbolId) (shape : DataShape) (info : DataInfo) : Prop where
  labels : info.labels.length = (t.symbolAt d).arity
  any : info.any.length = (t.symbolAt d).arity
  domain : shape.domainArity ≤ (t.symbolAt d).arity
  form_eq : (t.symbolAt info.sort).canonical = (t.symbolAt d).canonical

/-- Nothing in the table dangles, whatever errors it has. -/
structure Intact (names : Interner) (t : Table) : Prop where
  formed : t.WellFormed names
  closed : ∀ {x}, t.Holds x → (t.symbolAt x).Closed t
  form : ∀ {x form}, t.Holds x → ¬ t.IsSort x → (t.symbolAt x).canonical = some form →
    (t.symbolAt x).formSize? = some form.size
  data : ∀ {d shape info}, t.kindOf d = .data shape info → t.Outfitted d shape info

theorem Intact.grown (h : t.Intact names) (hnames : names.Grown names') (hproper : names'.Proper) :
    t.Intact names' where
  formed := h.formed.grown hnames hproper
  closed := h.closed
  form := h.form
  data := h.data

/-- What is written fits. -/
theorem Intact.revised (h : t.Intact names) (halike : t.Alike t')
    (hclosed : ∀ {x}, t.Holds x → (t'.symbolAt x).Closed t)
    (hform : ∀ {x form}, t.Holds x → ¬ t.IsSort x → (t'.symbolAt x).canonical = some form →
      (t.symbolAt x).formSize? = some form.size)
    (hdata : ∀ {d shape info}, t.kindOf d = .data shape info →
      (t'.symbolAt info.sort).canonical = (t'.symbolAt d).canonical) : t'.Intact names where
  formed := halike.wellFormed h.formed
  closed {x} hx := halike.closed (hclosed ((halike.holds x).1 hx))
  form {x form} hx hsort hcanonical := by
    rw [halike.formSize?]
    exact hform ((halike.holds x).1 hx) (fun hx => hsort (halike.isSort.2 hx)) hcanonical
  data {d shape info} hd := by
    have hd' := halike.kindOf_data.1 hd
    have houtfitted := h.data hd'
    refine ⟨?_, ?_, ?_, hdata hd'⟩
    · rw [halike.arity]
      exact houtfitted.labels
    · rw [halike.arity]
      exact houtfitted.any
    · rw [halike.arity]
      exact houtfitted.domain

/-- Only namespaces are added. -/
theorem Intact.of_symbols (h : t.Intact names) (hsymbols : t'.symbols = t.symbols)
    (hlater : t.Later t') (hregular : t'.Regular names') : t'.Intact names' := by
  have hat : ∀ x, t'.symbolAt x = t.symbolAt x := fun x => by rw [symbolAt, symbolAt, hsymbols]
  have hholds : ∀ {x}, t'.Holds x → t.Holds x := fun {x} hx => by
    rw [Holds, ← hsymbols]
    exact hx
  refine ⟨h.formed.later hlater hregular, fun {x} hx => ?_, fun {x form} hx hsort hform => ?_,
    fun {d shape info} hd => ?_⟩
  · rw [hat]
    exact (h.closed (hholds hx)).later hlater
  · rw [hat] at hform ⊢
    exact h.form (hholds hx) (fun hsort' => hsort (hlater.isSort hsort')) hform
  · rw [kindOf, hat] at hd
    obtain ⟨hlabels, hany, hdomain, hform⟩ := h.data hd
    refine ⟨?_, ?_, ?_, ?_⟩
    · rw [hat]
      exact hlabels
    · rw [hat]
      exact hany
    · rw [hat]
      exact hdomain
    · rw [hat, hat]
      exact hform

/-- Nothing is written but reports, marks and the like. -/
theorem Intact.unwritten (h : t.Intact names) (halike : t.Alike t')
    (hcanonical : ∀ y, (t'.symbolAt y).canonical = (t.symbolAt y).canonical)
    (hsize : ∀ y, (t'.symbolAt y).size? = (t.symbolAt y).size?) : t'.Intact names := by
  refine h.revised halike (fun {x} hx => ⟨fun hform => ?_, fun he => ?_⟩)
    (fun {x form} hx hsort hform => ?_) fun {d shape info} hd => ?_
  · rw [hcanonical] at hform
    exact (h.closed hx).form hform
  · rw [hsize] at he
    exact (h.closed hx).size he
  · rw [hcanonical] at hform
    exact h.form hx hsort hform
  · rw [hcanonical, hcanonical]
    exact (h.data hd).form_eq

end Table

/-- Nothing in the table of the draft dangles. -/
def Draft.Intact (d : Draft) : Prop := d.table.Intact d.names

end ManySorted
