import ManySorted.Declaration.Form
import ManySorted.Proofs.Draft.Run
import ManySorted.Proofs.Import.Provenance
import ManySorted.Proofs.Sizing.Amount

/-!
# Declaring symbols

While a module declares its symbols, its table stays sound: whatever is written to a symbol speaks
of sorts and constants that are there, constants have forms without positions, and a data symbol
has the same form as its sort, with as many positions as arguments.  New symbols are the module's
own and live in the root (`Table.Extends`).

## Strategy

* **Later.**  Whatever is declared, the table that was there before is an earlier one
  (`Table.Extends`), so what was closed stays closed.
* **Adding.**  Nothing is written to a new symbol (`Table.added_withSymbol`,
  `Table.added_withData`), so the table stays sound (`Table.Sound.added`).
* **Writing.**  What is written to a symbol of the module is in order (`Table.Revised`), so the
  table stays sound (`Table.Sound.written`); this covers forms of single symbols, forms that a data
  symbol shares with its sort, and sizes.
-/

namespace ManySorted

namespace Table

variable {names names' : Interner} {tables : List Table} {t t' t'' : Table} {x d : SymbolId}
  {info : DataInfo}

/-- The module itself declares the symbol. -/
structure Owns (t : Table) (x : SymbolId) : Prop where
  holds : t.Holds x
  unsettled : (t.symbolAt x).isSettled = false

theorem Owns.later (h : t.Owns x) (hlater : t.Later t') : t'.Owns x where
  holds := hlater.holds h.holds
  unsettled := by
    have hsymbol := hlater.symbol h.holds
    rw [Symbol.isSettled_eq hsymbol.blank_eq hsymbol.origin_eq, h.unsettled]

theorem owns_of_origin (hx : t.Holds x) (horigin : (t.symbolAt x).origin = none)
    (hbase : (t.kindOf x).isBase = false) : t.Owns x where
  holds := hx
  unsettled := by
    rw [Symbol.isSettled, Symbol.isImported, horigin, show (t.symbolAt x).kind.isBase = false
      from hbase]
    rfl

theorem Owns.origin (h : t.Owns x) : (t.symbolAt x).origin = none := by
  have himported := (Bool.or_eq_false_iff.1 h.unsettled).1
  rwa [Symbol.isImported, Option.isSome_eq_false_iff, Option.isNone_iff_eq_none] at himported

/-- A data symbol of the module has the form of its sort, with a position for every argument. -/
structure Paired (t : Table) (d : SymbolId) (info : DataInfo) : Prop where
  owns_sort : t.Owns info.sort
  form_eq : (t.symbolAt info.sort).canonical = (t.symbolAt d).canonical
  size_eq : ∀ {form}, (t.symbolAt d).canonical = some form → form.size = (t.symbolAt d).arity

/-- What the module has declared so far is in order. -/
structure Sound (names : Interner) (t : Table) : Prop where
  regular : t.Regular names
  closed : ∀ {x}, t.Holds x → (t.symbolAt x).Closed t
  unfailed : ∀ {x}, t.Holds x → (t.symbolAt x).failed = false
  plain : ∀ {x kind form}, t.kindOf x = .userConstant kind → kind ≠ .parameter →
    (t.symbolAt x).canonical = some form → form = {}
  imported : ∀ {x kind}, t.kindOf x = .userConstant kind → kind ≠ .parameter →
    (t.symbolAt x).isImported = true → (t.symbolAt x).canonical = some {}
  paired : ∀ {d shape info}, t.kindOf d = .data shape info → t.Owns d → t.Paired d info
  owns_data : ∀ {s d}, (t.kindOf s).unsized = .userSort d none → t.Owns s → t.Owns d
  bounded : ∀ {s e}, t.Owns s → (t.symbolAt s).size? = some e → t.Bounds s e

/-- The table later in the declarations of its module. -/
structure Extends (t t' : Table) : Prop where
  later : t.Later t'
  new : ∀ {x}, t'.Holds x → ¬ t.Holds x → (t'.symbolAt x).origin = none ∧
    (t'.symbolAt x).home = .root ∧ (t'.kindOf x).isBase = false
  nullary : ∀ {x}, t'.Holds x → ¬ t.Holds x → (t'.kindOf x).isConstant = true →
    (t'.symbolAt x).arity = 0
  size_eq : t'.namespaces.size = t.namespaces.size

namespace Extends

theorem refl (t : Table) : t.Extends t where
  later := .refl t
  new hx hnew := absurd hx hnew
  nullary hx hnew := absurd hx hnew
  size_eq := rfl

theorem trans (h : t.Extends t') (h' : t'.Extends t'') : t.Extends t'' where
  later := h.later.trans h'.later
  new {x} hx hnew := by
    by_cases hx' : t'.Holds x
    · obtain ⟨horigin, hhome, hbase⟩ := h.new hx' hnew
      refine ⟨(h'.later.symbol hx').origin_eq.trans horigin,
        (h'.later.home_symbolAt hx').trans hhome, ?_⟩
      rw [← SymbolKind.isBase_unsized, h'.later.unsized_kindOf hx', SymbolKind.isBase_unsized,
        hbase]
    · exact h'.new hx hx'
  nullary {x} hx hnew hconstant := by
    by_cases hx' : t'.Holds x
    · rw [h'.later.arity_symbolAt hx']
      apply h.nullary hx' hnew
      rwa [← isConstant_unsized, ← h'.later.unsized_kindOf hx', isConstant_unsized]
    · exact h'.nullary hx hx' hconstant
  size_eq := h'.size_eq.trans h.size_eq

end Extends

/-! ## Symbols that are added -/

/-- New symbols have nothing written to them. -/
structure Added (t t' : Table) : Prop where
  later : t.Later t'
  same : ∀ {x}, t.Holds x → t'.symbolAt x = t.symbolAt x
  bare : ∀ {x}, t'.Holds x → ¬ t.Holds x → (t'.symbolAt x).Bare
  origin : ∀ {x}, t'.Holds x → ¬ t.Holds x → (t'.symbolAt x).origin = none
  home : ∀ {x}, t'.Holds x → ¬ t.Holds x → (t'.symbolAt x).home = .root
  declared : ∀ {x}, t'.Holds x → ¬ t.Holds x → (t'.kindOf x).isBase = false
  nullary : ∀ {x}, t'.Holds x → ¬ t.Holds x → (t'.kindOf x).isConstant = true →
    (t'.symbolAt x).arity = 0
  size_eq : t'.namespaces.size = t.namespaces.size

theorem Added.owns (h : t.Added t') (hx : t'.Holds x) (hnew : ¬ t.Holds x) : t'.Owns x :=
  owns_of_origin hx (h.origin hx hnew) (h.declared hx hnew)

theorem Added.extends (h : t.Added t') : t.Extends t' where
  later := h.later
  new hx hnew := ⟨h.origin hx hnew, h.home hx hnew, h.declared hx hnew⟩
  nullary := h.nullary
  size_eq := h.size_eq

theorem Sound.added (hsound : t.Sound names) (h : t.Added t') (hregular : t'.Regular names') :
    t'.Sound names' where
  regular := hregular
  closed {x} hx := by
    by_cases hx' : t.Holds x
    · rw [h.same hx']
      exact (hsound.closed hx').later h.later
    · exact (h.bare hx hx').closed t'
  unfailed {x} hx := by
    by_cases hx' : t.Holds x
    · rw [h.same hx', hsound.unfailed hx']
    · exact (h.bare hx hx').unfailed
  plain {x kind form} hkind hvalue hform := by
    by_cases hx' : t.Holds x
    · rw [kindOf, h.same hx'] at hkind
      exact hsound.plain hkind hvalue (h.same hx' ▸ hform)
    · cases hform.symm.trans (h.bare (holds_of_constant hkind) hx').canonical
  imported {x kind} hkind hvalue himported := by
    by_cases hx' : t.Holds x
    · rw [kindOf, h.same hx'] at hkind
      rw [h.same hx'] at himported ⊢
      exact hsound.imported hkind hvalue himported
    · rw [Symbol.isImported, h.origin (holds_of_constant hkind) hx'] at himported
      cases himported
  paired {d shape info} hd howns := by
    by_cases hd' : t.Holds d
    · have hold : t.kindOf d = .data shape info := by rwa [kindOf, h.same hd'] at hd
      have hpaired := hsound.paired hold ⟨hd', h.same hd' ▸ howns.unsettled⟩
      have hsort := (hsound.regular.families.data hold).holds_sort
      refine ⟨hpaired.owns_sort.later h.later, ?_, ?_⟩
      · rw [h.same hsort, h.same hd', hpaired.form_eq]
      · rw [h.same hd']
        exact hpaired.size_eq
    · -- the sort of a new data symbol is new as well
      have hfamily := hregular.families.data hd
      have hsort : ¬ t.Holds info.sort := by
        intro hsort
        have hkind : (t.kindOf info.sort).unsized = .userSort d none := by
          rw [← hfamily.sort_kind, kindOf, kindOf, h.same hsort]
        obtain ⟨shape, info, hdata, _⟩ := hsound.regular.families.sort hkind
        exact hd' (holds_of_data hdata)
      have hbare := h.bare howns.holds hd'
      refine ⟨h.owns hfamily.holds_sort hsort, ?_,
        fun hform => by cases hform.symm.trans hbare.canonical⟩
      rw [hbare.canonical, (h.bare hfamily.holds_sort hsort).canonical]
  owns_data {s d} hs howns := by
    by_cases hs' : t.Holds s
    · have hold : (t.kindOf s).unsized = .userSort d none := by rwa [kindOf, h.same hs'] at hs
      exact (hsound.owns_data hold ⟨hs', h.same hs' ▸ howns.unsettled⟩).later h.later
    · -- the data symbol of a new sort is new as well
      obtain ⟨shape, info, hd, hsort⟩ := hregular.families.sort hs
      refine h.owns (holds_of_data hd) fun hd' => hs' ?_
      have hold : t.kindOf d = .data shape info := by rwa [kindOf, h.same hd'] at hd
      exact hsort ▸ (hsound.regular.families.data hold).holds_sort
  bounded {s e} howns he := by
    by_cases hs : t.Holds s
    · rw [h.same hs] at he
      exact (hsound.bounded ⟨hs, h.same hs ▸ howns.unsettled⟩ he).later h.later
    · cases he.symm.trans (h.bare howns.holds hs).size

theorem added_withSymbol {name : Name} {arity : Nat} {location : Location} {kind : SymbolKind}
    (hroot : t.HasNamespace .root) (hfree : (t.namespaceAt .root).symbol? name = none)
    (hbase : kind.isBase = false) (hcompanion : kind.isCompanion = false)
    (hnullary : kind.isConstant = true → arity = 0) :
    t.Added (t.withSymbol .root name arity location kind) := by
  have hnew : ∀ {x}, (t.withSymbol .root name arity location kind).Holds x → ¬ t.Holds x →
      (t.withSymbol .root name arity location kind).symbolAt x =
        { id := x, name, home := .root, arity, location, kind } := by
    intro x hx hnew
    rw [symbolAt_withSymbol, if_pos]
    exact Nat.le_antisymm (holds_withSymbol.1 hx) (Nat.le_of_not_lt hnew)
  refine ⟨later_withSymbol hroot (.inr hfree), fun {x} hx => ?_, fun {x} hx hx' => ?_,
    fun {x} hx hx' => ?_, fun {x} hx hx' => ?_, fun {x} hx hx' => ?_,
    fun {x} hx hx' hconstant => ?_, size_withSymbol⟩
  · rw [symbolAt_withSymbol, if_neg (Nat.ne_of_lt hx)]
  · rw [hnew hx hx']
    refine ⟨rfl, ?_, rfl⟩
    cases kind <;> first | rfl | cases hcompanion
  · rw [hnew hx hx']
  · rw [hnew hx hx']
  · rw [kindOf, hnew hx hx']
    exact hbase
  · rw [kindOf, hnew hx hx'] at hconstant
    rw [hnew hx hx']
    exact hnullary hconstant

theorem added_withData {hashed name : Name} {arity : Nat} {location : Location}
    {shape : DataShape} {labels : List (Option Name)} {any : List Bool}
    (hroot : t.HasNamespace .root) (hfree : (t.namespaceAt .root).symbol? name = none)
    (hdata : DataRegistered names t .root name hashed names') :
    t.Added (t.withData hashed .root name arity location shape labels any) := by
  have hcases : ∀ {x}, (t.withData hashed .root name arity location shape labels any).Holds x →
      ¬ t.Holds x →
      ((t.withData hashed .root name arity location shape labels any).symbolAt x).Bare ∧
      ((t.withData hashed .root name arity location shape labels any).symbolAt x).origin = none ∧
      ((t.withData hashed .root name arity location shape labels any).symbolAt x).home = .root ∧
      ((t.withData hashed .root name arity location shape labels any).kindOf x).isBase = false ∧
      (((t.withData hashed .root name arity location shape labels any).kindOf x).isConstant = true →
        ((t.withData hashed .root name arity location shape labels any).symbolAt x).arity = 0) := by
    intro x hx hnew
    rcases holds_withData_cases hx with rfl | rfl | rfl | hx
    · rw [kindOf, symbolAt_withData, if_pos rfl]
      exact ⟨⟨rfl, rfl, rfl⟩, rfl, rfl, rfl, fun h => by cases h⟩
    · rw [kindOf, symbolAt_withData, if_neg (Nat.succ_ne_self _), if_pos rfl]
      exact ⟨⟨rfl, rfl, rfl⟩, rfl, rfl, rfl, fun h => by cases h⟩
    · rw [kindOf, symbolAt_withData, if_neg (by simp), if_neg (by simp), if_pos rfl]
      exact ⟨⟨rfl, rfl, rfl⟩, rfl, rfl, rfl, fun _ => rfl⟩
    · exact absurd hx hnew
  exact ⟨later_withData hroot hdata.ne hfree hdata.free, symbolAt_withData_of_holds,
    fun hx hnew => (hcases hx hnew).1, fun hx hnew => (hcases hx hnew).2.1,
    fun hx hnew => (hcases hx hnew).2.2.1, fun hx hnew => (hcases hx hnew).2.2.2.1,
    fun hx hnew => (hcases hx hnew).2.2.2.2, size_withData⟩

/-! ## Forms and sizes that are written -/

/-- What is written to a symbol of the module is in order. -/
structure Revised (t : Table) (x : SymbolId) (s' : Symbol) : Prop where
  owns : t.Owns x
  later : (t.symbolAt x).Later s'
  failed_eq : s'.failed = (t.symbolAt x).failed
  closed : s'.Closed t
  plain : ∀ {kind form}, t.kindOf x = .userConstant kind → kind ≠ .parameter →
    s'.canonical = some form → form = {}
  bounded : ∀ {e}, s'.size? = some e → t.Bounds x e

/-- Some symbols of the module were revised. -/
structure Written (ids : List SymbolId) (t t' : Table) : Prop where
  touched : Touched ids t t'
  revised : ∀ x ∈ ids, t.Revised x (t'.symbolAt x)
  paired : ∀ {d shape info}, t.kindOf d = .data shape info → t.Owns d → t'.Paired d info

theorem Written.extends {ids : List SymbolId} (h : t.Written ids t') : t.Extends t' := by
  have hnode : ∀ ns, t'.namespaceAt ns = t.namespaceAt ns := fun ns => by
    rw [namespaceAt, namespaceAt, h.touched.namespaces_eq]
  refine ⟨⟨h.touched.id_eq, fun hns => ?_, fun _ => by rw [hnode], fun _ => by rw [hnode],
    fun hc => by rwa [hnode], fun hs => by rwa [hnode], fun hx => (h.touched.holds _).2 hx,
    fun {x} _ => ?_⟩, fun {x} hx hnew => absurd ((h.touched.holds x).1 hx) hnew,
    fun {x} hx hnew => absurd ((h.touched.holds x).1 hx) hnew, by rw [h.touched.namespaces_eq]⟩
  · rwa [HasNamespace, h.touched.namespaces_eq]
  · by_cases hids : x ∈ ids
    · exact (h.revised x hids).later
    · rw [h.touched.same hids]
      exact .refl _

theorem Sound.written {ids : List SymbolId} (hsound : t.Sound names) (h : t.Written ids t') :
    t'.Sound names := by
  have hlater := h.extends.later
  have hheld : ∀ {x}, t'.Holds x → t.Holds x := fun hx => (h.touched.holds _).1 hx
  have hconstant : ∀ {x kind}, t'.kindOf x = .userConstant kind →
      t.kindOf x = .userConstant kind := by
    intro x kind hkind
    have hsame := hlater.unsized_kindOf (hheld (holds_of_constant hkind))
    rw [hkind] at hsame
    exact SymbolKind.unsized_eq_userConstant.1 hsame.symm
  have howned : ∀ {x}, t'.Owns x → t.Owns x := by
    intro x howns
    have hsymbol := hlater.symbol (hheld howns.holds)
    refine ⟨hheld howns.holds, ?_⟩
    rw [← Symbol.isSettled_eq hsymbol.blank_eq hsymbol.origin_eq, howns.unsettled]
  refine ⟨hsound.regular.touched h.touched, fun {x} hx => ?_, fun {x} hx => ?_,
    fun {x kind form} hkind hvalue hform => ?_, fun {x kind} hkind hvalue himported => ?_,
    fun {d shape info} hd howns => ?_, fun {s d} hs howns => ?_, fun {s e} howns he => ?_⟩
  · by_cases hids : x ∈ ids
    · exact (h.revised x hids).closed.later hlater
    · rw [h.touched.same hids]
      exact (hsound.closed (hheld hx)).later hlater
  · by_cases hids : x ∈ ids
    · rw [(h.revised x hids).failed_eq, hsound.unfailed (hheld hx)]
    · rw [h.touched.same hids, hsound.unfailed (hheld hx)]
  · by_cases hids : x ∈ ids
    · exact (h.revised x hids).plain (hconstant hkind) hvalue hform
    · rw [h.touched.same hids] at hform
      exact hsound.plain (hconstant hkind) hvalue hform
  · have hx := hheld (holds_of_constant hkind)
    rw [Symbol.isImported, (hlater.symbol hx).origin_eq] at himported
    exact (hlater.symbol hx).canonical (hsound.imported (hconstant hkind) hvalue himported)
  · have hsame := hlater.unsized_kindOf (hheld howns.holds)
    rw [hd] at hsame
    exact h.paired (SymbolKind.unsized_eq_data.1 hsame.symm) (howned howns)
  · have hsame := hlater.unsized_kindOf (hheld howns.holds)
    rw [hs] at hsame
    exact (hsound.owns_data hsame.symm (howned howns)).later hlater
  · by_cases hids : s ∈ ids
    · exact ((h.revised s hids).bounded he).later hlater
    · rw [h.touched.same hids] at he
      exact (hsound.bounded (howned howns) he).later hlater

theorem later_withForm {s : Symbol} {form : CanonicalForm} (hunsettled : s.isSettled = false)
    (hnone : s.canonical = none) : s.Later { s with canonical := some form } where
  blank_eq := rfl
  origin_eq := rfl
  settled hsettled := absurd (hsettled.symm.trans hunsettled) Bool.noConfusion
  canonical hform := by cases hform.symm.trans hnone
  size he := he

theorem Owns.revised_form (howns : t.Owns x) (hsound : t.Sound names) {form : CanonicalForm}
    (hnone : (t.symbolAt x).canonical = none) (hform : form.Closed t)
    (hplain : ∀ kind, t.kindOf x = .userConstant kind → kind ≠ .parameter → form = {}) :
    t.Revised x { t.symbolAt x with canonical := some form } where
  owns := howns
  later := later_withForm howns.unsettled hnone
  failed_eq := rfl
  closed := ⟨fun heq => Option.some.inj heq ▸ hform, (hsound.closed howns.holds).size⟩
  plain hkind hvalue heq := Option.some.inj heq ▸ hplain _ hkind hvalue
  bounded he := hsound.bounded howns he

/-- Writing the form of a symbol that is neither a data symbol nor a sort. -/
theorem Sound.written_setCanonical (hsound : t.Sound names) {form : CanonicalForm}
    (h : t.setCanonical x form = .ok t') (howns : t.Owns x) (hform : form.Closed t)
    (hdata : (t.kindOf x).isData = false) (hsort : ¬ t.IsSort x)
    (hplain : ∀ kind, t.kindOf x = .userConstant kind → kind ≠ .parameter → form = {}) :
    t.Written [x] t' := by
  obtain ⟨htouched, hnone, hat⟩ := touched_setCanonical h howns.holds
  refine ⟨htouched, List.forall_mem_singleton.2 ?_, fun {d shape info} hd howns => ?_⟩
  · rw [hat]
    exact howns.revised_form hsound hnone hform hplain
  · have hpaired := hsound.paired hd howns
    have hd' : d ∉ [x] := fun hmem => by
      rw [← List.mem_singleton.1 hmem, hd] at hdata
      cases hdata
    have hsort' : info.sort ∉ [x] := fun hmem => by
      rw [← List.mem_singleton.1 hmem] at hsort
      exact hsort ⟨d, (hsound.regular.families.data hd).sort_kind⟩
    refine ⟨⟨(htouched.holds _).2 hpaired.owns_sort.holds, ?_⟩, ?_, ?_⟩
    · rw [htouched.same hsort', hpaired.owns_sort.unsettled]
    · rw [htouched.same hsort', htouched.same hd', hpaired.form_eq]
    · rw [htouched.same hd']
      exact hpaired.size_eq

/-- Writing the form of a data symbol and of its sort. -/
theorem Sound.written_writeForm (hsound : t.Sound names) {shape : DataShape} {form : CanonicalForm}
    (h : t.writeForm d form = .ok t') (hd : t.kindOf d = .data shape info) (howns : t.Owns d)
    (hform : form.Closed t) (hsize : form.size = (t.symbolAt d).arity) :
    t.Written [info.sort, d] t' := by
  have hpaired := hsound.paired hd howns
  have hkind := (hsound.regular.families.data hd).sort_kind
  have hne : d ≠ info.sort := by
    intro heq
    rw [← heq, hd] at hkind
    cases hkind
  rw [writeForm, hd] at h
  obtain ⟨t₁, h₁, h₂⟩ := except_bind_eq_ok.1 h
  obtain ⟨htouched₁, hnone₁, hat₁⟩ := touched_setCanonical h₁ hpaired.owns_sort.holds
  obtain ⟨htouched₂, hnone₂, hat₂⟩ := touched_setCanonical h₂ ((htouched₁.holds _).2 howns.holds)
  have hsame : t₁.symbolAt d = t.symbolAt d := htouched₁.same (by simpa using hne)
  have hsort : t'.symbolAt info.sort = t₁.symbolAt info.sort :=
    htouched₂.same (by simpa using hne.symm)
  rw [hat₁] at hsort
  rw [hsame] at hat₂ hnone₂
  have htouched : Touched [info.sort, d] t t' :=
    (htouched₁.mono (by simp)).trans (htouched₂.mono (by simp))
  refine ⟨htouched, List.forall_mem_cons.2 ⟨?_, List.forall_mem_singleton.2 ?_⟩, ?_⟩
  · rw [hsort]
    refine hpaired.owns_sort.revised_form hsound hnone₁ hform fun kind hconstant => ?_
    rw [hconstant] at hkind
    cases hkind
  · rw [hat₂]
    refine howns.revised_form hsound hnone₂ hform fun kind hconstant => ?_
    cases hd.symm.trans hconstant
  · -- data and sorts are paired, as no other sort is written
    intro d' shape' info' hd' howns'
    by_cases heq : d' = d
    · obtain rfl := heq
      rw [hd] at hd'
      cases hd'
      refine ⟨⟨(htouched.holds _).2 hpaired.owns_sort.holds, ?_⟩, ?_, ?_⟩
      · rw [hsort]
        exact hpaired.owns_sort.unsettled
      · rw [hsort, hat₂]
      · rw [hat₂]
        exact fun heq => Option.some.inj heq ▸ hsize
    · have hpaired' := hsound.paired hd' howns'
      have hkind' := (hsound.regular.families.data hd').sort_kind
      have hother : d' ∉ [info.sort, d] := by
        simp only [List.mem_cons, List.not_mem_nil, or_false, not_or]
        refine ⟨?_, heq⟩
        rintro rfl
        rw [hd'] at hkind
        cases hkind
      have hother' : info'.sort ∉ [info.sort, d] := by
        simp only [List.mem_cons, List.not_mem_nil, or_false, not_or]
        refine ⟨fun hsame => heq ?_, ?_⟩
        · rw [hsame, hkind] at hkind'
          exact (SymbolKind.userSort.inj hkind').1.symm
        · rintro hsame
          rw [hsame, hd] at hkind'
          cases hkind'
      refine ⟨⟨(htouched.holds _).2 hpaired'.owns_sort.holds, ?_⟩, ?_, ?_⟩
      · rw [htouched.same hother', hpaired'.owns_sort.unsettled]
      · rw [htouched.same hother, htouched.same hother', hpaired'.form_eq]
      · rw [htouched.same hother]
        exact hpaired'.size_eq

/-- Writing the size of a sort. -/
theorem Sound.written_setSize (hsound : t.Sound names) {e : SizeExpr}
    (h : t.setSize x e = .ok t') (howns : t.Owns x) (he : e.Closed t) (hbounds : t.Bounds x e) :
    t.Written [x] t' := by
  obtain ⟨data, htouched, hkind, hat⟩ := touched_setSize h howns.holds
  have hcanonical : ∀ y, (t'.symbolAt y).canonical = (t.symbolAt y).canonical := by
    intro y
    by_cases hy : y = x
    · rw [hy, hat]
    · rw [htouched.same (by simpa using hy)]
  refine ⟨htouched, List.forall_mem_singleton.2
    ⟨howns, ⟨htouched.blank x, ?_, fun hsettled => ?_, ?_,
    fun hsize => ?_⟩, ?_, ?_, fun hconstant => ?_, fun hsize => ?_⟩,
    fun {d shape info} hd howns => ?_⟩
  · rw [hat]
  · exact absurd (hsettled.symm.trans howns.unsettled) Bool.noConfusion
  · rw [hcanonical]
    exact fun h => h
  · rw [Symbol.size?, show (t.symbolAt x).kind = .userSort data none from hkind] at hsize
    cases hsize
  · rw [hat]
  · rw [hat]
    exact ⟨(hsound.closed howns.holds).form, fun heq => Option.some.inj heq ▸ he⟩
  · cases hkind.symm.trans hconstant
  · rw [hat] at hsize
    exact Option.some.inj hsize ▸ hbounds
  · have hpaired := hsound.paired hd howns
    refine ⟨⟨(htouched.holds _).2 hpaired.owns_sort.holds, ?_⟩, ?_, ?_⟩
    · rw [Symbol.isSettled_eq (htouched.blank _), hpaired.owns_sort.unsettled]
      by_cases hsort : info.sort = x
      · rw [hsort, hat]
      · rw [htouched.same (by simpa using hsort)]
    · rw [hcanonical, hcanonical, hpaired.form_eq]
    · rw [hcanonical, Symbol.arity_of_blank (htouched.blank d)]
      exact hpaired.size_eq

end Table

end ManySorted
