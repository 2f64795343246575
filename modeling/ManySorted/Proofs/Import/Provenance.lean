import ManySorted.Proofs.Import.Embedding
import ManySorted.Proofs.Sizing.Amount

/-!
# Where imported symbols come from

Every imported symbol goes back to a declaration of a table that was checked before, and around the
symbol that whole table is embedded.  Only the constants that merge in the root stand alone; their
forms have no positions.  This is the invariant that lets two copies of one declaration be used for
one another: both are surrounded by copies of what the declaration speaks of.  A copy of a data
symbol has copies of its companions: its sort and the constant for its type are those that stand for
the sort and the constant of the original (`Table.Embedding.data`).

## Strategy

* **Sources.**  An origin tells the table and the symbol that it goes back to, and identities tell
  tables apart (`Archive.source_unique`).
* **Growth.**  Symbols that are added are the module's own, so nothing new has to be traced back
  (`Table.Provenance.later`).
* **Copies.**  What a copy speaks of is what stands for what the original speaks of, so it is closed
  if the original is (`Table.Embedding.closed`), and companions of copies are copies
  (`Table.Embedding.data`).
-/

namespace ManySorted

/-- The table in which an origin was declared. -/
structure Source (tables : List Table) (o : Origin) (source : Table) : Prop where
  mem : source ∈ tables
  valid : source.isValid = true
  id_eq : source.id = o.table
  holds : source.Holds o.symbol
  own : (source.symbolAt o.symbol).origin = none

namespace Table

variable {names names' : Interner} {tables : List Table} {t t' : Table} {x : SymbolId}

/-- Every imported symbol goes back to one of the tables. -/
structure Provenance (tables : List Table) (t : Table) : Prop where
  own_home : ∀ {x}, t.Holds x → (t.symbolAt x).origin = none → (t.symbolAt x).home = .root
  origin : ∀ {x o}, t.Holds x → (t.symbolAt x).origin = some o →
    ∃ source, Source tables o source ∧ (source.kindOf o.symbol).outline = (t.kindOf x).outline ∧
      (source.symbolAt o.symbol).arity = (t.symbolAt x).arity
  embedded : ∀ {x o}, t.Holds x → (t.symbolAt x).origin = some o →
    (t.kindOf x).mergesIntoRoot = false →
    ∃ source ρ, Source tables o source ∧ source.Embedding t (t.symbolAt x).home ρ ∧
      source.Copies t ρ o.symbol x ∧
      source.relocate? t (t.symbolAt x).home o.symbol = some x
  merged : ∀ {x}, t.Holds x → (t.symbolAt x).isImported = true →
    (t.kindOf x).mergesIntoRoot = true → (t.symbolAt x).canonical = some {}
  bare : ∀ {x}, t.Holds x → (t.kindOf x).isBase = true → (t.symbolAt x).canonical = none

/-- What may be relied on in a valid table of a session. -/
structure Trusted (names : Interner) (tables : List Table) (t : Table) : Prop where
  formed : t.WellFormed names
  provenance : t.Provenance tables
  own_closed : ∀ {x}, t.Holds x → (t.symbolAt x).origin = none → (t.symbolAt x).Closed t
  constants : ∀ {x kind}, t.kindOf x = .userConstant kind → kind ≠ .parameter →
    (t.symbolAt x).canonical = some {}
  own_bounded : ∀ {x e}, t.Holds x → (t.symbolAt x).origin = none →
    (t.symbolAt x).size? = some e → t.Bounds x e

/-- The valid tables may be relied on, and their identities tell them apart. -/
structure Archive (names : Interner) (tables : List Table) : Prop where
  trusted : ∀ {t}, t ∈ tables → t.isValid = true → t.Trusted names tables
  unique : ∀ {t t'}, t ∈ tables → t' ∈ tables → t.id = t'.id → t = t'

theorem Archive.source_unique (h : Archive names tables) {o : Origin} {source source' : Table}
    (hs : Source tables o source) (hs' : Source tables o source') : source = source' :=
  h.unique hs.mem hs'.mem (hs.id_eq.trans hs'.id_eq.symm)

theorem Trusted.merging (h : t.Trusted names tables)
    (hmerges : (t.kindOf x).mergesIntoRoot = true) : (t.symbolAt x).canonical = some {} := by
  cases hkind : t.kindOf x with
  | userConstant kind =>
      refine h.constants hkind ?_
      rintro rfl
      rw [hkind] at hmerges
      cases hmerges
  | _ =>
      rw [hkind] at hmerges
      cases hmerges

/-! ## Growth -/

theorem Trusted.grown (h : t.Trusted names tables) (hnames : names.Grown names')
    (hproper : names'.Proper) : t.Trusted names' tables :=
  { h with formed := h.formed.grown hnames hproper }

/-- Names are only read, so more of them change nothing. -/
theorem Archive.grown (h : Archive names tables) (hnames : names.Grown names')
    (hproper : names'.Proper) : Archive names' tables where
  trusted ht hvalid := (h.trusted ht hvalid).grown hnames hproper
  unique := h.unique

/-- Symbols that are added later are the module's own, so nothing new has to be traced back. -/
theorem Provenance.later (h : t.Provenance tables) (hlater : t.Later t')
    (hnew : ∀ x, t'.Holds x → ¬ t.Holds x → (t'.symbolAt x).origin = none ∧
      (t'.symbolAt x).home = .root ∧ (t'.kindOf x).isBase = false) : t'.Provenance tables := by
  have hold : ∀ {x}, t'.Holds x → (t'.symbolAt x).isImported = true →
      t.Holds x ∧ t'.symbolAt x = t.symbolAt x := by
    intro x hx himported
    by_cases hx' : t.Holds x
    · refine ⟨hx', (hlater.symbol hx').settled ?_⟩
      rw [Symbol.isImported, (hlater.symbol hx').origin_eq] at himported
      rw [Symbol.isSettled, Symbol.isImported, himported, Bool.true_or]
    · rw [Symbol.isImported, (hnew x hx hx').1] at himported
      cases himported
  have himported : ∀ {x o}, (t'.symbolAt x).origin = some o → (t'.symbolAt x).isImported = true :=
    fun h => by rw [Symbol.isImported, h]; rfl
  refine ⟨fun {x} hx horigin => ?_, fun {x o} hx horigin => ?_, fun {x o} hx horigin hmerges => ?_,
    fun {x} hx himported hmerges => ?_, fun {x} hx hbase => ?_⟩
  · by_cases hx' : t.Holds x
    · rw [hlater.home_symbolAt hx']
      exact h.own_home hx' ((hlater.symbol hx').origin_eq ▸ horigin)
    · exact (hnew x hx hx').2.1
  · obtain ⟨hx', hsame⟩ := hold hx (himported horigin)
    rw [kindOf, hsame]
    exact h.origin hx' (hsame ▸ horigin)
  · obtain ⟨hx', hsame⟩ := hold hx (himported horigin)
    rw [kindOf, hsame] at hmerges
    obtain ⟨source, ρ, hsource, hembed, hcopy, hfound⟩ := h.embedded hx' (hsame ▸ horigin) hmerges
    rw [hsame]
    exact ⟨source, ρ, hsource, hembed.later hlater, hcopy.later hlater, hlater.relocate? hfound⟩
  · obtain ⟨hx', hsame⟩ := hold hx himported
    rw [kindOf, hsame] at hmerges
    rw [hsame] at himported ⊢
    exact h.merged hx' himported hmerges
  · by_cases hx' : t.Holds x
    · have hbase' : (t.kindOf x).isBase = true := by
        rwa [← SymbolKind.isBase_unsized, hlater.unsized_kindOf hx',
          SymbolKind.isBase_unsized] at hbase
      rw [(hlater.symbol hx').settled (Symbol.isSettled_of_isBase hbase')]
      exact h.bare hx' hbase'
    · exact absurd (hbase.symm.trans (hnew x hx hx').2.2) Bool.noConfusion

/-- More tables only add places to come from. -/
theorem Provenance.mono {tables' : List Table} (h : t.Provenance tables)
    (htables : ∀ t ∈ tables, t ∈ tables') : t.Provenance tables' where
  own_home := h.own_home
  origin hx horigin := by
    obtain ⟨source, hsource, hrest⟩ := h.origin hx horigin
    exact ⟨source, { hsource with mem := htables _ hsource.mem }, hrest⟩
  embedded hx horigin hmerges := by
    obtain ⟨source, ρ, hsource, hrest⟩ := h.embedded hx horigin hmerges
    exact ⟨source, ρ, { hsource with mem := htables _ hsource.mem }, hrest⟩
  merged := h.merged
  bare := h.bare

theorem Trusted.mono {tables' : List Table} (h : t.Trusted names tables)
    (htables : ∀ t ∈ tables, t ∈ tables') : t.Trusted names tables' :=
  { h with provenance := h.provenance.mono htables }

/-! ## Imported forms speak of what is there -/

theorem Embedding.isSort {foreign : Table} {base : NamespaceId} {ρ : SymbolId → SymbolId}
    {r : SymbolId} (h : foreign.Embedding t base ρ) (hr : foreign.IsSort r) : t.IsSort (ρ r) := by
  have houtline := (h.copies hr.carries).outline
  obtain ⟨d, hd⟩ := hr
  rw [← SymbolKind.outline_unsized (foreign.kindOf r), hd] at houtline
  exact SymbolKind.outline_eq_userSort houtline

theorem isConstant_outline (kind : SymbolKind) : kind.outline.isConstant = kind.isConstant := by
  cases kind with
  | userConstant constant => cases constant <;> rfl
  | _ => rfl

theorem Embedding.isConstant {foreign : Table} {base : NamespaceId} {ρ : SymbolId → SymbolId}
    {r : SymbolId} (h : foreign.Embedding t base ρ) (hr : foreign.IsConstant r) :
    t.IsConstant (ρ r) := by
  rw [IsConstant, ← isConstant_outline, (h.copies hr.carries).outline, isConstant_outline]
  exact hr

/-- A copy of a closed symbol is closed. -/
theorem Embedding.closed {foreign : Table} {base : NamespaceId} {ρ : SymbolId → SymbolId}
    {r : SymbolId} (h : foreign.Embedding t base ρ) (hcopy : foreign.Copies t ρ r x)
    (hr : (foreign.symbolAt r).Closed foreign) : (t.symbolAt x).Closed t where
  form {form} hform := by
    rw [hcopy.form] at hform
    obtain ⟨original, horiginal, rfl⟩ := Option.map_eq_some_iff.1 hform
    intro v hv
    obtain ⟨v, hv', rfl⟩ := List.mem_map.1 hv
    have hclosed := hr.form horiginal v hv'
    refine ⟨fun {s} hs => ?_, fun {c} hc => ?_, hclosed.ranges⟩
    · obtain ⟨p, hp, hs⟩ := AcceptedValues.mem_sorts_mapIds.1 hs
      exact Option.some.inj hs ▸ h.isSort (hclosed.sorts hp)
    · obtain ⟨p, hp, hc⟩ := AcceptedValues.symbol_mem_constants_mapIds.1 hc
      exact Option.some.inj hc ▸ h.isConstant (hclosed.constants hp)
  size {e} he := by
    rw [hcopy.size] at he
    obtain ⟨original, horiginal, rfl⟩ := Option.map_eq_some_iff.1 he
    have hclosed := hr.size horiginal
    refine ⟨hclosed.stable.rename ρ, fun {s} hs => ?_⟩
    rw [SizeExpr.cards_rename] at hs
    obtain ⟨p, hp, rfl⟩ := List.mem_map.1 hs
    exact h.isSort (hclosed.cards hp)

/-- A form without positions speaks of nothing. -/
theorem closed_of_merged (hmerges : (t.kindOf x).mergesIntoRoot = true)
    (hform : (t.symbolAt x).canonical = some {}) : (t.symbolAt x).Closed t where
  form {form} h := by
    rw [hform] at h
    cases h
    exact fun v hv => absurd hv List.not_mem_nil
  size {e} h := by
    have hnone : (t.symbolAt x).size? = none := by
      unfold Symbol.size?
      split
      case h_1 hkind =>
        rw [kindOf, hkind] at hmerges
        cases hmerges
      case h_2 => rfl
    rw [hnone] at h
    cases h

/-- Every symbol of a trusted table is closed. -/
theorem Archive.closed (h : Archive names tables) (hprovenance : t.Provenance tables)
    (hown : (t.symbolAt x).origin = none → (t.symbolAt x).Closed t) (hx : t.Holds x) :
    (t.symbolAt x).Closed t := by
  cases horigin : (t.symbolAt x).origin with
  | none => exact hown horigin
  | some o =>
      by_cases hmerges : (t.kindOf x).mergesIntoRoot = true
      · refine closed_of_merged hmerges (hprovenance.merged hx ?_ hmerges)
        rw [Symbol.isImported, horigin]
        rfl
      · obtain ⟨source, ρ, hsource, hembed, hcopy, _⟩ :=
          hprovenance.embedded hx horigin (Bool.eq_false_iff.2 hmerges)
        have htrusted := h.trusted hsource.mem hsource.valid
        exact hembed.closed hcopy (htrusted.own_closed hsource.holds hsource.own)

/-- Imported constants come with a form, unless they are parameters. -/
theorem Archive.constant_form (h : Archive names tables) (hprovenance : t.Provenance tables)
    {kind : ConstantKind} (hkind : t.kindOf x = .userConstant kind) (hvalue : kind ≠ .parameter)
    (himported : (t.symbolAt x).isImported = true) : (t.symbolAt x).canonical = some {} := by
  have hx := holds_of_constant hkind
  by_cases hmerges : (t.kindOf x).mergesIntoRoot = true
  · exact hprovenance.merged hx himported hmerges
  · obtain ⟨o, horigin⟩ := Option.isSome_iff_exists.1 himported
    obtain ⟨source, ρ, hsource, _, hcopy, _⟩ :=
      hprovenance.embedded hx horigin (Bool.eq_false_iff.2 hmerges)
    have houtline := hcopy.outline
    rw [hkind] at houtline
    obtain ⟨kind', hkind', hvalue'⟩ := SymbolKind.userConstant_of_outline houtline.symm hvalue
    rw [hcopy.form, (h.trusted hsource.mem hsource.valid).constants hkind' hvalue']
    rfl

theorem Archive.closed_of_mem (h : Archive names tables) (ht : t ∈ tables)
    (hvalid : t.isValid = true) (hx : t.Holds x) : (t.symbolAt x).Closed t :=
  have htrusted := h.trusted ht hvalid
  h.closed htrusted.provenance (htrusted.own_closed hx) hx

end Table

/-! ## What stands for companions -/

namespace Table

variable {names : Interner} {foreign t : Table} {base : NamespaceId} {r s d : SymbolId}
  {ρ : SymbolId → SymbolId}

/-- A copy of a data symbol is a data symbol of the same shape, and its companions are copies. -/
theorem Embedding.data (h : foreign.Embedding t base ρ) (hforeign : foreign.Regular names)
    (ht : t.Regular names) {shape : DataShape} {info : DataInfo}
    (hr : foreign.kindOf r = .data shape info) :
    ∃ info', t.kindOf (ρ r) = .data shape info' ∧ info'.labels = info.labels ∧
      info'.any = info.any ∧ info'.sort = ρ info.sort ∧ info'.typeConstant =
        ρ info.typeConstant := by
  have houtline := (h.copies (carries_of_data hr)).outline
  rw [hr] at houtline
  obtain ⟨info', hkind, hlabels, hany⟩ := SymbolKind.data_of_outline houtline
  obtain ⟨hsort, hconstant⟩ :=
    hforeign.relocate?_companions ht hr (h.relocates (carries_of_data hr)) hkind
  have hfamily := hforeign.families.data hr
  have hsort' : foreign.IsSort info.sort := ⟨r, hfamily.sort_kind⟩
  have hconstant' : foreign.IsConstant info.typeConstant := by
    rw [IsConstant, hfamily.constant_kind]
    rfl
  rw [h.relocates hsort'.carries] at hsort
  rw [h.relocates hconstant'.carries] at hconstant
  exact ⟨info', hkind, hlabels, hany, (Option.some.inj hsort).symm,
    (Option.some.inj hconstant).symm⟩

/-- The sort that stands for a sort is that of the data symbol that stands for its data symbol. -/
theorem Embedding.dataOf? (h : foreign.Embedding t base ρ) (hforeign : foreign.Regular names)
    (ht : t.Regular names) (hs : foreign.dataOf? s = some d) : t.dataOf? (ρ s) = some (ρ d) := by
  obtain ⟨shape, info, hd, rfl⟩ := hforeign.families.sort (dataOf?_eq_some_iff.1 hs)
  obtain ⟨info', hkind, -, -, hsort, -⟩ := h.data hforeign ht hd
  rw [← hsort]
  exact ht.families.dataOf?_sort hkind

end Table

end ManySorted
