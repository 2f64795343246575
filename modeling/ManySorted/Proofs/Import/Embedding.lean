import ManySorted.Proofs.Import.Relocation
import ManySorted.Proofs.Table.Closed

/-!
# Embeddings of tables

A foreign table is embedded below a namespace if each of its symbols is found there and is a copy:
it has the same name, arity and kind, and its form and size are those of the foreign symbol with
every symbol replaced by its copy.  Embeddings compose (`Embedding.trans`) and survive the growth of
the table (`Embedding.later`).  If two tables have copies of one symbol, then one copy is a copy of
the other (`Copies.common`).

The convenience unions of the foreign root stand apart: a module that imports without a renaming
has its own, and nothing refers to them.
-/

namespace ManySorted

namespace Table

variable {names : Interner} {foreign t t' first second third : Table} {base b b' : NamespaceId}
  {q r x : SymbolId} {ρ σ : SymbolId → SymbolId}

/-- Whether a symbol is a convenience union of the module itself. -/
def IsRootConvenience (t : Table) (id : SymbolId) : Prop :=
  (t.symbolAt id).home = .root ∧ ∃ convenience, t.kindOf id = .union (some convenience)

/-- Whether a symbol takes part in every embedding of its table. -/
structure Carries (t : Table) (id : SymbolId) : Prop where
  holds : t.Holds id
  declared : ¬ t.IsRootConvenience id

theorem IsSort.carries (h : t.IsSort r) : t.Carries r := by
  refine ⟨h.holds, ?_⟩
  rintro ⟨_, convenience, hunion⟩
  obtain ⟨d, hd⟩ := h
  rw [hunion] at hd
  cases hd

theorem IsConstant.carries (h : t.IsConstant r) : t.Carries r := by
  refine ⟨h.holds, ?_⟩
  rintro ⟨_, convenience, hunion⟩
  rw [IsConstant, hunion] at h
  cases h

/-- What a closed symbol mentions is carried. -/
theorem carries_of_mentions {s : Symbol} {p : SymbolId} (h : s.Closed t) (hp : s.Mentions p) :
    t.Carries p :=
  (h.mentions hp).elim IsSort.carries IsConstant.carries

theorem carries_of_data {shape : DataShape} {info : DataInfo} (h : t.kindOf r = .data shape info) :
    t.Carries r := by
  refine ⟨holds_of_data h, ?_⟩
  rintro ⟨_, convenience, hunion⟩
  rw [h] at hunion
  cases hunion

/-- `x` is a copy of the foreign symbol `r`, where `ρ` says what stands for the others. -/
structure Copies (foreign t : Table) (ρ : SymbolId → SymbolId) (r x : SymbolId) : Prop where
  holds : t.Holds x
  settled : (t.symbolAt x).isSettled = true
  name : (t.symbolAt x).name = (foreign.symbolAt r).name
  arity : (t.symbolAt x).arity = (foreign.symbolAt r).arity
  outline : (t.kindOf x).outline = (foreign.kindOf r).outline
  form : (t.symbolAt x).canonical = (foreign.symbolAt r).canonical.map (CanonicalForm.rename ρ)
  size : (t.symbolAt x).size? = (foreign.symbolAt r).size?.map (SizeExpr.rename ρ)

/-- The foreign table has copies of its symbols below `base`. -/
structure Embedding (foreign t : Table) (base : NamespaceId) (ρ : SymbolId → SymbolId) : Prop where
  relocates : ∀ {r}, foreign.Carries r → foreign.relocate? t base r = some (ρ r)
  copies : ∀ {r}, foreign.Carries r → foreign.Copies t ρ r (ρ r)

/-- The foreign table has copies of all its symbols below `base`, also of the convenience unions of
its root if `base` is not the root itself. -/
structure Imported (foreign t : Table) (base : NamespaceId) (ρ : SymbolId → SymbolId) : Prop where
  relocates : ∀ {r}, foreign.Holds r → ¬ (base = .root ∧ foreign.IsRootConvenience r) →
    foreign.relocate? t base r = some (ρ r)
  copies : ∀ {r}, foreign.Holds r → ¬ (base = .root ∧ foreign.IsRootConvenience r) →
    foreign.Copies t ρ r (ρ r)

theorem Imported.embedding (h : foreign.Imported t base ρ) : foreign.Embedding t base ρ where
  relocates hr := h.relocates hr.holds fun hroot => hr.declared hroot.2
  copies hr := h.copies hr.holds fun hroot => hr.declared hroot.2

/-- Only what a symbol mentions matters for its copies. -/
theorem Copies.congr (h : foreign.Copies t ρ r x)
    (hσ : ∀ p, (foreign.symbolAt r).Mentions p → ρ p = σ p) : foreign.Copies t σ r x :=
  { h with
    form := by
      rw [h.form]
      cases hform : (foreign.symbolAt r).canonical with
      | none => rfl
      | some form =>
          exact congrArg some (CanonicalForm.rename_congr fun p hp => hσ p (.inl ⟨form, hform, hp⟩))
    size := by
      rw [h.size]
      cases he : (foreign.symbolAt r).size? with
      | none => rfl
      | some e => exact congrArg some (SizeExpr.rename_congr fun p hp => hσ p (.inr ⟨e, he, hp⟩)) }

/-! ## Growth -/

/-- Whether a symbol is a copy depends on it alone. -/
theorem Copies.of_eq (h : foreign.Copies t ρ r x) (hholds : t'.Holds x)
    (hsame : t'.symbolAt x = t.symbolAt x) : foreign.Copies t' ρ r x where
  holds := hholds
  settled := by rw [hsame, h.settled]
  name := by rw [hsame, h.name]
  arity := by rw [hsame, h.arity]
  outline := by
    rw [kindOf, hsame]
    exact h.outline
  form := by rw [hsame, h.form]
  size := by rw [hsame, h.size]

/-- A copy is settled, so it stays as it is. -/
theorem Copies.later (h : foreign.Copies t ρ r x) (hlater : t.Later t') :
    foreign.Copies t' ρ r x :=
  h.of_eq (hlater.holds h.holds) ((hlater.symbol h.holds).settled h.settled)

theorem Embedding.later (h : foreign.Embedding t base ρ) (hlater : t.Later t') :
    foreign.Embedding t' base ρ where
  relocates hr := hlater.relocate? (h.relocates hr)
  copies hr := (h.copies hr).later hlater

/-! ## Composition -/

theorem Copies.trans (h : first.Copies second ρ q r) (h' : second.Copies third σ r x) :
    first.Copies third (σ ∘ ρ) q x where
  holds := h'.holds
  settled := h'.settled
  name := h'.name.trans h.name
  arity := h'.arity.trans h.arity
  outline := h'.outline.trans h.outline
  form := by
    rw [h'.form, h.form, Option.map_map]
    refine congrArg (Option.map · _) (funext fun form => ?_)
    exact CanonicalForm.rename_rename ρ σ form
  size := by
    rw [h'.size, h.size, Option.map_map]
    refine congrArg (Option.map · _) (funext fun e => ?_)
    exact SizeExpr.rename_rename ρ σ e

/-- A copy of a carried symbol is carried: what lands in the root comes from the root. -/
theorem Embedding.carries (h : first.Embedding second b ρ) (hfirst : first.Regular names)
    (hsecond : second.Regular names) (hq : first.Carries q) : second.Carries (ρ q) := by
  have hcopy := h.copies hq
  refine ⟨hcopy.holds, ?_⟩
  rintro ⟨hroot, convenience, hunion⟩
  have houtline := hcopy.outline
  rw [hunion] at houtline
  have hkind : first.kindOf q = .union (some convenience) :=
    SymbolKind.outline_eq_union.1 houtline.symm
  refine hq.declared ⟨?_, convenience, hkind⟩
  have hlanding := (hfirst.landing?_of_relocate? hsecond (h.relocates hq)).2
  rw [landing?, show (first.symbolAt q).kind = _ from hkind, hroot] at hlanding
  have hpath := hsecond.tree.path_of_descend? (show second.descend? b _ = some .root from hlanding)
  rw [hsecond.tree.path_root] at hpath
  exact (hfirst.tree.path_eq_nil_iff (hfirst.arena.home hq.holds)).1
    (List.append_eq_nil_iff.1 hpath.symm).2

/-- What is embedded in an embedded table is embedded. -/
theorem Embedding.trans (h : first.Embedding second b ρ) (h' : second.Embedding third base σ)
    (hfirst : first.Regular names) (hsecond : second.Regular names)
    (hb : third.descend? base (second.path b) = some b') : first.Embedding third b' (σ ∘ ρ) where
  relocates {q} hq := by
    have hr := h.carries hfirst hsecond hq
    rw [← hfirst.relocate?_trans hsecond hb (h.relocates hq) (h.copies hq).outline,
      h'.relocates hr, Function.comp]
  copies hq := (h.copies hq).trans (h'.copies (h.carries hfirst hsecond hq))

/-- Two copies of one symbol are copies of each other. -/
theorem Copies.common (h : first.Copies second ρ q r) (h' : first.Copies third σ q x)
    {τ : SymbolId → SymbolId} (hτ : ∀ p, (first.symbolAt q).Mentions p → τ (ρ p) = σ p) :
    second.Copies third τ r x where
  holds := h'.holds
  settled := h'.settled
  name := h'.name.trans h.name.symm
  arity := h'.arity.trans h.arity.symm
  outline := h'.outline.trans h.outline.symm
  form := by
    rw [h'.form, h.form]
    cases hform : (first.symbolAt q).canonical with
    | none => rfl
    | some form =>
        refine congrArg some ?_
        rw [CanonicalForm.rename_rename]
        exact (CanonicalForm.rename_congr fun p hp => hτ p (.inl ⟨form, hform, hp⟩)).symm
  size := by
    rw [h'.size, h.size]
    cases he : (first.symbolAt q).size? with
    | none => rfl
    | some e =>
        refine congrArg some ?_
        rw [SizeExpr.rename_rename]
        exact (SizeExpr.rename_congr fun p hp => hτ p (.inr ⟨e, he, hp⟩)).symm

/-- What a copy mentions stands for what the symbol mentions. -/
theorem Copies.mentions (h : foreign.Copies t ρ r x) {id : SymbolId}
    (hid : (t.symbolAt x).Mentions id) :
    ∃ p, (foreign.symbolAt r).Mentions p ∧ ρ p = id := by
  rcases hid with ⟨form, hform, hid⟩ | ⟨e, he, hid⟩
  · rw [h.form] at hform
    obtain ⟨form, hform', rfl⟩ := Option.map_eq_some_iff.1 hform
    obtain ⟨v, hv, hid⟩ := CanonicalForm.mem_refs.1 hid
    obtain ⟨v, hv', rfl⟩ := List.mem_map.1 hv
    rcases AcceptedValues.mem_refs.1 hid with hid | hid
    · obtain ⟨p, hp, hid⟩ := AcceptedValues.symbol_mem_constants_mapIds.1 hid
      exact ⟨p, .inl ⟨form, hform', CanonicalForm.mem_refs.2
        ⟨v, hv', AcceptedValues.mem_refs.2 (.inl hp)⟩⟩, Option.some.inj hid⟩
    · obtain ⟨p, hp, hid⟩ := AcceptedValues.mem_sorts_mapIds.1 hid
      exact ⟨p, .inl ⟨form, hform', CanonicalForm.mem_refs.2
        ⟨v, hv', AcceptedValues.mem_refs.2 (.inr hp)⟩⟩, Option.some.inj hid⟩
  · rw [h.size] at he
    obtain ⟨e, he', rfl⟩ := Option.map_eq_some_iff.1 he
    rw [SizeExpr.cards_rename] at hid
    obtain ⟨p, hp, rfl⟩ := List.mem_map.1 hid
    exact ⟨p, .inr ⟨e, he', hp⟩, rfl⟩

end Table

end ManySorted
