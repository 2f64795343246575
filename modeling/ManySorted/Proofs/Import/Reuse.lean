import ManySorted.Import
import ManySorted.Proofs.Import.Provenance

/-!
# Using a symbol that is already there

Where the place of a foreign symbol is taken by a symbol of the same origin, that symbol is a copy
of the foreign one already (`Reuses`), together with its companions.  For both go back to one
declaration, the table of which is embedded around either of them.
-/

namespace ManySorted

namespace Table

variable {names : Interner} {tables : List Table} {foreign t t' : Table} {base : NamespaceId}
  {r x : SymbolId}

/-- `x` stands in the place of the foreign symbol `r` and is of its kind. -/
structure Linked (foreign t : Table) (base : NamespaceId) (r x : SymbolId) : Prop where
  holds : foreign.Holds r
  found : foreign.relocate? t base r = some x
  arity : (t.symbolAt x).arity = (foreign.symbolAt r).arity
  outline : (t.kindOf x).outline = (foreign.kindOf r).outline

theorem Linked.later (h : foreign.Linked t base r x) (hx : t.Holds x) (hlater : t.Later t') :
    foreign.Linked t' base r x where
  holds := h.holds
  found := hlater.relocate? h.found
  arity := (hlater.arity_symbolAt hx).trans h.arity
  outline := by
    rw [← SymbolKind.outline_unsized, hlater.unsized_kindOf hx, SymbolKind.outline_unsized,
      h.outline]

/-- A linked data symbol and its companions. -/
theorem Linked.companions (h : foreign.Linked t base r x) (hforeign : foreign.Regular names)
    (ht : t.Regular names) {shape : DataShape} {info : DataInfo}
    (hr : foreign.kindOf r = .data shape info) :
    ∃ info', t.kindOf x = .data shape info' ∧
      foreign.Linked t base info.sort info'.sort ∧
      foreign.Linked t base info.typeConstant info'.typeConstant := by
  have houtline := h.outline
  rw [hr] at houtline
  obtain ⟨info', hx, _, _⟩ := SymbolKind.data_of_outline houtline
  have hfamily := hforeign.families.data hr
  have hfamily' := ht.families.data hx
  obtain ⟨hsort, hconstant⟩ := hforeign.relocate?_companions ht hr h.found hx
  refine ⟨info', hx, ⟨hfamily.holds_sort, hsort, ?_, ?_⟩,
    ⟨hfamily.holds_constant, hconstant, ?_, ?_⟩⟩
  · rw [hfamily.sort_arity, hfamily'.sort_arity]
  · rw [← SymbolKind.outline_unsized, hfamily'.sort_kind, ← SymbolKind.outline_unsized
      (foreign.kindOf _), hfamily.sort_kind]
    rfl
  · rw [hfamily.constant_arity, hfamily'.constant_arity]
  · rw [hfamily.constant_kind, hfamily'.constant_kind]
    rfl

/-- `x` is a copy of the foreign symbol `r`, with all that `r` mentions found in its place. -/
def Reuses (foreign t : Table) (base : NamespaceId) (r x : SymbolId) : Prop :=
  ∃ ρ, foreign.Copies t ρ r x ∧
    ∀ p, (foreign.symbolAt r).Mentions p → foreign.relocate? t base p = some (ρ p)

theorem Reuses.later (h : foreign.Reuses t base r x) (hlater : t.Later t') :
    foreign.Reuses t' base r x := by
  obtain ⟨ρ, hcopy, hfound⟩ := h
  exact ⟨ρ, hcopy.later hlater, fun p hp => hlater.relocate? (hfound p hp)⟩

/-- Symbols whose forms have no positions mention nothing. -/
theorem reuses_of_plain (hlinked : foreign.Linked t base r x) (hx : t.Holds x)
    (hname : (t.symbolAt x).name = (foreign.symbolAt r).name)
    (hsettled : (t.symbolAt x).isSettled = true)
    (hform : (t.symbolAt x).canonical = (foreign.symbolAt r).canonical)
    (hplain : ∀ form, (foreign.symbolAt r).canonical = some form → form = {})
    (hsort : ¬ foreign.IsSort r) : foreign.Reuses t base r x := by
  have hsize : ∀ {t : Table} {id : SymbolId}, ¬ t.IsSort id → (t.symbolAt id).size? = none := by
    intro t id hid
    unfold Symbol.size?
    split
    case h_1 d size hkind => exact absurd ⟨d, by rw [kindOf, hkind]; rfl⟩ hid
    case h_2 => rfl
  have hsort' : ¬ t.IsSort x := by
    rintro ⟨d, hd⟩
    have houtline := hlinked.outline
    rw [← SymbolKind.outline_unsized (t.kindOf x), hd] at houtline
    exact hsort (SymbolKind.outline_eq_userSort houtline.symm)
  refine ⟨fun id => id, ⟨hx, hsettled, hname, hlinked.arity, hlinked.outline, ?_, ?_⟩, ?_⟩
  · rw [hform]
    cases h : (foreign.symbolAt r).canonical with
    | none => rfl
    | some form =>
        rw [hplain form h]
        rfl
  · rw [hsize hsort, hsize hsort']
    rfl
  · rintro p (⟨form, h, hp⟩ | ⟨e, he, hp⟩)
    · rw [hplain form h] at hp
      exact absurd hp List.not_mem_nil
    · rw [hsize hsort] at he
      cases he

/-- A symbol with its companions: what holds of the carried symbols of an embedding, and of the
symbol itself, holds of the whole family. -/
theorem Archive.reuses_of_origin (h : Archive names tables) (hforeign : foreign ∈ tables)
    (hvalid : foreign.isValid = true) (ht : t.Regular names) (hprovenance : t.Provenance tables)
    (hlinked : foreign.Linked t base r x) (hx : t.Holds x)
    (hmoves : (foreign.kindOf r).staysInRoot = false)
    (horigin : (t.symbolAt x).origin =
      some ((foreign.symbolAt r).origin.getD ⟨foreign.id, r⟩)) :
    foreign.Reuses t base r x ∧
      ∀ {shape info info'}, foreign.kindOf r = .data shape info → t.kindOf x = .data shape info' →
        foreign.Reuses t base info.sort info'.sort ∧
          foreign.Reuses t base info.typeConstant info'.typeConstant := by
  have htrusted := h.trusted hforeign hvalid
  have hregular := htrusted.formed.toRegular
  have hmerges : ∀ kind : SymbolKind, kind.staysInRoot = false → kind.mergesIntoRoot = false := by
    intro kind hkind
    cases kind <;> first | exact hkind | cases hkind
  have hmoves' : (t.kindOf x).staysInRoot = false := by
    rw [← SymbolKind.staysInRoot_outline, hlinked.outline, SymbolKind.staysInRoot_outline, hmoves]
  obtain ⟨source, σ, hsource, hembed, hcopy, hfound⟩ :=
    hprovenance.embedded hx horigin (hmerges _ hmoves')
  have hlanding := (hregular.landing?_of_relocate? ht hlinked.found).2
  rw [landing?, show (foreign.symbolAt r).kind.staysInRoot = false from hmoves,
    if_neg Bool.false_ne_true] at hlanding
  cases hown : (foreign.symbolAt r).origin with
  | none =>
      -- the foreign table itself is embedded here
      rw [hown] at hsource hcopy hfound
      obtain rfl : source = foreign := h.unique hsource.mem hforeign hsource.id_eq
      rw [htrusted.provenance.own_home hlinked.holds hown, hregular.tree.path_root] at hlanding
      have hhome : base = (t.symbolAt x).home := Option.some.inj hlanding
      rw [← hhome] at hembed
      have hreuses : ∀ {p y}, source.Carries p → source.relocate? t base p = some y →
          source.Reuses t base p y := by
        intro p y hp hy
        obtain rfl : σ p = y := Option.some.inj ((hembed.relocates hp).symm.trans hy)
        refine ⟨σ, hembed.copies hp, fun p' hp' => hembed.relocates ?_⟩
        exact carries_of_mentions (h.closed_of_mem hforeign hvalid hp.holds) hp'
      refine ⟨⟨σ, hcopy, fun p hp => hembed.relocates ?_⟩, fun {shape info info'} hr hx' => ?_⟩
      · exact carries_of_mentions (h.closed_of_mem hforeign hvalid hlinked.holds) hp
      · obtain ⟨info'', hx'', hsort, hconstant⟩ := hlinked.companions hregular ht hr
        rw [hx'] at hx''
        cases hx''
        have hfamily := hregular.families.data hr
        exact ⟨hreuses (IsSort.carries ⟨r, hfamily.sort_kind⟩) hsort.found,
          hreuses (IsConstant.carries (by rw [IsConstant, hfamily.constant_kind]; rfl))
            hconstant.found⟩
  | some o =>
      -- a third table is embedded both here and in the foreign table
      rw [hown] at hsource hcopy hfound
      obtain ⟨source', ρ, hsource', hembed', hcopy', hfound'⟩ :=
        htrusted.provenance.embedded hlinked.holds hown (hmerges _ hmoves)
      obtain rfl : source = source' := h.source_unique hsource hsource'
      have hfirst := (h.trusted hsource.mem hsource.valid).formed.toRegular
      have hkey : ∀ {q}, source.Carries q → foreign.relocate? t base (ρ q) = some (σ q) := by
        intro q hq
        rw [hfirst.relocate?_trans hregular hlanding (hembed'.relocates hq)
          (hembed'.copies hq).outline, hembed.relocates hq]
      have hreuses : ∀ {q p y}, source.Copies foreign ρ q p → source.Copies t σ q y →
          source.Holds q → foreign.Reuses t base p y := by
        intro q p y hp hy hq
        refine ⟨fun p => (foreign.relocate? t base p).getD default, hp.common hy ?_, ?_⟩
        · intro p' hp'
          have hcarries := carries_of_mentions (h.closed_of_mem hsource.mem hsource.valid hq) hp'
          simp only [hkey hcarries, Option.getD_some]
        · intro p' hp'
          obtain ⟨q', hq', rfl⟩ := hp.mentions hp'
          have hcarries := carries_of_mentions (h.closed_of_mem hsource.mem hsource.valid hq) hq'
          simp only [hkey hcarries, Option.getD_some]
      refine ⟨hreuses hcopy' hcopy hsource.holds, fun {shape info info'} hr hx' => ?_⟩
      have houtline := hcopy'.outline
      rw [hr] at houtline
      obtain ⟨info₀, hkind, _, _⟩ := SymbolKind.data_of_outline houtline.symm
      have hfamily := hfirst.families.data hkind
      have hsort : source.Carries info₀.sort := IsSort.carries ⟨_, hfamily.sort_kind⟩
      have hconstant : source.Carries info₀.typeConstant :=
        IsConstant.carries (by rw [IsConstant, hfamily.constant_kind]; rfl)
      obtain ⟨hs, hc⟩ := hfirst.relocate?_companions hregular hkind hfound' hr
      obtain ⟨hs', hc'⟩ := hfirst.relocate?_companions ht hkind hfound hx'
      have hs := Option.some.inj ((hembed'.relocates hsort).symm.trans hs)
      have hc := Option.some.inj ((hembed'.relocates hconstant).symm.trans hc)
      have hs' := Option.some.inj ((hembed.relocates hsort).symm.trans hs')
      have hc' := Option.some.inj ((hembed.relocates hconstant).symm.trans hc')
      exact ⟨hreuses (hs ▸ hembed'.copies hsort) (hs' ▸ hembed.copies hsort) hfamily.holds_sort,
        hreuses (hc ▸ hembed'.copies hconstant) (hc' ▸ hembed.copies hconstant)
          hfamily.holds_constant⟩

end Table

end ManySorted
