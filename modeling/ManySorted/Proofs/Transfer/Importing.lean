import ManySorted.Proofs.Import.Compiling
import ManySorted.Proofs.Transfer.Placing

/-!
# The same imports in another order

Where a foreign symbol goes is told by the reference alone: by its renaming, and the path and the
name of the symbol (`Table.placePath`).  So if all imports of a module go through, then what one of
them finds in such a place matches in any other order as well (`Draft.Compiled.welcomes`), and no
order of the imports reports an error (`Draft.Compiled.ends_imports`).  Each symbol is in the end
found in the same place of either table, and is a copy (`Draft.Compiled.linked`,
`Draft.Compiled.copies`).

## Strategy

* **Places.**  The place of a foreign symbol is told by its path and the renaming, and what is built
  in by the place it goes to (`Table.Tree.isBuiltin_iff`).
* **What references bring.**  What stands in such a place after all imports stems from a foreign
  symbol of that place (`Draft.Compiled.placed_of_stems`), and matches it
  (`Draft.Compiled.matches_of_placed`).
* **Another order.**  So where some of the imports went through, the next one is welcome
  (`Draft.Compiled.welcomes`), and by induction all of them go through.
* **Counterparts.**  The copies of one foreign symbol in both tables are in one place
  (`Draft.Compiled.linked_copies`).
-/

namespace ManySorted

namespace SymbolKind

theorem isCompanion_outline (kind : SymbolKind) : kind.outline.isCompanion = kind.isCompanion := by
  cases kind with
  | userConstant constant => cases constant <;> rfl
  | _ => rfl

end SymbolKind

namespace Table

variable {names names' : Interner} {foreign t t' : Table} {base base' : NamespaceId}
  {rename : Option Name} {path : List Name} {name : Name} {s : Symbol} {r x y : SymbolId}

/-! ## Places -/

/-- What is built in is told by the place it goes to. -/
theorem Tree.isBuiltin_iff (ht : t.Tree) (h : t.descend? .root rename.toList = some base) :
    foreign.IsBuiltin t base r ↔
      (foreign.kindOf r).isBase = true ∧ foreign.placePath rename (foreign.symbolAt r) = [] := by
  rw [IsBuiltin, landing?_eq h, ht.descend?_eq_root]

/-- The foreign symbol of a named one is found by its name. -/
theorem Regular.under?_of_relocate? (ht : t.Regular names)
    (h : t.descend? .root rename.toList = some base)
    (hx : foreign.relocate? t base r = some x) (hnamed : (t.symbolAt x).name.isEmpty = false) :
    foreign.dataOf? r = none ∧
      t.under? (foreign.placePath rename (foreign.symbolAt r)) (foreign.symbolAt r).name =
        some x := by
  rcases ht.relocate?_cases hx with ⟨d, y, shape, info, -, hy, hkind, rfl, hsort⟩ | ⟨hr, hx, -⟩
  · have hholds := (ht.families.data hkind).holds_sort
    cases hsort.symm.trans (ht.families.dataOf?_of_named hholds hnamed)
  · exact ⟨hr, place?_eq h ▸ hx⟩

/-! ## Tables without declarations -/

/-- The table holds nothing but what is built in. -/
def Pristine (t : Table) : Prop :=
  ∀ ⦃x⦄, t.Holds x → (t.kindOf x).isBase = true ∧ (t.symbolAt x).home = .root ∧
    (t.symbolAt x).origin = none ∧ (t.symbolAt x).Bare

theorem pristine_create {id : TableId} {module : Name} {kind : ModuleKind} {file : Name} :
    (create names id module kind file).2.Pristine := fun _ hx => builtin_of_create hx

namespace Pristine

variable (h : t.Pristine)
include h

/-- What is built in stays as it is. -/
theorem symbolAt_eq (hlater : t.Later t') (hx : t.Holds x) : t'.symbolAt x = t.symbolAt x :=
  (hlater.symbol hx).settled (Symbol.isSettled_of_isBase (h hx).1)

theorem named (ht : t.Regular names) (hx : t.Holds x) :
    (t.symbolAt x).name.isEmpty = false := by
  refine Bool.eq_false_iff.2 fun hempty => ?_
  obtain ⟨data, hsort⟩ := (ht.families.named hx).1 hempty
  obtain ⟨size, hkind⟩ := SymbolKind.unsized_eq_userSort.1 hsort
  have hbase := (h hx).1
  rw [hkind] at hbase
  cases hbase

/-- What is built in is found under its name in the root. -/
theorem under? (ht : t.Regular names) (hlater : t.Later t') (hx : t.Holds x) :
    t'.under? [] (t.symbolAt x).name = some x := by
  have hself := ht.under?_self hx (h.named ht hx)
  rw [(h hx).2.1, ht.tree.path_root] at hself
  exact hlater.under? hself

/-- What is built in is in its own place in all later tables. -/
theorem linked (ht : t.Regular names) {first second : Table} (hfirst : first.Regular names')
    (hlater : t.Later first) (hlater' : t.Later second) (hx : t.Holds x) :
    first.Linked second .root x x := by
  have hsame := h.symbolAt_eq hlater hx
  have hsame' := h.symbolAt_eq hlater' hx
  refine ⟨hlater.holds hx, ?_, by rw [hsame, hsame'], by rw [kindOf, kindOf, hsame, hsame']⟩
  rw [hfirst.relocate?_root (hlater.holds hx) (by rw [hsame]; exact h.named ht hx), hsame,
    (h hx).2.1, hfirst.tree.path_root]
  exact h.under? ht hlater' hx

end Pristine

end Table

namespace Draft

variable {tables : List Table} {library : Library} {m : Module} {initial d d₁ d₂ : Draft}
  {references done rest : List ModuleRef} {reference : ModuleRef} {rename : Option Name}
  {foreign : Table} {r x : SymbolId}

/-! ## What the references bring -/

/-- What a reference brings is in its place. -/
theorem Compiled.exists_placed (h : Compiled tables library initial references d)
    (hlends : library.Lends references rename foreign) (hr : foreign.Holds r)
    (halone : foreign.dataOf? r = none)
    (hkept : ¬ (rename = none ∧ foreign.IsRootConvenience r)) :
    ∃ y, d.table.under? (foreign.placePath rename (foreign.symbolAt r)) (foreign.symbolAt r).name =
        some y ∧
      (d.table.kindOf y).outline = (foreign.kindOf r).outline ∧
      (d.table.symbolAt y).arity = (foreign.symbolAt r).arity ∧
      ((foreign.kindOf r).isCompanion = false →
        ¬ ((foreign.kindOf r).isBase = true ∧
          foreign.placePath rename (foreign.symbolAt r) = []) →
        foreign.Matches (foreign.symbolAt r) (d.table.symbolAt y)) := by
  obtain ⟨base, ρ, hdescend, hreceived, himported⟩ := h.brought hlends
  have ht := h.formed.toRegular
  rw [← ht.tree.eq_root_iff hdescend] at hkept
  have hfound := himported.relocates hr hkept
  have hcopy := himported.copies hr hkept
  refine ⟨ρ r, ?_, hcopy.outline, hcopy.arity, fun halone hdeclared => ?_⟩
  · rw [← Table.place?_eq hdescend, ← Table.relocate?_of_not_sort halone]
    exact hfound
  · rw [← ht.tree.isBuiltin_iff hdescend] at hdeclared
    obtain ⟨y, -, hlinked, hmatches⟩ := hreceived.matched hr halone hkept hdeclared
    obtain rfl := Option.some.inj (hfound.symm.trans hlinked.found)
    exact hmatches

/-- What a symbol stems from is told by its place. -/
theorem Compiled.placed_of_stems (h : Compiled tables library initial references d)
    (hstems : foreign.Stems d.table rename x) (hnamed : (d.table.symbolAt x).name.isEmpty = false) :
    ∃ r, foreign.Holds r ∧ foreign.dataOf? r = none ∧
      ¬ (rename = none ∧ foreign.IsRootConvenience r) ∧
      d.table.under? (foreign.placePath rename (foreign.symbolAt r)) (foreign.symbolAt r).name =
        some x ∧
      (d.table.symbolAt x).origin =
        some ((foreign.symbolAt r).origin.getD ⟨foreign.id, (foreign.symbolAt r).id⟩) := by
  obtain ⟨base, r, hdescend, hr, hkept, hfound, horigin⟩ := hstems
  have ht := h.formed.toRegular
  obtain ⟨halone, hplaced⟩ := ht.under?_of_relocate? hdescend hfound hnamed
  rw [ht.tree.eq_root_iff hdescend] at hkept
  exact ⟨r, hr, halone, hkept, hplaced, horigin⟩

section

variable (hpristine : initial.table.Pristine) (hinitial : initial.table.Regular initial.names)
include hpristine hinitial

/-- Where some of the imports went through, the next one finds matches, as it did when all imports
went through. -/
theorem Compiled.matches_of_placed (h₁ : Compiled tables library initial references d₁)
    (h₂ : Compiled tables library initial done d₂)
    (hsub : ∀ {rename u}, library.Lends done rename u → library.Lends references rename u)
    (hlends : library.Lends references rename foreign) (hr : foreign.Holds r)
    (halone : (foreign.kindOf r).isCompanion = false) (hnosort : foreign.dataOf? r = none)
    (hkept : ¬ (rename = none ∧ foreign.IsRootConvenience r))
    (hdeclared : ¬ ((foreign.kindOf r).isBase = true ∧
      foreign.placePath rename (foreign.symbolAt r) = []))
    (hx : d₂.table.under? (foreign.placePath rename (foreign.symbolAt r))
      (foreign.symbolAt r).name = some x) :
    foreign.Matches (foreign.symbolAt r) (d₂.table.symbolAt x) := by
  have ht₁ := h₁.formed.toRegular
  have ht₂ := h₂.formed.toRegular
  obtain ⟨y, hy, houtline, harity, hmatches⟩ := h₁.exists_placed hlends hr hnosort hkept
  have hmatches := hmatches halone hdeclared
  obtain ⟨hholds, hpath, hname, hnamed⟩ := ht₂.of_under? hx
  rcases h₂.covered hholds with hold | ⟨rename', foreign', hlends', hstems⟩
  · -- what is built in is the same in both tables
    have hbefore := h₂.later.under?_of_holds hinitial ht₂ hx hold
    obtain rfl := Option.some.inj (hy.symm.trans (h₁.later.under? hbefore))
    rwa [hpristine.symbolAt_eq h₂.later hold, ← hpristine.symbolAt_eq h₁.later hold]
  · -- what is imported stands in the same place in both tables, and goes back to one declaration
    obtain ⟨r', hr', hnosort', hkept', hplaced, horigin⟩ := h₂.placed_of_stems hstems hnamed
    obtain ⟨-, hpath', hname', -⟩ := ht₂.of_under? hplaced
    obtain ⟨x', hx', houtline₂, harity₂, -⟩ := h₂.exists_placed hlends' hr' hnosort' hkept'
    obtain ⟨y', hy', houtline₁, harity₁, hmatches'⟩ :=
      h₁.exists_placed (hsub hlends') hr' hnosort' hkept'
    obtain rfl := Option.some.inj (hplaced.symm.trans hx')
    have hsame : foreign'.placePath rename' (foreign'.symbolAt r') =
        foreign.placePath rename (foreign.symbolAt r) := hpath'.symm.trans hpath
    rw [hsame, ← hname', hname, hy] at hy'
    obtain rfl := Option.some.inj hy'
    have houtline' : (foreign'.kindOf r').outline = (foreign.kindOf r).outline :=
      houtline₁.symm.trans houtline
    cases hmerges : (foreign.kindOf r).mergesIntoRoot with
    | true =>
        refine .inr ⟨hmerges, ?_, ?_⟩
        · change (d₂.table.kindOf x).mergesIntoRoot = true
          rw [← SymbolKind.mergesIntoRoot_outline, houtline₂, houtline',
            SymbolKind.mergesIntoRoot_outline, hmerges]
        · rw [← harity, harity₁, harity₂]
    | false =>
        have hmatches' := hmatches'
          (by rw [← SymbolKind.isCompanion_outline, houtline',
            SymbolKind.isCompanion_outline, halone])
          (by rwa [← SymbolKind.isBase_outline, houtline', SymbolKind.isBase_outline, hsame])
        have hmerges' : (foreign'.kindOf r').mergesIntoRoot = false := by
          rw [← SymbolKind.mergesIntoRoot_outline, houtline', SymbolKind.mergesIntoRoot_outline,
            hmerges]
        have hfirst := hmatches.resolve_right fun hmerge => by
          cases hmerge.1.symm.trans hmerges
        have hsecond := hmatches'.resolve_right fun hmerge => by
          cases hmerge.1.symm.trans hmerges'
        exact .inl (horigin.trans (hsecond.symm.trans hfirst))

/-- So the next import is welcome. -/
theorem Compiled.welcomes (h₁ : Compiled tables library initial references d₁)
    (h₂ : Compiled tables library initial done d₂)
    (hsub : ∀ {rename u}, library.Lends done rename u → library.Lends references rename u)
    (hlends : library.Lends references rename foreign) : Welcomes tables foreign rename d₂ := by
  rintro imp base start rfl hready hdescend - r x hr hwanted hdeclared hfound
  have ht := hready.formed.toRegular
  have hnosort := hwanted.dataOf?
  rw [Table.relocate?_of_not_sort hnosort, Table.place?_eq hdescend] at hfound
  have hkept := hwanted.2
  rw [ht.tree.eq_root_iff hdescend] at hkept
  rw [ht.tree.isBuiltin_iff hdescend] at hdeclared
  -- laying out namespaces has added no symbols
  have hholds : d₂.table.Holds x := by
    rw [Table.Holds, ← hready.symbols_eq]
    exact (ht.of_under? hfound).1
  have hsame : start.table.symbolAt x = d₂.table.symbolAt x := by
    rw [Table.symbolAt, Table.symbolAt, hready.symbols_eq]
  rw [hsame]
  exact h₁.matches_of_placed hpristine hinitial h₂ hsub hlends hr hwanted.1 hnosort hkept hdeclared
    (hready.later.under?_of_holds h₂.formed.toRegular ht hfound hholds)

/-- An import that goes through in one order goes through in any other. -/
theorem Compiled.ends_importReference (h₁ : Compiled tables library initial references d₁)
    (hlibrary : ∀ entry ∈ library.tables, entry.2 ∈ tables ∧ entry.2.Mapped)
    (hreference : reference ∈ references)
    (hsub : ∀ {rename u}, library.Lends done rename u → library.Lends references rename u) :
    Ends (fun d => Compiled tables library initial done d ∧ d.table.hasErrors = false)
      (importReference library m reference) fun _ d =>
        Compiled tables library initial (done ++ [reference]) d ∧ d.table.hasErrors = false := by
  rintro d₂ _ d₃ ⟨h₂, hclean⟩ hrun
  obtain ⟨foreign, hfind, hfits⟩ := h₁.fits reference hreference
  have hlends : library.Lends references reference.rename foreign :=
    ⟨reference, hreference, rfl, hfind⟩
  obtain ⟨hmem, hvalid⟩ := h₁.lent hlends
  -- all that the draft depends on is depended on in the end, and so is what the reference names
  have hrefusal : d₂.table.importRefusal? d₂.names reference foreign = none := by
    rw [Table.importRefusal?_eq_none_iff_fits, h₂.names_eq, h₂.kind_eq]
    refine ⟨hfits, Table.moduleClash?_eq_none_iff.2 fun name id other mine theirs => ?_⟩
    have hmine := h₂.mapped.find?_eq_some_iff.1 mine
    have hentry : (name, id) ∈ d₁.table.dependencies.toList := by
      refine h₁.depends.2 ((h₂.depends.1 hmine).imp_right ?_)
      rintro ⟨rename, u, hu, hentry⟩
      exact ⟨rename, u, hsub hu, hentry⟩
    have hother := h₁.depends.2 (.inr ⟨_, _, hlends, theirs⟩)
    exact congrArg Prod.snd (h₁.mapped.unique hentry hother rfl)
  have hembed := importReference_eq_ok hrun
  rw [hfind] at hembed
  dsimp only at hembed
  rw [importModule_eq_embed (d := { d₂ with clock := d₂.clock.advance.request }) hrefusal] at hembed
  have hlater := h₂.of_clock d₂.clock.advance.request
  have hreports := hlater.toAssembled.reports_embed hmem hvalid
    (h₁.welcomes hpristine hinitial hlater hsub hlends) _ () d₃ rfl hembed
  have hclean' : d₃.table.hasErrors = false := by
    rw [Table.hasErrors, hreports]
    exact hclean
  exact ⟨h₂.step hlibrary hrun hclean', hclean'⟩

/-- If all imports of a module go through, then they do so in any order. -/
theorem Compiled.ends_imports (h₁ : Compiled tables library initial references d₁)
    (hlibrary : ∀ entry ∈ library.tables, entry.2 ∈ tables ∧ entry.2.Mapped)
    (hassembled : initial.Assembled tables) (hmapped : initial.table.Mapped)
    (hclean : initial.table.hasErrors = false) (hrest : ∀ r ∈ rest, r ∈ references) :
    Ends (· = initial) (rest.forM (importReference library m)) fun _ d =>
      Compiled tables library initial rest d ∧ d.table.hasErrors = false := by
  refine (ends_forM (motive := fun done d =>
    Compiled tables library initial done d ∧ d.table.hasErrors = false)
    fun done reference later hall => ?_).imp (fun d hd => ?_) fun _ _ hd => hd
  · have hmem : ∀ r ∈ done ++ [reference], r ∈ references := fun r hr => hrest r (by
      rw [hall]
      exact (List.mem_append.1 hr).elim (fun hr => List.mem_append_left _ hr) fun hr =>
        List.mem_append_right _ (List.mem_singleton.1 hr ▸ List.mem_cons_self))
    refine h₁.ends_importReference hpristine hinitial hlibrary
      (hmem _ (List.mem_append_right _ List.mem_cons_self)) ?_
    rintro rename u ⟨r, hr, hrename, hu⟩
    exact ⟨r, hmem r (List.mem_append_left _ hr), hrename, hu⟩
  · subst hd
    exact ⟨compiled_nil hassembled hmapped, hclean⟩

end

/-- What is not built in is imported. -/
theorem Compiled.isImported (h : Compiled tables library initial references d)
    (hx : d.table.Holds x)
    (hnew : ¬ initial.table.Holds x) : (d.table.symbolAt x).isImported = true := by
  obtain ⟨rename, foreign, -, base, r, -, -, -, -, horigin⟩ := (h.covered hx).resolve_left hnew
  rw [Symbol.isImported, horigin]
  rfl

/-! ## Counterparts of what is imported -/

section

variable {references' : List ModuleRef} {base₁ base₂ : NamespaceId} {ρ₁ ρ₂ : SymbolId → SymbolId}
  (h₁ : Compiled tables library initial references d₁)
  (h₂ : Compiled tables library initial references' d₂)
include h₁ h₂

/-- The copies of a foreign symbol in two tables are in the same place. -/
theorem Compiled.linked_copies (hforeign : foreign ∈ tables ∧ foreign.isValid = true)
    (hdescend₁ : d₁.table.descend? .root rename.toList = some base₁)
    (hdescend₂ : d₂.table.descend? .root rename.toList = some base₂)
    (himported₁ : foreign.Imported d₁.table base₁ ρ₁)
    (himported₂ : foreign.Imported d₂.table base₂ ρ₂) (hr : foreign.Holds r)
    (hkept : ¬ (rename = none ∧ foreign.IsRootConvenience r)) :
    d₁.table.Linked d₂.table .root (ρ₁ r) (ρ₂ r) := by
  have ht₁ := h₁.formed.toRegular
  have ht₂ := h₂.formed.toRegular
  have hkept₁ := hkept
  have hkept₂ := hkept
  rw [← ht₁.tree.eq_root_iff hdescend₁] at hkept₁
  rw [← ht₂.tree.eq_root_iff hdescend₂] at hkept₂
  have hcopy₁ := himported₁.copies hr hkept₁
  have hcopy₂ := himported₂.copies hr hkept₂
  have hpath := ht₁.tree.path_of_descend? hdescend₁
  rw [ht₁.tree.path_root, List.nil_append] at hpath
  have hregular := (h₁.archive.trusted hforeign.1 hforeign.2).formed.toRegular
  refine ⟨hcopy₁.holds, ?_, hcopy₂.arity.trans hcopy₁.arity.symm,
    hcopy₂.outline.trans hcopy₁.outline.symm⟩
  rw [hregular.relocate?_trans ht₁ (by rw [hpath, hdescend₂]) (himported₁.relocates hr hkept₁)
    hcopy₁.outline, himported₂.relocates hr hkept₂]

section

variable (hpristine : initial.table.Pristine) (hinitial : initial.table.Regular initial.names)
  (hsub : ∀ {rename u}, library.Lends references rename u → library.Lends references' rename u)
include hpristine hinitial hsub

/-- What two orders of the same imports bring in is in the same places, and the same up to what the
symbols are called. -/
theorem Compiled.linked_and_copies (hx : d₁.table.Holds x) :
    d₁.table.Linked d₂.table .root x (d₁.table.standIn d₂.table x) ∧
      d₁.table.Copies d₂.table (d₁.table.standIn d₂.table) x (d₁.table.standIn d₂.table x) := by
  have ht₁ := h₁.formed.toRegular
  rcases h₁.covered hx with hold | ⟨rename, foreign, hlends, base, r, hdescend, hr,
    hkept, hfound, -⟩
  · -- what is built in stands in for itself
    have hsame₁ := hpristine.symbolAt_eq h₁.later hold
    have hsame₂ := hpristine.symbolAt_eq h₂.later hold
    obtain ⟨hbase, -, -, hbare⟩ := hpristine hold
    have hlinked := hpristine.linked hinitial ht₁ h₁.later h₂.later hold
    rw [hlinked.standIn_eq]
    refine ⟨hlinked, h₂.later.holds hold, ?_, by rw [hsame₁, hsame₂], hlinked.arity,
      hlinked.outline, ?_, ?_⟩
    · rw [hsame₂]
      exact Symbol.isSettled_of_isBase hbase
    · rw [hsame₁, hsame₂, hbare.canonical]
      rfl
    · rw [hsame₁, hsame₂, hbare.size]
      rfl
  · -- copies of a foreign symbol stand in for each other
    have hforeign := h₁.lent hlends
    obtain ⟨base₁, ρ₁, hdescend₁, -, himported₁⟩ := h₁.brought hlends
    obtain ⟨base₂, ρ₂, hdescend₂, -, himported₂⟩ := h₂.brought (hsub hlends)
    obtain rfl := Option.some.inj (hdescend.symm.trans hdescend₁)
    obtain rfl := Option.some.inj ((himported₁.relocates hr hkept).symm.trans hfound)
    have hkept₂ := hkept
    rw [ht₁.tree.eq_root_iff hdescend, ← h₂.formed.tree.eq_root_iff hdescend₂] at hkept₂
    rw [ht₁.tree.eq_root_iff hdescend] at hkept
    have hlinks := fun {p} => h₁.linked_copies h₂ hforeign hdescend hdescend₂ himported₁ himported₂
      (r := p)
    have hlinked := hlinks hr hkept
    rw [hlinked.standIn_eq]
    refine ⟨hlinked, Table.Copies.common (himported₁.copies hr ?_) (himported₂.copies hr hkept₂)
      fun p hp => ?_⟩
    · rwa [ht₁.tree.eq_root_iff hdescend]
    · have hcarries := Table.carries_of_mentions
          (h₁.archive.closed_of_mem hforeign.1 hforeign.2 hr) hp
      exact (hlinks hcarries.holds fun hroot => hcarries.declared hroot.2).standIn_eq

end

end

end Draft

end ManySorted
