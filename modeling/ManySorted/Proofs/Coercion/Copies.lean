import ManySorted.Proofs.Coercion.Completeness
import ManySorted.Proofs.Coercion.Narrowing
import ManySorted.Proofs.Import.Annexing

/-!
# Coercion between copies of tables

Let two tables be hosted side by side under two names.  The copies of their symbols correspond to
one another just if the symbols are matched (`Table.Resident.exists_matched`), and a position
accepts a copy of another just if it covers it (`Table.Resident.covers_iff`).  So a copy can be
coerced just if the symbol narrows to one of the other table (`Table.Resident.coercible_iff`),
whatever else there is in the table that hosts them.

## Strategy

* **Copies.**  What lives under the name of a resident is the copy of one of its symbols, and lies
  there as the symbol lies in its own table (`Table.Resident.exists_copy`).
* **Correspondence.**  The copies of symbols that face one another correspond
  (`Table.Resident.corresponds`), and nothing else corresponds to a copy
  (`Table.Resident.exists_faces`).
* **Positions.**  Copies of both tables are the same only for shared symbols
  (`Table.Resident.copy_eq_iff`), so positions are compared in the host just as they cover one
  another (`Table.Resident.covers_iff`).
* **Greatest solutions.**  A copy passes if and only if some symbol of the other table matches and
  justifies the symbol (`Table.Resident.passes_iff`).  So the pairs that justify one another are the
  copies that can be coerced (`Table.Resident.coercible_iff`).
-/

namespace ManySorted

/-- The outline keeps the tag. -/
theorem SymbolKind.tag_outline (kind : SymbolKind) : kind.outline.tag = kind.tag := by
  cases kind with
  | userConstant constant => cases constant <;> rfl
  | data shape info => cases shape <;> rfl
  | _ => rfl

namespace AcceptedValues

variable {f : SymbolId → SymbolId} {v : AcceptedValues} {id : SymbolId}

theorem symbol_mem_rename :
    .symbol id ∈ (v.rename f).constants ↔ ∃ c, .symbol c ∈ v.constants ∧ f c = id := by
  simp [rename]

theorem sort_mem_rename : id ∈ (v.rename f).sorts ↔ ∃ s ∈ v.sorts, f s = id := by
  simp [rename]

theorem hasString_rename (f : SymbolId → SymbolId) {value : Name} :
    (v.rename f).HasString value ↔ v.HasString value := by
  rw [HasString, rename, string_mem_constants_mapIds]
  rfl

end AcceptedValues

namespace Table

variable {names : Interner} {t foreign first second : Table} {name left right : Name}
  {ns source target : NamespaceId} {f g : SymbolId → SymbolId} {r s c d x y z : SymbolId}
  {v w : AcceptedValues}

theorem isNestedConstant_iff : t.isNestedConstant c = true ↔
    (t.kindOf c).outline = .userConstant .derived ∨
      (t.kindOf c).outline = .userConstant (.type default) := by
  unfold isNestedConstant
  cases t.kindOf c with
  | userConstant kind => cases kind <;> simp [SymbolKind.outline, ConstantKind.isTypeValued]
  | _ => simp [SymbolKind.outline]

/-! ## Copies under a name -/

/-- A table in good order that is hosted in another one. -/
structure Resident (names : Interner) (foreign t : Table) (name : Name) (ns : NamespaceId)
    (f : SymbolId → SymbolId) : Prop extends foreign.Hosted t name ns f where
  formed : foreign.WellFormed names
  closed : ∀ {r}, foreign.Holds r → (foreign.symbolAt r).Closed foreign
  regular : t.Regular names

namespace Resident

section

variable (h : foreign.Resident names t name ns f)
include h

theorem mirrored : foreign.Mirrored t (some name) f :=
  h.toHosted.mirrored h.formed.toRegular h.regular h.closed

theorem hasNamespace : t.HasNamespace ns := (h.regular.tree.child h.child).1

theorem path_base : t.path ns = [name] := by
  rw [h.regular.tree.path_of_child? h.child, h.regular.tree.path_root, List.nil_append]

theorem copies (hr : foreign.Holds r) : foreign.Copies t f r (f r) :=
  h.toHosted.copies h.regular.tree hr

theorem injective (hx : foreign.Holds x) (hy : foreign.Holds y) (heq : f x = f y) : x = y :=
  h.mirrored.injective (hx.broughtIn name) (hy.broughtIn name) heq

theorem path (hr : foreign.Holds r) (hmoves : (foreign.kindOf r).staysInRoot = false) :
    t.path (t.symbolAt (f r)).home = name :: foreign.path (foreign.symbolAt r).home := by
  rw [h.mirrored.path (hr.broughtIn name) hmoves, Option.toList_some, List.singleton_append]

theorem staysInRoot (hr : foreign.Holds r) :
    (t.kindOf (f r)).staysInRoot = (foreign.kindOf r).staysInRoot := by
  rw [← SymbolKind.staysInRoot_outline, (h.copies hr).outline, SymbolKind.staysInRoot_outline]

theorem tag (hr : foreign.Holds r) : (t.kindOf (f r)).tag = (foreign.kindOf r).tag := by
  rw [← SymbolKind.tag_outline, (h.copies hr).outline, SymbolKind.tag_outline]

theorem isNestedConstant (hr : foreign.Holds r) :
    t.isNestedConstant (f r) = foreign.isNestedConstant r := by
  rw [Bool.eq_iff_iff, isNestedConstant_iff, isNestedConstant_iff, (h.copies hr).outline]

theorem dataOf? (hs : foreign.dataOf? s = some d) : t.dataOf? (f s) = some (f d) :=
  h.imported.embedding.dataOf? h.formed.toRegular h.regular hs

theorem type (hc : foreign.kindOf c = .userConstant (.type s)) :
    t.kindOf (f c) = .userConstant (.type (f s)) := by
  obtain ⟨d, shape, info, hd, rfl, rfl⟩ := h.formed.families.type hc
  obtain ⟨info', hkind, -, -, hsort, hconstant⟩ :=
    h.imported.embedding.data h.formed.toRegular h.regular hd
  rw [← hsort, ← hconstant]
  exact (h.regular.families.data hkind).constant_kind

theorem exists_type (hr : foreign.Holds r) (hc : t.kindOf (f r) = .userConstant (.type s)) :
    ∃ s', foreign.kindOf r = .userConstant (.type s') ∧ s = f s' := by
  have houtline := (h.copies hr).outline
  rw [hc] at houtline
  cases hkind : foreign.kindOf r with
  | userConstant kind =>
      rw [hkind] at houtline
      cases kind with
      | type s' =>
          refine ⟨s', rfl, ?_⟩
          cases (h.type hkind).symm.trans hc
          rfl
      | _ => cases houtline
  | _ =>
      rw [hkind] at houtline
      cases houtline

theorem baseConstant_iff (hr : foreign.Holds r) {value : BaseConstant} :
    t.kindOf (f r) = .baseConstant value ↔ foreign.kindOf r = .baseConstant value := by
  have hiff : ∀ kind : SymbolKind,
      kind.outline = .baseConstant value ↔ kind = .baseConstant value := by
    intro kind
    cases kind with
    | userConstant constant => cases constant <;> simp [SymbolKind.outline]
    | _ => simp [SymbolKind.outline]
  rw [← hiff, (h.copies hr).outline, hiff]

/-- What lives under the name is a copy, and lies there as the symbol lies in its own table. -/
theorem exists_copy {relative : List Name} (hx : t.Holds x)
    (hpath : t.path (t.symbolAt x).home = name :: relative) :
    ∃ r, foreign.Holds r ∧ (foreign.kindOf r).staysInRoot = false ∧ f r = x ∧
      foreign.path (foreign.symbolAt r).home = relative := by
  obtain ⟨r, hr, hmoves, rfl⟩ := h.exact hx hpath
  refine ⟨r, hr, hmoves, rfl, ?_⟩
  rw [h.path hr hmoves] at hpath
  exact (List.cons.inj hpath).2

theorem liesUnder (hr : foreign.Holds r) (hmoves : (foreign.kindOf r).staysInRoot = false) :
    t.liesUnder (f r) ns = true := by
  have hheld := (h.copies hr).holds
  rw [Table.liesUnder, h.regular.tree.isWithin_iff (h.regular.arena.home hheld) h.hasNamespace]
  exact ⟨foreign.path (foreign.symbolAt r).home, by rw [h.path hr hmoves, h.path_base]; rfl⟩

end

end Resident

theorem staysInRoot_of_data {shape : DataShape} {info : DataInfo}
    (hd : t.kindOf d = .data shape info) : (t.kindOf d).staysInRoot = false := by
  rw [hd]
  rfl

theorem staysInRoot_of_sort (hs : t.IsSort s) : (t.kindOf s).staysInRoot = false := by
  obtain ⟨d, hd⟩ := hs
  rw [← SymbolKind.staysInRoot_unsized, hd]
  rfl

theorem IsCompared.staysInRoot (h : t.IsCompared x) : (t.kindOf x).staysInRoot = false :=
  h.elim staysInRoot_of_sort staysInRoot_of_isNestedConstant

theorem IsCompared.holds (h : t.IsCompared x) : t.Holds x := by
  rcases h with hsort | hnested
  · exact hsort.holds
  · obtain ⟨kind, hkind⟩ := userConstant_of_isNestedConstant hnested
    exact holds_of_constant hkind

theorem Matched.holds (h : first.Matched second x y) : first.Holds x ∧ second.Holds y := by
  cases h with
  | sort hd he _ =>
      exact ⟨(isSort_iff_dataOf?.2 ⟨_, hd⟩).holds, (isSort_iff_dataOf?.2 ⟨_, he⟩).holds⟩
  | constant _ _ h => exact ⟨h.holds, h.holds'⟩

theorem Matched.isCompared (h : first.Matched second x y) : first.IsCompared x := by
  cases h with
  | sort hd _ _ => exact .inl (isSort_iff_dataOf?.2 ⟨_, hd⟩)
  | constant hx _ _ => exact .inr hx

theorem Matched.staysInRoot (h : first.Matched second x y) :
    (second.kindOf y).staysInRoot = false := by
  cases h with
  | sort _ he _ => exact staysInRoot_of_sort (isSort_iff_dataOf?.2 ⟨_, he⟩)
  | constant _ hy _ => exact hy

/-! ## Two tables side by side -/

namespace Resident

section

variable (hleft : first.Resident names t left source f)
  (hright : second.Resident names t right target g)
include hleft hright

/-- The copies of symbols that face one another correspond. -/
theorem corresponds (h : first.Faces second x y) (hx : (first.kindOf x).staysInRoot = false)
    (hy : (second.kindOf y).staysInRoot = false) : t.Corresponds source target (f x) (g y) where
  holds := (hright.copies h.holds').holds
  home := by
    refine ⟨first.path (first.symbolAt x).home, ?_, ?_⟩
    · rw [hleft.path h.holds hx, hleft.path_base, List.singleton_append]
    · rw [hright.path h.holds' hy, hright.path_base, h.path, List.singleton_append]
  name := by rw [(hright.copies h.holds').name, (hleft.copies h.holds).name, h.name]
  tag := by rw [hright.tag h.holds', hleft.tag h.holds, h.tag]
  arity := by rw [(hright.copies h.holds').arity, (hleft.copies h.holds).arity, h.arity]

/-- What corresponds to a copy is the copy of a symbol that faces the first one. -/
theorem exists_faces (hx : first.Holds x) (hmoves : (first.kindOf x).staysInRoot = false)
    (h : t.Corresponds source target (f x) z) :
    ∃ y, first.Faces second x y ∧ (second.kindOf y).staysInRoot = false ∧ z = g y := by
  obtain ⟨relative, hpath, hpath'⟩ := h.home
  rw [hleft.path hx hmoves, hleft.path_base, List.singleton_append] at hpath
  rw [hright.path_base, List.singleton_append] at hpath'
  obtain ⟨y, hy, hmoves', rfl, hhome⟩ := hright.exists_copy h.holds hpath'
  have hname := h.name
  have htag := h.tag
  have harity := h.arity
  rw [(hright.copies hy).name, (hleft.copies hx).name] at hname
  rw [hright.tag hy, hleft.tag hx] at htag
  rw [(hright.copies hy).arity, (hleft.copies hx).arity] at harity
  exact ⟨y, ⟨hx, hy, hhome.trans (List.cons.inj hpath).2.symm, hname, htag, harity⟩, hmoves', rfl⟩

theorem counterpart?_of_matched (h : first.Matched second x y) :
    t.counterpart? source target (f x) = some (g y) := by
  have htarget := hright.hasNamespace
  cases h with
  | sort hd he h =>
      obtain ⟨shape, info, hkind, -⟩ := hleft.formed.families.sort (dataOf?_eq_some_iff.1 hd)
      obtain ⟨shape', info', hkind', -⟩ := hright.formed.families.sort (dataOf?_eq_some_iff.1 he)
      have hsort := isSort_iff_dataOf?.2 ⟨_, hd⟩
      apply counterpart?_of_sort hleft.regular htarget (hleft.dataOf? hd) _ _ (hright.dataOf? he)
      · exact hleft.liesUnder hsort.holds (staysInRoot_of_sort hsort)
      · exact hleft.corresponds hright h (staysInRoot_of_data hkind) (staysInRoot_of_data hkind')
  | constant hx hy h =>
      have hmoves := staysInRoot_of_isNestedConstant hx
      apply counterpart?_of_constant hleft.regular htarget
      · rw [hleft.isNestedConstant h.holds, hx]
      · exact hleft.liesUnder h.holds hmoves
      · exact hleft.corresponds hright h hmoves hy

theorem exists_matched (hx : first.IsCompared x)
    (h : t.counterpart? source target (f x) = some z) :
    ∃ y, first.Matched second x y ∧ z = g y := by
  rcases hx with hsort | hnested
  · obtain ⟨d, hd⟩ := isSort_iff_dataOf?.1 hsort
    obtain ⟨shape, info, hkind, -⟩ := hleft.formed.families.sort (dataOf?_eq_some_iff.1 hd)
    have hholds := holds_of_data hkind
    have hmoves := staysInRoot_of_data hkind
    rcases counterpart?_sort hleft.regular (hleft.dataOf? hd) h with
      ⟨helsewhere, -⟩ | ⟨-, -, -, e', hcorresponds, he'⟩
    · cases helsewhere.symm.trans (hleft.liesUnder hholds hmoves)
    · obtain ⟨e, hfaces, -, rfl⟩ := hleft.exists_faces hright hholds hmoves hcorresponds
      obtain ⟨shape', info', hkind'⟩ := exists_data_of_tag hkind hfaces.tag
      have hy := hright.formed.families.dataOf?_sort hkind'
      exact ⟨info'.sort, .sort hd hy hfaces, hright.regular.eq_of_dataOf? he' (hright.dataOf? hy)⟩
  · obtain ⟨kind, hkind⟩ := userConstant_of_isNestedConstant hnested
    have hholds := holds_of_constant hkind
    have hmoves := staysInRoot_of_isNestedConstant hnested
    have hnested' : t.isNestedConstant (f x) = true := by
      rw [hleft.isNestedConstant hholds, hnested]
    rcases counterpart?_constant hleft.regular hnested' h with
      ⟨helsewhere, -⟩ | ⟨-, hcorresponds⟩
    · cases helsewhere.symm.trans (hleft.liesUnder hholds hmoves)
    · obtain ⟨y, hfaces, hmoves', rfl⟩ := hleft.exists_faces hright hholds hmoves hcorresponds
      exact ⟨y, .constant hnested hmoves' hfaces, rfl⟩

/-- Copies of symbols of both tables are the same just for shared symbols of one name. -/
theorem copy_eq_iff (hne : left ≠ right) (hx : first.Holds x) (hy : second.Holds y)
    (hnamed : (first.symbolAt x).name.isEmpty = false) :
    f x = g y ↔ (first.kindOf x).staysInRoot = true ∧ (second.kindOf y).staysInRoot = true ∧
      (second.symbolAt y).name = (first.symbolAt x).name := by
  have hstays := hleft.staysInRoot hx
  have hstays' := hright.staysInRoot hy
  have hname := (hleft.copies hx).name
  have hname' := (hright.copies hy).name
  constructor
  · intro heq
    rw [heq] at hstays hname
    refine ⟨?_, ?_, hname'.symm.trans hname⟩
    · by_contra hmoves
      rw [Bool.not_eq_true] at hmoves
      have hpath := hleft.path hx hmoves
      rw [heq, hright.path hy (by rw [← hstays', hstays, hmoves])] at hpath
      exact hne (List.cons.inj hpath).1.symm
    · by_contra hmoves
      rw [Bool.not_eq_true] at hmoves
      have hpath := hright.path hy hmoves
      rw [← heq, hleft.path hx (by rw [← hstays, hstays', hmoves])] at hpath
      exact hne (List.cons.inj hpath).1
  · rintro ⟨hroot, hroot', hsame⟩
    apply hleft.regular.arena.eq_of_home_of_name (hleft.copies hx).holds (hright.copies hy).holds
    · rw [hname, hnamed]
    · rw [hleft.mirrored.root (hx.broughtIn left) hroot,
        hright.mirrored.root (hy.broughtIn right) hroot']
    · rw [hname, hname', hsame]

/-- The copy of a constant is accepted if the constant is shared, and accepted by its name or as a
truth value. -/
theorem hasConstant_iff (hne : left ≠ right) (hc : first.IsConstant c) (hw : w.Closed second) :
    (w.rename g).HasConstant t (f c) ↔ (first.kindOf c).staysInRoot = true ∧
      ((∃ c', .symbol c' ∈ w.constants ∧ (second.kindOf c').staysInRoot = true ∧
          (second.symbolAt c').name = (first.symbolAt c).name) ∨
        w.base.boolean = true ∧ ∃ value, first.kindOf c = .baseConstant value) := by
  have hnamed : (first.symbolAt c).name.isEmpty = false := by
    rw [← Bool.not_eq_true, hleft.formed.families.named hc.holds]
    rintro ⟨d, hd⟩
    rw [IsConstant, ← isConstant_unsized, hd] at hc
    cases hc
  rw [AcceptedValues.HasConstant, AcceptedValues.symbol_mem_rename]
  constructor
  · rintro (⟨c', hc', heq⟩ | ⟨hboolean, value, hvalue⟩)
    · obtain ⟨hstays, hstays', hname⟩ :=
        (hleft.copy_eq_iff hright hne hc.holds (hw.constants hc').holds hnamed).1 heq.symm
      exact ⟨hstays, .inl ⟨c', hc', hstays', hname⟩⟩
    · rw [hleft.baseConstant_iff hc.holds] at hvalue
      refine ⟨?_, .inr ⟨hboolean, value, hvalue⟩⟩
      rw [hvalue]
      rfl
  · rintro ⟨hstays, ⟨c', hc', hstays', hname⟩ | ⟨hboolean, value, hvalue⟩⟩
    · refine .inl ⟨c', hc', ?_⟩
      exact ((hleft.copy_eq_iff hright hne hc.holds (hw.constants hc').holds hnamed).2
        ⟨hstays, hstays', hname⟩).symm
    · exact .inr ⟨hboolean, value, (hleft.baseConstant_iff hc.holds).2 hvalue⟩

omit hright in
/-- The copies of what is compared in a position are compared in its copy. -/
theorem mem_nestedSymbols_iff (hv : v.Closed first) :
    z ∈ t.nestedSymbols (v.rename f) ↔ ∃ x ∈ first.nestedSymbols v, f x = z := by
  rw [mem_nestedSymbols, AcceptedValues.symbol_mem_rename, AcceptedValues.sort_mem_rename]
  constructor
  · rintro (⟨⟨c, hc, rfl⟩, hnested⟩ | ⟨s, hs, rfl⟩)
    · rw [hleft.isNestedConstant (hv.constants hc).holds] at hnested
      exact ⟨c, mem_nestedSymbols.2 (.inl ⟨hc, hnested⟩), rfl⟩
    · exact ⟨s, mem_nestedSymbols.2 (.inr hs), rfl⟩
  · rintro ⟨x, hx, rfl⟩
    rcases mem_nestedSymbols.1 hx with ⟨hc, hnested⟩ | hs
    · rw [hleft.isNestedConstant (hv.constants hc).holds]
      exact .inl ⟨⟨x, hc, rfl⟩, hnested⟩
    · exact .inr ⟨x, hs, rfl⟩

/-- The copy of what is compared passes just if the symbol is matched by one that is accepted. -/
theorem nestedPasses_iff (hx : first.IsCompared x) (hw : w.Closed second)
    {assumed : SymbolId → Prop} :
    t.NestedPasses source target assumed (w.rename g) (f x) ↔
      ∃ y, (first.Matched second x y ∧ assumed (f x)) ∧
        (y ∈ w.sorts ∨ .symbol y ∈ w.constants) := by
  have haccepts : ∀ {y}, second.Holds y →
      (((w.rename g).sorts.contains (g y) ||
          (w.rename g).acceptsConstant (.symbol (g y)) false) = true ↔
        y ∈ w.sorts ∨ .symbol y ∈ w.constants) := by
    intro y hy
    simp only [AcceptedValues.acceptsConstant, OrderedSet.contains, Bool.false_and, Bool.or_false,
      Bool.or_eq_true, List.contains_iff_mem]
    refine or_congr (AcceptedValues.sort_mem_rename.trans ?_)
      (AcceptedValues.symbol_mem_rename.trans ?_)
    · refine ⟨?_, fun hmem => ⟨y, hmem, rfl⟩⟩
      rintro ⟨s, hs, heq⟩
      rwa [← hright.injective (hw.sorts hs).holds hy heq]
    · refine ⟨?_, fun hmem => ⟨y, hmem, rfl⟩⟩
      rintro ⟨c, hc, heq⟩
      rwa [← hright.injective (hw.constants hc).holds hy heq]
  constructor
  · rintro ⟨hassumed, mapped, hcounterpart, hmem⟩
    obtain ⟨y, hmatched, rfl⟩ := hleft.exists_matched hright hx hcounterpart
    exact ⟨y, ⟨hmatched, hassumed⟩, (haccepts hmatched.holds.2).1 hmem⟩
  · rintro ⟨y, ⟨hmatched, hassumed⟩, hmem⟩
    exact ⟨hassumed, g y, hleft.counterpart?_of_matched hright hmatched,
      (haccepts hmatched.holds.2).2 hmem⟩

/-- A copy of a position accepts a copy of another just if it covers it, given which copies can be
coerced. -/
theorem covers_iff (hne : left ≠ right) (hv : v.Closed first) (hw : w.Closed second)
    (hnormal : w.Normal) {assumed : SymbolId → Prop} :
    (t.acceptsDirectly (v.rename f) (w.rename g) = true ∧
      ∀ nested ∈ t.nestedSymbols (v.rename f),
        t.NestedPasses source target assumed (w.rename g) nested) ↔
      first.Covers second (fun x y => first.Matched second x y ∧ assumed (f x)) v w := by
  have hcompared : ∀ {x}, x ∈ first.nestedSymbols v → first.IsCompared x := by
    intro x hx
    rcases mem_nestedSymbols.1 hx with ⟨-, hnested⟩ | hs
    · exact .inr hnested
    · exact .inl (hv.sorts hs)
  rw [acceptsDirectly_iff (hnormal.rename g)]
  constructor
  · rintro ⟨⟨hinteger, hreal, hstring, hboolean, hliteral, hconstant⟩, hnested⟩
    refine ⟨hinteger, hreal, hstring, hboolean, fun value hvalue => ?_, fun c hc hlisted => ?_,
      fun x hx => ?_⟩
    · rw [← AcceptedValues.hasString_rename g]
      exact hliteral value (AcceptedValues.string_mem_constants_mapIds.2 hvalue)
    · refine (hleft.hasConstant_iff hright hne (hv.constants hc) hw).1 (hconstant (f c) ?_ ?_)
      · exact AcceptedValues.symbol_mem_rename.2 ⟨c, hc, rfl⟩
      · rw [hleft.isNestedConstant (hv.constants hc).holds, hlisted]
    · refine (hleft.nestedPasses_iff hright (hcompared hx) hw).1 (hnested (f x) ?_)
      exact (hleft.mem_nestedSymbols_iff hv).2 ⟨x, hx, rfl⟩
  · intro h
    refine ⟨⟨h.integer, h.real, h.string, h.boolean, fun value hvalue => ?_,
      fun c' hc' hlisted => ?_⟩, fun z hz => ?_⟩
    · rw [AcceptedValues.hasString_rename]
      exact h.literal value (AcceptedValues.string_mem_constants_mapIds.1 hvalue)
    · obtain ⟨c, hc, rfl⟩ := AcceptedValues.symbol_mem_rename.1 hc'
      rw [hleft.isNestedConstant (hv.constants hc).holds] at hlisted
      exact (hleft.hasConstant_iff hright hne (hv.constants hc) hw).2 (h.shared c hc hlisted)
    · obtain ⟨x, hx, rfl⟩ := (hleft.mem_nestedSymbols_iff hv).1 hz
      exact (hleft.nestedPasses_iff hright (hcompared hx) hw).2 (h.nested x hx)

/-- Forms are compared position by position. -/
theorem forall₂_covers_iff (hne : left ≠ right) {src dst : CanonicalForm} (hsrc : src.Closed first)
    (hdst : dst.Closed second) (hnormal : ∀ w ∈ dst.positions, w.Normal)
    {assumed : SymbolId → Prop} :
    List.Forall₂ (first.Covers second fun x y => first.Matched second x y ∧ assumed (f x))
        src.positions dst.positions ↔
      (src.rename f).size = (dst.rename g).size ∧
        ∀ pair ∈ (src.rename f).positions.zip (dst.rename g).positions,
          t.acceptsDirectly pair.1 pair.2 = true ∧ ∀ nested ∈ t.nestedSymbols pair.1,
            t.NestedPasses source target assumed pair.2 nested := by
  have hpairs : ∀ {v w}, (v, w) ∈ src.positions.zip dst.positions →
      v.Closed first ∧ w.Closed second ∧ w.Normal := by
    intro v w hvw
    obtain ⟨hv, hw⟩ := List.of_mem_zip hvw
    exact ⟨hsrc v hv, hdst w hw, hnormal w hw⟩
  rw [List.forall₂_iff_zip, CanonicalForm.size_rename, CanonicalForm.size_rename,
    CanonicalForm.rename, CanonicalForm.rename, List.zip_map, List.forall_mem_map]
  refine and_congr_right fun _ => ⟨fun h pair hpair => ?_, fun h v w hvw => ?_⟩
  · obtain ⟨hv, hw, hnormal⟩ := hpairs hpair
    exact (hleft.covers_iff hright hne hv hw hnormal).2 (h hpair)
  · obtain ⟨hv, hw, hnormal⟩ := hpairs hvw
    exact (hleft.covers_iff hright hne hv hw hnormal).1 (h (v, w) hvw)

/-- The copy of a symbol accepts all that the copy of another does just if the symbol justifies
it. -/
theorem compares_iff (hne : left ≠ right) (hnormal : ∀ y, second.NormalAt y)
    (h : first.Matched second x y) {assumed : SymbolId → Prop} :
    t.Compares source target assumed (f x) (g y) ↔
      first.Justifies second (fun x y => first.Matched second x y ∧ assumed (f x)) x y := by
  obtain ⟨hx, hy⟩ := h.holds
  have hform := (hleft.copies hx).form
  have hform' := (hright.copies hy).form
  constructor
  · intro hcompares
    cases hcompares with
    | type hkind hkind' hsort hexpected =>
        obtain ⟨s, hs, rfl⟩ := hleft.exists_type hx hkind
        obtain ⟨s', hs', rfl⟩ := hright.exists_type hy hkind'
        obtain ⟨e, hmatched, heq⟩ :=
          hleft.exists_matched hright (.type hleft.formed.toRegular hs) hexpected
        have hheld := (IsCompared.type hright.formed.toRegular hs').holds
        obtain rfl := hright.injective hheld hmatched.holds.2 heq
        exact .type hs hs' ⟨hmatched, hsort⟩
    | form hother hsrc hdst hsize hdirect hnested =>
        rw [hform, Option.map_eq_some_iff] at hsrc
        rw [hform', Option.map_eq_some_iff] at hdst
        obtain ⟨src, hsrc, rfl⟩ := hsrc
        obtain ⟨dst, hdst, rfl⟩ := hdst
        refine .form (fun s hs => hother _ (hleft.type hs)) hsrc hdst ?_
        exact (hleft.forall₂_covers_iff hright hne ((hleft.closed hx).form hsrc)
          ((hright.closed hy).form hdst) (hnormal y dst hdst)).2
            ⟨hsize, fun pair hpair => ⟨hdirect pair hpair, hnested pair hpair⟩⟩
  · intro hjustifies
    cases hjustifies with
    | type hs hs' hsort =>
        exact .type (hleft.type hs) (hright.type hs') hsort.2
          (hleft.counterpart?_of_matched hright hsort.1)
    | @form src dst hother hsrc hdst hcovers =>
        obtain ⟨hsize, hall⟩ := (hleft.forall₂_covers_iff hright hne ((hleft.closed hx).form hsrc)
          ((hright.closed hy).form hdst) (hnormal y dst hdst)).1 hcovers
        refine .form (fun s hs => ?_) ?_ ?_ hsize
          (fun pair hpair => (hall pair hpair).1) fun pair hpair => (hall pair hpair).2
        · obtain ⟨s', hs', -⟩ := hleft.exists_type hx hs
          exact hother s' hs'
        · rw [hform, hsrc]
          rfl
        · rw [hform', hdst]
          rfl

/-- A copy passes just if some symbol of the other table matches the symbol and is justified. -/
theorem passes_iff (hne : left ≠ right) (hnormal : ∀ y, second.NormalAt y) (hx : first.IsCompared x)
    {assumed : SymbolId → Prop} :
    t.Passes source target assumed (f x) ↔ ∃ y, first.Matched second x y ∧
      first.Justifies second (fun x y => first.Matched second x y ∧ assumed (f x)) x y := by
  constructor
  · rintro ⟨_, hcounterpart, hcompares⟩
    obtain ⟨y, hmatched, rfl⟩ := hleft.exists_matched hright hx hcounterpart
    refine ⟨y, hmatched, (hleft.compares_iff hright hne hnormal hmatched).1 ?_⟩
    refine hcompares.resolve_left fun heq => ?_
    -- the two copies lie under different names
    have hpath := hleft.path hx.holds hx.staysInRoot
    rw [← heq, hright.path hmatched.holds.2 hmatched.staysInRoot] at hpath
    exact hne (List.cons.inj hpath).1.symm
  · rintro ⟨y, hmatched, hjustifies⟩
    exact ⟨g y, hleft.counterpart?_of_matched hright hmatched,
      .inr ((hleft.compares_iff hright hne hnormal hmatched).2 hjustifies)⟩

/-- A copy can be coerced from one name to the other just if the symbol narrows to one of the other
table. -/
theorem coercible_iff (hne : left ≠ right) (hnormal : ∀ y, second.NormalAt y)
    (hx : first.IsCompared x) :
    t.Coercible source target (f x) ↔ ∃ y, first.Narrows second x y := by
  have hsecond := hright.formed.toRegular
  constructor
  · intro h
    obtain ⟨y, hmatched, -⟩ := (hleft.passes_iff hright hne hnormal hx).1 h.passes
    refine ⟨y, fun x y => first.Matched second x y ∧ t.Coercible source target (f x), ⟨hmatched, h⟩,
      ?_⟩
    rintro x y ⟨hmatched, h⟩
    obtain ⟨z, hmatched', hjustifies⟩ :=
      (hleft.passes_iff hright hne hnormal hmatched.isCompared).1 h.passes
    obtain rfl := hmatched.unique hsecond hmatched'
    exact ⟨hmatched, hjustifies⟩
  · rintro ⟨y, h⟩
    refine ⟨fun z => ∃ x y, f x = z ∧ first.Narrows second x y, ⟨x, y, rfl, h⟩, ?_⟩
    rintro _ ⟨x, y, rfl, h⟩
    refine (hleft.passes_iff hright hne hnormal h.matched.isCompared).2 ⟨y, h.matched, ?_⟩
    exact h.justifies.mono fun x y hxy => ⟨hxy.matched, x, y, rfl, hxy⟩

end

end Resident

end Table

end ManySorted
