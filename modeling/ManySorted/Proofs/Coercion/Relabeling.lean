import ManySorted.Proofs.Coercion.Query
import ManySorted.Proofs.Session
import ManySorted.Proofs.Term

/-!
# Coercion keeps terms well sorted

A term that was built under one namespace is carried to another by putting the corresponding symbol
in place of every data symbol and type-valued constant that lies there.  If a sort can be coerced,
every finite term of it becomes a term of the target (`Table.coerce_relabels`).  The comparison of
recursive sorts rests on itself, but a finite term does not: the proof is by induction on the term,
and each step uses what the comparison found out about one symbol.

## Strategy

* **Corresponding symbols.**  What a symbol corresponds to is determined by it
  (`Table.Corresponds.unique`), and the counterpart that a query looks up is the symbol itself or
  what corresponds to it (`Table.counterpart?_cases`).
* **One position.**  A literal or constant that one position accepts is accepted directly by the
  other, or compared by coercion (`Table.hasInteger_of_acceptsDirectly`, `Table.readsAs_nested`).
* **Induction on terms.**  An application follows its sort if its arguments do, and these are
  accepted by positions that were compared (`Table.Follows.admits`).  So every term follows its sort
  (`Table.follows`), whether or not the sort is recursive.
* **Queries.**  A positive answer means that the comparison found nothing amiss, so the target
  exists, and every term has one reading in it (`Table.coerce_relabels`).
-/

namespace ManySorted

namespace Table

variable {names : Interner} {t : Table} {source target : NamespaceId} {x y c d s s' : SymbolId}

/-- Two symbols of the same name, kind and arity that stand at the same path below two
namespaces. -/
structure Corresponds (t : Table) (source target : NamespaceId) (x y : SymbolId) : Prop where
  holds : t.Holds y
  home : ∃ relative, t.path (t.symbolAt x).home = t.path source ++ relative ∧
    t.path (t.symbolAt y).home = t.path target ++ relative
  name : (t.symbolAt y).name = (t.symbolAt x).name
  tag : (t.kindOf y).tag = (t.kindOf x).tag
  arity : (t.symbolAt y).arity = (t.symbolAt x).arity

/-- Whether a symbol lies under a namespace. -/
def liesUnder (t : Table) (x : SymbolId) (ns : NamespaceId) : Bool :=
  t.isWithin (t.symbolAt x).home ns

mutual

/-- Whether a term that was built under `source` reads as the second one under `target`.  Only data
symbols and type-valued constants that lie under `source` are replaced, and what stands below a
symbol that lies elsewhere is left alone. -/
def Relabels (t : Table) (source target : NamespaceId) : Term → Term → Prop
  | .constant c, y =>
      if t.isNestedConstant c = true ∧ t.liesUnder c source = true then
        ∃ c', t.Corresponds source target c c' ∧ y = .constant c'
      else y = .constant c
  | .data d arguments, y =>
      if t.liesUnder d source = true then
        ∃ d' arguments', t.Corresponds source target d d' ∧
          RelabelsAll t source target arguments arguments' ∧ y = .data d' arguments'
      else y = .data d arguments
  | .integer n, y => y = .integer n
  | .fraction q, y => y = .fraction q
  | .string value, y => y = .string value

/-- Whether terms read as others, one by one. -/
def RelabelsAll (t : Table) (source target : NamespaceId) : List Term → List Term → Prop
  | [], others => others = []
  | x :: rest, others => ∃ y others', Relabels t source target x y ∧
      RelabelsAll t source target rest others' ∧ others = y :: others'

end

/-! ## Corresponding symbols -/

/-- What a symbol other than a sort corresponds to is determined by it. -/
theorem Corresponds.unique (h : t.Corresponds source target x y) (ht : t.Regular names)
    (hx : t.Holds x) (hsort : t.dataOf? x = none) {z : SymbolId}
    (h' : t.Corresponds source target x z) : z = y := by
  have hnamed := ht.families.isEmpty_eq_false hx hsort
  obtain ⟨relative, hpath, hy⟩ := h.home
  obtain ⟨relative', hpath', hz⟩ := h'.home
  have hrelative : relative = relative' := List.append_cancel_left (hpath.symm.trans hpath')
  apply ht.eq_of_path h'.holds h.holds
  · rwa [h'.name]
  · rw [hy, hz, hrelative]
  · rw [h'.name, h.name]

/-- A symbol under one namespace corresponds to itself under no other. -/
theorem Corresponds.eq_of_self (h : t.Corresponds source target x x) (ht : t.Regular names)
    (hsource : t.HasNamespace source) (htarget : t.HasNamespace target) : source = target := by
  obtain ⟨relative, hx, hy⟩ := h.home
  exact ht.tree.path_inj hsource htarget (List.append_cancel_right (hx.symm.trans hy))

/-- What is looked up for a coercion is the symbol itself, if it lies elsewhere, or what corresponds
to it.  A sort is looked up by the name of its data symbol. -/
theorem counterpart?_cases (ht : t.Regular names)
    (hx : t.Holds ((t.dataOf? x).getD x)) (h : t.counterpart? source target x = some y) :
    (t.liesUnder ((t.dataOf? x).getD x) source = false ∧ y = x) ∨
      (t.liesUnder ((t.dataOf? x).getD x) source = true ∧ t.HasNamespace source ∧
        t.HasNamespace target ∧ ∃ found, t.Corresponds source target ((t.dataOf? x).getD x) found ∧
          (if (t.dataOf? x).isSome then t.sortOf? found else some found) = some y) := by
  unfold counterpart? bearer at h
  dsimp only at h
  split at h
  · next hout =>
      cases h
      exact .inl ⟨Bool.not_eq_true' _ ▸ hout, rfl⟩
  · next hin =>
      have hin : t.isWithin (t.symbolAt ((t.dataOf? x).getD x)).home source = true := by
        simpa using hin
      obtain ⟨hsource, relative, hpath, -⟩ :=
        ht.tree.descend?_of_isWithin (ht.arena.home hx) hin
      rw [hpath, List.drop_left] at h
      split at h
      · cases h
      · next found hfound =>
          obtain ⟨ns, hns, hsymbol⟩ := Option.bind_eq_some_iff.1 hfound
          obtain ⟨hholds, hhome, hname, -⟩ := ht.arena.entry hsymbol
          split at h
          · cases h
          · next hsame =>
              obtain ⟨htag, harity⟩ := not_or.1 hsame
              have htarget : t.HasNamespace target := by
                by_contra habsent
                -- from a namespace that is not there, no path leads anywhere but back
                cases relative with
                | nil =>
                    cases hns
                    exact habsent (hhome ▸ ht.arena.home hholds)
                | cons segment rest =>
                    rw [descend?, namespaceAt_of_not_hasNamespace habsent] at hns
                    cases hns
              refine .inr ⟨hin, hsource, htarget, found, ⟨hholds, ⟨relative, hpath, ?_⟩, hname,
                not_not.1 htag, not_not.1 harity⟩, ?_⟩
              · rw [hhome, ht.tree.path_of_descend? hns]
              · split at h
                · next hsort => rwa [if_pos hsort]
                · next hsort => rwa [if_neg hsort]

/-- What shares its kind with a data symbol is one. -/
theorem exists_data_of_tag {t' : Table} {shape : DataShape} {info : DataInfo}
    (hd : t.kindOf d = .data shape info) (h : (t'.kindOf x).tag = (t.kindOf d).tag) :
    ∃ shape info, t'.kindOf x = .data shape info := by
  rw [hd] at h
  cases hx : t'.kindOf x with
  | data shape info => exact ⟨shape, info, rfl⟩
  | _ =>
      rw [hx] at h
      cases shape <;> cases h

/-- The counterpart of a sort belongs to what its data symbol corresponds to. -/
theorem counterpart?_sort (ht : t.Regular names) (hs : t.dataOf? s = some d)
    (h : t.counterpart? source target s = some s') :
    (t.liesUnder d source = false ∧ s' = s) ∨
      (t.liesUnder d source = true ∧ t.HasNamespace source ∧ t.HasNamespace target ∧
        ∃ d', t.Corresponds source target d d' ∧ t.dataOf? s' = some d') := by
  obtain ⟨shape, info, hd, hsort⟩ := ht.families.sort (dataOf?_eq_some_iff.1 hs)
  have hbearer : (t.dataOf? s).getD s = d := by rw [hs, Option.getD_some]
  have hcases := counterpart?_cases ht (hbearer ▸ holds_of_data hd) h
  rw [hbearer, hs, Option.isSome_some] at hcases
  rcases hcases with hout | ⟨hin, hsource, htarget, found, hfound, hs'⟩
  · exact .inl hout
  · obtain ⟨shape', info', hkind⟩ := exists_data_of_tag hd hfound.tag
    have hs' : info'.sort = s' := by
      rw [if_pos rfl, sortOf?, hkind] at hs'
      exact Option.some.inj hs'
    exact .inr ⟨hin, hsource, htarget, found, hfound, hs' ▸ ht.families.dataOf?_sort hkind⟩

/-- A constant that is compared by coercion is a constant of the user, and no sort. -/
theorem userConstant_of_isNestedConstant (h : t.isNestedConstant c = true) :
    ∃ kind, t.kindOf c = .userConstant kind := by
  unfold isNestedConstant at h
  split at h
  · next kind hkind => exact ⟨kind, hkind⟩
  · cases h

theorem counterpart?_constant (ht : t.Regular names) (hc : t.isNestedConstant c = true)
    (h : t.counterpart? source target c = some y) :
    (t.liesUnder c source = false ∧ y = c) ∨
      (t.liesUnder c source = true ∧ t.Corresponds source target c y) := by
  obtain ⟨kind, hkind⟩ := userConstant_of_isNestedConstant hc
  have hnone : t.dataOf? c = none := by rw [dataOf?, hkind]
  have hbearer : (t.dataOf? c).getD c = c := by rw [hnone, Option.getD_none]
  have hholds : t.Holds ((t.dataOf? c).getD c) := by
    rw [hbearer]
    exact holds_of_constant hkind
  have hcases := counterpart?_cases ht hholds h
  rw [hbearer, hnone, Option.isSome_none] at hcases
  rcases hcases with hout | ⟨hin, -, -, found, hfound, hy⟩
  · exact .inl hout
  · rw [if_neg Bool.false_ne_true] at hy
    cases hy
    exact .inr ⟨hin, hfound⟩

/-! ## One position -/

/-- A term has exactly one reading, and the reading has a property. -/
def ReadsAs (t : Table) (source target : NamespaceId) (x : Term) (P : Term → Prop) : Prop :=
  ∃ y, (∀ z, t.Relabels source target x z ↔ z = y) ∧ P y

theorem relabels_data (ht : t.Regular names) {d' : SymbolId} {arguments arguments' : List Term}
    (hs : t.dataOf? s = some d) (hd : t.liesUnder d source = true)
    (hcorresponds : t.Corresponds source target d d')
    (harguments : ∀ others, t.RelabelsAll source target arguments others ↔ others = arguments')
    (z : Term) : t.Relabels source target (.data d arguments) z ↔ z = .data d' arguments' := by
  obtain ⟨shape, info, hkind, -⟩ := ht.families.sort (dataOf?_eq_some_iff.1 hs)
  have hnone : t.dataOf? d = none := by rw [dataOf?, hkind]
  rw [Relabels, if_pos hd]
  constructor
  · rintro ⟨d'', others, hd'', hothers, rfl⟩
    rw [hcorresponds.unique ht (holds_of_data hkind) hnone hd'', (harguments others).1 hothers]
  · rintro rfl
    exact ⟨d', arguments', hcorresponds, (harguments _).2 rfl, rfl⟩

theorem relabels_constant (ht : t.Regular names) {c' : SymbolId}
    (hc : t.isNestedConstant c = true) (hunder : t.liesUnder c source = true)
    (hcorresponds : t.Corresponds source target c c') (z : Term) :
    t.Relabels source target (.constant c) z ↔ z = .constant c' := by
  obtain ⟨kind, hkind⟩ := userConstant_of_isNestedConstant hc
  have hnone : t.dataOf? c = none := by rw [dataOf?, hkind]
  rw [Relabels, if_pos ⟨hc, hunder⟩]
  constructor
  · rintro ⟨c'', hc'', rfl⟩
    rw [hcorresponds.unique ht (holds_of_constant hkind) hnone hc'']
  · rintro rfl
    exact ⟨c', hcorresponds, rfl⟩

theorem relabelsAll_cons {x y : Term} {rest rest' : List Term}
    (hx : ∀ z, t.Relabels source target x z ↔ z = y)
    (hrest : ∀ others, t.RelabelsAll source target rest others ↔ others = rest')
    (others : List Term) :
    t.RelabelsAll source target (x :: rest) others ↔ others = y :: rest' := by
  rw [RelabelsAll]
  constructor
  · rintro ⟨z, zs, hz, hzs, rfl⟩
    rw [(hx z).1 hz, (hrest zs).1 hzs]
  · rintro rfl
    exact ⟨y, rest', (hx y).2 rfl, (hrest rest').2 rfl, rfl⟩

/-- Constants that are compared by coercion. -/
theorem readsAs_nested (ht : t.Regular names) {dst : AcceptedValues} (hdst : dst.Closed t)
    (hc : t.isNestedConstant c = true)
    (hpasses : t.NestedPasses source target (t.Coercible source target) dst c) :
    t.ReadsAs source target (.constant c) (t.Admits dst) := by
  obtain ⟨-, c', hcounterpart, haccepts⟩ := hpasses
  obtain ⟨kind, hkind⟩ := userConstant_of_isNestedConstant hc
  have hcases := counterpart?_constant ht hc hcounterpart
  -- the counterpart is a constant too, so it is not accepted as a sort
  have htag : (t.kindOf c').tag = .userConstant := by
    rcases hcases with ⟨-, rfl⟩ | ⟨-, hcorresponds⟩
    · rw [hkind, SymbolKind.tag]
    · rw [hcorresponds.tag, hkind, SymbolKind.tag]
  have hmem : .symbol c' ∈ dst.constants := by
    simp only [OrderedSet.contains, AcceptedValues.acceptsConstant, Bool.false_and,
      Bool.or_false, Bool.or_eq_true, List.contains_iff_mem] at haccepts
    rcases haccepts with hsort | hconstant
    · obtain ⟨d, hd⟩ := hdst.sorts hsort
      obtain ⟨size, hsize⟩ := SymbolKind.unsized_eq_userSort.1 hd
      rw [hsize] at htag
      cases htag
    · exact hconstant
  refine ⟨.constant c', fun z => ?_, .inl hmem⟩
  rcases hcases with ⟨hout, rfl⟩ | ⟨hin, hcorresponds⟩
  · rw [Relabels, if_neg (by rw [hout]; rintro ⟨-, ⟨⟩⟩)]
  · exact relabels_constant ht hc hin hcorresponds z

/-- Constants that are compared for being listed. -/
theorem hasConstant_of_acceptsDirectly {src dst : AcceptedValues}
    (hdirect : t.acceptsDirectly src dst = true) (hc : t.isNestedConstant c = false)
    (h : src.HasConstant t c) : dst.HasConstant t c := by
  simp only [acceptsDirectly, Bool.and_eq_true, List.all_eq_true] at hdirect
  obtain ⟨⟨hbase, -⟩, hlisted⟩ := hdirect
  rcases h with hmem | ⟨hboolean, hvalue⟩
  · have haccepts := hlisted _ hmem
    simp only [acceptsListed, hc, Bool.false_or, AcceptedValues.acceptsConstant,
      OrderedSet.contains, Bool.or_eq_true, List.contains_iff_mem, Bool.and_eq_true] at haccepts
    rcases haccepts with hmem' | ⟨hvalue, hboolean⟩
    · exact .inl hmem'
    · refine .inr ⟨hboolean, ?_⟩
      split at hvalue
      · next value hkind => exact ⟨value, hkind⟩
      · cases hvalue
  · exact .inr ⟨(AcceptedValues.contains_of_acceptsBase hbase).2.2 hboolean, hvalue⟩

theorem hasInteger_of_acceptsDirectly {src dst : AcceptedValues} {n : Int}
    (hdirect : t.acceptsDirectly src dst = true) (h : src.HasInteger n) : dst.HasInteger n := by
  simp only [acceptsDirectly, Bool.and_eq_true, List.all_eq_true] at hdirect
  obtain ⟨⟨hbase, hranges⟩, -⟩ := hdirect
  rcases h with ⟨r, hr, hlow, hhigh⟩ | ⟨b, hb, hn⟩
  · exact AcceptedValues.hasInteger_of_acceptsRange (hranges r hr) hlow hhigh
  · exact AcceptedValues.hasInteger_of_acceptsBase hbase hb hn

theorem hasString_of_acceptsDirectly {src dst : AcceptedValues} {value : Name}
    (hdirect : t.acceptsDirectly src dst = true) (h : src.HasString value) :
    dst.HasString value := by
  simp only [acceptsDirectly, Bool.and_eq_true, List.all_eq_true] at hdirect
  obtain ⟨⟨hbase, -⟩, hlisted⟩ := hdirect
  rcases h with hmem | hstring
  · have haccepts := hlisted _ hmem
    simp only [acceptsListed, AcceptedValues.acceptsConstant, OrderedSet.contains,
      Bool.or_eq_true, List.contains_iff_mem] at haccepts
    exact haccepts
  · exact .inr ((AcceptedValues.contains_of_acceptsBase hbase).2.1 hstring)

/-- What is to be shown of a term: it stays well sorted whenever its sort can be coerced. -/
def Follows (t : Table) (source target : NamespaceId) (x : Term) : Prop :=
  ∀ s s', t.Coercible source target s → t.counterpart? source target s = some s' →
    t.HasSort s x → t.ReadsAs source target x (t.HasSort s')

/-- A term that one position accepts is read as one that the other accepts. -/
theorem Follows.admits {x : Term} (h : t.Follows source target x) (ht : t.Regular names)
    {src dst : AcceptedValues} (hdst : dst.Closed t)
    (hdirect : t.acceptsDirectly src dst = true)
    (hnested : ∀ nested ∈ t.nestedSymbols src,
      t.NestedPasses source target (t.Coercible source target) dst nested)
    (hx : t.Admits src x) : t.ReadsAs source target x (t.Admits dst) := by
  cases x with
  | integer n =>
      exact ⟨.integer n, fun z => by rw [Relabels], hasInteger_of_acceptsDirectly hdirect hx⟩
  | fraction q =>
      refine ⟨.fraction q, fun z => by rw [Relabels], ?_⟩
      simp only [acceptsDirectly, Bool.and_eq_true] at hdirect
      exact (AcceptedValues.contains_of_acceptsBase hdirect.1.1).1 hx
  | string value =>
      exact ⟨.string value, fun z => by rw [Relabels], hasString_of_acceptsDirectly hdirect hx⟩
  | constant c =>
      cases hc : t.isNestedConstant c with
      | false =>
          refine ⟨.constant c, fun z => ?_, hasConstant_of_acceptsDirectly hdirect hc hx⟩
          rw [Relabels, if_neg (by rw [hc]; rintro ⟨⟨⟩, -⟩)]
      | true =>
          obtain ⟨kind, hkind⟩ := userConstant_of_isNestedConstant hc
          refine readsAs_nested ht hdst hc (hnested c ?_)
          rcases hx with hmem | ⟨-, value, hvalue⟩
          · refine List.mem_append_left _ (List.mem_filter.2 ⟨?_, hc⟩)
            exact AcceptedValues.mem_constantSymbols.2 hmem
          · rw [hkind] at hvalue
            cases hvalue
  | data d arguments =>
      obtain ⟨s, hs, hsort⟩ := admits_data.1 hx
      obtain ⟨hcoercible, s', hcounterpart, haccepts⟩ :=
        hnested s (List.mem_append_right _ hs)
      obtain ⟨y, hreads, hy⟩ := h s s' hcoercible hcounterpart hsort
      refine ⟨y, hreads, ?_⟩
      have hsort' : t.IsSort s' := by
        obtain ⟨d', arguments', rfl⟩ := hy.exists_data
        exact isSort_iff_dataOf?.2 ⟨d', hy.1⟩
      -- the counterpart is a sort, so it is not accepted as a constant
      have hmem : s' ∈ dst.sorts := by
        simp only [OrderedSet.contains, AcceptedValues.acceptsConstant, Bool.false_and,
          Bool.or_false, Bool.or_eq_true, List.contains_iff_mem] at haccepts
        rcases haccepts with hmem | hconstant
        · exact hmem
        · have hc := hdst.constants hconstant
          obtain ⟨d', hd'⟩ := hsort'
          rw [IsConstant, ← isConstant_unsized, hd'] at hc
          cases hc
      obtain ⟨d', arguments', rfl⟩ := hy.exists_data
      exact admits_data.2 ⟨s', hmem, hy⟩

/-! ## Whole terms -/

/-- Arguments are read one by one. -/
theorem readsAll {arguments : List Term} (harguments : ∀ x ∈ arguments,
      t.Follows source target x) (ht : t.Regular names) {src dst : List AcceptedValues}
    (hdst : ∀ v ∈ dst, v.Closed t) (hlength : src.length = dst.length)
    (hdirect : ∀ pair ∈ src.zip dst, t.acceptsDirectly pair.1 pair.2 = true)
    (hnested : ∀ pair ∈ src.zip dst, ∀ nested ∈ t.nestedSymbols pair.1,
      t.NestedPasses source target (t.Coercible source target) pair.2 nested)
    (hadmits : t.AdmitsAll src arguments) : ∃ arguments',
      (∀ others, t.RelabelsAll source target arguments others ↔ others = arguments') ∧
        t.AdmitsAll dst arguments' := by
  induction arguments generalizing src dst with
  | nil =>
      rw [AdmitsAll] at hadmits
      obtain rfl : dst = [] := List.eq_nil_of_length_eq_zero (hlength ▸ hadmits ▸ rfl)
      exact ⟨[], fun others => by rw [RelabelsAll], by rw [AdmitsAll]⟩
  | cons x rest ih =>
      rw [AdmitsAll] at hadmits
      obtain ⟨v, vs, rfl, hx, hrest⟩ := hadmits
      obtain ⟨w, ws, rfl⟩ : ∃ w ws, dst = w :: ws :=
        List.exists_cons_of_length_pos (hlength ▸ Nat.succ_pos _)
      rw [List.zip_cons_cons] at hdirect hnested
      rw [List.forall_mem_cons] at harguments hdst hdirect hnested
      obtain ⟨y, hreads, hy⟩ := harguments.1.admits ht hdst.1 hdirect.1 hnested.1 hx
      obtain ⟨ys, hreadsAll, hys⟩ := ih harguments.2 hdst.2 (Nat.succ.inj hlength) hdirect.2
         hnested.2 hrest
      refine ⟨y :: ys, relabelsAll_cons hreads hreadsAll, ?_⟩
      rw [AdmitsAll]
      exact ⟨w, ws, rfl, hy, hys⟩

/-- Every term follows its sort from one namespace to another. -/
theorem follows (ht : t.Regular names) (hclosed : ∀ {x}, t.Holds x → (t.symbolAt x).Closed t)
    (hne : source ≠ target) (x : Term) : t.Follows source target x := by
  induction x with
  | data d arguments ih =>
      intro s s' hcoercible hcounterpart hsort
      obtain ⟨hs, form, hform, hadmits⟩ := hsort
      rcases counterpart?_sort ht hs hcounterpart with
        ⟨hout, rfl⟩ | ⟨hin, hsource, htarget, d', hcorresponds, hs'⟩
      · -- the term lies elsewhere, and stays what it is
        refine ⟨.data d arguments, fun z => ?_, hs, form, hform, hadmits⟩
        rw [Relabels, if_neg (by rw [hout]; exact Bool.false_ne_true)]
      · obtain ⟨y, hy, hpasses⟩ := hcoercible.passes
        cases hcounterpart.symm.trans hy
        rcases hpasses with rfl | hcompares
        · cases hs.symm.trans hs'
          exact absurd (hcorresponds.eq_of_self ht hsource htarget) hne
        · cases hcompares with
          | type hx =>
              rw [dataOf?, hx] at hs
              cases hs
          | @form src dst _ hsrc hdst hsize hdirect hnested =>
              cases hform.symm.trans hsrc
              have hholds' := (isSort_iff_dataOf?.2 ⟨d', hs'⟩).holds
              obtain ⟨arguments', hreads, hadmits'⟩ := readsAll ih ht
                ((hclosed hholds').form hdst) hsize hdirect hnested hadmits
              exact ⟨.data d' arguments', relabels_data ht hs hin hcorresponds hreads, hs',
                dst, hdst, hadmits'⟩
  | _ =>
      intro s s' _ _ hsort
      exact hsort.elim

/-! ## From a namespace to itself -/

/-- Under the namespace where it was built, a term reads as itself. -/
theorem relabels_self (ht : t.Regular names)
    (hclosed : ∀ {x}, t.Holds x → (t.symbolAt x).Closed t) (x : Term) :
    ∀ v : AcceptedValues, v.Closed t → t.Admits v x →
      ∀ z, t.Relabels source source x z ↔ z = x := by
  have hself : ∀ {y}, t.Holds y → t.liesUnder y source = true →
      t.Corresponds source source y y := by
    intro y hy hunder
    obtain ⟨-, relative, hpath, -⟩ := ht.tree.descend?_of_isWithin (ht.arena.home hy) hunder
    exact ⟨hy, ⟨relative, hpath, hpath⟩, rfl, rfl, rfl⟩
  induction x with
  | constant c =>
      intro v hv hx z
      by_cases hnested : t.isNestedConstant c = true ∧ t.liesUnder c source = true
      · obtain ⟨kind, hkind⟩ := userConstant_of_isNestedConstant hnested.1
        exact relabels_constant ht hnested.1 hnested.2
          (hself (holds_of_constant hkind) hnested.2) z
      · rw [Relabels, if_neg hnested]
  | data d arguments ih =>
      intro v hv hx z
      obtain ⟨s, hs, hdata, form, hform, hadmits⟩ := admits_data.1 hx
      obtain ⟨shape, info, hd, -⟩ := ht.families.sort (dataOf?_eq_some_iff.1 hdata)
      have hpositions : ∀ v ∈ form.positions, v.Closed t :=
        (hclosed (hv.sorts hs).holds).form hform
      by_cases hunder : t.liesUnder d source = true
      · refine relabels_data ht hdata hunder (hself (holds_of_data hd) hunder) ?_ z
        generalize form.positions = positions at hpositions hadmits
        clear hx
        induction arguments generalizing positions with
        | nil => exact fun others => by rw [RelabelsAll]
        | cons x rest ihrest =>
            rw [AdmitsAll] at hadmits
            obtain ⟨v, vs, rfl, hx, hrest⟩ := hadmits
            rw [List.forall_mem_cons] at ih hpositions
            exact relabelsAll_cons (ih.1 v hpositions.1 hx)
              (ihrest ih.2 vs hpositions.2 hrest)
      · rw [Relabels, if_neg hunder]
  | _ =>
      intro v hv hx z
      rw [Relabels]

/-! ## Queries -/

/-- A positive answer of a coercion query that starts from nothing is type-safe: it names a target,
and every finite term of the sort has one reading under the other namespace, which is a term of the
target. -/
theorem coerce_relabels {tables : List Table} {answer : Coercibility} {cache : CoercionCache}
    (session : Session names tables) (checked : t ∈ tables) (valid : t.isValid = true)
    (sort : t.IsSort s) (asked : t.coerce s source target {} = .ok answer cache)
    (yes : answer.coercible = true) :
    ∃ s', answer.target = some s' ∧
      ∀ x, t.HasSort s x → t.ReadsAs source target x (t.HasSort s') := by
  obtain ⟨-, harchive⟩ := session.archive
  have ht : t.Regular names := (harchive.trusted checked valid).formed.toRegular
  have hclosed : ∀ {x}, t.Holds x → (t.symbolAt x).Closed t :=
    fun hx => harchive.closed_of_mem checked valid hx
  by_cases hne : source = target
  · subst hne
    rw [coerce, coerceWithin_same] at asked
    cases asked
    refine ⟨s, rfl, fun x hx => ⟨x, ?_, hx⟩⟩
    have hsingle : ((∅ : AcceptedValues).addSort s).Closed t :=
      (AcceptedValues.closed_empty t).addSort sort
    refine relabels_self ht hclosed x _ hsingle ?_
    obtain ⟨d, arguments, rfl⟩ := hx.exists_data
    exact admits_data.2 ⟨s, OrderedSet.mem_insert.2 (.inl rfl), hx⟩
  · obtain ⟨answer', cache', hrun, hanswered⟩ := coerce_answered ht.families hclosed hne
      (isCoercible_of_isSort sort) (sane_empty t source target)
    cases asked.symm.trans hrun
    have hcoercible := hanswered.coercible_self yes
      fun z hz => absurd hz (not_assumes_empty source target z)
    obtain ⟨s', hs', -⟩ := hcoercible.passes
    refine ⟨s', (hanswered.yes yes).1.trans hs', fun x hx => ?_⟩
    exact follows ht hclosed hne x s s' hcoercible hs' hx

end Table

/-! ## Two versions of a cycle -/

namespace Cycle

/-- The names of the modules `G`, `H` and `P`, of the types `A`, `B` and `C`, and of the renamings
`L` and `R`. -/
def names : Interner := internAll ["G", "H", "P", "A", "B", "C", "L", "R"]

def typed (name : Nat) : TypeTerm := .named { segments := [⟨name⟩] }

def zero : TypeTerm := .enumeration [.literal (.integer 0) {}] {}

/-- The types `A (B + {0}, C)` and `B (A + {0})`, which refer to each other, and `C ({1..top})`. -/
def types (top : Int) : List TypeDecl :=
  [⟨⟨31⟩, {}, .constructor true [{ type := [typed 32, zero] }, { type := [typed 33] }]⟩,
   ⟨⟨32⟩, {}, .constructor true [{ type := [typed 31, zero] }]⟩,
   ⟨⟨33⟩, {}, .constructor true [{ type := [.enumeration [.range 1 top {}] {}] }]⟩]

/-- `G` has two values in `C` and `H` has one; `P` includes `G` as `L` and `H` as `R`. -/
def modules : List Module :=
  [{ kind := .domain, name := ⟨28⟩, file := ⟨0⟩, types := types 2 },
   { kind := .domain, name := ⟨29⟩, file := ⟨0⟩, types := types 1 },
   { kind := .domain, name := ⟨30⟩, file := ⟨0⟩,
     compositions := [{ rename := some ⟨34⟩, module := ⟨28⟩, kind := .includes },
       { rename := some ⟨35⟩, module := ⟨29⟩, kind := .includes }] }]

def session : Interner × List Table := checkAll names [] modules

/-- The namespaces `L` and `R` of `P`. -/
def left : NamespaceId := ⟨1⟩

@[inherit_doc left]
def right : NamespaceId := ⟨2⟩

/-- Whether a table is valid and says that a sort can be used under another namespace. -/
def agrees (s : SymbolId) (source target : NamespaceId) : Option Table → Bool
  | some t =>
      match t.coerce s source target {} with
      | .ok answer _ => t.isValid && (t.dataOf? s).isSome && answer.coercible
      | .error .. => false
  | none => false

theorem exists_of_agrees {s : SymbolId} {source target : NamespaceId} {t? : Option Table}
    (h : agrees s source target t? = true) : ∃ t answer cache, t? = some t ∧
      t.isValid = true ∧ t.IsSort s ∧ t.coerce s source target {} = .ok answer cache ∧
      answer.coercible = true := by
  unfold agrees at h
  split at h
  · split at h
    · next answer cache hrun =>
        simp only [Bool.and_eq_true, Option.isSome_iff_exists] at h
        obtain ⟨⟨hvalid, hsort⟩, hyes⟩ := h
        exact ⟨_, answer, cache, rfl, hvalid, Table.isSort_iff_dataOf?.2 hsort, hrun, hyes⟩
    · cases h
  · cases h

/-- The sort of `A` under `R` can be used under `L`. -/
theorem agrees_right : agrees ⟨48⟩ right left session.2[2]? = true := by decide +kernel

/-- Every term of the type `A` of `H` reads as one of the type `A` of `G`. -/
theorem coerce_relabels_cycle : ∃ t ∈ session.2, ∃ s', t.isValid = true ∧ t.IsSort ⟨48⟩ ∧
    ∀ x, t.HasSort ⟨48⟩ x → t.ReadsAs right left x (t.HasSort s') := by
  obtain ⟨t, answer, cache, ht, hvalid, hsort, hrun, hyes⟩ := exists_of_agrees agrees_right
  have hmem := List.mem_of_getElem? ht
  obtain ⟨s', -, hs'⟩ := Table.coerce_relabels (session_checkAll _ modules) hmem hvalid hsort
    hrun hyes
  exact ⟨t, hmem, s', hvalid, hsort, hs'⟩

end Cycle

end ManySorted
