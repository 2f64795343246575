import ManySorted.Proofs.Accepted.Covering
import ManySorted.Proofs.Coercion.Relabeling
import ManySorted.Proofs.Inhabitation
import ManySorted.Proofs.Session.Normality
import Mathlib.Data.Set.Finite.List

/-!
# Coercion is complete by value

If every term of a sort reads, under another namespace, as a term of the corresponding sort, then
the sort can be coerced (`Table.coerce_complete`).  Every way in which a position can be refused is
witnessed by a term: since all sorts have terms, whatever one position accepts occurs as an argument
of some term of the sort.  So the symbols whose terms are carried over justify one another.

Three things are not decided by values (`Table.ComparesByValue`).  A listed type is compared like
its sort, although as a value it has no terms.  A derived constant is no parameter, although both
are constants.  And truth values may be listed one by one.

## Strategy

* **Witnesses.**  If all terms of a sort read as terms of another one, then so does what each
  position accepts, for the other positions can be filled (`Table.readsAs_position`).
* **Direct tests.**  What is neither a sort nor a constant is compared by its values, and these are
  witnesses themselves (`Table.acceptsDirectly_of_reads`).
* **Sorts and constants.**  A sort that is accepted is carried over to an accepted sort
  (`Table.exists_sort_of_reads`), and a constant corresponds to one that is listed
  (`Table.exists_constant_of_reads`).
* **Recursion.**  All that a comparison comes to is reached (`Table.Reached`), and what is reached
  passes, given that what is reached passes (`Table.Reached.passes`).  So it can all be coerced,
  since that is the greatest solution.
* **The exception.**  A type that is listed as a value is compared like its sort, although it has no
  terms (`TypeAsValue.not_coerce_of_reads`).
-/

namespace ManySorted

namespace Table

/-! ## What a comparison meets -/

/-- There is the same sort under the other namespace, and every term of the first reads as a term of
it. -/
def CarriesOver (t : Table) (source target : NamespaceId) (s : SymbolId) : Prop :=
  ∃ d d' s', t.dataOf? s = some d ∧ t.Corresponds source target d d' ∧ t.dataOf? s' = some d' ∧
    ∀ x, t.HasSort s x → t.ReadsAs source target x (t.HasSort s')

/-- The sorts under `source` that are met in comparing a sort: the sort itself, and those that a
position accepts or whose types it lists. -/
inductive Meets (t : Table) (source : NamespaceId) (s : SymbolId) : SymbolId → Prop
  | self : Meets t source s s
  | accepted {z w : SymbolId} {i : Nat} {v : AcceptedValues} (hz : Meets t source s z)
      (hv : (t.symbolAt z).accepted? i = some v) (hw : w ∈ v.sorts)
      (hunder : t.liesUnder w source = true) : Meets t source s w
  | listed {z c w : SymbolId} {i : Nat} {v : AcceptedValues} (hz : Meets t source s z)
      (hv : (t.symbolAt z).accepted? i = some v) (hc : .symbol c ∈ v.constants)
      (hkind : t.kindOf c = .userConstant (.type w)) (hunder : t.liesUnder w source = true) :
      Meets t source s w

/-- Nothing but values decides about the sorts that are met in comparing a sort. -/
structure ComparesByValue (t : Table) (source target : NamespaceId) (s : SymbolId) : Prop where
  /-- Types that are listed are carried over like the sorts that are accepted. -/
  type : ∀ {z i v c w}, t.Meets source s z → (t.symbolAt z).accepted? i = some v →
    .symbol c ∈ v.constants → t.kindOf c = .userConstant (.type w) →
    t.liesUnder w source = true → t.CarriesOver source target w
  /-- No derived constant has the place of a parameter. -/
  derived : ∀ {z i v c c'}, t.Meets source s z → (t.symbolAt z).accepted? i = some v →
    .symbol c ∈ v.constants → t.kindOf c = .userConstant .derived →
    t.Corresponds source target c c' → t.kindOf c' ≠ .userConstant .parameter
  /-- Where truth values are accepted as such, they are not just listed on the other side. -/
  boolean : ∀ {z z' i v w}, t.Meets source s z → t.counterpart? source target z = some z' →
    (t.symbolAt z).accepted? i = some v → (t.symbolAt z').accepted? i = some w →
    v.base.boolean = true →
    (∀ c value, t.kindOf c = .baseConstant value → .symbol c ∈ w.constants) →
    w.base.boolean = true

variable {names : Interner} {t : Table} {source target : NamespaceId} {x c d d' s s' w z : SymbolId}
  {u v : AcceptedValues} {i : Nat}

/-! ## Finding counterparts -/

/-- What lies elsewhere is its own counterpart. -/
theorem counterpart?_of_not_liesUnder
    (h : t.liesUnder ((t.dataOf? x).getD x) source = false) :
    t.counterpart? source target x = some x := by
  unfold counterpart? bearer
  rw [liesUnder] at h
  simp only [h, Bool.not_false, if_true]

/-- What corresponds to a symbol is found, and for a sort the sort of what corresponds. -/
theorem counterpart?_of_corresponds (ht : t.Regular names) (htarget : t.HasNamespace target)
    (hx : t.Holds ((t.dataOf? x).getD x))
    (hunder : t.liesUnder ((t.dataOf? x).getD x) source = true)
    (hnamed : (t.symbolAt ((t.dataOf? x).getD x)).name.isEmpty = false)
    (h : t.Corresponds source target ((t.dataOf? x).getD x) d) :
    t.counterpart? source target x = if (t.dataOf? x).isSome then t.sortOf? d else some d := by
  obtain ⟨-, relative, hpath, -⟩ := ht.tree.descend?_of_isWithin (ht.arena.home hx) hunder
  obtain ⟨relative', hpath', hhome⟩ := h.home
  obtain rfl : relative = relative' := List.append_cancel_left (hpath.symm.trans hpath')
  have hdescend : t.descend? target relative = some (t.symbolAt d).home := by
    have hfound := ht.tree.descend?_path (ht.arena.home h.holds)
    rwa [hhome, descend?_append, ht.tree.descend?_path htarget, Option.bind_some] at hfound
  have hsymbol : (t.namespaceAt (t.symbolAt d).home).symbol?
      (t.symbolAt ((t.dataOf? x).getD x)).name = some d := by
    rw [← h.name]
    exact ht.arena.listed h.holds (by rw [h.name, hnamed])
  unfold counterpart? bearer
  rw [liesUnder] at hunder
  simp only [hunder, Bool.not_true, Bool.false_eq_true, if_false, hpath, List.drop_left, hdescend,
    Option.bind_some, hsymbol]
  have htag : (t.symbolAt d).kind.tag = (t.symbolAt ((t.dataOf? x).getD x)).kind.tag := h.tag
  rw [if_neg (by simp [htag, h.arity])]

theorem liesUnder_of_home {x y : SymbolId} (h : (t.symbolAt x).home = (t.symbolAt y).home)
    (ns : NamespaceId) : t.liesUnder x ns = t.liesUnder y ns := by
  rw [liesUnder, liesUnder, h]

theorem liesUnder_dataOf? (ht : t.Regular names) (hs : t.dataOf? s = some d) (ns : NamespaceId) :
    t.liesUnder d ns = t.liesUnder s ns := by
  obtain ⟨shape, info, hd, rfl⟩ := ht.families.sort (dataOf?_eq_some_iff.1 hs)
  exact liesUnder_of_home (ht.families.data hd).sort_home.symm ns

/-- A sort is found by its data symbol. -/
theorem counterpart?_of_sort (ht : t.Regular names) (htarget : t.HasNamespace target)
    (hs : t.dataOf? s = some d) (hunder : t.liesUnder s source = true)
    (hd : t.Corresponds source target d d') (hs' : t.dataOf? s' = some d') :
    t.counterpart? source target s = some s' := by
  obtain ⟨shape, info, hkind, -⟩ := ht.families.sort (dataOf?_eq_some_iff.1 hs)
  obtain ⟨shape', info', hkind', rfl⟩ := ht.families.sort (dataOf?_eq_some_iff.1 hs')
  have hbearer : (t.dataOf? s).getD s = d := by rw [hs, Option.getD_some]
  have hnamed : (t.symbolAt d).name.isEmpty = false :=
    ht.families.isEmpty_eq_false (holds_of_data hkind) (by rw [dataOf?, hkind])
  rw [counterpart?_of_corresponds ht htarget (by rw [hbearer]; exact holds_of_data hkind)
    (by rw [hbearer, liesUnder_dataOf? ht hs, hunder]) (by rw [hbearer]; exact hnamed)
    (by rw [hbearer]; exact hd), hs, Option.isSome_some, if_pos rfl, sortOf?, hkind']
  rfl

theorem counterpart?_of_constant (ht : t.Regular names) (htarget : t.HasNamespace target)
    {c' : SymbolId} (hc : t.isNestedConstant c = true) (hunder : t.liesUnder c source = true)
    (hc' : t.Corresponds source target c c') : t.counterpart? source target c = some c' := by
  obtain ⟨kind, hkind⟩ := userConstant_of_isNestedConstant hc
  have hnone : t.dataOf? c = none := by rw [dataOf?, hkind]
  have hbearer : (t.dataOf? c).getD c = c := by rw [hnone, Option.getD_none]
  have hnamed := ht.families.isEmpty_eq_false (holds_of_constant hkind) hnone
  rw [counterpart?_of_corresponds ht htarget (by rw [hbearer]; exact holds_of_constant hkind)
    (by rw [hbearer]; exact hunder) (by rw [hbearer]; exact hnamed)
    (by rw [hbearer]; exact hc'), hnone]
  rfl

/-- What corresponds to the type of a sort is the type of the corresponding sort. -/
theorem Corresponds.type (ht : t.Regular names) {c' : SymbolId}
    (hc : t.kindOf c = .userConstant (.type s)) (hc' : t.Corresponds source target c c')
    (hs : t.dataOf? s = some d) (hd : t.Corresponds source target d d')
    (hs' : t.dataOf? s' = some d') : t.kindOf c' = .userConstant (.type s') := by
  obtain ⟨e, shape, info, he, rfl, rfl⟩ := ht.families.type hc
  obtain rfl := Option.some.inj ((ht.families.dataOf?_sort he).symm.trans hs)
  obtain ⟨shape', info', he', rfl⟩ := ht.families.sort (dataOf?_eq_some_iff.1 hs')
  have hfamily := ht.families.data he
  have hfamily' := ht.families.data he'
  suffices hsame : c' = info'.typeConstant by
    rw [hsame]
    exact hfamily'.constant_kind
  -- both constants stand beside the data symbol, and are named after it
  obtain ⟨relative, hpath, hhome⟩ := hc'.home
  obtain ⟨relative', hpath', hhome'⟩ := hd.home
  rw [hfamily.constant_home] at hpath
  obtain rfl : relative = relative' := List.append_cancel_left (hpath.symm.trans hpath')
  have htext : names.text (t.symbolAt c').name =
      names.text (t.symbolAt info'.typeConstant).name := by
    rw [hc'.name, hfamily.constant_text, hfamily'.constant_text, hd.name]
  have hname := ht.proper.text_inj (ht.families.knows hc'.holds)
    (ht.families.knows hfamily'.holds_constant) htext
  refine ht.arena.eq_of_home_of_name hc'.holds hfamily'.holds_constant ?_ ?_ hname
  · rw [hname, ← Bool.not_eq_true, ht.families.named hfamily'.holds_constant]
    rintro ⟨e, he⟩
    rw [hfamily'.constant_kind] at he
    cases he
  · rw [hfamily'.constant_home]
    exact ht.tree.path_inj (ht.arena.home hc'.holds) (ht.arena.home hd.holds)
      (hhome.trans hhome'.symm)

/-! ## Arguments one by one -/

/-- If all lists of arguments that some positions accept read as lists that others accept, then so
does what one of them accepts, provided that there is such a list at all. -/
theorem readsAs_of_mem_zip {src dst : List AcceptedValues}
    (hall : ∀ arguments, t.AdmitsAll src arguments → ∃ arguments',
      (∀ others, t.RelabelsAll source target arguments others ↔ others = arguments') ∧
        t.AdmitsAll dst arguments')
    (hsome : ∃ arguments, t.AdmitsAll src arguments) :
    ∀ pair ∈ src.zip dst, ∀ y, t.Admits pair.1 y →
      t.ReadsAs source target y (t.Admits pair.2) := by
  induction src generalizing dst with
  | nil => exact fun pair hpair => absurd hpair List.not_mem_nil
  | cons v rest ih =>
      obtain ⟨arguments, harguments⟩ := hsome
      cases arguments with
      | nil =>
          rw [AdmitsAll] at harguments
          cases harguments
      | cons first others =>
          rw [AdmitsAll] at harguments
          obtain ⟨_, _, heq, hfirst, hothers⟩ := harguments
          cases heq
          -- an argument list is read argument by argument
          have hcons : ∀ y ys, t.Admits v y → t.AdmitsAll rest ys → ∃ w ws z zs,
              dst = w :: ws ∧ t.ReadsAs source target y (t.Admits w) ∧
                (∀ others, t.RelabelsAll source target ys others ↔ others = zs) ∧
                  t.Relabels source target y z ∧ t.AdmitsAll ws zs := by
            intro y ys hy hys
            obtain ⟨read, hread, hadmits⟩ := hall (y :: ys) (by
              rw [AdmitsAll]
              exact ⟨v, rest, rfl, hy, hys⟩)
            obtain ⟨z, zs, hz, hzs, rfl⟩ := (show t.RelabelsAll source target (y :: ys) read from
              (hread _).2 rfl)
            rw [AdmitsAll] at hadmits
            obtain ⟨w, ws, rfl, hwz, hws⟩ := hadmits
            have hz' : ∀ z', t.Relabels source target y z' ↔ z' = z := by
              refine fun z' => ⟨fun hrelabels => ?_, fun heq => heq ▸ hz⟩
              have heq := (hread (z' :: zs)).1 (by
                rw [RelabelsAll]
                exact ⟨z', zs, hrelabels, hzs, rfl⟩)
              exact (List.cons.inj heq).1
            have hzs' : ∀ others, t.RelabelsAll source target ys others ↔ others = zs := by
              refine fun others => ⟨fun hrelabels => ?_, fun heq => heq ▸ hzs⟩
              have heq := (hread (z :: others)).1 (by
                rw [RelabelsAll]
                exact ⟨z, others, hz, hrelabels, rfl⟩)
              exact (List.cons.inj heq).2
            exact ⟨w, ws, z, zs, rfl, ⟨z, hz', hwz⟩, hzs', hz, hws⟩
          obtain ⟨w, ws, -, -, rfl, -⟩ := hcons first others hfirst hothers
          rw [List.zip_cons_cons, List.forall_mem_cons]
          constructor
          · intro y hy
            obtain ⟨_, _, _, _, heq, hreads, -⟩ := hcons y others hy hothers
            cases heq
            exact hreads
          · refine ih (fun ys hys => ?_) ⟨others, hothers⟩
            obtain ⟨_, _, _, zs, heq, -, hzs, -, hadmits⟩ := hcons first ys hfirst hys
            cases heq
            exact ⟨zs, hzs, hadmits⟩

/-- What a position of a sort accepts reads as what the position of the other sort accepts, if all
terms of the sort are carried over. -/
theorem readsAs_position {src dst : CanonicalForm} (hs : t.dataOf? s = some d)
    (hunder : t.liesUnder d source = true)
    (hcarries : ∀ x, t.HasSort s x → t.ReadsAs source target x (t.HasSort s'))
    (hterms : t.HasTerms s) (hsrc : (t.symbolAt s).canonical = some src)
    (hdst : (t.symbolAt s').canonical = some dst) :
    ∀ pair ∈ src.positions.zip dst.positions, ∀ y, t.Admits pair.1 y →
      t.ReadsAs source target y (t.Admits pair.2) := by
  refine readsAs_of_mem_zip (fun arguments hadmits => ?_) ?_
  · obtain ⟨z, hreads, hz⟩ := hcarries (.data d arguments) ⟨hs, src, hsrc, hadmits⟩
    have hread := (hreads z).2 rfl
    rw [Relabels, if_pos hunder] at hread
    obtain ⟨d', arguments', hd', harguments, rfl⟩ := hread
    obtain ⟨-, form, hform, hadmits'⟩ := hz
    obtain rfl := Option.some.inj (hdst.symm.trans hform)
    refine ⟨arguments', fun others => ⟨fun hothers => ?_, fun heq => heq ▸ harguments⟩, hadmits'⟩
    have hread := (hreads (.data d' others)).1 (by
      rw [Relabels, if_pos hunder]
      exact ⟨d', others, hd', hothers, rfl⟩)
    exact (Term.data.inj hread).2
  · obtain ⟨x, hx⟩ := hterms
    obtain ⟨e, arguments, rfl⟩ := hx.exists_data
    obtain ⟨-, form, hform, hadmits⟩ := hx
    obtain rfl := Option.some.inj (hsrc.symm.trans hform)
    exact ⟨arguments, hadmits⟩

/-- A term that reads as itself has what its reading has. -/
theorem ReadsAs.self {x : Term} {P : Term → Prop} (h : t.ReadsAs source target x P)
    (hx : t.Relabels source target x x) : P x := by
  obtain ⟨y, hy, hP⟩ := h
  rw [(hy x).1 hx]
  exact hP

/-! ## One position -/

/-- Accepting directly, value by value. -/
theorem acceptsDirectly_iff (hu : u.Normal) : t.acceptsDirectly v u = true ↔
    (∀ n, v.HasInteger n → u.HasInteger n) ∧ (v.base.real = true → u.base.real = true) ∧
      (v.base.string = true → u.base.string = true) ∧
      (v.base.boolean = true → u.base.boolean = true) ∧
      (∀ value, .string value ∈ v.constants → u.HasString value) ∧
      ∀ c, .symbol c ∈ v.constants → t.isNestedConstant c = false → u.HasConstant t c := by
  constructor
  · intro h
    have hbase := h
    rw [acceptsDirectly, Bool.and_eq_true, Bool.and_eq_true] at hbase
    obtain ⟨-, hreal, hstring, hboolean⟩ := AcceptedValues.acceptsBase_iff.1 hbase.1.1
    exact ⟨fun n => hasInteger_of_acceptsDirectly h, hreal, hstring, hboolean,
      fun value hvalue => hasString_of_acceptsDirectly h (.inl hvalue),
      fun c hc hnested => hasConstant_of_acceptsDirectly h hnested (.inl hc)⟩
  · rintro ⟨hinteger, hreal, hstring, hboolean, hliteral, hconstant⟩
    rw [acceptsDirectly, Bool.and_eq_true, Bool.and_eq_true, List.all_eq_true, List.all_eq_true]
    refine ⟨⟨AcceptedValues.acceptsBase_iff.2 ⟨fun n hn => hinteger n (.inr hn), hreal, hstring,
      hboolean⟩, fun r hr => ?_⟩, fun value hvalue => ?_⟩
    · exact (AcceptedValues.acceptsRange_iff hu.ranges).2 fun n hlow hhigh =>
        hinteger n (.inl ⟨r, hr, hlow, hhigh⟩)
    · cases value with
      | string value =>
          have haccepts := hliteral value hvalue
          simp only [acceptsListed, AcceptedValues.acceptsConstant, OrderedSet.contains,
            Bool.or_eq_true, List.contains_iff_mem]
          exact haccepts
      | symbol c =>
          rw [acceptsListed, Bool.or_eq_true]
          cases hc : t.isNestedConstant c with
          | true => exact .inl rfl
          | false =>
              right
              simp only [AcceptedValues.acceptsConstant, OrderedSet.contains, Bool.or_eq_true,
                List.contains_iff_mem, Bool.and_eq_true]
              rcases hconstant c hvalue hc with hlisted | ⟨htruth, value, hkind⟩
              · exact .inl hlisted
              · exact .inr ⟨by rw [hkind], htruth⟩

section

variable (hreads : ∀ y, t.Admits v y → t.ReadsAs source target y (t.Admits u))
include hreads

/-- All that the first position accepts is accepted directly by the other one, but for what is
compared by coercion. -/
theorem acceptsDirectly_of_reads (hu : u.Normal)
    (hboolean : v.base.boolean = true →
      (∀ c value, t.kindOf c = .baseConstant value → .symbol c ∈ u.constants) →
      u.base.boolean = true) : t.acceptsDirectly v u = true := by
  have hconstant : ∀ c, t.isNestedConstant c = false → v.HasConstant t c → u.HasConstant t c := by
    intro c hc hv
    refine (hreads (.constant c) hv).self ?_
    rw [Relabels, if_neg (by rw [hc]; rintro ⟨⟨⟩, -⟩)]
  have hstring : ∀ value, v.HasString value → u.HasString value :=
    fun value hv => (hreads (.string value) hv).self (by rw [Relabels])
  refine (acceptsDirectly_iff hu).2 ⟨fun n hn => ?_, fun hreal => ?_, fun hall => ?_,
    fun htruth => ?_, fun value hvalue => hstring value (.inl hvalue),
    fun c hc hnested => hconstant c hnested (.inl hc)⟩
  · exact (hreads (.integer n) hn).self (by rw [Relabels])
  · exact (hreads (.fraction (1 / 2)) hreal).self (by rw [Relabels])
  · -- strings without end are not all listed
    by_contra hlisted
    have hmem : ∀ n : Nat, .string ⟨n⟩ ∈ u.constants := fun n =>
      (hstring ⟨n⟩ (.inr hall)).resolve_right hlisted
    have hinjective : Function.Injective fun n : Nat => ConstantValue.string ⟨n⟩ := by
      intro a b hab
      cases hab
      rfl
    exact Set.infinite_of_injective_forall_mem hinjective hmem (List.finite_toSet _)
  · by_contra hlisted
    refine hlisted (hboolean htruth fun c value hkind => ?_)
    have hc : t.isNestedConstant c = false := by rw [isNestedConstant, hkind]
    exact (hconstant c hc (.inr ⟨htruth, value, hkind⟩)).resolve_right fun h => hlisted h.1

/-- A sort that is accepted is carried over to a sort that is accepted. -/
theorem exists_sort_of_reads (ht : t.Regular names) (hw : w ∈ v.sorts) (hterms : t.HasTerms w)
    (hunder : t.liesUnder w source = true) : ∃ d d' w', t.dataOf? w = some d ∧
      t.Corresponds source target d d' ∧ t.dataOf? w' = some d' ∧ w' ∈ u.sorts ∧
        ∀ x, t.HasSort w x → t.ReadsAs source target x (t.HasSort w') := by
  obtain ⟨x, hx⟩ := hterms
  obtain ⟨d, arguments, rfl⟩ := hx.exists_data
  have hd : t.liesUnder d source = true := by rw [liesUnder_dataOf? ht hx.1, hunder]
  obtain ⟨shape, info, hkind, -⟩ := ht.families.sort (dataOf?_eq_some_iff.1 hx.1)
  have hnone : t.dataOf? d = none := by rw [dataOf?, hkind]
  -- whatever term is read, its head is the symbol that corresponds to `d`
  have hhead : ∀ arguments, t.HasSort w (.data d arguments) → ∃ d' arguments' w',
      t.Corresponds source target d d' ∧ w' ∈ u.sorts ∧
        (∀ z, t.Relabels source target (.data d arguments) z ↔ z = .data d' arguments') ∧
          t.HasSort w' (.data d' arguments') := by
    intro arguments hsort
    obtain ⟨y, hy, hadmits⟩ := hreads _ (admits_data.2 ⟨w, hw, hsort⟩)
    have hread := (hy y).2 rfl
    rw [Relabels, if_pos hd] at hread
    obtain ⟨d', arguments', hd', -, rfl⟩ := hread
    obtain ⟨w', hw', hsort'⟩ := admits_data.1 hadmits
    exact ⟨d', arguments', w', hd', hw', hy, hsort'⟩
  obtain ⟨d', _, w', hd', hw', -, hsort'⟩ := hhead arguments hx
  refine ⟨d, d', w', hx.1, hd', hsort'.1, hw', fun y hy => ?_⟩
  obtain ⟨e, others, rfl⟩ := hy.exists_data
  obtain rfl := Option.some.inj (hx.1.symm.trans hy.1)
  obtain ⟨d'', others', w'', hd'', -, hread, hsort''⟩ := hhead others hy
  obtain rfl := hd'.unique ht (holds_of_data hkind) hnone hd''
  obtain rfl := ht.eq_of_dataOf? hsort'.1 hsort''.1
  exact ⟨_, hread, hsort''⟩

theorem sort_mem_of_reads (ht : t.Regular names) (hw : w ∈ v.sorts) (hterms : t.HasTerms w)
    (hunder : t.liesUnder w source = false) : w ∈ u.sorts := by
  obtain ⟨x, hx⟩ := hterms
  obtain ⟨d, arguments, rfl⟩ := hx.exists_data
  have hself := (hreads _ (admits_data.2 ⟨w, hw, hx⟩)).self (by
    rw [Relabels, if_neg]
    rw [liesUnder_dataOf? ht hx.1, hunder]
    exact Bool.false_ne_true)
  obtain ⟨w', hw', hsort⟩ := admits_data.1 hself
  rwa [ht.eq_of_dataOf? hx.1 hsort.1]

/-- A constant that is compared by coercion corresponds to one that is listed. -/
theorem exists_constant_of_reads (hc : .symbol c ∈ v.constants)
    (hnested : t.isNestedConstant c = true)
    (hunder : t.liesUnder c source = true) :
    ∃ c', t.Corresponds source target c c' ∧ .symbol c' ∈ u.constants := by
  obtain ⟨y, hy, hadmits⟩ := hreads (.constant c) (.inl hc)
  have hread := (hy y).2 rfl
  rw [Relabels, if_pos ⟨hnested, hunder⟩] at hread
  obtain ⟨c', hc', rfl⟩ := hread
  refine ⟨c', hc', ?_⟩
  rcases hadmits with hlisted | ⟨-, value, hvalue⟩
  · exact hlisted
  · -- what corresponds to a constant of the user is no truth value
    obtain ⟨kind, hkind⟩ := userConstant_of_isNestedConstant hnested
    have htag := hc'.tag
    rw [hkind, hvalue] at htag
    cases htag

theorem constant_mem_of_reads (hc : .symbol c ∈ v.constants) (hnested : t.isNestedConstant c = true)
    (hunder : t.liesUnder c source = false) : .symbol c ∈ u.constants := by
  have hself := (hreads (.constant c) (.inl hc)).self (by
    rw [Relabels, if_neg]
    rw [hunder]
    rintro ⟨-, ⟨⟩⟩)
  rcases hself with hlisted | ⟨-, value, hvalue⟩
  · exact hlisted
  · obtain ⟨kind, hkind⟩ := userConstant_of_isNestedConstant hnested
    rw [hkind] at hvalue
    cases hvalue

end

/-! ## All that is met -/

/-- A symbol that the comparison of a sort comes to: a sort whose terms are carried over, a constant
that a position of such a sort lists, or what lies elsewhere. -/
inductive Reached (t : Table) (source target : NamespaceId) (s : SymbolId) : SymbolId → Prop
  | sort {z : SymbolId} (hz : t.Meets source s z) (hunder : t.liesUnder z source = true)
      (hcarries : t.CarriesOver source target z) : Reached t source target s z
  | constant {z c c' : SymbolId} {i : Nat} {v : AcceptedValues} (hz : t.Meets source s z)
      (hv : (t.symbolAt z).accepted? i = some v) (hc : .symbol c ∈ v.constants)
      (hnested : t.isNestedConstant c = true) (hunder : t.liesUnder c source = true)
      (hc' : t.Corresponds source target c c') : Reached t source target s c
  | elsewhere {x : SymbolId} (hx : t.counterpart? source target x = some x) :
      Reached t source target s x

theorem exists_accepted? {src dst : CanonicalForm} (hsrc : (t.symbolAt s).canonical = some src)
    (hdst : (t.symbolAt s').canonical = some dst) {pair : AcceptedValues × AcceptedValues}
    (hpair : pair ∈ src.positions.zip dst.positions) :
    ∃ i, (t.symbolAt s).accepted? i = some pair.1 ∧ (t.symbolAt s').accepted? i = some pair.2 := by
  obtain ⟨i, hi⟩ := List.mem_iff_getElem?.1 hpair
  obtain ⟨hfirst, hsecond⟩ := List.getElem?_zip_eq_some.1 hi
  exact ⟨i, by rw [Symbol.accepted?, hsrc]; exact hfirst,
    by rw [Symbol.accepted?, hdst]; exact hsecond⟩

section

variable (ht : t.Regular names) (hcomplete : t.Complete names) (hpopulated : t.Populated)
  (htarget : t.HasNamespace target)
include ht hcomplete hpopulated htarget

/-- A position of a sort that is reached comes only to what is reached. -/
theorem nestedPasses_of_reads (hz : t.Meets source s z)
    (hv : (t.symbolAt z).accepted? i = some v)
    (hreads : ∀ y, t.Admits v y → t.ReadsAs source target y (t.Admits u)) :
    ∀ nested ∈ t.nestedSymbols v,
      t.NestedPasses source target (t.Reached source target s) u nested := by
  intro nested hmem
  rcases List.mem_append.1 hmem with hmem | hw
  · -- constants that are listed
    obtain ⟨hc, hnested⟩ := List.mem_filter.1 hmem
    rw [AcceptedValues.mem_constantSymbols] at hc
    have hlisted : ∀ {c}, .symbol c ∈ u.constants →
        (u.sorts.contains c || u.acceptsConstant (.symbol c) false) = true := by
      intro c hmem
      simp only [AcceptedValues.acceptsConstant, OrderedSet.contains, Bool.or_eq_true,
        List.contains_iff_mem]
      exact .inr (.inl hmem)
    cases hunder : t.liesUnder nested source with
    | true =>
        -- what lies under the source has a counterpart, which the other position lists
        obtain ⟨c', hc', hmem⟩ := exists_constant_of_reads hreads hc hnested hunder
        exact ⟨.constant hz hv hc hnested hunder hc', c',
          counterpart?_of_constant ht htarget hnested hunder hc', hlisted hmem⟩
    | false =>
        -- what lies elsewhere is its own counterpart
        have hself : t.counterpart? source target nested = some nested := by
          obtain ⟨kind, hkind⟩ := userConstant_of_isNestedConstant hnested
          refine counterpart?_of_not_liesUnder ?_
          rwa [dataOf?, hkind]
        exact ⟨.elsewhere hself, nested, hself,
          hlisted (constant_mem_of_reads hreads hc hnested hunder)⟩
  · -- sorts that are accepted, which all have terms
    have haccepted : ∀ {w}, w ∈ u.sorts →
        (u.sorts.contains w || u.acceptsConstant (.symbol w) false) = true := by
      intro w hmem
      rw [Bool.or_eq_true, OrderedSet.contains, List.contains_iff_mem]
      exact .inl hmem
    have hsort : ∃ d, t.dataOf? nested = some d := by
      obtain ⟨form, hform, hget⟩ := Option.bind_eq_some_iff.1 hv
      obtain ⟨d, shape, info, hd, rfl⟩ :=
        (hcomplete.form hform v (List.mem_of_getElem? hget)).1 nested hw
      exact ⟨d, ht.families.dataOf?_sort hd⟩
    have hterms := hpopulated nested (isSort_iff_dataOf?.2 hsort)
    cases hunder : t.liesUnder nested source with
    | true =>
        obtain ⟨d, d', w', hd, hd', hw', hmem, hcarries⟩ :=
          exists_sort_of_reads hreads ht hw hterms hunder
        exact ⟨.sort (.accepted hz hv hw hunder) hunder ⟨d, d', w', hd, hd', hw', hcarries⟩, w',
          counterpart?_of_sort ht htarget hd hunder hd' hw', haccepted hmem⟩
    | false =>
        obtain ⟨d, hd⟩ := hsort
        have hself : t.counterpart? source target nested = some nested := by
          refine counterpart?_of_not_liesUnder ?_
          rw [hd, Option.getD_some, liesUnder_dataOf? ht hd, hunder]
        exact ⟨.elsewhere hself, nested, hself,
          haccepted (sort_mem_of_reads hreads ht hw hterms hunder)⟩

/-- The symbols that are reached justify one another. -/
theorem Reached.passes (hnormal : ∀ x, t.NormalAt x)
    (hvalue : t.ComparesByValue source target s) (hx : t.Reached source target s x) :
    t.Passes source target (t.Reached source target s) x := by
  cases hx with
  | elsewhere hx => exact ⟨x, hx, .inl rfl⟩
  | sort hz hunder hcarries =>
      obtain ⟨d, d', z', hd, hd', hz', hcarries⟩ := hcarries
      have hcounterpart := counterpart?_of_sort ht htarget hd hunder hd' hz'
      obtain ⟨shape, info, hkind, rfl⟩ := ht.families.sort (dataOf?_eq_some_iff.1 hd)
      obtain ⟨shape', info', hkind', rfl⟩ := ht.families.sort (dataOf?_eq_some_iff.1 hz')
      obtain ⟨-, src, -, -, hsize, hsrc, -⟩ := hcomplete.data hkind
      obtain ⟨-, dst, -, -, hsize', hdst, -⟩ := hcomplete.data hkind'
      have hreads := readsAs_position hd (by rw [liesUnder_dataOf? ht hd, hunder]) hcarries
        (hpopulated _ (isSort_iff_dataOf?.2 ⟨d, hd⟩)) hsrc hdst
      refine ⟨info'.sort, hcounterpart, .inr (.form (fun sort htype => ?_) hsrc hdst ?_
        (fun pair hpair => ?_) fun pair hpair => ?_)⟩
      · rw [dataOf?, htype] at hd
        cases hd
      · rw [hsize, hsize', hd'.arity]
      · obtain ⟨i, hfirst, hsecond⟩ := exists_accepted? hsrc hdst hpair
        exact acceptsDirectly_of_reads (hreads pair hpair) ((hnormal _).accepted? hsecond)
          (hvalue.boolean hz hcounterpart hfirst hsecond)
      · obtain ⟨i, hfirst, -⟩ := exists_accepted? hsrc hdst hpair
        exact nestedPasses_of_reads ht hcomplete hpopulated htarget hz hfirst (hreads pair hpair)
  | @constant z _ c' i v hz hv hc hnested hunder hc' =>
      have hcounterpart := counterpart?_of_constant ht htarget hnested hunder hc'
      obtain ⟨kind, hkind⟩ := userConstant_of_isNestedConstant hnested
      refine ⟨c', hcounterpart, .inr ?_⟩
      cases kind with
      | type w =>
          obtain ⟨d, shape, info, hd, rfl, rfl⟩ := ht.families.type hkind
          have hfamily := ht.families.data hd
          have hunder' : t.liesUnder info.sort source = true := by
            rw [← hunder]
            exact liesUnder_of_home (hfamily.sort_home.trans hfamily.constant_home.symm) source
          have hcarries := hvalue.type hz hv hc hkind hunder'
          have hreached : t.Reached source target s info.sort :=
            .sort (.listed hz hv hc hkind hunder') hunder' hcarries
          obtain ⟨e, e', w', he, he', hw', -⟩ := hcarries
          exact .type hkind (hc'.type ht hkind he he' hw') hreached
            (counterpart?_of_sort ht htarget he hunder' he' hw')
      | derived =>
          obtain ⟨kind', hkind'⟩ : ∃ kind', t.kindOf c' = .userConstant kind' := by
            have htag := hc'.tag
            rw [hkind] at htag
            cases hkind' : t.kindOf c' with
            | userConstant kind' => exact ⟨kind', rfl⟩
            | data shape info =>
                rw [hkind'] at htag
                cases shape <;> cases htag
            | _ =>
                rw [hkind'] at htag
                cases htag
          have hparameter : kind' ≠ .parameter := by
            rintro rfl
            exact hvalue.derived hz hv hc hkind hc' hkind'
          -- neither constant has positions
          refine .form (fun sort htype => ?_) (hcomplete.constant hkind (by simp))
            (hcomplete.constant hkind' hparameter) rfl (fun pair hpair => ?_) fun pair hpair => ?_
          · cases hkind.symm.trans htype
          · exact absurd hpair List.not_mem_nil
          · exact absurd hpair List.not_mem_nil
      | _ =>
          rw [isNestedConstant, hkind] at hnested
          cases hnested

end

/-! ## Queries -/

/-- Coercion is complete by value: if there is the same sort under the other namespace, and every
term of the first reads as a term of it, then a query that starts from nothing has a positive
answer. -/
theorem coerce_complete {tables : List Table} (session : Session names tables)
    (checked : t ∈ tables)
    (valid : t.isValid = true) (namespaces : t.HasNamespace target) (sort : t.dataOf? s = some d)
    (under : t.liesUnder s source = true) (corresponds : t.Corresponds source target d d')
    (sort' : t.dataOf? s' = some d')
    (carries : ∀ x, t.HasSort s x → t.ReadsAs source target x (t.HasSort s'))
    (value : t.ComparesByValue source target s) :
    ∃ cache, t.coerce s source target {} = .ok ⟨true, some s'⟩ cache := by
  obtain ⟨-, harchive⟩ := session.archive
  have ht : t.Regular names := (harchive.trusted checked valid).formed.toRegular
  have hclosed : ∀ {x}, t.Holds x → (t.symbolAt x).Closed t :=
    fun hx => harchive.closed_of_mem checked valid hx
  have hcounterpart := counterpart?_of_sort ht namespaces sort under corresponds sort'
  by_cases hne : source = target
  · subst hne
    refine ⟨{}, ?_⟩
    obtain ⟨shape, info, hkind, -⟩ := ht.families.sort (dataOf?_eq_some_iff.1 sort)
    have hd := holds_of_data hkind
    obtain ⟨-, relative, hpath, -⟩ := ht.tree.descend?_of_isWithin (ht.arena.home hd)
      ((liesUnder_dataOf? ht sort source).trans under)
    obtain rfl : d' = d := Corresponds.unique ⟨hd, ⟨relative, hpath, hpath⟩, rfl, rfl, rfl⟩ ht hd
      (by rw [dataOf?, hkind]) corresponds
    rw [coerce, coerceWithin_same, ht.eq_of_dataOf? sort sort']
  · obtain ⟨answer, cache, hrun, hanswered⟩ := coerce_answered ht.families hclosed hne
      (isCoercible_of_isSort (isSort_iff_dataOf?.2 ⟨d, sort⟩)) (sane_empty t source target)
    have hcomplete := (session.archive.2.trusted checked valid).isComplete
      (session.intact t checked) session.furnished checked valid
    have hcoercible : t.Coercible source target s :=
      ⟨t.Reached source target s, .sort .self under ⟨d, d', s', sort, corresponds, sort', carries⟩,
        fun z hz => hz.passes ht hcomplete
          (session.populated t checked valid) namespaces (session.normal t checked valid) value⟩
    refine ⟨cache, ?_⟩
    cases hyes : answer.coercible with
    | false => exact absurd hcoercible (hanswered.no hyes).2
    | true =>
        have htarget := (hanswered.yes hyes).1.trans hcounterpart
        obtain ⟨_, _⟩ := answer
        dsimp only at hyes htarget
        rw [hrun, hyes, htarget]

end Table

/-! ## Two versions of a type that is listed as a value -/

namespace TypeAsValue

/-- The names of the modules `G`, `H` and `P`, of the types `V`, `A`, `C` and `E`, of the constant
`red`, of the types of `V` and `C` as values, and of the renamings `L` and `R`. -/
def names : Interner :=
  internAll ["G", "H", "P", "V", "A", "C", "#V", "L", "R", "E", "red", "#C"]

/-- The types `V` of a base sort, `A ({#V})`, `C ({0..top})` and the derived type
`E (C + Boolean + {red, #C})`. -/
def types (base : Nat) (top : Int) : List TypeDecl :=
  [⟨⟨31⟩, {}, .constructor true [{ type := [.named { segments := [⟨base⟩] }] }]⟩,
   ⟨⟨32⟩, {}, .constructor true
      [{ type := [.enumeration [.constant { segments := [⟨34⟩] }] {}] }]⟩,
   ⟨⟨33⟩, {}, .constructor true [{ type := [.enumeration [.range 0 top {}] {}] }]⟩,
   ⟨⟨37⟩, {}, .constructor false
      [{ type := [.named { segments := [⟨33⟩] }, .named { segments := [⟨7⟩] },
          .enumeration [.constant { segments := [⟨38⟩] }, .constant { segments := [⟨39⟩] }] {}] }]⟩]

/-- The derived constant `red`. -/
def constants : List ConstantDecl := [{ name := ⟨38⟩, kind := .derived }]

/-- `V` takes integers in `G` and naturals in `H`; `P` includes `G` as `L` and `H` as `R`. -/
def modules : List Module :=
  [{ kind := .domain, name := ⟨28⟩, file := ⟨0⟩, types := types 4 1, constants },
   { kind := .domain, name := ⟨29⟩, file := ⟨0⟩, types := types 1 2, constants },
   { kind := .domain, name := ⟨30⟩, file := ⟨0⟩,
     compositions := [{ rename := some ⟨35⟩, module := ⟨28⟩, kind := .includes },
       { rename := some ⟨36⟩, module := ⟨29⟩, kind := .includes }] }]

def session : Interner × List Table := checkAll names [] modules

/-- The namespaces `L` and `R` of `P`. -/
def left : NamespaceId := ⟨1⟩

@[inherit_doc left]
def right : NamespaceId := ⟨2⟩

/-- Whether a symbol of `L` has a counterpart in `R`. -/
def pairs (t : Table) (x y : SymbolId) : Bool :=
  decide (y.index < t.symbols.size) && t.liesUnder x left &&
    t.path (t.symbolAt x).home == t.path left && t.path (t.symbolAt y).home == t.path right &&
    (t.symbolAt y).name == (t.symbolAt x).name && (t.kindOf y).tag == (t.kindOf x).tag &&
    (t.symbolAt y).arity == (t.symbolAt x).arity

theorem corresponds_of_pairs {t : Table} {x y : SymbolId} (h : pairs t x y = true) :
    t.liesUnder x left = true ∧ t.Corresponds left right x y := by
  simp only [pairs, Bool.and_eq_true, decide_eq_true_eq, beq_iff_eq] at h
  obtain ⟨⟨⟨⟨⟨⟨hholds, hunder⟩, hx⟩, hy⟩, hname⟩, htag⟩, harity⟩ := h
  exact ⟨hunder, hholds, ⟨[], by rw [hx, List.append_nil], by rw [hy, List.append_nil]⟩,
    hname, htag,
    harity⟩

/-- Two data symbols of one position each, with their sorts, the first in `L` and the second in `R`
of a valid table. -/
structure Facing (t : Table) (d d' : SymbolId) (v w : AcceptedValues) : Prop where
  valid : t.isValid = true
  namespaces : t.HasNamespace right
  pairs : pairs t d d' = true
  sort : t.dataOf? ⟨d.index + 1⟩ = some d
  sort' : t.dataOf? ⟨d'.index + 1⟩ = some d'
  form : (t.symbolAt ⟨d.index + 1⟩).canonical = some ⟨[v]⟩
  form' : (t.symbolAt ⟨d'.index + 1⟩).canonical = some ⟨[w]⟩

instance (t : Table) (d d' : SymbolId) (v w : AcceptedValues) : Decidable (Facing t d d' v w) :=
  decidable_of_iff (t.isValid = true ∧ right.index < t.namespaces.size ∧
      TypeAsValue.pairs t d d' = true ∧ t.dataOf? ⟨d.index + 1⟩ = some d ∧
      t.dataOf? ⟨d'.index + 1⟩ = some d' ∧
      (t.symbolAt ⟨d.index + 1⟩).canonical = some ⟨[v]⟩ ∧
      (t.symbolAt ⟨d'.index + 1⟩).canonical = some ⟨[w]⟩)
    ⟨fun ⟨h₁, h₂, h₃, h₄, h₅, h₆, h₇⟩ => ⟨h₁, h₂, h₃, h₄, h₅, h₆, h₇⟩,
      fun ⟨h₁, h₂, h₃, h₄, h₅, h₆, h₇⟩ => ⟨h₁, h₂, h₃, h₄, h₅, h₆, h₇⟩⟩

/-- If what one position accepts reads as what the other accepts, the terms of the first type read
as terms of the second. -/
theorem Facing.carries {t : Table} {d d' : SymbolId} {v w : AcceptedValues} {names : Interner}
    (h : Facing t d d' v w) (ht : t.Regular names)
    (hreads : ∀ y, t.Admits v y → t.ReadsAs left right y (t.Admits w)) (x : Term)
    (hx : t.HasSort ⟨d.index + 1⟩ x) :
    t.ReadsAs left right x (t.HasSort ⟨d'.index + 1⟩) := by
  obtain ⟨hunder, hcorresponds⟩ := corresponds_of_pairs h.pairs
  obtain ⟨e, arguments, rfl⟩ := hx.exists_data
  obtain ⟨hdata, form, hform, hadmits⟩ := hx
  obtain rfl := Option.some.inj (h.sort.symm.trans hdata)
  obtain rfl := Option.some.inj (h.form.symm.trans hform)
  obtain ⟨y, rfl, hy⟩ : ∃ y, arguments = [y] ∧ t.Admits v y := by
    cases arguments with
    | nil =>
        rw [Table.AdmitsAll] at hadmits
        cases hadmits
    | cons y rest =>
        rw [Table.AdmitsAll] at hadmits
        obtain ⟨_, _, heq, hy, hrest⟩ := hadmits
        cases heq
        cases rest with
        | nil => exact ⟨y, rfl, hy⟩
        | cons z rest =>
            rw [Table.AdmitsAll] at hrest
            obtain ⟨_, _, heq, -⟩ := hrest
            cases heq
  obtain ⟨z, hz, hadmits'⟩ := hreads y hy
  refine ⟨.data d' [z], Table.relabels_data ht h.sort hunder hcorresponds ?_, h.sort', _,
    h.form', ?_⟩
  · exact Table.relabelsAll_cons hz fun others => by rw [Table.RelabelsAll]
  · rw [Table.AdmitsAll]
    exact ⟨w, [], rfl, hadmits', by rw [Table.AdmitsAll]⟩

/-- Without base sorts and data, a position accepts the integers and constants that it lists. -/
theorem admits_cases {t : Table} {v : AcceptedValues} (hbase : v.base = ∅) (hsorts : v.sorts = ∅)
    {y : Term} (hy : t.Admits v y) :
      (∃ n, y = .integer n ∧ ∃ r ∈ v.ranges, r.low ≤ n ∧ n ≤ r.high) ∨
      (∃ value, y = .string value ∧ .string value ∈ v.constants) ∨
        ∃ c, y = .constant c ∧ .symbol c ∈ v.constants := by
  cases y with
  | integer n =>
      obtain hr | ⟨b, hb, -⟩ := hy
      · exact .inl ⟨n, rfl, hr⟩
      · rw [hbase] at hb
        cases b <;> cases hb
  | fraction q =>
      rw [Table.Admits, hbase] at hy
      cases hy
  | string value =>
      refine .inr (.inl ⟨value, rfl, ?_⟩)
      obtain hlisted | hstring := hy
      · exact hlisted
      · rw [hbase] at hstring
        cases hstring
  | constant c =>
      refine .inr (.inr ⟨c, rfl, ?_⟩)
      obtain hlisted | ⟨htruth, -⟩ := hy
      · exact hlisted
      · rw [hbase] at htruth
        cases htruth
  | data e arguments =>
      obtain ⟨s, hs, -⟩ := Table.admits_data.1 hy
      rw [hsorts] at hs
      exact absurd hs List.not_mem_nil

/-- The values of `{0..1}` in `G`. -/
def narrow : AcceptedValues := { ranges := [⟨0, 1⟩] }

/-- The values of `{0..2}` in `H`. -/
def wide : AcceptedValues := { ranges := [⟨0, 2⟩] }

/-- The values of `{#V}`, where `c` is the type of `V`. -/
def listed (c : SymbolId) : AcceptedValues := { constants := ⟨[.symbol c]⟩ }

/-- Whether the types `A` of the two versions list the types `V`, and the first may not be used as
the second. -/
def refuses (t : Table) : Bool :=
  decide (Facing t ⟨31⟩ ⟨54⟩ (listed ⟨30⟩) (listed ⟨53⟩)) && pairs t ⟨30⟩ ⟨53⟩ &&
    t.isNestedConstant ⟨30⟩ &&
    match t.coerce ⟨32⟩ left right {} with
    | .ok answer _ => !answer.coercible
    | .error .. => false

/-- The values of `C + Boolean + {red, #C}`. -/
def mixed (sort type red : SymbolId) : AcceptedValues :=
  { constants := ⟨[.symbol type, .symbol red]⟩, base := .singleton .boolean, sorts := ⟨[sort]⟩ }

theorem mem_mixed {sort type red c : SymbolId} :
    ConstantValue.symbol c ∈ (mixed sort type red).constants ↔ c = type ∨ c = red := by
  constructor
  · intro h
    cases h with
    | head => exact .inl rfl
    | tail _ h => exact .inr (ConstantValue.symbol.inj (List.mem_singleton.1 h))
  · rintro (rfl | rfl)
    · exact List.mem_cons_self
    · exact List.mem_cons_of_mem _ (List.mem_singleton.2 rfl)

/-- Whether a constant is of a kind. -/
def isOf (t : Table) (c : SymbolId) (kind : ConstantKind) : Bool :=
  match t.kindOf c with
  | .userConstant found => found == kind
  | _ => false

theorem kindOf_of_isOf {t : Table} {c : SymbolId} {kind : ConstantKind} (h : isOf t c kind = true) :
    t.kindOf c = .userConstant kind := by
  unfold isOf at h
  cases hkind : t.kindOf c with
  | userConstant found =>
      rw [hkind] at h
      rw [eq_of_beq h]
  | _ =>
      rw [hkind] at h
      cases h

/-- Whether the types `C` and `E` face each other, with the constants that `E` lists. -/
def mixes (t : Table) : Bool :=
  decide (Facing t ⟨34⟩ ⟨57⟩ narrow wide) &&
    decide (Facing t ⟨37⟩ ⟨60⟩ (mixed ⟨35⟩ ⟨36⟩ ⟨40⟩) (mixed ⟨58⟩ ⟨59⟩ ⟨63⟩)) &&
    pairs t ⟨36⟩ ⟨59⟩ && pairs t ⟨40⟩ ⟨63⟩ &&
    isOf t ⟨36⟩ (.type ⟨35⟩) && isOf t ⟨40⟩ .derived && isOf t ⟨63⟩ .derived

theorem faces_session : session.2[2]?.any (fun t => mixes t && refuses t) = true := by
  decide +kernel

/-- The integers of `C` read as themselves. -/
theorem readsAs_narrow (t : Table) (y : Term) (hy : t.Admits narrow y) :
    t.ReadsAs left right y (t.Admits wide) := by
  obtain ⟨n, rfl, r, hr, hlow, hhigh⟩ | ⟨value, -, hmem⟩ | ⟨c, -, hmem⟩ := admits_cases rfl rfl hy
  · obtain rfl := List.mem_singleton.1 hr
    refine ⟨.integer n, fun z => by rw [Table.Relabels], .inl ⟨⟨0, 2⟩, List.mem_singleton.2 rfl,
      hlow, ?_⟩⟩
    exact Int.le_trans hhigh (by decide)
  · exact absurd hmem List.not_mem_nil
  · exact absurd hmem List.not_mem_nil

/-- What is known of a table in which the types `C` and `E` face each other. -/
structure Mixing (t : Table) : Prop where
  inner : Facing t ⟨34⟩ ⟨57⟩ narrow wide
  outer : Facing t ⟨37⟩ ⟨60⟩ (mixed ⟨35⟩ ⟨36⟩ ⟨40⟩) (mixed ⟨58⟩ ⟨59⟩ ⟨63⟩)
  type : pairs t ⟨36⟩ ⟨59⟩ = true
  red : pairs t ⟨40⟩ ⟨63⟩ = true
  kind_type : t.kindOf ⟨36⟩ = .userConstant (.type ⟨35⟩)
  kind_red : t.kindOf ⟨40⟩ = .userConstant .derived
  kind_red' : t.kindOf ⟨63⟩ = .userConstant .derived

theorem mixing_of_mixes {t : Table} (h : mixes t = true) : Mixing t := by
  simp only [mixes, Bool.and_eq_true, decide_eq_true_eq] at h
  obtain ⟨⟨⟨⟨⟨⟨hinner, houter⟩, htype⟩, hred⟩, hkind⟩, hkindRed⟩, hkindRed'⟩ := h
  exact ⟨hinner, houter, htype, hred, kindOf_of_isOf hkind, kindOf_of_isOf hkindRed,
    kindOf_of_isOf hkindRed'⟩

namespace Mixing

variable {t : Table} {z c : SymbolId} {v : AcceptedValues} {i : Nat}

/-- What `E` accepts reads as what its counterpart accepts. -/
theorem readsAs (h : Mixing t) (ht : t.Regular session.1) (y : Term)
    (hy : t.Admits (mixed ⟨35⟩ ⟨36⟩ ⟨40⟩) y) :
    t.ReadsAs left right y (t.Admits (mixed ⟨58⟩ ⟨59⟩ ⟨63⟩)) := by
  cases y with
  | integer n =>
      obtain ⟨r, hr, -⟩ | ⟨b, hb, hn⟩ := hy
      · exact absurd hr List.not_mem_nil
      · cases b <;> cases hb
        cases hn
  | fraction q => cases hy
  | string value =>
      obtain hlisted | hstring := hy
      · cases hlisted with
        | tail _ hlisted => cases List.mem_singleton.1 hlisted
      · cases hstring
  | constant c =>
      obtain hlisted | ⟨htruth, value, hkind⟩ := hy
      · -- the type of `C`, or `red`
        obtain rfl | rfl := mem_mixed.1 hlisted
        · obtain ⟨hunder, hcorresponds⟩ := corresponds_of_pairs h.type
          exact ⟨.constant ⟨59⟩, Table.relabels_constant ht
            (by rw [Table.isNestedConstant, h.kind_type]; rfl) hunder hcorresponds,
            .inl (mem_mixed.2 (.inl rfl))⟩
        · obtain ⟨hunder, hcorresponds⟩ := corresponds_of_pairs h.red
          exact ⟨.constant ⟨63⟩, Table.relabels_constant ht
            (by rw [Table.isNestedConstant, h.kind_red]; rfl) hunder hcorresponds,
            .inl (mem_mixed.2 (.inr rfl))⟩
      · -- truth values read as themselves
        refine ⟨.constant c, fun z => ?_, .inr ⟨rfl, value, hkind⟩⟩
        have hplain : ¬ (t.isNestedConstant c = true ∧ t.liesUnder c left = true) := by
          rw [Table.isNestedConstant, hkind]
          exact fun hboth => Bool.false_ne_true hboth.1
        rw [Table.Relabels, if_neg hplain]
  | data e arguments =>
      obtain ⟨s, hs, hterm⟩ := Table.admits_data.1 hy
      obtain rfl : s = ⟨35⟩ := List.mem_singleton.1 hs
      obtain ⟨z, hz, hterm'⟩ := h.inner.carries ht (readsAs_narrow t) _ hterm
      refine ⟨z, hz, ?_⟩
      obtain ⟨e', arguments', rfl⟩ := hterm'.exists_data
      exact Table.admits_data.2 ⟨⟨58⟩, List.mem_singleton.2 rfl, hterm'⟩

theorem accepted?_inner (h : Mixing t) (hv : (t.symbolAt ⟨35⟩).accepted? i = some v) :
    v = narrow := by
  rw [Symbol.accepted?, h.inner.form] at hv
  exact List.mem_singleton.1 (List.mem_of_getElem? hv)

theorem accepted?_outer (h : Mixing t) (hv : (t.symbolAt ⟨38⟩).accepted? i = some v) :
    v = mixed ⟨35⟩ ⟨36⟩ ⟨40⟩ := by
  rw [Symbol.accepted?, h.outer.form] at hv
  exact List.mem_singleton.1 (List.mem_of_getElem? hv)

/-- Comparing `E` meets the sorts of `E` and of `C`, which `E` accepts and whose type it lists. -/
theorem meets_cases (h : Mixing t) (hz : t.Meets left ⟨38⟩ z) : z = ⟨38⟩ ∨ z = ⟨35⟩ := by
  induction hz with
  | self => exact .inl rfl
  | accepted _ hv hw _ ih =>
      obtain rfl | rfl := ih
      · rw [h.accepted?_outer hv] at hw
        exact .inr (List.mem_singleton.1 hw)
      · rw [h.accepted?_inner hv] at hw
        exact absurd hw List.not_mem_nil
  | listed _ hv hc hkind _ ih =>
      obtain rfl | rfl := ih
      · rw [h.accepted?_outer hv] at hc
        obtain rfl | rfl := mem_mixed.1 hc
        · cases h.kind_type.symm.trans hkind
          exact .inr rfl
        · cases h.kind_red.symm.trans hkind
      · rw [h.accepted?_inner hv] at hc
        exact absurd hc List.not_mem_nil

/-- A constant that is listed on the way is the type of `C` or `red`, and listed by `E`. -/
theorem listed_cases (h : Mixing t) (hz : t.Meets left ⟨38⟩ z)
    (hv : (t.symbolAt z).accepted? i = some v) (hc : .symbol c ∈ v.constants) :
    c = ⟨36⟩ ∨ c = ⟨40⟩ := by
  obtain rfl | rfl := h.meets_cases hz
  · rw [h.accepted?_outer hv] at hc
    exact mem_mixed.1 hc
  · rw [h.accepted?_inner hv] at hc
    exact absurd hc List.not_mem_nil

theorem liesUnder_outer (h : Mixing t) (ht : t.Regular session.1) : t.liesUnder ⟨38⟩ left = true :=
  (Table.liesUnder_dataOf? ht h.outer.sort left).symm.trans (corresponds_of_pairs h.outer.pairs).1

theorem counterpart?_outer (h : Mixing t) (ht : t.Regular session.1) :
    t.counterpart? left right ⟨38⟩ = some ⟨61⟩ :=
  Table.counterpart?_of_sort ht h.outer.namespaces h.outer.sort (h.liesUnder_outer ht)
    (corresponds_of_pairs h.outer.pairs).2 h.outer.sort'

/-- The type of `C` is carried over like `C`, `red` corresponds to `red`, and truth values are
accepted on both sides. -/
theorem comparesByValue (h : Mixing t) (ht : t.Regular session.1) :
    t.ComparesByValue left right ⟨38⟩ where
  type {z i v c w} hz hv hc hkind _ := by
    obtain rfl | rfl := h.listed_cases hz hv hc
    · cases h.kind_type.symm.trans hkind
      exact ⟨⟨34⟩, ⟨57⟩, ⟨58⟩, h.inner.sort, (corresponds_of_pairs h.inner.pairs).2,
        h.inner.sort', h.inner.carries ht (readsAs_narrow t)⟩
    · cases h.kind_red.symm.trans hkind
  derived {z i v c c'} hz hv hc hkind hcorresponds := by
    obtain rfl | rfl := h.listed_cases hz hv hc
    · cases h.kind_type.symm.trans hkind
    · obtain ⟨-, hred⟩ := corresponds_of_pairs h.red
      have hsame : c' = ⟨63⟩ := hred.unique ht (Table.holds_of_constant hkind)
        (by rw [Table.dataOf?, hkind]) hcorresponds
      rw [hsame, h.kind_red']
      exact fun heq => by cases heq
  boolean {z z' i v w} hz hfound hv hw htruth _ := by
    obtain rfl | rfl := h.meets_cases hz
    · obtain rfl := Option.some.inj (hfound.symm.trans (h.counterpart?_outer ht))
      rw [Symbol.accepted?, h.outer.form'] at hw
      rw [List.mem_singleton.1 (List.mem_of_getElem? hw)]
      rfl
    · rw [h.accepted?_inner hv] at htruth
      cases htruth

end Mixing

/-- The type `E` of `G` can be used as that of `H`: it takes values of `C`, which are fewer in `G`,
and lists constants. -/
theorem coerce_complete_mixed : ∃ t ∈ session.2, ∃ cache,
    t.coerce ⟨38⟩ left right {} = .ok ⟨true, some ⟨61⟩⟩ cache := by
  obtain ⟨t, ht, hfaces⟩ := (Option.any_eq_true _ _).1 faces_session
  have hmem := List.mem_of_getElem? ht
  have hsession : Session session.1 session.2 := session_checkAll _ modules
  have h : Mixing t := mixing_of_mixes (Bool.and_eq_true_iff.1 hfaces).1
  have hregular := (hsession.archive.2.trusted hmem h.outer.valid).formed.toRegular
  exact ⟨t, hmem, Table.coerce_complete hsession hmem h.outer.valid h.outer.namespaces
    h.outer.sort (h.liesUnder_outer hregular) (corresponds_of_pairs h.outer.pairs).2 h.outer.sort'
    (h.outer.carries hregular (h.readsAs hregular)) (h.comparesByValue hregular)⟩

/-- Every term of the type `A` of `G` reads as one of the type `A` of `H`, since the only value that
they list reads as such; but the types `V` are compared for it, and that of `G` takes more. -/
theorem not_coerce_of_reads : ¬ ∀ (names : Interner) (tables : List Table) (t : Table)
    (source target : NamespaceId) (s s' d d' : SymbolId), Session names tables → t ∈ tables →
    t.isValid = true → t.HasNamespace target → t.dataOf? s = some d → t.liesUnder s source = true →
    t.Corresponds source target d d' → t.dataOf? s' = some d' →
    (∀ x, t.HasSort s x → t.ReadsAs source target x (t.HasSort s')) →
    ∃ answer cache, t.coerce s source target {} = .ok answer cache ∧ answer.coercible = true := by
  intro hall
  obtain ⟨t, ht, hfaces⟩ := (Option.any_eq_true _ _).1 faces_session
  have hmem := List.mem_of_getElem? ht
  have hsession : Session session.1 session.2 := session_checkAll _ modules
  simp only [refuses, Bool.and_eq_true] at hfaces
  obtain ⟨-, ⟨⟨hfacing, hpairs⟩, hnested⟩, hanswer⟩ := hfaces
  have h : Facing t ⟨31⟩ ⟨54⟩ (listed ⟨30⟩) (listed ⟨53⟩) := of_decide_eq_true hfacing
  have hregular := (hsession.archive.2.trusted hmem h.valid).formed.toRegular
  obtain ⟨hunder, hcorresponds⟩ := corresponds_of_pairs h.pairs
  obtain ⟨hunderType, htype⟩ := corresponds_of_pairs hpairs
  have hreads : ∀ y, t.Admits (listed ⟨30⟩) y →
      t.ReadsAs left right y (t.Admits (listed ⟨53⟩)) := by
    intro y hy
    obtain ⟨n, -, r, hr, -⟩ | ⟨value, -, hmem⟩ | ⟨c, rfl, hmem⟩ := admits_cases rfl rfl hy
    · exact absurd hr List.not_mem_nil
    · cases List.mem_singleton.1 hmem
    · obtain rfl : c = ⟨30⟩ := ConstantValue.symbol.inj (List.mem_singleton.1 hmem)
      exact ⟨.constant ⟨53⟩, Table.relabels_constant hregular hnested hunderType htype,
        .inl (List.mem_singleton.2 rfl)⟩
  obtain ⟨answer, cache, hrun, hyes⟩ := hall _ _ t left right ⟨32⟩ ⟨55⟩ ⟨31⟩ ⟨54⟩ hsession hmem
    h.valid h.namespaces h.sort (by rw [← hunder, Table.liesUnder_dataOf? hregular h.sort])
    hcorresponds h.sort' (h.carries hregular hreads)
  rw [hrun] at hanswer
  dsimp only at hanswer
  rw [hyes] at hanswer
  cases hanswer

end TypeAsValue

end ManySorted
