import ManySorted.Declaration.Form
import ManySorted.Proofs.Draft.Run
import ManySorted.Proofs.Table.Intact

/-!
# Forms that are written and failures that are marked

A data symbol shares its form and its mark of failure with its sort (`Table.holders`).  A form that
fits is written to a symbol without breaking anything, as long as the symbol has none
(`Intact.writeForm`), and marking failures leaves all forms and sizes as they are (`Table.Marks`).

## Strategy

* **Holders.**  Different declarations share nothing (`Table.Regular.eq_of_mem_holders`), so writing
  to one leaves the others alone.
* **Forms.**  A form that fits is written to a symbol that has none (`Table.Intact.writesForm`), and
  nothing dangles afterwards (`Table.Intact.writeForm`).  Several forms are written as planned if no
  symbol is in the plan twice (`Table.Inscribed.write`).
* **Marks and sizes.**  Marking failures changes nothing else (`Table.marks_markFamilyFailed`), and
  neither does writing sizes of the module's own sorts (`Table.SizesWritten`).
-/

namespace ManySorted

/-- A symbol is determined by what it is and by what is written to it. -/
theorem Symbol.eq_of_blank {s s' : Symbol} (hblank : s'.blank = s.blank)
    (hcanonical : s'.canonical = s.canonical) (hsize : s'.size? = s.size?)
    (horigin : s'.origin = s.origin) (hfailed : s'.failed = s.failed) : s' = s := by
  have hkind : s'.kind = s.kind := by
    have hunsized := Symbol.kind_of_blank hblank
    unfold Symbol.size? at hsize
    cases hs : s.kind <;> cases hs' : s'.kind <;> rw [hs, hs'] at hunsized hsize <;>
      cases hunsized <;>
      first | rfl | (cases hsize; rfl)
  obtain ⟨id, name, home, arity, location, kind, canonical, origin, failed⟩ := s
  obtain ⟨id', name', home', arity', location', kind', canonical', origin', failed'⟩ := s'
  simp only [Symbol.blank, Symbol.mk.injEq] at hblank
  simp only [Symbol.mk.injEq]
  exact ⟨hblank.1, hblank.2.1, hblank.2.2.1, hblank.2.2.2.1, hblank.2.2.2.2.1, hkind, hcanonical,
    horigin, hfailed⟩

namespace Table

variable {names : Interner} {t t' t'' : Table} {x y d : SymbolId} {form : CanonicalForm}
  {shape : DataShape} {info : DataInfo}

/-- The symbols that share one form: a data symbol and its sort, or a symbol alone. -/
def holders (t : Table) (x : SymbolId) : List SymbolId :=
  x :: ((t.kindOf x).info?.map DataInfo.sort).toList

theorem self_mem_holders (t : Table) (x : SymbolId) : x ∈ t.holders x := List.mem_cons_self

theorem holders_of_data (hd : t.kindOf d = .data shape info) : t.holders d = [d, info.sort] := by
  rw [holders, hd]
  rfl

theorem info?_eq_none {kind : SymbolKind} (hdata : kind.isData = false) : kind.info? = none := by
  cases kind <;> first | rfl | cases hdata

theorem holders_of_not_data (hdata : (t.kindOf x).isData = false) : t.holders x = [x] := by
  rw [holders, info?_eq_none hdata]
  rfl

theorem exists_data_of_isData (hdata : (t.kindOf x).isData = true) :
    ∃ shape info, t.kindOf x = .data shape info := by
  cases hkind : t.kindOf x with
  | data shape info => exact ⟨shape, info, rfl⟩
  | _ =>
      rw [hkind] at hdata
      cases hdata

theorem not_isSort_of_data (hd : t.kindOf d = .data shape info) : ¬ t.IsSort d := by
  rintro ⟨_, hsort⟩
  rw [hd] at hsort
  cases hsort

theorem Alike.holders (h : t.Alike t') (x : SymbolId) : t'.holders x = t.holders x := by
  cases hdata : (t.kindOf x).isData with
  | true =>
      obtain ⟨shape, info, hd⟩ := exists_data_of_isData hdata
      rw [holders_of_data hd, holders_of_data (h.kindOf_data.2 hd)]
  | false =>
      rw [holders_of_not_data hdata, holders_of_not_data]
      rw [← Bool.not_eq_true]
      intro hdata'
      obtain ⟨shape, info, hd⟩ := exists_data_of_isData hdata'
      rw [h.kindOf_data.1 hd] at hdata
      cases hdata

namespace Regular

theorem sort_ne (h : t.Regular names) (hd : t.kindOf d = .data shape info) : info.sort ≠ d := by
  intro heq
  exact not_isSort_of_data hd (heq ▸ ⟨d, (h.families.data hd).sort_kind⟩)

/-- What shares a form with a symbol is a sort only if it is the sort of that symbol. -/
theorem mem_holders_cases (h : t.Regular names) (hy : y ∈ t.holders x) :
    y = x ∨ t.dataOf? y = some x := by
  cases hdata : (t.kindOf x).isData with
  | true =>
      obtain ⟨shape, info, hd⟩ := exists_data_of_isData hdata
      rw [holders_of_data hd] at hy
      rcases List.mem_cons.1 hy with rfl | hy
      · exact .inl rfl
      · rw [List.mem_singleton.1 hy]
        exact .inr (h.families.dataOf?_sort hd)
  | false =>
      rw [holders_of_not_data hdata] at hy
      exact .inl (List.mem_singleton.1 hy)

/-- Different declarations share nothing. -/
theorem eq_of_mem_holders (h : t.Regular names) {x' : SymbolId} (hx : ¬ t.IsSort x)
    (hx' : ¬ t.IsSort x') (hy : y ∈ t.holders x) (hy' : y ∈ t.holders x') : x = x' := by
  rcases h.mem_holders_cases hy with rfl | hdata
  · rcases h.mem_holders_cases hy' with heq | hdata'
    · exact heq
    · exact absurd (isSort_iff_dataOf?.2 ⟨_, hdata'⟩) hx
  · rcases h.mem_holders_cases hy' with rfl | hdata'
    · exact absurd (isSort_iff_dataOf?.2 ⟨_, hdata⟩) hx'
    · exact Option.some.inj (hdata.symm.trans hdata')

end Regular

/-! ## Later tables -/

/-- Tables that are alike are earlier and later, if what is written stays and settled symbols are
left alone. -/
theorem Alike.later (h : t.Alike t')
    (hcanonical : ∀ {y form}, (t.symbolAt y).canonical = some form →
      (t'.symbolAt y).canonical = some form)
    (hsize : ∀ {y e}, (t.symbolAt y).size? = some e → (t'.symbolAt y).size? = some e)
    (hsettled : ∀ {y}, (t.symbolAt y).isSettled = true →
      (t'.symbolAt y).canonical = (t.symbolAt y).canonical ∧
        (t'.symbolAt y).size? = (t.symbolAt y).size? ∧
        (t'.symbolAt y).failed = (t.symbolAt y).failed) : t.Later t' where
  id_eq := h.id_eq
  hasNamespace hns := by rwa [HasNamespace, h.namespaces_eq]
  name_eq _ := by rw [namespaceAt, namespaceAt, h.namespaces_eq]
  parent_eq _ := by rw [namespaceAt, namespaceAt, h.namespaces_eq]
  child? hc := by rwa [namespaceAt, h.namespaces_eq]
  symbol? hs := by rwa [namespaceAt, h.namespaces_eq]
  holds hx := (h.holds _).2 hx
  symbol {y} _ := by
    refine ⟨h.blank y, h.origin y, fun hy => ?_, hcanonical, hsize⟩
    obtain ⟨hform, hsize, hfailed⟩ := hsettled hy
    exact Symbol.eq_of_blank (h.blank y) hform hsize (h.origin y) hfailed

/-! ## Writing forms -/

/-- Nothing but forms was written. -/
structure FormsWritten (t t' : Table) : Prop extends t.Alike t' where
  size : ∀ y, (t'.symbolAt y).size? = (t.symbolAt y).size?
  failed : ∀ y, (t'.symbolAt y).failed = (t.symbolAt y).failed

theorem FormsWritten.refl (t : Table) : t.FormsWritten t := ⟨.refl t, fun _ => rfl, fun _ => rfl⟩

theorem FormsWritten.trans (h : t.FormsWritten t') (h' : t'.FormsWritten t'') :
    t.FormsWritten t'' where
  toAlike := h.toAlike.trans h'.toAlike
  size y := (h'.size y).trans (h.size y)
  failed y := (h'.failed y).trans (h.failed y)

/-- A form is written to a symbol that has none. -/
theorem setCanonical_of_none (hx : t.Holds x) (hnone : (t.symbolAt x).canonical = none)
    (form : CanonicalForm) :
    ∃ t', t.setCanonical x form = .ok t' ∧ t.FormsWritten t' ∧
      ∀ y, (t'.symbolAt y).canonical = if y = x then some form else (t.symbolAt y).canonical := by
  have hset : t.setCanonical x form =
      .ok (t.updateSymbol x ({ · with canonical := some form })) := by
    rw [setCanonical, hnone]
    rfl
  refine ⟨_, hset, ⟨.updateSymbol (fun _ => rfl) fun _ => rfl, fun y => ?_, fun y => ?_⟩,
    fun y => ?_⟩
  · rw [symbolAt_updateSymbol]
    split
    · rfl
    · rfl
  · rw [symbolAt_updateSymbol]
    split
    · rfl
    · rfl
  · rw [symbolAt_updateSymbol]
    by_cases hy : y = x
    · rw [if_pos ⟨hy, hy ▸ hx⟩, if_pos hy]
    · rw [if_neg fun h => hy h.1, if_neg hy]

/-- The form of a symbol was written, and nothing else. -/
structure WritesForm (t t' : Table) (x : SymbolId) (form : CanonicalForm) : Prop extends
    t.FormsWritten t' where
  canonical : ∀ y, (t'.symbolAt y).canonical =
    if y ∈ t.holders x then some form else (t.symbolAt y).canonical

theorem writeForm_of_not_data (hdata : (t.kindOf x).isData = false) (form : CanonicalForm) :
    t.writeForm x form = t.setCanonical x form := by
  rw [writeForm, info?_eq_none hdata]
  rfl

theorem Intact.canonical_sort (h : t.Intact names) (hd : t.kindOf d = .data shape info)
    (hnone : (t.symbolAt d).canonical = none) : (t.symbolAt info.sort).canonical = none :=
  (h.data hd).form_eq.trans hnone

theorem Intact.writesForm (h : t.Intact names) (hx : t.Holds x)
    (hnone : (t.symbolAt x).canonical = none) (form : CanonicalForm) :
    ∃ t', t.writeForm x form = .ok t' ∧ t.WritesForm t' x form := by
  cases hdata : (t.kindOf x).isData with
  | false =>
      obtain ⟨t', hset, hwritten, hcanonical⟩ := setCanonical_of_none hx hnone form
      refine ⟨t', (writeForm_of_not_data hdata form).trans hset, hwritten, fun y => ?_⟩
      rw [hcanonical, holders_of_not_data hdata]
      exact ite_congr (propext List.mem_singleton.symm) (fun _ => rfl) fun _ => rfl
  | true =>
      obtain ⟨shape, info, hd⟩ := exists_data_of_isData hdata
      have hne := h.formed.toRegular.sort_ne hd
      -- the sort is written first, and that leaves the data symbol as it is
      obtain ⟨t₁, hset₁, hwritten₁, hcanonical₁⟩ := setCanonical_of_none
        (h.formed.families.data hd).holds_sort (h.canonical_sort hd hnone) form
      have hnone₁ : (t₁.symbolAt x).canonical = none := by
        rw [hcanonical₁, if_neg hne.symm, hnone]
      obtain ⟨t', hset, hwritten, hcanonical⟩ :=
        setCanonical_of_none ((hwritten₁.holds x).2 hx) hnone₁ form
      refine ⟨t', ?_, hwritten₁.trans hwritten, fun y => ?_⟩
      · rw [writeForm, hd]
        exact except_bind_eq_ok.2 ⟨t₁, hset₁, hset⟩
      · rw [hcanonical, hcanonical₁, holders_of_data hd]
        by_cases hy : y = x
        · rw [if_pos hy, if_pos (hy ▸ List.mem_cons_self)]
        · rw [if_neg hy]
          refine ite_congr (propext ?_) (fun _ => rfl) fun _ => rfl
          rw [List.mem_cons, List.mem_singleton]
          exact (or_iff_right hy).symm

/-- A form that fits breaks nothing. -/
theorem Intact.writeForm (h : t.Intact names) (hx : t.Holds x) (hsort : ¬ t.IsSort x)
    (hnone : (t.symbolAt x).canonical = none) (hclosed : form.Closed t)
    (hsize : (t.symbolAt x).formSize? = some form.size) :
    ∃ t', t.writeForm x form = .ok t' ∧ t.WritesForm t' x form ∧ t'.Intact names := by
  obtain ⟨t', hwrite, hwrites⟩ := h.writesForm hx hnone form
  have hregular := h.formed.toRegular
  refine ⟨t', hwrite, hwrites, h.revised hwrites.toAlike (fun {y} hy => ⟨fun {f} hf => ?_, ?_⟩)
    (fun {y f} hy hsort' hf => ?_) fun {d shape info} hd => ?_⟩
  · rw [hwrites.canonical] at hf
    split at hf
    · exact Option.some.inj hf ▸ hclosed
    · exact (h.closed hy).form hf
  · rw [hwrites.size]
    exact (h.closed hy).size
  · rw [hwrites.canonical] at hf
    split at hf
    · next hmem =>
        rcases hregular.mem_holders_cases hmem with rfl | hdata
        · exact Option.some.inj hf ▸ hsize
        · exact absurd (isSort_iff_dataOf?.2 ⟨_, hdata⟩) hsort'
    · exact h.form hy hsort' hf
  · -- a data symbol and its sort are written together or not at all
    have hiff : info.sort ∈ t.holders x ↔ d ∈ t.holders x := by
      have hsortMem : info.sort ∈ t.holders d := by
        rw [holders_of_data hd]
        exact List.mem_cons_of_mem _ List.mem_cons_self
      constructor
      · intro hmem
        exact hregular.eq_of_mem_holders hsort (not_isSort_of_data hd) hmem hsortMem ▸
          self_mem_holders t x
      · intro hmem
        rwa [hregular.eq_of_mem_holders hsort (not_isSort_of_data hd) hmem (self_mem_holders t d)]
    rw [hwrites.canonical, hwrites.canonical, (h.data hd).form_eq]
    exact ite_congr (propext hiff) (fun _ => rfl) fun _ => rfl

/-- The planned forms were written, each to a symbol that had none, and nothing else. -/
structure Inscribed (names : Interner) (t : Table) (plan : List (SymbolId × CanonicalForm))
    (t' : Table) : Prop extends t.FormsWritten t' where
  intact : t'.Intact names
  plain : ∀ e ∈ plan, ¬ t.IsSort e.1
  unsettled : ∀ e ∈ plan, ∀ y ∈ t.holders e.1, (t.symbolAt y).isSettled = false
  unwritten : ∀ e ∈ plan, ∀ y ∈ t.holders e.1, (t.symbolAt y).canonical = none
  formed : ∀ e ∈ plan, ∀ y ∈ t.holders e.1, (t'.symbolAt y).canonical = some e.2
  kept : ∀ y, (∀ e ∈ plan, y ∉ t.holders e.1) →
    (t'.symbolAt y).canonical = (t.symbolAt y).canonical

namespace Inscribed

variable {plan : List (SymbolId × CanonicalForm)}

theorem nil (h : t.Intact names) : t.Inscribed names [] t where
  toFormsWritten := .refl t
  intact := h
  plain _ he := absurd he List.not_mem_nil
  unsettled _ he := absurd he List.not_mem_nil
  unwritten _ he := absurd he List.not_mem_nil
  formed _ he := absurd he List.not_mem_nil
  kept _ _ := rfl

/-- One more form is written to a symbol that is not in the plan yet. -/
theorem write (h : t.Inscribed names plan t') (hx : t.Holds x) (hsort : ¬ t.IsSort x)
    (hnew : ∀ e ∈ plan, e.1 ≠ x)
    (hunsettled : ∀ y ∈ t.holders x, (t.symbolAt y).isSettled = false)
    (hunwritten : ∀ y ∈ t.holders x, (t.symbolAt y).canonical = none)
    (hclosed : form.Closed t) (hsize : (t.symbolAt x).formSize? = some form.size) :
    ∃ t'', t'.writeForm x form = .ok t'' ∧ t.Inscribed names (plan ++ [(x, form)]) t'' := by
  have hregular := h.symm.regular h.intact.formed.toRegular
  have hdisjoint : ∀ e ∈ plan, ∀ y ∈ t.holders e.1, y ∉ t.holders x := fun e he y hy hy' =>
    hnew e he (hregular.eq_of_mem_holders (h.plain e he) hsort hy hy')
  have hkept : ∀ y ∈ t.holders x, (t'.symbolAt y).canonical = (t.symbolAt y).canonical :=
    fun y hy => h.kept y fun e he hy' => hdisjoint e he y hy' hy
  have hself := self_mem_holders t x
  obtain ⟨t'', hwrite, hwrites, hintact⟩ := h.intact.writeForm ((h.holds x).2 hx)
    (fun hx => hsort (h.isSort.1 hx)) ((hkept x hself).trans (hunwritten x hself))
    (fun v hv => h.closed_values (hclosed v hv)) ((h.formSize? x).trans hsize)
  have hcanonical : ∀ y, (t''.symbolAt y).canonical =
      if y ∈ t.holders x then some form else (t'.symbolAt y).canonical := by
    intro y
    rw [hwrites.canonical, h.holders]
  refine ⟨t'', hwrite, h.toFormsWritten.trans hwrites.toFormsWritten, hintact,
    fun e he => ?_, fun e he => ?_, fun e he => ?_, fun e he y hy => ?_, fun y hy => ?_⟩
  · rcases List.mem_append.1 he with he | he
    · exact h.plain e he
    · exact List.mem_singleton.1 he ▸ hsort
  · rcases List.mem_append.1 he with he | he
    · exact h.unsettled e he
    · exact List.mem_singleton.1 he ▸ hunsettled
  · rcases List.mem_append.1 he with he | he
    · exact h.unwritten e he
    · exact List.mem_singleton.1 he ▸ hunwritten
  · rw [hcanonical]
    rcases List.mem_append.1 he with he | he
    · rw [if_neg (hdisjoint e he y hy)]
      exact h.formed e he y hy
    · obtain rfl := List.mem_singleton.1 he
      rw [if_pos hy]
  · rw [hcanonical, if_neg (hy (x, form) (List.mem_append_right _ List.mem_cons_self))]
    exact h.kept y fun e he => hy e (List.mem_append_left _ he)

/-- A form was there before, or it was planned. -/
theorem cases (h : t.Inscribed names plan t') (y : SymbolId) :
    (t'.symbolAt y).canonical = (t.symbolAt y).canonical ∨
      ∃ e ∈ plan, y ∈ t.holders e.1 := by
  by_cases hy : ∃ e ∈ plan, y ∈ t.holders e.1
  · exact .inr hy
  · exact .inl (h.kept y fun e he hmem => hy ⟨e, he, hmem⟩)

theorem later (h : t.Inscribed names plan t') : t.Later t' := by
  refine h.toAlike.later (fun {y form} hform => ?_) (fun he => (h.size _).trans he)
    fun {y} hy => ⟨?_, h.size y, h.failed y⟩
  · rcases h.cases y with hsame | ⟨e, he, hy⟩
    · rw [hsame, hform]
    · cases hform.symm.trans (h.unwritten e he y hy)
  · rcases h.cases y with hsame | ⟨e, he, hmem⟩
    · exact hsame
    · exact Bool.noConfusion (hy.symm.trans (h.unsettled e he y hmem))

end Inscribed

/-! ## Marking failures -/

/-- Nothing was done but marking declarations of the module as failed. -/
structure Marks (t t' : Table) : Prop extends t.Alike t' where
  canonical : ∀ y, (t'.symbolAt y).canonical = (t.symbolAt y).canonical
  size : ∀ y, (t'.symbolAt y).size? = (t.symbolAt y).size?
  failed : ∀ {y}, (t.symbolAt y).failed = true → (t'.symbolAt y).failed = true
  settled : ∀ {y}, (t.symbolAt y).isSettled = true →
    (t'.symbolAt y).failed = (t.symbolAt y).failed

/-- Whatever changes but the namespaces and symbols. -/
theorem Marks.of_eq (hid : t'.id = t.id) (hnamespaces : t'.namespaces = t.namespaces)
    (hsymbols : t'.symbols = t.symbols) : t.Marks t' := by
  have hsame : ∀ y, t'.symbolAt y = t.symbolAt y := fun y => by
    rw [symbolAt, symbolAt, hsymbols]
  refine ⟨.of_eq hid hnamespaces hsymbols, fun y => ?_, fun y => ?_, fun {y} hy =>
    ?_, fun {y} _ => ?_⟩
  · rw [hsame]
  · rw [hsame]
  · rw [hsame, hy]
  · rw [hsame]

theorem Marks.refl (t : Table) : t.Marks t := .of_eq rfl rfl rfl

theorem Marks.trans (h : t.Marks t') (h' : t'.Marks t'') : t.Marks t'' where
  toAlike := h.toAlike.trans h'.toAlike
  canonical y := (h'.canonical y).trans (h.canonical y)
  size y := (h'.size y).trans (h.size y)
  failed hy := h'.failed (h.failed hy)
  settled hy := (h'.settled ((h.isSettled _).trans hy)).trans (h.settled hy)

theorem Intact.marks (h : t.Intact names) (hmarks : t.Marks t') : t'.Intact names :=
  h.unwritten hmarks.toAlike hmarks.canonical hmarks.size

theorem Marks.later (h : t.Marks t') : t.Later t' :=
  h.toAlike.later (fun hform => (h.canonical _).trans hform) (fun he => (h.size _).trans he)
    fun hy => ⟨h.canonical _, h.size _, h.settled hy⟩

theorem failed_markFailed (y : SymbolId) :
    ((t.markFailed x).symbolAt y).failed = true ↔
      (t.symbolAt y).failed = true ∨ y = x ∧ t.Holds y := by
  rw [markFailed, symbolAt_updateSymbol]
  split
  · next h => exact iff_of_true rfl (.inr h)
  · next h => exact (or_iff_left h).symm

theorem marks_markFailed (hx : (t.symbolAt x).isSettled = false) : t.Marks (t.markFailed x) := by
  refine ⟨.updateSymbol (fun _ => rfl) fun _ => rfl, fun y => ?_, fun y => ?_,
    fun hy => (failed_markFailed _).2 (.inl hy), fun {y} hy => ?_⟩
  · rw [markFailed, symbolAt_updateSymbol]
    split
    · rfl
    · rfl
  · rw [markFailed, symbolAt_updateSymbol]
    split
    · rfl
    · rfl
  · rw [markFailed, symbolAt_updateSymbol, if_neg]
    rintro ⟨rfl, -⟩
    exact Bool.noConfusion (hy.symm.trans hx)

theorem kindOf_markFailed (t : Table) (x y : SymbolId) : (t.markFailed x).kindOf y =
    t.kindOf y := by
  rw [kindOf, markFailed, symbolAt_updateSymbol]
  split
  · rfl
  · rfl

/-- A declaration that fails is marked together with its sort. -/
theorem marks_markFamilyFailed (hx : ∀ y ∈ t.holders x, (t.symbolAt y).isSettled = false) :
    t.Marks (t.markFamilyFailed x) ∧ ∀ y, ((t.markFamilyFailed x).symbolAt y).failed = true ↔
      (t.symbolAt y).failed = true ∨ y ∈ t.holders x ∧ t.Holds y := by
  have hself := marks_markFailed (hx x (self_mem_holders t x))
  cases hdata : (t.kindOf x).isData with
  | false =>
      rw [markFamilyFailed, kindOf_markFailed, info?_eq_none hdata, holders_of_not_data hdata]
      refine ⟨hself, fun y => ?_⟩
      rw [failed_markFailed, List.mem_singleton]
  | true =>
      obtain ⟨shape, info, hd⟩ := exists_data_of_isData hdata
      rw [holders_of_data hd] at hx ⊢
      rw [markFamilyFailed, kindOf_markFailed, hd]
      have hsort : ((t.markFailed x).symbolAt info.sort).isSettled = false := by
        rw [hself.isSettled]
        exact hx _ (List.mem_cons_of_mem _ List.mem_cons_self)
      refine ⟨hself.trans (marks_markFailed hsort), fun y => ?_⟩
      change (((t.markFailed x).markFailed info.sort).symbolAt y).failed = true ↔ _
      rw [failed_markFailed, failed_markFailed, hself.holds, List.mem_cons, List.mem_singleton,
        or_assoc, ← or_and_right]

/-! ## Writing sizes -/

/-- A size is written to a sort that has none. -/
theorem setSize_of_none (hsort : t.IsSort x) (hnone : (t.symbolAt x).size? = none)
    (e : SizeExpr) : ∃ t', t.setSize x e = .ok t' := by
  obtain ⟨data, hkind⟩ := hsort
  obtain ⟨size, hkind⟩ := SymbolKind.unsized_eq_userSort.1 hkind
  have hunsized : size = none := by
    rw [kindOf] at hkind
    rw [Symbol.size?, hkind] at hnone
    exact hnone
  subst hunsized
  unfold setSize
  rw [hkind]
  exact ⟨_, rfl⟩

/-- Nothing but sizes of the module's own sorts was written. -/
structure SizesWritten (t t' : Table) : Prop extends t.Alike t' where
  canonical : ∀ y, (t'.symbolAt y).canonical = (t.symbolAt y).canonical
  failed : ∀ y, (t'.symbolAt y).failed = (t.symbolAt y).failed
  size : ∀ {y e}, (t.symbolAt y).size? = some e → (t'.symbolAt y).size? = some e
  settled : ∀ {y}, (t.symbolAt y).isSettled = true →
    (t'.symbolAt y).size? = (t.symbolAt y).size?

/-- Whatever changes but the namespaces and symbols. -/
theorem SizesWritten.of_eq (hid : t'.id = t.id) (hnamespaces : t'.namespaces = t.namespaces)
    (hsymbols : t'.symbols = t.symbols) : t.SizesWritten t' := by
  have hsame : ∀ y, t'.symbolAt y = t.symbolAt y := fun y => by
    rw [symbolAt, symbolAt, hsymbols]
  refine ⟨.of_eq hid hnamespaces hsymbols, fun y => ?_, fun y => ?_, fun {y e} hy => ?_,
    fun {y} _ => ?_⟩
  · rw [hsame]
  · rw [hsame]
  · rw [hsame, hy]
  · rw [hsame]

theorem SizesWritten.refl (t : Table) : t.SizesWritten t := .of_eq rfl rfl rfl

theorem SizesWritten.trans (h : t.SizesWritten t') (h' : t'.SizesWritten t'') :
    t.SizesWritten t'' where
  toAlike := h.toAlike.trans h'.toAlike
  canonical y := (h'.canonical y).trans (h.canonical y)
  failed y := (h'.failed y).trans (h.failed y)
  size hy := h'.size (h.size hy)
  settled {y} hy := (h'.settled ((h.isSettled y).trans hy)).trans (h.settled hy)

theorem SizesWritten.later (h : t.SizesWritten t') : t.Later t' :=
  h.toAlike.later (fun hform => (h.canonical _).trans hform) h.size
    fun hy => ⟨h.canonical _, h.settled hy, h.failed _⟩

end Table

end ManySorted
