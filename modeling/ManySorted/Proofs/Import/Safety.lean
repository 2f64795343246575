import ManySorted.Proofs.Accepted.Parts
import ManySorted.Proofs.Import.Embed
import ManySorted.Proofs.Table.Writing

/-!
# Importing never breaks down

Whatever names are taken, a clone is new, so its form and its size are written once; every clone is
found where it was put; and what is written speaks of what is there, since a link leads to a symbol
of the same kind.  What is left out is reported, so a table with no such report is put together as
if nothing had been in the way (`Draft.Gathered`).

## Strategy

* **Symbols left out.**  Forms and sizes stay closed and normal when symbols without a link are
  dropped from them (`AcceptedValues.Closed.mapIds`, `SizeExpr.Closed.mapIds`).  Links lead to
  symbols of the same kind, so what is left is of the right kind (`Importing.Gathering.keeps`).
* **Placing.**  Clones to which nothing is written yet leave nothing dangling
  (`Importing.Gathering.intact`).
* **Writing.**  Every clone is new, so its form and its size are written once
  (`Importing.Gathering.exists_fill`), and what is written fits (`Importing.Filling.intact`).
* **Verifying.**  A link leads to the place of the foreign symbol, which is found by its renamed
  path (`Importing.verify_eq_ok`).
* **All imports.**  Each stage of an import hands the next one what it relies on
  (`Draft.safe_absorb`, `Draft.safe_layOut`, `Draft.safe_gathered`, `Draft.safe_fill`,
  `Draft.safe_verify`), and the table is then ready for the next import (`Draft.safe_embed`,
  `Draft.safe_imports`).
-/

namespace ManySorted

/-! ## Forms and sizes with symbols left out -/

section

variable {t foreign : Table} {f : SymbolId → Option SymbolId}

/-- Symbols are replaced by symbols of the same kind. -/
structure Table.Keeps (foreign t : Table) (f : SymbolId → Option SymbolId) : Prop where
  isSort : ∀ {r x}, f r = some x → foreign.IsSort r → t.IsSort x
  isConstant : ∀ {r x}, f r = some x → foreign.IsConstant r → t.IsConstant x

/-- Leaving out symbols keeps the normal form. -/
theorem AcceptedValues.Normal.mapIds {v : AcceptedValues} (h : v.Normal)
    (f : SymbolId → Option SymbolId) : (v.mapIds f).Normal where
  constants := OrderedSet.sorted_ofList _
  ranges := h.ranges
  sorts := OrderedSet.sorted_ofList _

theorem AcceptedValues.Closed.mapIds {v : AcceptedValues} (h : v.Closed foreign)
    (hf : foreign.Keeps t f) : (v.mapIds f).Closed t where
  sorts hs := by
    obtain ⟨r, hr, hx⟩ := mem_sorts_mapIds.1 hs
    exact hf.isSort hx (h.sorts hr)
  constants hc := by
    obtain ⟨r, hr, hx⟩ := symbol_mem_constants_mapIds.1 hc
    exact hf.isConstant hx (h.constants hr)
  ranges hr := h.ranges hr

theorem CanonicalForm.Closed.mapIds {form : CanonicalForm} (h : form.Closed foreign)
    (hf : foreign.Keeps t f) : (form.mapIds f).Closed t := by
  intro v hv
  obtain ⟨w, hw, rfl⟩ := List.mem_map.1 hv
  exact (h w hw).mapIds hf

theorem SizeExpr.exists_of_mem_cards_mapIds {e : SizeExpr} {x : SymbolId}
    (hx : x ∈ (e.mapIds f).cards) : ∃ r ∈ e.cards, f r = some x := by
  induction e with
  | infinity => cases hx
  | count n => cases hx
  | card sort =>
      rw [mapIds] at hx
      split at hx
      · next renamed hrenamed =>
          obtain rfl := List.mem_singleton.1 hx
          exact ⟨sort, List.mem_cons_self, hrenamed⟩
      · cases hx
  | sum parts ih =>
      rw [mapIds, mapIdsOf_eq] at hx
      obtain ⟨part, hpart, hx⟩ := exists_of_mem_cards_add hx
      obtain ⟨q, hq, rfl⟩ := List.mem_map.1 hpart
      obtain ⟨r, hr, hrenamed⟩ := ih q hq hx
      exact ⟨r, mem_cardsOf.2 ⟨q, hq, hr⟩, hrenamed⟩
  | product parts ih =>
      rw [mapIds, mapIdsOf_eq] at hx
      obtain ⟨part, hpart, hx⟩ := exists_of_mem_cards_multiply hx
      obtain ⟨q, hq, rfl⟩ := List.mem_map.1 hpart
      obtain ⟨r, hr, hrenamed⟩ := ih q hq hx
      exact ⟨r, mem_cardsOf.2 ⟨q, hq, hr⟩, hrenamed⟩

theorem SizeExpr.Closed.mapIds {e : SizeExpr} (h : e.Closed foreign) (hf : foreign.Keeps t f) :
    (e.mapIds f).Closed t where
  stable := stable_mapIds f e
  cards hx := by
    obtain ⟨r, hr, hrenamed⟩ := exists_of_mem_cards_mapIds hx
    exact hf.isSort hrenamed (h.cards hr)

end

/-! ## What a link leads to -/

namespace Table

variable {names : Interner} {foreign t t' : Table} {base : NamespaceId} {r x : SymbolId}

/-- Whether a symbol is a sort shows in the outline of its kind. -/
theorem isSort_of_outline (houtline : (t.kindOf x).outline = (foreign.kindOf r).outline)
    (hr : foreign.IsSort r) : t.IsSort x := by
  obtain ⟨d, hd⟩ := hr
  refine SymbolKind.outline_eq_userSort ?_
  rw [houtline, ← SymbolKind.outline_unsized, hd]
  rfl

theorem Linked.isSort_iff (h : foreign.Linked t base r x) : t.IsSort x ↔ foreign.IsSort r :=
  ⟨isSort_of_outline h.outline.symm, isSort_of_outline h.outline⟩

theorem Linked.isConstant (h : foreign.Linked t base r x) (hr : foreign.IsConstant r) :
    t.IsConstant x := by
  rw [IsConstant, ← isConstant_outline, h.outline, isConstant_outline]
  exact hr

theorem formSize?_outline (s s' : Symbol) (houtline : s'.kind.outline = s.kind.outline)
    (harity : s'.arity = s.arity) : s'.formSize? = s.formSize? := by
  have hsize : ∀ s : Symbol, s.formSize? = { s with kind := s.kind.outline }.formSize? := by
    intro s
    cases hkind : s.kind with
    | userConstant constant => cases constant <;> simp [Symbol.formSize?, hkind, SymbolKind.outline]
    | _ => simp [Symbol.formSize?, hkind, SymbolKind.outline]
  rw [hsize s', hsize s]
  simp only [Symbol.formSize?, houtline, harity]

end Table

namespace Importing

variable {tables : List Table} {imp : Importing} {base : NamespaceId} {start d : Draft}
  {foreign t t' : Table} {links : Links} {r x : SymbolId} {p : SymbolId × SymbolId}

/-! ## Clones that are not written to -/

/-- The sort of a data symbol is old or new with it. -/
theorem Gathering.holds_sort (h : Gathering imp base start links d)
    (hstart : start.table.Regular start.names) {shape : DataShape} {info : DataInfo}
    (hx : d.table.kindOf x = .data shape info) :
    start.table.Holds info.sort ↔ start.table.Holds x := by
  constructor
  · intro hsort
    have hkind := h.later.unsized_kindOf hsort
    rw [(h.regular.families.data hx).sort_kind] at hkind
    obtain ⟨shape', info', hdata, heq⟩ := hstart.families.sort hkind.symm
    exact Table.holds_of_data hdata
  · intro hold
    obtain ⟨info', hdata⟩ : ∃ info', start.table.kindOf x = .data shape info' := by
      have hkind := h.later.unsized_kindOf hold
      rw [hx] at hkind
      exact ⟨info, SymbolKind.unsized_eq_data.1 hkind.symm⟩
    have hsame := h.later.kindOf_data hdata
    rw [hx] at hsame
    cases hsame
    exact (hstart.families.data hdata).holds_sort

/-- What was there before is left alone. -/
theorem Gathering.symbolAt_old (h : Gathering imp base start links d)
    (hsettled : ∀ {x}, start.table.Holds x → (start.table.symbolAt x).isSettled = true)
    (hx : start.table.Holds x) : d.table.symbolAt x = start.table.symbolAt x :=
  (h.later.symbol hx).settled (hsettled hx)

section

variable (h : Gathering imp base start links d) (hprep : Arranged tables imp base start)
  (hforeign : imp.foreign.Intact start.names) (hstart : start.Intact)
  (hsettled : ∀ {x}, start.table.Holds x → (start.table.symbolAt x).isSettled = true)
include h hprep hforeign hstart hsettled

/-- Clones to which nothing is written leave nothing dangling. -/
theorem Gathering.intact : d.Intact where
  formed := hprep.formed.later h.later h.regular
  closed {x} hx := by
    by_cases hold : start.table.Holds x
    · rw [h.symbolAt_old hsettled hold]
      exact (hstart.closed hold).later h.later
    · obtain ⟨r, hr⟩ := h.new_created hx hold
      exact (h.created_new hr).2.2.2.closed _
  form {x form} hx hsort hform := by
    by_cases hold : start.table.Holds x
    · rw [h.symbolAt_old hsettled hold] at hform ⊢
      refine hstart.form hold (fun hsort' => hsort ?_) hform
      exact h.later.isSort hsort'
    · obtain ⟨r, hr⟩ := h.new_created hx hold
      cases hform.symm.trans (h.created_new hr).2.2.2.canonical
  data {x shape info} hx := by
    have hholds := Table.holds_of_data hx
    -- What was there is as it was; what is new is a clone, and neither it nor its sort has a form
    -- yet.
    by_cases hold : start.table.Holds x
    · have hsame := h.symbolAt_old hsettled hold
      have hkind : start.table.kindOf x = .data shape info := by
        rw [Table.kindOf, ← hsame]
        exact hx
      have houtfitted := hstart.data hkind
      have hsort := h.symbolAt_old hsettled
        ((h.holds_sort hprep.formed.toRegular hx).2 hold)
      refine ⟨?_, ?_, ?_, ?_⟩
      · rw [hsame]
        exact houtfitted.labels
      · rw [hsame]
        exact houtfitted.any
      · rw [hsame]
        exact houtfitted.domain
      · rw [hsort, hsame]
        exact houtfitted.form_eq
    · obtain ⟨r, hr⟩ := h.new_created hholds hold
      have hlinked := h.linked (h.created_mem hr)
      have houtline := hlinked.outline
      rw [hx] at houtline
      obtain ⟨info', hr', hlabels, hany⟩ := SymbolKind.data_of_outline houtline.symm
      have houtfitted := hforeign.data hr'
      obtain ⟨q, hq⟩ := h.new_created (h.regular.families.data hx).holds_sort
        fun hsort => hold ((h.holds_sort hprep.formed.toRegular hx).1 hsort)
      refine ⟨?_, ?_, ?_, ?_⟩
      · rw [hlinked.arity, ← hlabels]
        exact houtfitted.labels
      · rw [hlinked.arity, ← hany]
        exact houtfitted.any
      · rw [hlinked.arity]
        exact houtfitted.domain
      · rw [(h.created_new hq).2.2.2.canonical, (h.created_new hr).2.2.2.canonical]

end

/-! ## Writing to clones -/

/-- A clone takes the form and the size of its foreign symbol. -/
theorem exists_fillClone (links : Links) (hp : t.Holds p.2) (hbare : (t.symbolAt p.2).Bare)
    (hsort : ∀ {e}, (foreign.symbolAt p.1).size? = some e → t.IsSort p.2) :
    ∃ t', fillClone foreign links t p = .ok t' := by
  have hsize : ∀ {e}, (foreign.symbolAt p.1).size? = some e → ∀ t₁, t.FormsWritten t₁ →
      ∃ t', t₁.setSize p.2 (e.mapIds links.find?) = .ok t' := fun he t₁ hwritten =>
    Table.setSize_of_none (hwritten.isSort.2 (hsort he)) ((hwritten.size p.2).trans hbare.size) _
  simp only [fillClone]
  cases (foreign.symbolAt p.1).canonical with
  | none =>
      cases he : (foreign.symbolAt p.1).size? with
      | none => exact ⟨t, rfl⟩
      | some e => exact hsize he t (.refl t)
  | some form =>
      obtain ⟨t₁, hset, hwritten, -⟩ :=
        Table.setCanonical_of_none hp hbare.canonical (form.mapIds links.find?)
      cases he : (foreign.symbolAt p.1).size? with
      | none => exact ⟨t₁, except_bind_eq_ok.2 ⟨t₁, hset, rfl⟩⟩
      | some e =>
          obtain ⟨t', ht'⟩ := hsize he t₁ hwritten
          exact ⟨t', except_bind_eq_ok.2 ⟨t₁, hset, ht'⟩⟩

theorem exists_foldlM_fillClone {created : List (SymbolId × SymbolId)}
    (hnodup : (created.map Prod.snd).Nodup) (hholds : ∀ p ∈ created, t.Holds p.2)
    (hbare : ∀ p ∈ created, (t.symbolAt p.2).Bare)
    (hsort : ∀ p ∈ created, ∀ {e}, (foreign.symbolAt p.1).size? = some e → t.IsSort p.2) :
    ∃ t', created.foldlM (fillClone foreign links) t = .ok t' := by
  induction created generalizing t with
  | nil => exact ⟨t, rfl⟩
  | cons q rest ih =>
      obtain ⟨hfresh, hnodup⟩ := List.nodup_cons.1 hnodup
      have hq := hholds q List.mem_cons_self
      have hbare₀ := hbare q List.mem_cons_self
      obtain ⟨t₁, hfill⟩ := exists_fillClone links hq hbare₀ (hsort q List.mem_cons_self)
      obtain ⟨htouched, -⟩ := filled_of_fillClone hfill hq hbare₀
      have hother : ∀ p ∈ rest, t₁.symbolAt p.2 = t.symbolAt p.2 := by
        intro p hp
        refine htouched.same fun heq => hfresh ?_
        exact List.mem_singleton.1 heq ▸ List.mem_map_of_mem hp
      have hrest := ih hnodup
        (fun p hp => (htouched.holds _).2 (hholds p (List.mem_cons_of_mem _ hp)))
        (fun p hp => hother p hp ▸ hbare p (List.mem_cons_of_mem _ hp)) fun p hp e hsize => ?_
      · obtain ⟨t', ht'⟩ := hrest
        refine ⟨t', ?_⟩
        rw [List.foldlM_cons, hfill]
        exact ht'
      · have hsort' := hsort p (List.mem_cons_of_mem _ hp) hsize
        rw [Table.IsSort, Table.kindOf, hother p hp]
        exact hsort'

/-- All clones take their forms and sizes. -/
theorem Gathering.exists_fill (h : Gathering imp base start links d) :
    ∃ t', links.created.reverse.foldlM (fillClone imp.foreign links) d.table = .ok t' := by
  refine exists_foldlM_fillClone ?_ (fun p hp => (h.created_new (List.mem_reverse.1 hp)).2.1)
    (fun p hp => (h.created_new (List.mem_reverse.1 hp)).2.2.2) fun p hp e hsize => ?_
  · rw [List.map_reverse]
    exact List.pairwise_reverse.2 (h.created_nodup.imp Ne.symm)
  · refine (h.linked (h.created_mem (List.mem_reverse.1 hp))).isSort_iff.2 ?_
    cases hkind : (imp.foreign.symbolAt p.1).kind with
    | userSort data size => exact ⟨data, by rw [Table.kindOf, hkind]; rfl⟩
    | _ =>
        rw [Symbol.size?, hkind] at hsize
        cases hsize

/-- Links lead from sorts to sorts and from constants to constants. -/
theorem Gathering.keeps (h : Gathering imp base start links d) :
    imp.foreign.Keeps d.table links.find? where
  isSort hx hr := (h.linked (Links.mem_of_find? hx)).isSort_iff.2 hr
  isConstant hx hr := (h.linked (Links.mem_of_find? hx)).isConstant hr

/-- A table into which the symbols of a foreign one were placed and written. -/
structure Filling (imp : Importing) (base : NamespaceId) (start : Draft) (links : Links)
    (d : Draft) (t' : Table) : Prop extends Gathering imp base start links d where
  alike : d.table.Alike t'
  later' : start.table.Later t'
  old : ∀ {x}, start.table.Holds x → t'.symbolAt x = start.table.symbolAt x
  clone : ∀ {r x}, (r, x) ∈ links.created →
    Filled imp.foreign links (r, x) (d.table.symbolAt x) (t'.symbolAt x)

theorem Gathering.filling (h : Gathering imp base start links d)
    (hsettled : ∀ {x}, start.table.Holds x → (start.table.symbolAt x).isSettled = true)
    (hfill : links.created.reverse.foldlM (fillClone imp.foreign links) d.table = .ok t') :
    Filling imp base start links d t' := by
  obtain ⟨htouched, hfilled⟩ := h.filled hfill
  have hlater := h.later_filled htouched
  refine ⟨h, ⟨htouched.id_eq, htouched.namespaces_eq, htouched.holds, htouched.blank, fun y => ?_⟩,
    hlater, fun hx => (hlater.symbol hx).settled (hsettled hx), fun hp => hfilled _ hp⟩
  by_cases hy : y ∈ links.created.map Prod.snd
  · obtain ⟨p, hp, rfl⟩ := List.mem_map.1 hy
    exact (hfilled p hp).origin_eq
  · rw [htouched.same hy]

/-- A symbol is an old one or a clone. -/
theorem Filling.cases (h : Filling imp base start links d t') (hx : t'.Holds x) :
    start.table.Holds x ∨ ∃ r, (r, x) ∈ links.created := by
  by_cases hold : start.table.Holds x
  · exact .inl hold
  · exact .inr (h.new_created ((h.alike.holds x).1 hx) hold)

section

variable (h : Filling imp base start links d t') (hprep : Arranged tables imp base start)
  (hforeign : imp.foreign.Intact start.names) (hstart : start.Intact)
  (hsettled : ∀ {x}, start.table.Holds x → (start.table.symbolAt x).isSettled = true)
include h hprep hforeign hstart hsettled

/-- What is written to clones fits. -/
theorem Filling.intact : t'.Intact d.names := by
  have hintact := h.toGathering.intact hprep hforeign hstart hsettled
  have hregular := hprep.foreign_regular h.toGathering
  refine hintact.revised h.alike (fun {x} hx => ?_) (fun {x form} hx hsort hform => ?_)
    fun {x shape info} hx => ?_
  · rcases h.cases ((h.alike.holds x).2 hx) with hold | ⟨r, hr⟩
    · rw [h.old hold]
      exact (hstart.closed hold).later h.later
    · have hclosed := hforeign.closed (h.linked (h.created_mem hr)).holds
      refine ⟨fun {form} hform => ?_, fun {e} he => ?_⟩
      · rw [(h.clone hr).form, Option.map_eq_some_iff] at hform
        obtain ⟨form', hform', rfl⟩ := hform
        exact (hclosed.form hform').mapIds h.keeps
      · rw [(h.clone hr).size, Option.map_eq_some_iff] at he
        obtain ⟨e', he', rfl⟩ := he
        exact (hclosed.size he').mapIds h.keeps
  · rcases h.cases ((h.alike.holds x).2 hx) with hold | ⟨r, hr⟩
    · refine hintact.form hx hsort ?_
      rw [h.toGathering.symbolAt_old hsettled hold, ← h.old hold]
      exact hform
    · have hlinked := h.linked (h.created_mem hr)
      rw [(h.clone hr).form, Option.map_eq_some_iff] at hform
      obtain ⟨form', hform', rfl⟩ := hform
      rw [Table.formSize?_outline _ _ hlinked.outline hlinked.arity,
        hforeign.form hlinked.holds (fun hr => hsort (hlinked.isSort_iff.2 hr)) hform']
      simp [CanonicalForm.size, CanonicalForm.mapIds]
  · have hholds := Table.holds_of_data hx
    rcases h.cases ((h.alike.holds x).2 hholds) with hold | ⟨r, hr⟩
    · have hsort := (h.toGathering.holds_sort hprep.formed.toRegular hx).2 hold
      rw [h.old hold, h.old hsort, ← h.toGathering.symbolAt_old hsettled hold,
        ← h.toGathering.symbolAt_old hsettled hsort]
      exact (hintact.data hx).form_eq
    · -- The sort of a clone is the clone of the foreign sort, so both have one form.
      have hlinked := h.linked (h.created_mem hr)
      have houtline := hlinked.outline
      rw [hx] at houtline
      obtain ⟨info', hr', -, -⟩ := SymbolKind.data_of_outline houtline.symm
      obtain ⟨info'', hx', hsort, -⟩ := hlinked.companions hregular h.regular hr'
      cases hx.symm.trans hx'
      obtain ⟨q, hq⟩ := h.new_created (h.regular.families.data hx).holds_sort
        fun hold => (h.created_new hr).1
          ((h.toGathering.holds_sort hprep.formed.toRegular hx).1 hold)
      obtain rfl := h.eq_of_linked hprep hsort (h.linked (h.created_mem hq))
      rw [(h.clone hq).form, (h.clone hr).form, (hforeign.data hr').form_eq]

end

/-! ## Clones are found -/

/-- A clone is found by the renamed path of its foreign symbol. -/
theorem verify_eq_ok {names names' : Interner} {rename : Option Name}
    (hforeign : foreign.Regular names') (hlinked : foreign.Linked t base p.1 p.2)
    (hdescend : t.descend? .root rename.toList = some base)
    (hmoves : (foreign.kindOf p.1).staysInRoot = true →
      (foreign.kindOf p.1).mergesIntoRoot = true) :
    verify names t foreign rename p = .ok () := by
  unfold verify
  refine if_pos ?_
  cases hnamed : (foreign.symbolAt p.1).name.isEmpty with
  | true => rfl
  | false =>
      cases hmerges : (foreign.symbolAt p.1).kind.mergesIntoRoot with
      | true => rfl
      | false =>
          have hplain := hforeign.families.dataOf?_of_named hlinked.holds hnamed
          have hstays : (foreign.symbolAt p.1).kind.staysInRoot = false := by
            refine Bool.eq_false_iff.2 fun hstays => ?_
            cases hmerges.symm.trans (hmoves hstays)
          have hfound := hlinked.found
          rw [Table.relocate?_of_not_sort hplain, Table.place?, Table.landing?, hstays,
            if_neg Bool.false_ne_true] at hfound
          have hbearer : foreign.bearer p.1 = foreign.symbolAt p.1 := by
            rw [Table.bearer, hplain]
            rfl
          rw [Bool.false_or, Bool.false_or, beq_iff_eq, Table.resolveForeign, hbearer]
          simp only [Bool.false_eq_true, if_false, Table.descend?_append, hdescend,
            Option.bind_some, hfound, hlinked.arity, ne_eq, not_true_eq_false, hplain,
            Option.isSome_none]

end Importing

/-! ## Imports as a whole -/

theorem except_forM_eq_ok {ε α : Type} {f : α → Except ε PUnit} {l : List α}
    (h : ∀ a ∈ l, f a = .ok ()) : l.forM f = .ok () := by
  induction l with
  | nil => rfl
  | cons a rest ih =>
      refine except_bind_eq_ok.2 ⟨(), h a List.mem_cons_self, ?_⟩
      exact ih fun b hb => h b (List.mem_cons_of_mem a hb)

namespace Draft

variable {tables : List Table} {d : Draft} {foreign : Table} {rename : Option Name} {span : Span}

/-- What imports leave behind, whatever names were taken. -/
structure Gathered (tables : List Table) (d : Draft) : Prop extends d.Traced tables where
  intact : d.Intact
  valid_intact : ∀ t ∈ tables, t.isValid = true → t.Intact d.names
  settled : ∀ {x}, d.table.Holds x → (d.table.symbolAt x).isSettled = true
  unfailed : ∀ {x}, d.table.Holds x → (d.table.symbolAt x).failed = false
  constants : ∀ {x constant}, d.table.kindOf x = .userConstant constant →
    constant ≠ .parameter → (d.table.symbolAt x).canonical = some {}
  /-- Forms are in normal form if those of the other tables are. -/
  normal : (∀ t ∈ tables, t.isValid = true → ∀ x, t.NormalAt x) → ∀ x, d.table.NormalAt x
  /-- Sorts have sizes if those of the other tables do. -/
  sized : (∀ t ∈ tables, t.isValid = true → ∀ s, t.IsSort s → (t.symbolAt s).size? ≠ none) →
    ∀ s, d.table.IsSort s → (d.table.symbolAt s).size? ≠ none
  /-- Sizes are not zero if those of the other tables are not. -/
  positive : (∀ t ∈ tables, t.isValid = true →
      ∀ s e, (t.symbolAt s).size? = some e → e.Positive) →
    ∀ s e, (d.table.symbolAt s).size? = some e → e.Positive

/-- What happens to namespaces and other things leaves the symbols as they are. -/
theorem Gathered.of_later (h : d.Gathered tables) {t : Table}
    (hsymbols : t.symbols = d.table.symbols) (hregular : t.Regular d.names)
    (hlater : d.table.Later t) : Gathered tables { d with table := t } := by
  have hat : ∀ x, t.symbolAt x = d.table.symbolAt x := fun x => by
    rw [Table.symbolAt, Table.symbolAt, hsymbols]
  have hholds : ∀ {x}, t.Holds x → d.table.Holds x := fun {x} hx => by
    rw [Table.Holds, ← hsymbols]
    exact hx
  have hkind : ∀ x, t.kindOf x = d.table.kindOf x := fun x => by
    rw [Table.kindOf, Table.kindOf, hat]
  refine ⟨⟨h.archive, h.formed.later hlater hregular, fun {x o} hx horigin => ?_⟩,
    h.intact.of_symbols hsymbols hlater hregular, h.valid_intact, fun {x} hx => ?_,
    fun {x} hx => ?_, fun {x constant} hconstant hvalue => ?_, fun hall x form hform => ?_,
    fun hall s hs => ?_, fun hall s e he => ?_⟩
  · change (t.symbolAt x).origin = some o at horigin
    change ∃ source, _ ∧ _ = (t.kindOf x).outline ∧ _ = (t.symbolAt x).arity
    rw [hat] at horigin ⊢
    rw [hkind]
    exact h.origin (hholds hx) horigin
  · exact (congrArg Symbol.isSettled (hat x)).trans (h.settled (hholds hx))
  · exact (congrArg Symbol.failed (hat x)).trans (h.unfailed (hholds hx))
  · exact (congrArg Symbol.canonical (hat x)).trans
      (h.constants ((hkind x).symm.trans hconstant) hvalue)
  · exact h.normal hall x form ((congrArg Symbol.canonical (hat x)).symm.trans hform)
  · obtain ⟨data, hdata⟩ := hs
    have hsort : d.table.IsSort s := ⟨data, by rw [← hkind]; exact hdata⟩
    have hsized := h.sized hall s hsort
    rwa [← hat] at hsized
  · exact h.positive hall s e ((congrArg Symbol.size? (hat s)).symm.trans he)

/-- What imports leave behind, which is as it should be if no name was reported as taken. -/
structure Collected (tables : List Table) (d : Draft) : Prop extends d.Gathered tables where
  assembled : d.table.hasDuplicates = false → d.Assembled tables

theorem Collected.of_later (h : d.Collected tables) {t : Table}
    (hsymbols : t.symbols = d.table.symbols) (hregular : t.Regular d.names)
    (hlater : d.table.Later t) (honward : d.table.Onward t) :
    Collected tables { d with table := t } where
  toGathered := h.toGathered.of_later hsymbols hregular hlater
  assembled hclean :=
    (h.assembled (honward.hasDuplicates_eq_false hclean)).of_later hsymbols hregular hlater

theorem Collected.of_clock (h : d.Collected tables) (clock : Clock) :
    Collected tables { d with clock } where
  toGathered := { h.toGathered with }
  assembled hclean := (h.assembled hclean).of_clock clock

/-- More names make no difference. -/
theorem Collected.grown (h : d.Collected tables) {names : Interner} (hgrown : d.names.Grown names)
    (hproper : names.Proper) : Collected tables { d with names } where
  archive := h.archive.grown hgrown hproper
  formed := h.formed.grown hgrown hproper
  origin := h.origin
  intact := Table.Intact.grown h.intact hgrown hproper
  valid_intact t ht hvalid := (h.valid_intact t ht hvalid).grown hgrown hproper
  settled := h.settled
  unfailed := h.unfailed
  constants := h.constants
  normal := h.normal
  sized := h.sized
  positive := h.positive
  assembled hclean :=
    have hassembled := h.assembled hclean
    { archive := h.archive.grown hgrown hproper
      formed := h.formed.grown hgrown hproper
      provenance := hassembled.provenance
      settled := hassembled.settled
      unfailed := hassembled.unfailed }

theorem Collected.report (h : d.Collected tables) (r : Report) :
    Collected tables { d with table := d.table.report r } :=
  h.of_later rfl (h.formed.toRegular.of_eq rfl rfl) (.of_eq rfl rfl rfl) (d.table.onward_report r)

theorem Gathered.arranged (h : d.Gathered tables) (hmem : foreign ∈ tables)
    (hvalid : foreign.isValid = true) {start : Table} {base : NamespaceId}
    {homes : List NamespaceId} (hbase : start.HasNamespace base)
    (hrecreated : Table.Recreated d.names foreign base start d.table homes foreign.namespaces.size)
    (location : Location) : Importing.Arranged tables { foreign, location, homes } base d where
  toTraced := h.toTraced
  mem := hmem
  valid := hvalid
  base_mem := hrecreated.later.hasNamespace hbase
  homes hns := hrecreated.leads hns hns

end Draft

namespace Importing

variable {tables : List Table} {imp : Importing} {base : NamespaceId} {start d : Draft}
  {t' : Table} {links : Links}

/-- Whatever names were taken, the table is ready for the next import. -/
theorem Filling.gathered (h : Filling imp base start links d t')
    (hprep : Arranged tables imp base start) (hstart : start.Gathered tables) :
    Draft.Gathered tables { d with table := t' } := by
  have hproper := h.regular.proper
  have hintact := h.intact hprep (hstart.valid_intact _ hprep.mem hprep.valid) hstart.intact
    hstart.settled
  have hlinked : ∀ {r x}, (r, x) ∈ links.created → imp.foreign.Linked d.table base r x :=
    fun hr => h.linked (h.created_mem hr)
  have houtline : ∀ x, (t'.kindOf x).outline = (d.table.kindOf x).outline := by
    intro x
    rw [← SymbolKind.outline_unsized, h.alike.unsized, SymbolKind.outline_unsized]
  have horigin : ∀ {r x}, (r, x) ∈ links.created →
      (t'.symbolAt x).origin = some (imp.originOf (imp.foreign.symbolAt r)) := by
    intro r x hr
    rw [(h.clone hr).origin_eq]
    exact (h.created_new hr).2.2.1
  -- Each symbol is an old one, of which nothing has changed, or a clone, of which everything is
  -- known from its foreign symbol.
  refine ⟨⟨hprep.archive.grown h.grown hproper, hintact.formed, fun {x o} hx ho => ?_⟩, hintact,
    fun t ht hvalid => (hstart.valid_intact t ht hvalid).grown h.grown hproper,
    fun {x} hx => ?_, fun {x} hx => ?_, fun {x constant} hkind hvalue => ?_,
    fun hall x form hform => ?_, fun hall s hs => ?_, fun hall s e he => ?_⟩
  · change (t'.symbolAt x).origin = some o at ho
    change ∃ source, _ ∧ _ = (t'.kindOf x).outline ∧ _ = (t'.symbolAt x).arity
    rcases h.cases hx with hold | ⟨r, hr⟩
    · rw [Table.kindOf, h.old hold]
      rw [h.old hold] at ho
      exact hstart.origin hold ho
    · rw [horigin hr] at ho
      cases ho
      rw [houtline, h.alike.arity, (hlinked hr).outline, (hlinked hr).arity]
      exact hprep.source_of_origin (hlinked hr).holds
  · change (t'.symbolAt x).isSettled = true
    rcases h.cases hx with hold | ⟨r, hr⟩
    · rw [h.old hold]
      exact hstart.settled hold
    · rw [Symbol.isSettled, Symbol.isImported, horigin hr]
      rfl
  · change (t'.symbolAt x).failed = false
    rcases h.cases hx with hold | ⟨r, hr⟩
    · rw [h.old hold]
      exact hstart.unfailed hold
    · rw [(h.clone hr).failed_eq]
      exact (h.created_new hr).2.2.2.unfailed
  · change t'.kindOf x = _ at hkind
    change (t'.symbolAt x).canonical = _
    have hx : t'.Holds x := Table.holds_of_kindOf (by rw [hkind]; exact fun h => by cases h)
    rcases h.cases hx with hold | ⟨r, hr⟩
    · rw [h.old hold]
      refine hstart.constants (x := x) ?_ hvalue
      rw [Table.kindOf, ← h.old hold]
      exact hkind
    · have hforeign : (imp.foreign.kindOf r).outline =
          (SymbolKind.userConstant constant).outline := by
        rw [← (hlinked hr).outline, ← houtline, hkind]
      obtain ⟨constant', hkind', hvalue'⟩ := SymbolKind.userConstant_of_outline hforeign hvalue
      rw [(h.clone hr).form, hprep.trusted.constants hkind' hvalue']
      rfl
  · change (t'.symbolAt x).canonical = some form at hform
    rcases h.cases (Table.holds_of_canonical hform) with hold | ⟨r, hr⟩
    · rw [h.old hold] at hform
      exact hstart.normal hall x form hform
    · rw [(h.clone hr).form] at hform
      obtain ⟨original, horiginal, rfl⟩ := Option.map_eq_some_iff.1 hform
      intro v hv
      obtain ⟨w, hw, rfl⟩ := List.mem_map.1 hv
      exact (hall _ hprep.mem hprep.valid r original horiginal w hw).mapIds _
  · change (t'.symbolAt s).size? ≠ none
    rcases h.cases hs.holds with hold | ⟨r, hr⟩
    · rw [h.old hold]
      refine hstart.sized hall s ?_
      obtain ⟨data, hdata⟩ := hs
      exact ⟨data, by rw [Table.kindOf, ← h.old hold]; exact hdata⟩
    · have hsort : imp.foreign.IsSort r := (hlinked hr).isSort_iff.1 (h.alike.isSort.1 hs)
      rw [(h.clone hr).size, ne_eq, Option.map_eq_none_iff]
      exact hall _ hprep.mem hprep.valid r hsort
  · change (t'.symbolAt s).size? = some e at he
    rcases h.cases (Table.holds_of_size? he) with hold | ⟨r, hr⟩
    · rw [h.old hold] at he
      exact hstart.positive hall s e he
    · rw [(h.clone hr).size] at he
      obtain ⟨original, horiginal, rfl⟩ := Option.map_eq_some_iff.1 he
      exact (hall _ hprep.mem hprep.valid r original horiginal).mapIds _

end Importing

namespace Draft

variable {tables : List Table} {d : Draft} {foreign : Table} {rename : Option Name} {span : Span}

/-- The foreign symbols are placed below the destination of an import, whatever names are taken. -/
structure GatheredAt (tables : List Table) (imp : Importing) (rename : Option Name) (links : Links)
    (base : NamespaceId) (start d : Draft) : Prop extends
    Importing.Gathering imp base start links d where
  arranged : Importing.Arranged tables imp base start
  start_gathered : start.Gathered tables
  descend : start.table.descend? .root rename.toList = some base
  placed : d.table.hasDuplicates = false →
    Importing.Prepared tables imp base start ∧ Importing.Placed imp base start links d

/-- The clones are written, and found below the destination. -/
structure Verifiable (tables : List Table) (foreign : Table) (rename : Option Name)
    (created : List (SymbolId × SymbolId)) (d : Draft) : Prop extends d.Collected tables where
  found : ∃ base, d.table.descend? .root rename.toList = some base ∧
    ∀ p ∈ created, foreign.Linked d.table base p.1 p.2 ∧
      ((foreign.kindOf p.1).staysInRoot = true → (foreign.kindOf p.1).mergesIntoRoot = true)

/-- Writing to the clones never breaks down. -/
theorem GatheredAt.fill {imp : Importing} {links : Links} {base : NamespaceId} {start : Draft}
    (h : GatheredAt tables imp rename links base start d) :
    ∃ table, links.created.reverse.foldlM (Importing.fillClone imp.foreign links) d.table =
        .ok table ∧
      Verifiable tables imp.foreign rename links.created.reverse { d with table } := by
  obtain ⟨table, hfill⟩ := h.toGathering.exists_fill
  have hfilling := h.toGathering.filling h.start_gathered.settled hfill
  refine ⟨table, hfill, ⟨hfilling.gathered h.arranged h.start_gathered, fun hclean => ?_⟩, base,
    hfilling.later'.descend? h.descend, fun p hp => ?_⟩
  · have honward : d.table.Onward table :=
      Table.onward_foldlM (fun _ _ _ => Importing.onward_fillClone) hfill
    obtain ⟨hprep, hplaced⟩ := h.placed (honward.hasDuplicates_eq_false hclean)
    exact hplaced.assembled hprep hfill
  · have hp := List.mem_reverse.1 hp
    obtain ⟨htouched, -⟩ := h.toGathering.filled hfill
    exact ⟨Importing.linked_touched htouched (h.linked (h.created_mem hp)), (h.created_kept hp).2⟩

/-- What imports leave when they are cancelled: nothing dangles, and nothing is the module's own. -/
structure Halted (d : Draft) : Prop where
  intact : d.Intact
  settled : ∀ {x}, d.table.Holds x → (d.table.symbolAt x).isSettled = true

theorem Collected.halted (h : d.Collected tables) : d.Halted := ⟨h.intact, h.settled⟩

/-- The dependencies of the foreign table are added. -/
theorem safe_absorb (foreign : Table) : Safe Halted (Collected tables)
    (modifyTable (·.absorb foreign)) fun _ => Collected tables :=
  safe_modifyTable fun _ hd => hd.of_later rfl (hd.formed.toRegular.of_eq rfl rfl)
    (.of_eq rfl rfl rfl) (.of_eq rfl rfl rfl)

/-- The foreign namespaces are recreated below the destination. -/
theorem safe_layOut (hmem : foreign ∈ tables) (hvalid : foreign.isValid = true) :
    Safe Halted (Collected tables)
      (modifyGet fun d =>
        let (destination, table) :=
          match rename with
          | some name => d.table.childNamespace .root name
          | none => (.root, d.table)
        let (homes, table) := table.recreateNamespaces destination foreign
        (homes, { d with table }))
      fun homes d => Collected tables d ∧ ∃ t, Table.Laid d.names foreign rename t
        d.table homes := by
  refine safe_modifyGet fun d hd => ?_
  have hlaid := hd.formed.toRegular.laid (hd.archive.trusted hmem hvalid).formed.tree rename
  have honward := ((proceeds_layOut foreign rename).ok (d := d) rfl).table
  cases rename <;> exact ⟨hd.of_later hlaid.symbols_eq hlaid.regular hlaid.later
    honward, _, hlaid⟩

/-- The foreign symbols are placed there. -/
theorem safe_gathered (hmem : foreign ∈ tables) (hvalid : foreign.isValid = true)
    {imp : Importing} (himp : imp.foreign = foreign) :
    Safe Halted
      (fun d => Collected tables d ∧ ∃ t, Table.Laid d.names foreign rename t d.table imp.homes)
      (imp.foreign.symbols.toList.foldlM imp.placeStep {})
      fun links d => ∃ base start, GatheredAt tables imp rename links base start d := by
  obtain ⟨foreign, location, homes⟩ := imp
  obtain rfl := himp
  rintro d ⟨hcollected, _, hlaid⟩
  obtain ⟨start, base, hbase, hdescend, hrecreated⟩ := hlaid.recreated
  have harranged := hcollected.arranged hmem hvalid hbase hrecreated location
  have hhalted : ∀ {links d'}, Importing.Gathering { foreign, location, homes }
      base d links d' → d'.Halted := by
    refine fun {links d'} hgathering => ⟨hgathering.intact harranged
      (hcollected.valid_intact foreign hmem hvalid) hcollected.intact hcollected.settled,
      fun {x} hx => ?_⟩
    by_cases hold : d.table.Holds x
    · rw [hgathering.symbolAt_old hcollected.settled hold]
      exact hcollected.settled hold
    · obtain ⟨r, hr⟩ := hgathering.new_created hx hold
      rw [Symbol.isSettled, Symbol.isImported, (hgathering.created_new hr).2.2.1]
      rfl
  refine (harranged.safe_gather hhalted).imp (fun _ hd => hd) (fun links d' hd' =>
    ?_) d ⟨rfl, rfl⟩
  refine ⟨base, d, hd'.1, harranged, hcollected.toGathered, hdescend, fun hclean => ?_⟩
  obtain ⟨hbefore, hplaced⟩ := hd'.2 hclean
  have hprep := (hcollected.assembled hbefore).prepared hmem hvalid hbase hrecreated location
  exact ⟨hprep, hplaced hprep⟩

/-- The clones are written. -/
theorem safe_fill {imp : Importing} {links : Links} : Safe Halted
    (fun d => ∃ base start, GatheredAt tables imp rename links base start d)
    (tryModifyTable fun t => links.created.reverse.foldlM (Importing.fillClone imp.foreign links) t)
    fun _ => Verifiable tables imp.foreign rename links.created.reverse := by
  refine safe_tryModifyTable ?_
  rintro d ⟨base, start, hd⟩
  exact hd.fill

/-- Every clone is found again. -/
theorem safe_verify (hmem : foreign ∈ tables) (hvalid : foreign.isValid = true)
    {created : List (SymbolId × SymbolId)} {names : Interner} :
    Safe Halted (Verifiable tables foreign rename created)
      (tryModifyTable fun t => do
        created.forM (Importing.verify names t foreign rename)
        return t)
      fun _ => Collected tables := by
  refine safe_tryModifyTable fun d hd => ?_
  obtain ⟨base, hdescend, hfound⟩ := hd.found
  have hforeign := (hd.archive.trusted hmem hvalid).formed.toRegular
  have hverify : created.forM (Importing.verify names d.table foreign rename) = .ok () :=
    except_forM_eq_ok fun p hp =>
      Importing.verify_eq_ok hforeign (hfound p hp).1 hdescend (hfound p hp).2
  exact ⟨d.table, except_bind_eq_ok.2 ⟨(), hverify, rfl⟩, hd.toCollected⟩

/-- Importing a valid table never breaks down. -/
theorem safe_embed (hmem : foreign ∈ tables) (hvalid : foreign.isValid = true) :
    Safe Halted (Collected tables) (embed foreign rename span) fun _ => Collected tables := by
  refine (safe_absorb foreign).bind fun _ => (safe_layOut hmem hvalid).bind fun homes => ?_
  refine safe_getTable_bind fun t => ?_
  have himp : (⟨foreign, ⟨t.file, span⟩, homes⟩ : Importing).foreign = foreign := rfl
  refine Safe.bind ((safe_gathered hmem hvalid himp).imp (fun _ hd => hd.1) fun _ _ hd => hd)
    fun links => ?_
  exact safe_fill.bind fun _ => safe_getNames_bind fun names =>
    (safe_verify hmem hvalid).imp (fun _ hd => hd.1) fun _ _ hd => hd

/-- Importing never breaks down, whether a module is refused or not. -/
theorem safe_importModule (reference : ModuleRef) (hmem : foreign ∈ tables) :
    Safe Halted (Collected tables) (importModule reference foreign) fun _ => Collected tables := by
  refine safe_get_bind fun start => ?_
  cases hrefusal : start.table.importRefusal? start.names reference foreign with
  | some problem => exact safe_modifyTable fun d hd => hd.1.report _
  | none =>
      have hvalid := Table.isValid_of_importRefusal? hrefusal
      exact (safe_embed hmem hvalid).imp (fun d hd => hd.1) fun _ d hd => hd

theorem safe_importReference {library : Library}
    (hlibrary : ∀ entry ∈ library.tables, entry.2 ∈ tables) (m : Module) (reference : ModuleRef) :
    Safe Halted (Collected tables) (importReference library m reference)
      fun _ => Collected tables := by
  refine (safe_tick_of (fun d clock hd => hd.of_clock clock) fun d hd => hd.halted).bind fun _ => ?_
  refine Safe.bind (Q := fun _ => Collected tables)
    (safe_modify fun d hd => hd.of_clock _) fun _ => ?_
  cases hfind : library.find? reference.module with
  | some foreign =>
      exact safe_importModule reference (hlibrary _ (Library.mem_of_find? hfind))
  | none =>
      exact safe_getNames_bind fun names => safe_modifyTable fun d hd => hd.1.report _

/-- The imports of a module never break down, whatever names are taken. -/
theorem safe_imports {library : Library}
    (hlibrary : ∀ entry ∈ library.tables, entry.2 ∈ tables) (m : Module)
    (references : List ModuleRef) :
    Safe Halted (Collected tables) (references.forM (importReference library m))
      fun _ => Collected tables :=
  safe_forM (motive := fun _ => Collected tables) fun _ reference _ _ =>
    safe_importReference hlibrary m reference

end Draft

end ManySorted
