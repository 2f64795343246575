import ManySorted.Proofs.Import.Placement

/-!
# Importing keeps the provenance of symbols

After an import every imported symbol still goes back to a declaration whose table is embedded
around it (`Importing.Placed.provenance`).  So a table that is put together by imports is ready for
the next one (`Draft.Assembled`), whatever was imported before and under which names.

## Strategy

* **Writing.**  After everything is placed, each clone gets the form and the size of its foreign
  symbol, with every symbol replaced by its link.  Links exist for all that a form or size speaks
  of, so none is lost, and the foreign table is embedded (`Importing.Placed.imported`).
* **Clones.**  A clone of a declaration of the foreign table goes back to the foreign table, and any
  other clone to a table that was embedded in the foreign one.
* **All else.**  What was there before the import keeps the source that it had.
-/

namespace ManySorted

namespace Importing

variable {tables : List Table} {imp : Importing} {base : NamespaceId} {start d : Draft}
  {foreign t t' : Table} {links : Links} {r x : SymbolId} {p : SymbolId × SymbolId}

/-! ## Writing -/

/-- The clone after form and size of its foreign symbol were written. -/
structure Filled (foreign : Table) (links : Links) (p : SymbolId × SymbolId) (s s' : Symbol) :
    Prop where
  origin_eq : s'.origin = s.origin
  failed_eq : s'.failed = s.failed
  form : s'.canonical = (foreign.symbolAt p.1).canonical.map (CanonicalForm.mapIds links.find?)
  size : s'.size? = (foreign.symbolAt p.1).size?.map (SizeExpr.mapIds links.find?)

theorem filled_of_fillClone (h : fillClone foreign links t p = .ok t') (hp : t.Holds p.2)
    (hbare : (t.symbolAt p.2).Bare) :
    Table.Touched [p.2] t t' ∧ Filled foreign links p (t.symbolAt p.2) (t'.symbolAt p.2) := by
  obtain ⟨t₁, hfirst, hsecond⟩ := fillClone_cases h
  have hwritten : Table.Touched [p.2] t t₁ ∧ (t₁.symbolAt p.2).size? = none ∧
      (t₁.symbolAt p.2).origin = (t.symbolAt p.2).origin ∧
      (t₁.symbolAt p.2).failed = (t.symbolAt p.2).failed ∧
      (t₁.symbolAt p.2).canonical =
        (foreign.symbolAt p.1).canonical.map (CanonicalForm.mapIds links.find?) := by
    rcases hfirst with ⟨hnone, rfl⟩ | ⟨form, hsome, hset⟩
    · refine ⟨.refl _ _, hbare.size, rfl, rfl, ?_⟩
      rw [hbare.canonical, hnone]
      rfl
    · obtain ⟨htouched, _, hat⟩ := Table.touched_setCanonical hset hp
      rw [hat, hsome]
      exact ⟨htouched, hbare.size, rfl, rfl, rfl⟩
  obtain ⟨htouched, hsize, horigin, hfailed, hform⟩ := hwritten
  rcases hsecond with ⟨hnone, rfl⟩ | ⟨size, hsome, hset⟩
  · refine ⟨htouched, horigin, hfailed, hform, ?_⟩
    rw [hsize, hnone]
    rfl
  · obtain ⟨data, htouched', _, hat⟩ := Table.touched_setSize hset ((htouched.holds _).2 hp)
    rw [hat]
    refine ⟨htouched.trans htouched', horigin, hfailed, hform, ?_⟩
    rw [hsome]
    rfl

/-- Writing to clones, one after the other. -/
theorem filled_of_foldlM {created : List (SymbolId × SymbolId)}
    (h : created.foldlM (fillClone foreign links) t = .ok t')
    (hnodup : (created.map Prod.snd).Nodup) (hholds : ∀ p ∈ created, t.Holds p.2)
    (hbare : ∀ p ∈ created, (t.symbolAt p.2).Bare) :
    Table.Touched (created.map Prod.snd) t t' ∧
      ∀ p ∈ created, Filled foreign links p (t.symbolAt p.2) (t'.symbolAt p.2) := by
  induction created generalizing t with
  | nil =>
      cases h
      exact ⟨.refl _ _, fun p hp => absurd hp List.not_mem_nil⟩
  | cons q rest ih =>
      obtain ⟨hfresh, hnodup⟩ := List.nodup_cons.1 hnodup
      rw [List.foldlM_cons] at h
      obtain ⟨t₁, h₁, h⟩ := except_bind_eq_ok.1 h
      obtain ⟨htouched, hfilled⟩ := filled_of_fillClone h₁ (hholds q List.mem_cons_self)
        (hbare q List.mem_cons_self)
      have hother : ∀ p ∈ rest, t₁.symbolAt p.2 = t.symbolAt p.2 := by
        intro p hp
        refine htouched.same fun heq => hfresh ?_
        exact List.mem_singleton.1 heq ▸ List.mem_map_of_mem hp
      obtain ⟨htouched', hfilled'⟩ := ih h hnodup
        (fun p hp => (htouched.holds _).2 (hholds p (List.mem_cons_of_mem _ hp)))
        fun p hp => hother p hp ▸ hbare p (List.mem_cons_of_mem _ hp)
      refine ⟨(htouched.mono fun y hy => ?_).trans (htouched'.mono fun y hy => ?_),
        fun p hp => ?_⟩
      · exact List.mem_singleton.1 hy ▸ List.mem_cons_self
      · exact List.mem_cons_of_mem _ hy
      · rcases List.mem_cons.1 hp with rfl | hp
        · rw [htouched'.same hfresh]
          exact hfilled
        · exact hother p hp ▸ hfilled' p hp

/-! ## The foreign table is embedded -/

theorem Gathering.filled (h : Gathering imp base start links d)
    (hfill : links.created.reverse.foldlM (fillClone imp.foreign links) d.table = .ok t') :
    Table.Touched (links.created.map Prod.snd) d.table t' ∧
      ∀ p ∈ links.created, Filled imp.foreign links p (d.table.symbolAt p.2) (t'.symbolAt p.2) := by
  have hnodup : (links.created.reverse.map Prod.snd).Nodup := by
    rw [List.map_reverse]
    exact List.pairwise_reverse.2 (h.created_nodup.imp Ne.symm)
  obtain ⟨htouched, hfilled⟩ := filled_of_foldlM hfill hnodup
    (fun p hp => (h.created_new (List.mem_reverse.1 hp)).2.1)
    fun p hp => (h.created_new (List.mem_reverse.1 hp)).2.2.2
  refine ⟨htouched.mono fun y hy => ?_, fun p hp => hfilled p (List.mem_reverse.2 hp)⟩
  rwa [List.map_reverse, List.mem_reverse] at hy

theorem Gathering.later_filled (h : Gathering imp base start links d)
    (htouched : Table.Touched (links.created.map Prod.snd) d.table t') :
    start.table.Later t' := by
  refine h.later.touched htouched fun y hy => ?_
  obtain ⟨p, hp, rfl⟩ := List.mem_map.1 hy
  exact (h.created_new hp).1

/-- What stands in the place of a foreign symbol has its name; sorts have none. -/
theorem name_of_linked {names : Interner} (hforeign : imp.foreign.Regular names)
    (ht : t.Regular names) (hlinked : imp.foreign.Linked t base r x) (hx : t.Holds x) :
    (t.symbolAt x).name = (imp.foreign.symbolAt r).name := by
  have hempty : ∀ {name : Name}, name.isEmpty = true → name = .empty := by
    rintro ⟨index⟩ h
    exact congrArg Name.mk (eq_of_beq h)
  cases hdata : imp.foreign.dataOf? r with
  | none =>
      have hplace := hlinked.found
      rw [Table.relocate?_of_not_sort hdata] at hplace
      exact (ht.arena.of_place? hplace).2.1
  | some data =>
      have hsort := Table.dataOf?_eq_some_iff.1 hdata
      have houtline := hlinked.outline
      rw [← SymbolKind.outline_unsized (imp.foreign.kindOf r), hsort] at houtline
      rw [hempty ((ht.families.named hx).2 (SymbolKind.outline_eq_userSort houtline)),
        hempty ((hforeign.families.named hlinked.holds).2 ⟨data, hsort⟩)]

/-- After writing, the links say what stands for the foreign symbols. -/
theorem Placed.imported (h : Placed imp base start links d)
    (hprep : Prepared tables imp base start)
    (hfill : links.created.reverse.foldlM (fillClone imp.foreign links) d.table = .ok t') :
    imp.foreign.Imported t' base fun r => (links.find? r).getD default := by
  obtain ⟨htouched, hfilled⟩ := h.filled hfill
  have hlater := h.later_filled htouched
  have hforeign := hprep.foreign_regular h.toPlacing
  have hregular := h.regular.touched htouched
  have hfound : ∀ {r}, imp.foreign.Holds r → ¬ (base = .root ∧ imp.foreign.IsRootConvenience r) →
      (r, (links.find? r).getD default) ∈ links.ids := by
    intro r hr hkept
    obtain ⟨x, hx⟩ := h.complete hr hkept
    rw [hx]
    exact Links.mem_of_find? hx
  have hlinked : ∀ {r}, imp.foreign.Holds r →
      ¬ (base = .root ∧ imp.foreign.IsRootConvenience r) →
      imp.foreign.Linked t' base r ((links.find? r).getD default) := fun hr hkept =>
    linked_touched htouched (h.linked (hfound hr hkept))
  -- what forms and sizes speak of is never a convenience union
  have hmentions : ∀ {r q}, imp.foreign.Holds r → (imp.foreign.symbolAt r).Mentions q →
      imp.foreign.Carries q := fun hr hq =>
    Table.carries_of_mentions (hprep.archive.closed_of_mem hprep.mem hprep.valid hr) hq
  have hfind : ∀ {q}, imp.foreign.Carries q →
      links.find? q = some ((links.find? q).getD default) := by
    intro q hq
    obtain ⟨x, hx⟩ := h.complete hq.holds fun hroot => hq.declared hroot.2
    rw [hx]
    rfl
  refine ⟨fun hr hkept => (hlinked hr hkept).found, fun {r} hr hkept => ?_⟩
  have hlink := hlinked hr hkept
  have hmem := hfound hr hkept
  have hx := (hforeign.landing?_of_relocate? hregular hlink.found).1
  by_cases hold : start.table.Holds ((links.find? r).getD default)
  · obtain ⟨ρ, hcopy, hrelocated⟩ := h.reused hmem hold
    refine (hcopy.later hlater).congr fun q hq => ?_
    have hcarries := hmentions hr hq
    have hsame := hlater.relocate? (hrelocated q hq)
    rw [(hlinked hcarries.holds fun hroot => hcarries.declared hroot.2).found] at hsame
    exact (Option.some.inj hsame).symm
  · obtain ⟨r', hr'⟩ := h.new_created (h.holds hforeign hmem) hold
    obtain rfl : r = r' :=
      h.eq_of_linked hprep.arranged (h.linked hmem) (h.linked (h.created_mem hr'))
    have hwritten := hfilled _ hr'
    refine ⟨hx, ?_, name_of_linked hforeign hregular hlink hx, hlink.arity, hlink.outline, ?_, ?_⟩
    · rw [Symbol.isSettled, Symbol.isImported, hwritten.origin_eq, (h.created_new hr').2.2.1]
      rfl
    · rw [hwritten.form]
      cases hform : (imp.foreign.symbolAt r).canonical with
      | none => rfl
      | some form =>
          refine congrArg some (CanonicalForm.mapIds_eq_rename fun q hq => hfind ?_)
          exact hmentions hr (.inl ⟨form, hform, hq⟩)
    · rw [hwritten.size]
      cases hsize : (imp.foreign.symbolAt r).size? with
      | none => rfl
      | some e =>
          have hclosed := (hprep.archive.closed_of_mem hprep.mem hprep.valid hr).size hsize
          refine congrArg some (hclosed.stable.mapIds_eq_rename fun q hq => hfind ?_)
          exact hmentions hr (.inr ⟨e, hsize, hq⟩)

end Importing

namespace Importing

variable {tables : List Table} {imp : Importing} {base : NamespaceId} {start d : Draft}
  {t' : Table} {links : Links} {r x : SymbolId}

/-- What is known of a clone after its form and size were written. -/
structure Clone (imp : Importing) (base : NamespaceId) (ρ : SymbolId → SymbolId) (t' : Table)
    (r x : SymbolId) : Prop where
  holds : imp.foreign.Holds r
  kept : ¬ (base = .root ∧ imp.foreign.IsRootConvenience r)
  standsIn : ρ r = x
  origin : (t'.symbolAt x).origin = some (imp.originOf (imp.foreign.symbolAt r))
  unfailed : (t'.symbolAt x).failed = false
  moves : (imp.foreign.kindOf r).staysInRoot = true → (imp.foreign.kindOf r).mergesIntoRoot = true

/-- Every symbol is an old one, which stays as it was, or a clone. -/
theorem Placed.symbol_cases (h : Placed imp base start links d)
    (hprep : Prepared tables imp base start)
    (hfill : links.created.reverse.foldlM (fillClone imp.foreign links) d.table = .ok t')
    (hx : t'.Holds x) :
    (start.table.Holds x ∧ t'.symbolAt x = start.table.symbolAt x) ∨
      ∃ r, Clone imp base (fun r => (links.find? r).getD default) t' r x := by
  obtain ⟨htouched, hfilled⟩ := h.filled hfill
  have hlater := h.later_filled htouched
  by_cases hold : start.table.Holds x
  · exact .inl ⟨hold, (hlater.symbol hold).settled (hprep.settled hold)⟩
  · obtain ⟨r, hr⟩ := h.new_created ((htouched.holds x).1 hx) hold
    have hlinked := h.linked (h.created_mem hr)
    obtain ⟨hkept, hmoves⟩ := h.created_kept hr
    refine .inr ⟨r, hlinked.holds, hkept, ?_, ?_, ?_, hmoves⟩
    · obtain ⟨y, hy⟩ := h.complete hlinked.holds hkept
      have hsame := (h.linked (Links.mem_of_find? hy)).found
      rw [hlinked.found] at hsame
      simp only [hy, Option.getD_some]
      exact (Option.some.inj hsame).symm
    · rw [(hfilled _ hr).origin_eq, (h.created_new hr).2.2.1]
    · rw [(hfilled _ hr).failed_eq, (h.created_new hr).2.2.2.unfailed]

/-- Around a clone that does not merge, the table of its declaration is embedded. -/
theorem Clone.embedded {ρ : SymbolId → SymbolId} (h : Clone imp base ρ t' r x)
    (hprep : Prepared tables imp base start) {names : Interner}
    (hgrown : start.names.Grown names) (ht : t'.Regular names)
    (himported : imp.foreign.Imported t' base ρ)
    (hmerges : (imp.foreign.kindOf r).mergesIntoRoot = false) :
    ∃ source σ, Source tables (imp.originOf (imp.foreign.symbolAt r)) source ∧
      source.Embedding t' (t'.symbolAt x).home σ ∧
      source.Copies t' σ (imp.originOf (imp.foreign.symbolAt r)).symbol x ∧
      source.relocate? t' (t'.symbolAt x).home (imp.originOf (imp.foreign.symbolAt r)).symbol =
        some x := by
  have hforeign : imp.foreign.Regular names :=
    hprep.trusted.formed.toRegular.grown hgrown ht.proper
  have hfound := himported.relocates h.holds h.kept
  have hcopy := himported.copies h.holds h.kept
  rw [h.standsIn] at hfound hcopy
  have hlanding := (hforeign.landing?_of_relocate? ht hfound).2
  have hmoves : (imp.foreign.symbolAt r).kind.staysInRoot = false := by
    refine Bool.eq_false_iff.2 fun hstays => ?_
    rw [h.moves hstays] at hmerges
    cases hmerges
  rw [Table.landing?, hmoves, if_neg Bool.false_ne_true] at hlanding
  cases horigin : (imp.foreign.symbolAt r).origin with
  | none =>
      have horiginOf : imp.originOf (imp.foreign.symbolAt r) = ⟨imp.foreign.id, r⟩ := by
        rw [originOf, horigin, hforeign.arena.id_eq h.holds]
        rfl
      rw [hprep.trusted.provenance.own_home h.holds horigin, hforeign.tree.path_root] at hlanding
      have hhome : base = (t'.symbolAt x).home := Option.some.inj hlanding
      rw [horiginOf, ← hhome]
      exact ⟨imp.foreign, ρ, ⟨hprep.mem, hprep.valid, rfl, h.holds, horigin⟩,
        himported.embedding, hcopy, hfound⟩
  | some o =>
      have horiginOf : imp.originOf (imp.foreign.symbolAt r) = o := by
        rw [originOf, horigin]
        rfl
      obtain ⟨source, σ, hsource, hembed, hcopy', hfound'⟩ :=
        hprep.trusted.provenance.embedded h.holds horigin hmerges
      have hfirst : source.Regular names :=
        (hprep.archive.trusted hsource.mem hsource.valid).formed.toRegular.grown hgrown ht.proper
      rw [horiginOf]
      refine ⟨source, ρ ∘ σ, hsource, hembed.trans himported.embedding hfirst hforeign hlanding,
        hcopy'.trans hcopy, ?_⟩
      rw [← hfirst.relocate?_trans hforeign hlanding hfound' hcopy'.outline, hfound]

/-- Importing keeps the provenance of symbols. -/
theorem Placed.provenance (h : Placed imp base start links d)
    (hprep : Prepared tables imp base start)
    (hfill : links.created.reverse.foldlM (fillClone imp.foreign links) d.table = .ok t') :
    t'.Provenance tables := by
  have himported := h.imported hprep hfill
  obtain ⟨htouched, _⟩ := h.filled hfill
  have hlater := h.later_filled htouched
  have ht := h.regular.touched htouched
  have hcases := fun {x} => h.symbol_cases hprep hfill (x := x)
  have hcopy : ∀ {r x}, Clone imp base (fun r => (links.find? r).getD default) t' r x →
      imp.foreign.Copies t' (fun r => (links.find? r).getD default) r x := by
    intro r x hclone
    have hcopy := himported.copies hclone.holds hclone.kept
    rwa [hclone.standsIn] at hcopy
  -- Each symbol is an old one, of which nothing has changed, or a clone.
  refine ⟨fun {x} hx horigin => ?_, fun {x o} hx horigin => ?_, fun {x o} hx horigin hmerges => ?_,
    fun {x} hx hisImported hmerges => ?_, fun {x} hx hbase => ?_⟩
  · rcases hcases hx with ⟨hold, hsame⟩ | ⟨r, hclone⟩
    · rw [hsame] at horigin ⊢
      exact hprep.provenance.own_home hold horigin
    · rw [hclone.origin] at horigin
      cases horigin
  · rcases hcases hx with ⟨hold, hsame⟩ | ⟨r, hclone⟩
    · rw [Table.kindOf, hsame]
      exact hprep.provenance.origin hold (hsame ▸ horigin)
    · rw [hclone.origin] at horigin
      obtain rfl := Option.some.inj horigin
      obtain ⟨source, hsource, houtline, harity⟩ := hprep.arranged.source_of_origin hclone.holds
      rw [(hcopy hclone).outline, (hcopy hclone).arity]
      exact ⟨source, hsource, houtline, harity⟩
  · rcases hcases hx with ⟨hold, hsame⟩ | ⟨r, hclone⟩
    · rw [Table.kindOf, hsame] at hmerges
      rw [hsame] at horigin ⊢
      obtain ⟨source, σ, hsource, hembed, hcopies, hfound⟩ :=
        hprep.provenance.embedded hold horigin hmerges
      exact ⟨source, σ, hsource, hembed.later hlater, hcopies.later hlater,
        hlater.relocate? hfound⟩
    · rw [hclone.origin] at horigin
      obtain rfl := Option.some.inj horigin
      rw [← SymbolKind.mergesIntoRoot_outline, (hcopy hclone).outline,
        SymbolKind.mergesIntoRoot_outline] at hmerges
      exact hclone.embedded hprep h.grown ht himported hmerges
  · rcases hcases hx with ⟨hold, hsame⟩ | ⟨r, hclone⟩
    · rw [Table.kindOf, hsame] at hmerges
      rw [hsame] at hisImported ⊢
      exact hprep.provenance.merged hold hisImported hmerges
    · rw [← SymbolKind.mergesIntoRoot_outline, (hcopy hclone).outline,
        SymbolKind.mergesIntoRoot_outline] at hmerges
      rw [(hcopy hclone).form, hprep.trusted.merging hmerges]
      rfl
  · rcases hcases hx with ⟨hold, hsame⟩ | ⟨r, hclone⟩
    · rw [Table.kindOf, hsame] at hbase
      rw [hsame]
      exact hprep.provenance.bare hold hbase
    · rw [← SymbolKind.isBase_outline, (hcopy hclone).outline, SymbolKind.isBase_outline] at hbase
      rw [(hcopy hclone).form, hprep.trusted.provenance.bare hclone.holds hbase]
      rfl

/-- A table into which another was imported is ready for the next import. -/
theorem Placed.assembled (h : Placed imp base start links d)
    (hprep : Prepared tables imp base start)
    (hfill : links.created.reverse.foldlM (fillClone imp.foreign links) d.table = .ok t') :
    Draft.Assembled tables { d with table := t' } := by
  obtain ⟨htouched, _⟩ := h.filled hfill
  have ht := h.regular.touched htouched
  refine ⟨hprep.archive.grown h.grown ht.proper,
    hprep.formed.later (h.later_filled htouched) ht, h.provenance hprep hfill, fun {x} hx => ?_,
    fun {x} hx => ?_⟩
  · rcases h.symbol_cases hprep hfill hx with ⟨hold, hsame⟩ | ⟨r, hclone⟩
    · exact (congrArg Symbol.isSettled hsame).trans (hprep.settled hold)
    · have horigin : (t'.symbolAt x).isImported = true := by
        rw [Symbol.isImported, hclone.origin]
        rfl
      rw [Symbol.isSettled, horigin]
      rfl
  · rcases h.symbol_cases hprep hfill hx with ⟨hold, hsame⟩ | ⟨r, hclone⟩
    · exact (congrArg Symbol.failed hsame).trans (hprep.unfailed hold)
    · exact hclone.unfailed

end Importing

end ManySorted
