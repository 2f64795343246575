import ManySorted.Proofs.Import.Compiling
import ManySorted.Proofs.Import.Isomorphism
import ManySorted.Proofs.Import.Safety

/-!
# Importing where nothing is in the way

Suppose that no symbol lives below a name, and that the root holds nothing but what is built in and
constants that merge (`Table.Vacant`).  Then an import under that name finds every place free or
taken by the same declaration (`Importing.Arranged.matched_of_vacant`): it reports nothing, and
below the name there are afterwards just the copies of foreign symbols (`Draft.Annexed`).  Other
names that were vacant stay so, and one import after the other can be made in this way.
-/

namespace ManySorted

namespace Table

variable {names : Interner} {t t' : Table} {name : Name}

/-- Nothing stands in the way of an import under `name`. -/
structure Vacant (t : Table) (name : Name) : Prop where
  below : ∀ {x}, t.Holds x → ∀ rest, t.path (t.symbolAt x).home ≠ name :: rest
  root : ∀ {x}, t.Holds x → (t.symbolAt x).home = .root → (t.kindOf x).isBase = true ∨
    (t.kindOf x).mergesIntoRoot = true ∧ (t.symbolAt x).arity = 0

/-- What happens to namespaces does not take the name. -/
theorem Vacant.of_later (h : t.Vacant name) (ht : t.Regular names) (hlater : t.Later t')
    (ht' : t'.Tree) (hsymbols : t'.symbols = t.symbols) : t'.Vacant name := by
  have hat : ∀ x, t'.symbolAt x = t.symbolAt x := fun x => by
    rw [symbolAt, symbolAt, hsymbols]
  have hholds : ∀ {x}, t'.Holds x → t.Holds x := fun {x} hx => by
    rw [Holds, ← hsymbols]
    exact hx
  refine ⟨fun {x} hx rest => ?_, fun {x} hx hroot => ?_⟩
  · rw [hat, hlater.path_eq ht.tree ht' (ht.arena.home (hholds hx))]
    exact h.below (hholds hx) rest
  · rw [kindOf, hat]
    rw [hat] at hroot
    exact h.root (hholds hx) hroot

/-- Nothing but what is built in stands in the way in a new table. -/
theorem vacant_create (hnames : names.Proper) (id : TableId) (module : Name) (kind : ModuleKind)
    (file : Name) : (create names id module kind file).2.Vacant name where
  below {x} hx rest := by
    have htree := (wellFormed_create hnames id module kind file).1.tree
    rw [(builtin_of_create hx).2.1, htree.path_root]
    exact (List.cons_ne_nil _ _).symm
  root hx _ := .inl (builtin_of_create hx).1

/-- A child is not the root. -/
theorem Tree.ne_root_of_child? (ht : t.Tree) {p c : NamespaceId}
    (hc : (t.namespaceAt p).child? name = some c) : c ≠ .root := by
  rintro rfl
  cases (ht.child hc).2.1.symm.trans ht.parent_root

/-- Below a namespace of the root there are just the copies of the symbols of a foreign table. -/
structure Hosted (foreign t : Table) (name : Name) (base : NamespaceId) (f : SymbolId → SymbolId) :
    Prop where
  child : (t.namespaceAt .root).child? name = some base
  imported : foreign.Imported t base f
  exact : ∀ {x rest}, t.Holds x → t.path (t.symbolAt x).home = name :: rest →
    ∃ r, foreign.Holds r ∧ (foreign.kindOf r).staysInRoot = false ∧ f r = x

section

variable {foreign : Table} {base : NamespaceId} {f : SymbolId → SymbolId} {r : SymbolId}

theorem Hosted.copies (h : foreign.Hosted t name base f) (ht : t.Tree) (hr : foreign.Holds r) :
    foreign.Copies t f r (f r) :=
  h.imported.copies hr fun hroot => ht.ne_root_of_child? h.child hroot.1

theorem Hosted.mirrored (h : foreign.Hosted t name base f) (hforeign : foreign.Regular names)
    (ht : t.Regular names)
    (hclosed : ∀ {r}, foreign.Holds r → (foreign.symbolAt r).Closed foreign) :
    foreign.Mirrored t (some name) f := by
  refine h.imported.mirrored hforeign ht ?_ hclosed
  rw [Option.toList_some, descend?_singleton, h.child]

/-- New symbols elsewhere make no difference. -/
theorem Hosted.later (h : foreign.Hosted t name base f) (ht : t.Regular names)
    (hlater : t.Later t') (ht' : t'.Tree)
    (hnew : ∀ {x}, t'.Holds x → ¬ t.Holds x → ∀ rest, t'.path (t'.symbolAt x).home ≠ name :: rest) :
    foreign.Hosted t' name base f where
  child := hlater.child? h.child
  imported :=
    { relocates := fun hr hkept => hlater.relocate? (h.imported.relocates hr hkept)
      copies := fun hr hkept => (h.imported.copies hr hkept).later hlater }
  exact {x rest} hx hpath := by
    by_cases hold : t.Holds x
    · rw [hlater.home_symbolAt hold, hlater.path_eq ht.tree ht' (ht.arena.home hold)] at hpath
      exact h.exact hold hpath
    · exact absurd hpath (hnew hx hold rest)

end

end Table

namespace Importing

variable {tables : List Table} {imp : Importing} {base home : NamespaceId} {start d : Draft}
  {links : Links} {name : Name} {r x : SymbolId}

/-! ## Nothing is reported -/

section

variable (hprep : Arranged tables imp base start) (hvacant : start.table.Vacant name)
  (hbase : start.table.path base = [name])
  (hnullary : ∀ x, imp.foreign.IsConstant x → (imp.foreign.symbolAt x).arity = 0)
include hprep hvacant hbase hnullary

/-- What is found in the place of a foreign symbol stands for the same declaration. -/
theorem Arranged.matched_of_vacant : Matched imp base start.table := by
  intro r x hr hwanted hdeclared hfound
  have hforeign := hprep.trusted.formed.toRegular
  obtain ⟨hx, hlanding⟩ := hforeign.landing?_of_relocate? hprep.formed.toRegular hfound
  rw [Table.relocate?_of_not_sort hwanted.dataOf?] at hfound
  obtain ⟨-, hname, -, -⟩ := hprep.formed.arena.of_place? hfound
  cases hstays : (imp.foreign.kindOf r).staysInRoot with
  | false =>
      have hlanding' := hprep.landing? hr hstays
      rw [hlanding, Option.some.injEq] at hlanding'
      have hpath := hprep.formed.tree.path_of_descend? (hprep.homes (hforeign.arena.home hr))
      rw [← hlanding', hbase] at hpath
      exact absurd hpath (hvacant.below hx _)
  | true =>
      have hroot : imp.foreign.landing? start.table base (imp.foreign.symbolAt r) = some .root := by
        rw [Table.landing?, if_pos (show (imp.foreign.symbolAt r).kind.staysInRoot =
          true from hstays)]
      rw [hroot, Option.some.injEq] at hlanding
      have hmerges := (SymbolKind.isBase_or_mergesIntoRoot hstays).resolve_left fun hbuiltin =>
        hdeclared ⟨hbuiltin, hroot⟩
      rcases hvacant.root hx hlanding.symm with hbuiltin | ⟨hmerges', harity⟩
      · have hkind := hprep.trusted.formed.kindOf_of_name hprep.formed.toRegular hr
          (hprep.trusted.formed.rooted hr hstays) hx hbuiltin hname
        rw [← hkind] at hbuiltin
        cases hmerges.symm.trans (SymbolKind.mergesIntoRoot_of_isBase hbuiltin)
      · refine .inr ⟨hmerges, hmerges', ?_⟩
        rw [hnullary r (SymbolKind.isConstant_of_mergesIntoRoot hmerges), harity]

end

/-! ## Nothing is cancelled -/

theorem clock_cloneInto (imp : Importing) (s : Symbol) (home : NamespaceId) (links : Links)
    (d : Draft) : (imp.cloneInto s home links d).2.clock = d.clock := by
  have hclone : ∀ {id : SymbolId} {d' : Draft},
      registerClone d s home = some (id, d') → d'.clock = d.clock := by
    intro id d' h
    unfold registerClone at h
    split at h <;> split at h <;> cases h <;> rfl
  unfold Importing.cloneInto
  split
  · split <;> rfl
  · split
    · rfl
    · next hregister =>
        have hclock := hclone hregister
        exact hclock

theorem clock_place (imp : Importing) (s : Symbol) (links : Links) (d : Draft) :
    (imp.place s links d).2.clock = d.clock := by
  unfold Importing.place
  split
  · rfl
  · dsimp only
    split <;> first | rfl | exact clock_cloneInto .. | (split <;>
      first | rfl | exact clock_cloneInto ..)

end Importing

namespace Draft

variable {tables : List Table} {origin start d : Draft} {foreign : Table} {name other : Name}
  {base : NamespaceId} {links : Links} {imp : Importing} {span : Span}

theorem unhurried_embed (foreign : Table) (rename : Option Name) (span : Span) :
    Unhurried (embed foreign rename span) := by
  refine (unhurried_modifyTable _).bind fun _ => Unhurried.bind (unhurried_modifyGet fun d => ?_)
    fun homes => unhurried_getTable.bind fun t => Unhurried.bind ?_ fun links =>
      (unhurried_tryModifyTable _).bind fun _ => unhurried_getNames.bind fun names =>
        unhurried_tryModifyTable _
  · rfl
  · refine unhurried_foldlM _ (fun links s => unhurried_tick.bind fun _ => ?_) _
    exact unhurried_modifyGet fun d => Importing.clock_place ..

/-! ## The import as a whole -/

/-- What an import under a vacant name leaves: what was there, and copies of the foreign symbols. -/
structure Annexed (tables : List Table) (foreign : Table) (name : Name) (origin d : Draft) : Prop
    extends Admitted tables foreign (some name) origin d where
  reports_eq : d.table.reports = origin.table.reports

theorem Annexed.grown (h : Annexed tables foreign name origin d) :
    origin.names.Grown d.names := by
  rw [h.names_eq]
  exact .refl _

/-- The name stands for a namespace that has the copies. -/
theorem Annexed.copied (h : Annexed tables foreign name origin d) :
    ∃ base f, (d.table.namespaceAt .root).child? name = some base ∧
      foreign.Imported d.table base f ∧
      ∀ {x}, d.table.Holds x → origin.table.Holds x ∨ ∃ r, foreign.Holds r ∧ f r = x := by
  obtain ⟨base, f, hdescend, -, himported⟩ := h.brought
  refine ⟨base, f, Table.descend?_singleton .. ▸ hdescend, himported, fun {x} hx => ?_⟩
  refine (h.covered hx).imp_right ?_
  rintro ⟨_, r, hdescend', hr, hkept, hfound, -⟩
  obtain rfl := Option.some.inj (hdescend.symm.trans hdescend')
  exact ⟨r, hr, Option.some.inj ((himported.relocates hr hkept).symm.trans hfound)⟩

section

variable (hmem : foreign ∈ tables) (hvalid : foreign.isValid = true)
  (hclean : origin.table.hasErrors = false) (hvacant : origin.table.Vacant name)
  (hnullary : ∀ x, foreign.IsConstant x → (foreign.symbolAt x).arity = 0)
include hmem hvalid hclean hvacant hnullary

/-- Importing under a vacant name reports nothing and brings in just the foreign symbols. -/
theorem Assembled.ends_embed (h : origin.Assembled tables) :
    Ends (· = origin) (embed foreign (some name) span) fun _ =>
      Annexed tables foreign name origin := by
  have hwelcomes : Welcomes tables foreign (some name) origin := by
    rintro imp base start rfl hready hdescend hprep
    have hpath := hready.formed.tree.path_of_descend? hdescend
    rw [hready.formed.tree.path_root] at hpath
    exact hprep.matched_of_vacant (hvacant.of_later h.formed.toRegular hready.later
      hready.formed.tree hready.symbols_eq) hpath hnullary
  rintro _ ⟨⟩ d rfl hrun
  have hreports := h.reports_embed hmem hvalid hwelcomes _ () d rfl hrun
  have hclean' : d.table.hasErrors = false := by
    rw [Table.hasErrors, hreports]
    exact hclean
  exact ⟨(establishes_embed_admitted hmem hvalid h).run rfl hrun hclean', hreports⟩

/-- On a clock that never cancels the import goes through. -/
theorem Collected.exists_embed (h : origin.Collected tables) (hclock : origin.clock.Patient)
    (span : Span) :
    ∃ d, embed foreign (some name) span origin = .ok () d ∧ Annexed tables foreign name origin d ∧
      d.Collected tables ∧ d.clock.Patient := by
  obtain ⟨⟨⟩, d, hrun, hcollected, hpatient⟩ :=
    (safe_embed hmem hvalid).exists_ok (unhurried_embed foreign (some name) span) h hclock
  refine ⟨d, hrun, ?_, hcollected, hpatient⟩
  exact (h.assembled (Table.hasDuplicates_eq_false hclean)).ends_embed hmem hvalid hclean hvacant
    hnullary origin () d rfl hrun

end

/-! ## One import after the other -/

theorem Annexed.hasErrors_eq (h : Annexed tables foreign name origin d) :
    d.table.hasErrors = origin.table.hasErrors := by
  rw [Table.hasErrors, h.reports_eq]
  rfl

section

variable (h : Annexed tables foreign name origin d) (horigin : origin.table.Regular origin.names)
include h horigin

/-- The name stands for the foreign table now. -/
theorem Annexed.hosted (hvacant : origin.table.Vacant name) :
    ∃ base f, foreign.Hosted d.table name base f ∧
      ∀ {x}, d.table.Holds x → origin.table.Holds x ∨ ∃ r, foreign.Holds r ∧ f r = x := by
  obtain ⟨base, f, hchild, himported, hcases⟩ := h.copied
  have htree := h.formed.tree
  refine ⟨base, f, ⟨hchild, himported, fun {x rest} hx hpath => ?_⟩, hcases⟩
  rcases hcases hx with hold | ⟨r, hr, rfl⟩
  · rw [h.later.home_symbolAt hold,
      h.later.path_eq horigin.tree htree (horigin.arena.home hold)] at hpath
    exact absurd hpath (hvacant.below hold rest)
  · refine ⟨r, hr, Bool.eq_false_iff.2 fun hstays => ?_, rfl⟩
    have hcopy := himported.copies hr fun hroot => htree.ne_root_of_child? hchild hroot.1
    have hhome := h.formed.rooted hx (by
      rw [← SymbolKind.staysInRoot_outline, hcopy.outline, SymbolKind.staysInRoot_outline, hstays])
    rw [hhome, htree.path_root] at hpath
    cases hpath

section

variable (hmem : foreign ∈ tables) (hvalid : foreign.isValid = true)
  (hname : origin.table.Vacant name) (hne : name ≠ other)
include hmem hvalid hname hne

/-- What is new does not live below another name. -/
theorem Annexed.elsewhere {x : SymbolId} (hx : d.table.Holds x) (hnew : ¬ origin.table.Holds x)
    (rest : List Name) : d.table.path (d.table.symbolAt x).home ≠ other :: rest := by
  obtain ⟨_, f, hhosted, hcases⟩ := h.hosted horigin hname
  have hmirrored := hhosted.mirrored (h.archive.trusted hmem hvalid).formed.toRegular
    h.formed.toRegular fun hr => h.archive.closed_of_mem hmem hvalid hr
  obtain ⟨r, hr, rfl⟩ := (hcases hx).resolve_left hnew
  have hbrought := hr.broughtIn name
  cases hstays : (foreign.kindOf r).staysInRoot with
  | true =>
      rw [hmirrored.root hbrought hstays, h.formed.tree.path_root]
      exact (List.cons_ne_nil _ _).symm
  | false =>
      rw [hmirrored.path hbrought hstays]
      exact fun heq => hne (List.head_eq_of_cons_eq heq)

/-- What was hosted under another name still is. -/
theorem Annexed.keeps {guest : Table} {e : SymbolId → SymbolId}
    (hguest : guest.Hosted origin.table other base e) : guest.Hosted d.table other base e :=
  hguest.later horigin h.later h.formed.tree fun hx hnew =>
    h.elsewhere horigin hmem hvalid hname hne hx hnew

/-- Other names stay vacant. -/
theorem Annexed.vacant (hnullary : ∀ x, foreign.IsConstant x → (foreign.symbolAt x).arity = 0)
    (hvacant : origin.table.Vacant other) : d.table.Vacant other := by
  refine ⟨fun {x} hx rest => ?_, fun {x} hx hroot => ?_⟩
  · by_cases hold : origin.table.Holds x
    · rw [h.later.home_symbolAt hold,
        h.later.path_eq horigin.tree h.formed.tree (horigin.arena.home hold)]
      exact hvacant.below hold rest
    · exact h.elsewhere horigin hmem hvalid hname hne hx hold rest
  · obtain ⟨base, f, hhosted, hcases⟩ := h.hosted horigin hname
    have htree := h.formed.tree
    rcases hcases hx with hold | ⟨r, hr, rfl⟩
    · rw [h.later.home_symbolAt hold] at hroot
      have hkind := h.later.unsized_kindOf hold
      rw [← SymbolKind.isBase_unsized, ← SymbolKind.mergesIntoRoot_unsized, hkind,
        SymbolKind.isBase_unsized, SymbolKind.mergesIntoRoot_unsized, h.later.arity_symbolAt hold]
      exact hvacant.root hold hroot
    · have hmirrored := hhosted.mirrored (h.archive.trusted hmem hvalid).formed.toRegular
        h.formed.toRegular fun hr => h.archive.closed_of_mem hmem hvalid hr
      have hcopy := hhosted.copies htree hr
      rw [← SymbolKind.isBase_outline, ← SymbolKind.mergesIntoRoot_outline, hcopy.outline,
        SymbolKind.isBase_outline, SymbolKind.mergesIntoRoot_outline, hcopy.arity]
      have hstays : (foreign.kindOf r).staysInRoot = true := by
        by_contra hmoves
        have hpath := hmirrored.path (hr.broughtIn name) (Bool.not_eq_true _ ▸ hmoves)
        rw [hroot, htree.path_root] at hpath
        cases hpath
      refine (SymbolKind.isBase_or_mergesIntoRoot hstays).imp_right fun hmerges => ⟨hmerges, ?_⟩
      exact hnullary r (SymbolKind.isConstant_of_mergesIntoRoot hmerges)

end

end

end Draft

end ManySorted
