import ManySorted.Proofs.Transfer.Course

/-!
# Another order of compositions

A module with its compositions in another order refers to the same modules.  Two checks of it that
make the same imports, and both go through, hold the same up to the handles (`Draft.Recomposed`,
`Draft.Aligned`).

## Strategy

* **The module.**  The same nodes lie below it, and the same outputs have namespaces
  (`Node.below_withCompositions`).
* **Names.**  What stands for something after the imports and the conveniences does so in either
  order (`Draft.Recomposed.exists_there`), so the same may be declared (`Draft.Recomposed.admits`),
  and if one check registers without errors, then so does the other one
  (`Draft.Recomposed.aligned`).
* **Counterparts.**  Names come to stand for the same, so each symbol has one in its place, and
  going back and forth leads to itself (`Draft.Aligned.retraces`, `Draft.Aligned.inverse`).
* **Declarations.**  What is imported is a copy, conveniences accept counterparts, and so all that
  is declared comes to the same (`Draft.Aligned.conveyed`).
-/

namespace ManySorted

/-! ## Namespaces of outputs -/

/-- What lies within an output is told by its path. -/
theorem Table.Tree.any_outputNamespaces_iff {t : Table} {m : Module} {ns : NamespaceId}
    (ht : t.Tree)
    (hns : t.HasNamespace ns) : (t.outputNamespaces m).any (t.isWithin ns) = true ↔
      ∃ reference ∈ m.outputs, ∃ name ∈ reference.rename, [name] <+: t.path ns := by
  rw [List.any_eq_true]
  constructor
  · rintro ⟨output, houtput, hwithin⟩
    obtain ⟨reference, hreference, hchild⟩ := List.mem_filterMap.1 houtput
    obtain ⟨name, hname, hchild⟩ := Option.bind_eq_some_iff.1 hchild
    obtain ⟨-, rest, hpath, -⟩ := ht.descend?_of_isWithin hns hwithin
    refine ⟨reference, hreference, name, hname, rest, ?_⟩
    rw [hpath, ht.path_of_child? hchild, ht.path_root, List.nil_append]
  · rintro ⟨reference, hreference, name, hname, rest, hpath⟩
    have hdescend := ht.descend?_path hns
    rw [← hpath, Table.descend?_append] at hdescend
    obtain ⟨output, houtput, -⟩ := Option.bind_eq_some_iff.1 hdescend
    have hthere := ht.hasNamespace_of_descend? ht.root houtput
    refine ⟨output, List.mem_filterMap.2 ⟨reference, hreference, Option.bind_eq_some_iff.2
      ⟨name, hname, ?_⟩⟩, (ht.isWithin_iff hns hthere).2 ⟨rest, ?_⟩⟩
    · rwa [Table.descend?_singleton] at houtput
    · rw [ht.path_of_descend? houtput, ht.path_root, List.nil_append, hpath]

/-! ## The module -/

/-- The module with other compositions. -/
def Module.withCompositions (m : Module) (compositions : List ModuleRef) : Module :=
  { m with compositions }

section

variable {m : Module} {compositions : List ModuleRef}

theorem Module.mem_references {reference : ModuleRef} (h : compositions.Perm m.compositions) :
    reference ∈ (m.withCompositions compositions).references ↔ reference ∈ m.references :=
  ((h.append_right _).append_right _).mem_iff

/-- The same nodes lie below the module. -/
theorem Node.below_withCompositions {node : Node} (hkind : node.kind ≠ .module)
    (h : compositions.Perm m.compositions) (hbelow : (Node.module m).Below node) :
    (Node.module (m.withCompositions compositions)).Below node := by
  obtain ⟨child, hchild, hbelow⟩ := exists_child_of_below hkind hbelow
  have hperm : (Node.module (m.withCompositions compositions)).children.Perm
      (Node.module m).children :=
    (((((h.map moduleRef).append_right _).append_right _).append_right _).append_right
      _).append_right _
  exact below_of_mem_children (hperm.mem_iff.2 hchild) hbelow

end

namespace Draft

variable {tables : List Table} {library : Library} {m : Module} {compositions : List ModuleRef}
  {initial : Draft} {c c' : Course} {path : List Name} {name : Name} {x y : SymbolId}

/-- Two checks make the same imports in different orders, and all go through. -/
structure Recomposed (tables : List Table) (library : Library) (m : Module)
    (compositions : List ModuleRef) (initial : Draft) (c c' : Course) : Prop where
  left : c.Taken tables library m initial
  right : c'.Taken tables library (m.withCompositions compositions) initial
  perm : compositions.Perm m.compositions
  compiled : Compiled tables library initial m.references c.imported
  compiled' : Compiled tables library initial
    (m.withCompositions compositions).references c'.imported
  pristine : initial.table.Pristine
  regular : initial.table.Regular initial.names
  normal : ∀ t ∈ tables, t.isValid = true → ∀ x, t.NormalAt x

namespace Recomposed

variable (h : Recomposed tables library m compositions initial c c')
include h

theorem symm : Recomposed tables library (m.withCompositions compositions) m.compositions
    initial c' c where
  left := h.right
  right := h.left
  perm := h.perm.symm
  compiled := h.compiled'
  compiled' := h.compiled
  pristine := h.pristine
  regular := h.regular
  normal := h.normal

theorem lends {rename : Option Name} {u : Table} (hlends : library.Lends m.references rename u) :
    library.Lends (m.withCompositions compositions).references rename u := by
  obtain ⟨reference, hreference, hrename, hu⟩ := hlends
  exact ⟨reference, (Module.mem_references h.perm).2 hreference, hrename, hu⟩

/-! ## Names -/

theorem names_imported : c'.imported.names = c.imported.names :=
  h.compiled'.names_eq.trans h.compiled.names_eq.symm

theorem names_origin : c'.origin.names = c.origin.names := by
  rw [h.right.entered.enlisted, h.left.entered.enlisted, h.names_imported]

/-- What is imported is found in the same place in either order. -/
theorem there (hx : c.imported.table.under? path name = some x) :
    c'.imported.table.under? path name = some (c.imported.table.standIn c'.imported.table x) := by
  have ht := h.compiled.formed.toRegular
  obtain ⟨hholds, hpath, hname, hnamed⟩ := ht.of_under? hx
  have hfound := (h.compiled.linked_and_copies h.compiled' h.pristine h.regular h.lends
      hholds).1.found
  rwa [ht.relocate?_root hholds hnamed, hpath, hname] at hfound

/-- What stands for something after the imports and the conveniences does so in either order. -/
theorem exists_there (hx : c.origin.table.under? path name = some x) :
    ∃ x', c'.origin.table.under? path name = some x' := by
  have hequipped := h.left.entered.equipped
  have hregular := hequipped.intact.formed.toRegular
  obtain ⟨hholds, -, rfl, -⟩ := hregular.of_under? hx
  refine hequipped.exists_there h.left.staged.collected.intact h.right.entered.equipped ?_ ?_
    (fun y hy => ⟨_, h.there hy⟩) hx
  · rw [h.names_origin]
    exact hregular.families.knows hholds
  · rw [h.names_origin]

theorem opens (hopens : c.origin.Opens name) : c'.origin.Opens name := by
  refine ⟨Option.eq_none_iff_forall_ne_some.2 fun x' hx' =>
    ?_, by rw [h.names_origin]; exact hopens.2⟩
  have hroot : c'.origin.table.under? [] name = some x' := hx'
  obtain ⟨x, hx⟩ := h.symm.exists_there hroot
  cases hopens.1.symm.trans hx

theorem misses {id : QualifiedId} (hmisses : c.origin.table.Misses id) :
    c'.origin.table.Misses id :=
  ⟨hmisses.1, h.right.entered.equipped.intact.formed.tree.resolveId_eq_notFound
    (fun _ _ _ _ hy => h.symm.exists_there hy)
    h.left.entered.equipped.intact.formed.tree hmisses.2⟩

theorem introduces {id : QualifiedId} (hid : m.Introduces c.origin.table id) :
    (m.withCompositions compositions).Introduces c'.origin.table id where
  element := Node.mem_enumElements.2
    (Node.below_withCompositions (fun h => by cases h) h.perm (Node.mem_enumElements.1 hid.element))
  misses := h.misses hid.misses

/-- What may be declared after one order of the imports may be declared after the other. -/
theorem admits (hadmits : c.origin.Admits m) :
    c'.origin.Admits (m.withCompositions compositions) where
  opens e he := h.opens (hadmits.opens e he)
  distinct := hadmits.distinct
  elements {id} hid := by
    rw [h.names_origin]
    exact hadmits.elements (h.symm.introduces hid)

end Recomposed

/-- Both checks register without errors. -/
structure Aligned (tables : List Table) (library : Library) (m : Module)
    (compositions : List ModuleRef) (initial : Draft) (c c' : Course) : Prop
    extends Recomposed tables library m compositions initial c c' where
  clean : c.start.table.hasErrors = false
  clean' : c'.start.table.hasErrors = false

/-- If one check registers without errors, then the other one does. -/
theorem Recomposed.aligned (h : Recomposed tables library m compositions initial c c')
    (hclean : c.start.table.hasErrors = false) (himported : c'.imported.table.hasErrors = false) :
    Aligned tables library m compositions initial c c' where
  toRecomposed := h
  clean := hclean
  clean' := h.right.start_clean_iff.2 ⟨himported, h.admits (h.left.start_clean_iff.1 hclean).2⟩

namespace Aligned

variable (h : Aligned tables library m compositions initial c c')
include h

theorem symm : Aligned tables library (m.withCompositions compositions) m.compositions
    initial c' c where
  toRecomposed := h.toRecomposed.symm
  clean := h.clean'
  clean' := h.clean

theorem names_start : c'.start.names = c.start.names := by
  rw [(h.right.entered.exhausts h.clean').2.2, (h.left.entered.exhausts h.clean).2.2,
    h.names_imported]
  rfl

/-! ## Counterparts -/

/-- Names come to stand for the same. -/
theorem exists_equal {e : Entry} (hchosen : c.origin.chosen (m.entries c.origin.table)
    name = some e) :
    ∃ e', c'.origin.chosen ((m.withCompositions compositions).entries c'.origin.table) name =
      some e' ∧ e.Equals e' := by
  have hadmits := (h.left.start_clean_iff.1 h.clean).2
  refine Admits.exists_equal (m := m) (h.admits hadmits) (fun e he => ⟨e, he, rfl, rfl, rfl⟩)
    (fun e he _ => ⟨e, he, rfl⟩) (fun hid hopen => ⟨h.introduces hid, h.opens hopen⟩) hchosen

/-- Each symbol has one in its place. -/
theorem exists_linked (hx : c.start.table.Holds x) :
    ∃ y, c.start.table.Linked c'.start.table .root x y := by
  have hgrown : c.start.names.Grown c'.start.names := by
    rw [h.names_start]
    exact .refl _
  by_cases hkept : c.imported.table.Holds x ∨ (c.start.table.kindOf x).convenience? = none
  · refine h.left.entered.linked h.right.entered.toStocked h.exists_equal
      h.left.staged.collected.intact hgrown (fun hx => ?_) hx hkept
    obtain ⟨hlinked, hcopy⟩ :=
      h.compiled.linked_and_copies h.compiled' h.pristine h.regular h.lends hx
    exact ⟨_, hlinked.later hcopy.holds h.right.entered.extended.later⟩
  · -- a convenience is in the place of the one of its name, for no import has that name
    obtain ⟨hnew, hplain⟩ := not_or.1 hkept
    obtain ⟨convenience, hconvenience⟩ := Option.ne_none_iff_exists'.1 hplain
    have hkind : c.start.table.kindOf x = .union (some convenience) := by
      cases hthis : c.start.table.kindOf x <;> rw [hthis] at hconvenience <;> cases hconvenience
      rfl
    have hfree : ∀ y, (c'.start.table.namespaceAt .root).symbol? (c.start.table.symbolAt x).name =
        some y → ¬ c'.imported.table.Holds y := by
      intro y hy hold
      have hroot : c'.start.table.under? [] (c.start.table.symbolAt x).name = some y := hy
      have hthere := h.right.entered.extended.later.under?_of_holds
        h.right.staged.collected.intact.formed.toRegular h.right.entered.intact.formed.toRegular
        hroot hold
      have hback := h.symm.there hthere
      have hself := (h.left.entered.single hx hnew (by rw [hkind]; rfl)).1
      cases hself.symm.trans (h.left.entered.extended.later.under? hback)
      exact hnew (h.compiled.formed.toRegular.of_under? hback).1
    obtain ⟨y, -, hlinked, -⟩ := h.left.entered.linked_convenience h.right.entered.toStocked hgrown
      hx hnew hkind hfree
    exact ⟨y, hlinked⟩

theorem retraces : Table.Retraces c.start.names c.start.table c'.start.table
    c.start.table.Holds where
  regular := h.left.entered.intact.formed.toRegular
  regular' := h.names_start ▸ h.right.entered.intact.formed.toRegular
  holds := id
  covers hx _ := hx
  linked hx := by
    obtain ⟨y, hy⟩ := h.exists_linked hx
    rwa [hy.standIn_eq]

theorem inverse (hx : c.start.table.Holds x) :
    c'.start.table.standIn c.start.table (c.start.table.standIn c'.start.table x) = x :=
  h.retraces.inverse hx

theorem onto (hy : c'.start.table.Holds y) :
    ∃ x, c.start.table.Holds x ∧ c.start.table.standIn c'.start.table x = y :=
  ⟨_, h.symm.retraces.holds' hy, h.symm.inverse hy⟩

/-- What is imported is a copy of what is imported in the other order. -/
theorem copies (hx : c.imported.table.Holds x) :
    c.imported.table.Copies c'.imported.table (c.start.table.standIn c'.start.table) x
      (c.start.table.standIn c'.start.table x) := by
  have hsame : ∀ {y}, c.imported.table.Holds y → c.start.table.standIn c'.start.table y =
      c.imported.table.standIn c'.imported.table y := by
    intro y hy
    obtain ⟨hlinked, hcopy⟩ :=
      h.compiled.linked_and_copies h.compiled' h.pristine h.regular h.lends hy
    refine Table.Linked.standIn_eq ?_
    exact (hlinked.later hcopy.holds h.right.entered.extended.later).grown
      h.compiled.formed.toRegular h.left.entered.extended.later h.retraces.regular
  obtain ⟨-, hcopy⟩ := h.compiled.linked_and_copies h.compiled' h.pristine h.regular h.lends hx
  rw [hsame hx]
  refine hcopy.congr fun p hp => (hsame ?_).symm
  rcases (h.left.staged.collected.intact.closed hx).mentions hp with hp | hp
  · exact hp.holds
  · exact hp.holds

/-- What is new is not found among what is imported. -/
theorem holds_of_imported (hx : c.start.table.Holds x)
    (hthere : c'.imported.table.Holds (c.start.table.standIn c'.start.table x)) :
    c.imported.table.Holds x := by
  have hback := (h.symm.copies hthere).holds
  rwa [h.inverse hx] at hback

theorem isImported (hx : c.start.table.Holds x)
    (himported :
      (c'.start.table.symbolAt (c.start.table.standIn c'.start.table x)).isImported = true) :
    (c.start.table.symbolAt x).isImported = true := by
  have hthere : c'.imported.table.Holds (c.start.table.standIn c'.start.table x) := by
    by_contra hnew
    obtain ⟨horigin, -⟩ := h.right.entered.extended.new (h.retraces.holds' hx) hnew
    rw [Symbol.isImported, horigin] at himported
    cases himported
  have hold := h.holds_of_imported hx hthere
  rw [(h.left.symbolAt_imported hold).1]
  refine h.compiled.isImported hold fun hbuiltin => ?_
  -- what is built in stands in for itself
  have hlater := h.compiled'.later.trans h.right.entered.extended.later
  have hlinked := h.pristine.linked h.regular h.left.entered.intact.formed.toRegular
    (h.compiled.later.trans h.left.entered.extended.later) hlater hbuiltin
  rw [hlinked.standIn_eq, h.pristine.symbolAt_eq hlater hbuiltin, Symbol.isImported,
    (h.pristine hbuiltin).2.2.1] at himported
  cases himported

theorem finds {ids : QualifiedId → Prop} :
    c.start.table.Finds c'.start.table c.start.table.Holds
      (c.start.table.standIn c'.start.table) ids :=
  h.retraces.finds (fun _ _ _ _ _ _ hy => (h.retraces.regular.of_under? hy).1)
    fun _ _ _ _ _ _ _ hy' =>
      ⟨_, h.symm.retraces.under? hy' (h.retraces.regular'.of_under? hy').1⟩

/-! ## Declarations -/

/-- All declared types are counterparts of declared types. -/
theorem exists_type {b' : Declaration} (hb' : b' ∈ c'.declarations.types) :
    ∃ b ∈ c.declarations.types, b.rename (c.start.table.standIn c'.start.table) = b' := by
  obtain ⟨hinside, hb⟩ :=
    h.right.rename_mem_types h.left h.symm.retraces h.clean (fun _ hdecl => hdecl) hb'
  exact ⟨_, hb, congrArg (Declaration.mk b'.decl) (h.symm.inverse hinside)⟩

theorem exists_param {p' : Parameter} (hp' : p' ∈ c'.declarations.params) :
    ∃ p ∈ c.declarations.params, p.rename (c.start.table.standIn c'.start.table) = p' := by
  obtain ⟨hinside, hp⟩ := h.right.rename_mem_params h.left h.symm.retraces h.clean' h.clean
    (fun _ hparam => hparam) hp'
  exact ⟨_, hp, congrArg (Parameter.mk p'.name p'.type) (h.symm.inverse hinside)⟩

/-- The conveniences accept counterparts, for all symbols of either table have them. -/
theorem form_of_convenience (hx : c.start.table.Holds x) (hnew : ¬ c.imported.table.Holds x)
    {convenience : Convenience} (hkind : c.start.table.kindOf x = .union (some convenience)) :
    (c'.base.table.symbolAt (c.start.table.standIn c'.start.table x)).canonical =
      (c.base.table.symbolAt x).canonical.map
        (CanonicalForm.rename (c.start.table.standIn c'.start.table)) := by
  have howns := h.left.owns_of_new hx hnew
  have howns' := h.right.owns_of_new (h.retraces.holds' hx) (mt (h.holds_of_imported hx) hnew)
  have hechoes := h.retraces.echoes
  have hform := (h.left.account.later.symbol howns.holds).canonical
    (h.left.entered.registered.convenience howns hkind)
  have hform' := (h.right.account.later.symbol howns'.holds).canonical
    (h.right.entered.registered.convenience howns' (hechoes.kindOf_union hx hkind))
  rw [hform, hform', hechoes.convenienceValues h.retraces.regular.arena h.retraces.regular'.arena
    h.onto]
  rfl

section

variable (hclean : c.Clean m)
include hclean

theorem portion : Portion m c.start c'.start c.declarations c'.declarations c.start.table.Holds
    (c.start.table.standIn c'.start.table) :=
  h.left.portion h.right h.retraces hclean h.clean' (fun _ hdecl => hdecl) (fun _ hparam => hparam)
    h.finds

theorem typeProblems_eq_nil : ∀ b' ∈ c'.declarations.types,
    c'.start.typeProblems (m.withCompositions compositions) b' = [] := by
  intro b' hb'
  obtain ⟨b, hb, rfl⟩ := h.exists_type hb'
  exact (h.portion hclean).typeProblems_eq_nil hb _

theorem paramProblems_eq_nil : ∀ p' ∈ c'.declarations.params,
    (c'.start.resolvedParam (m.withCompositions compositions) p').problems = [] := by
  intro p' hp'
  obtain ⟨p, hp, rfl⟩ := h.exists_param hp'
  exact (h.portion hclean).paramProblems_eq_nil hp _

/-- All that is declared comes to the same. -/
theorem conveyed : Conveyed m (m.withCompositions compositions) c.imported.table c'.imported.table
    c.start c'.start c.base c'.base c.declarations c'.declarations c.start.table.Holds
    (c.start.table.standIn c'.start.table) := by
  refine h.left.conveyed h.right h.retraces (h.portion hclean)
    (h.right.account.unfailed (h.typeProblems_eq_nil hclean) (h.paramProblems_eq_nil hclean))
    (h.left.staged.normal h.normal) (h.right.staged.normal h.normal) h.isImported
    fun {x} hx hcase _ => ?_
  by_cases hold : c.imported.table.Holds x
  · have hcopy := h.copies hold
    rw [(h.right.symbolAt_imported hcopy.holds).2, (h.left.symbolAt_imported hold).2]
    exact hcopy.form
  · obtain ⟨convenience, hconvenience⟩ := Option.isSome_iff_exists.1 (hcase.resolve_left hold)
    have hkind : c.start.table.kindOf x = .union (some convenience) := by
      cases hkind : c.start.table.kindOf x <;> rw [hkind] at hconvenience <;> cases hconvenience
      rfl
    exact h.form_of_convenience hx hold hkind

end

end Aligned

end Draft

end ManySorted
