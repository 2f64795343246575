import ManySorted.Proofs.Draft.Notes
import ManySorted.Proofs.Import.Recognition
import ManySorted.Proofs.Session.Completeness

/-!
# Parameters of a transform and new data of its outputs

What the import of a renamed output places lies below the namespace of the renaming, clones and
symbols that were there alike (`Table.Linked.isWithin`).  The check looks at what the form of a
parameter accepts, where unions are flattened already, so a parameter of a valid transform accepts
the sort of no new constructor or map that the import of a renamed output placed
(`checkModule_secludes`).

An output without a renaming lands in the root, which the check does not look at: its new data may
be accepted by a parameter (`Copying.not_checkModule_secludes`).

## Strategy

* **Where copies lie.**  What stands in the place of a foreign data symbol lies below the
  destination (`Table.Linked.isWithin`), and what an import placed still stands there when all is
  imported (`Draft.Places.linked`).
* **The check.**  If nothing is reported, no parameter accepts new data that lies below a renamed
  output (`Draft.Account.not_isWithin`).
* **Forms.**  A parameter of a valid table has the form that declaring left, so it accepts the sort
  of nothing that such an import placed.
-/

namespace ManySorted

namespace Table

variable {names : Interner} {foreign t t' : Table} {base : NamespaceId} {p r x : SymbolId}

/-- At some position `p` accepts the sort of the new constructor or map `x`. -/
def AcceptsNew (t : Table) (p x : SymbolId) : Prop :=
  (t.kindOf x).isNew = true ∧ ∃ form ∈ (t.symbolAt p).canonical, ∃ v ∈ form.positions,
    ∃ s ∈ v.sorts.toList, t.dataOf? s = some x

instance (t : Table) (p x : SymbolId) : Decidable (t.AcceptsNew p x) :=
  inferInstanceAs (Decidable (_ ∧ _))

theorem exists_data_of_isNew (h : (t.kindOf x).isNew = true) :
    ∃ shape info, t.kindOf x = .data shape info := by
  cases hkind : t.kindOf x <;> rw [hkind] at h <;> first | exact ⟨_, _, rfl⟩ | cases h

/-- What stands in the place of a foreign data symbol lies below the destination. -/
theorem Linked.isWithin (h : foreign.Linked t base r x) (hforeign : foreign.Regular names)
    (ht : t.Regular names) (hnew : (t.kindOf x).isNew = true) :
    t.HasNamespace (t.symbolAt x).home ∧ t.path base <+: t.path (t.symbolAt x).home := by
  obtain ⟨shape, info, hkind⟩ := exists_data_of_isNew hnew
  have hmoves : (foreign.symbolAt r).kind.staysInRoot = false := by
    rw [← SymbolKind.staysInRoot_outline, show (foreign.symbolAt r).kind.outline = _ from
      h.outline.symm, SymbolKind.staysInRoot_outline, hkind]
    rfl
  obtain ⟨hx, hlanding⟩ := hforeign.landing?_of_relocate? ht h.found
  rw [landing?, hmoves, if_neg Bool.false_ne_true] at hlanding
  rw [ht.tree.path_of_descend? hlanding]
  exact ⟨ht.arena.home hx, List.prefix_append _ _⟩

end Table

namespace Draft

variable {names : Interner} {tables : List Table} {id : TableId} {library : Library}
  {config : CheckConfig} {m : Module} {reference : ModuleRef} {imported : Draft} {x : SymbolId}

/-- In its turn, the import of `reference` lets `x` stand for a foreign symbol, be it a clone or a
symbol that was there. -/
def Places (names : Interner) (id : TableId) (library : Library) (config : CheckConfig) (m : Module)
    (reference : ModuleRef) (x : SymbolId) : Prop :=
  ∃ before after d foreign links e r, m.references = before ++ reference :: after ∧
    before.forM (importReference library m) (initial names id config m) = .ok () d ∧
    library.find? reference.module = some foreign ∧
    takeIn foreign reference.rename reference.span
      { d with clock := d.clock.advance.request } = .ok links e ∧ (r, x) ∈ links.ids

/-- What an import placed still stands in the place of the foreign symbol when all is imported. -/
theorem Places.linked (h : Places names id library config m reference x)
    (session : Session names tables) (held : ∀ entry ∈ library.tables, entry.2 ∈ tables)
    (himports : m.references.forM (importReference library m) (initial names id config m) =
      .ok () imported) (hclean : imported.table.hasErrors = false) :
    imported.Assembled tables ∧ ∃ foreign base, foreign ∈ tables ∧ foreign.isValid = true ∧
      imported.table.HasNamespace base ∧
      imported.table.descend? .root reference.rename.toList = some base ∧
      ∃ r, foreign.Linked imported.table base r x ∧ imported.table.Holds x := by
  obtain ⟨before, after, d, foreign, links, e, r, hsplit, hbefore, hfind, hgather, hmem⟩ := h
  obtain ⟨hnames, harchive⟩ := session.archive
  have hforeign := held _ (Library.mem_of_find? hfind)
  rw [hsplit, List.forM_eq_forM, List.forM_append] at himports
  obtain ⟨_, d₀, hfirst, hrest⟩ := bind_eq_ok.1 himports
  cases hbefore.symm.trans hfirst
  obtain ⟨_, d₁, hreference, hafter⟩ := bind_eq_ok.1 hrest
  have hclean₁ := ((proceeds_forM (l := after) fun r _ =>
    proceeds_importReference library m r).ok hafter).table.hasErrors_eq_false hclean
  have hmodule := importReference_eq_ok hreference
  rw [hfind] at hmodule
  dsimp only at hmodule
  have hassembled : Assembled tables { d with clock := d.clock.advance.request } := by
    have hclean₀ := ((proceeds_importReference library m reference).ok
      hreference).table.hasErrors_eq_false hclean₁
    exact ((establishes_imports held m before).run (assembled_initial hnames harchive) hbefore
      hclean₀).of_clock _
  have hrefusal := importRefusal?_eq_none_of_clean hmodule hclean₁
  have hvalid := Table.isValid_of_importRefusal? hrefusal
  rw [importModule_eq_embed hrefusal, embed_eq] at hmodule
  obtain ⟨links', e', hgather', hfinish⟩ := bind_eq_ok.1 hmodule
  cases hgather.symm.trans hgather'
  have hfinishes : Establishes (PlacedSince tables foreign reference.rename d links)
      (finish foreign reference.rename links)
      fun _ => Received tables foreign reference.rename d links := establishes_finish
  have hcleanGathered := (hfinishes.proceeds.ok hfinish).table.hasErrors_eq_false hclean₁
  have hplaced := (establishes_takeIn hforeign hvalid).run
    (⟨hassembled, .refl _⟩ : Since tables d _) hgather hcleanGathered
  obtain ⟨hsince, base, hdescend, hreceived, hlinked⟩ := hfinishes.run hplaced hfinish hclean₁
  obtain ⟨hx, hlinked⟩ := hlinked hmem
  have hsince' := (establishes_imports_since held m after).run
    (⟨hsince.toAssembled, .refl _⟩ : Since tables d₁ d₁) hafter hclean
  exact ⟨hsince'.toAssembled, foreign, base, hforeign, hvalid,
    hsince'.later.hasNamespace hreceived.hasNamespace, hsince'.later.descend? hdescend, r,
    hlinked.later hx hsince'.later, hsince'.later.holds hx⟩

/-- What the check of the parameters of a transform finds is reported. -/
theorem Account.reports_of_parameterReports {origin : Table} {declarations : Declarations}
    {start d : Draft} (h : Account m origin declarations start d) (hkind : m.kind = .transform)
    {q : Parameter} (hq : q ∈ declarations.params) {report : Report}
    (hreport : report ∈ d.table.parameterReports d.names (d.table.outputNamespaces m) q.symbol) :
    report ∈ d.table.reports := by
  rw [h.reports_eq, Table.restrictionReports, if_pos hkind]
  exact List.mem_append_right _ (List.mem_append_right _
    (List.mem_flatMap.2 ⟨_, List.mem_map_of_mem hq, hreport⟩))

/-- The restriction on parameters: if nothing is reported, no parameter accepts new data that lies
below a renamed output. -/
theorem Account.not_isWithin {origin : Table} {declarations : Declarations} {start d : Draft}
    (h : Account m origin declarations start d) (hclean : d.table.hasErrors = false)
    (hkind : m.kind = .transform) {p : SymbolId} (howns : d.table.Owns p)
    (hparam : (d.table.kindOf p).isParameter = true) (haccepts : d.table.AcceptsNew p x)
    {ns : NamespaceId} (hns : ns ∈ d.table.outputNamespaces m) :
    d.table.isWithin (d.table.symbolAt x).home ns = false := by
  refine Bool.eq_false_iff.2 fun hwithin => ?_
  obtain ⟨hnew, form, hform, v, hv, s, hs, hdata⟩ := haccepts
  have hkindOf : (start.table.kindOf p).isParameter = true := by
    rw [← isParameter_unsized, ← h.alike.unsized, isParameter_unsized]
    exact hparam
  obtain ⟨q, hq, rfl⟩ :=
    List.mem_map.1 (h.registered.listsParams.mem_iff.2 ⟨h.alike.owns.1 howns, hkindOf⟩)
  have hstands := h.stands (h.alike.owns.1 howns) (.inr hkindOf) hform
  -- the form of a parameter has one position
  have hone := h.param q hq hstands
  obtain rfl := Option.some.inj (hform.symm.trans hone)
  cases List.mem_singleton.1 hv
  -- so the check came across `x`
  have hreport : (⟨(d.table.symbolAt q.symbol).location, .transformNewness
      (d.table.qualifiedName d.names q.symbol) (d.table.qualifiedName d.names x)⟩ : Report) ∈
      d.table.parameterReports d.names (d.table.outputNamespaces m) q.symbol := by
    have hany := List.any_eq_true.2 ⟨ns, hns, hwithin⟩
    have hnew : (d.table.symbolAt x).kind.isNew = true := hnew
    rw [Table.parameterReports, Symbol.accepted?, hone]
    refine List.mem_filterMap.2 ⟨x, List.mem_filterMap.2 ⟨s, hs, hdata⟩, ?_⟩
    simp only [hnew, hany, Bool.and_self, if_true]
  have herrors := Table.hasErrors_of_mem (h.reports_of_parameterReports hkind hq hreport) rfl
  exact Bool.false_ne_true (hclean.symm.trans herrors)

end Draft

section

variable {names names' : Interner} {tables : List Table} {id : TableId} {library : Library}
  {config : CheckConfig} {m : Module} {out : CheckOutput} {reference : ModuleRef}

/-- No parameter of a valid transform accepts the sort of a new constructor or map that the import
of a renamed output placed, be it a clone or a symbol that was there. -/
theorem checkModule_secludes (h : Session names tables)
    (held : ∀ entry ∈ library.tables, entry.2 ∈ tables)
    (checked : checkModule names id library config m = (names', .ok out))
    (valid : out.table.isValid = true) (transform : m.kind = .transform)
    {p x : SymbolId} (own : out.table.Owns p) (param : (out.table.kindOf p).isParameter = true)
    (accepts : out.table.AcceptsNew p x) (output : reference ∈ m.outputs)
    (renamed : reference.rename ≠ none) :
    ¬ Draft.Places names id library config m reference x := by
  intro hplaces
  obtain ⟨d, hrun, rfl, hclean, htable⟩ := checkModule_valid checked valid
  obtain ⟨imported, base, hstaged⟩ := h.staged held hrun
  obtain ⟨declarations, registered, -, haccount⟩ := hstaged.account
  obtain ⟨hcleanImported, hcleanBase⟩ := hstaged.clean hclean
  -- what the check handed out differs from what declaring left in sizes only
  have hwritten : base.table.SizesWritten out.table := by
    rw [htable]
    exact hstaged.sized.written.trans (.of_eq rfl rfl rfl)
  have halike := hwritten.toAlike
  have haccepts : base.table.AcceptsNew p x := by
    obtain ⟨hnew, form, hform, v, hv, s, hs, hdata⟩ := accepts
    refine ⟨(halike.isNew x).symm.trans hnew, form, ?_, v, hv, s, hs, ?_⟩
    · rw [← hwritten.canonical]
      exact hform
    · rw [← halike.dataOf?, hdata]
  have hparam : (base.table.kindOf p).isParameter = true := by
    rw [← isParameter_unsized, ← halike.unsized, isParameter_unsized]
    exact param
  obtain ⟨hassembled, foreign, destination, hforeign, hvalid, hheld, hdescend, r, hlinked, hx⟩ :=
    hplaces.linked h held hstaged.imports hcleanImported
  obtain ⟨name, hname⟩ := Option.ne_none_iff_exists'.1 renamed
  rw [hname, Option.toList_some, Table.descend?_singleton] at hdescend
  -- at the end of the imports `x` lies below the child that the renaming names
  have hlater := hstaged.declared.extended.later
  have hnew : (imported.table.kindOf x).isNew = true := by
    rw [← SymbolKind.isNew_unsized, ← hlater.unsized_kindOf hx, SymbolKind.isNew_unsized]
    exact haccepts.1
  obtain ⟨hhome, hprefix⟩ := hlinked.isWithin
    (hassembled.archive.trusted hforeign hvalid).formed.toRegular hassembled.formed.toRegular hnew
  -- and declaring moves nothing
  have hwithin : base.table.isWithin (base.table.symbolAt x).home destination = true := by
    have htree := hstaged.declared.intact.formed.tree
    rw [hlater.home_symbolAt hx,
      htree.isWithin_iff (hlater.hasNamespace hhome) (hlater.hasNamespace hheld),
      hlater.path_eq hassembled.formed.tree htree hhome,
      hlater.path_eq hassembled.formed.tree htree hheld]
    obtain ⟨rest, hrest⟩ := hprefix
    exact ⟨rest, hrest.symm⟩
  have hmem : destination ∈ base.table.outputNamespaces m :=
    List.mem_filterMap.2 ⟨reference, output, by rw [hname]; exact hlater.child? hdescend⟩
  rw [haccount.not_isWithin hcleanBase transform (halike.owns.1 own) hparam haccepts
    hmem] at hwithin
  cases hwithin

end

namespace Copying

/-- The names of the modules `Graph` and `Copy`, of the type `V`, of the renamings `in` and `out`
and of the parameter `p`. -/
def names : Interner := internAll ["Graph", "Copy", "V", "in", "out", "p"]

/-- `V` has two values. -/
def graph : Module where
  kind := .domain
  name := ⟨28⟩
  file := ⟨0⟩
  types := [⟨⟨30⟩, {}, .constructor true [{ type := [.enumeration [.range 0 1 {}] {}] }]⟩]

def session : Interner × List Table := checkAll names [] [graph]

def library : Library := .of session.2

def renamed : ModuleRef := { rename := some ⟨32⟩, module := ⟨28⟩, kind := .output }

def plain : ModuleRef := { module := ⟨28⟩, kind := .output }

/-- Takes `in :: Graph` and some `p : in.V`, and yields `out :: Graph`. -/
def guarded : Module where
  kind := .transform
  name := ⟨29⟩
  file := ⟨0⟩
  params :=
    [.model { rename := some ⟨31⟩, module := ⟨28⟩, kind := .input },
     .value ⟨33⟩ [.named { segments := [⟨31⟩, ⟨30⟩] }] {}]
  outputs := [renamed]

/-- Takes some `p : V` and yields `Graph` without a renaming. -/
def bare : Module where
  kind := .transform
  name := ⟨29⟩
  file := ⟨0⟩
  params := [.value ⟨33⟩ [.named { segments := [⟨30⟩] }] {}]
  outputs := [plain]

def result (m : Module) : Interner × Except Fault CheckOutput :=
  checkModule session.1 ⟨1⟩ library {} m

/-- Whether a check finds its module valid and `p` is a parameter of it that accepts the sort of
`x`. -/
def accepts (p x : SymbolId) (out : CheckOutput) : Bool :=
  out.table.isValid && decide (out.table.Holds p) && !(out.table.symbolAt p).isSettled &&
    (out.table.kindOf p).isParameter && decide (out.table.AcceptsNew p x)

/-- The parameter of `Copy` has the handle 47, and `in.V` the handle 28. -/
theorem accepts_guarded : (result guarded).2.toOption.any (accepts ⟨47⟩ ⟨28⟩) = true := by
  decide +kernel

/-- The parameter accepts `in.V`, which therefore is nothing that the import of `out` placed. -/
theorem checkModule_secludes_guarded : ∃ names' out,
    checkModule session.1 ⟨1⟩ library {} guarded = (names', .ok out) ∧
      out.table.AcceptsNew ⟨47⟩ ⟨28⟩ ∧
      ¬ Draft.Places session.1 ⟨1⟩ library {} guarded renamed ⟨28⟩ := by
  obtain ⟨out, checked, haccepts⟩ := exists_of_any_toOption accepts_guarded
  simp only [accepts, Bool.and_eq_true, Bool.not_eq_true', decide_eq_true_eq] at haccepts
  obtain ⟨⟨⟨⟨hvalid, hholds⟩, hunsettled⟩, hparam⟩, haccepts⟩ := haccepts
  exact ⟨_, out, checked, haccepts,
    checkModule_secludes (session_checkAll _ [graph]) (fun _ => Library.mem_of) checked hvalid rfl
      ⟨hholds, hunsettled⟩ hparam haccepts (List.mem_singleton.2 rfl) (Option.some_ne_none _)⟩

/-- Whether the import of a table without a renaming places `x`. -/
def places (foreign? : Option Table) (d : Draft) (x : SymbolId) : Bool :=
  match foreign? with
  | none => false
  | some foreign =>
      match Draft.takeIn foreign plain.rename plain.span
          { d with clock := d.clock.advance.request } with
      | .ok links _ => links.ids.any fun pair => pair.2 == x
      | .error .. => false

theorem exists_of_places {foreign? : Option Table} {d : Draft} {x : SymbolId}
    (h : places foreign? d x = true) : ∃ foreign links e r, foreign? = some foreign ∧
      Draft.takeIn foreign plain.rename plain.span { d with clock := d.clock.advance.request } =
        .ok links e ∧ (r, x) ∈ links.ids := by
  unfold places at h
  split at h
  · cases h
  · split at h
    · obtain ⟨⟨r, y⟩, hmem, hy⟩ := List.any_eq_true.1 h
      obtain rfl := eq_of_beq hy
      exact ⟨_, _, _, r, rfl, ‹_›, hmem⟩
    · cases h

/-- The parameter has the handle 24 where the output is not renamed, and `V` the handle 18. -/
theorem accepts_bare : (result bare).2.toOption.any (accepts ⟨24⟩ ⟨18⟩) = true ∧
    places (library.find? plain.module) (.initial session.1 ⟨1⟩ {} bare) ⟨18⟩ = true := by
  decide +kernel

/-- The parameter accepts `V`, which is what the import of the output without a renaming placed. -/
theorem not_checkModule_secludes : ¬ ∀ names' out,
    checkModule session.1 ⟨1⟩ library {} bare = (names', .ok out) → out.table.isValid = true →
      ∀ p x, out.table.Owns p → (out.table.kindOf p).isParameter = true →
        out.table.AcceptsNew p x → ∀ reference ∈ bare.outputs,
          ¬ Draft.Places session.1 ⟨1⟩ library {} bare reference x := by
  intro hsecludes
  obtain ⟨out, checked, haccepts⟩ := exists_of_any_toOption accepts_bare.1
  simp only [accepts, Bool.and_eq_true, Bool.not_eq_true', decide_eq_true_eq] at haccepts
  obtain ⟨⟨⟨⟨hvalid, hholds⟩, hunsettled⟩, hparam⟩, haccepts⟩ := haccepts
  obtain ⟨foreign, links, e, r, hfind, hgather, hmem⟩ := exists_of_places accepts_bare.2
  exact hsecludes _ out checked hvalid ⟨24⟩ ⟨18⟩ ⟨hholds, hunsettled⟩ hparam haccepts plain
    (List.mem_singleton.2 rfl) ⟨[], [], _, foreign, links, e, r, rfl, rfl, hfind, hgather, hmem⟩

end Copying

end ManySorted

