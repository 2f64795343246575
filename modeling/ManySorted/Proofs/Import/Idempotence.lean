import ManySorted.Proofs.Draft.Notes
import ManySorted.Proofs.Import.Annexing
import ManySorted.Proofs.Import.Isomorphism
import ManySorted.Proofs.Import.Recognition
import ManySorted.Proofs.Session.Dependencies

/-!
# Importing again does nothing

What an import without errors has left, the same import finds again, immediately or after others:
the literals and dependencies are noted, the namespaces are there, and in the place of every foreign
symbol stands what matches it.  So no symbol is cloned, nothing is written, and but for the clock
the draft stays as it is (`Draft.importModule_again`).

## Strategy

* **Notes.**  What is noted is not noted twice (`Table.Noted.absorb_eq`), and imports in between
  only add to the notes (`Draft.annotated_imports`).
* **Namespaces.**  Where all foreign paths lead on already, none is created
  (`Table.Received.recreateNamespaces_eq`).
* **Symbols.**  In the place of each foreign symbol stands what matches it, so placing finds it and
  clones nothing (`Importing.Arranged.place_of_received`).  Without clones there is nothing to write
  (`Draft.safe_finish_of_created`).
* **The second import.**  What was imported without errors is received and noted from then on
  (`Draft.received_of_imports`), whatever was imported after it.
-/

namespace ManySorted

/-! ## Literals and dependencies -/

instance : Std.TransOrd Literal where
  eq_swap {a b} := by
    cases a with
    | integer a =>
        cases b with
        | integer b => exact Std.OrientedOrd.eq_swap (α := Int) (a := a) (b := b)
        | string b => rfl
    | string a =>
        cases b with
        | integer b => rfl
        | string b => exact Std.OrientedOrd.eq_swap (α := Name) (a := a) (b := b)
  isLE_trans {a b c} hab hbc := by
    cases a with
    | integer a =>
        cases c with
        | string c => rfl
        | integer c =>
            cases b with
            | integer b => exact Std.TransOrd.isLE_trans (α := Int) hab hbc
            | string b => exact absurd hbc Bool.false_ne_true
    | string a =>
        cases b with
        | integer b => exact absurd hab Bool.false_ne_true
        | string b =>
            cases c with
            | integer c => exact absurd hbc Bool.false_ne_true
            | string c => exact Std.TransOrd.isLE_trans (α := Name) hab hbc

instance : Std.LawfulEqOrd Literal where
  compare_self {a} := by
    cases a with
    | integer a => exact Std.ReflOrd.compare_self (α := Int) (a := a)
    | string a => exact Std.ReflOrd.compare_self (α := Name) (a := a)
  eq_of_compare {a b} h := by
    cases a with
    | integer a =>
        cases b with
        | integer b => exact congrArg _ (Std.LawfulEqOrd.eq_of_compare (α := Int) h)
        | string b => cases show Ordering.lt = .eq from h
    | string a =>
        cases b with
        | integer b => cases show Ordering.gt = .eq from h
        | string b => exact congrArg _ (Std.LawfulEqOrd.eq_of_compare (α := Name) h)

namespace Table

variable {names names' : Interner} {foreign t t' t'' : Table} {reference : ModuleRef}

/-- The literals and dependencies of the first table are among those of the second, which are a set
and a map. -/
structure Noted (foreign t : Table) : Prop where
  sorted : t.literals.Sorted
  mapped : t.Mapped
  literals : ∀ literal, literal ∈ foreign.literals → literal ∈ t.literals
  dependencies : ∀ entry ∈ foreign.dependencies.toList, entry ∈ t.dependencies.toList

theorem Noted.trans (h : Noted t t') (h' : Noted t' t'') : Noted t t'' where
  sorted := h'.sorted
  mapped := h'.mapped
  literals literal hliteral := h'.literals literal (h.literals literal hliteral)
  dependencies entry hentry := h'.dependencies entry (h.dependencies entry hentry)

theorem Noted.self (h : foreign.Noted t) : t.Noted t :=
  ⟨h.sorted, h.mapped, fun _ hliteral => hliteral, fun _ hentry => hentry⟩

/-- What is noted is not noted twice. -/
theorem Noted.absorb_eq (h : foreign.Noted t) : t.absorb foreign = t := by
  rw [absorb, h.mapped.union_of_subset h.dependencies, h.sorted.union_of_subset h.literals]

theorem noted_absorb (ht : t.Noted t) (hforeign : foreign.Mapped)
    (h : t.moduleClash? foreign = none) :
    t.Noted (t.absorb foreign) ∧ foreign.Noted (t.absorb foreign) := by
  obtain ⟨hmapped, hmem⟩ := absorbed ht.mapped hforeign h
  have hsorted : (t.absorb foreign).literals.Sorted := ht.sorted.foldl_insert _
  exact ⟨⟨hsorted, hmapped, fun _ hl => OrderedSet.mem_union.2 (.inl hl),
      fun entry hentry => (hmem entry).2 (.inl hentry)⟩,
    hsorted, hmapped, fun _ hl => OrderedSet.mem_union.2 (.inr hl),
      fun entry hentry => (hmem entry).2 (.inr hentry)⟩

theorem Noted.congr (h : foreign.Noted t) (hnotes : t'.notes = t.notes) : foreign.Noted t' := by
  have hliterals : t'.literals = t.literals := congrArg Notes.literals hnotes
  have hdependencies : t'.dependencies = t.dependencies := congrArg Notes.dependencies hnotes
  refine ⟨hliterals ▸ h.sorted, ?_, hliterals ▸ h.literals, hdependencies ▸ h.dependencies⟩
  rw [Mapped, hdependencies]
  exact h.mapped

/-- What was not refused is not refused later, after its dependencies are noted. -/
theorem Noted.importRefusal?_eq_none (h : foreign.Noted t') (hkind : t'.kind = t.kind)
    (hgrown : names.Grown names') (hbefore : t.importRefusal? names reference foreign = none) :
    t'.importRefusal? names' reference foreign = none := by
  have hnot := importRefusal?_eq_none_iff.1 hbefore
  refine importRefusal?_eq_none_iff.2 fun hrefuses => ?_
  cases hrefuses with
  | invalid hinvalid => exact hnot (.invalid hinvalid)
  | composition hreason => exact hnot (.composition (hkind ▸ hreason))
  | badRenaming hname hillegal =>
      have hlegal := isLegalId_of_importRefusal? hbefore hname
      rw [hgrown.text (Interner.knows_of_isLegalId hlegal), hlegal] at hillegal
      cases hillegal
  | collision mine theirs differ =>
      have hsame := h.mapped.find?_eq_some_iff.2 (h.dependencies _ theirs)
      exact differ (Option.some.inj (mine.symm.trans hsame))

end Table

namespace Draft

variable {tables : List Table} {d d' start : Draft} {foreign : Table} {reference : ModuleRef}
  {library : Library} {m : Module} {references : List ModuleRef}

/-- Notes are only added to, and the kind stays. -/
structure Annotated (d d' : Draft) : Prop where
  kind_eq : d'.table.kind = d.table.kind
  noted : d.table.Noted d'.table

theorem Annotated.of_notes (hd : d.table.Noted d.table) (hnotes : d'.table.notes = d.table.notes) :
    Annotated d d' := ⟨congrArg Notes.kind hnotes, hd.congr hnotes⟩

theorem Annotated.of_absorb (hd : d.table.Noted d.table) (hforeign : foreign.Mapped)
    (hrefusal : d.table.importRefusal? d.names reference foreign = none)
    (hnotes : d'.table.notes = (d.table.absorb foreign).notes) :
    Annotated d d' ∧ foreign.Noted d'.table := by
  obtain ⟨hold, hnew⟩ := Table.noted_absorb hd hforeign
      (Table.moduleClash?_of_importRefusal? hrefusal)
  exact ⟨⟨congrArg Notes.kind hnotes, hold.congr hnotes⟩, hnew.congr hnotes⟩

/-- Imports only add to the notes. -/
theorem annotated_imports (hmapped : ∀ entry ∈ library.tables, entry.2.Mapped)
    (hd : d.table.Noted d.table)
    (hrun : references.forM (importReference library m) d = .ok () d') : Annotated d d' := by
  refine (ends_forM (motive := fun _ => Annotated d) (fun done reference rest _ => ?_)) d () d'
    (.of_notes hd rfl) hrun
  intro d₁ _ d₂ hd₁ hstep
  have hself := hd₁.noted.self
  have hnext : Annotated d₁ d₂ := by
    rcases notes_importReference hstep with hnotes | ⟨foreign, hfind, hrefusal, hnotes⟩
    · exact .of_notes hself hnotes
    · exact (Annotated.of_absorb hself (hmapped _ (Library.mem_of_find? hfind)) hrefusal hnotes).1
  exact ⟨hnext.kind_eq.trans hd₁.kind_eq, hd₁.noted.trans hnext.noted⟩

theorem noted_initial {names : Interner} {id : TableId} {config : CheckConfig} {m : Module} :
    (initial names id config m).table.Noted (initial names id config m).table := by
  have hnotes := Table.notes_create names id m.name m.kind m.file
  refine ⟨?_, (Table.dependencies_create ..).1, fun _ h => h, fun _ h => h⟩
  rw [show (initial names id config m).table.literals = ∅ from congrArg Notes.literals hnotes]
  exact List.Pairwise.nil

end Draft

/-! ## Namespaces -/

namespace Table

variable {names : Interner} {foreign t : Table} {base : NamespaceId} {homes : List NamespaceId}
  {i : Nat}

/-- Where the next foreign path leads on already, no namespace is created. -/
theorem Recreated.childNamespace_eq (h : Recreated names foreign base t t homes i)
    (hforeign : foreign.Tree) (hi : 0 < i) (hns : foreign.HasNamespace ⟨i⟩) {home : NamespaceId}
    (hhome : t.descend? base (foreign.path ⟨i⟩) = some home) :
    (t.childNamespace (((foreign.namespaceAt ⟨i⟩).parent.bind fun p => homes[p.index]?).getD base)
      (foreign.namespaceAt ⟨i⟩).name).2 = t := by
  obtain ⟨p, hp, hget, hleads⟩ := h.parent hforeign hi hns
  rw [hforeign.path_of_parent hp, descend?_append, hleads, Option.bind_some,
    descend?_singleton] at hhome
  rw [hp, Option.bind_some, hget, Option.getD_some, childNamespace, hhome]

/-- Where all foreign paths lead on already, none is created. -/
theorem Recreated.rest_eq (hforeign : foreign.Tree) (hbase : t.HasNamespace base)
    (hlaid : ∀ {ns}, foreign.HasNamespace ns → ∃ home,
      t.descend? base (foreign.path ns) = some home)
    {rest : List Namespace} (hi : 0 < i) (hrest : foreign.namespaces.toList.drop i = rest)
    (h : Recreated names foreign base t t homes i) :
    (rest.foldl (fun (homes, t) node =>
      let parent := (node.parent.bind fun p => homes[p.index]?).getD base
      let (home, t) := t.childNamespace parent node.name
      (homes ++ [home], t)) (homes, t)).2 = t := by
  induction rest generalizing i homes with
  | nil => rfl
  | cons node rest ih =>
      obtain ⟨hns, hnode, hdrop⟩ := hasNamespace_of_drop_eq_cons hrest
      obtain ⟨home, hhome⟩ := hlaid hns
      have hsame := h.childNamespace_eq hforeign hi hns hhome
      have hstep := h.step hforeign hbase hi hns
      rw [hsame, hnode] at hstep
      rw [hnode] at hsame
      rw [List.foldl_cons]
      dsimp only
      rw [hsame]
      exact ih (Nat.succ_pos i) hdrop hstep

theorem Received.recreateNamespaces_eq (h : foreign.Received t base) (hforeign : foreign.Tree)
    (ht : t.Regular names) : (t.recreateNamespaces base foreign).2 = t :=
  Recreated.rest_eq hforeign h.hasNamespace h.laid Nat.one_pos rfl
    (ht.recreated_first hforeign base)

end Table

/-! ## Symbols -/

namespace Importing

variable {tables : List Table} {imp : Importing} {base : NamespaceId} {start d : Draft}
  {links : Links} {r : SymbolId}

theorem created_linkBuiltin (s : Symbol) (links : Links) (d : Draft) :
    (linkBuiltin s links d).created = links.created := by
  unfold linkBuiltin
  split <;> rfl

/-- Placing a symbol of a table that is received finds what is there. -/
theorem Arranged.place_of_received (h : Arranged tables imp base start)
    (hreceived : imp.foreign.Received start.table base) (hr : imp.foreign.Holds r)
    (hd : d.table = start.table) : ∃ links',
      imp.place (imp.foreign.symbolAt r) links d = (links', d) ∧ links'.created =
        links.created := by
  cases hfind : (links.find? r).isSome with
  | true =>
      rw [Importing.place, h.trusted.formed.arena.id_eq hr, if_pos hfind]
      exact ⟨links, rfl, rfl⟩
  | false =>
      by_cases hbuiltin : imp.foreign.IsBuiltin start.table base r
      · exact ⟨_, h.place_of_isBuiltin hr hfind hbuiltin, created_linkBuiltin ..⟩
      · rcases h.place_cases (d := d) hr hfind with
          ⟨-, heq⟩ | ⟨hbase, hlanding, -⟩ | ⟨home, hwanted, -, hlanding, heq⟩
        · exact ⟨links, heq, rfl⟩
        · exact absurd ⟨hbase, hlanding⟩ hbuiltin
        · obtain ⟨x, -, hlinked, hmatches⟩ :=
            hreceived.matched hr hwanted.1 hwanted.2 hbuiltin
          have hfound := hlinked.found
          rw [Table.relocate?_of_not_sort hwanted.dataOf?, Table.place?, hlanding,
            Option.bind_some] at hfound
          rw [heq, cloneInto, hd, hfound]
          simp only [isSame_iff.2 hmatches, if_true, foldl_link]
          exact ⟨_, rfl, rfl⟩

end Importing

namespace Draft

variable {tables : List Table} {start d d' : Draft} {foreign : Table} {rename : Option Name}
  {span : Span} {base : NamespaceId}

/-- Nothing went on but the clock. -/
def Still (start d : Draft) : Prop := d.names = start.names ∧ d.table = start.table

theorem Still.eq (h : Still start d) : d = { start with clock := d.clock } := by
  obtain ⟨names, table, clock⟩ := d
  obtain ⟨rfl, rfl⟩ := h
  rfl

/-- Placing the symbols of a table that is received clones none. -/
theorem safe_place_received {imp : Importing}
    (h : Importing.Arranged tables imp base start)
    (hreceived : imp.foreign.Received start.table base) :
    Safe (Still start) (Still start) (imp.foreign.symbols.toList.foldlM imp.placeStep {})
      fun links d => Still start d ∧ links.created = [] := by
  let motive (_ : List Symbol) (links : Links) (d : Draft) : Prop :=
    Still start d ∧ links.created = []
  refine (safe_foldlM (motive := motive) (fun done links s rest hall => ?_) {}).imp
    (fun d hd => ⟨hd, rfl⟩) fun _ _ hd => hd
  have hs : s ∈ imp.foreign.symbols.toList := by
    rw [hall]
    exact List.mem_append_right _ List.mem_cons_self
  obtain ⟨r, hr, rfl⟩ := Table.mem_symbols_toList.1 hs
  refine Safe.bind (Q := fun _ => motive done links) ?_ fun _ => ?_
  · exact safe_tick_of (fun d clock hd => hd) fun d hd => hd.1
  · refine safe_modifyGet fun d hd => ?_
    obtain ⟨links', heq, hcreated⟩ := h.place_of_received hreceived hr hd.1.2
    rw [heq]
    exact ⟨hd.1, hcreated.trans hd.2⟩

/-- Where the foreign table is received and noted, taking it in once more clones nothing. -/
theorem safe_takeIn_received (h : start.Assembled tables) (hmem : foreign ∈ tables)
    (hvalid : foreign.isValid = true) (hnoted : foreign.Noted start.table)
    (hdescend : start.table.descend? .root rename.toList = some base)
    (hreceived : foreign.Received start.table base) :
    Safe (Still start) (Still start) (takeIn foreign rename span)
      fun links d => Still start d ∧ links.created = [] := by
  have hregular := h.formed.toRegular
  have hforeign := (h.archive.trusted hmem hvalid).formed.tree
  refine Safe.bind (Q := fun _ => Still start) ?_ fun _ => ?_
  · exact safe_modifyTable fun d hd => ⟨hd.1, by rw [hd.2]; exact hnoted.absorb_eq⟩
  refine Safe.bind (Q := fun homes d => Still start d ∧
    Table.Recreated start.names foreign base start.table start.table homes
      foreign.namespaces.size) ?_ fun homes => ?_
  · have hrecreated := Table.recreated_recreateNamespaces hforeign hregular hreceived.hasNamespace
    have hsame := hreceived.recreateNamespaces_eq hforeign hregular
    rw [hsame] at hrecreated
    have hdestination : start.table.destination rename = (base, start.table) := by
      cases rename with
      | none => exact congrArg (·, start.table) (Option.some.inj hdescend)
      | some name =>
          rw [Option.toList_some, Table.descend?_singleton] at hdescend
          rw [Table.destination, Table.childNamespace, hdescend]
    refine safe_modifyGet fun d hd => ?_
    obtain ⟨names, table, clock⟩ := d
    obtain ⟨rfl, rfl⟩ := hd
    change Still start { start with
        table := ((start.table.destination rename).2.recreateNamespaces
          (start.table.destination rename).1 foreign).2, clock } ∧
      Table.Recreated start.names foreign base start.table start.table
        ((start.table.destination rename).2.recreateNamespaces
          (start.table.destination rename).1 foreign).1 foreign.namespaces.size
    rw [hdestination]
    exact ⟨⟨rfl, hsame⟩, hrecreated⟩
  refine safe_getTable_bind fun t => ?_
  rintro d ⟨⟨hstill, hrecreated⟩, -⟩
  have hprep := h.prepared hmem hvalid hreceived.hasNamespace hrecreated ⟨t.file, span⟩
  exact safe_place_received hprep.arranged hreceived d hstill

/-- Without clones there is nothing to write. -/
theorem safe_finish_of_created {links : Links} (hcreated : links.created = []) :
    Safe (Still start) (Still start) (finish foreign rename links) fun _ => Still start := by
  refine Safe.bind (Q := fun _ => Still start) ?_ fun _ => ?_
  · refine safe_tryModifyTable fun d hd => ⟨d.table, ?_, hd⟩
    rw [hcreated]
    rfl
  refine safe_getNames_bind fun names => safe_tryModifyTable fun d hd => ⟨d.table, ?_, hd.1⟩
  rw [hcreated]
  rfl

/-- Importing a table that is received and noted does nothing. -/
theorem safe_embed_received (h : start.Assembled tables) (hmem : foreign ∈ tables)
    (hvalid : foreign.isValid = true) (hnoted : foreign.Noted start.table)
    (hdescend : start.table.descend? .root rename.toList = some base)
    (hreceived : foreign.Received start.table base) :
    Safe (Still start) (Still start) (embed foreign rename span) fun _ => Still start := by
  rw [embed_eq]
  refine (safe_takeIn_received h hmem hvalid hnoted hdescend hreceived).bind fun links d hd => ?_
  exact safe_finish_of_created hd.2 d hd.1

/-! ## The second import -/

variable {names : Interner} {id : TableId} {library : Library} {config : CheckConfig} {m : Module}
  {references later : List ModuleRef} {reference : ModuleRef} {d₁ d₂ : Draft}

/-- What was imported without errors is received and noted from then on. -/
theorem received_of_imports (session : Session names tables)
    (held : ∀ entry ∈ library.tables, entry.2 ∈ tables)
    (reached : references.forM (importReference library m) (initial names id config m) = .ok () d)
    (checked : foreign ∈ tables) (ran : importModule reference foreign d = .ok () d₁)
    (more : later.forM (importReference library m) d₁ = .ok () d₂)
    (clean : d₂.table.hasErrors = false) :
    Since tables d₁ d₂ ∧
      (∃ base, d₂.table.descend? .root reference.rename.toList = some base ∧
        foreign.Received d₂.table base) ∧
      foreign.Noted d₂.table ∧ d₂.table.importRefusal? d₂.names reference foreign = none := by
  obtain ⟨hnames, harchive⟩ := session.archive
  have hmapped : ∀ entry ∈ library.tables, entry.2.Mapped := fun entry hentry =>
    session.mapped _ (held entry hentry)
  have hlater := (proceeds_forM (l := later) fun r _ =>
      proceeds_importReference library m r).ok more
  have hclean₁ := hlater.table.hasErrors_eq_false clean
  have himport := (proceeds_importModule reference foreign).ok ran
  have hassembled := (establishes_imports held m references).run
    (assembled_initial hnames harchive) reached (himport.table.hasErrors_eq_false hclean₁)
  have hrefusal := importRefusal?_eq_none_of_clean ran hclean₁
  -- the first import receives the foreign table, and what comes next keeps it
  obtain ⟨_, hsince, base, hdescend, hreceived, -⟩ :=
    (establishes_importModule_received reference checked).run
      (⟨hassembled, .refl _⟩ : Since tables d d) ran hclean₁
  have hsince₂ := (establishes_imports_since held m later).run
    (⟨hsince.toAssembled, .refl _⟩ : Since tables d₁ d₁) more clean
  -- the same for literals and dependencies
  have hd := (annotated_imports hmapped noted_initial reached).noted.self
  rw [importModule_eq_embed hrefusal] at ran
  obtain ⟨hannotated, hnoted⟩ :=
    Annotated.of_absorb hd (session.mapped _ checked) hrefusal (notes_embed ran)
  have hannotated₂ := annotated_imports hmapped hnoted.self more
  have hnoted₂ := hnoted.trans hannotated₂.noted
  refine ⟨hsince₂, ⟨base, hsince₂.later.descend? hdescend, hreceived.later hsince₂.later⟩,
    hnoted₂, ?_⟩
  exact hnoted₂.importRefusal?_eq_none (hannotated₂.kind_eq.trans hannotated.kind_eq)
    (himport.grown.trans hlater.grown) hrefusal

/-- After an import without errors, the same import changes nothing but the clock, whatever was
imported without errors in between; at most it is cancelled. -/
theorem importModule_again (session : Session names tables)
    (held : ∀ entry ∈ library.tables, entry.2 ∈ tables)
    (reached : references.forM (importReference library m) (initial names id config m) = .ok () d)
    (checked : foreign ∈ tables) (ran : importModule reference foreign d = .ok () d₁)
    (more : later.forM (importReference library m) d₁ = .ok () d₂)
    (clean : d₂.table.hasErrors = false) :
    ∃ clock, importModule reference foreign d₂ = .ok () { d₂ with clock } ∨
      importModule reference foreign d₂ = .error .cancelled { d₂ with clock } ∧
        ¬ d₂.clock.Patient := by
  obtain ⟨hsince, ⟨base, hdescend, hreceived⟩, hnoted, hrefusal⟩ :=
    received_of_imports session held reached checked ran more clean
  have hvalid := Table.isValid_of_importRefusal? hrefusal
  have hsafe : Safe (Still d₂) (Still d₂) (embed foreign reference.rename reference.span)
      fun _ => Still d₂ :=
    safe_embed_received hsince.toAssembled checked hvalid hnoted hdescend hreceived
  have hunhurried := unhurried_embed foreign reference.rename reference.span
  rw [importModule_eq_embed hrefusal]
  rcases hsafe d₂ ⟨rfl, rfl⟩ with ⟨⟨⟩, d₃, hrun, hstill⟩ | ⟨d₃, hrun, hstill⟩
  · exact ⟨d₃.clock, .inl (hstill.eq ▸ hrun)⟩
  · exact ⟨d₃.clock, .inr ⟨hstill.eq ▸ hrun, fun hpatient =>
      hunhurried.not_cancelled hpatient hrun⟩⟩

end Draft

/-! ## A declaration that comes twice, and then again -/

namespace Diamond

/-- Whether `H` and then `G` can be included after the table of `P` has got this far. -/
def goesOn (foreign? : Option Table) (first : EStateM.Result Abort Draft Unit) : Bool :=
  match foreign?, first with
  | some foreign, .ok _ d =>
      match Draft.importModule plain foreign d with
      | .ok _ d₁ =>
          match [renamed].forM (Draft.importReference library importer) d₁ with
          | .ok _ d₂ => !d₂.table.hasErrors
          | .error .. => false
      | .error .. => false
  | _, _ => false

theorem exists_of_goesOn {foreign? : Option Table} {first : EStateM.Result Abort Draft Unit}
    (h : goesOn foreign? first = true) : ∃ foreign d d₁ d₂, foreign? = some foreign ∧
      first = .ok () d ∧ Draft.importModule plain foreign d = .ok () d₁ ∧
      [renamed].forM (Draft.importReference library importer) d₁ = .ok () d₂ ∧
      d₂.table.hasErrors = false := by
  unfold goesOn at h
  split at h
  · split at h
    · split at h
      · exact ⟨_, _, _, _, rfl, rfl, ‹_›, ‹_›, by simpa using h⟩
      · cases h
    · cases h
  · cases h

theorem goesOn_afterFirst : goesOn session.2[1]? afterFirst = true := by decide +kernel

/-- `P` includes `G`, `H` and `G` once more; then `H` brings nothing new. -/
theorem importModule_again_diamond : ∃ foreign ∈ session.2, ∃ d d₁ d₂,
    [renamed].forM (Draft.importReference library importer)
        (.initial session.1 ⟨2⟩ {} importer) = .ok () d ∧
      Draft.importModule plain foreign d = .ok () d₁ ∧
      [renamed].forM (Draft.importReference library importer) d₁ = .ok () d₂ ∧
      d₂.table.hasErrors = false ∧
      ∃ clock, Draft.importModule plain foreign d₂ = .ok () { d₂ with clock } ∨
        Draft.importModule plain foreign d₂ = .error .cancelled { d₂ with clock } ∧
          ¬ d₂.clock.Patient := by
  obtain ⟨foreign, d, d₁, d₂, hforeign, hfirst, hrun, hmore, hclean⟩ :=
    exists_of_goesOn goesOn_afterFirst
  have hmem := List.mem_of_getElem? hforeign
  exact ⟨foreign, hmem, d, d₁, d₂, hfirst, hrun, hmore, hclean,
    Draft.importModule_again (session_checkAll _ modules) (fun _ => Library.mem_of) hfirst hmem
      hrun hmore hclean⟩

end Diamond

end ManySorted
