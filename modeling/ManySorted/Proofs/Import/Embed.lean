import ManySorted.Proofs.Import.Assembly
import ManySorted.Proofs.Import.Refusal

/-!
# An import as a whole

The namespaces of the foreign table are recreated so that every foreign path leads on from the
destination (`Table.Recreated`); then the symbols are placed and written.  An import that reports no
error leaves the foreign table embedded at its destination and the table ready for the next import
(`Draft.Assembled.embed`, `Draft.Assembled.importModule`).

## Strategy

* **Namespaces.**  They are recreated in their order, so the parent of each was recreated before
  (`Table.Recreated.parent`, `Table.Recreated.step`).  At first there is the root, whose counterpart
  is the destination (`Table.Regular.recreated_first`).
* **Symbols.**  They are placed one after the other, and then written (`Draft.PlacedAt.landed`).
* **All imports.**  An import that reports no error leaves the table ready for the next one
  (`Draft.establishes_importModule`), and a new table has nothing to trace back
  (`Draft.assembled_initial`).  So imports without errors put a table together
  (`Draft.establishes_imports`).
-/

namespace ManySorted

namespace Table

variable {names : Interner} {tables : List Table} {foreign start t : Table} {base : NamespaceId}
  {homes : List NamespaceId} {i : Nat}

/-! ## Namespaces -/

/-- The first `i` namespaces of the foreign table are recreated below `base`. -/
structure Recreated (names : Interner) (foreign : Table) (base : NamespaceId) (start t : Table)
    (homes : List NamespaceId) (i : Nat) : Prop where
  length : homes.length = i
  regular : t.Regular names
  later : start.Later t
  symbols_eq : t.symbols = start.symbols
  leads : ∀ {ns}, foreign.HasNamespace ns → ns.index < i →
    t.descend? base (foreign.path ns) = some (homes.getD ns.index .root)

/-- The parent of the next namespace was recreated before. -/
theorem Recreated.parent (h : Recreated names foreign base start t homes i)
    (hforeign : foreign.Tree) (hi : 0 < i) (hns : foreign.HasNamespace ⟨i⟩) :
    ∃ p, (foreign.namespaceAt ⟨i⟩).parent = some p ∧
      homes[p.index]? = some (homes.getD p.index .root) ∧
      t.descend? base (foreign.path p) = some (homes.getD p.index .root) := by
  have hroot : (⟨i⟩ : NamespaceId) ≠ .root := by
    intro heq
    exact Nat.ne_of_gt hi (congrArg NamespaceId.index heq)
  obtain ⟨p, hp⟩ := hforeign.parent hns hroot
  have hlt : p.index < i := hforeign.parent_lt hp
  refine ⟨p, hp, ?_, h.leads (hforeign.hasNamespace_parent hp) hlt⟩
  rw [List.getD_eq_getElem?_getD, List.getElem?_eq_getElem (h.length.symm ▸ hlt)]
  rfl

/-- One more namespace. -/
theorem Recreated.step (h : Recreated names foreign base start t homes i)
    (hforeign : foreign.Tree) (hbase : start.HasNamespace base) (hi : 0 < i)
    (hns : foreign.HasNamespace ⟨i⟩) :
    Recreated names foreign base start
      (t.childNamespace (((foreign.namespaceAt ⟨i⟩).parent.bind fun p => homes[p.index]?).getD base)
        (foreign.namespaceAt ⟨i⟩).name).2
      (homes ++ [(t.childNamespace
        (((foreign.namespaceAt ⟨i⟩).parent.bind fun p => homes[p.index]?).getD base)
        (foreign.namespaceAt ⟨i⟩).name).1]) (i + 1) := by
  obtain ⟨p, hp, hget, hleads⟩ := h.parent hforeign hi hns
  rw [hp, Option.bind_some, hget, Option.getD_some]
  have hparent : t.HasNamespace (homes.getD p.index .root) :=
    h.regular.tree.hasNamespace_of_descend? (h.later.hasNamespace hbase) hleads
  obtain ⟨hregular, hlater, hchild, hsymbols⟩ := h.regular.childNamespace hparent
    (foreign.namespaceAt ⟨i⟩).name
  refine ⟨by simp [h.length], hregular, h.later.trans hlater, hsymbols.trans h.symbols_eq,
    fun {ns} hns' hle => ?_⟩
  rcases Nat.lt_succ_iff_lt_or_eq.1 hle with hold | hnew
  · rw [hlater.descend? (h.leads hns' hold), List.getD_eq_getElem?_getD,
      List.getD_eq_getElem?_getD, List.getElem?_append_left (h.length.symm ▸ hold)]
  · obtain rfl : ns = ⟨i⟩ := by
      cases ns
      exact congrArg NamespaceId.mk hnew
    rw [hforeign.path_of_parent hp, descend?_append, hlater.descend? hleads, Option.bind_some,
      descend?_singleton, hchild]
    simp [List.getD_eq_getElem?_getD, ← h.length]

/-- What is left without the first `i` namespaces begins with the `i`-th. -/
theorem hasNamespace_of_drop_eq_cons {node : Namespace} {rest : List Namespace}
    (h : t.namespaces.toList.drop i = node :: rest) :
    t.HasNamespace ⟨i⟩ ∧ t.namespaceAt ⟨i⟩ = node ∧ t.namespaces.toList.drop (i + 1) = rest := by
  have hget : t.namespaces[i]? = some node := by
    rw [← Array.getElem?_toList, ← List.head?_drop, h]
    rfl
  refine ⟨(Array.getElem?_eq_some_iff.1 hget).1, by simp [namespaceAt, hget], ?_⟩
  rw [← List.drop_drop, h]
  rfl

/-- The namespaces from the `i`-th on are recreated one after the other. -/
theorem Recreated.rest (hforeign : foreign.Tree) (hbase : start.HasNamespace base)
    {rest : List Namespace} (hi : 0 < i) (hrest : foreign.namespaces.toList.drop i = rest)
    (h : Recreated names foreign base start t homes i) :
    Recreated names foreign base start
      (rest.foldl (fun (homes, t) node =>
        let parent := (node.parent.bind fun p => homes[p.index]?).getD base
        let (home, t) := t.childNamespace parent node.name
        (homes ++ [home], t)) (homes, t)).2
      (rest.foldl (fun (homes, t) node =>
        let parent := (node.parent.bind fun p => homes[p.index]?).getD base
        let (home, t) := t.childNamespace parent node.name
        (homes ++ [home], t)) (homes, t)).1 (i + rest.length) := by
  induction rest generalizing i homes t with
  | nil => exact h
  | cons node rest ih =>
      obtain ⟨hns, hnode, hdrop⟩ := hasNamespace_of_drop_eq_cons hrest
      have hstep := h.step hforeign hbase hi hns
      rw [hnode] at hstep
      rw [List.foldl_cons, List.length_cons, Nat.add_comm rest.length, ← Nat.add_assoc]
      exact ih (Nat.succ_pos i) hdrop hstep

/-- At first the root is recreated. -/
theorem Regular.recreated_first (ht : t.Regular names) (hforeign : foreign.Tree)
    (base : NamespaceId) : Recreated names foreign base t t [base] 1 := by
  refine ⟨rfl, ht, .refl t, rfl, fun {ns} hns hlt => ?_⟩
  obtain rfl : ns = .root := by
    cases ns
    exact congrArg NamespaceId.mk (Nat.lt_one_iff.1 hlt)
  rw [hforeign.path_root]
  rfl

/-- All namespaces are recreated, in their order. -/
theorem recreated_recreateNamespaces (hforeign : foreign.Tree) (ht : t.Regular names)
    (hbase : t.HasNamespace base) :
    Recreated names foreign base t (t.recreateNamespaces base foreign).2
      (t.recreateNamespaces base foreign).1 foreign.namespaces.size := by
  have hsize : 0 < foreign.namespaces.size := hforeign.root
  have hlength : 1 + (foreign.namespaces.toList.drop 1).length = foreign.namespaces.size := by
    rw [List.length_drop, Array.length_toList]
    omega
  exact hlength ▸ (ht.recreated_first hforeign base).rest hforeign hbase Nat.one_pos rfl

/-! ## The run -/

/-- The namespace that an import goes to, which is created if there is none. -/
def destination (t : Table) : Option Name → NamespaceId × Table
  | some name => t.childNamespace .root name
  | none => (.root, t)

/-- The destination of an import is found by its renaming. -/
theorem Regular.destination (h : t.Regular names) (rename : Option Name) :
    ∃ base t', t.destination rename = (base, t') ∧ t'.symbols = t.symbols ∧ t'.Regular names ∧
      t.Later t' ∧ t'.HasNamespace base ∧ t'.descend? .root rename.toList = some base := by
  have hroot := h.tree.root
  cases rename with
  | none => exact ⟨.root, t, rfl, rfl, h, .refl _, hroot, rfl⟩
  | some name =>
      obtain ⟨hregular, hlater, hchild, hsymbols⟩ := h.childNamespace hroot name
      have hdescend : (t.childNamespace .root name).2.descend? .root [name] =
          some (t.childNamespace .root name).1 := by rw [descend?_singleton, hchild]
      exact ⟨_, _, rfl, hsymbols, hregular, hlater,
        hregular.tree.hasNamespace_of_descend? (hlater.hasNamespace hroot) hdescend, hdescend⟩

/-- The namespaces of the foreign table are recreated below the destination of an import. -/
structure Laid (names : Interner) (foreign : Table) (rename : Option Name) (t t' : Table)
    (homes : List NamespaceId) : Prop where
  symbols_eq : t'.symbols = t.symbols
  regular : t'.Regular names
  later : t.Later t'
  recreated : ∃ start base, start.HasNamespace base ∧
    t'.descend? .root rename.toList = some base ∧
    Recreated names foreign base start t' homes foreign.namespaces.size

theorem Regular.laid (h : t.Regular names) (hforeign : foreign.Tree) (rename : Option Name) :
    let (destination, table) := t.destination rename
    Laid names foreign rename t (table.recreateNamespaces destination foreign).2
      (table.recreateNamespaces destination foreign).1 := by
  obtain ⟨base, t', heq, hsymbols, hregular, hlater, hbase, hdescend⟩ := h.destination rename
  rw [heq]
  have hrecreated := recreated_recreateNamespaces hforeign hregular hbase
  exact ⟨hrecreated.symbols_eq.trans hsymbols, hrecreated.regular, hlater.trans hrecreated.later,
    t', base, hbase, hrecreated.later.descend? hdescend, hrecreated⟩

end Table

theorem Library.mem_of_find? {library : Library} {module : Name} {t : Table}
    (h : library.find? module = some t) : (module, t) ∈ library.tables := by
  obtain ⟨before, after, heq, _⟩ := List.lookup_eq_some_iff.1 h
  rw [heq]
  simp

namespace Draft

variable {tables : List Table} {d : Draft} {foreign : Table} {rename : Option Name} {span : Span}

/-- What happens to namespaces and other things leaves the symbols as they are. -/
theorem Assembled.of_later (h : d.Assembled tables) {t : Table}
    (hsymbols : t.symbols = d.table.symbols)
    (hregular : t.Regular d.names) (hlater : d.table.Later t) :
    Assembled tables { d with table := t } := by
  have hat : ∀ x, t.symbolAt x = d.table.symbolAt x := fun x => by
    rw [Table.symbolAt, Table.symbolAt, hsymbols]
  have hholds : ∀ x, t.Holds x ↔ d.table.Holds x := fun x => by
    rw [Table.Holds, Table.Holds, hsymbols]
  refine ⟨h.archive, h.formed.later hlater hregular, h.provenance.later hlater ?_,
    fun {x} hx => ?_, fun {x} hx => ?_⟩
  · exact fun x hx hold => absurd ((hholds x).1 hx) hold
  · exact (congrArg Symbol.isSettled (hat x)).trans (h.settled ((hholds x).1 hx))
  · exact (congrArg Symbol.failed (hat x)).trans (h.unfailed ((hholds x).1 hx))

/-- The clock plays no part. -/
theorem Assembled.of_clock (h : d.Assembled tables) (clock : Clock) :
    Assembled tables { d with clock } := { h with }

/-- What an import leaves behind: the foreign table stands below its destination. -/
structure Landed (tables : List Table) (foreign : Table) (rename : Option Name) (d : Draft) : Prop
    extends d.Assembled tables where
  imported : ∃ base ρ, d.table.descend? .root rename.toList = some base ∧
    foreign.Imported d.table base ρ

theorem Assembled.prepared (h : d.Assembled tables) (hmem : foreign ∈ tables)
    (hvalid : foreign.isValid = true) {start : Table} {base : NamespaceId}
    {homes : List NamespaceId} (hbase : start.HasNamespace base)
    (hrecreated : Table.Recreated d.names foreign base start d.table homes foreign.namespaces.size)
    (location : Location) : Importing.Prepared tables { foreign, location, homes } base d where
  toAssembled := h
  mem := hmem
  valid := hvalid
  base_mem := hrecreated.later.hasNamespace hbase
  homes hns := hrecreated.leads hns hns

/-- The foreign symbols are placed below the destination of an import. -/
def PlacedAt (tables : List Table) (imp : Importing) (rename : Option Name) (links : Links)
    (d : Draft) : Prop :=
  ∃ base start, Importing.Prepared tables imp base start ∧
    start.table.descend? .root rename.toList = some base ∧ Importing.Placed imp base start links d

theorem PlacedAt.landed {imp : Importing} {links : Links} {t' : Table}
    (h : PlacedAt tables imp rename links d)
    (hfill : links.created.reverse.foldlM (Importing.fillClone imp.foreign links)
      d.table = .ok t') :
    Landed tables imp.foreign rename { d with table := t' } := by
  obtain ⟨base, start, hprep, hdescend, hplaced⟩ := h
  obtain ⟨htouched, _⟩ := hplaced.filled hfill
  exact ⟨hplaced.assembled hprep hfill, base, _,
    (hplaced.later_filled htouched).descend? hdescend, hplaced.imported hprep hfill⟩

/-- Importing a valid table, if it reports no error. -/
theorem establishes_embed (hmem : foreign ∈ tables) (hvalid : foreign.isValid = true) :
    Establishes (Assembled tables) (embed foreign rename span)
      fun _ => Landed tables foreign rename := by
  refine Establishes.bind (Q := fun _ => Assembled tables) ?_ fun _ => ?_
  · refine establishes_modify (proceeds_absorb foreign) fun d hd _ => hd.of_later rfl ?_ ?_
    · exact hd.formed.toRegular.of_eq rfl rfl
    · exact .of_eq rfl rfl rfl
  refine Establishes.bind (Q := fun homes d => Assembled tables d ∧
    ∃ t, Table.Laid d.names foreign rename t d.table homes) ?_ fun homes => ?_
  · refine establishes_modifyGet (proceeds_layOut foreign rename) fun d hd _ => ?_
    have hlaid := hd.formed.toRegular.laid (hd.archive.trusted hmem hvalid).formed.tree rename
    cases rename <;>
      exact ⟨hd.of_later hlaid.symbols_eq hlaid.regular hlaid.later, d.table, hlaid⟩
  refine establishes_getTable_bind fun t => ?_
  refine Establishes.bind
    (Q := PlacedAt tables { foreign, location := ⟨t.file, span⟩, homes } rename) ?_ fun links => ?_
  · refine ⟨proceeds_foldlM _ (proceeds_placeStep _) _, fun {d links d'} hd hrun hclean => ?_⟩
    obtain ⟨⟨hassembled, _, hlaid⟩, _⟩ := hd
    obtain ⟨start, base, hbase, hdescend, hrecreated⟩ := hlaid.recreated
    have hprep := hassembled.prepared hmem hvalid hbase hrecreated ⟨t.file, span⟩
    exact ⟨base, d, hprep, hdescend, hprep.establishes_placed.run ⟨rfl, rfl⟩ hrun hclean⟩
  refine Establishes.bind (Q := fun _ => Landed tables foreign rename) ?_ fun _ => ?_
  · exact establishes_tryModifyTable (proceeds_fillClones ..) fun d table hd hfill _ =>
      hd.landed hfill
  refine establishes_getNames_bind fun names => ?_
  refine establishes_tryModifyTable (proceeds_verify ..) fun d table hd hverify _ => ?_
  obtain ⟨_, _, hreturn⟩ := except_bind_eq_ok.1 hverify
  cases hreturn
  exact hd.1

/-- An import that reports no error goes through. -/
theorem establishes_importModule (reference : ModuleRef) (hmem : foreign ∈ tables) :
    Establishes (Assembled tables) (importModule reference foreign) fun _ d =>
      Landed tables foreign reference.rename d ∧ foreign.isValid = true := by
  refine establishes_get_bind fun start => ?_
  cases hrefusal : start.table.importRefusal? start.names reference foreign with
  | some problem =>
      refine ⟨proceeds_report .., fun {d a d'} hd hrun hclean => ?_⟩
      have hwarning := Table.isWarning_of_importRefusal? hrefusal
      cases hrun
      rw [Table.hasErrors_report, Report.isWarning, hwarning, Bool.or_eq_false_iff] at hclean
      cases hclean.2
  | none =>
      have hvalid := Table.isValid_of_importRefusal? hrefusal
      exact (establishes_embed hmem hvalid).imp (fun d hd => hd.1) fun _ d hd => ⟨hd, hvalid⟩

/-! ## References -/

/-- A reference without problems names a table of the library. -/
theorem find?_of_importReference {library : Library} {m : Module} {reference : ModuleRef}
    {d' : Draft} (hrun : importReference library m reference d = .ok () d')
    (hclean : d'.table.hasErrors = false) : ∃ foreign, library.find? reference.module =
      some foreign := by
  obtain ⟨_, _, -, hrun⟩ := bind_eq_ok.1 hrun
  obtain ⟨_, _, -, hrun⟩ := bind_eq_ok.1 hrun
  cases hfind : library.find? reference.module with
  | some foreign => exact ⟨foreign, rfl⟩
  | none =>
      rw [hfind] at hrun
      cases hrun
      rw [Table.hasErrors_report, Bool.or_eq_false_iff] at hclean
      cases hclean.2

/-- What a reference without problems does is an import, some time later. -/
theorem embed_of_importReference {library : Library} {m : Module} {reference : ModuleRef}
    {d' : Draft}
    (hfind : library.find? reference.module = some foreign)
    (hrun : importReference library m reference d = .ok () d')
    (hclean : d'.table.hasErrors = false) :
    d.table.importRefusal? d.names reference foreign = none ∧
      ∃ clock, embed foreign reference.rename reference.span { d with clock } = .ok () d' := by
  obtain ⟨_, ticked, htick, hrun⟩ := bind_eq_ok.1 hrun
  have hticked : ticked = { d with clock := d.clock.advance } := by
    rw [tick_eq] at htick
    split at htick <;> cases htick
    rfl
  obtain ⟨_, requested, hrequest, hrun⟩ := bind_eq_ok.1 hrun
  cases hrequest
  rw [hfind, hticked] at hrun
  dsimp only at hrun
  rw [importModule, get_bind] at hrun
  cases hrefusal : d.table.importRefusal? d.names reference foreign with
  | some problem =>
      have hwarning := Table.isWarning_of_importRefusal? hrefusal
      rw [hrefusal] at hrun
      cases hrun
      rw [Table.hasErrors_report, Report.isWarning, hwarning, Bool.or_eq_false_iff] at hclean
      cases hclean.2
  | none =>
      rw [hrefusal] at hrun
      exact ⟨rfl, _, hrun⟩

/-! ## All imports of a module -/

/-- A new table has nothing to trace back. -/
theorem assembled_initial {names : Interner} {id : TableId} {config : CheckConfig} {m : Module}
    (hnames : names.Proper) (harchive : Table.Archive names tables) :
    (initial names id config m).Assembled tables := by
  obtain ⟨hformed, hgrown⟩ := Table.wellFormed_create hnames id m.name m.kind m.file
  refine ⟨harchive.grown hgrown hformed.proper, hformed,
    ⟨fun hx _ => (Table.builtin_of_create hx).2.1, fun hx horigin => ?_,
      fun hx horigin _ => ?_, fun hx himported _ => ?_,
      fun hx _ => (Table.builtin_of_create hx).2.2.2.canonical⟩,
    fun hx => Symbol.isSettled_of_isBase (Table.builtin_of_create hx).1,
    fun hx => (Table.builtin_of_create hx).2.2.2.unfailed⟩
  · cases horigin.symm.trans (Table.builtin_of_create hx).2.2.1
  · cases horigin.symm.trans (Table.builtin_of_create hx).2.2.1
  · rw [Symbol.isImported] at himported
    cases himported.symm.trans (congrArg _ (Table.builtin_of_create hx).2.2.1)

theorem establishes_importReference {library : Library}
    (hlibrary : ∀ entry ∈ library.tables, entry.2 ∈ tables) (m : Module) (reference : ModuleRef) :
    Establishes (Assembled tables) (importReference library m reference)
      fun _ => Assembled tables := by
  refine Establishes.bind (Q := fun _ => Assembled tables) ?_ fun _ => ?_
  · exact establishes_tick fun d hd => hd.of_clock _
  refine Establishes.bind (Q := fun _ => Assembled tables) ?_ fun _ => ?_
  · exact establishes_modify proceeds_request fun d hd _ => hd.of_clock _
  cases hfind : library.find? reference.module with
  | some foreign =>
      have hmem := hlibrary _ (Library.mem_of_find? hfind)
      exact (establishes_importModule reference hmem).imp (fun _ hd => hd)
        fun _ _ hd => hd.1.toAssembled
  | none =>
      refine establishes_getNames_bind fun names => ?_
      refine ⟨proceeds_report .., fun {d a d'} _ hrun hclean => ?_⟩
      cases hrun
      rw [Table.hasErrors_report, Bool.or_eq_false_iff] at hclean
      cases hclean.2

/-- A table that is put together by imports without errors. -/
theorem establishes_imports {library : Library}
    (hlibrary : ∀ entry ∈ library.tables, entry.2 ∈ tables) (m : Module)
    (references : List ModuleRef) :
    Establishes (Assembled tables) (references.forM (importReference library m))
      fun _ => Assembled tables :=
  establishes_forM (motive := fun _ => Assembled tables) fun _ reference _ =>
    establishes_importReference hlibrary m reference

end Draft

end ManySorted
