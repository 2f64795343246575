import ManySorted.Proofs.Import.Embed
import ManySorted.Proofs.Sizing.Run

/-!
# The tables of a session

A session interns names and checks modules against tables that it checked before.  What a module
adds to a table that is put together by imports is sound, so a table without errors may be relied
on (`Draft.trusted_checkPasses`), and so may every valid table of a session (`Session.archive`).

## Strategy

* **Start.**  A table that has nothing but what is built in or imported is a sound start for
  declarations (`Draft.Assembled.sound`).
* **One check.**  Without errors the passes only add sound declarations (`Draft.sound_checkPasses`),
  so the table that is handed out may be relied on (`checkModule_trusted`).
* **Induction on the session.**  Names are only added and identities are fresh, so what holds of the
  tables before a check holds of them afterwards (`Session.archive`).
-/

namespace ManySorted

namespace Draft

variable {tables : List Table} {d d' : Draft}

/-- A table that is put together by imports is a sound start for declarations. -/
theorem Assembled.sound (h : d.Assembled tables) : d.Sound := by
  have hnotOwn : ∀ {x}, ¬ d.table.Owns x := fun howns =>
    Bool.noConfusion ((h.settled howns.holds).symm.trans howns.unsettled)
  have himported : ∀ {x kind}, d.table.kindOf x = .userConstant kind →
      (d.table.symbolAt x).isImported = true := by
    intro x kind hkind
    have hsettled := h.settled (Table.holds_of_constant hkind)
    rwa [Symbol.isSettled, show (d.table.symbolAt x).kind = _ from hkind,
      show (SymbolKind.userConstant kind).isBase = false from rfl, Bool.or_false] at hsettled
  refine ⟨h.formed.toRegular, fun {x} hx =>
    ?_, h.unfailed, fun {x kind form} hkind hvalue hform => ?_,
    fun {x kind} hkind hvalue hx => h.archive.constant_form h.provenance hkind hvalue hx,
    fun _ howns => absurd howns hnotOwn, fun _ howns => absurd howns hnotOwn,
    fun howns => absurd howns hnotOwn⟩
  · refine h.archive.closed h.provenance (fun horigin => ?_) hx
    -- what is not imported is built in, and nothing is written to it
    have hbase : (d.table.kindOf x).isBase = true := by
      have hsettled := h.settled hx
      rwa [Symbol.isSettled, Symbol.isImported, horigin, Option.isSome_none, Bool.false_or]
        at hsettled
    refine ⟨fun hform => ?_, fun he => ?_⟩
    · cases hform.symm.trans (h.provenance.bare hx hbase)
    · unfold Symbol.size? at he
      split at he
      · next hkind =>
          rw [Table.kindOf, hkind] at hbase
          cases hbase
      · cases he
  · rw [h.archive.constant_form h.provenance hkind hvalue (himported hkind)] at hform
    exact (Option.some.inj hform).symm

/-- A table that is checked without errors may be relied on. -/
theorem trusted_of_sound (h : d.Assembled tables) (hext : d.Extends d') (hsound : d'.Sound)
    (hconstants : d'.table.ConstantsFormed) : d'.table.Trusted d'.names tables where
  formed := h.formed.later hext.table.later hsound.regular
  provenance := h.provenance.later hext.table.later fun _ hx hnew => hext.table.new hx hnew
  own_closed hx _ := hsound.closed hx
  constants hkind hvalue := hconstants _ _ hkind hvalue
  own_bounded {x e} hx horigin he := by
    refine hsound.bounded (Table.owns_of_origin hx horigin ?_) he
    unfold Symbol.size? at he
    split at he
    · next hkind =>
        rw [Table.kindOf, hkind]
        rfl
    · cases he

theorem constantsFormed_of_size (hlater : d.table.Later d'.table)
    (hsize : d'.table.symbols.size = d.table.symbols.size) (h : d.table.ConstantsFormed) :
    d'.table.ConstantsFormed := by
  intro x kind hkind hvalue
  have hx : d.table.Holds x := by
    have hx' := Table.holds_of_constant hkind
    rwa [Table.Holds, hsize] at hx'
  have hsame := hlater.unsized_kindOf hx
  rw [hkind] at hsame
  exact (hlater.symbol hx).canonical
    (h x kind (SymbolKind.unsized_eq_userConstant.1 hsame.symm) hvalue)

/-- A module that is checked without errors adds sound declarations to what it imports. -/
theorem sound_checkPasses {library : Library} {m : Module}
    (hlibrary : ∀ entry ∈ library.tables, entry.2 ∈ tables) (h : d.Assembled tables)
    (hrun : checkPasses library m d = .ok () d') (hclean : d'.table.hasErrors = false) :
    ∃ imported : Draft, (m.references.forM (importReference library m) d = .ok () imported ∧
      imported.table.hasErrors = false) ∧ imported.Assembled tables ∧ imported.Extends d' ∧
        d'.Sound ∧ d'.table.ConstantsFormed := by
  obtain ⟨_, d₁, himports, hrun⟩ := bind_eq_ok.1 hrun
  obtain ⟨_, d₂, hdeclare, hrun⟩ := bind_eq_ok.1 hrun
  have hjudging := enlarges_checkProductivity.bind fun productive =>
    (enlarges_sizeData productive).bind fun _ =>
      enlarges_forM (l := m.contracts) (fun _ _ _ h => h) fun contract _ =>
        enlarges_checkContract m contract
  have hclean₂ := (hjudging.proceeds.ok hrun).table.hasErrors_eq_false hclean
  have hclean₁ := ((enlarges_declare m).proceeds.ok hdeclare).table.hasErrors_eq_false hclean₂
  have hassembled := (establishes_imports hlibrary m m.references).run h himports hclean₁
  obtain ⟨hext, hsound, hconstants⟩ :=
    (enlarges_declare m).run hassembled.sound trivial hdeclare hclean₂
  obtain ⟨hext', hsound', _⟩ := hjudging.run hsound trivial hrun hclean
  have hsize := (settled_judging m _).run rfl hrun hclean
  exact ⟨d₁, ⟨himports, hclean₁⟩, hassembled, hext.trans hext', hsound',
    constantsFormed_of_size hext'.table.later hsize hconstants⟩

/-- All passes over a module, from a table of which nothing is known. -/
theorem trusted_checkPasses {library : Library} {m : Module}
    (hlibrary : ∀ entry ∈ library.tables, entry.2 ∈ tables) (h : d.Assembled tables)
    (hrun : checkPasses library m d = .ok () d') (hclean : d'.table.hasErrors = false) :
    d'.table.Trusted d'.names tables := by
  obtain ⟨imported, -, hassembled, hext, hsound, hconstants⟩ :=
    sound_checkPasses hlibrary h hrun hclean
  exact trusted_of_sound hassembled hext hsound hconstants

end Draft

/-! ## Sessions -/

/-- The names and tables of a session, in which every table has an identity of its own. -/
inductive Session : Interner → List Table → Prop
  | start : Session .initial []
  | intern {names : Interner} {tables : List Table} (text : String) (h : Session names tables) :
      Session (names.intern text).2 tables
  | check {names names' : Interner} {tables : List Table} {id : TableId} {library : Library}
      {config : CheckConfig} {m : Module} {out : CheckOutput} (h : Session names tables)
      (fresh : ∀ t ∈ tables, t.id ≠ id) (held : ∀ entry ∈ library.tables, entry.2 ∈ tables)
      (checked : checkModule names id library config m = (names', .ok out)) :
      Session names' (tables ++ [out.table])
  | failed {names names' : Interner} {tables : List Table} {id : TableId} {library : Library}
      {config : CheckConfig} {m : Module} {fault : Fault} (h : Session names tables)
      (checked : checkModule names id library config m = (names', .error fault)) :
      Session names' tables

section

variable {names names' : Interner} {tables : List Table} {id : TableId} {library : Library}
  {config : CheckConfig} {m : Module} {out : CheckOutput}

theorem checkModule_grown {result : Except Fault CheckOutput} (hnames : names.Proper)
    (h : checkModule names id library config m = (names', result)) :
    names.Grown names' ∧ names'.Proper := by
  obtain ⟨hformed, hgrown⟩ := Table.wellFormed_create hnames id m.name m.kind m.file
  have honward := (Draft.proceeds_checkPasses library m).onward (Draft.initial names id config m)
  obtain rfl : names' = _ := (congrArg Prod.fst h).symm.trans checkModule_names
  exact ⟨hgrown.trans honward.grown, honward.proper hformed.proper⟩

/-- However a check ends, the table has the identity that it was given. -/
theorem checkModule_id (h : checkModule names id library config m = (names', .ok out)) :
    out.table.id = id := by
  have hid : ∀ d, (Draft.initial names id config m).Onward d → d.table.id = id := fun d hd =>
    hd.table.id_eq.trans Table.id_create
  have hproceeds := Draft.proceeds_checkPasses library m
  rw [checkModule_eq] at h
  split at h
  · next d hrun =>
      rw [Table.output_eq] at h
      cases h
      exact hid d (hproceeds.ok hrun)
  · next d hrun =>
      rw [Table.output_eq] at h
      cases h
      exact hid d (hproceeds.error hrun)
  · cases congrArg Prod.snd h

/-- A valid table that is checked against trusted ones may be relied on. -/
theorem checkModule_trusted (hnames : names.Proper) (harchive : Table.Archive names tables)
    (hlibrary : ∀ entry ∈ library.tables, entry.2 ∈ tables)
    (h : checkModule names id library config m = (names', .ok out))
    (hvalid : out.table.isValid = true) : out.table.Trusted names' tables := by
  obtain ⟨d, hrun, rfl, hclean, htable⟩ := checkModule_valid h hvalid
  have htrusted := Draft.trusted_checkPasses hlibrary
    (Draft.assembled_initial hnames harchive) hrun hclean
  rw [htable]
  have hlater : d.table.Later { d.table with validity := .decided true } := .of_eq rfl rfl rfl
  exact ⟨htrusted.formed.later hlater (htrusted.formed.toRegular.of_eq rfl rfl),
    htrusted.provenance.later hlater fun x hx hnew => absurd hx hnew,
    fun hx horigin => (htrusted.own_closed hx horigin).later hlater, htrusted.constants,
    fun hx horigin he => (htrusted.own_bounded hx horigin he).later hlater⟩

/-- The valid tables of a session may be relied on. -/
theorem Session.archive (h : Session names tables) :
    names.Proper ∧ Table.Archive names tables := by
  induction h with
  | start =>
      exact ⟨Interner.proper_initial, fun ht => absurd ht List.not_mem_nil,
        fun ht => absurd ht List.not_mem_nil⟩
  | @intern names tables text _ ih =>
      exact ⟨ih.1.intern text, ih.2.grown (names.grown_intern text) (ih.1.intern text)⟩
  | failed _ checked ih =>
      obtain ⟨hgrown, hproper⟩ := checkModule_grown ih.1 checked
      exact ⟨hproper, ih.2.grown hgrown hproper⟩
  | @check names names' tables id library config m out _ fresh held checked ih =>
      obtain ⟨hgrown, hproper⟩ := checkModule_grown ih.1 checked
      have hid := checkModule_id checked
      refine ⟨hproper, fun {t} ht hvalid => ?_, fun {t t'} ht ht' heq => ?_⟩
      · refine Table.Trusted.mono ?_ fun t ht => List.mem_append_left _ ht
        rcases List.mem_append.1 ht with ht | ht
        · exact (ih.2.trusted ht hvalid).grown hgrown hproper
        · obtain rfl := List.mem_singleton.1 ht
          exact checkModule_trusted ih.1 ih.2 held checked hvalid
      · rcases List.mem_append.1 ht with ht | ht <;> rcases List.mem_append.1 ht' with ht' | ht'
        · exact ih.2.unique ht ht' heq
        · rw [List.mem_singleton.1 ht', hid] at heq
          exact absurd heq (fresh t ht)
        · rw [List.mem_singleton.1 ht, hid] at heq
          exact absurd heq.symm (fresh t' ht')
        · rw [List.mem_singleton.1 ht, List.mem_singleton.1 ht']

/-- Constants that a module adds to what it imports have no arguments, and neither have others. -/
theorem checkModule_nullary (hnames : names.Proper) (harchive : Table.Archive names tables)
    (hlibrary : ∀ entry ∈ library.tables, entry.2 ∈ tables)
    (hall : ∀ t ∈ tables, t.isValid = true → ∀ x, t.IsConstant x → (t.symbolAt x).arity = 0)
    (h : checkModule names id library config m = (names', .ok out))
    (hvalid : out.table.isValid = true) {x : SymbolId} (hx : out.table.IsConstant x) :
    (out.table.symbolAt x).arity = 0 := by
  have htrusted := checkModule_trusted hnames harchive hlibrary h hvalid
  obtain ⟨d, hrun, rfl, hclean, htable⟩ := checkModule_valid h hvalid
  obtain ⟨imported, -, hassembled, hext, -, -⟩ := Draft.sound_checkPasses hlibrary
    (Draft.assembled_initial hnames harchive) hrun hclean
  have hext' : imported.table.Extends out.table := by
    rw [htable]
    exact hext.table.trans (.of_eq rfl rfl rfl)
  cases hbase : (out.table.kindOf x).isBase with
  | true =>
      rw [(htrusted.formed.spelled hx.holds hbase).2]
      rw [Table.IsConstant] at hx
      cases hkind : out.table.kindOf x <;> rw [hkind] at hx <;> first | rfl | cases hx
  | false =>
      cases horigin : (out.table.symbolAt x).origin with
      | some o =>
          obtain ⟨source, hsource, houtline, harity⟩ := htrusted.provenance.origin hx.holds horigin
          rw [← harity]
          apply hall source hsource.mem hsource.valid
          rw [Table.IsConstant, ← Table.isConstant_outline, houtline, Table.isConstant_outline]
          exact hx
      | none =>
          -- what is neither built in nor imported was not there before the declarations
          refine hext'.nullary hx.holds (fun hold => ?_) hx
          have hsettled := hassembled.settled hold
          rw [← Symbol.isSettled_eq (hext'.later.symbol hold).blank_eq
            (hext'.later.symbol hold).origin_eq, Symbol.isSettled, Symbol.isImported, horigin]
            at hsettled
          cases hsettled.symm.trans hbase

/-- Constants have no arguments. -/
theorem Session.nullary (h : Session names tables) : ∀ t ∈ tables, t.isValid = true →
    ∀ x, t.IsConstant x → (t.symbolAt x).arity = 0 := by
  induction h with
  | start => exact fun _ ht => absurd ht List.not_mem_nil
  | intern _ _ ih => exact ih
  | failed _ _ ih => exact ih
  | check h fresh held checked ih =>
      intro t ht hvalid x hx
      rcases List.mem_append.1 ht with ht | ht
      · exact ih t ht hvalid x hx
      · obtain rfl := List.mem_singleton.1 ht
        exact checkModule_nullary h.archive.1 h.archive.2 held ih checked hvalid hx

/-! ## A session of modules -/

/-- The names that a session starts from. -/
def internAll (texts : List String) : Interner :=
  texts.foldl (fun names text => (names.intern text).2) .initial

/-- The library of some tables. -/
def Library.of (tables : List Table) : Library := ⟨tables.map fun t => (t.module, t)⟩

theorem Library.mem_of {entry : Name × Table} (h : entry ∈ (Library.of tables).tables) :
    entry.2 ∈ tables := by
  obtain ⟨t, ht, rfl⟩ := List.mem_map.1 h
  exact ht

/-- Checks modules one after the other, each against the tables of all before it. -/
def checkAll (names : Interner) (tables : List Table) : List Module → Interner × List Table
  | [] => (names, tables)
  | m :: rest =>
      match checkModule names ⟨tables.length⟩ (.of tables) {} m with
      | (names, .ok out) => checkAll names (tables ++ [out.table]) rest
      | (names, .error _) => checkAll names tables rest

theorem checkAll_singleton (checked : checkModule names ⟨tables.length⟩ (.of tables) {} m =
    (names', .ok out)) : checkAll names tables [m] = (names', tables ++ [out.table]) := by
  rw [checkAll, checked]
  rfl

/-- More names make no difference to a session. -/
theorem Session.grown (h : Session names tables) (hgrown : names.Grown names')
    (hproper : names'.Proper) : Session names' tables := by
  obtain ⟨rest, hrest⟩ := hgrown
  induction rest generalizing names with
  | nil =>
      rw [List.append_nil] at hrest
      obtain ⟨words⟩ := names
      obtain ⟨words'⟩ := names'
      obtain rfl : words = words' := Array.toList_inj.1 hrest
      exact h
  | cons text rest ih =>
      have hnew : names.find? text = none := by
        have hnodup := hproper.nodup
        rw [← hrest, List.nodup_append] at hnodup
        exact Interner.find?_eq_none_iff.2 fun hmem =>
          hnodup.2.2 text hmem text List.mem_cons_self rfl
      have hwords : (names.intern text).2.words.toList = names.words.toList ++ [text] := by
        rw [Interner.intern, hnew]
        exact Array.toList_push
      refine ih (h.intern text) ?_
      rw [hwords, List.append_assoc, List.singleton_append, hrest]

theorem session_internAll (texts : List String) : Session (internAll texts) [] := by
  have hall : ∀ names, Session names [] →
      Session (texts.foldl (fun names text => (names.intern text).2) names) [] := by
    induction texts with
    | nil => exact fun _ h => h
    | cons text rest ih => exact fun _ h => ih _ (h.intern text)
  exact hall _ .start

theorem Session.checkAll (h : Session names tables)
    (hids : ∀ t ∈ tables, t.id.index < tables.length) (modules : List Module) :
    Session (ManySorted.checkAll names tables modules).1
      (ManySorted.checkAll names tables modules).2 := by
  induction modules generalizing names tables with
  | nil => exact h
  | cons m rest ih =>
      unfold ManySorted.checkAll
      split
      · next names' out hcheck =>
          refine ih (h.check (fun t ht heq => ?_) (fun _ => Library.mem_of) hcheck) fun t ht => ?_
          · have hlt := hids t ht
            rw [heq] at hlt
            exact Nat.lt_irrefl _ hlt
          · rw [List.length_append, List.length_singleton]
            rcases List.mem_append.1 ht with ht | ht
            · exact Nat.lt_succ_of_lt (hids t ht)
            · rw [List.mem_singleton.1 ht, checkModule_id hcheck]
              exact Nat.lt_succ_self _
      · next hcheck => exact ih (h.failed hcheck) hids

/-- Checks only add names. -/
theorem grown_checkAll (hnames : names.Proper) (tables : List Table) (modules : List Module) :
    names.Grown (checkAll names tables modules).1 := by
  induction modules generalizing names tables with
  | nil => exact .refl _
  | cons m rest ih =>
      unfold checkAll
      split
      · next hcheck =>
          obtain ⟨hgrown, hproper⟩ := checkModule_grown hnames hcheck
          exact hgrown.trans (ih hproper _)
      · next hcheck =>
          obtain ⟨hgrown, hproper⟩ := checkModule_grown hnames hcheck
          exact hgrown.trans (ih hproper _)

/-- Modules that are checked one after the other make a session. -/
theorem session_checkAll (texts : List String) (modules : List Module) :
    Session (checkAll (internAll texts) [] modules).1 (checkAll (internAll texts) [] modules).2 :=
  (session_internAll texts).checkAll (fun _ ht => absurd ht List.not_mem_nil) modules

end

end ManySorted
