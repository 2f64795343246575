import ManySorted.Proofs.Echo.Reordering

/-!
# What a table admits

The declarations of a module are entered without reports just if their names are legal, different
and found nowhere in the root, and if the constants that enumerations bring up are legal or go by
the names of types (`Draft.Admits`).  Then each declaration is what its name comes to stand for.
-/

namespace ManySorted

/-- The entries whose names are reported if they are illegal or taken. -/
def Module.firmEntries (m : Module) : List Entry := m.leadingEntries ++ m.paramEntries

/-- The constant is one that an enumeration of the module names, and is found nowhere. -/
structure Module.Introduces (m : Module) (t : Table) (id : QualifiedId) : Prop where
  element : .constant id ∈ (Node.module m).enumElements
  misses : t.Misses id

namespace Entry

/-- The entries are of one name and enter the same. -/
structure Equals (e e' : Entry) : Prop where
  name : e'.name = e.name
  arity : e'.arity = e.arity
  kind : e'.kind = e.kind

theorem Equals.symm {e e' : Entry} (h : e.Equals e') : e'.Equals e :=
  ⟨h.name.symm, h.arity.symm, h.kind.symm⟩

theorem isEnumerated_ofId (m : Module) (id : QualifiedId) : (ofId m id).IsEnumerated :=
  ⟨rfl, rfl, rfl⟩

end Entry

namespace Module

variable {m : Module} {t : Table} {e : Entry}

theorem tacit_of_mem_firmEntries (h : e ∈ m.firmEntries) : e.tacit = false := by
  rcases List.mem_append.1 h with h | h
  · rcases List.mem_append.1 h with h | h
    · obtain ⟨decl, -, rfl⟩ := List.mem_map.1 h
      rfl
    · obtain ⟨constant, -, rfl⟩ := List.mem_map.1 h
      rfl
  · rw [paramEntries] at h
    split at h
    · obtain ⟨param, -, h⟩ := List.mem_filterMap.1 h
      cases param with
      | model reference => cases h
      | value name type span =>
          cases h
          rfl
    · exact absurd h List.not_mem_nil

theorem mem_tacitEntries : e ∈ (Node.module m).enumElements.filterMap (Entry.ofElement? m t) ↔
    ∃ id, m.Introduces t id ∧ Entry.ofId m id = e := by
  rw [List.mem_filterMap]
  constructor
  · rintro ⟨element, helement, he⟩
    cases element with
    | constant id =>
        rw [Entry.ofElement?] at he
        split at he
        · next hmisses => exact ⟨id, ⟨helement, hmisses⟩, Option.some.inj he⟩
        · cases he
    | _ => cases he
  · rintro ⟨id, hid, rfl⟩
    exact ⟨_, hid.element, if_pos hid.misses⟩

end Module

namespace Draft

variable {m m' : Module} {origin origin' : Draft} {before entries : List Entry} {e : Entry}
  {name : Name} {id : QualifiedId}

/-- The module may be declared without reports. -/
structure Admits (origin : Draft) (m : Module) : Prop where
  opens : ∀ e ∈ m.firmEntries, origin.Opens e.name
  distinct : (m.firmEntries.map Entry.name).Nodup
  elements : ∀ {id}, m.Introduces origin.table id → isLegalId (origin.names.text id.last) = true ∨
    ∃ e ∈ m.firmEntries, e.kind.isData = true ∧
      origin.names.text id.last = "#" ++ origin.names.text e.name

/-! ## Reports -/

/-- A declaration is in order just if its name is open and none before has it. -/
theorem entryReports_eq_nil_iff (htacit : e.tacit = false) :
    origin.entryReports before e = [] ↔
      origin.Opens e.name ∧ ∀ b ∈ before, b.name ≠ e.name := by
  rw [entryReports, illegalId?]
  cases hlegal : isLegalId (origin.names.text e.name) with
  | false =>
      refine iff_of_false (by simp [htacit]) fun h => ?_
      cases hlegal.symm.trans h.1.2
  | true =>
      rw [if_pos rfl]
      dsimp only
      rw [htacit, if_neg Bool.false_ne_true, List.map_eq_nil_iff,
        Option.toList_eq_nil_iff, takenAt?]
      cases hfound : (origin.table.namespaceAt .root).symbol? e.name with
      | some previous =>
          refine iff_of_false (fun h => by cases h) fun h => ?_
          cases hfound.symm.trans h.1.1
      | none =>
          have hopen : origin.Opens e.name := ⟨hfound, hlegal⟩
          rw [Option.map_eq_none_iff, chosen, if_pos hopen, List.find?_eq_none]
          simp [hopen]

/-- Declarations are in order just if their names are open and different. -/
theorem gather_eq_nil_iff (hfirm : ∀ e ∈ entries, e.tacit = false) :
    gather origin.entryReports before entries = [] ↔ (∀ e ∈ entries, origin.Opens e.name) ∧
      (entries.map Entry.name).Nodup ∧ ∀ e ∈ entries, ∀ b ∈ before, b.name ≠ e.name := by
  induction entries generalizing before with
  | nil => simp [gather]
  | cons e rest ih =>
      rw [gather, List.append_eq_nil_iff, entryReports_eq_nil_iff (hfirm e List.mem_cons_self),
        ih fun e' he' => hfirm e' (List.mem_cons_of_mem _ he')]
      simp only [List.mem_append, List.mem_singleton, List.forall_mem_cons, List.map_cons,
        List.nodup_cons, List.mem_map, not_exists, not_and]
      constructor
      · rintro ⟨⟨hopen, hbefore⟩, hopens, hdistinct, hapart⟩
        exact ⟨⟨hopen, hopens⟩, ⟨fun e' he' heq => hapart e' he' e (.inr rfl) heq.symm, hdistinct⟩,
          hbefore, fun e' he' b hb => hapart e' he' b (.inl hb)⟩
      · rintro ⟨⟨hopen, hopens⟩, ⟨hfirst, hdistinct⟩, hbefore, hapart⟩
        refine ⟨⟨hopen, hbefore⟩, hopens, hdistinct, ?_⟩
        rintro e' he' b (hb | rfl)
        · exact hapart e' he' b hb
        · exact fun heq => hfirst e' he' heq.symm

/-- A constant of an enumeration is in order just if its name is legal or the one of a type. -/
theorem entryReports_tacit_eq_nil_iff (htacit : e.tacit = true) :
    origin.entryReports before e = [] ↔
      isLegalId (origin.names.text e.name) = true ∨ origin.namesType before e.name = true := by
  rw [entryReports, illegalId?]
  cases hlegal : isLegalId (origin.names.text e.name) with
  | true => simp [htacit]
  | false => simp [htacit]

/-- Among constants of enumerations those before make no difference. -/
theorem gather_tacit_eq_nil_iff (henumerated : ∀ e ∈ entries, e.IsEnumerated) :
    gather origin.entryReports before entries = [] ↔ ∀ e ∈ entries,
      isLegalId (origin.names.text e.name) = true ∨ origin.namesType before e.name = true := by
  have hsame : gather origin.entryReports before entries =
      gather (fun _ => origin.entryReports before) before entries := by
    refine gather_congr entries fun done e rest hall => ?_
    refine entryReports_of_tacit (henumerated e (hall ▸ ?_)).tacit
      (namesType_eq (fun e' he' => ?_) _)
    · exact List.mem_append_right _ List.mem_cons_self
    · exact henumerated e' (hall ▸ List.mem_append_left _ he')
  rw [hsame, gather_const, List.flatMap_eq_nil_iff]
  exact forall₂_congr fun e he => entryReports_tacit_eq_nil_iff (henumerated e he).tacit

/-- With open and different names each entry is what its name stands for. -/
theorem chosen_of_mem (hopens : ∀ e ∈ entries, origin.Opens e.name)
    (hdistinct : (entries.map Entry.name).Nodup) (he : e ∈ entries) :
    origin.chosen entries e.name = some e := by
  rw [chosen, if_pos (hopens e he), find?_key_eq_some_iff hdistinct]
  exact ⟨he, rfl⟩

/-- Nothing is reported about what a module enters just if the table admits it. -/
theorem gather_entries_eq_nil_iff :
    gather origin.entryReports [] (m.entries origin.table) = [] ↔ origin.Admits m := by
  have htacit : ∀ e ∈ (Node.module m).enumElements.filterMap (Entry.ofElement? m origin.table),
      e.IsEnumerated := by
    intro e he
    obtain ⟨id, -, rfl⟩ := Module.mem_tacitEntries.1 he
    exact Entry.isEnumerated_ofId m id
  rw [Module.entries, ← Module.firmEntries, gather_append, List.append_eq_nil_iff,
    gather_eq_nil_iff fun e he => Module.tacit_of_mem_firmEntries he, List.nil_append,
    gather_tacit_eq_nil_iff htacit]
  have hnames : (∀ e ∈ m.firmEntries, origin.Opens e.name) →
      (m.firmEntries.map Entry.name).Nodup → ∀ name, origin.namesType m.firmEntries name = true ↔
        ∃ e ∈ m.firmEntries, e.kind.isData = true ∧
          origin.names.text name = "#" ++ origin.names.text e.name := by
    intro hopens hdistinct name
    rw [namesType_eq_true_iff]
    constructor
    · rintro ⟨other, e, hchosen, hdata, htext⟩
      obtain ⟨hmem, rfl⟩ := mem_of_chosen hchosen
      exact ⟨e, hmem, hdata, htext⟩
    · rintro ⟨e, he, hdata, htext⟩
      exact ⟨e.name, e, chosen_of_mem hopens hdistinct he, hdata, htext⟩
  constructor
  · rintro ⟨⟨hopens, hdistinct, -⟩, helements⟩
    refine ⟨hopens, hdistinct, fun {id} hid => ?_⟩
    rw [← hnames hopens hdistinct]
    have hentry := helements (Entry.ofId m id) (Module.mem_tacitEntries.2 ⟨id, hid, rfl⟩)
    exact hentry
  · rintro ⟨hopens, hdistinct, helements⟩
    refine ⟨⟨hopens, hdistinct, fun _ _ b hb => absurd hb List.not_mem_nil⟩, fun e he => ?_⟩
    obtain ⟨id, hid, rfl⟩ := Module.mem_tacitEntries.1 he
    rw [hnames hopens hdistinct]
    exact helements hid

/-! ## What names come to stand for -/

/-- What a name comes to stand for is declared under the name, or named by an enumeration only. -/
theorem chosen_cases (hchosen : origin.chosen (m.entries origin.table) name = some e) :
    e.name = name ∧ (e ∈ m.firmEntries ∨
      (∀ e' ∈ m.firmEntries, e'.name ≠ name) ∧
        ∃ id, m.Introduces origin.table id ∧ Entry.ofId m id = e) := by
  refine ⟨(mem_of_chosen hchosen).2, ?_⟩
  have hopen := opens_of_chosen hchosen
  rw [Module.entries, ← Module.firmEntries, chosen_append] at hchosen
  rcases Option.or_eq_some_iff.1 hchosen with hfirm | ⟨hnone, htacit⟩
  · exact .inl (mem_of_chosen hfirm).1
  · refine .inr ⟨fun e' he' heq => ?_, Module.mem_tacitEntries.1 (mem_of_chosen htacit).1⟩
    rw [chosen, if_pos hopen, List.find?_eq_none] at hnone
    exact hnone e' he' (decide_eq_true heq)

/-- A constant that an enumeration brings up comes to stand for something, if its name is open. -/
theorem exists_chosen_of_introduces (hid : m.Introduces origin.table id)
    (hopen : origin.Opens id.last) :
    ∃ e, origin.chosen (m.entries origin.table) id.last = some e := by
  cases hchosen : origin.chosen (m.entries origin.table) id.last with
  | some e => exact ⟨e, rfl⟩
  | none =>
      rw [chosen, if_pos hopen, List.find?_eq_none] at hchosen
      exact absurd (decide_eq_true rfl)
        (hchosen _ (List.mem_append_right _ (Module.mem_tacitEntries.2 ⟨id, hid, rfl⟩)))

theorem Admits.chosen_firm (h : origin.Admits m) (he : e ∈ m.firmEntries) :
    origin.chosen (m.entries origin.table) e.name = some e := by
  rw [Module.entries, ← Module.firmEntries, chosen_append, chosen_of_mem h.opens h.distinct he,
    Option.some_or]

/-- What a name comes to stand for in one module, it does in another one that declares the same
under that name. -/
theorem Admits.exists_equal (h' : origin'.Admits m')
    (hfirm : ∀ e ∈ m.firmEntries, ∃ e' ∈ m'.firmEntries, e.Equals e')
    (hback : ∀ e' ∈ m'.firmEntries, (origin.chosen (m.entries origin.table) e'.name).isSome = true →
      ∃ e ∈ m.firmEntries, e.name = e'.name)
    (hintroduces : ∀ {id}, m.Introduces origin.table id → origin.Opens id.last →
      m'.Introduces origin'.table id ∧ origin'.Opens id.last)
    (hchosen : origin.chosen (m.entries origin.table) name = some e) :
    ∃ e', origin'.chosen (m'.entries origin'.table) name = some e' ∧ e.Equals e' := by
  obtain ⟨rfl, he | ⟨hnone, id, hid, rfl⟩⟩ := chosen_cases hchosen
  · obtain ⟨e', he', hequals⟩ := hfirm e he
    exact ⟨e', hequals.name ▸ h'.chosen_firm he', hequals⟩
  · obtain ⟨hid', hopen'⟩ := hintroduces hid (opens_of_chosen hchosen)
    obtain ⟨e', hchosen'⟩ := exists_chosen_of_introduces hid' hopen'
    obtain ⟨hname, he' | ⟨-, id', -, rfl⟩⟩ := chosen_cases hchosen'
    · -- nothing is declared under the name there either
      obtain ⟨e, he, heq⟩ := hback e' he'
          (by rw [hname]; exact Option.isSome_iff_exists.2 ⟨_, hchosen⟩)
      exact absurd (heq.trans hname) (hnone e he)
    · exact ⟨_, hchosen', hname, rfl, rfl⟩

end Draft

end ManySorted
