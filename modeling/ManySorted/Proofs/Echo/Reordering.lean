import Mathlib.Data.List.Nodup
import ManySorted.Proofs.Declaration.Entering
import ManySorted.Proofs.Echo.Entries

/-!
# Types in another order

If the types of a module have different names, none of them is in the way of another.  So whatever
their order, names come to stand for the same declarations (`Draft.Reorders.agree`), the same
problems with names are reported (`Draft.Reorders.perm_gather`), and the same parameters are entered
(`Draft.Reorders.entrants_eq`).  Only the constants of enumerations may be met elsewhere first.

## Strategy

* **Types.**  With different names, a name finds the same type in any order (`find?_key_of_perm`),
  and what is gathered from a type does not depend on the types before it
  (`Draft.Reorders.gather_types`).
* **Constants of enumerations.**  They are entered tacitly, under a name that is found nowhere, and
  lead to no reports about names that are taken (`Draft.Reorders.gather_tacit`).
* **The rest** comes after the types and sees all of them, in whatever order
  (`Draft.Reorders.gather_rest`).
* **Modules.**  The entries of a module with its types in another order are such a reordering
  (`Module.reorders`), so registering leaves twins (`Draft.Enrollment.twins`).
-/

namespace ManySorted

/-- With different keys, a key finds what has it. -/
theorem find?_key_eq_some_iff {α β : Type} [DecidableEq β] {key : α → β} {l : List α}
    (hdistinct : (l.map key).Nodup) {k : β} {a : α} :
    l.find? (key · = k) = some a ↔ a ∈ l ∧ key a = k := by
  constructor
  · exact fun h => ⟨List.mem_of_find?_eq_some h, by simpa using List.find?_some h⟩
  · rintro ⟨ha, rfl⟩
    cases hfound : l.find? (key · = key a) with
    | none => exact absurd (decide_eq_true rfl) (List.find?_eq_none.1 hfound a ha)
    | some b =>
        have hkey : key b = key a := by simpa using List.find?_some hfound
        rw [List.inj_on_of_nodup_map hdistinct (List.mem_of_find?_eq_some hfound) ha hkey]

theorem find?_key_of_perm {α β : Type} [DecidableEq β] {key : α → β} {l l' : List α}
    (hperm : l'.Perm l) (hdistinct : (l.map key).Nodup) (k : β) :
    l'.find? (key · = k) = l.find? (key · = k) := by
  refine Option.ext fun a => ?_
  rw [find?_key_eq_some_iff hdistinct,
    find?_key_eq_some_iff ((hperm.map key).nodup_iff.2 hdistinct), hperm.mem_iff]

/-- The entry is one of a constant that an enumeration names. -/
structure Entry.IsEnumerated (e : Entry) : Prop where
  tacit : e.tacit = true
  arity : e.arity = 0
  kind : e.kind = .userConstant .enumerated

theorem Entry.Matches.refl (e : Entry) : e.Matches e := ⟨rfl, rfl, rfl, fun _ => rfl⟩

theorem Entry.IsEnumerated.matches {e e' : Entry} (h : e.IsEnumerated) (h' : e'.IsEnumerated) :
    e.Matches e' where
  arity := h'.arity.trans h.arity.symm
  kind := h'.kind.trans h.kind.symm
  tacit := h'.tacit.trans h.tacit.symm
  location htacit := by cases h.tacit.symm.trans htacit

namespace Draft

variable {β : Type} {f f' : List Entry → Entry → List β} {origin : Draft}
  {before before' entries types types' rest tacit tacit' : List Entry} {e : Entry} {name : Name}

/-! ## Gathering -/

theorem gather_congr (l : List Entry) (h : ∀ done e rest, l = done ++ e :: rest →
    f (before ++ done) e = f' (before' ++ done) e) : gather f before l = gather f' before' l := by
  induction l generalizing before before' with
  | nil => rfl
  | cons e rest ih =>
      have hfirst := h [] e rest rfl
      rw [List.append_nil, List.append_nil] at hfirst
      rw [gather, gather, hfirst]
      refine congrArg _ (ih fun done e' rest' hrest => ?_)
      have hthere := h (e :: done) e' rest' (by rw [hrest]; rfl)
      rwa [← List.singleton_append, ← List.append_assoc, ← List.append_assoc] at hthere

theorem gather_const (g : Entry → List β) (before l : List Entry) :
    gather (fun _ => g) before l = l.flatMap g := by
  induction l generalizing before with
  | nil => rfl
  | cons e rest ih => rw [gather, ih, List.flatMap_cons]

theorem chosen_append (d : Draft) (l l' : List Entry) (name : Name) :
    d.chosen (l ++ l') name = (d.chosen l name).or (d.chosen l' name) := by
  unfold chosen
  split
  · exact List.find?_append
  · rfl

theorem takenAt?_congr (h : origin.chosen before' name = origin.chosen before name) :
    origin.takenAt? before' name = origin.takenAt? before name := by
  rw [takenAt?, takenAt?, h]

theorem entryReports_of_declared (htacit : e.tacit = false)
    (h : origin.chosen before' e.name = origin.chosen before e.name) :
    origin.entryReports before' e = origin.entryReports before e := by
  simp only [entryReports, htacit, Bool.false_and, takenAt?_congr h]

theorem entryReports_of_tacit (htacit : e.tacit = true)
    (h : origin.namesType before' e.name = origin.namesType before e.name) :
    origin.entryReports before' e = origin.entryReports before e := by
  simp only [entryReports, htacit, Bool.true_and, h, if_true]

theorem namesType_eq_true_iff : origin.namesType entries name = true ↔ ∃ other e,
    origin.chosen entries other = some e ∧ e.kind.isData = true ∧
      origin.names.text name = "#" ++ origin.names.text other := by
  simp only [namesType, List.any_eq_true, Bool.and_eq_true, beq_iff_eq, Option.any_eq_true]
  constructor
  · rintro ⟨e, -, ⟨e', hchosen, hdata⟩, htext⟩
    exact ⟨_, e', hchosen, hdata, htext⟩
  · rintro ⟨other, e, hchosen, hdata, htext⟩
    obtain ⟨hmem, rfl⟩ := mem_of_chosen hchosen
    exact ⟨e, hmem, ⟨e, hchosen, hdata⟩, htext⟩

/-- Constants of enumerations name no types. -/
theorem namesType_eq {done : List Entry} (hdone : ∀ e ∈ done, e.IsEnumerated) (name : Name) :
    origin.namesType (before ++ done) name = origin.namesType (before) name := by
  rw [Bool.eq_iff_iff, namesType_eq_true_iff, namesType_eq_true_iff]
  constructor
  · rintro ⟨other, e, hchosen, hdata, htext⟩
    rw [chosen_append] at hchosen
    rcases Option.or_eq_some_iff.1 hchosen with hdeclared | ⟨-, htacit⟩
    · exact ⟨other, e, hdeclared, hdata, htext⟩
    · rw [(hdone e (mem_of_chosen htacit).1).kind] at hdata
      cases hdata
  · rintro ⟨other, e, hchosen, hdata, htext⟩
    refine ⟨other, e, ?_, hdata, htext⟩
    rw [chosen_append, hchosen, Option.some_or]

/-! ## Entries in another order -/

/-- Types of different names are entered in another order, and constants of enumerations are met in
another order. -/
structure Reorders (types types' rest tacit tacit' : List Entry) : Prop where
  permTypes : types'.Perm types
  distinct : (types.map Entry.name).Nodup
  declared : ∀ e ∈ types ++ rest, e.tacit = false
  permTacit : tacit'.Perm tacit
  enumerated : ∀ e ∈ tacit, e.IsEnumerated

theorem Reorders.symm (h : Reorders types types' rest tacit tacit') :
    Reorders types' types rest tacit' tacit where
  permTypes := h.permTypes.symm
  distinct := (h.permTypes.map _).nodup_iff.2 h.distinct
  declared e he := h.declared e ((h.permTypes.append_right rest).mem_iff.1 he)
  permTacit := h.permTacit.symm
  enumerated e he := h.enumerated e (h.permTacit.mem_iff.1 he)

namespace Reorders

variable (h : Reorders types types' rest tacit tacit')
include h

theorem chosen_types (name : Name) : origin.chosen types' name = origin.chosen types name := by
  rw [chosen, chosen, find?_key_of_perm h.permTypes h.distinct]

theorem chosen_declared (done : List Entry) (name : Name) :
    origin.chosen (types' ++ done) name = origin.chosen (types ++ done) name := by
  rw [chosen_append, chosen_append, h.chosen_types]

theorem agree_there (hchosen : origin.chosen (types ++ rest ++ tacit) name = some e) :
    ∃ e', origin.chosen (types' ++ rest ++ tacit') name = some e' ∧ e.Matches e' := by
  rw [chosen_append] at hchosen ⊢
  rw [h.chosen_declared]
  rcases Option.or_eq_some_iff.1 hchosen with hdeclared | ⟨hnone, htacit⟩
  · exact ⟨e, by rw [hdeclared, Option.some_or], .refl e⟩
  · obtain ⟨hmem, hname⟩ := mem_of_chosen htacit
    have hopen := opens_of_chosen htacit
    cases hfound : origin.chosen tacit' name with
    | none =>
        rw [chosen, if_pos hopen, List.find?_eq_none] at hfound
        exact absurd (decide_eq_true hname) (hfound e (h.permTacit.mem_iff.2 hmem))
    | some e' =>
        refine ⟨e', by rw [hnone, Option.none_or], (h.enumerated e hmem).matches ?_⟩
        exact h.enumerated e' (h.permTacit.mem_iff.1 (mem_of_chosen hfound).1)

/-- Names come to stand for the same. -/
theorem agree : Agree origin (types ++ rest ++ tacit) (types' ++ rest ++ tacit') where
  there := h.agree_there
  back hchosen := by
    obtain ⟨e, he, hmatches⟩ := h.symm.agree_there hchosen
    exact ⟨e, he, hmatches.symm⟩

/-- No type is in the way of another. -/
theorem gather_types : gather origin.entryReports [] types =
    types.flatMap (origin.entryReports []) := by
  rw [← gather_const (origin.entryReports []) []]
  refine gather_congr types fun done e rest' htypes => ?_
  have hmem : e ∈ types ++ rest := by
    rw [htypes]
    exact List.mem_append_left _ (List.mem_append_right _ List.mem_cons_self)
  refine entryReports_of_declared (h.declared e hmem) ?_
  have hnone : origin.chosen done e.name = none := by
    refine Option.eq_none_iff_forall_ne_some.2 fun e' he' => ?_
    obtain ⟨hdone, hname⟩ := mem_of_chosen he'
    have hnodup := h.distinct
    rw [htypes, List.map_append, List.map_cons] at hnodup
    exact (List.nodup_append.1 hnodup).2.2 _ (List.mem_map_of_mem hdone) _ List.mem_cons_self hname
  rw [List.nil_append, hnone, chosen, List.find?_nil, ite_self]

theorem gather_rest : gather origin.entryReports types' rest =
    gather origin.entryReports types rest := by
  refine gather_congr rest fun done e rest' hrest => ?_
  refine entryReports_of_declared (h.declared e ?_) (h.chosen_declared done _)
  rw [hrest]
  exact List.mem_append_right _ (List.mem_append_right _ List.mem_cons_self)

theorem gather_tacit : gather origin.entryReports (types ++ rest) tacit =
    tacit.flatMap (origin.entryReports (types ++ rest)) := by
  rw [← gather_const (origin.entryReports (types ++ rest)) []]
  refine gather_congr tacit fun done e rest' htacit => ?_
  have hmem : e ∈ tacit := by
    rw [htacit]
    exact List.mem_append_right _ List.mem_cons_self
  refine entryReports_of_tacit (h.enumerated e hmem).tacit (namesType_eq (fun e' he' => ?_) _)
  refine h.enumerated e' ?_
  rw [htacit]
  exact List.mem_append_left _ he'

theorem entryReports_tacit (he : e ∈ tacit) : origin.entryReports (types' ++ rest) e =
    origin.entryReports (types ++ rest) e := by
  refine entryReports_of_tacit (h.enumerated e he).tacit ?_
  rw [Bool.eq_iff_iff, namesType_eq_true_iff, namesType_eq_true_iff]
  simp only [h.chosen_declared]

/-- The same is reported about names that are illegal or taken. -/
theorem perm_gather : (gather origin.entryReports [] (types' ++ rest ++ tacit')).Perm
    (gather origin.entryReports [] (types ++ rest ++ tacit)) := by
  simp only [gather_append, List.nil_append]
  rw [h.gather_types, h.symm.gather_types, h.gather_rest, h.gather_tacit, h.symm.gather_tacit]
  refine ((h.permTypes.flatMap_right _).append_right _).append
    ((h.permTacit.flatMap_right _).trans ?_)
  exact .of_eq (List.flatMap_congr fun e he => h.entryReports_tacit he)

/-- The same entries of what is not a type come to stand for their names. -/
theorem entrants_eq (constants params : List Entry) :
    gather origin.entrants (types' ++ constants) params =
      gather origin.entrants (types ++ constants) params := by
  refine gather_congr params fun done e rest' _ => ?_
  simp only [entrants, Enters, List.append_assoc, h.chosen_declared]

end Reorders

end Draft

/-! ## Modules -/

section

variable {m : Module} {types : List TypeDecl} {origin base base' : Draft}
  {declarations declarations' : Declarations}

/-- The entries of a module whose types are written in another order. -/
theorem Module.reorders (hperm : types.Perm m.types)
    (hdistinct : (m.types.map TypeDecl.name).Nodup) (origin : Table) :
    Draft.Reorders (m.types.map (Entry.ofType m)) (types.map (Entry.ofType m))
      (m.constants.map (Entry.ofConstant m) ++ m.paramEntries)
      ((Node.module m).enumElements.filterMap (Entry.ofElement? m origin))
      ((Node.module (m.withTypes types)).enumElements.filterMap (Entry.ofElement? m origin)) where
  permTypes := hperm.map _
  distinct := by
    rw [List.map_map]
    exact hdistinct
  declared e he := by
    simp only [List.mem_append, List.mem_map] at he
    rcases he with ⟨decl, -, rfl⟩ | ⟨constant, -, rfl⟩ | hparam
    · rfl
    · rfl
    · rw [Module.paramEntries] at hparam
      split at hparam
      · obtain ⟨p, -, hp⟩ := List.mem_filterMap.1 hparam
        cases p with
        | model reference => cases hp
        | value name type span =>
            cases hp
            rfl
      · exact absurd hparam List.not_mem_nil
  permTacit := (Node.perm_enumElements hperm).filterMap _
  enumerated e he := by
    obtain ⟨element, -, helement⟩ := List.mem_filterMap.1 he
    cases element with
    | constant id =>
        rw [Entry.ofElement?] at helement
        split at helement
        · cases helement
          exact ⟨rfl, rfl, rfl⟩
        · cases helement
    | _ => cases helement

theorem Module.entries_eq (m : Module) (origin : Table) : m.entries origin =
    m.types.map (Entry.ofType m) ++ (m.constants.map (Entry.ofConstant m) ++ m.paramEntries) ++
      (Node.module m).enumElements.filterMap (Entry.ofElement? m origin) := by
  rw [Module.entries, Module.leadingEntries, List.append_assoc (m.types.map _)]

theorem Module.entries_withTypes (m : Module) (types : List TypeDecl) (origin : Table) :
    (m.withTypes types).entries origin =
      types.map (Entry.ofType m) ++ (m.constants.map (Entry.ofConstant m) ++ m.paramEntries) ++
        (Node.module (m.withTypes types)).enumElements.filterMap (Entry.ofElement? m origin) :=
  Module.entries_eq (m.withTypes types) origin

section

variable (hperm : types.Perm m.types) (hdistinct : (m.types.map TypeDecl.name).Nodup)
  (h : Draft.Enrollment m origin base declarations)
  (h' : Draft.Enrollment (m.withTypes types) origin base' declarations')
include hperm hdistinct h h'

/-- What is entered in either order is the same up to handles. -/
theorem Draft.Enrollment.twins (hintact : origin.Intact) :
    Twins origin (m.entries origin.table) ((m.withTypes types).entries origin.table)
      base base' where
  intact := hintact
  left := h.roster
  right := h'.roster
  agree := by
    rw [Module.entries_withTypes, Module.entries_eq]
    exact (Module.reorders hperm hdistinct origin.table).agree

theorem Draft.Enrollment.perm_reports : base'.table.reports.Perm base.table.reports := by
  rw [h.roster.reports_eq, h'.roster.reports_eq, Module.entries_withTypes, Module.entries_eq]
  exact (Module.reorders hperm hdistinct origin.table).perm_gather.append_left _

theorem Draft.Enrollment.params_eq :
    declarations'.params.map Parameter.name = declarations.params.map Parameter.name := by
  rw [h.params, h'.params]
  exact congrArg (List.map Entry.name)
    ((Module.reorders hperm hdistinct origin.table).entrants_eq _ _)

end

end

end ManySorted
