import ManySorted.Import
import ManySorted.Proofs.Draft.Run
import Mathlib.Tactic.ByContra

/-!
# Imports that are refused

An import is refused for one of four reasons (`Table.Refuses`).  A refused import is reported as an
error and does nothing else (`Draft.importModule_of_refuses`).
-/

namespace ManySorted

/-- The reasons not to import `foreign` as `reference` asks. -/
inductive Table.Refuses (names : Interner) (t : Table) (reference : ModuleRef) (foreign : Table) :
    Prop
  | invalid (h : foreign.isValid = false)
  | composition {reason : String}
      (h : compositionError? t.kind reference.kind foreign.kind = some reason)
  | badRenaming {name : Name} (h : reference.rename = some name)
      (illegal : isLegalId (names.text name) = false)
  /-- Two different tables go by one module name. -/
  | collision {name : Name} {id other : TableId} (mine : t.dependencies.find? name = some id)
      (theirs : (name, other) ∈ foreign.dependencies.toList) (differ : id ≠ other)

namespace Table

variable {names : Interner} {t foreign : Table} {reference : ModuleRef} {problem : Problem}

theorem moduleClash?_eq_none_iff : t.moduleClash? foreign = none ↔
    ∀ name id other, t.dependencies.find? name = some id →
      (name, other) ∈ foreign.dependencies.toList → id = other := by
  rw [moduleClash?, Option.map_eq_none_iff, List.find?_eq_none]
  constructor
  · intro h name id other hmine htheirs
    have hsame := h (name, other) htheirs
    dsimp only at hsame
    rw [hmine] at hsame
    simpa using hsame
  · rintro h ⟨name, other⟩ htheirs
    dsimp only
    cases hmine : t.dependencies.find? name with
    | none => exact Bool.false_ne_true
    | some id => simpa using h name id other hmine htheirs

theorem illegalId?_eq_none_iff {name : Name} {usage : String} :
    Draft.illegalId? names name usage = none ↔ isLegalId (names.text name) = true := by
  rw [Draft.illegalId?]
  split
  · next h => exact iff_of_true rfl h
  · next h => exact iff_of_false (Option.some_ne_none _) h

theorem importRefusal?_eq_none_iff :
    t.importRefusal? names reference foreign = none ↔ ¬ t.Refuses names reference foreign := by
  constructor
  · intro h hrefuses
    unfold importRefusal? at h
    split at h
    · cases h
    · next hvalid =>
        split at h
        · cases h
        · next hcomposition =>
            split at h
            · cases h
            · next hrenaming =>
                rw [Option.map_eq_none_iff, moduleClash?_eq_none_iff] at h
                cases hrefuses with
                | invalid hinvalid =>
                    rw [hinvalid] at hvalid
                    exact hvalid rfl
                | composition hreason => cases hreason.symm.trans hcomposition
                | badRenaming hname hillegal =>
                    rw [hname, Option.bind_some, illegalId?_eq_none_iff, hillegal] at hrenaming
                    exact Bool.false_ne_true hrenaming
                | collision mine theirs differ => exact differ (h _ _ _ mine theirs)
  · intro h
    have hvalid : foreign.isValid = true := by
      by_contra hinvalid
      exact h (.invalid (Bool.eq_false_iff.2 hinvalid))
    have hcomposition : compositionError? t.kind reference.kind foreign.kind = none := by
      by_contra hreason
      obtain ⟨reason, hreason⟩ := Option.ne_none_iff_exists'.1 hreason
      exact h (.composition hreason)
    have hrenaming : reference.rename.bind (Draft.illegalId? names · "a renaming") = none := by
      rw [Option.bind_eq_none_iff]
      intro name hname
      rw [illegalId?_eq_none_iff]
      by_contra hillegal
      exact h (.badRenaming hname (Bool.eq_false_iff.2 hillegal))
    have hclash : t.moduleClash? foreign = none := by
      rw [moduleClash?_eq_none_iff]
      intro name id other mine theirs
      by_contra differ
      exact h (.collision mine theirs differ)
    simp only [importRefusal?, hvalid, hcomposition, hrenaming, hclash, Bool.not_true,
      Bool.false_eq_true, if_false, Option.map_none]

/-- A table that is not refused is valid. -/
theorem isValid_of_importRefusal? (h : t.importRefusal? names reference foreign = none) :
    foreign.isValid = true := by
  by_contra hinvalid
  exact importRefusal?_eq_none_iff.1 h (.invalid (Bool.eq_false_iff.2 hinvalid))

/-- A table that is not refused agrees on what modules are called. -/
theorem moduleClash?_of_importRefusal? (h : t.importRefusal? names reference foreign = none) :
    t.moduleClash? foreign = none := by
  rw [moduleClash?_eq_none_iff]
  intro name id other mine theirs
  by_contra differ
  exact importRefusal?_eq_none_iff.1 h (.collision mine theirs differ)

/-- A table that is not refused is imported under a legal name, if it is renamed. -/
theorem isLegalId_of_importRefusal? (h : t.importRefusal? names reference foreign = none)
    {name : Name} (hname : reference.rename = some name) : isLegalId (names.text name) = true := by
  by_contra hillegal
  exact importRefusal?_eq_none_iff.1 h (.badRenaming hname (Bool.eq_false_iff.2 hillegal))

/-- The table can be imported into one of the kind, but for what modules are called. -/
structure Fits (foreign : Table) (names : Interner) (kind : ModuleKind) (reference : ModuleRef) :
    Prop where
  valid : foreign.isValid = true
  composition : compositionError? kind reference.kind foreign.kind = none
  legal : ∀ {name}, reference.rename = some name → isLegalId (names.text name) = true

/-- A table is not refused if it fits and agrees on what modules are called. -/
theorem importRefusal?_eq_none_iff_fits : t.importRefusal? names reference foreign = none ↔
    foreign.Fits names t.kind reference ∧ t.moduleClash? foreign = none := by
  refine ⟨fun h => ⟨⟨isValid_of_importRefusal? h, ?_, isLegalId_of_importRefusal? h⟩,
    moduleClash?_of_importRefusal? h⟩, ?_⟩
  · by_contra hreason
    obtain ⟨reason, hreason⟩ := Option.ne_none_iff_exists'.1 hreason
    exact importRefusal?_eq_none_iff.1 h (.composition hreason)
  · rintro ⟨hfits, hclash⟩
    refine importRefusal?_eq_none_iff.2 fun hrefuses => ?_
    cases hrefuses with
    | invalid hinvalid => cases hfits.valid.symm.trans hinvalid
    | composition hreason => cases hfits.composition.symm.trans hreason
    | badRenaming hname hillegal => cases (hfits.legal hname).symm.trans hillegal
    | collision mine theirs differ =>
      exact differ (moduleClash?_eq_none_iff.1 hclash _ _ _ mine theirs)

/-- Every reason for refusing a table is an error. -/
theorem isWarning_of_importRefusal? (h : t.importRefusal? names reference foreign = some problem) :
    problem.isWarning = false := by
  unfold importRefusal? at h
  split at h
  · cases h
    rfl
  · split at h
    · cases h
      rfl
    · split at h
      · next hid =>
          cases h
          obtain ⟨name, _, hillegal⟩ := Option.bind_eq_some_iff.1 hid
          unfold Draft.illegalId? at hillegal
          split at hillegal
          · cases hillegal
          · cases hillegal
            rfl
      · obtain ⟨name, _, rfl⟩ := Option.map_eq_some_iff.1 h
        rfl

end Table

namespace Draft

variable {d : Draft} {reference : ModuleRef} {foreign : Table}

/-- A refused import appends one error, and but for the verdict nothing else happens. -/
theorem importModule_of_refuses (h : d.table.Refuses d.names reference foreign) :
    ∃ problem : Problem, problem.isWarning = false ∧
      importModule reference foreign d = .ok () { d with table := { d.table with
        validity := d.table.validity.falsify
        reports := d.table.reports ++ [⟨⟨d.table.file, reference.span⟩, problem⟩] } } := by
  cases hrefusal : d.table.importRefusal? d.names reference foreign with
  | none => exact absurd h (Table.importRefusal?_eq_none_iff.1 hrefusal)
  | some problem =>
      have hgrave := Table.isWarning_of_importRefusal? hrefusal
      refine ⟨problem, hgrave, ?_⟩
      rw [importModule, get_bind, hrefusal]
      change EStateM.Result.ok () { d with table := d.table.report _ } = _
      rw [Table.report, Report.isWarning, hgrave]
      rfl

end Draft

end ManySorted
