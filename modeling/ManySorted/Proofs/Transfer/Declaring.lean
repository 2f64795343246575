import ManySorted.Proofs.Echo.Restricting
import ManySorted.Proofs.Transfer.Placing

/-!
# Declarations of one module among those of another

All that one module declares may be declared by another one as well, under counterparts of the
symbols (`Draft.Portion`), where the first one refers to nothing but what has a counterpart.  If its
terms have no problems, then they have none there either, and the forms that are written are the
same up to the renaming, provided that this is so for what is not declared
(`Draft.Conveyed.renders`).

## Strategy

* **Resolving.**  Terms without problems name what has a counterpart, so a declaration is resolved
  to counterparts and has no problems there either (`Draft.Portion.resolved`,
  `Draft.Portion.typeProblems_eq_nil`).
* **Opening unions.**  Unions of the module are opened to counterparts, and the others accept the
  counterparts of what they accept (`Draft.Conveyed.mirroring`).
* **Forms.**  So the form of a symbol is that of its counterpart (`Draft.Conveyed.form`), and what
  forms speak of has counterparts (`Draft.Conveyed.inside`).
* **Restrictions.**  What new data and parameters accept is found again, so nothing is reported
  there if nothing is reported here (`Draft.Conveyed.newnessReports_eq_nil`,
  `Draft.Conveyed.parameterReports_eq_nil`).
-/

namespace ManySorted

/-- Members that are listed as types are told by their symbols. -/
theorem Draft.Registered.mem_types_of_owns {m : Module} {origin : Table} {start : Draft}
    {declarations : Declarations} {x : SymbolId} (h : Draft.Registered m origin declarations start)
    (howns : start.table.Owns x) (hkind : (start.table.kindOf x).isDeclaredType = true) :
    ∃ b ∈ declarations.types, b.symbol = x :=
  List.mem_map.1 (h.listsTypes.mem_iff.2 ⟨howns, hkind⟩)

/-- Nothing is reported about new data just if nothing derived is behind what it refers to. -/
theorem Table.newnessReports_eq_nil_iff {t : Table} {names : Interner} {r : ResolvedType} :
    t.newnessReports names r = [] ↔ ((t.symbolAt r.symbol).failed = false →
      (t.kindOf r.symbol).isNew = true → ∀ ref ∈ r.refs, t.derivedBehind ref = []) := by
  rw [Table.newnessReports, ← List.flatMap_eq_nil_iff]
  dsimp only
  split
  · next hskip =>
      refine iff_of_true rfl fun hstands hnew => ?_
      rw [hstands, show (t.symbolAt r.symbol).kind.isNew = true from hnew] at hskip
      cases hskip
  · next hkept =>
      rw [Bool.not_eq_true, Bool.or_eq_false_iff, Bool.not_eq_false'] at hkept
      rw [List.map_eq_nil_iff]
      exact ⟨fun hnone _ _ => hnone, fun hnone => hnone hkept.1 hkept.2⟩

/-- No label is reported just if none is the name of a namespace. -/
theorem Table.labelReports_eq_nil_iff {t : Table} {names : Interner} {m : Module} :
    t.labelReports names m = [] ↔
      ∀ entry ∈ m.declaredFields, ∀ label ∈ entry.2.label, label ∉ t.namespaceNames := by
  rw [Table.labelReports, List.filterMap_eq_nil_iff]
  refine forall₂_congr fun entry _ => ?_
  obtain ⟨owner, field⟩ := entry
  cases hlabel : field.label with
  | none => simp [hlabel]
  | some label => simp [hlabel]

namespace Draft

variable {m m' : Module} {origin origin' : Table} {start start' d d' : Draft}
  {declarations declarations' : Declarations} {D : SymbolId → Prop} {f : SymbolId → SymbolId}
  {x u : SymbolId}

/-- What is declared in one run without problems is declared in the other as well, under
counterparts, and its identifiers find counterparts there. -/
structure Portion (m : Module) (start start' : Draft) (declarations declarations' : Declarations)
    (D : SymbolId → Prop) (f : SymbolId → SymbolId) : Prop where
  table : start.table.Echoes start'.table D f
  type : ∀ b ∈ declarations.types, D b.symbol ∧ b.rename f ∈ declarations'.types ∧
    ∀ terms ∈ b.decl.body.positions, start.table.Finds start'.table D f (Names terms)
  param : ∀ p ∈ declarations.params, D p.symbol ∧ p.rename f ∈ declarations'.params ∧
    start.table.Finds start'.table D f (Names p.type)
  cleanType : ∀ b ∈ declarations.types, start.typeProblems m b = []
  cleanParam : ∀ p ∈ declarations.params, (start.resolvedParam m p).problems = []

namespace Portion

variable (h : Portion m start start' declarations declarations' D f)
include h

theorem problems_eq_nil {b : Declaration} (hb : b ∈ declarations.types) {terms : List TypeTerm}
    (hterms : terms ∈ b.decl.body.positions) :
    ((start.scope m b.decl.name).resolvePosition terms).problems = [] :=
  List.flatMap_eq_nil_iff.1 (h.cleanType b hb) _ (List.mem_map_of_mem hterms)

/-- A declaration is resolved to counterparts. -/
theorem resolved {b : Declaration} (hb : b ∈ declarations.types) (m' : Module) :
    start'.resolved m' (b.rename f) = (start.resolved m b).rename f := by
  obtain ⟨-, -, hfinds⟩ := h.type b hb
  simp only [Draft.resolved, Declaration.rename, ResolvedType.rename, List.map_map]
  refine congrArg _ (List.map_congr_left fun terms hterms => ?_)
  have hscope : (start.scope m b.decl.name).table.Finds (start'.scope m' b.decl.name).table D f
    (Names terms) := hfinds terms hterms
  exact hscope.resolvePosition (fun term hterm id hid => ⟨term, hterm, hid⟩)
    (h.problems_eq_nil hb hterms)

theorem resolvedParam {p : Parameter} (hp : p ∈ declarations.params) (m' : Module) :
    start'.resolvedParam m' (p.rename f) = (start.resolvedParam m p).rename f := by
  have hscope : (start.scope m p.name).table.Finds (start'.scope m' p.name).table D f
    (Names p.type) := (h.param p hp).2.2
  exact hscope.resolvePosition (fun term hterm _ hid => ⟨term, hterm, hid⟩) (h.cleanParam p hp)

/-- What has no problems has none in the other run. -/
theorem typeProblems_eq_nil {b : Declaration} (hb : b ∈ declarations.types) (m' : Module) :
    start'.typeProblems m' (b.rename f) = [] := by
  rw [typeProblems, h.resolved hb, ResolvedType.rename, List.flatMap_map]
  exact h.cleanType b hb

theorem paramProblems_eq_nil {p : Parameter} (hp : p ∈ declarations.params) (m' : Module) :
    (start'.resolvedParam m' (p.rename f)).problems = [] := by
  rw [h.resolvedParam hp]
  exact h.cleanParam p hp

theorem inside_of_type {b : Declaration} (hb : b ∈ declarations.types) {terms : List TypeTerm}
    (hterms : terms ∈ b.decl.body.positions) {x : SymbolId}
    (hx : x ∈ ((start.scope m b.decl.name).resolvePosition terms).refs) : D x :=
  have hscope : (start.scope m b.decl.name).table.Finds start'.table D f (Names terms) :=
    (h.type b hb).2.2 terms hterms
  hscope.inside_of_mem_refs (fun term hterm _ hid => ⟨term, hterm, hid⟩) hx

theorem inside_of_param {p : Parameter} (hp : p ∈ declarations.params) {x : SymbolId}
    (hx : x ∈ (start.resolvedParam m p).refs) : D x :=
  have hscope : (start.scope m p.name).table.Finds start'.table D f (Names p.type) :=
    (h.param p hp).2.2
  hscope.inside_of_mem_refs (fun term hterm _ hid => ⟨term, hterm, hid⟩) hx

/-- The unions among the members of a position have counterparts. -/
theorem inside_of_union {b : Declaration} (hb : b ∈ declarations.types) {terms : List TypeTerm}
    (hterms : terms ∈ b.decl.body.positions)
    (hu : .union u ∈ ((start.scope m b.decl.name).resolvePosition terms).members) : D u :=
  h.inside_of_type hb hterms (Scope.mem_refs_of_union (h.problems_eq_nil hb hterms) hu).1

theorem inside_of_paramUnion {p : Parameter} (hp : p ∈ declarations.params)
    (hu : .union u ∈ (start.resolvedParam m p).members) : D u :=
  h.inside_of_param hp (Scope.mem_refs_of_union (h.cleanParam p hp) hu).1

end Portion

/-- What one module declares is declared in both runs, and what it does not declare itself is found
in both alike. -/
structure Conveyed (m m' : Module) (origin origin' : Table) (start start' d d' : Draft)
    (declarations declarations' : Declarations) (D : SymbolId → Prop) (f : SymbolId → SymbolId) :
    Prop where
  portion : Portion m start start' declarations declarations' D f
  left : Account m origin declarations start d
  right : Account m' origin' declarations' start' d'
  declared : Declared m origin d
  declared' : Declared m' origin' d'
  unfailed : ∀ x, (d.table.symbolAt x).failed = false
  unfailed' : ∀ x, (d'.table.symbolAt x).failed = false
  normal : ∀ x, d.table.NormalAt x
  normal' : ∀ x, d'.table.NormalAt x
  holds : ∀ {x}, D x → start.table.Holds x ∧ start'.table.Holds (f x)
  covers : ∀ {x}, start.table.Holds x → (start.table.kindOf x).convenience? = none → D x
  imported : ∀ {x}, D x → (start'.table.symbolAt (f x)).isImported = true →
    (start.table.symbolAt x).isImported = true
  /-- What is imported, built in or a convenience has a form before. -/
  preset : ∀ {x}, D x → ¬ (start.table.Owns x ∧ (start.table.kindOf x).convenience? = none) →
    ¬ start.table.IsSort x →
    (d'.table.symbolAt (f x)).canonical =
      (d.table.symbolAt x).canonical.map (CanonicalForm.rename f)

namespace Conveyed

variable
  (h : Conveyed m m' origin origin' start start' d d' declarations declarations' D f)
include h

theorem echoes : d.table.Echoes d'.table D f := h.portion.table.alike h.left.alike h.right.alike

theorem form_of_preset (hx : D x)
    (hpreset : ¬ (start.table.Owns x ∧ (start.table.kindOf x).convenience? = none))
    (hsort : ¬ start.table.IsSort x) (position : Nat) :
    (d'.table.symbolAt (f x)).accepted? position =
      ((d.table.symbolAt x).accepted? position).map (AcceptedValues.rename f) := by
  rw [Symbol.accepted?, Symbol.accepted?, h.preset hx hpreset hsort]
  cases (d.table.symbolAt x).canonical with
  | none => rfl
  | some form => exact List.getElem?_map

/-! ## Opening unions -/

theorem opened_of_find? {entry : SymbolId × List Member}
    (hfind : (opened m declarations start d).find? u = some entry) : ∃ entry',
    (opened m' declarations' start' d').find? (f u) = some entry' ∧
      entry'.2 = entry.2.map (Member.rename f) := by
  obtain ⟨b, hb, hstands, hunion, rfl⟩ := mem_opened.1 (List.mem_of_find?_eq_some hfind)
  obtain rfl : b.symbol = u := fst_of_find?_opened hfind
  have hentry : (f b.symbol, (start'.resolved m' (b.rename f)).members) ∈
      opened m' declarations' start' d' := by
    refine mem_opened.2 ⟨b.rename f, (h.portion.type b hb).2.1, h.unfailed' _, ?_, rfl⟩
    exact (h.echoes.isUnion (h.portion.type b hb).1).trans hunion
  refine ⟨_, h.right.registered.find?_opened hentry, ?_⟩
  rw [h.portion.resolved hb, ResolvedType.members_rename]

/-- A union that is not opened is not declared by the module. -/
theorem preset_of_unopened (hnone : (opened m declarations start d).find? u = none)
    {convenience : Option Convenience} (hkind : start.table.kindOf u = .union convenience) :
    ¬ (start.table.Owns u ∧ (start.table.kindOf u).convenience? = none) := by
  rintro ⟨howns, hconvenience⟩
  rw [hkind] at hconvenience
  obtain rfl : convenience = none := hconvenience
  obtain ⟨b, hb, rfl⟩ := h.left.registered.mem_types_of_owns howns (by rw [hkind]; rfl)
  have hentry : (b.symbol, (start.resolved m b).members) ∈ opened m declarations start d :=
    mem_opened.2 ⟨b, hb, h.unfailed _, by rw [h.left.alike.isUnion, hkind]; rfl, rfl⟩
  cases hnone.symm.trans (h.left.registered.find?_opened hentry)

/-- Unions are opened to counterparts, or accept counterparts. -/
theorem mirroring : Mirroring (d.table.knownUnion (opened m declarations start d))
    (d'.table.knownUnion (opened m' declarations' start' d'))
    (opened m declarations start d) (opened m' declarations' start' d')
    (fun u => D u ∧ ∃ convenience, start.table.kindOf u = .union convenience) f where
  opened _ hfind := h.opened_of_find? hfind
  inside {u entry w} _ hfind hw := by
    obtain ⟨b, hb, -, -, rfl⟩ := mem_opened.1 (List.mem_of_find?_eq_some hfind)
    obtain ⟨p, hp, hw⟩ := List.mem_flatMap.1 hw
    obtain ⟨terms, hterms, rfl⟩ := List.mem_map.1 hp
    exact ⟨h.portion.inside_of_union hb hterms hw, kindOf_of_mem_members hw⟩
  stored {u} hu hnone q := by
    obtain ⟨hinside, convenience, hkind⟩ := hu
    have haccepted := h.form_of_preset hinside (h.preset_of_unopened hnone hkind)
      (fun hsort => by
        obtain ⟨_, hsort⟩ := hsort
        rw [hkind] at hsort
        cases hsort) 0
    refine Iff.trans
      (h.right.supplies_union_iff (additive_hasPart q) AcceptedValues.not_hasPart_empty) ?_
    rw [haccepted, Table.knownUnion_of_none hnone]
    cases (d.table.symbolAt u).accepted? 0 with
    | none => simp [AcceptedValues.not_hasPart_empty]
    | some v => simp [AcceptedValues.hasPart_rename]

/-! ## The forms of declarations -/

theorem form_of_type {b : Declaration} (hb : b ∈ declarations.types) :
    (d'.table.symbolAt (f b.symbol)).canonical =
      (d.table.symbolAt b.symbol).canonical.map (CanonicalForm.rename f) := by
  have hform := h.left.type b hb (h.unfailed _)
  have hform' := h.right.type (b.rename f) (h.portion.type b hb).2.1 (h.unfailed' _)
  have hnormal := h.normal _ _ hform
  have hnormal' := h.normal' _ _ hform'
  rw [h.portion.resolved hb] at hform' hnormal'
  rw [hform]
  refine hform'.trans (congrArg (fun l => some (CanonicalForm.mk l)) ?_)
  simp only [ResolvedType.rename, resolved, List.map_map] at hnormal hnormal' ⊢
  refine List.map_congr_left fun terms hterms => ?_
  exact Table.acceptedAt_rename h.mirroring
    (fun _ hu => ⟨h.portion.inside_of_union hb hterms hu, kindOf_of_mem_members hu⟩)
    (hnormal _ (List.mem_map_of_mem hterms)) (hnormal' _ (List.mem_map_of_mem hterms))

theorem form_of_param {p : Parameter} (hp : p ∈ declarations.params) :
    (d'.table.symbolAt (f p.symbol)).canonical =
      (d.table.symbolAt p.symbol).canonical.map (CanonicalForm.rename f) := by
  have hform := h.left.param p hp (h.unfailed _)
  have hform' := h.right.param (p.rename f) (h.portion.param p hp).2.1 (h.unfailed' _)
  have hnormal := h.normal _ _ hform
  have hnormal' := h.normal' _ _ hform'
  rw [h.portion.resolvedParam hp] at hform' hnormal'
  rw [hform]
  refine hform'.trans (congrArg (fun v => some (CanonicalForm.mk [v])) ?_)
  exact Table.acceptedAt_rename h.mirroring
    (fun _ hu => ⟨h.portion.inside_of_paramUnion hp hu, kindOf_of_mem_members hu⟩)
    (hnormal _ List.mem_cons_self) (hnormal' _ List.mem_cons_self)

/-- Constants have no positions. -/
theorem form_of_constant (hx : D x) {constant : ConstantKind}
    (hkind : d.table.kindOf x = .userConstant constant) (hvalue : constant ≠ .parameter) :
    (d'.table.symbolAt (f x)).canonical =
      (d.table.symbolAt x).canonical.map (CanonicalForm.rename f) := by
  obtain ⟨form, hform⟩ := Option.ne_none_iff_exists'.1
    (h.declared.constant hkind hvalue (h.unfailed x))
  obtain rfl := h.declared.intact.form_eq_empty hkind hvalue hform
  obtain ⟨constant', hkind', hvalue'⟩ := h.echoes.kindOf_constant hx hkind hvalue
  obtain ⟨form', hform'⟩ := Option.ne_none_iff_exists'.1
    (h.declared'.constant hkind' hvalue' (h.unfailed' _))
  obtain rfl := h.declared'.intact.form_eq_empty hkind' hvalue' hform'
  rw [hform, hform']
  rfl

/-- What is no sort has the form of its counterpart. -/
theorem form_of_plain (hx : D x) (hsort : ¬ d.table.IsSort x) :
    (d'.table.symbolAt (f x)).canonical =
      (d.table.symbolAt x).canonical.map (CanonicalForm.rename f) := by
  have hsort' : ¬ start.table.IsSort x := fun hs => hsort (h.left.alike.isSort.2 hs)
  by_cases hown : start.table.Owns x ∧ (start.table.kindOf x).convenience? = none
  · obtain ⟨howns, hconvenience⟩ := hown
    have htype : (start.table.kindOf x).isDeclaredType = true →
        (d'.table.symbolAt (f x)).canonical =
          (d.table.symbolAt x).canonical.map (CanonicalForm.rename f) := by
      intro hkind
      obtain ⟨b, hb, rfl⟩ := h.left.registered.mem_types_of_owns howns hkind
      exact h.form_of_type hb
    cases hkind : start.table.kindOf x with
    | data shape info => exact htype (by rw [hkind]; rfl)
    | union convenience =>
        rw [hkind] at hconvenience
        obtain rfl : convenience = none := hconvenience
        exact htype (by rw [hkind]; rfl)
    | userSort y size => exact absurd ⟨y, by rw [hkind]; rfl⟩ hsort'
    | userConstant constant =>
        by_cases hvalue : constant = .parameter
        · subst hvalue
          obtain ⟨p, hp, rfl⟩ := List.mem_map.1 (h.left.registered.listsParams.mem_iff.2
            ⟨howns, by rw [hkind]; rfl⟩)
          exact h.form_of_param hp
        · exact h.form_of_constant hx ((h.left.alike.kindOf hsort').trans hkind) hvalue
    | baseSort _ | baseOperator _ | baseConstant _ =>
        have hunsettled := howns.unsettled
        rw [Symbol.isSettled_of_isBase
          (show (start.table.kindOf x).isBase = true by rw [hkind]; rfl)] at hunsettled
        cases hunsettled
  · exact h.preset hx hown hsort'

/-- The form of a symbol is that of its counterpart. -/
theorem form (hx : D x) : (d'.table.symbolAt (f x)).canonical =
    (d.table.symbolAt x).canonical.map (CanonicalForm.rename f) := by
  by_cases hsort : d.table.IsSort x
  · -- a sort has the form of its data symbol
    obtain ⟨y, hy⟩ := hsort
    have hinside := h.echoes.data hx (Table.dataOf?_eq_some_iff.2 hy)
    obtain ⟨shape, info, hkind, rfl⟩ := h.declared.intact.formed.families.sort hy
    have hkind' := h.echoes.kindOf_data hinside hkind
    rw [(h.declared.intact.data hkind).form_eq, (h.declared'.intact.data hkind').form_eq]
    exact h.form_of_plain hinside (Table.not_isSort_of_data hkind)
  · exact h.form_of_plain hx hsort

/-- What forms speak of are sorts and constants, so it has counterparts. -/
theorem inside {form : CanonicalForm} (hx : D x)
    (hform : (d.table.symbolAt x).canonical = some form) {y : SymbolId} (hy : y ∈ form.refs) :
    D y := by
  have hholds : d.table.Holds x := (h.left.alike.holds x).2 (h.holds hx).1
  have hthere := h.declared.intact.holds_of_mem_refs hholds hform hy
  refine h.covers ((h.left.alike.holds y).1 hthere) ?_
  rw [← convenience?_unsized, ← h.left.alike.unsized, convenience?_unsized]
  rcases (h.declared.intact.closed hholds).mentions (.inl ⟨form, hform, hy⟩) with hsort | hconstant
  · obtain ⟨_, hsort⟩ := hsort
    obtain ⟨size, hkind⟩ := SymbolKind.unsized_eq_userSort.1 hsort
    rw [hkind]
    rfl
  · rw [Table.IsConstant] at hconstant
    cases hkind : d.table.kindOf y <;> first | rfl | (rw [hkind] at hconstant; cases hconstant)

/-- What a module comes to is found again where its declarations are among others. -/
theorem renders : d.table.Renders d'.table D f where
  toEchoes := h.echoes
  holds hx := ⟨(h.left.alike.holds _).2 (h.holds hx).1, (h.right.alike.holds _).2 (h.holds hx).2⟩
  form := h.form
  inside hx hform _ hy := h.inside hx hform hy
  normal _ := h.normal _
  failed _ := (h.unfailed' _).trans (h.unfailed _).symm
  imported {x} hx himported := by
    rw [Symbol.isImported, h.right.alike.origin, ← Symbol.isImported] at himported
    rw [Symbol.isImported, h.left.alike.origin, ← Symbol.isImported]
    exact h.imported hx himported

/-- New data that takes nothing derived takes nothing derived where it is found again. -/
theorem newnessReports_eq_nil {b : Declaration} (hb : b ∈ declarations.types)
    (hclean : d.table.newnessReports d.names (start.resolved m b) = []) :
    d'.table.newnessReports d'.names (start'.resolved m' (b.rename f)) = [] := by
  rw [Table.newnessReports_eq_nil_iff] at hclean ⊢
  intro _ hnew
  rw [h.portion.resolved hb, ResolvedType.refs_rename, List.forall_mem_map]
  intro r hr
  have hinside : D r := by
    obtain ⟨p, hp, hr⟩ := List.mem_flatMap.1 hr
    obtain ⟨terms, hterms, rfl⟩ := List.mem_map.1 hp
    exact h.portion.inside_of_type hb hterms hr
  have hperm := h.renders.perm_derivedBehind hinside
  rw [hclean (h.unfailed _) ((h.echoes.isNew (h.portion.type b hb).1).symm.trans hnew) r hr,
    List.map_nil] at hperm
  exact hperm.eq_nil

/-- A parameter that accepts no new data of outputs accepts none where it is found again, if data of
outputs is that of outputs there. -/
theorem parameterReports_eq_nil {outputs outputs' : List NamespaceId} {p : Parameter}
    (hp : p ∈ declarations.params)
    (hwithin : ∀ {x}, D x →
      outputs'.any (d'.table.isWithin (d'.table.symbolAt (f x)).home) = true →
        outputs.any (d.table.isWithin (d.table.symbolAt x).home) = true)
    (hclean : d.table.parameterReports d.names outputs p.symbol = []) :
    d'.table.parameterReports d'.names outputs' (f p.symbol) = [] := by
  have hinside := (h.portion.param p hp).1
  rw [Table.parameterReports] at hclean
  rw [Table.parameterReports, h.renders.accepted? hinside]
  cases hv : (d.table.symbolAt p.symbol).accepted? 0 with
  | none => rfl
  | some v =>
      rw [hv] at hclean
      dsimp only [Option.map_some] at hclean ⊢
      rw [List.filterMap_eq_nil_iff] at hclean ⊢
      intro y' hy'
      obtain ⟨s', hs', hdata'⟩ := List.mem_filterMap.1 hy'
      obtain ⟨s, hs, rfl⟩ := List.mem_map.1 ((h.renders.perm_sorts hinside hv).mem_iff.1 hs')
      have hsort : D s := h.renders.accepted_refs hinside hv s (AcceptedValues.mem_refs.2 (.inr hs))
      rw [h.renders.dataOf? hsort] at hdata'
      obtain ⟨y, hdata, rfl⟩ := Option.map_eq_some_iff.1 hdata'
      have hy := h.renders.data hsort hdata
      have hnew : (d'.table.symbolAt (f y)).kind.isNew = (d.table.symbolAt y).kind.isNew :=
        h.echoes.isNew hy
      have hthere := hclean y (List.mem_filterMap.2 ⟨s, hs, hdata⟩)
      refine if_neg fun hboth => ?_
      rw [Bool.and_eq_true] at hboth
      refine absurd hthere ?_
      rw [if_pos (by rw [Bool.and_eq_true]; exact ⟨hnew.symm.trans hboth.1, hwithin hy hboth.2⟩)]
      exact fun hnone => by cases hnone

end Conveyed

end Draft

end ManySorted
