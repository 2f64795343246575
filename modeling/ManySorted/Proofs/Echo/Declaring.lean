import ManySorted.Proofs.Echo.Conveniences
import ManySorted.Proofs.Echo.Forms
import ManySorted.Proofs.Echo.Registering
import ManySorted.Proofs.Echo.Rendering

/-!
# Declaring in another order

What the types of a module come to does not depend on their order (`Draft.Enacted.renders`).
Imported symbols are the same in both drafts, and conveniences accept counterparts.  A union that is
opened has a counterpart that is opened to counterparts, so positions accept counterparts
(`Draft.Enacted.acceptedAt_rename`), and so all declarations have the forms of their counterparts.

## Strategy

* **Before types are resolved.**  Imported symbols are the same in both drafts, conveniences accept
  counterparts, and what failed has no form, like its counterpart (`Draft.Enacted.form_of_imported`,
  `Draft.Enacted.form_of_convenience`, `Draft.Enacted.form_of_failed`).
* **Opening unions.**  A union that is opened has a counterpart that is opened to counterparts, and
  any other union accepts the counterparts of what it accepts (`Draft.Enacted.mirroring`).
* **Forms.**  So positions accept counterparts, and the form of a symbol is that of its counterpart
  (`Draft.Enacted.form`), by the kind of symbol.
-/

namespace ManySorted

namespace Table

variable {names : Interner} {t t' : Table} {x : SymbolId} {form : CanonicalForm}

theorem holds_of_union {convenience : Option Convenience} (h : t.kindOf x = .union convenience) :
    t.Holds x :=
  holds_of_kindOf (by rw [h]; simp)

/-- What forms speak of is there. -/
theorem Intact.holds_of_mem_refs (h : t.Intact names) (hx : t.Holds x)
    (hform : (t.symbolAt x).canonical = some form) {y : SymbolId} (hy : y ∈ form.refs) :
    t.Holds y := by
  rcases (h.closed hx).mentions (.inl ⟨form, hform, hy⟩) with hsort | hconstant
  · exact hsort.holds
  · exact hconstant.holds

end Table

namespace Draft

variable {m : Module} {types : List TypeDecl} {imported origin start start' d d' : Draft}
  {declarations declarations' : Declarations} {f : SymbolId → SymbolId} {x u : SymbolId}

/-- The types of a module have been declared in two orders. -/
structure Enacted (m : Module) (types : List TypeDecl) (imported origin start start' d d' : Draft)
    (declarations declarations' : Declarations) (f : SymbolId → SymbolId) : Prop where
  coupled : Coupled m types imported origin start start' declarations declarations' f
  left : Account m imported.table declarations start d
  right : Account (m.withTypes types) imported.table declarations' start' d'
  declared : Declared m imported.table d
  declared' : Declared (m.withTypes types) imported.table d'
  failed : ∀ {x}, d.table.Holds x →
    (d'.table.symbolAt (f x)).failed = (d.table.symbolAt x).failed
  intact : imported.Intact
  normal : ∀ x, imported.table.NormalAt x
  tree : origin.table.Tree
  spelled : origin.table.Spelled origin.names

/-- The unions that are opened once a module is declared. -/
def opened (m : Module) (declarations : Declarations) (start d : Draft) : UnionMembers :=
  d.table.unionMembers (declarations.types.map (start.resolved m))

theorem mem_opened {entry : SymbolId × List Member} :
    entry ∈ opened m declarations start d ↔ ∃ b ∈ declarations.types, d.Stands b.symbol ∧
      (d.table.kindOf b.symbol).isUnion = true ∧
        (b.symbol, (start.resolved m b).members) = entry := by
  rw [opened, mem_unionMembers]
  constructor
  · rintro ⟨r, hr, hstands, hunion, hentry⟩
    obtain ⟨b, hb, rfl⟩ := List.mem_map.1 hr
    exact ⟨b, hb, hstands, hunion, hentry⟩
  · rintro ⟨b, hb, hstands, hunion, hentry⟩
    exact ⟨_, List.mem_map_of_mem hb, hstands, hunion, hentry⟩

theorem fst_of_find?_opened {unions : UnionMembers} {entry : SymbolId × List Member}
    (hfind : unions.find? u = some entry) : entry.1 = u := by
  rw [UnionMembers.find?] at hfind
  simpa using List.find?_some hfind

theorem Registered.find?_opened {origin : Table} (h : Registered m origin declarations start)
    {entry : SymbolId × List Member} (hentry : entry ∈ opened m declarations start d) :
    (opened m declarations start d).find? entry.1 = some entry := by
  refine find?_of_nodup ?_ hentry
  rw [opened, Table.unionMembers, List.map_map]
  refine List.Nodup.sublist (List.Sublist.map _ List.filter_sublist) ?_
  rw [List.map_map]
  exact h.listsTypes.nodup

/-- A union that is met is among the symbols of the table. -/
theorem kindOf_of_mem_members {owner : Name} {terms : List TypeTerm}
    (hu : .union u ∈ ((start.scope m owner).resolvePosition terms).members) :
    ∃ convenience, start.table.kindOf u = .union convenience := by
  obtain ⟨v, hv, -⟩ | ⟨u', convenience, heq, hkind⟩ := Scope.member_cases hu
  · cases hv
  · cases heq
    exact ⟨convenience, hkind⟩

namespace Enacted

variable (h : Enacted m types imported origin start start' d d' declarations declarations' f)
include h

/-- The drafts hold the same. -/
theorem mates : Mates origin d d' f :=
  h.coupled.mates.alike h.left.names_eq h.left.alike h.right.names_eq h.right.alike

theorem qualifiedName (hx : d.table.Holds x) :
    d'.table.qualifiedName d'.names (f x) = d.table.qualifiedName d.names x :=
  h.mates.qualifiedName h.tree h.spelled hx

theorem holds_imported (hx : imported.table.Holds x) : d.table.Holds x ∧ f x = x :=
  h.mates.kept (h.coupled.older hx)

theorem symbolAt_imported (hx : imported.table.Holds x) :
    d.table.symbolAt x = imported.table.symbolAt x :=
  ((h.coupled.left.extended.later.trans h.left.later).symbol hx).settled (h.coupled.settled hx)

theorem symbolAt_imported' (hx : imported.table.Holds x) :
    d'.table.symbolAt x = imported.table.symbolAt x :=
  ((h.coupled.right.extended.later.trans h.right.later).symbol hx).settled (h.coupled.settled hx)

theorem owns_of_new (hx : d.table.Holds x) (hnew : ¬ imported.table.Holds x) :
    start.table.Owns x := by
  have hholds := (h.left.alike.holds x).1 hx
  obtain ⟨horigin, -, hbase⟩ := h.coupled.left.extended.new hholds hnew
  exact Table.owns_of_origin hholds horigin hbase

/-- What is imported is in normal form, and so is all else. -/
theorem normalAt (x : SymbolId) : d.table.NormalAt x := by
  refine h.left.normalAt h.declared.intact (fun x himported => ?_) x
  by_cases hold : imported.table.Holds x
  · rw [Table.NormalAt, h.symbolAt_imported hold]
    exact h.normal x
  · by_cases hx : d.table.Holds x
    · have hunsettled := ((h.left.alike.owns).2 (h.owns_of_new hx hold)).unsettled
      rw [Symbol.isSettled, himported] at hunsettled
      cases hunsettled
    · rw [Table.NormalAt, Table.symbolAt_of_not_holds hx]
      exact fun form hform => by cases hform

theorem normalAt' (x : SymbolId) : d'.table.NormalAt x := by
  refine h.right.normalAt h.declared'.intact (fun x himported => ?_) x
  by_cases hold : imported.table.Holds x
  · rw [Table.NormalAt, h.symbolAt_imported' hold]
    exact h.normal x
  · by_cases hx : d'.table.Holds x
    · have hholds := (h.right.alike.holds x).1 hx
      obtain ⟨horigin, -, -⟩ := h.coupled.right.extended.new hholds hold
      rw [Symbol.isImported, h.right.alike.origin, horigin] at himported
      cases himported
    · rw [Table.NormalAt, Table.symbolAt_of_not_holds hx]
      exact fun form hform => by cases hform

/-! ## Forms that are there before types are resolved -/

theorem form_of_imported (hx : imported.table.Holds x) :
    (d'.table.symbolAt (f x)).canonical =
      (d.table.symbolAt x).canonical.map (CanonicalForm.rename f) := by
  rw [(h.holds_imported hx).2, h.symbolAt_imported hx, h.symbolAt_imported' hx]
  cases hform : (imported.table.symbolAt x).canonical with
  | none => rfl
  | some form =>
      rw [Option.map_some, CanonicalForm.rename_eq_self (h.normal x form hform)]
      exact fun y hy => (h.holds_imported (h.intact.holds_of_mem_refs hx hform hy)).2

theorem form_of_convenience (howns : start.table.Owns x) {c : Convenience}
    (hkind : start.table.kindOf x = .union (some c)) :
    (d'.table.symbolAt (f x)).canonical =
      (d.table.symbolAt x).canonical.map (CanonicalForm.rename f) := by
  have howns' := h.coupled.mates.owns howns
  have hform := (h.left.later.symbol howns.holds).canonical
    (h.coupled.left.convenience howns hkind)
  have hform' := (h.right.later.symbol howns'.holds).canonical
    (h.coupled.right.convenience howns' (h.coupled.mates.kindOf_union howns.holds hkind))
  rw [hform, hform', h.coupled.mates.toEchoes.convenienceValues
    h.coupled.mates.regular.arena h.coupled.mates.regular'.arena h.coupled.mates.onto]
  rfl

/-- What failed has no form, and neither has its counterpart. -/
theorem form_of_failed (howns : start.table.Owns x) (hsort : ¬ start.table.IsSort x)
    (hconvenience : (start.table.kindOf x).convenience?.isSome = false)
    (hfailed : (d.table.symbolAt x).failed = true) :
    (d'.table.symbolAt (f x)).canonical =
      (d.table.symbolAt x).canonical.map (CanonicalForm.rename f) := by
  have howns' := h.coupled.mates.owns howns
  have hholds : d.table.Holds x := (h.left.alike.holds x).2 howns.holds
  have hsort' : ¬ start'.table.IsSort (f x) :=
    fun hsort' => hsort ((h.coupled.mates.toEchoes.isSort howns.holds).1 hsort')
  have hconvenience' : (start'.table.kindOf (f x)).convenience?.isSome = false := by
    rw [← SymbolKind.convenience?_relabel (fun y => y), h.coupled.mates.kind howns.holds,
      SymbolKind.convenience?_relabel, hconvenience]
  rw [h.left.spared hfailed fun hs => hsort (h.left.alike.isSort.1 hs),
    h.right.spared ((h.failed hholds).trans hfailed) fun hs => hsort' (h.right.alike.isSort.1 hs),
    h.coupled.left.unwritten howns hconvenience, h.coupled.right.unwritten howns' hconvenience']
  rfl

/-! ## Opening unions -/

theorem opened_of_find? {entry : SymbolId × List Member}
    (hfind : (opened m declarations start d).find? u = some entry) : ∃ entry',
    (opened (m.withTypes types) declarations' start' d').find? (f u) = some entry' ∧
      entry'.2 = entry.2.map (Member.rename f) := by
  obtain ⟨b, hb, hstands, hunion, rfl⟩ := mem_opened.1 (List.mem_of_find?_eq_some hfind)
  obtain rfl : b.symbol = u := fst_of_find?_opened hfind
  have hholds : d.table.Holds b.symbol :=
    (h.left.alike.holds _).2 (h.coupled.owns_type hb).holds
  have hparallel := h.coupled.parallel
  have hentry : (f b.symbol, (start'.resolved (m.withTypes types) (b.rename f)).members) ∈
      opened (m.withTypes types) declarations' start' d' := by
    refine mem_opened.2 ⟨b.rename f, h.coupled.rename_mem_types hb, ?_, ?_, rfl⟩
    · exact (h.failed hholds).trans hstands
    · exact (h.mates.isUnion hholds).trans hunion
  refine ⟨_, h.coupled.right.find?_opened hentry, ?_⟩
  rw [hparallel.resolved hb, ResolvedType.members_rename]

theorem find?_opened_eq_none
    (hnone : (opened m declarations start d).find? u = none) (hu : d.table.Holds u) :
    (opened (m.withTypes types) declarations' start' d').find? (f u) = none := by
  refine Option.eq_none_iff_forall_ne_some.2 fun entry' hfind => ?_
  obtain ⟨b', hb', hstands', hunion', rfl⟩ := mem_opened.1 (List.mem_of_find?_eq_some hfind)
  obtain ⟨b, hb, rfl⟩ := List.mem_map.1 (h.coupled.perm_types.mem_iff.1 hb')
  have hsymbol : f b.symbol = f u := fst_of_find?_opened hfind
  have hholds : d.table.Holds b.symbol :=
    (h.left.alike.holds _).2 (h.coupled.owns_type hb).holds
  obtain rfl := h.mates.injective hholds hu hsymbol
  have hentry : (b.symbol, (start.resolved m b).members) ∈ opened m declarations start d :=
    mem_opened.2 ⟨b, hb, (h.failed hholds).symm.trans hstands',
      (h.mates.isUnion hholds).symm.trans hunion', rfl⟩
  cases hnone.symm.trans (h.coupled.left.find?_opened hentry)

/-- A union that is not opened has the form of its counterpart. -/
theorem form_of_unopened (hnone : (opened m declarations start d).find? u = none)
    {convenience : Option Convenience} (hkind : start.table.kindOf u = .union convenience) :
    (d'.table.symbolAt (f u)).canonical =
      (d.table.symbolAt u).canonical.map (CanonicalForm.rename f) := by
  have hholds : d.table.Holds u := (h.left.alike.holds u).2 (Table.holds_of_union hkind)
  by_cases hold : imported.table.Holds u
  · exact h.form_of_imported hold
  have howns := h.owns_of_new hholds hold
  cases convenience with
  | some c => exact h.form_of_convenience howns hkind
  | none =>
      refine h.form_of_failed howns (fun hsort => ?_) (by rw [hkind]; rfl) ?_
      · obtain ⟨_, hsort⟩ := hsort
        rw [hkind] at hsort
        cases hsort
      · refine Bool.eq_true_of_not_eq_false fun hstands => ?_
        obtain ⟨b, hb, rfl⟩ := List.mem_map.1 (h.coupled.left.listsTypes.mem_iff.2
          ⟨howns, by rw [hkind]; rfl⟩)
        have hentry : (b.symbol, (start.resolved m b).members) ∈ opened m declarations start d :=
          mem_opened.2 ⟨b, hb, hstands, by rw [h.left.alike.isUnion, hkind]; rfl, rfl⟩
        cases hnone.symm.trans (h.coupled.left.find?_opened hentry)

/-- Unions are opened to counterparts, or accept counterparts. -/
theorem mirroring : Mirroring (d.table.knownUnion (opened m declarations start d))
    (d'.table.knownUnion (opened (m.withTypes types) declarations' start' d'))
    (opened m declarations start d) (opened (m.withTypes types) declarations' start' d')
    (fun u => ∃ convenience, start.table.kindOf u = .union convenience) f where
  opened _ hfind := h.opened_of_find? hfind
  inside {u entry w} _ hfind hw := by
    obtain ⟨b, hb, -, -, rfl⟩ := mem_opened.1 (List.mem_of_find?_eq_some hfind)
    obtain ⟨p, hp, hw⟩ := List.mem_flatMap.1 hw
    obtain ⟨terms, -, rfl⟩ := List.mem_map.1 hp
    exact kindOf_of_mem_members hw
  stored {u} hu hnone q := by
    obtain ⟨convenience, hkind⟩ := hu
    have hholds : d.table.Holds u := (h.left.alike.holds u).2 (Table.holds_of_union hkind)
    have hnone' := h.find?_opened_eq_none hnone hholds
    have hform := h.form_of_unopened hnone hkind
    have hknown : d'.table.knownUnion (opened (m.withTypes types) declarations' start' d') (f u) =
        (d.table.knownUnion (opened m declarations start d) u).rename f := by
      rw [Table.knownUnion_of_none hnone', Table.knownUnion_of_none hnone, Symbol.accepted?,
        Symbol.accepted?, hform]
      cases (d.table.symbolAt u).canonical with
      | none => rfl
      | some form =>
          simp only [Option.map_some, Option.bind_some, CanonicalForm.get?, CanonicalForm.rename,
            List.getElem?_map]
          cases form.positions[0]? <;> rfl
    rw [supplies_union_of_none hnone', hknown, AcceptedValues.hasPart_rename]

/-- Positions accept the counterparts of what they accept. -/
theorem acceptedAt_rename {owner : Name} {terms : List TypeTerm}
    (hnormal : (d.table.acceptedAt (opened m declarations start d)
      ((start.scope m owner).resolvePosition terms)).Normal)
    (hnormal' : (d'.table.acceptedAt (opened (m.withTypes types) declarations' start' d')
      (((start.scope m owner).resolvePosition terms).rename f)).Normal) :
    d'.table.acceptedAt (opened (m.withTypes types) declarations' start' d')
        (((start.scope m owner).resolvePosition terms).rename f) =
      (d.table.acceptedAt (opened m declarations start d)
        ((start.scope m owner).resolvePosition terms)).rename f :=
  Table.acceptedAt_rename h.mirroring (fun _ hu => kindOf_of_mem_members hu) hnormal hnormal'

/-! ## The forms of declarations -/

theorem form_of_type {b : Declaration} (hb : b ∈ declarations.types) (hstands : d.Stands b.symbol) :
    (d'.table.symbolAt (f b.symbol)).canonical =
      (d.table.symbolAt b.symbol).canonical.map (CanonicalForm.rename f) := by
  have hholds : d.table.Holds b.symbol :=
    (h.left.alike.holds _).2 (h.coupled.owns_type hb).holds
  have hform := h.left.type b hb hstands
  have hform' := h.right.type (b.rename f) (h.coupled.rename_mem_types hb)
    ((h.failed hholds).trans hstands)
  have hnormal := h.normalAt _ _ hform
  have hnormal' := h.normalAt' _ _ hform'
  rw [h.coupled.parallel.resolved hb] at hform' hnormal'
  rw [hform]
  refine hform'.trans (congrArg (fun l => some (CanonicalForm.mk l)) ?_)
  simp only [ResolvedType.rename, resolved, List.map_map] at hnormal hnormal' ⊢
  refine List.map_congr_left fun terms hterms => ?_
  exact h.acceptedAt_rename (hnormal _ (List.mem_map_of_mem hterms))
    (hnormal' _ (List.mem_map_of_mem hterms))

theorem form_of_param {p : Parameter} (hp : p ∈ declarations.params) (hstands : d.Stands p.symbol) :
    (d'.table.symbolAt (f p.symbol)).canonical =
      (d.table.symbolAt p.symbol).canonical.map (CanonicalForm.rename f) := by
  have hholds : d.table.Holds p.symbol :=
    (h.left.alike.holds _).2 (h.coupled.left.kindOf_param hp).1.holds
  have hform := h.left.param p hp hstands
  have hform' := h.right.param (p.rename f) (h.coupled.parallel.mem_params hp)
    ((h.failed hholds).trans hstands)
  have hnormal := h.normalAt _ _ hform
  have hnormal' := h.normalAt' _ _ hform'
  rw [h.coupled.parallel.resolvedParam hp] at hform' hnormal'
  rw [hform]
  refine hform'.trans (congrArg (fun v => some (CanonicalForm.mk [v])) ?_)
  exact h.acceptedAt_rename (hnormal _ List.mem_cons_self) (hnormal' _ List.mem_cons_self)

/-- Constants that stand have no positions. -/
theorem form_of_constant (hx : d.table.Holds x) {constant : ConstantKind}
    (hkind : d.table.kindOf x = .userConstant constant) (hvalue : constant ≠ .parameter)
    (hstands : d.Stands x) :
    (d'.table.symbolAt (f x)).canonical =
      (d.table.symbolAt x).canonical.map (CanonicalForm.rename f) := by
  obtain ⟨form, hform⟩ := Option.ne_none_iff_exists'.1 (h.declared.constant hkind hvalue hstands)
  obtain rfl := h.declared.intact.form_eq_empty hkind hvalue hform
  obtain ⟨constant', hkind', hvalue'⟩ := h.mates.kindOf_constant hx hkind hvalue
  obtain ⟨form', hform'⟩ := Option.ne_none_iff_exists'.1
    (h.declared'.constant hkind' hvalue' ((h.failed hx).trans hstands))
  obtain rfl := h.declared'.intact.form_eq_empty hkind' hvalue' hform'
  rw [hform, hform']
  rfl

/-- What is no sort has the form of its counterpart. -/
theorem form_of_plain (hx : d.table.Holds x) (hsort : ¬ d.table.IsSort x) :
    (d'.table.symbolAt (f x)).canonical =
      (d.table.symbolAt x).canonical.map (CanonicalForm.rename f) := by
  by_cases hold : imported.table.Holds x
  · exact h.form_of_imported hold
  have howns := h.owns_of_new hx hold
  have hsort' : ¬ start.table.IsSort x := fun hs => hsort (h.left.alike.isSort.2 hs)
  have hsame := h.left.alike.kindOf hsort'
  have htype : (start.table.kindOf x).isDeclaredType = true →
      (start.table.kindOf x).convenience?.isSome = false →
      (d'.table.symbolAt (f x)).canonical =
        (d.table.symbolAt x).canonical.map (CanonicalForm.rename f) := by
    intro hkind hconvenience
    cases hfailed : (d.table.symbolAt x).failed with
    | true => exact h.form_of_failed howns hsort' hconvenience hfailed
    | false =>
        obtain ⟨b, hb, rfl⟩ :=
          List.mem_map.1 (h.coupled.left.listsTypes.mem_iff.2 ⟨howns, hkind⟩)
        exact h.form_of_type hb hfailed
  cases hkind : start.table.kindOf x with
  | data shape info => exact htype (by rw [hkind]; rfl) (by rw [hkind]; rfl)
  | union convenience =>
      cases convenience with
      | none => exact htype (by rw [hkind]; rfl) (by rw [hkind]; rfl)
      | some c => exact h.form_of_convenience howns hkind
  | userSort y size => exact absurd ⟨y, by rw [hkind]; rfl⟩ hsort'
  | userConstant constant =>
      cases hfailed : (d.table.symbolAt x).failed with
      | true => exact h.form_of_failed howns hsort' (by rw [hkind]; rfl) hfailed
      | false =>
          by_cases hvalue : constant = .parameter
          · subst hvalue
            obtain ⟨p, hp, rfl⟩ := List.mem_map.1 (h.coupled.left.listsParams.mem_iff.2
              ⟨howns, by rw [hkind]; rfl⟩)
            exact h.form_of_param hp hfailed
          · exact h.form_of_constant hx (hsame.trans hkind) hvalue hfailed
  | baseSort _ | baseOperator _ | baseConstant _ =>
      have hunsettled := howns.unsettled
      rw [Symbol.isSettled_of_isBase (show (start.table.kindOf x).isBase = true by rw [hkind]; rfl)]
        at hunsettled
      cases hunsettled

/-- The form of a symbol is that of its counterpart. -/
theorem form (hx : d.table.Holds x) :
    (d'.table.symbolAt (f x)).canonical =
      (d.table.symbolAt x).canonical.map (CanonicalForm.rename f) := by
  by_cases hsort : d.table.IsSort x
  · -- a sort has the form of its data symbol
    obtain ⟨y, hy⟩ := hsort
    obtain ⟨shape, info, hkind, rfl⟩ := h.declared.intact.formed.families.sort hy
    have hholds := Table.holds_of_data hkind
    have hkind' := h.mates.kindOf_data hholds hkind
    rw [(h.declared.intact.data hkind).form_eq, (h.declared'.intact.data hkind').form_eq]
    exact h.form_of_plain hholds (Table.not_isSort_of_data hkind)
  · exact h.form_of_plain hx hsort

/-- What the types of a module come to in one order is found again in the other. -/
theorem renders : d.table.Renders d'.table d.table.Holds f where
  toEchoes := h.mates.toEchoes
  holds hx := ⟨hx, h.mates.holds hx⟩
  form := h.form
  inside hx hform _ hy := h.declared.intact.holds_of_mem_refs hx hform hy
  normal _ := h.normalAt _
  failed := h.failed
  imported hx himported := (h.mates.isImported hx).symm.trans himported

end Enacted

end Draft

end ManySorted
