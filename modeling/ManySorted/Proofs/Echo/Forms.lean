import ManySorted.Proofs.Accepted.Opening
import ManySorted.Proofs.Declaration.Account
import ManySorted.Proofs.Declaration.Survey
import ManySorted.Proofs.Echo.Resolving

/-!
# Failures and forms of counterparts

The declarations of one run are found in another one, under the counterparts of their symbols
(`Draft.Parallel`).

## Strategy

* **Failures.**  Positions are resolved to counterparts and have the same problems, so what falls in
  the first run has a counterpart that falls in the second (`Draft.Parallel.fallen`).
* **Positions.**  What a position accepts is supplied by its members, and by those of the unions
  that are opened.  If the unions of one table are opened to the members of their counterparts, and
  all other unions accept the counterparts of what they accept, then positions accept counterparts
  (`Table.acceptedAt_rename`).
* **Forms.**  So the form of a declaration that stands is the form of its counterpart with the
  symbols renamed.
-/

namespace ManySorted

/-- The declaration with its symbols renamed. -/
def ResolvedType.rename (f : SymbolId → SymbolId) (r : ResolvedType) : ResolvedType where
  symbol := f r.symbol
  positions := r.positions.map (Position.rename f)

@[simp]
theorem ResolvedType.refs_rename (f : SymbolId → SymbolId) (r : ResolvedType) :
    (r.rename f).refs = r.refs.map f := by
  rw [refs, refs, List.map_flatMap, rename, List.flatMap_map]
  rfl

@[simp]
theorem ResolvedType.members_rename (f : SymbolId → SymbolId) (r : ResolvedType) :
    (r.rename f).members = r.members.map (Member.rename f) := by
  rw [members, members, List.map_flatMap, rename, List.flatMap_map]
  rfl

/-- The declaration under the counterpart of its symbol. -/
def Declaration.rename (f : SymbolId → SymbolId) (b : Declaration) : Declaration :=
  { b with symbol := f b.symbol }

/-- The parameter under the counterpart of its symbol. -/
def Parameter.rename (f : SymbolId → SymbolId) (p : Parameter) : Parameter :=
  { p with symbol := f p.symbol }

namespace Draft

variable {m m' : Module} {start start' : Draft} {declarations declarations' : Declarations}
  {D : SymbolId → Prop} {f : SymbolId → SymbolId} {x : SymbolId}

/-- The identifier is among those of the terms. -/
def Names (terms : List TypeTerm) (id : QualifiedId) : Prop := ∃ term ∈ terms, id ∈ term.ids

/-- What is declared in one run is declared in the other under counterparts, and its identifiers are
read alike. -/
structure Parallel (m m' : Module) (start start' : Draft)
    (declarations declarations' : Declarations)
    (D : SymbolId → Prop) (f : SymbolId → SymbolId) : Prop where
  table : start.table.Echoes start'.table D f
  type : ∀ b ∈ declarations.types, D b.symbol ∧ b.rename f ∈ declarations'.types ∧
    ∀ terms ∈ b.decl.body.positions,
      (start.scope m b.decl.name).Echoes (start'.scope m' b.decl.name) D f (Names terms)
  param : ∀ p ∈ declarations.params, D p.symbol ∧
    (start.scope m p.name).Echoes (start'.scope m' p.name) D f (Names p.type)
  params_eq : declarations'.params = declarations.params.map (Parameter.rename f)

namespace Parallel

section

variable (h : Parallel m m' start start' declarations declarations' D f)
include h

theorem resolved {b : Declaration} (hb : b ∈ declarations.types) :
    start'.resolved m' (b.rename f) = (start.resolved m b).rename f := by
  obtain ⟨-, -, hscope⟩ := h.type b hb
  simp only [Draft.resolved, Declaration.rename, ResolvedType.rename, List.map_map]
  refine congrArg _ (List.map_congr_left fun terms hterms => ?_)
  exact (hscope terms hterms).resolvePosition fun term hterm id hid => ⟨term, hterm, hid⟩

theorem resolvedParam {p : Parameter} (hp : p ∈ declarations.params) :
    start'.resolvedParam m' (p.rename f) = (start.resolvedParam m p).rename f :=
  (h.param p hp).2.resolvePosition fun term hterm _ hid => ⟨term, hterm, hid⟩

theorem mem_params {p : Parameter} (hp : p ∈ declarations.params) :
    p.rename f ∈ declarations'.params := by
  rw [h.params_eq]
  exact List.mem_map_of_mem hp

/-- What a declaration refers to has a counterpart. -/
theorem refs_resolved {b : Declaration} (hb : b ∈ declarations.types) :
    ∀ r ∈ (start.resolved m b).refs, D r := by
  obtain ⟨-, -, hscope⟩ := h.type b hb
  intro r hr
  obtain ⟨p, hp, hr⟩ := List.mem_flatMap.1 hr
  obtain ⟨terms, hterms, rfl⟩ := List.mem_map.1 hp
  exact (hscope terms hterms).refs_resolvePosition (fun term hterm id hid =>
    ⟨term, hterm, hid⟩) r hr

theorem isFlawed {b : Declaration} (hb : b ∈ declarations.types) :
    start'.isFlawed m' (b.rename f) = start.isFlawed m b := by
  rw [Draft.isFlawed, Draft.isFlawed, h.resolved hb, ResolvedType.rename, List.all_map]
  rfl

theorem typeProblems {b : Declaration} (hb : b ∈ declarations.types) :
    start'.typeProblems m' (b.rename f) = start.typeProblems m b := by
  rw [Draft.typeProblems, Draft.typeProblems, h.resolved hb, ResolvedType.rename, List.flatMap_map]
  rfl

theorem isOk_param {p : Parameter} (hp : p ∈ declarations.params) :
    (start'.resolvedParam m' (p.rename f)).isOk = (start.resolvedParam m p).isOk := by
  rw [h.resolvedParam hp]
  rfl

theorem mem_holders {b : Declaration} (hb : b ∈ declarations.types)
    (hx : x ∈ start.table.holders b.symbol) :
    f x ∈ start'.table.holders (b.rename f).symbol := by
  rw [Declaration.rename, h.table.holders (h.type b hb).1]
  exact List.mem_map_of_mem hx

theorem falls (hx : Falls m start declarations x) : Falls m' start' declarations' (f x) := by
  induction hx with
  | flawed hx =>
      refine .flawed ?_
      rcases hx with ⟨b, hb, hflawed, hmem⟩ | ⟨p, hp, hproblem, rfl⟩
      · exact .inl ⟨b.rename f, (h.type b hb).2.1, (h.isFlawed hb).trans hflawed,
          h.mem_holders hb hmem⟩
      · exact .inr ⟨p.rename f, h.mem_params hp, (h.isOk_param hp).trans hproblem, rfl⟩
  | @spread b r x hb href _ hx ih =>
      refine .spread (h.type b hb).2.1 (r := f r) ?_ ih (h.mem_holders hb hx)
      rw [h.resolved hb, ResolvedType.refs_rename]
      exact List.mem_map_of_mem href

/-- What has fallen once some parameters were looked through has counterparts that have fallen. -/
theorem fallen_of_params {params : List Parameter} (hparams : ∀ p ∈ params, p ∈ declarations.params)
    (hx : Fallen m start declarations params x) :
    Fallen m' start' declarations' (params.map (Parameter.rename f)) (f x) := by
  induction params using List.reverseRecOn generalizing x with
  | nil => exact h.falls hx
  | append_singleton params p ih =>
      have hp := hparams p (List.mem_append_right _ List.mem_cons_self)
      have ih := fun {x} => @ih x fun q hq => hparams q (List.mem_append_left _ hq)
      rw [List.map_append, List.map_singleton, fallen_snoc]
      rcases fallen_snoc.1 hx with hx | ⟨rfl, r, hr, hfallen⟩
      · exact .inl (ih hx)
      · refine .inr ⟨rfl, f r, ?_, ih hfallen⟩
        rw [h.resolvedParam hp]
        exact List.mem_map_of_mem hr

theorem fallen (hx : Fallen m start declarations declarations.params x) :
    Fallen m' start' declarations' declarations'.params (f x) := by
  rw [h.params_eq]
  exact h.fallen_of_params (fun _ hp => hp) hx

end

end Parallel

end Draft

section

variable {known known' : SymbolId → AcceptedValues} {unions unions' : UnionMembers}
  {E : SymbolId → Prop} {f : SymbolId → SymbolId} {member : Member} {q : Part}

/-- A union that is not opened supplies what it is known to accept. -/
theorem supplies_union_of_none {P : AcceptedValues → Prop} {u : SymbolId}
    (hnone : unions.find? u = none) : Supplies P known unions (.union u) ↔ P (known u) := by
  constructor
  · rintro (_ | ⟨_, hp⟩ | ⟨hfind, _, _⟩)
    · exact hp
    · cases hnone.symm.trans hfind
  · exact .known hnone

/-- Unions of which `E` tells that they are met have counterparts that are opened to the
counterparts of their members, or supply just the counterparts of what they accept. -/
structure Mirroring (known known' : SymbolId → AcceptedValues) (unions unions' : UnionMembers)
    (E : SymbolId → Prop) (f : SymbolId → SymbolId) : Prop where
  opened : ∀ {u entry}, E u → unions.find? u = some entry → ∃ entry',
    unions'.find? (f u) = some entry' ∧ entry'.2 = entry.2.map (Member.rename f)
  inside : ∀ {u entry w}, E u → unions.find? u = some entry → .union w ∈ entry.2 → E w
  stored : ∀ {u}, E u → unions.find? u = none → ∀ q,
    Supplies (·.HasPart q) known' unions' (.union (f u)) ↔
      ∃ p, (known u).HasPart p ∧ p.rename f = q

namespace Mirroring

variable (h : Mirroring known known' unions unions' E f)
include h

theorem supplies_rename {p : Part} (hsupplies : Supplies (·.HasPart p) known unions member)
    (hmember : ∀ u, member = .union u → E u) :
    Supplies (·.HasPart (p.rename f)) known' unions' (member.rename f) := by
  induction hsupplies with
  | values hp => exact .values (AcceptedValues.hasPart_rename.2 ⟨p, hp, rfl⟩)
  | known hfind hp => exact (h.stored (hmember _ rfl) hfind _).2 ⟨p, hp, rfl⟩
  | opened hfind hmem _ ih =>
      obtain ⟨entry', hfind', hentry'⟩ := h.opened (hmember _ rfl) hfind
      refine .opened hfind' (hentry' ▸ List.mem_map_of_mem hmem) (ih fun u hu => ?_)
      exact h.inside (hmember _ rfl) hfind (hu ▸ hmem)

theorem exists_of_supplies (hsupplies : Supplies (·.HasPart q) known' unions' (member.rename f))
    (hmember : ∀ u, member = .union u → E u) :
    ∃ p, Supplies (·.HasPart p) known unions member ∧ p.rename f = q := by
  generalize hrenamed : member.rename f = member' at hsupplies
  have hstored : ∀ u, member = .union u → unions.find? u = none →
      Supplies (·.HasPart q) known' unions' member' →
      ∃ p, Supplies (·.HasPart p) known unions member ∧ p.rename f = q := by
    rintro u rfl hnone hsupplies
    rw [← hrenamed] at hsupplies
    obtain ⟨p, hp, hq⟩ := (h.stored (hmember u rfl) hnone q).1 hsupplies
    exact ⟨p, .known hnone hp, hq⟩
  induction hsupplies generalizing member with
  | values hp =>
      cases member with
      | union u => cases hrenamed
      | values v =>
          cases hrenamed
          obtain ⟨p, hp, hq⟩ := AcceptedValues.hasPart_rename.1 hp
          exact ⟨p, .values hp, hq⟩
  | known hfind hp =>
      cases member with
      | values v => cases hrenamed
      | union u =>
          cases hrenamed
          cases hopen : unions.find? u with
          | none => exact hstored u rfl hopen (.known hfind hp)
          | some entry =>
              obtain ⟨_, hfind', -⟩ := h.opened (hmember u rfl) hopen
              cases hfind.symm.trans hfind'
  | @opened _ entry' member' hfind hmem hsupplies ih =>
      cases member with
      | values v => cases hrenamed
      | union u =>
          cases hrenamed
          cases hopen : unions.find? u with
          | none => exact hstored u rfl hopen (.opened hfind hmem hsupplies)
          | some entry =>
              obtain ⟨_, hfind', hentry⟩ := h.opened (hmember u rfl) hopen
              obtain rfl := Option.some.inj (hfind.symm.trans hfind')
              rw [hentry] at hmem
              obtain ⟨w, hw, rfl⟩ := List.mem_map.1 hmem
              have hinside : ∀ u', w = .union u' → E u' := fun u' hu' =>
                h.inside (hmember u rfl) hopen (hu' ▸ hw)
              obtain ⟨p, hp, hq⟩ := ih hinside rfl fun u' hu' hnone hsupplies => by
                cases hu'
                obtain ⟨p, hp, hq⟩ := (h.stored (hinside u' rfl) hnone q).1 hsupplies
                exact ⟨p, .known hnone hp, hq⟩
              exact ⟨p, .opened hopen hw hp, hq⟩

end Mirroring

end

namespace Table

variable {t t' : Table} {unions unions' : UnionMembers} {E : SymbolId → Prop}
  {f : SymbolId → SymbolId} {p : Position}

/-- Positions accept the counterparts of what they accept. -/
theorem acceptedAt_rename
    (h : Mirroring (t.knownUnion unions) (t'.knownUnion unions') unions unions' E f)
    (hp : ∀ u, .union u ∈ p.members → E u) (hnormal : (t.acceptedAt unions p).Normal)
    (hnormal' : (t'.acceptedAt unions' (p.rename f)).Normal) :
    t'.acceptedAt unions' (p.rename f) = (t.acceptedAt unions p).rename f := by
  refine hnormal'.ext (hnormal.rename f) fun q => ?_
  have hinside : ∀ member ∈ p.members, ∀ u, member = .union u → E u :=
    fun member hmember u hu => hp u (hu ▸ hmember)
  rw [acceptedAt_iff (additive_hasPart q) AcceptedValues.not_hasPart_empty,
    AcceptedValues.hasPart_rename]
  simp only [acceptedAt_iff (additive_hasPart _) AcceptedValues.not_hasPart_empty]
  constructor
  · rintro ⟨member', hmember', hsupplies⟩
    obtain ⟨member, hmember, rfl⟩ := List.mem_map.1 hmember'
    obtain ⟨r, hr, hq⟩ := h.exists_of_supplies hsupplies (hinside member hmember)
    exact ⟨r, ⟨member, hmember, hr⟩, hq⟩
  · rintro ⟨r, ⟨member, hmember, hsupplies⟩, rfl⟩
    exact ⟨member.rename f, List.mem_map_of_mem hmember,
      h.supplies_rename hsupplies (hinside member hmember)⟩

end Table

end ManySorted
