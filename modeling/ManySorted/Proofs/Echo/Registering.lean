import ManySorted.Proofs.Echo.Forms
import ManySorted.Proofs.Echo.Mating

/-!
# Registering in another order

After the types of a module were registered in two orders, both drafts hold the same up to handles
(`Draft.Coupled`).  Each declaration of one of them is found in the other one under the counterpart
of its symbol, and its type terms are read alike (`Draft.Coupled.parallel`).

## Strategy

* **Names.**  Counterparts have the same names (`Draft.Mates.name_eq`), and the names that the
  module is written with do not depend on the order (`Module.Interned.withTypes`).
* **Declarations.**  The module declares the counterparts of what it declares (`Draft.Mates.owns`),
  so each declaration is found again by its name (`Draft.Coupled.rename_mem_types`).
* **Scopes.**  Both drafts read identifiers alike (`Draft.Mates.scope`), hence type terms
  (`Draft.Coupled.parallel`).
* **Orders.**  As declarations are told apart by their names, what was entered is a permutation
  (`Draft.Coupled.perm_types`), and of parameters it is the same list (`Draft.Coupled.params_eq`).
-/

namespace ManySorted

/-- Lists whose members are told apart by their keys are those of the keys. -/
theorem eq_map_of_keys {α β : Type} {key : α → β} {g : α → α} {l l' : List α}
    (hkeys : l'.map key = l.map key) (hmember : ∀ a ∈ l, ∀ a' ∈ l', key a' = key a → a' = g a) :
    l' = l.map g := by
  induction l generalizing l' with
  | nil => exact List.map_eq_nil_iff.1 hkeys
  | cons a l ih =>
      cases l' with
      | nil => cases hkeys
      | cons a' l' =>
          rw [List.map_cons, List.map_cons, List.cons.injEq] at hkeys
          rw [List.map_cons, hmember a List.mem_cons_self a' List.mem_cons_self hkeys.1,
            ih hkeys.2 fun b hb b' hb' =>
              hmember b (List.mem_cons_of_mem _ hb) b' (List.mem_cons_of_mem _ hb')]

/-- The names that a module is written with do not depend on the order of its types. -/
theorem Module.Interned.withTypes {m : Module} {types : List TypeDecl} {names : Interner}
    (h : m.Interned names) (hperm : types.Perm m.types) : (m.withTypes types).Interned names where
  type decl hdecl := h.type decl (hperm.mem_iff.1 hdecl)
  label decl hdecl := h.label decl (hperm.mem_iff.1 hdecl)
  constant := h.constant
  param := h.param
  id id hid := h.id id ((Node.perm_qualifiedIds hperm).mem_iff.1 hid)

/-- The labels of what a module enters are among the names that it is written with. -/
theorem Module.Interned.label_of_mem_entries {m : Module} {names : Interner} (h : m.Interned names)
    {origin : Table} {e : Entry} (he : e ∈ m.entries origin) {label : Name}
    (hlabel : some label ∈ e.kind.labels) : names.Knows label := by
  have hplain : ∀ {kind : SymbolKind}, kind.isData = false → some label ∈ kind.labels →
      names.Knows label := by
    intro kind hdata hlabel
    cases kind with
    | data => cases hdata
    | _ => cases hlabel
  rw [Module.entries, Module.leadingEntries] at he
  simp only [List.mem_append, List.mem_map, List.mem_filterMap] at he
  rcases he with ((⟨decl, hdecl, rfl⟩ | ⟨constant, -, rfl⟩) | hparam) | ⟨element, -, helement⟩
  · change some label ∈ decl.body.outline.labels at hlabel
    rw [TypeBody.outline] at hlabel
    cases hshape : decl.body.shape? with
    | none =>
        rw [hshape] at hlabel
        cases hlabel
    | some shape =>
        rw [hshape] at hlabel
        obtain ⟨field, hfield, hlabel⟩ := List.mem_map.1 hlabel
        exact h.label decl hdecl field hfield label hlabel
  · refine hplain ?_ hlabel
    rw [Entry.ofConstant, SymbolKind.isData_outline]
    rfl
  · refine hplain ?_ hlabel
    rw [Module.paramEntries] at hparam
    split at hparam
    · obtain ⟨p, -, hp⟩ := List.mem_filterMap.1 hparam
      cases p with
      | model reference => cases hp
      | value name type span =>
          cases hp
          rfl
    · exact absurd hparam List.not_mem_nil
  · refine hplain ?_ hlabel
    cases element with
    | constant id =>
        rw [Entry.ofElement?] at helement
        split at helement
        · cases helement
          rfl
        · cases helement
    | _ => cases helement

namespace Draft

variable {m m' : Module} {types : List TypeDecl} {imported origin start start' d d' : Draft}
  {declarations declarations' : Declarations} {f : SymbolId → SymbolId} {x : SymbolId}

namespace Mates

variable (h : Mates origin d d' f)
include h

/-- Identifiers of known names are read alike. -/
theorem scope (hfile : m'.file = m.file) {owner : Name} (howner : origin.names.Knows owner)
    {ids : QualifiedId → Prop}
    (hids : ∀ id, ids id → ∀ segment ∈ id.segments, origin.names.Knows segment) :
    (d.scope m owner).Echoes (d'.scope m' owner) d.table.Holds f ids where
  table := h.toEchoes
  file_eq := hfile
  owner_eq := h.text howner
  type {id} hid := ⟨h.resolveOrProblem (hids id hid) fun _ hx => h.isTypeDefining hx,
    h.inside_of_resolveOrProblem⟩
  constant {id} hid := ⟨h.resolveOrProblem (hids id hid) fun _ _ => rfl,
    h.inside_of_resolveOrProblem⟩
  join_eq {id} hid := h.join_eq (hids id hid)

/-- Known names of counterparts are the same. -/
theorem name_eq (hx : d.table.Holds x) (hknows : origin.names.Knows (d.table.symbolAt x).name)
    (hknows' : origin.names.Knows (d'.table.symbolAt (f x)).name) :
    (d'.table.symbolAt (f x)).name = (d.table.symbolAt x).name := by
  refine h.regular'.proper.text_inj (h.grown'.knows hknows') (h.grown'.knows hknows) ?_
  rw [h.symbolText hx, h.text hknows]

/-- What one of the drafts declares, the other one declares. -/
theorem owns (howns : d.table.Owns x) : d'.table.Owns (f x) where
  holds := h.holds howns.holds
  unsettled := by
    have hbase : (d'.table.kindOf (f x)).isBase = (d.table.kindOf x).isBase := by
      rw [← SymbolKind.isBase_relabel (fun y => y), h.kind howns.holds, SymbolKind.isBase_relabel]
    have hunsettled := howns.unsettled
    rw [Symbol.isSettled] at hunsettled ⊢
    rw [h.isImported howns.holds]
    exact hbase ▸ hunsettled

end Mates

/-- The types of a module have been registered in two orders. -/
structure Coupled (m : Module) (types : List TypeDecl) (imported origin start start' : Draft)
    (declarations declarations' : Declarations) (f : SymbolId → SymbolId) : Prop where
  mates : Mates origin start start' f
  left : Registered m imported.table declarations start
  right : Registered (m.withTypes types) imported.table declarations' start'
  settled : ∀ {x}, imported.table.Holds x → (imported.table.symbolAt x).isSettled = true
  older : ∀ {x}, imported.table.Holds x → origin.table.Holds x
  interned : m.Interned origin.names
  perm : types.Perm m.types
  distinct : (m.types.map TypeDecl.name).Nodup
  paramNames : declarations'.params.map Parameter.name = declarations.params.map Parameter.name

/-- What the module declares is in the root. -/
theorem Registered.home_eq (h : Registered m imported.table declarations d)
    (hsettled : ∀ {x}, imported.table.Holds x → (imported.table.symbolAt x).isSettled = true)
    (howns : d.table.Owns x) : (d.table.symbolAt x).home = .root := by
  refine (h.extended.new howns.holds fun hold => ?_).2.1
  have hunsettled := howns.unsettled
  rw [(h.extended.later.symbol hold).settled (hsettled hold), hsettled hold] at hunsettled
  cases hunsettled

/-- A parameter is found by its name. -/
theorem Registered.symbol?_param (h : Registered m imported.table declarations d)
    (hsettled : ∀ {x}, imported.table.Holds x → (imported.table.symbolAt x).isSettled = true)
    {p : Parameter} (hp : p ∈ declarations.params) :
    (d.table.namespaceAt .root).symbol? p.name = some p.symbol := by
  obtain ⟨howns, hkind⟩ := h.kindOf_param hp
  have hfamilies := h.intact.formed.families
  have hlisted := h.intact.formed.arena.listed howns.holds
    (hfamilies.isEmpty_eq_false howns.holds (by rw [Table.dataOf?, hkind]))
  rwa [h.home_eq hsettled howns, h.param p hp] at hlisted

namespace Coupled

variable (h : Coupled m types imported origin start start' declarations declarations' f)
include h

theorem mem_types {b : Declaration} (hb : b ∈ declarations.types) : b.decl ∈ m.types :=
  List.mem_of_find?_eq_some (h.left.firstTypes b hb)

theorem owns_type {b : Declaration} (hb : b ∈ declarations.types) : start.table.Owns b.symbol :=
  (h.left.listsTypes.mem_iff.1 (List.mem_map_of_mem hb)).1

/-- A declaration is found again under the counterpart of its symbol. -/
theorem rename_mem_types {b : Declaration} (hb : b ∈ declarations.types) :
    b.rename f ∈ declarations'.types := by
  obtain ⟨howns, hkind⟩ := h.left.listsTypes.mem_iff.1 (List.mem_map_of_mem hb)
  have hkind' : (start'.table.kindOf (f b.symbol)).isDeclaredType = true := by
    rw [← SymbolKind.isDeclaredType_relabel (fun y => y), h.mates.kind howns.holds,
      SymbolKind.isDeclaredType_relabel, hkind]
  obtain ⟨b', hb', hsymbol⟩ :=
    List.mem_map.1 (h.right.listsTypes.mem_iff.2 ⟨h.mates.owns howns, hkind'⟩)
  have hfirst' := h.right.firstTypes b' hb'
  have hname : b'.decl.name = b.decl.name := by
    have hname' := (h.right.decl b' hb').name
    rw [hsymbol] at hname'
    rw [← (h.left.decl b hb).name, ← hname']
    refine h.mates.name_eq howns.holds ?_ ?_
    · rw [(h.left.decl b hb).name]
      exact h.interned.type _ (h.mem_types hb)
    · rw [hname']
      exact (h.interned.withTypes h.perm).type _ (List.mem_of_find?_eq_some hfirst')
  have hdecl : b'.decl = b.decl := by
    refine Option.some.inj (hfirst'.symm.trans ?_)
    rw [hname, ← h.left.firstTypes b hb]
    exact find?_key_of_perm h.perm h.distinct b.decl.name
  have hsame : b.rename f = b' := by
    rw [Declaration.rename, ← hdecl, ← hsymbol]
  exact hsame ▸ hb'

/-- The parameters are the same up to handles. -/
theorem params_eq : declarations'.params = declarations.params.map (Parameter.rename f) := by
  refine eq_map_of_keys h.paramNames fun p hp p' hp' hname => ?_
  have hsymbol : p'.symbol = f p.symbol := by
    have hknows : origin.names.Knows p.name :=
      h.interned.param _ (List.mem_of_find?_eq_some (h.left.firstParams p hp))
    have hfound := h.right.symbol?_param h.settled hp'
    rw [hname, h.mates.symbol? hknows, h.left.symbol?_param h.settled hp] at hfound
    exact (Option.some.inj hfound).symm
  have htype : p'.type = p.type := by
    have hfirst := h.right.firstParams p' hp'
    rw [hname] at hfirst
    exact (Prod.mk.inj (Option.some.inj (hfirst.symm.trans (h.left.firstParams p hp)))).2
  rw [Parameter.rename, ← hsymbol, ← hname, ← htype]

theorem segment_of_type {b : Declaration} (hb : b ∈ declarations.types) {terms : List TypeTerm}
    (hterms : terms ∈ b.decl.body.positions) {id : QualifiedId} (hid : Names terms id) :
    ∀ segment ∈ id.segments, origin.names.Knows segment := by
  obtain ⟨term, hterm, hid⟩ := hid
  exact h.interned.id id (Node.mem_qualifiedIds_of_type (h.mem_types hb) hterms hterm hid)

theorem segment_of_param {p : Parameter} (hp : p ∈ declarations.params) {id : QualifiedId}
    (hid : Names p.type id) : ∀ segment ∈ id.segments, origin.names.Knows segment := by
  obtain ⟨term, hterm, hid⟩ := hid
  obtain ⟨param, hparam, hvalue⟩ :=
    List.mem_filterMap.1 (List.mem_of_find?_eq_some (h.left.firstParams p hp))
  cases param with
  | model => cases hvalue
  | value name type span =>
      cases hvalue
      exact h.interned.id id (Node.mem_qualifiedIds_of_param hparam hterm hid)

/-- What is declared in one order is declared in the other, and read alike. -/
theorem parallel : Parallel m (m.withTypes types) start start' declarations declarations'
    start.table.Holds f where
  table := h.mates.toEchoes
  type _ hb := ⟨(h.owns_type hb).holds, h.rename_mem_types hb, fun _ hterms =>
    h.mates.scope rfl (h.interned.type _ (h.mem_types hb)) fun _ hid =>
      h.segment_of_type hb hterms hid⟩
  param p hp := ⟨(h.left.kindOf_param hp).1.holds,
    h.mates.scope rfl (h.interned.param _ (List.mem_of_find?_eq_some (h.left.firstParams p hp)))
      fun _ hid => h.segment_of_param hp hid⟩
  params_eq := h.params_eq

/-- The types that are entered are the same up to handles, in some order. -/
theorem perm_types : declarations'.types.Perm (declarations.types.map (Declaration.rename f)) := by
  have hnodup : ∀ {l : List Declaration}, (l.map Declaration.symbol).Nodup → l.Nodup :=
    fun hl => hl.of_map _
  refine (List.perm_ext_iff_of_nodup (hnodup h.right.listsTypes.nodup)
    ((hnodup h.left.listsTypes.nodup).map_on fun b hb c hc heq => ?_)).2 fun b' => ?_
  · have hsymbol : f b.symbol = f c.symbol := congrArg Declaration.symbol heq
    exact List.inj_on_of_nodup_map h.left.listsTypes.nodup hb hc
      (h.mates.injective (h.owns_type hb).holds (h.owns_type hc).holds hsymbol)
  · rw [List.mem_map]
    constructor
    · intro hb'
      obtain ⟨howns', hkind'⟩ := h.right.listsTypes.mem_iff.1 (List.mem_map_of_mem hb')
      obtain ⟨x, hx, hfx⟩ := h.mates.onto howns'.holds
      rw [← hfx] at howns' hkind'
      have hkind : (start.table.kindOf x).isDeclaredType = true := by
        rw [← SymbolKind.isDeclaredType_relabel f, ← h.mates.kind hx,
          SymbolKind.isDeclaredType_relabel, hkind']
      have howns : start.table.Owns x := by
        refine ⟨hx, ?_⟩
        have hunsettled := howns'.unsettled
        rw [Symbol.isSettled, h.mates.isImported hx] at hunsettled
        rw [Symbol.isSettled, (Bool.or_eq_false_iff.1 hunsettled).1, Bool.false_or]
        change (start.table.kindOf x).isBase = false
        cases hx : start.table.kindOf x <;> rw [hx] at hkind <;> first | rfl | cases hkind
      obtain ⟨b, hb, rfl⟩ := List.mem_map.1 (h.left.listsTypes.mem_iff.2 ⟨howns, hkind⟩)
      exact ⟨b, hb, List.inj_on_of_nodup_map h.right.listsTypes.nodup (h.rename_mem_types hb) hb'
        hfx⟩
    · rintro ⟨b, hb, rfl⟩
      exact h.rename_mem_types hb

end Coupled

end Draft

end ManySorted
