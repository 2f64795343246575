import ManySorted.Proofs.Session.Completeness
import ManySorted.Proofs.Transfer.Containing

/-!
# Two domains as one

A domain may declare what one domain declares, followed by what another one declares that includes
the first one (`Module.Joins`).  If both are checked without errors, one after the other, then no
name is declared twice, so the declarations of both may be entered together (`Draft.Joined.admits`).
What the first domain declares and what the second one declares have counterparts then, and what the
second one imports stands for the same as what it is a copy of (`Draft.Joined.standIn_copy`).

## Strategy

* **The foreign table.**  The second domain was checked against the table of the first one, so what
  it imports are copies of what the first one declares (`Draft.Joined.imported_cases`).
* **Names.**  What the first domain introduces is taken when the second one is checked, so no name
  is declared in both (`Draft.Joined.apart`), and all declarations may be entered together
  (`Draft.Joined.admits`).
* **Counterparts.**  Both domains are contained in the joint one (`Draft.Joined.absorbed_left`,
  `Draft.Joined.absorbed_right`).  A copy is in the place of what it is a copy of
  (`Draft.Joined.linked_copy`), so both have the same counterpart.
-/

namespace ManySorted

/-! ## The module -/

/-- The domain declares what one domain declares, followed by what another one declares. -/
structure Module.Joins (m first second : Module) : Prop where
  kind : m.kind = .domain
  references : m.references = []
  params : m.params = first.params ++ second.params
  types : m.types = first.types ++ second.types
  constants : m.constants = first.constants ++ second.constants
  contracts : m.contracts = first.contracts ++ second.contracts

namespace Node

variable {m first second : Module} {node : Node}

/-- What lies below a module, apart from references, lies below its declarations. -/
theorem below_module_iff (hkind : node.kind ≠ .module) (hplain : node.kind ≠ .moduleRef) :
    (module m).Below node ↔ (∃ p ∈ m.params, (param p).Below node) ∨
      (∃ decl ∈ m.types, (typeDecl decl).Below node) ∨
      (∃ constant ∈ m.constants, (constantDecl constant).Below node) ∨
      ∃ contract ∈ m.contracts, (contractDecl contract).Below node := by
  constructor
  · intro h
    obtain ⟨child, hchild, hbelow⟩ := exists_child_of_below hkind h
    have href : ∀ reference, child ≠ moduleRef reference := by
      rintro reference rfl
      exact hplain (kind_of_below_moduleRef hbelow)
    simp only [children, List.mem_append, List.mem_map] at hchild
    rcases hchild with ((((⟨reference, -, rfl⟩ | ⟨p, hp, rfl⟩) | ⟨reference, -, rfl⟩) |
      ⟨decl, hdecl, rfl⟩) | ⟨constant, hconstant, rfl⟩) | ⟨contract, hcontract, rfl⟩
    · exact absurd rfl (href reference)
    · exact .inl ⟨p, hp, hbelow⟩
    · exact absurd rfl (href reference)
    · exact .inr (.inl ⟨decl, hdecl, hbelow⟩)
    · exact .inr (.inr (.inl ⟨constant, hconstant, hbelow⟩))
    · exact .inr (.inr (.inr ⟨contract, hcontract, hbelow⟩))
  · rintro (⟨p, hp, h⟩ | ⟨decl, hdecl, h⟩ | ⟨constant, hconstant, h⟩ | ⟨contract, hcontract, h⟩)
    · exact below_of_mem_children (param_mem_children hp) h
    · exact below_of_mem_children (typeDecl_mem_children hdecl) h
    · exact below_of_mem_children (by simp [children, hconstant]) h
    · exact below_of_mem_children (contractDecl_mem_children hcontract) h

theorem below_joins_iff (h : m.Joins first second) (hkind : node.kind ≠ .module)
    (hplain : node.kind ≠ .moduleRef) :
    (module m).Below node ↔ (module first).Below node ∨ (module second).Below node := by
  simp only [below_module_iff hkind hplain, h.params, h.types, h.constants, h.contracts,
    List.mem_append, or_and_right, exists_or]
  grind

end Node

namespace Module.Joins

variable {m first second : Module} (h : m.Joins first second)
include h

theorem mem_enumElements {element : EnumElement} : element ∈ (Node.module m).enumElements ↔
    element ∈ (Node.module first).enumElements ∨ element ∈ (Node.module second).enumElements := by
  simp only [Node.mem_enumElements]
  exact Node.below_joins_iff h (fun h => by cases h) (fun h => by cases h)

theorem mem_qualifiedIds {id : QualifiedId} : id ∈ (Node.module m).qualifiedIds ↔
    id ∈ (Node.module first).qualifiedIds ∨ id ∈ (Node.module second).qualifiedIds := by
  simp only [Node.mem_qualifiedIds]
  exact Node.below_joins_iff h (fun h => by cases h) (fun h => by cases h)

end Module.Joins

/-- All that a table holds is built in, or a copy of what a foreign table declares. -/
structure Table.DrawsOn (t foreign : Table) (ρ : SymbolId → SymbolId) : Prop where
  imported : foreign.Imported t .root ρ
  covered : ∀ {x}, t.Holds x → (t.kindOf x).isBase = true ∧ (t.symbolAt x).Bare ∨
    (t.symbolAt x).isImported = true ∧ ∃ r, foreign.Genuine r ∧ ρ r = x

namespace Table.DrawsOn

variable {t foreign : Table} {ρ : SymbolId → SymbolId} {r x : SymbolId} (h : t.DrawsOn foreign ρ)
include h

theorem relocates (hr : foreign.Genuine r) :
    foreign.relocate? t .root r = some (ρ r) ∧ foreign.Copies t ρ r (ρ r) := by
  have hkept : ¬ ((.root : NamespaceId) = .root ∧ foreign.IsRootConvenience r) := fun hroot =>
    hr.not_isRootConvenience hroot.2
  exact ⟨h.imported.relocates hr.holds hkept, h.imported.copies hr.holds hkept⟩

theorem genuine (hx : t.Holds x) : t.Genuine x := by
  rcases h.covered hx with ⟨hbase, -⟩ | ⟨-, r, hr, rfl⟩
  · exact genuine_of_isBase hx hbase
  · refine ⟨hx, ?_⟩
    rw [← SymbolKind.convenience?_outline, (h.relocates hr).2.outline,
      SymbolKind.convenience?_outline]
    exact hr.plain

end Table.DrawsOn

namespace Draft

variable {first second m : Module} {c₁ c₂ c : Course} {foreign : Table} {ρ : SymbolId → SymbolId}
  {path : List Name} {name : Name} {id : QualifiedId} {e : Entry} {r x : SymbolId}

/-- A check of one domain, one of another domain that imports its table, and a later one of the
domain that declares what both declare. -/
structure Joined (first second m : Module) (c₁ c₂ c : Course) (foreign : Table)
    (ρ : SymbolId → SymbolId) : Prop where
  joins : m.Joins first second
  left : Contained first m c₁ c
  right : Contained second m c₂ c
  pristine : c₁.imported.table.Pristine
  clean : c.imported.table.hasErrors = false
  /-- The foreign table is the one of the first domain. -/
  reads : c₁.last.table.Reads foreign
  intact : foreign.Intact c₂.imported.names
  grown : c₁.start.names.Grown c₂.imported.names
  draws : c₂.imported.table.DrawsOn foreign ρ

namespace Joined

variable (h : Joined first second m c₁ c₂ c foreign ρ)
include h

/-! ## The foreign table -/

theorem written : c₁.base.table.SizesWritten foreign :=
  h.left.left.judged.written.trans (.of_eq h.reads.id_eq h.reads.namespaces_eq h.reads.symbols_eq)

theorem later : c₁.start.table.Later foreign := h.left.left.account.later.trans h.written.later

theorem alike : c₁.start.table.Alike foreign := h.left.left.account.alike.trans h.written.toAlike

theorem genuine_iff : foreign.Genuine r ↔ c₁.start.table.Genuine r := h.alike.genuine_iff

theorem outline_eq : (foreign.kindOf r).outline = (c₁.start.table.kindOf r).outline := by
  rw [← SymbolKind.outline_unsized, h.alike.unsized, SymbolKind.outline_unsized]

theorem regular : foreign.Regular c₂.imported.names := h.intact.formed.toRegular

/-- What stands under a name in the foreign table has its copy under that name. -/
theorem under?_copy (hx : foreign.under? path name = some r) (hr : foreign.Genuine r) :
    c₂.imported.table.under? path name = some (ρ r) := by
  obtain ⟨hholds, rfl, rfl, hnamed⟩ := h.regular.of_under? hx
  rw [← h.regular.relocate?_root hholds hnamed]
  exact (h.draws.relocates hr).1

/-! ## What may be declared -/

/-- The names that the first domain introduces are taken in the check of the second one. -/
theorem not_opens (hchosen : c₁.origin.chosen (first.entries c₁.origin.table) name = some e) :
    ¬ c₂.origin.Opens name := by
  obtain ⟨r, hr, -, hshows⟩ := h.left.left.entered.entered hchosen
  have hgenuine : foreign.Genuine r := by
    refine h.genuine_iff.2 ⟨(h.left.left.entered.intact.formed.arena.entry hr).1, ?_⟩
    rw [← SymbolKind.convenience?_outline, hshows.outline]
    exact Module.convenience?_of_mem_entries (mem_of_chosen hchosen).1
  have hroot : c₁.start.table.under? [] name = some r := hr
  have hcopy := h.under?_copy (h.later.under? hroot) hgenuine
  intro hopens
  cases hopens.1.symm.trans (h.right.left.entered.equipped.added.later.under? hcopy)

theorem firm_cases (he : e ∈ m.firmEntries) : (∃ e₁ ∈ first.firmEntries, e₁.Equals e) ∨
    ∃ e₂ ∈ second.firmEntries, e₂.Equals e := by
  rcases h.left.right.mem_firmEntries.1 he with ⟨decl, hdecl, rfl⟩ | ⟨constant, hconstant, rfl⟩
  · rw [h.joins.types, List.mem_append] at hdecl
    exact hdecl.imp
      (fun hdecl => ⟨_, h.left.left.mem_firmEntries.2 (.inl ⟨decl, hdecl, rfl⟩), rfl, rfl, rfl⟩)
      (fun hdecl => ⟨_, h.right.left.mem_firmEntries.2 (.inl ⟨decl, hdecl, rfl⟩), rfl, rfl, rfl⟩)
  · rw [h.joins.constants, List.mem_append] at hconstant
    exact hconstant.imp
      (fun hc => ⟨_, h.left.left.mem_firmEntries.2 (.inr ⟨constant, hc, rfl⟩), rfl, rfl, rfl⟩)
      (fun hc => ⟨_, h.right.left.mem_firmEntries.2 (.inr ⟨constant, hc, rfl⟩), rfl, rfl, rfl⟩)

/-- No name is declared in both domains. -/
theorem apart {e₁ e₂ : Entry} (he₁ : e₁ ∈ first.firmEntries) (he₂ : e₂ ∈ second.firmEntries) :
    e₁.name ≠ e₂.name := fun heq =>
  h.not_opens (h.left.clean.admits.chosen_firm he₁)
    (heq ▸ h.right.clean.admits.opens e₂ he₂)

theorem nodup_names : (m.firmEntries.map Entry.name).Nodup := by
  have hperm : (m.firmEntries.map Entry.name).Perm
      (first.firmEntries.map Entry.name ++ second.firmEntries.map Entry.name) := by
    simp only [h.left.right.map_name_firmEntries, h.left.left.map_name_firmEntries,
      h.right.left.map_name_firmEntries, h.joins.types, h.joins.constants, List.map_append,
      List.append_assoc]
    exact (List.perm_append_comm_assoc ..).append_left _
  rw [hperm.nodup_iff, List.nodup_append]
  refine ⟨h.left.clean.admits.distinct, h.right.clean.admits.distinct, ?_⟩
  simp only [List.forall_mem_map]
  exact fun e₁ he₁ e₂ he₂ => h.apart he₁ he₂

/-- A constant that the first domain would bring up on its own. -/
theorem introduces_left (hid : m.Introduces c.origin.table id)
    (helement : .constant id ∈ (Node.module first).enumElements) :
    first.Introduces c₁.origin.table id where
  element := helement
  misses := by
    have hids := Node.mem_qualifiedIds_of_element helement
    refine ⟨hid.misses.1, h.left.left.entered.equipped.intact.formed.tree.resolveId_eq_notFound
      (fun last hlast _ _ hx => ?_) h.left.right.entered.equipped.intact.formed.tree hid.misses.2⟩
    have hknows := h.left.left.entered.equipped.grown.knows
      (h.left.left.interned.id id hids last (List.mem_of_getLast? hlast))
    exact h.left.left.exists_there h.pristine h.left.right
      (h.left.left.grown.trans h.left.grown_start) h.left.right.grown h.left.proper
      (h.left.grown_origin.knows hknows) (h.left.grown_origin.text hknows).symm hx

/-- What the second domain imports is built in, or a copy of what the first one declares. -/
theorem imported_cases (hx : c₂.imported.table.Holds x) :
    (c₂.imported.table.kindOf x).isBase = true ∧
        (c₂.imported.table.symbolAt x).canonical = none ∨
      (c₂.imported.table.kindOf x).isBase = false ∧
        (c₂.imported.table.symbolAt x).isImported = true ∧
          ∃ r, foreign.Genuine r ∧ ¬ c₁.imported.table.Holds r ∧ ρ r = x := by
  rcases h.draws.covered hx with ⟨hbase, hbare⟩ | ⟨himported, r, hr, rfl⟩
  · exact .inl ⟨hbase, hbare.canonical⟩
  · have houtline := (h.draws.relocates hr).2.outline.trans h.outline_eq
    -- the first domain imports nothing, so what it had before is built in
    by_cases hold : c₁.imported.table.Holds r
    · obtain ⟨hbase, -, -, hbare⟩ := h.pristine hold
      obtain ⟨hstart, hdeclared⟩ := h.left.left.symbolAt_imported hold
      refine .inl ⟨?_, ?_⟩
      · rw [← SymbolKind.isBase_outline, houtline, Table.kindOf, hstart, SymbolKind.isBase_outline]
        exact hbase
      · rw [(h.draws.relocates hr).2.form, h.written.canonical, hdeclared, hbare.canonical]
        rfl
    · have hr' := (h.genuine_iff.1 hr).holds
      refine .inr ⟨?_, himported, r, hr, hold, rfl⟩
      rw [← SymbolKind.isBase_outline, houtline, SymbolKind.isBase_outline]
      exact (h.left.left.entered.extended.new hr' hold).2.2

/-- What stands for something after the imports of the second domain does so in the joint one, or
may be the name of a constant of an enumeration. -/
theorem allows_of_imported (hx : c₂.imported.table.under? path name = some x) :
    (∃ y, c.origin.table.under? path name = some y) ∨ m.Allows c.origin.names name := by
  have ht := (h.right.left.formed_imported (h.right.left.grown.trans h.right.grown_start)
    h.right.proper).toRegular
  obtain ⟨hholds, -, rfl, hnamed⟩ := ht.of_under? hx
  rcases h.imported_cases hholds with ⟨hbase, -⟩ | ⟨-, -, r, hr, hnew, rfl⟩
  · obtain rfl := ht.path_eq_nil h.right.left.flat hx
    obtain ⟨y, hy, -, hfound, -⟩ := ht.exists_linked_builtin
      (h.right.right.formed_imported h.right.right.grown h.right.proper) hholds hbase
        (ht.home_eq_root h.right.left.flat hholds)
    have hroot : c.imported.table.under? [] (c₂.imported.table.symbolAt x).name = some y := hfound
    exact .inl ⟨y, h.right.right.entered.equipped.added.later.under? hroot⟩
  · -- a copy has a name that the first domain declares
    have hr' := h.genuine_iff.1 hr
    rw [(h.draws.relocates hr).2.name, h.alike.name] at hnamed ⊢
    refine .inr (h.left.allows ?_ (h.left.left.allows_of_new hr' hnew hnamed))
    exact h.left.left.entered.intact.formed.families.knows hr'.holds

/-- The declarations of both domains may be entered together. -/
theorem admits : c.origin.Admits m where
  opens e he := by
    rcases h.firm_cases he with ⟨e₁, he₁, hequals⟩ | ⟨e₂, he₂, hequals⟩
    · rw [hequals.name]
      exact h.left.opens (h.left.clean.admits.opens e₁ he₁)
    · rw [hequals.name]
      exact h.right.opens (h.right.clean.admits.opens e₂ he₂)
  distinct := h.nodup_names
  elements {id} hid := by
    change m.Allows c.origin.names id.last
    rcases h.joins.mem_enumElements.1 hid.element with helement | helement
    · exact h.left.allows_of_introduces (h.introduces_left hid helement)
    · by_contra hnot
      -- the second domain would then find nothing under the name either, and enter it
      refine hnot (h.right.allows_of_introduces ⟨helement, hid.misses.1, ?_⟩)
      refine h.right.left.entered.equipped.intact.formed.tree.resolveId_eq_notFound
        (fun last hlast path y hy => ?_) h.right.right.entered.equipped.intact.formed.tree
        hid.misses.2
      have hids := Node.mem_qualifiedIds_of_element helement
      rcases h.right.left.entered.equipped.under?_cases h.right.left.intact hy with
        hy | ⟨rfl, k, htext⟩
      · refine (h.allows_of_imported hy).resolve_right ?_
        rwa [QualifiedId.last, hlast] at hnot
      · have hknows := h.right.left.entered.equipped.grown.knows
          (h.right.left.interned.id id hids last (List.mem_of_getLast? hlast))
        exact h.right.right.entered.equipped.exists_under? (h.right.grown_origin.knows hknows)
          ((h.right.grown_origin.text hknows).trans htext)

/-! ## Counterparts -/

/-- What the first domain declares has counterparts. -/
theorem absorbed_left : Absorbed first m c₁ c where
  toContained := h.left
  clean' := h.clean
  admits' := h.admits
  apart e' he' hchosen := by
    rcases h.firm_cases he' with ⟨e₁, he₁, hequals⟩ | ⟨e₂, he₂, hequals⟩
    · exact ⟨e₁, he₁, hequals.name.symm⟩
    · obtain ⟨e, he⟩ := Option.isSome_iff_exists.1 hchosen
      rw [hequals.name] at he
      exact absurd (h.right.clean.admits.opens e₂ he₂) (h.not_opens he)
  exists_imported hx :=
    let ⟨y, _, hy⟩ := h.left.exists_linked_builtin hx (h.pristine hx).1
    ⟨y, hy⟩

/-- A copy is in the place of what it is a copy of. -/
theorem linked_copy (hr : foreign.Genuine r) : c₂.imported.table.Linked c.start.table .root (ρ r)
    (c₁.start.table.standIn c.start.table r) := by
  have hretraces := h.absorbed_left.retraces
  obtain ⟨hfound, hcopy⟩ := h.draws.relocates hr
  -- where a copy leads to, what it is a copy of leads to as well
  have hlinked :=
    (hretraces.linked (h.genuine_iff.1 hr)).grown hretraces.regular h.later h.regular
  have ht := h.right.left.intact.formed.toRegular
  refine ⟨hcopy.holds, ?_, hlinked.arity.trans hcopy.arity.symm,
    hlinked.outline.trans hcopy.outline.symm⟩
  have hroot : c.start.table.descend? .root (c₂.imported.table.path .root) = some .root := by
    rw [ht.tree.path_root]
    rfl
  rw [h.regular.relocate?_trans ht hroot hfound hcopy.outline, hlinked.found]

/-- What the second domain declares and imports has counterparts. -/
theorem absorbed_right : Absorbed second m c₂ c where
  toContained := h.right
  clean' := h.clean
  admits' := h.admits
  apart e' he' hchosen := by
    rcases h.firm_cases he' with ⟨e₁, he₁, hequals⟩ | ⟨e₂, he₂, hequals⟩
    · obtain ⟨e, he⟩ := Option.isSome_iff_exists.1 hchosen
      have hopens := opens_of_chosen he
      rw [hequals.name] at hopens
      exact absurd hopens (h.not_opens (h.left.clean.admits.chosen_firm he₁))
    · exact ⟨e₂, he₂, hequals.name.symm⟩
  exists_imported hx := by
    rcases h.imported_cases hx with ⟨hbase, -⟩ | ⟨-, -, r, hr, -, rfl⟩
    · obtain ⟨y, -, hy⟩ := h.right.exists_linked_builtin hx hbase
      exact ⟨y, hy⟩
    · exact ⟨_, h.linked_copy hr⟩

/-- A copy stands for the same as what it is a copy of. -/
theorem standIn_copy (hr : foreign.Genuine r) :
    c₂.start.table.standIn c.start.table (ρ r) = c₁.start.table.standIn c.start.table r :=
  ((h.linked_copy hr).grown h.right.left.intact.formed.toRegular
    h.right.left.entered.extended.later h.right.left.entered.intact.formed.toRegular).standIn_eq

theorem genuine_copy (hr : foreign.Genuine r) : c₂.start.table.Genuine (ρ r) := by
  have hholds := (h.draws.relocates hr).2.holds
  refine ⟨h.right.left.entered.extended.later.holds hholds, ?_⟩
  rw [Table.kindOf, (h.right.left.symbolAt_imported hholds).1]
  exact (h.right.left.genuine hholds).plain

/-- All types are declared in one of the two domains. -/
theorem type_cases {b : Declaration} (hb : b ∈ c.declarations.types) :
    (∃ b₁ ∈ c₁.declarations.types, b₁.rename (c₁.start.table.standIn c.start.table) = b) ∨
      ∃ b₂ ∈ c₂.declarations.types, b₂.rename (c₂.start.table.standIn c.start.table) = b := by
  obtain ⟨_, _, _, htaken⟩ := h.left.right.taken
  have hdecl := htaken.mem_types hb
  rw [h.joins.types, List.mem_append] at hdecl
  exact hdecl.imp (h.absorbed_left.exists_type hb) (h.absorbed_right.exists_type hb)

end Joined

end Draft

end ManySorted
