import Mathlib.Data.List.Perm.Subperm
import Mathlib.Logic.Relation
import ManySorted.Syntax.Node

/-!
# What lies below a node

A selection by one kind finds just the nodes of that kind that lie at or below a node
(`Node.mem_select_singleton`).  If the types of a module are written in another order, the same
nodes are found in another order (`Node.perm_enumElements`).
-/

namespace ManySorted

/-- The identifier of an enumeration element that is a constant. -/
def EnumElement.id? : EnumElement → Option QualifiedId
  | constant id => some id
  | _ => none

/-- The identifiers of a type term. -/
def TypeTerm.ids : TypeTerm → List QualifiedId
  | named id => [id]
  | enumeration elements _ => elements.filterMap EnumElement.id?

namespace Node

variable {node parent child : Node} {kind : NodeKind}

/-- The node lies at or below the root. -/
def Below (root node : Node) : Prop :=
  Relation.ReflTransGen (fun parent child => child ∈ parent.children) root node

theorem below_of_mem_children (hchild : child ∈ parent.children) (h : child.Below node) :
    parent.Below node :=
  .head hchild h

theorem select_singleton (kind : NodeKind) (node : Node) :
    node.select [kind] = (if node.kind = kind then [node] else []) ++
      node.children.flatMap (·.select [kind]) := by
  rw [select, List.flatMap_subtype (g := (·.select [kind])) (fun _ _ => rfl), List.unattach_attach]

theorem mem_select_singleton {root : Node} :
    node ∈ root.select [kind] ↔ root.Below node ∧ node.kind = kind := by
  rw [select_singleton, List.mem_append, List.mem_flatMap]
  have ih : ∀ child ∈ root.children, (node ∈ child.select [kind] ↔ child.Below node ∧
      node.kind = kind) := fun child hchild =>
    have := height_lt_of_mem_children hchild
    mem_select_singleton
  constructor
  · rintro (hself | ⟨child, hchild, hmem⟩)
    · split at hself
      · next hkind =>
          obtain rfl := List.mem_singleton.1 hself
          exact ⟨.refl, hkind⟩
      · exact absurd hself List.not_mem_nil
    · obtain ⟨hbelow, hkind⟩ := (ih child hchild).1 hmem
      exact ⟨below_of_mem_children hchild hbelow, hkind⟩
  · rintro ⟨hbelow, hkind⟩
    rcases Relation.ReflTransGen.cases_head hbelow with rfl | ⟨child, hchild, hbelow⟩
    · rw [if_pos hkind]
      exact .inl List.mem_cons_self
    · exact .inr ⟨child, hchild, (ih child hchild).2 ⟨hbelow, hkind⟩⟩
termination_by root.height

/-- What lies below a node is no higher. -/
theorem Below.height_le {root : Node} (h : root.Below node) : node.height ≤ root.height := by
  induction h with
  | refl => exact Nat.le_refl _
  | tail _ hchild ih => exact Nat.le_trans (Nat.le_of_lt (height_lt_of_mem_children hchild)) ih

/-- The fields below a type declaration are those of its body. -/
theorem mem_fields_of_below {decl : TypeDecl} {f : Field} (h : (typeDecl decl).Below (field f)) :
    f ∈ decl.body.fields := by
  have hfield : ∀ {g : Field}, (field g).Below (field f) → g = f := by
    intro g hg
    rcases Relation.ReflTransGen.cases_head hg with heq | ⟨child, hchild, hbelow⟩
    · exact field.inj heq
    · have hlt : child.height < (field g).height := height_lt_of_mem_children hchild
      exact absurd (Below.height_le hbelow) (Nat.not_le.2 hlt)
  rcases Relation.ReflTransGen.cases_head h with heq | ⟨child, hchild, hbelow⟩
  · cases heq
  · cases hbody : decl.body with
    | union members =>
        rw [children, hbody] at hchild
        obtain ⟨term, -, rfl⟩ := List.mem_map.1 hchild
        exact absurd (Below.height_le hbelow) (show ¬ 4 ≤ 3 by decide)
    | _ =>
        rw [children, hbody] at hchild
        obtain ⟨g, hg, rfl⟩ := List.mem_map.1 hchild
        exact hfield hbelow ▸ hg

theorem mem_declaredFields {m : Module} {entry : TypeDecl × Field}
    (h : entry ∈ m.declaredFields) : entry.1 ∈ m.types ∧ entry.2 ∈ entry.1.body.fields := by
  obtain ⟨decl, hdecl, hentry⟩ := List.mem_flatMap.1 h
  obtain ⟨node, hnode, hentry⟩ := List.mem_filterMap.1 hentry
  cases node with
  | field f =>
      cases hentry
      exact ⟨hdecl, mem_fields_of_below (mem_select_singleton.1 hnode).1⟩
  | _ => cases hentry

theorem mem_qualifiedIds {root : Node} {id : QualifiedId} :
    id ∈ root.qualifiedIds ↔ root.Below (.qualifiedId id) := by
  rw [qualifiedIds, List.mem_filterMap]
  constructor
  · rintro ⟨node, hnode, hid⟩
    cases node with
    | qualifiedId id' =>
        cases hid
        exact (mem_select_singleton.1 hnode).1
    | _ => cases hid
  · exact fun h => ⟨_, mem_select_singleton.2 ⟨h, rfl⟩, rfl⟩

theorem mem_enumElements {root : Node} {element : EnumElement} :
    element ∈ root.enumElements ↔ root.Below (.enumElement element) := by
  rw [enumElements, List.mem_filterMap]
  constructor
  · rintro ⟨node, hnode, helement⟩
    cases node with
    | enumElement element' =>
        cases helement
        exact (mem_select_singleton.1 hnode).1
    | _ => cases helement
  · exact fun h => ⟨_, mem_select_singleton.2 ⟨h, rfl⟩, rfl⟩

theorem below_qualifiedId_of_element {id : QualifiedId} :
    (enumElement (.constant id)).Below (qualifiedId id) :=
  .single List.mem_cons_self

theorem below_qualifiedId_of_term {term : TypeTerm} {id : QualifiedId} (hid : id ∈ term.ids) :
    (typeTerm term).Below (qualifiedId id) := by
  cases term with
  | named id' =>
      rw [List.mem_singleton.1 hid]
      exact .single List.mem_cons_self
  | enumeration elements span =>
      obtain ⟨element, helement, hid⟩ := List.mem_filterMap.1 hid
      cases element with
      | constant id' =>
          cases hid
          exact below_of_mem_children (List.mem_map_of_mem helement) below_qualifiedId_of_element
      | _ => cases hid

theorem below_typeTerm_of_decl {decl : TypeDecl} {terms : List TypeTerm} {term : TypeTerm}
    (hterms : terms ∈ decl.body.positions) (hterm : term ∈ terms) :
    (typeDecl decl).Below (typeTerm term) := by
  have hfield : ∀ fields : List Field, terms ∈ fields.map Field.type →
      (∀ f ∈ fields, field f ∈ (typeDecl decl).children) →
        (typeDecl decl).Below (typeTerm term) := by
    intro fields hterms hchildren
    obtain ⟨f, hf, rfl⟩ := List.mem_map.1 hterms
    exact below_of_mem_children (hchildren f hf) (.single (List.mem_map_of_mem hterm))
  cases hbody : decl.body with
  | union members =>
      rw [hbody, TypeBody.positions, List.mem_singleton] at hterms
      refine .single ?_
      rw [children, hbody]
      exact List.mem_map_of_mem (hterms ▸ hterm)
  | _ =>
      rw [hbody] at hterms
      refine hfield _ hterms fun f hf => ?_
      rw [children, hbody]
      exact List.mem_map_of_mem hf

section

variable {m : Module}

theorem typeDecl_mem_children {decl : TypeDecl} (hdecl : decl ∈ m.types) :
    typeDecl decl ∈ (module m).children := by
  simp [children, hdecl]

theorem param_mem_children {p : Param} (hp : p ∈ m.params) : param p ∈ (module m).children := by
  simp [children, hp]

theorem contractDecl_mem_children {contract : ContractDecl} (hcontract : contract ∈ m.contracts) :
    contractDecl contract ∈ (module m).children := by
  simp [children, hcontract]

theorem mem_qualifiedIds_of_type {decl : TypeDecl} {terms : List TypeTerm} {term : TypeTerm}
    {id : QualifiedId} (hdecl : decl ∈ m.types) (hterms : terms ∈ decl.body.positions)
    (hterm : term ∈ terms) (hid : id ∈ term.ids) : id ∈ (module m).qualifiedIds :=
  mem_qualifiedIds.2 <| below_of_mem_children (typeDecl_mem_children hdecl) <|
    (below_typeTerm_of_decl hterms hterm).trans (below_qualifiedId_of_term hid)

theorem mem_qualifiedIds_of_param {name : Name} {type : List TypeTerm} {span : Span}
    {term : TypeTerm} {id : QualifiedId} (hp : .value name type span ∈ m.params)
    (hterm : term ∈ type) (hid : id ∈ term.ids) : id ∈ (module m).qualifiedIds :=
  mem_qualifiedIds.2 <| below_of_mem_children (param_mem_children hp) <|
    below_of_mem_children (List.mem_map_of_mem hterm) (below_qualifiedId_of_term hid)

theorem mem_qualifiedIds_of_element {id : QualifiedId}
    (helement : .constant id ∈ (module m).enumElements) : id ∈ (module m).qualifiedIds :=
  mem_qualifiedIds.2 ((mem_enumElements.1 helement).trans below_qualifiedId_of_element)

theorem mem_qualifiedIds_of_cardinality {contract : ContractDecl} {c : Cardinality}
    {id : QualifiedId} (hcontract : contract ∈ m.contracts)
    (hitem : contract.item = .cardinality c id) : id ∈ (module m).qualifiedIds := by
  refine mem_qualifiedIds.2 (below_of_mem_children (contractDecl_mem_children hcontract)
    (.single ?_))
  rw [children, hitem]
  exact List.mem_cons_self

theorem mem_qualifiedIds_of_condition {contract : ContractDecl} {ids : List QualifiedId}
    {id : QualifiedId} (hcontract : contract ∈ m.contracts) (hitem : contract.item = .holds ids)
    (hid : id ∈ ids) : id ∈ (module m).qualifiedIds := by
  refine mem_qualifiedIds.2 (below_of_mem_children (contractDecl_mem_children hcontract)
    (.single ?_))
  rw [children, hitem]
  exact List.mem_map_of_mem hid

/-- What lies below a module lies at or below one of its children. -/
theorem exists_child_of_below (hkind : node.kind ≠ .module) (h : (module m).Below node) :
    ∃ child ∈ (module m).children, child.Below node := by
  rcases Relation.ReflTransGen.cases_head h with rfl | ⟨child, hchild, hbelow⟩
  · exact absurd rfl hkind
  · exact ⟨child, hchild, hbelow⟩

/-- No identifier and no constant of an enumeration lies below a reference to a module. -/
theorem kind_of_below_moduleRef {reference : ModuleRef} (h : (moduleRef reference).Below node) :
    node.kind = .moduleRef := by
  rcases Relation.ReflTransGen.cases_head h with rfl | ⟨child, hchild, -⟩
  · rfl
  · exact absurd hchild List.not_mem_nil

end

end Node

/-- The module with other types. -/
def Module.withTypes (m : Module) (types : List TypeDecl) : Module := { m with types }

section

variable {m : Module} {types : List TypeDecl} {kind : NodeKind} (h : types.Perm m.types)
include h

theorem Module.perm_declaredFields : (m.withTypes types).declaredFields.Perm m.declaredFields :=
  h.flatMap_right _

namespace Node

theorem perm_children : (module (m.withTypes types)).children.Perm (module m).children :=
  (((h.map typeDecl).append_left _).append_right _).append_right _

theorem perm_select (hkind : kind ≠ .module) :
    ((module (m.withTypes types)).select [kind]).Perm ((module m).select [kind]) := by
  have hself : ∀ m : Module, ¬ (module m).kind = kind := fun _ => hkind.symm
  rw [select_singleton, select_singleton, if_neg (hself _), if_neg (hself _)]
  exact (perm_children h).flatMap_right _

theorem perm_enumElements :
    (module (m.withTypes types)).enumElements.Perm (module m).enumElements :=
  (perm_select h (by decide)).filterMap _

theorem perm_qualifiedIds :
    (module (m.withTypes types)).qualifiedIds.Perm (module m).qualifiedIds :=
  (perm_select h (by decide)).filterMap _

end Node

end

end ManySorted
