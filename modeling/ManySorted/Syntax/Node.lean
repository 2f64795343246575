import ManySorted.Syntax.Module

/-!
# Selecting nodes of a syntax tree

`Node.select` finds the nodes that end a chain of ancestors of given kinds: the pattern
`[typeDecl, field]` selects every field that lies below a type declaration.  Nodes are found in
the order in which the tree is written, parents before their children, and each node once.
-/

namespace ManySorted

/-- A node of a syntax tree. -/
inductive Node where
  | module (m : Module)
  | moduleRef (reference : ModuleRef)
  | param (param : Param)
  | typeDecl (decl : TypeDecl)
  | field (field : Field)
  | typeTerm (term : TypeTerm)
  | enumElement (element : EnumElement)
  | qualifiedId (id : QualifiedId)
  | constantDecl (decl : ConstantDecl)
  | contractDecl (decl : ContractDecl)
deriving DecidableEq, Repr

/-- What a node is. -/
inductive NodeKind where
  | module
  | moduleRef
  | param
  | typeDecl
  | field
  | typeTerm
  | enumElement
  | qualifiedId
  | constantDecl
  | contractDecl
deriving DecidableEq, Repr

namespace Node

def kind : Node → NodeKind
  | module _ => .module
  | moduleRef _ => .moduleRef
  | param _ => .param
  | typeDecl _ => .typeDecl
  | field _ => .field
  | typeTerm _ => .typeTerm
  | enumElement _ => .enumElement
  | qualifiedId _ => .qualifiedId
  | constantDecl _ => .constantDecl
  | contractDecl _ => .contractDecl

/-- The direct children, in the order in which they are written. -/
def children : Node → List Node
  | module m =>
      m.compositions.map moduleRef ++ m.params.map param ++ m.outputs.map moduleRef
        ++ m.types.map typeDecl ++ m.constants.map constantDecl ++ m.contracts.map contractDecl
  | param (.value _ type _) => type.map typeTerm
  | param (.model reference) => [moduleRef reference]
  | typeDecl decl =>
      match decl.body with
      | .union members => members.map typeTerm
      | body => body.fields.map field
  | field f => f.type.map typeTerm
  | typeTerm (.named id) => [qualifiedId id]
  | typeTerm (.enumeration elements _) => elements.map enumElement
  | enumElement (.constant id) => [qualifiedId id]
  | contractDecl decl =>
      match decl.item with
      | .cardinality _ sort => [qualifiedId sort]
      | .holds conditions => conditions.map qualifiedId
  | moduleRef _ | enumElement _ | qualifiedId _ | constantDecl _ => []

/-- The number of generations that may lie below a node. -/
def height : Node → Nat
  | module _ => 6
  | param _ | typeDecl _ => 5
  | field _ => 4
  | typeTerm _ => 3
  | enumElement _ => 2
  | contractDecl _ => 1
  | moduleRef _ | qualifiedId _ | constantDecl _ => 0

/-- Children are lower than their parent, so every walk down a tree ends. -/
theorem height_lt_of_mem_children {parent child : Node} (hchild : child ∈ parent.children) :
    child.height < parent.height := by
  cases parent with
  | module m =>
      simp only [children, List.mem_append, List.mem_map] at hchild
      rcases hchild with ((((h | h) | h) | h) | h) | h <;>
        · obtain ⟨_, _, rfl⟩ := h
          simp [height]
  | param param =>
      cases param with
      | value name type span =>
          obtain ⟨_, _, rfl⟩ := List.mem_map.1 hchild
          simp [height]
      | model reference =>
          obtain rfl := List.mem_singleton.1 hchild
          simp [height]
  | typeDecl decl =>
      rw [children] at hchild
      split at hchild <;>
        · obtain ⟨_, _, rfl⟩ := List.mem_map.1 hchild
          simp [height]
  | field field =>
      obtain ⟨_, _, rfl⟩ := List.mem_map.1 hchild
      simp [height]
  | typeTerm term =>
      cases term with
      | named id =>
          obtain rfl := List.mem_singleton.1 hchild
          simp [height]
      | enumeration elements span =>
          obtain ⟨_, _, rfl⟩ := List.mem_map.1 hchild
          simp [height]
  | enumElement element =>
      cases element with
      | constant id =>
          obtain rfl := List.mem_singleton.1 hchild
          simp [height]
      | _ => simp [children] at hchild
  | contractDecl decl =>
      rw [children] at hchild
      split at hchild
      · obtain rfl := List.mem_singleton.1 hchild
        simp [height]
      · obtain ⟨_, _, rfl⟩ := List.mem_map.1 hchild
        simp [height]
  | moduleRef _ | qualifiedId _ | constantDecl _ => simp [children] at hchild

/-- The nodes at or below `node` that end a chain of ancestors of the given kinds.  The chain is
matched as early as possible, which leaves the most room below. -/
def select (kinds : List NodeKind) (node : Node) : List Node :=
  match kinds with
  | [] => []
  | [last] =>
      (if node.kind = last then [node] else [])
        ++ node.children.attach.flatMap fun ⟨child, _⟩ => child.select [last]
  | first :: second :: rest =>
      let remaining := if node.kind = first then second :: rest else first :: second :: rest
      node.children.attach.flatMap fun ⟨child, _⟩ => child.select remaining
termination_by node.height
decreasing_by all_goals exact height_lt_of_mem_children ‹_›

/-- Every identifier at or below a node. -/
def qualifiedIds (root : Node) : List QualifiedId :=
  (root.select [.qualifiedId]).filterMap fun | qualifiedId id => some id | _ => none

/-- Every enumeration element at or below a node. -/
def enumElements (root : Node) : List EnumElement :=
  (root.select [.enumElement]).filterMap fun | enumElement element => some element | _ => none

end Node

/-- The fields of every type declaration of a module, with the declaration they belong to. -/
def Module.declaredFields (m : Module) : List (TypeDecl × Field) :=
  m.types.flatMap fun decl =>
    ((Node.typeDecl decl).select [.field]).filterMap fun
      | .field field => some (decl, field)
      | _ => none

end ManySorted
