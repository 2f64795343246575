/-!
# Handles

Symbols and namespaces live in the arenas of their table and refer to each other by position.
Handles of different tables are unrelated.
-/

namespace ManySorted

/-- The position of a symbol in its table. -/
structure SymbolId where
  index : Nat
deriving DecidableEq, Repr, Inhabited

/-- Symbols are ordered by registration. -/
instance : Ord SymbolId := ⟨fun a b => compare a.index b.index⟩

/-- The written form of a symbol handle. -/
def SymbolId.text (id : SymbolId) : String := s!"s{id.index}"

/-- The position of a namespace in its table. -/
structure NamespaceId where
  index : Nat
deriving DecidableEq, Repr, Inhabited

/-- The namespace that contains all others. -/
def NamespaceId.root : NamespaceId := ⟨0⟩

/-- The written form of a namespace handle. -/
def NamespaceId.text (id : NamespaceId) : String := s!"ns{id.index}"

/-- The identity of a table.  Tables of one module name with different identities are different
modules when modules are composed. -/
structure TableId where
  index : Nat
deriving DecidableEq, Repr, Inhabited

end ManySorted
