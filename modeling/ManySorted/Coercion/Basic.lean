import ManySorted.Table.Resolution

/-!
# Coercion between renamings

A value that was built under one namespace can be used under another if the symbol of the same name
exists there and accepts, position by position, all that the first one accepts.  Nested sorts and
type-valued constants are compared in the same way, between the same two namespaces.

Answers are kept in a cache.  While a comparison is running its answer counts as positive, so that
recursive sorts can be compared; a comparison that ends in a fault leaves no answer behind.
-/

namespace ManySorted

/-- The answer to a coercion query. -/
structure Coercibility where
  coercible : Bool
  /-- The corresponding symbol under the other namespace. -/
  target : Option SymbolId
deriving DecidableEq, Repr

/-- The negative answer. -/
def Coercibility.no : Coercibility := ⟨false, none⟩

/-- A coercion query: may `symbol`, built under `source`, be used under `target`? -/
structure CoercionKey where
  symbol : SymbolId
  source : NamespaceId
  target : NamespaceId
deriving DecidableEq, Repr

/-- What is known about a query. -/
structure CoercionEntry where
  state : Decision
  target : Option SymbolId
deriving DecidableEq, Repr

/-- The answer of an entry.  An entry that is still being decided is taken to hold. -/
def CoercionEntry.answer (entry : CoercionEntry) : Coercibility :=
  match entry.state with
  | .decided false => .no
  | .decided true | .pending => ⟨true, entry.target⟩

/-- The answers found so far, with one entry for each query. -/
structure CoercionCache where
  entries : List (CoercionKey × CoercionEntry) := []
deriving DecidableEq, Repr, Inhabited

namespace CoercionCache

def find? (c : CoercionCache) (key : CoercionKey) : Option CoercionEntry := c.entries.lookup key

def erase (c : CoercionCache) (key : CoercionKey) : CoercionCache :=
  ⟨c.entries.filter (·.1 ≠ key)⟩

/-- Writes the entry of a query over the one it may have. -/
def insert (c : CoercionCache) (key : CoercionKey) (entry : CoercionEntry) : CoercionCache :=
  ⟨(key, entry) :: (c.erase key).entries⟩

def size (c : CoercionCache) : Nat := c.entries.length

/-- The state of a query; one that was never asked is pending. -/
def state (c : CoercionCache) (key : CoercionKey) : Decision :=
  match c.find? key with
  | some entry => entry.state
  | none => .pending

end CoercionCache

/-- A computation that reads and extends the cache.  A fault keeps what was cached before it. -/
abbrev CoerceM := EStateM Fault CoercionCache

namespace Table

/-- The symbol at the same relative path under `target`, if it has the same kind and arity.
Symbols outside `source` are shared by both sides and correspond to themselves. -/
def counterpart? (t : Table) (source target : NamespaceId) (symbol : SymbolId) :
    Option SymbolId :=
  let named := t.bearer symbol
  if !t.isWithin named.home source then some symbol
  else
    let relative := (t.path named.home).drop (t.path source).length
    match (t.descend? target relative).bind fun ns => (t.namespaceAt ns).symbol? named.name with
    | none => none
    | some found =>
        let candidate := t.symbolAt found
        if candidate.kind.tag ≠ named.kind.tag ∨ candidate.arity ≠ named.arity then none
        else if (t.dataOf? symbol).isSome then t.sortOf? found
        else some found

/-- Whether a constant symbol is compared by coercion rather than for being listed. -/
def isNestedConstant (t : Table) (id : SymbolId) : Bool :=
  match t.kindOf id with
  | .userConstant kind => kind.isTypeValued
  | _ => false

/-- Whether `dst` accepts a constant that `src` lists, for constants that are compared as such. -/
def acceptsListed (t : Table) (dst : AcceptedValues) (value : ConstantValue) : Bool :=
  match value with
  | .string _ => dst.acceptsConstant value false
  | .symbol id =>
      t.isNestedConstant id || dst.acceptsConstant value (t.kindOf id matches .baseConstant _)

/-- Whether `dst` accepts all that `src` does, apart from nested symbols. -/
def acceptsDirectly (t : Table) (src dst : AcceptedValues) : Bool :=
  dst.acceptsBase src.base && src.ranges.all (fun r => dst.acceptsRange r.low r.high)
    && src.constants.toList.all (t.acceptsListed dst)

/-- The symbols of a position that are compared by coercion. -/
def nestedSymbols (t : Table) (v : AcceptedValues) : List SymbolId :=
  v.constantSymbols.filter t.isNestedConstant ++ v.sorts.toList

/-- Whether the counterpart of a nested symbol exists and is accepted by `dst`. -/
def acceptsNested (recur : SymbolId → CoerceM Coercibility) (nested : SymbolId)
    (dst : AcceptedValues) : CoerceM Bool := do
  let answer ← recur nested
  match answer with
  | ⟨true, some mapped⟩ =>
      return dst.sorts.contains mapped || dst.acceptsConstant (.symbol mapped) false
  | _ => return false

/-- Whether `target` accepts all that `source` does, where `recur` decides about nested symbols. -/
def compareSymbols (t : Table) (recur : SymbolId → CoerceM Coercibility)
    (source target : SymbolId) : CoerceM Bool := do
  match t.kindOf source, t.kindOf target with
  | .userConstant (.type sort), .userConstant (.type expected) =>
      let inner ← recur sort
      return inner.coercible && inner.target == some expected
  | .userConstant (.type _), _ => return false
  | _, _ =>
      match (t.symbolAt source).canonical, (t.symbolAt target).canonical with
      | some src, some dst =>
          let pairs := src.positions.zip dst.positions
          if src.size = dst.size ∧ pairs.all (fun (s, d) => t.acceptsDirectly s d) then
            (pairs.flatMap fun (s, d) => (t.nestedSymbols s).map (·, d)).allM
              fun (nested, d) => acceptsNested recur nested d
          else return false
      | _, _ => return false

/-- Decides a query, with at most `fuel` queries inside one another. -/
def coerceWithin (t : Table) (source target : NamespaceId) : Nat → SymbolId → CoerceM Coercibility
  | 0, _ => return .no
  | fuel + 1, symbol => do
      if source = target then return ⟨true, some symbol⟩
      if !(t.kindOf symbol).isCoercible then throw (.notCoercible symbol)
      let key : CoercionKey := ⟨symbol, source, target⟩
      match (← get).find? key with
      | some entry => return entry.answer
      | none =>
          let counterpart := t.counterpart? source target symbol
          modify (·.insert key ⟨.pending, counterpart⟩)
          let holds ←
            match counterpart with
            | none => pure false
            | some found =>
                if found = symbol then pure true
                else fun cache =>
                  match t.compareSymbols (t.coerceWithin source target fuel) symbol found cache with
                  | .ok holds cache => .ok holds cache
                  | .error fault cache => .error fault (cache.erase key)
          modify (·.insert key ⟨.decided holds, counterpart⟩)
          return if holds then ⟨true, counterpart⟩ else .no

/-- Whether values of `symbol` built under `source` can be used under `target`.  Queries inside one
another are about different symbols, so there are no more of them than symbols. -/
def coerce (t : Table) (symbol : SymbolId) (source target : NamespaceId) : CoerceM Coercibility :=
  t.coerceWithin source target (t.symbols.size + 1) symbol

end Table

end ManySorted
