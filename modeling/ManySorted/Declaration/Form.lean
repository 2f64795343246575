import ManySorted.Declaration.Position

/-!
# Canonical forms of declarations

Once every name is resolved, the unions among the members of a position are replaced by what they
accept.  Unions of the module itself may refer to each other, even in a circle; each is opened only
once.  All other unions have a canonical form already.
-/

namespace ManySorted

/-- The members of each union that the module declares. -/
abbrev UnionMembers := List (SymbolId × List Member)

namespace UnionMembers

/-- The entry of a union. -/
def find? (unions : UnionMembers) (u : SymbolId) : Option (SymbolId × List Member) :=
  List.find? (·.1 = u) unions

/-- The entries of all other unions. -/
def without (unions : UnionMembers) (u : SymbolId) : UnionMembers := unions.filter (·.1 ≠ u)

/-- The number of members that may still be met in opening the unions, and the unions themselves. -/
def weight : UnionMembers → Nat
  | [] => 0
  | entry :: rest => entry.2.length + 1 + weight rest

theorem weight_without_le (unions : UnionMembers) (u : SymbolId) :
    (unions.without u).weight ≤ unions.weight := by
  induction unions with
  | nil => simp [without, weight]
  | cons entry rest ih =>
      simp only [without, weight, List.filter_cons] at ih ⊢
      split
      · rw [weight]
        omega
      · omega

/-- Opening a union takes more weight off the unopened unions than it puts on the stack. -/
theorem weight_without_lt {unions : UnionMembers} {u : SymbolId} {entry : SymbolId × List Member}
    (hfound : unions.find? u = some entry) :
    entry.2.length + (unions.without u).weight < unions.weight := by
  induction unions with
  | nil => simp [find?] at hfound
  | cons head rest ih =>
      have hrest := weight_without_le rest u
      by_cases hu : head.1 = u
      · obtain rfl : head = entry := by simpa [find?, hu] using hfound
        have hskip : without (head :: rest) u = without rest u := by simp [without, hu]
        rw [hskip, weight]
        omega
      · have hlt := ih (by simpa [find?, hu] using hfound)
        have hkeep : without (head :: rest) u = head :: without rest u := by simp [without, hu]
        rw [hkeep, weight, weight]
        omega

end UnionMembers

/-- Adds to `out` what the members on the stack accept.  The unions in `unopened` are replaced by
their members when they are met first; `known` gives what other unions accept. -/
def flatten (known : SymbolId → AcceptedValues) (unopened : UnionMembers) (stack : List Member)
    (out : AcceptedValues) : AcceptedValues :=
  match stack with
  | [] => out
  | .values values :: rest => flatten known unopened rest (out.union values)
  | .union u :: rest =>
      match _ : unopened.find? u with
      | some entry => flatten known (unopened.without u) (entry.2 ++ rest) out
      | none => flatten known unopened rest (out.union (known u))
termination_by unopened.weight + stack.length
decreasing_by
  · simp
  · have := UnionMembers.weight_without_lt ‹_›
    simp only [List.length_append, List.length_cons]
    omega
  · simp

namespace Table

/-- The unions among the declarations that did not fail, with their members. -/
def unionMembers (t : Table) (types : List ResolvedType) : UnionMembers :=
  (types.filter fun d => !(t.symbolAt d.symbol).failed && (t.kindOf d.symbol).isUnion).map
    fun d => (d.symbol, d.members)

/-- What a union accepts by its canonical form.  Nothing is known in this way about the unions that
are declared here. -/
def knownUnion (t : Table) (unions : UnionMembers) (u : SymbolId) : AcceptedValues :=
  if (unions.find? u).isSome then ∅ else ((t.symbolAt u).accepted? 0).getD ∅

/-- What a position accepts. -/
def acceptedAt (t : Table) (unions : UnionMembers) (p : Position) : AcceptedValues :=
  flatten (t.knownUnion unions) unions p.members ∅

/-- Writes the canonical form of a declaration and of its companion sort. -/
def writeForm (t : Table) (symbol : SymbolId) (form : CanonicalForm) : Except Fault Table := do
  let t ←
    match (t.kindOf symbol).info? with
    | some info => t.setCanonical info.sort form
    | none => pure t
  t.setCanonical symbol form

/-- Constants have a canonical form without positions; parameters have one of their own. -/
def lacksConstantForm (s : Symbol) : Bool :=
  s.canonical.isNone && !s.failed &&
    match s.kind with
    | .userConstant kind => kind ≠ .parameter
    | _ => false

/-- Writes the canonical forms of all constants that lack one. -/
def writeConstantForms (t : Table) : Except Fault Table :=
  ((t.symbols.toList.filter lacksConstantForm).map Symbol.id).foldlM (·.setCanonical · {}) t

end Table

namespace Draft

/-- Writes the canonical form of a type declaration, unless it failed. -/
def writeTypeForm (unions : UnionMembers) (d : ResolvedType) : DraftM Unit := do
  tick
  let t ← getTable
  if !(t.symbolAt d.symbol).failed then
    tryModifyTable (·.writeForm d.symbol ⟨d.positions.map (t.acceptedAt unions)⟩)

/-- Writes the canonical form of a parameter, unless it failed. -/
def writeParamForm (unions : UnionMembers) (p : ResolvedParam) : DraftM Unit := do
  match p.type with
  | some position =>
      let t ← getTable
      tryModifyTable (·.setCanonical p.symbol ⟨[t.acceptedAt unions position]⟩)
  | none => return

/-- Spreads failures and writes the canonical forms of all that did not fail. -/
def writeForms (types : List ResolvedType) (params : List ResolvedParam) : DraftM Unit := do
  spreadFailures types (types.length + 1)
  let params ← params.mapM spreadToParam
  let unions := (← getTable).unionMembers types
  types.forM (writeTypeForm unions)
  params.forM (writeParamForm unions)
  tryModifyTable (·.writeConstantForms)

end Draft

end ManySorted
