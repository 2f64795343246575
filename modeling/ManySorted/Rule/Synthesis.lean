import ManySorted.Table.Basic

/-!
# Rules implied by a declaration

A map has a rule for each of its demands: it is functional and, as declared, injective, total and
surjective.  A position that accepts data and is not marked `any` is relational: what stands there
is itself a fact.  Each rule describes how a model may break the demand.
-/

namespace ManySorted

namespace Rule

/-- The variables `x0`, `x1`, and so on. -/
def argNames (letter : String) (count : Nat) : List String :=
  (List.range count).map fun i => s!"{letter}{i}"

/-- A tuple of terms; one term alone is written without parentheses. -/
def tuple : List String → String
  | [single] => single
  | parts => "(" ++ Text.join ", " parts ++ ")"

/-- The application of a data symbol. -/
def app (name : String) (args : List String) : String :=
  name ++ "(" ++ Text.join ", " args ++ ")"

/-- The condition that `arg` is accepted at a position of a data symbol. -/
def acceptedAt (name : String) (position : Nat) (arg : String) : String :=
  s!"%sub(#{name}, {position}, {arg})"

/-- The rules for the demands of a map with `domain` and `codomain` positions. -/
def ofMap (name : String) (subject : SymbolId) (flags : MapFlags) (domain codomain : Nat) :
    List Rule :=
  let xs := argNames "x" domain
  let ys := argNames "y" codomain
  let zs := argNames "z" codomain
  let ws := argNames "w" domain
  let blanks (count : Nat) := List.replicate count "_"
  [{ kind := .functionality, subject, head := s!"{name}.%notFunctional",
     body := [app name (xs ++ ys), app name (xs ++ zs), s!"{tuple ys} != {tuple zs}"] }]
  ++ (if flags.injective then
        [{ kind := .injectivity, subject, head := s!"{name}.%notInjective",
           body := [app name (xs ++ ys), app name (ws ++ ys), s!"{tuple xs} != {tuple ws}"] }]
      else [])
  ++ (if flags.total then
        [{ kind := .totality, subject, head := s!"{name}.%notTotal",
           body := xs.mapIdx (acceptedAt name) ++ [s!"no {app name (xs ++ blanks codomain)}"] }]
      else [])
  ++ (if flags.surjective then
        [{ kind := .inverseTotality, subject, head := s!"{name}.%notInvTotal",
           body := ys.mapIdx (fun i y => acceptedAt name (domain + i) y)
             ++ [s!"no {app name (blanks domain ++ ys)}"] }]
      else [])

/-- The rule for a relational position. -/
def ofPosition (name : String) (subject : SymbolId) (arity position : Nat) : Rule :=
  let arg := s!"a{position}"
  { kind := .relational, subject, position := some position, head := s!"{name}.%notRelational",
    body := [app name (argNames "a" arity), acceptedAt name position arg, s!"no {arg}"] }

end Rule

/-- The relational positions of a data symbol. -/
def Symbol.relationalPositions (s : Symbol) : List Nat :=
  match s.canonical with
  | none => []
  | some form =>
      (List.range form.size).filter fun i =>
        !s.kind.isAny i && (form.get? i).any fun values => !values.sorts.isEmpty

/-- The rules implied by the declaration of a data symbol. -/
def Table.impliedRules (t : Table) (names : Interner) (data : SymbolId) : List Rule :=
  let s := t.symbolAt data
  let name := t.qualifiedName names data
  let mapRules :=
    match s.kind with
    | .data (.map kind isPartial domainArity) _ =>
        Rule.ofMap name data (.ofKind kind isPartial) domainArity (s.arity - domainArity)
    | _ => []
  mapRules ++ s.relationalPositions.map (Rule.ofPosition name data s.arity)

end ManySorted
