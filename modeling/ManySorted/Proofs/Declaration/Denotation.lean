import ManySorted.Proofs.Accepted.Opening
import ManySorted.Proofs.Declaration.Failing

/-!
# What type terms denote

A type term denotes a set of values: a base sort its values, a data symbol the data that it heads,
an enumeration its elements, and a union what its members denote.  The unions of a module may refer
to each other in circles, so what they denote is given inductively (`Denotes`).  Opening unions one
after the other, each once, finds exactly these values (`has_flatten`): a value that is reached
through a union that is open already is reached from that union directly.

## Strategy

* **Positions.**  What a position accepts is described value by value (`Table.has_iff`), and joining
  positions accepts what either accepts (`Table.has_union`).
* **Opening.**  A value is found by opening unions if and only if the members on the stack yield it
  (`has_flatten`).  The induction is on how the value is found: a union that is met again adds
  nothing, since what it yields is yielded without going through it twice.
* **Terms.**  A term that is resolved without problems contributes the symbols that its names led to
  (`Scope.resolvePosition_eq`).
* **Both together.**  Of a position that stands, what is opened is what is denoted (`Opens.denotes`,
  `Opens.yields`), and so it accepts just what its terms denote (`Opens.has_acceptedAt`).
-/

namespace ManySorted

/-- A value of a position: a literal, a constant, or data, which is known by its symbol. -/
inductive Value where
  | integer (value : Int)
  /-- A number that is no integer. -/
  | fraction (value : Rat)
  | string (value : Name)
  | constant (symbol : SymbolId)
  | data (symbol : SymbolId)

/-! ## Values that are accepted -/

/-- Whether a value belongs to a base sort. -/
def BaseSort.Has (t : Table) (b : BaseSort) : Value → Prop
  | .integer n => b.HasInteger n
  | .fraction _ => b = .real
  | .string _ => b = .string
  | .constant c => b = .boolean ∧ ∃ value, t.kindOf c = .baseConstant value
  | .data _ => False

namespace Table

variable {t t' : Table} {v w : AcceptedValues} {x : Value}

/-- Whether a position accepts a value, by the tests of the checker. -/
def accepts (t : Table) (v : AcceptedValues) : Value → Bool
  | .integer n => v.acceptsInteger n
  | .fraction _ => v.base.contains .real
  | .string s => v.acceptsConstant (.string s) false
  | .constant c => v.acceptsConstant (.symbol c) (t.kindOf c matches .baseConstant _)
  | .data d => v.sorts.toList.any fun s => t.dataOf? s == some d

/-- Whether a value is among the accepted ones. -/
def Has (t : Table) (v : AcceptedValues) : Value → Prop
  | .integer n => v.HasInteger n
  | .fraction _ => v.base.contains .real = true
  | .string s => v.HasString s
  | .constant c => v.HasConstant t c
  | .data d => ∃ s ∈ v.sorts, t.dataOf? s = some d

end Table

theorem BaseSortSet.acceptsInteger_iff {base : BaseSortSet} {n : Int} :
    base.acceptsInteger n = true ↔ ∃ b, base.contains b = true ∧ b.HasInteger n := by
  rw [← exists_stretch_iff]
  obtain ⟨natural, posInteger, negInteger, integer, real, _, _⟩ := base
  cases natural <;> cases posInteger <;> cases negInteger <;> cases integer <;> cases real <;>
    simp [acceptsInteger, stretches, closure, Stretch.Has] <;> omega

theorem BaseSortSet.contains_union (s t : BaseSortSet) (b : BaseSort) :
    (s.union t).contains b = (s.contains b || t.contains b) := by
  cases b <;> rfl

theorem BaseSortSet.contains_singleton {b c : BaseSort} : (singleton c).contains b =
    true ↔ b = c := by
  cases b <;> cases c <;> simp [singleton, contains]

namespace Table

variable {t t' : Table} {v w : AcceptedValues} {x : Value}

/-- The tests of the checker are right. -/
theorem accepts_iff : t.accepts v x = true ↔ t.Has v x := by
  cases x with
  | integer n =>
      simp only [accepts, Has, AcceptedValues.acceptsInteger, Bool.or_eq_true,
        BaseSortSet.acceptsInteger_iff, List.any_eq_true, IntRange.contains, Bool.and_eq_true,
        decide_eq_true_eq, AcceptedValues.HasInteger]
      exact or_comm
  | fraction q => exact Iff.rfl
  | string s =>
      simp only [accepts, Has, AcceptedValues.acceptsConstant, Bool.or_eq_true,
        OrderedSet.contains, List.contains_iff_mem, AcceptedValues.HasString]
      exact Iff.rfl
  | constant c =>
      have htruth : (t.kindOf c matches .baseConstant _) = true ↔
          ∃ value, t.kindOf c = .baseConstant value := by
        cases t.kindOf c <;> simp
      simp only [accepts, Has, AcceptedValues.acceptsConstant, Bool.or_eq_true, Bool.and_eq_true,
        OrderedSet.contains, List.contains_iff_mem, AcceptedValues.HasConstant, htruth]
      exact or_congr_right and_comm
  | data d =>
      simp only [accepts, Has, List.any_eq_true, beq_iff_eq]
      exact Iff.rfl

/-- A value is listed or belongs to a base sort. -/
theorem has_iff : t.Has v x ↔ (∃ b, v.base.contains b = true ∧ b.Has t x) ∨
    match x with
    | .integer n => ∃ r ∈ v.ranges, r.Has n
    | .fraction _ => False
    | .string s => .string s ∈ v.constants
    | .constant c => .symbol c ∈ v.constants
    | .data d => ∃ s ∈ v.sorts, t.dataOf? s = some d := by
  cases x with
  | integer n => exact or_comm
  | fraction q =>
      simp only [Has, BaseSort.Has, or_false, exists_eq_right]
  | string s =>
      simp only [Has, BaseSort.Has, AcceptedValues.HasString, exists_eq_right]
      exact or_comm
  | constant c =>
      simp only [Has, BaseSort.Has, AcceptedValues.HasConstant]
      rw [or_comm]
      refine or_congr_left ?_
      constructor
      · rintro ⟨hboolean, hvalue⟩
        exact ⟨.boolean, hboolean, rfl, hvalue⟩
      · rintro ⟨b, hb, rfl, hvalue⟩
        exact ⟨hb, hvalue⟩
  | data d =>
      simp only [Has, BaseSort.Has, and_false, exists_false, false_or]

theorem not_has_empty : ¬ t.Has ∅ x := by
  rw [has_iff]
  rintro (⟨b, hb, -⟩ | hx)
  · cases b <;> cases hb
  · cases x with
    | integer n =>
        obtain ⟨r, hr, -⟩ := hx
        exact absurd hr List.not_mem_nil
    | fraction q => exact hx
    | string s => exact OrderedSet.not_mem_empty _ hx
    | constant c => exact OrderedSet.not_mem_empty _ hx
    | data d =>
        obtain ⟨s, hs, -⟩ := hx
        exact OrderedSet.not_mem_empty _ hs

/-- Joining positions accepts what either accepts. -/
theorem has_union : t.Has (v.union w) x ↔ t.Has v x ∨ t.Has w x := by
  have hbase : (∃ b, (v.union w).base.contains b = true ∧ b.Has t x) ↔
      (∃ b, v.base.contains b = true ∧ b.Has t x) ∨ ∃ b, w.base.contains b = true ∧ b.Has t x := by
    simp only [AcceptedValues.union, BaseSortSet.contains_union, Bool.or_eq_true, or_and_right,
      exists_or]
  rw [has_iff, has_iff, has_iff, hbase]
  have hshuffle : ∀ {a b c d e : Prop}, (e ↔ c ∨ d) → ((a ∨ b) ∨ e ↔ (a ∨ c) ∨ b ∨ d) := by
    intro a b c d e he
    rw [he]
    exact or_or_or_comm
  refine hshuffle ?_
  cases x with
  | integer n => exact IntRange.exists_mem_foldl_insert
  | fraction q => exact (or_self_iff).symm
  | string s => exact OrderedSet.mem_union
  | constant c => exact OrderedSet.mem_union
  | data d =>
      simp only [AcceptedValues.union, OrderedSet.mem_union, or_and_right, exists_or]

theorem has_addSort {s : SymbolId} :
    t.Has (v.addSort s) x ↔ t.Has v x ∨ ∃ d, x = .data d ∧ t.dataOf? s = some d := by
  cases x with
  | data d =>
      simp only [Has, AcceptedValues.addSort, OrderedSet.mem_insert, or_and_right, exists_or,
        exists_eq_left, Value.data.injEq]
      rw [or_comm]
      refine or_congr_right ⟨fun h => ⟨d, rfl, h⟩, ?_⟩
      rintro ⟨_, rfl, h⟩
      exact h
  | _ => simp [Has, AcceptedValues.addSort, AcceptedValues.HasInteger, AcceptedValues.HasString,
      AcceptedValues.HasConstant]

theorem has_addConstant {c : SymbolId} :
    t.Has (v.addConstant c) x ↔ t.Has v x ∨ x = .constant c := by
  cases x with
  | constant c' =>
      simp only [Has, AcceptedValues.HasConstant, AcceptedValues.addConstant,
        OrderedSet.mem_insert, ConstantValue.symbol.injEq, Value.constant.injEq]
      rw [or_assoc, or_comm]
  | _ => simp [Has, AcceptedValues.addConstant, AcceptedValues.HasInteger, AcceptedValues.HasString]

theorem has_addString {value : Name} :
    t.Has (v.addString value) x ↔ t.Has v x ∨ x = .string value := by
  cases x with
  | string s =>
      simp only [Has, AcceptedValues.HasString, AcceptedValues.addString,
        OrderedSet.mem_insert, ConstantValue.string.injEq, Value.string.injEq]
      rw [or_assoc, or_comm]
  | _ => simp [Has, AcceptedValues.addString, AcceptedValues.HasInteger, AcceptedValues.HasConstant]

theorem has_addRange {low high : Int} :
    t.Has (v.addRange low high) x ↔ t.Has v x ∨ ∃ n, x = .integer n ∧ low ≤ n ∧ n ≤ high := by
  unfold AcceptedValues.addRange
  split
  · cases x with
    | integer n =>
        have hjoin : (∃ r ∈ IntRange.insert ⟨low, high⟩ v.ranges, r.Has n) ↔
            (low ≤ n ∧ n ≤ high) ∨ ∃ r ∈ v.ranges, r.Has n := IntRange.exists_mem_insert
        rw [has_iff, has_iff]
        simp only [Value.integer.injEq, exists_eq_left', hjoin]
        rw [or_assoc]
        exact or_congr_right or_comm
    | _ => simp [Has, AcceptedValues.HasString, AcceptedValues.HasConstant]
  · next hempty =>
      refine (or_iff_left ?_).symm
      rintro ⟨n, -, hlow, hhigh⟩
      exact hempty (Int.le_trans hlow hhigh)

theorem has_baseSort {b : BaseSort} :
    t.Has ((∅ : AcceptedValues).addBase (.singleton b)) x ↔ b.Has t x := by
  have hempty : (∅ : BaseSortSet).union (.singleton b) = .singleton b := by
    cases b <;> rfl
  rw [has_iff, or_iff_left]
  · change (∃ b', ((∅ : BaseSortSet).union (.singleton b)).contains b' = true ∧ b'.Has t x) ↔ _
    simp only [hempty, BaseSortSet.contains_singleton, exists_eq_left]
  · cases x with
    | integer n =>
        rintro ⟨r, hr, -⟩
        exact absurd hr List.not_mem_nil
    | fraction q => exact fun h => h
    | string s => exact OrderedSet.not_mem_empty _
    | constant c => exact OrderedSet.not_mem_empty _
    | data d =>
        rintro ⟨s, hs, -⟩
        exact OrderedSet.not_mem_empty _ hs

/-- What is accepted does not depend on what is written. -/
theorem Alike.has (h : t.Alike t') : t'.Has v x ↔ t.Has v x := by
  cases x with
  | constant c =>
      simp only [Has, AcceptedValues.HasConstant]
      refine or_congr_right (and_congr_right fun _ => exists_congr fun value => ?_)
      by_cases hsort : t.IsSort c
      · have hsort' := h.isSort.2 hsort
        obtain ⟨_, hkind⟩ := hsort
        obtain ⟨_, hkind'⟩ := hsort'
        refine iff_of_false (fun heq => ?_) fun heq => ?_
        · rw [heq] at hkind'
          cases hkind'
        · rw [heq] at hkind
          cases hkind
      · rw [h.kindOf hsort]
  | data d => simp only [Has, h.dataOf?]
  | _ => exact Iff.rfl

end Table

/-! ## Opening unions -/

/-- The values that a member brings in, where the unions in `unopened` have the given members and
`known` says what other unions accept. -/
inductive Yields (t : Table) (known : SymbolId → AcceptedValues) (unopened : UnionMembers) :
    Member → Value → Prop
  | values {values : AcceptedValues} {x : Value} (h : t.Has values x) :
      Yields t known unopened (.values values) x
  | known {u : SymbolId} {x : Value} (hfind : unopened.find? u = none) (h : t.Has (known u) x) :
      Yields t known unopened (.union u) x
  | opened {u : SymbolId} {entry : SymbolId × List Member} {member : Member} {x : Value}
      (hfind : unopened.find? u = some entry) (hmember : member ∈ entry.2)
      (h : Yields t known unopened member x) : Yields t known unopened (.union u) x

section

variable {t : Table} {known : SymbolId → AcceptedValues} {unopened : UnionMembers} {u : SymbolId}
  {entry : SymbolId × List Member} {member : Member} {x : Value}

theorem yields_iff : Yields t known unopened member x ↔
    Supplies (t.Has · x) known unopened member := by
  constructor
  · intro h
    induction h with
    | values h => exact .values h
    | known hfind h => exact .known hfind h
    | opened hfind hmember _ ih => exact .opened hfind hmember ih
  · intro h
    induction h with
    | values h => exact .values h
    | known hfind h => exact .known hfind h
    | opened hfind hmember _ ih => exact .opened hfind hmember ih

/-- Opening unions finds what the members on the stack yield.  Nothing is known otherwise about the
unions that are opened. -/
theorem has_flatten {stack : List Member} {out : AcceptedValues}
    (hknown : ∀ u entry, unopened.find? u = some entry → ¬ t.Has (known u) x) :
    t.Has (flatten known unopened stack out) x ↔
      t.Has out x ∨ ∃ member ∈ stack, Yields t known unopened member x := by
  have hadditive : Additive (t.Has · x) := fun _ _ => Table.has_union
  rw [flatten_iff hadditive hknown]
  simp only [yields_iff]

end

/-! ## The meaning of type terms -/

/-- Whether the form of a union is written before the module's own unions are opened: so it is for
imported unions and for conveniences. -/
def Table.isStored (t : Table) (u : SymbolId) : Bool :=
  (t.symbolAt u).isImported || (t.kindOf u).convenience?.isSome

/-- The values of an element of an enumeration. -/
inductive EnumElement.Has (t : Table) : EnumElement → Value → Prop
  | constant {id : QualifiedId} {c : SymbolId} (found : t.resolveId id Table.anySymbol = .found c) :
      Has t (.constant id) (.constant c)
  | integer (n : Int) (span : Span) : Has t (.literal (.integer n) span) (.integer n)
  | string (value : Name) (span : Span) : Has t (.literal (.string value) span) (.string value)
  | range {low high n : Int} {span : Span} (above : low ≤ n) (below : n ≤ high) :
      Has t (.range low high span) (.integer n)

/-- The values that a type term of a module denotes.  The unions of the module denote the least sets
that contain what their members denote; all other unions denote what their forms accept. -/
inductive Denotes (m : Module) (t : Table) : TypeTerm → Value → Prop
  | base {id : QualifiedId} {b : SymbolId} {base : BaseSort} {x : Value}
      (found : t.resolveId id Table.typeDefining = .found b) (kind : t.kindOf b = .baseSort base)
      (has : base.Has t x) : Denotes m t (.named id) x
  | data {id : QualifiedId} {d : SymbolId} {shape : DataShape} {info : DataInfo}
      (found : t.resolveId id Table.typeDefining = .found d)
        (kind : t.kindOf d = .data shape info) :
      Denotes m t (.named id) (.data d)
  | stored {id : QualifiedId} {u : SymbolId} {convenience : Option Convenience}
      {values : AcceptedValues} {x : Value} (found : t.resolveId id Table.typeDefining = .found u)
      (kind : t.kindOf u = .union convenience) (stored : t.isStored u = true)
      (form : (t.symbolAt u).accepted? 0 = some values) (accepts : t.accepts values x = true) :
      Denotes m t (.named id) x
  | own {id : QualifiedId} {u : SymbolId} {convenience : Option Convenience} {decl : TypeDecl}
      {members : List TypeTerm} {member : TypeTerm} {x : Value}
      (found : t.resolveId id Table.typeDefining = .found u)
      (kind : t.kindOf u = .union convenience) (own : t.isStored u = false)
      (declared : m.types.find? (·.name = (t.symbolAt u).name) = some decl)
      (body : decl.body = .union members) (mem : member ∈ members)
      (denotes : Denotes m t member x) : Denotes m t (.named id) x
  | element {elements : List EnumElement} {span : Span} {element : EnumElement} {x : Value}
      (mem : element ∈ elements) (has : element.Has t x) :
        Denotes m t (.enumeration elements span) x

/-! ## Resolved terms -/

theorem Table.resolveOrProblem_eq_ok {t : Table} {names : Interner} {id : QualifiedId}
    {filter : Symbol → Bool} {usage : Option String} {x : SymbolId} :
    t.resolveOrProblem names id filter usage = .ok x ↔ t.resolveId id filter = .found x := by
  unfold resolveOrProblem
  cases t.resolveId id filter with
  | found y => simp
  | ambiguous first second => simp
  | notFound =>
      refine iff_of_false (fun h => ?_) fun h => by cases h
      dsimp only at h
      split at h <;> cases h

namespace Scope

variable {scope : Scope} {x : Value}

theorem readElement_problems {r : Reading} {element : EnumElement}
    (h : (scope.readElement r element).problems = []) : r.problems = [] := by
  have hfail : ∀ location problem, (r.fail location problem).problems ≠ [] := by
    intro location problem h
    simp [Reading.fail] at h
  cases element with
  | constant id =>
      simp only [readElement] at h
      split at h
      · exact absurd h (hfail _ _)
      · split at h
        · exact h
        · exact h
        · exact absurd h (hfail _ _)
  | literal literal span => cases literal <;> exact h
  | range low high span =>
      simp only [readElement] at h
      split at h
      · exact h
      · exact absurd h (hfail _ _)

/-- An element that is read without problems adds its values. -/
theorem has_readElement {r : Reading} {element : EnumElement}
    (h : (scope.readElement r element).problems = []) :
    scope.table.Has (scope.readElement r element).values x ↔
      scope.table.Has r.values x ∨ element.Has scope.table x := by
  have hfail : ∀ location problem, (r.fail location problem).problems ≠ [] := by
    intro location problem h
    simp [Reading.fail] at h
  cases element with
  | constant id =>
      simp only [readElement] at h ⊢
      split at h
      · exact absurd h (hfail _ _)
      · next c hc =>
          have hfound := Table.resolveOrProblem_eq_ok.1 hc
          have hadd : scope.table.Has (r.values.addConstant c) x ↔
              scope.table.Has r.values x ∨ (EnumElement.constant id).Has scope.table x := by
            rw [Table.has_addConstant]
            refine or_congr_right ⟨?_, fun h => ?_⟩
            · rintro rfl
              exact .constant hfound
            · cases h with
              | constant hfound' =>
                  cases hfound.symm.trans hfound'
                  rfl
          -- only constants are read without problems
          split at h
          · simp only [*]
          · simp only [*]
          · exact absurd h (hfail _ _)
  | literal literal span =>
      cases literal with
      | integer n =>
          change scope.table.Has (r.values.addRange n n) x ↔ _
          rw [Table.has_addRange]
          refine or_congr_right ⟨?_, fun h => ?_⟩
          · rintro ⟨k, rfl, hlow, hhigh⟩
            obtain rfl := Int.le_antisymm hhigh hlow
            exact .integer _ _
          · cases h
            exact ⟨n, rfl, Int.le_refl n, Int.le_refl n⟩
      | string value =>
          change scope.table.Has (r.values.addString value) x ↔ _
          rw [Table.has_addString]
          refine or_congr_right ⟨?_, fun h => ?_⟩
          · rintro rfl
            exact .string _ _
          · cases h
            rfl
  | range low high span =>
      simp only [readElement] at h ⊢
      split at h
      · next hle =>
          simp only [if_pos hle, Table.has_addRange]
          refine or_congr_right ⟨?_, fun h => ?_⟩
          · rintro ⟨n, rfl, hlow, hhigh⟩
            exact .range hlow hhigh
          · cases h with
            | range hlow hhigh => exact ⟨_, rfl, hlow, hhigh⟩
      · exact absurd h (hfail _ _)

theorem has_foldl_readElement {elements : List EnumElement} {r : Reading}
    (h : (elements.foldl scope.readElement r).problems = []) :
    r.problems = [] ∧ (scope.table.Has (elements.foldl scope.readElement r).values x ↔
      scope.table.Has r.values x ∨ ∃ element ∈ elements, element.Has scope.table x) := by
  induction elements generalizing r with
  | nil => exact ⟨h, by simp⟩
  | cons element rest ih =>
      obtain ⟨hproblems, hrest⟩ := ih h
      refine ⟨readElement_problems hproblems, hrest.trans ?_⟩
      rw [has_readElement hproblems, or_assoc]
      simp only [List.mem_cons, exists_eq_or_imp]

/-- A type that is named without problems is one symbol. -/
theorem resolveType_cases {id : QualifiedId} (h : (scope.resolveType id).problems = []) :
    ∃ y, scope.table.resolveId id Table.typeDefining = .found y ∧
      (scope.resolveType id).members = [scope.memberOf y] ∧ (scope.resolveType id).refs = [y] := by
  unfold resolveType at h ⊢
  cases hresolve : scope.table.resolveOrProblem scope.names id Table.typeDefining
      (some "a type") with
  | ok y => exact ⟨y, Table.resolveOrProblem_eq_ok.1 hresolve, rfl, rfl⟩
  | error problem =>
      rw [hresolve] at h
      cases h

/-- The terms of a position contribute one after the other. -/
theorem resolvePosition_eq (scope : Scope) (terms : List TypeTerm) :
    (scope.resolvePosition terms).members =
        terms.flatMap (fun term => (scope.resolveTerm term).members) ∧
      (scope.resolvePosition terms).refs =
        terms.flatMap (fun term => (scope.resolveTerm term).refs) ∧
      (scope.resolvePosition terms).problems =
        terms.flatMap (fun term => (scope.resolveTerm term).problems) := by
  have hall : ∀ (terms : List TypeTerm) (p : Position),
      (terms.foldl (fun p term => p.append (scope.resolveTerm term)) p).members =
          p.members ++ terms.flatMap (fun term => (scope.resolveTerm term).members) ∧
        (terms.foldl (fun p term => p.append (scope.resolveTerm term)) p).refs =
          p.refs ++ terms.flatMap (fun term => (scope.resolveTerm term).refs) ∧
        (terms.foldl (fun p term => p.append (scope.resolveTerm term)) p).problems =
          p.problems ++ terms.flatMap (fun term => (scope.resolveTerm term).problems) := by
    intro terms
    induction terms with
    | nil => intro p; simp
    | cons term rest ih =>
        intro p
        obtain ⟨hmembers, hrefs, hproblems⟩ := ih (p.append (scope.resolveTerm term))
        rw [List.foldl_cons, hmembers, hrefs, hproblems]
        simp only [Position.append, List.flatMap_cons, List.append_assoc, and_self]
  exact hall terms ∅

end Scope

/-! ## Opening unions yields what they denote -/

/-- The position has no problems, and the unions that it refers to stand. -/
structure Position.Stands (t : Table) (stands : SymbolId → Prop) (p : Position) : Prop where
  ok : p.problems = []
  refs : ∀ u ∈ p.refs, (t.kindOf u).isUnion = true → stands u

/-- Every term of a position that stands does so by itself. -/
theorem Position.Stands.term {t : Table} {stands : SymbolId → Prop} {scope : Scope}
    {terms : List TypeTerm} {term : TypeTerm}
    (h : (scope.resolvePosition terms).Stands t stands) (hterm : term ∈ terms) :
    (scope.resolveTerm term).Stands t stands where
  ok := by
    have hproblems := h.ok
    rw [(scope.resolvePosition_eq terms).2.2, List.flatMap_eq_nil_iff] at hproblems
    exact hproblems term hterm
  refs u hu := by
    refine h.refs u ?_
    rw [(scope.resolvePosition_eq terms).2.1]
    exact List.mem_flatMap.2 ⟨term, hterm, hu⟩

/-- The unions that are to be opened are the unions of the module that stand, each with the members
of its declaration. -/
structure Opens (m : Module) (t : Table) (stands : SymbolId → Prop) (unions : UnionMembers) :
    Prop where
  own : ∀ {u}, (t.kindOf u).isUnion = true → t.isStored u = false → stands u →
    ∃ decl members, ∃ scope : Scope, m.types.find? (·.name = (t.symbolAt u).name) = some decl ∧
      decl.body = .union members ∧ scope.table = t ∧
      unions.find? u = some (u, (scope.resolvePosition members).members) ∧
      (scope.resolvePosition members).Stands t stands
  stored : ∀ {u}, t.isStored u = true → unions.find? u = none

section

variable {names : Interner} {m : Module} {t : Table} {stands : SymbolId → Prop}
  {unions : UnionMembers}

/-- A member of a term is a union only if the term names it. -/
theorem named_of_union_mem {scope : Scope} {term : TypeTerm} {u : SymbolId}
    (hok : (scope.resolveTerm term).problems = [])
    (hu : .union u ∈ (scope.resolveTerm term).members) :
    (∃ id, term = .named id ∧ scope.table.resolveId id Table.typeDefining = .found u) ∧
      u ∈ (scope.resolveTerm term).refs ∧ (scope.table.kindOf u).isUnion = true := by
  cases term with
  | enumeration elements span =>
      change Member.union u ∈ [Member.values _] at hu
      cases List.mem_singleton.1 hu
  | named id =>
      obtain ⟨y, hfound, hmembers, hrefs⟩ := Scope.resolveType_cases hok
      change Member.union u ∈ (scope.resolveType id).members at hu
      change _ ∧ u ∈ (scope.resolveType id).refs ∧ _
      rw [hmembers, List.mem_singleton] at hu
      rw [hrefs, List.mem_singleton]
      unfold Scope.memberOf at hu
      split at hu
      · cases hu
      · next hkind =>
          cases hu
          exact ⟨⟨id, rfl, hfound⟩, rfl, by rw [hkind]; rfl⟩
      · cases hu
      · cases hu

/-- What is found by opening unions is denoted.  The induction is on how a value is found, so every
union that is opened on the way is accounted for by its members. -/
theorem Opens.denotes (h : Opens m t stands unions) (ht : t.Regular names) {member : Member}
    {x : Value} (hyields : Yields t (t.knownUnion unions) unions member x) :
    ∀ (scope : Scope) (term : TypeTerm), scope.table = t →
      (scope.resolveTerm term).Stands t stands → member ∈ (scope.resolveTerm term).members →
      Denotes m t term x := by
  induction hyields with
  | @values values x hx =>
      -- a member that is no union: an enumeration or a name
      intro scope term hscope hstands hmember
      subst hscope
      cases term with
      | enumeration elements span =>
          cases List.mem_singleton.1 hmember
          obtain ⟨-, hiff⟩ := Scope.has_foldl_readElement (x := x) hstands.ok
          obtain hempty | ⟨element, hmem, hhas⟩ := hiff.1 hx
          · exact absurd hempty Table.not_has_empty
          · exact .element hmem hhas
      | named id =>
          obtain ⟨y, hfound, hmembers, -⟩ := Scope.resolveType_cases hstands.ok
          change Member.values values ∈ (scope.resolveType id).members at hmember
          rw [hmembers, List.mem_singleton] at hmember
          unfold Scope.memberOf at hmember
          split at hmember
          · next hkind =>
              cases hmember
              exact .base hfound hkind (Table.has_baseSort.1 hx)
          · cases hmember
          · next hkind =>
              cases hmember
              obtain hempty | ⟨d, rfl, hd⟩ := Table.has_addSort.1 hx
              · exact absurd hempty Table.not_has_empty
              · cases (ht.families.dataOf?_sort hkind).symm.trans hd
                exact .data hfound hkind
          · cases hmember
            exact absurd hx Table.not_has_empty
  | @known u x hfind hx =>
      -- a union that is not opened is stored, so the term denotes what its form accepts
      intro scope term hscope hstands hmember
      subst hscope
      obtain ⟨⟨id, rfl, hfound⟩, href, hunion⟩ := named_of_union_mem hstands.ok hmember
      cases hstored : scope.table.isStored u with
      | false =>
          obtain ⟨_, _, _, _, _, _, hsome, _⟩ := h.own hunion hstored (hstands.refs u href hunion)
          cases hfind.symm.trans hsome
      | true =>
          rw [Table.knownUnion_of_none hfind] at hx
          cases hform : (scope.table.symbolAt u).accepted? 0 with
          | none =>
              rw [hform] at hx
              exact absurd hx Table.not_has_empty
          | some values =>
              rw [hform] at hx
              cases hkind : scope.table.kindOf u with
              | union convenience =>
                  exact .stored hfound hkind hstored hform (Table.accepts_iff.2 hx)
              | _ =>
                  rw [hkind] at hunion
                  cases hunion
  | @opened u entry member x hfind hmem _ ih =>
      -- a union that is opened is declared here, and its members are those of its declaration
      intro scope term hscope hstands hmember
      subst hscope
      obtain ⟨⟨id, rfl, hfound⟩, href, hunion⟩ := named_of_union_mem hstands.ok hmember
      have hown : scope.table.isStored u = false := by
        rw [← Bool.not_eq_true]
        intro hstored
        cases (h.stored hstored).symm.trans hfind
      obtain ⟨decl, members, scope', hdecl, hbody, hscope', hsome, hstands'⟩ :=
        h.own hunion hown (hstands.refs u href hunion)
      cases hfind.symm.trans hsome
      rw [(scope'.resolvePosition_eq members).1] at hmem
      obtain ⟨term, hterm, hmem⟩ := List.mem_flatMap.1 hmem
      cases hkind : scope.table.kindOf u with
      | union convenience =>
          exact .own hfound hkind hown hdecl hbody hterm
            (ih scope' term hscope' (hstands'.term hterm) hmem)
      | _ =>
          rw [hkind] at hunion
          cases hunion

theorem resolveType_of_found {scope : Scope} {id : QualifiedId} {y : SymbolId}
    (hfound : scope.table.resolveId id Table.typeDefining = .found y) :
    (scope.resolveTerm (.named id)).members = [scope.memberOf y] ∧
      (scope.resolveTerm (.named id)).refs = [y] := by
  have hok : scope.table.resolveOrProblem scope.names id Table.typeDefining (some "a type") =
      .ok y := Table.resolveOrProblem_eq_ok.2 hfound
  change (scope.resolveType id).members = _ ∧ (scope.resolveType id).refs = _
  rw [Scope.resolveType, hok]
  exact ⟨rfl, rfl⟩

/-- What a term denotes is found by opening unions. -/
theorem Opens.yields (h : Opens m t stands unions) (ht : t.Regular names) {term : TypeTerm}
    {x : Value} (hdenotes : Denotes m t term x) :
    ∀ scope : Scope, scope.table = t → (scope.resolveTerm term).Stands t stands →
      ∃ member ∈ (scope.resolveTerm term).members,
        Yields t (t.knownUnion unions) unions member x := by
  induction hdenotes with
  | @base id b base x hfound hkind hx =>
      intro scope hscope _
      subst hscope
      refine ⟨scope.memberOf b, ?_, ?_⟩
      · rw [(resolveType_of_found hfound).1]
        exact List.mem_cons_self
      · rw [Scope.memberOf, hkind]
        exact .values (Table.has_baseSort.2 hx)
  | @data id d shape info hfound hkind =>
      intro scope hscope _
      subst hscope
      refine ⟨scope.memberOf d, ?_, ?_⟩
      · rw [(resolveType_of_found hfound).1]
        exact List.mem_cons_self
      · rw [Scope.memberOf, hkind]
        exact .values (Table.has_addSort.2 (.inr ⟨d, rfl, ht.families.dataOf?_sort hkind⟩))
  | @stored id u convenience values x hfound hkind hstored hform hx =>
      intro scope hscope _
      subst hscope
      refine ⟨scope.memberOf u, ?_, ?_⟩
      · rw [(resolveType_of_found hfound).1]
        exact List.mem_cons_self
      · have hnone := h.stored hstored
        rw [Scope.memberOf, hkind]
        refine .known hnone ?_
        rw [Table.knownUnion_of_none hnone, hform]
        exact Table.accepts_iff.1 hx
  | @own id u convenience decl members member x hfound hkind hown hdecl hbody hmem _ ih =>
      -- the union is opened, and what its member denotes is found below it
      intro scope hscope hstands
      subst hscope
      obtain ⟨hmembers, hrefs⟩ := resolveType_of_found hfound
      have hunion : (scope.table.kindOf u).isUnion = true := by rw [hkind]; rfl
      have hu : stands u := hstands.refs u (by rw [hrefs]; exact List.mem_cons_self) hunion
      obtain ⟨decl', members', scope', hdecl', hbody', hscope', hfind, hstands'⟩ :=
        h.own hunion hown hu
      cases hdecl.symm.trans hdecl'
      cases hbody.symm.trans hbody'
      obtain ⟨found, hfound', hyields⟩ := ih scope' hscope' (hstands'.term hmem)
      refine ⟨scope.memberOf u, ?_, ?_⟩
      · rw [hmembers]
        exact List.mem_cons_self
      · rw [Scope.memberOf, hkind]
        refine .opened hfind ?_ hyields
        rw [(scope'.resolvePosition_eq members).1]
        exact List.mem_flatMap.2 ⟨member, hmem, hfound'⟩
  | @element elements span element x hmem hx =>
      intro scope hscope hstands
      subst hscope
      refine ⟨.values (elements.foldl scope.readElement {}).values, List.mem_cons_self, .values ?_⟩
      exact (Scope.has_foldl_readElement hstands.ok).2.2 (.inr ⟨element, hmem, hx⟩)

/-- What a position accepts is what its terms denote. -/
theorem Opens.has_acceptedAt (h : Opens m t stands unions) (ht : t.Regular names) {scope : Scope}
    (hscope : scope.table = t) {terms : List TypeTerm}
    (hstands : (scope.resolvePosition terms).Stands t stands) {x : Value} :
    t.Has (t.acceptedAt unions (scope.resolvePosition terms)) x ↔
      ∃ term ∈ terms, Denotes m t term x := by
  rw [Table.acceptedAt, has_flatten]
  · rw [or_iff_right Table.not_has_empty, (scope.resolvePosition_eq terms).1]
    constructor
    · rintro ⟨member, hmember, hyields⟩
      obtain ⟨term, hterm, hmember⟩ := List.mem_flatMap.1 hmember
      exact ⟨term, hterm, h.denotes ht hyields scope term hscope (hstands.term hterm) hmember⟩
    · rintro ⟨term, hterm, hdenotes⟩
      obtain ⟨member, hmember, hyields⟩ := h.yields ht hdenotes scope hscope (hstands.term hterm)
      exact ⟨member, List.mem_flatMap.2 ⟨term, hterm, hmember⟩, hyields⟩
  · intro u entry hfind
    rw [Table.knownUnion_of_some hfind]
    exact Table.not_has_empty

/-! ## Tables that are alike -/

theorem BaseSort.Has.alike {t' : Table} (halike : t.Alike t') {b : BaseSort} {x : Value}
    (h : b.Has t x) : b.Has t' x := by
  rw [← Table.has_baseSort] at h ⊢
  exact halike.has.2 h

theorem EnumElement.Has.alike {t' : Table} (halike : t.Alike t') {element : EnumElement}
    {x : Value} (h : element.Has t x) : element.Has t' x := by
  cases h with
  | constant hfound => exact .constant ((halike.resolveId_any _).trans hfound)
  | integer n span => exact .integer n span
  | string value span => exact .string value span
  | range hlow hhigh => exact .range hlow hhigh

namespace Table

theorem Alike.kindOf_baseSort {t' : Table} (h : t.Alike t') {x : SymbolId} {b : BaseSort}
    (hx : t.kindOf x = .baseSort b) : t'.kindOf x = .baseSort b := by
  rw [h.kindOf, hx]
  rintro ⟨_, hsort⟩
  rw [hx] at hsort
  cases hsort

theorem Alike.kindOf_union {t' : Table} (h : t.Alike t') {x : SymbolId}
    {convenience : Option Convenience} (hx : t.kindOf x = .union convenience) :
    t'.kindOf x = .union convenience := by
  rw [h.kindOf, hx]
  rintro ⟨_, hsort⟩
  rw [hx] at hsort
  cases hsort

theorem Alike.isStored {t' : Table} (h : t.Alike t') (u : SymbolId) :
    t'.isStored u = t.isStored u := by
  rw [Table.isStored, Table.isStored, Symbol.isImported, Symbol.isImported, h.origin,
    ← convenience?_unsized, h.unsized, convenience?_unsized]

end Table

/-- Terms denote the same in tables that are alike and agree on the forms of stored unions. -/
theorem Denotes.alike {t' : Table} (halike : t.Alike t')
    (hforms : ∀ u, t.isStored u = true → (t'.symbolAt u).canonical = (t.symbolAt u).canonical)
    {term : TypeTerm} {x : Value} (h : Denotes m t term x) : Denotes m t' term x := by
  induction h with
  | base hfound hkind hx =>
      exact .base ((halike.resolveId_type _).trans hfound) (halike.kindOf_baseSort hkind)
        (hx.alike halike)
  | data hfound hkind =>
      exact .data ((halike.resolveId_type _).trans hfound) (halike.kindOf_data.2 hkind)
  | @stored id u convenience values x hfound hkind hstored hform hx =>
      refine .stored ((halike.resolveId_type _).trans hfound) (halike.kindOf_union hkind)
        ((halike.isStored u).trans hstored) ?_
        (Table.accepts_iff.2 (halike.has.2 (Table.accepts_iff.1 hx)))
      rw [Symbol.accepted?, hforms u hstored]
      exact hform
  | @own id u convenience decl members member x hfound hkind hown hdecl hbody hmem _ ih =>
      refine .own ((halike.resolveId_type _).trans hfound) (halike.kindOf_union hkind)
        ((halike.isStored u).trans hown) ?_ hbody hmem ih
      rw [halike.name]
      exact hdecl
  | element hmem hx => exact .element hmem (hx.alike halike)

end

end ManySorted
