import ManySorted.Proofs.Accepted.Parts
import ManySorted.Proofs.Declaration.Denotation
import ManySorted.Proofs.Echo.Basic
import ManySorted.Proofs.Syntax

/-!
# Positions in terms of counterparts

Where the identifiers of a position name counterparts, the position resolves to the same members
with the symbols renamed, and its problems are the same (`Scope.Echoes.resolvePosition`).

## Strategy

* **Single symbols.**  A symbol contributes to a position what its counterpart does, up to the
  renaming (`Scope.memberOf_rename`).
* **Terms.**  Reading elements of an enumeration adds literals and constants one by one, and
  renaming commutes with adding (`AcceptedValues.rename_addConstant`).
* **Positions.**  They are resolved term by term (`Scope.Echoes.resolvePosition`), and what they
  refer to is what identifiers found, so it has counterparts (`Scope.Echoes.refs_resolvePosition`).
-/

namespace ManySorted

namespace AcceptedValues

variable {f : SymbolId → SymbolId} {v : AcceptedValues}

theorem rename_addConstant (f : SymbolId → SymbolId) (v : AcceptedValues) (c : SymbolId) :
    (v.addConstant c).rename f = (v.rename f).addConstant (f c) := by
  have hconstants : ((v.addConstant c).rename f).constants =
      ((v.rename f).addConstant (f c)).constants := by
    refine OrderedSet.ext (OrderedSet.sorted_ofList _) ((OrderedSet.sorted_ofList _).insert _) ?_
    rintro (value | d)
    · simp [rename, addConstant]
    · simp only [rename, symbol_mem_constants_mapIds, addConstant, OrderedSet.mem_insert,
        ConstantValue.symbol.injEq, Option.some.injEq, or_and_right, exists_or, exists_eq_left]
      exact or_congr_left eq_comm
  exact congrArg (fun constants => { (v.rename f) with constants }) hconstants

theorem rename_addString (f : SymbolId → SymbolId) (v : AcceptedValues) (value : Name) :
    (v.addString value).rename f = (v.rename f).addString value := by
  have hconstants : ((v.addString value).rename f).constants =
      ((v.rename f).addString value).constants := by
    refine OrderedSet.ext (OrderedSet.sorted_ofList _) ((OrderedSet.sorted_ofList _).insert _) ?_
    rintro (other | d)
    · simp [rename, addString]
    · simp [rename, addString]
  exact congrArg (fun constants => { (v.rename f) with constants }) hconstants

theorem rename_addRange (f : SymbolId → SymbolId) (v : AcceptedValues) (low high : Int) :
    (v.addRange low high).rename f = (v.rename f).addRange low high := by
  unfold addRange
  split
  · rfl
  · rfl

end AcceptedValues

/-- The member with its symbols renamed. -/
def Member.rename (f : SymbolId → SymbolId) : Member → Member
  | values v => values (v.rename f)
  | union u => union (f u)

/-- The position with its symbols renamed. -/
def Position.rename (f : SymbolId → SymbolId) (p : Position) : Position where
  members := p.members.map (Member.rename f)
  refs := p.refs.map f
  problems := p.problems

/-- What was read with its symbols renamed. -/
def Scope.Reading.rename (f : SymbolId → SymbolId) (r : Scope.Reading) : Scope.Reading where
  values := r.values.rename f
  refs := r.refs.map f
  problems := r.problems

theorem Position.rename_append (f : SymbolId → SymbolId) (p q : Position) :
    (p.append q).rename f = (p.rename f).append (q.rename f) := by
  simp only [rename, append, List.map_append]

namespace Scope

variable {scope scope' : Scope} {D : SymbolId → Prop} {f : SymbolId → SymbolId}
  {ids : QualifiedId → Prop} {id : QualifiedId}

/-- A constant of an enumeration is read if it names a constant. -/
theorem readElement_constant (scope : Scope) (r : Reading) (id : QualifiedId) :
    scope.readElement r (.constant id) =
      match scope.table.resolveOrProblem scope.names id Table.anySymbol none with
      | .error problem => r.fail ⟨scope.file, id.span⟩ problem
      | .ok x =>
          if (scope.table.kindOf x).isConstant then
            { r with values := r.values.addConstant x, refs := r.refs ++ [x] }
          else
            r.fail ⟨scope.file, id.span⟩
              (.badId (scope.names.join id.segments) "an enumeration constant") := by
  simp only [readElement]
  cases scope.table.resolveOrProblem scope.names id Table.anySymbol none with
  | error problem => rfl
  | ok x =>
      dsimp only
      cases scope.table.kindOf x <;> rfl

section

variable {P : SymbolId → Prop}
  (htype : ∀ {id x}, ids id → scope.table.resolveId id Table.typeDefining = .found x → P x)
  (hsymbol : ∀ {id x}, ids id → scope.table.resolveId id Table.anySymbol = .found x → P x)
include htype hsymbol

/-- A term refers to what its identifiers find. -/
theorem forall_refs_resolveTerm {term : TypeTerm} (hids : ∀ id ∈ term.ids, ids id) :
    ∀ x ∈ (scope.resolveTerm term).refs, P x := by
  cases term with
  | named id =>
      intro x hx
      change x ∈ (scope.resolveType id).refs at hx
      unfold Scope.resolveType at hx
      split at hx
      · next symbol hfound =>
          rw [List.mem_singleton.1 hx]
          exact htype (hids id List.mem_cons_self) (Table.resolveOrProblem_eq_ok.1 hfound)
      · exact absurd hx List.not_mem_nil
  | enumeration elements span =>
      refine List.foldlRecOn (motive := fun r : Reading => ∀ x ∈ r.refs, P x) elements _
        (fun x hx => absurd hx List.not_mem_nil) fun r hr element helement => ?_
      cases element with
      | literal literal span => cases literal <;> exact hr
      | range low high span =>
          simp only [Scope.readElement]
          split <;> exact hr
      | constant id =>
          have hid : ids id := hids id (List.mem_filterMap.2 ⟨_, helement, rfl⟩)
          simp only [Scope.readElement]
          split
          · exact hr
          · next symbol hfound =>
              have hsnoc : ∀ x ∈ r.refs ++ [symbol], P x := by
                intro x hx
                rcases List.mem_append.1 hx with hx | hx
                · exact hr x hx
                · rw [List.mem_singleton.1 hx]
                  exact hsymbol hid (Table.resolveOrProblem_eq_ok.1 hfound)
              split
              · exact hsnoc
              · exact hsnoc
              · exact hr

end

/-- A position refers to what its identifiers find. -/
theorem forall_refs_resolvePosition (scope : Scope) {P : SymbolId → Prop} {terms : List TypeTerm}
    (hids : ∀ term ∈ terms, ∀ id ∈ term.ids, ids id)
    (htype : ∀ {id x}, ids id → scope.table.resolveId id Table.typeDefining = .found x → P x)
    (hsymbol : ∀ {id x}, ids id → scope.table.resolveId id Table.anySymbol = .found x → P x) :
    ∀ x ∈ (scope.resolvePosition terms).refs, P x := by
  rw [(scope.resolvePosition_eq terms).2.1]
  intro x hx
  obtain ⟨term, hterm, hx⟩ := List.mem_flatMap.1 hx
  exact forall_refs_resolveTerm htype hsymbol (hids term hterm) x hx

/-- A symbol contributes to a position what its counterpart does, up to the renaming. -/
theorem memberOf_rename {x : SymbolId} (h : scope.table.Echoes scope'.table D f) (hx : D x) :
    scope'.memberOf (f x) = (scope.memberOf x).rename f := by
  have hkind := h.kind hx
  unfold Scope.memberOf
  cases hk : scope.table.kindOf x with
  | baseSort base =>
      rw [hk] at hkind
      rw [SymbolKind.relabel_eq_baseSort hkind]
      rfl
  | union convenience =>
      rw [h.kindOf_union hx hk]
      rfl
  | data shape info =>
      rw [h.kindOf_data hx hk]
      rfl
  | userConstant constant =>
      rw [hk] at hkind
      cases hkind' : scope'.table.kindOf (f x) with
      | userConstant constant' => rfl
      | _ =>
          rw [hkind'] at hkind
          cases constant <;> cases hkind
  | _ =>
      rw [hk] at hkind
      cases hkind' : scope'.table.kindOf (f x) with
      | baseSort => rw [hkind'] at hkind; cases hkind
      | union => rw [hkind'] at hkind; cases hkind
      | data => rw [hkind'] at hkind; cases hkind
      | _ => rfl

/-- An identifier names a symbol and its counterpart, or has the same problem. -/
structure Concurs (scope scope' : Scope) (D : SymbolId → Prop) (f : SymbolId → SymbolId)
    (id : QualifiedId) (filter : Symbol → Bool) (usage : Option String) : Prop where
  same : scope'.table.resolveOrProblem scope'.names id filter usage =
    (scope.table.resolveOrProblem scope.names id filter usage).map f
  inside : ∀ {x}, scope.table.resolveOrProblem scope.names id filter usage = .ok x → D x

/-- Two scopes in which the given identifiers are read alike. -/
structure Echoes (scope scope' : Scope) (D : SymbolId → Prop) (f : SymbolId → SymbolId)
    (ids : QualifiedId → Prop) : Prop where
  table : scope.table.Echoes scope'.table D f
  file_eq : scope'.file = scope.file
  owner_eq : scope'.owner = scope.owner
  type : ∀ {id}, ids id → scope.Concurs scope' D f id Table.typeDefining (some "a type")
  constant : ∀ {id}, ids id → scope.Concurs scope' D f id Table.anySymbol none
  join_eq : ∀ {id}, ids id → scope'.names.join id.segments = scope.names.join id.segments

section

variable (h : scope.Echoes scope' D f ids)
include h

theorem Echoes.resolveType (hid : ids id) :
    scope'.resolveType id = (scope.resolveType id).rename f := by
  have htype := h.type hid
  unfold Scope.resolveType
  rw [htype.same]
  cases hx : scope.table.resolveOrProblem scope.names id Table.typeDefining (some "a type") with
  | ok x =>
      simp only [Except.map, memberOf_rename h.table (htype.inside hx), Position.rename, List.map]
  | error problem => simp only [Except.map, Position.rename, List.map, h.file_eq]

theorem Echoes.readElement {element : EnumElement} (hids : ∀ id, element.id? = some id → ids id)
    (r : Reading) :
    scope'.readElement (r.rename f) element = (scope.readElement r element).rename f := by
  cases element with
  | literal literal span =>
      cases literal with
      | integer value =>
          simp only [Scope.readElement, Reading.rename, AcceptedValues.addInteger,
            AcceptedValues.rename_addRange]
      | string value =>
          simp only [Scope.readElement, Reading.rename, AcceptedValues.rename_addString]
  | range low high span =>
      simp only [Scope.readElement]
      split
      · simp only [Reading.rename, AcceptedValues.rename_addRange]
      · simp only [Reading.rename, Reading.fail, h.file_eq, h.owner_eq]
  | constant id =>
      have hid := hids id rfl
      have hconstant := h.constant hid
      rw [readElement_constant, readElement_constant, hconstant.same]
      cases hx : scope.table.resolveOrProblem scope.names id Table.anySymbol none with
      | error problem => simp only [Except.map, Reading.rename, Reading.fail, h.file_eq]
      | ok x =>
          simp only [Except.map]
          rw [h.table.isConstant (hconstant.inside hx)]
          split
          · simp only [Reading.rename, AcceptedValues.rename_addConstant, List.map_append,
              List.map_cons, List.map_nil]
          · simp only [Reading.rename, Reading.fail, h.file_eq, h.join_eq hid]

theorem Echoes.resolveTerm {term : TypeTerm} (hids : ∀ id ∈ term.ids, ids id) :
    scope'.resolveTerm term = (scope.resolveTerm term).rename f := by
  cases term with
  | named id => exact h.resolveType (hids id List.mem_cons_self)
  | enumeration elements span =>
      have hread : ∀ (elements : List EnumElement) (r : Reading),
          (∀ id ∈ elements.filterMap EnumElement.id?, ids id) →
          elements.foldl scope'.readElement (r.rename f) =
            (elements.foldl scope.readElement r).rename f := by
        intro elements
        induction elements with
        | nil => exact fun _ _ => rfl
        | cons element rest ih =>
            intro r hids
            rw [List.foldl_cons, List.foldl_cons, h.readElement fun id hid => ?_, ih]
            · exact fun id hid => hids id (by
                rw [List.filterMap_cons]
                split
                · exact hid
                · exact List.mem_cons_of_mem _ hid)
            · exact hids id (List.mem_filterMap.2 ⟨element, List.mem_cons_self, hid⟩)
      have hstart : ({} : Reading).rename f = {} := rfl
      have hall := hread elements {} hids
      rw [hstart] at hall
      simp only [Scope.resolveTerm, hall]
      rfl

/-- Positions resolve to the same members with the symbols renamed, and have the same problems. -/
theorem Echoes.resolvePosition {terms : List TypeTerm}
    (hids : ∀ term ∈ terms, ∀ id ∈ term.ids, ids id) :
    scope'.resolvePosition terms = (scope.resolvePosition terms).rename f := by
  have hfold : ∀ (terms : List TypeTerm) (p : Position),
      (∀ term ∈ terms, ∀ id ∈ term.ids, ids id) →
      terms.foldl (fun p term => p.append (scope'.resolveTerm term)) (p.rename f) =
        (terms.foldl (fun p term => p.append (scope.resolveTerm term)) p).rename f := by
    intro terms
    induction terms with
    | nil => exact fun _ _ => rfl
    | cons term rest ih =>
        intro p hids
        rw [List.foldl_cons, List.foldl_cons, h.resolveTerm (hids term List.mem_cons_self),
          ← Position.rename_append, ih _ fun term hterm => hids term (List.mem_cons_of_mem _ hterm)]
  exact hfold terms ∅ hids

/-- What a position refers to has a counterpart. -/
theorem Echoes.refs_resolvePosition {terms : List TypeTerm}
    (hids : ∀ term ∈ terms, ∀ id ∈ term.ids, ids id) :
    ∀ x ∈ (scope.resolvePosition terms).refs, D x :=
  scope.forall_refs_resolvePosition hids
    (fun hid hfound => (h.type hid).inside (Table.resolveOrProblem_eq_ok.2 hfound))
    fun hid hfound => (h.constant hid).inside (Table.resolveOrProblem_eq_ok.2 hfound)

end

end Scope

end ManySorted
