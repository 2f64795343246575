import ManySorted.Proofs.Coercion.Caching

/-!
# Nested coercion queries on a stack

A query that is being decided waits for the answers to its nested queries.  If the waiting queries
are kept on a stack, deciding a query is a loop (`Table.coercionStep`) whose states show what the
recursion does: how deep queries are nested, which of them are pending and which symbols were
compared.

Every step keeps the stack in order (`Table.Underway.step`).  Its queries are about distinct symbols
between the same two namespaces, and just these queries are pending.  So no more of them are nested
than there are symbols (`Table.Underway.length_le`).  A symbol whose comparison has begun stays
known until a fault ends the run, and what is known is not compared, so no symbol is compared twice.

## Strategy

* **Nested queries.**  Whether a symbol can be used as its counterpart depends on a list of nested
  queries with the answers that are expected of them (`Table.demanded?`), so deciding is asking
  these one after the other (`Table.decideWith_eq_askAll`).
* **Order.**  The invariant says which queries are on the stack, pending and compared
  (`Table.Underway`).  It holds at the start (`Table.underway_start`), and there is one lemma for
  each thing that a step can do: a query is put on the stack (`Table.Underway.pushed`), decided
  (`Table.Underway.close`) or taken back (`Table.Underway.taken_back`).
* **Bounds.**  Queries between the same namespaces differ in their symbols
  (`Table.Underway.nodup_symbols`), and so do the symbols that were compared.
-/

namespace ManySorted

/-! ## What a comparison asks -/

/-- What is expected of the answer to a nested query. -/
inductive Expectation where
  /-- The counterpart is the given symbol. -/
  | exactly (symbol : SymbolId)
  /-- The counterpart is accepted by the given values. -/
  | among (values : AcceptedValues)

def Expectation.meets : Expectation → Coercibility → Bool
  | exactly symbol, answer => answer.coercible && answer.target == some symbol
  | among values, ⟨true, some mapped⟩ =>
      values.sorts.contains mapped || values.acceptsConstant (.symbol mapped) false
  | among _, _ => false

namespace Table

variable {t : Table} {recur : SymbolId → CoerceM Coercibility} {x y : SymbolId}

/-- The nested queries on which it depends whether `y` accepts all that `x` does.  There are none if
it does not anyway. -/
def comparison? (t : Table) (x y : SymbolId) : Option (List (SymbolId × Expectation)) :=
  match t.kindOf x, t.kindOf y with
  | .userConstant (.type sort), .userConstant (.type expected) => some [(sort, .exactly expected)]
  | .userConstant (.type _), _ => none
  | _, _ =>
      match (t.symbolAt x).canonical, (t.symbolAt y).canonical with
      | some src, some dst =>
          let pairs := src.positions.zip dst.positions
          if src.size = dst.size ∧ pairs.all (fun (s, d) => t.acceptsDirectly s d) then
            let nested := pairs.flatMap fun (s, d) => (t.nestedSymbols s).map (·, d)
            some (nested.map fun (x, d) => (x, .among d))
          else none
      | _, _ => none

/-- The nested queries on which it depends whether a symbol can be used as its counterpart. -/
def demanded? (t : Table) (x : SymbolId) : Option SymbolId → Option (List (SymbolId × Expectation))
  | none => none
  | some y => if y = x then some [] else t.comparison? x y

/-- Asks nested queries one after the other, until an answer is not as expected. -/
def askAll (recur : SymbolId → CoerceM Coercibility) (queries : List (SymbolId × Expectation)) :
    CoerceM Bool :=
  queries.allM fun (nested, expectation) => do return expectation.meets (← recur nested)

theorem askAll_cons (nested : SymbolId) (expectation : Expectation)
    (queries : List (SymbolId × Expectation)) :
    askAll recur ((nested, expectation) :: queries) = do
      let answer ← recur nested
      if expectation.meets answer then askAll recur queries else return false := by
  unfold askAll
  rw [List.allM, bind_assoc]
  congr
  funext answer
  rw [pure_bind]
  cases expectation.meets answer <;> rfl

theorem acceptsNested_eq (nested : SymbolId) (dst : AcceptedValues) :
    acceptsNested recur nested dst =
      (do return (Expectation.among dst).meets (← recur nested) : CoerceM Bool) := by
  unfold acceptsNested
  congr
  funext answer
  match answer with
  | ⟨true, some _⟩ | ⟨true, none⟩ | ⟨false, _⟩ => rfl

theorem allM_acceptsNested (nested : List (SymbolId × AcceptedValues)) :
    (nested.allM fun (x, dst) => acceptsNested recur x dst) =
      askAll recur (nested.map fun (x, dst) => (x, .among dst)) := by
  induction nested with
  | nil => rfl
  | cons pair rest ih =>
      obtain ⟨x, dst⟩ := pair
      rw [List.map_cons, askAll_cons, ← ih, List.allM]
      dsimp only
      rw [acceptsNested_eq, bind_assoc]
      congr
      funext answer
      rw [pure_bind]
      cases (Expectation.among dst).meets answer <;> rfl

theorem comparison?_type {sort expected : SymbolId} (hx : t.kindOf x = .userConstant (.type sort))
    (hy : t.kindOf y = .userConstant (.type expected)) :
    t.comparison? x y = some [(sort, .exactly expected)] := by
  rw [comparison?, hx, hy]

theorem comparison?_misfit {sort : SymbolId} (hx : t.kindOf x = .userConstant (.type sort))
    (hy : ∀ expected, t.kindOf y ≠ .userConstant (.type expected)) :
    t.comparison? x y = none := by
  unfold comparison?
  split
  · next expected _ hkind => exact absurd hkind (hy expected)
  · rfl
  · next hother _ => exact absurd hx (hother sort)

theorem comparison?_form (hx : ∀ sort, t.kindOf x ≠ .userConstant (.type sort)) :
    t.comparison? x y =
      match (t.symbolAt x).canonical, (t.symbolAt y).canonical with
      | some src, some dst =>
          let pairs := src.positions.zip dst.positions
          if src.size = dst.size ∧ pairs.all (fun (s, d) => t.acceptsDirectly s d) then
            let nested := pairs.flatMap fun (s, d) => (t.nestedSymbols s).map (·, d)
            some (nested.map fun (x, d) => (x, .among d))
          else none
      | _, _ => none := by
  unfold comparison?
  split
  · next hkind _ => exact absurd hkind (hx _)
  · next hkind _ => exact absurd hkind (hx _)
  · rfl

/-- Comparing two symbols is asking the nested queries. -/
theorem compareSymbols_eq_askAll (x y : SymbolId) :
    t.compareSymbols recur x y =
      match t.comparison? x y with
      | none => pure false
      | some queries => askAll recur queries := by
  by_cases hx : ∃ sort, t.kindOf x = .userConstant (.type sort)
  · obtain ⟨sort, hx⟩ := hx
    by_cases hy : ∃ expected, t.kindOf y = .userConstant (.type expected)
    · obtain ⟨expected, hy⟩ := hy
      rw [compareSymbols_type hx hy, comparison?_type hx hy]
      dsimp only
      rw [askAll_cons]
      congr
      funext answer
      cases hmeets : (Expectation.exactly expected).meets answer <;> exact congrArg pure hmeets
    · rw [compareSymbols_misfit hx fun expected hkind => hy ⟨expected, hkind⟩,
        comparison?_misfit hx fun expected hkind => hy ⟨expected, hkind⟩]
  · have hx : ∀ sort, t.kindOf x ≠ .userConstant (.type sort) := fun sort hkind => hx ⟨sort, hkind⟩
    rw [compareSymbols_form hx, comparison?_form hx]
    cases (t.symbolAt x).canonical with
    | none => rfl
    | some src =>
        cases (t.symbolAt y).canonical with
        | none => rfl
        | some dst =>
            dsimp only
            split
            · exact allM_acceptsNested _
            · rfl

/-- Deciding a query is asking the nested queries. -/
theorem decideWith_eq_askAll (source target : NamespaceId) (x : SymbolId) :
    t.decideWith recur source target x =
      match t.demanded? x (t.counterpart? source target x) with
      | none => pure false
      | some queries => askAll recur queries := by
  unfold decideWith demanded?
  cases t.counterpart? source target x with
  | none => rfl
  | some y =>
      dsimp only
      split
      · rfl
      · exact compareSymbols_eq_askAll x y

end Table

/-! ## The stack -/

/-- A query that is being decided. -/
structure CoercionFrame where
  key : CoercionKey
  /-- The counterpart of its symbol. -/
  found : Option SymbolId
  /-- The nested queries that are left.  The first of them is the one whose answer is awaited, if
  any is. -/
  queries : List (SymbolId × Expectation)

/-- What is to be done next. -/
inductive CoercionControl where
  | ask (key : CoercionKey)
  /-- Go on with the innermost query, which holds so far or fails. -/
  | go (holds : Bool)
  | answer (answer : Coercibility)
  | fault (fault : Fault)

/-- A state of the loop that decides a query. -/
structure CoercionRun where
  control : CoercionControl
  /-- The queries that are being decided, the innermost first. -/
  frames : List CoercionFrame
  cache : CoercionCache
  /-- The queries whose symbols were compared, the last first. -/
  compared : List CoercionKey

namespace CoercionRun

/-- A query from outside. -/
def start (q : CoercionKey) (c : CoercionCache) : CoercionRun := ⟨.ask q, [], c, []⟩

/-- Decides the innermost query, which leaves the stack with `rest` on it. -/
def close (s : CoercionRun) (frame : CoercionFrame) (rest : List CoercionFrame) (holds : Bool) :
    CoercionRun :=
  let answer := if holds then ⟨true, frame.found⟩ else .no
  match s.cache.find? frame.key with
  | none => { s with control := .answer answer, frames := rest }
  | some entry =>
      match entry.state.resolve holds with
      | .ok state =>
          { s with
            control := .answer answer
            frames := rest
            cache := s.cache.insert frame.key { entry with state } }
      | .error fault => { s with control := .fault fault, frames := rest }

end CoercionRun

namespace Table

/-- Puts a query on the stack.  Its symbol is compared if its counterpart is another one. -/
def pushQuery (t : Table) (s : CoercionRun) (key : CoercionKey) : CoercionRun :=
  let found := t.counterpart? key.source key.target key.symbol
  let queries? := t.demanded? key.symbol found
  { control := .go queries?.isSome
    frames := ⟨key, found, queries?.getD []⟩ :: s.frames
    cache := s.cache.insert key ⟨.pending, found⟩
    compared := if found.any (· ≠ key.symbol) then key :: s.compared else s.compared }

/-- Answers a query that is known, and puts one that is not on the stack. -/
def enter (t : Table) (s : CoercionRun) (key : CoercionKey) : CoercionRun :=
  if key.source = key.target then { s with control := .answer ⟨true, some key.symbol⟩ }
  else if !(t.kindOf key.symbol).isCoercible then
    { s with control := .fault (.notCoercible key.symbol) }
  else
    match s.cache.find? key with
    | some entry => { s with control := .answer entry.answer }
    | none => t.pushQuery s key

/-- One step of the loop.  A fault takes back the queries that are being decided. -/
def coercionStep (t : Table) (s : CoercionRun) : CoercionRun :=
  match s.control with
  | .ask key => t.enter s key
  | .go holds =>
      match s.frames with
      | [] => s
      | frame :: rest =>
          match holds, frame.queries with
          | true, (nested, _) :: _ =>
              { s with control := .ask ⟨nested, frame.key.source, frame.key.target⟩ }
          | _, _ => s.close frame rest holds
  | .answer answer =>
      match s.frames with
      | [] => s
      | frame :: rest =>
          match frame.queries with
          | [] => s
          | (_, expectation) :: queries =>
              { s with
                control := .go (expectation.meets answer)
                frames := { frame with queries } :: rest }
  | .fault _ =>
      match s.frames with
      | [] => s
      | frame :: rest => { s with frames := rest, cache := s.cache.erase frame.key }

end Table

/-! ## The stack is in order -/

/-- Both queries are about the same two namespaces. -/
def CoercionKey.Beside (key q : CoercionKey) : Prop :=
  key.source = q.source ∧ key.target = q.target

namespace Table

variable {t : Table} {q key : CoercionKey} {s : CoercionRun} {control : CoercionControl}
  {frame : CoercionFrame} {rest : List CoercionFrame} {c : CoercionCache}
  {compared : List CoercionKey}

/-- What holds of a state that comes about when the query `q` is decided. -/
structure Underway (t : Table) (q : CoercionKey) (s : CoercionRun) : Prop where
  beside : ∀ frame ∈ s.frames, frame.key.Beside q
  asked : ∀ {key}, s.control = .ask key → key.Beside q
  nodup : (s.frames.map CoercionFrame.key).Nodup
  coercible : ∀ frame ∈ s.frames, (t.kindOf frame.key.symbol).isCoercible = true
  entered : ∀ frame ∈ s.frames, s.cache.find? frame.key = some ⟨.pending, frame.found⟩
  /-- Nothing else is pending. -/
  pending : ∀ {key entry}, s.cache.find? key = some entry → entry.state = .pending →
    key ∈ s.frames.map CoercionFrame.key
  compared_beside : ∀ key ∈ s.compared, key.Beside q
  compared_nodup : s.compared.Nodup
  /-- What was compared is known, unless a fault takes it back. -/
  known : (∀ fault, s.control ≠ .fault fault) → ∀ key ∈ s.compared, (s.cache.find? key).isSome

/-- A query from outside that finds nothing pending. -/
theorem underway_start (t : Table) (q : CoercionKey)
    (hc : ∀ {key entry}, c.find? key = some entry → entry.state ≠ .pending) :
    t.Underway q (.start q c) where
  beside _ h := absurd h List.not_mem_nil
  asked h := by
    cases h
    exact ⟨rfl, rfl⟩
  nodup := List.nodup_nil
  coercible _ h := absurd h List.not_mem_nil
  entered _ h := absurd h List.not_mem_nil
  pending hfind hstate := absurd hstate (hc hfind)
  compared_beside _ h := absurd h List.not_mem_nil
  compared_nodup := List.nodup_nil
  known _ _ h := absurd h List.not_mem_nil

namespace Underway

/-- A state that differs only in what is to be done next. -/
theorem redirect (h : t.Underway q s) {control : CoercionControl}
    (hasked : ∀ {key}, control = .ask key → key.Beside q)
    (hgoes : ∀ fault, s.control ≠ .fault fault) : t.Underway q { s with control } where
  beside := h.beside
  asked := hasked
  nodup := h.nodup
  coercible := h.coercible
  entered := h.entered
  pending := h.pending
  compared_beside := h.compared_beside
  compared_nodup := h.compared_nodup
  known _ := h.known hgoes

/-- An answer was awaited. -/
theorem awaited {found : Option SymbolId} {queries : List (SymbolId × Expectation)}
    (h : t.Underway q ⟨control, ⟨key, found, queries⟩ :: rest, c, compared⟩)
    (hgoes : ∀ fault, control ≠ .fault fault) (holds : Bool)
    (left : List (SymbolId × Expectation)) :
    t.Underway q ⟨.go holds, ⟨key, found, left⟩ :: rest, c, compared⟩ where
  beside := List.forall_mem_cons.2 (List.forall_mem_cons.1 h.beside)
  asked := by rintro _ ⟨⟩
  nodup := h.nodup
  coercible := List.forall_mem_cons.2 (List.forall_mem_cons.1 h.coercible)
  entered := List.forall_mem_cons.2 (List.forall_mem_cons.1 h.entered)
  pending := h.pending
  compared_beside := h.compared_beside
  compared_nodup := h.compared_nodup
  known _ := h.known hgoes

/-- What else is on the stack is another query. -/
theorem key_ne (h : t.Underway q ⟨control, frame :: rest, c, compared⟩) {other : CoercionFrame}
    (hother : other ∈ rest) : other.key ≠ frame.key := by
  have hnodup := (List.nodup_cons.1 h.nodup).1
  exact fun heq => hnodup (heq ▸ List.mem_map_of_mem hother)

/-- The innermost query is not pending any more and leaves the stack. -/
theorem popped (h : t.Underway q ⟨control, frame :: rest, c, compared⟩) {control' : CoercionControl}
    {c' : CoercionCache} (hasks : ∀ key, control' ≠ .ask key)
    (hothers : ∀ {key}, key ≠ frame.key → c'.find? key = c.find? key)
    (hclosed : ∀ {entry}, c'.find? frame.key = some entry → entry.state ≠ .pending)
    (hknown : (∀ fault, control' ≠ .fault fault) → ∀ key ∈ compared, (c'.find? key).isSome) :
    t.Underway q ⟨control', rest, c', compared⟩ where
  beside other hother := h.beside other (List.mem_cons_of_mem _ hother)
  asked heq := absurd heq (hasks _)
  nodup := (List.nodup_cons.1 h.nodup).2
  coercible other hother := h.coercible other (List.mem_cons_of_mem _ hother)
  entered other hother :=
    (hothers (h.key_ne hother)).trans (h.entered other (List.mem_cons_of_mem _ hother))
  pending {key entry} hfind hstate := by
    have hne : key ≠ frame.key := by
      rintro rfl
      exact hclosed hfind hstate
    exact (List.mem_cons.1 (h.pending ((hothers hne).symm.trans hfind) hstate)).resolve_left hne
  compared_beside := h.compared_beside
  compared_nodup := h.compared_nodup
  known := hknown

/-- The innermost query is decided. -/
theorem decided (h : t.Underway q ⟨control, frame :: rest, c, compared⟩)
    (hgoes : ∀ fault, control ≠ .fault fault) (answer : Coercibility) (holds : Bool) :
    t.Underway q ⟨.answer answer, rest, c.insert frame.key ⟨.decided holds, frame.found⟩,
      compared⟩ := by
  refine h.popped (by rintro _ ⟨⟩) CoercionCache.find?_insert_of_ne ?_ fun _ key hkey => ?_
  · intro entry hfind
    rw [CoercionCache.find?_insert_self] at hfind
    cases hfind
    rintro ⟨⟩
  · rw [CoercionCache.find?_insert]
    split
    · rfl
    · exact h.known hgoes key hkey

/-- The innermost query is taken back. -/
theorem taken_back (h : t.Underway q ⟨control, frame :: rest, c, compared⟩) (fault : Fault) :
    t.Underway q ⟨.fault fault, rest, c.erase frame.key, compared⟩ := by
  refine h.popped (by rintro _ ⟨⟩) (fun hne => ?_) (fun hfind => ?_)
    fun hgoes => absurd rfl (hgoes fault)
  · rw [CoercionCache.find?_erase, if_neg hne]
  · rw [CoercionCache.find?_erase, if_pos rfl] at hfind
    cases hfind

/-- A query that is not known is not on the stack. -/
theorem key_notMem_frames (h : t.Underway q s) (hfind : s.cache.find? key = none) :
    key ∉ s.frames.map CoercionFrame.key := by
  intro hmem
  obtain ⟨frame, hframe, rfl⟩ := List.mem_map.1 hmem
  cases hfind.symm.trans (h.entered frame hframe)

/-- The symbol of a query that is not known was not compared. -/
theorem key_notMem_compared (h : t.Underway q s) (hgoes : ∀ fault, s.control ≠ .fault fault)
    (hfind : s.cache.find? key = none) : key ∉ s.compared := by
  intro hmem
  have hknown := h.known hgoes key hmem
  rw [hfind] at hknown
  cases hknown

/-- A query that is not known is put on the stack. -/
theorem pushed (h : t.Underway q s) (hasks : s.control = .ask key)
    (hkind : (t.kindOf key.symbol).isCoercible = true) (hfind : s.cache.find? key = none)
    (holds compares : Bool) (found : Option SymbolId) (queries : List (SymbolId × Expectation)) :
    t.Underway q ⟨.go holds, ⟨key, found, queries⟩ :: s.frames,
      s.cache.insert key ⟨.pending, found⟩,
      if compares then key :: s.compared else s.compared⟩ := by
  have hgoes : ∀ fault, s.control ≠ .fault fault := fun fault hfault => by
    cases hasks.symm.trans hfault
  have hframes := h.key_notMem_frames hfind
  -- what was compared is known by now, so the query was not
  have hcompared := h.key_notMem_compared hgoes hfind
  have hmem : ∀ {other}, other ∈ (if compares then key :: s.compared else s.compared) →
      other = key ∨ other ∈ s.compared := by
    intro other hother
    split at hother
    · exact List.mem_cons.1 hother
    · exact .inr hother
  constructor
  case beside => exact List.forall_mem_cons.2 ⟨h.asked hasks, h.beside⟩
  case asked => rintro _ ⟨⟩
  case nodup => exact List.nodup_cons.2 ⟨hframes, h.nodup⟩
  case coercible => exact List.forall_mem_cons.2 ⟨hkind, h.coercible⟩
  case entered =>
    refine List.forall_mem_cons.2 ⟨CoercionCache.find?_insert_self, fun other hother => ?_⟩
    have hne : other.key ≠ key := fun heq => hframes (heq ▸ List.mem_map_of_mem hother)
    exact (CoercionCache.find?_insert_of_ne hne).trans (h.entered other hother)
  case pending =>
    intro other entry hother hstate
    rw [CoercionCache.find?_insert] at hother
    split at hother
    · next heq => exact List.mem_cons.2 (.inl heq)
    · exact List.mem_cons_of_mem _ (h.pending hother hstate)
  case compared_beside =>
    intro other hother
    rcases hmem hother with rfl | hother
    · exact h.asked hasks
    · exact h.compared_beside other hother
  case compared_nodup =>
    dsimp only
    split
    · exact List.nodup_cons.2 ⟨hcompared, h.compared_nodup⟩
    · exact h.compared_nodup
  case known =>
    intro _ other hother
    rw [CoercionCache.find?_insert]
    split
    · rfl
    · next hne => exact h.known hgoes other ((hmem hother).resolve_left hne)

/-- The decision about the innermost query is open, so it can be taken. -/
theorem close_eq (h : t.Underway q ⟨control, frame :: rest, c, compared⟩) (holds : Bool) :
    CoercionRun.close ⟨control, frame :: rest, c, compared⟩ frame rest holds =
      ⟨.answer (if holds then ⟨true, frame.found⟩ else .no), rest,
        c.insert frame.key ⟨.decided holds, frame.found⟩, compared⟩ := by
  have hfind : c.find? frame.key = some ⟨.pending, frame.found⟩ :=
    h.entered frame List.mem_cons_self
  unfold CoercionRun.close
  dsimp only
  rw [hfind]
  rfl

theorem close (h : t.Underway q ⟨control, frame :: rest, c, compared⟩)
    (hgoes : ∀ fault, control ≠ .fault fault) (holds : Bool) :
    t.Underway q (.close ⟨control, frame :: rest, c, compared⟩ frame rest holds) := by
  rw [h.close_eq]
  exact h.decided hgoes _ holds

theorem enter (h : t.Underway q s) (hasks : s.control = .ask key) :
    t.Underway q (t.enter s key) := by
  have hgoes : ∀ fault, s.control ≠ .fault fault := fun fault hfault => by
    cases hasks.symm.trans hfault
  unfold Table.enter
  split
  · exact h.redirect (by rintro _ ⟨⟩) hgoes
  split
  · exact h.redirect (by rintro _ ⟨⟩) hgoes
  split
  · exact h.redirect (by rintro _ ⟨⟩) hgoes
  · next hkind _ hfind => exact h.pushed hasks (by simpa using hkind) hfind ..

/-- Every step keeps the stack in order. -/
theorem step (h : t.Underway q s) : t.Underway q (t.coercionStep s) := by
  obtain ⟨control, frames, c, compared⟩ := s
  cases control with
  | ask key => exact h.enter rfl
  | go holds =>
      cases frames with
      | nil => exact h
      | cons frame rest =>
          obtain ⟨key, found, queries⟩ := frame
          match holds, queries with
          | false, queries => exact h.close (by rintro _ ⟨⟩) false
          | true, [] => exact h.close (by rintro _ ⟨⟩) true
          | true, (nested, expectation) :: queries =>
              have hnested : ∀ {other : CoercionKey},
                  CoercionControl.ask ⟨nested, key.source, key.target⟩ = .ask other →
                    other.Beside q := by
                rintro _ ⟨⟩
                exact h.beside _ List.mem_cons_self
              exact h.redirect hnested (by rintro _ ⟨⟩)
  | answer answer =>
      cases frames with
      | nil => exact h
      | cons frame rest =>
          obtain ⟨key, found, queries⟩ := frame
          cases queries with
          | nil => exact h
          | cons awaited queries => exact h.awaited (by rintro _ ⟨⟩) _ queries
  | fault fault =>
      cases frames with
      | nil => exact h
      | cons frame rest => exact h.taken_back fault

theorem iterate (h : t.Underway q s) (n : Nat) : t.Underway q (t.coercionStep^[n] s) := by
  induction n with
  | zero => exact h
  | succ n ih =>
      rw [Function.iterate_succ_apply']
      exact ih.step

/-- Queries about the same namespaces differ in their symbols. -/
theorem nodup_symbols {keys : List CoercionKey} (hnodup : keys.Nodup)
    (hbeside : ∀ key ∈ keys, key.Beside q) : (keys.map CoercionKey.symbol).Nodup := by
  refine hnodup.map_on fun key hkey other hother hsymbol => ?_
  obtain ⟨x, source, target⟩ := key
  obtain ⟨y, source', target'⟩ := other
  obtain ⟨hsource, htarget⟩ := hbeside _ hkey
  obtain ⟨hsource', htarget'⟩ := hbeside _ hother
  exact CoercionKey.mk.injEq .. ▸
    ⟨hsymbol, hsource.trans hsource'.symm, htarget.trans htarget'.symm⟩

theorem compared_symbols (h : t.Underway q s) : (s.compared.map CoercionKey.symbol).Nodup :=
  nodup_symbols h.compared_nodup h.compared_beside

/-- No more queries are nested than there are symbols. -/
theorem length_le (h : t.Underway q s) : s.frames.length ≤ t.symbols.size := by
  have hsymbols := nodup_symbols h.nodup (List.forall_mem_map.2 h.beside)
  rw [List.map_map] at hsymbols
  have hlength := length_le_of_nodup hsymbols
    (List.forall_mem_map.2 fun frame hframe => holds_of_isCoercible (h.coercible frame hframe))
  rwa [List.length_map] at hlength

end Underway

end Table

end ManySorted
