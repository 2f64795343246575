import ManySorted.Proofs.Coercion.Stack

/-!
# The recursion of coercion queries ends

The loop with the stack does what the recursion does: from a state in which a query is asked it
comes to one in which the query is answered, or has failed, with the same answer and the same cache,
and with the same stack as before (`Table.coerceWithin_runsTo`).  The nested queries of one
comparison are asked in turn, and the stack is one higher while they are (`Table.runsTo_askAll`).
By induction on the number of symbols that can still be put on the stack, every query is settled.

This holds of every table, whatever its forms list and however they refer to each other, and of
every cache in which nothing is pending (`Table.coerce_terminates`).

## Strategy

* **One query.**  A query that is known is answered at once (`Table.enter_known`); one that is not
  is put on the stack (`Table.enter_absent`).
* **Its nested queries.**  They are asked in turn.  Each is settled by what is assumed of fewer
  symbols, and the first that fails, or is not answered as expected, ends the comparison
  (`Table.runsTo_askAll`).
* **Its end.**  When no nested query is left, the innermost query is decided (`Table.runsTo_close`),
  as the recursion decides it (`Table.coerceWithin_eq_conclude`).
-/

namespace ManySorted

/-- A query was answered or has failed. -/
def CoercionRun.settled (frames : List CoercionFrame) (compared : List CoercionKey) :
    EStateM.Result Fault CoercionCache Coercibility → CoercionRun
  | .ok answer c => ⟨.answer answer, frames, c, compared⟩
  | .error fault c => ⟨.fault fault, frames, c, compared⟩

/-- How a query ends whose comparison has ended: its entry is decided or taken back. -/
def CoercionKey.conclude (key : CoercionKey) (found : Option SymbolId) :
    EStateM.Result Fault CoercionCache Bool → EStateM.Result Fault CoercionCache Coercibility
  | .ok holds c =>
      .ok (if holds then ⟨true, found⟩ else .no) (c.insert key ⟨.decided holds, found⟩)
  | .error fault c => .error fault (c.erase key)

namespace Table

variable {t : Table} {q key : CoercionKey} {s s' s'' : CoercionRun} {control : CoercionControl}
  {rest : List CoercionFrame} {c c' : CoercionCache} {compared : List CoercionKey} {fuel : Nat}

/-! ## Runs -/

/-- The loop comes from one state to another. -/
def RunsTo (t : Table) (s s' : CoercionRun) : Prop := ∃ n, t.coercionStep^[n] s = s'

theorem RunsTo.step (h : t.RunsTo (t.coercionStep s) s') : t.RunsTo s s' := by
  obtain ⟨n, hn⟩ := h
  exact ⟨n + 1, hn⟩

theorem RunsTo.trans (h : t.RunsTo s s') (h' : t.RunsTo s' s'') : t.RunsTo s s'' := by
  obtain ⟨n, rfl⟩ := h
  obtain ⟨m, rfl⟩ := h'
  exact ⟨m + n, Function.iterate_add_apply _ m n s⟩

theorem Underway.runsTo (h : t.Underway q s) (hruns : t.RunsTo s s') : t.Underway q s' := by
  obtain ⟨n, rfl⟩ := hruns
  exact h.iterate n

/-- Nothing is left to do once the query from outside is settled. -/
theorem coercionStep_settled (t : Table) (compared : List CoercionKey)
    (result : EStateM.Result Fault CoercionCache Coercibility) :
    t.coercionStep (.settled [] compared result) = .settled [] compared result := by
  cases result <;> rfl

/-! ## The nested queries of a comparison -/

/-- Queries are settled if no more than `fuel` of them are nested in one another. -/
def SettlesWithin (t : Table) (q : CoercionKey) (fuel : Nat) : Prop :=
  ∀ {s key}, t.Underway q s → s.control = .ask key → t.symbols.size < s.frames.length + fuel →
    ∃ compared, t.RunsTo s
      (.settled s.frames compared (t.coerceWithin q.source q.target fuel key.symbol s.cache))

/-- The innermost query is decided. -/
theorem runsTo_close {frame : CoercionFrame} {holds : Bool}
    (h : t.Underway q ⟨.go holds, frame :: rest, c, compared⟩)
    (hlast : holds = true → frame.queries = []) :
    t.RunsTo ⟨.go holds, frame :: rest, c, compared⟩
      (.settled rest compared (frame.key.conclude frame.found (.ok holds c))) := by
  refine ⟨1, Eq.trans ?_ (h.close_eq holds)⟩
  obtain ⟨key, found, queries⟩ := frame
  cases holds with
  | false => rfl
  | true =>
      obtain rfl : queries = [] := hlast rfl
      rfl

/-- The nested queries are asked in turn, until one fails or is not answered as expected. -/
theorem runsTo_askAll (hsettles : t.SettlesWithin q fuel) {found : Option SymbolId}
    {queries : List (SymbolId × Expectation)}
    (h : t.Underway q ⟨.go true, ⟨key, found, queries⟩ :: rest, c, compared⟩)
    (hfuel : t.symbols.size < rest.length + 1 + fuel) :
    ∃ compared', t.RunsTo ⟨.go true, ⟨key, found, queries⟩ :: rest, c, compared⟩
      (.settled rest compared'
        (key.conclude found (askAll (t.coerceWithin q.source q.target fuel) queries c))) := by
  induction queries generalizing c compared with
  | nil => exact ⟨compared, runsTo_close h fun _ => rfl⟩
  | cons query queries ih =>
      obtain ⟨nested, expectation⟩ := query
      -- the frame stays on the stack while the nested query is settled above it
      obtain ⟨compared₁, hnested⟩ := hsettles h.step rfl hfuel
      rw [askAll_cons]
      change t.RunsTo _ (.settled _ _ (t.coerceWithin q.source q.target fuel nested c)) at hnested
      cases hrun : t.coerceWithin q.source q.target fuel nested c with
      | error fault c₁ =>
          rw [hrun] at hnested
          rw [bind_error hrun]
          -- the fault takes the frame with it
          exact ⟨compared₁, (RunsTo.step hnested).trans ⟨1, rfl⟩⟩
      | ok answer c₁ =>
          rw [hrun] at hnested
          rw [bind_ok hrun]
          have hruns : t.RunsTo
              ⟨.go true, ⟨key, found, (nested, expectation) :: queries⟩ :: rest, c, compared⟩
              ⟨.go (expectation.meets answer), ⟨key, found, queries⟩ :: rest, c₁, compared₁⟩ :=
            (RunsTo.step hnested).trans ⟨1, rfl⟩
          have hnext := h.runsTo hruns
          cases hmeets : expectation.meets answer with
          | false =>
              rw [hmeets] at hruns hnext
              exact ⟨compared₁, hruns.trans (runsTo_close hnext (by rintro ⟨⟩))⟩
          | true =>
              rw [hmeets] at hruns hnext
              obtain ⟨compared₂, hrest⟩ := ih hnext
              exact ⟨compared₂, hruns.trans hrest⟩

/-! ## Queries -/

theorem coerceWithin_eq_conclude (hne : q.source ≠ q.target)
    (hkind : (t.kindOf q.symbol).isCoercible = true) (hfind : c.find? q = none) :
    t.coerceWithin q.source q.target (fuel + 1) q.symbol c =
      q.conclude (t.counterpart? q.source q.target q.symbol)
        (t.decideWith (t.coerceWithin q.source q.target fuel) q.source q.target q.symbol
          (c.insert q ⟨.pending, t.counterpart? q.source q.target q.symbol⟩)) := by
  rw [coerceWithin_entered hne hkind hfind]
  cases t.decideWith (t.coerceWithin q.source q.target fuel) q.source q.target q.symbol
    (c.insert q ⟨.pending, t.counterpart? q.source q.target q.symbol⟩) <;> rfl

theorem enter_known {entry : CoercionEntry} (hne : key.source ≠ key.target)
    (hkind : (t.kindOf key.symbol).isCoercible = true) (hfind : s.cache.find? key = some entry) :
    t.enter s key = { s with control := .answer entry.answer } := by
  rw [enter, if_neg hne, hkind, hfind]
  rfl

theorem enter_absent (hne : key.source ≠ key.target)
    (hkind : (t.kindOf key.symbol).isCoercible = true) (hfind : s.cache.find? key = none) :
    t.enter s key = t.pushQuery s key := by
  rw [enter, if_neg hne, hkind, hfind]
  rfl

/-- A query on the stack is decided by asking its nested queries. -/
theorem runsTo_pushQuery (hsettles : t.SettlesWithin q fuel) (hbeside : key.Beside q)
    (h : t.Underway q (t.pushQuery s key)) (hfuel : t.symbols.size < s.frames.length + 1 + fuel) :
    let found := t.counterpart? key.source key.target key.symbol
    ∃ compared', t.RunsTo (t.pushQuery s key) (.settled s.frames compared' (key.conclude found
      (t.decideWith (t.coerceWithin key.source key.target fuel) key.source key.target key.symbol
        (s.cache.insert key ⟨.pending, found⟩)))) := by
  unfold pushQuery at h ⊢
  rw [decideWith_eq_askAll, hbeside.1, hbeside.2]
  rw [hbeside.1, hbeside.2] at h
  dsimp only at h ⊢
  cases hqueries : t.demanded? key.symbol (t.counterpart? q.source q.target key.symbol) with
  | none =>
      rw [hqueries] at h
      exact ⟨_, runsTo_close h (by rintro ⟨⟩)⟩
  | some queries =>
      rw [hqueries] at h
      exact runsTo_askAll hsettles h hfuel

/-- A query is settled as the recursion settles it. -/
theorem coerceWithin_runsTo (t : Table) (q : CoercionKey) (fuel : Nat) :
    t.SettlesWithin q fuel := by
  -- the fuel bounds how much higher the stack can become
  induction fuel with
  | zero => exact fun h _ hfuel => absurd h.length_le (Nat.not_le.2 hfuel)
  | succ fuel ih =>
      intro s key h hasks hfuel
      obtain ⟨control, frames, c, compared⟩ := s
      obtain rfl : control = .ask key := hasks
      obtain ⟨hsource, htarget⟩ := h.asked rfl
      rw [← hsource, ← htarget]
      by_cases hsame : key.source = key.target
      · have hstep : t.coercionStep ⟨.ask key, frames, c, compared⟩ =
            ⟨.answer ⟨true, some key.symbol⟩, frames, c, compared⟩ := if_pos hsame
        rw [← hsame, coerceWithin_same]
        exact ⟨compared, 1, hstep⟩
      cases hkind : (t.kindOf key.symbol).isCoercible with
      | false =>
          have hstep : t.coercionStep ⟨.ask key, frames, c, compared⟩ =
              ⟨.fault (.notCoercible key.symbol), frames, c, compared⟩ :=
            (if_neg hsame).trans (if_pos (by rw [hkind]; rfl))
          rw [coerceWithin_fault hsame hkind]
          exact ⟨compared, 1, hstep⟩
      | true =>
          cases hfind : c.find? key with
          | some entry =>
              rw [coerceWithin_found hsame hkind hfind]
              exact ⟨compared, 1, enter_known hsame hkind hfind⟩
          | none =>
              have hstep : t.coercionStep ⟨.ask key, frames, c, compared⟩ =
                  t.pushQuery ⟨.ask key, frames, c, compared⟩ key := enter_absent hsame hkind hfind
              obtain ⟨compared', hruns⟩ := runsTo_pushQuery ih (h.asked rfl) (hstep ▸ h.step)
                (by rw [Nat.add_assoc, Nat.add_comm 1 fuel]; exact hfuel)
              rw [coerceWithin_eq_conclude hsame hkind hfind]
              exact ⟨compared', .step (hstep ▸ hruns)⟩

/-- However sorts refer to each other, a query ends, and it ends as the recursion says: the answer
or fault is the same, and so is the cache.  While it is decided, all nested queries are about the
same two namespaces; just the queries on the stack are pending, they are distinct, and there are no
more of them than symbols; and no symbol is compared twice. -/
theorem coerce_terminates (t : Table) (q : CoercionKey) (c : CoercionCache)
    (hc : ∀ key entry, c.find? key = some entry → entry.state ≠ .pending) :
    (∃ n compared, ∀ m, n ≤ m → t.coercionStep^[m] (.start q c) =
      .settled [] compared (t.coerce q.symbol q.source q.target c)) ∧
    ∀ n s, t.coercionStep^[n] (.start q c) = s →
      (∀ key, s.control = .ask key → key.Beside q) ∧
      (∀ frame ∈ s.frames, frame.key.Beside q) ∧
      (∀ key, key ∈ s.frames.map CoercionFrame.key ↔
        ∃ entry, s.cache.find? key = some entry ∧ entry.state = .pending) ∧
      (s.frames.map CoercionFrame.key).Nodup ∧
      s.frames.length ≤ t.symbols.size ∧
      (s.compared.map CoercionKey.symbol).Nodup := by
  have hstart : t.Underway q (.start q c) := t.underway_start q (hc _ _)
  constructor
  · obtain ⟨compared, n, hn⟩ := t.coerceWithin_runsTo q (t.symbols.size + 1) hstart rfl
      (Nat.lt_of_lt_of_eq (Nat.lt_succ_self _) (Nat.zero_add _).symm)
    refine ⟨n, compared, fun m hm => ?_⟩
    obtain ⟨k, rfl⟩ := Nat.exists_eq_add_of_le' hm
    rw [Function.iterate_add_apply, hn]
    exact Function.iterate_fixed (t.coercionStep_settled compared _) k
  · rintro n s rfl
    have h := hstart.iterate n
    refine ⟨fun _ => h.asked, h.beside, fun key => ⟨fun hkey => ?_, ?_⟩, h.nodup, h.length_le,
      h.compared_symbols⟩
    · obtain ⟨frame, hframe, rfl⟩ := List.mem_map.1 hkey
      exact ⟨_, h.entered frame hframe, rfl⟩
    · rintro ⟨entry, hfind, hstate⟩
      exact h.pending hfind hstate

end Table

namespace Ring

/-- A condition that lists another one in its form, as no declaration makes it. -/
def condition (id home listed : Nat) : Symbol where
  id := ⟨id⟩
  name := ⟨1 + id % 2⟩
  home := ⟨home⟩
  arity := 0
  location := .generated
  kind := .userConstant .derived
  canonical := some ⟨[AcceptedValues.addConstant ∅ ⟨listed⟩]⟩

/-- Two namespaces with two conditions each, which list each other. -/
def table : Table where
  id := ⟨0⟩
  module := ⟨3⟩
  kind := .domain
  file := .empty
  namespaces := #[
    { name := .empty, children := [(⟨4⟩, ⟨1⟩), (⟨5⟩, ⟨2⟩)] },
    { name := ⟨4⟩, parent := some .root, depth := 1, symbols := [(⟨1⟩, ⟨0⟩), (⟨2⟩, ⟨1⟩)] },
    { name := ⟨5⟩, parent := some .root, depth := 1, symbols := [(⟨1⟩, ⟨2⟩), (⟨2⟩, ⟨3⟩)] }]
  symbols := #[condition 0 1 1, condition 1 1 0, condition 2 2 3, condition 3 2 2]

/-- The query about the first or the second condition of the first namespace. -/
def query (symbol : Nat) : CoercionKey := ⟨⟨symbol⟩, ⟨1⟩, ⟨2⟩⟩

/-- The two conditions are compared once, one inside the other. -/
theorem coerce_terminates_ring :
    (∃ n compared, ∀ m, n ≤ m → table.coercionStep^[m] (.start (query 0) {}) =
      .settled [] compared (.ok ⟨true, some ⟨2⟩⟩ ⟨[(query 0, ⟨.decided true, some ⟨2⟩⟩),
        (query 1, ⟨.decided true, some ⟨3⟩⟩)]⟩)) ∧
    (table.coercionStep^[5] (.start (query 0) {})).frames.map CoercionFrame.key =
      [query 1, query 0] ∧
    (table.coercionStep^[5] (.start (query 0) {})).compared = [query 1, query 0] ∧
    (table.coercionStep^[5] (.start (query 0) {})).frames.length ≤ table.symbols.size := by
  have hcoerce : table.coerce ⟨0⟩ ⟨1⟩ ⟨2⟩ {} = .ok ⟨true, some ⟨2⟩⟩
      ⟨[(query 0, ⟨.decided true, some ⟨2⟩⟩), (query 1, ⟨.decided true, some ⟨3⟩⟩)]⟩ := by rfl
  obtain ⟨hends, hstates⟩ := table.coerce_terminates (query 0) {} fun _ _ hfind => by cases hfind
  rw [← hcoerce]
  exact ⟨hends, by decide, by decide, (hstates 5 _ rfl).2.2.2.2.1⟩

end Ring

end ManySorted
