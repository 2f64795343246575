import ManySorted.Proofs.Draft.Run

/-!
# Passes that do not break down

A pass is safe if it ends, whatever problems it finds, or is cancelled; it never breaks an invariant
of the checker (`Draft.Safe`).  Unlike `Draft.Establishes` this speaks of every run, also of those
that report errors.  Cancellation may come at any step, so a condition on cancelled runs is a
condition on the drafts in between.

## Strategy

* **Putting passes together.**  The second part of a pass is safe from what the first part ends with
  (`Draft.Safe.bind`).  Reading and choosing pass on what is known.
* **Steps.**  A step that may break an invariant is shown not to (`Draft.safe_tryModifyTable`).  The
  only step that may cancel a run is one of the clock (`Draft.safe_tick`), and what holds before it
  has to imply what is known of cancelled runs.
* **Lists.**  What a step is given depends on the steps before it, so the invariant speaks of the
  part of the list that is done (`Draft.safe_forM`, `Draft.safe_foldlM`, `Draft.safe_mapM`).
* **Patience.**  On a clock that never cancels, a safe pass ends (`Draft.Safe.exists_ok`).
-/

namespace ManySorted

namespace Draft

variable {α β : Type} {x : DraftM α} {f : α → DraftM β} {C P P' : Draft → Prop}
  {Q Q' : α → Draft → Prop} {R : β → Draft → Prop}

/-- From every draft with `P` the pass ends with `Q`, or it is cancelled at a draft with `C`. -/
def Safe (C P : Draft → Prop) (x : DraftM α) (Q : α → Draft → Prop) : Prop :=
  ∀ d, P d → (∃ a d', x d = .ok a d' ∧ Q a d') ∨ ∃ d', x d = .error .cancelled d' ∧ C d'

theorem Safe.ok (hx : Safe C P x Q) {d d' : Draft} {a : α} (hd : P d) (h : x d = .ok a d') :
    Q a d' := by
  rcases hx d hd with ⟨_, _, hrun, hQ⟩ | ⟨_, hrun, _⟩
  · cases h.symm.trans hrun
    exact hQ
  · cases h.symm.trans hrun

/-! ## Putting passes together -/

theorem bind_of_ok {a : α} {d d' : Draft} (h : x d = .ok a d') : (x >>= f) d = f a d' := by
  change EStateM.bind x f d = f a d'
  rw [EStateM.bind, h]

theorem bind_of_error {abort : Abort} {d d' : Draft} (h : x d = .error abort d') :
    (x >>= f) d = .error abort d' := by
  change EStateM.bind x f d = .error abort d'
  rw [EStateM.bind, h]

theorem Safe.bind (hx : Safe C P x Q) (hf : ∀ a, Safe C (Q a) (f a) R) :
    Safe C P (x >>= f) R := by
  intro d hd
  rcases hx d hd with ⟨a, d', hrun, hQ⟩ | ⟨d', hrun, hC⟩
  · rw [bind_of_ok hrun]
    exact hf a d' hQ
  · exact .inr ⟨d', bind_of_error hrun, hC⟩

theorem Safe.imp (hx : Safe C P x Q) (hP : ∀ d, P' d → P d) (hQ : ∀ a d, Q a d → Q' a d) :
    Safe C P' x Q' := by
  intro d hd
  rcases hx d (hP d hd) with ⟨a, d', hrun, h⟩ | hcancelled
  · exact .inl ⟨a, d', hrun, hQ a d' h⟩
  · exact .inr hcancelled

/-- Less may be asked of cancelled runs. -/
theorem Safe.imp_cancelled {C' : Draft → Prop} (hx : Safe C P x Q) (hC : ∀ d, C d → C' d) :
    Safe C' P x Q := fun d hd => (hx d hd).imp id fun ⟨d', hrun, hd'⟩ => ⟨d', hrun, hC d' hd'⟩

theorem Safe.discard (hx : Safe C P x Q) {R : Unit → Draft → Prop} (h : ∀ a d, Q a d → R () d) :
    Safe C P (discard x) R := by
  refine Safe.bind (f := fun _ => pure ()) hx fun a => ?_
  intro d hd
  exact .inl ⟨(), d, rfl, h a d hd⟩

theorem Safe.ite {c : Prop} [Decidable c] {y : DraftM α} (hx : c → Safe C P x Q)
    (hy : ¬ c → Safe C P y Q) : Safe C P (if c then x else y) Q := by
  split
  · exact hx ‹_›
  · exact hy ‹_›

theorem safe_pure {a : α} (h : ∀ d, P d → Q a d) : Safe C P (pure a) Q :=
  fun d hd => .inl ⟨a, d, rfl, h d hd⟩

/-! ## Reading -/

theorem safe_getTable_bind {g : Table → DraftM β}
    (h : ∀ t, Safe C (fun d => P d ∧ d.table = t) (g t) R) : Safe C P (getTable >>= g) R :=
  fun d hd => h d.table d ⟨hd, rfl⟩

theorem safe_getNames_bind {g : Interner → DraftM β}
    (h : ∀ names, Safe C (fun d => P d ∧ d.names = names) (g names) R) :
    Safe C P (getNames >>= g) R :=
  fun d hd => h d.names d ⟨hd, rfl⟩

theorem safe_get_bind {g : Draft → DraftM β}
    (h : ∀ start, Safe C (fun d => P d ∧ d = start) (g start) R) : Safe C P (get >>= g) R :=
  fun d hd => h d d ⟨hd, rfl⟩

/-! ## Steps -/

theorem safe_modifyGet {g : Draft → α × Draft} (h : ∀ d, P d → Q (g d).1 (g d).2) :
    Safe C P (modifyGet g) Q :=
  fun d hd => .inl ⟨(g d).1, (g d).2, rfl, h d hd⟩

theorem safe_modify {g : Draft → Draft} {Q : Unit → Draft → Prop} (h : ∀ d, P d → Q () (g d)) :
    Safe C P (modify g) Q :=
  fun d hd => .inl ⟨(), g d, rfl, h d hd⟩

theorem safe_modifyTable {g : Table → Table} {Q : Unit → Draft → Prop}
    (h : ∀ d, P d → Q () { d with table := g d.table }) : Safe C P (modifyTable g) Q :=
  safe_modify h

/-- A step that may break an invariant, and does not. -/
theorem safe_tryModifyTable {g : Table → Except Fault Table} {Q : Unit → Draft → Prop}
    (h : ∀ d, P d → ∃ table, g d.table = .ok table ∧ Q () { d with table }) :
    Safe C P (tryModifyTable g) Q := by
  intro d hd
  obtain ⟨table, hg, hQ⟩ := h d hd
  refine .inl ⟨(), { d with table }, ?_, hQ⟩
  rw [tryModifyTable, getTable_bind, hg]
  rfl

theorem tick_eq (d : Draft) : tick d =
    if d.clock.advance.seesCancellation = true then
      .error .cancelled { d with clock := d.clock.advance }
    else .ok () { d with clock := d.clock.advance } := by
  have hstep : (modify fun d : Draft => { d with clock := d.clock.advance } : DraftM PUnit) d =
      .ok ⟨⟩ { d with clock := d.clock.advance } := rfl
  rw [tick, bind_of_ok hstep, get_bind]
  split <;> rfl

/-- A run may be cancelled at every step on its clock. -/
theorem safe_tick {Q : Unit → Draft → Prop}
    (hC : ∀ d, P d → C { d with clock := d.clock.advance })
    (hQ : ∀ d, P d → Q () { d with clock := d.clock.advance }) : Safe C P tick Q := by
  intro d hd
  rw [tick_eq]
  split
  · exact .inr ⟨_, rfl, hC d hd⟩
  · exact .inl ⟨(), _, rfl, hQ d hd⟩

/-- A step on the clock does nothing else. -/
theorem safe_tick_of (hclock : ∀ d clock, P d → P { d with clock }) (hC : ∀ d, P d → C d) :
    Safe C P tick fun _ => P :=
  safe_tick (fun d hd => hC _ (hclock d _ hd)) fun d hd => hclock d _ hd

/-! ## Lists of steps -/

/-- The steps of a fold, each given what those before it have done. -/
theorem safe_foldlM {g : β → α → DraftM β} {motive : List α → β → Draft → Prop} {l : List α}
    (step : ∀ done b a rest, l = done ++ a :: rest →
      Safe C (motive done b) (g b a) (motive (done ++ [a]))) (b : β) :
    Safe C (motive [] b) (l.foldlM g b) (motive l) := by
  have hall : ∀ (rest done : List α) (b : β), l = done ++ rest →
      Safe C (motive done b) (rest.foldlM g b) (motive l) := by
    intro rest
    induction rest with
    | nil =>
        intro done b hl
        rw [List.append_nil] at hl
        exact safe_pure fun d hd => hl ▸ hd
    | cons a rest ih =>
        intro done b hl
        refine (step done b a rest hl).bind fun b' => ih (done ++ [a]) b' ?_
        rw [hl, List.append_assoc, List.singleton_append]
  exact hall l [] b rfl

theorem safe_forM {g : α → DraftM PUnit} {motive : List α → Draft → Prop} {l : List α}
    (step : ∀ done a rest, l = done ++ a :: rest →
      Safe C (motive done) (g a) fun _ => motive (done ++ [a])) :
    Safe C (motive []) (l.forM g) fun _ => motive l := by
  have hall : ∀ (rest done : List α), l = done ++ rest →
      Safe C (motive done) (rest.forM g) fun _ => motive l := by
    intro rest
    induction rest with
    | nil =>
        intro done hl
        rw [List.append_nil] at hl
        exact safe_pure fun d hd => hl ▸ hd
    | cons a rest ih =>
        intro done hl
        refine (step done a rest hl).bind fun _ => ih (done ++ [a]) ?_
        rw [hl, List.append_assoc, List.singleton_append]
  exact hall l [] rfl

/-- The steps of a list, each given what those before it have done and returned. -/
theorem safe_mapM {g : α → DraftM β} {motive : List α → List β → Draft → Prop} {l : List α}
    (step : ∀ done bs a rest, l = done ++ a :: rest →
      Safe C (motive done bs) (g a) fun b => motive (done ++ [a]) (bs ++ [b])) :
    Safe C (motive [] []) (l.mapM g) (motive l) := by
  have hall : ∀ (rest done : List α) (bs : List β), l = done ++ rest →
      Safe C (motive done bs) (rest.mapM g) fun bs' => motive l (bs ++ bs') := by
    intro rest
    induction rest with
    | nil =>
        intro done bs hl
        rw [List.append_nil] at hl
        rw [List.mapM_nil]
        refine safe_pure fun d hd => ?_
        rw [List.append_nil, hl]
        exact hd
    | cons a rest ih =>
        intro done bs hl
        rw [List.mapM_cons]
        refine (step done bs a rest hl).bind fun b => ?_
        refine (ih (done ++ [a]) (bs ++ [b]) ?_).bind fun bs' => safe_pure fun d hd => ?_
        · rw [hl, List.append_assoc, List.singleton_append]
        · rwa [List.append_assoc, List.singleton_append] at hd
  exact hall l [] [] rfl

theorem safe_filterMapM {g : α → DraftM (Option β)} {motive : List α → List β → Draft → Prop}
    {l : List α}
    (step : ∀ done bs a rest, l = done ++ a :: rest →
      Safe C (motive done bs) (g a) fun b => motive (done ++ [a]) (bs ++ b.toList)) :
    Safe C (motive [] []) (l.filterMapM g) (motive l) := by
  have hall : ∀ (rest done : List α) (bs : List β), l = done ++ rest →
      Safe C (motive done bs) (rest.filterMapM g) fun bs' => motive l (bs ++ bs') := by
    intro rest
    induction rest with
    | nil =>
        intro done bs hl
        rw [List.append_nil] at hl
        rw [List.filterMapM_nil]
        refine safe_pure fun d hd => ?_
        rw [List.append_nil, hl]
        exact hd
    | cons a rest ih =>
        intro done bs hl
        have hl' : l = (done ++ [a]) ++ rest := by
          rw [hl, List.append_assoc, List.singleton_append]
        rw [List.filterMapM_cons]
        refine (step done bs a rest hl).bind fun b => ?_
        cases b with
        | none =>
            rw [Option.toList_none, List.append_nil]
            exact ih (done ++ [a]) bs hl'
        | some b =>
            rw [Option.toList_some]
            refine (ih (done ++ [a]) (bs ++ [b]) hl').bind fun bs' => safe_pure fun d hd => ?_
            rwa [List.append_assoc, List.singleton_append] at hd
  exact hall l [] [] rfl

/-- Filtering by a test that reads the draft and leaves it as it is, but for the clock. -/
theorem safe_filterM {g : α → DraftM Bool} {p : α → Bool} {l : List α}
    (step : ∀ a ∈ l, Safe C P (g a) fun keep d => P d ∧ keep = p a) :
    Safe C P (l.filterM g) fun kept d => P d ∧ kept = l.filter p := by
  have hall : ∀ (rest kept : List α), (∀ a ∈ rest, a ∈ l) →
      Safe C P (rest.filterAuxM g kept) fun kept' d =>
        P d ∧ kept' = (rest.filter p).reverse ++ kept := by
    intro rest
    induction rest with
    | nil => exact fun kept _ => safe_pure fun d hd => ⟨hd, rfl⟩
    | cons a rest ih =>
        intro kept hmem
        refine (step a (hmem a List.mem_cons_self)).bind fun keep => ?_
        intro d hd
        obtain ⟨hP, rfl⟩ := hd
        refine (ih (cond (p a) (a :: kept) kept) fun b hb =>
          hmem b (List.mem_cons_of_mem _ hb)).imp (fun d hd => hd) (fun kept' d hd => ?_) d hP
        refine ⟨hd.1, hd.2.trans ?_⟩
        cases hp : p a with
        | true => rw [List.filter_cons_of_pos hp, List.reverse_cons, List.append_assoc]; rfl
        | false => rw [List.filter_cons_of_neg (by rw [hp]; exact Bool.false_ne_true)]; rfl
  refine (hall l [] fun a ha => ha).bind fun kept => safe_pure fun d hd => ?_
  refine ⟨hd.1, ?_⟩
  rw [hd.2, List.append_nil, List.reverse_reverse]

end Draft

/-! ## Clocks that never cancel -/

/-- A clock on which no run is cancelled. -/
def Clock.Patient (clock : Clock) : Prop := ∀ progress, clock.cancelledBy progress = false

namespace Draft

variable {α β : Type} {x : DraftM α} {f : α → DraftM β} {C P : Draft → Prop}
  {Q : α → Draft → Prop}

/-- On a clock that never cancels the pass is not cancelled, however it ends. -/
structure Unhurried (x : DraftM α) : Prop where
  patient : ∀ {d}, d.clock.Patient → (after x d).clock.Patient
  not_cancelled : ∀ {d d'}, d.clock.Patient → x d ≠ .error .cancelled d'

theorem Unhurried.ok (hx : Unhurried x) {d d' : Draft} {a : α} (hd : d.clock.Patient)
    (hrun : x d = .ok a d') : d'.clock.Patient := by
  have hafter := hx.patient hd
  rwa [after, hrun] at hafter

/-- A safe pass that is not cancelled ends. -/
theorem Safe.exists_ok (hx : Safe C P x Q) (hunhurried : Unhurried x) {d : Draft} (hd : P d)
    (hclock : d.clock.Patient) : ∃ a d', x d = .ok a d' ∧ Q a d' ∧ d'.clock.Patient := by
  rcases hx d hd with ⟨a, d', hrun, hQ⟩ | ⟨d', hrun, -⟩
  · exact ⟨a, d', hrun, hQ, hunhurried.ok hclock hrun⟩
  · exact absurd hrun (hunhurried.not_cancelled hclock)

theorem Unhurried.bind (hx : Unhurried x) (hf : ∀ a, Unhurried (f a)) : Unhurried (x >>= f) := by
  refine ⟨fun {d} hd => ?_, fun {d d'} hd => ?_⟩
  · cases hrun : x d with
    | ok a d' =>
        rw [after, bind_of_ok hrun]
        exact (hf a).patient (hx.ok hd hrun)
    | error abort d' =>
        have hafter := hx.patient hd
        rw [after, hrun] at hafter
        rwa [after, bind_of_error hrun]
  · cases hrun : x d with
    | ok a d' =>
        rw [bind_of_ok hrun]
        exact (hf a).not_cancelled (hx.ok hd hrun)
    | error abort d' =>
        rw [bind_of_error hrun]
        rintro h
        cases h
        exact hx.not_cancelled hd hrun

theorem unhurried_pure (a : α) : Unhurried (pure a) := ⟨fun hd => hd, fun _ h => nomatch h⟩

/-- What leaves the clock alone is not cancelled. -/
theorem unhurried_modifyGet {g : Draft → α × Draft} (h : ∀ d, (g d).2.clock = d.clock) :
    Unhurried (modifyGet g) := by
  refine ⟨fun {d} hd => ?_, fun _ h => nomatch h⟩
  change (g d).2.clock.Patient
  rwa [h]

theorem unhurried_modifyTable (g : Table → Table) : Unhurried (modifyTable g) :=
  ⟨fun hd => hd, fun _ h => nomatch h⟩

theorem unhurried_getTable : Unhurried getTable := ⟨fun hd => hd, fun _ h => nomatch h⟩

theorem unhurried_getNames : Unhurried getNames := ⟨fun hd => hd, fun _ h => nomatch h⟩

theorem unhurried_tick : Unhurried tick := by
  have hsees : ∀ {d : Draft}, d.clock.Patient → d.clock.advance.seesCancellation = false := by
    intro d hd
    have hnever : d.clock.advance.cancelledBy d.clock.advance.progress = false := hd _
    rw [Clock.seesCancellation, hnever, Bool.and_false]
  refine ⟨fun {d} hd => ?_, fun {d d'} hd => ?_⟩
  · rw [after, tick_eq, if_neg (Bool.eq_false_iff.1 (hsees hd))]
    exact hd
  · rw [tick_eq, if_neg (Bool.eq_false_iff.1 (hsees hd))]
    intro h
    cases h

theorem unhurried_tryModifyTable (g : Table → Except Fault Table) :
    Unhurried (tryModifyTable g) := by
  refine unhurried_getTable.bind fun t => ?_
  split
  · exact unhurried_modifyTable _
  · exact ⟨fun hd => hd, fun _ h => nomatch h⟩

theorem unhurried_foldlM {g : β → α → DraftM β} (l : List α) (h : ∀ b a, Unhurried (g b a))
    (b : β) : Unhurried (l.foldlM g b) := by
  induction l generalizing b with
  | nil => exact unhurried_pure b
  | cons a rest ih => exact (h b a).bind ih

end Draft

end ManySorted
