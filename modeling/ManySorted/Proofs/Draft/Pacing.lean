import ManySorted.Proofs.Draft.Passes
import ManySorted.Proofs.Draft.Safety
import ManySorted.Proofs.Table.Moves

/-!
# Runs on a clock that spares them

Every pass does to the table what moves do (`Draft.Paced`), and time enters a run only through
cancellation: as long as a run is not cancelled it does what the same run does on a clock that
cancels it no earlier, and if it is cancelled, then the run on the other clock was at the same draft
at that step and only goes on from there.

## Strategy

* **One pass on two clocks.**  If the second clock cancels a run no earlier, then both runs end
  alike, or the first one is cancelled at a draft that the second one comes to (`Draft.Keeps`).
* **Putting passes together.**  What comes next has to pace only where the first part may end
  (`Draft.Paces.bind_of`), so pacing is put together along binds, choices and lists.
* **Steps.**  Whatever neither reads the clock nor changes it keeps pace (`Draft.paces_modifyGet`);
  the only step that may cancel a run is a step of the clock (`Draft.paced_tick`).
-/

namespace ManySorted

open Relation (ReflTransGen)

/-- Where the first clock cancels a run, so does the second. -/
def Clock.Spares (c' c : Clock) : Prop := ∀ progress,
  { c' with progress }.seesCancellation = true → { c with progress }.seesCancellation = true

/-- The same moment of a draft on another clock. -/
def Draft.on (d : Draft) (c : Clock) : Draft :=
  { d with clock := { c with progress := d.clock.progress } }

/-- The clock went on. -/
structure Clock.Passed (c c' : Clock) : Prop where
  batch_eq : c'.batch = c.batch
  cancelledBy_eq : c'.cancelledBy = c.cancelledBy
  ticks_le : c.progress.ticks ≤ c'.progress.ticks

/-- The clock went on, and the run was not cancelled whenever it looked. -/
structure Clock.Unseen (c c' : Clock) : Prop extends c.Passed c' where
  looked : ∀ {n}, c.progress.ticks < n → n ≤ c'.progress.ticks → n % max 1 c.batch = 0 →
    ∃ requests, c.cancelledBy ⟨n, requests⟩ = false

namespace Clock

variable {c c' c'' : Clock}

theorem Passed.refl (c : Clock) : c.Passed c := ⟨rfl, rfl, Nat.le_refl _⟩

theorem Passed.trans (h : c.Passed c') (h' : c'.Passed c'') : c.Passed c'' :=
  ⟨h'.batch_eq.trans h.batch_eq, h'.cancelledBy_eq.trans h.cancelledBy_eq,
    Nat.le_trans h.ticks_le h'.ticks_le⟩

theorem Unseen.of_ticks_eq (h : c.Passed c') (hticks : c'.progress.ticks = c.progress.ticks) :
    c.Unseen c' :=
  ⟨h, fun hlt hle => absurd hlt (Nat.not_lt.2 (hticks ▸ hle))⟩

theorem Unseen.trans (h : c.Unseen c') (h' : c'.Unseen c'') : c.Unseen c'' := by
  refine ⟨h.toPassed.trans h'.toPassed, fun {n} hlt hle hmod => ?_⟩
  by_cases hn : n ≤ c'.progress.ticks
  · exact h.looked hlt hn hmod
  · have hlooked := h'.looked (Nat.lt_of_not_le hn) hle (by rwa [h.batch_eq])
    rwa [h.cancelledBy_eq] at hlooked

theorem Passed.spares {other : Clock} (h : c.Passed c') (hspares : other.Spares c) :
    other.Spares c' := by
  intro progress hsees
  have hthen := hspares progress hsees
  rw [seesCancellation] at hthen ⊢
  dsimp only at hthen ⊢
  rwa [h.batch_eq, h.cancelledBy_eq]

theorem passed_advance (c : Clock) : c.Passed c.advance := ⟨rfl, rfl, Nat.le_succ _⟩

/-- A step at which the run is not seen to be cancelled. -/
theorem unseen_advance (h : c.advance.seesCancellation = false) : c.Unseen c.advance := by
  refine ⟨c.passed_advance, fun {n} hlt hle hmod => ⟨c.progress.requests, ?_⟩⟩
  obtain rfl : n = c.progress.ticks + 1 := Nat.le_antisymm hle hlt
  rw [seesCancellation, Bool.and_eq_false_iff] at h
  refine h.resolve_left fun hzero => ?_
  exact absurd (beq_iff_eq.2 hmod) (Bool.eq_false_iff.1 hzero)

end Clock

namespace Draft

variable {α β : Type} {sources : Table → Prop} {x : DraftM α} {f : α → DraftM β} {d d' : Draft}

/-- How a run is related to the same run on another clock. -/
inductive Keeps (sources : Table → Prop) (x : DraftM α) (d : Draft) (c : Clock) : Prop
  | ok {a : α} {d' : Draft} (run : x d = .ok a d') (full : x (d.on c) = .ok a (d'.on c))
      (unseen : d.clock.Unseen d'.clock)
  | fault {fault : Fault} {d' : Draft} (run : x d = .error (.fault fault) d')
      (full : x (d.on c) = .error (.fault fault) (d'.on c)) (unseen : d.clock.Unseen d'.clock)
  | cancelled {d' : Draft} (run : x d = .error .cancelled d')
      (seen : d'.clock.seesCancellation = true)
      (later : d.clock.progress.ticks < d'.clock.progress.ticks)
      (moves : Table.Moves sources (after x (d.on c)).names d'.table (after x (d.on c)).table)
      (ticks_le : d'.clock.progress.ticks ≤ (after x (d.on c)).clock.progress.ticks)

/-- Names were added, and the table made moves. -/
structure Moved (sources : Table → Prop) (d d' : Draft) : Prop where
  grown : d.names.Grown d'.names
  moves : Table.Moves sources d'.names d.table d'.table

/-- From this draft the pass makes moves, its clock goes on, and it keeps pace. -/
structure Paces (sources : Table → Prop) (x : DraftM α) (d : Draft) : Prop extends
    Moved sources d (after x d) where
  clock : d.clock.Passed (after x d).clock
  keeps : ∀ {c : Clock}, c.Spares d.clock → Keeps sources x d c

/-- From every draft the pass keeps pace. -/
structure Paced (sources : Table → Prop) (x : DraftM α) : Prop where
  paces : ∀ d, Paces sources x d

theorem Moved.refl (d : Draft) : Moved sources d d := ⟨.refl _, ReflTransGen.refl⟩

theorem Moved.trans {d'' : Draft} (h : Moved sources d d') (h' : Moved sources d' d'') :
    Moved sources d d'' := ⟨h.grown.trans h'.grown, (h.moves.grown h'.grown).trans h'.moves⟩

theorem Moved.mono {more : Table → Prop} (h : Moved sources d d')
    (hmore : ∀ t, sources t → more t) : Moved more d d' := ⟨h.grown, h.moves.mono hmore (.refl _)⟩

theorem after_of_ok {a : α} (h : x d = .ok a d') : after x d = d' := by rw [after, h]

theorem after_of_error {abort : Abort} (h : x d = .error abort d') : after x d = d' := by
  rw [after, h]

theorem Keeps.mono {c : Clock} {more : Table → Prop} (h : Keeps sources x d c)
    (hmore : ∀ t, sources t → more t) : Keeps more x d c := by
  cases h with
  | ok run full unseen => exact .ok run full unseen
  | fault run full unseen => exact .fault run full unseen
  | cancelled run seen later moves ticks_le =>
      exact .cancelled run seen later (moves.mono hmore (.refl _)) ticks_le

theorem Paced.mono {more : Table → Prop} (h : Paced sources x) (hmore : ∀ t, sources t → more t) :
    Paced more x :=
  ⟨fun d => ⟨(h.paces d).toMoved.mono hmore, (h.paces d).clock, fun hspares =>
    ((h.paces d).keeps hspares).mono hmore⟩⟩

/-! ## Putting passes together -/

theorem after_bind_of_ok {a : α} (h : x d = .ok a d') : after (x >>= f) d = after (f a) d' := by
  rw [after, bind_of_ok h]
  rfl

theorem after_bind_of_error {abort : Abort} (h : x d = .error abort d') :
    after (x >>= f) d = after x d := by
  rw [after_of_error h, after_of_error (bind_of_error h)]

/-- Whatever comes next goes on from where the first part ends. -/
theorem after_bind (hf : ∀ a d', x d = .ok a d' → Paces sources (f a) d') :
    Moved sources (after x d) (after (x >>= f) d) ∧
      (after x d).clock.Passed (after (x >>= f) d).clock := by
  cases hrun : x d with
  | ok a d₁ =>
      rw [after_bind_of_ok hrun, after_of_ok hrun]
      exact ⟨(hf a d₁ hrun).toMoved, (hf a d₁ hrun).clock⟩
  | error abort d₁ =>
      rw [after_bind_of_error hrun]
      exact ⟨.refl _, .refl _⟩

/-- What comes next has to pace only where the first part may end, on whatever clock. -/
theorem Paces.bind_of (hx : Paces sources x d)
    (hf : ∀ c a d', x (d.on c) = .ok a d' → Paces sources (f a) d') :
    Paces sources (x >>= f) d := by
  obtain ⟨hmoved, hclock, hkeeps⟩ := hx
  obtain ⟨hmoved', hclock'⟩ := after_bind (hf d.clock)
  refine ⟨hmoved.trans hmoved', hclock.trans hclock', fun {c} hspares => ?_⟩
  cases hkeeps hspares with
  | @ok a d' run full unseen =>
      cases (hf d.clock a d' run).keeps (unseen.spares hspares) with
      | ok run' full' unseen' =>
          exact .ok ((bind_of_ok run).trans run') ((bind_of_ok full).trans full')
            (unseen.trans unseen')
      | fault run' full' unseen' =>
          exact .fault ((bind_of_ok run).trans run') ((bind_of_ok full).trans full')
            (unseen.trans unseen')
      | cancelled run' seen later moves ticks_le =>
          have hfull : after (x >>= f) (d.on c) = after (f a) (d'.on c) := after_bind_of_ok full
          exact .cancelled ((bind_of_ok run).trans run') seen
            (Nat.lt_of_le_of_lt unseen.ticks_le later) (hfull ▸ moves) (hfull ▸ ticks_le)
  | fault run full unseen => exact .fault (bind_of_error run) (bind_of_error full) unseen
  | cancelled run seen later moves ticks_le =>
      obtain ⟨hmoved', hclock'⟩ := after_bind (hf c)
      exact .cancelled (bind_of_error run) seen later
        ((moves.grown hmoved'.grown).trans hmoved'.moves) (Nat.le_trans ticks_le hclock'.ticks_le)

theorem Paces.bind (hx : Paces sources x d) (hf : ∀ a, Paced sources (f a)) :
    Paces sources (x >>= f) d := hx.bind_of fun _ a d' _ => (hf a).paces d'

theorem Paced.bind (hx : Paced sources x) (hf : ∀ a, Paced sources (f a)) :
    Paced sources (x >>= f) := ⟨fun d => (hx.paces d).bind hf⟩

theorem Paced.bind_of (hx : Paced sources x)
    (hf : ∀ a d d', x d = .ok a d' → Paces sources (f a) d') : Paced sources (x >>= f) :=
  ⟨fun d => (hx.paces d).bind_of fun _ a d' hrun => hf a _ d' hrun⟩

/-- On a clock that never cancels no run is cancelled. -/
theorem Paced.not_cancelled (hx : Paced sources x) (hclock : d.clock.Patient) :
    x d ≠ .error .cancelled d' := by
  intro hrun
  obtain ⟨-, hpassed, hkeeps⟩ := hx.paces d
  rw [after_of_error hrun] at hpassed
  cases hkeeps (c := d.clock) fun _ hsees => hsees with
  | ok run => cases hrun.symm.trans run
  | fault run => cases hrun.symm.trans run
  | cancelled run seen =>
      cases hrun.symm.trans run
      rw [Clock.seesCancellation, hpassed.cancelledBy_eq, hclock, Bool.and_false] at seen
      exact Bool.false_ne_true seen

theorem paced_pure (a : α) : Paced sources (pure a) :=
  ⟨fun _ => ⟨.refl _, .refl _, fun _ => .ok rfl rfl (.of_ticks_eq (.refl _) rfl)⟩⟩

theorem Paced.discard (hx : Paced sources x) : Paced sources (discard x) :=
  hx.bind (f := fun _ => pure ()) fun _ => paced_pure ()

theorem Paced.ite {c : Prop} [Decidable c] {y : DraftM α} (hx : Paced sources x)
    (hy : Paced sources y) : Paced sources (if c then x else y) := by
  split
  · exact hx
  · exact hy

theorem paced_forM {g : α → DraftM PUnit} {l : List α} (h : ∀ a ∈ l, Paced sources (g a)) :
    Paced sources (l.forM g) := by
  induction l with
  | nil => exact paced_pure _
  | cons a rest ih =>
      exact (h a List.mem_cons_self).bind fun _ => ih fun a' ha' =>
        h a' (List.mem_cons_of_mem _ ha')

theorem paced_foldlM {g : β → α → DraftM β} (l : List α)
    (h : ∀ b, ∀ a ∈ l, Paced sources (g b a)) (b : β) : Paced sources (l.foldlM g b) := by
  induction l generalizing b with
  | nil => exact paced_pure b
  | cons a rest ih =>
      exact (h b a List.mem_cons_self).bind
        (ih fun b' a' ha' => h b' a' (List.mem_cons_of_mem _ ha'))

theorem paced_mapM {g : α → DraftM β} (l : List α) (h : ∀ a, Paced sources (g a)) :
    Paced sources (l.mapM g) := by
  induction l with
  | nil => exact paced_pure []
  | cons a rest ih =>
      rw [List.mapM_cons]
      exact (h a).bind fun b => ih.bind fun bs => paced_pure _

theorem paced_filterMapM {g : α → DraftM (Option β)} (l : List α) (h : ∀ a, Paced sources (g a)) :
    Paced sources (l.filterMapM g) := by
  induction l with
  | nil => exact paced_pure []
  | cons a rest ih =>
      rw [List.filterMapM_cons]
      refine (h a).bind fun b => ?_
      cases b with
      | none => exact ih
      | some b => exact ih.bind fun bs => paced_pure _

theorem paced_filterM {g : α → DraftM Bool} (l : List α) (h : ∀ a, Paced sources (g a)) :
    Paced sources (l.filterM g) := by
  have haux : ∀ kept, Paced sources (l.filterAuxM g kept) := by
    induction l with
    | nil => exact fun kept => paced_pure _
    | cons a rest ih => exact fun kept => (h a).bind fun keep => ih _
  exact (haux []).bind fun _ => paced_pure _

/-! ## The steps of drafts -/

/-- A step that neither reads the clock nor changes it. -/
def Timeless (g : Draft → α × Draft) : Prop :=
  ∀ d clock, g { d with clock } = ((g d).1, { (g d).2 with clock })

theorem paces_modifyGet {g : Draft → α × Draft} (htimeless : Timeless g)
    (hmoved : Moved sources d (g d).2) : Paces sources (modifyGet g) d := by
  have hclock : (g d).2.clock = d.clock := congrArg (fun p => p.2.clock) (htimeless d d.clock)
  have hfull : ∀ c, (modifyGet g : DraftM α) (d.on c) = .ok (g d).1 ((g d).2.on c) := by
    intro c
    change EStateM.Result.ok (g (d.on c)).1 (g (d.on c)).2 = _
    rw [on, htimeless, on, hclock]
  refine ⟨hmoved, ?_, fun _ => .ok rfl (hfull _) ?_⟩
  · change d.clock.Passed (g d).2.clock
    rw [hclock]
    exact .refl _
  · rw [hclock]
    exact .of_ticks_eq (.refl _) rfl

theorem paced_modifyGet {g : Draft → α × Draft} (htimeless : Timeless g)
    (hmoved : ∀ d : Draft, Moved sources d (g d).2) : Paced sources (modifyGet g) :=
  ⟨fun d => paces_modifyGet htimeless (hmoved d)⟩

theorem paced_modify {g : Draft → Draft} (htimeless : ∀ d clock, g { d with clock } =
    { g d with clock })
    (hnames : ∀ d : Draft, (g d).names = d.names)
    (hmoves : ∀ {names : Interner} (d : Draft), Table.Moves sources names d.table (g d).table) :
    Paced sources (modify g) :=
  paced_modifyGet (fun d clock => by rw [htimeless]) fun d => ⟨hnames d ▸ .refl _, hmoves d⟩

theorem paced_modifyTable {g : Table → Table}
    (h : ∀ {names : Interner} (t : Table), Table.Moves sources names t (g t)) :
    Paced sources (modifyTable g) :=
  paced_modify (fun _ _ => rfl) (fun _ => rfl) fun d => h d.table

theorem paced_getTable : Paced sources getTable :=
  ⟨fun _ => ⟨.refl _, .refl _, fun _ => .ok rfl rfl (.of_ticks_eq (.refl _) rfl)⟩⟩

theorem paced_getNames : Paced sources getNames :=
  ⟨fun _ => ⟨.refl _, .refl _, fun _ => .ok rfl rfl (.of_ticks_eq (.refl _) rfl)⟩⟩

theorem paced_tryModifyTable {g : Table → Except Fault Table}
    (h : ∀ {names : Interner} (t t' : Table), g t = .ok t' → Table.Moves sources names t t') :
    Paced sources (tryModifyTable g) := by
  refine ⟨fun d => ?_⟩
  cases hg : g d.table with
  | ok table =>
      have hrun : ∀ clock, tryModifyTable g { d with clock } = .ok () { d with table, clock } := by
        intro clock
        rw [tryModifyTable, getTable_bind, hg]
        rfl
      have hafter : after (tryModifyTable g) d = { d with table } := after_of_ok (hrun d.clock)
      refine ⟨?_, ?_, fun _ =>
        .ok (hrun d.clock) (hrun _) (.of_ticks_eq (.refl _) rfl)⟩
      · rw [hafter]
        exact ⟨.refl _, h _ _ hg⟩
      · rw [hafter]
        exact .refl _
  | error fault =>
      have hrun : ∀ clock, tryModifyTable g { d with clock } =
          .error (.fault fault) { d with clock } := by
        intro clock
        rw [tryModifyTable, getTable_bind, hg]
        rfl
      have hafter : after (tryModifyTable g) d = d := after_of_error (hrun d.clock)
      refine ⟨?_, ?_, fun _ =>
        .fault (hrun d.clock) (hrun _) (.of_ticks_eq (.refl _) rfl)⟩
      · rw [hafter]
        exact .refl _
      · rw [hafter]
        exact .refl _

/-- Where the other clock does not cancel, a step is taken. -/
theorem tick_of_not_sees (h : d.clock.advance.seesCancellation = false) :
    tick d = .ok () { d with clock := d.clock.advance } := by
  rw [tick_eq, if_neg (Bool.eq_false_iff.1 h)]

theorem after_tick (d : Draft) : after tick d = { d with clock := d.clock.advance } := by
  rw [after, tick_eq]
  by_cases hsees : d.clock.advance.seesCancellation = true
  · rw [if_pos hsees]
  · rw [if_neg hsees]

theorem paced_tick : Paced sources tick := by
  refine ⟨fun d => ⟨?_, ?_, fun {c} hspares => ?_⟩⟩
  · rw [after_tick]
    exact ⟨.refl _, ReflTransGen.refl⟩
  · rw [after_tick]
    exact d.clock.passed_advance
  cases hsees : d.clock.advance.seesCancellation with
  | false =>
      have hfull : (d.on c).clock.advance.seesCancellation = false := by
        refine Bool.eq_false_iff.2 fun hother => ?_
        exact absurd (hspares d.clock.advance.progress hother) (Bool.eq_false_iff.1 hsees)
      exact .ok (tick_of_not_sees hsees) (tick_of_not_sees hfull) (Clock.unseen_advance hsees)
  | true =>
      have hrun : tick d = .error .cancelled { d with clock := d.clock.advance } := by
        rw [tick_eq, if_pos hsees]
      refine .cancelled hrun hsees (Nat.lt_succ_self _) ?_ ?_
      · rw [after_tick]
        exact ReflTransGen.refl
      · rw [after_tick]
        exact Nat.le_refl _

theorem paced_request :
    Paced sources (modify fun d => { d with clock := d.clock.request }) :=
  ⟨fun _ => ⟨⟨.refl _, ReflTransGen.refl⟩, ⟨rfl, rfl, Nat.le_refl _⟩,
    fun _ => .ok rfl rfl (.of_ticks_eq ⟨rfl, rfl, Nat.le_refl _⟩ rfl)⟩⟩

theorem paced_intern (s : String) : Paced sources (intern s) :=
  paced_modifyGet (fun _ _ => rfl) fun d => ⟨d.names.grown_intern s, ReflTransGen.refl⟩

theorem paced_report (location : Location) (problem : Problem) :
    Paced sources (report location problem) :=
  paced_modifyTable fun t => ReflTransGen.single (.report t _)

/-- Reading what does not change with the clock. -/
theorem paced_get_bind {g : Draft → DraftM α} (htimeless : ∀ d clock, g { d with clock } = g d)
    (h : ∀ d, Paces sources (g d) d) : Paced sources (get >>= g) := by
  refine ⟨fun d => ?_⟩
  have hrun : ∀ c, (get >>= g) (d.on c) = g d (d.on c) := fun c => by
    rw [get_bind, on, htimeless]
  have hfull : ∀ c, after (get >>= g) (d.on c) = after (g d) (d.on c) := fun c => by
    rw [after, hrun, after]
  obtain ⟨hmoved, hclock, hkeeps⟩ := h d
  refine ⟨hmoved, hclock, fun {c} hspares => ?_⟩
  cases hkeeps hspares with
  | ok run full unseen => exact .ok run ((hrun c).trans full) unseen
  | fault run full unseen => exact .fault run ((hrun c).trans full) unseen
  | cancelled run seen later moves ticks_le =>
      exact .cancelled run seen later (hfull c ▸ moves) (hfull c ▸ ticks_le)

end Draft

end ManySorted
