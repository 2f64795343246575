import ManySorted.Proofs.Draft.Safety

/-!
# What a pass that ends has done

A pass that ends has done certain things to the draft, whatever problems it reported on the way
(`Draft.Ends`).  `Draft.Safe` says that a pass ends, and `Draft.Establishes` speaks of passes that
report no errors; here a pass is taken to end, and its effect is described exactly, reports
included.
-/

namespace ManySorted

namespace Draft

variable {α β : Type} {x : DraftM α} {f : α → DraftM β} {C P P' : Draft → Prop}
  {Q Q' : α → Draft → Prop} {R : β → Draft → Prop}

/-- From every draft with `P`, a run that ends leads to a draft with `Q`. -/
def Ends (P : Draft → Prop) (x : DraftM α) (Q : α → Draft → Prop) : Prop :=
  ∀ d a d', P d → x d = .ok a d' → Q a d'

theorem Safe.ends (hx : Safe C P x Q) : Ends P x Q := fun _ _ _ hd hrun => hx.ok hd hrun

namespace Ends

/-- Two accounts of one pass. -/
theorem and (hx : Ends P x Q) (hx' : Ends P' x Q') :
    Ends (fun d => P d ∧ P' d) x fun a d => Q a d ∧ Q' a d :=
  fun d a d' hd hrun => ⟨hx d a d' hd.1 hrun, hx' d a d' hd.2 hrun⟩

theorem imp (hx : Ends P x Q) (hP : ∀ d, P' d → P d) (hQ : ∀ a d, Q a d → Q' a d) :
    Ends P' x Q' := fun d a d' hd hrun => hQ a d' (hx d a d' (hP d hd) hrun)

theorem bind (hx : Ends P x Q) (hf : ∀ a, Ends (Q a) (f a) R) : Ends P (x >>= f) R := by
  intro d b d'' hd hrun
  obtain ⟨a, d', hx', hf'⟩ := bind_eq_ok.1 hrun
  exact hf a d' b d'' (hx d a d' hd hx') hf'

theorem ite {c : Prop} [Decidable c] {y : DraftM α} (hx : c → Ends P x Q) (hy : ¬ c → Ends P y Q) :
    Ends P (if c then x else y) Q := by
  split
  · exact hx ‹_›
  · exact hy ‹_›

theorem discard (hx : Ends P x Q) {R : Unit → Draft → Prop} (h : ∀ a d, Q a d → R () d) :
    Ends P (discard x) R := by
  refine bind (f := fun _ => pure ()) hx fun a d b d' hd hrun => ?_
  cases hrun
  exact h a d hd

end Ends

/-! ## Steps -/

theorem ends_pure {a : α} (h : ∀ d, P d → Q a d) : Ends P (pure a) Q := by
  intro d b d' hd hrun
  cases hrun
  exact h d hd

theorem ends_getTable_bind {g : Table → DraftM β}
    (h : ∀ t, Ends (fun d => P d ∧ d.table = t) (g t) R) : Ends P (getTable >>= g) R :=
  fun d b d' hd hrun => h d.table d b d' ⟨hd, rfl⟩ hrun

theorem ends_getNames_bind {g : Interner → DraftM β}
    (h : ∀ names, Ends (fun d => P d ∧ d.names = names) (g names) R) :
    Ends P (getNames >>= g) R :=
  fun d b d' hd hrun => h d.names d b d' ⟨hd, rfl⟩ hrun

theorem ends_get_bind {g : Draft → DraftM β}
    (h : ∀ start, Ends (fun d => P d ∧ d = start) (g start) R) : Ends P (get >>= g) R :=
  fun d b d' hd hrun => h d d b d' ⟨hd, rfl⟩ hrun

theorem ends_modifyGet {g : Draft → α × Draft} (h : ∀ d, P d → Q (g d).1 (g d).2) :
    Ends P (modifyGet g) Q := by
  intro d a d' hd hrun
  cases hrun
  exact h d hd

theorem ends_modify {g : Draft → Draft} {Q : Unit → Draft → Prop} (h : ∀ d, P d → Q () (g d)) :
    Ends P (modify g) Q := by
  intro d a d' hd hrun
  cases hrun
  exact h d hd

theorem ends_modifyTable {g : Table → Table} {Q : Unit → Draft → Prop}
    (h : ∀ d, P d → Q () { d with table := g d.table }) : Ends P (modifyTable g) Q :=
  ends_modify h

theorem ends_tryModifyTable {g : Table → Except Fault Table} {Q : Unit → Draft → Prop}
    (h : ∀ d table, P d → g d.table = .ok table → Q () { d with table }) :
    Ends P (tryModifyTable g) Q := by
  intro d a d' hd hrun
  rw [tryModifyTable, getTable_bind] at hrun
  cases hg : g d.table with
  | ok table =>
      rw [hg] at hrun
      cases hrun
      exact h d table hd hg
  | error fault =>
      rw [hg] at hrun
      cases hrun

/-- A step on the clock does nothing else. -/
theorem ends_tick (hclock : ∀ d clock, P d → P { d with clock }) : Ends P tick fun _ => P :=
  (safe_tick_of (C := P) hclock fun _ hd => hd).ends

/-! ## Lists of steps -/

theorem ends_forM {g : α → DraftM PUnit} {motive : List α → Draft → Prop} {l : List α}
    (step : ∀ done a rest, l = done ++ a :: rest →
      Ends (motive done) (g a) fun _ => motive (done ++ [a])) :
    Ends (motive []) (l.forM g) fun _ => motive l := by
  have hall : ∀ (rest done : List α), l = done ++ rest →
      Ends (motive done) (rest.forM g) fun _ => motive l := by
    intro rest
    induction rest with
    | nil =>
        intro done hl
        rw [List.append_nil] at hl
        exact ends_pure fun d hd => hl ▸ hd
    | cons a rest ih =>
        intro done hl
        refine (step done a rest hl).bind fun _ => ih (done ++ [a]) ?_
        rw [hl, List.append_assoc, List.singleton_append]
  exact hall l [] rfl

/-- The steps of a list, each given what those before it have done and handed on. -/
theorem ends_foldlM {g : β → α → DraftM β} {motive : List α → β → Draft → Prop} {l : List α}
    (step : ∀ done b a rest, l = done ++ a :: rest →
      Ends (motive done b) (g b a) (motive (done ++ [a]))) (b : β) :
    Ends (motive [] b) (l.foldlM g b) (motive l) := by
  have hall : ∀ (rest done : List α) (b : β), l = done ++ rest →
      Ends (motive done b) (rest.foldlM g b) (motive l) := by
    intro rest
    induction rest with
    | nil =>
        intro done b hl
        rw [List.append_nil] at hl
        exact ends_pure fun d hd => hl ▸ hd
    | cons a rest ih =>
        intro done b hl
        refine (step done b a rest hl).bind fun b' => ih (done ++ [a]) b' ?_
        rw [hl, List.append_assoc, List.singleton_append]
  exact hall l [] b rfl

/-- The steps of a list, each given what those before it have done and returned. -/
theorem ends_mapM {g : α → DraftM β} {motive : List α → List β → Draft → Prop} {l : List α}
    (step : ∀ done bs a rest, l = done ++ a :: rest →
      Ends (motive done bs) (g a) fun b => motive (done ++ [a]) (bs ++ [b])) :
    Ends (motive [] []) (l.mapM g) (motive l) := by
  have hall : ∀ (rest done : List α) (bs : List β), l = done ++ rest →
      Ends (motive done bs) (rest.mapM g) fun bs' => motive l (bs ++ bs') := by
    intro rest
    induction rest with
    | nil =>
        intro done bs hl
        rw [List.append_nil] at hl
        rw [List.mapM_nil]
        refine ends_pure fun d hd => ?_
        rw [List.append_nil, hl]
        exact hd
    | cons a rest ih =>
        intro done bs hl
        rw [List.mapM_cons]
        refine (step done bs a rest hl).bind fun b => ?_
        refine (ih (done ++ [a]) (bs ++ [b]) ?_).bind fun bs' => ends_pure fun d hd => ?_
        · rw [hl, List.append_assoc, List.singleton_append]
        · rwa [List.append_assoc, List.singleton_append] at hd
  exact hall l [] [] rfl

/-- The same for steps that may return nothing. -/
theorem ends_filterMapM {g : α → DraftM (Option β)} {motive : List α → List β → Draft → Prop}
    {l : List α}
    (step : ∀ done bs a rest, l = done ++ a :: rest →
      Ends (motive done bs) (g a) fun b => motive (done ++ [a]) (bs ++ b.toList)) :
    Ends (motive [] []) (l.filterMapM g) (motive l) := by
  have hall : ∀ (rest done : List α) (bs : List β), l = done ++ rest →
      Ends (motive done bs) (rest.filterMapM g) fun bs' => motive l (bs ++ bs') := by
    intro rest
    induction rest with
    | nil =>
        intro done bs hl
        rw [List.append_nil] at hl
        rw [List.filterMapM_nil]
        refine ends_pure fun d hd => ?_
        rw [List.append_nil, hl]
        exact hd
    | cons a rest ih =>
        intro done bs hl
        have hl' : l = (done ++ [a]) ++ rest := by
          rw [hl, List.append_assoc, List.singleton_append]
        rw [List.filterMapM_cons]
        refine (step done bs a rest hl).bind fun b => ?_
        cases b with
        | none =>
            rw [Option.toList_none, List.append_nil]
            exact ih (done ++ [a]) bs hl'
        | some b =>
            rw [Option.toList_some]
            refine (ih (done ++ [a]) (bs ++ [b]) hl').bind fun bs' => ends_pure fun d hd => ?_
            rwa [List.append_assoc, List.singleton_append] at hd
  exact hall l [] [] rfl

end Draft

end ManySorted
