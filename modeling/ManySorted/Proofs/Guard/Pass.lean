import ManySorted.Proofs.Draft.Ending

/-!
# Runs that halt where something is missing

The checker reads what is not there as a default, and writes nothing where nothing is.  That it
never does either cannot be seen from its results, so it is said of a second run: a guarded run does
what the checker does, but halts where a handle or a place is out of range (`Halt.missing`).  It is
shown to be the same run.

## Strategy

* A read or a write of a table is guarded by an option.  Each function that reads or writes has a
  counterpart of the same name with a question mark, in which every access is guarded, and the two
  agree wherever the handles that they are given are in range.
* A pass is guarded by one more reason to stop (`GuardedM`).  A guarded pass agrees with a pass from
  certain drafts (`Draft.Agrees`) if it halts from none of them and does the same.
* Two passes in a row agree if the first ones agree, and the second ones agree from all drafts that
  the first one can lead to (`Draft.Agrees.bind`).  Which these are is what is known of the passes
  already, by `Draft.Ends` or `Draft.Safe`.
-/

namespace ManySorted

/-- Why a guarded pass stops early. -/
inductive Halt where
  /-- A handle or a place is out of range, or a handle is not the one that was promised. -/
  | missing
  /-- What stops the pass itself. -/
  | abort (abort : Abort)

/-- A pass that halts where something is missing. -/
abbrev GuardedM := EStateM Halt Draft

instance : MonadLift DraftM GuardedM := ⟨EStateM.adaptExcept Halt.abort⟩

instance : MonadLift Option GuardedM where
  monadLift
    | some a => pure a
    | none => throw .missing

namespace Draft

variable {α β : Type} {x : DraftM α} {f : α → DraftM β} {x? : GuardedM α} {f? : α → GuardedM β}
  {P P' : Draft → Prop} {Q : α → Draft → Prop}

/-- From every draft with `P` the guarded pass does what the pass does. -/
def Agrees (P : Draft → Prop) (x? : GuardedM α) (x : DraftM α) : Prop :=
  ∀ d, P d → x? d = (liftM x : GuardedM α) d

theorem Agrees.imp (h : Agrees P x? x) (hP : ∀ d, P' d → P d) : Agrees P' x? x :=
  fun d hd => h d (hP d hd)

/-! ## Putting passes together -/

theorem agrees_lift (P : Draft → Prop) (x : DraftM α) : Agrees P (liftM x) x := fun _ _ => rfl

theorem agrees_pure (P : Draft → Prop) (a : α) : Agrees P (pure a) (pure a) := fun _ _ => rfl

theorem lift_of_ok {d d' : Draft} {a : α} (h : x d = .ok a d') :
    (liftM x : GuardedM α) d = .ok a d' := by
  change EStateM.adaptExcept Halt.abort x d = _
  rw [EStateM.adaptExcept, h]

theorem lift_of_error {d d' : Draft} {abort : Abort} (h : x d = .error abort d') :
    (liftM x : GuardedM α) d = .error (.abort abort) d' := by
  change EStateM.adaptExcept Halt.abort x d = _
  rw [EStateM.adaptExcept, h]

theorem Agrees.bind (hx : Agrees P x? x) (hends : Ends P x Q)
    (hf : ∀ a, Agrees (Q a) (f? a) (f a)) : Agrees P (x? >>= f?) (x >>= f) := by
  intro d hd
  change EStateM.bind x? f? d = _
  rw [EStateM.bind, hx d hd]
  cases hrun : x d with
  | ok a d' =>
      rw [lift_of_ok hrun]
      dsimp only
      rw [hf a d' (hends d a d' hd hrun)]
      cases hnext : f a d' with
      | ok b d'' => rw [lift_of_ok hnext, lift_of_ok ((bind_of_ok hrun).trans hnext)]
      | error abort d'' => rw [lift_of_error hnext, lift_of_error ((bind_of_ok hrun).trans hnext)]
  | error abort d' => rw [lift_of_error hrun, lift_of_error (bind_of_error hrun)]

/-- A result that is put together at the end needs no guard. -/
theorem Agrees.bind_pure (hx : Agrees P x? x) (g : α → β) :
    Agrees P (x? >>= fun a => pure (g a)) (x >>= fun a => pure (g a)) :=
  hx.bind (Q := fun _ _ => True) (fun _ _ _ _ _ => trivial) fun a => agrees_pure _ (g a)

theorem Agrees.discard (hx : Agrees P x? x) :
    Agrees P (Functor.discard x?) (Functor.discard x) := by
  intro d hd
  change EStateM.map (Function.const α PUnit.unit) x? d =
    EStateM.adaptExcept Halt.abort (EStateM.map (Function.const α PUnit.unit) x) d
  rw [EStateM.map, hx d hd, EStateM.adaptExcept, EStateM.map]
  cases hrun : x d with
  | ok a d' => rw [lift_of_ok hrun]
  | error abort d' => rw [lift_of_error hrun]

/-- A pass that needs no guard. -/
theorem agrees_lift_bind (hends : Ends P x Q) (hf : ∀ a, Agrees (Q a) (f? a) (f a)) :
    Agrees P (liftM x >>= f?) (x >>= f) := (agrees_lift P x).bind hends hf

theorem agrees_getTable_bind {g? : Table → GuardedM β} {g : Table → DraftM β}
    (h : ∀ t, Agrees (fun d => P d ∧ d.table = t) (g? t) (g t)) :
    Agrees P (liftM getTable >>= g?) (getTable >>= g) := fun d hd => h d.table d ⟨hd, rfl⟩

theorem agrees_getNames_bind {g? : Interner → GuardedM β} {g : Interner → DraftM β}
    (h : ∀ names, Agrees (fun d => P d ∧ d.names = names) (g? names) (g names)) :
    Agrees P (liftM getNames >>= g?) (getNames >>= g) := fun d hd => h d.names d ⟨hd, rfl⟩

theorem agrees_get_bind {g? : Draft → GuardedM β} {g : Draft → DraftM β}
    (h : ∀ start, Agrees (fun d => P d ∧ d = start) (g? start) (g start)) :
    Agrees P (get >>= g?) (get >>= g) := fun d hd => h d d ⟨hd, rfl⟩

/-- What is read is there. -/
theorem agrees_read_bind {read : Option α} {a : α} {y : DraftM β}
    (hread : ∀ d, P d → read = some a) (h : Agrees P (f? a) y) :
    Agrees P (liftM read >>= f?) y := by
  intro d hd
  rw [hread d hd]
  exact h d hd

theorem Agrees.ite {c : Prop} [Decidable c] {y? : GuardedM α} {y : DraftM α}
    (hx : c → Agrees P x? x) (hy : ¬ c → Agrees P y? y) :
    Agrees P (if c then x? else y?) (if c then x else y) := by
  split
  · exact hx ‹_›
  · exact hy ‹_›

/-! ## Changing the table -/

/-- Changes the draft by a step that may miss something. -/
def modifyGet? (f? : Draft → Option (α × Draft)) : GuardedM α := do
  let (a, d) ← f? (← get)
  set d
  return a

def modifyTable? (f? : Table → Option Table) : GuardedM Unit :=
  modifyGet? fun d => (f? d.table).map fun table => ((), { d with table })

/-- Changes the table by a step that may miss something or break an invariant. -/
def tryModifyTable? (f? : Table → Option (Except Fault Table)) : GuardedM Unit := do
  match ← f? (← getTable) with
  | .ok table => modifyTable fun _ => table
  | .error fault => throw (.abort (.fault fault))

theorem agrees_modifyGet {g? : Draft → Option (α × Draft)} {g : Draft → α × Draft}
    (h : ∀ d, P d → g? d = some (g d)) : Agrees P (modifyGet? g?) (modifyGet g) :=
  agrees_get_bind fun start => agrees_read_bind (fun d hd => hd.2 ▸ h d hd.1)
    fun d hd => by rw [hd.2]; rfl

theorem agrees_modifyTable {g? : Table → Option Table} {g : Table → Table}
    (h : ∀ d, P d → g? d.table = some (g d.table)) : Agrees P (modifyTable? g?) (modifyTable g) :=
  agrees_modifyGet fun d hd => by rw [h d hd]; rfl

theorem agrees_tryModifyTable {g? : Table → Option (Except Fault Table)}
    {g : Table → Except Fault Table} (h : ∀ d, P d → g? d.table = some (g d.table)) :
    Agrees P (tryModifyTable? g?) (tryModifyTable g) := by
  refine agrees_getTable_bind fun t => agrees_read_bind (a := g t) (fun d hd => ?_) ?_
  · rw [← hd.2]
    exact h d hd.1
  · cases g t with
    | ok table => exact agrees_lift _ _
    | error fault => exact fun _ _ => rfl

/-! ## Lists of steps -/

section

variable {l : List α}

theorem agrees_foldlM {g? : β → α → GuardedM β} {g : β → α → DraftM β}
    {motive : List α → β → Draft → Prop}
    (step : ∀ done b a rest, l = done ++ a :: rest → Agrees (motive done b) (g? b a) (g b a) ∧
      Ends (motive done b) (g b a) (motive (done ++ [a]))) (b : β) :
    Agrees (motive [] b) (l.foldlM g? b) (l.foldlM g b) := by
  have hall : ∀ (rest done : List α) (b : β), l = done ++ rest →
      Agrees (motive done b) (rest.foldlM g? b) (rest.foldlM g b) := by
    intro rest
    induction rest with
    | nil => exact fun _ b _ => agrees_pure _ b
    | cons a rest ih =>
        intro done b hl
        obtain ⟨hagrees, hends⟩ := step done b a rest hl
        refine hagrees.bind hends fun b' => ih (done ++ [a]) b' ?_
        rw [hl, List.append_assoc, List.singleton_append]
  exact hall l [] b rfl

theorem agrees_forM {g? : α → GuardedM PUnit} {g : α → DraftM PUnit}
    {motive : List α → Draft → Prop}
    (step : ∀ done a rest, l = done ++ a :: rest → Agrees (motive done) (g? a) (g a) ∧
      Ends (motive done) (g a) fun _ => motive (done ++ [a])) :
    Agrees (motive []) (l.forM g?) (l.forM g) := by
  have hall : ∀ (rest done : List α), l = done ++ rest →
      Agrees (motive done) (rest.forM g?) (rest.forM g) := by
    intro rest
    induction rest with
    | nil => exact fun _ _ => agrees_pure _ _
    | cons a rest ih =>
        intro done hl
        obtain ⟨hagrees, hends⟩ := step done a rest hl
        refine hagrees.bind hends fun _ => ih (done ++ [a]) ?_
        rw [hl, List.append_assoc, List.singleton_append]
  exact hall l [] rfl

theorem agrees_mapM {g? : α → GuardedM β} {g : α → DraftM β}
    {motive : List α → List β → Draft → Prop}
    (step : ∀ done bs a rest, l = done ++ a :: rest → Agrees (motive done bs) (g? a) (g a) ∧
      Ends (motive done bs) (g a) fun b => motive (done ++ [a]) (bs ++ [b])) :
    Agrees (motive [] []) (l.mapM g?) (l.mapM g) := by
  have hall : ∀ (rest done : List α) (bs : List β), l = done ++ rest →
      Agrees (motive done bs) (rest.mapM g?) (rest.mapM g) := by
    intro rest
    induction rest with
    | nil =>
        intro done bs _
        rw [List.mapM_nil, List.mapM_nil]
        exact agrees_pure _ _
    | cons a rest ih =>
        intro done bs hl
        obtain ⟨hagrees, hends⟩ := step done bs a rest hl
        rw [List.mapM_cons, List.mapM_cons]
        refine hagrees.bind hends fun b => (ih (done ++ [a]) (bs ++ [b]) ?_).bind_pure _
        rw [hl, List.append_assoc, List.singleton_append]
  exact hall l [] [] rfl

theorem agrees_filterMapM {g? : α → GuardedM (Option β)} {g : α → DraftM (Option β)}
    {motive : List α → List β → Draft → Prop}
    (step : ∀ done bs a rest, l = done ++ a :: rest → Agrees (motive done bs) (g? a) (g a) ∧
      Ends (motive done bs) (g a) fun b => motive (done ++ [a]) (bs ++ b.toList)) :
    Agrees (motive [] []) (l.filterMapM g?) (l.filterMapM g) := by
  have hall : ∀ (rest done : List α) (bs : List β), l = done ++ rest →
      Agrees (motive done bs) (rest.filterMapM g?) (rest.filterMapM g) := by
    intro rest
    induction rest with
    | nil =>
        intro done bs _
        rw [List.filterMapM_nil, List.filterMapM_nil]
        exact agrees_pure _ _
    | cons a rest ih =>
        intro done bs hl
        obtain ⟨hagrees, hends⟩ := step done bs a rest hl
        have hl' : l = (done ++ [a]) ++ rest := by
          rw [hl, List.append_assoc, List.singleton_append]
        rw [List.filterMapM_cons, List.filterMapM_cons]
        refine hagrees.bind hends fun b => ?_
        cases b with
        | none => exact ih (done ++ [a]) _ hl'
        | some b =>
            exact (ih (done ++ [a]) _ hl').bind_pure _
  exact hall l [] [] rfl

/-- Filtering by a test that leaves what is known of the draft as it is. -/
theorem agrees_filterM {g? : α → GuardedM Bool} {g : α → DraftM Bool}
    (step : ∀ a ∈ l, Agrees P (g? a) (g a) ∧ Ends P (g a) fun _ => P) :
    Agrees P (l.filterM g?) (l.filterM g) := by
  have hall : ∀ (rest kept : List α), (∀ a ∈ rest, a ∈ l) →
      Agrees P (rest.filterAuxM g? kept) (rest.filterAuxM g kept) := by
    intro rest
    induction rest with
    | nil => exact fun kept _ => agrees_pure _ kept
    | cons a rest ih =>
        intro kept hmem
        obtain ⟨hagrees, hends⟩ := step a (hmem a List.mem_cons_self)
        exact hagrees.bind hends fun keep => ih _ fun b hb => hmem b (List.mem_cons_of_mem _ hb)
  exact (hall l [] fun _ ha => ha).bind_pure _

end

end Draft

/-! ## Checks between reads -/

section

variable {α : Type} {p : Prop} [Decidable p] {rest : Option α}

theorem guard_bind (hp : p) (rest : Option α) : (guard p >>= fun _ => rest) = rest := by
  have hguard : (guard p : Option Unit) = some () := if_pos hp
  rw [hguard]
  rfl

theorem guard_bind_eq_some {a : α} (h : (guard p >>= fun _ => rest) = some a) :
    p ∧ rest = some a := by
  by_cases hp : p
  · rw [guard_bind hp] at h
    exact ⟨hp, h⟩
  · have hguard : (guard p : Option Unit) = none := if_neg hp
    rw [hguard] at h
    cases h

end

/-! ## Lists of reads -/

section

variable {α β : Type} {l : List α}

theorem mapM_eq_some {f? : α → Option β} {f : α → β} (h : ∀ a ∈ l, f? a = some (f a)) :
    l.mapM f? = some (l.map f) := by
  induction l with
  | nil => rfl
  | cons a rest ih =>
      rw [List.mapM_cons, h a List.mem_cons_self, ih fun b hb => h b (List.mem_cons_of_mem a hb)]
      rfl

theorem mapM_eq_some_filterMap {f? : α → Option β} (h : ∀ a ∈ l, (f? a).isSome = true) :
    l.mapM f? = some (l.filterMap f?) := by
  induction l with
  | nil => rfl
  | cons a rest ih =>
      obtain ⟨b, hb⟩ := Option.isSome_iff_exists.1 (h a List.mem_cons_self)
      rw [List.mapM_cons, hb, ih fun a' ha' => h a' (List.mem_cons_of_mem a ha'),
        List.filterMap_cons_some hb]
      rfl

theorem filterMapM_eq_some {f? : α → Option (Option β)} {f : α → Option β}
    (h : ∀ a ∈ l, f? a = some (f a)) : l.filterMapM f? = some (l.filterMap f) := by
  induction l with
  | nil => rfl
  | cons a rest ih =>
      rw [List.filterMapM_cons, h a List.mem_cons_self,
        ih fun b hb => h b (List.mem_cons_of_mem a hb), List.filterMap_cons]
      cases f a <;> rfl

/-- The steps of a fold, each given what those before it have made. -/
theorem foldlM_eq_some {f? : β → α → Option β} {f : β → α → β} {motive : β → Prop} {b : β}
    (hb : motive b)
    (step : ∀ b a, a ∈ l → motive b → f? b a = some (f b a) ∧ motive (f b a)) :
    l.foldlM f? b = some (l.foldl f b) ∧ motive (l.foldl f b) := by
  induction l generalizing b with
  | nil => exact ⟨rfl, hb⟩
  | cons a rest ih =>
      obtain ⟨hstep, hnext⟩ := step b a List.mem_cons_self hb
      rw [List.foldlM_cons, hstep, List.foldl_cons]
      exact ih hnext fun b a ha => step b a (List.mem_cons_of_mem _ ha)

/-- Filtering by a test that reads. -/
theorem filterM_eq_some {f? : α → Option Bool} {f : α → Bool} (h : ∀ a ∈ l, f? a = some (f a)) :
    l.filterM f? = some (l.filter f) := by
  have hall : ∀ (rest kept : List α), (∀ a ∈ rest, f? a = some (f a)) →
      rest.filterAuxM f? kept = some ((rest.filter f).reverse ++ kept) := by
    intro rest
    induction rest with
    | nil => exact fun _ _ => rfl
    | cons a rest ih =>
        intro kept h
        rw [List.filterAuxM, h a List.mem_cons_self]
        refine (ih _ fun b hb => h b (List.mem_cons_of_mem a hb)).trans ?_
        cases hkeep : f a <;> simp [hkeep]
  rw [List.filterM, hall l [] h]
  simp

theorem anyM_eq_some {f? : α → Option Bool} {f : α → Bool} (h : ∀ a ∈ l, f? a = some (f a)) :
    l.anyM f? = some (l.any f) := by
  induction l with
  | nil => rfl
  | cons a rest ih =>
      rw [List.anyM, h a List.mem_cons_self]
      cases hany : f a with
      | true => simp [hany]
      | false => simpa [hany] using ih fun b hb => h b (List.mem_cons_of_mem a hb)

end

/-! ## Steps that may break an invariant -/

section

variable {ε α β : Type} {x? : ExceptT ε Option α} {x : Except ε α}

/-- Two guarded steps in a row, the second one given what the first one made. -/
theorem run_bind_eq_some {f? : α → ExceptT ε Option β} {f : α → Except ε β}
    (hx : x?.run = some x) (hf : ∀ a, x = .ok a → (f? a).run = some (f a)) :
    (x? >>= f?).run = some (x >>= f) := by
  rw [ExceptT.run_bind, hx]
  cases x with
  | ok a => exact hf a rfl
  | error e => rfl

/-- What is read is there. -/
theorem run_read_eq_some {read : Option α} {a : α} {f? : α → ExceptT ε Option β} {y : Except ε β}
    (hread : read = some a) (hf : (f? a).run = some y) :
    ((liftM read : ExceptT ε Option α) >>= f?).run = some y := by
  rw [hread]
  exact hf

theorem run_foldlM_eq_some {f? : β → α → ExceptT ε Option β} {f : β → α → Except ε β}
    {motive : β → Prop} {l : List α} {b : β} (hb : motive b)
    (step : ∀ b a, a ∈ l → motive b → (f? b a).run = some (f b a) ∧
      ∀ b', f b a = .ok b' → motive b') : (l.foldlM f? b).run = some (l.foldlM f b) := by
  induction l generalizing b with
  | nil => rfl
  | cons a rest ih =>
      obtain ⟨hstep, hnext⟩ := step b a List.mem_cons_self hb
      rw [List.foldlM_cons, List.foldlM_cons]
      exact run_bind_eq_some hstep fun b' hb' => ih (hnext b' hb') fun b a ha =>
        step b a (List.mem_cons_of_mem _ ha)

theorem run_forM_eq_some {f? : α → ExceptT ε Option PUnit} {f : α → Except ε PUnit} {l : List α}
    (step : ∀ a ∈ l, (f? a).run = some (f a)) : (l.forM f?).run = some (l.forM f) := by
  induction l with
  | nil => rfl
  | cons a rest ih =>
      exact run_bind_eq_some (step a List.mem_cons_self) fun _ _ =>
        ih fun b hb => step b (List.mem_cons_of_mem _ hb)

end

end ManySorted
