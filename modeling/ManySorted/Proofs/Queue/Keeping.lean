import ManySorted.Proofs.Ordered
import ManySorted.Proofs.Queue

/-!
# What a diagnostic queue keeps

A configuration wants a diagnostic, given those that are kept already, if it is no error beyond the
limit and no repetition (`QueueConfig.Wants`).  A queue keeps just the wanted ones of the
diagnostics that were added since it was last flushed.

A queue need not look through its diagnostics to tell: it may count the errors as they come and
enter the keys of what it keeps into a set (`TalliedQueue`).  The count, the set and the list stay
in step whatever is added and however often the queue is flushed (`TalliedQueue.Booked`), so both
answer alike (`TalliedQueue.keeps_wanted`).
-/

namespace ManySorted

/-! ## What is wanted -/

/-- Whether a diagnostic is to be kept after others: a warning always, and an error while there are
fewer than the limit; but neither if it repeats one of them. -/
def QueueConfig.Wants (config : QueueConfig) (kept : List Diagnostic) (d : Diagnostic) : Prop :=
  (d.isError = false ∨ config.errorLimit = 0 ∨
    kept.countP Diagnostic.isError < config.errorLimit) ∧
  (config.deduplicate = true → ∀ e ∈ kept,
    ¬ (e.code = d.code ∧ e.primaryLocation = d.primaryLocation ∧ e.message = d.message))

instance (config : QueueConfig) (kept : List Diagnostic) (d : Diagnostic) :
    Decidable (config.Wants kept d) :=
  inferInstanceAs (Decidable (_ ∧ _))

/-- Those of some diagnostics that are kept when they come one after the other. -/
def QueueConfig.wanted (config : QueueConfig) (ds : List Diagnostic) : List Diagnostic :=
  ds.foldl (fun kept d => if config.Wants kept d then kept ++ [d] else kept) []

/-- What may be asked of a queue. -/
inductive QueueCall where
  | add (d : Diagnostic)
  | flush

/-- The diagnostics that were added since the last flush, if there was one. -/
def addedSince (calls : List QueueCall) : List Diagnostic :=
  calls.foldl (fun ds call =>
    match call with
    | .add d => ds ++ [d]
    | .flush => []) []

variable {config : QueueConfig} {ds : List Diagnostic} {d : Diagnostic} {calls : List QueueCall}

theorem addedSince_concat_add (calls : List QueueCall) (d : Diagnostic) :
    addedSince (calls ++ [.add d]) = addedSince calls ++ [d] := by
  rw [addedSince, List.foldl_concat]
  rfl

theorem addedSince_concat_flush (calls : List QueueCall) : addedSince (calls ++ [.flush]) = [] := by
  rw [addedSince, List.foldl_concat]

theorem QueueConfig.wanted_concat (config : QueueConfig) (ds : List Diagnostic) (d : Diagnostic) :
    config.wanted (ds ++ [d]) =
      if config.Wants (config.wanted ds) d then config.wanted ds ++ [d] else config.wanted ds := by
  rw [wanted, List.foldl_concat]
  rfl

theorem QueueConfig.sublist_wanted (config : QueueConfig) (ds : List Diagnostic) :
    (config.wanted ds).Sublist ds := by
  induction ds using List.reverseRecOn with
  | nil => exact List.Sublist.refl []
  | append_singleton ds d ih =>
      rw [wanted_concat]
      split
      · exact ih.append_right [d]
      · exact ih.trans (List.sublist_append_left ds [d])

/-! ## The order of flushed diagnostics -/

instance : Std.TransOrd Span :=
  inferInstanceAs (Std.TransCmp (compareLex (compareOn Span.start) (compareOn Span.stop)))

instance : Std.TransOrd Location :=
  inferInstanceAs (Std.TransCmp (compareLex (compareOn Location.file) (compareOn Location.span)))

namespace Diagnostic

theorem placedBefore_trans (a b c : Diagnostic) (hab : a.placedBefore b = true)
    (hbc : b.placedBefore c = true) : a.placedBefore c = true := by
  unfold placedBefore at hab hbc ⊢
  cases ha : a.primaryLocation with
  | none => rfl
  | some x =>
      cases hb : b.primaryLocation with
      | none => simp [ha, hb] at hab
      | some y =>
          cases hc : c.primaryLocation with
          | none => simp [hb, hc] at hbc
          | some z =>
              simp only [ha, hb, hc] at hab hbc ⊢
              exact Std.TransOrd.isLE_trans hab hbc

theorem placedBefore_total (a b : Diagnostic) : (a.placedBefore b || b.placedBefore a) = true := by
  unfold placedBefore
  cases a.primaryLocation with
  | none => rfl
  | some x =>
      cases b.primaryLocation with
      | none => rfl
      | some y =>
          have hswap : (compare x y).isGE = true ↔ (compare y x).isLE = true :=
            Std.OrientedCmp.isGE_iff_isLE
          rw [Bool.or_eq_true]
          refine or_iff_not_imp_left.2 fun hnot => hswap.1 ?_
          cases hcompare : compare x y <;> simp [hcompare] at hnot ⊢

theorem placedBefore_of_eq {a b : Diagnostic} (h : a.primaryLocation = b.primaryLocation) :
    a.placedBefore b = true := by
  unfold placedBefore
  rw [h]
  cases b.primaryLocation with
  | none => rfl
  | some y =>
      have hself : compare y y = .eq := Std.ReflOrd.compare_self
      simp only [hself, Ordering.isLE_eq]

end Diagnostic

/-- The diagnostics of one place keep their order when they are sorted. -/
theorem filter_mergeSort_placedBefore (ds : List Diagnostic) (place : Option Location) :
    (ds.mergeSort Diagnostic.placedBefore).filter (·.primaryLocation = place) =
      ds.filter (·.primaryLocation = place) := by
  have hplace : ∀ {e}, e ∈ ds.filter (·.primaryLocation = place) → e.primaryLocation = place :=
    fun he => of_decide_eq_true (List.mem_filter.1 he).2
  have hsorted : (ds.filter (·.primaryLocation = place)).Pairwise
      fun a b => a.placedBefore b = true := by
    refine List.pairwise_of_forall_mem_list fun a ha b hb => ?_
    exact Diagnostic.placedBefore_of_eq ((hplace ha).trans (hplace hb).symm)
  have hsub := (List.sublist_mergeSort Diagnostic.placedBefore_trans Diagnostic.placedBefore_total
    hsorted List.filter_sublist).filter (·.primaryLocation = place)
  rw [List.filter_filter, funext fun e => Bool.and_self _] at hsub
  exact (hsub.eq_of_length ((List.mergeSort_perm _ _).symm.filter _).length_eq).symm

/-! ## The queue that looks through its diagnostics -/

namespace DiagnosticQueue

/-- What a call makes of a queue. -/
def call (q : DiagnosticQueue) : QueueCall → DiagnosticQueue
  | .add d => q.add d
  | .flush => q.flush.2

/-- A queue admits what its configuration wants after the diagnostics that it has. -/
theorem admits_iff (q : DiagnosticQueue) (d : Diagnostic) :
    q.admits d = true ↔ q.config.Wants q.kept d := by
  have hlimit : (!(d.isError && q.limitReached)) = true ↔ d.isError = false ∨
      q.config.errorLimit = 0 ∨ q.kept.countP Diagnostic.isError < q.config.errorLimit := by
    rw [Bool.not_eq_true', Bool.and_eq_false_iff, limitReached, Bool.and_eq_false_iff,
      decide_eq_false_iff_not, decide_eq_false_iff_not, Nat.not_lt, Nat.le_zero, Nat.not_le]
    rfl
  have hnew : (!(q.config.deduplicate && q.kept.any d.sameAs)) = true ↔
      (q.config.deduplicate = true → ∀ e ∈ q.kept,
        ¬ (e.code = d.code ∧ e.primaryLocation = d.primaryLocation ∧ e.message = d.message)) := by
    rw [Bool.not_eq_true', Bool.and_eq_false_iff, List.any_eq_false, or_iff_not_imp_left,
      Bool.not_eq_false]
    refine imp_congr_right fun _ => forall₂_congr fun e _ => not_congr ?_
    rw [Diagnostic.sameAs_iff, Diagnostic.key, Diagnostic.key, Prod.mk.injEq, Prod.mk.injEq]
    exact ⟨fun h => ⟨h.1.symm, h.2.1.symm, h.2.2.symm⟩, fun h => ⟨h.1.symm, h.2.1.symm, h.2.2.symm⟩⟩
  rw [admits, Bool.and_eq_true, hlimit, hnew, QueueConfig.Wants]

/-- Since it was last flushed, a queue has kept what its configuration wants. -/
theorem foldl_call (config : QueueConfig) (calls : List QueueCall) :
    calls.foldl call { config } = { config, kept := config.wanted (addedSince calls) } := by
  induction calls using List.reverseRecOn with
  | nil => rfl
  | append_singleton calls last ih =>
      rw [List.foldl_concat, ih]
      cases last with
      | flush =>
          rw [addedSince_concat_flush]
          rfl
      | add d =>
          rw [addedSince_concat_add, QueueConfig.wanted_concat, call, add]
          have hadmits := admits_iff { config, kept := config.wanted (addedSince calls) } d
          by_cases hwants : config.Wants (config.wanted (addedSince calls)) d
          · rw [if_pos (hadmits.2 hwants), if_pos hwants]
          · rw [if_neg (fun h => hwants (hadmits.1 h)), if_neg hwants]

end DiagnosticQueue

/-! ## The queue that keeps a count and a set of keys -/

/-- A queue that counts its errors and enters the keys of its diagnostics into a set. -/
structure TalliedQueue where
  config : QueueConfig := {}
  /-- Oldest first. -/
  diagnostics : List Diagnostic := []
  errorCount : Nat := 0
  /-- The keys of the diagnostics, as long as repetitions are dropped. -/
  seen : Finset (DiagnosticCode × Option Location × String) := ∅

namespace TalliedQueue

def limitReached (q : TalliedQueue) : Bool :=
  0 < q.config.errorLimit && q.config.errorLimit ≤ q.errorCount

/-- Puts a diagnostic at the end of the list and counts it. -/
def append (q : TalliedQueue) (d : Diagnostic) : TalliedQueue :=
  { q with
    diagnostics := q.diagnostics ++ [d]
    errorCount := if d.isError then q.errorCount + 1 else q.errorCount }

/-- Adds a diagnostic and tells whether it is kept. -/
def add (q : TalliedQueue) (d : Diagnostic) : Bool × TalliedQueue :=
  if d.isError && q.limitReached then (false, q)
  else if q.config.deduplicate then
    if d.key ∈ q.seen then (false, q)
    else (true, { q with seen := insert d.key q.seen }.append d)
  else (true, q.append d)

/-- Hands out the diagnostics sorted by place and clears list, count and set. -/
def flush (q : TalliedQueue) : List Diagnostic × TalliedQueue :=
  (q.diagnostics.mergeSort Diagnostic.placedBefore,
    { q with diagnostics := [], errorCount := 0, seen := ∅ })

/-- What a call makes of a queue. -/
def call (q : TalliedQueue) : QueueCall → TalliedQueue
  | .add d => (q.add d).2
  | .flush => q.flush.2

/-- List, count and set are in step, and the list holds what is wanted of `ds`. -/
structure Booked (config : QueueConfig) (ds : List Diagnostic) (q : TalliedQueue) : Prop where
  config_eq : q.config = config
  diagnostics_eq : q.diagnostics = config.wanted ds
  errorCount_eq : q.errorCount = q.diagnostics.countP Diagnostic.isError
  mem_seen : ∀ k, k ∈ q.seen ↔ config.deduplicate = true ∧ ∃ e ∈ q.diagnostics, e.key = k

variable {q : TalliedQueue}

theorem booked_empty (config : QueueConfig) : Booked config [] { config } where
  config_eq := rfl
  diagnostics_eq := rfl
  errorCount_eq := rfl
  mem_seen k := by simp

/-- A diagnostic is taken for a repetition just if it repeats what is in the list. -/
theorem Booked.key_mem_seen (h : q.Booked config ds) : d.key ∈ q.seen ↔
    config.deduplicate = true ∧ ∃ e ∈ config.wanted ds,
      e.code = d.code ∧ e.primaryLocation = d.primaryLocation ∧ e.message = d.message := by
  rw [h.mem_seen, h.diagnostics_eq]
  simp only [Diagnostic.key, Prod.mk.injEq]

theorem Booked.limitReached_iff (h : q.Booked config ds) : q.limitReached = true ↔
    config.errorLimit ≠ 0 ∧
      config.errorLimit ≤ (config.wanted ds).countP Diagnostic.isError := by
  rw [limitReached, h.config_eq, h.errorCount_eq, h.diagnostics_eq, Bool.and_eq_true,
    decide_eq_true_iff, decide_eq_true_iff, Nat.pos_iff_ne_zero]

/-- Entering a new diagnostic keeps everything in step. -/
theorem Booked.append (h : q.Booked config ds) (hwants : config.Wants (config.wanted ds) d)
    {seen : Finset (DiagnosticCode × Option Location × String)}
    (hseen : ∀ k, k ∈ seen ↔ k ∈ q.seen ∨ config.deduplicate = true ∧ d.key = k) :
    Booked config (ds ++ [d]) ({ q with seen }.append d) where
  config_eq := h.config_eq
  diagnostics_eq := by
    rw [QueueConfig.wanted_concat, if_pos hwants, ← h.diagnostics_eq]
    rfl
  errorCount_eq := by
    rw [TalliedQueue.append, List.countP_append, List.countP_singleton, ← h.errorCount_eq]
    cases d.isError <;> rfl
  mem_seen k := by
    rw [TalliedQueue.append, hseen, h.mem_seen]
    simp only [List.mem_append, List.mem_singleton, or_and_right, exists_or, exists_eq_left,
      and_or_left]

/-- Leaving out what is not wanted keeps everything in step. -/
theorem Booked.skip (h : q.Booked config ds) (hwants : ¬ config.Wants (config.wanted ds) d) :
    Booked config (ds ++ [d]) q :=
  ⟨h.config_eq, by rw [QueueConfig.wanted_concat, if_neg hwants, h.diagnostics_eq],
    h.errorCount_eq, h.mem_seen⟩

/-- What is added is kept just if it is wanted. -/
theorem Booked.add (h : q.Booked config ds) (d : Diagnostic) :
    ((q.add d).1 = true ↔ config.Wants (config.wanted ds) d) ∧
      Booked config (ds ++ [d]) (q.add d).2 := by
  rw [TalliedQueue.add]
  split
  · next hbeyond =>
      -- an error beyond the limit
      rw [Bool.and_eq_true, h.limitReached_iff] at hbeyond
      have hwants : ¬ config.Wants (config.wanted ds) d := by
        rintro ⟨hwarning | hzero | hlt, -⟩
        · exact Bool.noConfusion (hwarning.symm.trans hbeyond.1)
        · exact hbeyond.2.1 hzero
        · exact Nat.not_lt.2 hbeyond.2.2 hlt
      exact ⟨iff_of_false Bool.false_ne_true hwants, h.skip hwants⟩
  · next hbelow =>
      have hlimit : d.isError = false ∨ config.errorLimit = 0 ∨
          (config.wanted ds).countP Diagnostic.isError < config.errorLimit := by
        rw [Bool.and_eq_true, h.limitReached_iff, not_and_or, Bool.not_eq_true, not_and_or,
          Decidable.not_not, Nat.not_le] at hbelow
        exact hbelow
      by_cases hdeduplicate : config.deduplicate = true
      · rw [if_pos (h.config_eq ▸ hdeduplicate)]
        split
        · next hold =>
            obtain ⟨-, e, he, hsame⟩ := h.key_mem_seen.1 hold
            have hwants : ¬ config.Wants (config.wanted ds) d :=
              fun hwants => hwants.2 hdeduplicate e he hsame
            exact ⟨iff_of_false Bool.false_ne_true hwants, h.skip hwants⟩
        · next hnew =>
            have hwants : config.Wants (config.wanted ds) d :=
              ⟨hlimit, fun _ e he hsame => hnew (h.key_mem_seen.2 ⟨hdeduplicate, e, he, hsame⟩)⟩
            refine ⟨iff_of_true rfl hwants, h.append hwants fun k => ?_⟩
            rw [Finset.mem_insert, or_comm, eq_comm, and_iff_right hdeduplicate]
      · have hwants : config.Wants (config.wanted ds) d :=
          ⟨hlimit, fun hdeduplicate' => absurd hdeduplicate' hdeduplicate⟩
        have hkeys : ∀ k, k ∈ q.seen ↔ k ∈ q.seen ∨ config.deduplicate = true ∧ d.key = k :=
          fun k => (or_iff_left fun hk => hdeduplicate hk.1).symm
        rw [if_neg (h.config_eq ▸ hdeduplicate)]
        exact ⟨iff_of_true rfl hwants, h.append hwants hkeys⟩

theorem Booked.flush_eq (h : q.Booked config ds) : q.flush.2 = { config } := by
  rw [flush, h.config_eq]

/-- Everything stays in step, whatever is added and however often the queue is flushed. -/
theorem booked_foldl_call (config : QueueConfig) (calls : List QueueCall) :
    Booked config (addedSince calls) (calls.foldl call { config }) := by
  induction calls using List.reverseRecOn with
  | nil => exact booked_empty config
  | append_singleton calls last ih =>
      rw [List.foldl_concat]
      cases last with
      | flush =>
          rw [addedSince_concat_flush, call, ih.flush_eq]
          exact booked_empty config
      | add d =>
          rw [addedSince_concat_add]
          exact (ih.add d).2

/-- After any calls a queue has kept just what is wanted of the diagnostics that were added since it
was last flushed, in their order, and the number of its errors is right.  It keeps another
diagnostic just if that is wanted.  Flushing hands out what is kept, sorted by place but otherwise
in the same order, and leaves a fresh queue.  In all this it makes no difference whether the queue
looks through its diagnostics or keeps a count and a set of keys. -/
theorem keeps_wanted (config : QueueConfig) (calls : List QueueCall) :
    let kept := config.wanted (addedSince calls)
    let q : TalliedQueue := calls.foldl call { config }
    let q' : DiagnosticQueue := calls.foldl DiagnosticQueue.call { config }
    kept.Sublist (addedSince calls) ∧
    (∀ d, ((q.add d).1 = true ↔ config.Wants kept d) ∧
      (q.add d).2.diagnostics = kept ++ if config.Wants kept d then [d] else []) ∧
    q.diagnostics = kept ∧ q.errorCount = kept.countP Diagnostic.isError ∧
    q.flush.1.Perm kept ∧ q.flush.1.Pairwise (fun a b => a.placedBefore b = true) ∧
    (∀ place, q.flush.1.filter (·.primaryLocation = place) =
      kept.filter (·.primaryLocation = place)) ∧
    q.flush.2 = { config } ∧
    (∀ d, q'.admits d = (q.add d).1) ∧ q'.kept = q.diagnostics ∧ q'.errorCount = q.errorCount ∧
    q'.limitReached = q.limitReached ∧ q'.flush = (q.flush.1, { config }) := by
  intro kept q q'
  have hbooked : q.Booked config (addedSince calls) := booked_foldl_call config calls
  have hq' : q' = { config, kept } := DiagnosticQueue.foldl_call config calls
  have hdiagnostics : q.diagnostics = kept := hbooked.diagnostics_eq
  have hcount : q.errorCount = kept.countP Diagnostic.isError :=
    hbooked.errorCount_eq.trans (by rw [hdiagnostics])
  have hflush : q.flush.1 = kept.mergeSort Diagnostic.placedBefore := by
    rw [flush, hdiagnostics]
  refine ⟨config.sublist_wanted _, fun d => ⟨(hbooked.add d).1, ?_⟩, hdiagnostics, hcount, ?_, ?_,
    fun place => ?_, hbooked.flush_eq, fun d => ?_, ?_, ?_, ?_, ?_⟩
  · rw [(hbooked.add d).2.diagnostics_eq, QueueConfig.wanted_concat]
    split
    · rfl
    · exact (List.append_nil _).symm
  · exact hflush ▸ List.mergeSort_perm _ _
  · exact hflush ▸ List.pairwise_mergeSort Diagnostic.placedBefore_trans
      Diagnostic.placedBefore_total _
  · rw [hflush, filter_mergeSort_placedBefore]
  · rw [Bool.eq_iff_iff, DiagnosticQueue.admits_iff, (hbooked.add d).1, hq']
  · rw [hq', hdiagnostics]
  · rw [hq', hcount]
    rfl
  · rw [hq', TalliedQueue.limitReached, hbooked.config_eq, hcount]
    rfl
  · rw [hq', hflush]
    rfl

end TalliedQueue

end ManySorted
