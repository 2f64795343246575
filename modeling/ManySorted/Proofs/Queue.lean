import ManySorted.Diagnostic.Queue
import Mathlib.Data.Finset.Card
import Mathlib.Data.Finset.Dedup

/-!
# What a diagnostic queue counts

A queue that drops repetitions keeps one error for each key, a key being the code, the place and the
message, until the limit is reached (`DiagnosticQueue.Tallies`).  So it keeps as many errors as
there are keys, or as many as the limit allows (`DiagnosticQueue.errorCount_foldl_add`).
-/

namespace ManySorted

/-- What diagnostics are told apart by. -/
def Diagnostic.key (d : Diagnostic) : DiagnosticCode × Option Location × String :=
  (d.code, d.primaryLocation, d.message)

/-- The keys of the errors among diagnostics. -/
def errorKeys (ds : List Diagnostic) : List (DiagnosticCode × Option Location × String) :=
  (ds.filter Diagnostic.isError).map Diagnostic.key

/-- The codes of diagnostics tell which of them are errors. -/
def Graded (ds : List Diagnostic) : Prop := ∀ d ∈ ds, d.isError = !d.code.isWarning

/-- A number that a limit cuts, unless the limit is zero. -/
def cutAt (limit n : Nat) : Nat := if limit = 0 then n else min n limit

variable {d : Diagnostic} {ds : List Diagnostic} {q : DiagnosticQueue}

theorem Diagnostic.sameAs_iff {a b : Diagnostic} : a.sameAs b = true ↔ a.key = b.key := by
  simp [sameAs, key, and_assoc]

theorem mem_errorKeys {k : DiagnosticCode × Option Location × String} :
    k ∈ errorKeys ds ↔ ∃ d ∈ ds, d.isError = true ∧ d.key = k := by
  simp [errorKeys, and_assoc]

theorem errorKeys_append (ds ds' : List Diagnostic) :
    errorKeys (ds ++ ds') = errorKeys ds ++ errorKeys ds' := by
  simp [errorKeys]

theorem errorKeys_of_isError (h : d.isError = true) : errorKeys [d] = [d.key] := by
  simp [errorKeys, h]

theorem errorKeys_of_not_isError (h : d.isError = false) : errorKeys [d] = [] := by
  simp [errorKeys, h]

namespace DiagnosticQueue

theorem errorCount_eq_length (q : DiagnosticQueue) : q.errorCount = (errorKeys q.kept).length := by
  rw [errorCount, errorKeys, List.length_map, List.countP_eq_length_filter]

/-- What a queue has kept of the diagnostics that were added. -/
structure Tallies (q : DiagnosticQueue) (ds : List Diagnostic) : Prop where
  nodup : (errorKeys q.kept).Nodup
  mem : ∀ d ∈ q.kept, d ∈ ds
  bounded : 0 < q.config.errorLimit → q.errorCount ≤ q.config.errorLimit
  complete : q.limitReached = true ∨ ∀ k ∈ errorKeys ds, k ∈ errorKeys q.kept

theorem tallies_nil (config : QueueConfig) : Tallies { config } [] :=
  ⟨List.nodup_nil, fun _ hd => absurd hd List.not_mem_nil, fun _ => Nat.zero_le _,
    .inr fun _ hk => absurd hk List.not_mem_nil⟩

/-- What is not admitted says nothing new, or it is beyond the limit. -/
theorem Tallies.skip (h : q.Tallies ds)
    (hd : q.limitReached = true ∨ ∀ k ∈ errorKeys [d], k ∈ errorKeys q.kept) :
    q.Tallies (ds ++ [d]) := by
  refine ⟨h.nodup, fun e he => List.mem_append_left _ (h.mem e he), h.bounded, ?_⟩
  rcases h.complete with hreached | hcomplete
  · exact .inl hreached
  · refine hd.imp_right fun hd k hk => ?_
    rw [errorKeys_append, List.mem_append] at hk
    exact hk.elim (hcomplete k) (hd k)

/-- What is admitted is kept. -/
theorem Tallies.keep (h : q.Tallies ds) (hnew : ∀ k ∈ errorKeys [d], k ∉ errorKeys q.kept)
    (hlimit : d.isError = true → q.limitReached = false) :
    Tallies { q with kept := q.kept ++ [d] } (ds ++ [d]) := by
  have hkeys : errorKeys (q.kept ++ [d]) = errorKeys q.kept ++ errorKeys [d] := errorKeys_append ..
  cases herror : d.isError with
  | false =>
      have hnone : errorKeys [d] = [] := errorKeys_of_not_isError herror
      rw [hnone, List.append_nil] at hkeys
      have hcount : errorCount { q with kept := q.kept ++ [d] } = q.errorCount := by
        rw [errorCount_eq_length, errorCount_eq_length, hkeys]
      refine ⟨?_, fun e he => ?_, fun hpos => ?_, ?_⟩
      · rw [hkeys]
        exact h.nodup
      · rcases List.mem_append.1 he with he | he
        · exact List.mem_append_left _ (h.mem e he)
        · exact List.mem_append_right _ he
      · rw [hcount]
        exact h.bounded hpos
      · rw [limitReached, hcount, hkeys, errorKeys_append, hnone, List.append_nil]
        exact h.complete
  | true =>
      have hone : errorKeys [d] = [d.key] := errorKeys_of_isError herror
      have hopen := hlimit herror
      rw [hone] at hkeys hnew
      refine ⟨?_, fun e he => ?_, fun hpos => ?_, ?_⟩
      · rw [hkeys, List.nodup_append]
        refine ⟨h.nodup, List.nodup_singleton _, fun a ha b hb hab => ?_⟩
        exact hnew b hb (hab ▸ ha)
      · rcases List.mem_append.1 he with he | he
        · exact List.mem_append_left _ (h.mem e he)
        · exact List.mem_append_right _ he
      · have hlt : q.errorCount < q.config.errorLimit := by
          simp only [limitReached, Bool.and_eq_false_iff, decide_eq_false_iff_not] at hopen
          exact Nat.lt_of_not_le (hopen.resolve_left fun hzero => hzero hpos)
        rw [errorCount_eq_length, hkeys, List.length_append, ← errorCount_eq_length]
        exact hlt
      · refine .inr fun k hk => ?_
        rw [hkeys]
        rw [errorKeys_append, hone] at hk
        rcases List.mem_append.1 hk with hk | hk
        · refine List.mem_append_left _ ?_
          rcases h.complete with hreached | hcomplete
          · exact absurd hreached (Bool.eq_false_iff.1 hopen)
          · exact hcomplete k hk
        · exact List.mem_append_right _ hk

/-- Adding a diagnostic. -/
theorem Tallies.add (h : q.Tallies ds) (hgraded : Graded (ds ++ [d]))
    (hdeduplicate : q.config.deduplicate = true) : (q.add d).Tallies (ds ++ [d]) := by
  have hd : d.isError = !d.code.isWarning :=
    hgraded d (List.mem_append_right _ (List.mem_singleton_self d))
  -- a kept diagnostic with the key of an error is an error
  have hsame : ∀ e ∈ q.kept, d.key = e.key → e.isError = d.isError := by
    intro e he hkey
    have hcode : d.code = e.code := congrArg Prod.fst hkey
    rw [hgraded e (List.mem_append_left _ (h.mem e he)), hd, hcode]
  rw [DiagnosticQueue.add]
  split
  · next hadmits =>
      rw [admits, hdeduplicate, Bool.true_and, Bool.and_eq_true, Bool.not_eq_true',
        Bool.not_eq_true', Bool.and_eq_false_iff, List.any_eq_false] at hadmits
      refine h.keep (fun k hk hkept => ?_) fun herror => hadmits.1.resolve_left fun hnot => ?_
      · obtain ⟨e, he, -, rfl⟩ := mem_errorKeys.1 hk
        obtain rfl := List.mem_singleton.1 he
        obtain ⟨e', he', -, hkey⟩ := mem_errorKeys.1 hkept
        exact hadmits.2 e' he' (Diagnostic.sameAs_iff.2 hkey.symm)
      · exact Bool.noConfusion (hnot.symm.trans herror)
  · next hadmits =>
      refine h.skip ?_
      cases herror : d.isError with
      | false =>
          rw [errorKeys_of_not_isError herror]
          exact .inr fun k hk => absurd hk List.not_mem_nil
      | true =>
          rw [admits, hdeduplicate, herror, Bool.true_and, Bool.true_and, Bool.and_eq_true,
            Bool.not_eq_true', Bool.not_eq_true', List.any_eq_false] at hadmits
          cases hreached : q.limitReached with
          | true => exact .inl rfl
          | false =>
              refine .inr fun k hk => ?_
              rw [errorKeys_of_isError herror, List.mem_singleton] at hk
              rw [hk]
              by_contra hnot
              refine hadmits ⟨hreached, fun e he hsameAs => hnot ?_⟩
              have hkey := Diagnostic.sameAs_iff.1 hsameAs
              exact mem_errorKeys.2 ⟨e, he, (hsame e he hkey).trans herror, hkey.symm⟩

theorem config_add (q : DiagnosticQueue) (d : Diagnostic) : (q.add d).config = q.config := by
  rw [add]
  split <;> rfl

/-- Adding diagnostics one after the other. -/
theorem tallies_foldl_add {config : QueueConfig} (hdeduplicate : config.deduplicate = true)
    (hgraded : Graded ds) :
    (ds.foldl add { config }).config = config ∧ Tallies (ds.foldl add { config }) ds := by
  induction ds using List.reverseRecOn with
  | nil => exact ⟨rfl, tallies_nil config⟩
  | append_singleton ds d ih =>
      obtain ⟨hconfig, htallies⟩ := ih fun e he => hgraded e (List.mem_append_left _ he)
      rw [List.foldl_concat]
      refine ⟨(config_add _ d).trans hconfig, htallies.add hgraded ?_⟩
      rw [hconfig, hdeduplicate]

/-- A queue counts the distinct errors, up to its limit. -/
theorem Tallies.errorCount_eq (h : q.Tallies ds) :
    q.errorCount = cutAt q.config.errorLimit (errorKeys ds).toFinset.card := by
  have hcount : q.errorCount = (errorKeys q.kept).toFinset.card := by
    rw [errorCount_eq_length, List.toFinset_card_of_nodup h.nodup]
  have hsubset : (errorKeys q.kept).toFinset ⊆ (errorKeys ds).toFinset := by
    intro k hk
    obtain ⟨e, he, herror, hkey⟩ := mem_errorKeys.1 (List.mem_toFinset.1 hk)
    exact List.mem_toFinset.2 (mem_errorKeys.2 ⟨e, h.mem e he, herror, hkey⟩)
  have hle := Finset.card_le_card hsubset
  rw [← hcount] at hle
  rcases h.complete with hreached | hcomplete
  · simp only [limitReached, Bool.and_eq_true, decide_eq_true_eq] at hreached
    have hbounded := h.bounded hreached.1
    rw [cutAt, if_neg (Nat.ne_of_gt hreached.1)]
    omega
  · have heq : (errorKeys ds).toFinset.card = q.errorCount := by
      refine Nat.le_antisymm ?_ hle
      rw [hcount]
      exact Finset.card_le_card fun k hk =>
        List.mem_toFinset.2 (hcomplete k (List.mem_toFinset.1 hk))
    rw [cutAt, heq]
    split
    · rfl
    · next hpos => exact (Nat.min_eq_left (h.bounded (Nat.pos_of_ne_zero hpos))).symm

end DiagnosticQueue

end ManySorted
