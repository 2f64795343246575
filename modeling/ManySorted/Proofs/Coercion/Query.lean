import ManySorted.Proofs.Coercion.Run

/-!
# Coercion queries

A query is always answered, with as many queries inside one another as there are symbols
(`Table.coerceWithin_answered`).  A positive answer is right if the cache assumed nothing wrong
before, as an empty one does (`Table.Answered.coercible_self`, `Table.coerce_coercible_iff`).

## Strategy

* **The stack.**  Symbols that are being decided are distinct (`Table.length_le_of_nodup`), so there
  is fuel for all of them.  Deciding a symbol puts it on the stack (`Table.Sane.push`) and takes it
  off (`Table.Sane.pop`).
* **Answers.**  By induction on the fuel, a query that can be asked is answered, and its cache has
  grown (`Table.coerceWithin_answered`): the counterpart is compared with the symbol, where nested
  queries are answered by induction (`Table.AnswersAll.decide`).
* **Positive answers.**  A symbol that passes is justified together with what was found on the way
  (`Table.justified_decided`).  Once nothing is pending, what the cache takes to be positive
  justifies itself.
-/

namespace ManySorted

namespace Table

variable {names : Interner} {t : Table} {source target : NamespaceId} {stack : List SymbolId}
  {c c' : CoercionCache} {x y : SymbolId} {fuel : Nat}

/-! ## One query -/

theorem coerceWithin_same (fuel : Nat) (source : NamespaceId) (x : SymbolId) (c : CoercionCache) :
    t.coerceWithin source source (fuel + 1) x c = .ok ⟨true, some x⟩ c := by
  rw [coerceWithin, if_pos rfl]
  rfl

theorem coerceWithin_fault (hne : source ≠ target) (hkind : (t.kindOf x).isCoercible = false) :
    t.coerceWithin source target (fuel + 1) x c = .error (.notCoercible x) c := by
  rw [coerceWithin, if_neg hne, hkind]
  rfl

theorem coerceWithin_found (hne : source ≠ target) (hkind : (t.kindOf x).isCoercible = true)
    {entry : CoercionEntry} (hfind : c.find? ⟨x, source, target⟩ = some entry) :
    t.coerceWithin source target (fuel + 1) x c = .ok entry.answer c := by
  rw [coerceWithin, if_neg hne, hkind]
  refine (bind_ok (show (get : CoerceM CoercionCache) c = .ok c c from rfl)).trans ?_
  rw [hfind]
  rfl

/-- How a query that was not asked before is decided. -/
theorem coerceWithin_absent (hne : source ≠ target) (hkind : (t.kindOf x).isCoercible = true)
    (hfind : c.find? ⟨x, source, target⟩ = none) {holds : Bool}
    (hdecide : (match t.counterpart? source target x with
      | none => pure false
      | some found =>
          if found = x then pure true
          else t.compareSymbols (t.coerceWithin source target fuel) x found : CoerceM Bool)
        (c.insert ⟨x, source, target⟩ ⟨.pending, t.counterpart? source target x⟩) =
          .ok holds c') :
    t.coerceWithin source target (fuel + 1) x c =
      .ok (if holds then ⟨true, t.counterpart? source target x⟩ else .no)
        (c'.insert ⟨x, source, target⟩ ⟨.decided holds, t.counterpart? source target x⟩) := by
  rw [coerceWithin, if_neg hne, hkind]
  refine (bind_ok (show (get : CoerceM CoercionCache) c = .ok c c from rfl)).trans ?_
  rw [hfind]
  dsimp only
  have hpending : (modify fun c => c.insert ⟨x, source, target⟩
      ⟨.pending, t.counterpart? source target x⟩ : CoerceM Unit) c = .ok () (c.insert
        ⟨x, source, target⟩ ⟨.pending, t.counterpart? source target x⟩) := rfl
  refine (bind_ok hpending).trans ?_
  cases hcounterpart : t.counterpart? source target x with
  | none =>
      rw [hcounterpart] at hdecide
      cases hdecide
      rfl
  | some found =>
      rw [hcounterpart] at hdecide
      dsimp only at hdecide ⊢
      split
      · next hsame =>
          rw [if_pos hsame] at hdecide
          cases hdecide
          rfl
      · next hother =>
          rw [if_neg hother] at hdecide
          refine Eq.trans (bind_ok (?_ : _ = EStateM.Result.ok holds c')) rfl
          rw [hdecide]

/-! ## The stack of queries -/

/-- The symbol is being decided. -/
theorem Sane.push (h : t.Sane source target stack c)
    (hfind : c.find? ⟨x, source, target⟩ = none) (hx : t.Holds x) :
    t.Sane source target (x :: stack)
      (c.insert ⟨x, source, target⟩ ⟨.pending, t.counterpart? source target x⟩) := by
  have hnew : x ∉ stack := by
    intro hmem
    obtain ⟨entry, hentry, _⟩ := h.pending_iff.2 hmem
    cases hfind.symm.trans hentry
  refine ⟨fun {z entry} hz => ?_, fun {z} => ?_, fun {z entry} hz hstate => ?_,
    List.nodup_cons.2 ⟨hnew, h.nodup⟩, List.forall_mem_cons.2 ⟨hx, h.holds⟩⟩
  · rw [CoercionCache.find?_insert] at hz
    split at hz
    · next heq =>
        cases heq
        cases hz
        rfl
    · exact h.target_eq hz
  · rw [CoercionCache.find?_insert, List.mem_cons, ← h.pending_iff]
    by_cases heq : z = x
    · simp [heq]
    · simp [heq]
  · rw [CoercionCache.find?_insert] at hz
    split at hz
    · cases hz
      cases hstate
    · exact h.refuted hz hstate

/-- The symbol is decided. -/
theorem Sane.pop (h : t.Sane source target (x :: stack) c) {holds : Bool}
    (hrefuted : holds = false → ¬ t.Coercible source target x) :
    t.Sane source target stack
      (c.insert ⟨x, source, target⟩ ⟨.decided holds, t.counterpart? source target x⟩) := by
  obtain ⟨hnew, hnodup⟩ := List.nodup_cons.1 h.nodup
  refine ⟨fun {z entry} hz => ?_, fun {z} => ?_, fun {z entry} hz hstate => ?_, hnodup,
    fun z hz => h.holds z (List.mem_cons_of_mem _ hz)⟩
  · rw [CoercionCache.find?_insert] at hz
    split at hz
    · next heq =>
        cases heq
        cases hz
        rfl
    · exact h.target_eq hz
  · rw [CoercionCache.find?_insert]
    by_cases heq : z = x
    · subst heq
      simp [hnew]
    · have hold := h.pending_iff (x := z)
      rw [List.mem_cons, or_iff_right heq] at hold
      rw [if_neg (by simpa using heq), hold]
  · rw [CoercionCache.find?_insert] at hz
    split at hz
    · next heq =>
        cases heq
        cases hz
        exact hrefuted (Decision.decided.inj hstate)
    · exact h.refuted hz hstate

/-- What is found while a symbol is being decided stays, and so does what was there before. -/
theorem grown_decided {entry entry' : CoercionEntry}
    (hfind : c.find? ⟨x, source, target⟩ = none)
    (h : (c.insert ⟨x, source, target⟩ entry).Grown source target c') :
    c.Grown source target (c'.insert ⟨x, source, target⟩ entry') where
  kept {key e} he := by
    have hne : key ≠ ⟨x, source, target⟩ := by
      rintro rfl
      cases hfind.symm.trans he
    rw [CoercionCache.find?_insert, if_neg hne]
    exact h.kept (by rw [CoercionCache.find?_insert, if_neg hne, he])
  frame {key} hkey := by
    have hne : key ≠ ⟨x, source, target⟩ := by
      rintro rfl
      exact hkey.elim (fun h => h rfl) fun h => h rfl
    rw [CoercionCache.find?_insert, if_neg hne, h.frame hkey, CoercionCache.find?_insert,
      if_neg hne]

/-- A symbol that passes is justified together with what was found on the way. -/
theorem justified_decided {entry : CoercionEntry} {target? : Option SymbolId}
    (hjustified : t.Justified source target (c.insert ⟨x, source, target⟩ entry) c')
    (hpasses : t.Passes source target (c'.Assumes source target) x) :
    t.Justified source target c (c'.insert ⟨x, source, target⟩ ⟨.decided true, target?⟩) := by
  have hmono : ∀ z, c'.Assumes source target z →
      (c'.insert ⟨x, source, target⟩ ⟨.decided true, target?⟩).Assumes source target z := by
    rintro z ⟨e, he, hstate⟩
    by_cases heq : z = x
    · exact ⟨⟨.decided true, target?⟩, by rw [CoercionCache.find?_insert, heq, if_pos rfl],
        by simp⟩
    · exact ⟨e, by rw [CoercionCache.find?_insert, if_neg (by simpa using heq), he], hstate⟩
  intro z e hnone hsome
  rw [CoercionCache.find?_insert] at hsome
  split at hsome
  · next heq =>
      cases heq
      cases hsome
      exact ⟨rfl, hpasses.mono hmono⟩
  · next hne =>
      obtain ⟨hstate, hz⟩ := hjustified
        (by rw [CoercionCache.find?_insert, if_neg hne, hnone]) hsome
      exact ⟨hstate, hz.mono hmono⟩

/-- There are no more distinct symbols on the stack than in the table. -/
theorem length_le_of_nodup (hnodup : stack.Nodup) (hholds : ∀ x ∈ stack, t.Holds x) :
    stack.length ≤ t.symbols.size := by
  have hindices : (stack.map SymbolId.index).Nodup := by
    refine List.pairwise_map.2 (hnodup.imp fun {a b} hne heq => hne ?_)
    cases a
    cases b
    exact congrArg SymbolId.mk heq
  have hsub : stack.map SymbolId.index ⊆ List.range t.symbols.size := by
    intro i hi
    obtain ⟨z, hz, rfl⟩ := List.mem_map.1 hi
    exact List.mem_range.2 (hholds z hz)
  simpa using (hindices.subperm hsub).length_le

theorem holds_of_isCoercible (h : (t.kindOf x).isCoercible = true) : t.Holds x := by
  refine holds_of_kindOf fun hkind => ?_
  rw [hkind] at h
  cases h

/-- How a symbol is decided that is not known: its counterpart is compared with it. -/
theorem AnswersAll.decide (hfamilies : t.Families names)
    (hclosed : ∀ {x}, t.Holds x → (t.symbolAt x).Closed t)
    (h : t.AnswersAll source target (x :: stack) (t.coerceWithin source target fuel))
    (hsane : t.Sane source target (x :: stack) c) :
    ∃ holds c', (match t.counterpart? source target x with
      | none => pure false
      | some found =>
          if found = x then pure true
          else t.compareSymbols (t.coerceWithin source target fuel) x found : CoerceM Bool) c =
        .ok holds c' ∧
      t.Compared source target (x :: stack) c (fun assumed => t.Passes source target assumed x)
        holds c' := by
  have hx : t.Holds x := hsane.holds x List.mem_cons_self
  cases hcounterpart : t.counterpart? source target x with
  | none =>
      refine ⟨false, c, rfl, hsane.compared_false ?_⟩
      rintro assumed ⟨y, hy, _⟩
      cases hcounterpart.symm.trans hy
  | some found =>
      dsimp only
      split
      · next hsame =>
          exact ⟨true, c, rfl, hsane, .refl _ _ c,
            fun _ => ⟨⟨found, hcounterpart, .inl hsame⟩, t.justified_refl _ _ c⟩,
            fun h => by cases h⟩
      · next hother =>
          obtain ⟨holds, c', hrun, hcompared⟩ := h.compareSymbols hfamilies hclosed hx hsane found
          refine ⟨holds, c', hrun, hcompared.sane, hcompared.grown, fun hholds => ?_,
            fun hholds => ?_⟩
          · obtain ⟨hcompares, hjustified⟩ := hcompared.yes hholds
            exact ⟨⟨found, hcounterpart, .inr hcompares⟩, hjustified⟩
          · rintro ⟨y, hy, hpasses⟩
            obtain rfl := Option.some.inj (hcounterpart.symm.trans hy)
            exact hcompared.no hholds (hpasses.resolve_left hother)

/-- A query that can be asked is answered, if there is fuel for the symbols not on the stack. -/
theorem coerceWithin_answered (hfamilies : t.Families names)
    (hclosed : ∀ {x}, t.Holds x → (t.symbolAt x).Closed t) (hne : source ≠ target)
    (hfuel : stack.length + fuel = t.symbols.size + 1) :
    t.AnswersAll source target stack (t.coerceWithin source target fuel) := by
  induction fuel generalizing stack with
  | zero =>
      -- a stack of different symbols is no longer than the table
      intro x c _ hsane
      have := length_le_of_nodup hsane.nodup hsane.holds
      omega
  | succ fuel ih =>
      intro x c hkind hsane
      cases hfind : c.find? ⟨x, source, target⟩ with
      | some entry =>
          -- the answer is remembered
          refine ⟨entry.answer, c, coerceWithin_found hne hkind hfind, hsane, .refl _ _ c, ?_, ?_,
            ?_⟩
          · intro hyes
            have hstate : entry.state ≠ .decided false := by
              intro hstate
              rw [CoercionEntry.answer, hstate] at hyes
              cases hyes
            refine ⟨?_, ⟨entry, hfind, hstate⟩, t.justified_refl _ _ c⟩
            rw [← hsane.target_eq hfind, CoercionEntry.answer]
            split
            · exact absurd ‹_› hstate
            · rfl
            · rfl
          · intro hno
            unfold CoercionEntry.answer at hno ⊢
            split at hno
            · exact ⟨rfl, hsane.refuted hfind ‹_›⟩
            · cases hno
            · cases hno
          · intro hno
            refine ⟨entry, hfind, ?_⟩
            unfold CoercionEntry.answer at hno
            split at hno
            · assumption
            · cases hno
            · cases hno
      | none =>
          -- the symbol is put on the stack and decided, with one less fuel for what is nested
          have hpushed := hsane.push hfind (holds_of_isCoercible hkind)
          obtain ⟨holds, c', hrun, hcompared⟩ :=
            AnswersAll.decide hfamilies hclosed (ih (by rw [List.length_cons]; omega)) hpushed
          have hrefuted : holds = false → ¬ t.Coercible source target x :=
            fun hholds hx => hcompared.no hholds hx.passes
          refine ⟨_, _, coerceWithin_absent hne hkind hfind hrun, hcompared.sane.pop hrefuted,
            grown_decided hfind hcompared.grown, fun hyes => ?_, fun hno => ?_, fun hno => ?_⟩
          · cases holds with
            | false => cases hyes
            | true =>
                obtain ⟨hpasses, hjustified⟩ := hcompared.yes rfl
                refine ⟨rfl, ⟨⟨.decided true, t.counterpart? source target x⟩, ?_, by simp⟩,
                  justified_decided hjustified hpasses⟩
                rw [CoercionCache.find?_insert, if_pos rfl]
          · cases holds with
            | true => cases hno
            | false => exact ⟨rfl, hrefuted rfl⟩
          · cases holds with
            | true => cases hno
            | false =>
                refine ⟨⟨.decided false, t.counterpart? source target x⟩, ?_, rfl⟩
                rw [CoercionCache.find?_insert, if_pos rfl]

/-! ## Queries from outside -/

theorem sane_empty (t : Table) (source target : NamespaceId) : t.Sane source target [] {} where
  target_eq hfind := by cases hfind
  pending_iff {x} := by
    refine iff_of_false ?_ List.not_mem_nil
    rintro ⟨entry, hfind, _⟩
    cases hfind
  refuted hfind := by cases hfind
  nodup := List.nodup_nil
  holds _ hx := absurd hx List.not_mem_nil

/-- A query from outside is answered, whatever was asked before. -/
theorem coerce_answered (hfamilies : t.Families names)
    (hclosed : ∀ {x}, t.Holds x → (t.symbolAt x).Closed t) (hne : source ≠ target)
    (hkind : (t.kindOf x).isCoercible = true) (hsane : t.Sane source target [] c) :
    ∃ answer c', t.coerce x source target c = .ok answer c' ∧
      t.Answered source target [] c x answer c' :=
  coerceWithin_answered hfamilies hclosed hne (Nat.zero_add _) x c hkind hsane

/-- After a positive answer, the cache assumes nothing wrong if it did not before. -/
theorem Answered.coercible {answer : Coercibility}
    (h : t.Answered source target stack c x answer c') (hyes : answer.coercible = true)
    (hassumed : ∀ z, c.Assumes source target z → t.Coercible source target z) :
    ∀ z, c'.Assumes source target z → t.Coercible source target z := by
  intro z hz
  refine @coercible_of_passes t source target (c'.Assumes source target) z hz fun z hz => ?_
  cases hfind : c.find? ⟨z, source, target⟩ with
  | none =>
      obtain ⟨entry, hentry, _⟩ := hz
      exact ((h.yes hyes).2.2 hfind hentry).2.mono fun _ hz => .inl hz
  | some entry =>
      obtain ⟨entry', hentry', hstate⟩ := hz
      obtain rfl := Option.some.inj ((h.grown.kept hfind).symm.trans hentry')
      exact (hassumed z ⟨entry, hfind, hstate⟩).passes.mono fun _ hz => .inr hz

/-- A positive answer from a cache that assumes nothing wrong is right. -/
theorem Answered.coercible_self {answer : Coercibility}
    (h : t.Answered source target stack c x answer c') (hyes : answer.coercible = true)
    (hassumed : ∀ z, c.Assumes source target z → t.Coercible source target z) :
    t.Coercible source target x := h.coercible hyes hassumed x (h.yes hyes).2.1

theorem not_assumes_empty (source target : NamespaceId) (x : SymbolId) :
    ¬ CoercionCache.Assumes {} source target x := by
  rintro ⟨entry, hfind, _⟩
  cases hfind

/-- A query to an empty cache tells whether the symbol can be coerced. -/
theorem coerce_coercible_iff (hfamilies : t.Families names)
    (hclosed : ∀ {x}, t.Holds x → (t.symbolAt x).Closed t) (hne : source ≠ target)
    (hkind : (t.kindOf x).isCoercible = true) :
    ∃ answer c', t.coerce x source target {} = .ok answer c' ∧
      (answer.coercible = true ↔ t.Coercible source target x) := by
  obtain ⟨answer, c', hrun, hanswered⟩ :=
    coerce_answered hfamilies hclosed hne hkind (t.sane_empty source target)
  refine ⟨answer, c', hrun, ?_, ?_⟩
  · intro hyes
    exact hanswered.coercible_self hyes fun z hz => absurd hz (not_assumes_empty source target z)
  · intro hx
    by_contra hno
    rw [Bool.not_eq_true] at hno
    exact (hanswered.no hno).2 hx

end Table

end ManySorted
