import ManySorted.Proofs.Coercion.Relabeling

/-!
# Coercion queries one after the other

All queries about a table share one cache.  While a comparison is running its answer is taken to be
positive, and what was found out by relying on it stays in the cache even if the comparison fails.
So a refusal may leave positive answers behind that a query would not get on its own.  Nothing else
depends on what was asked before (`Table.ask_inquire`): a query that is answered positively on its
own is always answered positively, with the same target, and where nothing was refused between two
namespaces, all answers between them are the ones that the queries get on their own.

## Strategy

* **Histories.**  After any queries the cache is consistent: positive answers that queries get on
  their own are right, and whatever else is positive is between namespaces with a refusal
  (`Table.Consistent`).
* **One more query.**  It is answered without a look at the cache (`Table.Consistent.unchanged`), or
  by what is known, or decided with it (`Table.Consistent.answered`).  What is known between two
  namespaces does not depend on the entries between others (`Table.Sane.congr`).
* **Refusals.**  A refusal may leave positive answers behind.  The example below shows that this
  happens.
-/

namespace ManySorted

/-- The queries that were asked, with their answers, and the cache that they left. -/
structure Inquiry where
  answers : List (CoercionKey × Except Fault Coercibility) := []
  cache : CoercionCache := {}

namespace Table

variable {names : Interner} {t : Table} {source target : NamespaceId} {c c' : CoercionCache}
  {q : CoercionKey} {past : Inquiry}

/-- The answer to a query, and the cache after it. -/
def ask (t : Table) (q : CoercionKey) (c : CoercionCache) :
    Except Fault Coercibility × CoercionCache :=
  match t.coerce q.symbol q.source q.target c with
  | .ok answer c => (.ok answer, c)
  | .error fault c => (.error fault, c)

/-- One more query. -/
def askNext (t : Table) (past : Inquiry) (q : CoercionKey) : Inquiry where
  answers := past.answers ++ [(q, (t.ask q past.cache).1)]
  cache := (t.ask q past.cache).2

/-- Queries one after the other, from an empty cache. -/
def inquire (t : Table) (history : List CoercionKey) : Inquiry := history.foldl t.askNext {}

/-! ## One query -/

theorem ask_same (h : q.source = q.target) (c : CoercionCache) :
    t.ask q c = (.ok ⟨true, some q.symbol⟩, c) := by
  rw [ask, coerce, h, coerceWithin_same]

theorem ask_fault (hne : q.source ≠ q.target) (hkind : (t.kindOf q.symbol).isCoercible = false)
    (c : CoercionCache) : t.ask q c = (.error (.notCoercible q.symbol), c) := by
  rw [ask, coerce, coerceWithin_fault hne hkind]

theorem ask_answered (hfamilies : t.Families names)
    (hclosed : ∀ {x}, t.Holds x → (t.symbolAt x).Closed t) (hne : q.source ≠ q.target)
    (hkind : (t.kindOf q.symbol).isCoercible = true) (hsane : t.Sane q.source q.target [] c) :
    ∃ answer c', t.ask q c = (.ok answer, c') ∧
      t.Answered q.source q.target [] c q.symbol answer c' := by
  obtain ⟨answer, c', hrun, hanswered⟩ := coerce_answered hfamilies hclosed hne hkind hsane
  refine ⟨answer, c', ?_, hanswered⟩
  rw [ask, hrun]

/-- What is known between two namespaces does not depend on the entries between others. -/
theorem Sane.congr (h : t.Sane source target [] c)
    (hframe : ∀ x, c'.find? ⟨x, source, target⟩ = c.find? ⟨x, source, target⟩) :
    t.Sane source target [] c' where
  target_eq {x entry} hfind := h.target_eq (hframe x ▸ hfind)
  pending_iff {x} := by
    rw [hframe x]
    exact h.pending_iff
  refuted {x entry} hfind := h.refuted (hframe x ▸ hfind)
  nodup := h.nodup
  holds := h.holds

/-! ## A history -/

/-- What is known of the cache after some queries. -/
structure Consistent (t : Table) (past : Inquiry) : Prop where
  sane : ∀ source target, t.Sane source target [] past.cache
  /-- Where nothing was refused, nothing wrong is taken to be positive. -/
  right : ∀ source target, (∀ x, (⟨x, source, target⟩, .ok .no) ∉ past.answers) →
    ∀ x, past.cache.Assumes source target x → t.Coercible source target x
  /-- What was refused stays refused. -/
  refused : ∀ {q}, (q, .ok .no) ∈ past.answers →
    ∃ entry, past.cache.find? q = some entry ∧ entry.state = .decided false

theorem consistent_start (t : Table) : t.Consistent {} where
  sane source target := sane_empty t source target
  right source target _ x hx := absurd hx (not_assumes_empty source target x)
  refused h := absurd h List.not_mem_nil

/-- A query that is answered without a look at the cache. -/
theorem Consistent.unchanged (h : t.Consistent past) {answer : Except Fault Coercibility}
    (hne : answer ≠ .ok .no) :
    t.Consistent ⟨past.answers ++ [(q, answer)], past.cache⟩ where
  sane := h.sane
  right source target hno := h.right source target fun x hx =>
    hno x (List.mem_append_left _ hx)
  refused {q'} hq' := by
    rcases List.mem_append.1 hq' with hq' | hq'
    · exact h.refused hq'
    · cases List.mem_singleton.1 hq'
      exact absurd rfl hne

/-- A query that is decided. -/
theorem Consistent.answered (h : t.Consistent past) {answer : Coercibility}
    (hanswered : t.Answered q.source q.target [] past.cache q.symbol answer c') :
    t.Consistent ⟨past.answers ++ [(q, .ok answer)], c'⟩ where
  sane source target := by
    by_cases hpair : q.source = source ∧ q.target = target
    · obtain ⟨rfl, rfl⟩ := hpair
      exact hanswered.sane
    · refine (h.sane source target).congr fun x => hanswered.grown.frame ?_
      rw [← not_and_or]
      rintro ⟨rfl, rfl⟩
      exact hpair ⟨rfl, rfl⟩
  right source target hno x hx := by
    have hbefore := h.right source target fun x hx => hno x (List.mem_append_left _ hx)
    by_cases hpair : q.source = source ∧ q.target = target
    · obtain ⟨rfl, rfl⟩ := hpair
      have hyes : answer.coercible = true := by
        by_contra hanswer
        obtain ⟨rfl, -⟩ := hanswered.no (Bool.not_eq_true _ ▸ hanswer)
        exact hno q.symbol (List.mem_append_right _ (List.mem_singleton.2 rfl))
      exact hanswered.coercible hyes hbefore x hx
    · obtain ⟨entry, hfind, hstate⟩ := hx
      refine hbefore x ⟨entry, ?_, hstate⟩
      rw [← hfind]
      refine (hanswered.grown.frame ?_).symm
      rw [← not_and_or]
      rintro ⟨rfl, rfl⟩
      exact hpair ⟨rfl, rfl⟩
  refused {q'} hq' := by
    rcases List.mem_append.1 hq' with hq' | hq'
    · obtain ⟨entry, hfind, hstate⟩ := h.refused hq'
      exact ⟨entry, hanswered.grown.kept hfind, hstate⟩
    · cases List.mem_singleton.1 hq'
      exact hanswered.recorded rfl

/-- One more query keeps the cache consistent. -/
theorem Consistent.askNext (h : t.Consistent past) (hfamilies : t.Families names)
    (hclosed : ∀ {x}, t.Holds x → (t.symbolAt x).Closed t) (q : CoercionKey) :
    t.Consistent (t.askNext past q) := by
  unfold Table.askNext
  by_cases hne : q.source = q.target
  · rw [ask_same hne]
    exact h.unchanged (by rintro ⟨⟩)
  · cases hkind : (t.kindOf q.symbol).isCoercible with
    | false =>
        rw [ask_fault hne hkind]
        exact h.unchanged (by rintro ⟨⟩)
    | true =>
        obtain ⟨answer, c', hask, hanswered⟩ :=
          ask_answered hfamilies hclosed hne hkind (h.sane q.source q.target)
        rw [hask]
        exact h.answered hanswered

/-- The cache is consistent after every history. -/
theorem consistent_inquire (hfamilies : t.Families names)
    (hclosed : ∀ {x}, t.Holds x → (t.symbolAt x).Closed t) (history : List CoercionKey) :
    t.Consistent (t.inquire history) := by
  unfold inquire
  have hrun : ∀ past, t.Consistent past → t.Consistent (history.foldl t.askNext past) := by
    induction history with
    | nil => exact fun past h => h
    | cons q rest ih => exact fun past h => ih _ (h.askNext hfamilies hclosed q)
  exact hrun {} (consistent_start t)

/-- After every history, a query gets the answer that it gets on its own, unless it is refused on
its own and a query about another symbol was refused before between the same two namespaces: then it
may be answered positively. -/
theorem ask_inquire {tables : List Table} (session : Session names tables) (checked : t ∈ tables)
    (valid : t.isValid = true) (history : List CoercionKey) (q : CoercionKey) :
    (t.ask q (t.inquire history).cache).1 = (t.ask q {}).1 ∨
      ((t.ask q {}).1 = .ok .no ∧
        (t.ask q (t.inquire history).cache).1 =
          .ok ⟨true, t.counterpart? q.source q.target q.symbol⟩ ∧
        ∃ x, x ≠ q.symbol ∧
          (⟨x, q.source, q.target⟩, .ok .no) ∈ (t.inquire history).answers) := by
  obtain ⟨-, harchive⟩ := session.archive
  have hfamilies : t.Families names := (harchive.trusted checked valid).formed.families
  have hclosed : ∀ {x}, t.Holds x → (t.symbolAt x).Closed t :=
    fun hx => harchive.closed_of_mem checked valid hx
  by_cases hne : q.source = q.target
  · rw [ask_same hne, ask_same hne]
    exact .inl rfl
  cases hkind : (t.kindOf q.symbol).isCoercible with
  | false =>
      rw [ask_fault hne hkind, ask_fault hne hkind]
      exact .inl rfl
  | true =>
      have hconsistent := consistent_inquire hfamilies hclosed history
      obtain ⟨fresh, c, hfresh, hanswered⟩ :=
        ask_answered hfamilies hclosed hne hkind (sane_empty t q.source q.target)
      obtain ⟨later, c', hlater, hanswered'⟩ :=
        ask_answered hfamilies hclosed hne hkind (hconsistent.sane q.source q.target)
      rw [hfresh, hlater]
      cases hyes' : later.coercible with
      | false =>
          -- a refusal is right, so a query on its own is refused as well
          have hno : fresh.coercible = false := by
            by_contra hyes
            rw [Bool.not_eq_false] at hyes
            exact (hanswered'.no hyes').2 (hanswered.coercible_self hyes
              fun z hz => absurd hz (not_assumes_empty _ _ z))
          rw [(hanswered'.no hyes').1, (hanswered.no hno).1]
          exact .inl rfl
      | true =>
          obtain ⟨htarget', hassumes, -⟩ := hanswered'.yes hyes'
          cases hyes : fresh.coercible with
          | true =>
              left
              obtain ⟨coercible, target⟩ := fresh
              obtain ⟨coercible', target'⟩ := later
              have htarget : target = t.counterpart? q.source q.target q.symbol :=
                (hanswered.yes hyes).1
              obtain rfl : coercible = true := hyes
              obtain rfl : coercible' = true := hyes'
              rw [htarget, show target' = _ from htarget']
          | false =>
              right
              refine ⟨by rw [(hanswered.no hyes).1], ?_, ?_⟩
              · rw [← htarget', ← hyes']
              · by_contra hnone
                refine (hanswered.no hyes).2 (hanswered'.coercible_self hyes'
                  (hconsistent.right q.source q.target fun x hx => hnone ⟨x, ?_, hx⟩))
                -- the symbol itself was not refused, else it would be refused again
                rintro rfl
                obtain ⟨entry, hfind, hstate⟩ := hconsistent.refused hx
                obtain ⟨entry', hfind', hstate'⟩ := hassumes
                cases (hanswered'.grown.kept hfind).symm.trans hfind'
                exact hstate' hstate

end Table

/-! ## An answer that a refusal left behind -/

namespace Cycle

/-- May the type `A` of `G` be used as that of `H`? -/
def first : CoercionKey := ⟨⟨29⟩, left, right⟩

/-- May the type `B` of `G` be used as that of `H`? -/
def second : CoercionKey := ⟨⟨32⟩, left, right⟩

/-- Whether a table is valid and refuses the second query, but not after the first. -/
def wavers : Option Table → Bool
  | some t =>
      match (t.ask second {}).1, (t.ask second (t.inquire [first]).cache).1 with
      | .ok fresh, .ok later => t.isValid && !fresh.coercible && later.coercible
      | _, _ => false
  | none => false

theorem exists_of_wavers {t? : Option Table} (h : wavers t? = true) : ∃ t fresh later,
    t? = some t ∧ t.isValid = true ∧ (t.ask second {}).1 = .ok fresh ∧
      (t.ask second (t.inquire [first]).cache).1 = .ok later ∧ fresh.coercible = false ∧
      later.coercible = true := by
  unfold wavers at h
  split at h
  · split at h
    · next fresh later hfresh hlater =>
        simp only [Bool.and_eq_true, Bool.not_eq_true'] at h
        exact ⟨_, fresh, later, rfl, h.1.1, hfresh, hlater, h.1.2, h.2⟩
    · cases h
  · cases h

/-- `B` refers to `A`, which is refused because of `C`.  Asked after `A`, it is not refused. -/
theorem wavers_session : wavers session.2[2]? = true := by decide +kernel

/-- Answers do depend on what was asked before. -/
theorem not_ask_inquire : ¬ ∀ (names : Interner) (tables : List Table) (t : Table),
    Session names tables → t ∈ tables → t.isValid = true →
      ∀ (history : List CoercionKey) (q : CoercionKey),
        (t.ask q (t.inquire history).cache).1 = (t.ask q {}).1 := by
  intro hall
  obtain ⟨t, fresh, later, ht, hvalid, hfresh, hlater, hno, hyes⟩ :=
    exists_of_wavers wavers_session
  have heq := hall _ _ t (session_checkAll _ modules) (List.mem_of_getElem? ht) hvalid [first]
    second
  rw [hfresh, hlater] at heq
  cases heq
  rw [hno] at hyes
  cases hyes

/-- The second query gets its own answer, or the first one was refused before. -/
theorem ask_inquire_second : ∃ t ∈ session.2, t.isValid = true ∧
    ((t.ask second (t.inquire [first]).cache).1 = (t.ask second {}).1 ∨
      ((t.ask second {}).1 = .ok .no ∧
        (t.ask second (t.inquire [first]).cache).1 = .ok ⟨true, t.counterpart? left right ⟨32⟩⟩ ∧
        ∃ x, x ≠ second.symbol ∧
          (⟨x, left, right⟩, .ok .no) ∈ (t.inquire [first]).answers)) := by
  obtain ⟨t, fresh, later, ht, hvalid, -⟩ := exists_of_wavers wavers_session
  have hmem := List.mem_of_getElem? ht
  exact ⟨t, hmem, hvalid,
    Table.ask_inquire (session_checkAll _ modules) hmem hvalid [first] second⟩

end Cycle

end ManySorted
