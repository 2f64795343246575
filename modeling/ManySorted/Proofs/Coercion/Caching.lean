import ManySorted.Proofs.Coercion.History

/-!
# The cache of coercion queries

While a query runs, its entry is pending, and so are those of the queries around it.  However it
ends, only the entries that were pending before are pending afterwards, and no entry is changed
(`Table.Retains`): a query that is answered decides its own entry, and one that fails takes it back.

A query that fails leaves behind what it found out on the way.  Asked again, it comes by the same
nested queries: those that were answered positively are looked up now, and the one that failed fails
again (`Repeats`).  So an answer or a fault is the same the second time
(`Table.inquire_settled`).  All this holds of every table, also of one whose forms list symbols that
cannot be compared.

## Strategy

* **Two accounts of a computation.**  However it ends, it leaves nothing pending that was not, and
  changes no entry (`Table.Retaining`).  If it failed, it fails again where it stopped, and adds
  nothing (`Repeats`).  Both are put together along binds.
* **Comparing symbols.**  Given these accounts of nested queries (`Table.Durable`), comparing two
  symbols has them as well (`Table.Durable.compareSymbols`).
* **One query.**  It enters itself before it is decided, and takes its entry back if it fails
  (`Table.coerceWithin_entered`).  So by induction on the nesting all queries are durable
  (`Table.durable_coerceWithin`).
* **Queries one after the other** start with nothing pending and leave nothing pending
  (`Table.retains_inquire`).
-/

namespace ManySorted

variable {α β : Type} {key key' : CoercionKey} {entry : CoercionEntry} {c c' c'' d : CoercionCache}

namespace CoercionCache

/-- Two caches that know the same about every query. -/
def Same (c c' : CoercionCache) : Prop := ∀ key, c.find? key = c'.find? key

theorem mem_erase {item : CoercionKey × CoercionEntry} :
    item ∈ (c.erase key).entries ↔ item ∈ c.entries ∧ item.1 ≠ key := by
  simp [erase]

theorem mem_insert {item : CoercionKey × CoercionEntry} : item ∈ (c.insert key entry).entries ↔
    item = (key, entry) ∨ (item ∈ c.entries ∧ item.1 ≠ key) :=
  List.mem_cons.trans (or_congr_right mem_erase)

theorem find?_insert_self : (c.insert key entry).find? key = some entry := by
  rw [find?_insert, if_pos rfl]

theorem find?_insert_of_ne (hne : key' ≠ key) :
    (c.insert key entry).find? key' = c.find? key' := by
  rw [find?_insert, if_neg hne]

end CoercionCache

/-! ## Computations on the cache -/

/-- The cache that a computation leaves, whether it succeeds or fails. -/
def cacheAfter (m : CoerceM α) (c : CoercionCache) : CoercionCache :=
  match m c with
  | .ok _ c' => c'
  | .error _ c' => c'

/-- A computation that failed fails again in the same way where it stopped, and adds nothing. -/
def Repeats (m : CoerceM α) : Prop :=
  ∀ c fault c', m c = .error fault c' → ∀ d, c'.Same d →
    ∃ d', m d = .error fault d' ∧ c'.Same d'

/-- A result that is the same, and costs nothing, wherever all is known that was known then. -/
def Recalls (m : CoerceM α) (a : α) : Prop :=
  ∀ c c', m c = .ok a c' → ∀ d : CoercionCache,
    (∀ key entry, c'.find? key = some entry → d.find? key = some entry) → m d = .ok a d

theorem bind_error {m : CoerceM α} {f : α → CoerceM β} {fault : Fault}
    (h : m c = .error fault c') : (m >>= f) c = .error fault c' := by
  change EStateM.bind m f c = _
  rw [EStateM.bind, h]

theorem bind_eq_error {m : CoerceM α} {f : α → CoerceM β} {fault : Fault}
    (h : (m >>= f) c = .error fault c') :
    m c = .error fault c' ∨ ∃ a c₁, m c = .ok a c₁ ∧ f a c₁ = .error fault c' := by
  cases hm : m c with
  | ok a c₁ =>
      rw [Table.bind_ok hm] at h
      exact .inr ⟨a, c₁, rfl, h⟩
  | error fault' c₁ =>
      rw [bind_error hm] at h
      cases h
      exact .inl rfl

theorem repeats_pure (a : α) : Repeats (pure a) := by
  intro c fault c' h
  cases h

/-- A computation that fails only at its start. -/
theorem Repeats.map {m : CoerceM α} (h : Repeats m) (f : α → β) :
    Repeats (m >>= fun a => pure (f a)) := by
  intro c fault c' hfails d hsame
  rcases bind_eq_error hfails with hm | ⟨a, c₁, -, hf⟩
  · obtain ⟨d', hd, hsame'⟩ := h c fault c' hm d hsame
    exact ⟨d', bind_error hd, hsame'⟩
  · cases hf

namespace Table

variable {t : Table} {source target : NamespaceId} {fuel : Nat} {x y : SymbolId}
  {recur : SymbolId → CoerceM Coercibility}

/-- Only what can be asked for is in the cache. -/
def Keyed (t : Table) (c : CoercionCache) : Prop :=
  ∀ {key entry}, c.find? key = some entry →
    (t.kindOf key.symbol).isCoercible = true ∧ key.source ≠ key.target

/-- What is known stays known, and nothing more is pending. -/
structure Retains (t : Table) (c c' : CoercionCache) : Prop where
  kept : ∀ {key entry}, c.find? key = some entry → c'.find? key = some entry
  pending : ∀ item ∈ c'.entries, item.2.state = .pending → item ∈ c.entries
  keyed : t.Keyed c → t.Keyed c'

theorem Retains.refl (t : Table) (c : CoercionCache) : t.Retains c c :=
  ⟨fun h => h, fun _ hitem _ => hitem, fun h => h⟩

theorem Retains.trans (h : t.Retains c c') (h' : t.Retains c' c'') : t.Retains c c'' where
  kept hfind := h'.kept (h.kept hfind)
  pending item hitem hstate := h.pending item (h'.pending item hitem hstate) hstate
  keyed hkeyed := h'.keyed (h.keyed hkeyed)

/-- However it ends, the computation leaves nothing pending that was not, and changes no entry. -/
def Retaining (t : Table) (m : CoerceM α) : Prop := ∀ c, t.Retains c (cacheAfter m c)

theorem retaining_pure (a : α) : t.Retaining (pure a) := fun c => .refl t c

theorem Retaining.bind {m : CoerceM α} {f : α → CoerceM β} (hm : t.Retaining m)
    (hf : ∀ a, t.Retaining (f a)) : t.Retaining (m >>= f) := by
  intro c
  have hfirst := hm c
  rw [cacheAfter] at hfirst ⊢
  cases hrun : m c with
  | ok a c₁ =>
      rw [hrun] at hfirst
      rw [bind_ok hrun]
      exact hfirst.trans (hf a c₁)
  | error fault c₁ =>
      rw [hrun] at hfirst
      rw [bind_error hrun]
      exact hfirst

theorem Retaining.of_ok {m : CoerceM α} (h : t.Retaining m) {a : α} (hrun : m c = .ok a c') :
    t.Retains c c' := by
  have hc := h c
  rwa [cacheAfter, hrun] at hc

theorem Retaining.of_error {m : CoerceM α} (h : t.Retaining m) {fault : Fault}
    (hrun : m c = .error fault c') : t.Retains c c' := by
  have hc := h c
  rwa [cacheAfter, hrun] at hc

/-! ## Comparing two symbols -/

/-- What is asked of the nested queries. -/
structure Durable (t : Table) (recur : SymbolId → CoerceM Coercibility) : Prop where
  retaining : ∀ x, t.Retaining (recur x)
  repeats : ∀ x, Repeats (recur x)
  recalls : ∀ x answer, answer.coercible = true → Recalls (recur x) answer

namespace Durable

variable (h : t.Durable recur)
include h

theorem retaining_acceptsNested (x : SymbolId) (dst : AcceptedValues) :
    t.Retaining (acceptsNested recur x dst) := by
  refine (h.retaining x).bind fun answer => ?_
  split <;> exact retaining_pure _

theorem repeats_acceptsNested (x : SymbolId) (dst : AcceptedValues) :
    Repeats (acceptsNested recur x dst) := by
  intro c fault c' hfails d hsame
  rcases bind_eq_error hfails with hrecur | ⟨answer, c₁, -, hrest⟩
  · obtain ⟨d', hd, hsame'⟩ := h.repeats x c fault c' hrecur d hsame
    exact ⟨d', bind_error hd, hsame'⟩
  · split at hrest <;> cases hrest

/-- A nested symbol that was accepted was answered positively, which is looked up now. -/
theorem recalls_acceptsNested (x : SymbolId) (dst : AcceptedValues) :
    Recalls (acceptsNested recur x dst) true := by
  intro c c' haccepts d hknown
  unfold acceptsNested at haccepts ⊢
  cases hrecur : recur x c with
  | error fault c₁ =>
      rw [bind_error hrecur] at haccepts
      cases haccepts
  | ok answer c₁ =>
      rw [bind_ok hrecur] at haccepts
      split at haccepts
      · next mapped =>
          change EStateM.Result.ok _ _ = _ at haccepts
          injection haccepts with haccepted hcache
          rw [bind_ok (h.recalls x _ rfl c c₁ hrecur d (hcache ▸ hknown))]
          exact congrArg (EStateM.Result.ok · d) haccepted
      · cases haccepts

theorem retaining_allM (pairs : List (SymbolId × AcceptedValues)) :
    t.Retaining (pairs.allM fun (nested, dst) => acceptsNested recur nested dst) := by
  induction pairs with
  | nil => exact retaining_pure _
  | cons pair rest ih =>
      rw [List.allM]
      refine (h.retaining_acceptsNested pair.1 pair.2).bind fun holds => ?_
      cases holds with
      | true => exact ih
      | false => exact retaining_pure _

/-- The nested symbols before the one that failed were accepted. -/
theorem repeats_allM (pairs : List (SymbolId × AcceptedValues)) :
    Repeats (pairs.allM fun (nested, dst) => acceptsNested recur nested dst) := by
  induction pairs with
  | nil => exact repeats_pure _
  | cons pair rest ih =>
      intro c fault c' hfails d hsame
      rw [List.allM] at hfails ⊢
      rcases bind_eq_error hfails with hfirst | ⟨holds, c₁, hfirst, hrest⟩
      · obtain ⟨d', hd, hsame'⟩ := h.repeats_acceptsNested pair.1 pair.2 c fault c' hfirst d hsame
        exact ⟨d', bind_error hd, hsame'⟩
      · cases holds with
        | false => cases hrest
        | true =>
            have hretains := (h.retaining_allM rest).of_error hrest
            have hagain := h.recalls_acceptsNested pair.1 pair.2 c c₁ hfirst d
              fun key entry hfind => (hsame key).symm.trans (hretains.kept hfind)
            obtain ⟨d', hd, hsame'⟩ := ih c₁ fault c' hrest d hsame
            exact ⟨d', (bind_ok hagain).trans hd, hsame'⟩

/-- Comparing two symbols leaves nothing pending, and fails again where it failed. -/
theorem compareSymbols (x y : SymbolId) :
    t.Retaining (t.compareSymbols recur x y) ∧ Repeats (t.compareSymbols recur x y) := by
  by_cases hx : ∃ sort, t.kindOf x = .userConstant (.type sort)
  · obtain ⟨sort, hx⟩ := hx
    by_cases hy : ∃ expected, t.kindOf y = .userConstant (.type expected)
    · obtain ⟨expected, hy⟩ := hy
      rw [compareSymbols_type hx hy]
      exact ⟨(h.retaining sort).bind fun _ => retaining_pure _, (h.repeats sort).map _⟩
    · rw [compareSymbols_misfit hx fun expected hkind => hy ⟨expected, hkind⟩]
      exact ⟨retaining_pure _, repeats_pure _⟩
  · rw [compareSymbols_form fun sort hkind => hx ⟨sort, hkind⟩]
    split
    · dsimp only
      split
      · exact ⟨h.retaining_allM _, h.repeats_allM _⟩
      · exact ⟨retaining_pure _, repeats_pure _⟩
    · exact ⟨retaining_pure _, repeats_pure _⟩

end Durable

/-! ## One query -/

/-- How a query that is not in the cache is decided. -/
def decideWith (t : Table) (recur : SymbolId → CoerceM Coercibility) (source target : NamespaceId)
    (x : SymbolId) : CoerceM Bool :=
  match t.counterpart? source target x with
  | none => pure false
  | some found => if found = x then pure true else t.compareSymbols recur x found

theorem Durable.decideWith (h : t.Durable recur) (source target : NamespaceId) (x : SymbolId) :
    t.Retaining (t.decideWith recur source target x) ∧
      Repeats (t.decideWith recur source target x) := by
  unfold Table.decideWith
  split
  · exact ⟨retaining_pure _, repeats_pure _⟩
  · split
    · exact ⟨retaining_pure _, repeats_pure _⟩
    · exact h.compareSymbols _ _

/-- The entry of a query is pending until it is decided, and taken back if that fails. -/
theorem coerceWithin_entered (hne : source ≠ target) (hkind : (t.kindOf x).isCoercible = true)
    (hfind : c.find? ⟨x, source, target⟩ = none) :
    t.coerceWithin source target (fuel + 1) x c =
      match t.decideWith (t.coerceWithin source target fuel) source target x
        (c.insert ⟨x, source, target⟩ ⟨.pending, t.counterpart? source target x⟩) with
      | .ok holds c' => .ok (if holds then ⟨true, t.counterpart? source target x⟩ else .no)
          (c'.insert ⟨x, source, target⟩ ⟨.decided holds, t.counterpart? source target x⟩)
      | .error fault c' => .error fault (c'.erase ⟨x, source, target⟩) := by
  cases hdecide : t.decideWith (t.coerceWithin source target fuel) source target x
      (c.insert ⟨x, source, target⟩ ⟨.pending, t.counterpart? source target x⟩) with
  | ok holds c' => exact coerceWithin_absent hne hkind hfind hdecide
  | error fault c' =>
      rw [coerceWithin, if_neg hne, hkind]
      refine (bind_ok (show (get : CoerceM CoercionCache) c = .ok c c from rfl)).trans ?_
      rw [hfind]
      dsimp only
      have hpending : (modify fun c => c.insert ⟨x, source, target⟩
          ⟨.pending, t.counterpart? source target x⟩ : CoerceM Unit) c = .ok () (c.insert
            ⟨x, source, target⟩ ⟨.pending, t.counterpart? source target x⟩) := rfl
      refine (bind_ok hpending).trans ?_
      unfold Table.decideWith at hdecide
      cases hcounterpart : t.counterpart? source target x with
      | none =>
          rw [hcounterpart] at hdecide
          cases hdecide
      | some found =>
          rw [hcounterpart] at hdecide
          dsimp only at hdecide ⊢
          split at hdecide
          · cases hdecide
          · next hother =>
              rw [if_neg hother]
              refine bind_error ?_
              rw [hdecide]

/-- The cache while a query is being decided, and how it is left then. -/
theorem Retains.decided (hkind : (t.kindOf x).isCoercible = true) (hne : source ≠ target)
    (hfind : c.find? ⟨x, source, target⟩ = none) {found : Option SymbolId}
    (h : t.Retains (c.insert ⟨x, source, target⟩ ⟨.pending, found⟩) c') (holds : Bool) :
    t.Retains c (c'.insert ⟨x, source, target⟩ ⟨.decided holds, found⟩) ∧
      t.Retains c (c'.erase ⟨x, source, target⟩) := by
  have hother : ∀ {key entry}, c.find? key = some entry → key ≠ ⟨x, source, target⟩ := by
    rintro key entry hsome rfl
    cases hfind.symm.trans hsome
  have hkept : ∀ {key entry}, c.find? key = some entry → c'.find? key = some entry := fun hsome =>
    h.kept (by rw [CoercionCache.find?_insert_of_ne (hother hsome), hsome])
  have hpending : ∀ item ∈ c'.entries, item.1 ≠ ⟨x, source, target⟩ → item.2.state = .pending →
      item ∈ c.entries := by
    intro item hitem hkey hstate
    rcases CoercionCache.mem_insert.1 (h.pending item hitem hstate) with rfl | ⟨hmem, -⟩
    · exact absurd rfl hkey
    · exact hmem
  have hkeyed : t.Keyed c → t.Keyed c' := fun hc => h.keyed fun {key entry} hsome => by
    rw [CoercionCache.find?_insert] at hsome
    split at hsome
    · next hkey => exact hkey ▸ ⟨hkind, hne⟩
    · exact hc hsome
  constructor
  · refine ⟨fun hsome => ?_, fun item hitem hstate => ?_, fun hc {key entry} hsome => ?_⟩
    · rw [CoercionCache.find?_insert_of_ne (hother hsome), hkept hsome]
    · rcases CoercionCache.mem_insert.1 hitem with rfl | ⟨hmem, hkey⟩
      · cases hstate
      · exact hpending item hmem hkey hstate
    · rw [CoercionCache.find?_insert] at hsome
      split at hsome
      · next hkey => exact hkey ▸ ⟨hkind, hne⟩
      · exact hkeyed hc hsome
  · refine ⟨fun hsome => ?_, fun item hitem hstate => ?_, fun hc {key entry} hsome => ?_⟩
    · rw [CoercionCache.find?_erase, if_neg (hother hsome), hkept hsome]
    · obtain ⟨hmem, hkey⟩ := CoercionCache.mem_erase.1 hitem
      exact hpending item hmem hkey hstate
    · rw [CoercionCache.find?_erase] at hsome
      split at hsome
      · cases hsome
      · exact hkeyed hc hsome

section

variable (h : t.Durable (t.coerceWithin source target fuel))
include h

theorem Durable.retaining_succ (x : SymbolId) :
    t.Retaining (t.coerceWithin source target (fuel + 1) x) := by
  intro c
  rw [cacheAfter]
  by_cases hne : source = target
  · rw [hne, coerceWithin_same]
    exact .refl t c
  cases hkind : (t.kindOf x).isCoercible with
  | false =>
      rw [coerceWithin_fault hne hkind]
      exact .refl t c
  | true =>
      cases hfind : c.find? ⟨x, source, target⟩ with
      | some entry =>
          rw [coerceWithin_found hne hkind hfind]
          exact .refl t c
      | none =>
          rw [coerceWithin_entered hne hkind hfind]
          have hretaining := (h.decideWith source target x).1
          cases hdecide : t.decideWith (t.coerceWithin source target fuel) source target x
              (c.insert ⟨x, source, target⟩ ⟨.pending, t.counterpart? source target x⟩) with
          | ok holds c' =>
              exact ((hretaining.of_ok hdecide).decided hkind hne hfind holds).1
          | error fault c' =>
              exact ((hretaining.of_error hdecide).decided hkind hne hfind false).2

/-- A query that fails takes its entry back, so it is decided anew, from a cache that knows all that
was known when it failed. -/
theorem Durable.repeats_succ (x : SymbolId) :
    Repeats (t.coerceWithin source target (fuel + 1) x) := by
  intro c fault c' hfails d hsame
  by_cases hne : source = target
  · rw [hne, coerceWithin_same] at hfails
    cases hfails
  cases hkind : (t.kindOf x).isCoercible with
  | false =>
      rw [coerceWithin_fault hne hkind] at hfails
      cases hfails
      exact ⟨d, coerceWithin_fault hne hkind, hsame⟩
  | true =>
      cases hfind : c.find? ⟨x, source, target⟩ with
      | some entry =>
          rw [coerceWithin_found hne hkind hfind] at hfails
          cases hfails
      | none =>
          rw [coerceWithin_entered hne hkind hfind] at hfails
          obtain ⟨hretaining, hrepeats⟩ := h.decideWith source target x
          cases hdecide : t.decideWith (t.coerceWithin source target fuel) source target x
              (c.insert ⟨x, source, target⟩ ⟨.pending, t.counterpart? source target x⟩) with
          | ok holds c₁ =>
              rw [hdecide] at hfails
              cases hfails
          | error fault' c₁ =>
              rw [hdecide] at hfails
              cases hfails
              have hgone : d.find? ⟨x, source, target⟩ = none := by
                rw [← hsame, CoercionCache.find?_erase, if_pos rfl]
              -- with its entry pending again, the cache knows what it knew at the failure
              have hentered : c₁.Same
                  (d.insert ⟨x, source, target⟩ ⟨.pending, t.counterpart? source target x⟩) := by
                intro key
                rw [CoercionCache.find?_insert]
                split
                · next hkey =>
                    rw [hkey]
                    exact (hretaining.of_error hdecide).kept CoercionCache.find?_insert_self
                · next hkey =>
                    rw [← hsame, CoercionCache.find?_erase, if_neg hkey]
              obtain ⟨d', hd, hsame'⟩ := hrepeats _ _ c₁ hdecide _ hentered
              refine ⟨d'.erase ⟨x, source, target⟩, ?_, fun key => ?_⟩
              · rw [coerceWithin_entered hne hkind hgone, hd]
              · rw [CoercionCache.find?_erase, CoercionCache.find?_erase, hsame' key]

end

/-- An answer is what the entry says that the query leaves. -/
theorem recalls_succ (source target : NamespaceId) (fuel : Nat) (x : SymbolId)
    (answer : Coercibility) : Recalls (t.coerceWithin source target (fuel + 1) x) answer := by
  intro c c' hanswers d hknown
  by_cases hne : source = target
  · rw [hne, coerceWithin_same] at hanswers ⊢
    cases hanswers
    rfl
  cases hkind : (t.kindOf x).isCoercible with
  | false =>
      rw [coerceWithin_fault hne hkind] at hanswers
      cases hanswers
  | true =>
      cases hfind : c.find? ⟨x, source, target⟩ with
      | some entry =>
          rw [coerceWithin_found hne hkind hfind] at hanswers
          cases hanswers
          exact coerceWithin_found hne hkind (hknown _ _ hfind)
      | none =>
          rw [coerceWithin_entered hne hkind hfind] at hanswers
          split at hanswers
          · next holds c₁ hdecide =>
              cases hanswers
              rw [coerceWithin_found hne hkind (hknown _ _ CoercionCache.find?_insert_self)]
              cases holds <;> rfl
          · cases hanswers

/-- Queries inside one another leave nothing pending, fail again where they failed, and remember
their answers. -/
theorem durable_coerceWithin (t : Table) (source target : NamespaceId) (fuel : Nat) :
    t.Durable (t.coerceWithin source target fuel) := by
  induction fuel with
  | zero =>
      refine ⟨fun x => retaining_pure _, fun x => repeats_pure _, fun x answer hyes c c' hno => ?_⟩
      cases hno
      cases hyes
  | succ fuel ih =>
      exact ⟨ih.retaining_succ, ih.repeats_succ, fun x answer _ =>
        recalls_succ source target fuel x answer⟩

/-! ## Queries one after the other -/

variable {q : CoercionKey}

theorem retains_ask (t : Table) (q : CoercionKey) (c : CoercionCache) :
    t.Retains c (t.ask q c).2 := by
  have hretains := (t.durable_coerceWithin q.source q.target (t.symbols.size + 1)).retaining
      q.symbol c
  rw [cacheAfter] at hretains
  rw [ask, coerce]
  split at hretains <;> next hrun => rwa [hrun]

theorem retains_inquire (t : Table) (history later : List CoercionKey) :
    t.Retains (t.inquire history).cache (t.inquire (history ++ later)).cache := by
  unfold inquire
  rw [List.foldl_append]
  generalize history.foldl t.askNext {} = past
  induction later generalizing past with
  | nil => exact .refl t _
  | cons q rest ih => exact (t.retains_ask q past.cache).trans (ih (t.askNext past q))

/-- A query that fails leaves no entry of its own. -/
theorem find?_ask_of_error (hkeyed : t.Keyed c) {fault : Fault}
    (hfails : (t.ask q c).1 = .error fault) : (t.ask q c).2.find? q = none := by
  by_cases hne : q.source = q.target
  · rw [ask_same hne] at hfails
    cases hfails
  cases hkind : (t.kindOf q.symbol).isCoercible with
  | false =>
      rw [ask_fault hne hkind]
      refine Option.eq_none_iff_forall_ne_some.2 fun entry hfind => ?_
      cases hkind.symm.trans (hkeyed hfind).1
  | true =>
      rw [ask, coerce] at hfails ⊢
      cases hfind : c.find? ⟨q.symbol, q.source, q.target⟩ with
      | some entry =>
          rw [coerceWithin_found hne hkind hfind] at hfails
          cases hfails
      | none =>
          rw [coerceWithin_entered hne hkind hfind] at hfails ⊢
          cases hdecide : t.decideWith (t.coerceWithin q.source q.target t.symbols.size) q.source
              q.target q.symbol (c.insert ⟨q.symbol, q.source, q.target⟩
                ⟨.pending, t.counterpart? q.source q.target q.symbol⟩) with
          | ok holds c' =>
              rw [hdecide] at hfails
              cases hfails
          | error fault' c' => exact CoercionCache.find?_erase.trans (if_pos rfl)

/-- Asked twice in a row, a query ends alike. -/
theorem ask_again (t : Table) (q : CoercionKey) (c : CoercionCache) :
    (t.ask q (t.ask q c).2).1 = (t.ask q c).1 ∧
      ∀ answer, (t.ask q c).1 = .ok answer → (t.ask q (t.ask q c).2).2 = (t.ask q c).2 := by
  cases hrun : t.coerce q.symbol q.source q.target c with
  | ok answer c' =>
      have hagain := recalls_succ q.source q.target t.symbols.size q.symbol answer c c' hrun c'
        fun _ _ hfind => hfind
      have hfirst : t.ask q c = (.ok answer, c') := by rw [ask, hrun]
      have hsecond : t.ask q c' = (.ok answer, c') := by rw [ask, coerce, hagain]
      rw [hfirst, hsecond]
      exact ⟨rfl, fun _ _ => rfl⟩
  | error fault c' =>
      obtain ⟨d, hagain, -⟩ := (t.durable_coerceWithin q.source q.target
        (t.symbols.size + 1)).repeats q.symbol c fault c' hrun c' fun _ => rfl
      have hfirst : t.ask q c = (.error fault, c') := by rw [ask, hrun]
      have hsecond : t.ask q c' = (.error fault, d) := by rw [ask, coerce, hagain]
      rw [hfirst, hsecond]
      exact ⟨rfl, fun answer hanswer => by cases hanswer⟩

theorem retains_start (t : Table) (history : List CoercionKey) :
    t.Retains {} (t.inquire history).cache :=
  t.retains_inquire [] history

/-- Whatever was asked, successfully or not, nothing is pending, and what is known is never changed
by later queries.  The next query leaves no entry of its own if it fails, and asked twice it ends
alike, without a change to the cache if it was answered. -/
theorem inquire_settled (t : Table) (history later : List CoercionKey) (q : CoercionKey) :
    (∀ item ∈ (t.inquire history).cache.entries, item.2.state ≠ .pending) ∧
    (∀ key entry, (t.inquire history).cache.find? key = some entry →
      (t.inquire (history ++ later)).cache.find? key = some entry) ∧
    (∀ fault, (t.ask q (t.inquire history).cache).1 = .error fault →
      (t.ask q (t.inquire history).cache).2.find? q = none) ∧
    (t.ask q (t.ask q (t.inquire history).cache).2).1 = (t.ask q (t.inquire history).cache).1 ∧
    ∀ answer, (t.ask q (t.inquire history).cache).1 = .ok answer →
      (t.ask q (t.ask q (t.inquire history).cache).2).2 =
        (t.ask q (t.inquire history).cache).2 := by
  have hstart := t.retains_start history
  have hkeyed : t.Keyed (t.inquire history).cache := hstart.keyed fun hfind => by cases hfind
  refine ⟨fun item hitem hstate => ?_, fun key entry => (t.retains_inquire history later).kept,
    fun fault => find?_ask_of_error hkeyed, t.ask_again q _⟩
  exact List.not_mem_nil (hstart.pending item hitem hstate)

end Table

end ManySorted
