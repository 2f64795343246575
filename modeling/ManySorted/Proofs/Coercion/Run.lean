import ManySorted.Coercion.Basic
import ManySorted.Proofs.Table.Closed
import Mathlib.Data.List.Perm.Subperm

/-!
# How a coercion query runs

A symbol can be coerced if its counterpart accepts all that it accepts, where nested symbols have to
be coerced in turn.  For recursive sorts this is the greatest solution: a set of symbols that
justify one another can be coerced (`Table.Coercible`).

## Strategy

* **Assumptions.**  While a query runs, the symbols that are being decided form a stack, and their
  answers are taken to be positive.  Answers that are found stay.
* **Negative answers are right** (`Answered.no`), since they were found although others were taken
  to be positive.
* **Positive answers justify one another.**  A positive answer means that nothing failed on the way,
  so whatever was added to the cache is justified by what the cache takes to be positive
  (`Answered.yes`).
* **There is always an answer.**  Nested symbols are sorts or constants, and there are no more
  symbols to ask for than the table has.
-/

namespace ManySorted

namespace Table

variable {t : Table} {source target : NamespaceId} {assumed assumed' : SymbolId → Prop}
  {x y : SymbolId}

/-- A nested symbol is coerced to one that the position accepts, given which symbols can be
coerced. -/
def NestedPasses (t : Table) (source target : NamespaceId) (assumed : SymbolId → Prop)
    (dst : AcceptedValues) (nested : SymbolId) : Prop :=
  assumed nested ∧ ∃ mapped, t.counterpart? source target nested = some mapped ∧
    (dst.sorts.contains mapped || dst.acceptsConstant (.symbol mapped) false) = true

/-- The second symbol accepts all that the first does, given which symbols can be coerced. -/
inductive Compares (t : Table) (source target : NamespaceId) (assumed : SymbolId → Prop)
    (x y : SymbolId) : Prop
  | type {sort expected : SymbolId} (hx : t.kindOf x = .userConstant (.type sort))
      (hy : t.kindOf y = .userConstant (.type expected)) (hsort : assumed sort)
      (hexpected : t.counterpart? source target sort = some expected)
  | form {src dst : CanonicalForm} (hx : ∀ sort, t.kindOf x ≠ .userConstant (.type sort))
      (hsrc : (t.symbolAt x).canonical = some src) (hdst : (t.symbolAt y).canonical = some dst)
      (hsize : src.size = dst.size)
      (hdirect : ∀ pair ∈ src.positions.zip dst.positions, t.acceptsDirectly pair.1 pair.2 = true)
      (hnested : ∀ pair ∈ src.positions.zip dst.positions, ∀ nested ∈ t.nestedSymbols pair.1,
        t.NestedPasses source target assumed pair.2 nested)

/-- The counterpart is the symbol itself or accepts all that the symbol does. -/
def Passes (t : Table) (source target : NamespaceId) (assumed : SymbolId → Prop)
    (x : SymbolId) : Prop :=
  ∃ y, t.counterpart? source target x = some y ∧
    (y = x ∨ t.Compares source target assumed x y)

/-- A symbol can be coerced if it belongs to a set of symbols that justify one another. -/
def Coercible (t : Table) (source target : NamespaceId) (x : SymbolId) : Prop :=
  ∃ assumed : SymbolId → Prop, assumed x ∧ ∀ z, assumed z → t.Passes source target assumed z

theorem NestedPasses.mono {dst : AcceptedValues} (h : t.NestedPasses source target assumed dst x)
    (hmono : ∀ z, assumed z → assumed' z) : t.NestedPasses source target assumed' dst x :=
  ⟨hmono _ h.1, h.2⟩

theorem Compares.mono (h : t.Compares source target assumed x y)
    (hmono : ∀ z, assumed z → assumed' z) : t.Compares source target assumed' x y := by
  cases h with
  | type hx hy hsort hexpected => exact .type hx hy (hmono _ hsort) hexpected
  | form hx hsrc hdst hsize hdirect hnested =>
      exact .form hx hsrc hdst hsize hdirect fun pair hpair nested hmem =>
        (hnested pair hpair nested hmem).mono hmono

theorem Passes.mono (h : t.Passes source target assumed x) (hmono : ∀ z, assumed z → assumed' z) :
    t.Passes source target assumed' x := by
  obtain ⟨y, hy, hsame | hcompares⟩ := h
  · exact ⟨y, hy, .inl hsame⟩
  · exact ⟨y, hy, .inr (hcompares.mono hmono)⟩

/-- What can be coerced is justified by what can be coerced. -/
theorem Coercible.passes (h : t.Coercible source target x) :
    t.Passes source target (t.Coercible source target) x := by
  obtain ⟨assumed, hx, hall⟩ := h
  exact (hall x hx).mono fun z hz => ⟨assumed, hz, hall⟩

/-- Symbols that are justified by one another and by what can be coerced can be coerced. -/
theorem coercible_of_passes (hx : assumed x)
    (hall : ∀ z, assumed z → t.Passes source target
      (fun z => assumed z ∨ t.Coercible source target z) z) : t.Coercible source target x := by
  refine ⟨fun z => assumed z ∨ t.Coercible source target z, .inl hx, fun z hz => ?_⟩
  rcases hz with hz | hz
  · exact hall z hz
  · exact hz.passes.mono fun _ hz => .inr hz

end Table

namespace CoercionCache

variable {c c' : CoercionCache} {key key' : CoercionKey} {entry : CoercionEntry}
  {source target : NamespaceId} {x : SymbolId}

theorem find?_erase :
    (c.erase key).find? key' = if key' = key then none else c.find? key' := by
  obtain ⟨entries⟩ := c
  unfold find? erase
  dsimp only
  induction entries with
  | nil => exact (ite_self _).symm
  | cons first rest ih =>
      by_cases hfirst : first.1 = key
      · rw [List.filter_cons_of_neg (by simpa using hfirst), ih]
        split
        · rfl
        · next hne => rw [List.lookup_cons, hfirst, beq_false_of_ne hne]
      · rw [List.filter_cons_of_pos (by simpa using hfirst), List.lookup_cons, List.lookup_cons, ih]
        by_cases hkey : key' = first.1
        · subst hkey
          simp [hfirst]
        · rw [beq_false_of_ne hkey]

theorem find?_insert : (c.insert key entry).find? key' =
    if key' = key then some entry else c.find? key' := by
  have herased : (c.insert key entry).find? key' =
      match key' == key with
      | true => some entry
      | false => (c.erase key).find? key' := rfl
  rw [herased, find?_erase]
  by_cases heq : key' = key
  · simp [heq]
  · rw [beq_false_of_ne heq, if_neg heq, if_neg heq]

/-- The cache takes the answer to be positive: it is, or it is still being decided. -/
def Assumes (c : CoercionCache) (source target : NamespaceId) (x : SymbolId) : Prop :=
  ∃ entry, c.find? ⟨x, source, target⟩ = some entry ∧ entry.state ≠ .decided false

/-- Entries are only added, and only between the two namespaces. -/
structure Grown (source target : NamespaceId) (c c' : CoercionCache) : Prop where
  kept : ∀ {key entry}, c.find? key = some entry → c'.find? key = some entry
  frame : ∀ {key : CoercionKey}, key.source ≠ source ∨ key.target ≠ target →
    c'.find? key = c.find? key

theorem Grown.refl (source target : NamespaceId) (c : CoercionCache) : Grown source target c c :=
  ⟨fun h => h, fun _ => rfl⟩

theorem Grown.trans {c'' : CoercionCache} (h : Grown source target c c')
    (h' : Grown source target c' c'') : Grown source target c c'' :=
  ⟨fun hfind => h'.kept (h.kept hfind), fun hkey => (h'.frame hkey).trans (h.frame hkey)⟩

theorem Grown.assumes (h : Grown source target c c') (hx : c.Assumes source target x) :
    c'.Assumes source target x := by
  obtain ⟨entry, hfind, hstate⟩ := hx
  exact ⟨entry, h.kept hfind, hstate⟩

end CoercionCache

namespace Table

variable {t : Table} {source target : NamespaceId} {stack : List SymbolId}
  {c c' c'' : CoercionCache} {x y : SymbolId}

/-- What is known of the cache while the symbols of the stack are being decided. -/
structure Sane (t : Table) (source target : NamespaceId) (stack : List SymbolId)
    (c : CoercionCache) : Prop where
  target_eq : ∀ {x entry}, c.find? ⟨x, source, target⟩ = some entry →
    entry.target = t.counterpart? source target x
  pending_iff : ∀ {x}, (∃ entry, c.find? ⟨x, source, target⟩ = some entry ∧
    entry.state = .pending) ↔ x ∈ stack
  refuted : ∀ {x entry}, c.find? ⟨x, source, target⟩ = some entry →
    entry.state = .decided false → ¬ t.Coercible source target x
  nodup : stack.Nodup
  holds : ∀ x ∈ stack, t.Holds x

/-- All that was added to the cache is positive, and justified by what the cache assumes. -/
def Justified (t : Table) (source target : NamespaceId) (c c' : CoercionCache) : Prop :=
  ∀ {x entry}, c.find? ⟨x, source, target⟩ = none → c'.find? ⟨x, source, target⟩ = some entry →
    entry.state = .decided true ∧ t.Passes source target (c'.Assumes source target) x

theorem justified_refl (t : Table) (source target : NamespaceId) (c : CoercionCache) :
    t.Justified source target c c := fun hnone hsome => by cases hnone.symm.trans hsome

theorem Justified.trans (h : t.Justified source target c c')
    (h' : t.Justified source target c' c'') (hgrown : c'.Grown source target c'') :
    t.Justified source target c c'' := by
  intro x entry hnone hsome
  cases hmiddle : c'.find? ⟨x, source, target⟩ with
  | none => exact h' hmiddle hsome
  | some entry' =>
      obtain ⟨hstate, hpasses⟩ := h hnone hmiddle
      obtain rfl := Option.some.inj ((hgrown.kept hmiddle).symm.trans hsome)
      exact ⟨hstate, hpasses.mono fun _ hz => hgrown.assumes hz⟩

/-- How a query ends. -/
structure Answered (t : Table) (source target : NamespaceId) (stack : List SymbolId)
    (c : CoercionCache) (x : SymbolId) (answer : Coercibility) (c' : CoercionCache) : Prop where
  sane : t.Sane source target stack c'
  grown : c.Grown source target c'
  yes : answer.coercible = true → answer.target = t.counterpart? source target x ∧
    c'.Assumes source target x ∧ t.Justified source target c c'
  no : answer.coercible = false → answer = .no ∧ ¬ t.Coercible source target x
  /-- A negative answer is recorded. -/
  recorded : answer.coercible = false → ∃ entry, c'.find? ⟨x, source, target⟩ = some entry ∧
    entry.state = .decided false

/-- How a comparison ends. -/
structure Compared (t : Table) (source target : NamespaceId) (stack : List SymbolId)
    (c : CoercionCache) (passes : (SymbolId → Prop) → Prop) (holds : Bool)
    (c' : CoercionCache) : Prop where
  sane : t.Sane source target stack c'
  grown : c.Grown source target c'
  yes : holds = true → passes (c'.Assumes source target) ∧ t.Justified source target c c'
  no : holds = false → ¬ passes (t.Coercible source target)

/-- The nested queries are answered. -/
def AnswersAll (t : Table) (source target : NamespaceId) (stack : List SymbolId)
    (recur : SymbolId → CoerceM Coercibility) : Prop :=
  ∀ x c, (t.kindOf x).isCoercible = true → t.Sane source target stack c →
    ∃ answer c', recur x c = .ok answer c' ∧ t.Answered source target stack c x answer c'

variable {recur : SymbolId → CoerceM Coercibility}

theorem bind_ok {α β : Type} {m : CoerceM α} {f : α → CoerceM β} {a : α}
    (h : m c = .ok a c') : (m >>= f) c = f a c' := by
  change EStateM.bind m f c = _
  rw [EStateM.bind, h]

/-- One nested symbol. -/
theorem AnswersAll.acceptsNested (h : t.AnswersAll source target stack recur)
    (hx : (t.kindOf x).isCoercible = true) (hsane : t.Sane source target stack c)
    (dst : AcceptedValues) :
    ∃ holds c', Table.acceptsNested recur x dst c = .ok holds c' ∧
      t.Compared source target stack c
        (fun assumed => t.NestedPasses source target assumed dst x) holds c' := by
  obtain ⟨answer, c', hrun, hanswer⟩ := h x c hx hsane
  obtain ⟨coercible, mapped?⟩ := answer
  cases coercible with
  | false =>
      refine ⟨false, c', by rw [Table.acceptsNested, bind_ok hrun]; rfl, hanswer.sane,
        hanswer.grown, (fun h => by cases h), fun _ hpasses => ?_⟩
      exact (hanswer.no rfl).2 hpasses.1
  | true =>
      obtain ⟨htarget, hassumes, hjustified⟩ := hanswer.yes rfl
      have htarget : mapped? = t.counterpart? source target x := htarget
      cases hmapped : mapped? with
      | none =>
          refine ⟨false, c', by rw [Table.acceptsNested, bind_ok hrun, hmapped]; rfl,
            hanswer.sane, hanswer.grown, (fun h => by cases h), ?_⟩
          rintro _ ⟨_, mapped, hcounterpart, _⟩
          rw [hmapped, hcounterpart] at htarget
          cases htarget
      | some mapped =>
          refine ⟨dst.sorts.contains mapped || dst.acceptsConstant (.symbol mapped) false, c',
            by rw [Table.acceptsNested, bind_ok hrun, hmapped]; rfl, hanswer.sane, hanswer.grown,
            fun haccepts => ⟨⟨hassumes, mapped, hmapped ▸ htarget.symm, haccepts⟩, hjustified⟩, ?_⟩
          rintro hrefuses ⟨_, other, hcounterpart, haccepts⟩
          rw [hmapped, hcounterpart] at htarget
          obtain rfl := Option.some.inj htarget
          exact Bool.noConfusion (hrefuses.symm.trans haccepts)

/-- Nested symbols one after the other, until one is refused. -/
theorem AnswersAll.allM (h : t.AnswersAll source target stack recur)
    (pairs : List (SymbolId × AcceptedValues))
    (hpairs : ∀ pair ∈ pairs, (t.kindOf pair.1).isCoercible = true)
    (hsane : t.Sane source target stack c) :
    ∃ holds c', (pairs.allM fun (nested, dst) => Table.acceptsNested recur nested dst) c =
        .ok holds c' ∧
      t.Compared source target stack c (fun assumed => ∀ pair ∈ pairs,
        t.NestedPasses source target assumed pair.2 pair.1) holds c' := by
  induction pairs generalizing c with
  | nil =>
      exact ⟨true, c, rfl, hsane, .refl _ _ c,
        fun _ => ⟨fun _ hpair => absurd hpair List.not_mem_nil, t.justified_refl _ _ c⟩,
        fun h => by cases h⟩
  | cons pair rest ih =>
      obtain ⟨holds, c₁, hrun, hfirst⟩ :=
        h.acceptsNested (hpairs pair List.mem_cons_self) hsane pair.2
      rw [List.allM, bind_ok hrun]
      cases holds with
      | false =>
          refine ⟨false, c₁, rfl, hfirst.sane, hfirst.grown, (fun h => by cases h),
            fun _ hall => ?_⟩
          exact hfirst.no rfl (hall pair List.mem_cons_self)
      | true =>
          obtain ⟨hpasses, hjustified⟩ := hfirst.yes rfl
          obtain ⟨holds, c₂, hrun₂, hrest⟩ :=
            ih (fun other hother => hpairs other (List.mem_cons_of_mem _ hother)) hfirst.sane
          refine ⟨holds, c₂, hrun₂, hrest.sane, hfirst.grown.trans hrest.grown,
            fun hholds => ?_, fun hholds hall => ?_⟩
          · obtain ⟨hall, hjustified'⟩ := hrest.yes hholds
            refine ⟨List.forall_mem_cons.2 ⟨?_, hall⟩, hjustified.trans hjustified' hrest.grown⟩
            exact hpasses.mono fun _ hz => hrest.grown.assumes hz
          · exact hrest.no hholds fun other hother => hall other (List.mem_cons_of_mem _ hother)

/-! ## Comparing two symbols -/

theorem isCoercible_of_isSort (h : t.IsSort x) : (t.kindOf x).isCoercible = true := by
  obtain ⟨d, hd⟩ := h
  obtain ⟨size, hkind⟩ := SymbolKind.unsized_eq_userSort.1 hd
  rw [hkind]
  rfl

/-- Nested symbols are sorts or constants that can be asked for. -/
theorem isCoercible_of_mem_nestedSymbols {v : AcceptedValues} (hv : v.Closed t)
    (hx : x ∈ t.nestedSymbols v) : (t.kindOf x).isCoercible = true := by
  rcases List.mem_append.1 hx with hx | hx
  · have hnested := (List.mem_filter.1 hx).2
    unfold isNestedConstant at hnested
    split at hnested
    · next hkind =>
        rw [hkind]
        exact hnested
    · cases hnested
  · exact isCoercible_of_isSort (hv.sorts hx)

theorem compareSymbols_type {sort expected : SymbolId}
    (hx : t.kindOf x = .userConstant (.type sort))
    (hy : t.kindOf y = .userConstant (.type expected)) :
    t.compareSymbols recur x y = do
      let inner ← recur sort
      return inner.coercible && inner.target == some expected := by
  rw [compareSymbols, hx, hy]

theorem compareSymbols_misfit {sort : SymbolId} (hx : t.kindOf x = .userConstant (.type sort))
    (hy : ∀ expected, t.kindOf y ≠ .userConstant (.type expected)) :
    t.compareSymbols recur x y = pure false := by
  unfold compareSymbols
  split
  · next expected _ hkind => exact absurd hkind (hy expected)
  · rfl
  · next hother _ => exact absurd hx (hother sort)

theorem compareSymbols_form (hx : ∀ sort, t.kindOf x ≠ .userConstant (.type sort)) :
    t.compareSymbols recur x y =
      match (t.symbolAt x).canonical, (t.symbolAt y).canonical with
      | some src, some dst =>
          let pairs := src.positions.zip dst.positions
          if src.size = dst.size ∧ pairs.all (fun (s, d) => t.acceptsDirectly s d) then
            (pairs.flatMap fun (s, d) => (t.nestedSymbols s).map (·, d)).allM
              fun (nested, d) => Table.acceptsNested recur nested d
          else return false
      | _, _ => return false := by
  unfold compareSymbols
  split
  · next hkind _ => exact absurd hkind (hx _)
  · next hkind _ => exact absurd hkind (hx _)
  · rfl

/-- A comparison that fails for a reason that no assumption mends. -/
theorem Sane.compared_false (hsane : t.Sane source target stack c)
    {passes : (SymbolId → Prop) → Prop} (hnever : ∀ assumed, ¬ passes assumed) :
    t.Compared source target stack c passes false c :=
  ⟨hsane, .refl _ _ c, (fun h => by cases h), fun _ => hnever _⟩

/-- Comparing two symbols by their forms. -/
theorem AnswersAll.compareForms (h : t.AnswersAll source target stack recur)
    (hclosed : ∀ {x}, t.Holds x → (t.symbolAt x).Closed t)
    (hx : ∀ sort, t.kindOf x ≠ .userConstant (.type sort)) (hholds : t.Holds x)
    (hsane : t.Sane source target stack c) :
    ∃ holds c', t.compareSymbols recur x y c = .ok holds c' ∧
      t.Compared source target stack c
        (fun assumed => t.Compares source target assumed x y) holds c' := by
  rw [compareSymbols_form hx]
  cases hsrc : (t.symbolAt x).canonical with
  | none =>
      -- a symbol without a form fails
      refine ⟨false, c, rfl, hsane.compared_false fun assumed hcompares => ?_⟩
      cases hcompares with
      | type hkind => exact hx _ hkind
      | form _ hsrc' => cases hsrc.symm.trans hsrc'
  | some src =>
      cases hdst : (t.symbolAt y).canonical with
      | none =>
          refine ⟨false, c, rfl, hsane.compared_false fun assumed hcompares => ?_⟩
          cases hcompares with
          | type hkind => exact hx _ hkind
          | form _ _ hdst' => cases hdst.symm.trans hdst'
      | some dst =>
          dsimp only
          split
          · next hfit =>
              -- what is nested in the first form has to be coerced in turn
              obtain ⟨hsize, hdirect⟩ := hfit
              have hkinds : ∀ pair ∈ (src.positions.zip dst.positions).flatMap fun (s, d) =>
                  (t.nestedSymbols s).map (·, d), (t.kindOf pair.1).isCoercible = true := by
                intro pair hpair
                obtain ⟨both, hboth, hpair⟩ := List.mem_flatMap.1 hpair
                obtain ⟨nested, hmem, rfl⟩ := List.mem_map.1 hpair
                refine isCoercible_of_mem_nestedSymbols ?_ hmem
                exact (hclosed hholds).form hsrc _ (List.of_mem_zip hboth).1
              obtain ⟨holds, c', hrun, hcompared⟩ := h.allM _ hkinds hsane
              refine ⟨holds, c', hrun, hcompared.sane, hcompared.grown, fun hholds => ?_,
                fun hholds hcompares => ?_⟩
              · obtain ⟨hall, hjustified⟩ := hcompared.yes hholds
                refine ⟨.form hx hsrc hdst hsize (List.all_eq_true.1 hdirect)
                  fun pair hpair nested hnested => ?_, hjustified⟩
                exact hall (nested, pair.2)
                  (List.mem_flatMap.2 ⟨pair, hpair, List.mem_map.2 ⟨nested, hnested, rfl⟩⟩)
              · cases hcompares with
                | type hkind => exact hx _ hkind
                | form _ hsrc' hdst' _ _ hnested =>
                    obtain rfl := Option.some.inj (hsrc.symm.trans hsrc')
                    obtain rfl := Option.some.inj (hdst.symm.trans hdst')
                    refine hcompared.no hholds fun pair hpair => ?_
                    obtain ⟨both, hboth, hpair⟩ := List.mem_flatMap.1 hpair
                    obtain ⟨nested, hmem, rfl⟩ := List.mem_map.1 hpair
                    exact hnested both hboth nested hmem
          · next hmisfit =>
              -- the forms do not fit, whatever is coerced
              refine ⟨false, c, rfl, hsane.compared_false fun assumed hcompares => hmisfit ?_⟩
              cases hcompares with
              | type hkind => exact absurd hkind (hx _)
              | form _ hsrc' hdst' hsize hdirect =>
                  obtain rfl := Option.some.inj (hsrc.symm.trans hsrc')
                  obtain rfl := Option.some.inj (hdst.symm.trans hdst')
                  exact ⟨hsize, List.all_eq_true.2 hdirect⟩

/-- Comparing two symbols. -/
theorem AnswersAll.compareSymbols {names : Interner}
    (h : t.AnswersAll source target stack recur) (hfamilies : t.Families names)
    (hclosed : ∀ {x}, t.Holds x → (t.symbolAt x).Closed t) (hholds : t.Holds x)
    (hsane : t.Sane source target stack c) (y : SymbolId) :
    ∃ holds c', t.compareSymbols recur x y c = .ok holds c' ∧
      t.Compared source target stack c
        (fun assumed => t.Compares source target assumed x y) holds c' := by
  by_cases hx : ∃ sort, t.kindOf x = .userConstant (.type sort)
  · obtain ⟨sort, hx⟩ := hx
    by_cases hy : ∃ expected, t.kindOf y = .userConstant (.type expected)
    · obtain ⟨expected, hy⟩ := hy
      obtain ⟨d, _, info, hd, rfl, _⟩ := hfamilies.type hx
      obtain ⟨answer, c', hrun, hanswer⟩ := h info.sort c
        (isCoercible_of_isSort ⟨d, (hfamilies.data hd).sort_kind⟩) hsane
      refine ⟨answer.coercible && answer.target == some expected, c', ?_, hanswer.sane,
        hanswer.grown, fun hholds => ?_, fun hholds hcompares => ?_⟩
      · rw [compareSymbols_type hx hy, bind_ok hrun]
        rfl
      · obtain ⟨hyes, htarget⟩ := Bool.and_eq_true_iff.1 hholds
        obtain ⟨hcounterpart, hassumes, hjustified⟩ := hanswer.yes hyes
        exact ⟨.type hx hy hassumes (hcounterpart.symm.trans (beq_iff_eq.1 htarget)), hjustified⟩
      · cases hcompares with
        | form hx' => exact hx' _ hx
        | type hx' hy' hsort hexpected =>
            cases hx.symm.trans hx'
            cases hy.symm.trans hy'
            cases hyes : answer.coercible with
            | false => exact (hanswer.no hyes).2 hsort
            | true =>
                rw [hyes, (hanswer.yes hyes).1, hexpected, Bool.true_and] at hholds
                simp at hholds
    · refine ⟨false, c, ?_, hsane.compared_false fun assumed hcompares => ?_⟩
      · rw [compareSymbols_misfit hx fun expected hkind => hy ⟨expected, hkind⟩]
        rfl
      · cases hcompares with
        | type _ hy' => exact hy ⟨_, hy'⟩
        | form hx' => exact hx' _ hx
  · exact h.compareForms hclosed (fun sort hkind => hx ⟨sort, hkind⟩) hholds hsane

end Table

end ManySorted
