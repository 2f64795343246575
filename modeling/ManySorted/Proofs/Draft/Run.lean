import ManySorted.Draft
import ManySorted.Proofs.Name

/-!
# What a run keeps

However a pass ends, names are only added, reports are only added, and the table is judged by its
reports: it is open as long as there is no error (`Draft.Onward`).  So a table without errors at the
end had none at any time, and what a pass does to tables without errors can be put together from
what its parts do (`Draft.Establishes`).

## Strategy

* **Steps.**  Each step that changes a table goes onward (`Table.Onward`): names and reports are
  only added, and the table is judged by its reports.
* **Passes.**  A pass proceeds if every run of it goes onward, however it ends (`Draft.Proceeds`).
  This is put together along binds, choices and lists.
* **Runs without errors.**  Since errors stay, a run that leaves none had none in between
  (`Draft.Establishes.bind`).  So the parts of such a run may be looked at one by one.
-/

namespace ManySorted

universe u v

/-- What each step adds and no later one undoes is there at the end. -/
theorem foldlM_ok_each {ε : Type u} {α β : Type v} {f : β → α → Except ε β} {l : List α}
    {motive : β → Prop} {Q : α → β → Prop} {b b' : β} (h : l.foldlM f b = .ok b')
    (start : motive b)
    (step : ∀ a ∈ l, ∀ c c', motive c → f c a = .ok c' →
      motive c' ∧ Q a c' ∧ ∀ a', Q a' c → Q a' c') : motive b' ∧ ∀ a ∈ l, Q a b' := by
  have hkept : ∀ (rest : List α), (∀ a ∈ rest, a ∈ l) → ∀ c, motive c → rest.foldlM f c = .ok b' →
      motive b' ∧ (∀ a ∈ rest, Q a b') ∧ ∀ a', Q a' c → Q a' b' := by
    intro rest
    induction rest with
    | nil =>
        intro _ c hc h
        cases h
        exact ⟨hc, fun a ha => absurd ha List.not_mem_nil, fun _ h => h⟩
    | cons a rest ih =>
        intro hmem c hc h
        rw [List.foldlM_cons] at h
        cases hstep : f c a with
        | error e =>
            rw [hstep] at h
            cases h
        | ok c' =>
            rw [hstep] at h
            obtain ⟨hc', ha, hkeep⟩ := step a (hmem a List.mem_cons_self) c c' hc hstep
            obtain ⟨hb, hrest, hkeep'⟩ :=
              ih (fun a' ha' => hmem a' (List.mem_cons_of_mem _ ha')) c' hc' h
            refine ⟨hb, fun a' ha' => ?_, fun a' h => hkeep' a' (hkeep a' h)⟩
            rcases List.mem_cons.1 ha' with rfl | ha'
            · exact hkeep' _ ha
            · exact hrest a' ha'
  obtain ⟨hb, hall, _⟩ := hkept l (fun _ ha => ha) b start h
  exact ⟨hb, hall⟩

/-- A list of steps that may fail, run to the end, keeps what every step keeps. -/
theorem foldlM_ok_induct {ε : Type u} {α β : Type v} {f : β → α → Except ε β} {l : List α}
    {motive : β → Prop} {b b' : β} (h : l.foldlM f b = .ok b') (start : motive b)
    (step : ∀ a ∈ l, ∀ c c', motive c → f c a = .ok c' → motive c') : motive b' :=
  (foldlM_ok_each (Q := fun _ _ => True) h start fun a ha c c' hc hstep =>
    ⟨step a ha c c' hc hstep, trivial, fun _ _ => trivial⟩).1

theorem except_bind_eq_ok {ε : Type u} {α β : Type v} {x : Except ε α} {f : α → Except ε β}
    {b : β} :
    (x >>= f) = .ok b ↔ ∃ a, x = .ok a ∧ f a = .ok b := by
  cases x with
  | error e =>
      constructor
      · intro h
        cases h
      · rintro ⟨_, h, _⟩
        cases h
  | ok a =>
      constructor
      · exact fun h => ⟨a, rfl, h⟩
      · rintro ⟨_, heq, h⟩
        cases heq
        exact h

namespace Table

variable {t t' t'' : Table}

/-- The validity of a table that is not finished follows from its reports. -/
def Judged (t : Table) : Prop := t.validity = if t.hasErrors then .decided false else .pending

/-- What every step keeps of a table. -/
structure Onward (t t' : Table) : Prop where
  reports : t.reports <+: t'.reports
  judged : t.Judged → t'.Judged
  id_eq : t'.id = t.id

namespace Onward

theorem refl (t : Table) : t.Onward t := ⟨List.prefix_rfl, fun h => h, rfl⟩

theorem trans (h : t.Onward t') (h' : t'.Onward t'') : t.Onward t'' where
  reports := h.reports.trans h'.reports
  judged ht := h'.judged (h.judged ht)
  id_eq := h'.id_eq.trans h.id_eq

theorem of_eq (hreports : t'.reports = t.reports) (hvalidity : t'.validity = t.validity)
    (hid : t'.id = t.id) : t.Onward t' where
  reports := hreports ▸ List.prefix_rfl
  judged h := by
    rw [Judged, hasErrors, hreports, hvalidity]
    exact h
  id_eq := hid

/-- Errors stay. -/
theorem hasErrors_eq_false (h : t.Onward t') (ht' : t'.hasErrors = false) :
    t.hasErrors = false := by
  obtain ⟨more, hmore⟩ := h.reports
  rw [hasErrors, ← hmore, List.any_append, Bool.or_eq_false_iff] at ht'
  exact ht'.1

end Onward

theorem hasErrors_report (t : Table) (r : Report) :
    (t.report r).hasErrors = (t.hasErrors || !r.isWarning) := by
  simp [hasErrors, report]

theorem onward_report (t : Table) (r : Report) : t.Onward (t.report r) where
  reports := List.prefix_append _ _
  judged h := by
    rw [Judged, hasErrors_report]
    cases hr : r.isWarning with
    | true =>
        simp only [report, hr, Bool.not_true, Bool.or_false, if_true]
        exact h
    | false =>
        have hvalidity : (t.report r).validity = t.validity.falsify := by simp [report, hr]
        rw [hvalidity, h]
        cases t.hasErrors <;> rfl
  id_eq := rfl

theorem onward_reportAll (t : Table) (rs : List Report) : t.Onward (t.reportAll rs) := by
  induction rs generalizing t with
  | nil => exact .refl t
  | cons r rest ih => exact (t.onward_report r).trans (ih (t.report r))

theorem onward_register {home : NamespaceId} {name : Name} {arity : Nat} {location : Location}
    {kind : SymbolKind} {id : SymbolId} (h : t.register home name arity location kind =
      .ok (id, t')) :
    t.Onward t' := by
  unfold register at h
  simp only at h
  split at h
  · cases h
    exact .of_eq rfl rfl rfl
  · split at h
    · cases h
    · cases h
      exact .of_eq rfl rfl rfl

theorem onward_registerIfFree (t : Table) (home : NamespaceId) (name : Name) (arity : Nat)
    (location : Location) (kind : SymbolKind) :
    t.Onward (t.registerIfFree home name arity location kind) := by
  unfold registerIfFree
  split
  case h_1 h => exact onward_register h
  case h_2 => exact .refl t

theorem onward_updateSymbol (t : Table) (id : SymbolId) (f : Symbol → Symbol) :
    t.Onward (t.updateSymbol id f) := .of_eq rfl rfl rfl

theorem onward_setCanonical {id : SymbolId} {form : CanonicalForm}
    (h : t.setCanonical id form = .ok t') : t.Onward t' := by
  unfold setCanonical at h
  split at h
  · cases h
  · cases h
    exact onward_updateSymbol ..

theorem onward_setSize {id : SymbolId} {e : SizeExpr} (h : t.setSize id e = .ok t') :
    t.Onward t' := by
  unfold setSize at h
  split at h
  · cases h
    exact onward_updateSymbol ..
  · cases h

theorem onward_childNamespace (t : Table) (parent : NamespaceId) (name : Name) :
    t.Onward (t.childNamespace parent name).2 := by
  unfold childNamespace
  split
  · exact .refl t
  · exact .of_eq rfl rfl rfl

end Table

namespace Draft

variable {α β : Type} {x : DraftM α} {f : α → DraftM β} {d d' d'' : Draft}

/-- What every step keeps of a draft. -/
structure Onward (d d' : Draft) : Prop where
  grown : d.names.Grown d'.names
  proper : d.names.Proper → d'.names.Proper
  table : d.table.Onward d'.table

namespace Onward

theorem refl (d : Draft) : d.Onward d := ⟨.refl _, fun h => h, .refl _⟩

theorem trans (h : d.Onward d') (h' : d'.Onward d'') : d.Onward d'' where
  grown := h.grown.trans h'.grown
  proper hd := h'.proper (h.proper hd)
  table := h.table.trans h'.table

theorem of_table {table : Table} (h : d.table.Onward table) : d.Onward { d with table } where
  grown := .refl _
  proper hd := hd
  table := h

theorem of_intern (d : Draft) (s : String) :
    d.Onward { d with names := (d.names.intern s).2 } where
  grown := d.names.grown_intern s
  proper hd := hd.intern s
  table := .refl _

end Onward

/-- The draft that a run leaves, however it ends. -/
def after (x : DraftM α) (d : Draft) : Draft :=
  match x d with
  | .ok _ d' | .error _ d' => d'

/-- Every run of the pass goes onward. -/
structure Proceeds (x : DraftM α) : Prop where
  onward : ∀ d : Draft, d.Onward (after x d)

theorem Proceeds.ok (hx : Proceeds x) {a : α} (h : x d = .ok a d') : d.Onward d' := by
  have hd := hx.onward d
  rwa [after, h] at hd

theorem Proceeds.error (hx : Proceeds x) {abort : Abort} (h : x d = .error abort d') :
    d.Onward d' := by
  have hd := hx.onward d
  rwa [after, h] at hd

/-! ## Putting passes together -/

theorem bind_eq_ok {b : β} :
    (x >>= f) d = .ok b d'' ↔ ∃ a d', x d = .ok a d' ∧ f a d' = .ok b d'' := by
  change EStateM.bind x f d = .ok b d'' ↔ _
  unfold EStateM.bind
  cases hx : x d with
  | ok a d' =>
      refine ⟨fun h => ⟨a, d', rfl, h⟩, ?_⟩
      rintro ⟨a', d', heq, hf⟩
      cases heq
      exact hf
  | error abort d' =>
      refine ⟨fun h => ?_, ?_⟩
      · cases h
      · rintro ⟨_, _, heq, _⟩
        cases heq

theorem proceeds_pure (a : α) : Proceeds (pure a) := ⟨fun d => .refl d⟩

theorem proceeds_get : Proceeds get := ⟨fun d => .refl d⟩

theorem proceeds_throw (abort : Abort) : Proceeds (throw abort : DraftM α) := ⟨fun d => .refl d⟩

theorem proceeds_modifyGet {g : Draft → α × Draft} (h : ∀ d : Draft, d.Onward (g d).2) :
    Proceeds (modifyGet g) := ⟨h⟩

theorem proceeds_modify {g : Draft → Draft} (h : ∀ d : Draft, d.Onward (g d)) :
    Proceeds (modify g) := ⟨h⟩

theorem Proceeds.bind (hx : Proceeds x) (hf : ∀ a, Proceeds (f a)) : Proceeds (x >>= f) := by
  refine ⟨fun d => ?_⟩
  change d.Onward (match EStateM.bind x f d with | .ok _ d' | .error _ d' => d')
  unfold EStateM.bind
  cases h : x d with
  | ok a d' => exact (hx.ok h).trans ((hf a).onward d')
  | error e d' => exact hx.error h

theorem Proceeds.discard (hx : Proceeds x) : Proceeds (discard x) :=
  hx.bind (f := fun _ => pure ()) fun _ => proceeds_pure ()

theorem Proceeds.ite {c : Prop} [Decidable c] {y : DraftM α} (hx : Proceeds x) (hy : Proceeds y) :
    Proceeds (if c then x else y) := by
  split
  · exact hx
  · exact hy

theorem proceeds_forM {g : α → DraftM PUnit} {l : List α} (h : ∀ a ∈ l, Proceeds (g a)) :
    Proceeds (l.forM g) := by
  induction l with
  | nil => exact proceeds_pure _
  | cons a rest ih =>
      exact (h a List.mem_cons_self).bind fun _ => ih fun a' ha' =>
        h a' (List.mem_cons_of_mem _ ha')

theorem proceeds_foldlM {g : β → α → DraftM β} (l : List α) (h : ∀ b a, Proceeds (g b a)) (b : β) :
    Proceeds (l.foldlM g b) := by
  induction l generalizing b with
  | nil => exact proceeds_pure b
  | cons a rest ih => exact (h b a).bind ih

theorem proceeds_mapM {g : α → DraftM β} (l : List α) (h : ∀ a, Proceeds (g a)) :
    Proceeds (l.mapM g) := by
  induction l with
  | nil => exact proceeds_pure []
  | cons a rest ih =>
      rw [List.mapM_cons]
      exact (h a).bind fun b => ih.bind fun bs => proceeds_pure _

theorem proceeds_filterMapM {g : α → DraftM (Option β)} (l : List α) (h : ∀ a, Proceeds (g a)) :
    Proceeds (l.filterMapM g) := by
  induction l with
  | nil => exact proceeds_pure []
  | cons a rest ih =>
      rw [List.filterMapM_cons]
      refine (h a).bind fun b => ?_
      cases b with
      | none => exact ih
      | some b => exact ih.bind fun bs => proceeds_pure _

theorem proceeds_filterAuxM {g : α → DraftM Bool} (l kept : List α) (h : ∀ a, Proceeds (g a)) :
    Proceeds (l.filterAuxM g kept) := by
  induction l generalizing kept with
  | nil => exact proceeds_pure _
  | cons a rest ih => exact (h a).bind fun keep => ih _

theorem proceeds_filterM {g : α → DraftM Bool} (l : List α) (h : ∀ a, Proceeds (g a)) :
    Proceeds (l.filterM g) :=
  (proceeds_filterAuxM l [] h).bind fun _ => proceeds_pure _

/-! ## The steps of drafts -/

theorem proceeds_tick : Proceeds tick := by
  refine Proceeds.bind (proceeds_modify fun d => ?_) fun _ => ?_
  · exact ⟨.refl _, fun h => h, .refl _⟩
  exact proceeds_get.bind fun d => (proceeds_throw _).ite (proceeds_pure _)

theorem getTable_bind (g : Table → DraftM α) (d : Draft) : (getTable >>= g) d = g d.table d := rfl

theorem getNames_bind (g : Interner → DraftM α) (d : Draft) : (getNames >>= g) d =
    g d.names d := rfl

theorem get_bind (g : Draft → DraftM α) (d : Draft) : ((get : DraftM Draft) >>= g) d = g d d := rfl

theorem proceeds_getTable : Proceeds getTable := ⟨fun d => .refl d⟩

theorem proceeds_getNames : Proceeds getNames := ⟨fun d => .refl d⟩

theorem proceeds_modifyTable {g : Table → Table} (h : ∀ t : Table, t.Onward (g t)) :
    Proceeds (modifyTable g) :=
  proceeds_modify fun d => .of_table (h d.table)

theorem proceeds_tryModifyTable {g : Table → Except Fault Table}
    (h : ∀ t t' : Table, g t = .ok t' → t.Onward t') : Proceeds (tryModifyTable g) := by
  refine ⟨fun d => ?_⟩
  cases hg : g d.table with
  | ok table =>
      have hrun : tryModifyTable g d = .ok () { d with table } := by
        rw [tryModifyTable, getTable_bind, hg]
        rfl
      rw [after, hrun]
      exact .of_table (h _ _ hg)
  | error fault =>
      have hrun : tryModifyTable g d = .error (.fault fault) d := by
        rw [tryModifyTable, getTable_bind, hg]
        rfl
      rw [after, hrun]
      exact .refl d

theorem proceeds_intern (s : String) : Proceeds (intern s) :=
  proceeds_modifyGet fun d => .of_intern d s

theorem proceeds_report (location : Location) (problem : Problem) :
    Proceeds (report location problem) :=
  proceeds_modifyTable fun t => t.onward_report _

/-! ## Runs that end without errors -/

section

variable {P Q' : Draft → Prop} {Q : α → Draft → Prop} {R : β → Draft → Prop}

/-- From a draft with `P`, a run that ends well and leaves no errors leads to a draft with `Q`. -/
structure Establishes (P : Draft → Prop) (x : DraftM α) (Q : α → Draft → Prop) : Prop where
  proceeds : Proceeds x
  run : ∀ {d a d'}, P d → x d = .ok a d' → d'.table.hasErrors = false → Q a d'

/-- Since errors stay, there are none in between either. -/
theorem Establishes.bind (hx : Establishes P x Q) (hf : ∀ a, Establishes (Q a) (f a) R) :
    Establishes P (x >>= f) R where
  proceeds := hx.proceeds.bind fun a => (hf a).proceeds
  run hd hrun hclean := by
    obtain ⟨a, d', hx', hf'⟩ := bind_eq_ok.1 hrun
    have hclean' := ((hf a).proceeds.ok hf').table.hasErrors_eq_false hclean
    exact (hf a).run (hx.run hd hx' hclean') hf' hclean

theorem Establishes.imp {P' : Draft → Prop} {Q' : α → Draft → Prop} (hx : Establishes P x Q)
    (hP : ∀ d, P' d → P d) (hQ : ∀ a d, Q a d → Q' a d) : Establishes P' x Q' where
  proceeds := hx.proceeds
  run hd hrun hclean := hQ _ _ (hx.run (hP _ hd) hrun hclean)

theorem Establishes.ite {c : Prop} [Decidable c] {y : DraftM α} (hx : c → Establishes P x Q)
    (hy : ¬ c → Establishes P y Q) : Establishes P (if c then x else y) Q := by
  split
  · exact hx ‹_›
  · exact hy ‹_›

theorem establishes_pure {a : α} (h : ∀ d, P d → Q a d) : Establishes P (pure a) Q where
  proceeds := proceeds_pure a
  run hd hrun _ := by
    cases hrun
    exact h _ hd

theorem establishes_getTable_bind {g : Table → DraftM β}
    (h : ∀ t, Establishes (fun d => P d ∧ d.table = t) (g t) R) :
    Establishes P (getTable >>= g) R where
  proceeds := proceeds_getTable.bind fun t => (h t).proceeds
  run {d} _ _ hd hrun hclean := (h d.table).run ⟨hd, rfl⟩ hrun hclean

theorem establishes_getNames_bind {g : Interner → DraftM β}
    (h : ∀ names, Establishes (fun d => P d ∧ d.names = names) (g names) R) :
    Establishes P (getNames >>= g) R where
  proceeds := proceeds_getNames.bind fun names => (h names).proceeds
  run {d} _ _ hd hrun hclean := (h d.names).run ⟨hd, rfl⟩ hrun hclean

theorem establishes_get_bind {g : Draft → DraftM β}
    (h : ∀ start, Establishes (fun d => P d ∧ d = start) (g start) R) :
    Establishes P (get >>= g) R where
  proceeds := proceeds_get.bind fun start => (h start).proceeds
  run {d} _ _ hd hrun hclean := (h d).run ⟨hd, rfl⟩ hrun hclean

theorem establishes_modifyGet {g : Draft → α × Draft} (hproceeds : Proceeds (modifyGet g))
    (h : ∀ d, P d → (g d).2.table.hasErrors = false → Q (g d).1 (g d).2) :
    Establishes P (modifyGet g) Q where
  proceeds := hproceeds
  run hd hrun hclean := by
    cases hrun
    exact h _ hd hclean

theorem establishes_modify {g : Draft → Draft} {Q : Unit → Draft → Prop}
    (hproceeds : Proceeds (modify g))
    (h : ∀ d, P d → (g d).table.hasErrors = false → Q () (g d)) :
    Establishes P (modify g) Q where
  proceeds := hproceeds
  run hd hrun hclean := by
    cases hrun
    exact h _ hd hclean

theorem establishes_tick {Q : Unit → Draft → Prop}
    (h : ∀ d, P d → Q () { d with clock := d.clock.advance }) : Establishes P tick Q where
  proceeds := proceeds_tick
  run {d a d'} hd hrun _ := by
    obtain ⟨_, d₁, hmodify, hrun⟩ := bind_eq_ok.1 hrun
    cases hmodify
    rw [get_bind] at hrun
    by_cases hcancelled : d.clock.advance.seesCancellation = true
    · rw [if_pos hcancelled] at hrun
      cases hrun
    · rw [if_neg hcancelled] at hrun
      cases hrun
      exact h d hd

theorem establishes_tryModifyTable {g : Table → Except Fault Table} {Q : Unit → Draft → Prop}
    (hproceeds : Proceeds (tryModifyTable g))
    (h : ∀ d table, P d → g d.table = .ok table → table.hasErrors = false →
      Q () { d with table }) : Establishes P (tryModifyTable g) Q where
  proceeds := hproceeds
  run {d a d'} hd hrun hclean := by
    rw [tryModifyTable, getTable_bind] at hrun
    cases hg : g d.table with
    | ok table =>
        rw [hg] at hrun
        cases hrun
        exact h d table hd hg hclean
    | error fault =>
        rw [hg] at hrun
        cases hrun

/-- What every step of a list keeps, with what is known after each. -/
theorem establishes_forM {g : α → DraftM PUnit} {motive : List α → Draft → Prop} {l : List α}
    (step : ∀ done a, a ∈ l → Establishes (motive done) (g a) fun _ => motive (done ++ [a])) :
    Establishes (motive []) (l.forM g) fun _ => motive l := by
  have hall : ∀ (rest done : List α), (∀ a ∈ rest, a ∈ l) →
      Establishes (motive done) (rest.forM g) fun _ => motive (done ++ rest) := by
    intro rest
    induction rest with
    | nil => exact fun done _ => establishes_pure fun d hd => by rwa [List.append_nil]
    | cons a rest ih =>
        intro done hmem
        have hrest := ih (done ++ [a]) fun b hb => hmem b (List.mem_cons_of_mem _ hb)
        rw [List.append_assoc] at hrest
        exact (step done a (hmem a List.mem_cons_self)).bind fun _ => hrest
  exact hall l [] fun a ha => ha

/-- The same for a list of steps that hand a value on. -/
theorem establishes_foldlM {g : β → α → DraftM β} {motive : List α → β → Draft → Prop}
    {l : List α}
    (step : ∀ done b a, a ∈ l → Establishes (motive done b) (g b a) (motive (done ++ [a])))
    (b : β) : Establishes (motive [] b) (l.foldlM g b) (motive l) := by
  have hall : ∀ (rest done : List α) (b : β), (∀ a ∈ rest, a ∈ l) →
      Establishes (motive done b) (rest.foldlM g b) (motive (done ++ rest)) := by
    intro rest
    induction rest with
    | nil => exact fun done b _ => establishes_pure fun d hd => by rwa [List.append_nil]
    | cons a rest ih =>
        intro done b hmem
        have hrest : ∀ b', Establishes (motive (done ++ [a]) b') (rest.foldlM g b')
            (motive (done ++ a :: rest)) := fun b' => by
          have := ih (done ++ [a]) b' fun c hc => hmem c (List.mem_cons_of_mem _ hc)
          rwa [List.append_assoc] at this
        exact (step done b a (hmem a List.mem_cons_self)).bind hrest
  exact hall l [] b fun a ha => ha

end

end Draft

end ManySorted
