import ManySorted.Proofs.Declaration.Sound

/-!
# Passes that add declarations

A pass enlarges a draft if it keeps the table sound and only adds what the module declares.  What
is known about symbols that are there lasts through such passes (`Draft.Enlarges.frame`), so the
parts of a pass can be treated one after the other.

## Strategy

* **Later drafts.**  Namespaces and symbols are only added (`Draft.Extends`), and facts that later
  declarations do not undo are lasting (`Draft.Lasting`).
* **Frames.**  A lasting fact that is known before a pass is known afterwards
  (`Draft.Enlarges.frame`), so it need not be mentioned in what is shown of the pass.
* **Lists.**  What holds of each result lasts until all results are there (`Draft.enlarges_mapM`,
  `Draft.enlarges_filterMapM`).
-/

namespace ManySorted

namespace Table

variable {names names' : Interner} {t t' : Table}

theorem Extends.of_eq (hid : t'.id = t.id) (hnamespaces : t'.namespaces = t.namespaces)
    (hsymbols : t'.symbols = t.symbols) : t.Extends t' where
  later := .of_eq hid hnamespaces hsymbols
  new {x} hx hnew := by
    rw [Holds, hsymbols] at hx
    exact absurd hx hnew
  nullary {x} hx hnew := by
    rw [Holds, hsymbols] at hx
    exact absurd hx hnew
  size_eq := by rw [hnamespaces]

/-- Whatever changes but the namespaces and symbols. -/
theorem Sound.of_eq (h : t.Sound names) (hid : t'.id = t.id)
    (hnamespaces : t'.namespaces = t.namespaces) (hsymbols : t'.symbols = t.symbols) :
    t'.Sound names := by
  have hsymbol : ∀ x, t'.symbolAt x = t.symbolAt x := fun x => by
    rw [symbolAt, symbolAt, hsymbols]
  have hkind : ∀ x, t'.kindOf x = t.kindOf x := fun x => by rw [kindOf, kindOf, hsymbol]
  have hholds : ∀ {x}, t'.Holds x → t.Holds x := fun hx => by rwa [Holds, hsymbols] at hx
  have hlater : t.Later t' := .of_eq hid hnamespaces hsymbols
  refine ⟨h.regular.of_eq hnamespaces hsymbols, fun {x} hx => ?_, fun {x} hx => ?_,
    fun {x kind form} hconstant => ?_, fun {x kind} hconstant => ?_,
    fun {d shape info} hd howns => ?_, fun {s d} hs howns => ?_, fun {s e} howns he => ?_⟩
  · rw [hsymbol]
    exact (h.closed (hholds hx)).later hlater
  · rw [hsymbol, h.unfailed (hholds hx)]
  · rw [hkind] at hconstant
    rw [hsymbol]
    exact h.plain hconstant
  · rw [hkind] at hconstant
    rw [hsymbol]
    exact h.imported hconstant
  · rw [hkind] at hd
    have hpaired := h.paired hd ⟨hholds howns.holds, hsymbol d ▸ howns.unsettled⟩
    exact ⟨hpaired.owns_sort.later hlater, by rw [hsymbol, hsymbol, hpaired.form_eq],
      by rw [hsymbol]; exact hpaired.size_eq⟩
  · rw [hkind] at hs
    exact (h.owns_data hs ⟨hholds howns.holds, hsymbol s ▸ howns.unsettled⟩).later hlater
  · rw [hsymbol] at he
    exact (h.bounded ⟨hholds howns.holds, hsymbol s ▸ howns.unsettled⟩ he).later hlater

theorem Sound.grown (h : t.Sound names) (hnames : names.Grown names') (hproper : names'.Proper) :
    t.Sound names' := { h with regular := h.regular.grown hnames hproper }

theorem reportAll_eq (t : Table) (rs : List Report) :
    (t.reportAll rs).id = t.id ∧ (t.reportAll rs).namespaces = t.namespaces ∧
      (t.reportAll rs).symbols = t.symbols := by
  induction rs generalizing t with
  | nil => exact ⟨rfl, rfl, rfl⟩
  | cons r rest ih => exact ih (t.report r)

theorem reports_reportAll (t : Table) (rs : List Report) :
    (t.reportAll rs).reports = t.reports ++ rs := by
  induction rs generalizing t with
  | nil => exact (List.append_nil _).symm
  | cons r rest ih =>
      rw [reportAll, List.foldl_cons, ← reportAll, ih, report, List.append_assoc]
      rfl

theorem reports_setSize {t t' : Table} {x : SymbolId} {e : SizeExpr}
    (h : t.setSize x e = .ok t') : t'.reports = t.reports := by
  unfold setSize at h
  split at h <;> cases h
  rfl

end Table

namespace Draft

variable {α β : Type} {x : DraftM α} {f : α → DraftM β} {d d' d'' : Draft}
  {P P' : Draft → Prop} {Q Q' : α → Draft → Prop} {R : β → Draft → Prop}

/-- The draft later in the declarations of its module. -/
structure Extends (d d' : Draft) : Prop where
  grown : d.names.Grown d'.names
  table : d.table.Extends d'.table

/-- What the module has declared so far is in order. -/
def Sound (d : Draft) : Prop := d.table.Sound d.names

theorem Extends.refl (d : Draft) : d.Extends d := ⟨.refl _, .refl _⟩

theorem Extends.trans (h : d.Extends d') (h' : d'.Extends d'') : d.Extends d'' :=
  ⟨h.grown.trans h'.grown, h.table.trans h'.table⟩

/-- Later declarations do not undo the fact. -/
def Lasting (P : Draft → Prop) : Prop := ∀ d d', d.Extends d' → P d → P d'

theorem Lasting.and {P' : Draft → Prop} (h : Lasting P) (h' : Lasting P') :
    Lasting fun d => P d ∧ P' d := fun d d' hext hd => ⟨h d d' hext hd.1, h' d d' hext hd.2⟩

theorem lasting_forall_mem {F : α → Draft → Prop} (l : List α) (h : ∀ a, Lasting (F a)) :
    Lasting fun d => ∀ a ∈ l, F a d := fun d d' hext hd a ha => h a d d' hext (hd a ha)

/-- From a sound draft with `P`, a run that ends well and leaves no errors only adds declarations
and leads to a sound draft with `Q`. -/
structure Enlarges (P : Draft → Prop) (x : DraftM α) (Q : α → Draft → Prop) : Prop where
  proceeds : Proceeds x
  run : ∀ {d a d'}, d.Sound → P d → x d = .ok a d' → d'.table.hasErrors = false →
    d.Extends d' ∧ d'.Sound ∧ Q a d'

namespace Enlarges

theorem bind (hx : Enlarges P x Q) (hf : ∀ a, Enlarges (Q a) (f a) R) :
    Enlarges P (x >>= f) R where
  proceeds := hx.proceeds.bind fun a => (hf a).proceeds
  run hsound hd hrun hclean := by
    obtain ⟨a, d', hx', hf'⟩ := bind_eq_ok.1 hrun
    have hclean' := ((hf a).proceeds.ok hf').table.hasErrors_eq_false hclean
    obtain ⟨hext, hsound', hd'⟩ := hx.run hsound hd hx' hclean'
    obtain ⟨hext', hsound'', hd''⟩ := (hf a).run hsound' hd' hf' hclean
    exact ⟨hext.trans hext', hsound'', hd''⟩

theorem imp (hx : Enlarges P x Q) (hP : ∀ d, P' d → P d) (hQ : ∀ a d, Q a d → Q' a d) :
    Enlarges P' x Q' where
  proceeds := hx.proceeds
  run hsound hd hrun hclean := by
    obtain ⟨hext, hsound', hd'⟩ := hx.run hsound (hP _ hd) hrun hclean
    exact ⟨hext, hsound', hQ _ _ hd'⟩

/-- What follows from soundness may be used. -/
theorem of_sound (hx : Enlarges P x Q) (hP : ∀ d, d.Sound → P' d → P d) : Enlarges P' x Q where
  proceeds := hx.proceeds
  run hsound hd hrun hclean := hx.run hsound (hP _ hsound hd) hrun hclean

theorem ite {c : Prop} [Decidable c] {y : DraftM α} (hx : c → Enlarges P x Q)
    (hy : ¬ c → Enlarges P y Q) : Enlarges P (if c then x else y) Q := by
  split
  · exact hx ‹_›
  · exact hy ‹_›

/-- A lasting fact is still known afterwards. -/
theorem frame {F : Draft → Prop} (hx : Enlarges P x Q) (hF : Lasting F) :
    Enlarges (fun d => P d ∧ F d) x fun a d => Q a d ∧ F d where
  proceeds := hx.proceeds
  run hsound hd hrun hclean := by
    obtain ⟨hext, hsound', hd'⟩ := hx.run hsound hd.1 hrun hclean
    exact ⟨hext, hsound', hd', hF _ _ hext hd.2⟩

theorem keeping (hx : Enlarges P x Q) (hP : Lasting P) : Enlarges P x fun a d => Q a d ∧ P d :=
  (hx.frame hP).imp (fun _ hd => ⟨hd, hd⟩) fun _ _ hd => hd

theorem discard (hx : Enlarges P x Q) {R : Unit → Draft → Prop} (h : ∀ a d, Q a d → R () d) :
    Enlarges P (discard x) R where
  proceeds := hx.proceeds.discard
  run hsound hd hrun hclean := by
    obtain ⟨a, d', hx', hreturn⟩ := bind_eq_ok.1 hrun
    cases hreturn
    obtain ⟨hext, hsound', hd'⟩ := hx.run hsound hd hx' hclean
    exact ⟨hext, hsound', h a _ hd'⟩

end Enlarges

theorem enlarges_pure {a : α} (h : ∀ d, P d → Q a d) : Enlarges P (pure a) Q where
  proceeds := proceeds_pure a
  run hsound hd hrun _ := by
    cases hrun
    exact ⟨.refl _, hsound, h _ hd⟩

theorem enlarges_getTable_bind {g : Table → DraftM β}
    (h : ∀ t, Enlarges (fun d => P d ∧ d.table = t) (g t) R) :
    Enlarges P (getTable >>= g) R where
  proceeds := proceeds_getTable.bind fun t => (h t).proceeds
  run {d} _ _ hsound hd hrun hclean := (h d.table).run hsound ⟨hd, rfl⟩ hrun hclean

theorem enlarges_getNames_bind {g : Interner → DraftM β}
    (h : ∀ names, Enlarges (fun d => P d ∧ d.names = names) (g names) R) :
    Enlarges P (getNames >>= g) R where
  proceeds := proceeds_getNames.bind fun names => (h names).proceeds
  run {d} _ _ hsound hd hrun hclean := (h d.names).run hsound ⟨hd, rfl⟩ hrun hclean

/-- What a step does that does not touch the symbols. -/
theorem enlarges_aside {g : Draft → Draft} {Q : Unit → Draft → Prop}
    (hproceeds : Proceeds (modify g)) (hnames : ∀ d, (g d).names = d.names)
    (htable : ∀ d, (g d).table.id = d.table.id ∧ (g d).table.namespaces = d.table.namespaces ∧
      (g d).table.symbols = d.table.symbols)
    (h : ∀ d, P d → (g d).table.hasErrors = false → Q () (g d)) : Enlarges P (modify g) Q where
  proceeds := hproceeds
  run {d a d'} hsound hd hrun hclean := by
    cases hrun
    obtain ⟨hid, hnamespaces, hsymbols⟩ := htable d
    refine ⟨⟨?_, .of_eq hid hnamespaces hsymbols⟩, ?_, h d hd hclean⟩
    · rw [hnames]
      exact .refl _
    · rw [Sound, hnames]
      exact Table.Sound.of_eq hsound hid hnamespaces hsymbols

/-- A step on the clock does nothing else. -/
theorem enlarges_tick_of (hP : ∀ d, P d → P { d with clock := d.clock.advance }) :
    Enlarges P tick fun _ => P where
  proceeds := proceeds_tick
  run {d a d'} hsound hd hrun hclean := by
    obtain rfl := (establishes_tick (P := fun d₀ => d₀ = d)
      (Q := fun _ d' => d' = { d with clock := d.clock.advance })
      fun _ h => h ▸ rfl).run rfl hrun hclean
    exact ⟨⟨.refl _, .refl _⟩, hsound, hP _ hd⟩

theorem enlarges_tick (hP : Lasting P) : Enlarges P tick fun _ => P :=
  enlarges_tick_of fun d hd => hP d _ ⟨.refl _, .refl _⟩ hd

theorem enlarges_tryModifyTable {g : Table → Except Fault Table} {Q : Unit → Draft → Prop}
    (hproceeds : Proceeds (tryModifyTable g))
    (h : ∀ d table, d.Sound → P d → g d.table = .ok table →
      d.table.Extends table ∧ table.Sound d.names ∧ Q () { d with table }) :
    Enlarges P (tryModifyTable g) Q where
  proceeds := hproceeds
  run {d a d'} hsound hd hrun _ := by
    rw [tryModifyTable, getTable_bind] at hrun
    cases hg : g d.table with
    | ok table =>
        rw [hg] at hrun
        cases hrun
        obtain ⟨hext, hsound', hd'⟩ := h d table hsound hd hg
        exact ⟨⟨.refl _, hext⟩, hsound', hd'⟩
    | error fault =>
        rw [hg] at hrun
        cases hrun

/-! ## Lists of steps -/

/-- What each step adds is there at the end. -/
theorem enlarges_forM_each {g : α → DraftM PUnit} {F : α → Draft → Prop} {l : List α}
    (hP : Lasting P) (hF : ∀ a, Lasting (F a)) (step : ∀ a ∈ l, Enlarges P (g a) fun _ => F a) :
    Enlarges P (l.forM g) fun _ d => P d ∧ ∀ a ∈ l, F a d := by
  induction l with
  | nil => exact enlarges_pure fun _ hd => ⟨hd, fun a ha => absurd ha List.not_mem_nil⟩
  | cons a rest ih =>
      refine ((step a List.mem_cons_self).keeping hP).bind fun _ => ?_
      have hrest := ih fun b hb => step b (List.mem_cons_of_mem _ hb)
      exact (hrest.frame (hF a)).imp (fun _ hd => ⟨hd.2, hd.1⟩)
        fun _ _ hd => ⟨hd.1.1, List.forall_mem_cons.2 ⟨hd.2, hd.1.2⟩⟩

theorem enlarges_forM {g : α → DraftM PUnit} {l : List α} (hP : Lasting P)
    (step : ∀ a ∈ l, Enlarges P (g a) fun _ _ => True) : Enlarges P (l.forM g) fun _ => P :=
  (enlarges_forM_each hP (fun _ _ _ _ h => h) step).imp (fun _ hd => hd) fun _ _ hd => hd.1

/-- The steps of a fold, each given what those before it have done. -/
theorem enlarges_foldlM {g : β → α → DraftM β} {motive : List α → β → Draft → Prop} {l : List α}
    (step : ∀ done b a rest, l = done ++ a :: rest →
      Enlarges (motive done b) (g b a) (motive (done ++ [a]))) (b : β) :
    Enlarges (motive [] b) (l.foldlM g b) (motive l) := by
  have hall : ∀ (rest done : List α) (b : β), l = done ++ rest →
      Enlarges (motive done b) (rest.foldlM g b) (motive l) := by
    intro rest
    induction rest with
    | nil =>
        intro done b hl
        rw [List.append_nil] at hl
        exact hl ▸ enlarges_pure fun _ hd => hd
    | cons a rest ih =>
        intro done b hl
        rw [List.foldlM_cons]
        exact (step done b a rest hl).bind fun b' => ih (done ++ [a]) b' (by rw [hl]; simp)
  exact hall l [] b rfl

/-- What holds of each result lasts until all results are there. -/
theorem enlarges_mapM {g : α → DraftM β} {F : β → Draft → Prop} {l : List α} (hP : Lasting P)
    (hF : ∀ b, Lasting (F b)) (step : ∀ a ∈ l, Enlarges P (g a) F) :
    Enlarges P (l.mapM g) fun bs d => P d ∧ ∀ b ∈ bs, F b d := by
  induction l with
  | nil => exact enlarges_pure fun _ hd => ⟨hd, fun b hb => absurd hb List.not_mem_nil⟩
  | cons a rest ih =>
      rw [List.mapM_cons]
      refine ((step a List.mem_cons_self).keeping hP).bind fun b => ?_
      have hrest := (ih fun c hc => step c (List.mem_cons_of_mem _ hc)).frame (hF b)
      refine (hrest.imp (fun _ hd => ⟨hd.2, hd.1⟩) fun _ _ hd => hd).bind fun bs => ?_
      refine enlarges_pure fun d hd => ⟨hd.1.1, fun c hc => ?_⟩
      rcases List.mem_cons.1 hc with rfl | hc
      · exact hd.2
      · exact hd.1.2 c hc

theorem enlarges_filterMapM {g : α → DraftM (Option β)} {F : β → Draft → Prop} {l : List α}
    (hP : Lasting P) (hF : ∀ b, Lasting (F b))
    (step : ∀ a ∈ l, Enlarges P (g a) fun r d => ∀ b, r = some b → F b d) :
    Enlarges P (l.filterMapM g) fun bs d => P d ∧ ∀ b ∈ bs, F b d := by
  induction l with
  | nil => exact enlarges_pure fun _ hd => ⟨hd, fun b hb => absurd hb List.not_mem_nil⟩
  | cons a rest ih =>
      rw [List.filterMapM_cons]
      have hrest := ih fun c hc => step c (List.mem_cons_of_mem _ hc)
      refine ((step a List.mem_cons_self).keeping hP).bind fun r => ?_
      cases r with
      | none => exact hrest.imp (fun _ hd => hd.2) fun _ _ hd => hd
      | some b =>
          refine ((hrest.frame (hF b)).imp (fun _ hd => ⟨hd.2, hd.1 b rfl⟩)
            fun _ _ hd => hd).bind fun bs => ?_
          refine enlarges_pure fun d hd => ⟨hd.1.1, fun c hc => ?_⟩
          rcases List.mem_cons.1 hc with rfl | hc
          · exact hd.2
          · exact hd.1.2 c hc

end Draft

end ManySorted
