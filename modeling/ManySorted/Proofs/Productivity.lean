import ManySorted.Proofs.Productivity.Wiring
import ManySorted.Proofs.Sizing.Component
import ManySorted.Proofs.Table.Writing
import ManySorted.Proofs.Term

/-!
# Productive data has terms

The productive data is the least set that contains what can be built from it
(`Table.mem_productiveData`, `Table.productive_induction`).  Soundness is by induction over that
set: whatever can be built from data with terms has a term.  Completeness is by induction over
terms: the symbol of a term can be built from the symbols of its arguments.  Soundness takes
imported data to have terms, so productive is the same as inhabited wherever this is so
(`Table.Intact.mem_productiveData_iff`).

## Strategy

* **Values that are no data.**  A position with ground values accepts a term, since every base sort
  has a value and no range is empty (`Table.WellFormed.fillable_of_ground`).
* **Soundness.**  By induction over the productive data, each position of it has a term
  (`Table.Intact.fillable`), and terms for all positions make a term (`Table.hasTerms_of_fillable`).
* **Completeness.**  By induction over terms, the symbol of a term is imported or productive
  (`Table.Intact.productive_of_hasSort`).
-/

namespace ManySorted

namespace Table

variable {names : Interner} {t t' : Table} {own known known' : List SymbolId} {x d s : SymbolId}
  {v : AcceptedValues}

/-! ## Productivity does not depend on sizes -/

theorem Alike.symbols_size (h : t.Alike t') : t'.symbols.size = t.symbols.size := by
  apply Nat.le_antisymm
  · by_contra hlt
    have := (h.holds ⟨t.symbols.size⟩).1 (Nat.lt_of_not_le hlt)
    exact absurd this (Nat.lt_irrefl _)
  · by_contra hlt
    have := (h.holds ⟨t'.symbols.size⟩).2 (Nat.lt_of_not_le hlt)
    exact absurd this (Nat.lt_irrefl _)

theorem SizesWritten.ownData (h : t.SizesWritten t') : t'.ownData = t.ownData := by
  have hunsized : ∀ kind : SymbolKind, kind.unsized.isData = kind.isData := fun kind => by
    cases kind <;> rfl
  have hdata : ∀ y, (t'.symbolAt y).kind.isData = (t.symbolAt y).kind.isData := fun y => by
    rw [← hunsized, ← hunsized (t.symbolAt y).kind]
    exact congrArg SymbolKind.isData (h.unsized y)
  have hid : ∀ y, (t'.symbolAt y).id = (t.symbolAt y).id :=
    fun y => (congrArg Symbol.id (h.blank y) :)
  simp only [Table.ownData, symbols_toList_eq, h.symbols_size, List.filter_map, List.map_map]
  simp only [Function.comp_def, hdata, h.failed, Symbol.isImported, h.origin, hid]

theorem SizesWritten.canBuild (h : t.SizesWritten t') : t'.canBuild = t.canBuild := by
  funext known y
  apply Bool.eq_iff_iff.2
  have hfill : ∀ v, t'.canFill known v = t.canFill known v := fun v => by
    simp only [canFill, Symbol.isImported, h.origin, funext h.dataOf?]
  simp only [canBuild_eq_true, h.arity, Symbol.accepted?, h.canonical, hfill]

theorem SizesWritten.productiveData (h : t.SizesWritten t') :
    t'.productiveData = t.productiveData := by
  have hgrow : ∀ rounds known, t'.growProductive t.ownData rounds known =
      t.growProductive t.ownData rounds known := by
    intro rounds
    induction rounds with
    | zero => exact fun _ => rfl
    | succ rounds ih =>
        intro known
        simp only [growProductive, h.canBuild, ih]
  rw [Table.productiveData, h.ownData, hgrow]
  rfl

/-! ## Values that are no data -/

end Table

theorem BaseSortSet.exists_contains {base : BaseSortSet} (h : base.isEmpty = false) :
    ∃ b, base.contains b = true := by
  by_contra hnone
  push Not at hnone
  have hfalse : ∀ b, base.contains b = false := fun b => Bool.eq_false_iff.2 (hnone b)
  have hempty : base = ∅ := by
    cases base
    congr
    exacts [hfalse .natural, hfalse .posInteger, hfalse .negInteger, hfalse .integer, hfalse .real,
      hfalse .string, hfalse .boolean]
  rw [hempty] at h
  cases h

namespace Table

variable {names : Interner} {t : Table} {known : List SymbolId} {x d s : SymbolId}
  {v : AcceptedValues} {shape : DataShape} {info : DataInfo}

theorem hasGroundValues_of_mem_ranges {r : IntRange} (hr : r ∈ v.ranges) :
    v.hasGroundValues = true := by
  have hne : v.ranges.isEmpty = false := List.isEmpty_eq_false_iff.2 (List.ne_nil_of_mem hr)
  simp [AcceptedValues.hasGroundValues, hne]

theorem hasGroundValues_of_mem_constants {value : ConstantValue} (h : value ∈ v.constants) :
    v.hasGroundValues = true := by
  have hne : v.constants.isEmpty = false := List.isEmpty_eq_false_iff.2 (List.ne_nil_of_mem h)
  simp [AcceptedValues.hasGroundValues, hne]

theorem hasGroundValues_of_contains {b : BaseSort} (hb : v.base.contains b = true) :
    v.hasGroundValues = true := by
  have hne : v.base.isEmpty = false := by
    refine Bool.eq_false_iff.2 fun hempty => ?_
    rw [beq_iff_eq.1 hempty] at hb
    cases b <;> cases hb
  simp [AcceptedValues.hasGroundValues, hne]

/-- Whether some finite term is accepted. -/
def Fillable (t : Table) (v : AcceptedValues) : Prop := ∃ x, t.Admits v x

/-- Every base sort has a value. -/
theorem WellFormed.fillable_of_base (h : t.WellFormed names) {b : BaseSort}
    (hb : v.base.contains b = true) : t.Fillable v := by
  have hinteger : ∀ n, b.HasInteger n → t.Fillable v := fun n hn => by
    refine ⟨.integer n, ?_⟩
    rw [Admits]
    exact .inr ⟨b, hb, hn⟩
  cases b with
  | natural => exact hinteger 0 (Int.le_refl 0)
  | posInteger => exact hinteger 1 Int.one_pos
  | negInteger => exact hinteger (-1) (by decide : (-1 : Int) < 0)
  | integer => exact hinteger 0 trivial
  | real => exact hinteger 0 trivial
  | string =>
      refine ⟨.string .empty, ?_⟩
      rw [Admits]
      exact .inr hb
  | boolean =>
      obtain ⟨c, _, _, hc⟩ := h.present (show (SymbolKind.baseConstant .true).isBase =
          true from rfl)
      refine ⟨.constant c, ?_⟩
      rw [Admits]
      exact .inr ⟨hb, _, hc⟩

theorem WellFormed.fillable_of_ground (h : t.WellFormed names) (hclosed : v.Closed t)
    (hground : v.hasGroundValues = true) : t.Fillable v := by
  simp only [AcceptedValues.hasGroundValues, Bool.or_eq_true, Bool.not_eq_true'] at hground
  rcases hground with (hconstants | hranges) | hbase
  · obtain ⟨value, hvalue⟩ :=
      List.exists_mem_of_ne_nil _ (List.isEmpty_eq_false_iff.1 hconstants)
    cases value with
    | string value =>
        refine ⟨.string value, ?_⟩
        rw [Admits]
        exact .inl hvalue
    | symbol c =>
        refine ⟨.constant c, ?_⟩
        rw [Admits]
        exact .inl hvalue
  · obtain ⟨r, hr⟩ := List.exists_mem_of_ne_nil _ (List.isEmpty_eq_false_iff.1 hranges)
    refine ⟨.integer r.low, ?_⟩
    rw [Admits]
    exact .inl ⟨r, hr, Int.le_refl _, hclosed.ranges hr⟩
  · obtain ⟨b, hb⟩ := BaseSortSet.exists_contains hbase
    exact h.fillable_of_base hb

theorem hasGroundValues_of_hasInteger {n : Int} (h : v.HasInteger n) :
    v.hasGroundValues = true := by
  rcases h with ⟨r, hr, _⟩ | ⟨b, hb, _⟩
  · exact hasGroundValues_of_mem_ranges hr
  · exact hasGroundValues_of_contains hb

/-- A position that accepts a term accepts some value that is no data, or the sort of the term. -/
theorem Admits.cases {x : Term} (h : t.Admits v x) :
    v.hasGroundValues = true ∨ ∃ s ∈ v.sorts, t.HasSort s x := by
  cases x with
  | integer n =>
      rw [Admits] at h
      exact .inl (hasGroundValues_of_hasInteger h)
  | fraction q =>
      rw [Admits] at h
      exact .inl (hasGroundValues_of_contains (b := .real) h)
  | string s =>
      rw [Admits] at h
      rcases h with h | h
      · exact .inl (hasGroundValues_of_mem_constants h)
      · exact .inl (hasGroundValues_of_contains (b := .string) h)
  | constant c =>
      rw [Admits] at h
      rcases h with h | ⟨h, _⟩
      · exact .inl (hasGroundValues_of_mem_constants h)
      · exact .inl (hasGroundValues_of_contains (b := .boolean) h)
  | data d arguments => exact .inr (admits_data.1 h)

/-! ## Productive data has terms -/

/-- Whether a sort has a finite term. -/
def HasTerms (t : Table) (s : SymbolId) : Prop := ∃ x, t.HasSort s x

/-- Data of the module has a form if it did not fail, and only then. -/
def DataFormed (t : Table) : Prop := ∀ x, t.Owns x → (t.kindOf x).isData = true →
  ((t.symbolAt x).canonical = none ↔ (t.symbolAt x).failed = true)

/-- Imported data has terms. -/
def ImportsTerms (t : Table) : Prop := ∀ s d, t.dataOf? s = some d →
  (t.symbolAt d).isImported = true → t.HasTerms s

/-- A position that can be filled has a term, if the known data has. -/
theorem Intact.fillable (h : t.Intact names) (himports : t.ImportsTerms) (hclosed : v.Closed t)
    (hfill : t.canFill known v = true)
    (hknown : ∀ {s d}, d ∈ known → t.dataOf? s = some d → t.HasTerms s) : t.Fillable v := by
  rw [canFill, Bool.or_eq_true] at hfill
  rcases hfill with hground | hany
  · exact h.formed.fillable_of_ground hclosed hground
  · obtain ⟨d, hd, hany⟩ := List.any_eq_true.1 hany
    obtain ⟨s, hs, hdata⟩ := List.mem_filterMap.1 hd
    have hterms : t.HasTerms s := by
      rcases Bool.or_eq_true_iff.1 hany with himported | hcontains
      · exact himports _ _ hdata himported
      · exact hknown (List.contains_iff_mem.1 hcontains) hdata
    obtain ⟨x, hx⟩ := hterms
    obtain ⟨d', arguments, rfl⟩ := hx.exists_data
    exact ⟨_, admits_data.2 ⟨s, hs, hx⟩⟩

/-- Terms for all positions make a term. -/
theorem hasTerms_of_fillable {form : CanonicalForm} (hdata : t.dataOf? s = some d)
    (hform : (t.symbolAt s).canonical = some form) (hfill : ∀ v ∈ form.positions, t.Fillable v) :
    t.HasTerms s := by
  have hall : ∃ arguments, List.Forall₂ (fun v x => t.Admits v x) form.positions arguments := by
    clear hform
    revert hfill
    generalize form.positions = positions
    intro hfill
    induction positions with
    | nil => exact ⟨[], .nil⟩
    | cons v rest ih =>
        obtain ⟨x, hx⟩ := hfill v List.mem_cons_self
        obtain ⟨arguments, hrest⟩ := ih fun w hw => hfill w (List.mem_cons_of_mem v hw)
        exact ⟨x :: arguments, .cons hx hrest⟩
  obtain ⟨arguments, hall⟩ := hall
  exact ⟨.data d arguments, hdata, form, hform, admitsAll_iff.2 hall⟩

theorem Intact.accepted?_data (h : t.Intact names) (hdata : t.dataOf? s = some d)
    {form : CanonicalForm} (hform : (t.symbolAt s).canonical = some form) :
    form.size = (t.symbolAt d).arity ∧
      ∀ position, (t.symbolAt d).accepted? position = form.positions[position]? := by
  obtain ⟨shape, info, hkind, rfl⟩ := h.formed.families.sort (dataOf?_eq_some_iff.1 hdata)
  have hd : (t.symbolAt d).canonical = some form := (h.data hkind).form_eq.symm.trans hform
  have hsize := h.form (holds_of_data hkind) (not_isSort_of_data hkind) hd
  rw [Symbol.formSize?, show (t.symbolAt d).kind = _ from hkind] at hsize
  refine ⟨(Option.some.inj hsize).symm, fun position => ?_⟩
  rw [Symbol.accepted?, hd]
  rfl

/-- Soundness: productive data has terms. -/
theorem Intact.hasTerms_of_productive (h : t.Intact names) (hformed : t.DataFormed)
    (himports : t.ImportsTerms) :
    ∀ d ∈ t.productiveData, ∀ s, t.dataOf? s = some d → t.HasTerms s := by
  -- Induction over the productive data: what it is built from has terms.
  refine productive_induction fun d known hown hbuild ih s hdata => ?_
  obtain ⟨howns, hkind, hstands⟩ := h.formed.arena.mem_ownData.1 hown
  obtain ⟨shape, info, hkind', rfl⟩ := h.formed.families.sort (dataOf?_eq_some_iff.1 hdata)
  obtain ⟨form, hform⟩ : ∃ form, (t.symbolAt d).canonical = some form := by
    refine Option.ne_none_iff_exists'.1 fun hnone => ?_
    rw [(hformed d howns hkind).1 hnone] at hstands
    cases hstands
  have hform' := (h.data hkind').form_eq.trans hform
  obtain ⟨hsize, haccepted⟩ := h.accepted?_data hdata hform'
  refine hasTerms_of_fillable hdata hform' fun v hv => ?_
  obtain ⟨position, hposition⟩ := List.mem_iff_getElem?.1 hv
  have hlt : position < (t.symbolAt d).arity :=
    hsize ▸ (List.getElem?_eq_some_iff.1 hposition).1
  obtain ⟨v', hv', hfill⟩ := canBuild_eq_true.1 hbuild position hlt
  obtain rfl : v' = v := Option.some.inj (hv'.symm.trans ((haccepted position).trans hposition))
  exact h.fillable himports (closed_accepted h.closed hv') hfill fun hd hs => ih _ hd _ hs

/-- Completeness: the symbol of a term is imported or productive. -/
theorem Intact.productive_of_hasSort (h : t.Intact names) (hformed : t.DataFormed) {x : Term}
    (hx : t.HasSort s x) (hdata : t.dataOf? s = some d) :
    (t.symbolAt d).isImported = true ∨ d ∈ t.productiveData := by
  induction x generalizing s d with
  | data d' arguments ih =>
      obtain ⟨hd', form, hform, hall⟩ := hx
      obtain rfl : d = d' := Option.some.inj (hdata.symm.trans hd')
      obtain ⟨hsize, haccepted⟩ := h.accepted?_data hdata hform
      obtain ⟨shape, info, hkind, rfl⟩ := h.formed.families.sort (dataOf?_eq_some_iff.1 hdata)
      refine or_iff_not_imp_left.2 fun himported => ?_
      have howns : t.Owns d := by
        refine ⟨holds_of_data hkind, ?_⟩
        rw [Symbol.isSettled, Bool.eq_false_iff.2 himported,
          show (t.symbolAt d).kind = _ from hkind]
        rfl
      have hisData : (t.kindOf d).isData = true := by rw [hkind]; rfl
      have hstands : (t.symbolAt d).failed = false := by
        refine Bool.eq_false_iff.2 fun hfailed => ?_
        have hnone := (hformed d howns hisData).2 hfailed
        cases ((h.data hkind).form_eq.trans hnone).symm.trans hform
      refine mem_productiveData.2 ⟨h.formed.arena.mem_ownData.2 ⟨howns, hisData, hstands⟩, ?_⟩
      -- Each argument shows that its position can be filled.
      refine canBuild_eq_true.2 fun position hlt => ?_
      have hall := admitsAll_iff.1 hall
      have hlt' : position < form.positions.length := by
        rw [← hsize] at hlt
        exact hlt
      refine ⟨form.positions[position], ?_, ?_⟩
      · rw [haccepted]
        exact List.getElem?_eq_getElem hlt'
      · have hadmits := hall.get hlt' (hall.length_eq ▸ hlt')
        rw [canFill, Bool.or_eq_true]
        refine hadmits.cases.imp (fun hground => hground) fun hsort => ?_
        obtain ⟨s', hs', hterm⟩ := hsort
        obtain ⟨d'', arguments', heq⟩ := hterm.exists_data
        have hdata' : t.dataOf? s' = some d'' := by
          rw [heq] at hterm
          exact hterm.1
        refine List.any_eq_true.2 ⟨d'', List.mem_filterMap.2 ⟨s', hs', hdata'⟩, ?_⟩
        rw [Bool.or_eq_true, List.contains_iff_mem]
        exact ih _ (List.get_mem _ _) hterm hdata'
  | _ => exact hx.elim

/-- Data of the module that has a term is productive. -/
theorem Intact.mem_productiveData (h : t.Intact names) (hformed : t.DataFormed)
    (howns : t.Owns d) (hdata : t.dataOf? s = some d) (hterms : t.HasTerms s) :
    d ∈ t.productiveData := by
  obtain ⟨x, hx⟩ := hterms
  refine (h.productive_of_hasSort hformed hx hdata).resolve_left fun himported => ?_
  have hunsettled := howns.unsettled
  rw [Symbol.isSettled, himported] at hunsettled
  cases hunsettled

/-- Data of the module is productive just if it has a term. -/
theorem Intact.mem_productiveData_iff (h : t.Intact names) (hformed : t.DataFormed)
    (himports : t.ImportsTerms) (howns : t.Owns d) (hdata : t.dataOf? s = some d) :
    d ∈ t.productiveData ↔ t.HasTerms s :=
  ⟨fun hd => h.hasTerms_of_productive hformed himports d hd s hdata,
    h.mem_productiveData hformed howns hdata⟩

end Table

end ManySorted
