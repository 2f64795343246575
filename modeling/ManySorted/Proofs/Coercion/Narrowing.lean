import ManySorted.Proofs.Accepted.Covering
import ManySorted.Proofs.Coercion.Relabeling
import ManySorted.Proofs.Session.Completeness

/-!
# Narrowing between tables

Whether values of one table can be used in another does not depend on where the two are put side by
side.  `Table.Narrows` says what it comes to: symbols of the same place, name, kind and arity are
paired, and each is justified by the pairs of what it speaks of, position by position.  For
recursive sorts this is the greatest solution, like `Table.Coercible`.

Narrowing is transitive (`Table.Narrows.trans`), and a symbol narrows to itself just if no value
parameter is listed by what is met on the way (`Table.narrows_self_iff`): parameters of two modules
are never the same constant, not even if the modules are.

## Strategy

* **Pairs.**  Symbols are compared by their data symbols or as constants that are not shared
  (`Table.Matched`).  At most one symbol is paired with another (`Table.Matched.unique`).
* **Greatest solution.**  Pairs that justify one another narrow (`Table.Narrows`), and what narrows
  is justified by what narrows (`Table.Narrows.justifies`).
* **Transitivity.**  Coverage of positions is transitive along pairs (`Table.Covers.trans`), so
  composing two sets of pairs that justify one another gives a third.
* **Reflexivity.**  A position covers itself if it lists no value parameter (`Table.Covers.self`),
  and what is met on the way narrows as well (`Table.Encounters.narrows`).
-/

namespace ManySorted

namespace Table

variable {names : Interner} {t first second third : Table} {x y z c d e s : SymbolId}
  {src mid dst : AcceptedValues} {R S : SymbolId → SymbolId → Prop}

/-- Two symbols of two tables have the same place, name, kind and arity. -/
structure Faces (first second : Table) (x y : SymbolId) : Prop where
  holds : first.Holds x
  holds' : second.Holds y
  path : second.path (second.symbolAt y).home = first.path (first.symbolAt x).home
  name : (second.symbolAt y).name = (first.symbolAt x).name
  tag : (second.kindOf y).tag = (first.kindOf x).tag
  arity : (second.symbolAt y).arity = (first.symbolAt x).arity

/-- Symbols that are compared with one another: sorts, by their data symbols, and constants that are
not shared by all modules. -/
inductive Matched (first second : Table) : SymbolId → SymbolId → Prop
  | sort {x y d e : SymbolId} (hd : first.dataOf? x = some d) (he : second.dataOf? y = some e)
      (h : first.Faces second d e) : Matched first second x y
  | constant {x y : SymbolId} (hx : first.isNestedConstant x = true)
      (hy : (second.kindOf y).staysInRoot = false) (h : first.Faces second x y) :
      Matched first second x y

/-- A position of the second table accepts all that one of the first does, given what the symbols of
the first narrow to. -/
structure Covers (first second : Table) (R : SymbolId → SymbolId → Prop)
    (src dst : AcceptedValues) : Prop where
  integer : ∀ n, src.HasInteger n → dst.HasInteger n
  real : src.base.real = true → dst.base.real = true
  string : src.base.string = true → dst.base.string = true
  boolean : src.base.boolean = true → dst.base.boolean = true
  literal : ∀ value, .string value ∈ src.constants → dst.HasString value
  /-- Constants that are listed are shared by all modules, and found by their names. -/
  shared : ∀ c, .symbol c ∈ src.constants → first.isNestedConstant c = false →
    (first.kindOf c).staysInRoot = true ∧
      ((∃ c', .symbol c' ∈ dst.constants ∧ (second.kindOf c').staysInRoot = true ∧
          (second.symbolAt c').name = (first.symbolAt c).name) ∨
        dst.base.boolean = true ∧ ∃ value, first.kindOf c = .baseConstant value)
  nested : ∀ x ∈ first.nestedSymbols src, ∃ y, R x y ∧ (y ∈ dst.sorts ∨ .symbol y ∈ dst.constants)

/-- The second symbol takes all that the first does, given what the symbols of the first narrow
to. -/
inductive Justifies (first second : Table) (R : SymbolId → SymbolId → Prop) (x y : SymbolId) : Prop
  | type {s s' : SymbolId} (hx : first.kindOf x = .userConstant (.type s))
      (hy : second.kindOf y = .userConstant (.type s')) (hsort : R s s') :
      Justifies first second R x y
  | form {src dst : CanonicalForm} (hx : ∀ s, first.kindOf x ≠ .userConstant (.type s))
      (hsrc : (first.symbolAt x).canonical = some src)
      (hdst : (second.symbolAt y).canonical = some dst)
      (hcovers : List.Forall₂ (first.Covers second R) src.positions dst.positions) :
      Justifies first second R x y

/-- Values of the first symbol can be used as values of the second: the two belong to pairs that
justify one another. -/
def Narrows (first second : Table) (x y : SymbolId) : Prop :=
  ∃ R : SymbolId → SymbolId → Prop, R x y ∧
    ∀ x y, R x y → first.Matched second x y ∧ first.Justifies second R x y

/-! ## Relations of pairs -/

theorem Covers.mono (h : first.Covers second R src dst) (hmono : ∀ x y, R x y → S x y) :
    first.Covers second S src dst :=
  { h with
    nested := fun x hx => by
      obtain ⟨y, hy, hmem⟩ := h.nested x hx
      exact ⟨y, hmono x y hy, hmem⟩ }

theorem Justifies.mono (h : first.Justifies second R x y) (hmono : ∀ x y, R x y → S x y) :
    first.Justifies second S x y := by
  cases h with
  | type hx hy hsort => exact .type hx hy (hmono _ _ hsort)
  | form hx hsrc hdst hcovers =>
      exact .form hx hsrc hdst (hcovers.imp fun _ _ hcovers => hcovers.mono hmono)

theorem Narrows.matched (h : first.Narrows second x y) : first.Matched second x y := by
  obtain ⟨R, hxy, hR⟩ := h
  exact (hR x y hxy).1

/-- What narrows is justified by what narrows. -/
theorem Narrows.justifies (h : first.Narrows second x y) :
    first.Justifies second (first.Narrows second) x y := by
  obtain ⟨R, hxy, hR⟩ := h
  exact (hR x y hxy).2.mono fun x y hxy => ⟨R, hxy, hR⟩

/-! ## Symbols that are compared -/

/-- Constants that are compared are not shared. -/
theorem staysInRoot_of_isNestedConstant (h : t.isNestedConstant c = true) :
    (t.kindOf c).staysInRoot = false := by
  unfold isNestedConstant at h
  split at h
  · next kind hkind =>
      rw [hkind]
      cases kind <;> first | rfl | cases h
  · cases h

theorem isNestedConstant_of_staysInRoot (h : (t.kindOf c).staysInRoot = true) :
    t.isNestedConstant c = false := by
  by_contra hnested
  rw [Bool.not_eq_false] at hnested
  cases (staysInRoot_of_isNestedConstant hnested).symm.trans h

theorem dataOf?_of_isNestedConstant (h : t.isNestedConstant c = true) : t.dataOf? c = none := by
  obtain ⟨kind, hkind⟩ := userConstant_of_isNestedConstant h
  rw [dataOf?, hkind]

theorem mem_nestedSymbols {v : AcceptedValues} : x ∈ t.nestedSymbols v ↔
    (.symbol x ∈ v.constants ∧ t.isNestedConstant x = true) ∨ x ∈ v.sorts := by
  rw [nestedSymbols, List.mem_append, List.mem_filter, AcceptedValues.mem_constantSymbols]
  rfl

/-- What stands across from a constant of the user is one. -/
theorem Faces.userConstant (h : first.Faces second x y) {kind : ConstantKind}
    (hx : first.kindOf x = .userConstant kind) :
    ∃ kind', second.kindOf y = .userConstant kind' := by
  have htag := h.tag
  rw [hx] at htag
  cases hy : second.kindOf y with
  | userConstant kind' => exact ⟨kind', rfl⟩
  | data shape info =>
      rw [hy] at htag
      cases shape <;> cases htag
  | _ =>
      rw [hy] at htag
      cases htag

theorem Matched.dataOf?_eq_none (h : first.Matched second x y)
    (hx : first.isNestedConstant x = true) : second.dataOf? y = none := by
  cases h with
  | sort hd => cases hd.symm.trans (dataOf?_of_isNestedConstant hx)
  | constant hx _ h =>
      obtain ⟨kind, hkind⟩ := userConstant_of_isNestedConstant hx
      obtain ⟨kind', hkind'⟩ := h.userConstant hkind
      rw [dataOf?, hkind']

/-- Only the type of data has a name with a hash sign, so types are paired with types. -/
theorem Matched.type_iff (h : first.Matched second x y) (hfirst : first.Regular names)
    (hsecond : second.Regular names) :
    (∃ s, first.kindOf x = .userConstant (.type s)) ↔
      ∃ s, second.kindOf y = .userConstant (.type s) := by
  cases h with
  | sort hd he =>
      refine iff_of_false ?_ ?_
      · rintro ⟨s, hs⟩
        rw [dataOf?, hs] at hd
        cases hd
      · rintro ⟨s, hs⟩
        rw [dataOf?, hs] at he
        cases he
  | constant _ _ h =>
      have hhashed : ∀ {t : Table} {c : SymbolId}, t.Regular names →
          (∃ s, t.kindOf c = .userConstant (.type s)) →
            Hashed (names.text (t.symbolAt c).name) := by
        rintro t c ht ⟨s, hs⟩
        obtain ⟨d, shape, info, hd, -, rfl⟩ := ht.families.type hs
        exact ⟨_, (ht.families.data hd).constant_text⟩
      constructor
      · intro hx
        by_contra hy
        refine hsecond.families.plain h.holds' (fun s hs => hy ⟨s, hs⟩) ?_
        rw [h.name]
        exact hhashed hfirst hx
      · intro hy
        by_contra hx
        refine hfirst.families.plain h.holds (fun s hs => hx ⟨s, hs⟩) ?_
        rw [← h.name]
        exact hhashed hsecond hy

/-- At most one symbol is paired with another. -/
theorem Matched.unique (h : first.Matched second x y) (hsecond : second.Regular names)
    (h' : first.Matched second x z) : z = y := by
  have hfaces : ∀ {d e e' : SymbolId}, second.dataOf? e = none → first.Faces second d e →
      first.Faces second d e' → e' = e := by
    intro d e e' hnone hd hd'
    have hnamed := hsecond.families.isEmpty_eq_false hd.holds' hnone
    have heq := hsecond.eq_of_path hd.holds' hd'.holds' hnamed (hd.path.trans hd'.path.symm)
      (hd.name.trans hd'.name.symm)
    exact heq.symm
  cases h with
  | @sort d e hd he h =>
      cases h' with
      | @sort d' e' hd' he' h' =>
          obtain rfl : d' = d := Option.some.inj (hd'.symm.trans hd)
          obtain ⟨shape, info, hkind, rfl⟩ := hsecond.families.sort (dataOf?_eq_some_iff.1 he)
          have hnone : second.dataOf? e = none := by rw [dataOf?, hkind]
          obtain rfl := hfaces hnone h h'
          obtain ⟨shape', info', hkind', rfl⟩ := hsecond.families.sort (dataOf?_eq_some_iff.1 he')
          rw [hkind] at hkind'
          cases hkind'
          rfl
      | constant hx _ h' => cases hd.symm.trans (dataOf?_of_isNestedConstant hx)
  | constant hx hy h =>
      cases h' with
      | sort hd' => cases hd'.symm.trans (dataOf?_of_isNestedConstant hx)
      | constant _ _ h' => exact hfaces (Matched.constant hx hy h |>.dataOf?_eq_none hx) h h'

/-! ## Transitivity -/

theorem Faces.trans (h : first.Faces second x y) (h' : second.Faces third y z) :
    first.Faces third x z where
  holds := h.holds
  holds' := h'.holds'
  path := h'.path.trans h.path
  name := h'.name.trans h.name
  tag := h'.tag.trans h.tag
  arity := h'.arity.trans h.arity

theorem Matched.trans (h : first.Matched second x y) (h' : second.Matched third y z) :
    first.Matched third x z := by
  cases h with
  | sort hd he h =>
      cases h' with
      | sort he' hz h' =>
          cases he.symm.trans he'
          exact .sort hd hz (h.trans h')
      | constant hy _ _ => cases he.symm.trans (dataOf?_of_isNestedConstant hy)
  | constant hx hy h =>
      have hnone := (Matched.constant hx hy h).dataOf?_eq_none hx
      cases h' with
      | sort he => cases he.symm.trans hnone
      | constant _ hz h' => exact .constant hx hz (h.trans h')

/-- Coverage of positions is transitive along pairs. -/
theorem Covers.trans (h : first.Covers second R src mid) (h' : second.Covers third S mid dst)
    (hfirst : first.WellFormed names) (hsecond : second.Regular names) (hsrc : src.Closed first)
    (hmid : mid.Closed second) (hR : ∀ x y, R x y → first.Matched second x y) :
    first.Covers third (fun x z => ∃ y, R x y ∧ S y z) src dst where
  integer n hn := h'.integer n (h.integer n hn)
  real hreal := h'.real (h.real hreal)
  string hstring := h'.string (h.string hstring)
  boolean hboolean := h'.boolean (h.boolean hboolean)
  literal value hvalue := by
    rcases h.literal value hvalue with hmem | hstring
    · exact h'.literal value hmem
    · exact .inr (h'.string hstring)
  shared c hc hnested := by
    obtain ⟨hstays, ⟨c', hc', hstays', hname⟩ | ⟨hboolean, hvalue⟩⟩ := h.shared c hc hnested
    · refine ⟨hstays, ?_⟩
      obtain ⟨-, ⟨c'', hc'', hstays'', hname'⟩ | ⟨hboolean, value, hvalue⟩⟩ :=
        h'.shared c' hc' (isNestedConstant_of_staysInRoot hstays')
      · exact .inl ⟨c'', hc'', hstays'', hname'.trans hname⟩
      · refine .inr ⟨hboolean, value, ?_⟩
        have hholds : second.Holds c' :=
          holds_of_kindOf (by rw [hvalue]; exact SymbolKind.noConfusion)
        have hroot := hfirst.rooted (hsrc.constants hc).holds hstays
        rw [← hvalue]
        exact hfirst.kindOf_of_name hsecond (hsrc.constants hc).holds hroot hholds
          (by rw [hvalue]; rfl) hname
    · exact ⟨hstays, .inr ⟨h'.boolean hboolean, hvalue⟩⟩
  nested x hx := by
    obtain ⟨y, hxy, hy⟩ := h.nested x hx
    have hnested : y ∈ second.nestedSymbols mid := by
      rw [mem_nestedSymbols]
      rcases hy with hsort | hconstant
      · exact .inr hsort
      · refine .inl ⟨hconstant, ?_⟩
        by_contra hother
        rw [Bool.not_eq_true] at hother
        -- only shared constants are listed without being compared, and what is paired is not shared
        have hstays := (h'.shared y hconstant hother).1
        cases hR x y hxy with
        | sort _ he _ =>
            have hkind := hmid.constants hconstant
            unfold dataOf? at he
            split at he
            · next hsort =>
                rw [IsConstant, hsort] at hkind
                cases hkind
            · cases he
        | constant _ hmoves _ => cases hmoves.symm.trans hstays
    obtain ⟨z, hyz, hz⟩ := h'.nested y hnested
    exact ⟨z, ⟨y, hxy, hyz⟩, hz⟩

/-- Relations that hold one by one compose. -/
theorem forall₂_comp {α β γ : Type} {P : α → β → Prop} {Q : β → γ → Prop} {l : List α}
    {l' : List β} {l'' : List γ} (h : List.Forall₂ P l l') (h' : List.Forall₂ Q l' l'') :
    List.Forall₂ (fun a c => ∃ b ∈ l', a ∈ l ∧ P a b ∧ Q b c) l l'' := by
  induction h generalizing l'' with
  | nil =>
      cases h'
      exact .nil
  | cons hab _ ih =>
      cases h' with
      | cons hbc hrest =>
          refine .cons ⟨_, List.mem_cons_self, List.mem_cons_self, hab, hbc⟩ ?_
          refine (ih hrest).imp fun a c hac => ?_
          obtain ⟨b, hb, ha, hab, hbc⟩ := hac
          exact ⟨b, List.mem_cons_of_mem _ hb, List.mem_cons_of_mem _ ha, hab, hbc⟩

/-- What can be used in place of something that can be used in place of a third can be used for the
third. -/
theorem Narrows.trans (h : first.Narrows second x y) (h' : second.Narrows third y z)
    (hfirst : first.WellFormed names) (hsecond : second.Regular names)
    (hclosed : ∀ {x}, first.Holds x → (first.symbolAt x).Closed first)
    (hclosed' : ∀ {y}, second.Holds y → (second.symbolAt y).Closed second) :
    first.Narrows third x z := by
  refine ⟨fun x z => ∃ y, first.Narrows second x y ∧ second.Narrows third y z, ⟨y, h, h'⟩, ?_⟩
  rintro x z ⟨y, hxy, hyz⟩
  refine ⟨hxy.matched.trans hyz.matched, ?_⟩
  have htype := hxy.matched.type_iff hfirst.toRegular hsecond
  cases hxy.justifies with
  | type hx hy hsort =>
      cases hyz.justifies with
      | type hy' hz hsort' =>
          rw [hy] at hy'
          cases hy'
          exact .type hx hz ⟨_, hsort, hsort'⟩
      | form hother => exact absurd hy (hother _)
  | form hx hsrc hmid hcovers =>
      cases hyz.justifies with
      | type hy =>
          obtain ⟨s, hs⟩ := htype.2 ⟨_, hy⟩
          exact absurd hs (hx s)
      | form _ hmid' hdst hcovers' =>
          obtain rfl := Option.some.inj (hmid.symm.trans hmid')
          refine .form hx hsrc hdst ((forall₂_comp hcovers hcovers').imp fun v w hvw => ?_)
          obtain ⟨u, hu, hv, hvu, huw⟩ := hvw
          exact hvu.trans huw hfirst hsecond
            ((hclosed (holds_of_canonical hsrc)).form hsrc v hv)
            ((hclosed' (holds_of_canonical hmid)).form hmid u hu) fun _ _ => Narrows.matched

/-! ## Reflexivity -/

/-- What is met when a symbol is compared with others. -/
inductive Encounters (t : Table) (x : SymbolId) : SymbolId → Prop
  | self : Encounters t x x
  | nested {z w : SymbolId} {form : CanonicalForm} {v : AcceptedValues} (hz : Encounters t x z)
      (hform : (t.symbolAt z).canonical = some form) (hv : v ∈ form.positions)
      (hw : w ∈ t.nestedSymbols v) : Encounters t x w
  | type {z w : SymbolId} (hz : Encounters t x z) (hkind : t.kindOf z = .userConstant (.type w)) :
      Encounters t x w

/-- Whether a position of a symbol lists a value parameter. -/
def ListsParameter (t : Table) (x : SymbolId) : Prop :=
  ∃ form v c, (t.symbolAt x).canonical = some form ∧ v ∈ form.positions ∧
    .symbol c ∈ v.constants ∧ t.kindOf c = .userConstant .parameter

/-- Whether a symbol is compared with others: it is a sort or a constant that is not shared. -/
def IsCompared (t : Table) (x : SymbolId) : Prop := t.IsSort x ∨ t.isNestedConstant x = true

theorem exists_of_mem_left {α β : Type} {P : α → β → Prop} {l : List α} {l' : List β}
    (h : List.Forall₂ P l l') {a : α} (ha : a ∈ l) : ∃ b, P a b := by
  induction h with
  | nil => exact absurd ha List.not_mem_nil
  | @cons b c _ _ hbc _ ih =>
      rcases List.mem_cons.1 ha with rfl | ha
      · exact ⟨c, hbc⟩
      · exact ih ha

/-- What has positions is justified by covering them. -/
theorem Narrows.covers (h : first.Narrows second x y) (hcomplete : first.Complete names)
    {form : CanonicalForm} (hform : (first.symbolAt x).canonical = some form)
    {v : AcceptedValues} (hv : v ∈ form.positions) :
    ∃ w, first.Covers second (first.Narrows second) v w := by
  cases h.justifies with
  | type hx =>
      -- types have no positions
      cases hform.symm.trans (hcomplete.constant hx (by simp))
      exact absurd hv List.not_mem_nil
  | form _ hsrc _ hcovers =>
      cases hform.symm.trans hsrc
      exact exists_of_mem_left hcovers hv

/-- If a symbol narrows to another, then so does all that it is compared for. -/
theorem Encounters.narrows (h : first.Encounters x z) (hx : ∃ y, first.Narrows second x y)
    (hcomplete : first.Complete names) : ∃ w, first.Narrows second z w := by
  induction h with
  | self => exact hx
  | nested _ hform hv hw ih =>
      obtain ⟨y, hy⟩ := ih
      obtain ⟨u, hcovers⟩ := hy.covers hcomplete hform hv
      obtain ⟨w', hw', -⟩ := hcovers.nested _ hw
      exact ⟨w', hw'⟩
  | type _ hkind ih =>
      obtain ⟨y, hy⟩ := ih
      cases hy.justifies with
      | type hx _ hsort =>
          rw [hkind] at hx
          cases hx
          exact ⟨_, hsort⟩
      | form hother => exact absurd hkind (hother _)

theorem Narrows.not_listsParameter (h : first.Narrows second x y)
    (hcomplete : first.Complete names) : ¬ first.ListsParameter x := by
  rintro ⟨form, v, c, hform, hv, hc, hkind⟩
  obtain ⟨w, hcovers⟩ := h.covers hcomplete hform hv
  have hstays := (hcovers.shared c hc (by rw [isNestedConstant, hkind]; rfl)).1
  rw [hkind] at hstays
  cases hstays

theorem IsCompared.type (ht : t.Regular names) (hkind : t.kindOf c = .userConstant (.type s)) :
    t.IsCompared s := by
  obtain ⟨d, shape, info, hd, rfl, -⟩ := ht.families.type hkind
  exact .inl ⟨d, (ht.families.data hd).sort_kind⟩

/-- A symbol has its own place, name, kind and arity. -/
theorem IsCompared.matched_self (h : t.IsCompared x) (ht : t.Regular names) : t.Matched t x x := by
  rcases h with ⟨d, hd⟩ | hnested
  · obtain ⟨shape, info, hkind, -⟩ := ht.families.sort hd
    have hx := dataOf?_eq_some_iff.2 hd
    have hholds := holds_of_data hkind
    exact .sort hx hx ⟨hholds, hholds, rfl, rfl, rfl, rfl⟩
  · obtain ⟨kind, hkind⟩ := userConstant_of_isNestedConstant hnested
    have hholds := holds_of_constant hkind
    exact .constant hnested (staysInRoot_of_isNestedConstant hnested)
      ⟨hholds, hholds, rfl, rfl, rfl, rfl⟩

/-- What is compared has a form. -/
theorem IsCompared.canonical (h : t.IsCompared x) (ht : t.Regular names)
    (hcomplete : t.Complete names) :
    ∃ form, (t.symbolAt x).canonical = some form := by
  rcases h with ⟨d, hd⟩ | hnested
  · obtain ⟨shape, info, hkind, rfl⟩ := ht.families.sort hd
    obtain ⟨-, form, size, -, -, hform, -⟩ := hcomplete.data hkind
    exact ⟨form, hform⟩
  · obtain ⟨kind, hkind⟩ := userConstant_of_isNestedConstant hnested
    refine ⟨{}, hcomplete.constant hkind ?_⟩
    rintro rfl
    rw [isNestedConstant, hkind] at hnested
    cases hnested

/-- A position covers itself if it lists no value parameter. -/
theorem Covers.self {v : AcceptedValues} (hv : v.Closed t)
    (hparameter : ∀ c, .symbol c ∈ v.constants → t.kindOf c ≠ .userConstant .parameter)
    (hR : ∀ x ∈ t.nestedSymbols v, R x x) : t.Covers t R v v where
  integer _ hn := hn
  real hreal := hreal
  string hstring := hstring
  boolean hboolean := hboolean
  literal _ hvalue := .inl hvalue
  shared c hc hnested := by
    have hstays : (t.kindOf c).staysInRoot = true := by
      have hconstant := hv.constants hc
      have hother := hparameter c hc
      rw [IsConstant] at hconstant
      rw [isNestedConstant] at hnested
      cases hkind : t.kindOf c with
      | userConstant kind =>
          rw [hkind] at hnested hother
          cases kind <;> first | rfl | exact absurd rfl hother | cases hnested
      | baseConstant value => rfl
      | _ =>
          rw [hkind] at hconstant
          cases hconstant
    exact ⟨hstays, .inl ⟨c, hc, hstays, rfl⟩⟩
  nested x hx := by
    refine ⟨x, hR x hx, ?_⟩
    rcases mem_nestedSymbols.1 hx with ⟨hconstant, -⟩ | hsort
    · exact .inr hconstant
    · exact .inl hsort

/-- A symbol narrows to itself just if nothing that it is compared for lists a value parameter. -/
theorem narrows_self_iff (ht : t.Regular names) (hcomplete : t.Complete names)
    (hclosed : ∀ {x}, t.Holds x → (t.symbolAt x).Closed t) (hx : t.IsCompared x) :
    t.Narrows t x x ↔ ∀ z, t.Encounters x z → ¬ t.ListsParameter z := by
  constructor
  · intro h z hz
    obtain ⟨w, hw⟩ := hz.narrows ⟨x, h⟩ hcomplete
    exact hw.not_listsParameter hcomplete
  · intro hparameters
    refine ⟨fun y z => y = z ∧ t.Encounters x y ∧ t.IsCompared y, ⟨rfl, .self, hx⟩, ?_⟩
    rintro y _ ⟨rfl, hy, hcompared⟩
    refine ⟨hcompared.matched_self ht, ?_⟩
    by_cases htype : ∃ s, t.kindOf y = .userConstant (.type s)
    · obtain ⟨s, hs⟩ := htype
      exact .type hs hs ⟨rfl, hy.type hs, .type ht hs⟩
    · obtain ⟨form, hform⟩ := hcompared.canonical ht hcomplete
      refine .form (fun s hs => htype ⟨s, hs⟩) hform hform (List.forall₂_same.2 fun v hv => ?_)
      have hvalues := (hclosed (holds_of_canonical hform)).form hform v hv
      refine .self hvalues (fun c hc hkind => ?_) fun w hw => ?_
      · exact hparameters y hy ⟨form, v, c, hform, hv, hc, hkind⟩
      · refine ⟨rfl, .nested hy hform hv hw, ?_⟩
        rcases mem_nestedSymbols.1 hw with ⟨-, hnested⟩ | hsort
        · exact .inr hnested
        · exact .inl (hvalues.sorts hsort)

end Table

end ManySorted
