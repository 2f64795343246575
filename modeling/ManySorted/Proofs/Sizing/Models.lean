import ManySorted.Proofs.Productivity
import ManySorted.Proofs.Session.Safety
import ManySorted.Proofs.Sizing.Counting

/-!
# Sizes bound models

A model is a finite set of terms that contains the data at positions that are not marked `any`, and
whose maps are functions.  The size of a sort bounds the number of its facts in every model that
contains the data of finite sorts at marked positions as well (`Session.facts_le`).

The bound is proved for the facts up to a depth, by induction on the depth: the arguments of a fact
are facts of lower depth, values that are no data, or facts of a sort that counts with all its
facts.  Without the condition on marked positions it fails: an infinite sort counts with its facts
below a sort whose values then stand at a marked position, where nothing asks that they are facts.

## Strategy

* **Depth.**  The arguments of a fact are of lower depth, so facts up to a depth are counted by the
  values that they have at each position, for facts up to the depth before
  (`Table.admits_of_mem_valuesAt`).
* **One position.**  Its values are no data, or facts of a sort that contributes its size, or all
  its facts if the size is infinite (`Table.IsModel.encard_valuesAt_le`).
* **One sort.**  Facts are told apart by the positions that count, since maps are functions
  (`Table.IsModel.eq_of_take`), so there are no more of them than the product of the positions
  (`Table.IsModel.encard_factsBelow_le`).
* **All depths.**  By induction the facts up to any depth are bounded (`Table.IsModel.boundsBelow`),
  and a model is finite.
-/

namespace ManySorted

namespace Table

variable {names : Interner} {tables : List Table} {t : Table} {M : Set Term} {s d : SymbolId}
  {v : AcceptedValues} {e : SizeExpr} {k : Nat}

/-! ## Models -/

/-- A finite set of terms is a model if its terms are well typed, the data at positions that are not
marked `any` belongs to it, and what a map gives depends on its domain alone. -/
structure IsModel (t : Table) (M : Set Term) : Prop where
  finite : M.Finite
  typed : ∀ x ∈ M, ∃ s, t.HasSort s x
  relational : ∀ {d arguments position d' arguments'}, .data d arguments ∈ M →
    arguments[position]? = some (.data d' arguments') → (t.kindOf d).isAny position = false →
    .data d' arguments' ∈ M
  functional : ∀ {d kind isPartial domainArity info arguments arguments'},
    t.kindOf d = .data (.map kind isPartial domainArity) info → .data d arguments ∈ M →
    .data d arguments' ∈ M → arguments.take domainArity = arguments'.take domainArity →
    arguments = arguments'

/-- Whether a model contains the data at marked positions whose sort has a finite size. -/
def CoversSized (t : Table) (M : Set Term) : Prop :=
  ∀ d arguments position s x e, .data d arguments ∈ M → arguments[position]? = some x →
    (t.kindOf d).isAny position = true → t.HasSort s x → (t.symbolAt s).size? = some e →
    e.isInfinite = false → x ∈ M

/-- The facts of a sort in a model. -/
def facts (t : Table) (M : Set Term) (s : SymbolId) : Set Term := {x ∈ M | t.HasSort s x}

/-- The facts of a sort up to a depth. -/
def factsBelow (t : Table) (M : Set Term) (k : Nat) (s : SymbolId) : Set Term :=
  {x ∈ t.facts M s | sizeOf x < k}

/-- The values that facts of a sort have at a position, for facts up to a depth. -/
def valuesAt (t : Table) (M : Set Term) (k : Nat) (s : SymbolId) (position : Nat) : Set Term :=
  {a | ∃ d arguments, .data d arguments ∈ t.factsBelow M (k + 1) s ∧ arguments[position]? = some a}

/-- What is known of the facts up to a depth. -/
def BoundsBelow (t : Table) (M : Set Term) (k : Nat) : Prop :=
  ∀ s e, (t.symbolAt s).size? = some e →
    (t.factsBelow M k s).encard ≤ e.amount fun s => (t.facts M s).encard

theorem slotAmount_of_accepted? {facts : SymbolId → ℕ∞} {position : Nat}
    (h : (t.symbolAt s).accepted? position = some v) :
    t.slotAmount facts s position = v.groundAmount
      + (v.sorts.toList.map (t.sortAmount facts (t.isAnyAt s position))).sum := by
  rw [slotAmount, h]

/-- The arguments of a fact are accepted by the form of its sort, and are of lower depth. -/
theorem admits_of_mem_valuesAt {form : CanonicalForm}
    (hform : (t.symbolAt s).canonical = some form) {position : Nat}
    (hposition : form.positions[position]? = some v) {a : Term}
    (ha : a ∈ t.valuesAt M k s position) :
    t.Admits v a ∧ sizeOf a < k ∧ ∃ d arguments, t.dataOf? s = some d ∧ .data d arguments ∈ M ∧
      arguments[position]? = some a := by
  obtain ⟨d, arguments, ⟨⟨hmem, hd, form', hform', hall⟩, hlt⟩, hget⟩ := ha
  obtain rfl : form = form' := Option.some.inj (hform.symm.trans hform')
  have hadmits : t.Admits v a := by
    obtain ⟨hlt, rfl⟩ := List.getElem?_eq_some_iff.1 hposition
    obtain ⟨hlt', rfl⟩ := List.getElem?_eq_some_iff.1 hget
    exact (admitsAll_iff.1 hall).get hlt hlt'
  have hsize := List.sizeOf_lt_of_mem (List.mem_of_getElem? hget)
  rw [Term.data.sizeOf_spec] at hlt
  exact ⟨hadmits, by omega, d, arguments, hd, hmem, hget⟩

/-- The values of a sort at a position are counted by what the sort contributes. -/
theorem IsModel.encard_sortValues_le (hM : t.IsModel M) (hcovers : t.CoversSized M)
    (hbelow : t.BoundsBelow M k) {form : CanonicalForm}
    (hform : (t.symbolAt s).canonical = some form) {position : Nat}
    (hposition : form.positions[position]? = some v) (s' : SymbolId) :
    {a ∈ t.valuesAt M k s position | t.HasSort s' a}.encard ≤
      t.sortAmount (fun s => (t.facts M s).encard) (t.isAnyAt s position) s' := by
  have hvalue : ∀ {a}, a ∈ t.valuesAt M k s position → t.HasSort s' a →
      ((t.isAnyAt s position = true → ∃ e, (t.symbolAt s').size? = some e ∧ e.isInfinite = false) →
        a ∈ M) ∧ sizeOf a < k := by
    intro a ha hsort
    obtain ⟨-, hlt, d, arguments, hd, hmem, hget⟩ := admits_of_mem_valuesAt hform hposition ha
    refine ⟨fun hsized => ?_, hlt⟩
    obtain ⟨d', arguments', rfl⟩ := hsort.exists_data
    have hany : t.isAnyAt s position = (t.kindOf d).isAny position := by
      rw [isAnyAt, hd, Option.any_some]
    cases hmark : (t.kindOf d).isAny position with
    | false => exact hM.relational hmem hget hmark
    | true =>
        obtain ⟨e, he, hfinite⟩ := hsized (hany.trans hmark)
        exact hcovers d arguments position s' _ e hmem hget hmark hsort he hfinite
  unfold sortAmount
  split
  · next hcard =>
      simp only [Bool.and_eq_true, Bool.not_eq_true'] at hcard
      refine Set.encard_le_encard fun a ha => ⟨(hvalue ha.1 ha.2).1 fun hany => ?_, ha.2⟩
      cases hcard.2.symm.trans hany
  · next hcard =>
      cases he : (t.symbolAt s').size? with
      | none => exact le_top
      | some e =>
          rw [Option.getD_some]
          cases hinfinite : e.isInfinite with
          | true =>
              cases e <;> cases hinfinite
              exact le_top
          | false =>
              refine le_trans (Set.encard_le_encard ?_) (hbelow s' e he)
              exact fun a ha => ⟨⟨(hvalue ha.1 ha.2).1 fun _ => ⟨e, he, hinfinite⟩, ha.2⟩,
                (hvalue ha.1 ha.2).2⟩

/-- The values at a position are counted, if the facts of lower depth are. -/
theorem IsModel.encard_valuesAt_le (hM : t.IsModel M) (ht : t.Regular names)
    (hcovers : t.CoversSized M) (hbelow : t.BoundsBelow M k) {form : CanonicalForm}
    (hform : (t.symbolAt s).canonical = some form) {position : Nat}
    (hposition : form.positions[position]? = some v) :
    (t.valuesAt M k s position).encard ≤
      t.slotAmount (fun s => (t.facts M s).encard) s position := by
  have haccepted : (t.symbolAt s).accepted? position = some v := by
    rw [Symbol.accepted?, hform]
    exact hposition
  have hcases : t.valuesAt M k s position ⊆ t.groundTerms v ∪
      {a | ∃ s' ∈ v.sorts.toList, a ∈ {a ∈ t.valuesAt M k s position | t.HasSort s' a}} := by
    intro a ha
    obtain ⟨hadmits, -⟩ := admits_of_mem_valuesAt hform hposition ha
    by_cases hdata : ∃ d arguments, a = .data d arguments
    · obtain ⟨d, arguments, rfl⟩ := hdata
      obtain ⟨s', hs', hterm⟩ := admits_data.1 hadmits
      exact .inr ⟨s', hs', ha, hterm⟩
    · exact .inl ⟨hadmits, fun d arguments heq => hdata ⟨d, arguments, heq⟩⟩
  rw [slotAmount_of_accepted? haccepted]
  refine (Set.encard_le_encard hcases).trans ((Set.encard_union_le _ _).trans ?_)
  refine add_le_add ht.encard_groundTerms_le ((encard_exists_mem_le _ _).trans ?_)
  exact List.sum_le_sum fun s' _ => hM.encard_sortValues_le hcovers hbelow hform hposition s'

/-- The first arguments of a term. -/
def firstArguments (n : Nat) : Term → List Term
  | .data _ arguments => arguments.take n
  | _ => []

/-- No more positions count than there are. -/
theorem Intact.countedArity_le (ht : t.Intact names) (hdata : t.dataOf? s = some d)
    {form : CanonicalForm} (hform : (t.symbolAt s).canonical = some form) :
    countedArity (t.symbolAt d) ≤ form.positions.length := by
  obtain ⟨hsize, -⟩ := ht.accepted?_data hdata hform
  obtain ⟨shape, info, hkind, rfl⟩ := ht.formed.families.sort (dataOf?_eq_some_iff.1 hdata)
  have hdomain := (ht.data hkind).domain
  rw [← CanonicalForm.size, hsize, countedArity, show (t.symbolAt d).kind = _ from hkind]
  cases shape with
  | constructor isNew => exact Nat.le_refl _
  | map kind isPartial domainArity => exact hdomain

/-- Facts are told apart by the positions that count. -/
theorem IsModel.eq_of_take (hM : t.IsModel M) (ht : t.Intact names) {form : CanonicalForm}
    (hdata : t.dataOf? s = some d) (hform : (t.symbolAt s).canonical = some form)
    {arguments arguments' : List Term} (hx : .data d arguments ∈ t.facts M s)
    (hx' : .data d arguments' ∈ t.facts M s)
    (heq : arguments.take (countedArity (t.symbolAt d)) =
      arguments'.take (countedArity (t.symbolAt d))) : arguments = arguments' := by
  obtain ⟨hsize, -⟩ := ht.accepted?_data hdata hform
  have hlength : ∀ {arguments}, .data d arguments ∈ t.facts M s →
      arguments.length = (t.symbolAt d).arity := by
    rintro arguments ⟨-, -, form', hform', hall⟩
    obtain rfl : form = form' := Option.some.inj (hform.symm.trans hform')
    exact (admitsAll_iff.1 hall).length_eq.symm.trans hsize
  obtain ⟨shape, info, hkind, -⟩ := ht.formed.families.sort (dataOf?_eq_some_iff.1 hdata)
  rw [countedArity, show (t.symbolAt d).kind = _ from hkind] at heq
  cases shape with
  | constructor isNew =>
      change arguments.take (t.symbolAt d).arity = arguments'.take (t.symbolAt d).arity at heq
      rwa [List.take_of_length_le (hlength hx).le, List.take_of_length_le (hlength hx').le] at heq
  | map kind isPartial domainArity => exact hM.functional hkind hx.1 hx'.1 heq

/-- The facts up to the next depth are told apart by their values at the positions that count. -/
theorem IsModel.encard_factsBelow_le (hM : t.IsModel M) (ht : t.Intact names)
    (hcovers : t.CoversSized M) (hbelow : t.BoundsBelow M k) (s : SymbolId) :
    (t.factsBelow M (k + 1) s).encard ≤
      t.productAmount (fun s => (t.facts M s).encard) s := by
  -- A sort without terms has no facts.
  have hnone : (∀ x, ¬ t.HasSort s x) → (t.factsBelow M (k + 1) s).encard = 0 := fun h =>
    Set.encard_eq_zero.2 (Set.eq_empty_of_forall_notMem fun x hx => h x hx.1.2)
  cases hdata : t.dataOf? s with
  | none =>
      refine (hnone fun x hx => ?_).trans_le zero_le
      obtain ⟨d, arguments, rfl⟩ := hx.exists_data
      cases hdata.symm.trans hx.1
  | some d =>
      cases hform : (t.symbolAt s).canonical with
      | none =>
          refine (hnone fun x hx => ?_).trans_le zero_le
          obtain ⟨d, arguments, rfl⟩ := hx.exists_data
          obtain ⟨-, form, hform', -⟩ := hx
          cases hform.symm.trans hform'
      | some form =>
          have hcounted := ht.countedArity_le hdata hform
          -- Facts are told apart by their first arguments,
          have hinj : Set.InjOn (firstArguments (countedArity (t.symbolAt d)))
              (t.factsBelow M (k + 1) s) := by
            intro x hx x' hx' heq
            obtain ⟨d₁, arguments, rfl⟩ := hx.1.2.exists_data
            obtain ⟨d₂, arguments', rfl⟩ := hx'.1.2.exists_data
            obtain rfl : d = d₁ := Option.some.inj (hdata.symm.trans hx.1.2.1)
            obtain rfl : d = d₂ := Option.some.inj (hdata.symm.trans hx'.1.2.1)
            rw [hM.eq_of_take ht hdata hform hx.1 hx'.1 heq]
          -- and these are tuples of values of the positions.
          have hmaps : firstArguments (countedArity (t.symbolAt d)) '' t.factsBelow M (k + 1) s ⊆
              {l | List.Forall₂ (fun a S => a ∈ S) l
                ((List.range (countedArity (t.symbolAt d))).map (t.valuesAt M k s))} := by
            rintro _ ⟨x, hx, rfl⟩
            obtain ⟨d₁, arguments, rfl⟩ := hx.1.2.exists_data
            obtain ⟨-, form', hform', hall⟩ := hx.1.2
            obtain rfl : form = form' := Option.some.inj (hform.symm.trans hform')
            have hlength := (admitsAll_iff.1 hall).length_eq
            have htake : (arguments.take (countedArity (t.symbolAt d))).length =
                countedArity (t.symbolAt d) := by
              rw [List.length_take]
              omega
            refine List.forall₂_iff_get.2 ⟨?_, fun i hi hi' => ?_⟩
            · rw [List.length_map, List.length_range]
              exact htake
            · simp only [List.get_eq_getElem, List.getElem_map, List.getElem_range]
              refine ⟨d₁, arguments, hx, ?_⟩
              rw [List.length_map, List.length_range] at hi'
              rw [List.getElem?_eq_getElem (by omega)]
              exact congrArg some List.getElem_take.symm
          rw [← hinj.encard_image, productAmount, hdata]
          refine (Set.encard_le_encard hmaps).trans ((encard_forall₂_mem _).le.trans ?_)
          rw [List.map_map]
          refine List.prod_le_prod' fun position hposition => ?_
          have hlt := (List.mem_range.1 hposition).trans_le hcounted
          exact hM.encard_valuesAt_le ht.formed.toRegular hcovers hbelow hform
            (List.getElem?_eq_getElem hlt)

/-- The facts up to any depth are bounded. -/
theorem IsModel.boundsBelow (hM : t.IsModel M) (ht : t.Intact names)
    (htrusted : t.Trusted names tables)
    (harchive : Archive names tables) (hcovers : t.CoversSized M) (k : Nat) :
    t.BoundsBelow M k := by
  induction k with
  | zero =>
      intro s e _
      have hnone : t.factsBelow M 0 s = ∅ :=
        Set.eq_empty_of_forall_notMem fun x hx => Nat.not_lt_zero _ hx.2
      rw [hnone, Set.encard_empty]
      exact zero_le
  | succ k ih =>
      exact fun s e he => (hM.encard_factsBelow_le ht hcovers ih s).trans
        (htrusted.productAmount_le harchive he)

/-- A size that can be evaluated bounds the facts of its sort. -/
theorem IsModel.ncard_facts_le (hM : t.IsModel M) (ht : t.Intact names)
    (htrusted : t.Trusted names tables) (harchive : Archive names tables)
    (hcovers : t.CoversSized M) (he : (t.symbolAt s).size? = some e) {n : Nat}
    (hn : e.evaluate (fun s => some (t.facts M s).ncard) = some n) : (t.facts M s).ncard ≤ n := by
  have hfinite : ∀ s, (t.facts M s).Finite := fun s => hM.finite.subset fun x hx => hx.1
  obtain ⟨k, hk⟩ : ∃ k, ∀ x ∈ M, sizeOf x < k := by
    obtain ⟨k, hk⟩ := (hM.finite.image sizeOf).bddAbove
    exact ⟨k + 1, fun x hx => Nat.lt_succ_of_le (hk ⟨x, hx, rfl⟩)⟩
  have hall : t.factsBelow M k s = t.facts M s :=
    Set.Subset.antisymm (fun x hx => hx.1) fun x hx => ⟨hx, hk x hx.1⟩
  have hle := hM.boundsBelow ht htrusted harchive hcovers k s e he
  rw [hall, SizeExpr.amount_of_evaluate (fun s m hm => ?_) hn, ← (hfinite s).cast_ncard_eq] at hle
  · exact Nat.cast_le.1 hle
  · rw [← Option.some.inj hm, (hfinite s).cast_ncard_eq]

end Table

/-- Sizes are upper bounds: whatever a size of a valid table evaluates to for the numbers of facts
in a model, the sort has no more facts in the model, if the model contains the data of finite sorts
also at the positions that are marked `any`. -/
theorem Session.facts_le {names : Interner} {tables : List Table} (h : Session names tables)
    {t : Table} (ht : t ∈ tables) (hvalid : t.isValid = true) {M : Set Term} (hM : t.IsModel M)
    (hcovers : t.CoversSized M) {s : SymbolId} {e : SizeExpr}
    (he : (t.symbolAt s).size? = some e) {n : Nat}
    (hn : e.evaluate (fun s => some (t.facts M s).ncard) = some n) : (t.facts M s).ncard ≤ n :=
  hM.ncard_facts_le (h.intact t ht) (h.archive.2.trusted ht hvalid) h.archive.2 hcovers he hn

/-! ## Facts that are no facts below a marked position -/

namespace Loose

/-- The names of the module `D` and of its types `V`, `E` and `F`. -/
def names : Interner := internAll ["D", "V", "E", "F"]

/-- Vertices, edges between vertices that are facts, and `F` at whose marked position any edge may
stand. -/
def graph : Module where
  kind := .domain
  name := ⟨28⟩
  file := ⟨0⟩
  types :=
    [⟨⟨29⟩, {}, .constructor true [{ type := [.named { segments := [⟨1⟩] }] }]⟩,
     ⟨⟨30⟩, {}, .constructor true
       [{ type := [.named { segments := [⟨29⟩] }] }, { type := [.named { segments := [⟨29⟩] }] }]⟩,
     ⟨⟨31⟩, {}, .constructor true [{ type := [.named { segments := [⟨30⟩] }], any := true }]⟩]

def session : Interner × List Table := checkAll names [] [graph]

/-- Whether an expression is the square of the number of vertices. -/
def isSquare : SizeExpr → Bool
  | .product [.card first, .card second] => first == ⟨22⟩ && second == ⟨22⟩
  | _ => false

def isConstructor : SymbolKind → Bool
  | .data (.constructor _) _ => true
  | _ => false

/-- Whether a table is valid and has the types under the handles that they have in that of `D`, and
the size of `F` is the square of the number of vertices. -/
def describes (t : Table) : Bool :=
  t.isValid && t.dataOf? ⟨22⟩ == some ⟨21⟩ && t.dataOf? ⟨25⟩ == some ⟨24⟩ &&
    t.dataOf? ⟨28⟩ == some ⟨27⟩ && isConstructor (t.kindOf ⟨21⟩) && isConstructor (t.kindOf ⟨24⟩) &&
    isConstructor (t.kindOf ⟨27⟩) && (t.kindOf ⟨27⟩).isAny 0 &&
    (t.symbolAt ⟨22⟩).canonical == some ⟨[{ base := { natural := true } }]⟩ &&
    (t.symbolAt ⟨25⟩).canonical == some ⟨[{ sorts := ⟨[⟨22⟩]⟩ }, { sorts := ⟨[⟨22⟩]⟩ }]⟩ &&
    (t.symbolAt ⟨28⟩).canonical == some ⟨[{ sorts := ⟨[⟨25⟩]⟩ }]⟩ &&
    (t.symbolAt ⟨28⟩).size?.any isSquare

theorem describes_session : session.2[0]?.any describes = true := by decide +kernel

def vertex (n : Nat) : Term := .data ⟨21⟩ [.integer n]

def edge (n m : Nat) : Term := .data ⟨24⟩ [vertex n, vertex m]

/-- A value of `F`. -/
def loose (n m : Nat) : Term := .data ⟨27⟩ [edge n m]

/-- What `describes` says. -/
structure Described (t : Table) : Prop where
  valid : t.isValid = true
  vertices : t.dataOf? ⟨22⟩ = some ⟨21⟩
  edges : t.dataOf? ⟨25⟩ = some ⟨24⟩
  values : t.dataOf? ⟨28⟩ = some ⟨27⟩
  constructors : ∀ d ∈ [(⟨21⟩ : SymbolId), ⟨24⟩, ⟨27⟩], isConstructor (t.kindOf d) = true
  marked : (t.kindOf ⟨27⟩).isAny 0 = true
  vertex : ∀ n, t.HasSort ⟨22⟩ (vertex n)
  edge : ∀ n m, t.HasSort ⟨25⟩ (edge n m)
  loose : ∀ n m, t.HasSort ⟨28⟩ (loose n m)
  size : ∃ e, (t.symbolAt ⟨28⟩).size? = some e ∧ isSquare e = true

theorem described_of_describes {t : Table} (h : describes t = true) : Described t := by
  simp only [describes, Bool.and_eq_true, beq_iff_eq] at h
  obtain ⟨⟨⟨⟨⟨⟨⟨⟨⟨⟨⟨hvalid, h22⟩, h25⟩, h28⟩, h21⟩, h24⟩, h27⟩, hmarked⟩, hvertex⟩, hedge⟩, hloose⟩,
    hsize⟩ := h
  have hvertices : ∀ n, t.HasSort ⟨22⟩ (vertex n) := fun n =>
    ⟨h22, _, hvertex, Table.admitsAll_iff.2
      (.cons (.inr ⟨.natural, rfl, Int.natCast_nonneg n⟩) .nil)⟩
  have hedges : ∀ n m, t.HasSort ⟨25⟩ (edge n m) := fun n m =>
    ⟨h25, _, hedge, Table.admitsAll_iff.2 (.cons
      (Table.admits_data.2 ⟨⟨22⟩, List.mem_cons_self, hvertices n⟩) (.cons
      (Table.admits_data.2 ⟨⟨22⟩, List.mem_cons_self, hvertices m⟩) .nil))⟩
  exact ⟨hvalid, h22, h25, h28, by simp [h21, h24, h27], hmarked, hvertices, hedges, fun n m =>
    ⟨h28, _, hloose, Table.admitsAll_iff.2 (.cons
      (Table.admits_data.2 ⟨⟨25⟩, List.mem_cons_self, hedges n m⟩) .nil)⟩,
    (Option.any_eq_true _ _).1 hsize⟩

/-- Well-typed facts are a model if the data at positions that are not marked belongs to them. -/
theorem Described.isModel {t : Table} (h : Described t) {M : Set Term} (hfinite : M.Finite)
    (htyped : ∀ x ∈ M, (∃ n, x = Loose.vertex n) ∨ (∃ n m, x = Loose.edge n m) ∨
      ∃ n m, x = Loose.loose n m)
    (hrelational : ∀ d arguments position d' arguments', Term.data d arguments ∈ M →
      arguments[position]? = some (.data d' arguments') → (t.kindOf d).isAny position = false →
      Term.data d' arguments' ∈ M) : t.IsModel M where
  finite := hfinite
  typed x hx := by
    rcases htyped x hx with ⟨n, rfl⟩ | ⟨n, m, rfl⟩ | ⟨n, m, rfl⟩
    · exact ⟨_, h.vertex n⟩
    · exact ⟨_, h.edge n m⟩
    · exact ⟨_, h.loose n m⟩
  relational := hrelational _ _ _ _ _
  functional {d} _ _ _ _ _ _ hkind hx _ _ := by
    have hmem : d ∈ [(⟨21⟩ : SymbolId), ⟨24⟩, ⟨27⟩] := by
      rcases htyped _ hx with ⟨_, heq⟩ | ⟨_, _, heq⟩ | ⟨_, _, heq⟩ <;>
        rw [(Term.data.inj heq).1] <;>
        decide
    have hconstructor := h.constructors d hmem
    rw [hkind] at hconstructor
    cases hconstructor

/-- The facts of a sort are the terms with its data symbol. -/
theorem facts_eq {t : Table} {M : Set Term} {s d : SymbolId} (M' : Set Term)
    (hdata : t.dataOf? s = some d)
    (hsub : ∀ x ∈ M', x ∈ M ∧ t.HasSort s x)
    (hrest : ∀ arguments, Term.data d arguments ∈ M → Term.data d arguments ∈ M') :
    t.facts M s = M' := by
  refine Set.Subset.antisymm (fun x hx => ?_) hsub
  obtain ⟨d', arguments, rfl⟩ := hx.2.exists_data
  obtain rfl : d = d' := Option.some.inj (hdata.symm.trans hx.2.1)
  exact hrest arguments hx.1

theorem evaluate_of_isSquare {e : SizeExpr} (h : isSquare e = true) {facts : SymbolId → Option Nat}
    {n : Nat} (hfacts : facts ⟨22⟩ = some n) (hn : n * n ≤ maxCount) (hsmall : n ≤ maxCount) :
    e.evaluate facts = some (n * n) := by
  unfold isSquare at h
  split at h
  · next first second =>
      simp only [Bool.and_eq_true, beq_iff_eq] at h
      obtain ⟨rfl, rfl⟩ := h
      simp [SizeExpr.evaluate, SizeExpr.evaluateProduct, hfacts, hn, hsmall]
  · cases h

/-- One vertex, the edge from it to itself, and the value of `F` that has the edge. -/
def loop : Set Term := {vertex 0, edge 0 0, loose 0 0}

theorem mem_loop {d : SymbolId} {arguments : List Term} (hx : Term.data d arguments ∈ loop)
    {position : Nat} {d' : SymbolId} {arguments' : List Term}
    (hget : arguments[position]? = some (.data d' arguments')) :
      Term.data d' arguments' ∈ loop := by
  have hmem := List.mem_of_getElem? hget
  rcases hx with heq | heq | heq <;> rw [(Term.data.inj heq).2] at hmem
  · cases List.mem_singleton.1 hmem
  · simp only [List.mem_cons, List.not_mem_nil, or_false, or_self] at hmem
    rw [hmem]
    exact .inl rfl
  · rw [List.mem_singleton.1 hmem]
    exact .inr (.inl rfl)

theorem facts_le_loop : ∃ t ∈ session.2, t.isValid = true ∧ t.IsModel loop ∧ t.CoversSized loop ∧
    (t.facts loop ⟨28⟩).ncard ≤ 1 := by
  obtain ⟨t, ht, hdescribes⟩ := (Option.any_eq_true _ _).1 describes_session
  have h := described_of_describes hdescribes
  have hmem := List.mem_of_getElem? ht
  have hmodel : t.IsModel loop := by
    refine h.isModel (Set.toFinite {vertex 0, edge 0 0, loose 0 0}) ?_
      fun _ _ _ _ _ hx hget _ => mem_loop hx hget
    rintro x (rfl | rfl | rfl)
    exacts [.inl ⟨0, rfl⟩, .inr (.inl ⟨0, 0, rfl⟩), .inr (.inr ⟨0, 0, rfl⟩)]
  have hcovers : t.CoversSized loop := by
    intro d arguments position s x e hx hget _ hsort _ _
    obtain ⟨d', arguments', rfl⟩ := hsort.exists_data
    exact mem_loop hx hget
  obtain ⟨e, he, hsquare⟩ := h.size
  have hone : (t.facts loop ⟨22⟩).ncard = 1 := by
    rw [facts_eq {vertex 0} h.vertices ?_ ?_, Set.ncard_singleton]
    · rintro x rfl
      exact ⟨.inl rfl, h.vertex 0⟩
    · rintro arguments (heq | heq | heq)
      · exact heq
      · cases (Term.data.inj heq).1
      · cases (Term.data.inj heq).1
  have hvalue : e.evaluate (fun s => some (t.facts loop s).ncard) = some 1 :=
    evaluate_of_isSquare (n := 1) hsquare (congrArg some hone) (by decide) (by decide)
  exact ⟨t, hmem, h.valid, hmodel, hcovers,
    (session_checkAll _ [graph]).facts_le hmem h.valid hmodel hcovers he hvalue⟩

/-- Two values of `F` whose edges are no facts. -/
def pair : Set Term := {loose 0 0, loose 0 1}

/-- Without facts of `V` the size of `F` is zero, but a model may have two facts of `F`. -/
theorem facts_not_le : ∃ t ∈ session.2, t.isValid = true ∧ ∃ M e n, t.IsModel M ∧
    (t.symbolAt ⟨28⟩).size? = some e ∧ e.evaluate (fun s => some (t.facts M s).ncard) = some n ∧
    ¬ (t.facts M ⟨28⟩).ncard ≤ n := by
  obtain ⟨t, ht, hdescribes⟩ := (Option.any_eq_true _ _).1 describes_session
  have h := described_of_describes hdescribes
  have hheads : ∀ {d arguments}, Term.data d arguments ∈ pair →
      d = ⟨27⟩ ∧ ∃ n m, arguments = [edge n m] := by
    rintro d arguments (heq | heq)
    · exact ⟨(Term.data.inj heq).1, 0, 0, (Term.data.inj heq).2⟩
    · exact ⟨(Term.data.inj heq).1, 0, 1, (Term.data.inj heq).2⟩
  have hmodel : t.IsModel pair := by
    refine h.isModel (Set.toFinite {loose 0 0, loose 0 1}) ?_
      fun d arguments position _ _ hx hget hmark => ?_
    · rintro x (rfl | rfl)
      exacts [.inr (.inr ⟨0, 0, rfl⟩), .inr (.inr ⟨0, 1, rfl⟩)]
    · obtain ⟨rfl, n, m, rfl⟩ := hheads hx
      cases position with
      | zero => cases h.marked.symm.trans hmark
      | succ position => cases hget
  obtain ⟨e, he, hsquare⟩ := h.size
  have hzero : (t.facts pair ⟨22⟩).ncard = 0 := by
    rw [facts_eq ∅ h.vertices (fun x hx => hx.elim) ?_, Set.ncard_empty]
    intro arguments hx
    cases (hheads hx).1
  have htwo : (t.facts pair ⟨28⟩).ncard = 2 := by
    rw [facts_eq pair h.values ?_ fun _ hx => hx, pair, Set.ncard_pair ?_]
    · intro heq
      simp [loose, edge, vertex] at heq
    · rintro x hx
      refine ⟨hx, ?_⟩
      rcases hx with rfl | rfl
      exacts [h.loose 0 0, h.loose 0 1]
  refine ⟨t, List.mem_of_getElem? ht, h.valid, pair, e, 0, hmodel, he,
    evaluate_of_isSquare (n := 0) hsquare (congrArg some hzero) (by decide) (by decide), ?_⟩
  rw [htwo]
  decide

end Loose

end ManySorted
