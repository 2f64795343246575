import Mathlib.Data.Fintype.Card
import ManySorted.Proofs.Sizing.Progress

/-!
# The demands of maps and the numbers of their tuples

A map relates the tuples of its domain to those of its codomain.  The numbers of both fit its
demands just if there is a relation between so many tuples that meets them
(`MapFlags.misfit?_eq_none_iff`).  Where both are known without the facts, a map whose sort was
sized is reported just if there is no such relation, and no more than once (`checkModule_demands`).

## Strategy

* **Relations.**  A total relation needs no fewer codomain tuples than an injective one has domain
  tuples, and so on for each pair of demands.  By the pigeonhole principle nothing else is in the
  way (`MapFlags.satisfiable_iff`), and that is what is checked (`MapFlags.misfit?_eq_none_iff`).
* **One map.**  Its demands are looked at where its sort is sized, and nowhere else
  (`Table.SizedUpTo.totalityErrors_eq`).  Once the tuples are counted, the only demands that can
  fail are those on their numbers (`Table.Counts.demandReports_eq`).
* **A check.**  No size is zero, so neither side of a map is empty
  (`Table.Grounded.one_le_product`).
-/

namespace ManySorted

/-! ## Relations that meet the demands -/

namespace MapFlags

variable {flags : MapFlags} {n m : Nat}

/-- The relation between domain tuples and codomain tuples meets the demands of a map. -/
structure Meets (flags : MapFlags) {α β : Type} (R : α → β → Prop) : Prop where
  functional : flags.functional = true → ∀ {a b b'}, R a b → R a b' → b = b'
  injective : flags.injective = true → ∀ {a a' b}, R a b → R a' b → a = a'
  total : flags.total = true → ∀ a, ∃ b, R a b
  surjective : flags.surjective = true → ∀ b, ∃ a, R a b

/-- Between so many domain tuples and so many codomain tuples, some relation meets the demands. -/
def Satisfiable (flags : MapFlags) (n m : Nat) : Prop :=
  ∃ R : Fin n → Fin m → Prop, flags.Meets R

section

variable {R : Fin n → Fin m → Prop}

theorem Meets.domain_le (h : flags.Meets R) (hinjective : flags.injective = true)
    (htotal : flags.total = true) : n ≤ m := by
  choose f hf using h.total htotal
  have hf' : Function.Injective f := fun a a' heq =>
    h.injective hinjective (hf a) (heq ▸ hf a')
  simpa using Fintype.card_le_of_injective f hf'

theorem Meets.codomain_le (h : flags.Meets R) (hfunctional : flags.functional = true)
    (hsurjective : flags.surjective = true) : m ≤ n := by
  choose f hf using h.surjective hsurjective
  have hf' : Function.Injective f := fun b b' heq =>
    h.functional hfunctional (hf b) (heq ▸ hf b')
  simpa using Fintype.card_le_of_injective f hf'

end

/-- Tuples of equal numbers are related. -/
theorem satisfiable_of_le
    (hdomain : flags.total = true → n ≤ m) (hcodomain : flags.surjective = true → m ≤ n) :
    flags.Satisfiable n m := by
  refine ⟨fun a b => a.val = b.val, fun _ => fun h h' => ?_, fun _ => fun h h' => ?_,
    fun htotal a => ?_, fun hsurjective b => ?_⟩
  · exact Fin.ext (h.symm.trans h')
  · exact Fin.ext (h.trans h'.symm)
  · exact ⟨⟨a, Nat.lt_of_lt_of_le a.isLt (hdomain htotal)⟩, rfl⟩
  · exact ⟨⟨b, Nat.lt_of_lt_of_le b.isLt (hcodomain hsurjective)⟩, rfl⟩

/-- The last codomain tuple stands for all the domain tuples that are too many. -/
theorem satisfiable_of_not_injective (hinjective : flags.injective = false) (hm : 1 ≤ m)
    (hcodomain : flags.surjective = true → m ≤ n) : flags.Satisfiable n m := by
  refine ⟨fun a b => b.val = min a.val (m - 1), fun _ => fun h h' => ?_, fun h => ?_,
    fun _ a => ?_, fun hsurjective b => ?_⟩
  · exact Fin.ext (h.trans h'.symm)
  · cases hinjective.symm.trans h
  · exact ⟨⟨min a.val (m - 1), by omega⟩, rfl⟩
  · refine ⟨⟨b, Nat.lt_of_lt_of_le b.isLt (hcodomain hsurjective)⟩, ?_⟩
    have := b.isLt
    dsimp only
    omega

/-- By the pigeonhole principle there is nothing else that is in the way of the demands. -/
theorem satisfiable_iff (hfunctional : flags.functional = true) (hm : 1 ≤ m) :
    flags.Satisfiable n m ↔ (flags.injective = true → flags.total = true → n ≤ m) ∧
      (flags.surjective = true → m ≤ n) := by
  constructor
  · rintro ⟨R, h⟩
    exact ⟨h.domain_le, h.codomain_le hfunctional⟩
  · rintro ⟨hdomain, hcodomain⟩
    cases hinjective : flags.injective with
    | false => exact satisfiable_of_not_injective hinjective hm hcodomain
    | true => exact satisfiable_of_le (hdomain hinjective) hcodomain

/-- The numbers of tuples fit just if the demands can be met. -/
theorem misfit?_eq_none_iff (hfunctional : flags.functional = true) (hm : 1 ≤ m) :
    flags.misfit? n m = none ↔ flags.Satisfiable n m := by
  rw [satisfiable_iff hfunctional hm, misfit?]
  obtain ⟨functional, injective, total, surjective⟩ := flags
  cases injective <;> cases total <;> cases surjective <;> grind

end MapFlags

/-! ## The reports about one map -/

/-- If only `a` contributes to the list, the list is what `a` contributes. -/
theorem flatMap_eq_ite {α β : Type} [DecidableEq α] {l : List α} {f : α → List β} {a : α}
    (hnodup : l.Nodup) (hother : ∀ b ∈ l, b ≠ a → f b = []) :
    l.flatMap f = if a ∈ l then f a else [] := by
  induction l with
  | nil => rfl
  | cons b rest ih =>
      obtain ⟨hb, hrest⟩ := List.nodup_cons.1 hnodup
      rw [List.flatMap_cons, ih hrest fun c hc => hother c (List.mem_cons_of_mem b hc)]
      by_cases heq : b = a
      · subst heq
        rw [if_neg hb, if_pos List.mem_cons_self, List.append_nil]
      · have hmem : a ∈ b :: rest ↔ a ∈ rest := by
          rw [List.mem_cons, or_iff_right (Ne.symm heq)]
        rw [hother b List.mem_cons_self heq, List.nil_append]
        simp only [hmem]

/-- Whether a problem is that a map cannot meet its demands. -/
def Problem.isTotalityOf (map : String) : Problem → Bool
  | totality name _ => name == map
  | _ => false

namespace Table

variable {names : Interner} {t : Table} {d s : SymbolId} {done rest : List (List Nat)} {n m : Nat}
  {kind : MapKind} {isPartial : Bool} {domainArity : Nat} {info : DataInfo}

/-- The positions of a map's codomain. -/
def codomainPositions (t : Table) (d : SymbolId) (domainArity : Nat) : List Nat :=
  (List.range ((t.symbolAt d).arity - domainArity)).map (domainArity + ·)

/-- A productive map of the module has `n` domain tuples and `m` codomain tuples, whatever the facts
are. -/
structure Counts (t : Table) (d : SymbolId) (kind : MapKind) (isPartial : Bool) (domainArity : Nat)
    (info : DataInfo) (n m : Nat) : Prop where
  productive : d ∈ t.productiveData
  kind_eq : t.kindOf d = .data (.map kind isPartial domainArity) info
  domain : (t.finalSizes.product info.sort (List.range domainArity)).closed = some n
  codomain : (t.finalSizes.product info.sort (t.codomainPositions d domainArity)).closed = some m

/-- The errors that a map cannot meet its demands. -/
def totalityErrors (t : Table) (names : Interner) (d : SymbolId) : List Report :=
  t.reports.filter (·.problem.isTotalityOf (t.qualifiedName names d))

theorem mem_demandReports {sizes : Sizes} {r : Report} (hs : t.dataOf? s = some d)
    (hr : r ∈ t.demandReports names sizes s) :
    ∃ misfit : MapMisfit, r.problem = .totality (t.qualifiedName names d) misfit.reason := by
  rw [demandReports, hs, Option.toList_some, List.flatMap_singleton] at hr
  obtain ⟨misfit, -, rfl⟩ := List.mem_map.1 hr
  exact ⟨misfit, rfl⟩

theorem isTotalityOf_of_mem_relationalReports {g : DepGraph SizeNode} {c : List Nat} {r : Report}
    (map : String) (hr : r ∈ t.relationalReports names g c) :
    r.problem.isTotalityOf map = false := by
  obtain ⟨⟨sort, position⟩, -, hr⟩ := List.mem_filterMap.1 hr
  obtain ⟨data, -, rfl⟩ := Option.map_eq_some_iff.1 hr
  rfl

/-- The errors about the demands of a map were found at the sorts that were sized. -/
theorem SizedUpTo.totalityErrors_eq_flatMap (h : t.SizedUpTo names done rest)
    (ht : t.Intact names) :
    t.totalityErrors names d = (done.flatMap (componentSorts t.ownGraph)).flatMap fun s =>
      (t.demandReports names t.finalSizes s).filter
        (·.problem.isTotalityOf (t.qualifiedName names d)) := by
  have hsizes : ∀ p : Problem, (p.isTotalityOf (t.qualifiedName names d) && p.isOfSizes) =
      p.isTotalityOf (t.qualifiedName names d) := by
    intro p
    cases p <;> simp [Problem.isTotalityOf, Problem.isOfSizes]
  have hfilter : (t.reports.filter (·.problem.isOfSizes)).filter
      (·.problem.isTotalityOf (t.qualifiedName names d)) = t.totalityErrors names d := by
    rw [List.filter_filter, totalityErrors]
    simp only [hsizes]
  rw [← hfilter, h.reports_eq, ht.sizingReports_eq h.components, List.filter_flatMap,
    List.flatMap_assoc]
  refine List.flatMap_congr fun c _ => ?_
  rw [settledReports, List.filter_append, List.filter_flatMap, List.filter_eq_nil_iff.2,
    List.nil_append]
  intro r hr
  split at hr
  · exact Bool.eq_false_iff.1 (isTotalityOf_of_mem_relationalReports _ hr)
  · exact absurd hr List.not_mem_nil

/-- The demands of other sorts are those of data with other names. -/
theorem SizedUpTo.filter_demandReports (h : t.SizedUpTo names done rest) (ht : t.Intact names)
    (hd : d ∈ t.productiveData) (hs : t.dataOf? s = some d) {s' : SymbolId}
    (hs' : s' ∈ done.flatMap (componentSorts t.ownGraph)) (hne : s' ≠ s) :
    (t.demandReports names t.finalSizes s').filter
      (·.problem.isTotalityOf (t.qualifiedName names d)) = [] := by
  have hregular := ht.formed.toRegular
  obtain ⟨c, hc, hs'⟩ := List.mem_flatMap.1 hs'
  obtain ⟨i, -, hi⟩ := mem_componentNodes.1 (mem_componentSorts.1 hs')
  obtain ⟨d', hd', hsd'⟩ := (has_sort_iff hregular).1 ⟨i, hi⟩
  refine List.filter_eq_nil_iff.2 fun r hr => ?_
  obtain ⟨misfit, hproblem⟩ := mem_demandReports hsd' hr
  simp only [hproblem, Problem.isTotalityOf, beq_iff_eq]
  intro hname
  obtain rfl := h.named (List.ne_nil_of_mem hc) (mem_productiveData.1 hd').1
    (mem_productiveData.1 hd).1 hname
  exact hne (hregular.eq_of_dataOf? hsd' hs)

/-- The reports about the demands of a map, as far as sizing got. -/
theorem SizedUpTo.totalityErrors_eq (h : t.SizedUpTo names done rest) (ht : t.Intact names)
    (hd : d ∈ t.productiveData) (hs : t.dataOf? s = some d) : t.totalityErrors names d =
      if (t.symbolAt s).size? = none then [] else t.demandReports names t.finalSizes s := by
  have hself : (t.demandReports names t.finalSizes s).filter
      (·.problem.isTotalityOf (t.qualifiedName names d)) =
        t.demandReports names t.finalSizes s := by
    refine List.filter_eq_self.2 fun r hr => ?_
    obtain ⟨misfit, hproblem⟩ := mem_demandReports hs hr
    simp [hproblem, Problem.isTotalityOf]
  have hnodup : (done.flatMap (componentSorts t.ownGraph)).Nodup := by
    have hnodup := nodup_componentSorts t.proper_ownGraph
    rw [h.components, List.flatMap_append] at hnodup
    exact (List.nodup_append.1 hnodup).1
  rw [h.totalityErrors_eq_flatMap ht, flatMap_eq_ite hnodup fun s' hs' hne =>
    h.filter_demandReports ht hd hs hs' hne, hself]
  by_cases hsize : (t.symbolAt s).size? = none
  · rw [if_pos hsize, if_neg fun hmem => (h.sized_iff hd hs).2 hmem hsize]
  · rw [if_neg hsize, if_pos ((h.sized_iff hd hs).1 hsize)]

theorem Counts.dataOf? (h : t.Counts d kind isPartial domainArity info n m) (ht : t.Intact names) :
    t.dataOf? info.sort = some d :=
  dataOf?_eq_some_iff.2 (ht.formed.families.data h.kind_eq).sort_kind

/-- Once the tuples are counted, the only demands that can fail are those on their numbers. -/
theorem Counts.demandReports_eq (h : t.Counts d kind isPartial domainArity info n m)
    (hgrounded : t.Grounded) (ht : t.Intact names) :
    t.demandReports names t.finalSizes info.sort =
      ((MapFlags.ofKind kind isPartial).misfit? n m).toList.map fun misfit =>
        ⟨(t.symbolAt d).location, .totality (t.qualifiedName names d) misfit.reason⟩ := by
  have hbounded : ∀ positions : List Nat, ∀ k,
      (t.finalSizes.product info.sort positions).closed = some k →
      (positions.filter fun i => (t.finalSizes.slot info.sort i).isInfinite) = [] := by
    intro positions k hk
    refine List.filter_eq_nil_iff.2 fun i hi => Bool.eq_false_iff.1 ?_
    refine SizeExpr.isInfinite_eq_false_of_closed (fun e he => ?_) hk (List.mem_map_of_mem hi)
    obtain ⟨j, -, rfl⟩ := List.mem_map.1 he
    exact hgrounded.positive_slot ht info.sort j
  have hn := h.domain
  have hm := h.codomain
  have hdomain := hbounded _ _ hn
  have hcodomain := hbounded _ _ hm
  have hkind : (t.symbolAt d).kind = .data (.map kind isPartial domainArity) info := h.kind_eq
  rw [codomainPositions] at hm hcodomain
  rw [demandReports, h.dataOf? ht, Option.toList_some, List.flatMap_singleton, totalityReports]
  simp only [misfits, hkind, hdomain, hcodomain, hn, hm, List.map_nil, ite_self, List.nil_append]

/-- There is a tuple for each side of a map. -/
theorem Grounded.one_le_product (h : t.Grounded) (ht : t.Intact names)
    {positions : List Nat} {k : Nat}
    (hk : (t.finalSizes.product s positions).closed = some k) : 1 ≤ k := by
  refine SizeExpr.Positive.one_le (SizeExpr.positive_multiply fun e he => ?_) hk
  obtain ⟨position, -, rfl⟩ := List.mem_map.1 he
  exact h.positive_slot ht s position

end Table

/-! ## The reports of a check -/

section

variable {names names' : Interner} {tables : List Table} {id : TableId} {library : Library}
  {config : CheckConfig} {m : Module} {out : CheckOutput} {d : SymbolId} {kind : MapKind}
  {isPartial : Bool} {domainArity : Nat} {info : DataInfo} {domain codomain : Nat}

/-- Where the domain and the codomain of a productive map of the module are counted, neither is
empty.  Once its sort was sized, which only a cancelled check fails to do, the map is reported just
if no relation between so many tuples meets its demands, by one error that says which number does
not fit. -/
theorem checkModule_demands (h : Session names tables)
    (held : ∀ entry ∈ library.tables, entry.2 ∈ tables)
    (checked : checkModule names id library config m = (names', .ok out))
    (hcounts : out.table.Counts d kind isPartial domainArity info domain codomain) :
    1 ≤ domain ∧ 1 ≤ codomain ∧
      (out.cancelled = false → (out.table.symbolAt info.sort).size? ≠ none) ∧
      ((out.table.symbolAt info.sort).size? = none ∨
        (MapFlags.ofKind kind isPartial).Satisfiable domain codomain →
          out.table.totalityErrors names' d = []) ∧
      ((out.table.symbolAt info.sort).size? ≠ none →
        ¬ (MapFlags.ofKind kind isPartial).Satisfiable domain codomain →
          ∃ misfit, (MapFlags.ofKind kind isPartial).misfit? domain codomain = some misfit ∧
            out.table.totalityErrors names' d = [⟨(out.table.symbolAt d).location,
              .totality (out.table.qualifiedName names' d) misfit.reason⟩]) := by
  have hintact := h.intact_of_check held checked
  have hs := hcounts.dataOf? hintact
  obtain ⟨done, rest, hsized, hrest⟩ := h.sizedUpTo held checked
  have hcodomain := hsized.grounded.one_le_product hintact hcounts.codomain
  have hfits : (MapFlags.ofKind kind isPartial).misfit? domain codomain = none ↔
      (MapFlags.ofKind kind isPartial).Satisfiable domain codomain :=
    MapFlags.misfit?_eq_none_iff rfl hcodomain
  have herrors := hsized.totalityErrors_eq hintact hcounts.productive hs
  rw [hcounts.demandReports_eq hsized.grounded hintact] at herrors
  refine ⟨hsized.grounded.one_le_product hintact hcounts.domain, hcodomain, fun uncancelled => ?_,
    fun hspared => ?_, fun hsize hunsatisfiable => ?_⟩
  · obtain rfl := hrest uncancelled
    obtain ⟨i, hi⟩ :=
      (Table.has_sort_iff hintact.formed.toRegular).2 ⟨d, hcounts.productive, hs⟩
    refine (hsized.sized_iff hcounts.productive hs).2 ?_
    rw [← List.append_nil done, ← hsized.components]
    exact Table.mem_flatMap_componentSorts out.table.proper_ownGraph hi
  · rw [herrors]
    split
    · rfl
    · next hsize =>
        rw [hfits.2 (hspared.resolve_left hsize)]
        rfl
  · obtain ⟨misfit, hmisfit⟩ :=
      Option.ne_none_iff_exists'.1 fun hnone => hunsatisfiable (hfits.1 hnone)
    rw [herrors, if_neg hsize, hmisfit]
    exact ⟨misfit, rfl, rfl⟩

end

namespace Uneven

/-- The names of the module `D`, of its map `F` and of the positions `x` and `y`. -/
def names : Interner := internAll ["D", "F", "x", "y"]

/-- A position that accepts the integers from zero to `high`. -/
def upTo (label : Name) (high : Int) : Field where
  label := some label
  type := [.enumeration [.range 0 high {}] {}]

/-- A bijection between two values and three. -/
def module : Module where
  kind := .domain
  name := ⟨28⟩
  file := ⟨0⟩
  types := [{ name := ⟨29⟩, body := .map .bijection false [upTo ⟨30⟩ 1] [upTo ⟨31⟩ 2] }]

/-- Looks for cancellation when the positions of `F` were sized and its sort was not, and is
cancelled. -/
def hasty : CheckConfig := { batch := 13, cancelledBy := fun _ => true }

def result (config : CheckConfig) : Interner × Except Fault CheckOutput :=
  checkModule names ⟨0⟩ {} config module

/-- Whether `F` is productive and has two domain tuples and three codomain tuples. -/
def counts (t : Table) : Bool :=
  match t.kindOf ⟨21⟩ with
  | .data (.map .bijection false 1) info =>
      decide (⟨21⟩ ∈ t.productiveData) &&
        (t.finalSizes.product info.sort (List.range 1)).closed == some 2 &&
        (t.finalSizes.product info.sort (t.codomainPositions ⟨21⟩ 1)).closed == some 3
  | _ => false

theorem exists_counts {t : Table} (h : counts t = true) :
    ∃ info, t.Counts ⟨21⟩ .bijection false 1 info 2 3 := by
  rw [counts] at h
  split at h
  · next info hkind =>
      simp only [Bool.and_eq_true, decide_eq_true_eq, beq_iff_eq] at h
      exact ⟨info, h.1.1, hkind, h.1.2, h.2⟩
  · cases h

theorem not_satisfiable : ¬ (MapFlags.ofKind .bijection false).Satisfiable 2 3 := by
  rw [← MapFlags.misfit?_eq_none_iff rfl (by decide)]
  decide

theorem counts_result :
    (result {}).2.toOption.any (fun out => !out.cancelled && counts out.table) = true := by
  decide +kernel

/-- The map is reported, since it is no bijection. -/
theorem checkModule_demands_bijection : ∃ out,
    checkModule names ⟨0⟩ {} {} module = ((result {}).1, .ok out) ∧
      (out.table.totalityErrors (result {}).1 ⟨21⟩).map Report.problem =
        [.totality (out.table.qualifiedName (result {}).1 ⟨21⟩)
          "is a bijection but its domain has 2 values and its codomain 3"] := by
  obtain ⟨out, checked, hout⟩ := exists_of_any_toOption counts_result
  rw [Bool.and_eq_true, Bool.not_eq_true'] at hout
  obtain ⟨info, hcounts⟩ := exists_counts hout.2
  obtain ⟨-, -, hsized, -, herror⟩ := checkModule_demands (session_internAll _)
    (fun _ h => absurd h List.not_mem_nil) checked hcounts
  obtain ⟨misfit, hmisfit, herrors⟩ := herror (hsized hout.1) not_satisfiable
  cases hmisfit
  exact ⟨out, checked, congrArg (List.map Report.problem) herrors⟩

theorem counts_hasty : (result hasty).2.toOption.any
    (fun out => counts out.table && out.table.reports.isEmpty) = true := by
  decide +kernel

/-- A check that is cancelled too early does not report the map. -/
theorem not_checkModule_rejects : ¬ ∀ config names' out info domain codomain,
    checkModule names ⟨0⟩ {} config module = (names', .ok out) →
      out.table.Counts ⟨21⟩ .bijection false 1 info domain codomain →
        (out.table.totalityErrors names' ⟨21⟩ ≠ [] ↔
          ¬ (MapFlags.ofKind .bijection false).Satisfiable domain codomain) := by
  intro hrejects
  obtain ⟨out, checked, hout⟩ := exists_of_any_toOption counts_hasty
  rw [Bool.and_eq_true, List.isEmpty_iff] at hout
  obtain ⟨info, hcounts⟩ := exists_counts hout.1
  refine (hrejects hasty _ out info 2 3 checked hcounts).2 not_satisfiable ?_
  rw [Table.totalityErrors, hout.2, List.filter_nil]

end Uneven

end ManySorted
