import ManySorted.Proofs.Transfer.Joining
import Mathlib.Data.Set.Function

/-!
# What two domains come to as one

The declarations of the first domain come to the same if they are made along with those of the
second one (`Draft.Joined.conveyed_left`), and so do those of the second one, for what it imports
has the forms of what that is a copy of (`Draft.Joined.conveyed_right`).  The second domain does not
size the sorts that it imports.  They have the sizes that the first one has come to, and the joint
domain comes to the same (`Draft.Joined.conveys_right`).  So it has no sorts but those that one of
the two domains has found feasible, and it has no errors (`Draft.Joined.joint`).

The table of the second domain and the one of the joint domain hold the same up to the handles
(`Table.Parallels`): the data of one stands for the data of the other, under the same names and with
the same forms, and the sizes have the same values (`Draft.Joined.parallels`).
-/

namespace ManySorted

namespace Draft

variable {first second m : Module} {c₁ c₂ c : Course} {foreign : Table} {ρ : SymbolId → SymbolId}
  {d s r x y : SymbolId}

namespace Joined

variable (h : Joined first second m c₁ c₂ c foreign ρ)
include h

/-! ## Forms -/

theorem typeProblems_eq_nil : ∀ b ∈ c.declarations.types, c.start.typeProblems m b = [] := by
  intro b hb
  rcases h.type_cases hb with ⟨b₁, hb₁, rfl⟩ | ⟨b₂, hb₂, rfl⟩
  · exact h.absorbed_left.portion.typeProblems_eq_nil hb₁ m
  · exact h.absorbed_right.portion.typeProblems_eq_nil hb₂ m

theorem params_eq_nil : c.declarations.params = [] :=
  h.left.right.params_eq_nil h.absorbed_left.clean_right

theorem unfailed (x : SymbolId) : (c.base.table.symbolAt x).failed = false :=
  h.left.right.account.unfailed h.typeProblems_eq_nil
    (by rw [h.params_eq_nil]; exact fun p hp => absurd hp List.not_mem_nil) x

/-- What the first domain declares comes to the same. -/
theorem conveyed_left : Conveyed first m c₁.imported.table c.imported.table c₁.start c.start c₁.base
    c.base c₁.declarations c.declarations c₁.start.table.Genuine
    (c₁.start.table.standIn c.start.table) :=
  h.absorbed_left.conveyed h.unfailed fun hx =>
    h.left.form_of_builtin hx (h.pristine hx).1 (h.pristine hx).2.2.2.canonical

/-- What the foreign table speaks of is copied with it. -/
theorem standIn_of_mentions (hr : foreign.Holds r) {p : SymbolId}
    (hp : (foreign.symbolAt r).Mentions p) : c₂.start.table.standIn c.start.table (ρ p) =
      c₁.start.table.standIn c.start.table p := by
  refine h.standIn_copy ?_
  exact ((h.intact.closed hr).mentions hp).elim Table.genuine_of_isSort Table.genuine_of_isConstant

/-- So does what the second one declares, for copies have the forms of what they are copies of. -/
theorem conveyed_right : Conveyed second m c₂.imported.table c.imported.table c₂.start c.start
    c₂.base c.base c₂.declarations c.declarations c₂.start.table.Genuine
    (c₂.start.table.standIn c.start.table) := by
  refine h.absorbed_right.conveyed h.unfailed fun {x} hx => ?_
  -- what is built in has no form, and a copy has the one of what it is a copy of
  rcases h.imported_cases hx with ⟨hbase, hnone⟩ | ⟨-, -, r, hr, -, rfl⟩
  · exact h.right.form_of_builtin hx hbase hnone
  · rw [h.standIn_copy hr, h.conveyed_left.form (h.genuine_iff.1 hr),
      (h.right.left.symbolAt_imported hx).2, (h.draws.relocates hr).2.form, ← h.written.canonical]
    cases hform : (foreign.symbolAt r).canonical with
    | none => rfl
    | some form =>
        refine congrArg some ?_
        rw [CanonicalForm.rename_rename]
        exact CanonicalForm.rename_congr fun p hp =>
          (h.standIn_of_mentions hr.holds (.inl ⟨form, hform, hp⟩)).symm

theorem restrictionReports_eq_nil : c.base.table.restrictionReports c.base.names m
    (c.declarations.types.map (c.start.resolved m)) (c.declarations.params.map Parameter.symbol) =
      [] := by
  have hleft := h.left.clean.restrictions
  have hright := h.right.clean.restrictions
  rw [Table.restrictionReports, List.append_eq_nil_iff, List.append_eq_nil_iff,
    List.flatMap_eq_nil_iff, List.forall_mem_map] at hleft hright
  rw [Table.restrictionReports, List.append_eq_nil_iff, List.append_eq_nil_iff,
    List.flatMap_eq_nil_iff, List.forall_mem_map]
  refine ⟨⟨fun b hb => ?_, ?_⟩, ?_⟩
  · rcases h.type_cases hb with ⟨b₁, hb₁, rfl⟩ | ⟨b₂, hb₂, rfl⟩
    · exact h.conveyed_left.newnessReports_eq_nil hb₁ (hleft.1.1 b₁ hb₁)
    · exact h.conveyed_right.newnessReports_eq_nil hb₂ (hright.1.1 b₂ hb₂)
  · rw [Table.labelReports_eq_nil_iff, h.left.right.flat_base]
    exact fun _ _ _ _ => List.not_mem_nil
  · rw [if_neg (by rw [h.joins.kind]; exact fun h => by cases h)]

/-! ## Sizes -/

/-- The first domain sizes all its sorts. -/
theorem has_sort (hs : c₁.base.table.IsSort s) : c₁.base.table.ownGraph.Has (.sort s) :=
  h.left.left.has_sort_of_pristine h.left.clean h.pristine hs

/-- What the first domain sizes is sized alike. -/
theorem conveys_left : Table.Conveys c₁.base.names c.base.names c₁.base.table c.base.table
    c₁.start.table.Genuine (c₁.start.table.standIn c.start.table) where
  toRenders := h.conveyed_left.renders
  intact := h.left.left.declared.intact
  intact' := h.left.right.declared.intact
  covers := h.left.left.genuine_of_isSort
  productive hd := h.conveyed_left.renders.mem_productiveData_rename
    h.left.left.declared.intact.formed.arena h.left.right.declared.intact.formed.arena
    (fun {s d} hs hd himported => by
      have hthere := (h.conveyed_left.renders.data hs hd).holds
      rw [h.left.left.isImported_base, h.left.left.not_isImported h.pristine hthere] at himported
      cases himported) hd
  known hs hhas := absurd (h.has_sort hs) hhas
  apart hs hhas := absurd (h.has_sort hs) hhas

/-- The sort of imported data is a copy of a sort. -/
theorem exists_sort (hs : c₂.base.table.dataOf? s = some d)
    (himported : (c₂.base.table.symbolAt d).isImported = true) :
    ∃ r, foreign.Genuine r ∧ ρ r = s ∧ c₁.base.table.IsSort r := by
  have hbase := h.right.left.declared.intact.formed.toRegular
  obtain ⟨shape, info, hkind, rfl⟩ := hbase.families.sort (Table.dataOf?_eq_some_iff.1 hs)
  have hdata : c₂.imported.table.Holds d := by
    rw [h.right.left.isImported_base] at himported
    exact h.right.left.holds_of_isImported
      ((h.right.left.account.alike.holds d).1 (Table.holds_of_data hkind)) himported
  have hkind' : c₂.imported.table.kindOf d = .data shape info := by
    rw [Table.kindOf, ← (h.right.left.symbolAt_imported hdata).2]
    exact hkind
  have hfamily := h.right.left.intact.formed.families.data hkind'
  obtain ⟨size, hsort⟩ := SymbolKind.unsized_eq_userSort.1 hfamily.sort_kind
  rcases h.imported_cases hfamily.holds_sort with ⟨hbase, -⟩ | ⟨-, -, r, hr, -, heq⟩
  · rw [hsort] at hbase
    cases hbase
  · refine ⟨r, hr, heq, h.left.left.account.alike.isSort.2 ?_⟩
    refine Table.isSort_of_outline ((h.draws.relocates hr).2.outline.trans h.outline_eq).symm ?_
    rw [heq]
    exact ⟨_, hfamily.sort_kind⟩

/-- The data of a copy is imported. -/
theorem isImported_data (hr : foreign.Genuine r) (hd : c₂.base.table.dataOf? (ρ r) = some d) :
    (c₂.base.table.symbolAt d).isImported = true := by
  have hold := (h.draws.relocates hr).2.holds
  have hd' : c₂.imported.table.dataOf? (ρ r) = some d := by
    rw [Table.dataOf?_eq_some_iff, Table.kindOf, ← (h.right.left.symbolAt_imported hold).2]
    exact Table.dataOf?_eq_some_iff.1 hd
  obtain ⟨shape, info, hkind, -⟩ :=
    h.right.left.intact.formed.families.sort (Table.dataOf?_eq_some_iff.1 hd')
  have hdata := Table.holds_of_data hkind
  rw [(h.right.left.symbolAt_imported hdata).2]
  rcases h.imported_cases hdata with ⟨hbase, -⟩ | ⟨-, himported, -⟩
  · rw [hkind] at hbase
    cases hbase
  · exact himported

/-- A sort that the second domain does not size is a copy of one that the first one sizes. -/
theorem exists_sort_of_not_has (hs : c₂.base.table.IsSort s)
    (hhas : ¬ c₂.base.table.ownGraph.Has (.sort s)) :
    ∃ r, foreign.Genuine r ∧ ρ r = s ∧ c₁.base.table.IsSort r := by
  obtain ⟨d, hd⟩ := Table.isSort_iff_dataOf?.1 hs
  cases himported : (c₂.base.table.symbolAt d).isImported with
  | true => exact h.exists_sort hd himported
  | false => exact absurd (h.right.left.has_sort h.right.clean hd himported) hhas

theorem size_foreign (hsort : c₁.base.table.IsSort r) :
    (foreign.symbolAt r).size? = some (c₁.base.table.outcome r) := by
  rw [Table.symbolAt, h.reads.symbols_eq, ← Table.symbolAt]
  exact h.left.left.judged.size_of_has h.left.left.declared.intact (h.has_sort hsort)

/-- A copy of a sort has the size of the sort. -/
theorem size_copy (hr : foreign.Genuine r) (hsort : c₁.base.table.IsSort r) :
    (c₂.base.table.symbolAt (ρ r)).size? = some ((c₁.base.table.outcome r).rename ρ) := by
  obtain ⟨-, hcopy⟩ := h.draws.relocates hr
  rw [(h.right.left.symbolAt_imported hcopy.holds).2, hcopy.size, h.size_foreign hsort]
  rfl

theorem outcome_copy (hr : foreign.Genuine r) (hsort : c₁.base.table.IsSort r)
    (hhas : ¬ c₂.base.table.ownGraph.Has (.sort (ρ r))) :
    c₂.base.table.outcome (ρ r) = (c₁.base.table.outcome r).rename ρ := by
  obtain ⟨-, hcopy⟩ := h.draws.relocates hr
  have himported : (c₂.base.table.symbolAt (ρ r)).isImported = true := by
    rw [(h.right.left.symbolAt_imported hcopy.holds).2]
    rcases h.imported_cases hcopy.holds with ⟨hbase, -⟩ | ⟨-, himported, -⟩
    · obtain ⟨_, hkind⟩ := h.left.left.account.alike.isSort.1 hsort
      obtain ⟨size, hkind⟩ := SymbolKind.unsized_eq_userSort.1 hkind
      rw [← SymbolKind.isBase_outline, hcopy.outline.trans h.outline_eq, hkind] at hbase
      cases hbase
    · exact himported
  -- a sort that is not sized keeps the size that it was imported with
  rw [Table.outcome, Table.find?_finalSizes_none hhas]
  dsimp only
  rw [if_pos himported, h.size_copy hr hsort]
  rfl

/-- The data of a copy of a sort has a productive counterpart. -/
theorem productive_copy (hr : foreign.Genuine r) (hsort : c₁.base.table.IsSort r)
    (hd : c₂.base.table.dataOf? (ρ r) = some d) :
    c₂.start.table.standIn c.start.table d ∈ c.base.table.productiveData := by
  obtain ⟨q, hq, hrq⟩ :=
    (Table.has_sort_iff h.left.left.declared.intact.formed.toRegular).1 (h.has_sort hsort)
  have hleft := h.conveys_left.dataOf?_rename hrq
  have hright : c.base.table.dataOf? (c₂.start.table.standIn c.start.table (ρ r)) =
      some (c₂.start.table.standIn c.start.table d) := by
    rw [h.conveyed_right.echoes.dataOf? (h.genuine_copy hr), hd]
    rfl
  rw [h.standIn_copy hr, hleft] at hright
  rw [← Option.some.inj hright]
  exact h.conveys_left.productive (h.conveys_left.inside_of_dataOf? hrq).2 hq

/-- What the second domain sizes is sized alike, and what it imports has been sized by the first
one. -/
theorem conveys_right : Table.Conveys c₂.base.names c.base.names c₂.base.table c.base.table
    c₂.start.table.Genuine (c₂.start.table.standIn c.start.table) where
  toRenders := h.conveyed_right.renders
  intact := h.right.left.declared.intact
  intact' := h.right.right.declared.intact
  covers := h.right.left.genuine_of_isSort
  productive hd := h.conveyed_right.renders.mem_productiveData_rename
    h.right.left.declared.intact.formed.arena h.right.right.declared.intact.formed.arena
    (fun {s d} _ hd himported => by
      obtain ⟨r, hr, rfl, hsort⟩ := h.exists_sort hd himported
      exact .inr (h.productive_copy hr hsort hd)) hd
  known {s} hs hhas := by
    obtain ⟨r, hr, rfl, hsort⟩ := h.exists_sort_of_not_has hs hhas
    have hmentions : SizeExpr.rename (c₂.start.table.standIn c.start.table ∘ ρ)
        (c₁.base.table.outcome r) =
          SizeExpr.rename (c₁.start.table.standIn c.start.table) (c₁.base.table.outcome r) :=
      SizeExpr.rename_congr fun p hp =>
        h.standIn_of_mentions hr.holds (.inr ⟨_, h.size_foreign hsort, hp⟩)
    rw [h.outcome_copy hr hsort hhas, SizeExpr.rename_rename, h.standIn_copy hr, hmentions]
    exact h.conveys_left.outcome_rename hsort
  apart {s n} hs hhas hn hreach := by
    obtain ⟨r, hr, rfl, hsort⟩ := h.exists_sort_of_not_has hs hhas
    rw [h.standIn_copy hr] at hreach
    rcases h.conveys_left.cases_of_reaches (h.has_sort hsort) hreach with
      ⟨k, -, hk, heq⟩ | ⟨s', hs', hhas', -⟩
    · -- the node would be the one of a copy, and these are not sized
      have hinside := h.genuine_iff.2 (h.conveys_left.inside_of_has hk)
      have howner := congrArg SizeNode.owner heq
      rw [SizeNode.owner_rename, SizeNode.owner_rename, ← h.standIn_copy hinside] at howner
      obtain ⟨d, hd, hdata⟩ := h.right.left.declared.intact.formed.toRegular.exists_data_of_has hn
      rw [← h.absorbed_right.retraces.injective (h.genuine_copy hinside)
        (h.right.left.genuine_of_isSort (Table.isSort_iff_dataOf?.2 ⟨d, hdata⟩)) howner] at hdata
      obtain ⟨-, howns, -⟩ := h.right.left.declared.intact.formed.arena.mem_ownData_iff.1
        (Table.mem_productiveData.1 hd).1
      exact Bool.false_ne_true (howns.symm.trans (h.isImported_data hinside hdata))
    · exact hhas' (h.has_sort hs')

theorem feasible : c.base.table.Feasible c.base.names := by
  refine Table.Feasible.of_conveys h.left.right.declared.intact fun x hx => ?_
  obtain ⟨-, -, hdata, -⟩ := h.left.right.declared.intact.formed.arena.mem_ownData_iff.1 hx
  obtain ⟨shape, info, hkind⟩ := Table.exists_data_of_isData hdata
  obtain ⟨b, hb, rfl⟩ := h.left.right.exists_declaration h.left.pristine
    (h.left.right.account.alike.kindOf_data.1 hkind)
  rcases h.type_cases hb with ⟨b₁, hb₁, rfl⟩ | ⟨b₂, hb₂, rfl⟩
  · have hinside := (h.absorbed_left.portion.type b₁ hb₁).1
    refine ⟨_, _, _, _, b₁.symbol, h.conveys_left, h.left.clean.feasible,
      h.left.left.mem_ownData h.left.clean hb₁ ?_, hinside, rfl⟩
    exact (h.conveyed_left.echoes.isData hinside).symm.trans hdata
  · have hinside := (h.absorbed_right.portion.type b₂ hb₂).1
    refine ⟨_, _, _, _, b₂.symbol, h.conveys_right, h.right.clean.feasible,
      h.right.left.mem_ownData h.right.clean hb₂ ?_, hinside, rfl⟩
    exact (h.conveyed_right.echoes.isData hinside).symm.trans hdata

/-! ## The verdict -/

/-- The check of both domains as one comes across no errors. -/
theorem joint : c.Clean m where
  imported := h.clean
  admits := h.admits
  types := h.typeProblems_eq_nil
  params p hp := by
    rw [h.params_eq_nil] at hp
    exact absurd hp List.not_mem_nil
  restrictions := h.restrictionReports_eq_nil
  feasible := h.feasible
  upholds contract hcontract := by
    rw [h.joins.contracts, List.mem_append] at hcontract
    exact hcontract.elim h.absorbed_left.upholds h.absorbed_right.upholds

end Joined

end Draft

/-! ## Tables side by side -/

/-- Only the numbers of facts that a size depends on matter for its value. -/
theorem SizeExpr.evaluate_congr {card card' : SymbolId → Option Nat} {e : SizeExpr}
    (h : ∀ s ∈ cards e, card s = card' s) : e.evaluate card = e.evaluate card' := by
  induction e with
  | infinity => rfl
  | count n => rfl
  | card sort => exact h sort (List.mem_singleton.2 rfl)
  | sum parts ih =>
      rw [evaluate, evaluate, evaluateSum_eq_foldCounted, evaluateSum_eq_foldCounted,
        List.map_congr_left fun part hpart => ih part hpart fun s hs =>
          h s (mem_cardsOf.2 ⟨part, hpart, hs⟩)]
  | product parts ih =>
      rw [evaluate, evaluate, evaluateProduct_eq_foldCounted, evaluateProduct_eq_foldCounted,
        List.map_congr_left fun part hpart => ih part hpart fun s hs =>
          h s (mem_cardsOf.2 ⟨part, hpart, hs⟩)]

namespace Table

/-- The data symbols that a table holds. -/
def data (t : Table) : Set SymbolId := {x | t.Holds x ∧ (t.kindOf x).isData = true}

/-- What a table declares is declared in another one under the same names and with the same forms.
The data of the one stands for the data of the other, and the sizes of the sorts have the same
values, whatever the numbers of facts. -/
structure Parallels (names names' : Interner) (t t' : Table) (f : SymbolId → SymbolId) : Prop where
  data : Set.BijOn f t.data t'.data
  kind : ∀ {x}, t.Genuine x →
    (t'.kindOf (f x)).relabel (fun y => y) = (t.kindOf x).relabel f
  name : ∀ {x}, t.Genuine x → t'.qualifiedName names' (f x) = t.qualifiedName names x
  form : ∀ {x}, t.Genuine x →
    (t'.symbolAt (f x)).canonical = (t.symbolAt x).canonical.map (CanonicalForm.rename f)
  size : ∀ {s}, t.IsSort s → ∃ e e', (t.symbolAt s).size? = some e ∧
    (t'.symbolAt (f s)).size? = some e' ∧ ∀ card card' : SymbolId → Option Nat,
      (∀ {r}, t.IsSort r → card' (f r) = card r) → e'.evaluate card' = e.evaluate card

theorem Alike.data_eq {t t' : Table} (h : t.Alike t') : t'.data = t.data := by
  ext x
  refine and_congr (h.holds x) ⟨fun hdata => ?_, fun hdata => ?_⟩
  · obtain ⟨shape, info, hkind⟩ := exists_data_of_isData hdata
    rw [h.kindOf_data.1 hkind]
    rfl
  · obtain ⟨shape, info, hkind⟩ := exists_data_of_isData hdata
    rw [h.kindOf_data.2 hkind]
    rfl

theorem genuine_of_mem_data {t : Table} {x : SymbolId} (hx : x ∈ t.data) : t.Genuine x := by
  obtain ⟨shape, info, hkind⟩ := exists_data_of_isData hx.2
  exact ⟨hx.1, by rw [hkind]; rfl⟩

theorem Reads.alike {t t' : Table} (h : t.Reads t') : t.Alike t' :=
  .of_eq h.id_eq h.namespaces_eq h.symbols_eq

theorem Reads.symbolAt_eq {t t' : Table} (h : t.Reads t') (x : SymbolId) :
    t'.symbolAt x = t.symbolAt x := by
  rw [symbolAt, h.symbols_eq, ← symbolAt]

end Table

namespace Draft

variable {first second m : Module} {c₁ c₂ c : Course} {foreign : Table} {ρ : SymbolId → SymbolId}
  {m' : Module} {c' : Course} {s x : SymbolId}

/-- Counterparts go by the same names. -/
theorem Absorbed.qualifiedName (h : Absorbed m m' c c') (hx : c.start.table.Genuine x) :
    c'.start.table.qualifiedName c'.start.names (c.start.table.standIn c'.start.table x) =
      c.start.table.qualifiedName c.start.names x := by
  have hechoes := h.retraces.echoes
  have ht := h.retraces.regular
  have hpath : c.start.table.path (c.start.table.symbolAt x).home = [] := by
    rw [ht.home_eq_root h.left.flat_start hx.holds, ht.tree.path_root]
  -- sorts go by the names of their data
  have hplain : c.start.table.dataOf? ((c.start.table.dataOf? x).getD x) = none := by
    cases hd : c.start.table.dataOf? x with
    | none => rwa [Option.getD_none]
    | some d =>
        obtain ⟨shape, info, hkind, -⟩ := ht.families.sort (Table.dataOf?_eq_some_iff.1 hd)
        rw [Option.getD_some, Table.dataOf?, hkind]
  have hinside := hechoes.data_getD hx
  have hnamed := ht.families.isEmpty_eq_false hinside.holds hplain
  rw [Table.qualifiedName, Table.qualifiedName, h.retraces.path_home hx, hpath, List.nil_append,
    List.nil_append, Interner.join, Interner.join, List.map_singleton, List.map_singleton,
    Table.bearer, Table.bearer, hechoes.dataOf?_getD hx, h.retraces.name_eq hinside hnamed,
    h.grown_start.text (h.left.entered.intact.formed.families.knows hinside.holds)]

namespace Joined

variable (h : Joined first second m c₁ c₂ c foreign ρ)
include h

/-- All sorts of the second domain are sized in the end. -/
theorem size_right (hs : c₂.base.table.IsSort s) :
    (c₂.last.table.symbolAt s).size? = some (c₂.base.table.outcome s) := by
  by_cases hhas : c₂.base.table.ownGraph.Has (.sort s)
  · exact h.right.left.judged.size_of_has h.right.left.declared.intact hhas
  · obtain ⟨r, hr, rfl, hsort⟩ := h.exists_sort_of_not_has hs hhas
    rw [h.right.left.judged.size_of_not_has hhas, h.size_copy hr hsort,
      h.outcome_copy hr hsort hhas]

/-- The data of both domains as one is the data of the second domain, with what it imports. -/
theorem bijOn_data : Set.BijOn (c₂.start.table.standIn c.start.table) c₂.start.table.data
    c.start.table.data := by
  have hretraces := h.absorbed_right.retraces
  have hmaps : ∀ {x}, c₂.start.table.Genuine x →
      (c.start.table.kindOf (c₂.start.table.standIn c.start.table x)).isData = true →
      (c₂.start.table.kindOf x).isData = true := fun hx hdata =>
    (hretraces.echoes.isData hx).symm.trans hdata
  refine ⟨fun x hx => ?_, fun x hx y hy heq => ?_, fun y hy => ?_⟩
  · have hgenuine := Table.genuine_of_mem_data hx
    exact ⟨hretraces.holds' hgenuine, (hretraces.echoes.isData hgenuine).trans hx.2⟩
  · exact hretraces.injective (Table.genuine_of_mem_data hx) (Table.genuine_of_mem_data hy) heq
  · obtain ⟨shape, info, hkind⟩ := Table.exists_data_of_isData hy.2
    obtain ⟨b, hb, rfl⟩ := h.left.right.exists_declaration h.left.pristine hkind
    rcases h.type_cases hb with ⟨b₁, hb₁, rfl⟩ | ⟨b₂, hb₂, rfl⟩
    · -- what the first domain declares is imported by the second one
      have hr := h.genuine_iff.2 (h.absorbed_left.portion.type b₁ hb₁).1
      have hcopy := h.genuine_copy hr
      refine ⟨ρ b₁.symbol, ⟨hcopy.holds, hmaps hcopy ?_⟩, h.standIn_copy hr⟩
      rw [h.standIn_copy hr]
      exact hy.2
    · have hinside := (h.absorbed_right.portion.type b₂ hb₂).1
      exact ⟨b₂.symbol, ⟨hinside.holds, hmaps hinside hy.2⟩, rfl⟩

/-- The tables that the second domain and both domains as one come to hold the same. -/
theorem parallels {t t' : Table} (hleft : c₂.last.table.Reads t) (hright : c.last.table.Reads t') :
    t.Parallels c₂.last.names c.last.names t' (c₂.start.table.standIn c.start.table) := by
  have halike := h.right.left.alike_last.trans hleft.alike
  have halike' := h.right.right.alike_last.trans hright.alike
  have hechoes := h.absorbed_right.retraces.echoes.alike halike halike'
  refine ⟨?_, fun hx => hechoes.kind (halike.genuine_iff.1 hx), fun hx => ?_, fun {x} hx => ?_,
    fun {s} hs => ?_⟩
  · rw [halike.data_eq, halike'.data_eq]
    exact h.bijOn_data
  · rw [halike.qualifiedName, halike'.qualifiedName, h.right.left.names_last,
      h.right.right.names_last]
    exact h.absorbed_right.qualifiedName (halike.genuine_iff.1 hx)
  · rw [hleft.symbolAt_eq, hright.symbolAt_eq, h.right.left.judged.written.canonical,
      h.right.right.judged.written.canonical]
    exact h.conveyed_right.form (halike.genuine_iff.1 hx)
  · have hs' := h.right.left.account.alike.isSort.2 (halike.isSort.1 hs)
    have hhas := h.right.right.has_sort_of_pristine h.joint h.left.pristine
      (h.conveys_right.isSort_rename hs')
    rw [hleft.symbolAt_eq, hright.symbolAt_eq, h.size_right hs',
      h.right.right.judged.size_of_has h.right.right.declared.intact hhas]
    refine ⟨_, _, rfl, rfl, fun card card' hcard => ?_⟩
    rw [← (h.conveys_right.outcome_rename hs').evaluate, SizeExpr.evaluate_rename]
    -- a size depends on sorts only
    refine SizeExpr.evaluate_congr fun r hr => hcard (hleft.alike.isSort.2 ?_)
    obtain ⟨_, _, _, htaken⟩ := h.right.left.taken
    have hlast := hleft.alike.isSort.1 hs
    exact ((htaken.staged.sized.intact.closed hlast.holds).size (h.size_right hs')).cards hr

end Joined

end Draft

end ManySorted
