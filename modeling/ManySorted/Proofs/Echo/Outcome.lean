import ManySorted.Proofs.Echo.Judging
import ManySorted.Proofs.Echo.Restricting
import ManySorted.Proofs.Sizing.Tally

/-!
# Judging in another order

After the types of a module were declared in two orders, judging reports the same in both, in some
order (`Draft.Enacted.perm_judged`).  Counterparts are productive alike, depend on counterparts and
have the same sizes up to the order of addends, so contracts fare alike too
(`Draft.Enacted.checkContract_reports`).
-/

namespace ManySorted

namespace SizeExpr

/-- A size in which no sort is renamed stays. -/
theorem rename_eq_self {f : SymbolId → SymbolId} {e : SizeExpr} (h : ∀ s ∈ cards e, f s = s) :
    rename f e = e := by
  refine (rename_congr (g := fun s => s) h).trans ?_
  clear h
  induction e with
  | infinity => rfl
  | count n => rfl
  | card sort => rfl
  | sum parts ih =>
      simp only [rename, renameAll_eq]
      exact congrArg sum ((List.map_congr_left fun part hpart => ih part hpart).trans
        (List.map_id' _))
  | product parts ih =>
      simp only [rename, renameAll_eq]
      exact congrArg product ((List.map_congr_left fun part hpart => ih part hpart).trans
        (List.map_id' _))

end SizeExpr

/-- What went wrong, if something did. -/
def error? {ε α : Type} : Except ε α → Option ε
  | .error e => some e
  | .ok _ => none

/-- Whether symbols of the kind may be conditions of contracts. -/
def SymbolKind.isCondition : SymbolKind → Bool
  | userConstant .derived | baseConstant _ => true
  | _ => false

theorem SymbolKind.isCondition_relabel (f : SymbolId → SymbolId) (kind : SymbolKind) :
    (kind.relabel f).isCondition = kind.isCondition := by
  cases kind with
  | userConstant constant => cases constant <;> rfl
  | _ => rfl

namespace Table

variable {t t' : Table} {names names' : Interner} {f : SymbolId → SymbolId}

/-- The problems with conditions are reported, and nothing else. -/
theorem reports_checkConditions (t : Table) (names : Interner) (location : Location)
    (kind : ContractKind) (ids : List QualifiedId) :
    (t.checkConditions names location kind ids).reports =
      ((ids.map (t.condition names)).filterMap error?).map (⟨location, ·⟩) := by
  unfold checkConditions
  dsimp only
  split
  · next subject rest hproblems _ =>
      have hnone : (ids.map (t.condition names)).filterMap error? = [] :=
        (List.filterMap_congr fun c _ => by cases c <;> rfl).trans hproblems
      rw [hnone]
      rfl
  · exact congrArg (List.map _) (List.filterMap_congr fun c _ => by cases c <;> rfl)

theorem condition_eq (t : Table) (names : Interner) (id : QualifiedId) : t.condition names id =
    (t.resolveOrProblem names id anySymbol none).bind fun x =>
      if (t.kindOf x).isCondition then .ok x
      else .error (.badId (names.join id.segments) "a contract condition") := by
  unfold condition
  cases t.resolveOrProblem names id anySymbol none with
  | error problem => rfl
  | ok x =>
      simp only [bind, Except.bind]
      cases t.kindOf x with
      | userConstant constant => cases constant <;> rfl
      | _ => rfl

end Table

namespace Draft

variable {m : Module} {types : List TypeDecl} {imported origin start start' d d' e e' : Draft}
  {declarations declarations' : Declarations} {f : SymbolId → SymbolId} {x s : SymbolId}

/-- Conditions named by known names are found to be in order in both drafts, or in neither. -/
theorem Mates.error?_condition (h : Mates origin d d' f) {id : QualifiedId}
    (hid : ∀ segment ∈ id.segments, origin.names.Knows segment) :
    error? (d'.table.condition d'.names id) = error? (d.table.condition d.names id) := by
  rw [Table.condition_eq, Table.condition_eq,
    h.resolveOrProblem hid fun _ _ => show Table.anySymbol _ = Table.anySymbol _ from rfl,
    h.join_eq hid]
  cases hx : d.table.resolveOrProblem d.names id Table.anySymbol none with
  | error problem => rfl
  | ok x =>
      have hholds := h.inside_of_resolveOrProblem hx
      have hcondition : (d'.table.kindOf (f x)).isCondition = (d.table.kindOf x).isCondition := by
        rw [← SymbolKind.isCondition_relabel (fun y => y), h.kind hholds,
          SymbolKind.isCondition_relabel]
      simp only [Except.map, Except.bind, hcondition]
      split <;> rfl

theorem Judged.size_of_has (h : Judged m d e) (hintact : d.table.Intact d.names)
    (hhas : d.table.ownGraph.Has (.sort s)) :
    (e.table.symbolAt s).size? = some (d.table.outcome s) := by
  rw [h.size s (Table.mem_componentSorts_iff.2 hhas), Table.outcome]
  obtain ⟨size, hsize⟩ : ∃ size, d.table.finalSizes.find? (.sort s) = some size := by
    have hfinal := hintact.find?_finalSizes hhas
    by_cases hcycle : d.table.ownGraph.Cycles (.sort s)
    · exact ⟨_, hfinal.1 hcycle⟩
    · exact ⟨_, hfinal.2 hcycle⟩
  rw [hsize]
  exact congrArg (fun size? : Option SizeExpr => some (size?.getD .infinity)) hsize

theorem Judged.size_of_not_has (h : Judged m d e) (hhas : ¬ d.table.ownGraph.Has (.sort s)) :
    (e.table.symbolAt s).size? = (d.table.symbolAt s).size? :=
  h.others s (mt Table.mem_componentSorts_iff.1 hhas)

namespace Enacted

variable (h : Enacted m types imported origin start start' d d' declarations declarations' f)
include h

/-- What is imported has the same size in both drafts, and it speaks of what is imported. -/
theorem size_of_imported (hx : imported.table.Holds x) :
    (d'.table.symbolAt (f x)).size? = (d.table.symbolAt x).size? ∧
      ∀ e, (d.table.symbolAt x).size? = some e → e.rename f = e := by
  rw [(h.holds_imported hx).2, h.symbolAt_imported hx, h.symbolAt_imported' hx]
  refine ⟨rfl, fun e he => SizeExpr.rename_eq_self fun s hs => ?_⟩
  exact (h.holds_imported (((h.intact.closed hx).size he).cards hs).holds).2

theorem holds_of_isImported (hx : d.table.Holds x)
    (himported : (d.table.symbolAt x).isImported = true) : imported.table.Holds x := by
  by_contra hnew
  have hunsettled := ((h.left.alike.owns).2 (h.owns_of_new hx hnew)).unsettled
  rw [Symbol.isSettled, himported] at hunsettled
  cases hunsettled

/-- The drafts are spoken of alike. -/
theorem recounts : Table.Recounts d.names d'.names d.table d'.table f where
  toRenders := h.renders
  intact := h.declared.intact
  intact' := h.declared'.intact
  foreign hx himported := (h.mates.isImported hx).trans himported
  stored {s} hs himported := by
    obtain ⟨hsame, hfixed⟩ := h.size_of_imported (h.holds_of_isImported hs.holds himported)
    rw [hsame]
    cases hsize : (d.table.symbolAt s).size? with
    | none => exact .refl _
    | some e =>
        rw [Option.getD_some, hfixed e hsize]
        exact .refl _
  onto := h.mates.onto
  name := h.qualifiedName
  location {x} hdata := by
    obtain ⟨shape, info, hkind⟩ := Table.exists_data_of_isData hdata
    refine h.mates.location (Table.holds_of_data hkind) ?_ ?_
    · rw [hkind]
      rfl
    · rw [hkind]
      exact fun hconstant => by cases hconstant
  label hx hown hlabel := h.mates.text (h.mates.label hx hown hlabel)

section

variable (hleft : Judged m d e) (hright : Judged (m.withTypes types) d' e') (hunsized : d.Unsized)
  (hunsized' : d'.Unsized)
include hleft hright

theorem mates_judged : Mates origin e e' f :=
  h.mates.alike hleft.names_eq hleft.written.toAlike hright.names_eq hright.written.toAlike

include hunsized hunsized'

/-- Counterparts turn out to have the same number of values, if it is known. -/
theorem closed_size (hs : d.table.IsSort s) :
    (e'.table.symbolAt (f s)).size?.bind SizeExpr.closed =
      (e.table.symbolAt s).size?.bind SizeExpr.closed := by
  have hrecounts := h.recounts
  by_cases hhas : d.table.ownGraph.Has (.sort s)
  · rw [hleft.size_of_has hrecounts.intact hhas, hright.size_of_has hrecounts.intact'
      ((hrecounts.has_sort_rename hs.holds).2 hhas), Option.bind_some, Option.bind_some,
      ← (hrecounts.conveys.outcome_rename hs).closed, SizeExpr.closed_rename]
  · rw [hleft.size_of_not_has hhas,
      hright.size_of_not_has (mt (hrecounts.has_sort_rename hs.holds).1 hhas)]
    by_cases hold : imported.table.Holds s
    · rw [(h.size_of_imported hold).1]
    · have howns := h.left.alike.owns.2 (h.owns_of_new hs.holds hold)
      rw [hunsized howns, hunsized' (h.mates.owns howns)]

/-- Contracts fare alike. -/
theorem checkContract_reports {contract : ContractDecl} (hcontract : contract ∈ m.contracts) :
    (e'.table.checkContract e'.names (m.withTypes types) contract).reports =
      (e.table.checkContract e.names m contract).reports := by
  have hmates := h.mates_judged hleft hright
  have hknows := h.coupled.interned.id
  cases hitem : contract.item with
  | holds ids =>
      simp only [Table.checkContract, hitem, Table.reports_checkConditions]
      refine congrArg (List.map _) ?_
      rw [List.filterMap_map, List.filterMap_map]
      refine List.filterMap_congr fun id hid => ?_
      exact hmates.error?_condition
        (hknows id (Node.mem_qualifiedIds_of_condition hcontract hitem hid))
  | cardinality c id =>
      have hid := hknows id (Node.mem_qualifiedIds_of_cardinality hcontract hitem)
      simp only [Table.checkContract, hitem]
      rw [hmates.resolveOrProblem hid fun _ hx => hmates.isTypeDefining hx]
      cases hx : e.table.resolveOrProblem e.names id Table.typeDefining none with
      | error problem => rfl
      | ok x =>
          have hholds := hmates.inside_of_resolveOrProblem hx
          have hsize : ((e'.table.sortOf? (f x)).bind fun s => (e'.table.symbolAt s).size?).bind
                SizeExpr.closed =
              ((e.table.sortOf? x).bind fun s => (e.table.symbolAt s).size?).bind
                SizeExpr.closed := by
            rw [hmates.sortOf? hholds]
            cases hs : e.table.sortOf? x with
            | none => rfl
            | some s =>
                exact h.closed_size hleft hright hunsized hunsized'
                  (hleft.written.toAlike.isSort.1 (hmates.regular.isSort_of_sortOf? hs))
          simp only [Except.map, Table.checkCardinality]
          rw [hmates.isNew hholds, hmates.qualifiedName h.tree h.spelled hholds]
          split
          · rfl
          · simp only [hsize]
            rfl

/-- All that is reported in one order is reported in the other. -/
theorem perm_judged (hreports : d'.table.reports.Perm d.table.reports) :
    e'.table.reports.Perm e.table.reports := by
  rw [hleft.reports_eq, hright.reports_eq]
  refine .append (.append (.append hreports h.recounts.perm_unproductive)
    h.recounts.perm_sizingReports) (.of_eq ?_)
  exact List.flatMap_congr fun contract hcontract =>
    h.checkContract_reports hleft hright hunsized hunsized' hcontract

end

end Enacted

end Draft

end ManySorted
