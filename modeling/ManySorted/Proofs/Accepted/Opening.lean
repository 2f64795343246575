import ManySorted.Declaration.Form
import ManySorted.Proofs.Accepted.Parts

/-!
# Opening unions

Opening unions one after the other, each once, joins the values of all members that can be reached.
So a fact that holds of a joining just if it holds of one of the values (`Additive`), such as having
a certain part, holds of the outcome just if some member that can be reached brings it in
(`flatten_iff`).  A member that is reached through a union that is open already is reached from that
union directly, which is why it does no harm to open each union only once.
-/

namespace ManySorted

namespace UnionMembers

variable {unions : UnionMembers} {u w : SymbolId} {entry : SymbolId × List Member}

theorem find?_without (hne : w ≠ u) : (unions.without u).find? w = unions.find? w := by
  rw [find?, find?, without, List.find?_filter]
  refine congrArg (List.find? · unions) (funext fun entry => ?_)
  by_cases hentry : entry.1 = w
  · simp [hentry, hne]
  · simp [hentry]

theorem find?_without_self : (unions.without u).find? u = none := by
  rw [find?, without, List.find?_filter, List.find?_eq_none]
  intro entry _ h
  simp at h

end UnionMembers

/-- A joining of values has the property just if one of them has it. -/
def Additive (P : AcceptedValues → Prop) : Prop := ∀ v w, P (v.union w) ↔ P v ∨ P w

theorem additive_hasPart (p : Part) : Additive (·.HasPart p) :=
  fun _ _ => AcceptedValues.hasPart_union

/-- A member brings in values with the property, where the unions in `unopened` have the given
members and `known` says what other unions accept. -/
inductive Supplies (P : AcceptedValues → Prop) (known : SymbolId → AcceptedValues)
    (unopened : UnionMembers) : Member → Prop
  | values {values : AcceptedValues} (h : P values) : Supplies P known unopened (.values values)
  | known {u : SymbolId} (hfind : unopened.find? u = none) (h : P (known u)) :
      Supplies P known unopened (.union u)
  | opened {u : SymbolId} {entry : SymbolId × List Member} {member : Member}
      (hfind : unopened.find? u = some entry) (hmember : member ∈ entry.2)
      (h : Supplies P known unopened member) : Supplies P known unopened (.union u)

section

variable {P : AcceptedValues → Prop} {known : SymbolId → AcceptedValues} {unopened : UnionMembers}
  {u : SymbolId} {entry : SymbolId × List Member} {member : Member}

/-- What is found without opening a union is found with it. -/
theorem Supplies.of_without (hknown : ¬ P (known u))
    (h : Supplies P known (unopened.without u) member) : Supplies P known unopened member := by
  induction h with
  | values h => exact .values h
  | @known w hfind h =>
      have hne : w ≠ u := by
        rintro rfl
        exact hknown h
      rw [UnionMembers.find?_without hne] at hfind
      exact .known hfind h
  | @opened w _ _ hfind hmember _ ih =>
      have hne : w ≠ u := by
        rintro rfl
        rw [UnionMembers.find?_without_self] at hfind
        cases hfind
      rw [UnionMembers.find?_without hne] at hfind
      exact .opened hfind hmember ih

/-- What is found with a union is found without it, from the start or from a member of the union. -/
theorem Supplies.without (hfound : unopened.find? u = some entry)
    (h : Supplies P known unopened member) :
    Supplies P known (unopened.without u) member ∨
      ∃ m ∈ entry.2, Supplies P known (unopened.without u) m := by
  induction h with
  | values h => exact .inl (.values h)
  | @known w hfind h =>
      have hne : w ≠ u := by
        rintro rfl
        cases hfound.symm.trans hfind
      exact .inl (.known ((UnionMembers.find?_without hne).trans hfind) h)
  | @opened w _ member hfind hmember _ ih =>
      rcases ih with h | h
      · by_cases hw : w = u
        · subst hw
          cases hfound.symm.trans hfind
          exact .inr ⟨member, hmember, h⟩
        · exact .inl (.opened ((UnionMembers.find?_without hw).trans hfind) hmember h)
      · exact .inr h

/-- Opening unions finds what the members on the stack supply.  Nothing is known otherwise about the
unions that are opened. -/
theorem flatten_iff (hP : Additive P) {stack : List Member} {out : AcceptedValues}
    (hknown : ∀ u entry, unopened.find? u = some entry → ¬ P (known u)) :
    P (flatten known unopened stack out) ↔
      P out ∨ ∃ member ∈ stack, Supplies P known unopened member := by
  fun_induction flatten known unopened stack out with
  | case1 unopened out => simp
  | case2 unopened out values rest ih =>
      rw [ih hknown, hP, or_assoc]
      simp only [List.mem_cons, exists_eq_or_imp]
      refine or_congr_right (or_congr_left ⟨.values, fun h => ?_⟩)
      cases h
      assumption
  | case3 unopened out u rest entry hfound ih =>
      have hnone := hknown u entry hfound
      rw [ih fun w entry hfind => ?_]
      · refine or_congr_right ?_
        simp only [List.mem_append, List.mem_cons, exists_eq_or_imp]
        constructor
        · rintro ⟨member, hmember | hmember, h⟩
          · exact .inl (.opened hfound hmember (h.of_without hnone))
          · exact .inr ⟨member, hmember, h.of_without hnone⟩
        · rintro (h | ⟨member, hmember, h⟩)
          · rcases h.without hfound with h | ⟨m, hm, h⟩
            · cases h with
              | known _ h => exact absurd h hnone
              | opened hfind _ _ =>
                  rw [UnionMembers.find?_without_self] at hfind
                  cases hfind
            · exact ⟨m, .inl hm, h⟩
          · rcases h.without hfound with h | ⟨m, hm, h⟩
            · exact ⟨member, .inr hmember, h⟩
            · exact ⟨m, .inl hm, h⟩
      · by_cases hw : w = u
        · exact hw ▸ hnone
        · rw [UnionMembers.find?_without hw] at hfind
          exact hknown w entry hfind
  | case4 unopened out u rest hfound ih =>
      rw [ih hknown, hP, or_assoc]
      simp only [List.mem_cons, exists_eq_or_imp]
      refine or_congr_right (or_congr_left ⟨.known hfound, fun h => ?_⟩)
      cases h with
      | known _ h => exact h
      | opened hfind _ _ => cases hfound.symm.trans hfind

/-- Whether a member brings in values in normal form, where `known` says what unions accept. -/
def Member.Normal (known : SymbolId → AcceptedValues) : Member → Prop
  | .values v => v.Normal
  | .union u => (known u).Normal

/-- Opening unions keeps values in normal form. -/
theorem normal_flatten {stack : List Member} {out : AcceptedValues}
    (hunopened : ∀ entry ∈ unopened, ∀ m ∈ entry.2, m.Normal known)
    (hstack : ∀ m ∈ stack, m.Normal known) (hout : out.Normal) :
    (flatten known unopened stack out).Normal := by
  fun_induction flatten known unopened stack out with
  | case1 => exact hout
  | case2 unopened out values rest ih =>
      refine ih hunopened (fun m hm => hstack m (List.mem_cons_of_mem _ hm)) ?_
      exact hout.union (hstack _ List.mem_cons_self)
  | case3 unopened out u rest entry hfound ih =>
      have hentry : entry ∈ unopened := List.mem_of_find?_eq_some hfound
      refine ih (fun e he => hunopened e (List.mem_filter.1 he).1) (fun m hm => ?_) hout
      rcases List.mem_append.1 hm with hm | hm
      · exact hunopened entry hentry m hm
      · exact hstack m (List.mem_cons_of_mem _ hm)
  | case4 unopened out u rest hfound ih =>
      refine ih hunopened (fun m hm => hstack m (List.mem_cons_of_mem _ hm)) ?_
      exact hout.union (hstack _ List.mem_cons_self)

end

namespace Table

variable {t : Table} {unions : UnionMembers} {u : SymbolId}

theorem knownUnion_of_none (h : unions.find? u = none) :
    t.knownUnion unions u = ((t.symbolAt u).accepted? 0).getD ∅ := by
  rw [knownUnion, h]
  rfl

theorem knownUnion_of_some {entry : SymbolId × List Member} (h : unions.find? u = some entry) :
    t.knownUnion unions u = ∅ := by
  rw [knownUnion, h]
  rfl

/-- A position accepts what its members supply. -/
theorem acceptedAt_iff {P : AcceptedValues → Prop} (hP : Additive P) (hempty : ¬ P ∅)
    (p : Position) :
    P (t.acceptedAt unions p) ↔
      ∃ member ∈ p.members, Supplies P (t.knownUnion unions) unions member := by
  rw [acceptedAt, flatten_iff hP]
  · exact or_iff_right hempty
  · intro u entry hfind
    rwa [knownUnion_of_some hfind]

end Table

end ManySorted
