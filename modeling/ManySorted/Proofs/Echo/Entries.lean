import ManySorted.Proofs.Declaration.Roster
import ManySorted.Proofs.Echo.Finding

/-!
# Counterparts of what is entered

If the same is entered into one draft in two orders, then what a name comes to stand for in one of
them has a counterpart of that name in the other (`Draft.Counterpart`), and so have its companions.
Both drafts are then alike up to the handles (`Draft.Twins.overlays`).

## Strategy

* **Namesakes.**  What a name comes to stand for depends on the first entry of that name only, so a
  new symbol that is no companion has a namesake in the other draft (`Draft.Twins.exists_namesake`).
* **Companions.**  They go with their data, whose namesake is data as well
  (`Draft.Twins.kindOf_namesake`).
* **Counterparts.**  So every symbol has exactly one counterpart (`Draft.Twins.exists_counterpart`,
  `Draft.Twins.counterpart_eq`), and that of the counterpart is the symbol itself
  (`Draft.Twins.counterpart_counterpart`).
* **What they share.**  Kind, arity, home and spelling agree (`Draft.Twins.relabel`,
  `Draft.Twins.text`), and a name that was known before stands for counterparts
  (`Draft.Twins.symbol?`).
-/

namespace ManySorted

/-- The entries agree, but for where constants of enumerations are met first. -/
structure Entry.Matches (e e' : Entry) : Prop where
  arity : e'.arity = e.arity
  kind : e'.kind = e.kind
  tacit : e'.tacit = e.tacit
  location : e.tacit = false → e'.location = e.location

theorem Entry.Matches.symm {e e' : Entry} (h : e.Matches e') : e'.Matches e where
  arity := h.arity.symm
  kind := h.kind.symm
  tacit := h.tacit.symm
  location htacit := (h.location (h.tacit.symm.trans htacit)).symm

theorem SymbolKind.relabel_eq_outline {kind : SymbolKind} (f : SymbolId → SymbolId)
    (hcompanion : kind.isCompanion = false) (hdata : kind.isData = false) :
    kind.relabel f = kind.outline := by
  cases kind with
  | userSort => cases hcompanion
  | data => cases hdata
  | userConstant constant =>
      cases constant with
      | type s => cases hcompanion
      | _ => rfl
  | _ => rfl

namespace Draft

variable {origin d d' : Draft} {entries entries' : List Entry} {e e' : Entry} {name : Name}
  {x x' y y' : SymbolId} {shape : DataShape} {info info' : DataInfo}

/-- What names come to stand for is the same for both lists of entries. -/
structure Agree (origin : Draft) (entries entries' : List Entry) : Prop where
  there : ∀ {name e}, origin.chosen entries name = some e →
    ∃ e', origin.chosen entries' name = some e' ∧ e.Matches e'
  back : ∀ {name e'}, origin.chosen entries' name = some e' →
    ∃ e, origin.chosen entries name = some e ∧ e.Matches e'

theorem Agree.symm (h : Agree origin entries entries') : Agree origin entries' entries where
  there hchosen :=
    let ⟨e, he, hmatches⟩ := h.back hchosen
    ⟨e, he, hmatches.symm⟩
  back hchosen :=
    let ⟨e, he, hmatches⟩ := h.there hchosen
    ⟨e, he, hmatches.symm⟩

/-- The same has been entered into both drafts, in some order each. -/
structure Twins (origin : Draft) (entries entries' : List Entry) (d d' : Draft) : Prop where
  intact : origin.Intact
  left : Roster origin entries d
  right : Roster origin entries' d'
  agree : Agree origin entries entries'

theorem Twins.symm (h : Twins origin entries entries' d d') :
    Twins origin entries' entries d' d where
  intact := h.intact
  left := h.right
  right := h.left
  agree := h.agree.symm

/-- One name comes to stand for the symbol in each of the drafts. -/
structure Namesakes (origin : Draft) (entries entries' : List Entry) (d d' : Draft)
    (x x' : SymbolId) : Prop where
  exists_name : ∃ name e e', origin.chosen entries name = some e ∧
    origin.chosen entries' name = some e' ∧ e.Matches e' ∧
    (d.table.namespaceAt .root).symbol? name = some x ∧
    (d'.table.namespaceAt .root).symbol? name = some x'

/-- What was there is its own counterpart, and what is new has a namesake or belongs to one. -/
inductive Counterpart (origin : Draft) (entries entries' : List Entry) (d d' : Draft) :
    SymbolId → SymbolId → Prop
  | kept {x : SymbolId} (holds : origin.table.Holds x) :
    Counterpart origin entries entries' d d' x x
  | named {x x' : SymbolId} (namesakes : Namesakes origin entries entries' d d' x x') :
      Counterpart origin entries entries' d d' x x'
  | sort {y y' : SymbolId} {shape : DataShape} {info info' : DataInfo}
      (namesakes : Namesakes origin entries entries' d d' y y')
      (kind : d.table.kindOf y = .data shape info)
        (kind' : d'.table.kindOf y' = .data shape info') :
      Counterpart origin entries entries' d d' info.sort info'.sort
  | typeConstant {y y' : SymbolId} {shape : DataShape} {info info' : DataInfo}
      (namesakes : Namesakes origin entries entries' d d' y y')
      (kind : d.table.kindOf y = .data shape info)
        (kind' : d'.table.kindOf y' = .data shape info') :
      Counterpart origin entries entries' d d' info.typeConstant info'.typeConstant

theorem Namesakes.symm (h : Namesakes origin entries entries' d d' x x') :
    Namesakes origin entries' entries d' d x' x := by
  obtain ⟨name, e, e', hchosen, hchosen', hmatches, hx, hx'⟩ := h.exists_name
  exact ⟨name, e', e, hchosen', hchosen, hmatches.symm, hx', hx⟩

theorem Counterpart.symm (h : Counterpart origin entries entries' d d' x x') :
    Counterpart origin entries' entries d' d x' x := by
  cases h with
  | kept holds => exact .kept holds
  | named namesakes => exact .named namesakes.symm
  | sort namesakes kind kind' => exact .sort namesakes.symm kind' kind
  | typeConstant namesakes kind kind' => exact .typeConstant namesakes.symm kind' kind

/-- What a new symbol that is no companion is. -/
structure Fresh (origin : Draft) (entries : List Entry) (d : Draft) (x : SymbolId) (e : Entry) :
    Prop where
  holds : d.table.Holds x
  new : ¬ origin.table.Holds x
  home : (d.table.symbolAt x).home = .root
  knows : origin.names.Knows (d.table.symbolAt x).name
  chosen : origin.chosen entries (d.table.symbolAt x).name = some e
  bears : d.table.Bears x e
  companion : (d.table.kindOf x).isCompanion = false

namespace Roster

variable (h : Roster origin entries d) (hintact : origin.Intact)
include h hintact

theorem fresh_of_chosen (hchosen : origin.chosen entries name = some e)
    (hx : (d.table.namespaceAt .root).symbol? name = some x) :
    (d.table.symbolAt x).name = name ∧ Fresh origin entries d x e := by
  obtain ⟨hnone, hlegal⟩ := opens_of_chosen hchosen
  have hknows := (hintact.formed.proper.fitting_of_isLegalId hlegal).knows
  rcases h.symbol?_cases hintact hx with hold | ⟨-, hholds, hnew, rfl⟩
  · cases hnone.symm.trans hold
  · obtain ⟨e', hchosen', hbears⟩ := h.bears_of_symbol? hintact hlegal hnone hx
    obtain rfl := Option.some.inj (hchosen.symm.trans hchosen')
    rw [← h.text hknows] at hlegal
    exact ⟨rfl, hholds, hnew, h.added.home hholds hnew, hknows, hchosen, hbears,
      h.intact.formed.toRegular.isCompanion_eq_false hlegal hx⟩

omit hintact in
theorem fresh_of_new (hx : d.table.Holds x) (hnew : ¬ origin.table.Holds x)
    (hcompanion : (d.table.kindOf x).isCompanion = false) :
    ∃ e, Fresh origin entries d x e ∧
      (d.table.namespaceAt .root).symbol? (d.table.symbolAt x).name = some x := by
  obtain ⟨hknows, e, hchosen, hbears⟩ := h.new hx hnew hcompanion
  have hhome := h.added.home hx hnew
  have hnamed : (d.table.symbolAt x).name.isEmpty = false := by
    refine h.intact.formed.families.isEmpty_eq_false hx ?_
    cases hkind : d.table.kindOf x with
    | userSort => rw [hkind] at hcompanion; cases hcompanion
    | _ => rw [Table.dataOf?, hkind]
  refine ⟨e, ⟨hx, hnew, hhome, hknows, hchosen, hbears, hcompanion⟩, ?_⟩
  have hlisted := h.intact.formed.arena.listed hx hnamed
  rwa [hhome] at hlisted

omit hintact in
theorem kindOf_of_holds (hx : origin.table.Holds x) :
    d.table.kindOf x = origin.table.kindOf x := by
  rw [Table.kindOf, Table.kindOf, h.added.same hx]

/-- The companions of new data are new. -/
theorem new_companions (hnew : ¬ origin.table.Holds y)
    (hkind : d.table.kindOf y = .data shape info) :
    ¬ origin.table.Holds info.sort ∧ ¬ origin.table.Holds info.typeConstant := by
  have hfamily := h.intact.formed.families.data hkind
  have hfamilies := hintact.formed.families
  have hsort : ¬ origin.table.Holds info.sort := by
    intro hold
    have hsort := hfamily.sort_kind
    rw [h.kindOf_of_holds hold] at hsort
    obtain ⟨shape', info', hdata, -⟩ := hfamilies.sort hsort
    exact hnew (Table.holds_of_data hdata)
  refine ⟨hsort, fun hold => hsort ?_⟩
  have hconstant := hfamily.constant_kind
  rw [h.kindOf_of_holds hold] at hconstant
  obtain ⟨z, shape', info', hdata, heq, -⟩ := hfamilies.type hconstant
  exact heq ▸ (hfamilies.data hdata).holds_sort

/-- A new companion belongs to new data. -/
theorem owner_of_companion (hnew : ¬ origin.table.Holds x)
    (hcompanion : (d.table.kindOf x).isCompanion = true) :
    ∃ y shape info, d.table.kindOf y = .data shape info ∧ ¬ origin.table.Holds y ∧
      (x = info.sort ∨ x = info.typeConstant) := by
  have hfamilies := h.intact.formed.families
  have hdataNew : ∀ {y shape info}, d.table.kindOf y = .data shape info →
      (x = info.sort ∨ x = info.typeConstant) → ¬ origin.table.Holds y := by
    intro y shape info hkind hx hold
    rw [h.kindOf_of_holds hold] at hkind
    have hfamily := hintact.formed.families.data hkind
    rcases hx with rfl | rfl
    · exact hnew hfamily.holds_sort
    · exact hnew hfamily.holds_constant
  cases hkind : d.table.kindOf x with
  | userSort y size =>
      obtain ⟨shape, info, hdata, rfl⟩ := hfamilies.sort (s := x) (d := y) (by rw [hkind]; rfl)
      exact ⟨y, shape, info, hdata, hdataNew hdata (.inl rfl), .inl rfl⟩
  | userConstant constant =>
      cases constant with
      | type s =>
          obtain ⟨y, shape, info, hdata, -, rfl⟩ := hfamilies.type hkind
          exact ⟨y, shape, info, hdata, hdataNew hdata (.inr rfl), .inr rfl⟩
      | _ => rw [hkind] at hcompanion; cases hcompanion
  | _ => rw [hkind] at hcompanion; cases hcompanion

end Roster

/-- The symbol that goes under the same name in the other draft. -/
def namesake (d d' : Draft) (x : SymbolId) : SymbolId :=
  ((d'.table.namespaceAt .root).symbol? (d.table.symbolAt x).name).getD x

/-- The counterpart of a symbol in the other draft. -/
def counterpart (origin d d' : Draft) (x : SymbolId) : SymbolId :=
  if origin.table.Holds x then x
  else
    match d.table.kindOf x with
    | .userSort y _ => (d'.table.kindOf (namesake d d' y)).info?.elim x DataInfo.sort
    | .userConstant (.type s) => (d.table.dataOf? s).elim x fun y =>
        (d'.table.kindOf (namesake d d' y)).info?.elim x DataInfo.typeConstant
    | _ => namesake d d' x

namespace Twins

variable (h : Twins origin entries entries' d d')
include h

theorem fresh (hnamesakes : Namesakes origin entries entries' d d' x x') : ∃ e e',
    Fresh origin entries d x e ∧ Fresh origin entries' d' x' e' ∧ e.Matches e' ∧
      (d'.table.symbolAt x').name = (d.table.symbolAt x).name ∧
      (d'.table.namespaceAt .root).symbol? (d.table.symbolAt x).name = some x' := by
  obtain ⟨name, e, e', hchosen, hchosen', hmatches, hx, hx'⟩ := hnamesakes.exists_name
  obtain ⟨rfl, hfresh⟩ := h.left.fresh_of_chosen h.intact hchosen hx
  obtain ⟨hname, hfresh'⟩ := h.right.fresh_of_chosen h.intact hchosen' hx'
  exact ⟨e, e', hfresh, hfresh', hmatches, hname, hx'⟩

theorem namesake_eq (hnamesakes : Namesakes origin entries entries' d d' x x') :
    namesake d d' x = x' := by
  obtain ⟨-, -, -, -, -, -, hx'⟩ := h.fresh hnamesakes
  rw [namesake, hx', Option.getD_some]

/-- A new symbol that is no companion has a namesake. -/
theorem exists_namesake (hx : d.table.Holds x) (hnew : ¬ origin.table.Holds x)
    (hcompanion : (d.table.kindOf x).isCompanion = false) :
    ∃ x', Namesakes origin entries entries' d d' x x' := by
  obtain ⟨e, hfresh, hlisted⟩ := h.left.fresh_of_new hx hnew hcompanion
  obtain ⟨e', hchosen', hmatches⟩ := h.agree.there hfresh.chosen
  obtain ⟨x', hx'⟩ := h.right.entered hchosen'
  exact ⟨x', _, e, e', hfresh.chosen, hchosen', hmatches, hlisted, hx'⟩

/-- Data has data as its namesake. -/
theorem kindOf_namesake (hnamesakes : Namesakes origin entries entries' d d' x x')
    (hkind : d.table.kindOf x = .data shape info) : ∃ info', d'.table.kindOf x' =
      .data shape info' ∧
      info'.labels = info.labels ∧ info'.any = info.any := by
  obtain ⟨e, e', hfresh, hfresh', hmatches, -, -⟩ := h.fresh hnamesakes
  have houtline : (d'.table.kindOf x').outline = (SymbolKind.data shape info).outline := by
    rw [hfresh'.bears.kind, hmatches.kind, ← hfresh.bears.kind, hkind]
  exact SymbolKind.data_of_outline houtline

/-- Every symbol has a counterpart. -/
theorem exists_counterpart (hx : d.table.Holds x) :
    ∃ x', Counterpart origin entries entries' d d' x x' := by
  by_cases hold : origin.table.Holds x
  · exact ⟨x, .kept hold⟩
  cases hcompanion : (d.table.kindOf x).isCompanion with
  | false =>
      obtain ⟨x', hnamesakes⟩ := h.exists_namesake hx hold hcompanion
      exact ⟨x', .named hnamesakes⟩
  | true =>
      obtain ⟨y, shape, info, hkind, hnew, howner⟩ :=
        h.left.owner_of_companion h.intact hold hcompanion
      obtain ⟨y', hnamesakes⟩ := h.exists_namesake (Table.holds_of_data hkind) hnew
        (by rw [hkind]; rfl)
      obtain ⟨info', hkind', -⟩ := h.kindOf_namesake hnamesakes hkind
      rcases howner with rfl | rfl
      · exact ⟨_, .sort hnamesakes hkind hkind'⟩
      · exact ⟨_, .typeConstant hnamesakes hkind hkind'⟩

/-- There is one counterpart only. -/
theorem counterpart_eq (hcounterpart : Counterpart origin entries entries' d d' x x') :
    counterpart origin d d' x = x' := by
  cases hcounterpart with
  | kept holds => rw [counterpart, if_pos holds]
  | named namesakes =>
      obtain ⟨e, e', hfresh, -⟩ := h.fresh namesakes
      rw [counterpart, if_neg hfresh.new]
      have hcompanion := hfresh.companion
      split
      · next hkind => rw [hkind] at hcompanion; cases hcompanion
      · next hkind => rw [hkind] at hcompanion; cases hcompanion
      · exact h.namesake_eq namesakes
  | sort namesakes kind kind' =>
      obtain ⟨e, e', hfresh, -⟩ := h.fresh namesakes
      have hnew := h.left.new_companions h.intact hfresh.new kind
      obtain ⟨size, hsort⟩ := SymbolKind.unsized_eq_userSort.1
        (h.left.intact.formed.families.data kind).sort_kind
      rw [counterpart, if_neg hnew.1, hsort]
      dsimp only
      rw [h.namesake_eq namesakes, kind']
      rfl
  | typeConstant namesakes kind kind' =>
      obtain ⟨e, e', hfresh, -⟩ := h.fresh namesakes
      have hnew := h.left.new_companions h.intact hfresh.new kind
      have hfamilies := h.left.intact.formed.families
      rw [counterpart, if_neg hnew.2, (hfamilies.data kind).constant_kind]
      dsimp only
      rw [hfamilies.dataOf?_sort kind, Option.elim_some, h.namesake_eq namesakes, kind']
      rfl

theorem counterpart_of_holds (hx : d.table.Holds x) :
    Counterpart origin entries entries' d d' x (counterpart origin d d' x) := by
  obtain ⟨x', hx'⟩ := h.exists_counterpart hx
  rwa [h.counterpart_eq hx']

theorem holds_of_counterpart (hcounterpart : Counterpart origin entries entries' d d' x x') :
    d.table.Holds x := by
  cases hcounterpart with
  | kept holds => exact h.left.added.later.holds holds
  | named namesakes =>
      obtain ⟨e, e', hfresh, -⟩ := h.fresh namesakes
      exact hfresh.holds
  | sort namesakes kind kind' => exact (h.left.intact.formed.families.data kind).holds_sort
  | typeConstant namesakes kind kind' =>
      exact (h.left.intact.formed.families.data kind).holds_constant

theorem holds_counterpart (hx : d.table.Holds x) : d'.table.Holds (counterpart origin d d' x) :=
  h.symm.holds_of_counterpart (h.counterpart_of_holds hx).symm

/-- The counterpart of the counterpart is the symbol itself. -/
theorem counterpart_counterpart (hx : d.table.Holds x) :
    counterpart origin d' d (counterpart origin d d' x) = x :=
  h.symm.counterpart_eq (h.counterpart_of_holds hx).symm

/-! ## What counterparts have in common -/

theorem symbolAt_of_kept (holds : origin.table.Holds x) :
    d'.table.symbolAt x = d.table.symbolAt x := by
  rw [h.left.added.same holds, h.right.added.same holds]

theorem relabel_of_kept (holds : origin.table.Holds x) :
    (d'.table.kindOf x).relabel (fun y => y) =
      (d.table.kindOf x).relabel (counterpart origin d d') := by
  have hfixed : ∀ {y}, origin.table.Holds y → counterpart origin d d' y = y := fun hy =>
    h.counterpart_eq (.kept hy)
  have hfamilies := h.intact.formed.families
  rw [h.right.kindOf_of_holds holds, h.left.kindOf_of_holds holds]
  cases hkind : origin.table.kindOf x with
  | userSort y size =>
      obtain ⟨shape, info, hdata, -⟩ := hfamilies.sort (s := x) (d := y) (by rw [hkind]; rfl)
      simp only [SymbolKind.relabel, hfixed (Table.holds_of_data hdata)]
  | data shape info =>
      have hfamily := hfamilies.data hkind
      simp only [SymbolKind.relabel, hfixed hfamily.holds_sort, hfixed hfamily.holds_constant]
  | userConstant constant =>
      cases constant with
      | type s =>
          obtain ⟨y, shape, info, hdata, rfl, -⟩ := hfamilies.type hkind
          simp only [SymbolKind.relabel, hfixed (hfamilies.data hdata).holds_sort]
      | _ => rfl
  | _ => rfl

theorem relabel_of_named (namesakes : Namesakes origin entries entries' d d' x x') :
    (d'.table.kindOf x').relabel (fun y => y) =
      (d.table.kindOf x).relabel (counterpart origin d d') := by
  obtain ⟨e, e', hfresh, hfresh', hmatches, -⟩ := h.fresh namesakes
  cases hdata : (d.table.kindOf x).isData with
  | true =>
      cases hkind : d.table.kindOf x with
      | data shape info =>
          obtain ⟨info', hkind', hlabels, hany⟩ := h.kindOf_namesake namesakes hkind
          rw [hkind', SymbolKind.relabel, SymbolKind.relabel,
            h.counterpart_eq (.sort namesakes hkind hkind'),
            h.counterpart_eq (.typeConstant namesakes hkind hkind'), ← hlabels, ← hany]
      | _ =>
          rw [hkind] at hdata
          cases hdata
  | false =>
      have houtline : (d'.table.kindOf x').outline = (d.table.kindOf x).outline := by
        rw [hfresh'.bears.kind, hmatches.kind, ← hfresh.bears.kind]
      have hdata' : (d'.table.kindOf x').isData = false := by
        rw [← SymbolKind.isData_outline, houtline, SymbolKind.isData_outline, hdata]
      rw [SymbolKind.relabel_eq_outline _ hfresh'.companion hdata',
        SymbolKind.relabel_eq_outline _ hfresh.companion hdata, houtline]

theorem relabel (hx : d.table.Holds x) :
    (d'.table.kindOf (counterpart origin d d' x)).relabel (fun y => y) =
      (d.table.kindOf x).relabel (counterpart origin d d') := by
  have hfamilies := h.left.intact.formed.families
  have hfamilies' := h.right.intact.formed.families
  have hcounterpart := h.counterpart_of_holds hx
  generalize counterpart origin d d' x = x' at hcounterpart
  cases hcounterpart with
  | kept holds => exact h.relabel_of_kept holds
  | named namesakes => exact h.relabel_of_named namesakes
  | sort namesakes kind kind' =>
      rw [← SymbolKind.relabel_unsized, ← SymbolKind.relabel_unsized (counterpart origin d d'),
        (hfamilies.data kind).sort_kind, (hfamilies'.data kind').sort_kind, SymbolKind.relabel,
        SymbolKind.relabel, h.counterpart_eq (.named namesakes)]
  | typeConstant namesakes kind kind' =>
      rw [(hfamilies.data kind).constant_kind, (hfamilies'.data kind').constant_kind,
        SymbolKind.relabel, SymbolKind.relabel, h.counterpart_eq (.sort namesakes kind kind')]

theorem arity (hcounterpart : Counterpart origin entries entries' d d' x x') :
    (d'.table.symbolAt x').arity = (d.table.symbolAt x).arity := by
  have hfamilies := h.left.intact.formed.families
  have hfamilies' := h.right.intact.formed.families
  cases hcounterpart with
  | kept holds => rw [h.symbolAt_of_kept holds]
  | named namesakes =>
      obtain ⟨e, e', hfresh, hfresh', hmatches, -⟩ := h.fresh namesakes
      rw [hfresh'.bears.arity, hmatches.arity, ← hfresh.bears.arity]
  | sort namesakes kind kind' =>
      rw [(hfamilies.data kind).sort_arity, (hfamilies'.data kind').sort_arity]
  | typeConstant namesakes kind kind' =>
      rw [(hfamilies.data kind).constant_arity, (hfamilies'.data kind').constant_arity]

theorem home (hcounterpart : Counterpart origin entries entries' d d' x x') :
    (d'.table.symbolAt x').home = (d.table.symbolAt x).home := by
  have hfamilies := h.left.intact.formed.families
  have hfamilies' := h.right.intact.formed.families
  have hroot : ∀ {y y'}, Namesakes origin entries entries' d d' y y' →
      (d'.table.symbolAt y').home = (d.table.symbolAt y).home := by
    intro y y' namesakes
    obtain ⟨e, e', hfresh, hfresh', -⟩ := h.fresh namesakes
    rw [hfresh.home, hfresh'.home]
  cases hcounterpart with
  | kept holds => rw [h.symbolAt_of_kept holds]
  | named namesakes => exact hroot namesakes
  | sort namesakes kind kind' =>
      rw [(hfamilies.data kind).sort_home, (hfamilies'.data kind').sort_home, hroot namesakes]
  | typeConstant namesakes kind kind' =>
      rw [(hfamilies.data kind).constant_home, (hfamilies'.data kind').constant_home,
        hroot namesakes]

/-- Counterparts go under one text. -/
theorem text (hcounterpart : Counterpart origin entries entries' d d' x x') :
    d'.names.text (d'.table.symbolAt x').name = d.names.text (d.table.symbolAt x).name := by
  have hfamilies := h.left.intact.formed.families
  have hfamilies' := h.right.intact.formed.families
  have hnamed : ∀ {y y'}, Namesakes origin entries entries' d d' y y' →
      d'.names.text (d'.table.symbolAt y').name = d.names.text (d.table.symbolAt y).name := by
    intro y y' namesakes
    obtain ⟨e, e', hfresh, hfresh', -, hname, -⟩ := h.fresh namesakes
    rw [hname, h.left.text hfresh.knows, h.right.text hfresh.knows]
  cases hcounterpart with
  | kept holds =>
      have hknows := h.intact.formed.families.knows holds
      rw [h.left.added.same holds, h.right.added.same holds, h.left.text hknows,
        h.right.text hknows]
  | named namesakes => exact hnamed namesakes
  | sort namesakes kind kind' =>
      have hempty := (hfamilies.named (hfamilies.data kind).holds_sort).2
        ⟨_, (hfamilies.data kind).sort_kind⟩
      have hempty' := (hfamilies'.named (hfamilies'.data kind').holds_sort).2
        ⟨_, (hfamilies'.data kind').sort_kind⟩
      rw [(h.left.intact.formed.proper.isEmpty_iff
          (hfamilies.knows (hfamilies.data kind).holds_sort)).1 hempty,
        (h.right.intact.formed.proper.isEmpty_iff
          (hfamilies'.knows (hfamilies'.data kind').holds_sort)).1 hempty']
  | typeConstant namesakes kind kind' =>
      rw [(hfamilies.data kind).constant_text, (hfamilies'.data kind').constant_text,
        hnamed namesakes]

/-- Counterparts are declared at one place, unless an enumeration declares them. -/
theorem location (hcounterpart : Counterpart origin entries entries' d d' x x')
    (hcompanion : (d.table.kindOf x).isCompanion = false)
    (hplain : d.table.kindOf x ≠ .userConstant .enumerated) :
    (d'.table.symbolAt x').location = (d.table.symbolAt x).location := by
  cases hcounterpart with
  | kept holds => rw [h.symbolAt_of_kept holds]
  | named namesakes =>
      obtain ⟨e, e', hfresh, hfresh', hmatches, -⟩ := h.fresh namesakes
      have htacit : e.tacit = false :=
        Bool.eq_false_iff.2 fun htacit => hplain (hfresh.bears.tacit htacit)
      rw [hfresh'.bears.location, hmatches.location htacit, ← hfresh.bears.location]
  | sort namesakes kind kind' =>
      obtain ⟨size, hsort⟩ := SymbolKind.unsized_eq_userSort.1
        (h.left.intact.formed.families.data kind).sort_kind
      rw [hsort] at hcompanion
      cases hcompanion
  | typeConstant namesakes kind kind' =>
      rw [(h.left.intact.formed.families.data kind).constant_kind] at hcompanion
      cases hcompanion

/-- Whether a symbol was there before can be told from its counterpart. -/
theorem holds_origin_iff (hcounterpart : Counterpart origin entries entries' d d' x x') :
    origin.table.Holds x' ↔ origin.table.Holds x := by
  cases hcounterpart with
  | kept holds => exact Iff.rfl
  | named namesakes =>
      obtain ⟨e, e', hfresh, hfresh', -⟩ := h.fresh namesakes
      exact iff_of_false hfresh'.new hfresh.new
  | sort namesakes kind kind' =>
      obtain ⟨e, e', hfresh, hfresh', -⟩ := h.fresh namesakes
      exact iff_of_false (h.right.new_companions h.intact hfresh'.new kind').1
        (h.left.new_companions h.intact hfresh.new kind).1
  | typeConstant namesakes kind kind' =>
      obtain ⟨e, e', hfresh, hfresh', -⟩ := h.fresh namesakes
      exact iff_of_false (h.right.new_companions h.intact hfresh'.new kind').2
        (h.left.new_companions h.intact hfresh.new kind).2

theorem symbolAt_of_holds (holds : origin.table.Holds x) :
    counterpart origin d d' x = x ∧ d'.table.symbolAt x = d.table.symbolAt x :=
  ⟨h.counterpart_eq (.kept holds), h.symbolAt_of_kept holds⟩

theorem origin_eq (hcounterpart : Counterpart origin entries entries' d d' x x') :
    (d'.table.symbolAt x').origin = (d.table.symbolAt x).origin := by
  have hx := h.holds_of_counterpart hcounterpart
  have hx' := h.symm.holds_of_counterpart hcounterpart.symm
  by_cases hold : origin.table.Holds x
  · have hsame := h.counterpart_eq hcounterpart
    rw [(h.symbolAt_of_holds hold).1] at hsame
    rw [← hsame, h.symbolAt_of_kept hold]
  · rw [h.left.added.origin hx hold,
      h.right.added.origin hx' fun hold' => hold ((h.holds_origin_iff hcounterpart).1 hold')]

theorem echoes : d.table.Echoes d'.table d.table.Holds (counterpart origin d d') where
  injective hx hy heq := by
    rw [← h.counterpart_counterpart hx, heq, h.counterpart_counterpart hy]
  kind := h.relabel
  arity hx := h.arity (h.counterpart_of_holds hx)
  sort _ hkind := (h.left.intact.formed.families.data hkind).holds_sort
  data _ hd := by
    obtain ⟨shape, info, hkind, -⟩ :=
      h.left.intact.formed.families.sort (Table.dataOf?_eq_some_iff.1 hd)
    exact Table.holds_of_data hkind

/-- A name that was known before stands for counterparts. -/
theorem symbol?_of_some {ns : NamespaceId} (hknows : origin.names.Knows name)
    (hx : (d.table.namespaceAt ns).symbol? name = some x) :
    (d'.table.namespaceAt ns).symbol? name = some (counterpart origin d d' x) := by
  obtain ⟨hholds, rfl, rfl, hnamed⟩ := h.left.intact.formed.arena.entry hx
  have hcounterpart := h.counterpart_of_holds hholds
  have htext := h.text hcounterpart
  have hregular := h.right.intact.formed.toRegular
  have hholds' := h.holds_counterpart hholds
  rw [h.left.text hknows, ← h.right.text hknows] at htext
  have hnamed' : (d'.table.symbolAt (counterpart origin d d' x)).name.isEmpty = false := by
    rw [hregular.proper.text_inj (hregular.families.knows hholds') (h.right.grown.knows hknows)
      htext]
    exact hnamed
  have hlisted := hregular.symbol?_of_text hholds' (h.right.grown.knows hknows) hnamed' htext
  rwa [h.home hcounterpart] at hlisted

theorem symbol? {ns : NamespaceId} (hknows : origin.names.Knows name) :
    (d'.table.namespaceAt ns).symbol? name =
      ((d.table.namespaceAt ns).symbol? name).map (counterpart origin d d') := by
  cases hx : (d.table.namespaceAt ns).symbol? name with
  | some x => exact h.symbol?_of_some hknows hx
  | none =>
      refine Option.eq_none_iff_forall_ne_some.2 fun x' hx' => ?_
      cases hx.symm.trans (h.symm.symbol?_of_some hknows hx')

theorem size_eq : d'.table.namespaces.size = d.table.namespaces.size :=
  h.right.entersRoot.size_eq.trans h.left.entersRoot.size_eq.symm

/-- What stands below the root was there before. -/
theorem holds_of_below {ns : NamespaceId} (hns : ns ≠ .root)
    (hx : (d.table.namespaceAt ns).symbol? name = some x) : origin.table.Holds x := by
  rw [h.left.entersRoot.below ns hns] at hx
  exact (h.intact.formed.arena.entry hx).1

theorem overlays : Table.Overlays d.names d'.names d.table d'.table d.table.Holds
    (counterpart origin d d') origin.names.Knows where
  toEchoes := h.echoes
  tree := h.left.intact.formed.tree
  size_eq := h.size_eq
  node_eq ns := (h.right.entersRoot.node_eq ns).trans (h.left.entersRoot.node_eq ns).symm
  symbol? := h.symbol?
  listed hx := (h.left.intact.formed.arena.entry hx).1
  below hns hx := by
    obtain ⟨hsame, hsymbol⟩ := h.symbolAt_of_holds (h.holds_of_below hns hx)
    rw [hsame, hsymbol]
  text hknows := (h.right.text hknows).trans (h.left.text hknows).symm

end Twins

end Draft

end ManySorted
