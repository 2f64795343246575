import ManySorted.Proofs.Draft.Rules
import ManySorted.Proofs.Sizing.Recursion

/-!
# Rules come from productive declarations, once each

Sizing adds the rules of a declaration when it finishes its sort.  Each sort of productive data of
the module lies in just one component of the graph of sizes, and no other sort lies in any, so the
rules are those of the productive data, one block for each (`Table.perm_subjects`).  A component is
sized after what it depends on, and so are the blocks ordered (`Table.Regular.before_of_trails`).
Contracts add their rules behind all of these (`checkModule_rules`).

## Strategy

* **One declaration.**  The rules of a declaration are told apart by their topics, and their topics
  are what the declaration demands of the facts (`Table.mem_topics_impliedRules`,
  `Table.nodup_topics_impliedRules`).
* **One component.**  Finishing a sort adds the rules of its data (`Draft.ends_finishSorts_rules`),
  and a component adds those of its sorts, cyclic or not (`Draft.ends_sizeComponent_rules`).
* **All components.**  What a node leads to is in its component or in one before it
  (`Table.exists_component_of_reaches`), and different sorts belong to different data
  (`Table.Regular.sort_unique`).  This gives the order of the blocks, and that no block comes twice
  (`Table.Regular.nodup_subjects`).
* **The run.**  Forms and names, of which rules are made, stay as they are while sizes are written
  (`Draft.Ruled`), and contracts come last (`Draft.ends_checkContracts_rules`).
-/

namespace ManySorted

open Relation (ReflTransGen TransGen)

/-- Whether a rule comes from a contract. -/
def RuleKind.isContract : RuleKind → Bool
  | contract _ => true
  | _ => false

/-- What is demanded of a map, with the number of its domain positions. -/
def SymbolKind.demands? : SymbolKind → Option (MapFlags × Nat)
  | data (.map kind isPartial domainArity) _ => some (.ofKind kind isPartial, domainArity)
  | _ => none

/-- The kinds of the rules that the demands of a map make for. -/
def MapFlags.ruleKinds (flags : MapFlags) : List RuleKind :=
  .functionality :: ((if flags.injective then [.injectivity] else []) ++
    (if flags.total then [.totality] else []) ++
      if flags.surjective then [.inverseTotality] else [])

/-! ## The rules of one declaration -/

/-- What a rule is about: its kind, and its position if it has one. -/
def Rule.topic (r : Rule) : RuleKind × Option Nat := (r.kind, r.position)

theorem Rule.subject_of_mem_ofMap {name : String} {d : SymbolId} {flags : MapFlags}
    {domain codomain : Nat} {r : Rule} (h : r ∈ Rule.ofMap name d flags domain codomain) :
    r.subject = d := by
  simp only [Rule.ofMap, List.mem_append, List.mem_ite_nil_right, List.mem_singleton] at h
  rcases h with ((rfl | ⟨-, rfl⟩) | ⟨-, rfl⟩) | ⟨-, rfl⟩ <;> rfl

theorem Rule.topics_ofMap (name : String) (d : SymbolId) (flags : MapFlags)
    (domain codomain : Nat) :
    (Rule.ofMap name d flags domain codomain).map Rule.topic =
      flags.ruleKinds.map (·, none) := by
  rw [Rule.ofMap, MapFlags.ruleKinds]
  cases flags.injective <;> cases flags.total <;> cases flags.surjective <;> rfl

namespace Table

variable {names : Interner} {t t' : Table} {d d' s : SymbolId} {kind : RuleKind}
  {position : Option Nat}

/-- What the declaration of a constructor or map demands of the facts: a map is functional and, by
its flags, injective, total and surjective, and what stands at a position that accepts a sort is a
fact, unless the position is marked `any`. -/
inductive Obliges (t : Table) (d : SymbolId) : RuleKind → Option Nat → Prop
  | functionality {flags domainArity} (map : (t.kindOf d).demands? = some (flags, domainArity)) :
      Obliges t d .functionality none
  | injectivity {flags domainArity} (map : (t.kindOf d).demands? = some (flags, domainArity))
      (injective : flags.injective = true) : Obliges t d .injectivity none
  | totality {flags domainArity} (map : (t.kindOf d).demands? = some (flags, domainArity))
      (total : flags.total = true) : Obliges t d .totality none
  | inverseTotality {flags domainArity} (map : (t.kindOf d).demands? = some (flags, domainArity))
      (surjective : flags.surjective = true) : Obliges t d .inverseTotality none
  | relational {i v s} (unmarked : (t.kindOf d).isAny i = false)
      (accepted : (t.symbolAt d).accepted? i = some v) (sort : s ∈ v.sorts) :
      Obliges t d .relational (some i)

theorem mem_relationalPositions {x : Symbol} {i : Nat} : i ∈ x.relationalPositions ↔
    x.kind.isAny i = false ∧ ∃ v, x.accepted? i = some v ∧ ∃ s, s ∈ v.sorts := by
  have hsorts : ∀ v : AcceptedValues, v.sorts.isEmpty = false ↔ ∃ s, s ∈ v.sorts := fun v => by
    rw [OrderedSet.isEmpty, List.isEmpty_eq_false_iff_exists_mem]
    rfl
  unfold Symbol.relationalPositions Symbol.accepted?
  cases x.canonical with
  | none => simp
  | some form =>
      simp only [List.mem_filter, List.mem_range, Bool.and_eq_true, Bool.not_eq_true',
        Option.any_eq_true, hsorts, Option.bind_some]
      refine ⟨fun h => h.2, fun h => ⟨?_, h⟩⟩
      obtain ⟨-, v, hv, -⟩ := h
      exact (List.getElem?_eq_some_iff.1 hv).1

theorem impliedRules_eq (t : Table) (names : Interner) (d : SymbolId) : t.impliedRules names d =
    ((t.kindOf d).demands?.toList.flatMap fun p => Rule.ofMap (t.qualifiedName names d) d p.1 p.2
      ((t.symbolAt d).arity - p.2)) ++
    (t.symbolAt d).relationalPositions.map
      (Rule.ofPosition (t.qualifiedName names d) d (t.symbolAt d).arity) := by
  rw [impliedRules, kindOf]
  congr 1
  cases (t.symbolAt d).kind with
  | data shape info => cases shape <;> simp [SymbolKind.demands?]
  | _ => rfl

/-- The rules of a declaration are about it. -/
theorem subject_of_mem_impliedRules {r : Rule} (h : r ∈ t.impliedRules names d) :
    r.subject = d := by
  rw [impliedRules_eq, List.mem_append, List.mem_flatMap, List.mem_map] at h
  rcases h with ⟨p, -, hr⟩ | ⟨i, -, rfl⟩
  · exact Rule.subject_of_mem_ofMap hr
  · rfl

/-- There is one rule for each demand of a declaration, and no other. -/
theorem mem_topics_impliedRules : (kind, position) ∈ (t.impliedRules names d).map Rule.topic ↔
    t.Obliges d kind position := by
  rw [impliedRules_eq, List.map_append, List.mem_append, List.map_flatMap, List.mem_flatMap,
    List.map_map, List.mem_map]
  constructor
  · rintro (⟨⟨flags, domainArity⟩, hmap, hr⟩ | ⟨i, hi, heq⟩)
    · rw [Option.mem_toList] at hmap
      rw [Rule.topics_ofMap, List.mem_map] at hr
      obtain ⟨_, hkind, heq⟩ := hr
      cases heq
      simp only [MapFlags.ruleKinds, List.mem_cons, List.mem_append, List.mem_ite_nil_right,
        List.not_mem_nil, or_false] at hkind
      rcases hkind with rfl | (⟨h, rfl⟩ | ⟨h, rfl⟩) | ⟨h, rfl⟩
      · exact .functionality hmap
      · exact .injectivity hmap h
      · exact .totality hmap h
      · exact .inverseTotality hmap h
    · cases heq
      obtain ⟨hmark, v, hv, s, hs⟩ := mem_relationalPositions.1 hi
      exact .relational hmark hv hs
  · intro h
    cases h with
    | functionality map =>
        exact .inl ⟨_, Option.mem_toList.2 map, by simp [Rule.topics_ofMap, MapFlags.ruleKinds]⟩
    | injectivity map h | totality map h | inverseTotality map h =>
        exact .inl ⟨_, Option.mem_toList.2 map, by simp [Rule.topics_ofMap, MapFlags.ruleKinds, h]⟩
    | @relational i v s hmark hv hs =>
        exact .inr ⟨i, mem_relationalPositions.2 ⟨hmark, v, hv, s, hs⟩, rfl⟩

/-- No demand is made twice. -/
theorem nodup_topics_impliedRules (t : Table) (names : Interner) (d : SymbolId) :
    ((t.impliedRules names d).map Rule.topic).Nodup := by
  have hpositions : (t.symbolAt d).relationalPositions.Nodup := by
    unfold Symbol.relationalPositions
    split
    · exact List.nodup_nil
    · exact List.nodup_range.filter _
  rw [impliedRules_eq, List.map_append, List.map_map, List.map_flatMap]
  refine List.nodup_append.2 ⟨?_, hpositions.map fun i j h => ?_, fun a ha b hb => ?_⟩
  · cases (t.kindOf d).demands? with
    | none => exact List.nodup_nil
    | some p =>
        rw [Option.toList_some, List.flatMap_singleton, Rule.topics_ofMap, MapFlags.ruleKinds]
        cases p.1.injective <;> cases p.1.total <;> cases p.1.surjective <;> decide
  · exact Option.some.inj (congrArg Prod.snd h)
  · -- only rules about positions have one
    rintro rfl
    obtain ⟨p, -, hp⟩ := List.mem_flatMap.1 ha
    rw [Rule.topics_ofMap] at hp
    obtain ⟨_, -, rfl⟩ := List.mem_map.1 hp
    obtain ⟨i, -, heq⟩ := List.mem_map.1 hb
    cases heq

/-- Rules are made of forms and names. -/
theorem Alike.impliedRules (h : t.Alike t')
    (hcanonical : ∀ x, (t'.symbolAt x).canonical = (t.symbolAt x).canonical) :
    t'.impliedRules = t.impliedRules := by
  have hdemands : ∀ kind : SymbolKind, kind.unsized.demands? = kind.demands? := by
    intro kind
    cases kind <;> rfl
  have hany : ∀ kind : SymbolKind, kind.unsized.isAny = kind.isAny := by
    intro kind
    cases kind <;> rfl
  have hpositions : ∀ x, (t'.symbolAt x).relationalPositions =
      (t.symbolAt x).relationalPositions := by
    intro x
    have hmarks := congrArg SymbolKind.isAny (h.unsized x)
    rw [hany, hany] at hmarks
    simp only [Symbol.relationalPositions, hcanonical,
      show (t'.symbolAt x).kind.isAny = (t.symbolAt x).kind.isAny from hmarks]
  funext names d
  have hmap := congrArg SymbolKind.demands? (h.unsized d)
  rw [hdemands, hdemands] at hmap
  rw [impliedRules_eq, impliedRules_eq, hmap, hpositions, h.arity, h.qualifiedName]

/-! ## The rules of a sort that is finished -/

/-- The rules of the data symbol of a sort. -/
def sortRules (t : Table) (names : Interner) (s : SymbolId) : List Rule :=
  (t.dataOf? s).toList.flatMap (t.impliedRules names)

/-- The rules that there are already make no difference. -/
theorem impliedRules_rules (t : Table) (rules : List Rule) :
    ({ t with rules } : Table).impliedRules = t.impliedRules :=
  Alike.impliedRules (.of_eq rfl rfl rfl) fun _ => rfl

theorem rules_finishSort {sizes : Sizes} (hs : t.Holds s)
    (h : t.finishSort names sizes s = .ok t') : t'.rules = t.rules ++ t.sortRules names s := by
  have hwrites := writesSize_finishSort hs h
  have himplied := hwrites.toAlike.impliedRules hwrites.canonical
  have hdata := hwrites.toAlike.dataOf? s
  obtain ⟨t₁, hsize, h⟩ := except_bind_eq_ok.1 h
  rw [← rules_of_notes (stable_notes.setSize hsize), sortRules, ← hdata, ← himplied]
  dsimp only at h
  split at h
  · next hnone =>
      cases h
      rw [hnone]
      exact (List.append_nil _).symm
  · next data hsome =>
      have hreported := rules_of_notes (t₁.notes_reportAll (t₁.totalityReports names sizes data s))
      have hsame := (t₁.reportAll_eq (t₁.totalityReports names sizes data s)).2.2
      generalize t₁.reportAll (t₁.totalityReports names sizes data s) = t₂ at h hreported hsame
      cases h
      have hsome' : t₂.dataOf? s = some data := by
        rw [← hsome, dataOf?, dataOf?, kindOf, kindOf, symbolAt, symbolAt, hsame]
      change t₂.rules ++ t₂.impliedRules names data = _ ++ (t₂.dataOf? s).toList.flatMap _
      rw [hsome', Option.toList_some, List.flatMap_singleton, hreported]
      exact congrArg _ (congrFun (congrFun (t₂.impliedRules_rules _) names) data).symm

/-! ## The order of the blocks -/

/-- The sort of the first symbol depends on that of the second, which does not depend on it. -/
def Trails (t : Table) (d d' : SymbolId) : Prop :=
  ∃ s s', t.dataOf? s = some d ∧ t.dataOf? s' = some d' ∧ d' ∈ t.productiveData ∧
    TransGen t.DependsOn s s' ∧ ¬ TransGen t.DependsOn s' s

/-- The data whose rules a component contributes. -/
def componentData (t : Table) (c : List Nat) : List SymbolId :=
  (componentSorts t.ownGraph c).filterMap t.dataOf?

/-- The data whose rules sizing adds, in that order. -/
def subjects (t : Table) : List SymbolId := t.ownGraph.components.flatMap t.componentData

theorem subjects_eq (t : Table) : t.subjects =
    (t.ownGraph.components.flatMap (componentSorts t.ownGraph)).filterMap t.dataOf? := by
  rw [List.filterMap_flatMap]
  rfl

theorem flatMap_sortRules (t : Table) (names : Interner) :
    (t.ownGraph.components.flatMap (componentSorts t.ownGraph)).flatMap (t.sortRules names) =
      t.subjects.flatMap (t.impliedRules names) := by
  rw [subjects_eq]
  induction t.ownGraph.components.flatMap (componentSorts t.ownGraph) with
  | nil => rfl
  | cons s rest ih =>
      rw [List.flatMap_cons, ih, List.filterMap_cons, sortRules]
      cases t.dataOf? s with
      | none => rfl
      | some d => rw [Option.toList_some, List.flatMap_singleton, List.flatMap_cons]

/-- What a node of a component leads to is in the component or in one before it. -/
theorem exists_component_of_reaches {g : DepGraph SizeNode} (hg : g.Proper)
    {before after : List (List Nat)} {c : List Nat} {n m : SizeNode}
    (hcomponents : g.components = before ++ c :: after) (hn : n ∈ componentNodes g c)
    (hreach : ReflTransGen g.Leads n m) :
    m ∈ componentNodes g c ∨ ∃ c' ∈ before, m ∈ componentNodes g c' := by
  induction hreach with
  | refl => exact .inl hn
  | tail _ hleads ih =>
      rcases ih with hm | ⟨c', hc', hm⟩
      · exact exists_sized_of_leads hg hcomponents hm hleads
      · obtain ⟨first, second, rfl⟩ := List.append_of_mem hc'
        rw [List.append_assoc, List.cons_append] at hcomponents
        rcases exists_sized_of_leads hg hcomponents hm hleads with hm | ⟨c'', hc'', hm⟩
        · exact .inr ⟨c', hc', hm⟩
        · exact .inr ⟨c'', List.mem_append_left _ hc'', hm⟩

/-- The nodes of one component lead to each other. -/
theorem reaches_of_mem_component {g : DepGraph SizeNode} (hg : g.Proper) {c : List Nat}
    (hc : c ∈ g.components) {n m : SizeNode} (hn : n ∈ componentNodes g c)
    (hm : m ∈ componentNodes g c) : ReflTransGen g.Leads n m := by
  obtain ⟨i, hi, hni⟩ := mem_componentNodes.1 hn
  obtain ⟨j, hj, hmj⟩ := mem_componentNodes.1 hm
  exact (hg.reaches_iff hni hmj).1 ((DepGraph.mem_component_iff hg.inRange hc hi).2.1 hj).1

theorem mem_componentData {c : List Nat} : d ∈ t.componentData c ↔
    ∃ s, .sort s ∈ componentNodes t.ownGraph c ∧ t.dataOf? s = some d := by
  simp only [componentData, List.mem_filterMap, mem_componentSorts]

section

variable (ht : t.Regular names)
include ht

/-- Different sorts belong to different data. -/
theorem Regular.sort_unique {s' : SymbolId} (hs : t.dataOf? s = some d)
    (hs' : t.dataOf? s' = some d) :
    s = s' := by
  obtain ⟨_, info, hkind, rfl⟩ := ht.families.sort (dataOf?_eq_some_iff.1 hs)
  obtain ⟨_, info', hkind', rfl⟩ := ht.families.sort (dataOf?_eq_some_iff.1 hs')
  cases hkind.symm.trans hkind'
  rfl

theorem Regular.nodup_subjects : t.subjects.Nodup := by
  rw [subjects_eq]
  exact (nodup_componentSorts t.proper_ownGraph).filterMap fun s s' d hs hs' =>
    ht.sort_unique hs hs'

theorem Regular.mem_subjects : d ∈ t.subjects ↔ d ∈ t.productiveData := by
  simp only [subjects, List.mem_flatMap, mem_componentData]
  constructor
  · rintro ⟨c, -, s, hs, hd⟩
    obtain ⟨i, -, hi⟩ := mem_componentNodes.1 hs
    obtain ⟨d', hd', hs'⟩ := (has_sort_iff ht).1 ⟨i, hi⟩
    cases hd.symm.trans hs'
    exact hd'
  · intro hd
    obtain ⟨shape, info, hkind⟩ := exists_data_of_isData (ht.arena.isData_of_productive hd)
    have hs := ht.families.dataOf?_sort hkind
    obtain ⟨before, c, after, hcomponents, hc⟩ :=
      exists_component_of_has t.proper_ownGraph ((has_sort_iff ht).2 ⟨d, hd, hs⟩)
    exact ⟨c, hcomponents ▸ List.mem_append_right _ List.mem_cons_self, info.sort, hc, hs⟩

/-- Sizing adds the rules of each productive symbol of the module once. -/
theorem Regular.perm_subjects : t.subjects.Perm t.productiveData :=
  (List.perm_ext_iff_of_nodup ht.nodup_subjects ht.arena.nodup_productiveData).2 fun _ =>
    ht.mem_subjects

/-- The rules of a symbol come after those of what it depends on, unless that depends on it. -/
theorem Regular.before_of_trails {before after : List SymbolId}
    (hsubjects : t.subjects = before ++ d :: after) (h : t.Trails d d') : d' ∈ before := by
  obtain ⟨s, s', hs, hs', hd', hthere, hback⟩ := h
  have hnodup := ht.nodup_subjects
  have hd : d ∈ t.subjects := hsubjects ▸ List.mem_append_right _ List.mem_cons_self
  obtain ⟨c, hc, hdc⟩ := List.mem_flatMap.1 hd
  obtain ⟨first, second, hcomponents⟩ := List.append_of_mem hc
  obtain ⟨s₁, hn, hs₁⟩ := mem_componentData.1 hdc
  obtain rfl := ht.sort_unique hs₁ hs
  -- the sort of the other symbol is sized in a component before this one
  have hreach := ht.reaches_iff.1 hthere.to_reflTransGen
  have hfirst : d' ∈ first.flatMap t.componentData := by
    rcases exists_component_of_reaches t.proper_ownGraph hcomponents hn hreach with hm |
      ⟨c', hc', hm⟩
    · have hreturn := ht.reaches_iff.2 (reaches_of_mem_component t.proper_ownGraph hc hm hn)
      rcases Relation.reflTransGen_iff_eq_or_transGen.1 hreturn with rfl | hreturn
      · exact absurd hthere hback
      · exact absurd hreturn hback
    · exact List.mem_flatMap.2 ⟨c', hc', mem_componentData.2 ⟨s', hm, hs'⟩⟩
  rw [subjects, hcomponents, List.flatMap_append, List.flatMap_cons] at hnodup hsubjects
  rcases List.append_eq_append_iff.1 hsubjects with ⟨more, rfl, -⟩ | ⟨more, hbefore, hrest⟩
  · exact List.mem_append_left _ hfirst
  · cases more with
    | nil => rwa [hbefore, List.append_nil] at hfirst
    | cons x more =>
        -- otherwise the symbol itself would belong to a component before its own
        cases hrest
        have hmem : d ∈ first.flatMap t.componentData :=
          hbefore ▸ List.mem_append_right _ List.mem_cons_self
        exact absurd rfl ((List.nodup_append.1 hnodup).2.2 d hmem d (List.mem_append_left _ hdc))

end

end Table

/-! ## The rules of a run -/

namespace Draft

variable {base d : Draft} {g : DepGraph SizeNode} {m : Module} {origin : Table} {rules : List Rule}

/-- Sizes were written and rules added; nothing that rules are made of has changed. -/
structure Ruled (base : Draft) (rules : List Rule) (d : Draft) : Prop where
  names_eq : d.names = base.names
  alike : base.table.Alike d.table
  canonical : ∀ x, (d.table.symbolAt x).canonical = (base.table.symbolAt x).canonical
  rules_eq : d.table.rules = rules

theorem Ruled.reported (h : Ruled base rules d) (rs : List Report) :
    Ruled base rules { d with table := d.table.reportAll rs } := by
  obtain ⟨hid, hnamespaces, hsymbols⟩ := d.table.reportAll_eq rs
  refine ⟨h.names_eq, h.alike.trans (.of_eq hid hnamespaces hsymbols), fun x => ?_,
    (Table.rules_of_notes (d.table.notes_reportAll rs)).trans h.rules_eq⟩
  change ((d.table.reportAll rs).symbolAt x).canonical = _
  rw [Table.symbolAt, hsymbols]
  exact h.canonical x

theorem Ruled.sortRules (h : Ruled base rules d) : d.table.sortRules = base.table.sortRules := by
  funext names s
  rw [Table.sortRules, Table.sortRules, h.alike.dataOf?, h.alike.impliedRules h.canonical]

theorem ends_finishSorts_rules {sorts : List SymbolId} {sizes : Sizes}
    (hholds : ∀ s ∈ sorts, base.table.Holds s) :
    Ends (Ruled base rules)
      (sorts.forM fun sort => tryModifyTable (·.finishSort base.names sizes sort))
      fun _ => Ruled base (rules ++ sorts.flatMap (base.table.sortRules base.names)) := by
  refine (ends_forM (motive := fun done =>
    Ruled base (rules ++ done.flatMap (base.table.sortRules base.names)))
    fun done s rest hall => ends_tryModifyTable fun d table hd hfinish => ?_).imp
      (fun d hd => ?_) fun _ _ hd => hd
  · have hs : d.table.Holds s := (hd.alike.holds s).2 (hholds s (hall ▸ by simp))
    have hwrites := Table.writesSize_finishSort hs hfinish
    refine ⟨hd.names_eq, hd.alike.trans hwrites.toAlike,
      fun x => (hwrites.canonical x).trans (hd.canonical x), ?_⟩
    change table.rules = _
    rw [Table.rules_finishSort hs hfinish, hd.rules_eq, hd.sortRules, List.flatMap_append,
      List.flatMap_singleton, List.append_assoc]
  · rwa [List.flatMap_nil, List.append_nil]

/-- A component adds the rules of its sorts, whether it is cyclic or not. -/
theorem ends_sizeComponent_rules (hg : Sizable base g) (sizes : Sizes) (component : List Nat) :
    Ends (Ruled base rules) (sizeComponent g sizes component) fun _ => Ruled base
      (rules ++ (Table.componentSorts g component).flatMap (base.table.sortRules base.names)) := by
  have hholds : ∀ s ∈ Table.componentSorts g component, base.table.Holds s := by
    intro s hs
    obtain ⟨i, _, hi⟩ := List.mem_filterMap.1 (Table.mem_componentSorts.1 hs)
    exact (hg.sort hi).1.holds
  refine (ends_tick fun _ _ hd => { hd with }).bind fun _ =>
    ends_getNames_bind fun names => ends_getTable_bind fun t => ?_
  rintro d sizes' d' ⟨⟨hd, rfl⟩, rfl⟩ hrun
  rw [hd.names_eq] at hrun
  have hfinish : Ends (Ruled base rules) (do
      (Table.componentSorts g component).forM fun sort => tryModifyTable
        (·.finishSort base.names (d.table.componentSizes g sizes component ++ sizes) sort)
      return d.table.componentSizes g sizes component ++ sizes) fun _ => Ruled base
        (rules ++ (Table.componentSorts g component).flatMap (base.table.sortRules base.names)) :=
    (ends_finishSorts_rules hholds).bind fun _ => ends_pure fun _ hd => hd
  refine Ends.ite (fun _ => ?_) (fun _ => hfinish) d sizes' d' hd hrun
  exact (ends_modifyTable fun _ hd => hd.reported _).bind fun _ => hfinish

/-- Contracts add rules of their own. -/
theorem ends_checkContracts_rules (m : Module) (rules : List Rule) :
    Ends (fun d => d.table.rules = rules) (m.contracts.forM (checkContract m)) fun _ d =>
      ∃ more, d.table.rules = rules ++ more ∧ ∀ r ∈ more, r.kind.isContract = true := by
  have hcontract : ∀ (t : Table) (names : Interner) (contract : ContractDecl),
      ∀ r ∈ (t.checkContract names m contract).rules, r.kind.isContract = true := by
    intro t names contract r hr
    unfold Table.checkContract Table.checkCardinality Table.checkConditions at hr
    grind [RuleKind.isContract]
  refine (ends_forM (motive := fun _ d => ∃ more, d.table.rules = rules ++ more ∧
    ∀ r ∈ more, r.kind.isContract = true) fun _ contract _ _ =>
      (ends_tick fun _ _ hd => hd).bind fun _ => ends_modify ?_).imp
        (fun d hd => ⟨[], by rw [hd, List.append_nil], fun _ hr => absurd hr List.not_mem_nil⟩)
          fun _ _ hd => hd
  rintro d ⟨more, hrules, hmore⟩
  refine ⟨more ++ (d.table.checkContract d.names m contract).rules, ?_, fun r hr => ?_⟩
  · change (d.table.reportAll _).rules ++ _ = _
    rw [Table.rules_of_notes (Table.notes_reportAll ..), hrules, List.append_assoc]
  · exact (List.mem_append.1 hr).elim (hmore r) (hcontract _ _ contract r)

/-- What judging adds to the rules: first those of productive data, then those of contracts. -/
theorem rules_of_judge (h : Declared m origin base) (hunsized : base.Unsized)
    (hrun : judge m base = .ok () d) : ∃ more,
      d.table.rules = base.table.rules ++
        base.table.subjects.flatMap (base.table.impliedRules base.names) ++ more ∧
      ∀ r ∈ more, r.kind.isContract = true := by
  obtain ⟨_, d₁, hproductive, hrun⟩ := bind_eq_ok.1 hrun
  obtain ⟨_, d₂, hsize, hcheck⟩ := bind_eq_ok.1 hrun
  obtain ⟨rfl, hnames, htable⟩ := (safe_checkProductivity h.intact).ok ⟨rfl, rfl⟩ hproductive
  have hstart : Ruled base base.table.rules d₁ := by
    have hreported : Ruled base base.table.rules
        { base with table := base.table.reportAll base.unproductiveReports } :=
      Ruled.reported ⟨rfl, .refl _, fun _ => rfl, rfl⟩ _
    refine ⟨hnames, ?_, ?_, ?_⟩
    · exact htable ▸ hreported.alike
    · exact htable ▸ hreported.canonical
    · exact htable ▸ hreported.rules_eq
  have hgraph : d₁.table.sizeGraph base.table.productiveData = base.table.ownGraph :=
    congrFun (Table.sizeGraph_congr
      (htable ▸ (base.table.reportAll_eq base.unproductiveReports).2.2)) _
  rw [sizeData, getTable_bind, hgraph] at hsize
  have hfold := ends_foldlM (motive := fun done _ => Ruled base (base.table.rules ++
      (done.flatMap (Table.componentSorts base.table.ownGraph)).flatMap
        (base.table.sortRules base.names)))
    (fun done sizes component rest _ => by
      rw [List.flatMap_append, List.flatMap_singleton, List.flatMap_append, ← List.append_assoc]
      exact ends_sizeComponent_rules (h.sizable hunsized) sizes component)
    (l := base.table.ownGraph.components) ([] : Sizes)
  have hsized := hfold.discard (R := fun _ d => d.table.rules = base.table.rules ++
    base.table.subjects.flatMap (base.table.impliedRules base.names))
    (fun _ _ hd => by rw [hd.rules_eq, Table.flatMap_sortRules]) d₁ () d₂
      (by rwa [List.flatMap_nil, List.flatMap_nil, List.append_nil]) hsize
  exact ends_checkContracts_rules m _ d₂ () d hsized hcheck

end Draft

/-! ## The rules of a check -/

theorem Table.SizesWritten.subjects {t t' : Table} (h : t.SizesWritten t') :
    t'.subjects = t.subjects := by
  have hdata : t'.componentData = t.componentData := by
    funext c
    rw [Table.componentData, Table.componentData, h.ownGraph, funext h.dataOf?]
  rw [Table.subjects, Table.subjects, h.ownGraph, hdata]

section

variable {names names' : Interner} {tables : List Table} {id : TableId} {library : Library}
  {config : CheckConfig} {m : Module} {out : CheckOutput}

/-- Rules are synthesized exactly once: before those of contracts there are just the rules implied
by the productive data of the module, in one block for each, with one rule for each demand of its
declaration.  What is imported, failed or not productive has none.  The block of a symbol comes
after that of every symbol that it depends on, unless that depends on it. -/
theorem checkModule_rules (h : Session names tables)
    (held : ∀ entry ∈ library.tables, entry.2 ∈ tables)
    (checked : checkModule names id library config m = (names', .ok out))
    (uncancelled : out.cancelled = false) :
    ∃ (subjects : List SymbolId) (contracts : List Rule),
      out.table.rules = subjects.flatMap (out.table.impliedRules names') ++ contracts ∧
      subjects.Perm out.table.productiveData ∧
      (∀ r ∈ contracts, r.kind.isContract = true) ∧
      (∀ d ∈ subjects, (out.table.kindOf d).isData = true ∧
        (out.table.symbolAt d).isImported = false ∧ (out.table.symbolAt d).failed = false ∧
        (∀ r ∈ out.table.impliedRules names' d, r.subject = d) ∧
        ((out.table.impliedRules names' d).map Rule.topic).Nodup ∧
        ∀ kind position, (kind, position) ∈ (out.table.impliedRules names' d).map Rule.topic ↔
          out.table.Obliges d kind position) ∧
      ∀ before d after, subjects = before ++ d :: after →
        ∀ d', out.table.Trails d d' → d' ∈ before := by
  have hregular := (h.intact_of_check held checked).formed.toRegular
  obtain ⟨d, hrun, rfl, -⟩ := checkModule_uncancelled checked uncancelled
  rw [checkModule_of_ok hrun] at checked
  cases checked
  obtain ⟨imported, base, hstaged⟩ := h.staged held hrun
  have hwritten := (Draft.judged_of_judge hstaged.declared hstaged.unsized hstaged.judges).written
  obtain ⟨contracts, hrules, hcontracts⟩ :=
    Draft.rules_of_judge hstaged.declared hstaged.unsized hstaged.judges
  rw [Draft.rules_of_declared hstaged.imports hstaged.declares, List.nil_append] at hrules
  have hout : base.table.SizesWritten { d.table with
      validity := if d.table.validity.isPending then .decided true else d.table.validity } :=
    hwritten.trans (.of_eq rfl rfl rfl)
  refine ⟨_, contracts, ?_, hregular.perm_subjects, hcontracts, fun x hx => ?_,
    fun before x after hsubjects x' => hregular.before_of_trails hsubjects⟩
  · rw [hout.subjects, hout.toAlike.impliedRules hout.canonical, hstaged.sized.names_eq]
    exact hrules
  · have hown := (Table.mem_productiveData.1 (hregular.mem_subjects.1 hx)).1
    obtain ⟨howns, hdata, hfailed⟩ := hregular.arena.mem_ownData.1 hown
    exact ⟨hdata, (Bool.or_eq_false_iff.1 howns.unsettled).1, hfailed,
      fun _ => Table.subject_of_mem_impliedRules, Table.nodup_topics_impliedRules _ _ _,
      fun _ _ => Table.mem_topics_impliedRules⟩

end

namespace Layered

/-- The names of the module `D`, of its constructors `Top`, `Mid` and `Low`, of its map `Pair` and
of a type that fails. -/
def names : Interner := internAll ["D", "Top", "Mid", "Low", "Pair", "Lost", "Missing"]

def typed (name : Nat) (any : Bool) : Field := { type := [.named { segments := [⟨name⟩] }], any }

/-- `Top` takes `Mid`, which takes `Low`, and `Pair` is a total bijection whose domain is marked
`any`.  `Lost` takes a type that is not there. -/
def module : Module where
  kind := .domain
  name := ⟨28⟩
  file := ⟨0⟩
  types :=
    [⟨⟨29⟩, {}, .constructor true [typed 30 false]⟩,
     ⟨⟨32⟩, {}, .map .bijection false [typed 31 true] [typed 31 false]⟩,
     ⟨⟨33⟩, {}, .constructor true [typed 34 false]⟩,
     ⟨⟨30⟩, {}, .constructor true [typed 31 false]⟩,
     ⟨⟨31⟩, {}, .constructor true [{ type := [.enumeration [.range 0 1 {}] {}] }]⟩]
  contracts := [⟨.requires, .cardinality .some { segments := [⟨29⟩] }, {}⟩]

def result : Interner × Except Fault CheckOutput := checkModule names ⟨0⟩ (.of []) {} module

/-- The rules of `Mid`, `Top` and `Pair`, and that of the contract about `Top`. -/
def topics : List (SymbolId × RuleKind × Option Nat) :=
  [(⟨30⟩, .relational, some 0), (⟨21⟩, .relational, some 0), (⟨24⟩, .functionality, none),
   (⟨24⟩, .injectivity, none), (⟨24⟩, .totality, none), (⟨24⟩, .inverseTotality, none),
   (⟨24⟩, .relational, some 1), (⟨21⟩, .contract .requires, none)]

/-- Whether a check is not cancelled, finds `Top`, `Pair`, `Mid` and `Low` productive and introduces
just those rules. -/
def introduces (out : CheckOutput) : Bool :=
  !out.cancelled && out.table.productiveData == [⟨21⟩, ⟨24⟩, ⟨30⟩, ⟨33⟩] &&
    out.table.rules.map (fun r => (r.subject, r.topic)) == topics

theorem introduces_result : result.2.toOption.any introduces = true := by decide +kernel

/-- The rules of `D` are those of its productive data, that of its contract coming last. -/
theorem checkModule_rules_layered : ∃ out,
    checkModule names ⟨0⟩ (.of []) {} module = (result.1, .ok out) ∧
      out.table.rules.map (fun r => (r.subject, r.topic)) = topics ∧
      ∃ (subjects : List SymbolId) (contracts : List Rule),
        out.table.rules = subjects.flatMap (out.table.impliedRules result.1) ++ contracts ∧
        subjects.Perm [⟨21⟩, ⟨24⟩, ⟨30⟩, ⟨33⟩] ∧
        (∀ r ∈ contracts, r.kind.isContract = true) ∧
        (∀ d ∈ subjects, ∀ kind position,
          (kind, position) ∈ (out.table.impliedRules result.1 d).map Rule.topic ↔
            out.table.Obliges d kind position) ∧
        ∀ before d after, subjects = before ++ d :: after →
          ∀ d', out.table.Trails d d' → d' ∈ before := by
  obtain ⟨out, checked, hintroduces⟩ := exists_of_any_toOption introduces_result
  simp only [introduces, Bool.and_eq_true, Bool.not_eq_true', beq_iff_eq] at hintroduces
  obtain ⟨⟨uncancelled, hproductive⟩, htopics⟩ := hintroduces
  obtain ⟨subjects, contracts, hrules, hperm, hcontracts, hdemands, horder⟩ :=
    checkModule_rules (session_internAll _) (fun _ h => absurd h List.not_mem_nil) checked
      uncancelled
  exact ⟨out, checked, htopics, subjects, contracts, hrules, hproductive ▸ hperm, hcontracts,
    fun d hd => (hdemands d hd).2.2.2.2.2, horder⟩

end Layered

end ManySorted
