import ManySorted.Proofs.Declaration.Admitting
import ManySorted.Proofs.Transfer.Admitting
import ManySorted.Proofs.Transfer.Importing
import ManySorted.Proofs.Transfer.Verdict

/-!
# Counterparts of what is registered

A new symbol in the root is a convenience, or it is what its name comes to stand for, or a companion
of such a one (`Draft.Stocked`).  So if the imports of one run have others in their places at the
end of another run, and names come to stand for the same, then all symbols have others in their
places (`Draft.Stocked.linked`).

## Strategy

* **Conveniences.**  After the imports, what stands under a name did so before or is a convenience
  (`Draft.Equipped.under?_cases`).  The name of a convenience is taken in any case, if only by an
  import.
* **Declarations.**  What is declared stands under its name in the root, and so does what is
  declared there under the same name (`Draft.Stocked.linked_declared`).
* **All symbols.**  Companions go with their data, so everything but new conveniences has another in
  its place (`Draft.Stocked.linked`).
* **Without reports.**  All reports about names are errors, so registering leaves no errors if and
  only if every entry may be entered (`Draft.exists_entered`).
-/

namespace ManySorted

theorem Convenience.mem_all (c : Convenience) : c ∈ Convenience.all := by
  cases c <;> decide

theorem SymbolKind.convenience?_outline (kind : SymbolKind) :
    kind.outline.convenience? = kind.convenience? := by
  cases kind with
  | userConstant constant => cases constant <;> rfl
  | _ => rfl

/-- Declarations enter no conveniences. -/
theorem Module.convenience?_of_mem_entries {m : Module} {t : Table} {e : Entry}
    (h : e ∈ m.entries t) : e.kind.convenience? = none := by
  rcases List.mem_append.1 h with h | h
  · rcases List.mem_append.1 h with h | h
    · rcases List.mem_append.1 h with h | h
      · obtain ⟨decl, -, rfl⟩ := List.mem_map.1 h
        change decl.body.outline.convenience? = none
        rw [TypeBody.outline]
        cases decl.body.shape? <;> rfl
      · obtain ⟨constant, -, rfl⟩ := List.mem_map.1 h
        exact SymbolKind.convenience?_outline _
    · rw [paramEntries] at h
      split at h
      · obtain ⟨param, -, h⟩ := List.mem_filterMap.1 h
        cases param with
        | model reference => cases h
        | value name type span =>
            cases h
            rfl
      · exact absurd h List.not_mem_nil
  · obtain ⟨id, -, rfl⟩ := Module.mem_tacitEntries.1 h
    rfl

theorem Convenience.name_inj {c c' : Convenience} (h : c.name = c'.name) : c = c' := by
  revert h
  cases c <;> cases c' <;> decide

namespace Table

variable {names names' : Interner} {foreign t t' : Table} {path : List Name} {name : Name}
  {x y : SymbolId}

/-- The symbol is what an entry enters. -/
structure Shows (t : Table) (x : SymbolId) (e : Entry) : Prop where
  arity : (t.symbolAt x).arity = e.arity
  outline : (t.kindOf x).outline = e.kind

/-- A symbol is looked for in the same place before and after its table has grown. -/
theorem Later.place?_eq {base : NamespaceId} (h : foreign.Later t)
    (hforeign : foreign.Regular names)
    (ht : t.Regular names') (hx : foreign.Holds x) :
    t.place? t' base (t.symbolAt x) = foreign.place? t' base (foreign.symbolAt x) := by
  have hkind : (t.kindOf x).outline = (foreign.kindOf x).outline := by
    rw [← SymbolKind.outline_unsized, h.unsized_kindOf hx, SymbolKind.outline_unsized]
  have hstays : (t.symbolAt x).kind.staysInRoot = (foreign.symbolAt x).kind.staysInRoot := by
    rw [← SymbolKind.staysInRoot_outline, ← SymbolKind.staysInRoot_outline
      (foreign.symbolAt x).kind]
    exact congrArg SymbolKind.staysInRoot hkind
  have hpath := h.path_eq hforeign.tree ht.tree (hforeign.arena.home hx)
  simp only [Table.place?, Table.landing?, hstays, h.home_symbolAt hx, hpath, h.name_symbolAt hx]

theorem Later.relocate?_eq {base : NamespaceId} (h : foreign.Later t)
    (hforeign : foreign.Regular names) (ht : t.Regular names') (hx : foreign.Holds x) :
    t.relocate? t' base x = foreign.relocate? t' base x := by
  cases hsort : foreign.dataOf? x with
  | some d =>
      obtain ⟨shape, info, hkind, -⟩ := hforeign.families.sort (dataOf?_eq_some_iff.1 hsort)
      rw [relocate?_of_dataOf? hsort, relocate?_of_dataOf? (h.dataOf? hsort),
        h.place?_eq hforeign ht (holds_of_data hkind)]
  | none =>
      have hsort' : t.dataOf? x = none := by
        refine Option.eq_none_iff_forall_ne_some.2 fun d hd => ?_
        rw [dataOf?_eq_some_iff, h.unsized_kindOf hx, ← dataOf?_eq_some_iff, hsort] at hd
        cases hd
      rw [relocate?_of_not_sort hsort, relocate?_of_not_sort hsort', h.place?_eq hforeign ht hx]

/-- A symbol in the place of one of an earlier table is in the place of that of the later one as
well. -/
theorem Linked.grown (h : foreign.Linked t' .root x y) (hforeign : foreign.Regular names)
    (hlater : foreign.Later t) (ht : t.Regular names') : t.Linked t' .root x y where
  holds := hlater.holds h.holds
  found := (hlater.relocate?_eq hforeign ht h.holds).trans h.found
  arity := h.arity.trans (hlater.arity_symbolAt h.holds).symm
  outline := by
    rw [h.outline, ← SymbolKind.outline_unsized (t.kindOf x), hlater.unsized_kindOf h.holds,
      SymbolKind.outline_unsized]

/-- What stands in the root of one table has what stands there under the same name in another one in
its place. -/
theorem Regular.linked_of_symbol? (ht : t.Regular names)
    (hx : (t.namespaceAt .root).symbol? name = some x)
    (hy : (t'.namespaceAt .root).symbol? name = some y)
    (harity : (t'.symbolAt y).arity = (t.symbolAt x).arity)
    (houtline : (t'.kindOf y).outline = (t.kindOf x).outline) : t.Linked t' .root x y where
  holds := (ht.arena.entry hx).1
  found := by
    obtain ⟨hholds, hhome, rfl, hnamed⟩ := ht.arena.entry hx
    rw [ht.relocate?_root hholds hnamed, hhome, ht.tree.path_root]
    exact hy
  arity := harity
  outline := houtline

end Table

namespace Draft

variable {m m' : Module} {imported imported' origin origin' base start start' : Draft}
  {declarations : Declarations} {path : List Name} {name : Name} {e : Entry} {c : Convenience}
  {x y : SymbolId}

/-! ## Conveniences -/

namespace Equipped

variable (h : Equipped imported Convenience.all origin)
include h

/-- What stands under a name stood there before, or the name is the one of a convenience. -/
theorem under?_cases (himported : imported.Intact) (hx : origin.table.under? path name = some x) :
    imported.table.under? path name = some x ∨
      path = [] ∧ ∃ c : Convenience, origin.names.text name = c.name := by
  have hregular := h.intact.formed.toRegular
  obtain ⟨hholds, hpath, hname, -⟩ := hregular.of_under? hx
  by_cases hold : imported.table.Holds x
  · exact .inl (h.added.later.under?_of_holds himported.formed.toRegular hregular hx hold)
  · obtain ⟨c, -, -, -, htext⟩ := h.new hholds hold
    refine .inr ⟨?_, c, hname ▸ htext⟩
    rw [← hpath, h.added.home hholds hold, hregular.tree.path_root]

/-- The name of a convenience is taken. -/
theorem exists_under? (hknows : origin.names.Knows name) (htext : origin.names.text name = c.name) :
    ∃ x, origin.table.under? [] name = some x := by
  obtain ⟨other, x, hknows', htext', hx⟩ := h.stands c c.mem_all
  rw [← h.intact.formed.proper.text_inj hknows' hknows (htext'.trans htext.symm)]
  exact ⟨x, hx⟩

/-- A name that stands for something after one import and the conveniences does so after another
one, if this is so for the imports. -/
theorem exists_there (himported : imported.Intact)
    (h' : Equipped imported' Convenience.all origin') (hknows : origin'.names.Knows name)
    (htext : origin.names.text name = origin'.names.text name)
    (hthere : ∀ y, imported.table.under? path name = some y →
      ∃ y', imported'.table.under? path name = some y')
    (hx : origin.table.under? path name = some x) :
    ∃ x', origin'.table.under? path name = some x' := by
  rcases h.under?_cases himported hx with hx | ⟨rfl, c, hc⟩
  · obtain ⟨y', hy'⟩ := hthere x hx
    exact ⟨y', h'.added.later.under? hy'⟩
  · exact h'.exists_under? hknows (htext.symm.trans hc)

end Equipped

/-! ## All that is registered -/

/-- What registering leaves in a table. -/
structure Stocked (m : Module) (imported origin start : Draft) : Prop where
  intact : start.Intact
  grown : origin.names.Grown start.names
  extended : imported.table.Extends start.table
  namespaceNames : start.table.namespaceNames = imported.table.namespaceNames
  stands : ∀ c : Convenience, ∃ name x, start.names.Knows name ∧ start.names.text name = c.name ∧
    (start.table.namespaceAt .root).symbol? name = some x
  entered : ∀ {name e}, origin.chosen (m.entries origin.table) name = some e →
    ∃ x, (start.table.namespaceAt .root).symbol? name = some x ∧ ¬ imported.table.Holds x ∧
      start.table.Shows x e
  /-- No declaration goes under the name of a convenience. -/
  closed : ∀ {name e}, origin.chosen (m.entries origin.table) name = some e →
    ∀ c : Convenience, start.names.text name ≠ c.name
  /-- What is new and no companion. -/
  single : ∀ {x}, start.table.Holds x → ¬ imported.table.Holds x →
    (start.table.kindOf x).isCompanion = false →
      (start.table.namespaceAt .root).symbol? (start.table.symbolAt x).name = some x ∧
        ((∃ c, start.table.kindOf x = .union (some c) ∧ (start.table.symbolAt x).arity = 0 ∧
            start.names.text (start.table.symbolAt x).name = c.name) ∨
          (start.table.kindOf x).convenience? = none ∧
            ∃ e, origin.chosen (m.entries origin.table) (start.table.symbolAt x).name = some e ∧
              start.table.Shows x e)
  /-- A new companion belongs to new data. -/
  owner : ∀ {x}, start.table.Holds x → ¬ imported.table.Holds x →
    (start.table.kindOf x).isCompanion = true → ∃ y shape info,
      start.table.kindOf y = .data shape info ∧ ¬ imported.table.Holds y ∧
        (x = info.sort ∨ x = info.typeConstant)

/-- What the conveniences, the roster and the forms of the conveniences leave. -/
theorem Enrollment.stocked (h : Enrollment m origin base declarations)
    (hequipped : Equipped imported Convenience.all origin)
    (hregistered : Registered m imported.table declarations start)
    (hnames : start.names = base.names) (halike : base.table.Alike start.table) :
    Stocked m imported origin start := by
  have hroster := h.roster
  have hintact := hequipped.intact
  have hshows : ∀ {x e}, base.table.Bears x e → start.table.Shows x e := by
    intro x e hbears
    refine ⟨(halike.arity x).trans hbears.arity, ?_⟩
    rw [← SymbolKind.outline_unsized, halike.unsized, SymbolKind.outline_unsized, hbears.kind]
  have hnamespace : start.table.namespaceAt = base.table.namespaceAt :=
    Table.namespaceAt_congr halike.namespaces_eq
  have hgrown : origin.names.Grown start.names := hnames ▸ hroster.grown
  have hnewer : ∀ {x}, ¬ origin.table.Holds x → ¬ imported.table.Holds x := fun hnew hold =>
    hnew (hequipped.added.later.holds hold)
  -- A symbol that is not imported is a convenience, was entered, or belongs to data that was.
  refine ⟨hregistered.intact, hgrown, hregistered.extended, ?_, fun c =>
    ?_, fun {name e} hchosen => ?_,
    fun {name e} hchosen c htext => ?_, fun {x} hx hnew halone =>
      ?_, fun {x} hx hnew hcompanion => ?_⟩
  · rw [← hequipped.entersRoot.namespaceNames_eq, ← hroster.entersRoot.namespaceNames_eq,
      Table.namespaceNames, halike.namespaces_eq, Table.namespaceNames]
  · obtain ⟨name, x, hknows, htext, hx⟩ := hequipped.stands c c.mem_all
    refine ⟨name, x, hgrown.knows hknows, (hgrown.text hknows).trans htext, ?_⟩
    rw [hnamespace]
    exact hroster.added.later.symbol? hx
  · obtain ⟨x, hx⟩ := hroster.entered hchosen
    obtain ⟨-, hfresh⟩ := hroster.fresh_of_chosen hintact hchosen hx
    exact ⟨x, by rwa [hnamespace], hnewer hfresh.new, hshows hfresh.bears⟩
  · obtain ⟨hfree, hlegal⟩ := opens_of_chosen hchosen
    have hknows := (hintact.formed.proper.fitting_of_isLegalId hlegal).knows
    rw [hgrown.text hknows] at htext
    obtain ⟨x, hx⟩ := hequipped.exists_under? hknows htext
    cases hfree.symm.trans hx
  · -- conveniences and what was entered
    have hbase := (halike.holds x).1 hx
    have halone' : (base.table.kindOf x).isCompanion = false := by
      rwa [← SymbolKind.isCompanion_outline, ← SymbolKind.outline_unsized, ← halike.unsized,
        SymbolKind.outline_unsized, SymbolKind.isCompanion_outline]
    rw [hnamespace, halike.name]
    by_cases hold : origin.table.Holds x
    · have hsame := hroster.added.same hold
      obtain ⟨c, -, hkind, harity, htext⟩ := hequipped.new hold hnew
      have hknows := hintact.formed.families.knows hold
      have hnamed : (origin.table.symbolAt x).name.isEmpty = false :=
        hintact.formed.families.isEmpty_eq_false hold (by rw [Table.dataOf?, hkind])
      have hlisted := hintact.formed.arena.listed hold hnamed
      rw [hequipped.added.home hold hnew] at hlisted
      have hbaseKind : base.table.kindOf x = .union (some c) :=
        (hroster.kindOf_of_holds hold).trans hkind
      refine ⟨by rw [hsame]; exact hroster.added.later.symbol? hlisted, .inl ⟨c, ?_, ?_, ?_⟩⟩
      · refine (halike.kindOf ?_).trans hbaseKind
        rintro ⟨_, hsort⟩
        rw [hbaseKind] at hsort
        cases hsort
      · rw [halike.arity, hsame, harity]
      · rw [hsame, hgrown.text hknows, htext]
    · obtain ⟨e, hfresh, hlisted⟩ := hroster.fresh_of_new hbase hold halone'
      have hshown := hshows hfresh.bears
      refine ⟨hlisted, .inr ⟨?_, e, hfresh.chosen, hshown⟩⟩
      rw [← SymbolKind.convenience?_outline, hshown.outline]
      exact Module.convenience?_of_mem_entries (mem_of_chosen hfresh.chosen).1
  · -- companions
    have hbase := (halike.holds x).1 hx
    have hcompanion' : (base.table.kindOf x).isCompanion = true := by
      rwa [← SymbolKind.isCompanion_outline, ← SymbolKind.outline_unsized, ← halike.unsized,
        SymbolKind.outline_unsized, SymbolKind.isCompanion_outline]
    have hold : ¬ origin.table.Holds x := by
      intro hold
      obtain ⟨c, -, hkind, -⟩ := hequipped.new hold hnew
      rw [hroster.kindOf_of_holds hold, hkind] at hcompanion'
      cases hcompanion'
    obtain ⟨y, shape, info, hkind, hy, howner⟩ :=
      hroster.owner_of_companion hintact hold hcompanion'
    exact ⟨y, shape, info, halike.kindOf_data.2 hkind, hnewer hy, howner⟩

namespace Stocked

variable (h : Stocked m imported origin start) (h' : Stocked m' imported' origin' start')
include h h'

theorem regular_of_grown (hgrown : start.names.Grown start'.names) :
    start.table.Regular start'.names :=
  (h.intact.grown hgrown h'.intact.formed.proper).formed.toRegular

section

variable (hequal : ∀ {name e}, origin.chosen (m.entries origin.table) name = some e →
  ∃ e', origin'.chosen (m'.entries origin'.table) name = some e' ∧ e.Equals e')
include hequal

/-- What is declared has what is declared there under the same name in its place. -/
theorem linked_declared (hx : start.table.Holds x) (hnew : ¬ imported.table.Holds x)
    (halone : (start.table.kindOf x).isCompanion = false)
    (hplain : (start.table.kindOf x).convenience? = none) :
    ∃ y, ¬ imported'.table.Holds y ∧ start.table.Linked start'.table .root x y := by
  obtain ⟨hlisted, ⟨c, hkind, -⟩ | ⟨-, e, hchosen, hshows⟩⟩ := h.single hx hnew halone
  · rw [hkind] at hplain
    cases hplain
  · obtain ⟨e', hchosen', hequals⟩ := hequal hchosen
    obtain ⟨y, hy, hnew', hshows'⟩ := h'.entered hchosen'
    refine ⟨y, hnew', h.intact.formed.toRegular.linked_of_symbol? hlisted hy ?_ ?_⟩
    · rw [hshows'.arity, hequals.arity, hshows.arity]
    · rw [hshows'.outline, hequals.kind, hshows.outline]

variable (himported : imported.Intact) (hgrown : start.names.Grown start'.names)
  (hold : ∀ {x}, imported.table.Holds x → ∃ y, imported.table.Linked start'.table .root x y)
include himported hgrown hold

/-- What is imported or declared has another in its place. -/
theorem linked_of_single (hx : start.table.Holds x)
    (hsingle : imported.table.Holds x ∨ (start.table.kindOf x).isCompanion = false ∧
      (start.table.kindOf x).convenience? = none) :
    ∃ y, start.table.Linked start'.table .root x y := by
  by_cases hthere : imported.table.Holds x
  · obtain ⟨y, hy⟩ := hold hthere
    exact ⟨y, hy.grown himported.formed.toRegular h.extended.later (h.regular_of_grown h' hgrown)⟩
  · obtain ⟨halone, hplain⟩ := hsingle.resolve_left hthere
    obtain ⟨y, -, hy⟩ := h.linked_declared h' hequal hx hthere halone hplain
    exact ⟨y, hy⟩

/-- Everything but new conveniences has another in its place. -/
theorem linked (hx : start.table.Holds x)
    (hkept : imported.table.Holds x ∨ (start.table.kindOf x).convenience? = none) :
    ∃ y, start.table.Linked start'.table .root x y := by
  by_cases hthere : imported.table.Holds x
  · exact h.linked_of_single h' hequal himported hgrown hold hx (.inl hthere)
  · cases hcompanion : (start.table.kindOf x).isCompanion with
    | false =>
        exact h.linked_of_single h' hequal himported hgrown hold hx
          (.inr ⟨hcompanion, hkept.resolve_left hthere⟩)
    | true =>
        -- a companion is where that of the data is
        obtain ⟨y, shape, info, hkind, -, howner⟩ := h.owner hx hthere hcompanion
        obtain ⟨z, hz⟩ := h.linked_of_single h' hequal himported hgrown hold
          (Table.holds_of_data hkind) (.inr (by rw [hkind]; exact ⟨rfl, rfl⟩))
        obtain ⟨info', -, hsort, hconstant⟩ :=
          hz.companions (h.regular_of_grown h' hgrown) h'.intact.formed.toRegular hkind
        rcases howner with rfl | rfl
        · exact ⟨_, hsort⟩
        · exact ⟨_, hconstant⟩

end

/-- A convenience has one in its place, if its name is not taken by an import there. -/
theorem linked_convenience (hgrown : start.names.Grown start'.names) (hx : start.table.Holds x)
    (hnew : ¬ imported.table.Holds x) (hkind : start.table.kindOf x = .union (some c))
    (hfree : ∀ y, (start'.table.namespaceAt .root).symbol? (start.table.symbolAt x).name = some y →
      ¬ imported'.table.Holds y) :
    ∃ y, ¬ imported'.table.Holds y ∧ start.table.Linked start'.table .root x y ∧
      start'.table.kindOf y = .union (some c) := by
  obtain ⟨hlisted, ⟨c', hkind', harity, htext⟩ | ⟨hplain, -⟩⟩ :=
    h.single hx hnew (by rw [hkind]; rfl)
  · obtain rfl : c' = c := by
      cases hkind.symm.trans hkind'
      rfl
    have hregular' := h'.intact.formed.toRegular
    have hknows := h.intact.formed.families.knows hx
    obtain ⟨name, y, hknows', htext', hy⟩ := h'.stands c'
    obtain rfl : name = (start.table.symbolAt x).name := by
      refine hregular'.proper.text_inj hknows' (hgrown.knows hknows) ?_
      rw [htext', hgrown.text hknows, htext]
    obtain ⟨hholds, -, hname, -⟩ := hregular'.arena.entry hy
    have hnew' := hfree y hy
    -- the name of a convenience is none of a type
    have halone : (start'.table.kindOf y).isCompanion = false := by
      refine Bool.eq_false_iff.2 fun hcompanion => ?_
      obtain ⟨s, htype⟩ := hregular'.type_of_companion hy hcompanion
      obtain ⟨data, shape, info, hdata, -, rfl⟩ := hregular'.families.type htype
      refine (plain_convenience c').2 ⟨start'.names.text (start'.table.symbolAt data).name, ?_⟩
      rw [← (hregular'.families.data hdata).constant_text, hname, htext']
    obtain ⟨-, ⟨c'', hkind'', harity', htext''⟩ | ⟨-, e, hchosen, -⟩⟩ :=
      h'.single hholds hnew' halone
    · rw [hname, htext'] at htext''
      obtain rfl := Convenience.name_inj htext''
      refine ⟨y, hnew', h.intact.formed.toRegular.linked_of_symbol? hlisted hy ?_ ?_, hkind''⟩
      · rw [harity', harity]
      · rw [hkind'', hkind]
    · rw [hname] at hchosen
      exact absurd htext' (h'.closed hchosen c')
  · rw [hkind] at hplain
    cases hplain

end Stocked

/-! ## When registering reports nothing -/

/-- All reports about names are errors. -/
theorem isWarning_of_mem_gather {before entries : List Entry} {r : Report}
    (h : r ∈ gather origin.entryReports before entries) : r.isWarning = false := by
  induction entries generalizing before with
  | nil => exact absurd h List.not_mem_nil
  | cons e rest ih =>
      rcases List.mem_append.1 h with h | h
      · unfold entryReports at h
        split at h
        · next problem hproblem =>
            split at h
            · exact absurd h List.not_mem_nil
            · obtain rfl := List.mem_singleton.1 h
              rw [illegalId?] at hproblem
              split at hproblem
              · cases hproblem
              · cases hproblem
                rfl
        · split at h
          · exact absurd h List.not_mem_nil
          · obtain ⟨previous, -, rfl⟩ := List.mem_map.1 h
            rfl
      · exact ih h

/-- What registering leaves, and when it leaves no errors. -/
structure Entered (m : Module) (imported origin start : Draft) (declarations : Declarations) : Prop
    extends Stocked m imported origin start where
  equipped : Equipped imported Convenience.all origin
  enlisted : origin.names = Convenience.all.foldl Convenience.enlist imported.names
  registered : Registered m imported.table declarations start
  clean_iff : start.table.hasErrors = false ↔
    imported.table.hasErrors = false ∧ origin.Admits m
  exhausts : start.table.hasErrors = false → declarations.types.map Declaration.decl = m.types ∧
    declarations.params.map (fun p => (p.name, p.type)) = m.boundParams ∧
      start.names = m.enlist imported.names

theorem exists_entered (himported : imported.Intact) (hinterned : m.Interned imported.names)
    (hrun : registerDeclarations m imported = .ok declarations start)
    (hregistered : Registered m imported.table declarations start) :
    ∃ origin, Entered m imported origin start declarations := by
  obtain ⟨conveniences, origin, base, hconveniences, henrollment, hnames, halike, hreports⟩ :=
    enrollment_of_registerDeclarations hrun
  have hequipped := ends_equipped himported _ _ _ rfl hconveniences
  have henrollment := henrollment hequipped.intact (hinterned.grown hequipped.grown)
  refine ⟨origin, henrollment.stocked hequipped hregistered hnames halike, hequipped,
    ends_names_registerConveniences _ _ _ rfl hconveniences, hregistered, ?_, exhausts hrun⟩
  rw [Table.hasErrors_eq_false_iff, hreports, henrollment.roster.reports_eq, hequipped.reports_eq,
    List.forall_mem_append, ← Table.hasErrors_eq_false_iff,
    forall_isWarning_iff fun r hr => isWarning_of_mem_gather hr, gather_entries_eq_nil_iff]

end Draft

end ManySorted
