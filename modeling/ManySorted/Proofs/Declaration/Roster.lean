import ManySorted.Proofs.Declaration.Enrollment
import ManySorted.Proofs.Draft.Ending

/-!
# The roster of declarations

Declarations are entered one after the other, and each takes its name for good.  So what a name
comes to stand for depends on the declarations before it only through the first of that name
(`Draft.Roster`), and so do the reports about names that are illegal or taken.

## Strategy

* **The first entry of a name.**  It is what the name comes to stand for if it was open
  (`Draft.chosen`), and later entries of the name only lead to reports (`Draft.entryReports`).
* **What is found.**  Under a name there is what was there before, or a new symbol that is found
  nowhere else (`Draft.Roster.symbol?_cases`).  A new symbol is what the first entry of its name
  says (`Draft.Roster.bears_of_symbol?`).
* **Steps.**  A declaration is entered under a name that is open and stands for nothing yet
  (`Draft.Roster.enter`), or it is refused (`Draft.Roster.refuse`).  Either way the roster grows by
  one entry.
-/

namespace ManySorted

theorem SymbolKind.isData_outline (kind : SymbolKind) : kind.outline.isData = kind.isData := by
  cases kind with
  | userConstant constant => cases constant <;> rfl
  | _ => rfl

/-- What a declaration enters under its name. -/
structure Entry where
  name : Name
  usage : String
  location : Location
  arity : Nat
  kind : SymbolKind
  /-- Whether the entry is left out without a report if its name is taken. -/
  tacit : Bool := false

namespace Table

variable {t t' t'' : Table} {name : Name} {arity : Nat} {location : Location} {kind : SymbolKind}
  {x : SymbolId} {e : Entry}

/-- Among the companions only the constants that stand for types are found by name. -/
theorem Regular.type_of_companion {names : Interner} {ns : NamespaceId} (h : t.Regular names)
    (hx : (t.namespaceAt ns).symbol? name = some x)
    (hcompanion : (t.kindOf x).isCompanion = true) :
    ∃ s, t.kindOf x = .userConstant (.type s) := by
  obtain ⟨hholds, -, rfl, hnamed⟩ := h.arena.entry hx
  cases hkind : t.kindOf x with
  | userSort data size =>
      have hempty := (h.families.named hholds).2 ⟨data, by rw [hkind]; rfl⟩
      exact absurd (hnamed.symm.trans hempty) Bool.false_ne_true
  | userConstant constant =>
      cases constant with
      | type s => exact ⟨s, rfl⟩
      | _ => rw [hkind] at hcompanion; cases hcompanion
  | _ => rw [hkind] at hcompanion; cases hcompanion

/-- No companion goes under a legal name. -/
theorem Regular.isCompanion_eq_false {names : Interner} {ns : NamespaceId} (h : t.Regular names)
    (hlegal : isLegalId (names.text name) = true)
    (hx : (t.namespaceAt ns).symbol? name = some x) : (t.kindOf x).isCompanion = false := by
  refine Bool.eq_false_iff.2 fun hcompanion => ?_
  obtain ⟨s, hkind⟩ := h.type_of_companion hx hcompanion
  obtain ⟨data, shape, info, hdata, -, rfl⟩ := h.families.type hkind
  refine not_hashed_of_isLegalId hlegal ⟨names.text (t.symbolAt data).name, ?_⟩
  rw [← (h.families.data hdata).constant_text, (h.arena.entry hx).2.2.1]

/-- The symbol is what the entry says. -/
structure Bears (t : Table) (x : SymbolId) (e : Entry) : Prop where
  location : (t.symbolAt x).location = e.location
  arity : (t.symbolAt x).arity = e.arity
  kind : (t.kindOf x).outline = e.kind
  tacit : e.tacit = true → t.kindOf x = .userConstant .enumerated

/-- Symbols are entered into no namespace but the root. -/
structure EntersRoot (t t' : Table) : Prop where
  size_eq : t'.namespaces.size = t.namespaces.size
  node_eq : ∀ ns, (t'.namespaceAt ns).unlisted = (t.namespaceAt ns).unlisted
  below : ∀ ns, ns ≠ .root → t'.namespaceAt ns = t.namespaceAt ns

theorem EntersRoot.refl (t : Table) : t.EntersRoot t where
  size_eq := rfl
  node_eq _ := rfl
  below _ _ := rfl

theorem EntersRoot.trans (h : t.EntersRoot t') (h' : t'.EntersRoot t'') : t.EntersRoot t'' where
  size_eq := h'.size_eq.trans h.size_eq
  node_eq ns := (h'.node_eq ns).trans (h.node_eq ns)
  below ns hns := (h'.below ns hns).trans (h.below ns hns)

theorem EntersRoot.of_eq (h : t'.namespaces = t.namespaces) : t.EntersRoot t' where
  size_eq := by rw [h]
  node_eq ns := by rw [namespaceAt_congr h]
  below ns _ := by rw [namespaceAt_congr h]

namespace EntersRoot

variable (h : t.EntersRoot t')
include h

theorem name_eq (ns : NamespaceId) : (t'.namespaceAt ns).name = (t.namespaceAt ns).name :=
  show (t'.namespaceAt ns).unlisted.name = (t.namespaceAt ns).unlisted.name by rw [h.node_eq]

theorem parent_eq (ns : NamespaceId) : (t'.namespaceAt ns).parent = (t.namespaceAt ns).parent :=
  show (t'.namespaceAt ns).unlisted.parent = (t.namespaceAt ns).unlisted.parent by rw [h.node_eq]

theorem ancestors_eq (ns : NamespaceId) : t'.ancestors ns = t.ancestors ns := by
  have hwithin : ∀ fuel ns, t'.ancestorsWithin fuel ns = t.ancestorsWithin fuel ns := by
    intro fuel
    induction fuel with
    | zero => exact fun _ => rfl
    | succ fuel ih =>
        intro ns
        simp only [ancestorsWithin, h.parent_eq, ih]
  rw [ancestors, ancestors, h.size_eq, hwithin]

theorem path_eq (ns : NamespaceId) : t'.path ns = t.path ns := by
  simp only [path, h.ancestors_eq, List.filterMap_reverse, List.filterMap_map]
  refine congrArg List.reverse (List.filterMap_congr fun node _ => ?_)
  rw [Function.comp_apply, Function.comp_apply, h.name_eq, h.parent_eq]

theorem isWithin_eq (ns ancestor : NamespaceId) :
    t'.isWithin ns ancestor = t.isWithin ns ancestor := by
  rw [isWithin, isWithin, h.ancestors_eq]

theorem namespaceNames_eq : t'.namespaceNames = t.namespaceNames := by
  have hnodes : t'.namespaces.toList.map Namespace.name = t.namespaces.toList.map
      Namespace.name := by
    refine List.ext_getElem (by simp [h.size_eq]) fun i hi hi' => ?_
    have hname := h.name_eq ⟨i⟩
    simp only [List.length_map, Array.length_toList] at hi hi'
    simp only [namespaceAt, Array.getD, dif_pos hi, dif_pos hi'] at hname
    simpa using hname
  rw [namespaceNames, namespaceNames, List.map_drop, List.map_drop, hnodes]

end EntersRoot

theorem entersRoot_withSymbol : t.EntersRoot (t.withSymbol .root name arity location kind) where
  size_eq := size_withSymbol
  node_eq ns := by
    rw [namespaceAt_withSymbol]
    split <;> rfl
  below ns hns := by
    rw [namespaceAt_withSymbol, if_neg fun h => hns h.2.1]

theorem entersRoot_withData {hashed : Name} {shape : DataShape} {labels : List (Option Name)}
    {any : List Bool} :
    t.EntersRoot (t.withData hashed .root name arity location shape labels any) :=
  (entersRoot_withSymbol.trans entersRoot_withSymbol).trans entersRoot_withSymbol

end Table

namespace Draft

variable {origin d d' : Draft} {entries : List Entry} {e : Entry} {name : Name} {x : SymbolId}

/-- The name is legal, and nothing is entered under it. -/
def Opens (d : Draft) (name : Name) : Prop :=
  (d.table.namespaceAt .root).symbol? name = none ∧ isLegalId (d.names.text name) = true

instance : Decidable (d.Opens name) := inferInstanceAs (Decidable (_ ∧ _))

/-- The entry that a name comes to stand for: the first one, if the name was open. -/
def chosen (d : Draft) (entries : List Entry) (name : Name) : Option Entry :=
  if d.Opens name then entries.find? (·.name = name) else none

/-- Whether the name is the one of the type of some data that is entered. -/
def namesType (d : Draft) (entries : List Entry) (name : Name) : Bool :=
  entries.any fun e => (d.chosen entries e.name).any (·.kind.isData) &&
    d.names.text name == "#" ++ d.names.text e.name

/-- The location of what is found under a legal name. -/
def takenAt? (d : Draft) (entries : List Entry) (name : Name) : Option Location :=
  match (d.table.namespaceAt .root).symbol? name with
  | some previous => some (d.table.symbolAt previous).location
  | none => (d.chosen entries name).map Entry.location

/-- What is reported about an entry after the given ones. -/
def entryReports (d : Draft) (before : List Entry) (e : Entry) : List Report :=
  match illegalId? d.names e.name e.usage with
  | some problem => if e.tacit && d.namesType before e.name then [] else [⟨e.location, problem⟩]
  | none =>
      if e.tacit then []
      else (d.takenAt? before e.name).toList.map fun previous =>
        ⟨e.location, .duplicateDefinition (d.names.text e.name) previous⟩

/-- What `f` gives for each entry after those before it. -/
def gather {β : Type} (f : List Entry → Entry → List β) : List Entry → List Entry → List β
  | _, [] => []
  | before, e :: rest => f before e ++ gather f (before ++ [e]) rest

theorem gather_append {β : Type} (f : List Entry → Entry → List β) (before l l' : List Entry) :
    gather f before (l ++ l') = gather f before l ++ gather f (before ++ l) l' := by
  induction l generalizing before with
  | nil => rw [List.nil_append, List.append_nil, gather, List.nil_append]
  | cons e rest ih =>
      rw [List.cons_append, gather, gather, ih, List.append_assoc, List.append_assoc,
        List.singleton_append]

theorem gather_snoc {β : Type} (f : List Entry → Entry → List β) (before l : List Entry)
    (e : Entry) : gather f before (l ++ [e]) = gather f before l ++ f (before ++ l) e := by
  rw [gather_append, gather, gather, List.append_nil]

/-- What has been entered into a draft: the names that were open stand for the first of their
entries. -/
structure Roster (origin : Draft) (entries : List Entry) (d : Draft) : Prop where
  intact : d.Intact
  grown : origin.names.Grown d.names
  added : origin.table.Added d.table
  entersRoot : origin.table.EntersRoot d.table
  entered : ∀ {name e}, origin.chosen entries name = some e →
    ∃ x, (d.table.namespaceAt .root).symbol? name = some x
  new : ∀ {x}, d.table.Holds x → ¬ origin.table.Holds x → (d.table.kindOf x).isCompanion = false →
    origin.names.Knows (d.table.symbolAt x).name ∧
      ∃ e, origin.chosen entries (d.table.symbolAt x).name = some e ∧ d.table.Bears x e
  reports_eq : d.table.reports = origin.table.reports ++ gather origin.entryReports [] entries

theorem chosen_snoc (d : Draft) (entries : List Entry) (e : Entry) (name : Name) :
    d.chosen (entries ++ [e]) name =
      (d.chosen entries name).or (if d.Opens name ∧ e.name = name then some e else none) := by
  unfold chosen
  by_cases hopen : d.Opens name
  · rw [if_pos hopen, if_pos hopen, List.find?_append]
    by_cases hname : e.name = name
    · rw [if_pos ⟨hopen, hname⟩, List.find?_singleton, if_pos (decide_eq_true hname)]
    · rw [if_neg fun h => hname h.2, List.find?_singleton, if_neg (by simpa using hname)]
  · rw [if_neg hopen, if_neg hopen, if_neg fun h => hopen h.1, Option.or_none]

theorem opens_of_chosen (h : d.chosen entries name = some e) : d.Opens name := by
  unfold chosen at h
  split at h
  · assumption
  · cases h

theorem mem_of_chosen (h : d.chosen entries name = some e) : e ∈ entries ∧ e.name = name := by
  unfold chosen at h
  split at h
  · exact ⟨List.mem_of_find?_eq_some h, by simpa using List.find?_some h⟩
  · cases h

theorem roster_nil (h : origin.Intact) : Roster origin [] origin where
  intact := h
  grown := .refl _
  added := .refl _
  entersRoot := .refl _
  entered hchosen := absurd (mem_of_chosen hchosen).1 List.not_mem_nil
  new hx hnew := absurd hx hnew
  reports_eq := by rw [gather, List.append_nil]

namespace Roster

variable (h : Roster origin entries d)
include h

theorem of_clock (clock : Clock) : Roster origin entries { d with clock } where
  intact := h.intact
  grown := h.grown
  added := h.added
  entersRoot := h.entersRoot
  entered := h.entered
  new := h.new
  reports_eq := h.reports_eq

theorem text (hknows : origin.names.Knows name) : d.names.text name = origin.names.text name :=
  h.grown.text hknows

/-! ## What a name stands for -/

section

variable (hintact : origin.Intact)
include hintact

/-- What is found in the root was there before, or is new and found nowhere else. -/
theorem symbol?_cases (hx : (d.table.namespaceAt .root).symbol? name = some x) :
    (origin.table.namespaceAt .root).symbol? name = some x ∨
      (origin.table.namespaceAt .root).symbol? name = none ∧ d.table.Holds x ∧
        ¬ origin.table.Holds x ∧ (d.table.symbolAt x).name = name := by
  obtain ⟨hholds, hhome, hname, hnamed⟩ := h.intact.formed.arena.entry hx
  by_cases hold : origin.table.Holds x
  · have hsame := h.added.same hold
    rw [hsame] at hhome hname
    have hlisted := hintact.formed.arena.listed hold (by rw [hname]; exact hnamed)
    rw [hhome, hname] at hlisted
    exact .inl hlisted
  · refine .inr ⟨?_, hholds, hold, hname⟩
    cases hfound : (origin.table.namespaceAt .root).symbol? name with
    | none => rfl
    | some y =>
        have hlater := h.added.later.symbol? hfound
        rw [hx] at hlater
        cases hlater
        exact absurd (hintact.formed.arena.entry hfound).1 hold

/-- A new symbol under a legal name is what the first entry of that name says. -/
theorem bears_of_symbol? (hlegal : isLegalId (origin.names.text name) = true)
    (hnone : (origin.table.namespaceAt .root).symbol? name = none)
    (hx : (d.table.namespaceAt .root).symbol? name = some x) :
    ∃ e, origin.chosen entries name = some e ∧ d.table.Bears x e := by
  rcases h.symbol?_cases hintact hx with hold | ⟨-, hholds, hnew, rfl⟩
  · cases hnone.symm.trans hold
  · rw [← h.text (hintact.formed.proper.fitting_of_isLegalId hlegal).knows] at hlegal
    exact (h.new hholds hnew (h.intact.formed.toRegular.isCompanion_eq_false hlegal hx)).2

/-- A legal name is taken just if it was before or if there is an entry for it. -/
theorem takenAt?_eq (hlegal : isLegalId (origin.names.text name) = true) :
    origin.takenAt? entries name =
      ((d.table.namespaceAt .root).symbol? name).map fun x => (d.table.symbolAt x).location := by
  unfold takenAt?
  cases hfound : (origin.table.namespaceAt .root).symbol? name with
  | some previous =>
      rw [h.added.later.symbol? hfound, Option.map_some,
        h.added.same (hintact.formed.arena.entry hfound).1]
  | none =>
      cases hx : (d.table.namespaceAt .root).symbol? name with
      | some x =>
          obtain ⟨e, hchosen, hbears⟩ := h.bears_of_symbol? hintact hlegal hfound hx
          rw [hchosen, Option.map_some, Option.map_some, hbears.location]
      | none =>
          cases hchosen : origin.chosen entries name with
          | none => rfl
          | some e =>
              obtain ⟨x, hx'⟩ := h.entered hchosen
              cases hx.symm.trans hx'

/-- The name of a type is taken just if it was before or if the data is entered. -/
theorem isSome_symbol?_of_illegal (hknows : origin.names.Knows name)
    (hillegal : isLegalId (origin.names.text name) = false)
    (hnone : (origin.table.namespaceAt .root).symbol? name = none) :
    ((d.table.namespaceAt .root).symbol? name).isSome = origin.namesType entries name := by
  have hfamilies := h.intact.formed.families
  rw [Bool.eq_iff_iff]
  constructor
  · intro hsome
    obtain ⟨x, hx⟩ := Option.isSome_iff_exists.1 hsome
    rcases h.symbol?_cases hintact hx with hold | ⟨-, hholds, hnew, rfl⟩
    · cases hnone.symm.trans hold
    · cases hcompanion : (d.table.kindOf x).isCompanion with
      | false =>
          -- no entry is chosen for an illegal name
          obtain ⟨-, e, hchosen, -⟩ := h.new hholds hnew hcompanion
          exact absurd ((opens_of_chosen hchosen).2.symm.trans hillegal) (by simp)
      | true =>
          -- a companion is the type of data that was entered
          obtain ⟨s, hkind⟩ := h.intact.formed.toRegular.type_of_companion hx hcompanion
          obtain ⟨data, shape, info, hdata, -, rfl⟩ := hfamilies.type hkind
          have hfamily := hfamilies.data hdata
          have hdataNew : ¬ origin.table.Holds data := by
            intro hold
            have hkind' : origin.table.kindOf data = .data shape info := by
              rw [← hdata, Table.kindOf, Table.kindOf, h.added.same hold]
            exact hnew (hintact.formed.families.data hkind').holds_constant
          obtain ⟨hknows', e, hchosen, hbears⟩ := h.new (Table.holds_of_data hdata) hdataNew
            (by rw [hdata]; rfl)
          have hkind := hbears.kind
          obtain ⟨hmem, hname⟩ := mem_of_chosen hchosen
          refine List.any_eq_true.2 ⟨e, hmem, ?_⟩
          rw [hname, hchosen, Option.any_some, ← hkind, SymbolKind.isData_outline, hdata,
            ← h.text hknows, hfamily.constant_text, h.text hknows']
          simp [SymbolKind.isData]
  · -- the data that is entered has a type of this name
    intro hnames
    obtain ⟨e, -, he⟩ := List.any_eq_true.1 hnames
    rw [Bool.and_eq_true, beq_iff_eq] at he
    obtain ⟨hany, htext⟩ := he
    cases hchosen : origin.chosen entries e.name with
    | none =>
        rw [hchosen] at hany
        cases hany
    | some e' =>
        rw [hchosen, Option.any_some] at hany
        obtain ⟨x, hx⟩ := h.entered hchosen
        obtain ⟨hfree, hlegal⟩ := opens_of_chosen hchosen
        obtain ⟨hholds, hhome, hname, -⟩ := h.intact.formed.arena.entry hx
        obtain ⟨_, hchosen', hbears⟩ := h.bears_of_symbol? hintact hlegal hfree hx
        obtain rfl := Option.some.inj (hchosen.symm.trans hchosen')
        have hknows' := (hintact.formed.proper.fitting_of_isLegalId hlegal).knows
        rw [← hbears.kind, SymbolKind.isData_outline] at hany
        cases hkind : d.table.kindOf x with
        | data shape info =>
            have hfamily := hfamilies.data hkind
            have hconstant := hfamily.holds_constant
            have hlisted := h.intact.formed.toRegular.symbol?_of_text hconstant
              (h.grown.knows hknows) (Bool.eq_false_iff.2 fun hempty => ?_) ?_
            · rw [hfamily.constant_home, hhome] at hlisted
              rw [hlisted]
              rfl
            · obtain ⟨_, hsort⟩ := (hfamilies.named hconstant).1 hempty
              rw [hfamily.constant_kind] at hsort
              cases hsort
            · rw [hfamily.constant_text, hname, h.text hknows, h.text hknows', htext]
        | _ =>
            rw [hkind] at hany
            cases hany

end

/-! ## Steps -/

/-- What is entered, added and reported on the way to a longer roster. -/
theorem advance {entries' : List Entry} {d' : Draft} (reports : List Report) (hintact : d'.Intact)
    (hgrown : d.names.Grown d'.names) (hadded : d.table.Added d'.table)
    (hroot : d.table.EntersRoot d'.table)
    (hkept : ∀ {name e}, origin.chosen entries name = some e →
      origin.chosen entries' name = some e)
    (hentered : ∀ {name e}, origin.chosen entries' name = some e →
      origin.chosen entries name = some e ∨
        ∃ x, (d'.table.namespaceAt .root).symbol? name = some x)
    (hnew : ∀ {x}, d'.table.Holds x → ¬ d.table.Holds x → (d'.table.kindOf x).isCompanion = false →
      origin.names.Knows (d'.table.symbolAt x).name ∧
        ∃ e, origin.chosen entries' (d'.table.symbolAt x).name = some e ∧ d'.table.Bears x e)
    (hreports : d'.table.reports = d.table.reports ++ reports)
    (hgather : gather origin.entryReports [] entries' =
      gather origin.entryReports [] entries ++ reports) : Roster origin entries' d' where
  intact := hintact
  grown := h.grown.trans hgrown
  added := h.added.trans hadded
  entersRoot := h.entersRoot.trans hroot
  entered hchosen := by
    rcases hentered hchosen with hbefore | hfound
    · obtain ⟨x, hx⟩ := h.entered hbefore
      exact ⟨x, hadded.later.symbol? hx⟩
    · exact hfound
  new {x} hx hnewer hcompanion := by
    by_cases hthere : d.table.Holds x
    · have hsame := hadded.same hthere
      rw [Table.kindOf, hsame] at hcompanion
      obtain ⟨hknows, e, hchosen, hbears⟩ := h.new hthere hnewer hcompanion
      rw [hsame]
      refine ⟨hknows, e, hkept hchosen, ?_, ?_, ?_, fun htacit => ?_⟩
      · rw [hsame, hbears.location]
      · rw [hsame, hbears.arity]
      · rw [Table.kindOf, hsame]
        exact hbears.kind
      · rw [Table.kindOf, hsame]
        exact hbears.tacit htacit
    · exact hnew hx hthere hcompanion
  reports_eq := by rw [hreports, h.reports_eq, hgather, List.append_assoc]

/-- Nothing is entered, and names stand for what they did. -/
theorem report {entries' : List Entry} {t : Table} (reports : List Report)
    (hchosen : ∀ name, origin.chosen entries' name = origin.chosen entries name)
    (hid : t.id = d.table.id) (hnamespaces : t.namespaces = d.table.namespaces)
    (hsymbols : t.symbols = d.table.symbols) (hreports : t.reports = d.table.reports ++ reports)
    (hgather : gather origin.entryReports [] entries' =
      gather origin.entryReports [] entries ++ reports) :
    Roster origin entries' { d with table := t } := by
  have hadded := Table.Added.of_eq hid hnamespaces hsymbols
  refine h.advance reports ?_ (.refl _) hadded (.of_eq hnamespaces) (fun hbefore => ?_)
    (fun hafter => ?_) (fun hx hnew => absurd ?_ hnew) hreports hgather
  · exact Table.Intact.of_symbols h.intact hsymbols hadded.later
      (h.intact.formed.toRegular.of_eq hnamespaces hsymbols)
  · rwa [hchosen]
  · rw [hchosen] at hafter
    exact .inl hafter
  · rw [Table.Holds, ← hsymbols]
    exact hx

/-- Only what is no matter of names is changed. -/
theorem of_eq {t : Table} (hid : t.id = d.table.id)
    (hnamespaces : t.namespaces = d.table.namespaces)
    (hsymbols : t.symbols = d.table.symbols) (hreports : t.reports = d.table.reports) :
    Roster origin entries { d with table := t } :=
  h.report [] (fun _ => rfl) hid hnamespaces hsymbols
    (hreports.trans (List.append_nil _).symm) (List.append_nil _).symm

/-- An entry whose name is not open or stands for another one is left out. -/
theorem refuse (hclosed : origin.Opens e.name → origin.chosen entries e.name ≠ none) {t : Table}
    (hid : t.id = d.table.id) (hnamespaces : t.namespaces = d.table.namespaces)
    (hsymbols : t.symbols = d.table.symbols)
    (hreports : t.reports = d.table.reports ++ origin.entryReports entries e) :
    Roster origin (entries ++ [e]) { d with table := t } := by
  refine h.report (origin.entryReports entries e) (fun name => ?_) hid hnamespaces hsymbols hreports
    (gather_snoc _ _ _ _)
  rw [chosen_snoc]
  split
  · next hopen =>
      obtain ⟨hopen, rfl⟩ := hopen
      obtain ⟨e', he'⟩ := Option.ne_none_iff_exists'.1 (hclosed hopen)
      rw [he', Option.some_or]
  · exact Option.or_none

/-- An entry of a name that is open and stands for nothing yet. -/
theorem enter {d' : Draft} (hopen : origin.Opens e.name)
    (hnone : origin.chosen entries e.name = none) (hknows : origin.names.Knows e.name)
    (hintact : d'.Intact) (hgrown : d.names.Grown d'.names) (hadded : d.table.Added d'.table)
    (hroot : d.table.EntersRoot d'.table)
    (hlisted : (d'.table.namespaceAt .root).symbol? e.name = some x)
    (hnew : ∀ {y}, d'.table.Holds y → ¬ d.table.Holds y → (d'.table.kindOf y).isCompanion = false →
      (d'.table.symbolAt y).name = e.name ∧ d'.table.Bears y e)
    (hreports : d'.table.reports = d.table.reports) : Roster origin (entries ++ [e]) d' := by
  have hsnoc : origin.chosen (entries ++ [e]) e.name = some e := by
    rw [chosen_snoc, hnone, Option.none_or, if_pos ⟨hopen, rfl⟩]
  have hsilent : origin.entryReports entries e = [] := by
    rw [entryReports, illegalId?, if_pos hopen.2, takenAt?, hopen.1, hnone]
    exact ite_self _
  refine h.advance [] hintact hgrown hadded hroot (fun hbefore => ?_)
    (fun hafter => ?_) (fun hy hthere hcompanion => ?_) ?_ ?_
  · rw [chosen_snoc, hbefore, Option.some_or]
  · rw [chosen_snoc] at hafter
    rcases Option.or_eq_some_iff.1 hafter with hbefore | ⟨-, hthis⟩
    · exact .inl hbefore
    · split at hthis
      · next hname => exact .inr ⟨x, hname.2 ▸ hlisted⟩
      · cases hthis
  · obtain ⟨hname, hbears⟩ := hnew hy hthere hcompanion
    rw [hname]
    exact ⟨hknows, e, hsnoc, hbears⟩
  · rw [List.append_nil, hreports]
  · rw [gather_snoc, List.nil_append, hsilent]

end Roster

end Draft

end ManySorted
