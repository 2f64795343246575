import ManySorted.Proofs.Name
import ManySorted.Proofs.Table.Arena

/-!
# Constructors and maps with their companions

A constructor or map, its sort and its type constant live in one namespace and point to each other.
The type constant is spelled with a hash sign in front, which no other symbol has, so its name is
free wherever the name of its data symbol is (`Families.free_hashed`).

## Strategy

* **What symbols are.**  Families depend on what symbols are, and not on what is written to them
  later (`Table.Families.of_blank`).
* **Names.**  No legal identifier starts with a hash sign (`not_hashed_of_isLegalId`), and a type
  constant is spelled like its data symbol behind one.  So its name is free where that of the data
  symbol is (`Table.Families.free_hashed`).
* **Registering.**  A symbol that is no data and no companion leaves all families as they are
  (`Table.Families.withSymbol`).  Data is registered together with its companions
  (`Table.withData`), which gives one more family (`Table.Families.withData`).
-/

namespace ManySorted

namespace SymbolKind

/-- The kind without what is written later. -/
def unsized : SymbolKind → SymbolKind
  | userSort d _ => userSort d none
  | kind => kind

/-- Whether the kind is built in. -/
def isBase : SymbolKind → Bool
  | baseSort _ | baseOperator _ | baseConstant _ => true
  | _ => false

/-- Whether the symbol is a companion. -/
def isCompanion : SymbolKind → Bool
  | userSort .. | userConstant (.type _) => true
  | _ => false

theorem unsized_eq_data {kind : SymbolKind} {shape : DataShape} {info : DataInfo} :
    kind.unsized = .data shape info ↔ kind = .data shape info := by
  cases kind <;> simp [unsized]

theorem unsized_eq_userConstant {kind : SymbolKind} {constant : ConstantKind} :
    kind.unsized = .userConstant constant ↔ kind = .userConstant constant := by
  cases kind <;> simp [unsized]

theorem unsized_eq_userSort {kind : SymbolKind} {data : SymbolId} :
    kind.unsized = .userSort data none ↔ ∃ size, kind = .userSort data size := by
  cases kind <;> simp [unsized, eq_comm]

theorem unsized_of_isBase {kind : SymbolKind} (h : kind.isBase = true) : kind.unsized = kind := by
  cases kind <;> first | rfl | cases h

theorem isBase_unsized (kind : SymbolKind) : kind.unsized.isBase = kind.isBase := by
  cases kind <;> rfl

end SymbolKind

/-- What a symbol is and where it stands, without what is written later. -/
def Symbol.blank (s : Symbol) : Symbol :=
  { s with kind := s.kind.unsized, canonical := none, origin := none, failed := false }

namespace Symbol

variable {s s' : Symbol}

theorem id_of_blank (h : s'.blank = s.blank) : s'.id = s.id :=
  show s'.blank.id = s.blank.id by rw [h]

theorem name_of_blank (h : s'.blank = s.blank) : s'.name = s.name :=
  show s'.blank.name = s.blank.name by rw [h]

theorem home_of_blank (h : s'.blank = s.blank) : s'.home = s.home :=
  show s'.blank.home = s.blank.home by rw [h]

theorem arity_of_blank (h : s'.blank = s.blank) : s'.arity = s.arity :=
  show s'.blank.arity = s.blank.arity by rw [h]

theorem location_of_blank (h : s'.blank = s.blank) : s'.location = s.location :=
  show s'.blank.location = s.blank.location by rw [h]

theorem kind_of_blank (h : s'.blank = s.blank) : s'.kind.unsized = s.kind.unsized :=
  show s'.blank.kind = s.blank.kind by rw [h]

end Symbol

/-- Whether a string starts with the sign of type constants. -/
def Hashed (s : String) : Prop := ∃ rest, s = "#" ++ rest

theorem not_hashed_of_isLegalId {s : String} (h : isLegalId s = true) : ¬ Hashed s := by
  rintro ⟨rest, rfl⟩
  obtain ⟨c, tail, hlist, halpha⟩ := exists_of_isLegalId h
  obtain rfl : '#' = c := by
    have hhead := congrArg List.head? hlist
    simpa using hhead
  exact absurd halpha (by decide)

namespace Table

variable {names names' : Interner} {t t' : Table} {home : NamespaceId} {id d : SymbolId}
  {name : Name} {arity : Nat} {location : Location} {kind : SymbolKind} {shape : DataShape}
  {info : DataInfo}

/-- Where symbols stand does not depend on what is written to them. -/
theorem Arena.of_blank (ht : t.Arena) (hnamespaces : t'.namespaces = t.namespaces)
    (hholds : ∀ id, t'.Holds id ↔ t.Holds id)
    (hblank : ∀ id, (t'.symbolAt id).blank = (t.symbolAt id).blank) : t'.Arena := by
  have hnode : ∀ ns, t'.namespaceAt ns = t.namespaceAt ns := fun ns => by
    rw [namespaceAt, namespaceAt, hnamespaces]
  have hhome : ∀ id, (t'.symbolAt id).home = (t.symbolAt id).home :=
    fun id => Symbol.home_of_blank (hblank id)
  have hname : ∀ id, (t'.symbolAt id).name = (t.symbolAt id).name :=
    fun id => Symbol.name_of_blank (hblank id)
  refine ⟨fun {id} hid => ?_, fun {id} hid => ?_, fun {id} hid hnamed => ?_,
    fun {ns key id} hentry => ?_⟩
  · rw [Symbol.id_of_blank (hblank id)]
    exact ht.id_eq ((hholds id).1 hid)
  · rw [HasNamespace, hnamespaces, hhome]
    exact ht.home ((hholds id).1 hid)
  · rw [hname] at hnamed
    rw [hnode, hhome, hname]
    exact ht.listed ((hholds id).1 hid) hnamed
  · rw [hnode] at hentry
    rw [hholds, hhome, hname]
    exact ht.entry hentry

/-- The companions of a data symbol. -/
structure Family (names : Interner) (t : Table) (d : SymbolId) (info : DataInfo) : Prop where
  sort_kind : (t.kindOf info.sort).unsized = .userSort d none
  sort_home : (t.symbolAt info.sort).home = (t.symbolAt d).home
  sort_arity : (t.symbolAt info.sort).arity = 0
  constant_kind : t.kindOf info.typeConstant = .userConstant (.type info.sort)
  constant_home : (t.symbolAt info.typeConstant).home = (t.symbolAt d).home
  constant_arity : (t.symbolAt info.typeConstant).arity = 0
  constant_text : names.text (t.symbolAt info.typeConstant).name =
    "#" ++ names.text (t.symbolAt d).name

/-- Data symbols and companions come together, and names tell them apart. -/
structure Families (names : Interner) (t : Table) : Prop where
  knows : ∀ {id}, t.Holds id → names.Knows (t.symbolAt id).name
  /-- Sorts, and they alone, go without a name. -/
  named : ∀ {id}, t.Holds id →
    ((t.symbolAt id).name.isEmpty = true ↔ ∃ d, (t.kindOf id).unsized = .userSort d none)
  plain : ∀ {id}, t.Holds id → (∀ s, t.kindOf id ≠ .userConstant (.type s)) →
    ¬ Hashed (names.text (t.symbolAt id).name)
  data : ∀ {d shape info}, t.kindOf d = .data shape info → t.Family names d info
  sort : ∀ {s d}, (t.kindOf s).unsized = .userSort d none →
    ∃ shape info, t.kindOf d = .data shape info ∧ info.sort = s
  type : ∀ {c s}, t.kindOf c = .userConstant (.type s) →
    ∃ d shape info, t.kindOf d = .data shape info ∧ info.sort = s ∧ info.typeConstant = c

theorem holds_of_data (h : t.kindOf d = .data shape info) : t.Holds d :=
  holds_of_kindOf (by rw [h]; simp)

theorem holds_of_constant {constant : ConstantKind} (h : t.kindOf d = .userConstant constant) :
    t.Holds d :=
  holds_of_kindOf (by rw [h]; simp)

theorem holds_of_sort (h : (t.kindOf id).unsized = .userSort d none) : t.Holds id := by
  refine holds_of_kindOf fun hcount => ?_
  rw [hcount] at h
  cases h

theorem dataOf?_eq_some_iff : t.dataOf? id = some d ↔ (t.kindOf id).unsized = .userSort d none := by
  unfold dataOf?
  split
  case h_1 data size hkind => simp [hkind, SymbolKind.unsized]
  case h_2 hother =>
    refine iff_of_false (by simp) fun h => ?_
    obtain ⟨size, hkind⟩ := SymbolKind.unsized_eq_userSort.1 h
    exact hother d size hkind

namespace Family

theorem holds_sort (h : t.Family names d info) : t.Holds info.sort := holds_of_sort h.sort_kind

theorem holds_constant (h : t.Family names d info) : t.Holds info.typeConstant :=
  holds_of_constant h.constant_kind

/-- A family only depends on what its three symbols are. -/
theorem of_blank (h : t.Family names d info)
    (hsame : ∀ id, t.Holds id → (t'.symbolAt id).blank = (t.symbolAt id).blank)
    (hd : t.Holds d) : t'.Family names d info := by
  have hsort := hsame _ h.holds_sort
  have hconstant := hsame _ h.holds_constant
  have hdata := hsame d hd
  have hhome := Symbol.home_of_blank hdata
  have hkind : (t'.kindOf info.typeConstant).unsized = (t.kindOf info.typeConstant).unsized :=
    Symbol.kind_of_blank hconstant
  refine ⟨(Symbol.kind_of_blank hsort).trans h.sort_kind,
    (Symbol.home_of_blank hsort).trans (h.sort_home.trans hhome.symm),
    (Symbol.arity_of_blank hsort).trans h.sort_arity, ?_,
    (Symbol.home_of_blank hconstant).trans (h.constant_home.trans hhome.symm),
    (Symbol.arity_of_blank hconstant).trans h.constant_arity, ?_⟩
  · rw [h.constant_kind] at hkind
    exact SymbolKind.unsized_eq_userConstant.1 hkind
  · rw [Symbol.name_of_blank hconstant, Symbol.name_of_blank hdata, h.constant_text]

end Family

namespace Families

/-- Names are only read, so more of them change nothing. -/
theorem grown (h : t.Families names) (hnames : names.Grown names') : t.Families names' where
  knows hid := hnames.knows (h.knows hid)
  named hid := h.named hid
  plain hid htype := by
    rw [hnames.text (h.knows hid)]
    exact h.plain hid htype
  data hd := by
    have hfamily := h.data hd
    refine { hfamily with constant_text := ?_ }
    rw [hnames.text (h.knows hfamily.holds_constant), hnames.text (h.knows (holds_of_data hd)),
      hfamily.constant_text]
  sort hs := h.sort hs
  type hc := h.type hc

/-- Families only depend on what the symbols are. -/
theorem of_blank (h : t.Families names) (hholds : ∀ id, t'.Holds id ↔ t.Holds id)
    (hsame : ∀ id, (t'.symbolAt id).blank = (t.symbolAt id).blank) : t'.Families names := by
  have hname : ∀ id, (t'.symbolAt id).name = (t.symbolAt id).name :=
    fun id => Symbol.name_of_blank (hsame id)
  have hkind : ∀ id, (t'.kindOf id).unsized = (t.kindOf id).unsized :=
    fun id => Symbol.kind_of_blank (hsame id)
  have hdata : ∀ {d shape info}, t'.kindOf d = .data shape info ↔
      t.kindOf d = .data shape info := by
    intro d shape info
    rw [← SymbolKind.unsized_eq_data, hkind, SymbolKind.unsized_eq_data]
  have htype : ∀ {c s}, t'.kindOf c = .userConstant (.type s) ↔
      t.kindOf c = .userConstant (.type s) := by
    intro c s
    rw [← SymbolKind.unsized_eq_userConstant, hkind, SymbolKind.unsized_eq_userConstant]
  refine ⟨fun {id} hid => ?_, fun {id} hid => ?_, fun {id} hid hother => ?_,
    fun {d shape info} hd => ?_, fun {s d} hs => ?_, fun {c s} hc => ?_⟩
  · rw [hname]
    exact h.knows ((hholds id).1 hid)
  · rw [hname, hkind]
    exact h.named ((hholds id).1 hid)
  · rw [hname]
    exact h.plain ((hholds id).1 hid) fun s hs => hother s (htype.2 hs)
  · have hd' := hdata.1 hd
    exact (h.data hd').of_blank (fun id _ => hsame id) (holds_of_data hd')
  · rw [hkind] at hs
    obtain ⟨shape, info, hd, rfl⟩ := h.sort hs
    exact ⟨shape, info, hdata.2 hd, rfl⟩
  · obtain ⟨d, shape, info, hd, hsort, hconstant⟩ := h.type (htype.1 hc)
    exact ⟨d, shape, info, hdata.2 hd, hsort, hconstant⟩

/-- What has a name is no sort. -/
theorem dataOf?_of_named (h : t.Families names) (hid : t.Holds id)
    (hnamed : (t.symbolAt id).name.isEmpty = false) : t.dataOf? id = none := by
  refine Option.eq_none_iff_forall_ne_some.2 fun d hd => ?_
  have hempty := (h.named hid).2 ⟨d, dataOf?_eq_some_iff.1 hd⟩
  exact Bool.noConfusion (hempty.symm.trans hnamed)

/-- What is no sort has a name. -/
theorem isEmpty_eq_false (h : t.Families names) (hid : t.Holds id) (hnone : t.dataOf? id = none) :
    (t.symbolAt id).name.isEmpty = false := by
  refine Bool.eq_false_iff.2 fun hempty => ?_
  obtain ⟨d, hd⟩ := (h.named hid).1 hempty
  cases hnone.symm.trans (dataOf?_eq_some_iff.2 hd)

/-- What has a name and a sort is a data symbol. -/
theorem data_of_sortOf? (h : t.Families names) (hid : t.Holds id)
    (hnamed : (t.symbolAt id).name.isEmpty = false) {sort : SymbolId}
    (hsort : t.sortOf? id = some sort) :
    ∃ shape info, t.kindOf id = .data shape info ∧ info.sort = sort := by
  unfold sortOf? at hsort
  split at hsort
  case h_1 data size hkind =>
    have hdata := h.dataOf?_of_named hid hnamed
    simp [dataOf?, hkind] at hdata
  case h_2 =>
    cases hkind : t.kindOf id with
    | data shape info => exact ⟨shape, info, rfl, by simpa [hkind, SymbolKind.info?] using hsort⟩
    | _ => simp [hkind, SymbolKind.info?] at hsort

theorem dataOf?_sort (h : t.Families names) (hd : t.kindOf d = .data shape info) :
    t.dataOf? info.sort = some d :=
  dataOf?_eq_some_iff.2 (h.data hd).sort_kind

/-! ## Registering one symbol -/

/-- A symbol that is no data and no companion leaves all families as they are. -/
theorem withSymbol (h : t.Families names) (hname : names.Knows name)
    (hnamed : name.isEmpty = false) (hplain : ¬ Hashed (names.text name))
    (hdata : kind.isData = false) (hcompanion : kind.isCompanion = false) :
    (t.withSymbol home name arity location kind).Families names := by
  have hkind : ∀ id, (t.withSymbol home name arity location kind).kindOf id =
      if id.index = t.symbols.size then kind else t.kindOf id := by
    intro id
    rw [kindOf, symbolAt_withSymbol]
    split <;> rfl
  have hold : ∀ {id}, t.Holds id →
      (t.withSymbol home name arity location kind).symbolAt id = t.symbolAt id := by
    intro id hid
    rw [symbolAt_withSymbol, if_neg (Nat.ne_of_lt hid)]
  -- The new symbol is neither data nor a companion, so every family is an old one.
  refine ⟨fun {id} hid => ?_, fun {id} hid => ?_, fun {id} hid hother => ?_,
    fun {d shape info} hd => ?_, fun {s d} hs => ?_, fun {c s} hc => ?_⟩
  · rw [symbolAt_withSymbol]
    split
    · exact hname
    · exact h.knows (Nat.lt_of_le_of_ne (holds_withSymbol.1 hid) ‹_›)
  · rw [symbolAt_withSymbol, hkind]
    split
    · constructor
      · intro hempty
        exact Bool.noConfusion (hempty.symm.trans hnamed)
      · rintro ⟨d, hsort⟩
        obtain ⟨size, rfl⟩ := SymbolKind.unsized_eq_userSort.1 hsort
        cases hcompanion
    · exact h.named (Nat.lt_of_le_of_ne (holds_withSymbol.1 hid) ‹_›)
  · rw [symbolAt_withSymbol]
    split
    · exact hplain
    · refine h.plain (Nat.lt_of_le_of_ne (holds_withSymbol.1 hid) ‹_›) fun s hs => ?_
      refine hother s ?_
      rw [hkind, if_neg ‹_›, hs]
  · rw [hkind] at hd
    split at hd
    · subst hd
      cases hdata
    · exact (h.data hd).of_blank (fun id hid => by rw [hold hid]) (holds_of_data hd)
  · rw [hkind] at hs
    split at hs
    · obtain ⟨size, rfl⟩ := SymbolKind.unsized_eq_userSort.1 hs
      cases hcompanion
    · obtain ⟨shape, info, hd, rfl⟩ := h.sort hs
      refine ⟨shape, info, ?_, rfl⟩
      rw [kindOf, hold (holds_of_data hd)]
      exact hd
  · rw [hkind] at hc
    split at hc
    · subst hc
      cases hcompanion
    · obtain ⟨d, shape, info, hd, hsort, hconstant⟩ := h.type hc
      refine ⟨d, shape, info, ?_, hsort, hconstant⟩
      rw [kindOf, hold (holds_of_data hd)]
      exact hd

/-! ## Registering a data symbol -/

/-- Where the name of a data symbol is free, so is that of its type constant. -/
theorem free_hashed (h : t.Families names) (hnames : names.Proper) (ht : t.Arena) {hashed : Name}
    (hname : names.Knows name) (hnamed : name.isEmpty = false)
    (hfree : (t.namespaceAt home).symbol? name = none)
    (hhashed : names.text hashed = "#" ++ names.text name) :
    (t.namespaceAt home).symbol? hashed = none := by
  refine Option.eq_none_iff_forall_ne_some.2 fun c hc => ?_
  obtain ⟨hcholds, hchome, hcname, _⟩ := ht.entry hc
  have htype : ∃ s, t.kindOf c = .userConstant (.type s) := by
    refine Classical.byContradiction fun hother => ?_
    refine h.plain hcholds (fun s hs => hother ⟨s, hs⟩) ⟨names.text name, ?_⟩
    rw [hcname, hhashed]
  -- the data symbol of that constant would have the name that is free
  obtain ⟨s, hs⟩ := htype
  obtain ⟨d, shape, info, hd, _, rfl⟩ := h.type hs
  have hfamily := h.data hd
  have htext : names.text (t.symbolAt d).name = names.text name := by
    have hboth := hfamily.constant_text
    rw [hcname, hhashed] at hboth
    exact (String.append_right_inj _).1 hboth.symm
  have hdname := hnames.text_inj (h.knows (holds_of_data hd)) hname htext
  have hlisted := ht.listed (holds_of_data hd) (hdname ▸ hnamed)
  rw [← hfamily.constant_home, hchome, hdname, hfree] at hlisted
  cases hlisted

end Families

/-- The table with one more data symbol and its companions. -/
def withData (t : Table) (hashed : Name) (home : NamespaceId) (name : Name) (arity : Nat)
    (location : Location) (shape : DataShape) (labels : List (Option Name)) (any : List Bool) :
    Table :=
  let sort : SymbolId := ⟨t.symbols.size + 1⟩
  let typeConstant : SymbolId := ⟨t.symbols.size + 2⟩
  let data := t.withSymbol home name arity location
    (.data shape { labels, any, sort, typeConstant })
  (data.withSymbol home .empty 0 location (.userSort ⟨t.symbols.size⟩ none)).withSymbol
    home hashed 0
    location (.userConstant (.type sort))

section

variable {hashed : Name} {labels : List (Option Name)} {any : List Bool}

theorem size_withData :
    (t.withData hashed home name arity location shape labels any).namespaces.size =
      t.namespaces.size :=
  (size_withSymbol.trans size_withSymbol).trans size_withSymbol

theorem holds_withData :
    (t.withData hashed home name arity location shape labels any).Holds id ↔
      id.index < t.symbols.size + 3 := by
  simp only [withData, withSymbol, Holds, Array.size_push]

/-- The three new symbols, and those that stay as they were. -/
theorem symbolAt_withData (id : SymbolId) :
    (t.withData hashed home name arity location shape labels any).symbolAt id =
      if id.index = t.symbols.size then
        { id, name, home, arity, location,
          kind := .data shape
            { labels, any, sort := ⟨t.symbols.size + 1⟩, typeConstant := ⟨t.symbols.size + 2⟩ } }
      else if id.index = t.symbols.size + 1 then
        { id, name := .empty, home, arity := 0, location,
          kind := .userSort ⟨t.symbols.size⟩ none }
      else if id.index = t.symbols.size + 2 then
        { id, name := hashed, home, arity := 0, location,
          kind := .userConstant (.type ⟨t.symbols.size + 1⟩) }
      else t.symbolAt id := by
  have hsize : ∀ (t : Table) (name : Name) (arity : Nat) (kind : SymbolKind),
      (t.withSymbol home name arity location kind).symbols.size = t.symbols.size + 1 := by
    simp [withSymbol]
  simp only [withData, symbolAt_withSymbol, hsize]
  by_cases hdata : id.index = t.symbols.size
  · rw [if_neg (by omega), if_neg (by omega), if_pos hdata, if_pos hdata]
  · by_cases hsort : id.index = t.symbols.size + 1
    · rw [if_neg (by omega), if_pos hsort, if_neg hdata, if_pos hsort]
    · rw [if_neg hsort, if_neg hdata, if_neg hdata, if_neg hsort]

/-- The symbols of a table with one more family: a new one of the three, or an old one. -/
theorem holds_withData_cases
    (h : (t.withData hashed home name arity location shape labels any).Holds id) :
    id = ⟨t.symbols.size⟩ ∨ id = ⟨t.symbols.size + 1⟩ ∨ id = ⟨t.symbols.size + 2⟩ ∨
      t.Holds id := by
  have hlt := holds_withData.1 h
  cases id
  simp only [SymbolId.mk.injEq, Holds] at hlt ⊢
  omega

theorem symbolAt_withData_of_holds (hid : t.Holds id) :
    (t.withData hashed home name arity location shape labels any).symbolAt id =
      t.symbolAt id := by
  have hlt : id.index < t.symbols.size := hid
  rw [symbolAt_withData, if_neg (by omega), if_neg (by omega), if_neg (by omega)]

theorem Tree.withData (ht : t.Tree) :
    (t.withData hashed home name arity location shape labels any).Tree :=
  ht.withSymbol.withSymbol.withSymbol

theorem symbol?_withData (hhome : t.HasNamespace home) (hnamed : name.isEmpty = false)
    (hhashed : hashed.isEmpty = false) (hne : hashed ≠ name) (ns : NamespaceId) (key : Name) :
    ((t.withData hashed home name arity location shape labels any).namespaceAt ns).symbol? key =
      if ns = home ∧ key = name then some ⟨t.symbols.size⟩
      else if ns = home ∧ key = hashed then some ⟨t.symbols.size + 2⟩
      else (t.namespaceAt ns).symbol? key := by
  simp only [Table.withData]
  rw [symbol?_withSymbol (by simpa using hhome), symbol?_withSymbol (by simpa using hhome),
    symbol?_withSymbol hhome]
  have hempty : Name.empty.isEmpty ≠ false := by decide
  by_cases hns : ns = home
  · by_cases hkey : key = name
    · have hother : key ≠ hashed := fun h => hne (h.symm.trans hkey)
      simp [hns, hkey, hnamed, hempty, Ne.symm hne]
    · simp [hns, hkey, hhashed, hempty, withSymbol]
  · simp [hns]

theorem Arena.withData (ht : t.Arena) (hhome : t.HasNamespace home) (hne : hashed ≠ name)
    (hfree : (t.namespaceAt home).symbol? name = none)
    (hfree' : (t.namespaceAt home).symbol? hashed = none) :
    (t.withData hashed home name arity location shape labels any).Arena := by
  refine ((ht.withSymbol hhome (.inr hfree)).withSymbol (by simpa using hhome)
    (.inl rfl)).withSymbol (by simpa using hhome) (.inr ?_)
  rw [symbol?_withSymbol (by simpa using hhome), if_neg (fun h => by cases h.1),
    symbol?_withSymbol hhome, if_neg (fun h => hne h.2.2), hfree']

theorem Families.withData (h : t.Families names) (hname : names.Knows name)
    (hnamed : name.isEmpty = false) (hplain : ¬ Hashed (names.text name))
    (hempty : names.Knows .empty) (hemptyText : names.text .empty = "")
    (hhashed : names.Knows hashed) (hhashedNamed : hashed.isEmpty = false)
    (hhashedText : names.text hashed = "#" ++ names.text name) :
    (t.withData hashed home name arity location shape labels any).Families names := by
  have hkeep : ∀ {d shape' info}, t.kindOf d = .data shape' info →
      (t.withData hashed home name arity location shape labels any).kindOf d =
        .data shape' info := by
    intro d shape' info hkind
    rw [kindOf, symbolAt_withData_of_holds (holds_of_data hkind)]
    exact hkind
  -- A symbol is the new data, its sort, its type, or an old symbol.
  refine ⟨fun {id} hid => ?_, fun {id} hid => ?_, fun {id} hid hother => ?_,
    fun {d shape' info} hd => ?_, fun {s d} hs => ?_, fun {c s} hc => ?_⟩
  · rcases holds_withData_cases hid with rfl | rfl | rfl | hold
    · simpa [symbolAt_withData] using hname
    · simpa [symbolAt_withData] using hempty
    · simpa [symbolAt_withData] using hhashed
    · rw [symbolAt_withData_of_holds hold]
      exact h.knows hold
  · rcases holds_withData_cases hid with rfl | rfl | rfl | hold
    · simp [kindOf, symbolAt_withData, hnamed, SymbolKind.unsized]
    · simp [kindOf, symbolAt_withData, SymbolKind.unsized, Name.isEmpty, Name.empty]
    · simp [kindOf, symbolAt_withData, hhashedNamed, SymbolKind.unsized]
    · rw [kindOf, symbolAt_withData_of_holds hold]
      exact h.named hold
  · rcases holds_withData_cases hid with rfl | rfl | rfl | hold
    · simpa [symbolAt_withData] using hplain
    · simp only [symbolAt_withData]
      rintro ⟨rest, hrest⟩
      simpa [hemptyText] using congrArg String.toList hrest
    · exact absurd (by simp [kindOf, symbolAt_withData]) (hother ⟨t.symbols.size + 1⟩)
    · rw [kindOf, symbolAt_withData_of_holds hold] at hother
      rw [symbolAt_withData_of_holds hold]
      exact h.plain hold hother
  · rcases holds_withData_cases (holds_of_data hd) with rfl | rfl | rfl | hold
    · obtain ⟨rfl, rfl⟩ : shape = shape' ∧ _ = info := by
        simpa [kindOf, symbolAt_withData] using hd
      constructor <;> simp [kindOf, symbolAt_withData, SymbolKind.unsized, hhashedText]
    · simp [kindOf, symbolAt_withData] at hd
    · simp [kindOf, symbolAt_withData] at hd
    · rw [kindOf, symbolAt_withData_of_holds hold] at hd
      exact (h.data hd).of_blank (fun id hid => by rw [symbolAt_withData_of_holds hid]) hold
  · rcases holds_withData_cases (holds_of_sort hs) with rfl | rfl | rfl | hold
    · simp [kindOf, symbolAt_withData, SymbolKind.unsized] at hs
    · obtain rfl : ⟨t.symbols.size⟩ = d := by
        simpa [kindOf, symbolAt_withData, SymbolKind.unsized] using hs
      exact ⟨shape, _, by simp [kindOf, symbolAt_withData]; rfl, rfl⟩
    · simp [kindOf, symbolAt_withData, SymbolKind.unsized] at hs
    · rw [kindOf, symbolAt_withData_of_holds hold] at hs
      obtain ⟨shape', info, hd, rfl⟩ := h.sort hs
      exact ⟨shape', info, hkeep hd, rfl⟩
  · rcases holds_withData_cases (holds_of_constant hc) with rfl | rfl | rfl | hold
    · simp [kindOf, symbolAt_withData] at hc
    · simp [kindOf, symbolAt_withData] at hc
    · obtain rfl : ⟨t.symbols.size + 1⟩ = s := by
        simpa [kindOf, symbolAt_withData] using hc
      exact ⟨⟨t.symbols.size⟩, shape, _, by simp [kindOf, symbolAt_withData]; rfl, rfl, rfl⟩
    · rw [kindOf, symbolAt_withData_of_holds hold] at hc
      obtain ⟨d, shape', info, hd, hsort, hconstant⟩ := h.type hc
      exact ⟨d, shape', info, hkeep hd, hsort, hconstant⟩

end

end Table

end ManySorted
