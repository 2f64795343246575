import ManySorted.Proofs.Table.Growth

/-!
# Well-formed tables

A table is well formed if its namespaces are a tree, its symbols stand where they are listed, data
symbols have their companions, and the built-in symbols are in the root under their own names.  A
new table is well formed (`wellFormed_create`), and so is every table that grows out of it by
registering symbols whose names fit.

## Strategy

* **The parts.**  A table that hangs together is a tree with arenas and families that fit each other
  (`Table.Regular`), and the built-in symbols come on top of that (`Table.WellFormed`).  What is
  written to symbols makes no difference to either (`Table.Regular.of_blank`).
* **Growing.**  Namespaces are added one by one (`Table.Regular.childNamespace`).  A symbol is added
  if its name fits its kind (`Table.Regular.withSymbol`).
* **Data symbols.**  They come with a sort and a constant.  The name of the constant is still free
  when the other two are there (`Table.DataRegistered.free_constant`), so all three are registered
  or none (`Table.Regular.registerData_cases`).
* **New tables.**  Nothing is wrong with the empty root, and the built-in symbols are entered one
  after the other (`Table.Regular.foldl_addBuiltin`).
-/

namespace ManySorted

namespace SymbolKind

/-- The spelling of what is built in. -/
def baseName : SymbolKind → String
  | baseSort sort => sort.name
  | baseOperator op => op.name
  | baseConstant constant => constant.name
  | _ => ""

/-- The arity of what is built in. -/
def baseArity : SymbolKind → Nat
  | baseOperator op => op.arity
  | _ => 0

/-- Whether symbols of the kind live in the root only, also when they are imported under a
renaming. -/
def staysInRoot : SymbolKind → Bool
  | baseOperator _ | baseConstant _ => true
  | kind => kind.mergesIntoRoot

theorem staysInRoot_unsized (kind : SymbolKind) : kind.unsized.staysInRoot = kind.staysInRoot := by
  cases kind <;> rfl

theorem isBase_or_mergesIntoRoot {kind : SymbolKind} (h : kind.staysInRoot = true) :
    kind.isBase = true ∨ kind.mergesIntoRoot = true := by
  cases kind <;> first | exact .inl rfl | exact .inr h

theorem mergesIntoRoot_unsized (kind : SymbolKind) :
    kind.unsized.mergesIntoRoot = kind.mergesIntoRoot := by
  cases kind <;> rfl

end SymbolKind

namespace Table

variable {names names' : Interner} {t t' : Table} {home p : NamespaceId} {id : SymbolId}
  {name : Name} {arity : Nat} {location : Location} {kind : SymbolKind} {shape : DataShape}
  {labels : List (Option Name)} {any : List Bool}

/-- The table hangs together, whatever it holds. -/
structure Regular (names : Interner) (t : Table) : Prop where
  proper : names.Proper
  tree : t.Tree
  arena : t.Arena
  families : t.Families names
  spelled : ∀ {id}, t.Holds id → (t.kindOf id).isBase = true →
    names.text (t.symbolAt id).name = (t.kindOf id).baseName ∧
      (t.symbolAt id).arity = (t.kindOf id).baseArity
  rooted : ∀ {id}, t.Holds id → (t.kindOf id).staysInRoot = true → (t.symbolAt id).home = .root

/-- The table hangs together and has the built-in symbols. -/
structure WellFormed (names : Interner) (t : Table) : Prop extends t.Regular names where
  present : ∀ {kind : SymbolKind}, kind.isBase = true →
    ∃ id, t.Holds id ∧ (t.symbolAt id).home = .root ∧ t.kindOf id = kind

/-- The built-in symbols are settled, so they stay. -/
theorem WellFormed.later (h : t.WellFormed names) (hlater : t.Later t')
    (h' : t'.Regular names') : t'.WellFormed names' := by
  refine { h' with present := fun {kind} hkind => ?_ }
  obtain ⟨id, hid, hhome, rfl⟩ := h.present hkind
  have hsame : t'.symbolAt id = t.symbolAt id :=
    (hlater.symbol hid).settled (Symbol.isSettled_of_isBase hkind)
  exact ⟨id, hlater.holds hid, by rw [hsame, hhome], by rw [kindOf, hsame]; rfl⟩

/-- What is built in is no sort of data. -/
theorem dataOf?_of_isBase {id : SymbolId} (hbase : (t.kindOf id).isBase = true) :
    t.dataOf? id = none := by
  rw [dataOf?]
  cases hkind : t.kindOf id with
  | userSort =>
      rw [hkind] at hbase
      cases hbase
  | _ => rfl

/-- The built-in symbols of any table are there, in the root. -/
theorem WellFormed.exists_builtin {second : Table} {r : SymbolId} (h : t.WellFormed names)
    (hsecond : second.Regular names) (hr : second.Holds r)
    (hbase : (second.kindOf r).isBase = true) :
    ∃ x, t.Holds x ∧ t.kindOf x = second.kindOf r ∧
      (t.symbolAt x).name = (second.symbolAt r).name ∧
      (t.symbolAt x).arity = (second.symbolAt r).arity ∧
      (t.namespaceAt .root).symbol? (second.symbolAt r).name = some x := by
  obtain ⟨x, hx, hhome, hkind⟩ := h.present hbase
  obtain ⟨htext, harity⟩ := hsecond.spelled hr hbase
  obtain ⟨htext', harity'⟩ := h.spelled hx (hkind ▸ hbase)
  have hname : (t.symbolAt x).name = (second.symbolAt r).name :=
    h.proper.text_inj (h.families.knows hx) (hsecond.families.knows hr)
      (by rw [htext, htext', hkind])
  refine ⟨x, hx, hkind, hname, by rw [harity, harity', hkind], ?_⟩
  rw [← hname, ← hhome]
  exact h.arena.listed hx (h.families.isEmpty_eq_false hx (dataOf?_of_isBase (hkind ▸ hbase)))

/-- What has the name of a built-in symbol in the root is that symbol. -/
theorem WellFormed.kindOf_of_name {second : Table} {other : SymbolId} (h : t.WellFormed names)
    (hsecond : second.Regular names) (hid : t.Holds id) (hroot : (t.symbolAt id).home = .root)
    (hother : second.Holds other) (hbase : (second.kindOf other).isBase = true)
    (hname : (second.symbolAt other).name = (t.symbolAt id).name) :
    t.kindOf id = second.kindOf other := by
  obtain ⟨b, hb, hhome, hkind⟩ := h.present hbase
  have htext : names.text (t.symbolAt b).name = names.text (second.symbolAt other).name := by
    rw [(h.spelled hb (by rw [hkind, hbase])).1, (hsecond.spelled hother hbase).1, hkind]
  have hsame : (t.symbolAt b).name = (t.symbolAt id).name := by
    rw [← hname]
    exact h.proper.text_inj (h.families.knows hb) (hsecond.families.knows hother) htext
  have hnamed : (t.symbolAt b).name.isEmpty = false := by
    rw [← Bool.not_eq_true, h.families.named hb]
    rintro ⟨d, hd⟩
    rw [hkind] at hd
    generalize second.kindOf other = kind at hbase hd
    cases kind <;> first | (cases hbase; done) | cases hd
  obtain rfl : b = id := by
    apply h.arena.eq_of_home_of_name hb hid hnamed _ hsame
    rw [hhome, hroot]
  exact hkind

namespace Regular

/-- A full path leads to one symbol. -/
theorem eq_of_path {x y : SymbolId} (h : t.Regular names) (hx : t.Holds x) (hy : t.Holds y)
    (hnamed : (t.symbolAt x).name.isEmpty = false)
    (hpath : t.path (t.symbolAt x).home = t.path (t.symbolAt y).home)
    (hname : (t.symbolAt x).name = (t.symbolAt y).name) : x = y :=
  h.arena.eq_of_home_of_name hx hy hnamed
    (h.tree.path_inj (h.arena.home hx) (h.arena.home hy) hpath) hname

/-- A named symbol is determined by what it is spelled like and where it lives. -/
theorem symbol?_of_text (h : t.Regular names) (hid : t.Holds id) (hname : names.Knows name)
    (hnamed : (t.symbolAt id).name.isEmpty = false)
    (htext : names.text (t.symbolAt id).name = names.text name) :
    (t.namespaceAt (t.symbolAt id).home).symbol? name = some id := by
  have hsame := h.proper.text_inj (h.families.knows hid) hname htext
  rw [← hsame]
  exact h.arena.listed hid hnamed

/-- A data symbol has one sort. -/
theorem eq_of_dataOf? {s s' d : SymbolId} (h : t.Regular names) (hs : t.dataOf? s = some d)
    (hs' : t.dataOf? s' = some d) : s = s' := by
  obtain ⟨shape, info, hd, rfl⟩ := h.families.sort (dataOf?_eq_some_iff.1 hs)
  obtain ⟨shape', info', hd', rfl⟩ := h.families.sort (dataOf?_eq_some_iff.1 hs')
  rw [hd] at hd'
  cases hd'
  rfl

theorem knows_empty (h : names.Proper) : names.Knows .empty :=
  (Array.getElem?_eq_some_iff.1 h.first).1

theorem text_empty (h : names.Proper) : names.text .empty = "" :=
  (h.isEmpty_iff (knows_empty h)).1 rfl

theorem grown (h : t.Regular names) (hnames : names.Grown names') (hproper : names'.Proper) :
    t.Regular names' where
  proper := hproper
  tree := h.tree
  arena := h.arena
  families := h.families.grown hnames
  spelled hid hbase := by
    rw [hnames.text (h.families.knows hid)]
    exact h.spelled hid hbase
  rooted := h.rooted

/-- Whether a table hangs together does not depend on what is written to its symbols. -/
theorem of_blank (h : t.Regular names) (hnamespaces : t'.namespaces = t.namespaces)
    (hholds : ∀ id, t'.Holds id ↔ t.Holds id)
    (hblank : ∀ id, (t'.symbolAt id).blank = (t.symbolAt id).blank) : t'.Regular names := by
  have hkind : ∀ id, (t'.kindOf id).unsized = (t.kindOf id).unsized :=
    fun id => Symbol.kind_of_blank (hblank id)
  refine ⟨h.proper, h.tree.of_eq hnamespaces, h.arena.of_blank hnamespaces hholds hblank,
    h.families.of_blank hholds hblank, fun {id} hid hbase => ?_, fun {id} hid hroot => ?_⟩
  · have hold : (t.kindOf id).isBase = true := by
      rwa [← SymbolKind.isBase_unsized, hkind, SymbolKind.isBase_unsized] at hbase
    have hsame : t'.kindOf id = t.kindOf id := by
      rw [← SymbolKind.unsized_of_isBase hbase, hkind, SymbolKind.unsized_of_isBase hold]
    rw [Symbol.name_of_blank (hblank id), Symbol.arity_of_blank (hblank id), hsame]
    exact h.spelled ((hholds id).1 hid) hold
  · rw [← SymbolKind.staysInRoot_unsized, hkind, SymbolKind.staysInRoot_unsized] at hroot
    rw [Symbol.home_of_blank (hblank id)]
    exact h.rooted ((hholds id).1 hid) hroot

theorem touched {ids : List SymbolId} (h : t.Regular names) (htouched : Touched ids t t') :
    t'.Regular names :=
  h.of_blank htouched.namespaces_eq htouched.holds htouched.blank

/-- Whatever changes but the namespaces and symbols. -/
theorem of_eq (h : t.Regular names) (hnamespaces : t'.namespaces = t.namespaces)
    (hsymbols : t'.symbols = t.symbols) : t'.Regular names :=
  h.of_blank hnamespaces (fun id => by rw [Holds, Holds, hsymbols])
    fun id => by rw [symbolAt, symbolAt, hsymbols]

theorem withChild (h : t.Regular names) (hp : t.HasNamespace p)
    (hfree : (t.namespaceAt p).child? name = none) : (t.withChild p name).Regular names where
  proper := h.proper
  tree := h.tree.withChild hp hfree
  arena := h.arena.withChild
  families := h.families.of_blank (fun _ => Iff.rfl) fun _ => rfl
  spelled := h.spelled
  rooted := h.rooted

/-- Changing what is written to a symbol. -/
theorem updateSymbol (h : t.Regular names) {f : Symbol → Symbol}
    (hf : ∀ s, (f s).blank = s.blank) : (t.updateSymbol id f).Regular names := by
  refine h.of_blank rfl (fun _ => holds_updateSymbol) fun other => ?_
  rw [symbolAt_updateSymbol]
  split
  · exact hf _
  · rfl

theorem childNamespace (h : t.Regular names) (hp : t.HasNamespace p) (name : Name) :
    (t.childNamespace p name).2.Regular names ∧ t.Later (t.childNamespace p name).2 ∧
      ((t.childNamespace p name).2.namespaceAt p).child? name = some (t.childNamespace p name).1 ∧
      (t.childNamespace p name).2.symbols = t.symbols := by
  rcases t.childNamespace_cases p name with ⟨c, hc, heq⟩ | ⟨hfree, heq⟩
  · rw [heq]
    exact ⟨h, .refl t, hc, rfl⟩
  · rw [heq]
    refine ⟨h.withChild hp hfree, later_withChild hp hfree, ?_, rfl⟩
    rw [child?_withChild hp, if_pos ⟨rfl, rfl⟩]

/-- Registering a symbol whose name fits its kind. -/
theorem withSymbol (h : t.Regular names) (hhome : t.HasNamespace home)
    (hfree : (t.namespaceAt home).symbol? name = none) (hname : names.Knows name)
    (hnamed : name.isEmpty = false) (hplain : ¬ Hashed (names.text name))
    (hdata : kind.isData = false) (hcompanion : kind.isCompanion = false)
    (hbase : kind.isBase = true → names.text name = kind.baseName ∧ arity = kind.baseArity)
    (hroot : kind.staysInRoot = true → home = .root) :
    (t.withSymbol home name arity location kind).Regular names where
  proper := h.proper
  tree := h.tree.withSymbol
  arena := h.arena.withSymbol hhome (.inr hfree)
  families := h.families.withSymbol hname hnamed hplain hdata hcompanion
  spelled {other} hother := by
    rw [kindOf, symbolAt_withSymbol]
    split
    · exact hbase
    · exact h.spelled (Nat.lt_of_le_of_ne (holds_withSymbol.1 hother) ‹_›)
  rooted {other} hother := by
    rw [kindOf, symbolAt_withSymbol]
    split
    · exact hroot
    · exact h.rooted (Nat.lt_of_le_of_ne (holds_withSymbol.1 hother) ‹_›)

end Regular

theorem WellFormed.grown (h : t.WellFormed names) (hnames : names.Grown names')
    (hproper : names'.Proper) : t.WellFormed names' :=
  ⟨h.toRegular.grown hnames hproper, h.present⟩

/-! ## Registering a data symbol -/

theorem later_withData {hashed : Name} (hhome : t.HasNamespace home) (hne : hashed ≠ name)
    (hfree : (t.namespaceAt home).symbol? name = none)
    (hfree' : (t.namespaceAt home).symbol? hashed = none) :
    t.Later (t.withData hashed home name arity location shape labels any) := by
  refine ((later_withSymbol hhome (.inr hfree)).trans
    (later_withSymbol (by simpa using hhome) (.inl rfl))).trans
    (later_withSymbol (by simpa using hhome) (.inr ?_))
  rw [symbol?_withSymbol (by simpa using hhome), if_neg (fun h => by cases h.1),
    symbol?_withSymbol hhome, if_neg (fun h => hne h.2.2), hfree']

/-- What registering a data symbol under a free name yields. -/
structure DataRegistered (names : Interner) (t : Table) (home : NamespaceId) (name : Name)
    (hashed : Name) (names' : Interner) : Prop where
  grown : names.Grown names'
  proper : names'.Proper
  knows : names'.Knows hashed
  named : hashed.isEmpty = false
  text : names'.text hashed = "#" ++ names'.text name
  ne : hashed ≠ name
  free : (t.namespaceAt home).symbol? hashed = none

theorem Regular.dataRegistered (h : t.Regular names) (hname : names.Knows name)
    (hnamed : name.isEmpty = false) (hplain : ¬ Hashed (names.text name))
    (hfree : (t.namespaceAt home).symbol? name = none) :
    DataRegistered names t home name (names.intern ("#" ++ names.text name)).1
      (names.intern ("#" ++ names.text name)).2 := by
  have hgrown := names.grown_intern ("#" ++ names.text name)
  have hproper := h.proper.intern ("#" ++ names.text name)
  have hknows := names.knows_intern ("#" ++ names.text name)
  have hsame := hgrown.text hname
  have htext := names.text_intern ("#" ++ names.text name)
  refine ⟨hgrown, hproper, hknows, ?_, by rw [htext, hsame], ?_, ?_⟩
  · refine Bool.eq_false_iff.2 fun hempty => ?_
    rw [hproper.isEmpty_iff hknows, htext] at hempty
    simpa using congrArg String.toList hempty
  · intro heq
    rw [heq, hsame] at htext
    exact hplain ⟨_, htext⟩
  · exact (h.families.grown hgrown).free_hashed hproper h.arena (hgrown.knows hname) hnamed hfree
      (by rw [htext, hsame])

/-- The name of the type constant stays free while the data symbol and the sort are registered. -/
theorem DataRegistered.free_constant {hashed : Name}
    (h : DataRegistered names t home name hashed names') (arity : Nat) (location : Location)
    (kind kind' : SymbolKind) : ((t.withSymbol home name arity location kind).withSymbol home
      .empty 0 location kind').Free home hashed := by
  refine .inr ?_
  rw [namespaceAt_withSymbol, if_neg (fun h => by cases h.1), namespaceAt_withSymbol]
  split
  case isTrue =>
    rw [Namespace.symbol?, Namespace.withSymbol, lookup_enter, if_neg h.ne]
    exact h.free
  case isFalse => exact h.free

theorem Regular.withData {hashed : Name} (h : t.Regular names) (hhome : t.HasNamespace home)
    (hname : names.Knows name) (hnamed : name.isEmpty = false)
    (hplain : ¬ Hashed (names.text name)) (hfree : (t.namespaceAt home).symbol? name = none)
    (hdata : DataRegistered names t home name hashed names') :
    (t.withData hashed home name arity location shape labels any).Regular names' := by
  have hold := h.grown hdata.grown hdata.proper
  have hplain' : ¬ Hashed (names'.text name) := by rwa [hdata.grown.text hname]
  refine ⟨hdata.proper, h.tree.withData, h.arena.withData hhome hdata.ne hfree hdata.free,
    hold.families.withData (hdata.grown.knows hname) hnamed hplain'
      (Regular.knows_empty hdata.proper) (Regular.text_empty hdata.proper) hdata.knows hdata.named
      hdata.text,
    fun {id} hid => ?_, fun {id} hid => ?_⟩
  · rcases holds_withData_cases hid with rfl | rfl | rfl | hid
    · simp [kindOf, symbolAt_withData, SymbolKind.isBase]
    · simp [kindOf, symbolAt_withData, SymbolKind.isBase]
    · simp [kindOf, symbolAt_withData, SymbolKind.isBase]
    · rw [kindOf, symbolAt_withData_of_holds hid]
      exact hold.spelled hid
  · rcases holds_withData_cases hid with rfl | rfl | rfl | hid
    · simp [kindOf, symbolAt_withData, SymbolKind.staysInRoot, SymbolKind.mergesIntoRoot]
    · simp [kindOf, symbolAt_withData, SymbolKind.staysInRoot, SymbolKind.mergesIntoRoot]
    · simp [kindOf, symbolAt_withData, SymbolKind.staysInRoot, SymbolKind.mergesIntoRoot,
        ConstantKind.mergesIntoRoot]
    · rw [kindOf, symbolAt_withData_of_holds hid]
      exact hold.rooted hid

/-- A data symbol is registered with both companions, unless its name is taken. -/
theorem Regular.registerData_cases (h : t.Regular names) (hname : names.Knows name)
    (hnamed : name.isEmpty = false) (hplain : ¬ Hashed (names.text name)) (home : NamespaceId)
    (arity : Nat) (location : Location) (shape : DataShape) (labels : List (Option Name))
    (any : List Bool) :
    (∃ existing, (t.namespaceAt home).symbol? name = some existing ∧
        t.registerData names home name arity location shape labels any = .error existing) ∨
      ((t.namespaceAt home).symbol? name = none ∧ ∃ hashed names',
        t.registerData names home name arity location shape labels any =
          .ok (⟨t.symbols.size⟩, names',
            t.withData hashed home name arity location shape labels any) ∧
        DataRegistered names t home name hashed names') := by
  rcases t.register_cases home name arity location (.data shape
    { labels, any, sort := ⟨t.symbols.size + 1⟩, typeConstant := ⟨t.symbols.size + 2⟩ }) with
    ⟨hfree, hregister⟩ | ⟨existing, hfound, hregister⟩
  · refine .inr ?_
    have hnone := hfree.of_named hnamed
    have hdata := h.dataRegistered hname hnamed hplain hnone
    refine ⟨hnone, _, _, ?_, hdata⟩
    have hsort : ∀ kind, (t.withSymbol home name arity location kind).Free home .empty :=
      fun _ => .inl rfl
    simp only [registerData, hregister]
    rw [registerIfFree_of_free (hsort _), registerIfFree_of_free (hdata.free_constant ..)]
    rfl
  · exact .inl ⟨existing, hfound, by simp [registerData, hregister]⟩

/-! ## The built-in symbols -/

theorem isBase_of_mem_builtins {b : String × Nat × SymbolKind} (hb : b ∈ builtins) :
    b.2.2.isBase = true ∧ b.1 = b.2.2.baseName ∧ b.2.1 = b.2.2.baseArity := by
  simp only [builtins, List.mem_append, List.mem_map] at hb
  rcases hb with (⟨sort, _, rfl⟩ | ⟨op, _, rfl⟩) | ⟨constant, _, rfl⟩ <;> exact ⟨rfl, rfl, rfl⟩

theorem mem_builtins_of_isBase (h : kind.isBase = true) :
    (kind.baseName, kind.baseArity, kind) ∈ builtins := by
  simp only [builtins, List.mem_append, List.mem_map]
  cases kind with
  | baseSort sort => exact .inl (.inl ⟨sort, by cases sort <;> decide, rfl⟩)
  | baseOperator op => exact .inl (.inr ⟨op, by cases op <;> decide, rfl⟩)
  | baseConstant constant => exact .inr ⟨constant, by cases constant <;> decide, rfl⟩
  | userSort | data | union | userConstant => cases h

theorem nodup_builtins : (builtins.map Prod.fst).Nodup := by decide +kernel

/-- No built-in symbol is spelled like a type constant, or without letters. -/
theorem plain_of_mem_builtins {text : String} (h : text ∈ builtins.map Prod.fst) :
    ¬ Hashed text ∧ text ≠ "" := by
  have hall : ∀ text ∈ builtins.map Prod.fst, text.toList.head? ≠ some '#' ∧ text ≠ "" := by
    decide +kernel
  refine ⟨?_, (hall text h).2⟩
  rintro ⟨rest, rfl⟩
  exact (hall _ h).1 (by simp)

/-- Entering a built-in symbol that is not there yet. -/
theorem Regular.addBuiltin {text : String} (h : t.Regular names)
    (hb : (text, arity, kind) ∈ builtins)
    (hnew : ∀ id, t.Holds id → names.text (t.symbolAt id).name ≠ text) :
    addBuiltin (names, t) (text, arity, kind) =
        ((names.intern text).2, t.withSymbol .root (names.intern text).1 arity .generated kind) ∧
      (t.withSymbol .root (names.intern text).1 arity .generated kind).Regular
        (names.intern text).2 ∧
      t.Later (t.withSymbol .root (names.intern text).1 arity .generated kind) := by
  obtain ⟨hbase, htext, harity⟩ := isBase_of_mem_builtins hb
  have hplain : ¬ Hashed text ∧ text ≠ "" := plain_of_mem_builtins (List.mem_map.2 ⟨_, hb, rfl⟩)
  have hgrown := names.grown_intern text
  have hproper := h.proper.intern text
  have hspelled := names.text_intern text
  have hknows := names.knows_intern text
  have hnamed : (names.intern text).1.isEmpty = false :=
    Bool.eq_false_iff.2 fun hempty =>
      hplain.2 (hspelled.symm.trans ((hproper.isEmpty_iff hknows).1 hempty))
  have hfree : (t.namespaceAt .root).symbol? (names.intern text).1 = none := by
    refine Option.eq_none_iff_forall_ne_some.2 fun other hother => ?_
    obtain ⟨hholds, _, hname, _⟩ := h.arena.entry hother
    refine hnew other hholds ?_
    rw [← hgrown.text (h.families.knows hholds), hname, hspelled]
  have hkind : kind.isData = false ∧ kind.isCompanion = false := by
    cases kind <;> first | exact ⟨rfl, rfl⟩ | cases hbase
  refine ⟨?_, ?_, later_withSymbol h.tree.root (.inr hfree)⟩
  · rw [← registerIfFree_of_free (.inr hfree)]
    rfl
  · exact (h.grown hgrown hproper).withSymbol h.tree.root hfree hknows hnamed
      (by rw [hspelled]; exact hplain.1) hkind.1 hkind.2
      (fun _ => ⟨hspelled.trans htext, harity⟩) fun _ => rfl

/-- Built-in symbols that are not there yet are entered one after the other. -/
theorem Regular.foldl_addBuiltin {l : List (String × Nat × SymbolKind)} (h : t.Regular names)
    (hl : ∀ b ∈ l, b ∈ builtins) (hnodup : (l.map Prod.fst).Nodup)
    (hnew : ∀ id, t.Holds id → names.text (t.symbolAt id).name ∉ l.map Prod.fst) :
    (l.foldl Table.addBuiltin (names, t)).2.Regular (l.foldl Table.addBuiltin (names, t)).1 ∧
      names.Grown (l.foldl Table.addBuiltin (names, t)).1 ∧
      t.Later (l.foldl Table.addBuiltin (names, t)).2 ∧
      ∀ b ∈ l, ∃ id, (l.foldl Table.addBuiltin (names, t)).2.Holds id ∧
        ((l.foldl Table.addBuiltin (names, t)).2.symbolAt id).home = .root ∧
        (l.foldl Table.addBuiltin (names, t)).2.kindOf id = b.2.2 := by
  induction l generalizing names t with
  | nil => exact ⟨h, .refl _, .refl _, fun b hb => absurd hb List.not_mem_nil⟩
  | cons b rest ih =>
      obtain ⟨text, arity, kind⟩ := b
      have hb := hl _ (List.mem_cons_self ..)
      obtain ⟨hstep, hregular, hlater⟩ := h.addBuiltin hb fun id hid heq =>
        hnew id hid (heq ▸ List.mem_cons_self ..)
      have hgrown := names.grown_intern text
      rw [List.map_cons, List.nodup_cons] at hnodup
      obtain ⟨hregular', hgrown', hlater', hpresent⟩ := ih hregular
        (fun b hb => hl b (List.mem_cons_of_mem _ hb)) hnodup.2 fun other hother => by
          rw [symbolAt_withSymbol]
          split
          · rw [names.text_intern text]
            exact hnodup.1
          · have hother' := Nat.lt_of_le_of_ne (holds_withSymbol.1 hother) ‹_›
            rw [hgrown.text (h.families.knows hother')]
            exact fun hmem => hnew other hother' (List.mem_cons_of_mem _ hmem)
      rw [List.foldl_cons, hstep]
      refine ⟨hregular', hgrown.trans hgrown', hlater.trans hlater', fun b hb => ?_⟩
      rcases List.mem_cons.1 hb with rfl | hb
      · have hholds : (t.withSymbol .root (names.intern text).1 arity .generated kind).Holds
            ⟨t.symbols.size⟩ := holds_withSymbol.2 (Nat.le_refl _)
        have hsymbol :
            (t.withSymbol .root (names.intern text).1 arity .generated kind).symbolAt
                ⟨t.symbols.size⟩ =
              { id := ⟨t.symbols.size⟩, name := (names.intern text).1, home := .root, arity,
                location := .generated, kind } := by
          rw [symbolAt_withSymbol, if_pos rfl]
        have hbase : kind.isBase = true := (isBase_of_mem_builtins (hl _ hb)).1
        have hsame := (hlater'.symbol hholds).settled (by
          rw [hsymbol]
          exact Symbol.isSettled_of_isBase hbase)
        refine ⟨⟨t.symbols.size⟩, hlater'.holds hholds, ?_, ?_⟩
        · rw [hsame, hsymbol]
        · rw [kindOf, hsame, hsymbol]
      · exact hpresent b hb

/-! ## A table with nothing but the root -/

theorem namespaceAt_of_empty (hnamespaces : t.namespaces = #[{ name := .empty }])
    (ns : NamespaceId) :
    t.namespaceAt ns = { name := .empty } := by
  rw [namespaceAt, hnamespaces]
  rcases ns with ⟨_ | i⟩ <;> rfl

theorem tree_of_empty (hnamespaces : t.namespaces = #[{ name := .empty }]) : t.Tree := by
  have hnode := namespaceAt_of_empty hnamespaces
  have horphan : ∀ {ns p}, (t.namespaceAt ns).parent ≠ some p := fun hp => by
    rw [hnode] at hp
    cases hp
  exact {
    root := by
      rw [HasNamespace, hnamespaces]
      exact Nat.zero_lt_one
    parent_root := by rw [hnode]
    parent := fun {ns} hns hne => by
      rw [HasNamespace, hnamespaces] at hns
      have hzero : ns.index = 0 := Nat.lt_one_iff.1 hns
      cases ns
      exact absurd (congrArg NamespaceId.mk hzero) hne
    parent_lt := fun hp => absurd hp horphan
    depth_root := by rw [hnode]
    depth := fun hp => absurd hp horphan
    listed := fun hp => absurd hp horphan
    child := fun {ns name c} hc => by
      rw [hnode] at hc
      cases hc
    found := fun {ns name c} hc => by
      rw [hnode] at hc
      exact absurd hc List.not_mem_nil
    childList_eq := fun ns => by
      rw [hnode]
      rfl
    ascending := fun ns => by
      rw [hnode]
      exact List.Pairwise.nil }

theorem regular_of_empty (hnames : names.Proper)
    (hnamespaces : t.namespaces = #[{ name := .empty }])
    (hsymbols : t.symbols = #[]) : t.Regular names := by
  have hholds : ∀ {id}, ¬ t.Holds id := fun h => by
    rw [Holds, hsymbols] at h
    exact absurd h (Nat.not_lt_zero _)
  refine ⟨hnames, tree_of_empty hnamespaces, ⟨fun hid => absurd hid hholds,
    fun hid => absurd hid hholds, fun hid => absurd hid hholds, fun {ns name id} hid => ?_⟩,
    ⟨fun hid => absurd hid hholds, fun hid => absurd hid hholds, fun hid => absurd hid hholds,
      fun hd => absurd (holds_of_data hd) hholds, fun hs => absurd (holds_of_sort hs) hholds,
      fun hc => absurd (holds_of_constant hc) hholds⟩,
    fun hid => absurd hid hholds, fun hid => absurd hid hholds⟩
  rw [namespaceAt_of_empty hnamespaces] at hid
  cases hid

/-! ## New tables -/

/-- A new table has the root and the built-in symbols. -/
theorem wellFormed_create (hnames : names.Proper) (tableId : TableId) (module : Name)
    (moduleKind : ModuleKind) (file : Name) :
    (create names tableId module moduleKind file).2.WellFormed
        (create names tableId module moduleKind file).1 ∧
      names.Grown (create names tableId module moduleKind file).1 := by
  have hstart : Regular names
      { id := tableId, module, kind := moduleKind, file, dependencies := ⟨[(module, tableId)]⟩ } :=
    regular_of_empty hnames rfl rfl
  obtain ⟨hregular, hgrown, _, hpresent⟩ := hstart.foldl_addBuiltin
    (fun _ hb => hb) nodup_builtins (fun id hid => absurd hid (Nat.not_lt_zero _))
  refine ⟨{ hregular with present := fun {kind} hkind => ?_ }, hgrown⟩
  exact hpresent _ (mem_builtins_of_isBase hkind)

/-- A new table has nothing but what is built in, and nothing is written to it. -/
theorem builtin_of_create {tableId : TableId} {module : Name} {moduleKind : ModuleKind}
    {file : Name} (hid : (create names tableId module moduleKind file).2.Holds id) :
    ((create names tableId module moduleKind file).2.kindOf id).isBase = true ∧
      ((create names tableId module moduleKind file).2.symbolAt id).home = .root ∧
      ((create names tableId module moduleKind file).2.symbolAt id).origin = none ∧
      ((create names tableId module moduleKind file).2.symbolAt id).Bare := by
  let motive (t : Table) : Prop := ∀ id, t.Holds id → (t.kindOf id).isBase = true ∧
    (t.symbolAt id).home = .root ∧ (t.symbolAt id).origin = none ∧ (t.symbolAt id).Bare
  have hstep : ∀ (state : Interner × Table), ∀ b ∈ builtins, motive state.2 →
      motive (addBuiltin state b).2 := by
    rintro ⟨names, t⟩ ⟨text, arity, kind⟩ hb h
    have hbase : kind.isBase = true := (isBase_of_mem_builtins hb).1
    change motive (t.registerIfFree .root (names.intern text).1 arity .generated kind)
    unfold registerIfFree
    rcases t.register_cases .root (names.intern text).1 arity .generated kind with
      ⟨_, heq⟩ | ⟨existing, _, heq⟩
    · rw [heq]
      intro id hid
      by_cases hnew : id.index = t.symbols.size
      · rw [kindOf, symbolAt_withSymbol, if_pos hnew]
        refine ⟨hbase, rfl, rfl, rfl, ?_, rfl⟩
        cases kind <;> first | rfl | cases hbase
      · rw [kindOf, symbolAt_withSymbol, if_neg hnew]
        exact h id (Nat.lt_of_le_of_ne (holds_withSymbol.1 hid) hnew)
    · rw [heq]
      exact h
  have hfold : ∀ (l : List (String × Nat × SymbolKind)), (∀ b ∈ l, b ∈ builtins) →
      ∀ state : Interner × Table, motive state.2 → motive (l.foldl addBuiltin state).2 := by
    intro l
    induction l with
    | nil => exact fun _ _ h => h
    | cons b rest ih =>
        intro hl state h
        rw [List.foldl_cons]
        exact ih (fun b' hb' => hl b' (List.mem_cons_of_mem _ hb')) _
          (hstep state b (hl b List.mem_cons_self) h)
  exact hfold builtins (fun _ hb => hb) _ (fun id hid => absurd hid (Nat.not_lt_zero _)) id hid

end Table

end ManySorted
