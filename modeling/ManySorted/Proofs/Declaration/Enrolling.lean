import ManySorted.Proofs.Declaration.Registering
import ManySorted.Proofs.Draft.Safety
import ManySorted.Proofs.Table.Intact

/-!
# What a module enrolls

Registering enters conveniences, types, constants and parameters into the root, whatever errors
there are on the way.  It keeps lists of the types and parameters that it entered, and these lists
are complete: every data symbol and every declared union of the module belongs to one declaration,
the first one of its name (`Draft.Enrolled`).

## Strategy

* **Symbols that are added.**  Nothing is written to a new symbol, so nothing new dangles
  (`Table.Intact.added`).
* **Complete lists.**  A list has the module's own symbols of some kinds, each of them once
  (`Table.Lists`).  A new symbol of another kind leaves it as it is (`Table.Lists.skip`), and one of
  the kinds is put at its end (`Table.Lists.snoc`).  Of a data symbol and its companions only the
  first counts (`Table.Lists.withData_snoc`).
* **The invariant** of enrolling has one list of types and one of parameters (`Draft.Enrolled`).
  Each kind of declaration extends it by what it enters (`Draft.Enrolled.extend`,
  `Draft.Enrolled.data`, `Draft.Enrolled.union`, `Draft.Enrolled.constant`,
  `Draft.Enrolled.parameter`).
-/

namespace ManySorted

/-- Whether symbols of the kind come from the type declarations of a module. -/
def SymbolKind.isDeclaredType : SymbolKind → Bool
  | data .. | union none => true
  | _ => false

/-- Whether symbols of the kind come from the parameters of a transform. -/
def SymbolKind.isParameter : SymbolKind → Bool
  | userConstant .parameter => true
  | _ => false

/-- How the facts of declared data arise; unions have no facts. -/
def TypeBody.shape? : TypeBody → Option DataShape
  | union _ => none
  | constructor isNew _ => some (.constructor isNew)
  | map kind isPartial domain _ => some (.map kind isPartial domain.length)

/-- The name and the type of a value parameter. -/
def Param.value? : Param → Option (Name × List TypeTerm)
  | value name type _ => some (name, type)
  | model _ => none

/-- The value parameters of a module. -/
def Module.valueParams (m : Module) : List (Name × List TypeTerm) := m.params.filterMap Param.value?

/-- Interning a string gives it to at most one handle. -/
theorem Interner.text_intern_cases (names : Interner) (s : String) (name : Name) :
    (names.intern s).2.text name = names.text name ∨ (names.intern s).2.text name = s := by
  unfold intern
  split
  · exact .inl rfl
  · by_cases hname : name.index = names.words.size
    · simp [text, hname]
    · refine .inl ?_
      change (names.words.push s).getD name.index "" = names.words.getD name.index ""
      rw [Array.getD_eq_getD_getElem?, Array.getD_eq_getD_getElem?, Array.getElem?_push,
        if_neg hname]

/-- A name that may not be used stays so if only names with a hash sign are interned. -/
theorem Interner.isLegalId_intern_hash {names : Interner} {name : Name} (text : String)
    (h : isLegalId (names.text name) = false) :
    isLegalId ((names.intern ("#" ++ text)).2.text name) = false := by
  rcases names.text_intern_cases ("#" ++ text) name with hsame | hhashed
  · rw [hsame, h]
  · rw [← Bool.not_eq_true]
    exact fun hlegal => not_hashed_of_isLegalId hlegal ⟨text, hhashed⟩

namespace Table

variable {names names' : Interner} {t t' t'' : Table} {x : SymbolId} {l : List SymbolId}
  {p : SymbolKind → Bool} {name : Name} {arity : Nat} {location : Location} {kind : SymbolKind}

/-! ## Symbols that are added -/

theorem Added.refl (t : Table) : t.Added t where
  later := .refl t
  same _ := rfl
  bare hx hnew := absurd hx hnew
  origin hx hnew := absurd hx hnew
  home hx hnew := absurd hx hnew
  declared hx hnew := absurd hx hnew
  nullary hx hnew := absurd hx hnew
  size_eq := rfl

theorem Added.trans (h : t.Added t') (h' : t'.Added t'') : t.Added t'' := by
  have hcases : ∀ {P : Symbol → Prop}, (∀ {x}, t'.Holds x → ¬ t.Holds x → P (t'.symbolAt x)) →
      (∀ {x}, t''.Holds x → ¬ t'.Holds x → P (t''.symbolAt x)) →
      ∀ {x}, t''.Holds x → ¬ t.Holds x → P (t''.symbolAt x) := by
    intro P hfirst hsecond x hx hnew
    by_cases hx' : t'.Holds x
    · rw [h'.same hx']
      exact hfirst hx' hnew
    · exact hsecond hx hx'
  refine ⟨h.later.trans h'.later, fun hx => ?_, hcases h.bare h'.bare,
    hcases (P := (·.origin = none)) h.origin h'.origin,
    hcases (P := (·.home = .root)) h.home h'.home,
    hcases (P := (·.kind.isBase = false)) h.declared h'.declared,
    hcases (P := fun s => s.kind.isConstant = true → s.arity = 0) h.nullary h'.nullary,
    h'.size_eq.trans h.size_eq⟩
  rw [h'.same (h.later.holds hx), h.same hx]

/-- Nothing is added where symbols and namespaces stay. -/
theorem Added.of_eq (hid : t'.id = t.id) (hnamespaces : t'.namespaces = t.namespaces)
    (hsymbols : t'.symbols = t.symbols) : t.Added t' := by
  have hholds : ∀ {x}, t'.Holds x → t.Holds x := fun {x} hx => by
    rw [Holds, ← hsymbols]
    exact hx
  exact ⟨.of_eq hid hnamespaces hsymbols, fun _ => by rw [symbolAt, symbolAt, hsymbols],
    fun hx hnew => absurd (hholds hx) hnew, fun hx hnew => absurd (hholds hx) hnew,
    fun hx hnew => absurd (hholds hx) hnew, fun hx hnew => absurd (hholds hx) hnew,
    fun hx hnew => absurd (hholds hx) hnew, by rw [hnamespaces]⟩

theorem Alike.extends (h : t.Alike t') (hlater : t.Later t') : t.Extends t' where
  later := hlater
  new hx hnew := absurd ((h.holds _).1 hx) hnew
  nullary hx hnew := absurd ((h.holds _).1 hx) hnew
  size_eq := by rw [h.namespaces_eq]

/-- New symbols have nothing written to them, so nothing new dangles. -/
theorem Intact.added (h : t.Intact names) (hadded : t.Added t') (hregular : t'.Regular names')
    (hdata : ∀ {d shape info}, t'.kindOf d = .data shape info → ¬ t.Holds d →
      info.labels.length = (t'.symbolAt d).arity ∧ info.any.length = (t'.symbolAt d).arity ∧
        shape.domainArity ≤ (t'.symbolAt d).arity) : t'.Intact names' where
  formed := h.formed.later hadded.later hregular
  closed {x} hx := by
    by_cases hx' : t.Holds x
    · rw [hadded.same hx']
      exact (h.closed hx').later hadded.later
    · exact (hadded.bare hx hx').closed t'
  form {x form} hx hsort hform := by
    by_cases hx' : t.Holds x
    · rw [hadded.same hx'] at hform ⊢
      exact h.form hx' (fun hsort' => hsort (hadded.later.isSort hsort')) hform
    · cases hform.symm.trans (hadded.bare hx hx').canonical
  data {d shape info} hd := by
    have hfamily := hregular.families.data hd
    by_cases hd' : t.Holds d
    · have hold : t.kindOf d = .data shape info := by rwa [kindOf, hadded.same hd'] at hd
      have hsort := (h.formed.families.data hold).holds_sort
      have houtfitted := h.data hold
      refine ⟨?_, ?_, ?_, ?_⟩
      · rw [hadded.same hd', houtfitted.labels]
      · rw [hadded.same hd', houtfitted.any]
      · rw [hadded.same hd']
        exact houtfitted.domain
      · rw [hadded.same hd', hadded.same hsort, houtfitted.form_eq]
    · -- the sort of a new data symbol is new as well
      have hsort : ¬ t.Holds info.sort := by
        intro hsort
        have hkind : (t.kindOf info.sort).unsized = .userSort d none := by
          rw [← hfamily.sort_kind, kindOf, kindOf, hadded.same hsort]
        obtain ⟨shape, info, hdata, -⟩ := h.formed.families.sort hkind
        exact hd' (holds_of_data hdata)
      obtain ⟨hlabels, hany, hdomain⟩ := hdata hd hd'
      refine ⟨hlabels, hany, hdomain, ?_⟩
      rw [(hadded.bare (holds_of_data hd) hd').canonical,
        (hadded.bare hfamily.holds_sort hsort).canonical]

/-! ## Complete lists -/

/-- The list has the module's own symbols of some kinds, each of them once. -/
structure Lists (t : Table) (l : List SymbolId) (p : SymbolKind → Bool) : Prop where
  nodup : l.Nodup
  mem_iff : ∀ {x}, x ∈ l ↔ t.Owns x ∧ p (t.kindOf x) = true

theorem lists_nil (h : ∀ {x}, t.Holds x → (t.symbolAt x).isSettled = true) :
    t.Lists [] p where
  nodup := List.nodup_nil
  mem_iff {x} := by
    refine iff_of_false List.not_mem_nil ?_
    rintro ⟨howns, -⟩
    exact Bool.noConfusion ((h howns.holds).symm.trans howns.unsettled)

/-- New symbols of the kinds are added to the list. -/
theorem Lists.added (h : t.Lists l p) (hadded : t.Added t') {news : List SymbolId}
    (hnodup : news.Nodup)
    (hnews : ∀ {x}, x ∈ news ↔ (t'.Holds x ∧ ¬ t.Holds x) ∧ p (t'.kindOf x) = true) :
    t'.Lists (l ++ news) p where
  nodup := by
    refine List.nodup_append.2 ⟨h.nodup, hnodup, fun x hx y hy hxy => ?_⟩
    subst hxy
    exact (hnews.1 hy).1.2 (h.mem_iff.1 hx).1.holds
  mem_iff {x} := by
    rw [List.mem_append, h.mem_iff, hnews]
    constructor
    · rintro (⟨howns, hp⟩ | ⟨⟨hx, hnew⟩, hp⟩)
      · refine ⟨howns.later hadded.later, ?_⟩
        rwa [kindOf, hadded.same howns.holds]
      · exact ⟨hadded.owns hx hnew, hp⟩
    · rintro ⟨howns, hp⟩
      by_cases hx : t.Holds x
      · rw [kindOf, hadded.same hx] at hp
        exact .inl ⟨⟨hx, hadded.same hx ▸ howns.unsettled⟩, hp⟩
      · exact .inr ⟨⟨howns.holds, hx⟩, hp⟩

/-- Symbols of other kinds leave the list as it is. -/
theorem Lists.skip (h : t.Lists l p) (hadded : t.Added t')
    (hnone : ∀ {x}, t'.Holds x → ¬ t.Holds x → p (t'.kindOf x) = false) : t'.Lists l p := by
  have hlist := h.added hadded List.nodup_nil fun {x} => by
    refine iff_of_false List.not_mem_nil ?_
    rintro ⟨⟨hx, hnew⟩, hp⟩
    exact Bool.noConfusion (hp.symm.trans (hnone hx hnew))
  rwa [List.append_nil] at hlist

/-- One new symbol of the kinds. -/
theorem Lists.snoc (h : t.Lists l p) (hadded : t.Added t') (hx : t'.Holds x) (hnew : ¬ t.Holds x)
    (hp : p (t'.kindOf x) = true)
    (honly : ∀ {y}, t'.Holds y → ¬ t.Holds y → p (t'.kindOf y) = true → y = x) :
    t'.Lists (l ++ [x]) p := by
  refine h.added hadded (List.nodup_cons.2 ⟨List.not_mem_nil, List.nodup_nil⟩) fun {y} => ?_
  rw [List.mem_singleton]
  constructor
  · rintro rfl
    exact ⟨⟨hx, hnew⟩, hp⟩
  · rintro ⟨⟨hy, hnew'⟩, hp'⟩
    exact honly hy hnew' hp'

theorem Alike.owns (h : t.Alike t') : t'.Owns x ↔ t.Owns x := by
  constructor
  · exact fun hx => ⟨(h.holds x).1 hx.holds, (h.isSettled x).symm.trans hx.unsettled⟩
  · exact fun hx => ⟨(h.holds x).2 hx.holds, (h.isSettled x).trans hx.unsettled⟩

theorem Lists.alike (h : t.Lists l p) (halike : t.Alike t')
    (hp : ∀ kind : SymbolKind, p kind.unsized = p kind) : t'.Lists l p where
  nodup := h.nodup
  mem_iff {x} := by
    rw [h.mem_iff, halike.owns, ← hp (t'.kindOf x), halike.unsized, hp]

/-! ## The new symbols -/

/-- A symbol that is entered under a free name is the only new one. -/
theorem eq_of_holds_withSymbol {home : NamespaceId}
    (hx : (t.withSymbol home name arity location kind).Holds x) (hnew : ¬ t.Holds x) :
    x = ⟨t.symbols.size⟩ := by
  have hle := holds_withSymbol.1 hx
  have hge := Nat.le_of_not_lt hnew
  exact congrArg SymbolId.mk (Nat.le_antisymm hle hge)

theorem symbolAt_withSymbol_self {home : NamespaceId} :
    (t.withSymbol home name arity location kind).symbolAt ⟨t.symbols.size⟩ =
      { id := ⟨t.symbols.size⟩, name, home, arity, location, kind } := by
  rw [symbolAt_withSymbol, if_pos rfl]

theorem Intact.withSymbol (h : t.Intact names) (hname : names.Fitting name)
    (hfree : (t.namespaceAt .root).symbol? name = none) (arity : Nat) (location : Location)
    (kind : SymbolKind) (hbase : kind.isBase = false) (hdata : kind.isData = false)
    (hcompanion : kind.isCompanion = false) (hnullary : kind.isConstant = true → arity = 0) :
    (t.withSymbol .root name arity location kind).Intact names ∧
      t.Added (t.withSymbol .root name arity location kind) := by
  have hroot := h.formed.tree.root
  have hadded : t.Added (t.withSymbol .root name arity location kind) :=
    added_withSymbol hroot hfree hbase hcompanion hnullary
  have hregular : (t.withSymbol .root name arity location kind).Regular names :=
    h.formed.toRegular.withSymbol hroot hfree hname.knows hname.named hname.plain hdata hcompanion
      (fun hbase' => by rw [hbase] at hbase'; cases hbase') fun _ => rfl
  refine ⟨h.added hadded hregular fun {d shape info} hd hnew => ?_, hadded⟩
  rw [eq_of_holds_withSymbol (holds_of_data hd) hnew, kindOf, symbolAt_withSymbol_self] at hd
  rw [show kind = .data shape info from hd] at hdata
  cases hdata

theorem Intact.withData (h : t.Intact names) {hashed : Name} (hname : names.Fitting name)
    (hfree : (t.namespaceAt .root).symbol? name = none)
    (hregistered : DataRegistered names t .root name hashed names') {shape : DataShape}
    {labels : List (Option Name)} {any : List Bool} (hlabels : labels.length = arity)
    (hany : any.length = arity) (hdomain : shape.domainArity ≤ arity) (location : Location) :
    (t.withData hashed .root name arity location shape labels any).Intact names' ∧
      t.Added (t.withData hashed .root name arity location shape labels any) := by
  have hroot := h.formed.tree.root
  have hadded : t.Added (t.withData hashed .root name arity location shape labels any) :=
    added_withData hroot hfree hregistered
  have hregular : (t.withData hashed .root name arity location shape labels any).Regular names' :=
    h.formed.toRegular.withData hroot hname.knows hname.named hname.plain hfree hregistered
  refine ⟨h.added hadded hregular fun {d shape' info} hd hnew => ?_, hadded⟩
  rcases holds_withData_cases (holds_of_data hd) with rfl | rfl | rfl | hd'
  · rw [kindOf, symbolAt_withData, if_pos rfl] at hd
    cases hd
    rw [symbolAt_withData, if_pos rfl]
    exact ⟨hlabels, hany, hdomain⟩
  · rw [kindOf, symbolAt_withData, if_neg (Nat.succ_ne_self _), if_pos rfl] at hd
    cases hd
  · rw [kindOf, symbolAt_withData, if_neg (by simp), if_neg (by simp), if_pos rfl] at hd
    cases hd
  · exact absurd hd' hnew

/-! ## Lists after one registration -/

theorem Lists.withSymbol_skip {home : NamespaceId} (h : t.Lists l p)
    (hadded : t.Added (t.withSymbol home name arity location kind)) (hp : p kind = false) :
    (t.withSymbol home name arity location kind).Lists l p := by
  refine h.skip hadded fun {x} hx hnew => ?_
  rw [eq_of_holds_withSymbol hx hnew, kindOf, symbolAt_withSymbol_self]
  exact hp

theorem Lists.withSymbol_snoc {home : NamespaceId} (h : t.Lists l p)
    (hadded : t.Added (t.withSymbol home name arity location kind)) (hp : p kind = true) :
    (t.withSymbol home name arity location kind).Lists (l ++ [⟨t.symbols.size⟩]) p := by
  refine h.snoc hadded (holds_withSymbol.2 (Nat.le_refl _)) (Nat.lt_irrefl _) ?_
    fun hy hnew _ => eq_of_holds_withSymbol hy hnew
  rw [kindOf, symbolAt_withSymbol_self]
  exact hp

/-- Of a data symbol and its companions only the first comes from a declaration. -/
theorem Lists.withData_snoc {hashed : Name} {shape : DataShape} {labels : List (Option Name)}
    {any : List Bool} (h : t.Lists l SymbolKind.isDeclaredType)
    (hadded : t.Added (t.withData hashed .root name arity location shape labels any)) :
    (t.withData hashed .root name arity location shape labels any).Lists
      (l ++ [⟨t.symbols.size⟩]) SymbolKind.isDeclaredType := by
  have hholds : (t.withData hashed .root name arity location shape labels any).Holds
      ⟨t.symbols.size⟩ := holds_withData.2 (Nat.lt_add_of_pos_right (by decide))
  refine h.snoc hadded hholds (Nat.lt_irrefl _) ?_ fun {y} hy hnew hp => ?_
  · rw [kindOf, symbolAt_withData, if_pos rfl]
    rfl
  · rcases holds_withData_cases hy with rfl | rfl | rfl | hy'
    · rfl
    · rw [kindOf, symbolAt_withData, if_neg (Nat.succ_ne_self _), if_pos rfl] at hp
      cases hp
    · rw [kindOf, symbolAt_withData, if_neg (by simp), if_neg (by simp), if_pos rfl] at hp
      cases hp
    · exact absurd hy' hnew

theorem Lists.withData_skip {hashed : Name} {shape : DataShape} {labels : List (Option Name)}
    {any : List Bool} (h : t.Lists l p)
    (hadded : t.Added (t.withData hashed .root name arity location shape labels any))
    (hdata : ∀ info, p (.data shape info) = false) (hsort : ∀ d, p (.userSort d none) = false)
    (htype : ∀ s, p (.userConstant (.type s)) = false) :
    (t.withData hashed .root name arity location shape labels any).Lists l p := by
  refine h.skip hadded fun {x} hx hnew => ?_
  rcases holds_withData_cases hx with rfl | rfl | rfl | hx'
  · rw [kindOf, symbolAt_withData, if_pos rfl]
    exact hdata _
  · rw [kindOf, symbolAt_withData, if_neg (Nat.succ_ne_self _), if_pos rfl]
    exact hsort _
  · rw [kindOf, symbolAt_withData, if_neg (by simp), if_neg (by simp), if_pos rfl]
    exact htype _
  · exact absurd hx' hnew

/-- The symbol of a declaration is what the declaration says. -/
structure Enrolls (t : Table) (b : Declaration) : Prop where
  name : (t.symbolAt b.symbol).name = b.decl.name
  arity : (t.symbolAt b.symbol).arity = b.decl.body.fields.length
  union : b.decl.body.shape? = none → t.kindOf b.symbol = .union none
  data : ∀ {shape}, b.decl.body.shape? = some shape → ∃ info, t.kindOf b.symbol = .data shape info

end Table

namespace Draft

variable {C P : Draft → Prop} {start : Table}
  {conveniences conveniences' : List (Convenience × SymbolId)}
  {types types' : List Declaration} {params params' : List Parameter} {d d' : Draft} {name : Name}
  {arity : Nat} {location : Location} {kind : SymbolKind}

/-- What enrolling has entered into a table so far. -/
structure Enrolled (start : Table) (conveniences : List (Convenience × SymbolId))
    (types : List Declaration) (params : List Parameter) (d : Draft) : Prop where
  regular : ∃ names, start.Regular names
  settled : ∀ {x}, start.Holds x → (start.symbolAt x).isSettled = true
  intact : d.Intact
  added : start.Added d.table
  listsConveniences : d.table.Lists (conveniences.map Prod.snd) (·.convenience?.isSome)
  listsTypes : d.table.Lists (types.map Declaration.symbol) SymbolKind.isDeclaredType
  listsParams : d.table.Lists (params.map Parameter.symbol) SymbolKind.isParameter
  kind : ∀ p ∈ conveniences, d.table.kindOf p.2 = .union (some p.1)
  decl : ∀ b ∈ types, d.table.Enrolls b
  param : ∀ p ∈ params, (d.table.symbolAt p.symbol).name = p.name

/-- Nothing is enrolled in a table that has nothing but what is built in or imported. -/
theorem enrolled_start (hintact : d.Intact)
    (hsettled : ∀ {x}, d.table.Holds x → (d.table.symbolAt x).isSettled = true) :
    Enrolled d.table [] [] [] d where
  regular := ⟨_, hintact.formed.toRegular⟩
  settled := hsettled
  intact := hintact
  added := .refl d.table
  listsConveniences := Table.lists_nil hsettled
  listsTypes := Table.lists_nil hsettled
  listsParams := Table.lists_nil hsettled
  kind _ hp := absurd hp List.not_mem_nil
  decl _ hb := absurd hb List.not_mem_nil
  param _ hp := absurd hp List.not_mem_nil

/-- What the module declares is new, and nothing is written to it yet. -/
theorem Enrolled.new (h : Enrolled start conveniences types params d) {x : SymbolId}
    (howns : d.table.Owns x) : ¬ start.Holds x ∧ (d.table.symbolAt x).Bare := by
  have hnew : ¬ start.Holds x := by
    intro hx
    have hunsettled := howns.unsettled
    rw [h.added.same hx, h.settled hx] at hunsettled
    cases hunsettled
  exact ⟨hnew, h.added.bare howns.holds hnew⟩

/-- A data symbol and its sort are both declared by the module, or neither is. -/
theorem Enrolled.owns_sort (h : Enrolled start conveniences types params d) {x : SymbolId}
    {shape : DataShape} {info : DataInfo} (hx : d.table.kindOf x = .data shape info) :
    d.table.Owns info.sort ↔ d.table.Owns x := by
  obtain ⟨names, hstart⟩ := h.regular
  have hfamily := h.intact.formed.families.data hx
  have hnew : ∀ {y}, d.table.Holds y → ¬ start.Holds y → d.table.Owns y := h.added.owns
  constructor
  · intro hsort
    refine hnew (Table.holds_of_data hx) fun hold => ?_
    have hkind : start.kindOf x = .data shape info := by
      rw [← hx, Table.kindOf, Table.kindOf, h.added.same hold]
    exact (h.new hsort).1 (hstart.families.data hkind).holds_sort
  · intro howns
    refine hnew hfamily.holds_sort fun hold => ?_
    have hkind : (start.kindOf info.sort).unsized = .userSort x none := by
      rw [← hfamily.sort_kind, Table.kindOf, Table.kindOf, h.added.same hold]
    obtain ⟨_, _, hdata, -⟩ := hstart.families.sort hkind
    exact (h.new howns).1 (Table.holds_of_data hdata)

/-- Symbols are added, and some of them are entered into the lists. -/
theorem Enrolled.extend (h : Enrolled start conveniences types params d) (hintact : d'.Intact)
    (hadded : d.table.Added d'.table)
    (hconveniences : d'.table.Lists (conveniences'.map Prod.snd) (·.convenience?.isSome))
    (htypes : d'.table.Lists (types'.map Declaration.symbol) SymbolKind.isDeclaredType)
    (hparams : d'.table.Lists (params'.map Parameter.symbol) SymbolKind.isParameter)
    (hkind : ∀ p ∈ conveniences', p ∈ conveniences ∨ d'.table.kindOf p.2 = .union (some p.1))
    (hdecl : ∀ b ∈ types', b ∈ types ∨ d'.table.Enrolls b)
    (hparam : ∀ p ∈ params', p ∈ params ∨ (d'.table.symbolAt p.symbol).name = p.name) :
    Enrolled start conveniences' types' params' d' where
  regular := h.regular
  settled := h.settled
  intact := hintact
  added := h.added.trans hadded
  listsConveniences := hconveniences
  listsTypes := htypes
  listsParams := hparams
  kind p hp := by
    rcases hkind p hp with hp | hkind
    · have hold := (h.listsConveniences.mem_iff.1 (List.mem_map_of_mem hp)).1.holds
      rw [Table.kindOf, hadded.same hold]
      exact h.kind p hp
    · exact hkind
  decl b hb := by
    rcases hdecl b hb with hb | henrolls
    · have hsame := hadded.same (h.listsTypes.mem_iff.1 (List.mem_map_of_mem hb)).1.holds
      have hold := h.decl b hb
      refine ⟨?_, ?_, ?_, ?_⟩
      · rw [hsame]
        exact hold.name
      · rw [hsame]
        exact hold.arity
      · rw [Table.kindOf, hsame]
        exact hold.union
      · rw [Table.kindOf, hsame]
        exact hold.data
    · exact henrolls
  param p hp := by
    rcases hparam p hp with hp | hname
    · rw [hadded.same (h.listsParams.mem_iff.1 (List.mem_map_of_mem hp)).1.holds]
      exact h.param p hp
    · exact hname

/-- Whatever changes but the namespaces and symbols. -/
theorem Enrolled.of_eq (h : Enrolled start conveniences types params d)
    (hnames : d.names.Grown d'.names) (hproper : d'.names.Proper)
    (hid : d'.table.id = d.table.id) (hnamespaces : d'.table.namespaces = d.table.namespaces)
    (hsymbols : d'.table.symbols = d.table.symbols) :
    Enrolled start conveniences types params d' := by
  have halike : d.table.Alike d'.table := .of_eq hid hnamespaces hsymbols
  have hsame : ∀ x, d'.table.symbolAt x = d.table.symbolAt x := fun x => by
    rw [Table.symbolAt, Table.symbolAt, hsymbols]
  have hholds : ∀ {x}, d'.table.Holds x → d.table.Holds x := fun hx => (halike.holds _).1 hx
  have hadded : d.table.Added d'.table := .of_eq hid hnamespaces hsymbols
  have hintact : d'.Intact := by
    refine (Table.Intact.unwritten h.intact halike (fun y => ?_) fun y => ?_).grown hnames hproper
    · rw [hsame]
    · rw [hsame]
  have hlists : ∀ {l p}, d.table.Lists l p → d'.table.Lists l p := fun hl =>
    hl.skip hadded fun hx hnew => absurd (hholds hx) hnew
  exact h.extend hintact hadded (hlists h.listsConveniences) (hlists h.listsTypes)
    (hlists h.listsParams) (fun p hp => .inl hp) (fun b hb => .inl hb) fun p hp => .inl hp

theorem Enrolled.report (h : Enrolled start conveniences types params d) (r : Report) :
    Enrolled start conveniences types params { d with table := d.table.report r } :=
  h.of_eq (.refl _) h.intact.formed.proper rfl rfl rfl

/-! ## Entering one symbol -/

section

variable (h : Enrolled start conveniences types params d) (hname : d.names.Fitting name)
  (hfree : (d.table.namespaceAt .root).symbol? name = none)

include h hname hfree

theorem Enrolled.convenience (c : Convenience) (location : Location) :
    Enrolled start (conveniences ++ [(c, ⟨d.table.symbols.size⟩)]) types params
      { d with table := d.table.withSymbol .root name 0 location (.union (some c)) } := by
  obtain ⟨hintact, hadded⟩ := h.intact.withSymbol hname hfree 0 location
    (.union (some c)) rfl rfl rfl fun _ => rfl
  refine h.extend hintact hadded ?_ (h.listsTypes.withSymbol_skip hadded rfl)
    (h.listsParams.withSymbol_skip hadded rfl) (fun p hp => ?_) (fun b hb => .inl hb)
    fun p hp => .inl hp
  · rw [List.map_append]
    exact h.listsConveniences.withSymbol_snoc hadded rfl
  · rcases List.mem_append.1 hp with hp | hp
    · exact .inl hp
    · obtain rfl := List.mem_singleton.1 hp
      rw [Table.kindOf, Table.symbolAt_withSymbol_self]
      exact .inr rfl

theorem Enrolled.union {decl : TypeDecl} (location : Location) (hdecl : decl.name = name)
    (hbody : decl.body.shape? = none) :
    Enrolled start conveniences (types ++ [⟨decl, ⟨d.table.symbols.size⟩⟩]) params
      { d with table := d.table.withSymbol .root name 0 location (.union none) } := by
  obtain ⟨hintact, hadded⟩ := h.intact.withSymbol hname hfree 0 location
    (.union none) rfl rfl rfl fun _ => rfl
  refine h.extend hintact hadded (h.listsConveniences.withSymbol_skip hadded rfl) ?_
    (h.listsParams.withSymbol_skip hadded rfl) (fun p hp => .inl hp) (fun b hb => ?_)
    fun p hp => .inl hp
  · rw [List.map_append]
    exact h.listsTypes.withSymbol_snoc hadded rfl
  · rcases List.mem_append.1 hb with hb | hb
    · exact .inl hb
    · obtain rfl := List.mem_singleton.1 hb
      have hfields : decl.body.fields = [] := by
        cases hkind : decl.body <;> rw [hkind] at hbody <;> first | rfl | cases hbody
      refine .inr ⟨?_, ?_, fun _ => ?_, fun hshape => ?_⟩
      · rw [Table.symbolAt_withSymbol_self, hdecl]
      · rw [Table.symbolAt_withSymbol_self, hfields, List.length_nil]
      · rw [Table.kindOf, Table.symbolAt_withSymbol_self]
      · rw [hbody] at hshape
        cases hshape

theorem Enrolled.constant {constant : ConstantKind} (location : Location)
    (hvalue : constant ≠ .parameter) (htype : ∀ s, constant ≠ .type s) :
    Enrolled start conveniences types params
      { d with table := d.table.withSymbol .root name 0 location (.userConstant constant) } := by
  have hcompanion : (SymbolKind.userConstant constant).isCompanion = false := by
    cases constant <;> first | rfl | exact absurd rfl (htype _)
  have hparam : (SymbolKind.userConstant constant).isParameter = false := by
    cases constant <;> first | rfl | exact absurd rfl hvalue
  obtain ⟨hintact, hadded⟩ := h.intact.withSymbol hname hfree 0 location
    (.userConstant constant) rfl rfl hcompanion fun _ => rfl
  exact h.extend hintact hadded (h.listsConveniences.withSymbol_skip hadded rfl)
    (h.listsTypes.withSymbol_skip hadded rfl) (h.listsParams.withSymbol_skip hadded hparam)
    (fun p hp => .inl hp) (fun b hb => .inl hb) fun p hp => .inl hp

theorem Enrolled.parameter (type : List TypeTerm) (location : Location) :
    Enrolled start conveniences types (params ++ [⟨name, type, ⟨d.table.symbols.size⟩⟩])
      { d with table := d.table.withSymbol .root name 0 location (.userConstant .parameter) } := by
  obtain ⟨hintact, hadded⟩ := h.intact.withSymbol hname hfree 0 location
    (.userConstant .parameter) rfl rfl rfl fun _ => rfl
  refine h.extend hintact hadded (h.listsConveniences.withSymbol_skip hadded rfl)
    (h.listsTypes.withSymbol_skip hadded rfl) ?_ (fun p hp => .inl hp) (fun b hb => .inl hb)
    fun p hp => ?_
  · rw [List.map_append]
    exact h.listsParams.withSymbol_snoc hadded rfl
  · rcases List.mem_append.1 hp with hp | hp
    · exact .inl hp
    · obtain rfl := List.mem_singleton.1 hp
      rw [Table.symbolAt_withSymbol_self]
      exact .inr rfl

theorem Enrolled.data {decl : TypeDecl} {hashed : Name} {names' : Interner}
    (hregistered : Table.DataRegistered d.names d.table .root name hashed names')
    (location : Location) {shape : DataShape} (hdecl : decl.name = name)
    (hbody : decl.body.shape? = some shape) :
    Enrolled start conveniences (types ++ [⟨decl, ⟨d.table.symbols.size⟩⟩]) params
      { d with
        names := names'
        table := d.table.withData hashed .root name decl.body.fields.length location shape
          (decl.body.fields.map Field.label) (decl.body.fields.map Field.any) } := by
  have hdomain : shape.domainArity ≤ decl.body.fields.length := by
    cases hkind : decl.body with
    | union members =>
        rw [hkind] at hbody
        cases hbody
    | constructor isNew fields =>
        rw [hkind] at hbody
        cases hbody
        exact Nat.zero_le _
    | map kind isPartial domain codomain =>
        rw [hkind] at hbody
        cases hbody
        rw [TypeBody.fields, List.length_append]
        exact Nat.le_add_right _ _
  obtain ⟨hintact, hadded⟩ := h.intact.withData hname hfree hregistered
    (List.length_map Field.label) (List.length_map Field.any) hdomain location
  refine h.extend hintact hadded
    (h.listsConveniences.withData_skip hadded (fun _ => rfl) (fun _ => rfl) fun _ => rfl) ?_
    (h.listsParams.withData_skip hadded (fun _ => rfl) (fun _ => rfl) fun _ => rfl)
    (fun p hp => .inl hp) (fun b hb => ?_) fun p hp => .inl hp
  · rw [List.map_append]
    exact h.listsTypes.withData_snoc hadded
  · rcases List.mem_append.1 hb with hb | hb
    · exact .inl hb
    · obtain rfl := List.mem_singleton.1 hb
      refine .inr ⟨?_, ?_, fun hshape => ?_, fun {shape'} hshape => ?_⟩
      · rw [Table.symbolAt_withData, if_pos rfl, hdecl]
      · rw [Table.symbolAt_withData, if_pos rfl]
      · rw [hbody] at hshape
        cases hshape
      · cases hbody.symm.trans hshape
        rw [Table.kindOf, Table.symbolAt_withData, if_pos rfl]
        exact ⟨_, rfl⟩

end

end Draft

end ManySorted
