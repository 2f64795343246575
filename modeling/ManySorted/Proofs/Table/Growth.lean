import ManySorted.Proofs.Table.Families

/-!
# Tables only grow

A later table has the namespaces and symbols of an earlier one at the same handles.  Forms and
sizes are written once, and never for symbols that are built in or imported: these are settled.  So
whatever a path leads to or a name stands for stays the same (`Later.descend?`, `Later.path_eq`).

## Strategy

* **Symbols.**  What a symbol is stays, what is written to it stays, and nothing is written to one
  that is settled (`Symbol.Later`).
* **Tables.**  Nodes keep their names, parents and children, so paths lead to where they led and
  names stand for what they stood for.
* **Ways of growing.**  A child, a symbol, and writing to symbols each give a later table
  (`Table.later_withChild`, `Table.later_withSymbol`, `Table.Later.touched`).
-/

namespace ManySorted

namespace Symbol

/-- Whether nothing is written to the symbol any more. -/
def isSettled (s : Symbol) : Bool := s.isImported || s.kind.isBase

/-- Nothing is written to the symbol yet. -/
structure Bare (s : Symbol) : Prop where
  canonical : s.canonical = none
  size : s.size? = none
  unfailed : s.failed = false

/-- The symbol at a later time. -/
structure Later (s s' : Symbol) : Prop where
  blank_eq : s'.blank = s.blank
  origin_eq : s'.origin = s.origin
  settled : s.isSettled = true → s' = s
  canonical : ∀ {form}, s.canonical = some form → s'.canonical = some form
  size : ∀ {e}, s.size? = some e → s'.size? = some e

theorem isSettled_of_isBase {s : Symbol} (h : s.kind.isBase = true) : s.isSettled = true := by
  rw [isSettled, h, Bool.or_true]

theorem isSettled_eq {s s' : Symbol} (hblank : s'.blank = s.blank)
    (horigin : s'.origin = s.origin) : s'.isSettled = s.isSettled := by
  have hkind := kind_of_blank hblank
  rw [isSettled, isSettled, isImported, isImported, horigin, ← SymbolKind.isBase_unsized, hkind,
    SymbolKind.isBase_unsized]

namespace Later

theorem refl (s : Symbol) : s.Later s := ⟨rfl, rfl, fun _ => rfl, fun h => h, fun h => h⟩

theorem trans {s s' s'' : Symbol} (h : s.Later s') (h' : s'.Later s'') : s.Later s'' where
  blank_eq := h'.blank_eq.trans h.blank_eq
  origin_eq := h'.origin_eq.trans h.origin_eq
  settled hs := by
    have hsame := h.settled hs
    rw [h'.settled (hsame ▸ hs), hsame]
  canonical hform := h'.canonical (h.canonical hform)
  size he := h'.size (h.size he)

end Later

end Symbol

namespace Table

variable {t t' t'' : Table} {ns base home : NamespaceId} {id d : SymbolId} {name : Name}

/-- The table at a later time. -/
structure Later (t t' : Table) : Prop where
  id_eq : t'.id = t.id
  hasNamespace : ∀ {ns}, t.HasNamespace ns → t'.HasNamespace ns
  name_eq : ∀ {ns}, t.HasNamespace ns → (t'.namespaceAt ns).name = (t.namespaceAt ns).name
  parent_eq : ∀ {ns}, t.HasNamespace ns → (t'.namespaceAt ns).parent = (t.namespaceAt ns).parent
  child? : ∀ {ns name c}, (t.namespaceAt ns).child? name = some c →
    (t'.namespaceAt ns).child? name = some c
  symbol? : ∀ {ns name id}, (t.namespaceAt ns).symbol? name = some id →
    (t'.namespaceAt ns).symbol? name = some id
  holds : ∀ {id}, t.Holds id → t'.Holds id
  symbol : ∀ {id}, t.Holds id → (t.symbolAt id).Later (t'.symbolAt id)

namespace Later

theorem refl (t : Table) : t.Later t where
  id_eq := rfl
  hasNamespace h := h
  name_eq _ := rfl
  parent_eq _ := rfl
  child? h := h
  symbol? h := h
  holds h := h
  symbol _ := .refl _

theorem trans (h : t.Later t') (h' : t'.Later t'') : t.Later t'' where
  id_eq := h'.id_eq.trans h.id_eq
  hasNamespace hns := h'.hasNamespace (h.hasNamespace hns)
  name_eq hns := (h'.name_eq (h.hasNamespace hns)).trans (h.name_eq hns)
  parent_eq hns := (h'.parent_eq (h.hasNamespace hns)).trans (h.parent_eq hns)
  child? hc := h'.child? (h.child? hc)
  symbol? hid := h'.symbol? (h.symbol? hid)
  holds hid := h'.holds (h.holds hid)
  symbol hid := (h.symbol hid).trans (h'.symbol (h.holds hid))

/-! ## What stays -/

theorem descend? (h : t.Later t') {segments : List Name}
    (hns : t.descend? base segments = some ns) : t'.descend? base segments = some ns := by
  induction segments generalizing base with
  | nil => exact hns
  | cons segment rest ih =>
      rw [Table.descend?] at hns
      cases hc : (t.namespaceAt base).child? segment with
      | none => simp [hc] at hns
      | some child =>
          rw [hc] at hns
          rw [Table.descend?, h.child? hc]
          exact ih hns

theorem path_eq (h : t.Later t') (ht : t.Tree) (ht' : t'.Tree) (hns : t.HasNamespace ns) :
    t'.path ns = t.path ns := by
  refine ht.induct (motive := fun ns => t'.path ns = t.path ns) ?_ ?_ hns
  · rw [ht.path_root, ht'.path_root]
  · intro ns p hp ih
    have hns := hasNamespace_of_parent hp
    rw [ht.path_of_parent hp, ht'.path_of_parent ((h.parent_eq hns).trans hp), ih, h.name_eq hns]

theorem name_symbolAt (h : t.Later t') (hid : t.Holds id) :
    (t'.symbolAt id).name = (t.symbolAt id).name := Symbol.name_of_blank (h.symbol hid).blank_eq

theorem home_symbolAt (h : t.Later t') (hid : t.Holds id) :
    (t'.symbolAt id).home = (t.symbolAt id).home := Symbol.home_of_blank (h.symbol hid).blank_eq

theorem arity_symbolAt (h : t.Later t') (hid : t.Holds id) :
    (t'.symbolAt id).arity = (t.symbolAt id).arity := Symbol.arity_of_blank (h.symbol hid).blank_eq

theorem unsized_kindOf (h : t.Later t') (hid : t.Holds id) :
    (t'.kindOf id).unsized = (t.kindOf id).unsized := Symbol.kind_of_blank (h.symbol hid).blank_eq

theorem kindOf_data (h : t.Later t') {shape : DataShape} {info : DataInfo}
    (hid : t.kindOf id = .data shape info) : t'.kindOf id = .data shape info := by
  have hkind := h.unsized_kindOf (holds_of_data hid)
  rw [hid] at hkind
  exact SymbolKind.unsized_eq_data.1 hkind

theorem dataOf? (h : t.Later t') (hid : t.dataOf? id = some d) : t'.dataOf? id = some d := by
  have hsort : (t.kindOf id).unsized = .userSort d none := by
    unfold Table.dataOf? at hid
    split at hid
    · obtain rfl := Option.some.inj hid
      simp [*, SymbolKind.unsized]
    · cases hid
  have hkind := h.unsized_kindOf (holds_of_sort hsort)
  obtain ⟨size, hsize⟩ := SymbolKind.unsized_eq_userSort.1 (hkind.trans hsort)
  simp [Table.dataOf?, hsize]

theorem sortOf? (h : t.Later t') {sort : SymbolId} (hid : t.sortOf? id = some sort) :
    t'.sortOf? id = some sort := by
  unfold Table.sortOf? at hid
  split at hid
  case h_1 data size hkind =>
    have hsort : (t.kindOf id).unsized = .userSort data none := by rw [hkind]; rfl
    obtain ⟨size', hkind'⟩ := SymbolKind.unsized_eq_userSort.1
      ((h.unsized_kindOf (holds_of_sort hsort)).trans hsort)
    simpa [Table.sortOf?, hkind'] using hid
  case h_2 kind =>
    cases hkind : t.kindOf id with
    | data shape info => simpa [Table.sortOf?, h.kindOf_data hkind, hkind] using hid
    | _ => simp [hkind, SymbolKind.info?] at hid

end Later

/-! ## The ways of growing -/

/-- Whatever changes but the namespaces and symbols. -/
theorem Later.of_eq (hid : t'.id = t.id) (hnamespaces : t'.namespaces = t.namespaces)
    (hsymbols : t'.symbols = t.symbols) : t.Later t' := by
  have hnode : ∀ ns, t'.namespaceAt ns = t.namespaceAt ns := fun ns => by
    simp [namespaceAt, hnamespaces]
  have hsymbol : ∀ id, t'.symbolAt id = t.symbolAt id := fun id => by
    simp [symbolAt, hsymbols]
  refine ⟨hid, ?_, ?_, ?_, ?_, ?_, ?_, ?_⟩
  · simp [HasNamespace, hnamespaces]
  · exact fun _ => by rw [hnode]
  · exact fun _ => by rw [hnode]
  · exact fun hc => by rwa [hnode]
  · exact fun hs => by rwa [hnode]
  · simp [Holds, hsymbols]
  · exact fun _ => by rw [hsymbol]; exact .refl _

/-- Only the given symbols were written to. -/
structure Touched (ids : List SymbolId) (t t' : Table) : Prop where
  id_eq : t'.id = t.id
  namespaces_eq : t'.namespaces = t.namespaces
  holds : ∀ y, t'.Holds y ↔ t.Holds y
  blank : ∀ y, (t'.symbolAt y).blank = (t.symbolAt y).blank
  same : ∀ {y}, y ∉ ids → t'.symbolAt y = t.symbolAt y

namespace Touched

variable {ids ids' : List SymbolId}

theorem refl (ids : List SymbolId) (t : Table) : Touched ids t t :=
  ⟨rfl, rfl, fun _ => Iff.rfl, fun _ => rfl, fun _ => rfl⟩

theorem trans (h : Touched ids t t') (h' : Touched ids t' t'') : Touched ids t t'' where
  id_eq := h'.id_eq.trans h.id_eq
  namespaces_eq := h'.namespaces_eq.trans h.namespaces_eq
  holds y := (h'.holds y).trans (h.holds y)
  blank y := (h'.blank y).trans (h.blank y)
  same hy := (h'.same hy).trans (h.same hy)

theorem mono (h : Touched ids t t') (hids : ∀ y ∈ ids, y ∈ ids') : Touched ids' t t' :=
  { h with same := fun hy => h.same fun hmem => hy (hids _ hmem) }

theorem updateSymbol {f : Symbol → Symbol} (hf : ∀ s, (f s).blank = s.blank) :
    Touched [id] t (t.updateSymbol id f) where
  id_eq := rfl
  namespaces_eq := rfl
  holds _ := holds_updateSymbol
  blank y := by
    rw [symbolAt_updateSymbol]
    split
    · exact hf _
    · rfl
  same hy := by rw [symbolAt_updateSymbol, if_neg (fun h => hy (List.mem_singleton.2 h.1))]

end Touched

theorem touched_setCanonical {form : CanonicalForm} (h : t.setCanonical id form = .ok t')
    (hid : t.Holds id) : Touched [id] t t' ∧ (t.symbolAt id).canonical = none ∧
      t'.symbolAt id = { t.symbolAt id with canonical := some form } := by
  unfold setCanonical at h
  split at h
  · cases h
  · next hnone =>
      cases h
      refine ⟨.updateSymbol fun _ => rfl, by simpa using hnone, ?_⟩
      rw [symbolAt_updateSymbol, if_pos ⟨rfl, hid⟩]

theorem touched_setSize {e : SizeExpr} (h : t.setSize id e = .ok t') (hid : t.Holds id) :
    ∃ data, Touched [id] t t' ∧ t.kindOf id = .userSort data none ∧
      t'.symbolAt id = { t.symbolAt id with kind := .userSort data (some e) } := by
  unfold setSize at h
  split at h
  · next data hkind =>
      cases h
      refine ⟨data, ⟨rfl, rfl, fun _ => holds_updateSymbol, fun y => ?_, fun hy => ?_⟩, hkind, ?_⟩
      · rw [symbolAt_updateSymbol]
        split
        · next hy =>
            have hkind : (t.symbolAt y).kind = .userSort data none := hy.1 ▸ hkind
            rw [Symbol.blank, Symbol.blank, hkind]
            rfl
        · rfl
      · rw [symbolAt_updateSymbol, if_neg (fun h => hy (List.mem_singleton.2 h.1))]
      · rw [symbolAt_updateSymbol, if_pos ⟨rfl, hid⟩]
  · cases h

/-- Where only new symbols were written to. -/
theorem Later.touched {ids : List SymbolId} (h : t.Later t') (htouched : Touched ids t' t'')
    (hnew : ∀ y ∈ ids, ¬ t.Holds y) : t.Later t'' := by
  have hnode : ∀ ns, t''.namespaceAt ns = t'.namespaceAt ns := fun ns => by
    rw [namespaceAt, namespaceAt, htouched.namespaces_eq]
  refine ⟨htouched.id_eq.trans h.id_eq, fun hns => ?_, fun hns => ?_, fun hns => ?_, fun hc => ?_,
    fun hs => ?_, fun hid => (htouched.holds _).2 (h.holds hid), fun {id} hid => ?_⟩
  · rw [HasNamespace, htouched.namespaces_eq]
    exact h.hasNamespace hns
  · rw [hnode, h.name_eq hns]
  · rw [hnode, h.parent_eq hns]
  · rw [hnode, h.child? hc]
  · rw [hnode, h.symbol? hs]
  · rw [htouched.same fun hmem => hnew id hmem hid]
    exact h.symbol hid

theorem later_withChild (hp : t.HasNamespace base)
    (hfree : (t.namespaceAt base).child? name = none) : t.Later (t.withChild base name) where
  id_eq := rfl
  hasNamespace hns := hasNamespace_withChild.2 (Nat.le_of_lt hns)
  name_eq hns := by rw [name_withChild, if_neg (Nat.ne_of_lt hns)]
  parent_eq hns := by rw [parent_withChild, if_neg (Nat.ne_of_lt hns)]
  child? hc := by
    rw [child?_withChild hp, if_neg, hc]
    rintro ⟨rfl, rfl⟩
    rw [hfree] at hc
    cases hc
  symbol? hid := by rw [symbol?_withChild, hid]
  holds h := h
  symbol _ := .refl _

theorem later_withSymbol {arity : Nat} {location : Location} {kind : SymbolKind}
    (hhome : t.HasNamespace home) (hfree : t.Free home name) :
    t.Later (t.withSymbol home name arity location kind) where
  id_eq := rfl
  hasNamespace hns := hasNamespace_withSymbol.2 hns
  name_eq _ := name_withSymbol _
  parent_eq _ := parent_withSymbol _
  child? hc := by rw [child?_withSymbol, hc]
  symbol? hid := by
    rw [symbol?_withSymbol hhome, if_neg, hid]
    rintro ⟨hnamed, rfl, rfl⟩
    rw [hfree.of_named hnamed] at hid
    cases hid
  holds hid := holds_withSymbol.2 (Nat.le_of_lt hid)
  symbol hid := by
    rw [symbolAt_withSymbol, if_neg (Nat.ne_of_lt hid)]
    exact .refl _

end Table

end ManySorted
