import ManySorted.Proofs.Draft.Passes
import ManySorted.Proofs.Draft.Safety
import ManySorted.Proofs.Table.Arena

/-!
# What a table keeps notes of

Besides its namespaces, symbols and reports a table has a kind, rules, literals and dependencies
(`Table.notes`).  An import changes them only where it takes over the literals and dependencies of
the foreign table (`Draft.notes_importModule`).

## Strategy

* Registering, marking and writing change the symbols of a table and the entries of its namespaces,
  and nothing else.  What does not depend on these (`Table.Stable`) is the same afterwards, step by
  step of an import.
* The notes are stable in this sense, and reports and new namespaces leave them as they are as well.
* A pass keeps some of the notes (`Draft.Preserves`) if each of its steps does.
-/

namespace ManySorted

namespace Table

variable {γ : Type} {φ : Table → γ} {names : Interner} {foreign t t' : Table}
  {x : SymbolId}

/-- What does not depend on symbols nor on the names under which they are entered. -/
structure Stable (φ : Table → γ) : Prop where
  symbols : ∀ (t : Table) symbols, φ { t with symbols } = φ t
  entered : ∀ (t : Table) (home : NamespaceId) (name : Name) (id : SymbolId),
    φ { t with namespaces := t.namespaces.modify home.index (·.withSymbol name id) } = φ t

theorem stable_reports : Stable Table.reports := ⟨fun _ _ => rfl, fun _ _ _ _ => rfl⟩

theorem map_name_modify {nodes : Array Namespace} {i : Nat} {g : Namespace → Namespace}
    (hg : ∀ ns, (g ns).name = ns.name) :
    (nodes.modify i g).toList.map Namespace.name = nodes.toList.map Namespace.name := by
  refine List.ext_getElem (by simp) fun j hj hj' => ?_
  simp only [List.getElem_map, Array.getElem_toList, Array.getElem_modify]
  split
  · exact hg _
  · rfl

theorem stable_namespaceNames : Stable namespaceNames where
  symbols _ _ := rfl
  entered t home name id := by
    rw [namespaceNames, namespaceNames, List.map_drop, List.map_drop]
    exact congrArg (List.drop 1) (map_name_modify fun _ => rfl)

namespace Stable

variable (h : Stable φ)
include h

theorem register {home : NamespaceId} {name : Name} {arity : Nat} {location : Location}
    {kind : SymbolKind} (hregister : t.register home name arity location kind = .ok (x, t')) :
    φ t' = φ t := by
  rcases t.register_cases home name arity location kind with ⟨-, hcase⟩ | ⟨existing, -, hcase⟩
  · rw [hcase] at hregister
    cases hregister
    rw [withSymbol]
    split
    · exact h.symbols ..
    · exact (h.symbols { t with namespaces := _ } _).trans (h.entered t home name ⟨t.symbols.size⟩)
  · cases hcase.symm.trans hregister

theorem registerIfFree (t : Table) (home : NamespaceId) (name : Name) (arity : Nat)
    (location : Location) (kind : SymbolKind) :
    φ (t.registerIfFree home name arity location kind) = φ t := by
  unfold Table.registerIfFree
  split
  · next hregister => exact h.register hregister
  · rfl

theorem registerData {names' : Interner} {home : NamespaceId} {name : Name} {arity : Nat}
    {location : Location} {shape : DataShape} {labels : List (Option Name)} {any : List Bool}
    (hregister : t.registerData names home name arity location shape labels any =
      .ok (x, names', t')) : φ t' = φ t := by
  unfold Table.registerData at hregister
  simp only at hregister
  split at hregister
  · cases hregister
  · next hdata =>
      cases hregister
      rw [h.registerIfFree, h.registerIfFree, h.register hdata]

theorem setCanonical {form : CanonicalForm} (hset : t.setCanonical x form = .ok t') :
    φ t' = φ t := by
  unfold Table.setCanonical at hset
  split at hset
  · cases hset
  · cases hset
    exact h.symbols ..

theorem setSize {e : SizeExpr} (hset : t.setSize x e = .ok t') : φ t' = φ t := by
  unfold Table.setSize at hset
  split at hset
  · cases hset
    exact h.symbols ..
  · cases hset

theorem registerClone {d d' : Draft} {s : Symbol} {home : NamespaceId}
    (hregister : Importing.registerClone d s home = some (x, d')) : φ d'.table = φ d.table := by
  unfold Importing.registerClone at hregister
  split at hregister
  · split at hregister
    · next hdata =>
        cases hregister
        exact h.registerData hdata
    · cases hregister
  · split at hregister
    · next hplain =>
        cases hregister
        exact h.register hplain
    · cases hregister

theorem foldl_adopt (imp : Importing) (news : List (SymbolId × SymbolId)) (links : Links)
    (t : Table) : φ (news.foldl imp.adopt (links, t)).2 = φ t := by
  induction news generalizing links t with
  | nil => rfl
  | cons p rest ih => exact (ih _ _).trans (h.symbols ..)

theorem fillClone {links : Links} {pair : SymbolId × SymbolId}
    (hfill : Importing.fillClone foreign links t pair = .ok t') : φ t' = φ t := by
  obtain ⟨t₁, hform, hsize⟩ := Importing.fillClone_cases hfill
  have hfirst : φ t₁ = φ t := by
    rcases hform with ⟨_, rfl⟩ | ⟨form, _, hset⟩
    · rfl
    · exact h.setCanonical hset
  rcases hsize with ⟨_, rfl⟩ | ⟨size, _, hset⟩
  · exact hfirst
  · exact (h.setSize hset).trans hfirst

/-- Cloning changes nothing but symbols and reports. -/
theorem cloneInto (hreport : ∀ (t : Table) r, φ (t.report r) = φ t) (imp : Importing) (s : Symbol)
    (home : NamespaceId) (links : Links) (d : Draft) :
    φ (imp.cloneInto s home links d).2.table = φ d.table := by
  unfold Importing.cloneInto
  split
  · split
    · rfl
    · exact hreport ..
  · split
    · rfl
    · next hregister => exact (h.foldl_adopt ..).trans (h.registerClone hregister)

theorem place (hreport : ∀ (t : Table) r, φ (t.report r) = φ t) (imp : Importing) (s : Symbol)
    (links : Links) (d : Draft) : φ (imp.place s links d).2.table = φ d.table := by
  have hclone := fun home => h.cloneInto hreport imp s home links d
  unfold Importing.place
  split
  · rfl
  · simp only
    split
    any_goals first | rfl | exact hclone _
    all_goals
      split
      · rfl
      · exact hclone _

end Stable

end Table

/-- What a table has besides namespaces, symbols and reports. -/
structure Notes where
  kind : ModuleKind
  rules : List Rule
  literals : OrderedSet Literal
  dependencies : OrderedMap Name TableId

namespace Table

variable {t t' : Table} {names : Interner}

def notes (t : Table) : Notes := ⟨t.kind, t.rules, t.literals, t.dependencies⟩

theorem stable_notes : Stable notes := ⟨fun _ _ => rfl, fun _ _ _ _ => rfl⟩

theorem rules_of_notes (h : t'.notes = t.notes) : t'.rules = t.rules := congrArg Notes.rules h

@[simp]
theorem notes_report (t : Table) (r : Report) : (t.report r).notes = t.notes := rfl

theorem notes_foldl {α : Type} {f : Table → α → Table} (l : List α)
    (h : ∀ (t : Table) a, (f t a).notes = t.notes) (t : Table) : (l.foldl f t).notes = t.notes := by
  induction l generalizing t with
  | nil => rfl
  | cons a rest ih => exact (ih _).trans (h t a)

@[simp]
theorem notes_reportAll (t : Table) (rs : List Report) : (t.reportAll rs).notes = t.notes :=
  notes_foldl rs notes_report t

@[simp]
theorem notes_childNamespace (t : Table) (parent : NamespaceId) (name : Name) :
    (t.childNamespace parent name).2.notes = t.notes := by
  unfold childNamespace
  split <;> rfl

theorem notes_writeForm {x : SymbolId} {form : CanonicalForm} (h : t.writeForm x form = .ok t') :
    t'.notes = t.notes := by
  unfold writeForm at h
  split at h
  · obtain ⟨t₁, hsort, h⟩ := except_bind_eq_ok.1 h
    exact (stable_notes.setCanonical h).trans (stable_notes.setCanonical hsort)
  · exact stable_notes.setCanonical h

theorem notes_foldlM {α : Type} {f : Table → α → Except Fault Table} {l : List α}
    (hf : ∀ (t t' : Table) a, f t a = .ok t' → t'.notes = t.notes) (h : l.foldlM f t = .ok t') :
    t'.notes = t.notes :=
  foldlM_ok_induct (motive := fun c => c.notes = t.notes) h rfl fun a _ c c' hc hstep =>
    (hf c c' a hstep).trans hc

theorem notes_markFamilyFailed (t : Table) (x : SymbolId) :
    (t.markFamilyFailed x).notes = t.notes := by
  unfold markFamilyFailed
  simp only
  split <;> rfl

theorem notes_recreateNamespaces (t : Table) (destination : NamespaceId) (foreign : Table) :
    (t.recreateNamespaces destination foreign).2.notes = t.notes := by
  unfold recreateNamespaces
  generalize [destination] = homes
  induction foreign.namespaces.toList.drop 1 generalizing homes t with
  | nil => rfl
  | cons node rest ih =>
      rw [List.foldl_cons]
      exact (ih _ _).trans (t.notes_childNamespace _ _)

theorem notes_create (names : Interner) (id : TableId) (module : Name) (kind : ModuleKind)
    (file : Name) :
    (create names id module kind file).2.notes = ⟨kind, [], ∅, ⟨[(module, id)]⟩⟩ := by
  have hbuiltins : ∀ (l : List (String × Nat × SymbolKind)) (names : Interner) (t : Table),
      (l.foldl addBuiltin (names, t)).2.notes = t.notes := by
    intro l
    induction l with
    | nil => exact fun _ _ => rfl
    | cons builtin rest ih => exact fun _ t => (ih _ _).trans (stable_notes.registerIfFree t ..)
  exact hbuiltins builtins names _

end Table

namespace Draft

variable {α β γ : Type} {φ : Notes → γ} {x : DraftM α} {f : α → DraftM β} {d d' : Draft}

/-- The pass leaves this part of the notes as it is, if it ends. -/
structure Preserves (φ : Notes → γ) (x : DraftM α) : Prop where
  ok : ∀ {d a d'}, x d = .ok a d' → φ d'.table.notes = φ d.table.notes

/-! ## Putting passes together -/

namespace Preserves

theorem bind (hx : Preserves φ x) (hf : ∀ a, Preserves φ (f a)) : Preserves φ (x >>= f) where
  ok hrun := by
    obtain ⟨a, d', hx', hf'⟩ := bind_eq_ok.1 hrun
    exact ((hf a).ok hf').trans (hx.ok hx')

theorem modifyGet {g : Draft → α × Draft} (h : ∀ d : Draft, (g d).2.table.notes = d.table.notes) :
    Preserves φ (modifyGet g) where
  ok hrun := by
    cases hrun
    exact congrArg φ (h _)

theorem modify {g : Draft → Draft} (h : ∀ d : Draft, (g d).table.notes = d.table.notes) :
    Preserves φ (modify g) := modifyGet h

theorem modifyTable {g : Table → Table} (h : ∀ t : Table, (g t).notes = t.notes) :
    Preserves φ (modifyTable g) := modify fun d => h d.table

theorem pure (a : α) : Preserves φ (pure a) := modifyGet (g := fun d => (a, d)) fun _ => rfl

theorem discard (hx : Preserves φ x) : Preserves φ (discard x) :=
  hx.bind (f := fun _ => Pure.pure ()) fun _ => pure ()

theorem ite {c : Prop} [Decidable c] {y : DraftM α} (hx : Preserves φ x) (hy : Preserves φ y) :
    Preserves φ (if c then x else y) := by
  split
  · exact hx
  · exact hy

theorem get : Preserves φ get := modifyGet (g := fun d => (d, d)) fun _ => rfl

theorem getTable : Preserves φ getTable := get.bind fun _ => pure _

theorem getNames : Preserves φ getNames := get.bind fun _ => pure _

theorem throw (abort : Abort) : Preserves φ (throw abort : DraftM α) where
  ok hrun := by cases hrun

theorem tick : Preserves φ tick :=
  (modify fun _ => by rfl).bind fun _ => get.bind fun _ => (throw _).ite (pure _)

theorem tryModifyTable {g : Table → Except Fault Table}
    (h : ∀ t t' : Table, g t = .ok t' → t'.notes = t.notes) : Preserves φ (tryModifyTable g) where
  ok {d _ d'} hrun := by
    rw [Draft.tryModifyTable, getTable_bind] at hrun
    cases hg : g d.table with
    | ok table =>
        rw [hg] at hrun
        cases hrun
        exact congrArg φ (h _ _ hg)
    | error fault =>
        rw [hg] at hrun
        cases hrun

theorem report (location : Location) (problem : Problem) : Preserves φ (report location problem) :=
  modifyTable fun _ => rfl

theorem forM {g : α → DraftM PUnit} (l : List α) (h : ∀ a, Preserves φ (g a)) :
    Preserves φ (l.forM g) := by
  induction l with
  | nil => exact pure _
  | cons a rest ih => exact (h a).bind fun _ => ih

theorem foldlM {g : β → α → DraftM β} (l : List α) (h : ∀ b a, Preserves φ (g b a)) (b : β) :
    Preserves φ (l.foldlM g b) := by
  induction l generalizing b with
  | nil => exact pure b
  | cons a rest ih => exact (h b a).bind ih

theorem mapM {g : α → DraftM β} (l : List α) (h : ∀ a, Preserves φ (g a)) :
    Preserves φ (l.mapM g) := by
  induction l with
  | nil => exact pure []
  | cons a rest ih =>
      rw [List.mapM_cons]
      exact (h a).bind fun b => ih.bind fun bs => pure _

theorem filterMapM {g : α → DraftM (Option β)} (l : List α) (h : ∀ a, Preserves φ (g a)) :
    Preserves φ (l.filterMapM g) := by
  induction l with
  | nil => exact pure []
  | cons a rest ih =>
      rw [List.filterMapM_cons]
      refine (h a).bind fun b => ?_
      cases b with
      | none => exact ih
      | some b => exact ih.bind fun bs => pure _

theorem filterM {g : α → DraftM Bool} (l : List α) (h : ∀ a, Preserves φ (g a)) :
    Preserves φ (l.filterM g) := by
  have haux : ∀ kept, Preserves φ (l.filterAuxM g kept) := by
    induction l with
    | nil => exact fun kept => pure _
    | cons a rest ih => exact fun kept => (h a).bind fun keep => ih _
  exact (haux []).bind fun _ => pure _

end Preserves

/-! ## Importing -/

variable {foreign : Table} {rename : Option Name} {span : Span} {reference : ModuleRef}
  {library : Library} {m : Module}

/-- After the literals and dependencies of the foreign table are taken over, the notes stay. -/
theorem notes_embed (hrun : embed foreign rename span d = .ok () d') :
    d'.table.notes = (d.table.absorb foreign).notes := by
  obtain ⟨_, d₁, habsorb, hrest⟩ := bind_eq_ok.1 hrun
  cases habsorb
  refine Preserves.ok (φ := id) ?_ hrest
  refine (Preserves.modifyGet fun d => ?_).bind fun homes => Preserves.getTable.bind fun t => ?_
  · cases rename with
    | none => exact Table.notes_recreateNamespaces ..
    | some name =>
        exact (Table.notes_recreateNamespaces ..).trans (Table.notes_childNamespace ..)
  refine (Preserves.foldlM _ (fun links s => ?_) _).bind fun links => ?_
  · exact Preserves.tick.bind fun _ =>
      .modifyGet fun d => Table.stable_notes.place Table.notes_report _ s links d
  refine (Preserves.tryModifyTable fun t t' h => ?_).bind fun _ =>
    Preserves.getNames.bind fun names => .tryModifyTable fun t t' h => ?_
  · exact Table.notes_foldlM (fun _ _ _ => Table.stable_notes.fillClone) h
  · obtain ⟨_, _, hreturn⟩ := except_bind_eq_ok.1 h
    cases hreturn
    rfl

/-- An import that is not refused takes over literals and dependencies, and that is all. -/
theorem notes_importModule (hrun : importModule reference foreign d = .ok () d') :
    d'.table.notes = d.table.notes ∨
      d.table.importRefusal? d.names reference foreign = none ∧
        d'.table.notes = (d.table.absorb foreign).notes := by
  rw [importModule, get_bind] at hrun
  cases hrefusal : d.table.importRefusal? d.names reference foreign with
  | some problem =>
      rw [hrefusal] at hrun
      cases hrun
      exact .inl rfl
  | none =>
      rw [hrefusal] at hrun
      exact .inr ⟨rfl, notes_embed hrun⟩

/-- An import by name takes a step and notes the request before it imports what the library has. -/
theorem importReference_eq_ok (hrun : importReference library m reference d = .ok () d') :
    match library.find? reference.module with
    | some foreign =>
        importModule reference foreign { d with clock := d.clock.advance.request } = .ok () d'
    | none => d'.table.notes = d.table.notes := by
  obtain ⟨_, d₁, htick, hrun⟩ := bind_eq_ok.1 hrun
  rw [tick_eq] at htick
  split at htick
  · cases htick
  · cases htick
    obtain ⟨_, d₂, hrequest, hrun⟩ := bind_eq_ok.1 hrun
    cases hrequest
    split
    · next hfind =>
        rw [hfind] at hrun
        exact hrun
    · next hfind =>
        rw [hfind] at hrun
        cases hrun
        rfl

theorem notes_importReference (hrun : importReference library m reference d = .ok () d') :
    d'.table.notes = d.table.notes ∨
      ∃ foreign, library.find? reference.module = some foreign ∧
        d.table.importRefusal? d.names reference foreign = none ∧
          d'.table.notes = (d.table.absorb foreign).notes := by
  have hrun := importReference_eq_ok hrun
  cases hfind : library.find? reference.module with
  | some foreign =>
      rw [hfind] at hrun
      exact (notes_importModule hrun).imp_right fun h => ⟨foreign, rfl, h⟩
  | none =>
      rw [hfind] at hrun
      exact .inl hrun

theorem preserves_importReference (library : Library) (m : Module) (reference : ModuleRef) :
    Preserves Notes.rules (importReference library m reference) where
  ok hrun := by
    rcases notes_importReference hrun with h | ⟨foreign, -, -, h⟩
    · exact congrArg Notes.rules h
    · exact (congrArg Notes.rules h).trans rfl

end Draft

end ManySorted
