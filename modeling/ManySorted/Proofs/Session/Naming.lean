import ManySorted.Proofs.Draft.Walk
import ManySorted.Proofs.Session.Safety
import ManySorted.Proofs.Table.Searching

/-!
# Qualified names

The dotted name of a symbol leads back to it (`Session.lookup_qualifiedName`).  Two things could go
wrong on the way.  Splitting the text at its dots could cut a name in two, or meet a segment that
was never interned; but whatever a check puts into a table is called by a segment of a path
(`Session.spelled`).  And the search could take one of the other readings of the path, in which the
qualifier starts further down; but none of them ends as high up as the symbol itself
(`Tree.search_fullPath`).
-/

namespace ManySorted

namespace Table

variable {names : Interner} {t : Table} {ns : NamespaceId} {x d : SymbolId}

/-! ## Names on paths -/

theorem Families.segment_of_plain (h : t.Families names) (hspelled : t.Spelled names)
    (hx : t.Holds x) (hplain : ∀ s, t.kindOf x ≠ .userConstant (.type s)) :
    names.Segment (t.symbolAt x).name := by
  rcases hspelled.symbol x with hsegment | ⟨-, hhashed⟩
  · exact hsegment
  · exact absurd hhashed (h.plain hx hplain)

/-- No symbol has a dot in its name.  The name of a type constant is that of its data symbol, but
for the hash sign. -/
theorem Families.segment (h : t.Families names) (hspelled : t.Spelled names) (hx : t.Holds x) :
    names.Segment (t.symbolAt x).name := by
  by_cases hplain : ∀ s, t.kindOf x ≠ .userConstant (.type s)
  · exact h.segment_of_plain hspelled hx hplain
  · obtain ⟨s, hkind⟩ := not_forall_not.1 hplain
    obtain ⟨d, shape, info, hd, rfl, rfl⟩ := h.type hkind
    refine ⟨h.knows hx, ?_⟩
    have hdata := h.segment_of_plain hspelled (holds_of_data hd) fun s hs => by
      cases hd.symm.trans hs
    rw [(h.data hd).constant_text, String.toList_append, List.mem_append]
    rintro (hhash | hname)
    · exact absurd hhash (by decide)
    · exact hdata.dotless hname

/-! ## Looking up -/

theorem bearer_eq (hnamed : (t.symbolAt x).name.isEmpty = false) (h : t.Families names)
    (hx : t.Holds x) : t.bearer x = t.symbolAt x := by
  rw [bearer]
  cases hdata : t.dataOf? x with
  | none => rfl
  | some d =>
      have hunnamed := (h.named hx).2 ⟨d, dataOf?_eq_some_iff.1 hdata⟩
      cases hunnamed.symm.trans hnamed

/-- The dotted text of the full path of a named symbol leads to the symbol. -/
theorem Regular.lookup_fullPath (h : t.Regular names) (hspelled : t.Spelled names)
    (hx : t.Holds x) (hnamed : (t.symbolAt x).name.isEmpty = false) :
    t.lookup names (names.join (t.path (t.symbolAt x).home ++ [(t.symbolAt x).name])) =
      .found x := by
  have hsegments : ∀ name ∈ t.path (t.symbolAt x).home ++ [(t.symbolAt x).name],
      names.Segment name := by
    intro name hname
    rcases List.mem_append.1 hname with hpath | hlast
    · exact h.tree.segment_of_mem_path hspelled (h.arena.home hx) name hpath
    · obtain rfl := List.mem_singleton.1 hlast
      exact h.families.segment hspelled hx
  rw [lookup, h.proper.path?_join (List.concat_ne_nil _ _) hsegments]
  exact h.arena.resolveSymbol_fullPath h.tree hx hnamed

/-- A named symbol is found by its qualified name. -/
theorem Regular.lookup_named (h : t.Regular names) (hspelled : t.Spelled names)
    (hx : t.Holds x) (hnamed : (t.symbolAt x).name.isEmpty = false) :
    t.lookup names (t.qualifiedName names x) = .found x := by
  rw [qualifiedName, bearer_eq hnamed h.families hx]
  exact h.lookup_fullPath hspelled hx hnamed

/-- A companion sort goes by the name of its data symbol, which has the same home. -/
theorem Regular.lookup_sort (h : t.Regular names) (hspelled : t.Spelled names)
    (hdata : t.dataOf? x = some d) : t.lookup names (t.qualifiedName names x) = .found d := by
  obtain ⟨shape, info, hd, rfl⟩ := h.families.sort (dataOf?_eq_some_iff.1 hdata)
  have hx := holds_of_data hd
  have hnamed : (t.symbolAt d).name.isEmpty = false := by
    rw [← Bool.not_eq_true, h.families.named hx, hd]
    rintro ⟨_, hsort⟩
    cases hsort
  rw [qualifiedName, bearer, hdata, Option.getD_some, (h.families.data hd).sort_home]
  exact h.lookup_fullPath hspelled hx hnamed

/-! ## New tables -/

theorem spelled_create (hnames : names.Proper) (id : TableId) (module : Name) (kind : ModuleKind)
    (file : Name) : (create names id module kind file).2.Spelled
      (create names id module kind file).1 := by
  have hproper := (wellFormed_create hnames id module kind file).1.proper
  have hnone : ∀ u, NoSources u → u.Spelled (create names id module kind file).1 :=
    fun _ hu => hu.elim
  refine (moves_foldl_addBuiltin dotless_builtins names _).2.spelled hproper hnone ⟨fun ns => ?_,
    fun x => .inl hproper.segment_empty⟩
  rw [namespaceAt]
  by_cases hroot : ns.index = 0
  · rw [hroot]
    exact hproper.segment_empty
  · have hbeyond : ¬ ns.index < 1 := by omega
    simp [Array.getD, hbeyond]
    exact hproper.segment_empty

end Table

section

variable {names names' : Interner} {tables : List Table} {id : TableId} {library : Library}
  {config : CheckConfig} {m : Module} {out : CheckOutput}

/-- What a check puts into its table is called by segments of paths, if what it imports is. -/
theorem checkModule_spelled (hnames : names.Proper)
    (hlibrary : ∀ entry ∈ library.tables, entry.2.Spelled names)
    (checked : checkModule names id library config m = (names', .ok out)) :
    out.table.Spelled names' := by
  obtain ⟨hgrown, hproper⟩ := checkModule_grown hnames checked
  obtain ⟨t, hmoves, htable⟩ := checkModule_moves checked
  have hsources : ∀ u, library.Supplies m.references u → u.Spelled names' := by
    rintro u ⟨-, reference, -, hfind⟩
    exact (hlibrary _ (Library.mem_of_find? hfind)).grown hgrown
  have hcreated : (Table.create names id m.name m.kind m.file).1.Grown names' := by
    obtain rfl : names' = _ := (congrArg Prod.fst checked).symm.trans checkModule_names
    exact ((Draft.proceeds_checkPasses library m).onward (Draft.initial names id config m)).grown
  have hstart := (Table.spelled_create hnames id m.name m.kind m.file).grown hcreated
  rw [htable]
  exact (hmoves.spelled hproper hsources hstart).congr (fun _ => rfl) fun _ => rfl

/-- Whatever is in a table of a session is called by a segment of a path. -/
theorem Session.spelled (h : Session names tables) : ∀ t ∈ tables, t.Spelled names := by
  induction h with
  | start => exact fun _ ht => absurd ht List.not_mem_nil
  | @intern names tables text _ ih => exact fun t ht => (ih t ht).grown (names.grown_intern text)
  | failed h checked ih =>
      exact fun t ht => (ih t ht).grown (checkModule_grown h.archive.1 checked).1
  | check h fresh held checked ih =>
      intro t ht
      rcases List.mem_append.1 ht with hold | hnew
      · exact (ih t hold).grown (checkModule_grown h.archive.1 checked).1
      · obtain rfl := List.mem_singleton.1 hnew
        exact checkModule_spelled h.archive.1 (fun entry hentry => ih _ (held entry hentry)) checked

/-- In every table of a session the qualified name of a named symbol leads to that symbol, and the
qualified name of a companion sort to its data symbol. -/
theorem Session.lookup_qualifiedName (h : Session names tables) {t : Table} (ht : t ∈ tables)
    {x : SymbolId} (hx : t.Holds x) :
    ((t.symbolAt x).name.isEmpty = false →
        t.lookup names (t.qualifiedName names x) = .found x) ∧
      ∀ d, t.dataOf? x = some d → t.lookup names (t.qualifiedName names x) = .found d := by
  have hregular := (h.intact t ht).formed.toRegular
  exact ⟨hregular.lookup_named (h.spelled t ht) hx, fun _ => hregular.lookup_sort (h.spelled t ht)⟩

end

/-! ## A type of the same name as an included one -/

namespace Namesake

/-- The names of the modules `G` and `H`, of their types, and of a renaming. -/
def names : Interner := internAll ["G", "H", "A", "L"]

def values : Field := { type := [.enumeration [.range 0 1 {}] {}] }

/-- `H` includes `G` as `L`.  Both have a type `A`, and that of `H` uses that of `G`. -/
def modules : List Module :=
  [{ kind := .domain, name := ⟨28⟩, file := ⟨0⟩,
     types := [⟨⟨30⟩, {}, .constructor true [values]⟩] },
   { kind := .domain, name := ⟨29⟩, file := ⟨0⟩,
     compositions := [{ rename := some ⟨31⟩, module := ⟨28⟩, kind := .includes }],
     types := [⟨⟨30⟩, {}, .constructor true
       [{ type := [.named { segments := [⟨31⟩, ⟨30⟩] }] }]⟩] }]

def session : Interner × List Table := checkAll names [] modules

/-- The included type and the sort of the other one are told apart by their qualified names. -/
def ToldApart (t : Table) : Prop :=
  t.Holds ⟨28⟩ ∧ (t.symbolAt ⟨28⟩).name = ⟨30⟩ ∧ t.qualifiedName session.1 ⟨28⟩ = "L.A" ∧
    t.Holds ⟨35⟩ ∧ t.dataOf? ⟨35⟩ = some ⟨34⟩ ∧ t.qualifiedName session.1 ⟨35⟩ = "A"

instance (t : Table) : Decidable (ToldApart t) :=
  inferInstanceAs (Decidable (_ ∧ _))

/-- `A` stands for the type of `H` alone, although the root is above `L`, and `L.A` for that of
`G`. -/
theorem lookup_qualifiedName_namesakes : ∃ t ∈ session.2, ToldApart t ∧
    t.lookup session.1 "L.A" = .found ⟨28⟩ ∧ t.lookup session.1 "A" = .found ⟨34⟩ := by
  have hany : session.2.any (fun t => decide (ToldApart t)) = true := by decide +kernel
  obtain ⟨t, ht, hdecide⟩ := List.any_eq_true.1 hany
  obtain ⟨himported, hname, hprefixed, hsort, hdata, hshort⟩ := of_decide_eq_true hdecide
  have hsession : Session session.1 session.2 := session_checkAll _ modules
  have hfound := (hsession.lookup_qualifiedName ht himported).1 (by rw [hname]; rfl)
  have hfound' := (hsession.lookup_qualifiedName ht hsort).2 _ hdata
  rw [hprefixed] at hfound
  rw [hshort] at hfound'
  exact ⟨t, ht, of_decide_eq_true hdecide, hfound, hfound'⟩

end Namesake

end ManySorted
