import ManySorted.Name

/-!
# Names as a growing pool

An interner keeps every string once, so names and strings determine each other
(`Interner.Proper.text_inj`).  Interning puts new strings behind the old ones, so what a name stands
for never changes (`Interner.Grown.text`).
-/

namespace ManySorted

/-- A list of results all of which are there. -/
theorem mapM_eq_some_map {α β : Type} {f : α → Option β} {g : α → β} {l : List α}
    (h : ∀ a ∈ l, f a = some (g a)) : l.mapM f = some (l.map g) := by
  induction l with
  | nil => rfl
  | cons a rest ih =>
      rw [List.mapM_cons, h a List.mem_cons_self, ih fun b hb => h b (List.mem_cons_of_mem _ hb)]
      rfl

namespace Interner

/-- Every string is kept once, the empty one first. -/
structure Proper (names : Interner) : Prop where
  nodup : names.words.toList.Nodup
  first : names.words[0]? = some ""

/-- Whether a name belongs to the interner. -/
def Knows (names : Interner) (name : Name) : Prop := name.index < names.size

instance (names : Interner) (name : Name) : Decidable (names.Knows name) :=
  inferInstanceAs (Decidable (_ < _))

/-- What `names` holds stands in `grown` at the same place. -/
def Grown (names grown : Interner) : Prop := names.words.toList <+: grown.words.toList

theorem proper_initial : initial.Proper where
  nodup := by decide +kernel
  first := rfl

theorem getElem?_of_knows {names : Interner} {name : Name} (h : names.Knows name) :
    names.words.toList[name.index]? = some (names.text name) := by
  have hlt : name.index < names.words.size := h
  simp [text, hlt]

namespace Proper

variable {names : Interner}

theorem text_inj (hnames : names.Proper) {a b : Name} (ha : names.Knows a) (hb : names.Knows b)
    (h : names.text a = names.text b) : a = b := by
  have hlt : a.index < names.words.toList.length := ha
  have hindex : a.index = b.index := by
    refine (List.getElem?_inj hlt hnames.nodup).1 ?_
    rw [getElem?_of_knows ha, getElem?_of_knows hb, h]
  cases a
  cases b
  exact congrArg Name.mk hindex

theorem knows_empty (hnames : names.Proper) : names.Knows .empty :=
  (Array.getElem?_eq_some_iff.1 hnames.first).1

theorem text_empty (hnames : names.Proper) : names.text .empty = "" := by
  have hzero : names.words[0]? = some "" := hnames.first
  simp [text, Name.empty, hzero]

theorem isEmpty_iff (hnames : names.Proper) {name : Name} (hname : names.Knows name) :
    name.isEmpty = true ↔ names.text name = "" := by
  constructor
  · intro h
    obtain rfl : name = .empty := by
      cases name
      simpa [Name.isEmpty, Name.empty] using h
    exact hnames.text_empty
  · intro h
    rw [hnames.text_inj hname hnames.knows_empty (h.trans hnames.text_empty.symm)]
    rfl

end Proper

/-! ## Interning appends -/

theorem find?_eq_none_iff {names : Interner} {s : String} :
    names.find? s = none ↔ s ∉ names.words.toList := by
  simp [find?]

theorem knows_of_find? {names : Interner} {s : String} {name : Name}
    (h : names.find? s = some name) : names.Knows name := by
  simp only [find?, Array.idxOf?_eq_map_finIdxOf?_val, Option.map_map,
    Option.map_eq_some_iff] at h
  obtain ⟨i, _, rfl⟩ := h
  exact i.isLt

/-- An interned string is known by its name. -/
theorem knows_intern (names : Interner) (s : String) :
    (names.intern s).2.Knows (names.intern s).1 := by
  unfold intern
  split
  case h_1 h => exact knows_of_find? h
  case h_2 => simp [Knows, size]

theorem Proper.intern {names : Interner} (hnames : names.Proper) (s : String) :
    (names.intern s).2.Proper := by
  unfold Interner.intern
  split
  case h_1 => exact hnames
  case h_2 hnew =>
    refine ⟨?_, ?_⟩
    · simp only [Array.toList_push]
      refine List.nodup_append.2 ⟨hnames.nodup, by simp, fun a ha b hb heq => ?_⟩
      obtain rfl := List.mem_singleton.1 hb
      exact find?_eq_none_iff.1 hnew (heq ▸ ha)
    · have hfirst : names.words[0]? = some "" := hnames.first
      have hsize : 0 < names.words.size := (Array.getElem?_eq_some_iff.1 hfirst).1
      rw [Array.getElem?_push_lt hsize, ← hfirst, Array.getElem?_eq_getElem hsize]

namespace Grown

variable {names names' names'' : Interner}

theorem refl (names : Interner) : names.Grown names := List.prefix_rfl

theorem trans (h : names.Grown names') (h' : names'.Grown names'') : names.Grown names'' :=
  List.IsPrefix.trans h h'

theorem knows (h : names.Grown names') {name : Name} (hname : names.Knows name) :
    names'.Knows name := by
  have hle : names.words.toList.length ≤ names'.words.toList.length := h.length_le
  simp only [Array.length_toList] at hle
  exact Nat.lt_of_lt_of_le hname hle

/-- A name keeps its string. -/
theorem text (h : names.Grown names') {name : Name} (hname : names.Knows name) :
    names'.text name = names.text name := by
  obtain ⟨rest, hrest⟩ := h
  have hlt : name.index < names.words.toList.length := hname
  have hboth : some (names'.text name) = some (names.text name) := by
    rw [← getElem?_of_knows (knows ⟨rest, hrest⟩ hname), ← getElem?_of_knows hname, ← hrest,
      List.getElem?_append_left hlt]
  exact Option.some.inj hboth

/-- A string that is known keeps its name. -/
theorem find? (h : names.Grown names') (hproper : names'.Proper) {s : String} {name : Name}
    (hs : names.find? s = some name) : names'.find? s = some name := by
  have hknows := knows_of_find? hs
  have htext : names'.text name = s := by rw [h.text hknows, text_of_find? hs]
  cases hfound : names'.find? s with
  | none =>
      have hmem := List.mem_of_getElem? (getElem?_of_knows (h.knows hknows))
      rw [htext] at hmem
      exact absurd hmem (find?_eq_none_iff.1 hfound)
  | some found =>
      have heq := hproper.text_inj (knows_of_find? hfound) (h.knows hknows)
        ((text_of_find? hfound).trans htext.symm)
      rw [heq]

/-- A path that is known keeps its names. -/
theorem path? (h : names.Grown names') (hproper : names'.Proper) {dotted : String}
    {path : List Name} (hpath : names.path? dotted = some path) :
    names'.path? dotted = some path := by
  unfold Interner.path? at hpath ⊢
  generalize Text.split '.' dotted = segments at hpath ⊢
  induction segments generalizing path with
  | nil => exact hpath
  | cons s rest ih =>
      simp only [List.mapM_cons, Option.pure_def, Option.bind_eq_bind, Option.bind_eq_some_iff,
        Option.some.injEq] at hpath ⊢
      obtain ⟨name, hname, others, hothers, rfl⟩ := hpath
      exact ⟨name, h.find? hproper hname, others, ih hothers, rfl⟩

end Grown

theorem grown_intern (names : Interner) (s : String) : names.Grown (names.intern s).2 := by
  unfold intern
  split
  case h_1 => exact .refl names
  case h_2 => simp [Grown]

/-- The text of a name leads back to the name. -/
theorem Proper.find?_text {names : Interner} (hnames : names.Proper) {name : Name}
    (hname : names.Knows name) : names.find? (names.text name) = some name := by
  have hmem : names.text name ∈ names.words.toList :=
    List.mem_of_getElem? (getElem?_of_knows hname)
  cases hfind : names.find? (names.text name) with
  | none => exact absurd hmem (find?_eq_none_iff.1 hfind)
  | some found =>
      exact congrArg some (hnames.text_inj (knows_of_find? hfind) hname (text_of_find? hfind))

end Interner

/-- A legal identifier starts with a letter. -/
theorem exists_of_isLegalId {s : String} (h : isLegalId s = true) :
    ∃ c rest, s.toList = c :: rest ∧ c.isAlpha = true := by
  unfold isLegalId at h
  split at h
  · cases h
  · simp only [Bool.and_eq_true] at h
    exact ⟨_, _, ‹_›, h.1.1⟩

/-- A legal identifier has no dots. -/
theorem dotless_of_isLegalId {s : String} (h : isLegalId s = true) : '.' ∉ s.toList := by
  unfold isLegalId at h
  split at h
  · cases h
  · next first rest hlist =>
      simp only [Bool.and_eq_true, List.all_eq_true] at h
      rw [hlist, List.mem_cons]
      rintro (hfirst | hrest)
      · rw [← hfirst] at h
        exact absurd h.1.1 (by decide)
      · exact absurd (h.1.2 _ hrest) (by decide)

namespace Interner

variable {names names' : Interner} {name : Name}

/-! ## Segments of paths -/

/-- Whether a name is known and may be a segment of a dotted path. -/
structure Segment (names : Interner) (name : Name) : Prop where
  knows : names.Knows name
  dotless : '.' ∉ (names.text name).toList

theorem Segment.grown (h : names.Segment name) (hnames : names.Grown names') :
    names'.Segment name where
  knows := hnames.knows h.knows
  dotless := by
    rw [hnames.text h.knows]
    exact h.dotless

theorem segment_intern (names : Interner) {s : String} (h : '.' ∉ s.toList) :
    (names.intern s).2.Segment (names.intern s).1 where
  knows := names.knows_intern s
  dotless := by
    rw [text_intern]
    exact h

theorem Proper.segment_empty (hnames : names.Proper) : names.Segment .empty where
  knows := hnames.knows_empty
  dotless := by
    rw [hnames.text_empty]
    exact List.not_mem_nil

/-- Names of another interner have no text, so a name with a legal text is known. -/
theorem knows_of_isLegalId (h : isLegalId (names.text name) = true) : names.Knows name := by
  rcases Nat.lt_or_ge name.index names.words.size with hlt | hge
  · exact hlt
  · have hempty : names.text name = "" := by simp [text, hge]
    rw [hempty] at h
    cases h

theorem segment_of_isLegalId (h : isLegalId (names.text name) = true) : names.Segment name where
  knows := knows_of_isLegalId h
  dotless := dotless_of_isLegalId h

/-- The dotted text of a path leads back to its names. -/
theorem Proper.path?_join (hnames : names.Proper) {path : List Name} (hsome : path ≠ [])
    (h : ∀ name ∈ path, names.Segment name) : names.path? (names.join path) = some path := by
  have hpieces : Text.split '.' (names.join path) = path.map names.text := by
    refine @Text.split_join '.' _ (mt List.map_eq_nil_iff.1 hsome) fun piece hpiece => ?_
    obtain ⟨name, hname, rfl⟩ := List.mem_map.1 hpiece
    exact (h name hname).dotless
  have hfound : ∀ name ∈ path, (names.find? ∘ names.text) name = some (id name) :=
    fun name hname => hnames.find?_text (h name hname).knows
  rw [path?, hpieces, List.mapM_map, mapM_eq_some_map hfound, List.map_id]

end Interner

end ManySorted
