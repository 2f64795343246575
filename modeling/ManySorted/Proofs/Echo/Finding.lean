import ManySorted.Proofs.Declaration.Denotation
import ManySorted.Proofs.Echo.Basic
import ManySorted.Proofs.Table.Searching

/-!
# Names of counterparts

Where two tables have the same namespaces, and a name stands for counterparts in each of them, an
identifier that ends with the name finds counterparts (`Table.Overlays.resolveId`), and what is
wrong with one is wrong with the other (`Table.Overlays.resolveOrProblem`).

## Strategy

* **Searches.**  The queue of points does not depend on what matches, so where matches correspond,
  what is found corresponds (`Table.searchQueue_map`, `Table.search_map`).
* **Counterparts.**  Different matches have different counterparts, so a name is ambiguous in one
  table if and only if it is in the other one.
* **Problems** are told by names and by what is found, and places of counterparts agree where
  something is ambiguous (`Table.Overlays.resolveOrProblem`).
-/

namespace ManySorted

universe u v

/-- The outcome for what corresponds to the matches. -/
def Resolution.map {α : Type u} {β : Type v} (f : α → β) : Resolution α → Resolution β
  | found a => found (f a)
  | ambiguous a b => ambiguous (f a) (f b)
  | notFound => notFound

namespace Resolution

variable {α : Type u} [DecidableEq α] {first a b : α} {others : List α}

/-- Ambiguous matches are different. -/
theorem ofMatches_eq_ambiguous (h : ofMatches first others = ambiguous a b) :
    a ∈ first :: others ∧ b ∈ first :: others ∧ a ≠ b := by
  unfold ofMatches at h
  split at h
  · next second hsecond =>
      obtain ⟨rfl, rfl⟩ := ambiguous.inj h
      refine ⟨List.mem_cons_self, List.mem_cons_of_mem _ (List.mem_of_find?_eq_some hsecond), ?_⟩
      have hne : second ≠ first := by simpa using List.find?_some hsecond
      exact hne.symm
  · cases h

end Resolution

namespace Finding

variable {α : Type u} {β : Type v} {g : α → β} {found : Finding α} {a : α} {depth : Nat}

/-- What corresponds to what was found. -/
def map (g : α → β) (found : Finding α) : Finding β where
  candidate := found.candidate.map fun c => (g c.1, c.2)
  witness := found.witness.map g

theorem resolution_map : (found.map g).resolution = found.resolution.map g := by
  obtain ⟨_ | c, _ | w⟩ := found <;> rfl

theorem isBelow_map : (found.map g).isBelow depth = found.isBelow depth := by
  obtain ⟨_ | c, w⟩ := found <;> rfl

variable [DecidableEq α]

/-- The candidate is the one that there was, or the match that was noted. -/
theorem candidate_note {c : α × Nat} (h : c ∈ (found.note a depth).candidate) :
    c ∈ found.candidate ∨ c = (a, depth) := by
  unfold note at h
  cases hcandidate : found.candidate with
  | none =>
      rw [hcandidate] at h
      exact .inr (Option.some.inj h).symm
  | some first =>
      rw [hcandidate] at h
      dsimp only at h
      split at h <;> exact .inl (hcandidate ▸ h)

theorem note_map [DecidableEq β] (hinjective : ∀ c ∈ found.candidate, g c.1 = g a → c.1 = a) :
    (found.map g).note (g a) depth = (found.note a depth).map g := by
  unfold note
  cases hcandidate : found.candidate with
  | none => simp [map, hcandidate]
  | some c =>
      have hsame : g c.1 ≠ g a ↔ c.1 ≠ a :=
        not_congr ⟨hinjective c (hcandidate ▸ rfl), fun h => h ▸ rfl⟩
      simp only [map, hcandidate, Option.map_some, hsame, Option.isNone_map]
      split <;> simp [hcandidate]

end Finding

namespace Table

section

variable {α : Type u} {β : Type v} [DecidableEq α] [DecidableEq β] {t t' : Table}
  {qualifier : List Name} {f : α → β} {matchAt : NamespaceId → Option α}
  {matchAt' : NamespaceId → Option β} {start : NamespaceId} {a b : α}

/-- Where what matches corresponds, so does what a queue finds. -/
theorem searchQueue_map (hmatch : ∀ ns, matchAt' ns = (matchAt ns).map f)
    (hinjective : ∀ {ns ns' a b}, matchAt ns = some a → matchAt ns' = some b → f a = f b → a = b)
    (fuel : Nat) (queue : List SearchPoint) {found : Finding α}
    (hfound : ∀ c ∈ found.candidate, ∃ ns, matchAt ns = some c.1) :
    t.searchQueue qualifier matchAt' fuel queue (found.map f) =
      (t.searchQueue qualifier matchAt fuel queue found).map f := by
  induction fuel generalizing queue found with
  | zero => rfl
  | succ fuel ih =>
      cases queue with
      | nil => rfl
      | cons point rest =>
          rw [searchQueue, searchQueue]
          dsimp only
          rw [Finding.isBelow_map]
          split
          · rfl
          · have hpoint : matchOf qualifier matchAt' point =
                (matchOf qualifier matchAt point).map f := by
              rw [matchOf, matchOf]
              split
              · exact hmatch _
              · rfl
            rw [hpoint]
            cases hhere : matchOf qualifier matchAt point with
            | none => exact ih _ hfound
            | some a =>
                have ha : ∃ ns, matchAt ns = some a := by
                  rw [matchOf] at hhere
                  split at hhere
                  · exact ⟨_, hhere⟩
                  · cases hhere
                obtain ⟨ns, hns⟩ := ha
                rw [Option.map_some]
                dsimp only
                rw [Finding.note_map, ih]
                · intro c hc
                  rcases Finding.candidate_note hc with hc | rfl
                  · exact hfound c hc
                  · exact ⟨ns, hns⟩
                · intro c hc heq
                  obtain ⟨ns', hns'⟩ := hfound c hc
                  exact hinjective hns' hns heq

/-- Where what matches corresponds, so does what is found. -/
theorem search_map (hmatch : ∀ ns, matchAt' ns = (matchAt ns).map f)
    (hinjective : ∀ {ns ns' a b}, matchAt ns = some a → matchAt ns' = some b → f a = f b → a = b) :
    t.search start qualifier matchAt' = (t.search start qualifier matchAt).map f := by
  have hnothing : ∀ c ∈ ({} : Finding α).candidate, ∃ ns, matchAt ns = some c.1 :=
    fun c hc => by cases hc
  rw [search, search, ← Finding.resolution_map, ← searchQueue_map hmatch hinjective _ _ hnothing]
  rfl

/-- Only a match below the start of a search can be ambiguous. -/
theorem Tree.search_eq_ambiguous (ht : t.Tree)
    (h : t.search .root qualifier matchAt = .ambiguous a b) :
    ∃ ns ns', ns ≠ .root ∧ ns' ≠ .root ∧ matchAt ns = some a ∧ matchAt ns' = some b := by
  obtain ⟨hne, k, ha, hb⟩ : a ≠ b ∧ ∃ k,
      a ∈ levelMatches qualifier matchAt (t.level qualifier .root k) ∧
        b ∈ levelMatches qualifier matchAt (t.level qualifier .root k) := by
    rcases ht.search_cases ht.root qualifier matchAt with
      ⟨hresult, -⟩ | ⟨k, first, others, hmatches, -, hresult⟩
    · cases hresult.symm.trans h
    · obtain ⟨ha, hb, hne⟩ := Resolution.ofMatches_eq_ambiguous (hresult.symm.trans h)
      exact ⟨hne, k, hmatches ▸ ha, hmatches ▸ hb⟩
  obtain ⟨above, ns, hk, hns, ha⟩ := ht.mem_levelMatches_iff.1 ha
  obtain ⟨above', ns', hk', hns', hb⟩ := ht.mem_levelMatches_iff.1 hb
  -- the root lies at depth zero only, and nothing else does
  have hroot : ∀ {above ns}, t.descend? .root (above ++ qualifier) = some ns → ns = .root →
      above.length + qualifier.length = 0 := by
    rintro above ns hdescend rfl
    have hpath := ht.path_of_descend? hdescend
    rw [ht.path_root, List.nil_append] at hpath
    rw [← List.length_append, ← hpath, List.length_nil]
  have hzero : ∀ {above ns}, t.descend? .root (above ++ qualifier) = some ns →
      above.length + qualifier.length = 0 → ns = .root := by
    intro above ns hdescend hlength
    rw [← List.length_append] at hlength
    rw [List.eq_nil_of_length_eq_zero hlength] at hdescend
    exact (Option.some.inj hdescend).symm
  have hsame : ns = .root → ns' = .root → a = b := by
    rintro rfl rfl
    exact Option.some.inj (ha.symm.trans hb)
  refine ⟨ns, ns', fun heq => hne (hsame heq ?_), fun heq => hne (hsame ?_ heq), ha, hb⟩
  · exact hzero hns' (hk'.trans (hk.symm.trans (hroot hns heq)))
  · exact hzero hns (hk.trans (hk'.symm.trans (hroot hns' heq)))

end

section

variable {names names' : Interner} {t t' : Table} {D : SymbolId → Prop} {f : SymbolId → SymbolId}
  {known : Name → Prop} {id : QualifiedId} {filter : Symbol → Bool} {usage : Option String}
  {x y : SymbolId}

theorem Tree.exists_of_resolveId_eq_found (ht : t.Tree) (h : t.resolveId id filter = .found x) :
    ∃ ns name, (t.namespaceAt ns).symbol? name = some x := by
  cases hlast : id.segments.getLast? with
  | none => cases (resolveId_eq_notFound hlast).symm.trans h
  | some last =>
      rw [resolveId_eq_search hlast, ht.search_eq_found_iff ht.root] at h
      obtain ⟨k, hnearest⟩ := h
      obtain ⟨above, ns, -, -, hx⟩ := hnearest.here
      exact ⟨ns, last, symbol?_of_filtered hx⟩

theorem Tree.exists_of_resolveId_eq_ambiguous (ht : t.Tree)
    (h : t.resolveId id filter = .ambiguous x y) : ∃ ns ns' name, ns ≠ .root ∧ ns' ≠ .root ∧
      (t.namespaceAt ns).symbol? name = some x ∧ (t.namespaceAt ns').symbol? name = some y := by
  cases hlast : id.segments.getLast? with
  | none => cases (resolveId_eq_notFound hlast).symm.trans h
  | some last =>
      rw [resolveId_eq_search hlast] at h
      obtain ⟨ns, ns', hns, hns', hx, hy⟩ := ht.search_eq_ambiguous h
      exact ⟨ns, ns', last, hns, hns', symbol?_of_filtered hx, symbol?_of_filtered hy⟩

/-- Two tables have the same namespaces, in which known names stand for counterparts. -/
structure Overlays (names names' : Interner) (t t' : Table) (D : SymbolId → Prop)
    (f : SymbolId → SymbolId) (known : Name → Prop) : Prop extends t.Echoes t' D f where
  tree : t.Tree
  size_eq : t'.namespaces.size = t.namespaces.size
  node_eq : ∀ ns, (t'.namespaceAt ns).unlisted = (t.namespaceAt ns).unlisted
  symbol? : ∀ {ns name}, known name →
    (t'.namespaceAt ns).symbol? name = ((t.namespaceAt ns).symbol? name).map f
  listed : ∀ {ns name x}, (t.namespaceAt ns).symbol? name = some x → D x
  below : ∀ {ns name x}, ns ≠ .root → (t.namespaceAt ns).symbol? name = some x →
    (t'.symbolAt (f x)).location = (t.symbolAt x).location
  text : ∀ {name}, known name → names'.text name = names.text name

namespace Overlays

variable (h : Overlays names names' t t' D f known)
include h

theorem join_eq (hid : ∀ segment ∈ id.segments, known segment) :
    names'.join id.segments = names.join id.segments := by
  rw [Interner.join, Interner.join, List.map_congr_left fun segment hmem =>
    h.text (hid segment hmem)]

theorem inside_of_resolveOrProblem (hx : t.resolveOrProblem names id filter usage = .ok x) :
    D x := by
  obtain ⟨ns, name, hname⟩ :=
    h.tree.exists_of_resolveId_eq_found (resolveOrProblem_eq_ok.1 hx)
  exact h.listed hname

section

variable (hid : ∀ segment ∈ id.segments, known segment)
  (hfilter : ∀ x, D x → filter (t'.symbolAt (f x)) = filter (t.symbolAt x))
include hid hfilter

/-- An identifier finds counterparts. -/
theorem resolveId : t'.resolveId id filter = (t.resolveId id filter).map f := by
  cases hlast : id.segments.getLast? with
  | none =>
      rw [resolveId_eq_notFound hlast, resolveId_eq_notFound hlast]
      rfl
  | some last =>
      have hknown := hid last (List.mem_of_getLast? hlast)
      rw [resolveId_eq_search hlast, resolveId_eq_search hlast, search_congr h.size_eq h.node_eq]
      refine search_map (fun ns => ?_) fun hx hy => ?_
      · rw [filtered, filtered, h.symbol? hknown]
        cases hx : (t.namespaceAt ns).symbol? last with
        | none => rfl
        | some x =>
            rw [Option.map_some, Option.filter_some, Option.filter_some, hfilter x (h.listed hx)]
            split <;> rfl
      · exact h.injective (h.listed (symbol?_of_filtered hx)) (h.listed (symbol?_of_filtered hy))

/-- An identifier names counterparts, or has the same problem. -/
theorem resolveOrProblem : t'.resolveOrProblem names' id filter usage =
    (t.resolveOrProblem names id filter usage).map f := by
  have hany : t'.resolveId id anySymbol = (t.resolveId id anySymbol).map f :=
    h.resolveId hid fun _ _ => rfl
  have hfound : (t'.resolveId id anySymbol).found?.isSome =
      (t.resolveId id anySymbol).found?.isSome := by
    rw [hany]
    cases t.resolveId id anySymbol <;> rfl
  unfold Table.resolveOrProblem
  rw [h.join_eq hid, h.resolveId hid hfilter]
  cases hresolved : t.resolveId id filter with
  | found x => rfl
  | ambiguous x y =>
      obtain ⟨ns, ns', name, hns, hns', hx, hy⟩ :=
        h.tree.exists_of_resolveId_eq_ambiguous hresolved
      simp only [Resolution.map, Except.map, h.below hns hx, h.below hns' hy]
  | notFound =>
      simp only [Resolution.map]
      cases usage with
      | none => rfl
      | some usage =>
          cases hthis : (t.resolveId id anySymbol).found? with
          | none =>
              rw [hthis] at hfound
              rw [Option.not_isSome_iff_eq_none.1 (Bool.eq_false_iff.1 hfound)]
              rfl
          | some x =>
              rw [hthis] at hfound
              obtain ⟨y, hy⟩ := Option.isSome_iff_exists.1 hfound
              rw [hy]
              rfl

end

end Overlays

end

end Table

end ManySorted
