import ManySorted.Proofs.Session.Registry
import ManySorted.Proofs.Table.Searching

/-!
# The rule of resolution

A path asks for what matches in a namespace that is the start or lies below it and whose path from
there ends with the qualifier (`Table.Qualifies`).  The least deep match is taken, two of them make
the path ambiguous, and where nothing matches below the preferred namespace the root takes its
place.

That rule speaks of paths and depths only.  The search takes points from a queue, on which partial
matches of the qualifier wait side by side, and it prunes by the depths that the nodes have stored.
That it keeps to the rule (`Table.Arises.resolution_follows`) comes down to three things: it ends
with the first level on which something matches (`Tree.search_cases`), the level of a match is its
depth below the start (`Ranged.depth_of_matchesAt`), and of a level it keeps the first match and the
first other one (`Resolution.follows_ofMatches`).
-/

namespace ManySorted

universe u

/-! ## The rule -/

section

variable {α : Type u} {Matches Matches' : α → Prop} {depth : α → Nat} {a b : α}

/-- A match that no match is less deep than. -/
def Shallowest (Matches : α → Prop) (depth : α → Nat) (a : α) : Prop :=
  Matches a ∧ ∀ b, Matches b → depth a ≤ depth b

namespace Resolution

/-- The only match of the least depth is found, two of them are ambiguous, and nothing is found
where nothing matches. -/
def Follows (Matches : α → Prop) (depth : α → Nat) : Resolution α → Prop
  | found a => Shallowest Matches depth a ∧ ∀ b, Shallowest Matches depth b → b = a
  | ambiguous a b => a ≠ b ∧ Shallowest Matches depth a ∧ Shallowest Matches depth b
  | notFound => ∀ a, ¬ Matches a

/-- The rule is followed from the first start, of the preferred one and the root, that has
matches. -/
def FollowsPreferring (Matches : NamespaceId → α → Prop) (depth : α → Nat)
    (preferred : Option NamespaceId) (r : Resolution α) : Prop :=
  ((∃ a, Matches (preferred.getD .root) a) → r.Follows (Matches (preferred.getD .root)) depth) ∧
    ((∀ a, ¬ Matches (preferred.getD .root) a) → r.Follows (Matches .root) depth)

theorem Follows.congr {r : Resolution α} (h : r.Follows Matches depth)
    (hsame : ∀ a, Matches a ↔ Matches' a) : r.Follows Matches' depth := by
  obtain rfl : Matches = Matches' := funext fun a => propext (hsame a)
  exact h

/-- A level is decided by the rule if its matches are those of the least depth. -/
theorem follows_ofMatches [DecidableEq α] {first : α} {others : List α}
    (hlevel : ∀ a, Shallowest Matches depth a ↔ a ∈ first :: others) :
    (ofMatches first others).Follows Matches depth := by
  unfold ofMatches
  cases hfind : others.find? (· ≠ first) with
  | some second =>
      have hne : second ≠ first := by simpa using List.find?_some hfind
      have hmem := List.mem_cons_of_mem first (List.mem_of_find?_eq_some hfind)
      exact ⟨hne.symm, (hlevel first).2 List.mem_cons_self, (hlevel second).2 hmem⟩
  | none =>
      have hsame : ∀ b ∈ others, b = first := by simpa using hfind
      refine ⟨(hlevel first).2 List.mem_cons_self, fun b hb => ?_⟩
      rcases List.mem_cons.1 ((hlevel b).1 hb) with hfirst | hothers
      · exact hfirst
      · exact hsame b hothers

end Resolution

end

namespace Table

variable {α : Type u} [DecidableEq α] {t : Table} {start ns : NamespaceId} {qualifier : List Name}
  {matchAt : NamespaceId → Option α} {depth : α → Nat} {a : α} {k : Nat} {name : Name}
  {filter : Symbol → Bool} {x : SymbolId} {preferred : Option NamespaceId}

/-- Whether a namespace is the start or lies below it, by a path that ends with the qualifier. -/
def Qualifies (t : Table) (start : NamespaceId) (qualifier : List Name) (ns : NamespaceId) : Prop :=
  t.HasNamespace ns ∧ ∃ rest, t.path ns = t.path start ++ rest ∧ qualifier <:+ rest

/-- Whether a symbol lives in a namespace.  Symbols without a name live in none: they are reached by
their handles only. -/
def LivesIn (t : Table) (x : SymbolId) (ns : NamespaceId) : Prop :=
  t.Holds x ∧ (t.symbolAt x).home = ns ∧ (t.symbolAt x).name.isEmpty = false

/-- The symbols that a path asks for: those of its last name that pass the filter and live where its
qualifier says. -/
def AskedFor (t : Table) (qualifier : List Name) (name : Name) (filter : Symbol → Bool)
    (start : NamespaceId) (x : SymbolId) : Prop :=
  (t.symbolAt x).name = name ∧ filter (t.symbolAt x) = true ∧
    ∃ ns, t.Qualifies start qualifier ns ∧ t.LivesIn x ns

/-- How deep a symbol lives. -/
def depthOf (t : Table) (x : SymbolId) : Nat := (t.namespaceAt (t.symbolAt x).home).depth

/-! ## The search keeps to the rule -/

/-- A search decides by the rule if matches are as deep as the levels on which they are found. -/
theorem Tree.follows_search (ht : t.Tree) (hstart : t.HasNamespace start) (base : Nat)
    (hdepth : ∀ {k a}, t.MatchesAt start qualifier matchAt k a → depth a = base + k) :
    (t.search start qualifier matchAt).Follows
      (fun a => ∃ k, t.MatchesAt start qualifier matchAt k a) depth := by
  rcases ht.search_cases hstart qualifier matchAt with
    ⟨hresult, hnone⟩ | ⟨k, first, others, hmatches, hbefore, hresult⟩
  · rw [hresult]
    rintro a ⟨k, hk⟩
    have hmem := ht.mem_levelMatches_iff.2 hk
    rw [hnone k] at hmem
    exact List.not_mem_nil hmem
  · rw [hresult]
    have hlevel : ∀ {b}, b ∈ first :: others ↔ t.MatchesAt start qualifier matchAt k b := by
      intro b
      rw [← hmatches, ht.mem_levelMatches_iff]
    have hleast : ∀ {j b}, t.MatchesAt start qualifier matchAt j b → k ≤ j := by
      intro j b hj
      refine Nat.le_of_not_lt fun hlt => ?_
      have hmem := ht.mem_levelMatches_iff.2 hj
      rw [hbefore j hlt] at hmem
      exact List.not_mem_nil hmem
    refine Resolution.follows_ofMatches fun a => ?_
    rw [hlevel]
    constructor
    · rintro ⟨⟨j, hj⟩, hshallow⟩
      have hle := hshallow first ⟨k, hlevel.1 List.mem_cons_self⟩
      rw [hdepth hj, hdepth (hlevel.1 List.mem_cons_self)] at hle
      obtain rfl : k = j := Nat.le_antisymm (hleast hj) (Nat.le_of_add_le_add_left hle)
      exact hj
    · intro ha
      refine ⟨⟨k, ha⟩, ?_⟩
      rintro b ⟨j, hj⟩
      rw [hdepth ha, hdepth hj]
      exact Nat.add_le_add_left (hleast hj) base

/-- What the search below the preferred namespace leaves open is decided below the root. -/
theorem follows_searchPreferring (Matches : NamespaceId → α → Prop)
    (hstart : (t.search (preferred.getD .root) qualifier matchAt).Follows
      (Matches (preferred.getD .root)) depth)
    (hroot : (t.search .root qualifier matchAt).Follows (Matches .root) depth) :
    (t.searchPreferring preferred qualifier matchAt).FollowsPreferring Matches depth preferred := by
  rw [searchPreferring]
  cases hfound : t.search (preferred.getD .root) qualifier matchAt with
  | found a =>
      rw [hfound] at hstart
      exact ⟨fun _ => hstart, fun hnone => absurd hstart.1.1 (hnone a)⟩
  | ambiguous a b =>
      rw [hfound] at hstart
      exact ⟨fun _ => hstart, fun hnone => absurd hstart.2.1.1 (hnone a)⟩
  | notFound =>
      rw [hfound] at hstart
      refine ⟨?_, fun _ => hroot⟩
      rintro ⟨a, ha⟩
      exact absurd ha (hstart a)

/-! ## Levels and depths -/

/-- A namespace is as deep as its path is long. -/
theorem Ranged.depth_eq (h : t.Ranged) (hns : t.HasNamespace ns) :
    (t.namespaceAt ns).depth = (t.path ns).length := by
  refine h.tree.induct (motive := fun ns => (t.namespaceAt ns).depth = (t.path ns).length) ?_ ?_ hns
  · rw [h.tree.path_root]
    exact h.tree.depth_root
  · intro ns p hp ih
    rw [h.tree.depth hp, ih, h.tree.path_of_parent hp, List.length_append,
      List.length_singleton]

/-- What lies below the start is reached from there by the rest of its path. -/
theorem Tree.descend?_eq_some_iff (ht : t.Tree) (hstart : t.HasNamespace start) {rest : List Name} :
    t.descend? start rest = some ns ↔ t.HasNamespace ns ∧ t.path ns = t.path start ++ rest := by
  constructor
  · intro h
    exact ⟨ht.hasNamespace_of_descend? hstart h, ht.path_of_descend? h⟩
  · rintro ⟨hns, hpath⟩
    have hroot := ht.descend?_path hns
    rwa [hpath, descend?_append, ht.descend?_path hstart, Option.bind_some] at hroot

omit [DecidableEq α] in
/-- What matches at some depth is what matches where the qualifier says. -/
theorem Ranged.exists_matchesAt_iff (h : t.Ranged) (hstart : t.HasNamespace start) :
    (∃ k, t.MatchesAt start qualifier matchAt k a) ↔
      ∃ ns, t.Qualifies start qualifier ns ∧ matchAt ns = some a := by
  constructor
  · rintro ⟨k, above, ns, -, hdescend, hmatch⟩
    obtain ⟨hns, hpath⟩ := (h.tree.descend?_eq_some_iff hstart).1 hdescend
    exact ⟨ns, ⟨hns, _, hpath, above, rfl⟩, hmatch⟩
  · rintro ⟨ns, ⟨hns, -, hpath, above, rfl⟩, hmatch⟩
    exact ⟨_, above, ns, rfl, (h.tree.descend?_eq_some_iff hstart).2 ⟨hns, hpath⟩, hmatch⟩

omit [DecidableEq α] in
/-- The level of a match is the depth of its namespace below the start. -/
theorem Ranged.depth_of_matchesAt (h : t.Ranged) (hstart : t.HasNamespace start)
    (hmatches : t.MatchesAt start qualifier matchAt k a) :
    ∃ ns, matchAt ns = some a ∧ (t.namespaceAt ns).depth = (t.namespaceAt start).depth + k := by
  obtain ⟨above, ns, hlength, hdescend, hmatch⟩ := hmatches
  obtain ⟨hns, hpath⟩ := (h.tree.descend?_eq_some_iff hstart).1 hdescend
  refine ⟨ns, hmatch, ?_⟩
  rw [h.depth_eq hns, h.depth_eq hstart, hpath, List.length_append, List.length_append, hlength]

/-! ## Symbols and namespaces -/

/-- A namespace has a symbol of the name that passes the filter just if such a symbol lives
there. -/
theorem Arena.filtered_eq_some_iff (ht : t.Arena) : t.filtered filter name ns = some x ↔
    (t.symbolAt x).name = name ∧ filter (t.symbolAt x) = true ∧ t.LivesIn x ns := by
  rw [filtered, Option.filter_eq_some_iff]
  constructor
  · rintro ⟨hlisted, hpasses⟩
    obtain ⟨hx, hhome, hname, hnamed⟩ := ht.entry hlisted
    exact ⟨hname, hpasses, hx, hhome, hname ▸ hnamed⟩
  · rintro ⟨rfl, hpasses, hx, rfl, hnamed⟩
    exact ⟨ht.listed hx hnamed, hpasses⟩

theorem Ranged.follows_search_filtered (h : t.Ranged) (hstart : t.HasNamespace start) :
    (t.search start qualifier (t.filtered filter name)).Follows
      (t.AskedFor qualifier name filter start) t.depthOf := by
  refine (h.tree.follows_search hstart (t.namespaceAt start).depth
    fun {k x} hmatches => ?_).congr fun x => ?_
  · obtain ⟨ns, hmatch, hdepth⟩ := h.depth_of_matchesAt hstart hmatches
    obtain ⟨-, -, -, rfl, -⟩ := h.arena.filtered_eq_some_iff.1 hmatch
    exact hdepth
  · rw [h.exists_matchesAt_iff hstart]
    constructor
    · rintro ⟨ns, hqualifies, hmatch⟩
      obtain ⟨hname, hpasses, hlives⟩ := h.arena.filtered_eq_some_iff.1 hmatch
      exact ⟨hname, hpasses, ns, hqualifies, hlives⟩
    · rintro ⟨hname, hpasses, ns, hqualifies, hlives⟩
      exact ⟨ns, hqualifies, h.arena.filtered_eq_some_iff.2 ⟨hname, hpasses, hlives⟩⟩

theorem Ranged.follows_search_some (h : t.Ranged) (hstart : t.HasNamespace start) :
    (t.search start qualifier some).Follows (t.Qualifies start qualifier)
      fun ns => (t.namespaceAt ns).depth := by
  refine (h.tree.follows_search hstart (t.namespaceAt start).depth
    fun {k ns} hmatches => ?_).congr fun ns => ?_
  · obtain ⟨ns', hmatch, hdepth⟩ := h.depth_of_matchesAt hstart hmatches
    cases hmatch
    exact hdepth
  · rw [h.exists_matchesAt_iff hstart]
    constructor
    · rintro ⟨ns', hqualifies, hmatch⟩
      cases hmatch
      exact hqualifies
    · intro hqualifies
      exact ⟨ns, hqualifies, rfl⟩

/-- Paths to symbols and paths to namespaces are resolved by the rule, however the table came
about. -/
theorem Arises.resolution_follows (h : t.Arises) (hpreferred : ∀ p ∈ preferred, t.HasNamespace p)
    (qualifier : List Name) (name : Name) (filter : Symbol → Bool) :
    (t.resolveSymbol (qualifier ++ [name]) preferred filter).FollowsPreferring
        (t.AskedFor qualifier name filter) t.depthOf preferred ∧
      (t.resolveNamespace (qualifier ++ [name]) preferred).FollowsPreferring
        (fun start => t.Qualifies start (qualifier ++ [name]))
        (fun ns => (t.namespaceAt ns).depth) preferred := by
  have hranged := h.ranged
  have hroot := hranged.tree.root
  have hstart : t.HasNamespace (preferred.getD .root) := by
    cases preferred with
    | none => exact hroot
    | some p => exact hpreferred p rfl
  constructor
  · rw [resolveSymbol, List.getLast?_concat, List.dropLast_concat]
    exact follows_searchPreferring (t.AskedFor qualifier name filter)
      (hranged.follows_search_filtered hstart)
      (hranged.follows_search_filtered hroot)
  · rw [resolveNamespace, if_neg (List.concat_ne_nil _ _)]
    exact follows_searchPreferring (fun start => t.Qualifies start (qualifier ++ [name]))
      (hranged.follows_search_some hstart) (hranged.follows_search_some hroot)

theorem Arises.registerIfFree (h : t.Arises) {home : NamespaceId} (hhome : t.HasNamespace home)
    (name : Name) (arity : Nat) (location : Location) (kind : SymbolKind) :
    (t.registerIfFree home name arity location kind).Arises := by
  unfold Table.registerIfFree
  split
  · next hregister => exact h.register hhome hregister
  · exact h

end Table

/-! ## A name in two namespaces -/

namespace Fork

open Table

/-- Two namespaces next to each other. -/
def branches : Table :=
  (((create .initial ⟨0⟩ ⟨28⟩ .domain ⟨0⟩).2.childNamespace .root ⟨40⟩).2.childNamespace
    .root ⟨41⟩).2

/-- The namespaces have a symbol of the same name each. -/
def table : Table :=
  (branches.registerIfFree ⟨1⟩ ⟨42⟩ 0 .generated (.userConstant .symbolic)).registerIfFree ⟨2⟩
    ⟨42⟩ 0
    .generated (.userConstant .symbolic)

theorem arises_table : table.Arises := by
  have hcreated := Arises.create Interner.proper_initial ⟨0⟩ ⟨28⟩ .domain ⟨0⟩
  have hfirst := hcreated.child hcreated.ranged.tree.root ⟨40⟩
  have hbranches : branches.Arises := hfirst.child hfirst.ranged.tree.root ⟨41⟩
  have hthere : branches.HasNamespace ⟨1⟩ ∧ (branches.registerIfFree ⟨1⟩ ⟨42⟩ 0 .generated
      (.userConstant .symbolic)).HasNamespace ⟨2⟩ := by
    decide +kernel
  exact (hbranches.registerIfFree hthere.1 ..).registerIfFree hthere.2 ..

/-- Below the second namespace the name stands for its symbol, and below the root for both. -/
theorem resolves_table : (∀ p ∈ some (⟨2⟩ : NamespaceId), table.HasNamespace p) ∧
    table.resolveSymbol ([] ++ [⟨42⟩]) (some ⟨2⟩) anySymbol = .found ⟨19⟩ ∧
    table.resolveSymbol ([] ++ [⟨42⟩]) none anySymbol = .ambiguous ⟨18⟩ ⟨19⟩ := by
  decide +kernel

/-- Below one of the namespaces the name stands for one symbol, and below the root for two. -/
theorem resolution_follows_table : table.HasNamespace ⟨2⟩ ∧
    (Resolution.found ⟨19⟩).FollowsPreferring (table.AskedFor [] ⟨42⟩ anySymbol) table.depthOf
      (some ⟨2⟩) ∧
    (Resolution.ambiguous ⟨18⟩ ⟨19⟩).FollowsPreferring (table.AskedFor [] ⟨42⟩ anySymbol)
      table.depthOf none := by
  obtain ⟨hthere, hfound, hambiguous⟩ := resolves_table
  have hbelow := (arises_table.resolution_follows hthere [] ⟨42⟩ anySymbol).1
  have habove := (arises_table.resolution_follows (fun p (hp : p ∈ none) => by cases hp) [] ⟨42⟩
    anySymbol).1
  rw [hfound] at hbelow
  rw [hambiguous] at habove
  exact ⟨hthere _ rfl, hbelow, habove⟩

end Fork

end ManySorted
