import ManySorted.Proofs.Table.Arena
import Mathlib.Data.List.Nodup
import Mathlib.Data.List.Perm.Subperm
import Mathlib.Data.List.ProdSigma
import Mathlib.Data.Nat.Find

/-!
# What a search finds

A path `a.b.c` is looked for by a queue of points, each a namespace with the number of segments that
are matched on the way to it.  Seen from outside, a namespace is reached at a depth just if it has
that distance from the start and its path ends with the qualifier (`Table.MatchesAt`), and a search
finds a symbol just if it is the only one that matches at some depth while nothing matches before
(`Tree.search_eq_found_iff`).

So the full path of a symbol always leads to it (`Tree.search_fullPath`): nothing can match at a
lesser depth, and at this depth the whole path is used up.

## Strategy

The points that a queue takes fall into levels: those of the first level are the start, and those of
each further one are what waits behind the points of the one before (`Table.level`).  Three things
have to be seen.

* **The queue goes level by level.**  When it comes to a level, it holds that level and nothing
  else, since what a point adds goes to the end (`searchQueue_append`).  All points of a level have
  the same depth in the tree (`Tree.depth_of_mem_level`), so as long as nothing matched the level is
  taken to its end, and once something matched the first point of the next level is too deep
  (`searchQueue_of_isBelow`).
* **The matches of a level are noted as they should be.**  The first is the candidate and the first
  that differs from it the witness (`resolution_noteAll`).
* **The fuel suffices.**  No point stands in two levels or twice in one (`Tree.nodup_levelsUpTo`): a
  point determines its depth, hence its level, and also the point that it waits behind.  So all
  levels together are no longer than there are pairs of a namespace and a number of segments.

Together these say that a search ends with the first level on which something matches
(`Tree.search_cases`), and what stands on a level is known from paths (`Tree.mem_level_iff`).
-/

namespace ManySorted

universe u v

/-- The outcome of a level on which something matches: the first match, unless there is another. -/
def Resolution.ofMatches {α : Type u} [DecidableEq α] (first : α) (others : List α) :
    Resolution α :=
  match others.find? (· ≠ first) with
  | some second => ambiguous first second
  | none => found first

theorem Resolution.ofMatches_eq_found_iff {α : Type u} [DecidableEq α] {a first : α}
    {others : List α} :
    Resolution.ofMatches first others = .found a ↔ ∀ b ∈ first :: others, b = a := by
  unfold Resolution.ofMatches
  cases hfind : others.find? (· ≠ first) with
  | some second =>
      have hne : second ≠ first := by simpa using List.find?_some hfind
      refine iff_of_false (fun h => by cases h) fun hall => hne ?_
      rw [hall second (List.mem_cons_of_mem _ (List.mem_of_find?_eq_some hfind)),
        hall first List.mem_cons_self]
  | none =>
      have hsame : ∀ b ∈ others, b = first := by simpa using hfind
      constructor
      · intro h
        cases h
        intro b hb
        rcases List.mem_cons.1 hb with rfl | hb
        · rfl
        · exact hsame b hb
      · intro hall
        rw [hall first List.mem_cons_self]

/-! ## What is noted -/

namespace Finding

variable {α : Type u} [DecidableEq α] {f : Finding α} {first : α} {depth : Nat}

/-- Takes note of matches that are all of one depth. -/
def noteAll (f : Finding α) (depth : Nat) (matches' : List α) : Finding α :=
  matches'.foldl (fun f found => f.note found depth) f

theorem isBelow_note (h : f.isBelow depth = false) (found : α) :
    (f.note found depth).isBelow depth = false := by
  unfold note
  cases hcandidate : f.candidate with
  | none => simp [isBelow]
  | some c =>
      obtain ⟨first, least⟩ := c
      dsimp only
      split
      · simpa [isBelow, hcandidate] using h
      · exact h

/-- Further matches do not move the candidate, and the first different one is the witness. -/
theorem noteAll_of_candidate (others : List α) (witness : Option α) :
    noteAll ⟨some (first, depth), witness⟩ depth others =
      ⟨some (first, depth), witness.or (others.find? (· ≠ first))⟩ := by
  induction others generalizing witness with
  | nil => simp [noteAll]
  | cons found rest ih =>
      have hstep : note ⟨some (first, depth), witness⟩ found depth =
          ⟨some (first, depth), witness.or (if found ≠ first then some found else none)⟩ := by
        by_cases hsame : first = found
        · simp [note, hsame]
        · cases witness <;> simp [note, hsame, Ne.symm hsame]
      rw [noteAll, List.foldl_cons, hstep, ← noteAll, ih, List.find?_cons]
      by_cases hsame : found = first
      · simp [hsame]
      · cases witness <;> simp [hsame]

theorem noteAll_cons (first : α) (others : List α) (depth : Nat) :
    noteAll {} depth (first :: others) = ⟨some (first, depth), others.find? (· ≠ first)⟩ := by
  have hfirst : note ({} : Finding α) first depth = ⟨some (first, depth), none⟩ := rfl
  rw [noteAll, List.foldl_cons, hfirst, ← noteAll, noteAll_of_candidate, Option.none_or]

theorem resolution_noteAll (first : α) (others : List α) (depth : Nat) :
    (noteAll {} depth (first :: others)).resolution = .ofMatches first others := by
  rw [noteAll_cons]
  unfold Resolution.ofMatches
  cases others.find? (· ≠ first) <;> rfl

end Finding

namespace Table

variable {α : Type u} [DecidableEq α] {t : Table} {start ns : NamespaceId} {qualifier : List Name}
  {matchAt : NamespaceId → Option α} {a b : α} {k : Nat} {x : SymbolId} {point : SearchPoint}

/-- The points of a level: the start, or what waits behind the points of the level before. -/
def level (t : Table) (qualifier : List Name) (start : NamespaceId) : Nat → List SearchPoint
  | 0 => [⟨start, 0⟩]
  | k + 1 => (t.level qualifier start k).flatMap (t.nextPoints qualifier)

/-- What matches on a level. -/
def levelMatches (qualifier : List Name) (matchAt : NamespaceId → Option α)
    (level : List SearchPoint) : List α :=
  level.filterMap (matchOf qualifier matchAt)

/-- Whether something matches in a namespace of the given distance from the start, whose path ends
with the qualifier. -/
def MatchesAt (t : Table) (start : NamespaceId) (qualifier : List Name)
    (matchAt : NamespaceId → Option α) (k : Nat) (a : α) : Prop :=
  ∃ above ns, above.length + qualifier.length = k ∧
    t.descend? start (above ++ qualifier) = some ns ∧ matchAt ns = some a

/-- The only match at some depth, with none before. -/
structure Nearest (t : Table) (start : NamespaceId) (qualifier : List Name)
    (matchAt : NamespaceId → Option α) (k : Nat) (a : α) : Prop where
  here : t.MatchesAt start qualifier matchAt k a
  only : ∀ b, t.MatchesAt start qualifier matchAt k b → b = a
  before : ∀ j < k, ∀ b, ¬ t.MatchesAt start qualifier matchAt j b

/-! ## The points of a level -/

/-- What waits behind a point is a child of its namespace. -/
theorem Tree.mem_nextPoints_iff (ht : t.Tree) {next : SearchPoint} :
    next ∈ t.nextPoints qualifier point ↔ (t.namespaceAt next.ns).parent = some point.ns ∧
      (next.matched = point.matched + 1 ∧
          qualifier[point.matched]? = some (t.namespaceAt next.ns).name ∨
        next.matched = 0 ∧ point.matched = 0) := by
  obtain ⟨c, m⟩ := next
  rw [nextPoints, List.mem_append]
  constructor
  · rintro (hfollowed | hspawned)
    · -- the next segment is followed
      split at hfollowed
      · next segment hsegment =>
          obtain ⟨child, hchild, heq⟩ := List.mem_map.1 hfollowed
          cases heq
          obtain ⟨-, hparent, rfl⟩ := ht.child (Option.mem_toList.1 hchild)
          exact ⟨hparent, .inl ⟨rfl, hsegment⟩⟩
      · exact absurd hfollowed List.not_mem_nil
    · -- nothing is matched yet, and the search goes on below a child
      split at hspawned
      · next hnone =>
          obtain ⟨child, hchild, heq⟩ := List.mem_map.1 hspawned
          cases heq
          exact ⟨ht.mem_childList_iff.1 hchild, .inr ⟨rfl, hnone⟩⟩
      · exact absurd hspawned List.not_mem_nil
  · rintro ⟨hparent, ⟨rfl, hsegment⟩ | ⟨rfl, hnone⟩⟩
    · left
      dsimp only at hparent hsegment ⊢
      rw [hsegment]
      exact List.mem_map.2 ⟨c, Option.mem_toList.2 (ht.listed hparent), rfl⟩
    · right
      dsimp only at hparent ⊢
      rw [if_pos hnone]
      exact List.mem_map.2 ⟨c, ht.mem_childList_iff.2 hparent, rfl⟩

/-- What is reached at a depth: some segments, and then those of the qualifier that are matched. -/
theorem Tree.mem_level_iff (ht : t.Tree) :
    point ∈ t.level qualifier start k ↔ ∃ above,
      above.length + point.matched = k ∧ point.matched ≤ qualifier.length ∧
        t.descend? start (above ++ qualifier.take point.matched) = some point.ns := by
  induction k generalizing point with
  | zero =>
      rw [level, List.mem_singleton]
      constructor
      · rintro rfl
        exact ⟨[], rfl, Nat.zero_le _, rfl⟩
      · rintro ⟨above, hlength, -, hdescend⟩
        obtain ⟨ns, matched⟩ := point
        obtain rfl : above = [] := List.eq_nil_of_length_eq_zero (by omega)
        obtain rfl : matched = 0 := by simpa using hlength
        cases hdescend
        rfl
  | succ k ih =>
      rw [level, List.mem_flatMap]
      constructor
      · rintro ⟨before, hbefore, hnext⟩
        obtain ⟨above, hlength, hle, hdescend⟩ := ih.1 hbefore
        obtain ⟨hparent, ⟨hmatched, hsegment⟩ | ⟨hmatched, hnone⟩⟩ := ht.mem_nextPoints_iff.1 hnext
        · -- one more segment is matched
          have hlt : before.matched < qualifier.length := (List.getElem?_eq_some_iff.1 hsegment).1
          refine ⟨above, by omega, by omega, ?_⟩
          rw [hmatched, List.take_add_one, hsegment, Option.toList_some, ← List.append_assoc,
            descend?_append, hdescend, Option.bind_some, descend?_singleton, ht.listed hparent]
        · -- the path above the qualifier is one segment longer
          rw [hnone, List.take_zero, List.append_nil] at hdescend
          refine ⟨above ++ [(t.namespaceAt point.ns).name], ?_, by omega, ?_⟩
          · rw [List.length_append, List.length_singleton]
            omega
          · rw [hmatched, List.take_zero, List.append_nil, descend?_append, hdescend,
              Option.bind_some, descend?_singleton, ht.listed hparent]
      · rintro ⟨above, hlength, hle, hdescend⟩
        cases hmatched : point.matched with
        | zero =>
            rw [hmatched, List.take_zero, List.append_nil] at hdescend
            rcases List.eq_nil_or_concat above with rfl | ⟨above, name, rfl⟩
            · rw [List.length_nil] at hlength
              omega
            · rw [List.concat_eq_append, descend?_append] at hdescend
              obtain ⟨p, hp, hchild⟩ := Option.bind_eq_some_iff.1 hdescend
              rw [descend?_singleton] at hchild
              refine ⟨⟨p, 0⟩, ih.2 ⟨above, ?_, Nat.zero_le _, ?_⟩, ?_⟩
              · rw [List.length_concat] at hlength
                dsimp only
                omega
              · rw [List.take_zero, List.append_nil, hp]
              · exact ht.mem_nextPoints_iff.2 ⟨(ht.child hchild).2.1, .inr ⟨hmatched, rfl⟩⟩
        | succ m =>
            have hlt : m < qualifier.length := by omega
            rw [hmatched, List.take_add_one, List.getElem?_eq_getElem hlt, Option.toList_some,
              ← List.append_assoc, descend?_append] at hdescend
            obtain ⟨p, hp, hchild⟩ := Option.bind_eq_some_iff.1 hdescend
            rw [descend?_singleton] at hchild
            obtain ⟨-, hparent, hname⟩ := ht.child hchild
            refine ⟨⟨p, m⟩, ih.2 ⟨above, ?_, Nat.le_of_lt hlt, hp⟩, ?_⟩
            · dsimp only
              omega
            · refine ht.mem_nextPoints_iff.2 ⟨hparent, .inl ⟨hmatched, ?_⟩⟩
              rw [hname, List.getElem?_eq_getElem hlt]

omit [DecidableEq α] in
theorem Tree.mem_levelMatches_iff (ht : t.Tree) :
    a ∈ levelMatches qualifier matchAt (t.level qualifier start k) ↔
      t.MatchesAt start qualifier matchAt k a := by
  rw [levelMatches, List.mem_filterMap]
  constructor
  · rintro ⟨⟨ns, matched⟩, hpoint, hmatch⟩
    obtain ⟨above, hlength, -, hdescend⟩ := ht.mem_level_iff.1 hpoint
    unfold matchOf at hmatch
    dsimp only at hlength hdescend hmatch
    split at hmatch
    · next hall =>
        rw [hall, List.take_length] at hdescend
        exact ⟨above, ns, hall ▸ hlength, hdescend, hmatch⟩
    · cases hmatch
  · rintro ⟨above, ns, hlength, hdescend, hmatch⟩
    refine ⟨⟨ns, qualifier.length⟩, ht.mem_level_iff.2 ⟨above, hlength, Nat.le_refl _, ?_⟩, ?_⟩
    · rw [List.take_length, hdescend]
    · rw [matchOf, if_pos rfl, hmatch]

/-! ## No point waits twice -/

/-- The points of a level are as much deeper than the start as the level is. -/
theorem Tree.depth_of_mem_level (ht : t.Tree)
    (hpoint : point ∈ t.level qualifier start k) :
    (t.namespaceAt point.ns).depth = (t.namespaceAt start).depth + k := by
  induction k generalizing point with
  | zero => rw [List.mem_singleton.1 hpoint, Nat.add_zero]
  | succ k ih =>
      obtain ⟨before, hbefore, hnext⟩ := List.mem_flatMap.1 hpoint
      rw [ht.depth (ht.mem_nextPoints_iff.1 hnext).1, ih hbefore, Nat.add_assoc]

theorem Tree.nodup_nextPoints (ht : t.Tree) : (t.nextPoints qualifier point).Nodup := by
  rw [nextPoints]
  refine List.Nodup.append ?_ ?_ ?_
  · split
    · next segment _ => cases (t.namespaceAt point.ns).child? segment <;> simp
    · exact List.nodup_nil
  · split
    · refine List.Nodup.map (fun a b heq => (SearchPoint.mk.inj heq).1) ?_
      exact (ht.ascending point.ns).imp fun hlt heq => Nat.ne_of_lt hlt (congrArg _ heq)
    · exact List.nodup_nil
  · -- what is followed has something matched, what is spawned has not
    intro next hfollowed hspawned
    split at hspawned
    · obtain ⟨_, _, rfl⟩ := List.mem_map.1 hspawned
      split at hfollowed
      · obtain ⟨_, _, heq⟩ := List.mem_map.1 hfollowed
        cases (SearchPoint.mk.inj heq).2
      · exact absurd hfollowed List.not_mem_nil
    · exact absurd hspawned List.not_mem_nil

/-- A point waits behind one point only. -/
theorem Tree.eq_of_mem_nextPoints (ht : t.Tree) {p q next : SearchPoint}
    (hp : next ∈ t.nextPoints qualifier p) (hq : next ∈ t.nextPoints qualifier q) : p = q := by
  obtain ⟨hparent, hmatched⟩ := ht.mem_nextPoints_iff.1 hp
  obtain ⟨hparent', hmatched'⟩ := ht.mem_nextPoints_iff.1 hq
  obtain ⟨ns, m⟩ := p
  obtain ⟨ns', m'⟩ := q
  obtain rfl : ns = ns' := Option.some.inj (hparent.symm.trans hparent')
  obtain rfl : m = m' := by
    rcases hmatched with ⟨h, -⟩ | ⟨h, h₀⟩ <;> rcases hmatched' with ⟨h', -⟩ | ⟨h', h₀'⟩ <;>
      dsimp only at * <;> omega
  rfl

theorem Tree.nodup_level (ht : t.Tree) (k : Nat) :
    (t.level qualifier start k).Nodup := by
  induction k with
  | zero => exact List.nodup_singleton _
  | succ k ih =>
      refine List.nodup_flatMap.2 ⟨fun _ _ => ht.nodup_nextPoints, ih.imp fun hne => ?_⟩
      exact fun next hp hq => hne (ht.eq_of_mem_nextPoints hp hq)

/-- All points down to a level, in the order in which a queue takes them. -/
def levelsUpTo (t : Table) (qualifier : List Name) (start : NamespaceId) (n : Nat) :
    List SearchPoint :=
  (List.range n).flatMap fun k => t.level qualifier start k

theorem levelsUpTo_succ (n : Nat) : t.levelsUpTo qualifier start (n + 1) =
    t.levelsUpTo qualifier start n ++ t.level qualifier start n := by
  rw [levelsUpTo, List.range_succ, List.flatMap_append, List.flatMap_singleton]
  rfl

/-- A point waits on one level and once only. -/
theorem Tree.nodup_levelsUpTo (ht : t.Tree) (n : Nat) : (t.levelsUpTo qualifier start n).Nodup := by
  refine List.nodup_flatMap.2 ⟨fun k _ => ht.nodup_level k, List.nodup_range.imp ?_⟩
  intro j k hne point hj hk
  have hdepth := ht.depth_of_mem_level hj
  rw [ht.depth_of_mem_level hk] at hdepth
  exact hne (Nat.add_left_cancel hdepth).symm

/-- There are no more points than pairs of a namespace and a number of segments. -/
theorem Tree.length_levelsUpTo_le (ht : t.Tree) (hstart : t.HasNamespace start) (n : Nat) :
    (t.levelsUpTo qualifier start n).length ≤ t.namespaces.size * (qualifier.length + 1) := by
  let pair (point : SearchPoint) : Nat × Nat := (point.ns.index, point.matched)
  have hinjective : Function.Injective pair := by
    rintro ⟨⟨i⟩, m⟩ ⟨⟨j⟩, n⟩ heq
    cases heq
    rfl
  have hsubset : (t.levelsUpTo qualifier start n).map pair ⊆
      List.range t.namespaces.size ×ˢ List.range (qualifier.length + 1) := by
    intro entry hentry
    obtain ⟨point, hpoint, rfl⟩ := List.mem_map.1 hentry
    obtain ⟨k, -, hlevel⟩ := List.mem_flatMap.1 hpoint
    obtain ⟨above, -, hle, hdescend⟩ := ht.mem_level_iff.1 hlevel
    have hns : point.ns.index < t.namespaces.size := ht.hasNamespace_of_descend? hstart hdescend
    exact List.pair_mem_product.2 ⟨List.mem_range.2 hns, List.mem_range.2 (Nat.lt_succ_of_le hle)⟩
  have hnodup : ((t.levelsUpTo qualifier start n).map pair).Nodup :=
    (ht.nodup_levelsUpTo n).map hinjective
  have hlength := (List.Nodup.subperm hnodup hsubset).length_le
  rwa [List.length_map, List.length_product, List.length_range, List.length_range] at hlength

/-! ## The queue goes level by level -/

/-- What a level adds to what was found, if all its points are of one depth. -/
theorem searchQueue_append {fuel depth : Nat} {level later : List SearchPoint} {f : Finding α}
    (hdepth : ∀ point ∈ level, (t.namespaceAt point.ns).depth = depth)
    (hbelow : f.isBelow depth = false) :
    t.searchQueue qualifier matchAt (level.length + fuel) (level ++ later) f =
      t.searchQueue qualifier matchAt fuel (later ++ level.flatMap (t.nextPoints qualifier))
        (f.noteAll depth (levelMatches qualifier matchAt level)) := by
  induction level generalizing later f with
  | nil => simp [Finding.noteAll, levelMatches]
  | cons point rest ih =>
      have hfuel : (point :: rest).length + fuel = (rest.length + fuel) + 1 := by
        rw [List.length_cons]
        omega
      rw [hfuel, List.cons_append, searchQueue]
      dsimp only
      rw [hdepth point List.mem_cons_self, hbelow, if_neg Bool.false_ne_true, List.append_assoc]
      have hrest : ∀ p ∈ rest, (t.namespaceAt p.ns).depth = depth :=
        fun p hp => hdepth p (List.mem_cons_of_mem _ hp)
      cases hmatch : matchOf qualifier matchAt point with
      | none =>
          rw [ih hrest hbelow, List.flatMap_cons, levelMatches, levelMatches,
            List.filterMap_cons_none hmatch, List.append_assoc]
      | some found =>
          rw [ih hrest (Finding.isBelow_note hbelow found), List.flatMap_cons, levelMatches,
            levelMatches, List.filterMap_cons_some hmatch, List.append_assoc]
          rfl

/-- A queue that comes to a point that is too deep is done. -/
theorem searchQueue_of_isBelow {fuel : Nat} {queue : List SearchPoint} {f : Finding α}
    (hbelow : ∀ point ∈ queue, f.isBelow (t.namespaceAt point.ns).depth = true) :
    t.searchQueue qualifier matchAt fuel queue f = f := by
  cases fuel with
  | zero => rfl
  | succ fuel =>
      cases queue with
      | nil => rfl
      | cons point rest =>
          rw [searchQueue]
          dsimp only
          rw [hbelow point List.mem_cons_self, if_pos rfl]

/-- A queue that has come to a level takes it to its end, if nothing was found before. -/
theorem Tree.searchQueue_level (ht : t.Tree) (n fuel : Nat) :
    t.searchQueue qualifier matchAt ((t.level qualifier start n).length + fuel)
        (t.level qualifier start n) {} =
      t.searchQueue qualifier matchAt fuel (t.level qualifier start (n + 1))
        (Finding.noteAll {} ((t.namespaceAt start).depth + n)
          (levelMatches qualifier matchAt (t.level qualifier start n))) := by
  have hdepth : ∀ point ∈ t.level qualifier start n,
      (t.namespaceAt point.ns).depth = (t.namespaceAt start).depth + n :=
    fun _ => ht.depth_of_mem_level
  calc t.searchQueue qualifier matchAt ((t.level qualifier start n).length + fuel)
        (t.level qualifier start n) {}
    _ = t.searchQueue qualifier matchAt ((t.level qualifier start n).length + fuel)
          (t.level qualifier start n ++ []) {} := by rw [List.append_nil]
    _ = _ := searchQueue_append hdepth rfl

/-- As long as nothing matches, the queue comes to one level after the other. -/
theorem Tree.searchQueue_levelsUpTo (ht : t.Tree) (n fuel : Nat)
    (hnone : ∀ k < n, levelMatches qualifier matchAt (t.level qualifier start k) = []) :
    t.searchQueue qualifier matchAt ((t.levelsUpTo qualifier start n).length + fuel)
      [⟨start, 0⟩] {} =
      t.searchQueue qualifier matchAt fuel (t.level qualifier start n) {} := by
  induction n generalizing fuel with
  | zero =>
      rw [show t.levelsUpTo qualifier start 0 = [] from rfl, List.length_nil, Nat.zero_add]
      rfl
  | succ n ih =>
      rw [levelsUpTo_succ, List.length_append, Nat.add_assoc,
        ih _ fun k hk => hnone k (Nat.lt_succ_of_lt hk), ht.searchQueue_level,
        hnone n (Nat.lt_succ_self n)]
      rfl

/-! ## Searches -/

/-- A path is shorter than there are namespaces. -/
theorem Tree.length_path_le (ht : t.Tree) (hns : t.HasNamespace ns) :
    (t.path ns).length ≤ ns.index := by
  refine ht.induct (motive := fun ns => (t.path ns).length ≤ ns.index) ?_ ?_ hns
  · rw [ht.path_root]
    exact Nat.zero_le _
  · intro ns p hp ih
    have hlt := ht.parent_lt hp
    rw [ht.path_of_parent hp, List.length_append, List.length_singleton]
    omega

/-- A search ends with the first level on which something matches. -/
theorem Tree.search_cases (ht : t.Tree) (hstart : t.HasNamespace start) (qualifier : List Name)
    (matchAt : NamespaceId → Option α) :
    (t.search start qualifier matchAt = .notFound ∧
        ∀ k, levelMatches qualifier matchAt (t.level qualifier start k) = []) ∨
      ∃ k first others,
        levelMatches qualifier matchAt (t.level qualifier start k) = first :: others ∧
        (∀ j < k, levelMatches qualifier matchAt (t.level qualifier start j) = []) ∧
        t.search start qualifier matchAt = .ofMatches first others := by
  let level (k : Nat) : List SearchPoint := t.level qualifier start k
  have hfuel : ∀ n, ∃ fuel, t.namespaces.size * (qualifier.length + 1) =
      (t.levelsUpTo qualifier start n).length + fuel := fun n =>
    ⟨_, (Nat.add_sub_cancel' (ht.length_levelsUpTo_le hstart n)).symm⟩
  by_cases hsome : ∃ k, levelMatches qualifier matchAt (level k) ≠ []
  · -- the queue comes to the first level with a match, takes it, and the next one is too deep
    have hbefore : ∀ j < Nat.find hsome, levelMatches qualifier matchAt (level j) = [] :=
      fun j hj => not_not.1 (Nat.find_min hsome hj)
    obtain ⟨first, others, hmatches⟩ := List.exists_cons_of_ne_nil (Nat.find_spec hsome)
    refine .inr ⟨Nat.find hsome, first, others, hmatches, hbefore, ?_⟩
    obtain ⟨fuel, hfuel⟩ := hfuel (Nat.find hsome + 1)
    rw [search, hfuel, levelsUpTo_succ, List.length_append, Nat.add_assoc,
      ht.searchQueue_levelsUpTo _ _ hbefore, ht.searchQueue_level, hmatches, searchQueue_of_isBelow,
      Finding.resolution_noteAll]
    intro point hpoint
    rw [ht.depth_of_mem_level hpoint, Finding.noteAll_cons, Finding.isBelow]
    simp
  · -- below the deepest namespace there is nothing left to take
    have hnone : ∀ k, levelMatches qualifier matchAt (level k) = [] :=
      fun k => by_contra fun h => hsome ⟨k, h⟩
    refine .inl ⟨?_, hnone⟩
    have hempty : level t.namespaces.size = [] := by
      refine List.eq_nil_iff_forall_not_mem.2 fun point hpoint => ?_
      obtain ⟨above, hlength, hle, hdescend⟩ := ht.mem_level_iff.1 hpoint
      have hns := ht.hasNamespace_of_descend? hstart hdescend
      have hlt : point.ns.index < t.namespaces.size := hns
      have hpath := ht.length_path_le hns
      rw [ht.path_of_descend? hdescend, List.length_append, List.length_append, List.length_take,
        Nat.min_eq_left hle] at hpath
      omega
    obtain ⟨fuel, hfuel⟩ := hfuel t.namespaces.size
    rw [search, hfuel, ht.searchQueue_levelsUpTo _ _ fun k _ => hnone k, show
      t.level qualifier start t.namespaces.size = [] from hempty,
      searchQueue_of_isBelow fun point hpoint => absurd hpoint List.not_mem_nil]
    rfl

theorem Tree.search_eq_found_iff (ht : t.Tree) (hstart : t.HasNamespace start) :
    t.search start qualifier matchAt = .found a ↔
      ∃ k, t.Nearest start qualifier matchAt k a := by
  rcases ht.search_cases hstart qualifier matchAt with
    ⟨hresult, hnone⟩ | ⟨k, first, others, hmatches, hbefore, hresult⟩
  · rw [hresult]
    refine iff_of_false (fun h => by cases h) ?_
    rintro ⟨k, hhere, -⟩
    have hmem := ht.mem_levelMatches_iff.2 hhere
    rw [hnone k] at hmem
    exact List.not_mem_nil hmem
  · rw [hresult, Resolution.ofMatches_eq_found_iff, ← hmatches]
    constructor
    · intro hall
      refine ⟨k, ?_, fun b hb => hall b (ht.mem_levelMatches_iff.2 hb), fun j hj b hb => ?_⟩
      · have hfirst : first ∈ levelMatches qualifier matchAt
            (t.level qualifier start k) := hmatches ▸ List.mem_cons_self
        rw [← hall first hfirst]
        exact ht.mem_levelMatches_iff.1 hfirst
      · have hmem := ht.mem_levelMatches_iff.2 hb
        rw [hbefore j hj] at hmem
        exact List.not_mem_nil hmem
    · rintro ⟨k', hhere, honly, hbefore'⟩ b hb
      have hmatch := ht.mem_levelMatches_iff.1 hb
      rcases Nat.lt_trichotomy k k' with hlt | rfl | hlt
      · exact absurd hmatch (hbefore' k hlt b)
      · exact honly b hmatch
      · have hmem := ht.mem_levelMatches_iff.2 hhere
        rw [hbefore k' hlt] at hmem
        exact absurd hmem List.not_mem_nil

/-- The full path from the start leads to the namespace that it names. -/
theorem Tree.search_fullPath (ht : t.Tree) (hstart : t.HasNamespace start)
    (hns : t.descend? start qualifier = some ns) (ha : matchAt ns = some a) :
    t.search start qualifier matchAt = .found a := by
  refine (ht.search_eq_found_iff hstart).2 ⟨qualifier.length, ?_, ?_, ?_⟩
  · exact ⟨[], ns, Nat.zero_add _, hns, ha⟩
  · rintro b ⟨above, ns', hlength, hdescend, hb⟩
    obtain rfl : above = [] := List.eq_nil_of_length_eq_zero (by omega)
    rw [List.nil_append, hns] at hdescend
    cases hdescend
    exact Option.some.inj (hb.symm.trans ha)
  · rintro j hj b ⟨above, ns', hlength, -⟩
    omega

/-- A search goes by the tree and by what matches. -/
theorem search_congr {t' : Table} (hsize : t'.namespaces.size = t.namespaces.size)
    (hnode : ∀ ns, (t'.namespaceAt ns).unlisted = (t.namespaceAt ns).unlisted)
    (start : NamespaceId) (qualifier : List Name) (matchAt : NamespaceId → Option α) :
    t'.search start qualifier matchAt = t.search start qualifier matchAt := by
  have hdepth : ∀ ns, (t'.namespaceAt ns).depth = (t.namespaceAt ns).depth := fun ns =>
    show (t'.namespaceAt ns).unlisted.depth = (t.namespaceAt ns).unlisted.depth by rw [hnode]
  have hpoints : t'.nextPoints qualifier = t.nextPoints qualifier := by
    funext point
    have hchild := Namespace.child?_of_unlisted (hnode point.ns)
    have hlist : (t'.namespaceAt point.ns).childList = (t.namespaceAt point.ns).childList :=
      show (t'.namespaceAt point.ns).unlisted.childList =
        (t.namespaceAt point.ns).unlisted.childList by rw [hnode]
    simp only [nextPoints, hchild, hlist]
  have hqueue : ∀ fuel queue f, t'.searchQueue qualifier matchAt fuel queue f =
      t.searchQueue qualifier matchAt fuel queue f := by
    intro fuel
    induction fuel with
    | zero => exact fun _ _ => rfl
    | succ fuel ih =>
        intro queue f
        cases queue with
        | nil => rfl
        | cons point rest => rw [searchQueue, searchQueue, hdepth, hpoints, ih]
  rw [search, search, hsize, hqueue]

/-! ## Symbols -/

/-- Without a filter, a path asks for a symbol of its last name. -/
theorem resolveSymbol_concat (t : Table) (segments : List Name) (name : Name)
    (preferred : Option NamespaceId) :
    t.resolveSymbol (segments ++ [name]) preferred anySymbol =
      t.searchPreferring preferred segments fun ns => (t.namespaceAt ns).symbol? name := by
  rw [resolveSymbol, List.getLast?_concat, List.dropLast_concat]
  have hfilter : (fun ns => ((t.namespaceAt ns).symbol? name).filter
      fun id => anySymbol (t.symbolAt id)) = fun ns => (t.namespaceAt ns).symbol? name := by
    funext ns
    cases (t.namespaceAt ns).symbol? name <;> rfl
  rw [← hfilter]

/-- What is found below the preferred namespace is not looked for elsewhere. -/
theorem searchPreferring_eq_found {preferred : NamespaceId}
    (h : t.search preferred qualifier matchAt = .found a) :
    t.searchPreferring (some preferred) qualifier matchAt = .found a := by
  rw [searchPreferring, Option.getD_some, h]

theorem searchPreferring_none :
    t.searchPreferring none qualifier matchAt = t.search .root qualifier matchAt := by
  rw [searchPreferring, Option.getD_none]
  cases h : t.search .root qualifier matchAt <;> rfl

/-- A symbol is found by its full path from the root. -/
theorem Arena.resolveSymbol_fullPath (ht : t.Arena) (htree : t.Tree) (hx : t.Holds x)
    (hnamed : (t.symbolAt x).name.isEmpty = false) :
    t.resolveSymbol (t.path (t.symbolAt x).home ++ [(t.symbolAt x).name]) none anySymbol =
      .found x := by
  rw [resolveSymbol_concat, searchPreferring_none]
  exact htree.search_fullPath htree.root (htree.descend?_path (ht.home hx)) (ht.listed hx hnamed)

section

variable {id : QualifiedId} {filter : Symbol → Bool} {last : Name}

/-- The symbol of a name in a namespace, if it passes the filter. -/
def filtered (t : Table) (filter : Symbol → Bool) (name : Name) (ns : NamespaceId) :
    Option SymbolId :=
  ((t.namespaceAt ns).symbol? name).filter fun x => filter (t.symbolAt x)

theorem symbol?_of_filtered {ns : NamespaceId} (h : t.filtered filter last ns = some x) :
    (t.namespaceAt ns).symbol? last = some x :=
  (Option.filter_eq_some_iff.1 h).1

/-- Identifiers are looked up from the root. -/
theorem resolveId_eq_search (hlast : id.segments.getLast? = some last) :
    t.resolveId id filter =
      t.search .root id.segments.dropLast (t.filtered filter last) := by
  rw [resolveId, resolveSymbol, hlast]
  exact searchPreferring_none

theorem resolveId_eq_notFound (hlast : id.segments.getLast? = none) :
    t.resolveId id filter = .notFound := by
  rw [resolveId, resolveSymbol, hlast]

end

end Table

end ManySorted
