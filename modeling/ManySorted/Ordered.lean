/-!
# Sets and maps as ascending lists

A finite set is kept as the strictly ascending list of its elements, so two sets with the same
elements are equal, and listing a set shows its order.  A map is kept in the same way by its keys.
-/

namespace ManySorted

universe u v

/-- A finite set, listed in ascending order. -/
structure OrderedSet (α : Type u) where
  toList : List α
deriving DecidableEq, Repr

namespace OrderedSet

variable {α : Type u}

instance : Inhabited (OrderedSet α) := ⟨⟨[]⟩⟩

instance : EmptyCollection (OrderedSet α) := ⟨⟨[]⟩⟩

instance : Membership α (OrderedSet α) := ⟨fun s a => a ∈ s.toList⟩

/-- Puts `a` at its place in an ascending list, unless it stands there already. -/
def insertList [Ord α] (a : α) : List α → List α
  | [] => [a]
  | b :: rest =>
      match compare a b with
      | .lt => a :: b :: rest
      | .eq => b :: rest
      | .gt => b :: insertList a rest

def insert [Ord α] (s : OrderedSet α) (a : α) : OrderedSet α := ⟨insertList a s.toList⟩

/-- The set of the elements of a list. -/
def ofList [Ord α] (l : List α) : OrderedSet α := l.foldl insert ∅

def union [Ord α] (s t : OrderedSet α) : OrderedSet α := t.toList.foldl insert s

def contains [BEq α] (s : OrderedSet α) (a : α) : Bool := s.toList.contains a

def isEmpty (s : OrderedSet α) : Bool := s.toList.isEmpty

def size (s : OrderedSet α) : Nat := s.toList.length

end OrderedSet

/-- A finite map, listed by ascending keys. -/
structure OrderedMap (κ : Type u) (ν : Type v) where
  toList : List (κ × ν)
deriving DecidableEq, Repr

namespace OrderedMap

variable {κ : Type u} {ν : Type v}

instance : Inhabited (OrderedMap κ ν) := ⟨⟨[]⟩⟩

instance : EmptyCollection (OrderedMap κ ν) := ⟨⟨[]⟩⟩

/-- Puts an entry at the place of its key, over the entry that the key may have. -/
def insertList [Ord κ] (k : κ) (v : ν) : List (κ × ν) → List (κ × ν)
  | [] => [(k, v)]
  | entry :: rest =>
      match compare k entry.1 with
      | .lt => (k, v) :: entry :: rest
      | .eq => (k, v) :: rest
      | .gt => entry :: insertList k v rest

def insert [Ord κ] (m : OrderedMap κ ν) (k : κ) (v : ν) : OrderedMap κ ν :=
  ⟨insertList k v m.toList⟩

def find? [BEq κ] (m : OrderedMap κ ν) (k : κ) : Option ν := m.toList.lookup k

/-- Enters all of `n` into `m`; where both have a key, `n` wins. -/
def union [Ord κ] (m n : OrderedMap κ ν) : OrderedMap κ ν :=
  n.toList.foldl (fun m entry => m.insert entry.1 entry.2) m

end OrderedMap

end ManySorted
