import ManySorted.Text.Split

/-!
# Interned names

Every string of a session is kept once, in an interner, and is spoken of by its position there.
The interner only grows: a name keeps its string for good, and names compare by the order in which
their strings were first met, not by spelling.
-/

namespace ManySorted

/-- An interned string, given by its position in the interner. -/
structure Name where
  index : Nat
deriving DecidableEq, Repr

namespace Name

/-- The empty string, which every interner holds first. -/
def empty : Name := ⟨0⟩

instance : Inhabited Name := ⟨empty⟩

/-- Names are ordered by the time of their interning. -/
instance : Ord Name := ⟨fun a b => compare a.index b.index⟩

def isEmpty (name : Name) : Bool := name.index == 0

/-- The text of a name where no interner is at hand. -/
def label (name : Name) : String := s!"Name({name.index})"

end Name

/-- Why a string could not be interned. -/
inductive InternError where
  | overflow (count : Nat)
deriving DecidableEq, Repr

/-- The greatest index a name may have. -/
def maxNameIndex : Nat := 4294967295

/-- The wording of an interning error. -/
def InternError.message : InternError → String
  | .overflow count => s!"interner exceeded capacity: {count} strings, max is {maxNameIndex}"

/-- The strings met so far, in the order of their interning. -/
structure Interner where
  words : Array String
deriving DecidableEq, Repr

/-- Words that stand for built-in notions and that no declaration may take as its name. -/
def reservedWords : List String :=
  ["Natural", "PosInteger", "NegInteger", "Integer", "Real", "String", "Boolean",
   "TRUE", "FALSE",
   "Any", "Data", "Constant",
   "new", "any", "sub", "fun", "inj", "sur", "bij", "domain", "model", "transform",
   "includes", "extends", "requires", "ensures", "conforms"]

namespace Interner

/-- A fresh interner: the empty string, then the reserved words. -/
def initial : Interner := ⟨("" :: reservedWords).toArray⟩

instance : Inhabited Interner := ⟨initial⟩

/-- The name of a string that is already interned. -/
def find? (names : Interner) (s : String) : Option Name :=
  (names.words.idxOf? s).map Name.mk

/-- The string of a name; names of another interner have the empty string. -/
def text (names : Interner) (name : Name) : String :=
  names.words.getD name.index ""

/-- The name of `s`, which is appended if it is new. -/
def intern (names : Interner) (s : String) : Name × Interner :=
  match names.find? s with
  | some name => (name, names)
  | none => (⟨names.words.size⟩, ⟨names.words.push s⟩)

/-- Like `intern`, refusing a new string once every index is in use. -/
def intern? (names : Interner) (s : String) : Except InternError (Name × Interner) :=
  match names.find? s with
  | some name => .ok (name, names)
  | none =>
      if names.words.size ≤ maxNameIndex then .ok (⟨names.words.size⟩, ⟨names.words.push s⟩)
      else .error (.overflow names.words.size)

/-- Interns the strings from left to right. -/
def internAll (names : Interner) : List String → List Name × Interner
  | [] => ([], names)
  | s :: rest =>
      let (name, names) := names.intern s
      let (rest, names) := names.internAll rest
      (name :: rest, names)

/-- The number of interned strings, the empty one included. -/
def size (names : Interner) : Nat := names.words.size

theorem text_of_find? {names : Interner} {s : String} {name : Name}
    (h : names.find? s = some name) : names.text name = s := by
  simp only [find?, Array.idxOf?_eq_map_finIdxOf?_val, Option.map_map,
    Option.map_eq_some_iff] at h
  obtain ⟨i, hi, rfl⟩ := h
  have found : names.words[i] = s := (Array.finIdxOf?_eq_some_iff.mp hi).1
  simpa [text] using found

/-- An interned string is the text of its name. -/
@[simp]
theorem text_intern (names : Interner) (s : String) :
    (names.intern s).2.text (names.intern s).1 = s := by
  unfold intern
  split
  case h_1 name h => exact text_of_find? h
  case h_2 => simp [text]

/-- Interning leaves the text of every earlier name as it was. -/
theorem text_intern_of_lt {names : Interner} {name : Name} (h : name.index < names.size)
    (s : String) : (names.intern s).2.text name = names.text name := by
  unfold intern
  split
  · rfl
  · rw [size] at h
    simp [text, Array.getElem?_push, Nat.ne_of_lt h]

/-- Whether nothing but the empty string is interned. -/
def isEmpty (names : Interner) : Bool := names.size ≤ 1

/-- The dotted text of a path of names. -/
def join (names : Interner) (path : List Name) : String :=
  Text.join "." (path.map names.text)

/-- The names of the segments of a dotted path, if all of them are interned. -/
def path? (names : Interner) (dotted : String) : Option (List Name) :=
  (Text.split '.' dotted).mapM names.find?

end Interner

/-- Whether `s` may name a declaration, a constant, a parameter or a renaming: an ASCII letter
followed by ASCII letters, digits and underscores, and no reserved word. -/
def isLegalId (s : String) : Bool :=
  match s.toList with
  | [] => false
  | first :: rest =>
      first.isAlpha && rest.all (fun c => c.isAlphanum || c == '_') && !reservedWords.contains s

end ManySorted
