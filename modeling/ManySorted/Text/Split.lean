/-!
# Splitting and trimming text

Identifiers are written as dotted paths and unions as members between plus signs.  Splitting keeps
empty pieces, so joining the pieces with the separator gives back the text that was split.
-/

namespace ManySorted.Text

/-- The pieces of `chars` between occurrences of `sep`; `piece` holds the characters read since
the last separator, newest first. -/
def splitChars (sep : Char) : List Char → List Char → List (List Char)
  | piece, [] => [piece.reverse]
  | piece, c :: rest =>
      if c = sep then piece.reverse :: splitChars sep [] rest
      else splitChars sep (c :: piece) rest

/-- The pieces of `s` between occurrences of `sep`.  There is one more piece than separators, so
the empty text has one empty piece. -/
def split (sep : Char) (s : String) : List String :=
  (splitChars sep [] s.toList).map String.ofList

/-- The pieces written one after the other with `sep` between them. -/
def join (sep : String) : List String → String
  | [] => ""
  | [piece] => piece
  | piece :: rest => piece ++ sep ++ join sep rest

theorem splitChars_ne_nil (sep : Char) (piece chars : List Char) :
    splitChars sep piece chars ≠ [] := by
  induction chars generalizing piece with
  | nil => simp [splitChars]
  | cons c rest ih =>
    rw [splitChars]
    split
    · simp
    · exact ih (c :: piece)

theorem join_cons {pieces : List String} (h : pieces ≠ []) (sep piece : String) :
    join sep (piece :: pieces) = piece ++ sep ++ join sep pieces := by
  cases pieces with
  | nil => exact absurd rfl h
  | cons next rest => rfl

theorem toList_join_splitChars (sep : Char) (piece chars : List Char) :
    (join (String.singleton sep) ((splitChars sep piece chars).map String.ofList)).toList =
      piece.reverse ++ chars := by
  induction chars generalizing piece with
  | nil => simp [splitChars, join]
  | cons c rest ih =>
    rw [splitChars]
    split
    case isTrue h =>
      rw [List.map_cons, join_cons (by simp [splitChars_ne_nil])]
      simp [ih, h]
    case isFalse =>
      rw [ih]
      simp

/-- Splitting loses nothing: the pieces joined with the separator are the text. -/
theorem join_split (sep : Char) (s : String) : join (String.singleton sep) (split sep s) = s := by
  apply String.toList_injective
  simpa [split] using toList_join_splitChars sep [] s.toList

/-- A piece without separators ends at the first separator behind it. -/
theorem splitChars_append {sep : Char} {chars : List Char} (h : sep ∉ chars)
    (piece rest : List Char) : splitChars sep piece (chars ++ sep :: rest) =
      (piece.reverse ++ chars) :: splitChars sep [] rest := by
  induction chars generalizing piece with
  | nil => simp [splitChars]
  | cons c chars ih =>
      rw [List.mem_cons, not_or] at h
      rw [List.cons_append, splitChars, if_neg (Ne.symm h.1), ih h.2]
      simp

theorem splitChars_of_not_mem {sep : Char} {chars : List Char} (h : sep ∉ chars)
    (piece : List Char) : splitChars sep piece chars = [piece.reverse ++ chars] := by
  induction chars generalizing piece with
  | nil => simp [splitChars]
  | cons c chars ih =>
      rw [List.mem_cons, not_or] at h
      rw [splitChars, if_neg (Ne.symm h.1), ih h.2]
      simp

/-- Splitting finds the pieces again, if there are any and the separator occurs in none of them. -/
theorem split_join {sep : Char} {pieces : List String} (hsome : pieces ≠ [])
    (h : ∀ piece ∈ pieces, sep ∉ piece.toList) :
    split sep (join (String.singleton sep) pieces) = pieces := by
  induction pieces with
  | nil => exact absurd rfl hsome
  | cons piece rest ih =>
      have hpiece := h piece List.mem_cons_self
      by_cases hrest : rest = []
      · subst hrest
        rw [join, split, splitChars_of_not_mem hpiece]
        simp
      · have hothers := ih hrest fun piece hmem => h piece (List.mem_cons_of_mem _ hmem)
        have hlist : (join (String.singleton sep) (piece :: rest)).toList =
            piece.toList ++ sep :: (join (String.singleton sep) rest).toList := by
          rw [join_cons hrest]
          simp
        rw [split, hlist, splitChars_append hpiece, List.map_cons, ← split, hothers]
        simp

/-- The characters that separate words: the space, the line and tab controls, and the spaces of
other scripts.  These are the characters with the property White_Space. -/
def isBlank (c : Char) : Bool :=
  let n := c.toNat
  (0x09 ≤ n && n ≤ 0x0D) || n == 0x20 || n == 0x85 || n == 0xA0 || n == 0x1680 ||
    (0x2000 ≤ n && n ≤ 0x200A) || n == 0x2028 || n == 0x2029 || n == 0x202F || n == 0x205F ||
    n == 0x3000

/-- `s` without the blank characters at its two ends. -/
def trim (s : String) : String :=
  String.ofList (((s.toList.dropWhile isBlank).reverse.dropWhile isBlank).reverse)

end ManySorted.Text
