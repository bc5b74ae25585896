import Mathlib.Algebra.GroupWithZero.Nat
import Mathlib.Data.List.Basic
import Stencil.Text.Location

/-!
# Slices of texts by byte offset

A text is cut at byte offsets, and a cut inside of a character or beyond the end has no result. The
offset behind a piece of text is the sum of the sizes of its characters, so that cuts at the
positions of a source always have one.
-/

namespace Stencil

namespace Text

/-- The number of bytes of a text. -/
def byteLength (text : List Char) : Nat := (text.map Char.utf8Size).sum

/-- What stands behind a byte offset; none if the offset is inside of a character or beyond the end.
-/
def sliceFrom? : List Char → Nat → Option (List Char)
  | text, 0 => some text
  | [], _ + 1 => none
  | c :: text, n + 1 =>
    if c.utf8Size ≤ n + 1 then sliceFrom? text (n + 1 - c.utf8Size) else none

/-- What stands before a byte offset; none if the offset is inside of a character or beyond the end.
-/
def sliceTo? : List Char → Nat → Option (List Char)
  | _, 0 => some []
  | [], _ + 1 => none
  | c :: text, n + 1 =>
    if c.utf8Size ≤ n + 1 then (sliceTo? text (n + 1 - c.utf8Size)).map (c :: ·) else none

/-- What stands between two byte offsets. -/
def slice? (text : List Char) (start stop : Nat) : Option (List Char) :=
  if start ≤ stop then (sliceFrom? text start).bind (sliceTo? · (stop - start)) else none

variable {front text rest : List Char}

@[simp]
theorem byteLength_nil : byteLength [] = 0 := rfl

@[simp]
theorem byteLength_cons (c : Char) (text : List Char) :
    byteLength (c :: text) = c.utf8Size + byteLength text := by
  simp [byteLength]

@[simp]
theorem byteLength_append (front text : List Char) :
    byteLength (front ++ text) = byteLength front + byteLength text := by
  simp [byteLength]

/-- What stands behind the front of a text. -/
@[simp]
theorem sliceFrom?_append (front rest : List Char) :
    sliceFrom? (front ++ rest) (byteLength front) = some rest := by
  induction front with
  | nil =>
    rw [List.nil_append, byteLength_nil]
    cases rest <;> rfl
  | cons c front ih =>
    have positive := c.utf8Size_pos
    obtain ⟨n, size⟩ : ∃ n, byteLength (c :: front) = n + 1 :=
      ⟨byteLength (c :: front) - 1, by rw [byteLength_cons]; omega⟩
    rw [size, List.cons_append, sliceFrom?]
    rw [byteLength_cons] at size
    have behind : n + 1 - c.utf8Size = byteLength front := by omega
    rw [if_pos (by omega), behind, ih]

@[simp]
theorem sliceTo?_append (front rest : List Char) :
    sliceTo? (front ++ rest) (byteLength front) = some front := by
  induction front with
  | nil =>
    rw [List.nil_append, byteLength_nil]
    cases rest <;> rfl
  | cons c front ih =>
    have positive := c.utf8Size_pos
    obtain ⟨n, size⟩ : ∃ n, byteLength (c :: front) = n + 1 :=
      ⟨byteLength (c :: front) - 1, by rw [byteLength_cons]; omega⟩
    rw [size, List.cons_append, sliceTo?]
    rw [byteLength_cons] at size
    have behind : n + 1 - c.utf8Size = byteLength front := by omega
    rw [if_pos (by omega), behind, ih]
    rfl

/-- A cut has a result exactly between two pieces of the text. -/
theorem sliceFrom?_eq_some {offset : Nat} :
    sliceFrom? text offset = some rest ↔
      ∃ front, text = front ++ rest ∧ byteLength front = offset := by
  constructor
  · intro found
    induction text generalizing offset with
    | nil =>
      cases offset with
      | zero =>
        cases found
        exact ⟨[], rfl, rfl⟩
      | succ n => cases found
    | cons c text ih =>
      cases offset with
      | zero =>
        cases found
        exact ⟨[], rfl, rfl⟩
      | succ n =>
        rw [sliceFrom?] at found
        split at found
        · obtain ⟨front, rfl, size⟩ := ih found
          refine ⟨c :: front, rfl, ?_⟩
          rw [byteLength_cons]
          omega
        · cases found
  · rintro ⟨front, rfl, rfl⟩
    exact sliceFrom?_append front rest

theorem slice?_append (before piece rest : List Char) :
    slice? (before ++ (piece ++ rest)) (byteLength before) (byteLength before + byteLength piece) =
      some piece := by
  have size : byteLength before + byteLength piece - byteLength before = byteLength piece := by
    omega
  rw [slice?, if_pos (Nat.le_add_right _ _), sliceFrom?_append, size]
  exact sliceTo?_append piece rest

theorem Location.offset_after (place : Location) (text : List Char) :
    (place.after text).offset = place.offset + byteLength text := by
  induction text generalizing place with
  | nil => rfl
  | cons c text ih =>
    have size : (place.next c).offset = place.offset + c.utf8Size := by
      unfold Location.next
      split <;> rfl
    rw [Location.after_cons, ih, size, byteLength_cons, Nat.add_assoc]

/-- The offset of the last line feed. -/
def lastLineFeed? : List Char → Option Nat
  | [] => none
  | c :: text =>
    match lastLineFeed? text with
    | some offset => some (c.utf8Size + offset)
    | none => if c = '\n' then some 0 else none

theorem lastLineFeed?_of_not_mem (inLine : '\n' ∉ text) : lastLineFeed? text = none := by
  induction text with
  | nil => rfl
  | cons c text ih =>
    obtain ⟨other, behind⟩ := List.ne_and_not_mem_of_not_mem_cons inLine
    rw [lastLineFeed?, ih behind]
    exact if_neg (Ne.symm other)

/-- The last line feed stands before the last line. -/
theorem lastLineFeed?_append (inLine : '\n' ∉ rest) :
    lastLineFeed? (front ++ '\n' :: rest) = some (byteLength front) := by
  induction front with
  | nil =>
    rw [List.nil_append, lastLineFeed?, lastLineFeed?_of_not_mem inLine]
    rfl
  | cons c front ih =>
    rw [List.cons_append, lastLineFeed?, ih, byteLength_cons]

/-- Where the last line of a text starts. -/
def lineStart (text : List Char) : Nat := ((lastLineFeed? text).map (· + 1)).getD 0

theorem lineStart_of_not_mem (inLine : '\n' ∉ text) : lineStart text = 0 := by
  rw [lineStart, lastLineFeed?_of_not_mem inLine]
  rfl

theorem lineStart_append (inLine : '\n' ∉ rest) :
    lineStart (front ++ '\n' :: rest) = byteLength (front ++ ['\n']) := by
  rw [lineStart, lastLineFeed?_append inLine, byteLength_append]
  rfl

end Text

end Stencil
