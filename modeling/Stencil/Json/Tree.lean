import Stencil.Json.Number

/-!
# JSON values

Reads a whole JSON text. Arrays and objects may nest 127 levels deep.
-/

namespace Stencil.Json

/-- A number, whose range does not matter when it is skipped. -/
def numberTree (mode : Mode) (n : NumberText) : Except Failure Tree :=
  if mode.isStrict then
    match n.number with
    | .ok number => .ok (.number number)
    | .error e => .error e
  else .ok .null

/-- A value that begins with a given character, arrays and objects apart. -/
def readScalar (mode : Mode) (c : Char) (r : List Char) : Except Failure (Tree × Within r) :=
  let word (rest : List Char) (tree : Tree) : Except Failure (Tree × Within r) :=
    match readWord rest r with
    | .ok left => .ok (tree, left)
    | .error e => .error e
  if c = 'n' then word ['u', 'l', 'l'] .null
  else if c = 't' then word ['r', 'u', 'e'] (.bool true)
  else if c = 'f' then word ['a', 'l', 's', 'e'] (.bool false)
  else if c = '\x22' then
    match readString mode r with
    | .ok (text, left) => .ok (.string (String.ofList text), left.within)
    | .error e => .error e
  else if c = '-' then
    match readNumber mode true r with
    | .error e => .error e
    | .ok (n, left) => (numberTree mode n).map fun tree => (tree, left.within)
  else if c.isDigit then
    match readNumber mode false (c :: r) with
    | .error e => .error e
    | .ok (n, left) => (numberTree mode n).map fun tree => (tree, left.ofCons)
  else .error .malformed

mutual
/-- A value with the blanks before it. -/
def readValue (mode : Mode) (s : List Char) : Except Failure (Tree × Shorter s) :=
  match skipBlanks s with
  | ⟨[], _⟩ => .error .unfinished
  | ⟨c :: r, h⟩ =>
    have shorter : r.length < s.length := h
    if c = '[' then
      match mode.inner? with
      | none => .error .malformed
      | some inner =>
        match readItems inner true r with
        | .ok (items, left) => .ok (.array items, left.trans shorter)
        | .error e => .error e
    else if c = '\x7b' then
      match mode.inner? with
      | none => .error .malformed
      | some inner =>
        match readMembers inner true r with
        | .ok (members, left) => .ok (.object members, left.trans shorter)
        | .error e => .error e
    else
      match readScalar mode c r with
      | .ok (tree, left) => .ok (tree, left.shorter shorter)
      | .error e => .error e
termination_by 3 * s.length + 0

/-- The items of an array up to its bracket; each but the first stands after a comma. -/
def readItems (mode : Mode) (first : Bool) (s : List Char) :
    Except Failure (List Tree × Shorter s) :=
  match skipBlanks s with
  | ⟨[], _⟩ => .error .unfinished
  | ⟨c :: r, h⟩ =>
    have shorter : r.length < s.length := h
    if c = ']' then .ok ([], ⟨r, shorter⟩)
    else if first then
      match readValue mode (c :: r) with
      | .error e => .error e
      | .ok (item, ⟨r', h'⟩) =>
        match readItems mode false r' with
        | .error e => .error e
        | .ok (items, left) => .ok (item :: items, left.trans (Nat.lt_of_lt_of_le h' h))
    else if c = ',' then
      match readValue mode r with
      | .error e => .error e
      | .ok (item, ⟨r', h'⟩) =>
        match readItems mode false r' with
        | .error e => .error e
        | .ok (items, left) => .ok (item :: items, (left.trans h').trans shorter)
    else .error .malformed
termination_by 3 * s.length + 1

/-- The members of an object up to its brace; each but the first stands after a comma. -/
def readMembers (mode : Mode) (first : Bool) (s : List Char) :
    Except Failure (List (String × Tree) × Shorter s) :=
  match skipBlanks s with
  | ⟨[], _⟩ => .error .unfinished
  | ⟨c :: r, h⟩ =>
    have shorter : r.length < s.length := h
    if c = '\x7d' then .ok ([], ⟨r, shorter⟩)
    else if first then
      match readMember mode (c :: r) with
      | .error e => .error e
      | .ok (member, ⟨r', h'⟩) =>
        match readMembers mode false r' with
        | .error e => .error e
        | .ok (members, left) => .ok (member :: members, left.trans (Nat.lt_of_lt_of_le h' h))
    else if c = ',' then
      match readMember mode r with
      | .error e => .error e
      | .ok (member, ⟨r', h'⟩) =>
        match readMembers mode false r' with
        | .error e => .error e
        | .ok (members, left) => .ok (member :: members, (left.trans h').trans shorter)
    else .error .malformed
termination_by 3 * s.length + 2

/-- A key and its value. -/
def readMember (mode : Mode) (s : List Char) : Except Failure ((String × Tree) × Shorter s) :=
  match skipBlanks s with
  | ⟨[], _⟩ => .error .unfinished
  | ⟨c :: r, h⟩ =>
    have shorter : r.length < s.length := h
    if c = '\x22' then
      match readString mode r with
      | .error e => .error e
      | .ok (key, ⟨r', h'⟩) =>
        match skipBlanks r' with
        | ⟨[], _⟩ => .error .unfinished
        | ⟨d :: r'', h''⟩ =>
          have colon : r''.length < r'.length := h''
          if d = ':' then
            match readValue mode r'' with
            | .error e => .error e
            | .ok (tree, left) =>
              .ok ((String.ofList key, tree), ((left.trans colon).trans h').trans shorter)
          else .error .malformed
    else .error .malformed
termination_by 3 * s.length + 1
end

/-- How deep arrays and objects may nest. -/
def maxDepth : Nat := 127

/-- Nothing but blanks is left. -/
def atEnd (s : List Char) : Bool := (skipBlanks s).1.isEmpty

/-- Reads a whole text. -/
def read (text : String) : Except Failure Tree :=
  match readValue (.strict maxDepth) text.toList with
  | .error e => .error e
  | .ok (tree, ⟨r, _⟩) => if atEnd r then .ok tree else .error .malformed

end Stencil.Json
