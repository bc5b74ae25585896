/-!
# Reading JSON

A reader for JSON text that tells apart text that ends too early, text that is malformed, and text
of the wrong shape. Values are read with all rules, to a limited depth of nesting; a value that is
only skipped may nest without limit, and neither the range of its numbers nor the pairing of its
surrogates matters.

Every reader returns what is left of the text together with a proof that it is shorter.
-/

namespace Stencil.Json

/-- Why a text is refused. -/
inductive Failure
  | unfinished | malformed | wrongShape
  deriving DecidableEq

/-- A number: an integer between `-2 ^ 63` and `2 ^ 64`, or a double. -/
inductive Number
  | integer (n : Int)
  | real (x : Float)

/-- JSON text taken apart; members in the order of the text. -/
inductive Tree
  | null
  | bool (b : Bool)
  | number (n : Number)
  | string (s : String)
  | array (items : List Tree)
  | object (members : List (String × Tree))

/-- What remains of a text after something was read off its front. -/
abbrev Shorter (s : List Char) := { r : List Char // r.length < s.length }

/-- What remains of a text, possibly all of it. -/
abbrev Within (s : List Char) := { r : List Char // r.length ≤ s.length }

namespace Shorter

variable {c : Char} {r s : List Char}

/-- All behind the first character. -/
def tail : Shorter (c :: r) := ⟨r, Nat.lt_succ_self _⟩

/-- A rest of the text behind the first character. -/
def behind (left : Shorter r) : Shorter (c :: r) := ⟨left.1, Nat.lt_succ_of_lt left.2⟩

/-- A rest of a shorter text. -/
def trans (left : Shorter r) (h : r.length < s.length) : Shorter s :=
  ⟨left.1, Nat.lt_trans left.2 h⟩

/-- A rest of a rest. -/
def join (left : Shorter s) (more : Shorter left.1) : Shorter s := more.trans left.2

/-- A shorter rest is a rest. -/
def within (left : Shorter s) : Within s := ⟨left.1, Nat.le_of_lt left.2⟩

/-- A rest that lacks the first character is a rest of the others. -/
def ofCons (left : Shorter (c :: r)) : Within r := ⟨left.1, Nat.le_of_lt_succ left.2⟩

end Shorter

namespace Within

variable {c : Char} {r s : List Char}

/-- Nothing was read. -/
def all : Within s := ⟨s, Nat.le_refl _⟩

/-- A rest of the text behind the first character. -/
def behind (left : Within r) : Within (c :: r) := ⟨left.1, Nat.le_succ_of_le left.2⟩

/-- A rest of a text that is no longer. -/
def trans (left : Within r) (h : r.length ≤ s.length) : Within s :=
  ⟨left.1, Nat.le_trans left.2 h⟩

/-- A rest of a rest. -/
def join (left : Within s) (more : Within left.1) : Within s := more.trans left.2

/-- A rest of a shorter text. -/
def shorter (left : Within r) (h : r.length < s.length) : Shorter s :=
  ⟨left.1, Nat.lt_of_le_of_lt left.2 h⟩

end Within

/-- What may stand between the parts of a JSON text. -/
def isBlank (c : Char) : Bool := c == ' ' || c == '\t' || c == '\n' || c == '\r'

theorem length_dropWhile_le (p : Char → Bool) (s : List Char) :
    (s.dropWhile p).length ≤ s.length := by
  induction s with
  | nil => simp
  | cons c r ih =>
    simp only [List.dropWhile_cons]
    split
    · simp only [List.length_cons]; omega
    · simp

/-- Leaves out leading blanks. -/
def skipBlanks (s : List Char) : Within s := ⟨s.dropWhile isBlank, length_dropWhile_le _ s⟩

/-- How strictly a value is read. -/
inductive Mode
  /-- With all rules; so many more levels of nesting are allowed. -/
  | strict (depth : Nat)
  | skip

/-- The mode inside one more level of nesting. -/
def Mode.inner? : Mode → Option Mode
  | strict (depth + 1) => some (strict depth)
  | strict 0 => none
  | skip => some skip

def Mode.isStrict : Mode → Bool
  | strict _ => true
  | skip => false

/-- Expects the rest of a word. -/
def readWord : (word s : List Char) → Except Failure (Within s)
  | [], _ => .ok .all
  | _ :: _, [] => .error .unfinished
  | w :: word, c :: s =>
    if w = c then (readWord word s).map Within.behind else .error .malformed

/-- The value of a hexadecimal digit. -/
def hexValue? (c : Char) : Option Nat :=
  if '0' ≤ c ∧ c ≤ '9' then some (c.toNat - '0'.toNat)
  else if 'a' ≤ c ∧ c ≤ 'f' then some (c.toNat - 'a'.toNat + 10)
  else if 'A' ≤ c ∧ c ≤ 'F' then some (c.toNat - 'A'.toNat + 10)
  else none

/-- Four hexadecimal digits. Text with fewer than four bytes left counts as unfinished. -/
def readHex : (s : List Char) → Except Failure (Nat × Shorter s)
  | a :: b :: c :: d :: _ =>
    match hexValue? a, hexValue? b, hexValue? c, hexValue? d with
    | some a, some b, some c, some d =>
      .ok (((a * 16 + b) * 16 + c) * 16 + d, Shorter.tail.behind.behind.behind)
    | _, _, _, _ => .error .malformed
  | s => .error (if (String.ofList s).utf8ByteSize < 4 then .unfinished else .malformed)

/-- The second half of a surrogate pair, after its first half. -/
def readLowSurrogate (high : Nat) : (s : List Char) → Except Failure (Char × Shorter s)
  | [] => .error .unfinished
  | ['\\'] => .error .unfinished
  | '\\' :: 'u' :: s =>
    match readHex s with
    | .error e => .error e
    | .ok (low, left) =>
      if 0xDC00 ≤ low ∧ low ≤ 0xDFFF then
        .ok (Char.ofNat (0x10000 + (high - 0xD800) * 0x400 + (low - 0xDC00)), left.behind.behind)
      else .error .malformed
  | _ => .error .malformed

/-- The character after the `u` of an escape. -/
def readUnicodeEscape (mode : Mode) (s : List Char) : Except Failure (Char × Shorter s) :=
  match readHex s with
  | .error e => .error e
  | .ok (n, left) =>
    if n < 0xD800 ∨ 0xDFFF < n ∨ !mode.isStrict then .ok (Char.ofNat n, left)
    else if n < 0xDC00 then
      match readLowSurrogate n left.1 with
      | .error e => .error e
      | .ok (c, more) => .ok (c, left.join more)
    else .error .malformed

/-- The character after a backslash. -/
def readEscape (mode : Mode) : (s : List Char) → Except Failure (Char × Shorter s)
  | [] => .error .unfinished
  | c :: r =>
    let plain (found : Char) : Except Failure (Char × Shorter (c :: r)) := .ok (found, .tail)
    if c = '\x22' ∨ c = '\\' ∨ c = '/' then plain c
    else if c = 'b' then plain '\x08'
    else if c = 'f' then plain '\x0c'
    else if c = 'n' then plain '\n'
    else if c = 'r' then plain '\r'
    else if c = 't' then plain '\t'
    else if c = 'u' then
      match readUnicodeEscape mode r with
      | .error e => .error e
      | .ok (found, left) => .ok (found, left.behind)
    else .error .malformed

/-- The characters of a string after its opening quote. -/
def readString (mode : Mode) : (s : List Char) → Except Failure (List Char × Shorter s)
  | [] => .error .unfinished
  | c :: r =>
    if c = '\x22' then .ok ([], .tail)
    else if c = '\\' then
      match readEscape mode r with
      | .error e => .error e
      | .ok (found, ⟨r', h⟩) =>
        match readString mode r' with
        | .error e => .error e
        | .ok (text, left) => .ok (found :: text, (left.trans h).behind)
    else if c.toNat < 32 then .error .malformed
    else
      match readString mode r with
      | .error e => .error e
      | .ok (text, left) => .ok (c :: text, left.behind)
termination_by s => s.length

/-- A number as written. -/
structure NumberText where
  negative : Bool
  whole : List Char
  fraction : List Char := []
  /-- Whether a fraction or an exponent was written at all. -/
  plain : Bool := true
  exponentNegative : Bool := false
  exponent : List Char := []

/-- The digits at the front of a text. -/
def readDigits (s : List Char) : List Char × Within s :=
  (s.takeWhile Char.isDigit, ⟨s.dropWhile Char.isDigit, length_dropWhile_le _ s⟩)

/-- At least one digit. Where it is missing at the end of the text, only a skipped number counts as
malformed. -/
def readSomeDigits (mode : Mode) (s : List Char) : Except Failure (List Char × Within s) :=
  match readDigits s with
  | ([], _) => .error (if s.isEmpty && mode.isStrict then .unfinished else .malformed)
  | found => .ok found

/-- The exponent of a number, if there is one. -/
def readExponent (mode : Mode) (n : NumberText) (s : List Char) :
    Except Failure (NumberText × Within s) :=
  let signed (negative : Bool) (r : List Char) (h : r.length ≤ s.length) :
      Except Failure (NumberText × Within s) :=
    match readSomeDigits mode r with
    | .error e => .error e
    | .ok (digits, left) =>
      let found := { n with plain := false, exponentNegative := negative, exponent := digits }
      .ok (found, left.trans h)
  match s, signed with
  | [], _ => .ok (n, .all)
  | e :: r, signed =>
    if e = 'e' ∨ e = 'E' then
      match r with
      | '+' :: r' => signed false r' Within.all.behind.behind.2
      | '-' :: r' => signed true r' Within.all.behind.behind.2
      | r' => signed false r' Within.all.behind.2
    else .ok (n, .all)

/-- The fraction and the exponent of a number, as far as they are there. -/
def readFraction (mode : Mode) (n : NumberText) (s : List Char) :
    Except Failure (NumberText × Within s) :=
  match s with
  | '.' :: r =>
    match readSomeDigits mode r with
    | .error e => .error e
    | .ok (digits, left) =>
      match readExponent mode { n with plain := false, fraction := digits } left.1 with
      | .error e => .error e
      | .ok (n, more) => .ok (n, (left.join more).behind)
  | s => readExponent mode n s

/-- A number after its sign. A leading zero stands alone. -/
def readNumber (mode : Mode) (negative : Bool) : (s : List Char) →
    Except Failure (NumberText × Shorter s)
  | [] => .error (if mode.isStrict then .unfinished else .malformed)
  | c :: r =>
    let go (whole r' : List Char) (h : r'.length ≤ r.length) :
        Except Failure (NumberText × Shorter (c :: r)) :=
      match readFraction mode { negative, whole } r' with
      | .error e => .error e
      | .ok (n, left) => .ok (n, left.shorter (Nat.lt_succ_of_le h))
    if c = '0' then
      if (r.head?.map Char.isDigit).getD false then .error .malformed
      else go [c] r (Nat.le_refl _)
    else if c.isDigit then
      let (digits, left) := readDigits r
      go (c :: digits) left.1 left.2
    else .error .malformed

end Stencil.Json
