/-
# JSON values in a Python program

What `json.loads` gives, numbers with a fraction and the two infinities included, and what the
interpreter does with it: subscripts, `get`, `int`, `str` and iteration, each with the exception it
raises.  What `int` makes of a text, what a value looks like as a text and what `json.loads` makes
of one are parameters, `Interpreter`.

A program reads the parts of a value one after the other and stops at the first one that raises.
`Judged` follows it with one VERDICT for each part it reads: the part is fine, it raises an
exception that the caller expects, or it raises another one.  `Judged.bind` puts the rulings of two
programs together, and `Judged.safe_iff` says when no unexpected exception comes out.
-/
import PyRaftKv.Formats.Json

namespace Formats

/-! ## 1. Values and exceptions -/

/-- A finite float is `mantissa * 2 ^ exponent`, with a sign. -/
inductive PyFloat
  | finite (negative : Bool) (mantissa : Nat) (exponent : Int)
  | infinity (negative : Bool)
  | nan

inductive PyJson
  | null
  | bool (b : Bool)
  | int (n : Int)
  | float (x : PyFloat)
  | str (s : String)
  | arr (items : List PyJson)
  | obj (members : List (String × PyJson))

/-- The exceptions these operations raise.  `JSONDecodeError` is a `ValueError`. -/
inductive PyError
  | keyError (key : String)
  | typeError
  | valueError
  | jsonDecodeError
  | overflowError
  | attributeError
  | recursionError
deriving DecidableEq

/-- `except (KeyError, TypeError, ValueError)` catches it. -/
def PyError.Caught : PyError → Prop
  | .keyError _ | .typeError | .valueError | .jsonDecodeError => True
  | .overflowError | .attributeError | .recursionError => False

instance : DecidablePred PyError.Caught := fun e =>
  match e with
  | .keyError _ | .typeError | .valueError | .jsonDecodeError => isTrue trivial
  | .overflowError | .attributeError | .recursionError => isFalse id

/-- What is left to the interpreter. -/
structure Interpreter where
  /-- `int(s)`, without a value where it raises `ValueError`. -/
  intOfText : String → Option Int
  /-- `str(v)` of a value that is not a text. -/
  repr : PyJson → Except PyError String
  /-- `json.loads(s)`. -/
  loads : List Char → Except PyError PyJson

namespace PyJson

/-! ## 2. Operations -/

/-- The member of a dict under a key.  A key that occurs twice has its last value. -/
def lookup (members : List (String × PyJson)) (key : String) : Option PyJson :=
  members.reverse.lookup key

/-- The keys of a dict, in the order they were first put in. -/
def keys (members : List (String × PyJson)) : List String := (members.map (·.1)).eraseDups

/-- `data.items()`. -/
def items (members : List (String × PyJson)) : List (String × PyJson) :=
  (keys members).filterMap fun key => (lookup members key).map (key, ·)

/-- `data[key]`. -/
def getItem (data : PyJson) (key : String) : Except PyError PyJson :=
  match data with
  | .obj members =>
    match lookup members key with
    | some value => .ok value
    | none => .error (.keyError key)
  | _ => .error .typeError

/-- `data.get(key, default)`. -/
def getD (data : PyJson) (key : String) (default : PyJson) : Except PyError PyJson :=
  match data with
  | .obj members => .ok ((lookup members key).getD default)
  | _ => .error .attributeError

/-- `int(x)` of a float: it is cut off towards zero. -/
def floatToInt : PyFloat → Except PyError Int
  | .finite negative mantissa exponent =>
    let whole : Nat := if exponent < 0 then mantissa / 2 ^ exponent.natAbs
      else mantissa * 2 ^ exponent.natAbs
    .ok (if negative then -whole else whole)
  | .infinity _ => .error .overflowError
  | .nan => .error .valueError

variable (py : Interpreter)

/-- `int(value)`. -/
def toInt : PyJson → Except PyError Int
  | .int n => .ok n
  | .bool b => .ok b.toNat
  | .float x => floatToInt x
  | .str s =>
    match py.intOfText s with
    | some n => .ok n
    | none => .error .valueError
  | .null | .arr _ | .obj _ => .error .typeError

/-- `str(value)`. -/
def toText : PyJson → Except PyError String
  | .str s => .ok s
  | value => py.repr value

/-- `for item in value`. -/
def iterate : PyJson → Except PyError (List PyJson)
  | .arr items => .ok items
  | .str s => .ok (s.toList.map fun c => .str (String.singleton c))
  | .obj members => .ok ((keys members).map .str)
  | .null | .bool _ | .int _ | .float _ => .error .typeError

end PyJson

/-! ## 3. Rulings -/

/-- What reading a part of a value comes to. -/
inductive Ruling
  | fine
  | refused
  | fatal
deriving DecidableEq

/-- The first ruling that is not fine, which is where the program stops. -/
def firstFault (vs : List Ruling) : Option Ruling := vs.find? (· ≠ .fine)

/-- The program does not stop at a fatal part. -/
def NotFatal (vs : List Ruling) : Prop := firstFault vs ≠ some .fatal

instance (vs : List Ruling) : Decidable (NotFatal vs) := inferInstanceAs (Decidable (¬ _))

section Judged

variable {ε α β : Type} {expected : ε → Prop} {x : Except ε α} {f : α → Except ε β}
  {vs ws : List Ruling}

/-- A program that answers has answered at every step. -/
theorem bind_eq_ok {b : β} : x >>= f = .ok b ↔ ∃ a, x = .ok a ∧ f a = .ok b := by
  cases x with
  | error e => exact ⟨fun h => (nomatch h), fun ⟨_, h, _⟩ => (nomatch h)⟩
  | ok a => exact ⟨fun h => ⟨a, rfl, h⟩, fun ⟨_, h, hf⟩ => Except.ok.inj h ▸ hf⟩

/-- No unexpected exception comes out. -/
def Safe (expected : ε → Prop) (x : Except ε α) : Prop := ∀ e, x = .error e → expected e

/-- What stands behind an exception does not count. -/
theorem safe_error_bind {e : ε} :
    Safe expected ((.error e : Except ε α) >>= f) ↔ Safe expected (.error e : Except ε α) := by
  constructor
  · rintro h e' ⟨⟩
    exact h e rfl
  · rintro h e' ⟨⟩
    exact h e rfl

theorem safe_map {g : α → β} : Safe expected (x.map g) ↔ Safe expected x := by
  cases x with
  | error e =>
    exact ⟨fun h e' he => h e' (by cases he; rfl), fun h e' he => h e' (by cases he; rfl)⟩
  | ok a => exact iff_of_true (fun e he => nomatch he) fun e he => nomatch he

/-- **The rulings tell how the program ends.** -/
def Judged (expected : ε → Prop) (x : Except ε α) (vs : List Ruling) : Prop :=
  match firstFault vs with
  | none => ∃ a, x = .ok a
  | some .fine => False
  | some .refused => ∃ e, x = .error e ∧ expected e
  | some .fatal => ∃ e, x = .error e ∧ ¬ expected e

@[simp] theorem firstFault_nil : firstFault [] = none := rfl

@[simp] theorem firstFault_fine : firstFault (.fine :: vs) = firstFault vs := rfl

@[simp] theorem firstFault_refused : firstFault (.refused :: vs) = some .refused := rfl

@[simp] theorem firstFault_fatal : firstFault (.fatal :: vs) = some .fatal := rfl

theorem firstFault_append (vs ws : List Ruling) :
    firstFault (vs ++ ws) = (firstFault vs).or (firstFault ws) := List.find?_append

theorem firstFault_ne_fine (vs : List Ruling) : firstFault vs ≠ some .fine := by
  intro h
  have := List.find?_some h
  simp at this

theorem Judged.ok (a : α) : Judged expected (.ok a : Except ε α) [] := ⟨a, rfl⟩

theorem Judged.refused {e : ε} (he : expected e) :
    Judged expected (.error e : Except ε α) [.refused] := ⟨e, rfl, he⟩

theorem Judged.fatal {e : ε} (he : ¬ expected e) :
    Judged expected (.error e : Except ε α) [.fatal] := ⟨e, rfl, he⟩

/-- **One program after the other.** -/
theorem Judged.bind (hx : Judged expected x vs) (hf : ∀ a, x = .ok a → Judged expected (f a) ws) :
    Judged expected (x >>= f) (vs ++ ws) := by
  unfold Judged at hx ⊢
  rw [firstFault_append]
  rcases hfault : firstFault vs with _ | v
  · rw [hfault] at hx
    obtain ⟨a, rfl⟩ := hx
    exact hf a rfl
  · rw [hfault] at hx
    cases v with
    | fine => exact absurd hfault (firstFault_ne_fine vs)
    | refused =>
      obtain ⟨e, rfl, he⟩ := hx
      exact ⟨e, rfl, he⟩
    | fatal =>
      obtain ⟨e, rfl, he⟩ := hx
      exact ⟨e, rfl, he⟩

/-- A program that only answers behind another one. -/
theorem Judged.answer (hx : Judged expected x vs) (g : α → β) :
    Judged expected (x >>= fun a => pure (g a)) vs := by
  have h : Judged expected (x >>= fun a => pure (g a)) (vs ++ []) := hx.bind fun a _ => .ok (g a)
  rwa [List.append_nil] at h

/-- **No unexpected exception comes out exactly if the program does not stop at a fatal part.** -/
theorem Judged.safe_iff (hx : Judged expected x vs) : Safe expected x ↔ NotFatal vs := by
  unfold Judged at hx
  unfold Safe NotFatal
  rcases hfault : firstFault vs with _ | v
  · rw [hfault] at hx
    obtain ⟨a, rfl⟩ := hx
    exact iff_of_true (fun e he => nomatch he) (by simp)
  · rw [hfault] at hx
    cases v with
    | fine => exact hx.elim
    | refused =>
      obtain ⟨e, rfl, he⟩ := hx
      refine iff_of_true ?_ (by simp)
      rintro e' ⟨⟩
      exact he
    | fatal =>
      obtain ⟨e, rfl, he⟩ := hx
      exact iff_of_false (fun h => he (h e rfl)) (by simp)

end Judged

namespace PyJson

/-! ## 4. The rulings of the operations -/

variable (py : Interpreter)

/-- The ruling on a call of the interpreter. -/
def callRuling {α : Type} : Except PyError α → Ruling
  | .ok _ => .fine
  | .error e => if e.Caught then .refused else .fatal

/-- `int(value)` refuses what is no number, and fails on an infinity. -/
def intRuling : PyJson → Ruling
  | .int _ | .bool _ | .float (.finite ..) => .fine
  | .float (.infinity _) => .fatal
  | .str s => if (py.intOfText s).isSome then .fine else .refused
  | .float .nan | .null | .arr _ | .obj _ => .refused

/-- `str(value)`. -/
def textRuling : PyJson → Ruling
  | .str _ => .fine
  | value => callRuling (py.repr value)

/-- Reading `data[key]` in a way that has the rulings `read`. -/
def fieldRulings (read : PyJson → List Ruling) (key : String) : PyJson → List Ruling
  | .obj members => (lookup members key).elim [.refused] read
  | _ => [.refused]

/-- `int(data[key])`. -/
def intField (key : String) : PyJson → List Ruling :=
  fieldRulings (fun v => [intRuling py v]) key

/-- `str(data[key])`. -/
def textField (key : String) : PyJson → List Ruling :=
  fieldRulings (fun v => [textRuling py v]) key

theorem judged_call {α : Type} (x : Except PyError α) :
    Judged PyError.Caught x [callRuling x] := by
  cases x with
  | ok a => exact ⟨a, rfl⟩
  | error e =>
    by_cases he : e.Caught
    · simp only [callRuling, if_pos he]
      exact .refused he
    · simp only [callRuling, if_neg he]
      exact .fatal he

theorem judged_toInt (value : PyJson) :
    Judged PyError.Caught (value.toInt py) [intRuling py value] := by
  cases value with
  | int n => exact ⟨n, rfl⟩
  | bool b => exact ⟨_, rfl⟩
  | float x =>
    cases x with
    | finite negative mantissa exponent => exact ⟨_, rfl⟩
    | infinity negative => exact ⟨_, rfl, id⟩
    | nan => exact ⟨_, rfl, trivial⟩
  | str s =>
    simp only [toInt, intRuling]
    rcases py.intOfText s with _ | n
    · exact ⟨_, rfl, trivial⟩
    · exact ⟨n, rfl⟩
  | null => exact ⟨_, rfl, trivial⟩
  | arr items => exact ⟨_, rfl, trivial⟩
  | obj members => exact ⟨_, rfl, trivial⟩

theorem judged_toText (value : PyJson) :
    Judged PyError.Caught (value.toText py) [textRuling py value] := by
  cases value with
  | str s => exact ⟨s, rfl⟩
  | _ => exact judged_call _

/-- A field that is read. -/
theorem judged_field {α : Type} {read : PyJson → Except PyError α}
    {rulings : PyJson → List Ruling}
    (hread : ∀ value, Judged PyError.Caught (read value) (rulings value)) (key : String)
    (data : PyJson) :
    Judged PyError.Caught (data.getItem key >>= read) (fieldRulings rulings key data) := by
  cases data with
  | obj members =>
    simp only [getItem, fieldRulings]
    rcases lookup members key with _ | value
    · exact ⟨_, rfl, trivial⟩
    · exact hread value
  | _ => exact ⟨_, rfl, trivial⟩

theorem judged_intField (key : String) (data : PyJson) :
    Judged PyError.Caught (data.getItem key >>= toInt py) (intField py key data) :=
  judged_field (judged_toInt py) key data

theorem judged_textField (key : String) (data : PyJson) :
    Judged PyError.Caught (data.getItem key >>= toText py) (textField py key data) :=
  judged_field (judged_toText py) key data

/-- A list that is read item by item. -/
theorem judged_mapM {α β : Type} {f : α → Except PyError β} {rulings : α → List Ruling}
    (hf : ∀ a, Judged PyError.Caught (f a) (rulings a)) (as : List α) :
    Judged PyError.Caught (as.mapM f) (as.flatMap rulings) := by
  induction as with
  | nil => exact .ok []
  | cons a as ih =>
    rw [List.mapM_cons, List.flatMap_cons]
    exact (hf a).bind fun b _ => ih.answer (b :: ·)

/-! ## 5. The values of the plain reader -/

mutual

/-- A value without a fraction in it. -/
def ofJson : Json → PyJson
  | .null => .null
  | .bool b => .bool b
  | .int n => .int n
  | .str s => .str s
  | .arr items => .arr (ofItems items)
  | .obj members => .obj (ofMembers members)

def ofItems : List Json → List PyJson
  | [] => []
  | item :: items => ofJson item :: ofItems items

def ofMembers : List (String × Json) → List (String × PyJson)
  | [] => []
  | (key, value) :: members => (key, ofJson value) :: ofMembers members

end

theorem lookup_map_snd {α β κ : Type} [BEq κ] (f : α → β) (key : κ) : ∀ members : List (κ × α),
    (members.map fun m => (m.1, f m.2)).lookup key = (members.lookup key).map f
  | [] => rfl
  | m :: members => by
    rw [List.map_cons, List.lookup_cons, List.lookup_cons]
    cases key == m.1 with
    | true => rfl
    | false => exact lookup_map_snd f key members

theorem ofMembers_eq_map : ∀ members : List (String × Json),
    ofMembers members = members.map fun m => (m.1, ofJson m.2)
  | [] => by simp [ofMembers]
  | (key, value) :: members => by rw [ofMembers, ofMembers_eq_map members, List.map_cons]

theorem lookup_ofMembers (members : List (String × Json)) (key : String) :
    lookup (ofMembers members) key = ((Json.obj members).get? key).map ofJson := by
  rw [lookup, ofMembers_eq_map, ← List.map_reverse, lookup_map_snd]
  rfl

/-- An interpreter that reads texts with the plain reader, and has one text for all other values. -/
def plainPython : Interpreter where
  intOfText s := Json.numeral s.toList
  repr _ := .ok "..."
  loads s :=
    match Json.load s with
    | some value => .ok (ofJson value)
    | none => .error .jsonDecodeError

section Plain

variable {data value : Json} {key : String}

theorem getItem_ofJson (h : data.get? key = some value) :
    (ofJson data).getItem key = .ok (ofJson value) := by
  cases data with
  | obj members => simp only [ofJson, getItem, lookup_ofMembers, h, Option.map_some]
  | _ => cases h

theorem getD_ofJson (h : data.get? key = some value) (other : String) :
    (ofJson data).getD other .null = .ok (((data.get? other).map ofJson).getD .null) := by
  cases data with
  | obj members => simp only [ofJson, PyJson.getD, lookup_ofMembers]
  | _ => cases h

theorem plainPython_loads {text : List Char} (h : Json.load text = some value) :
    plainPython.loads text = .ok (ofJson value) := by
  simp only [plainPython, h]

theorem plainPython_refuses {text : List Char} (h : Json.load text = none) :
    plainPython.loads text = .error .jsonDecodeError := by
  simp only [plainPython, h]

end Plain

end PyJson

end Formats
