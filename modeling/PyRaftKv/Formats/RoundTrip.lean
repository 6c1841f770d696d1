/-
# Written values are read back, and torn ones are refused

The reader is taken apart along its own functions.  Each has one lemma about what the writer puts
down for it, and one that says that it GROWS: what it has read, it reads whatever follows.  A text
that is cut short cannot be read, for the whole text would be read to the same end.
-/
import PyRaftKv.Formats.Json

namespace Formats.Json

/-! ## 1. Characters and strings -/

theorem hexDigit_digitChar {n : Nat} (h : n < 16) : hexDigit n.digitChar = some n := by
  have hall : ∀ i : Fin 16, hexDigit (i : Nat).digitChar = some (i : Nat) := by decide
  exact hall ⟨n, h⟩

theorem scanHex4_hex4 {n : Nat} (h : n < 65536) (t : List Char) :
    scanHex4 (hex4 n ++ t) = some (n, t) := by
  have hlt : ∀ m : Nat, m % 16 < 16 := fun m => Nat.mod_lt m (by decide)
  simp only [hex4, List.cons_append, List.nil_append, scanHex4, hexDigit_digitChar (hlt _)]
  congr 2
  omega

theorem toChar_toNat (c : Char) : toChar c.toNat = some c := by
  unfold toChar
  rw [if_pos (show c.toNat.isValidChar from c.valid), Char.ofNat_toNat]

theorem valid_toNat (c : Char) : c.toNat < 55296 ∨ 57343 < c.toNat ∧ c.toNat < 1114112 := c.valid

/-- A character is no half of a surrogate pair. -/
theorem not_isHigh (c : Char) : ¬ IsHigh c.toNat := by
  have hc := valid_toNat c
  unfold IsHigh
  omega

theorem scanCode_hex4 {c : Char} (h : c.toNat < 65536) (t : List Char) :
    scanCode (hex4 c.toNat ++ t) = some (c, t) := by
  unfold scanCode
  simp only [scanHex4_hex4 h, if_neg (not_isHigh c), toChar_toNat, Option.map_some]

theorem isHigh_highHalf {n : Nat} (h : 65536 ≤ n) (hn : n < 1114112) : IsHigh (highHalf n) := by
  unfold IsHigh highHalf
  omega

theorem isLow_lowHalf (n : Nat) : IsLow (lowHalf n) := by
  unfold IsLow lowHalf
  omega

theorem joinHalves_halves {n : Nat} (h : 65536 ≤ n) : joinHalves (highHalf n) (lowHalf n) = n := by
  unfold joinHalves highHalf lowHalf
  omega

theorem scanCode_halves {high low : Nat} {c : Char} (hhigh : IsHigh high) (hlow : IsLow low)
    (hjoin : joinHalves high low = c.toNat) (t : List Char) :
    scanCode (hex4 high ++ (escapeCode low ++ t)) = some (c, t) := by
  have hhigh' : high < 65536 := Nat.lt_of_le_of_lt hhigh.2 (by decide)
  have hlow' : low < 65536 := Nat.lt_of_le_of_lt hlow.2 (by decide)
  unfold scanCode
  simp only [escapeCode, List.cons_append, scanHex4_hex4 hhigh', scanHex4_hex4 hlow',
    if_pos hhigh, if_pos hlow, hjoin, toChar_toNat, Option.map_some]

theorem scanCode_pair {c : Char} (h : 65536 ≤ c.toNat) (t : List Char) :
    scanCode (hex4 (highHalf c.toNat) ++ (escapeCode (lowHalf c.toNat) ++ t)) = some (c, t) := by
  have hlt : c.toNat < 1114112 := by
    have := valid_toNat c
    omega
  exact scanCode_halves (isHigh_highHalf h hlt) (isLow_lowHalf _) (joinHalves_halves h) t

theorem scanChar_escapeCode (n : Nat) (t : List Char) :
    scanChar (escapeCode n ++ t) = scanCode (hex4 n ++ t) := rfl

theorem eq_ofNat {c : Char} {n : Nat} (h : c.toNat = n) : c = Char.ofNat n := by
  rw [← h, Char.ofNat_toNat]

/-- The printable characters of ASCII. -/
def Printable (c : Char) : Prop := 32 ≤ c.toNat ∧ c.toNat ≤ 126

/-- What stands for a character in a string: two characters, itself, or its code, in two halves
where it is too large. -/
inductive Escapes (c : Char) : List Char → Prop
  | short (b : Char) : Printable b → (∀ t, scanChar ('\\' :: b :: t) = some (c, t)) →
      Escapes c ['\\', b]
  | itself : c ≠ '"' → c ≠ '\\' → Printable c → Escapes c [c]
  | code : c.toNat < 65536 → Escapes c (escapeCode c.toNat)
  | halves : 65536 ≤ c.toNat →
      Escapes c (escapeCode (highHalf c.toNat) ++ escapeCode (lowHalf c.toNat))

theorem escape_escapes (c : Char) : Escapes c (escape c) := by
  unfold escape
  by_cases hquote : c = '"'
  · rw [if_pos hquote, hquote]
    exact .short '"' ⟨by decide, by decide⟩ fun _ => rfl
  rw [if_neg hquote]
  by_cases hslash : c = '\\'
  · rw [if_pos hslash, hslash]
    exact .short '\\' ⟨by decide, by decide⟩ fun _ => rfl
  rw [if_neg hslash]
  by_cases hn : c = '\n'
  · rw [if_pos hn, hn]
    exact .short 'n' ⟨by decide, by decide⟩ fun _ => rfl
  rw [if_neg hn]
  by_cases hr : c = '\r'
  · rw [if_pos hr, hr]
    exact .short 'r' ⟨by decide, by decide⟩ fun _ => rfl
  rw [if_neg hr]
  by_cases ht : c = '\t'
  · rw [if_pos ht, ht]
    exact .short 't' ⟨by decide, by decide⟩ fun _ => rfl
  rw [if_neg ht]
  by_cases hb : c.toNat = 8
  · rw [if_pos hb, eq_ofNat hb]
    exact .short 'b' ⟨by decide, by decide⟩ fun _ => rfl
  rw [if_neg hb]
  by_cases hf : c.toNat = 12
  · rw [if_pos hf, eq_ofNat hf]
    exact .short 'f' ⟨by decide, by decide⟩ fun _ => rfl
  rw [if_neg hf]
  by_cases hp : 32 ≤ c.toNat ∧ c.toNat ≤ 126
  · rw [if_pos hp]
    exact .itself hquote hslash hp
  rw [if_neg hp]
  by_cases hcode : c.toNat < 65536
  · rw [if_pos hcode]
    exact .code hcode
  · rw [if_neg hcode]
    exact .halves (Nat.le_of_not_lt hcode)

theorem Escapes.scan {c : Char} {s : List Char} (h : Escapes c s) (t : List Char) :
    scanChar (s ++ t) = some (c, t) := by
  cases h with
  | short b _ hscan => exact hscan t
  | itself hquote hslash hp =>
    unfold scanChar
    split
    · rename_i h
      cases h
    · rename_i h
      cases h
      exact absurd rfl hslash
    · rename_i h
      cases h
      rw [if_neg (by unfold Printable at hp; omega)]
      rfl
  | code hcode => rw [scanChar_escapeCode, scanCode_hex4 hcode]
  | halves hcode => rw [List.append_assoc, scanChar_escapeCode, scanCode_pair hcode]

/-- No escape begins with the quote that would close the string. -/
theorem Escapes.head {c : Char} {s : List Char} (h : Escapes c s) :
    ∃ a t, s = a :: t ∧ a ≠ '"' := by
  cases h with
  | short b _ _ => exact ⟨_, _, rfl, by decide⟩
  | itself hquote _ _ => exact ⟨_, _, rfl, hquote⟩
  | code _ => exact ⟨_, _, rfl, by decide⟩
  | halves _ => exact ⟨_, _, rfl, by decide⟩

theorem scanChars_succ {n : Nat} {a : Char} {s : List Char} (h : a ≠ '"') :
    scanChars (n + 1) (a :: s) = match scanChar (a :: s) with
      | none => none
      | some (c, s) => (scanChars n s).map fun (cs, r) => (c :: cs, r) := by
  refine scanChars.eq_3 (a :: s) n ?_
  intro s' heq
  exact h (List.cons.inj heq).1

theorem scanChars_escape (cs t : List Char) : ∀ {n : Nat}, cs.length < n →
    scanChars n (cs.flatMap escape ++ '"' :: t) = some (cs, t) := by
  induction cs with
  | nil =>
    intro n hn
    obtain ⟨n, rfl⟩ : ∃ k, n = k + 1 := ⟨n - 1, by simp at hn; omega⟩
    rfl
  | cons c cs ih =>
    intro n hn
    obtain ⟨n, rfl⟩ : ∃ k, n = k + 1 := ⟨n - 1, by simp at hn; omega⟩
    obtain ⟨a, s, hesc, ha⟩ := (escape_escapes c).head
    rw [List.flatMap_cons, List.append_assoc, hesc, List.cons_append, scanChars_succ ha,
      ← List.cons_append, ← hesc, (escape_escapes c).scan]
    simp only
    rw [ih (by simp at hn; omega)]
    rfl

theorem length_le_flatMap_escape (cs : List Char) : cs.length ≤ (cs.flatMap escape).length := by
  induction cs with
  | nil => exact Nat.le_refl 0
  | cons c cs ih =>
    obtain ⟨a, s, hesc, -⟩ := (escape_escapes c).head
    rw [List.flatMap_cons, List.length_append, hesc]
    simp only [List.length_cons]
    omega

theorem scanString_dumpString (s : String) (t : List Char) :
    scanString (s.toList.flatMap escape ++ '"' :: t) = some (s, t) := by
  have hle := length_le_flatMap_escape s.toList
  unfold scanString
  rw [scanChars_escape s.toList t (by simp only [List.length_append]; omega)]
  simp

/-! ## 2. Numbers -/

theorem isDigit_of_mem_toDigits {n : Nat} {c : Char} (h : c ∈ Nat.toDigits 10 n) :
    c.isDigit = true := Nat.isDigit_of_mem_toDigits (by decide) (by decide) h

/-- Only zero is written with a leading zero. -/
theorem toDigits_head {n : Nat} : (Nat.toDigits 10 n).head? = some '0' →
    (Nat.toDigits 10 n).length = 1 := by
  induction n using Nat.strongRecOn with
  | ind n ih =>
    intro h
    by_cases hn : n < 10
    · rw [Nat.toDigits_of_lt_base hn]
      rfl
    · rw [Nat.toDigits_of_base_le (by decide) (by omega)] at h
      rw [List.head?_append_of_ne_nil _ Nat.toDigits_ne_nil] at h
      have hlen := ih (n / 10) (by omega) h
      have hsmall : n / 10 < 10 := by
        have := (Nat.length_toDigits_le_iff (by decide) (by decide : 0 < 1)).mp
          (Nat.le_of_eq hlen)
        simpa using this
      rw [Nat.toDigits_of_lt_base hsmall] at h
      simp at h
      omega

theorem natural_toDigits (n : Nat) : natural (Nat.toDigits 10 n) = some n := by
  unfold natural
  rw [if_pos ⟨List.all_eq_true.mpr fun c hc => isDigit_of_mem_toDigits hc, Nat.toDigits_ne_nil,
    toDigits_head⟩, Nat.ofDigitChars_ten_toDigits]

theorem numeral_dumpInt (n : Int) : numeral (dumpInt n) = some n := by
  cases n with
  | negSucc n =>
    simp only [dumpInt, numeral, natural_toDigits]
    rfl
  | ofNat n =>
    simp only [dumpInt]
    have hdigit : ∀ c ∈ Nat.toDigits 10 n, c.isDigit = true :=
      fun c hc => isDigit_of_mem_toDigits hc
    unfold numeral
    split
    · rename_i ds heq
      exact absurd (hdigit '-' (heq ▸ List.mem_cons_self)) (by decide)
    · rw [natural_toDigits]
      rfl

theorem dumpInt_numeric (n : Int) : ∀ c ∈ dumpInt n, isNumeric c = true := by
  have hdigits : ∀ m : Nat, ∀ c ∈ Nat.toDigits 10 m, isNumeric c = true := by
    intro m c hc
    simp [isNumeric, isDigit_of_mem_toDigits hc]
  cases n with
  | ofNat n => exact hdigits n
  | negSucc n =>
    intro c hc
    rcases List.mem_cons.mp hc with rfl | hc
    · rfl
    · exact hdigits _ c hc

theorem dumpInt_ne_nil (n : Int) : dumpInt n ≠ [] := by
  cases n with
  | ofNat n => exact Nat.toDigits_ne_nil
  | negSucc n => exact List.cons_ne_nil _ _

/-- A text that does not go on with a number. -/
def Stops (t : List Char) : Prop := ∀ c ∈ t.head?, isNumeric c = false

theorem scanNumber_dumpInt (n : Int) {t : List Char} (ht : Stops t) :
    scanNumber (dumpInt n ++ t) = some (.int n, t) := by
  have hnil : t.takeWhile isNumeric = [] ∧ t.dropWhile isNumeric = t := by
    cases t with
    | nil => exact ⟨rfl, rfl⟩
    | cons c t => simp [ht c rfl]
  unfold scanNumber
  rw [List.takeWhile_append_of_pos (dumpInt_numeric n),
    List.dropWhile_append_of_pos (dumpInt_numeric n), hnil.1, hnil.2, List.append_nil,
    numeral_dumpInt]
  rfl

/-! ## 3. Values -/

theorem skip_cons {c : Char} (h : isBlank c = false) (s : List Char) : skip (c :: s) = c :: s := by
  simp [skip, h]

theorem skip_blanks (k : Nat) (s : List Char) : skip (List.replicate k ' ' ++ s) = skip s :=
  List.dropWhile_append_of_pos fun c hc => by rw [List.eq_of_mem_replicate hc]; rfl

/-- A character that a value can begin with. -/
def opens (c : Char) : Bool := isNumeric c || c = '"' || c = '{' || c = '[' || c = 'n' || c = 't' ||
  c = 'f'

theorem isBlank_of_opens {c : Char} (h : opens c = true) : isBlank c = false := by
  rw [Bool.eq_false_iff]
  intro hb
  simp only [isBlank, Bool.or_eq_true, decide_eq_true_eq] at hb
  rcases hb with ((rfl | rfl) | rfl) | rfl <;> exact absurd h (by decide)

theorem dump_head (p : Separators) (v : Json) : ∃ c s, dump p v = c :: s ∧ opens c = true := by
  cases v with
  | null => exact ⟨_, _, dump.eq_1 p, rfl⟩
  | bool b =>
    cases b with
    | true => exact ⟨_, _, dump.eq_2 p, rfl⟩
    | false => exact ⟨_, _, dump.eq_3 p, rfl⟩
  | int n =>
    rw [dump]
    obtain ⟨c, s, hcs⟩ := List.exists_cons_of_ne_nil (dumpInt_ne_nil n)
    refine ⟨c, s, hcs, ?_⟩
    have hc := dumpInt_numeric n c (hcs ▸ List.mem_cons_self)
    simp [opens, hc]
  | str s => exact ⟨_, _, dump.eq_5 p s, rfl⟩
  | arr items => exact ⟨_, _, dump.eq_6 p items, rfl⟩
  | obj members => exact ⟨_, _, dump.eq_7 p members, rfl⟩

theorem skip_dump (p : Separators) (v : Json) (t : List Char) :
    skip (dump p v ++ t) = dump p v ++ t := by
  obtain ⟨c, s, hcs, hc⟩ := dump_head p v
  rw [hcs, List.cons_append, skip_cons (isBlank_of_opens hc)]

theorem dumpItems_head (p : Separators) (x : Json) (xs : List Json) :
    ∃ c s, dumpItems p (x :: xs) = c :: s ∧ opens c = true := by
  obtain ⟨c, s, hcs, hc⟩ := dump_head p x
  cases xs with
  | nil => exact ⟨c, _, by rw [dumpItems, hcs, List.cons_append], hc⟩
  | cons y ys => exact ⟨c, _, by rw [dumpItems, hcs, List.cons_append], hc⟩

theorem dumpMembers_head (p : Separators) (key : String) (x : Json) (ms : List (String × Json)) :
    ∃ s, dumpMembers p ((key, x) :: ms) = '"' :: s := by
  cases ms with
  | nil => exact ⟨_, by rw [dumpMembers, dumpString, List.cons_append]⟩
  | cons m ms => exact ⟨_, by rw [dumpMembers, dumpString, List.cons_append]⟩

theorem scanValue_numeric {n : Nat} {c : Char} {s : List Char} (h : isNumeric c = true) :
    scanValue (n + 1) (c :: s) = scanNumber (c :: s) := by
  rw [scanValue]
  all_goals
    rintro rfl
    exact absurd h (by decide)

theorem scanValue_str {n : Nat} {s : List Char} :
    scanValue (n + 1) ('"' :: s) = (scanString s).map fun (x, r) => (.str x, r) := rfl

theorem scanValue_items {n : Nat} {c : Char} {s : List Char} (h : opens c = true) :
    scanValue (n + 1) ('[' :: c :: s) =
      (scanItems n (c :: s)).map fun (xs, r) => (.arr xs, r) := by
  simp only [scanValue, skip_cons (isBlank_of_opens h)]
  split
  · rename_i r heq
    obtain rfl := (List.cons.inj heq).1
    exact absurd h (by decide)
  · rfl

theorem scanValue_members {n : Nat} {s : List Char} :
    scanValue (n + 1) ('{' :: '"' :: s) =
      (scanMembers n ('"' :: s)).map fun (ms, r) => (.obj ms, r) := by
  simp only [scanValue, skip_cons (c := '"') rfl]
  split
  · rename_i r heq
    exact absurd (List.cons.inj heq).1 (by decide)
  · rfl

theorem length_comma (p : Separators) : p.comma.length = p.afterComma + 1 := by
  simp [Separators.comma]

theorem length_colon (p : Separators) : p.colon.length = p.afterColon + 1 := by
  simp [Separators.colon]

theorem expect_append (w t : List Char) (v : Json) : expect w v (w ++ t) = some (v, t) := by
  unfold expect
  rw [if_pos (List.isPrefixOf_iff_prefix.mpr (List.prefix_append w t)), List.drop_left]

mutual

/-- **A written value is read back**, and what follows it is left. -/
theorem scanValue_dump (p : Separators) : ∀ (v : Json) {n : Nat} {t : List Char},
    (dump p v).length < n → v.closed = true ∨ Stops t →
      scanValue n (dump p v ++ t) = some (v, t)
  | .null, n + 1, t, _, _ => by
    rw [dump]
    exact expect_append _ t _
  | .bool true, n + 1, t, _, _ => by
    rw [dump]
    exact expect_append _ t _
  | .bool false, n + 1, t, _, _ => by
    rw [dump]
    exact expect_append _ t _
  | .int i, n + 1, t, _, ht => by
    rw [dump]
    obtain ⟨c, s, hcs⟩ := List.exists_cons_of_ne_nil (dumpInt_ne_nil i)
    have hc := dumpInt_numeric i c (hcs ▸ List.mem_cons_self)
    rw [hcs, List.cons_append, scanValue_numeric hc, ← List.cons_append, ← hcs]
    exact scanNumber_dumpInt i (ht.resolve_left Bool.false_ne_true)
  | .str s, n + 1, t, _, _ => by
    rw [dump, dumpString, List.cons_append, List.append_assoc, List.singleton_append,
      scanValue_str, scanString_dumpString, Option.map_some]
  | .arr [], n + 1, t, _, _ => by
    rw [dump, dumpItems]
    rfl
  | .arr (x :: xs), n + 1, t, hn, _ => by
    rw [dump] at hn ⊢
    obtain ⟨c, s, hcs, hc⟩ := dumpItems_head p x xs
    have hread := scanItems_dump p x xs (n := n) (t := t) (by simp at hn; omega)
    rw [hcs] at hread ⊢
    rw [List.cons_append, List.cons_append, scanValue_items hc, ← List.cons_append, hread]
    rfl
  | .obj [], n + 1, t, _, _ => by
    rw [dump, dumpMembers]
    rfl
  | .obj ((key, x) :: ms), n + 1, t, hn, _ => by
    rw [dump] at hn ⊢
    obtain ⟨s, hs⟩ := dumpMembers_head p key x ms
    have hread := scanMembers_dump p key x ms (n := n) (t := t) (by simp at hn; omega)
    rw [hs] at hread ⊢
    rw [List.cons_append, List.cons_append, scanValue_members, ← List.cons_append, hread]
    rfl

theorem scanItems_dump (p : Separators) : ∀ (x : Json) (xs : List Json) {n : Nat} {t : List Char},
    (dumpItems p (x :: xs)).length < n →
      scanItems n (dumpItems p (x :: xs) ++ t) = some (x :: xs, t)
  | x, [], n + 1, t, hn => by
    rw [dumpItems, List.length_append] at hn
    rw [dumpItems, List.append_assoc, scanItems,
      scanValue_dump p x (by simp at hn; omega) (Or.inr fun c hc => by cases hc; rfl)]
    rfl
  | x, y :: ys, n + 1, t, hn => by
    rw [dumpItems, List.length_append, List.length_append, length_comma] at hn
    have hread := scanItems_dump p y ys (n := n) (t := t) (by omega)
    obtain ⟨c, s, hcs, hc⟩ := dumpItems_head p y ys
    rw [dumpItems, List.append_assoc, scanItems, scanValue_dump p x (by omega)
      (Or.inr fun c hc => by cases hc; rfl)]
    simp only [Separators.comma, List.cons_append, List.append_assoc, skip_cons (c := ',') rfl,
      skip_blanks]
    rw [hcs, List.cons_append] at hread ⊢
    rw [skip_cons (isBlank_of_opens hc), hread]
    rfl

theorem scanMembers_dump (p : Separators) : ∀ (key : String) (x : Json)
    (ms : List (String × Json)) {n : Nat} {t : List Char},
    (dumpMembers p ((key, x) :: ms)).length < n →
      scanMembers n (dumpMembers p ((key, x) :: ms) ++ t) = some ((key, x) :: ms, t)
  | key, x, [], n + 1, t, hn => by
    rw [dumpMembers] at hn
    have hread := scanValue_dump p x (n := n) (t := '}' :: t) (by simp at hn; omega)
      (Or.inr fun c hc => by cases hc; rfl)
    rw [dumpMembers, dumpString]
    simp only [List.cons_append, List.append_assoc, scanMembers, List.nil_append,
      scanString_dumpString, Separators.colon, skip_cons (c := ':') rfl,
      skip_blanks, skip_dump, hread, skip_cons (c := '}') rfl]
  | key, x, (key', y) :: ms, n + 1, t, hn => by
    simp only [dumpMembers, List.length_append, length_colon, length_comma] at hn
    have hread := scanValue_dump p x (n := n)
      (t := p.comma ++ (dumpMembers p ((key', y) :: ms) ++ t)) (by omega)
      (Or.inr fun c hc => by cases hc; rfl)
    have hnext := scanMembers_dump p key' y ms (n := n) (t := t) (by omega)
    obtain ⟨s, hs⟩ := dumpMembers_head p key' y ms
    rw [dumpMembers, dumpString]
    rw [hs, List.cons_append] at hnext hread ⊢
    simp only [List.cons_append, List.append_assoc, scanMembers, List.nil_append,
      scanString_dumpString, Separators.colon, skip_cons (c := ':') rfl,
      skip_blanks, skip_dump, hread]
    simp only [Separators.comma, List.cons_append, skip_cons (c := ',') rfl, skip_blanks,
      skip_cons (c := '"') rfl, hnext]
    rfl

end

theorem skip_self (p : Separators) (v : Json) : skip (dump p v) = dump p v := by
  simpa using skip_dump p v []

/-- **Round trip.** -/
theorem load_dump (p : Separators) (v : Json) : load (dump p v) = some v := by
  have hread := scanValue_dump p v (t := []) (Nat.lt_succ_self _) (Or.inr fun c hc => by cases hc)
  rw [List.append_nil] at hread
  unfold load
  rw [skip_self, hread]
  rfl

/-- A value whose text shows where it ends is not read where another text follows. -/
theorem load_dump_append {p : Separators} {v : Json} (hv : v.closed = true) {t : List Char}
    (ht : skip t ≠ []) : load (dump p v ++ t) = none := by
  unfold load
  rw [skip_dump, scanValue_dump p v (by simp only [List.length_append]; omega) (Or.inl hv)]
  exact if_neg ht

/-! ## 4. What has been read does not depend on what follows -/

section Grows

variable {s r : List Char} (t : List Char)

theorem scanHex4_grows {n : Nat} (h : scanHex4 s = some (n, r)) :
    scanHex4 (s ++ t) = some (n, r ++ t) := by
  unfold scanHex4 at h
  split at h
  · split at h
    · cases h
      simp only [List.cons_append, scanHex4, *]
    · cases h
  · cases h

theorem scanCode_grows {c : Char} (h : scanCode s = some (c, r)) :
    scanCode (s ++ t) = some (c, r ++ t) := by
  unfold scanCode at h ⊢
  split at h
  · cases h
  · rename_i n s' hn
    rw [scanHex4_grows t hn]
    simp only
    split at h
    · rename_i hhigh
      rw [if_pos hhigh]
      split at h
      · rename_i s''
        simp only [List.cons_append]
        split at h
        · cases h
        · rename_i m s₃ hm
          rw [scanHex4_grows t hm]
          simp only
          split at h
          · rename_i hlow
            rw [if_pos hlow]
            obtain ⟨c', hc', heq⟩ := Option.map_eq_some_iff.mp h
            cases heq
            rw [hc']
            rfl
          · cases h
      · cases h
    · rename_i hhigh
      rw [if_neg hhigh]
      obtain ⟨c', hc', heq⟩ := Option.map_eq_some_iff.mp h
      cases heq
      rw [hc']
      rfl

theorem scanChar_grows {c : Char} (h : scanChar s = some (c, r)) :
    scanChar (s ++ t) = some (c, r ++ t) := by
  unfold scanChar at h
  split at h
  · cases h
  · split at h
    · cases h
    · exact scanCode_grows t h
    · rename_i hu
      obtain ⟨c', hc', heq⟩ := Option.map_eq_some_iff.mp h
      cases heq
      simp only [List.cons_append, scanChar]
      rw [hc']
      rfl
  · split at h
    · cases h
    · rename_i hc
      cases h
      simp only [List.cons_append, scanChar, if_neg hc]

theorem scanChars_grows {n : Nat} : ∀ {m : Nat} {s : List Char} {cs r : List Char}, n ≤ m →
    scanChars n s = some (cs, r) → scanChars m (s ++ t) = some (cs, r ++ t) := by
  induction n with
  | zero =>
    intro m s cs r _ h
    cases h
  | succ n ih =>
    intro m s cs r hm h
    obtain ⟨m, rfl⟩ : ∃ k, m = k + 1 := ⟨m - 1, by omega⟩
    cases s with
    | nil => cases h
    | cons a s =>
      by_cases ha : a = '"'
      · subst ha
        cases h
        rfl
      · rw [scanChars_succ ha] at h
        rw [List.cons_append, scanChars_succ ha, ← List.cons_append]
        split at h
        · cases h
        · rename_i c s' hc
          obtain ⟨⟨cs', r'⟩, hrest, heq⟩ := Option.map_eq_some_iff.mp h
          cases heq
          rw [scanChar_grows t hc]
          simp only
          rw [ih (by omega) hrest]
          rfl

theorem scanString_grows {x : String} (h : scanString s = some (x, r)) :
    scanString (s ++ t) = some (x, r ++ t) := by
  unfold scanString at h ⊢
  obtain ⟨⟨cs, r'⟩, hrest, heq⟩ := Option.map_eq_some_iff.mp h
  cases heq
  rw [scanChars_grows t (by simp only [List.length_append]; omega) hrest]
  rfl

theorem scanNumber_grows {v : Json} (h : scanNumber s = some (v, r)) (hr : r ≠ []) :
    scanNumber (s ++ t) = some (v, r ++ t) := by
  unfold scanNumber at h ⊢
  obtain ⟨n, hn, heq⟩ := Option.map_eq_some_iff.mp h
  cases heq
  have hlen : (s.takeWhile isNumeric).length ≠ s.length := by
    intro hlen
    have := congrArg List.length (List.takeWhile_append_dropWhile (p := isNumeric) (l := s))
    rw [List.length_append] at this
    exact hr (List.length_eq_zero_iff.mp (by omega))
  rw [List.takeWhile_append, if_neg hlen, List.dropWhile_append, if_neg (by simpa using hr), hn]
  rfl

theorem expect_grows {w : List Char} {v x : Json} (h : expect w v s = some (x, r)) :
    expect w v (s ++ t) = some (x, r ++ t) := by
  unfold expect at h
  split at h
  · rename_i hw
    obtain ⟨u, rfl⟩ := List.isPrefixOf_iff_prefix.mp hw
    rw [List.drop_left] at h
    cases h
    rw [List.append_assoc]
    exact expect_append w _ v
  · cases h

theorem skip_append (h : skip s ≠ []) : skip (s ++ t) = skip s ++ t := by
  unfold skip at h ⊢
  rw [List.dropWhile_append, if_neg (by simpa using h)]

theorem skip_grows {c : Char} (h : skip s = c :: r) : skip (s ++ t) = c :: (r ++ t) := by
  rw [skip_append t (by rw [h]; exact List.cons_ne_nil _ _), h, List.cons_append]

theorem scanValue_nil (n : Nat) : scanValue n [] = none := by
  cases n <;> rfl

theorem scanItems_nil (n : Nat) : scanItems n [] = none := by
  cases n with
  | zero => rfl
  | succ n => rw [scanItems, scanValue_nil]

theorem scanMembers_nil (n : Nat) : scanMembers n [] = none := by
  cases n <;> rfl

theorem exists_succ {n m : Nat} (h : n + 1 ≤ m) : ∃ k, m = k + 1 ∧ n ≤ k :=
  ⟨m - 1, by omega, by omega⟩

/-- With more fuel and a longer text, a value is read that was read before.  A number has to have
been followed by something. -/
def ValuesGrow (n : Nat) : Prop := ∀ {m : Nat} {s r : List Char} {v : Json}, n ≤ m →
  scanValue n s = some (v, r) → v.closed = true ∨ r ≠ [] → scanValue m (s ++ t) = some (v, r ++ t)

def ItemsGrow (n : Nat) : Prop := ∀ {m : Nat} {s r : List Char} {xs : List Json}, n ≤ m →
  scanItems n s = some (xs, r) → scanItems m (s ++ t) = some (xs, r ++ t)

def MembersGrow (n : Nat) : Prop := ∀ {m : Nat} {s r : List Char} {ms : List (String × Json)},
  n ≤ m → scanMembers n s = some (ms, r) → scanMembers m (s ++ t) = some (ms, r ++ t)

variable {t}

theorem ValuesGrow.succ {n : Nat} (hitems : ItemsGrow t n) (hmembers : MembersGrow t n) :
    ValuesGrow t (n + 1) := by
  intro m s r v hm h hr
  obtain ⟨m, rfl, hle⟩ := exists_succ hm
  cases s with
  | nil => cases h
  | cons c s =>
    rw [scanValue.eq_def] at h
    simp only at h
    split at h
    · obtain ⟨⟨x, r'⟩, hx, heq⟩ := Option.map_eq_some_iff.mp h
      cases heq
      simp only [List.cons_append, scanValue, scanString_grows t hx, Option.map_some]
    · split at h
      · rename_i r' hs
        cases h
        simp only [List.cons_append, scanValue, skip_grows t hs]
      · rename_i hne
        obtain ⟨⟨ms, r'⟩, hms, heq⟩ := Option.map_eq_some_iff.mp h
        cases heq
        have hs : skip s ≠ [] := fun hs => by rw [hs, scanMembers_nil] at hms; cases hms
        obtain ⟨c, s', hcs⟩ := List.exists_cons_of_ne_nil hs
        simp only [List.cons_append, scanValue, skip_append t hs]
        split
        · rename_i r'' heq
          rw [hcs, List.cons_append] at heq
          exact absurd (by rw [hcs, (List.cons.inj heq).1]) (hne s')
        · rw [hmembers hle hms]
          rfl
    · split at h
      · rename_i r' hs
        cases h
        simp only [List.cons_append, scanValue, skip_grows t hs]
      · rename_i hne
        obtain ⟨⟨xs, r'⟩, hxs, heq⟩ := Option.map_eq_some_iff.mp h
        cases heq
        have hs : skip s ≠ [] := fun hs => by rw [hs, scanItems_nil] at hxs; cases hxs
        obtain ⟨c, s', hcs⟩ := List.exists_cons_of_ne_nil hs
        simp only [List.cons_append, scanValue, skip_append t hs]
        split
        · rename_i r'' heq
          rw [hcs, List.cons_append] at heq
          exact absurd (by rw [hcs, (List.cons.inj heq).1]) (hne s')
        · rw [hitems hle hxs]
          rfl
    · exact expect_grows t h
    · exact expect_grows t h
    · exact expect_grows t h
    · have hr' : r ≠ [] := by
        rcases hr with hv | hr
        · obtain ⟨i, -, heq⟩ := Option.map_eq_some_iff.mp h
          cases heq
          cases hv
        · exact hr
      rw [List.cons_append, scanValue]
      · exact scanNumber_grows t h hr'
      all_goals assumption

theorem ItemsGrow.succ {n : Nat} (hvalues : ValuesGrow t n) (hitems : ItemsGrow t n) :
    ItemsGrow t (n + 1) := by
  intro m s r xs hm h
  obtain ⟨m, rfl, hle⟩ := exists_succ hm
  rw [scanItems] at h ⊢
  split at h
  · cases h
  · rename_i x s' hx
    have hmore : s' ≠ [] := by
      rintro rfl
      cases h
    rw [hvalues hle hx (Or.inr hmore)]
    simp only
    split at h
    · rename_i r' hs
      cases h
      rw [skip_grows t hs]
      rfl
    · rename_i s'' hs
      obtain ⟨⟨xs', r'⟩, hxs, heq⟩ := Option.map_eq_some_iff.mp h
      cases heq
      have hs' : skip s'' ≠ [] := fun hs' => by rw [hs', scanItems_nil] at hxs; cases hxs
      rw [skip_grows t hs]
      simp only
      rw [skip_append t hs', hitems hle hxs]
      rfl
    · cases h

theorem MembersGrow.succ {n : Nat} (hvalues : ValuesGrow t n) (hmembers : MembersGrow t n) :
    MembersGrow t (n + 1) := by
  intro m s r ms hm h
  obtain ⟨m, rfl, hle⟩ := exists_succ hm
  rw [scanMembers.eq_def] at h
  simp only at h
  split at h
  · simp only [List.cons_append, scanMembers]
    split at h
    · cases h
    · rename_i key s₂ hkey
      rw [scanString_grows t hkey]
      simp only
      split at h
      · rename_i s₃ hcolon
        rw [skip_grows t hcolon]
        simp only
        split at h
        · cases h
        · rename_i x s₄ hx
          have hs₃ : skip s₃ ≠ [] := fun hs₃ => by rw [hs₃, scanValue_nil] at hx; cases hx
          have hmore : s₄ ≠ [] := by
            rintro rfl
            cases h
          rw [skip_append t hs₃, hvalues hle hx (Or.inr hmore)]
          simp only
          split at h
          · rename_i r' hs
            cases h
            rw [skip_grows t hs]
            rfl
          · rename_i s₅ hs
            obtain ⟨⟨ms', r'⟩, hms, heq⟩ := Option.map_eq_some_iff.mp h
            cases heq
            have hs' : skip s₅ ≠ [] := fun hs' => by rw [hs', scanMembers_nil] at hms; cases hms
            rw [skip_grows t hs]
            simp only
            rw [skip_append t hs', hmembers hle hms]
            rfl
          · cases h
      · cases h
  · cases h

/-- The three scanners together, by induction on the fuel. -/
theorem scan_grows (n : Nat) : ValuesGrow t n ∧ ItemsGrow t n ∧ MembersGrow t n := by
  induction n with
  | zero =>
    refine ⟨?_, ?_, ?_⟩
    · intro m s r v _ h
      cases h
    · intro m s r xs _ h
      cases h
    · intro m s r ms _ h
      cases h
  | succ n ih =>
    obtain ⟨hvalues, hitems, hmembers⟩ := ih
    exact ⟨ValuesGrow.succ hitems hmembers, ItemsGrow.succ hvalues hitems,
      MembersGrow.succ hvalues hmembers⟩

/-- **What the reader has read it reads whatever follows.** -/
theorem scanValue_grows {n m : Nat} {v : Json} (hm : n ≤ m) (h : scanValue n s = some (v, r))
    (hr : v.closed = true ∨ r ≠ []) : scanValue m (s ++ t) = some (v, r ++ t) :=
  (scan_grows n).1 hm h hr

end Grows

/-! ## 5. Torn texts -/

theorem dump_head_closed (p : Separators) {v : Json} (hv : v.closed = true) :
    ∃ c s, dump p v = c :: s ∧ isBlank c = false ∧ isNumeric c = false := by
  cases v with
  | null => exact ⟨_, _, dump.eq_1 p, rfl, rfl⟩
  | bool b =>
    cases b with
    | true => exact ⟨_, _, dump.eq_2 p, rfl, rfl⟩
    | false => exact ⟨_, _, dump.eq_3 p, rfl, rfl⟩
  | int n => cases hv
  | str s => exact ⟨_, _, dump.eq_5 p s, rfl, rfl⟩
  | arr items => exact ⟨_, _, dump.eq_6 p items, rfl, rfl⟩
  | obj members => exact ⟨_, _, dump.eq_7 p members, rfl, rfl⟩

/-- Only a character of a number begins a number. -/
theorem scanValue_closed {n : Nat} {c : Char} {s r : List Char} {v : Json}
    (hc : isNumeric c = false) (h : scanValue n (c :: s) = some (v, r)) : v.closed = true := by
  cases n with
  | zero => cases h
  | succ n =>
    rw [scanValue.eq_def] at h
    simp only at h
    split at h
    · obtain ⟨⟨x, r'⟩, -, heq⟩ := Option.map_eq_some_iff.mp h
      cases heq
      rfl
    · split at h
      · cases h
        rfl
      · obtain ⟨⟨x, r'⟩, -, heq⟩ := Option.map_eq_some_iff.mp h
        cases heq
        rfl
    · split at h
      · cases h
        rfl
      · obtain ⟨⟨x, r'⟩, -, heq⟩ := Option.map_eq_some_iff.mp h
        cases heq
        rfl
    · unfold expect at h
      split at h <;> cases h
      rfl
    · unfold expect at h
      split at h <;> cases h
      rfl
    · unfold expect at h
      split at h <;> cases h
      rfl
    · unfold scanNumber at h
      rw [List.takeWhile_cons_of_neg (by simp [hc])] at h
      cases h

/-- **A written value that is cut short is refused.**  Were the piece read, the whole text would be
read to the same end, with the rest of the text left over. -/
theorem load_cut {p : Separators} {v : Json} (hv : v.closed = true) {s t : List Char}
    (h : dump p v = s ++ t) (ht : t ≠ []) : load s = none := by
  cases s with
  | nil => rfl
  | cons c s =>
    obtain ⟨c', u, hcu, hblank, hnumeric⟩ := dump_head_closed p hv
    obtain ⟨rfl, -⟩ := List.cons.inj ((List.cons_append ▸ h).symm.trans hcu)
    unfold load
    rw [skip_cons hblank]
    split
    · rename_i w r hw
      have hgrow := scanValue_grows (t := t) (m := (dump p v).length + 1)
        (by rw [h]; simp only [List.length_append]; omega) hw
        (Or.inl (scanValue_closed hnumeric hw))
      have hwhole := scanValue_dump p v (t := []) (Nat.lt_succ_self _) (Or.inl hv)
      rw [List.append_nil, h] at hwhole
      rw [h, hwhole] at hgrow
      have hrest : r ++ t = [] := (Prod.mk.inj (Option.some.inj hgrow)).2.symm
      exact absurd (List.append_eq_nil_iff.mp hrest).2 ht
    · rfl

/-! ## 6. One line of printable characters -/

theorem hex4_printable (n : Nat) : ∀ c ∈ hex4 n, Printable c := by
  have hall : ∀ i : Fin 16, Printable (i : Nat).digitChar := by
    unfold Printable
    decide
  have hlt : ∀ m : Nat, m % 16 < 16 := fun m => Nat.mod_lt m (by decide)
  intro c hc
  simp only [hex4, List.mem_cons, List.not_mem_nil, or_false] at hc
  rcases hc with rfl | rfl | rfl | rfl <;> exact hall ⟨_, hlt _⟩

theorem escapeCode_printable (n : Nat) : ∀ c ∈ escapeCode n, Printable c := by
  intro c hc
  rcases List.mem_cons.mp hc with rfl | hc
  · exact ⟨by decide, by decide⟩
  · rcases List.mem_cons.mp hc with rfl | hc
    · exact ⟨by decide, by decide⟩
    · exact hex4_printable n c hc

theorem Printable.cons {b : Char} {s : List Char} (hb : Printable b) (hs : ∀ c ∈ s, Printable c) :
    ∀ c ∈ b :: s, Printable c := by
  intro c hc
  rcases List.mem_cons.mp hc with rfl | hc
  · exact hb
  · exact hs c hc

theorem Printable.append {s t : List Char} (hs : ∀ c ∈ s, Printable c)
    (ht : ∀ c ∈ t, Printable c) : ∀ c ∈ s ++ t, Printable c := by
  intro c hc
  exact (List.mem_append.mp hc).elim (hs c) (ht c)

theorem Printable.blanks (k : Nat) : ∀ c ∈ List.replicate k ' ', Printable c := by
  intro c hc
  rw [List.eq_of_mem_replicate hc]
  exact ⟨by decide, by decide⟩

theorem Escapes.printable {a : Char} {s : List Char} (h : Escapes a s) :
    ∀ c ∈ s, Printable c := by
  cases h with
  | short b hb _ =>
    refine Printable.cons ⟨by decide, by decide⟩ (Printable.cons hb ?_)
    exact fun _ hc => (nomatch hc)
  | itself _ _ hp => exact Printable.cons hp fun _ hc => (nomatch hc)
  | code _ => exact escapeCode_printable _
  | halves _ => exact Printable.append (escapeCode_printable _) (escapeCode_printable _)

theorem dumpString_printable (s : String) : ∀ c ∈ dumpString s, Printable c := by
  have hquote : Printable '"' := ⟨by decide, by decide⟩
  refine Printable.cons hquote (Printable.append ?_ ?_)
  · intro c hc
    obtain ⟨a, -, ha⟩ := List.mem_flatMap.mp hc
    exact (escape_escapes a).printable c ha
  · intro c hc
    rw [List.mem_singleton.mp hc]
    exact hquote

theorem dumpInt_printable (n : Int) : ∀ c ∈ dumpInt n, Printable c := by
  have hdigits : ∀ m : Nat, ∀ c ∈ Nat.toDigits 10 m, Printable c := by
    intro m c hc
    have hd := isDigit_of_mem_toDigits hc
    simp only [Char.isDigit, Bool.and_eq_true, decide_eq_true_eq] at hd
    have h1 : (48 : Nat) ≤ c.toNat := hd.1
    have h2 : c.toNat ≤ 57 := hd.2
    exact ⟨by omega, by omega⟩
  cases n with
  | ofNat n => exact hdigits n
  | negSucc n => exact Printable.cons ⟨by decide, by decide⟩ (hdigits _)

theorem comma_printable (p : Separators) : ∀ c ∈ p.comma, Printable c :=
  Printable.cons ⟨by decide, by decide⟩ (Printable.blanks _)

theorem colon_printable (p : Separators) : ∀ c ∈ p.colon, Printable c :=
  Printable.cons ⟨by decide, by decide⟩ (Printable.blanks _)

theorem one_printable {b : Char} (hb : Printable b) : ∀ c ∈ [b], Printable c :=
  Printable.cons hb fun _ hc => nomatch hc

mutual

theorem dump_printable (p : Separators) : ∀ (v : Json), ∀ c ∈ dump p v, Printable c
  | .null => by
    rw [dump]
    simp only [List.forall_mem_cons, List.not_mem_nil, false_imp_iff, implies_true, and_true]
    exact ⟨⟨by decide, by decide⟩, ⟨by decide, by decide⟩, ⟨by decide, by decide⟩,
      ⟨by decide, by decide⟩⟩
  | .bool true => by
    rw [dump]
    simp only [List.forall_mem_cons, List.not_mem_nil, false_imp_iff, implies_true, and_true]
    exact ⟨⟨by decide, by decide⟩, ⟨by decide, by decide⟩, ⟨by decide, by decide⟩,
      ⟨by decide, by decide⟩⟩
  | .bool false => by
    rw [dump]
    simp only [List.forall_mem_cons, List.not_mem_nil, false_imp_iff, implies_true, and_true]
    exact ⟨⟨by decide, by decide⟩, ⟨by decide, by decide⟩, ⟨by decide, by decide⟩,
      ⟨by decide, by decide⟩, ⟨by decide, by decide⟩⟩
  | .int n => by
    rw [dump]
    exact dumpInt_printable n
  | .str s => by
    rw [dump]
    exact dumpString_printable s
  | .arr items => by
    rw [dump]
    exact Printable.cons ⟨by decide, by decide⟩ (dumpItems_printable p items)
  | .obj members => by
    rw [dump]
    exact Printable.cons ⟨by decide, by decide⟩ (dumpMembers_printable p members)

theorem dumpItems_printable (p : Separators) : ∀ (xs : List Json), ∀ c ∈ dumpItems p xs, Printable c
  | [] => by
    rw [dumpItems]
    exact one_printable ⟨by decide, by decide⟩
  | [x] => by
    rw [dumpItems]
    exact Printable.append (dump_printable p x) (one_printable ⟨by decide, by decide⟩)
  | x :: y :: ys => by
    rw [dumpItems]
    exact Printable.append (dump_printable p x)
      (Printable.append (comma_printable p) (dumpItems_printable p (y :: ys)))

theorem dumpMembers_printable (p : Separators) : ∀ (ms : List (String × Json)),
    ∀ c ∈ dumpMembers p ms, Printable c
  | [] => by
    rw [dumpMembers]
    exact one_printable ⟨by decide, by decide⟩
  | [(key, x)] => by
    rw [dumpMembers]
    exact Printable.append (dumpString_printable key) (Printable.append (colon_printable p)
      (Printable.append (dump_printable p x) (one_printable ⟨by decide, by decide⟩)))
  | (key, x) :: m :: ms => by
    rw [dumpMembers]
    exact Printable.append (dumpString_printable key) (Printable.append (colon_printable p)
      (Printable.append (dump_printable p x)
        (Printable.append (comma_printable p) (dumpMembers_printable p (m :: ms)))))

end

end Formats.Json
