import Vitae.Json.Basic
/-!
# Lexemes of JSON text

`Lexeme.next?` reads one lexeme off the front of a text. It fails when there is none: at the end of
the text, or where no lexeme begins or the one begun goes wrong. What it reads is never empty
(`length_lt_of_next?`).

Two lexemes are well formed without denoting a value: a string with half of a surrogate pair, and a
number beyond every double. They carry `none`, and who needs the value refuses them.
-/

namespace Vitae.Json

/-- One lexeme of JSON text. -/
inductive Lexeme where
  | openBrace
  | closeBrace
  | openBracket
  | closeBracket
  | colon
  | comma
  | null
  /-- One of the words `true` and `false`. -/
  | bool (value : Bool)
  /-- A string, with its characters unless a surrogate stands alone in it. -/
  | string (value : Option String)
  /-- A number, with its value unless that passes every double. -/
  | number (value : Option Number)
  deriving Repr

/-! ### Strings -/

/-- The value of a hexadecimal digit. -/
def hexValue? (c : Char) : Option Nat :=
  if '0' ≤ c ∧ c ≤ '9' then some (c.toNat - '0'.toNat)
  else if 'a' ≤ c ∧ c ≤ 'f' then some (c.toNat - 'a'.toNat + 10)
  else if 'A' ≤ c ∧ c ≤ 'F' then some (c.toNat - 'A'.toNat + 10)
  else none

/-- The code unit written by four hexadecimal digits. -/
def codeUnit? (a b c d : Char) : Option Nat :=
  match hexValue? a, hexValue? b, hexValue? c, hexValue? d with
  | some a, some b, some c, some d => some (((a * 16 + b) * 16 + c) * 16 + d)
  | _, _, _, _ => none

/-- What a backslash and one character stand for. -/
def shortEscape? : Char → Option Nat
  | '\x22' => some 0x22
  | '\\' => some 0x5C
  | '/' => some 0x2F
  | 'b' => some 0x8
  | 'f' => some 0xC
  | 'n' => some 0xA
  | 'r' => some 0xD
  | 't' => some 0x9
  | _ => none

/-- Reads a string after its opening quote up to its closing one: the code points and written code
units, and the text that follows. -/
def scanString (units : List Nat) : List Char → Option (List Nat × List Char)
  | [] => none
  | '\x22' :: rest => some (units.reverse, rest)
  | '\\' :: 'u' :: a :: b :: c :: d :: rest =>
    match codeUnit? a b c d with
    | some unit => scanString (unit :: units) rest
    | none => none
  | '\\' :: c :: rest =>
    match shortEscape? c with
    | some unit => scanString (unit :: units) rest
    | none => none
  | c :: rest => if c.toNat < 0x20 then none else scanString (c.toNat :: units) rest

/-- Joins surrogate pairs; fails where half of a pair stands alone. -/
def joinSurrogates (text : List Char) : List Nat → Option (List Char)
  | [] => some text.reverse
  | [unit] => if 0xD800 ≤ unit ∧ unit ≤ 0xDFFF then none else some (Char.ofNat unit :: text).reverse
  | unit :: next :: rest =>
    if 0xD800 ≤ unit ∧ unit ≤ 0xDBFF then
      if 0xDC00 ≤ next ∧ next ≤ 0xDFFF then
        let point := 0x10000 + (unit - 0xD800) * 0x400 + (next - 0xDC00)
        joinSurrogates (Char.ofNat point :: text) rest
      else none
    else if 0xDC00 ≤ unit ∧ unit ≤ 0xDFFF then none
    else joinSurrogates (Char.ofNat unit :: text) (next :: rest)

/-! ### Numbers -/

/-- A written number: `digits * 10 ^ scale` with a sign. -/
structure WrittenNumber where
  /-- Whether it begins with a minus sign. -/
  negative : Bool
  /-- The leading digits before and after the point, as one number of at most 64 bits. -/
  digits : Nat
  /-- The power of ten of the last one of these digits. -/
  scale : Int
  /-- Whether it has neither point nor exponent, and no digit was left out. -/
  whole : Bool
  deriving Repr

/-- Whether a character is an ASCII digit. -/
def isDigit (c : Char) : Bool := '0' ≤ c && c ≤ '9'

/-- The number written by ASCII digits. -/
def digitsValue (digits : List Char) : Nat :=
  digits.foldl (fun n c => 10 * n + (c.toNat - '0'.toNat)) 0

/-- Writes digits behind a number as long as it stays within 64 bits: the number they make, and how
many of them were left out. -/
def keepDigits (number : Nat) : List Char → Nat × Nat
  | [] => (number, 0)
  | c :: rest =>
    let next := 10 * number + (c.toNat - '0'.toNat)
    if next < Nat.pow 2 64 then keepDigits next rest else (number, rest.length + 1)

/-- Reads a point and the digits after it, if there is a point. -/
def scanFraction : List Char → Option (Option (List Char) × List Char)
  | '.' :: rest =>
    let digits := rest.takeWhile isDigit
    if digits.isEmpty then none else some (some digits, rest.dropWhile isDigit)
  | s => some (none, s)

/-- Reads the digits of an exponent. -/
def scanExponentDigits (negative : Bool) (s : List Char) : Option (Option Int × List Char) :=
  let digits := s.takeWhile isDigit
  if digits.isEmpty then none
  else
    let size : Int := digitsValue digits
    some (some (if negative then Int.neg size else size), s.dropWhile isDigit)

/-- Reads an exponent, if there is one. -/
def scanExponent : List Char → Option (Option Int × List Char)
  | c :: rest =>
    if c = 'e' ∨ c = 'E' then
      match rest with
      | '-' :: digits => scanExponentDigits true digits
      | '+' :: digits => scanExponentDigits false digits
      | digits => scanExponentDigits false digits
    else some (none, c :: rest)
  | [] => some (none, [])

/-- Reads a number after its sign: no leading zero, digits on both sides of a point, and digits in
an exponent. -/
def scanNumber (negative : Bool) (s : List Char) : Option (WrittenNumber × List Char) :=
  let whole := s.takeWhile isDigit
  if whole.isEmpty ∨ (whole.head? = some '0' ∧ 1 < whole.length) then none
  else
    match scanFraction (s.dropWhile isDigit) with
    | none => none
    | some (fraction, afterFraction) =>
      match scanExponent afterFraction with
      | none => none
      | some (exponent, rest) =>
        let decimals := fraction.getD []
        let before := keepDigits 0 whole
        let all := keepDigits before.1 decimals
        some (⟨negative, all.1, exponent.getD 0 + before.2 + all.2 - decimals.length,
          fraction.isNone && exponent.isNone && before.2 == 0⟩, rest)

/-- The value of a written number. Whole numbers are integers from `-2 ^ 63` up to `2 ^ 64 - 1`; a
negative zero, a whole number outside that range and any other number is a double. -/
def WrittenNumber.value? (n : WrittenNumber) : Option Number :=
  let double := (Double.ofDecimal? n.negative n.digits n.scale).map Number.float
  if !n.whole then double
  else if n.negative then
    if 0 < n.digits ∧ n.digits ≤ Nat.pow 2 63 then some (.int (Int.neg n.digits)) else double
  else some (.int n.digits)

/-! ### Lexemes -/

/-- Whether a character may stand between lexemes. -/
def isSpace (c : Char) : Bool := c == ' ' || c == '\t' || c == '\n' || c == '\r'

/-- The text after a word, if the text begins with it. -/
def after? : List Char → List Char → Option (List Char)
  | [], s => some s
  | _ :: _, [] => none
  | c :: word, d :: s => if c = d then after? word s else none

/-- The lexeme that begins with the character `c`, and the text that follows it. -/
def Lexeme.ofFirst? (c : Char) (s : List Char) : Option (Lexeme × List Char) :=
  match c with
  | '{' => some (.openBrace, s)
  | '}' => some (.closeBrace, s)
  | '[' => some (.openBracket, s)
  | ']' => some (.closeBracket, s)
  | ':' => some (.colon, s)
  | ',' => some (.comma, s)
  | 'n' => (after? ['u', 'l', 'l'] s).map (.null, ·)
  | 't' => (after? ['r', 'u', 'e'] s).map (.bool true, ·)
  | 'f' => (after? ['a', 'l', 's', 'e'] s).map (.bool false, ·)
  | '\x22' => (scanString [] s).map fun found =>
    (.string ((joinSurrogates [] found.1).map String.ofList), found.2)
  | '-' => (scanNumber true s).map fun found => (.number found.1.value?, found.2)
  | _ =>
    if isDigit c then
      (scanNumber false (c :: s)).map fun found => (.number found.1.value?, found.2)
    else none

/-- The first lexeme of a text, and the text that follows it. -/
def Lexeme.next? (s : List Char) : Option (Lexeme × List Char) :=
  match s.dropWhile isSpace with
  | [] => none
  | c :: rest => Lexeme.ofFirst? c rest

/-! ### A lexeme is never empty -/

theorem length_le_of_after? {word s r : List Char} (h : after? word s = some r) :
    r.length ≤ s.length := by
  fun_induction after? word s with
  | case1 s => simp_all
  | case2 => simp at h
  | case3 c word s ih => exact Nat.le_succ_of_le (ih h)
  | case4 => simp at h

theorem length_le_of_scanString {units found : List Nat} {s r : List Char}
    (h : scanString units s = some (found, r)) : r.length ≤ s.length := by
  fun_induction scanString units s <;> simp_all <;> omega

theorem length_le_of_scanFraction {s r : List Char} {digits : Option (List Char)}
    (h : scanFraction s = some (digits, r)) : r.length ≤ s.length := by
  unfold scanFraction at h
  split at h
  · rename_i rest
    have := (List.dropWhile_suffix (l := rest) isDigit).length_le
    grind
  · simp_all

theorem length_le_of_scanExponentDigits {negative : Bool} {s r : List Char} {e : Option Int}
    (h : scanExponentDigits negative s = some (e, r)) : r.length ≤ s.length := by
  have := (List.dropWhile_suffix (l := s) isDigit).length_le
  unfold scanExponentDigits at h
  grind

theorem length_le_of_scanExponent {s r : List Char} {e : Option Int}
    (h : scanExponent s = some (e, r)) : r.length ≤ s.length := by
  unfold scanExponent at h
  split at h
  · rename_i c rest
    split at h
    · split at h <;> have := length_le_of_scanExponentDigits h <;> simp_all <;> omega
    · simp_all
  · simp_all

theorem length_le_of_scanNumber {negative : Bool} {s r : List Char} {n : WrittenNumber}
    (h : scanNumber negative s = some (n, r)) : r.length ≤ (s.dropWhile isDigit).length := by
  unfold scanNumber at h
  dsimp only at h
  split at h
  · simp at h
  · split at h
    · simp at h
    · rename_i fraction between hf
      split at h
      · simp at h
      · rename_i exponent rest he
        obtain rfl : rest = r := by simpa using congrArg Prod.snd (Option.some.inj h)
        exact Nat.le_trans (length_le_of_scanExponent he) (length_le_of_scanFraction hf)

theorem length_le_of_ofFirst? {c : Char} {s r : List Char} {l : Lexeme}
    (h : Lexeme.ofFirst? c s = some (l, r)) : r.length ≤ s.length := by
  unfold Lexeme.ofFirst? at h
  split at h <;> try (simp_all; done)
  · obtain ⟨t, ht, heq⟩ := Option.map_eq_some_iff.mp h
    exact (Prod.mk.inj heq).2 ▸ length_le_of_after? ht
  · obtain ⟨t, ht, heq⟩ := Option.map_eq_some_iff.mp h
    exact (Prod.mk.inj heq).2 ▸ length_le_of_after? ht
  · obtain ⟨t, ht, heq⟩ := Option.map_eq_some_iff.mp h
    exact (Prod.mk.inj heq).2 ▸ length_le_of_after? ht
  · obtain ⟨t, ht, heq⟩ := Option.map_eq_some_iff.mp h
    exact (Prod.mk.inj heq).2 ▸ length_le_of_scanString ht
  · obtain ⟨t, ht, heq⟩ := Option.map_eq_some_iff.mp h
    have := (List.dropWhile_suffix (l := s) isDigit).length_le
    exact (Prod.mk.inj heq).2 ▸ Nat.le_trans (length_le_of_scanNumber ht) this
  · split at h
    · rename_i hd
      obtain ⟨t, ht, heq⟩ := Option.map_eq_some_iff.mp h
      have := length_le_of_scanNumber ht
      rw [List.dropWhile_cons_of_pos hd] at this
      have := (List.dropWhile_suffix (l := s) isDigit).length_le
      rw [← (Prod.mk.inj heq).2]
      omega
    · simp at h

/-- Reading a lexeme makes the text shorter. -/
theorem length_lt_of_next? {s r : List Char} {l : Lexeme} (h : Lexeme.next? s = some (l, r)) :
    r.length < s.length := by
  unfold Lexeme.next? at h
  split at h
  · simp at h
  · rename_i c rest hs
    have := (List.dropWhile_suffix (l := s) isSpace).length_le
    have := length_le_of_ofFirst? h
    simp_all
    omega

end Vitae.Json
