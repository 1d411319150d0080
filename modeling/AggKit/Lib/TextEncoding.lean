import Mathlib.Data.Fintype.Basic

/-!
# Bytes and numbers as text

The three ways in which data becomes text: bytes as hexadecimal digits, bytes in base 64 and numbers
as decimal digits. A reader takes what the writer wrote back to what it was written from: the digits
are read back one by one, and a group of digits is put together with the weights it was split by.
-/

namespace TextEncoding

open Option

/-! ## Hexadecimal digits -/

/-- The digit of a number modulo 16. -/
def hexChar (n : ℕ) : Char :=
  if n % 16 < 10 then Char.ofNat ('0'.toNat + n % 16) else Char.ofNat ('a'.toNat + (n % 16 - 10))

/-- The value of a digit; capital letters are read as well. -/
def hexDigit (c : Char) : Option ℕ :=
  if '0' ≤ c ∧ c ≤ '9' then some (c.toNat - '0'.toNat)
  else if 'a' ≤ c ∧ c ≤ 'f' then some (c.toNat - 'a'.toNat + 10)
  else if 'A' ≤ c ∧ c ≤ 'F' then some (c.toNat - 'A'.toNat + 10)
  else none

/-- Two digits for each byte, the higher one first. -/
def hexEncode : List UInt8 → List Char
  | [] => []
  | b :: bs => hexChar (b.toNat / 16) :: hexChar b.toNat :: hexEncode bs

/-- The bytes that pairs of digits stand for. -/
def hexDecode : List Char → Option (List UInt8)
  | [] => some []
  | [_] => none
  | hi :: lo :: rest => do
    let h ← hexDigit hi
    let l ← hexDigit lo
    let bs ← hexDecode rest
    return UInt8.ofNat (16 * h + l) :: bs

/-- The bytes that come before the first character that is not a digit. -/
def hexDecodeInit : List Char → List UInt8
  | hi :: lo :: rest =>
    match hexDigit hi, hexDigit lo with
    | some h, some l => UInt8.ofNat (16 * h + l) :: hexDecodeInit rest
    | _, _ => []
  | _ => []

/-- The number that digits stand for. -/
def hexNat (cs : List Char) : Option ℕ :=
  cs.foldlM (fun n c => (hexDigit c).map (16 * n + ·)) 0

theorem hexDigit_hexChar (n : ℕ) : hexDigit (hexChar n) = some (n % 16) := by
  have hall : ∀ d : Fin 16, hexDigit (hexChar d.val) = some d.val := by decide
  have hmod : hexChar n = hexChar (n % 16) := by
    unfold hexChar
    rw [Nat.mod_mod]
  rw [hmod]
  exact hall ⟨n % 16, Nat.mod_lt n (by decide)⟩

theorem hexDecode_hexEncode (bs : List UInt8) : hexDecode (hexEncode bs) = some bs := by
  induction bs with
  | nil => rfl
  | cons b bs ih =>
    -- The two digits are the quotient and the remainder by 16.
    have hlt : b.toNat < 256 := b.toNat_lt
    have hbyte : 16 * (b.toNat / 16 % 16) + b.toNat % 16 = b.toNat := by omega
    rw [hexEncode, hexDecode, hexDigit_hexChar, hexDigit_hexChar, ih]
    calc some (UInt8.ofNat (16 * (b.toNat / 16 % 16) + b.toNat % 16) :: bs)
        = some (UInt8.ofNat b.toNat :: bs) := by rw [hbyte]
      _ = some (b :: bs) := by rw [UInt8.ofNat_toNat]

/-- What is decoded without an error is all decoded before one. -/
theorem hexDecodeInit_eq {cs : List Char} {bs : List UInt8} (h : hexDecode cs = some bs) :
    hexDecodeInit cs = bs := by
  induction cs using hexDecode.induct generalizing bs with
  | case1 => exact Option.some.inj h
  | case2 => cases h
  | case3 hi lo rest ih =>
    obtain ⟨high, hhigh, h⟩ := bind_eq_some_iff.mp h
    obtain ⟨low, hlow, h⟩ := bind_eq_some_iff.mp h
    obtain ⟨bs', hbs, h⟩ := bind_eq_some_iff.mp h
    rw [hexDecodeInit, hhigh, hlow, ← Option.some.inj h, ← ih hbs]

theorem length_hexEncode (bs : List UInt8) : (hexEncode bs).length = 2 * bs.length := by
  induction bs with
  | nil => rfl
  | cons b bs ih =>
    rw [hexEncode, List.length_cons, List.length_cons, ih, List.length_cons]
    omega

/-! ## Base 64 -/

/-- The digit of a number modulo 64. -/
def base64Char (n : ℕ) : Char :=
  if n % 64 < 26 then Char.ofNat ('A'.toNat + n % 64)
  else if n % 64 < 52 then Char.ofNat ('a'.toNat + (n % 64 - 26))
  else if n % 64 < 62 then Char.ofNat ('0'.toNat + (n % 64 - 52))
  else if n % 64 = 62 then '+' else '/'

/-- The value of a digit. -/
def base64Digit (c : Char) : Option ℕ :=
  if 'A' ≤ c ∧ c ≤ 'Z' then some (c.toNat - 'A'.toNat)
  else if 'a' ≤ c ∧ c ≤ 'z' then some (c.toNat - 'a'.toNat + 26)
  else if '0' ≤ c ∧ c ≤ '9' then some (c.toNat - '0'.toNat + 52)
  else if c = '+' then some 62
  else if c = '/' then some 63
  else none

/-- Four digits for three bytes; the last digits of a group that is not full are `=`. -/
def base64Encode : List UInt8 → List Char
  | [] => []
  | [a] => [base64Char (a.toNat / 4), base64Char (a.toNat % 4 * 16), '=', '=']
  | [a, b] =>
    [base64Char (a.toNat / 4), base64Char (a.toNat % 4 * 16 + b.toNat / 16),
      base64Char (b.toNat % 16 * 4), '=']
  | a :: b :: c :: rest =>
    base64Char (a.toNat / 4) :: base64Char (a.toNat % 4 * 16 + b.toNat / 16) ::
      base64Char (b.toNat % 16 * 4 + c.toNat / 64) :: base64Char c.toNat :: base64Encode rest

/-- The bytes of a last group, which is not full. -/
def base64DecodeLast (w x y : Char) : Option (List UInt8) := do
  let p ← base64Digit w
  let q ← base64Digit x
  if y = '=' then return [UInt8.ofNat (p * 4 + q / 16)]
  let r ← base64Digit y
  return [UInt8.ofNat (p * 4 + q / 16), UInt8.ofNat (q % 16 * 16 + r / 4)]

/-- The bytes that groups of digits stand for. -/
def base64Decode : List Char → Option (List UInt8)
  | [] => some []
  | w :: x :: y :: z :: rest =>
    if z = '=' then if rest.isEmpty then base64DecodeLast w x y else none
    else do
      let p ← base64Digit w
      let q ← base64Digit x
      let r ← base64Digit y
      let s ← base64Digit z
      let bs ← base64Decode rest
      return UInt8.ofNat (p * 4 + q / 16) :: UInt8.ofNat (q % 16 * 16 + r / 4) ::
        UInt8.ofNat (r % 4 * 64 + s) :: bs
  | _ => none

theorem base64Digit_base64Char (n : ℕ) : base64Digit (base64Char n) = some (n % 64) := by
  have hall : ∀ d : Fin 64, base64Digit (base64Char d.val) = some d.val := by decide
  have hmod : base64Char n = base64Char (n % 64) := by
    unfold base64Char
    rw [Nat.mod_mod]
  rw [hmod]
  exact hall ⟨n % 64, Nat.mod_lt n (by decide)⟩

theorem base64Char_ne_pad (n : ℕ) : base64Char n ≠ '=' := by
  intro heq
  have hdigit := base64Digit_base64Char n
  rw [heq] at hdigit
  cases hdigit

theorem base64Decode_base64Encode (bs : List UInt8) : base64Decode (base64Encode bs) = some bs := by
  induction bs using base64Encode.induct with
  | case1 => rfl
  | case2 a =>
    have ha : a.toNat < 256 := a.toNat_lt
    have hbyte : a.toNat / 4 % 64 * 4 + a.toNat % 4 * 16 % 64 / 16 = a.toNat := by omega
    rw [base64Encode, base64Decode, if_pos rfl, base64DecodeLast]
    simp only [base64Digit_base64Char, bind_eq_bind, bind_some, hbyte,
      UInt8.ofNat_toNat]
    rfl
  | case3 a b =>
    have ha : a.toNat < 256 := a.toNat_lt
    have hb : b.toNat < 256 := b.toNat_lt
    have hfirst : a.toNat / 4 % 64 * 4 + (a.toNat % 4 * 16 + b.toNat / 16) % 64 / 16 = a.toNat := by
      omega
    have hsecond : (a.toNat % 4 * 16 + b.toNat / 16) % 64 % 16 * 16 + b.toNat % 16 * 4 % 64 / 4 =
        b.toNat := by
      omega
    rw [base64Encode, base64Decode, if_pos rfl, base64DecodeLast]
    simp only [base64Digit_base64Char, bind_eq_bind, bind_some, base64Char_ne_pad,
      if_false, hfirst, hsecond, UInt8.ofNat_toNat]
    rfl
  | case4 a b c rest ih =>
    have ha : a.toNat < 256 := a.toNat_lt
    have hb : b.toNat < 256 := b.toNat_lt
    have hc : c.toNat < 256 := c.toNat_lt
    have hfirst : a.toNat / 4 % 64 * 4 + (a.toNat % 4 * 16 + b.toNat / 16) % 64 / 16 = a.toNat := by
      omega
    have hsecond : (a.toNat % 4 * 16 + b.toNat / 16) % 64 % 16 * 16 +
        (b.toNat % 16 * 4 + c.toNat / 64) % 64 / 4 = b.toNat := by
      omega
    have hthird : (b.toNat % 16 * 4 + c.toNat / 64) % 64 % 4 * 64 + c.toNat % 64 = c.toNat := by
      omega
    rw [base64Encode, base64Decode, if_neg (base64Char_ne_pad _)]
    simp only [base64Digit_base64Char, ih, bind_eq_bind, bind_some, hfirst, hsecond,
      hthird, UInt8.ofNat_toNat]
    rfl

/-! ## Decimal digits -/

/-- The digits of a number. -/
def decimalEncode (n : ℕ) : List Char := Nat.toDigits 10 n

/-- The number that digits stand for. -/
def decimalDecode (cs : List Char) : Option ℕ :=
  if cs ≠ [] ∧ cs.all Char.isDigit then some (Nat.ofDigitChars 10 cs 0) else none

theorem isDigit_of_mem_decimalEncode {n : ℕ} {c : Char} (hc : c ∈ decimalEncode n) :
    c.isDigit = true :=
  Nat.isDigit_of_mem_toDigits (by decide) (by decide) hc

theorem decimalDecode_decimalEncode (n : ℕ) : decimalDecode (decimalEncode n) = some n := by
  have hne : decimalEncode n ≠ [] := Nat.toDigits_ne_nil
  have hall : (decimalEncode n).all Char.isDigit = true :=
    List.all_eq_true.mpr fun _ hc => isDigit_of_mem_decimalEncode hc
  unfold decimalDecode
  rw [if_pos ⟨hne, hall⟩]
  exact congrArg some Nat.ofDigitChars_ten_toDigits

/-- The digits of an integer, with a sign before a negative one. -/
def integerEncode (n : ℤ) : List Char :=
  if n < 0 then '-' :: decimalEncode n.natAbs else decimalEncode n.natAbs

/-- The integer that digits with a sign or without one stand for. -/
def integerDecode : List Char → Option ℤ
  | '-' :: cs => (decimalDecode cs).map fun n : ℕ => -(n : ℤ)
  | '+' :: cs | cs => (decimalDecode cs).map fun n : ℕ => (n : ℤ)

/-- Digits are read as such, since none of them is a sign. -/
theorem integerDecode_of_isDigit {cs : List Char} (h : ∀ c ∈ cs, c.isDigit = true) :
    integerDecode cs = (decimalDecode cs).map fun n : ℕ => (n : ℤ) := by
  unfold integerDecode
  split
  case h_1 => exact absurd (h '-' List.mem_cons_self) (by decide)
  case h_2 => exact absurd (h '+' List.mem_cons_self) (by decide)
  case h_3 => rfl

theorem integerDecode_integerEncode (n : ℤ) : integerDecode (integerEncode n) = some n := by
  unfold integerEncode
  split_ifs with hneg
  · rw [integerDecode, decimalDecode_decimalEncode, map_some]
    congr 1
    omega
  · rw [integerDecode_of_isDigit fun _ hc => isDigit_of_mem_decimalEncode hc,
      decimalDecode_decimalEncode, map_some]
    congr 1
    omega

end TextEncoding
