import Mathlib.Data.List.Basic

/-! # Base64

`base64.b64decode(s, validate=True)`: groups of four characters of the standard
alphabet, the last one padded with at most two `=`. Unused trailing bits are ignored;
a strict decoder accepts only what the encoder writes.
-/

namespace Py

/-- The six bits of a character of the alphabet. -/
def base64Value (c : Char) : Option ℕ :=
  let n := c.toNat
  if 65 ≤ n ∧ n ≤ 90 then some (n - 65)
  else if 97 ≤ n ∧ n ≤ 122 then some (n - 71)
  else if 48 ≤ n ∧ n ≤ 57 then some (n + 4)
  else if c = '+' then some 62
  else if c = '/' then some 63
  else none

/-- The bytes of an encoding; `none` for `binascii.Error`. -/
def decodeGroups : List Char → Option (List ℕ)
  | [] => some []
  | [a, b, '=', '='] => do
    let x ← base64Value a
    let y ← base64Value b
    return [x * 4 + y / 16]
  | [a, b, c, '='] => do
    let x ← base64Value a
    let y ← base64Value b
    let z ← base64Value c
    return [x * 4 + y / 16, y % 16 * 16 + z / 4]
  | a :: b :: c :: d :: rest => do
    let x ← base64Value a
    let y ← base64Value b
    let z ← base64Value c
    let u ← base64Value d
    let bytes ← decodeGroups rest
    return (x * 4 + y / 16) :: (y % 16 * 16 + z / 4) :: (z % 4 * 64 + u) :: bytes
  | _ => none

def b64decode (s : String) : Option (List ℕ) := decodeGroups s.toList

example : b64decode "aGk=" = some [104, 105] := by decide

/-- The character of six bits. -/
def base64Char (n : ℕ) : Char :=
  if n < 26 then Char.ofNat (n + 65)
  else if n < 52 then Char.ofNat (n + 71)
  else if n < 62 then Char.ofNat (n - 4)
  else if n = 62 then '+'
  else if n = 63 then '/'
  else '='

def encodeGroups : List ℕ → List Char
  | [] => []
  | [a] => [base64Char (a / 4), base64Char (a % 4 * 16), '=', '=']
  | [a, b] => [base64Char (a / 4), base64Char (a % 4 * 16 + b / 16), base64Char (b % 16 * 4), '=']
  | a :: b :: c :: rest =>
    base64Char (a / 4) :: base64Char (a % 4 * 16 + b / 16) :: base64Char (b % 16 * 4 + c / 64) ::
      base64Char (c % 64) :: encodeGroups rest

def b64encode (bytes : List ℕ) : String := String.ofList (encodeGroups bytes)

/-- A decoder that rejects what the encoder would not write. -/
def b64decodeStrict (s : String) : Option (List ℕ) :=
  (b64decode s).filter fun bytes => b64encode bytes = s

example : b64decodeStrict (b64encode [104, 105]) = some [104, 105] := by decide

end Py
