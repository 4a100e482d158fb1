import Mathlib.Data.List.Basic
import Mathlib.Tactic.Common

namespace Chic.Base64

def alphabet : List Char :=
  "ABCDEFGHIJKLMNOPQRSTUVWXYZabcdefghijklmnopqrstuvwxyz0123456789+/".toList

def digit (n : ℕ) : Char := alphabet.getD n 'A'

/-- Three bytes become four characters; what is left over is padded. -/
def encode : List (Fin 256) → List Char
  | [] => []
  | [a] => [digit (a / 4), digit (a % 4 * 16), '=', '=']
  | [a, b] => [digit (a / 4), digit (a % 4 * 16 + b / 16), digit (b % 16 * 4), '=']
  | a :: b :: c :: rest =>
    digit (a / 4) :: digit (a % 4 * 16 + b / 16) :: digit (b % 16 * 4 + c / 64) ::
      digit (c % 64) :: encode rest

def value? (c : Char) : Option ℕ := alphabet.idxOf? c

def byte (n : ℕ) : Fin 256 := Fin.ofNat 256 n

/-- A decoder of padded text: padding stands at the end only. -/
def decode : List Char → Option (List (Fin 256))
  | [] => some []
  | x :: y :: z :: w :: rest =>
    (value? x).bind fun x => (value? y).bind fun y =>
      let first := byte (x * 4 + y / 16)
      if w = '=' ∧ rest = [] then
        if z = '=' then some [first]
        else (value? z).map fun z => [first, byte (y % 16 * 16 + z / 4)]
      else
        (value? z).bind fun z => (value? w).bind fun w =>
          (decode rest).map fun bytes =>
            first :: byte (y % 16 * 16 + z / 4) :: byte (z % 4 * 64 + w) :: bytes
  | _ => none

theorem value?_digit {n : ℕ} (h : n < 64) : value? (digit n) = some n := by
  have hall : ∀ m < 64, value? (digit m) = some m := by decide +kernel
  exact hall n h

theorem digit_ne_padding {n : ℕ} (h : n < 64) : digit n ≠ '=' := by
  intro hpad
  have hnone : value? '=' = none := by decide
  rw [← hpad, value?_digit h] at hnone
  cases hnone

theorem byte_eq {a : Fin 256} {n : ℕ} (h : n = a) : byte n = a := by
  subst h
  exact Fin.ofNat_val_eq_self a

/-- Any bytes are read back from their text. -/
theorem decode_encode (bytes : List (Fin 256)) : decode (encode bytes) = some bytes := by
  induction bytes using encode.induct with
  | case1 => rfl
  | case2 a =>
    have hfirst : byte (a / 4 * 4 + a % 4 * 16 / 16) = a := byte_eq (by omega)
    simp only [encode, decode, value?_digit (show (a : ℕ) / 4 < 64 by omega),
      value?_digit (show (a : ℕ) % 4 * 16 < 64 by omega), Option.bind_some, and_self, if_true, hfirst]
  | case3 a b =>
    have hz : (b : ℕ) % 16 * 4 < 64 := by omega
    have hfirst : byte (a / 4 * 4 + (a % 4 * 16 + b / 16) / 16) = a := byte_eq (by omega)
    have hsecond : byte ((a % 4 * 16 + b / 16) % 16 * 16 + b % 16 * 4 / 4) = b := byte_eq (by omega)
    simp only [encode, decode, value?_digit (show (a : ℕ) / 4 < 64 by omega),
      value?_digit (show (a : ℕ) % 4 * 16 + b / 16 < 64 by omega), value?_digit hz,
      digit_ne_padding hz, Option.bind_some, Option.map_some, and_self, if_true, if_false, hfirst,
      hsecond]
  | case4 a b c rest ih =>
    have hw : (c : ℕ) % 64 < 64 := by omega
    have hfirst : byte (a / 4 * 4 + (a % 4 * 16 + b / 16) / 16) = a := byte_eq (by omega)
    have hsecond : byte ((a % 4 * 16 + b / 16) % 16 * 16 + (b % 16 * 4 + c / 64) / 4) = b :=
      byte_eq (by omega)
    have hthird : byte ((b % 16 * 4 + c / 64) % 4 * 64 + c % 64) = c := byte_eq (by omega)
    simp only [encode, decode, value?_digit (show (a : ℕ) / 4 < 64 by omega),
      value?_digit (show (a : ℕ) % 4 * 16 + b / 16 < 64 by omega),
      value?_digit (show (b : ℕ) % 16 * 4 + c / 64 < 64 by omega), value?_digit hw,
      digit_ne_padding hw, ih, Option.bind_some, Option.map_some, false_and, if_false, hfirst,
      hsecond, hthird]

end Chic.Base64
