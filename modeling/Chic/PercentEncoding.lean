import Mathlib.Data.List.Basic
import Mathlib.Tactic.Common

namespace Chic.PercentEncoding

/-- The bytes that stand for themselves as characters. -/
def unreserved : List Char :=
  "ABCDEFGHIJKLMNOPQRSTUVWXYZabcdefghijklmnopqrstuvwxyz0123456789_.-~".toList

def hexDigits : List Char := "0123456789ABCDEF".toList

def hexDigit (n : ℕ) : Char := hexDigits.getD n '0'

/-- The character of a byte below 128. -/
def ascii (b : Fin 256) : Char := Char.ofNat b

def encodeByte (b : Fin 256) : List Char :=
  if ascii b ∈ unreserved then [ascii b] else ['%', hexDigit (b / 16), hexDigit (b % 16)]

def encode (bytes : List (Fin 256)) : List Char := bytes.flatMap encodeByte

def hexValue? (c : Char) : Option ℕ := hexDigits.idxOf? c

/-- A decoder; a percent sign without two digits and a character that is no byte are errors. -/
def decode : List Char → Option (List (Fin 256))
  | [] => some []
  | c :: rest =>
    if c = '%' then
      match rest with
      | x :: y :: rest =>
        (hexValue? x).bind fun x => (hexValue? y).bind fun y =>
          (decode rest).map ((UInt8.ofNat (16 * x + y)).toFin :: ·)
      | _ => none
    else if c.toNat < 256 then (decode rest).map ((UInt8.ofNat c.toNat).toFin :: ·)
    else none

theorem toFin_ofNat (b : Fin 256) : (UInt8.ofNat b).toFin = b :=
  Fin.ofNat_val_eq_self b

theorem hexValue?_hexDigit {n : ℕ} (h : n < 16) : hexValue? (hexDigit n) = some n := by
  have hall : ∀ m < 16, hexValue? (hexDigit m) = some m := by decide +kernel
  exact hall n h

theorem ascii_unreserved (b : Fin 256) (h : ascii b ∈ unreserved) :
    ascii b ≠ '%' ∧ (ascii b).toNat = b := by
  have hall : ∀ b : Fin 256, ascii b ∈ unreserved → ascii b ≠ '%' ∧ (ascii b).toNat = b := by
    decide +kernel
  exact hall b h

theorem decode_cons_of_ne {c : Char} (h : c ≠ '%') (hc : c.toNat < 256) (rest : List Char) :
    decode (c :: rest) = (decode rest).map ((UInt8.ofNat c.toNat).toFin :: ·) := by
  rw [decode.eq_def]
  dsimp only
  rw [if_neg h, if_pos hc]

theorem decode_percent (x y : Char) (rest : List Char) :
    decode ('%' :: x :: y :: rest) = (hexValue? x).bind fun x => (hexValue? y).bind fun y =>
      (decode rest).map ((UInt8.ofNat (16 * x + y)).toFin :: ·) := by
  rw [decode.eq_def]
  dsimp only
  rw [if_pos rfl]

theorem decode_encodeByte (b : Fin 256) (rest : List Char) :
    decode (encodeByte b ++ rest) = (decode rest).map (b :: ·) := by
  rw [encodeByte]
  split_ifs with h
  · obtain ⟨hne, hb⟩ := ascii_unreserved b h
    rw [List.cons_append, List.nil_append, decode_cons_of_ne hne (hb ▸ b.isLt), hb,
      toFin_ofNat]
  · have hbyte : (UInt8.ofNat (16 * (b / 16 : ℕ) + b % 16)).toFin = b := by
      rw [Nat.div_add_mod]
      exact toFin_ofNat b
    simp only [List.cons_append, List.nil_append]
    rw [decode_percent, hexValue?_hexDigit (Nat.div_lt_of_lt_mul b.isLt), hexValue?_hexDigit (Nat.mod_lt _ (by decide)),
      Option.bind_some, Option.bind_some, hbyte]

/-- Any bytes are read back from their text. -/
theorem decode_encode (bytes : List (Fin 256)) : decode (encode bytes) = some bytes := by
  induction bytes with
  | nil => rfl
  | cons b bytes ih => rw [encode, List.flatMap_cons, decode_encodeByte, ← encode, ih]; rfl

/-- The text has only letters, digits, the four other unreserved characters and percent signs. -/
theorem mem_encode {c : Char} {bytes : List (Fin 256)} (h : c ∈ encode bytes) :
    c ∈ '%' :: unreserved := by
  obtain ⟨b, -, hc⟩ := List.mem_flatMap.mp h
  rw [encodeByte] at hc
  have hhex : ∀ n < 16, hexDigit n ∈ unreserved := by decide +kernel
  split_ifs at hc with hb
  · rw [List.mem_singleton.mp hc]
    exact List.mem_cons_of_mem _ hb
  · simp only [List.mem_cons, List.not_mem_nil, or_false] at hc
    rcases hc with rfl | rfl | rfl
    · exact List.mem_cons_self
    · exact List.mem_cons_of_mem _ (hhex _ (by omega))
    · exact List.mem_cons_of_mem _ (hhex _ (Nat.mod_lt _ (by decide)))

end Chic.PercentEncoding
