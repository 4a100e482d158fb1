import Mathlib.Algebra.Group.Nat.Defs
import Mathlib.Data.Int.Notation
import Mathlib.Data.List.Basic
import Mathlib.Tactic.Common

namespace Chic.PyText

/-- The characters that `str.isspace` accepts, which `str.strip` and `str.split` cut at. -/
def isSpace (c : Char) : Bool :=
  let n := c.toNat
  (9 ≤ n && n ≤ 13) || (28 ≤ n && n ≤ 32) || n == 0x85 || n == 0xA0 || n == 0x1680 ||
    (0x2000 ≤ n && n ≤ 0x200A) || n == 0x2028 || n == 0x2029 || n == 0x202F || n == 0x205F ||
    n == 0x3000

def stripChars (cs : List Char) : List Char :=
  ((cs.dropWhile isSpace).reverse.dropWhile isSpace).reverse

def strip (s : String) : String := String.ofList (stripChars s.toList)

/-- The slice `s[:n]`. -/
def take (n : ℕ) (s : String) : String := String.ofList (s.toList.take n)

/-- The words of `str.split()`; `word` is the one being read, backwards. -/
def splitChars : List Char → List Char → List (List Char)
  | word, [] => if word = [] then [] else [word.reverse]
  | word, c :: cs =>
    if isSpace c then
      if word = [] then splitChars [] cs else word.reverse :: splitChars [] cs
    else splitChars (c :: word) cs

/-- `" ".join(s.split())`. -/
def collapse (s : String) : String :=
  String.ofList ((splitChars [] s.toList).intersperse [' ']).flatten

/-- The code points of the zeros of the decimal digits, each followed by its other nine. -/
def decimalZeros : List ℕ :=
  [0x30, 0x660, 0x6F0, 0x7C0, 0x966, 0x9E6, 0xA66, 0xAE6, 0xB66, 0xBE6, 0xC66, 0xCE6, 0xD66,
    0xDE6, 0xE50, 0xED0, 0xF20, 0x1040, 0x1090, 0x17E0, 0x1810, 0x1946, 0x19D0, 0x1A80, 0x1A90,
    0x1B50, 0x1BB0, 0x1C40, 0x1C50, 0xA620, 0xA8D0, 0xA900, 0xA9D0, 0xA9F0, 0xAA50, 0xABF0,
    0xFF10, 0x104A0, 0x10D30, 0x11066, 0x110F0, 0x11136, 0x111D0, 0x112F0, 0x11450, 0x114D0,
    0x11650, 0x116C0, 0x11730, 0x118E0, 0x11950, 0x11C50, 0x11D50, 0x11DA0, 0x11F50, 0x16A60,
    0x16AC0, 0x16B50, 0x1D7CE, 0x1D7D8, 0x1D7E2, 0x1D7EC, 0x1D7F6, 0x1E140, 0x1E2F0, 0x1E4F0,
    0x1E950, 0x1FBF0]

def decimalDigit? (c : Char) : Option ℕ :=
  (decimalZeros.find? fun z => z ≤ c.toNat ∧ c.toNat ≤ z + 9).map (c.toNat - ·)

/-- Decimal digits, single underscores between them. -/
def digits? : List Char → Option (List ℕ)
  | [] => none
  | [c] => (decimalDigit? c).map ([·])
  | c :: '_' :: cs => (decimalDigit? c).bind fun d => (digits? cs).map (d :: ·)
  | c :: cs => (decimalDigit? c).bind fun d => (digits? cs).map (d :: ·)

/-- `int(s)`; `none` is the `ValueError`, which also more than 4300 digits raise. -/
def int? (s : String) : Option ℤ :=
  let read (cs : List Char) : Option ℤ :=
    (digits? cs).bind fun ds =>
      if ds.length ≤ 4300 then some (ds.foldl (fun n d => 10 * n + d) (0 : ℕ) : ℕ) else none
  match stripChars s.toList with
  | '-' :: cs => (read cs).map (- ·)
  | '+' :: cs => read cs
  | cs => read cs

theorem stripChars_eq_self {cs : List Char} (h : ∀ c ∈ cs, isSpace c = false) :
    stripChars cs = cs := by
  have hdrop : ∀ l : List Char, (∀ c ∈ l, isSpace c = false) → l.dropWhile isSpace = l := by
    intro l hl
    cases l with
    | nil => rfl
    | cons c l => rw [List.dropWhile_cons_of_neg (by simp [hl c List.mem_cons_self])]
  rw [stripChars, hdrop cs h, hdrop cs.reverse (by simpa using h), List.reverse_reverse]

section Decimal
variable {c : Char}

theorem toNat_of_isDigit (h : c.isDigit = true) : 48 ≤ c.toNat ∧ c.toNat ≤ 57 := by
  simp only [Char.isDigit, ge_iff_le, Bool.and_eq_true, decide_eq_true_eq,
    UInt32.le_iff_toNat_le] at h
  exact h

theorem isSpace_of_isDigit (h : c.isDigit = true) : isSpace c = false := by
  have := toNat_of_isDigit h
  simp only [isSpace, Bool.or_eq_false_iff, Bool.and_eq_false_iff, decide_eq_false_iff_not,
    beq_eq_false_iff_ne]
  omega

theorem decimalDigit?_of_isDigit (h : c.isDigit = true) :
    decimalDigit? c = some (c.toNat - 48) := by
  have hc := toNat_of_isDigit h
  rw [decimalDigit?, decimalZeros, List.find?_cons_of_pos (by simp; omega)]
  rfl

theorem digits?_of_isDigit {cs : List Char} (hne : cs ≠ []) (h : ∀ c ∈ cs, c.isDigit = true) :
    digits? cs = some (cs.map fun c => c.toNat - 48) := by
  induction cs with
  | nil => exact (hne rfl).elim
  | cons c cs ih =>
    have hc := decimalDigit?_of_isDigit (h c List.mem_cons_self)
    cases cs with
    | nil => simp [digits?, hc]
    | cons c' cs =>
      have hc' := h c' (by simp)
      have hunder : c' ≠ '_' := by
        intro heq
        rw [heq] at hc'
        exact absurd hc' (by decide)
      have ih := ih (by simp) fun c hc => h c (List.mem_cons_of_mem _ hc)
      rw [digits?, hc, ih]
      · rfl
      · simp
      · intro cs' heq
        exact hunder (List.cons.inj heq).1

/-- A decimal numeral that fits callback data is read back. -/
theorem int?_toString {n : ℕ} (h : n < 10 ^ 64) : int? (toString n) = some (n : ℤ) := by
  have hdigit : ∀ c ∈ Nat.toDigits 10 n, c.isDigit = true := fun c hc =>
    Nat.isDigit_of_mem_toDigits (by decide) (by decide) hc
  have hne : Nat.toDigits 10 n ≠ [] := Nat.toDigits_ne_nil
  have hlen : (Nat.toDigits 10 n).length ≤ 4300 :=
    Nat.le_trans ((Nat.length_toDigits_le_iff (by decide) (by decide)).mpr h) (by decide)
  have hstrip : stripChars (toString n).toList = Nat.toDigits 10 n := by
    rw [Nat.toString_eq_ofList_toDigits, String.toList_ofList]
    exact stripChars_eq_self fun c hc => isSpace_of_isDigit (hdigit c hc)
  have hvalue : ((Nat.toDigits 10 n).map fun c => c.toNat - 48).foldl
      (fun n d => 10 * n + d) 0 = n := by
    rw [List.foldl_map]
    exact Nat.ofDigitChars_ten_toDigits
  unfold int?
  rw [hstrip]
  split
  case h_1 cs heq => exact absurd (hdigit '-' (by simp [heq])) (by decide)
  case h_2 cs heq => exact absurd (hdigit '+' (by simp [heq])) (by decide)
  case h_3 =>
    simp only [digits?_of_isDigit hne hdigit, Option.bind_some, List.length_map, hlen, if_true,
      hvalue]

end Decimal

end Chic.PyText
