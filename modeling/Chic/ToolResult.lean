import Mathlib.Data.List.Chain
import Chic.Json
import Chic.NumberFormat
import Chic.StripSpans

namespace Chic.Guardrail
open Backtrack

/-- A number of a tool result: an integer, a float by its `repr`, which is a decimal fraction or has
an exponent, or a float that is no number. -/
inductive Number
  | int (n : ℤ)
  | float (neg : Bool) (whole : ℕ) (fraction : List (Fin 10)) (hne : fraction ≠ [])
  | exponent (neg : Bool) (lead : Fin 10) (fraction : List (Fin 10)) (e : ℤ)
  | nan
  | infinity (neg : Bool)

inductive Value
  | null
  | bool (b : Bool)
  | number (x : Number)
  | str (s : String)
  | arr (items : List Value)
  | obj (fields : List (String × Value))

def fractionValue (ds : List (Fin 10)) : ℚ :=
  ((Nat.ofDigits 10 (ds.reverse.map Fin.val) : ℕ) : ℚ) / 10 ^ ds.length

/-- `dec(obj)`, if it is finite. -/
def Number.value? : Number → Option ℚ
  | .int n => some n
  | .float neg whole fraction _ =>
    let x := whole + fractionValue fraction
    some (if neg then -x else x)
  | .exponent neg lead fraction e =>
    let x := (lead.val + fractionValue fraction) * 10 ^ e
    some (if neg then -x else x)
  | .nan => none
  | .infinity _ => none

mutual
/-- `_add_json_numbers` -/
def addJsonNumbers : Value → Finset ℚ → Finset ℚ
  | .number x, acc =>
    match x.value? with
    | some value => insert value acc
    | none => acc
  | .arr items, acc => addItems items acc
  | .obj fields, acc => addFields fields acc
  | .null, acc => acc
  | .bool _, acc => acc
  | .str _, acc => acc

def addItems : List Value → Finset ℚ → Finset ℚ
  | [], acc => acc
  | v :: items, acc => addItems items (addJsonNumbers v acc)

def addFields : List (String × Value) → Finset ℚ → Finset ℚ
  | [], acc => acc
  | (_, v) :: fields, acc => addFields fields (addJsonNumbers v acc)
end

def addFigures (w : WordClass) (text : List Char) (known : Finset ℚ) : Finset ℚ :=
  (extractNumbers w text).foldl (fun known pn => insert pn.value known) known

/-- `collect_known_numbers`; where `json.loads` raises it gives `none`. -/
def collectKnownNumbers (w : WordClass) (loads : List Char → Option Value)
    (outputs : List (List Char)) (extra : List Char) : Finset ℚ :=
  addFigures w extra <| outputs.foldl (fun known raw =>
    match loads raw with
    | some v => addJsonNumbers v known
    | none => addFigures w raw known) ∅

/-- What a character of a tool result is part of; `mark` is the punctuation and the words of JSON,
`exponent` a number with an exponent, `cut` the number that a cut goes through, `notice` the text
after a cut and `stripped` what stands for a span that is stripped. -/
inductive Origin
  | mark
  | string
  | number
  | exponent
  | cut
  | notice
  | stripped
  deriving DecidableEq

inductive Piece
  | char (c : Char) (o : Origin)
  | number (x : Numeral)

def Piece.tagged : Piece → List (Char × Origin)
  | .char c o => [(c, o)]
  | .number x => x.chars.map fun c => (c, .number)

def tagged (ps : List Piece) : List (Char × Origin) := ps.flatMap Piece.tagged

def charPieces (o : Origin) (cs : List Char) : List Piece := cs.map fun c => .char c o

/-- The escapes of `ensure_ascii=False`. -/
def escapeChar (c : Char) : List Char :=
  match Json.shortEscapes.find? (·.1 = c) with
  | some (_, k) => ['\\', k]
  | none => if c.toNat < 32 then '\\' :: 'u' :: Json.hex4 c.toNat else [c]

def stringPieces (s : String) : List Piece :=
  charPieces .string ('"' :: (s.toList.flatMap escapeChar ++ ['"']))

/-- An integer or a decimal fraction with a point. -/
def Numeral.plain (neg : Bool) (whole : ℕ) (fraction : List (Fin 10)) : Numeral where
  sign := if neg then some '-' else none
  whole := whole
  sep := none
  fraction := if fraction = [] then none else some ('.', fraction)
  sign_minus := by
    intro c h
    split_ifs at h
    rw [← Option.some.inj h]
    rfl
  sep_group := fun _ h => by cases h
  fraction_point := by
    intro x h
    split_ifs at h with hnil
    rw [← Option.some.inj h]
    exact ⟨rfl, hnil⟩

/-- The exponent of a `repr` has at least two digits. -/
def exponentChars (e : ℤ) : List Char :=
  'e' :: (if e < 0 then '-' else '+') ::
    ((if e.natAbs < 10 then ['0'] else []) ++ Nat.toDigits 10 e.natAbs)

def numberPieces : Number → List Piece
  | .int n => [.number (.plain (n < 0) n.natAbs [])]
  | .float neg whole fraction _ => [.number (.plain neg whole fraction)]
  | .exponent neg lead fraction e =>
    let point := if fraction = [] then [] else '.' :: fraction.map fun d : Fin 10 => Nat.digitChar d
    charPieces .exponent
      ((if neg then ['-'] else []) ++ Nat.digitChar lead :: (point ++ exponentChars e))
  | .nan => charPieces .mark ['N', 'a', 'N']
  | .infinity neg =>
    charPieces .mark ((if neg then ['-'] else []) ++ ['I', 'n', 'f', 'i', 'n', 'i', 't', 'y'])

mutual
/-- `json.dumps(obj, ensure_ascii=False)` in pieces. -/
def pieces : Value → List Piece
  | .null => charPieces .mark ['n', 'u', 'l', 'l']
  | .bool true => charPieces .mark ['t', 'r', 'u', 'e']
  | .bool false => charPieces .mark ['f', 'a', 'l', 's', 'e']
  | .number x => numberPieces x
  | .str s => stringPieces s
  | .arr [] => charPieces .mark ['[', ']']
  | .arr (v :: items) => .char '[' .mark :: (pieces v ++ itemPieces items)
  | .obj [] => charPieces .mark ['{', '}']
  | .obj ((k, v) :: fields) =>
    .char '{' .mark ::
      (stringPieces k ++ charPieces .mark [':', ' '] ++ (pieces v ++ fieldPieces fields))

def itemPieces : List Value → List Piece
  | [] => charPieces .mark [']']
  | v :: items => charPieces .mark [',', ' '] ++ (pieces v ++ itemPieces items)

def fieldPieces : List (String × Value) → List Piece
  | [] => charPieces .mark ['}']
  | (k, v) :: fields =>
    charPieces .mark [',', ' '] ++
      (stringPieces k ++ charPieces .mark [':', ' '] ++ (pieces v ++ fieldPieces fields))
end

def dumps (v : Value) : List Char := (tagged (pieces v)).map Prod.fst

def maxToolResultChars : ℕ := 40000

def cutNotice : List Char := "\n…[результат обрезан]".toList

/-- `_truncate` -/
def truncate (s : List Char) (n : ℕ) : List Char := if s.length ≤ n then s else s.take n ++ cutNotice

/-- The text that a tool call gives. -/
def forward (v : Value) : List Char := truncate (dumps v) maxToolResultChars

/-- The first characters; a number that they do not have whole is cut. -/
def cutPieces : ℕ → List Piece → List Piece
  | _, [] => []
  | n, p :: ps =>
    if p.tagged.length ≤ n then p :: cutPieces (n - p.tagged.length) ps
    else charPieces .cut ((p.tagged.take n).map Prod.fst)

def shownPieces (v : Value) : List Piece :=
  cutPieces maxToolResultChars (pieces v) ++ charPieces .notice cutNotice

/-- A result that is cut, with the origin of each character. -/
def shown (v : Value) : List (Char × Origin) := tagged (shownPieces v)

/-- The figures that are found in a text, with the origins of their characters. -/
def figures (w : WordClass) (text : List (Char × Origin)) : List (Match (Char × Origin) Figure) :=
  findIter ((numberPattern w).comap Prod.fst)
    (sub ((stripPattern w).comap Prod.fst) (' ', .stripped) text)

end Chic.Guardrail
