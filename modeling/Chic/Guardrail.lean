import Mathlib.Data.Finset.Basic
import Mathlib.Data.Int.Log
import Mathlib.Data.Rat.Floor
import Chic.Backtrack
import Chic.PyText
import Chic.Rounding

namespace Chic.Guardrail
open Backtrack PyText

/-- What holds of each character of a list is checked along the list. -/
instance (priority := high) decidableForallMem (p : Char → Prop) [DecidablePred p] (cs : List Char) :
    Decidable (∀ c ∈ cs, p c) := List.decidableBAll p cs

/-- The class `\w`, which the tables of Unicode say; what is relied on is that decimal digits are
of it and these other characters are not. -/
structure WordClass where
  isWord : Char → Bool
  digit : ∀ c, (decimalDigit? c).isSome = true → isWord c = true
  other : ∀ c ∈ [' ', '\u00a0', '\u202f', '-', '−', '['], isWord c = false

/-- `_GROUP` -/
def groupChars : List Char := [' ', '\u00a0', '\u202f']

def isDigit (c : Char) : Bool := (decimalDigit? c).isSome

def isSep (c : Char) : Bool := c ∈ groupChars

def isMinus (c : Char) : Bool := c = '-' ∨ c = '−'

def isPoint (c : Char) : Bool := c = '.' ∨ c = ','

/-- The groups of `_NUMBER_RE`, the fraction with the character before it. -/
@[ext]
structure Figure where
  sign : Option Char
  integer : List Char
  fraction : Option (Char × List Char)
  deriving DecidableEq

/-- `_SEP\d{3}` -/
def groupPattern : Pattern Char (List Char) := do
  let s ← .one isSep
  let digits ← (Pattern.one isDigit).times 3
  return s :: digits

/-- `\d{1,3}(?:_SEP\d{3})+` -/
def groupedPattern : Pattern Char (List Char) := do
  let first ← Pattern.one isDigit
  let head ← (Pattern.one isDigit).upTo 2
  let groups ← groupPattern.many1
  return first :: head ++ groups.flatten

/-- `_NUMBER_RE` -/
def numberPattern (w : WordClass) : Pattern Char Figure := do
  let _ ← .look fun p => p.before.head?.all fun c => !(w.isWord c || isPoint c)
  let sign ← (Pattern.one isMinus).opt
  let integer ← groupedPattern.or (Pattern.one isDigit).many1
  let fraction ← Pattern.opt do
    let point ← .one isPoint
    let digits ← (Pattern.one isDigit).many1
    return (point, digits)
  return ⟨sign, integer, fraction⟩

/-- `\d{m}` for what is not captured. -/
def digits (n : ℕ) : Pattern Char Unit := (fun _ => ()) <$> (Pattern.one isDigit).times n

/-- `\d{1,2}` -/
def oneOrTwo : Pattern Char Unit := do
  let _ ← Pattern.one isDigit
  (fun _ => ()) <$> (Pattern.one isDigit).opt

def fenced : Pattern Char Unit := do
  let _ ← Pattern.lit ['`', '`', '`']
  let _ ← (Pattern.one fun _ => true).manyLazy
  .lit ['`', '`', '`']

def inlineCode : Pattern Char Unit := do
  let _ ← Pattern.lit ['`']
  let _ ← (Pattern.one (· ≠ '`')).many
  .lit ['`']

def url (w : WordClass) : Pattern Char Unit := do
  -- `\b` before the word character that follows
  let _ ← .look fun p => p.before.head?.all fun c => !w.isWord c
  let _ ← Pattern.lit ['h', 't', 't', 'p']
  let _ ← (Pattern.lit ['s']).opt
  let _ ← Pattern.lit [':', '/', '/']
  (fun _ => ()) <$> (Pattern.one fun c => !isSpace c).many1

def isoTime : Pattern Char Unit := do
  let _ ← digits 4
  let _ ← Pattern.lit ['-']
  let _ ← digits 2
  let _ ← Pattern.lit ['-']
  let _ ← digits 2
  (fun _ => ()) <$> Pattern.opt do
    let _ ← Pattern.one fun c => c = ' ' ∨ c = 'T'
    let _ ← digits 2
    let _ ← Pattern.lit [':']
    let _ ← digits 2
    Pattern.opt do
      let _ ← Pattern.lit [':']
      digits 2

def dotDate : Pattern Char Unit := do
  let _ ← oneOrTwo
  let _ ← Pattern.lit ['.']
  let _ ← oneOrTwo
  let _ ← Pattern.lit ['.']
  digits 4

/-- `_STRIP_RE` -/
def stripPattern (w : WordClass) : Pattern Char Unit :=
  fenced.or <| inlineCode.or <| (url w).or <| isoTime.or dotDate

/-- The text without code, links, dates and times. -/
def cleaned (w : WordClass) (text : List Char) : List Char := sub (stripPattern w) ' ' text

/-- A result of the default context of `decimal`, 28 significant digits, a tie to the even one; its
range of exponents is not modelled. -/
def contextRound (x : ℚ) : ℚ :=
  let last : ℚ := 10 ^ (Int.log 10 |x| - 27)
  roundHalfEven (x / last) * last

def digitsValue (ds : List Char) : ℕ := ds.foldl (fun n c => 10 * n + (decimalDigit? c).getD 0) 0

structure ParsedNumber where
  value : ℚ
  text : String
  isPercent : Bool
  grouped : Bool
  fractional : Bool
  deriving DecidableEq

def Figure.value (f : Figure) : ℚ :=
  let whole : ℚ := digitsValue (f.integer.filter isDigit)
  let raw := match f.fraction with
    | some (_, frac) => whole + digitsValue frac / 10 ^ frac.length
    | none => whole
  if f.sign.isSome then contextRound (-raw) else raw

def parsed (m : Match Char Figure) : ParsedNumber where
  value := m.value.value
  text := String.ofList (stripChars m.text)
  isPercent := (m.stop.rest.dropWhile isSep).head? = some '%'
  grouped := m.value.integer.any isSep
  fractional := m.value.fraction.isSome

def extractNumbers (w : WordClass) (text : List Char) : List ParsedNumber :=
  (findIter (numberPattern w) (cleaned w text)).map parsed

structure GroundingReport where
  total : ℕ
  checked : ℕ
  grounded : ℕ
  unexplained : List String

def isSignificant (pn : ParsedNumber) (minMagnitude : ℚ) : Bool :=
  if pn.isPercent ∨ pn.fractional ∨ pn.grouped then true
  -- a bare integer in the range of years
  else if pn.value = ⌊pn.value⌋ ∧ 1900 ≤ pn.value ∧ pn.value ≤ 2099 then false
  else minMagnitude ≤ contextRound |pn.value|

def matchesKnown (n : ℚ) (known : Finset ℚ) (relTol absTol : ℚ) : Bool :=
  ∃ k ∈ known,
    contextRound |contextRound (n - k)| ≤
      max absTol (max (contextRound (contextRound |k| * relTol))
        (contextRound (contextRound |n| * relTol)))

def checkAnswer (w : WordClass) (answer : List Char) (known : Finset ℚ) (minMagnitude : ℚ := 100)
    (relTol : ℚ := 1 / 1000) (absTol : ℚ := 1) : GroundingReport :=
  let numbers := extractNumbers w answer
  let significant := numbers.filter (isSignificant · minMagnitude)
  let unexplained := significant.filter fun pn => !matchesKnown pn.value known relTol absTol
  { total := numbers.length
    checked := significant.length
    grounded := significant.length - unexplained.length
    unexplained := unexplained.map (·.text) }

end Chic.Guardrail
