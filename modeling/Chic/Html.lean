import Mathlib.Data.List.Basic
import Mathlib.Tactic.Common

namespace Chic.Html

/-- What a fragment is read as: its characters and the names of its tags. -/
inductive Token
  | char (c : Char)
  | tag (name : List Char)
  deriving DecidableEq

/-- The characters that are escaped, with the names of their references. -/
def references : List (Char × List Char) :=
  [('&', ['a', 'm', 'p']), ('<', ['l', 't']), ('>', ['g', 't']), ('"', ['q', 'u', 'o', 't']),
    ('\'', ['#', 'x', '2', '7'])]

def escapeChar (c : Char) : List Char :=
  match references.find? (·.1 = c) with
  | some (_, name) => '&' :: (name ++ [';'])
  | none => [c]

def escape (s : List Char) : List Char := s.flatMap escapeChar

def referred? (name : List Char) : Option Char := (references.find? (·.2 = name)).map Prod.fst

inductive Mode
  | text
  | tag (name : List Char)
  | reference (name : List Char)

/-- The tokens of a fragment; an unknown reference or one that does not end, and a tag that does not
end, are an error. -/
def scan : Mode → List Char → Option (List Token)
  | .text, [] => some []
  | _, [] => none
  | .text, c :: rest =>
    if c = '<' then scan (.tag []) rest
    else if c = '&' then scan (.reference []) rest
    else (scan .text rest).map (.char c :: ·)
  | .tag name, c :: rest =>
    if c = '>' then (scan .text rest).map (.tag name :: ·) else scan (.tag (name ++ [c])) rest
  | .reference name, c :: rest =>
    if c = ';' then (referred? name).bind fun x => (scan .text rest).map (.char x :: ·)
    else scan (.reference (name ++ [c])) rest

/-- The stretches of text of a fragment whose only tags are those of bold text, which does not nest:
plain, bold, plain and so on to the end. -/
def stretches : Bool → List Token → Option (List (List Char))
  | bold, [] => if bold then none else some [[]]
  | bold, .char c :: ts => (stretches bold ts).map (List.modifyHead (c :: ·))
  | bold, .tag name :: ts =>
    if name = (if bold then ['/', 'b'] else ['b']) then (stretches (!bold) ts).map ([] :: ·) else none

def read (bold : Bool) (s : List Char) : Option (List (List Char)) :=
  (scan .text s).bind (stretches bold)

section
variable {s s' rest : List Char} {c : Char} {bold : Bool}

theorem scan_char (hopen : c ≠ '<') (href : c ≠ '&') :
    scan .text (c :: rest) = (scan .text rest).map (.char c :: ·) := by
  rw [scan, if_neg hopen, if_neg href]

/-- An escaped character is the character again, and nothing of a tag. -/
theorem scan_escapeChar (c : Char) (rest : List Char) :
    scan .text (escapeChar c ++ rest) = (scan .text rest).map (.char c :: ·) := by
  rw [escapeChar]
  cases hfind : references.find? (·.1 = c) with
  | none =>
    have hne : ∀ r ∈ references, r.1 ≠ c := by simpa using List.find?_eq_none.mp hfind
    exact scan_char (hne ('<', ['l', 't']) (by decide)).symm
      (hne ('&', ['a', 'm', 'p']) (by decide)).symm
  | some r =>
    have hc : r.1 = c := by simpa using List.find?_some hfind
    have hall : ∀ r ∈ references, ∀ name c, r = (c, name) → ∀ rest,
        scan .text ('&' :: (name ++ [';']) ++ rest) = (scan .text rest).map (.char c :: ·) := by
      simp only [references, List.forall_mem_cons, List.not_mem_nil, false_imp_iff, implies_true,
        and_true, Prod.mk.injEq]
      refine ⟨?_, ?_, ?_, ?_, ?_⟩ <;>
        · rintro name c ⟨rfl, rfl⟩ rest
          simp [scan, referred?, references]
    exact hall r (List.mem_of_find?_eq_some hfind) r.2 c (by rw [← hc]) rest

theorem scan_chars (h : '<' ∉ s ∧ '&' ∉ s) (rest : List Char) :
    scan .text (s ++ rest) = (scan .text rest).map (s.map .char ++ ·) := by
  induction s with
  | nil => simp
  | cons c s ih =>
    simp only [List.mem_cons, not_or] at h
    rw [List.cons_append, scan_char (Ne.symm h.1.1) (Ne.symm h.2.1), ih ⟨h.1.2, h.2.2⟩,
      Option.map_map]
    rfl

theorem scan_escape (s rest : List Char) :
    scan .text (escape s ++ rest) = (scan .text rest).map (s.map .char ++ ·) := by
  induction s with
  | nil => simp [escape]
  | cons c s ih =>
    rw [escape, List.flatMap_cons, List.append_assoc, scan_escapeChar, ← escape, ih, Option.map_map]
    rfl

theorem scan_tag {name : List Char} (h : '>' ∉ name) (rest : List Char) :
    scan .text ('<' :: (name ++ '>' :: rest)) = (scan .text rest).map (.tag name :: ·) := by
  have hname : ∀ done, scan (.tag done) (name ++ '>' :: rest) =
      (scan .text rest).map (.tag (done ++ name) :: ·) := by
    induction name with
    | nil => simp [scan]
    | cons c name ih =>
      intro done
      rw [List.mem_cons, not_or] at h
      rw [List.cons_append, scan, if_neg (Ne.symm h.1), ih h.2, List.append_assoc]
      rfl
  rw [scan, if_pos rfl, hname, List.nil_append]

theorem stretches_chars (s : List Char) (ts : List Token) :
    stretches bold (s.map .char ++ ts) = (stretches bold ts).map (List.modifyHead (s ++ ·)) := by
  induction s with
  | nil =>
    have hid : (List.modifyHead fun t : List Char => [] ++ t) = id := by
      funext l
      cases l <;> rfl
    rw [List.map_nil, List.nil_append, hid, Option.map_id, id]
  | cons c s ih =>
    rw [List.map_cons, List.cons_append, stretches, ih, Option.map_map]
    congr 1
    funext l
    cases l <;> rfl

theorem read_of_chars (h : scan .text s = (scan .text rest).map ((s'.map .char) ++ ·)) :
    read bold s = (read bold rest).map (List.modifyHead (s' ++ ·)) := by
  rw [read, h, read]
  cases scan .text rest with
  | none => rfl
  | some ts => exact stretches_chars s' ts

theorem read_chars (h : '<' ∉ s ∧ '&' ∉ s) (rest : List Char) :
    read bold (s ++ rest) = (read bold rest).map (List.modifyHead (s ++ ·)) :=
  read_of_chars (scan_chars h rest)

theorem read_escape (s rest : List Char) :
    read bold (escape s ++ rest) = (read bold rest).map (List.modifyHead (s ++ ·)) :=
  read_of_chars (scan_escape s rest)

theorem read_tag {name : List Char} (h : '>' ∉ name)
    (hname : name = if bold then ['/', 'b'] else ['b']) (rest : List Char) :
    read bold ('<' :: (name ++ '>' :: rest)) = (read (!bold) rest).map ([] :: ·) := by
  rw [read, scan_tag h, read]
  cases scan .text rest with
  | none => rfl
  | some ts => exact if_pos hname

theorem read_nil : read false [] = some [[]] := rfl

end

end Chic.Html
