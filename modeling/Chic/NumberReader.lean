import Mathlib.Data.List.Chain
import Chic.Guardrail

namespace Chic.Guardrail
open Backtrack PyText

/-- The groups of three that follow one another, each with its separator. -/
def groupsOf : List Char → List (List Char)
  | s :: x :: y :: z :: rest =>
    if isSep s && (isDigit x && (isDigit y && isDigit z)) then [s, x, y, z] :: groupsOf rest else []
  | _ => []

/-- The integer part at a place: a whole run of digits, and the groups after one to three. -/
def integerAt (l : List Char) : List Char :=
  let run := l.takeWhile isDigit
  if run.length ≤ 3 then run ++ (groupsOf (l.drop run.length)).flatten else run

def fractionAt : List Char → Option (Char × List Char)
  | [] => none
  | c :: rest =>
    if isPoint c ∧ rest.takeWhile isDigit ≠ [] then some (c, rest.takeWhile isDigit) else none

def signAt : List Char → Option Char
  | [] => none
  | c :: _ => if isMinus c then some c else none

/-- The figure that `_NUMBER_RE` takes at a place. -/
def figureAt (l : List Char) : Option Figure :=
  let sign := signAt l
  let body := l.drop sign.toList.length
  if body.takeWhile isDigit = [] then none
  else some ⟨sign, integerAt body, fractionAt (body.drop (integerAt body).length)⟩

def Figure.chars (f : Figure) : List Char :=
  f.sign.toList ++ f.integer ++ f.fraction.elim [] fun x => x.1 :: x.2

section Classes
variable {c : Char}

theorem isDigit_of_isSep (h : isSep c = true) : isDigit c = false := by
  have hall : ∀ c ∈ groupChars, isDigit c = false := by decide +kernel
  exact hall c (of_decide_eq_true h)

theorem isDigit_of_isPoint (h : isPoint c = true) : isDigit c = false := by
  rcases of_decide_eq_true h with rfl | rfl <;> decide +kernel

theorem isDigit_of_isMinus (h : isMinus c = true) : isDigit c = false := by
  rcases of_decide_eq_true h with rfl | rfl <;> decide +kernel

end Classes

section Reader
variable {b l rest head : List Char} {c : Char}

theorem groupPattern_apply (b l : List Char) : groupPattern ⟨b, l⟩ =
    match l with
    | s :: x :: y :: z :: rest =>
      if isSep s && (isDigit x && (isDigit y && isDigit z)) then
        [([s, x, y, z], ⟨z :: y :: x :: s :: b, rest⟩)]
      else []
    | _ => [] := by
  rcases l with _ | ⟨s, _ | ⟨x, _ | ⟨y, _ | ⟨z, rest⟩⟩⟩⟩
  · simp [groupPattern, Pattern.times]
  · cases hs : isSep s <;> simp [groupPattern, Pattern.times, hs]
  · cases hs : isSep s <;> cases hx : isDigit x <;> simp [groupPattern, Pattern.times, hs, hx]
  · cases hs : isSep s <;> cases hx : isDigit x <;> cases hy : isDigit y <;>
      simp [groupPattern, Pattern.times, hs, hx, hy]
  · cases hs : isSep s <;> cases hx : isDigit x <;> cases hy : isDigit y <;> cases hz : isDigit z <;>
      simp [groupPattern, Pattern.times, hs, hx, hy, hz]

theorem groupPattern_eq_nil (h : groupsOf l = []) (b : List Char) : groupPattern ⟨b, l⟩ = [] := by
  rw [groupPattern_apply]
  split
  case h_1 s x y z rest =>
    rw [groupsOf] at h
    split_ifs at h with hgroup
    exact if_neg hgroup
  case h_2 => rfl

theorem exists_group (h : groupsOf l ≠ []) : ∃ s x y z rest, l = s :: x :: y :: z :: rest ∧
    (isSep s && (isDigit x && (isDigit y && isDigit z))) = true ∧
      groupsOf l = [s, x, y, z] :: groupsOf rest := by
  unfold groupsOf at h
  split at h
  case h_1 s x y z rest =>
    split_ifs at h with hgroup
    · exact ⟨s, x, y, z, rest, rfl, hgroup, by rw [groupsOf, if_pos hgroup]⟩
    · exact absurd rfl h
  case h_2 => exact absurd rfl h

theorem repeated_group {n : ℕ} (hn : l.length ≤ n) (b : List Char) :
    repeated groupPattern n ⟨b, l⟩ = (groupsOf l,
      ⟨(groupsOf l).flatten.reverse ++ b, l.drop (groupsOf l).flatten.length⟩) := by
  induction n generalizing l b with
  | zero =>
    rw [List.length_eq_zero_iff.mp (Nat.le_zero.mp hn)]
    rfl
  | succ n ih =>
    rw [repeated]
    by_cases hnil : groupsOf l = []
    · rw [Pattern.first, groupPattern_eq_nil hnil, hnil]
      rfl
    · obtain ⟨s, x, y, z, rest, rfl, hgroup, hgroups⟩ := exists_group hnil
      simp only [List.length_cons] at hn
      rw [Pattern.first, groupPattern_apply, hgroups]
      dsimp only
      rw [if_pos hgroup, List.head?_cons]
      dsimp only
      rw [ih (by omega), List.flatten_cons, List.reverse_append, List.append_assoc]
      rfl

theorem first_groups (l b : List Char) : groupPattern.many1.first ⟨b, l⟩ =
    if groupsOf l = [] then none
    else some (groupsOf l,
      ⟨(groupsOf l).flatten.reverse ++ b, l.drop (groupsOf l).flatten.length⟩) := by
  rw [first_many1]
  by_cases hnil : groupsOf l = []
  · rw [Pattern.first, groupPattern_eq_nil hnil, if_pos hnil]
    rfl
  · rw [if_neg hnil]
    obtain ⟨s, x, y, z, rest, rfl, hgroup, hgroups⟩ := exists_group hnil
    rw [Pattern.first, groupPattern_apply, hgroups]
    dsimp only
    rw [if_pos hgroup, List.head?_cons, Option.map_some]
    dsimp only
    rw [repeated_group le_rfl, List.flatten_cons, List.reverse_append, List.append_assoc]
    rfl

theorem groupsOf_digit (h : isDigit c = true) : groupsOf (c :: rest) = [] := by
  by_contra hne
  obtain ⟨s, x, y, z, rest', heq, hgroup, -⟩ := exists_group hne
  obtain ⟨rfl, -⟩ := List.cons.inj heq
  rw [Bool.and_eq_true] at hgroup
  rw [isDigit_of_isSep hgroup.1] at h
  cases h

def groupsAfter (head : List Char) : Pattern Char (List Char) := do
  let groups ← groupPattern.many1
  return head ++ groups.flatten

theorem first_groupsAfter (head rest b : List Char) : (groupsAfter head).first ⟨b, rest⟩ =
    if groupsOf rest = [] then none
    else some (head ++ (groupsOf rest).flatten,
      ⟨(groupsOf rest).flatten.reverse ++ b, rest.drop (groupsOf rest).flatten.length⟩) := by
  rw [groupsAfter, first_bind fun x _ => List.cons_ne_nil _ _, first_groups]
  split_ifs
  · rfl
  · rfl

theorem groupsAfter_digit (h : isDigit c = true) (head rest b : List Char) :
    groupsAfter head ⟨b, c :: rest⟩ = [] := by
  have hfirst := first_groupsAfter head (c :: rest) b
  rw [if_pos (groupsOf_digit h)] at hfirst
  exact List.head?_eq_none_iff.mp hfirst

theorem upTo_stop (h : ∀ c, rest.head? = some c → isDigit c = false) (n : ℕ) (b : List Char) :
    Pattern.upTo n (.one isDigit) ⟨b, rest⟩ = [([], ⟨b, rest⟩)] := by
  cases n with
  | zero => rfl
  | succ n =>
    cases rest with
    | nil => rfl
    | cons c rest => simp [Pattern.upTo, h c rfl]

theorem grouped_cons {d : Char} (hd : isDigit d = true) (l b : List Char) :
    groupedPattern ⟨b, d :: l⟩ =
      (Pattern.upTo 2 (.one isDigit) ⟨d :: b, l⟩).flatMap fun x => groupsAfter (d :: x.1) x.2 := by
  rw [groupedPattern, bind_apply, one_cons, if_pos hd, List.flatMap_singleton]
  rfl

/-- Only the longest head of one to three digits can be followed by a group. -/
theorem grouped_apply (hdigits : ∀ c ∈ head, isDigit c = true) (hpos : 1 ≤ head.length)
    (hlen : head.length ≤ 3) (hnext : head.length = 3 ∨ ∀ c, rest.head? = some c → isDigit c = false)
    (b : List Char) :
    groupedPattern ⟨b, head ++ rest⟩ = groupsAfter head ⟨head.reverse ++ b, rest⟩ := by
  have hstop : ∀ n b, head.length ≠ 3 →
      Pattern.upTo n (.one isDigit) ⟨b, rest⟩ = [([], ⟨b, rest⟩)] :=
    fun n b hne => upTo_stop (hnext.resolve_left hne) n b
  -- one, two or three digits; the shorter heads are followed by a digit, so by no group
  rcases head with _ | ⟨d, _ | ⟨x, _ | ⟨y, _ | ⟨z, head⟩⟩⟩⟩
  · exact absurd hpos (by decide)
  · have hd := hdigits d List.mem_cons_self
    rw [List.singleton_append, grouped_cons hd, hstop 2 _ (by simp), List.flatMap_singleton]
    rfl
  · obtain ⟨hd, hx⟩ : isDigit d = true ∧ isDigit x = true := by simpa using hdigits
    have hup : Pattern.upTo 2 (.one isDigit) ⟨d :: b, x :: rest⟩ =
        [([x], ⟨x :: d :: b, rest⟩), ([], ⟨d :: b, x :: rest⟩)] := by
      rw [Pattern.upTo, or_apply, bind_apply, one_cons, if_pos hx, List.flatMap_singleton, bind_apply,
        hstop 1 _ (by simp), List.flatMap_singleton]
      rfl
    rw [List.cons_append, grouped_cons hd, List.singleton_append, hup, List.flatMap_cons,
      List.flatMap_singleton, groupsAfter_digit hx, List.append_nil]
    rfl
  · obtain ⟨hd, hx, hy⟩ : isDigit d = true ∧ isDigit x = true ∧ isDigit y = true := by
      simpa using hdigits
    have hup : Pattern.upTo 2 (.one isDigit) ⟨d :: b, x :: y :: rest⟩ =
        [([x, y], ⟨y :: x :: d :: b, rest⟩), ([x], ⟨x :: d :: b, y :: rest⟩),
          ([], ⟨d :: b, x :: y :: rest⟩)] := by
      simp [Pattern.upTo, hx, hy]
    rw [List.cons_append, grouped_cons hd, List.cons_append, List.singleton_append, hup,
      List.flatMap_cons, List.flatMap_cons, List.flatMap_singleton, groupsAfter_digit hx,
      groupsAfter_digit hy, List.append_nil, List.append_nil]
    rfl
  · simp only [List.length_cons] at hlen
    omega

theorem takeWhile_run {run : List Char} (hrun : ∀ c ∈ run, isDigit c = true)
    (hnext : ∀ c, rest.head? = some c → isDigit c = false) :
    (run ++ rest).takeWhile isDigit = run ∧ (run ++ rest).dropWhile isDigit = rest := by
  rw [List.takeWhile_append_of_pos hrun, List.dropWhile_append_of_pos hrun]
  cases rest with
  | nil => exact ⟨List.append_nil run, rfl⟩
  | cons c rest =>
    have hc : ¬isDigit c = true := by simp [hnext c rfl]
    rw [List.takeWhile_cons_of_neg hc, List.dropWhile_cons_of_neg hc]
    exact ⟨List.append_nil run, rfl⟩

theorem exists_run (l : List Char) : ∃ run rest, l = run ++ rest ∧
    (∀ c ∈ run, isDigit c = true) ∧ ∀ c, rest.head? = some c → isDigit c = false := by
  refine ⟨l.takeWhile isDigit, l.dropWhile isDigit, List.takeWhile_append_dropWhile.symm,
    List.all_eq_true.mp List.all_takeWhile, fun c hc => ?_⟩
  have h := List.head?_dropWhile_not isDigit l
  rwa [hc] at h

theorem integerAt_run {run : List Char} (hrun : ∀ c ∈ run, isDigit c = true)
    (hnext : ∀ c, rest.head? = some c → isDigit c = false) :
    integerAt (run ++ rest) = if run.length ≤ 3 then run ++ (groupsOf rest).flatten else run := by
  unfold integerAt
  simp only [(takeWhile_run hrun hnext).1, List.drop_left]

theorem first_integer (b l : List Char) :
    (groupedPattern.or (Pattern.one isDigit).many1).first ⟨b, l⟩ =
      if l.takeWhile isDigit = [] then none
      else some (integerAt l, ⟨(integerAt l).reverse ++ b, l.drop (integerAt l).length⟩) := by
  obtain ⟨run, rest, rfl, hrun, hnext⟩ := exists_run l
  obtain ⟨htake, hdrop⟩ := takeWhile_run hrun hnext
  rw [first_or, first_many1_one, htake, hdrop, integerAt_run hrun hnext]
  by_cases hnil : run = []
  · subst hnil
    have hfail : groupedPattern ⟨b, [] ++ rest⟩ = [] := by
      cases rest with
      | nil => rfl
      | cons c rest => simp [groupedPattern, hnext c rfl]
    rw [Pattern.first, hfail]
    rfl
  have hpos : 1 ≤ run.length := List.length_pos_iff.mpr hnil
  rw [if_neg hnil, if_neg hnil]
  -- a run of more than three digits has no groups, so the other alternative takes it whole
  rcases Nat.lt_or_ge 3 run.length with hlong | hshort
  · obtain ⟨d, tail, htail⟩ : ∃ d tail, run.drop 3 = d :: tail :=
      List.exists_cons_of_ne_nil (by
        rw [ne_eq, List.drop_eq_nil_iff]
        omega)
    have hsplit : run ++ rest = run.take 3 ++ (d :: tail ++ rest) := by
      rw [← htail, ← List.append_assoc, List.take_append_drop]
    have hd : isDigit d = true := hrun d (List.mem_of_mem_drop (htail ▸ List.mem_cons_self))
    have hlen : (run.take 3).length = 3 := by
      rw [List.length_take]
      omega
    have hfail : groupedPattern ⟨b, run ++ rest⟩ = [] := by
      rw [hsplit, grouped_apply (fun c hc => hrun c (List.mem_of_mem_take hc)) (by omega) (by omega)
        (.inl hlen), List.cons_append, groupsAfter_digit hd]
    rw [Pattern.first, hfail, if_neg (by omega), List.drop_left]
    rfl
  · rw [Pattern.first, grouped_apply hrun hpos hshort (.inr hnext), ← Pattern.first,
      first_groupsAfter, if_pos hshort]
    by_cases hgroups : groupsOf rest = []
    · rw [if_pos hgroups, hgroups, List.flatten_nil, List.append_nil, List.drop_left]
      rfl
    · rw [if_neg hgroups, List.length_append, ← List.drop_drop, List.drop_left, List.reverse_append,
        List.append_assoc]
      rfl

/-- `(?:[.,](\d+))?` -/
def fractionPattern : Pattern Char (Option (Char × List Char)) := Pattern.opt do
  let point ← .one isPoint
  let digits ← (Pattern.one isDigit).many1
  return (point, digits)

def fractionChars (x : Option (Char × List Char)) : List Char := x.elim [] fun x => x.1 :: x.2

theorem first_fraction (b l : List Char) : fractionPattern.first ⟨b, l⟩ = some (fractionAt l,
    ⟨(fractionChars (fractionAt l)).reverse ++ b, l.drop (fractionChars (fractionAt l)).length⟩) := by
  rw [fractionPattern, first_opt]
  cases l with
  | nil => rfl
  | cons c l =>
    have hread : (do
        let point ← .one isPoint
        let digits ← (Pattern.one isDigit).many1
        return (point, digits) : Pattern Char (Char × List Char)).first ⟨b, c :: l⟩ =
        if isPoint c then ((Pattern.one isDigit).many1.first ⟨c :: b, l⟩).map fun x => ((c, x.1), x.2)
        else none := by
      unfold Pattern.first
      rw [bind_apply, one_cons]
      split_ifs
      · rw [List.flatMap_singleton]
        exact (first_bind fun x _ => List.cons_ne_nil _ _).trans Option.map_eq_bind.symm
      · rfl
    rw [hread, first_many1_one, fractionAt]
    by_cases hc : isPoint c = true
    · by_cases hnil : l.takeWhile isDigit = []
      · simp [hc, hnil, fractionChars]
      · obtain ⟨run, rest, rfl, hrun, hnext⟩ := exists_run l
        obtain ⟨htake, hdrop⟩ := takeWhile_run hrun hnext
        rw [htake] at hnil
        rw [htake, hdrop, if_pos hc, if_neg hnil, if_pos ⟨hc, hnil⟩]
        simp [fractionChars]
    · simp [hc, fractionChars]

def unsigned (sign : Option Char) : Pattern Char Figure := do
  let integer ← groupedPattern.or (Pattern.one isDigit).many1
  let fraction ← fractionPattern
  return ⟨sign, integer, fraction⟩

theorem first_unsigned (sign : Option Char) (b l : List Char) : (unsigned sign).first ⟨b, l⟩ =
    if l.takeWhile isDigit = [] then none
    else
      let integer := integerAt l
      let fraction := fractionAt (l.drop integer.length)
      some (⟨sign, integer, fraction⟩, ⟨(integer ++ fractionChars fraction).reverse ++ b,
        l.drop (integer ++ fractionChars fraction).length⟩) := by
  have htail : ∀ integer q, (do
      let fraction ← fractionPattern
      return ⟨sign, integer, fraction⟩ : Pattern Char Figure).first q =
      (fractionPattern.first q).map fun x => (⟨sign, integer, x.1⟩, x.2) := fun integer q =>
    (first_bind fun x _ => List.cons_ne_nil _ _).trans Option.map_eq_bind.symm
  rw [unsigned, first_bind, first_integer]
  · split_ifs
    · rfl
    · rw [Option.bind_some, htail, first_fraction, Option.map_some]
      dsimp only
      rw [List.reverse_append, List.append_assoc, List.length_append, ← List.drop_drop]
  · rintro ⟨integer, b', l'⟩ _ hnil
    have hsome := htail integer ⟨b', l'⟩
    rw [Pattern.first, hnil, first_fraction] at hsome
    cases hsome

theorem unsigned_eq_nil (sign : Option Char) (h : l.takeWhile isDigit = []) (b : List Char) :
    unsigned sign ⟨b, l⟩ = [] := by
  have hfirst := first_unsigned sign b l
  rw [if_pos h] at hfirst
  exact List.head?_eq_none_iff.mp hfirst

def boundary (w : WordClass) (before : List Char) : Bool :=
  before.head?.all fun c => !(w.isWord c || isPoint c)

/-- The regular expression takes the figure at the place, if a number may start there. -/
theorem first_number (w : WordClass) (b l : List Char) : (numberPattern w).first ⟨b, l⟩ =
    if boundary w b then
      (figureAt l).map fun f => (f, ⟨f.chars.reverse ++ b, l.drop f.chars.length⟩)
    else none := by
  have hpattern : numberPattern w = (Pattern.look fun p => boundary w p.before) >>= fun _ =>
      (Pattern.one isMinus).opt >>= unsigned := rfl
  rw [hpattern, first_look_bind]
  dsimp only
  congr 1
  unfold Pattern.first figureAt
  rw [bind_apply, opt_apply]
  cases l with
  | nil => rfl
  | cons c l =>
    rw [one_cons]
    -- with a minus only the signed reading goes on, as no digit stands there
    by_cases hc : isMinus c = true
    · have hnone : (c :: l).takeWhile isDigit = [] :=
        List.takeWhile_cons_of_neg (by simp [isDigit_of_isMinus hc])
      rw [if_pos hc, List.map_singleton, List.flatMap_append, List.flatMap_singleton,
        List.flatMap_singleton, unsigned_eq_nil none hnone, List.append_nil, ← Pattern.first,
        first_unsigned, show signAt (c :: l) = some c by simp [signAt, hc]]
      simp only [Option.toList_some, List.length_singleton, List.drop_one, List.tail_cons]
      split_ifs
      · rfl
      · simp only [Option.map_some, Figure.chars, Option.toList_some,
          List.cons_append, List.reverse_cons, List.append_assoc, List.length_cons,
          List.drop_succ_cons]
        rfl
    · rw [if_neg hc, List.map_nil, List.nil_append, List.flatMap_singleton, ← Pattern.first,
        first_unsigned, show signAt (c :: l) = none by simp [signAt, hc]]
      simp only [Option.toList_none, List.length_nil, List.drop_zero]
      split_ifs
      · rfl
      · simp only [Option.map_some, Figure.chars, Option.toList_none, List.nil_append]
        rfl

end Reader

/-- How a figure is read off a text: a sign, a run of digits, the groups after it and what is
left. -/
structure Shape (l : List Char) (f : Figure) (run : List Char) (groups : List (List Char))
    (rest : List Char) : Prop where
  text : l = f.sign.toList ++ (run ++ (groups.flatten ++ rest))
  sign : ∀ c, f.sign = some c → isMinus c = true
  run_ne : run ≠ []
  run_digit : ∀ c ∈ run, isDigit c = true
  next : ∀ c, (groups.flatten ++ rest).head? = some c → isDigit c = false
  groups_eq : groups = if run.length ≤ 3 then groupsOf (groups.flatten ++ rest) else []
  integer : f.integer = run ++ groups.flatten
  fraction : f.fraction = fractionAt rest

section Shapes
variable {l run rest g : List Char} {groups : List (List Char)} {f : Figure} {c : Char}

theorem exists_append_groups (l : List Char) : ∃ rest, l = (groupsOf l).flatten ++ rest := by
  induction hn : l.length using Nat.strongRecOn generalizing l with
  | ind n ih =>
    by_cases hnil : groupsOf l = []
    · exact ⟨l, by rw [hnil]; rfl⟩
    · obtain ⟨s, x, y, z, rest, rfl, -, hgroups⟩ := exists_group hnil
      simp only [List.length_cons] at hn
      obtain ⟨rest', hrest'⟩ := ih rest.length (by omega) rest rfl
      refine ⟨rest', ?_⟩
      rw [hgroups, List.flatten_cons, List.append_assoc, ← hrest']
      rfl

theorem signAt_append (l : List Char) : l = (signAt l).toList ++ l.drop (signAt l).toList.length := by
  cases l with
  | nil => rfl
  | cons c l => cases hc : isMinus c <;> simp [signAt, hc]

theorem signAt_eq (hsign : ∀ c, f.sign = some c → isMinus c = true) (hrun : run ≠ [])
    (hdigit : ∀ c ∈ run, isDigit c = true) (rest : List Char) :
    signAt (f.sign.toList ++ (run ++ rest)) = f.sign := by
  cases hf : f.sign with
  | some c => simp [signAt, hsign c hf]
  | none =>
    obtain ⟨d, run, rfl⟩ := List.exists_cons_of_ne_nil hrun
    have hminus : isMinus d = false := by
      by_contra h
      rw [Bool.not_eq_false] at h
      exact absurd (hdigit d List.mem_cons_self) (by simp [isDigit_of_isMinus h])
    simp [signAt, hminus]

theorem Shape.figureAt (h : Shape l f run groups rest) : figureAt l = some f := by
  have hintegerAt : integerAt (run ++ (groups.flatten ++ rest)) = run ++ groups.flatten := by
    have hgroups := h.groups_eq
    rw [integerAt_run h.run_digit h.next]
    split_ifs at hgroups ⊢
    · rw [← hgroups]
    · rw [hgroups, List.flatten_nil, List.append_nil]
  unfold Guardrail.figureAt
  simp only [h.text, signAt_eq h.sign h.run_ne h.run_digit, List.drop_left,
    (takeWhile_run h.run_digit h.next).1, if_neg h.run_ne, hintegerAt]
  rw [← List.append_assoc, List.drop_left, ← h.integer, ← h.fraction]

theorem exists_shape (h : figureAt l = some f) : ∃ run groups rest, Shape l f run groups rest := by
  unfold figureAt at h
  dsimp only at h
  split_ifs at h with hnil
  obtain ⟨run, after, hbody, hdigit, hnext⟩ := exists_run (l.drop (signAt l).toList.length)
  have htext := signAt_append l
  rw [hbody] at htext h hnil
  rw [(takeWhile_run hdigit hnext).1] at hnil
  rw [integerAt_run hdigit hnext] at h
  obtain ⟨groups, hgroups⟩ : ∃ groups, groups = if run.length ≤ 3 then groupsOf after else [] :=
    ⟨_, rfl⟩
  have hinteger : (if run.length ≤ 3 then run ++ (groupsOf after).flatten else run) =
      run ++ groups.flatten := by
    rw [hgroups]
    split_ifs
    · rfl
    · exact (List.append_nil run).symm
  obtain ⟨rest, hrest⟩ : ∃ rest, after = groups.flatten ++ rest := by
    rw [hgroups]
    split_ifs
    · exact exists_append_groups after
    · exact ⟨after, rfl⟩
  rw [hinteger, hrest, ← List.append_assoc, List.drop_left] at h
  obtain rfl := Option.some.inj h
  rw [hrest] at htext hnext hgroups
  refine ⟨run, groups, rest, htext, fun c hc => ?_, hnil, hdigit, hnext, hgroups, rfl, rfl⟩
  cases l with
  | nil => cases hc
  | cons d l =>
    rw [signAt] at hc
    split_ifs at hc with hd
    exact Option.some.inj hc ▸ hd

theorem fractionAt_append (l : List Char) :
    l = fractionChars (fractionAt l) ++ l.drop (fractionChars (fractionAt l)).length := by
  cases l with
  | nil => rfl
  | cons c l =>
    rw [fractionAt]
    split_ifs with h
    · obtain ⟨run, rest, rfl, hrun, hnext⟩ := exists_run l
      rw [(takeWhile_run hrun hnext).1]
      simp [fractionChars]
    · rfl

/-- The digits of a fraction are all that stand there. -/
theorem isDigit_after_fraction {x : Char × List Char} (h : fractionAt l = some x)
    (hc : (l.drop (fractionChars (some x)).length).head? = some c) : isDigit c = false := by
  cases l with
  | nil => cases h
  | cons d l =>
    rw [fractionAt] at h
    split_ifs at h
    obtain rfl := Option.some.inj h
    obtain ⟨run, rest, rfl, hrun, hnext⟩ := exists_run l
    rw [fractionChars, Option.elim_some, (takeWhile_run hrun hnext).1, List.length_cons,
      List.drop_succ_cons, List.drop_left] at hc
    exact hnext c hc

/-- The characters of the figure, and what is left after it. -/
theorem Shape.chars_eq (h : Shape l f run groups rest) :
    f.chars = f.sign.toList ++ (run ++ (groups.flatten ++ fractionChars (fractionAt rest))) ∧
      l = f.chars ++ rest.drop (fractionChars (fractionAt rest)).length := by
  have hchars : f.chars =
      f.sign.toList ++ (run ++ (groups.flatten ++ fractionChars (fractionAt rest))) := by
    rw [Figure.chars, h.integer, h.fraction, List.append_assoc, List.append_assoc]
    rfl
  refine ⟨hchars, ?_⟩
  rw [hchars, h.text]
  simp only [List.append_assoc]
  rw [← fractionAt_append]

theorem chars_append_drop (h : figureAt l = some f) : l = f.chars ++ l.drop f.chars.length := by
  obtain ⟨run, groups, rest, hshape⟩ := exists_shape h
  obtain ⟨-, hl⟩ := hshape.chars_eq
  rw [hl, List.drop_left]

/-- What may follow a character inside a figure. -/
def Follows (c d : Char) : Prop :=
  if isDigit c then isDigit d = true ∨ isSep d = true ∨ isPoint d = true else isDigit d = true

theorem chain_digits {ds : List Char} (h : ∀ c ∈ ds, isDigit c = true) : ds.IsChain Follows := by
  induction ds with
  | nil => exact .nil
  | cons c ds ih =>
    refine List.isChain_cons.mpr ⟨fun d hd => ?_, ih fun c hc => h c (List.mem_cons_of_mem _ hc)⟩
    rw [Follows, if_pos (h c List.mem_cons_self)]
    exact .inl (h d (List.mem_cons_of_mem _ (List.mem_of_mem_head? hd)))

/-- A part that a separator or a point begins, after digits. -/
theorem chain_append {u ds : List Char} {s : Char} (hu : u.IsChain Follows)
    (hlast : ∀ c, u.getLast? = some c → isDigit c = true) (hs : isSep s = true ∨ isPoint s = true)
    (hds : ∀ c ∈ ds, isDigit c = true) : (u ++ s :: ds).IsChain Follows := by
  have hdigit : isDigit s = false := hs.elim isDigit_of_isSep isDigit_of_isPoint
  refine List.isChain_append.mpr ⟨hu, List.isChain_cons.mpr ⟨fun d hd => ?_, chain_digits hds⟩, ?_⟩
  · rw [Follows, hdigit, if_neg Bool.false_ne_true]
    exact hds d (List.mem_of_mem_head? hd)
  · intro c hc d hd
    obtain rfl := Option.some.inj hd
    rw [Follows, if_pos (hlast c hc)]
    exact .inr hs

def IsGroup (g : List Char) : Prop :=
  ∃ s ds, g = s :: ds ∧ isSep s = true ∧ ds.length = 3 ∧ ∀ c ∈ ds, isDigit c = true

theorem isGroup_of_mem (h : g ∈ groupsOf l) : IsGroup g := by
  induction hn : l.length using Nat.strongRecOn generalizing l with
  | ind n ih =>
    obtain ⟨s, x, y, z, rest, rfl, hgroup, hgroups⟩ := exists_group (List.ne_nil_of_mem h)
    simp only [Bool.and_eq_true] at hgroup
    rw [hgroups] at h
    rcases List.mem_cons.mp h with rfl | h
    · refine ⟨s, [x, y, z], rfl, hgroup.1, rfl, ?_⟩
      simp [hgroup.2]
    · exact ih rest.length (by simp only [← hn, List.length_cons]; omega) h rfl

theorem Shape.isGroup (h : Shape l f run groups rest) (hg : g ∈ groups) : IsGroup g := by
  have hgroups := h.groups_eq
  split_ifs at hgroups
  · exact isGroup_of_mem (hgroups ▸ hg)
  · rw [hgroups] at hg
    cases hg

theorem chain_groups {u : List Char} (hgroups : ∀ g ∈ groups, IsGroup g) (hu : u.IsChain Follows)
    (hlast : ∀ c, u.getLast? = some c → isDigit c = true) :
    (u ++ groups.flatten).IsChain Follows ∧
      ∀ c, (u ++ groups.flatten).getLast? = some c → isDigit c = true := by
  induction groups generalizing u with
  | nil =>
    rw [List.flatten_nil, List.append_nil]
    exact ⟨hu, hlast⟩
  | cons g groups ih =>
    obtain ⟨s, ds, rfl, hs, hlen, hds⟩ := hgroups g List.mem_cons_self
    rw [List.flatten_cons, ← List.append_assoc]
    refine ih (fun g hg => hgroups g (List.mem_cons_of_mem _ hg))
      (chain_append hu hlast (.inl hs) hds) fun c hc => ?_
    have hne : ds ≠ [] := List.ne_nil_of_length_pos (by omega)
    rw [List.getLast?_append_cons, List.getLast?_cons_of_ne_nil hne] at hc
    exact hds c (List.mem_of_getLast? hc)

theorem fractionAt_eq_some {x : Char × List Char} (h : fractionAt l = some x) :
    isPoint x.1 = true ∧ x.2 ≠ [] ∧ ∀ c ∈ x.2, isDigit c = true := by
  cases l with
  | nil => cases h
  | cons c l =>
    rw [fractionAt] at h
    split_ifs at h with hpoint
    obtain rfl := Option.some.inj h
    exact ⟨hpoint.1, hpoint.2, List.all_eq_true.mp List.all_takeWhile⟩

/-- A figure alternates digits and single other characters, and ends with a digit. -/
theorem Shape.chain (h : Shape l f run groups rest) : f.chars.IsChain Follows ∧
    (∀ c, f.chars.getLast? = some c → isDigit c = true) ∧
      ∀ c, f.chars.head? = some c → isMinus c = true ∨ isDigit c = true := by
  obtain ⟨d, ds, hrun⟩ := List.exists_cons_of_ne_nil h.run_ne
  obtain ⟨hchain, hlast⟩ := chain_groups (fun g => h.isGroup) (chain_digits h.run_digit)
    fun c hc => h.run_digit c (List.mem_of_getLast? hc)
  obtain ⟨hchain, hlast⟩ : (run ++ groups.flatten ++ fractionChars (fractionAt rest)).IsChain Follows ∧
      ∀ c, (run ++ groups.flatten ++ fractionChars (fractionAt rest)).getLast? = some c →
        isDigit c = true := by
    cases hfraction : fractionAt rest with
    | none => exact ⟨(List.append_nil _).symm ▸ hchain, (List.append_nil _).symm ▸ hlast⟩
    | some x =>
      obtain ⟨hpoint, hne, hdigits⟩ := fractionAt_eq_some hfraction
      refine ⟨chain_append hchain hlast (.inr hpoint) hdigits, fun c hc => ?_⟩
      rw [fractionChars, Option.elim_some, List.getLast?_append_cons,
        List.getLast?_cons_of_ne_nil hne] at hc
      exact hdigits c (List.mem_of_getLast? hc)
  rw [h.chars_eq.1, ← List.append_assoc run]
  have hhead : isDigit d = true := h.run_digit d (hrun ▸ List.mem_cons_self)
  -- a sign stands before the first digit of the run
  cases hsign : f.sign with
  | none =>
    refine ⟨hchain, hlast, fun c hc => .inr ?_⟩
    rw [hrun] at hc
    exact Option.some.inj hc ▸ hhead
  | some s =>
    have hminus := h.sign s hsign
    refine ⟨List.isChain_cons.mpr ⟨fun c hc => ?_, hchain⟩, fun c hc => hlast c ?_, fun c hc => .inl ?_⟩
    · rw [hrun] at hc
      rw [Follows, isDigit_of_isMinus hminus, if_neg Bool.false_ne_true]
      exact Option.some.inj hc ▸ hhead
    · rw [hrun] at hc ⊢
      exact hc
    · exact Option.some.inj hc ▸ hminus

end Shapes

section Proper
open Pattern

theorem within_one (c : Char → Bool) : (one c).Within fun _ => True := .one fun _ _ => trivial

theorem proper_digits : (one isDigit).many1.Proper :=
  .bind_left (.one _) fun _ => .bind closed_true (.many closed_true (within_one _)) fun _ =>
    .pure closed_true _

theorem proper_number (w : WordClass) : (numberPattern w).Proper := by
  have hgroup : groupPattern.Within fun _ => True :=
    .bind closed_true (within_one _) fun _ =>
      .bind closed_true (.times closed_true (within_one _) 3) fun _ => .pure closed_true _
  have hgrouped : groupedPattern.Proper :=
    .bind_left (.one _) fun _ => .bind closed_true (.upTo closed_true (within_one _) 2) fun _ =>
      .bind closed_true (.many1 closed_true hgroup) fun _ => .pure closed_true _
  have hfraction : fractionPattern.Within fun _ => True :=
    .opt closed_true <| .bind closed_true (within_one _) fun _ =>
      .bind closed_true proper_digits.within fun _ => .pure closed_true _
  exact .bind_right (.look closed_true _) fun _ => .bind_right (.opt closed_true (within_one _)) fun _ =>
    .bind_left (.or hgrouped proper_digits) fun _ => .bind closed_true hfraction fun _ =>
      .pure closed_true _

end Proper

theorem first_number_eq_some {w : WordClass} {b l : List Char} {f : Figure} {q : Pos Char}
    (h : (numberPattern w).first ⟨b, l⟩ = some (f, q)) : boundary w b = true ∧
      figureAt l = some f ∧ q = ⟨f.chars.reverse ++ b, l.drop f.chars.length⟩ := by
  rw [first_number] at h
  split_ifs at h with hb
  obtain ⟨f', hf, heq⟩ := Option.map_eq_some_iff.mp h
  obtain ⟨rfl, rfl⟩ := Prod.mk.inj heq
  exact ⟨hb, hf, rfl⟩

end Chic.Guardrail
