import Mathlib.Data.Nat.Digits.Defs
import Chic.DateText
import Chic.DecimalContext
import Chic.DigitRuns

namespace Chic.Guardrail
open Backtrack PyText PyTime

def grouped (sep : Char) (n : ℕ) : List Char :=
  if n < 1000 then Nat.toDigits 10 n
  else grouped sep (n / 1000) ++ sep :: decimals 3 (n % 1000)

/-- A number as an answer writes it: the thousands apart if there is a separator, the digits of the
fraction after a comma or a dot. -/
structure Numeral where
  sign : Option Char
  whole : ℕ
  sep : Option Char
  fraction : Option (Char × List (Fin 10))
  sign_minus : ∀ c, sign = some c → isMinus c = true
  sep_group : ∀ c, sep = some c → isSep c = true
  fraction_point : ∀ x, fraction = some x → isPoint x.1 = true ∧ x.2 ≠ []

namespace Numeral

def integer (x : Numeral) : List Char := x.sep.elim (Nat.toDigits 10 x.whole) (grouped · x.whole)

def chars (x : Numeral) : List Char :=
  x.sign.toList ++ x.integer ++ x.fraction.elim [] fun f => f.1 :: f.2.map fun d : Fin 10 => Nat.digitChar d

def length (x : Numeral) : ℕ :=
  (Nat.toDigits 10 x.whole).length + x.fraction.elim 0 (·.2.length)

def abs (x : Numeral) : ℚ :=
  x.whole + x.fraction.elim 0 fun f =>
    ((Nat.ofDigits 10 (f.2.reverse.map Fin.val) : ℕ) : ℚ) / 10 ^ f.2.length

def value (x : Numeral) : ℚ := if x.sign.isSome then -x.abs else x.abs

def figure (x : Numeral) : Figure where
  sign := x.sign
  integer := x.integer
  fraction := x.fraction.map fun f => (f.1, f.2.map fun d : Fin 10 => Nat.digitChar d)

end Numeral

/-- What may stand before a number that is to be read whole. -/
structure Opens (w : WordClass) (pre : List Char) : Prop where
  last : ∀ c, pre.getLast? = some c → w.isWord c = false ∧ isPoint c = false ∧ isMinus c = false
  group : ∀ b d s, pre = b ++ [d, s] → isDigit d = true → isSep s = false

structure Closes (suf : List Char) : Prop where
  digit : ∀ c, suf.head? = some c → isDigit c = false
  group : ∀ s x y z rest, suf = s :: x :: y :: z :: rest → isSep s = true →
    ¬(isDigit x = true ∧ isDigit y = true ∧ isDigit z = true)
  fraction : ∀ p d rest, suf = p :: d :: rest → isPoint p = true → isDigit d = false

section Digits
variable {n w : ℕ} {c s : Char} {ds ds' : List Char}

theorem isDigit_of_isDigit (h : c.isDigit = true) : isDigit c = true := by
  rw [isDigit, decimalDigit?_of_isDigit h]
  rfl

theorem isDigit_of_mem_toDigits (h : c ∈ Nat.toDigits 10 n) : isDigit c = true :=
  isDigit_of_isDigit (Nat.isDigit_of_mem_toDigits (by decide) (by decide) h)

theorem isDigit_of_mem_decimals' (h : c ∈ decimals w n) : isDigit c = true :=
  isDigit_of_isDigit (isDigit_of_mem_decimals h)

theorem digitsValue_append (ds ds' : List Char) :
    digitsValue (ds ++ ds') = digitsValue ds * 10 ^ ds'.length + digitsValue ds' := by
  have hinit : ∀ (ds : List Char) n, ds.foldl (fun n c => 10 * n + (decimalDigit? c).getD 0) n =
      n * 10 ^ ds.length + digitsValue ds := by
    intro ds
    induction ds with
    | nil => simp [digitsValue]
    | cons c ds ih =>
      intro n
      rw [digitsValue, List.foldl_cons, List.foldl_cons, ih, ih, List.length_cons]
      ring
  rw [digitsValue, List.foldl_append, hinit]
  rfl

theorem digitsValue_singleton (hn : n < 10) : digitsValue [Nat.digitChar n] = n := by
  simp [digitsValue, decimalDigit?_digitChar hn]

theorem digitsValue_toDigits (n : ℕ) : digitsValue (Nat.toDigits 10 n) = n := by
  induction n using Nat.strongRecOn with
  | ind n ih =>
    rcases Nat.lt_or_ge n 10 with hlt | hge
    · rw [Nat.toDigits_of_lt_base hlt, digitsValue_singleton hlt]
    · rw [Nat.toDigits_of_base_le (by decide) hge, digitsValue_append, ih (n / 10) (by omega),
        digitsValue_singleton (Nat.mod_lt n (by decide)), List.length_singleton]
      omega

theorem digitsValue_decimals (w n : ℕ) : digitsValue (decimals w n) = n % 10 ^ w := by
  induction w generalizing n with
  | zero => simp [decimals, digitsValue, Nat.mod_one]
  | succ w ih =>
    rw [decimals, digitsValue_append, ih, digitsValue_singleton (Nat.mod_lt n (by decide)),
      List.length_singleton, pow_one, Nat.pow_succ', Nat.mod_mul]
    omega

theorem digitsValue_map (ds : List (Fin 10)) :
    digitsValue (ds.map fun d : Fin 10 => Nat.digitChar d) = Nat.ofDigits 10 (ds.reverse.map Fin.val) := by
  induction ds using List.reverseRecOn with
  | nil => rfl
  | append_singleton ds d ih =>
    rw [List.map_append, digitsValue_append, ih, List.map_singleton, digitsValue_singleton d.isLt,
      List.reverse_append, List.reverse_singleton, List.singleton_append, List.map_cons,
      Nat.ofDigits_cons, List.length_singleton]
    ring

end Digits

section Grouped
variable {n : ℕ} {sep c : Char} {g rest : List Char} {groups : List (List Char)}

theorem exists_groups (hs : isSep sep = true) (n : ℕ) : ∃ run groups,
    grouped sep n = run ++ groups.flatten ∧ run ≠ [] ∧ run.length ≤ 3 ∧
      (∀ c ∈ run, isDigit c = true) ∧ (∀ g ∈ groups, IsGroup g) ∧ (groups = [] ↔ n < 1000) := by
  induction n using Nat.strongRecOn with
  | ind n ih =>
    rw [grouped]
    split_ifs with hn
    · refine ⟨Nat.toDigits 10 n, [], (List.append_nil _).symm, Nat.toDigits_ne_nil, ?_,
        fun c => isDigit_of_mem_toDigits, fun g hg => absurd hg List.not_mem_nil, iff_of_true rfl hn⟩
      exact (Nat.length_toDigits_le_iff (by decide) (by decide)).mpr hn
    · obtain ⟨run, groups, heq, hne, hlen, hdigit, hgroup, -⟩ := ih (n / 1000) (by omega)
      refine ⟨run, groups ++ [sep :: decimals 3 (n % 1000)], ?_, hne, hlen, hdigit, fun g hg => ?_,
        iff_of_false (by simp) hn⟩
      · rw [heq, List.flatten_append, List.append_assoc]
        simp
      · rcases List.mem_append.mp hg with hg | hg
        · exact hgroup g hg
        · rw [List.mem_singleton.mp hg]
          exact ⟨sep, _, rfl, hs, length_decimals 3 _, fun c => isDigit_of_mem_decimals'⟩

theorem filter_digits (h : ∀ c ∈ rest, isDigit c = true) : rest.filter isDigit = rest :=
  List.filter_eq_self.mpr h

theorem digitsValue_grouped (hs : isSep sep = true) (n : ℕ) :
    digitsValue ((grouped sep n).filter isDigit) = n := by
  induction n using Nat.strongRecOn with
  | ind n ih =>
    rw [grouped]
    split_ifs with hn
    · rw [filter_digits fun c => isDigit_of_mem_toDigits, digitsValue_toDigits]
    · have hsep : ¬isDigit sep = true := by simp [isDigit_of_isSep hs]
      rw [List.filter_append, List.filter_cons_of_neg hsep,
        filter_digits fun c => isDigit_of_mem_decimals', digitsValue_append, ih (n / 1000) (by omega),
        digitsValue_decimals, length_decimals]
      omega

theorem groupsOf_append (hgroups : ∀ g ∈ groups, IsGroup g) (hrest : groupsOf rest = []) :
    groupsOf (groups.flatten ++ rest) = groups := by
  induction groups with
  | nil => exact hrest
  | cons g groups ih =>
    obtain ⟨s, ds, rfl, hs, hlen, hds⟩ := hgroups g List.mem_cons_self
    obtain ⟨x, y, z, rfl⟩ := List.length_eq_three.mp hlen
    simp only [List.forall_mem_cons] at hds
    simp only [List.flatten_cons, List.cons_append, List.nil_append, groupsOf, hs, hds.1, hds.2.1,
      hds.2.2.1, Bool.and_self, if_true]
    rw [ih fun g hg => hgroups g (List.mem_cons_of_mem _ hg)]

end Grouped

section Reading
variable {x : Numeral} {suf : List Char}

theorem Closes.groupsOf (h : Closes suf) : groupsOf suf = [] := by
  by_contra hne
  obtain ⟨s, x, y, z, rest, rfl, hgroup, -⟩ := exists_group hne
  simp only [Bool.and_eq_true] at hgroup
  exact h.group s x y z rest rfl hgroup.1 hgroup.2

theorem Closes.fractionAt (h : Closes suf) : fractionAt suf = none := by
  rcases suf with _ | ⟨p, _ | ⟨d, rest⟩⟩
  · rfl
  · simp [Guardrail.fractionAt]
  · rw [Guardrail.fractionAt, if_neg]
    rintro ⟨hp, hne⟩
    exact hne (List.takeWhile_cons_of_neg (by simp [h.fraction p d rest rfl hp]))

def Numeral.tail (x : Numeral) : List Char := fractionChars x.figure.fraction

theorem Numeral.chars_eq (x : Numeral) : x.chars = x.figure.chars := by
  rw [chars, Figure.chars]
  cases hf : x.fraction <;> simp [figure, hf]

theorem isDigit_of_mem_map {ds : List (Fin 10)} {c : Char}
    (h : c ∈ ds.map fun d : Fin 10 => Nat.digitChar d) : isDigit c = true := by
  obtain ⟨d, -, rfl⟩ := List.mem_map.mp h
  rw [isDigit, decimalDigit?_digitChar d.isLt]
  rfl

theorem tail_spec (x : Numeral) (hsuf : Closes suf) : groupsOf (x.tail ++ suf) = [] ∧
    fractionAt (x.tail ++ suf) = x.figure.fraction ∧
      ∀ c, (x.tail ++ suf).head? = some c → isDigit c = false := by
  cases hf : x.fraction with
  | none =>
    have hnone : x.figure.fraction = none := by simp [Numeral.figure, hf]
    rw [Numeral.tail, hnone]
    exact ⟨hsuf.groupsOf, hsuf.fractionAt, hsuf.digit⟩
  | some f =>
    obtain ⟨p, ds⟩ := f
    obtain ⟨hp, hne⟩ := x.fraction_point _ hf
    have hsome : x.figure.fraction = some (p, ds.map fun d : Fin 10 => Nat.digitChar d) := by
      simp [Numeral.figure, hf]
    have hrun : ((ds.map fun d : Fin 10 => Nat.digitChar d) ++ suf).takeWhile isDigit =
        ds.map fun d : Fin 10 => Nat.digitChar d :=
      (takeWhile_run (fun c => isDigit_of_mem_map) hsuf.digit).1
    rw [Numeral.tail, hsome]
    refine ⟨?_, ?_, fun c hc => ?_⟩
    · by_contra hgroup
      obtain ⟨s, x, y, z, rest, heq, hgroup, -⟩ := exists_group hgroup
      obtain ⟨rfl, -⟩ := List.cons.inj heq
      rw [Bool.and_eq_true] at hgroup
      have hall : ∀ c ∈ groupChars, isPoint c = false := by decide
      rw [hall p (of_decide_eq_true hgroup.1)] at hp
      cases hp
    · rw [fractionChars, Option.elim_some, List.cons_append, fractionAt, hrun,
        if_pos ⟨hp, by simpa using hne⟩]
    · exact Option.some.inj hc ▸ isDigit_of_isPoint hp

theorem figureAt_numeral (x : Numeral) (hsuf : Closes suf) :
    figureAt (x.chars ++ suf) = some x.figure := by
  obtain ⟨hgroups, hfraction, hnext⟩ := tail_spec x hsuf
  have htext : ∀ run (groups : List (List Char)), x.integer = run ++ groups.flatten →
      x.chars ++ suf = x.figure.sign.toList ++ (run ++ (groups.flatten ++ (x.tail ++ suf))) := by
    intro run groups hinteger
    rw [x.chars_eq, Figure.chars, show x.figure.integer = x.integer from rfl, hinteger]
    simp [Numeral.tail, fractionChars]
  -- without a separator all the digits are one run; with one they come in groups
  cases hsep : x.sep with
  | none =>
    have hinteger : x.integer = Nat.toDigits 10 x.whole := by rw [Numeral.integer, hsep]; rfl
    have hshape : Shape (x.chars ++ suf) x.figure (Nat.toDigits 10 x.whole) [] (x.tail ++ suf) := by
      refine ⟨htext _ [] (by simp [hinteger]), x.sign_minus, Nat.toDigits_ne_nil,
        fun c => isDigit_of_mem_toDigits, hnext, ?_, by simp [Numeral.figure, hinteger],
        hfraction.symm⟩
      rw [List.flatten_nil, List.nil_append, hgroups, ite_self]
    exact hshape.figureAt
  | some s =>
    have hs := x.sep_group s hsep
    obtain ⟨run, groups, heq, hne, hlen, hdigit, hgroup, -⟩ := exists_groups hs x.whole
    have hinteger : x.integer = run ++ groups.flatten := by
      rw [Numeral.integer, hsep, ← heq]
      rfl
    have hshape : Shape (x.chars ++ suf) x.figure run groups (x.tail ++ suf) := by
      refine ⟨htext run groups hinteger, x.sign_minus, hne, hdigit, fun c hc => ?_, ?_, hinteger,
        hfraction.symm⟩
      · cases groups with
        | nil => exact hnext c hc
        | cons g groups =>
          obtain ⟨s, ds, rfl, hs, -⟩ := hgroup g List.mem_cons_self
          exact Option.some.inj hc ▸ isDigit_of_isSep hs
      · rw [if_pos hlen, groupsOf_append hgroup hgroups]
    exact hshape.figureAt

/-- No match that starts before the numeral goes into it. -/
theorem length_le_of_first {w : WordClass} {pre l₁ l₂ rest : List Char} {f : Figure} {q : Pos Char}
    (hpre : Opens w pre) (hl : pre = l₁ ++ l₂) (hne : l₂ ≠ [])
    (h : (numberPattern w).first ⟨l₁.reverse, l₂ ++ rest⟩ = some (f, q)) :
    rest.length ≤ q.rest.length := by
  obtain ⟨-, hf, rfl⟩ := first_number_eq_some h
  rcases Nat.lt_or_ge l₂.length f.chars.length with hlong | hshort
  · obtain ⟨t, ht⟩ := exists_of_lt_length hf hlong
    obtain ⟨d, t, rfl⟩ := List.exists_cons_of_ne_nil (show t ≠ [] by
      rintro rfl
      rw [ht, List.append_nil] at hlong
      exact lt_irrefl _ hlong)
    obtain ⟨l₂, y, rfl⟩ := (List.eq_nil_or_concat' l₂).resolve_left hne
    obtain ⟨run, groups, rest', hshape⟩ := exists_shape hf
    obtain ⟨hchain, -, hhead⟩ := hshape.chain
    obtain ⟨hword, hpoint, hminus⟩ := hpre.last y (by rw [hl]; simp)
    have hy : isDigit y = false := by
      by_contra hdigit
      rw [Bool.not_eq_false] at hdigit
      rw [w.digit y hdigit] at hword
      cases hword
    rw [ht, List.append_assoc] at hchain hhead
    rcases List.eq_nil_or_concat' l₂ with rfl | ⟨l₂, z, rfl⟩
    · rcases hhead y rfl with h | h
      · rw [hminus] at h
        cases h
      · rw [hy] at h
        cases h
    · -- inside a figure only a separator could stand there
      rw [List.append_assoc] at hchain
      have hfollows := (List.isChain_append_cons_cons.mp hchain).2.1
      unfold Follows at hfollows
      split_ifs at hfollows with hz
      · have hsep := hpre.group (l₁ ++ l₂) z y (by rw [hl]; simp) hz
        simp [hy, hpoint, hsep] at hfollows
      · rw [hy] at hfollows
        cases hfollows
  · rw [List.length_drop, List.length_append]
    omega

theorem boundary_of_opens {w : WordClass} {pre : List Char} (h : Opens w pre) :
    boundary w pre.reverse = true := by
  rw [boundary, List.head?_reverse]
  cases hc : pre.getLast? with
  | none => rfl
  | some c =>
    obtain ⟨hword, hpoint, -⟩ := h.last c hc
    simp [hword, hpoint]

/-- The numeral is matched, and no other match has a part of it. -/
theorem findIter_numeral {w : WordClass} {pre suf : List Char} (x : Numeral) (hpre : Opens w pre)
    (hsuf : Closes suf) : ∃ before after,
      findIter (numberPattern w) (pre ++ (x.chars ++ suf)) = before ++
        ⟨x.figure, ⟨pre.reverse, x.chars ++ suf⟩, ⟨x.chars.reverse ++ pre.reverse, suf⟩⟩ :: after ∧
      (∀ m ∈ before, (x.chars ++ suf).length ≤ m.stop.rest.length) ∧
        ∀ m ∈ after, m.start.rest.length ≤ suf.length := by
  have hstop : ∀ l₁ l₂ f q, pre = l₁ ++ l₂ → l₂ ≠ [] →
      (numberPattern w).first ⟨l₁.reverse ++ [], l₂ ++ (x.chars ++ suf)⟩ = some (f, q) →
        (x.chars ++ suf).length ≤ q.rest.length := fun l₁ l₂ f q hl hne h =>
    length_le_of_first hpre hl hne (by simpa using h)
  obtain ⟨ls, hls, hbefore⟩ := scan_append (proper_number w) hstop
  have hfirst : (numberPattern w).first ⟨pre.reverse, x.chars ++ suf⟩ =
      some (x.figure, ⟨x.chars.reverse ++ pre.reverse, suf⟩) := by
    rw [first_number, if_pos (boundary_of_opens hpre), figureAt_numeral x hsuf, Option.map_some,
      ← x.chars_eq, List.drop_left]
  rw [List.append_nil, scan_match (proper_number w) hfirst] at hls
  refine ⟨ls.filterMap Sum.getRight?,
    (scan (numberPattern w) ⟨x.chars.reverse ++ pre.reverse, suf⟩).filterMap Sum.getRight?, ?_, ?_, ?_⟩
  · rw [findIter, Pos.start, hls, List.filterMap_append, List.filterMap_cons]
    rfl
  · intro m hm
    obtain ⟨y, hy, hright⟩ := List.mem_filterMap.mp hm
    obtain rfl := Sum.getRight?_eq_some_iff.mp hright
    exact hbefore m hy
  · intro m hm
    obtain ⟨y, hy, hright⟩ := List.mem_filterMap.mp hm
    obtain rfl := Sum.getRight?_eq_some_iff.mp hright
    exact (mem_scan (proper_number w) hy).1.length_le

end Reading

section Parsed
variable {c : Char} {cs suf : List Char} {p : Pos Char} {b : List Char}

theorem isSpace_eq_false_of_isDigit (h : isDigit c = true) : isSpace c = false := by
  rw [isDigit, decimalDigit?, Option.isSome_map, List.find?_isSome] at h
  obtain ⟨z, hz, hc⟩ := h
  have hzeros : ∀ z ∈ decimalZeros, z = 0x30 ∨ (0x100 ≤ z ∧ z + 9 < 0x1680) ∨
      (0x1680 < z ∧ z + 9 < 0x2000) ∨ 0x3000 < z := by decide
  have hzero := hzeros z hz
  have hc := of_decide_eq_true hc
  by_contra hspace
  rw [Bool.not_eq_false] at hspace
  simp only [isSpace, Bool.or_eq_true, Bool.and_eq_true, decide_eq_true_eq, beq_iff_eq] at hspace
  omega

theorem stripChars_eq_self_of_ends (hhead : ∀ c, cs.head? = some c → isSpace c = false)
    (hlast : ∀ c, cs.getLast? = some c → isSpace c = false) : stripChars cs = cs := by
  have hdrop : ∀ l : List Char, (∀ c, l.head? = some c → isSpace c = false) →
      l.dropWhile isSpace = l := by
    intro l hl
    cases l with
    | nil => rfl
    | cons c l => rw [List.dropWhile_cons_of_neg (by simp [hl c rfl])]
  rw [stripChars, hdrop cs hhead, hdrop cs.reverse (by rwa [List.head?_reverse]), List.reverse_reverse]

theorem stripChars_chars (x : Numeral) : stripChars x.chars = x.chars := by
  have hf : figureAt (x.chars ++ []) = some x.figure :=
    figureAt_numeral x ⟨by simp, by simp, by simp⟩
  obtain ⟨run, groups, rest, hshape⟩ := exists_shape hf
  obtain ⟨-, hlast, hhead⟩ := hshape.chain
  rw [← x.chars_eq] at hlast hhead
  refine stripChars_eq_self_of_ends (fun c hc => ?_) fun c hc =>
    isSpace_eq_false_of_isDigit (hlast c hc)
  rcases hhead c hc with h | h
  · rcases of_decide_eq_true h with rfl | rfl <;> decide
  · exact isSpace_eq_false_of_isDigit h

theorem digitsValue_integer (x : Numeral) : digitsValue (x.integer.filter isDigit) = x.whole := by
  rw [Numeral.integer]
  cases hsep : x.sep with
  | none =>
    rw [Option.elim_none, filter_digits fun c => isDigit_of_mem_toDigits, digitsValue_toDigits]
  | some s => exact digitsValue_grouped (x.sep_group s hsep) x.whole

theorem any_isSep_eq_false (h : ∀ c ∈ cs, isDigit c = true) : cs.any isSep = false := by
  rw [List.any_eq_false]
  intro c hc hsep
  have hdigit := h c hc
  rw [isDigit_of_isSep hsep] at hdigit
  cases hdigit

theorem any_isSep_integer (x : Numeral) :
    x.integer.any isSep = decide (x.sep.isSome = true ∧ 1000 ≤ x.whole) := by
  rw [Numeral.integer]
  cases hsep : x.sep with
  | none =>
    rw [Option.elim_none, any_isSep_eq_false fun c => isDigit_of_mem_toDigits]
    rfl
  | some s =>
    obtain ⟨run, groups, heq, -, -, hdigit, hgroup, hnil⟩ := exists_groups (x.sep_group s hsep) x.whole
    rw [Option.elim_some, heq, List.any_append, any_isSep_eq_false hdigit, Bool.false_or]
    cases groups with
    | nil => simpa using hnil
    | cons g groups =>
      obtain ⟨s, ds, rfl, hs, -⟩ := hgroup g List.mem_cons_self
      simpa [hs] using hnil

theorem length_digits (x : Numeral) : x.whole < 10 ^ (Nat.toDigits 10 x.whole).length :=
  (Nat.length_toDigits_le_iff (by decide) Nat.length_toDigits_pos).mp le_rfl

theorem exact_abs (x : Numeral) (h : x.length ≤ 28) : Exact x.abs := by
  have hwhole := length_digits x
  rw [Numeral.length] at h
  rw [Numeral.abs]
  cases hf : x.fraction with
  | none =>
    rw [hf, Option.elim_none, Nat.add_zero] at h
    have := exact_natCast (hwhole.trans_le (Nat.pow_le_pow_right (by decide) h))
    simpa using this
  | some f =>
    obtain ⟨p, ds⟩ := f
    rw [hf, Option.elim_some] at h
    have hfrac : Nat.ofDigits 10 (ds.reverse.map Fin.val) < 10 ^ ds.length := by
      have := Nat.ofDigits_lt_base_pow_length (b := 10) (l := ds.reverse.map Fin.val) (by decide)
        fun d hd => by
          obtain ⟨d, -, rfl⟩ := List.mem_map.mp hd
          exact d.isLt
      simpa using this
    have hlt : x.whole * 10 ^ ds.length + Nat.ofDigits 10 (ds.reverse.map Fin.val) < 10 ^ 28 :=
      calc x.whole * 10 ^ ds.length + Nat.ofDigits 10 (ds.reverse.map Fin.val)
          < x.whole * 10 ^ ds.length + 10 ^ ds.length := by omega
        _ = (x.whole + 1) * 10 ^ ds.length := by ring
        _ ≤ 10 ^ (Nat.toDigits 10 x.whole).length * 10 ^ ds.length := Nat.mul_le_mul_right _ hwhole
        _ = 10 ^ ((Nat.toDigits 10 x.whole).length + ds.length) := (Nat.pow_add _ _ _).symm
        _ ≤ 10 ^ 28 := Nat.pow_le_pow_right (by decide) h
    have hexact := exact_natCast_div _ hlt ds.length
    rwa [Nat.cast_add, add_div, Nat.cast_mul, Nat.cast_pow, Nat.cast_ofNat,
      mul_div_cancel_right₀ _ (pow_ne_zero _ (by norm_num))] at hexact

def Figure.abs (f : Figure) : ℚ :=
  digitsValue (f.integer.filter isDigit) + f.fraction.elim 0 fun x =>
    (digitsValue x.2 : ℚ) / 10 ^ x.2.length

theorem Figure.value_eq (f : Figure) :
    f.value = if f.sign.isSome then contextRound (-f.abs) else f.abs := by
  unfold value abs
  cases f.fraction with
  | none => simp
  | some x => rfl

theorem abs_figure (x : Numeral) : x.figure.abs = x.abs := by
  rw [Figure.abs, show x.figure.integer = x.integer from rfl, digitsValue_integer, Numeral.abs]
  cases hf : x.fraction with
  | none => simp [Numeral.figure, hf]
  | some f =>
    have hsome : x.figure.fraction = some (f.1, f.2.map fun d : Fin 10 => Nat.digitChar d) := by
      rw [Numeral.figure, hf]
      rfl
    rw [hsome, Option.elim_some, Option.elim_some, digitsValue_map, List.length_map]

theorem value_figure (x : Numeral) (h : x.sign.isSome = true → x.length ≤ 28) :
    x.figure.value = x.value := by
  rw [Figure.value_eq, abs_figure, Numeral.value, show x.figure.sign = x.sign from rfl]
  split_ifs with hsign
  · exact (exact_abs x (h hsign)).neg.contextRound_eq
  · rfl

theorem parsed_numeral (x : Numeral) (h : x.sign.isSome = true → x.length ≤ 28) (b : List Char)
    (q : Pos Char) : parsed ⟨x.figure, ⟨b, x.chars ++ q.rest⟩, q⟩ =
      { value := x.value
        text := String.ofList x.chars
        isPercent := (q.rest.dropWhile isSep).head? = some '%'
        grouped := x.sep.isSome = true ∧ 1000 ≤ x.whole
        fractional := x.fraction.isSome } := by
  have htext : Match.text ⟨x.figure, ⟨b, x.chars ++ q.rest⟩, q⟩ = x.chars := by
    simp [Match.text]
  rw [parsed, htext, stripChars_chars, value_figure x h,
    show x.figure.integer = x.integer from rfl, any_isSep_integer]
  simp [Numeral.figure]

end Parsed

/-- A number in the prescribed format, among other text that nothing is stripped from, is found as
one number that takes just its characters and has its value. -/
theorem extractNumbers_numeral {w : WordClass} {pre suf : List Char} (x : Numeral)
    (hlen : x.length ≤ 28) (hpre : Opens w pre) (hsuf : Closes suf)
    (hstrip : findIter (stripPattern w) (pre ++ (x.chars ++ suf)) = []) :
    ∃ before m after,
      findIter (numberPattern w) (cleaned w (pre ++ (x.chars ++ suf))) = before ++ m :: after ∧
      extractNumbers w (pre ++ (x.chars ++ suf)) =
        before.map parsed ++ parsed m :: after.map parsed ∧
      (∀ m' ∈ before, (x.chars ++ suf).length ≤ m'.stop.rest.length) ∧
      (∀ m' ∈ after, m'.start.rest.length ≤ suf.length) ∧
      m.start = ⟨pre.reverse, x.chars ++ suf⟩ ∧ m.stop.rest = suf ∧ m.text = x.chars ∧
      (parsed m).value = x.value ∧
      (parsed m).grouped = decide (x.sep.isSome = true ∧ 1000 ≤ x.whole) ∧
      (parsed m).fractional = x.fraction.isSome := by
  have hclean : cleaned w (pre ++ (x.chars ++ suf)) = pre ++ (x.chars ++ suf) := sub_eq_self hstrip ' '
  obtain ⟨before, after, hfind, hbefore, hafter⟩ := findIter_numeral x hpre hsuf
  have hparsed := parsed_numeral x (fun _ => hlen) pre.reverse ⟨x.chars.reverse ++ pre.reverse, suf⟩
  refine ⟨before, _, after, by rw [hclean, hfind], ?_, hbefore, hafter, rfl, rfl, ?_, ?_, ?_, ?_⟩
  · rw [extractNumbers, hclean, hfind, List.map_append, List.map_cons]
  · simp [Match.text]
  · rw [hparsed]
  · rw [hparsed]
  · rw [hparsed]

def minusTwelveThousand : Numeral where
  sign := some '−'
  whole := 12345
  sep := some ' '
  fraction := some (',', [5, 0])
  sign_minus := by simp [isMinus]
  sep_group := by simp [isSep, groupChars]
  fraction_point := by simp [isPoint]

theorem minusTwelveThousand_read : ∃ before m after,
    findIter (numberPattern plainWord) (cleaned plainWord "Итого: −12 345,50 MDL.".toList) =
      before ++ m :: after ∧ m.text = "−12 345,50".toList ∧ (parsed m).value = -24691 / 2 := by
  have hchars : "−12 345,50".toList = minusTwelveThousand.chars := by decide +kernel
  have htext : "Итого: −12 345,50 MDL.".toList =
      "Итого: ".toList ++ (minusTwelveThousand.chars ++ " MDL.".toList) := by decide +kernel
  have hpre : Opens plainWord "Итого: ".toList := by
    refine ⟨fun c hc => ?_, fun b d s h hd => ?_⟩
    · obtain rfl : ' ' = c := Option.some.inj hc
      decide +kernel
    · have hlast : some ':' = some d :=
        calc some ':' = "Итого: ".toList.reverse[1]? := by decide +kernel
          _ = some d := by rw [h]; simp
      rw [← Option.some.inj hlast] at hd
      exact absurd hd (by decide +kernel)
  have hsuf : Closes " MDL.".toList := by
    refine ⟨fun c hc => ?_, fun s x y z rest h _ hd => ?_, fun p d rest h hp => ?_⟩
    · obtain rfl : ' ' = c := Option.some.inj hc
      decide +kernel
    · have hsecond : some 'M' = some x :=
        calc some 'M' = " MDL.".toList[1]? := by decide +kernel
          _ = some x := by rw [h]; rfl
      rw [← Option.some.inj hsecond] at hd
      exact absurd hd.1 (by decide +kernel)
    · have hfirst : some ' ' = some p :=
        calc some ' ' = " MDL.".toList[0]? := by decide +kernel
          _ = some p := by rw [h]; rfl
      rw [← Option.some.inj hfirst] at hp
      exact absurd hp (by decide)
  obtain ⟨before, m, after, hfind, -, -, -, -, -, hm, hvalue, -⟩ :=
    extractNumbers_numeral minusTwelveThousand (by decide +kernel) hpre hsuf (by decide +kernel)
  rw [htext, hchars]
  exact ⟨before, m, after, hfind, hm, hvalue.trans (by decide +kernel)⟩

end Chic.Guardrail
