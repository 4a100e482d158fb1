import Chic.SlipDetection
import Chic.TruncatedResult

namespace Chic.Guardrail
open Backtrack PyText

/-- Text before a numeral: no digits, and a number may begin where it ends. -/
structure Leads (w : WordClass) (t : List Char) : Prop where
  text : ∀ c ∈ t, isDigit c = false
  last : ∀ c, t.getLast? = some c → w.isWord c = false ∧ isPoint c = false ∧ isMinus c = false

/-- Text between two numerals, more than one separator. -/
structure Parts (w : WordClass) (t : List Char) : Prop extends Leads w t where
  ne_nil : t ≠ []
  apart : ∀ s, t = [s] → isSep s = false

/-- Numerals, each with the text after it. -/
def Spaced (w : WordClass) : List (Numeral × List Char) → Prop
  | [] => True
  | [x] => ∀ c ∈ x.2, isDigit c = false
  | x :: y :: rest => Parts w x.2 ∧ Spaced w (y :: rest)

def charsOf (xs : List (Numeral × List Char)) : List Char := xs.flatMap fun x => x.1.chars ++ x.2

structure Layout (w : WordClass) where
  opening : List Char
  figures : List (Numeral × List Char)
  leads : Leads w opening
  spaced : Spaced w figures

namespace Layout
variable {w : WordClass}

def chars (a : Layout w) : List Char := a.opening ++ charsOf a.figures

end Layout

def Numeral.read (x : Numeral) (after : List Char) : ParsedNumber where
  value := x.value
  text := String.ofList x.chars
  isPercent := (after.dropWhile isSep).head? = some '%'
  grouped := x.sep.isSome = true ∧ 1000 ≤ x.whole
  fractional := x.fraction.isSome

namespace Layout
variable {w : WordClass}

def numbers (a : Layout w) : List ParsedNumber := a.figures.map fun x => x.1.read x.2

end Layout

section Scanning
variable {w : WordClass} {b t rest : List Char} {x : Numeral × List Char}
  {xs : List (Numeral × List Char)}

theorem head?_chars (x : Numeral) (rest : List Char) :
    ∃ c, (x.chars ++ rest).head? = some c ∧ (isMinus c = true ∨ isDigit c = true) := by
  have hf : figureAt (x.chars ++ []) = some x.figure :=
    figureAt_numeral x ⟨by simp, by simp, by simp⟩
  obtain ⟨run, groups, tail, hshape⟩ := exists_shape hf
  obtain ⟨-, -, hhead⟩ := hshape.chain
  rw [← x.chars_eq] at hhead
  cases hchars : x.chars with
  | nil =>
    rw [hchars, List.append_nil] at hf
    cases hf
  | cons c cs => exact ⟨c, rfl, hhead c (by rw [hchars]; rfl)⟩

/-- No figure begins in text without digits, if a sign does not end it right before a digit. -/
theorem figureAt_text (hne : t ≠ []) (htext : ∀ c ∈ t, isDigit c = false)
    (hnext : ∀ c, t.getLast? = some c → isMinus c = true →
      ∀ d, rest.head? = some d → isDigit d = false) : figureAt (t ++ rest) = none := by
  obtain ⟨c, t, rfl⟩ := List.exists_cons_of_ne_nil hne
  have hc := htext c List.mem_cons_self
  rw [figureAt, List.cons_append, signAt]
  by_cases hminus : isMinus c = true
  · rw [if_pos hminus, if_pos]
    change (t ++ rest).takeWhile isDigit = []
    cases t with
    | nil =>
      cases rest with
      | nil => rfl
      | cons d rest => exact List.takeWhile_cons_of_neg (by simp [hnext c rfl hminus d rfl])
    | cons d t => exact List.takeWhile_cons_of_neg (by simp [htext d (by simp)])
  · rw [if_neg hminus, if_pos]
    exact List.takeWhile_cons_of_neg (by simp [hc])

theorem scan_text (htext : ∀ c ∈ t, isDigit c = false)
    (hnext : ∀ c, t.getLast? = some c → isMinus c = true →
      ∀ d, rest.head? = some d → isDigit d = false) :
    scan (numberPattern w) ⟨b, t ++ rest⟩ = t.map .inl ++ scan (numberPattern w) ⟨t.reverse ++ b, rest⟩ := by
  refine scan_skip fun l₁ l₂ hl hne => ?_
  have hnone : figureAt (l₂ ++ rest) = none := by
    refine figureAt_text hne (fun c hc => htext c (hl ▸ List.mem_append_right l₁ hc)) fun c hc => ?_
    exact hnext c (by rw [hl, List.getLast?_append, hc]; rfl)
  rw [first_number, hnone]
  split_ifs <;> rfl

/-- What follows a numeral of a layout does not go on with it. -/
theorem closes_of_spaced (h : Spaced w (x :: xs)) : Closes (x.2 ++ charsOf xs) := by
  cases xs with
  | nil =>
    rw [charsOf, List.flatMap_nil, List.append_nil]
    have htext : ∀ c ∈ x.2, isDigit c = false := h
    refine ⟨fun c hc => htext c (List.mem_of_head? hc), fun s d y z rest hx _ hd => ?_,
      fun p d rest hx _ => htext d (by simp [hx])⟩
    rw [htext d (by simp [hx])] at hd
    exact Bool.false_ne_true hd.1
  | cons y xs =>
    obtain ⟨⟨⟨htext, hlast⟩, hne, hapart⟩, -⟩ := h
    -- a digit in second place follows a text of one character
    have hsecond : ∀ s d rest, x.2 ++ charsOf (y :: xs) = s :: d :: rest → isDigit d = true →
        x.2 = [s] := by
      intro s d rest heq hd
      rcases hx : x.2 with _ | ⟨c, _ | ⟨c', t⟩⟩
      · exact absurd hx hne
      · rw [hx] at heq
        rw [(List.cons.inj heq).1]
      · rw [hx] at heq
        obtain ⟨rfl, -⟩ := List.cons.inj (List.cons.inj heq).2
        rw [htext c' (by simp [hx])] at hd
        cases hd
    refine ⟨fun c hc => ?_, fun s d y' z rest heq hs hd => ?_, fun p d rest heq hp => ?_⟩
    · rw [List.head?_append_of_ne_nil _ hne] at hc
      exact htext c (List.mem_of_head? hc)
    · rw [hapart s (hsecond s d _ heq hd.1)] at hs
      cases hs
    · by_contra hd
      have hx := hsecond p d _ heq (by simpa using hd)
      rw [(hlast p (by rw [hx]; rfl)).2.1] at hp
      cases hp

/-- A percent sign after a numeral stands in the text before the next one. -/
theorem head?_after (h : Spaced w (x :: xs)) :
    (((x.2 ++ charsOf xs).dropWhile isSep).head? = some '%') ↔
      (x.2.dropWhile isSep).head? = some '%' := by
  rw [List.dropWhile_append]
  split_ifs with hnil
  · rw [List.isEmpty_iff] at hnil
    rw [hnil]
    refine iff_of_false (fun hhead => ?_) (by simp)
    cases xs with
    | nil => cases hhead
    -- what comes then is a numeral, and it begins neither with a separator nor with a percent sign
    | cons y xs =>
      obtain ⟨c, hc, hkind⟩ := head?_chars y.1 (y.2 ++ charsOf xs)
      have hchars : charsOf (y :: xs) = y.1.chars ++ (y.2 ++ charsOf xs) := by simp [charsOf]
      have hsep : isSep c = false := by
        by_contra hsep
        rw [Bool.not_eq_false] at hsep
        have hall : ∀ c ∈ groupChars, isMinus c = false := by decide
        rw [hall c (of_decide_eq_true hsep), isDigit_of_isSep hsep] at hkind
        rcases hkind with h | h <;> cases h
      rw [hchars] at hhead
      cases hl : y.1.chars ++ (y.2 ++ charsOf xs) with
      | nil =>
        rw [hl] at hc
        cases hc
      | cons d l =>
        rw [hl] at hc hhead
        obtain rfl : d = c := Option.some.inj hc
        rw [List.dropWhile_cons_of_neg (by simp [hsep])] at hhead
        obtain rfl : d = '%' := Option.some.inj hhead
        rcases hkind with h | h
        · exact absurd h (by decide)
        · exact absurd h (by decide +kernel)
  · rw [List.isEmpty_iff] at hnil
    rw [List.head?_append_of_ne_nil _ hnil]

theorem scan_figures (hb : boundary w b = true) (h : Spaced w xs)
    (hlen : ∀ x ∈ xs, x.1.sign.isSome = true → x.1.length ≤ 28) :
    ((scan (numberPattern w) ⟨b, charsOf xs⟩).filterMap Sum.getRight?).map parsed =
      xs.map fun x => x.1.read x.2 := by
  -- one numeral and the text after it at a time; where it begins a number may begin
  induction xs generalizing b with
  | nil => rw [charsOf, List.flatMap_nil, scan_nil (proper_number w)]; rfl
  | cons x xs ih =>
    have hchars : charsOf (x :: xs) = x.1.chars ++ (x.2 ++ charsOf xs) := by simp [charsOf]
    have hfirst : (numberPattern w).first ⟨b, x.1.chars ++ (x.2 ++ charsOf xs)⟩ =
        some (x.1.figure, ⟨x.1.chars.reverse ++ b, x.2 ++ charsOf xs⟩) := by
      rw [first_number, if_pos hb, figureAt_numeral x.1 (closes_of_spaced h), Option.map_some,
        ← x.1.chars_eq, List.drop_left]
    have hread := parsed_numeral x.1 (hlen x List.mem_cons_self) b
      ⟨x.1.chars.reverse ++ b, x.2 ++ charsOf xs⟩
    have htext : scan (numberPattern w) ⟨x.1.chars.reverse ++ b, x.2 ++ charsOf xs⟩ =
        x.2.map .inl ++ scan (numberPattern w) ⟨x.2.reverse ++ (x.1.chars.reverse ++ b), charsOf xs⟩ := by
      cases xs with
      | nil => exact scan_text h fun _ _ _ d hd => by cases hd
      | cons y xs =>
        refine scan_text h.1.text fun c hc hminus => ?_
        rw [(h.1.last c hc).2.2] at hminus
        cases hminus
    have hrest : ((scan (numberPattern w) ⟨x.2.reverse ++ (x.1.chars.reverse ++ b), charsOf xs⟩).filterMap
        Sum.getRight?).map parsed = xs.map fun x => x.1.read x.2 := by
      cases xs with
      | nil => rw [charsOf, List.flatMap_nil, scan_nil (proper_number w)]; rfl
      | cons y xs =>
        refine ih ?_ h.2 fun z hz => hlen z (List.mem_cons_of_mem _ hz)
        -- the text between two numerals ends where a number may begin
        obtain ⟨t, c, hx⟩ := (List.eq_nil_or_concat' x.2).resolve_left h.1.ne_nil
        obtain ⟨hword, hpoint, -⟩ := h.1.last c (by rw [hx, List.getLast?_concat])
        rw [hx, List.reverse_append]
        exact boundary_cons hword hpoint _
    have hskip : (x.2.map (Sum.inl (β := Match Char Figure))).filterMap Sum.getRight? = [] := by
      simp [List.filterMap_map, Function.comp_def]
    rw [hchars, scan_match (proper_number w) hfirst, htext, List.filterMap_cons]
    dsimp only [Sum.getRight?]
    rw [List.filterMap_append, hskip, List.nil_append, List.map_cons, hrest, List.map_cons, hread]
    congr 1
    simp only [Numeral.read, head?_after h]

/-- The figures of a laid out answer are read as they were written, one number for each. -/
theorem extractNumbers_layout {answer : List Char} (a : Layout w) (hclean : cleaned w answer = a.chars)
    (hlen : ∀ x ∈ a.figures, x.1.sign.isSome = true → x.1.length ≤ 28) :
    extractNumbers w answer = a.numbers := by
  obtain ⟨htext, hlast⟩ := a.leads
  have hboundary : boundary w (a.opening.reverse ++ []) = true := by
    rw [List.append_nil, boundary, List.head?_reverse]
    cases hc : a.opening.getLast? with
    | none => rfl
    | some c =>
      obtain ⟨hword, hpoint, -⟩ := hlast c hc
      simp [hword, hpoint]
  have hopening : scan (numberPattern w) ⟨[], a.chars⟩ = a.opening.map .inl ++
      scan (numberPattern w) ⟨a.opening.reverse ++ [], charsOf a.figures⟩ := by
    refine scan_text htext fun c hc hminus => ?_
    rw [(hlast c hc).2.2] at hminus
    cases hminus
  have hskip : (a.opening.map (Sum.inl (β := Match Char Figure))).filterMap Sum.getRight? = [] := by
    simp [List.filterMap_map, Function.comp_def]
  rw [extractNumbers, hclean, findIter, Pos.start, hopening, List.filterMap_append, hskip,
    List.nil_append, scan_figures hboundary a.spaced hlen]
  rfl

end Scanning

theorem isSep_space : isSep ' ' = true := by decide

theorem isMinus_of_none (c : Char) (h : none = some c) : isMinus c = true := by cases h

theorem isSep_of_none (c : Char) (h : none = some c) : isSep c = true := by cases h

def revenueFigure : Numeral := .amount ' ' isSep_space 1234567

theorem five_lt : 5 < 10 := by decide

def fiveTenths : List (Fin 10) := [⟨5, five_lt⟩]

theorem fiveTenths_ne_nil : fiveTenths ≠ [] := by decide

theorem isPoint_of_fiveTenths (x : Char × List (Fin 10)) (h : some (',', fiveTenths) = some x) :
    isPoint x.1 = true ∧ x.2 ≠ [] := by
  obtain rfl := Option.some.inj h
  decide

def marginFigure : Numeral where
  sign := none
  whole := 12
  sep := none
  fraction := some (',', fiveTenths)
  sign_minus := isMinus_of_none
  sep_group := isSep_of_none
  fraction_point := isPoint_of_fiveTenths

theorem leads_revenue : Leads plainWord "Выручка ".toList := by
  refine ⟨by decide +kernel, fun c hc => ?_⟩
  obtain rfl : ' ' = c := Option.some.inj hc
  decide +kernel

theorem spaced_revenue :
    Spaced plainWord [(revenueFigure, " MDL, маржа ".toList), (marginFigure, " %".toList)] := by
  have hend : ∀ c ∈ " %".toList, isDigit c = false := by decide +kernel
  refine ⟨⟨⟨by decide +kernel, fun c hc => ?_⟩, by decide +kernel, fun s h => ?_⟩, hend⟩
  · obtain rfl : ' ' = c := Option.some.inj hc
    decide +kernel
  · have hlen := congrArg List.length h
    rw [List.length_singleton] at hlen
    exact absurd hlen (by decide +kernel)

def revenueAnswer : Layout plainWord where
  opening := "Выручка ".toList
  figures := [(revenueFigure, " MDL, маржа ".toList), (marginFigure, " %".toList)]
  leads := leads_revenue
  spaced := spaced_revenue

theorem length_sub_filter {α : Type} (l : List α) (p q : α → Bool) :
    (l.filter p).length - ((l.filter p).filter fun x => !q x).length =
      (l.filter fun x => p x && q x).length := by
  rw [List.length_eq_length_filter_add q (l := l.filter p), Nat.add_sub_cancel_right,
    List.filter_filter]
  simp only [Bool.and_comm]

/-- What the guard reports of a laid out answer: a number for each numeral, and as unexplained, in
the order of the answer, just those that count and are near no known number. -/
theorem checkAnswer_layout {w : WordClass} {answer : List Char} (a : Layout w)
    (hclean : cleaned w answer = a.chars)
    (hlen : ∀ x ∈ a.figures, x.1.sign.isSome = true → x.1.length ≤ 28)
    (known : Finset ℚ) (minMagnitude relTol absTol : ℚ) :
    checkAnswer w answer known minMagnitude relTol absTol =
      { total := a.figures.length
        checked := (a.numbers.filter (isSignificant · minMagnitude)).length
        grounded := (a.numbers.filter fun pn =>
          isSignificant pn minMagnitude && matchesKnown pn.value known relTol absTol).length
        unexplained := (a.numbers.filter fun pn =>
          isSignificant pn minMagnitude && !matchesKnown pn.value known relTol absTol).map (·.text) } := by
  rw [checkAnswer, extractNumbers_layout a hclean hlen]
  congr 1
  · rw [Layout.numbers, List.length_map]
  · exact length_sub_filter _ _ _
  · rw [List.filter_filter]
    simp only [Bool.and_comm]

theorem revenueAnswer_cleaned :
    cleaned plainWord "Выручка 1 234 567 MDL, маржа 12,5 %".toList = revenueAnswer.chars := by
  have hchars : "Выручка 1 234 567 MDL, маржа 12,5 %".toList = revenueAnswer.chars := by decide +kernel
  rw [hchars]
  exact cleaned_eq_self (by decide +kernel)

theorem revenueAnswer_report :
    (checkAnswer plainWord "Выручка 1 234 567 MDL, маржа 12,5 %".toList {1234568}).unexplained =
      ["12,5"] := by
  rw [checkAnswer_layout revenueAnswer revenueAnswer_cleaned (by decide +kernel)]
  decide +kernel

/-- The numbers of a tool result, at any depth. -/
inductive Value.Holds : Value → Number → Prop
  | number (x : Number) : Holds (.number x) x
  | item {items : List Value} {v : Value} {x : Number} (hv : v ∈ items) (h : Holds v x) :
      Holds (.arr items) x
  | field {fields : List (String × Value)} {k : String} {v : Value} {x : Number}
      (hv : (k, v) ∈ fields) (h : Holds v x) : Holds (.obj fields) x

/-- Where the guard knows a number from: a tool result, the text of one that does not parse, or the
user's text. -/
inductive Told (w : WordClass) (loads : List Char → Option Value) (outputs : List (List Char))
    (user : List Char) (k : ℚ) : Prop
  | result {raw : List Char} {v : Value} {x : Number} (hraw : raw ∈ outputs) (hv : loads raw = some v)
      (hx : v.Holds x) (hk : x.value? = some k)
  | text {raw : List Char} {pn : ParsedNumber} (hraw : raw ∈ outputs) (hv : loads raw = none)
      (hpn : pn ∈ extractNumbers w raw) (hk : pn.value = k)
  | user {pn : ParsedNumber} (hpn : pn ∈ extractNumbers w user) (hk : pn.value = k)

section Known
variable {w : WordClass} {k : ℚ} {v : Value} {x : Number}

theorem mem_addItems {items : List Value} (hv : v ∈ items)
    (h : ∀ acc, k ∈ addJsonNumbers v acc) (acc : Finset ℚ) : k ∈ addItems items acc := by
  induction items generalizing acc with
  | nil => cases hv
  | cons u items ih =>
    rw [addItems]
    rcases List.mem_cons.mp hv with rfl | hv
    · exact subset_addItems items _ (h acc)
    · exact ih hv _

theorem mem_addFields {fields : List (String × Value)} {name : String} (hv : (name, v) ∈ fields)
    (h : ∀ acc, k ∈ addJsonNumbers v acc) (acc : Finset ℚ) : k ∈ addFields fields acc := by
  induction fields generalizing acc with
  | nil => cases hv
  | cons field fields ih =>
    obtain ⟨name', u⟩ := field
    rw [addFields]
    rcases List.mem_cons.mp hv with heq | hv
    · obtain ⟨-, rfl⟩ := Prod.mk.inj heq
      exact subset_addFields fields _ (h acc)
    · exact ih hv _

theorem mem_addJsonNumbers (hx : v.Holds x) (hk : x.value? = some k) (acc : Finset ℚ) :
    k ∈ addJsonNumbers v acc := by
  induction hx generalizing acc with
  | number x =>
    rw [addJsonNumbers]
    simp [hk]
  | item hv _ ih =>
    rw [addJsonNumbers]
    exact mem_addItems hv (ih hk) acc
  | field hv _ ih =>
    rw [addJsonNumbers]
    exact mem_addFields hv (ih hk) acc

/-- What one step of a fold adds stays, if no step takes anything away. -/
theorem mem_foldl {α : Type} {f : Finset ℚ → α → Finset ℚ} (hkeep : ∀ acc a, k ∈ acc → k ∈ f acc a)
    {l : List α} {acc : Finset ℚ} (h : k ∈ acc ∨ ∃ a ∈ l, ∀ acc, k ∈ f acc a) : k ∈ l.foldl f acc := by
  induction l generalizing acc with
  | nil =>
    rcases h with hk | ⟨a, ha, -⟩
    · exact hk
    · cases ha
  | cons b l ih =>
    rcases h with hk | ⟨a, ha, hk⟩
    · exact ih (.inl (hkeep acc b hk))
    · rcases List.mem_cons.mp ha with rfl | ha
      · exact ih (.inl (hk acc))
      · exact ih (.inr ⟨a, ha, hk⟩)

theorem mem_collectKnownNumbers {loads : List Char → Option Value} {outputs : List (List Char)}
    {user : List Char} (h : Told w loads outputs user k) : k ∈ collectKnownNumbers w loads outputs user := by
  rw [collectKnownNumbers, mem_addFigures]
  refine Or.imp_left (mem_foldl fun acc raw hk => ?_) ?_
  · split
    · exact subset_addJsonNumbers _ _ hk
    · rw [mem_addFigures]
      exact .inl hk
  · cases h with
    | user hpn hk => exact .inr ⟨_, hpn, hk⟩
    | result hraw hv hx hk =>
      refine .inl (.inr ⟨_, hraw, fun acc => ?_⟩)
      rw [hv]
      exact mem_addJsonNumbers hx hk acc
    | text hraw hv hpn hk =>
      refine .inl (.inr ⟨_, hraw, fun acc => ?_⟩)
      rw [hv]
      dsimp only
      rw [mem_addFigures]
      exact .inr ⟨_, hpn, hk⟩

theorem contextRound_neg (x : ℚ) : contextRound (-x) = -contextRound x := by
  rw [contextRound_eq_roundTo, contextRound_eq_roundTo, Decimal.roundTo_neg]

theorem abs_contextRound_le {d : ℚ} (h : |d| ≤ 1) : |contextRound d| ≤ 1 := by
  have hone : contextRound 1 = 1 := by
    have hexact : Exact ((1 : ℕ) : ℚ) := exact_natCast (by norm_num)
    simpa using hexact.contextRound_eq
  have hzero : contextRound 0 = 0 := by
    have hexact : Exact ((0 : ℕ) : ℚ) := exact_natCast (by norm_num)
    simpa using hexact.contextRound_eq
  have hpos : ∀ d : ℚ, 0 ≤ d → d ≤ 1 → |contextRound d| ≤ 1 := by
    intro d hd hle
    have hnonneg : 0 ≤ contextRound d := hzero ▸ contextRound_mono le_rfl hd
    rw [abs_of_nonneg hnonneg, ← hone]
    exact contextRound_mono hd hle
  obtain ⟨hlow, hhigh⟩ := abs_le.mp h
  rcases le_total 0 d with hd | hd
  · exact hpos d hd hhigh
  · have := hpos (-d) (by linarith) (by linarith)
    rwa [contextRound_neg, abs_neg] at this

/-- A figure is near a known number that it is at most one off. -/
theorem matchesKnown_of_near {n : ℚ} {known : Finset ℚ} (hk : k ∈ known) (h : |n - k| ≤ 1)
    (relTol : ℚ) : matchesKnown n known relTol 1 = true := by
  refine decide_eq_true ⟨k, hk, ?_⟩
  have hround := abs_contextRound_le h
  have habs : |(|contextRound (n - k)|)| ≤ 1 := by rwa [abs_abs]
  exact (le_abs_self _).trans ((abs_contextRound_le habs).trans (le_max_left _ _))

end Known

/-- An answer that gives only numbers of the tool results or of the user, each as it is or with its
fraction rounded away, has nothing unexplained. -/
theorem restated_grounded {w : WordClass} {loads : List Char → Option Value}
    {outputs : List (List Char)} {user answer : List Char} (a : Layout w)
    (hclean : cleaned w answer = a.chars)
    (hlen : ∀ x ∈ a.figures, x.1.sign.isSome = true → x.1.length ≤ 28)
    (htold : ∀ x ∈ a.figures, ∃ k, Told w loads outputs user k ∧ |x.1.value - k| ≤ 1) :
    let report := checkAnswer w answer (collectKnownNumbers w loads outputs user)
    report.total = a.figures.length ∧ report.unexplained = [] ∧ report.grounded = report.checked := by
  have hnear : ∀ pn ∈ a.numbers,
      matchesKnown pn.value (collectKnownNumbers w loads outputs user) (1 / 1000) 1 = true := by
    intro pn hpn
    obtain ⟨x, hx, rfl⟩ := List.mem_map.mp hpn
    obtain ⟨k, hk, hdiff⟩ := htold x hx
    have hknown := mem_collectKnownNumbers hk
    exact matchesKnown_of_near hknown hdiff _
  rw [checkAnswer_layout a hclean hlen]
  refine ⟨rfl, ?_, ?_⟩
  · rw [List.map_eq_nil_iff, List.filter_eq_nil_iff]
    intro pn hpn
    rw [hnear pn hpn]
    simp
  · exact congrArg List.length (List.filter_congr fun pn hpn => by rw [hnear pn hpn, Bool.and_true])

def revenueResult : Value :=
  .obj [("revenue", .number (.float false 1234567 fiveTenths fiveTenths_ne_nil)),
    ("margins", .arr [.null, .number (.float false 12 fiveTenths fiveTenths_ne_nil)])]

theorem revenueAnswer_grounded :
    let loads := fun raw => if raw = dumps revenueResult then some revenueResult else none
    (checkAnswer plainWord "Выручка 1 234 567 MDL, маржа 12,5 %".toList
      (collectKnownNumbers plainWord loads [dumps revenueResult] [])).unexplained = [] := by
  intro loads
  have htold : ∀ (x : Number) (k : ℚ), revenueResult.Holds x → x.value? = some k →
      Told plainWord loads [dumps revenueResult] [] k := fun x k hx hk =>
    .result List.mem_cons_self (if_pos rfl) hx hk
  refine (restated_grounded revenueAnswer revenueAnswer_cleaned (by decide +kernel) fun x hx => ?_).2.1
  rcases List.mem_cons.mp hx with rfl | hx
  · exact ⟨_, htold _ _ (.field List.mem_cons_self (.number _)) rfl, by decide +kernel⟩
  · obtain rfl := List.mem_singleton.mp hx
    have hmargin : revenueResult.Holds (.float false 12 fiveTenths fiveTenths_ne_nil) :=
      .field (List.mem_cons_of_mem _ List.mem_cons_self)
        (.item (List.mem_cons_of_mem _ List.mem_cons_self) (.number _))
    exact ⟨_, htold _ _ hmargin rfl, by decide +kernel⟩

end Chic.Guardrail
