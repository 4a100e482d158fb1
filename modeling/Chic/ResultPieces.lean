import Chic.ToolResult

namespace Chic.Guardrail

/-- The punctuation that may follow a value. -/
def Piece.Closer (p : Piece) : Prop := ∃ c ∈ [',', '}', ']'], p = .char c .mark

def Piece.Break (p : Piece) : Prop := p = .char '\n' .notice

/-- What may follow a piece in a tool result that is cut. -/
def Next : Piece → Piece → Prop
  | .number _, q => q.Closer ∨ q.Break
  | .char c .string, q =>
    (∃ c', q = .char c' .string) ∨ (c = '"' ∧ (q.Closer ∨ q = .char ':' .mark)) ∨ q.Break
  | .char _ .exponent, q => (∃ c', q = .char c' .exponent) ∨ q.Closer ∨ q.Break
  | .char _ .cut, q => (∃ c', q = .char c' .cut) ∨ q.Break
  | .char c .mark, q =>
    if c = ',' ∨ c = ':' then q = .char ' ' .mark ∨ q.Break
    else if c = '}' ∨ c = ']' then q.Closer ∨ q.Break
    else q ≠ .char ' ' .mark ∧ ((∃ x, q = .number x) → c = ' ' ∨ c = '[')
  | .char _ .notice, q => ∃ c', q = .char c' .notice
  | .char _ .number, _ => False
  | .char _ .stripped, _ => False

/-- The characters of each origin. -/
def Piece.Sound : Piece → Prop
  | .number x => x.sep = none ∧ (∀ c, x.sign = some c → c = '-') ∧
    ∀ f, x.fraction = some f → f.1 = '.'
  | .char _ .string => True
  | .char c .exponent => isDigit c = true ∨ c ∈ ['.', 'e', '+', '-']
  | .char c .cut => isDigit c = true ∨ c ∈ ['.', 'e', '+', '-']
  | .char c .mark => isDigit c = false ∧ c ∉ ['`', 'h']
  | .char c .notice => isDigit c = false ∧ c ∉ ['`', 'h']
  | .char _ .number => False
  | .char _ .stripped => False

section Chains
variable {p q : Piece} {l rest : List Piece} {cs : List Char} {o : Origin} {c : Char}

/-- Pieces that may stand after an opening bracket or a blank. -/
structure Fits (l : List Piece) : Prop where
  chain : l.IsChain Next
  head : ∀ p, l.head? = some p → p ≠ .char ' ' .mark

structure Closing (l : List Piece) : Prop where
  chain : l.IsChain Next
  head : ∀ p, l.head? = some p → p.Closer

theorem Piece.Closer.ne_blank (h : p.Closer) : p ≠ .char ' ' .mark := by
  rintro rfl
  obtain ⟨c, hc, heq⟩ := h
  obtain rfl := (Piece.char.inj heq).1
  exact absurd hc (by decide)

theorem Closing.fits (h : Closing l) : Fits l := ⟨h.chain, fun p hp => (h.head p hp).ne_blank⟩

theorem next_mark (hcomma : c ∉ [',', ':']) (hclose : c ∉ ['}', ']']) (hq : q ≠ .char ' ' .mark)
    (hnumber : (∃ x, q = .number x) → c = ' ' ∨ c = '[') : Next (.char c .mark) q := by
  rw [Next, if_neg (by simpa using hcomma), if_neg (by simpa using hclose)]
  exact ⟨hq, hnumber⟩

theorem next_closer (hp : p.Closer) (hq : q.Closer) (hne : p ≠ .char ',' .mark) : Next p q := by
  obtain ⟨c, hc, rfl⟩ := hp
  have hmem : c = '}' ∨ c = ']' := by
    simp only [List.mem_cons, List.not_mem_nil, or_false] at hc
    rcases hc with rfl | h
    · exact absurd rfl hne
    · exact h
  rw [Next, if_neg (by rcases hmem with rfl | rfl <;> decide), if_pos hmem]
  exact .inl hq

theorem chain_cons (h : l.IsChain Next) (hnext : ∀ q, l.head? = some q → Next p q) :
    (p :: l).IsChain Next := List.isChain_cons.mpr ⟨hnext, h⟩

theorem chain_charPieces (hcs : ∀ c ∈ cs, ∀ c' ∈ cs, Next (.char c o) (.char c' o))
    (hl : l.IsChain Next) (hlast : ∀ c q, cs.getLast? = some c → l.head? = some q → Next (.char c o) q) :
    (charPieces o cs ++ l).IsChain Next := by
  induction cs with
  | nil => exact hl
  | cons c cs ih =>
    refine chain_cons (ih (fun a ha b hb => hcs a (List.mem_cons_of_mem _ ha) b
      (List.mem_cons_of_mem _ hb)) fun a q ha hq => ?_) fun q hq => ?_
    · cases cs with
      | nil => cases ha
      | cons d cs => exact hlast a q (by rwa [List.getLast?_cons_cons]) hq
    · cases cs with
      | nil => exact hlast c q rfl hq
      | cons d cs =>
        obtain rfl := Option.some.inj hq
        exact hcs c List.mem_cons_self d (by simp)

theorem fits_word (hcs : ∀ c ∈ cs, c ∉ [',', ':', '}', ']', ' ']) (hne : cs ≠ []) (hl : Closing l) :
    Fits (charPieces .mark cs ++ l) := by
  have hnext : ∀ c ∈ cs, ∀ q : Piece, q ≠ .char ' ' .mark → (∀ x, q ≠ .number x) →
      Next (.char c .mark) q := fun c hc q hq hx => by
    have := hcs c hc
    simp only [List.mem_cons, List.not_mem_nil, or_false, not_or] at this
    exact next_mark (by simp [this]) (by simp [this]) hq fun ⟨x, h⟩ => absurd h (hx x)
  refine ⟨chain_charPieces (fun c hc c' hc' => hnext c hc _ ?_ (by simp)) hl.chain
    fun c q hc hq => hnext c (List.mem_of_getLast? hc) q (hl.head q hq).ne_blank ?_, fun p hp => ?_⟩
  · intro h
    exact hcs c' hc' (by simp [(Piece.char.inj h).1])
  · rintro x rfl
    obtain ⟨c', -, h⟩ := hl.head _ hq
    cases h
  · obtain ⟨d, cs, rfl⟩ := List.exists_cons_of_ne_nil hne
    obtain rfl := Option.some.inj hp
    intro h
    exact hcs d List.mem_cons_self (by simp [(Piece.char.inj h).1])

theorem fits_string (s : String) (hl : l.IsChain Next)
    (hhead : ∀ q, l.head? = some q → q.Closer ∨ q = .char ':' .mark) : Fits (stringPieces s ++ l) := by
  refine ⟨chain_charPieces (fun c _ c' _ => .inl ⟨c', rfl⟩) hl fun c q hc hq => ?_, fun p hp => ?_⟩
  · rw [← List.cons_append, List.getLast?_append_of_ne_nil _ (List.cons_ne_nil _ _)] at hc
    obtain rfl := Option.some.inj hc
    exact .inr (.inl ⟨rfl, hhead q hq⟩)
  · obtain rfl := Option.some.inj hp
    simp

theorem chain_separator (hc : c = ',' ∨ c = ':') (hl : Fits l) :
    (charPieces .mark [c, ' '] ++ l).IsChain Next := by
  refine chain_cons (chain_cons hl.chain fun q hq => ?_) fun q hq => ?_
  · exact next_mark (by decide) (by decide) (hl.head q hq) fun _ => .inl rfl
  · obtain rfl := Option.some.inj hq
    rw [Next, if_pos hc]
    exact .inl rfl

theorem fits_number (x : Number) (hl : Closing l) : Fits (numberPieces x ++ l) := by
  cases x with
  | int n => exact ⟨chain_cons hl.chain fun q hq => .inl (hl.head q hq), by simp [numberPieces]⟩
  | float neg whole fraction hne =>
    exact ⟨chain_cons hl.chain fun q hq => .inl (hl.head q hq), by simp [numberPieces]⟩
  | exponent neg lead fraction e =>
    refine ⟨chain_charPieces (fun c _ c' _ => .inl ⟨c', rfl⟩) hl.chain
      fun c q _ hq => .inr (.inl (hl.head q hq)), fun p hp => ?_⟩
    cases neg <;> obtain rfl := Option.some.inj hp <;> simp
  | nan => exact fits_word (by decide) (by simp) hl
  | infinity neg => cases neg <;> exact fits_word (by decide) (by simp) hl

theorem closing_mark (hc : c = '}' ∨ c = ']') (hl : Closing l) : Closing (.char c .mark :: l) := by
  have hcloser : Piece.Closer (.char c .mark) := ⟨c, by rcases hc with rfl | rfl <;> simp, rfl⟩
  refine ⟨chain_cons hl.chain fun q hq => next_closer hcloser (hl.head q hq) ?_, fun p hp => ?_⟩
  · rcases hc with rfl | rfl <;> simp
  · exact Option.some.inj hp ▸ hcloser

theorem fits_open (hc : c = '[' ∨ c = '{') (hl : Fits l) (hnumber : c = '{' → ∀ x, l.head? ≠ some (.number x)) :
    Fits (.char c .mark :: l) := by
  refine ⟨chain_cons hl.chain fun q hq => next_mark ?_ ?_ (hl.head q hq) fun ⟨x, hx⟩ => ?_,
    fun p hp => ?_⟩
  · rcases hc with rfl | rfl <;> decide
  · rcases hc with rfl | rfl <;> decide
  · rcases hc with rfl | rfl
    · exact .inr rfl
    · exact absurd (hx ▸ hq) (hnumber rfl x)
  · obtain rfl := Option.some.inj hp
    rcases hc with rfl | rfl <;> simp

theorem fits_field (k : String) (hl : Fits l) :
    Fits (stringPieces k ++ (charPieces .mark [':', ' '] ++ l)) :=
  fits_string k (chain_separator (.inr rfl) hl) fun _ hq => .inr (Option.some.inj hq).symm

theorem closing_comma (hl : Fits l) : Closing (charPieces .mark [',', ' '] ++ l) :=
  ⟨chain_separator (.inl rfl) hl, fun _ hp => ⟨',', by simp, (Option.some.inj hp).symm⟩⟩

mutual
theorem fits_pieces : ∀ (v : Value) {l : List Piece}, Closing l → Fits (pieces v ++ l)
  | .null, _, hl => fits_word (by decide) (by simp) hl
  | .bool true, _, hl => fits_word (by decide) (by simp) hl
  | .bool false, _, hl => fits_word (by decide) (by simp) hl
  | .number x, _, hl => fits_number x hl
  | .str s, _, hl => fits_string s hl.chain fun q hq => .inl (hl.head q hq)
  | .arr [], _, hl => fits_open (.inl rfl) (closing_mark (.inr rfl) hl).fits fun h => absurd h (by decide)
  | .arr (v :: items), l, hl => by
    rw [pieces, List.cons_append, List.append_assoc]
    exact fits_open (.inl rfl) (fits_pieces v (closing_items items hl)) fun h => absurd h (by decide)
  | .obj [], _, hl => fits_open (.inr rfl) (closing_mark (.inl rfl) hl).fits fun _ x => by simp
  | .obj ((k, v) :: fields), l, hl => by
    rw [pieces, List.cons_append, List.append_assoc, List.append_assoc, List.append_assoc]
    exact fits_open (.inr rfl) (fits_field k (fits_pieces v (closing_fields fields hl)))
      fun _ x => by simp [stringPieces, charPieces]

theorem closing_items : ∀ (items : List Value) {l : List Piece}, Closing l →
    Closing (itemPieces items ++ l)
  | [], _, hl => closing_mark (.inr rfl) hl
  | v :: items, l, hl => by
    rw [itemPieces, List.append_assoc, List.append_assoc]
    exact closing_comma (fits_pieces v (closing_items items hl))

theorem closing_fields : ∀ (fields : List (String × Value)) {l : List Piece}, Closing l →
    Closing (fieldPieces fields ++ l)
  | [], _, hl => closing_mark (.inl rfl) hl
  | (k, v) :: fields, l, hl => by
    rw [fieldPieces, List.append_assoc, List.append_assoc, List.append_assoc, List.append_assoc]
    exact closing_comma (fits_field k (fits_pieces v (closing_fields fields hl)))
end

end Chains

section Sound
variable {p : Piece} {ps : List Piece} {cs : List Char} {o : Origin} {c : Char} {x : Numeral}

theorem sound_charPieces (h : ∀ c ∈ cs, (Piece.char c o).Sound) (hp : p ∈ charPieces o cs) :
    p.Sound := by
  obtain ⟨c, hc, rfl⟩ := List.mem_map.mp hp
  exact h c hc

theorem sound_plain (neg : Bool) (whole : ℕ) (fraction : List (Fin 10)) :
    (Piece.number (.plain neg whole fraction)).Sound := by
  refine ⟨rfl, fun c h => ?_, fun f h => ?_⟩
  · simp only [Numeral.plain] at h
    split_ifs at h
    exact (Option.some.inj h).symm
  · simp only [Numeral.plain] at h
    split_ifs at h
    exact (Option.some.inj h) ▸ rfl

theorem sound_numberPieces (x : Number) (hp : p ∈ numberPieces x) : p.Sound := by
  cases x with
  | int n => exact List.mem_singleton.mp hp ▸ sound_plain _ _ _
  | float neg whole fraction hne => exact List.mem_singleton.mp hp ▸ sound_plain _ _ _
  | exponent neg lead fraction e =>
    refine sound_charPieces (fun c hc => ?_) hp
    have hlead : isDigit (Nat.digitChar lead) = true := by
      rw [isDigit, PyTime.decimalDigit?_digitChar lead.isLt]
      rfl
    have hzero : isDigit '0' = true := by decide +kernel
    simp only [exponentChars, List.mem_append, List.mem_cons] at hc
    rcases hc with hc | rfl | hc | rfl | rfl | hc | hc
    · split_ifs at hc
      · exact .inr (List.mem_singleton.mp hc ▸ by simp)
      · cases hc
    · exact .inl hlead
    · split_ifs at hc
      · cases hc
      · rcases List.mem_cons.mp hc with rfl | hc
        · exact .inr (by simp)
        · exact .inl (isDigit_of_mem_map hc)
    · exact .inr (by simp)
    · exact .inr (by split_ifs <;> simp)
    · split_ifs at hc
      · exact .inl (List.mem_singleton.mp hc ▸ hzero)
      · cases hc
    · exact .inl (isDigit_of_mem_toDigits hc)
  | nan =>
    have hall : ∀ c ∈ ['N', 'a', 'N'], isDigit c = false ∧ c ∉ ['`', 'h'] := by decide +kernel
    exact sound_charPieces hall hp
  | infinity neg =>
    have hall : ∀ c ∈ ['-', 'I', 'n', 'f', 'i', 'n', 'i', 't', 'y'],
      isDigit c = false ∧ c ∉ ['`', 'h'] := by decide +kernel
    refine sound_charPieces (o := .mark) (fun c hc => hall c ?_) hp
    cases neg
    · exact List.mem_cons_of_mem _ hc
    · exact hc

end Sound

section Leaves
variable {p : Piece} {cs : List Char} {f g : Finset ℚ → Finset ℚ}

def markChars : List Char :=
  ['{', '}', '[', ']', ',', ':', ' ', 'n', 'u', 'l', 't', 'r', 'e', 'f', 'a', 's']

/-- A mark, a character of a string, or a piece of a number that is among the collected ones. -/
def Piece.Leaf (f : Finset ℚ → Finset ℚ) (p : Piece) : Prop :=
  (∃ c ∈ markChars, p = .char c .mark) ∨ (∃ c, p = .char c .string) ∨
    ∃ x, p ∈ numberPieces x ∧ ∀ acc n, x.value? = some n → n ∈ f acc

theorem Piece.Leaf.mono (h : p.Leaf f) (hfg : ∀ acc, ∃ acc', f acc' ⊆ g acc) : p.Leaf g := by
  refine h.imp_right (Or.imp_right ?_)
  rintro ⟨x, hx, hn⟩
  refine ⟨x, hx, fun acc n hvalue => ?_⟩
  obtain ⟨acc', hsub⟩ := hfg acc
  exact hsub (hn acc' n hvalue)

theorem leaf_marks (h : ∀ c ∈ cs, c ∈ markChars) (hp : p ∈ charPieces .mark cs) : p.Leaf f := by
  obtain ⟨c, hc, rfl⟩ := List.mem_map.mp hp
  exact .inl ⟨c, h c hc, rfl⟩

theorem leaf_string {s : String} (hp : p ∈ stringPieces s) : p.Leaf f := by
  obtain ⟨c, -, rfl⟩ := List.mem_map.mp hp
  exact .inr (.inl ⟨c, rfl⟩)

mutual
theorem subset_addJsonNumbers : ∀ (v : Value) (acc : Finset ℚ), acc ⊆ addJsonNumbers v acc
  | .null, acc => by rw [addJsonNumbers]
  | .bool _, acc => by rw [addJsonNumbers]
  | .str _, acc => by rw [addJsonNumbers]
  | .number x, acc => by
    rw [addJsonNumbers]
    split
    · exact Finset.subset_insert _ _
    · exact subset_rfl
  | .arr items, acc => by
    rw [addJsonNumbers]
    exact subset_addItems items acc
  | .obj fields, acc => by
    rw [addJsonNumbers]
    exact subset_addFields fields acc

theorem subset_addItems : ∀ (items : List Value) (acc : Finset ℚ), acc ⊆ addItems items acc
  | [], acc => by rw [addItems]
  | v :: items, acc => by
    rw [addItems]
    exact (subset_addJsonNumbers v acc).trans (subset_addItems items _)

theorem subset_addFields : ∀ (fields : List (String × Value)) (acc : Finset ℚ),
    acc ⊆ addFields fields acc
  | [], acc => by rw [addFields]
  | (_, v) :: fields, acc => by
    rw [addFields]
    exact (subset_addJsonNumbers v acc).trans (subset_addFields fields _)
end

mutual
theorem leaf_pieces : ∀ (v : Value) {p : Piece}, p ∈ pieces v → p.Leaf (addJsonNumbers v)
  | .null, _, hp => leaf_marks (by decide) hp
  | .bool true, _, hp => leaf_marks (by decide) hp
  | .bool false, _, hp => leaf_marks (by decide) hp
  | .number x, _, hp => .inr (.inr ⟨x, hp, fun acc n hn => by simp [addJsonNumbers, hn]⟩)
  | .str s, _, hp => leaf_string hp
  | .arr [], _, hp => leaf_marks (by decide) hp
  | .arr (v :: items), p, hp => by
    rw [pieces, List.mem_cons, List.mem_append] at hp
    rcases hp with rfl | hp | hp
    · exact .inl ⟨'[', by decide, rfl⟩
    · exact (leaf_pieces v hp).mono fun acc => ⟨acc, by
        rw [addJsonNumbers, addItems]
        exact subset_addItems items _⟩
    · exact (leaf_itemPieces items hp).mono fun acc => ⟨addJsonNumbers v acc, by
        rw [addJsonNumbers, addItems]⟩
  | .obj [], _, hp => leaf_marks (by decide) hp
  | .obj ((k, v) :: fields), p, hp => by
    rw [pieces, List.mem_cons, List.mem_append, List.mem_append, List.mem_append] at hp
    rcases hp with rfl | (hp | hp) | hp | hp
    · exact .inl ⟨'{', by decide, rfl⟩
    · exact leaf_string hp
    · exact leaf_marks (by decide) hp
    · exact (leaf_pieces v hp).mono fun acc => ⟨acc, by
        rw [addJsonNumbers, addFields]
        exact subset_addFields fields _⟩
    · exact (leaf_fieldPieces fields hp).mono fun acc => ⟨addJsonNumbers v acc, by
        rw [addJsonNumbers, addFields]⟩

theorem leaf_itemPieces : ∀ (items : List Value) {p : Piece}, p ∈ itemPieces items →
    p.Leaf (addItems items)
  | [], _, hp => leaf_marks (by decide) hp
  | v :: items, p, hp => by
    rw [itemPieces, List.mem_append, List.mem_append] at hp
    rcases hp with hp | hp | hp
    · exact leaf_marks (by decide) hp
    · exact (leaf_pieces v hp).mono fun acc => ⟨acc, by
        rw [addItems]
        exact subset_addItems items _⟩
    · exact (leaf_itemPieces items hp).mono fun acc => ⟨addJsonNumbers v acc, by rw [addItems]⟩

theorem leaf_fieldPieces : ∀ (fields : List (String × Value)) {p : Piece}, p ∈ fieldPieces fields →
    p.Leaf (addFields fields)
  | [], _, hp => leaf_marks (by decide) hp
  | (k, v) :: fields, p, hp => by
    rw [fieldPieces, List.mem_append, List.mem_append, List.mem_append, List.mem_append] at hp
    rcases hp with hp | (hp | hp) | hp | hp
    · exact leaf_marks (by decide) hp
    · exact leaf_string hp
    · exact leaf_marks (by decide) hp
    · exact (leaf_pieces v hp).mono fun acc => ⟨acc, by
        rw [addFields]
        exact subset_addFields fields _⟩
    · exact (leaf_fieldPieces fields hp).mono fun acc => ⟨addJsonNumbers v acc, by rw [addFields]⟩
end

theorem sound_pieces (v : Value) (hp : p ∈ pieces v) : p.Sound := by
  rcases leaf_pieces v hp with ⟨c, hc, rfl⟩ | ⟨c, rfl⟩ | ⟨x, hx, -⟩
  · have hall : ∀ c ∈ markChars, isDigit c = false ∧ c ∉ ['`', 'h'] := by decide +kernel
    exact hall c hc
  · trivial
  · exact sound_numberPieces x hx

/-- A number of the text is one that is collected from the object tree. -/
theorem value_mem (v : Value) {x : Numeral} (hx : .number x ∈ pieces v) (acc : Finset ℚ) :
    x.value ∈ addJsonNumbers v acc := by
  rcases leaf_pieces v hx with ⟨c, -, h⟩ | ⟨c, h⟩ | ⟨y, hy, hn⟩
  · cases h
  · cases h
  · refine hn acc _ ?_
    cases y with
    | int n =>
      obtain rfl : x = .plain (n < 0) n.natAbs [] := by simpa [numberPieces] using hy
      rcases lt_or_ge n 0 with h | h
      · have hn : (n : ℚ) = -(n.natAbs : ℤ) := by exact_mod_cast (show n = -(n.natAbs : ℤ) by omega)
        simpa [Number.value?, Numeral.value, Numeral.plain, Numeral.abs, h] using hn
      · have hn : (n : ℚ) = (n.natAbs : ℤ) := by exact_mod_cast (show n = (n.natAbs : ℤ) by omega)
        simpa [Number.value?, Numeral.value, Numeral.plain, Numeral.abs, not_lt.mpr h] using hn
    | float neg whole fraction hne =>
      obtain rfl : x = .plain neg whole fraction := by simpa [numberPieces] using hy
      cases neg <;> simp [Number.value?, Numeral.value, Numeral.plain, Numeral.abs, hne, fractionValue]
    | exponent neg lead fraction e => simp [numberPieces, charPieces] at hy
    | nan => simp [numberPieces, charPieces] at hy
    | infinity neg => simp [numberPieces, charPieces] at hy

end Leaves

end Chic.Guardrail
