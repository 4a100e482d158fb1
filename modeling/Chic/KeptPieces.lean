import Chic.ResultPieces

namespace Chic.Guardrail
open Backtrack PyText

section Cut
variable {p p₀ : Piece} {ps : List Piece} {x : Numeral} {c : Char} {n : ℕ}

/-- A cut may come after every piece. -/
theorem next_break (hsound : p.Sound) (hn : ∀ c, p ≠ .char c .notice) :
    Next p (.char '\n' .notice) := by
  rcases p with ⟨c, _ | _ | _ | _ | _ | _ | _⟩ | x
  · rw [Next]
    split_ifs
    · exact .inr rfl
    · exact .inr rfl
    · exact ⟨by simp, by simp⟩
  · exact .inr (.inr rfl)
  · exact hsound.elim
  · exact .inr (.inr rfl)
  · exact .inr rfl
  · exact absurd rfl (hn c)
  · exact hsound.elim
  · exact .inr rfl

/-- Where a number may stand a part of it may. -/
theorem next_cut (h : Next p (.number x)) (c : Char) : Next p (.char c .cut) := by
  rcases p with ⟨c', _ | _ | _ | _ | _ | _ | _⟩ | y
  · rw [Next] at h ⊢
    split_ifs at h ⊢
    · simp [Piece.Break] at h
    · simp [Piece.Break, Piece.Closer] at h
    · exact ⟨by simp, by simp⟩
  all_goals simp [Next, Piece.Closer, Piece.Break] at h

theorem chain_cutPieces (n : ℕ) (h : (p₀ :: ps).IsChain Next) : (p₀ :: cutPieces n ps).IsChain Next := by
  induction ps generalizing p₀ n with
  | nil => simp [cutPieces]
  | cons p ps ih =>
    obtain ⟨hnext, hchain⟩ := List.isChain_cons_cons.mp h
    rw [cutPieces]
    split_ifs with hlen
    · exact List.isChain_cons_cons.mpr ⟨hnext, ih _ hchain⟩
    · cases p with
      | char c o =>
        have hn : n = 0 := by
          simp only [Piece.tagged, List.length_singleton] at hlen
          omega
        subst hn
        exact .singleton p₀
      | number x =>
        have hcut : (charPieces .cut ((Piece.tagged (.number x)).take n |>.map Prod.fst) ++ []).IsChain
            Next :=
          chain_charPieces (fun c _ c' _ => .inl ⟨c', rfl⟩) .nil fun c q _ hq => by cases hq
        rw [List.append_nil] at hcut
        refine chain_cons hcut fun q hq => ?_
        obtain ⟨c, -, rfl⟩ := List.mem_map.mp (List.mem_of_mem_head? hq)
        exact next_cut hnext c

theorem mem_chars (h : (Piece.number x).Sound) (hc : c ∈ x.chars) :
    isDigit c = true ∨ c = '.' ∨ c = '-' := by
  obtain ⟨hsep, hsign, hfraction⟩ := h
  simp only [Numeral.chars, Numeral.integer, hsep, Option.elim_none, List.mem_append,
    Option.mem_toList] at hc
  rcases hc with (hc | hc) | hc
  · exact .inr (.inr (hsign c hc))
  · exact .inl (isDigit_of_mem_toDigits hc)
  · cases hf : x.fraction with
    | none =>
      rw [hf] at hc
      cases hc
    | some f =>
      rw [hf] at hc
      rcases List.mem_cons.mp hc with rfl | hc
      · exact .inr (.inl (hfraction f hf))
      · exact .inl (isDigit_of_mem_map hc)

theorem mem_cutPieces (h : ∀ p ∈ ps, p.Sound) (n : ℕ) (hp : p ∈ cutPieces n ps) :
    p ∈ ps ∨ ∃ c, p = .char c .cut ∧ p.Sound := by
  induction ps generalizing n with
  | nil => simp [cutPieces] at hp
  | cons p' ps ih =>
    rw [cutPieces] at hp
    split_ifs at hp with hlen
    · rcases List.mem_cons.mp hp with rfl | hp
      · exact .inl List.mem_cons_self
      · exact (ih (fun q hq => h q (List.mem_cons_of_mem _ hq)) _ hp).imp_left (List.mem_cons_of_mem _)
    · right
      obtain ⟨c, hc, rfl⟩ := List.mem_map.mp hp
      obtain ⟨y, hy, rfl⟩ := List.mem_map.mp hc
      have hmem := List.mem_of_mem_take hy
      have hsound := h p' List.mem_cons_self
      cases p' with
      | char c o =>
        have hn : n = 0 := by
          simp only [Piece.tagged, List.length_singleton] at hlen
          omega
        subst hn
        cases hy
      | number x =>
        obtain ⟨c, hchars, rfl⟩ := List.mem_map.mp hmem
        exact ⟨c, rfl, (mem_chars hsound hchars).imp_right fun h => by rcases h with rfl | rfl <;> simp⟩

theorem map_fst_charPieces (o : Origin) (cs : List Char) :
    (tagged (charPieces o cs)).map Prod.fst = cs := by
  induction cs with
  | nil => rfl
  | cons c cs ih => simpa [tagged, charPieces, Piece.tagged] using ih

theorem map_fst_cutPieces (n : ℕ) (ps : List Piece) :
    (tagged (cutPieces n ps)).map Prod.fst = ((tagged ps).map Prod.fst).take n := by
  induction ps generalizing n with
  | nil => simp [cutPieces, tagged]
  | cons p ps ih =>
    have hcons : ∀ qs, tagged (p :: qs) = p.tagged ++ tagged qs := fun qs => List.flatMap_cons
    rw [cutPieces, hcons ps, List.map_append]
    split_ifs with hlen
    · have hle : (p.tagged.map Prod.fst).length ≤ n := by rwa [List.length_map]
      rw [hcons, List.map_append, ih, List.take_append, List.take_of_length_le hle, List.length_map]
    · rw [map_fst_charPieces, List.map_take, List.take_append_of_le_length (by rw [List.length_map]; omega)]

end Cut

section Numbers
variable {x : Numeral} {a b l l₁ l₂ r u v rest : List Char} {c : Char}

def afterNumber : List Char := [',', '}', ']', '\n']

theorem isDigit_of_mem_afterNumber (h : c ∈ afterNumber) : isDigit c = false ∧ c ≠ '-' ∧ c ≠ '.' := by
  have hall : ∀ c ∈ afterNumber, isDigit c = false ∧ c ≠ '-' ∧ c ≠ '.' := by decide +kernel
  exact hall c h

theorem chars_of_sound (h : (Piece.number x).Sound) : x.chars = x.sign.toList ++
    (Nat.toDigits 10 x.whole ++ x.fraction.elim [] fun f => '.' :: f.2.map fun d : Fin 10 => Nat.digitChar d) := by
  obtain ⟨hsep, -, hfraction⟩ := h
  rw [Numeral.chars, Numeral.integer, hsep, List.append_assoc]
  cases hf : x.fraction with
  | none => rfl
  | some f => rw [Option.elim_some, Option.elim_some, hfraction f hf]; rfl

theorem not_mem_digits {ds : List Char} (h : ∀ c ∈ ds, isDigit c = true) (hc : isDigit c = false) :
    c ∉ ds := by
  intro hmem
  rw [h c hmem] at hc
  cases hc

theorem dash_first (h : (Piece.number x).Sound) (heq : x.chars = a ++ '-' :: b) : a = [] := by
  have hdash : isDigit '-' = false := by decide +kernel
  rw [chars_of_sound h] at heq
  obtain ⟨c, hc⟩ := split_left heq (by
    rw [List.mem_append, not_or]
    refine ⟨not_mem_digits (fun c => isDigit_of_mem_toDigits) hdash, ?_⟩
    cases x.fraction with
    | none => exact List.not_mem_nil
    | some f =>
      rw [Option.elim_some, List.mem_cons, not_or]
      exact ⟨by decide, not_mem_digits (fun c => isDigit_of_mem_map) hdash⟩)
  cases hs : x.sign with
  | none => simp [hs] at hc
  | some s => cases a with
    | nil => rfl
    | cons d a => simp [hs] at hc

theorem dot_once (h : (Piece.number x).Sound) (heq : x.chars = a ++ '.' :: b) : '.' ∉ b := by
  have hdot : isDigit '.' = false := by decide +kernel
  rw [chars_of_sound h, ← List.append_assoc] at heq
  obtain ⟨c, -, hc⟩ := split_right heq (by
    rw [List.mem_append, not_or]
    refine ⟨fun hmem => ?_, not_mem_digits (fun c => isDigit_of_mem_toDigits) hdot⟩
    exact absurd (h.2.1 '.' (Option.mem_toList.mp hmem)) (by decide))
  cases hf : x.fraction with
  | none => simp [hf] at hc
  | some f =>
    rw [hf, Option.elim_some] at hc
    have hds : '.' ∉ f.2.map fun d : Fin 10 => Nat.digitChar d :=
      not_mem_digits (fun c => isDigit_of_mem_map) hdot
    cases c with
    | nil =>
      obtain ⟨-, rfl⟩ := List.cons.inj hc
      exact hds
    | cons d c =>
      obtain ⟨-, hc⟩ := List.cons.inj hc
      exact absurd (hc ▸ List.mem_append_right c List.mem_cons_self) hds

theorem split_before (h : l₂ ++ rest = u ++ v) (hu : ∀ c ∈ u, c ∉ afterNumber)
    (hrest : ∀ c, rest.head? = some c → c ∈ afterNumber) : ∃ t, l₂ = u ++ t := by
  rcases List.append_eq_append_iff.mp h with ⟨t, hu', hrest'⟩ | ⟨t, hl, -⟩
  · cases t with
    | nil => exact ⟨[], by rw [hu', List.append_nil, List.append_nil]⟩
    | cons d t =>
      refine absurd (hrest d (by rw [hrest']; rfl)) (hu d ?_)
      rw [hu']
      exact List.mem_append_right _ List.mem_cons_self
  · exact ⟨t, hl⟩

theorem not_mem_afterNumber (h : isDigit c = true) : c ∉ afterNumber := by
  intro hmem
  rw [(isDigit_of_mem_afterNumber hmem).1] at h
  cases h

/-- Nothing is stripped from inside a number on. -/
theorem not_stripped (h : (Piece.number x).Sound) (hx : x.chars = l₁ ++ l₂) (hne : l₂ ≠ [])
    (hrest : ∀ c, rest.head? = some c → c ∈ afterNumber) (hl : l₂ ++ rest = l ++ r) : ¬Stripped l := by
  have hmem : ∀ c ∈ l₂, isDigit c = true ∨ c = '.' ∨ c = '-' := fun c hc =>
    mem_chars h (hx ▸ List.mem_append_right l₁ hc)
  -- a span that begins inside the number begins with one of its characters
  have hhead : ∀ c, l.head? = some c → c ∈ l₂ := by
    intro c hc
    obtain ⟨d, l₂, rfl⟩ := List.exists_cons_of_ne_nil hne
    cases l with
    | nil => cases hc
    | cons c' l =>
      obtain rfl := Option.some.inj hc
      rw [List.cons_append, List.cons_append] at hl
      exact (List.cons.inj hl).1 ▸ List.mem_cons_self
  have hnot : ∀ c ∈ ['`', 'h'], ¬(isDigit c = true ∨ c = '.' ∨ c = '-') := by decide +kernel
  intro hs
  cases hs with
  | code hh _ => exact hnot '`' (by decide) (hmem '`' (hhead _ hh))
  | link hh _ => exact hnot 'h' (by decide) (hmem 'h' (hhead _ hh))
  | @isoTime u v hu hdigit _ _ =>
    obtain ⟨t, ht⟩ := split_before (u := u ++ ['-']) (v := v ++ r) (by simpa using hl) (fun c hc => by
      rcases List.mem_append.mp hc with hc | hc
      · exact not_mem_afterNumber (hdigit c hc)
      · rw [List.mem_singleton.mp hc]
        decide) hrest
    have hnil := dash_first (a := l₁ ++ u) (b := t) h (by rw [hx, ht]; simp)
    exact hu (List.append_eq_nil_iff.mp hnil).2
  | @dotDate u v t hu hdigit hv hdigit' _ _ =>
    obtain ⟨t', ht⟩ := split_before (u := u ++ '.' :: (v ++ ['.'])) (v := t ++ r) (by simpa using hl)
      (fun c hc => by
        simp only [List.mem_append, List.mem_cons, List.not_mem_nil, or_false] at hc
        rcases hc with hc | rfl | hc | rfl
        · exact not_mem_afterNumber (hdigit c hc)
        · decide
        · exact not_mem_afterNumber (hdigit' c hc)
        · decide) hrest
    refine dot_once (a := l₁ ++ u) (b := v ++ '.' :: t') h (by rw [hx, ht]; simp) ?_
    simp

end Numbers

section Spans
variable {p q : Piece} {ps : List Piece} {l r : List (Char × Origin)} {x : Numeral} {c : Char} {o : Origin}

/-- A character of a string, of a number with an exponent or of one that is cut. -/
def Piece.Free (p : Piece) : Prop :=
  ∃ c o, p = .char c o ∧ o ∈ [Origin.string, Origin.exponent, Origin.cut]

/-- What a stripped span may end with. -/
def Piece.SpanEnd (p : Piece) : Prop := p.Free ∨ p.Closer ∨ p = .char ':' .mark

theorem tagged_cons (p : Piece) (ps : List Piece) : tagged (p :: ps) = p.tagged ++ tagged ps :=
  List.flatMap_cons

theorem exists_after (h : q.Closer ∨ q.Break) :
    ∃ c ∈ afterNumber, ∃ o, q = .char c o ∧ (c = ',' → o = .mark) := by
  rcases h with ⟨c, hc, rfl⟩ | h
  · exact ⟨c, (by decide : ∀ c ∈ [',', '}', ']'], c ∈ afterNumber) c hc, _, rfl, fun _ => rfl⟩
  · exact ⟨'\n', by decide, .notice, h, fun h => absurd h (by decide)⟩

theorem head?_after_number (h : (.number x :: ps).IsChain Next)
    (hc : ((tagged ps).map Prod.fst).head? = some c) : c ∈ afterNumber := by
  cases ps with
  | nil => cases hc
  | cons q ps =>
    obtain ⟨c', hc', o, rfl, -⟩ := exists_after (List.isChain_cons_cons.mp h).1
    obtain rfl := Option.some.inj hc
    exact hc'

/-- The pieces of a text that is walked through from a piece of a kind, by characters of a class. -/
theorem exists_walk {P : Piece → Prop} {C : Char → Prop} (hchar : ∀ p, P p → ∃ c o, p = .char c o)
    (hstep : ∀ p q, P p → Next p q → (∀ y, q.tagged.head? = some y → C y.1) → P q)
    (heq : tagged (p :: ps) = l ++ r) (hne : l ≠ []) (hchain : (p :: ps).IsChain Next)
    (hok : ∀ y ∈ l, C y.1) (hp : P p) :
    ∃ qs rest, p :: ps = qs ++ rest ∧ l = tagged qs ∧ qs ≠ [] ∧ ∀ q ∈ qs, P q := by
  induction l generalizing p ps with
  | nil => exact absurd rfl hne
  | cons y l ih =>
    obtain ⟨c, o, rfl⟩ := hchar p hp
    rw [tagged_cons, Piece.tagged, List.singleton_append, List.cons_append] at heq
    obtain ⟨rfl, htail⟩ := List.cons.inj heq
    rcases eq_or_ne l [] with rfl | hl
    · exact ⟨[.char c o], ps, rfl, rfl, by simp, by simpa using hp⟩
    · cases ps with
      | nil => exact absurd (List.append_eq_nil_iff.mp htail.symm).1 hl
      | cons q ps =>
        obtain ⟨hnext, hchain⟩ := List.isChain_cons_cons.mp hchain
        have hq : P q := hstep _ q hp hnext fun y hy => by
          refine hok y (List.mem_cons_of_mem _ ?_)
          have hhead : (tagged (q :: ps)).head? = some y := by
            rw [tagged_cons, List.head?_append, hy, Option.some_or]
          rw [htail, List.head?_append_of_ne_nil _ hl] at hhead
          exact List.mem_of_mem_head? hhead
        obtain ⟨qs, rest, hps, rfl, hqs, hall⟩ := ih htail hl hchain
          (fun y hy => hok y (List.mem_cons_of_mem _ hy)) hq
        refine ⟨.char c o :: qs, rest, by rw [hps]; rfl, by rw [tagged_cons]; rfl, by simp, ?_⟩
        exact List.forall_mem_cons.mpr ⟨hp, hall⟩

def Piece.Linked (p : Piece) : Prop :=
  (∃ c, p = .char c .string) ∨ p.Closer ∨ p = .char ':' .mark

/-- From a string, without white space: no further than the marks after it. -/
theorem link_step (hp : p.Linked) (hnext : Next p q)
    (hok : ∀ y, q.tagged.head? = some y → isSpace y.1 = false) : q.Linked := by
  have hbreak : ¬q.Break := by
    rintro rfl
    exact absurd (hok _ rfl) (by decide)
  have hblank : q ≠ .char ' ' .mark := by
    rintro rfl
    exact absurd (hok _ rfl) (by decide)
  rcases hp with ⟨c, rfl⟩ | ⟨c, hc, rfl⟩ | rfl
  · rcases hnext with h | ⟨-, h⟩ | h
    · exact .inl h
    · exact .inr h
    · exact absurd h hbreak
  · rw [Next] at hnext
    split_ifs at hnext with hcomma hclose
    · exact absurd hnext (not_or.mpr ⟨hblank, hbreak⟩)
    · exact .inr (.inl (hnext.resolve_right hbreak))
    · simp only [List.mem_cons, List.not_mem_nil, or_false] at hc
      exact absurd (hc.imp_left .inl) (not_or.mpr ⟨hcomma, hclose⟩)
  · rw [Next, if_pos (.inr rfl)] at hnext
    exact absurd hnext (not_or.mpr ⟨hblank, hbreak⟩)

def IsDateChar (c : Char) : Prop := isDigit c = true ∨ c ∈ ['-', ' ', 'T', ':', '.']

def Piece.Dated (p : Piece) : Prop :=
  ∃ c o, p = .char c o ∧ o ∈ [Origin.string, Origin.exponent, Origin.cut] ∧ IsDateChar c

/-- Among such characters there is no way out of a string or a number. -/
theorem date_step (hp : p.Dated) (hnext : Next p q)
    (hok : ∀ y, q.tagged.head? = some y → IsDateChar y.1) : q.Dated := by
  have hnot : ∀ c ∈ ['"', ',', '}', ']', '\n'], ¬IsDateChar c := by
    unfold IsDateChar
    decide +kernel
  have hbreak : ¬q.Break := by
    rintro rfl
    exact hnot '\n' (by decide) (hok _ rfl)
  have hcloser : ¬q.Closer := by
    rintro ⟨c, hc, rfl⟩
    exact hnot c ((by decide : ∀ c ∈ [',', '}', ']'], c ∈ ['"', ',', '}', ']', '\n']) c hc) (hok _ rfl)
  obtain ⟨c, o, rfl, ho, hc⟩ := hp
  simp only [List.mem_cons, List.not_mem_nil, or_false] at ho
  rcases ho with rfl | rfl | rfl
  · rcases hnext with ⟨c', rfl⟩ | ⟨rfl, -⟩ | h
    · exact ⟨c', _, rfl, by decide, hok _ rfl⟩
    · exact absurd hc (hnot '"' (by decide))
    · exact absurd h hbreak
  · rcases hnext with ⟨c', rfl⟩ | h | h
    · exact ⟨c', _, rfl, by decide, hok _ rfl⟩
    · exact absurd h hcloser
    · exact absurd h hbreak
  · rcases hnext with ⟨c', rfl⟩ | h
    · exact ⟨c', _, rfl, by decide, hok _ rfl⟩
    · exact absurd h hbreak

theorem tagged_append (ps qs : List Piece) : tagged (ps ++ qs) = tagged ps ++ tagged qs :=
  List.flatMap_append

theorem split_tagged {a b : List (Char × Origin)} {y : Char × Origin} (h : tagged ps = a ++ y :: b) :
    ∃ before p after u v, ps = before ++ p :: after ∧ a = tagged before ++ u ∧
      p.tagged = u ++ y :: v ∧ b = v ++ tagged after := by
  induction ps generalizing a with
  | nil => cases a <;> cases h
  | cons q ps ih =>
    rw [tagged_cons] at h
    rcases List.append_eq_append_iff.mp h with ⟨t, ha, ht⟩ | ⟨t, hq, ht⟩
    · obtain ⟨before, p, after, u, v, rfl, rfl, hp, hb⟩ := ih ht
      exact ⟨q :: before, p, after, u, v, rfl, by rw [ha, tagged_cons, List.append_assoc], hp, hb⟩
    · cases t with
      | nil =>
        rw [List.append_nil] at hq
        obtain ⟨before, p, after, u, v, rfl, hu, hp, hb⟩ := ih (a := []) ht.symm
        exact ⟨q :: before, p, after, u, v, rfl, by rw [tagged_cons, List.append_assoc, ← hu,
          List.append_nil, hq], hp, hb⟩
      | cons z t =>
        obtain ⟨rfl, rfl⟩ := List.cons.inj ht
        exact ⟨[], q, ps, a, t, rfl, rfl, hq, rfl⟩

theorem tagged_char_eq {u v : List (Char × Origin)} {y : Char × Origin}
    (h : (Piece.char c o).tagged = u ++ y :: v) : u = [] ∧ v = [] ∧ y = (c, o) := by
  cases u with
  | nil =>
    obtain ⟨rfl, rfl⟩ := List.cons.inj h
    exact ⟨rfl, rfl, rfl⟩
  | cons z u =>
    have := congrArg List.length h
    simp [Piece.tagged] at this

theorem map_fst_number (x : Numeral) : (Piece.number x).tagged.map Prod.fst = x.chars := by
  rw [Piece.tagged, List.map_map]
  exact List.map_id _

theorem free_of_sound (h : (Piece.char c o).Sound) (hc : isDigit c = true ∨ c ∈ ['`', 'h']) :
    (Piece.char c o).Free ∧ (c ∈ ['`', 'h'] → o = .string) := by
  have hnot : ∀ c ∈ ['`', 'h'], ¬(isDigit c = true ∨ c ∈ ['.', 'e', '+', '-']) := by decide +kernel
  have hmark : ¬(isDigit c = false ∧ c ∉ ['`', 'h']) := by
    rintro ⟨hdigit, hmem⟩
    rcases hc with hc | hc
    · rw [hdigit] at hc
      cases hc
    · exact hmem hc
  cases o with
  | mark => exact absurd h hmark
  | string => exact ⟨⟨c, _, rfl, by decide⟩, fun _ => rfl⟩
  | number => exact h.elim
  | exponent => exact ⟨⟨c, _, rfl, by decide⟩, fun hc => absurd h (hnot c hc)⟩
  | cut => exact ⟨⟨c, _, rfl, by decide⟩, fun hc => absurd h (hnot c hc)⟩
  | notice => exact absurd h hmark
  | stripped => exact h.elim

theorem exists_code (hsound : ∀ p ∈ ps, p.Sound) (heq : tagged ps = l ++ r)
    (hlast : (l.map Prod.fst).getLast? = some '`') : ∃ qs rest p, ps = qs ++ rest ∧ l = tagged qs ∧
      qs.getLast? = some p ∧ p.SpanEnd := by
  rw [List.getLast?_map] at hlast
  obtain ⟨y, hy, hy'⟩ := Option.map_eq_some_iff.mp hlast
  obtain ⟨l, rfl⟩ := List.getLast?_eq_some_iff.mp hy
  rw [List.append_assoc] at heq
  obtain ⟨before, p, after, u, v, rfl, rfl, hp, -⟩ := split_tagged heq
  have hps := hsound p (by simp)
  cases p with
  | number x =>
    have hmem : y.1 ∈ x.chars := by
      rw [← map_fst_number, hp]
      simp
    have hnot : ¬(isDigit '`' = true ∨ '`' = '.' ∨ '`' = '-') := by decide +kernel
    exact absurd (mem_chars hps hmem) (hy' ▸ hnot)
  | char c o =>
    obtain ⟨rfl, rfl, rfl⟩ := tagged_char_eq hp
    refine ⟨before ++ [.char c o], after, .char c o, by simp, by simp [tagged, Piece.tagged],
      by simp, .inl (free_of_sound hps (.inr ?_)).1⟩
    rw [show c = '`' from hy']
    decide

theorem chars_ne_nil (x : Numeral) (h : x.sep = none) : x.chars ≠ [] := by
  rw [Numeral.chars, Numeral.integer, h, List.append_assoc]
  exact List.append_ne_nil_of_right_ne_nil _ (List.append_ne_nil_of_left_ne_nil Nat.toDigits_ne_nil _)

/-- A walk ends with a piece of its kind. -/
theorem exists_span_of_walk {P : Piece → Prop} {qs rest : List Piece} (hps : p :: ps = qs ++ rest)
    (hne : qs ≠ []) (hall : ∀ q ∈ qs, P q) (hend : ∀ q, P q → q.SpanEnd) :
    qs.head? = some p ∧ ∃ q, qs.getLast? = some q ∧ q.SpanEnd := by
  obtain ⟨q, qs, rfl⟩ := List.exists_cons_of_ne_nil hne
  obtain ⟨rfl, -⟩ := List.cons.inj hps
  refine ⟨rfl, _, List.getLast?_eq_some_getLast hne, hend _ (hall _ (List.getLast_mem hne))⟩

/-- Whole pieces of a text that is stripped. -/
def WholeSpan (ps : List Piece) (l : List (Char × Origin)) : Prop :=
  ∃ qs rest p q, ps = qs ++ rest ∧ l = tagged qs ∧ (qs.head? = some p ∧ p.Free) ∧
    qs.getLast? = some q ∧ q.SpanEnd

theorem wholeSpan_code (hp : (Piece.char '`' o).Sound) (hsound : ∀ p ∈ ps, p.Sound)
    (heq : tagged (.char '`' o :: ps) = l ++ r) (hlast : (l.map Prod.fst).getLast? = some '`') :
    WholeSpan (.char '`' o :: ps) l := by
  obtain ⟨qs, rest, q, hps, hl, hq, hend⟩ := exists_code (List.forall_mem_cons.mpr ⟨hp, hsound⟩) heq hlast
  have hqs : qs ≠ [] := by
    rintro rfl
    cases hq
  obtain ⟨p, qs, rfl⟩ := List.exists_cons_of_ne_nil hqs
  obtain ⟨rfl, -⟩ := List.cons.inj hps
  exact ⟨_, rest, _, q, hps, hl, ⟨rfl, (free_of_sound hp (.inr (by decide))).1⟩, hq, hend⟩

theorem wholeSpan_link (hp : (Piece.char 'h' o).Sound) (hchain : (.char 'h' o :: ps).IsChain Next)
    (heq : tagged (.char 'h' o :: ps) = l ++ r) (hne : l ≠ []) (hok : ∀ y ∈ l, isSpace y.1 = false) :
    WholeSpan (.char 'h' o :: ps) l := by
  obtain ⟨hfree, hstring⟩ := free_of_sound hp (.inr (by decide))
  obtain rfl := hstring (by decide)
  have hchar : ∀ p : Piece, p.Linked → ∃ c o, p = .char c o := by
    rintro p (⟨c, rfl⟩ | ⟨c, -, rfl⟩ | rfl) <;> exact ⟨_, _, rfl⟩
  have hlink : (Piece.char 'h' .string).Linked := .inl ⟨'h', rfl⟩
  obtain ⟨qs, rest, hps, hl, hqs, hall⟩ := exists_walk (C := fun c => isSpace c = false) hchar
    (fun p q => link_step) heq hne hchain hok hlink
  obtain ⟨hfirst, q, hq, hend⟩ := exists_span_of_walk hps hqs hall
    fun q h => h.imp_left fun ⟨c, h⟩ => ⟨c, _, h, by decide⟩
  exact ⟨qs, rest, _, q, hps, hl, ⟨hfirst, hfree⟩, hq, hend⟩

theorem wholeSpan_date (hp : (Piece.char c o).Sound) (hchain : (.char c o :: ps).IsChain Next)
    (heq : tagged (.char c o :: ps) = l ++ r) (hne : l ≠ []) (hdigit : isDigit c = true)
    (hok : ∀ y ∈ l, IsDateChar y.1) : WholeSpan (.char c o :: ps) l := by
  obtain ⟨c', o', hchar, ho⟩ := (free_of_sound hp (.inl hdigit)).1
  obtain ⟨rfl, rfl⟩ := Piece.char.inj hchar
  have hchar : ∀ p : Piece, p.Dated → ∃ c o, p = .char c o := fun p ⟨c, o, h, _⟩ => ⟨c, o, h⟩
  obtain ⟨qs, rest, hps, hl, hqs, hall⟩ := exists_walk hchar (fun p q => date_step) heq hne hchain
    hok ⟨c, o, rfl, ho, .inl hdigit⟩
  obtain ⟨hfirst, q, hq, hend⟩ := exists_span_of_walk hps hqs hall
    fun q ⟨c, o, h, ho, _⟩ => .inl ⟨c, o, h, ho⟩
  exact ⟨qs, rest, _, q, hps, hl, ⟨hfirst, c, o, rfl, ho⟩, hq, hend⟩

theorem wholeSpan_of_stripped (hchain : ps.IsChain Next) (hsound : ∀ p ∈ ps, p.Sound)
    (heq : tagged ps = l ++ r) (hl : Stripped (l.map Prod.fst)) : WholeSpan ps l := by
  have hne : l ≠ [] := fun h => hl.ne_nil (by rw [h]; rfl)
  cases ps with
  | nil => exact absurd (List.append_eq_nil_iff.mp heq.symm).1 hne
  | cons p ps =>
    obtain ⟨hp, hps⟩ := List.forall_mem_cons.mp hsound
    cases p with
    -- no span begins with a number; else the kind of the span decides where it can end
    | number x =>
      have hchars : x.chars ++ (tagged ps).map Prod.fst = l.map Prod.fst ++ r.map Prod.fst := by
        rw [← map_fst_number, ← List.map_append, ← tagged_cons, heq, List.map_append]
      exact absurd hl (not_stripped hp (List.nil_append _).symm (chars_ne_nil x hp.1)
        (fun c => head?_after_number hchain) hchars)
    | char c o =>
      have hhead : (l.map Prod.fst).head? = some c := by
        have := congrArg List.head? heq
        rw [tagged_cons, List.head?_append_of_ne_nil _ hne] at this
        rw [List.head?_map, ← this]
        rfl
      generalize ht : l.map Prod.fst = t at hl hhead
      have hmem : ∀ y ∈ l, y.1 ∈ t := fun y hy => ht ▸ List.mem_map_of_mem hy
      cases hl with
      | code hh hlast =>
        obtain rfl : '`' = c := Option.some.inj (hh.symm.trans hhead)
        exact wholeSpan_code hp hps heq (ht ▸ hlast)
      | link hh hspace =>
        obtain rfl : 'h' = c := Option.some.inj (hh.symm.trans hhead)
        exact wholeSpan_link hp hchain heq hne fun y hy => hspace y.1 (hmem y hy)
      | @isoTime u v hu hdigit _ hv =>
        rw [List.head?_append_of_ne_nil _ hu] at hhead
        refine wholeSpan_date hp hchain heq hne (hdigit c (List.mem_of_mem_head? hhead)) fun y hy => ?_
        rcases List.mem_append.mp (hmem y hy) with h | h
        · exact .inl (hdigit _ h)
        · rcases List.mem_cons.mp h with h | h
          · exact .inr (by rw [h]; decide)
          · refine (hv _ h).imp_right fun h => ?_
            simp only [List.mem_cons, List.not_mem_nil, or_false] at h ⊢
            tauto
      | @dotDate u v t hu hdigit _ hdigit' _ hdigit'' =>
        rw [List.head?_append_of_ne_nil _ hu] at hhead
        refine wholeSpan_date hp hchain heq hne (hdigit c (List.mem_of_mem_head? hhead)) fun y hy => ?_
        have hy := hmem y hy
        simp only [List.mem_append, List.mem_cons] at hy
        rcases hy with h | h | h | h | h
        · exact .inl (hdigit _ h)
        · exact .inr (by rw [h]; decide)
        · exact .inl (hdigit' _ h)
        · exact .inr (by rw [h]; decide)
        · exact .inl (hdigit'' _ h)

end Spans

/-- What is left of the pieces where spans are replaced by blanks. -/
inductive Kept : List Piece → List Piece → Prop
  | nil : Kept [] []
  | keep (p : Piece) {ps ps' : List Piece} (h : Kept ps ps') : Kept (p :: ps) (p :: ps')
  | strip {qs rest ps' : List Piece} {p q : Piece} (hp : qs.head? = some p) (hfree : p.Free)
    (hq : qs.getLast? = some q) (hend : q.SpanEnd) (h : Kept rest ps') :
    Kept (qs ++ rest) (.char ' ' .stripped :: ps')

section Kept
variable {w : WordClass} {p q : Piece} {ps ps' : List Piece} {x : Numeral}

/-- Nothing is stripped from inside a number on. -/
theorem first_number_eq_none (hsound : (Piece.number x).Sound) (hchain : (.number x :: ps).IsChain Next)
    {l₁ l₂ b : List (Char × Origin)} (hl : (Piece.number x).tagged = l₁ ++ l₂) (hne : l₂ ≠ []) :
    ((stripPattern w).comap Prod.fst).first ⟨b, l₂ ++ tagged ps⟩ = none := by
  by_contra h
  obtain ⟨⟨a, q⟩, hfirst⟩ := Option.ne_none_iff_exists'.mp h
  obtain ⟨l, hrest, -, hstripped⟩ := (takes_strip w).comap _ a q (mem_of_first hfirst)
  have hchars : x.chars = l₁.map Prod.fst ++ l₂.map Prod.fst := by
    rw [← map_fst_number, hl, List.map_append]
  have hsplit : l₂.map Prod.fst ++ (tagged ps).map Prod.fst = l.map Prod.fst ++ q.rest.map Prod.fst := by
    rw [← List.map_append, ← List.map_append]
    exact congrArg (List.map Prod.fst) hrest
  exact not_stripped hsound hchars (by simpa using hne) (fun c => head?_after_number hchain) hsplit
    hstripped

theorem exists_kept (hchain : ps.IsChain Next) (hsound : ∀ p ∈ ps, p.Sound) (b : List (Char × Origin)) :
    ∃ ps', Kept ps ps' ∧ (scan ((stripPattern w).comap Prod.fst) ⟨b, tagged ps⟩).map
      (Sum.elim id fun _ => (' ', .stripped)) = tagged ps' := by
  have hproper : ((stripPattern w).comap (Prod.fst (α := Char) (β := Origin))).Proper :=
    (proper_strip w).comap
  -- on the length of the text: a span is taken off the front, or a piece that begins none
  induction hn : (tagged ps).length using Nat.strongRecOn generalizing ps b with
  | ind n ih =>
    cases hfirst : ((stripPattern w).comap Prod.fst).first ⟨b, tagged ps⟩ with
    | some z =>
      obtain ⟨a, q⟩ := z
      obtain ⟨l, hrest, hbefore, hl⟩ := (takes_strip w).comap _ a q (mem_of_first hfirst)
      obtain ⟨qs, rest, p, p', rfl, rfl, ⟨hp, hfree⟩, hq, hend⟩ :=
        wholeSpan_of_stripped hchain hsound hrest hl
      have hq' : q.rest = tagged rest :=
        List.append_cancel_left (hrest.symm.trans (tagged_append qs rest))
      obtain ⟨ps', hkept, hscan⟩ := ih q.rest.length (hn ▸ hproper.length_lt hfirst)
        hchain.right_of_append (fun p hp => hsound p (List.mem_append_right _ hp)) q.before
        (by rw [hq'])
      refine ⟨_, .strip hp hfree hq hend hkept, ?_⟩
      rw [scan_match hproper hfirst, List.map_cons, tagged_cons, ← hscan, ← hq']
      rfl
    | none =>
      cases ps with
      | nil => exact ⟨[], .nil, by rw [show tagged [] = [] from rfl, scan_nil hproper]; rfl⟩
      | cons p ps =>
        have hps : ∀ p ∈ ps, p.Sound := fun p hp => hsound p (List.mem_cons_of_mem _ hp)
        have hne : p.tagged ≠ [] := by
          cases p with
          | char c o => exact List.cons_ne_nil _ _
          | number x =>
            have := chars_ne_nil x (hsound _ List.mem_cons_self).1
            simpa [Piece.tagged] using this
        have hlt : (tagged ps).length < n := by
          have := List.length_pos_iff.mpr hne
          rw [← hn, tagged_cons, List.length_append]
          omega
        -- nothing is stripped from inside the piece on either
        have hnone : ∀ l₁ l₂, p.tagged = l₁ ++ l₂ → l₂ ≠ [] →
            ((stripPattern w).comap Prod.fst).first ⟨l₁.reverse ++ b, l₂ ++ tagged ps⟩ = none := by
          intro l₁ l₂ hl hne'
          cases p with
          | number x => exact first_number_eq_none (hsound _ List.mem_cons_self) hchain hl hne'
          | char c o =>
            obtain ⟨y, l₂, rfl⟩ := List.exists_cons_of_ne_nil hne'
            obtain ⟨rfl, rfl, rfl⟩ := tagged_char_eq hl
            exact hfirst
        obtain ⟨ps', hkept, hscan⟩ := ih _ hlt (List.isChain_cons.mp hchain).2 hps
          (p.tagged.reverse ++ b) rfl
        refine ⟨p :: ps', .keep p hkept, ?_⟩
        rw [tagged_cons, scan_skip hnone, List.map_append, hscan, tagged_cons, List.map_map]
        exact congrArg (· ++ tagged ps') (List.map_id p.tagged)

structure Apart (p q : Piece) : Prop where
  number : ∀ x, q = .number x → p = .char ' ' .mark ∨ p = .char '[' .mark
  blank : q = .char ' ' .mark → p = .char ',' .mark ∨ p = .char ':' .mark ∨ p = .char ' ' .stripped
  after : ∀ x, p = .number x → q.Closer ∨ q.Break
  comma : p = .char ',' .mark → q = .char ' ' .mark ∨ q.Break

theorem Piece.Free.ne_mark (h : p.Free) (c : Char) : p ≠ .char c .mark := by
  rintro rfl
  obtain ⟨c', o, heq, ho⟩ := h
  obtain ⟨-, rfl⟩ := Piece.char.inj heq
  exact absurd ho (by decide)

theorem Piece.Free.not_break (h : p.Free) : ¬p.Break := by
  rintro rfl
  obtain ⟨c', o, heq, ho⟩ := h
  obtain ⟨-, rfl⟩ := Piece.char.inj heq
  exact absurd ho (by decide)

theorem Piece.Free.not_closer (h : p.Free) : ¬p.Closer := fun ⟨c, _, heq⟩ => h.ne_mark c heq

theorem Piece.SpanEnd.ne_blank (h : p.SpanEnd) : p ≠ .char ' ' .mark ∧ p ≠ .char '[' .mark := by
  rcases h with h | ⟨c, hc, rfl⟩ | rfl
  · exact ⟨h.ne_mark ' ', h.ne_mark '['⟩
  · refine ⟨fun h => ?_, fun h => ?_⟩
    · obtain ⟨rfl, -⟩ := Piece.char.inj h
      exact absurd hc (by decide)
    · obtain ⟨rfl, -⟩ := Piece.char.inj h
      exact absurd hc (by decide)
  · simp

theorem apart_of_next (h : Next p q) : Apart p q := by
  have hnumber : ∀ x, ¬(Piece.number x).Closer ∧ ¬(Piece.number x).Break := fun x =>
    ⟨by simp [Piece.Closer], by simp [Piece.Break]⟩
  refine ⟨?_, ?_, ?_, ?_⟩
  · rintro x rfl
    rcases p with ⟨c, _ | _ | _ | _ | _ | _ | _⟩ | y
    · rw [Next] at h
      split_ifs at h
      · exact absurd h (by simp [hnumber])
      · exact absurd h (by simp [hnumber])
      · exact (h.2 ⟨x, rfl⟩).imp (fun h => by rw [h]) fun h => by rw [h]
    all_goals simp [Next, hnumber] at h
  · rintro rfl
    have hblank : ¬(Piece.char ' ' .mark).Closer := fun h => h.ne_blank rfl
    rcases p with ⟨c, _ | _ | _ | _ | _ | _ | _⟩ | y
    · rw [Next] at h
      split_ifs at h with hc
      · exact hc.imp (fun h => by rw [h]) fun h => .inl (by rw [h])
      · exact absurd h (by simp [hblank, Piece.Break])
      · exact absurd rfl h.1
    all_goals simp [Next, hblank, Piece.Break] at h
  · rintro x rfl
    exact h
  · rintro rfl
    rwa [Next, if_pos (.inl rfl)] at h

/-- Numbers stay apart where spans are replaced by blanks. -/
theorem apart_of_kept {p' : Piece} (h : Kept ps ps')
    (hp : p' = p ∨ p' = .char ' ' .stripped ∧ p.SpanEnd) (hchain : (p :: ps).IsChain Next) :
    (p' :: ps').IsChain Apart := by
  induction h generalizing p p' with
  | nil => exact .singleton p'
  | keep q _ ih =>
    obtain ⟨hnext, hchain⟩ := List.isChain_cons_cons.mp hchain
    refine List.isChain_cons_cons.mpr ⟨?_, ih (.inl rfl) hchain⟩
    have hapart := apart_of_next hnext
    rcases hp with rfl | ⟨rfl, hend⟩
    · exact hapart
    · refine ⟨fun x hx => ?_, fun _ => .inr (.inr rfl), by simp, by simp⟩
      exact ((hapart.number x hx).elim hend.ne_blank.1 hend.ne_blank.2).elim
  | @strip qs rest _ q₀ q hq₀ hfree hq hend _ ih =>
    obtain ⟨qs', rfl⟩ := List.getLast?_eq_some_iff.mp hq
    have hnext : Next p q₀ := by
      refine (List.isChain_cons.mp hchain).1 q₀ ?_
      rw [List.head?_append, hq₀]
      rfl
    have hapart := apart_of_next hnext
    have hrest : (q :: rest).IsChain Next := by
      rw [List.append_assoc, ← List.cons_append] at hchain
      exact hchain.right_of_append
    refine List.isChain_cons_cons.mpr ⟨⟨by simp, by simp, fun x hx => ?_, fun hx => ?_⟩,
      ih (.inr ⟨rfl, hend⟩) hrest⟩
    · rcases hp with rfl | ⟨rfl, -⟩
      · exact absurd (hapart.after x hx) (not_or.mpr ⟨hfree.not_closer, hfree.not_break⟩)
      · cases hx
    · rcases hp with rfl | ⟨rfl, -⟩
      · exact absurd (hapart.comma hx) (not_or.mpr ⟨hfree.ne_mark ' ', hfree.not_break⟩)
      · cases hx

end Kept

end Chic.Guardrail
