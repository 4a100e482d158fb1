import Chic.KeptPieces

namespace Chic.Guardrail
open Backtrack

section Contexts
variable {w : WordClass} {p : Piece} {a b ps ps' : List Piece} {x : Numeral}

theorem apart_of_chain {p₀ q : Piece} (h : (p₀ :: (a ++ [p] ++ q :: b)).IsChain Apart) : Apart p q := by
  rw [List.append_assoc, ← List.cons_append] at h
  exact (List.isChain_cons_cons.mp h.right_of_append).1

theorem map_fst_append_char (a : List Piece) (c : Char) (o : Origin) :
    (tagged (a ++ [.char c o])).map Prod.fst = (tagged a).map Prod.fst ++ [c] := by
  rw [tagged_append, List.map_append]
  rfl

theorem last_two {l b : List Char} {c d s : Char} (h : l ++ [c] = b ++ [d, s]) :
    c = s ∧ l.getLast? = some d := by
  have hsplit : b ++ [d, s] = (b ++ [d]) ++ [s] := by simp
  obtain ⟨rfl, hs⟩ := List.append_inj' (h.trans hsplit) rfl
  exact ⟨List.singleton_injective hs, List.getLast?_concat⟩

theorem opens_of_apart (h : (.char '[' .mark :: (a ++ .number x :: b)).IsChain Apart) :
    Opens w ((tagged a).map Prod.fst) := by
  rcases List.eq_nil_or_concat' a with rfl | ⟨a, p, rfl⟩
  · exact ⟨fun c hc => absurd hc (by simp [tagged]), fun b d s hb => absurd hb (by simp [tagged])⟩
  have hlast : ∀ c ∈ [' ', '['], w.isWord c = false ∧ isPoint c = false ∧ isMinus c = false := by
    intro c hc
    refine ⟨w.other c ?_, (by decide : ∀ c ∈ [' ', '['], isPoint c = false ∧ isMinus c = false) c hc⟩
    exact (by decide : ∀ c ∈ [' ', '['], c ∈ [' ', '\u00a0', '\u202f', '-', '−', '[']) c hc
  have hend : ∀ c₀ ∈ [' ', '['], ∀ c, ((tagged a).map Prod.fst ++ [c₀]).getLast? = some c →
      w.isWord c = false ∧ isPoint c = false ∧ isMinus c = false := by
    intro c₀ hc₀ c hc
    rw [List.getLast?_concat] at hc
    exact Option.some.inj hc ▸ hlast c₀ hc₀
  rcases (apart_of_chain h).number x rfl with rfl | rfl
  · rw [map_fst_append_char]
    refine ⟨hend ' ' (by decide), fun b' d s hb hd => ?_⟩
    -- the blank comes after a comma, a colon or what is stripped
    obtain ⟨-, hd'⟩ := last_two hb
    rcases List.eq_nil_or_concat' a with rfl | ⟨a, q, rfl⟩
    · cases hd'
    · have hblank : (.char '[' .mark :: (a ++ [q] ++ .char ' ' .mark :: (.number x :: b))).IsChain
          Apart := by simpa using h
      have hq : ∃ c ∈ [',', ':', ' '], ∃ o, q = .char c o := by
        rcases (apart_of_chain hblank).blank rfl with rfl | rfl | rfl
        · exact ⟨',', by decide, _, rfl⟩
        · exact ⟨':', by decide, _, rfl⟩
        · exact ⟨' ', by decide, _, rfl⟩
      obtain ⟨c, hc, o, rfl⟩ := hq
      rw [map_fst_append_char, List.getLast?_concat] at hd'
      have hall : ∀ c ∈ [',', ':', ' '], isDigit c = false := by decide +kernel
      rw [← Option.some.inj hd', hall c hc] at hd
      cases hd
  · rw [map_fst_append_char]
    refine ⟨hend '[' (by decide), fun b' d s hb hd => ?_⟩
    obtain ⟨rfl, -⟩ := last_two hb
    decide

theorem closes_of_apart (h : (.number x :: b).IsChain Apart) : Closes ((tagged b).map Prod.fst) := by
  cases b with
  | nil => exact ⟨by simp [tagged], by simp [tagged], by simp [tagged]⟩
  | cons q b =>
    obtain ⟨hnext, hchain⟩ := List.isChain_cons_cons.mp h
    obtain ⟨c, hc, o, rfl, ho⟩ := exists_after (hnext.after x rfl)
    have hall : ∀ c ∈ afterNumber, isDigit c = false ∧ isSep c = false ∧ (isPoint c = true → c = ',') := by
      decide +kernel
    obtain ⟨hdigit, hsep, hpoint⟩ := hall c hc
    refine ⟨fun c' hc' => Option.some.inj hc' ▸ hdigit, fun s x y z rest heq hs => ?_,
      fun p d rest heq hp => ?_⟩
    · rw [← (List.cons.inj heq).1, hsep] at hs
      cases hs
    · obtain ⟨rfl, hrest⟩ := List.cons.inj heq
      obtain rfl := hpoint hp
      obtain rfl := ho rfl
      -- after a comma a blank or the end of the cut
      cases b with
      | nil => cases hrest
      | cons r b =>
        have hr : ∃ c ∈ [' ', '\n'], ∃ o, r = .char c o := by
          rcases (List.isChain_cons_cons.mp hchain).1.comma rfl with rfl | hbreak
          · exact ⟨' ', by decide, _, rfl⟩
          · exact ⟨'\n', by decide, _, hbreak⟩
        obtain ⟨c, hc, o, rfl⟩ := hr
        obtain ⟨rfl, -⟩ := List.cons.inj hrest
        exact (by decide +kernel : ∀ c ∈ [' ', '\n'], isDigit c = false) c hc

end Contexts

section Shown
variable {p : Piece} {x : Numeral} {ps ps' : List Piece}

/-- The notice has no digits and begins no span. -/
theorem sound_notice (hp : p ∈ charPieces .notice cutNotice) : p.Sound := by
  have hall : ∀ c ∈ cutNotice, isDigit c = false ∧ c ∉ ['`', 'h'] := by decide +kernel
  exact sound_charPieces hall hp

theorem sound_shownPieces (v : Value) (hp : p ∈ shownPieces v) : p.Sound := by
  rcases List.mem_append.mp hp with hp | hp
  · rcases mem_cutPieces (fun q => sound_pieces v) _ hp with hp | ⟨c, rfl, hc⟩
    · exact sound_pieces v hp
    · exact hc
  · exact sound_notice hp

theorem ne_notice (v : Value) (hp : p ∈ pieces v) (c : Char) : p ≠ .char c .notice := by
  rintro rfl
  rcases leaf_pieces v hp with ⟨c', -, h⟩ | ⟨c', h⟩ | ⟨x, hx, -⟩
  · cases h
  · cases h
  · cases x <;> simp [numberPieces, charPieces] at hx

theorem number_mem_pieces (v : Value) (hx : .number x ∈ shownPieces v) : .number x ∈ pieces v := by
  rcases List.mem_append.mp hx with hx | hx
  · rcases mem_cutPieces (fun q => sound_pieces v) _ hx with hx | ⟨c, h, -⟩
    · exact hx
    · cases h
  · simp [charPieces] at hx

theorem chain_shownPieces (v : Value) : (.char '[' .mark :: shownPieces v).IsChain Next := by
  have hfits : Fits (pieces v) := by
    have := fits_pieces v (l := []) ⟨.nil, by simp⟩
    rwa [List.append_nil] at this
  have hpieces : (.char '[' .mark :: pieces v).IsChain Next :=
    chain_cons hfits.chain fun q hq => next_mark (by decide) (by decide) (hfits.head q hq) fun _ => .inr rfl
  have hnotice : (charPieces .notice cutNotice ++ []).IsChain Next :=
    chain_charPieces (fun c _ c' _ => ⟨c', rfl⟩) .nil fun c q _ hq => by cases hq
  rw [List.append_nil] at hnotice
  rw [shownPieces, ← List.cons_append]
  refine List.isChain_append.mpr ⟨chain_cutPieces _ hpieces, hnotice, fun p hp q hq => ?_⟩
  obtain rfl : .char '\n' .notice = q := Option.some.inj hq
  rcases List.mem_cons.mp (List.mem_of_mem_getLast? hp) with rfl | hp
  · have hopen : isDigit '[' = false ∧ '[' ∉ ['`', 'h'] := by decide +kernel
    exact next_break hopen (by simp)
  · rcases mem_cutPieces (fun q => sound_pieces v) _ hp with hp | ⟨c, rfl, hc⟩
    · exact next_break (sound_pieces v hp) (ne_notice v hp)
    · exact next_break hc (by simp)

theorem map_fst_shown {v : Value} (h : maxToolResultChars < (dumps v).length) :
    (shown v).map Prod.fst = forward v := by
  rw [shown, shownPieces, tagged_append, List.map_append, map_fst_cutPieces, map_fst_charPieces,
    forward, truncate, if_neg (not_le.mpr h)]
  rfl

theorem mem_of_kept (h : Kept ps ps') (hp : p ∈ ps') : p ∈ ps ∨ p = .char ' ' .stripped := by
  induction h with
  | nil => exact .inl hp
  | keep q _ ih =>
    rcases List.mem_cons.mp hp with rfl | hp
    · exact .inl List.mem_cons_self
    · exact (ih hp).imp_left (List.mem_cons_of_mem _)
  | strip _ _ _ _ _ ih =>
    rcases List.mem_cons.mp hp with rfl | hp
    · exact .inr rfl
    · exact (ih hp).imp_left (List.mem_append_right _)

/-- What figures are searched in: pieces that are shown and blanks that stand for spans. -/
theorem exists_searched (w : WordClass) (v : Value) : ∃ ps,
    sub ((stripPattern w).comap Prod.fst) (' ', .stripped) (shown v) = tagged ps ∧
      (.char '[' .mark :: ps).IsChain Apart ∧
        ∀ p ∈ ps, p ∈ shownPieces v ∨ p = .char ' ' .stripped := by
  have hchain := chain_shownPieces v
  obtain ⟨ps, hkept, hscan⟩ := exists_kept (w := w) (List.isChain_cons.mp hchain).2
    (fun p => sound_shownPieces v) []
  exact ⟨ps, hscan, apart_of_kept hkept (.inl rfl) hchain, fun p => mem_of_kept hkept⟩

end Shown

section Figures
variable {w : WordClass} {v : Value} {x : Numeral} {y : Char × Origin} {n : ℚ}

/-- A digit that is found is of a string or a number. -/
theorem origin_of_digit {p : Piece} (hp : p.Sound) (hy : y ∈ p.tagged) (hdigit : isDigit y.1 = true) :
    y.2 ∈ [Origin.string, .exponent, .cut] ∨ ∃ x, p = .number x := by
  cases p with
  | number x => exact .inr ⟨x, rfl⟩
  | char c o =>
    obtain rfl := List.mem_singleton.mp hy
    obtain ⟨⟨c', o', heq, ho⟩, -⟩ := free_of_sound hp (.inl hdigit)
    obtain ⟨-, rfl⟩ := Piece.char.inj heq
    exact .inl ho

/-- A figure with a digit of a number is that number. -/
theorem figure_of_number {ps : List Piece} (hchain : (.char '[' .mark :: ps).IsChain Apart)
    {m : Match (Char × Origin) Figure} (hm : m ∈ findIter ((numberPattern w).comap Prod.fst) (tagged ps))
    (hy : y ∈ m.text) (hnumber : ∀ p ∈ ps, y ∈ p.tagged → ∃ x, p = .number x) :
    ∃ x, .number x ∈ ps ∧ m.value = x.figure := by
  obtain ⟨⟨t, htext, -⟩, hrest⟩ := mem_findIter (proper_number w).comap hm
  obtain ⟨a, b, hab⟩ := List.append_of_mem hy
  have hsplit : tagged ps = (t ++ a) ++ y :: (b ++ m.stop.rest) := by
    rw [show tagged ps = t ++ m.start.rest from htext, hrest, hab]
    simp
  obtain ⟨pre, p, suf, u, u', rfl, hbefore, hp, hafter⟩ := split_tagged hsplit
  obtain ⟨x, rfl⟩ := hnumber p (by simp) (by rw [hp]; simp)
  refine ⟨x, by simp, ?_⟩
  have hchars : (tagged (pre ++ .number x :: suf)).map Prod.fst =
      (tagged pre).map Prod.fst ++ (x.chars ++ (tagged suf).map Prod.fst) := by
    rw [tagged_append, tagged_cons, List.map_append, List.map_append, map_fst_number]
  obtain ⟨before, after, hfind, hleft, hright⟩ := findIter_numeral (w := w) x
    (opens_of_apart hchain) (closes_of_apart (List.isChain_cons.mp hchain).2.right_of_append)
  rw [← hchars, findIter_comap (proper_number w)] at hfind
  have hmem : m.map Prod.fst ∈ (findIter ((numberPattern w).comap Prod.fst)
      (tagged (pre ++ .number x :: suf))).map (Match.map Prod.fst) := List.mem_map_of_mem hm
  have hlen : x.chars.length = u.length + 1 + u'.length := by
    rw [← map_fst_number, hp]
    simp
    omega
  have hstop : b.length + m.stop.rest.length = u'.length + (tagged suf).length := by
    rw [← List.length_append, hafter, List.length_append]
  rw [hfind] at hmem
  rcases List.mem_append.mp hmem with h | h
  · -- a match before the number ends before it
    have hle : x.chars.length + (tagged suf).length ≤ m.stop.rest.length := by
      simpa [Match.map, Pos.map] using hleft _ h
    omega
  rcases List.mem_cons.mp h with heq | h
  · exact congrArg Match.value heq
  · have hle : m.start.rest.length ≤ (tagged suf).length := by
      simpa [Match.map, Pos.map] using hright _ h
    rw [hrest, hab, List.length_append, List.length_append, List.length_cons] at hle
    omega

theorem mem_addFigures {text : List Char} {known : Finset ℚ} :
    n ∈ addFigures w text known ↔ n ∈ known ∨ ∃ pn ∈ extractNumbers w text, pn.value = n := by
  rw [addFigures]
  generalize extractNumbers w text = pns
  induction pns generalizing known with
  | nil => simp
  | cons pn pns ih =>
    rw [List.foldl_cons, ih, Finset.mem_insert]
    simp only [List.exists_mem_cons_iff]
    constructor
    · rintro ((rfl | h) | h)
      · exact .inr (.inl rfl)
      · exact .inl h
      · exact .inr (.inr h)
    · rintro (h | rfl | h)
      · exact .inl (.inr h)
      · exact .inl (.inl rfl)
      · exact .inr h

theorem addFigures_nil (w : WordClass) (known : Finset ℚ) : addFigures w [] known = known := by
  have hsub : cleaned w [] = [] := by rw [cleaned, sub, Pos.start, scan_nil (proper_strip w)]; rfl
  rw [addFigures, extractNumbers, hsub, findIter, Pos.start, scan_nil (proper_number w)]
  rfl

theorem collectKnownNumbers_some {loads : List Char → Option Value} {raw : List Char}
    (h : loads raw = some v) : collectKnownNumbers w loads [raw] [] = addJsonNumbers v ∅ := by
  rw [collectKnownNumbers, addFigures_nil, List.foldl_cons, List.foldl_nil, h]

theorem mem_collectKnownNumbers_none {loads : List Char → Option Value} {raw : List Char}
    (h : loads raw = none) :
    n ∈ collectKnownNumbers w loads [raw] [] ↔ ∃ pn ∈ extractNumbers w raw, pn.value = n := by
  rw [collectKnownNumbers, addFigures_nil, List.foldl_cons, List.foldl_nil, h, mem_addFigures,
    or_iff_right (Finset.notMem_empty n)]

theorem mem_extractNumbers (hlong : maxToolResultChars < (dumps v).length) :
    (∃ pn ∈ extractNumbers w (forward v), pn.value = n) ↔ ∃ m ∈ figures w (shown v), m.value.value = n := by
  have hclean : cleaned w (forward v) =
      (sub ((stripPattern w).comap Prod.fst) (' ', Origin.stripped) (shown v)).map Prod.fst := by
    rw [cleaned, ← map_fst_shown hlong, ← sub_comap (proper_strip w)]
  rw [extractNumbers, hclean, findIter_comap (proper_number w), List.map_map, ← figures]
  simp only [List.mem_map, exists_exists_and_eq_and]
  rfl

end Figures

/-- A number collected from a result that is cut is one of its numbers, unless the digits of its
figure are all of strings, of numbers with an exponent or of the number that the cut goes through,
or it is a negative number of more than 28 digits, rounded. -/
theorem truncated_known (w : WordClass) (loads : List Char → Option Value) (v : Value) (n : ℚ)
    (hlong : maxToolResultChars < (dumps v).length) (hloads : loads (dumps v) = some v)
    (hcut : loads (forward v) = none) (hn : n ∈ collectKnownNumbers w loads [forward v] []) :
    n ∈ collectKnownNumbers w loads [dumps v] [] ∨
      (∃ m ∈ figures w (shown v), m.value.value = n ∧
        ∀ y ∈ m.text, isDigit y.1 = true → y.2 ∈ [Origin.string, .exponent, .cut]) ∨
      ∃ x, .number x ∈ pieces v ∧ x.sign.isSome = true ∧ 28 < x.length ∧ n = contextRound x.value := by
  rw [mem_collectKnownNumbers_none hcut, mem_extractNumbers hlong] at hn
  obtain ⟨m, hm, hvalue⟩ := hn
  rw [collectKnownNumbers_some hloads]
  obtain ⟨ps, htagged, hchain, hmem⟩ := exists_searched w v
  have hsound : ∀ p ∈ ps, ∀ y ∈ p.tagged, isDigit y.1 = true →
      y.2 ∈ [Origin.string, .exponent, .cut] ∨ ∃ x, p = .number x := by
    intro p hp y hy hdigit
    rcases hmem p hp with hp | rfl
    · exact origin_of_digit (sound_shownPieces v hp) hy hdigit
    · obtain rfl := List.mem_singleton.mp hy
      exact absurd hdigit (by decide +kernel)
  -- a figure with a digit of a number piece is this number, as it ends where the piece ends
  by_cases hfree : ∀ y ∈ m.text, isDigit y.1 = true → y.2 ∈ [Origin.string, .exponent, .cut]
  · exact .inr (.inl ⟨m, hm, hvalue, hfree⟩)
  push Not at hfree
  obtain ⟨y, hy, hdigit, hnot⟩ := hfree
  rw [figures, htagged] at hm
  obtain ⟨x, hx, hfigure⟩ := figure_of_number hchain hm hy fun p hp hyp =>
    (hsound p hp y hyp hdigit).resolve_left hnot
  have hx' : .number x ∈ pieces v := by
    rcases hmem _ hx with h | h
    · exact number_mem_pieces v h
    · cases h
  rw [hfigure] at hvalue
  by_cases hlen : x.sign.isSome = true → x.length ≤ 28
  · rw [value_figure x hlen] at hvalue
    exact .inl (hvalue ▸ value_mem v hx' ∅)
  · push Not at hlen
    refine .inr (.inr ⟨x, hx', hlen.1, hlen.2, ?_⟩)
    rw [← hvalue, Figure.value_eq, abs_figure, Numeral.value, if_pos hlen.1,
      show x.figure.sign = x.sign from rfl, if_pos hlen.1]

/-- A product with a figure in its name and a long note. -/
@[irreducible] def namedTea : Value :=
  .obj [("name", .str "Чай 500 г"), ("note", .str (String.ofList (List.replicate maxToolResultChars 'x')))]

/-- What parses the text of `namedTea` and nothing else. -/
def loadsTea (text : List Char) : Option Value :=
  if text = dumps namedTea then some namedTea else none

def fiveHundred : Numeral := .plain false 500 []

def teaBefore : List Char := ['{', '"', 'n', 'a', 'm', 'e', '"', ':', ' ', '"', 'Ч', 'а', 'й', ' ']

def teaAfter : List Char := [' ', 'г', '"', ',', ' ', '"', 'n', 'o', 't', 'e', '"', ':', ' ', '"']

theorem dumps_namedTea : dumps namedTea = teaBefore ++ (fiveHundred.chars ++
    (teaAfter ++ (List.replicate maxToolResultChars 'x' ++ ['"', '}']))) := by
  have hx : escapeChar 'x' = ['x'] := by decide +kernel
  have hname : "Чай 500 г".toList.flatMap escapeChar = "Чай 500 г".toList := by decide +kernel
  have hkey : ∀ s ∈ ["name", "note"], s.toList.flatMap escapeChar = s.toList := by decide +kernel
  have hchars : fiveHundred.chars = ['5', '0', '0'] := by decide +kernel
  have hcons : ∀ c o ps, tagged (.char c o :: ps) = (c, o) :: tagged ps := fun _ _ _ => rfl
  simp only [dumps, namedTea, pieces, fieldPieces, stringPieces, hcons, tagged_append, List.map_cons,
    List.map_append, map_fst_charPieces, String.toList_ofList, List.flatMap_replicate, hx, hname,
    hkey "name" (by decide), hkey "note" (by decide), List.flatten_replicate_singleton, hchars]
  simp [teaBefore, teaAfter]

theorem long_namedTea : maxToolResultChars < (dumps namedTea).length := by
  have htail : ['"', '}'].length = 2 := rfl
  rw [dumps_namedTea]
  simp only [List.length_append, List.length_replicate, htail]
  omega

def teaNote : List Char := List.replicate (maxToolResultChars - 31) 'x' ++ cutNotice

theorem forward_namedTea : forward namedTea = teaBefore ++ (fiveHundred.chars ++ (teaAfter ++ teaNote)) := by
  have hhead : (teaBefore ++ (fiveHundred.chars ++ teaAfter)).length = 31 := by decide +kernel
  have hmax : 31 ≤ maxToolResultChars := by decide
  have hsplit : dumps namedTea = (teaBefore ++ (fiveHundred.chars ++ teaAfter)) ++
      (List.replicate maxToolResultChars 'x' ++ ['"', '}']) := by
    rw [dumps_namedTea]
    simp only [List.append_assoc]
  have htake : (dumps namedTea).take maxToolResultChars =
      (teaBefore ++ (fiveHundred.chars ++ teaAfter)) ++ List.replicate (maxToolResultChars - 31) 'x' := by
    rw [hsplit, List.take_append, List.take_of_length_le (by omega), hhead, List.take_append_of_le_length
      (by simp), List.take_replicate, Nat.min_eq_left (Nat.sub_le _ _)]
  rw [forward, truncate, if_neg (not_le.mpr long_namedTea), htake, teaNote]
  simp only [List.append_assoc]

theorem loadsTea_forward : loadsTea (forward namedTea) = none := by
  have hlast : (forward namedTea).getLast? = some ']' := by
    rw [forward, truncate, if_neg (not_le.mpr long_namedTea), List.getLast?_append_of_ne_nil _ (by decide)]
    decide +kernel
  have hne : forward namedTea ≠ dumps namedTea := by
    intro h
    rw [h, dumps_namedTea] at hlast
    simp only [← List.append_assoc] at hlast
    rw [List.getLast?_append_of_ne_nil _ (List.cons_ne_nil _ _)] at hlast
    exact absurd hlast (by decide)
  rw [loadsTea, if_neg hne]

theorem loadsTea_dumps : loadsTea (dumps namedTea) = some namedTea := if_pos rfl

theorem addJsonNumbers_namedTea (acc : Finset ℚ) : addJsonNumbers namedTea acc = acc := by
  simp only [namedTea, addJsonNumbers, addFields]

theorem fiveHundred_mem : (500 : ℚ) ∈ collectKnownNumbers plainWord loadsTea [forward namedTea] [] := by
  have hopen : Opens plainWord teaBefore := by
    refine ⟨fun c hc => ?_, fun b d s h hd => ?_⟩
    · obtain rfl : ' ' = c := Option.some.inj hc
      decide +kernel
    · have hlast : some 'й' = some d :=
        calc some 'й' = teaBefore.reverse[1]? := by decide +kernel
          _ = some d := by rw [h]; simp
      rw [← Option.some.inj hlast] at hd
      exact absurd hd (by decide +kernel)
  have hclose : Closes (teaAfter ++ teaNote) := by
    refine ⟨fun c hc => ?_, fun s x y z rest h _ hd => ?_, fun p d rest h hp => ?_⟩
    · obtain rfl : ' ' = c := Option.some.inj hc
      decide +kernel
    · obtain ⟨-, h⟩ := List.cons.inj h
      obtain ⟨rfl, -⟩ := List.cons.inj h
      exact absurd hd.1 (by decide +kernel)
    · obtain ⟨rfl, -⟩ := List.cons.inj h
      exact absurd hp (by decide)
  have hclean : cleaned plainWord (forward namedTea) = forward namedTea := by
    refine cleaned_eq_self fun c hc => ?_
    have hall : ∀ c ∈ teaBefore ++ (fiveHundred.chars ++ (teaAfter ++ 'x' :: cutNotice)),
        c ∉ ['`', 'h', '-', '.'] := by decide +kernel
    refine hall c ?_
    rw [forward_namedTea, teaNote] at hc
    simp only [List.mem_append, List.mem_replicate, List.mem_cons] at hc ⊢
    tauto
  obtain ⟨before, after, hfind, -, -⟩ := findIter_numeral fiveHundred hopen hclose
  have hvalue : fiveHundred.figure.value = 500 := by
    rw [value_figure fiveHundred (by decide +kernel)]
    decide +kernel
  have hmem : parsed ⟨fiveHundred.figure, ⟨teaBefore.reverse, fiveHundred.chars ++ (teaAfter ++ teaNote)⟩,
      ⟨fiveHundred.chars.reverse ++ teaBefore.reverse, teaAfter ++ teaNote⟩⟩ ∈
        extractNumbers plainWord (forward namedTea) := by
    rw [extractNumbers, hclean, forward_namedTea, hfind]
    exact List.mem_map_of_mem (List.mem_append_right _ List.mem_cons_self)
  rw [mem_collectKnownNumbers_none loadsTea_forward]
  exact ⟨_, hmem, hvalue⟩

theorem namedTea_foreign : maxToolResultChars < (dumps namedTea).length ∧
    loadsTea (dumps namedTea) = some namedTea ∧ loadsTea (forward namedTea) = none ∧
    (500 : ℚ) ∈ collectKnownNumbers plainWord loadsTea [forward namedTea] [] ∧
    (500 : ℚ) ∉ collectKnownNumbers plainWord loadsTea [dumps namedTea] [] := by
  refine ⟨long_namedTea, loadsTea_dumps, loadsTea_forward, fiveHundred_mem, ?_⟩
  rw [collectKnownNumbers_some loadsTea_dumps, addJsonNumbers_namedTea]
  exact Finset.notMem_empty 500

/-- The figure is of a string. -/
theorem namedTea_figure : ∃ m ∈ figures plainWord (shown namedTea), m.value.value = 500 ∧
    ∀ y ∈ m.text, isDigit y.1 = true → y.2 ∈ [Origin.string, .exponent, .cut] := by
  rcases truncated_known plainWord loadsTea namedTea 500 long_namedTea loadsTea_dumps loadsTea_forward
    fiveHundred_mem with h | h | ⟨x, hx, -⟩
  · rw [collectKnownNumbers_some loadsTea_dumps, addJsonNumbers_namedTea] at h
    exact absurd h (Finset.notMem_empty 500)
  · exact h
  · have := value_mem namedTea hx ∅
    rw [addJsonNumbers_namedTea] at this
    exact absurd this (Finset.notMem_empty _)

end Chic.Guardrail
