import Mathlib.Data.List.Sort
import Mathlib.Data.String.Basic
import Mathlib.Tactic.Common
import Mathlib.Tactic.NormNum

namespace Chic

/-- A JSON value whose numbers are integers, objects in the order of their fields. -/
inductive Json
  | null
  | bool (b : Bool)
  | int (n : ℤ)
  | str (s : String)
  | arr (items : List Json)
  | obj (fields : List (String × Json))

namespace Json

def hex4 (n : ℕ) : List Char :=
  [Nat.digitChar (n / 4096 % 16), Nat.digitChar (n / 256 % 16), Nat.digitChar (n / 16 % 16),
    Nat.digitChar (n % 16)]

def shortEscapes : List (Char × Char) :=
  [('"', '"'), ('\\', '\\'), ('\n', 'n'), ('\r', 'r'), ('\t', 't'), ('\x08', 'b'), ('\x0c', 'f')]

/-- `ensure_ascii`: what is not printable ASCII goes as `\uXXXX`, beyond the basic plane as two
of these. -/
def escapeChar (c : Char) : List Char :=
  match shortEscapes.find? (·.1 = c) with
  | some (_, k) => ['\\', k]
  | none =>
    if 32 ≤ c.toNat ∧ c.toNat ≤ 126 then [c]
    else if c.toNat < 0x10000 then '\\' :: 'u' :: hex4 c.toNat
    else
      '\\' :: 'u' :: (hex4 (0xD800 + (c.toNat - 0x10000) / 0x400) ++
        '\\' :: 'u' :: hex4 (0xDC00 + (c.toNat - 0x10000) % 0x400))

def renderString (s : String) : List Char := '"' :: (s.toList.flatMap escapeChar ++ ['"'])

def renderInt (n : ℤ) : List Char :=
  if n < 0 then '-' :: Nat.toDigits 10 n.natAbs else Nat.toDigits 10 n.natAbs

mutual
/-- The text of `json.dumps` with its separators `", "` and `": "`. -/
def render : Json → List Char
  | .null => ['n', 'u', 'l', 'l']
  | .bool true => ['t', 'r', 'u', 'e']
  | .bool false => ['f', 'a', 'l', 's', 'e']
  | .int n => renderInt n
  | .str s => renderString s
  | .arr [] => ['[', ']']
  | .arr (item :: items) => '[' :: (render item ++ renderItems items)
  | .obj [] => ['{', '}']
  | .obj ((k, v) :: fields) =>
    '{' :: (renderString k ++ ':' :: ' ' :: (render v ++ renderFields fields))

def renderItems : List Json → List Char
  | [] => [']']
  | item :: items => ',' :: ' ' :: (render item ++ renderItems items)

def renderFields : List (String × Json) → List Char
  | [] => ['}']
  | (k, v) :: fields =>
    ',' :: ' ' :: (renderString k ++ ':' :: ' ' :: (render v ++ renderFields fields))
end

mutual
/-- `sort_keys`. -/
def sortKeys : Json → Json
  | .arr items => .arr (sortItems items)
  | .obj fields => .obj ((sortFields fields).insertionSort fun a b => a.1 ≤ b.1)
  | j => j

def sortItems : List Json → List Json
  | [] => []
  | item :: items => sortKeys item :: sortItems items

def sortFields : List (String × Json) → List (String × Json)
  | [] => []
  | (k, v) :: fields => (k, sortKeys v) :: sortFields fields
end

/-- `json.dumps(j, sort_keys=True)`. -/
def dumps (j : Json) : String := String.ofList (render (sortKeys j))

section Strings
variable {s t : List Char}

theorem digitChar_inj {m n : ℕ} (hm : m < 16) (hn : n < 16)
    (h : Nat.digitChar m = Nat.digitChar n) : m = n := by
  have hall : ∀ i j : Fin 16, Nat.digitChar i = Nat.digitChar j → i = j := by decide
  exact congrArg Fin.val (hall ⟨m, hm⟩ ⟨n, hn⟩ h)

theorem hex4_reads {m n : ℕ} (hm : m < 0x10000) (hn : n < 0x10000)
    (h : hex4 m ++ s = hex4 n ++ t) : m = n ∧ s = t := by
  simp only [hex4, List.cons_append, List.nil_append, List.cons.injEq] at h
  obtain ⟨h₁, h₂, h₃, h₄, hst⟩ := h
  have h₁ := digitChar_inj (Nat.mod_lt _ (by decide)) (Nat.mod_lt _ (by decide)) h₁
  have h₂ := digitChar_inj (Nat.mod_lt _ (by decide)) (Nat.mod_lt _ (by decide)) h₂
  have h₃ := digitChar_inj (Nat.mod_lt _ (by decide)) (Nat.mod_lt _ (by decide)) h₃
  have h₄ := digitChar_inj (Nat.mod_lt _ (by decide)) (Nat.mod_lt _ (by decide)) h₄
  refine ⟨?_, hst⟩
  omega

/-- The four forms of an escaped character. -/
inductive Escaped (c : Char) : List Char → Prop
  | short {k} (h : (c, k) ∈ shortEscapes) : Escaped c ['\\', k]
  | plain (h : c ≠ '\\') (hq : c ≠ '"') : Escaped c [c]
  | basic (h : c.toNat < 0x10000) : Escaped c ('\\' :: 'u' :: hex4 c.toNat)
  | pair (h : 0x10000 ≤ c.toNat) :
    Escaped c
      ('\\' :: 'u' :: (hex4 (0xD800 + (c.toNat - 0x10000) / 0x400) ++
        '\\' :: 'u' :: hex4 (0xDC00 + (c.toNat - 0x10000) % 0x400)))

theorem escaped (c : Char) : Escaped c (escapeChar c) := by
  unfold escapeChar
  split
  case h_1 c' k hfind =>
    have hc : c' = c := by simpa using List.find?_some hfind
    exact .short (hc ▸ List.mem_of_find?_eq_some hfind)
  case h_2 hfind =>
    split_ifs with hplain hbasic
    · refine .plain ?_ ?_ <;> intro h <;> rw [h] at hfind <;> exact absurd hfind (by decide)
    · exact .basic hbasic
    · exact .pair (not_lt.mp hbasic)

/-- A character is a Unicode scalar value, no half of a pair. -/
theorem toNat_scalar (c : Char) :
    c.toNat < 0xD800 ∨ (0xDFFF < c.toNat ∧ c.toNat < 0x110000) := c.valid

theorem shortEscapes_inj {a b k : Char} (ha : (a, k) ∈ shortEscapes) (hb : (b, k) ∈ shortEscapes) :
    a = b := by
  have hall : ∀ p ∈ shortEscapes, ∀ q ∈ shortEscapes, p.2 = q.2 → p.1 = q.1 := by decide
  exact hall _ ha _ hb rfl

theorem shortEscapes_ne_u {a k : Char} (h : (a, k) ∈ shortEscapes) : k ≠ 'u' := by
  have hall : ∀ p ∈ shortEscapes, p.2 ≠ 'u' := by decide
  exact hall _ h

theorem escapeChar_reads {a b : Char} (h : escapeChar a ++ s = escapeChar b ++ t) :
    a = b ∧ s = t := by
  have ha := escaped a
  have hb := escaped b
  have hsa := toNat_scalar a
  have hsb := toNat_scalar b
  generalize escapeChar a = ea at h ha
  generalize escapeChar b = eb at h hb
  cases ha with
  | short hk =>
    cases hb with
    | short hk' =>
      simp only [List.cons_append, List.nil_append, List.cons.injEq, true_and] at h
      obtain ⟨rfl, rfl⟩ := h
      exact ⟨shortEscapes_inj hk hk', rfl⟩
    | plain hne => exact (hne (List.cons.inj h).1.symm).elim
    | basic => exact (shortEscapes_ne_u hk (List.cons.inj (List.cons.inj h).2).1).elim
    | pair => exact (shortEscapes_ne_u hk (List.cons.inj (List.cons.inj h).2).1).elim
  | plain hne =>
    cases hb with
    | short => exact (hne (List.cons.inj h).1).elim
    | plain =>
      simp only [List.cons_append, List.nil_append, List.cons.injEq] at h
      exact h
    | basic => exact (hne (List.cons.inj h).1).elim
    | pair => exact (hne (List.cons.inj h).1).elim
  | basic hlt =>
    cases hb with
    | short hk => exact (shortEscapes_ne_u hk (List.cons.inj (List.cons.inj h).2).1.symm).elim
    | plain hne => exact (hne (List.cons.inj h).1.symm).elim
    | basic hlt' =>
      obtain ⟨hcode, hst⟩ := hex4_reads hlt hlt' (List.cons.inj (List.cons.inj h).2).2
      exact ⟨Char.toNat_inj.mp hcode, hst⟩
    | pair hge =>
      -- the first half of a pair is no character
      simp only [List.cons_append, List.append_assoc, List.cons.injEq, true_and] at h
      have := (hex4_reads hlt (by omega) h).1
      omega
  | pair hge =>
    cases hb with
    | short hk => exact (shortEscapes_ne_u hk (List.cons.inj (List.cons.inj h).2).1.symm).elim
    | plain hne => exact (hne (List.cons.inj h).1.symm).elim
    | basic hlt =>
      simp only [List.cons_append, List.append_assoc, List.cons.injEq, true_and] at h
      have := (hex4_reads (by omega) hlt h).1
      omega
    | pair hge' =>
      simp only [List.cons_append, List.append_assoc, List.cons.injEq, true_and] at h
      obtain ⟨hhigh, h⟩ := hex4_reads (by omega) (by omega) h
      simp only [List.cons.injEq, true_and] at h
      obtain ⟨hlow, hst⟩ := hex4_reads (by omega) (by omega) h
      refine ⟨Char.toNat_inj.mp ?_, hst⟩
      omega

theorem escapeChar_ne_quote (c : Char) : escapeChar c ++ s ≠ '"' :: t := by
  have hc := escaped c
  generalize escapeChar c = e at hc
  cases hc with
  | plain _ hq => exact fun h => hq (List.cons.inj h).1
  | _ => exact fun h => absurd (List.cons.inj h).1 (by decide)

theorem escaped_reads {as bs : List Char}
    (h : as.flatMap escapeChar ++ '"' :: s = bs.flatMap escapeChar ++ '"' :: t) :
    as = bs ∧ s = t := by
  induction as generalizing bs with
  | nil =>
    cases bs with
    | nil => exact ⟨rfl, (List.cons.inj h).2⟩
    | cons b bs =>
      rw [List.flatMap_cons, List.append_assoc] at h
      exact (escapeChar_ne_quote b h.symm).elim
  | cons a as ih =>
    cases bs with
    | nil =>
      rw [List.flatMap_cons, List.append_assoc] at h
      exact (escapeChar_ne_quote a h).elim
    | cons b bs =>
      rw [List.flatMap_cons, List.flatMap_cons, List.append_assoc, List.append_assoc] at h
      obtain ⟨hab, htail⟩ := escapeChar_reads h
      obtain ⟨htail, hst⟩ := ih htail
      exact ⟨by rw [hab, htail], hst⟩

theorem renderString_reads {a b : String} (h : renderString a ++ s = renderString b ++ t) :
    a = b ∧ s = t := by
  simp only [renderString, List.cons_append, List.append_assoc, List.nil_append, List.cons.injEq,
    true_and] at h
  obtain ⟨hab, hst⟩ := escaped_reads h
  exact ⟨String.toList_inj.mp hab, hst⟩

end Strings

section Numbers
variable {s t : List Char}

/-- What follows a value does not go on with a digit. -/
def Stops (s : List Char) : Prop := ∀ c ∈ s.head?, c.isDigit = false

theorem takeWhile_isDigit {ds : List Char} (hd : ∀ c ∈ ds, c.isDigit = true) (hs : Stops s) :
    (ds ++ s).takeWhile Char.isDigit = ds := by
  rw [List.takeWhile_append_of_pos hd]
  cases s with
  | nil => simp
  | cons c s =>
    have hc : c.isDigit = false := hs c rfl
    simp [hc]

theorem toDigits_isDigit (n : ℕ) : ∀ c ∈ Nat.toDigits 10 n, c.isDigit = true := fun _ hc =>
  Nat.isDigit_of_mem_toDigits (by decide) (by decide) hc

theorem toDigits_reads {m n : ℕ} (hs : Stops s) (ht : Stops t)
    (h : Nat.toDigits 10 m ++ s = Nat.toDigits 10 n ++ t) : m = n ∧ s = t := by
  have hdigits := congrArg (List.takeWhile Char.isDigit) h
  rw [takeWhile_isDigit (toDigits_isDigit m) hs, takeWhile_isDigit (toDigits_isDigit n) ht] at hdigits
  have hvalue := congrArg (fun l => Nat.ofDigitChars 10 l 0) hdigits
  simp only [Nat.ofDigitChars_ten_toDigits] at hvalue
  subst hvalue
  exact ⟨rfl, List.append_cancel_left h⟩

theorem toDigits_head (n : ℕ) : ∃ c cs, Nat.toDigits 10 n = c :: cs ∧ c.isDigit = true := by
  cases hn : Nat.toDigits 10 n with
  | nil => exact (Nat.toDigits_ne_nil hn).elim
  | cons c cs => exact ⟨c, cs, rfl, toDigits_isDigit n c (by simp [hn])⟩

theorem minus_ne_toDigits (n : ℕ) : '-' :: s ≠ Nat.toDigits 10 n ++ t := by
  obtain ⟨c, cs, hn, hc⟩ := toDigits_head n
  rw [hn]
  intro h
  rw [← (List.cons.inj h).1] at hc
  exact absurd hc (by decide)

theorem renderInt_reads {m n : ℤ} (hs : Stops s) (ht : Stops t)
    (h : renderInt m ++ s = renderInt n ++ t) : m = n ∧ s = t := by
  unfold renderInt at h
  split_ifs at h with hm hn hn
  · obtain ⟨habs, hst⟩ := toDigits_reads hs ht (List.cons.inj h).2
    exact ⟨by omega, hst⟩
  · exact (minus_ne_toDigits _ h).elim
  · exact (minus_ne_toDigits _ h.symm).elim
  · obtain ⟨habs, hst⟩ := toDigits_reads hs ht h
    exact ⟨by omega, hst⟩

end Numbers

section Values

/-- Induction with the items of an array and the values of an object. -/
@[elab_as_elim]
theorem induct {P : Json → Prop} (null : P .null) (bool : ∀ b, P (.bool b))
    (int : ∀ n, P (.int n)) (str : ∀ s, P (.str s))
    (arr : ∀ items, (∀ j ∈ items, P j) → P (.arr items))
    (obj : ∀ fields, (∀ e ∈ fields, P e.2) → P (.obj fields)) (j : Json) : P j := by
  apply @Json.rec P (fun items => ∀ j ∈ items, P j) (fun fields => ∀ e ∈ fields, P e.2)
    (fun e => P e.2) null bool int str arr obj
  · exact fun j hj => nomatch hj
  · intro j items hj hitems j' hj'
    rcases List.mem_cons.mp hj' with rfl | hmem
    · exact hj
    · exact hitems j' hmem
  · exact fun e he => nomatch he
  · intro e fields he hfields e' he'
    rcases List.mem_cons.mp he' with rfl | hmem
    · exact he
    · exact hfields e' hmem
  · exact fun _ _ hv => hv

def Opens : Json → Char → Prop
  | .null, c => c = 'n'
  | .bool true, c => c = 't'
  | .bool false, c => c = 'f'
  | .int _, c => c = '-' ∨ c.isDigit = true
  | .str _, c => c = '"'
  | .arr _, c => c = '['
  | .obj _, c => c = '{'

theorem render_opens (j : Json) : ∃ c cs, render j = c :: cs ∧ Opens j c := by
  cases j with
  | null => exact ⟨_, _, rfl, rfl⟩
  | bool b => cases b <;> exact ⟨_, _, rfl, rfl⟩
  | int n =>
    rw [render, renderInt]
    split_ifs
    · exact ⟨_, _, rfl, .inl rfl⟩
    · obtain ⟨c, cs, hn, hc⟩ := toDigits_head n.natAbs
      exact ⟨c, cs, hn, .inr hc⟩
  | str s => exact ⟨_, _, rfl, rfl⟩
  | arr items => cases items <;> exact ⟨_, _, rfl, rfl⟩
  | obj fields => cases fields <;> exact ⟨_, _, rfl, rfl⟩

theorem opens_of_reads {a b : Json} {s t : List Char} (h : render a ++ s = render b ++ t) :
    ∃ c, Opens a c ∧ Opens b c := by
  obtain ⟨c, cs, ha, hca⟩ := render_opens a
  obtain ⟨d, ds, hb, hdb⟩ := render_opens b
  rw [ha, hb] at h
  exact ⟨c, hca, (List.cons.inj h).1 ▸ hdb⟩

inductive SameKind : Json → Json → Prop
  | null : SameKind .null .null
  | bool (b) : SameKind (.bool b) (.bool b)
  | int (m n) : SameKind (.int m) (.int n)
  | str (s t) : SameKind (.str s) (.str t)
  | arr (items items') : SameKind (.arr items) (.arr items')
  | obj (fields fields') : SameKind (.obj fields) (.obj fields')

theorem sameKind_of_opens {a b : Json} {c : Char} (ha : Opens a c) (hb : Opens b c) :
    SameKind a b := by
  rcases a with _ | (_ | _) | _ | _ | _ | _ <;> rcases b with _ | (_ | _) | _ | _ | _ | _
  all_goals first
    | constructor
    | (simp only [Opens] at ha hb; subst ha; simp at hb)
    | (simp only [Opens] at ha hb; subst hb; simp at ha)

/-- A value is read off the front of a text in one way. -/
def Reads (a : Json) : Prop :=
  ∀ (b : Json) (s t : List Char), Stops s → Stops t → render a ++ s = render b ++ t →
    a = b ∧ s = t

theorem sameKind_of_reads {a b : Json} {s t : List Char} (h : render a ++ s = render b ++ t) :
    SameKind a b := by
  obtain ⟨c, ha, hb⟩ := opens_of_reads h
  exact sameKind_of_opens ha hb

theorem stops_renderItems (items : List Json) (s : List Char) : Stops (renderItems items ++ s) := by
  cases items <;> intro c hc <;> cases hc <;> decide

theorem stops_renderFields (fields : List (String × Json)) (s : List Char) :
    Stops (renderFields fields ++ s) := by
  rcases fields with _ | ⟨⟨k, v⟩, fields⟩ <;> intro c hc <;> cases hc <;> decide

theorem renderItems_reads {items items' : List Json} (hall : ∀ j ∈ items, Reads j)
    {s t : List Char} (h : renderItems items ++ s = renderItems items' ++ t) :
    items = items' ∧ s = t := by
  induction items generalizing items' with
  | nil =>
    cases items' with
    | nil => exact ⟨rfl, (List.cons.inj h).2⟩
    | cons _ _ => exact absurd (List.cons.inj h).1 (by decide)
  | cons item items ih =>
    cases items' with
    | nil => exact absurd (List.cons.inj h).1 (by decide)
    | cons item' items' =>
      simp only [renderItems, List.cons_append, List.append_assoc, List.cons.injEq,
        true_and] at h
      obtain ⟨hitem, hrest⟩ := hall item List.mem_cons_self _ _ _ (stops_renderItems _ _)
        (stops_renderItems _ _) h
      obtain ⟨hitems, hst⟩ := ih (fun j hj => hall j (List.mem_cons_of_mem _ hj)) hrest
      exact ⟨by rw [hitem, hitems], hst⟩

theorem renderFields_reads {fields fields' : List (String × Json)}
    (hall : ∀ e ∈ fields, Reads e.2) {s t : List Char}
    (h : renderFields fields ++ s = renderFields fields' ++ t) : fields = fields' ∧ s = t := by
  induction fields generalizing fields' with
  | nil =>
    cases fields' with
    | nil => exact ⟨rfl, (List.cons.inj h).2⟩
    | cons _ _ => exact absurd (List.cons.inj h).1 (by decide)
  | cons e fields ih =>
    cases fields' with
    | nil => exact absurd (List.cons.inj h).1 (by decide)
    | cons e' fields' =>
      obtain ⟨k, v⟩ := e
      obtain ⟨k', v'⟩ := e'
      simp only [renderFields, List.cons_append, List.append_assoc, List.cons.injEq,
        true_and] at h
      obtain ⟨hk, hrest⟩ := renderString_reads h
      simp only [List.cons.injEq, true_and] at hrest
      obtain ⟨hv, hrest⟩ := hall _ List.mem_cons_self _ _ _ (stops_renderFields _ _)
        (stops_renderFields _ _) hrest
      obtain ⟨hfields, hst⟩ := ih (fun e he => hall e (List.mem_cons_of_mem _ he)) hrest
      exact ⟨by rw [hk, hfields]; exact congrArg (fun v => (k', v) :: fields') hv, hst⟩

theorem bracket_ne_render (j : Json) (s t : List Char) : ']' :: s ≠ render j ++ t := by
  obtain ⟨c, cs, hj, hc⟩ := render_opens j
  rw [hj]
  intro h
  have hopens : Opens j ']' := (List.cons.inj h).1 ▸ hc
  rcases j with _ | (_ | _) | _ | _ | _ | _ <;> simp [Opens] at hopens

theorem reads_arr {items : List Json} (hall : ∀ j ∈ items, Reads j) : Reads (.arr items) := by
  intro b s t hs ht h
  cases sameKind_of_reads h with
  | arr _ items' =>
    cases items with
    | nil =>
      cases items' with
      | nil => exact ⟨rfl, (List.cons.inj (List.cons.inj h).2).2⟩
      | cons item' items' =>
        -- an empty array closes where a value would begin
        simp only [render, List.cons_append, List.append_assoc, List.cons.injEq, true_and] at h
        exact (bracket_ne_render _ _ _ h).elim
    | cons item items =>
      cases items' with
      | nil =>
        simp only [render, List.cons_append, List.append_assoc, List.cons.injEq, true_and] at h
        exact (bracket_ne_render _ _ _ h.symm).elim
      | cons item' items' =>
        simp only [render, List.cons_append, List.append_assoc, List.cons.injEq, true_and] at h
        obtain ⟨hitem, hrest⟩ := hall item List.mem_cons_self _ _ _ (stops_renderItems _ _)
          (stops_renderItems _ _) h
        obtain ⟨hitems, hst⟩ :=
          renderItems_reads (fun j hj => hall j (List.mem_cons_of_mem _ hj)) hrest
        exact ⟨by rw [hitem, hitems], hst⟩

theorem reads_obj {fields : List (String × Json)} (hall : ∀ e ∈ fields, Reads e.2) :
    Reads (.obj fields) := by
  intro b s t hs ht h
  cases sameKind_of_reads h with
  | obj _ fields' =>
    -- behind the opening brace the text is that of the fields behind a comma
    have hcomma : ∀ {es es' : List (String × Json)},
        render (.obj es) ++ s = render (.obj es') ++ t →
          renderFields es ++ s = renderFields es' ++ t := by
      intro es es' h
      rcases es with _ | ⟨⟨k, v⟩, es⟩ <;> rcases es' with _ | ⟨⟨k', v'⟩, es'⟩
      · exact (List.cons.inj h).2
      · exact absurd (List.cons.inj (List.cons.inj h).2).1 (by decide)
      · exact absurd (List.cons.inj (List.cons.inj h).2).1 (by decide)
      · exact congrArg (fun cs => ',' :: ' ' :: cs) (List.cons.inj h).2
    obtain ⟨hfields, hst⟩ := renderFields_reads hall (hcomma h)
    exact ⟨by rw [hfields], hst⟩

theorem reads (j : Json) : Reads j := by
  induction j using induct with
  | null =>
    intro b s t hs ht h
    cases sameKind_of_reads h
    exact ⟨rfl, List.append_cancel_left h⟩
  | bool b =>
    intro b s t hs ht h
    cases sameKind_of_reads h
    exact ⟨rfl, List.append_cancel_left h⟩
  | int m =>
    intro b s t hs ht h
    cases sameKind_of_reads h with
    | int _ n =>
      obtain ⟨hmn, hst⟩ := renderInt_reads hs ht h
      exact ⟨by rw [hmn], hst⟩
  | str a =>
    intro b s t hs ht h
    cases sameKind_of_reads h with
    | str _ b =>
      obtain ⟨hab, hst⟩ := renderString_reads h
      exact ⟨by rw [hab], hst⟩
  | arr items hall => exact reads_arr hall
  | obj fields hall => exact reads_obj hall

theorem render_injective : Function.Injective render := by
  intro a b h
  -- nothing follows either text
  have hstops : Stops [] := fun c hc => nomatch hc
  exact (reads a b [] [] hstops hstops (by rw [h])).1

/-- Two values with the same text differ at most in the order of their fields. -/
theorem sortKeys_eq_of_dumps {a b : Json} (h : dumps a = dumps b) : sortKeys a = sortKeys b :=
  render_injective (String.ofList_inj.mp h)

end Values

section SortKeys

/-- Lists with the same keys, each of them once, in the same order are equal once they hold
the same pairs. -/
theorem eq_of_keys_of_perm {κ ν : Type*} {l l' : List (κ × ν)}
    (hkeys : l.map Prod.fst = l'.map Prod.fst) (hnodup : (l.map Prod.fst).Nodup)
    (hperm : l.Perm l') : l = l' := by
  induction l generalizing l' with
  | nil => exact (List.nil_perm.mp hperm).symm
  | cons e l ih =>
    cases l' with
    | nil => cases hkeys
    | cons e' l' =>
      obtain ⟨k, v⟩ := e
      obtain ⟨k', v'⟩ := e'
      simp only [List.map_cons, List.cons.injEq] at hkeys
      obtain ⟨rfl, htail⟩ := hkeys
      obtain ⟨hk, hnodup⟩ := List.nodup_cons.mp hnodup
      have hv : (k, v) = (k, v') := by
        rcases List.mem_cons.mp (hperm.subset List.mem_cons_self) with heq | hmem
        · exact heq
        · exact (hk (htail ▸ List.mem_map_of_mem hmem)).elim
      rw [hv] at hperm ⊢
      rw [ih htail hnodup hperm.cons_inv]

theorem keys_sortFields (fields : List (String × Json)) :
    (sortFields fields).map Prod.fst = fields.map Prod.fst := by
  induction fields with
  | nil => rfl
  | cons e fields ih => simp [sortFields, ih]

theorem sortFields_inj {fields fields' : List (String × Json)}
    (h : sortKeys (.obj fields) = sortKeys (.obj fields'))
    (hkeys : fields.map Prod.fst = fields'.map Prod.fst) (hnodup : (fields.map Prod.fst).Nodup) :
    sortFields fields = sortFields fields' := by
  simp only [sortKeys, obj.injEq] at h
  apply eq_of_keys_of_perm
  · rw [keys_sortFields, keys_sortFields, hkeys]
  · rwa [keys_sortFields]
  · have hperm := List.perm_insertionSort (fun a b : String × Json => a.1 ≤ b.1)
      (sortFields fields')
    rw [← h] at hperm
    exact (List.perm_insertionSort _ _).symm.trans hperm

def strs (l : List String) : Json := .arr (l.map .str)

theorem sortItems_str (l : List String) : sortItems (l.map .str) = l.map .str := by
  induction l with
  | nil => rfl
  | cons s l ih => simp [sortItems, sortKeys, ih]

@[simp] theorem sortKeys_strs (l : List String) : sortKeys (strs l) = strs l := by
  rw [strs, sortKeys, sortItems_str]

@[simp] theorem strs_inj {l l' : List String} : strs l = strs l' ↔ l = l' := by
  rw [strs, strs, arr.injEq]
  exact (List.map_injective_iff.mpr fun _ _ => str.inj).eq_iff

end SortKeys

end Json

end Chic
