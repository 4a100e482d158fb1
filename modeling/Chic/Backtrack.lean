import Mathlib.Data.List.Basic
import Mathlib.Tactic.Common

namespace Chic.Backtrack

/-- A place in a text: what is before it, the nearest first, and what is left. -/
@[ext]
structure Pos (τ : Type) where
  before : List τ
  rest : List τ
  deriving DecidableEq

/-- What a pattern can match at a place, the preferred match first, with what it captures and
where it ends. -/
def Pattern (τ α : Type) := Pos τ → List (α × Pos τ)

variable {τ α β : Type}

def Pos.start (text : List τ) : Pos τ := ⟨[], text⟩

def Pos.text (p : Pos τ) : List τ := p.before.reverse ++ p.rest

def Pos.Reaches (p q : Pos τ) : Prop := ∃ t, p.rest = t ++ q.rest ∧ q.before = t.reverse ++ p.before

instance : Monad (Pattern τ) where
  pure a p := [(a, p)]
  bind r f p := (r p).flatMap fun x => f x.1 x.2

namespace Pattern

def or (r s : Pattern τ α) : Pattern τ α := fun p => r p ++ s p

def read (f : τ → Option α) : Pattern τ α := fun p =>
  match p.rest with
  | [] => []
  | x :: rest => (f x).toList.map fun a => (a, ⟨x :: p.before, rest⟩)

def one (c : τ → Bool) : Pattern τ τ := read fun x => if c x then some x else none

/-- An assertion about the place. -/
def look (c : Pos τ → Bool) : Pattern τ Unit := fun p => if c p then [((), p)] else []

/-- `r?` -/
def opt (r : Pattern τ α) : Pattern τ (Option α) := (some <$> r).or (pure none)

/-- `r{n}` -/
def times : ℕ → Pattern τ α → Pattern τ (List α)
  | 0, _ => pure []
  | n + 1, r => do
    let a ← r
    let as ← times n r
    return a :: as

/-- `r{0,n}` -/
def upTo : ℕ → Pattern τ α → Pattern τ (List α)
  | 0, _ => pure []
  | n + 1, r =>
    or (do
      let a ← r
      let as ← upTo n r
      return a :: as) (pure [])

/-- `r*`, for a pattern that does not match the empty text. -/
def many (r : Pattern τ α) : Pattern τ (List α) := fun p => upTo p.rest.length r p

/-- `r+` -/
def many1 (r : Pattern τ α) : Pattern τ (List α) := do
  let a ← r
  let as ← many r
  return a :: as

/-- `r{0,n}?` -/
def upToLazy : ℕ → Pattern τ α → Pattern τ (List α)
  | 0, _ => pure []
  | n + 1, r =>
    or (pure []) do
      let a ← r
      let as ← upToLazy n r
      return a :: as

/-- `r*?` -/
def manyLazy (r : Pattern τ α) : Pattern τ (List α) := fun p => upToLazy p.rest.length r p

def lit [DecidableEq τ] : List τ → Pattern τ Unit
  | [] => pure ()
  | x :: xs => do
    let _ ← one (· = x)
    lit xs

def first (r : Pattern τ α) (p : Pos τ) : Option (α × Pos τ) := (r p).head?

end Pattern

structure Match (τ α : Type) where
  value : α
  start : Pos τ
  stop : Pos τ

def Match.text (m : Match τ α) : List τ :=
  m.start.rest.take (m.start.rest.length - m.stop.rest.length)

/-- A text from a place on as matches, one after the other and each the leftmost, and the elements
between them. The pattern is one that does not match the empty text. -/
def pieces (r : Pattern τ α) : (fuel : ℕ) → Pos τ → List (τ ⊕ Match τ α)
  | 0, _ => []
  | n + 1, p =>
    match r.first p with
    | some (a, q) => .inr ⟨a, p, q⟩ :: pieces r n q
    | none =>
      match p.rest with
      | [] => []
      | x :: rest => .inl x :: pieces r n ⟨x :: p.before, rest⟩

def scan (r : Pattern τ α) (p : Pos τ) : List (τ ⊕ Match τ α) := pieces r (p.rest.length + 1) p

/-- `finditer` -/
def findIter (r : Pattern τ α) (text : List τ) : List (Match τ α) :=
  (scan r (.start text)).filterMap Sum.getRight?

/-- `sub` by one element. -/
def sub (r : Pattern τ α) (by_ : τ) (text : List τ) : List τ :=
  (scan r (.start text)).map (Sum.elim id fun _ => by_)

section Eval
variable {r s : Pattern τ α} {f : α → Pattern τ β} {p : Pos τ} {b rest : List τ} {x : τ}

@[simp] theorem pure_apply (a : α) (p : Pos τ) : (pure a : Pattern τ α) p = [(a, p)] := rfl

@[simp] theorem bind_apply (r : Pattern τ α) (f : α → Pattern τ β) (p : Pos τ) :
    (r >>= f) p = (r p).flatMap fun x => f x.1 x.2 := rfl

@[simp] theorem map_apply (g : α → β) (r : Pattern τ α) (p : Pos τ) :
    (g <$> r) p = (r p).map fun x => (g x.1, x.2) :=
  (List.map_eq_flatMap).symm

@[simp] theorem or_apply (r s : Pattern τ α) (p : Pos τ) : r.or s p = r p ++ s p := rfl

@[simp] theorem read_nil (g : τ → Option α) (b : List τ) : Pattern.read g ⟨b, []⟩ = [] := rfl

@[simp] theorem read_cons (g : τ → Option α) (b : List τ) (x : τ) (rest : List τ) :
    Pattern.read g ⟨b, x :: rest⟩ = (g x).toList.map fun a => (a, ⟨x :: b, rest⟩) := rfl

@[simp] theorem one_nil (c : τ → Bool) (b : List τ) : Pattern.one c ⟨b, []⟩ = [] := rfl

@[simp] theorem one_cons (c : τ → Bool) (b : List τ) (x : τ) (rest : List τ) :
    Pattern.one c ⟨b, x :: rest⟩ = if c x then [(x, ⟨x :: b, rest⟩)] else [] := by
  rw [Pattern.one, read_cons]
  split_ifs <;> rfl

@[simp] theorem look_apply (c : Pos τ → Bool) (p : Pos τ) :
    Pattern.look c p = if c p then [((), p)] else [] := rfl

@[simp] theorem opt_apply (r : Pattern τ α) (p : Pos τ) :
    r.opt p = (r p).map (fun x => (some x.1, x.2)) ++ [(none, p)] := by
  rw [Pattern.opt, or_apply, map_apply, pure_apply]

theorem first_or : (r.or s).first p = (r.first p).or (s.first p) := List.head?_append

theorem first_bind (h : ∀ x, r.first p = some x → f x.1 x.2 ≠ []) :
    (r >>= f).first p = (r.first p).bind fun x => (f x.1).first x.2 := by
  unfold Pattern.first at h ⊢
  rw [bind_apply]
  cases hr : r p with
  | nil => rfl
  | cons x xs =>
    have hx := h x (by rw [hr]; rfl)
    rw [List.flatMap_cons, List.head?_append, List.head?_cons, Option.bind_some]
    obtain ⟨y, hy⟩ := Option.isSome_iff_exists.mp (List.isSome_head?.mpr hx)
    rw [hy, Option.some_or]

theorem first_bind_some {a : α} {q : Pos τ} {y : β × Pos τ} (hr : r.first p = some (a, q))
    (hf : (f a).first q = some y) : (r >>= f).first p = some y := by
  obtain ⟨xs, hxs⟩ := List.head?_eq_some_iff.mp hr
  unfold Pattern.first at hf ⊢
  rw [bind_apply, hxs, List.flatMap_cons, List.head?_append, hf, Option.some_or]

theorem mem_of_first {x : α × Pos τ} (h : r.first p = some x) : x ∈ r p := List.mem_of_head? h

theorem first_look_bind {c : Pos τ → Bool} {f : Unit → Pattern τ β} :
    (Pattern.look c >>= f).first p = if c p then (f ()).first p else none := by
  unfold Pattern.first
  rw [bind_apply, look_apply]
  split_ifs
  · rw [List.flatMap_cons, List.flatMap_nil, List.append_nil]
  · rfl

def repeated (r : Pattern τ α) : ℕ → Pos τ → List α × Pos τ
  | 0, p => ([], p)
  | n + 1, p =>
    match r.first p with
    | none => ([], p)
    | some (a, q) => (a :: (repeated r n q).1, (repeated r n q).2)

theorem first_upTo (r : Pattern τ α) (n : ℕ) (p : Pos τ) :
    (Pattern.upTo n r).first p = some (repeated r n p) := by
  induction n generalizing p with
  | zero => rfl
  | succ n ih =>
    have htotal : ∀ q, Pattern.upTo n r q ≠ [] := fun q hnil => by
      have := ih q
      rw [Pattern.first, hnil] at this
      cases this
    have hrest : ∀ a, (do let as ← Pattern.upTo n r; return a :: as : Pattern τ (List α)).first =
        fun q => some (a :: (repeated r n q).1, (repeated r n q).2) := by
      intro a
      funext q
      rw [first_bind fun x _ => List.cons_ne_nil _ _, ih]
      rfl
    rw [Pattern.upTo, first_or, first_bind, repeated]
    · cases hr : r.first p with
      | none => rfl
      | some x =>
        rw [Option.bind_some, hrest]
        rfl
    · intro x _
      rw [bind_apply, ne_eq, List.flatMap_eq_nil_iff]
      intro hnil
      obtain ⟨y, hy⟩ := List.exists_mem_of_ne_nil _ (htotal x.2)
      exact List.cons_ne_nil _ _ (hnil y hy)

theorem first_many (r : Pattern τ α) (p : Pos τ) :
    r.many.first p = some (repeated r p.rest.length p) :=
  first_upTo r p.rest.length p

theorem first_map (g : α → β) :
    (g <$> r : Pattern τ β).first p = (r.first p).map fun x => (g x.1, x.2) := by
  unfold Pattern.first
  rw [map_apply, List.head?_map]

theorem first_opt : r.opt.first p = some ((r.first p).elim (none, p) fun x => (some x.1, x.2)) := by
  rw [Pattern.opt, first_or, first_map]
  cases r.first p with
  | none => rfl
  | some x => rfl

theorem first_many1 : r.many1.first p = (r.first p).map fun x =>
    (x.1 :: (repeated r x.2.rest.length x.2).1, (repeated r x.2.rest.length x.2).2) := by
  have hrest : ∀ a q, (do let as ← r.many; return a :: as : Pattern τ (List α)).first q =
      some (a :: (repeated r q.rest.length q).1, (repeated r q.rest.length q).2) := by
    intro a q
    rw [first_bind fun x _ => List.cons_ne_nil _ _, first_many]
    rfl
  rw [Pattern.many1, first_bind]
  · cases r.first p with
    | none => rfl
    | some x => exact hrest x.1 x.2
  · intro x _ hnil
    have := hrest x.1 x.2
    rw [Pattern.first, hnil] at this
    cases this

theorem repeated_one {c : τ → Bool} {n : ℕ} (hn : rest.length ≤ n) (b : List τ) :
    repeated (.one c) n ⟨b, rest⟩ =
      (rest.takeWhile c, ⟨(rest.takeWhile c).reverse ++ b, rest.dropWhile c⟩) := by
  induction n generalizing rest b with
  | zero =>
    rw [List.length_eq_zero_iff.mp (Nat.le_zero.mp hn)]
    rfl
  | succ n ih =>
    cases rest with
    | nil => rfl
    | cons x rest =>
      have hone : (Pattern.one c).first ⟨b, x :: rest⟩ = if c x then some (x, ⟨x :: b, rest⟩) else none := by
        rw [Pattern.first, one_cons]
        split_ifs <;> rfl
      rw [repeated, hone]
      cases hx : c x with
      | true =>
        rw [List.takeWhile_cons_of_pos hx, List.dropWhile_cons_of_pos hx, if_pos rfl]
        dsimp only
        rw [ih (Nat.le_of_succ_le_succ hn), List.reverse_cons, List.append_assoc]
        rfl
      | false =>
        rw [List.takeWhile_cons_of_neg (by simp [hx]), List.dropWhile_cons_of_neg (by simp [hx]),
          if_neg Bool.false_ne_true]
        rfl

theorem first_many1_one (c : τ → Bool) (b l : List τ) : (Pattern.one c).many1.first ⟨b, l⟩ =
    if l.takeWhile c = [] then none
    else some (l.takeWhile c, ⟨(l.takeWhile c).reverse ++ b, l.dropWhile c⟩) := by
  rw [first_many1]
  cases l with
  | nil => rfl
  | cons x l =>
    cases hx : c x with
    | true =>
      rw [Pattern.first, one_cons, if_pos hx, List.takeWhile_cons_of_pos hx,
        List.dropWhile_cons_of_pos hx, if_neg (List.cons_ne_nil _ _), List.head?_cons,
        Option.map_some, repeated_one (Nat.le_refl _), List.reverse_cons, List.append_assoc]
      rfl
    | false =>
      rw [Pattern.first, one_cons, if_neg (by simp [hx]), List.takeWhile_cons_of_neg (by simp [hx]),
        if_pos rfl]
      rfl

end Eval

namespace Pattern

/-- The pattern takes just this text, wherever it stands. -/
def Reads (r : Pattern τ α) (l : List τ) (a : α) : Prop :=
  ∀ b rest, r.first ⟨b, l ++ rest⟩ = some (a, ⟨l.reverse ++ b, rest⟩)

/-- The pattern matches nothing that begins with this text. -/
def Fails (r : Pattern τ α) (l : List τ) : Prop := ∀ b rest, r.first ⟨b, l ++ rest⟩ = none

section
variable {r s : Pattern τ α} {f : α → Pattern τ β} {l l' : List τ} {a : α} {c : β}

theorem Reads.pure (a : α) : Reads (pure a : Pattern τ α) [] a := fun _ _ => rfl

theorem Reads.bind (hr : r.Reads l a) (hf : (f a).Reads l' c) : (r >>= f).Reads (l ++ l') c := by
  intro b rest
  rw [List.append_assoc, List.reverse_append, List.append_assoc]
  exact first_bind_some (hr b (l' ++ rest)) (hf (l.reverse ++ b) rest)

/-- What follows a text that only gives a value. -/
theorem Reads.bind_pure (hr : r.Reads l a) (g : α → β) :
    (r >>= fun x => Pure.pure (g x)).Reads l (g a) := by
  intro b rest
  exact first_bind_some (hr b rest) rfl

theorem Reads.or_left (hr : r.Reads l a) : (r.or s).Reads l a := by
  intro b rest
  rw [first_or, hr b rest, Option.some_or]

theorem Reads.or_right (hr : r.Fails l) (hs : s.Reads l a) : (r.or s).Reads l a := by
  intro b rest
  rw [first_or, hr b rest, Option.none_or, hs b rest]

theorem Reads.read {g : τ → Option α} {x : τ} (h : g x = some a) : (Pattern.read g).Reads [x] a := by
  intro b rest
  unfold first
  rw [List.singleton_append, read_cons, h]
  rfl

theorem Fails.read {g : τ → Option α} {x : τ} (h : g x = none) : (Pattern.read g).Fails (x :: l) := by
  intro b rest
  unfold first
  rw [List.cons_append, read_cons, h]
  rfl

theorem Fails.bind (hr : r.Fails l) : (r >>= f).Fails l := by
  intro b rest
  have hnil : r ⟨b, l ++ rest⟩ = [] := List.head?_eq_none_iff.mp (hr b rest)
  unfold first
  rw [bind_apply, hnil]
  rfl

end

/-- Whatever the pattern matches, and captures from it, is of this kind. -/
def Takes (r : Pattern τ α) (kind : List τ → α → Prop) : Prop :=
  ∀ p a q, (a, q) ∈ r p → ∃ l, p.rest = l ++ q.rest ∧ q.before = l.reverse ++ p.before ∧ kind l a

section
variable {r s : Pattern τ α} {f : α → Pattern τ β} {kind kind' : List τ → α → Prop}
  {kind₂ : α → List τ → β → Prop}

theorem Takes.mono (hr : r.Takes kind) (h : ∀ l a, kind l a → kind' l a) : r.Takes kind' := by
  intro p a q hmem
  obtain ⟨l, hrest, hbefore, hl⟩ := hr p a q hmem
  exact ⟨l, hrest, hbefore, h l a hl⟩

theorem Takes.pure (a : α) : (Pure.pure a : Pattern τ α).Takes fun l a' => l = [] ∧ a' = a := by
  intro p a' q hmem
  obtain ⟨rfl, rfl⟩ := Prod.mk.inj (List.mem_singleton.mp hmem)
  exact ⟨[], rfl, rfl, rfl, rfl⟩

theorem Takes.read (g : τ → Option α) :
    (Pattern.read g).Takes fun l a => ∃ x, l = [x] ∧ g x = some a := by
  rintro ⟨b, _ | ⟨x, rest⟩⟩ a q hmem
  · cases hmem
  · rw [read_cons, List.mem_map] at hmem
    obtain ⟨a', ha, heq⟩ := hmem
    obtain ⟨rfl, rfl⟩ := Prod.mk.inj heq
    exact ⟨[x], rfl, rfl, x, rfl, Option.mem_toList.mp ha⟩

theorem Takes.look (c : Pos τ → Bool) : (Pattern.look c).Takes fun l _ => l = [] := by
  intro p a q hmem
  rw [look_apply] at hmem
  split_ifs at hmem
  · obtain ⟨-, rfl⟩ := Prod.mk.inj (List.mem_singleton.mp hmem)
    exact ⟨[], rfl, rfl, rfl⟩
  · cases hmem

theorem Takes.or (hr : r.Takes kind) (hs : s.Takes kind) : (r.or s).Takes kind := by
  intro p a q hmem
  rcases List.mem_append.mp hmem with h | h
  · exact hr p a q h
  · exact hs p a q h

theorem Takes.bind (hr : r.Takes kind) (hf : ∀ a, (f a).Takes (kind₂ a)) :
    (r >>= f).Takes fun l c => ∃ l₁ l₂ a, l = l₁ ++ l₂ ∧ kind l₁ a ∧ kind₂ a l₂ c := by
  intro p c q hmem
  obtain ⟨⟨a, p'⟩, ha, hc⟩ := List.mem_flatMap.mp hmem
  obtain ⟨l₁, hrest, hbefore, hl₁⟩ := hr p a p' ha
  obtain ⟨l₂, hrest', hbefore', hl₂⟩ := hf a p' c q hc
  refine ⟨l₁ ++ l₂, ?_, ?_, l₁, l₂, a, rfl, hl₁, hl₂⟩
  · rw [hrest, hrest', List.append_assoc]
  · rw [hbefore', hbefore, List.reverse_append, List.append_assoc]

theorem Takes.one (c : τ → Bool) : (Pattern.one c).Takes fun l _ => ∃ x, l = [x] ∧ c x = true := by
  refine (Takes.read _).mono ?_
  rintro l a ⟨x, rfl, hx⟩
  split_ifs at hx with hc
  exact ⟨x, rfl, hc⟩

theorem Takes.lit [DecidableEq τ] (l : List τ) : (Pattern.lit l).Takes fun l' _ => l' = l := by
  induction l with
  | nil => exact (Takes.pure ()).mono fun _ _ hl => hl.1
  | cons x l ih =>
    refine (Takes.bind (Takes.one _) fun _ => ih).mono ?_
    rintro l' u ⟨l₁, l₂, a, rfl, ⟨y, rfl, hy⟩, rfl⟩
    rw [of_decide_eq_true hy]
    rfl

theorem Takes.and (hr : r.Takes kind) (hr' : r.Takes kind') :
    r.Takes fun l a => kind l a ∧ kind' l a := by
  intro p a q hmem
  obtain ⟨l, hrest, hbefore, hl⟩ := hr p a q hmem
  obtain ⟨l', hrest', -, hl'⟩ := hr' p a q hmem
  have heq : l = l' := List.append_cancel_right (hrest.symm.trans hrest')
  exact ⟨l, hrest, hbefore, hl, heq ▸ hl'⟩

/-- Texts of a kind that goes over to what they are put together to. -/
structure Closed (kind : List τ → Prop) : Prop where
  nil : kind []
  append : ∀ {l l'}, kind l → kind l' → kind (l ++ l')

/-- Whatever the pattern takes is of the kind. -/
def Within (r : Pattern τ α) (kind : List τ → Prop) : Prop := r.Takes fun l _ => kind l

end

namespace Within
variable {r s : Pattern τ α} {f : α → Pattern τ β} {kind : List τ → Prop}

theorem pure (h : Closed kind) (a : α) : (Pure.pure a : Pattern τ α).Within kind :=
  (Takes.pure a).mono fun _ _ hl => hl.1 ▸ h.nil

theorem look (h : Closed kind) (c : Pos τ → Bool) : (Pattern.look c).Within kind :=
  (Takes.look c).mono fun _ _ hl => hl ▸ h.nil

theorem read {g : τ → Option α} (h : ∀ x a, g x = some a → kind [x]) :
    (Pattern.read g).Within kind := by
  refine (Takes.read g).mono ?_
  rintro l a ⟨x, rfl, hx⟩
  exact h x a hx

theorem one {c : τ → Bool} (h : ∀ x, c x = true → kind [x]) : (Pattern.one c).Within kind := by
  refine read fun x a hx => h x ?_
  split_ifs at hx with hc
  exact hc

theorem or (hr : r.Within kind) (hs : s.Within kind) : (r.or s).Within kind := Takes.or hr hs

theorem bind (h : Closed kind) (hr : r.Within kind) (hf : ∀ a, (f a).Within kind) :
    (r >>= f).Within kind := by
  refine (Takes.bind hr hf).mono ?_
  rintro l c ⟨l₁, l₂, a, rfl, hl₁, hl₂⟩
  exact h.append hl₁ hl₂

theorem map (g : α → β) (hr : r.Within kind) : (g <$> r : Pattern τ β).Within kind := by
  intro p b q hmem
  rw [map_apply] at hmem
  obtain ⟨x, hx, heq⟩ := List.mem_map.mp hmem
  obtain ⟨-, rfl⟩ := Prod.mk.inj heq
  exact hr p x.1 x.2 hx

theorem opt (h : Closed kind) (hr : r.Within kind) : r.opt.Within kind := .or (.map _ hr) (.pure h none)

theorem times (h : Closed kind) (hr : r.Within kind) (n : ℕ) : (r.times n).Within kind := by
  induction n with
  | zero => exact .pure h []
  | succ n ih => exact .bind h hr fun _ => .bind h ih fun _ => .pure h _

theorem upTo (h : Closed kind) (hr : r.Within kind) (n : ℕ) : (upTo n r).Within kind := by
  induction n with
  | zero => exact .pure h []
  | succ n ih => exact .or (.bind h hr fun _ => .bind h ih fun _ => .pure h _) (.pure h [])

theorem many (h : Closed kind) (hr : r.Within kind) : r.many.Within kind :=
  fun p => upTo h hr p.rest.length p

theorem many1 (h : Closed kind) (hr : r.Within kind) : r.many1.Within kind :=
  .bind h hr fun _ => .bind h (.many h hr) fun _ => .pure h _

theorem upToLazy (h : Closed kind) (hr : r.Within kind) (n : ℕ) : (upToLazy n r).Within kind := by
  induction n with
  | zero => exact .pure h []
  | succ n ih => exact .or (.pure h []) (.bind h hr fun _ => .bind h ih fun _ => .pure h _)

theorem manyLazy (h : Closed kind) (hr : r.Within kind) : r.manyLazy.Within kind :=
  fun p => upToLazy h hr p.rest.length p

theorem lit [DecidableEq τ] (h : Closed kind) {l : List τ} (hl : ∀ x ∈ l, kind [x]) :
    (Pattern.lit l).Within kind := by
  induction l with
  | nil => exact .pure h ()
  | cons x l ih =>
    refine .bind h (.one fun y hy => ?_) fun _ => ih fun y hy => hl y (List.mem_cons_of_mem x hy)
    rw [of_decide_eq_true hy]
    exact hl x List.mem_cons_self

end Within

theorem closed_all (c : τ → Prop) : Closed fun l : List τ => ∀ x ∈ l, c x where
  nil := fun _ hx => absurd hx List.not_mem_nil
  append hl hl' := fun x hx => (List.mem_append.mp hx).elim (hl x) (hl' x)

theorem closed_true : Closed fun _ : List τ => True := ⟨trivial, fun _ _ => trivial⟩

theorem closed_avoid (x : τ) : Closed fun l : List τ => x ∉ l :=
  ⟨List.not_mem_nil, fun hl hl' => List.not_mem_append hl hl'⟩

/-- Every match takes something. -/
def Proper (r : Pattern τ α) : Prop := r.Takes fun l _ => l ≠ []

namespace Proper
variable {r s : Pattern τ α} {f : α → Pattern τ β}

theorem read (g : τ → Option α) : (Pattern.read g).Proper := by
  refine (Takes.read g).mono ?_
  rintro l a ⟨x, rfl, -⟩
  exact List.cons_ne_nil x []

theorem one (c : τ → Bool) : (Pattern.one c).Proper := read _

theorem or (hr : r.Proper) (hs : s.Proper) : (r.or s).Proper := Takes.or hr hs

theorem bind_left (hr : r.Proper) (hf : ∀ a, (f a).Within fun _ => True) : (r >>= f).Proper := by
  refine (Takes.bind hr hf).mono ?_
  rintro l c ⟨l₁, l₂, a, rfl, hl₁, -⟩
  exact List.append_ne_nil_of_left_ne_nil hl₁ l₂

theorem bind_right (hr : r.Within fun _ => True) (hf : ∀ a, (f a).Proper) : (r >>= f).Proper := by
  refine (Takes.bind hr hf).mono ?_
  rintro l c ⟨l₁, l₂, a, rfl, -, hl₂⟩
  exact List.append_ne_nil_of_right_ne_nil l₁ hl₂

theorem map (g : α → β) (hr : r.Proper) : (g <$> r : Pattern τ β).Proper := Within.map g hr

theorem within (hr : r.Proper) : r.Within fun _ => True := hr.mono fun _ _ _ => trivial

end Proper

end Pattern

section Scan
variable {r : Pattern τ α} {p q : Pos τ} {a : α} {m : Match τ α} {x : τ} {b l rest : List τ}

theorem Pos.Reaches.refl (p : Pos τ) : p.Reaches p := ⟨[], rfl, rfl⟩

theorem Pos.Reaches.trans {o : Pos τ} (h : p.Reaches q) (h' : q.Reaches o) : p.Reaches o := by
  obtain ⟨t, hrest, hbefore⟩ := h
  obtain ⟨t', hrest', hbefore'⟩ := h'
  refine ⟨t ++ t', ?_, ?_⟩
  · rw [hrest, hrest', List.append_assoc]
  · rw [hbefore', hbefore, List.reverse_append, List.append_assoc]

theorem Pos.Reaches.length_le (h : p.Reaches q) : q.rest.length ≤ p.rest.length := by
  obtain ⟨t, hrest, -⟩ := h
  rw [hrest, List.length_append]
  omega

namespace Pattern.Proper

theorem reaches (hr : r.Proper) (h : r.first p = some (a, q)) : p.Reaches q := by
  obtain ⟨l, hrest, hbefore, -⟩ := hr p a q (mem_of_first h)
  exact ⟨l, hrest, hbefore⟩

theorem length_lt (hr : r.Proper) (h : r.first p = some (a, q)) : q.rest.length < p.rest.length := by
  obtain ⟨l, hrest, -, hl⟩ := hr p a q (mem_of_first h)
  have := List.length_pos_iff.mpr hl
  rw [hrest, List.length_append]
  omega

end Pattern.Proper

/-- Fuel beyond the length of the text is not used. -/
theorem pieces_eq_pieces (hr : r.Proper) {n k : ℕ} (hn : p.rest.length < n)
    (hk : p.rest.length < k) : pieces r n p = pieces r k p := by
  induction n generalizing k p with
  | zero => exact absurd hn (Nat.not_lt_zero _)
  | succ n ih =>
    cases k with
    | zero => exact absurd hk (Nat.not_lt_zero _)
    | succ k =>
      rw [pieces, pieces]
      cases hfirst : r.first p with
      | some x =>
        have hlt := hr.length_lt hfirst
        dsimp only
        rw [ih (k := k) (by omega) (by omega)]
      | none =>
        obtain ⟨b, _ | ⟨x, rest⟩⟩ := p
        · rfl
        · dsimp only at hn hk ⊢
          rw [List.length_cons] at hn hk
          rw [ih (k := k) (Nat.lt_of_succ_lt_succ hn) (Nat.lt_of_succ_lt_succ hk)]

theorem scan_match (hr : r.Proper) (h : r.first p = some (a, q)) :
    scan r p = .inr ⟨a, p, q⟩ :: scan r q := by
  rw [scan, pieces, h, scan]
  dsimp only
  rw [pieces_eq_pieces hr (hr.length_lt h) (Nat.lt_succ_self _)]

theorem scan_next (h : r.first ⟨b, x :: rest⟩ = none) :
    scan r ⟨b, x :: rest⟩ = .inl x :: scan r ⟨x :: b, rest⟩ := by
  rw [scan, pieces, h]
  rfl

theorem scan_nil (hr : r.Proper) (b : List τ) : scan r ⟨b, []⟩ = [] := by
  cases h : r.first ⟨b, []⟩ with
  | some x => exact absurd (hr.length_lt h) (Nat.not_lt_zero _)
  | none => rw [scan, pieces, h]

/-- Every match is the one at the place where it starts. -/
theorem mem_scan (hr : r.Proper) (h : .inr m ∈ scan r p) :
    p.Reaches m.start ∧ r.first m.start = some (m.value, m.stop) := by
  induction hn : p.rest.length using Nat.strongRecOn generalizing p with
  | ind n ih =>
    cases hfirst : r.first p with
    | some x =>
      rw [scan_match hr hfirst] at h
      rcases List.mem_cons.mp h with heq | h
      · obtain rfl := Sum.inr.inj heq
        exact ⟨.refl p, hfirst⟩
      · obtain ⟨hreach, hm⟩ := ih _ (hn ▸ hr.length_lt hfirst) h rfl
        exact ⟨(hr.reaches hfirst).trans hreach, hm⟩
    | none =>
      obtain ⟨b, _ | ⟨x, rest⟩⟩ := p
      · rw [scan_nil hr] at h
        cases h
      · rw [scan_next hfirst] at h
        obtain ⟨hreach, hm⟩ := ih _ (hn ▸ Nat.lt_succ_self _) ((List.mem_cons.mp h).resolve_left
          Sum.inr_ne_inl) rfl
        exact ⟨.trans ⟨[x], rfl, rfl⟩ hreach, hm⟩

theorem Match.start_rest (h : m.start.Reaches m.stop) : m.start.rest = m.text ++ m.stop.rest := by
  obtain ⟨t, hrest, -⟩ := h
  rw [Match.text, hrest, List.length_append, Nat.add_sub_cancel, List.take_left]

theorem mem_findIter (hr : r.Proper) {text : List τ} (h : m ∈ findIter r text) :
    (Pos.start text).Reaches m.start ∧ m.start.rest = m.text ++ m.stop.rest := by
  obtain ⟨z, hz, hright⟩ := List.mem_filterMap.mp h
  obtain rfl := Sum.getRight?_eq_some_iff.mp hright
  obtain ⟨hreach, hfirst⟩ := mem_scan hr hz
  exact ⟨hreach, Match.start_rest (hr.reaches hfirst)⟩

theorem scan_skip (h : ∀ l₁ l₂, l = l₁ ++ l₂ → l₂ ≠ [] → r.first ⟨l₁.reverse ++ b, l₂ ++ rest⟩ = none) :
    scan r ⟨b, l ++ rest⟩ = l.map .inl ++ scan r ⟨l.reverse ++ b, rest⟩ := by
  induction l generalizing b with
  | nil => rfl
  | cons x l ih =>
    have hfirst : r.first ⟨b, x :: (l ++ rest)⟩ = none := h [] (x :: l) rfl (List.cons_ne_nil x l)
    have htail : ∀ l₁ l₂, l = l₁ ++ l₂ → l₂ ≠ [] → r.first ⟨l₁.reverse ++ x :: b, l₂ ++ rest⟩ = none := by
      intro l₁ l₂ hl hne
      have := h (x :: l₁) l₂ (by rw [hl]; rfl) hne
      rwa [List.reverse_cons, List.append_assoc] at this
    rw [List.cons_append, scan_next hfirst, ih htail, List.reverse_cons, List.append_assoc]
    rfl

theorem sub_eq_self {text : List τ} (h : findIter r text = []) (y : τ) : sub r y text = text := by
  have hpieces : ∀ (n : ℕ) (p : Pos τ), p.rest.length < n → (∀ m, .inr m ∉ pieces r n p) →
      pieces r n p = p.rest.map .inl := by
    intro n
    induction n with
    | zero => exact fun p hn => absurd hn (Nat.not_lt_zero _)
    | succ n ih =>
      rintro ⟨b, rest⟩ hn hnone
      rw [pieces] at hnone ⊢
      cases hfirst : r.first ⟨b, rest⟩ with
      | some z =>
        rw [hfirst] at hnone
        exact absurd List.mem_cons_self (hnone _)
      | none =>
        rw [hfirst] at hnone
        cases rest with
        | nil => rfl
        | cons x rest =>
          dsimp only at hnone ⊢
          rw [ih ⟨x :: b, rest⟩ (Nat.lt_of_succ_lt_succ hn)
            fun m hm => hnone m (List.mem_cons_of_mem _ hm)]
          rfl
  have hscan := hpieces _ (.start text) (Nat.lt_succ_self _) fun m hm => by
    have := List.filterMap_eq_nil_iff.mp h _ hm
    cases this
  rw [sub, scan, hscan, List.map_map]
  exact List.map_id text

/-- The scan reaches a place that no match from before it goes beyond. -/
theorem scan_append (hr : r.Proper) (hstop : ∀ l₁ l₂ a q, l = l₁ ++ l₂ → l₂ ≠ [] →
      r.first ⟨l₁.reverse ++ b, l₂ ++ rest⟩ = some (a, q) → rest.length ≤ q.rest.length) :
    ∃ ls, scan r ⟨b, l ++ rest⟩ = ls ++ scan r ⟨l.reverse ++ b, rest⟩ ∧
      ∀ m, .inr m ∈ ls → rest.length ≤ m.stop.rest.length := by
  induction hn : l.length using Nat.strongRecOn generalizing l b with
  | ind n ih =>
    cases l with
    | nil => exact ⟨[], rfl, fun m hm => absurd hm List.not_mem_nil⟩
    | cons x l =>
      cases hfirst : r.first ⟨b, x :: l ++ rest⟩ with
      | some y =>
        obtain ⟨a, q⟩ := y
        -- the match ends inside, and what is left is shorter
        have hle := hstop [] (x :: l) a q rfl (List.cons_ne_nil x l) hfirst
        obtain ⟨t, hrest, hbefore, ht⟩ := hr _ a q (mem_of_first hfirst)
        obtain ⟨l', hl, hq⟩ : ∃ l', x :: l = t ++ l' ∧ q.rest = l' ++ rest := by
          rcases List.append_eq_append_iff.mp hrest with ⟨l', hl, hq⟩ | ⟨l', hl, hq⟩
          · have hlen := congrArg List.length hq
            rw [List.length_append] at hlen
            rw [List.length_eq_zero_iff.mp (show l'.length = 0 by omega), List.append_nil] at hl
            rw [List.length_eq_zero_iff.mp (show l'.length = 0 by omega)] at hq
            exact ⟨[], by rw [hl, List.append_nil], hq.symm⟩
          · exact ⟨l', hl, hq⟩
        obtain ⟨ls, hls, hmem⟩ := ih l'.length (by
            have := List.length_pos_iff.mpr ht
            rw [← hn, hl, List.length_append]
            omega)
          (l := l') (b := q.before) (fun l₁ l₂ a' q' hl' hne hf => hstop (t ++ l₁) l₂ a' q'
            (by rw [hl, hl', List.append_assoc]) hne (by
              rw [hbefore] at hf
              rw [List.reverse_append, List.append_assoc]
              exact hf)) rfl
        refine ⟨.inr ⟨a, ⟨b, x :: l ++ rest⟩, q⟩ :: ls, ?_, ?_⟩
        · rw [scan_match hr hfirst, show q = ⟨q.before, l' ++ rest⟩ from Pos.ext rfl hq, hls, hl,
            List.reverse_append, List.append_assoc, List.cons_append, hbefore]
          rw [List.append_assoc]
        · intro m hm
          rcases List.mem_cons.mp hm with heq | hm
          · obtain rfl := Sum.inr.inj heq
            exact hle
          · exact hmem m hm
      | none =>
        obtain ⟨ls, hls, hmem⟩ := ih l.length (by rw [← hn]; exact Nat.lt_succ_self _)
          (l := l) (b := x :: b) (fun l₁ l₂ a q hl hne hf => hstop (x :: l₁) l₂ a q
            (by rw [hl]; rfl) hne (by rw [List.reverse_cons, List.append_assoc]; exact hf)) rfl
        refine ⟨.inl x :: ls, ?_, ?_⟩
        · rw [List.cons_append] at hfirst ⊢
          rw [scan_next hfirst, hls, List.reverse_cons, List.append_assoc]
          rfl
        · intro m hm
          exact hmem m ((List.mem_cons.mp hm).resolve_left Sum.inr_ne_inl)

end Scan

section Comap
variable {σ : Type} {g : σ → τ} {r : Pattern τ α} {kind : List τ → α → Prop}

def Pos.map (g : σ → τ) (p : Pos σ) : Pos τ := ⟨p.before.map g, p.rest.map g⟩

def Pos.skip (n : ℕ) (p : Pos σ) : Pos σ := ⟨(p.rest.take n).reverse ++ p.before, p.rest.drop n⟩

def Pattern.comap (g : σ → τ) (r : Pattern τ α) : Pattern σ α := fun p =>
  (r (p.map g)).map fun x => (x.1, p.skip (p.rest.length - x.2.rest.length))

def Match.map (g : σ → τ) (m : Match σ α) : Match τ α := ⟨m.value, m.start.map g, m.stop.map g⟩

theorem first_comap (p : Pos σ) : (r.comap g).first p =
    (r.first (p.map g)).map fun x => (x.1, p.skip (p.rest.length - x.2.rest.length)) := by
  unfold Pattern.first Pattern.comap
  rw [List.head?_map]

/-- What the places before and after a match stand for. -/
theorem exists_skip {p : Pos σ} {q : Pos τ} {l : List τ} (hrest : (p.map g).rest = l ++ q.rest)
    (hbefore : q.before = l.reverse ++ (p.map g).before) :
    ∃ l', p.rest = l' ++ (p.skip (p.rest.length - q.rest.length)).rest ∧
      (p.skip (p.rest.length - q.rest.length)).before = l'.reverse ++ p.before ∧ l'.map g = l ∧
        (p.skip (p.rest.length - q.rest.length)).map g = q := by
  have hlen : p.rest.length - q.rest.length = l.length := by
    have := congrArg List.length hrest
    rw [Pos.map, List.length_map, List.length_append] at this
    omega
  have htake : (p.rest.take l.length).map g = l := by
    rw [List.map_take, show p.rest.map g = l ++ q.rest from hrest, List.take_left]
  rw [hlen]
  refine ⟨p.rest.take l.length, (List.take_append_drop _ _).symm, rfl, htake, Pos.ext ?_ ?_⟩
  · rw [hbefore, Pos.map, Pos.skip, List.map_append, List.map_reverse, htake]
    rfl
  · rw [Pos.map, Pos.skip, List.map_drop, show p.rest.map g = l ++ q.rest from hrest, List.drop_left]

theorem Pattern.Takes.comap (hr : r.Takes kind) : (r.comap g).Takes fun l a => kind (l.map g) a := by
  intro p a q hmem
  obtain ⟨⟨a', q'⟩, hx, heq⟩ := List.mem_map.mp hmem
  obtain ⟨rfl, rfl⟩ := Prod.mk.inj heq
  obtain ⟨l, hrest, hbefore, hl⟩ := hr _ a' q' hx
  obtain ⟨l', hrest', hbefore', hmap, -⟩ := exists_skip hrest hbefore
  refine ⟨l', hrest', hbefore', ?_⟩
  dsimp only
  rw [hmap]
  exact hl

theorem Pattern.Proper.comap (hr : r.Proper) : (r.comap g).Proper :=
  (Takes.comap hr).mono fun _ _ hl hnil => hl (by rw [hnil]; rfl)

/-- A scan sees what the elements stand for. -/
theorem scan_comap (hr : r.Proper) (p : Pos σ) :
    scan r (p.map g) = (scan (r.comap g) p).map (Sum.map g (Match.map g)) := by
  induction hn : p.rest.length using Nat.strongRecOn generalizing p with
  | ind n ih =>
    cases hfirst : r.first (p.map g) with
    | some x =>
      obtain ⟨a, q⟩ := x
      obtain ⟨l, hrest, hbefore, hl⟩ := hr _ a q (mem_of_first hfirst)
      obtain ⟨l', hrest', -, hmap, hq⟩ := exists_skip hrest hbefore
      have hcomap := first_comap (r := r) (g := g) p
      rw [hfirst, Option.map_some] at hcomap
      have hlt := hr.comap.length_lt hcomap
      rw [scan_match hr hfirst, scan_match hr.comap hcomap, List.map_cons,
        ← ih _ (hn ▸ hlt) _ rfl, hq]
      dsimp only [Sum.map_inr, Match.map]
      rw [hq]
    | none =>
      have hcomap := first_comap (r := r) (g := g) p
      rw [hfirst, Option.map_none] at hcomap
      obtain ⟨b, _ | ⟨x, rest⟩⟩ := p
      · rw [scan_nil hr.comap]
        exact scan_nil hr _
      · rw [scan_next hcomap, List.map_cons, ← ih rest.length (hn ▸ Nat.lt_succ_self _) _ rfl]
        exact scan_next hfirst

theorem findIter_comap (hr : r.Proper) (text : List σ) :
    findIter r (text.map g) = (findIter (r.comap g) text).map (Match.map g) := by
  have hscan := scan_comap (g := g) hr (.start text)
  rw [findIter, show Pos.start (text.map g) = (Pos.start text).map g from rfl, hscan, findIter]
  rw [List.filterMap_map, List.map_filterMap]
  refine List.filterMap_congr fun x _ => ?_
  cases x <;> rfl

theorem sub_comap (hr : r.Proper) (y : σ) (text : List σ) :
    sub r (g y) (text.map g) = (sub (r.comap g) y text).map g := by
  have hscan := scan_comap (g := g) hr (.start text)
  rw [sub, show Pos.start (text.map g) = (Pos.start text).map g from rfl, hscan, sub, List.map_map,
    List.map_map]
  refine List.map_congr_left fun x _ => ?_
  cases x <;> rfl

end Comap

end Chic.Backtrack
