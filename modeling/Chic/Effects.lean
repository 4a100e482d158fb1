import Mathlib.Logic.Function.Basic
import Chic.Trace

namespace Chic.Effects

/-- A program that performs effects one after the other. The world answers an effect, or the effect
raises, which is the answer `none`; the program may end by an exception itself. -/
inductive Prog (E : Type) (R : E → Type) (α : Type)
  | ret (a : α)
  | raised
  | act (e : E) (next : Option (R e) → Prog E R α)

abbrev Done (E : Type) (R : E → Type) := (e : E) × Option (R e)

variable {E : Type} {R : E → Type} {α β : Type}

namespace Prog

def bind : Prog E R α → (α → Prog E R β) → Prog E R β
  | ret a, f => f a
  | raised, _ => raised
  | act e next, f => act e fun r => (next r).bind f

instance : Monad (Prog E R) where
  pure := ret
  bind := bind

def call (e : E) : Prog E R (R e) :=
  act e fun
    | some r => ret r
    | none => raised

def attempt : Prog E R α → Prog E R (Option α)
  | ret a => ret (some a)
  | raised => ret none
  | act e next => act e fun r => (next r).attempt

@[simp] theorem pure_eq (a : α) : (pure a : Prog E R α) = ret a := rfl

@[simp] theorem ret_bind (a : α) (f : α → Prog E R β) : (ret a : Prog E R α) >>= f = f a := rfl

@[simp] theorem raised_bind (f : α → Prog E R β) : (raised : Prog E R α) >>= f = raised := rfl

@[simp] theorem act_bind (e : E) (next : Option (R e) → Prog E R α) (f : α → Prog E R β) :
    act e next >>= f = act e fun r => next r >>= f := rfl

theorem forM_map {ι κ : Type} (xs : List ι) (g : ι → κ) (f : κ → Prog E R PUnit) :
    (xs.map g).forM f = xs.forM fun x => f (g x) := by
  induction xs with
  | nil => rfl
  | cons x xs ih => exact congrArg (fun rest => f (g x) >>= fun _ => rest) ih

section Only
variable {P P' : List (Done E R) → E → Prop} {Q Q' : List (Done E R) → Option α → Prop}
  {S : List (Done E R) → Option β → Prop} {past : List (Done E R)} {m : Prog E R α}

/-- Whatever the answers are, each effect is one that `P` allows after what the program has done
before, and the end meets `Q`: with a value, or with `none` when an exception leaves the program. -/
def Only (P : List (Done E R) → E → Prop) (Q : List (Done E R) → Option α → Prop) :
    List (Done E R) → Prog E R α → Prop
  | past, ret a => Q past (some a)
  | past, raised => Q past none
  | past, act e next => P past e ∧ ∀ r, (next r).Only P Q (past ++ [⟨e, r⟩])

@[simp] theorem only_ret {a : α} : (ret a : Prog E R α).Only P Q past ↔ Q past (some a) := Iff.rfl

@[simp] theorem only_raised : (raised : Prog E R α).Only P Q past ↔ Q past none := Iff.rfl

@[simp] theorem only_act {e : E} {next : Option (R e) → Prog E R α} :
    (act e next).Only P Q past ↔ P past e ∧ ∀ r, (next r).Only P Q (past ++ [⟨e, r⟩]) := Iff.rfl

theorem Only.mono (hP : ∀ past e, P past e → P' past e) (hQ : ∀ past o, Q past o → Q' past o)
    (h : m.Only P Q past) : m.Only P' Q' past := by
  induction m generalizing past with
  | ret a => exact hQ past (some a) h
  | raised => exact hQ past none h
  | act e next ih => exact ⟨hP past e h.1, fun r => ih r (h.2 r)⟩

theorem only_bind {f : α → Prog E R β} :
    (m >>= f).Only P S past ↔
      m.Only P (fun past o => o.elim (S past none) fun a => (f a).Only P S past) past := by
  induction m generalizing past with
  | ret a => exact Iff.rfl
  | raised => exact Iff.rfl
  | act e next ih => exact and_congr_right' (forall_congr' fun r => ih r)

theorem Only.bind {f : α → Prog E R β} (h : m.Only P Q past)
    (hnone : ∀ past, Q past none → S past none)
    (hsome : ∀ past a, Q past (some a) → (f a).Only P S past) : (m >>= f).Only P S past := by
  refine only_bind.mpr (h.mono (fun _ _ h => h) fun past o ho => ?_)
  cases o with
  | none => exact hnone past ho
  | some a => exact hsome past a ho

/-- What is true of the past and of whatever is appended to it is still true at the end. -/
theorem Only.frame {I : List (Done E R) → Prop} (h : m.Only P Q past) (hI : I past)
    (hgrow : ∀ past d, I past → I (past ++ [d])) :
    m.Only P (fun past o => I past ∧ Q past o) past := by
  induction m generalizing past with
  | ret a => exact ⟨hI, h⟩
  | raised => exact ⟨hI, h⟩
  | act e next ih => exact ⟨h.1, fun r => ih r (h.2 r) (hgrow past ⟨e, r⟩ hI)⟩

theorem only_attempt {Q : List (Done E R) → Option (Option α) → Prop} :
    m.attempt.Only P Q past ↔ m.Only P (fun past o => Q past (some o)) past := by
  induction m generalizing past with
  | ret a => exact Iff.rfl
  | raised => exact Iff.rfl
  | act e next ih => exact and_congr_right' (forall_congr' fun r => ih r)

theorem only_call {e : E} {Q : List (Done E R) → Option (R e) → Prop} :
    (call e).Only P Q past ↔ P past e ∧ ∀ r, Q (past ++ [⟨e, r⟩]) r := by
  refine and_congr_right' (forall_congr' fun r => ?_)
  cases r <;> exact Iff.rfl

/-- A loop keeps what each turn keeps, also when a turn raises. -/
theorem only_forM {ι : Type} {I : List (Done E R) → Prop} {f : ι → Prog E R PUnit} (xs : List ι)
    (hI : I past) (hf : ∀ x ∈ xs, ∀ past, I past → (f x).Only P (fun past _ => I past) past) :
    (xs.forM f).Only P (fun past _ => I past) past := by
  induction xs generalizing past with
  | nil => exact hI
  | cons x xs ih =>
    change (f x >>= fun _ => xs.forM f).Only P _ past
    exact (hf x List.mem_cons_self past hI).bind (fun _ h => h) fun past _ h =>
      ih h fun y hy => hf y (List.mem_cons_of_mem x hy)

end Only

section Exec
variable (world : List (Done E R) → (e : E) → Option (R e)) {past : List (Done E R)} {m : Prog E R α}

/-- The program alone in a world that answers by what was done before: all that is done then, and
the end. -/
def exec : List (Done E R) → Prog E R α → List (Done E R) × Option α
  | past, ret a => (past, some a)
  | past, raised => (past, none)
  | past, act e next => exec (past ++ [⟨e, world past e⟩]) (next (world past e))

@[simp] theorem exec_ret {a : α} : (ret a : Prog E R α).exec world past = (past, some a) := rfl

@[simp] theorem exec_raised : (raised : Prog E R α).exec world past = (past, none) := rfl

theorem exec_bind {f : α → Prog E R β} :
    (m >>= f).exec world past =
      match m.exec world past with
      | (past', none) => (past', none)
      | (past', some a) => (f a).exec world past' := by
  induction m generalizing past with
  | ret a => rfl
  | raised => rfl
  | act e next ih => exact ih (world past e)

theorem exec_call {e : E} :
    (call e : Prog E R (R e)).exec world past = (past ++ [⟨e, world past e⟩], world past e) := by
  rw [call, exec]
  cases world past e <;> rfl

theorem exec_attempt :
    m.attempt.exec world past = ((m.exec world past).1, some (m.exec world past).2) := by
  induction m generalizing past with
  | ret a => rfl
  | raised => rfl
  | act e next ih => exact ih (world past e)

/-- What a program keeps to for all answers, it keeps to in the world. -/
theorem Only.exec {P : List (Done E R) → E → Prop} {Q : List (Done E R) → Option α → Prop}
    (h : m.Only P Q past) : Q (m.exec world past).1 (m.exec world past).2 := by
  induction m generalizing past with
  | ret a => exact h
  | raised => exact h
  | act e next ih => exact ih _ (h.2 _)

end Exec

section Perform
variable [DecidableEq E]

/-- The program after its next effect is the one that is answered. -/
def perform : Prog E R α → Done E R → Option (Prog E R α)
  | act e next, ⟨e', r⟩ => if h : e' = e then some (next (h ▸ r)) else none
  | _, _ => none

theorem perform_eq_some {m m' : Prog E R α} {d : Done E R} :
    m.perform d = some m' ↔ ∃ next, m = act d.1 next ∧ m' = next d.2 := by
  obtain ⟨e, r⟩ := d
  cases m with
  | ret a => simp [perform]
  | raised => simp [perform]
  | act e' next =>
    rw [perform]
    split_ifs with h
    · subst h
      simp [eq_comm]
    · simp [Ne.symm h]

/-- What an allowed program does next is allowed, and so is what is left of it. -/
theorem Only.perform {P : List (Done E R) → E → Prop} {Q : List (Done E R) → Option α → Prop}
    {past : List (Done E R)} {m m' : Prog E R α} {d : Done E R} (h : m.Only P Q past)
    (hm : m.perform d = some m') : P past d.1 ∧ m'.Only P Q (past ++ [d]) := by
  obtain ⟨next, rfl, rfl⟩ := perform_eq_some.mp hm
  exact ⟨h.1, h.2 d.2⟩

def performs : Prog E R α → List (Done E R) → Option (Prog E R α) := Trace.run perform

/-- What the program does in a world it can perform. -/
theorem performs_exec (world : List (Done E R) → (e : E) → Option (R e)) (past : List (Done E R))
    (m : Prog E R α) :
    ∃ ds, (m.exec world past).1 = past ++ ds ∧
      m.performs ds = some ((m.exec world past).2.elim raised ret) := by
  induction m generalizing past with
  | ret a => exact ⟨[], (List.append_nil past).symm, rfl⟩
  | raised => exact ⟨[], (List.append_nil past).symm, rfl⟩
  | act e next ih =>
    obtain ⟨ds, hds, hperforms⟩ := ih (world past e) (past ++ [⟨e, world past e⟩])
    refine ⟨⟨e, world past e⟩ :: ds, ?_, ?_⟩
    · rw [exec, hds, List.append_assoc, List.singleton_append]
    · refine Trace.run_cons_some.mpr ⟨next (world past e), ?_, hperforms⟩
      exact perform_eq_some.mpr ⟨next, rfl, rfl⟩

end Perform

end Prog

/-- A server that takes inputs one at a time: each may change its state and may start a task. -/
structure Server (E : Type) (R : E → Type) (σ ι : Type) where
  init : σ
  accept : σ → ι → σ × Option (Prog E R Unit)

/-- The inputs, the task that each of them has started, if any, and what was done. -/
structure World (E : Type) (R : E → Type) (σ ι : Type) where
  state : σ
  inputs : List ι
  tasks : ℕ → Option (Prog E R Unit)
  log : List (ℕ × Done E R)

inductive Event (E : Type) (R : E → Type) (ι : Type)
  | input (x : ι)
  | act (i : ℕ) (d : Done E R)

def past (i : ℕ) (log : List (ℕ × Done E R)) : List (Done E R) := (log.filter (·.1 = i)).map Prod.snd

@[simp] theorem past_nil (i : ℕ) : past i ([] : List (ℕ × Done E R)) = [] := rfl

theorem past_concat (log : List (ℕ × Done E R)) (i j : ℕ) (d : Done E R) :
    past j (log ++ [(i, d)]) = if i = j then past j log ++ [d] else past j log := by
  rw [past, List.filter_append, List.map_append]
  split_ifs with h <;> simp [h, past]

namespace Server
variable {σ ι : Type} (srv : Server E R σ ι)

def start : World E R σ ι := ⟨srv.init, [], fun _ => none, []⟩

def stateAfter (xs : List ι) : σ := xs.foldl (fun s x => (srv.accept s x).1) srv.init

def taskOf (xs : List ι) (i : ℕ) : Option (ι × Prog E R Unit) :=
  xs[i]?.bind fun x => ((srv.accept (srv.stateAfter (xs.take i)) x).2).map (x, ·)

/-- Inputs and the effects of the tasks come in any order. -/
def step [DecidableEq E] (w : World E R σ ι) : Event E R ι → Option (World E R σ ι)
  | .input x =>
    let (s, task) := srv.accept w.state x
    some
      { w with
        state := s
        inputs := w.inputs ++ [x]
        tasks := Function.update w.tasks w.inputs.length task }
  | .act i d =>
    (w.tasks i).bind fun m => (m.perform d).map fun m' =>
      { w with
        tasks := Function.update w.tasks i (some m')
        log := w.log ++ [(i, d)] }

/-- Every effect done belongs to the task of an input and is one that the input allows after what its
task has done before. -/
def Accounted (G : ι → List (Done E R) → E → Prop) (w : World E R σ ι) : Prop :=
  ∀ l i d l', w.log = l ++ (i, d) :: l' →
    ∃ x m, srv.taskOf w.inputs i = some (x, m) ∧ G x (past i l) d.1

theorem taskOf_append {xs ys : List ι} {i : ℕ} {t : ι × Prog E R Unit} (h : srv.taskOf xs i = some t) :
    srv.taskOf (xs ++ ys) i = some t := by
  have hlt : i < xs.length := by
    by_contra hle
    rw [taskOf, List.getElem?_eq_none (Nat.not_lt.mp hle)] at h
    cases h
  rw [taskOf, List.getElem?_append_left hlt, List.take_append_of_le_length (Nat.le_of_lt hlt)]
  exact h

section Guarantee
variable {G : ι → List (Done E R) → E → Prop} {w w' : World E R σ ι}

/-- The state is that after the inputs; tasks do only what their inputs allow. -/
structure Sound (G : ι → List (Done E R) → E → Prop) (w : World E R σ ι) : Prop where
  state : w.state = srv.stateAfter w.inputs
  idle : ∀ i, w.inputs.length ≤ i → w.tasks i = none ∧ past i w.log = []
  tasks : ∀ i m, w.tasks i = some m → ∃ t, srv.taskOf w.inputs i = some t ∧
    m.Only (G t.1) (fun _ _ => True) (past i w.log)
  log : srv.Accounted G w

theorem sound_start : srv.Sound G srv.start where
  state := rfl
  idle _ _ := ⟨rfl, rfl⟩
  tasks _ _ h := by cases h
  log l i d l' h := by cases l <;> cases h

variable [DecidableEq E]

theorem Sound.step (hG : ∀ s x m, (srv.accept s x).2 = some m → m.Only (G x) (fun _ _ => True) [])
    (hw : srv.Sound G w) {e : Event E R ι} (h : srv.step w e = some w') : srv.Sound G w' := by
  cases e with
  | input x =>
    cases h
    have hstate : (srv.accept w.state x).1 = srv.stateAfter (w.inputs ++ [x]) := by
      rw [stateAfter, List.foldl_append, ← stateAfter, ← hw.state]
      rfl
    refine ⟨hstate, ?_, ?_, ?_⟩
    · intro i hi
      dsimp only at hi ⊢
      rw [List.length_append, List.length_singleton] at hi
      rw [Function.update_of_ne (by omega)]
      exact hw.idle i (by omega)
    · intro i m hm
      dsimp only at hm ⊢
      -- the task of this input has done nothing yet; the others are as they were
      rcases eq_or_ne i w.inputs.length with rfl | hne
      · rw [Function.update_self] at hm
        refine ⟨(x, m), ?_, ?_⟩
        · simp [taskOf, ← hw.state, hm]
        · rw [(hw.idle _ (Nat.le_refl _)).2]
          exact hG _ _ _ hm
      · rw [Function.update_of_ne hne] at hm
        obtain ⟨t, ht, honly⟩ := hw.tasks i m hm
        exact ⟨t, srv.taskOf_append ht, honly⟩
    · intro l i d l' hlog
      obtain ⟨y, m, ht, hallowed⟩ := hw.log l i d l' hlog
      exact ⟨y, m, srv.taskOf_append ht, hallowed⟩
  | act i d =>
    obtain ⟨m, hm, h⟩ := Option.bind_eq_some_iff.mp h
    obtain ⟨m', hm', rfl⟩ := Option.map_eq_some_iff.mp h
    obtain ⟨t, ht, honly⟩ := hw.tasks i m hm
    obtain ⟨hallowed, hrest⟩ := honly.perform hm'
    -- of the tasks only that at `i` moves on, and the log grows by its effect
    refine ⟨hw.state, ?_, ?_, ?_⟩
    · intro j hj
      have hne : i ≠ j := by
        rintro rfl
        rw [(hw.idle i hj).1] at hm
        cases hm
      dsimp only
      rw [Function.update_of_ne hne.symm, past_concat, if_neg hne]
      exact hw.idle j hj
    · intro j k hk
      dsimp only at hk ⊢
      rcases eq_or_ne i j with rfl | hne
      · rw [Function.update_self] at hk
        rw [past_concat, if_pos rfl]
        exact ⟨t, ht, Option.some.inj hk ▸ hrest⟩
      · rw [Function.update_of_ne hne.symm] at hk
        rw [past_concat, if_neg hne]
        exact hw.tasks j k hk
    · intro l j d' l' hlog
      rcases List.eq_nil_or_concat l' with rfl | ⟨l', z, rfl⟩
      · obtain ⟨rfl, hlast⟩ := List.append_inj' hlog rfl
        cases hlast
        exact ⟨t.1, t.2, ht, hallowed⟩
      · rw [List.concat_eq_append, ← List.cons_append, ← List.append_assoc] at hlog
        exact hw.log l j d' l' (List.append_inj' hlog rfl).1

/-- What the program of every input keeps to, all tasks keep to in every run, however their effects
are interleaved. -/
theorem accounted (hG : ∀ s x m, (srv.accept s x).2 = some m → m.Only (G x) (fun _ _ => True) [])
    {es : List (Event E R ι)} (h : Trace.run srv.step srv.start es = some w) : srv.Accounted G w := by
  have hsound : srv.Sound G w :=
    Trace.run_invariant (fun _ _ _ hw => Sound.step srv hG hw) srv.sound_start h
  exact hsound.log

end Guarantee

end Server

end Chic.Effects
