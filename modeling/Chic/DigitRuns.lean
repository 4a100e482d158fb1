import Chic.NumberReader

namespace Chic.Guardrail
open Backtrack PyText

/-- No digit before the first digit of a figure, nor after its last character. -/
def WholeRuns (m : Match Char Figure) : Prop :=
  (∀ c, (m.value.sign.toList ++ m.start.before).head? = some c → isDigit c = false) ∧
    ∀ c, m.stop.rest.head? = some c → isDigit c = false

/-- One to three digits, not right after a word character, a dot or a comma, then a separator and
at least four digits. -/
def SplitsRun (w : WordClass) (text : List Char) : Prop :=
  ∃ b run s ds rest, text = b ++ (run ++ s :: (ds ++ rest)) ∧ boundary w b.reverse = true ∧
    (1 ≤ run.length ∧ run.length ≤ 3) ∧ (∀ c ∈ run, isDigit c = true) ∧ isSep s = true ∧
      4 ≤ ds.length ∧ ∀ c ∈ ds, isDigit c = true

section
variable {w : WordClass} {b l run ds rest : List Char} {s c : Char} {f : Figure}
  {groups : List (List Char)}

theorem isDigit_of_boundary (h : boundary w b = true) (hc : b.head? = some c) : isDigit c = false := by
  rw [boundary, hc] at h
  by_contra hdigit
  rw [Bool.not_eq_false] at hdigit
  simp [w.digit c hdigit] at h

theorem groupsOf_long (hs : isSep s = true) (hlen : 4 ≤ ds.length) (hds : ∀ c ∈ ds, isDigit c = true)
    (rest : List Char) : ∃ x y z d ds', ds = x :: y :: z :: d :: ds' ∧
      groupsOf (s :: (ds ++ rest)) = [[s, x, y, z]] := by
  obtain ⟨x, y, z, d, ds', rfl⟩ : ∃ x y z d ds', ds = x :: y :: z :: d :: ds' := by
    rcases ds with _ | ⟨x, _ | ⟨y, _ | ⟨z, _ | ⟨d, ds'⟩⟩⟩⟩ <;> simp_all
  simp only [List.forall_mem_cons] at hds
  refine ⟨x, y, z, d, ds', rfl, ?_⟩
  simp only [List.cons_append, groupsOf, hs, hds.1, hds.2.1, hds.2.2.1, Bool.and_self, if_true]
  rw [groupsOf_digit hds.2.2.2.1]

theorem boundary_cons (hword : w.isWord c = false) (hpoint : isPoint c = false) (b : List Char) :
    boundary w (c :: b) = true := by
  simp [boundary, hword, hpoint]

theorem boundary_of_isSep (h : isSep c = true) (b : List Char) : boundary w (c :: b) = true := by
  have hall : ∀ c ∈ groupChars, c ∈ [' ', '\u00a0', '\u202f', '-', '−', '['] ∧ isPoint c = false := by
    decide
  obtain ⟨hmem, hpoint⟩ := hall c (of_decide_eq_true h)
  exact boundary_cons (w.other c hmem) hpoint b

theorem boundary_of_isMinus (h : isMinus c = true) (b : List Char) : boundary w (c :: b) = true := by
  rcases of_decide_eq_true h with rfl | rfl
  · exact boundary_cons (w.other '-' (by decide)) (by decide) b
  · exact boundary_cons (w.other '−' (by decide)) (by decide) b

theorem exists_run_before (hsign : ∀ c, f.sign = some c → isMinus c = true) (hne : run ≠ [])
    (hlen : run.length ≤ 3) (hdigit : ∀ c ∈ run, isDigit c = true)
    (hgroups : ∀ g ∈ groups, IsGroup g) (hb : boundary w b = true) :
    ∃ b' run', b.reverse ++ (f.sign.toList ++ (run ++ groups.flatten)) = b' ++ run' ∧
      boundary w b'.reverse = true ∧ (1 ≤ run'.length ∧ run'.length ≤ 3) ∧
        ∀ c ∈ run', isDigit c = true := by
  rcases List.eq_nil_or_concat' groups with rfl | ⟨gs, g, rfl⟩
  · refine ⟨b.reverse ++ f.sign.toList, run, by simp, ?_, ⟨List.length_pos_iff.mpr hne, hlen⟩,
      hdigit⟩
    cases hs : f.sign with
    | none => simpa using hb
    | some c => simpa using boundary_of_isMinus (hsign c hs) b
  · obtain ⟨s, ds, rfl, hs, hds, hdigits⟩ := hgroups g (List.mem_append_right _ List.mem_cons_self)
    refine ⟨b.reverse ++ (f.sign.toList ++ (run ++ (gs.flatten ++ [s]))), ds, by simp, ?_,
      by omega, hdigits⟩
    simpa using boundary_of_isSep hs _

theorem length_run_le (h : Shape l f run groups rest) (hne : groups ≠ []) : run.length ≤ 3 := by
  by_contra hlong
  have hnil := h.groups_eq
  rw [if_neg hlong] at hnil
  exact hne hnil

/-- A figure whose last group is cut out of a longer run. -/
theorem splitsRun_of_groups (hshape : Shape l f run groups rest) (hgroups : groups ≠ [])
    (hc : rest.head? = some c) (hdigit : isDigit c = true) (hb : boundary w b = true) :
    SplitsRun w (b.reverse ++ l) := by
  have hlen := length_run_le hshape hgroups
  have hmem := fun g => hshape.isGroup (g := g)
  have htext := hshape.text
  obtain ⟨gs, g, rfl⟩ := (List.eq_nil_or_concat' groups).resolve_left hgroups
  obtain ⟨s, ds, rfl, hs, hds, hdigits⟩ := hmem g (List.mem_append_right _ List.mem_cons_self)
  obtain ⟨rest', rfl⟩ : ∃ rest', rest = c :: rest' := by
    cases rest with
    | nil => cases hc
    | cons c' rest' => exact ⟨rest', by rw [Option.some.inj hc]⟩
  obtain ⟨b', run', hbefore, hb', hrun', hdigit'⟩ := exists_run_before hshape.sign hshape.run_ne hlen
    hshape.run_digit (fun g hg => hmem g (List.mem_append_left _ hg)) hb
  refine ⟨b', run', s, ds ++ [c], rest', ?_, hb', hrun', hdigit', hs, ?_, ?_⟩
  · rw [htext, ← List.append_assoc b', ← hbefore]
    simp
  · rw [List.length_append, List.length_singleton, hds]
  · intro x hx
    rcases List.mem_append.mp hx with hx | hx
    · exact hdigits x hx
    · rw [List.mem_singleton.mp hx]
      exact hdigit

/-- A figure that is not followed by a digit, unless it is cut out of a longer run. -/
theorem wholeRuns_of_first {q : Pos Char} {p : Pos Char} (h : (numberPattern w).first p = some (f, q))
    (hsplit : ¬SplitsRun w (p.before.reverse ++ p.rest)) : WholeRuns ⟨f, p, q⟩ := by
  obtain ⟨b, l⟩ := p
  obtain ⟨hb, hf, rfl⟩ := first_number_eq_some h
  obtain ⟨run, groups, rest, hshape⟩ := exists_shape hf
  refine ⟨fun c hc => ?_, fun c hc => ?_⟩
  · cases hsign : f.sign with
    | none =>
      dsimp only at hc
      rw [hsign] at hc
      exact isDigit_of_boundary hb hc
    | some s =>
      dsimp only at hc
      rw [hsign] at hc
      exact Option.some.inj hc ▸ isDigit_of_isMinus (hshape.sign s hsign)
  · by_contra hdigit
    rw [Bool.not_eq_false] at hdigit
    obtain ⟨-, htext⟩ := hshape.chars_eq
    dsimp only at hc
    rw [htext, List.drop_left] at hc
    -- no digit follows a fraction; one that follows the groups would belong to a longer run
    cases hfraction : fractionAt rest with
    | some x =>
      rw [hfraction] at hc
      rw [isDigit_after_fraction hfraction hc] at hdigit
      cases hdigit
    | none =>
      rw [hfraction] at hc
      by_cases hgroups : groups = []
      · have hnext := hshape.next c
        rw [hgroups] at hnext
        rw [hnext hc] at hdigit
        cases hdigit
      · exact hsplit (splitsRun_of_groups hshape hgroups hc hdigit hb)

end

section Converse
variable {w : WordClass} {b l run head ds rest after t u v : List Char} {s y c d : Char}
  {f : Figure} {groups : List (List Char)}

theorem head?_after_groups (h : Shape l f run groups rest) (hc : rest.head? = some d)
    (hd : isDigit d = true) : (l.drop f.chars.length).head? = some d := by
  have hnone : fractionAt rest = none := by
    cases hfraction : fractionAt rest with
    | none => rfl
    | some x =>
      have hsplit := fractionAt_append rest
      rw [hfraction] at hsplit
      rw [hsplit] at hc
      have hpoint := isDigit_of_isPoint (fractionAt_eq_some hfraction).1
      rw [Option.some.inj hc, hd] at hpoint
      cases hpoint
  obtain ⟨-, htext⟩ := h.chars_eq
  rw [htext, List.drop_left, hnone]
  exact hc

/-- A figure that begins with the run, or with a sign before it, ends inside the digits. -/
theorem head?_of_run (h : Shape l f run groups rest)
    (htext : l = f.sign.toList ++ (head ++ s :: (ds ++ t))) (hlen : head.length ≤ 3)
    (hdigit : ∀ c ∈ head, isDigit c = true) (hs : isSep s = true) (hds : 4 ≤ ds.length)
    (hdigits : ∀ c ∈ ds, isDigit c = true) :
    ∃ d, isDigit d = true ∧ (l.drop f.chars.length).head? = some d := by
  obtain ⟨x, y, z, d, ds', rfl, hgroups⟩ := groupsOf_long hs hds hdigits t
  have hd : isDigit d = true := hdigits d (by simp)
  have heq := List.append_cancel_left (h.text.symm.trans htext)
  have hrun : run = head := by
    rw [← (takeWhile_run h.run_digit h.next).1, heq]
    refine (takeWhile_run hdigit fun c hc => ?_).1
    exact Option.some.inj hc ▸ isDigit_of_isSep hs
  subst hrun
  have hafter := List.append_cancel_left heq
  have hgroups' := h.groups_eq
  rw [if_pos hlen, hafter, hgroups] at hgroups'
  rw [hgroups'] at hafter
  refine ⟨d, hd, head?_after_groups h ?_ hd⟩
  simp only [List.flatten_cons, List.flatten_nil, List.append_nil, List.cons_append, List.nil_append,
    List.cons.injEq, true_and] at hafter
  rw [hafter]
  rfl

theorem groupsOf_split (hy : isSep y = true) (hsplit : (groupsOf (u ++ y :: v)).flatten = u ++ y :: t) :
    ∃ gs, u = gs.flatten ∧ groupsOf (u ++ y :: v) = gs ++ groupsOf (y :: v) := by
  induction hn : u.length using Nat.strongRecOn generalizing u with
  | ind n ih =>
    cases u with
    | nil => exact ⟨[], rfl, rfl⟩
    | cons c u =>
      have hne : groupsOf (c :: u ++ y :: v) ≠ [] := by
        intro hnil
        rw [hnil] at hsplit
        cases hsplit
      obtain ⟨s, a, b, e, rest, heq, hgroup, hgroups⟩ := exists_group hne
      simp only [Bool.and_eq_true] at hgroup
      have hdigit := isDigit_of_isSep hy
      -- the separator is none of the three digits of the first group
      obtain ⟨u', rfl⟩ : ∃ u', u = a :: b :: e :: u' := by
        rcases u with _ | ⟨a', _ | ⟨b', _ | ⟨e', u'⟩⟩⟩ <;> simp_all
      obtain ⟨rfl, rfl⟩ : c = s ∧ u' ++ y :: v = rest := by simpa using heq
      rw [hgroups] at hsplit
      obtain ⟨gs, hu, hgs⟩ := ih u'.length (by simp only [← hn, List.length_cons]; omega)
        (by simpa using hsplit) rfl
      exact ⟨[c, a, b, e] :: gs, by simp [hu], by rw [hgroups, hgs]; rfl⟩

theorem split_right {α : Type} {a b u v : List α} {y : α} (h : a ++ b = u ++ y :: v) (hy : y ∉ a) :
    ∃ c, u = a ++ c ∧ b = c ++ y :: v := by
  rcases List.append_eq_append_iff.mp h with ⟨c, hu, hb⟩ | ⟨c, ha, hv⟩
  · exact ⟨c, hu, hb⟩
  · cases c with
    | nil => exact ⟨[], by simp [ha], hv.symm⟩
    | cons c cs =>
      obtain ⟨rfl, -⟩ := List.cons.inj hv
      exact absurd (ha ▸ List.mem_append_right u List.mem_cons_self) hy

theorem split_left {α : Type} {a b u v : List α} {y : α} (h : a ++ b = u ++ y :: v) (hy : y ∉ b) :
    ∃ c, a = u ++ y :: c := by
  rcases List.append_eq_append_iff.mp h with ⟨c, -, hb⟩ | ⟨c, ha, hv⟩
  · exact absurd (hb ▸ List.mem_append_right c List.mem_cons_self) hy
  · cases c with
    | nil =>
      rw [List.nil_append] at hv
      exact absurd (hv ▸ List.mem_cons_self) hy
    | cons c cs =>
      obtain ⟨rfl, -⟩ := List.cons.inj hv
      exact ⟨cs, ha⟩

theorem not_mem_fractionChars (hy : isSep y = true) : y ∉ fractionChars (fractionAt rest) := by
  cases hfraction : fractionAt rest with
  | none => exact List.not_mem_nil
  | some x =>
    obtain ⟨hpoint, -, hdigits⟩ := fractionAt_eq_some hfraction
    intro hmem
    rcases List.mem_cons.mp hmem with rfl | hmem
    · have hall : ∀ c ∈ groupChars, isPoint c = false := by decide
      rw [hall x.1 (of_decide_eq_true hy)] at hpoint
      cases hpoint
    · have := hdigits y hmem
      rw [isDigit_of_isSep hy] at this
      cases this

theorem not_mem_head (h : Shape l f run groups rest) (hy : isSep y = true) :
    y ∉ f.sign.toList ++ run := by
  intro hmem
  rcases List.mem_append.mp hmem with hmem | hmem
  · have hminus := h.sign y (Option.mem_toList.mp hmem)
    have hall : ∀ c ∈ groupChars, isMinus c = false := by decide
    rw [hall y (of_decide_eq_true hy)] at hminus
    cases hminus
  · have := h.run_digit y hmem
    rw [isDigit_of_isSep hy] at this
    cases this

theorem groups_eq_of_ne (h : Shape l f run groups rest) (hne : groups ≠ []) :
    groups = groupsOf (groups.flatten ++ rest) :=
  h.groups_eq.trans (if_pos (length_run_le h hne))

/-- A run of one or two digits would put the separator among the digits of the group. -/
theorem run_eq_of_group {a b e : Char} {r rest' : List Char} (hne : head ≠ []) (hlen : head.length ≤ 3)
    (hs : isDigit s = false) (hb : isDigit b = true) (he : isDigit e = true)
    (heq : head ++ s :: r = a :: b :: e :: rest') : head = [a, b, e] ∧ rest' = s :: r := by
  have hnot : ∀ c, isDigit c = true → c ≠ s := by
    rintro c hc rfl
    rw [hs] at hc
    cases hc
  rcases head with _ | ⟨a', _ | ⟨b', _ | ⟨e', _ | ⟨c, head⟩⟩⟩⟩
  · exact absurd rfl hne
  · simp only [List.cons_append, List.nil_append, List.cons.injEq] at heq
    exact absurd heq.2.1.symm (hnot b hb)
  · simp only [List.cons_append, List.nil_append, List.cons.injEq] at heq
    exact absurd heq.2.2.1.symm (hnot e he)
  · simp only [List.cons_append, List.nil_append, List.cons.injEq] at heq
    obtain ⟨rfl, rfl, rfl, rfl⟩ := heq
    exact ⟨rfl, rfl⟩
  · simp only [List.length_cons] at hlen
    omega

/-- A separator of the figure with a short run after it: the figure ends inside the digits. -/
theorem head?_of_sep (h : Shape l f run groups rest)
    (htext : l = u ++ y :: (head ++ s :: (ds ++ t))) (hchars : f.chars = u ++ y :: v)
    (hy : isSep y = true) (hne : head ≠ []) (hlen : head.length ≤ 3) (hs : isSep s = true)
    (hds : 4 ≤ ds.length) (hdigits : ∀ c ∈ ds, isDigit c = true) :
    ∃ d, isDigit d = true ∧ (l.drop f.chars.length).head? = some d := by
  obtain ⟨x, y', z, d, ds', rfl, hlong⟩ := groupsOf_long hs hds hdigits t
  have hd : isDigit d = true := hdigits d (by simp)
  rw [h.chars_eq.1, ← List.append_assoc] at hchars
  obtain ⟨u', rfl, hparts⟩ := split_right hchars (not_mem_head h hy)
  obtain ⟨v', hflatten⟩ := split_left hparts (not_mem_fractionChars hy)
  have hafter : groups.flatten ++ rest =
      u' ++ y :: (head ++ s :: (x :: y' :: z :: d :: ds' ++ t)) := by
    have heq : f.sign.toList ++ run ++ (groups.flatten ++ rest) = f.sign.toList ++ run ++
        (u' ++ y :: (head ++ s :: (x :: y' :: z :: d :: ds' ++ t))) := by
      rw [List.append_assoc, ← h.text, htext, List.append_assoc]
    exact List.append_cancel_left heq
  have hgroups : groups = groupsOf (groups.flatten ++ rest) := by
    refine groups_eq_of_ne h ?_
    rintro rfl
    cases u' <;> cases hflatten
  rw [hafter] at hgroups
  obtain ⟨gs, rfl, hgs⟩ := groupsOf_split (t := v') hy (hgroups ▸ hflatten)
  have htail : groupsOf (y :: (head ++ s :: (x :: y' :: z :: d :: ds' ++ t))) ≠ [] := by
    intro hnil
    rw [hgroups, hgs, hnil, List.append_nil] at hflatten
    have := congrArg List.length hflatten
    simp at this
  obtain ⟨y₀, a, b, e, rest', heq, hgroup, hsplit⟩ := exists_group htail
  simp only [Bool.and_eq_true] at hgroup
  obtain ⟨rfl, htext'⟩ := List.cons.inj heq
  obtain ⟨rfl, rfl⟩ := run_eq_of_group hne hlen (isDigit_of_isSep hs) hgroup.2.2.1 hgroup.2.2.2 htext'
  refine ⟨d, hd, head?_after_groups h ?_ hd⟩
  rw [hgs, hsplit, hlong] at hgroups
  rw [hgroups] at hafter
  simp only [List.flatten_append, List.flatten_cons, List.flatten_nil, List.append_assoc,
    List.append_cancel_left_eq, List.cons_append, List.nil_append, List.append_nil, List.cons.injEq,
    true_and] at hafter
  rw [hafter]
  rfl

theorem sign_of_head (h : Shape l f run groups rest) (hc : l.head? = some c) :
    f.sign = if isMinus c then some c else none := by
  have hsign := signAt_eq h.sign h.run_ne h.run_digit (groups.flatten ++ rest)
  rw [← h.text] at hsign
  rw [← hsign]
  cases l with
  | nil => cases hc
  | cons c' l =>
    obtain rfl := Option.some.inj hc
    rfl

theorem isMinus_of_isDigit (h : isDigit c = true) : isMinus c = false := by
  by_contra hminus
  rw [Bool.not_eq_false] at hminus
  rw [isDigit_of_isMinus hminus] at h
  cases h

theorem exists_of_lt_length (hf : figureAt (u ++ v) = some f) (h : u.length < f.chars.length) :
    ∃ t, f.chars = u ++ t := by
  rcases List.append_eq_append_iff.mp (chars_append_drop hf) with ⟨t, ht, -⟩ | ⟨t, ht, -⟩
  · exact ⟨t, ht⟩
  · have := congrArg List.length ht
    rw [List.length_append] at this
    omega

theorem exists_of_length_le (hf : figureAt (u ++ v) = some f) (h : f.chars.length ≤ u.length) :
    ∃ t, u = f.chars ++ t := by
  rcases List.append_eq_append_iff.mp (chars_append_drop hf) with ⟨t, ht, -⟩ | ⟨t, ht, -⟩
  · have hlen := congrArg List.length ht
    rw [List.length_append] at hlen
    rw [List.length_eq_zero_iff.mp (show t.length = 0 by omega), List.append_nil] at ht
    exact ⟨[], by rw [ht, List.append_nil]⟩
  · exact ⟨t, ht⟩

theorem figureAt_digit (h : isDigit c = true) (l : List Char) : ∃ f, figureAt (c :: l) = some f := by
  have hsign : signAt (c :: l) = none := by
    rw [signAt, isMinus_of_isDigit h]
    rfl
  unfold figureAt
  rw [hsign]
  simp [h]

/-- A figure that goes on into a short run, after what is no word and no point, ends inside the
digits after it. -/
theorem head?_of_inside (hf : figureAt (u ++ (head ++ s :: (ds ++ t))) = some f)
    (hu : u.length < f.chars.length) (hb : boundary w (u.reverse ++ b) = true) (hne : head ≠ [])
    (hlen : head.length ≤ 3) (hdigit : ∀ c ∈ head, isDigit c = true) (hs : isSep s = true)
    (hds : 4 ≤ ds.length) (hdigits : ∀ c ∈ ds, isDigit c = true) :
    ∃ d, isDigit d = true ∧
      ((u ++ (head ++ s :: (ds ++ t))).drop f.chars.length).head? = some d := by
  obtain ⟨run, groups, rest, h⟩ := exists_shape hf
  -- the figure begins at the run, or before a digit, or before a separator
  by_cases hsign : u = f.sign.toList
  · exact head?_of_run h (by rw [hsign]) hlen hdigit hs hds hdigits
  obtain ⟨v, hv⟩ := exists_of_lt_length hf hu
  rcases List.eq_nil_or_concat' u with rfl | ⟨u, y, rfl⟩
  · obtain ⟨c, head, rfl⟩ := List.exists_cons_of_ne_nil hne
    have hnone := sign_of_head h (c := c) rfl
    rw [isMinus_of_isDigit (hdigit c List.mem_cons_self)] at hnone
    exact absurd (by rw [hnone]; rfl) hsign
  · rw [List.append_assoc] at hv
    have hy : isDigit y = false := isDigit_of_boundary hb (by simp)
    have hpoint : isPoint y = false := by
      by_contra hpoint
      rw [Bool.not_eq_false] at hpoint
      simp [boundary, hpoint] at hb
    obtain ⟨hchain, -, hhead⟩ := h.chain
    rw [hv] at hchain hhead
    -- a digit or a point before the run is no boundary, so there it is a separator
    have hsep : isSep y = true := by
      rcases List.eq_nil_or_concat' u with rfl | ⟨u, z, rfl⟩
      · have hminus : isMinus y = true := (hhead y rfl).resolve_right (by simp [hy])
        have hsome := sign_of_head h (c := y) rfl
        rw [hminus] at hsome
        exact absurd (by rw [hsome]; rfl) hsign
      · rw [List.append_assoc] at hchain
        have hfollows := (List.isChain_append_cons_cons.mp hchain).2.1
        unfold Follows at hfollows
        split_ifs at hfollows
        · simpa [hy, hpoint] using hfollows
        · rw [hy] at hfollows
          cases hfollows
    exact head?_of_sep h (List.append_assoc _ _ _) hv hsep hne hlen hs hds hdigits

theorem exists_cut (hbound : boundary w (u ++ v).reverse = true) (hne : head ≠ [])
    (hlen : head.length ≤ 3) (hdigit : ∀ c ∈ head, isDigit c = true) (hs : isSep s = true)
    (hds : 4 ≤ ds.length) (hdigits : ∀ c ∈ ds, isDigit c = true) :
    ∃ m d, .inr m ∈ scan (numberPattern w) ⟨u.reverse, v ++ (head ++ s :: (ds ++ t))⟩ ∧
      isDigit d = true ∧ m.stop.rest.head? = some d := by
  induction hn : v.length using Nat.strongRecOn generalizing u v with
  | ind n ih =>
    have hproper := proper_number w
    cases hfirst : (numberPattern w).first ⟨u.reverse, v ++ (head ++ s :: (ds ++ t))⟩ with
    | some x =>
      obtain ⟨f, q⟩ := x
      obtain ⟨hb, hf, rfl⟩ := first_number_eq_some hfirst
      have hpos : 0 < f.chars.length := by
        have := hproper.length_lt hfirst
        simp only [List.length_drop] at this
        omega
      rw [scan_match hproper hfirst]
      rcases Nat.lt_or_ge v.length f.chars.length with hin | hout
      · obtain ⟨d, hd, hstop⟩ := head?_of_inside hf hin (by rwa [← List.reverse_append]) hne hlen hdigit
          hs hds hdigits
        exact ⟨_, d, List.mem_cons_self, hd, hstop⟩
      · obtain ⟨v', rfl⟩ := exists_of_length_le hf hout
        obtain ⟨m, d, hm, hd⟩ := ih v'.length (by rw [← hn, List.length_append]; omega)
          (u := u ++ f.chars) (v := v') (by rwa [List.append_assoc]) rfl
        refine ⟨m, d, List.mem_cons_of_mem _ ?_, hd⟩
        rw [List.append_assoc, List.drop_left, ← List.reverse_append]
        exact hm
    | none =>
      cases v with
      | nil =>
        -- nothing keeps a figure from starting here
        obtain ⟨c, head, rfl⟩ := List.exists_cons_of_ne_nil hne
        rw [List.append_nil] at hbound
        obtain ⟨f, hf⟩ := figureAt_digit (hdigit c List.mem_cons_self) (head ++ s :: (ds ++ t))
        rw [first_number, if_pos hbound] at hfirst
        exact absurd hfirst (by simp [hf])
      | cons c v =>
        rw [List.cons_append] at hfirst ⊢
        rw [scan_next hfirst]
        obtain ⟨m, d, hm, hd⟩ := ih v.length (by rw [← hn]; exact Nat.lt_succ_self _)
          (u := u ++ [c]) (v := v) (by simpa using hbound) rfl
        refine ⟨m, d, List.mem_cons_of_mem _ ?_, hd⟩
        simpa using hm

end Converse

/-- No figure is cut out of a run of digits, just if the text without code, links, dates and times
has no short run before a separator and a long one. -/
theorem extractNumbers_wholeRuns_iff (w : WordClass) (text : List Char) :
    (∀ m ∈ findIter (numberPattern w) (cleaned w text), WholeRuns m) ↔
      ¬SplitsRun w (cleaned w text) := by
  constructor
  · rintro h ⟨b, run, s, ds, rest, htext, hbound, ⟨hpos, hlen⟩, hdigit, hs, hds, hdigits⟩
    obtain ⟨m, d, hm, hd, hstop⟩ := exists_cut (u := []) (v := b) (t := rest) hbound
      (List.length_pos_iff.mp hpos) hlen hdigit hs hds hdigits
    rw [htext] at h
    have hwhole := h m (List.mem_filterMap.mpr ⟨.inr m, hm, rfl⟩)
    rw [hwhole.2 d hstop] at hd
    cases hd
  · intro hsplit m hm
    obtain ⟨x, hx, hright⟩ := List.mem_filterMap.mp hm
    obtain rfl := Sum.getRight?_eq_some_iff.mp hright
    obtain ⟨⟨t, hrest, hbefore⟩, hfirst⟩ := mem_scan (proper_number w) hx
    refine wholeRuns_of_first hfirst ?_
    rw [hbefore, List.reverse_append, List.reverse_reverse, List.append_assoc, ← hrest]
    exact hsplit

/-- Word characters of ASCII, Cyrillic letters and the decimal digits. -/
def plainWord : WordClass where
  isWord c := c.isAlphanum || c = '_' || (0x410 ≤ c.toNat && c.toNat ≤ 0x44F) || isDigit c
  digit c h := by simp [isDigit, h]
  other := by decide +kernel

/-- A count before a year. -/
theorem fiveTwentyTwentyFour_cut :
    (extractNumbers plainWord "5 2024".toList).map (·.text) = ["5 202"] ∧
      ¬∀ m ∈ findIter (numberPattern plainWord) (cleaned plainWord "5 2024".toList), WholeRuns m := by
  refine ⟨by decide +kernel, fun h => ?_⟩
  have hstop : (findIter (numberPattern plainWord) (cleaned plainWord "5 2024".toList)).map
      (fun m => m.stop.rest) = [['4']] := by decide +kernel
  obtain ⟨m, hm, hrest⟩ := List.mem_map.mp (hstop ▸ List.mem_singleton_self ['4'])
  have hdigit := (h m hm).2 '4' (by rw [hrest]; rfl)
  exact absurd hdigit (by decide +kernel)

end Chic.Guardrail
