import Mathlib.Data.List.Sort
import Mathlib.Data.Prod.Lex

namespace Chic.StableSort
open List

section
variable {α : Type*} {r : α → α → Prop} {p : α → Bool} {l : List α}

/-- Elements that are in order as they come keep their places among themselves. -/
theorem filter_insertionSort [DecidableRel r] [Std.Total r] [IsTrans α r]
    (h : (l.filter p).Pairwise r) : (l.insertionSort r).filter p = l.filter p := by
  have hsub : l.filter p <+ (l.insertionSort r).filter p := by
    have hsub := (sublist_insertionSort h filter_sublist).filter p
    rwa [filter_eq_self.mpr fun a ha => (mem_filter.mp ha).2] at hsub
  have hlen : (l.filter p).length = ((l.insertionSort r).filter p).length :=
    ((perm_insertionSort r l).filter p).length_eq.symm
  exact (hsub.eq_of_length hlen).symm

/-- What is cut off an ordered list comes after all that is kept. -/
theorem rel_of_mem_take (h : l.Pairwise r) {n : ℕ} {x y : α} (hx : x ∈ l.take n) (hy : y ∈ l)
    (hcut : y ∉ l.take n) : r x y := by
  rw [← take_append_drop n l, mem_append] at hy
  exact h.rel_of_mem_take_of_mem_drop hx (hy.resolve_left hcut)

/-- A property that what comes before has too splits an ordered list in two. -/
theorem filter_append_filter_not (h : l.Pairwise r) (hp : ∀ x y, r x y → p y → p x) :
    l.filter p ++ l.filter (fun x => !p x) = l := by
  induction l with
  | nil => rfl
  | cons x l ih =>
    obtain ⟨hx, hl⟩ := pairwise_cons.mp h
    by_cases hpx : p x
    · rw [filter_cons_of_pos hpx, filter_cons_of_neg (by simpa using hpx), cons_append, ih hl]
    · have hnone : ∀ y ∈ x :: l, ¬ p y := by
        intro y hy hpy
        rcases mem_cons.mp hy with rfl | hy
        · exact hpx hpy
        · exact hpx (hp x y (hx y hy) hpy)
      have hall : ∀ y ∈ x :: l, (!p y) = true := by simpa using hnone
      rw [filter_eq_nil_iff.mpr hnone, filter_eq_self.mpr hall, nil_append]

end

section Keys
variable {α κ μ : Type*} [LinearOrder κ] [LinearOrder μ] {key : α → κ} {minor : α → μ}
  {l l' : List α}

abbrev byKey (key : α → κ) (x y : α) : Bool := key x ≤ key y

theorem byKey_trans (x y z : α) : byKey key x y → byKey key y z → byKey key x z := by
  simpa using le_trans

theorem byKey_total (x y : α) : byKey key x y || byKey key y x := by
  simpa using le_total (key x) (key y)

theorem pairwise_mergeSort_key :
    (l.mergeSort fun x y => key x ≤ key y).Pairwise fun x y => key x ≤ key y := by
  simpa using pairwise_mergeSort (@byKey_trans α κ _ key) byKey_total l

/-- Elements of one key keep their places among themselves. -/
theorem filter_mergeSort_key (k : κ) :
    (l.mergeSort fun x y => key x ≤ key y).filter (fun x => key x = k) =
      l.filter fun x => key x = k := by
  have hsorted : (l.filter fun x => key x = k).Pairwise fun x y => key x ≤ key y := by
    apply pairwise_of_forall_mem_list
    intro x hx y hy
    rw [mem_filter, decide_eq_true_eq] at hx hy
    exact (hx.2.trans hy.2.symm).le
  -- a stable sort keeps every sublist that is in order already
  have hsub : l.filter (fun x => key x = k) <+ l.mergeSort fun x y => key x ≤ key y :=
    sublist_mergeSort byKey_trans byKey_total (by simpa using hsorted) filter_sublist
  have hsub := hsub.filter fun x => key x = k
  rw [filter_eq_self.mpr fun x hx => (mem_filter.mp hx).2] at hsub
  have hlen := ((mergeSort_perm l fun x y => key x ≤ key y).filter fun x => key x = k).length_eq
  exact (hsub.eq_of_length hlen.symm).symm

/-- A list that was in order by a minor key comes out in order by both. -/
theorem pairwise_mergeSort_lex (h : l.Pairwise fun x y => minor x ≤ minor y) :
    (l.mergeSort fun x y => key x ≤ key y).Pairwise fun x y =>
      toLex (key x, minor x) ≤ toLex (key y, minor y) := by
  rw [pairwise_iff_forall_sublist]
  intro x y hsub
  have hkey := pairwise_iff_forall_sublist.mp pairwise_mergeSort_key hsub
  rw [Prod.Lex.toLex_le_toLex]
  apply hkey.lt_or_eq.imp id
  intro htie
  have hpair : [x, y].filter (fun z => key z = key x) = [x, y] := by simp [htie]
  have hsub := hsub.filter fun z => key z = key x
  rw [filter_mergeSort_key, hpair] at hsub
  exact ⟨htie, pairwise_iff_forall_sublist.mp h (hsub.trans filter_sublist)⟩

theorem countP_lt_le (h : l.Pairwise fun x y => key x ≤ key y) {i : ℕ} {x : α}
    (hx : l[i]? = some x) : l.countP (fun y => key y < key x) ≤ i := by
  have hlate : (l.drop i).countP (fun y => key y < key x) = 0 := by
    obtain ⟨hi, hget⟩ := List.getElem?_eq_some_iff.mp hx
    have hdrop := h.drop (i := i)
    rw [drop_eq_getElem_cons hi, hget] at hdrop ⊢
    apply countP_eq_zero.mpr
    intro y hy hlt
    rcases mem_cons.mp hy with rfl | hy
    · exact lt_irrefl _ (of_decide_eq_true hlt)
    · exact ((pairwise_cons.mp hdrop).1 y hy).not_gt (of_decide_eq_true hlt)
  calc l.countP (fun y => key y < key x)
    _ = (l.take i).countP (fun y => key y < key x) := by
      conv_lhs => rw [← take_append_drop i l, countP_append]
      rw [hlate, Nat.add_zero]
    _ ≤ (l.take i).length := countP_le_length
    _ ≤ i := length_take_le _ _

theorem getElem?_countP_lt (h : l.Pairwise fun x y => key x ≤ key y) {k : κ} {x : α}
    (hx : (l.filter fun y => key y = k).head? = some x) :
    l[l.countP fun y => key y < k]? = some x := by
  have hlow := filter_append_filter_not (p := fun y => key y < k) h fun x y hxy hy => by
    simpa using hxy.trans_lt (of_decide_eq_true hy)
  have hmid := filter_append_filter_not (p := fun y => key y ≤ k)
    (h.filter fun y => !decide (key y < k)) fun x y hxy hy => by
      simpa using hxy.trans (of_decide_eq_true hy)
  have hsame : (l.filter fun y => !decide (key y < k)).filter (fun y => key y ≤ k) =
      l.filter fun y => key y = k := by
    rw [filter_filter]
    apply filter_congr
    intro y _
    rw [Bool.eq_iff_iff]
    simpa using le_antisymm_iff.symm
  rw [hsame] at hmid
  rw [countP_eq_length_filter]
  nth_rewrite 1 [← hlow]
  rw [getElem?_append_right le_rfl, Nat.sub_self, ← hmid, ← head?_eq_getElem?, head?_append, hx,
    Option.some_or]

/-- Two orders of the same elements agree up to the first tie between different ones. -/
theorem take_eq_take (hperm : l ~ l') (h : l.Pairwise fun x y => key x ≤ key y)
    (h' : l'.Pairwise fun x y => key x ≤ key y) {n : ℕ}
    (htie : ∀ x ∈ l, ∀ y ∈ l, key x = key y → x ≠ y → n ≤ l.countP fun z => key z < key x) :
    l.take n = l'.take n := by
  have hkeys : l.map key = l'.map key :=
    (hperm.map key).eq_of_pairwise (fun _ _ _ _ => le_antisymm) (pairwise_map.mpr h)
      (pairwise_map.mpr h')
  apply ext_getElem
  · rw [length_take, length_take, hperm.length_eq]
  · intro i hi hi'
    rw [length_take, Nat.lt_min] at hi hi'
    rw [getElem_take, getElem_take]
    by_contra hne
    have hsame : key l[i] = key l'[i] := by
      have := congrArg (·[i]?) hkeys
      simpa [hi.2, hi'.2] using this
    have hmem : l'[i] ∈ l := hperm.mem_iff.mpr (getElem_mem hi'.2)
    -- two elements of one key differ at `i`, but at most `i` elements have a smaller key
    have hle := htie _ (getElem_mem hi.2) _ hmem hsame hne
    exact absurd (hle.trans (countP_lt_le h (getElem?_eq_getElem hi.2))) (not_le.mpr hi.1)

end Keys

end Chic.StableSort
