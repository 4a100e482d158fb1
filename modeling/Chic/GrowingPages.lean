import Mathlib.Data.List.Basic
import Mathlib.Order.Lattice
import Mathlib.Tactic.Common

namespace Chic

/-- A list that is read page by page. `rows o` is the list at the moment when the page at offset `o`
is read; between two pages rows may be put in anywhere, and none is taken out. -/
structure GrowingList (T : Type*) where
  rows : ℕ → List T
  grows : ∀ {o o'}, o ≤ o' → (rows o).Sublist (rows o')

namespace GrowingList

variable {T : Type*} {g : GrowingList T} {p o : ℕ} {acc : List T}

def page (g : GrowingList T) (p o : ℕ) : List T := ((g.rows o).drop o).take p

/-- Full pages of `p` rows have been read up to the offset `o`, and `acc` is what they gave. -/
structure Read (g : GrowingList T) (p o : ℕ) (acc : List T) : Prop where
  page_le : 0 < o → p ≤ o
  offset_le : o ≤ (g.rows o).length
  length_eq : acc.length = o
  nothing_lost : (g.rows 0).Sublist (acc ++ (g.rows o).drop o)
  mem_rows : ∀ x ∈ acc, x ∈ g.rows o
  first_page : 0 < o → acc.take p = (g.rows 0).take p

/-- What the reading has given when it ends with the page at offset `o`. -/
structure Ended (g : GrowingList T) (p o : ℕ) (acc : List T) : Prop where
  length_eq : acc.length = (g.rows o).length
  nothing_lost : (g.rows 0).Sublist acc
  mem_rows : ∀ x ∈ acc, x ∈ g.rows o
  first_page : acc.take p = (g.rows 0).take p

theorem read_nil (g : GrowingList T) (p : ℕ) : g.Read p 0 [] where
  page_le h := absurd h (Nat.lt_irrefl 0)
  offset_le := Nat.zero_le _
  length_eq := rfl
  nothing_lost := .refl _
  mem_rows := by simp
  first_page h := absurd h (Nat.lt_irrefl 0)

theorem length_page (g : GrowingList T) (p o : ℕ) :
    (g.page p o).length = min p ((g.rows o).length - o) := by
  rw [page, List.length_take, List.length_drop]

theorem page_append_drop (g : GrowingList T) (p o : ℕ) :
    g.page p o ++ (g.rows o).drop (o + p) = (g.rows o).drop o := by
  rw [page, ← List.drop_drop, List.take_append_drop]

theorem mem_of_mem_page {x : T} (h : x ∈ g.page p o) : x ∈ g.rows o :=
  List.mem_of_mem_drop (List.mem_of_mem_take h)

theorem Read.mem_append (h : g.Read p o acc) : ∀ x ∈ acc ++ g.page p o, x ∈ g.rows o := by
  intro x hx
  rcases List.mem_append.mp hx with hx | hx
  · exact h.mem_rows x hx
  · exact mem_of_mem_page hx

/-- The first page is of the list as it was at first, whatever is read after it. -/
theorem Read.first_append (h : g.Read p o acc) :
    (acc ++ g.page p o).take p = (g.rows 0).take p := by
  rcases Nat.eq_zero_or_pos o with rfl | ho
  · rw [List.eq_nil_of_length_eq_zero h.length_eq, List.nil_append, page, List.drop_zero,
      List.take_take, Nat.min_self]
  · rw [List.take_append_of_le_length (by rw [h.length_eq]; exact h.page_le ho), h.first_page ho]

/-- A row that is put in before the offset moves rows that were read to places that are still to be
read, so that what is left to read grows with the list. -/
theorem Read.next (h : g.Read p o acc) (hfull : p ≤ (g.page p o).length) :
    g.Read p (o + p) (acc ++ g.page p o) := by
  have hgrows := g.grows (Nat.le_add_right o p)
  rw [length_page] at hfull
  refine ⟨fun _ => Nat.le_add_left p o, ?_, ?_, ?_, fun x hx => ?_, fun _ => h.first_append⟩
  · have := hgrows.length_le
    have := h.offset_le
    omega
  · rw [List.length_append, h.length_eq, length_page]
    omega
  · refine h.nothing_lost.trans ?_
    rw [List.append_assoc, ← page_append_drop g p o]
    exact ((hgrows.drop (o + p)).append_left _).append_left _
  · exact hgrows.subset (h.mem_append x hx)

theorem Read.last (h : g.Read p o acc) (hend : (g.rows o).length ≤ o + p) :
    g.Ended p o (acc ++ g.page p o) := by
  refine ⟨?_, ?_, h.mem_append, h.first_append⟩
  · rw [List.length_append, h.length_eq, length_page]
    have := h.offset_le
    omega
  · have hlost := h.nothing_lost
    rwa [← page_append_drop g p o, List.drop_of_length_le hend, List.append_nil] at hlost

theorem Ended.eq_of_length (h : g.Ended p o acc)
    (hlength : (g.rows o).length = (g.rows 0).length) : acc = g.rows 0 :=
  (h.nothing_lost.eq_of_length (hlength.symm.trans h.length_eq.symm)).symm

/-- What is read over and above the list as it was: as many rows as were put in meanwhile, some of
which may be rows that are read a second time. -/
theorem Ended.exists_perm (h : g.Ended p o acc) : ∃ extra, acc.Perm (g.rows 0 ++ extra) ∧
    (g.rows 0).length + extra.length = (g.rows o).length ∧ ∀ x ∈ extra, x ∈ g.rows o := by
  obtain ⟨extra, hperm⟩ := h.nothing_lost.exists_perm_append
  refine ⟨extra, hperm, ?_, fun x hx => ?_⟩
  · rw [← h.length_eq, hperm.length_eq, List.length_append]
  · exact h.mem_rows x (hperm.mem_iff.mpr (List.mem_append_right _ hx))

end GrowingList

end Chic
