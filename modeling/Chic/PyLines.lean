import Mathlib.Data.List.Chain
import Chic.PyText

namespace Chic.PyText

/-- No whitespace but single spaces between words. -/
structure SingleSpaced (cs : List Char) : Prop where
  only_spaces : ∀ c ∈ cs, isSpace c = true → c = ' '
  single : cs.IsChain fun a b => a = ' ' → b ≠ ' '
  head_ne : cs.head? ≠ some ' '
  last_ne : cs.getLast? ≠ some ' '

/-- The characters that `str.splitlines` breaks at. -/
def isLineBreak (c : Char) : Bool :=
  let n := c.toNat
  (10 ≤ n && n ≤ 13) || (28 ≤ n && n ≤ 30) || n == 0x85 || n == 0x2028 || n == 0x2029

/-- The lines of `str.splitlines()`; `line` is the one being read, backwards. -/
def splitLinesChars : List Char → List Char → List (List Char)
  | line, [] => if line = [] then [] else [line.reverse]
  | line, '\r' :: '\n' :: cs => line.reverse :: splitLinesChars [] cs
  | line, c :: cs =>
    if isLineBreak c then line.reverse :: splitLinesChars [] cs else splitLinesChars (c :: line) cs

def splitLines (s : String) : List String := (splitLinesChars [] s.toList).map String.ofList

section Words
variable {w cs : List Char}

def IsWord (w : List Char) : Prop := w ≠ [] ∧ ∀ c ∈ w, isSpace c = false

theorem isWord_of_mem_splitChars {word : List Char} (h : ∀ c ∈ word, isSpace c = false) :
    ∀ w ∈ splitChars word cs, IsWord w := by
  have hword : ∀ word : List Char, word ≠ [] → (∀ c ∈ word, isSpace c = false) →
      IsWord word.reverse := by
    intro word hne hw
    exact ⟨by simpa using hne, fun c hc => hw c (List.mem_reverse.mp hc)⟩
  induction cs generalizing word with
  | nil =>
    intro w hw
    rw [splitChars] at hw
    split_ifs at hw with hne
    · cases hw
    · rw [List.mem_singleton] at hw
      exact hw ▸ hword word hne h
  | cons c cs ih =>
    intro w hw
    rw [splitChars] at hw
    split_ifs at hw with hspace hne
    · exact ih (by simp) w hw
    · rcases List.mem_cons.mp hw with rfl | hw
      · exact hword word hne h
      · exact ih (by simp) w hw
    · refine ih ?_ w hw
      intro c' hc'
      rcases List.mem_cons.mp hc' with rfl | hc'
      · exact Bool.eq_false_iff.mpr hspace
      · exact h c' hc'

theorem ne_space_of_isSpace {c : Char} (h : isSpace c = false) : c ≠ ' ' := by
  intro heq
  rw [heq] at h
  exact absurd h (by decide)

theorem IsWord.head_ne (hw : IsWord w) : w.head? ≠ some ' ' := fun h =>
  ne_space_of_isSpace (hw.2 ' ' (List.mem_of_mem_head? h)) rfl

theorem IsWord.last_ne (hw : IsWord w) : w.getLast? ≠ some ' ' := fun h =>
  ne_space_of_isSpace (hw.2 ' ' (List.mem_of_mem_getLast? h)) rfl

theorem IsWord.singleSpaced (hw : IsWord w) : SingleSpaced w where
  only_spaces c hc hspace := by rw [hw.2 c hc] at hspace; cases hspace
  single := by
    refine List.Pairwise.isChain (List.pairwise_of_forall_mem_list ?_)
    intro a ha b _ heq
    exact (ne_space_of_isSpace (hw.2 a ha) heq).elim
  head_ne := hw.head_ne
  last_ne := hw.last_ne

theorem SingleSpaced.cons (hcs : SingleSpaced cs) (hne : cs ≠ []) (hw : IsWord w) :
    SingleSpaced (w ++ ' ' :: cs) where
  only_spaces c hc hspace := by
    rcases List.mem_append.mp hc with hc | hc
    · exact hw.singleSpaced.only_spaces c hc hspace
    · rcases List.mem_cons.mp hc with rfl | hc
      · rfl
      · exact hcs.only_spaces c hc hspace
  single := by
    have hspace : (' ' :: cs).IsChain fun a b => a = ' ' → b ≠ ' ' := by
      refine List.isChain_cons.mpr ⟨?_, hcs.single⟩
      intro b hb _ heq
      rw [heq] at hb
      exact hcs.head_ne hb
    refine List.isChain_append.mpr ⟨hw.singleSpaced.single, hspace, ?_⟩
    intro a ha b _ heq
    rw [heq] at ha
    exact (hw.last_ne ha).elim
  head_ne := by
    rw [List.head?_append_of_ne_nil _ hw.1]
    exact hw.head_ne
  last_ne := by
    rw [List.getLast?_append_of_ne_nil _ (List.cons_ne_nil _ _),
      List.getLast?_cons_of_ne_nil hne]
    exact hcs.last_ne

theorem singleSpaced_intersperse {words : List (List Char)} (h : ∀ w ∈ words, IsWord w) :
    SingleSpaced (words.intersperse [' ']).flatten := by
  induction words with
  | nil => exact ⟨by simp, List.isChain_nil, by simp, by simp⟩
  | cons w words ih =>
    have hw := h w List.mem_cons_self
    have ih := ih fun w hw => h w (List.mem_cons_of_mem _ hw)
    cases words with
    | nil => simpa using hw.singleSpaced
    | cons w' words =>
      have hne : ((w' :: words).intersperse [' ']).flatten ≠ [] := by
        have hw' := (h w' (by simp)).1
        cases words <;> simp [hw']
      rw [List.intersperse_cons_cons, List.flatten_cons, List.flatten_cons, List.singleton_append]
      exact ih.cons hne hw

theorem singleSpaced_collapse (s : String) : SingleSpaced (collapse s).toList := by
  rw [collapse, String.toList_ofList]
  exact singleSpaced_intersperse (isWord_of_mem_splitChars (by simp))

end Words

section Lines
variable {line cs : List Char}

theorem isSpace_of_isLineBreak {c : Char} (h : isLineBreak c = true) : isSpace c = true := by
  simp only [isLineBreak, Bool.or_eq_true, Bool.and_eq_true, decide_eq_true_eq, beq_iff_eq] at h
  simp only [isSpace, Bool.or_eq_true, Bool.and_eq_true, decide_eq_true_eq, beq_iff_eq]
  omega

/-- Text without whitespace but single spaces has no line break. -/
theorem SingleSpaced.not_isLineBreak (hcs : SingleSpaced cs) : ∀ c ∈ cs, isLineBreak c = false := by
  intro c hc
  rw [Bool.eq_false_iff]
  intro hbreak
  have := hcs.only_spaces c hc (isSpace_of_isLineBreak hbreak)
  rw [this] at hbreak
  exact absurd hbreak (by decide)

theorem splitLinesChars_cons {c : Char} (h : isLineBreak c = false) :
    splitLinesChars line (c :: cs) = splitLinesChars (c :: line) cs := by
  rw [splitLinesChars, h]
  · rfl
  · intro cs' hc _
    rw [hc] at h
    exact absurd h (by decide)

theorem splitLinesChars_append (cs rest : List Char) :
    splitLinesChars line (cs ++ '\n' :: rest) =
      splitLinesChars line (cs ++ ['\n']) ++ splitLinesChars [] rest := by
  fun_induction splitLinesChars line cs with
  | case1 => simp [splitLinesChars, isLineBreak]
  | case2 line _ => simp [splitLinesChars, isLineBreak]
  | case3 line cs ih => simp [splitLinesChars, ih]
  | case4 line c cs hpair hbreak ih =>
    -- only a carriage return at the very end meets the newline
    by_cases hend : c = '\r' ∧ cs = []
    · rw [hend.1, hend.2]
      simp [splitLinesChars]
    · have hpair' : ∀ tail cs', c = '\r' → cs ++ '\n' :: tail = '\n' :: cs' → False := by
        intro tail cs' hc heq
        cases cs with
        | nil => exact hend ⟨hc, rfl⟩
        | cons c' cs =>
          rw [List.cons_append, List.cons.injEq] at heq
          exact hpair cs hc (by rw [heq.1])
      rw [List.cons_append, splitLinesChars, if_pos hbreak, ih, List.cons_append, splitLinesChars,
        if_pos hbreak, List.cons_append]
      · exact hpair' []
      · exact hpair' rest
  | case5 line c cs hpair hbreak ih =>
    have hbreak := Bool.eq_false_iff.mpr hbreak
    rw [List.cons_append, splitLinesChars_cons hbreak, ih, List.cons_append,
      splitLinesChars_cons hbreak]

theorem splitLinesChars_line (h : ∀ c ∈ cs, isLineBreak c = false) (rest : List Char) :
    splitLinesChars line (cs ++ '\n' :: rest) =
      (line.reverse ++ cs) :: splitLinesChars [] rest := by
  induction cs generalizing line with
  | nil => simp [splitLinesChars, isLineBreak]
  | cons c cs ih =>
    rw [List.cons_append, splitLinesChars_cons (h c List.mem_cons_self),
      ih fun c hc => h c (List.mem_cons_of_mem _ hc)]
    simp

theorem splitLines_append (a b : String) :
    splitLines (a ++ "\n" ++ b) = splitLines (a ++ "\n") ++ splitLines b := by
  simp only [splitLines, String.toList_append, List.append_assoc, String.reduceToList]
  rw [List.singleton_append, splitLinesChars_append, List.map_append]

theorem splitLines_line {line : String} (h : ∀ c ∈ line.toList, isLineBreak c = false)
    (rest : String) : splitLines (line ++ "\n" ++ rest) = line :: splitLines rest := by
  simp only [splitLines, String.toList_append, List.append_assoc, String.reduceToList]
  rw [List.singleton_append, splitLinesChars_line h]
  simp

theorem splitLines_intercalate {lines : List String} (hne : lines ≠ [])
    (h : ∀ line ∈ lines, ∀ c ∈ line.toList, isLineBreak c = false) (rest : String) :
    splitLines ("\n".intercalate lines ++ "\n" ++ rest) = lines ++ splitLines rest := by
  induction lines with
  | nil => exact (hne rfl).elim
  | cons line lines ih =>
    have hline := h line List.mem_cons_self
    cases lines with
    | nil => rw [String.intercalate_singleton, splitLines_line hline, List.singleton_append]
    | cons next lines =>
      have ih := ih (List.cons_ne_nil _ _) fun line hl => h line (List.mem_cons_of_mem _ hl)
      rw [String.intercalate_cons_cons, String.append_assoc, String.append_assoc,
        splitLines_line hline, ← String.append_assoc, ih]
      rfl

end Lines

end Chic.PyText
