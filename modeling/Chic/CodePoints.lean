import Chic.PyText

namespace Chic

/-- A code point of a text that a program holds: a character, or a surrogate that stands alone,
as an escape in a JSON text can. -/
inductive CodePoint
  | char (c : Char)
  | surrogate (n : Fin 2048)
  deriving DecidableEq

abbrev Text := List CodePoint

namespace Text

def ofString (s : String) : Text := s.toList.map .char

def char? : CodePoint → Option Char
  | .char c => some c
  | .surrogate _ => none

/-- The text as it is encoded, `none` where that raises. -/
def encode? (t : Text) : Option String := (t.mapM char?).map String.ofList

def isSpace : CodePoint → Bool
  | .char c => PyText.isSpace c
  | .surrogate _ => false

def strip (t : Text) : Text := ((t.dropWhile isSpace).reverse.dropWhile isSpace).reverse

/-- `str.split()` -/
def words (t : Text) : List Text := (t.splitOnP isSpace).filter (· ≠ [])

def join (ws : List Text) : Text := (ws.intersperse [.char ' ']).flatten

/-- `" ".join(s.split())`. -/
def collapse (t : Text) : Text := join (words t)

section Encoded
variable {s : String} {t : Text}

theorem mapM_char?_map (cs : List Char) : (cs.map CodePoint.char).mapM char? = some cs := by
  induction cs with
  | nil => rfl
  | cons c cs ih =>
    rw [List.map_cons, List.mapM_cons, ih]
    rfl

theorem encode?_ofString (s : String) : encode? (ofString s) = some s := by
  rw [encode?, ofString, mapM_char?_map, Option.map_some, String.ofList_toList]

theorem ofString_injective : Function.Injective ofString := fun s s' h =>
  Option.some_inj.mp (by rw [← encode?_ofString s, h, encode?_ofString])

theorem encode?_eq_some : encode? t = some s ↔ t = ofString s := by
  refine ⟨fun h => ?_, fun h => h ▸ encode?_ofString s⟩
  obtain ⟨cs, hcs, rfl⟩ := Option.map_eq_some_iff.mp h
  rw [ofString, String.toList_ofList]
  clear h
  induction t generalizing cs with
  | nil =>
    obtain rfl := Option.some_inj.mp hcs
    rfl
  | cons p t ih =>
    rw [List.mapM_cons] at hcs
    obtain ⟨c, hc, hcs⟩ := Option.bind_eq_some_iff.mp hcs
    obtain ⟨cs', hcs', hcons⟩ := Option.bind_eq_some_iff.mp hcs
    obtain rfl := Option.some_inj.mp hcons
    rw [List.map_cons, ih cs' hcs']
    cases p with
    | char c' => rw [Option.some_inj.mp hc]
    | surrogate n => cases hc

end Encoded

section Words
variable {t w : Text} {ws : List Text} {p : CodePoint}

def IsWord (w : Text) : Prop := w ≠ [] ∧ ∀ p ∈ w, isSpace p = false

/-- No piece of a split has what is split at. -/
theorem not_of_mem_splitOnP {α : Type*} {P : α → Bool} {xs piece : List α} (h : piece ∈ xs.splitOnP P) :
    ∀ x ∈ piece, P x = false := by
  induction xs generalizing piece with
  | nil =>
    rw [List.splitOnP_nil, List.mem_singleton] at h
    rw [h]
    simp
  | cons x xs ih =>
    rw [List.splitOnP_cons_eq_if_modifyHead] at h
    split_ifs at h with hx
    · rcases List.mem_cons.mp h with rfl | h
      · simp
      · exact ih h
    · obtain ⟨first, rest, hsplit⟩ := List.exists_cons_of_ne_nil (List.splitOnP_ne_nil P xs)
      rw [hsplit] at h ih
      rcases List.mem_cons.mp h with rfl | h
      · exact List.forall_mem_cons.mpr ⟨Bool.eq_false_iff.mpr hx, ih List.mem_cons_self⟩
      · exact ih (List.mem_cons_of_mem _ h)

theorem isWord_of_mem_words (h : w ∈ words t) : IsWord w := by
  obtain ⟨hmem, hne⟩ := List.mem_filter.mp h
  exact ⟨of_decide_eq_true hne, not_of_mem_splitOnP hmem⟩

/-- Words are read on either side of whitespace by themselves. -/
theorem words_append_space (hp : isSpace p = true) (t u : Text) :
    words (t ++ p :: u) = words t ++ words u := by
  rw [words, List.splitOnP_append_cons t u hp, List.filter_append]
  rfl

theorem IsWord.words_eq (h : IsWord w) : words w = [w] := by
  rw [words, List.splitOnP_eq_singleton h.2, List.filter_singleton, decide_eq_true h.1]
  rfl

theorem words_join (h : ∀ w ∈ ws, IsWord w) : words (join ws) = ws := by
  induction ws with
  | nil => rfl
  | cons w ws ih =>
    obtain ⟨hw, hws⟩ := List.forall_mem_cons.mp h
    cases ws with
    | nil =>
      show words (w ++ []) = [w]
      rw [List.append_nil, hw.words_eq]
    | cons w' ws =>
      show words (w ++ CodePoint.char ' ' :: join (w' :: ws)) = _
      rw [words_append_space (by decide), ih hws, hw.words_eq, List.singleton_append]

/-- What is collapsed stays as it is. -/
theorem collapse_collapse (t : Text) : collapse (collapse t) = collapse t := by
  rw [collapse, collapse, words_join fun w hw => isWord_of_mem_words hw]

/-- Of characters the words are those of `PyText.splitChars`, with the one being read. -/
theorem words_map_char {word : List Char} (hword : ∀ c ∈ word, PyText.isSpace c = false)
    (cs : List Char) : words ((word.reverse ++ cs).map CodePoint.char) =
      (PyText.splitChars word cs).map (List.map CodePoint.char) := by
  have hisWord : ∀ {w : List Char}, w ≠ [] → (∀ c ∈ w, PyText.isSpace c = false) →
      IsWord (w.reverse.map CodePoint.char) := by
    intro w hne hw
    refine ⟨by simpa using hne, ?_⟩
    intro p hp
    obtain ⟨c, hc, rfl⟩ := List.mem_map.mp hp
    exact hw c (List.mem_reverse.mp hc)
  induction cs generalizing word with
  | nil =>
    rw [List.append_nil, PyText.splitChars]
    split_ifs with hne
    · rw [hne]
      rfl
    · rw [(hisWord hne hword).words_eq, List.map_singleton]
  | cons c cs ih =>
    rw [PyText.splitChars]
    split_ifs with hspace hne
    · rw [hne, ← ih (by simp), List.reverse_nil, List.nil_append, List.nil_append, List.map_cons]
      exact words_append_space (p := .char c) hspace [] _
    · rw [List.map_append, List.map_cons, words_append_space (p := .char c) hspace, (hisWord hne hword).words_eq,
        List.map_cons, ← ih (by simp), List.singleton_append]
      rfl
    · rw [← ih (List.forall_mem_cons.mpr ⟨Bool.eq_false_iff.mpr hspace, hword⟩), List.reverse_cons,
        List.append_assoc, List.singleton_append]

/-- Texts of characters are collapsed as strings are. -/
theorem collapse_ofString (s : String) : collapse (ofString s) = ofString (PyText.collapse s) := by
  have hwords := @words_map_char [] (by simp) s.toList
  rw [List.reverse_nil, List.nil_append] at hwords
  have hjoin : ∀ ws : List (List Char), join (ws.map (List.map CodePoint.char)) =
      ((ws.intersperse [' ']).flatten).map CodePoint.char := by
    intro ws
    induction ws with
    | nil => rfl
    | cons w ws ih =>
      cases ws with
      | nil => simp [join]
      | cons w' ws =>
        rw [List.map_cons] at ih ⊢
        rw [List.intersperse_cons_cons, List.flatten_cons, List.flatten_cons, List.map_append,
          List.map_append, ← ih]
        rfl
  rw [collapse, ofString, hwords, hjoin, ofString, PyText.collapse, String.toList_ofList]

end Words

end Text

end Chic
