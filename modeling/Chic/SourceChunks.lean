import Mathlib.Data.List.DropRight
import Chic.While

namespace Chic.Telegram
open While

def splitTarget : ℕ := 3500

/-- `s.rfind(c, lo, hi)`, the last place of the character in the window. -/
def rfind (c : Char) (lo hi : ℕ) (s : List Char) : Option ℕ :=
  (List.range hi).reverse.find? fun i => lo ≤ i ∧ s[i]? = some c

/-- `s.rstrip("\n")`. -/
def rstripNewlines (s : List Char) : List Char := s.rdropWhile (· = '\n')

/-- Where a text that is too long is cut: after a newline if there is one late enough. -/
def cutOf (rest : List Char) : ℕ :=
  match rfind '\n' (splitTarget / 2) splitTarget rest with
  | some newline => newline + 1
  | none => splitTarget

/-- The body of the loop over the chunks and the rest, and what follows it. -/
def chunkStep : List (List Char) × List Char → (List (List Char) × List Char) ⊕ List (List Char)
  | (chunks, rest) =>
    if splitTarget < rest.length then
      .inl (chunks ++ [rstripNewlines (rest.take (cutOf rest))], rest.drop (cutOf rest))
    else if rstripNewlines rest = [] then .inr chunks
    else .inr (chunks ++ [rstripNewlines rest])

def sourceChunks (text : String) : List String :=
  if text.length ≤ splitTarget then [text]
  else ((loop chunkStep (text.length + 1) ([], text.toList)).getD []).map String.ofList

/-- Chunks with the newlines that follow each of them. -/
def joined (pieces : List (List Char × ℕ)) : List Char :=
  pieces.flatMap fun p => p.1 ++ List.replicate p.2 '\n'

section
variable {rest s : List Char} {pieces : List (List Char × ℕ)}

theorem joined_concat (pieces : List (List Char × ℕ)) (p : List Char × ℕ) :
    joined (pieces ++ [p]) = joined pieces ++ (p.1 ++ List.replicate p.2 '\n') := by
  simp [joined]

theorem rstripNewlines_append (s : List Char) :
    ∃ k, s = rstripNewlines s ++ List.replicate k '\n' := by
  refine ⟨(s.rtakeWhile (· = '\n')).length, ?_⟩
  have hnewlines : s.rtakeWhile (· = '\n') =
      List.replicate (s.rtakeWhile (· = '\n')).length '\n' := by
    apply List.eq_replicate_of_mem
    intro c hc
    simpa using List.mem_rtakeWhile_imp hc
  rw [← hnewlines]
  exact List.rdropWhile_append_rtakeWhile.symm

theorem length_rstripNewlines_le (s : List Char) : (rstripNewlines s).length ≤ s.length :=
  (List.rdropWhile_prefix _ _).length_le

theorem cutOf_mem (rest : List Char) : 0 < cutOf rest ∧ cutOf rest ≤ splitTarget := by
  unfold cutOf
  split
  case h_1 newline h =>
    have hmem := List.mem_of_find?_eq_some h
    rw [List.mem_reverse, List.mem_range] at hmem
    omega
  case h_2 => decide

end

/-- What the loop has cut off so far is the text without newlines at the ends of the chunks. -/
structure Chunked (text : List Char) (chunks : List (List Char)) (rest : List Char) : Prop where
  lossless : ∃ pieces, pieces.map Prod.fst = chunks ∧ text = joined pieces ++ rest
  short : ∀ c ∈ chunks, c.length ≤ splitTarget

section Loop
variable {text rest : List Char} {chunks : List (List Char)}

theorem Chunked.cut (h : Chunked text chunks rest) {n : ℕ} (hn : n ≤ splitTarget) :
    Chunked text (chunks ++ [rstripNewlines (rest.take n)]) (rest.drop n) := by
  obtain ⟨⟨pieces, hpieces, htext⟩, hshort⟩ := h
  obtain ⟨k, hk⟩ := rstripNewlines_append (rest.take n)
  constructor
  case lossless =>
    refine ⟨pieces ++ [(rstripNewlines (rest.take n), k)], ?_, ?_⟩
    · rw [List.map_append, hpieces, List.map_singleton]
    · rw [joined_concat, ← hk, List.append_assoc, List.take_append_drop, htext]
  case short =>
    intro c hc
    rcases List.mem_append.mp hc with hc | hc
    · exact hshort c hc
    · rw [List.mem_singleton.mp hc]
      calc (rstripNewlines (rest.take n)).length
        _ ≤ (rest.take n).length := length_rstripNewlines_le _
        _ ≤ n := List.length_take_le _ _
        _ ≤ splitTarget := hn

/-- A rest of newlines only belongs to the last chunk. -/
theorem Chunked.drop_rest (h : Chunked text chunks rest) (hne : chunks ≠ [])
    (hrest : rstripNewlines rest = []) : Chunked text chunks [] := by
  obtain ⟨⟨pieces, hpieces, htext⟩, hshort⟩ := h
  refine ⟨?_, hshort⟩
  obtain ⟨k, hk⟩ := rstripNewlines_append rest
  rw [hrest, List.nil_append] at hk
  rcases List.eq_nil_or_concat pieces with rfl | ⟨init, ⟨chunk, j⟩, rfl⟩
  · exact absurd hpieces.symm hne
  · refine ⟨init ++ [(chunk, j + k)], ?_, ?_⟩
    · simpa using hpieces
    · rw [htext, hk, List.append_nil, List.concat_eq_append, joined_concat, joined_concat,
        List.replicate_add]
      simp only [List.append_assoc]

/-- The loop ends with the text cut into chunks. -/
theorem chunks_returns (htext : splitTarget < text.length) :
    ∃ chunks, loop chunkStep (text.length + 1) ([], text) = some chunks ∧ Chunked text chunks [] := by
  have hloop : ∀ n chunks rest, rest.length < n → Chunked text chunks rest →
      (chunks ≠ [] ∨ splitTarget < rest.length) →
        ∃ out, loop chunkStep n (chunks, rest) = some out ∧ Chunked text out [] := by
    intro n
    induction n with
    | zero => exact fun _ rest hn => absurd hn (Nat.not_lt_zero _)
    | succ n ih =>
      intro chunks rest hn h hpos
      by_cases hlong : splitTarget < rest.length
      · have hstep : chunkStep (chunks, rest) = .inl _ := if_pos hlong
        obtain ⟨hcut, hle⟩ := cutOf_mem rest
        rw [loop_succ_inl hstep]
        apply ih _ _ _ (h.cut hle) (.inl (by simp))
        rw [List.length_drop]
        omega
      · have hne := hpos.resolve_right hlong
        by_cases hrest : rstripNewlines rest = []
        · have hstep : chunkStep (chunks, rest) = .inr chunks := by
            rw [chunkStep, if_neg hlong, if_pos hrest]
          exact ⟨chunks, loop_succ_inr hstep n, h.drop_rest hne hrest⟩
        · have hstep : chunkStep (chunks, rest) = .inr (chunks ++ [rstripNewlines rest]) := by
            rw [chunkStep, if_neg hlong, if_neg hrest]
          -- the rest is one more cut, of its whole length
          have hcut := h.cut (not_lt.mp hlong)
          rw [List.take_length, List.drop_length] at hcut
          exact ⟨_, loop_succ_inr hstep n, hcut⟩
  exact hloop _ [] text (Nat.lt_succ_self _) ⟨⟨[], rfl, rfl⟩, by simp⟩ (.inr htext)

end Loop

/-- The chunks are short, and with some newlines after each of them they are the text. -/
theorem sourceChunks_lossless (text : String) :
    (splitTarget < text.length →
      Returns chunkStep ([], text.toList) ((sourceChunks text).map String.toList)) ∧
    (∀ chunk ∈ sourceChunks text, chunk.length ≤ splitTarget) ∧
    ∃ ks : List ℕ, ks.length = (sourceChunks text).length ∧
      text.toList = joined (((sourceChunks text).map String.toList).zip ks) := by
  by_cases hshort : text.length ≤ splitTarget
  · have hchunks : sourceChunks text = [text] := if_pos hshort
    rw [hchunks]
    refine ⟨fun hlong => absurd hshort (not_le.mpr hlong), ?_, [0], rfl, ?_⟩
    · intro chunk hchunk
      rwa [List.mem_singleton.mp hchunk]
    · simp [joined]
  · have hlong : splitTarget < text.toList.length := not_le.mp hshort
    obtain ⟨chunks, hloop, ⟨pieces, rfl, htext⟩, hle⟩ := chunks_returns hlong
    have hchunks : (sourceChunks text).map String.toList = pieces.map Prod.fst := by
      rw [sourceChunks, if_neg hshort, ← String.length_toList, hloop, Option.getD_some,
        List.map_map]
      exact (List.map_congr_left fun c _ => String.toList_ofList).trans (List.map_id _)
    refine ⟨fun _ => ⟨_, hchunks ▸ hloop⟩, ?_, pieces.map Prod.snd, ?_, ?_⟩
    · intro chunk hchunk
      have hmem : chunk.toList ∈ pieces.map Prod.fst := hchunks ▸ List.mem_map_of_mem hchunk
      exact hle _ hmem
    · have hlen := congrArg List.length hchunks
      rw [List.length_map, List.length_map] at hlen
      rw [List.length_map, hlen]
    · rw [hchunks, ← List.unzip_fst, ← List.unzip_snd, List.zip_unzip, htext, List.append_nil]

end Chic.Telegram
