import Chic.CodePoints
import Chic.Profile
import Chic.PyLines

namespace Chic.Profile
open AppDb PyText
open Text (ofString)

/-- A value that `json.loads` yields, a number with the text that `str` has for it. -/
inductive Decoded
  | null
  | bool (b : Bool)
  | number (text : String)
  | str (t : Text)
  | list (items : List Decoded)
  | dict (fields : List (Text × Decoded))

/-- How `json.loads` ends. What it raises besides a `JSONDecodeError` is not caught. -/
inductive Loaded
  | value (v : Decoded)
  | undecodable
  | raised

/-- `str(v)`, with `repr` for the text of a container. -/
def Decoded.text (repr : Decoded → String) : Decoded → Text
  | .null => ofString "None"
  | .bool b => ofString (if b then "True" else "False")
  | .number text => ofString text
  | .str t => t
  | .list items => ofString (repr (.list items))
  | .dict fields => ofString (repr (.dict fields))

def get? (fields : List (Text × Decoded)) (name : String) : Option Decoded :=
  (fields.find? (·.1 = ofString name)).map Prod.snd

/-- The fields of an entry; anything but an object has no `get`. -/
def Decoded.fields? : Decoded → Option (List (Text × Decoded))
  | .dict fields => some fields
  | _ => none

/-- The entries that the loop visits, `none` where a visit raises. -/
def Decoded.entries? : Decoded → Option (List (List (Text × Decoded)))
  | .dict fields =>
    match get? fields "preferences" with
    | none => some []
    | some (.list items) => items.mapM Decoded.fields?
    -- the characters of a text and the keys of an object have no `get` either
    | some (.str t) => if t = [] then some [] else none
    | some (.dict inner) => if inner.isEmpty then some [] else none
    | some _ => none
  | _ => some []

structure Pair where
  key : Text
  value : Text
  deriving DecidableEq

def consolidatedPairs (entries : List (Text × Text)) : List Pair :=
  entries.foldl (fun out e =>
    let key := e.1.collapse
    let value := e.2.collapse
    if key = [] ∨ value = [] then out
    else if maxPrefKeyLen < key.length ∨ maxPrefValueLen < value.length then out
    else if out.any (·.key = key) then out
    else out ++ [⟨key, value⟩]) []

/-- The part of a reply from its first opening brace to its last closing one. -/
def braced? (t : Text) : Option Text :=
  (t.findIdx? (· = .char '\x7b')).bind fun start =>
    (t.reverse.findIdx? (· = .char '\x7d')).bind fun fromEnd =>
      let stop := t.length - fromEnd
      if stop ≤ start + 1 then none else some ((t.take stop).drop start)

/-- `_parse_consolidated`, `none` where it raises. -/
def parseConsolidated (loads : Text → Loaded) (repr : Decoded → String) (raw : Text) :
    Option (List Pair) :=
  match braced? (Text.strip raw) with
  | none => some []
  | some text =>
    match loads text with
    | .undecodable => some []
    | .raised => none
    | .value v =>
      v.entries?.map fun entries =>
        let field (fields : List (Text × Decoded)) (name : String) : Text :=
          ((get? fields name).map (·.text repr)).getD []
        consolidatedPairs (entries.map fun fields => (field fields "key", field fields "value"))

/-- The preference as it is stored, `none` where a surrogate makes that raise. -/
def Pair.encode? (p : Pair) : Option Preference := do
  let key ← Text.encode? p.key
  let value ← Text.encode? p.value
  return ⟨key, value⟩

structure Written where
  writes : List Write := []
  raised : Bool := false
  deriving DecidableEq

/-- The upserts in their order, up to the first that raises. -/
def storePairs : List Pair → Written
  | [] => {}
  | p :: ps =>
    match p.encode? with
    | none => { raised := true }
    | some pref => { storePairs ps with writes := .set pref.key pref.value :: (storePairs ps).writes }

def writeBackPairs (current : List Preference) (desired : List Pair) : Written :=
  if desired = [] ∨ current.length < desired.length then {}
  else
    let deletes := (current.filter fun p => ofString p.key ∉ desired.map (·.key)).map
      (Write.delete ·.key)
    { storePairs desired with writes := deletes ++ (storePairs desired).writes }

/-- `_maybe_consolidate` on the text of the reply. -/
def maybeConsolidate (loads : Text → Loaded) (repr : Decoded → String) (current : List Preference)
    (text : Text) : Written :=
  if current.length < consolidateThreshold then {}
  else if text = [] then {}
  else
    match parseConsolidated loads repr text with
    | none => { raised := true }
    | some desired => writeBackPairs current desired

/-- Text that was collapsed and found neither empty nor too long. -/
structure Clean (maxLen : ℕ) (s : String) : Prop where
  ne_empty : s ≠ ""
  length_le : s.length ≤ maxLen
  singleSpaced : SingleSpaced s.toList

structure CleanPair (key value : String) : Prop where
  key : Clean maxPrefKeyLen key
  value : Clean maxPrefValueLen value

structure CleanText (maxLen : ℕ) (t : Text) : Prop where
  ne_nil : t ≠ []
  length_le : t.length ≤ maxLen
  collapsed : t.collapse = t

structure Pair.Clean (p : Pair) : Prop where
  key : CleanText maxPrefKeyLen p.key
  value : CleanText maxPrefValueLen p.value

theorem cleanPair_of_checkRemember {key value k v : String}
    (h : checkRemember key value = .ok (k, v)) : CleanPair k v := by
  unfold checkRemember at h
  dsimp only at h
  split_ifs at h with hkey hkeyLen hvalue hvalueLen
  cases h
  exact ⟨⟨hkey, not_lt.mp hkeyLen, singleSpaced_collapse key⟩,
    ⟨hvalue, not_lt.mp hvalueLen, singleSpaced_collapse value⟩⟩

/-- The entry as a preference, if it is one within the bounds. -/
def pair? (e : Text × Text) : Option Pair :=
  if e.1.collapse = [] ∨ e.2.collapse = [] then none
  else if maxPrefKeyLen < e.1.collapse.length ∨ maxPrefValueLen < e.2.collapse.length then none
  else some ⟨e.1.collapse, e.2.collapse⟩

def firsts : List Pair → List Pair
  | [] => []
  | p :: ps => p :: (firsts ps).filter fun q => q.key ≠ p.key

def keepFirst (out : List Pair) (p : Pair) : List Pair :=
  if out.any (·.key = p.key) then out else out ++ [p]

section Firsts
variable {out : List Pair}

theorem foldl_keepFirst (ps : List Pair) :
    ps.foldl keepFirst out = out ++ (firsts ps).filter fun q => !out.any (·.key = q.key) := by
  induction ps generalizing out with
  | nil => simp [firsts]
  | cons p ps ih =>
    rw [List.foldl_cons, firsts]
    by_cases hseen : out.any (·.key = p.key)
    · -- the others of its key are dropped on both sides, as it is itself
      have hsame : ∀ q ∈ firsts ps, (!out.any (·.key = q.key)) =
          (!out.any (·.key = q.key) && decide (q.key ≠ p.key)) := by
        intro q _
        by_cases hq : q.key = p.key
        · simp [hq, hseen]
        · simp [hq]
      rw [keepFirst, if_pos hseen, ih, List.filter_cons_of_neg (by simpa using hseen),
        List.filter_filter, List.filter_congr hsame]
    · rw [keepFirst, if_neg hseen, ih, List.filter_cons_of_pos (by simpa using hseen),
        List.filter_filter, List.append_assoc, List.singleton_append]
      congr 2
      apply List.filter_congr
      intro q _
      simp [List.any_append, eq_comm]

theorem consolidatedPairs_eq_firsts (entries : List (Text × Text)) :
    consolidatedPairs entries = firsts (entries.filterMap pair?) := by
  have hloop : consolidatedPairs entries = (entries.filterMap pair?).foldl keepFirst [] := by
    rw [List.foldl_filterMap, consolidatedPairs]
    congr 1
    funext out e
    dsimp only [pair?]
    split_ifs <;> simp_all [keepFirst]
  rw [hloop, foldl_keepFirst]
  simp

theorem firsts_sublist (ps : List Pair) : (firsts ps).Sublist ps := by
  induction ps with
  | nil => exact .refl _
  | cons p ps ih => exact .cons_cons _ (List.filter_sublist.trans ih)

theorem firsts_keys_nodup (ps : List Pair) : ((firsts ps).map (·.key)).Nodup := by
  induction ps with
  | nil => exact List.nodup_nil
  | cons p ps ih =>
    rw [firsts, List.map_cons, List.nodup_cons]
    refine ⟨fun h => ?_, ih.sublist (List.filter_sublist.map _)⟩
    obtain ⟨q, hq, hkey⟩ := List.mem_map.mp h
    exact of_decide_eq_true (List.mem_filter.mp hq).2 hkey

theorem clean_of_pair? {e : Text × Text} {p : Pair} (h : pair? e = some p) : p.Clean := by
  unfold pair? at h
  split_ifs at h with hempty hlong
  obtain rfl := Option.some_inj.mp h
  rw [not_or] at hempty hlong
  exact ⟨⟨hempty.1, not_lt.mp hlong.1, Text.collapse_collapse e.1⟩,
    ⟨hempty.2, not_lt.mp hlong.2, Text.collapse_collapse e.2⟩⟩

theorem consolidatedPairs_clean (entries : List (Text × Text)) :
    ∀ p ∈ consolidatedPairs entries, p.Clean := by
  intro p hp
  rw [consolidatedPairs_eq_firsts] at hp
  obtain ⟨e, -, he⟩ := List.mem_filterMap.mp ((firsts_sublist _).subset hp)
  exact clean_of_pair? he

theorem consolidatedPairs_keys_nodup (entries : List (Text × Text)) :
    ((consolidatedPairs entries).map (·.key)).Nodup := by
  rw [consolidatedPairs_eq_firsts]
  exact firsts_keys_nodup _

end Firsts

section Strings
variable {pref : Preference} {p : Pair}

def Pair.ofPreference (pref : Preference) : Pair := ⟨ofString pref.key, ofString pref.value⟩

theorem encode?_eq_some : p.encode? = some pref ↔ p = .ofPreference pref := by
  simp only [Pair.encode?, Option.bind_eq_bind, Option.bind_eq_some_iff, Text.encode?_eq_some]
  constructor
  · rintro ⟨key, hkey, value, hvalue, h⟩
    obtain rfl := Option.some_inj.mp h
    rw [Pair.ofPreference, ← hkey, ← hvalue]
  · rintro rfl
    exact ⟨pref.key, rfl, pref.value, rfl, rfl⟩

theorem collapse_of_cleanText {n : ℕ} {s : String} (h : CleanText n (ofString s)) : collapse s = s :=
  Text.ofString_injective (by rw [← Text.collapse_ofString, h.collapsed])

theorem clean_of_cleanText {n : ℕ} {s : String} (h : CleanText n (ofString s)) : Clean n s where
  ne_empty hempty := h.ne_nil (by rw [hempty]; rfl)
  length_le := by
    have hle := h.length_le
    rwa [ofString, List.length_map, String.length_toList] at hle
  singleSpaced := by
    rw [← collapse_of_cleanText h]
    exact singleSpaced_collapse s

theorem Pair.Clean.cleanPair (h : (Pair.ofPreference pref).Clean) : CleanPair pref.key pref.value :=
  ⟨clean_of_cleanText h.key, clean_of_cleanText h.value⟩

theorem map_ofPreference_consolidated (pairs : List (String × String)) :
    (consolidated pairs).map Pair.ofPreference =
      consolidatedPairs (pairs.map fun e => (ofString e.1, ofString e.2)) := by
  have hempty : ∀ s, ofString s = [] ↔ s = "" := fun s => by
    rw [← Text.ofString_injective.eq_iff]
    rfl
  have hlength : ∀ s, (ofString s).length = s.length := fun s => by
    rw [ofString, List.length_map, String.length_toList]
  rw [consolidated, consolidatedPairs, List.foldl_map]
  refine (List.foldl_hom (List.map Pair.ofPreference) ?_).symm
  intro out e
  have hseen : (out.map Pair.ofPreference).any (·.key = ofString (collapse e.1)) =
      out.any (·.key = collapse e.1) := by
    rw [List.any_map]
    congr 1
    funext p
    exact decide_eq_decide.mpr Text.ofString_injective.eq_iff
  dsimp only
  simp only [Text.collapse_ofString, hempty, hlength, hseen]
  split_ifs
  · rfl
  · rfl
  · rfl
  · rw [List.map_append]
    rfl

theorem consolidated_clean (pairs : List (String × String)) :
    ∀ p ∈ consolidated pairs, CleanPair p.key p.value := by
  intro p hp
  have hmem := List.mem_map_of_mem (f := Pair.ofPreference) hp
  rw [map_ofPreference_consolidated] at hmem
  exact (consolidatedPairs_clean _ _ hmem).cleanPair

theorem consolidated_keys_nodup (pairs : List (String × String)) :
    ((consolidated pairs).map (·.key)).Nodup := by
  have hnodup := consolidatedPairs_keys_nodup (pairs.map fun e => (ofString e.1, ofString e.2))
  rw [← map_ofPreference_consolidated, List.map_map] at hnodup
  refine List.Nodup.of_map ofString ?_
  rwa [List.map_map]

/-- A clean profile with a pair for each key is its own consolidation. -/
theorem consolidated_self {prefs : List Preference} (hclean : ∀ p ∈ prefs, (Pair.ofPreference p).Clean)
    (hnodup : (prefs.map (·.key)).Nodup) : consolidated (prefs.map fun p => (p.key, p.value)) = prefs := by
  induction prefs using List.reverseRecOn with
  | nil => rfl
  | append_singleton prefs p ih =>
    rw [List.map_append, List.nodup_append] at hnodup
    have hp := hclean p (List.mem_append_right _ List.mem_cons_self)
    have hseen : prefs.any (·.key = p.key) = false := by
      rw [List.any_eq_false]
      intro q hq
      simpa using hnodup.2.2 q.key (List.mem_map_of_mem hq) p.key (by simp)
    have hprefs := ih (fun q hq => hclean q (List.mem_append_left _ hq)) hnodup.1
    rw [consolidated] at hprefs
    rw [consolidated, List.map_append, List.foldl_append, hprefs, List.map_singleton, List.foldl_cons,
      List.foldl_nil]
    dsimp only
    rw [collapse_of_cleanText hp.key, collapse_of_cleanText hp.value,
      if_neg (not_or.mpr ⟨hp.cleanPair.key.ne_empty, hp.cleanPair.value.ne_empty⟩),
      if_neg (not_or.mpr ⟨hp.cleanPair.key.length_le.not_gt, hp.cleanPair.value.length_le.not_gt⟩),
      hseen, if_neg Bool.false_ne_true]

end Strings

section Writes
variable {loads : Text → Loaded} {repr : Decoded → String} {current prefs : List Preference}
  {ps out : List Pair} {raw : Text} {key value : String}

theorem storePairs_of_encode? {p : Pair} {pref : Preference} (h : p.encode? = some pref) :
    storePairs (p :: ps) =
      { storePairs ps with writes := .set pref.key pref.value :: (storePairs ps).writes } := by
  rw [storePairs, h]

theorem storePairs_of_encode?_none {p : Pair} (h : p.encode? = none) :
    storePairs (p :: ps) = { raised := true } := by
  rw [storePairs, h]

theorem mem_storePairs (h : Write.set key value ∈ (storePairs ps).writes) :
    .ofPreference ⟨key, value⟩ ∈ ps := by
  induction ps with
  | nil => cases h
  | cons p ps ih =>
    cases hp : p.encode? with
    | none =>
      rw [storePairs_of_encode?_none hp] at h
      cases h
    | some pref =>
      rw [storePairs_of_encode? hp] at h
      rcases List.mem_cons.mp h with heq | h
      · cases heq
        exact encode?_eq_some.mp hp ▸ List.mem_cons_self
      · exact List.mem_cons_of_mem _ (ih h)

theorem storePairs_raised_iff : (storePairs ps).raised = true ↔ ∃ p ∈ ps, p.encode? = none := by
  induction ps with
  | nil => simp [storePairs]
  | cons p ps ih =>
    rw [List.exists_mem_cons_iff]
    cases hp : p.encode? with
    | none => rw [storePairs_of_encode?_none hp]; simp
    | some pref => rw [storePairs_of_encode? hp]; simpa using ih

theorem exists_map_ofPreference (h : (storePairs ps).raised = false) :
    ∃ prefs : List Preference, ps = prefs.map Pair.ofPreference ∧
      (storePairs ps).writes = prefs.map fun p => .set p.key p.value := by
  induction ps with
  | nil => exact ⟨[], rfl, rfl⟩
  | cons p ps ih =>
    cases hp : p.encode? with
    | none =>
      rw [storePairs_of_encode?_none hp] at h
      cases h
    | some pref =>
      rw [storePairs_of_encode? hp] at h ⊢
      obtain ⟨prefs, hps, hwrites⟩ := ih h
      refine ⟨pref :: prefs, ?_, ?_⟩
      · rw [List.map_cons, ← encode?_eq_some.mp hp, ← hps]
      · rw [List.map_cons, ← hwrites]

theorem parseConsolidated_eq (h : parseConsolidated loads repr raw = some out) :
    ∃ entries, out = consolidatedPairs entries := by
  unfold parseConsolidated at h
  split at h
  case h_1 => cases h; exact ⟨[], rfl⟩
  case h_2 text htext =>
    split at h
    case h_1 => cases h; exact ⟨[], rfl⟩
    case h_2 => cases h
    case h_3 v hv =>
      obtain ⟨entries, -, rfl⟩ := Option.map_eq_some_iff.mp h
      exact ⟨_, rfl⟩

/-- Whatever the model replies, what is stored of it is clean. -/
theorem cleanPair_of_mem_writes
    (h : Write.set key value ∈ (maybeConsolidate loads repr current raw).writes) :
    CleanPair key value := by
  unfold maybeConsolidate at h
  split_ifs at h
  · cases h
  · cases h
  · cases hparse : parseConsolidated loads repr raw with
    | none =>
      rw [hparse] at h
      cases h
    | some out =>
      obtain ⟨entries, rfl⟩ := parseConsolidated_eq hparse
      rw [hparse] at h
      dsimp only [writeBackPairs] at h
      split_ifs at h
      · cases h
      · rcases List.mem_append.mp h with h | h
        · obtain ⟨p, -, hp⟩ := List.mem_map.mp h
          cases hp
        · exact (consolidatedPairs_clean entries _ (mem_storePairs h)).cleanPair

/-- A reply that nothing raises for is written back as a consolidation of pairs of strings. -/
theorem exists_writeBack (h : (maybeConsolidate loads repr current raw).raised = false) :
    ∃ pairs, (maybeConsolidate loads repr current raw).writes = writeBack current (consolidated pairs) := by
  unfold maybeConsolidate at h ⊢
  split_ifs at h ⊢
  · exact ⟨[], rfl⟩
  · exact ⟨[], rfl⟩
  · cases hparse : parseConsolidated loads repr raw with
    | none =>
      rw [hparse] at h
      cases h
    | some out =>
      obtain ⟨entries, rfl⟩ := parseConsolidated_eq hparse
      rw [hparse] at h
      dsimp only [writeBackPairs] at h ⊢
      split_ifs at h ⊢ with hunusable
      · exact ⟨[], rfl⟩
      -- nothing was raised, so every pair of the reply is a pair of strings
      · obtain ⟨prefs, hprefs, hwrites⟩ := exists_map_ofPreference h
        -- pairs that are clean and of different keys are consolidated to themselves
        have hself : consolidated (prefs.map fun p => (p.key, p.value)) = prefs := by
          apply consolidated_self
          · intro p hp
            exact consolidatedPairs_clean entries _ (hprefs ▸ List.mem_map_of_mem hp)
          · have hnodup := consolidatedPairs_keys_nodup entries
            rw [hprefs, List.map_map] at hnodup
            refine List.Nodup.of_map ofString ?_
            rwa [List.map_map]
        have hkeys : (consolidatedPairs entries).map (·.key) = (prefs.map (·.key)).map ofString := by
          rw [hprefs, List.map_map, List.map_map]
          rfl
        refine ⟨prefs.map fun p => (p.key, p.value), ?_⟩
        rw [hself, writeBack, if_neg, hwrites, hkeys]
        · simp only [List.mem_map_of_injective Text.ofString_injective]
        · rwa [hprefs, List.map_eq_nil_iff, List.length_map] at hunusable

end Writes

end Chic.Profile
