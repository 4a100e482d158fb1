import Chic.ConsolidatedReply

namespace Chic.Profile
open AppDb PyText
open Text (ofString)

/-- `_remember`: the writes and the answer, `none` where it raises. `db` is the store that is read
after the pair was set. -/
def remember (loads : Text → Loaded) (repr : Decoded → String) (db : Store) (u : UserId) (text : Text)
    (key value : String) : List Write × Option String :=
  match checkRemember key value with
  | .error answer => ([], some answer)
  | .ok (key, value) =>
    let written := maybeConsolidate loads repr (db.preferences u) text
    (.set key value :: written.writes,
      if written.raised then none else some ("OK: сохранено " ++ key ++ " = " ++ value))

section
variable (loads : Text → Loaded) (repr : Decoded → String) (raw : Text)

/-- The pairs of texts in a reply, `none` where reading them raises. -/
def replyPairs : Option (List (Text × Text)) :=
  match braced? (Text.strip raw) with
  | none => some []
  | some text =>
    match loads text with
    | .undecodable => some []
    | .raised => none
    | .value v =>
      v.entries?.map fun entries => entries.map fun fields =>
        (((get? fields "key").map (·.text repr)).getD [],
          ((get? fields "value").map (·.text repr)).getD [])

/-- The parser returns the first clean preference of each key, and nothing in the reply makes
`remember_preference` fail, whatever is stored. -/
def ReplyHandled : Prop :=
  (∃ pairs out, replyPairs loads repr raw = some pairs ∧
    parseConsolidated loads repr raw = some out ∧ out = firsts (pairs.filterMap pair?) ∧
    (out.map (·.key)).Nodup ∧ ∀ p ∈ out, p.Clean) ∧
  ∀ db u key value, (remember loads repr db u raw key value).2 ≠ none

/-- A list of objects, or nothing. -/
def Entries (prefs : Decoded) : Prop :=
  prefs = .str [] ∨ prefs = .dict [] ∨
    ∃ items, prefs = .list items ∧ ∀ item ∈ items, ∃ fields, item = .dict fields

/-- What stands between the braces, if anything does, is no JSON, no object, an object without
`preferences`, or one whose `preferences` are a list of objects or empty. -/
def WellShaped : Prop :=
  ∀ text, braced? (Text.strip raw) = some text →
    loads text ≠ .raised ∧ ∀ fields prefs, loads text = .value (.dict fields) →
      get? fields "preferences" = some prefs → Entries prefs

/-- No pair that is the first clean one of its key has a surrogate, unless there are more such pairs
than a profile is read with. -/
def Storable : Prop :=
  ∀ pairs, replyPairs loads repr raw = some pairs →
    Store.maxRenderedPreferences < (firsts (pairs.filterMap pair?)).length ∨
      ∀ p ∈ firsts (pairs.filterMap pair?), ∃ pref, p = .ofPreference pref

end

section Shape
variable {loads : Text → Loaded} {repr : Decoded → String} {raw : Text}

theorem parseConsolidated_eq_map :
    parseConsolidated loads repr raw = (replyPairs loads repr raw).map consolidatedPairs := by
  unfold parseConsolidated replyPairs
  cases braced? (Text.strip raw) with
  | none => rfl
  | some text =>
    dsimp only
    cases loads text with
    | undecodable => rfl
    | raised => rfl
    | value v => exact (Option.map_map consolidatedPairs _ v.entries?).symm

theorem mapM_fields?_isSome_iff (items : List Decoded) :
    (items.mapM Decoded.fields?).isSome ↔ ∀ item ∈ items, ∃ fields, item = .dict fields := by
  induction items with
  | nil => simp
  | cons item items ih =>
    rw [List.mapM_cons, List.forall_mem_cons, ← ih]
    cases item with
    | dict fields => cases items.mapM Decoded.fields? <;> simp [Decoded.fields?]
    | _ => simp [Decoded.fields?]

/-- Anything but an object has no entries. -/
theorem entries?_isSome_iff {v : Decoded} : v.entries?.isSome ↔
    ∀ fields prefs, v = .dict fields → get? fields "preferences" = some prefs → Entries prefs := by
  cases v with
  | dict fields =>
    have hprefs : (∀ fields' prefs, Decoded.dict fields = .dict fields' →
        get? fields' "preferences" = some prefs → Entries prefs) ↔
        ∀ prefs, get? fields "preferences" = some prefs → Entries prefs :=
      ⟨fun h prefs => h fields prefs rfl, fun h fields' prefs hfields =>
        Decoded.dict.inj hfields ▸ h prefs⟩
    rw [hprefs, Decoded.entries?]
    cases get? fields "preferences" with
    | none => simp
    | some prefs =>
      simp only [Option.some_inj, forall_eq']
      cases prefs with
      | list items => simpa [Entries] using mapM_fields?_isSome_iff items
      | str text => by_cases htext : text = [] <;> simp [Entries, htext]
      | dict inner => cases inner <;> simp [Entries]
      | _ => simp [Entries]
  | _ => simp [Decoded.entries?]

theorem replyPairs_isSome_iff : (replyPairs loads repr raw).isSome ↔ WellShaped loads raw := by
  unfold replyPairs WellShaped
  cases braced? (Text.strip raw) with
  | none => simp
  | some text =>
    simp only [Option.some_inj, forall_eq']
    cases loads text with
    | undecodable => simp
    | raised => simp
    | value v =>
      simp only [Option.isSome_map, entries?_isSome_iff, Loaded.value.injEq, ne_eq, reduceCtorEq,
        not_false_eq_true, true_and]

end Shape

/-- Fifty short preferences, as many as are ever read. -/
def fiftyKeys : Store :=
  ((List.range 50).map fun i => String.ofList (List.replicate (i + 1) 'a')).foldl
    (fun db key => db.setPreference 1 key "x" 0) Store.empty

section Raises
variable {loads : Text → Loaded} {repr : Decoded → String} {raw : Text} {out : List Pair}

theorem length_fiftyKeys : (fiftyKeys.preferences 1).length = Store.maxRenderedPreferences := by
  have hrows : (fiftyKeys.profileRows 1).length = Store.maxRenderedPreferences := by decide +kernel
  rw [Store.preferences, List.length_map, List.length_insertionSort, List.length_take,
    List.length_insertionSort, hrows, min_self]

/-- What a reply that is parsed makes raise: a surrogate in a pair, if the pairs are few enough. -/
theorem raised_iff {current : List Preference} (hparse : parseConsolidated loads repr raw = some out) :
    (maybeConsolidate loads repr current raw).raised = true ↔
      consolidateThreshold ≤ current.length ∧ out.length ≤ current.length ∧
        ∃ p ∈ out, p.encode? = none := by
  have hnil : raw = [] → out = [] := by
    rintro rfl
    exact (Option.some_inj.mp hparse).symm
  unfold maybeConsolidate
  split_ifs with hfew hraw
  · exact iff_of_false (by simp) fun h => h.1.not_gt hfew
  · rw [hnil hraw]
    simp
  · rw [hparse]
    dsimp only [writeBackPairs]
    split_ifs with hunusable
    · refine iff_of_false (by simp) ?_
      rintro ⟨-, hlen, p, hp, -⟩
      rcases hunusable with hempty | hlong
      · rw [hempty] at hp
        cases hp
      · exact hlen.not_gt hlong
    · rw [not_or, not_lt] at hunusable
      rw [storePairs_raised_iff]
      exact ⟨fun h => ⟨not_lt.mp hfew, hunusable.2, h⟩, fun h => h.2.2⟩

theorem encode?_eq_none_iff {p : Pair} : p.encode? = none ↔ ¬ ∃ pref, p = .ofPreference pref := by
  simp only [← encode?_eq_some, ← Option.isSome_iff_exists, Option.not_isSome_iff_eq_none]

theorem remember_ne_none_iff (hparse : parseConsolidated loads repr raw = some out) :
    (∀ db u key value, (remember loads repr db u raw key value).2 ≠ none) ↔
      Store.maxRenderedPreferences < out.length ∨ ∀ p ∈ out, ∃ pref, p = .ofPreference pref := by
  constructor
  · intro h
    by_contra! hbad
    obtain ⟨hlen, p, hp, hsurrogate⟩ := hbad
    refine h fiftyKeys 1 "a" "x" ?_
    have hraised : (maybeConsolidate loads repr (fiftyKeys.preferences 1) raw).raised = true := by
      rw [raised_iff hparse, length_fiftyKeys]
      exact ⟨by decide, hlen, p, hp, encode?_eq_none_iff.mpr (not_exists.mpr hsurrogate)⟩
    have hcheck : checkRemember "a" "x" = .ok ("a", "x") := by decide +kernel
    rw [remember, hcheck]
    dsimp only
    rw [hraised, if_pos rfl]
  · intro h db u key value
    have hkept : (maybeConsolidate loads repr (db.preferences u) raw).raised = false := by
      rw [← Bool.not_eq_true, raised_iff hparse]
      rintro ⟨-, hlen, p, hp, hsurrogate⟩
      rcases h with hlong | hall
      · exact (hlen.trans (Store.length_preferences_le db u)).not_gt hlong
      · exact encode?_eq_none_iff.mp hsurrogate (hall p hp)
    unfold remember
    cases checkRemember key value with
    | error answer => exact Option.some_ne_none answer
    | ok pair =>
      dsimp only
      rw [hkept, if_neg Bool.false_ne_true]
      exact Option.some_ne_none _

end Raises

/-- A reply is handled exactly when it is well shaped and can be stored. -/
theorem replyHandled_iff (loads : Text → Loaded) (repr : Decoded → String) (raw : Text) :
    ReplyHandled loads repr raw ↔ WellShaped loads raw ∧ Storable loads repr raw := by
  rw [← replyPairs_isSome_iff, ReplyHandled, Storable]
  cases hpairs : replyPairs loads repr raw with
  | none =>
    refine iff_of_false ?_ (by simp)
    rintro ⟨⟨pairs, out, hsome, -⟩, -⟩
    cases hsome
  | some pairs =>
    have hparse : parseConsolidated loads repr raw = some (firsts (pairs.filterMap pair?)) := by
      rw [parseConsolidated_eq_map, hpairs, Option.map_some, consolidatedPairs_eq_firsts]
    have hclean := consolidatedPairs_clean pairs
    rw [consolidatedPairs_eq_firsts] at hclean
    have hparsed : ∃ pairs' out, some pairs = some pairs' ∧
        parseConsolidated loads repr raw = some out ∧ out = firsts (pairs'.filterMap pair?) ∧
        (out.map (·.key)).Nodup ∧ ∀ p ∈ out, p.Clean :=
      ⟨pairs, _, rfl, hparse, rfl, firsts_keys_nodup _, hclean⟩
    rw [and_iff_right hparsed, remember_ne_none_iff hparse]
    simp

def listOfText : Decoded := .dict [(ofString "preferences", .list [.str (ofString "a")])]

def eightKeys : Store :=
  ["а", "б", "в", "г", "д", "е", "ж", "з"].foldl (fun db key => db.setPreference 1 key "x" 0) Store.empty

/-- A list of texts instead of objects: the eighth preference is stored, and the call fails. -/
theorem listOfText_raises :
    parseConsolidated (fun _ => .value listOfText) (fun _ => "")
      (ofString "\x7b\"preferences\": [\"a\"]\x7d") = none ∧
    remember (fun _ => .value listOfText) (fun _ => "") eightKeys 1
      (ofString "\x7b\"preferences\": [\"a\"]\x7d") "з" "x" = ([.set "з" "x"], none) ∧
    ¬ ReplyHandled (fun _ => .value listOfText) (fun _ => "")
      (ofString "\x7b\"preferences\": [\"a\"]\x7d") := by
  have hparse : parseConsolidated (fun _ => .value listOfText) (fun _ => "")
      (ofString "\x7b\"preferences\": [\"a\"]\x7d") = none := by
    decide +kernel
  refine ⟨hparse, by decide +kernel, ?_⟩
  rintro ⟨⟨pairs, out, -, hout, -⟩, -⟩
  cases hparse.symm.trans hout

-- half of an escaped pair as the value: all the other preferences are gone before the call fails
example :
    let reply : Decoded := .dict [(ofString "preferences",
      .list [.dict [(ofString "key", .str (ofString "з")), (ofString "value", .str [.surrogate 61])]])]
    remember (fun _ => .value reply) (fun _ => "") eightKeys 1 (ofString "\x7b\x7d") "з" "x" =
      (.set "з" "x" :: ["а", "б", "в", "г", "д", "е", "ж"].map .delete, none) := by
  decide +kernel

end Chic.Profile
