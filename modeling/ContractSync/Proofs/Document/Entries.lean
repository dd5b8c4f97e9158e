import ContractSync.Document.Value
import ContractSync.Proofs.Outcome
import Mathlib.Data.List.Forall2

/-!
# The entries of a mapping

What setting and removing a key does to the entries, to the keys that are present and to the value
at another key.
-/

namespace ContractSync.Document

/-- Only a string is the same key as a string. -/
theorem Scalar.sameKey_text (a : Scalar) (s : String) : a.sameKey (.text s) = (a == .text s) := by
  rw [Bool.eq_iff_iff, beq_iff_eq]
  cases a with
  | text t => exact beq_iff_eq.trans ⟨congrArg _, Scalar.text.inj⟩
  | bool b => cases b <;> exact ⟨nofun, nofun⟩
  | _ => exact ⟨by intro h; simp [Scalar.sameKey, Scalar.number?, Scalar.sameInfinite] at h, nofun⟩

theorem Scalar.text_sameKey (a : Scalar) (s : String) : (Scalar.text s).sameKey a = (a == .text s) := by
  rw [Bool.eq_iff_iff, beq_iff_eq]
  cases a with
  | text t => exact beq_iff_eq.trans ⟨fun h => congrArg _ h.symm, fun h => (Scalar.text.inj h).symm⟩
  | bool b => cases b <;> exact ⟨nofun, nofun⟩
  | _ => exact ⟨by intro h; simp [Scalar.sameKey, Scalar.number?, Scalar.sameInfinite] at h, nofun⟩

end ContractSync.Document

namespace ContractSync.Document.Entries

variable {entries : Entries} {key other : String} {v : Value}

theorem get?_cons {k : Scalar} {rest : Entries} :
    get? ((k, v) :: rest) key = if k = .text key then some v else get? rest key := by
  by_cases h : k = .text key
  · simp [get?, h]
  · simp [get?, h]

theorem has_iff : has entries key = true ↔ ∃ e ∈ entries, e.1 = .text key := by
  simp [has, get?]

theorem has_eq_false_iff : has entries key = false ↔ ∀ e ∈ entries, e.1 ≠ .text key := by
  rw [← Bool.not_eq_true, has_iff]
  simp only [not_exists, not_and, ne_eq]

theorem get?_eq_none_iff : get? entries key = none ↔ has entries key = false := by
  simp [has]

theorem get_of_not_has (h : has entries key = false) : get entries key = .null := by
  rw [get, get?_eq_none_iff.mpr h]
  rfl

theorem get_of_get? (h : get? entries key = some v) : get entries key = v := by
  rw [get, h]
  rfl

theorem get_congr {entries' : Entries} (h : get? entries' key = get? entries key) : get entries' key = get entries key := by
  rw [get, h]
  rfl

theorem has_of_get? (h : get? entries key = some v) : has entries key = true := by
  rw [has, h]
  rfl

/-- Which keys are present depends on the keys alone. -/
theorem has_congr {entries' : Entries} (h : entries'.map (·.1) = entries.map (·.1)) :
    has entries' key = has entries key := by
  have hkeys : ∀ entries : Entries, has entries key = true ↔ .text key ∈ entries.map (·.1) := by
    intro entries
    rw [has_iff, List.mem_map]
  rw [Bool.eq_iff_iff, hkeys, hkeys, h]

/-! ### Removing a key -/

theorem mem_of_mem_erase {e : Scalar × Value} (h : e ∈ erase entries key) : e ∈ entries :=
  (List.mem_filter.mp h).1

theorem has_erase_self : has (erase entries key) key = false := by
  rw [has_eq_false_iff]
  intro e h
  simpa using (List.mem_filter.mp h).2

theorem not_has_erase (h : has entries other = false) : has (erase entries key) other = false := by
  rw [has_eq_false_iff] at h ⊢
  exact fun e he => h e (mem_of_mem_erase he)

theorem erase_of_not_has (h : has entries key = false) : erase entries key = entries := by
  rw [has_eq_false_iff] at h
  exact List.filter_eq_self.mpr fun e he => by simpa using h e he

/-! ### Setting a key -/

theorem mem_of_mem_put {e : Scalar × Value} (h : e ∈ put entries key v) :
    e ∈ entries ∨ e = (.text key, v) := by
  unfold put at h
  split at h
  · obtain ⟨e', he', h⟩ := List.mem_map.mp h
    split at h
    · rename_i hkey
      rw [← h, beq_iff_eq.mp hkey]
      exact .inr rfl
    · rw [← h]
      exact .inl he'
  · rcases List.mem_append.mp h with h | h
    · exact .inl h
    · exact .inr (List.mem_singleton.mp h)

theorem mem_of_mem_putNew {e : Scalar × Value} (h : e ∈ putNew entries key v) :
    e ∈ entries ∨ e = (.text key, v) := by
  unfold putNew at h
  split at h
  · exact .inl h
  · rcases List.mem_append.mp h with h | h
    · exact .inl h
    · exact .inr (List.mem_singleton.mp h)

theorem not_has_put (hne : key ≠ other) (h : has entries other = false) :
    has (put entries key v) other = false := by
  rw [has_eq_false_iff] at h ⊢
  intro e he
  rcases mem_of_mem_put he with he | rfl
  · exact h e he
  · simpa using hne

theorem not_has_putNew (hne : key ≠ other) (h : has entries other = false) :
    has (putNew entries key v) other = false := by
  rw [has_eq_false_iff] at h ⊢
  intro e he
  rcases mem_of_mem_putNew he with he | rfl
  · exact h e he
  · simpa using hne

/-! ### The value at a key -/

theorem mem_of_get? (h : get? entries key = some v) : (.text key, v) ∈ entries := by
  obtain ⟨e, he, rfl⟩ := Option.map_eq_some_iff.mp h
  have hkey : e.1 = .text key := by simpa using List.find?_some he
  rw [← hkey]
  exact List.mem_of_find?_eq_some he

theorem get?_append {entries' : Entries} :
    get? (entries ++ entries') key = (get? entries key).or (get? entries' key) := by
  rw [get?, List.find?_append, get?, get?]
  cases List.find? (fun e => e.1 == Scalar.text key) entries <;> rfl

theorem get?_erase_of_ne (h : key ≠ other) : get? (erase entries key) other = get? entries other := by
  rw [get?, get?, erase, List.find?_filter]
  congr 2
  funext e
  by_cases he : e.1 = .text other
  · simp [he, Ne.symm h]
  · simp [he]

theorem get?_put_self : get? (put entries key v) key = some v := by
  unfold put
  split
  · rename_i hhas
    obtain ⟨e, he, hkey⟩ := has_iff.mp hhas
    induction entries with
    | nil => cases he
    | cons e' rest ih =>
      rw [List.map_cons]
      by_cases hfirst : e'.1 = .text key
      · rw [if_pos (beq_iff_eq.mpr hfirst), get?_cons, if_pos hfirst]
      · rw [if_neg (by simpa using hfirst), get?_cons, if_neg hfirst]
        have hmem : e ∈ rest := by
          rcases List.mem_cons.mp he with rfl | hmem
          · exact absurd hkey hfirst
          · exact hmem
        exact ih (has_iff.mpr ⟨e, hmem, hkey⟩) hmem
  · rename_i hhas
    rw [get?_append, get?_eq_none_iff.mpr (by simpa using hhas), get?_cons, if_pos rfl]
    rfl

theorem get?_put_of_ne (h : key ≠ other) : get? (put entries key v) other = get? entries other := by
  unfold put
  split
  · rename_i hhas
    clear hhas
    induction entries with
    | nil => rfl
    | cons e rest ih =>
      rw [List.map_cons]
      by_cases hkey : e.1 = .text key
      · have hne : e.1 ≠ .text other := fun ho => h (Scalar.text.inj (hkey.symm.trans ho))
        rw [if_pos (beq_iff_eq.mpr hkey), get?_cons, if_neg hne, get?_cons, if_neg hne, ih]
      · rw [if_neg (by simpa using hkey), get?_cons, get?_cons, ih]
  · have hne : ¬ Scalar.text key = .text other := fun ho => h (Scalar.text.inj ho)
    rw [get?_append, get?_cons, if_neg hne]
    simp [get?]

theorem get?_putNew_of_ne (h : key ≠ other) : get? (putNew entries key v) other = get? entries other := by
  have hne : ¬ Scalar.text key = .text other := fun ho => h (Scalar.text.inj ho)
  unfold putNew
  split
  · rfl
  · rw [get?_append, get?_cons, if_neg hne]
    simp [get?]

/-! ### Another value at a key -/

/-- The entries with another value at a key, where the key is present. -/
def replace (entries : Entries) (key : String) (v : Value) : Entries :=
  entries.map fun e => if e.1 == .text key then (e.1, v) else e

section Replace

variable {w : Value}

theorem replace_cons (e : Scalar × Value) (rest : Entries) : replace (e :: rest) key v =
    (if e.1 == .text key then (e.1, v) else e) :: replace rest key v := rfl

theorem putNew_of_not_has (h : has entries key = false) : putNew entries key v = put entries key v := by
  rw [putNew, put, h]
  rfl

theorem put_of_has (h : has entries key = true) : put entries key v = replace entries key v := if_pos h

theorem has_replace : has (replace entries key v) other = has entries other := by
  refine has_congr ?_
  rw [replace, List.map_map]
  refine List.map_congr_left fun e _ => ?_
  rw [Function.comp_apply]
  split <;> rfl

theorem get?_replace_self (h : has entries key = true) : get? (replace entries key v) key = some v := by
  rw [← put_of_has h]
  exact get?_put_self

theorem replace_of_not_has (h : has entries key = false) : replace entries key v = entries := by
  rw [has_eq_false_iff] at h
  exact (List.map_congr_left fun e he => if_neg (by simpa using h e he)).trans (List.map_id _)

theorem get?_replace_of_ne (h : key ≠ other) : get? (replace entries key v) other = get? entries other := by
  cases hkey : has entries key with
  | true => rw [← put_of_has hkey, get?_put_of_ne h]
  | false => rw [replace_of_not_has hkey]

theorem get_replace_of_ne (h : key ≠ other) : get (replace entries key v) other = get entries other :=
  get_congr (get?_replace_of_ne h)

theorem replace_replace : replace (replace entries key w) key v = replace entries key v := by
  rw [replace, replace, replace, List.map_map]
  refine List.map_congr_left fun e _ => ?_
  rw [Function.comp_apply]
  by_cases he : e.1 == .text key
  · rw [if_pos he, if_pos he, if_pos he]
  · rw [if_neg he, if_neg he]

/-- Of two values that are set, the second one counts. -/
theorem put_eq_replace_put : put entries key v = replace (put entries key w) key v := by
  cases h : has entries key with
  | true => rw [put_of_has h, put_of_has h, replace_replace]
  | false =>
    rw [put, put, h, if_neg Bool.false_ne_true, if_neg Bool.false_ne_true, replace, List.map_append, ← replace,
      replace_of_not_has h]
    simp

theorem erase_replace : erase (replace entries key v) other = replace (erase entries other) key v := by
  rw [erase, replace, replace, erase, List.filter_map]
  congr 2
  funext e
  rw [Function.comp_apply]
  split <;> rfl

theorem put_replace_of_ne (h : key ≠ other) : put (replace entries key v) other w = replace (put entries other w) key v := by
  have hne : ¬(Scalar.text other == Scalar.text key) = true := by simpa using Ne.symm h
  rw [put, put, has_replace]
  split
  · rw [replace, replace, List.map_map, List.map_map]
    refine List.map_congr_left fun e _ => ?_
    rw [Function.comp_apply, Function.comp_apply]
    by_cases he : e.1 = .text key
    · simp [he, h]
    · by_cases ho : e.1 = .text other
      · simp [ho, Ne.symm h]
      · simp [he, ho]
  · rw [replace, replace, List.map_append, List.map_singleton, if_neg hne]

theorem putNew_replace_of_ne (h : key ≠ other) :
    putNew (replace entries key v) other w = replace (putNew entries other w) key v := by
  have hne : ¬(Scalar.text other == Scalar.text key) = true := by simpa using Ne.symm h
  rw [putNew, putNew, has_replace]
  split
  · rfl
  · rw [replace, replace, List.map_append, List.map_singleton, if_neg hne]

theorem putKey_text : putKey entries (.text key) v = put entries key v := by
  have hhas : entries.any (fun e => e.1 == .text key) = has entries key := by
    rw [Bool.eq_iff_iff, has_iff, List.any_eq_true]
    simp only [beq_iff_eq]
  simp only [putKey, put, Scalar.sameKey_text, hhas]

theorem putKey_replace_of_ne {k : Scalar} (h : k ≠ .text key) :
    putKey (replace entries key v) k w = replace (putKey entries k w) key v := by
  have hother : (Scalar.text key).sameKey k = false := by
    rw [Scalar.text_sameKey, beq_eq_false_iff_ne]
    exact h
  have hkeys : ∀ e : Scalar × Value, (if e.1 == .text key then (e.1, v) else e).1 = e.1 := by
    intro e
    split <;> rfl
  have hany : (replace entries key v).any (fun e => e.1.sameKey k) = entries.any fun e => e.1.sameKey k := by
    rw [replace, List.any_map]
    exact congrArg (entries.any ·) (funext fun e => by rw [Function.comp_apply, hkeys])
  rw [putKey, putKey, hany]
  split
  · rw [replace, replace, List.map_map, List.map_map]
    refine List.map_congr_left fun e _ => ?_
    rw [Function.comp_apply, Function.comp_apply]
    by_cases he : e.1 = .text key
    · simp [he, hother]
    · by_cases hk : e.1.sameKey k
      · simp [he, hk]
      · simp [he, hk]
  · rw [replace, replace, List.map_append, List.map_singleton, if_neg (by simpa using h)]

/-- New keys are written one behind the other. -/
theorem foldl_putKey_of_new {writes : Entries}
    (h : ((entries ++ writes).map (·.1)).Pairwise fun k l => k.sameKey l = false) :
    writes.foldl (fun entries w => putKey entries w.1 w.2) entries = entries ++ writes := by
  induction writes generalizing entries with
  | nil => exact (List.append_nil entries).symm
  | cons w writes ih =>
    have hnew : entries.any (·.1.sameKey w.1) = false := by
      rw [List.map_append, List.pairwise_append] at h
      refine List.any_eq_false.mpr fun e he => Bool.not_eq_true _ ▸ ?_
      exact h.2.2 _ (List.mem_map_of_mem he) _ (List.mem_map_of_mem List.mem_cons_self)
    rw [List.foldl_cons, putKey, hnew, if_neg Bool.false_ne_true, ih, List.append_assoc]
    · rfl
    · rwa [List.append_assoc]

theorem has_putKey {k : Scalar} (h : k = .text key ∨ has entries key = true) : has (putKey entries k w) key = true := by
  by_cases hkey : k = .text key
  · rw [hkey, putKey_text, has, get?_put_self]
    rfl
  · obtain ⟨e, he, hname⟩ := has_iff.mp (h.resolve_left hkey)
    rw [has_iff, putKey]
    split
    · exact ⟨_, List.mem_map_of_mem he, by split <;> exact hname⟩
    · exact ⟨e, List.mem_append_left _ he, hname⟩

theorem has_foldl_putKey {beside : Entries} (h : has beside key = true ∨ has entries key = true) :
    has (beside.foldl (fun found e => putKey found e.1 e.2) entries) key = true := by
  induction beside generalizing entries with
  | nil => exact h.resolve_left nofun
  | cons e rest ih =>
    rw [List.foldl_cons]
    refine ih ?_
    rcases h with h | h
    · obtain ⟨e', he', hkey⟩ := has_iff.mp h
      rcases List.mem_cons.mp he' with rfl | hmem
      · exact .inr (has_putKey (.inl hkey))
      · exact .inl (has_iff.mpr ⟨e', hmem, hkey⟩)
    · exact .inr (has_putKey (.inr h))

/-- A key is present if it is set or was present. -/
theorem has_putKey_iff {k : Scalar} :
    has (putKey entries k w) key = true ↔ k = .text key ∨ has entries key = true := by
  refine ⟨fun h => ?_, has_putKey⟩
  obtain ⟨e, he, hkey⟩ := has_iff.mp h
  rw [putKey] at he
  split at he
  · obtain ⟨e', he', rfl⟩ := List.mem_map.mp he
    refine .inr (has_iff.mpr ⟨e', he', ?_⟩)
    rw [← hkey]
    split <;> rfl
  · rcases List.mem_append.mp he with he | he
    · exact .inr (has_iff.mpr ⟨e, he, hkey⟩)
    · rw [List.mem_singleton.mp he] at hkey
      exact .inl hkey

theorem has_foldl_putKey_iff {beside : Entries} :
    has (beside.foldl (fun found e => putKey found e.1 e.2) entries) key = true ↔
      has beside key = true ∨ has entries key = true := by
  refine ⟨fun h => ?_, has_foldl_putKey⟩
  induction beside generalizing entries with
  | nil => exact .inr h
  | cons e rest ih =>
    rcases ih h with hrest | hset
    · obtain ⟨e', he', hkey⟩ := has_iff.mp hrest
      exact .inl (has_iff.mpr ⟨e', List.mem_cons_of_mem _ he', hkey⟩)
    · rcases has_putKey_iff.mp hset with hkey | hbefore
      · exact .inl (has_iff.mpr ⟨e, List.mem_cons_self, hkey⟩)
      · exact .inr hbefore

theorem get?_putKey_of_ne {k : Scalar} (h : k ≠ .text key) : get? (putKey entries k w) key = get? entries key := by
  have hother : (Scalar.text key).sameKey k = false := by
    rw [Scalar.text_sameKey, beq_eq_false_iff_ne]
    exact h
  rw [putKey]
  split
  · rename_i hany
    clear hany
    induction entries with
    | nil => rfl
    | cons e rest ih =>
      obtain ⟨k', v⟩ := e
      rw [List.map_cons, get?_cons]
      by_cases hkey : k' = .text key
      · rw [hkey, hother, if_neg Bool.false_ne_true, get?_cons, if_pos rfl, if_pos rfl]
      · rw [get?_cons, if_neg hkey, ← ih]
        by_cases hsame : k'.sameKey k = true
        · rw [if_pos hsame, if_neg hkey]
        · rw [if_neg hsame, if_neg hkey]
  · rw [get?_append, get?_cons, if_neg h]
    exact Option.or_none

/-- Of entries with different keys each one is found when they have been set. -/
theorem get?_foldl_putKey {beside : Entries} (hnodup : (beside.map (·.1)).Nodup) (h : (.text key, v) ∈ beside) :
    get? (beside.foldl (fun found e => putKey found e.1 e.2) entries) key = some v := by
  have hstays : ∀ {rest entries : Entries}, Scalar.text key ∉ rest.map (·.1) →
      get? (rest.foldl (fun found e => putKey found e.1 e.2) entries) key = get? entries key := by
    intro rest
    induction rest with
    | nil => exact fun _ => rfl
    | cons e rest ih =>
      intro entries hnot
      rw [List.map_cons, List.mem_cons, not_or] at hnot
      rw [List.foldl_cons, ih hnot.2, get?_putKey_of_ne (Ne.symm hnot.1)]
  induction beside generalizing entries with
  | nil => cases h
  | cons e rest ih =>
    rw [List.map_cons, List.nodup_cons] at hnodup
    rcases List.mem_cons.mp h with rfl | hrest
    · rw [List.foldl_cons, hstays hnodup.1, putKey_text, get?_put_self]
    · exact ih hnodup.2 hrest

/-- The strings among the keys. -/
def textKeys (entries : Entries) : List String := entries.filterMap fun e => e.1.text?

/-- Of entries with different strings as keys each one is found. -/
theorem get?_of_mem (hnodup : (textKeys entries).Nodup)
    (h : (.text key, v) ∈ entries) : get? entries key = some v := by
  induction entries with
  | nil => cases h
  | cons e rest ih =>
    obtain ⟨k, w⟩ := e
    rw [get?_cons]
    rcases List.mem_cons.mp h with heq | hrest
    · cases heq
      exact if_pos rfl
    · have hmem : key ∈ textKeys rest := List.mem_filterMap.mpr ⟨_, hrest, rfl⟩
      have hne : k ≠ .text key := by
        rintro rfl
        exact (List.nodup_cons.mp hnodup).1 hmem
      rw [if_neg hne]
      refine ih (hnodup.sublist ?_) hrest
      exact (List.sublist_cons_self _ _).filterMap _

/-- Setting a key gives no string twice. -/
theorem nodup_textKeys_putKey {k : Scalar} (h : (textKeys entries).Nodup) :
    (textKeys (putKey entries k w)).Nodup := by
  rw [putKey]
  split
  · have hkeys : textKeys (entries.map fun e => if e.1.sameKey k then (e.1, w) else e) = textKeys entries := by
      rw [textKeys, textKeys, List.filterMap_map]
      refine congrArg (List.filterMap · entries) (funext fun e => ?_)
      rw [Function.comp_apply]
      split <;> rfl
    rw [hkeys]
    exact h
  · rename_i hnone
    rw [textKeys, List.filterMap_append, ← textKeys]
    cases k with
    | text key =>
      refine List.nodup_append.mpr ⟨h, List.pairwise_singleton _ key, ?_⟩
      rintro name hname _ hkey rfl
      obtain rfl := List.mem_singleton.mp hkey
      obtain ⟨⟨k', v⟩, he, htext⟩ := List.mem_filterMap.mp hname
      cases k' with
      | text other =>
        obtain rfl : other = name := Option.some.inj htext
        exact hnone (List.any_eq_true.mpr ⟨_, he, by rw [Scalar.sameKey_text]; exact beq_self_eq_true _⟩)
      | _ => cases htext
    | _ => simpa [Scalar.text?] using h

theorem nodup_textKeys_foldl_putKey {beside : Entries} (h : (textKeys entries).Nodup) :
    (textKeys (beside.foldl (fun found e => putKey found e.1 e.2) entries)).Nodup := by
  induction beside generalizing entries with
  | nil => exact h
  | cons e rest ih => exact ih (nodup_textKeys_putKey h)

/-- **Of entries that are set one after the other one has another value.** -/
theorem foldl_putKey_replace {beside : Entries} (h : has beside key = true) :
    (replace beside key v).foldl (fun found e => putKey found e.1 e.2) entries =
      replace (beside.foldl (fun found e => putKey found e.1 e.2) entries) key v := by
  have hboth : ∀ (beside entries : Entries),
      (replace beside key v).foldl (fun found e => putKey found e.1 e.2) (replace entries key v) =
        replace (beside.foldl (fun found e => putKey found e.1 e.2) entries) key v := by
    intro beside
    induction beside with
    | nil => exact fun entries => rfl
    | cons e rest ih =>
      intro entries
      rw [replace_cons, List.foldl_cons, List.foldl_cons, ← ih]
      split
      · rename_i hkey
        rw [beq_iff_eq.mp hkey, putKey_text, putKey_text, ← put_eq_replace_put]
        cases hhas : has entries key with
        | true => rw [put_of_has (has_replace.trans hhas), replace_replace, put_of_has hhas]
        | false => rw [replace_of_not_has hhas]
      · rename_i hkey
        rw [putKey_replace_of_ne (by simpa using hkey)]
  induction beside generalizing entries with
  | nil => cases h
  | cons e rest ih =>
    rw [replace_cons, List.foldl_cons, List.foldl_cons]
    by_cases hkey : e.1 = .text key
    · rw [if_pos (beq_iff_eq.mpr hkey), ← hboth, hkey, putKey_text, putKey_text, ← put_eq_replace_put]
    · rw [if_neg (by simpa using hkey)]
      refine ih ?_
      obtain ⟨e', he', hkey'⟩ := has_iff.mp h
      rcases List.mem_cons.mp he' with rfl | hmem
      · exact absurd hkey' hkey
      · exact has_iff.mpr ⟨e', hmem, hkey'⟩

end Replace

/-- Every value at its key, changed or not. -/
def Pointwise (R : Scalar → Value → Value → Prop) : Entries → Entries → Prop :=
  List.Forall₂ fun e e' => e'.1 = e.1 ∧ R e.1 e.2 e'.2

section Pointwise

variable {R : Scalar → Value → Value → Prop} {entries' : Entries}

theorem Pointwise.get?_eq_none (h : Pointwise R entries entries') (hnone : get? entries key = none) :
    get? entries' key = none := by
  induction h with
  | nil => rfl
  | cons hfirst _ ih =>
    obtain ⟨hkey, -⟩ := hfirst
    rw [get?_cons] at hnone ⊢
    split at hnone
    · cases hnone
    · rename_i hne
      rw [hkey, if_neg hne]
      exact ih hnone

theorem Pointwise.get?_eq_some (h : Pointwise R entries entries') (hsome : get? entries key = some v) :
    ∃ v', get? entries' key = some v' ∧ R (.text key) v v' := by
  induction h with
  | nil => cases hsome
  | @cons e e' _ _ hfirst _ ih =>
    obtain ⟨hkey, hvalue⟩ := hfirst
    rw [get?_cons] at hsome ⊢
    split at hsome
    · rename_i heq
      cases hsome
      exact ⟨e'.2, by rw [hkey, if_pos heq], heq ▸ hvalue⟩
    · rename_i hne
      rw [hkey, if_neg hne]
      exact ih hsome

/-- Every value is changed where it stands. -/
theorem pointwise_of_mapM {ε : Type} {f : Scalar → Value → Except ε Value}
    (h : entries.mapM (fun e => do return (e.1, ← f e.1 e.2)) = .ok entries') :
    Pointwise (fun k v v' => f k v = .ok v') entries entries' := by
  induction entries generalizing entries' with
  | nil =>
    cases h
    exact .nil
  | cons e rest ih =>
    rw [List.mapM_cons, bind_eq_ok] at h
    obtain ⟨e', he, h⟩ := h
    obtain ⟨rest', hr, h⟩ := bind_eq_ok.mp h
    obtain ⟨v', hv, he⟩ := bind_eq_ok.mp he
    cases pure_eq_ok.mp he
    cases pure_eq_ok.mp h
    exact .cons ⟨rfl, hv⟩ (ih hr)

end Pointwise

/-! ### What the entries come to -/

section FlatMap

variable {α : Type} {f : Scalar × Value → List α}

/-- Removing a key that comes to nothing. -/
theorem flatMap_erase (h : ∀ v, f (.text key, v) = []) : (erase entries key).flatMap f = entries.flatMap f := by
  induction entries with
  | nil => rfl
  | cons e rest ih =>
    obtain ⟨k, v⟩ := e
    by_cases hk : k = .text key
    · rw [hk, erase, List.filter_cons_of_neg (by simp), List.flatMap_cons, h, List.nil_append]
      exact ih
    · rw [erase, List.filter_cons_of_pos (by simp [hk]), List.flatMap_cons, List.flatMap_cons]
      exact congrArg _ ih

theorem flatMap_concat (h : ∀ v, f (.text key, v) = []) :
    (entries ++ [(Scalar.text key, v)]).flatMap f = entries.flatMap f := by
  rw [List.flatMap_append, List.flatMap_singleton, h, List.append_nil]

/-- Setting a key that comes to nothing. -/
theorem flatMap_put (h : ∀ v, f (.text key, v) = []) : (put entries key v).flatMap f = entries.flatMap f := by
  unfold put
  split
  · rw [List.flatMap_map, List.flatMap_def, List.flatMap_def]
    refine congrArg List.flatten (List.map_congr_left fun e _ => ?_)
    split
    · rename_i hk
      obtain ⟨k, w⟩ := e
      obtain rfl : k = .text key := beq_iff_eq.mp hk
      rw [h, h]
    · rfl
  · exact flatMap_concat h

theorem flatMap_putNew (h : ∀ v, f (.text key, v) = []) :
    (putNew entries key v).flatMap f = entries.flatMap f := by
  unfold putNew
  split
  · rfl
  · exact flatMap_concat h

end FlatMap

end ContractSync.Document.Entries
