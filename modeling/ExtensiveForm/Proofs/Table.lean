import Mathlib.Data.List.Induction
import ExtensiveForm.Value.Table
import ExtensiveForm.Proofs.Equality
import ExtensiveForm.Proofs.Faults

/-!
# Laws of tables

What a table holds for a key depends on the key only up to matching (`find?_congr`), and an entry
that is put into a table changes what it holds for the keys that match (`find?_insert`). So a table
made of a list of entries holds for each key the last one whose key matches, `find?_ofList`, and no
two of its keys match, `distinct_ofList`.

Whether a value can be a key depends on it only up to matching, too (`Value.isHashable_congr`), so
all that matches a key of a table is looked up in it without failing.
-/

namespace ExtensiveForm

namespace Form

theorem allHashable_iff {fs : List Form} :
    allHashable fs = true ↔ ∀ f ∈ fs, f.isHashable = true := by
  induction fs with
  | nil => simp [allHashable]
  | cons f fs ih => simp [allHashable, ih]

mutual

theorem isHashable_congr : ∀ {f g : Form}, f.alike g = true → f.isHashable = g.isHashable
  | .leaf _, .leaf _, _ => rfl
  | .group k ps, .group l qs, h => by
      simp only [alike, Bool.and_eq_true, decide_eq_true_eq] at h
      rw [isHashable, isHashable, h.1, allHashable_congr h.2]
  | .leaf _, .group _ _, h => by simp [alike] at h
  | .group _ _, .leaf _, h => by simp [alike] at h

theorem allHashable_congr :
    ∀ {fs gs : List Form}, allAlike fs gs = true → allHashable fs = allHashable gs
  | [], [], _ => rfl
  | f :: fs, g :: gs, h => by
      simp only [allAlike, Bool.and_eq_true] at h
      rw [allHashable, allHashable, isHashable_congr h.1, allHashable_congr h.2]
  | [], _ :: _, h => by simp [allAlike] at h
  | _ :: _, [], h => by simp [allAlike] at h

end

end Form

namespace Value

variable {v w : Value} {vs : List Value}

theorem isHashable_congr (h : v.alike w = true) : v.isHashable = w.isHashable :=
  Form.isHashable_congr h

/-- The values can be members of keys. -/
def AreHashable (vs : List Value) : Prop :=
  ∀ v ∈ vs, v.isHashable = true

instance (vs : List Value) : Decidable (AreHashable vs) :=
  inferInstanceAs (Decidable (∀ v ∈ vs, v.isHashable = true))

/-- A tuple can be a key when all its members can. -/
theorem isHashable_tuple : (tuple vs).isHashable = true ↔ AreHashable vs := by
  have hforms : (tuple vs).isHashable = Form.allHashable (forms vs) := Bool.true_and _
  rw [hforms, Form.allHashable_iff, forms_eq_map, List.forall_mem_map]
  rfl

theorem asKey_eq (h : v.isHashable = true) : v.asKey = .ok v :=
  if_pos h

theorem isHashable_pair :
    (tuple [v, w]).isHashable = true ↔ v.isHashable = true ∧ w.isHashable = true := by
  rw [isHashable_tuple, AreHashable, List.forall_mem_cons, List.forall_mem_singleton]

/-- Whatever makes a key of the value does not hold if it is none. -/
theorem asKey_fails {P : Prop} (hkey : P → v.isHashable = true) :
    FailsWith (fun e => e = .wrongType ∧ ¬ P) v.asKey := by
  unfold asKey
  split
  · exact .ok v
  · rename_i hnot
    exact .error ⟨rfl, fun h => hnot (hkey h)⟩

theorem asKey_eq_ok_iff : v.asKey = .ok w ↔ v.isHashable = true ∧ w = v := by
  unfold asKey
  split
  · rename_i h
    exact ⟨fun heq => ⟨h, (Except.ok.inj heq).symm⟩, fun heq => congrArg _ heq.2.symm⟩
  · rename_i h
    exact ⟨nofun, fun heq => absurd heq.1 h⟩

/-- Values that all can be keys are passed on as they are. -/
theorem mapM_asKey_eq_ok_iff {ws : List Value} :
    vs.mapM asKey = .ok ws ↔ AreHashable vs ∧ ws = vs := by
  rw [mapM_eq_ok_iff]
  constructor
  · intro h
    induction h with
    | nil => exact ⟨fun v hv => absurd hv List.not_mem_nil, rfl⟩
    | cons hhead _ ih =>
        obtain ⟨hkey, rfl⟩ := asKey_eq_ok_iff.1 hhead
        exact ⟨List.forall_mem_cons.2 ⟨hkey, ih.1⟩, congrArg _ ih.2⟩
  · rintro ⟨h, rfl⟩
    exact List.forall₂_same.2 fun v hv => asKey_eq (h v hv)

end Value

namespace Table

variable {β γ : Type} {t : Table β} {key key' k : Value} {entry : β} {entries : List (Value × β)}

/-- The last of some entries whose key matches. -/
def last? (entries : List (Value × β)) (key : Value) : Option β :=
  (entries.reverse.find? fun e => e.1.alike key).map (·.2)

/-- No two keys of the table match. -/
def Distinct (t : Table β) : Prop :=
  t.entries.Pairwise fun a b => a.1.alike b.1 = false

/-- Keys that match are matched by the same keys. -/
theorem alike_congr (h : key.alike key' = true) : k.alike key = k.alike key' := by
  rw [Bool.eq_iff_iff]
  constructor
  · intro hkey
    exact Value.alike_trans hkey h
  · intro hkey
    exact Value.alike_trans hkey (Value.alike_symm h)

theorem find?_congr (h : key.alike key' = true) : t.find? key = t.find? key' := by
  simp only [find?, alike_congr h]

/-- What can be a key is looked up without failing. -/
theorem lookUp_eq (h : key.isHashable = true) : t.lookUp key = .ok (t.find? key) := by
  rw [lookUp, Value.asKey_eq h]
  rfl

theorem find?_map (f : β → γ) : (t.map f).find? key = (t.find? key).map f := by
  simp only [find?, map, List.find?_map, Option.map_map]
  rfl

theorem mem_of_find? (h : t.find? key = some entry) : ∃ k, (k, entry) ∈ t.entries := by
  obtain ⟨⟨k, _⟩, hfind, rfl⟩ := Option.map_eq_some_iff.1 h
  exact ⟨k, List.mem_of_find?_eq_some hfind⟩

/-- An entry is found for the keys that match its own one, and nothing changes for the others. -/
theorem find?_insert :
    (t.insert k entry).find? key = if k.alike key then some entry else t.find? key := by
  obtain ⟨entries⟩ := t
  simp only [find?, insert]
  induction entries with
  | nil =>
      rw [insertEntry, List.find?_cons]
      cases k.alike key <;> rfl
  | cons e entries ih =>
      obtain ⟨k', e⟩ := e
      by_cases hkeys : k'.alike k = true
      · -- The entry is replaced here, and the keys that match are the same as before.
        have hsame : k'.alike key = k.alike key := by
          rw [Bool.eq_iff_iff]
          constructor
          · intro h
            exact Value.alike_trans (Value.alike_symm hkeys) h
          · intro h
            exact Value.alike_trans hkeys h
        rw [insertEntry, if_pos hkeys, List.find?_cons, List.find?_cons, hsame]
        cases k.alike key <;> rfl
      · rw [insertEntry, if_neg hkeys, List.find?_cons, List.find?_cons]
        cases hkey : k'.alike key with
        | true =>
            have hother : ¬ k.alike key = true := by
              intro h
              exact hkeys (Value.alike_trans hkey (Value.alike_symm h))
            rw [if_neg hother]
        | false => exact ih

theorem last?_concat :
    last? (entries ++ [(k, entry)]) key =
      if k.alike key then some entry else last? entries key := by
  rw [last?, List.reverse_append, List.reverse_singleton, List.singleton_append, List.find?_cons]
  cases k.alike key <;> rfl

theorem ofList_concat : ofList (entries ++ [(k, entry)]) = (ofList entries).insert k entry := by
  rw [ofList, List.foldl_append]
  rfl

/-- Of entries whose keys match, a table made of them holds the last one. -/
theorem find?_ofList (entries : List (Value × β)) (key : Value) :
    (ofList entries).find? key = last? entries key := by
  induction entries using List.reverseRecOn with
  | nil => rfl
  | append_singleton entries e ih => rw [ofList_concat, find?_insert, last?_concat, ih]

theorem last?_eq_some_iff :
    last? entries key = some entry ↔ ∃ before k after, entries = before ++ (k, entry) :: after ∧
      k.alike key = true ∧ ∀ later ∈ after, later.1.alike key = false := by
  simp only [last?, Option.map_eq_some_iff, List.find?_eq_some_iff_append, Prod.exists]
  constructor
  · rintro ⟨k, _, ⟨hkey, after, before, hsplit, hafter⟩, rfl⟩
    refine ⟨before.reverse, k, after.reverse, ?_, hkey, fun later hlater => ?_⟩
    · simpa using congrArg List.reverse hsplit
    · simpa using hafter later (List.mem_reverse.1 hlater)
  · rintro ⟨before, k, after, rfl, hkey, hafter⟩
    refine ⟨k, entry, ⟨hkey, after.reverse, before.reverse, by simp, fun later hlater => ?_⟩, rfl⟩
    simpa using hafter later (List.mem_reverse.1 hlater)

theorem last?_eq_none_iff :
    last? entries key = none ↔ ∀ e ∈ entries, e.1.alike key = false := by
  simp [last?]

/-- Where every key has what there is for it, any key that matches one of them has that too. -/
theorem last?_map_eq_some {keys : List Value} {f : Value → β}
    (hkey : ∃ k ∈ keys, k.alike key = true) (hf : ∀ k, k.alike key = true → f k = f key) :
    last? (keys.map fun k => (k, f k)) key = some (f key) := by
  cases hlast : last? (keys.map fun k => (k, f k)) key with
  | none =>
      obtain ⟨k, hk, halike⟩ := hkey
      have hother := last?_eq_none_iff.1 hlast (k, f k) (List.mem_map_of_mem hk)
      rw [halike] at hother
      cases hother
  | some entry =>
      obtain ⟨before, k, after, hsplit, halike, -⟩ := last?_eq_some_iff.1 hlast
      have hmem : (k, entry) ∈ keys.map fun k => (k, f k) := by simp [hsplit]
      obtain ⟨_, -, heq⟩ := List.mem_map.1 hmem
      cases heq
      rw [hf k halike]

/-! ### Keys of a table -/

theorem mem_insertEntry {e : Value × β} (h : e ∈ insertEntry k entry entries) :
    (e.1 = k ∨ e.1 ∈ entries.map (·.1)) ∧ (e.2 = entry ∨ e.2 ∈ entries.map (·.2)) := by
  induction entries with
  | nil =>
      rw [List.mem_singleton.1 h]
      exact ⟨.inl rfl, .inl rfl⟩
  | cons e' entries ih =>
      obtain ⟨k', entry'⟩ := e'
      rw [insertEntry] at h
      split at h <;> rcases List.mem_cons.1 h with rfl | h
      · simp
      · exact ⟨.inr (by simp [List.mem_map_of_mem h]), .inr (by simp [List.mem_map_of_mem h])⟩
      · simp
      · obtain ⟨hkey, hentry⟩ := ih h
        exact ⟨hkey.imp_right (List.mem_cons_of_mem _), hentry.imp_right (List.mem_cons_of_mem _)⟩

/-- Whatever a table made of some entries holds is one of them. -/
theorem mem_of_mem_ofList {e : Value × β} (h : e ∈ (ofList entries).entries) :
    e.1 ∈ entries.map (·.1) ∧ e.2 ∈ entries.map (·.2) := by
  induction entries using List.reverseRecOn generalizing e with
  | nil => cases h
  | append_singleton entries e' ih =>
      rw [ofList_concat] at h
      obtain ⟨hkey, hentry⟩ := mem_insertEntry h
      constructor
      · rcases hkey with hkey | hkey
        · simp [hkey]
        · obtain ⟨e'', he'', hkey⟩ := List.mem_map.1 hkey
          rw [List.map_append, ← hkey]
          exact List.mem_append_left _ (ih he'').1
      · rcases hentry with hentry | hentry
        · simp [hentry]
        · obtain ⟨e'', he'', hentry⟩ := List.mem_map.1 hentry
          rw [List.map_append, ← hentry]
          exact List.mem_append_left _ (ih he'').2

theorem Distinct.insert (h : t.Distinct) : (t.insert k entry).Distinct := by
  obtain ⟨entries⟩ := t
  simp only [Distinct, Table.insert] at h ⊢
  induction entries with
  | nil => exact List.pairwise_singleton _ _
  | cons e entries ih =>
      obtain ⟨k', e⟩ := e
      rw [List.pairwise_cons] at h
      rw [insertEntry]
      split
      · exact List.pairwise_cons.2 h
      · rename_i hkeys
        refine List.pairwise_cons.2 ⟨fun e' he' => ?_, ih h.2⟩
        rcases (mem_insertEntry he').1 with hkey | hkey
        · rw [hkey]
          exact Bool.eq_false_iff.2 hkeys
        · obtain ⟨e'', he'', hkey⟩ := List.mem_map.1 hkey
          rw [← hkey]
          exact h.1 e'' he''

theorem distinct_ofList (entries : List (Value × β)) : (ofList entries).Distinct := by
  induction entries using List.reverseRecOn with
  | nil => exact List.Pairwise.nil
  | append_singleton entries e ih =>
      rw [ofList_concat]
      exact ih.insert

/-- Where no two keys match, whatever entry has a matching key is found. -/
theorem Distinct.find?_eq_some_iff (h : t.Distinct) :
    t.find? key = some entry ↔ ∃ k, (k, entry) ∈ t.entries ∧ k.alike key = true := by
  obtain ⟨entries⟩ := t
  simp only [find?, Distinct] at h ⊢
  induction entries with
  | nil => simp
  | cons e entries ih =>
      obtain ⟨k', e⟩ := e
      rw [List.pairwise_cons] at h
      rw [List.find?_cons]
      cases hkey : k'.alike key with
      | true =>
          constructor
          · intro heq
            cases heq
            exact ⟨k', List.mem_cons_self .., hkey⟩
          · rintro ⟨k, hmem, hk⟩
            rcases List.mem_cons.1 hmem with heq | hmem
            · cases heq
              rfl
            · have hmatch := Value.alike_trans hkey (Value.alike_symm hk)
              rw [h.1 _ hmem] at hmatch
              cases hmatch
      | false =>
          rw [ih h.2]
          constructor
          · rintro ⟨k, hmem, hk⟩
            exact ⟨k, List.mem_cons_of_mem _ hmem, hk⟩
          · rintro ⟨k, hmem, hk⟩
            rcases List.mem_cons.1 hmem with heq | hmem
            · cases heq
              rw [hkey] at hk
              cases hk
            · exact ⟨k, hmem, hk⟩

end Table

end ExtensiveForm
