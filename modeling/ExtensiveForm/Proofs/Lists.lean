import Mathlib.Data.List.Forall2
import ExtensiveForm.Fault

/-!
# Lists that match place by place

Two lists that are related place by place have, for each member of the one, a related member of the
other. A check that each member of a list has to pass is passed by all of them together or by none.
-/

namespace ExtensiveForm

variable {α β γ δ : Type} {P : α → β → Prop} {Q : γ → δ → Prop} {as : List α} {bs : List β}

theorem exists_of_mem_left (h : List.Forall₂ P as bs) {a : α} (ha : a ∈ as) : ∃ b ∈ bs, P a b := by
  induction h with
  | nil => cases ha
  | @cons a' b as bs hhead _ ih =>
      rcases List.mem_cons.1 ha with rfl | ha
      · exact ⟨b, List.mem_cons_self .., hhead⟩
      · obtain ⟨b', hb', hrelated⟩ := ih ha
        exact ⟨b', List.mem_cons_of_mem _ hb', hrelated⟩

theorem exists_of_mem_right (h : List.Forall₂ P as bs) {b : β} (hb : b ∈ bs) : ∃ a ∈ as, P a b :=
  exists_of_mem_left (P := fun b a => P a b) h.flip hb

/-- Where each member of a list is related to something, the list is related to a list. -/
theorem exists_forall₂ (h : ∀ a ∈ as, ∃ b, P a b) : ∃ bs, List.Forall₂ P as bs := by
  induction as with
  | nil => exact ⟨[], .nil⟩
  | cons a as ih =>
      rw [List.forall_mem_cons] at h
      obtain ⟨b, hb⟩ := h.1
      obtain ⟨bs, hbs⟩ := ih h.2
      exact ⟨b :: bs, .cons hb hbs⟩

/-- What relates two lists may be told of the members of the second one. -/
theorem forall₂_mem (h : List.Forall₂ P as bs) :
    List.Forall₂ (fun a b => P a b ∧ b ∈ bs) as bs := by
  induction h with
  | nil => exact .nil
  | cons hhead _ ih =>
      exact .cons ⟨hhead, List.mem_cons_self ..⟩
        (ih.imp fun _ _ h => ⟨h.1, List.mem_cons_of_mem _ h.2⟩)

/-- Lists are related in two ways when their members are, place by place. -/
theorem forall₂_and {P' : α → β → Prop} :
    List.Forall₂ (fun a b => P a b ∧ P' a b) as bs ↔
      List.Forall₂ P as bs ∧ List.Forall₂ P' as bs := by
  constructor
  · intro h
    exact ⟨h.imp fun _ _ => And.left, h.imp fun _ _ => And.right⟩
  · rintro ⟨h, h'⟩
    induction h with
    | nil => exact .nil
    | cons hhead _ ih =>
        rw [List.forall₂_cons] at h'
        exact .cons ⟨hhead, h'.1⟩ (ih h'.2)

/-- Of three lists, the first and the third one are related through the second one. -/
theorem forall₂_trans {cs : List γ} {R : β → γ → Prop} {S : α → γ → Prop}
    (h : List.Forall₂ P as bs) (h' : List.Forall₂ R bs cs)
    (hS : ∀ a b c, P a b → R b c → S a c) : List.Forall₂ S as cs := by
  induction h generalizing cs with
  | nil =>
      cases h'
      exact .nil
  | cons hhead _ ih =>
      cases h' with
      | cons hhead' htail' => exact .cons (hS _ _ _ hhead hhead') (ih htail')

/-- Of lists that are related through what is between their members, place by place, there is a list
between them. -/
theorem forall₂_comp_iff {cs : List γ} {R : β → γ → Prop} :
    (∃ bs, List.Forall₂ P as bs ∧ List.Forall₂ R bs cs) ↔
      List.Forall₂ (fun a c => ∃ b, P a b ∧ R b c) as cs := by
  constructor
  · rintro ⟨bs, hleft, hright⟩
    exact forall₂_trans hleft hright fun _ b _ ha hc => ⟨b, ha, hc⟩
  · intro h
    induction h with
    | nil => exact ⟨[], .nil, .nil⟩
    | cons hhead _ ih =>
        obtain ⟨b, ha, hc⟩ := hhead
        obtain ⟨bs, hleft, hright⟩ := ih
        exact ⟨b :: bs, .cons ha hleft, .cons hc hright⟩

theorem forall₂_zip {cs : List γ} {ds : List δ} (h : List.Forall₂ P as bs)
    (h' : List.Forall₂ Q cs ds) :
    List.Forall₂ (fun a b => P a.1 b.1 ∧ Q a.2 b.2) (as.zip cs) (bs.zip ds) := by
  induction h generalizing cs ds with
  | nil => exact .nil
  | cons hhead _ ih =>
      cases h' with
      | nil => exact .nil
      | cons hhead' htail' => exact .cons ⟨hhead, hhead'⟩ (ih htail')

/-- What is at a place of the one list is related to what is there in the other one. -/
theorem forall₂_getElem? (h : List.Forall₂ P as bs) (place : Nat) :
    Option.Rel P as[place]? bs[place]? := by
  induction h generalizing place with
  | nil => exact .none
  | cons hhead _ ih =>
      cases place with
      | zero => exact .some hhead
      | succ place =>
          rw [List.getElem?_cons_succ, List.getElem?_cons_succ]
          exact ih place

/-- A list is related to the numbers from zero on when what is at each place is related to the
number of the place. -/
theorem forall₂_range_iff {P : Nat → β → Prop} {count : Nat} :
    List.Forall₂ P (List.range count) bs ↔
      bs.length = count ∧ ∀ place b, bs[place]? = some b → P place b := by
  constructor
  · intro h
    refine ⟨by rw [← h.length_eq, List.length_range], fun place b hb => ?_⟩
    have hplace := forall₂_getElem? h place
    rw [hb] at hplace
    cases hrange : (List.range count)[place]? with
    | none =>
        rw [hrange] at hplace
        cases hplace
    | some place' =>
        obtain ⟨hlt, heq⟩ := List.getElem?_eq_some_iff.1 hrange
        rw [List.getElem_range] at heq
        subst heq
        rw [hrange] at hplace
        cases hplace
        assumption
  · rintro ⟨rfl, h⟩
    refine List.forall₂_iff_get.2 ⟨List.length_range, fun place hrange hplace => ?_⟩
    rw [List.get_eq_getElem, List.getElem_range]
    exact h place _ (List.getElem?_eq_getElem hplace)

/-- A list as long as so many lists of one length is made up of such lists. -/
theorem exists_flatten (size : Nat) (count : Nat) (h : as.length = size * count) :
    ∃ parts : List (List α), parts.length = count ∧ (∀ part ∈ parts, part.length = size) ∧
      parts.flatten = as := by
  induction count generalizing as with
  | zero =>
      obtain rfl := List.eq_nil_of_length_eq_zero h
      exact ⟨[], rfl, nofun, rfl⟩
  | succ count ih =>
      have hfirst : (as.take size).length = size := by
        rw [List.length_take, h, Nat.mul_succ]
        omega
      have hrest : (as.drop size).length = size * count := by
        rw [List.length_drop, h, Nat.mul_succ]
        omega
      obtain ⟨parts, hlength, hparts, hflatten⟩ := ih hrest
      refine ⟨as.take size :: parts, congrArg (· + 1) hlength,
        List.forall_mem_cons.2 ⟨hfirst, hparts⟩, ?_⟩
      rw [List.flatten_cons, hflatten, List.take_append_drop]

/-- What one of different members stands for is found once. -/
theorem flatMap_ite_eq [DecidableEq α] {a : α} (hnodup : as.Nodup) (ha : a ∈ as) (bs : List β) :
    (as.flatMap fun b => if b = a then bs else []) = bs := by
  induction as with
  | nil => cases ha
  | cons b as ih =>
      rw [List.nodup_cons] at hnodup
      rw [List.flatMap_cons]
      by_cases hb : b = a
      · subst hb
        have hrest : (as.flatMap fun c => if c = b then bs else []) = [] :=
          List.flatMap_eq_nil_iff.2 fun c hc => if_neg (ne_of_mem_of_not_mem hc hnodup.1)
        rw [if_pos rfl, hrest, List.append_nil]
      · have hrest := (List.mem_cons.1 ha).resolve_left (Ne.symm hb)
        rw [if_neg hb, List.nil_append, ih hnodup.2 hrest]

/-- Runs of different members hold each of these members, in their order. -/
theorem eraseDups_flatMap_replicate [BEq α] [LawfulBEq α] {count : α → Nat} (hnodup : as.Nodup)
    (hcount : ∀ a ∈ as, count a ≠ 0) :
    (as.flatMap fun a => List.replicate (count a) a).eraseDups = as := by
  induction as with
  | nil => rfl
  | cons a as ih =>
      rw [List.nodup_cons] at hnodup
      rw [List.forall_mem_cons] at hcount
      obtain ⟨more, hmore⟩ := Nat.exists_eq_succ_of_ne_zero hcount.1
      have hrest : (as.flatMap fun b => List.replicate (count b) b).filter (fun b => !b == a) =
          as.flatMap fun b => List.replicate (count b) b := by
        refine List.filter_eq_self.2 fun b hb => ?_
        obtain ⟨c, hc, hbc⟩ := List.mem_flatMap.1 hb
        rw [List.eq_of_mem_replicate hbc, Bool.not_eq_true', beq_eq_false_iff_ne]
        rintro rfl
        exact hnodup.1 hc
      rw [List.flatMap_cons, hmore, List.replicate_succ, List.cons_append, List.eraseDups_cons,
        List.filter_append, hrest, List.filter_replicate]
      simp [ih hnodup.2 hcount.2]

/-- Things with keys of their own are in strict order once they are sorted. -/
theorem pairwise_mergeSort_of_nodup {le : α → α → Bool} {lt : α → α → Prop} {key : α → β}
    (htrans : ∀ a b c, le a b = true → le b c = true → le a c = true)
    (htotal : ∀ a b, (le a b || le b a) = true)
    (hstrict : ∀ a b, le a b = true → key a ≠ key b → lt a b) (hnodup : (as.map key).Nodup) :
    (as.mergeSort le).Pairwise lt := by
  have hkeys : ((as.mergeSort le).map key).Nodup :=
    ((List.mergeSort_perm as le).map key).nodup_iff.2 hnodup
  exact (List.pairwise_mergeSort htrans htotal as).imp₂ hstrict (List.pairwise_map.1 hkeys)

/-- The checks of some things are passed when that of each is passed. -/
theorem forM_eq_ok {f : α → Except Fault Unit} : as.forM f = .ok () ↔ ∀ a ∈ as, f a = .ok () := by
  induction as with
  | nil => exact ⟨fun _ a ha => absurd ha List.not_mem_nil, fun _ => rfl⟩
  | cons a as ih =>
      rw [List.forM, List.forall_mem_cons, ← ih]
      cases ha : f a with
      | ok _ => exact ⟨fun h => ⟨rfl, h⟩, And.right⟩
      | error e =>
          constructor
          · intro h
            cases h
          · intro h
            cases h.1

/-- A loop of checks comes to its end when each of the members passes. -/
theorem forIn_eq_ok {f : α → PUnit → Except Fault (ForInStep PUnit)} {Q : α → Prop}
    (hcheck : ∀ a s, f a .unit = .ok s ↔ Q a ∧ s = .yield .unit) {u : PUnit} :
    forIn as PUnit.unit f = .ok u ↔ ∀ a ∈ as, Q a := by
  induction as with
  | nil => exact ⟨fun _ a ha => absurd ha List.not_mem_nil, fun _ => rfl⟩
  | cons a as ih =>
      rw [List.forIn_cons, List.forall_mem_cons, ← ih]
      cases ha : f a .unit with
      | error e =>
          refine ⟨nofun, fun h => ?_⟩
          rw [(hcheck a _).2 ⟨h.1, rfl⟩] at ha
          cases ha
      | ok s =>
          obtain ⟨hQ, rfl⟩ := (hcheck a s).1 ha
          exact ⟨fun h => ⟨hQ, h⟩, And.right⟩

/-- What is computed of a list is computed of each of its members. -/
theorem mapM_eq_ok_iff {f : α → Except Fault β} :
    as.mapM f = .ok bs ↔ List.Forall₂ (fun a b => f a = .ok b) as bs := by
  constructor
  · intro h
    induction as generalizing bs with
    | nil =>
        cases h
        exact .nil
    | cons a as ih =>
        rw [List.mapM_cons] at h
        cases ha : f a <;> cases has : as.mapM f <;> rw [ha, has] at h <;> cases h
        exact .cons ha (ih has)
  · intro h
    induction h with
    | nil => rfl
    | cons hhead _ ih =>
        rw [List.mapM_cons, hhead, ih]
        rfl

/-- What may be missing is there for all members of a list if it is there for each of them. -/
theorem mapM_eq_some_iff {f : α → Option β} :
    as.mapM f = some bs ↔ List.Forall₂ (fun a b => f a = some b) as bs := by
  induction as generalizing bs with
  | nil => simp [List.mapM_nil, eq_comm]
  | cons a as ih =>
      rw [List.mapM_cons, List.forall₂_cons_left_iff]
      constructor
      · intro h
        obtain ⟨b, hb, h⟩ := Option.bind_eq_some_iff.1 h
        obtain ⟨rest, hrest, h⟩ := Option.bind_eq_some_iff.1 h
        cases h
        exact ⟨b, rest, hb, ih.1 hrest, rfl⟩
      · rintro ⟨b, rest, hb, hrest, rfl⟩
        rw [hb, ih.2 hrest]
        rfl

theorem mapM_eq_map {f : α → Except Fault β} {g : α → β} (h : ∀ a ∈ as, f a = .ok (g a)) :
    as.mapM f = .ok (as.map g) :=
  mapM_eq_ok_iff.2 (List.forall₂_map_right_iff.2 (List.forall₂_same.2 h))

/-- Loops are the same when their steps are the same at each member of the list. -/
theorem foldlM_congr {f g : β → α → Except Fault β} (h : ∀ b, ∀ a ∈ as, f b a = g b a) {b : β} :
    as.foldlM f b = as.foldlM g b := by
  induction as generalizing b with
  | nil => rfl
  | cons a as ih =>
      rw [List.foldlM_cons, List.foldlM_cons, h b a (List.mem_cons_self ..)]
      exact bind_congr fun _ => ih fun b a ha => h b a (List.mem_cons_of_mem _ ha)

/-- What is computed of the members of a list is the same when it is for each of them. -/
theorem mapM_congr {f g : α → Except Fault β} (h : ∀ a ∈ as, f a = g a) :
    as.mapM f = as.mapM g := by
  induction as with
  | nil => rfl
  | cons a as ih =>
      rw [List.forall_mem_cons] at h
      rw [List.mapM_cons, List.mapM_cons, h.1, ih h.2]

/-- A loop in which no step has a fault is the loop of what the steps come to. -/
theorem foldlM_eq_foldl {f : β → α → Except Fault β} {g : β → α → β}
    (h : ∀ b, ∀ a ∈ as, f b a = .ok (g b a)) {b : β} : as.foldlM f b = .ok (as.foldl g b) := by
  induction as generalizing b with
  | nil => rfl
  | cons a as ih =>
      rw [List.foldlM_cons, h b a (List.mem_cons_self ..)]
      exact ih fun b a ha => h b a (List.mem_cons_of_mem _ ha)

/-- A loop gives a result only if each of its steps does. -/
theorem forall_of_foldlM_eq_ok {f : β → α → Except Fault β} {b b' : β}
    (h : as.foldlM f b = .ok b') : ∀ a ∈ as, ∃ b b', f b a = .ok b' := by
  induction as generalizing b with
  | nil => exact fun a ha => absurd ha List.not_mem_nil
  | cons a as ih =>
      rw [List.foldlM_cons] at h
      cases hfirst : f b a with
      | error e =>
          rw [hfirst] at h
          cases h
      | ok b₁ =>
          rw [hfirst] at h
          exact List.forall_mem_cons.2 ⟨⟨b, b₁, hfirst⟩, ih h⟩

/-- Checks that are passed by the members of a list are passed by those of one that is related to
it. -/
theorem forM_of_forall₂ (h : List.Forall₂ P as bs) {f : α → Except Fault Unit}
    {g : β → Except Fault Unit} (hfg : ∀ a b, P a b → f a = .ok () → g b = .ok ())
    (hf : as.forM f = .ok ()) : bs.forM g = .ok () := by
  rw [forM_eq_ok] at hf ⊢
  intro b hb
  obtain ⟨a, ha, hab⟩ := exists_of_mem_right h hb
  exact hfg a b hab (hf a ha)

end ExtensiveForm
