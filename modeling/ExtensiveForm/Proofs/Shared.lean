import Mathlib.Data.List.Forall2
import ExtensiveForm.Proofs.Equality
import ExtensiveForm.Record.History
import ExtensiveForm.Record.Shared

/-!
# Records that share a list are lists of their own

`Store.Holds` is what is true of every view at all times: its list begins with the members of the
view, and the view knows how many they are. Making a record and adding to one keep this for all
views there are, `Holds.append` and `Holds.make`, since a list is changed only beyond its end. So
whatever is asked of a view is answered from its own members, `Holds.reads`, and
`shared_views_are_lists` says this of all views that any changes make, at all later times.

Transcripts and histories are kept as lists of their own in this library. `transcripts_are_views`
and `histories_are_views` say that sharing lists would make no difference to them.
-/

namespace ExtensiveForm

namespace Store

variable {α : Type} {s : Store α} {v w : View} {xs ys : List α}

/-- The list of a view begins with these members, and they are as many as the view is long. -/
def Holds (s : Store α) (v : View) (xs : List α) : Prop :=
  v.length = xs.length ∧ ∃ beyond, s.lists[v.list]? = some (xs ++ beyond)

/-- Everything that is asked of a view is answered as it is for a list of these members. -/
structure Reads (s : Store α) (v : View) (xs : List α) : Prop where
  length : v.length = xs.length
  read? (place : Nat) : s.read? v place = xs[place]?
  items : s.items v = xs
  reversed : s.reversed v = xs.reverse
  member (place : Int) : s.member v place = (atPlace? xs place).elim (.error .indexOutOfRange) .ok
  member_outside (place : Int) : s.member v place = .error .indexOutOfRange ↔
    ¬ (-xs.length ≤ place ∧ place < xs.length)
  slice (start stop step : Option Int) :
    s.slice v start stop step = ExtensiveForm.slice xs start stop step
  last? : s.last? v = xs.getLast?

namespace Holds

theorem listOf (h : s.Holds v xs) : ∃ beyond, s.listOf v = xs ++ beyond := by
  obtain ⟨-, beyond, hlist⟩ := h
  exact ⟨beyond, by simp [Store.listOf, hlist]⟩

/-- A list that is as long as the view ends where the view ends. -/
theorem listOf_eq (h : s.Holds v xs) (hlength : (s.listOf v).length = v.length) :
    s.lists[v.list]? = some xs := by
  obtain ⟨hcount, beyond, hlist⟩ := h
  rw [Store.listOf, List.getD_eq_getElem?_getD, hlist] at hlength
  have hnil : beyond = [] := by
    simp only [Option.getD_some, List.length_append] at hlength
    exact List.eq_nil_of_length_eq_zero (by omega)
  rw [hlist, hnil, List.append_nil]

/-- What is beyond a view is never read. -/
theorem take_listOf (h : s.Holds v xs) : (s.listOf v).take v.length = xs := by
  obtain ⟨beyond, hlist⟩ := h.listOf
  rw [hlist, h.1, List.take_left]

/-- A new list leaves the views of the other lists as they are. -/
theorem of_new (h : s.Holds v xs) (items : List α) :
    Holds ⟨s.lists ++ [items]⟩ v xs := by
  obtain ⟨hcount, beyond, hlist⟩ := h
  obtain ⟨hless, -⟩ := List.getElem?_eq_some_iff.1 hlist
  exact ⟨hcount, beyond, by rw [List.getElem?_append_left hless, hlist]⟩

/-- So does a longer list, also for the other views of it. -/
theorem of_longer (h : s.Holds v xs) {list : Nat} (hlist : s.lists[list]? = some ys)
    (more : List α) : Holds ⟨s.lists.set list (ys ++ more)⟩ v xs := by
  obtain ⟨hcount, beyond, hxs⟩ := h
  refine ⟨hcount, ?_⟩
  by_cases hsame : list = v.list
  · subst hsame
    obtain ⟨hless, -⟩ := List.getElem?_eq_some_iff.1 hxs
    rw [hxs] at hlist
    cases hlist
    exact ⟨beyond ++ more, by rw [List.getElem?_set_self hless, List.append_assoc]⟩
  · exact ⟨beyond, by rw [List.getElem?_set_ne hsame, hxs]⟩

/-- Making a record keeps what all views hold. -/
theorem make (h : s.Holds v xs) (items : List α) : (s.make items).2.Holds v xs :=
  h.of_new items

end Holds

/-- A list that ends where the view ends is made longer. -/
theorem append_at_end (h : s.Holds v xs) (hend : (s.listOf v).length = v.length) (x : α) :
    s.append v x = (⟨v.list, v.length + 1⟩, ⟨s.lists.set v.list (xs ++ [x])⟩) := by
  have hxs : s.listOf v = xs := by simp [listOf, h.listOf_eq hend]
  unfold append
  rw [if_pos hend, hxs]

/-- The members of an older view are copied. -/
theorem append_copied (h : s.Holds v xs) (hend : (s.listOf v).length ≠ v.length) (x : α) :
    s.append v x = (⟨s.lists.length, v.length + 1⟩, ⟨s.lists ++ [xs ++ [x]]⟩) := by
  unfold append
  rw [if_neg hend, h.take_listOf]

/-- Adding to a record keeps what all views hold, also those that share its list. -/
theorem Holds.append (h : s.Holds v xs) (hw : s.Holds w ys) (x : α) :
    (s.append w x).2.Holds v xs := by
  by_cases hend : (s.listOf w).length = w.length
  · rw [append_at_end hw hend]
    exact h.of_longer (hw.listOf_eq hend) [x]
  · rw [append_copied hw hend]
    exact h.of_new _

/-- The list that was made last belongs to a view of all its members. -/
theorem holds_last (s : Store α) (items : List α) :
    Holds ⟨s.lists ++ [items]⟩ ⟨s.lists.length, items.length⟩ items :=
  ⟨rfl, [], by simp⟩

/-- The new view holds the members that it was made of. -/
theorem make_holds (s : Store α) (items : List α) :
    (s.make items).2.Holds (s.make items).1 items :=
  s.holds_last items

/-- The new view holds one member more. -/
theorem append_holds (h : s.Holds v xs) (x : α) :
    (s.append v x).2.Holds (s.append v x).1 (xs ++ [x]) := by
  have hcount : v.length + 1 = (xs ++ [x]).length := by simp [h.1]
  by_cases hend : (s.listOf v).length = v.length
  · obtain ⟨hless, -⟩ := List.getElem?_eq_some_iff.1 (h.listOf_eq hend)
    rw [append_at_end h hend]
    exact ⟨hcount, [], by rw [List.getElem?_set_self hless, List.append_nil]⟩
  · rw [append_copied h hend, hcount]
    exact s.holds_last _

theorem filterMap_range_getElem? (xs : List α) :
    (List.range xs.length).filterMap (xs[·]?) = xs := by
  induction xs with
  | nil => rfl
  | cons x xs ih =>
      rw [List.length_cons, List.range_succ_eq_map,
        List.filterMap_cons_some List.getElem?_cons_zero, List.filterMap_map]
      exact congrArg (x :: ·) ih

/-- A place in the list of all places is that place, counted from the beginning. -/
theorem atPlace?_range (n : Nat) (place : Int) :
    atPlace? (List.range n) place =
      if -n ≤ place ∧ place < n then
        some (if 0 ≤ place then place else n + place).toNat
      else none := by
  unfold atPlace?
  rw [List.length_range]
  by_cases hsign : 0 ≤ place
  · by_cases hless : place < n
    · rw [if_pos hsign, if_pos ⟨by omega, hless⟩, if_pos hsign, List.getElem?_range (by omega)]
    · rw [if_pos hsign, if_neg (by omega), List.getElem?_eq_none]
      rw [List.length_range]
      omega
  · by_cases hless : -place ≤ n
    · rw [if_neg hsign, if_pos hless, if_pos (by omega), if_neg hsign,
        List.getElem?_range (by omega)]
    · rw [if_neg hsign, if_neg hless, if_neg (by omega)]

namespace Holds

theorem read? (h : s.Holds v xs) (place : Nat) : s.read? v place = xs[place]? := by
  obtain ⟨beyond, hlist⟩ := h.listOf
  have hcount := h.1
  unfold Store.read?
  rw [hlist]
  by_cases hless : place < v.length
  · rw [if_pos hless, List.getElem?_append_left (by omega)]
  · rw [if_neg hless, List.getElem?_eq_none (by omega)]

theorem items (h : s.Holds v xs) : s.items v = xs := by
  have hread : s.read? v = (xs[·]?) := funext h.read?
  rw [Store.items, hread, h.1, filterMap_range_getElem?]

theorem reversed (h : s.Holds v xs) : s.reversed v = xs.reverse := by
  have hread : s.read? v = (xs[·]?) := funext h.read?
  rw [Store.reversed, hread, List.filterMap_reverse, h.1, filterMap_range_getElem?]

/-- The place is looked up among the places of the view, so members beyond it are not found. -/
theorem member (h : s.Holds v xs) (place : Int) :
    s.member v place = (atPlace? xs place).elim (.error .indexOutOfRange) .ok := by
  obtain ⟨beyond, hlist⟩ := h.listOf
  have hcount := h.1
  unfold Store.member
  congr 1
  rw [hlist, atPlace?_range, hcount, atPlace?]
  by_cases hsign : 0 ≤ place
  · by_cases hless : place < xs.length
    · rw [if_pos ⟨by omega, hless⟩, if_pos hsign, if_pos hsign, Option.bind_some,
        List.getElem?_append_left (by omega)]
    · rw [if_neg (by omega), if_pos hsign, List.getElem?_eq_none (by omega), Option.bind_none]
  · by_cases hless : -place ≤ xs.length
    · rw [if_pos (by omega), if_neg hsign, if_neg hsign, if_pos hless, Option.bind_some,
        List.getElem?_append_left (by omega)]
    · rw [if_neg (by omega), if_neg hsign, if_neg hless, Option.bind_none]

end Holds

/-- There is a member at every place inside of a list, and at no other. -/
theorem atPlace?_eq_none (xs : List α) (place : Int) :
    atPlace? xs place = none ↔ ¬ (-xs.length ≤ place ∧ place < xs.length) := by
  unfold atPlace?
  by_cases hsign : 0 ≤ place
  · rw [if_pos hsign, List.getElem?_eq_none_iff]
    omega
  · by_cases hless : -place ≤ xs.length
    · rw [if_neg hsign, if_pos hless, List.getElem?_eq_none_iff]
      omega
    · rw [if_neg hsign, if_neg hless]
      simp only [true_iff]
      omega

namespace Holds

theorem member_outside (h : s.Holds v xs) (place : Int) :
    s.member v place = .error .indexOutOfRange ↔ ¬ (-xs.length ≤ place ∧ place < xs.length) := by
  rw [h.member, ← atPlace?_eq_none]
  cases atPlace? xs place <;> simp

theorem last? (h : s.Holds v xs) : s.last? v = xs.getLast? := by
  obtain ⟨beyond, hlist⟩ := h.listOf
  have hcount := h.1
  unfold Store.last?
  rw [hlist, hcount, List.getLast?_eq_getElem?]
  by_cases hempty : xs.length = 0
  · rw [if_pos hempty, List.getElem?_eq_none (by omega)]
  · rw [if_neg hempty, List.getElem?_append_left (by omega)]

/-- A view reads as the members that it holds. -/
theorem reads (h : s.Holds v xs) : s.Reads v xs where
  length := h.1
  read? := h.read?
  items := h.items
  reversed := h.reversed
  member := h.member
  member_outside := h.member_outside
  slice start stop step := by rw [Store.slice, h.take_listOf]
  last? := h.last?

/-- Equally long views of one list hold the same. -/
theorem eq_of_list_eq (h : s.Holds v xs) (hw : s.Holds w ys) (hlist : v.list = w.list)
    (hlength : xs.length = ys.length) : xs = ys := by
  obtain ⟨-, beyond, hxs⟩ := h
  obtain ⟨-, beyond', hys⟩ := hw
  rw [hlist, hys, Option.some.injEq] at hxs
  exact (List.append_inj hxs.symm hlength).1

end Holds

/-- Lists of one length are equal when they are equal place by place. -/
theorem beq_eq_all_zip [BEq α] (hlength : xs.length = ys.length) :
    (xs == ys) = (xs.zip ys).all fun (a, b) => a == b := by
  induction xs generalizing ys with
  | nil =>
      cases ys with
      | nil => rfl
      | cons y ys => cases hlength
  | cons x xs ih =>
      cases ys with
      | nil => cases hlength
      | cons y ys => rw [List.cons_beq_cons, ih (Nat.succ.inj hlength), List.zip_cons_cons,
          List.all_cons]

/-- Lists of two lengths are never equal. -/
theorem beq_eq_false [BEq α] (hlength : xs.length ≠ ys.length) : (xs == ys) = false := by
  induction xs generalizing ys with
  | nil =>
      cases ys with
      | nil => exact absurd rfl hlength
      | cons y ys => rfl
  | cons x xs ih =>
      cases ys with
      | nil => rfl
      | cons y ys =>
          rw [List.cons_beq_cons, ih (fun h => hlength (congrArg (· + 1) h)), Bool.and_false]

/-- A list of members that equal themselves equals itself. -/
theorem beq_self [BEq α] (hself : ∀ x ∈ xs, (x == x) = true) : (xs == xs) = true := by
  induction xs with
  | nil => rfl
  | cons x xs ih =>
      rw [List.forall_mem_cons] at hself
      rw [List.cons_beq_cons, hself.1, ih hself.2, Bool.and_self]

/-- Views are equal when their members are. That views of one list are not compared makes no
difference if every member equals itself. -/
theorem Holds.equal [BEq α] (h : s.Holds v xs) (hw : s.Holds w ys)
    (hself : ∀ x ∈ xs, (x == x) = true) : s.equal v w = (xs == ys) := by
  rw [Store.equal, h.items, hw.items, h.1, hw.1]
  by_cases hlength : xs.length = ys.length
  · rw [beq_iff_eq.2 hlength, Bool.true_and]
    by_cases hlist : v.list = w.list
    · obtain rfl := h.eq_of_list_eq hw hlist hlength
      rw [beq_iff_eq.2 hlist, Bool.true_or, beq_self hself]
    · rw [beq_eq_false_iff_ne.2 hlist, Bool.false_or, beq_eq_all_zip hlength]
  · rw [beq_eq_false_iff_ne.2 hlength, Bool.false_and, beq_eq_false hlength]

end Store

namespace SharedRecords

variable {α : Type} {rs : SharedRecords α} {lists : List (List α)} {v : View} {xs : List α}

/-- The view that a change names holds the members of the list that it names. -/
theorem holds_of_getElem? (h : List.Forall₂ rs.store.Holds rs.views lists) {record : Nat} {w : View}
    (hw : rs.views[record]? = some w) : ∃ ys, lists[record]? = some ys ∧ rs.store.Holds w ys := by
  obtain ⟨hless, rfl⟩ := List.getElem?_eq_some_iff.1 hw
  have hlength := h.length_eq
  exact ⟨lists[record], List.getElem?_eq_getElem (by omega), h.get hless (by omega)⟩

theorem apply_add {record : Nat} {w : View} (hw : rs.views[record]? = some w) (x : α) :
    rs.apply (.add record x) = rs.push (rs.store.append w x) := by
  simp only [apply, hw]

/-- There is nothing to add to a record that was never made. -/
theorem apply_add_missing {record : Nat} (hw : rs.views[record]? = none) (x : α) :
    rs.apply (.add record x) = rs := by
  simp only [apply, hw]

/-- A change keeps what every view holds. -/
theorem apply_keeps (h : List.Forall₂ rs.store.Holds rs.views lists) (hv : rs.store.Holds v xs)
    (c : Change α) : (rs.apply c).store.Holds v xs := by
  cases c with
  | make items => exact hv.make items
  | add record x =>
      cases hw : rs.views[record]? with
      | none =>
          rw [apply_add_missing hw]
          exact hv
      | some w =>
          obtain ⟨ys, -, hys⟩ := holds_of_getElem? h hw
          rw [apply_add hw]
          exact hv.append hys x

/-- The views after a change hold the lists after it. -/
theorem apply_holds (h : List.Forall₂ rs.store.Holds rs.views lists) (c : Change α) :
    List.Forall₂ (rs.apply c).store.Holds (rs.apply c).views
      (c.apply id (fun xs x => xs ++ [x]) lists) := by
  have hkept : List.Forall₂ (rs.apply c).store.Holds rs.views lists :=
    h.imp fun v xs hv => apply_keeps h hv c
  cases c with
  | make items => exact List.rel_append hkept (.cons (rs.store.make_holds items) .nil)
  | add record x =>
      cases hw : rs.views[record]? with
      | none =>
          have hlength := h.length_eq
          have hless := List.getElem?_eq_none_iff.1 hw
          have hmissing : lists[record]? = none := List.getElem?_eq_none (by omega)
          simp only [apply_add_missing hw, Change.apply, hmissing]
          exact h
      | some w =>
          obtain ⟨ys, hys, hholds⟩ := holds_of_getElem? h hw
          rw [apply_add hw] at hkept ⊢
          simp only [Change.apply, hys]
          exact List.rel_append hkept (.cons (Store.append_holds hholds x) .nil)

/-- A change makes new views and leaves those that there are. -/
theorem views_apply (rs : SharedRecords α) (c : Change α) : rs.views <+: (rs.apply c).views := by
  cases c with
  | make items => exact List.prefix_append _ _
  | add record x =>
      cases hw : rs.views[record]? with
      | none =>
          rewrite [apply_add_missing hw]
          exact List.prefix_refl _
      | some w =>
          rw [apply_add hw]
          exact List.prefix_append _ _

/-- What the changes after some others keep: the views hold the lists, a view that held a list holds
it, and the views that there were are there. -/
theorem foldl_apply (changes : List (Change α))
    (h : List.Forall₂ rs.store.Holds rs.views lists) :
    let after := changes.foldl apply rs
    List.Forall₂ after.store.Holds after.views
        (changes.foldl (Change.apply id fun xs x => xs ++ [x]) lists) ∧
      (∀ v xs, rs.store.Holds v xs → after.store.Holds v xs) ∧ rs.views <+: after.views := by
  induction changes generalizing rs lists with
  | nil => exact ⟨h, fun v xs hv => hv, List.prefix_refl _⟩
  | cons c changes ih =>
      obtain ⟨hholds, hkeeps, hviews⟩ := ih (apply_holds h c)
      exact ⟨hholds, fun v xs hv => hkeeps v xs (apply_keeps h hv c),
        (views_apply rs c).trans hviews⟩

/-- The views that some changes make hold the lists that these changes make, at all later times. -/
theorem of_append_holds (changes later : List (Change α)) :
    (SharedRecords.of changes).views <+: (SharedRecords.of (changes ++ later)).views ∧
      List.Forall₂ (SharedRecords.of (changes ++ later)).store.Holds
        (SharedRecords.of changes).views (recordsOf id (fun xs x => xs ++ [x]) changes) := by
  have hempty : List.Forall₂ (empty (α := α)).store.Holds (empty (α := α)).views [] := .nil
  obtain ⟨hholds, -, -⟩ := foldl_apply changes hempty
  obtain ⟨-, hkeeps, hviews⟩ := foldl_apply later hholds
  rw [SharedRecords.of, SharedRecords.of, List.foldl_append]
  exact ⟨hviews, hholds.imp hkeeps⟩

end SharedRecords

section Records

variable {α ρ : Type} {make : List α → ρ} {add : ρ → α → ρ}

/-- Records that are made and added to like lists have the members that the lists have. -/
theorem map_recordsOf {toList : ρ → List α} (hmake : ∀ items, toList (make items) = items)
    (hadd : ∀ r x, toList (add r x) = toList r ++ [x]) (changes : List (Change α)) :
    (recordsOf make add changes).map toList = recordsOf id (fun xs x => xs ++ [x]) changes := by
  have hstep (records : List ρ) (c : Change α) : (c.apply make add records).map toList =
      c.apply id (fun xs x => xs ++ [x]) (records.map toList) := by
    cases c with
    | make items => simp [Change.apply, hmake]
    | add record x =>
        simp only [Change.apply, List.getElem?_map]
        cases records[record]? with
        | none => rfl
        | some r => simp [hadd]
  exact (List.foldl_hom (List.map toList) fun records c => (hstep records c).symm).symm

/-- Views read as the members of such records at all later times, and they are equal when the
records are, as far as members equal themselves. -/
theorem views_read_as_records [BEq α] [BEq ρ] (toList : ρ → List α)
    (hmake : ∀ items, toList (make items) = items)
    (hadd : ∀ r x, toList (add r x) = toList r ++ [x])
    (hbeq : ∀ r r', (r == r') = (toList r == toList r')) (changes later : List (Change α)) :
    let made := (SharedRecords.of changes).views
    let records := recordsOf make add changes
    let after := SharedRecords.of (changes ++ later)
    made <+: after.views ∧ List.Forall₂ (fun v r => after.store.Reads v (toList r)) made records ∧
      ∀ v r w r', (v, r) ∈ made.zip records → (w, r') ∈ made.zip records →
        (∀ x ∈ toList r, (x == x) = true) → after.store.equal v w = (r == r') := by
  intro made records after
  obtain ⟨hviews, hholds⟩ := SharedRecords.of_append_holds changes later
  rw [← map_recordsOf hmake hadd, List.forall₂_map_right_iff] at hholds
  refine ⟨hviews, hholds.imp fun v r h => h.reads, fun v r w r' hv hw hself => ?_⟩
  have hzip {v : View} {r : ρ} (h : (v, r) ∈ made.zip records) : after.store.Holds v (toList r) :=
    (List.forall₂_iff_zip.1 hholds).2 h
  rw [hbeq]
  exact (hzip hv).equal (hzip hw) hself

/-- Views of shared lists are nothing but lists. Whatever records are made, and made out of older
ones, the views of them stay as they were made, and everything asked of them, at any later time, is
answered as it is for the list of the members that they were made with. -/
theorem shared_views_are_lists [BEq α] (changes later : List (Change α)) :
    let made := (SharedRecords.of changes).views
    let lists := recordsOf id (fun xs x => xs ++ [x]) changes
    let after := SharedRecords.of (changes ++ later)
    made <+: after.views ∧ List.Forall₂ after.store.Reads made lists ∧
      ∀ v xs w ys, (v, xs) ∈ made.zip lists → (w, ys) ∈ made.zip lists →
        (∀ x ∈ xs, (x == x) = true) → after.store.equal v w = (xs == ys) :=
  views_read_as_records id (fun _ => rfl) (fun _ _ => rfl) (fun _ _ => rfl) changes later

end Records

/-- Groups of parts that are compared as parts match when the lists of the parts are equal. -/
theorem Form.allAlike_map {α : Type} [BEq α] {form : α → Form}
    (hform : ∀ a b, (a == b) = (form a).alike (form b)) (xs ys : List α) :
    Form.allAlike (xs.map form) (ys.map form) = (xs == ys) := by
  induction xs generalizing ys with
  | nil => cases ys <;> rfl
  | cons x xs ih =>
      cases ys with
      | nil => rfl
      | cons y ys =>
          rw [List.map_cons, List.map_cons, Form.allAlike, ih, ← hform, List.cons_beq_cons]

theorem Transcript.beq_eq_plies (t u : Transcript) : (t == u) = (t.plies == u.plies) := by
  have hform (p q : Ply) : (p == q) = p.form.alike q.form := by
    obtain ⟨player, move⟩ := p
    rfl
  obtain ⟨ps⟩ := t
  obtain ⟨qs⟩ := u
  rw [Value.transcript_beq, Transcript.form, Transcript.form, Form.alike, decide_eq_true rfl,
    Bool.true_and, Ply.forms_eq_map, Ply.forms_eq_map, ← List.map_reverse, ← List.map_reverse,
    Form.allAlike_map hform]
  rfl

theorem History.beq_eq_outcomes (h k : History) : (h == k) = (h.outcomes == k.outcomes) := by
  have hform (o o' : Outcome) : (o == o') = o.form.alike o'.form := by
    obtain ⟨payoff, profile, transcript, history⟩ := o
    rfl
  obtain ⟨os⟩ := h
  obtain ⟨os'⟩ := k
  rw [Value.history_beq, History.form, History.form, Form.alike, decide_eq_true rfl, Bool.true_and,
    Value.outcomeForms_eq_map, Value.outcomeForms_eq_map, ← List.map_reverse, ← List.map_reverse,
    Form.allAlike_map hform]
  rfl

theorem Transcript.plies_ofPlies (ps : List Ply) : (Transcript.ofPlies ps).plies = ps :=
  List.reverse_reverse ps

theorem Transcript.plies_add (t : Transcript) (p : Ply) : (t.add p).plies = t.plies ++ [p] :=
  List.reverse_cons

theorem History.outcomes_ofOutcomes (os : List Outcome) : (History.ofOutcomes os).outcomes = os :=
  List.reverse_reverse os

theorem History.outcomes_add (h : History) (o : Outcome) : (h.add o).outcomes = h.outcomes ++ [o] :=
  List.reverse_cons

/-- Transcripts read as the views of shared lists that they might be kept as. -/
theorem transcripts_are_views (changes later : List (Change Ply)) :
    let made := (SharedRecords.of changes).views
    let transcripts := recordsOf Transcript.ofPlies Transcript.add changes
    let after := SharedRecords.of (changes ++ later)
    made <+: after.views ∧
      List.Forall₂ (fun v t => after.store.Reads v (Transcript.plies t)) made transcripts ∧
      ∀ v t w u, (v, t) ∈ made.zip transcripts → (w, u) ∈ made.zip transcripts →
        (∀ p ∈ t.plies, (p == p) = true) → after.store.equal v w = (t == u) :=
  views_read_as_records Transcript.plies Transcript.plies_ofPlies Transcript.plies_add
    Transcript.beq_eq_plies changes later

/-- Histories read as the views of shared lists that they might be kept as. -/
theorem histories_are_views (changes later : List (Change Outcome)) :
    let made := (SharedRecords.of changes).views
    let histories := recordsOf History.ofOutcomes History.add changes
    let after := SharedRecords.of (changes ++ later)
    made <+: after.views ∧
      List.Forall₂ (fun v h => after.store.Reads v (History.outcomes h)) made histories ∧
      ∀ v h w k, (v, h) ∈ made.zip histories → (w, k) ∈ made.zip histories →
        (∀ o ∈ h.outcomes, (o == o) = true) → after.store.equal v w = (h == k) :=
  views_read_as_records History.outcomes History.outcomes_ofOutcomes History.outcomes_add
    History.beq_eq_outcomes changes later

end ExtensiveForm
