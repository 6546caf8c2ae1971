import Mathlib.Algebra.Order.BigOperators.Group.List
import Mathlib.Algebra.Ring.Int.Defs
import ExtensiveForm.Analysis.Column
import ExtensiveForm.Proofs.Lists
import ExtensiveForm.Proofs.Run

/-!
# Columns of whole numbers

A column that begins with a whole number holds whole numbers of 64 bits, if all that is to be put
into it fits, truth values being one and zero. Such a column has an exact sum as long as this fits,
too, and bounds that are the least and the greatest of the numbers. So has a column of truth values
alone, which stay what they are, but have a number for a sum: `Column.Reckons` says this of both.
-/

namespace ExtensiveForm

/-- The number fits into 64 bits with a sign. -/
def IsStandard (n : Int) : Prop :=
  -9223372036854775808 ≤ n ∧ n ≤ 9223372036854775807

instance (n : Int) : Decidable (IsStandard n) :=
  inferInstanceAs (Decidable (_ ∧ _))

variable {n : Int} {ns : List Int} {u : Value} {us : List Value}

theorem IsStandard.wrap_eq (h : IsStandard n) : Word.standard.wrap n = n := by
  obtain ⟨hlow, hhigh⟩ := h
  have hmodulus : Word.standard.modulus = 18446744073709551616 := rfl
  show n.bmod Word.standard.modulus = n
  rw [hmodulus]
  exact Int.bmod_eq_of_le (by omega) (by omega)

theorem IsStandard.holds (h : IsStandard n) : Word.standard.holds n = true := by
  rw [Word.holds, h.wrap_eq]
  exact beq_self_eq_true n

/-- A column has an entry for each value. -/
theorem Column.length_of_ofValues {c : Column} (h : ofValues us = .ok c) :
    c.entries.length = us.length := by
  unfold ofValues at h
  dsimp only at h
  split at h
  · rename_i column hcolumn
    cases h
    obtain ⟨type, -, hcolumn⟩ := Run.except_bind_eq_ok.1 hcolumn
    obtain ⟨entries, hentries, heq⟩ := Run.except_bind_eq_ok.1 hcolumn
    cases heq
    exact (mapM_eq_ok_iff.1 hentries).length_eq.symm
  · obtain ⟨_, -, hfault⟩ := Run.except_bind_eq_ok.1 h
    cases hfault

namespace EntryType

/-- Entries of one type go below each other. -/
theorem goesBelow_self (type : EntryType) : type.goesBelow type = true := by
  induction type with
  | sequence members ih => exact ih
  | nothing => rfl
  | _ => exact decide_eq_true rfl

theorem ofValue_standard (h : IsStandard n) : ofValue (.int n) = .ok (.whole .standard) := by
  have hword : Word.of? n = some .standard := List.find?_cons_of_pos h.holds
  rw [ofValue, hword]
  rfl

theorem suits_standard (hu : u.whole? = some n) (h : IsStandard n) : suits .standard u = true := by
  have hsuits : u.whole?.any Word.standard.holds = true := by
    rw [hu]
    exact h.holds
  cases u <;> first | exact hsuits | cases hu

/-- The first number settles the type of a column that all the numbers fit into. -/
theorem ofColumn_standard
    (hus : List.Forall₂ (fun u n => u.whole? = some n) (.int n :: us) (n :: ns))
    (hns : ∀ m ∈ n :: ns, IsStandard m) :
    ofColumn (.int n :: us) = .ok (.whole .standard) := by
  have htype := ofValue_standard (hns n List.mem_cons_self)
  have hfirst : (.int n :: us).find? (fun v => ((ofValue v).map isKnown).toOption.getD true) =
      some (.int n) := by
    refine List.find?_cons_of_pos ?_
    rw [htype]
    rfl
  have hsuit : (.int n :: us).all (suits .standard) = true := by
    refine List.all_eq_true.2 fun u hu => ?_
    obtain ⟨m, hm, hwhole⟩ := exists_of_mem_left hus hu
    exact suits_standard hwhole (hns m hm)
  have hword : Word.narrow.find? (fun w => (Value.int n :: us).all (suits w)) = some .standard :=
    List.find?_cons_of_pos hsuit
  unfold ofColumn
  simp only [hfirst, htype, Run.except_ok_bind, hword]
  rfl

/-- A whole number is put into such a column as it is. -/
theorem fit_standard (hu : u.whole? = some n) (h : IsStandard n) :
    fit (.whole .standard) u = .ok (.int n) := by
  cases u with
  | int m =>
      cases hu
      exact if_pos h.holds
  | bool b =>
      cases hu
      rfl
  | _ => cases hu

end EntryType

namespace Column

/-- A column of these whole numbers. -/
def ofWholes (ns : List Int) : Column :=
  ⟨.whole .standard, ns.map .int⟩

theorem ofValues_standard
    (hus : List.Forall₂ (fun u n => u.whole? = some n) (.int n :: us) (n :: ns))
    (hns : ∀ m ∈ n :: ns, IsStandard m) :
    ofValues (.int n :: us) = .ok (ofWholes (n :: ns)) := by
  have hfit : (.int n :: us).mapM (EntryType.fit (.whole .standard)) =
      .ok ((n :: ns).map .int) := by
    rw [mapM_eq_ok_iff, List.forall₂_map_right_iff]
    exact (forall₂_mem hus).imp fun u m hm => EntryType.fit_standard hm.1 (hns m hm.2)
  unfold ofValues
  simp only [EntryType.ofColumn_standard hus hns, Run.except_ok_bind, hfit]
  rfl

theorem wholes_ofWholes (ns : List Int) : (ofWholes ns).wholes = ns := by
  rw [wholes, ofWholes, List.filterMap_map]
  exact List.filterMap_some

/-- The sum of whole numbers is exact if it fits. -/
theorem total_ofWholes (hsum : IsStandard ns.sum) : (ofWholes ns).total = .int ns.sum := by
  have htotal : (ofWholes ns).total =
      .int (Word.standard.wrap ((ofWholes ns).wholes.foldl (· + ·) 0)) := rfl
  rw [htotal, wholes_ofWholes, ← List.sum_eq_foldl, hsum.wrap_eq]

/-- What is left of some entries when any two of them give one. -/
theorem reduce_map {α : Type} {entry : α → Value} (hthere : ∀ a, entry a ≠ .null)
    {pick : Value → Value → Value} {op : α → α → α}
    (hpick : ∀ a b, pick (entry a) (entry b) = entry (op a b)) (type : EntryType) (a : α)
    (as : List α) :
    (Column.mk type ((a :: as).map entry)).reduce pick = entry (as.foldl op a) := by
  have hfold (as : List α) (a : α) :
      (as.map entry).foldl pick (entry a) = entry (as.foldl op a) := by
    induction as generalizing a with
    | nil => rfl
    | cons b as ih => rw [List.map_cons, List.foldl_cons, hpick, ih, List.foldl_cons]
  unfold reduce
  dsimp only
  rw [List.filter_eq_self.2]
  · exact hfold as a
  · intro v hv
    obtain ⟨b, -, rfl⟩ := List.mem_map.1 hv
    cases hentry : entry b <;> first | rfl | exact absurd hentry (hthere b)

/-- What is reckoned from the column are the sum and the bounds of these numbers. -/
structure Reckons (c : Column) (ns : List Int) : Prop where
  total : c.total = .int ns.sum
  least : ∃ n, c.least.whole? = some n ∧ n ∈ ns ∧ ∀ m ∈ ns, n ≤ m
  greatest : ∃ n, c.greatest.whole? = some n ∧ n ∈ ns ∧ ∀ m ∈ ns, m ≤ n

theorem reckons_ofWholes (hsum : IsStandard (n :: ns).sum) :
    (ofWholes (n :: ns)).Reckons (n :: ns) where
  total := total_ofWholes hsum
  least := by
    have hleast : (ofWholes (n :: ns)).least = .int (ns.foldl min n) :=
      reduce_map (fun _ => Value.noConfusion) (fun _ _ => rfl) _ n ns
    exact ⟨_, hleast ▸ rfl, List.min?_eq_some_iff.1 List.min?_cons'⟩
  greatest := by
    have hgreatest : (ofWholes (n :: ns)).greatest = .int (ns.foldl max n) :=
      reduce_map (fun _ => Value.noConfusion) (fun _ _ => rfl) _ n ns
    exact ⟨_, hgreatest ▸ rfl, List.max?_eq_some_iff.1 List.max?_cons'⟩

/-! ### Truth values -/

/-- A column of these truth values. -/
def ofTruths (bs : List Bool) : Column :=
  ⟨.truth, bs.map .bool⟩

/-- A truth value counts as one or zero. -/
def numeral (b : Bool) : Int :=
  if b then 1 else 0

theorem ofValues_truths (b : Bool) (bs : List Bool) :
    ofValues ((b :: bs).map .bool) = .ok (ofTruths (b :: bs)) := by
  have hfit : ((b :: bs).map Value.bool).mapM (EntryType.fit .truth) =
      .ok ((b :: bs).map Value.bool) := by
    rw [mapM_eq_ok_iff, List.forall₂_map_left_iff, List.forall₂_map_right_iff]
    exact List.forall₂_same.2 fun b _ => rfl
  have htype : EntryType.ofColumn ((b :: bs).map .bool) = .ok .truth := rfl
  unfold ofValues
  simp only [htype, Run.except_ok_bind, hfit]
  rfl

theorem reckons_ofTruths (b : Bool) (bs : List Bool) :
    (ofTruths (b :: bs)).Reckons ((b :: bs).map numeral) where
  total := by
    have hwholes : (ofTruths (b :: bs)).wholes = (b :: bs).map numeral := by
      rw [wholes, ofTruths, List.filterMap_map]
      exact congrFun (List.filterMap_eq_map (f := numeral)) (b :: bs)
    have htotal : (ofTruths (b :: bs)).total =
        .int ((ofTruths (b :: bs)).wholes.foldl (· + ·) 0) := rfl
    rw [htotal, hwholes, ← List.sum_eq_foldl]
  least := by
    have hleast : (ofTruths (b :: bs)).least = .bool (bs.foldl (· && ·) b) :=
      reduce_map (fun _ => Value.noConfusion) (fun _ _ => rfl) _ b bs
    refine ⟨numeral (bs.foldl (· && ·) b), hleast ▸ rfl, List.min?_eq_some_iff.1 ?_⟩
    rw [List.map_cons, List.min?_cons', List.foldl_map]
    exact congrArg some (List.foldl_hom numeral (by decide))
  greatest := by
    have hgreatest : (ofTruths (b :: bs)).greatest = .bool (bs.foldl (· || ·) b) :=
      reduce_map (fun _ => Value.noConfusion) (fun _ _ => rfl) _ b bs
    refine ⟨numeral (bs.foldl (· || ·) b), hgreatest ▸ rfl, List.max?_eq_some_iff.1 ?_⟩
    rw [List.map_cons, List.max?_cons', List.foldl_map]
    exact congrArg some (List.foldl_hom numeral (by decide))

end Column

end ExtensiveForm
