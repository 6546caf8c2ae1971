import ExtensiveForm.Proofs.Grid

/-!
# Games given by matrices

The constructors of games for two players read their utilities out of matrices, and put them into a
table with rows and columns. A matrix is read as far as there are moves, `cell?`, so `bimatrix` asks
only that both matrices reach far enough, `exists_bimatrix_iff`, and whatever lies beyond is
dropped. Moves that hold lists are no members of keys, so there is no game of them,
`bimatrix_result`.

Moves that are declared again replace rows and columns, but always both utilities at once. So the
games keep what their matrices promise: those of `symmetric` treat both sides alike, and in those of
`matrix` one side loses what the other one gains.
-/

namespace ExtensiveForm

section Cells

variable {α β : Type}

/-- What stands in a row and a column, if the rows reach so far. -/
def cell? (rows : List (List α)) (i j : Nat) : Option α :=
  rows[i]?.bind (·[j]?)

/-- There is something in each of so many rows and columns. -/
def Reaches (rows : List (List α)) (m n : Nat) : Prop :=
  ∀ i < m, ∀ j < n, (cell? rows i j).isSome = true

/-- There are so many rows, and so many columns in each of them. -/
def HasShape (rows : List (List α)) (m n : Nat) : Prop :=
  rows.length = m ∧ ∀ row ∈ rows, row.length = n

instance (rows : List (List α)) (m n : Nat) : Decidable (Reaches rows m n) :=
  inferInstanceAs (Decidable (∀ i < m, ∀ j < n, (cell? rows i j).isSome = true))

instance (rows : List (List α)) (m n : Nat) : Decidable (HasShape rows m n) :=
  inferInstanceAs (Decidable (rows.length = m ∧ ∀ row ∈ rows, row.length = n))

theorem cell?_map (f : α → β) (rows : List (List α)) (i j : Nat) :
    cell? (rows.map (·.map f)) i j = (cell? rows i j).map f := by
  rw [cell?, cell?, List.getElem?_map]
  cases rows[i]? with
  | none => rfl
  | some row => exact List.getElem?_map

theorem reaches_map_iff {f : α → β} {rows : List (List α)} {m n : Nat} :
    Reaches (rows.map (·.map f)) m n ↔ Reaches rows m n := by
  simp only [Reaches, cell?_map, Option.isSome_map]

/-- Rows of one length, written one after another, hold the columns of a row side by side. -/
theorem getElem?_flatten {rows : List (List α)} {n i j : Nat} (h : ∀ row ∈ rows, row.length = n)
    (hj : j < n) : rows.flatten[i * n + j]? = cell? rows i j := by
  induction rows generalizing i with
  | nil => rfl
  | cons row rows ih =>
      rw [List.forall_mem_cons] at h
      rw [List.flatten_cons]
      cases i with
      | zero =>
          rw [Nat.zero_mul, Nat.zero_add, List.getElem?_append_left (by omega)]
          rfl
      | succ i =>
          rw [List.getElem?_append_right (by rw [Nat.succ_mul]; omega), h.1,
            show (i + 1) * n + j - n = i * n + j by rw [Nat.succ_mul]; omega]
          exact ih h.2

end Cells

namespace Value

/-- The value is a tuple or a list with these members. -/
def IsRow (v : Value) (items : List Value) : Prop :=
  v = .tuple items ∨ v = .list items

/-- The value is a tuple or a list of tuples or lists, which are these rows. -/
def IsMatrix (v : Value) (rows : List (List Value)) : Prop :=
  ∃ vs, v.IsRow vs ∧ List.Forall₂ IsRow vs rows

variable {v : Value} {items : List Value} {rows : List (List Value)}

theorem IsRow.items_eq (h : v.IsRow items) : v.items = .ok items := by
  rcases h with rfl | rfl <;> rfl

/-- A member of a sequence is found at its place. -/
theorem member_eq (h : v.items = .ok items) (i : Nat) :
    v.member (.int i) = items[i]?.elim (.error .indexOutOfRange) .ok := by
  have hplace : atPlace? items i = items[i]? := by
    rw [atPlace?, if_pos (Int.natCast_nonneg i), Int.toNat_natCast]
  simp only [member, h, Run.except_ok_bind, whole?, ← hplace]
  cases atPlace? items i <;> rfl

theorem IsRow.entry_eq (h : v.IsRow items) (i : Nat) :
    v.entry (.int i) = items[i]?.elim (.error .indexOutOfRange) .ok := by
  rw [← member_eq h.items_eq]
  rcases h with rfl | rfl <;> rfl

/-- Rows make a tuple of tuples, and a list of lists. -/
theorem isMatrix_tuple (rows : List (List Value)) : (tuple (rows.map .tuple)).IsMatrix rows :=
  ⟨_, .inl rfl, List.forall₂_map_left_iff.2 (List.forall₂_same.2 fun _ _ => .inl rfl)⟩

theorem isMatrix_list (rows : List (List Value)) : (list (rows.map .list)).IsMatrix rows :=
  ⟨_, .inr rfl, List.forall₂_map_left_iff.2 (List.forall₂_same.2 fun _ _ => .inr rfl)⟩

theorem IsMatrix.itemLists_eq (h : v.IsMatrix rows) : v.itemLists = .ok rows := by
  obtain ⟨vs, hv, hrows⟩ := h
  rw [itemLists, hv.items_eq, Run.except_ok_bind, mapM_eq_ok_iff]
  exact hrows.imp fun _ _ hrow => hrow.items_eq

/-- What stands in a row and a column of a matrix. -/
theorem IsMatrix.entry_eq (h : v.IsMatrix rows) (i j : Nat) :
    v.entry (.int i) >>= (·.entry (.int j)) =
      (cell? rows i j).elim (.error .indexOutOfRange) .ok := by
  obtain ⟨vs, hv, hrows⟩ := h
  have hplace := forall₂_getElem? hrows i
  rw [hv.entry_eq, cell?]
  generalize vs[i]? = member at hplace ⊢
  generalize rows[i]? = row at hplace ⊢
  cases hplace with
  | none => rfl
  | some hrow => exact hrow.entry_eq j

end Value

namespace NormalForm

variable {σ : Type} {name : String} {m n : Nat}

theorem cell_eq {v : Value} {rows : List (List Value)} (h : v.IsMatrix rows) (i j : Nat) :
    cell m n v i j = (cell? rows i j).elim (.error (.refused (.matrixShape m n))) .ok := by
  rw [cell, h.entry_eq]
  cases cell? rows i j <;> rfl

theorem cell_eq_ok_iff {v a : Value} {rows : List (List Value)} (h : v.IsMatrix rows) {i j : Nat} :
    cell m n v i j = .ok a ↔ cell? rows i j = some a := by
  rw [cell_eq h]
  cases cell? rows i j with
  | none => exact ⟨nofun, nofun⟩
  | some b => exact ⟨fun heq => congrArg some (Except.ok.inj heq), fun heq => by cases heq; rfl⟩

/-- A cell that is missing is refused. -/
theorem cell_fails {v : Value} {rows : List (List Value)} (h : v.IsMatrix rows) (i j : Nat) :
    FailsWith Fault.IsRefusal (cell m n v i j) := by
  rw [cell_eq h]
  cases cell? rows i j with
  | none => exact .error (Fault.isRefusal rfl)
  | some a => exact .ok a

/-- The utilities of both sides in a row and a column. -/
def pairAt (us vs : List (List Value)) (i j : Nat) : Value :=
  .tuple [(cell? us i j).getD .null, (cell? vs i j).getD .null]

theorem pairAt_eq {us vs : List (List Value)} {i j : Nat} {a b : Value} (ha : cell? us i j = some a)
    (hb : cell? vs i j = some b) : pairAt us vs i j = .tuple [a, b] := by
  rw [pairAt, ha, hb]
  rfl

/-- The utilities of both sides in a row and a column, as they are read out of the matrices. -/
def readPair (m n : Nat) (R C : Value) (i j : Nat) : Except Fault Value := do
  return .tuple [← cell m n R i j, ← cell m n C i j]

section Bimatrix

variable {rows columns R C : Value} {rs cs : List Value} {us vs : List (List Value)}

/-- The entries of a game of two matrices are read row by row. -/
theorem bimatrix_eq (hrows : rows.items = .ok rs) (hcolumns : columns.items = .ok cs) :
    (bimatrix name rows columns R C : Except Fault (NormalForm σ)) =
      ofRows name rs cs (readPair rs.length cs.length R C) := by
  unfold bimatrix ofRows readRows readPair
  rw [hrows, hcolumns]
  simp only [bind_assoc, pure_bind]
  rfl

variable (hR : R.IsMatrix us) (hC : C.IsMatrix vs)

include hR hC

theorem readPair_eq_ok_iff {i j : Nat} {v : Value} : readPair m n R C i j = .ok v ↔
    ∃ a b, cell? us i j = some a ∧ cell? vs i j = some b ∧ v = .tuple [a, b] := by
  simp only [readPair, Run.except_bind_eq_ok, cell_eq_ok_iff hR, cell_eq_ok_iff hC]
  constructor
  · rintro ⟨a, ha, b, hb, ⟨⟩⟩
    exact ⟨a, b, ha, hb, rfl⟩
  · rintro ⟨a, b, ha, hb, rfl⟩
    exact ⟨a, ha, b, hb, rfl⟩

theorem eq_pairAt {i j : Nat} {v : Value} (h : readPair m n R C i j = .ok v) :
    v = pairAt us vs i j := by
  obtain ⟨a, b, ha, hb, rfl⟩ := (readPair_eq_ok_iff hR hC).1 h
  exact (pairAt_eq ha hb).symm

theorem readPair_fails (i j : Nat) : FailsWith Fault.IsRefusal (readPair m n R C i j) :=
  (cell_fails hR i j).bind fun _ => (cell_fails hC i j).bind fun _ => .ok _

/-- Everything can be read out of matrices that reach far enough. -/
theorem readable_iff : (∀ i < m, ∀ j < n, ∃ v, readPair m n R C i j = .ok v) ↔
    Reaches us m n ∧ Reaches vs m n := by
  simp only [readPair_eq_ok_iff hR hC, Reaches, Option.isSome_iff_exists]
  constructor
  · intro h
    refine ⟨fun i hi j hj => ?_, fun i hi j hj => ?_⟩ <;>
      obtain ⟨_, a, b, ha, hb, -⟩ := h i hi j hj
    · exact ⟨a, ha⟩
    · exact ⟨b, hb⟩
  · rintro ⟨hus, hvs⟩ i hi j hj
    obtain ⟨a, ha⟩ := hus i hi j hj
    obtain ⟨b, hb⟩ := hvs i hi j hj
    exact ⟨_, a, b, ha, hb, rfl⟩

variable (hrows : rows.items = .ok rs) (hcolumns : columns.items = .ok cs)

include hrows hcolumns

/-- A game that is made of two matrices is that of the table with the utilities of both. -/
theorem ofTable_of_bimatrix {g : NormalForm σ} (hg : bimatrix name rows columns R C = .ok g) :
    (Reaches us rs.length cs.length ∧ Reaches vs rs.length cs.length) ∧
      ofTable name (.tuple [.tuple rs, .tuple cs]) (Table.grid rs cs (pairAt us vs)) = .ok g := by
  rw [bimatrix_eq hrows hcolumns, ofRows_eq_ok_iff fun _ _ _ => eq_pairAt hR hC] at hg
  exact ⟨(readable_iff hR hC).1 hg.1.1, hg.2⟩

theorem exists_bimatrix_iff : (∃ g : NormalForm σ, bimatrix name rows columns R C = .ok g) ↔
    ((Value.AreMoves rs ∧ Value.AreMoves cs) ∧ Value.AreHashable rs ∧ Value.AreHashable cs) ∧
      Reaches us rs.length cs.length ∧ Reaches vs rs.length cs.length := by
  rw [bimatrix_eq hrows hcolumns, ← readable_iff hR hC]
  exact exists_ofRows_iff (fun _ _ _ => eq_pairAt hR hC) fun _ _ => ⟨_, _, rfl⟩

theorem bimatrix_result : (∃ g : NormalForm σ, bimatrix name rows columns R C = .ok g) ∨
    Refused (bimatrix name rows columns R C : Except Fault (NormalForm σ)) ∨
    (bimatrix name rows columns R C : Except Fault (NormalForm σ)) = .error .wrongType ∧
      ¬ (Value.AreHashable rs ∧ Value.AreHashable cs) := by
  rw [bimatrix_eq hrows hcolumns]
  exact (ofRows_fails (fun _ _ _ => eq_pairAt hR hC) (fun _ _ => ⟨_, _, rfl⟩)
    fun i j => readPair_fails hR hC i j).ok_or_refused

/-- What lies beyond the rows and columns of the moves makes no difference. -/
theorem bimatrix_congr {R' C' : Value} {us' vs' : List (List Value)} (hR' : R'.IsMatrix us')
    (hC' : C'.IsMatrix vs') (hcells : ∀ i < rs.length, ∀ j < cs.length,
      cell? us' i j = cell? us i j ∧ cell? vs' i j = cell? vs i j) :
    (bimatrix name rows columns R' C' : Except Fault (NormalForm σ)) =
      bimatrix name rows columns R C := by
  rw [bimatrix_eq hrows hcolumns, bimatrix_eq hrows hcolumns]
  refine ofRows_congr fun i hi j hj => ?_
  obtain ⟨hus, hvs⟩ := hcells i hi j hj
  rw [readPair, readPair, cell_eq hR', cell_eq hR, cell_eq hC', cell_eq hC, hus, hvs]

/-- The valid profiles of a game made of two matrices. -/
theorem isValidProfile_bimatrix_iff {g : NormalForm σ} {p : Profile}
    (hg : bimatrix name rows columns R C = .ok g) : g.isValidProfile p = true ↔
      ∃ r c, p = ⟨[r, c]⟩ ∧ r.isAmong rs = true ∧ c.isAmong cs = true :=
  isValidProfile_grid_iff (fun _ _ => ⟨_, _, rfl⟩)
    (ofTable_of_bimatrix hR hC hrows hcolumns hg).2

theorem isValidProfile_of_bimatrix {g : NormalForm σ} {moves : List Value}
    (hg : bimatrix name rows columns R C = .ok g) (hmoves : moves ∈ choices g.moveSets) :
    g.isValidProfile ⟨moves⟩ = true :=
  isValidProfile_of_ofTable (sequences_grid fun _ _ => ⟨_, _, rfl⟩) rfl
    (ofTable_of_bimatrix hR hC hrows hcolumns hg).2 hmoves

/-- Two moves are paid what stands in both matrices at their last places. -/
theorem payoff_bimatrix {g : NormalForm σ} {r c : Value}
    (hg : bimatrix name rows columns R C = .ok g) (hr : r.isAmong rs = true)
    (hc : c.isAmong cs = true) :
    ∃ i j a b, LastPlace rs r i ∧ LastPlace cs c j ∧ cell? us i j = some a ∧
      cell? vs i j = some b ∧ g.payoff ⟨[r, c]⟩ = pure ⟨[a, b]⟩ := by
  obtain ⟨hreaches, htable⟩ := ofTable_of_bimatrix hR hC hrows hcolumns hg
  obtain ⟨i, hi⟩ := Table.exists_lastPlace hr
  obtain ⟨j, hj⟩ := Table.exists_lastPlace hc
  obtain ⟨a, ha⟩ := Option.isSome_iff_exists.1 (hreaches.1 i hi.lt_length j hj.lt_length)
  obtain ⟨b, hb⟩ := Option.isSome_iff_exists.1 (hreaches.2 i hi.lt_length j hj.lt_length)
  exact ⟨i, j, a, b, hi, hj, ha, hb,
    payoff_grid (fun _ _ => ⟨_, _, rfl⟩) htable hi hj (pairAt_eq ha hb)⟩

end Bimatrix

/-! ### One side loses what the other one gains -/

section ZeroSum

variable {rows columns V W : Value} {rs cs : List Value} {ns : List (List Int)}
  (hV : V.IsMatrix (ns.map (·.map .int))) (hW : W.IsMatrix (ns.map (·.map fun n => .int (-n))))
  (hrows : rows.items = .ok rs) (hcolumns : columns.items = .ok cs)

include hV hW hrows hcolumns

/-- The utilities of the other side may be given by any matrix of the opposite numbers. -/
theorem matrix_eq_bimatrix :
    (matrix name rows columns V : Except Fault (NormalForm σ)) =
      bimatrix name rows columns V W := by
  have hnegated : (ns.map (·.map Value.int)).mapM (fun row => row.mapM Value.neg) =
      .ok (ns.map (·.map fun n => Value.int (-n))) := by
    rw [List.mapM_map]
    refine mapM_eq_map fun row _ => ?_
    rw [Function.comp_apply, List.mapM_map]
    exact mapM_eq_map fun n _ => rfl
  have hmade := Value.isMatrix_tuple (ns.map (·.map fun n => Value.int (-n)))
  rw [matrix, hV.itemLists_eq, Run.except_ok_bind, hnegated, Run.except_ok_bind]
  exact bimatrix_congr hV hW hrows hcolumns hV hmade fun i _ j _ => ⟨rfl, rfl⟩

/-- Every profile is paid a number and its opposite. -/
theorem payoff_matrix {g : NormalForm σ} {p : Profile} (hg : matrix name rows columns V = .ok g)
    (hp : g.isValidProfile p = true) : ∃ n : Int, g.payoff p = pure ⟨[.int n, .int (-n)]⟩ := by
  rw [matrix_eq_bimatrix hV hW hrows hcolumns] at hg
  obtain ⟨r, c, rfl, hr, hc⟩ := (isValidProfile_bimatrix_iff hV hW hrows hcolumns hg).1 hp
  obtain ⟨i, j, a, b, -, -, ha, hb, hpayoff⟩ := payoff_bimatrix hV hW hrows hcolumns hg hr hc
  rw [cell?_map, Option.map_eq_some_iff] at ha hb
  obtain ⟨n, hn, rfl⟩ := ha
  obtain ⟨n', hn', rfl⟩ := hb
  cases hn.symm.trans hn'
  exact ⟨n, hpayoff⟩

theorem isZeroSum_matrix {g : NormalForm σ} (hg : matrix name rows columns V = .ok g) :
    g.isZeroSum = pure true := by
  refine isZeroSum_eq_true fun moves hmoves => ?_
  have hp : g.isValidProfile ⟨moves⟩ = true := by
    rw [matrix_eq_bimatrix hV hW hrows hcolumns] at hg
    exact isValidProfile_of_bimatrix hV hW hrows hcolumns hg hmoves
  obtain ⟨n, hpayoff⟩ := payoff_matrix hV hW hrows hcolumns hg hp
  refine ⟨_, hpayoff, ?_⟩
  have hsum : Value.sum [.int n, .int (-n)] = .ok (.int (0 + n + -n)) := rfl
  rw [hsum, Int.zero_add, Int.add_right_neg]

omit hV hW

/-- There is a game when the matrix reaches far enough. -/
theorem exists_matrix_iff (hV : V.IsMatrix (ns.map (·.map .int))) :
    (∃ g : NormalForm σ, matrix name rows columns V = .ok g) ↔
      ((Value.AreMoves rs ∧ Value.AreMoves cs) ∧ Value.AreHashable rs ∧ Value.AreHashable cs) ∧
        Reaches ns rs.length cs.length := by
  have hW := Value.isMatrix_tuple (ns.map (·.map fun n => Value.int (-n)))
  rw [matrix_eq_bimatrix hV hW hrows hcolumns, exists_bimatrix_iff hV hW hrows hcolumns,
    reaches_map_iff, reaches_map_iff, and_self (Reaches ns rs.length cs.length)]

theorem matrix_result (hV : V.IsMatrix (ns.map (·.map .int))) :
    (∃ g : NormalForm σ, matrix name rows columns V = .ok g) ∨
      Refused (matrix name rows columns V : Except Fault (NormalForm σ)) ∨
      (matrix name rows columns V : Except Fault (NormalForm σ)) = .error .wrongType ∧
        ¬ (Value.AreHashable rs ∧ Value.AreHashable cs) := by
  have hW := Value.isMatrix_tuple (ns.map (·.map fun n => Value.int (-n)))
  rw [matrix_eq_bimatrix hV hW hrows hcolumns]
  exact bimatrix_result hV hW hrows hcolumns

theorem matrix_congr {V' : Value} {ns' : List (List Int)} (hV : V.IsMatrix (ns.map (·.map .int)))
    (hV' : V'.IsMatrix (ns'.map (·.map .int)))
    (hcells : ∀ i < rs.length, ∀ j < cs.length, cell? ns' i j = cell? ns i j) :
    (matrix name rows columns V' : Except Fault (NormalForm σ)) = matrix name rows columns V := by
  have hW := Value.isMatrix_tuple (ns.map (·.map fun n => Value.int (-n)))
  have hW' := Value.isMatrix_tuple (ns'.map (·.map fun n => Value.int (-n)))
  rw [matrix_eq_bimatrix hV hW hrows hcolumns, matrix_eq_bimatrix hV' hW' hrows hcolumns]
  refine bimatrix_congr hV hW hrows hcolumns hV' hW' fun i hi j hj => ?_
  simp only [cell?_map, hcells i hi j hj, and_self]

end ZeroSum

/-! ### Both sides are treated alike -/

section Symmetric

variable {moves utilities : Value} {ms us : List Value} (hmoves : moves.items = .ok ms)
  (hutilities : utilities.items = .ok us)

/-- The utilities in a row and a column of a game that is given by those of the first player. -/
def swappedAt (us : List Value) (size i j : Nat) : Value :=
  .tuple [us.getD (i * size + j) .null, us.getD (j * size + i) .null]

include hmoves hutilities

theorem symmetric_eq : (symmetric name moves utilities : Except Fault (NormalForm σ)) =
    if us.length = ms.length * ms.length then
      ofRows name ms ms fun i j => .ok (swappedAt us ms.length i j)
    else .error (.refused (.symmetricUtilities ms.length us.length)) := by
  unfold symmetric
  rw [hmoves, hutilities, Run.except_ok_bind, Run.except_ok_bind]
  rfl

theorem ofTable_of_symmetric {g : NormalForm σ} (hg : symmetric name moves utilities = .ok g) :
    us.length = ms.length * ms.length ∧ ofTable name (.tuple [.tuple ms, .tuple ms])
      (Table.grid ms ms (swappedAt us ms.length)) = .ok g := by
  rw [symmetric_eq hmoves hutilities] at hg
  split at hg
  · exact ⟨‹_›, ((ofRows_eq_ok_iff fun _ _ _ h => (Except.ok.inj h).symm).1 hg).2⟩
  · cases hg

theorem exists_symmetric_iff : (∃ g : NormalForm σ, symmetric name moves utilities = .ok g) ↔
    us.length = ms.length * ms.length ∧ Value.AreMoves ms ∧ Value.AreHashable ms := by
  have hiff : (∃ g : NormalForm σ, ofRows name ms ms (fun i j => .ok (swappedAt us ms.length i j)) =
      .ok g) ↔ _ :=
    exists_ofRows_iff (fun _ _ _ h => (Except.ok.inj h).symm) fun _ _ => ⟨_, _, rfl⟩
  rw [and_self, and_self] at hiff
  rw [symmetric_eq hmoves hutilities]
  split
  · rename_i hlength
    rw [hiff]
    simp [hlength]
  · rename_i hlength
    exact ⟨nofun, fun h => absurd h.1 hlength⟩

/-- When both players swap their moves, they swap what they are paid. -/
theorem payoff_symmetric {g : NormalForm σ} {r c : Value}
    (hg : symmetric name moves utilities = .ok g) (hr : r.isAmong ms = true)
    (hc : c.isAmong ms = true) :
    ∃ a b, g.payoff ⟨[r, c]⟩ = pure ⟨[a, b]⟩ ∧ g.payoff ⟨[c, r]⟩ = pure ⟨[b, a]⟩ := by
  obtain ⟨-, htable⟩ := ofTable_of_symmetric hmoves hutilities hg
  obtain ⟨i, hi⟩ := Table.exists_lastPlace hr
  obtain ⟨j, hj⟩ := Table.exists_lastPlace hc
  exact ⟨_, _, payoff_grid (fun _ _ => ⟨_, _, rfl⟩) htable hi hj rfl,
    payoff_grid (fun _ _ => ⟨_, _, rfl⟩) htable hj hi rfl⟩

/-- The game is that of two matrices: the utilities row by row, and the same column by column. -/
theorem bimatrix_of_symmetric {g : NormalForm σ} {U W : Value} {rows columns : List (List Value)}
    (hg : symmetric name moves utilities = .ok g) (hU : U.IsMatrix rows) (hW : W.IsMatrix columns)
    (hrows : rows.flatten = us) (hshape : HasShape rows ms.length ms.length)
    (htranspose : ∀ i j, cell? columns j i = cell? rows i j) :
    bimatrix name moves moves U W = .ok g := by
  obtain ⟨hlength, htable⟩ := ofTable_of_symmetric hmoves hutilities hg
  have hcell {i j : Nat} (hj : j < ms.length) : us[i * ms.length + j]? = cell? rows i j := by
    rw [← hrows]
    exact getElem?_flatten hshape.2 hj
  have hreaches : Reaches rows ms.length ms.length := by
    intro i hi j hj
    have hless : i * ms.length + j < us.length := by
      rw [hlength]
      calc i * ms.length + j < (i + 1) * ms.length := by rw [Nat.succ_mul]; omega
        _ ≤ ms.length * ms.length := Nat.mul_le_mul_right _ hi
    rw [← hcell hj, List.getElem?_eq_getElem hless]
    rfl
  have hreaches' : Reaches columns ms.length ms.length := by
    intro i hi j hj
    rw [htranspose]
    exact hreaches j hj i hi
  rw [bimatrix_eq hmoves hmoves, ← hg, symmetric_eq hmoves hutilities, if_pos hlength]
  refine ofRows_congr fun i hi j hj => ?_
  obtain ⟨v, hv⟩ := (readable_iff hU hW).2 ⟨hreaches, hreaches'⟩ i hi j hj
  rw [hv, eq_pairAt hU hW hv, pairAt, swappedAt, List.getD_eq_getElem?_getD,
    List.getD_eq_getElem?_getD, hcell hj, hcell hi, htranspose]

end Symmetric

/-! ### What matrices promise -/

/-- The constructors keep what the matrices promise, however often a move is declared. A game that
is made by `symmetric` pays two players who swap their moves each what the other one was paid, and
it is that of the matrix of its utilities and of the transposed one. A game that is made by `matrix`
is that of the matrix and of its negation, both utilities of every profile add up to zero, and so it
is for zero. A game that is made by `bimatrix` pays two moves what stands in both matrices at the
last places of moves that match them. -/
theorem matrices_keep_algebra (name : String) :
    (∀ (moves utilities : Value) (ms us : List Value), moves.items = .ok ms →
      utilities.items = .ok us → ∀ g : NormalForm σ, symmetric name moves utilities = .ok g →
        (∀ move ∈ ms, move.isAmong ms = true) ∧
        (∀ r c, r.isAmong ms = true → c.isAmong ms = true → ∃ a b,
          g.payoff ⟨[r, c]⟩ = pure ⟨[a, b]⟩ ∧ g.payoff ⟨[c, r]⟩ = pure ⟨[b, a]⟩) ∧
        ∀ (U W : Value) (rows columns : List (List Value)), U.IsMatrix rows → W.IsMatrix columns →
          HasShape rows ms.length ms.length → rows.flatten = us →
          (∀ i j, cell? columns j i = cell? rows i j) → bimatrix name moves moves U W = .ok g) ∧
    (∀ (rows columns V W : Value) (rs cs : List Value) (ns : List (List Int)),
      rows.items = .ok rs → columns.items = .ok cs → V.IsMatrix (ns.map (·.map .int)) →
      W.IsMatrix (ns.map (·.map fun n => .int (-n))) →
      ∀ g : NormalForm σ, matrix name rows columns V = .ok g →
        bimatrix name rows columns V W = .ok g ∧
        (∀ p, g.isValidProfile p = true → ∃ n : Int, g.payoff p = pure ⟨[.int n, .int (-n)]⟩) ∧
        g.isZeroSum = pure true) ∧
    ∀ (rows columns R C : Value) (rs cs : List Value) (us vs : List (List Value)),
      rows.items = .ok rs → columns.items = .ok cs → R.IsMatrix us → C.IsMatrix vs →
      ∀ g : NormalForm σ, bimatrix name rows columns R C = .ok g →
        (∀ move ∈ rs, move.isAmong rs = true) ∧ (∀ move ∈ cs, move.isAmong cs = true) ∧
        ∀ r c, r.isAmong rs = true → c.isAmong cs = true → ∃ i j a b,
          LastPlace rs r i ∧ LastPlace cs c j ∧ cell? us i j = some a ∧ cell? vs i j = some b ∧
            g.payoff ⟨[r, c]⟩ = pure ⟨[a, b]⟩ := by
  refine ⟨fun moves utilities ms us hmoves hutilities g hg => ⟨?_, ?_, ?_⟩,
    fun rows columns V W rs cs ns hrows hcolumns hV hW g hg => ⟨?_, ?_, ?_⟩,
    fun rows columns R C rs cs us vs hrows hcolumns hR hC g hg => ?_⟩
  · exact ((exists_symmetric_iff hmoves hutilities).1 ⟨g, hg⟩).2.1.2
  · intro r c hr hc
    exact payoff_symmetric hmoves hutilities hg hr hc
  · intro U W rows columns hU hW hshape hrows htranspose
    exact bimatrix_of_symmetric hmoves hutilities hg hU hW hrows hshape htranspose
  · rw [← matrix_eq_bimatrix hV hW hrows hcolumns]
    exact hg
  · intro p hp
    exact payoff_matrix hV hW hrows hcolumns hg hp
  · exact isZeroSum_matrix hV hW hrows hcolumns hg
  · obtain ⟨hrs, hcs⟩ := ((exists_bimatrix_iff hR hC hrows hcolumns).1 ⟨g, hg⟩).1.1
    refine ⟨hrs.2, hcs.2, fun r c hr hc => ?_⟩
    exact payoff_bimatrix hR hC hrows hcolumns hg hr hc

/-- A move that is declared twice, in two spellings: only the last row and column of the utilities
count, in the game of both players' prospects as in that of two matrices. -/
theorem same_move_twice_keeps_algebra :
    ∃ g g' : NormalForm Unit,
      symmetric "" (.tuple [.bool true, .int 1]) (.tuple [.int 1, .int 2, .int 3, .int 4]) = .ok g ∧
      bimatrix "" (.tuple [.bool true, .int 1]) (.tuple [.bool true, .int 1])
        (.list [.list [.int 1, .int 2], .list [.int 3, .int 4]])
        (.list [.list [.int 1, .int 3], .list [.int 2, .int 4]]) = .ok g ∧
      g.payoff ⟨[.int 1, .bool true]⟩ = pure ⟨[.int 4, .int 4]⟩ ∧
      matrix "" (.text "a") (.text "bb") (.list [.list [.int 1, .int 2]]) = .ok g' ∧
      g'.isZeroSum = pure true := by
  obtain ⟨hsymmetric, hmatrix, hbimatrix⟩ := matrices_keep_algebra (σ := Unit) ""
  let us : List (List Value) := [[.int 1, .int 2], [.int 3, .int 4]]
  let vs : List (List Value) := [[.int 1, .int 3], [.int 2, .int 4]]
  have htwice : Value.AreMoves [.bool true, .int 1] := by decide
  have hmoves : (Value.tuple [.bool true, .int 1]).items = .ok [.bool true, .int 1] := rfl
  have hutilities : (Value.tuple [.int 1, .int 2, .int 3, .int 4]).items =
      .ok [.int 1, .int 2, .int 3, .int 4] := rfl
  obtain ⟨g, hg⟩ := (exists_symmetric_iff hmoves hutilities).2 ⟨rfl, htwice, by decide⟩
  have htranspose : ∀ i j, cell? vs j i = cell? us i j := by
    rintro (_ | _ | i) (_ | _ | j) <;> rfl
  have hg' := (hsymmetric _ _ _ _ rfl rfl g hg).2.2 _ _ us vs (Value.isMatrix_list us)
    (Value.isMatrix_list vs) ⟨rfl, by simp [us]⟩ rfl htranspose
  obtain ⟨i, j, a, b, hi, hj, ha, hb, hpayoff⟩ := (hbimatrix _ _ _ _ _ _ us vs rfl rfl
    (Value.isMatrix_list us) (Value.isMatrix_list vs) g hg').2.2 (.int 1) (.bool true) rfl rfl
  have hlast {move : Value} (h : (Value.int 1).alike move = true) :
      LastPlace [.bool true, .int 1] move 1 := by
    refine ⟨⟨.int 1, rfl, h⟩, fun {k m} hk hm => ?_⟩
    obtain ⟨hless, -⟩ := List.getElem?_eq_some_iff.1 hm
    exact absurd hless (Nat.not_lt.2 hk)
  obtain rfl := Table.lastPlace_unique hi (hlast rfl)
  obtain rfl := Table.lastPlace_unique hj (hlast rfl)
  cases ha
  cases hb
  have hV := Value.isMatrix_list [[.int 1, .int 2]]
  have hrows : (Value.text "a").items = .ok [.text "a"] := rfl
  have hcolumns : (Value.text "bb").items = .ok [.text "b", .text "b"] := rfl
  have hreaches : Reaches [[(1 : Int), 2]] 1 2 := by decide
  obtain ⟨g', hmatrix'⟩ :=
    (exists_matrix_iff hrows hcolumns hV).2 ⟨by decide, hreaches⟩
  have hzero := (hmatrix _ _ _ _ _ _ [[1, 2]] rfl rfl hV
    (Value.isMatrix_list [[.int (-1), .int (-2)]]) g' hmatrix').2.2
  exact ⟨g, g', hg, hg', hpayoff, hmatrix', hzero⟩

/-- The constructors take matrices that reach as far as there are moves, and refuse all others. The
moves have to be found again and to be members of keys: what holds a list is none, and then there is
no game, and looking at the key may fail instead. What lies beyond the moves is not looked at: with
anything else there, the game is the same. -/
theorem matrices_have_to_reach (name : String) {rows columns : Value} {rs cs : List Value}
    (hrows : rows.items = .ok rs) (hcolumns : columns.items = .ok cs) :
    (∀ (R C : Value) (us vs : List (List Value)), R.IsMatrix us → C.IsMatrix vs →
      ((∃ g : NormalForm σ, bimatrix name rows columns R C = .ok g) ↔
        ((Value.AreMoves rs ∧ Value.AreMoves cs) ∧ Value.AreHashable rs ∧ Value.AreHashable cs) ∧
          Reaches us rs.length cs.length ∧ Reaches vs rs.length cs.length) ∧
      ((∃ g : NormalForm σ, bimatrix name rows columns R C = .ok g) ∨
        Refused (bimatrix name rows columns R C : Except Fault (NormalForm σ)) ∨
        (bimatrix name rows columns R C : Except Fault (NormalForm σ)) = .error .wrongType ∧
          ¬ (Value.AreHashable rs ∧ Value.AreHashable cs)) ∧
      ∀ (R' C' : Value) (us' vs' : List (List Value)), R'.IsMatrix us' → C'.IsMatrix vs' →
        (∀ i < rs.length, ∀ j < cs.length,
          cell? us' i j = cell? us i j ∧ cell? vs' i j = cell? vs i j) →
        (bimatrix name rows columns R' C' : Except Fault (NormalForm σ)) =
          bimatrix name rows columns R C) ∧
    ∀ (V : Value) (ns : List (List Int)), V.IsMatrix (ns.map (·.map .int)) →
      ((∃ g : NormalForm σ, matrix name rows columns V = .ok g) ↔
        ((Value.AreMoves rs ∧ Value.AreMoves cs) ∧ Value.AreHashable rs ∧ Value.AreHashable cs) ∧
          Reaches ns rs.length cs.length) ∧
      ((∃ g : NormalForm σ, matrix name rows columns V = .ok g) ∨
        Refused (matrix name rows columns V : Except Fault (NormalForm σ)) ∨
        (matrix name rows columns V : Except Fault (NormalForm σ)) = .error .wrongType ∧
          ¬ (Value.AreHashable rs ∧ Value.AreHashable cs)) ∧
      ∀ (V' : Value) (ns' : List (List Int)), V'.IsMatrix (ns'.map (·.map .int)) →
        (∀ i < rs.length, ∀ j < cs.length, cell? ns' i j = cell? ns i j) →
        (matrix name rows columns V' : Except Fault (NormalForm σ)) =
          matrix name rows columns V := by
  refine ⟨fun R C us vs hR hC => ⟨?_, ?_, ?_⟩, fun V ns hV => ⟨?_, ?_, ?_⟩⟩
  · exact exists_bimatrix_iff hR hC hrows hcolumns
  · exact bimatrix_result hR hC hrows hcolumns
  · intro R' C' us' vs' hR' hC' hcells
    exact bimatrix_congr hR hC hrows hcolumns hR' hC' hcells
  · exact exists_matrix_iff hrows hcolumns hV
  · exact matrix_result hrows hcolumns hV
  · intro V' ns' hV' hcells
    exact matrix_congr hrows hcolumns hV hV' hcells

/-- A second column is not looked at where there is one move, and a missing one is missed. -/
theorem second_column_is_not_looked_at :
    (∃ g : NormalForm Unit, bimatrix "" (.text "a") (.text "b") (.list [.list [.int 1, .int 2]])
      (.list [.list [.int 1]]) = .ok g) ∧
    Refused (bimatrix "" (.text "a") (.text "b") (.list [.list []]) (.list [.list [.int 1]]) :
      Except Fault (NormalForm Unit)) := by
  have hrows : (Value.text "a").items = .ok [.text "a"] := rfl
  have hcolumns : (Value.text "b").items = .ok [.text "b"] := rfl
  obtain ⟨hbimatrix, -⟩ := matrices_have_to_reach (σ := Unit) "" hrows hcolumns
  have hone := Value.isMatrix_list [[.int 1]]
  refine ⟨?_, ?_⟩
  · exact (hbimatrix _ _ _ _ (Value.isMatrix_list [[.int 1, .int 2]]) hone).1.2
      ⟨⟨by decide, by decide⟩, by decide, by decide⟩
  · obtain ⟨hiff, hor, -⟩ := hbimatrix _ _ _ _ (Value.isMatrix_list [[]]) hone
    have hnone := hor.resolve_left fun hg => absurd (hiff.1 hg).2.1 (by decide)
    exact hnone.resolve_right fun hwrong => absurd hwrong.2 (not_not_intro (by decide))

/-- So it is not true that there is a game only if both matrices have the shape of the moves. -/
theorem shape_is_not_asked_for : ¬ ∀ (rs cs : List Value) (us vs : List (List Value)),
    rs ≠ [] → cs ≠ [] →
      ((∃ g : NormalForm Unit, bimatrix "" (.list rs) (.list cs) (.list (us.map .list))
        (.list (vs.map .list)) = .ok g) ↔
          HasShape us rs.length cs.length ∧ HasShape vs rs.length cs.length) := by
  intro h
  have hshape := (h [.text "a"] [.text "b"] [[.int 1, .int 2]] [[.int 1]] (List.cons_ne_nil _ _)
    (List.cons_ne_nil _ _)).1 ((exists_bimatrix_iff (Value.isMatrix_list _) (Value.isMatrix_list _)
      rfl rfl).2 ⟨⟨by decide, by decide⟩, by decide, by decide⟩)
  exact absurd hshape (by decide)

end NormalForm

end ExtensiveForm
