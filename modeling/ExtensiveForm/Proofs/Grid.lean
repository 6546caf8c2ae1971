import ExtensiveForm.Proofs.PayoffTable

/-!
# Tables with rows and columns

A table for two players has an entry for each row and each column. Moves may be declared more than
once, and then later rows and columns replace earlier ones. So it is the last place of a move that
counts, `LastPlace`, and the table holds for two moves what stands at the last places of both,
`Table.find?_grid`. From this follow the games given by such a table: when there is one,
`NormalForm.exists_ofTable_grid_iff`, and what it pays, `NormalForm.payoff_grid`. The constructors
read such a table entry by entry, `NormalForm.ofRows`, so an entry that is missing is found before
the moves are looked at that it is for.
-/

namespace ExtensiveForm

/-- The last of some moves that match a move stands at this place. -/
structure LastPlace (moves : List Value) (move : Value) (place : Nat) : Prop where
  here : ∃ m, moves[place]? = some m ∧ m.alike move = true
  later {k : Nat} {m : Value} (hk : place < k) (hm : moves[k]? = some m) : m.alike move = false

theorem LastPlace.lt_length {moves : List Value} {move : Value} {place : Nat}
    (h : LastPlace moves move place) : place < moves.length := by
  obtain ⟨m, hm, -⟩ := h.here
  exact (List.getElem?_eq_some_iff.1 hm).1

namespace Table

variable {β γ δ : Type} {moves rows columns : List Value} {move key r c : Value} {place : Nat}

theorem last?_append (xs ys : List (Value × β)) :
    last? (xs ++ ys) key = (last? ys key).or (last? xs key) := by
  rw [last?, List.reverse_append, List.find?_append, Option.map_or]
  rfl

/-- The last place of a move is the last number of it, where the moves are numbered. -/
theorem last?_zipIdx : last? moves.zipIdx move = some place ↔ LastPlace moves move place := by
  rw [last?_eq_some_iff]
  constructor
  · rintro ⟨before, m, after, hsplit, hm, hafter⟩
    have hat (k : Nat) : moves[k]?.map (·, k) = (before ++ (m, place) :: after)[k]? := by
      rw [← hsplit, List.getElem?_zipIdx, Nat.zero_add]
    have hplace := hat before.length
    rw [List.getElem?_append_right (Nat.le_refl _), Nat.sub_self, List.getElem?_cons_zero,
      Option.map_eq_some_iff] at hplace
    obtain ⟨_, hhere, heq⟩ := hplace
    cases heq
    refine ⟨⟨m, hhere, hm⟩, fun {k m'} hk hm' => ?_⟩
    have hlater := hat k
    rw [hm', List.getElem?_append_right (Nat.le_of_lt hk), List.getElem?_cons,
      if_neg (by omega)] at hlater
    exact hafter (m', k) (List.mem_of_getElem? hlater.symm)
  · rintro ⟨⟨m, hhere, hm⟩, hlater⟩
    have hless : place < moves.zipIdx.length := by
      rw [List.length_zipIdx]
      exact (List.getElem?_eq_some_iff.1 hhere).1
    have hat : moves.zipIdx[place] = (m, place) := by
      simp [(List.getElem?_eq_some_iff.1 hhere).2]
    refine ⟨moves.zipIdx.take place, m, moves.zipIdx.drop (place + 1), ?_, hm, fun e he => ?_⟩
    · rw [← hat, ← List.drop_eq_getElem_cons hless, List.take_append_drop]
    · obtain ⟨k, hk, rfl⟩ := List.mem_drop_iff_getElem.1 he
      exact hlater (k := place + 1 + k) (by omega) (by simp)

/-- A move has a last place among some moves when it matches one of them. -/
theorem isSome_last?_zipIdx : (last? moves.zipIdx move).isSome = move.isAmong moves := by
  rw [Bool.eq_iff_iff, Value.isAmong, List.any_eq_true, ← not_iff_not,
    Option.not_isSome_iff_eq_none, last?_eq_none_iff]
  constructor
  · rintro hnone ⟨m, hm, halike⟩
    obtain ⟨k, hk, rfl⟩ := List.getElem_of_mem hm
    have hother := hnone (moves[k], k)
      (List.mem_zipIdx_iff_getElem?.2 (List.getElem?_eq_getElem hk))
    rw [Value.alike_symm halike] at hother
    cases hother
  · intro hnone e he
    refine Bool.eq_false_iff.2 fun halike => hnone ⟨e.1, ?_, Value.alike_symm halike⟩
    exact List.mem_of_getElem? (List.mem_zipIdx_iff_getElem?.1 he)

theorem exists_lastPlace (h : move.isAmong moves = true) : ∃ place, LastPlace moves move place := by
  rw [← isSome_last?_zipIdx, Option.isSome_iff_exists] at h
  obtain ⟨place, hplace⟩ := h
  exact ⟨place, last?_zipIdx.1 hplace⟩

theorem lastPlace_unique {place' : Nat} (h : LastPlace moves move place)
    (h' : LastPlace moves move place') : place = place' := by
  rw [← last?_zipIdx] at h h'
  exact Option.some.inj (h.symm.trans h')

/-- A tuple of two moves matches another one when both moves do. -/
theorem pair_alike (a b : Value) :
    (Value.tuple [a, b]).alike (.tuple [r, c]) = (a.alike r && b.alike c) := by
  rw [Bool.eq_iff_iff, Value.tuple_alike, Bool.and_eq_true]
  simp [Value.AllAlike]

theorem last?_row (a : Value) (ys : List (Value × γ)) (g : γ → δ) :
    last? (ys.map fun y => (.tuple [a, y.1], g y.2)) (.tuple [r, c]) =
      if a.alike r then (last? ys c).map g else none := by
  simp only [last?, ← List.map_reverse, List.find?_map, Option.map_map, Function.comp_def,
    pair_alike]
  cases a.alike r <;> simp

/-- Of the entries for all pairs of a row and a column, the last one for two moves is that of the
last row for the one and the last column for the other. -/
theorem last?_pairs (xs : List (Value × β)) (ys : List (Value × γ)) (f : β → γ → δ) :
    last? (xs.flatMap fun x => ys.map fun y => (.tuple [x.1, y.1], f x.2 y.2)) (.tuple [r, c]) =
      (last? xs r).bind fun b => (last? ys c).map (f b) := by
  induction xs using List.reverseRecOn with
  | nil => rfl
  | append_singleton xs x ih =>
      rw [List.flatMap_append, last?_append, ih, List.flatMap_singleton, last?_row, last?_concat]
      by_cases hrow : x.1.alike r = true
      · rw [if_pos hrow, if_pos hrow]
        cases last? ys c <;> simp
      · rw [if_neg hrow, if_neg hrow]
        rfl

/-- The entries of a table with these rows and columns, row by row. -/
def gridEntries (rows columns : List Value) (entry : Nat → Nat → β) : List (Value × β) :=
  rows.zipIdx.flatMap fun (row, i) =>
    columns.zipIdx.map fun (column, j) => (.tuple [row, column], entry i j)

/-- The table with these rows and columns. -/
def grid (rows columns : List Value) (entry : Nat → Nat → β) : Table β :=
  ofList (gridEntries rows columns entry)

variable {u : Nat → Nat → β}

theorem find?_grid : (grid rows columns u).find? (.tuple [r, c]) =
    (last? rows.zipIdx r).bind fun i => (last? columns.zipIdx c).map (u i) := by
  rw [grid, find?_ofList]
  exact last?_pairs rows.zipIdx columns.zipIdx u

theorem distinct_grid : (grid rows columns u).Distinct :=
  distinct_ofList _

theorem mem_grid {e : Value × β} (he : e ∈ (grid rows columns u).entries) :
    (∃ row ∈ rows, ∃ column ∈ columns, e.1 = .tuple [row, column]) ∧ ∃ i j, e.2 = u i j := by
  have hmem {e : Value × β} (he : e ∈ gridEntries rows columns u) :
      (∃ row ∈ rows, ∃ column ∈ columns, e.1 = .tuple [row, column]) ∧ ∃ i j, e.2 = u i j := by
    obtain ⟨⟨row, i⟩, hrow, he⟩ := List.mem_flatMap.1 he
    obtain ⟨⟨column, j⟩, hcolumn, rfl⟩ := List.mem_map.1 he
    exact ⟨⟨row, List.fst_mem_of_mem_zipIdx hrow, column, List.fst_mem_of_mem_zipIdx hcolumn, rfl⟩,
      i, j, rfl⟩
  obtain ⟨hkey, hentry⟩ := mem_of_mem_ofList he
  obtain ⟨e', he', heq⟩ := List.mem_map.1 hkey
  obtain ⟨e'', he'', heq'⟩ := List.mem_map.1 hentry
  rw [← heq, ← heq']
  exact ⟨(hmem he').1, (hmem he'').2⟩

theorem tupleKeys_grid {u : Nat → Nat → Value} : (grid rows columns u).TupleKeys := by
  intro e he
  obtain ⟨⟨row, -, column, -, hkey⟩, -⟩ := mem_grid he
  exact ⟨[row, column], hkey⟩

/-- The moves of such a table can be members of keys just if those of its rows and columns can. -/
theorem keyed_grid_iff {u : Nat → Nat → Value} : (grid rows columns u).Keyed [rows, columns] ↔
    Value.AreHashable rows ∧ Value.AreHashable columns := by
  constructor
  · rintro ⟨hmoves, -⟩
    exact ⟨hmoves _ (.head _), hmoves _ (.tail _ (.head _))⟩
  · rintro ⟨hrows, hcolumns⟩
    refine ⟨by simp [hrows, hcolumns], fun e he => ?_⟩
    obtain ⟨⟨row, hrow, column, hcolumn, hkey⟩, -⟩ := mem_grid he
    rw [hkey, Value.members_eq rfl, ← Value.isHashable_tuple, Value.isHashable_pair]
    exact ⟨hrows row hrow, hcolumns column hcolumn⟩

end Table

/-- There are some moves, and each of them matches one of them: itself, if not another one. -/
def Value.AreMoves (moves : List Value) : Prop :=
  moves ≠ [] ∧ ∀ move ∈ moves, move.isAmong moves = true

instance (moves : List Value) : Decidable (Value.AreMoves moves) :=
  inferInstanceAs (Decidable (moves ≠ [] ∧ ∀ move ∈ moves, move.isAmong moves = true))

namespace NormalForm

variable {σ : Type} {name : String} {rows columns : List Value} {u : Nat → Nat → Value}

section Grid

variable (hsized : ∀ i j, ∃ a b, u i j = .tuple [a, b])

include hsized

theorem sequences_grid : ∀ e ∈ (Table.grid rows columns u).entries,
    e.1.IsSequence ∧ e.2.IsSequence := by
  intro e he
  obtain ⟨⟨row, -, column, -, hkey⟩, i, j, hentry⟩ := Table.mem_grid he
  obtain ⟨a, b, hu⟩ := hsized i j
  rw [hkey, hentry, hu]
  exact ⟨⟨_, rfl⟩, ⟨_, rfl⟩⟩

/-- A table with rows and columns covers them when there are any and all of them can be found. -/
theorem covers_grid_iff : (Table.grid rows columns u).Covers [rows, columns] ↔
    Value.AreMoves rows ∧ Value.AreMoves columns := by
  have hsize : ∀ e ∈ (Table.grid rows columns u).entries, e.2.length = .ok 2 := by
    intro e he
    obtain ⟨-, i, j, hentry⟩ := Table.mem_grid he
    obtain ⟨a, b, hu⟩ := hsized i j
    rw [hentry, hu]
    rfl
  have hfound (r c : Value) : (∃ e ∈ (Table.grid rows columns u).entries, e.1.IsFor [r, c]) ↔
      r.isAmong rows = true ∧ c.isAmong columns = true := by
    rw [Table.exists_isFor_iff Table.tupleKeys_grid, Table.find?_grid, ← Table.isSome_last?_zipIdx,
      ← Table.isSome_last?_zipIdx]
    cases Table.last? rows.zipIdx r <;> cases Table.last? columns.zipIdx c <;> simp
  constructor
  · rintro ⟨-, hmoves, -, htotal⟩
    obtain ⟨hrows, hcolumns⟩ : rows ≠ [] ∧ columns ≠ [] := by simpa using hmoves
    have hpair {r c : Value} (hr : r ∈ rows) (hc : c ∈ columns) :
        [r, c] ∈ choices [rows, columns] :=
      mem_choices.2 (.cons hr (.cons hc .nil))
    obtain ⟨r₀, hr₀⟩ := List.exists_mem_of_ne_nil rows hrows
    obtain ⟨c₀, hc₀⟩ := List.exists_mem_of_ne_nil columns hcolumns
    refine ⟨⟨hrows, fun r hr => ?_⟩, hcolumns, fun c hc => ?_⟩
    · exact ((hfound r c₀).1 (htotal _ (hpair hr hc₀))).1
    · exact ((hfound r₀ c).1 (htotal _ (hpair hr₀ hc))).2
  · rintro ⟨⟨hrows, hself⟩, hcolumns, hself'⟩
    refine ⟨List.cons_ne_nil _ _, by simp [hrows, hcolumns], hsize, fun moves hmoves => ?_⟩
    cases mem_choices.1 hmoves with
    | cons hr hrest =>
        cases hrest with
        | cons hc hnil =>
            cases hnil
            exact (hfound _ _).2 ⟨hself _ hr, hself' _ hc⟩

/-- So such a table gives a game exactly then, if the moves can be members of keys. -/
theorem exists_ofTable_grid_iff :
    (∃ g : NormalForm σ, ofTable name (.tuple [.tuple rows, .tuple columns])
      (Table.grid rows columns u) = .ok g) ↔
        (Value.AreMoves rows ∧ Value.AreMoves columns) ∧
          Value.AreHashable rows ∧ Value.AreHashable columns := by
  have hsets : (Value.tuple [.tuple rows, .tuple columns]).itemLists = .ok [rows, columns] := rfl
  rw [exists_ofTable_iff (sequences_grid hsized) hsets, covers_grid_iff hsized,
    Table.keyed_grid_iff]

/-- The valid profiles are those of a move for each side. -/
theorem isValidProfile_grid_iff {g : NormalForm σ} {p : Profile}
    (hg : ofTable name (.tuple [.tuple rows, .tuple columns]) (Table.grid rows columns u) = .ok g) :
    g.isValidProfile p = true ↔
      ∃ r c, p = ⟨[r, c]⟩ ∧ r.isAmong rows = true ∧ c.isAmong columns = true := by
  rw [isValidProfile_iff, moveSets_of_ofTable (sequences_grid hsized) rfl hg]
  obtain ⟨moves⟩ := p
  constructor
  · intro h
    cases h with
    | cons hr hrest =>
        cases hrest with
        | cons hc hnil =>
            cases hnil
            exact ⟨_, _, rfl, hr, hc⟩
  · rintro ⟨r, c, heq, hr, hc⟩
    cases heq
    exact .cons hr (.cons hc .nil)

/-- Two moves are paid what stands at their last places. -/
theorem payoff_grid {g : NormalForm σ} {r c a b : Value} {i j : Nat}
    (hg : ofTable name (.tuple [.tuple rows, .tuple columns]) (Table.grid rows columns u) = .ok g)
    (hi : LastPlace rows r i) (hj : LastPlace columns c j) (hu : u i j = .tuple [a, b]) :
    g.payoff ⟨[r, c]⟩ = pure ⟨[a, b]⟩ := by
  rw [← Table.last?_zipIdx] at hi hj
  have hr : r.isAmong rows = true := by
    rw [← Table.isSome_last?_zipIdx, hi]
    rfl
  have hc : c.isAmong columns = true := by
    rw [← Table.isSome_last?_zipIdx, hj]
    rfl
  have hvalid := (isValidProfile_grid_iff hsized hg).2 ⟨r, c, rfl, hr, hc⟩
  obtain ⟨entry, utilities, hlast, hutilities, -, hpayoff⟩ :=
    payoff_eq_lastFor (sequences_grid hsized) rfl hg hvalid
  have hfind := (Table.lastFor_iff Table.distinct_grid Table.tupleKeys_grid).1 hlast
  rw [Table.find?_grid, hi, hj, Option.bind_some, Option.map_some, Option.some.injEq, hu] at hfind
  subst hfind
  cases hutilities
  exact hpayoff

end Grid

/-! ### Entries that are read one after another -/

/-- The entries for each row and each column. Each is read before its key is looked at. -/
def readRows (rows columns : List Value) (entry : Nat → Nat → Except Fault Value) :
    Except Fault (List (List (Value × Value))) :=
  rows.zipIdx.mapM fun row => columns.zipIdx.mapM fun column => do
    let utilities ← entry row.2 column.2
    return (← (Value.tuple [row.1, column.1]).asKey, utilities)

/-- The game of a table whose entries are read row by row. -/
def ofRows (name : String) (rows columns : List Value) (entry : Nat → Nat → Except Fault Value) :
    Except Fault (NormalForm σ) := do
  let entries ← readRows rows columns entry
  ofTable name (.tuple [.tuple rows, .tuple columns]) (Table.ofList entries.flatten)

section Rows

variable {entry entry' : Nat → Nat → Except Fault Value} {g : NormalForm σ}

/-- Only what is read for the rows and columns that there are matters. -/
theorem ofRows_congr (h : ∀ i < rows.length, ∀ j < columns.length, entry i j = entry' i j) :
    (ofRows name rows columns entry : Except Fault (NormalForm σ)) =
      ofRows name rows columns entry' := by
  refine congrArg (· >>= _) (mapM_congr fun row hrow => mapM_congr fun column hcolumn => ?_)
  rw [h row.2 (List.mem_zipIdx' hrow).1 column.2 (List.mem_zipIdx' hcolumn).1]

/-- All entries are read if each of them can be read and its key can be one, and only then. -/
theorem readRows_eq_ok_iff (hu : ∀ i j v, entry i j = .ok v → v = u i j)
    {entries : List (List (Value × Value))} :
    readRows rows columns entry = .ok entries ↔
      ((∀ i < rows.length, ∀ j < columns.length, ∃ v, entry i j = .ok v) ∧
        ∀ row ∈ rows, ∀ column ∈ columns, (Value.tuple [row, column]).isHashable = true) ∧
      entries = rows.zipIdx.map fun row => columns.zipIdx.map fun column =>
        (.tuple [row.1, column.1], u row.2 column.2) := by
  have hread (hentry : ∀ i < rows.length, ∀ j < columns.length, ∃ v, entry i j = .ok v)
      (hkeys : ∀ row ∈ rows, ∀ column ∈ columns, (Value.tuple [row, column]).isHashable = true) :
      readRows rows columns entry = .ok (rows.zipIdx.map fun row => columns.zipIdx.map fun column =>
        (.tuple [row.1, column.1], u row.2 column.2)) := by
    refine mapM_eq_map fun row hrow => mapM_eq_map fun column hcolumn => ?_
    obtain ⟨v, hv⟩ := hentry row.2 (List.mem_zipIdx' hrow).1 column.2 (List.mem_zipIdx' hcolumn).1
    have hkey := hkeys row.1 (List.fst_mem_of_mem_zipIdx hrow) column.1
      (List.fst_mem_of_mem_zipIdx hcolumn)
    rw [hv, Value.asKey_eq hkey, ← hu _ _ _ hv]
    rfl
  constructor
  · intro h
    have hcells {row column : Value × Nat} (hrow : row ∈ rows.zipIdx)
        (hcolumn : column ∈ columns.zipIdx) : (∃ v, entry row.2 column.2 = .ok v) ∧
          (Value.tuple [row.1, column.1]).isHashable = true := by
      obtain ⟨_, -, hinner⟩ := exists_of_mem_left (mapM_eq_ok_iff.1 h) hrow
      obtain ⟨_, -, he⟩ := exists_of_mem_left (mapM_eq_ok_iff.1 hinner) hcolumn
      obtain ⟨v, hv, he⟩ := Run.except_bind_eq_ok.1 he
      obtain ⟨_, hkey, -⟩ := Run.except_bind_eq_ok.1 he
      exact ⟨⟨v, hv⟩, (Value.asKey_eq_ok_iff.1 hkey).1⟩
    have hplace {moves : List Value} {k : Nat} (hk : k < moves.length) :
        (moves[k], k) ∈ moves.zipIdx :=
      List.mem_zipIdx_iff_getElem?.2 (List.getElem?_eq_getElem hk)
    have hentry : ∀ i < rows.length, ∀ j < columns.length, ∃ v, entry i j = .ok v :=
      fun i hi j hj => (hcells (hplace hi) (hplace hj)).1
    have hkeys : ∀ row ∈ rows, ∀ column ∈ columns,
        (Value.tuple [row, column]).isHashable = true := by
      intro row hrow column hcolumn
      obtain ⟨i, hi, rfl⟩ := List.getElem_of_mem hrow
      obtain ⟨j, hj, rfl⟩ := List.getElem_of_mem hcolumn
      exact (hcells (hplace hi) (hplace hj)).2
    exact ⟨⟨hentry, hkeys⟩, Except.ok.inj (h.symm.trans (hread hentry hkeys))⟩
  · rintro ⟨⟨hentry, hkeys⟩, rfl⟩
    exact hread hentry hkeys

/-- A game whose entries are read is that of the table with these entries. -/
theorem ofRows_eq_ok_iff (hu : ∀ i j v, entry i j = .ok v → v = u i j) :
    ofRows name rows columns entry = .ok g ↔
      ((∀ i < rows.length, ∀ j < columns.length, ∃ v, entry i j = .ok v) ∧
        ∀ row ∈ rows, ∀ column ∈ columns, (Value.tuple [row, column]).isHashable = true) ∧
      ofTable name (.tuple [.tuple rows, .tuple columns]) (Table.grid rows columns u) = .ok g := by
  rw [ofRows, Run.except_bind_eq_ok]
  constructor
  · rintro ⟨entries, hentries, hg⟩
    obtain ⟨hread, rfl⟩ := (readRows_eq_ok_iff hu).1 hentries
    exact ⟨hread, hg⟩
  · rintro ⟨hread, hg⟩
    exact ⟨_, (readRows_eq_ok_iff hu).2 ⟨hread, rfl⟩, hg⟩

variable (hu : ∀ i j v, entry i j = .ok v → v = u i j)
  (hsized : ∀ i j, ∃ a b, u i j = .tuple [a, b])

include hu hsized

theorem exists_ofRows_iff : (∃ g : NormalForm σ, ofRows name rows columns entry = .ok g) ↔
    ((Value.AreMoves rows ∧ Value.AreMoves columns) ∧
      Value.AreHashable rows ∧ Value.AreHashable columns) ∧
    ∀ i < rows.length, ∀ j < columns.length, ∃ v, entry i j = .ok v := by
  simp only [ofRows_eq_ok_iff hu, exists_and_left, exists_ofTable_grid_iff hsized]
  constructor
  · rintro ⟨⟨hentry, -⟩, hmoves⟩
    exact ⟨hmoves, hentry⟩
  · rintro ⟨⟨hmoves, hrows, hcolumns⟩, hentry⟩
    refine ⟨⟨hentry, fun row hrow column hcolumn => ?_⟩, hmoves, hrows, hcolumns⟩
    exact Value.isHashable_pair.2 ⟨hrows row hrow, hcolumns column hcolumn⟩

/-- If entries are refused or read, the game is refused, unless a move is no member of keys. -/
theorem ofRows_fails (hentry : ∀ i j, FailsWith Fault.IsRefusal (entry i j)) :
    FailsWith (Fault.IsRefusalIf (Value.AreHashable rows ∧ Value.AreHashable columns))
      (ofRows name rows columns entry : Except Fault (NormalForm σ)) := by
  have hread : FailsWith (Fault.IsRefusalIf (Value.AreHashable rows ∧ Value.AreHashable columns))
      (readRows rows columns entry) := by
    refine .mapM fun row hrow => .mapM fun column hcolumn => ?_
    have hkey : Value.AreHashable rows ∧ Value.AreHashable columns →
        (Value.tuple [row.1, column.1]).isHashable = true := fun hmoves =>
      Value.isHashable_pair.2 ⟨hmoves.1 _ (List.fst_mem_of_mem_zipIdx hrow),
        hmoves.2 _ (List.fst_mem_of_mem_zipIdx hcolumn)⟩
    refine ((hentry _ _).mono fun _ => .inl).bind fun utilities => ?_
    exact ((Value.asKey_fails hkey).mono fun _ => .inr).bind fun key => .ok _
  rw [ofRows]
  cases hentries : readRows rows columns entry with
  | error e => exact .error (hread e hentries)
  | ok entries =>
      obtain ⟨-, rfl⟩ := (readRows_eq_ok_iff hu).1 hentries
      have hsets : (Value.tuple [.tuple rows, .tuple columns]).itemLists = .ok [rows, columns] :=
        rfl
      refine (ofTable_fails (sequences_grid hsized) hsets).mono fun e he => ?_
      rwa [Table.keyed_grid_iff] at he

end Rows

end NormalForm

end ExtensiveForm
