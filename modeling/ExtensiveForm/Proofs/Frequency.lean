import Mathlib.Algebra.BigOperators.Group.List.Lemmas
import ExtensiveForm.Analysis.Frequency
import ExtensiveForm.Proofs.PlayerRounds

/-!
# How the rounds are divided by the texts of moves

Every round shows one move of a player, and the move has one text. The rows of `frequencyRows`
divide the rounds by these texts: there is one row for each text that some round has, with the
number of these rounds. `countOf` reads the number off the rows again, and is additive, so that a
history and the rounds that follow it are counted together or apart (`frequencies_divide_rounds`).
-/

namespace ExtensiveForm

variable {texts : List String} {text : String}

theorem nodup_eraseDups : (texts : List String) → texts.eraseDups.Nodup
  | [] => List.nodup_nil
  | text :: texts => by
      rw [List.eraseDups_cons, List.nodup_cons]
      refine ⟨fun hmem => ?_, nodup_eraseDups _⟩
      have hkept := (List.mem_filter.1 (List.mem_eraseDups.1 hmem)).2
      simp at hkept
termination_by texts => texts.length
decreasing_by exact Nat.lt_succ_of_le (List.length_filter_le _ _)

namespace FrequencyRow

theorem before_trans (a b c : FrequencyRow) (hab : before a b = true) (hbc : before b c = true) :
    before a c = true := by
  simp only [before, Bool.or_eq_true, Bool.and_eq_true, decide_eq_true_eq, beq_iff_eq] at *
  rcases hab with hab | ⟨hab, hle⟩
  · exact .inl (by omega)
  · rcases hbc with hbc | ⟨hbc, hle'⟩
    · exact .inl (by omega)
    · exact .inr ⟨by omega, String.le_trans hle hle'⟩

theorem before_total (a b : FrequencyRow) : (before a b || before b a) = true := by
  simp only [before, Bool.or_eq_true, Bool.and_eq_true, decide_eq_true_eq, beq_iff_eq]
  rcases Nat.lt_trichotomy a.count b.count with hlt | heq | hlt
  · exact .inr (.inl hlt)
  · rcases String.le_total a.move b.move with hle | hle
    · exact .inl (.inr ⟨heq, hle⟩)
    · exact .inr (.inr ⟨heq.symm, hle⟩)
  · exact .inl (.inl hlt)

/-- A row comes before another one that has a smaller count, or the same count and a greater text.
-/
def Precedes (a b : FrequencyRow) : Prop :=
  b.count < a.count ∨ b.count = a.count ∧ a.move < b.move

theorem precedes_of_before (a b : FrequencyRow) (h : before a b = true) (hne : a.move ≠ b.move) :
    a.Precedes b := by
  simp only [before, Bool.or_eq_true, Bool.and_eq_true, decide_eq_true_eq, beq_iff_eq] at h
  rcases h with hlt | ⟨heq, hle⟩
  · exact .inl hlt
  · exact .inr ⟨heq.symm, String.not_le.1 fun hge => hne (String.le_antisymm hle hge)⟩

end FrequencyRow

/-- The rows are those of the different texts, each with its count. -/
theorem frequencyRows_perm (texts : List String) :
    (frequencyRows texts).Perm (texts.eraseDups.map fun text => ⟨text, texts.count text⟩) :=
  List.mergeSort_perm _ _

theorem moves_frequencyRows_perm (texts : List String) :
    ((frequencyRows texts).map (·.move)).Perm texts.eraseDups := by
  have hperm := (frequencyRows_perm texts).map (·.move)
  rwa [List.map_map, show (fun row : FrequencyRow => row.move) ∘
    (fun text => ⟨text, texts.count text⟩) = id from rfl, List.map_id] at hperm

theorem nodup_frequencyRows (texts : List String) : ((frequencyRows texts).map (·.move)).Nodup :=
  (moves_frequencyRows_perm texts).nodup_iff.2 (nodup_eraseDups texts)

theorem mem_moves_frequencyRows : text ∈ (frequencyRows texts).map (·.move) ↔ text ∈ texts := by
  rw [(moves_frequencyRows_perm texts).mem_iff, List.mem_eraseDups]

theorem count_of_mem_frequencyRows {row : FrequencyRow} (h : row ∈ frequencyRows texts) :
    row.count = texts.count row.move := by
  obtain ⟨text, -, rfl⟩ := List.mem_map.1 ((frequencyRows_perm texts).mem_iff.1 h)
  rfl

theorem frequencyRows_ordered (texts : List String) :
    (frequencyRows texts).Pairwise FrequencyRow.Precedes :=
  pairwise_mergeSort_of_nodup FrequencyRow.before_trans FrequencyRow.before_total
    FrequencyRow.precedes_of_before
    (((frequencyRows_perm texts).map (·.move)).nodup_iff.1 (nodup_frequencyRows texts))

/-- Each text is counted in one row. -/
theorem sum_counts_frequencyRows (texts : List String) :
    ((frequencyRows texts).map (·.count)).sum = texts.length := by
  have hdedup : texts.eraseDups.Perm texts.dedup :=
    (List.perm_ext_iff_of_nodup (nodup_eraseDups texts) (List.nodup_dedup texts)).2 fun text => by
      rw [List.mem_eraseDups, List.mem_dedup]
  have hcounts : ((frequencyRows texts).map (·.count)).Perm (texts.dedup.map (texts.count ·)) := by
    have hperm := (frequencyRows_perm texts).map (·.count)
    rw [List.map_map] at hperm
    exact hperm.trans (hdedup.map _)
  rw [hcounts.sum_eq, List.sum_map_count_dedup_eq_length]

/-- How often some rows count a text: not at all, if they have no row for it. -/
def countOf (rows : List FrequencyRow) (text : String) : Nat :=
  (rows.find? (·.move == text)).elim 0 (·.count)

/-- What the rows count of a text is how often it was there. -/
theorem countOf_frequencyRows (texts : List String) (text : String) :
    countOf (frequencyRows texts) text = texts.count text := by
  unfold countOf
  cases hfound : (frequencyRows texts).find? (·.move == text) with
  | some row =>
      have hmove : row.move = text := by simpa using List.find?_some hfound
      rw [Option.elim_some, count_of_mem_frequencyRows (List.mem_of_find?_eq_some hfound), hmove]
  | none =>
      have habsent : text ∉ texts := by
        rw [← mem_moves_frequencyRows]
        intro hmem
        obtain ⟨row, hrow, rfl⟩ := List.mem_map.1 hmem
        simpa using List.find?_eq_none.1 hfound row hrow
      rw [Option.elim_none, List.count_eq_zero.2 habsent]

/-! ### The rows of one player -/

theorem repr_inj {m n : Nat} : m.repr = n.repr ↔ m = n := by
  refine ⟨fun h => ?_, fun h => h ▸ rfl⟩
  have hdigits : Nat.toDigits 10 m = Nat.toDigits 10 n := by
    rw [← Nat.toList_repr, ← Nat.toList_repr, h]
  rw [← Nat.ofDigitChars_toDigits (b := 10) (n := m) (by decide) (by decide), hdigits,
    Nat.ofDigitChars_toDigits (by decide) (by decide)]

/-- A sheet has a line for each of these rows, with the text and the count of the row. -/
def Sheet.Tells (sheet : Sheet) (rows : List FrequencyRow) : Prop :=
  ∃ share : FrequencyRow → Value,
    sheet.rows = rows.map fun row => [.text row.move, .int row.count, share row]

namespace History

variable {h h' : History} {player : Nat} {players : List PlayerRounds}
  {rounds : PlayerRounds} {sheet : Sheet}

/-- The moves of a player stand in the column that has the player's number in its name. -/
theorem columnNames_contains (m n : Nat) :
    (columnNames m).contains ("player" ++ n.repr ++ "_move") = decide (m = n) := by
  -- The names of columns of moves and of utilities end with different letters.
  have hpayoff : "player" ++ n.repr ++ "_move" ≠ "player" ++ m.repr ++ "_payoff" := by
    intro h
    have hlast := congrArg (fun name : String => name.toList.reverse.head?) h
    simp [String.toList_append] at hlast
  rw [List.contains_eq_mem, decide_eq_decide]
  show _ ∈ ["player" ++ m.repr ++ "_move", "player" ++ m.repr ++ "_payoff"] ↔ _
  rw [List.mem_pair, or_iff_left hpayoff, String.append_left_inj, String.append_right_inj, repr_inj,
    eq_comm]

/-- Who is looked for by a number is found at the place. -/
theorem find?_numbered (hrounds : players[player]? = some rounds)
    {isNamed : PlayerRounds × Nat → Bool}
    (hnamed : ∀ entry, isNamed entry = decide (entry.2 = player)) :
    players.zipIdx.find? isNamed = some (rounds, player) := by
  obtain ⟨hlt, hget⟩ := List.getElem?_eq_some_iff.1 hrounds
  refine List.find?_eq_some_iff_getElem.2 ⟨by simp [hnamed], player, by simpa using hlt,
    by simp [hget], fun earlier hearlier => ?_⟩
  simp only [List.getElem_zipIdx, Nat.zero_add, hnamed, Bool.not_eq_true', decide_eq_false_iff_not]
  omega

/-- The texts of the moves of a player are those of the player's rounds. -/
theorem moveTexts_eq (hplayers : h.playerRounds = .ok players)
    (hrounds : players[player]? = some rounds) :
    h.moveTexts (.int player) = .ok rounds.moves := by
  have hnamed (i : Nat) : (columnNames (i + 1)).contains
      ("player" ++ (Value.int (player + 1)).display ++ "_move") = decide (i = player) := by
    rw [show (Value.int (player + 1)).display = (player + 1).repr from rfl, columnNames_contains,
      decide_eq_decide, Nat.add_right_cancel_iff]
  refine Run.except_bind_eq_ok.2 ⟨players, hplayers, ?_⟩
  refine Run.except_bind_eq_ok.2 ⟨.int (player + 1), rfl, ?_⟩
  dsimp only
  rw [find?_numbered hrounds fun entry => hnamed entry.2]
  rfl

/-- Each round has a text for the moves of a player. -/
def HasTexts (h : History) (player : Nat) (texts : List String) : Prop :=
  List.Forall₂ (fun o text => roundText (.int player) o = .ok text) h.outcomes texts

/-- A player of a history has a sheet that tells the rows of the texts of the player's moves. -/
theorem exists_frequencySheet (hsheet : h.sheet = .ok sheet) (hplayer : player < h.width) :
    ∃ texts table, h.HasTexts player texts ∧ h.frequencySheet (.int player) = .ok table ∧
      table.columns = ["move", "count", "share"] ∧ table.Tells (frequencyRows texts) := by
  obtain ⟨players, rounds, hplayers, hrounds, hrecords⟩ := exists_records hsheet hplayer
  obtain ⟨o, ho, -⟩ := lt_width_iff.1 hplayer
  unfold frequencySheet
  rw [if_neg (length_ne_zero ho), moveTexts_eq hplayers hrounds]
  exact ⟨rounds.moves, _, hrecords.moves, rfl, rfl, _, List.map_congr_left fun _ _ => rfl⟩

/-- So has everyone whom each round pays, if there is no round at all. -/
theorem exists_table (hsheet : h.sheet = .ok sheet)
    (hpaid : ∀ o ∈ h.outcomes, player < o.payoff.values.length) :
    ∃ texts table, h.HasTexts player texts ∧ h.frequencySheet (.int player) = .ok table ∧
      table.Tells (frequencyRows texts) := by
  cases houtcomes : h.outcomes with
  | nil =>
      have hlength : h.length = 0 := by
        rw [← length_outcomes, houtcomes]
        rfl
      have hnone : frequencyRows [] = [] := List.mergeSort_nil
      refine ⟨[], .empty, ?_, if_pos hlength, fun _ => .null, ?_⟩
      · rw [HasTexts, houtcomes]
        exact .nil
      · rw [hnone]
        rfl
  | cons o rest =>
      have ho : o ∈ h.outcomes := houtcomes ▸ List.mem_cons_self
      obtain ⟨texts, table, htexts, htable, -, htells⟩ :=
        exists_frequencySheet hsheet (lt_width_iff.2 ⟨o, ho, hpaid o ho⟩)
      exact ⟨texts, table, htexts, htable, htells⟩

/-- The texts of rounds that follow others are added to theirs. -/
theorem HasTexts.addAll {texts texts' : List String} (ht : h.HasTexts player texts)
    (ht' : h'.HasTexts player texts') :
    (h.addAll h'.outcomes).HasTexts player (texts ++ texts') := by
  rw [HasTexts, outcomes_addAll]
  exact List.rel_append ht ht'

/-- Each round has one text. -/
theorem HasTexts.eq {texts texts' : List String} (ht : h.HasTexts player texts)
    (ht' : h.HasTexts player texts') : texts = texts' :=
  Except.ok.inj ((mapM_eq_ok_iff.2 ht).symm.trans (mapM_eq_ok_iff.2 ht'))

end History

/-- A text stands for the move of a player in a round when it is the text of the move that the round
shows. -/
def Outcome.HasText (player : Nat) (o : Outcome) (text : String) : Prop :=
  ∃ move, o.Shows player move ∧ moveText move = text

namespace History

/-- Some rows divide the rounds of a history by the texts of the moves of a player: there is one row
for each text that some round has, the row has the number of these rounds, and it stands behind
those with greater numbers, and with the same number and a smaller text. -/
structure Divided (h : History) (player : Nat) (rows : List FrequencyRow) : Prop where
  nodup : (rows.map (·.move)).Nodup
  mem_iff (text : String) : text ∈ rows.map (·.move) ↔ ∃ o ∈ h.outcomes, o.HasText player text
  counts : ∃ texts, List.Forall₂ (Outcome.HasText player) h.outcomes texts ∧
    ∀ row ∈ rows, row.count = texts.count row.move
  sum : (rows.map (·.count)).sum = h.length
  ordered : rows.Pairwise FrequencyRow.Precedes

variable {h : History} {player : Nat} {texts : List String}

theorem HasTexts.hasText (ht : h.HasTexts player texts) :
    List.Forall₂ (Outcome.HasText player) h.outcomes texts :=
  ht.imp fun _ _ htext => by
    obtain ⟨move, hshows, -, hmove⟩ := Outcome.roundText_eq_ok.1 htext
    exact ⟨move, hshows, hmove⟩

/-- The rows of the texts of the rounds divide the rounds. -/
theorem HasTexts.divided (ht : h.HasTexts player texts) :
    h.Divided player (frequencyRows texts) where
  nodup := nodup_frequencyRows texts
  mem_iff text := by
    rw [mem_moves_frequencyRows]
    constructor
    · intro htext
      exact exists_of_mem_right ht.hasText htext
    · rintro ⟨o, ho, move, hshows, hmove⟩
      obtain ⟨text', htext', move', hshows', hmove'⟩ := exists_of_mem_left ht.hasText ho
      rw [← hmove, hshows.move_eq hshows', hmove']
      exact htext'
  counts := ⟨texts, ht.hasText, fun _ => count_of_mem_frequencyRows⟩
  sum := by
    rw [sum_counts_frequencyRows, ← ht.length_eq, length_outcomes]
  ordered := frequencyRows_ordered texts

/-- The frequencies of the moves of a player divide the rounds of a history that has a sheet: each
round is counted once, in the row of the text of the move that it shows. Where rounds are followed
by others and all of them have sheets, be it by themselves or together, each text is counted as
often in all of them as in both parts, if one takes a text without a row to be counted zero times.
-/
theorem frequencies_divide_rounds (player : Nat) :
    (∀ (h : History) (sheet : Sheet), h.sheet = .ok sheet → player < h.width →
      ∃ table rows, h.frequencySheet (.int player) = .ok table ∧
        table.columns = ["move", "count", "share"] ∧ table.Tells rows ∧ h.Divided player rows) ∧
    ∀ (h h' : History) (sheet sheet' sheet'' : Sheet), h.sheet = .ok sheet → h'.sheet = .ok sheet' →
      (h.addAll h'.outcomes).sheet = .ok sheet'' → player < (h.addAll h'.outcomes).width →
      ∃ table table' table'' rows rows' rows'',
        h.frequencySheet (.int player) = .ok table ∧ table.Tells rows ∧
        h'.frequencySheet (.int player) = .ok table' ∧ table'.Tells rows' ∧
        (h.addAll h'.outcomes).frequencySheet (.int player) = .ok table'' ∧ table''.Tells rows'' ∧
        ∀ text, countOf rows'' text = countOf rows text + countOf rows' text := by
  constructor
  · intro h sheet hsheet hplayer
    obtain ⟨texts, table, htexts, htable, hcolumns, htells⟩ := exists_frequencySheet hsheet hplayer
    exact ⟨table, _, htable, hcolumns, htells, htexts.divided⟩
  · intro h h' sheet sheet' sheet'' hsheet hsheet' hsheet'' hplayer
    obtain ⟨_, _, _, _, hrecords⟩ := exists_records hsheet'' hplayer
    have hpaid (o : Outcome) (ho : o ∈ h.outcomes ++ h'.outcomes) :
        player < o.payoff.values.length :=
      hrecords.lt_length ((outcomes_addAll h h'.outcomes).symm ▸ ho)
    obtain ⟨texts, table, htexts, htable, htells⟩ :=
      exists_table hsheet fun o ho => hpaid o (List.mem_append_left _ ho)
    obtain ⟨texts', table', htexts', htable', htells'⟩ :=
      exists_table hsheet' fun o ho => hpaid o (List.mem_append_right _ ho)
    obtain ⟨texts'', table'', htexts'', htable'', -, htells''⟩ :=
      exists_frequencySheet hsheet'' hplayer
    refine ⟨table, table', table'', _, _, _, htable, htells, htable', htells', htable'', htells'',
      fun text => ?_⟩
    rw [countOf_frequencyRows, countOf_frequencyRows, countOf_frequencyRows,
      htexts''.eq (htexts.addAll htexts'), List.count_append]

/-- A round with the profile of a single move. -/
def once (move : Value) : Outcome :=
  ⟨⟨[.int 1]⟩, some ⟨[move]⟩, .empty, none⟩

/-- A round with a profile and one without it, which begins with the same move. -/
def calls : History :=
  ⟨[twice (.text "go") (.text "stay"), once (.text "go")]⟩

/-- A single round. -/
def call : History :=
  ⟨[once (.text "go")]⟩

/-- The rounds of two histories are counted together and apart. -/
theorem calls_are_divided :
    (∃ table rows, calls.frequencySheet (.int (0 : Nat)) = .ok table ∧ table.Tells rows ∧
      calls.Divided 0 rows) ∧
    ∃ table table' table'' rows rows' rows'',
      calls.frequencySheet (.int (0 : Nat)) = .ok table ∧ table.Tells rows ∧
      call.frequencySheet (.int (0 : Nat)) = .ok table' ∧ table'.Tells rows' ∧
      (calls.addAll call.outcomes).frequencySheet (.int (0 : Nat)) = .ok table'' ∧
      table''.Tells rows'' ∧
        ∀ text, countOf rows'' text = countOf rows text + countOf rows' text := by
  obtain ⟨sheet, hsheet⟩ : ∃ sheet, calls.sheet = .ok sheet := ⟨_, rfl⟩
  obtain ⟨sheet', hsheet'⟩ : ∃ sheet', call.sheet = .ok sheet' := ⟨_, rfl⟩
  obtain ⟨sheet'', hsheet''⟩ : ∃ sheet'', (calls.addAll call.outcomes).sheet = .ok sheet'' :=
    ⟨_, rfl⟩
  obtain ⟨hdivided, hadded⟩ := frequencies_divide_rounds 0
  obtain ⟨table, rows, htable, -, htells, hrows⟩ := hdivided calls sheet hsheet (by decide)
  exact ⟨⟨table, rows, htable, htells, hrows⟩,
    hadded calls call sheet sheet' sheet'' hsheet hsheet' hsheet'' (by decide)⟩

end History

end ExtensiveForm
