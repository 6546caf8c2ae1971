import Mathlib.Order.Bounds.Defs
import ExtensiveForm.Analysis.Score
import ExtensiveForm.Proofs.Column
import ExtensiveForm.Proofs.Faults
import ExtensiveForm.Proofs.PlayerRounds
import ExtensiveForm.Proofs.Summary

/-!
# The score table and the history

What a player got in all rounds is reckoned twice: the score of a history adds the payoffs round by
round, and the score table takes the utilities of each player together and sorts the players by
their sums. `Tally.Tells` says what both have in common, and `score_table_tells` that the table has
such a line for each player and that the lines are in order.

The table is made of columns, one for the utilities of each player, and all of these have to be of
one type. The first utility settles the type of a column, so a truth value does no harm behind a
number, but a number behind a truth value does (`History.PaysAlike`). The moves stand in columns
beside the utilities, which is why a table needs moves that can be written, although it shows none
of them.
-/

namespace ExtensiveForm

/-- What a player got in the rounds of a history: in total, on average, at least and at most. -/
structure Tally where
  total : Int
  mean : Value
  least : Value
  greatest : Value

namespace Tally

/-- The line of a player in a table of so many rounds. -/
def entries (player rounds : Nat) (t : Tally) : List Value :=
  [.int (player + 1 : Nat), .int rounds, .int t.total, t.mean, t.least, t.greatest]

/-- What the tally tells of a player is what the history tells: the total is the player's utility in
the score, the bounds are the least and the greatest of the utilities, and the total is not outside
the bounds, taken for every round. -/
structure Tells (t : Tally) (h : History) (player : Nat) : Prop where
  score : ∃ score u, h.score = .ok score ∧ score.values[player]? = some u ∧ u.whole? = some t.total
  bounds : ∃ us low high, h.payoffsForPlayer (.int player) = .ok us ∧
    t.least.whole? = some low ∧ IsLeast {n | ∃ u ∈ us, u.whole? = some n} low ∧
    t.greatest.whole? = some high ∧ IsGreatest {n | ∃ u ∈ us, u.whole? = some n} high ∧
    h.length * low ≤ t.total ∧ t.total ≤ h.length * high

end Tally

/-- The value is a truth value. -/
def Value.isTruth : Value → Bool
  | .bool _ => true
  | _ => false

theorem Value.exists_eq_bool {v : Value} (h : v.isTruth = true) : ∃ b, v = .bool b := by
  cases v with
  | bool b => exact ⟨b, rfl⟩
  | _ => cases h

/-- A whole number that is no truth value is a number. -/
theorem Value.exists_eq_int {v : Value} (hwhole : v.IsWhole) (h : v.isTruth = false) :
    ∃ n, v = .int n := by
  cases v with
  | int n => exact ⟨n, rfl⟩
  | bool b => cases h
  | _ => cases hwhole

theorem Value.isWritable_natCast (n : Nat) :
    (Value.int n).isWritable = decide (n < Nat.pow 10 maxDigits) := by
  change isShort n = _
  unfold isShort
  rfl

instance (p : Payoff) (numPlayers : Int) : Decidable (p.PaysWhole numPlayers) :=
  decidable_of_iff ((p.values.length : Int) = numPlayers ∧ ∀ u ∈ p.values, u.whole?.isSome = true)
    ⟨fun ⟨hsized, hwhole⟩ => ⟨hsized, hwhole⟩, fun ⟨hsized, hwhole⟩ => ⟨hsized, hwhole⟩⟩

/-! ### The utilities of all players -/

namespace Takings

variable {type : EntryType} {column : Nat → Column} {numPlayers player : Nat}

/-- The takings of so many players with columns of one type, numbered from one on. -/
def together (type : EntryType) (column : Nat → Column) (numPlayers : Nat) : Takings :=
  ⟨type, (List.range numPlayers).flatMap fun player =>
    (column player).entries.map (player + 1, ·)⟩

theorem concat_cons {first : Takings} {rest : List Takings}
    (h : ∀ takings ∈ rest, takings.type.goesBelow first.type = true) :
    concat (first :: rest) = .ok ⟨first.type, (first :: rest).flatMap (·.rows)⟩ := by
  rw [concat, List.all_eq_true.2 h]
  rfl

/-- Columns of one type can be put one below the other. -/
theorem concat_eq (hsome : 1 ≤ numPlayers)
    (htype : ∀ player < numPlayers, (column player).type = type) :
    concat ((List.range numPlayers).map fun player => ofColumn (player + 1) (column player)) =
      .ok (together type column numPlayers) := by
  obtain ⟨others, rfl⟩ := Nat.exists_eq_add_of_le' hsome
  have hfirst : (ofColumn 1 (column 0)).type = type := htype 0 hsome
  rw [together, List.range_succ_eq_map, List.map_cons, concat_cons]
  · simp only [List.flatMap_cons, List.flatMap_map, List.map_map, hfirst]
    rfl
  · simp only [List.map_map, List.forall_mem_map, Function.comp_apply]
    intro player hplayer
    have htype' : (ofColumn (player.succ + 1) (column player.succ)).type = type :=
      htype _ (Nat.succ_lt_succ (List.mem_range.1 hplayer))
    rw [htype', hfirst]
    exact type.goesBelow_self

/-- The players are found by the numbers in their rows. -/
theorem players_together (hentries : ∀ player < numPlayers, (column player).entries ≠ []) :
    (together type column numPlayers).players = (List.range numPlayers).map (· + 1) := by
  have hnumbers : (together type column numPlayers).rows.map (·.1) =
      ((List.range numPlayers).map (· + 1)).flatMap fun number =>
        List.replicate (column (number - 1)).entries.length number := by
    simp only [together, List.map_flatMap, List.map_map, List.flatMap_map, Function.comp_def,
      List.map_const', Nat.add_sub_cancel]
  rw [players, hnumbers]
  refine eraseDups_flatMap_replicate ?_ (List.forall_mem_map.2 fun player hplayer => ?_)
  · exact List.Pairwise.map _ (fun _ _ hne heq => hne (Nat.succ.inj heq)) List.nodup_range
  · exact mt List.length_eq_zero_iff.1 (hentries player (List.mem_range.1 hplayer))

/-- What a player got is the column of the player. -/
theorem ofPlayer_together (hplayer : player < numPlayers) (htype : (column player).type = type) :
    (together type column numPlayers).ofPlayer (player + 1) = column player := by
  have hrows : ((together type column numPlayers).rows.filter (·.1 == player + 1)).map (·.2) =
      (List.range numPlayers).flatMap fun other =>
        if other = player then (column player).entries else [] := by
    simp only [together, List.filter_flatMap, List.map_flatMap, List.filter_map, List.map_map]
    refine List.flatMap_congr fun other _ => ?_
    by_cases hother : other = player
    · subst hother
      simp [Function.comp_def]
    · simp [Function.comp_def, hother]
  rw [ofPlayer, hrows, flatMap_ite_eq List.nodup_range (List.mem_range.2 hplayer), ← htype]
  rfl

end Takings

/-! ### The order of the players -/

namespace ScoreRow

/-- A player is ahead of those with a smaller total, and of those with the same total and a greater
number. -/
def ahead (total : Nat → Int) (p q : Nat) : Bool :=
  decide (total q < total p ∨ total q = total p ∧ p ≤ q)

theorem before_eq {total : Nat → Int} {p q : Nat} {c d : Column} (hc : c.total = .int (total p))
    (hd : d.total = .int (total q)) : before ⟨p + 1, c⟩ ⟨q + 1, d⟩ = ahead total p q := by
  simp only [before, Column.totalAtLeast, hc, hd, ahead]
  grind

/-- The players in the order of their totals. -/
def ranking (total : Nat → Int) (numPlayers : Nat) : List Nat :=
  (List.range numPlayers).mergeSort (ahead total)

theorem ranking_perm (total : Nat → Int) (numPlayers : Nat) :
    (ranking total numPlayers).Perm (List.range numPlayers) :=
  List.mergeSort_perm _ _

theorem ranking_ordered (total : Nat → Int) (numPlayers : Nat) :
    (ranking total numPlayers).Pairwise fun p q =>
      total q < total p ∨ total q = total p ∧ p < q := by
  have htrans (p q r : Nat) (hpq : ahead total p q = true) (hqr : ahead total q r = true) :
      ahead total p r = true := by
    simp only [ahead, decide_eq_true_eq] at *
    omega
  have htotal (p q : Nat) : (ahead total p q || ahead total q p) = true := by
    simp only [ahead, Bool.or_eq_true, decide_eq_true_eq]
    omega
  have hstrict (p q : Nat) (hpq : ahead total p q = true) (hne : id p ≠ id q) :
      total q < total p ∨ total q = total p ∧ p < q := by
    simp only [ahead, decide_eq_true_eq, id_eq] at *
    omega
  have hnodup : ((List.range numPlayers).map id).Nodup := by
    rw [List.map_id]
    exact List.nodup_range
  exact pairwise_mergeSort_of_nodup htrans htotal hstrict hnodup

/-- Rows with these totals are sorted by them. -/
theorem mergeSort_eq {total : Nat → Int} {column : Nat → Column} {numPlayers : Nat}
    (htotal : ∀ player < numPlayers, (column player).total = .int (total player)) :
    ((List.range numPlayers).map fun player => ⟨player + 1, column player⟩).mergeSort before =
      (ranking total numPlayers).map fun player => ⟨player + 1, column player⟩ := by
  refine (List.map_mergeSort fun p hp q hq => ?_).symm
  exact (before_eq (htotal p (List.mem_range.1 hp)) (htotal q (List.mem_range.1 hq))).symm

end ScoreRow

namespace History

variable {h : History} {numPlayers player : Nat}

/-- The utilities of a player in the rounds. -/
def utilityValues (h : History) (player : Nat) : List Value :=
  h.outcomes.map (·.payoff.values.getD player .null)

/-- The utilities of a player as numbers, truth values being one and zero. -/
def utilitiesOf (h : History) (player : Nat) : List Int :=
  (h.utilityValues player).map (·.whole?.getD 0)

/-- Every round pays whole numbers to so many players, and neither a utility nor the sum of a
player's utilities is beyond 64 bits. -/
structure PaysStandard (h : History) (numPlayers : Nat) : Prop where
  whole : ∀ o ∈ h.outcomes, o.payoff.PaysWhole numPlayers
  utility : ∀ o ∈ h.outcomes, ∀ u ∈ o.payoff.values, ∀ n ∈ u.whole?, IsStandard n
  total : ∀ player < numPlayers, IsStandard (h.utilitiesOf player).sum

instance : Decidable (h.PaysStandard numPlayers) :=
  decidable_of_iff ((∀ o ∈ h.outcomes, o.payoff.PaysWhole numPlayers) ∧
      (∀ o ∈ h.outcomes, ∀ u ∈ o.payoff.values, ∀ n ∈ u.whole?, IsStandard n) ∧
      ∀ player < numPlayers, IsStandard (h.utilitiesOf player).sum)
    ⟨fun ⟨hwhole, hutility, htotal⟩ => ⟨hwhole, hutility, htotal⟩,
      fun ⟨hwhole, hutility, htotal⟩ => ⟨hwhole, hutility, htotal⟩⟩

/-- No utility of the first round is a truth value, or all utilities are truth values. -/
def PaysAlike (h : History) : Prop :=
  (∀ o ∈ h.outcomes.head?, ∀ u ∈ o.payoff.values, u.isTruth = false) ∨
    ∀ o ∈ h.outcomes, ∀ u ∈ o.payoff.values, u.isTruth = true

instance : Decidable h.PaysAlike :=
  inferInstanceAs (Decidable (_ ∨ _))

/-- Each round with a profile has a move of each player in it. -/
def Profiled (h : History) (numPlayers : Nat) : Prop :=
  ∀ o ∈ h.outcomes, ∀ profile ∈ o.profile, numPlayers ≤ profile.moves.length

instance : Decidable (h.Profiled numPlayers) :=
  inferInstanceAs (Decidable (∀ _ ∈ _, _))

/-- The moves that the rounds show of the players can be written. -/
def Writable (h : History) (numPlayers : Nat) : Prop :=
  ∀ o ∈ h.outcomes, ∀ player < numPlayers, ∀ move, o.Shows player move → move.isWritable = true

/-- The utilities of a player make a column of this type, which has their sum and their bounds. -/
def HasColumn (h : History) (type : EntryType) (player : Nat) : Prop :=
  ∃ c, Column.ofValues (h.utilityValues player) = .ok c ∧ c.type = type ∧
    c.Reckons (h.utilitiesOf player)

/-- Moves that have been written can be written. -/
theorem writable_of_texts (htexts : ∀ o ∈ h.outcomes, ∀ player < numPlayers,
    (roundText (.int player) o).isOk = true) : h.Writable numPlayers := by
  intro o ho player hplayer move hshows
  have hok := htexts o ho player hplayer
  rw [hshows.roundText_eq] at hok
  by_contra hunwritable
  rw [if_neg hunwritable] at hok
  cases hok

/-- The rounds have texts for the moves of a player if these can be written. -/
theorem exists_texts (hprofiled : h.Profiled numPlayers) (hwritable : h.Writable numPlayers)
    (hplayer : player < numPlayers) :
    ∃ texts,
      List.Forall₂ (fun o text => roundText (.int player) o = .ok text) h.outcomes texts := by
  refine exists_forall₂ fun o ho => ?_
  obtain ⟨move, hshows⟩ := Outcome.exists_shows fun profile hprofile =>
    Nat.lt_of_lt_of_le hplayer (hprofiled o ho profile hprofile)
  have hmove := hwritable o ho player hplayer move hshows
  exact ⟨_, Outcome.roundText_eq_ok.2 ⟨move, hshows, hmove, rfl⟩⟩

namespace PaysStandard

theorem sized (hpays : h.PaysStandard numPlayers) {o : Outcome} (ho : o ∈ h.outcomes) :
    o.payoff.values.length = numPlayers :=
  Int.ofNat.inj (hpays.whole o ho).sized

/-- The utilities of a player are looked up in each round. -/
theorem payoffsForPlayer (hpays : h.PaysStandard numPlayers) (hplayer : player < numPlayers) :
    h.payoffsForPlayer (.int player) = .ok (h.utilityValues player) :=
  mapM_eq_map fun o ho => Payoff.forPlayer_eq (hpays.whole o ho).sized (Int.ofNat_lt.2 hplayer)

theorem getD_mem (hpays : h.PaysStandard numPlayers) (hplayer : player < numPlayers) {o : Outcome}
    (ho : o ∈ h.outcomes) : o.payoff.values.getD player .null ∈ o.payoff.values := by
  have hlt : player < o.payoff.values.length := (hpays.sized ho).symm ▸ hplayer
  rw [List.getD_eq_getElem?_getD, List.getElem?_eq_getElem hlt, Option.getD_some]
  exact List.getElem_mem hlt

/-- The utilities of a player are whole numbers that fit. -/
theorem utilities (hpays : h.PaysStandard numPlayers) (hplayer : player < numPlayers) :
    List.Forall₂ (fun u n => u.whole? = some n ∧ IsStandard n) (h.utilityValues player)
      (h.utilitiesOf player) := by
  rw [utilitiesOf, List.forall₂_map_right_iff, List.forall₂_same, utilityValues,
    List.forall_mem_map]
  intro o ho
  have hmem := hpays.getD_mem hplayer ho
  obtain ⟨n, hn⟩ := Option.isSome_iff_exists.1 ((hpays.whole o ho).whole _ hmem)
  rw [hn, Option.getD_some]
  exact ⟨rfl, hpays.utility o ho _ hmem n hn⟩

theorem hasColumn_wholes (hpays : h.PaysStandard numPlayers) (hrounds : h.outcomes ≠ [])
    (hfirst : ∀ o ∈ h.outcomes.head?, ∀ u ∈ o.payoff.values, u.isTruth = false)
    (hplayer : player < numPlayers) : h.HasColumn (.whole .standard) player := by
  obtain ⟨first, rest, houtcomes⟩ := List.exists_cons_of_ne_nil hrounds
  have hutilities := hpays.utilities hplayer
  have htotal := hpays.total player hplayer
  have hvalues : h.utilityValues player = first.payoff.values.getD player .null ::
      rest.map (·.payoff.values.getD player .null) := by
    rw [utilityValues, houtcomes, List.map_cons]
  -- The first utility is a number, and truth values behind it are read as numbers.
  obtain ⟨n, hn⟩ : ∃ n, first.payoff.values.getD player .null = .int n := by
    have ho : first ∈ h.outcomes := houtcomes ▸ List.mem_cons_self
    have hmem := hpays.getD_mem hplayer ho
    exact Value.exists_eq_int ((hpays.whole first ho).whole _ hmem)
      (hfirst first (by rw [houtcomes]; rfl) _ hmem)
  rw [hvalues, hn] at hutilities
  obtain ⟨m, ns, ⟨hm, -⟩, -, heq⟩ := List.forall₂_cons_left_iff.1 hutilities
  cases hm
  rw [heq] at hutilities htotal
  have hstandard : ∀ m ∈ n :: ns, IsStandard m := fun m hm => by
    obtain ⟨_, -, -, hm⟩ := exists_of_mem_right hutilities hm
    exact hm
  refine ⟨Column.ofWholes (n :: ns), ?_, rfl, heq ▸ Column.reckons_ofWholes htotal⟩
  rw [hvalues, hn]
  exact Column.ofValues_standard (hutilities.imp fun _ _ => And.left) hstandard

theorem hasColumn_truths (hpays : h.PaysStandard numPlayers) (hrounds : h.outcomes ≠ [])
    (htruths : ∀ o ∈ h.outcomes, ∀ u ∈ o.payoff.values, u.isTruth = true)
    (hplayer : player < numPlayers) : h.HasColumn .truth player := by
  obtain ⟨bs, hbs⟩ : ∃ bs, List.Forall₂ (fun u b => u = .bool b) (h.utilityValues player) bs :=
    exists_forall₂ <| List.forall_mem_map.2 fun o ho =>
      Value.exists_eq_bool (htruths o ho _ (hpays.getD_mem hplayer ho))
  have hvalues : h.utilityValues player = bs.map .bool :=
    List.forall₂_eq_eq_eq ▸ List.forall₂_map_right_iff.2 hbs
  have hnumerals : h.utilitiesOf player = bs.map Column.numeral := by
    rw [utilitiesOf, hvalues, List.map_map]
    rfl
  cases bs with
  | nil => exact absurd (List.map_eq_nil_iff.1 hvalues) hrounds
  | cons b bs =>
      rw [HasColumn, hvalues, hnumerals]
      exact ⟨_, Column.ofValues_truths b bs, rfl, Column.reckons_ofTruths b bs⟩

/-- The utilities of all players make columns of one type. -/
theorem exists_columns (hpays : h.PaysStandard numPlayers) (halike : h.PaysAlike)
    (hrounds : h.outcomes ≠ []) :
    ∃ type, (type = .truth ∨ type = .whole .standard) ∧
      ∀ player < numPlayers, h.HasColumn type player := by
  rcases halike with hfirst | htruths
  · exact ⟨_, .inr rfl, fun _ => hpays.hasColumn_wholes hrounds hfirst⟩
  · exact ⟨_, .inl rfl, fun _ => hpays.hasColumn_truths hrounds htruths⟩

/-- The score pays a player the sum of the utilities. -/
theorem exists_score (hpays : h.PaysStandard numPlayers) (hrounds : h.outcomes ≠ [])
    (hplayer : player < numPlayers) :
    ∃ score u, h.score = .ok score ∧ score.values[player]? = some u ∧
      u.whole? = some (h.utilitiesOf player).sum := by
  have hscore := score_whole h hpays.whole
  obtain ⟨first, rest, houtcomes⟩ := List.exists_cons_of_ne_nil hrounds
  obtain ⟨n, hn⟩ := Option.isSome_iff_exists.1 <|
    (hpays.whole first (houtcomes ▸ List.mem_cons_self)).whole _
      (hpays.getD_mem hplayer (houtcomes ▸ List.mem_cons_self))
  have hall : ∀ o ∈ first :: rest, o.payoff.PaysWhole numPlayers := houtcomes ▸ hpays.whole
  have hpaid {p : Payoff} (hp : p.PaysWhole numPlayers) : player < p.values.length :=
    Int.ofNat_lt.1 (hp.sized ▸ Int.ofNat_lt.2 hplayer)
  have hvalue : (Payoff.total (h.outcomes.map (·.payoff))).values.getD player .null =
      (rest.map (·.payoff.values.getD player .null)).foldl Value.plus
        (first.payoff.values.getD player .null) := by
    rw [houtcomes, List.map_cons, Payoff.total,
      Payoff.getD_foldl_plus (hpaid (hall _ List.mem_cons_self)), List.map_map]
    · rfl
    · exact List.forall_mem_map.2 fun o ho => hpaid (hall o (List.mem_cons_of_mem _ ho))
  have hplace := hpaid (.total (by simpa using hrounds) (List.forall_mem_map.2 hpays.whole))
  refine ⟨_, _, hscore, List.getElem?_eq_getElem hplace, ?_⟩
  rw [List.getElem_eq_getD .null, hvalue, Value.whole?_foldl_plus hn, utilitiesOf,
    utilityValues, houtcomes, List.sum_eq_foldl, List.map_cons, List.map_cons, List.foldl_cons, hn,
    Option.getD_some, Int.zero_add, List.foldl_map (f := fun u : Value => u.whole?.getD 0)]

/-- The tally of a column of the utilities tells what the history tells. -/
theorem tells (hpays : h.PaysStandard numPlayers) (hrounds : h.outcomes ≠ [])
    (hplayer : player < numPlayers) {c : Column} (hc : c.Reckons (h.utilitiesOf player)) :
    (Tally.mk (h.utilitiesOf player).sum c.mean c.least c.greatest).Tells h player where
  score := hpays.exists_score hrounds hplayer
  bounds := by
    obtain ⟨low, hlow, hlowmem, hlowest⟩ := hc.least
    obtain ⟨high, hhigh, hhighmem, hhighest⟩ := hc.greatest
    have hmem (n : Int) : n ∈ h.utilitiesOf player ↔
        n ∈ {n | ∃ u ∈ h.utilityValues player, u.whole? = some n} := by
      have hutilities := hpays.utilities hplayer
      constructor
      · intro hn
        obtain ⟨u, hu, hwhole, -⟩ := exists_of_mem_right hutilities hn
        exact ⟨u, hu, hwhole⟩
      · rintro ⟨u, hu, hwhole⟩
        obtain ⟨m, hm, hwhole', -⟩ := exists_of_mem_left hutilities hu
        rw [hwhole] at hwhole'
        cases hwhole'
        exact hm
    have hlength : (h.utilitiesOf player).length = h.length := by
      rw [utilitiesOf, utilityValues, List.length_map, List.length_map, length_outcomes]
    refine ⟨_, low, high, hpays.payoffsForPlayer hplayer, hlow, ⟨(hmem low).1 hlowmem, ?_⟩, hhigh,
      ⟨(hmem high).1 hhighmem, ?_⟩, ?_, ?_⟩
    · exact fun n hn => hlowest n ((hmem n).2 hn)
    · exact fun n hn => hhighest n ((hmem n).2 hn)
    · rw [← hlength, ← nsmul_eq_mul]
      exact List.card_nsmul_le_sum _ low hlowest
    · rw [← hlength, ← nsmul_eq_mul]
      exact List.sum_le_card_nsmul _ high hhighest

end PaysStandard

/-- Every round has an entry in the column of a player. -/
theorem Records.length_payoffs {rounds : PlayerRounds} (h' : h.Records player rounds) :
    rounds.payoffs.entries.length = h.length := by
  obtain ⟨utilities, hutilities, hcolumn⟩ := h'.payoffs
  rw [Column.length_of_ofValues hcolumn, ← (mapM_eq_ok_iff.1 hutilities).length_eq,
    length_outcomes]

/-- The rows come in the order of the totals, one for each player who gets something. -/
theorem scoreRows_eq {rounds : Nat → PlayerRounds} {type : EntryType} {total : Nat → Int}
    (hsome : 1 ≤ numPlayers) (hplayers : h.playerRounds = .ok ((List.range numPlayers).map rounds))
    (hsums : type.isSummable = true)
    (htype : ∀ player < numPlayers, (rounds player).payoffs.type = type)
    (hentries : ∀ player < numPlayers, (rounds player).payoffs.entries ≠ [])
    (htotal : ∀ player < numPlayers, (rounds player).payoffs.total = .int (total player)) :
    h.scoreRows = .ok ((ScoreRow.ranking total numPlayers).map fun player =>
      ⟨player + 1, (rounds player).payoffs⟩) := by
  have htakings : h.takings =
      .ok (.together type (fun player => (rounds player).payoffs) numPlayers) := by
    rw [takings, hplayers, Run.except_ok_bind, ← Takings.concat_eq hsome htype]
    exact congrArg Takings.concat (List.ext_getElem (by simp) fun _ _ _ => by simp)
  have hrows : ((List.range numPlayers).map (· + 1)).map (fun player => (⟨player,
      (Takings.together type (fun player => (rounds player).payoffs) numPlayers).ofPlayer player⟩ :
        ScoreRow)) =
      (List.range numPlayers).map fun player => ⟨player + 1, (rounds player).payoffs⟩ := by
    rw [List.map_map]
    refine List.map_congr_left fun player hplayer => ?_
    have hlt := List.mem_range.1 hplayer
    rw [Function.comp_apply, Takings.ofPlayer_together hlt (htype player hlt)]
  unfold scoreRows
  rw [htakings, Run.except_ok_bind, Takings.players_together hentries, hrows,
    ScoreRow.mergeSort_eq htotal]
  simp only [Takings.together, hsums, if_true]
  rfl

/-- A player whose utilities make a column has rounds with it if the moves can be written. -/
theorem exists_rounds {type : EntryType} (hpays : h.PaysStandard numPlayers)
    (hprofiled : h.Profiled numPlayers) (hwritable : h.Writable numPlayers)
    (hcolumns : ∀ player < numPlayers, h.HasColumn type player) :
    ∃ rounds : Nat → PlayerRounds, ∀ player < numPlayers, h.Records player (rounds player) ∧
      (rounds player).payoffs.type = type ∧
      (rounds player).payoffs.Reckons (h.utilitiesOf player) := by
  have hone (player : Nat) : ∃ rounds : PlayerRounds, player < numPlayers →
      h.Records player rounds ∧ rounds.payoffs.type = type ∧
        rounds.payoffs.Reckons (h.utilitiesOf player) := by
    by_cases hplayer : player < numPlayers
    · obtain ⟨texts, htexts⟩ := exists_texts hprofiled hwritable hplayer
      obtain ⟨c, hc, htype, hreckons⟩ := hcolumns player hplayer
      have hrecords : h.Records player ⟨texts, c⟩ :=
        ⟨htexts, _, hpays.payoffsForPlayer hplayer, hc⟩
      exact ⟨⟨texts, c⟩, fun _ => ⟨hrecords, htype, hreckons⟩⟩
    · exact ⟨⟨[], ⟨.nothing, []⟩⟩, fun hlt => absurd hlt hplayer⟩
  exact ⟨fun player => (hone player).choose, fun player => (hone player).choose_spec⟩

/-- A move that cannot be written keeps the rounds from being put side by side. -/
theorem playerRounds_eq_error (hpays : h.PaysStandard numPlayers)
    (hprofiled : h.Profiled numPlayers) (hwidth : h.width = numPlayers)
    (hunwritable : ¬ h.Writable numPlayers) : h.playerRounds = .error .badArgument := by
  unfold playerRounds
  rw [hwidth]
  refine FailsWith.bind_eq_error (.mapM fun player hplayer => ?_) fun looked hlooked => ?_
  · have hplayer := List.mem_range.1 hplayer
    refine .bind (.mapM fun o ho => ?_) fun texts => ?_
    · obtain ⟨move, hshows⟩ := Outcome.exists_shows fun profile hprofile =>
        Nat.lt_of_lt_of_le hplayer (hprofiled o ho profile hprofile)
      rw [hshows.roundText_eq]
      split
      · exact .ok _
      · exact .error rfl
    · rw [hpays.payoffsForPlayer hplayer]
      exact .ok _
  · -- If all had been looked up, all moves would have texts.
    refine hunwritable (writable_of_texts fun o ho player hplayer => ?_)
    obtain ⟨_, -, hpair⟩ := exists_of_mem_left (mapM_eq_ok_iff.1 hlooked) (List.mem_range.2 hplayer)
    obtain ⟨texts, htexts, -⟩ := Run.except_bind_eq_ok.1 hpair
    obtain ⟨text, -, htext⟩ := exists_of_mem_left (mapM_eq_ok_iff.1 htexts) ho
    rw [htext]
    rfl

/-- There is no table of rounds that cannot be put side by side. -/
theorem scoreSheet_eq_error {f : Fault} (hlength : h.length ≠ 0)
    (hplayers : h.playerRounds = .error f) : h.scoreSheet = .error f := by
  rw [scoreSheet, if_neg hlength, scoreRows, takings, hplayers]
  rfl

/-- The score table of rounds that pay whole numbers has one line for each player, which tells what
the history tells of the player, and the lines come by their totals, the greatest first, and with
equal totals by the numbers of the players. If there is a move that cannot be written, there is no
table. -/
theorem score_table_tells (hrounds : h.outcomes ≠ []) (hplayers : 1 ≤ numPlayers)
    (hpays : h.PaysStandard numPlayers) (halike : h.PaysAlike)
    (hprofiled : h.Profiled numPlayers) :
    (h.Writable numPlayers → ∃ (tally : Nat → Tally) (order : List Nat),
      h.scoreSheet = .ok
        ⟨["player", "rounds", "total_payoff", "avg_payoff", "min_payoff", "max_payoff"],
          order.map fun player => (tally player).entries player h.length⟩ ∧
      order.Perm (List.range numPlayers) ∧
      (∀ player < numPlayers, (tally player).Tells h player) ∧
      order.Pairwise fun p q => (tally q).total < (tally p).total ∨
        (tally q).total = (tally p).total ∧ p < q) ∧
    (¬ h.Writable numPlayers → h.scoreSheet = .error .badArgument) := by
  obtain ⟨o, ho⟩ := List.exists_mem_of_ne_nil _ hrounds
  have hwidth : h.width = numPlayers := width_eq hrounds fun o ho => hpays.sized ho
  constructor
  · intro hwritable
    obtain ⟨type, hnumeric, hcolumns⟩ := hpays.exists_columns halike hrounds
    obtain ⟨rounds, hall⟩ := exists_rounds hpays hprofiled hwritable hcolumns
    let tally (player : Nat) : Tally :=
      ⟨(h.utilitiesOf player).sum, (rounds player).payoffs.mean, (rounds player).payoffs.least,
        (rounds player).payoffs.greatest⟩
    have hplayers' : h.playerRounds = .ok ((List.range numPlayers).map rounds) := by
      rw [playerRounds_eq_ok, hwidth, List.forall₂_map_right_iff, List.forall₂_same]
      exact fun player hplayer => (hall player (List.mem_range.1 hplayer)).1
    have hsums : type.isSummable = true := by rcases hnumeric with rfl | rfl <;> rfl
    have hlength (player : Nat) (hplayer : player < numPlayers) :
        (rounds player).payoffs.entries.length = h.length :=
      (hall player hplayer).1.length_payoffs
    have hrows := scoreRows_eq hplayers hplayers' hsums
      (fun player hplayer => (hall player hplayer).2.1)
      (fun player hplayer hnone => length_ne_zero ho (hlength player hplayer ▸ by rw [hnone]; rfl))
      fun player hplayer => (hall player hplayer).2.2.total
    rw [scoreSheet, if_neg (length_ne_zero ho), hrows]
    refine ⟨tally, ScoreRow.ranking (fun player => (tally player).total) numPlayers, ?_,
      ScoreRow.ranking_perm _ _, fun player hplayer =>
        hpays.tells hrounds hplayer (hall player hplayer).2.2, ScoreRow.ranking_ordered _ _⟩
    rw [Run.except_ok_bind, List.map_map]
    refine congrArg (fun rows => Except.ok (Sheet.mk _ rows)) (List.map_congr_left ?_)
    intro player hplayer
    have hlt := List.mem_range.1 ((ScoreRow.ranking_perm _ _).mem_iff.1 hplayer)
    rw [Function.comp_apply, ScoreRow.entries, (hall player hlt).2.2.total, hlength player hlt]
    rfl
  · intro hunwritable
    exact scoreSheet_eq_error (length_ne_zero ho)
      (playerRounds_eq_error hpays hprofiled hwidth hunwritable)

/-- Two rounds, of which one has no profile, in which two players got the same in total. -/
def tied : History :=
  ⟨[⟨⟨[.bool true, .int 4]⟩, none, ⟨[⟨.int 1, .text "left"⟩]⟩, none⟩,
    ⟨⟨[.int 3, .int 0]⟩, some ⟨[.text "up", .text "down"]⟩, .empty, none⟩]⟩

/-- A whole number with more digits than can be written. -/
def endless : Value :=
  .int (Nat.pow 10 maxDigits : Nat)

theorem endless_unwritable : endless.isWritable = false := by
  rw [endless, Value.isWritable_natCast, decide_eq_false (Nat.lt_irrefl _)]

/-- A round of such a move. -/
def overlong : History :=
  ⟨[⟨⟨[.int 1]⟩, some ⟨[endless]⟩, .empty, none⟩]⟩

theorem overlong_unwritable : ¬ overlong.Writable 1 := fun hall => by
  have hmove := hall _ List.mem_cons_self 0 Nat.zero_lt_one endless (.profile rfl rfl)
  rw [endless_unwritable] at hmove
  cases hmove

/-- There is a table of tied players, but none of an overlong move. -/
theorem tied_score_table_tells :
    (∃ (tally : Nat → Tally) (order : List Nat),
      tied.scoreSheet = .ok
        ⟨["player", "rounds", "total_payoff", "avg_payoff", "min_payoff", "max_payoff"],
          order.map fun player => (tally player).entries player tied.length⟩ ∧
      order.Perm (List.range 2) ∧ (∀ player < 2, (tally player).Tells tied player) ∧
      order.Pairwise fun p q => (tally q).total < (tally p).total ∨
        (tally q).total = (tally p).total ∧ p < q) ∧
    overlong.scoreSheet = .error .badArgument :=
  ⟨(score_table_tells (by decide) (by decide) (by decide) (by decide) (by decide)).1
      (writable_of_texts (by decide)),
    (score_table_tells (by decide) (by decide) (by decide) (by decide) (by decide)).2
      overlong_unwritable⟩

/-- A truth value for a utility, and then a number. -/
def mixed : History :=
  ⟨[⟨⟨[.int 2]⟩, some ⟨[.text "stay"]⟩, .empty, none⟩,
    ⟨⟨[.bool true]⟩, some ⟨[.text "stay"]⟩, .empty, none⟩]⟩

/-- Whole payoffs that fit and full profiles are not enough for a table. There is none where a truth
value comes before a number, and none where a move cannot be written. -/
theorem no_score_table :
    (mixed.outcomes ≠ [] ∧ mixed.PaysStandard 1 ∧ mixed.Profiled 1 ∧
      mixed.scoreSheet = .error .wrongType) ∧
    overlong.outcomes ≠ [] ∧ overlong.PaysStandard 1 ∧ overlong.Profiled 1 ∧
      overlong.scoreSheet = .error .badArgument := by
  refine ⟨⟨by decide, by decide, by decide, rfl⟩, by decide, by decide, by decide, ?_⟩
  exact scoreSheet_eq_error (by decide)
    (playerRounds_eq_error (by decide) (by decide) rfl overlong_unwritable)

end History

end ExtensiveForm
