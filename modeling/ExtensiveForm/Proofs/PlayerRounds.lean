import ExtensiveForm.Analysis.Rounds
import ExtensiveForm.Proofs.RoundMoves

/-!
# What the sheet of a history is made of

A round shows one move of each player: `Outcome.Shows` says which. The text of this move is what the
sheet of a history has for the round, and there is such a text unless a number in the move is too
long to be written (`Outcome.Shows.roundText_eq`). `History.Records` says what a history knows of
one player, and `playerRounds_eq_ok` that it is put together of this for each of the players.
-/

namespace ExtensiveForm

/-- The move of a player that a round shows: that of the profile, or without a profile the move of
the player's last ply, and nothing if the player made no ply. -/
inductive Outcome.Shows (player : Nat) (o : Outcome) : Value → Prop
  | profile {profile : Profile} {move : Value} (hprofile : o.profile = some profile)
      (hmove : profile.moves[player]? = some move) : Shows player o move
  | lastPly {ply : Ply} (hprofile : o.profile = none)
      (hply : o.transcript.LastPlyBy (.int player) ply) : Shows player o ply.move
  | idle (hprofile : o.profile = none)
      (hplies : ∀ ply ∈ o.transcript.plies, (ply.player == .int player) = false) :
      Shows player o .null

namespace Outcome

variable {o : Outcome} {player : Nat} {move move' : Value} {text : String}

/-- A round has a move to show for everyone who is a player of its profile, if it has one. -/
theorem exists_shows
    (hplayer : ∀ profile, o.profile = some profile → player < profile.moves.length) :
    ∃ move, o.Shows player move := by
  cases hprofile : o.profile with
  | some profile =>
      exact ⟨_, .profile hprofile (List.getElem?_eq_getElem (hplayer profile hprofile))⟩
  | none =>
      cases hlast : o.transcript.lastMoveBy? (.int player) with
      | none => exact ⟨.null, .idle hprofile (Transcript.lastMoveBy?_eq_none.1 hlast)⟩
      | some move =>
          obtain ⟨ply, hply, -⟩ := Transcript.lastMoveBy?_eq_some.1 hlast
          exact ⟨ply.move, .lastPly hprofile hply⟩

/-- A round shows a single move of each player. -/
theorem Shows.move_eq (h : o.Shows player move) (h' : o.Shows player move') : move = move' := by
  cases h with
  | profile hprofile hmove =>
      cases h' with
      | profile hprofile' hmove' =>
          rw [hprofile] at hprofile'
          cases hprofile'
          exact Option.some.inj (hmove.symm.trans hmove')
      | lastPly hprofile' => cases hprofile.symm.trans hprofile'
      | idle hprofile' => cases hprofile.symm.trans hprofile'
  | lastPly hprofile hply =>
      cases h' with
      | profile hprofile' => cases hprofile.symm.trans hprofile'
      | lastPly _ hply' => exact hply.move_eq hply'
      | idle _ hplies => cases hply.beq.symm.trans (hplies _ hply.mem)
  | idle hprofile hplies =>
      cases h' with
      | profile hprofile' => cases hprofile.symm.trans hprofile'
      | lastPly _ hply' => cases hply'.beq.symm.trans (hplies _ hply'.mem)
      | idle => rfl

/-- The text of a round is that of the move that it shows, if this can be written. -/
theorem Shows.roundText_eq (h : o.Shows player move) :
    roundText (.int player) o =
      if move.isWritable then .ok (moveText move) else .error .badArgument := by
  unfold roundText
  cases h with
  | profile hprofile hmove =>
      rw [hprofile]
      simp only [Profile.forPlayer_eq_ok.2 ⟨player, rfl, hmove⟩]
      rfl
  | lastPly hprofile hply =>
      rw [hprofile, Transcript.lastMoveBy?_eq_some.2 ⟨_, hply, rfl⟩]
      rfl
  | idle hprofile hplies =>
      rw [hprofile, Transcript.lastMoveBy?_eq_none.2 hplies]
      rfl

theorem roundText_eq_ok :
    roundText (.int player) o = .ok text ↔
      ∃ move, o.Shows player move ∧ move.isWritable = true ∧ moveText move = text := by
  constructor
  · intro h
    have hplayer : ∀ profile, o.profile = some profile → player < profile.moves.length := by
      intro profile hprofile
      unfold roundText at h
      rw [hprofile] at h
      obtain ⟨move, hmove, -⟩ := Run.except_bind_eq_ok.1 h
      obtain ⟨place, hplace, hget⟩ := Profile.forPlayer_eq_ok.1 hmove
      cases hplace
      exact (List.getElem?_eq_some_iff.1 hget).1
    obtain ⟨move, hshows⟩ := exists_shows hplayer
    rw [hshows.roundText_eq] at h
    by_cases hwritable : move.isWritable = true
    · rw [if_pos hwritable] at h
      exact ⟨move, hshows, hwritable, Except.ok.inj h⟩
    · rw [if_neg hwritable] at h
      cases h
  · rintro ⟨move, hshows, hwritable, rfl⟩
    rw [hshows.roundText_eq, if_pos hwritable]

end Outcome

namespace History

variable {h h' : History} {player : Nat} {o : Outcome} {players : List PlayerRounds}
  {rounds : PlayerRounds} {sheet : Sheet}

theorem length_outcomes (h : History) : h.outcomes.length = h.length :=
  List.length_reverse

theorem length_ne_zero (ho : o ∈ h.outcomes) : h.length ≠ 0 := by
  rw [← length_outcomes]
  exact Nat.ne_of_gt (List.length_pos_of_mem ho)

theorem lt_foldl_max {sizes : List Nat} {start : Nat} :
    player < sizes.foldl max start ↔ player < start ∨ ∃ size ∈ sizes, player < size := by
  induction sizes generalizing start with
  | nil => simp
  | cons size sizes ih =>
      rw [List.foldl_cons, ih, lt_max_iff, or_assoc]
      simp

/-- The players of a history are those who are paid in some round. -/
theorem lt_width_iff : player < h.width ↔ ∃ o ∈ h.outcomes, player < o.payoff.values.length := by
  rw [width, lt_foldl_max]
  simp

/-- Where all rounds pay as many players, these are the players. -/
theorem width_eq {numPlayers : Nat} (hrounds : h.outcomes ≠ [])
    (hsized : ∀ o ∈ h.outcomes, o.payoff.values.length = numPlayers) : h.width = numPlayers := by
  refine Nat.le_antisymm (Nat.not_lt.1 fun hlt => ?_) (Nat.not_lt.1 fun hlt => ?_)
  · obtain ⟨o, ho, hplayer⟩ := lt_width_iff.1 hlt
    rw [hsized o ho] at hplayer
    exact Nat.lt_irrefl _ hplayer
  · obtain ⟨o, ho⟩ := List.exists_mem_of_ne_nil _ hrounds
    exact Nat.lt_irrefl _ (lt_width_iff.2 ⟨o, ho, (hsized o ho).symm ▸ hlt⟩)

/-- What a history knows of one player: the texts of the moves and the column of the utilities. -/
structure Records (h : History) (player : Nat) (rounds : PlayerRounds) : Prop where
  moves : List.Forall₂ (fun o text => roundText (.int player) o = .ok text) h.outcomes rounds.moves
  payoffs : ∃ utilities, h.payoffsForPlayer (.int player) = .ok utilities ∧
    Column.ofValues utilities = .ok rounds.payoffs

/-- The rounds of a history side by side are what it knows of each player. -/
theorem playerRounds_eq_ok :
    h.playerRounds = .ok players ↔ List.Forall₂ h.Records (List.range h.width) players := by
  unfold playerRounds
  rw [Run.except_bind_eq_ok]
  simp only [mapM_eq_ok_iff]
  rw [forall₂_comp_iff]
  refine iff_of_eq (congrArg (List.Forall₂ · _ _) ?_)
  funext player rounds
  refine propext ⟨?_, ?_⟩
  · rintro ⟨⟨texts, utilities⟩, hlooked, hmade⟩
    obtain ⟨texts', htexts, hlooked⟩ := Run.except_bind_eq_ok.1 hlooked
    obtain ⟨utilities', hutilities, hlooked⟩ := Run.except_bind_eq_ok.1 hlooked
    cases hlooked
    obtain ⟨column, hcolumn, hmade⟩ := Run.except_bind_eq_ok.1 hmade
    cases hmade
    exact ⟨mapM_eq_ok_iff.1 htexts, utilities, hutilities, hcolumn⟩
  · rintro ⟨hmoves, utilities, hutilities, hcolumn⟩
    refine ⟨(rounds.moves, utilities), ?_, ?_⟩
    · rw [mapM_eq_ok_iff.2 hmoves, hutilities]
      rfl
    · simp only [hcolumn]
      rfl

/-- Whoever has a sheet of some rounds has these rounds side by side. -/
theorem exists_playerRounds (hlength : h.length ≠ 0) (hsheet : h.sheet = .ok sheet) :
    ∃ players, h.playerRounds = .ok players := by
  unfold History.sheet at hsheet
  rw [if_neg hlength] at hsheet
  obtain ⟨players, hplayers, -⟩ := Run.except_bind_eq_ok.1 hsheet
  exact ⟨players, hplayers⟩

/-- The sheet of a history knows something of each player. -/
theorem exists_records (hsheet : h.sheet = .ok sheet) (hplayer : player < h.width) :
    ∃ players rounds, h.playerRounds = .ok players ∧ players[player]? = some rounds ∧
      h.Records player rounds := by
  obtain ⟨o, ho, -⟩ := lt_width_iff.1 hplayer
  obtain ⟨players, hplayers⟩ := exists_playerRounds (length_ne_zero ho) hsheet
  obtain ⟨hcount, hrecords⟩ := forall₂_range_iff.1 (playerRounds_eq_ok.1 hplayers)
  have hget : players[player]? = some players[player] := List.getElem?_eq_getElem (by omega)
  exact ⟨players, _, hplayers, hget, hrecords player _ hget⟩

/-- Every round pays whoever it has utilities of. -/
theorem Records.lt_length (h' : h.Records player rounds) (ho : o ∈ h.outcomes) :
    player < o.payoff.values.length := by
  obtain ⟨utilities, hutilities, -⟩ := h'.payoffs
  obtain ⟨utility, -, hpaid⟩ := exists_of_mem_left (mapM_eq_ok_iff.1 hutilities) ho
  unfold Payoff.forPlayer entryFor at hpaid
  obtain ⟨place, hplace, -⟩ := Run.except_bind_eq_ok.1 hpaid
  obtain ⟨hint, hlt⟩ := Participants.checkPlayer_eq_ok.1 hplace
  cases hint
  omega

end History

end ExtensiveForm
