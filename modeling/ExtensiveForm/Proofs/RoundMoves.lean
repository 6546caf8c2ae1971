import Mathlib.Data.List.ReduceOption
import ExtensiveForm.Proofs.Summary

/-!
# The moves of a player round by round

A history is asked for the moves of a player. `Outcome.Tells` says what one round contributes: the
move of its profile, and without a profile the move of the player's last ply, unless that is
nothing. A round contributes nothing at all if the player made no ply in it, and just so if the last
ply was a move to nothing. `movesForPlayer_eq_ok` says that the moves are what the rounds
contribute, in their order, and `moves_come_round_by_round` tells from it when every round has its
move, for any history and for those of repeated plays.
-/

namespace ExtensiveForm

namespace Transcript

variable {t : Transcript} {player move : Value} {ply : Ply}

/-- The player made this ply, and none after it. -/
def LastPlyBy (t : Transcript) (player : Value) (ply : Ply) : Prop :=
  ∃ before after, t.plies = before ++ ply :: after ∧ (ply.player == player) = true ∧
    ∀ later ∈ after, (later.player == player) = false

theorem LastPlyBy.beq (h : t.LastPlyBy player ply) : (ply.player == player) = true := by
  obtain ⟨-, -, -, hply, -⟩ := h
  exact hply

/-- A last ply is a ply of the transcript. -/
theorem LastPlyBy.mem (h : t.LastPlyBy player ply) : ply ∈ t.plies := by
  obtain ⟨before, after, hplies, -, -⟩ := h
  simp [hplies]

theorem lastMoveBy?_eq_some :
    t.lastMoveBy? player = some move ↔ ∃ ply, t.LastPlyBy player ply ∧ ply.move = move := by
  simp only [lastMoveBy?, Option.map_eq_some_iff, List.find?_eq_some_iff_append]
  refine exists_congr fun ply => and_congr_left fun _ => ?_
  constructor
  · rintro ⟨hply, after, before, hplies, hafter⟩
    refine ⟨before.reverse, after.reverse, ?_, hply, fun later hlater => ?_⟩
    · simp [plies, hplies]
    · simpa using hafter later (List.mem_reverse.1 hlater)
  · rintro ⟨before, after, hplies, hply, hafter⟩
    refine ⟨hply, after.reverse, before.reverse, ?_, fun later hlater => ?_⟩
    · rw [plies, List.reverse_eq_iff] at hplies
      simp [hplies]
    · simpa using hafter later (List.mem_reverse.1 hlater)

/-- There is one last move. -/
theorem LastPlyBy.move_eq {ply' : Ply} (h : t.LastPlyBy player ply)
    (h' : t.LastPlyBy player ply') : ply.move = ply'.move := by
  have hmove := lastMoveBy?_eq_some.2 ⟨ply, h, rfl⟩
  rw [lastMoveBy?_eq_some.2 ⟨ply', h', rfl⟩] at hmove
  exact (Option.some.inj hmove).symm

theorem lastMoveBy?_eq_none :
    t.lastMoveBy? player = none ↔ ∀ ply ∈ t.plies, (ply.player == player) = false := by
  simp [lastMoveBy?, plies]

/-- A player who made a ply made a last one. -/
theorem exists_lastPlyBy (h : ∃ ply ∈ t.plies, (ply.player == player) = true) :
    ∃ ply, t.LastPlyBy player ply := by
  cases hlast : t.lastMoveBy? player with
  | some move =>
      obtain ⟨ply, hply, -⟩ := lastMoveBy?_eq_some.1 hlast
      exact ⟨ply, hply⟩
  | none =>
      obtain ⟨ply, hmem, hply⟩ := h
      simp [lastMoveBy?_eq_none.1 hlast ply hmem] at hply

end Transcript

/-- What a round tells of the moves of a player: a move, or nothing. -/
inductive Outcome.Tells (player : Value) (o : Outcome) : Option Value → Prop
  | profile {profile : Profile} {place : Nat} {move : Value} (hprofile : o.profile = some profile)
      (hplayer : player = .int place) (hmove : profile.moves[place]? = some move) :
      Tells player o (some move)
  | lastPly {ply : Ply} (hprofile : o.profile = none) (hply : o.transcript.LastPlyBy player ply)
      (hmove : ply.move ≠ .null) : Tells player o (some ply.move)
  | movedToNothing {ply : Ply} (hprofile : o.profile = none)
      (hply : o.transcript.LastPlyBy player ply) (hmove : ply.move = .null) : Tells player o none
  | idle (hprofile : o.profile = none)
      (hplies : ∀ ply ∈ o.transcript.plies, (ply.player == player) = false) : Tells player o none

/-- A profile has a move of each of its players, and of nobody else. -/
theorem Profile.forPlayer_eq_ok {profile : Profile} {player move : Value} :
    profile.forPlayer player = .ok move ↔
      ∃ place : Nat, player = .int place ∧ profile.moves[place]? = some move := by
  unfold forPlayer entryFor
  rw [Run.except_bind_eq_ok]
  constructor
  · intro ⟨place, hplayer, hmove⟩
    obtain ⟨rfl, hlt⟩ := Participants.checkPlayer_eq_ok.1 hplayer
    cases hmove
    refine ⟨place, rfl, ?_⟩
    have hplace : place < profile.moves.length := by omega
    simp [List.getD_eq_getElem?_getD, List.getElem?_eq_getElem hplace]
  · intro ⟨place, hplayer, hmove⟩
    obtain ⟨hlt, -⟩ := List.getElem?_eq_some_iff.1 hmove
    refine ⟨place, Participants.checkPlayer_eq_ok.2 ⟨hplayer, by omega⟩, ?_⟩
    simp [List.getD_eq_getElem?_getD, hmove]
    rfl

namespace History

variable {h : History} {player : Value} {o : Outcome} {entry : Option Value} {moves : List Value}

/-- The player is one of each profile that a round has. -/
def HasPlayer (h : History) (player : Value) : Prop :=
  ∀ o ∈ h.outcomes, ∀ profile, o.profile = some profile →
    ∃ place : Nat, player = .int place ∧ place < profile.moves.length

theorem moveInRound?_eq_ok : moveInRound? player o = .ok entry ↔ o.Tells player entry := by
  unfold moveInRound?
  constructor
  · intro hentry
    cases hprofile : o.profile with
    | some profile =>
        rw [hprofile] at hentry
        obtain ⟨move, hmove, hentry⟩ := Run.except_bind_eq_ok.1 hentry
        cases hentry
        obtain ⟨place, hplayer, hmove⟩ := Profile.forPlayer_eq_ok.1 hmove
        exact .profile hprofile hplayer hmove
    | none =>
        rw [hprofile] at hentry
        cases hlast : o.transcript.lastMoveBy? player with
        | none =>
            rw [hlast] at hentry
            cases hentry
            exact .idle hprofile (Transcript.lastMoveBy?_eq_none.1 hlast)
        | some move =>
            obtain ⟨ply, hply, rfl⟩ := Transcript.lastMoveBy?_eq_some.1 hlast
            rw [hlast] at hentry
            by_cases hnull : ply.move = .null
            · rw [hnull] at hentry
              cases hentry
              exact .movedToNothing hprofile hply hnull
            · simp only [Except.ok.injEq] at hentry
              subst hentry
              exact .lastPly hprofile hply hnull
  · intro htells
    cases htells with
    | profile hprofile hplayer hmove =>
        rw [hprofile]
        exact Run.except_bind_eq_ok.2 ⟨_, Profile.forPlayer_eq_ok.2 ⟨_, hplayer, hmove⟩, rfl⟩
    | lastPly hprofile hply hmove =>
        rw [hprofile, Transcript.lastMoveBy?_eq_some.2 ⟨_, hply, rfl⟩]
        simp only
    | movedToNothing hprofile hply hmove =>
        rw [hprofile, Transcript.lastMoveBy?_eq_some.2 ⟨_, hply, hmove⟩]
    | idle hprofile hplies =>
        rw [hprofile, Transcript.lastMoveBy?_eq_none.2 hplies]

/-- A player of each profile has an entry, or none, in every round. -/
theorem HasPlayer.exists_tells (hplayer : h.HasPlayer player) :
    ∀ o ∈ h.outcomes, ∃ entry, o.Tells player entry := by
  intro o ho
  cases hprofile : o.profile with
  | some profile =>
      obtain ⟨place, rfl, hplace⟩ := hplayer o ho profile hprofile
      exact ⟨_, .profile hprofile rfl (List.getElem?_eq_getElem hplace)⟩
  | none =>
      cases hlast : o.transcript.lastMoveBy? player with
      | none => exact ⟨none, .idle hprofile (Transcript.lastMoveBy?_eq_none.1 hlast)⟩
      | some move =>
          obtain ⟨ply, hply, -⟩ := Transcript.lastMoveBy?_eq_some.1 hlast
          by_cases hmove : ply.move = .null
          · exact ⟨none, .movedToNothing hprofile hply hmove⟩
          · exact ⟨some ply.move, .lastPly hprofile hply hmove⟩

/-- The moves of a player are what the rounds tell of them, in the order of the rounds. -/
theorem movesForPlayer_eq_ok :
    h.movesForPlayer player = .ok moves ↔
      ∃ entries, List.Forall₂ (Outcome.Tells player) h.outcomes entries ∧
        entries.reduceOption = moves := by
  unfold movesForPlayer
  rw [Run.except_bind_eq_ok]
  refine exists_congr fun entries => ?_
  rw [mapM_eq_ok_iff]
  simp only [moveInRound?_eq_ok, List.reduceOption]
  refine and_congr_right fun _ => ⟨fun hmoves => ?_, fun hmoves => congrArg _ hmoves⟩
  cases hmoves
  rfl

end History

namespace Outcome

variable {player : Value} {o : Outcome} {entry : Option Value}

/-- A round has a move of the player: that of its profile, or the last ply is a move to something.
-/
def HasMove (o : Outcome) (player : Value) : Prop :=
  o.profile = none → ∃ ply, o.transcript.LastPlyBy player ply ∧ ply.move ≠ .null

/-- A round tells a move if it has one, and else nothing. -/
theorem Tells.isSome_iff (h : o.Tells player entry) : entry.isSome = true ↔ o.HasMove player := by
  cases h with
  | profile hprofile _ _ => simp [HasMove, hprofile]
  | lastPly hprofile hply hmove =>
      simp only [Option.isSome_some, true_iff]
      exact fun _ => ⟨_, hply, hmove⟩
  | movedToNothing hprofile hply hmove =>
      simp only [Option.isSome_none, Bool.false_eq_true, false_iff]
      intro hmoved
      obtain ⟨ply, hply', hmove'⟩ := hmoved hprofile
      exact hmove' ((hply'.move_eq hply).trans hmove)
  | idle hprofile hplies =>
      simp only [Option.isSome_none, Bool.false_eq_true, false_iff]
      intro hmoved
      obtain ⟨ply, hply, -⟩ := hmoved hprofile
      simpa [hplies ply hply.mem] using hply.beq

/-- Where the player made a ply in a round without a profile, the round has a move of the player
unless the last ply was a move to nothing. -/
theorem hasMove_iff
    (hmoved : o.profile = none → ∃ ply ∈ o.transcript.plies, (ply.player == player) = true) :
    o.HasMove player ↔
      (o.profile = none → ∀ ply, o.transcript.LastPlyBy player ply → ply.move ≠ .null) := by
  refine forall_congr' fun hprofile => ?_
  constructor
  · intro ⟨ply, hply, hmove⟩ ply' hply'
    rw [hply'.move_eq hply]
    exact hmove
  · intro hall
    obtain ⟨ply, hply⟩ := Transcript.exists_lastPlyBy (hmoved hprofile)
    exact ⟨ply, hply, hall ply hply⟩

end Outcome

namespace History

variable {ω σ : Type} [Scale ω] {h : History} {player : Value}

/-- The moves of a player who is one of each profile come round by round. Each round tells a move or
nothing: with a profile the player's move in it, and without one the move of the player's last ply,
unless there is no such ply or it is a move to nothing. So there are as many moves as rounds just if
each round has one. In the history of a repeated play the rounds are those that were completed;
where the player made a ply in each of them that has no profile, a round is missed only if the
player's last ply in it was a move to nothing. -/
theorem moves_come_round_by_round (hplayer : h.HasPlayer player) :
    ∃ entries, List.Forall₂ (Outcome.Tells player) h.outcomes entries ∧
      h.movesForPlayer player = .ok entries.reduceOption ∧
      (entries.reduceOption.length = h.length ↔ ∀ o ∈ h.outcomes, o.HasMove player) ∧
      ∀ (g : Game ω σ) (r : Repetition σ) (name : String) (ps : Participants ω σ) (maxDepth : Int)
        (visits : Nat) (s : σ) (o : Outcome) (s' : σ),
        ((g.repeated r name).play ps maxDepth visits).start s = (.ok (some o), s') →
        o.history = some h →
        ∃ before round s₁ s₂, h = Round.history (round :: before) ∧
          g.Leads r ps maxDepth.toNat s before s₁ ∧
          g.Completes ps maxDepth.toNat (Round.history before) s₁ round s₂ ∧
          ((∀ o ∈ h.outcomes, o.profile = none →
              ∃ ply ∈ o.transcript.plies, (ply.player == player) = true) →
            (entries.reduceOption.length = before.length + 1 ↔
              ∀ o ∈ h.outcomes, o.profile = none →
                ∀ ply, o.transcript.LastPlyBy player ply → ply.move ≠ .null)) := by
  obtain ⟨entries, hentries⟩ : ∃ entries, List.Forall₂ (Outcome.Tells player) h.outcomes entries :=
    exists_forall₂ hplayer.exists_tells
  have hlength : entries.length = h.length := by
    rw [← hentries.length_eq, outcomes, List.length_reverse]
    rfl
  have hcount : entries.reduceOption.length = h.length ↔ ∀ o ∈ h.outcomes, o.HasMove player := by
    rw [← hlength, List.reduceOption_length_eq_iff]
    constructor
    · intro hsome o ho
      obtain ⟨entry, hentry, htells⟩ := exists_of_mem_left hentries ho
      exact htells.isSome_iff.1 (hsome entry hentry)
    · intro hmoves entry hentry
      obtain ⟨o, ho, htells⟩ := exists_of_mem_right hentries hentry
      exact htells.isSome_iff.2 (hmoves o ho)
  refine ⟨entries, hentries, movesForPlayer_eq_ok.2 ⟨entries, hentries, rfl⟩, hcount, ?_⟩
  intro g r name ps maxDepth visits s o s' hplay hhistory
  obtain ⟨-, -, before, round, s₁, s₂, hleads, hround, -, hsummary⟩ := Game.play_eq_ok hplay
  have hlast : (Round.history (round :: before)).last? = some round.outcome := rfl
  rw [summary_eq hlast] at hsummary
  obtain ⟨total, -, ho⟩ := Run.except_bind_eq_ok.1 hsummary
  cases ho
  obtain rfl : Round.history (round :: before) = h := Option.some.inj hhistory
  refine ⟨before, round, s₁, s₂, rfl, hleads, hround, fun hmoved => ?_⟩
  rw [Round.length_history, List.length_cons] at hcount
  rw [hcount]
  exact forall₂_congr fun o ho => Outcome.hasMove_iff (hmoved o ho)

/-- A round in which the only player moves twice, so that it has no profile. -/
def twice (first last : Value) : Outcome :=
  ⟨⟨[.int 1]⟩, none, ⟨[⟨.int 0, last⟩, ⟨.int 0, first⟩]⟩, none⟩

/-- A round with a profile and one without it tell a move each, and so do three rounds of picks. -/
theorem picks_come_round_by_round :
    (∃ entries, List.Forall₂ (Outcome.Tells (.int 0))
        [Game.picked true, twice (.int 1) (.int 2)] entries ∧
      entries.reduceOption = [.bool true, .int 2]) ∧
    ∃ o moves, ((Game.pick.repeated (.times 3 (by decide)) "").play Game.alternating 1 4).start
        false = (.ok (some o), true) ∧
      o.history = some ⟨[Game.picked true, Game.picked false, Game.picked true]⟩ ∧
      movesForPlayer ⟨[Game.picked true, Game.picked false, Game.picked true]⟩ (.int 0) =
        .ok moves ∧ moves.length = 3 := by
  constructor
  · have hplayer : HasPlayer ⟨[twice (.int 1) (.int 2), Game.picked true]⟩ (.int 0) := by
      simp [HasPlayer, outcomes, Game.picked, twice]
    obtain ⟨entries, hentries, hmoves, -, -⟩ :=
      moves_come_round_by_round (ω := Rat) (σ := Bool) hplayer
    refine ⟨entries, hentries, ?_⟩
    have hevaluated : movesForPlayer ⟨[twice (.int 1) (.int 2), Game.picked true]⟩ (.int 0) =
        .ok [.bool true, .int 2] := rfl
    exact Except.ok.inj (hmoves.symm.trans hevaluated)
  · obtain ⟨o, hplay, hhistory⟩ : ∃ o,
        ((Game.pick.repeated (.times 3 (by decide)) "").play Game.alternating 1 4).start false =
          (.ok (some o), true) ∧
        o.history = some ⟨[Game.picked true, Game.picked false, Game.picked true]⟩ := by
      rw [Game.play_repeated_eq rfl (by decide) rfl "" (by decide)]
      exact ⟨_, rfl, rfl⟩
    have hplayer : HasPlayer ⟨[Game.picked true, Game.picked false, Game.picked true]⟩
        (.int 0) := by
      simp [HasPlayer, outcomes, Game.picked]
    obtain ⟨entries, -, hmoves, -, hrepeated⟩ :=
      moves_come_round_by_round (ω := Rat) (σ := Bool) hplayer
    obtain ⟨before, round, -, -, hrounds, -, -, hcount⟩ :=
      hrepeated _ _ _ _ _ _ _ _ _ hplay hhistory
    refine ⟨o, _, hplay, hhistory, hmoves, ?_⟩
    have hlength := congrArg History.length hrounds
    rw [Round.length_history, List.length_cons] at hlength
    rw [(hcount _).2, ← hlength]
    · rfl
    · simp [outcomes, Game.picked]
    · simp [outcomes, Game.picked]

/-- A move to nothing is not counted, though the player made it, and in the only round. -/
theorem move_to_nothing_is_missed :
    HasPlayer ⟨[twice (.int 1) .null]⟩ (.int 0) ∧
      (twice (.int 1) .null).profile = none ∧
      (twice (.int 1) .null).transcript.LastPlyBy (.int 0) ⟨.int 0, .null⟩ ∧
      movesForPlayer ⟨[twice (.int 1) .null]⟩ (.int 0) = .ok [] := by
  refine ⟨?_, rfl, ⟨[⟨.int 0, .int 1⟩], [], rfl, rfl, nofun⟩, rfl⟩
  simp [HasPlayer, outcomes, twice]

end History

end ExtensiveForm
