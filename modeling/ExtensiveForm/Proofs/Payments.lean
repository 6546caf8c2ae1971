import ExtensiveForm.Game.NormalForm
import ExtensiveForm.Proofs.Log
import ExtensiveForm.Proofs.NormalForm
import ExtensiveForm.Proofs.Rounds

/-!
# Every round is paid for once

In a game in normal form the payoff function is called, and in a repeated game whoever may stop it
is asked. `NormalForm.Call` is what may be written down of a play: an answer of a player, a call of
the payoff function with what came of it, and a question whether to stop. `NormalForm.called`,
`Participants.called` and `Repetition.called` write it down as it happens.

`NormalForm.Played` says which calls belong to complete rounds, and what these rounds put on record.
A round of the repeated game is one visit of the walk (`run_round`), so each visit takes the
calls of complete rounds to those of one round more, or it is interrupted (`InRound`). The main
result is `payoff_called_once_a_round`.
-/

namespace ExtensiveForm

namespace NormalForm

/-- What is written down when others are called in a play of a game in normal form. -/
inductive Call where
  /-- A player was shown this and gave this answer. -/
  | answered (c : Context) (answer : Except Fault Value)
  /-- The payoff function was called, and this came of it. -/
  | paid (profile : Profile) (result : Except Fault Value)
  /-- It was asked whether to stop after these rounds. -/
  | stopped (h : History)

variable {ω σ : Type} [Scale ω]

/-- The same game, with a log of the calls of its payoff function. -/
def called (g : NormalForm σ) : NormalForm (σ × List Call) where
  name := g.name
  moveSets := g.moveSets
  payoffOf profile := (g.payoffOf profile).logged fun result => [.paid profile result]
  hasPlayer := g.hasPlayer
  hasMoves := g.hasMoves

end NormalForm

/-- The same participants, with a log of their answers. -/
def Participants.called {ω σ : Type} (ps : Participants ω σ) :
    Participants ω (σ × List NormalForm.Call) where
  players := ps.players
  ask player := (ps.ask player).map fun ask c => (ask c).logged fun answer => [.answered c answer]
  uniform := fun (s, log) =>
    let (u, s) := ps.uniform s
    (u, (s, log))

/-- The same way to repeat a game, with a log of the histories after which it was asked whether to
stop. -/
def Repetition.called {σ : Type} (r : Repetition σ) : Repetition (σ × List NormalForm.Call) where
  rounds := r.rounds
  stop := r.stop.map fun stop h => (stop h).logged fun _ => [.stopped h]
  maxDepth := r.maxDepth
  ends := by simpa using r.ends
  bounded := r.bounded

/-- The question that is asked after a round: none after the last one of a given number. -/
def Repetition.question {σ : Type} (r : Repetition σ) (h : History) : List NormalForm.Call :=
  if r.stop.isNone ∨ r.rounds = some h.length then [] else [.stopped h]

namespace NormalForm

variable {ω σ : Type} [Scale ω]

/-- The state in which the round after these is played. -/
def shown (h : History) : Value :=
  .roundState ⟨h, .null, .empty⟩

/-- What the players are shown at once in a state. -/
def contexts (g : NormalForm σ) (state : Value) : List Context :=
  g.moveSets.mapIdx fun player moves => ⟨.int player, .tuple moves, g.numPlayers, state, .empty⟩

/-- The answers of all players, in their order. -/
def answers (g : NormalForm σ) (state : Value) (moves : List Value) : List Call :=
  List.zipWith (fun c move => .answered c (.ok move)) (g.contexts state) moves

/-- The moves of all players in one round, in their order. -/
def transcript (moves : List Value) : Transcript :=
  Transcript.empty.addAll (moves.mapIdx fun player move => ⟨.int player, move⟩)

/-- What a round puts on record in which these moves were made and this was paid. -/
def roundOutcome (moves : List Value) (payoff : Payoff) : Outcome :=
  ⟨payoff, some ⟨moves⟩, transcript moves, none⟩

/-- The end of the game when these moves were made and this was paid. -/
def paidEnd (moves : List Value) (payoff : Payoff) : Ending :=
  ⟨payoff, some ⟨moves⟩, none, .null⟩

/-- Every player has a strategy, and each of the moves is one of those declared for its player. -/
structure Legal (g : NormalForm σ) (ps : Participants ω σ) (moves : List Value) : Prop where
  seated : ∀ player < g.numPlayers, (ps.ask player).isSome = true
  among : List.Forall₂ (fun move moves => move.isAmong moves = true) moves g.moveSets

/-- The calls that are made in complete rounds with this history. In each round all players answer,
the payoff function is called with the profile of their answers, and then it may be asked whether to
stop after these rounds. -/
inductive Played (g : NormalForm σ) (ps : Participants ω σ) (r : Repetition σ) :
    History → List Call → Prop
  | none : Played g ps r .empty []
  | round {h : History} {calls : List Call} {moves : List Value} {v : Value} {payoff : Payoff}
      (hbefore : Played g ps r h calls) (hlegal : g.Legal ps moves)
      (hpayoff : Payoff.ofValue v = .ok payoff) :
      Played g ps r (h.add (roundOutcome moves payoff))
        (calls ++ (g.answers (shown h) moves ++ [.paid ⟨moves⟩ (.ok v)] ++
          r.question (h.add (roundOutcome moves payoff))))

/-- These calls are answers of players who were shown one of these contexts. -/
def AreAnswers (contexts : List Context) (calls : List Call) : Prop :=
  ∀ call ∈ calls, ∃ c ∈ contexts, ∃ answer, call = .answered c answer

/-- The calls that are made in a round in progress: the payoff function is not called, or it is
called once, after all players have given legal answers. -/
def InRound (g : NormalForm σ) (ps : Participants ω σ) (state : Value) (calls : List Call) : Prop :=
  AreAnswers (g.contexts state) calls ∨
    ∃ moves result, g.Legal ps moves ∧ calls = g.answers state moves ++ [.paid ⟨moves⟩ result]

variable {g : NormalForm σ} {ps : Participants ω σ} {r : Repetition σ} {h : History} {state : Value}
  {moves : List Value} {contexts : List Context} {calls log : List Call}

@[simp] theorem called_payoffOf (g : NormalForm σ) (profile : Profile) :
    g.called.payoffOf profile =
      (g.payoffOf profile).logged fun result => [.paid profile result] := rfl

/-- Whatever comes of a payment is the outcome of the round. -/
theorem eq_roundOutcome {payoff : Payoff} {numPlayers : Int} {o : Outcome}
    (ho : (paidEnd moves payoff).outcome (transcript moves) numPlayers = .ok o) :
    o = roundOutcome moves payoff := by
  obtain ⟨-, hpayoff, htranscript, hhistory, hprofile⟩ := Ending.outcome_eq_ok ho
  obtain ⟨payoff', profile, transcript', history⟩ := o
  cases hpayoff
  cases htranscript
  cases hhistory
  cases hprofile
  rfl

/-! ### One round -/

theorem contexts_everyone (g : NormalForm σ) (state : Value) :
    (Simultaneous.everyone g.moveSets state).seats.map
      ((Simultaneous.everyone g.moveSets state).context g.numPlayers .empty) =
        g.contexts state := by
  rw [NormalForm.contexts, List.mapIdx_eq_zipIdx_map, Simultaneous.everyone, List.map_map]
  rfl

/-- Asking everyone in a state is asking in each of these contexts. -/
theorem mapM_everyone {τ : Type} (g : NormalForm σ) (state : Value) (f : Context → Run τ Value) :
    ((Simultaneous.everyone g.moveSets state).seats.mapM fun seat =>
      f ((Simultaneous.everyone g.moveSets state).context g.numPlayers .empty seat)) =
      (g.contexts state).mapM f := by
  rw [← contexts_everyone, List.mapM_map]
  rfl

omit [Scale ω] in
/-- Players who have answered in these contexts have strategies. -/
theorem seated_of_answers (hmoves : Run.Gives ((g.contexts state).mapM ps.answer) moves)
    {player : Nat} (hplayer : player < g.numPlayers) : (ps.ask player).isSome = true := by
  have hlength : player < (g.contexts state).length := by
    rwa [NormalForm.contexts, List.length_mapIdx]
  have hcontext : (g.contexts state)[player].player = .int player := by
    simp [NormalForm.contexts]
  obtain ⟨p, hp, -, hask⟩ := Participants.seats_of_answers hmoves (List.getElem_mem hlength)
  cases hcontext.symm.trans hp
  exact hask

theorem transcript_everyone (hlength : moves.length = g.moveSets.length) (state : Value) :
    Transcript.empty.addAll ((Simultaneous.everyone g.moveSets state).plies moves) =
      transcript moves := by
  refine congrArg _ (List.ext_getElem ?_ fun n hn hn' => ?_)
  · simp [Simultaneous.plies, Simultaneous.everyone, hlength]
  · simp [Simultaneous.plies, Simultaneous.everyone]

/-- The moves of a decision of everyone are legal when each is declared for its player. -/
theorem among_of_everyone
    (h : List.Forall₂ (fun seat move => move.isAmong seat.moves = true)
      (Simultaneous.everyone g.moveSets state).seats moves) :
    List.Forall₂ (fun move moves => move.isAmong moves = true) moves g.moveSets := by
  have hsets : g.moveSets = (Simultaneous.everyone g.moveSets state).seats.map (·.moves) := by
    rw [Simultaneous.everyone, List.map_map]
    exact (List.zipIdx_map_fst 0 g.moveSets).symm
  rw [hsets, List.forall₂_map_right_iff]
  exact h.flip

theorem areAnswers_zipWith (contexts : List Context) (moves : List Value) :
    AreAnswers contexts (List.zipWith (fun c move => .answered c (.ok move)) contexts moves) := by
  intro call hcall
  obtain ⟨n, hn, rfl⟩ := List.getElem_of_mem hcall
  rw [List.length_zipWith, Nat.lt_min] at hn
  exact ⟨contexts[n], List.getElem_mem hn.1, .ok moves[n], List.getElem_zipWith⟩

omit [Scale ω] in
/-- Every answer is written down, and nothing else. -/
theorem answer_logs (c : Context) (log : List Call) :
    Run.Logs (· = log) (ps.answer c) (ps.called.answer c)
      (fun move log' => log' = .answered c (.ok move) :: log)
      (fun log' => ∃ calls, AreAnswers [c] calls ∧ log' = calls.reverse ++ log) := by
  unfold Participants.answer
  refine .bind (.given _ fun log' hlog' => ⟨[], nofun, hlog'⟩) fun player _ => ?_
  unfold Participants.called
  dsimp only
  cases ps.ask player with
  | none => exact .throw _ fun log' hlog' => ⟨[], nofun, hlog'⟩
  | some ask =>
      refine .logged fun result log' hlog' => ?_
      subst hlog'
      cases result with
      | ok move => rfl
      | error f =>
          refine ⟨[.answered c (.error f)], fun call hcall => ?_, rfl⟩
          exact ⟨c, List.mem_singleton_self c, .error f, List.mem_singleton.1 hcall⟩

omit [Scale ω] in
/-- So are all answers, in their order. -/
theorem answers_logs (contexts : List Context) (log : List Call) :
    Run.Logs (· = log) (contexts.mapM ps.answer) (contexts.mapM ps.called.answer)
      (fun moves log' => log' = (List.zipWith (fun c move => Call.answered c (.ok move)) contexts
        moves).reverse ++ log)
      (fun log' => ∃ calls, AreAnswers contexts calls ∧ log' = calls.reverse ++ log) := by
  induction contexts generalizing log with
  | nil => exact .pure [] fun log' hlog' => hlog'
  | cons c contexts ih =>
      rw [List.mapM_cons, List.mapM_cons]
      refine ((answer_logs c log).weaken ?_).bind fun move _ => ?_
      · rintro log' ⟨calls, hcalls, hlog'⟩
        refine ⟨calls, fun call hcall => ?_, hlog'⟩
        obtain ⟨c', hc', hanswer⟩ := hcalls call hcall
        exact ⟨c', List.mem_singleton.1 hc' ▸ List.mem_cons_self .., hanswer⟩
      · refine ((ih (.answered c (.ok move) :: log)).weaken ?_).bind
          fun moves _ => .pure (move :: moves) fun log' hlog' => ?_
        · rintro log' ⟨calls, hcalls, rfl⟩
          refine ⟨.answered c (.ok move) :: calls, fun call hcall => ?_, by simp⟩
          rcases List.mem_cons.1 hcall with rfl | hcall
          · exact ⟨c, List.mem_cons_self .., .ok move, rfl⟩
          · obtain ⟨c', hc', hanswer⟩ := hcalls call hcall
            exact ⟨c', List.mem_cons_of_mem _ hc', hanswer⟩
        · rw [hlog']
          simp

omit [Scale ω] in
/-- When everyone has decided, all of them have given legal answers. -/
theorem decideTogether_logs (g : NormalForm σ) (state : Value) (log : List Call) :
    Run.Logs (· = log)
      (Walk.decideTogether ps g.numPlayers .empty (.everyone g.moveSets state))
      (Walk.decideTogether ps.called g.numPlayers .empty (.everyone g.moveSets state))
      (fun moves log' => g.Legal ps moves ∧ log' = (g.answers state moves).reverse ++ log)
      (fun log' => ∃ calls, AreAnswers (g.contexts state) calls ∧ log' = calls.reverse ++ log) := by
  have hnobody : ∀ log', log' = log →
      ∃ calls, AreAnswers (g.contexts state) calls ∧ log' = calls.reverse ++ log :=
    fun log' hlog' => ⟨[], nofun, hlog'⟩
  unfold Walk.decideTogether
  rw [mapM_everyone, mapM_everyone]
  refine .bind (.given _ hnobody) fun _ _ => .bind (answers_logs _ log) fun moves hmoves => ?_
  have hlength : (Simultaneous.everyone g.moveSets state).seats.length = moves.length := by
    rw [← (Run.gives_mapM hmoves).length_eq, ← contexts_everyone, List.length_map]
  refine .bind (.liftM _ fun log' hlog' => ?_) fun _ _ => .pure moves fun log' hlog' => hlog'
  cases hlegal : (Simultaneous.everyone g.moveSets state).checkLegal moves with
  | error f => exact ⟨_, areAnswers_zipWith _ moves, hlog'⟩
  | ok =>
      exact ⟨⟨fun player => seated_of_answers hmoves,
        among_of_everyone ((Simultaneous.checkLegal_eq_ok hlength).1 hlegal)⟩, hlog'⟩

/-- The payoff function is called once for legal moves, whatever comes of it. -/
theorem payoff_logs (hlegal : List.Forall₂ (fun move moves => move.isAmong moves = true) moves
    g.moveSets) (log : List Call) :
    Run.Logs (· = log) (g.payoff ⟨moves⟩) (g.called.payoff ⟨moves⟩)
      (fun payoff log' => ∃ v, Payoff.ofValue v = .ok payoff ∧ log' = .paid ⟨moves⟩ (.ok v) :: log)
      (fun log' => ∃ result, log' = .paid ⟨moves⟩ result :: log) := by
  have hvalid : g.isValidProfile ⟨moves⟩ = true := isValidProfile_iff.2 hlegal
  have hvalid' : g.called.isValidProfile ⟨moves⟩ = true := hvalid
  rw [payoff_of_valid hvalid, payoff_of_valid hvalid', called_payoffOf]
  refine .bind (Q := fun v log' => log' = .paid ⟨moves⟩ (.ok v) :: log)
    (.logged fun result log' hlog' => ?_) fun v _ => ?_
  · cases result with
    | ok v => exact congrArg _ hlog'
    | error f => exact ⟨.error f, congrArg _ hlog'⟩
  · have hpaid : ∀ log', log' = .paid ⟨moves⟩ (.ok v) :: log → ∃ result,
      log' = .paid ⟨moves⟩ result :: log := fun log' hlog' => ⟨.ok v, hlog'⟩
    have hcoerced : Run.Logs (· = .paid ⟨moves⟩ (.ok v) :: log)
        (liftM (Payoff.ofValue v) : Run σ Payoff) (liftM (Payoff.ofValue v))
        (fun payoff log' => ∃ v, Payoff.ofValue v = .ok payoff ∧
          log' = .paid ⟨moves⟩ (.ok v) :: log)
        (fun log' => ∃ result, log' = .paid ⟨moves⟩ result :: log) := by
      refine .liftM _ fun log' hlog' => ?_
      cases hpayoff : Payoff.ofValue v with
      | ok payoff => exact ⟨v, hpayoff, hlog'⟩
      | error f => exact hpaid log' hlog'
    cases v with
    | null => exact .throw _ hpaid
    | _ => exact hcoerced

omit [Scale ω] in
/-- A round that is played to its end has the answers of all players and one payment in the log, and
a round that is not is in progress. -/
theorem round_logs {α : Type} {k : List Value → Payoff → Run σ α}
    {k' : List Value → Payoff → Run (σ × List Call) α} {Q : α → List Call → Prop}
    {E : List Call → Prop}
    (hrest : ∀ moves v payoff, g.Legal ps moves → Payoff.ofValue v = .ok payoff →
      Run.Logs (· = (g.answers state moves ++ [Call.paid ⟨moves⟩ (.ok v)]).reverse ++ log)
        (k moves payoff) (k' moves payoff) Q E)
    (hE : ∀ rest, g.InRound ps state rest → E (rest.reverse ++ log)) :
    Run.Logs (· = log)
      (do
        let moves ← Walk.decideTogether ps g.numPlayers .empty (.everyone g.moveSets state)
        k moves (← g.payoff ⟨moves⟩))
      (do
        let moves ← Walk.decideTogether ps.called g.numPlayers .empty (.everyone g.moveSets state)
        k' moves (← g.called.payoff ⟨moves⟩)) Q E := by
  refine ((decideTogether_logs g state log).weaken ?_).bind
    fun moves _ => ?_
  · rintro log' ⟨calls, hcalls, rfl⟩
    exact hE calls (.inl hcalls)
  rintro s log' ⟨hlegal, rfl⟩
  refine ((payoff_logs hlegal.among _).weaken ?_).bind
    (fun payoff _ => ?_) s _ rfl
  · rintro log' ⟨result, rfl⟩
    have hround := hE _ (.inr ⟨moves, result, hlegal, rfl⟩)
    rwa [List.reverse_append] at hround
  · rintro s' log' ⟨v, hpayoff, rfl⟩
    refine hrest moves v payoff hlegal hpayoff s' _ ?_
    rw [List.reverse_append]
    rfl

/-- The moves of all players lead to the end of the game, once they are paid for. -/
theorem follow_moves (g : NormalForm σ) (moves : List Value) :
    (g.tree (ω := ω)).follow none (.tuple moves) =
      do return some (paidEnd moves (← g.payoff ⟨moves⟩)) := by
  refine Tree.follow_eq rfl ?_
  show (do
    let profile ← (liftM (Profile.ofValue (.tuple moves)) : Run σ Profile)
    return some (some ⟨← g.payoff profile, some profile, none, .null⟩) :
      Run σ (Option (Option Ending))) = (do
    return some (← (do return some (paidEnd moves (← g.payoff ⟨moves⟩)) : Run σ (Option Ending))))
  have hprofile : Profile.ofValue (.tuple moves) = .ok ⟨moves⟩ := rfl
  rw [hprofile, Run.liftM_ok, pure_bind]
  simp only [bind_assoc, pure_bind]
  rfl

/-- So a visit at the beginning of the tree is a round. -/
theorem decide_follow {α : Type} (g : NormalForm σ) (ps : Participants ω σ) (state : Value)
    (k : Value → Option Ending → Run σ α) :
    (do
      let key ← Walk.decide ps g.numPlayers .empty ((g.tree.node (ω := ω) none).withState state)
      k key (← (g.tree (ω := ω)).follow none key)) =
      (do
        let moves ← Walk.decideTogether ps g.numPlayers .empty (.everyone g.moveSets state)
        k (.tuple moves) (some (paidEnd moves (← g.payoff ⟨moves⟩)))) := by
  show (do
    let key ← (do
      return Value.tuple
        (← Walk.decideTogether ps g.numPlayers .empty (.everyone g.moveSets state)))
    k key (← (g.tree (ω := ω)).follow none key)) = _
  simp only [bind_assoc, pure_bind]
  refine bind_congr fun moves => ?_
  rw [follow_moves]
  exact bind_assoc (g.payoff ⟨moves⟩) _ _

/-! ### Round after round -/

/-- What is in the log of a play that may go on, has failed or was left off: the calls of complete
rounds and those of a round in progress. -/
def Recorded (g : NormalForm σ) (ps : Participants ω σ) (r : Repetition σ) (log : List Call) :
    Prop :=
  ∃ h calls rest, g.Played ps r h calls ∧ g.InRound ps (shown h) rest ∧
    log = (calls ++ rest).reverse

/-- What is in the log at a position of the repeated game: the calls of complete rounds. A round is
never left at its end. -/
def LogAt (g : NormalForm σ) (ps : Participants ω σ) (r : Repetition σ) :
    RoundPosition (Option Ending) → Transcript → List Call → Prop
  | .within none h t, transcript, log => t = .empty ∧ transcript = .empty ∧
      r.rounds.any (· ≤ h.length) = false ∧ ∃ calls, g.Played ps r h calls ∧ log = calls.reverse
  | .within (some _) _ _, _, _ => False
  | .over e, _, log =>
      ∃ h calls, e.history = some h ∧ g.Played ps r h calls ∧ log = calls.reverse

omit [Scale ω] in
theorem Played.recorded (hplayed : g.Played ps r h calls) : g.Recorded ps r calls.reverse :=
  ⟨h, calls, [], hplayed, .inl nofun, by rw [List.append_nil]⟩

omit [Scale ω] in
theorem LogAt.recorded {P : RoundPosition (Option Ending)} {t : Transcript}
    (hlog : g.LogAt ps r P t log) : g.Recorded ps r log := by
  cases P with
  | within p h t' =>
      cases p with
      | none =>
          obtain ⟨-, -, -, calls, hplayed, rfl⟩ := hlog
          exact hplayed.recorded
      | some e => exact hlog.elim
  | _ e =>
      obtain ⟨h, calls, -, hplayed, rfl⟩ := hlog
      exact hplayed.recorded

/-- After a round it is asked whether to stop, unless it was the last one of a given number. -/
theorem isFinished_logs (r : Repetition σ) (hleft : r.rounds.any (· ≤ h.length) = false)
    (o : Outcome) (log : List Call) :
    Run.Logs (· = log) (r.isFinished (h.add o)) (r.called.isFinished (h.add o))
      (fun finished log' => log' = (r.question (h.add o)).reverse ++ log ∧
        (finished = false → r.rounds.any (· ≤ (h.add o).length) = false))
      (fun log' => log' = (r.question (h.add o)).reverse ++ log) := by
  have hlength : (h.add o).length = h.length + 1 := rfl
  have hrounds : r.called.rounds = r.rounds := rfl
  have hstop : r.called.stop =
    r.stop.map fun stop h => (stop h).logged fun _ => [.stopped h] := rfl
  unfold Repetition.isFinished
  rw [hrounds, hstop]
  cases hlast : r.rounds.any (· ≤ (h.add o).length) with
  | true =>
      have hnone : r.question (h.add o) = [] := by
        obtain ⟨rounds, hrounds, hle⟩ := (Option.any_eq_true _ _).1 hlast
        rw [hrounds, Option.any_some, decide_eq_false_iff_not] at hleft
        refine if_pos (.inr ?_)
        rw [hrounds]
        have hle' := of_decide_eq_true hle
        exact congrArg some (by omega)
      rw [hnone]
      exact .pure true fun log' hlog' => ⟨hlog', nofun⟩
  | false =>
      have hne : r.rounds ≠ some (h.add o).length := by
        intro heq
        rw [heq] at hlast
        simp at hlast
      rw [if_neg Bool.false_ne_true, if_neg Bool.false_ne_true]
      cases hstop : r.stop with
      | none =>
          have hnone : r.question (h.add o) = [] := if_pos (.inl (by rw [hstop]; rfl))
          rw [hnone]
          exact .pure false fun log' hlog' => ⟨hlog', fun _ => rfl⟩
      | some stop =>
          have hone : r.question (h.add o) = [.stopped (h.add o)] := by
            refine if_neg ?_
            rw [hstop]
            simpa using hne
          rw [hone]
          refine .bind (Q := fun _ log' => log' = .stopped (h.add o) :: log)
            (.logged fun result log' hlog' => ?_) fun v _ =>
              .pure _ fun log' hlog' => ⟨hlog', fun _ => rfl⟩
          cases result with
          | ok v => exact congrArg _ hlog'
          | error f => exact congrArg _ hlog'

/-- A round begins with the decision of everyone. -/
theorem settle_root (g : NormalForm σ) (r : Repetition σ) (further : Nat) (h : History) :
    (do r.settle (g.game (ω := ω)) further (← (g.game (ω := ω)).root) h .empty) =
      pure (RoundPosition.within none h .empty) := by
  have hnode : ((g.game (ω := ω)).tree.node none).goesOn = true := rfl
  exact (pure_bind _ _).trans (Repetition.settle_goesOn hnode)

/-- What comes after a payment: the round is put on record, unless the payoff is of the wrong size,
and then the game is over or everyone moves again. -/
theorem settle_logs {v : Value} {payoff : Payoff} (hplayed : g.Played ps r h calls)
    (hleft : r.rounds.any (· ≤ h.length) = false) (hlegal : g.Legal ps moves)
    (hpayoff : Payoff.ofValue v = .ok payoff) (further : Nat) :
    Run.Logs
      (· = (g.answers (shown h) moves ++ [Call.paid ⟨moves⟩ (.ok v)]).reverse ++ calls.reverse)
      (r.settle (g.game (ω := ω)) further (some (paidEnd moves payoff)) h
        (transcript moves))
      (r.called.settle (g.called.game (ω := ω)) further (some (paidEnd moves payoff)) h
        (transcript moves))
      (fun P log => ∀ played, g.LogAt ps r P
        ((P.node (g.game (ω := ω)).tree).state.transcript?.getD played) log)
      (g.Recorded ps r) := by
  have hround : ∀ log, log = (g.answers (shown h) moves ++
      [Call.paid ⟨moves⟩ (.ok v)]).reverse ++ calls.reverse → g.Recorded ps r log :=
    fun log hlog => ⟨h, calls, _, hplayed, .inr ⟨moves, .ok v, hlegal, rfl⟩, by
      rw [hlog, ← List.reverse_append]⟩
  have hnode : (g.game (ω := ω)).tree.node (some (paidEnd moves payoff)) =
    .terminal (paidEnd moves payoff) := rfl
  have hnode' : (g.called.game (ω := ω)).tree.node (some (paidEnd moves payoff)) =
    .terminal (paidEnd moves payoff) := rfl
  rw [Repetition.settle_end r _ hnode, Repetition.settle_end r.called _ hnode']
  refine .bind (.given _ hround) fun o ho => ?_
  obtain rfl : o = roundOutcome moves payoff := by
    obtain ⟨s, s', ho⟩ := ho
    exact eq_roundOutcome (congrArg Prod.fst ho)
  have hover := hplayed.round hlegal hpayoff
  rw [← List.append_assoc] at hover
  have hasked : ∀ log, log = (r.question (h.add (roundOutcome moves payoff))).reverse ++
      ((g.answers (shown h) moves ++ [Call.paid ⟨moves⟩ (.ok v)]).reverse ++ calls.reverse) →
      log = (calls ++ (g.answers (shown h) moves ++ [Call.paid ⟨moves⟩ (.ok v)]) ++
        r.question (h.add (roundOutcome moves payoff))).reverse := by
    intro log hlog
    rw [hlog, ← List.reverse_append, ← List.reverse_append]
  intro s log hlog
  subst hlog
  refine Run.Logs.bind (P := (· = _)) ((isFinished_logs r hleft _ _).weaken fun log hlog => ?_)
    (fun finished _ => ?_) s _ rfl
  · rw [hasked log hlog]
    exact hover.recorded
  · cases finished with
    | true =>
        refine .bind (.given _ fun log hlog => ?_) fun score _ => .pure _ fun log hlog played => ?_
        · rw [hasked log hlog.1]
          exact hover.recorded
        · exact ⟨_, _, rfl, hover, hasked log hlog.1⟩
    | false =>
        cases further with
        | zero =>
            refine .throw _ fun log hlog => ?_
            rw [hasked log hlog.1]
            exact hover.recorded
        | succ further =>
            rw [if_neg Bool.false_ne_true, if_neg Bool.false_ne_true]
            dsimp only
            rw [settle_root, settle_root]
            refine .pure (RoundPosition.within none _ .empty) fun log hlog played => ?_
            exact ⟨rfl, rfl, hlog.2 rfl, _, hover, hasked log hlog.1⟩

/-- What is in the log of a repeated game that has ended or was left off. -/
def LogOf (g : NormalForm σ) (ps : Participants ω σ) (r : Repetition σ) :
    Option Outcome → List Call → Prop
  | some o, log => ∃ h calls, o.history = some h ∧ g.Played ps r h calls ∧ log = calls.reverse
  | none, log => g.Recorded ps r log

/-- A visit of the repeated game that is not cut off is a round: everyone decides, the moves are
paid for, and the end of the round is settled. -/
theorem run_round {maxDepth : Int} {round : Value} {visited : Nat}
    (hbound : ¬ maxDepth ≤ (Walk.enter (t := (g.game (ω := ω)).repeatedTree r)
      ⟨.within none h .empty, .empty, round, visited⟩).visited) (visits : Nat) :
    Walk.run ((g.game (ω := ω)).repeatedTree r) ps g.numPlayers maxDepth (visits + 1)
        ⟨.within none h .empty, .empty, round, visited⟩ =
      (do
        let moves ← Walk.decideTogether ps g.numPlayers .empty (.everyone g.moveSets (shown h))
        let payoff ← g.payoff ⟨moves⟩
        let played := Transcript.empty.addAll ((Simultaneous.everyone g.moveSets .null).plies moves)
        let P ← r.settle (g.game (ω := ω)) (r.further h) (some (paidEnd moves payoff)) h played
        let entered := Walk.enter (t := (g.game (ω := ω)).repeatedTree r)
          ⟨.within none h .empty, .empty, round, visited⟩
        Walk.run ((g.game (ω := ω)).repeatedTree r) ps g.numPlayers maxDepth visits
          ⟨P, (P.node (g.game (ω := ω)).tree).state.transcript?.getD played, entered.round,
            entered.visited + 1⟩) := by
  let k : Value → Option Ending → Run σ (Option Outcome) := fun key q => do
    let P ← r.settle (g.game (ω := ω)) (r.further h) q h
      (Transcript.empty.addAll (((g.game (ω := ω)).tree.node none).plies key))
    let played := Transcript.empty.addAll
      ((((g.game (ω := ω)).repeatedTree r).node (.within none h .empty)).plies key)
    let entered := Walk.enter (t := (g.game (ω := ω)).repeatedTree r)
      ⟨.within none h .empty, .empty, round, visited⟩
    Walk.run ((g.game (ω := ω)).repeatedTree r) ps g.numPlayers maxDepth visits
      ⟨P, (P.node (g.game (ω := ω)).tree).state.transcript?.getD played, entered.round,
        entered.visited + 1⟩
  have hround := decide_follow (ω := ω) g ps (shown h) k
  refine (Walk.run_goesOn hbound rfl visits).trans (Eq.trans ?_ hround)
  refine Run.bind_congr_of fun key s s' hkey => ?_
  have hlookup : ((g.game (ω := ω)).tree.node none).lookupKey key = .ok key :=
    (Node.withState_lookupKey _ _).symm.trans (Walk.lookupKey_of_decide hkey)
  have hfollow := Game.follow_within (r := r) (h := h) (t := .empty) hlookup
  exact (congrArg (· >>= _) hfollow).trans
    (bind_assoc ((g.game (ω := ω)).tree.follow none key) _ _)

/-- With a log the same stands at each position. -/
theorem node_called (g : NormalForm σ) :
    RoundPosition.node (g.called.game (ω := ω)).tree =
      RoundPosition.node (g.game (ω := ω)).tree := by
  funext P
  cases P with
  | within p h t => cases p <;> rfl
  | _ e => rfl

/-- So a visit is cut off with a log where it is cut off without one. -/
theorem bound_called (g : NormalForm σ) (r : Repetition σ)
    (w : Walk (RoundPosition (Option Ending))) (maxDepth : Int) :
    maxDepth ≤ (Walk.enter (t := (g.called.game (ω := ω)).repeatedTree r.called) w).visited ↔
      maxDepth ≤ (Walk.enter (t := (g.game (ω := ω)).repeatedTree r) w).visited := by
  have hnode := congrFun (node_called (ω := ω) g) w.position
  show maxDepth ≤ ((let round := (RoundPosition.node (g.called.game (ω := ω)).tree
    w.position).state.round
    if round == w.round then w else { w with round := round, visited := 0 }).visited : Int) ↔ _
  rw [hnode]
  rfl

/-- Each visit of the repeated game is a round, and the last one ends it. -/
theorem run_logs (maxDepth : Int) (visits : Nat)
    (w : Walk (RoundPosition (Option Ending))) :
    Run.Logs (g.LogAt ps r w.position w.transcript)
      (Walk.run ((g.game (ω := ω)).repeatedTree r) ps g.numPlayers maxDepth visits w)
      (Walk.run ((g.called.game (ω := ω)).repeatedTree r.called) ps.called g.numPlayers maxDepth
        visits w)
      (g.LogOf ps r) (g.Recorded ps r) := by
  induction visits generalizing w with
  | zero => exact .pure none fun log hlog => hlog.recorded
  | succ visits ih =>
      intro s log hlog
      obtain ⟨position, transcript, round, visited⟩ := w
      have henter := bound_called (ω := ω) g r ⟨position, transcript, round, visited⟩ maxDepth
      cases position with
      | within p h t =>
          cases p with
          | some e => exact hlog.elim
          | none =>
              obtain ⟨rfl, rfl, hleft, calls, hplayed, rfl⟩ := hlog
              by_cases hbound : maxDepth ≤ (Walk.enter (t := (g.game (ω := ω)).repeatedTree r)
                  ⟨.within none h .empty, .empty, round, visited⟩).visited
              · have hbound' := henter.2 hbound
                refine Run.Logs.of_eq (P := (· = calls.reverse)) (Walk.run_cut_off hbound visits)
                  (Walk.run_cut_off hbound' visits) (.throw _ fun log hlog => ?_) s _ rfl
                rw [hlog]
                exact hplayed.recorded
              · have hbound' := mt henter.1 hbound
                refine Run.Logs.of_eq (P := (· = calls.reverse)) (run_round hbound visits)
                  (run_round (g := g.called) (r := r.called) hbound' visits)
                  (round_logs (fun moves v payoff hlegal hpayoff => ?_) fun rest hrest => ?_) s _ rfl
                · dsimp only
                  rw [transcript_everyone hlegal.among.length_eq,
                    transcript_everyone (g := g.called) hlegal.among.length_eq]
                  refine (settle_logs hplayed hleft hlegal hpayoff (r.further h)).bind
                    fun P _ s log hlog => ?_
                  rw [node_called]
                  exact ih ⟨P, _, _, _⟩ s log (hlog (transcript moves))
                · exact ⟨h, calls, rest, hplayed, hrest, by rw [List.reverse_append]⟩
      | _ e =>
          by_cases hbound : maxDepth ≤ (Walk.enter (t := (g.game (ω := ω)).repeatedTree r)
              ⟨.over e, transcript, round, visited⟩).visited
          · have hbound' := henter.2 hbound
            refine Run.Logs.of_eq (Walk.run_cut_off hbound visits)
              (Walk.run_cut_off hbound' visits) (.throw _ fun log hlog => hlog.recorded) s log hlog
          · have hbound' := mt henter.1 hbound
            refine Run.Logs.of_eq (Walk.run_terminal hbound rfl visits)
              (Walk.run_terminal hbound' rfl visits)
              (.bind (.given _ fun log hlog => hlog.recorded) fun o ho => ?_) s log hlog
            refine .pure _ fun log hlog => ?_
            obtain ⟨h, calls, hhistory, hplayed⟩ := hlog
            obtain ⟨s, s', ho⟩ := ho
            obtain ⟨-, -, -, ho, -⟩ := Ending.outcome_eq_ok (congrArg Prod.fst ho)
            exact ⟨h, calls, ho.trans hhistory, hplayed⟩

/-- A play of the repeated game proceeds like the play without a log, from its first round on. -/
theorem repeated_play_logs (g : NormalForm σ) (ps : Participants ω σ) (r : Repetition σ)
    (name : String) (maxDepth : Int) (visits : Nat) :
    Run.Logs (· = []) (((g.game (ω := ω)).repeated r name).play ps maxDepth visits)
      (((g.called.game (ω := ω)).repeated r.called name).play ps.called maxDepth visits)
      (g.LogOf ps r) (g.Recorded ps r) := by
  have hempty : r.rounds.any (· ≤ History.empty.length) = false := by
    cases hrounds : r.rounds with
    | none => rfl
    | some rounds =>
        have hpos := (r.bounded rounds hrounds).1
        exact decide_eq_false fun hle => Nat.not_succ_le_zero 0 (Nat.le_trans hpos hle)
  refine .of_eq ((congrArg (· >>= _) (settle_root g r _ _)).trans (pure_bind _ _))
    ((congrArg (· >>= _) (settle_root g.called r.called _ _)).trans (pure_bind _ _))
    (.bind (.given _ fun log hlog => ?_) fun _ _ s log hlog => ?_)
  · rw [hlog]
    exact Played.none.recorded
  · exact run_logs maxDepth visits ⟨.within none .empty .empty, .empty, .int 0, 0⟩ s log
      ⟨rfl, rfl, hempty, [], .none, hlog⟩

/-- These calls are those of a single play with this outcome. -/
def PlayedOnce (g : NormalForm σ) (ps : Participants ω σ) (o : Outcome) (calls : List Call) :
    Prop :=
  ∃ moves v payoff, g.Legal ps moves ∧ Payoff.ofValue v = .ok payoff ∧
    o = roundOutcome moves payoff ∧ calls = g.answers .null moves ++ [.paid ⟨moves⟩ (.ok v)]

/-- What is in the log of a single play that has ended or was left off. -/
def LogOfOne (g : NormalForm σ) (ps : Participants ω σ) : Option Outcome → List Call → Prop
  | some o, log => ∃ calls, log = calls.reverse ∧ g.PlayedOnce ps o calls
  | none, log => ∃ calls, log = calls.reverse ∧ g.InRound ps .null calls

/-- The first visit of a single play that is not cut off is a round, and its payoff ends the play.
-/
theorem run_once {maxDepth : Int}
    (hbound : ¬ maxDepth ≤ (Walk.start (g.tree (ω := ω)) none).enter.visited) (visits : Nat) :
    Walk.run (g.tree (ω := ω)) ps g.numPlayers maxDepth (visits + 1) (Walk.start _ none) =
      (do
        let moves ← Walk.decideTogether ps g.numPlayers .empty (.everyone g.moveSets .null)
        let payoff ← g.payoff ⟨moves⟩
        let played := Transcript.empty.addAll ((Simultaneous.everyone g.moveSets .null).plies moves)
        let entered := (Walk.start (g.tree (ω := ω)) none).enter
        Walk.run (g.tree (ω := ω)) ps g.numPlayers maxDepth visits
          ⟨some (paidEnd moves payoff), played, entered.round, entered.visited + 1⟩) := by
  let k : Value → Option Ending → Run σ (Option Outcome) := fun key q => do
    let played := Transcript.empty.addAll (((g.tree (ω := ω)).node none).plies key)
    let entered := (Walk.start (g.tree (ω := ω)) none).enter
    Walk.run (g.tree (ω := ω)) ps g.numPlayers maxDepth visits
      ⟨q, ((g.tree (ω := ω)).node q).state.transcript?.getD played, entered.round,
        entered.visited + 1⟩
  have hround := decide_follow (ω := ω) g ps .null k
  exact (Walk.run_goesOn hbound rfl visits).trans hround

/-- A single play has one round. -/
theorem play_logs (g : NormalForm σ) (ps : Participants ω σ) (maxDepth : Int)
    (visits : Nat) :
    Run.Logs (· = []) ((g.game (ω := ω)).play ps maxDepth visits)
      ((g.called.game (ω := ω)).play ps.called maxDepth visits) (g.LogOfOne ps)
      (fun log => ∃ calls, log = calls.reverse ∧ g.InRound ps .null calls) := by
  have hnobody : ∀ log, log = [] → ∃ calls, log = calls.reverse ∧ g.InRound ps .null calls :=
    fun log hlog => ⟨[], hlog, .inl nofun⟩
  refine .of_eq (pure_bind _ _) (pure_bind _ _) (.bind (.given _ hnobody) fun _ _ => ?_)
  cases visits with
  | zero => exact .pure none hnobody
  | succ visits =>
      by_cases hbound : maxDepth ≤ (Walk.start (g.tree (ω := ω)) none).enter.visited
      · exact .of_eq (Walk.run_cut_off hbound visits)
          (Walk.run_cut_off (t := g.called.tree (ω := ω)) hbound visits) (.throw _ hnobody)
      refine .of_eq (run_once hbound visits) (run_once (g := g.called) hbound visits)
        fun s log hlog => ?_
      subst hlog
      refine round_logs (fun moves v payoff hlegal hpayoff => ?_) (fun rest hrest => ?_) s [] rfl
      · have hpaid : ∀ log,
            log = (g.answers .null moves ++ [Call.paid ⟨moves⟩ (.ok v)]).reverse ++ [] →
              ∃ calls, log = calls.reverse ∧ g.InRound ps .null calls :=
          fun log hlog => ⟨_, hlog.trans (List.append_nil _), .inr ⟨moves, .ok v, hlegal, rfl⟩⟩
        dsimp only
        rw [transcript_everyone hlegal.among.length_eq,
          transcript_everyone (g := g.called) hlegal.among.length_eq]
        cases visits with
        | zero => exact .pure none hpaid
        | succ visits =>
            by_cases hbound : maxDepth ≤ (Walk.enter (t := g.tree (ω := ω))
                ⟨some (paidEnd moves payoff), transcript moves, .null, 1⟩).visited
            · exact .of_eq (Walk.run_cut_off hbound visits)
                (Walk.run_cut_off (t := g.called.tree (ω := ω)) hbound visits) (.throw _ hpaid)
            · refine .of_eq (Walk.run_terminal hbound rfl visits)
                (Walk.run_terminal (t := g.called.tree (ω := ω)) hbound rfl visits)
                (.bind (.given _ hpaid) fun o ho => .pure _ fun log hlog => ?_)
              obtain ⟨s, s', ho⟩ := ho
              exact ⟨_, hlog.trans (List.append_nil _), moves, v, payoff, hlegal, hpayoff,
                eq_roundOutcome (congrArg Prod.fst ho), rfl⟩
      · exact ⟨rest, List.append_nil _, hrest⟩

/-- In a repeated play of a game in normal form, the calls are those of complete rounds, one after
the other, followed by those of a round in progress. In a complete round all players give legal
answers in their order, the payoff function is called once, with the profile of these answers, and
what it pays is put on record with that profile and these moves; then it is asked whether to stop
after the rounds so far, but not after the last one of a given number. In the round in progress the
payoff function is not called before all players, who all have strategies, have given legal answers.
If the play has an outcome, then its history is that of the complete rounds, and there are no other
calls. In a single play there is one such round, in the state of the game, and its outcome is that
of the play. -/
theorem payoff_called_once_a_round (g : NormalForm σ) (ps : Participants ω σ)
    (maxDepth : Int) (visits : Nat) (s : σ) :
    (∀ (r : Repetition σ) (name : String) result s',
      (((g.game (ω := ω)).repeated r name).play ps maxDepth visits).start s = (result, s') →
      ∃ h calls rest,
        (((g.called.game (ω := ω)).repeated r.called name).play ps.called maxDepth visits).start
          (s, []) = (result, (s', (calls ++ rest).reverse)) ∧
        g.Played ps r h calls ∧ g.InRound ps (shown h) rest ∧
        ∀ o, result = .ok (some o) → o.history = some h ∧ rest = []) ∧
    ∀ result s', ((g.game (ω := ω)).play ps maxDepth visits).start s = (result, s') →
      ∃ calls,
        ((g.called.game (ω := ω)).play ps.called maxDepth visits).start (s, []) =
          (result, (s', calls.reverse)) ∧
        ((∃ o, result = .ok (some o) ∧ g.PlayedOnce ps o calls) ∨
          (∀ o, result ≠ .ok (some o)) ∧ g.InRound ps .null calls) := by
  constructor
  · intro r name result s' hplay
    obtain ⟨log, hlogged, hafter⟩ := repeated_play_logs g ps r name maxDepth visits s [] rfl
    rw [hplay] at hlogged hafter
    rcases result with f | (_ | o)
    · obtain ⟨h, calls, rest, hplayed, hrest, rfl⟩ := hafter
      exact ⟨h, calls, rest, hlogged, hplayed, hrest, nofun⟩
    · obtain ⟨h, calls, rest, hplayed, hrest, rfl⟩ := hafter
      exact ⟨h, calls, rest, hlogged, hplayed, hrest, nofun⟩
    · obtain ⟨h, calls, hhistory, hplayed, rfl⟩ := hafter
      refine ⟨h, calls, [], ?_, hplayed, .inl nofun, fun o' ho' => ?_⟩
      · rw [List.append_nil]
        exact hlogged
      · cases ho'
        exact ⟨hhistory, rfl⟩
  · intro result s' hplay
    obtain ⟨log, hlogged, hafter⟩ := play_logs g ps maxDepth visits s [] rfl
    rw [hplay] at hlogged hafter
    rcases result with f | (_ | o)
    · obtain ⟨calls, rfl, hround⟩ := hafter
      exact ⟨calls, hlogged, .inr ⟨nofun, hround⟩⟩
    · obtain ⟨calls, rfl, hround⟩ := hafter
      exact ⟨calls, hlogged, .inr ⟨nofun, hround⟩⟩
    · obtain ⟨calls, rfl, hround⟩ := hafter
      exact ⟨calls, hlogged, .inl ⟨o, rfl, hround⟩⟩

/-- A player gives the other one three, or keeps one. -/
def exchange : NormalForm Unit where
  name := "exchange"
  moveSets := [[.bool true, .bool false], [.bool true, .bool false]]
  payoffOf
    | ⟨[left, right]⟩ =>
        let share give take : Value :=
          .int ((if Value.truthy take then 3 else 0) + (if Value.truthy give then 0 else 1))
        return .payoff ⟨[share left right, share right left]⟩
    | _ => return .null
  hasPlayer := by simp
  hasMoves := by simp

/-- The first player gives, the second one keeps. -/
def mixed : Participants Rat Unit where
  players := [.int 0, .int 1]
  ask player := if player < 2 then some fun c => return .bool (c.player == .int 0) else none
  uniform := return 0

/-- Two rounds, unless it is enough after the first one, which it is not. -/
def asking : Repetition Unit where
  rounds := some 2
  stop := some fun _ => return .bool false
  maxDepth := 1
  ends := .inl rfl
  bounded := by decide

/-- In two rounds of the exchange there are two payments, and one question between them. -/
theorem exchanges_are_paid_for :
    ∃ o h calls,
      (((exchange.game (ω := Rat)).repeated asking "").play mixed 5 9).start () =
        (.ok (some o), ()) ∧
      (((exchange.called.game (ω := Rat)).repeated asking.called "").play mixed.called 5 9).start
        ((), []) = (.ok (some o), ((), calls.reverse)) ∧
      o.history = some h ∧ exchange.Played mixed asking h calls ∧ calls.length = 7 := by
  obtain ⟨o, hplay⟩ : ∃ o,
      (((exchange.game (ω := Rat)).repeated asking "").play mixed 5 9).start () =
    (.ok (some o), ()) := ⟨_, rfl⟩
  obtain ⟨h, calls, rest, hlogged, hplayed, -, hend⟩ :=
    (payoff_called_once_a_round exchange mixed 5 9 ()).1 asking "" _ _ hplay
  obtain ⟨hhistory, rfl⟩ := hend _ rfl
  rw [List.append_nil] at hlogged
  refine ⟨o, h, calls, hplay, hlogged, hhistory, hplayed, ?_⟩
  have hlog := congrArg (fun result => result.2.2.length) hlogged
  rw [← List.length_reverse]
  exact hlog.symm

end NormalForm

end ExtensiveForm
