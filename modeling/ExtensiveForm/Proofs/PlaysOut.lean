import ExtensiveForm.Proofs.Bound

/-!
# How a repeated play ends

With a number of rounds a repeated game is played round by round, as `play_repeated_eq` says. A game
that only its history ends may go on for ever, so this module tells its play by what happens:
`Game.Leads` are the rounds that are completed and followed by another one, and `Game.PlaysOut` says
how a play may end after them. `play_plays_out` and `PlaysOut.play` say that a play of a repeated
game ends in this way or not at all, whatever its end is given by.

The walk begins each next round in the same visit in which the round before it was completed.
`Round.atOnce` are the rounds that one visit has completed so far, and `Repetition.spare` those that
it may still begin. A move starts them anew.
-/

namespace ExtensiveForm

/-- A completed round: the number of its decisions and moves of chance, the state of the stage game
at its end, and its outcome. -/
structure Round where
  moves : Nat
  state : Value
  outcome : Outcome

namespace Round

variable {round : Round} {rounds : List Round}

/-- The history of some rounds, the latest first. -/
def history (rounds : List Round) : History :=
  ⟨rounds.map (·.outcome)⟩

/-- How many of the rounds, the latest first, were completed in one visit: those after the latest
one with a move, and this one. -/
def atOnce : List Round → Nat
  | [] => 0
  | round :: before => if round.moves = 0 then atOnce before + 1 else 1

/-- How many moves were made in all the rounds. -/
def movesMade : List Round → Nat
  | [] => 0
  | round :: before => movesMade before + round.moves

theorem history_cons : history (round :: rounds) = (history rounds).add round.outcome := rfl

@[simp] theorem length_history : (history rounds).length = rounds.length :=
  List.length_map _

/-- No more rounds are completed at once than there are. -/
theorem atOnce_le : atOnce rounds ≤ rounds.length := by
  induction rounds with
  | nil => exact Nat.le_refl 0
  | cons round rounds ih =>
      rw [atOnce, List.length_cons]
      split <;> omega

end Round

namespace Repetition

variable {ω σ : Type} [Scale ω] {r : Repetition σ} {stage : Game ω σ} {round : Round}
  {rounds : List Round}
  {moves : Nat} {p : stage.tree.Position} {t : Transcript} {s s' : σ}

/-- A history that is judged gives an end. -/
theorem ends_of_stop (stop : History → Run σ Value) :
    (none : Option Nat).isSome ∨ (some stop).isSome :=
  .inr rfl

/-- With no number of rounds, none is out of bounds. -/
theorem bounded_none : ∀ n ∈ (none : Option Nat), 1 ≤ n ∧ n ≤ maxRepetitions :=
  nofun

/-- An end that only the history gives. -/
def judged (stop : History → Run σ Value) (maxDepth : Int) : Repetition σ where
  rounds := none
  stop := some stop
  maxDepth := maxDepth
  ends := ends_of_stop stop
  bounded := bounded_none

/-- How many further rounds may begin before the next move, when these rounds are completed and so
many moves of the next one are made. -/
def spare (r : Repetition σ) (rounds : List Round) (moves : Nat) : Nat :=
  match r.rounds with
  | some count => count - rounds.length
  | none => if moves = 0 then r.maxDepth.toNat - Round.atOnce rounds else r.maxDepth.toNat

/-- Without a number of rounds, more of them were completed at once than may be. -/
def Tired (r : Repetition σ) (rounds : List Round) : Prop :=
  r.rounds = none ∧ r.maxDepth.toNat < Round.atOnce rounds

instance (r : Repetition σ) (rounds : List Round) : Decidable (r.Tired rounds) :=
  inferInstanceAs (Decidable (_ ∧ _))

theorem spare_nil : r.spare [] 0 = r.further .empty := by
  unfold spare further
  cases r.rounds <;> rfl

/-- After a move as many rounds may begin as after any other. -/
theorem spare_succ : r.spare rounds (moves + 1) = r.further (Round.history rounds) := by
  unfold spare further
  cases r.rounds with
  | some count => rw [Round.length_history]
  | none => exact if_neg (Nat.succ_ne_zero moves)

/-- A completed round takes one of the rounds that may begin. -/
theorem spare_cons : r.spare (round :: rounds) 0 = r.spare rounds round.moves - 1 := by
  unfold spare
  cases r.rounds with
  | some count => exact Nat.sub_add_eq count rounds.length 1
  | none =>
      simp only [if_pos, Round.atOnce]
      split <;> omega

/-- A game that is not over and in which no round may begin is a tired one. -/
theorem tired_iff (hgoesOn : (r.isFinished (Round.history (round :: rounds))).start s =
      (.ok false, s')) :
    r.Tired (round :: rounds) ↔ r.spare rounds round.moves = 0 := by
  unfold Tired spare
  cases hrounds : r.rounds with
  | some count =>
      have hless := isFinished_eq_false hrounds hgoesOn
      rw [Round.length_history, List.length_cons] at hless
      simp only [reduceCtorEq, false_and, false_iff]
      omega
  | none =>
      simp only [true_and, Round.atOnce]
      split <;> omega

/-- At the end of a round the game is over, or too many rounds were completed at once, or the next
round begins. -/
theorem settle_round {e : Ending} {o : Outcome} (hnode : stage.tree.node p = .terminal e)
    (ho : e.outcome t stage.numPlayers = .ok o) :
    r.settle stage (r.spare rounds moves) p (Round.history rounds) t = (do
      let completed := ⟨moves, e.state, o⟩ :: rounds
      if ← r.isFinished (Round.history completed) then
        let score ← (Round.history completed).score
        return .over ⟨score, o.profile, some (Round.history completed),
          .roundState ⟨Round.history completed, e.state, t⟩⟩
      else if r.Tired completed then throw (.nonterminating r.maxDepth e.state)
      else
        r.settle stage (r.spare completed 0) (← stage.root) (Round.history completed) .empty) := by
  rw [settle_end r stage hnode, ho, Run.liftM_ok, pure_bind]
  refine Run.bind_congr_of fun finished s s' hfinished => ?_
  cases finished with
  | true => rfl
  | false =>
      have htired : r.Tired (⟨moves, e.state, o⟩ :: rounds) ↔ r.spare rounds moves = 0 :=
        tired_iff hfinished
      rw [if_neg Bool.false_ne_true, if_neg Bool.false_ne_true, spare_cons]
      cases hspare : r.spare rounds moves with
      | zero => rw [if_pos (htired.2 hspare)]
      | succ further =>
          rw [if_neg (mt htired.1 (by simp only [hspare]; omega))]
          rfl

end Repetition

namespace Game

variable {ω σ : Type} [Scale ω] {g : Game ω σ} {r : Repetition σ} {ps : Participants ω σ}
  {maxDepth : Int} {limit n moves visits : Nat} {rounds : List Round} {round : Round}
  {p : g.tree.Position} {t : Transcript} {s s₁ s₂ s' : σ} {x : g.Moment}

/-! ### What happens in a play -/

/-- The round after these ones. -/
def nextRound (g : Game ω σ) (ps : Participants ω σ) (maxDepth : Int) (h : History) :
    Run σ Outcome := do
  g.playRound ps maxDepth h maxDepth.toNat (← g.root) .empty

/-- The round after these ones is completed with no more moves than the limit. -/
def Completes (g : Game ω σ) (ps : Participants ω σ) (limit : Nat) (h : History) (s : σ)
    (round : Round) (s' : σ) : Prop :=
  round.moves ≤ limit ∧ ∃ x e, g.RoundComesTo ps h s round.moves x ∧
    g.tree.node x.position = .terminal e ∧ e.state = round.state ∧
    e.outcome x.transcript g.numPlayers = .ok round.outcome ∧ x.surroundings = s'

/-- These rounds, the latest first, are completed from the beginning of the play on, and the next
one begins. -/
inductive Leads (g : Game ω σ) (r : Repetition σ) (ps : Participants ω σ) (limit : Nat) (s : σ) :
    List Round → σ → Prop
  | none : Leads g r ps limit s [] s
  | next {rounds : List Round} {round : Round} {s₁ s₂ s₃ : σ}
      (hbefore : Leads g r ps limit s rounds s₁)
      (hround : g.Completes ps limit (Round.history rounds) s₁ round s₂)
      (hgoesOn : (r.isFinished (Round.history (round :: rounds))).start s₂ = (.ok false, s₃))
      (hready : ¬ r.Tired (round :: rounds)) : Leads g r ps limit s (round :: rounds) s₃

/-- A play of a repeated game ends in this way, after so many rounds have begun: a round is
abandoned, the end of the repetition cannot be told, the game is over, or too many rounds were
completed at once. -/
inductive PlaysOut (g : Game ω σ) (r : Repetition σ) (ps : Participants ω σ) (maxDepth : Int)
    (s : σ) : Nat → Except Fault Outcome → σ → Prop
  | abandoned {rounds : List Round} {s₁ s' : σ} {f : Fault}
      (hleads : g.Leads r ps maxDepth.toNat s rounds s₁)
      (hround : (g.nextRound ps maxDepth (Round.history rounds)).start s₁ = (.error f, s')) :
      PlaysOut g r ps maxDepth s (rounds.length + 1) (.error f) s'
  | untold {rounds : List Round} {round : Round} {s₁ s₂ s' : σ} {f : Fault}
      (hleads : g.Leads r ps maxDepth.toNat s rounds s₁)
      (hround : g.Completes ps maxDepth.toNat (Round.history rounds) s₁ round s₂)
      (hasked : (r.isFinished (Round.history (round :: rounds))).start s₂ = (.error f, s')) :
      PlaysOut g r ps maxDepth s (rounds.length + 1) (.error f) s'
  | finished {rounds : List Round} {round : Round} {s₁ s₂ s' : σ}
      (hleads : g.Leads r ps maxDepth.toNat s rounds s₁)
      (hround : g.Completes ps maxDepth.toNat (Round.history rounds) s₁ round s₂)
      (hover : (r.isFinished (Round.history (round :: rounds))).start s₂ = (.ok true, s')) :
      PlaysOut g r ps maxDepth s (rounds.length + 1) (Round.history (round :: rounds)).summary s'
  | tired {rounds : List Round} {round : Round} {s₁ s₂ s' : σ}
      (hleads : g.Leads r ps maxDepth.toNat s rounds s₁)
      (hround : g.Completes ps maxDepth.toNat (Round.history rounds) s₁ round s₂)
      (hgoesOn : (r.isFinished (Round.history (round :: rounds))).start s₂ = (.ok false, s'))
      (htired : r.Tired (round :: rounds)) :
      PlaysOut g r ps maxDepth s (rounds.length + 1)
        (.error (.nonterminating r.maxDepth round.state)) s'

/-- A round that comes to an outcome is completed. -/
theorem nextRound_eq_ok {h : History} {o : Outcome} :
    (g.nextRound ps maxDepth h).start s = (.ok o, s') ↔
      ∃ round, round.outcome = o ∧ g.Completes ps maxDepth.toNat h s round s' := by
  rw [nextRound, Run.start_bind_eq_ok]
  constructor
  · rintro ⟨root, s₁, hroot, hplay⟩
    obtain ⟨n, x, e, hle, hmoves, hnode, ho, hs⟩ := playRound_eq_ok.1 hplay
    exact ⟨⟨n, e.state, o⟩, rfl, hle, x, e, ⟨root, s₁, hroot, hmoves⟩, hnode, rfl, ho, hs⟩
  · rintro ⟨round, rfl, hle, x, e, ⟨root, s₁, hroot, hmoves⟩, hnode, -, ho, hs⟩
    exact ⟨root, s₁, hroot, playRound_eq_ok.2 ⟨_, x, e, hle, hmoves, hnode, ho, hs⟩⟩

/-- A completed round has paid every player. -/
theorem Completes.sized {h : History} (hround : g.Completes ps limit h s round s')
    (hsized : h.Sized g.numPlayers) : (h.add round.outcome).Sized g.numPlayers := by
  obtain ⟨-, x, e, -, -, -, ho, -⟩ := hround
  obtain ⟨hsize, hpayoff, -⟩ := Ending.outcome_eq_ok ho
  exact hsized.add (by rw [hpayoff]; exact hsize)

theorem Leads.sized (h : g.Leads r ps limit s rounds s') :
    (Round.history rounds).Sized g.numPlayers := by
  induction h with
  | none => exact History.sized_empty
  | next _ hround _ _ ih => exact hround.sized ih

/-! ### The walk from a position of a round on -/

/-- The walk from a position of the stage game on, when these rounds are completed and these moves
of the next one are made, so many of them. -/
def walkOn (g : Game ω σ) (r : Repetition σ) (ps : Participants ω σ) (maxDepth : Int)
    (rounds : List Round) (moves : Nat) (p : g.tree.Position) (t : Transcript) (visits : Nat) :
    Run σ (Option Outcome) := do
  let P ← r.settle g (r.spare rounds moves) p (Round.history rounds) t
  Walk.run (g.repeatedTree r) ps g.numPlayers maxDepth visits (g.resume r rounds.length moves P)

/-- The walk from the beginning of the round after these ones on. -/
def fromRound (g : Game ω σ) (r : Repetition σ) (ps : Participants ω σ) (maxDepth : Int)
    (rounds : List Round) (visits : Nat) : Run σ (Option Outcome) := do
  g.walkOn r ps maxDepth rounds 0 (← g.root) .empty visits

theorem play_eq_fromRound (hcheck : ps.check g.numPlayers = .ok ()) (name : String)
    (visits : Nat) :
    (g.repeated r name).play ps maxDepth visits = g.fromRound r ps maxDepth [] visits := by
  rw [play_repeated_start hcheck]
  unfold fromRound walkOn
  rw [Repetition.spare_nil]
  rfl

theorem walkOn_stray {v : Value} (hnode : g.tree.node p = .stray v) :
    g.walkOn r ps maxDepth rounds moves p t visits = throw .missingPart := by
  rw [walkOn, Repetition.settle_stray hnode]
  rfl

theorem walkOn_zero (hnode : (g.tree.node p).goesOn = true) :
    g.walkOn r ps maxDepth rounds moves p t 0 = pure none := by
  rw [walkOn, Repetition.settle_goesOn hnode]
  rfl

theorem walkOn_succ (hnode : (g.tree.node p).goesOn = true) :
    g.walkOn r ps maxDepth rounds moves p t (visits + 1) =
      if maxDepth ≤ moves then
        throw (.nonterminating maxDepth
          (.roundState ⟨Round.history rounds, (g.tree.node p).state, t⟩))
      else (do
        let key ← Walk.decide ps g.numPlayers t
          ((g.tree.node p).withState
            (.roundState ⟨Round.history rounds, (g.tree.node p).state, t⟩))
        let q ← g.tree.follow p key
        g.walkOn r ps maxDepth rounds (moves + 1) q
          (t.addAll ((g.tree.node p).plies key)) visits) := by
  rw [walkOn, Repetition.settle_goesOn hnode, pure_bind, ← Round.length_history, run_within hnode]
  simp only [walkOn, Repetition.spare_succ, Round.length_history]

/-- Where the stage game ends badly, so does the play. -/
theorem walkOn_refused {e : Ending} {f : Fault} (hnode : g.tree.node p = .terminal e)
    (ho : e.outcome t g.numPlayers = .error f) :
    g.walkOn r ps maxDepth rounds moves p t visits = throw f := by
  rw [walkOn, Repetition.settle_end r g hnode, ho]
  rfl

/-- What follows when one more round is completed: the game is over, or too many rounds were
completed at once, or the next round begins. -/
def afterRound (g : Game ω σ) (r : Repetition σ) (ps : Participants ω σ) (maxDepth : Int)
    (rounds : List Round) (round : Round) (visits : Nat) : Run σ (Option Outcome) := do
  let h := Round.history (round :: rounds)
  if ← r.isFinished h then
    let score ← h.score
    Walk.run (g.repeatedTree r) ps g.numPlayers maxDepth visits
      (g.resume r rounds.length round.moves (.over ⟨score, round.outcome.profile, some h,
        .roundState ⟨h, round.state, round.outcome.transcript⟩⟩))
  else if r.Tired (round :: rounds) then throw (.nonterminating r.maxDepth round.state)
  else g.fromRound r ps maxDepth (round :: rounds) visits

theorem walkOn_terminal {e : Ending} {o : Outcome} (hnode : g.tree.node p = .terminal e)
    (ho : e.outcome t g.numPlayers = .ok o) :
    g.walkOn r ps maxDepth rounds moves p t visits =
      g.afterRound r ps maxDepth rounds ⟨moves, e.state, o⟩ visits := by
  obtain ⟨-, -, htranscript, -⟩ := Ending.outcome_eq_ok ho
  rw [walkOn, Repetition.settle_round hnode ho, bind_assoc, afterRound, htranscript]
  refine bind_congr fun finished => ?_
  cases finished with
  | true => simp only [if_true, bind_assoc, pure_bind]
  | false =>
      rw [if_neg Bool.false_ne_true, if_neg Bool.false_ne_true]
      split
      · rfl
      · rw [bind_assoc]
        refine bind_congr fun root => Run.bind_congr_of fun P s s' hsettle => ?_
        have hless : rounds.length < (Round.history (⟨moves, e.state, o⟩ :: rounds)).length := by
          rw [Round.length_history]
          exact Nat.lt_succ_self _
        rw [run_next_round hsettle hless, Round.length_history]

/-- The walk goes on along the moves of a round. -/
theorem walkOn_moves (hmoves : g.Moves ps (Round.history rounds) n ⟨p, t, s⟩ x)
    (hle : moves + n ≤ maxDepth.toNat) (visits : Nat) :
    (g.walkOn r ps maxDepth rounds moves p t (n + visits)).start s =
      (g.walkOn r ps maxDepth rounds (moves + n) x.position x.transcript visits).start
        x.surroundings := by
  induction n generalizing p t s moves with
  | zero =>
      cases hmoves
      rw [Nat.zero_add, Nat.add_zero]
  | succ n ih =>
      obtain ⟨hnode, key, s₁, hkey, q, s₂, hfollow, hrest⟩ := moves_succ.1 hmoves
      have hless : ¬ maxDepth ≤ moves := by omega
      rw [Nat.succ_add, walkOn_succ hnode, if_neg hless, Run.start_bind_ok hkey,
        Run.start_bind_ok hfollow, ih hrest (by omega), Nat.succ_add_eq_add_succ]

/-- From a position of a round on, so many visits are not enough for the round, or the round is
abandoned, or it comes to its end. -/
def RoundPlaysOut (g : Game ω σ) (r : Repetition σ) (ps : Participants ω σ) (maxDepth : Int)
    (rounds : List Round) (moves : Nat) (y : g.Moment) (visits : Nat) : Prop :=
  (moves + visits ≤ maxDepth.toNat ∧
    ((g.walkOn r ps maxDepth rounds moves y.position y.transcript visits).start
      y.surroundings).1 = .ok none) ∨
    (∃ f s', (g.playRound ps maxDepth (Round.history rounds) (maxDepth.toNat - moves) y.position
        y.transcript).start y.surroundings = (.error f, s') ∧
      (g.walkOn r ps maxDepth rounds moves y.position y.transcript visits).start y.surroundings =
        (.error f, s')) ∨
    ∃ n x e o, n ≤ visits ∧ moves + n ≤ maxDepth.toNat ∧
      g.Moves ps (Round.history rounds) n y x ∧ g.tree.node x.position = .terminal e ∧
      e.outcome x.transcript g.numPlayers = .ok o

/-- Where the stage game does not go on, nothing but its end is left of the round. -/
theorem roundPlaysOut_at_end (hnode : ¬ (g.tree.node p).goesOn = true)
    (hle : moves ≤ maxDepth.toNat) (visits : Nat) :
    g.RoundPlaysOut r ps maxDepth rounds moves ⟨p, t, s⟩ visits := by
  rcases (g.tree.node p).goesOn_or with ⟨e, hend⟩ | ⟨v, hstray⟩ | hgoesOn
  · cases ho : e.outcome t g.numPlayers with
    | error f =>
        refine .inr (.inl ⟨f, s, ?_, ?_⟩)
        · rw [playRound_terminal hend, ho, Run.start_liftM]
        · rw [walkOn_refused hend ho, Run.start_throw]
    | ok o => exact .inr (.inr ⟨0, _, e, o, Nat.zero_le _, hle, .none _, hend, ho⟩)
  · refine .inr (.inl ⟨.missingPart, s, ?_, ?_⟩)
    · rw [playRound_stray hstray, Run.start_throw]
    · rw [walkOn_stray hstray, Run.start_throw]
  · exact absurd hgoesOn hnode

/-- That is what comes of a walk in a round. -/
theorem roundPlaysOut (hle : moves ≤ maxDepth.toNat) (visits : Nat) :
    g.RoundPlaysOut r ps maxDepth rounds moves ⟨p, t, s⟩ visits := by
  induction visits generalizing p t s moves with
  | zero =>
      by_cases hnode : (g.tree.node p).goesOn = true
      · refine .inl ⟨hle, ?_⟩
        rw [walkOn_zero hnode, Run.start_pure]
      · exact roundPlaysOut_at_end hnode hle 0
  | succ visits ih =>
      by_cases hnode : (g.tree.node p).goesOn = true
      · unfold RoundPlaysOut
        simp only [walkOn_succ hnode]
        by_cases hbound : maxDepth ≤ moves
        · have hleft : maxDepth.toNat - moves = 0 := by omega
          rw [if_pos hbound, hleft, playRound_zero hnode]
          exact .inr (.inl ⟨_, s, rfl, rfl⟩)
        · obtain ⟨left, hleft⟩ : ∃ left, maxDepth.toNat - moves = left + 1 :=
            ⟨maxDepth.toNat - (moves + 1), by omega⟩
          rw [if_neg hbound, hleft, playRound_succ hnode]
          -- The round and the walk choose the same key and follow it to the same position.
          rcases hkey : (Walk.decide ps g.numPlayers t ((g.tree.node p).withState
              (.roundState ⟨Round.history rounds, (g.tree.node p).state, t⟩))).start s with
            ⟨f | key, s₁⟩
          · simp only [Run.start_bind_error hkey]
            exact .inr (.inl ⟨f, s₁, rfl, rfl⟩)
          rcases hfollow : (g.tree.follow p key).start s₁ with ⟨f | q, s₂⟩
          · simp only [Run.start_bind_ok hkey, Run.start_bind_error hfollow]
            exact .inr (.inl ⟨f, s₂, rfl, rfl⟩)
          simp only [Run.start_bind_ok hkey, Run.start_bind_ok hfollow]
          have hleft' : maxDepth.toNat - (moves + 1) = left := by omega
          rw [← hleft']
          refine (ih (by omega)).imp ?_ (.imp_right ?_)
          · rintro ⟨hless, hnone⟩
            exact ⟨by omega, hnone⟩
          · rintro ⟨n, x, e, o, hn, hmoves, hrest, hend⟩
            exact ⟨n + 1, x, e, o, by omega, by omega, .next hnode hkey hfollow hrest, hend⟩
      · exact roundPlaysOut_at_end hnode hle _

/-- From the beginning of a round on, so many visits are not enough for the round, or it is
abandoned, or it is completed. -/
theorem fromRound_cases (g : Game ω σ) (r : Repetition σ) (ps : Participants ω σ) (maxDepth : Int)
    (rounds : List Round) (s : σ) (visits : Nat) :
    (visits ≤ maxDepth.toNat ∧
      ((g.fromRound r ps maxDepth rounds visits).start s).1 = .ok none) ∨
    (∃ f s', (g.nextRound ps maxDepth (Round.history rounds)).start s = (.error f, s') ∧
      (g.fromRound r ps maxDepth rounds visits).start s = (.error f, s')) ∨
    ∃ round s', round.moves ≤ visits ∧
      g.Completes ps maxDepth.toNat (Round.history rounds) s round s' := by
  rw [nextRound, fromRound]
  rcases hroot : g.root.start s with ⟨f | root, s₁⟩
  · rw [Run.start_bind_error hroot, Run.start_bind_error hroot]
    exact .inr (.inl ⟨f, s₁, rfl, rfl⟩)
  rw [Run.start_bind_ok hroot, Run.start_bind_ok hroot]
  have hplays : g.RoundPlaysOut r ps maxDepth rounds 0 ⟨root, .empty, s₁⟩ visits :=
    roundPlaysOut (Nat.zero_le _) visits
  rw [RoundPlaysOut, Nat.zero_add, Nat.sub_zero] at hplays
  refine hplays.imp_right (.imp_right ?_)
  rintro ⟨n, x, e, o, hn, hle, hmoves, hnode, ho⟩
  exact ⟨⟨n, e.state, o⟩, x.surroundings, hn, by simpa using hle, x, e, ⟨root, s₁, hroot, hmoves⟩,
    hnode, rfl, ho, rfl⟩

/-- When a round is completed, the walk goes on after it. -/
theorem Completes.fromRound
    (hround : g.Completes ps maxDepth.toNat (Round.history rounds) s round s') (visits : Nat) :
    (g.fromRound r ps maxDepth rounds (round.moves + visits)).start s =
      (g.afterRound r ps maxDepth rounds round visits).start s' := by
  obtain ⟨moves, state, o⟩ := round
  obtain ⟨hle, x, e, ⟨root, s₁, hroot, hmoves⟩, hnode, rfl, ho, rfl⟩ := hround
  rw [Game.fromRound, Run.start_bind_ok hroot, walkOn_moves hmoves (by simpa using hle),
    walkOn_terminal hnode ho, Nat.zero_add]

/-- At the end of the last round the play has its outcome, if one more visit is allowed. -/
theorem afterRound_over (hsized : (Round.history rounds).Sized g.numPlayers)
    (hdepth : 1 ≤ maxDepth)
    (hround : g.Completes ps limit (Round.history rounds) s₁ round s₂)
    (hover : (r.isFinished (Round.history (round :: rounds))).start s₂ = (.ok true, s'))
    (visits : Nat) :
    (g.afterRound r ps maxDepth rounds round (visits + 1)).start s₂ =
      ((Round.history (round :: rounds)).summary.map some, s') := by
  obtain ⟨moves, state, o⟩ := round
  obtain ⟨-, x, e, -, hnode, rfl, ho, -⟩ := hround
  obtain ⟨-, -, htranscript, -⟩ := Ending.outcome_eq_ok ho
  have hlast : (Round.history (⟨moves, e.state, o⟩ :: rounds)).last? = some o := rfl
  rw [afterRound, Run.start_bind_ok hover, if_pos rfl, History.summary_eq hlast]
  cases hscore : (Round.history (⟨moves, e.state, o⟩ :: rounds)).score with
  | error f => rfl
  | ok total =>
      rw [Round.history_cons] at hscore
      rw [Run.liftM_ok, pure_bind, ← Round.length_history, htranscript, Round.history_cons,
        run_last ho hscore hsized hdepth, htranscript]
      rfl

/-- With no visit left, nothing comes of it, or the payoffs cannot be added. -/
theorem afterRound_over_cases (hsized : (Round.history rounds).Sized g.numPlayers)
    (hdepth : 1 ≤ maxDepth)
    (hround : g.Completes ps limit (Round.history rounds) s₁ round s₂)
    (hover : (r.isFinished (Round.history (round :: rounds))).start s₂ = (.ok true, s'))
    (visits : Nat) :
    ((g.afterRound r ps maxDepth rounds round visits).start s₂).1 = .ok none ∨
      (g.afterRound r ps maxDepth rounds round visits).start s₂ =
        ((Round.history (round :: rounds)).summary.map some, s') := by
  cases visits with
  | succ visits => exact .inr (afterRound_over hsized hdepth hround hover visits)
  | zero =>
      have hlast : (Round.history (round :: rounds)).last? = some round.outcome := rfl
      rw [afterRound, Run.start_bind_ok hover, if_pos rfl, History.summary_eq hlast]
      cases (Round.history (round :: rounds)).score with
      | error f => exact .inr rfl
      | ok total => exact .inl rfl

/-- When the game is not over, the next round begins, unless too many were completed at once. -/
theorem afterRound_goesOn
    (hgoesOn : (r.isFinished (Round.history (round :: rounds))).start s = (.ok false, s'))
    (visits : Nat) :
    (g.afterRound r ps maxDepth rounds round visits).start s =
      if r.Tired (round :: rounds) then (.error (.nonterminating r.maxDepth round.state), s')
      else (g.fromRound r ps maxDepth (round :: rounds) visits).start s' := by
  rw [afterRound, Run.start_bind_ok hgoesOn, if_neg Bool.false_ne_true]
  split
  · rfl
  · rfl

/-- When a round is abandoned, so is the play, if more visits are allowed than the bound allows in a
round. -/
theorem fromRound_abandoned {f : Fault}
    (hround : (g.nextRound ps maxDepth (Round.history rounds)).start s = (.error f, s'))
    (hvisits : maxDepth.toNat < visits) :
    (g.fromRound r ps maxDepth rounds visits).start s = (.error f, s') := by
  rcases g.fromRound_cases r ps maxDepth rounds s visits with
    ⟨hless, -⟩ | ⟨f', s₁, hround', hwalk⟩ | ⟨round, s₁, -, hcompletes⟩
  · omega
  · rw [hround] at hround'
    cases hround'
    exact hwalk
  · rw [nextRound_eq_ok.2 ⟨round, rfl, hcompletes⟩] at hround
    cases hround

/-- After rounds that lead to another one, the play is the walk from the beginning of this one. -/
theorem Leads.fromRound (h : g.Leads r ps maxDepth.toNat s rounds s') (visits : Nat) :
    (g.fromRound r ps maxDepth [] (Round.movesMade rounds + visits)).start s =
      (g.fromRound r ps maxDepth rounds visits).start s' := by
  induction h generalizing visits with
  | none => rw [Round.movesMade, Nat.zero_add]
  | next hbefore hround hgoesOn hready ih =>
      rw [Round.movesMade, Nat.add_assoc, ih, hround.fromRound, afterRound_goesOn hgoesOn,
        if_neg hready]

/-- No round has more moves than the limit. -/
theorem Leads.movesMade_le (h : g.Leads r ps limit s rounds s') :
    Round.movesMade rounds ≤ rounds.length * limit := by
  induction h with
  | none => exact Nat.zero_le _
  | next _ hround _ _ ih =>
      rw [Round.movesMade, List.length_cons, Nat.succ_mul]
      exact Nat.add_le_add ih hround.1

/-- When one more round is completed then, the play goes on after it, if more visits are allowed
than the bound allows in all these rounds. -/
theorem Leads.afterRound (h : g.Leads r ps maxDepth.toNat s rounds s₁)
    (hround : g.Completes ps maxDepth.toNat (Round.history rounds) s₁ round s₂)
    (hvisits : (rounds.length + 1) * maxDepth.toNat < visits) :
    ∃ more, (g.fromRound r ps maxDepth [] visits).start s =
      (g.afterRound r ps maxDepth rounds round (more + 1)).start s₂ := by
  have hmade := h.movesMade_le
  have hle := hround.1
  rw [Nat.succ_mul] at hvisits
  obtain ⟨more, rfl⟩ : ∃ more, visits = Round.movesMade rounds + (round.moves + (more + 1)) :=
    ⟨visits - Round.movesMade rounds - round.moves - 1, by omega⟩
  exact ⟨more, by rw [h.fromRound, hround.fromRound]⟩

/-- A play that may end in this way ends so, if more visits are allowed than the bound allows in all
the rounds that begin. -/
theorem PlaysOut.play {count : Nat} {result : Except Fault Outcome}
    (h : g.PlaysOut r ps maxDepth s count result s') (hcheck : ps.check g.numPlayers = .ok ())
    (hdepth : 1 ≤ maxDepth) (name : String) (hvisits : count * maxDepth.toNat < visits) :
    ((g.repeated r name).play ps maxDepth visits).start s = (result.map some, s') := by
  rw [play_eq_fromRound hcheck]
  cases h with
  | @abandoned rounds s₁ _ f hleads hround =>
      have hmade := hleads.movesMade_le
      rw [Nat.succ_mul] at hvisits
      obtain ⟨more, rfl⟩ : ∃ more, visits = Round.movesMade rounds + more :=
        ⟨visits - Round.movesMade rounds, by omega⟩
      rw [hleads.fromRound, fromRound_abandoned hround (by omega)]
      rfl
  | untold hleads hround hasked =>
      obtain ⟨more, hplay⟩ := hleads.afterRound hround hvisits
      rw [hplay, Game.afterRound, Run.start_bind_error hasked]
      rfl
  | finished hleads hround hover =>
      obtain ⟨more, hplay⟩ := hleads.afterRound hround hvisits
      rw [hplay, afterRound_over hleads.sized hdepth hround hover]
  | tired hleads hround hgoesOn htired =>
      obtain ⟨more, hplay⟩ := hleads.afterRound hround hvisits
      rw [hplay, afterRound_goesOn hgoesOn, if_pos htired]
      rfl

/-- What comes of the walk from the beginning of a round on within so many visits: nothing, or an
end that the play may have. -/
theorem fromRound_plays_out (hdepth : 1 ≤ maxDepth)
    (hleads : g.Leads r ps maxDepth.toNat s rounds s₁) (visits : Nat) :
    ((g.fromRound r ps maxDepth rounds visits).start s₁).1 = .ok none ∨
      ∃ count result s', g.PlaysOut r ps maxDepth s count result s' ∧
        (g.fromRound r ps maxDepth rounds visits).start s₁ = (result.map some, s') := by
  -- By induction on the visits, and then on the rounds that may begin in one of them: a completed
  -- round uses up a visit, or it uses up one of these rounds.
  induction visits using Nat.strongRecOn generalizing rounds s₁ with
  | ind visits ihvisits =>
  induction hspare : r.spare rounds 0 using Nat.strongRecOn generalizing rounds s₁ with
  | ind spare ihspare =>
      rcases g.fromRound_cases r ps maxDepth rounds s₁ visits with
        ⟨-, hnone⟩ | ⟨f, s', hround, hwalk⟩ | ⟨round, s₂, hle, hround⟩
      · exact .inl hnone
      · exact .inr ⟨_, _, s', .abandoned hleads hround, hwalk⟩
      obtain ⟨visits, rfl⟩ := Nat.exists_eq_add_of_le hle
      rw [hround.fromRound]
      rcases hfinished : (r.isFinished (Round.history (round :: rounds))).start s₂ with
        ⟨f | finished, s'⟩
      · rw [afterRound, Run.start_bind_error hfinished]
        exact .inr ⟨_, _, s', .untold hleads hround hfinished, rfl⟩
      cases finished with
      | true =>
          refine (afterRound_over_cases hleads.sized hdepth hround hfinished visits).imp_right ?_
          exact fun hover => ⟨_, _, s', .finished hleads hround hfinished, hover⟩
      | false =>
          rw [afterRound_goesOn hfinished]
          by_cases htired : r.Tired (round :: rounds)
          · rw [if_pos htired]
            exact .inr ⟨_, _, s', .tired hleads hround hfinished htired, rfl⟩
          · rw [if_neg htired]
            have hnext := Leads.next hleads hround hfinished htired
            by_cases hmoves : round.moves = 0
            · have hless : r.spare (round :: rounds) 0 < spare := by
                rw [Repetition.tired_iff hfinished, hmoves] at htired
                rw [Repetition.spare_cons, hmoves]
                omega
              have hlater := ihspare _ hless hnext rfl
              rwa [hmoves, Nat.zero_add] at hlater
            · exact ihvisits visits (by omega) hnext

/-- What comes of a play of a repeated game within so many visits: nothing, or an end that it may
have. -/
theorem play_plays_out (hcheck : ps.check g.numPlayers = .ok ()) (hdepth : 1 ≤ maxDepth)
    (name : String) (s : σ) (visits : Nat) :
    (((g.repeated r name).play ps maxDepth visits).start s).1 = .ok none ∨
      ∃ count result s', g.PlaysOut r ps maxDepth s count result s' ∧
        ((g.repeated r name).play ps maxDepth visits).start s = (result.map some, s') := by
  rw [play_eq_fromRound hcheck]
  exact fromRound_plays_out hdepth .none visits

/-- A play of a repeated game comes to an outcome by rounds that lead to a last one, and the outcome
is the summary of their history. -/
theorem play_eq_ok {o : Outcome} {name : String}
    (h : ((g.repeated r name).play ps maxDepth visits).start s = (.ok (some o), s')) :
    ps.check g.numPlayers = .ok () ∧ 1 ≤ maxDepth ∧
      ∃ rounds round s₁ s₂, g.Leads r ps maxDepth.toNat s rounds s₁ ∧
        g.Completes ps maxDepth.toNat (Round.history rounds) s₁ round s₂ ∧
        (r.isFinished (Round.history (round :: rounds))).start s₂ = (.ok true, s') ∧
        (Round.history (round :: rounds)).summary = .ok o := by
  obtain ⟨hcheck, hdepth⟩ := check_of_play h
  replace hcheck : ps.check g.numPlayers = .ok () := hcheck
  refine ⟨hcheck, hdepth, ?_⟩
  rcases play_plays_out hcheck hdepth name s visits with hnone | ⟨count, result, s'', hends, hplay⟩
  · rw [h] at hnone
    cases hnone
  · rw [h, Prod.mk.injEq] at hplay
    obtain ⟨hresult, rfl⟩ := hplay
    cases hends with
    | abandoned => cases hresult
    | untold => cases hresult
    | tired => cases hresult
    | @finished rounds round s₁ s₂ _ hleads hround hover =>
        refine ⟨rounds, round, s₁, s₂, hleads, hround, hover, ?_⟩
        cases hsummary : (Round.history (round :: rounds)).summary with
        | error f =>
            rw [hsummary] at hresult
            cases hresult
        | ok o' =>
            rw [hsummary] at hresult
            cases hresult
            rfl

end Game

end ExtensiveForm
