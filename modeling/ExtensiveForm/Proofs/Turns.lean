import ExtensiveForm.Game.Nim
import ExtensiveForm.Proofs.Log
import ExtensiveForm.Proofs.Matching

/-!
# Games of turns without a tree

A game of turns can be played straight from its rules: find out whose turn it is and whether the
game is over, ask for one of the legal moves, and go on in the state it leads to.
`TurnRules.straight` is this loop. The main result, `play_is_straight`, says that the walk of the
tree comes to nothing else, and what the rules are asked for: where a move leads is found out only
in a state that was reached, where the game is not over and the move is legal.

States that carry a transcript or a round of their own are left out, since the walk would follow
these.
-/

namespace ExtensiveForm

/-- The state tells neither a transcript nor a round. -/
structure Value.Bare (state : Value) : Prop where
  transcript : state.transcript? = none
  round : state.round = .null

namespace TurnRules

variable {ω σ : Type}

/-- The rules lead from states without a transcript and a round to states of this sort only. -/
structure BareStates (r : TurnRules) : Prop where
  initial : r.initial.Bare
  next {state player move state' : Value} (hstate : state.Bare)
    (h : r.next state player move = .ok state') : state'.Bare

/-- The move of a player in a state, who has to be one of the game, to have a strategy and to have a
legal move, and to choose one of these. -/
def choose (r : TurnRules) (ps : Participants ω σ) (player : Value) (moves : List Value)
    (state : Value) (t : Transcript) : Run σ Value := do
  let seat ← checkPlayer player r.numPlayers
  match ps.ask seat with
  | none => throw (.told (.invalidPlayer player .null state))
  | some ask =>
      if moves.isEmpty then throw (.told (.noMove player (.text "empty move set") state))
      let move ← ask ⟨player, .tuple moves, r.numPlayers, state, t⟩
      unless move.isAmong moves do throw (.told (.illegalMove player move state))
      return move

/-- The outcome of a play that ends with this payoff after these moves. -/
def conclude (r : TurnRules) (payoff : Payoff) (state : Value) (t : Transcript) :
    Except Fault Outcome := do
  unless payoff.values.length = r.numPlayers do
    throw (.told (.invalidPayoff payoff.values r.numPlayers state))
  let profile ← t.profile? r.numPlayers
  return ⟨payoff, profile, t, none⟩

/-- Plays from a state on, in which so many states may still be visited. -/
def straight (r : TurnRules) (ps : Participants ω σ) (maxDepth : Int) :
    Nat → Value → Transcript → Run σ Outcome
  | left, state, t => do
      let player ← r.turn state
      match ← r.payoff state player with
      | .null =>
          let moves ← r.legal state player
          match left with
          | 0 => throw (.nonterminating maxDepth state)
          | left + 1 =>
              let move ← r.choose ps player moves state t
              let state ← r.next state player move
              straight r ps maxDepth left state (t.add ⟨player, move⟩)
      | payoff =>
          let payoff ← Payoff.ofValue payoff
          if left = 0 then throw (.nonterminating maxDepth state)
          r.conclude payoff state t

variable {r : TurnRules} {ps : Participants ω σ} {maxDepth : Int} {state : Value} {t : Transcript}

/-- A decision in the tree is a choice. -/
theorem decideAlone_eq_choose (player : Value) (moves : List Value) :
    Walk.decideAlone ps ⟨player, .tuple moves, r.numPlayers, state, t⟩ =
      r.choose ps player moves state t := by
  unfold Walk.decideAlone choose
  refine bind_congr fun seat => ?_
  cases ps.ask seat with
  | none => rfl
  | some ask =>
      refine ite_congr rfl (fun _ => rfl) fun _ => ?_
      refine bind_congr fun move => ?_
      rw [Context.isValidMove_of_tuple rfl]
      rfl

/-- What is known of a position when it is entered with a state. -/
inductive Entered (r : TurnRules) (state : Value) : Turn → Prop
  | ongoing {player : Value} {moves : List Value} (turn : r.turn state = .ok player)
      (payoff : r.payoff state player = .ok .null) (legal : r.legal state player = .ok moves) :
      Entered r state (.ongoing player moves state)
  | over (payoff : Payoff) : Entered r state (.over payoff state)

theorem entered_of_enter {turn : Turn} (h : r.enter state = .ok turn) : r.Entered state turn := by
  obtain ⟨player, hturn, h⟩ := Run.except_bind_eq_ok.1 h
  obtain ⟨payoff, hpayoff, h⟩ := Run.except_bind_eq_ok.1 h
  split at h
  · obtain ⟨moves, hlegal, h⟩ := Run.except_bind_eq_ok.1 h
    cases h
    exact .ongoing hturn hpayoff hlegal
  · obtain ⟨final, -, h⟩ := Run.except_bind_eq_ok.1 h
    cases h
    exact .over final

variable [Scale ω]

/-- A position tells the state that it was entered with. -/
theorem Entered.state_eq {turn : Turn} (h : r.Entered state turn) :
    ((r.tree (ω := ω) (σ := σ)).node turn).state = state := by
  cases h <;> rfl

/-- A walk in the only round there is has always entered it. -/
theorem enter_walk (turn : Turn) (visited : Nat)
    (hround : ((r.tree (ω := ω) (σ := σ)).node turn).state.round = .null) :
    (⟨turn, t, .null, visited⟩ : Walk (r.tree (ω := ω) (σ := σ)).Position).enter =
      ⟨turn, t, .null, visited⟩ := by
  refine Walk.enter_of_beq ?_
  show (((r.tree (ω := ω) (σ := σ)).node turn).state.round == Value.null) = true
  rw [hround]
  rfl

/-- The bound is reached when no more states may be visited. -/
theorem bound_reached_iff (turn : Turn)
    (hround : ((r.tree (ω := ω) (σ := σ)).node turn).state.round = .null) {left visited : Nat}
    (hleft : visited + left = maxDepth.toNat) :
    let w : Walk (r.tree (ω := ω) (σ := σ)).Position := ⟨turn, t, .null, visited⟩
    maxDepth ≤ w.enter.visited ↔ left = 0 := by
  intro w
  rw [show w.enter = w from enter_walk turn visited hround]
  show maxDepth ≤ visited ↔ left = 0
  omega

/-- A move leads to the position that its state is entered with. -/
theorem follow_ongoing (player : Value) (moves : List Value) (move : Value) :
    (r.tree (ω := ω) (σ := σ)).follow (.ongoing player moves state) move =
      liftM (r.next state player move) >>= fun next => liftM (r.enter next) :=
  Tree.follow_eq (t := r.tree) rfl (bind_assoc (liftM (r.next state player move)) _ _).symm

/-- Where the game is over, the walk comes to its outcome, unless the bound cuts it off. -/
theorem run_over {payoff : Payoff} (hstate : state.Bare) {left visited visits : Nat}
    (hleft : visited + left = maxDepth.toNat) :
    Walk.run (r.tree (ω := ω)) ps r.numPlayers maxDepth (visits + 1)
        ⟨.over payoff state, t, .null, visited⟩ =
      if left = 0 then throw (.nonterminating maxDepth state)
      else do return some (← r.conclude payoff state t) := by
  have hbound := bound_reached_iff (r := r) (ω := ω) (σ := σ) (t := t) (.over payoff state)
    hstate.round hleft
  by_cases hzero : left = 0
  · rw [if_pos hzero, Walk.run_cut_off (hbound.2 hzero)]
    rfl
  · rw [if_neg hzero, Walk.run_terminal (e := ⟨payoff, none, none, state⟩) (mt hbound.1 hzero) rfl]
    rfl

/-- In a turn the player chooses a move, unless the bound cuts the walk off, and the walk goes on in
the state that the move leads to. -/
theorem run_ongoing (hstates : r.BareStates) {player : Value} {moves : List Value}
    (hstate : state.Bare) {left visited visits : Nat} (hleft : visited + left = maxDepth.toNat) :
    Walk.run (r.tree (ω := ω)) ps r.numPlayers maxDepth (visits + 1)
        ⟨.ongoing player moves state, t, .null, visited⟩ =
      if left = 0 then throw (.nonterminating maxDepth state)
      else (do
        let move ← r.choose ps player moves state t
        let next ← r.next state player move
        let turn ← r.enter next
        Walk.run (r.tree (ω := ω)) ps r.numPlayers maxDepth visits
          ⟨turn, t.add ⟨player, move⟩, .null, visited + 1⟩) := by
  have hbound := bound_reached_iff (r := r) (ω := ω) (σ := σ) (t := t)
    (.ongoing player moves state) hstate.round hleft
  by_cases hzero : left = 0
  · rw [if_pos hzero, Walk.run_cut_off (hbound.2 hzero)]
    rfl
  · have henter := enter_walk (r := r) (ω := ω) (σ := σ) (t := t) (.ongoing player moves state)
      visited hstate.round
    rw [if_neg hzero, Walk.run_goesOn (mt hbound.1 hzero) rfl, henter]
    refine (congrArg (· >>= _) (decideAlone_eq_choose player moves)).trans ?_
    refine bind_congr fun move => ?_
    rw [follow_ongoing]
    refine (bind_assoc (liftM (r.next state player move)) _ _).trans ?_
    refine Run.bind_congr_of fun next s s' hnext => Run.bind_congr_of fun turn s s' henter => ?_
    -- The state that the move leads to tells no transcript, so the moves so far are kept.
    have hbare := hstates.next hstate (congrArg Prod.fst hnext)
    have hturn := entered_of_enter (congrArg Prod.fst henter)
    rw [hturn.state_eq, hbare.transcript]
    rfl

/-- The walk from a state on, in which so many nodes may still be visited, comes to what the loop
comes to. -/
theorem run_enter (hstates : r.BareStates) (hstate : state.Bare) {left visited visits : Nat}
    (hleft : visited + left = maxDepth.toNat) (hvisits : left < visits) :
    (do
      let turn ← r.enter state
      Walk.run (r.tree (ω := ω)) ps r.numPlayers maxDepth visits ⟨turn, t, .null, visited⟩) = (do
      return some (← r.straight ps maxDepth left state t)) := by
  -- By induction on the visits that are left. With those that were made they add up to the bound.
  induction left using Nat.strongRecOn generalizing state t visited visits with
  | ind left ih =>
      obtain ⟨visits, rfl⟩ : ∃ k, visits = k + 1 := ⟨visits - 1, by omega⟩
      unfold enter straight
      simp only [Run.liftM_bind, bind_assoc]
      refine bind_congr fun player => bind_congr fun payoff => ?_
      cases payoff with
      | null =>
          simp only [Run.liftM_bind, bind_assoc]
          refine bind_congr fun moves => ?_
          refine (run_ongoing hstates hstate hleft).trans ?_
          cases left with
          | zero => rfl
          | succ left =>
              rw [if_neg (Nat.succ_ne_zero left)]
              simp only [bind_assoc]
              refine bind_congr fun move => Run.bind_congr_of fun next s s' hnext => ?_
              have hbare := hstates.next hstate (congrArg Prod.fst hnext)
              exact ih left (Nat.lt_succ_self left) hbare (by omega) (by omega)
      | _ =>
          simp only [Run.liftM_bind, bind_assoc]
          refine bind_congr fun payoff => ?_
          refine (run_over hstate hleft).trans ?_
          by_cases hzero : left = 0
          · simp only [if_pos hzero]
            rfl
          · simp only [if_neg hzero]

/-- The walk of the tree comes to what the loop comes to. -/
theorem play_eq_straight (hstates : r.BareStates) (hcheck : ps.check r.numPlayers = .ok ())
    {visits : Nat} (hvisits : maxDepth.toNat < visits) :
    (r.game : Game ω σ).play ps maxDepth visits = (do
      return some (← r.straight ps maxDepth maxDepth.toNat r.initial .empty)) := by
  rw [← run_enter hstates hstates.initial (Nat.zero_add _) hvisits]
  refine Run.bind_congr_of fun turn s s' hturn => ?_
  have hstate := (entered_of_enter (congrArg Prod.fst hturn)).state_eq (ω := ω) (σ := σ)
  refine (execute_eq (t := r.tree) hcheck maxDepth visits turn).trans ?_
  show Walk.run _ _ _ _ _ ⟨turn,
    ((r.tree (ω := ω) (σ := σ)).node turn).state.transcript?.getD .empty,
    ((r.tree (ω := ω) (σ := σ)).node turn).state.round, 0⟩ = _
  rw [hstate, hstates.initial.transcript, hstates.initial.round]
  rfl

/-! ### What the rules are asked for -/

/-- The game is at this position, where the rules say whose turn it is, that the game is not over
and that the move is legal. -/
def Allows (r : TurnRules) (turn : Turn) (move : Value) (log : List (Entry Turn)) : Prop :=
  lastPosition log = some turn ∧ ∃ player moves state, turn = .ongoing player moves state ∧
    r.turn state = .ok player ∧ r.payoff state player = .ok .null ∧
    r.legal state player = .ok moves ∧ move.isAmong moves = true

/-- Where a move leads was found out only if the move was allowed. -/
def Sound (r : TurnRules) : List (Entry Turn) → Prop :=
  Justified fun
    | .followed turn move _, before => r.Allows turn move before
    | _, _ => True

/-- The game is at this position, which was entered with some state. -/
structure At (r : TurnRules) (turn : Turn) (log : List (Entry Turn)) : Prop where
  sound : r.Sound log
  position : lastPosition log = some turn
  entered : ∃ state, r.Entered state turn

/-- Following a move that is offered. -/
theorem follow_logs {player : Value} {moves : List Value} {move : Value}
    (hmove : move.isAmong moves = true) :
    Run.Logs (r.At (.ongoing player moves state))
      ((r.tree (ω := ω) (σ := σ)).follow (.ongoing player moves state) move)
      ((r.tree (ω := ω) (σ := σ)).logged.follow (.ongoing player moves state) move)
      r.At r.Sound := by
  have hallows (log) (hlog : r.At (.ongoing player moves state) log) :
      r.Allows (.ongoing player moves state) move log := by
    obtain ⟨-, hposition, entered, hentered⟩ := hlog
    cases hentered with
    | ongoing hturn hpayoff hlegal =>
        exact ⟨hposition, player, moves, _, rfl, hturn, hpayoff, hlegal, hmove⟩
  refine Tree.follow_logs (t := r.tree) rfl (fun log hlog => ?_) fun turn log hgives hlog => ?_
  · exact hlog.sound.cons (hallows log hlog)
  · refine ⟨hlog.sound.cons (hallows log hlog), rfl, ?_⟩
    obtain ⟨s, s', hgives⟩ := hgives
    rw [follow_ongoing] at hgives
    obtain ⟨next, _, -, hgives⟩ := Run.start_bind_eq_ok.1 hgives
    exact ⟨next, entered_of_enter (congrArg Prod.fst hgives)⟩

/-- Walking a game of turns keeps its log sound. -/
theorem tree_keepsLog {numPlayers : Int} :
    Walk.KeepsLog (r.tree (ω := ω)) ps numPlayers (r.tree (ω := ω) (σ := σ)).logged.next
      (fun turn _ => r.At turn) r.Sound where
  asked turn transcript c hc log hlog := ⟨hlog.sound.cons trivial, hlog.position, hlog.entered⟩
  followed turn transcript move hnode hmove := by
    cases turn with
    | ongoing player moves state => exact follow_logs (Node.legal_of_decideAlone rfl hmove)
    | _ => cases hnode
  weaker turn transcript log hlog := hlog.sound

theorem play_logs (r : TurnRules) (ps : Participants ω σ) (maxDepth : Int) (visits : Nat) :
    Run.Logs (· = []) ((r.game : Game ω σ).play ps maxDepth visits)
      ((r.game : Game ω σ).logged.play (ps.logged Turn) maxDepth visits) (fun _ => r.Sound)
      r.Sound := by
  have hroot : Run.Logs (· = []) (Run.lift (r.enter r.initial) : Run σ Turn)
      ((Run.lift (r.enter r.initial)).logged Entry.ofRoot) r.At r.Sound := by
    rintro s _ rfl
    refine ⟨_, rfl, ?_⟩
    show Run.LogAfter r.At r.Sound (r.enter r.initial) (Entry.ofRoot (r.enter r.initial) ++ [])
    cases henter : r.enter r.initial with
    | error f => exact Justified.nil
    | ok turn => exact ⟨Justified.nil.cons trivial, rfl, r.initial, entered_of_enter henter⟩
  exact hroot.bind fun turn _ => Walk.execute_logs tree_keepsLog visits turn

/-- With strategies for players of the game, playing a game of turns is nothing but the loop over
its states, to the outcome or the fault and to what is left behind. In the course of the play, where
a move leads is found out only at the position reached, if it is a turn in which the move is
legal. -/
theorem play_is_straight (r : TurnRules) (ps : Participants ω σ)
    (hcheck : ps.check r.numPlayers = .ok ()) (hstates : r.BareStates) (maxDepth : Int)
    {visits : Nat} (hvisits : maxDepth.toNat < visits) :
    (r.game : Game ω σ).play ps maxDepth visits = (do
        return some (← r.straight ps maxDepth maxDepth.toNat r.initial .empty)) ∧
      ∀ s, ∃ log,
        ((r.game : Game ω σ).logged.play (ps.logged Turn) maxDepth visits).start (s, []) =
          ((((r.game : Game ω σ).play ps maxDepth visits).start s).1,
            ((((r.game : Game ω σ).play ps maxDepth visits).start s).2, log)) ∧
        ∀ turn move next before, (.followed turn move next :: before) <:+ log →
          r.Allows turn move before := by
  refine ⟨play_eq_straight hstates hcheck hvisits, fun s => ?_⟩
  obtain ⟨log, hplay, hafter⟩ := play_logs r ps maxDepth visits s [] rfl
  refine ⟨log, hplay, fun turn move next before hfollowed => ?_⟩
  exact hafter.always (.followed turn move next) before hfollowed

end TurnRules

namespace Nim

theorem bareStates (g : Nim) : g.rules.BareStates where
  initial := ⟨rfl, rfl⟩
  next {state player move state'} _ h := by
    obtain ⟨stones, -, h⟩ := Run.except_bind_eq_ok.1 h
    obtain ⟨rest, -, h⟩ := Run.except_bind_eq_ok.1 h
    obtain ⟨taker, -, h⟩ := Run.except_bind_eq_ok.1 h
    cases h
    exact ⟨rfl, rfl⟩

/-- One stone for two players, of which one has to be taken. -/
def lastStone : Nim :=
  ⟨"", 2, 1, [.int 1], false⟩

/-- So many players who always take one stone. -/
def takers (count : Nat) : Participants Rat Unit where
  players := (List.range count).map fun (player : Nat) => .int player
  ask player := if player < count then some fun _ => Run.lift (.ok (.int 1)) else none
  uniform := return 0

/-- The first player has taken the last stone. -/
def stoneTaken : Outcome :=
  ⟨⟨[.int 1, .int (-1)]⟩, none, ⟨[⟨.int 0, .int 1⟩]⟩, none⟩

theorem lastStone_is_straight :
    (takers 2).check lastStone.rules.numPlayers = .ok () ∧ (2 : Int).toNat < 3 ∧
      ((lastStone.rules.game).play (takers 2) 2 3).start () = (.ok (some stoneTaken), ()) ∧
      (lastStone.rules.game).play (takers 2) 2 3 = (do
        return some (← lastStone.rules.straight (takers 2) 2 2 lastStone.rules.initial .empty)) :=
  ⟨rfl, by decide, rfl, (TurnRules.play_is_straight lastStone.rules (takers 2) rfl
    lastStone.bareStates 2 (by decide)).1⟩

/-- A strategy for a third player is refused before the first turn, although the loop would never
have asked for it. -/
theorem third_taker_is_refused :
    lastStone.rules.BareStates ∧
      ((lastStone.rules.game).play (takers 3) 2 3).start () =
        (.error (.invalidPlayer (.int 2) (.int 2) .null), ()) ∧
      (lastStone.rules.straight (takers 3) 2 2 lastStone.rules.initial .empty).start () =
        (.ok stoneTaken, ()) := by
  have htold : Fault.told (.invalidPlayer (.int 2) (.int 2) .null) =
      .invalidPlayer (.int 2) (.int 2) .null :=
    Fault.told_eq (by simp [Fault.shown, Value.isWritable_of_lt])
  have hplay : ((lastStone.rules.game).play (takers 3) 2 3).start () =
      (.error (.told (.invalidPlayer (.int 2) (.int 2) .null)), ()) := rfl
  rw [htold] at hplay
  exact ⟨lastStone.bareStates, hplay, by simp only [TurnRules.straight]; rfl⟩

end Nim

end ExtensiveForm
