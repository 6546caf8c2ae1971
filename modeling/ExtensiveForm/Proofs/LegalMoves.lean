import ExtensiveForm.Proofs.Gaps
import ExtensiveForm.Proofs.Steps
import ExtensiveForm.Proofs.Turns

/-!
# Moves that a game tells

A game may be asked for the moves of a player in a state, and every decision in its tree offers some
moves. In a game of turns both come of the same rules. When the game is repeated, each decision
carries the state of the stage game inside one of its own, and the repeated game opens one such
state before it asks the stage game. So they still agree, however often a repeated game is repeated:
`Game.Tells` is this agreement at a node, and `Tells.repeated` keeps it through one repetition.

`Game.StaysWithin` tells of the positions that plays come to. The main result,
`offered_moves_are_told`, is about every decision that a play visits.
-/

namespace ExtensiveForm

variable {ω σ : Type} [Scale ω]

/-- If the game goes on from this node, then one player decides there, and the moves that the game
tells for this player in the state of the node are the moves offered. -/
def Game.Tells (g : Game ω σ) (n : Node ω) : Prop :=
  n.goesOn = true → ∃ player moves state, n = .sequential player moves state ∧
    g.availableMoves player state = .ok moves

/-- From the root on, every key that may be chosen leads to one of these positions. -/
structure Game.StaysWithin (g : Game ω σ) (P : g.tree.Position → Prop) : Prop where
  root : g.root.Confined P fun _ => True
  follow {p : g.tree.Position} {key : Value} (hp : P p) (hkey : (g.tree.node p).Admits key) :
    (g.tree.follow p key).Confined P fun _ => True

/-- A position in a round lies where the position of the stage game does. -/
def RoundPosition.Lies {Q : Type} (P : Q → Prop) : RoundPosition Q → Prop
  | .within p _ _ => P p
  | .over _ => True

/-- Anything may come of a computation of which nothing is asked. -/
theorem Run.Confined.anything {α : Type} (x : Run σ α) :
    x.Confined (fun _ => True) fun _ => True :=
  ⟨fun _ => trivial, fun _ => trivial⟩

/-- Rounds that end without a move lead to where the stage game begins. -/
theorem Repetition.settle_lies {stage : Game ω σ} {P : stage.tree.Position → Prop}
    (hroot : stage.root.Confined P fun _ => True) (r : Repetition σ) (further : Nat)
    {p : stage.tree.Position} (hp : P p) (h : History) (t : Transcript) :
    (r.settle stage further p h t).Confined (RoundPosition.Lies P) fun _ => True := by
  induction further using Nat.strongRecOn generalizing p h t with
  | ind further ih =>
      rcases (stage.tree.node p).goesOn_or with ⟨e, hnode⟩ | ⟨v, hnode⟩ | hnode
      · rw [settle_end r stage hnode]
        refine (Run.Confined.anything _).bind fun o _ => ?_
        refine (Run.Confined.anything _).bind fun finished _ => ?_
        cases finished with
        | true => exact (Run.Confined.anything _).bind fun score _ => .pure trivial
        | false =>
            cases further with
            | zero => exact .throw trivial
            | succ further =>
                exact hroot.bind fun root hroot => ih further (Nat.lt_succ_self further) hroot _ _
      · rw [settle_stray hnode]
        exact .throw trivial
      · rw [settle_goesOn hnode]
        exact .pure hp

namespace Game

variable {g : Game ω σ} {P : g.tree.Position → Prop}

/-- A repeated game opens the state that it has put around the one of the stage game. -/
theorem Tells.repeated {n : Node ω} (hn : g.Tells n) (r : Repetition σ) (name : String)
    (h : History) (t : Transcript) :
    (g.repeated r name).Tells (n.withState (.roundState ⟨h, n.state, t⟩)) := by
  intro hgoesOn
  rw [Node.withState_goesOn] at hgoesOn
  obtain ⟨player, moves, state, rfl, hmoves⟩ := hn hgoesOn
  exact ⟨player, moves, _, rfl, hmoves⟩

/-- A repeated game comes to positions at which the stage game does. -/
theorem StaysWithin.repeated (hg : g.StaysWithin P) (r : Repetition σ) (name : String) :
    (g.repeated r name).StaysWithin (RoundPosition.Lies P) where
  root := hg.root.bind fun _ hroot => Repetition.settle_lies hg.root r _ hroot _ _
  follow := by
    intro position key hposition hkey
    cases position with
    | within p h t =>
        have hkey : (g.tree.node p).Admits key := hkey.of_withState
        refine (follow_within (r := r) (h := h) (t := t) hkey.lookupKey).symm ▸ ?_
        exact (hg.follow hposition hkey).bind fun q hq => Repetition.settle_lies hg.root r _ hq _ _
    | _ =>
        cases hkey with
        | joined hjoins => cases hjoins

/-- If a game tells the moves offered at every position that it comes to, then so does the game
repeated, and that repeated again. -/
theorem StaysWithin.repeatedAll (hg : g.StaysWithin P) (htells : ∀ p, P p → g.Tells (g.tree.node p))
    (rs : List (Repetition σ × String)) :
    ∃ P, (g.repeatedAll rs).StaysWithin P ∧
      ∀ p, P p → (g.repeatedAll rs).Tells ((g.repeatedAll rs).tree.node p) := by
  induction rs generalizing g with
  | nil => exact ⟨P, hg, htells⟩
  | cons r rs ih =>
      refine ih (hg.repeated r.1 r.2) fun position hposition => ?_
      cases position with
      | within p h t => exact (htells p hposition).repeated r.1 r.2 h t
      | _ => exact nofun

/-- Keys that are decided for and followed do not lead out of these positions. -/
theorem StaysWithin.follows (hg : g.StaysWithin P) {ps : Participants ω σ}
    {maxDepth : Int} {w v : Walk g.tree.Position} {keys : List Value} {s s' : σ}
    (h : Walk.Follows g.tree ps g.numPlayers maxDepth w s keys v s') (hw : P w.position) :
    P v.position := by
  induction h with
  | nil => exact hw
  | cons _ _ hkey hchild _ ih =>
      exact ih ((hg.follow hw (Walk.admits_of_decide ⟨_, _, hkey⟩)).result ⟨_, _, hchild⟩)

end Game

/-- Where one player decides, an answer is accepted exactly if it is one of the moves offered. -/
theorem Node.accepts_iff {ps : Participants ω σ} {numPlayers : Int} {player state move : Value}
    {moves : List Value} {t : Transcript} {s s' : σ}
    (h : (ps.answer ⟨player, .tuple moves, numPlayers, state, t⟩).start s = (.ok move, s')) :
    (Walk.decide ps numPlayers t (.sequential player moves state)).start s = (.ok move, s') ↔
      move.isAmong moves = true := by
  rw [Walk.decide, decideAlone_eq_ok_iff rfl]
  refine ⟨fun h => h.2.2, fun hamong => ⟨?_, h, hamong⟩⟩
  rintro rfl
  cases hamong

namespace TurnRules

/-- The states that plays come to. -/
inductive Occurs (r : TurnRules) : Value → Prop
  | initial : Occurs r r.initial
  | next {state player move state' : Value} {moves : List Value} (h : Occurs r state)
      (hturn : r.turn state = .ok player) (hpayoff : r.payoff state player = .ok .null)
      (hlegal : r.legal state player = .ok moves) (hmove : move.isAmong moves = true)
      (hnext : r.next state player move = .ok state') : Occurs r state'

/-- In every state that plays come to it is the turn of a player of the game, and none of these
states is `null`, which stands for the initial one. -/
structure Orderly (r : TurnRules) : Prop where
  ne_null {state : Value} (h : r.Occurs state) : state ≠ .null
  turn {state player : Value} (h : r.Occurs state) (hturn : r.turn state = .ok player) :
    ∃ p : Nat, player = .int p ∧ (p : Int) < r.numPlayers

variable {r : TurnRules} {state : Value} {turn : Turn}

/-- Only `null` stands for another state than itself. -/
theorem game_legal_eq (h : state ≠ .null) (player : Nat) :
    (r.game : Game ω σ).legal player state = r.legal state (.int player) := by
  cases state with
  | null => exact absurd rfl h
  | _ => rfl

/-- At a decision the rules are asked for the same moves once more. -/
theorem tells_of_entered (hr : r.Orderly) (hstate : r.Occurs state) (h : r.Entered state turn) :
    (r.game : Game ω σ).Tells ((r.tree : Tree ω σ).node turn) := by
  intro hgoesOn
  cases h with
  | ongoing hturn hpayoff hlegal =>
      obtain ⟨p, rfl, hp⟩ := hr.turn hstate hturn
      refine ⟨_, _, _, rfl, ?_⟩
      have hcheck : checkPlayer (.int p) r.numPlayers = .ok p :=
        Participants.checkPlayer_eq_ok.2 ⟨rfl, hp⟩
      show checkPlayer (.int p) r.numPlayers >>= _ = _
      rw [hcheck, Run.except_ok_bind, game_legal_eq (hr.ne_null hstate)]
      exact hlegal
  | _ => cases hgoesOn

/-- Plays come to what is entered with states that occur. -/
theorem staysWithin (r : TurnRules) : (r.game : Game ω σ).StaysWithin fun turn : Turn =>
    ∃ state, r.Occurs state ∧ r.Entered state turn where
  root := .liftM (fun _ henter => ⟨_, .initial, entered_of_enter henter⟩) fun _ _ => trivial
  follow := by
    rintro turn key ⟨state, hstate, hturn⟩ hkey
    cases hturn with
    | ongoing hturn hpayoff hlegal =>
        cases hkey with
        | joined hjoins hmoves =>
            cases hjoins
            cases hmoves with
            | cons hmove _ =>
                refine (follow_ongoing (ω := ω) (r := r) _ _ key).symm ▸ ?_
                refine .bind (.liftM (Q := r.Occurs) (fun next hnext => ?_) fun _ _ => trivial)
                  fun next hnext => ?_
                · exact hstate.next hturn hpayoff hlegal hmove hnext
                · exact .liftM (fun turn henter => ⟨next, hnext, entered_of_enter henter⟩)
                    fun _ _ => trivial
    | _ =>
        cases hkey with
        | joined hjoins => cases hjoins

/-- A play of a game of turns, or of such a game repeated any number of times, visits no other nodes
from which the game goes on than decisions of one player. At each of them the game tells, for this
player and the state of the node, just the moves offered there, so that whoever answers with a move
has it accepted exactly if the game tells that it is valid. -/
theorem offered_moves_are_told (r : TurnRules) (hr : r.Orderly)
    (rs : List (Repetition σ × String)) (ps : Participants ω σ) (maxDepth : Int) :
    let g : Game ω σ := r.game.repeatedAll rs
    ∀ (root : g.tree.Position) (keys : List Value) (v : Walk g.tree.Position) (s s₁ s' : σ),
      g.root.start s = (.ok root, s₁) →
      Walk.Follows g.tree ps g.numPlayers maxDepth (Walk.start g.tree root) s₁ keys v s' →
      (g.tree.node v.position).goesOn = true →
      ∃ player moves state, g.tree.node v.position = .sequential player moves state ∧
        g.availableMoves player state = .ok moves ∧
        ∀ move, g.isValidMove player move state = .ok (move.isAmong moves) ∧
          ∀ (ps : Participants ω σ) (t : Transcript) (s s' : σ),
            (ps.answer ⟨player, .tuple moves, g.numPlayers, state, t⟩).start s = (.ok move, s') →
            ((Walk.decide ps g.numPlayers t (g.tree.node v.position)).start s = (.ok move, s') ↔
              g.isValidMove player move state = .ok true) := by
  intro g root keys v s s₁ s' hroot hfollows hgoesOn
  obtain ⟨P, hstays, htells⟩ := (r.staysWithin (ω := ω) (σ := σ)).repeatedAll
    (fun turn ⟨_, hstate, hturn⟩ => tells_of_entered hr hstate hturn) rs
  have hv : P v.position := hstays.follows hfollows (hstays.root.result ⟨s, s₁, hroot⟩)
  obtain ⟨player, moves, state, hnode, hmoves⟩ := htells v.position hv hgoesOn
  have hvalid (move : Value) : g.isValidMove player move state = .ok (move.isAmong moves) := by
    rw [Game.isValidMove, hmoves]
    rfl
  refine ⟨player, moves, state, hnode, hmoves, fun move => ⟨hvalid move, ?_⟩⟩
  intro ps t s s' hanswer
  rw [hnode, Node.accepts_iff hanswer, hvalid, Except.ok.injEq]

end TurnRules

namespace Nim

/-- In nim the turn goes round among the players of the game. -/
theorem orderly (g : Nim) (hplayers : 0 < g.numPlayers) : g.rules.Orderly := by
  have hturns {state : Value} (h : g.rules.Occurs state) :
      ∃ stones, ∃ p : Nat, state = .tuple [stones, .int p] ∧ (p : Int) < g.numPlayers := by
    induction h with
    | initial => exact ⟨_, 0, rfl, hplayers⟩
    | next _ _ _ _ _ hnext =>
        obtain ⟨stones, -, hnext⟩ := Run.except_bind_eq_ok.1 hnext
        obtain ⟨rest, -, hnext⟩ := Run.except_bind_eq_ok.1 hnext
        obtain ⟨taker, -, hnext⟩ := Run.except_bind_eq_ok.1 hnext
        have hnonneg := Int.emod_nonneg (taker + 1) (Int.ne_of_gt hplayers)
        have hless := Int.emod_lt_of_pos (taker + 1) hplayers
        obtain ⟨p, hp⟩ := Int.eq_ofNat_of_zero_le hnonneg
        rw [hp] at hnext hless
        cases hnext
        exact ⟨rest, p, rfl, hless⟩
  refine ⟨fun h => ?_, fun {state player} h hturn => ?_⟩
  · obtain ⟨stones, p, rfl, -⟩ := hturns h
    exact nofun
  · obtain ⟨stones, p, rfl, hp⟩ := hturns h
    cases hturn
    exact ⟨p, rfl, hp⟩

/-- Two stones for two players, who take one at a time. -/
def twoStones : Nim :=
  ⟨"", 2, 2, [.int 1], false⟩

theorem two_is_allowed : 1 ≤ 2 ∧ 2 ≤ maxRepetitions := by decide

/-- Twice in a row, and all of this once more. -/
def twiceTwice : List (Repetition Unit × String) :=
  [(.times 2 two_is_allowed, ""), (.times 2 two_is_allowed, "")]

/-- Nim played so, with exact numbers for chance, which does not move. -/
abbrev fourTimes : Game Rat Unit :=
  twoStones.rules.game.repeatedAll twiceTwice

/-- The second player is to move, with one stone left, in the first round of all. -/
def secondTurn : Walk fourTimes.tree.Position :=
  let moves : Transcript := ⟨[⟨.int 0, .int 1⟩]⟩
  let stage : Turn := .ongoing (.int 1) [.int 1] (.tuple [.int 1, .int 1])
  ⟨.within (.within stage .empty moves) .empty moves, moves, .int 0, 1⟩

/-- In the second turn, the state of which is twice that of a round, the second player is told that
the last stone may be taken. -/
theorem second_turn_is_told :
    twoStones.rules.Orderly ∧
      (∃ root, fourTimes.root.start () = (.ok root, ()) ∧
        Walk.Follows fourTimes.tree (takers 2) 2 9 (Walk.start fourTimes.tree root) () [.int 1]
          secondTurn ()) ∧
      ∃ player moves state,
        fourTimes.tree.node secondTurn.position = .sequential player moves state ∧
          fourTimes.availableMoves player state = .ok moves := by
  have horderly : twoStones.rules.Orderly := orderly _ (by decide)
  have hfollows : ∃ root, fourTimes.root.start () = (.ok root, ()) ∧
      Walk.Follows fourTimes.tree (takers 2) 2 9 (Walk.start fourTimes.tree root) () [.int 1]
        secondTurn () :=
    ⟨_, rfl, .cons (by with_unfolding_all decide) rfl (by with_unfolding_all rfl)
      (by with_unfolding_all rfl) (.nil _ _)⟩
  refine ⟨horderly, hfollows, ?_⟩
  obtain ⟨root, hroot, hfollows⟩ := hfollows
  obtain ⟨player, moves, state, hnode, hmoves, -⟩ :=
    TurnRules.offered_moves_are_told twoStones.rules horderly twiceTwice (takers 2) 9 root [.int 1]
      secondTurn () () () hroot hfollows rfl
  exact ⟨player, moves, state, hnode, hmoves⟩

end Nim

end ExtensiveForm
