import ExtensiveForm.Proofs.Walk

/-!
# Decisions taken apart

At a node where players decide, each of them is asked in turn, and what they answer is the key, if
each answer is one of the moves offered. `decide_eq_ok_iff` says this for a decision of one player
and of several at once, so that what is to be shown of both need only be shown of a list of answers.
-/

namespace ExtensiveForm

theorem Context.isValidMove_of_tuple {c : Context} {moves : List Value}
    (h : c.offered = .tuple moves) {move : Value} :
    c.isValidMove move = .ok (move.isAmong moves) := by
  rw [isValidMove, h]
  rfl

/-- The player is one of the game and has a strategy. -/
def Participants.Seats {ω σ : Type} (ps : Participants ω σ) (numPlayers : Int) (player : Value) :
    Prop :=
  ∃ p : Nat, player = .int p ∧ p < numPlayers ∧ (ps.ask p).isSome = true

namespace Participants

variable {ω σ : Type} {ps : Participants ω σ} {numPlayers : Int} {c : Context} {move : Value}
  {s s' : σ}

/-- The players of the game are found by their numbers. -/
theorem checkPlayer_eq_ok {player : Value} {p : Nat} :
    checkPlayer player numPlayers = .ok p ↔ player = .int p ∧ (p : Int) < numPlayers := by
  unfold checkPlayer
  constructor
  · intro h
    split at h
    · rename_i n
      split at h
      · rename_i hrange
        cases h
        rw [Int.toNat_of_nonneg hrange.1]
        exact ⟨rfl, hrange.2⟩
      · cases h
    · cases h
  · rintro ⟨rfl, hless⟩
    simp only
    rw [if_pos ⟨Int.natCast_nonneg p, hless⟩, Int.toNat_natCast]

/-- Strategies are accepted when they are those of players of the game. -/
theorem check_eq_ok
    (h : ∀ player ∈ ps.players, ∃ p : Nat, player = .int p ∧ (p : Int) < numPlayers) :
    ps.check numPlayers = .ok () := by
  refine forM_eq_ok.2 fun player hplayer => ?_
  obtain ⟨p, hp⟩ := h player hplayer
  rw [checkPlayer_eq_ok.2 hp]
  rfl

/-- Only a player of the game with a strategy gives an answer, and it is that of the strategy. -/
theorem answer_eq_ok_iff :
    (ps.answer c).start s = (.ok move, s') ↔
      ∃ (p : Nat) (ask : Context → Run σ Value), c.player = .int p ∧ (p : Int) < c.numPlayers ∧
        ps.ask p = some ask ∧ (ask c).start s = (.ok move, s') := by
  unfold answer
  simp only [Run.start_bind_eq_ok, Run.start_liftM, Prod.mk.injEq]
  constructor
  · rintro ⟨p, _, ⟨hplayer, rfl⟩, h⟩
    obtain ⟨hp, hless⟩ := checkPlayer_eq_ok.1 hplayer
    split at h
    · rename_i ask hask
      exact ⟨p, ask, hp, hless, hask, h⟩
    · cases h
  · rintro ⟨p, ask, hp, hless, hask, h⟩
    refine ⟨p, s, ⟨checkPlayer_eq_ok.2 ⟨hp, hless⟩, rfl⟩, ?_⟩
    rw [hask]
    exact h

/-- The answer of a player of the game is that of the strategy. -/
theorem answer_seated {p : Nat} {ask : Context → Run σ Value} (hp : c.player = .int p)
    (hless : (p : Int) < c.numPlayers) (hask : ps.ask p = some ask) : ps.answer c = ask c := by
  rw [answer, checkPlayer_eq_ok.2 ⟨hp, hless⟩, Run.liftM_ok, pure_bind, hask]

/-- Nobody else is asked. -/
theorem answer_unseated (h : ¬ ps.Seats c.numPlayers c.player) : ∃ f, ps.answer c = throw f := by
  unfold answer
  cases hplayer : checkPlayer c.player c.numPlayers with
  | error f => exact ⟨f, rfl⟩
  | ok p =>
      obtain ⟨hp, hless⟩ := checkPlayer_eq_ok.1 hplayer
      cases hask : ps.ask p with
      | none => exact ⟨_, by rw [Run.liftM_ok, pure_bind, hask]⟩
      | some ask => exact absurd ⟨p, hp, hless, by rw [hask]; rfl⟩ h

/-- Where everyone who is asked keeps the state within a sort, whoever is to answer does. -/
theorem answer_keeps {I : σ → Prop}
    (h : ∀ player ask, ps.ask player = some ask → ∀ c, Run.Keeps I (ask c)) (c : Context) :
    Run.Keeps I (ps.answer c) := by
  refine (Run.Keeps.liftM _).bind fun player => ?_
  cases hask : ps.ask player with
  | none => exact Run.Keeps.liftM (.error _)
  | some ask => exact h player ask hask c

/-- Whoever gives an answer is one of the game and has a strategy. -/
theorem seats_of_answer (h : Run.Gives (ps.answer c) move) : ps.Seats c.numPlayers c.player := by
  obtain ⟨s, s', h⟩ := h
  obtain ⟨p, ask, hp, hless, hask, -⟩ := answer_eq_ok_iff.1 h
  refine ⟨p, hp, hless, ?_⟩
  rw [hask]
  rfl

/-- If everyone who is asked gives an answer, all of them are of the game and have strategies. -/
theorem seats_of_answers {contexts : List Context} {moves : List Value}
    (h : Run.Gives (contexts.mapM ps.answer) moves) (hc : c ∈ contexts) :
    ps.Seats c.numPlayers c.player := by
  obtain ⟨move, -, hanswer⟩ := exists_of_mem_left (Run.gives_mapM h) hc
  exact seats_of_answer hanswer

end Participants

namespace Simultaneous

variable {n : Simultaneous} {moves : List Value}

theorem checkMoves_eq_ok : n.checkMoves = .ok () ↔ ∀ seat ∈ n.seats, seat.moves ≠ [] := by
  unfold checkMoves
  rw [forM_eq_ok]
  refine forall₂_congr fun seat _ => ?_
  cases seat.moves with
  | nil =>
      constructor
      · intro h
        cases h
      · intro h
        exact absurd rfl h
  | cons move moves => exact ⟨fun _ => List.cons_ne_nil _ _, fun _ => rfl⟩

/-- The moves are legal when each is one of those of its seat. -/
theorem checkLegal_eq_ok (hlength : n.seats.length = moves.length) :
    n.checkLegal moves = .ok () ↔
      List.Forall₂ (fun seat move => move.isAmong seat.moves = true) n.seats moves := by
  unfold checkLegal
  rw [forM_eq_ok, List.forall₂_iff_zip, and_iff_right hlength]
  have hcheck (seat : Seat) (move : Value) :
      (unless move.isAmong seat.moves do
        throw (.told (.illegalMove seat.player move n.state)) : Except Fault Unit) = .ok () ↔
        move.isAmong seat.moves = true := by
    cases move.isAmong seat.moves with
    | true => exact ⟨fun _ => rfl, fun _ => rfl⟩
    | false => constructor <;> (intro h; cases h)
  constructor
  · intro h seat move hmem
    exact (hcheck seat move).1 (h (seat, move) hmem)
  · rintro h ⟨seat, move⟩ hmem
    exact (hcheck seat move).2 (h hmem)

end Simultaneous

namespace Node

variable {ω σ : Type} [Scale ω] {n : Node ω} {numPlayers : Int} {t : Transcript} {c : Context}

/-- What is shown to those who are asked at a node. -/
def contexts (numPlayers : Int) (transcript : Transcript) : Node ω → List Context
  | .simultaneous n => n.seats.map (n.context numPlayers transcript)
  | .sequential player moves state => [⟨player, .tuple moves, numPlayers, state, transcript⟩]
  | _ => []

/-- The players who are asked at a node, each with the moves offered. -/
def seats : Node ω → List Seat
  | .simultaneous n => n.seats
  | .sequential player moves _ => [⟨player, moves⟩]
  | _ => []

theorem contexts_eq (n : Node ω) :
    n.contexts numPlayers t =
      n.seats.map fun seat => ⟨seat.player, .tuple seat.moves, numPlayers, n.state, t⟩ := by
  cases n <;> rfl

/-- The answers of the players are, taken together, this key. -/
inductive Joins : Node ω → List Value → Value → Prop
  | together (n : Simultaneous) (moves : List Value) : Joins (.simultaneous n) moves (.tuple moves)
  | alone (player : Value) (offered : List Value) (state move : Value) :
      Joins (.sequential player offered state) [move] move

/-- The plies of a key are the answers, each made by the player who gave it. -/
theorem Joins.plies_eq {moves : List Value} {key : Value} (h : n.Joins moves key) :
    n.plies key = List.zipWith (fun seat move => ⟨seat.player, move⟩) n.seats moves := by
  cases h <;> rfl

theorem player_mem_of_zipWith {as : List Seat} {moves : List Value} {p : Ply}
    (hp : p ∈ List.zipWith (fun seat move => ⟨seat.player, move⟩) as moves) :
    p.player ∈ as.map (·.player) := by
  induction as generalizing moves with
  | nil => cases hp
  | cons a as ih =>
      cases moves with
      | nil => cases hp
      | cons move moves =>
          rw [List.zipWith_cons_cons, List.mem_cons] at hp
          rcases hp with rfl | hp
          · exact List.mem_cons_self ..
          · exact List.mem_cons_of_mem _ (ih hp)

/-- Everyone who is asked at a node is shown its state and the transcript. -/
theorem eq_of_mem_contexts {transcript : Transcript} (h : c ∈ n.contexts numPlayers transcript) :
    c.state = n.state ∧ c.transcript = transcript ∧ n.goesOn = true := by
  cases n with
  | simultaneous n =>
      obtain ⟨seat, -, rfl⟩ := List.mem_map.1 h
      exact ⟨rfl, rfl, rfl⟩
  | sequential player moves state =>
      rw [List.mem_singleton.1 h]
      exact ⟨rfl, rfl, rfl⟩
  | _ => cases h

variable {ps : Participants ω σ} {s s' : σ} {key : Value}

omit [Scale ω] in
theorem decideTogether_eq_ok_iff {n : Simultaneous} {moves : List Value} :
    (Walk.decideTogether ps numPlayers t n).start s = (.ok moves, s') ↔
      (∀ seat ∈ n.seats, seat.moves ≠ []) ∧
        ((n.seats.map (n.context numPlayers t)).mapM ps.answer).start s = (.ok moves, s') ∧
        List.Forall₂ (fun seat move => move.isAmong seat.moves = true) n.seats moves := by
  rw [List.mapM_map]
  have hlength {moves : List Value} {s₁ : σ}
      (h : (n.seats.mapM fun seat => ps.answer (n.context numPlayers t seat)).start s =
        (.ok moves, s₁)) : n.seats.length = moves.length :=
    (Run.gives_mapM ⟨_, _, h⟩).length_eq
  simp only [Walk.decideTogether, Run.start_bind_eq_ok, Run.start_liftM, Run.start_pure,
    Prod.mk.injEq]
  constructor
  · rintro ⟨_, _, ⟨hchecked, rfl⟩, moves', s₁, hmoves, _, _, ⟨hlegal, rfl⟩, hok, rfl⟩
    cases hok
    exact ⟨Simultaneous.checkMoves_eq_ok.1 hchecked, hmoves,
      (Simultaneous.checkLegal_eq_ok (hlength hmoves)).1 hlegal⟩
  · rintro ⟨hchecked, hmoves, hlegal⟩
    exact ⟨(), s, ⟨Simultaneous.checkMoves_eq_ok.2 hchecked, rfl⟩, moves, s', hmoves, (), s',
      ⟨(Simultaneous.checkLegal_eq_ok (hlength hmoves)).2 hlegal, rfl⟩, rfl, rfl⟩

omit [Scale ω] in
theorem decideAlone_eq_ok_iff {moves : List Value} (hoffered : c.offered = .tuple moves)
    {move : Value} :
    (Walk.decideAlone ps c).start s = (.ok move, s') ↔
      moves ≠ [] ∧ (ps.answer c).start s = (.ok move, s') ∧ move.isAmong moves = true := by
  have havailable : c.availableMoves = moves := by
    rw [Context.availableMoves, hoffered]
    rfl
  unfold Walk.decideAlone Participants.answer
  simp only [Context.isValidMove_of_tuple hoffered, havailable, Run.liftM_ok, pure_bind,
    Run.throw_bind]
  cases checkPlayer c.player c.numPlayers with
  | error f =>
      constructor
      · intro h
        cases h
      · rintro ⟨-, h, -⟩
        cases h
  | ok p =>
      simp only [Run.liftM_ok, pure_bind]
      cases ps.ask p with
      | none =>
          constructor
          · intro h
            cases h
          · rintro ⟨-, h, -⟩
            cases h
      | some ask =>
          cases moves with
          | nil =>
              constructor
              · intro h
                cases h
              · rintro ⟨h, -⟩
                exact absurd rfl h
          | cons first rest =>
              simp only [List.isEmpty_cons]
              constructor
              · intro h
                obtain ⟨move', s₁, hask, h⟩ := Run.start_bind_eq_ok.1 h
                split at h
                · cases h
                  refine ⟨List.cons_ne_nil _ _, hask, ?_⟩
                  assumption
                · cases h
              · rintro ⟨-, hask, hlegal⟩
                refine Run.start_bind_eq_ok.2 ⟨move, s', hask, ?_⟩
                rw [if_pos hlegal]
                rfl

/-- Players decide for a key when each of them has moves to choose from and answers with one of
them. -/
theorem decide_eq_ok_iff (h : ∀ d state, n ≠ .chance d state) :
    (Walk.decide ps numPlayers t n).start s = (.ok key, s') ↔
      ∃ moves, n.Joins moves key ∧ (∀ seat ∈ n.seats, seat.moves ≠ []) ∧
        ((n.contexts numPlayers t).mapM ps.answer).start s = (.ok moves, s') ∧
        List.Forall₂ (fun seat move => move.isAmong seat.moves = true) n.seats moves := by
  cases n with
  | simultaneous n =>
      simp only [Walk.decide, Run.start_bind_eq_ok, decideTogether_eq_ok_iff]
      constructor
      · rintro ⟨moves, s₁, hdecided, heq⟩
        cases heq
        exact ⟨moves, .together n moves, hdecided⟩
      · rintro ⟨moves, ⟨⟩, hdecided⟩
        exact ⟨moves, s', hdecided, rfl⟩
  | sequential player offered state =>
      rw [Walk.decide, decideAlone_eq_ok_iff rfl, contexts, List.mapM_cons]
      constructor
      · rintro ⟨hmoves, hanswer, hlegal⟩
        refine ⟨[key], .alone player offered state key, ?_, ?_, .cons hlegal .nil⟩
        · intro seat hseat
          rwa [List.mem_singleton.1 hseat]
        · exact Run.start_bind_eq_ok.2 ⟨key, s', hanswer, rfl⟩
      · rintro ⟨_, ⟨⟩, hmoves, hanswers, hlegal⟩
        obtain ⟨_, s₁, hanswer, heq⟩ := Run.start_bind_eq_ok.1 hanswers
        cases heq
        cases hlegal
        exact ⟨hmoves _ (List.mem_singleton_self _), hanswer, ‹_›⟩
  | chance d state => exact absurd rfl (h d state)
  | terminal e =>
      constructor
      · intro h
        cases h
      · rintro ⟨_, ⟨⟩, -⟩
  | stray v =>
      constructor
      · intro h
        cases h
      · rintro ⟨_, ⟨⟩, -⟩

/-- What is played at a node is played by chance or under the number of a player. -/
theorem plies_of_decide (h : (Walk.decide ps numPlayers t n).start s = (.ok key, s')) :
    ∀ ply ∈ n.plies key, ply.player = .null ∨ ∃ p : Nat, ply.player = .int p := by
  intro ply hply
  by_cases hchance : ∃ d state, n = .chance d state
  · obtain ⟨d, state, rfl⟩ := hchance
    exact .inl (by rw [List.mem_singleton.1 hply])
  · have hplayers : ∀ d state, n ≠ .chance d state := fun d state h => hchance ⟨d, state, h⟩
    obtain ⟨moves, hjoins, -, hanswers, -⟩ := (decide_eq_ok_iff hplayers).1 h
    rw [hjoins.plies_eq] at hply
    obtain ⟨seat, hseat, hplayer⟩ := List.mem_map.1 (player_mem_of_zipWith hply)
    have hcontext : (⟨seat.player, .tuple seat.moves, numPlayers, n.state, t⟩ : Context) ∈
        n.contexts numPlayers t := by
      rw [contexts_eq]
      exact List.mem_map_of_mem hseat
    obtain ⟨p, hp, -⟩ := Participants.seats_of_answers ⟨_, _, hanswers⟩ hcontext
    exact .inr ⟨p, hplayer.symm.trans hp⟩

end Node

end ExtensiveForm
