import Mathlib.Algebra.Group.Nat.Defs
import Mathlib.Data.List.GetD
import ExtensiveForm.Proofs.Payments

/-!
# The profiles of a game in normal form

Which profiles a game in normal form has can be told in several ways: by the check of a profile, by
the profiles that are listed, by the moves that each player may make, by the payoff, and by the
decision at the only node of its tree. `profiles_told_alike` says that all of them agree.

Two scans look for an illegal move, that of the payoff and that of the decision. Both come to the
same player, whom `Blames` describes without a scan (`firstIllegalFrom?_eq_some`,
`checkLegal_everyone`). The fault tells of this player and the move as long as both can be written.
The profiles listed are counted along the sets of moves, `length_choices` and `countP_choices`.
-/

namespace ExtensiveForm

/-! ### Choices are counted -/

/-- There are as many choices as the product of the lengths says. -/
theorem length_choices {α : Type} (sets : List (List α)) :
    (choices sets).length = (sets.map List.length).prod := by
  induction sets with
  | nil => rfl
  | cons xs sets ih => simp [choices, List.length_flatMap, ih]

/-- No two of these values match. -/
def Value.NoneAlike (vs : List Value) : Prop :=
  vs.Pairwise fun v w => v.alike w = false

/-- A value among some of which no two match is matched by one of them. -/
theorem Value.countP_alike {v : Value} {vs : List Value} (hnone : NoneAlike vs)
    (hv : v.isAmong vs = true) : vs.countP (·.alike v) = 1 := by
  induction vs with
  | nil => cases hv
  | cons w vs ih =>
      obtain ⟨hw, hnone⟩ := List.pairwise_cons.1 hnone
      by_cases halike : w.alike v = true
      · have hothers : vs.countP (·.alike v) = 0 := by
          rw [List.countP_eq_zero]
          intro x hx hxv
          have hwx := alike_trans halike (alike_symm hxv)
          simp [hw x hx] at hwx
        simp [halike, hothers]
      · have hv' : v.isAmong vs = true := by
          rw [isAmong, List.any_cons, Bool.or_eq_true] at hv
          exact hv.resolve_left fun hvw => halike (alike_symm hvw)
        simp [halike, ih hnone hv']

theorem Profile.cons_beq (v w : Value) (vs ws : List Value) :
    (Profile.mk (v :: vs) == Profile.mk (w :: ws)) =
      (v.alike w && (Profile.mk vs == Profile.mk ws)) := by
  rw [Bool.eq_iff_iff, Bool.and_eq_true, beq_iff, beq_iff]
  exact List.forall₂_cons

/-- Where no two moves of one set match, moves that are each among those of its set are chosen once.
-/
theorem countP_choices {sets : List (List Value)} {moves : List Value}
    (h : List.Forall₂ (fun move set => move.isAmong set = true) moves sets)
    (hnone : ∀ set ∈ sets, Value.NoneAlike set) :
    (choices sets).countP (fun choice => Profile.mk choice == ⟨moves⟩) = 1 := by
  induction h with
  | nil => rfl
  | @cons move set moves sets hmove _ ih =>
      rw [List.forall_mem_cons] at hnone
      -- A first move that matches can be completed in one way, any other one in none.
      have hcompleted (first : Value) :
          ((choices sets).map (first :: ·)).countP
              (fun choice => Profile.mk choice == ⟨move :: moves⟩) =
            if first.alike move then 1 else 0 := by
        simp only [List.countP_map, Function.comp_def, Profile.cons_beq]
        cases first.alike move with
        | true => simpa using ih hnone.2
        | false => simp
      have hfirst (firsts : List Value) :
          (firsts.flatMap fun first => (choices sets).map (first :: ·)).countP
              (fun choice => Profile.mk choice == ⟨move :: moves⟩) =
            firsts.countP (·.alike move) := by
        induction firsts with
        | nil => rfl
        | cons first firsts ih =>
            rw [List.flatMap_cons, List.countP_append, hcompleted, ih, List.countP_cons]
            omega
      rw [choices, hfirst]
      exact Value.countP_alike hnone.1 hmove

/-! ### Whose move is illegal -/

/-- A profile is not valid for these sets of moves on account of this player and this move: nobody
and all the moves, if there are not as many moves as sets, and otherwise the first player whose move
is not declared. -/
inductive Profile.Blames (p : Profile) (moveSets : List (List Value)) : Value → Value → Prop
  | nobody (hlength : p.moves.length ≠ moveSets.length) : Blames p moveSets .null (.tuple p.moves)
  | player {player : Nat} {move : Value} {moves : List Value}
      (hlength : p.moves.length = moveSets.length) (hmove : p.moves[player]? = some move)
      (hmoves : moveSets[player]? = some moves) (hillegal : move.isAmong moves = false)
      (hbefore : List.Forall₂ (fun move moves => move.isAmong moves = true)
        (p.moves.take player) (moveSets.take player)) : Blames p moveSets (.int player) move

/-- The first of some moves, numbered from the start on, that is not among its set. -/
def firstIllegalFrom? (start : Nat) (moves : List Value) (sets : List (List Value)) :
    Option (Value × Nat) :=
  ((moves.zip sets).zipIdx start).findSome? fun ((move, moves), player) =>
    if move.isAmong moves then none else some (move, player)

section Scans

variable {start player : Nat} {move : Value} {moves set : List Value} {sets : List (List Value)}

theorem firstIllegalFrom?_cons_legal (h : move.isAmong set = true) :
    firstIllegalFrom? start (move :: moves) (set :: sets) =
      firstIllegalFrom? (start + 1) moves sets := by
  simp [firstIllegalFrom?, List.zipIdx_cons, h]

theorem firstIllegalFrom?_cons_illegal (h : move.isAmong set = false) :
    firstIllegalFrom? start (move :: moves) (set :: sets) = some (move, start) := by
  simp [firstIllegalFrom?, List.zipIdx_cons, h]

/-- It is found at its place, and all moves before it are legal. -/
theorem firstIllegalFrom?_eq_some
    (h : firstIllegalFrom? start moves sets = some (move, player)) :
    ∃ place set, player = start + place ∧ moves[place]? = some move ∧ sets[place]? = some set ∧
      move.isAmong set = false ∧ List.Forall₂ (fun move moves => move.isAmong moves = true)
        (moves.take place) (sets.take place) := by
  induction moves generalizing sets start with
  | nil => cases h
  | cons first moves ih =>
      cases sets with
      | nil => cases h
      | cons set sets =>
          cases hfirst : first.isAmong set with
          | true =>
              rw [firstIllegalFrom?_cons_legal hfirst] at h
              obtain ⟨place, set', rfl, hmove, hset, hillegal, hbefore⟩ := ih h
              exact ⟨place + 1, set', by omega, hmove, hset, hillegal, .cons hfirst hbefore⟩
          | false =>
              rw [firstIllegalFrom?_cons_illegal hfirst] at h
              cases h
              exact ⟨0, set, rfl, rfl, rfl, hfirst, .nil⟩

theorem firstIllegalFrom?_eq_none (hlength : moves.length = sets.length)
    (h : firstIllegalFrom? start moves sets = none) :
    List.Forall₂ (fun move moves => move.isAmong moves = true) moves sets := by
  induction moves generalizing sets start with
  | nil =>
      rw [List.eq_nil_of_length_eq_zero hlength.symm]
      exact .nil
  | cons first moves ih =>
      cases sets with
      | nil => cases hlength
      | cons set sets =>
          cases hfirst : first.isAmong set with
          | true =>
              rw [firstIllegalFrom?_cons_legal hfirst] at h
              exact .cons hfirst (ih (Nat.succ.inj hlength) h)
          | false =>
              rw [firstIllegalFrom?_cons_illegal hfirst] at h
              cases h

/-- The check of a decision of everyone stops at the same move. -/
theorem checkLegal_everyone (state : Value) (hlength : moves.length = sets.length) :
    (Simultaneous.everyone sets state).checkLegal moves =
      match firstIllegalFrom? 0 moves sets with
      | none => .ok ()
      | some (move, player) => .error (.told (.illegalMove (.int player) move state)) := by
  have hscan (start : Nat) : (((sets.zipIdx start).map fun seat =>
        (⟨.int seat.2, seat.1⟩ : Seat)).zip moves).forM (fun answer => do
          unless answer.2.isAmong answer.1.moves do
            throw (.told (.illegalMove answer.1.player answer.2 state))) =
      match firstIllegalFrom? start moves sets with
      | none => (.ok () : Except Fault Unit)
      | some (move, player) => .error (.told (.illegalMove (.int player) move state)) := by
    induction sets generalizing moves start with
    | nil =>
        rw [List.eq_nil_of_length_eq_zero hlength]
        rfl
    | cons set sets ih =>
        cases moves with
        | nil => cases hlength
        | cons first moves =>
            rw [List.zipIdx_cons, List.map_cons, List.zip_cons_cons, List.forM]
            cases hfirst : first.isAmong set with
            | true =>
                rw [firstIllegalFrom?_cons_legal hfirst, ← ih (Nat.succ.inj hlength) (start + 1)]
                simp only [if_true]
                rfl
            | false =>
                rw [firstIllegalFrom?_cons_illegal hfirst]
                simp only [Bool.false_eq_true, if_false]
                rfl
  exact hscan 0

end Scans

namespace NormalForm

variable {ω σ : Type} {g : NormalForm σ} {p : Profile} {who what state : Value}
  {moves : List Value}

/-- The scan of the profile is that of its moves from the first player on. -/
theorem firstIllegal?_eq : g.firstIllegal? p = firstIllegalFrom? 0 p.moves g.moveSets := rfl

/-- Either a profile of moves for all players is valid, or a move is the first illegal one. -/
theorem valid_or_firstIllegal (hlength : p.moves.length = g.numPlayers) :
    g.isValidProfile p = true ∨ g.isValidProfile p = false ∧ ∃ player : Nat, ∃ move,
      firstIllegalFrom? 0 p.moves g.moveSets = some (move, player) ∧
      p.Blames g.moveSets (.int player) move := by
  cases hfirst : firstIllegalFrom? 0 p.moves g.moveSets with
  | none => exact .inl (isValidProfile_iff.2 (firstIllegalFrom?_eq_none hlength hfirst))
  | some illegal =>
      obtain ⟨move, player⟩ := illegal
      obtain ⟨place, set, hplace, hmove, hset, hillegal, hbefore⟩ :=
        firstIllegalFrom?_eq_some hfirst
      obtain rfl : player = place := by omega
      refine .inr ⟨?_, player, move, rfl, .player hlength hmove hset hillegal hbefore⟩
      by_contra hvalid
      have hnone := firstIllegal?_of_valid ((Bool.not_eq_false _).mp hvalid)
      rw [firstIllegal?_eq, hfirst] at hnone
      cases hnone

/-- A profile that is not valid has no payoff, and the fault says whose move is to blame. -/
theorem payoff_of_invalid (h : g.isValidProfile p = false) :
    ∃ who what, p.Blames g.moveSets who what ∧
      g.payoff p = throw (.told (.illegalMove who what .null)) := by
  by_cases hlength : p.moves.length = g.numPlayers
  · rcases valid_or_firstIllegal hlength with hvalid | ⟨-, player, move, hfirst, hblames⟩
    · rw [hvalid] at h
      cases h
    · refine ⟨.int player, move, hblames, ?_⟩
      rw [payoff, if_pos hlength, firstIllegal?_eq, hfirst]
  · refine ⟨.null, .tuple p.moves, .nobody hlength, ?_⟩
    rw [payoff, if_neg hlength]
    rfl

/-- The payoff function is called for a valid profile, and only with it. -/
theorem called_payoff_of_valid (h : g.isValidProfile p = true) (s : σ) (log : List Call) :
    ((g.called.payoff p).start (s, log)).2 =
      (((g.payoffOf p).start s).2, .paid p ((g.payoffOf p).start s).1 :: log) := by
  have hcalled : g.called.isValidProfile p = true := h
  rw [payoff_of_valid hcalled, called_payoffOf, Run.start_bind, Run.start_logged]
  rcases (g.payoffOf p).start s with ⟨f | v, s'⟩
  · rfl
  · cases v <;> rfl

/-- A player may make the declared moves, in whatever state. -/
theorem isValidMove_eq [Scale ω] {player : Nat} (hplayer : player < g.numPlayers)
    (move state : Value) : (g.game (ω := ω)).isValidMove (.int player) move state =
      .ok (move.isAmong (g.moveSets.getD player [])) := by
  have hchecked : checkPlayer (.int player) (g.game (ω := ω)).numPlayers = .ok player :=
    Participants.checkPlayer_eq_ok.2 ⟨rfl, Int.ofNat_lt.2 hplayer⟩
  rw [Game.isValidMove, Game.availableMoves, hchecked]
  rfl

/-- A profile is valid when each player may make the move that it has for the player. -/
theorem isValidProfile_iff_isValidMove [Scale ω] : g.isValidProfile p = true ↔
    p.moves.length = g.numPlayers ∧ ∀ (player : Nat) (move : Value),
      p.moves[player]? = some move → ∀ state,
        (g.game (ω := ω)).isValidMove (.int player) move state = .ok true := by
  rw [isValidProfile_iff, List.forall₂_iff_get]
  refine and_congr_right fun hlength => ?_
  constructor
  · intro hlegal player move hmove state
    obtain ⟨hplayer, rfl⟩ := List.getElem?_eq_some_iff.1 hmove
    have hplayer' : player < g.moveSets.length := hlength ▸ hplayer
    have hamong := hlegal player hplayer hplayer'
    rw [List.get_eq_getElem, List.get_eq_getElem] at hamong
    rw [isValidMove_eq hplayer', List.getD_eq_getElem _ _ hplayer', hamong]
  · intro hlegal player hplayer hplayer'
    have hvalid := hlegal player _ (List.getElem?_eq_getElem hplayer) .null
    rw [isValidMove_eq hplayer', List.getD_eq_getElem _ _ hplayer'] at hvalid
    exact Except.ok.inj hvalid

variable [Scale ω] {ps : Participants ω σ} {s s' : σ}

/-- Where all players answer, the decision of everyone comes to their moves, unless one of them is
illegal. -/
theorem decide_everyone (hanswers : ((g.contexts .null).mapM ps.answer).start s = (.ok moves, s')) :
    (Walk.decide ps g.numPlayers .empty (g.tree.node none)).start s =
      match firstIllegalFrom? 0 moves g.moveSets with
      | none => (.ok (.tuple moves), s')
      | some (move, player) => (.error (.told (.illegalMove (.int player) move .null)), s') := by
  have hlength : moves.length = g.moveSets.length := by
    rw [← (Run.gives_mapM ⟨_, _, hanswers⟩).length_eq, NormalForm.contexts, List.length_mapIdx]
  have hmoves : (Simultaneous.everyone g.moveSets .null).checkMoves = .ok () := by
    rw [Simultaneous.checkMoves_eq_ok]
    intro seat hseat
    obtain ⟨⟨set, player⟩, hset, rfl⟩ := List.mem_map.1 hseat
    exact g.hasMoves set (List.fst_mem_of_mem_zipIdx hset)
  show (do
    let moves ← Walk.decideTogether ps g.numPlayers .empty (.everyone g.moveSets .null)
    return Value.tuple moves : Run σ Value).start s = _
  rw [Walk.decideTogether, hmoves, mapM_everyone, Run.liftM_ok, pure_bind, bind_assoc,
    Run.start_bind_ok hanswers, checkLegal_everyone .null hlength]
  cases firstIllegalFrom? 0 moves g.moveSets <;> rfl

end NormalForm

end ExtensiveForm
