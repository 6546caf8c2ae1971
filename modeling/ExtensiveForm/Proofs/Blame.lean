import ExtensiveForm.Proofs.Faults
import ExtensiveForm.Proofs.Steps

/-!
# Which node a fault tells of

A play that is abandoned tells of a state. The fault may come of the players who are asked or of the
rules of the game, which tell what they like. All other faults of a play come of the walk itself,
and `Walk.Raises` says what state they have: that of the node where the walk has got to. There is
one exception. A node may name a player who is none of the game, and the check of players knows
nothing of the node.

`Walk.raises_of_decide` goes through the ways in which a decision may fail, and
`Walk.raises_of_step` through those of a visit. The main result for whole plays is
`faults_tell_of_their_node`.
-/

namespace ExtensiveForm

/-- The fault is one of those by which a play tells that it was abandoned. -/
def Fault.IsOfPlay : Fault → Prop
  | invalidPlayer _ _ _ | illegalMove _ _ _ | unmapped _ _ | nonterminating _ _ | noMove _ _ _
  | invalidPayoff _ _ _ => True
  | _ => False

/-- A fault that a play tells of is told as it is. -/
theorem Fault.IsOfPlay.told_eq {f : Fault} (h : f.told.IsOfPlay) : f.told = f := by
  rcases f.told_eq_or with heq | heq
  · exact heq
  · rw [heq] at h
    cases h

theorem Fault.IsOfPlay.told_state {f : Fault} (h : f.told.IsOfPlay) : f.told.state = f.state :=
  congrArg Fault.state h.told_eq

/-- Only the players of the game pass the check, and the fault for anyone else has no state. -/
theorem checkPlayer_eq_error {player : Value} {numPlayers : Int} {f : Fault}
    (h : checkPlayer player numPlayers = .error f) :
    (∀ p : Nat, player = .int p → numPlayers ≤ p) ∧
      f = .told (.invalidPlayer player (.int numPlayers) .null) := by
  constructor
  · intro p hp
    by_contra hless
    rw [Participants.checkPlayer_eq_ok.2 ⟨hp, by omega⟩] at h
    cases h
  · unfold checkPlayer at h
    repeat' split at h
    all_goals cases h
    all_goals rfl

/-- Of computations one after another the first one that fails is the fault of all. -/
theorem Run.mapM_eq_error {σ α β : Type} {f : α → Run σ β} {as : List α} {e : Fault} {s s' : σ}
    (h : (as.mapM f).start s = (.error e, s')) :
    ∃ before a after bs s₁, as = before ++ a :: after ∧
      (before.mapM f).start s = (.ok bs, s₁) ∧ (f a).start s₁ = (.error e, s') := by
  induction as generalizing s with
  | nil => cases h
  | cons a as ih =>
      rw [List.mapM_cons, start_bind_eq_error] at h
      rcases h with hfirst | ⟨b, s₁, hb, h⟩
      · exact ⟨[], a, as, [], s, rfl, rfl, hfirst⟩
      · rw [start_bind_eq_error] at h
        rcases h with hrest | ⟨bs, s₂, -, h⟩
        · obtain ⟨before, a', after, bs, s₂, rfl, hbefore, hfails⟩ := ih hrest
          refine ⟨a :: before, a', after, b :: bs, s₂, rfl, ?_, hfails⟩
          rw [List.mapM_cons, start_bind_ok hb, start_bind_ok hbefore]
          rfl
        · cases h

namespace Simultaneous

theorem checkMoves_state (n : Simultaneous) :
    FailsWith (fun f => f.IsOfPlay → f.state = n.state) n.checkMoves := by
  refine .forM fun seat _ => ?_
  split
  · exact .error fun hf => hf.told_state
  · exact .ok _

theorem checkLegal_state (n : Simultaneous) (moves : List Value) :
    FailsWith (fun f => f.IsOfPlay → f.state = n.state) (n.checkLegal moves) := by
  refine .forM fun pair _ => ?_
  obtain ⟨seat, move⟩ := pair
  dsimp only
  split
  · exact .ok _
  · exact .error fun hf => hf.told_state

end Simultaneous

namespace Walk

variable {ω σ : Type} [Scale ω] {t : Tree ω σ} {ps : Participants ω σ} {numPlayers maxDepth : Int}
  {w : Walk t.Position} {s s' : σ} {f : Fault}

/-- A player who is asked at the node of a walk fails: everyone has moves to choose from, and all
who are asked before have answered. -/
def AskedFails (ps : Participants ω σ) (numPlayers : Int) (w : Walk t.Position) (s : σ) (f : Fault)
    (s' : σ) : Prop :=
  (∀ seat ∈ (t.node w.position).seats, seat.moves ≠ []) ∧
    ∃ before c after moves s₁ ask, ∃ p : Nat,
      (t.node w.position).contexts numPlayers w.transcript = before ++ c :: after ∧
      (before.mapM ps.answer).start s = (.ok moves, s₁) ∧
      c.player = .int p ∧ (p : Int) < numPlayers ∧ ps.ask p = some ask ∧
      (ask c).start s₁ = (.error f, s')

/-- The rules of the game fail at the key that was decided for at the node of a walk. -/
def RulesFail (ps : Participants ω σ) (numPlayers : Int) (w : Walk t.Position) (s : σ) (f : Fault)
    (s' : σ) : Prop :=
  ∃ key s₁, (decide ps numPlayers w.transcript (t.node w.position)).start s = (.ok key, s₁) ∧
    (t.next w.position key).start s₁ = (.error f, s')

/-- A fault of a visit that is not cut off may come of a player or of the rules. Any other fault of
a visit has the state of the node, or it is about a player who is named there and is none of the
game, and has no state. -/
inductive Raises (ps : Participants ω σ) (numPlayers maxDepth : Int) (w : Walk t.Position) (s : σ) :
    Fault → σ → Prop
  | player {f : Fault} {s' : σ} (hbound : ¬ maxDepth ≤ w.enter.visited)
      (hfails : w.AskedFails ps numPlayers s f s') : Raises ps numPlayers maxDepth w s f s'
  | rules {f : Fault} {s' : σ} (hbound : ¬ maxDepth ≤ w.enter.visited)
      (hfails : w.RulesFail ps numPlayers s f s') : Raises ps numPlayers maxDepth w s f s'
  | node {f : Fault} {s' : σ} (hstate : f.state = (t.node w.position).state) :
      Raises ps numPlayers maxDepth w s f s'
  | outsider {seat : Seat} {s' : σ} (hseat : seat ∈ (t.node w.position).seats)
      (houtside : ∀ p : Nat, seat.player = .int p → numPlayers ≤ p) :
      Raises ps numPlayers maxDepth w s (.invalidPlayer seat.player (.int numPlayers) .null) s'

omit [Scale ω] in
/-- An answer that is not given is that of no player of the game, of a player without a strategy, or
of a strategy that fails. -/
theorem answer_eq_error {c : Context} (hf : f.IsOfPlay)
    (h : (ps.answer c).start s = (.error f, s')) :
    ((∀ p : Nat, c.player = .int p → c.numPlayers ≤ p) ∧
        f = .invalidPlayer c.player (.int c.numPlayers) .null) ∨
      f.state = c.state ∨
      ∃ (p : Nat) (ask : Context → Run σ Value), c.player = .int p ∧ (p : Int) < c.numPlayers ∧
        ps.ask p = some ask ∧ (ask c).start s = (.error f, s') := by
  unfold Participants.answer at h
  rcases Run.start_liftM_bind_eq_error.1 h with ⟨hcheck, -⟩ | ⟨p, hcheck, h⟩
  · obtain ⟨houtside, rfl⟩ := checkPlayer_eq_error hcheck
    exact .inl ⟨houtside, hf.told_eq⟩
  · obtain ⟨hp, hless⟩ := Participants.checkPlayer_eq_ok.1 hcheck
    cases hask : ps.ask p with
    | none =>
        rw [hask] at h
        cases h
        exact .inr (.inl hf.told_state)
    | some ask =>
        rw [hask] at h
        exact .inr (.inr ⟨p, ask, hp, hless, hask, h⟩)

/-- So an answer that is not given at a node, when everyone before has answered, is raised by the
player or by the visit. -/
theorem raises_of_answer {before after : List Context} {c : Context} {moves : List Value} {s₁ : σ}
    (hbound : ¬ maxDepth ≤ w.enter.visited) (hf : f.IsOfPlay)
    (hmoves : ∀ seat ∈ (t.node w.position).seats, seat.moves ≠ [])
    (hcontexts : (t.node w.position).contexts numPlayers w.transcript = before ++ c :: after)
    (hbefore : (before.mapM ps.answer).start s = (.ok moves, s₁))
    (h : (ps.answer c).start s₁ = (.error f, s')) : w.Raises ps numPlayers maxDepth s f s' := by
  have hmem : c ∈ (t.node w.position).contexts numPlayers w.transcript := by simp [hcontexts]
  have hstate := (Node.eq_of_mem_contexts hmem).1
  rw [Node.contexts_eq] at hmem
  obtain ⟨seat, hseat, rfl⟩ := List.mem_map.1 hmem
  rcases answer_eq_error hf h with ⟨houtside, rfl⟩ | hnode | ⟨p, ask, hp, hless, hask, hfails⟩
  · exact .outsider hseat houtside
  · exact .node (hnode.trans hstate)
  · exact .player hbound
      ⟨hmoves, before, _, after, moves, s₁, ask, p, hcontexts, hbefore, hp, hless, hask, hfails⟩

/-- Whatever a decision of several players fails for is raised in one of these ways. -/
theorem raises_of_decideTogether {n : Simultaneous} (hbound : ¬ maxDepth ≤ w.enter.visited)
    (hf : f.IsOfPlay) (hnode : t.node w.position = .simultaneous n)
    (h : (decideTogether ps numPlayers w.transcript n).start s = (.error f, s')) :
    w.Raises ps numPlayers maxDepth s f s' := by
  have hstate : (t.node w.position).state = n.state := by rw [hnode]; rfl
  unfold decideTogether at h
  rcases Run.start_liftM_bind_eq_error.1 h with ⟨hmoves, -⟩ | ⟨_, hmoves, h⟩
  · exact .node ((n.checkMoves_state f hmoves hf).trans hstate.symm)
  have hoffered : ∀ seat ∈ (t.node w.position).seats, seat.moves ≠ [] := by
    rw [hnode]
    exact Simultaneous.checkMoves_eq_ok.1 hmoves
  rw [Run.start_bind_eq_error] at h
  rcases h with hanswers | ⟨moves, s₁, -, h⟩
  · have hanswers : ((n.seats.map (n.context numPlayers w.transcript)).mapM ps.answer).start s =
        (.error f, s') := by
      rw [List.mapM_map]
      exact hanswers
    obtain ⟨before, c, after, moves, s₁, hcontexts, hbefore, hfails⟩ := Run.mapM_eq_error hanswers
    exact raises_of_answer hbound hf hoffered (by rw [hnode]; exact hcontexts) hbefore hfails
  · rcases Run.start_liftM_bind_eq_error.1 h with ⟨hlegal, -⟩ | ⟨_, -, h⟩
    · exact .node ((n.checkLegal_state moves f hlegal hf).trans hstate.symm)
    · cases h

/-- So is whatever a decision of one player fails for. -/
theorem raises_of_decideAlone {player state : Value} {moves : List Value}
    (hbound : ¬ maxDepth ≤ w.enter.visited) (hf : f.IsOfPlay)
    (hnode : t.node w.position = .sequential player moves state)
    (h : (decideAlone ps ⟨player, .tuple moves, numPlayers, state, w.transcript⟩).start s =
      (.error f, s')) : w.Raises ps numPlayers maxDepth s f s' := by
  have hstate : state = (t.node w.position).state := by rw [hnode]; rfl
  have hseat : ⟨player, moves⟩ ∈ (t.node w.position).seats := by
    rw [hnode]
    exact List.mem_singleton_self _
  unfold decideAlone at h
  rcases Run.start_liftM_bind_eq_error.1 h with ⟨hcheck, -⟩ | ⟨p, hcheck, h⟩
  · obtain ⟨houtside, rfl⟩ := checkPlayer_eq_error hcheck
    rw [hf.told_eq]
    exact .outsider hseat houtside
  obtain ⟨hp, hless⟩ := Participants.checkPlayer_eq_ok.1 hcheck
  cases hask : ps.ask p with
  | none =>
      rw [hask] at h
      cases h
      exact .node (hf.told_state.trans hstate)
  | some ask =>
      simp only [hask, Run.throw_bind] at h
      split at h
      · cases h
        exact .node (hf.told_state.trans hstate)
      · rename_i hmoves
        rw [Run.start_bind_eq_error] at h
        rcases h with hfails | ⟨move, s₁, -, h⟩
        · refine .player hbound
            ⟨fun seat hseat hnone => hmoves ?_, [], _, [], [], _, ask, p, ?_, rfl, hp, hless, hask,
              hfails⟩
          · rw [hnode, Node.seats, List.mem_singleton] at hseat
            subst hseat
            obtain rfl : moves = [] := hnone
            rfl
          · rw [hnode]
            rfl
        · rw [Context.isValidMove_of_tuple rfl, Run.liftM_ok, pure_bind] at h
          split at h
          · cases h
          · cases h
            exact .node (hf.told_state.trans hstate)

/-- A draw of chance fails for nothing that a play tells of. -/
theorem sample_not_isOfPlay {d : Distribution ω}
    (h : (d.sample ps.uniform).start s = (.error f, s')) : ¬ f.IsOfPlay := by
  unfold Distribution.sample at h
  simp only [Run.throw_bind] at h
  split at h
  · rw [Run.start_bind_eq_error] at h
    rcases h with huniform | ⟨u, s₁, -, h⟩
    · cases huniform
    · cases hpick : d.pick? u with
      | none =>
          rw [hpick] at h
          cases h
          exact id
      | some v =>
          rw [hpick] at h
          cases h
  · cases h
    exact id

/-- At any node a decision fails in one of these ways, if a play tells of it. -/
theorem raises_of_decide (hbound : ¬ maxDepth ≤ w.enter.visited) (hf : f.IsOfPlay)
    (h : (decide ps numPlayers w.transcript (t.node w.position)).start s = (.error f, s')) :
    w.Raises ps numPlayers maxDepth s f s' := by
  cases hnode : t.node w.position with
  | simultaneous n =>
      rw [hnode, decide, Run.start_bind_eq_error] at h
      rcases h with h | ⟨moves, s₁, -, h⟩
      · exact raises_of_decideTogether hbound hf hnode h
      · cases h
  | sequential player moves state =>
      rw [hnode] at h
      exact raises_of_decideAlone hbound hf hnode h
  | chance d state =>
      rw [hnode] at h
      exact absurd hf (sample_not_isOfPlay h)
  | terminal e =>
      rw [hnode] at h
      cases h
      cases hf
  | stray v =>
      rw [hnode] at h
      cases h
      rw [hf.told_eq] at hf
      cases hf

/-- A key that was decided for is not followed if the rules fail, or if they know no continuation,
which the fault tells of the node. -/
theorem raises_of_follow {key : Value} {s₁ : σ} (hbound : ¬ maxDepth ≤ w.enter.visited)
    (hf : f.IsOfPlay)
    (hkey : (decide ps numPlayers w.transcript (t.node w.position)).start s = (.ok key, s₁))
    (h : (t.follow w.position key).start s₁ = (.error f, s')) :
    w.Raises ps numPlayers maxDepth s f s' := by
  rw [Tree.follow, lookupKey_of_decide hkey, Run.liftM_ok, pure_bind, Run.start_bind_eq_error] at h
  rcases h with hrules | ⟨next, s₂, -, h⟩
  · exact .rules hbound ⟨key, s₁, hkey, hrules⟩
  · cases next with
    | some q => cases h
    | none =>
        cases h
        exact .node hf.told_state

/-- An end of the game fails with its own state, if a play tells of it. -/
theorem raises_of_outcome {e : Ending} (hf : f.IsOfPlay)
    (hnode : t.node w.position = .terminal e)
    (h : e.outcome w.transcript numPlayers = .error f) :
    w.Raises ps numPlayers maxDepth s f s' := by
  by_cases hsize : (e.payoff.values.length : Int) = numPlayers
  · rw [Ending.outcome_wrongType hsize w.transcript f h] at hf
    cases hf
  · rw [Ending.outcome_eq_error hsize] at h
    cases h
    exact .node (by rw [hf.told_eq, hnode]; rfl)

/-- Whatever a visit fails for is raised in one of these ways, if a play tells of it. -/
theorem raises_of_step (hf : f.IsOfPlay)
    (h : (w.step t ps numPlayers maxDepth).start s = (.error f, s')) :
    w.Raises ps numPlayers maxDepth s f s' := by
  rw [step_eq] at h
  by_cases hbound : maxDepth ≤ w.enter.visited
  · rw [if_pos hbound] at h
    cases h
    exact .node rfl
  rw [if_neg hbound] at h
  rcases (t.node w.position).goesOn_or with ⟨e, hnode⟩ | ⟨stray, hnode⟩ | hnode
  · rw [advance_terminal (by rwa [enter_position]), enter_transcript] at h
    rcases Run.start_liftM_bind_eq_error.1 h with ⟨houtcome, -⟩ | ⟨o, -, h⟩
    · exact raises_of_outcome hf hnode houtcome
    · cases h
  · unfold advance at h
    rw [enter_position, hnode] at h
    cases h
    rw [hf.told_eq] at hf
    cases hf
  · rw [advance_goesOn (by rwa [enter_position]), enter_position, enter_transcript,
      Run.start_bind_eq_error] at h
    rcases h with hdecide | ⟨key, s₁, hkey, h⟩
    · exact raises_of_decide hbound hf hdecide
    · rw [Run.start_bind_eq_error] at h
      rcases h with hfollow | ⟨child, s₂, -, h⟩
      · exact raises_of_follow hbound hf hkey hfollow
      · cases h

end Walk

variable {ω σ : Type} [Scale ω] {t : Tree ω σ} {ps : Participants ω σ} {numPlayers maxDepth : Int}
  {visits : Nat} {root : t.Position} {s s' : σ} {f : Fault}

/-- A play with strategies for players of the game fails at the visit of a node to which some keys
have led, and the fault, if it is one by which plays tell that they were abandoned, comes of a
player who was asked there, or of the rules at the key decided for there; or it has the state of the
node; or the node names a player who is none of the game, and the fault is about this player and has
no state. -/
theorem faults_tell_of_their_node (hcheck : ps.check numPlayers = .ok ()) (hf : f.IsOfPlay)
    (h : (execute t ps numPlayers maxDepth visits root).start s = (.error f, s')) :
    ∃ keys v s₁, Walk.Follows t ps numPlayers maxDepth (Walk.start t root) s keys v s₁ ∧
      (v.step t ps numPlayers maxDepth).start s₁ = (.error f, s') ∧
      v.Raises ps numPlayers maxDepth s₁ f s' := by
  rw [execute_eq hcheck] at h
  obtain ⟨keys, v, s₁, hfollows, -, hfails⟩ := Walk.run_eq_error_iff.1 h
  exact ⟨keys, v, s₁, hfollows, hfails, Walk.raises_of_step hf hfails⟩

/-- The first player moves, and then the player of this name, for whose move there is nothing. -/
def Tree.cutShort (player : Value) : Tree Rat Unit where
  Position := Bool
  node second := if second then .sequential player [.int 1] (.text "second")
    else .sequential (.int 0) [.int 1] (.text "first")
  next second _ := return if second then none else some true

/-- The only player always makes the same move. -/
def Participants.steadfast : Participants Rat Unit where
  players := [.int 0]
  ask player := if player = 0 then some fun _ => return .int 1 else none
  uniform := return 0

/-- A missing continuation is told of the second node. -/
theorem missing_continuation_tells_of_its_node :
    ∃ keys v s₁, Walk.Follows (.cutShort (.int 0)) .steadfast 1 9
        (Walk.start (.cutShort (.int 0)) false) () keys v s₁ ∧
      (v.step (.cutShort (.int 0)) .steadfast 1 9).start s₁ =
        (.error (.unmapped (.int 1) (.text "second")), ()) ∧
      v.Raises .steadfast 1 9 s₁ (.unmapped (.int 1) (.text "second")) () := by
  have htold : Fault.told (.unmapped (.int 1) (.text "second")) =
      .unmapped (.int 1) (.text "second") :=
    Fault.told_eq (by simp [Fault.shown, Value.isWritable_of_lt])
  have hplay : (execute (.cutShort (.int 0)) .steadfast 1 9 3 false).start () =
      (.error (.told (.unmapped (.int 1) (.text "second"))), ()) := by with_unfolding_all rfl
  rw [htold] at hplay
  exact faults_tell_of_their_node rfl trivial hplay

/-- Where the second node names a player who is none of the game, the fault does not tell of the
node, though neither a strategy nor the rules have failed. -/
theorem outsider_is_told_without_state :
    ((execute (.cutShort (.int 5)) .steadfast 1 9 3 false).start () =
        (.error (.invalidPlayer (.int 5) (.int 1) .null), ())) ∧
      Walk.Follows (.cutShort (.int 5)) .steadfast 1 9 (Walk.start (.cutShort (.int 5)) false) ()
        [.int 1] ⟨true, ⟨[⟨.int 0, .int 1⟩]⟩, .null, 1⟩ () ∧
      (Tree.node (.cutShort (.int 5)) true).state = .text "second" ∧
      (∀ player ask, Participants.steadfast.ask player = some ask →
        ∀ c, (ask c).start () = (.ok (.int 1), ())) ∧
      ∀ position key, ∃ next, (Tree.cutShort (.int 5)).next position key = pure next := by
  have htold : Fault.told (.invalidPlayer (.int 5) (.int 1) .null) =
      .invalidPlayer (.int 5) (.int 1) .null :=
    Fault.told_eq (by simp [Fault.shown, Value.isWritable_of_lt])
  have hplay : (execute (.cutShort (.int 5)) .steadfast 1 9 3 false).start () =
      (.error (.told (.invalidPlayer (.int 5) (.int 1) .null)), ()) := by with_unfolding_all rfl
  rw [htold] at hplay
  refine ⟨hplay, ?_, rfl, fun player ask hask c => ?_, fun position key => ⟨_, rfl⟩⟩
  · exact .cons (by with_unfolding_all decide) rfl
      (by with_unfolding_all rfl) (by with_unfolding_all rfl) (.nil _ _)
  · unfold Participants.steadfast at hask
    dsimp only at hask
    split at hask
    · cases hask
      rfl
    · cases hask

end ExtensiveForm
