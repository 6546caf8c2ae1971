import ExtensiveForm.Proofs.Walk

/-!
# Decisions of participants who answer alike

What is decided at a node depends on the state and the transcript only through the answers of those
who are asked. `decide_retells` says so: two decisions at a node differ only in how they tell a
fault, if the two sides answer alike. `decide_steady` is about participants who always answer the
same, and do nothing else.
-/

namespace ExtensiveForm

namespace Fault

/-- The same fault, told of another state. -/
def withState (state : Value) : Fault → Fault
  | invalidPlayer player numPlayers _ => invalidPlayer player numPlayers state
  | illegalMove player move _ => illegalMove player move state
  | unmapped key _ => unmapped key state
  | nonterminating maxDepth _ => nonterminating maxDepth state
  | noMove player reason _ => noMove player reason state
  | invalidPayoff payoff numPlayers _ => invalidPayoff payoff numPlayers state
  | f => f

theorem told_withState (state : Value) (f : Fault) :
    (f.withState state).told = f.told.withState state := by
  have hshown : (f.withState state).shown = f.shown := by cases f <;> rfl
  unfold told
  rw [hshown]
  split <;> rfl

end Fault

/-- Two groups of participants answer alike, where the ones are shown this state and transcript and
the others those. Any fault may be told in the same way, and a fault told of the one state may be
told of the other. -/
structure Participants.Alike {ω σ : Type} (R : Fault → Fault → Prop) (numPlayers : Int)
    (ps ps' : Participants ω σ) (state state' : Value) (t t' : Transcript) : Prop where
  ask (player : Nat) : Option.Rel
    (fun ask ask' => ∀ who offered, Run.Retells R (ask ⟨who, offered, numPlayers, state, t⟩)
      (ask' ⟨who, offered, numPlayers, state', t'⟩)) (ps.ask player) (ps'.ask player)
  uniform : ps.uniform = ps'.uniform
  same (f : Fault) : R f f
  told (f : Fault) : f.state = state → R f (f.withState state')

/-- Whether a fault can be told does not depend on the state that it is told of. -/
theorem Participants.Alike.retold {ω σ : Type} {R : Fault → Fault → Prop} {numPlayers : Int}
    {ps ps' : Participants ω σ} {state state' : Value} {t t' : Transcript}
    (h : ps.Alike R numPlayers ps' state state' t t') {f : Fault} (hf : f.state = state) :
    R f.told (f.withState state').told := by
  rw [Fault.told_withState]
  rcases f.told_eq_or with htold | htold <;> rw [htold]
  · exact h.told f hf
  · exact h.same _

namespace Walk

variable {ω σ : Type} [Scale ω] {R : Fault → Fault → Prop} {numPlayers : Int}
  {ps ps' : Participants ω σ} {state state' : Value} {t t' : Transcript}

omit [Scale ω] in
/-- Whoever is asked is asked on both sides. -/
theorem answer_retells (halike : ps.Alike R numPlayers ps' state state' t t')
    (who offered : Value) :
    Run.Retells R (ps.answer ⟨who, offered, numPlayers, state, t⟩)
      (ps'.answer ⟨who, offered, numPlayers, state', t'⟩) := by
  unfold Participants.answer
  refine .bind (.refl halike.same _) fun player => ?_
  have hask := halike.ask player
  cases hleft : ps.ask player <;> cases hright : ps'.ask player <;> rw [hleft, hright] at hask <;>
    cases hask
  · exact .throw (halike.retold rfl)
  · rename_i hanswer
    exact hanswer who offered

omit [Scale ω] in
theorem decideAlone_retells (halike : ps.Alike R numPlayers ps' state state' t t')
    (who offered : Value) :
    Run.Retells R (decideAlone ps ⟨who, offered, numPlayers, state, t⟩)
      (decideAlone ps' ⟨who, offered, numPlayers, state', t'⟩) := by
  unfold decideAlone
  refine .bind (.refl halike.same _) fun player => ?_
  have hask := halike.ask player
  cases hleft : ps.ask player <;> cases hright : ps'.ask player <;> rw [hleft, hright] at hask <;>
    cases hask
  · exact .throw (halike.retold rfl)
  · rename_i hanswer
    simp only [Run.throw_bind]
    refine .ite (.throw (halike.retold rfl)) ?_
    refine .bind (hanswer who offered) fun move => ?_
    refine .bind (.refl halike.same _) fun legal => ?_
    exact .ite (.refl halike.same _) (.throw (halike.retold rfl))

omit [Scale ω] in
theorem decideTogether_retells {n : Simultaneous}
    (halike : ps.Alike R numPlayers ps' n.state state' t t') :
    Run.Retells R (decideTogether ps numPlayers t n)
      (decideTogether ps' numPlayers t' { n with state := state' }) := by
  unfold decideTogether
  refine .bind (.forM (fun seat => ?_) n.seats) fun _ => ?_
  · by_cases hempty : seat.moves.isEmpty
    · simp only [hempty, if_true]
      exact .throw (halike.retold rfl)
    · simp only [hempty]
      exact .refl halike.same _
  refine .bind (.mapM (fun seat => ?_) n.seats) fun moves => ?_
  · exact answer_retells halike seat.player (.tuple seat.moves)
  refine .bind (.forM (fun choice => ?_) (n.seats.zip moves)) fun _ => ?_
  · obtain ⟨seat, move⟩ := choice
    by_cases hlegal : move.isAmong seat.moves
    · simp only [hlegal, if_true]
      exact .refl halike.same _
    · simp only [hlegal]
      exact .throw (halike.retold rfl)
  exact .refl halike.same _

/-- Participants who answer alike decide alike, also when they are shown different states. -/
theorem decide_retells {n : Node ω} (hnode : n.goesOn = true)
    (halike : ps.Alike R numPlayers ps' n.state state' t t') :
    Run.Retells R (decide ps numPlayers t n) (decide ps' numPlayers t' (n.withState state')) := by
  cases n with
  | simultaneous n => exact .bind (decideTogether_retells halike) fun _ => .refl halike.same _
  | sequential player moves state => exact decideAlone_retells halike _ _
  | chance distribution state =>
      unfold decide
      rw [halike.uniform]
      exact .refl halike.same _
  | terminal e => cases hnode
  | stray v => cases hnode

end Walk

/-- Every player always answers the same, and nothing else happens. -/
def Participants.Constant {ω σ : Type} (ps : Participants ω σ) : Prop :=
  ∀ player ask, ps.ask player = some ask → ∃ result, ask = fun _ => Run.lift result

namespace Walk

variable {ω σ : Type} [Scale ω] {numPlayers : Int} {ps : Participants ω σ} {t : Transcript}
  {n : Node ω}

omit [Scale ω] in
theorem answer_steady (hconstant : ps.Constant) (c : Context) : (ps.answer c).Steady := by
  unfold Participants.answer
  refine .bind (.liftM _) fun player => ?_
  cases hask : ps.ask player with
  | none => exact .throw _
  | some ask =>
      obtain ⟨result, rfl⟩ := hconstant player ask hask
      exact ⟨result, rfl⟩

omit [Scale ω] in
theorem decideAlone_steady (hconstant : ps.Constant) (c : Context) :
    (decideAlone ps c).Steady := by
  unfold decideAlone
  refine .bind (.liftM _) fun player => ?_
  cases hask : ps.ask player with
  | none => exact .throw _
  | some ask =>
      obtain ⟨result, rfl⟩ := hconstant player ask hask
      simp only [Run.throw_bind]
      refine .ite (.throw _) (.bind ⟨result, rfl⟩ fun move => .bind (.liftM _) fun legal => ?_)
      exact .ite (.pure _) (.throw _)

omit [Scale ω] in
theorem decideTogether_steady (hconstant : ps.Constant) (n : Simultaneous) :
    (decideTogether ps numPlayers t n).Steady :=
  .bind (.liftM _) fun _ => .bind (.mapM (fun _ => answer_steady hconstant _) _) fun _ =>
    .bind (.liftM _) fun _ => .pure _

/-- Where chance does not move, players who always answer the same decide the same. -/
theorem decide_steady (hconstant : ps.Constant) (hchance : ∀ d s, n ≠ .chance d s) :
    (decide ps numPlayers t n).Steady := by
  cases n with
  | simultaneous n => exact .bind (decideTogether_steady hconstant n) fun _ => .pure _
  | sequential player moves state => exact decideAlone_steady hconstant _
  | chance distribution state => exact absurd rfl (hchance distribution state)
  | terminal e => exact .throw _
  | stray v => exact .throw _

/-- Once they have decided, they always decide so, whatever they are shown. -/
theorem decide_eq_pure (hconstant : ps.Constant) (hnode : n.goesOn = true)
    (hchance : ∀ d s, n ≠ .chance d s) {s s' : σ} {key : Value}
    (h : (decide ps numPlayers t n).start s = (.ok key, s')) (t' : Transcript) (state : Value) :
    decide ps numPlayers t' (n.withState state) = pure key := by
  have halike : ps.Alike (fun _ _ => True) numPlayers ps n.state state t t' := by
    refine ⟨fun player => ?_, rfl, fun _ => trivial, fun _ _ => trivial⟩
    cases hask : ps.ask player with
    | none => exact .none
    | some ask =>
        obtain ⟨result, rfl⟩ := hconstant player ask hask
        exact .some fun _ _ => .refl (fun _ => trivial) _
  have hchance' := Node.withState_ne_chance hchance state
  have hretold := decide_retells hnode halike s
  rw [h] at hretold
  rcases hdecide : (decide ps numPlayers t' (n.withState state)).start s with ⟨e | key', s''⟩ <;>
    rw [hdecide] at hretold <;> cases hretold
  exact (decide_steady hconstant hchance').eq_pure hdecide

end Walk

end ExtensiveForm
