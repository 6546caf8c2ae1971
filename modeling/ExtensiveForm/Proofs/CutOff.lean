import ExtensiveForm.Proofs.Faults
import ExtensiveForm.Proofs.Rounds

/-!
# Computations that reach no bound

A play is cut off when the bound on the visited nodes is reached. `Run.CutOff` says that this
happens to a computation from a given state of the surroundings, and `Run.Quiet` that it never does.
What a visit does besides asking the players and the rules of the game has only plain faults, so it
is quiet, `Walk.decide_quiet`, and a bound is reached only where the walk looks for it. Beginning
further rounds is quiet as well when their number is given, `Repetition.settle_quiet`.
-/

namespace ExtensiveForm

/-! ### Results that are given -/

/-- The result is not that a bound was reached. -/
def Calm {α : Type} (x : Except Fault α) : Prop :=
  ∀ bound state, x ≠ .error (.nonterminating bound state)

theorem Calm.ok {α : Type} (a : α) : Calm (.ok a) :=
  nofun

/-- The fault is not that a bound was reached. -/
def Fault.KeepsBound (e : Fault) : Prop :=
  ∀ bound state, e ≠ .nonterminating bound state

theorem Fault.IsPlain.keepsBound {e : Fault} (h : e.IsPlain) : e.KeepsBound := by
  rintro bound state rfl
  exact h

theorem Fault.KeepsBound.told {e : Fault} (h : e.KeepsBound) : e.told.KeepsBound :=
  fun bound state => told_ne (h bound state) nofun

theorem Fault.KeepsBound.calm {α : Type} {e : Fault} (h : e.KeepsBound) :
    Calm (.error e : Except Fault α) := by
  intro bound state heq
  exact h bound state (Except.error.inj heq)

/-- What fails only with plain faults reaches no bound. -/
theorem FailsWith.calm {α : Type} {x : Except Fault α} (h : FailsWith Fault.IsPlain x) : Calm x :=
  fun _ _ heq => h _ heq

theorem History.summary_calm (h : History) : Calm h.summary := by
  unfold summary
  cases h.last? with
  | none => exact nofun
  | some o => exact (h.score_plain.bind fun _ => .ok _).calm

theorem Ending.outcome_calm (e : Ending) (t : Transcript) (numPlayers : Int) :
    Calm (e.outcome t numPlayers) := by
  by_cases hsize : (e.payoff.values.length : Int) = numPlayers
  · exact (outcome_plain hsize t).calm
  · rw [outcome_eq_error hsize]
    exact Fault.KeepsBound.calm (.told nofun)

/-! ### Computations over a shared state -/

namespace Run

variable {σ α β : Type} {x : Run σ α} {f : α → Run σ β} {s : σ}

/-- From this state of the surroundings the computation is cut off by a bound. -/
def CutOff (x : Run σ α) (s : σ) : Prop :=
  ∃ bound state, (x.start s).1 = .error (.nonterminating bound state)

/-- No bound ever cuts the computation off. -/
def Quiet (x : Run σ α) : Prop :=
  ∀ s, ¬ x.CutOff s

theorem cutOff_throw (bound : Int) (state : Value) :
    (throw (.nonterminating bound state) : Run σ α).CutOff s :=
  ⟨bound, state, rfl⟩

/-- Of two computations one after the other either the first one is cut off or the second one. -/
theorem cutOff_bind :
    (x >>= f).CutOff s ↔ x.CutOff s ∨ ∃ a s', x.start s = (.ok a, s') ∧ (f a).CutOff s' := by
  unfold CutOff
  rcases hx : x.start s with ⟨e | a, s'⟩
  · rw [start_bind_error hx]
    simp
  · rw [start_bind_ok hx]
    simp

namespace Quiet

theorem liftM {r : Except Fault α} (h : Calm r) : Quiet (MonadLiftT.monadLift r : Run σ α) := by
  rintro s ⟨bound, state, heq⟩
  exact h bound state heq

theorem pure (a : α) : Quiet (Pure.pure a : Run σ α) :=
  liftM (.ok a)

theorem bind (h : Quiet x) (hf : ∀ a, Gives x a → Quiet (f a)) : Quiet (x >>= f) := by
  intro s hcut
  rcases cutOff_bind.1 hcut with hcut | ⟨a, s', ha, hcut⟩
  · exact h s hcut
  · exact hf a ⟨s, s', ha⟩ s' hcut

end Quiet

theorem quiet_iff_confined : x.Quiet ↔ x.Confined (fun _ => True) Fault.KeepsBound := by
  constructor
  · intro h
    refine ⟨fun _ => trivial, fun {s s' e} heq bound state hbound => h s ⟨bound, state, ?_⟩⟩
    rw [heq, hbound]
  · rintro h s ⟨bound, state, heq⟩
    exact h.fault (Prod.ext heq rfl) bound state rfl

/-- Where the first computation is quiet, only the second one can be cut off. -/
theorem Quiet.cutOff_bind (h : Quiet x) :
    (x >>= f).CutOff s ↔ ∃ a s', x.start s = (.ok a, s') ∧ (f a).CutOff s' := by
  rw [Run.cutOff_bind, or_iff_right (h s)]

/-- Where the second computation is quiet, only the first one can be cut off. -/
theorem Quiet.bind_cutOff (hf : ∀ a, Quiet (f a)) : (x >>= f).CutOff s ↔ x.CutOff s := by
  rw [Run.cutOff_bind, or_iff_left]
  rintro ⟨a, s', -, hcut⟩
  exact hf a s' hcut

end Run

/-! ### Visits -/

variable {ω σ : Type} [Scale ω]

/-- No player who has a move to choose answers that a bound was reached. -/
def Participants.Quiet (ps : Participants ω σ) : Prop :=
  ∀ player ask c, ps.ask player = some ask → c.availableMoves ≠ [] → (ask c).Quiet

/-- The rules of a game never answer that a bound was reached when they are asked for a position. -/
structure Game.Quiet (g : Game ω σ) : Prop where
  root : g.root.Quiet
  next (p : g.tree.Position) (key : Value) : (g.tree.next p key).Quiet

/-- Nor does the end of a repetition. -/
def Repetition.Quiet (r : Repetition σ) : Prop :=
  ∀ stop h, r.stop = some stop → (stop h).Quiet

/-- Whatever stands at a node, the decision there reaches no bound. -/
theorem Walk.decide_quiet {ps : Participants ω σ} {numPlayers : Int}
    {transcript : Transcript} (hps : ps.Quiet) (n : Node ω) :
    (decide ps numPlayers transcript n).Quiet := by
  have hfaults : ps.FailWith Fault.KeepsBound := fun player ask c hask hmoves =>
    Run.quiet_iff_confined.1 (hps player ask c hask hmoves)
  have hconfined : (decide ps numPlayers transcript n).Confined n.Admits Fault.KeepsBound :=
    decide_confined (fun _ => Fault.IsPlain.keepsBound) hfaults n
  exact Run.quiet_iff_confined.2 (hconfined.mono (fun _ _ => trivial) fun _ => id)

theorem Tree.follow_quiet {t : Tree ω σ} {p : t.Position} (h : ∀ key, (t.next p key).Quiet)
    (key : Value) : (t.follow p key).Quiet := by
  refine .bind (.liftM ((t.node p).lookupKey_plain key).calm) fun found _ => ?_
  refine .bind (h found) fun next _ => ?_
  cases next with
  | none => exact .liftM (Fault.KeepsBound.calm (.told nofun))
  | some q => exact .pure q

/-! ### Rounds without a move -/

namespace Repetition

variable {r : Repetition σ} {g : Game ω σ} {count : Nat}

theorem isFinished_quiet (hr : r.Quiet) (h : History) : (r.isFinished h).Quiet := by
  unfold isFinished
  split
  · exact .pure true
  · cases hstop : r.stop with
    | none => exact .pure false
    | some stop => exact (hr stop h hstop).bind fun _ _ => .pure _

/-- With a number of rounds, settling a position never runs out of rounds to begin, however many of
them end without a move. -/
theorem settle_quiet (hg : g.Quiet) (hr : r.Quiet) (hrounds : r.rounds = some count) (further : Nat)
    (p : g.tree.Position) (h : History) (t : Transcript) (hfurther : count ≤ h.length + further) :
    (r.settle g further p h t).Quiet := by
  induction further using Nat.strongRecOn generalizing p h t with
  | ind further ih =>
      rcases (g.tree.node p).goesOn_or with ⟨e, hnode⟩ | ⟨v, hnode⟩ | hnode
      · rw [settle_end r g hnode]
        refine .bind (.liftM (e.outcome_calm _ _)) fun o _ => ?_
        refine .bind (isFinished_quiet hr _) fun finished hfinished => ?_
        cases finished with
        | true => exact .bind (.liftM (History.score_plain _).calm) fun _ _ => .pure _
        | false =>
            obtain ⟨s, s', hfinished⟩ := hfinished
            have hless := isFinished_eq_false hrounds hfinished
            rw [History.length_add] at hless
            cases further with
            | zero => omega
            | succ further =>
                refine hg.root.bind fun root _ => ?_
                exact ih further (Nat.lt_succ_self further) root (h.add o) .empty
                  (by rw [History.length_add]; omega)
      · rw [settle_stray hnode]
        exact .liftM nofun
      · rw [settle_goesOn hnode]
        exact .pure _

theorem count_le_further (hrounds : r.rounds = some count) (h : History) :
    count ≤ h.length + r.further h := by
  simp only [further, hrounds]
  omega

end Repetition

/-- So a game that is played a number of times is itself one whose rules never answer that a bound
was reached. -/
theorem Game.Quiet.repeated {g : Game ω σ} (hg : g.Quiet) {r : Repetition σ}
    (hr : r.Quiet) {count : Nat} (hrounds : r.rounds = some count) (name : String) :
    (g.repeated r name).Quiet where
  root := hg.root.bind fun root _ =>
    Repetition.settle_quiet hg hr hrounds _ root _ _ (Repetition.count_le_further hrounds _)
  next P key := by
    cases P with
    | within p h t =>
        refine .bind (Tree.follow_quiet (hg.next p) key) fun q _ => ?_
        refine .bind ?_ fun _ _ => .pure _
        exact Repetition.settle_quiet hg hr hrounds _ q h _ (Repetition.count_le_further hrounds h)
    | _ => exact .pure none

end ExtensiveForm
