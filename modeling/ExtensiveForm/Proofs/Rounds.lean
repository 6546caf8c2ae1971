import ExtensiveForm.Game.Repeated
import ExtensiveForm.Proofs.Profile
import ExtensiveForm.Proofs.Score
import ExtensiveForm.Proofs.Walk

/-!
# Repeated games round by round

A repeated game is walked as one tree. `Game.playRound` is a single round told without that tree: a
loop over the positions of the stage game. `Game.playRounds` plays rounds one after another. The
main result, `play_repeated_eq`, says that playing a repeated game with a number of rounds is
nothing but playing its rounds.

The proof follows the walk from a position of the stage game on, `run_settle`. Settling a position
of the stage game either stops there or completes the round, and a new round starts the count of
visits anew, so that the walk and the loop reach the bound together.
-/

namespace ExtensiveForm

namespace Ending

variable {e : Ending} {t : Transcript} {numPlayers : Int}

/-- An end with the profile of an outcome comes to that profile again. -/
theorem outcome_of_profile (hsize : (e.payoff.values.length : Int) = numPlayers)
    (hprofile : e.profile = none → t.profile? numPlayers = .ok none) :
    e.outcome t numPlayers = .ok ⟨e.payoff, e.profile, t, e.history⟩ := by
  rw [outcome_eq hsize, profileAfter]
  cases h : e.profile with
  | some profile => rfl
  | none =>
      rw [hprofile h]
      rfl

/-- The profile that an end comes to with no profile of its own is that of the moves. -/
theorem profile?_of_profileAfter {profile : Option Profile}
    (h : e.profileAfter t numPlayers = .ok profile) (hnone : profile = none) :
    t.profile? numPlayers = .ok none := by
  subst hnone
  unfold profileAfter at h
  cases hprofile : e.profile with
  | some profile =>
      rw [hprofile] at h
      cases h
  | none =>
      rw [hprofile] at h
      exact h

end Ending

namespace History

/-- The outcome of a repeated play with this history: the score, and what the last round came
to. -/
def summary (h : History) : Except Fault Outcome :=
  match h.last? with
  | none => .error .missingPart
  | some o => do return ⟨← h.score, o.profile, o.transcript, some h⟩

theorem summary_eq {h : History} {o : Outcome} (hlast : h.last? = some o) :
    h.summary = do return ⟨← h.score, o.profile, o.transcript, some h⟩ := by
  rw [summary, hlast]

end History

namespace Game

variable {ω σ : Type} [Scale ω]

/-- The positions that plays of a game come to, whoever takes part in them. -/
inductive Reached (g : Game ω σ) : g.tree.Position → Prop
  | root {p : g.tree.Position} {s s' : σ} (h : g.root.start s = (.ok p, s')) : Reached g p
  | follow {p q : g.tree.Position} {key : Value} {s s' : σ} (hp : Reached g p)
      (hkey : Walk.MayLead (σ := σ) g.numPlayers (g.tree.node p) key)
      (h : (g.tree.follow p key).start s = (.ok q, s')) : Reached g q

/-- A round from a position of the stage game on, after these rounds and these moves: what the
players are shown tells of both. So many moves may still be made. -/
def playRound (g : Game ω σ) (ps : Participants ω σ) (maxDepth : Int) (h : History) :
    Nat → g.tree.Position → Transcript → Run σ Outcome
  | left, p, t =>
      match g.tree.node p with
      | .terminal e => liftM (e.outcome t g.numPlayers)
      | .stray _ => throw .missingPart
      | node =>
          let shown := node.withState (.roundState ⟨h, node.state, t⟩)
          match left with
          | 0 => throw (.nonterminating maxDepth shown.state)
          | left + 1 => do
              let key ← Walk.decide ps g.numPlayers t shown
              let q ← g.tree.follow p key
              playRound g ps maxDepth h left q (t.addAll (node.plies key))

/-- So many rounds after these, unless the game is over before. -/
def playRounds (g : Game ω σ) (r : Repetition σ) (ps : Participants ω σ) (maxDepth : Int) :
    Nat → History → Run σ History
  | 0, h => return h
  | rounds + 1, h => do
      let o ← g.playRound ps maxDepth h maxDepth.toNat (← g.root) .empty
      let h := h.add o
      if ← r.isFinished h then return h else playRounds g r ps maxDepth rounds h

/-- The rounds after these, so many at most, if the game is not over with these already. -/
def playOn (g : Game ω σ) (r : Repetition σ) (ps : Participants ω σ) (maxDepth : Int)
    (rounds : Nat) (h : History) : Run σ History := do
  if ← r.isFinished h then return h else g.playRounds r ps maxDepth rounds h

variable {g : Game ω σ} {ps : Participants ω σ} {maxDepth : Int} {h : History} {left : Nat}
  {p : g.tree.Position} {t : Transcript}

theorem playRounds_succ (r : Repetition σ) (rounds : Nat) :
    g.playRounds r ps maxDepth (rounds + 1) h = (do
      let o ← g.playRound ps maxDepth h maxDepth.toNat (← g.root) .empty
      g.playOn r ps maxDepth rounds (h.add o)) := rfl

theorem playRound_terminal {e : Ending} (hnode : g.tree.node p = .terminal e) :
    g.playRound ps maxDepth h left p t = liftM (e.outcome t g.numPlayers) := by
  unfold playRound
  rw [hnode]

theorem playRound_stray {v : Value} (hnode : g.tree.node p = .stray v) :
    g.playRound ps maxDepth h left p t = throw .missingPart := by
  unfold playRound
  rw [hnode]

/-- Without a move left, a round is cut off where the game would go on. -/
theorem playRound_zero (hnode : (g.tree.node p).goesOn = true) :
    g.playRound ps maxDepth h 0 p t =
      throw (.nonterminating maxDepth (.roundState ⟨h, (g.tree.node p).state, t⟩)) := by
  unfold playRound
  cases heq : g.tree.node p <;> rw [heq] at hnode <;> first | rfl | cases hnode

theorem playRound_succ (hnode : (g.tree.node p).goesOn = true) :
    g.playRound ps maxDepth h (left + 1) p t = (do
      let key ← Walk.decide ps g.numPlayers t
        ((g.tree.node p).withState (.roundState ⟨h, (g.tree.node p).state, t⟩))
      let q ← g.tree.follow p key
      g.playRound ps maxDepth h left q (t.addAll ((g.tree.node p).plies key))) := by
  rw [playRound]
  cases heq : g.tree.node p <;> rw [heq] at hnode <;> first | rfl | cases hnode

end Game

namespace Repetition

variable {ω σ : Type} [Scale ω] {r : Repetition σ} {stage : Game ω σ} {further : Nat}
  {p : stage.tree.Position} {h : History} {t : Transcript} {s s' : σ}

/-- So many rounds, and no other end. -/
def times (count : Nat) (h : 1 ≤ count ∧ count ≤ maxRepetitions) : Repetition σ where
  rounds := some count
  stop := none
  maxDepth := 0
  ends := .inl rfl
  bounded := by
    intro n hn
    cases hn
    exact h

theorem settle_goesOn (hnode : (stage.tree.node p).goesOn = true) :
    r.settle stage further p h t = pure (.within p h t) := by
  unfold settle
  cases heq : stage.tree.node p <;> rw [heq] at hnode <;> first | rfl | cases hnode

theorem settle_stray {v : Value} (hnode : stage.tree.node p = .stray v) :
    r.settle stage further p h t = throw .missingPart := by
  unfold settle
  rw [hnode]

/-- At the end of a round its outcome is put on record. If the game is not over then, another round
begins, unless too many of them have begun already. -/
theorem settle_end (r : Repetition σ) (stage : Game ω σ) {p : stage.tree.Position} {e : Ending}
    (hnode : stage.tree.node p = .terminal e) (further : Nat) (h : History) (t : Transcript) :
    r.settle stage further p h t = (do
      let o ← e.outcome t stage.numPlayers
      if ← r.isFinished (h.add o) then
        let score ← (h.add o).score
        return .over ⟨score, o.profile, some (h.add o), .roundState ⟨h.add o, e.state, t⟩⟩
      else
        match further with
        | 0 => throw (.nonterminating r.maxDepth e.state)
        | further + 1 => r.settle stage further (← stage.root) (h.add o) .empty) := by
  rewrite [settle, hnode]
  rfl

/-- While there are rounds left, the game is not finished. -/
theorem isFinished_eq_false {rounds : Nat} (hrounds : r.rounds = some rounds)
    (hrun : (r.isFinished h).start s = (.ok false, s')) : h.length < rounds := by
  refine Nat.lt_of_not_le fun hlast => ?_
  have hany : r.rounds.any (· ≤ h.length) = true := by
    rw [hrounds]
    simpa using hlast
  simp [isFinished, hany] at hrun

/-- What settling the end of a round comes to: the end of the game, or the beginning of the next
round. -/
theorem settle_terminal {e : Ending} {rounds : Nat} (hrounds : r.rounds = some rounds)
    (hfurther : h.length + further = rounds) (hnode : stage.tree.node p = .terminal e) :
    r.settle stage further p h t = (do
      let o ← e.outcome t stage.numPlayers
      if ← r.isFinished (h.add o) then
        let score ← (h.add o).score
        return .over ⟨score, o.profile, some (h.add o), .roundState ⟨h.add o, e.state, t⟩⟩
      else r.settle stage (further - 1) (← stage.root) (h.add o) .empty) := by
  rw [settle, hnode]
  dsimp only
  refine bind_congr fun o => Run.bind_congr_of fun finished s s' hfinished => ?_
  cases finished with
  | true => rfl
  | false =>
      have hless := isFinished_eq_false hrounds hfinished
      -- A game that is not finished has a round left, so settling does not run out of rounds.
      cases further with
      | zero =>
          rw [History.length_add] at hless
          omega
      | succ further => rfl

/-- A settled position belongs to the round in progress or to a later one. -/
theorem settle_state {P : RoundPosition stage.tree.Position}
    (hrun : (r.settle stage further p h t).start s = (.ok P, s')) :
    ∃ now : RoundState, h.length ≤ now.round ∧
      (P.node stage.tree).state = .roundState now := by
  -- By induction on the rounds that may follow: every round that is over already uses one up.
  induction further using Nat.strongRecOn generalizing p h t s with
  | ind further ih =>
      rcases (stage.tree.node p).goesOn_or with ⟨e, hnode⟩ | ⟨v, hnode⟩ | hnode
      · unfold settle at hrun
        simp only [hnode, Run.start_bind_eq_ok] at hrun
        obtain ⟨o, s₁, -, finished, s₂, -, hrun⟩ := hrun
        cases finished with
        | true =>
            simp only [if_true, Run.start_bind_eq_ok] at hrun
            obtain ⟨score, s₃, -, ⟨⟩⟩ := hrun
            exact ⟨_, Nat.le_succ _, rfl⟩
        | false =>
            cases further with
            | zero => cases hrun
            | succ further =>
                simp only [Bool.false_eq_true, if_false, Run.start_bind_eq_ok] at hrun
                obtain ⟨root, s₃, -, hrun⟩ := hrun
                obtain ⟨now, hnow, hstate⟩ := ih further (Nat.lt_succ_self further) hrun
                exact ⟨now, Nat.le_of_succ_le hnow, hstate⟩
      · rw [settle_stray hnode] at hrun
        cases hrun
      · rw [settle_goesOn hnode] at hrun
        cases hrun
        exact ⟨_, Nat.le_refl _, Node.withState_state hnode _⟩

end Repetition

namespace Game

variable {ω σ : Type} [Scale ω] {g : Game ω σ} {r : Repetition σ} {ps : Participants ω σ}
  {maxDepth : Int} {h : History} {p : g.tree.Position} {t : Transcript}

/-- The walk of a repeated game at a settled position, which was entered from a round with so many
visits. -/
def resume (g : Game ω σ) (r : Repetition σ) (round visited : Nat)
    (P : RoundPosition g.tree.Position) : Walk (g.repeatedTree r).Position :=
  ⟨P, (P.node g.tree).state.transcript?.getD .empty, .int round, visited⟩

/-- The visits of the round in progress count. -/
theorem enter_resume_same {k : Nat} {P : RoundPosition g.tree.Position}
    (hround : (P.node g.tree).state.round = .int k) (visited : Nat) :
    (g.resume r k visited P).enter = g.resume r k visited P := by
  refine Walk.enter_of_beq ?_
  show ((P.node g.tree).state.round == Value.int k) = true
  rw [hround, Value.int_beq]
  exact decide_eq_true rfl

/-- The visits of another round do not count. -/
theorem enter_resume_other {k round : Nat} {P : RoundPosition g.tree.Position}
    (hround : (P.node g.tree).state.round = .int k) (hne : k ≠ round) (visited : Nat) :
    (g.resume r round visited P).enter = g.resume r k 0 P := by
  rw [Walk.enter_of_not_beq]
  · show Walk.mk P _ (P.node g.tree).state.round 0 = _
    rw [hround]
    rfl
  · show ¬ ((P.node g.tree).state.round == Value.int round) = true
    rw [hround, Value.int_beq, decide_eq_true_eq]
    exact fun h => hne (Int.ofNat.inj h)

/-- When nothing was visited yet, it makes no difference which round the walk tells of. -/
theorem enter_resume_zero {k : Nat} {P : RoundPosition g.tree.Position}
    (hround : (P.node g.tree).state.round = .int k) (round : Nat) :
    (g.resume r round 0 P).enter = g.resume r k 0 P := by
  by_cases heq : k = round
  · subst heq
    exact enter_resume_same hround 0
  · exact enter_resume_other hround heq 0

/-- A key leads on as in the stage game, and the position that it leads to is settled. -/
theorem follow_within {key : Value}
    (hkey : (g.tree.node p).lookupKey key = .ok key) :
    (g.repeatedTree r).follow (.within p h t) key = (do
      let q ← g.tree.follow p key
      r.settle g (r.further h) q h (t.addAll ((g.tree.node p).plies key))) := by
  refine Tree.follow_eq (t := g.repeatedTree r) ((Node.withState_lookupKey _ _).trans hkey) ?_
  exact (bind_assoc (g.tree.follow p key) _ _).symm

/-- The end of a repeated game is visited in a round of its own, so no bound cuts it off. -/
theorem run_over {e : Ending} {now : RoundState} {round : Nat} (hstate : e.state = .roundState now)
    (hne : now.round ≠ round) (hdepth : 1 ≤ maxDepth) (visited visits : Nat) :
    Walk.run (g.repeatedTree r) ps g.numPlayers maxDepth (visits + 1)
        (g.resume r round visited (.over e)) =
      do return some (← e.outcome now.transcript g.numPlayers) := by
  have henter := enter_resume_other (g := g) (r := r) (P := .over e)
    (congrArg Value.round hstate) hne visited
  have htranscript : (g.resume r round visited (.over e)).transcript = now.transcript :=
    congrArg (fun state => (Value.transcript? state).getD .empty) hstate
  rw [Walk.run_terminal (e := e) _ rfl, htranscript]
  rw [henter]
  show ¬ maxDepth ≤ 0
  omega

/-- A visit in a round: the bound is checked, a key is chosen and followed, and the walk goes on
from the settled position. -/
theorem run_within (hnode : (g.tree.node p).goesOn = true) (visited visits : Nat) :
    Walk.run (g.repeatedTree r) ps g.numPlayers maxDepth (visits + 1)
        (g.resume r h.length visited (.within p h t)) =
      if maxDepth ≤ visited then
        throw (.nonterminating maxDepth (.roundState ⟨h, (g.tree.node p).state, t⟩))
      else (do
        let key ← Walk.decide ps g.numPlayers t
          ((g.tree.node p).withState (.roundState ⟨h, (g.tree.node p).state, t⟩))
        let q ← g.tree.follow p key
        let P ← r.settle g (r.further h) q h (t.addAll ((g.tree.node p).plies key))
        Walk.run (g.repeatedTree r) ps g.numPlayers maxDepth visits
          (g.resume r h.length (visited + 1) P)) := by
  have hstate : ((RoundPosition.within p h t).node g.tree).state =
      .roundState ⟨h, (g.tree.node p).state, t⟩ := Node.withState_state hnode _
  have henter : (g.resume r h.length visited (.within p h t)).enter =
      g.resume r h.length visited (.within p h t) :=
    enter_resume_same (congrArg Value.round hstate) visited
  have htranscript : (g.resume r h.length visited (.within p h t)).transcript = t :=
    congrArg (fun state => (Value.transcript? state).getD .empty) hstate
  by_cases hbound : maxDepth ≤ visited
  · rw [if_pos hbound, Walk.run_cut_off]
    · exact congrArg (fun state => throw (Fault.nonterminating maxDepth state)) hstate
    · rw [henter]
      exact hbound
  · have hgoesOn : ((g.repeatedTree r).node (.within p h t)).goesOn = true :=
      (Node.withState_goesOn _).trans hnode
    rw [if_neg hbound, Walk.run_goesOn _ hgoesOn, htranscript, henter]
    -- The key matters only where it was decided for, and there it is looked up as it is.
    · refine Run.bind_congr_of fun key s s' hkey => ?_
      have hlookup := Walk.lookupKey_of_decide hkey
      have hfollow := follow_within (r := r) (h := h) (t := t)
        ((Node.withState_lookupKey _ _).symm.trans hlookup)
      refine (congrArg (· >>= _) hfollow).trans ((bind_assoc (g.tree.follow p key) _ _).trans ?_)
      refine bind_congr fun q => Run.bind_congr_of fun P s s' hsettle => ?_
      obtain ⟨now, -, hnow⟩ := Repetition.settle_state hsettle
      -- A settled position has its transcript in its state, so the moves of the walk are not used.
      have hgetD (played : Transcript) : (P.node g.tree).state.transcript?.getD played =
          (P.node g.tree).state.transcript?.getD .empty := by
        rw [hnow]
        rfl
      exact congrArg (fun t => Walk.run (g.repeatedTree r) ps g.numPlayers maxDepth visits
        ⟨P, t, .int h.length, visited + 1⟩) (hgetD _)
    · rw [henter]
      exact hbound

/-- The end of the last round gives the outcome of the whole play. -/
theorem run_last {e : Ending} {o : Outcome} {total : Payoff}
    (ho : e.outcome t g.numPlayers = .ok o) (hscore : (h.add o).score = .ok total)
    (hsized : h.Sized g.numPlayers) (hdepth : 1 ≤ maxDepth) (visited visits : Nat) :
    Walk.run (g.repeatedTree r) ps g.numPlayers maxDepth (visits + 1)
        (g.resume r h.length visited
          (.over ⟨total, o.profile, some (h.add o), .roundState ⟨h.add o, e.state, t⟩⟩)) =
      pure (some ⟨total, o.profile, o.transcript, some (h.add o)⟩) := by
  obtain ⟨hsize, hpayoff, rfl, -, hprofile⟩ := Ending.outcome_eq_ok ho
  have hsized' : (h.add o).Sized g.numPlayers := hsized.add (by rw [hpayoff]; exact hsize)
  -- The round is on record already, so the end is visited in the round after it.
  have hne : (⟨h.add o, e.state, o.transcript⟩ : RoundState).round ≠ h.length :=
    Nat.succ_ne_self h.length
  rw [run_over rfl hne hdepth,
    Ending.outcome_of_profile (History.length_score hsized' hscore)
      (Ending.profile?_of_profileAfter hprofile)]
  rfl

/-- Where the next round begins, the walk still tells of an old one, which makes no difference once
it enters the node. -/
theorem run_next_round {further round : Nat} {P : RoundPosition g.tree.Position} {s s' : σ}
    (hsettle : (r.settle g further p h t).start s = (.ok P, s')) (hless : round < h.length)
    (visited visits : Nat) :
    Walk.run (g.repeatedTree r) ps g.numPlayers maxDepth visits (g.resume r round visited P) =
      Walk.run (g.repeatedTree r) ps g.numPlayers maxDepth visits (g.resume r h.length 0 P) := by
  obtain ⟨now, hnow, hstate⟩ := Repetition.settle_state hsettle
  have hround := congrArg Value.round hstate
  have hne : now.round ≠ round := Nat.ne_of_gt (Nat.lt_of_lt_of_le hless hnow)
  exact Walk.run_congr
    ((enter_resume_other hround hne visited).trans (enter_resume_zero hround _).symm) visits

/-- The play of a repeated game is the walk from the beginning of its first round on. -/
theorem play_repeated_start (hcheck : ps.check g.numPlayers = .ok ()) (name : String)
    (visits : Nat) :
    (g.repeated r name).play ps maxDepth visits = (do
      let P ← r.settle g (r.further .empty) (← g.root) .empty .empty
      Walk.run (g.repeatedTree r) ps g.numPlayers maxDepth visits (g.resume r 0 0 P)) := by
  refine (bind_assoc g.root _ _).trans (bind_congr fun root => ?_)
  -- If rounds end without a move, the first node may belong to a later round than the first one.
  refine Run.bind_congr_of fun P s s' hsettle => ?_
  obtain ⟨now, -, hstate⟩ := Repetition.settle_state hsettle
  have hround := congrArg Value.round hstate
  have hstart : Walk.start (g.repeatedTree r) P = g.resume r now.round 0 P :=
    congrArg (fun round => Walk.mk P _ round 0) hround
  refine (execute_eq (t := g.repeatedTree r) hcheck maxDepth visits P).trans ?_
  refine Walk.run_congr ?_ visits
  rw [hstart, enter_resume_same hround, enter_resume_zero hround]

/-- The play from the beginning of a round on is nothing but its rounds, so many at most. -/
def GoesByRounds (g : Game ω σ) (r : Repetition σ) (ps : Participants ω σ) (maxDepth : Int)
    (rounds : Nat) (h : History) : Prop :=
  ∀ visits, rounds * maxDepth.toNat < visits →
    (do
      let P ← r.settle g (r.further h) (← g.root) h .empty
      Walk.run (g.repeatedTree r) ps g.numPlayers maxDepth visits (g.resume r h.length 0 P)) = (do
      let h ← g.playRounds r ps maxDepth rounds h
      return some (← h.summary))

/-- From the end of a round on, the game is over or the next round begins. -/
theorem run_end_of_round {count rounds visited visits : Nat} {e : Ending}
    (hrounds : r.rounds = some count) (hdepth : 1 ≤ maxDepth) (hsized : h.Sized g.numPlayers)
    (hcount : h.length + (rounds + 1) = count)
    (hnext : ∀ h' : History, h'.Sized g.numPlayers → h'.length = h.length + 1 →
      h'.length < count → g.GoesByRounds r ps maxDepth rounds h')
    (hnode : g.tree.node p = .terminal e) (hvisits : rounds * maxDepth.toNat < visits) :
    (do
      let P ← r.settle g (r.further h) p h t
      Walk.run (g.repeatedTree r) ps g.numPlayers maxDepth visits
        (g.resume r h.length visited P)) = (do
      let h ← g.playOn r ps maxDepth rounds (h.add (← e.outcome t g.numPlayers))
      return some (← h.summary)) := by
  obtain ⟨visits, rfl⟩ : ∃ k, visits = k + 1 := ⟨visits - 1, by omega⟩
  have hfurther : h.length + r.further h = count := by
    simp only [Repetition.further, hrounds]
    omega
  rw [Repetition.settle_terminal hrounds hfurther hnode, bind_assoc]
  refine Run.bind_congr_of fun o s s' ho => ?_
  replace ho : e.outcome t g.numPlayers = .ok o := congrArg Prod.fst ho
  rw [playOn, bind_assoc, bind_assoc]
  refine Run.bind_congr_of fun finished s s' hfinished => ?_
  cases finished with
  | true =>
      have hsummary := History.summary_eq (h := h.add o) (o := o) rfl
      simp only [if_true, pure_bind, bind_assoc, hsummary]
      cases hscore : (h.add o).score with
      | error f => rfl
      | ok total => exact run_last ho hscore hsized hdepth visited visits
  | false =>
      have hless := Repetition.isFinished_eq_false hrounds hfinished
      obtain ⟨hsize, hpayoff, -⟩ := Ending.outcome_eq_ok ho
      have hplay := hnext (h.add o) (hsized.add (by rw [hpayoff]; exact hsize)) rfl hless
        (visits + 1) hvisits
      have hfurther' : r.further h - 1 = r.further (h.add o) := by
        simp only [Repetition.further, hrounds, History.length_add]
        omega
      simp only [Bool.false_eq_true, if_false, bind_assoc, hfurther'] at hplay ⊢
      rw [← hplay]
      refine bind_congr fun q => Run.bind_congr_of fun P s s' hsettle => ?_
      exact run_next_round hsettle (Nat.lt_succ_self _) visited _

/-- The play from a position in a round on: the round is completed, and the rounds after it
follow. -/
theorem run_settle {count rounds : Nat} (hrounds : r.rounds = some count) (hdepth : 1 ≤ maxDepth)
    (hsized : h.Sized g.numPlayers) (hcount : h.length + (rounds + 1) = count)
    (hnext : ∀ h' : History, h'.Sized g.numPlayers → h'.length = h.length + 1 →
      h'.length < count → g.GoesByRounds r ps maxDepth rounds h')
    (left visited visits : Nat) (hleft : visited + left = maxDepth.toNat)
    (hvisits : rounds * maxDepth.toNat + left < visits) :
    (do
      let P ← r.settle g (r.further h) p h t
      Walk.run (g.repeatedTree r) ps g.numPlayers maxDepth visits
        (g.resume r h.length visited P)) = (do
      let o ← g.playRound ps maxDepth h left p t
      let h ← g.playOn r ps maxDepth rounds (h.add o)
      return some (← h.summary)) := by
  -- By induction on the moves that may still be made in this round. The invariant is `hleft`: with
  -- the visits of this round they add up to the bound, so walk and loop are cut off together.
  induction left using Nat.strongRecOn generalizing p t visited visits with
  | ind left ih =>
      rcases (g.tree.node p).goesOn_or with ⟨e, hnode⟩ | ⟨v, hnode⟩ | hnode
      · rw [playRound_terminal hnode]
        exact run_end_of_round hrounds hdepth hsized hcount hnext hnode (by omega)
      · rw [Repetition.settle_stray hnode, playRound_stray hnode]
        rfl
      · obtain ⟨visits, rfl⟩ : ∃ k, visits = k + 1 := ⟨visits - 1, by omega⟩
        rw [Repetition.settle_goesOn hnode, pure_bind, run_within hnode]
        cases left with
        | zero =>
            rw [if_pos (by omega), playRound_zero hnode]
            rfl
        | succ left =>
            rw [if_neg (by omega), playRound_succ hnode]
            simp only [bind_assoc]
            refine bind_congr fun key => bind_congr fun q => ?_
            exact ih left (Nat.lt_succ_self left) (visited + 1) visits (by omega) (by omega)

/-- Every play from the beginning of a round on goes by rounds. -/
theorem goes_by_rounds {count : Nat} (hrounds : r.rounds = some count) (hdepth : 1 ≤ maxDepth)
    (rounds : Nat) (hsized : h.Sized g.numPlayers) (hcount : h.length + rounds = count)
    (hless : h.length < count) : g.GoesByRounds r ps maxDepth rounds h := by
  induction rounds generalizing h with
  | zero => omega
  | succ rounds ih =>
      intro visits hvisits
      rw [Nat.succ_mul] at hvisits
      rw [playRounds_succ, bind_assoc]
      refine bind_congr fun root => ?_
      rw [run_settle hrounds hdepth hsized hcount _ maxDepth.toNat 0 visits (Nat.zero_add _)
        hvisits, bind_assoc]
      intro h' hsized' hlength hless'
      exact ih hsized' (by omega) hless'

/-- A repeated game with a number of rounds is played round by round. -/
theorem play_repeated_eq {count : Nat} (hrounds : r.rounds = some count) (hdepth : 1 ≤ maxDepth)
    (hcheck : ps.check g.numPlayers = .ok ()) (name : String) {visits : Nat}
    (hvisits : count * maxDepth.toNat < visits) :
    (g.repeated r name).play ps maxDepth visits = (do
      let h ← g.playRounds r ps maxDepth count .empty
      return some (← h.summary)) := by
  have hpositive : 0 < count := (r.bounded count hrounds).1
  rw [play_repeated_start hcheck]
  exact goes_by_rounds hrounds hdepth count History.sized_empty (Nat.zero_add _) hpositive visits
    hvisits

variable {count : Nat}

omit [Scale ω] in
/-- Without any other end, the number of rounds decides. -/
theorem isFinished_eq (hrounds : r.rounds = some count) (hstop : r.stop = none) :
    r.isFinished h = pure (decide (count ≤ h.length)) := by
  unfold Repetition.isFinished
  by_cases hlast : count ≤ h.length <;> simp [hrounds, hstop, hlast]

/-- Without any other end, the end of a round with this outcome is the end of the game after the
last round, and the beginning of the next round before. -/
theorem settle_outcome {e : Ending} {o : Outcome} (hnode : g.tree.node p = .terminal e)
    (ho : e.outcome t g.numPlayers = .ok o) (hrounds : r.rounds = some count)
    (hstop : r.stop = none) (hless : h.length < count) :
    r.settle g (r.further h) p h t =
      if h.length + 1 = count then do
        let score ← (h.add o).score
        return .over ⟨score, o.profile, some (h.add o), .roundState ⟨h.add o, e.state, t⟩⟩
      else (do r.settle g (r.further (h.add o)) (← g.root) (h.add o) .empty) := by
  have hfurther : h.length + r.further h = count := by
    simp only [Repetition.further, hrounds]
    omega
  have hfurther' : r.further h - 1 = r.further (h.add o) := by
    simp only [Repetition.further, hrounds, History.length_add]
    omega
  rw [Repetition.settle_terminal hrounds hfurther hnode, ho, Run.liftM_ok, pure_bind,
    isFinished_eq hrounds hstop, pure_bind, hfurther', History.length_add]
  by_cases hlast : h.length + 1 = count
  · rw [if_pos (decide_eq_true (by omega)), if_pos hlast]
  · rw [if_neg (by rw [decide_eq_true_eq]; omega), if_neg hlast]

/-- Without any other end, each round is followed by the next one. -/
theorem playRounds_succ_of_stop (hrounds : r.rounds = some count) (hstop : r.stop = none)
    {rounds : Nat} (hcount : h.length + (rounds + 1) = count) :
    g.playRounds r ps maxDepth (rounds + 1) h = (do
      let o ← (do g.playRound ps maxDepth h maxDepth.toNat (← g.root) .empty)
      g.playRounds r ps maxDepth rounds (h.add o)) := by
  rw [playRounds_succ, bind_assoc]
  refine bind_congr fun root => bind_congr fun o => ?_
  rw [playOn, isFinished_eq hrounds hstop, pure_bind]
  cases rounds with
  | zero =>
      rw [if_pos]
      · rfl
      · exact decide_eq_true (Nat.le_of_eq hcount.symm)
  | succ rounds =>
      rw [if_neg]
      rw [decide_eq_true_eq, History.length_add]
      omega

end Game

end ExtensiveForm
