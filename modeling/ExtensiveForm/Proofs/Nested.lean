import ExtensiveForm.Proofs.Decision
import ExtensiveForm.Proofs.Profile
import ExtensiveForm.Proofs.Rounds

/-!
# Repeating a repeated game

Where players always answer the same, chance does not move and the rules do nothing else, a game
takes one course: so many decisions, one after the other, to one end. `Course.repeated` says that
the repeated game takes the course of its rounds one after another.

A repeated game may be repeated, too. One round of the outer game is a whole play of the inner one,
and it counts all decisions and records all moves of that play. So the main result,
`repeated_twice`, asks for as many times the bound as the inner game has rounds, and its history
holds transcripts that are as many times as long as the transcript of the inner game by itself.
-/

namespace ExtensiveForm

namespace History

/-- The history of so many rounds that all came to the same. -/
def replicate (count : Nat) (o : Outcome) : History :=
  ⟨List.replicate count o⟩

@[simp] theorem length_replicate (count : Nat) (o : Outcome) :
    (replicate count o).length = count :=
  List.length_replicate

theorem sized_replicate {o : Outcome} {numPlayers : Int}
    (ho : (o.payoff.values.length : Int) = numPlayers) (count : Nat) :
    (replicate count o).Sized numPlayers := by
  intro o' ho'
  rw [List.eq_of_mem_replicate ho']
  exact ho

theorem summary_replicate (rounds : Nat) (o : Outcome) :
    (replicate (rounds + 1) o).summary = do
      return ⟨← (replicate (rounds + 1) o).score, o.profile, o.transcript,
        some (replicate (rounds + 1) o)⟩ :=
  summary_eq rfl

end History

namespace Game

variable {ω σ : Type} [Scale ω]

/-- Chance does not move in a game, and its rules always do the same and nothing else. -/
structure Steady (g : Game ω σ) : Prop where
  root : g.root.Steady
  next {p : g.tree.Position} (hp : g.Reached p) (key : Value) : (g.tree.next p key).Steady
  noChance {p : g.tree.Position} (hp : g.Reached p) (d : Distribution ω) (s : Value) :
    g.tree.node p ≠ .chance d s

/-- So many decisions lead from one position to another, whatever the players are shown, and these
plies are made on the way. -/
inductive Path (g : Game ω σ) (ps : Participants ω σ) :
    Nat → g.tree.Position → List Ply → g.tree.Position → Prop
  | refl (p : g.tree.Position) : Path g ps 0 p [] p
  | step {p q p' : g.tree.Position} {key : Value} {length : Nat} {plies : List Ply}
      (hnode : (g.tree.node p).goesOn = true)
      (hdecide : ∀ t state,
        Walk.decide ps g.numPlayers t ((g.tree.node p).withState state) = pure key)
      (hfollow : g.tree.follow p key = pure q) (hrest : Path g ps length q plies p') :
      Path g ps (length + 1) p ((g.tree.node p).plies key ++ plies) p'

/-- A game takes a course of so many decisions with these plies to this end. -/
def Course (g : Game ω σ) (ps : Participants ω σ) (length : Nat) (plies : List Ply) (e : Ending) :
    Prop :=
  ∃ root p, g.root = pure root ∧ g.Path ps length root plies p ∧ g.tree.node p = .terminal e

variable {g : Game ω σ} {ps : Participants ω σ} {maxDepth : Int} {h : History} {left length : Nat}
  {p q : g.tree.Position} {t : Transcript} {plies : List Ply} {e : Ending} {o : Outcome} {s s' : σ}

theorem Path.trans {length' : Nat} {plies' : List Ply} {p' : g.tree.Position}
    (hpath : g.Path ps length p plies q) (hpath' : g.Path ps length' q plies' p') :
    g.Path ps (length + length') p (plies ++ plies') p' := by
  induction hpath with
  | refl p =>
      rw [Nat.zero_add]
      exact hpath'
  | step hnode hdecide hfollow _ ih =>
      rw [Nat.succ_add, List.append_assoc]
      exact .step hnode hdecide hfollow (ih hpath')

/-- A round that comes to an end has taken a path to it. -/
theorem path_of_playRound (hsteady : g.Steady) (hconstant : ps.Constant) (hp : g.Reached p)
    (hround : (g.playRound ps maxDepth h left p t).start s = (.ok o, s')) :
    ∃ length plies q e, length ≤ left ∧ g.Path ps length p plies q ∧
      g.tree.node q = .terminal e ∧ e.outcome (t.addAll plies) g.numPlayers = .ok o := by
  induction left using Nat.strongRecOn generalizing p t s with
  | ind left ih =>
      rcases (g.tree.node p).goesOn_or with ⟨e, hnode⟩ | ⟨v, hnode⟩ | hnode
      · rw [playRound_terminal hnode] at hround
        exact ⟨0, [], p, e, Nat.zero_le left, .refl p, hnode, congrArg Prod.fst hround⟩
      · rw [playRound_stray hnode] at hround
        cases hround
      · cases left with
        | zero =>
            rw [playRound_zero hnode] at hround
            cases hround
        | succ left =>
            simp only [playRound_succ hnode, Run.start_bind_eq_ok] at hround
            obtain ⟨key, s₁, hkey, q, s₂, hq, hround⟩ := hround
            -- This was decided once, at a state of the round, and so it is decided at every state.
            have hdecide (t' state) : Walk.decide ps g.numPlayers t'
                ((g.tree.node p).withState state) = pure key := by
              have hchance := Node.withState_ne_chance (hsteady.noChance hp)
              rw [← Walk.decide_eq_pure hconstant ((Node.withState_goesOn _).trans hnode)
                (hchance _) hkey t' state, Node.withState_withState]
            have hlead : Walk.MayLead (σ := σ) g.numPlayers (g.tree.node p) key := by
              refine ⟨ps, t, s, s, ?_⟩
              rw [← Node.withState_self (g.tree.node p), hdecide]
              rfl
            obtain ⟨length, plies, p', e, hlength, hpath, hend, ho⟩ :=
              ih left (Nat.lt_succ_self left) (hp.follow hlead hq) hround
            have hfollow := (Tree.follow_steady (hsteady.next hp) key).eq_pure hq
            rw [← Transcript.addAll_append] at ho
            exact ⟨length + 1, _, p', e, Nat.succ_le_succ hlength,
              .step hnode hdecide hfollow hpath, hend, ho⟩

/-- A path to an end of the game is what a round with enough moves left comes to. -/
theorem Path.playRound_eq (hpath : g.Path ps length p plies q)
    (hend : g.tree.node q = .terminal e) (hlength : length ≤ left) (t : Transcript) :
    g.playRound ps maxDepth h left p t = liftM (e.outcome (t.addAll plies) g.numPlayers) := by
  induction hpath generalizing t left with
  | refl p => exact playRound_terminal hend
  | step hnode hdecide hfollow _ ih =>
      obtain ⟨left, rfl⟩ : ∃ k, left = k + 1 := ⟨left - 1, by omega⟩
      rw [playRound_succ hnode, hdecide, pure_bind, hfollow, pure_bind, Transcript.addAll_append]
      exact ih hend (Nat.le_of_succ_le_succ hlength) _

/-- With fewer moves left the round is cut off on the way. -/
theorem Path.playRound_cut_off (hpath : g.Path ps length p plies q) (hlength : left < length)
    (t : Transcript) :
    ∃ state, g.playRound ps maxDepth h left p t = throw (.nonterminating maxDepth state) := by
  induction hpath generalizing t left with
  | refl p => exact absurd hlength (Nat.not_lt_zero left)
  | step hnode hdecide hfollow _ ih =>
      cases left with
      | zero => exact ⟨_, playRound_zero hnode⟩
      | succ left =>
          rw [playRound_succ hnode, hdecide, pure_bind, hfollow, pure_bind]
          exact ih (Nat.lt_of_succ_lt_succ hlength) _

variable {r : Repetition σ} {count : Nat}

/-- A game that takes a course to this outcome comes to it in every round. -/
theorem Course.playRounds_eq (hcourse : g.Course ps length plies e)
    (ho : e.outcome (Transcript.empty.addAll plies) g.numPlayers = .ok o)
    (hrounds : r.rounds = some count) (hstop : r.stop = none)
    (hlength : length ≤ maxDepth.toNat) (rounds done : Nat) (hcount : done + rounds = count) :
    g.playRounds r ps maxDepth rounds (.replicate done o) = pure (.replicate count o) := by
  obtain ⟨root, p, hroot, hpath, hend⟩ := hcourse
  induction rounds generalizing done with
  | zero =>
      rw [← hcount]
      rfl
  | succ rounds ih =>
      rw [playRounds_succ_of_stop hrounds hstop (by rw [History.length_replicate, hcount]), hroot,
        pure_bind, hpath.playRound_eq hend hlength, ho, Run.liftM_ok, pure_bind]
      exact ih (done + 1) (by omega)

/-- The repeated game comes to as many copies of this outcome. -/
theorem Course.play_eq (hcourse : g.Course ps length plies e)
    (ho : e.outcome (Transcript.empty.addAll plies) g.numPlayers = .ok o)
    (hrounds : r.rounds = some count) (hstop : r.stop = none)
    (hcheck : ps.check g.numPlayers = .ok ()) (hdepth : 1 ≤ maxDepth)
    (hlength : length ≤ maxDepth.toNat) (name : String) {visits : Nat}
    (hvisits : count * maxDepth.toNat < visits) :
    (g.repeated r name).play ps maxDepth visits =
      do return some (← (History.replicate count o).summary) := by
  have hplays := hcourse.playRounds_eq ho hrounds hstop hlength count 0 (Nat.zero_add count)
  rw [play_repeated_eq hrounds hdepth hcheck name hvisits]
  refine (congrArg (· >>= _) hplays).trans ?_
  rw [pure_bind]

/-- With a lower bound, the repeated game is cut off in the first round. -/
theorem Course.play_cut_off (hcourse : g.Course ps length plies e)
    (hrounds : r.rounds = some count) (hcheck : ps.check g.numPlayers = .ok ())
    (hdepth : 1 ≤ maxDepth) (hlength : maxDepth.toNat < length) (name : String) {visits : Nat}
    (hvisits : count * maxDepth.toNat < visits) :
    ∃ state, (g.repeated r name).play ps maxDepth visits =
      throw (.nonterminating maxDepth state) := by
  obtain ⟨root, p, hroot, hpath, hend⟩ := hcourse
  obtain ⟨rounds, rfl⟩ := Nat.exists_eq_add_of_le' (r.bounded count hrounds).1
  obtain ⟨state, hround⟩ := hpath.playRound_cut_off (h := .empty) hlength .empty
  refine ⟨state, ?_⟩
  rw [play_repeated_eq hrounds hdepth hcheck name hvisits, playRounds_succ, hroot, pure_bind,
    hround]
  rfl

/-- A path through the stage game is a path through a round, between settled positions. -/
theorem Path.repeated (hpath : g.Path ps length p plies q) (name : String) (s : σ)
    {P : RoundPosition g.tree.Position}
    (hsettle : r.settle g (r.further h) q h (t.addAll plies) = pure P) :
    ∃ P₀, r.settle g (r.further h) p h t = pure P₀ ∧
      (g.repeated r name).Path ps length P₀ plies P := by
  induction hpath generalizing t with
  | refl p => exact ⟨P, hsettle, Path.refl (g := g.repeated r name) P⟩
  | @step p q p' key length plies hnode hdecide hfollow _ ih =>
      -- The rest of the path is settled first, since it says where this step leads.
      rw [Transcript.addAll_append] at hsettle
      obtain ⟨P₁, hsettle₁, hpath₁⟩ := ih hsettle
      have hdecided : (Walk.decide ps g.numPlayers t (g.tree.node p)).start s = (.ok key, s) := by
        rw [← Node.withState_self (g.tree.node p), hdecide]
        rfl
      have hlookup := Walk.lookupKey_of_decide hdecided
      have hfollow₁ : (g.repeatedTree r).follow (.within p h t) key = pure P₁ := by
        rw [← hsettle₁, follow_within hlookup, hfollow, pure_bind]
      have hdecide₁ (t' state) : Walk.decide ps g.numPlayers t'
          (((RoundPosition.within p h t).node g.tree).withState state) = pure key := by
        rw [RoundPosition.node, Node.withState_withState]
        exact hdecide t' state
      have hplies : ((RoundPosition.within p h t).node g.tree).plies key =
          (g.tree.node p).plies key := Node.withState_plies _ _
      refine ⟨_, Repetition.settle_goesOn hnode, ?_⟩
      rw [← hplies]
      exact Path.step (g := g.repeated r name) (p := RoundPosition.within p h t) (q := P₁)
        ((Node.withState_goesOn _).trans hnode) hdecide₁ hfollow₁ hpath₁

/-- At the end of a round that came to the same as all rounds before, the game is over or the next
round begins. -/
theorem settle_replicate {done : Nat} (hend : g.tree.node p = .terminal e)
    (ho : e.outcome t g.numPlayers = .ok o) (hrounds : r.rounds = some count)
    (hstop : r.stop = none) (hless : done < count) :
    r.settle g (r.further (.replicate done o)) p (.replicate done o) t =
      if done + 1 = count then do
        let score ← (History.replicate (done + 1) o).score
        return .over ⟨score, o.profile, some (.replicate (done + 1) o),
          .roundState ⟨.replicate (done + 1) o, e.state, t⟩⟩
      else (do
        r.settle g (r.further (.replicate (done + 1) o)) (← g.root) (.replicate (done + 1) o)
          .empty) := by
  have hlength := History.length_replicate done o
  rw [settle_outcome hend ho hrounds hstop (by rw [hlength]; exact hless), hlength]
  rfl

/-- The end of a repeated game of which all rounds came to this outcome, and the last one to an end
in this state. -/
def lastEnd (count : Nat) (o : Outcome) (total : Payoff) (state : Value) : Ending :=
  ⟨total, o.profile, some (.replicate count o),
    .roundState ⟨.replicate count o, state, o.transcript⟩⟩

/-- From the end of a round on, a path leads through the rounds that are left. -/
def HasRest (g : Game ω σ) (r : Repetition σ) (ps : Participants ω σ) (name : String)
    (length : Nat) (plies : List Ply) (last : Ending) (rounds : Nat)
    (x : Run σ (RoundPosition g.tree.Position)) : Prop :=
  ∃ P, x = pure P ∧ (g.repeated r name).Path ps (rounds * length) P
    (List.replicate rounds plies).flatten (.over last)

/-- The rounds that are left make up a path to the end of the repeated game. -/
theorem Course.hasRest {total : Payoff} (hcourse : g.Course ps length plies e)
    (ho : e.outcome (Transcript.empty.addAll plies) g.numPlayers = .ok o)
    (hrounds : r.rounds = some count) (hstop : r.stop = none)
    (hscore : (History.replicate count o).score = .ok total) (name : String) (s : σ)
    (rounds done : Nat) (hcount : done + (rounds + 1) = count) :
    g.HasRest r ps name length plies (lastEnd count o total e.state) (rounds + 1)
      (do r.settle g (r.further (.replicate done o)) (← g.root) (.replicate done o) .empty) := by
  obtain ⟨root, p, hroot, hpath, hend⟩ := hcourse
  obtain ⟨-, -, htranscript, -⟩ := Ending.outcome_eq_ok ho
  -- What is left after a round is left before it, with the round as one more.
  have hround (rounds done : Nat) (hrest : g.HasRest r ps name length plies
      (lastEnd count o total e.state) rounds
      (r.settle g (r.further (.replicate done o)) p (.replicate done o)
        (Transcript.empty.addAll plies))) :
      g.HasRest r ps name length plies (lastEnd count o total e.state) (rounds + 1)
        (do r.settle g (r.further (.replicate done o)) (← g.root) (.replicate done o) .empty) := by
    obtain ⟨P, hsettle, hrest⟩ := hrest
    obtain ⟨P₀, hsettle₀, hpath₀⟩ := hpath.repeated name s hsettle
    refine ⟨P₀, by rw [hroot, pure_bind, hsettle₀], ?_⟩
    rw [Nat.succ_mul, Nat.add_comm, List.replicate_succ, List.flatten_cons]
    exact hpath₀.trans hrest
  induction rounds generalizing done with
  | zero =>
      refine hround 0 done ⟨.over (lastEnd count o total e.state), ?_, ?_⟩
      · rw [settle_replicate hend ho hrounds hstop (by omega), if_pos hcount, hcount, hscore,
          ← htranscript]
        rfl
      · rw [Nat.zero_mul]
        exact Path.refl (g := g.repeated r name) _
  | succ rounds ih =>
      refine hround (rounds + 1) done ?_
      rw [settle_replicate hend ho hrounds hstop (by omega), if_neg (by omega)]
      exact ih (done + 1) (by omega)

/-- A repeated game takes the course of its rounds, one after another. -/
theorem Course.repeated {total : Payoff} (hcourse : g.Course ps length plies e)
    (ho : e.outcome (Transcript.empty.addAll plies) g.numPlayers = .ok o)
    (hrounds : r.rounds = some count) (hstop : r.stop = none)
    (hscore : (History.replicate count o).score = .ok total) (name : String) (s : σ) :
    (g.repeated r name).Course ps (count * length) (List.replicate count plies).flatten
      (lastEnd count o total e.state) := by
  obtain ⟨rounds, rfl⟩ := Nat.exists_eq_add_of_le' (r.bounded count hrounds).1
  obtain ⟨P, hroot, hpath⟩ :=
    hcourse.hasRest ho hrounds hstop hscore name s rounds 0 (Nat.zero_add _)
  exact ⟨P, _, hroot, hpath, rfl⟩

/-- What the end of the repeated game comes to in a round of another repeated game: the moves of all
its rounds are on record. -/
theorem outcome_lastEnd {total : Payoff} {numPlayers : Int} (state : Value)
    (ho : e.outcome (Transcript.empty.addAll plies) numPlayers = .ok o) (hcount : 1 ≤ count)
    (hscore : (History.replicate count o).score = .ok total) :
    (lastEnd count o total state).outcome
        (Transcript.empty.addAll (List.replicate count plies).flatten) numPlayers =
      .ok ⟨total, o.profile, o.transcript.copies count, some (.replicate count o)⟩ := by
  obtain ⟨hsize, hpayoff, htranscript, -, hprofile⟩ := Ending.outcome_eq_ok ho
  obtain ⟨rounds, rfl⟩ := Nat.exists_eq_add_of_le' hcount
  have hsized : ((History.replicate rounds o).add o).Sized numPlayers :=
    History.sized_replicate (by rw [hpayoff]; exact hsize) (rounds + 1)
  rw [Transcript.addAll_replicate, ← htranscript]
  refine Ending.outcome_of_profile (History.length_score hsized hscore) fun hnone => ?_
  refine Transcript.profile?_copies ?_ hcount
  rw [htranscript]
  exact Ending.profile?_of_profileAfter hprofile hnone

/-- A play that comes to an outcome has strategies for players of the game only, and a bound that
allows for a visit. -/
theorem check_of_play {visits : Nat}
    (hplay : (g.play ps maxDepth visits).start s = (.ok (some o), s')) :
    ps.check g.numPlayers = .ok () ∧ 1 ≤ maxDepth := by
  rw [play, Run.start_bind_eq_ok] at hplay
  obtain ⟨root, s₁, -, hplay⟩ := hplay
  cases hcheck : ps.check g.numPlayers with
  | error f =>
      rw [execute_eq_throw hcheck] at hplay
      cases hplay
  | ok =>
      refine ⟨rfl, ?_⟩
      rw [execute_eq hcheck] at hplay
      cases visits with
      | zero => cases hplay
      | succ visits =>
          refine Int.not_lt.1 fun hdepth => ?_
          rw [Walk.run_cut_off (by omega)] at hplay
          cases hplay

/-- A repeated game of players who always answer the same comes to an outcome only by a course of
its stage game, again and again. -/
theorem course_of_play (hsteady : g.Steady) (hconstant : ps.Constant)
    (hrounds : r.rounds = some count) (hstop : r.stop = none) {name : String} {visits : Nat}
    (hvisits : count * maxDepth.toNat < visits)
    (hplay : ((g.repeated r name).play ps maxDepth visits).start s = (.ok (some o), s')) :
    ∃ length plies e o₁ total, length ≤ maxDepth.toNat ∧ g.Course ps length plies e ∧
      e.outcome (Transcript.empty.addAll plies) g.numPlayers = .ok o₁ ∧
      (History.replicate count o₁).score = .ok total ∧
      o = ⟨total, o₁.profile, o₁.transcript, some (.replicate count o₁)⟩ := by
  obtain ⟨hcheck, hdepth⟩ := check_of_play hplay
  replace hcheck : ps.check g.numPlayers = .ok () := hcheck
  obtain ⟨rounds, hcount⟩ := Nat.exists_eq_add_of_le' (r.bounded count hrounds).1
  have hrounds₁ := hplay
  rw [play_repeated_eq hrounds hdepth hcheck name hvisits, Run.start_bind_eq_ok] at hrounds₁
  -- The first round shows the course. All that comes after it is known from the course alone.
  obtain ⟨h, s₁, hrounds₁, -⟩ := hrounds₁
  rw [hcount, playRounds_succ] at hrounds₁
  simp only [Run.start_bind_eq_ok] at hrounds₁
  obtain ⟨root, s₂, hroot, o₁, s₃, hround, -⟩ := hrounds₁
  obtain ⟨length, plies, q, e, hlength, hpath, hend, ho⟩ :=
    path_of_playRound hsteady hconstant (.root hroot) hround
  have hcourse : g.Course ps length plies e := ⟨root, q, hsteady.root.eq_pure hroot, hpath, hend⟩
  rw [hcourse.play_eq ho hrounds hstop hcheck hdepth hlength name hvisits] at hplay
  rw [hcount, History.summary_replicate, ← hcount] at hplay
  cases hscore : (History.replicate count o₁).score with
  | error f =>
      rw [hscore] at hplay
      cases hplay
  | ok total =>
      rw [hscore] at hplay
      cases hplay
      exact ⟨length, plies, e, o₁, total, hlength, hcourse, ho, hscore, rfl⟩

/-- With a bound of so many decisions or more, a play comes to this result. With a lower one it is
cut off, and with none at all it comes to no outcome. -/
def NeedsExactly (g : Game ω σ) (ps : Participants ω σ) (s : σ) (rounds length : Nat)
    (result : Except Fault Outcome) : Prop :=
  ∀ (bound : Int) (visits : Nat), rounds * bound.toNat < visits →
    (1 ≤ bound → length ≤ bound.toNat →
      (g.play ps bound visits).start s = (result.map some, s)) ∧
    (1 ≤ bound → bound.toNat < length →
      ∃ state, (g.play ps bound visits).start s = (.error (.nonterminating bound state), s)) ∧
    (bound < 1 → ∀ o s', (g.play ps bound visits).start s ≠ (.ok (some o), s'))

/-- A game that takes a course needs exactly its length, however often it is repeated. -/
theorem Course.needsExactly (hcourse : g.Course ps length plies e)
    (ho : e.outcome (Transcript.empty.addAll plies) g.numPlayers = .ok o)
    (hrounds : r.rounds = some count) (hstop : r.stop = none)
    (hcheck : ps.check g.numPlayers = .ok ()) (name : String) (s : σ) :
    (g.repeated r name).NeedsExactly ps s count length (History.replicate count o).summary := by
  refine fun bound visits hvisits => ⟨fun hdepth hlength => ?_, fun hdepth hlength => ?_, ?_⟩
  · rw [hcourse.play_eq ho hrounds hstop hcheck hdepth hlength name hvisits]
    cases (History.replicate count o).summary <;> rfl
  · obtain ⟨state, hplay⟩ := hcourse.play_cut_off hrounds hcheck hdepth hlength name hvisits
    exact ⟨state, by rw [hplay]; rfl⟩
  · intro hdepth o' s' hplay
    have := (check_of_play hplay).2
    omega

/-- Repeating a repeated game. If the inner game comes to an outcome, there is a number of decisions
that it needs in each round. The outer game needs as many times this number as the inner one has
rounds. All its entries are the outcome of the inner game, but for the transcript, which tells the
moves of a round as many times as there are inner rounds; and it fails only if the score of these
entries cannot be formed. -/
theorem repeated_twice (hsteady : g.Steady) (hconstant : ps.Constant)
    (hrounds : r.rounds = some count) (hstop : r.stop = none) {r' : Repetition σ} {count' : Nat}
    (hrounds' : r'.rounds = some count') (hstop' : r'.stop = none) (name name' : String)
    {visits : Nat} (hvisits : count * maxDepth.toNat < visits)
    (hplay : ((g.repeated r name).play ps maxDepth visits).start s = (.ok (some o), s')) :
    ∃ length, length ≤ maxDepth.toNat ∧
      (g.repeated r name).NeedsExactly ps s count length (.ok o) ∧
      ((g.repeated r name).repeated r' name').NeedsExactly ps s count' (count * length)
        (History.replicate count'
          { o with transcript := o.transcript.copies count }).summary := by
  obtain ⟨hcheck, -⟩ := check_of_play hplay
  obtain ⟨length, plies, e, o₁, total, hlength, hcourse, ho, hscore, rfl⟩ :=
    course_of_play hsteady hconstant hrounds hstop hvisits hplay
  have hlast := outcome_lastEnd e.state ho (r.bounded count hrounds).1 hscore
  have hinner := hcourse.needsExactly ho hrounds hstop hcheck name s
  have houter := (hcourse.repeated ho hrounds hstop hscore name s).needsExactly hlast hrounds'
    hstop' hcheck name' s
  refine ⟨length, hlength, ?_, houter⟩
  obtain ⟨rounds, rfl⟩ := Nat.exists_eq_add_of_le' (r.bounded count hrounds).1
  rw [History.summary_replicate, hscore] at hinner
  exact hinner

/-- One player makes one move, and that is all. -/
def solo : Game Rat Unit where
  kind := "TreeGame"
  name := "solo"
  numPlayers := 1
  tree :=
    { Position := Bool
      node
        | false => .sequential (.int 0) [.int 5] .null
        | true => .terminal ⟨⟨[.int 1]⟩, none, none, .null⟩
      next ended _ := return if ended then none else some true }
  root := return false
  legal _ _ := .ok [.int 5]

/-- The only player makes the only move. -/
def willing : Participants Rat Unit where
  players := [.int 0]
  ask player := if player = 0 then some fun _ => Run.lift (.ok (.int 5)) else none
  uniform := return 0

theorem solo_steady : solo.Steady where
  root := .pure _
  next _ _ := .pure _
  noChance {p} _ d s := by cases p <;> exact fun h => nomatch h

theorem willing_constant : willing.Constant := by
  intro player ask hask
  by_cases hplayer : player = 0
  · simp only [willing, if_pos hplayer, Option.some.injEq] at hask
    exact ⟨_, hask.symm⟩
  · simp [willing, if_neg hplayer] at hask

/-- What one move comes to. -/
def soloOutcome : Outcome :=
  ⟨⟨[.int 1]⟩, some ⟨[.int 5]⟩, ⟨[⟨.int 0, .int 5⟩]⟩, none⟩

/-- What two rounds of it come to. -/
def twoSolos : Outcome :=
  { soloOutcome with payoff := ⟨[.int 2]⟩, history := some (.replicate 2 soloOutcome) }

theorem solo_repeated_twice :
    ((solo.repeated (.times 2 (by decide)) "").play willing 1 3).start () =
        (.ok (some twoSolos), ()) ∧
      ∃ length, length ≤ 1 ∧
        (solo.repeated (.times 2 (by decide)) "").NeedsExactly willing () 2 length
          (.ok twoSolos) ∧
        ((solo.repeated (.times 2 (by decide)) "").repeated (.times 3 (by decide)) "").NeedsExactly
          willing () 3 (2 * length)
          (History.replicate 3
            { twoSolos with transcript := twoSolos.transcript.copies 2 }).summary := by
  have hvisits : 2 * (1 : Int).toNat < 3 := by decide
  have hplay : ((solo.repeated (.times 2 (by decide)) "").play willing 1 3).start () =
      (.ok (some twoSolos), ()) := rfl
  exact ⟨hplay, repeated_twice solo_steady willing_constant rfl rfl rfl rfl "" "" hvisits hplay⟩

/-- One visit in a round is enough for the inner game, but not for a single round of the outer
one. -/
theorem outer_round_needs_more :
    solo.Steady ∧ willing.Constant ∧
      (∃ o, ((solo.repeated (.times 2 (by decide)) "").play willing 1 3).start () =
        (.ok (some o), ())) ∧
      ∃ state, (((solo.repeated (.times 2 (by decide)) "").repeated (.times 1 (by decide)) "").play
        willing 1 2).start () = (.error (.nonterminating 1 state), ()) :=
  ⟨solo_steady, willing_constant, ⟨_, rfl⟩, ⟨_, rfl⟩⟩

end Game

end ExtensiveForm
