import ExtensiveForm.Proofs.CutOff
import ExtensiveForm.Proofs.Nested

/-!
# What the bound of a repeated game bounds

The bound on the visited nodes holds for each round of a repeated game. `Game.Moves` tells the
decisions and moves of chance of a round with no bound on them, and `Game.RoundsLead` the rounds
that are completed one after another. The main result, `bound_holds_for_each_round`, says that with
a number of rounds a play always ends, and that it is cut off exactly when a round needs more
decisions and moves of chance than the bound allows. How many rounds there are makes no difference.

A play is nothing but its rounds, so it is enough to follow `playRound`, which counts the moves that
it may still make: `playRound_cutOff` and `playRound_eq_ok` say which of the moves without a bound
it makes.
-/

namespace ExtensiveForm.Game

variable {ω σ : Type} [Scale ω]

/-- Where a round has got to: the position in the stage game, the moves so far, and the state of the
surroundings. -/
structure Moment (g : Game ω σ) where
  position : g.tree.Position
  transcript : Transcript
  surroundings : σ

/-- In a round after these ones, so many decisions and moves of chance lead from the one moment to
the other one. -/
inductive Moves (g : Game ω σ) (ps : Participants ω σ) (h : History) :
    Nat → g.Moment → g.Moment → Prop
  | none (x : g.Moment) : Moves g ps h 0 x x
  | next {n : Nat} {p q : g.tree.Position} {t : Transcript} {s s₁ s₂ : σ} {key : Value}
      {x : g.Moment} (hnode : (g.tree.node p).goesOn = true)
      (hkey : (Walk.decide ps g.numPlayers t
        ((g.tree.node p).withState (.roundState ⟨h, (g.tree.node p).state, t⟩))).start s =
          (.ok key, s₁))
      (hfollow : (g.tree.follow p key).start s₁ = (.ok q, s₂))
      (hrest : Moves g ps h n ⟨q, t.addAll ((g.tree.node p).plies key), s₂⟩ x) :
      Moves g ps h (n + 1) ⟨p, t, s⟩ x

/-- The round after these ones comes to this moment with so many decisions and moves of chance. -/
def RoundComesTo (g : Game ω σ) (ps : Participants ω σ) (h : History) (s : σ) (n : Nat)
    (x : g.Moment) : Prop :=
  ∃ root s₁, g.root.start s = (.ok root, s₁) ∧ g.Moves ps h n ⟨root, .empty, s₁⟩ x

/-- After these rounds others are completed, each with an outcome that does not end the game. -/
inductive RoundsLead (g : Game ω σ) (r : Repetition σ) (ps : Participants ω σ) :
    History → σ → History → σ → Prop
  | none (h : History) (s : σ) : RoundsLead g r ps h s h s
  | next {h h' : History} {s s₁ s' : σ} {n : Nat} {x : g.Moment} {e : Ending} {o : Outcome}
      (hround : g.RoundComesTo ps h s n x) (hnode : g.tree.node x.position = .terminal e)
      (ho : e.outcome x.transcript g.numPlayers = .ok o)
      (hgoesOn : (r.isFinished (h.add o)).start x.surroundings = (.ok false, s₁))
      (hrest : RoundsLead g r ps (h.add o) s₁ h' s') : RoundsLead g r ps h s h' s'

/-- A round of the play would visit more decisions and moves of chance than that. -/
def HasLongRound (g : Game ω σ) (r : Repetition σ) (ps : Participants ω σ) (limit : Nat)
    (h : History) (s : σ) : Prop :=
  ∃ h' s' x, g.RoundsLead r ps h s h' s' ∧ g.RoundComesTo ps h' s' limit x ∧
    (g.tree.node x.position).goesOn = true

variable {g : Game ω σ} {r : Repetition σ} {ps : Participants ω σ} {maxDepth : Int} {h : History}
  {p : g.tree.Position} {t : Transcript} {s s' : σ} {left n : Nat} {x : g.Moment}

/-- Before so many decisions there were fewer of them, and the round went on from there. -/
theorem Moves.earlier {y : g.Moment} (hmoves : g.Moves ps h n y x) (hlt : left < n) :
    ∃ z, g.Moves ps h left y z ∧ (g.tree.node z.position).goesOn = true := by
  induction hmoves generalizing left with
  | none x => omega
  | next hnode hkey hfollow _ ih =>
      cases left with
      | zero => exact ⟨_, .none _, hnode⟩
      | succ left =>
          obtain ⟨z, hz, hgoesOn⟩ := ih (Nat.lt_of_succ_lt_succ hlt)
          exact ⟨z, .next hnode hkey hfollow hz, hgoesOn⟩

/-- Where the game does not go on, no move is made. -/
theorem Moves.at_end {y : g.Moment} (hmoves : g.Moves ps h n y x)
    (hnode : (g.tree.node y.position).goesOn = false) : n = 0 ∧ x = y := by
  cases hmoves with
  | none => exact ⟨rfl, rfl⟩
  | next hgoesOn =>
      rw [hgoesOn] at hnode
      cases hnode

theorem moves_succ : g.Moves ps h (n + 1) ⟨p, t, s⟩ x ↔
    (g.tree.node p).goesOn = true ∧ ∃ key s₁, (Walk.decide ps g.numPlayers t
      ((g.tree.node p).withState (.roundState ⟨h, (g.tree.node p).state, t⟩))).start s =
        (.ok key, s₁) ∧
      ∃ q s₂, (g.tree.follow p key).start s₁ = (.ok q, s₂) ∧
        g.Moves ps h n ⟨q, t.addAll ((g.tree.node p).plies key), s₂⟩ x := by
  constructor
  · intro hmoves
    cases hmoves with
    | next hnode hkey hfollow hrest => exact ⟨hnode, _, _, hkey, _, _, hfollow, hrest⟩
  · rintro ⟨hnode, key, s₁, hkey, q, s₂, hfollow, hrest⟩
    exact .next hnode hkey hfollow hrest

/-- Where the game does not go on, no bound is reached. -/
theorem playRound_quiet (hnode : ¬ (g.tree.node p).goesOn = true) :
    (g.playRound ps maxDepth h left p t).Quiet := by
  rcases (g.tree.node p).goesOn_or with ⟨e, hend⟩ | ⟨v, hstray⟩ | hgoesOn
  · rw [playRound_terminal hend]
    exact .liftM (e.outcome_calm t g.numPlayers)
  · rw [playRound_stray hstray]
    exact .liftM nofun
  · exact absurd hgoesOn hnode

/-- A round is cut off where it would go on after all the moves that it may make. -/
theorem playRound_cutOff (hg : g.Quiet) (hps : ps.Quiet) :
    (g.playRound ps maxDepth h left p t).CutOff s ↔
      ∃ x, g.Moves ps h left ⟨p, t, s⟩ x ∧ (g.tree.node x.position).goesOn = true := by
  induction left generalizing p t s with
  | zero =>
      constructor
      · intro hcut
        by_cases hnode : (g.tree.node p).goesOn = true
        · exact ⟨_, .none _, hnode⟩
        · exact absurd hcut (playRound_quiet hnode s)
      · rintro ⟨x, hmoves, hnode⟩
        cases hmoves with
        | none =>
            rw [playRound_zero hnode]
            exact Run.cutOff_throw _ _
  | succ left ih =>
      by_cases hnode : (g.tree.node p).goesOn = true
      · rw [playRound_succ hnode, (Walk.decide_quiet hps _).cutOff_bind]
        simp only [(Tree.follow_quiet (hg.next p) _).cutOff_bind, ih, moves_succ]
        constructor
        · rintro ⟨key, s₁, hkey, q, s₂, hfollow, x, hrest, hgoesOn⟩
          exact ⟨x, ⟨hnode, key, s₁, hkey, q, s₂, hfollow, hrest⟩, hgoesOn⟩
        · rintro ⟨x, ⟨-, key, s₁, hkey, q, s₂, hfollow, hrest⟩, hgoesOn⟩
          exact ⟨key, s₁, hkey, q, s₂, hfollow, x, hrest, hgoesOn⟩
      · refine ⟨fun hcut => absurd hcut (playRound_quiet hnode s), ?_⟩
        rintro ⟨x, hmoves, -⟩
        exact absurd (moves_succ.1 hmoves).1 hnode

/-- A round comes to an outcome at an end of the stage game, if it makes no more moves than it
may. -/
theorem playRound_eq_ok {o : Outcome} :
    (g.playRound ps maxDepth h left p t).start s = (.ok o, s') ↔
      ∃ n x e, n ≤ left ∧ g.Moves ps h n ⟨p, t, s⟩ x ∧ g.tree.node x.position = .terminal e ∧
        e.outcome x.transcript g.numPlayers = .ok o ∧ x.surroundings = s' := by
  constructor
  · intro hplay
    induction left using Nat.strongRecOn generalizing p t s with
    | ind left ih =>
        rcases (g.tree.node p).goesOn_or with ⟨e, hnode⟩ | ⟨v, hnode⟩ | hnode
        · rw [playRound_terminal hnode] at hplay
          obtain ⟨ho, rfl⟩ := Prod.mk.inj hplay
          exact ⟨0, _, e, Nat.zero_le left, .none _, hnode, ho, rfl⟩
        · rw [playRound_stray hnode] at hplay
          cases hplay
        · cases left with
          | zero =>
              rw [playRound_zero hnode] at hplay
              cases hplay
          | succ left =>
              rw [playRound_succ hnode] at hplay
              simp only [Run.start_bind_eq_ok] at hplay
              obtain ⟨key, s₁, hkey, q, s₂, hfollow, hplay⟩ := hplay
              obtain ⟨n, x, e, hle, hmoves, hend⟩ := ih left (Nat.lt_succ_self left) hplay
              exact ⟨n + 1, x, e, Nat.succ_le_succ hle, .next hnode hkey hfollow hmoves, hend⟩
  · rintro ⟨n, x, e, hle, hmoves, hnode, ho, rfl⟩
    induction n generalizing p t s left with
    | zero =>
        cases hmoves with
        | none =>
            rw [playRound_terminal hnode, ho]
            rfl
    | succ n ih =>
        obtain ⟨left, rfl⟩ := Nat.exists_eq_add_of_le' (Nat.le_trans (Nat.succ_pos n) hle)
        obtain ⟨hgoesOn, key, s₁, hkey, q, s₂, hfollow, hrest⟩ := moves_succ.1 hmoves
        rw [playRound_succ hgoesOn, Run.start_bind_ok hkey, Run.start_bind_ok hfollow]
        exact ih (Nat.le_of_succ_le_succ hle) hrest

/-- The first round is too long, or a later one is. -/
theorem hasLongRound_iff {limit : Nat} :
    g.HasLongRound r ps limit h s ↔
      (∃ x, g.RoundComesTo ps h s limit x ∧ (g.tree.node x.position).goesOn = true) ∨
        ∃ n x e o s₁, g.RoundComesTo ps h s n x ∧ g.tree.node x.position = .terminal e ∧
          e.outcome x.transcript g.numPlayers = .ok o ∧
          (r.isFinished (h.add o)).start x.surroundings = (.ok false, s₁) ∧
          g.HasLongRound r ps limit (h.add o) s₁ := by
  constructor
  · rintro ⟨h', s', y, hlead, hlong, hy⟩
    cases hlead with
    | none => exact .inl ⟨y, hlong, hy⟩
    | next hround hnode ho hgoesOn hrest =>
        exact .inr ⟨_, _, _, _, _, hround, hnode, ho, hgoesOn, h', s', y, hrest, hlong, hy⟩
  · rintro (⟨x, hlong, hx⟩ |
      ⟨n, x, e, o, s₁, hround, hnode, ho, hgoesOn, h', s', y, hrest, hlong, hy⟩)
    · exact ⟨h, s, x, .none h s, hlong, hx⟩
    · exact ⟨h', s', y, .next hround hnode ho hgoesOn hrest, hlong, hy⟩

/-- After a round, the play is cut off only if it goes on, and then in a later round. -/
theorem playOn_cutOff (hr : r.Quiet) (rounds : Nat) :
    (g.playOn r ps maxDepth rounds h).CutOff s ↔
      ∃ s₁, (r.isFinished h).start s = (.ok false, s₁) ∧
        (g.playRounds r ps maxDepth rounds h).CutOff s₁ := by
  rw [playOn, (Repetition.isFinished_quiet hr h).cutOff_bind]
  constructor
  · rintro ⟨finished, s₁, hfinished, hcut⟩
    cases finished with
    | true => exact absurd hcut (Run.Quiet.pure h s₁)
    | false => exact ⟨s₁, hfinished, hcut⟩
  · rintro ⟨s₁, hgoesOn, hcut⟩
    exact ⟨false, s₁, hgoesOn, hcut⟩

/-- Rounds played one after another are cut off in the first one that is too long. -/
theorem playRounds_cutOff (hg : g.Quiet) (hps : ps.Quiet) (hr : r.Quiet) {count rounds : Nat}
    (hrounds : r.rounds = some count) (hcount : h.length + rounds = count)
    (hless : h.length < count) :
    (g.playRounds r ps maxDepth rounds h).CutOff s ↔
      g.HasLongRound r ps maxDepth.toNat h s := by
  induction rounds generalizing h s with
  | zero => omega
  | succ rounds ih =>
      have hlater {o : Outcome} {s₁ s₂ : σ}
          (hgoesOn : (r.isFinished (h.add o)).start s₁ = (.ok false, s₂)) :
          (g.playRounds r ps maxDepth rounds (h.add o)).CutOff s₂ ↔
            g.HasLongRound r ps maxDepth.toNat (h.add o) s₂ := by
        have hlength := History.length_add (h := h) (o := o)
        exact ih (by omega) (Repetition.isFinished_eq_false hrounds hgoesOn)
      rw [playRounds_succ, hg.root.cutOff_bind, hasLongRound_iff]
      constructor
      · rintro ⟨root, s₁, hroot, hcut⟩
        rcases Run.cutOff_bind.1 hcut with hcut | ⟨o, s₂, hplay, hcut⟩
        · obtain ⟨x, hmoves, hx⟩ := (playRound_cutOff hg hps).1 hcut
          exact .inl ⟨x, ⟨root, s₁, hroot, hmoves⟩, hx⟩
        · obtain ⟨n, x, e, -, hmoves, hnode, ho, rfl⟩ := playRound_eq_ok.1 hplay
          obtain ⟨s₃, hgoesOn, hcut⟩ := (playOn_cutOff hr rounds).1 hcut
          exact .inr ⟨n, x, e, o, s₃, ⟨root, s₁, hroot, hmoves⟩, hnode, ho, hgoesOn,
            (hlater hgoesOn).1 hcut⟩
      · rintro (⟨x, ⟨root, s₁, hroot, hmoves⟩, hx⟩ |
          ⟨n, x, e, o, s₃, ⟨root, s₁, hroot, hmoves⟩, hnode, ho, hgoesOn, hlong⟩)
        · refine ⟨root, s₁, hroot, Run.cutOff_bind.2 (.inl ?_)⟩
          exact (playRound_cutOff hg hps).2 ⟨x, hmoves, hx⟩
        · refine ⟨root, s₁, hroot, Run.cutOff_bind.2 ?_⟩
          -- Either this round is short enough to come to its outcome, or it is too long itself.
          by_cases hle : n ≤ maxDepth.toNat
          · refine .inr ⟨o, x.surroundings, ?_, ?_⟩
            · exact playRound_eq_ok.2 ⟨n, x, e, hle, hmoves, hnode, ho, rfl⟩
            · exact (playOn_cutOff hr rounds).2 ⟨s₃, hgoesOn, (hlater hgoesOn).2 hlong⟩
          · exact .inl ((playRound_cutOff hg hps).2 (hmoves.earlier (Nat.lt_of_not_le hle)))

/-- With a strategy for someone else, a play comes to nothing after its root was found. -/
theorem play_eq_throw {f : Fault} (hcheck : ps.check g.numPlayers = .error f) (maxDepth : Int)
    (visits : Nat) :
    g.play ps maxDepth visits = (do
      let _ ← g.root
      throw f) :=
  bind_congr fun root => execute_eq_throw hcheck maxDepth visits root

/-- With enough visits allowed for the bound in every round, a play is cut off exactly when a round
is too long. -/
theorem play_repeated_cutOff (hg : g.Quiet) (hps : ps.Quiet) (hr : r.Quiet) {count : Nat}
    (hrounds : r.rounds = some count) (hdepth : 1 ≤ maxDepth) (name : String) {visits : Nat}
    (hvisits : count * maxDepth.toNat < visits) :
    ((g.repeated r name).play ps maxDepth visits).CutOff s ↔
      ps.check g.numPlayers = .ok () ∧ g.HasLongRound r ps maxDepth.toNat .empty s := by
  cases hcheck : ps.check g.numPlayers with
  | error f =>
      have hcalm := (ps.check_plain g.numPlayers).calm
      rw [hcheck] at hcalm
      have hquiet := (hg.repeated hr hrounds name).root.bind fun _ _ =>
        Run.Quiet.liftM (α := Option Outcome) (r := .error f) fun bound state heq =>
          hcalm bound state (congrArg _ (Except.error.inj heq))
      rw [play_eq_throw (g := g.repeated r name) hcheck]
      exact ⟨fun hcut => absurd hcut (hquiet s), fun h => nomatch h.1⟩
  | ok =>
      have hpositive : History.empty.length < count := (r.bounded count hrounds).1
      rw [play_repeated_eq hrounds hdepth hcheck name hvisits, Run.Quiet.bind_cutOff,
        playRounds_cutOff hg hps hr hrounds (Nat.zero_add count) hpositive]
      · exact ⟨fun h => ⟨rfl, h⟩, And.right⟩
      · exact fun h => .bind (.liftM h.summary_calm) fun _ _ => .pure _

/-- Rounds that end without a move are never too long. -/
theorem not_hasLongRound_of_moveless (hdepth : 1 ≤ maxDepth)
    (hmoveless : ∀ root, Run.Gives g.root root → (g.tree.node root).goesOn = false) :
    ¬ g.HasLongRound r ps maxDepth.toNat h s := by
  rintro ⟨h', s', x, -, ⟨root, s₁, hroot, hmoves⟩, -⟩
  obtain ⟨hzero, -⟩ := hmoves.at_end (hmoveless root ⟨s', s₁, hroot⟩)
  omega

/-- With a number of rounds, a play ends after so many visits for each round and one more, and more
of them do not change it. -/
theorem play_repeated_ends (ps : Participants ω σ) {count : Nat} (hrounds : r.rounds = some count)
    (hdepth : 1 ≤ maxDepth) (name : String) {visits : Nat}
    (hvisits : count * maxDepth.toNat < visits) (s : σ) :
    (g.repeated r name).play ps maxDepth visits =
        (g.repeated r name).play ps maxDepth (count * maxDepth.toNat + 1) ∧
      (((g.repeated r name).play ps maxDepth visits).start s).1 ≠ .ok none := by
  cases hcheck : ps.check g.numPlayers with
  | error f =>
      have hrefused := play_eq_throw (g := g.repeated r name) hcheck maxDepth
      rw [hrefused, hrefused]
      refine ⟨rfl, ?_⟩
      rw [Run.start_bind]
      split <;> exact nofun
  | ok =>
      rw [play_repeated_eq hrounds hdepth hcheck name hvisits,
        play_repeated_eq hrounds hdepth hcheck name (Nat.lt_succ_self _)]
      refine ⟨rfl, fun hnone => ?_⟩
      obtain ⟨h, s₁, -, hsummary⟩ := Run.start_bind_eq_ok.1 (Prod.ext hnone rfl)
      obtain ⟨o, s₂, -, hsome⟩ := Run.start_bind_eq_ok.1 hsummary
      cases hsome

/-- The bound on the visited nodes is one for each round. Playing a game a number of times always
ends, after at most as many visits as the bound allows in all the rounds and one more. If neither
the rules of the game nor the players nor the end of the repetition answer of themselves that a
bound was reached, the play is cut off exactly when a round would visit one more decision or move of
chance than the bound allows before it comes to its end, and never because of rounds without a
move. -/
theorem bound_holds_for_each_round (hg : g.Quiet) (hps : ps.Quiet) (hr : r.Quiet) {count : Nat}
    (hrounds : r.rounds = some count) (hdepth : 1 ≤ maxDepth) (name : String) {visits : Nat}
    (hvisits : count * maxDepth.toNat + 1 ≤ visits) (s : σ) :
    (g.repeated r name).play ps maxDepth visits =
        (g.repeated r name).play ps maxDepth (count * maxDepth.toNat + 1) ∧
      (((g.repeated r name).play ps maxDepth visits).start s).1 ≠ .ok none ∧
      (((g.repeated r name).play ps maxDepth visits).CutOff s ↔
        ps.check g.numPlayers = .ok () ∧ g.HasLongRound r ps maxDepth.toNat .empty s) ∧
      ((∀ root, Run.Gives g.root root → (g.tree.node root).goesOn = false) →
        ¬ ((g.repeated r name).play ps maxDepth visits).CutOff s) := by
  have hcutOff := play_repeated_cutOff (s := s) hg hps hr hrounds hdepth name hvisits
  obtain ⟨hsame, hends⟩ := play_repeated_ends (g := g) ps hrounds hdepth name hvisits s
  refine ⟨hsame, hends, hcutOff, fun hmoveless hcut => ?_⟩
  exact not_hasLongRound_of_moveless hdepth hmoveless (hcutOff.1 hcut).2

theorem solo_quiet : solo.Quiet where
  root := .pure _
  next _ _ := .pure _

theorem willing_quiet : willing.Quiet := by
  intro player ask c hask _
  by_cases hplayer : player = 0
  · simp only [willing, if_pos hplayer, Option.some.injEq] at hask
    rw [← hask]
    exact .liftM (.ok _)
  · simp [willing, if_neg hplayer] at hask

theorem times_quiet (count : Nat) (hcount : 1 ≤ count ∧ count ≤ maxRepetitions) :
    (Repetition.times (σ := σ) count hcount).Quiet :=
  fun _ _ hstop => nomatch hstop

/-- One visit is enough for each round of one move, but not for a round that consists of two of
them. -/
theorem two_solos_are_a_long_round :
    ¬ solo.HasLongRound (.times 2 (by decide)) willing 1 .empty () ∧
      (solo.repeated (.times 2 (by decide)) "").HasLongRound (.times 1 (by decide)) willing 1
        .empty () := by
  constructor
  · intro hlong
    obtain ⟨-, -, hcutOff, -⟩ := bound_holds_for_each_round solo_quiet willing_quiet
      (times_quiet 2 (by decide)) rfl (Int.le_refl 1) "" (Nat.le_refl 3) ()
    obtain ⟨bound, state, hplay⟩ := hcutOff.2 ⟨rfl, hlong⟩
    cases hplay
  · obtain ⟨-, -, hcutOff, -⟩ := bound_holds_for_each_round
      (solo_quiet.repeated (times_quiet 2 (by decide)) rfl "") willing_quiet
      (times_quiet 1 (by decide)) rfl (Int.le_refl 1) "" (Nat.le_refl 2) ()
    exact (hcutOff.1 ⟨1, _, rfl⟩).2

end ExtensiveForm.Game
