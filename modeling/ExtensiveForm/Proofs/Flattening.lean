import ExtensiveForm.Proofs.Bound
import ExtensiveForm.Proofs.Draws
import ExtensiveForm.Proofs.Independent
import ExtensiveForm.Proofs.Isolation

/-!
# Nested repetition flattens

A game may be repeated and the repeated game repeated again, or it may be repeated as many times at
once. The same rounds are played in both cases, but the players are shown different states. Players
who pay no attention to what they are shown, `Participants.Blind`, answer the same.

`Game.Rounds` tells rounds of a game one after another without the walk through the repeated game.
`Moves.within` follows one round of the stage game through the repeated game, `Rounds.within` all
rounds of one play of the repeated game, and `Rounds.nested` takes these plays for the rounds of the
outer game. The main result is `repeated_flattens`.
-/

namespace ExtensiveForm

/-- From related states players answer the same whenever they are offered the same moves, and chance
draws the same numbers. -/
structure Participants.Blind {ω σ : Type} (ps : Participants ω σ) (R : σ → σ → Prop) : Prop where
  ask {player : Nat} {ask : Context → Run σ Value} (h : ps.ask player = some ask) {c c' : Context}
    (hplayer : c.player = c'.player) (hoffered : c.offered = c'.offered)
    (hnumber : c.numPlayers = c'.numPlayers) : Run.Carries R Eq (ask c) (ask c')
  uniform {s s' : σ} (hs : R s s') :
    (ps.uniform s).1 = (ps.uniform s').1 ∧ R (ps.uniform s).2 (ps.uniform s').2

/-- The history with more rounds, played in this order. -/
def History.addAll (h : History) (outcomes : List Outcome) : History :=
  outcomes.foldl add h

/-- Every round of a history was itself a repeated play of so many rounds, and taken together these
rounds are those of another history. -/
def History.Nests (outer : History) (size : Nat) (h : History) : Prop :=
  ∃ inner : List History, outer.outcomes.map (·.history) = inner.map some ∧
    (∀ h ∈ inner, h.length = size) ∧ (inner.map History.outcomes).flatten = h.outcomes

namespace History

theorem addAll_eq (h : History) (os : List Outcome) :
    h.addAll os = ⟨os.reverse ++ h.latestFirst⟩ := by
  induction os generalizing h with
  | nil =>
      obtain ⟨latestFirst⟩ := h
      rfl
  | cons o os ih =>
      show (h.add o).addAll os = _
      rw [ih, List.reverse_cons, List.append_assoc]
      rfl

theorem outcomes_addAll (h : History) (os : List Outcome) :
    (h.addAll os).outcomes = h.outcomes ++ os := by
  rw [addAll_eq, outcomes, outcomes, List.reverse_append, List.reverse_reverse]

theorem length_addAll (h : History) (os : List Outcome) :
    (h.addAll os).length = h.length + os.length := by
  rw [addAll_eq, length, length, List.length_append, List.length_reverse, Nat.add_comm]

/-- The first rounds of a history are told by their outcomes. -/
theorem outcomes_empty_addAll (os : List Outcome) : (empty.addAll os).outcomes = os :=
  outcomes_addAll empty os

/-- What they pay is added up. -/
theorem score_empty_addAll {os : List Outcome} {numPlayers : Int}
    (h : ∀ o ∈ os, o.payoff.PaysWhole numPlayers) :
    (empty.addAll os).score = .ok (Payoff.total (os.map (·.payoff))) := by
  have houtcomes := outcomes_empty_addAll os
  rw [← houtcomes] at h
  rw [score_whole _ h, houtcomes]

/-- Rounds that have other rounds on record nest all of these. -/
theorem nests_addAll {os : List Outcome} {parts : List (List Outcome)} {size : Nat}
    (hhistories : os.map (·.history) = parts.map (fun part => some (empty.addAll part)))
    (hparts : ∀ part ∈ parts, part.length = size) :
    (empty.addAll os).Nests size (empty.addAll parts.flatten) := by
  refine ⟨parts.map empty.addAll, ?_, ?_, ?_⟩
  · rw [outcomes_empty_addAll, hhistories, List.map_map]
    rfl
  · intro h hh
    obtain ⟨part, hpart, rfl⟩ := List.mem_map.1 hh
    rw [length_addAll, hparts part hpart]
    exact Nat.zero_add size
  · rw [outcomes_empty_addAll, List.map_map]
    refine congrArg List.flatten ((List.map_congr_left fun part _ => ?_).trans (List.map_id parts))
    exact outcomes_empty_addAll part

end History

/-! ### Blind players -/

namespace Walk

variable {ω σ : Type} [Scale ω] {ps : Participants ω σ} {R : σ → σ → Prop} {numPlayers : Int}
  {t t' : Transcript} {n : Node ω} {key : Value} {s s' : σ}

omit [Scale ω] in
theorem answer_blind (hps : ps.Blind R) {c c' : Context} (hplayer : c.player = c'.player)
    (hoffered : c.offered = c'.offered) (hnumber : c.numPlayers = c'.numPlayers) :
    Run.Carries R Eq (ps.answer c) (ps.answer c') := by
  unfold Participants.answer
  rw [hplayer, hnumber]
  refine .bind (Q := Eq) (.liftM fun player h => ⟨player, h, rfl⟩) ?_
  rintro player _ rfl
  cases hask : ps.ask player with
  | none => exact .throw _ _
  | some ask => exact hps.ask hask hplayer hoffered hnumber

/-- At a node blind players decide the same, whatever its state and whatever was played before. -/
theorem decide_blind (hps : ps.Blind R) (t t' : Transcript) (n : Node ω) (state state' : Value) :
    Run.Carries R Eq (decide ps numPlayers t (n.withState state))
      (decide ps numPlayers t' (n.withState state')) := by
  cases n with
  | simultaneous n =>
      intro s s' key s₁ hs hkey
      obtain ⟨moves, s₂, hmoves, heq⟩ := Run.start_bind_eq_ok.1 hkey
      cases heq
      obtain ⟨hoffered, hanswers, hlegal⟩ := Node.decideTogether_eq_ok_iff.1 hmoves
      have halike : List.Forall₂ (fun c c' : Context => c.player = c'.player ∧
          c.offered = c'.offered ∧ c.numPlayers = c'.numPlayers)
          (n.seats.map (Simultaneous.context { n with state := state } numPlayers t))
          (n.seats.map (Simultaneous.context { n with state := state' } numPlayers t')) := by
        rw [List.forall₂_map_left_iff, List.forall₂_map_right_iff, List.forall₂_same]
        exact fun seat _ => ⟨rfl, rfl, rfl⟩
      obtain ⟨moves', s₁', hanswers', hmoves', hs'⟩ := Run.Carries.mapM halike
        (fun c c' h => answer_blind hps h.1 h.2.1 h.2.2) s s' moves s₁ hs hanswers
      rw [List.forall₂_eq_eq_eq] at hmoves'
      subst hmoves'
      have hdecided := Node.decideTogether_eq_ok_iff (n := { n with state := state' }).2
        ⟨hoffered, hanswers', hlegal⟩
      exact ⟨.tuple moves, s₁', Run.start_bind_ok hdecided, rfl, hs'⟩
  | sequential player moves _ =>
      intro s s' key s₁ hs hkey
      obtain ⟨hoffered, hanswer, hlegal⟩ := (Node.decideAlone_eq_ok_iff rfl).1 hkey
      have hblind : Run.Carries R Eq (ps.answer ⟨player, .tuple moves, numPlayers, state, t⟩)
          (ps.answer ⟨player, .tuple moves, numPlayers, state', t'⟩) := answer_blind hps rfl rfl rfl
      obtain ⟨_, s₁', hanswer', rfl, hs'⟩ := hblind s s' key s₁ hs hanswer
      exact ⟨key, s₁', (Node.decideAlone_eq_ok_iff rfl).2 ⟨hoffered, hanswer', hlegal⟩, rfl, hs'⟩
  | chance d _ =>
      intro s s' key s₁ hs hkey
      obtain ⟨hproper, hpick, rfl⟩ := Distribution.sample_eq_ok_iff.1 hkey
      obtain ⟨hnumber, hs'⟩ := hps.uniform hs
      exact ⟨key, _, Distribution.sample_eq_ok_iff.2 ⟨hproper, hnumber ▸ hpick, rfl⟩, rfl, hs'⟩
  | terminal e => exact .throw _ _
  | stray v => exact .throw _ _

end Walk

namespace Game

variable {ω σ : Type} [Scale ω]

/-! ### Rounds one after another -/

/-- After these rounds, others come to these outcomes one after another, each with no more decisions
and moves of chance than that. -/
inductive Rounds (g : Game ω σ) (ps : Participants ω σ) (limit : Nat) :
    History → σ → List Outcome → σ → Prop
  | nil (h : History) (s : σ) : Rounds g ps limit h s [] s
  | cons {h : History} {s s' : σ} {n : Nat} {x : g.Moment} {e : Ending} {o : Outcome}
      {os : List Outcome} (hround : g.RoundComesTo ps h s n x) (hlimit : n ≤ limit)
      (hnode : g.tree.node x.position = .terminal e)
      (ho : e.outcome x.transcript g.numPlayers = .ok o)
      (hrest : Rounds g ps limit (h.add o) x.surroundings os s') :
      Rounds g ps limit h s (o :: os) s'

/-- Every end of the game pays whole numbers. -/
def PaysWhole (g : Game ω σ) : Prop :=
  ∀ p e, g.Reached p → g.tree.node p = .terminal e → e.payoff.IsWhole

variable {g : Game ω σ} {r : Repetition σ} {ps : Participants ω σ} {R : σ → σ → Prop}
  {maxDepth : Int} {limit count k left : Nat} {h h' : History} {s s' s₁ : σ} {o : Outcome}
  {os os' : List Outcome} {x y : g.Moment} {p q : g.tree.Position} {t t₁ : Transcript}

/-- Rounds may be split where their outcomes are. -/
theorem Rounds.split (hrounds : g.Rounds ps limit h s (os ++ os') s') :
    ∃ s₁, g.Rounds ps limit h s os s₁ ∧ g.Rounds ps limit (h.addAll os) s₁ os' s' := by
  induction os generalizing h s with
  | nil => exact ⟨s, .nil h s, hrounds⟩
  | cons o os ih =>
      cases hrounds with
      | cons hround hlimit hnode ho hrest =>
          obtain ⟨s₁, hfirst, hlast⟩ := ih hrest
          exact ⟨s₁, .cons hround hlimit hnode ho hfirst, hlast⟩

/-- What moves of a round lead to is reached by the game. -/
theorem Moves.reached (hmoves : g.Moves ps h k y x) (hy : g.Reached y.position) :
    g.Reached x.position := by
  induction hmoves with
  | none => exact hy
  | @next n p q t s s₁ s₂ key x hnode hkey hfollow _ ih =>
      have htold := Walk.decide_retells hnode (ps.inRound_alike (h := h) g.numPlayers _ t) s
      rw [hkey] at htold
      rcases hdecided : (Walk.decide (ps.inRound h) g.numPlayers t (g.tree.node p)).start s with
        ⟨f | key', s₁'⟩ <;> rw [hdecided] at htold <;> cases htold
      exact ih (hy.follow ⟨_, _, _, _, hdecided⟩ hfollow)

/-- A game that pays whole numbers pays them in all rounds. -/
theorem Rounds.pays (hrounds : g.Rounds ps limit h s os s') (hwhole : g.PaysWhole) :
    ∀ o ∈ os, o.payoff.PaysWhole g.numPlayers := by
  induction hrounds with
  | nil => nofun
  | cons hround _ hnode ho _ ih =>
      obtain ⟨root, s₁, hroot, hmoves⟩ := hround
      obtain ⟨hsize, hpayoff, -⟩ := Ending.outcome_eq_ok ho
      refine List.forall_mem_cons.2 ⟨⟨?_, ?_⟩, ih⟩
      · rw [hpayoff]
        exact hsize
      · rw [hpayoff]
        exact hwhole _ _ (hmoves.reached (.root hroot)) hnode

/-- With fewer moves left than are made on the way, a round is cut off. -/
theorem Moves.playRound_cut_off (hmoves : g.Moves ps h k y x) (maxDepth : Int) (hleft : left < k) :
    ∃ state s', (g.playRound ps maxDepth h left y.position y.transcript).start y.surroundings =
      (.error (.nonterminating maxDepth state), s') := by
  induction hmoves generalizing left with
  | none => exact absurd hleft (Nat.not_lt_zero left)
  | next hnode hkey hfollow _ ih =>
      cases left with
      | zero => exact ⟨_, _, congrArg (Run.start · _) (playRound_zero hnode)⟩
      | succ left =>
          rw [playRound_succ hnode, Run.start_bind_ok hkey, Run.start_bind_ok hfollow]
          exact ih (Nat.lt_of_succ_lt_succ hleft)

/-- Rounds with no other end that are all played are rounds one after another. -/
theorem rounds_of_playRounds (hrounds : r.rounds = some count) (hstop : r.stop = none)
    {rounds : Nat} (hcount : h.length + rounds = count)
    (hplay : (g.playRounds r ps maxDepth rounds h).start s = (.ok h', s')) :
    ∃ os, os.length = rounds ∧ h' = h.addAll os ∧ g.Rounds ps maxDepth.toNat h s os s' := by
  induction rounds generalizing h s with
  | zero =>
      cases hplay
      exact ⟨[], rfl, rfl, .nil _ _⟩
  | succ rounds ih =>
      rw [playRounds_succ_of_stop hrounds hstop hcount] at hplay
      obtain ⟨o, s₁, hround, hplay⟩ := Run.start_bind_eq_ok.1 hplay
      obtain ⟨root, s₂, hroot, hround⟩ := Run.start_bind_eq_ok.1 hround
      obtain ⟨n, x, e, hlimit, hmoves, hnode, ho, rfl⟩ := playRound_eq_ok.1 hround
      obtain ⟨os, hlength, rfl, hrest⟩ := ih (by rw [History.length_add]; omega) hplay
      exact ⟨o :: os, congrArg (· + 1) hlength, rfl,
        .cons ⟨root, s₂, hroot, hmoves⟩ hlimit hnode ho hrest⟩

/-- Rounds one after another are all played, unless the bound is lower than the limit and cuts one
of them off. -/
theorem Rounds.playRounds (hall : g.Rounds ps limit h s os s') (hrounds : r.rounds = some count)
    (hstop : r.stop = none) (hcount : h.length + os.length = count) (maxDepth : Int) :
    (g.playRounds r ps maxDepth os.length h).start s = (.ok (h.addAll os), s') ∨
      maxDepth.toNat < limit ∧ ∃ state s₁, (g.playRounds r ps maxDepth os.length h).start s =
        (.error (.nonterminating maxDepth state), s₁) := by
  induction hall with
  | nil => exact .inl rfl
  | @cons h s s' n x e o os hround hlimit hnode ho hrest ih =>
      obtain ⟨root, s₁, hroot, hmoves⟩ := hround
      rw [List.length_cons, playRounds_succ_of_stop hrounds hstop hcount]
      by_cases hleft : maxDepth.toNat < n
      · obtain ⟨state, s₂, hcut⟩ := hmoves.playRound_cut_off maxDepth hleft
        refine .inr ⟨by omega, state, s₂, Run.start_bind_error ?_⟩
        rw [Run.start_bind_ok hroot, hcut]
      · have hplayed : (do g.playRound ps maxDepth h maxDepth.toNat (← g.root) .empty).start s =
            (.ok o, x.surroundings) := by
          rw [Run.start_bind_ok hroot]
          exact playRound_eq_ok.2 ⟨n, x, e, Nat.le_of_not_lt hleft, hmoves, hnode, ho, rfl⟩
        rw [Run.start_bind_ok hplayed]
        exact ih (by rw [History.length_add]; simp only [List.length_cons] at hcount; omega)

/-! ### Plays of a repeated game -/

/-- From the position of the repeated game that is found in this way, no more moves than that lead
to its end. It pays the sum of these rounds and has them on record, and all moves on the way are
made under the numbers of players. -/
def SumsUp (g : Game ω σ) (r : Repetition σ) (name : String) (ps : Participants ω σ)
    (later : History) (x : Run σ (RoundPosition g.tree.Position)) (T : Transcript) (s : σ)
    (limit : Nat) (h : History) (s' : σ) : Prop :=
  ∃ P s₁ k T₁ e, x.start s = (.ok P, s₁) ∧ k ≤ limit ∧
    (g.repeated r name).Moves ps later k ⟨P, T, s₁⟩ ⟨.over e, T₁, s'⟩ ∧ T₁.NamesNumbers ∧
    e.payoff = Payoff.total (h.outcomes.map (·.payoff)) ∧ e.history = some h

variable {later : History} {name : String} {T : Transcript}

/-- What is reached after a move of a round is reached before it, with one move more. -/
theorem SumsUp.step {key : Value} (hnode : (g.tree.node p).goesOn = true)
    (hkey : (Walk.decide ps g.numPlayers T ((g.tree.node p).withState
      (.roundState ⟨later, .roundState ⟨h, (g.tree.node p).state, t⟩, T⟩))).start s = (.ok key, s'))
    {s₂ s₃ : σ} (hfollow : (g.tree.follow p key).start s' = (.ok q, s₂))
    (hrest : g.SumsUp r name ps later
      (r.settle g (r.further h) q h (t.addAll ((g.tree.node p).plies key)))
      (T.addAll ((g.tree.node p).plies key)) s₂ limit h' s₃) :
    g.SumsUp r name ps later (r.settle g (r.further h) p h t) T s (limit + 1) h' s₃ := by
  obtain ⟨P, s₄, k, T₁, e, hsettle, hle, hmoves, hend⟩ := hrest
  have hlookup := (Node.withState_lookupKey _ _).symm.trans (Walk.lookupKey_of_decide hkey)
  have hled : ((g.repeatedTree r).follow (.within p h t) key).start s' = (.ok P, s₄) := by
    refine (congrArg (Run.start · s') (follow_within hlookup)).trans ?_
    exact (Run.start_bind_ok hfollow).trans hsettle
  have hstate : ((RoundPosition.within p h t).node g.tree).state =
      .roundState ⟨h, (g.tree.node p).state, t⟩ := Node.withState_state hnode _
  have hplies : ((RoundPosition.within p h t).node g.tree).plies key =
      (g.tree.node p).plies key := Node.withState_plies _ _
  rw [← hplies] at hmoves
  refine ⟨.within p h t, s, k + 1, T₁, e, ?_, Nat.succ_le_succ hle, ?_, hend⟩
  · rw [Repetition.settle_goesOn hnode]
    rfl
  · refine Moves.next (g := g.repeated r name) (p := RoundPosition.within p h t)
      ((Node.withState_goesOn _).trans hnode) ?_ hled hmoves
    show (Walk.decide ps g.numPlayers T (((RoundPosition.within p h t).node g.tree).withState
      (.roundState ⟨later, ((RoundPosition.within p h t).node g.tree).state, T⟩))).start s = _
    rw [hstate, RoundPosition.node, Node.withState_withState]
    exact hkey

/-- A round of the stage game is gone through in the repeated game, too, whatever its players are
shown there. -/
theorem Moves.within (hps : ps.Blind R) (hg : g.Consistent R) (r : Repetition σ) (name : String)
    (later h : History) {before : History} (hmoves : g.Moves ps before k y x)
    (hs : R y.surroundings s) (hT : T.NamesNumbers) :
    ∃ s₁ T₁, R x.surroundings s₁ ∧ T₁.NamesNumbers ∧ ∀ limit h' s',
      g.SumsUp r name ps later (r.settle g (r.further h) x.position h x.transcript) T₁ s₁ limit h'
        s' →
      g.SumsUp r name ps later (r.settle g (r.further h) y.position h y.transcript) T s (limit + k)
        h' s' := by
  induction hmoves generalizing s T with
  | none x => exact ⟨s, T, hs, hT, fun limit h' s' hrest => hrest⟩
  | @next n p q t s₀ s₁ s₂ key x hnode hkey hfollow _ ih =>
      obtain ⟨_, s₁', hkey', rfl, hs₁⟩ := Walk.decide_blind hps t T (g.tree.node p) _
        (.roundState ⟨later, .roundState ⟨h, (g.tree.node p).state, t⟩, T⟩) _ s _ _ hs hkey
      obtain ⟨hsame, hs₂⟩ := hg.tree.follow p key _ _ hs₁
      rw [hfollow] at hsame hs₂
      have hfollow' : (g.tree.follow p key).start s₁' =
          (.ok q, ((g.tree.follow p key).start s₁').2) := Prod.ext hsame.symm rfl
      have hplies := Node.plies_of_decide hkey'
      rw [Node.withState_plies] at hplies
      obtain ⟨s₃, T₁, hs₃, hT₁, hrest⟩ := ih hs₂ (hT.addAll hplies)
      exact ⟨s₃, T₁, hs₃, hT₁, fun limit h' s' hend =>
        SumsUp.step hnode hkey' hfollow' (hrest limit h' s' hend)⟩

/-- After the last round the repeated game is over. -/
theorem sumsUp_last {e : Ending} (hnode : g.tree.node p = .terminal e)
    (ho : e.outcome t g.numPlayers = .ok o) (hrounds : r.rounds = some count)
    (hstop : r.stop = none) (hlast : h.length + 1 = count)
    (hwhole : ∀ o' ∈ (h.add o).outcomes, o'.payoff.PaysWhole g.numPlayers)
    (hT : T.NamesNumbers) (s : σ) :
    g.SumsUp r name ps later (r.settle g (r.further h) p h t) T s 0 (h.add o) s := by
  have hscore := History.score_whole (h.add o) hwhole
  refine ⟨.over ⟨Payoff.total ((h.add o).outcomes.map (·.payoff)), o.profile, some (h.add o),
    .roundState ⟨h.add o, e.state, t⟩⟩, s, 0, T, _, ?_, Nat.le_refl 0, .none _, hT, rfl, rfl⟩
  rw [settle_outcome hnode ho hrounds hstop (by omega), if_pos hlast, hscore]
  rfl

/-- The rounds of a play are gone through in the repeated game, one after the other, to its end. -/
theorem Rounds.within (hps : ps.Blind R) (hg : g.Consistent R) (hrounds : r.rounds = some count)
    (hstop : r.stop = none) (name : String) (later : History) {before : History}
    (hall : g.Rounds ps limit before s os s') (hne : os ≠ [])
    (hcount : h.length + os.length = count)
    (hwhole : ∀ o ∈ (h.addAll os).outcomes, o.payoff.PaysWhole g.numPlayers) (hs : R s s₁)
    (hT : T.NamesNumbers) :
    ∃ s₁', R s' s₁' ∧ g.SumsUp r name ps later
      (do r.settle g (r.further h) (← g.root) h .empty) T s₁ (os.length * limit) (h.addAll os)
        s₁' := by
  induction hall generalizing h s₁ T with
  | nil => exact absurd rfl hne
  | @cons before s s' k x e o os hround hlimit hnode ho _ ih =>
      obtain ⟨root, s₂, hroot, hmoves⟩ := hround
      obtain ⟨hsame, hs₂⟩ := hg.root s s₁ hs
      rw [hroot] at hsame hs₂
      have hroot' : g.root.start s₁ = (.ok root, (g.root.start s₁).2) := Prod.ext hsame.symm rfl
      obtain ⟨s₃, T₁, hs₃, hT₁, hlead⟩ := hmoves.within hps hg r name later h hs₂ hT
      -- What is reached from the end of this round is reached from its beginning.
      have hround {rest : Nat} {h' : History} {s₁' : σ} (hrest : g.SumsUp r name ps later
          (r.settle g (r.further h) x.position h x.transcript) T₁ s₃ rest h' s₁') :
          g.SumsUp r name ps later
            (do r.settle g (r.further h) (← g.root) h .empty) T s₁ (rest + limit) h' s₁' := by
        obtain ⟨P, s₄, n, T₂, e', hsettle, hle, hend⟩ := hlead _ _ _ hrest
        exact ⟨P, s₄, n, T₂, e', (Run.start_bind_ok hroot').trans hsettle,
          Nat.le_trans hle (Nat.add_le_add_left hlimit _), hend⟩
      rw [List.length_cons] at hcount
      rw [List.length_cons, Nat.succ_mul]
      cases os with
      | nil =>
          cases ‹g.Rounds ps limit _ _ [] s'›
          rw [List.length_nil, Nat.zero_mul]
          exact ⟨s₃, hs₃, hround (sumsUp_last hnode ho hrounds hstop hcount hwhole hT₁ s₃)⟩
      | cons o' os =>
          obtain ⟨s₁', hs₁', hrest⟩ := ih (List.cons_ne_nil _ _)
            (by rw [History.length_add]; omega) hwhole hs₃ hT₁
          refine ⟨s₁', hs₁', hround ?_⟩
          rw [settle_outcome hnode ho hrounds hstop (by rw [← hcount, List.length_cons]; omega),
            if_neg (by rw [← hcount, List.length_cons]; omega)]
          exact hrest

/-- Plays of the repeated game are rounds of another one. They pay the sums of their rounds and have
these rounds on record. -/
theorem Rounds.nested (hps : ps.Blind R) (hg : g.Consistent R) (hrounds : r.rounds = some count)
    (hstop : r.stop = none) (name : String) (later : History) {before : History}
    {parts : List (List Outcome)} (hall : g.Rounds ps limit before s parts.flatten s')
    (hparts : ∀ part ∈ parts, part.length = count)
    (hwhole : ∀ part ∈ parts, ∀ o ∈ part, o.payoff.PaysWhole g.numPlayers) (hs : R s s₁) :
    ∃ os s₁', R s' s₁' ∧ (g.repeated r name).Rounds ps (count * limit) later s₁ os s₁' ∧
      os.map (·.history) = parts.map (fun part => some (History.empty.addAll part)) ∧
      os.map (·.payoff) = parts.map (fun part => Payoff.total (part.map (·.payoff))) := by
  induction parts generalizing before later s s₁ with
  | nil =>
      cases hall
      exact ⟨[], s₁, hs, .nil later s₁, rfl, rfl⟩
  | cons part parts ih =>
      rw [List.forall_mem_cons] at hparts hwhole
      obtain ⟨hlength, hparts⟩ := hparts
      obtain ⟨hpart, hwhole⟩ := hwhole
      obtain ⟨s₂, hfirst, hrest⟩ := hall.split
      have hne : part ≠ [] := by
        rintro rfl
        exact absurd (r.bounded count hrounds).1 (by rw [← hlength]; exact Nat.not_succ_le_zero 0)
      have houtcomes := History.outcomes_empty_addAll part
      obtain ⟨s₂', hs₂, P, s₃, k, T, e, hroot, hlimit, hmoves, hT, hpayoff, hhistory⟩ :=
        hfirst.within hps hg hrounds hstop name later (h := .empty) hne
          ((Nat.zero_add _).trans hlength) (by rwa [houtcomes]) hs (T := .empty) nofun
      rw [houtcomes] at hpayoff
      have htotal : (Payoff.total (part.map (·.payoff))).PaysWhole g.numPlayers :=
        .total (by simpa using hne) (by simpa using hpart)
      obtain ⟨o, ho⟩ := Ending.exists_outcome (hpayoff ▸ htotal.sized) hT
      obtain ⟨-, hopayoff, -, hohistory, -⟩ := Ending.outcome_eq_ok ho
      obtain ⟨os, s₁', hs₁', hlast, hhistories, hpayoffs⟩ :=
        ih (later.add o) hrest hparts hwhole hs₂
      refine ⟨o :: os, s₁', hs₁', .cons ⟨P, s₃, hroot, hmoves⟩ (hlength ▸ hlimit) rfl ho hlast,
        ?_, ?_⟩
      · rw [List.map_cons, List.map_cons, hhistories, hohistory, hhistory]
      · rw [List.map_cons, List.map_cons, hpayoffs, hopayoff, hpayoff]

end Game

namespace History

variable {h : History} {o : Outcome}

theorem summary_eq_ok (hsummary : h.summary = .ok o) :
    h.score = .ok o.payoff ∧ o.history = some h := by
  unfold summary at hsummary
  cases hlast : h.last? with
  | none =>
      rw [hlast] at hsummary
      cases hsummary
  | some last =>
      rw [hlast] at hsummary
      obtain ⟨total, hscore, heq⟩ := Run.except_bind_eq_ok.1 hsummary
      cases heq
      exact ⟨hscore, rfl⟩

/-- Rounds that can be added up make an outcome. -/
theorem exists_summary {total : Payoff} (hscore : h.score = .ok total) (hlength : 0 < h.length) :
    ∃ o, h.summary = .ok o ∧ o.payoff = total ∧ o.history = some h := by
  cases hlast : h.last? with
  | none =>
      have hempty : h.latestFirst = [] := List.head?_eq_none_iff.1 hlast
      simp [length, hempty] at hlength
  | some last =>
      rw [summary_eq hlast, hscore]
      exact ⟨_, rfl, rfl, rfl⟩

end History

namespace Game

variable {ω σ : Type} [Scale ω] {g : Game ω σ} {ps : Participants ω σ} {R : σ → σ → Prop}
  {limit : Nat} {s s' : σ} {os : List Outcome} {o : Outcome}

/-- A play comes to this outcome, unless it is left off or its bound is reached. Neither happens
with this bound or a higher one, if as many visits are allowed in each of so many rounds, and one
more. -/
def PlaysTo (g : Game ω σ) (ps : Participants ω σ) (s : σ) (o : Outcome) (s' : σ)
    (rounds limit : Nat) : Prop :=
  ∀ (bound : Int) (visits : Nat),
    ((g.play ps bound visits).start s = (.ok (some o), s') ∨
      ((g.play ps bound visits).start s).1 = .ok none ∨
      ∃ state, ((g.play ps bound visits).start s).1 = .error (.nonterminating bound state)) ∧
    (1 ≤ bound → limit ≤ bound.toNat → rounds * bound.toNat < visits →
      (g.play ps bound visits).start s = (.ok (some o), s'))

/-- A play that is not left off goes the same way when more visits are allowed. -/
theorem play_mono (g : Game ω σ) (ps : Participants ω σ) (maxDepth : Int) {visits more : Nat}
    (hle : visits ≤ more) (s : σ) :
    ((g.play ps maxDepth visits).start s).1 = .ok none ∨
      (g.play ps maxDepth more).start s = (g.play ps maxDepth visits).start s := by
  rcases hroot : g.root.start s with ⟨f | root, s₁⟩
  · exact .inr ((Run.start_bind_error hroot).trans (Run.start_bind_error hroot).symm)
  · rw [play, play, Run.start_bind_ok hroot, Run.start_bind_ok hroot]
    cases hcheck : ps.check g.numPlayers with
    | error f =>
        rw [execute_eq_throw hcheck, execute_eq_throw hcheck]
        exact .inr rfl
    | ok =>
        rw [execute_eq hcheck, execute_eq hcheck]
        rcases hrun : (Walk.run g.tree ps g.numPlayers maxDepth visits
          (Walk.start g.tree root)).start s₁ with ⟨result, s₂⟩
        by_cases hended : result = .ok none
        · exact .inl hended
        · exact .inr (Walk.run_mono hrun hended hle)

/-- Rounds with no other end make up a play of the repeated game. -/
theorem Rounds.playsTo {r : Repetition σ} (hall : g.Rounds ps limit .empty s os s')
    (hrounds : r.rounds = some os.length) (hstop : r.stop = none)
    (hcheck : ps.check g.numPlayers = .ok ()) (name : String)
    (hsummary : (History.empty.addAll os).summary = .ok o) :
    (g.repeated r name).PlaysTo ps s o s' os.length limit := by
  have hplay (bound : Int) (hdepth : 1 ≤ bound) (visits : Nat)
      (hvisits : os.length * bound.toNat < visits) :
      ((g.repeated r name).play ps bound visits).start s = (.ok (some o), s') ∨
        bound.toNat < limit ∧ ∃ state,
          (((g.repeated r name).play ps bound visits).start s).1 =
            .error (.nonterminating bound state) := by
    rw [play_repeated_eq hrounds hdepth hcheck name hvisits]
    rcases hall.playRounds hrounds hstop (Nat.zero_add _) bound with
      hplayed | ⟨hless, state, s₁, hcut⟩
    · left
      rw [Run.start_bind_ok hplayed, hsummary]
      rfl
    · exact .inr ⟨hless, state, congrArg Prod.fst (Run.start_bind_error hcut)⟩
  intro bound visits
  constructor
  · by_cases hdepth : 1 ≤ bound
    · rcases (g.repeated r name).play_mono ps bound
        (Nat.le_max_left visits (os.length * bound.toNat + 1)) s with hleft | hsame
      · exact .inr (.inl hleft)
      · rw [← hsame]
        rcases hplay bound hdepth _ (Nat.le_max_right visits _) with hdone | ⟨-, hcut⟩
        · exact .inl hdone
        · exact .inr (.inr hcut)
    · -- There is a root, since a play with a higher bound has begun there.
      have hbegun := (hplay (limit + 1 : Nat) (by omega) _ (Nat.lt_succ_self _)).resolve_right
        (by rintro ⟨hless, -⟩; omega)
      obtain ⟨root, s₁, hroot, -⟩ := Run.start_bind_eq_ok.1 hbegun
      have hrun : ((g.repeated r name).play ps bound visits).start s =
          (Walk.run (g.repeated r name).tree ps g.numPlayers bound visits
            (Walk.start (g.repeated r name).tree root)).start s₁ :=
        (Run.start_bind_ok hroot).trans
          (congrArg (Run.start · s₁) (execute_eq (t := (g.repeated r name).tree) hcheck ..))
      rw [hrun]
      cases visits with
      | zero => exact .inr (.inl rfl)
      | succ visits =>
          rw [Walk.run_cut_off (by omega)]
          exact .inr (.inr ⟨_, rfl⟩)
  · intro hdepth hlimit hvisits
    rcases hplay bound hdepth visits hvisits with hdone | ⟨hless, -⟩
    · exact hdone
    · omega

/-- Nested repetition flattens. If the stage game pays whole numbers and its players pay no
attention to what they are shown, then repeating the repeated game comes to an outcome whenever
repeating the game as many times at once does, unless a bound is reached. It pays the same, and its
history nests the flat one. The outer game needs no higher bound than that of the flat game as many
times as the inner game has rounds. -/
theorem repeated_flattens (hps : ps.Blind R) (hg : g.Consistent R) (hwhole : g.PaysWhole)
    {flat inner outer : Repetition σ} {n m : Nat} (hflat : flat.rounds = some (n * m))
    (hinner : inner.rounds = some n) (houter : outer.rounds = some m) (hflat' : flat.stop = none)
    (hinner' : inner.stop = none) (houter' : outer.stop = none) {name : String}
    (nameInner nameOuter : String) {maxDepth : Int} {visits : Nat}
    (hplay : ((g.repeated flat name).play ps maxDepth visits).start s = (.ok (some o), s'))
    {s₁ : σ} (hs : R s s₁) :
    ∃ o' s₁', ((g.repeated inner nameInner).repeated outer nameOuter).PlaysTo ps s₁ o' s₁' m
        (n * maxDepth.toNat) ∧ R s' s₁' ∧ o'.payoff = o.payoff ∧
      ∃ h h', o.history = some h ∧ o'.history = some h' ∧ h'.length = m ∧ h'.Nests n h := by
  obtain ⟨hcheck, hdepth⟩ := check_of_play hplay
  replace hcheck : ps.check g.numPlayers = .ok () := hcheck
  -- The flat play is not left off, so it may be given more visits.
  have hmore := (g.repeated flat name).play_mono ps maxDepth
    (Nat.le_max_left visits (n * m * maxDepth.toNat + 1)) s
  rw [hplay] at hmore
  replace hplay := hmore.resolve_left nofun
  rw [play_repeated_eq hflat hdepth hcheck name (Nat.le_max_right visits _)] at hplay
  obtain ⟨h, s₂, hrounds, hplay⟩ := Run.start_bind_eq_ok.1 hplay
  obtain ⟨o₁, s₃, hsummed, heq⟩ := Run.start_bind_eq_ok.1 hplay
  cases heq
  obtain ⟨hsummary, rfl⟩ : h.summary = .ok o ∧ s₂ = s' := Prod.mk.inj hsummed
  obtain ⟨os, hlength, rfl, hall⟩ := rounds_of_playRounds hflat hflat' (Nat.zero_add _) hrounds
  obtain ⟨parts, hcount, hparts, rfl⟩ := exists_flatten n m hlength
  have hpays : ∀ part ∈ parts, ∀ o ∈ part, o.payoff.PaysWhole g.numPlayers := fun part hpart o ho =>
    hall.pays hwhole o (List.mem_flatten_of_mem hpart ho)
  have hne : ∀ part ∈ parts, part ≠ [] := by
    rintro _ hpart rfl
    refine absurd (inner.bounded n hinner).1 ?_
    rw [← hparts [] hpart]
    exact Nat.not_succ_le_zero 0
  obtain ⟨os', s₁', hs', hall', hhistories, hpayoffs⟩ :=
    hall.nested hps hg hinner hinner' nameInner .empty hparts hpays hs
  obtain rfl : os'.length = m := by
    rw [← hcount, ← List.length_map (·.history), hhistories, List.length_map]
  -- Both plays pay the sum of all rounds, added up in different ways.
  obtain ⟨hscore, hhistory⟩ := History.summary_eq_ok hsummary
  rw [History.score_empty_addAll (List.forall_mem_flatten.2 hpays)] at hscore
  have hpays' : ∀ o ∈ os', o.payoff.PaysWhole g.numPlayers := by
    intro o ho
    have hmem : o.payoff ∈ os'.map (·.payoff) := List.mem_map_of_mem ho
    rw [hpayoffs] at hmem
    obtain ⟨part, hpart, heq⟩ := List.mem_map.1 hmem
    rw [← heq]
    exact .total (by simpa using hne part hpart) (by simpa using hpays part hpart)
  obtain ⟨o', hsummary', hpayoff', hhistory'⟩ := History.exists_summary
    (History.score_empty_addAll hpays')
    (by
      rw [History.length_addAll]
      exact Nat.lt_of_lt_of_le (outer.bounded _ houter).1 (Nat.le_add_left ..))
  refine ⟨o', s₁', hall'.playsTo houter houter' hcheck nameOuter hsummary', hs', ?_, _, _, hhistory,
    hhistory', ?_, History.nests_addAll hhistories hparts⟩
  · rw [hpayoff', hpayoffs, ← Except.ok.inj hscore, List.map_flatten, Payoff.total_flatten,
      List.map_map]
    · rfl
    · simpa using hne
  · rw [History.length_addAll]
    exact Nat.zero_add _

/-- Where states are related only to themselves, every game is begun and played the same. -/
theorem consistent_eq (g : Game ω σ) : g.Consistent Eq where
  tree _ _ _ _ hs := hs ▸ ⟨rfl, rfl⟩
  root _ _ hs := hs ▸ ⟨rfl, rfl⟩

/-- The only player picks one of two payoffs. -/
def pick : Game Rat Bool where
  kind := "TreeGame"
  name := "pick"
  numPlayers := 1
  tree :=
    { Position := Option Bool
      node
        | none => .sequential (.int 0) [.bool true, .bool false] .null
        | some most => .terminal ⟨⟨[.int (if most then 3 else 1)]⟩, none, none, .null⟩
      next
        | none, key => return some (some key.truthy)
        | some _, _ => return none }
  root := return none
  legal _ _ := .ok [.bool true, .bool false]

/-- The player remembers the last move, and makes the other one. -/
def alternating : Participants Rat Bool where
  players := [.int 0]
  ask player :=
    if player = 0 then some fun _ => do
      let last ← getThe Bool
      set (!last)
      return .bool !last
    else none
  uniform := return 0

/-- What a round of it comes to. -/
def picked (most : Bool) : Outcome :=
  ⟨⟨[.int (if most then 3 else 1)]⟩, some ⟨[.bool most]⟩, ⟨[⟨.int 0, .bool most⟩]⟩, none⟩

theorem alternating_blind : alternating.Blind Eq where
  ask {player ask} h c c' _ _ _ := by
    have hsame : ask c = ask c' := by
      by_cases hplayer : player = 0
      · simp only [alternating, if_pos hplayer, Option.some.injEq] at h
        rw [← h]
      · simp [alternating, if_neg hplayer] at h
    rintro s _ move s₁ rfl hmove
    exact ⟨move, s₁, hsame ▸ hmove, rfl, rfl⟩
  uniform hs := hs ▸ ⟨rfl, rfl⟩

theorem pick_paysWhole : pick.PaysWhole := by
  intro p e _ hnode u hu
  cases p with
  | none => cases hnode
  | some most =>
      cases hnode
      rw [List.mem_singleton.1 hu]
      rfl

/-- Two plays of two rounds each come to what four rounds come to. -/
theorem picks_flatten :
    ∃ o, ((pick.repeated (.times (2 * 2) (by decide)) "").play alternating 2 9).start false =
        (.ok (some o), false) ∧
      ∃ o' s₁', ((pick.repeated (.times 2 (by decide)) "").repeated (.times 2 (by decide)) "").PlaysTo
          alternating false o' s₁' 2 (2 * (2 : Int).toNat) ∧ false = s₁' ∧ o'.payoff = o.payoff ∧
        ∃ h h', o.history = some h ∧ o'.history = some h' ∧ h'.length = 2 ∧ h'.Nests 2 h := by
  obtain ⟨o, hplay⟩ : ∃ o, ((pick.repeated (.times (2 * 2) (by decide)) "").play alternating 2
    9).start false = (.ok (some o), false) := by
    rw [play_repeated_eq rfl (by decide) rfl "" (by decide)]
    exact ⟨_, rfl⟩
  exact ⟨o, hplay, repeated_flattens alternating_blind (consistent_eq pick) pick_paysWhole rfl rfl
    rfl rfl rfl rfl "" "" hplay rfl⟩

end Game

end ExtensiveForm
