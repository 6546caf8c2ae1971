import ExtensiveForm.Proofs.Decision
import ExtensiveForm.Proofs.Rounds

/-!
# Rounds as independent plays

A round of a repeated game is a play of the stage game in which the players are shown a little
more: the state that they see tells of the rounds before and of the moves of this one.
`Game.playInTurn` plays the stage game again and again in this way, and each play goes on with what
the one before left of the strategies and the generator.

The main result, `repeated_play_is_plays_in_turn`, is about stage games whose states tell nothing of
the play. A repeated game comes to the outcomes of these plays, as long as their payoffs can be
added up. Adding a whole number that is too large to a double fails, and `sum_of_payoffs_overflows`
is a repeated game in which this happens although both of its rounds are over.
-/

namespace ExtensiveForm

namespace Fault

/-- The fault of a play is told as it is, or of the state that the players see after these
rounds. -/
def Retold (h : History) (f f' : Fault) : Prop :=
  f' = f ∨ ∃ t, f' = f.withState (.roundState ⟨h, f.state, t⟩)

theorem Retold.refl {h : History} (f : Fault) : Retold h f f :=
  .inl rfl

end Fault

/-- What a player may look at in a round after these rounds. -/
def Context.inRound (h : History) (c : Context) : Context :=
  { c with state := .roundState ⟨h, c.state, c.transcript⟩ }

/-- The same participants, who are asked as in a round after these rounds. -/
def Participants.inRound {ω σ : Type} (h : History) (ps : Participants ω σ) :
    Participants ω σ :=
  { ps with ask := fun player => (ps.ask player).map fun ask c => ask (c.inRound h) }

namespace Participants

variable {ω σ : Type} {ps : Participants ω σ} {h : History}

/-- Players answer in a play, asked as in a round, as they answer in the round. -/
theorem inRound_alike (numPlayers : Int) (state : Value) (t : Transcript) :
    (ps.inRound h).Alike (Fault.Retold h) numPlayers ps state (.roundState ⟨h, state, t⟩) t t where
  ask player := by
    unfold inRound
    dsimp only
    cases ps.ask player with
    | none => exact .none
    | some ask => exact .some fun who offered => .refl Fault.Retold.refl _
  uniform := rfl
  same := Fault.Retold.refl
  told f hstate := .inr ⟨t, by rw [hstate]⟩

end Participants

namespace Game

variable {ω σ : Type} [Scale ω]

/-- At every position that a play comes to there is a node, and its state tells nothing of the
play. -/
structure Plain (g : Game ω σ) : Prop where
  isNode {p : g.tree.Position} (hp : g.Reached p) : (g.tree.node p).isNode = true
  transcript {p : g.tree.Position} (hp : g.Reached p) :
    (g.tree.node p).state.transcript? = none
  round {p : g.tree.Position} (hp : g.Reached p) : (g.tree.node p).state.round = .null

/-- The payoff of every end that a play comes to consists of numbers. -/
def PaysNumbers (g : Game ω σ) : Prop :=
  ∀ p e, g.Reached p → g.tree.node p = .terminal e → e.payoff.IsNumeric

/-- So many plays one after another, the players being shown the outcomes of those before: the
outcomes of all plays, if each of them ends within so many visits. -/
def playInTurn (g : Game ω σ) (ps : Participants ω σ) (maxDepth : Int) (visits : Nat) :
    Nat → History → Run σ (Option History)
  | 0, h => return some h
  | plays + 1, h => do
      match ← g.play (ps.inRound h) maxDepth visits with
      | none => return none
      | some o => playInTurn g ps maxDepth visits plays (h.add o)

variable {g : Game ω σ} {ps : Participants ω σ} {maxDepth : Int} {h : History}

/-- A walk through the stage game foretells the rest of the round. -/
theorem run_foretells (hplain : g.Plain) (visits visited left : Nat) (p : g.tree.Position)
    (t : Transcript) (hp : g.Reached p) (hbound : visited + visits ≤ maxDepth.toNat)
    (hleft : visits ≤ left) :
    Run.Foretells (Fault.Retold h)
      (Walk.run g.tree (ps.inRound h) g.numPlayers maxDepth visits ⟨p, t, .null, visited⟩)
      (g.playRound ps maxDepth h left p t) := by
  induction visits generalizing p t visited left with
  | zero => exact .nothing _
  | succ visits ih =>
      obtain ⟨left, rfl⟩ : ∃ k, left = k + 1 := ⟨left - 1, by omega⟩
      -- No node belongs to a round, so the count of visits is never restarted.
      have henter : (Walk.mk p t .null visited).enter (t := g.tree) = ⟨p, t, .null, visited⟩ := by
        refine Walk.enter_of_beq ?_
        rw [hplain.round hp]
        rfl
      have hbelow : ¬ maxDepth ≤ ((Walk.mk p t .null visited).enter (t := g.tree)).visited := by
        rw [henter]
        show ¬ maxDepth ≤ (visited : Int)
        omega
      rcases (g.tree.node p).goesOn_or with ⟨e, hnode⟩ | ⟨v, hnode⟩ | hnode
      · rw [Walk.run_terminal hbelow hnode, playRound_terminal hnode]
        exact .refl Fault.Retold.refl _
      · have hisNode := hplain.isNode hp
        rw [hnode] at hisNode
        cases hisNode
      · rw [Walk.run_goesOn hbelow hnode, playRound_succ hnode, henter]
        refine (Walk.decide_retells hnode (ps.inRound_alike _ _ t)).foretells ?_
        intro key s s' hkey
        refine (Run.Retells.refl Fault.Retold.refl _).foretells fun q s₁ s₂ hq => ?_
        have hreached : g.Reached q := hp.follow ⟨_, _, _, _, hkey⟩ hq
        rw [hplain.transcript hreached]
        exact ih (visited + 1) left q _ hreached (by omega) (by omega)

/-- A play of the stage game foretells a whole round. -/
theorem play_foretells (hplain : g.Plain) (hcheck : ps.check g.numPlayers = .ok ()) {visits : Nat}
    (hvisits : visits ≤ maxDepth.toNat) :
    Run.Foretells (Fault.Retold h) (g.play (ps.inRound h) maxDepth visits)
      (do g.playRound ps maxDepth h maxDepth.toNat (← g.root) .empty) := by
  refine (Run.Retells.refl Fault.Retold.refl _).foretells fun root s s' hroot => ?_
  have hreached : g.Reached root := .root hroot
  have hcheck' : (ps.inRound h).check g.numPlayers = .ok () := hcheck
  rw [execute_eq hcheck']
  have hstart : Walk.start g.tree root = ⟨root, .empty, .null, 0⟩ := by
    simp only [Walk.start, hplain.transcript hreached, hplain.round hreached]
    rfl
  rw [hstart]
  exact run_foretells hplain visits 0 _ root .empty hreached (by omega) hvisits

variable {r : Repetition σ} {count : Nat}

/-- After some plays in turn, so many rounds are completed. -/
theorem playRounds_of_playInTurn (hplain : g.Plain) (hcheck : ps.check g.numPlayers = .ok ())
    (hrounds : r.rounds = some count) (hstop : r.stop = none) {visits : Nat}
    (hvisits : visits ≤ maxDepth.toNat) (plays rest : Nat) {h' : History} {s s' : σ}
    (hcount : h.length + (plays + rest) = count)
    (hplays : (g.playInTurn ps maxDepth visits plays h).start s = (.ok (some h'), s')) :
    h'.length = h.length + plays ∧ (g.playRounds r ps maxDepth (plays + rest) h).start s =
      (g.playRounds r ps maxDepth rest h').start s' := by
  induction plays generalizing h s with
  | zero =>
      cases hplays
      exact ⟨rfl, by rw [Nat.zero_add]⟩
  | succ plays ih =>
      rw [playInTurn, Run.start_bind_eq_ok] at hplays
      obtain ⟨result, s₁, hplay, hplays⟩ := hplays
      cases result with
      | none => cases hplays
      | some o =>
          have hround := (play_foretells hplain hcheck hvisits).ok hplay
          obtain ⟨hlength, hrest⟩ := ih (by rw [History.length_add]; omega) hplays
          refine ⟨by rw [hlength, History.length_add]; omega, ?_⟩
          rw [Nat.succ_add, playRounds_succ_of_stop hrounds hstop (by omega),
            Run.start_bind_ok hround]
          exact hrest

/-- What is true of the outcome of every end of the game is true of all that the plays come to. -/
theorem playInTurn_forall {P : Outcome → Prop}
    (hends : ∀ p e t o, g.Reached p → g.tree.node p = .terminal e →
      e.outcome t g.numPlayers = .ok o → P o)
    {visits plays : Nat} {h' : History} {s s' : σ} (hfirst : ∀ o ∈ h.latestFirst, P o)
    (hplays : (g.playInTurn ps maxDepth visits plays h).start s = (.ok (some h'), s')) :
    ∀ o ∈ h'.latestFirst, P o := by
  induction plays generalizing h s with
  | zero =>
      cases hplays
      exact hfirst
  | succ plays ih =>
      rw [playInTurn, Run.start_bind_eq_ok] at hplays
      obtain ⟨result, s₁, hplay, hplays⟩ := hplays
      cases result with
      | none => cases hplays
      | some o =>
          refine ih (fun o' ho' => ?_) hplays
          rcases List.mem_cons.1 ho' with rfl | ho'
          · rw [play, Run.start_bind_eq_ok] at hplay
            obtain ⟨root, s₂, hroot, hplay⟩ := hplay
            rw [execute, Run.start_bind_eq_ok] at hplay
            obtain ⟨_, s₃, -, hplay⟩ := hplay
            obtain ⟨p, e, t, hp, hnode, ho⟩ := Walk.run_eq_some (P := g.Reached)
              (fun p q key s s' => .follow) (.root hroot) hplay
            exact hends p e t _ hp hnode ho
          · exact hfirst o' ho'

/-- Plays of a game that pays in numbers pay each player a number. -/
theorem playInTurn_pays (hnumeric : g.PaysNumbers) {visits plays : Nat} {s s' : σ}
    (hplays : (g.playInTurn ps maxDepth visits plays .empty).start s = (.ok (some h), s')) :
    h.Sized g.numPlayers ∧ ∀ o ∈ h.latestFirst, o.payoff.IsNumeric := by
  have hpaid : ∀ o ∈ h.latestFirst,
      (o.payoff.values.length : Int) = g.numPlayers ∧ o.payoff.IsNumeric := by
    refine playInTurn_forall (h := .empty) (fun p e t o hp hnode ho => ?_) (by simp [History.empty])
      hplays
    obtain ⟨hsize, hpayoff, -⟩ := Ending.outcome_eq_ok ho
    rw [hpayoff]
    exact ⟨hsize, hnumeric p e hp hnode⟩
  exact ⟨fun o ho => (hpaid o ho).1, fun o ho => (hpaid o ho).2⟩

/-- The play of a game comes to the sum of the payoffs of a history, and to what the last of its
outcomes came to otherwise. -/
def ComesTo (x : Run σ (Option Outcome)) (s : σ) (h : History) (s' : σ) : Prop :=
  (∃ o total, h.last? = some o ∧ h.score = .ok total ∧
      x.start s = (.ok (some ⟨total, o.profile, o.transcript, some h⟩), s')) ∨
    h.score = .error .overflow ∧ x.start s = (.error .overflow, s')

omit [Scale ω] in
/-- A history with a score or with one that is too large is what a play with its summary comes
to. -/
theorem comesTo_summary (hscore : OkOrOverflow (fun _ => True) h.score) (hlength : 0 < h.length)
    (s : σ) : ComesTo (do return some (← h.summary)) s h s := by
  cases hlast : h.last? with
  | none =>
      have hempty : h.latestFirst = [] := List.head?_eq_none_iff.1 hlast
      simp [History.length, hempty] at hlength
  | some o =>
      rw [History.summary_eq hlast]
      rcases hscore with ⟨total, htotal, -⟩ | hoverflow
      · left
        exact ⟨o, total, hlast, htotal, by rw [htotal]; rfl⟩
      · right
        exact ⟨hoverflow, by rw [hoverflow]; rfl⟩

/-- A repeated game is nothing but plays of its stage game one after another, each from what the
one before has left. When all of them end within the bound, they are its history, and its outcome
is their score with the profile and the transcript of the last one; only when their payoffs cannot
be added is there an overflow instead. When one of them fails, the repeated game fails in the same
way and tells the same fault. -/
theorem repeated_play_is_plays_in_turn (hplain : g.Plain) (hnumeric : g.PaysNumbers)
    (hcheck : ps.check g.numPlayers = .ok ()) (hrounds : r.rounds = some count)
    (hstop : r.stop = none) (hdepth : 1 ≤ maxDepth) {within visits : Nat}
    (hwithin : within ≤ maxDepth.toNat) (hvisits : count * maxDepth.toNat < visits)
    (name : String) (s : σ) :
    (∀ h s', (g.playInTurn ps maxDepth within count .empty).start s = (.ok (some h), s') →
      h.length = count ∧ ComesTo ((g.repeated r name).play ps maxDepth visits) s h s') ∧
    ∀ plays h s₁ f s₂, plays < count →
      (g.playInTurn ps maxDepth within plays .empty).start s = (.ok (some h), s₁) →
      (g.play (ps.inRound h) maxDepth within).start s₁ = (.error f, s₂) →
      ∃ f', Fault.Retold h f f' ∧
        ((g.repeated r name).play ps maxDepth visits).start s = (.error f', s₂) := by
  rw [play_repeated_eq hrounds hdepth hcheck name hvisits]
  refine ⟨fun h s' hplays => ?_, fun plays h s₁ f s₂ hless hplays hfault => ?_⟩
  · obtain ⟨hlength, hrest⟩ := playRounds_of_playInTurn hplain hcheck hrounds hstop hwithin count 0
      (Nat.zero_add _) hplays
    replace hlength : h.length = count := hlength.trans (Nat.zero_add count)
    have hpositive : 0 < h.length := by
      rw [hlength]
      exact (r.bounded count hrounds).1
    obtain ⟨hsized, hnumbers⟩ := playInTurn_pays hnumeric hplays
    have hscore := History.score_ok_or_overflow hsized hnumbers
    refine ⟨hlength, ?_⟩
    have hrounds : (g.playRounds r ps maxDepth count .empty).start s = (.ok h, s') := hrest
    unfold ComesTo
    rw [Run.start_bind_ok hrounds]
    exact comesTo_summary hscore hpositive s'
  · obtain ⟨rest, rfl⟩ : ∃ rest, count = plays + (rest + 1) := ⟨count - plays - 1, by omega⟩
    obtain ⟨hlength, hrest⟩ := playRounds_of_playInTurn hplain hcheck hrounds hstop hwithin plays
      (rest + 1) (Nat.zero_add _) hplays
    -- The plays before are the first rounds, and the one that fails foretells the round after them.
    obtain ⟨f', hretold, hround⟩ := (play_foretells hplain hcheck hwithin).error hfault
    refine ⟨f', hretold, ?_⟩
    have hcount : h.length + (rest + 1) = plays + (rest + 1) := by
      rw [hlength]
      exact congrArg (· + (rest + 1)) (Nat.zero_add plays)
    rw [playRounds_succ_of_stop hrounds hstop hcount, Run.start_bind_error hround] at hrest
    exact Run.start_bind_error hrest

/-- One player chooses between two utilities. -/
def wager (high low : Value) : Game Rat Unit where
  kind := "TreeGame"
  name := "wager"
  numPlayers := 1
  tree :=
    { Position := Option Bool
      node
        | none => .sequential (.int 0) [.bool true, .bool false] .null
        | some won => .terminal ⟨⟨[if won then high else low]⟩, none, none, .null⟩
      next
        | none, key => return some (some key.truthy)
        | some _, _ => return none }
  root := return none
  legal _ _ := .ok [.bool true, .bool false]

/-- The player takes the first utility once, and then the other one. -/
def cautious : Participants Rat Unit where
  players := [.int 0]
  ask player :=
    if player = 0 then some fun c => return .bool c.history.latestFirst.isEmpty else none
  uniform := return 0

/-- Two rounds. -/
def twice : Repetition Unit :=
  .times 2 (by decide)

theorem wager_plain (high low : Value) : (wager high low).Plain where
  isNode {p} _ := by cases p <;> rfl
  transcript {p} _ := by cases p <;> rfl
  round {p} _ := by cases p <;> rfl

theorem wager_paysNumbers {high low : Value} (hhigh : high.IsNumber) (hlow : low.IsNumber) :
    (wager high low).PaysNumbers := by
  intro p e _ hnode u hu
  cases p with
  | none => cases hnode
  | some won =>
      cases hnode
      rw [List.mem_singleton.1 hu]
      cases won
      · exact hlow
      · exact hhigh

theorem two_wagers_are_plays_in_turn :
    ∃ h, ((wager (.int 3) (.int 1)).playInTurn cautious 2 2 2 .empty).start () =
        (.ok (some h), ()) ∧
      h.length = 2 ∧
        ComesTo (((wager (.int 3) (.int 1)).repeated twice "").play cautious 2 5) () h () := by
  have hpays : (wager (.int 3) (.int 1)).PaysNumbers := wager_paysNumbers rfl rfl
  have hwithin : 2 ≤ (2 : Int).toNat := by decide
  have hvisits : 2 * (2 : Int).toNat < 5 := by decide
  exact ⟨_, rfl, (repeated_play_is_plays_in_turn (r := twice) (wager_plain _ _) hpays rfl rfl rfl
    (by decide) hwithin hvisits "" ()).1 _ _ rfl⟩

/-- What two cautious wagers come to. -/
def twoWagers (high low : Value) : History :=
  ⟨[⟨⟨[low]⟩, some ⟨[.bool false]⟩, ⟨[⟨.int 0, .bool false⟩]⟩, none⟩,
    ⟨⟨[high]⟩, some ⟨[.bool true]⟩, ⟨[⟨.int 0, .bool true⟩]⟩, none⟩]⟩

theorem score_twoWagers {high low : Value} {f : Fault} (hsum : high.add low = .error f) :
    (twoWagers high low).score = .error f := by
  have hsize : [high].length = [low].length := rfl
  show (Payoff.add ⟨[high]⟩ (.payoff ⟨[low]⟩) >>= _) = _
  rw [Payoff.add_eq hsize, Value.addAll, hsum]
  rfl

/-- Two plays end, one after the other, and pay numbers. Played as one repeated game they fail,
since the first number is too large to be added to the second one. -/
theorem sum_of_payoffs_overflows :
    (wager (.int (Int.pow 10 400)) (.double 0.5)).PaysNumbers ∧
      ((wager (.int (Int.pow 10 400)) (.double 0.5)).playInTurn cautious 2 2 2 .empty).start () =
        (.ok (some (twoWagers (.int (Int.pow 10 400)) (.double 0.5))), ()) ∧
      (((wager (.int (Int.pow 10 400)) (.double 0.5)).repeated twice "").play cautious 2 5).start ()
        = (.error .overflow, ()) := by
  refine ⟨wager_paysNumbers rfl rfl, rfl, ?_⟩
  have hlarge : (Float.ofInt (Int.pow 10 400)).isInf = true := by decide +kernel
  have hsum : Value.add (.int (Int.pow 10 400)) (.double 0.5) = .error .overflow := by
    simp only [Value.add, Value.numeric, Value.plain, Value.whole?, Value.toDouble, hlarge]
    rfl
  have hscore := score_twoWagers hsum
  have hcount : twice.rounds = some 2 := rfl
  have hrounds : ((wager (.int (Int.pow 10 400)) (.double 0.5)).playRounds twice cautious 2 2
      .empty).start () = (.ok (twoWagers (.int (Int.pow 10 400)) (.double 0.5)), ()) := rfl
  rw [play_repeated_eq hcount (by decide) rfl "" (by decide), Run.start_bind_ok hrounds,
    History.summary_eq rfl, hscore]
  rfl

end Game

end ExtensiveForm
