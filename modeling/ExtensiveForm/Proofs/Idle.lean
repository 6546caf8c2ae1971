import ExtensiveForm.Proofs.PlaysOut

/-!
# Rounds without a move

A round is idle when it ends without a decision or a move of chance. If only its history ends a
repeated game, such rounds could follow each other for ever in a single visit, and a bound of their
own is on them. `idle_rounds_are_bounded` says how many of them there may be. After a round with a
move the bound is what it says. At the beginning one more idle round is completed, because the
rounds of a visit are counted: those after a move are counted with the round of this move, but no
such round comes before the first one. `idle_round_beyond_bound` is a play in which this makes a
difference.
-/

namespace ExtensiveForm

namespace Round

variable {round : Round} {rounds : List Round}

/-- How many idle rounds were completed since the last round with a move, the latest round first. -/
def idle : List Round → Nat
  | [] => 0
  | round :: before => if round.moves = 0 then idle before + 1 else 0

/-- How many more idle rounds are allowed for: one, as long as there was none with a move. -/
def allowance : List Round → Nat
  | [] => 1
  | round :: before => if round.moves = 0 then allowance before else 0

/-- The rounds of one visit are the idle ones, and a round with a move before them. -/
theorem atOnce_add_allowance : atOnce rounds + allowance rounds = idle rounds + 1 := by
  induction rounds with
  | nil => rfl
  | cons round rounds ih =>
      rw [atOnce, allowance, idle]
      split <;> omega

end Round

namespace Game

variable {ω σ : Type} [Scale ω] {g : Game ω σ} {r : Repetition σ} {ps : Participants ω σ}
  {maxDepth : Int} {limit : Nat} {rounds : List Round} {round : Round} {s s₁ s₂ s₃ s' : σ}

/-- Too many rounds were completed at once when there are more idle ones than allowed. -/
theorem tired_iff_idle (hrounds : r.rounds = none) :
    r.Tired rounds ↔ r.maxDepth.toNat + Round.allowance rounds ≤ Round.idle rounds := by
  have hcount : Round.atOnce rounds + Round.allowance rounds = Round.idle rounds + 1 :=
    Round.atOnce_add_allowance
  rw [Repetition.Tired, hrounds]
  simp only [true_and]
  omega

/-- Where another round begins there are fewer idle rounds than allowed. -/
theorem Leads.idle_lt (h : g.Leads r ps limit s rounds s₁) (hrounds : r.rounds = .none) :
    Round.idle rounds < r.maxDepth.toNat + Round.allowance rounds := by
  cases h with
  | none => exact Nat.succ_pos _
  | next _ _ _ hready => exact Nat.lt_of_not_le (mt (tired_iff_idle hrounds).2 hready)

/-- There are never more idle rounds than allowed. -/
theorem Leads.idle_le (h : g.Leads r ps limit s rounds s₁) (hrounds : r.rounds = .none)
    (round : Round) :
    Round.idle (round :: rounds) ≤ r.maxDepth.toNat + Round.allowance (round :: rounds) := by
  have hless := h.idle_lt hrounds
  rw [Round.idle, Round.allowance]
  split <;> omega

/-- How many rounds without a decision or a move of chance may follow each other, when only the
history ends a repeated game. After a round with a move they are never more than the bound on them
says, and at the beginning never more than that and one. If the game is not over with that many of
them, the play is given up, and the bound on these rounds is told. Otherwise the next round begins;
so it does after every round with a move, unless the bound is zero. -/
theorem idle_rounds_are_bounded (hrounds : r.rounds = none)
    (hcheck : ps.check g.numPlayers = .ok ())
    (hdepth : 1 ≤ maxDepth) (name : String)
    (hleads : g.Leads r ps maxDepth.toNat s rounds s₁)
    (hround : g.Completes ps maxDepth.toNat (Round.history rounds) s₁ round s₂) :
    Round.idle (round :: rounds) ≤ r.maxDepth.toNat + Round.allowance (round :: rounds) ∧
      ∀ s₃, (r.isFinished (Round.history (round :: rounds))).start s₂ = (.ok false, s₃) →
        (Round.idle (round :: rounds) = r.maxDepth.toNat + Round.allowance (round :: rounds) →
          ∀ visits, (rounds.length + 1) * maxDepth.toNat < visits →
            ((g.repeated r name).play ps maxDepth visits).start s =
              (.error (.nonterminating r.maxDepth round.state), s₃)) ∧
        (Round.idle (round :: rounds) ≠ r.maxDepth.toNat + Round.allowance (round :: rounds) →
          g.Leads r ps maxDepth.toNat s (round :: rounds) s₃) ∧
        (0 < round.moves → 1 ≤ r.maxDepth →
          g.Leads r ps maxDepth.toNat s (round :: rounds) s₃) := by
  have hle := hleads.idle_le hrounds round
  have htired : r.Tired (round :: rounds) ↔ r.maxDepth.toNat +
      Round.allowance (round :: rounds) ≤ Round.idle (round :: rounds) := tired_iff_idle hrounds
  refine ⟨hle, fun s₃ hgoesOn => ⟨fun hreached visits hvisits => ?_, fun hbelow => ?_,
    fun hmoves hbound => ?_⟩⟩
  · have hends := PlaysOut.tired hleads hround hgoesOn (htired.2 (Nat.le_of_eq hreached.symm))
    exact hends.play hcheck hdepth name hvisits
  · refine .next hleads hround hgoesOn (mt htired.1 fun hreached => ?_)
    exact hbelow (Nat.le_antisymm hle hreached)
  · refine .next hleads hround hgoesOn (mt htired.1 ?_)
    rw [Round.idle, Round.allowance, if_neg (Nat.ne_of_gt hmoves), if_neg (Nat.ne_of_gt hmoves)]
    omega

/-- A game that ends at once. -/
def still : Game Rat Unit where
  kind := "TreeGame"
  name := "still"
  numPlayers := 1
  tree :=
    { Position := Unit
      node := fun _ => .terminal ⟨⟨[.int 1]⟩, none, none, .null⟩
      next := fun _ _ => return none }
  root := return ()
  legal _ _ := .ok []

/-- Nobody is there to be asked. -/
def nobody : Participants Rat Unit where
  players := []
  ask _ := none
  uniform := return 0

/-- What comes of a game that ends at once. -/
def stillOutcome : Outcome :=
  ⟨⟨[.int 1]⟩, none, .empty, none⟩

/-- Its only round. -/
def stillRound : Round :=
  ⟨0, .null, stillOutcome⟩

/-- Until there are so many rounds, and with this bound on those without a move. -/
def upTo (count : Nat) (maxDepth : Int) : Repetition Unit :=
  .judged (fun h => return .bool (decide (count ≤ h.length))) maxDepth

theorem still_completes (h : History) : still.Completes nobody 1 h () stillRound () :=
  ⟨Nat.zero_le 1, ⟨(), .empty, ()⟩, _, ⟨(), (), rfl, .none _⟩, rfl, rfl, rfl, rfl⟩

/-- With a bound of one idle round the game that ends at once goes on after one of them, and is
given up after two. -/
theorem still_is_given_up :
    still.Leads (upTo 3 1) nobody 1 () [stillRound] () ∧
      ((still.repeated (upTo 3 1) "").play nobody 1 3).start () =
        (.error (.nonterminating 1 .null), ()) := by
  have hfirst : still.Leads (upTo 3 1) nobody 1 () [stillRound] () :=
    ((idle_rounds_are_bounded rfl rfl (Int.le_refl 1) "" .none (still_completes _)).2 ()
      rfl).2.1 (by decide)
  have hsecond := idle_rounds_are_bounded rfl rfl (Int.le_refl 1) "" hfirst (still_completes _)
  exact ⟨hfirst, (hsecond.2 () rfl).1 (by decide) 3 (by decide)⟩

/-- A bound of one idle round does not keep a game that ends at once from being played twice, and a
bound of none keeps a game from being played twice that is never idle. -/
theorem idle_round_beyond_bound :
    (∃ o, ((still.repeated (upTo 2 1) "").play nobody 1 1).start () = (.ok (some o), ()) ∧
      o.history = some ⟨[stillOutcome, stillOutcome]⟩) ∧
    ((solo.repeated (upTo 2 0) "").play willing 1 3).start () =
      (.error (.nonterminating 0 .null), ()) :=
  ⟨⟨_, rfl, rfl⟩, rfl⟩

end Game

end ExtensiveForm
