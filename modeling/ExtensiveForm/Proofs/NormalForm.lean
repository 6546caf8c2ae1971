import ExtensiveForm.Game.PayoffTable
import ExtensiveForm.Proofs.Faults
import ExtensiveForm.Proofs.Matching

/-!
# Profiles and payoffs of games in normal form

A profile is valid when each player chooses one of the declared moves, or one that matches it
(`isValidProfile_iff`). Then nothing stands between the rules of the game and its payoff,
`payoff_of_valid`.

A game in normal form is made of sets of moves, of which there has to be one and none of which may
be empty; otherwise it is `Refused`. Such faults have a wording and tell what was wrong with the
data, unless the wording would show a number with too many digits.
-/

namespace ExtensiveForm

/-- The fault tells why something was refused, if that can be written. -/
def Fault.IsRefusal (e : Fault) : Prop :=
  ∃ why, e = .told (.refused why)

/-- What was to be built is refused, and the reason is told. -/
def Refused {α : Type} (x : Except Fault α) : Prop :=
  ∃ e : Fault, e.IsRefusal ∧ x = .error e

/-- A reason that shows no values is told in any case. -/
theorem Fault.isRefusal {why : Refusal} (h : why.shown = []) : (Fault.refused why).IsRefusal := by
  refine ⟨why, (told_eq ?_).symm⟩
  simp only [shown, h, List.not_mem_nil, false_implies, implies_true]

/-- The fault is a refusal, unless the condition does not hold under which all keys that are needed
can be keys. -/
def Fault.IsRefusalIf (P : Prop) (e : Fault) : Prop :=
  e.IsRefusal ∨ e = .wrongType ∧ ¬ P

/-- What fails only in these ways gives a result, is refused, or looks for what is no key. -/
theorem FailsWith.ok_or_refused {α : Type} {P : Prop} {x : Except Fault α}
    (h : FailsWith (Fault.IsRefusalIf P) x) :
    (∃ a, x = .ok a) ∨ Refused x ∨ x = .error .wrongType ∧ ¬ P := by
  cases x with
  | ok a => exact .inl ⟨a, rfl⟩
  | error e =>
      rcases h e rfl with hrefusal | ⟨rfl, hkeys⟩
      · exact .inr (.inl ⟨e, hrefusal, rfl⟩)
      · exact .inr (.inr ⟨rfl, hkeys⟩)

namespace NormalForm

variable {σ : Type} {g : NormalForm σ} {p : Profile} {name : String} {moveSets : List (List Value)}
  {payoffOf : Profile → Run σ Value}

/-! ### How a game is made -/

theorem make_eq_ok (h : make name moveSets payoffOf = .ok g) :
    g.moveSets = moveSets ∧ g.payoffOf = payoffOf := by
  unfold make at h
  split at h
  · cases h
  · split at h
    · cases h
      exact ⟨rfl, rfl⟩
    · cases h

theorem exists_make (hplayer : moveSets ≠ []) (hmoves : ∀ moves ∈ moveSets, moves ≠ []) :
    ∃ g : NormalForm σ, make name moveSets payoffOf = .ok g := by
  rw [make, dif_neg hplayer, dif_pos hmoves]
  exact ⟨_, rfl⟩

theorem make_fails :
    FailsWith Fault.IsRefusal (make name moveSets payoffOf : Except Fault (NormalForm σ)) := by
  unfold make
  split
  · exact .error (Fault.isRefusal rfl)
  · split
    · exact .ok _
    · exact .error (Fault.isRefusal rfl)

theorem exists_make_iff : (∃ g : NormalForm σ, make name moveSets payoffOf = .ok g) ↔
    moveSets ≠ [] ∧ ∀ moves ∈ moveSets, moves ≠ [] := by
  constructor
  · rintro ⟨g, hg⟩
    rw [← (make_eq_ok hg).1]
    exact ⟨g.hasPlayer, g.hasMoves⟩
  · rintro ⟨hplayer, hmoves⟩
    exact exists_make hplayer hmoves

/-! ### Valid profiles -/

/-- A profile is valid when the move of each player is among those declared for that player. -/
theorem isValidProfile_iff : g.isValidProfile p = true ↔
    List.Forall₂ (fun move moves => move.isAmong moves = true) p.moves g.moveSets := by
  rw [isValidProfile, Bool.and_eq_true, beq_iff_eq, List.all_eq_true, List.forall₂_iff_zip]
  exact and_congr_right fun _ => Prod.forall

/-- Nobody has made an illegal move in a valid profile. -/
theorem firstIllegal?_of_valid (h : g.isValidProfile p = true) : g.firstIllegal? p = none := by
  rw [firstIllegal?, List.findSome?_eq_none_iff]
  rintro ⟨⟨move, moves⟩, player⟩ hmem
  obtain ⟨hless, heq⟩ := List.mem_zipIdx' hmem
  exact if_pos ((List.forall₂_iff_zip.1 (isValidProfile_iff.1 h)).2 (heq ▸ List.getElem_mem hless))

/-- The payoff of a valid profile is what the rules say. -/
theorem payoff_of_valid (h : g.isValidProfile p = true) :
    g.payoff p = (do
      match ← g.payoffOf p with
      | .null => throw (.told (.unmapped (.tuple p.moves) .null))
      | v => Payoff.ofValue v) := by
  have hlength : p.moves.length = g.numPlayers := (isValidProfile_iff.1 h).length_eq
  rewrite [payoff, if_pos hlength, firstIllegal?_of_valid h]
  rfl

/-- Rules that give a payoff at once pay it for every valid profile. -/
theorem payoff_eq_pure (h : g.isValidProfile p = true) {v : Value} {utilities : List Value}
    (hpayoff : g.payoffOf p = pure v) (hv : v.items = .ok utilities) :
    g.payoff p = pure ⟨utilities⟩ := by
  rw [payoff_of_valid h, hpayoff, pure_bind]
  have hread : (liftM (Payoff.ofValue v) : Run σ Payoff) = pure ⟨utilities⟩ := by
    rw [Payoff.ofValue, hv]
    rfl
  cases v with
  | null => cases hv
  | _ => exact hread

/-- A valid profile matches a choice of declared moves. -/
theorem exists_choice_of_valid (h : g.isValidProfile p = true) :
    ∃ choice ∈ choices g.moveSets, Value.AllAlike p.moves choice :=
  exists_choice_of_among (isValidProfile_iff.1 h).flip

/-- A choice of declared moves that match themselves is a valid profile. -/
theorem isValidProfile_of_mem_choices {moves : List Value} (hmoves : moves ∈ choices g.moveSets)
    (hself : Value.AllAlike moves moves) : g.isValidProfile ⟨moves⟩ = true := by
  rw [isValidProfile_iff]
  refine (forall₂_mem (mem_choices.1 hmoves)).flip.imp fun move declared hmove => ?_
  exact List.any_eq_true.2 ⟨move, hmove.1, List.forall₂_same.1 hself move hmove.2⟩

/-- A game is for zero when the utilities of every profile of declared moves add up to zero. -/
theorem isZeroSum_eq_true (h : ∀ moves ∈ choices g.moveSets, ∃ utilities,
    g.payoff ⟨moves⟩ = pure ⟨utilities⟩ ∧ Value.sum utilities = .ok (.int 0)) :
    g.isZeroSum = pure true := by
  have hall (ps : List Profile) (hps : ∀ p ∈ ps, ∃ utilities,
      g.payoff p = pure ⟨utilities⟩ ∧ Value.sum utilities = .ok (.int 0)) :
      g.sumToZero ps = pure true := by
    induction ps with
    | nil => rfl
    | cons p ps ih =>
        rw [List.forall_mem_cons] at hps
        obtain ⟨⟨utilities, hpayoff, hsum⟩, hrest⟩ := hps
        rw [sumToZero, hpayoff, pure_bind, hsum, Run.liftM_ok, pure_bind]
        exact (if_pos rfl).trans (ih hrest)
  refine hall _ fun p hp => ?_
  obtain ⟨moves, hmoves, rfl⟩ := List.mem_map.1 hp
  exact h moves hmoves

end NormalForm

end ExtensiveForm
