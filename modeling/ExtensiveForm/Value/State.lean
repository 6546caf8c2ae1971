import ExtensiveForm.Value.Basic

/-!
# What a state tells

A state may carry the transcript of the play, the round in progress and the history of the rounds
before it. All other states tell nothing about these.
-/

namespace ExtensiveForm

namespace History

/-- How many rounds were completed. -/
def length (h : History) : Nat :=
  h.latestFirst.length

end History

namespace RoundState

/-- The round in progress, counted from zero. -/
def round (s : RoundState) : Nat :=
  s.history.length

end RoundState

namespace Value

/-- The transcript that a state carries. -/
def transcript? : Value → Option Transcript
  | .roundState s => some s.transcript
  | .outcome o => some o.transcript
  | .scope ⟨_, .transcript t, _, _⟩ => some t
  | _ => none

/-- The round that a state belongs to: nothing, for a state without one. -/
def round : Value → Value
  | .roundState s => .int s.round
  | .scope s => s.round
  | _ => .null

/-- The history that a state carries. -/
def history? : Value → Option History
  | .roundState s => some s.history
  | .outcome o => o.history
  | .scope ⟨_, _, _, .history h⟩ => some h
  | _ => none

end Value

end ExtensiveForm
