import ExtensiveForm.Value.Basic

/-!
# The bare form of a value

Comparing two values and writing a value down both look at what the value is made of, and not at
the types of its parts. `Value.form` takes a value apart once and for all: leaves that cannot be
taken apart, and groups of a kind with parts in order.
-/

namespace ExtensiveForm

/-- A value without parts. -/
inductive Leaf where
  | null
  | bool (b : Bool)
  | int (n : Int)
  | double (x : Float)
  | undefined (mark : Nat)
  | text (s : String)

/-- What sort of thing a group of parts is. -/
inductive Kind where
  | tuple
  | list
  | payoff
  | profile
  | ply
  | transcript
  | outcome
  | history
  | roundState
  | scope
  deriving DecidableEq

/-- A value taken apart. -/
inductive Form where
  | leaf (a : Leaf)
  | group (kind : Kind) (parts : List Form)

/-- The form of nothing. -/
def Form.null : Form := .leaf .null

mutual

/-- What a value is made of. -/
def Value.form : Value → Form
  | .null => .leaf .null
  | .bool b => .leaf (.bool b)
  | .int n => .leaf (.int n)
  | .double x => .leaf (.double x)
  | .undefined mark => .leaf (.undefined mark)
  | .text s => .leaf (.text s)
  | .tuple items => .group .tuple (Value.forms items)
  | .list items => .group .list (Value.forms items)
  | .payoff p => p.form
  | .profile p => p.form
  | .ply p => p.form
  | .transcript t => t.form
  | .outcome o => o.form
  | .history h => h.form
  | .roundState s => s.form
  | .scope s => s.form
termination_by structural v => v

/-- The forms of some values, in order. -/
def Value.forms : List Value → List Form
  | [] => []
  | v :: rest => v.form :: Value.forms rest
termination_by structural vs => vs

/-- The parts of a payoff are its utilities. -/
def Payoff.form : Payoff → Form
  | ⟨values⟩ => .group .payoff (Value.forms values)
termination_by structural p => p

/-- The parts of a profile are its moves. -/
def Profile.form : Profile → Form
  | ⟨moves⟩ => .group .profile (Value.forms moves)
termination_by structural p => p

/-- The parts of a ply are its player and its move. -/
def Ply.form : Ply → Form
  | ⟨player, move⟩ => .group .ply [player.form, move.form]
termination_by structural p => p

/-- The forms of some plies, in order. -/
def Ply.forms : List Ply → List Form
  | [] => []
  | p :: rest => p.form :: Ply.forms rest
termination_by structural ps => ps

/-- The parts of a transcript are its plies in the order in which they were made. -/
def Transcript.form : Transcript → Form
  | ⟨latestFirst⟩ => .group .transcript (Ply.forms latestFirst |>.reverse)
termination_by structural t => t

/-- The form of a profile that may be missing. -/
def Profile.formOr : Option Profile → Form
  | none => .leaf .null
  | some p => p.form
termination_by structural p => p

/-- The parts of an outcome are its payoff, profile, transcript and history. -/
def Outcome.form : Outcome → Form
  | ⟨payoff, profile, transcript, history⟩ =>
      .group .outcome
        [payoff.form, Profile.formOr profile, transcript.form, History.formOr history]
termination_by structural o => o

/-- The forms of some outcomes, in order. -/
def Outcome.forms : List Outcome → List Form
  | [] => []
  | o :: rest => o.form :: Outcome.forms rest
termination_by structural os => os

/-- The parts of a history are its outcomes in the order of the rounds. -/
def History.form : History → Form
  | ⟨latestFirst⟩ => .group .history (Outcome.forms latestFirst |>.reverse)
termination_by structural h => h

/-- The form of a history that may be missing. -/
def History.formOr : Option History → Form
  | none => .leaf .null
  | some h => h.form
termination_by structural h => h

/-- The parts of a round state are its history, the state of the stage game and its transcript. -/
def RoundState.form : RoundState → Form
  | ⟨history, stageState, transcript⟩ =>
      .group .roundState [history.form, stageState.form, transcript.form]
termination_by structural s => s

/-- The parts of a scope are its label, transcript, round and history. -/
def Scope.form : Scope → Form
  | ⟨label, transcript, round, history⟩ =>
      .group .scope [label.form, transcript.form, round.form, history.form]
termination_by structural s => s

end

end ExtensiveForm
