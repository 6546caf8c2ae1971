import ExtensiveForm.Strategy.Candidate
import ExtensiveForm.Proofs.Run

/-!
# Strategies asked call after call

A strategy is asked again and again. Each call shows it a context, and the generator of the play is
as the play has left it, so nothing is assumed about the generators of calls that follow each other.
What comes of a series of calls: the strategy afterwards (`Strategy.asked`), and its replies
(`Strategy.replies`). A function that serves as a condition has a series of verdicts likewise.
-/

namespace ExtensiveForm

/-- What a strategy is asked: what it is shown, and the generator of the play at this moment. -/
structure Call (ω : Type) where
  context : Context
  generator : Generator ω

variable {μ ω : Type}

namespace Responder

/-- The function after it has been asked about some contexts, one after another. -/
def asked (r : Responder μ) (contexts : List Context) : Responder μ :=
  contexts.foldl (fun r c => (r.ask c).2) r

/-- What the function says of some contexts, one after another, when it is taken as a condition. -/
def verdicts (r : Responder μ) : List Context → List (Except Fault Bool)
  | [] => []
  | c :: contexts => (r.holds c).1 :: verdicts (r.holds c).2 contexts

/-- A condition holds by its verdict. -/
def affirms : Except Fault Bool → Bool
  | .ok verdict => verdict
  | .error _ => false

/-- The place of the first of some contexts in which a condition holds. If it holds in none of them,
this is how many they are. -/
def firstHeld (r : Responder μ) (contexts : List Context) : Nat :=
  (r.verdicts contexts).findIdx affirms

theorem firstHeld_cons (r : Responder μ) (c : Context) (contexts : List Context) :
    r.firstHeld (c :: contexts) =
      bif affirms (r.holds c).1 then 0 else (r.holds c).2.firstHeld contexts + 1 :=
  List.findIdx_cons

/-- The function keeps no memory: answering leaves it as it is. -/
def Stateless (r : Responder μ) : Prop :=
  ∀ c, (r.ask c).2 = r

end Responder

namespace Strategy

variable [Scale ω]

/-- The reply of a strategy to a call. -/
def reply (s : Strategy μ ω) (call : Call ω) : Reply (Strategy μ ω) ω :=
  s.next call.context call.generator

/-- The strategy after some calls. -/
def asked (s : Strategy μ ω) (calls : List (Call ω)) : Strategy μ ω :=
  calls.foldl (fun s call => (s.reply call).after) s

/-- What the strategy answers to some calls, one after another, each time with the generator that it
leaves to the play. -/
def replies (s : Strategy μ ω) : List (Call ω) → List (Except Fault Value × Generator ω)
  | [] => []
  | call :: calls =>
      ((s.reply call).answer, (s.reply call).generator) :: (s.reply call).after.replies calls

variable {s : Strategy μ ω} {ss : List (Strategy μ ω)} {place : Nat}

/-- The strategy at a place of a list answers, and only this one goes on. -/
theorem nextAt_eq (h : ss[place]? = some s) (c : Context) (g : Generator ω) :
    nextAt ss place c g = (s.next c g).map (ss.set place ·) := by
  induction ss generalizing place with
  | nil => cases h
  | cons first rest ih =>
      cases place with
      | zero =>
          cases h
          rfl
      | succ place =>
          rw [nextAt, ih h]
          rfl

/-- Nobody answers at a place where there is no strategy. -/
theorem nextAt_none (h : ss[place]? = none) (c : Context) (g : Generator ω) :
    nextAt ss place c g = ⟨.error .indexOutOfRange, ss, g⟩ := by
  induction ss generalizing place with
  | nil => rfl
  | cons first rest ih =>
      cases place with
      | zero => cases h
      | succ place =>
          rw [nextAt, ih h]
          rfl

/-! ### Strategies as they are built -/

section Built

variable {candidates : List (Candidate μ ω)} {condition : Responder μ} {x y : Candidate μ ω}

theorem inTurn_eq_ok_iff :
    inTurn candidates = .ok s ↔
      candidates ≠ [] ∧
        ∃ ss, candidates.mapM Candidate.asStrategy = .ok ss ∧ s = .periodic ss 0 := by
  cases candidates with
  | nil =>
      refine iff_of_false (fun h => ?_) fun h => h.1 rfl
      cases h
  | cons first rest =>
      have hbuild : inTurn (first :: rest) =
          (first :: rest).mapM Candidate.asStrategy >>= fun ss => .ok (.periodic ss 0) := rfl
      rw [hbuild, Run.except_bind_eq_ok, and_iff_right (List.cons_ne_nil first rest)]
      simp only [Except.ok.injEq, eq_comm]

theorem onCondition_eq_ok_iff :
    onCondition condition x y = .ok s ↔
      ∃ a b, x.asStrategy = .ok a ∧ y.asStrategy = .ok b ∧ s = .conditional condition a b := by
  simp only [onCondition, Run.except_bind_eq_ok, exists_and_left]
  simp only [Pure.pure, Except.pure, Except.ok.injEq, eq_comm]

theorem onTrigger_eq_ok_iff :
    onTrigger condition x y = .ok s ↔
      ∃ a b, x.asStrategy = .ok a ∧ y.asStrategy = .ok b ∧ s = .trigger condition a b false := by
  simp only [onTrigger, Run.except_bind_eq_ok, exists_and_left]
  simp only [Pure.pure, Except.pure, Except.ok.injEq, eq_comm]

end Built

end Strategy

end ExtensiveForm
