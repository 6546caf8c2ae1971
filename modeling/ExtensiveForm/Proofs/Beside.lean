import ExtensiveForm.Proofs.Answers
import ExtensiveForm.Proofs.Draws
import ExtensiveForm.Proofs.Log

/-!
# Something beside the state

A play does not notice what stands beside the state of its surroundings. `Participants.noted` note
there what they are shown, and a computation that stands `beside` it leaves it as it is. What is
decided without it is decided with it, `Walk.decide_noted`.
-/

namespace ExtensiveForm

variable {ω σ ν α : Type} [Scale ω]

/-- The same computation, with something beside the state, which it changes in this way. -/
def Run.beside (note : ν → ν) (x : Run σ α) : Run (σ × ν) α :=
  fun (s, a) =>
    let (result, s) := x.start s
    (result, (s, note a))

theorem Run.start_beside {note : ν → ν} {x : Run σ α} {s s' : σ} {result : Except Fault α}
    (h : x.start s = (result, s')) (a : ν) :
    (x.beside note).start (s, a) = (result, (s', note a)) := by
  show ((x.start s).1, ((x.start s).2, note a)) = _
  rw [h]

/-- The same tree, with something beside the state that its rules leave as it is. -/
def Tree.beside (ν : Type) (t : Tree ω σ) : Tree ω (σ × ν) :=
  t.withNext fun p key => (t.next p key).beside id

/-- The same game, with something beside the state that its rules leave as it is. -/
def Game.beside (ν : Type) (g : Game ω σ) : Game ω (σ × ν) where
  kind := g.kind
  name := g.name
  numPlayers := g.numPlayers
  tree := g.tree.beside ν
  root := g.root.beside id
  legal := g.legal

/-- The same participants, who note beside the state what they are shown. -/
def Participants.noted (ps : Participants ω σ) (note : Context → ν → ν) :
    Participants ω (σ × ν) where
  players := ps.players
  ask player := (ps.ask player).map fun ask c => (ask c).beside (note c)
  uniform := fun (s, a) =>
    let (u, s) := ps.uniform s
    (u, (s, a))

/-- The same participants, with something beside the state that they leave as it is. -/
def Participants.beside (ν : Type) (ps : Participants ω σ) : Participants ω (σ × ν) :=
  ps.noted fun _ a => a

omit [Scale ω] in
/-- Participants with a log of what they are shown note it there. -/
theorem Participants.logged_eq (P : Type) (ps : Participants ω σ) :
    ps.logged P = ps.noted fun c log => .asked c :: log := rfl

namespace Participants

variable {ps : Participants ω σ} {note : Context → ν → ν} {s s' : σ}

omit [Scale ω] in
theorem answer_noted {c : Context} {move : Value} (h : (ps.answer c).start s = (.ok move, s'))
    (a : ν) : ((ps.noted note).answer c).start (s, a) = (.ok move, (s', note c a)) := by
  obtain ⟨p, ask, hplayer, hless, hask, hanswer⟩ := answer_eq_ok_iff.1 h
  refine answer_eq_ok_iff.2
    ⟨p, fun c => (ask c).beside (note c), hplayer, hless, ?_, Run.start_beside hanswer a⟩
  show (ps.ask p).map _ = _
  rw [hask, Option.map_some]

omit [Scale ω] in
/-- Everyone who answers has noted it, in this order. -/
theorem answers_noted {contexts : List Context} {moves : List Value}
    (h : (contexts.mapM ps.answer).start s = (.ok moves, s')) (a : ν) :
    (contexts.mapM (ps.noted note).answer).start (s, a) =
      (.ok moves, (s', contexts.foldl (fun a c => note c a) a)) := by
  induction contexts generalizing s moves a with
  | nil =>
      cases h
      rfl
  | cons c contexts ih =>
      rw [List.mapM_cons] at h ⊢
      obtain ⟨move, s₁, hmove, h⟩ := Run.start_bind_eq_ok.1 h
      obtain ⟨moves', s₂, hmoves, heq⟩ := Run.start_bind_eq_ok.1 h
      cases heq
      rw [Run.start_bind_ok (answer_noted hmove a), Run.start_bind_ok (ih hmoves _),
        Run.start_pure, List.foldl_cons]

end Participants

namespace Walk

variable {ps : Participants ω σ} {note : Context → ν → ν} {numPlayers : Int}
  {transcript : Transcript} {n : Node ω} {key : Value} {s s' : σ}

/-- The same is decided, and everyone who decides has noted it. -/
theorem decide_noted (h : (decide ps numPlayers transcript n).start s = (.ok key, s')) (a : ν) :
    (decide (ps.noted note) numPlayers transcript n).start (s, a) =
      (.ok key, (s', (n.contexts numPlayers transcript).foldl (fun a c => note c a) a)) := by
  by_cases hchance : ∃ d state, n = .chance d state
  · obtain ⟨d, state, rfl⟩ := hchance
    obtain ⟨hproper, hpick, rfl⟩ := Distribution.sample_eq_ok_iff.1 h
    exact Distribution.sample_eq_ok_iff.2 ⟨hproper, hpick, rfl⟩
  · have hplayers : ∀ d state, n ≠ .chance d state := fun d state h => hchance ⟨d, state, h⟩
    obtain ⟨moves, hjoins, hoffered, hmoves, hlegal⟩ := (Node.decide_eq_ok_iff hplayers).1 h
    exact (Node.decide_eq_ok_iff hplayers).2
      ⟨moves, hjoins, hoffered, Participants.answers_noted hmoves a, hlegal⟩

theorem decide_beside (h : (decide ps numPlayers transcript n).start s = (.ok key, s')) (a : ν) :
    (decide (ps.beside ν) numPlayers transcript n).start (s, a) = (.ok key, (s', a)) := by
  rw [Participants.beside, decide_noted h, List.foldl_fixed]

end Walk

theorem Tree.follow_beside {t : Tree ω σ} {p q : t.Position} {key : Value} {s s' : σ}
    (h : (t.follow p key).start s = (.ok q, s')) (a : ν) :
    ((t.beside ν).follow p key).start (s, a) = (.ok q, (s', a)) := by
  obtain ⟨found, hfound, hnext⟩ := Tree.follow_eq_ok.1 h
  exact Tree.follow_eq_ok.2 ⟨found, hfound, Run.start_beside hnext a⟩

end ExtensiveForm
