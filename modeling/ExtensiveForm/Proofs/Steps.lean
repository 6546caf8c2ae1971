import ExtensiveForm.Proofs.Walk

/-!
# Walks key by key

`Walk.Follows` tells a walk by the keys that are decided for, one for each node that is left behind,
together with the state of the surroundings before and after. `run_eq_some_iff` says that a play
comes to an outcome by following some keys to an end of the game, and in no other way.
-/

namespace ExtensiveForm.Walk

variable {ω σ : Type} [Scale ω] {t : Tree ω σ} {ps : Participants ω σ} {numPlayers maxDepth : Int}
  {v w : Walk t.Position} {s s' : σ} {keys : List Value}

/-- Some keys are decided for and followed one after another, each of them before the bound is
reached. -/
inductive Follows (t : Tree ω σ) (ps : Participants ω σ) (numPlayers maxDepth : Int) :
    Walk t.Position → σ → List Value → Walk t.Position → σ → Prop
  | nil (w : Walk t.Position) (s : σ) : Follows t ps numPlayers maxDepth w s [] w s
  | cons {w v : Walk t.Position} {child : t.Position} {key : Value} {keys : List Value}
      {s s₁ s₂ s' : σ} (hbound : ¬ maxDepth ≤ w.enter.visited)
      (hnode : (t.node w.position).goesOn = true)
      (hkey : (decide ps numPlayers w.transcript (t.node w.position)).start s = (.ok key, s₁))
      (hchild : (t.follow w.position key).start s₁ = (.ok child, s₂))
      (hrest : Follows t ps numPlayers maxDepth (w.enter.goOn key child) s₂ keys v s') :
      Follows t ps numPlayers maxDepth w s (key :: keys) v s'

/-- The walk is in front of an end of the game that gives this outcome. -/
def Finishes (t : Tree ω σ) (numPlayers maxDepth : Int) (w : Walk t.Position) (o : Outcome) :
    Prop :=
  ¬ maxDepth ≤ w.enter.visited ∧
    ∃ e, t.node w.position = .terminal e ∧ e.outcome w.transcript numPlayers = .ok o

@[simp] theorem goOn_position (key : Value) (child : t.Position) :
    (w.goOn key child).position = child := rfl

@[simp] theorem enter_goOn_transcript (key : Value) (child : t.Position) :
    (w.enter.goOn key child).transcript = (t.node child).state.transcript?.getD
      (w.transcript.addAll ((t.node w.position).plies key)) := by
  rw [goOn, enter_position, enter_transcript]

/-- A visit that goes on is a decision for a key, which is then followed. -/
theorem run_goOn (hbound : ¬ maxDepth ≤ w.enter.visited)
    (hnode : (t.node w.position).goesOn = true) (visits : Nat) :
    run t ps numPlayers maxDepth (visits + 1) w = (do
      let key ← decide ps numPlayers w.transcript (t.node w.position)
      let child ← t.follow w.position key
      run t ps numPlayers maxDepth visits (w.enter.goOn key child)) := by
  rw [run_goesOn hbound hnode]
  simp only [goOn, enter_position, enter_transcript]

/-- A play goes on from where the keys lead as if it had begun there. -/
theorem Follows.run (h : Follows t ps numPlayers maxDepth w s keys v s') (visits : Nat) :
    (run t ps numPlayers maxDepth (keys.length + visits) w).start s =
      (run t ps numPlayers maxDepth visits v).start s' := by
  induction h with
  | nil => rw [List.length_nil, Nat.zero_add]
  | cons hbound hnode hkey hchild _ ih =>
      rw [List.length_cons, Nat.succ_add, run_goOn hbound hnode, Run.start_bind_ok hkey,
        Run.start_bind_ok hchild, ih]

/-- The end of the game gives its outcome. -/
theorem Finishes.run {o : Outcome} (h : Finishes t numPlayers maxDepth w o) (visits : Nat) :
    (run t ps numPlayers maxDepth (visits + 1) w).start s = (.ok (some o), s) := by
  obtain ⟨hbound, e, hnode, houtcome⟩ := h
  rw [run_terminal hbound hnode, houtcome]
  rfl

/-- A visit after which the walk goes on is a decision for a key, which is followed. -/
theorem step_eq_inl {next : Walk t.Position}
    (h : (w.step t ps numPlayers maxDepth).start s = (.ok (.inl next), s')) :
    ¬ maxDepth ≤ w.enter.visited ∧ (t.node w.position).goesOn = true ∧ ∃ key s₁ child,
      (decide ps numPlayers w.transcript (t.node w.position)).start s = (.ok key, s₁) ∧
      (t.follow w.position key).start s₁ = (.ok child, s') ∧ next = w.enter.goOn key child := by
  rw [step_eq] at h
  by_cases hbound : maxDepth ≤ w.enter.visited
  · rw [if_pos hbound] at h
    cases h
  rw [if_neg hbound] at h
  refine ⟨hbound, ?_⟩
  rcases (t.node w.position).goesOn_or with ⟨e, hnode⟩ | ⟨stray, hnode⟩ | hnode
  · rw [advance_terminal (by rwa [enter_position])] at h
    obtain ⟨o, s₁, -, heq⟩ := Run.start_bind_eq_ok.1 h
    cases heq
  · unfold advance at h
    rw [enter_position, hnode] at h
    cases h
  · rw [advance_goesOn (by rwa [enter_position])] at h
    obtain ⟨key, s₁, hkey, h⟩ := Run.start_bind_eq_ok.1 h
    obtain ⟨child, s₂, hchild, heq⟩ := Run.start_bind_eq_ok.1 h
    rw [enter_position, enter_transcript] at hkey
    rw [enter_position] at hchild
    cases heq
    exact ⟨hnode, key, s₁, child, hkey, hchild, rfl⟩

/-- A play comes to an outcome by following keys to an end of the game. -/
theorem run_eq_some_iff {visits : Nat} {o : Outcome} :
    (run t ps numPlayers maxDepth visits w).start s = (.ok (some o), s') ↔
      ∃ keys v, Follows t ps numPlayers maxDepth w s keys v s' ∧ keys.length < visits ∧
        Finishes t numPlayers maxDepth v o := by
  constructor
  · intro h
    induction visits generalizing w s with
    | zero => cases h
    | succ visits ih =>
        by_cases hbound : maxDepth ≤ w.enter.visited
        · rw [run_cut_off hbound] at h
          cases h
        rcases (t.node w.position).goesOn_or with ⟨e, hnode⟩ | ⟨stray, hnode⟩ | hnode
        · rw [run_terminal hbound hnode] at h
          obtain ⟨o', houtcome, heq⟩ := Run.start_liftM_bind_eq_ok.1 h
          cases heq
          exact ⟨[], w, .nil w _, Nat.zero_lt_succ _, hbound, e, hnode, houtcome⟩
        · rw [run_stray hbound hnode] at h
          cases h
        · rw [run_goOn hbound hnode] at h
          obtain ⟨key, s₁, hkey, h⟩ := Run.start_bind_eq_ok.1 h
          obtain ⟨child, s₂, hchild, h⟩ := Run.start_bind_eq_ok.1 h
          obtain ⟨keys, v, hfollows, hless, hfinishes⟩ := ih h
          exact ⟨key :: keys, v, .cons hbound hnode hkey hchild hfollows, Nat.succ_lt_succ hless,
            hfinishes⟩
  · rintro ⟨keys, v, hfollows, hless, hfinishes⟩
    obtain ⟨more, rfl⟩ : ∃ more, visits = keys.length + (more + 1) :=
      ⟨visits - keys.length - 1, by omega⟩
    rw [hfollows.run, hfinishes.run]

/-- A play fails where keys lead to a visit that does. -/
theorem run_eq_error_iff {visits : Nat} {f : Fault} :
    (run t ps numPlayers maxDepth visits w).start s = (.error f, s') ↔
      ∃ keys v s₁, Follows t ps numPlayers maxDepth w s keys v s₁ ∧ keys.length < visits ∧
        (v.step t ps numPlayers maxDepth).start s₁ = (.error f, s') := by
  constructor
  · intro h
    induction visits generalizing w s with
    | zero => cases h
    | succ visits ih =>
        rw [run, Run.start_bind_eq_error] at h
        rcases h with h | ⟨result, s₁, hstep, h⟩
        · exact ⟨[], w, s, .nil w s, Nat.zero_lt_succ _, h⟩
        · cases result with
          | inr o => cases h
          | inl next =>
              obtain ⟨hbound, hnode, key, s₀, child, hkey, hchild, rfl⟩ := step_eq_inl hstep
              obtain ⟨keys, v, s₂, hfollows, hless, hfails⟩ := ih h
              exact ⟨key :: keys, v, s₂, .cons hbound hnode hkey hchild hfollows,
                Nat.succ_lt_succ hless, hfails⟩
  · rintro ⟨keys, v, s₁, hfollows, hless, hfails⟩
    obtain ⟨more, rfl⟩ : ∃ more, visits = keys.length + (more + 1) :=
      ⟨visits - keys.length - 1, by omega⟩
    rw [hfollows.run, run]
    exact Run.start_bind_error hfails

end ExtensiveForm.Walk
