import ExtensiveForm.Play.Walk
import ExtensiveForm.Proofs.Run

/-!
# One visit after another

A visit is a check of the bound followed by what happens at the node. `Walk.advance` is the second
part alone, and `Walk.step_eq` says that a step is nothing else. `Walk.wander` is the walk with no
bound: it tells how a play would go on if nothing cut it off.
-/

namespace ExtensiveForm

namespace Node

variable {ω : Type} [Scale ω] {n : Node ω}

/-- The game goes on from this node. -/
def goesOn : Node ω → Bool
  | terminal _ => false
  | stray _ => false
  | _ => true

/-- The game ends at a node, there is no node, or the game goes on. -/
theorem goesOn_or (n : Node ω) :
    (∃ e, n = .terminal e) ∨ (∃ v, n = .stray v) ∨ n.goesOn = true := by
  cases n with
  | terminal e => exact .inl ⟨e, rfl⟩
  | stray v => exact .inr (.inl ⟨v, rfl⟩)
  | _ => exact .inr (.inr rfl)

theorem withState_state (h : n.goesOn = true) (s : Value) : (n.withState s).state = s := by
  cases n <;> first | rfl | cases h

@[simp] theorem withState_goesOn (s : Value) : (n.withState s).goesOn = n.goesOn := by
  cases n <;> rfl

@[simp] theorem withState_withState (s s' : Value) :
    (n.withState s).withState s' = n.withState s' := by
  cases n <;> rfl

@[simp] theorem withState_self (n : Node ω) : n.withState n.state = n := by
  cases n <;> rfl

theorem withState_ne_chance (h : ∀ d s, n ≠ .chance d s) (state : Value) (d : Distribution ω)
    (s : Value) : n.withState state ≠ .chance d s := by
  intro heq
  cases n <;> cases heq
  exact h _ _ rfl

@[simp] theorem withState_lookupKey (s key : Value) :
    (n.withState s).lookupKey key = n.lookupKey key := by
  cases n <;> rfl

@[simp] theorem withState_plies (s key : Value) : (n.withState s).plies key = n.plies key := by
  cases n <;> cases key <;> rfl

end Node

/-- A key leads to a position when it can be looked up and has a continuation. -/
theorem Tree.follow_eq_ok {ω σ : Type} [Scale ω] {t : Tree ω σ} {p q : t.Position} {key : Value}
    {s s' : σ} :
    (t.follow p key).start s = (.ok q, s') ↔
      ∃ found, (t.node p).lookupKey key = .ok found ∧
        (t.next p found).start s = (.ok (some q), s') := by
  simp only [Tree.follow, Run.start_bind_eq_ok, Run.start_liftM, Prod.mk.injEq]
  constructor
  · rintro ⟨found, _, ⟨hfound, rfl⟩, next, s₁, hnext, h⟩
    cases next with
    | none => cases h
    | some q' =>
        cases h
        exact ⟨found, hfound, hnext⟩
  · rintro ⟨found, hfound, hnext⟩
    exact ⟨found, s, ⟨hfound, rfl⟩, some q, s', hnext, rfl⟩

/-- Where the rules do nothing else, neither does following a key. -/
theorem Tree.follow_steady {ω σ : Type} [Scale ω] {t : Tree ω σ} {p : t.Position}
    (h : ∀ key, (t.next p key).Steady) (key : Value) : (t.follow p key).Steady := by
  refine .bind (.liftM _) fun found => .bind (h found) fun next => ?_
  cases next with
  | none => exact .throw _
  | some q => exact .pure q

/-- A key that is looked up as it is leads where the rules of the game say. -/
theorem Tree.follow_eq {ω σ : Type} [Scale ω] {t : Tree ω σ} {p : t.Position} {key : Value}
    {x : Run σ t.Position} (hkey : (t.node p).lookupKey key = .ok key)
    (hnext : t.next p key = do return some (← x)) : t.follow p key = x := by
  rw [follow, hkey, Run.liftM_ok, pure_bind, hnext, bind_assoc]
  simp only [pure_bind, bind_pure]

namespace Walk

variable {ω σ : Type} [Scale ω]

/-- What happens at the node of a walk that has entered it, whatever the bound: the walk goes on, or
the game ends. -/
def advance (t : Tree ω σ) (ps : Participants ω σ) (numPlayers : Int) (w : Walk t.Position) :
    Run σ (Walk t.Position ⊕ Outcome) :=
  match t.node w.position with
  | .terminal e => do return .inr (← e.outcome w.transcript numPlayers)
  | node => do
      let key ← decide ps numPlayers w.transcript node
      let child ← t.follow w.position key
      let played := w.transcript.addAll (node.plies key)
      return .inl
        ⟨child, (t.node child).state.transcript?.getD played, w.round, w.visited + 1⟩

/-- So many visits with no bound on them. -/
def wander (t : Tree ω σ) (ps : Participants ω σ) (numPlayers : Int) :
    Nat → Walk t.Position → Run σ (Walk t.Position ⊕ Outcome)
  | 0, w => return .inl w
  | visits + 1, w => do
      match ← w.enter.advance t ps numPlayers with
      | .inl w => wander t ps numPlayers visits w
      | .inr outcome => return .inr outcome

/-- From this state of the surroundings, a walk with no bound would never end. -/
def Endless (t : Tree ω σ) (ps : Participants ω σ) (numPlayers : Int) (w : Walk t.Position)
    (s : σ) : Prop :=
  ∀ visits, ∃ later s', (wander t ps numPlayers visits w).start s = (.ok (.inl later), s')

variable {t : Tree ω σ} {ps : Participants ω σ} {numPlayers maxDepth : Int}
  {w next : Walk t.Position} {s s' : σ}

/-- In the same round the count of visits goes on. -/
theorem enter_of_beq (h : ((t.node w.position).state.round == w.round) = true) : w.enter = w := by
  dsimp only [enter]
  rw [if_pos h]

/-- In another round the count of visits begins anew. -/
theorem enter_of_not_beq (h : ¬ ((t.node w.position).state.round == w.round) = true) :
    w.enter = { w with round := (t.node w.position).state.round, visited := 0 } := by
  dsimp only [enter]
  rw [if_neg h]

@[simp] theorem enter_position : w.enter.position = w.position := by
  dsimp only [enter]
  split <;> rfl

@[simp] theorem enter_transcript : w.enter.transcript = w.transcript := by
  dsimp only [enter]
  split <;> rfl

/-- A step checks the bound and then does what is to be done at the node. -/
theorem step_eq (t : Tree ω σ) (ps : Participants ω σ) (numPlayers maxDepth : Int)
    (w : Walk t.Position) :
    w.step t ps numPlayers maxDepth =
      if maxDepth ≤ w.enter.visited then
        throw (.nonterminating maxDepth (t.node w.position).state)
      else w.enter.advance t ps numPlayers := by
  dsimp only [step, advance]
  rw [enter_position]
  split <;> rfl

/-- Walks that agree once they have entered their node go on alike. -/
theorem run_congr {v : Walk t.Position} (h : v.enter = w.enter) (visits : Nat) :
    run t ps numPlayers maxDepth visits v = run t ps numPlayers maxDepth visits w := by
  cases visits with
  | zero => rfl
  | succ visits =>
      have hposition : v.position = w.position := by
        rw [← enter_position, h, enter_position]
      simp only [run, step_eq, h, hposition]

theorem advance_terminal {e : Ending} (hnode : t.node w.position = .terminal e) :
    w.advance t ps numPlayers = do return .inr (← e.outcome w.transcript numPlayers) := by
  unfold advance
  rw [hnode]

theorem advance_goesOn (hnode : (t.node w.position).goesOn = true) :
    w.advance t ps numPlayers = (do
      let key ← decide ps numPlayers w.transcript (t.node w.position)
      let child ← t.follow w.position key
      let played := w.transcript.addAll ((t.node w.position).plies key)
      return .inl
        ⟨child, (t.node child).state.transcript?.getD played, w.round, w.visited + 1⟩) := by
  unfold advance
  cases heq : t.node w.position with
  | terminal e =>
      rw [heq] at hnode
      cases hnode
  | _ => rfl

/-- A walk at its bound is cut off. -/
theorem run_cut_off (hbound : maxDepth ≤ w.enter.visited) (visits : Nat) :
    run t ps numPlayers maxDepth (visits + 1) w =
      throw (.nonterminating maxDepth (t.node w.position).state) := by
  rw [run, step_eq, if_pos hbound]
  rfl

/-- A walk that has come to the end of the game gives its outcome. -/
theorem run_terminal {e : Ending} (hbound : ¬ maxDepth ≤ w.enter.visited)
    (hnode : t.node w.position = .terminal e) (visits : Nat) :
    run t ps numPlayers maxDepth (visits + 1) w =
      do return some (← e.outcome w.transcript numPlayers) := by
  have hnode' : t.node w.enter.position = .terminal e := by rw [enter_position, hnode]
  rw [run, step_eq, if_neg hbound, advance_terminal hnode', enter_transcript]
  simp only [bind_assoc, pure_bind]

/-- A walk that has come to something that is no node fails. -/
theorem run_stray {v : Value} (hbound : ¬ maxDepth ≤ w.enter.visited)
    (hnode : t.node w.position = .stray v) (visits : Nat) :
    run t ps numPlayers maxDepth (visits + 1) w = throw (.told (.misused (.notNode v))) := by
  have hnode' : t.node w.enter.position = .stray v := by rw [enter_position, hnode]
  rw [run, step_eq, if_neg hbound]
  unfold advance
  rw [hnode']
  rfl

/-- Otherwise the players or chance choose a key, and the walk goes on where it leads. -/
theorem run_goesOn (hbound : ¬ maxDepth ≤ w.enter.visited)
    (hnode : (t.node w.position).goesOn = true) (visits : Nat) :
    run t ps numPlayers maxDepth (visits + 1) w = (do
      let key ← decide ps numPlayers w.transcript (t.node w.position)
      let child ← t.follow w.position key
      let played := w.transcript.addAll ((t.node w.position).plies key)
      run t ps numPlayers maxDepth visits ⟨child, (t.node child).state.transcript?.getD played,
        w.enter.round, w.enter.visited + 1⟩) := by
  have hnode' : (t.node w.enter.position).goesOn = true := by rw [enter_position, hnode]
  rw [run, step_eq, if_neg hbound, advance_goesOn hnode']
  simp only [bind_assoc, pure_bind, enter_position, enter_transcript]

/-- The walk that has followed a key to a child. -/
def goOn (w : Walk t.Position) (key : Value) (child : t.Position) : Walk t.Position :=
  ⟨child, (t.node child).state.transcript?.getD
    (w.transcript.addAll ((t.node w.position).plies key)), w.round, w.visited + 1⟩

/-- A key that a decision leads to is looked up as it is. -/
theorem lookupKey_of_decide {transcript : Transcript} {n : Node ω} {key : Value}
    (h : (decide ps numPlayers transcript n).start s = (.ok key, s')) :
    n.lookupKey key = .ok key := by
  cases n with
  | simultaneous n =>
      simp only [decide, Run.start_bind_eq_ok, Run.start_pure] at h
      obtain ⟨moves, _, _, ⟨⟩⟩ := h
      rfl
  | sequential player moves state => rfl
  | chance distribution state => rfl
  | terminal e => cases h
  | stray v => cases h

/-- A walk that goes on has followed a key, and counts one more visit of the same round. -/
theorem advance_inl (h : (w.advance t ps numPlayers).start s = (.ok (.inl next), s')) :
    ∃ key s₁, (t.follow w.position key).start s₁ = (.ok next.position, s') ∧
      next.round = w.round ∧ next.visited = w.visited + 1 := by
  unfold advance at h
  split at h
  · simp only [Run.start_bind_eq_ok, Run.start_pure] at h
    obtain ⟨_, _, _, ⟨⟩⟩ := h
  · simp only [Run.start_bind_eq_ok, Run.start_pure] at h
    obtain ⟨key, s₁, _, child, _, hchild, ⟨⟩⟩ := h
    exact ⟨key, s₁, hchild, rfl, rfl⟩

/-- A play that has ended does not change when more visits are allowed. -/
theorem run_mono {visits more : Nat} {result : Except Fault (Option Outcome)}
    (h : (run t ps numPlayers maxDepth visits w).start s = (result, s'))
    (hended : result ≠ .ok none) (hle : visits ≤ more) :
    (run t ps numPlayers maxDepth more w).start s = (result, s') := by
  -- By induction on the visits that were enough; what is allowed beyond them is never looked at.
  induction visits generalizing w s more with
  | zero =>
      cases h
      exact absurd rfl hended
  | succ visits ih =>
      obtain ⟨more, rfl⟩ : ∃ k, more = k + 1 := ⟨more - 1, by omega⟩
      simp only [run] at h ⊢
      rcases hstep : (w.step t ps numPlayers maxDepth).start s with ⟨f | v, s₁⟩
      · rw [Run.start_bind_error hstep] at h ⊢
        exact h
      · rw [Run.start_bind_ok hstep] at h ⊢
        cases v with
        | inl v => exact ih h (by omega)
        | inr o => exact h

/-- The key is one that some players, or chance, may choose at a node. -/
def MayLead (numPlayers : Int) (n : Node ω) (key : Value) : Prop :=
  ∃ (ps : Participants ω σ) (transcript : Transcript) (s s' : σ),
    (decide ps numPlayers transcript n).start s = (.ok key, s')

/-- The outcome of a walk is that of an end of the game, and the position of this end has whatever
the keys that may be chosen preserve. -/
theorem run_eq_some {P : t.Position → Prop}
    (hfollow : ∀ p q key s s', P p → MayLead (σ := σ) numPlayers (t.node p) key →
      (t.follow p key).start s = (.ok q, s') → P q)
    {visits : Nat} {o : Outcome} (hfirst : P w.position)
    (h : (run t ps numPlayers maxDepth visits w).start s = (.ok (some o), s')) :
    ∃ p e transcript, P p ∧ t.node p = .terminal e ∧
      e.outcome transcript numPlayers = .ok o := by
  induction visits generalizing w s with
  | zero => cases h
  | succ visits ih =>
      rw [run, step_eq, Run.start_bind_eq_ok] at h
      obtain ⟨result, s₁, hstep, h⟩ := h
      split at hstep
      · cases hstep
      · unfold advance at hstep
        rw [enter_position] at hstep
        split at hstep
        · rename_i e hnode
          simp only [Run.start_bind_eq_ok, Run.start_liftM, Run.start_pure] at hstep
          obtain ⟨o', s₂, ho, heq⟩ := hstep
          cases heq
          cases h
          exact ⟨_, e, _, hfirst, hnode, congrArg Prod.fst ho⟩
        · simp only [Run.start_bind_eq_ok, Run.start_pure] at hstep
          obtain ⟨key, s₂, hkey, child, s₃, hchild, heq⟩ := hstep
          cases heq
          exact ih (hfollow _ _ _ _ _ hfirst ⟨_, _, _, _, hkey⟩ hchild) h

/-- A play that would have to go on has not been cut off at its first node. -/
theorem run_succ_eq_none {visits : Nat}
    (h : ((run t ps numPlayers maxDepth (visits + 1) w).start s).1 = .ok none) :
    ∃ next s', (w.enter.advance t ps numPlayers).start s = (.ok (.inl next), s') ∧
      ((run t ps numPlayers maxDepth visits next).start s').1 = .ok none := by
  rw [run, step_eq] at h
  split at h
  · cases h
  · rcases hstep : (w.enter.advance t ps numPlayers).start s with ⟨f | next | o, s₁⟩
    · rw [Run.start_bind_error hstep] at h
      cases h
    · rw [Run.start_bind_ok hstep] at h
      exact ⟨next, s₁, rfl, h⟩
    · rw [Run.start_bind_ok hstep] at h
      cases h

/-- A play that never ends goes on for any number of visits, and does not end from there on. -/
theorem wander_of_run_eq_none
    (h : ∀ visits, ((run t ps numPlayers maxDepth visits w).start s).1 = .ok none) (n : Nat) :
    ∃ later s', (wander t ps numPlayers n w).start s = (.ok (.inl later), s') ∧
      ∀ visits, ((run t ps numPlayers maxDepth visits later).start s').1 = .ok none := by
  induction n generalizing w s with
  | zero => exact ⟨w, s, rfl, h⟩
  | succ n ih =>
      obtain ⟨next, s₁, hstep, -⟩ := run_succ_eq_none (h 1)
      rw [wander, Run.start_bind_ok hstep]
      refine ih fun visits => ?_
      obtain ⟨next', s₂, hstep', hrun⟩ := run_succ_eq_none (h (visits + 1))
      cases hstep.symm.trans hstep'
      exact hrun

/-- Visits one after another are visits. -/
theorem wander_add {m : Nat} (h : (wander t ps numPlayers m w).start s = (.ok (.inl next), s'))
    (n : Nat) :
    (wander t ps numPlayers (m + n) w).start s = (wander t ps numPlayers n next).start s' := by
  induction m generalizing w s with
  | zero =>
      cases h
      rw [Nat.zero_add]
  | succ m ih =>
      rw [Nat.succ_add]
      rw [wander] at h ⊢
      rcases hstep : (w.enter.advance t ps numPlayers).start s with ⟨f | v | o, s₁⟩
      · rw [Run.start_bind_error hstep] at h
        cases h
      · rw [Run.start_bind_ok hstep] at h ⊢
        exact ih h
      · rw [Run.start_bind_ok hstep] at h
        cases h

/-- The first visit of an endless walk leads to another endless walk. -/
theorem Endless.advance (h : Endless t ps numPlayers w s) :
    ∃ next s', (w.enter.advance t ps numPlayers).start s = (.ok (.inl next), s') ∧
      Endless t ps numPlayers next s' := by
  rcases hstep : (w.enter.advance t ps numPlayers).start s with ⟨f | next | o, s₁⟩
  -- A walk that fails or ends at its first visit is not endless.
  · obtain ⟨_, _, hlater⟩ := h 1
    rw [wander, Run.start_bind_error hstep] at hlater
    cases hlater
  · refine ⟨next, s₁, rfl, fun visits => ?_⟩
    obtain ⟨later, s', hlater⟩ := h (visits + 1)
    rw [wander, Run.start_bind_ok hstep] at hlater
    exact ⟨later, s', hlater⟩
  · obtain ⟨_, _, hlater⟩ := h 1
    rw [wander, Run.start_bind_ok hstep] at hlater
    cases hlater

/-- A walk that would never end is cut off, if anything comes of it at all. -/
theorem Endless.run_eq (h : Endless t ps numPlayers w s) (visits : Nat)
    {result : Except Fault (Option Outcome)}
    (hrun : (run t ps numPlayers maxDepth visits w).start s = (result, s'))
    (hended : result ≠ .ok none) :
    ∃ state, result = .error (.nonterminating maxDepth state) := by
  induction visits generalizing w s with
  | zero =>
      cases hrun
      exact absurd rfl hended
  | succ visits ih =>
      obtain ⟨next, s₁, hstep, hnext⟩ := h.advance
      rw [run, step_eq] at hrun
      by_cases hbound : maxDepth ≤ w.enter.visited
      · rw [if_pos hbound] at hrun
        cases hrun
        exact ⟨_, rfl⟩
      · rw [if_neg hbound, Run.start_bind_ok hstep] at hrun
        exact ih hnext hrun

end Walk

section Execute

variable {ω σ : Type} [Scale ω] {t : Tree ω σ} {ps : Participants ω σ} {numPlayers : Int}

/-- With strategies for players of the game only, a play is the walk from the root. -/
theorem execute_eq (h : ps.check numPlayers = .ok ()) (maxDepth : Int) (visits : Nat)
    (root : t.Position) :
    execute t ps numPlayers maxDepth visits root =
      Walk.run t ps numPlayers maxDepth visits (Walk.start t root) := by
  rw [execute, h]
  rfl

/-- A strategy for someone else is found out before anything is visited. -/
theorem execute_eq_throw {f : Fault} (h : ps.check numPlayers = .error f) (maxDepth : Int)
    (visits : Nat) (root : t.Position) :
    execute t ps numPlayers maxDepth visits root = throw f := by
  rw [execute, h]
  rfl

/-- From this state of the surroundings, so many visits are enough for a play to end in this way,
and it ends in the same way when more are allowed. -/
def EndsWithin (t : Tree ω σ) (ps : Participants ω σ) (numPlayers maxDepth : Int)
    (root : t.Position) (s : σ) (visits : Nat) (result : Except Fault (Option Outcome)) : Prop :=
  result ≠ .ok none ∧ ∀ more, visits ≤ more →
    ((execute t ps numPlayers maxDepth more root).start s).1 = result

/-- If something comes of a play within so many visits, it ends in this way. -/
theorem ends_within {maxDepth : Int} {root : t.Position} {s : σ} {visits : Nat}
    (h : ((execute t ps numPlayers maxDepth visits root).start s).1 ≠ .ok none) :
    EndsWithin t ps numPlayers maxDepth root s visits
      ((execute t ps numPlayers maxDepth visits root).start s).1 := by
  refine ⟨h, fun more hle => ?_⟩
  cases hcheck : ps.check numPlayers with
  | error f => rw [execute_eq_throw hcheck, execute_eq_throw hcheck]
  | ok =>
      rw [execute_eq hcheck] at h ⊢
      rw [execute_eq hcheck, Walk.run_mono rfl h hle]
      rfl

end Execute

end ExtensiveForm
