import ExtensiveForm.Game.Repeated
import ExtensiveForm.Proofs.Answers

/-!
# Plays with a log

What happens in the course of a play is not seen from its outcome. With a log beside the shared
state, the rules write down where each play of the game begins and where each key leads, and
whoever is asked for a move writes down what was shown: `Game.logged` and `Participants.logged`.

`Run.Logs` says two things of a computation with a log: but for the log it does the same as without
one, and from a log with one property it leaves a log with another one. `Walk.run_logs` is the rule
for whole walks. What is true of the log at a position of the walk has to be kept by whatever is
asked there, and by every key that is followed; `Walk.KeepsLog` says so.
-/

namespace ExtensiveForm

/-! ### Computations with a log -/

namespace Run

variable {σ ε α β : Type}

/-- The same computation with a log beside the state, the latest entry first, to which its result
adds some entries. -/
def logged (x : Run σ α) (note : Except Fault α → List ε) : Run (σ × List ε) α :=
  fun (s, log) =>
    let (result, s) := x.start s
    (result, (s, note result ++ log))

@[simp] theorem start_logged (x : Run σ α) (note : Except Fault α → List ε) (s : σ)
    (log : List ε) :
    (x.logged note).start (s, log) =
      ((x.start s).1, ((x.start s).2, note (x.start s).1 ++ log)) := rfl

/-- The log has the one property after a result and the other one after a fault. -/
def LogAfter (Q : α → List ε → Prop) (E : List ε → Prop) : Except Fault α → List ε → Prop
  | .ok a => Q a
  | .error _ => E

/-- A property that the log has after results as well as after faults, it has in any case. -/
theorem LogAfter.always {E : List ε → Prop} {result : Except Fault α} {log : List ε}
    (h : LogAfter (fun _ => E) E result log) : E log := by
  cases result with
  | ok a => exact h
  | error f => exact h

/-- From every log with the first property, the second computation proceeds like the first one, and
it leaves a log with the second property after a result and with the third one after a fault. -/
def Logs (P : List ε → Prop) (x : Run σ α) (y : Run (σ × List ε) α) (Q : α → List ε → Prop)
    (E : List ε → Prop) : Prop :=
  ∀ s log, P log → ∃ log', y.start (s, log) = ((x.start s).1, ((x.start s).2, log')) ∧
    LogAfter Q E (x.start s).1 log'

namespace Logs

variable {P : List ε → Prop} {Q : α → List ε → Prop} {R : β → List ε → Prop} {E : List ε → Prop}
  {x : Run σ α} {y : Run (σ × List ε) α}

/-- A result that is given adds nothing to the log. -/
theorem liftM (r : Except Fault α) (h : ∀ log, P log → LogAfter Q E r log) :
    Logs P (MonadLiftT.monadLift r : Run σ α) (MonadLiftT.monadLift r) Q E :=
  fun _ log hlog => ⟨log, rfl, h log hlog⟩

theorem pure (a : α) (h : ∀ log, P log → Q a log) :
    Logs P (Pure.pure a : Run σ α) (Pure.pure a) Q E :=
  liftM (.ok a) h

theorem throw (f : Fault) (h : ∀ log, P log → E log) :
    Logs P (MonadExcept.throw f : Run σ α) (MonadExcept.throw f) Q E :=
  liftM (.error f) h

/-- So whatever is true of the log stays true. -/
theorem given (r : Except Fault α) (h : ∀ log, P log → E log) :
    Logs P (MonadLiftT.monadLift r : Run σ α) (MonadLiftT.monadLift r) (fun _ => P) E := by
  refine liftM r fun log hlog => ?_
  cases r with
  | ok a => exact hlog
  | error f => exact h log hlog

theorem logged {note : Except Fault α → List ε}
    (h : ∀ result log, P log → LogAfter Q E result (note result ++ log)) :
    Logs P x (x.logged note) Q E :=
  fun s log hlog => ⟨note (x.start s).1 ++ log, rfl, h _ log hlog⟩

/-- Either computation may be told in another way. -/
theorem of_eq {x' : Run σ α} {y' : Run (σ × List ε) α} (hx : x = x') (hy : y = y')
    (h : Logs P x' y' Q E) : Logs P x y Q E := by
  subst hx hy
  exact h

/-- After a fault less may be said of the log. -/
theorem weaken {E' : List ε → Prop} (h : Logs P x y Q E) (hE : ∀ log, E log → E' log) :
    Logs P x y Q E' := by
  intro s log hlog
  obtain ⟨log', hy, hafter⟩ := h s log hlog
  refine ⟨log', hy, ?_⟩
  cases hx : (x.start s).1 with
  | ok a =>
      rw [hx] at hafter
      exact hafter
  | error f =>
      rw [hx] at hafter
      exact hE log' hafter

/-- What the second computation does matters only for the results that the first one can give. -/
theorem bind {f : α → Run σ β} {g : α → Run (σ × List ε) β} (h : Logs P x y Q E)
    (hf : ∀ a, Gives x a → Logs (Q a) (f a) (g a) R E) : Logs P (x >>= f) (y >>= g) R E := by
  intro s log hlog
  obtain ⟨log₁, hy, hafter⟩ := h s log hlog
  rcases hx : x.start s with ⟨e | a, s₁⟩ <;> rw [hx] at hy hafter
  · rw [start_bind_error hx, start_bind_error hy]
    exact ⟨log₁, rfl, hafter⟩
  · rw [start_bind_ok hx, start_bind_ok hy]
    exact hf a ⟨s, s₁, hx⟩ s₁ log₁ hafter

theorem ite {c : Prop} [Decidable c] {x' : Run σ α} {y' : Run (σ × List ε) α}
    (h : Logs P x y Q E) (h' : Logs P x' y' Q E) :
    Logs P (if c then x else x') (if c then y else y') Q E := by
  by_cases hc : c
  · rw [if_pos hc, if_pos hc]
    exact h
  · rw [if_neg hc, if_neg hc]
    exact h'

/-- What every computation of a list keeps is kept by all of them one after the other. -/
theorem mapM {ι : Type} {f : ι → Run σ α} {g : ι → Run (σ × List ε) α} {is : List ι}
    (h : ∀ i ∈ is, Logs P (f i) (g i) (fun _ => P) E) :
    Logs P (is.mapM f) (is.mapM g) (fun _ => P) E := by
  induction is with
  | nil => exact pure [] fun _ hlog => hlog
  | cons i is ih =>
      rw [List.forall_mem_cons] at h
      rw [List.mapM_cons, List.mapM_cons]
      refine h.1.bind fun a _ => (ih h.2).bind fun as _ => ?_
      exact pure (a :: as) fun _ hlog => hlog

end Logs

end Run

/-! ### What is written down -/

/-- What is written down of a play. -/
inductive Entry (P : Type) where
  /-- The game was begun at this root. -/
  | began (root : P)
  /-- The rules were asked where a key leads from a position. If they named one, it is this. -/
  | followed (position : P) (key : Value) (next : Option P)
  /-- A player was asked for a move and was shown this. -/
  | asked (c : Context)

/-- What is written down when the rules are asked for the root. -/
def Entry.ofRoot {P : Type} : Except Fault P → List (Entry P)
  | .ok root => [.began root]
  | .error _ => []

/-- What is written down when the rules are asked where a key leads. -/
def Entry.ofKey {P : Type} (position : P) (key : Value) : Except Fault (Option P) → List (Entry P)
  | .ok next => [.followed position key next]
  | .error _ => [.followed position key none]

/-- The position at which the game is according to a log. -/
def lastPosition {P : Type} : List (Entry P) → Option P
  | [] => none
  | .began root :: _ => some root
  | .followed _ _ next :: _ => next
  | .asked _ :: before => lastPosition before

/-- A tree with the same nodes, in which keys are followed in another way. -/
def Tree.withNext {ω σ τ : Type} [Scale ω] (t : Tree ω σ)
    (next : t.Position → Value → Run τ (Option t.Position)) : Tree ω τ where
  Position := t.Position
  node := t.node
  next := next

/-- The same tree, with a log of the keys that are followed. -/
def Tree.logged {ω σ : Type} [Scale ω] (t : Tree ω σ) : Tree ω (σ × List (Entry t.Position)) :=
  t.withNext fun p key => (t.next p key).logged (Entry.ofKey p key)

/-- The same game, with a log of its plays. -/
def Game.logged {ω σ : Type} [Scale ω] (g : Game ω σ) :
    Game ω (σ × List (Entry g.tree.Position)) where
  kind := g.kind
  name := g.name
  numPlayers := g.numPlayers
  tree := g.tree.logged
  root := g.root.logged Entry.ofRoot
  legal := g.legal

/-- The same participants, with a log of what they are shown. -/
def Participants.logged {ω σ : Type} (P : Type) (ps : Participants ω σ) :
    Participants ω (σ × List (Entry P)) where
  players := ps.players
  ask player := (ps.ask player).map fun ask c => (ask c).logged fun _ => [.asked c]
  uniform := fun (s, log) =>
    let (u, s) := ps.uniform s
    (u, (s, log))

/-- The same way to repeat a game, where there is a log. -/
def Repetition.logged {σ : Type} (ε : Type) (r : Repetition σ) : Repetition (σ × List ε) where
  rounds := r.rounds
  stop := r.stop.map fun stop h => (stop h).logged fun _ => []
  maxDepth := r.maxDepth
  ends := by simpa using r.ends
  bounded := r.bounded

@[simp] theorem Tree.logged_next {ω σ : Type} [Scale ω] (t : Tree ω σ) (p : t.Position)
    (key : Value) : t.logged.next p key = (t.next p key).logged (Entry.ofKey p key) := rfl

@[simp] theorem Game.logged_root {ω σ : Type} [Scale ω] (g : Game ω σ) :
    g.logged.root = g.root.logged Entry.ofRoot := rfl

@[simp] theorem Repetition.logged_rounds {σ ε : Type} (r : Repetition σ) :
    (r.logged ε).rounds = r.rounds := rfl

@[simp] theorem Repetition.logged_stop {σ ε : Type} (r : Repetition σ) :
    (r.logged ε).stop = r.stop.map fun stop h => (stop h).logged fun _ => [] := rfl

/-- Every entry of a log is justified by the entries before it. -/
def Justified {ε : Type} (Q : ε → List ε → Prop) (log : List ε) : Prop :=
  ∀ entry before, (entry :: before) <:+ log → Q entry before

namespace Justified

variable {ε : Type} {Q : ε → List ε → Prop} {log : List ε}

theorem nil : Justified Q [] := by
  intro entry before hsuffix
  cases List.suffix_nil.1 hsuffix

theorem cons (hlog : Justified Q log) {entry : ε} (hentry : Q entry log) :
    Justified Q (entry :: log) := by
  intro entry' before hsuffix
  rcases List.suffix_cons_iff.1 hsuffix with heq | hsuffix
  · cases heq
    exact hentry
  · exact hlog entry' before hsuffix

end Justified

/-! ### Walks with a log -/

/-- Following a key is written down, and what is true of the log afterwards depends on where the key
leads. -/
theorem Tree.follow_logs {ω σ : Type} [Scale ω] {t : Tree ω σ} {p : t.Position} {key : Value}
    {I E : List (Entry t.Position) → Prop} {J : t.Position → List (Entry t.Position) → Prop}
    (hkey : (t.node p).lookupKey key = .ok key)
    (hnone : ∀ log, I log → E (.followed p key none :: log))
    (hsome : ∀ q log, Run.Gives (t.follow p key) q → I log →
      J q (.followed p key (some q) :: log)) :
    Run.Logs I (t.follow p key) (t.logged.follow p key) J E := by
  have hkey' : (t.logged.node p).lookupKey key = .ok key := hkey
  have hleads {q : t.Position} (h : Run.Gives (t.next p key) (some q)) :
      Run.Gives (t.follow p key) q := by
    obtain ⟨s, s', h⟩ := h
    exact ⟨s, s', follow_eq_ok.2 ⟨key, hkey, h⟩⟩
  unfold follow
  rw [hkey, hkey', Run.liftM_ok, Run.liftM_ok, pure_bind, pure_bind, logged_next]
  refine .bind (Q := fun next log => ∃ before, I before ∧ log = .followed p key next :: before)
    (.logged fun result log hlog => ?_) fun next hnext => ?_
  · cases result with
    | error f => exact hnone log hlog
    | ok next => exact ⟨log, hlog, rfl⟩
  · cases next with
    | none =>
        refine .throw _ fun log hlog => ?_
        obtain ⟨before, hbefore, rfl⟩ := hlog
        exact hnone before hbefore
    | some q =>
        refine .pure _ fun log hlog => ?_
        obtain ⟨before, hbefore, rfl⟩ := hlog
        exact hsome q before (hleads hnext) hbefore

namespace Walk

variable {ω σ P : Type} [Scale ω] {ps : Participants ω σ} {numPlayers maxDepth : Int}
  {transcript : Transcript} {I E : List (Entry P) → Prop}

omit [Scale ω] in
/-- What is kept when a player is shown something is kept by the player's answer. -/
theorem answer_logs {c : Context} (hasked : ∀ log, I log → I (.asked c :: log))
    (hE : ∀ log, I log → E log) :
    Run.Logs I (ps.answer c) ((ps.logged P).answer c) (fun _ => I) E := by
  unfold Participants.answer
  refine .bind (.given _ hE) fun player _ => ?_
  unfold Participants.logged
  dsimp only
  cases ps.ask player with
  | none => exact .throw _ hE
  | some ask =>
      refine .logged fun result log hlog => ?_
      cases result with
      | ok move => exact hasked log hlog
      | error f => exact hE _ (hasked log hlog)

omit [Scale ω] in
theorem decideAlone_logs {c : Context} (hasked : ∀ log, I log → I (.asked c :: log))
    (hE : ∀ log, I log → E log) :
    Run.Logs I (decideAlone ps c) (decideAlone (ps.logged P) c) (fun _ => I) E := by
  unfold decideAlone
  refine .bind (.given _ hE) fun player _ => ?_
  unfold Participants.logged
  dsimp only
  cases ps.ask player with
  | none => exact .throw _ hE
  | some ask =>
      simp only [Run.throw_bind, Option.map_some]
      refine .ite (.throw _ hE) (.bind (Q := fun _ => I) (.logged fun result log hlog => ?_)
        fun move _ => .bind (.given _ hE) fun legal _ => ?_)
      · cases result with
        | ok move => exact hasked log hlog
        | error f => exact hE _ (hasked log hlog)
      · exact .ite (.pure _ fun _ hlog => hlog) (.throw _ hE)

omit [Scale ω] in
theorem decideTogether_logs {n : Simultaneous}
    (hasked : ∀ seat ∈ n.seats, ∀ log, I log →
      I (.asked (n.context numPlayers transcript seat) :: log))
    (hE : ∀ log, I log → E log) :
    Run.Logs I (decideTogether ps numPlayers transcript n)
      (decideTogether (ps.logged P) numPlayers transcript n) (fun _ => I) E :=
  .bind (.given _ hE) fun _ _ =>
    .bind (.mapM fun seat hseat => answer_logs (hasked seat hseat) hE) fun _ _ =>
      .bind (.given _ hE) fun _ _ => .pure _ fun _ hlog => hlog

omit [Scale ω] in
theorem uniform_logs :
    Run.Logs (ε := Entry P) I (liftM ps.uniform : Run σ ω) (liftM (ps.logged P).uniform)
      (fun _ => I) E :=
  fun _ log hlog => ⟨log, rfl, hlog⟩

/-- What is kept whenever a player is asked at a node is kept by the decision there. -/
theorem decide_logs {n : Node ω}
    (hasked : ∀ c ∈ n.contexts numPlayers transcript, ∀ log, I log → I (.asked c :: log))
    (hE : ∀ log, I log → E log) :
    Run.Logs I (decide ps numPlayers transcript n) (decide (ps.logged P) numPlayers transcript n)
      (fun _ => I) E := by
  cases n with
  | simultaneous n =>
      refine .bind (decideTogether_logs (fun seat hseat => ?_) hE) fun _ _ => .pure _ fun _ h => h
      exact hasked _ (List.mem_map_of_mem hseat)
  | sequential player moves state =>
      exact decideAlone_logs (hasked _ (List.mem_singleton_self _)) hE
  | chance d state =>
      unfold decide Distribution.sample
      simp only [Run.throw_bind]
      refine .ite (.bind (uniform_logs) fun u _ => ?_) (.throw _ hE)
      cases d.pick? u with
      | none => exact .throw _ hE
      | some v => exact .pure _ fun _ h => h
  | terminal e => exact .throw _ hE
  | stray v => exact .throw _ hE

variable {t : Tree ω σ} {next : t.Position → Value → Run (σ × List (Entry P)) (Option t.Position)}
  {J : t.Position → Transcript → List (Entry P) → Prop}

/-- What is true of the log at a position of a walk, with the transcript there, stays true when
someone is asked. When a key that was decided for is followed, it is true at the position that the
key leads to. Wherever the walk is abandoned, something weaker is true of the log. -/
structure KeepsLog (t : Tree ω σ) (ps : Participants ω σ) (numPlayers : Int)
    (next : t.Position → Value → Run (σ × List (Entry P)) (Option t.Position))
    (J : t.Position → Transcript → List (Entry P) → Prop) (E : List (Entry P) → Prop) : Prop where
  asked (p : t.Position) (transcript : Transcript) :
    ∀ c ∈ (t.node p).contexts numPlayers transcript, ∀ log,
      J p transcript log → J p transcript (.asked c :: log)
  followed (p : t.Position) (transcript : Transcript) (key : Value) :
    (t.node p).goesOn = true → Run.Gives (decide ps numPlayers transcript (t.node p)) key →
      Run.Logs (J p transcript) (t.follow p key) ((t.withNext next).follow p key)
        (fun q => J q ((t.node q).state.transcript?.getD
          (transcript.addAll ((t.node p).plies key)))) E
  weaker (p : t.Position) (transcript : Transcript) (log : List (Entry P)) :
    J p transcript log → E log

/-- A walk with a log proceeds like the walk without it. -/
theorem run_logs (h : KeepsLog t ps numPlayers next J E) (visits : Nat) (w : Walk t.Position) :
    Run.Logs (J w.position w.transcript) (run t ps numPlayers maxDepth visits w)
      (run (t.withNext next) (ps.logged P) numPlayers maxDepth visits w) (fun _ => E) E := by
  induction visits generalizing w with
  | zero => exact .pure none (h.weaker w.position w.transcript)
  | succ visits ih =>
      have hweaker := h.weaker w.position w.transcript
      by_cases hbound : maxDepth ≤ (w.enter (t := t)).visited
      · rw [run_cut_off hbound, run_cut_off (t := t.withNext next) hbound]
        exact .throw _ hweaker
      rcases (t.node w.position).goesOn_or with ⟨e, hnode⟩ | ⟨v, hnode⟩ | hnode
      · rw [run_terminal hbound hnode, run_terminal (t := t.withNext next) hbound hnode]
        exact .bind (.given _ hweaker) fun o _ => .pure _ hweaker
      · rw [run_stray hbound hnode, run_stray (t := t.withNext next) hbound hnode]
        exact .throw _ hweaker
      · rw [run_goesOn hbound hnode, run_goesOn (t := t.withNext next) hbound hnode]
        refine .bind (decide_logs (h.asked _ _) hweaker) fun key hkey => ?_
        refine .bind (h.followed _ _ key hnode hkey) fun q _ => ?_
        exact ih ⟨q, _, _, _⟩

/-- So does a play from a root on. -/
theorem execute_logs (h : KeepsLog t ps numPlayers next J E) (visits : Nat) (root : t.Position) :
    Run.Logs (J root ((t.node root).state.transcript?.getD .empty))
      (execute t ps numPlayers maxDepth visits root)
      (execute (t.withNext next) (ps.logged P) numPlayers maxDepth visits root) (fun _ => E) E :=
  .bind (.given _ (h.weaker _ _)) fun _ _ => run_logs h visits (start t root)

end Walk

end ExtensiveForm
