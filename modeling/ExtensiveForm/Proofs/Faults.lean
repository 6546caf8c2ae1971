import ExtensiveForm.Proofs.Answers
import ExtensiveForm.Proofs.Profile

/-!
# What computations may fail with

A fault is plain when it is about the values at hand. The other faults tell that a play reached its
bound, or that the rules of the game have a gap: no continuation, no entry, or an end at which the
players do not have one utility each. Operations on values fail only with plain faults, `FailsWith`,
and so does the check of what was decided at a node. `Run.Confined` tells of a computation over a
shared state which results and which faults may come of it. The main result, `decide_confined`, is
that a visit at which players decide adds to the faults of the players only plain ones.
-/

namespace ExtensiveForm

namespace Fault

/-- The rules of a game do not provide for what was done. -/
def IsGap : Fault → Prop
  | unmapped _ _ | invalidPayoff _ _ _ | keyNotFound => True
  | _ => False

/-- The fault is about the values at hand: it tells neither of a bound nor of a gap in the rules. -/
def IsPlain : Fault → Prop
  | nonterminating _ _ | unmapped _ _ | invalidPayoff _ _ _ | keyNotFound => False
  | _ => True

theorem IsPlain.not_isGap {e : Fault} (h : e.IsPlain) : ¬ e.IsGap := by
  cases e <;> first | exact id | exact fun _ => h

theorem IsPlain.told {e : Fault} (h : e.IsPlain) : e.told.IsPlain := by
  rcases e.told_eq_or with heq | heq <;> rw [heq]
  · exact h
  · trivial

end Fault

/-! ### Results that are given -/

/-- If there is no result, the fault is of this sort. -/
def FailsWith {α : Type} (E : Fault → Prop) (x : Except Fault α) : Prop :=
  ∀ e, x = .error e → E e

namespace FailsWith

variable {α β : Type} {E E' : Fault → Prop}

theorem ok (a : α) : FailsWith E (.ok a) :=
  nofun

theorem error {e : Fault} (h : E e) : FailsWith E (.error e : Except Fault α) := by
  intro _ heq
  cases heq
  exact h

theorem mono {x : Except Fault α} (h : FailsWith E x) (hE : ∀ e, E e → E' e) : FailsWith E' x :=
  fun e heq => hE e (h e heq)

theorem bind {x : Except Fault α} {f : α → Except Fault β} (h : FailsWith E x)
    (hf : ∀ a, FailsWith E (f a)) : FailsWith E (x >>= f) := by
  cases x with
  | error e => exact error (h e rfl)
  | ok a => exact hf a

/-- What cannot but fail with this fault keeps all that follows from a result. -/
theorem bind_eq_error {e : Fault} {x : Except Fault α} {f : α → Except Fault β}
    (h : FailsWith (· = e) x) (hnot : ∀ a, x ≠ .ok a) : x >>= f = .error e := by
  cases x with
  | error e' =>
      cases h e' rfl
      rfl
  | ok a => exact absurd rfl (hnot a)

theorem forM {f : α → Except Fault Unit} {as : List α} (h : ∀ a ∈ as, FailsWith E (f a)) :
    FailsWith E (as.forM f) := by
  induction as with
  | nil => exact ok ()
  | cons a as ih =>
      rw [List.forall_mem_cons] at h
      exact h.1.bind fun _ => ih h.2

theorem mapM {f : α → Except Fault β} {as : List α} (h : ∀ a ∈ as, FailsWith E (f a)) :
    FailsWith E (as.mapM f) := by
  induction as with
  | nil => exact ok []
  | cons a as ih =>
      rw [List.forall_mem_cons] at h
      rw [List.mapM_cons]
      exact h.1.bind fun b => (ih h.2).bind fun bs => ok (b :: bs)

theorem foldlM {f : β → α → Except Fault β} {as : List α} (h : ∀ b, ∀ a ∈ as, FailsWith E (f b a))
    (b : β) : FailsWith E (as.foldlM f b) := by
  induction as generalizing b with
  | nil => exact ok b
  | cons a as ih =>
      rw [List.foldlM_cons]
      exact (h b a List.mem_cons_self).bind (ih fun b a ha => h b a (List.mem_cons_of_mem _ ha))

end FailsWith

theorem checkPlayer_plain (player : Value) (numPlayers : Int) :
    FailsWith Fault.IsPlain (checkPlayer player numPlayers) := by
  unfold checkPlayer
  split
  · split
    · exact .ok _
    · exact .error (.told trivial)
  · exact .error (.told trivial)

namespace Value

theorem items_plain (v : Value) : FailsWith Fault.IsPlain v.items := by
  cases v <;> first | exact .ok _ | exact .error trivial

theorem holds_plain (v x : Value) : FailsWith Fault.IsPlain (v.holds x) := by
  unfold holds
  split
  · exact .ok _
  · exact .error trivial
  · exact (items_plain v).bind fun items => .ok _

theorem toDouble_plain (n : Int) : FailsWith Fault.IsPlain (toDouble n) := by
  unfold toDouble
  dsimp only
  split
  · exact .error trivial
  · exact .ok _

theorem numeric_plain (exact : Int → Int → Int) (rounded : Float → Float → Float) (a b : Value) :
    FailsWith Fault.IsPlain (numeric exact rounded a b) := by
  unfold numeric
  repeat' split
  all_goals first
    | exact .ok _
    | exact (toDouble_plain _).bind fun _ => .ok _
    | exact .error trivial

end Value

mutual

theorem Value.add_plain (a b : Value) : FailsWith Fault.IsPlain (a.add b) := by
  cases a with
  | payoff p => exact (Payoff.add_plain p b).bind fun _ => .ok _
  | text s => cases b <;> first | exact .ok _ | exact .error trivial
  | tuple xs => cases b <;> first | exact .ok _ | exact .error trivial
  | list xs => cases b <;> first | exact .ok _ | exact .error trivial
  | _ => exact Value.numeric_plain _ _ _ b

theorem Payoff.add_plain (p : Payoff) (b : Value) : FailsWith Fault.IsPlain (p.add b) := by
  obtain ⟨values⟩ := p
  rw [Payoff.add]
  refine (Value.items_plain b).bind fun others => ?_
  split
  · exact (Value.addAll_plain values others).bind fun _ => .ok _
  · exact .error trivial

theorem Value.addAll_plain (as bs : List Value) : FailsWith Fault.IsPlain (Value.addAll as bs) := by
  match as, bs with
  | [], _ => exact .ok _
  | a :: as, [] => exact .ok _
  | a :: as, b :: bs =>
    rw [Value.addAll]
    exact (Value.add_plain a b).bind fun c => (Value.addAll_plain as bs).bind fun cs => .ok _

end

theorem History.score_plain (h : History) : FailsWith Fault.IsPlain h.score := by
  unfold score
  split
  · exact .ok _
  · exact .foldlM (fun _ _ _ => Payoff.add_plain _ _) _

namespace Transcript

/-- What a ply counts for is left open only where a value cannot be compared with a number. -/
theorem seat?_wrongType (player : Value) (numPlayers : Int) :
    FailsWith (· = .wrongType) (seat? player numPlayers) := by
  unfold seat?
  repeat' split
  all_goals first | exact .ok _ | exact .error rfl

theorem onlyMoves_wrongType (numPlayers : Int) (known : List (Nat × Value)) (ps : List Ply) :
    FailsWith (· = .wrongType) (onlyMoves numPlayers known ps) := by
  induction ps generalizing known with
  | nil => exact .ok _
  | cons p ps ih =>
      refine (seat?_wrongType p.player numPlayers).bind fun seat => ?_
      cases seat with
      | none => exact ih known
      | some index =>
          dsimp only
          split
          · exact .ok _
          · exact ih _

theorem profile?_wrongType (t : Transcript) (numPlayers : Int) :
    FailsWith (· = .wrongType) (t.profile? numPlayers) := by
  refine (onlyMoves_wrongType numPlayers [] t.plies).bind fun known => ?_
  cases known <;> exact .ok _

end Transcript

/-- An end with one utility for each player fails to be an outcome only for its moves. -/
theorem Ending.outcome_wrongType {e : Ending} {numPlayers : Int}
    (hsize : (e.payoff.values.length : Int) = numPlayers) (t : Transcript) :
    FailsWith (· = .wrongType) (e.outcome t numPlayers) := by
  rw [outcome_eq hsize]
  refine .bind ?_ fun profile => .ok _
  unfold profileAfter
  cases e.profile with
  | some profile => exact .ok _
  | none => exact t.profile?_wrongType numPlayers

theorem Ending.outcome_plain {e : Ending} {numPlayers : Int}
    (hsize : (e.payoff.values.length : Int) = numPlayers) (t : Transcript) :
    FailsWith Fault.IsPlain (e.outcome t numPlayers) :=
  (outcome_wrongType hsize t).mono fun _ heq => heq ▸ trivial

namespace Simultaneous

theorem checkMoves_plain (n : Simultaneous) : FailsWith Fault.IsPlain n.checkMoves := by
  refine .forM fun seat _ => ?_
  split
  · exact .error (.told trivial)
  · exact .ok _

theorem checkLegal_plain (n : Simultaneous) (moves : List Value) :
    FailsWith Fault.IsPlain (n.checkLegal moves) := by
  refine .forM fun pair _ => ?_
  obtain ⟨seat, move⟩ := pair
  dsimp only
  split
  · exact .ok _
  · exact .error (.told trivial)

end Simultaneous

theorem Node.lookupKey_plain {ω : Type} [Scale ω] (n : Node ω) (key : Value) :
    FailsWith Fault.IsPlain (n.lookupKey key) := by
  cases n with
  | simultaneous n => exact key.items_plain.bind fun _ => .ok _
  | sequential player moves state => exact .ok key
  | chance d state => exact .ok key
  | terminal e => exact .error trivial
  | stray v => exact .error trivial

theorem Participants.check_plain {ω σ : Type} (ps : Participants ω σ) (numPlayers : Int) :
    FailsWith Fault.IsPlain (ps.check numPlayers) :=
  .forM fun _ _ => (checkPlayer_plain _ _).bind fun _ => .ok _

/-! ### Computations over a shared state -/

namespace Run

variable {σ α β : Type} {E E' : Fault → Prop} {Q Q' : α → Prop} {R : β → Prop} {x : Run σ α}
  {f : α → Run σ β}

/-- Whatever comes of the computation is a result of one sort or a fault of another. -/
structure Confined (Q : α → Prop) (E : Fault → Prop) (x : Run σ α) : Prop where
  result {a : α} (h : Gives x a) : Q a
  fault {s s' : σ} {e : Fault} (h : x.start s = (.error e, s')) : E e

namespace Confined

theorem pure {a : α} (h : Q a) : Confined Q E (Pure.pure a : Run σ α) where
  result := by
    rintro _ ⟨s, s', heq⟩
    cases heq
    exact h
  fault heq := by cases heq

theorem throw {e : Fault} (h : E e) : Confined Q E (MonadExcept.throw e : Run σ α) where
  result := by
    rintro _ ⟨s, s', heq⟩
    cases heq
  fault heq := by
    cases heq
    exact h

theorem liftM {r : Except Fault α} (hr : ∀ a, r = .ok a → Q a) (h : FailsWith E r) :
    Confined Q E (MonadLiftT.monadLift r : Run σ α) := by
  cases r with
  | error e => exact throw (h e rfl)
  | ok a => exact pure (hr a rfl)

theorem mono (h : Confined Q E x) (hQ : ∀ a, Q a → Q' a) (hE : ∀ e, E e → E' e) :
    Confined Q' E' x where
  result hgives := hQ _ (h.result hgives)
  fault heq := hE _ (h.fault heq)

/-- The results of a computation are those that it gives. -/
theorem given (h : Confined Q E x) : Confined (Gives x) E x where
  result := id
  fault := h.fault

theorem bind (h : Confined Q E x) (hf : ∀ a, Q a → Confined R E (f a)) :
    Confined R E (x >>= f) where
  result := by
    rintro b ⟨s, s', heq⟩
    obtain ⟨a, s₁, ha, hb⟩ := start_bind_eq_ok.1 heq
    exact (hf a (h.result ⟨s, s₁, ha⟩)).result ⟨s₁, s', hb⟩
  fault := by
    intro s s' e heq
    rcases hx : x.start s with ⟨e' | a, s₁⟩
    · rw [start_bind_error hx] at heq
      cases heq
      exact h.fault hx
    · rw [start_bind_ok hx] at heq
      exact (hf a (h.result ⟨s, s₁, hx⟩)).fault heq

theorem mapM {ι : Type} {f : ι → Run σ α} {is : List ι} (h : ∀ i ∈ is, Confined Q E (f i)) :
    Confined (∀ a ∈ ·, Q a) E (is.mapM f) := by
  induction is with
  | nil => exact pure nofun
  | cons i is ih =>
      rw [List.forall_mem_cons] at h
      rw [List.mapM_cons]
      exact h.1.bind fun a ha => (ih h.2).bind fun as has =>
        pure (List.forall_mem_cons.2 ⟨ha, has⟩)

end Confined

end Run

/-! ### Visits -/

namespace Node

variable {ω : Type} [Scale ω] {n : Node ω} {key : Value}

/-- The key is one that may be chosen at the node, by whoever decides there. -/
inductive Admits : Node ω → Value → Prop
  | joined {n : Node ω} {moves : List Value} {key : Value} (hjoins : n.Joins moves key)
      (hmoves : List.Forall₂ (fun seat move => move.isAmong seat.moves = true) n.seats moves) :
      Admits n key
  | drawn {d : Distribution ω} {state element : Value} {u : ω} (h : d.pick? u = some element) :
      Admits (.chance d state) element

/-- A key that may be chosen is looked up as it is. -/
theorem Admits.lookupKey (h : n.Admits key) : n.lookupKey key = .ok key := by
  cases h with
  | joined hjoins => cases hjoins <;> rfl
  | drawn h => rfl

/-- What may be chosen at a node does not depend on its state. -/
theorem Admits.of_withState {state : Value} (h : (n.withState state).Admits key) :
    n.Admits key := by
  cases n with
  | simultaneous n =>
      cases h with
      | joined hjoins hmoves =>
          cases hjoins
          exact .joined (.together n _) hmoves
  | sequential player moves state =>
      cases h with
      | joined hjoins hmoves =>
          cases hjoins
          exact .joined (.alone player moves state key) hmoves
  | chance d state =>
      cases h with
      | joined hjoins => cases hjoins
      | drawn h => exact .drawn h
  | terminal e => exact h
  | stray v => exact h

end Node

/-- Whoever has a move to choose fails only with faults of this sort. -/
def Participants.FailWith {ω σ : Type} (ps : Participants ω σ) (E : Fault → Prop) : Prop :=
  ∀ player ask c, ps.ask player = some ask → c.availableMoves ≠ [] →
    (ask c).Confined (fun _ => True) E

namespace Walk

variable {ω σ : Type} {E : Fault → Prop} {ps : Participants ω σ} {c : Context} {numPlayers : Int}
  {transcript : Transcript}

theorem answer_confined (hE : ∀ e, e.IsPlain → E e) (hps : ps.FailWith E)
    (hmoves : c.availableMoves ≠ []) : (ps.answer c).Confined (fun _ => True) E := by
  refine .bind (.liftM (fun _ _ => trivial) ((checkPlayer_plain _ _).mono hE)) fun player _ => ?_
  cases hask : ps.ask player with
  | none => exact .throw (hE _ (.told trivial))
  | some ask => exact hps player ask c hask hmoves

theorem decideAlone_confined (hE : ∀ e, e.IsPlain → E e) (hps : ps.FailWith E) :
    (decideAlone ps c).Confined (fun _ => True) E := by
  refine .bind (.liftM (fun _ _ => trivial) ((checkPlayer_plain _ _).mono hE)) fun player _ => ?_
  cases hask : ps.ask player with
  | none => exact .throw (hE _ (.told trivial))
  | some ask =>
      simp only [Run.throw_bind]
      split
      · exact .throw (hE _ (.told trivial))
      · rename_i hmoves
        rw [List.isEmpty_iff] at hmoves
        refine .bind (hps player ask c hask hmoves) fun move _ => ?_
        refine .bind (.liftM (fun _ _ => trivial) ((Value.holds_plain _ _).mono hE))
          fun legal _ => ?_
        split
        · exact .pure trivial
        · exact .throw (hE _ (.told trivial))

theorem decideTogether_confined (hE : ∀ e, e.IsPlain → E e) (hps : ps.FailWith E)
    (n : Simultaneous) :
    (decideTogether ps numPlayers transcript n).Confined (fun _ => True) E := by
  refine .bind (.liftM (fun _ => Simultaneous.checkMoves_eq_ok.1) (n.checkMoves_plain.mono hE))
    fun _ hmoves => ?_
  refine .bind (.mapM fun seat hseat => answer_confined hE hps (hmoves seat hseat))
    fun moves _ => ?_
  exact .bind (.liftM (fun _ _ => trivial) ((n.checkLegal_plain moves).mono hE)) fun _ _ =>
    .pure trivial

variable [Scale ω]

/-- What is decided at a node is admitted there. -/
theorem admits_of_decide {n : Node ω} {key : Value}
    (h : Run.Gives (decide ps numPlayers transcript n) key) : n.Admits key := by
  obtain ⟨s, s', h⟩ := h
  by_cases hchance : ∃ d state, n = .chance d state
  · obtain ⟨d, state, rfl⟩ := hchance
    unfold decide Distribution.sample at h
    simp only [Run.throw_bind] at h
    split at h
    · obtain ⟨u, s₁, -, h⟩ := Run.start_bind_eq_ok.1 h
      split at h
      · rename_i hpick
        cases h
        exact .drawn hpick
      · cases h
    · cases h
  · have hplayers : ∀ d state, n ≠ .chance d state := fun d state h => hchance ⟨d, state, h⟩
    obtain ⟨moves, hjoins, -, -, hlegal⟩ := (Node.decide_eq_ok_iff hplayers).1 h
    exact .joined hjoins hlegal

/-- Whatever stands at a node, the decision there is for a key that is admitted, or it fails with a
plain fault or one of the players. -/
theorem decide_confined (hE : ∀ e, e.IsPlain → E e) (hps : ps.FailWith E) (n : Node ω) :
    (decide ps numPlayers transcript n).Confined n.Admits E := by
  have hfaults : (decide ps numPlayers transcript n).Confined (fun _ => True) E := by
    cases n with
    | simultaneous n => exact (decideTogether_confined hE hps n).bind fun _ _ => .pure trivial
    | sequential player moves state => exact decideAlone_confined hE hps
    | chance d state =>
        unfold decide Distribution.sample
        simp only [Run.throw_bind]
        split
        · refine .bind (Q := fun _ => True) ⟨fun _ => trivial, fun h => nomatch h⟩ fun u _ => ?_
          cases d.pick? u with
          | none => exact .throw (hE _ trivial)
          | some v => exact .pure trivial
        · exact .throw (hE _ trivial)
    | terminal e => exact .throw (hE _ trivial)
    | stray v => exact .throw (hE _ (.told trivial))
  exact hfaults.given.mono (fun _ => admits_of_decide) fun _ => id

end Walk

end ExtensiveForm
