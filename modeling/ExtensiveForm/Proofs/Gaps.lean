import ExtensiveForm.Proofs.Faults
import ExtensiveForm.Proofs.Rounds

/-!
# Rules without gaps

The rules of a game have no gaps when every key that may be chosen leads on, and every end that is
come to has one utility for each player. `Game.Provides` says so of a set of positions that plays do
not leave, and allows only some sorts of faults on the way. Repeating a game opens no gap,
`Game.Provides.repeated`. So whatever tells of a gap in a play, once or repeated, was raised by a
player or by a condition to stop: `Game.Provides.gap_of_play`.
-/

namespace ExtensiveForm

variable {ω σ : Type} [Scale ω] {E : Fault → Prop}

/-- From the root on, every key that may be chosen leads to one of these positions, or to a fault of
this sort, and at the ends among them each player has a utility. -/
structure Game.Provides (g : Game ω σ) (P : g.tree.Position → Prop) (E : Fault → Prop) : Prop where
  root : g.root.Confined P E
  follow {p : g.tree.Position} {key : Value} (hp : P p) (hkey : (g.tree.node p).Admits key) :
    (g.tree.follow p key).Confined P E
  sized {p : g.tree.Position} {e : Ending} (hp : P p) (hnode : g.tree.node p = .terminal e) :
    (e.payoff.values.length : Int) = g.numPlayers

theorem Game.Provides.mono {g : Game ω σ} {P : g.tree.Position → Prop} {E' : Fault → Prop}
    (hg : g.Provides P E) (hE : ∀ e, E e → E' e) : g.Provides P E' where
  root := hg.root.mono (fun _ => id) hE
  follow hp hkey := (hg.follow hp hkey).mono (fun _ => id) hE
  sized := hg.sized

/-- The game repeated, and that repeated again, as often as the list says: each time with a name. -/
def Game.repeatedAll (g : Game ω σ) (rs : List (Repetition σ × String)) : Game ω σ :=
  rs.foldl (fun g r => g.repeated r.1 r.2) g

/-- A player raises this fault when asked. -/
def Participants.Raises {ω σ : Type} (ps : Participants ω σ) (e : Fault) : Prop :=
  ∃ player ask c s s', ps.ask player = some ask ∧ (ask c).start s = (.error e, s')

/-- This fault is raised when it is asked whether to stop. -/
def Repetition.Raises {σ : Type} (r : Repetition σ) (e : Fault) : Prop :=
  ∃ stop h s s', r.stop = some stop ∧ (stop h).start s = (.error e, s')

/-- What is asked whether to stop fails only with faults of this sort. -/
def Repetition.FailsWith (r : Repetition σ) (E : Fault → Prop) : Prop :=
  ∀ stop h, r.stop = some stop → (stop h).Confined (fun _ => True) E

/-- A position of a repeated game is provided for when the position of the stage game is, and all
payoffs have one utility for each player. -/
def RoundPosition.Within (g : Game ω σ) (P : g.tree.Position → Prop) :
    RoundPosition g.tree.Position → Prop
  | .within p h _ => P p ∧ h.Sized g.numPlayers
  | .over e => (e.payoff.values.length : Int) = g.numPlayers

namespace Repetition

variable {r : Repetition σ} {g : Game ω σ} {P : g.tree.Position → Prop}

omit [Scale ω] in
theorem isFinished_confined (hr : r.FailsWith E) (h : History) :
    (r.isFinished h).Confined (fun _ => True) E := by
  unfold isFinished
  split
  · exact .pure trivial
  · cases hstop : r.stop with
    | none => exact .pure trivial
    | some stop => exact (hr stop h hstop).bind fun _ _ => .pure trivial

/-- Rounds that end without a move lead to what is provided for, too. -/
theorem settle_confined (hE : ∀ e, ¬ e.IsGap → E e) (hg : g.Provides P E) (hr : r.FailsWith E)
    (further : Nat) {p : g.tree.Position} {h : History} (hp : P p) (hsized : h.Sized g.numPlayers)
    (t : Transcript) : (r.settle g further p h t).Confined (RoundPosition.Within g P) E := by
  induction further using Nat.strongRecOn generalizing p h t with
  | ind further ih =>
      rcases (g.tree.node p).goesOn_or with ⟨e, hnode⟩ | ⟨v, hnode⟩ | hnode
      · have hsize := hg.sized hp hnode
        rw [settle_end r g hnode]
        refine .bind (.liftM (fun o ho => Ending.outcome_eq_ok ho)
          ((Ending.outcome_plain hsize t).mono fun e he => hE e he.not_isGap)) fun o ho => ?_
        have hsized' : (h.add o).Sized g.numPlayers := hsized.add (by rw [ho.2.1]; exact hsize)
        refine (isFinished_confined hr _).bind fun finished _ => ?_
        cases finished with
        | true =>
            refine .bind (.liftM (fun total htotal => History.length_score hsized' htotal)
              ((History.score_plain _).mono fun e he => hE e he.not_isGap)) fun total htotal => ?_
            exact .pure htotal
        | false =>
            cases further with
            | zero => exact .throw (hE _ id)
            | succ further =>
                exact hg.root.bind fun root hroot =>
                  ih further (Nat.lt_succ_self further) hroot hsized' .empty
      · rw [settle_stray hnode]
        exact .throw (hE _ id)
      · rw [settle_goesOn hnode]
        exact .pure ⟨hp, hsized⟩

end Repetition

namespace Game

variable {g : Game ω σ} {P : g.tree.Position → Prop} {ps : Participants ω σ} {maxDepth : Int}

/-- A game that is repeated provides for as much as it does when it is played once. -/
theorem Provides.repeated (hE : ∀ e, ¬ e.IsGap → E e) (hg : g.Provides P E) {r : Repetition σ}
    (hr : r.FailsWith E) (name : String) :
    (g.repeated r name).Provides (RoundPosition.Within g P) E where
  root := hg.root.bind fun root hroot =>
    Repetition.settle_confined hE hg hr _ hroot History.sized_empty _
  follow := by
    intro position key hposition hkey
    match position with
    | .within p h t =>
        have hkey : (g.tree.node p).Admits key := hkey.of_withState
        refine .bind (.liftM (Q := (· = key)) (fun found hfound => ?_)
          ((Node.lookupKey_plain _ _).mono fun e he => hE e he.not_isGap)) fun found hfound => ?_
        · have hlookup := ((g.tree.node p).withState_lookupKey _ key).symm.trans hfound
          rw [hkey.lookupKey] at hlookup
          cases hlookup
          rfl
        · rw [hfound]
          refine .bind (Q := fun next => ∃ q, next = some q ∧ RoundPosition.Within g P q) ?_ ?_
          · refine (hg.follow hposition.1 hkey).bind fun q hq => ?_
            refine (Repetition.settle_confined hE hg hr _ hq hposition.2 _).bind fun Q hQ => ?_
            exact .pure ⟨Q, rfl, hQ⟩
          · rintro _ ⟨Q, rfl, hQ⟩
            exact .pure hQ
    | .over e =>
        cases hkey with
        | joined hjoins => cases hjoins
  sized := by
    intro position e hposition hnode
    match position with
    | .within p h t =>
        refine hg.sized hposition.1 ?_
        cases heq : g.tree.node p with
        | terminal e' =>
            have hnode : (g.tree.node p).withState _ = .terminal e := hnode
            rw [heq] at hnode
            exact hnode
        | _ =>
            have hnode : (g.tree.node p).withState _ = .terminal e := hnode
            rw [heq] at hnode
            cases hnode
    | .over _ =>
        cases hnode
        exact hposition

/-- From a position that is provided for, a walk finds no gap. -/
theorem Provides.run (hE : ∀ e, ¬ e.IsGap → E e) (hg : g.Provides P E) (hps : ps.FailWith E)
    (visits : Nat) {w : Walk g.tree.Position} (hw : P w.position) :
    (Walk.run g.tree ps g.numPlayers maxDepth visits w).Confined (fun _ => True) E := by
  induction visits generalizing w with
  | zero => exact .pure trivial
  | succ visits ih =>
      by_cases hbound : maxDepth ≤ w.enter.visited
      · rw [Walk.run_cut_off hbound]
        exact .throw (hE _ id)
      · rcases (g.tree.node w.position).goesOn_or with ⟨e, hnode⟩ | ⟨v, hnode⟩ | hnode
        · rw [Walk.run_terminal hbound hnode]
          refine .bind (.liftM (fun _ _ => trivial) ?_) fun _ _ => .pure trivial
          exact (Ending.outcome_plain (hg.sized hw hnode) _).mono fun e he => hE e he.not_isGap
        · rw [Walk.run_stray hbound hnode]
          have hplain : (Fault.misused (.notNode v)).IsPlain := trivial
          exact .throw (hE _ hplain.told.not_isGap)
        · rw [Walk.run_goesOn hbound hnode]
          refine .bind (Walk.decide_confined (fun e he => hE e he.not_isGap) hps _)
            fun key hkey => ?_
          exact (hg.follow hw hkey).bind fun child hchild => ih hchild

/-- Nothing else comes of a play. -/
theorem Provides.play (hE : ∀ e, ¬ e.IsGap → E e) (hg : g.Provides P E) (hps : ps.FailWith E)
    (visits : Nat) : (g.play ps maxDepth visits).Confined (fun _ => True) E := by
  refine hg.root.bind fun root hroot => ?_
  refine .bind (.liftM (fun _ _ => trivial) ?_) fun _ _ => hg.run hE hps visits hroot
  exact (ps.check_plain _).mono fun e he => hE e he.not_isGap

/-- A game that is repeated, and repeated again, provides for everything still. -/
theorem Provides.repeatedAll (hE : ∀ e, ¬ e.IsGap → E e) (hg : g.Provides P E)
    {rs : List (Repetition σ × String)} (hrs : ∀ r ∈ rs, r.1.FailsWith E) :
    ∃ P, (g.repeatedAll rs).Provides P E := by
  induction rs generalizing g with
  | nil => exact ⟨P, hg⟩
  | cons r rs ih =>
      rw [List.forall_mem_cons] at hrs
      exact ih (hg.repeated hE hrs.1 r.2) hrs.2

/-- A gap that is told of in a play was raised by a player or when it was asked whether to stop. -/
theorem Provides.gap_of_play (hg : g.Provides P fun e => ¬ e.IsGap)
    {rs : List (Repetition σ × String)} {visits : Nat} {s s' : σ} {e : Fault} (hgap : e.IsGap)
    (hplay : ((g.repeatedAll rs).play ps maxDepth visits).start s = (.error e, s')) :
    ps.Raises e ∨ ∃ r ∈ rs, r.1.Raises e := by
  let E (e : Fault) : Prop := e.IsGap → ps.Raises e ∨ ∃ r ∈ rs, r.1.Raises e
  have hE (e : Fault) (he : ¬ e.IsGap) : E e := fun hgap => absurd hgap he
  have hps : ps.FailWith E := by
    intro player ask c hask _
    refine ⟨fun _ => trivial, fun {s s' e} hasked _ => ?_⟩
    exact .inl ⟨player, ask, c, s, s', hask, hasked⟩
  have hrs : ∀ r ∈ rs, r.1.FailsWith E := by
    intro r hr stop h hstop
    refine ⟨fun _ => trivial, fun {s s' e} hasked _ => ?_⟩
    exact .inr ⟨r, hr, stop, h, s, s', hstop, hasked⟩
  obtain ⟨P, hprovides⟩ := (hg.mono hE).repeatedAll hE hrs
  exact (hprovides.play hE hps visits).fault hplay hgap

/-- The same goes for a play that gives the last outcome and the history. -/
theorem Provides.gap_of_playRepeated (hg : g.Provides P fun e => ¬ e.IsGap)
    {rs : List (Repetition σ × String)} {r : Repetition σ} {visits : Nat} {s s' : σ} {e : Fault}
    (hgap : e.IsGap)
    (hplay : ((g.repeatedAll rs).playRepeated r ps visits).start s = (.error e, s')) :
    ps.Raises e ∨ ∃ r' ∈ rs ++ [(r, "")], r'.1.Raises e := by
  have hrepeated : (g.repeatedAll rs).repeated r "" = g.repeatedAll (rs ++ [(r, "")]) := by
    rw [Game.repeatedAll, Game.repeatedAll, List.foldl_append]
    rfl
  unfold Game.playRepeated at hplay
  rw [hrepeated] at hplay
  rcases hstart : ((g.repeatedAll (rs ++ [(r, "")])).play ps r.maxDepth visits).start s with
    ⟨e' | result, s₁⟩
  · rw [Run.start_bind_error hstart] at hplay
    cases hplay
    exact hg.gap_of_play hgap hstart
  · rw [Run.start_bind_ok hstart] at hplay
    rcases result with _ | ⟨_, _, _, _ | h⟩ <;> cases hplay
    cases hgap

end Game

end ExtensiveForm
