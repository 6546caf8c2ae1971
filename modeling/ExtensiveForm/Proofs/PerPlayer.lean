import ExtensiveForm.Proofs.Profile
import ExtensiveForm.Proofs.Sessions

/-!
# Transcripts player by player

A transcript may be read only through its length and through the moves of each player, without
looking at the order in which different players moved. `Transcript.SameByPlayer` says that two
transcripts are the same to such a reader. The profile of a transcript does not depend on that order
either (`profile?_of_perm`).

`Strategy.ReadsByPlayer` says that a strategy is such a reader: whatever functions it asks answer
the same for transcripts that are the same player by player, and so does the strategy
(`next_sameByPlayer`).
-/

namespace ExtensiveForm.Transcript

/-- Both transcripts are of the same length, and everyone, chance included, made the same moves in
the same order. -/
structure SameByPlayer (t t' : Transcript) : Prop where
  length : t'.length = t.length
  movesBy (player : Value) : t'.movesBy player = t.movesBy player

variable {t t' t₁ : Transcript} {player : Value} {numPlayers : Int}
  {known known' : List (Nat × Value)} {plies plies' : List Ply}

theorem SameByPlayer.refl (t : Transcript) : t.SameByPlayer t :=
  ⟨rfl, fun _ => rfl⟩

theorem firstMoveBy?_eq (t : Transcript) (player : Value) :
    t.firstMoveBy? player = (t.movesBy player).head? := by
  rw [firstMoveBy?, movesBy, List.head?_map, List.head?_filter]

theorem lastMoveBy?_eq (t : Transcript) (player : Value) :
    t.lastMoveBy? player = (t.movesBy player).getLast? := by
  rw [lastMoveBy?, movesBy, plies, List.filter_reverse, List.map_reverse, List.getLast?_reverse,
    List.head?_map, List.head?_filter]

/-- The first and the last move of each player are the same, too. -/
theorem SameByPlayer.first_last (h : t.SameByPlayer t') (player : Value) :
    t'.firstMoveBy? player = t.firstMoveBy? player ∧
      t'.lastMoveBy? player = t.lastMoveBy? player := by
  rw [firstMoveBy?_eq, firstMoveBy?_eq, lastMoveBy?_eq, lastMoveBy?_eq, h.movesBy]
  exact ⟨rfl, rfl⟩

/-! ### Plies in another order -/

/-- Both transcripts hold the same plies, those of each player in the same order. -/
structure Reordered (t t' : Transcript) : Prop extends t.SameByPlayer t' where
  perm : t.plies.Perm t'.plies

theorem Reordered.refl (t : Transcript) : t.Reordered t :=
  ⟨.refl t, .refl _⟩

/-- Such transcripts remain so when more plies are added, in an order that may be another one for
different players. -/
theorem Reordered.addAll (h : t.Reordered t') (hperm : plies.Perm plies')
    (hsame : ∀ player : Value,
      plies'.filter (·.player == player) = plies.filter (·.player == player)) :
    (t.addAll plies).Reordered (t'.addAll plies') where
  length := by
    have hlength := h.length
    simp only [Transcript.length, addAll_eq, List.length_append, List.length_reverse] at hlength ⊢
    rw [hlength, hperm.length_eq]
  movesBy player := by
    rw [movesBy_addAll, movesBy_addAll, h.movesBy, hsame]
  perm := by
    rw [plies_addAll, plies_addAll]
    exact h.perm.append hperm

/-- Of the moves that are known, only that of each player counts. -/
def moveOf (known : List (Nat × Value)) (index : Nat) : Option Value :=
  known.lookup index

/-- What is known of the players who moved once, without the order in which they moved. -/
def onceMoved (numPlayers : Int) (known : List (Nat × Value)) (plies : List Ply) :
    Except Fault (Option (Nat → Option Value)) :=
  (onlyMoves numPlayers known plies).map (Option.map moveOf)

theorem onceMoved_cons_none {p : Ply} (hseat : seat? p.player numPlayers = .ok none) :
    onceMoved numPlayers known (p :: plies) = onceMoved numPlayers known plies := by
  rw [onceMoved, onlyMoves_cons_none hseat, onceMoved]

theorem onceMoved_cons_some {p : Ply} {index : Nat}
    (hseat : seat? p.player numPlayers = .ok (some index)) :
    onceMoved numPlayers known (p :: plies) =
      if (moveOf known index).isSome then .ok none
      else onceMoved numPlayers ((index, p.move) :: known) plies := by
  rw [onceMoved, onlyMoves_cons_some hseat, moveOf]
  split <;> rfl

theorem onceMoved_cons_error {p : Ply} {f : Fault}
    (hseat : seat? p.player numPlayers = .error f) :
    onceMoved numPlayers known (p :: plies) = .error f := by
  rw [onceMoved, onlyMoves_cons_error hseat]
  rfl

theorem moveOf_cons (index : Nat) (move : Value) (known : List (Nat × Value)) :
    moveOf ((index, move) :: known) =
      fun other => if other = index then some move else moveOf known other := by
  funext other
  rw [moveOf, List.lookup_cons]
  by_cases hsame : other = index
  · rw [if_pos hsame, beq_iff_eq.2 hsame]
  · rw [if_neg hsame, beq_eq_false_iff_ne.2 hsame]
    rfl

/-- What becomes known does not depend on the order of what is known. -/
theorem onceMoved_congr (plies : List Ply) (hknown : moveOf known = moveOf known') :
    onceMoved numPlayers known plies = onceMoved numPlayers known' plies := by
  induction plies generalizing known known' with
  | nil => exact congrArg (fun f => Except.ok (some f)) hknown
  | cons p plies ih =>
      rcases hseat : seat? p.player numPlayers with f | _ | index
      · rw [onceMoved_cons_error hseat, onceMoved_cons_error hseat]
      · rw [onceMoved_cons_none hseat, onceMoved_cons_none hseat, ih hknown]
      · have hmore : moveOf ((index, p.move) :: known) = moveOf ((index, p.move) :: known') := by
          rw [moveOf_cons, moveOf_cons, hknown]
        rw [onceMoved_cons_some hseat, onceMoved_cons_some hseat, hknown, ih hmore]

/-- Two moves may be exchanged. -/
theorem onceMoved_swap {p q : Ply} {seat seat' : Option Nat}
    (hseat : seat? p.player numPlayers = .ok seat)
    (hseat' : seat? q.player numPlayers = .ok seat') :
    onceMoved numPlayers known (p :: q :: plies) =
      onceMoved numPlayers known (q :: p :: plies) := by
  cases seat with
  | none =>
      rw [onceMoved_cons_none hseat]
      cases seat' with
      | none => rw [onceMoved_cons_none hseat', onceMoved_cons_none hseat', onceMoved_cons_none hseat]
      | some j =>
          rw [onceMoved_cons_some hseat', onceMoved_cons_some hseat', onceMoved_cons_none hseat]
  | some i =>
      cases seat' with
      | none =>
          rw [onceMoved_cons_some hseat, onceMoved_cons_none hseat', onceMoved_cons_none hseat',
            onceMoved_cons_some hseat]
      | some j =>
          simp only [onceMoved_cons_some hseat, onceMoved_cons_some hseat', moveOf_cons]
          by_cases hsame : i = j
          · -- The same player moves twice, in whatever order.
            subst hsame
            simp
          · have hsame' : ¬ j = i := fun h => hsame h.symm
            have hboth : moveOf ((j, q.move) :: (i, p.move) :: known) =
                moveOf ((i, p.move) :: (j, q.move) :: known) := by
              funext k
              simp only [moveOf_cons]
              by_cases hi : k = i
              · rw [if_pos hi, if_neg (hi ▸ hsame), if_pos hi]
              · rw [if_neg hi, if_neg hi]
            rw [if_neg hsame, if_neg hsame', onceMoved_congr plies hboth]
            cases (moveOf known i).isSome <;> cases (moveOf known j).isSome <;> rfl

/-- So moves of players under their numbers, and of chance, may be made in any order. -/
theorem onceMoved_perm (hperm : plies.Perm plies')
    (hnames : ∀ ply ∈ plies, ply.player = .null ∨ ∃ p : Nat, ply.player = .int p)
    (known : List (Nat × Value)) :
    onceMoved numPlayers known plies = onceMoved numPlayers known plies' := by
  induction hperm generalizing known with
  | nil => rfl
  | cons p _ ih =>
      rw [List.forall_mem_cons] at hnames
      obtain ⟨seat, hseat⟩ := exists_seat hnames.1 numPlayers
      cases seat with
      | none => rw [onceMoved_cons_none hseat, onceMoved_cons_none hseat, ih hnames.2]
      | some index => rw [onceMoved_cons_some hseat, onceMoved_cons_some hseat, ih hnames.2]
  | swap p q plies =>
      simp only [List.forall_mem_cons] at hnames
      obtain ⟨seat, hseat⟩ := exists_seat hnames.1 numPlayers
      obtain ⟨seat', hseat'⟩ := exists_seat hnames.2.1 numPlayers
      exact onceMoved_swap hseat hseat'
  | trans hperm _ ih ih' =>
      exact (ih hnames known).trans (ih' (fun ply hply => hnames ply (hperm.mem_iff.2 hply)) known)

/-- A transcript has the profile of the players who moved once. -/
theorem profile?_eq_onceMoved (t : Transcript) (numPlayers : Int) :
    t.profile? numPlayers = (onceMoved numPlayers [] t.plies).map (Option.bind · fun moves =>
      ((List.range numPlayers.toNat).mapM moves).map (⟨·⟩)) := by
  unfold profile? onceMoved
  rcases onlyMoves numPlayers [] t.plies with f | _ | known <;> rfl

/-- The order of the moves makes no difference to the profile. -/
theorem profile?_of_perm (ht : t.NamesNumbers) (hperm : t.plies.Perm t'.plies) :
    t'.profile? numPlayers = t.profile? numPlayers := by
  rw [profile?_eq_onceMoved, profile?_eq_onceMoved, onceMoved_perm hperm ht]

end ExtensiveForm.Transcript

namespace ExtensiveForm

variable {μ ω : Type} [Scale ω]

/-! ### Strategies that read player by player -/

/-- The function answers the same when it is shown a transcript that is the same player by
player. -/
def Responder.ReadsByPlayer (r : Responder μ) : Prop :=
  ∀ (c : Context) (t : Transcript) (memory : μ), c.transcript.SameByPlayer t →
    r.respond { c with transcript := t } memory = r.respond c memory

theorem Responder.ReadsByPlayer.ask {r : Responder μ} (h : r.ReadsByPlayer) {c : Context}
    {t : Transcript} (ht : c.transcript.SameByPlayer t) :
    r.ask { c with transcript := t } = r.ask c := by
  simp only [Responder.ask, h c t r.memory ht]

theorem Responder.ReadsByPlayer.holds {r : Responder μ} (h : r.ReadsByPlayer) {c : Context}
    {t : Transcript} (ht : c.transcript.SameByPlayer t) :
    r.holds { c with transcript := t } = r.holds c := by
  simp only [Responder.holds, h.ask ht]

/-- What the function remembers makes no other function of it. -/
theorem Responder.ReadsByPlayer.holds_after {r : Responder μ} (h : r.ReadsByPlayer) (c : Context) :
    (r.holds c).2.ReadsByPlayer :=
  h

namespace Strategy

mutual

/-- All functions that the strategy asks read the transcript player by player. -/
def ReadsByPlayer : Strategy μ ω → Prop
  | .periodic strategies _ => AllReadByPlayer strategies
  | .conditional condition onTrue onFalse =>
      condition.ReadsByPlayer ∧ onTrue.ReadsByPlayer ∧ onFalse.ReadsByPlayer
  | .trigger condition before after _ =>
      condition.ReadsByPlayer ∧ before.ReadsByPlayer ∧ after.ReadsByPlayer
  | .function _ responder => responder.ReadsByPlayer
  | .pure _ => True
  | .mixed _ _ => True
  | .random _ => True
termination_by structural s => s

/-- All functions that the strategies ask read the transcript player by player. -/
def AllReadByPlayer : List (Strategy μ ω) → Prop
  | [] => True
  | s :: rest => s.ReadsByPlayer ∧ AllReadByPlayer rest
termination_by structural ss => ss

end

mutual

/-- Such a strategy answers the same when it is shown a transcript that is the same player by
player, and remains such a strategy. -/
theorem next_sameByPlayer (s : Strategy μ ω) (h : s.ReadsByPlayer) {c : Context} {t : Transcript}
    (ht : c.transcript.SameByPlayer t) (g : Generator ω) :
    s.next { c with transcript := t } g = s.next c g ∧ (s.next c g).after.ReadsByPlayer := by
  cases s with
  | pure move => exact ⟨rfl, trivial⟩
  | mixed d own => exact ⟨rfl, trivial⟩
  | random own => exact ⟨rfl, trivial⟩
  | periodic strategies turn =>
      obtain ⟨hnext, hafter⟩ := nextAt_sameByPlayer strategies turn h ht g
      refine ⟨?_, hafter⟩
      rw [next, hnext]
      rfl
  | conditional condition onTrue onFalse =>
      obtain ⟨hcondition, htrue, hfalse⟩ := h
      have hholds := hcondition.holds_after c
      rw [next, next, hcondition.holds ht]
      rcases hheld : condition.holds c with ⟨_ | _ | _, condition⟩ <;> rw [hheld] at hholds
      · exact ⟨rfl, hholds, htrue, hfalse⟩
      · obtain ⟨hnext, hafter⟩ := next_sameByPlayer onFalse hfalse ht g
        exact ⟨congrArg (Reply.map _) hnext, hholds, htrue, hafter⟩
      · obtain ⟨hnext, hafter⟩ := next_sameByPlayer onTrue htrue ht g
        exact ⟨congrArg (Reply.map _) hnext, hholds, hafter, hfalse⟩
  | trigger condition before after triggered =>
      obtain ⟨hcondition, hbefore, hafter⟩ := h
      obtain ⟨hnext, hlater⟩ := next_sameByPlayer after hafter ht g
      cases triggered with
      | true => exact ⟨congrArg (Reply.map _) hnext, hcondition, hbefore, hlater⟩
      | false =>
          have hholds := hcondition.holds_after c
          rw [next, next, hcondition.holds ht]
          rcases hheld : condition.holds c with ⟨_ | _ | _, condition⟩ <;> rw [hheld] at hholds
          · exact ⟨rfl, hholds, hbefore, hafter⟩
          · obtain ⟨hnext', hlater'⟩ := next_sameByPlayer before hbefore ht g
            exact ⟨congrArg (Reply.map _) hnext', hholds, hlater', hafter⟩
          · exact ⟨congrArg (Reply.map _) hnext, hholds, hbefore, hlater⟩
  | function name responder =>
      refine ⟨?_, h⟩
      simp only [next, Responder.ReadsByPlayer.ask h ht]
termination_by structural s

theorem nextAt_sameByPlayer (ss : List (Strategy μ ω)) (place : Nat) (h : AllReadByPlayer ss)
    {c : Context} {t : Transcript} (ht : c.transcript.SameByPlayer t) (g : Generator ω) :
    nextAt ss place { c with transcript := t } g = nextAt ss place c g ∧
      AllReadByPlayer (nextAt ss place c g).after := by
  cases ss with
  | nil => exact ⟨rfl, trivial⟩
  | cons s rest =>
      obtain ⟨hfirst, hrest⟩ := h
      cases place with
      | zero =>
          obtain ⟨hnext, hafter⟩ := next_sameByPlayer s hfirst ht g
          exact ⟨congrArg (Reply.map _) hnext, hafter, hrest⟩
      | succ place =>
          obtain ⟨hnext, hafter⟩ := nextAt_sameByPlayer rest place hrest ht g
          exact ⟨congrArg (Reply.map _) hnext, hfirst, hafter⟩
termination_by structural ss

end

end Strategy

namespace Candidate

/-- All functions that the candidate asks read the transcript player by player. -/
def ReadsByPlayer : Candidate μ ω → Prop
  | .strategy s => s.ReadsByPlayer
  | .function _ responder => responder.ReadsByPlayer
  | .value _ => True

theorem next_sameByPlayer (x : Candidate μ ω) (h : x.ReadsByPlayer) {c : Context}
    {t : Transcript} (ht : c.transcript.SameByPlayer t) (g : Generator ω) :
    x.next { c with transcript := t } g = x.next c g ∧ (x.next c g).after.ReadsByPlayer := by
  cases x with
  | strategy s =>
      obtain ⟨hnext, hafter⟩ := s.next_sameByPlayer h ht g
      exact ⟨congrArg (Reply.map _) hnext, hafter⟩
  | function name responder =>
      refine ⟨?_, h⟩
      simp only [next, Responder.ReadsByPlayer.ask h ht]
  | value v => exact ⟨rfl, trivial⟩

end Candidate

end ExtensiveForm
