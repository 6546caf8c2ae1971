import ExtensiveForm.Proofs.Beside
import ExtensiveForm.Proofs.Same
import ExtensiveForm.Proofs.Steps

/-!
# Outcomes come of legal paths

A play that comes to an outcome has gone along a path of the tree. `Tree.LegalPath` says what is
legal of it: at each node every participant belongs to the game and makes one of the moves offered,
or chance draws what has a positive probability, and the key made of these moves is followed. It
also carries the transcript along, from node to node. `outcome_comes_of_a_legal_path` is the main
result. The log of the play shows, besides, that along the path everyone was asked once, with the
transcript of the node, and every key was followed once.
-/

namespace ExtensiveForm

/-- The key is one that the participants, or chance, may choose at the node. -/
inductive Node.Allows {ω σ : Type} [Scale ω] (ps : Participants ω σ) (numPlayers : Int) :
    Node ω → Value → Prop
  | joined {n : Node ω} {moves : List Value} {key : Value} (hjoins : n.Joins moves key)
      (hplayers : ∀ seat ∈ n.seats, ps.Seats numPlayers seat.player)
      (hmoves : List.Forall₂ (fun seat move => move.isAmong seat.moves = true) n.seats moves) :
      Allows ps numPlayers n key
  | drawn {d : Distribution ω} {state element : Value} (h : element ∈ d.support) :
      Allows ps numPlayers (.chance d state) element

/-- A visit of a node from which the game went on: the position, the transcript there, the key that
was followed, and the position that it led to. -/
structure Visit (P : Type) where
  position : P
  transcript : Transcript
  key : Value
  next : P

/-- What is written down of a visit: what everyone who decides at the node was shown, and then the
key that was followed. -/
def Visit.entries {ω σ : Type} [Scale ω] {t : Tree ω σ} (v : Visit t.Position) (numPlayers : Int) :
    List (Entry t.Position) :=
  ((t.node v.position).contexts numPlayers v.transcript).map .asked ++
    [.followed v.position v.key (some v.next)]

/-- A path of keys that may be chosen, from a position with a transcript to another one. The
transcript of a node is the one that its state carries, and otherwise that of the node before it
with the plies of the key that leads here. -/
inductive Tree.LegalPath {ω σ : Type} [Scale ω] (t : Tree ω σ) (ps : Participants ω σ)
    (numPlayers : Int) :
    t.Position → Transcript → List (Visit t.Position) → t.Position → Transcript → Prop
  | nil (p : t.Position) (transcript : Transcript) : LegalPath t ps numPlayers p transcript [] p
      transcript
  | cons {p q last : t.Position} {transcript final : Transcript} {key : Value}
      {path : List (Visit t.Position)} (hallows : (t.node p).Allows ps numPlayers key)
      (hleads : Run.Gives (t.follow p key) q)
      (hrest : LegalPath t ps numPlayers q ((t.node q).state.transcript?.getD
        (transcript.addAll ((t.node p).plies key))) path last final) :
      LegalPath t ps numPlayers p transcript (⟨p, transcript, key, q⟩ :: path) last final

namespace Walk

variable {ω σ : Type} [Scale ω] {t : Tree ω σ} {ps : Participants ω σ} {numPlayers maxDepth : Int}
  {I : σ → Prop} {v w : Walk t.Position} {s s' : σ} {key : Value} {keys : List Value}
  {root : t.Position}

/-- With a log beside the state, the same is decided, and everyone who decides was asked. -/
theorem decide_logged {P : Type} {transcript : Transcript} {n : Node ω}
    (h : (decide ps numPlayers transcript n).start s = (.ok key, s')) (log : List (Entry P)) :
    (decide (ps.logged P) numPlayers transcript n).start (s, log) =
      (.ok key, (s', ((n.contexts numPlayers transcript).map .asked).reverse ++ log)) := by
  rw [Participants.logged_eq, decide_noted h, List.foldl_flip_cons_eq_append]

theorem follow_logged {p q : t.Position} (hkey : (t.node p).lookupKey key = .ok key)
    (h : (t.follow p key).start s = (.ok q, s')) (log : List (Entry t.Position)) :
    (t.logged.follow p key).start (s, log) = (.ok q, (s', .followed p key (some q) :: log)) := by
  have hnext := Tree.next_of_follow hkey h
  refine Tree.follow_eq_ok.2 ⟨key, hkey, ?_⟩
  show ((t.next p key).logged (Entry.ofKey p key)).start (s, log) = _
  rw [Run.start_logged, hnext]
  rfl

variable [Scale.Ordered ω]

/-- What is decided for at a node is allowed there. -/
theorem allows_of_decide (hps : ps.Fair I) (hs : I s) {transcript : Transcript} {n : Node ω}
    (h : (decide ps numPlayers transcript n).start s = (.ok key, s')) :
    n.Allows ps numPlayers key ∧ I s' := by
  by_cases hchance : ∃ d state, n = .chance d state
  · obtain ⟨d, state, rfl⟩ := hchance
    have hdrawn := Distribution.mem_support_of_sample (hps.nonneg hs) h
    obtain ⟨-, -, rfl⟩ := Distribution.sample_eq_ok_iff.1 h
    exact ⟨.drawn hdrawn, hps.drawn hs⟩
  · have hplayers : ∀ d state, n ≠ .chance d state := fun d state h => hchance ⟨d, state, h⟩
    obtain ⟨moves, hjoins, hoffered, hmoves, hlegal⟩ := (Node.decide_eq_ok_iff hplayers).1 h
    have hkeeps : Run.Keeps I ((n.contexts numPlayers transcript).mapM ps.answer) :=
      .mapM (Participants.answer_keeps fun player ask hask c => hps.asked hask c) _
    refine ⟨.joined hjoins (fun seat hseat => ?_) hlegal, hkeeps.left hs hmoves⟩
    rw [Node.contexts_eq] at hmoves
    exact Participants.seats_of_answers ⟨s, s', hmoves⟩ (List.mem_map_of_mem hseat)

/-- Keys that a walk follows make a legal path, and the log tells it visit by visit. -/
theorem Follows.legal (hps : ps.Fair I) (ht : ∀ p key, Run.Keeps I (t.next p key))
    (h : Follows t ps numPlayers maxDepth w s keys v s') (hs : I s) :
    ∃ path, t.LegalPath ps numPlayers w.position w.transcript path v.position v.transcript ∧
      ∀ log, Follows t.logged (ps.logged t.Position) numPlayers maxDepth w (s, log) keys v
        (s', (path.flatMap (Visit.entries · numPlayers)).reverse ++ log) := by
  induction h with
  | nil w s => exact ⟨[], .nil _ _, fun log => .nil (t := t.logged) w (s, log)⟩
  | @cons w v child key keys s s₁ s₂ s' hbound hnode hkey hchild hrest ih =>
      obtain ⟨hallows, hs₁⟩ := allows_of_decide hps hs hkey
      obtain ⟨found, -, hnext⟩ := Tree.follow_eq_ok.1 hchild
      obtain ⟨path, hpath, hlog⟩ := ih ((ht _ found).left hs₁ hnext)
      rw [goOn_position, enter_goOn_transcript] at hpath
      refine ⟨⟨w.position, w.transcript, key, child⟩ :: path,
        .cons hallows ⟨s₁, s₂, hchild⟩ hpath, fun log => ?_⟩
      have hfollowed := follow_logged (lookupKey_of_decide hkey) hchild
        ((((t.node w.position).contexts numPlayers w.transcript).map .asked).reverse ++ log)
      refine .cons (t := t.logged) hbound hnode (decide_logged hkey log) hfollowed ?_
      rw [List.flatMap_cons, List.reverse_append, List.append_assoc, Visit.entries,
        List.reverse_append]
      exact hlog _

end Walk

/-- A play that comes to an outcome has gone along a legal path from the root to an end of the game,
and its transcript is that of the path. The outcome has the payoff of this end, one utility for each
player, and the profile that the end gives or that the transcript has. In the log of the play there
are the visits of the path and nothing else. All this holds of whatever plays with a source of
numbers that are not negative, as long as nobody exchanges the source for another one. -/
theorem Tree.outcome_comes_of_a_legal_path {ω σ : Type} [Scale ω] [Scale.Ordered ω]
    (t : Tree ω σ) (ps : Participants ω σ) (numPlayers maxDepth : Int) (visits : Nat)
    (root : t.Position) {I : σ → Prop} (hps : ps.Fair I) (ht : ∀ p key, Run.Keeps I (t.next p key))
    {s s' : σ} (hs : I s) {o : Outcome}
    (h : (execute t ps numPlayers maxDepth visits root).start s = (.ok (some o), s')) :
    ∃ path last e,
      t.LegalPath ps numPlayers root ((t.node root).state.transcript?.getD .empty) path last
        o.transcript ∧
      t.node last = .terminal e ∧ o.payoff = e.payoff ∧
      (o.payoff.values.length : Int) = numPlayers ∧
      e.profileAfter o.transcript numPlayers = .ok o.profile ∧ o.history = e.history ∧
      (execute t.logged (ps.logged t.Position) numPlayers maxDepth visits root).start (s, []) =
        (.ok (some o), (s', (path.flatMap (Visit.entries · numPlayers)).reverse)) := by
  cases hcheck : ps.check numPlayers with
  | error f =>
      rw [execute_eq_throw hcheck] at h
      cases h
  | ok =>
      rw [execute_eq hcheck] at h
      obtain ⟨keys, v, hfollows, hvisits, hbound, e, hnode, houtcome⟩ :=
        Walk.run_eq_some_iff.1 h
      obtain ⟨path, hpath, hlog⟩ := hfollows.legal hps ht hs
      obtain ⟨hsize, hpayoff, htranscript, hhistory, hprofile⟩ := Ending.outcome_eq_ok houtcome
      refine ⟨path, v.position, e, htranscript ▸ hpath, hnode, hpayoff, hpayoff ▸ hsize,
        htranscript ▸ hprofile, hhistory, ?_⟩
      have hlogged := hlog []
      rw [List.append_nil] at hlogged
      have hcheck' : (ps.logged t.Position).check numPlayers = .ok () := hcheck
      refine (congrArg (Run.start · (s, [])) (execute_eq (t := t.logged) hcheck' _ _ _)).trans ?_
      exact Walk.run_eq_some_iff.2 ⟨keys, v, hlogged, hvisits, hbound, e, hnode, houtcome⟩

theorem Tree.naming_fair (side : Value) : (naming side).Fair fun _ => True where
  nonneg _ := le_refl 0
  drawn _ := trivial
  asked _ _ _ _ := trivial

/-- The path of a coin that falls on its first side, which a player then names. -/
theorem Tree.toss_comes_of_a_legal_path :
    (naming (.int 1)).Fair (fun _ => True) ∧
      ∃ path last e,
        (toss (.int 0) (.int 1)).LegalPath (naming (.int 1)) 1 (0 : Nat) .empty path last
          ⟨[⟨.int 0, .int 1⟩, ⟨.null, .int 1⟩]⟩ ∧
        (toss (.int 0) (.int 1)).node last = .terminal e ∧ Payoff.mk [.int 1] = e.payoff := by
  obtain ⟨path, last, e, hpath, hnode, hpayoff, -⟩ := outcome_comes_of_a_legal_path _ _ 1 64 3 _
    (naming_fair _) (fun _ _ _ _ => trivial) trivial toss_endsAfter.1
  exact ⟨naming_fair _, path, last, e, hpath, hnode, hpayoff⟩

end ExtensiveForm
