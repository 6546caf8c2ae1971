import ExtensiveForm.Proofs.Log
import ExtensiveForm.Proofs.Rounds

/-!
# What is shown in a repeated game

The log of a repeated game tells which plays of the stage game were begun and which keys were
followed in them. From this alone it can be told what came to pass before anyone was asked:
`Game.roundsDone` are the outcomes of the rounds that were over, and `Game.movesMade` are the moves
of the round in progress. The main result, `players_are_shown_the_rounds`, says that everyone who is
asked in a repeated game is shown just that, whatever states the stage game has of its own.
-/

namespace ExtensiveForm.Game

variable {ω σ : Type} [Scale ω]

/-- The moves of the round in progress according to a log. -/
def movesMade (g : Game ω σ) : List (Entry g.tree.Position) → Transcript
  | [] => .empty
  | .began _ :: _ => .empty
  | .followed p key _ :: before => (movesMade g before).addAll ((g.tree.node p).plies key)
  | .asked _ :: before => movesMade g before

/-- The outcome of the round in progress, if it is at its end according to a log. -/
def roundOutcome? (g : Game ω σ) (log : List (Entry g.tree.Position)) : Option Outcome :=
  match (lastPosition log).map g.tree.node with
  | some (.terminal e) => (e.outcome (g.movesMade log) g.numPlayers).toOption
  | _ => none

/-- The rounds that were over when the round in progress began, according to a log. -/
def roundsDone (g : Game ω σ) : List (Entry g.tree.Position) → History
  | [] => .empty
  | .began _ :: before =>
      match g.roundOutcome? before with
      | some o => (roundsDone g before).add o
      | none => roundsDone g before
  | .followed _ _ _ :: before => roundsDone g before
  | .asked _ :: before => roundsDone g before

/-- The stage game is at this position, after these rounds and these moves of the round in
progress. -/
structure At (g : Game ω σ) (p : g.tree.Position) (h : History) (t : Transcript)
    (log : List (Entry g.tree.Position)) : Prop where
  position : lastPosition log = some p
  rounds : g.roundsDone log = h
  moves : g.movesMade log = t

/-- What someone is shown is what a log tells: the rounds that are over, the moves of the round in
progress, and the state of the stage game. -/
def Fits (g : Game ω σ) (c : Context) (log : List (Entry g.tree.Position)) : Prop :=
  ∃ p, g.At p c.history c.transcript log ∧
    c.state = .roundState ⟨c.history, (g.tree.node p).state, c.transcript⟩

/-- Everyone who was asked so far was shown what the log told then. -/
def Faithful (g : Game ω σ) : List (Entry g.tree.Position) → Prop :=
  Justified fun
    | .asked c, before => g.Fits c before
    | _, _ => True

/-- Everyone was shown what the log told, and the stage game is at this position. -/
def FaithfulAt (g : Game ω σ) (p : g.tree.Position) (h : History) (t : Transcript)
    (log : List (Entry g.tree.Position)) : Prop :=
  g.Faithful log ∧ g.At p h t log

variable {g : Game ω σ} {p q : g.tree.Position} {h : History} {t : Transcript}
  {log : List (Entry g.tree.Position)}

/-- When the round in progress is over, its outcome counts among the rounds before the next one. -/
theorem At.began {e : Ending} {o : Outcome} (hat : g.At p h t log)
    (hnode : g.tree.node p = .terminal e) (ho : e.outcome t g.numPlayers = .ok o)
    (root : g.tree.Position) : g.At root (h.add o) .empty (.began root :: log) := by
  have houtcome : g.roundOutcome? log = some o := by
    simp only [roundOutcome?, hat.position, Option.map_some, hnode, hat.moves, ho]
    rfl
  exact ⟨rfl, by simp only [roundsDone, houtcome, hat.rounds], rfl⟩

theorem At.followed (hat : g.At p h t log) (key : Value) (q : g.tree.Position) :
    g.At q h (t.addAll ((g.tree.node p).plies key)) (.followed p key (some q) :: log) :=
  ⟨rfl, hat.rounds, by simp only [movesMade, hat.moves]⟩

theorem At.asked (hat : g.At p h t log) (c : Context) : g.At p h t (.asked c :: log) :=
  ⟨hat.position, hat.rounds, hat.moves⟩

/-- The rounds that are over stay on record, in this order. -/
theorem roundsDone_of_suffix {before : List (Entry g.tree.Position)} (h : before <:+ log) :
    (g.roundsDone before).outcomes <+: (g.roundsDone log).outcomes := by
  obtain ⟨later, rfl⟩ := h
  induction later with
  | nil => exact List.prefix_refl _
  | cons entry later ih =>
      refine ih.trans ?_
      cases entry with
      | began root =>
          simp only [List.cons_append, roundsDone]
          cases g.roundOutcome? (later ++ before) with
          | none => exact List.prefix_refl _
          | some o => exact ⟨[o], List.reverse_cons.symm⟩
      | _ => exact List.prefix_refl _

/-- What is true of the log at a position of the repeated game, with the transcript that is kept
beside it: everyone was shown what the log told, and within a round the position tells the same. -/
def LogAt (g : Game ω σ) :
    RoundPosition g.tree.Position → Transcript → List (Entry g.tree.Position) → Prop
  | .within p h t, t', log => g.FaithfulAt p h t log ∧ (g.tree.node p).goesOn = true ∧ t' = t
  | .over _, _, log => g.Faithful log

/-- A settled position of a round tells its transcript, so the one that was kept beside it is not
used. -/
theorem logAt_within (hlog : g.FaithfulAt p h t log)
    (hnode : (g.tree.node p).goesOn = true) (played : Transcript) :
    g.LogAt (.within p h t)
      (((RoundPosition.within p h t).node g.tree).state.transcript?.getD played) log := by
  have hstate : ((RoundPosition.within p h t).node g.tree).state =
      .roundState ⟨h, (g.tree.node p).state, t⟩ := Node.withState_state hnode _
  rw [hstate]
  exact ⟨hlog, hnode, rfl⟩

/-- Asking for an end of the repetition tells nothing of a log. -/
theorem isFinished_logs {ε : Type} {I E : List ε → Prop} (r : Repetition σ) (h : History)
    (hE : ∀ log, I log → E log) :
    Run.Logs I (r.isFinished h) ((r.logged ε).isFinished h) (fun _ => I) E := by
  unfold Repetition.isFinished
  rw [Repetition.logged_rounds, Repetition.logged_stop]
  refine .ite (.pure _ fun _ hlog => hlog) ?_
  cases r.stop with
  | none => exact .pure _ fun _ hlog => hlog
  | some stop =>
      refine .bind (Q := fun _ => I) (.logged fun result log hlog => ?_) fun _ _ =>
        .pure _ fun _ hlog => hlog
      cases result with
      | ok v => exact hlog
      | error f => exact hE log hlog

/-- Beginning the stage game. -/
theorem root_logs {e : Ending} {o : Outcome} (hnode : g.tree.node p = .terminal e)
    (ho : e.outcome t g.numPlayers = .ok o) :
    Run.Logs (g.FaithfulAt p h t) g.root g.logged.root
      (g.FaithfulAt · (h.add o) .empty) g.Faithful := by
  rw [logged_root]
  refine .logged fun result log hlog => ?_
  cases result with
  | ok root => exact ⟨hlog.1.cons trivial, hlog.2.began hnode ho root⟩
  | error f => exact hlog.1

/-- Settling a position of the stage game keeps the log faithful. -/
theorem settle_logs (r : Repetition σ) (further : Nat) (p : g.tree.Position) (h : History)
    (t played : Transcript) :
    Run.Logs (g.FaithfulAt p h t) (r.settle g further p h t)
      ((r.logged (Entry g.tree.Position)).settle g.logged further p h t)
      (fun P => g.LogAt P ((P.node g.tree).state.transcript?.getD played)) g.Faithful := by
  -- By induction on the rounds that may still begin before the next move: each of them leaves the
  -- log faithful at its root, with one more round on record.
  induction further using Nat.strongRecOn generalizing p h t with
  | ind further ih =>
      have hweaker : ∀ log, g.FaithfulAt p h t log → g.Faithful log := fun _ => And.left
      rcases (g.tree.node p).goesOn_or with ⟨e, hnode⟩ | ⟨v, hnode⟩ | hnode
      · rw [Repetition.settle_end r g hnode,
          Repetition.settle_end (r.logged (Entry g.tree.Position)) g.logged hnode]
        refine .bind (.given _ hweaker) fun o ho => ?_
        replace ho : e.outcome t g.numPlayers = .ok o := by
          obtain ⟨s, s', ho⟩ := ho
          exact congrArg Prod.fst ho
        refine .bind (isFinished_logs r _ hweaker) fun finished _ => ?_
        refine .ite ?_ ?_
        · exact .bind (.given _ hweaker) fun score _ => .pure _ hweaker
        · cases further with
          | zero => exact .throw _ hweaker
          | succ further =>
              exact .bind (root_logs hnode ho) fun root _ =>
                ih further (Nat.lt_succ_self further) root (h.add o) .empty
      · have hnode' : g.logged.tree.node p = .stray v := hnode
        rw [Repetition.settle_stray hnode, Repetition.settle_stray hnode']
        exact .throw _ hweaker
      · have hnode' : (g.logged.tree.node p).goesOn = true := hnode
        rw [Repetition.settle_goesOn hnode, Repetition.settle_goesOn hnode']
        exact .pure _ fun log hlog => logAt_within hlog hnode played

/-- Following a key of the stage game makes a move of the round. -/
theorem follow_logs {key : Value} (hkey : (g.tree.node p).lookupKey key = .ok key) :
    Run.Logs (g.FaithfulAt p h t) (g.tree.follow p key) (g.logged.tree.follow p key)
      (g.FaithfulAt · h (t.addAll ((g.tree.node p).plies key))) g.Faithful := by
  refine Tree.follow_logs hkey (fun log hlog => ?_) fun q log _ hlog => ?_
  · exact hlog.1.cons trivial
  · exact ⟨hlog.1.cons trivial, hlog.2.followed key q⟩

/-- Following the keys of a repeated game with a log of the stage game. -/
abbrev loggedNext (g : Game ω σ) (r : Repetition σ) : RoundPosition g.tree.Position → Value →
    Run (σ × List (Entry g.tree.Position)) (Option (RoundPosition g.tree.Position)) :=
  (g.logged.repeatedTree (r.logged (Entry g.tree.Position))).next

theorem follow_within_logged {r : Repetition σ} {key : Value}
    (hkey : (g.tree.node p).lookupKey key = .ok key) :
    ((g.repeatedTree r).withNext (g.loggedNext r)).follow (.within p h t) key = (do
      let q ← g.logged.tree.follow p key
      (r.logged (Entry g.tree.Position)).settle g.logged (r.further h) q h
        (t.addAll ((g.tree.node p).plies key))) := by
  refine Tree.follow_eq (t := (g.repeatedTree r).withNext (g.loggedNext r))
    ((Node.withState_lookupKey _ _).trans hkey) ?_
  exact (bind_assoc (g.logged.tree.follow p key) _ _).symm

/-- With a log that tells nothing yet, a repeated game is begun at its first round. -/
theorem repeated_root_logs (r : Repetition σ) (name : String) :
    Run.Logs (· = []) (g.repeated r name).root (g.logged.repeated (r.logged _) name).root
      (fun P => g.LogAt P ((P.node g.tree).state.transcript?.getD .empty)) g.Faithful := by
  have hroot : Run.Logs (· = []) g.root (g.root.logged Entry.ofRoot)
      (g.FaithfulAt · .empty .empty) g.Faithful := by
    refine .logged fun result log hlog => ?_
    subst hlog
    cases result with
    | ok root => exact ⟨Justified.nil.cons trivial, rfl, rfl, rfl⟩
    | error f => exact Justified.nil
  exact hroot.bind fun root _ => settle_logs r _ root .empty .empty .empty

variable {ps : Participants ω σ}

/-- The tree of a repeated game whose keys are followed with a log is the tree of the game with a
log, played several times in a row. -/
theorem execute_logged (r : Repetition σ)
    (ps : Participants ω (σ × List (Entry g.tree.Position))) (numPlayers maxDepth : Int)
    (visits : Nat) (P : RoundPosition g.tree.Position) :
    execute (g.logged.repeatedTree (r.logged _)) ps numPlayers maxDepth visits P =
      execute ((g.repeatedTree r).withNext (g.loggedNext r)) ps numPlayers maxDepth visits P := by
  have hnode : RoundPosition.node g.logged.tree = RoundPosition.node g.tree := by
    funext P
    cases P <;> rfl
  exact congrArg (fun node => execute ⟨RoundPosition g.tree.Position, node, _⟩ ps numPlayers
    maxDepth visits P) hnode

/-- Walking a repeated game keeps its log faithful. -/
theorem repeated_keepsLog (r : Repetition σ) :
    Walk.KeepsLog (g.repeatedTree r) ps g.numPlayers (g.loggedNext r) g.LogAt g.Faithful where
  asked P transcript c hc log hlog := by
    obtain ⟨hstate, htranscript, hnode⟩ := Node.eq_of_mem_contexts hc
    cases P with
    | within p h t =>
        obtain ⟨⟨hfaithful, hat⟩, hgoesOn, ht⟩ := hlog
        replace hstate : c.state = .roundState ⟨h, (g.tree.node p).state, t⟩ :=
          hstate.trans (Node.withState_state hgoesOn _)
        have hhistory : c.history = h := by
          rw [Context.history, hstate]
          rfl
        -- The lifted state tells all of it, so what the stage game's own state tells is not used.
        have hshown : g.Fits c log := by
          rw [Fits, hhistory, htranscript, ht]
          exact ⟨p, hat, hstate⟩
        exact ⟨⟨hfaithful.cons hshown, hat.asked c⟩, hgoesOn, ht⟩
    | _ => cases hnode
  followed P transcript key hnode hkey := by
    cases P with
    | within p h t =>
        obtain ⟨s, s', hkey⟩ := hkey
        have hlookup : (g.tree.node p).lookupKey key = .ok key :=
          (Node.withState_lookupKey _ _).symm.trans (Walk.lookupKey_of_decide hkey)
        rw [follow_within hlookup, follow_within_logged hlookup]
        intro s log hlog
        exact (follow_logs hlookup).bind (fun q _ => settle_logs r _ q h _ _) s log hlog.1
    | _ => cases hnode
  weaker P transcript log hlog := by
    cases P with
    | within p h t => exact hlog.1.1
    | _ => exact hlog

/-- A play with a log proceeds like the play without it, and everyone who is asked is shown what the
log tells. -/
theorem repeated_play_logs (r : Repetition σ) (name : String) (ps : Participants ω σ)
    (maxDepth : Int) (visits : Nat) :
    Run.Logs (· = []) ((g.repeated r name).play ps maxDepth visits)
      ((g.logged.repeated (r.logged _) name).play (ps.logged _) maxDepth visits)
      (fun _ => g.Faithful) g.Faithful := by
  refine (repeated_root_logs r name).bind fun P _ => ?_
  refine cast (congrArg (Run.Logs _ _ · _ _) (execute_logged r _ _ _ _ P).symm) ?_
  exact Walk.execute_logs (repeated_keepsLog r) visits P

/-- In every play of a repeated game, whether it ends, fails or goes on, everyone who is asked for a
move is shown the outcomes of all rounds that are over, in their order, and the moves that were made
since the round in progress began. The state tells the same, the number of the round, and the state
of the stage game; and whoever is asked later is shown the same rounds, and perhaps more. -/
theorem players_are_shown_the_rounds (g : Game ω σ) (r : Repetition σ) (name : String)
    (ps : Participants ω σ) (maxDepth : Int) (visits : Nat) (s : σ) :
    ∃ log,
      ((g.logged.repeated (r.logged _) name).play (ps.logged _) maxDepth visits).start (s, []) =
          ((((g.repeated r name).play ps maxDepth visits).start s).1,
            ((((g.repeated r name).play ps maxDepth visits).start s).2, log)) ∧
        ∀ c before, (.asked c :: before) <:+ log →
          c.history = g.roundsDone before ∧
          c.state.round = .int c.history.length ∧
          c.state.transcript? = some c.transcript ∧
          c.transcript = g.movesMade before ∧
          (∃ p, lastPosition before = some p ∧
            c.state = .roundState ⟨c.history, (g.tree.node p).state, c.transcript⟩) ∧
          ∀ c' before', (.asked c' :: before') <:+ log → (.asked c :: before) <:+ before' →
            c.history.outcomes <+: c'.history.outcomes := by
  obtain ⟨log, hplay, hafter⟩ := repeated_play_logs (g := g) r name ps maxDepth visits s [] rfl
  have hfaithful : g.Faithful log := hafter.always
  refine ⟨log, hplay, fun c before hasked => ?_⟩
  obtain ⟨p, hat, hstate⟩ := hfaithful (.asked c) before hasked
  refine ⟨hat.rounds.symm, ?_, ?_, hat.moves.symm, ⟨p, hat.position, hstate⟩, ?_⟩
  · rw [hstate]
    rfl
  · rw [hstate]
    rfl
  · intro c' before' hlater hbefore
    obtain ⟨_, hat', _⟩ := hfaithful (.asked c') before' hlater
    rw [← hat.rounds, ← hat'.rounds]
    exact roundsDone_of_suffix ((List.suffix_cons _ before).trans hbefore)

end ExtensiveForm.Game
