import ExtensiveForm.Proofs.Answers
import ExtensiveForm.Proofs.Legal
import ExtensiveForm.Proofs.Profile
import ExtensiveForm.Proofs.Sessions
import ExtensiveForm.Proofs.Steps

/-!
# Transcripts replay

A transcript holds enough to play the game again: if every player who moved plays the moves of the
transcript in turn, and chance draws the same numbers, then the play goes along the same path.
`transcript_replays` is the main result.

The strategies that replay a transcript are known at every moment of the play (`Replaying`): each of
them has its turn at as many moves as its player has made so far. Since what was played so far is a
beginning of the whole transcript, the move at this turn is the one that was made.
-/

namespace ExtensiveForm

namespace Transcript

variable {t u : Transcript} {p : Nat} {move : Value}

/-- The moves of the one transcript are the first ones of the other. -/
def Begins (t u : Transcript) : Prop :=
  ∃ later, u = t.addAll later

theorem Begins.refl (t : Transcript) : t.Begins t :=
  ⟨[], rfl⟩

theorem begins_addAll (t : Transcript) (plies : List Ply) : t.Begins (t.addAll plies) :=
  ⟨plies, rfl⟩

theorem Begins.trans {v : Transcript} (h : t.Begins u) (h' : u.Begins v) : t.Begins v := by
  obtain ⟨later, rfl⟩ := h
  obtain ⟨later', rfl⟩ := h'
  exact ⟨later ++ later', (addAll_append t later later').symm⟩

/-- The player makes one more move. -/
theorem movesBy_add_self (t : Transcript) (p : Nat) (move : Value) :
    (t.add ⟨.int p, move⟩).movesBy (.int p) = t.movesBy (.int p) ++ [move] := by
  have hplies := movesBy_addAll t [⟨.int p, move⟩] (.int p)
  rw [List.filter_cons_of_pos (by simp [Value.int_beq])] at hplies
  exact hplies

/-- Everyone else makes no move. -/
theorem movesBy_add_other (t : Transcript) {ply : Ply} (h : (ply.player == .int p) = false) :
    (t.add ply).movesBy (.int p) = t.movesBy (.int p) := by
  have hplies := movesBy_addAll t [ply] (.int p)
  rw [List.filter_cons_of_neg (by simp [h]), List.filter_nil, List.map_nil, List.append_nil]
    at hplies
  exact hplies

/-- The moves of a player in what was played so far are the first ones of this player. -/
theorem Begins.movesBy (h : (t.add ⟨.int p, move⟩).Begins u) :
    (u.movesBy (.int p))[(t.movesBy (.int p)).length]? = some move := by
  obtain ⟨later, rfl⟩ := h
  rw [movesBy_addAll, movesBy_add_self]
  simp

/-- The players of a game who made a move. -/
def movers (t : Transcript) (numPlayers : Int) : List Nat :=
  (List.range numPlayers.toNat).filter fun (p : Nat) => !(t.movesBy (.int p)).isEmpty

/-- The place of each player who made a move among these players. -/
def places (t : Transcript) (numPlayers : Int) : Table Nat :=
  ⟨(t.movers numPlayers).zipIdx.map fun ((p : Nat), place) => (.int p, place)⟩

/-- For each player who made a move, the strategy that plays these moves in turn. -/
def replay {μ ω : Type} [Scale ω] (t : Transcript) (numPlayers : Int) :
    Except Fault (List (Candidate μ ω)) :=
  (t.movers numPlayers).mapM fun (p : Nat) => do
    return .strategy (← Strategy.movesInTurn (.list (t.movesBy (.int p))))

end Transcript

namespace Strategy

variable {μ ω : Type} [Scale ω] {moves : List Value} {move : Value}

/-- Of several moves, the one at a place is played. -/
theorem nextAt_pure {place : Nat} (h : moves[place]? = some move) (c : Context)
    (g : Generator ω) :
    nextAt (moves.map (pure (μ := μ))) place c g = ⟨.ok move, moves.map pure, g⟩ := by
  induction moves generalizing place with
  | nil => cases h
  | cons first rest ih =>
      cases place with
      | zero =>
          cases h
          rfl
      | succ place =>
          rw [List.map_cons, nextAt, ih h]
          rfl

/-- The moves in turn, of which so many were made. -/
def turn (moves : List Value) (made : Nat) : Strategy μ ω :=
  .periodic (moves.map pure) (made % moves.length)

/-- The next move is made, and then it is the turn of the one after it. -/
theorem turn_next {made : Nat} (h : moves[made]? = some move) (c : Context) (g : Generator ω) :
    (turn (μ := μ) moves made).next c g = ⟨.ok move, turn moves (made + 1), g⟩ := by
  have hless : made < moves.length := (List.getElem?_eq_some_iff.1 h).1
  rw [turn, Nat.mod_eq_of_lt hless, next, nextAt_pure h]
  simp [Reply.map, turn, Except.isOk, Except.toBool]

/-- Moves in turn are played from the first one on. -/
theorem movesInTurn_eq (h : moves ≠ []) :
    movesInTurn (μ := μ) (ω := ω) (.list moves) = .ok (turn moves 0) := by
  have hcandidates : (moves.map fun move => (.strategy (.pure move) : Candidate μ ω)).mapM
      Candidate.asStrategy = .ok (moves.map pure) := by
    rw [List.mapM_map]
    exact mapM_eq_map fun _ _ => rfl
  cases moves with
  | nil => exact absurd rfl h
  | cons first rest =>
      have hperiodic := congrArg (Except.bind · fun strategies =>
        Except.ok (Strategy.periodic strategies 0)) hcandidates
      exact hperiodic

end Strategy

namespace Transcript

variable {μ ω : Type} [Scale ω] {t : Transcript} {p place : Nat} {numPlayers : Int}

theorem mem_movers (h : (p : Int) < numPlayers) (hmoves : t.movesBy (.int p) ≠ []) :
    p ∈ t.movers numPlayers := by
  refine List.mem_filter.2 ⟨List.mem_range.2 (by omega), ?_⟩
  simpa using hmoves

theorem movesBy_ne_nil (h : p ∈ t.movers numPlayers) : t.movesBy (.int p) ≠ [] := by
  simpa using (List.mem_filter.1 h).2

theorem nodup_movers : (t.movers numPlayers).Nodup :=
  List.nodup_range.filter _

/-- To play a transcript again, every player who made a move begins with the first one. -/
theorem replay_eq (t : Transcript) (numPlayers : Int) :
    t.replay (μ := μ) (ω := ω) numPlayers =
      .ok ((t.movers numPlayers).map fun (p : Nat) =>
        .strategy (.turn (t.movesBy (.int p)) 0)) := by
  refine mapM_eq_map fun p hp => ?_
  rw [Strategy.movesInTurn_eq (movesBy_ne_nil hp)]
  rfl

/-- A player who made a move is found at the place among those who did. -/
theorem find?_zipIdx {players : List Nat} (hnodup : players.Nodup) {place : Nat}
    (h : players[place]? = some p) (first : Nat) :
    ((players.zipIdx first).map fun (p, place) => (Value.int p, place)).find?
      (·.1.alike (.int p)) = some (.int p, first + place) := by
  induction players generalizing place first with
  | nil => cases h
  | cons q players ih =>
      rw [List.nodup_cons] at hnodup
      rw [List.zipIdx_cons, List.map_cons]
      cases place with
      | zero =>
          cases h
          rw [List.find?_cons_of_pos (by simp [Value.int_alike])]
          rfl
      | succ place =>
          have hmem : p ∈ players := List.mem_of_getElem? h
          have hother : q ≠ p := fun heq => hnodup.1 (heq ▸ hmem)
          rw [List.find?_cons_of_neg (by simpa [Value.int_alike] using hother), ih hnodup.2 h]
          rw [Nat.add_right_comm, Nat.add_assoc]

theorem find?_places (h : (t.movers numPlayers)[place]? = some p) :
    (t.places numPlayers).find? (.int p) = some place := by
  rw [places, Table.find?, find?_zipIdx nodup_movers h 0, Nat.zero_add]
  rfl

end Transcript

namespace Session

variable {μ ω ν : Type} [Scale ω] {final t : Transcript} {numPlayers : Int} {p place : Nat}
  {move : Value} {r : Session μ ω ν}

/-- For each player who makes a move in the whole transcript, there is the strategy that plays these
moves in turn, and as many of them were played as the player made so far. -/
def Replaying (final : Transcript) (numPlayers : Int) (t : Transcript) (r : Session μ ω ν) :
    Prop :=
  ∀ (place p : Nat), (final.movers numPlayers)[place]? = some p →
    r.strategies[place]? =
      some (.strategy (.turn (final.movesBy (.int p)) (t.movesBy (.int p)).length))

/-- A player who is asked makes the move that follows in the transcript. -/
theorem Replaying.ask (h : r.Replaying final numPlayers t)
    (hplace : (final.movers numPlayers)[place]? = some p)
    (hbegins : (t.add ⟨.int p, move⟩).Begins final) (c : Context) :
    ∃ r', (Session.ask place c).start r = (.ok move, r') ∧
      r'.Replaying final numPlayers (t.add ⟨.int p, move⟩) ∧ r'.generator = r.generator := by
  have hnext := Strategy.turn_next (μ := μ) hbegins.movesBy c r.generator
  rw [start_ask (h place p hplace), Candidate.next, hnext]
  refine ⟨_, rfl, fun place' p' hplace' => ?_, rfl⟩
  show (r.strategies.set place _)[place']? = _
  by_cases hsame : place = place'
  · subst hsame
    cases hplace.symm.trans hplace'
    have hless := (List.getElem?_eq_some_iff.1 (h place p hplace)).1
    rw [List.getElem?_set_self hless, Transcript.movesBy_add_self, List.length_append]
    rfl
  · have hother : p ≠ p' := by
      rintro rfl
      have hless := (List.getElem?_eq_some_iff.1 hplace).1
      exact hsame ((List.getElem?_inj hless Transcript.nodup_movers).1 (hplace.trans hplace'.symm))
    rw [List.getElem?_set_ne hsame, h place' p' hplace', Transcript.movesBy_add_other]
    rw [Value.int_beq]
    simpa using hother

/-- Chance makes no player's move. -/
theorem Replaying.chance (h : r.Replaying final numPlayers t) (element : Value)
    (g : Generator ω) :
    ({ r with generator := g } : Session μ ω ν).Replaying final numPlayers
      (t.add ⟨.null, element⟩) := by
  intro place p hplace
  rw [Transcript.movesBy_add_other t rfl]
  exact h place p hplace

/-- Players who are asked one after the other make the moves that follow in the transcript. -/
theorem Replaying.answers {contexts : List Context} {moves : List Value}
    (hplayers : ∀ c ∈ contexts, c.numPlayers = numPlayers ∧
      ∃ p : Nat, c.player = .int p ∧ p < numPlayers)
    (hlength : contexts.length = moves.length) (h : r.Replaying final numPlayers t)
    (hbegins : (t.addAll (List.zipWith (fun c move => ⟨c.player, move⟩) contexts moves)).Begins
      final) :
    ∃ r', (contexts.mapM (byPlayer (final.places numPlayers)).answer).start r = (.ok moves, r') ∧
      r'.Replaying final numPlayers
        (t.addAll (List.zipWith (fun c move => ⟨c.player, move⟩) contexts moves)) ∧
      r'.generator = r.generator := by
  induction contexts generalizing moves t r with
  | nil =>
      obtain rfl : moves = [] := List.length_eq_zero_iff.1 hlength.symm
      exact ⟨r, rfl, h, rfl⟩
  | cons c contexts ih =>
      cases moves with
      | nil => cases hlength
      | cons move moves =>
          rw [List.forall_mem_cons] at hplayers
          obtain ⟨⟨hnumber, p, hplayer, hless⟩, hplayers⟩ := hplayers
          rw [List.zipWith_cons_cons, hplayer] at hbegins ⊢
          have hfirst : (t.add ⟨.int p, move⟩).Begins final :=
            (Transcript.begins_addAll _ _).trans hbegins
          have hmoved : final.movesBy (.int p) ≠ [] :=
            List.ne_nil_of_mem (List.mem_of_getElem? hfirst.movesBy)
          obtain ⟨place, hplace⟩ :=
            List.getElem?_of_mem (Transcript.mem_movers hless hmoved)
          obtain ⟨r₁, hasked, hr₁, hgenerator₁⟩ := h.ask hplace hfirst c
          have hanswer : ((byPlayer (final.places numPlayers)).answer c).start r =
              (.ok move, r₁) := by
            refine Participants.answer_eq_ok_iff.2
              ⟨p, Session.ask place, hplayer, hnumber ▸ hless, ?_, hasked⟩
            show ((final.places numPlayers).find? (.int p)).map Session.ask = _
            rw [Transcript.find?_places hplace]
            rfl
          obtain ⟨r', hanswers, hr', hgenerator⟩ :=
            ih hplayers (Nat.succ.inj hlength) hr₁ hbegins
          refine ⟨r', ?_, hr', hgenerator.trans hgenerator₁⟩
          rw [List.mapM_cons, Run.start_bind_ok hanswer, Run.start_bind_ok hanswers,
            Run.start_pure]

/-- Only players of the game play moves of a transcript again. -/
theorem check_places (t : Transcript) (numPlayers : Int) :
    (byPlayer (μ := μ) (ω := ω) (ν := ν) (t.places numPlayers)).check numPlayers = .ok () := by
  refine Participants.check_eq_ok fun player hplayer => ?_
  simp only [byPlayer, Table.keys, Transcript.places, List.map_map, List.mem_map] at hplayer
  obtain ⟨⟨p, place⟩, hentry, rfl⟩ := hplayer
  have hless := List.mem_range.1 (List.mem_filter.1 (List.fst_mem_of_mem_zipIdx hentry)).1
  exact ⟨p, rfl, by omega⟩

end Session

variable {μ ω ν : Type} [Scale ω] {t : Tree ω (Session μ ω ν)}
  {ps : Participants ω (Session μ ω ν)} {I : List (Candidate μ ω) → Prop}
  {numPlayers maxDepth : Int} {final : Transcript} {s s' r : Session μ ω ν} {key : Value}
  {keys : List Value} {root : t.Position}

/-- Asking some players leaves the generator as it is. -/
theorem Participants.DrawsNothing.answers (h : ps.DrawsNothing I) {contexts : List Context}
    {moves : List Value} (hs : I s.strategies)
    (hanswers : (contexts.mapM ps.answer).start s = (.ok moves, s')) :
    s'.generator = s.generator ∧ I s'.strategies := by
  have hkeeps : Run.Keeps (fun s' => s'.generator = s.generator ∧ I s'.strategies)
      (contexts.mapM ps.answer) :=
    .mapM (Participants.answer_keeps fun player ask hask c s' ⟨hsame, hs'⟩ =>
      ⟨(h.generator hask c hs').trans hsame, h.kept hask c hs'⟩) contexts
  exact hkeeps.left ⟨rfl, hs⟩ hanswers

namespace Walk

variable {v w : Walk t.Position}

/-- What was decided for is decided for again. -/
theorem decide_replayed (hps : ps.DrawsNothing I) {transcript : Transcript} {n : Node ω}
    (hs : I s.strategies) (h : (decide ps numPlayers transcript n).start s = (.ok key, s'))
    (hr : r.Replaying final numPlayers transcript) (hgenerator : r.generator = s.generator)
    (hbegins : (transcript.addAll (n.plies key)).Begins final) :
    I s'.strategies ∧
      ∃ r', (decide (Session.byPlayer (final.places numPlayers)) numPlayers transcript n).start r =
          (.ok key, r') ∧
        r'.Replaying final numPlayers (transcript.addAll (n.plies key)) ∧
        r'.generator = s'.generator := by
  by_cases hchance : ∃ d state, n = .chance d state
  · obtain ⟨d, state, rfl⟩ := hchance
    rw [decide, hps.uniform] at h
    have hsample := Session.sample_same h hgenerator
    obtain ⟨-, -, rfl⟩ := Session.sample_eq_ok_iff.1 h
    exact ⟨hs, _, hsample, hr.chance key _, rfl⟩
  · have hplayers : ∀ d state, n ≠ .chance d state := fun d state h => hchance ⟨d, state, h⟩
    obtain ⟨moves, hjoins, hoffered, hmoves, hlegal⟩ := (Node.decide_eq_ok_iff hplayers).1 h
    have hplies : n.plies key = List.zipWith (fun c move => ⟨c.player, move⟩)
        (n.contexts numPlayers transcript) moves := by
      rw [hjoins.plies_eq, Node.contexts_eq, List.zipWith_map_left]
    rw [hplies] at hbegins ⊢
    have hseats : ∀ c ∈ n.contexts numPlayers transcript, c.numPlayers = numPlayers ∧
        ∃ p : Nat, c.player = .int p ∧ p < numPlayers := by
      intro c hc
      obtain ⟨p, hp, hless, -⟩ := Participants.seats_of_answers ⟨s, s', hmoves⟩ hc
      have hnumber : c.numPlayers = numPlayers := by
        rw [Node.contexts_eq] at hc
        obtain ⟨seat, -, rfl⟩ := List.mem_map.1 hc
        rfl
      exact ⟨hnumber, p, hp, hnumber ▸ hless⟩
    obtain ⟨hkept, hs'⟩ := hps.answers hs hmoves
    obtain ⟨r', hanswers, hr', hkept'⟩ :=
      hr.answers hseats (Run.gives_mapM ⟨s, s', hmoves⟩).length_eq hbegins
    exact ⟨hs', r', (Node.decide_eq_ok_iff hplayers).2 ⟨moves, hjoins, hoffered, hanswers, hlegal⟩,
      hr', hkept'.trans (hgenerator.trans hkept.symm)⟩

/-- Where no state carries a transcript, a walk only adds to its transcript. -/
theorem Follows.begins
    (hstates : ∀ p, t.Reached root p → (t.node p).state.transcript? = none)
    (h : Follows t ps numPlayers maxDepth w s keys v s') (hw : t.Reached root w.position) :
    w.transcript.Begins v.transcript := by
  induction h with
  | nil w s => exact .refl _
  | @cons w v child key keys s s₁ s₂ s' hbound hnode hkey hchild hrest ih =>
      have hreached := hw.follow hchild
      have hbegins := ih hreached
      rw [enter_goOn_transcript, hstates child hreached, Option.getD_none] at hbegins
      exact (Transcript.begins_addAll _ _).trans hbegins

/-- The keys that a walk followed are followed again. -/
theorem Follows.replayed (ht : t.Impartial) (hps : ps.DrawsNothing I)
    (hstates : ∀ p, t.Reached root p → (t.node p).state.transcript? = none)
    (h : Follows t ps numPlayers maxDepth w s keys v s') (hw : t.Reached root w.position)
    (hs : I s.strategies) (hbegins : v.transcript.Begins final)
    (hr : r.Replaying final numPlayers w.transcript) (hgenerator : r.generator = s.generator) :
    ∃ r', Follows t (Session.byPlayer (final.places numPlayers)) numPlayers maxDepth w r keys v
      r' := by
  induction h generalizing r with
  | nil w s => exact ⟨r, .nil w r⟩
  | @cons w v child key keys s s₁ s₂ s' hbound hnode hkey hchild hrest ih =>
      have hreached := hw.follow hchild
      have htranscript : (w.enter.goOn key child).transcript =
          w.transcript.addAll ((t.node w.position).plies key) := by
        rw [enter_goOn_transcript, hstates child hreached, Option.getD_none]
      have hplayed := hrest.begins hstates hreached
      rw [htranscript] at hplayed
      obtain ⟨hs₁, r₁, hkey', hr₁, hgenerator₁⟩ :=
        decide_replayed hps hs hkey hr hgenerator (hplayed.trans hbegins)
      obtain ⟨r₂, hchild', hstrategies₂, hgenerator₂⟩ := ht.follow hchild r₁
      have hr₂ : r₂.Replaying final numPlayers (w.enter.goOn key child).transcript := by
        rw [htranscript]
        intro place p hplace
        rw [hstrategies₂]
        exact hr₁ place p hplace
      obtain ⟨hstrategies, hkept⟩ := ht.kept hchild
      have hgenerator' : r₂.generator = s₂.generator :=
        (hgenerator₂.trans hgenerator₁).trans hkept.symm
      obtain ⟨r', hfollows⟩ := ih hreached (hstrategies ▸ hs₁) hbegins hr₂ hgenerator'
      exact ⟨r', .cons hbound hnode hkey' hchild' hfollows⟩

end Walk

/-- A transcript replays. If a play comes to an outcome in which nobody but chance drew from the
generator of the play, then the play from the same generator in which every player who moved plays
the moves of the transcript in turn comes to the same outcome. -/
theorem transcript_replays (t : Tree ω (Session μ ω ν)) (ps : Participants ω (Session μ ω ν))
    (numPlayers maxDepth : Int) (visits : Nat) (root : t.Position) (ht : t.Impartial)
    (hstates : ∀ p, t.Reached root p → (t.node p).state.transcript? = none)
    (hps : ps.DrawsNothing I) {s s' : Session μ ω ν} (hs : I s.strategies) {o : Outcome}
    (h : (execute t ps numPlayers maxDepth visits root).start s = (.ok (some o), s')) :
    ∃ strategies, o.transcript.replay numPlayers = .ok strategies ∧
      ∀ r : Session μ ω ν, r.generator = s.generator → r.strategies = strategies →
        ∃ r', (execute t (Session.byPlayer (o.transcript.places numPlayers)) numPlayers maxDepth
          visits root).start r = (.ok (some o), r') := by
  refine ⟨_, o.transcript.replay_eq numPlayers, fun r hgenerator hstrategies => ?_⟩
  cases hcheck : ps.check numPlayers with
  | error f =>
      rw [execute_eq_throw hcheck] at h
      cases h
  | ok =>
      rw [execute_eq hcheck] at h
      obtain ⟨keys, v, hfollows, hvisits, hfinishes⟩ := Walk.run_eq_some_iff.1 h
      have htranscript : o.transcript = v.transcript := by
        obtain ⟨-, e, -, houtcome⟩ := hfinishes
        exact (Ending.outcome_eq_ok houtcome).2.2.1
      have hreplaying : r.Replaying o.transcript numPlayers (Walk.start t root).transcript := by
        intro place p hplace
        have hempty : (Walk.start t root).transcript = .empty := by
          show (t.node root).state.transcript?.getD .empty = .empty
          rw [hstates root .root, Option.getD_none]
        rw [hempty, hstrategies, List.getElem?_map, hplace]
        rfl
      obtain ⟨r', hfollows'⟩ := hfollows.replayed ht hps hstates .root hs
        (htranscript ▸ Transcript.Begins.refl _) hreplaying hgenerator
      refine ⟨r', ?_⟩
      rw [execute_eq (Session.check_places o.transcript numPlayers)]
      exact Walk.run_eq_some_iff.2 ⟨keys, v, hfollows', hvisits, hfinishes⟩

/-- Chance tosses a coin, two players name a side at once, and the first one names a side again. -/
def callTwice (σ : Type) : Tree Rat σ where
  Position := Nat
  node
    | 0 => .chance (.coin (.int 0) (.int 1)) .null
    | 1 => .simultaneous (.everyone [[.int 0, .int 1], [.int 0, .int 1]] .null)
    | 2 => .sequential (.int 0) [.int 0, .int 1] .null
    | _ => .terminal ⟨⟨[.int 1, .int 2]⟩, none, none, .null⟩
  next place _ := return some (place + 1)

theorem callTwice_impartial {μ ν : Type} : (callTwice (Session μ Rat ν)).Impartial :=
  ⟨fun _ _ _ _ => rfl, fun _ _ _ => rfl, fun _ _ _ => rfl⟩

theorem callTwice_transcript? {σ : Type} (place : Nat) :
    ((callTwice σ).node place).state.transcript? = none := by
  rcases place with _ | _ | _ | place <;> rfl

/-- The first player changes sides and the second one does not, while the coin falls on side 0. -/
def callers : Session Unit Rat Unit :=
  ⟨[.strategy (.turn [.int 0, .int 1] 0), .strategy (.pure (.int 1))], .listed (fun _ => 0) 0, ()⟩

/-- What comes of it. -/
def called : Outcome :=
  ⟨⟨[.int 1, .int 2]⟩, none,
    .ofPlies [⟨.null, .int 0⟩, ⟨.int 0, .int 0⟩, ⟨.int 1, .int 1⟩, ⟨.int 0, .int 1⟩], none⟩

/-- Their play, and the play of the strategies that its transcript gives. -/
theorem calls_replay :
    (∀ x ∈ callers.strategies, x.drawsNothing = true) ∧
      ∃ s', (execute (callTwice _) (Session.inOrder 2) 2 4 4 (0 : Nat)).start callers =
          (.ok (some called), s') ∧
        ∃ strategies, called.transcript.replay 2 = .ok strategies ∧
          ∀ r : Session Unit Rat Unit, r.generator = callers.generator →
            r.strategies = strategies →
            ∃ r', (execute (callTwice _) (Session.byPlayer (called.transcript.places 2)) 2 4 4
              (0 : Nat)).start r = (.ok (some called), r') := by
  have hs : ∀ x ∈ callers.strategies, x.drawsNothing = true := by
    simp [callers, Candidate.drawsNothing, Strategy.drawsNothing, Strategy.turn,
      Strategy.allDrawNothing]
  have hplay : ∃ s', (execute (callTwice _) (Session.inOrder 2) 2 4 4 (0 : Nat)).start callers =
      (.ok (some called), s') := ⟨_, by with_unfolding_all rfl⟩
  obtain ⟨s', hplay⟩ := hplay
  exact ⟨hs, s', hplay, transcript_replays _ _ 2 4 4 _ callTwice_impartial
    (fun place _ => callTwice_transcript? place) (Session.inOrder_drawsNothing 2) hs hplay⟩

end ExtensiveForm
