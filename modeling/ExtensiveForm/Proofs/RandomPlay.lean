import ExtensiveForm.Proofs.Quantile
import ExtensiveForm.Proofs.Replay
import ExtensiveForm.Proofs.Sessions
import ExtensiveForm.Proofs.Steps
import ExtensiveForm.Proofs.Turns

/-!
# Playing at random covers the legal paths

If every player chooses at random among the moves offered, then a play of a well formed tree never
fails, and every legal path of the tree is the path of some play. `random_play_covers` is the main
result.

The numbers of the generator say everything about such a play. `Node.drawn` is the key that some
numbers lead to at a node: it is always one that may be followed, and every key that may be followed
is drawn with some numbers. Along a path these numbers are taken one after the other.
-/

namespace ExtensiveForm

/-! ### What is drawn -/

/-- All numbers are from zero to below one. -/
def Drawable (numbers : Nat → Rat) : Prop :=
  ∀ i, 0 ≤ numbers i ∧ numbers i < 1

namespace Distribution

variable {d : Distribution Rat} {u : Rat}

/-- The element that a number picks. -/
def drawn (d : Distribution Rat) (u : Rat) : Value :=
  (d.pick? u).getD .null

theorem pick?_eq_drawn (d : Distribution Rat) (hu : u < 1) : d.pick? u = some (d.drawn u) := by
  obtain ⟨v, hv⟩ := d.exists_pick hu
  rw [drawn, hv]
  rfl

theorem drawn_mem_support (d : Distribution Rat) (hzero : 0 ≤ u) (hone : u < 1) :
    d.drawn u ∈ d.support :=
  mem_support_of_pick d.isProper_eq_true hzero (d.pick?_eq_drawn hone)

theorem exists_drawn {v : Value} (hv : v ∈ d.support) : ∃ u, 0 ≤ u ∧ u < 1 ∧ d.drawn u = v := by
  obtain ⟨u, hzero, hone, hpick⟩ := exists_number hv
  refine ⟨u, hzero, hone, ?_⟩
  rw [drawn, hpick]
  rfl

end Distribution

/-- The move that a number picks among those offered. -/
def chosen (moves : List Value) (u : Rat) : Value :=
  match Distribution.flat moves with
  | .ok d => Distribution.drawn d u
  | .error _ => .null

/-- The moves that numbers pick one after the other, for each player among those offered. -/
def chosenAll (numbers : Nat → Rat) : List (List Value) → Nat → List Value
  | [], _ => []
  | moves :: rest, used => chosen moves (numbers used) :: chosenAll numbers rest (used + 1)

section Chosen

variable {moves : List Value} {u : Rat} {numbers : Nat → Rat}

theorem chosen_mem (h : moves ≠ []) (hzero : 0 ≤ u) (hone : u < 1) : chosen moves u ∈ moves := by
  obtain ⟨d, hflat, hsupport⟩ := Distribution.flat_eq h
  have hdrawn := d.drawn_mem_support hzero hone
  rw [hsupport] at hdrawn
  rw [chosen, hflat]
  exact hdrawn

theorem exists_chosen {move : Value} (h : move ∈ moves) :
    ∃ u, 0 ≤ u ∧ u < 1 ∧ chosen moves u = move := by
  obtain ⟨d, hflat, hsupport⟩ := Distribution.flat_eq (List.ne_nil_of_mem h)
  obtain ⟨u, hzero, hone, hdrawn⟩ := Distribution.exists_drawn (hsupport ▸ h)
  refine ⟨u, hzero, hone, ?_⟩
  rw [chosen, hflat]
  exact hdrawn

/-- Moves are chosen from those offered to each player. -/
theorem chosenAll_mem (hnumbers : Drawable numbers) {sets : List (List Value)}
    (h : ∀ moves ∈ sets, moves ≠ []) (used : Nat) :
    List.Forall₂ (fun moves move => move ∈ moves) sets (chosenAll numbers sets used) := by
  induction sets generalizing used with
  | nil => exact .nil
  | cons moves sets ih =>
      rw [List.forall_mem_cons] at h
      obtain ⟨hzero, hone⟩ := hnumbers used
      exact .cons (chosen_mem h.1 hzero hone) (ih h.2 (used + 1))

/-- From this number on, the numbers are these ones. -/
def Continue (numbers : Nat → Rat) (used : Nat) (us : List Rat) : Prop :=
  ∀ i u, us[i]? = some u → numbers (used + i) = u

theorem Continue.left {used : Nat} {us vs : List Rat} (h : Continue numbers used (us ++ vs)) :
    Continue numbers used us := by
  intro i u hu
  have hless := (List.getElem?_eq_some_iff.1 hu).1
  exact h i u (by rw [List.getElem?_append_left hless, hu])

theorem Continue.right {used : Nat} {us vs : List Rat} (h : Continue numbers used (us ++ vs)) :
    Continue numbers (used + us.length) vs := by
  intro i u hu
  rw [Nat.add_assoc]
  exact h (us.length + i) u (by
    rw [List.getElem?_append_right (Nat.le_add_right _ _), Nat.add_sub_cancel_left, hu])

/-- The sequence of numbers can begin in any way. -/
theorem exists_continue {us : List Rat} (h : ∀ u ∈ us, 0 ≤ u ∧ u < 1) :
    ∃ numbers, Drawable numbers ∧ Continue numbers 0 us := by
  refine ⟨fun i => us[i]?.getD 0, fun i => ?_, fun i u hu => ?_⟩
  · cases hi : us[i]? with
    | none =>
        simp only [hi, Option.getD_none]
        exact ⟨le_rfl, zero_lt_one⟩
    | some u =>
        simp only [hi, Option.getD_some]
        exact h u (List.mem_of_getElem? hi)
  · simp only [Nat.zero_add, hu, Option.getD_some]

/-- Every choice of moves is made with some numbers. -/
theorem exists_chosenAll {sets : List (List Value)} {choice : List Value}
    (h : List.Forall₂ (fun moves move => move ∈ moves) sets choice) :
    ∃ us : List Rat, us.length = sets.length ∧ (∀ u ∈ us, 0 ≤ u ∧ u < 1) ∧
      ∀ numbers used, Continue numbers used us → chosenAll numbers sets used = choice := by
  induction h with
  | nil => exact ⟨[], rfl, nofun, fun _ _ _ => rfl⟩
  | cons hmove _ ih =>
      obtain ⟨u, hzero, hone, hchosen⟩ := exists_chosen hmove
      obtain ⟨us, hlength, hus, hall⟩ := ih
      refine ⟨u :: us, by rw [List.length_cons, List.length_cons, hlength],
        List.forall_mem_cons.2 ⟨⟨hzero, hone⟩, hus⟩, fun numbers used hcontinue => ?_⟩
      have hfirst : numbers used = u := hcontinue 0 u rfl
      have hlater : Continue numbers (used + 1) us :=
        (show Continue numbers used ([u] ++ us) from hcontinue).right
      rw [chosenAll, hfirst, hchosen, hall numbers (used + 1) hlater]

end Chosen

/-! ### Nodes at which to play -/

namespace Node

variable {n : Node Rat} {numPlayers : Int} {numbers : Nat → Rat} {used : Nat} {key : Value}

/-- What stands at a position of a well formed tree. Players are of the game and have moves to
choose from, and an end of the game has a payoff for each player. The state tells neither a
transcript nor a round.

Each move counts as one of those it stands among. No set of moves is left out by this: what is no
number and is given, as all moves are, has a mark and matches itself. Only a `double` that is no
number does not, which is what a computation yields before it is given to anyone. -/
structure Playable (n : Node Rat) (numPlayers : Int) : Prop where
  isNode : n.isNode = true
  bare : n.state.Bare
  player {seat : Seat} (h : seat ∈ n.seats) :
    ∃ p : Nat, seat.player = .int p ∧ (p : Int) < numPlayers
  moves {seat : Seat} (h : seat ∈ n.seats) : seat.moves ≠ []
  among {seat : Seat} (h : seat ∈ n.seats) {move : Value} (hmove : move ∈ seat.moves) :
    move.isAmong seat.moves = true
  sized {e : Ending} (h : n = .terminal e) : (e.payoff.values.length : Int) = numPlayers

/-- The key that the numbers lead to, from a certain one of them on. -/
def drawn (numbers : Nat → Rat) (used : Nat) : Node Rat → Value
  | .simultaneous n => .tuple (chosenAll numbers n.moves used)
  | .sequential _ moves _ => chosen moves (numbers used)
  | .chance d _ => d.drawn (numbers used)
  | _ => .null

/-- How many numbers are taken. -/
def draws : Node Rat → Nat
  | .chance _ _ => 1
  | n => n.seats.length

/-- The key that is drawn is one that may be followed. -/
theorem Playable.drawn_mem_keys (h : n.Playable numPlayers) (hnode : n.goesOn = true)
    (hnumbers : Drawable numbers) (used : Nat) : n.drawn numbers used ∈ n.keys := by
  obtain ⟨hzero, hone⟩ := hnumbers used
  cases n with
  | simultaneous n =>
      have hmoves : ∀ moves ∈ n.moves, moves ≠ [] := fun moves hmoves => by
        obtain ⟨seat, hseat, rfl⟩ := List.mem_map.1 hmoves
        exact h.moves hseat
      exact List.mem_map_of_mem (mem_choices.2 (chosenAll_mem hnumbers hmoves used))
  | sequential player moves state =>
      exact chosen_mem (h.moves (List.mem_singleton_self _)) hzero hone
  | chance d state => exact d.drawn_mem_support hzero hone
  | terminal e => cases hnode
  | stray v => cases hnode

/-- Where a key may be followed, the game goes on. -/
theorem goesOn_of_mem_keys (hkey : key ∈ n.keys) : n.goesOn = true := by
  cases n <;> first | rfl | cases hkey

/-- Every key that may be followed is drawn with some numbers. -/
theorem Playable.exists_draws (h : n.Playable numPlayers) (hkey : key ∈ n.keys) :
    ∃ us : List Rat, us.length = n.draws ∧ (∀ u ∈ us, 0 ≤ u ∧ u < 1) ∧
      ∀ numbers used, Continue numbers used us → n.drawn numbers used = key := by
  cases n with
  | simultaneous n =>
      obtain ⟨choice, hchoice, rfl⟩ := List.mem_map.1 hkey
      obtain ⟨us, hlength, hus, hall⟩ := exists_chosenAll (mem_choices.1 hchoice)
      refine ⟨us, hlength.trans (List.length_map _), hus, fun numbers used hcontinue => ?_⟩
      exact congrArg Value.tuple (hall numbers used hcontinue)
  | sequential player moves state =>
      obtain ⟨u, hzero, hone, hchosen⟩ := exists_chosen hkey
      refine ⟨[u], rfl, List.forall_mem_singleton.2 ⟨hzero, hone⟩, fun numbers used hcontinue => ?_⟩
      have hfirst : numbers used = u := hcontinue 0 u rfl
      rw [drawn, hfirst]
      exact hchosen
  | chance d state =>
      obtain ⟨u, hzero, hone, hdrawn⟩ := Distribution.exists_drawn hkey
      refine ⟨[u], rfl, List.forall_mem_singleton.2 ⟨hzero, hone⟩, fun numbers used hcontinue => ?_⟩
      have hfirst : numbers used = u := hcontinue 0 u rfl
      rw [drawn, hfirst, hdrawn]
  | terminal e => cases hkey
  | stray v => cases hkey

end Node

/-! ### Players who choose at random -/

/-- A strategy that chooses at random takes one number of the generator of the play. -/
theorem Strategy.drawOffered_eq {c : Context} {moves : List Value}
    (hoffered : c.offered = .tuple moves) (hmoves : moves ≠ []) {g : Generator Rat}
    (hone : (Generator.uniform g).1 < 1) :
    drawOffered none c g =
      ⟨.ok (chosen moves (Generator.uniform g).1), none, (Generator.uniform g).2⟩ := by
  obtain ⟨d, hflat, -⟩ := Distribution.flat_eq hmoves
  have hsample : (d.sample Generator.uniform).start g =
      (.ok (d.drawn (Generator.uniform g).1), (Generator.uniform g).2) :=
    Distribution.sample_eq_ok_iff.2 ⟨d.isProper_eq_true, d.pick?_eq_drawn hone, rfl⟩
  have hitems : (Value.tuple moves).items >>= Distribution.flat = .ok d := hflat
  have htruthy : (Value.tuple moves).truthy = true := by
    cases moves with
    | nil => exact absurd rfl hmoves
    | cons move rest => rfl
  have hdraw : draw d none g =
      ⟨.ok (d.drawn (Generator.uniform g).1), none, (Generator.uniform g).2⟩ := by
    simp only [draw, hsample]
  simp only [drawOffered, hoffered, htruthy, hitems, hdraw, chosen, hflat]
  rfl

namespace Session

variable {μ ν : Type} {s : Session μ Rat ν} {count used : Nat} {numbers : Nat → Rat} {c : Context}
  {numPlayers : Int}

/-- Every player chooses at random, and the generator has yielded so many of the numbers. -/
def AtRandom (count : Nat) (numbers : Nat → Rat) (used : Nat) (s : Session μ Rat ν) : Prop :=
  s.strategies = List.replicate count (.strategy (.random none)) ∧
    s.generator = .listed numbers used

/-- A player takes the next number and makes the move that it picks. -/
theorem AtRandom.answer (h : s.AtRandom count numbers used) (hnumbers : Drawable numbers) {p : Nat}
    (hplayer : c.player = .int p) (hgame : (p : Int) < c.numPlayers) (hcount : p < count)
    {moves : List Value} (hoffered : c.offered = .tuple moves) (hmoves : moves ≠ []) :
    ∃ s', ((inOrder count).answer c).start s = (.ok (chosen moves (numbers used)), s') ∧
      s'.AtRandom count numbers (used + 1) := by
  obtain ⟨hstrategies, hgenerator⟩ := h
  have hplace : s.strategies[p]? = some (.strategy (.random none)) := by
    rw [hstrategies, List.getElem?_replicate_of_lt hcount]
  have huniform : Generator.uniform s.generator =
      (numbers used, .listed numbers (used + 1)) := by
    rw [hgenerator]
    rfl
  have hone : (Generator.uniform s.generator).1 < 1 := by
    rw [huniform]
    exact (hnumbers used).2
  have hnext : (Candidate.strategy (μ := μ) (.random none)).next c s.generator =
      ⟨.ok (chosen moves (numbers used)), .strategy (.random none),
        .listed numbers (used + 1)⟩ := by
    rw [Candidate.next, Strategy.next, Strategy.drawOffered_eq hoffered hmoves hone, huniform]
    rfl
  have hasked := start_ask hplace c
  rw [hnext] at hasked
  refine ⟨_, Participants.answer_eq_ok_iff.2 ⟨p, ask p, hplayer, hgame, if_pos hcount, hasked⟩,
    ?_, rfl⟩
  show s.strategies.set p _ = _
  rw [hstrategies, List.set_replicate_self]

/-- The players who are asked make the moves that the next numbers pick. -/
theorem AtRandom.answers (hnumbers : Drawable numbers) {seats : List Seat}
    (hplayers : ∀ seat ∈ seats, ∃ p : Nat, seat.player = .int p ∧ (p : Int) < numPlayers)
    (hmoves : ∀ seat ∈ seats, seat.moves ≠ []) (state : Value) (t : Transcript)
    (h : s.AtRandom numPlayers.toNat numbers used) :
    ∃ s', ((seats.map fun seat => (⟨seat.player, .tuple seat.moves, numPlayers, state, t⟩ :
        Context)).mapM (inOrder numPlayers.toNat).answer).start s =
        (.ok (chosenAll numbers (seats.map (·.moves)) used), s') ∧
      s'.AtRandom numPlayers.toNat numbers (used + seats.length) := by
  induction seats generalizing s used with
  | nil => exact ⟨s, rfl, h⟩
  | cons seat seats ih =>
      rw [List.forall_mem_cons] at hplayers hmoves
      obtain ⟨p, hplayer, hless⟩ := hplayers.1
      obtain ⟨s₁, hanswer, h₁⟩ := h.answer
        (c := ⟨seat.player, .tuple seat.moves, numPlayers, state, t⟩) hnumbers hplayer hless
        (by omega) rfl hmoves.1
      obtain ⟨s', hanswers, h'⟩ := ih hplayers.2 hmoves.2 h₁
      refine ⟨s', ?_, ?_⟩
      · rw [List.map_cons, List.mapM_cons, Run.start_bind_ok hanswer, Run.start_bind_ok hanswers]
        rfl
      · rwa [List.length_cons, Nat.add_comm seats.length, ← Nat.add_assoc]

end Session

/-- A payoff for each player and moves of players make an outcome. -/
theorem Node.Playable.outcome {e : Ending} {numPlayers : Int}
    (h : (Node.terminal e).Playable numPlayers) {t : Transcript} (ht : t.NamesNumbers) :
    ∃ o, e.outcome t numPlayers = .ok o :=
  Ending.exists_outcome (h.sized rfl) ht

/-- What is played at a well formed node is played under the numbers of players. -/
theorem Node.Playable.plies {n : Node Rat} {numPlayers : Int} (h : n.Playable numPlayers)
    {t : Transcript} (ht : t.NamesNumbers) (key : Value) :
    (t.addAll (n.plies key)).NamesNumbers := by
  refine ht.addAll fun ply hply => ?_
  cases n with
  | simultaneous n =>
      cases key with
      | tuple moves =>
          obtain ⟨seat, hseat, hplayer⟩ := List.mem_map.1 (Node.player_mem_of_zipWith hply)
          obtain ⟨p, hp, -⟩ := h.player hseat
          exact .inr ⟨p, hplayer.symm.trans hp⟩
      | _ => cases hply
  | sequential player moves state =>
      obtain ⟨p, hp, -⟩ := h.player (List.mem_singleton_self _)
      rw [List.mem_singleton.1 hply]
      exact .inr ⟨p, hp⟩
  | chance d state =>
      rw [List.mem_singleton.1 hply]
      exact .inl rfl
  | terminal e => cases hply
  | stray v => cases hply

/-! ### Trees in which to play -/

/-- Some legal keys lead from one position to another. -/
inductive Tree.Leads {ω σ : Type} [Scale ω] (t : Tree ω σ) :
    t.Position → List Value → t.Position → Prop
  | nil (p : t.Position) : Leads t p [] p
  | cons {p q r : t.Position} {key : Value} {keys : List Value} (hkey : key ∈ (t.node p).keys)
      (hleads : Run.Gives (t.follow p key) q) (hrest : Leads t q keys r) :
      Leads t p (key :: keys) r

/-- The position is one that legal keys lead to. -/
def Tree.Arrives {ω σ : Type} [Scale ω] (t : Tree ω σ) (root p : t.Position) : Prop :=
  ∃ keys, t.Leads root keys p

theorem Tree.Arrives.follow {ω σ : Type} [Scale ω] {t : Tree ω σ} {root p q : t.Position}
    {key : Value} (h : t.Arrives root p) (hkey : key ∈ (t.node p).keys)
    (hleads : Run.Gives (t.follow p key) q) : t.Arrives root q := by
  obtain ⟨keys, hkeys⟩ := h
  refine ⟨keys ++ [key], ?_⟩
  induction hkeys with
  | nil p => exact .cons hkey hleads (.nil q)
  | cons hfirst hled hrest ih => exact .cons hfirst hled (ih hkey hleads)

section Play

variable {μ ν : Type} {t : Tree Rat (Session μ Rat ν)} {root p q : t.Position}
  {numPlayers maxDepth : Int} {numbers : Nat → Rat} {used : Nat} {s s' : Session μ Rat ν}
  {key : Value} {keys : List Value}

/-- The tree is well formed from a root on: its rules are impartial, what stands at a position that
legal keys lead to is well formed, and every legal key leads on from there. -/
structure Tree.Playable (t : Tree Rat (Session μ Rat ν)) (root : t.Position) (numPlayers : Int) :
    Prop where
  impartial : t.Impartial
  node {p : t.Position} (h : t.Arrives root p) : (t.node p).Playable numPlayers
  leads {p : t.Position} {key : Value} (h : t.Arrives root p) (hkey : key ∈ (t.node p).keys) :
    ∃ q, Run.Gives (t.follow p key) q

namespace Walk

variable {w v : Walk t.Position}

/-- Players who choose at random decide for the key that is drawn. -/
theorem decide_atRandom {n : Node Rat} (hn : n.Playable numPlayers) (hnode : n.goesOn = true)
    (hnumbers : Drawable numbers) (hs : s.AtRandom numPlayers.toNat numbers used)
    (transcript : Transcript) :
    ∃ s', (decide (Session.inOrder numPlayers.toNat) numPlayers transcript n).start s =
        (.ok (n.drawn numbers used), s') ∧
      s'.AtRandom numPlayers.toNat numbers (used + n.draws) := by
  by_cases hchance : ∃ d state, n = .chance d state
  · obtain ⟨d, state, rfl⟩ := hchance
    obtain ⟨hstrategies, hgenerator⟩ := hs
    have hpick : d.pick? (Generator.uniform s.generator).1 = some (d.drawn (numbers used)) := by
      rw [hgenerator]
      exact d.pick?_eq_drawn (hnumbers used).2
    refine ⟨_, Session.sample_eq_ok_iff.2 ⟨d.isProper_eq_true, hpick, rfl⟩, hstrategies, ?_⟩
    show (Generator.uniform s.generator).2 = _
    rw [hgenerator]
    rfl
  · have hplayers : ∀ d state, n ≠ .chance d state := fun d state h => hchance ⟨d, state, h⟩
    obtain ⟨s', hanswers, hs'⟩ := hs.answers hnumbers (fun seat hseat => hn.player hseat)
      (fun seat hseat => hn.moves hseat) n.state transcript
    rw [← Node.contexts_eq] at hanswers
    have hoffered := chosenAll_mem hnumbers (fun moves hmoves => by
      obtain ⟨seat, hseat, rfl⟩ := List.mem_map.1 hmoves
      exact hn.moves hseat) used
    have hjoins : n.Joins (chosenAll numbers (n.seats.map (·.moves)) used)
        (n.drawn numbers used) := by
      cases n with
      | simultaneous n => exact .together n _
      | sequential player moves state => exact .alone player moves state _
      | chance d state => exact absurd rfl (hplayers d state)
      | terminal e => cases hnode
      | stray v => cases hnode
    have hdraws : n.draws = n.seats.length := by
      cases n with
      | chance d state => exact absurd rfl (hplayers d state)
      | _ => rfl
    have hlegal := (List.forall₂_and_left n.seats _).2
      ⟨fun seat hseat => hseat, List.forall₂_map_left_iff.1 hoffered⟩
    exact ⟨s', (Node.decide_eq_ok_iff hplayers).2 ⟨_, hjoins, fun seat hseat => hn.moves hseat,
      hanswers, hlegal.imp fun seat move h => hn.among h.1 h.2⟩, hdraws ▸ hs'⟩

/-- The walk is at a position that legal keys lead to, in no round, and only chance and players of
the game have moved. -/
structure Legal (t : Tree Rat (Session μ Rat ν)) (root : t.Position) (w : Walk t.Position) :
    Prop where
  arrives : t.Arrives root w.position
  round : w.round = .null
  names : w.transcript.NamesNumbers

theorem start_legal (ht : t.Playable root numPlayers) : (start t root).Legal t root := by
  have hbare := (ht.node ⟨[], .nil root⟩).bare
  refine ⟨⟨[], .nil root⟩, hbare.round, ?_⟩
  show ((t.node root).state.transcript?.getD .empty).NamesNumbers
  rw [hbare.transcript]
  exact nofun

/-- Where no state tells a round, all visits are counted. -/
theorem Legal.enter (ht : t.Playable root numPlayers) (h : w.Legal t root) : w.enter = w := by
  refine enter_of_beq ?_
  rw [h.round, (ht.node h.arrives).bare.round]
  rfl

/-- A visit that goes on takes some numbers and follows the key that is drawn with them. -/
theorem Legal.visit (ht : t.Playable root numPlayers) (h : w.Legal t root)
    (hnode : (t.node w.position).goesOn = true) (hnumbers : Drawable numbers)
    (hs : s.AtRandom numPlayers.toNat numbers used) :
    ∃ s₁ child s₂,
      (decide (Session.inOrder numPlayers.toNat) numPlayers w.transcript
        (t.node w.position)).start s = (.ok ((t.node w.position).drawn numbers used), s₁) ∧
      (t.follow w.position ((t.node w.position).drawn numbers used)).start s₁ =
        (.ok child, s₂) ∧
      s₂.AtRandom numPlayers.toNat numbers (used + (t.node w.position).draws) ∧
      (w.goOn ((t.node w.position).drawn numbers used) child).Legal t root := by
  have hn := ht.node h.arrives
  obtain ⟨s₁, hdecide, hs₁⟩ := decide_atRandom hn hnode hnumbers hs w.transcript
  have hkey := hn.drawn_mem_keys hnode hnumbers used
  obtain ⟨child, hleads⟩ := ht.leads h.arrives hkey
  have harrives := h.arrives.follow hkey hleads
  obtain ⟨_, _, hfollow⟩ := hleads
  obtain ⟨s₂, hfollow, hstrategies, hgenerator⟩ := ht.impartial.follow hfollow s₁
  refine ⟨s₁, child, s₂, hdecide, hfollow,
    ⟨hstrategies.trans hs₁.1, hgenerator.trans hs₁.2⟩, harrives, h.round, ?_⟩
  show ((t.node child).state.transcript?.getD _).NamesNumbers
  rw [(ht.node harrives).bare.transcript]
  exact hn.plies h.names _

/-- A play at random comes to an outcome or is cut off. -/
theorem Legal.run (ht : t.Playable root numPlayers) (h : w.Legal t root)
    (hnumbers : Drawable numbers) (hs : s.AtRandom numPlayers.toNat numbers used)
    (hvisited : w.visited ≤ maxDepth.toNat) {visits : Nat}
    (hless : maxDepth.toNat < visits + w.visited) :
    (∃ o s', (run t (Session.inOrder numPlayers.toNat) numPlayers maxDepth visits w).start s =
        (.ok (some o), s')) ∨
      ∃ state s', (run t (Session.inOrder numPlayers.toNat) numPlayers maxDepth visits w).start s =
        (.error (.nonterminating maxDepth state), s') := by
  induction visits generalizing w s used with
  | zero => omega
  | succ visits ih =>
      by_cases hbound : maxDepth ≤ w.enter.visited
      · rw [run_cut_off hbound]
        exact .inr ⟨_, s, rfl⟩
      rcases (t.node w.position).goesOn_or with ⟨e, hnode⟩ | ⟨stray, hnode⟩ | hnode
      · obtain ⟨o, houtcome⟩ := (hnode ▸ ht.node h.arrives).outcome h.names
        rw [run_terminal hbound hnode, houtcome]
        exact .inl ⟨o, s, rfl⟩
      · have hnot := (ht.node h.arrives).isNode
        rw [hnode] at hnot
        cases hnot
      · obtain ⟨s₁, child, s₂, hdecide, hfollow, hs₂, hlegal⟩ := h.visit ht hnode hnumbers hs
        rw [run_goOn hbound hnode, Run.start_bind_ok hdecide, Run.start_bind_ok hfollow,
          h.enter ht]
        rw [h.enter ht] at hbound
        have hvisits : (w.goOn ((t.node w.position).drawn numbers used) child).visited =
            w.visited + 1 := rfl
        exact ih hlegal hs₂ (by omega) (by omega)

/-- Legal keys are followed with some numbers. -/
theorem Legal.exists_follows (ht : t.Playable root numPlayers) (hkeys : t.Leads p keys q)
    (harrives : t.Arrives root p) (maxDepth : Int) :
    ∃ us : List Rat, (∀ u ∈ us, 0 ≤ u ∧ u < 1) ∧
      ∀ {numbers used} {s : Session μ Rat ν} {w : Walk t.Position},
        Drawable numbers → Continue numbers used us → s.AtRandom numPlayers.toNat numbers used →
        w.Legal t root → w.position = p → w.visited + keys.length < maxDepth →
        ∃ v s', Follows t (Session.inOrder numPlayers.toNat) numPlayers maxDepth w s keys v s' ∧
          v.Legal t root ∧ v.position = q ∧ v.visited < maxDepth := by
  induction hkeys with
  | nil p =>
      refine ⟨[], nofun, fun {numbers used s w} _ _ _ hw hposition hless => ?_⟩
      exact ⟨w, s, .nil w s, hw, hposition, by simpa using hless⟩
  | @cons p q r key keys hkey hleads hrest ih =>
      obtain ⟨us, hlength, hus, hdrawn⟩ := (ht.node harrives).exists_draws hkey
      obtain ⟨vs, hvs, hfollows⟩ := ih (harrives.follow hkey hleads)
      refine ⟨us ++ vs, fun u hu => (List.mem_append.1 hu).elim (hus u) (hvs u), ?_⟩
      rintro numbers used s w hnumbers hcontinue hs hw rfl hless
      have hnode : (t.node w.position).goesOn = true := Node.goesOn_of_mem_keys hkey
      obtain ⟨s₁, child, s₂, hdecide, hfollow, hs₂, hlegal⟩ := hw.visit ht hnode hnumbers hs
      rw [hdrawn numbers used hcontinue.left] at hdecide hfollow hlegal
      -- Impartial rules lead from the key to one position only.
      obtain ⟨_, _, hgives⟩ := hleads
      obtain ⟨_, hsame, -, -⟩ := ht.impartial.follow hgives s₁
      obtain rfl : q = child := by
        rw [hfollow] at hsame
        exact (Except.ok.inj (congrArg Prod.fst hsame)).symm
      rw [List.length_cons] at hless
      obtain ⟨v, s', hfollows, hv⟩ := hfollows hnumbers (hlength ▸ hcontinue.right) hs₂ hlegal rfl
        (by show ((w.visited + 1 : Nat) : Int) + _ < _; omega)
      have henter := hw.enter ht
      refine ⟨v, s', .cons (by rw [henter]; omega) hnode hdecide hfollow ?_, hv⟩
      rwa [henter]

end Walk

end Play

namespace Session

variable {μ ν : Type}

/-- A session in which every player chooses at random and the generator yields these numbers. -/
def randomly (numPlayers : Int) (numbers : Nat → Rat) (notes : ν) : Session μ Rat ν :=
  ⟨List.replicate numPlayers.toNat (.strategy (.random none)), .listed numbers 0, notes⟩

/-- Strategies are accepted when there is one for each player of the game. -/
theorem check_inOrder {ω : Type} [Scale ω] (numPlayers : Int) :
    (inOrder (μ := μ) (ω := ω) (ν := ν) numPlayers.toNat).check numPlayers = .ok () := by
  refine Participants.check_eq_ok fun player hplayer => ?_
  obtain ⟨p, hp, rfl⟩ := List.mem_map.1 hplayer
  have hless := List.mem_range.1 hp
  exact ⟨p, rfl, by omega⟩

end Session

/-- Playing at random covers exactly the legal paths of a well formed tree. Whatever the numbers, a
play comes to an outcome, unless it is cut off. And with some numbers it follows the keys of a given
legal path to an end of the game within the bound, and gives the outcome of this end. -/
theorem random_play_covers {μ ν : Type} (t : Tree Rat (Session μ Rat ν)) (root : t.Position)
    (numPlayers maxDepth : Int) (notes : ν) (ht : t.Playable root numPlayers) :
    (∀ numbers, Drawable numbers → ∃ result,
      EndsWithin t (Session.inOrder numPlayers.toNat) numPlayers maxDepth root
        (Session.randomly numPlayers numbers notes) (maxDepth.toNat + 1) result ∧
      ((∃ o, result = .ok (some o)) ∨ ∃ state, result = .error (.nonterminating maxDepth state))) ∧
    ∀ keys last e, t.Leads root keys last → t.node last = .terminal e → keys.length < maxDepth →
      ∃ numbers, Drawable numbers ∧ ∃ v s' o,
        Walk.Follows t (Session.inOrder numPlayers.toNat) numPlayers maxDepth (Walk.start t root)
          (Session.randomly numPlayers numbers notes) keys v s' ∧
        v.position = last ∧ e.outcome v.transcript numPlayers = .ok o ∧
        EndsWithin t (Session.inOrder numPlayers.toNat) numPlayers maxDepth root
          (Session.randomly numPlayers numbers notes) (keys.length + 1) (.ok (some o)) := by
  have hlegal := Walk.start_legal ht
  have hrandomly (numbers : Nat → Rat) :
      (Session.randomly (μ := μ) numPlayers numbers notes).AtRandom numPlayers.toNat numbers 0 :=
    ⟨rfl, rfl⟩
  have hexecute := execute_eq (t := t) (Session.check_inOrder (μ := μ) (ν := ν) numPlayers)
  constructor
  · intro numbers hnumbers
    rcases hlegal.run ht hnumbers (hrandomly numbers) (Nat.zero_le _)
      (Nat.lt_succ_self maxDepth.toNat) with ⟨o, s', hplay⟩ | ⟨state, s', hplay⟩ <;>
      rw [← hexecute] at hplay
    · have hresult := ends_within (by rw [hplay]; nofun)
      rw [hplay] at hresult
      exact ⟨_, hresult, .inl ⟨o, rfl⟩⟩
    · have hresult := ends_within (by rw [hplay]; nofun)
      rw [hplay] at hresult
      exact ⟨_, hresult, .inr ⟨state, rfl⟩⟩
  · intro keys last e hkeys hnode hless
    obtain ⟨us, hus, hpath⟩ := Walk.Legal.exists_follows ht hkeys hlegal.arrives maxDepth
    obtain ⟨numbers, hnumbers, hcontinue⟩ := exists_continue hus
    obtain ⟨v, s', hfollows, hv, rfl, hvisited⟩ := hpath hnumbers hcontinue
      (hrandomly numbers) hlegal rfl (by show ((0 : Nat) : Int) + _ < _; omega)
    obtain ⟨o, houtcome⟩ := (hnode ▸ ht.node hv.arrives).outcome hv.names
    have hfinishes : Walk.Finishes t numPlayers maxDepth v o :=
      ⟨by rw [hv.enter ht]; omega, e, hnode, houtcome⟩
    have hplay : (execute t (Session.inOrder numPlayers.toNat) numPlayers maxDepth
        (keys.length + 1) root).start (Session.randomly numPlayers numbers notes) =
          (.ok (some o), s') := by
      rw [hexecute]
      exact Walk.run_eq_some_iff.2 ⟨keys, v, hfollows, Nat.lt_succ_self _, hfinishes⟩
    have hresult := ends_within (by rw [hplay]; nofun)
    rw [hplay] at hresult
    exact ⟨numbers, hnumbers, v, s', o, hfollows, rfl, houtcome, hresult⟩

theorem callTwice_leads {place : Nat} {key : Value}
    (hkey : key ∈ ((callTwice (Session Unit Rat Unit)).node place).keys) :
    Run.Gives ((callTwice (Session Unit Rat Unit)).follow place key) (place + 1) :=
  ⟨callers, _, Tree.follow_eq_ok.2 ⟨key, Node.lookupKey_of_mem_keys hkey, rfl⟩⟩

theorem callTwice_playable : (callTwice (Session Unit Rat Unit)).Playable (0 : Nat) 2 where
  impartial := callTwice_impartial
  leads _ hkey := ⟨_, callTwice_leads hkey⟩
  node {place} _ := by
    have hseats : ∀ seat ∈ ((callTwice (Session Unit Rat Unit)).node place).seats,
        (seat.player = .int 0 ∨ seat.player = .int 1) ∧ seat.moves = [.int 0, .int 1] := by
      rcases place with _ | _ | _ | place <;>
        simp [callTwice, Node.seats, Simultaneous.everyone]
    refine ⟨?_, ?_, fun hseat => ?_, fun hseat => ?_, fun hseat move hmove => ?_, ?_⟩
    · rcases place with _ | _ | _ | place <;> rfl
    · rcases place with _ | _ | _ | place <;> exact ⟨rfl, rfl⟩
    · rcases (hseats _ hseat).1 with hplayer | hplayer
      · exact ⟨0, hplayer, by decide⟩
      · exact ⟨1, hplayer, by decide⟩
    · rw [(hseats _ hseat).2]
      exact nofun
    · rw [(hseats _ hseat).2] at hmove ⊢
      revert move
      decide
    · intro e h
      rcases place with _ | _ | _ | place <;> cases h
      rfl

/-- Some play of it at random follows these keys. -/
theorem callTwice_covered :
    (callTwice (Session Unit Rat Unit)).Playable (0 : Nat) 2 ∧
      (callTwice (Session Unit Rat Unit)).Leads (0 : Nat)
        [.int 1, .tuple [.int 0, .int 1], .int 1] (3 : Nat) ∧
      ∃ numbers, Drawable numbers ∧
        ∃ (v : Walk (callTwice (Session Unit Rat Unit)).Position) (s' : Session Unit Rat Unit)
          (o : Outcome),
          Walk.Follows (callTwice _) (Session.inOrder 2) 2 4 (Walk.start (callTwice _) (0 : Nat))
            (Session.randomly 2 numbers ()) [.int 1, .tuple [.int 0, .int 1], .int 1] v s' ∧
          EndsWithin (callTwice (Session Unit Rat Unit)) (Session.inOrder 2) 2 4 (0 : Nat)
            (Session.randomly 2 numbers ()) 4 (.ok (some o)) := by
  have hleads : (callTwice (Session Unit Rat Unit)).Leads (0 : Nat)
      [.int 1, .tuple [.int 0, .int 1], .int 1] (3 : Nat) := by
    have hcoin : Value.int 1 ∈ ((callTwice (Session Unit Rat Unit)).node (0 : Nat)).keys := by
      simp [callTwice, Node.keys]
    have hboth : Value.tuple [.int 0, .int 1] ∈
        ((callTwice (Session Unit Rat Unit)).node (1 : Nat)).keys := by
      simp [callTwice, Node.keys, Simultaneous.everyone, Simultaneous.moves, choices]
    have hagain : Value.int 1 ∈ ((callTwice (Session Unit Rat Unit)).node (2 : Nat)).keys := by
      simp [callTwice, Node.keys]
    exact .cons hcoin (callTwice_leads hcoin) (.cons hboth (callTwice_leads hboth)
      (.cons hagain (callTwice_leads hagain) (.nil _)))
  obtain ⟨-, hpaths⟩ := random_play_covers _ _ 2 4 () callTwice_playable
  obtain ⟨numbers, hnumbers, v, s', o, hfollows, -, -, hends⟩ :=
    hpaths _ _ _ hleads rfl (by decide)
  exact ⟨callTwice_playable, hleads, numbers, hnumbers, v, s', o, hfollows, hends⟩

end ExtensiveForm
