import Mathlib.Data.Finset.Card
import Mathlib.Data.Finset.Filter
import Mathlib.Logic.Relation
import ExtensiveForm.Proofs.Equality
import ExtensiveForm.Proofs.Walk
import ExtensiveForm.Tree.Graph

/-!
# Walks over finite graphs

The bound on the visits holds for each round, so a walk that changes its round again and again is
not cut off: `changing_rounds_never_end` is a cycle of two nodes that is walked for ever. This is
all that can go wrong. `walk_ends_unless_rounds_turn` says that a walk ends unless it changes its
round along a cycle again and again, and that it ends by the bound if nothing else would end it.

The proof counts the nodes that may still be reached. A change of the round leaves the cycles
passed so far for good, so it lowers this number, and between two changes the bound counts down.
-/

namespace ExtensiveForm

namespace Graph

variable {ω σ : Type} [Scale ω]

/-- Some key leads from one node to another. -/
def Leads (g : Graph ω) (i j : Nat) : Prop :=
  ∃ key, g.next? i key = .ok (some j)

/-- The round that the state of a node belongs to. -/
def round (g : Graph ω) (i : Nat) : Value :=
  (g.node i).state.round

/-- No round changes along a cycle: if a key leads to a node from which there is a way back, the
two nodes belong to the same round. -/
def SteadyCycles (g : Graph ω) : Prop :=
  ∀ i j, g.Leads i j → Relation.ReflTransGen g.Leads j i → (g.round j == g.round i) = true

open Classical in
/-- The nodes that can be reached from a node, itself included. -/
noncomputable def ahead (g : Graph ω) (i : Nat) : Finset Nat :=
  {k ∈ Finset.range g.nodes.size | Relation.ReflTransGen g.Leads i k}

variable {g : Graph ω} {i j : Nat}

theorem mem_ahead {k : Nat} :
    k ∈ g.ahead i ↔ k < g.nodes.size ∧ Relation.ReflTransGen g.Leads i k := by
  simp [ahead]

/-- Keys lead on only from the nodes of the graph. -/
theorem Leads.lt_size (h : g.Leads i j) : i < g.nodes.size := by
  obtain ⟨key, hkey⟩ := h
  by_contra hsize
  simp [next?, Array.getElem?_eq_none (Nat.le_of_not_lt hsize)] at hkey

/-- A key does not lead to more than what lay ahead. -/
theorem ahead_subset (h : g.Leads i j) : g.ahead j ⊆ g.ahead i := by
  intro k hk
  rw [mem_ahead] at hk ⊢
  exact ⟨hk.1, .head h hk.2⟩

/-- Where there is no way back, a key leaves a node behind. -/
theorem ahead_card_lt (h : g.Leads i j) (hback : ¬ Relation.ReflTransGen g.Leads j i) :
    (g.ahead j).card < (g.ahead i).card := by
  refine Finset.card_lt_card (Finset.ssubset_iff_subset_ne.2 ⟨ahead_subset h, fun heq => ?_⟩)
  have hi : i ∈ g.ahead i := mem_ahead.2 ⟨h.lt_size, .refl⟩
  rw [← heq, mem_ahead] at hi
  exact hback hi.2

theorem ahead_card_le (i : Nat) : (g.ahead i).card ≤ g.nodes.size := by
  classical
  exact (Finset.card_filter_le _ _).trans_eq (Finset.card_range _)

/-- Following a key of a graph is looking it up. -/
theorem leads_of_follow {p q : (g.tree σ).Position} {key : Value} {s s' : σ}
    (h : ((g.tree σ).follow p key).start s = (.ok q, s')) : g.Leads p q := by
  obtain ⟨found, -, hnext⟩ := Tree.follow_eq_ok.1 h
  exact ⟨found, congrArg Prod.fst hnext⟩

end Graph

namespace Walk

variable {ω σ : Type} [Scale ω] {g : Graph ω} {ps : Participants ω σ}
  {numPlayers maxDepth : Int} {s s' : σ}

/-- How many visits are certain to suffice, all but one, for a walk that has entered its node: a
whole round for every node ahead, less what was visited in this one. -/
noncomputable def visitsLeft (g : Graph ω) (maxDepth : Int) (w : Walk (g.tree σ).Position) : Nat :=
  (g.ahead w.position).card * maxDepth.toNat - w.visited

/-- The round of a walk is the round of its node, by identity or by equality. -/
def InRound (g : Graph ω) (w : Walk (g.tree σ).Position) : Prop :=
  w.round = g.round w.position ∨ (g.round w.position == w.round) = true

theorem enter_inRound (w : Walk (g.tree σ).Position) : InRound g w.enter := by
  unfold InRound
  dsimp only [enter]
  split
  · exact .inr ‹_›
  · exact .inl rfl

/-- A visit changes the round along a cycle: from the new node there is a way back to the old one,
and the two belong to different rounds. -/
def TurnsRound (g : Graph ω) (v next : Walk (g.tree σ).Position) : Prop :=
  Relation.ReflTransGen g.Leads next.position v.position ∧
    ¬ (g.round next.position == g.round v.position) = true

/-- From this state of the surroundings, the visit after so many others changes the round along a
cycle. -/
def TurnsRoundAfter (g : Graph ω) (ps : Participants ω σ) (numPlayers : Int)
    (w : Walk (g.tree σ).Position) (s : σ) (visits : Nat) : Prop :=
  ∃ v s₁ next s₂, (wander (g.tree σ) ps numPlayers visits w).start s = (.ok (.inl v), s₁) ∧
    (v.enter.advance (g.tree σ) ps numPlayers).start s₁ = (.ok (.inl next), s₂) ∧
    TurnsRound g v next

/-- After a visit that does not change the round along a cycle there are fewer visits left. -/
theorem visitsLeft_advance {w next : Walk (g.tree σ).Position} (hround : InRound g w)
    (hsteady : ¬ TurnsRound g w next) (hbound : ¬ maxDepth ≤ w.visited)
    (h : (w.advance (g.tree σ) ps numPlayers).start s = (.ok (.inl next), s')) :
    visitsLeft g maxDepth next.enter < visitsLeft g maxDepth w := by
  obtain ⟨key, s₁, hfollow, hsame, hvisited⟩ := advance_inl h
  have hleads := Graph.leads_of_follow hfollow
  have hround' : maxDepth.toNat ≤ (g.ahead w.position).card * maxDepth.toNat :=
    Nat.le_mul_of_pos_left _ (Finset.card_pos.2 ⟨_, Graph.mem_ahead.2 ⟨hleads.lt_size, .refl⟩⟩)
  unfold visitsLeft
  rw [enter_position]
  by_cases hback : Relation.ReflTransGen g.Leads next.position w.position
  · -- On a cycle the round stays, so the count goes on.
    have hcycle : (g.round next.position == g.round w.position) = true := by
      by_contra hchange
      exact hsteady ⟨hback, hchange⟩
    have heq : (g.round next.position == next.round) = true := by
      rw [hsame]
      rcases hround with h | h
      · rw [h]
        exact hcycle
      · exact Value.beq_trans hcycle h
    have hsteps : next.enter.visited = w.visited + 1 := by
      dsimp only [enter]
      rw [if_pos (by exact heq), hvisited]
    have hmul := Nat.mul_le_mul_right maxDepth.toNat
      (Finset.card_le_card (Graph.ahead_subset hleads))
    omega
  · -- Otherwise a node is left behind for good, which pays for a whole round.
    have hmul := Nat.mul_le_mul_right maxDepth.toNat
      (Nat.succ_le_of_lt (Graph.ahead_card_lt hleads hback))
    rw [Nat.succ_mul] at hmul
    omega

/-- A walk that never changes its round along a cycle ends. -/
theorem run_ends (visits : Nat) (w : Walk (g.tree σ).Position) (s : σ)
    (hsteady : ∀ n, ¬ TurnsRoundAfter g ps numPlayers w s n)
    (h : visitsLeft g maxDepth w.enter < visits) :
    ((run (g.tree σ) ps numPlayers maxDepth visits w).start s).1 ≠ .ok none := by
  induction visits generalizing w s with
  | zero => exact absurd h (Nat.not_lt_zero _)
  | succ visits ih =>
      rw [run, step_eq]
      by_cases hbound : maxDepth ≤ w.enter.visited
      · rw [if_pos hbound]
        simp
      · rw [if_neg hbound]
        rcases hstep : (w.enter.advance (g.tree σ) ps numPlayers).start s with ⟨f | next | o, s₁⟩
        · rw [Run.start_bind_error hstep]
          simp
        · rw [Run.start_bind_ok hstep]
          have hless : visitsLeft g maxDepth next.enter < visitsLeft g maxDepth w.enter := by
            refine visitsLeft_advance (enter_inRound w) (fun hturn => ?_) hbound hstep
            unfold TurnsRound at hturn
            rw [enter_position] at hturn
            exact hsteady 0 ⟨w, s, next, s₁, rfl, hstep, hturn⟩
          -- A turn in the rest of the walk is a turn of the whole walk, one visit later.
          refine ih next s₁ (fun n => ?_) (by omega)
          rintro ⟨v, s₂, later, s₃, hv, hlater, hturn⟩
          refine hsteady (n + 1) ⟨v, s₂, later, s₃, ?_, hlater, hturn⟩
          rw [wander, Run.start_bind_ok hstep]
          exact hv
        · rw [Run.start_bind_ok hstep]
          simp

end Walk

namespace Graph

variable {ω σ : Type} [Scale ω] {g : Graph ω} {ps : Participants ω σ}
  {numPlayers maxDepth : Int} {s : σ}

/-- Where no cycle changes its round, no walk does. -/
theorem SteadyCycles.not_turnsRoundAfter (h : g.SteadyCycles) (w : Walk (g.tree σ).Position)
    (n : Nat) : ¬ Walk.TurnsRoundAfter g ps numPlayers w s n := by
  rintro ⟨v, s₁, next, s₂, -, hstep, hback, hchange⟩
  obtain ⟨key, s₃, hfollow, -, -⟩ := Walk.advance_inl hstep
  rw [Walk.enter_position] at hfollow
  exact hchange (h _ _ (leads_of_follow hfollow) hback)

/-- A walk that never ends is endless and changes its round along a cycle again and again. -/
theorem turns_round_of_run_eq_none {w : Walk (g.tree σ).Position}
    (h : ∀ visits, ((Walk.run (g.tree σ) ps numPlayers maxDepth visits w).start s).1 = .ok none) :
    Walk.Endless (g.tree σ) ps numPlayers w s ∧
      ∀ n, ∃ m, n ≤ m ∧ Walk.TurnsRoundAfter g ps numPlayers w s m := by
  refine ⟨fun n => ?_, fun n => ?_⟩
  · obtain ⟨later, s', hlater, -⟩ := Walk.wander_of_run_eq_none h n
    exact ⟨later, s', hlater⟩
  · obtain ⟨later, s', hlater, hrun⟩ := Walk.wander_of_run_eq_none h n
    by_contra hnone
    -- Without another turn of the round the rest of the walk would end.
    refine Walk.run_ends _ later s' (fun k => ?_) (Nat.lt_succ_self _) (hrun _)
    rintro ⟨v, s₁, next, s₂, hv, hnext⟩
    refine hnone ⟨n + k, Nat.le_add_right n k, v, s₁, next, s₂, ?_, hnext⟩
    rw [Walk.wander_add hlater]
    exact hv

/-- Every play over a finite graph ends with an outcome or a fault, unless it changes its round
along a cycle again and again. If no cycle changes its round, the bound on the visits for every
node, and one visit more, are enough. And a play that ends although nothing but the bound would end
it is cut off by the bound. -/
theorem walk_ends_unless_rounds_turn (g : Graph ω) (ps : Participants ω σ)
    (numPlayers maxDepth : Int) (root : (g.tree σ).Position) (s : σ) :
    ((∃ visits result, EndsWithin (g.tree σ) ps numPlayers maxDepth root s visits result) ∨
        Walk.Endless (g.tree σ) ps numPlayers (Walk.start (g.tree σ) root) s ∧
          ∀ n, ∃ m, n ≤ m ∧
            Walk.TurnsRoundAfter g ps numPlayers (Walk.start (g.tree σ) root) s m) ∧
      (g.SteadyCycles → ∃ result,
        EndsWithin (g.tree σ) ps numPlayers maxDepth root s
          (g.nodes.size * maxDepth.toNat + 1) result) ∧
      ∀ visits result, EndsWithin (g.tree σ) ps numPlayers maxDepth root s visits result →
        ps.check numPlayers = .ok () →
        Walk.Endless (g.tree σ) ps numPlayers (Walk.start (g.tree σ) root) s →
        ∃ state, result = .error (.nonterminating maxDepth state) := by
  refine ⟨?_, fun hsteady => ?_, fun visits result hends hcheck hendless => ?_⟩
  -- A play that is refused ends at once, so one that never ends is a walk.
  · by_cases hnever : ∀ visits,
        ((execute (g.tree σ) ps numPlayers maxDepth visits root).start s).1 = .ok none
    · right
      cases hcheck : ps.check numPlayers with
      | error f =>
          have h := hnever 0
          rw [execute_eq_throw hcheck] at h
          cases h
      | ok =>
          simp only [execute_eq hcheck] at hnever
          exact turns_round_of_run_eq_none hnever
    · obtain ⟨visits, hvisits⟩ := not_forall.1 hnever
      exact .inl ⟨visits, _, ends_within hvisits⟩
  · refine ⟨_, ends_within ?_⟩
    cases hcheck : ps.check numPlayers with
    | error f =>
        rw [execute_eq_throw hcheck]
        simp
    | ok =>
        rw [execute_eq hcheck]
        refine Walk.run_ends _ _ s (hsteady.not_turnsRoundAfter _) (Nat.lt_succ_of_le ?_)
        exact (Nat.sub_le _ _).trans (Nat.mul_le_mul_right _ (ahead_card_le _))
  · obtain ⟨hended, heq⟩ := hends
    have h := heq visits (Nat.le_refl _)
    rw [execute_eq hcheck] at h
    exact hendless.run_eq visits (Prod.ext h rfl) hended

/-- Two nodes that lead to each other, in different rounds. Nobody decides anything at them. -/
def seesaw : Graph Rat where
  nodes :=
    #[(.simultaneous ⟨[], .scope ⟨.null, .null, .int 0, .null⟩, .nil⟩, ⟨[(.tuple [], 1)]⟩),
      (.simultaneous ⟨[], .scope ⟨.null, .null, .int 1, .null⟩, .nil⟩, ⟨[(.tuple [], 0)]⟩)]

/-- A play in which no one takes part. -/
def nobody : Participants Rat Unit where
  players := []
  ask _ := none
  uniform := pure 0

/-- Each of the two nodes is entered as a new round, with nothing visited yet. -/
theorem seesaw_step (visited : Nat) :
    (Walk.step (seesaw.tree Unit) nobody 0 1 ⟨(0 : Nat), .empty, .int 1, visited⟩).start () =
        (.ok (.inl ⟨(1 : Nat), .empty, .int 0, 1⟩), ()) ∧
      (Walk.step (seesaw.tree Unit) nobody 0 1 ⟨(1 : Nat), .empty, .int 0, visited⟩).start () =
        (.ok (.inl ⟨(0 : Nat), .empty, .int 1, 1⟩), ()) :=
  ⟨rfl, rfl⟩

theorem seesaw_run (visits visited : Nat) :
    (Walk.run (seesaw.tree Unit) nobody 0 1 visits ⟨(0 : Nat), .empty, .int 1, visited⟩).start () =
        (.ok none, ()) ∧
      (Walk.run (seesaw.tree Unit) nobody 0 1 visits ⟨(1 : Nat), .empty, .int 0, visited⟩).start ()
        = (.ok none, ()) := by
  induction visits generalizing visited with
  | zero => exact ⟨rfl, rfl⟩
  | succ visits ih =>
      constructor
      · rw [Walk.run, Run.start_bind_ok (seesaw_step visited).1]
        exact (ih 1).2
      · rw [Walk.run, Run.start_bind_ok (seesaw_step visited).2]
        exact (ih 1).1

theorem execute_seesaw (visits : Nat) :
    (execute (seesaw.tree Unit) nobody 0 1 visits (0 : Nat)).start () = (.ok none, ()) := by
  have hcheck : nobody.check 0 = .ok () := rfl
  have hwalk := execute_eq (t := seesaw.tree Unit) hcheck 1 visits (0 : Nat)
  rw [hwalk]
  cases visits with
  | zero => rfl
  | succ visits =>
      have hfirst :
          (Walk.step (seesaw.tree Unit) nobody 0 1 (Walk.start _ (0 : Nat))).start () =
            (.ok (.inl ⟨(1 : Nat), .empty, .int 0, 1⟩), ()) := rfl
      rw [Walk.run, Run.start_bind_ok hfirst]
      exact (seesaw_run visits 1).2

/-- With a bound of one visit, the walk from node to node is never cut off: no number of visits is
enough for it to end in any way. -/
theorem changing_rounds_never_end :
    ¬ ∃ visits result, EndsWithin (seesaw.tree Unit) nobody 0 1 (0 : Nat) () visits result := by
  rintro ⟨visits, result, hended, hends⟩
  have hplay := congrArg Prod.fst (execute_seesaw visits)
  exact hended ((hends visits (Nat.le_refl _)).symm.trans hplay)

end Graph

end ExtensiveForm
