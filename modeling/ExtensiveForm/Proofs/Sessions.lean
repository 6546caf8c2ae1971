import ExtensiveForm.Play.Session
import ExtensiveForm.Proofs.Draws
import ExtensiveForm.Proofs.Walk

/-!
# Plays within a session

What a play within a session depends on: the strategies that are asked and the generator of the
play. Impartial rules depend on neither and leave both alone, so a key leads to the same position in
every session. A move of chance depends on the generator only.
-/

namespace ExtensiveForm

variable {μ ω ν : Type} [Scale ω]

/-- Where a key leads is the same in all sessions, and finding it out leaves the strategies and the
generator as they are. Something may be noted on the way. -/
structure Tree.Impartial (t : Tree ω (Session μ ω ν)) : Prop where
  same (p : t.Position) (key : Value) (s r : Session μ ω ν) :
    ((t.next p key).start s).1 = ((t.next p key).start r).1
  strategies (p : t.Position) (key : Value) (s : Session μ ω ν) :
    ((t.next p key).start s).2.strategies = s.strategies
  generator (p : t.Position) (key : Value) (s : Session μ ω ν) :
    ((t.next p key).start s).2.generator = s.generator

variable {t : Tree ω (Session μ ω ν)} {p q : t.Position} {key : Value} {s s' r : Session μ ω ν}

/-- Following a key leaves the strategies and the generator as they are. -/
theorem Tree.Impartial.kept (ht : t.Impartial) (h : (t.follow p key).start s = (.ok q, s')) :
    s'.strategies = s.strategies ∧ s'.generator = s.generator := by
  obtain ⟨found, -, hnext⟩ := follow_eq_ok.1 h
  have hstrategies := ht.strategies p found s
  have hgenerator := ht.generator p found s
  rw [hnext] at hstrategies hgenerator
  exact ⟨hstrategies, hgenerator⟩

/-- A key that leads somewhere leads there in every session. -/
theorem Tree.Impartial.follow (ht : t.Impartial) (h : (t.follow p key).start s = (.ok q, s'))
    (r : Session μ ω ν) :
    ∃ r', (t.follow p key).start r = (.ok q, r') ∧ r'.strategies = r.strategies ∧
      r'.generator = r.generator := by
  obtain ⟨found, hfound, hnext⟩ := follow_eq_ok.1 h
  have hsame := ht.same p found s r
  rw [hnext] at hsame
  refine ⟨((t.next p found).start r).2, follow_eq_ok.2 ⟨found, hfound, ?_⟩,
    ht.strategies p found r, ht.generator p found r⟩
  exact Prod.ext hsame.symm rfl

namespace Session

/-- The strategy at a place answers with the generator of the play, and both go on from there. -/
theorem start_ask {place : Nat} {x : Candidate μ ω} (h : s.strategies[place]? = some x)
    (c : Context) :
    (ask place c).start s =
      ((x.next c s.generator).answer,
        { s with
          strategies := s.strategies.set place (x.next c s.generator).after
          generator := (x.next c s.generator).generator }) := by
  simp only [ask, Run.start, Run.of, h]

/-- Nobody answers at a place without a strategy. -/
theorem start_ask_none {place : Nat} (h : s.strategies[place]? = none) (c : Context) :
    (ask place c).start s = (.error .indexOutOfRange, s) := by
  simp only [ask, Run.start, Run.of, h]

/-- A move of chance takes one number of the generator of the play and nothing else. -/
theorem sample_eq_ok_iff {d : Distribution ω} {v : Value} :
    (d.sample uniform).start s = (.ok v, s') ↔
      d.isProper = true ∧ d.pick? (Generator.uniform s.generator).1 = some v ∧
        { s with generator := (Generator.uniform s.generator).2 } = s' :=
  Distribution.sample_eq_ok_iff

/-- From the same generator chance draws the same element, and leaves the same generator. -/
theorem sample_same {d : Distribution ω} {v : Value}
    (h : (d.sample uniform).start s = (.ok v, s')) (hr : r.generator = s.generator) :
    (d.sample uniform).start r = (.ok v, { r with generator := s'.generator }) := by
  obtain ⟨hproper, hpick, rfl⟩ := sample_eq_ok_iff.1 h
  exact sample_eq_ok_iff.2 ⟨hproper, hr ▸ hpick, by rw [hr]⟩

end Session

/-! ### Strategies that draw nothing -/

namespace Strategy

mutual

/-- The strategy never draws from the generator of the play. -/
def drawsNothing : Strategy μ ω → Bool
  | .mixed _ own => own.isSome
  | .random own => own.isSome
  | .periodic strategies _ => allDrawNothing strategies
  | .conditional _ onTrue onFalse => onTrue.drawsNothing && onFalse.drawsNothing
  | .trigger _ before after _ => before.drawsNothing && after.drawsNothing
  | .pure _ => true
  | .function _ _ => true
termination_by structural s => s

/-- None of the strategies ever draws from the generator of the play. -/
def allDrawNothing : List (Strategy μ ω) → Bool
  | [] => true
  | s :: rest => s.drawsNothing && allDrawNothing rest
termination_by structural ss => ss

end

/-- A draw with an own generator leaves the shared one as it is, and does not depend on it. -/
theorem draw_kept {d : Distribution ω} {own : Option (Generator ω)} (h : own.isSome = true)
    (g g' : Generator ω) :
    draw d own g = { draw d own g' with generator := g } ∧ (draw d own g).after.isSome = true := by
  cases own with
  | none => cases h
  | some own => exact ⟨rfl, rfl⟩

theorem drawOffered_kept {own : Option (Generator ω)} (h : own.isSome = true) (c : Context)
    (g g' : Generator ω) :
    drawOffered own c g = { drawOffered own c g' with generator := g } ∧
      (drawOffered own c g).after.isSome = true := by
  unfold drawOffered
  split
  · exact ⟨rfl, h⟩
  · split
    · exact draw_kept h g g'
    · exact ⟨rfl, h⟩

mutual

/-- A strategy that draws nothing leaves the generator as it is, does not depend on it, and goes on
drawing nothing. -/
theorem next_kept (s : Strategy μ ω) (c : Context) (g g' : Generator ω)
    (h : s.drawsNothing = true) :
    s.next c g = { s.next c g' with generator := g } ∧
      (s.next c g).after.drawsNothing = true := by
  cases s with
  | pure move => exact ⟨rfl, rfl⟩
  | mixed d own =>
      obtain ⟨hnext, hafter⟩ := draw_kept (d := d) h g g'
      exact ⟨congrArg (Reply.map (mixed d)) hnext, hafter⟩
  | random own =>
      obtain ⟨hnext, hafter⟩ := drawOffered_kept h c g g'
      exact ⟨congrArg (Reply.map random) hnext, hafter⟩
  | periodic strategies turn =>
      obtain ⟨hnext, hafter⟩ := nextAt_kept strategies turn c g g' h
      refine ⟨?_, hafter⟩
      rw [next, hnext]
      rfl
  | conditional condition onTrue onFalse =>
      rw [drawsNothing, Bool.and_eq_true] at h
      obtain ⟨htrue, hfalse⟩ := h
      rw [next, next]
      split
      · obtain ⟨hnext, hafter⟩ := next_kept onTrue c g g' htrue
        exact ⟨congrArg (Reply.map _) hnext, by simp [Reply.map, drawsNothing, hafter, hfalse]⟩
      · obtain ⟨hnext, hafter⟩ := next_kept onFalse c g g' hfalse
        exact ⟨congrArg (Reply.map _) hnext, by simp [Reply.map, drawsNothing, hafter, htrue]⟩
      · exact ⟨rfl, by simp [drawsNothing, htrue, hfalse]⟩
  | trigger condition before after triggered =>
      rw [drawsNothing, Bool.and_eq_true] at h
      obtain ⟨hbefore, hafter⟩ := h
      obtain ⟨hnext, hlater⟩ := next_kept after c g g' hafter
      obtain ⟨hnext', hlater'⟩ := next_kept before c g g' hbefore
      cases triggered with
      | true =>
          rw [next, next]
          exact ⟨congrArg (Reply.map _) hnext, by simp [Reply.map, drawsNothing, hlater, hbefore]⟩
      | false =>
          rw [next, next]
          split
          · exact ⟨congrArg (Reply.map _) hnext,
              by simp [Reply.map, drawsNothing, hlater, hbefore]⟩
          · exact ⟨congrArg (Reply.map _) hnext',
              by simp [Reply.map, drawsNothing, hlater', hafter]⟩
          · exact ⟨rfl, by simp [drawsNothing, hbefore, hafter]⟩
  | function name responder => exact ⟨rfl, rfl⟩
termination_by structural s

theorem nextAt_kept (ss : List (Strategy μ ω)) (place : Nat) (c : Context) (g g' : Generator ω)
    (h : allDrawNothing ss = true) :
    nextAt ss place c g = { nextAt ss place c g' with generator := g } ∧
      allDrawNothing (nextAt ss place c g).after = true := by
  cases ss with
  | nil => exact ⟨rfl, rfl⟩
  | cons s rest =>
      rw [allDrawNothing, Bool.and_eq_true] at h
      obtain ⟨hfirst, hrest⟩ := h
      cases place with
      | zero =>
          obtain ⟨hnext, hafter⟩ := next_kept s c g g' hfirst
          exact ⟨congrArg (Reply.map _) hnext,
            by simp [nextAt, Reply.map, allDrawNothing, hafter, hrest]⟩
      | succ place =>
          obtain ⟨hnext, hafter⟩ := nextAt_kept rest place c g g' hrest
          exact ⟨congrArg (Reply.map _) hnext,
            by simp [nextAt, Reply.map, allDrawNothing, hafter, hfirst]⟩
termination_by structural ss

end

end Strategy

namespace Candidate

/-- The candidate never draws from the generator of the play. -/
def drawsNothing : Candidate μ ω → Bool
  | .strategy s => s.drawsNothing
  | _ => true

theorem next_kept (x : Candidate μ ω) (c : Context) (g g' : Generator ω)
    (h : x.drawsNothing = true) :
    x.next c g = { x.next c g' with generator := g } ∧
      (x.next c g).after.drawsNothing = true := by
  cases x with
  | strategy s =>
      obtain ⟨hnext, hafter⟩ := s.next_kept c g g' h
      exact ⟨congrArg (Reply.map _) hnext, hafter⟩
  | _ => exact ⟨rfl, rfl⟩

end Candidate

/-- Chance draws from the generator of the play, and as long as the strategies are of this sort,
nobody else does. -/
structure Participants.DrawsNothing {μ ω ν : Type} [Scale ω] (ps : Participants ω (Session μ ω ν))
    (I : List (Candidate μ ω) → Prop) : Prop where
  uniform : ps.uniform = Session.uniform
  generator {player : Nat} {ask : Context → Run (Session μ ω ν) Value}
    (h : ps.ask player = some ask) (c : Context) {s : Session μ ω ν} (hs : I s.strategies) :
    ((ask c).start s).2.generator = s.generator
  kept {player : Nat} {ask : Context → Run (Session μ ω ν) Value}
    (h : ps.ask player = some ask) (c : Context) {s : Session μ ω ν} (hs : I s.strategies) :
    I ((ask c).start s).2.strategies

namespace Session

/-- Strategies that draw nothing are asked without a draw, in whatever order they are given. -/
theorem drawsNothing_of_asks {ps : Participants ω (Session μ ω ν)}
    (huniform : ps.uniform = uniform)
    (hasks : ∀ player ask, ps.ask player = some ask → ∃ place, ask = Session.ask place) :
    ps.DrawsNothing fun strategies => ∀ x ∈ strategies, x.drawsNothing = true where
  uniform := huniform
  generator {player ask} h c {s} hs := by
    obtain ⟨place, rfl⟩ := hasks player ask h
    cases hplace : s.strategies[place]? with
    | none =>
        rw [start_ask_none hplace]
    | some x =>
        rw [start_ask hplace]
        obtain ⟨hnext, -⟩ :=
          x.next_kept c s.generator s.generator (hs x (List.mem_of_getElem? hplace))
        exact congrArg Reply.generator hnext
  kept {player ask} h c {s} hs := by
    obtain ⟨place, rfl⟩ := hasks player ask h
    cases hplace : s.strategies[place]? with
    | none =>
        rw [start_ask_none hplace]
        exact hs
    | some x =>
        rw [start_ask hplace]
        intro y hy
        rcases List.mem_or_eq_of_mem_set hy with hy | rfl
        · exact hs y hy
        · exact (x.next_kept c s.generator s.generator (hs x (List.mem_of_getElem? hplace))).2

theorem inOrder_drawsNothing (count : Nat) :
    (inOrder (μ := μ) (ω := ω) (ν := ν) count).DrawsNothing
      fun strategies => ∀ x ∈ strategies, x.drawsNothing = true := by
  refine drawsNothing_of_asks rfl fun player ask h => ⟨player, ?_⟩
  simp only [inOrder] at h
  split at h <;> cases h
  rfl

theorem byPlayer_drawsNothing (places : Table Nat) :
    (byPlayer (μ := μ) (ω := ω) (ν := ν) places).DrawsNothing
      fun strategies => ∀ x ∈ strategies, x.drawsNothing = true := by
  refine drawsNothing_of_asks rfl fun player ask h => ?_
  obtain ⟨place, -, rfl⟩ := Option.map_eq_some_iff.1 h
  exact ⟨place, rfl⟩

end Session

/-! ### Generators of a sort -/

section Nonneg

/-- Generators of a sort, each of which yields a number from zero on and is of this sort again
afterwards. -/
structure Generator.Nonneg (G : Generator ω → Prop) : Prop where
  number {g : Generator ω} (hg : G g) : 0 ≤ (uniform g).1
  after {g : Generator ω} (hg : G g) : G (uniform g).2

variable {G : Generator ω → Prop} {g : Generator ω}

namespace Strategy

theorem draw_generator (hG : Generator.Nonneg G) (d : Distribution ω) (own : Option (Generator ω))
    (hg : G g) : G (draw d own g).generator := by
  cases own with
  | none => exact Distribution.sample_keeps (fun _ => hG.after) d g hg
  | some own => exact hg

mutual

/-- Whatever a strategy draws, the generator of the play stays of its sort. -/
theorem next_generator (hG : Generator.Nonneg G) (s : Strategy μ ω) (c : Context) (hg : G g) :
    G (s.next c g).generator := by
  cases s with
  | pure move => exact hg
  | mixed d own => exact draw_generator hG d own hg
  | random own =>
      show G (drawOffered own c g).generator
      unfold drawOffered
      split
      · exact hg
      · split
        · exact draw_generator hG _ own hg
        · exact hg
  | periodic strategies turn => exact nextAt_generator hG strategies turn c hg
  | conditional condition onTrue onFalse =>
      rw [next]
      split
      · exact next_generator hG onTrue c hg
      · exact next_generator hG onFalse c hg
      · exact hg
  | trigger condition before after triggered =>
      cases triggered with
      | true => exact next_generator hG after c hg
      | false =>
          rw [next]
          split
          · exact next_generator hG after c hg
          · exact next_generator hG before c hg
          · exact hg
  | function name responder => exact hg
termination_by structural s

theorem nextAt_generator (hG : Generator.Nonneg G) (ss : List (Strategy μ ω)) (place : Nat)
    (c : Context) (hg : G g) : G (nextAt ss place c g).generator := by
  cases ss with
  | nil => exact hg
  | cons s rest =>
      cases place with
      | zero => exact next_generator hG s c hg
      | succ place => exact nextAt_generator hG rest place c hg
termination_by structural ss

end

end Strategy

/-- Players of a session play fairly with a generator that yields no negative number. -/
theorem Session.fair_of_asks {ps : Participants ω (Session μ ω ν)} (huniform : ps.uniform = uniform)
    (hasks : ∀ player ask, ps.ask player = some ask → ∃ place, ask = Session.ask place)
    (hG : Generator.Nonneg G) : ps.Fair fun s => G s.generator where
  nonneg hs := by
    rw [huniform]
    exact hG.number hs
  drawn hs := by
    rw [huniform]
    exact hG.after hs
  asked {player ask} h c s hs := by
    obtain ⟨place, rfl⟩ := hasks player ask h
    cases hplace : s.strategies[place]? with
    | none => rwa [start_ask_none hplace]
    | some x =>
        rw [start_ask hplace]
        cases x with
        | strategy x => exact x.next_generator hG c hs
        | _ => exact hs

/-- Impartial rules do not exchange the generator. -/
theorem Tree.Impartial.keeps (ht : t.Impartial) (p : t.Position) (key : Value) :
    Run.Keeps (fun s => G s.generator) (t.next p key) := fun s hs => by
  show G _
  rwa [ht.generator p key s]

/-- Listed numbers from zero on are yielded one after another. -/
theorem Generator.listed_nonneg {numbers : Nat → ω} (h : ∀ i, 0 ≤ numbers i) :
    Nonneg fun g => ∃ used, g = .listed numbers used where
  number := by
    rintro g ⟨used, rfl⟩
    exact h used
  after := by
    rintro g ⟨used, rfl⟩
    exact ⟨used + 1, rfl⟩

end Nonneg

end ExtensiveForm
