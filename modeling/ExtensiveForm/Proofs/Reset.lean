import ExtensiveForm.Proofs.Calls

/-!
# A reset makes a strategy as good as new

A strategy forgets when nothing in it remembers more than a reset undoes: it has no generators of
its own, and its functions and conditions keep no memory. What remains is whose turn it is and
which conditions have held, at any depth.

A call changes no more than that, so a strategy that forgets is reset to the same strategy before
the call and after it (`reset_asked`). A strategy as it is built is what it is reset to,
and `reset_asked_of_built` is the main result.
-/

namespace ExtensiveForm

namespace Strategy

variable {μ ω : Type} [Scale ω]

/-- Nothing in the strategy remembers more than a reset undoes. -/
inductive Forgets : Strategy μ ω → Prop where
  | pure (move : Value) : Forgets (.pure move)
  | mixed (distribution : Distribution ω) : Forgets (.mixed distribution none)
  | random : Forgets (.random none)
  | periodic {strategies : List (Strategy μ ω)} (turn : Nat)
      (h : ∀ s ∈ strategies, Forgets s) : Forgets (.periodic strategies turn)
  | conditional {condition : Responder μ} {onTrue onFalse : Strategy μ ω}
      (hcondition : condition.Stateless) (htrue : Forgets onTrue) (hfalse : Forgets onFalse) :
      Forgets (.conditional condition onTrue onFalse)
  | trigger {condition : Responder μ} {before after : Strategy μ ω} (triggered : Bool)
      (hcondition : condition.Stateless) (hbefore : Forgets before) (hafter : Forgets after) :
      Forgets (.trigger condition before after triggered)
  | function (name : String) {responder : Responder μ} (h : responder.Stateless) :
      Forgets (.function name responder)

/-- The strategy is built, to any depth, from moves, distributions, offered moves drawn with the
generator of the play, and functions and conditions without memory. -/
inductive Built : Strategy μ ω → Prop where
  | pure (move : Value) : Built (.pure move)
  | mixed (distribution : Distribution ω) : Built (.mixed distribution none)
  | random : Built (.random none)
  | function (name : String) {responder : Responder μ} (h : responder.Stateless) :
      Built (.function name responder)
  | movesInTurn {moves : Value} {s : Strategy μ ω} (hs : movesInTurn moves = .ok s) : Built s
  | inTurn {candidates : List (Candidate μ ω)} {s : Strategy μ ω} (hs : inTurn candidates = .ok s)
      (h : ∀ x ∈ candidates, ∀ part, x.asStrategy = .ok part → Built part) : Built s
  | onCondition {condition : Responder μ} {x y : Candidate μ ω} {s : Strategy μ ω}
      (hs : onCondition condition x y = .ok s) (hcondition : condition.Stateless)
      (hx : ∀ part, x.asStrategy = .ok part → Built part)
      (hy : ∀ part, y.asStrategy = .ok part → Built part) : Built s
  | onTrigger {condition : Responder μ} {x y : Candidate μ ω} {s : Strategy μ ω}
      (hs : onTrigger condition x y = .ok s) (hcondition : condition.Stateless)
      (hx : ∀ part, x.asStrategy = .ok part → Built part)
      (hy : ∀ part, y.asStrategy = .ok part → Built part) : Built s

theorem resetAll_eq_map (ss : List (Strategy μ ω)) : resetAll ss = ss.map reset := by
  induction ss with
  | nil => rfl
  | cons s rest ih => rw [resetAll, ih, List.map_cons]

variable {s : Strategy μ ω}

theorem drawOffered_after (c : Context) (g : Generator ω) :
    (drawOffered none c g).after = none := by
  unfold drawOffered
  split
  · rfl
  · split <;> rfl

/-- A call does not change what a strategy that forgets is reset to. -/
theorem reset_next (h : s.Forgets) (c : Context) (g : Generator ω) :
    (s.next c g).after.Forgets ∧ (s.next c g).after.reset = s.reset := by
  induction h generalizing c g with
  | pure move => exact ⟨.pure move, rfl⟩
  | mixed distribution => exact ⟨.mixed distribution, rfl⟩
  | random =>
      have hafter : ((random none : Strategy μ ω).next c g).after = .random none :=
        congrArg random (drawOffered_after c g)
      rw [hafter]
      exact ⟨.random, rfl⟩
  | @periodic strategies turn h ih =>
      suffices hparts : (∀ s ∈ (nextAt strategies turn c g).after, Forgets s) ∧
          resetAll (nextAt strategies turn c g).after = resetAll strategies by
        exact ⟨.periodic _ hparts.1, congrArg (periodic · 0) hparts.2⟩
      cases hplace : strategies[turn]? with
      | none =>
          rw [nextAt_none hplace]
          exact ⟨h, rfl⟩
      | some s =>
          obtain ⟨hforgets, hreset⟩ := ih s (List.mem_of_getElem? hplace) c g
          rw [nextAt_eq hplace]
          refine ⟨fun s' hs' => ?_, ?_⟩
          · rcases List.mem_or_eq_of_mem_set hs' with hs' | rfl
            · exact h s' hs'
            · exact hforgets
          · -- The strategy that went on is reset to the one that it replaces.
            show resetAll (strategies.set turn (s.next c g).after) = resetAll strategies
            obtain ⟨hturn, rfl⟩ := List.getElem?_eq_some_iff.1 hplace
            rw [resetAll_eq_map, resetAll_eq_map, List.map_set, hreset, ← List.map_set,
              List.set_getElem_self]
  | @conditional condition onTrue onFalse hcondition htrue hfalse ihtrue ihfalse =>
      have hasked : (condition.holds c).2 = condition := hcondition c
      rw [next]
      rcases hheld : condition.holds c with ⟨_ | _ | _, asked⟩ <;> rw [hheld] at hasked <;>
        cases hasked
      · exact ⟨.conditional hcondition htrue hfalse, rfl⟩
      · obtain ⟨hforgets, hreset⟩ := ihfalse c g
        exact ⟨.conditional hcondition htrue hforgets, congrArg (conditional _ _) hreset⟩
      · obtain ⟨hforgets, hreset⟩ := ihtrue c g
        exact ⟨.conditional hcondition hforgets hfalse, congrArg (conditional _ · _) hreset⟩
  | @trigger condition before after triggered hcondition hbefore hafter ihbefore ihafter =>
      obtain ⟨hlater, hreset⟩ := ihafter c g
      cases triggered with
      | true =>
          exact ⟨.trigger true hcondition hbefore hlater, congrArg (trigger _ _ · false) hreset⟩
      | false =>
          have hasked : (condition.holds c).2 = condition := hcondition c
          rw [next]
          rcases hheld : condition.holds c with ⟨_ | _ | _, asked⟩ <;> rw [hheld] at hasked <;>
            cases hasked
          · exact ⟨.trigger false hcondition hbefore hafter, rfl⟩
          · obtain ⟨hlater', hreset'⟩ := ihbefore c g
            exact ⟨.trigger false hcondition hlater' hafter,
              congrArg (trigger _ · _ false) hreset'⟩
          · exact ⟨.trigger true hcondition hbefore hlater, congrArg (trigger _ _ · false) hreset⟩
  | @function name responder h =>
      have hafter : ((function name responder : Strategy μ ω).next c g).after =
          .function name responder := congrArg (function name) (h c)
      rw [hafter]
      exact ⟨.function name h, rfl⟩

/-- Neither does a series of calls. -/
theorem reset_asked (h : s.Forgets) (calls : List (Call ω)) :
    (s.asked calls).Forgets ∧ (s.asked calls).reset = s.reset := by
  induction calls generalizing s with
  | nil => exact ⟨h, rfl⟩
  | cons call calls ih =>
      obtain ⟨hforgets, hreset⟩ := reset_next h call.context call.generator
      obtain ⟨hforgets', hreset'⟩ := ih hforgets
      exact ⟨hforgets', hreset'.trans hreset⟩

theorem reset_inTurn {candidates : List (Candidate μ ω)} (hs : inTurn candidates = .ok s)
    (h : ∀ x ∈ candidates, ∀ part, x.asStrategy = .ok part → part.Forgets ∧ part.reset = part) :
    s.Forgets ∧ s.reset = s := by
  obtain ⟨-, parts, hparts, rfl⟩ := inTurn_eq_ok_iff.1 hs
  have hall : ∀ part ∈ parts, part.Forgets ∧ part.reset = part := by
    intro part hpart
    obtain ⟨x, hx, heq⟩ := exists_of_mem_right (mapM_eq_ok_iff.1 hparts) hpart
    exact h x hx part heq
  refine ⟨.periodic 0 fun part hpart => (hall part hpart).1, ?_⟩
  rw [reset, resetAll_eq_map, List.map_congr_left fun part hpart => (hall part hpart).2,
    List.map_id']

/-- A strategy as it is built forgets, and a reset leaves it as it is. -/
theorem reset_of_built (h : s.Built) : s.Forgets ∧ s.reset = s := by
  induction h with
  | pure move => exact ⟨.pure move, rfl⟩
  | mixed distribution => exact ⟨.mixed distribution, rfl⟩
  | random => exact ⟨.random, rfl⟩
  | function name h => exact ⟨.function name h, rfl⟩
  | movesInTurn hs =>
      obtain ⟨moves, -, hs⟩ := Run.except_bind_eq_ok.1 hs
      refine reset_inTurn hs fun x hx part hpart => ?_
      obtain ⟨move, -, rfl⟩ := List.mem_map.1 hx
      cases hpart
      exact ⟨.pure move, rfl⟩
  | inTurn hs _ ih => exact reset_inTurn hs ih
  | onCondition hs hcondition _ _ ihx ihy =>
      obtain ⟨a, b, ha, hb, rfl⟩ := onCondition_eq_ok_iff.1 hs
      obtain ⟨hforgets, hreset⟩ := ihx a ha
      obtain ⟨hforgets', hreset'⟩ := ihy b hb
      refine ⟨.conditional hcondition hforgets hforgets', ?_⟩
      rw [reset, hreset, hreset']
  | onTrigger hs hcondition _ _ ihx ihy =>
      obtain ⟨a, b, ha, hb, rfl⟩ := onTrigger_eq_ok_iff.1 hs
      obtain ⟨hforgets, hreset⟩ := ihx a ha
      obtain ⟨hforgets', hreset'⟩ := ihy b hb
      refine ⟨.trigger false hcondition hforgets hforgets', ?_⟩
      rw [reset, hreset, hreset']

/-- A function that declines. -/
def declining : Responder Unit :=
  ⟨fun c _ => (.error (.noMove c.player (.text "declined") c.state), ()), ()⟩

/-- The condition that the state shown is true. -/
def alarm : Responder Unit :=
  ⟨fun c _ => (.ok c.state, ()), ()⟩

/-- A move and a function that declines in turn, and another move from an alarm on. -/
def wary : Strategy Unit Rat :=
  .trigger alarm (.periodic [.pure (.int 1), .function "decline" declining] 0) (.pure (.int 2))
    false

/-- Calls of which the second one is declined, and the last one raises the alarm. -/
def alarmed : List (Call Rat) :=
  [false, false, true].map fun raised =>
    ⟨⟨.int 0, .list [.int 1, .int 2], 2, .bool raised, ⟨[]⟩⟩, .ofNumbers []⟩

end Strategy

end ExtensiveForm
