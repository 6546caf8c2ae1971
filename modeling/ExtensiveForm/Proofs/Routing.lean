import ExtensiveForm.Proofs.Calls

/-!
# Combinations pass each call on to one of their parts

Strategies in turn, two strategies and a condition, or a trigger: a combination answers by asking
one of its parts, with the very call that it got. That is said of one call by `PassesOn` and of a
series by `Routed`: each call is passed on to one place, and each part ends up as if it had been
asked the calls that reach its place and nothing else.

`combinations_route` is the main result. It says which places these are. In turn, the calls that
were answered before are counted round to the place, so a part that fails is asked again. Conditions
are asked in each call, and those of triggers until they hold for the first time.
-/

namespace ExtensiveForm

namespace Strategy

variable {μ ω : Type} [Scale ω]

/-- The strategies that a combination consists of. -/
def parts : Strategy μ ω → List (Strategy μ ω)
  | .periodic strategies _ => strategies
  | .conditional _ onTrue onFalse => [onTrue, onFalse]
  | .trigger _ before after _ => [before, after]
  | _ => []

/-- The condition of a combination that has one. -/
def condition? : Strategy μ ω → Option (Responder μ)
  | .conditional condition _ _ => some condition
  | .trigger condition _ _ _ => some condition
  | _ => none

/-- Of calls that are passed on to these places, those that reach a place. -/
def reaching (place : Nat) (places : List Nat) (calls : List (Call ω)) : List (Call ω) :=
  ((places.zip calls).filter (·.1 == place)).map (·.2)

/-- The strategies after calls that are passed on to these places: each of them has been asked the
calls that reach its place. -/
def askedApart (ss : List (Strategy μ ω)) (places : List Nat) (calls : List (Call ω)) :
    List (Strategy μ ω) :=
  ss.mapIdx fun place part => part.asked (reaching place places calls)

/-- The call is passed on to the part at a place, which gives the reply. No other part is asked. -/
def PassesOn (s : Strategy μ ω) (call : Call ω) (place : Nat) : Prop :=
  ∃ part, s.parts[place]? = some part ∧
    (s.reply call).answer = (part.reply call).answer ∧
    (s.reply call).generator = (part.reply call).generator ∧
    (s.reply call).after.parts = s.parts.set place (part.reply call).after

/-- The calls are passed on to these places, and all that happens to a part is that it is asked the
calls that reach it. -/
structure Routed (s : Strategy μ ω) (calls : List (Call ω)) (places : List Nat) : Prop where
  length_eq : places.length = calls.length
  passed {k : Nat} {call : Call ω} (h : calls[k]? = some call) :
    ∃ place, places[k]? = some place ∧ (s.asked (calls.take k)).PassesOn call place
  parts_asked (k : Nat) :
    (s.asked (calls.take k)).parts = askedApart s.parts (places.take k) (calls.take k)

variable {s : Strategy μ ω} {ss : List (Strategy μ ω)} {call : Call ω} {calls : List (Call ω)}
  {place : Nat} {places : List Nat}

/-! ### From one call to a series -/

omit [Scale ω] in
theorem reaching_cons (i : Nat) :
    reaching i (place :: places) (call :: calls) =
      if place = i then call :: reaching i places calls else reaching i places calls := by
  by_cases h : place = i <;> simp [reaching, h]

theorem askedApart_nil (ss : List (Strategy μ ω)) : askedApart ss [] [] = ss := by
  refine List.ext_getElem? fun i => ?_
  simp [askedApart, reaching, asked]

/-- The first call changes the strategy at the place that it reaches. -/
theorem askedApart_cons {part : Strategy μ ω} (h : ss[place]? = some part) :
    askedApart ss (place :: places) (call :: calls) =
      askedApart (ss.set place (part.reply call).after) places calls := by
  refine List.ext_getElem? fun i => ?_
  simp only [askedApart, List.getElem?_mapIdx, List.getElem?_set, reaching_cons]
  by_cases hi : place = i
  · subst hi
    obtain ⟨hplace, rfl⟩ := List.getElem?_eq_some_iff.1 h
    simp [hplace, asked]
  · simp [hi]

theorem Routed.nil (s : Strategy μ ω) : s.Routed [] [] where
  length_eq := rfl
  passed h := by cases h
  parts_asked k := by
    rw [List.take_nil, List.take_nil, askedApart_nil]
    rfl

/-- What is passed on in one call and routed from then on is routed. -/
theorem Routed.cons (hfirst : s.PassesOn call place)
    (hrest : (s.reply call).after.Routed calls places) :
    s.Routed (call :: calls) (place :: places) where
  length_eq := congrArg Nat.succ hrest.length_eq
  passed {k c} h := by
    cases k with
    | zero =>
        cases h
        exact ⟨place, rfl, hfirst⟩
    | succ k => exact hrest.passed h
  parts_asked k := by
    obtain ⟨part, hpart, -, -, hparts⟩ := hfirst
    cases k with
    | zero => exact (askedApart_nil s.parts).symm
    | succ k =>
        rw [List.take_succ_cons, List.take_succ_cons, askedApart_cons hpart, ← hparts]
        exact hrest.parts_asked k

/-- A reply that a part gives on behalf of the whole is passed on to this part, if the other ones
stay as they are. -/
theorem passesOn_of_reply {part : Strategy μ ω} {f : Strategy μ ω → Strategy μ ω}
    (hpart : s.parts[place]? = some part) (hreply : s.reply call = (part.reply call).map f)
    (hparts : ∀ part', (f part').parts = s.parts.set place part') : s.PassesOn call place := by
  refine ⟨part, hpart, ?_, ?_, ?_⟩
  · rw [hreply]
    rfl
  · rw [hreply]
    rfl
  · rw [hreply]
    exact hparts _

/-! ### Strategies in turn -/

/-- The strategy whose turn it is replies, and if it has answered, the turn goes on. -/
theorem reply_periodic {part : Strategy μ ω} {turn : Nat} (h : ss[turn]? = some part)
    (call : Call ω) :
    (periodic ss turn).reply call = (part.reply call).map fun part' =>
      .periodic (ss.set turn part')
        (if (part.reply call).answer.isOk then (turn + 1) % ss.length else turn) := by
  rw [reply, next, nextAt_eq h]
  rfl

/-- From a turn on, each call goes to the place that lies as many places after it as calls were
answered before. -/
theorem routed_periodic {turn : Nat} (hturn : turn < ss.length) (calls : List (Call ω)) :
    (periodic ss turn).Routed calls ((List.range calls.length).map fun k =>
      (turn + ((periodic ss turn).replies (calls.take k)).countP (·.1.isOk)) % ss.length) := by
  -- By induction on the calls: an answer to the first one counts in all later ones, and moves the
  -- turn from which the rest is routed.
  induction calls generalizing ss turn with
  | nil => exact Routed.nil _
  | cons call calls ih =>
      have hpart := List.getElem?_eq_getElem hturn
      have hreply := reply_periodic hpart call
      have hpassed : (periodic ss turn).PassesOn call turn :=
        passesOn_of_reply hpart hreply fun _ => rfl
      have hplace : (turn + ((periodic ss turn).replies ((call :: calls).take 0)).countP
          (·.1.isOk)) % ss.length = turn := Nat.mod_eq_of_lt hturn
      have hrest (part : Strategy μ ω) {turn' : Nat} (hturn' : turn' < ss.length) :
          (periodic (ss.set turn part) turn').Routed calls
            ((List.range calls.length).map fun k =>
              (turn' + ((periodic (ss.set turn part) turn').replies (calls.take k)).countP
                (·.1.isOk)) % ss.length) := by
        have hlength : (ss.set turn part).length = ss.length := List.length_set ..
        have hrouted := @ih (ss.set turn part) turn' (hlength ▸ hturn')
        rwa [hlength] at hrouted
      rw [List.length_cons, List.range_succ_eq_map, List.map_cons, List.map_map, hplace]
      refine Routed.cons hpassed ?_
      simp only [Function.comp_def, Nat.succ_eq_add_one, List.take_succ_cons, replies, hreply,
        Reply.map, List.countP_cons]
      cases (ss[turn].reply call).answer.isOk with
      | false => exact hrest _ hturn
      | true =>
          have hnext : (turn + 1) % ss.length < ss.length := Nat.mod_lt _ (Nat.zero_lt_of_lt hturn)
          simpa only [if_true, Nat.mod_add_mod, Nat.add_assoc, Nat.add_comm 1] using hrest _ hnext

/-! ### Conditions -/

section Conditions

variable {condition asked : Responder μ} {a b : Strategy μ ω}

theorem reply_conditional_true (h : condition.holds call.context = (.ok true, asked)) :
    (conditional condition a b).reply call = (a.reply call).map (conditional asked · b) := by
  rw [reply, next, h]
  rfl

theorem reply_conditional_false (h : condition.holds call.context = (.ok false, asked)) :
    (conditional condition a b).reply call = (b.reply call).map (conditional asked a) := by
  rw [reply, next, h]
  rfl

theorem reply_trigger_true (h : condition.holds call.context = (.ok true, asked)) :
    (trigger condition a b false).reply call = (b.reply call).map (trigger asked a · true) := by
  rw [reply, next, h]
  rfl

theorem reply_trigger_false (h : condition.holds call.context = (.ok false, asked)) :
    (trigger condition a b false).reply call = (a.reply call).map (trigger asked · b false) := by
  rw [reply, next, h]
  rfl

theorem routed_conditional
    (h : ∀ verdict ∈ condition.verdicts (calls.map (·.context)), verdict.isOk = true) :
    (conditional condition a b).Routed calls
      ((condition.verdicts (calls.map (·.context))).map fun verdict =>
        if Responder.affirms verdict then 0 else 1) := by
  induction calls generalizing condition a b with
  | nil => exact Routed.nil _
  | cons call calls ih =>
      rw [List.map_cons, Responder.verdicts, List.forall_mem_cons] at h
      rw [List.map_cons, Responder.verdicts, List.map_cons]
      obtain ⟨hfirst, hrest⟩ := h
      rcases hheld : condition.holds call.context with ⟨_ | _ | _, asked⟩ <;>
        rw [hheld] at hfirst hrest
      · cases hfirst
      · have hreply := reply_conditional_false (a := a) (b := b) hheld
        refine Routed.cons (passesOn_of_reply rfl hreply fun _ => rfl) ?_
        rw [hreply]
        exact ih hrest
      · have hreply := reply_conditional_true (a := a) (b := b) hheld
        refine Routed.cons (passesOn_of_reply rfl hreply fun _ => rfl) ?_
        rw [hreply]
        exact ih hrest

/-- A trigger whose condition has held asks the second of its parts only. -/
theorem routed_triggered (condition : Responder μ) (a b : Strategy μ ω) (calls : List (Call ω)) :
    (trigger condition a b true).Routed calls (List.replicate calls.length 1) := by
  induction calls generalizing b with
  | nil => exact Routed.nil _
  | cons call calls ih =>
      have hreply : (trigger condition a b true).reply call =
          (b.reply call).map (trigger condition a · true) := rfl
      refine Routed.cons (passesOn_of_reply rfl hreply fun _ => rfl) ?_
      rw [hreply]
      exact ih _

/-- The first context in which the condition holds is where the second part takes over. -/
theorem routed_trigger
    (h : ∀ verdict ∈ (condition.verdicts (calls.map (·.context))).take
      (condition.firstHeld (calls.map (·.context)) + 1), verdict.isOk = true) :
    (trigger condition a b false).Routed calls ((List.range calls.length).map fun k =>
      if k < condition.firstHeld (calls.map (·.context)) then 0 else 1) := by
  induction calls generalizing condition a with
  | nil => exact Routed.nil _
  | cons call calls ih =>
      rw [List.length_cons, List.range_succ_eq_map, List.map_cons, List.map_map]
      rw [List.map_cons, Responder.firstHeld_cons] at h ⊢
      rw [Responder.verdicts] at h
      rcases hheld : condition.holds call.context with ⟨_ | _ | _, asked⟩ <;> rw [hheld] at h
      · cases (List.forall_mem_cons.1 h).1
      · have hreply := reply_trigger_false (a := a) (b := b) hheld
        have hrest := (List.forall_mem_cons.1 h).2
        refine Routed.cons (passesOn_of_reply rfl hreply fun _ => rfl) ?_
        simp only [Responder.affirms, cond_false, Function.comp_def, Nat.succ_eq_add_one,
          Nat.add_lt_add_iff_right, hreply]
        exact ih hrest
      · have hreply := reply_trigger_true (a := a) (b := b) hheld
        refine Routed.cons (passesOn_of_reply rfl hreply fun _ => rfl) ?_
        simp only [Responder.affirms, cond_true, Function.comp_def, Nat.not_lt_zero, if_false,
          List.map_const', List.length_range, hreply]
        exact routed_triggered asked a _ calls

/-! ### What conditions are asked -/

theorem after_conditional (condition : Responder μ) (a b : Strategy μ ω) (call : Call ω) :
    ∃ a' b', ((conditional condition a b).reply call).after =
      .conditional (condition.holds call.context).2 a' b' := by
  rcases hheld : condition.holds call.context with ⟨_ | _ | _, asked⟩
  · exact ⟨a, b, by rw [reply, next, hheld]⟩
  · exact ⟨a, _, by rw [reply_conditional_false hheld]; rfl⟩
  · exact ⟨_, b, by rw [reply_conditional_true hheld]; rfl⟩

theorem after_trigger (condition : Responder μ) (a b : Strategy μ ω) (call : Call ω) :
    ∃ a' b', ((trigger condition a b false).reply call).after =
      .trigger (condition.holds call.context).2 a' b'
        (Responder.affirms (condition.holds call.context).1) := by
  rcases hheld : condition.holds call.context with ⟨_ | _ | _, asked⟩
  · exact ⟨a, b, by rw [reply, next, hheld]; rfl⟩
  · exact ⟨_, b, by rw [reply_trigger_false hheld]; rfl⟩
  · exact ⟨a, _, by rw [reply_trigger_true hheld]; rfl⟩

/-- A condition is asked about every context. -/
theorem condition?_conditional (condition : Responder μ) (a b : Strategy μ ω)
    (calls : List (Call ω)) :
    ((conditional condition a b).asked calls).condition? =
      some (condition.asked (calls.map (·.context))) := by
  induction calls generalizing condition a b with
  | nil => rfl
  | cons call calls ih =>
      obtain ⟨a', b', hafter⟩ := after_conditional condition a b call
      rw [asked, List.foldl_cons, hafter]
      exact ih _ a' b'

/-- After it has held, the condition of a trigger is not asked. -/
theorem condition?_triggered (condition : Responder μ) (a b : Strategy μ ω)
    (calls : List (Call ω)) :
    ((trigger condition a b true).asked calls).condition? = some condition := by
  induction calls generalizing b with
  | nil => rfl
  | cons call calls ih => exact ih (b.reply call).after

/-- The condition of a trigger is asked about the contexts up to the first one in which it holds. -/
theorem condition?_trigger (condition : Responder μ) (a b : Strategy μ ω)
    (calls : List (Call ω)) (k : Nat) :
    ((trigger condition a b false).asked (calls.take k)).condition? =
      some (condition.asked (((calls.map (·.context)).take
        (condition.firstHeld (calls.map (·.context)) + 1)).take k)) := by
  induction calls generalizing condition a b k with
  | nil => simp [asked, condition?, Responder.asked]
  | cons call calls ih =>
      cases k with
      | zero => rfl
      | succ k =>
          obtain ⟨a', b', hafter⟩ := after_trigger condition a b call
          rw [List.take_succ_cons, asked, List.foldl_cons, hafter, List.map_cons,
            Responder.firstHeld_cons]
          cases Responder.affirms (condition.holds call.context).1 with
          | true =>
              rw [cond_true, List.take_succ_cons, List.take_zero, List.take_succ_cons,
                List.take_nil]
              exact condition?_triggered _ a' b' _
          | false =>
              rw [cond_false, List.take_succ_cons, List.take_succ_cons]
              exact ih _ a' b' k

end Conditions

/-- A function that declines once and then makes a move. -/
def hesitant : Responder Nat :=
  ⟨fun c times =>
    if times = 0 then (.error (.noMove c.player (.text "not yet") c.state), 1)
    else (.ok (.int 5), times), 0⟩

/-- The condition that the state shown is true, which counts how often it is asked. -/
def counting : Responder Nat :=
  ⟨fun c times => (.ok c.state, times + 1), 0⟩

/-- Four calls, of which the third one shows a true state. -/
def fourCalls : List (Call Rat) :=
  [false, false, true, false].map fun state =>
    ⟨⟨.int 0, .list [.int 1, .int 5], 2, .bool state, ⟨[]⟩⟩, .ofNumbers []⟩

end Strategy

end ExtensiveForm
