import ExtensiveForm.Record.History

/-!
# Adding payoffs

The score of a history is the sum of its payoffs, utility by utility. A sum pays as many players as
its parts do. Numbers can be added unless a whole number is too large for the double that it is
added to, so `score_ok_or_overflow` leaves no other fault for payoffs of numbers.

Whole numbers can always be added, and it makes no difference which of them are added first. So the
score of a history of whole payoffs is their `Payoff.total`, and the total of several lists of
payoffs is that of the totals of these lists (`total_flatten`).
-/

namespace ExtensiveForm

/-- A computation gives what has a property, or a whole number was too large for a double. -/
def OkOrOverflow {α : Type} (P : α → Prop) (x : Except Fault α) : Prop :=
  (∃ a, x = .ok a ∧ P a) ∨ x = .error .overflow

theorem OkOrOverflow.bind {α β : Type} {P : α → Prop} {Q : β → Prop} {x : Except Fault α}
    {f : α → Except Fault β} (h : OkOrOverflow P x) (hf : ∀ a, P a → OkOrOverflow Q (f a)) :
    OkOrOverflow Q (x >>= f) := by
  rcases h with ⟨a, rfl, ha⟩ | rfl
  · exact hf a ha
  · exact .inr rfl

namespace Value

/-- The value is a number, be it one that was computed and is none. -/
def IsNumber (v : Value) : Prop :=
  v.number?.isSome = true

theorem toDouble_ok_or_overflow (n : Int) : OkOrOverflow (fun _ => True) (toDouble n) := by
  unfold toDouble
  by_cases hlarge : (Float.ofInt n).isInf
  · exact .inr (if_pos hlarge)
  · exact .inl ⟨_, if_neg hlarge, trivial⟩

/-- Numbers can be added unless one of them is too large. -/
theorem add_ok_or_overflow {a b : Value} (ha : a.IsNumber) (hb : b.IsNumber) :
    OkOrOverflow IsNumber (a.add b) := by
  have hrounded (n : Int) (f : Float → Float) :
      OkOrOverflow IsNumber (do return .double (f (← toDouble n))) :=
    (toDouble_ok_or_overflow n).bind fun x _ => .inl ⟨_, rfl, rfl⟩
  cases a <;> cases ha <;> cases b <;> cases hb <;>
    first
    | exact .inl ⟨_, rfl, rfl⟩
    | exact hrounded _ _

/-- So can as many numbers as there are others. -/
theorem addAll_ok_or_overflow {as bs : List Value} (ha : ∀ a ∈ as, a.IsNumber)
    (hb : ∀ b ∈ bs, b.IsNumber) :
    OkOrOverflow (fun cs => ∀ c ∈ cs, IsNumber c) (addAll as bs) := by
  induction as generalizing bs with
  | nil => exact .inl ⟨[], rfl, fun c hc => nomatch hc⟩
  | cons a as ih =>
      cases bs with
      | nil => exact .inl ⟨[], rfl, fun c hc => nomatch hc⟩
      | cons b bs =>
          rw [List.forall_mem_cons] at ha hb
          refine (add_ok_or_overflow ha.1 hb.1).bind fun c hc => ?_
          refine (ih ha.2 hb.2).bind fun cs hcs => .inl ⟨c :: cs, rfl, ?_⟩
          exact List.forall_mem_cons.2 ⟨hc, hcs⟩

end Value

namespace Payoff

/-- Every utility of the payoff is a number. -/
def IsNumeric (p : Payoff) : Prop :=
  ∀ u ∈ p.values, u.IsNumber

/-- The sum of payoffs has one utility for each player, too. -/
theorem length_addAll {as bs cs : List Value} (hsize : as.length = bs.length)
    (h : Value.addAll as bs = .ok cs) : cs.length = as.length := by
  induction as generalizing bs cs with
  | nil =>
      cases h
      rfl
  | cons a as ih =>
      cases bs with
      | nil => cases hsize
      | cons b bs =>
          rw [Value.addAll] at h
          cases hsum : a.add b with
          | error f =>
              rw [hsum] at h
              cases h
          | ok c =>
              cases hrest : Value.addAll as bs with
              | error f =>
                  rw [hsum, hrest] at h
                  cases h
              | ok rest =>
                  rw [hsum, hrest] at h
                  cases h
                  simp [ih (Nat.succ.inj hsize) hrest]

theorem add_eq {p q : Payoff} (hsize : p.values.length = q.values.length) :
    p.add (.payoff q) = do return ⟨← Value.addAll p.values q.values⟩ := by
  obtain ⟨values⟩ := p
  simp only [Payoff.add, Value.items]
  exact if_pos hsize

theorem add_ok_or_overflow {p q : Payoff} (hsize : p.values.length = q.values.length)
    (hp : p.IsNumeric) (hq : q.IsNumeric) :
    OkOrOverflow (fun total => IsNumeric total ∧ total.values.length = p.values.length)
      (p.add (.payoff q)) := by
  rw [add_eq hsize]
  rcases Value.addAll_ok_or_overflow hp hq with ⟨values, hvalues, hnumeric⟩ | hoverflow
  · rw [hvalues]
    exact .inl ⟨_, rfl, hnumeric, length_addAll hsize hvalues⟩
  · rw [hoverflow]
    exact .inr rfl

theorem length_add {p q total : Payoff} (h : p.add (.payoff q) = .ok total) :
    total.values.length = p.values.length := by
  obtain ⟨values⟩ := p
  simp only [Payoff.add, Value.items, bind, Except.bind] at h
  split at h
  · rename_i hsize
    split at h
    · cases h
    · rename_i hsum
      cases h
      exact length_addAll hsize hsum
  · cases h

theorem length_foldlM {sum total : Payoff} {outcomes : List Outcome}
    (h : outcomes.foldlM (fun total o => total.add (.payoff o.payoff)) sum = .ok total) :
    total.values.length = sum.values.length := by
  induction outcomes generalizing sum with
  | nil =>
      cases h
      rfl
  | cons o outcomes ih =>
      rw [List.foldlM_cons] at h
      cases hsum : sum.add (.payoff o.payoff) with
      | error f =>
          rw [hsum] at h
          cases h
      | ok sum' =>
          rw [hsum] at h
          rw [ih h, length_add hsum]

theorem foldlM_ok_or_overflow {sum : Payoff} {outcomes : List Outcome} {numPlayers : Int}
    (hsum : (sum.values.length : Int) = numPlayers ∧ sum.IsNumeric)
    (hall : ∀ o ∈ outcomes, (o.payoff.values.length : Int) = numPlayers ∧ o.payoff.IsNumeric) :
    OkOrOverflow (fun _ => True)
      (outcomes.foldlM (fun total o => total.add (.payoff o.payoff)) sum) := by
  -- The sum so far stays numeric and as long as each payoff, which is all that the next one needs.
  induction outcomes generalizing sum with
  | nil => exact .inl ⟨_, rfl, trivial⟩
  | cons o outcomes ih =>
      rw [List.forall_mem_cons] at hall
      rw [List.foldlM_cons]
      refine (add_ok_or_overflow (by omega) hsum.2 hall.1.2).bind fun sum' hsum' => ?_
      exact ih ⟨by omega, hsum'.1⟩ hall.2

end Payoff

namespace History

variable {h : History} {o : Outcome} {numPlayers : Int}

/-- Every round so far paid each player. -/
def Sized (h : History) (numPlayers : Int) : Prop :=
  ∀ o ∈ h.latestFirst, (o.payoff.values.length : Int) = numPlayers

theorem sized_empty : empty.Sized numPlayers := by
  intro o ho
  cases ho

theorem Sized.add (hsized : h.Sized numPlayers)
    (ho : (o.payoff.values.length : Int) = numPlayers) : (h.add o).Sized numPlayers := by
  intro o' ho'
  rcases List.mem_cons.1 ho' with rfl | ho'
  · exact ho
  · exact hsized o' ho'

@[simp] theorem length_add : (h.add o).length = h.length + 1 := rfl

/-- The score pays each player, too. -/
theorem length_score {total : Payoff} (hsized : (h.add o).Sized numPlayers)
    (hscore : (h.add o).score = .ok total) : (total.values.length : Int) = numPlayers := by
  unfold score at hscore
  cases houtcomes : (h.add o).outcomes with
  | nil => simp [outcomes, add] at houtcomes
  | cons first rest =>
      have hfirst : first ∈ (h.add o).outcomes := by
        rw [houtcomes]
        exact List.mem_cons_self
      rw [houtcomes] at hscore
      rw [Payoff.length_foldlM hscore]
      exact hsized first (List.mem_reverse.1 hfirst)

/-- The payoffs of numbers that the rounds gave to each player can be added unless one of the
numbers is too large. -/
theorem score_ok_or_overflow (hsized : h.Sized numPlayers)
    (hnumeric : ∀ o ∈ h.latestFirst, o.payoff.IsNumeric) :
    OkOrOverflow (fun _ => True) h.score := by
  have hall : ∀ o ∈ h.outcomes, (o.payoff.values.length : Int) = numPlayers ∧
      o.payoff.IsNumeric := fun o ho =>
    ⟨hsized o (List.mem_reverse.1 ho), hnumeric o (List.mem_reverse.1 ho)⟩
  unfold score
  cases houtcomes : h.outcomes with
  | nil => exact .inl ⟨_, rfl, trivial⟩
  | cons first rest =>
      rw [houtcomes, List.forall_mem_cons] at hall
      exact Payoff.foldlM_ok_or_overflow hall.1 hall.2

end History

/-! ### Whole numbers -/

namespace Value

/-- The sum of two whole numbers. -/
def plus (v w : Value) : Value :=
  .int (v.whole?.getD 0 + w.whole?.getD 0)

/-- The value is a whole number. -/
def IsWhole (v : Value) : Prop :=
  v.whole?.isSome = true

theorem plus_assoc (u v w : Value) : (u.plus v).plus w = u.plus (v.plus w) :=
  congrArg Value.int (Int.add_assoc _ _ _)

theorem add_whole {v w : Value} (hv : v.IsWhole) (hw : w.IsWhole) : v.add w = .ok (v.plus w) := by
  cases v <;> cases hv <;> cases w <;> cases hw <;> rfl

theorem addAll_whole {vs ws : List Value} (hvs : ∀ v ∈ vs, v.IsWhole) (hws : ∀ w ∈ ws, w.IsWhole) :
    addAll vs ws = .ok (List.zipWith plus vs ws) := by
  induction vs generalizing ws with
  | nil => rfl
  | cons v vs ih =>
      cases ws with
      | nil => rfl
      | cons w ws =>
          rw [List.forall_mem_cons] at hvs hws
          rw [addAll, add_whole hvs.1 hws.1, ih hvs.2 hws.2]
          rfl

end Value

namespace Payoff

/-- Every utility of the payoff is a whole number. -/
def IsWhole (p : Payoff) : Prop :=
  ∀ u ∈ p.values, u.IsWhole

/-- The sum of two payoffs of whole numbers. -/
def plus (p q : Payoff) : Payoff :=
  ⟨List.zipWith Value.plus p.values q.values⟩

theorem plus_assoc (p q r : Payoff) : (p.plus q).plus r = p.plus (q.plus r) := by
  obtain ⟨us⟩ := p
  obtain ⟨vs⟩ := q
  obtain ⟨ws⟩ := r
  refine congrArg Payoff.mk ?_
  show List.zipWith Value.plus (List.zipWith Value.plus us vs) ws =
    List.zipWith Value.plus us (List.zipWith Value.plus vs ws)
  induction us generalizing vs ws with
  | nil => rfl
  | cons u us ih =>
      cases vs with
      | nil => rfl
      | cons v vs =>
          cases ws with
          | nil => rfl
          | cons w ws =>
              simp only [List.zipWith_cons_cons, ih, Value.plus_assoc]

instance : Std.Associative plus :=
  ⟨plus_assoc⟩

theorem isWhole_plus (p q : Payoff) : (p.plus q).IsWhole := by
  intro u hu
  obtain ⟨n, hn, rfl⟩ := List.getElem_of_mem hu
  simp only [plus, List.getElem_zipWith]
  rfl

theorem length_plus {p q : Payoff} (hsize : p.values.length = q.values.length) :
    (p.plus q).values.length = p.values.length := by
  rw [plus, List.length_zipWith, ← hsize, Nat.min_self]

theorem add_whole {p q : Payoff} (hsize : p.values.length = q.values.length) (hp : p.IsWhole)
    (hq : q.IsWhole) : p.add (.payoff q) = .ok (p.plus q) := by
  rw [add_eq hsize, Value.addAll_whole hp hq]
  rfl

/-- The sum of some payoffs of whole numbers. -/
def total : List Payoff → Payoff
  | [] => ⟨[]⟩
  | p :: ps => ps.foldl plus p

theorem total_append {ps qs : List Payoff} (hps : ps ≠ []) (hqs : qs ≠ []) :
    total (ps ++ qs) = (total ps).plus (total qs) := by
  cases ps with
  | nil => exact absurd rfl hps
  | cons p ps =>
      cases qs with
      | nil => exact absurd rfl hqs
      | cons q qs =>
          show (ps ++ q :: qs).foldl plus p = (ps.foldl plus p).plus (qs.foldl plus q)
          rw [List.foldl_append, List.foldl_cons, List.foldl_assoc]

/-- Payoffs may be added list by list. -/
theorem total_flatten {pss : List (List Payoff)} (h : ∀ ps ∈ pss, ps ≠ []) :
    total pss.flatten = total (pss.map total) := by
  induction pss with
  | nil => rfl
  | cons ps pss ih =>
      rw [List.forall_mem_cons] at h
      cases pss with
      | nil => rw [List.flatten_cons, List.flatten_nil, List.append_nil]; rfl
      | cons qs pss =>
          have hrest : (qs :: pss).flatten ≠ [] := fun heq =>
            h.2 qs List.mem_cons_self (List.append_eq_nil_iff.1 heq).1
          rw [List.flatten_cons, total_append h.1 hrest, ih h.2]
          exact (total_append (List.cons_ne_nil (total ps) []) (List.cons_ne_nil _ _)).symm

end Payoff

/-- The payoff is a whole number for each player. -/
structure Payoff.PaysWhole (p : Payoff) (numPlayers : Int) : Prop where
  sized : (p.values.length : Int) = numPlayers
  whole : p.IsWhole

theorem Payoff.PaysWhole.plus {p q : Payoff} {numPlayers : Int} (hp : p.PaysWhole numPlayers)
    (hq : q.PaysWhole numPlayers) : (p.plus q).PaysWhole numPlayers where
  sized := by
    rw [length_plus (Int.ofNat.inj (hp.sized.trans hq.sized.symm))]
    exact hp.sized
  whole := isWhole_plus p q

/-- So are sums of such payoffs. -/
theorem Payoff.PaysWhole.total {ps : List Payoff} {numPlayers : Int} (hne : ps ≠ [])
    (h : ∀ p ∈ ps, p.PaysWhole numPlayers) : (total ps).PaysWhole numPlayers := by
  cases ps with
  | nil => exact absurd rfl hne
  | cons p ps =>
      rw [List.forall_mem_cons] at h
      obtain ⟨hp, hps⟩ := h
      show (ps.foldl Payoff.plus p).PaysWhole numPlayers
      induction ps generalizing p with
      | nil => exact hp
      | cons q ps ih =>
          rw [List.forall_mem_cons] at hps
          exact ih _ (List.cons_ne_nil _ _) (hp.plus hps.1) hps.2

namespace History

variable {numPlayers : Int}

/-- The score of rounds that all pay whole numbers is the sum of their payoffs. -/
theorem score_whole (h : History) (hwhole : ∀ o ∈ h.outcomes, o.payoff.PaysWhole numPlayers) :
    h.score = .ok (Payoff.total (h.outcomes.map (·.payoff))) := by
  unfold score
  cases houtcomes : h.outcomes with
  | nil => rfl
  | cons first rest =>
      rw [houtcomes, List.forall_mem_cons] at hwhole
      obtain ⟨hfirst, hrest⟩ := hwhole
      clear houtcomes
      -- The sum so far pays whole numbers, which is all that the next payoff needs.
      show rest.foldlM (fun total o => total.add (.payoff o.payoff)) first.payoff =
        .ok ((rest.map (·.payoff)).foldl Payoff.plus first.payoff)
      generalize first.payoff = sum at hfirst
      induction rest generalizing sum with
      | nil => rfl
      | cons o rest ih =>
          rw [List.forall_mem_cons] at hrest
          have hsize : sum.values.length = o.payoff.values.length :=
            Int.ofNat.inj (hfirst.sized.trans hrest.1.sized.symm)
          rw [List.foldlM_cons, Payoff.add_whole hsize hfirst.whole hrest.1.whole]
          exact ih hrest.2 (sum.plus o.payoff) (hfirst.plus hrest.1)

end History

end ExtensiveForm
