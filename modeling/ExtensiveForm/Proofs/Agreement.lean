import ExtensiveForm.Proofs.Matching
import ExtensiveForm.Proofs.Scale

/-!
# Nodes that are equal

Two nodes are equal when they are of one kind and equal in all that they say: in state, players,
moves or distribution, and at the end of a game in payoff, profile, history and state. `Node.Equal`
says so part by part, and `Node.agree_eq_ok_true_iff` that this is what `Node.agree` finds out.

Equality of nodes is symmetric and transitive. A node equals itself if its state does and if
whatever else it shows matches itself. `Equal.keys` is what trees are compared by: nodes that are
equal offer equally many keys, and these match place by place. For chance this takes a law of the
scale, since only elements with a positive probability are offered.
-/

namespace ExtensiveForm

/-- Lists are equal when their members are, place by place. -/
theorem list_beq_iff {α : Type} [BEq α] {as bs : List α} :
    (as == bs) = true ↔ List.Forall₂ (fun a b => (a == b) = true) as bs := by
  induction as generalizing bs with
  | nil => cases bs <;> simp
  | cons a as ih =>
      cases bs with
      | nil => simp
      | cons b bs => rw [List.cons_beq_cons, Bool.and_eq_true, ih, List.forall₂_cons]

/-- Profiles that may be left out are equal when they match. -/
theorem Profile.option_beq {p? q? : Option Profile} :
    (p? == q?) = (formOr p?).alike (formOr q?) := by
  cases p? with
  | none =>
      cases q? with
      | none => rfl
      | some q =>
          cases q
          rfl
  | some p =>
      cases q? with
      | none =>
          cases p
          rfl
      | some q => exact Value.profile_beq

/-- So are histories. -/
theorem History.option_beq {h? h'? : Option History} :
    (h? == h'?) = (formOr h?).alike (formOr h'?) := by
  cases h? with
  | none =>
      cases h'? with
      | none => rfl
      | some h' =>
          cases h'
          rfl
  | some h =>
      cases h'? with
      | none =>
          cases h
          rfl
      | some h' => exact Value.history_beq

namespace Ending

variable {d e : Ending}

theorem agree_iff : d.agree e = true ↔ d.Match e := by
  constructor
  · exact Match.of_agree
  · intro h
    simp only [agree, Bool.and_eq_true]
    exact ⟨⟨⟨h.payoff, Profile.option_beq.trans h.profile⟩, History.option_beq.trans h.history⟩,
      h.state⟩

theorem Match.symm (h : d.Match e) : e.Match d where
  payoff := Payoff.beq_iff.2 (Payoff.beq_iff.1 h.payoff).symm
  profile := Form.alike_symm h.profile
  history := Form.alike_symm h.history
  state := Value.alike_symm h.state

end Ending

theorem Seat.Match.symm {a b : Seat} (h : a.Match b) : b.Match a :=
  ⟨Value.alike_symm h.1, h.2.symm⟩

namespace Distribution

variable {ω : Type} [Scale ω] {d e : Distribution ω}

/-- Distributions are equal when they have matching elements with equal probabilities. -/
theorem same_iff : d.same e = true ↔
    List.Forall₂ (fun a b => a.1.alike b.1 = true ∧ (a.2 == b.2) = true) d.entries e.entries := by
  rw [same, Bool.and_eq_true, Value.tuple_beq, list_beq_iff, forall₂_and, elements, elements,
    probabilities, probabilities, Value.AllAlike]
  simp only [List.forall₂_map_left_iff, List.forall₂_map_right_iff]

variable [Scale.Comparable ω]

/-- Equal distributions offer elements that match, since the same ones of them are possible. -/
theorem support_alike (h : d.same e = true) : Value.AllAlike d.support e.support := by
  refine List.forall₂_map_left_iff.2 (List.forall₂_map_right_iff.2 ?_)
  refine (List.rel_filter (fun a b hab => ?_) (same_iff.1 h)).imp fun _ _ => And.left
  show decide (0 < a.2) = true ↔ decide (0 < b.2) = true
  rw [decide_eq_true_iff, decide_eq_true_iff]
  exact ⟨Scale.Comparable.pos_of_beq hab.2,
    Scale.Comparable.pos_of_beq (Scale.Comparable.beq_symm hab.2)⟩

end Distribution

/-- Two nodes are of one kind and equal in all that they say. -/
inductive Node.Equal {ω : Type} [Scale ω] : Node ω → Node ω → Prop
  | simultaneous {m n : Simultaneous} (hstate : (m.state == n.state) = true)
      (hseats : List.Forall₂ Seat.Match m.seats n.seats) : Equal (.simultaneous m) (.simultaneous n)
  | sequential {player player' state state' : Value} {moves moves' : List Value}
      (hstate : (state == state') = true) (hplayer : player.alike player' = true)
      (hmoves : Value.AllAlike moves moves') :
      Equal (.sequential player moves state) (.sequential player' moves' state')
  | chance {d e : Distribution ω} {state state' : Value} (hstate : (state == state') = true)
      (h : d.same e = true) : Equal (.chance d state) (.chance e state')
  | terminal {d e : Ending} (h : d.Match e) : Equal (.terminal d) (.terminal e)

namespace Node

variable {ω : Type} [Scale ω] {m n k : Node ω} {key key' : Value}

/-- What a node shows besides its state matches itself. No node that is given is left out by this:
what is no number has a mark there and matches itself. Only a `double` that is no number does not,
which is what a computation yields before it is given to anyone. -/
def Settled : Node ω → Prop
  | simultaneous n => ∀ seat ∈ n.seats, seat.Match seat
  | sequential player moves _ => player.alike player = true ∧ Value.AllAlike moves moves
  | chance d _ => d.same d = true
  | terminal e => (e.payoff == e.payoff) = true ∧ (e.profile == e.profile) = true ∧
      (e.history == e.history) = true
  | stray _ => False

theorem seats_of_match {as bs : List Seat} (h : List.Forall₂ Seat.Match as bs) :
    Value.AllAlike (as.map (·.player)) (bs.map (·.player)) ∧
      Value.AllAlike ((as.map (·.moves)).map .tuple) ((bs.map (·.moves)).map .tuple) := by
  simp only [Value.AllAlike, List.forall₂_map_left_iff, List.forall₂_map_right_iff]
  exact ⟨h.imp fun _ _ h => h.1, h.imp fun _ _ h => Value.tuple_alike.2 h.2⟩

/-- Nodes agree when they are equal. -/
theorem agree_eq_ok_true_iff : m.agree n = .ok true ↔ m.Equal n := by
  constructor
  · intro h
    cases m <;> cases n <;> simp only [agree, Except.ok.injEq, Bool.and_eq_true] at h
    case simultaneous.simultaneous m n =>
        obtain ⟨⟨hstate, hplayers⟩, hmoves⟩ := h
        exact .simultaneous hstate
          (seats_match (Value.tuple_beq.1 hplayers) (Value.tuple_beq.1 hmoves))
    case sequential.sequential =>
        obtain ⟨⟨hstate, hplayer⟩, hmoves⟩ := h
        exact .sequential hstate hplayer (Value.tuple_beq.1 hmoves)
    case chance.chance => exact .chance h.1 h.2
    case terminal.terminal => exact .terminal (.of_agree h)
    case stray.stray => split at h <;> cases h
    all_goals cases h
  · intro h
    cases h with
    | simultaneous hstate hseats =>
        obtain ⟨hplayers, hmoves⟩ := seats_of_match hseats
        simp only [agree, Except.ok.injEq, Bool.and_eq_true]
        exact ⟨⟨hstate, Value.tuple_beq.2 hplayers⟩, Value.tuple_beq.2 hmoves⟩
    | sequential hstate hplayer hmoves =>
        simp only [agree, Except.ok.injEq, Bool.and_eq_true]
        exact ⟨⟨hstate, hplayer⟩, Value.tuple_beq.2 hmoves⟩
    | chance hstate h =>
        simp only [agree, Except.ok.injEq, Bool.and_eq_true]
        exact ⟨hstate, h⟩
    | terminal h => exact congrArg _ (Ending.agree_iff.2 h)

/-- Of two nodes it is found out whether they are equal. -/
theorem exists_agree (hm : m.isNode = true) : ∃ agreed, m.agree n = .ok agreed := by
  cases m with
  | stray v => cases hm
  | _ => cases n <;> exact ⟨_, rfl⟩

/-- Comparing two nodes fails only where neither of them is one. -/
theorem eq_missingPart_of_agree {e : Fault} (h : m.agree n = .error e) : e = .missingPart := by
  cases m <;> cases n <;> simp only [agree, reduceCtorEq] at h
  split at h
  · exact (Except.error.inj h).symm
  · cases h

/-- A node equals itself when its state does. -/
theorem equal_self (h : n.Settled) (hstate : (n.state == n.state) = true) : n.Equal n := by
  cases n with
  | simultaneous n => exact .simultaneous hstate (List.forall₂_same.2 h)
  | sequential player moves state => exact .sequential hstate h.1 h.2
  | chance d state => exact .chance hstate h
  | terminal e =>
      exact .terminal ⟨h.1, Profile.option_beq.symm.trans h.2.1,
        History.option_beq.symm.trans h.2.2, Value.alike_of_beq hstate⟩
  | stray v => exact h.elim

theorem offers_of_mem_keys (h : key ∈ n.keys) : n.Offers key :=
  ⟨key, h, .inl rfl⟩

/-- What matches a key that a node offers is offered there too. -/
theorem Offers.of_beq (h : n.Offers key) (hkey : (key == key') = true) : n.Offers key' := by
  obtain ⟨k, hk, hkey'⟩ := h
  have halike := Value.alike_symm (Value.alike_of_beq hkey)
  refine ⟨k, hk, .inr ?_⟩
  rcases hkey' with rfl | hkey'
  · exact halike
  · exact Value.alike_trans halike hkey'

/-- A key that a node offers is looked up as it is. -/
theorem Offers.lookupKey (h : n.Offers key) : n.lookupKey key = .ok key := by
  obtain ⟨k, hk, rfl | halike⟩ := h
  · exact lookupKey_of_mem_keys hk
  · cases n with
    | simultaneous n =>
        obtain ⟨moves, -, rfl⟩ := List.mem_map.1 hk
        obtain ⟨moves', rfl, -⟩ := Value.tuple_of_alike (Value.alike_symm halike)
        rfl
    | sequential player moves state => rfl
    | chance d state => rfl
    | terminal e => cases hk
    | stray v => cases hk

namespace Equal

theorem isNode (h : m.Equal n) : n.isNode = true := by
  cases h <;> rfl

theorem trans [Scale.Comparable ω] (h : m.Equal n) (h' : n.Equal k) : m.Equal k := by
  cases h with
  | simultaneous hstate hseats =>
      cases h' with
      | simultaneous hstate' hseats' =>
          exact .simultaneous (Value.beq_trans hstate hstate')
            (forall₂_trans hseats hseats' fun _ _ _ => Seat.Match.trans)
  | sequential hstate hplayer hmoves =>
      cases h' with
      | sequential hstate' hplayer' hmoves' =>
          exact .sequential (Value.beq_trans hstate hstate') (Value.alike_trans hplayer hplayer')
            (hmoves.trans hmoves')
  | chance hstate h =>
      cases h' with
      | chance hstate' h' =>
          refine .chance (Value.beq_trans hstate hstate') (Distribution.same_iff.2 ?_)
          refine forall₂_trans (Distribution.same_iff.1 h) (Distribution.same_iff.1 h')
            fun a b c hab hbc => ?_
          exact ⟨Value.alike_trans hab.1 hbc.1, Scale.Comparable.beq_trans hab.2 hbc.2⟩
  | terminal h =>
      cases h' with
      | terminal h' => exact .terminal (h.trans h')

theorem symm [Scale.Comparable ω] (h : m.Equal n) : n.Equal m := by
  cases h with
  | simultaneous hstate hseats =>
      exact .simultaneous (Value.beq_symm hstate) (hseats.flip.imp fun _ _ => Seat.Match.symm)
  | sequential hstate hplayer hmoves =>
      exact .sequential (Value.beq_symm hstate) (Value.alike_symm hplayer) hmoves.symm
  | chance hstate h =>
      refine .chance (Value.beq_symm hstate) (Distribution.same_iff.2 ?_)
      refine (Distribution.same_iff.1 h).flip.imp fun a b hab => ?_
      exact ⟨Value.alike_symm hab.1, Scale.Comparable.beq_symm hab.2⟩
  | terminal h => exact .terminal h.symm

/-- Equal nodes offer keys that match place by place. -/
theorem keys [Scale.Comparable ω] (h : m.Equal n) : Value.AllAlike m.keys n.keys := by
  cases h with
  | simultaneous hstate hseats => exact keys_of_seats hseats
  | sequential hstate hplayer hmoves => exact hmoves
  | chance hstate h => exact Distribution.support_alike h
  | terminal h => exact .nil

/-- Equal nodes offer the same keys, but for keys that match. -/
theorem offers [Scale.Comparable ω] (h : m.Equal n) (hkey : m.Offers key) : n.Offers key := by
  obtain ⟨k, hk, hkey⟩ := hkey
  obtain ⟨k', hk', halike⟩ := exists_of_mem_left h.keys hk
  refine ⟨k', hk', .inr ?_⟩
  rcases hkey with rfl | hkey
  · exact halike
  · exact Value.alike_trans hkey halike

end Equal

end Node

end ExtensiveForm
