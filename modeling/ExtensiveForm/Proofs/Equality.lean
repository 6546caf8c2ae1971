import Mathlib.Data.List.Forall2
import ExtensiveForm.Value.Equality
import ExtensiveForm.Record.History

/-!
# Laws of equality

Matching as parts is symmetric and transitive, and so is equality. Neither is reflexive: a number
that was computed and is no number matches nothing. Whatever matches something matches itself,
though, and this is enough to replace equals by equals.

The records of play match when their parts do. `transcript?_of_alike` and `round_of_alike` say that
states that match tell the same about the play.
-/

namespace ExtensiveForm

namespace Number

theorem same_iff {m n : Number} : m.same n = true ↔ m ≠ .undefined ∧ m = n := by
  simp [same]

theorem ofInt_inj {m n : Int} : ofInt m = ofInt n ↔ m = n := by
  simp [ofInt]

theorem ofInt_below {m n : Int} : (ofInt m).below (ofInt n) = true ↔ m < n := by
  rw [ofInt, ofInt, below, decide_eq_true_eq, Rat.intCast_lt_intCast]

theorem ofInt_atMost {m n : Int} : (ofInt m).atMost (ofInt n) = true ↔ m ≤ n := by
  rw [atMost, Bool.or_eq_true, ofInt_below, same_iff, ofInt_inj]
  simp only [ofInt, ne_eq, reduceCtorEq, not_false_eq_true, true_and]
  omega

end Number

namespace Leaf

/-- Equal leaves stand for one number, or are both nothing, or are one text. -/
theorem same_iff {a b : Leaf} :
    a.same b = true ↔
      (∃ n, n ≠ .undefined ∧ a.number? = some n ∧ b.number? = some n) ∨
        (a = .null ∧ b = .null) ∨ ∃ s, a = .text s ∧ b = .text s := by
  constructor
  · intro h
    cases ha : a.number? with
    | some m =>
        cases hb : b.number? with
        | some n =>
            simp only [same, ha, hb, Number.same_iff] at h
            exact .inl ⟨m, h.1, rfl, by rw [h.2]⟩
        | none => simp [same, ha, hb] at h
    | none =>
        cases a <;> simp only [number?, reduceCtorEq] at ha <;>
          cases b <;> simp [same, number?] at h <;> simp [h]
  · rintro (⟨n, hn, ha, hb⟩ | ⟨rfl, rfl⟩ | ⟨s, rfl, rfl⟩)
    · simp [same, ha, hb, Number.same_iff, hn]
    · rfl
    · simp [same, number?]

theorem same_symm {a b : Leaf} (h : a.same b = true) : b.same a = true := by
  rw [same_iff] at h ⊢
  rcases h with ⟨n, hn, ha, hb⟩ | ⟨ha, hb⟩ | ⟨s, ha, hb⟩
  · exact .inl ⟨n, hn, hb, ha⟩
  · exact .inr (.inl ⟨hb, ha⟩)
  · exact .inr (.inr ⟨s, hb, ha⟩)

theorem same_trans {a b c : Leaf} (hab : a.same b = true) (hbc : b.same c = true) :
    a.same c = true := by
  rw [same_iff] at hab hbc ⊢
  rcases hab with ⟨n, hn, ha, hb⟩ | ⟨rfl, rfl⟩ | ⟨s, rfl, rfl⟩
  · rcases hbc with ⟨m, -, hb', hc⟩ | ⟨rfl, -⟩ | ⟨_, rfl, -⟩
    · obtain rfl : n = m := Option.some.inj (hb.symm.trans hb')
      exact .inl ⟨n, hn, ha, hc⟩
    · cases hb
    · cases hb
  · rcases hbc with ⟨_, _, hb, _⟩ | h | ⟨_, ⟨⟩, _⟩
    · cases hb
    · exact .inr (.inl h)
  · rcases hbc with ⟨_, _, hb, _⟩ | ⟨⟨⟩, _⟩ | h
    · cases hb
    · exact .inr (.inr h)

/-- Leaves that match have one mark or are equal. -/
theorem alike_iff {a b : Leaf} :
    a.alike b = true ↔ (∃ m, a = .undefined m ∧ b = .undefined m) ∨ a.same b = true := by
  unfold alike
  split
  · rename_i m n
    constructor
    · intro h
      exact .inl ⟨m, rfl, by rw [beq_iff_eq.1 h]⟩
    · rintro (⟨_, ⟨⟩, ⟨⟩⟩ | h)
      · exact beq_self_eq_true m
      · simp [same, number?, Number.same_iff] at h
  · rename_i hmarks
    refine ⟨.inr, fun h => h.resolve_left ?_⟩
    rintro ⟨m, rfl, rfl⟩
    exact hmarks m m rfl rfl

theorem alike_symm {a b : Leaf} (h : a.alike b = true) : b.alike a = true := by
  rw [alike_iff] at h ⊢
  rcases h with ⟨m, ha, hb⟩ | h
  · exact .inl ⟨m, hb, ha⟩
  · exact .inr (same_symm h)

theorem alike_trans {a b c : Leaf} (hab : a.alike b = true) (hbc : b.alike c = true) :
    a.alike c = true := by
  rw [alike_iff] at hab hbc ⊢
  rcases hab with ⟨m, rfl, rfl⟩ | hab
  · rcases hbc with ⟨n, ⟨⟩, rfl⟩ | hbc
    · exact .inl ⟨m, rfl, rfl⟩
    · simp [same_iff, number?] at hbc
  · rcases hbc with ⟨n, rfl, rfl⟩ | hbc
    · simp [same_iff, number?] at hab
    · exact .inr (same_trans hab hbc)

end Leaf

namespace Form

/-- Forms match one by one when the lists are as long and the forms at each place match. -/
theorem allAlike_iff {fs gs : List Form} :
    allAlike fs gs = true ↔ List.Forall₂ (fun f g => f.alike g = true) fs gs := by
  induction fs generalizing gs with
  | nil => cases gs <;> simp [allAlike]
  | cons f fs ih => cases gs <;> simp [allAlike, ih]

mutual

theorem alike_symm : ∀ {f g : Form}, f.alike g = true → g.alike f = true
  | .leaf _, .leaf _, h => Leaf.alike_symm h
  | .group _ _, .group _ _, h => by
      simp only [alike, Bool.and_eq_true, decide_eq_true_eq] at h ⊢
      exact ⟨h.1.symm, allAlike_symm h.2⟩
  | .leaf _, .group _ _, h => by simp [alike] at h
  | .group _ _, .leaf _, h => by simp [alike] at h

theorem allAlike_symm : ∀ {fs gs : List Form}, allAlike fs gs = true → allAlike gs fs = true
  | [], [], h => h
  | _ :: _, _ :: _, h => by
      simp only [allAlike, Bool.and_eq_true] at h ⊢
      exact ⟨alike_symm h.1, allAlike_symm h.2⟩
  | [], _ :: _, h => by simp [allAlike] at h
  | _ :: _, [], h => by simp [allAlike] at h

end

mutual

theorem alike_trans : ∀ {f g k : Form}, f.alike g = true → g.alike k = true → f.alike k = true
  | .leaf _, .leaf _, .leaf _, h, h' => Leaf.alike_trans h h'
  | .group _ _, .group _ _, .group _ _, h, h' => by
      simp only [alike, Bool.and_eq_true, decide_eq_true_eq] at h h' ⊢
      exact ⟨h.1.trans h'.1, allAlike_trans h.2 h'.2⟩
  | .leaf _, .group _ _, _, h, _ => by simp [alike] at h
  | .group _ _, .leaf _, _, h, _ => by simp [alike] at h
  | _, .leaf _, .group _ _, _, h => by simp [alike] at h
  | _, .group _ _, .leaf _, _, h => by simp [alike] at h

theorem allAlike_trans : ∀ {fs gs ks : List Form},
    allAlike fs gs = true → allAlike gs ks = true → allAlike fs ks = true
  | [], [], _, _, h => h
  | _ :: _, _ :: _, _ :: _, h, h' => by
      simp only [allAlike, Bool.and_eq_true] at h h' ⊢
      exact ⟨alike_trans h.1 h'.1, allAlike_trans h.2 h'.2⟩
  | [], _ :: _, _, h, _ => by simp [allAlike] at h
  | _ :: _, [], _, h, _ => by simp [allAlike] at h
  | _, _ :: _, [], _, h => by simp [allAlike] at h

end

end Form

namespace Value

theorem alike_symm {a b : Value} (h : a.alike b = true) : b.alike a = true :=
  Form.alike_symm h

theorem alike_trans {a b c : Value} (hab : a.alike b = true) (hbc : b.alike c = true) :
    a.alike c = true :=
  Form.alike_trans hab hbc

/-- Equal values match. -/
theorem alike_of_beq {a b : Value} (h : (a == b) = true) : a.alike b = true := by
  change a.form.same b.form = true at h
  unfold alike
  cases hf : a.form <;> cases hg : b.form <;> rw [hf, hg] at h
  -- Only leaves are compared in two ways: a mark matches itself without being equal to itself.
  · exact Leaf.alike_iff.2 (.inr h)
  all_goals exact h

/-- What equals something equals all that matches it. -/
theorem beq_of_beq_of_alike {a b c : Value} (hab : (a == b) = true) (hbc : b.alike c = true) :
    (a == c) = true := by
  change a.form.same b.form = true at hab
  show a.form.same c.form = true
  unfold alike at hbc
  -- Forms of different shapes neither match nor are equal, so two leaves and two groups are left.
  cases hf : a.form <;> cases hg : b.form <;> cases hk : c.form <;> rw [hf, hg] at hab <;>
    rw [hg, hk] at hbc
  · rename_i f g k
    rcases Leaf.alike_iff.1 hbc with ⟨m, rfl, rfl⟩ | h
    · simp [Form.same, Leaf.same_iff, Leaf.number?] at hab
    · exact Leaf.same_trans hab h
  · simp [Form.alike] at hbc
  · simp [Form.same, Form.alike] at hab
  · simp [Form.same, Form.alike] at hab
  · simp [Form.same, Form.alike] at hab
  · simp [Form.same, Form.alike] at hab
  · simp [Form.alike] at hbc
  · change Form.alike _ _ = true at hab
    exact Form.alike_trans hab hbc

theorem beq_symm {a b : Value} (h : (a == b) = true) : (b == a) = true := by
  change a.form.same b.form = true at h
  show b.form.same a.form = true
  cases hf : a.form <;> cases hg : b.form <;> rw [hf, hg] at h
  · exact Leaf.same_symm h
  all_goals exact Form.alike_symm h

theorem beq_trans {a b c : Value} (hab : (a == b) = true) (hbc : (b == c) = true) :
    (a == c) = true :=
  beq_of_beq_of_alike hab (alike_of_beq hbc)

/-- Values that match equal the same values. -/
theorem beq_congr {a a' b b' : Value} (ha : a.alike a' = true) (hb : b.alike b' = true) :
    (a == b) = (a' == b') := by
  rw [Bool.eq_iff_iff]
  constructor
  · intro h
    exact beq_symm (beq_of_beq_of_alike (beq_symm (beq_of_beq_of_alike h hb)) ha)
  · intro h
    exact beq_symm (beq_of_beq_of_alike
      (beq_symm (beq_of_beq_of_alike h (alike_symm hb))) (alike_symm ha))

theorem forms_eq_map (vs : List Value) : forms vs = vs.map form := by
  induction vs with
  | nil => rfl
  | cons v vs ih => rw [forms, ih, List.map_cons]

/-- Values match one by one. -/
def AllAlike (vs ws : List Value) : Prop :=
  List.Forall₂ (fun v w => v.alike w = true) vs ws

theorem allAlike_forms {vs ws : List Value} :
    Form.allAlike (forms vs) (forms ws) = true ↔ AllAlike vs ws := by
  rw [Form.allAlike_iff, forms_eq_map, forms_eq_map, List.forall₂_map_left_iff,
    List.forall₂_map_right_iff]
  rfl

theorem AllAlike.symm {vs ws : List Value} (h : AllAlike vs ws) : AllAlike ws vs :=
  h.flip.imp fun _ _ => alike_symm

theorem AllAlike.trans {us vs ws : List Value} (h : AllAlike us vs) (h' : AllAlike vs ws) :
    AllAlike us ws :=
  allAlike_forms.1 (Form.allAlike_trans (allAlike_forms.2 h) (allAlike_forms.2 h'))

/-- Tuples are equal when their members match. -/
theorem tuple_beq {vs ws : List Value} :
    (Value.tuple vs == .tuple ws) = true ↔ AllAlike vs ws := by
  show Form.alike (.group .tuple (forms vs)) (.group .tuple (forms ws)) = true ↔ _
  rw [Form.alike, decide_eq_true rfl, Bool.true_and, allAlike_forms]

theorem tuple_alike {vs ws : List Value} :
    (Value.tuple vs).alike (.tuple ws) = true ↔ AllAlike vs ws :=
  tuple_beq

/-- A value that matches some member of a list is a member of every list that matches it. -/
theorem AllAlike.isAmong {v w : Value} {vs ws : List Value} (h : AllAlike vs ws)
    (hvw : v.alike w = true) (hv : v.isAmong vs = true) : w.isAmong ws = true := by
  unfold Value.isAmong at hv ⊢
  induction h with
  | nil => cases hv
  | cons hhead _ ih =>
      rw [List.any_cons, Bool.or_eq_true] at hv ⊢
      rcases hv with hv | hv
      · exact .inl (alike_trans (alike_symm hvw) (alike_trans hv hhead))
      · exact .inr (ih hv)

end Value

/-- Two plies match in player and move. -/
def Ply.Alike (p q : Ply) : Prop :=
  p.player.alike q.player = true ∧ p.move.alike q.move = true

theorem Ply.forms_eq_map (ps : List Ply) : Ply.forms ps = ps.map Ply.form := by
  induction ps with
  | nil => rfl
  | cons p ps ih => rw [Ply.forms, ih, List.map_cons]

theorem Ply.form_alike {p q : Ply} : p.form.alike q.form = true ↔ p.Alike q := by
  obtain ⟨player, move⟩ := p
  obtain ⟨player', move'⟩ := q
  simp [Ply.form, Form.alike, Form.allAlike, Ply.Alike, Value.alike]

/-- Transcripts are equal when their plies match. -/
theorem Transcript.beq_iff {t t' : Transcript} :
    (t == t') = true ↔ List.Forall₂ Ply.Alike t.latestFirst t'.latestFirst := by
  obtain ⟨latestFirst⟩ := t
  obtain ⟨latestFirst'⟩ := t'
  show Form.alike (.group .transcript (Ply.forms latestFirst).reverse)
    (.group .transcript (Ply.forms latestFirst').reverse) = true ↔ _
  rw [Form.alike, decide_eq_true rfl, Bool.true_and, Form.allAlike_iff,
    List.forall₂_reverse_iff, Ply.forms_eq_map, Ply.forms_eq_map, List.forall₂_map_left_iff,
    List.forall₂_map_right_iff]
  simp only [Ply.form_alike]

theorem Payoff.beq_iff {p q : Payoff} :
    (p == q) = true ↔ Value.AllAlike p.values q.values := by
  obtain ⟨values⟩ := p
  obtain ⟨values'⟩ := q
  show Form.alike (.group .payoff (Value.forms values)) (.group .payoff (Value.forms values')) =
    true ↔ _
  rw [Form.alike, decide_eq_true rfl, Bool.true_and, Value.allAlike_forms]

theorem Profile.beq_iff {p q : Profile} :
    (p == q) = true ↔ Value.AllAlike p.moves q.moves := by
  obtain ⟨moves⟩ := p
  obtain ⟨moves'⟩ := q
  show Form.alike (.group .profile (Value.forms moves)) (.group .profile (Value.forms moves')) =
    true ↔ _
  rw [Form.alike, decide_eq_true rfl, Bool.true_and, Value.allAlike_forms]

/-! ### What states that match tell -/

namespace Form

/-- The kind of a group. A leaf has none. -/
def kind? : Form → Option Kind
  | .leaf _ => none
  | .group kind _ => some kind

theorem kind?_eq {f g : Form} (h : f.alike g = true) : f.kind? = g.kind? := by
  cases f <;> cases g <;> simp [alike] at h
  · rfl
  · rw [kind?, kind?, h.1]

/-- The number that a leaf stands for. A group stands for none. -/
def number? : Form → Option Number
  | .leaf a => a.number?
  | .group _ _ => none

theorem number?_eq {f g : Form} (h : f.alike g = true) : f.number? = g.number? := by
  cases f with
  | leaf a =>
      cases g with
      | leaf b =>
          rcases Leaf.alike_iff.1 h with ⟨m, rfl, rfl⟩ | h
          · rfl
          · rcases Leaf.same_iff.1 h with ⟨n, -, ha, hb⟩ | ⟨rfl, rfl⟩ | ⟨s, rfl, rfl⟩
            · exact ha.trans hb.symm
            · rfl
            · rfl
      | group kind parts => simp [alike] at h
  | group kind parts =>
      cases g with
      | leaf b => simp [alike] at h
      | group kind parts => rfl

end Form

namespace Value

/-- The kind of group that a value is taken apart into. -/
def kind? : Value → Option Kind
  | .null | .bool _ | .int _ | .double _ | .undefined _ | .text _ => none
  | .tuple _ => some .tuple
  | .list _ => some .list
  | .payoff _ => some .payoff
  | .profile _ => some .profile
  | .ply _ => some .ply
  | .transcript _ => some .transcript
  | .outcome _ => some .outcome
  | .history _ => some .history
  | .roundState _ => some .roundState
  | .scope _ => some .scope

theorem form_kind? (v : Value) : v.form.kind? = v.kind? := by
  cases v with
  | payoff p => cases p; rfl
  | profile p => cases p; rfl
  | ply p => cases p; rfl
  | transcript t => cases t; rfl
  | outcome o => cases o; rfl
  | history h => cases h; rfl
  | roundState now => cases now; rfl
  | scope s => cases s; rfl
  | _ => rfl

/-- Values that match are of one kind. -/
theorem kind?_eq {v w : Value} (h : v.alike w = true) : v.kind? = w.kind? := by
  rw [← form_kind?, ← form_kind?]
  exact Form.kind?_eq h

theorem history_beq {h h' : History} : (h == h') = h.form.alike h'.form := by
  cases h
  cases h'
  rfl

theorem transcript_beq {t t' : Transcript} : (t == t') = t.form.alike t'.form := by
  cases t
  cases t'
  rfl

theorem form_number? (v : Value) : v.form.number? = v.number? := by
  cases v with
  | payoff p => cases p; rfl
  | profile p => cases p; rfl
  | ply p => cases p; rfl
  | transcript t => cases t; rfl
  | outcome o => cases o; rfl
  | history h => cases h; rfl
  | roundState now => cases now; rfl
  | scope s => cases s; rfl
  | _ => rfl

/-- Values that match stand for the same number, or for none. -/
theorem number?_eq {v w : Value} (h : v.alike w = true) : v.number? = w.number? := by
  rw [← form_number?, ← form_number?]
  exact Form.number?_eq h

/-- Nothing matches nothing only. -/
theorem null_alike {w : Value} (h : null.alike w = true) : w = .null := by
  have hkind := kind?_eq h
  cases w with
  | null => rfl
  | text _ | bool _ | int _ | double _ | undefined _ =>
      simp [alike, form, Form.alike, Leaf.alike, Leaf.same, Leaf.number?] at h
  | _ => cases hkind

theorem number?_of_whole? {v : Value} {n : Int} (h : v.whole? = some n) :
    v.number? = some (.ofInt n) := by
  cases v <;> cases h <;> rfl

theorem profile_beq {p q : Profile} : (p == q) = p.form.alike q.form := by
  cases p
  cases q
  rfl

theorem payoff_beq {p q : Payoff} : (p == q) = p.form.alike q.form := by
  cases p
  cases q
  rfl

/-- A tuple matches tuples only. -/
theorem tuple_of_alike {vs : List Value} {w : Value} (h : (tuple vs).alike w = true) :
    ∃ ws, w = .tuple ws ∧ AllAlike vs ws := by
  have hkind := kind?_eq h
  cases w with
  | tuple ws => exact ⟨ws, rfl, tuple_alike.1 h⟩
  | _ => cases hkind

/-- A round state matches round states only, and all their parts match. -/
theorem roundState_alike {now : RoundState} {w : Value} (h : (roundState now).alike w = true) :
    ∃ now', w = .roundState now' ∧ (now.history == now'.history) = true ∧
      now.stageState.alike now'.stageState = true ∧
        (now.transcript == now'.transcript) = true := by
  have hkind := kind?_eq h
  cases w with
  | roundState now' =>
      obtain ⟨history, stageState, transcript⟩ := now
      obtain ⟨history', stageState', transcript'⟩ := now'
      refine ⟨_, rfl, ?_⟩
      rw [history_beq, transcript_beq]
      simpa [Value.alike, Value.form, RoundState.form, Form.alike, Form.allAlike] using h
  | _ => cases hkind

/-- A scope matches scopes only, and all their parts match. -/
theorem scope_alike {s : Scope} {w : Value} (h : (scope s).alike w = true) :
    ∃ s', w = .scope s' ∧ s.label.alike s'.label = true ∧
      s.transcript.alike s'.transcript = true ∧ s.round.alike s'.round = true ∧
        s.history.alike s'.history = true := by
  have hkind := kind?_eq h
  cases w with
  | scope s' =>
      obtain ⟨label, transcript, round, history⟩ := s
      obtain ⟨label', transcript', round', history'⟩ := s'
      refine ⟨_, rfl, ?_⟩
      simpa [Value.alike, Value.form, Scope.form, Form.alike, Form.allAlike] using h
  | _ => cases hkind

/-- An outcome matches outcomes only, and all their parts match. -/
theorem outcome_alike {o : Outcome} {w : Value} (h : (outcome o).alike w = true) :
    ∃ o', w = .outcome o' ∧ o.payoff.form.alike o'.payoff.form = true ∧
      (Profile.formOr o.profile).alike (Profile.formOr o'.profile) = true ∧
        (o.transcript == o'.transcript) = true ∧
          (History.formOr o.history).alike (History.formOr o'.history) = true := by
  have hkind := kind?_eq h
  cases w with
  | outcome o' =>
      obtain ⟨payoff, profile, transcript, history⟩ := o
      obtain ⟨payoff', profile', transcript', history'⟩ := o'
      refine ⟨_, rfl, ?_⟩
      rw [transcript_beq]
      simpa [Value.alike, Value.form, Outcome.form, Form.alike, Form.allAlike] using h
  | _ => cases hkind

/-- A transcript matches transcripts only. -/
theorem transcript_alike {t : Transcript} {w : Value} (h : (transcript t).alike w = true) :
    ∃ t', w = .transcript t' ∧ (t == t') = true := by
  have hkind := kind?_eq h
  cases w with
  | transcript t' => exact ⟨t', rfl, transcript_beq.trans h⟩
  | _ => cases hkind

/-- The transcript that a value is, if it is one. -/
def asTranscript? : Value → Option Transcript
  | .transcript t => some t
  | _ => none

theorem scope_transcript? (s : Scope) :
    (scope s).transcript? = s.transcript.asTranscript? := by
  obtain ⟨label, transcript, round, history⟩ := s
  cases transcript <;> rfl

/-- Two values have transcripts that are equal, or neither has one. -/
abbrev SameTranscript (t? t'? : Option Transcript) : Prop :=
  Option.Rel (fun t t' => (t == t') = true) t? t'?

theorem asTranscript?_of_alike {v w : Value} (h : v.alike w = true) :
    SameTranscript v.asTranscript? w.asTranscript? := by
  cases v with
  | transcript t =>
      obtain ⟨t', rfl, ht⟩ := transcript_alike h
      exact .some ht
  | _ =>
      have hkind := kind?_eq h
      cases w with
      | transcript t' => cases hkind
      | _ => exact .none

/-- States that match carry equal transcripts, or none. -/
theorem transcript?_of_alike {v w : Value} (h : v.alike w = true) :
    SameTranscript v.transcript? w.transcript? := by
  cases v with
  | roundState now =>
      obtain ⟨now', rfl, -, -, ht⟩ := roundState_alike h
      exact .some ht
  | outcome o =>
      obtain ⟨o', rfl, -, -, ht, -⟩ := outcome_alike h
      exact .some ht
  | scope s =>
      obtain ⟨s', rfl, -, ht, -⟩ := scope_alike h
      rw [scope_transcript?, scope_transcript?]
      exact asTranscript?_of_alike ht
  | _ =>
      have hkind := kind?_eq h
      cases w with
      | roundState now => cases hkind
      | outcome o => cases hkind
      | scope s => cases hkind
      | _ => exact .none

theorem outcomeForms_eq_map (os : List Outcome) : Outcome.forms os = os.map Outcome.form := by
  induction os with
  | nil => rfl
  | cons o os ih => rw [Outcome.forms, ih, List.map_cons]

/-- Equal histories tell of equally many rounds. -/
theorem length_of_beq {h h' : History} (heq : (h == h') = true) : h.length = h'.length := by
  obtain ⟨latestFirst⟩ := h
  obtain ⟨latestFirst'⟩ := h'
  change Form.alike (.group .history (Outcome.forms latestFirst).reverse)
    (.group .history (Outcome.forms latestFirst').reverse) = true at heq
  rw [Form.alike, decide_eq_true rfl, Bool.true_and, Form.allAlike_iff,
    outcomeForms_eq_map, outcomeForms_eq_map] at heq
  simpa [History.length] using heq.length_eq

/-- States that match belong to rounds that match. -/
theorem round_of_alike {v w : Value} (h : v.alike w = true) :
    v.round.alike w.round = true := by
  cases v with
  | roundState now =>
      obtain ⟨now', rfl, hhistory, -⟩ := roundState_alike h
      show (int now.history.length).alike (int now'.history.length) = true
      rw [int_alike, length_of_beq hhistory]
      exact decide_eq_true rfl
  | scope s =>
      obtain ⟨s', rfl, -, -, hround, -⟩ := scope_alike h
      exact hround
  | _ =>
      have hkind := kind?_eq h
      cases w with
      | roundState now => cases hkind
      | scope s => cases hkind
      | _ => rfl

end Value

theorem Profile.formOr_alike {p? q? : Option Profile} (h : (p? == q?) = true) :
    (formOr p?).alike (formOr q?) = true := by
  cases p? with
  | none =>
      cases q? with
      | none => rfl
      | some q => cases h
  | some p =>
      cases q? with
      | none => cases h
      | some q => exact Value.profile_beq.symm.trans h

theorem History.formOr_alike {h? h'? : Option History} (h : (h? == h'?) = true) :
    (formOr h?).alike (formOr h'?) = true := by
  cases h? with
  | none =>
      cases h'? with
      | none => rfl
      | some _ => cases h
  | some _ =>
      cases h'? with
      | none => cases h
      | some _ => exact Value.history_beq.symm.trans h

/-- Outcomes are equal when all their parts match. -/
theorem Outcome.beq_of_parts {o o' : Outcome} (hpayoff : (o.payoff == o'.payoff) = true)
    (hprofile : (Profile.formOr o.profile).alike (Profile.formOr o'.profile) = true)
    (htranscript : (o.transcript == o'.transcript) = true)
    (hhistory : (History.formOr o.history).alike (History.formOr o'.history) = true) :
    (o == o') = true := by
  rw [Value.payoff_beq] at hpayoff
  rw [Value.transcript_beq] at htranscript
  obtain ⟨payoff, profile, transcript, history⟩ := o
  obtain ⟨payoff', profile', transcript', history'⟩ := o'
  show Form.alike (Outcome.form _) (Outcome.form _) = true
  simp only [Outcome.form, Form.alike, Form.allAlike, hpayoff, hprofile, htranscript, hhistory]
  rfl

end ExtensiveForm
