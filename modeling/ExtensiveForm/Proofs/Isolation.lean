import Mathlib.Data.List.Pairwise
import ExtensiveForm.Proofs.Log
import ExtensiveForm.Proofs.Replay
import ExtensiveForm.Proofs.Rounds
import ExtensiveForm.Proofs.Sessions
import ExtensiveForm.Proofs.Steps

/-!
# Moves made at once are made apart

Two plays of a tree are compared that have followed the same keys up to a decision of several
players. Whatever one of them answers there, everyone else is shown the same in both plays, and
nothing of what was answered. So those who share no memory with this player answer the same.

What the players share is the state of the surroundings. `Isolated` relates the states of the two
plays: players who are set apart answer the same from related states, and whatever the others and
chance do, the states stay related. `simultaneous_moves_are_isolated` is the main result.
`Session.isolated` says that strategies which draw nothing are set apart from all others.
-/

namespace ExtensiveForm

/-- From related states the rules lead everywhere to the same position. -/
def Tree.Consistent {ω σ : Type} [Scale ω] (t : Tree ω σ) (R : σ → σ → Prop) : Prop :=
  ∀ p key, Run.Same R (t.next p key) (t.next p key)

/-- A key leads from related states to the same position, and to related states. -/
theorem Tree.Consistent.follow {ω σ : Type} [Scale ω] {t : Tree ω σ} {R : σ → σ → Prop}
    (ht : t.Consistent R) (p : t.Position) (key : Value) :
    Run.Same R (t.follow p key) (t.follow p key) := by
  refine .bind (.liftM _) fun found => .bind (ht p found) fun next => ?_
  cases next with
  | none => exact .throw _
  | some q => exact .pure q

/-- Two groups of participants have strategies for the same players. Those set apart answer the same
in both groups from related states, and the states stay related whoever is asked. -/
structure Participants.Isolated {ω σ : Type} (ps ps' : Participants ω σ) (R : σ → σ → Prop)
    (apart : Nat → Prop) : Prop where
  seated (player : Nat) : (ps.ask player).isSome = (ps'.ask player).isSome
  alike {player : Nat} {ask ask' : Context → Run σ Value} (h : ps.ask player = some ask)
    (h' : ps'.ask player = some ask') (hapart : apart player) (c : Context) :
    Run.Same R (ask c) (ask' c)
  others {player : Nat} {ask ask' : Context → Run σ Value} (h : ps.ask player = some ask)
    (h' : ps'.ask player = some ask') (hother : ¬ apart player) (c : Context) {s s' : σ}
    (hs : R s s') : R ((ask c).start s).2 ((ask' c).start s').2
  chance {s s' : σ} (hs : R s s') : R (ps.uniform s).2 (ps'.uniform s').2

namespace Participants

variable {ω σ : Type} {ps ps' : Participants ω σ} {R : σ → σ → Prop} {apart : Nat → Prop}
  {s s' s₁ s₁' : σ}

/-- It does not matter which group comes first. -/
theorem Isolated.symm (h : ps.Isolated ps' R apart) :
    ps'.Isolated ps (fun s s' => R s' s) apart where
  seated player := (h.seated player).symm
  alike hask hask' hapart c s s' hs :=
    have hsame := h.alike hask' hask hapart c s' s hs
    ⟨hsame.1.symm, hsame.2⟩
  others hask hask' hother c _ _ hs := h.others hask' hask hother c hs
  chance hs := h.chance hs

/-- Whoever is asked, the states stay related. -/
theorem Isolated.after (h : ps.Isolated ps' R apart) {player : Nat}
    {ask ask' : Context → Run σ Value} (hask : ps.ask player = some ask)
    (hask' : ps'.ask player = some ask') (c : Context) (hs : R s s') :
    R ((ask c).start s).2 ((ask' c).start s').2 := by
  by_cases hapart : apart player
  · exact (h.alike hask hask' hapart c s s' hs).2
  · exact h.others hask hask' hapart c hs

/-- If everyone answers in both groups, the states stay related. -/
theorem Isolated.answers (h : ps.Isolated ps' R apart) {contexts : List Context}
    {moves moves' : List Value} (hs : R s s')
    (hmoves : (contexts.mapM ps.answer).start s = (.ok moves, s₁))
    (hmoves' : (contexts.mapM ps'.answer).start s' = (.ok moves', s₁')) : R s₁ s₁' := by
  induction contexts generalizing s s' moves moves' with
  | nil =>
      cases hmoves
      cases hmoves'
      exact hs
  | cons c contexts ih =>
      rw [List.mapM_cons] at hmoves hmoves'
      obtain ⟨move, s₂, hmove, hmoves⟩ := Run.start_bind_eq_ok.1 hmoves
      obtain ⟨_, _, hmoves, heq⟩ := Run.start_bind_eq_ok.1 hmoves
      cases heq
      obtain ⟨move', s₂', hmove', hmoves'⟩ := Run.start_bind_eq_ok.1 hmoves'
      obtain ⟨_, _, hmoves', heq⟩ := Run.start_bind_eq_ok.1 hmoves'
      cases heq
      obtain ⟨p, ask, hp, -, hask, hanswer⟩ := answer_eq_ok_iff.1 hmove
      obtain ⟨p', ask', hp', -, hask', hanswer'⟩ := answer_eq_ok_iff.1 hmove'
      cases hp.symm.trans hp'
      have hafter := h.after hask hask' c hs
      rw [hanswer, hanswer'] at hafter
      exact ih hafter hmoves hmoves'

end Participants

namespace Walk

variable {ω σ : Type} [Scale ω] {t : Tree ω σ} {ps ps' : Participants ω σ} {R : σ → σ → Prop}
  {apart : Nat → Prop} {numPlayers maxDepth : Int} {u v w : Walk t.Position} {s s' s₁ s₁' : σ}
  {keys : List Value}

/-- Wherever both groups decide, the states stay related. -/
theorem decide_isolated (hps : ps.Isolated ps' R apart) {transcript : Transcript} {n : Node ω}
    {key key' : Value} (hs : R s s')
    (h : (decide ps numPlayers transcript n).start s = (.ok key, s₁))
    (h' : (decide ps' numPlayers transcript n).start s' = (.ok key', s₁')) : R s₁ s₁' := by
  by_cases hchance : ∃ d state, n = .chance d state
  · obtain ⟨d, state, rfl⟩ := hchance
    obtain ⟨-, -, rfl⟩ := Distribution.sample_eq_ok_iff.1 h
    obtain ⟨-, -, rfl⟩ := Distribution.sample_eq_ok_iff.1 h'
    exact hps.chance hs
  · have hplayers : ∀ d state, n ≠ .chance d state := fun d state h => hchance ⟨d, state, h⟩
    obtain ⟨_, -, -, hmoves, -⟩ := (Node.decide_eq_ok_iff hplayers).1 h
    obtain ⟨_, -, -, hmoves', -⟩ := (Node.decide_eq_ok_iff hplayers).1 h'
    exact hps.answers hs hmoves hmoves'

/-- Where the same keys are followed, the walks are the same and the states stay related. -/
theorem Follows.isolated (ht : t.Consistent R) (hps : ps.Isolated ps' R apart)
    (h : Follows t ps numPlayers maxDepth u s keys v s₁)
    (h' : Follows t ps' numPlayers maxDepth u s' keys w s₁') (hs : R s s') :
    w = v ∧ R s₁ s₁' := by
  induction h generalizing s' with
  | nil u s =>
      cases h'
      exact ⟨rfl, hs⟩
  | @cons u v child key keys s s₂ s₃ s₁ hbound hnode hkey hchild hrest ih =>
      cases h' with
      | @cons _ _ child' _ _ _ s₂' s₃' _ _ _ hkey' hchild' hrest' =>
          have hs₂ := decide_isolated hps hs hkey hkey'
          obtain ⟨rfl, hs₃⟩ := (ht.follow u.position key).start_ok hs₂ hchild hchild'
          exact ih hrest' hs₃

end Walk

/-! ### What passes at a decision -/

/-- What everyone who was asked was shown and answered. -/
abbrev Record := List (Context × Except Fault Value)

/-- Everyone answered, legally or not, who was asked and is not set apart. -/
def Record.Answered (apart : Nat → Prop) (record : Record) : Prop :=
  ∀ c f, (c, .error f) ∈ record → ∀ p : Nat, c.player = .int p → apart p

/-- Two records of a decision are the same but for what those answered who are not set apart. -/
structure Record.Isolated (contexts : List Context) (apart : Nat → Prop)
    (record record' : Record) : Prop where
  /-- Nobody was shown anything but what was known before anyone was asked. -/
  known {c : Context} {answer : Except Fault Value} (h : (c, answer) ∈ record) : c ∈ contexts
  /-- Whoever was asked here was asked there with the same context, where the others answered. -/
  asked {c : Context} {answer : Except Fault Value} (hanswered : record'.Answered apart)
    (h : (c, answer) ∈ record) : ∃ answer', (c, answer') ∈ record'
  /-- Nobody was shown one thing here and another one there. -/
  shown {c c' : Context} {answer answer' : Except Fault Value} (h : (c, answer) ∈ record)
    (h' : (c', answer') ∈ record') (hplayer : c.player = c'.player) : c = c'
  /-- Those set apart gave the same answers. -/
  alike {c : Context} {answer answer' : Except Fault Value} (h : (c, answer) ∈ record)
    (h' : (c, answer') ∈ record') {p : Nat} (hplayer : c.player = .int p) (hapart : apart p) :
    answer = answer'

namespace Participants

variable {ω σ : Type} {ps ps' : Participants ω σ} {R : σ → σ → Prop} {apart : Nat → Prop}
  {s s' : σ} {contexts : List Context} {record record' : Record} {numPlayers : Int}

/-- The same participants, with a record of what they are shown and what they answer, the latest
answer first. -/
def recorded (ps : Participants ω σ) : Participants ω (σ × Record) where
  players := ps.players
  ask player := (ps.ask player).map fun ask c => (ask c).logged fun answer => [(c, answer)]
  uniform := fun (s, record) =>
    let (u, s) := ps.uniform s
    (u, (s, record))

@[simp] theorem recorded_ask (ps : Participants ω σ) (player : Nat) :
    ps.recorded.ask player =
      (ps.ask player).map fun ask c => (ask c).logged fun answer => [(c, answer)] := rfl

@[simp] theorem recorded_seats {player : Value} :
    ps.recorded.Seats numPlayers player ↔ ps.Seats numPlayers player := by
  simp only [Seats, recorded_ask, Option.isSome_map]

/-- Those who are to be asked are asked one after the other, until one of them has no seat in the
game or does not answer. -/
inductive Exchange (ps : Participants ω σ) : σ → List Context → Record → Prop
  | nil (s : σ) : Exchange ps s [] []
  | unseated {c : Context} (h : ¬ ps.Seats c.numPlayers c.player) (s : σ)
      (contexts : List Context) : Exchange ps s (c :: contexts) []
  | failed {s s' : σ} {c : Context} {p : Nat} {ask : Context → Run σ Value} {f : Fault}
      (hplayer : c.player = .int p) (hless : (p : Int) < c.numPlayers) (hask : ps.ask p = some ask)
      (hanswer : (ask c).start s = (.error f, s')) (contexts : List Context) :
      Exchange ps s (c :: contexts) [(c, .error f)]
  | answered {s s' : σ} {c : Context} {p : Nat} {ask : Context → Run σ Value} {move : Value}
      {contexts : List Context} {record : Record} (hplayer : c.player = .int p)
      (hless : (p : Int) < c.numPlayers) (hask : ps.ask p = some ask)
      (hanswer : (ask c).start s = (.ok move, s')) (hrest : Exchange ps s' contexts record) :
      Exchange ps s (c :: contexts) ((c, .ok move) :: record)

/-- Nobody is asked but those who are to be asked, and only under the number of a player. -/
theorem Exchange.mem (h : ps.Exchange s contexts record) {c : Context}
    {answer : Except Fault Value} (hanswer : (c, answer) ∈ record) :
    c ∈ contexts ∧ ∃ p : Nat, c.player = .int p := by
  induction h with
  | nil => cases hanswer
  | unseated => cases hanswer
  | failed hplayer =>
      cases List.mem_singleton.1 hanswer
      exact ⟨List.mem_cons_self .., _, hplayer⟩
  | answered hplayer hless hask hfirst hrest ih =>
      rcases List.mem_cons.1 hanswer with heq | hanswer
      · cases heq
        exact ⟨List.mem_cons_self .., _, hplayer⟩
      · exact ⟨List.mem_cons_of_mem _ (ih hanswer).1, (ih hanswer).2⟩

/-- Whoever was asked was the first one, or was asked after the first one had answered. -/
theorem Exchange.first_or_later {first c : Context} {answer : Except Fault Value}
    (h : ps.Exchange s (first :: contexts) record) (hanswer : (c, answer) ∈ record) :
    ∃ (p : Nat) (ask : Context → Run σ Value), first.player = .int p ∧ ps.ask p = some ask ∧
      ((c = first ∧ answer = ((ask first).start s).1) ∨
        ∃ later, ps.Exchange ((ask first).start s).2 contexts later ∧ (c, answer) ∈ later) := by
  cases h with
  | unseated => cases hanswer
  | failed hplayer hless hask hfirst =>
      cases List.mem_singleton.1 hanswer
      exact ⟨_, _, hplayer, hask, .inl ⟨rfl, (congrArg Prod.fst hfirst).symm⟩⟩
  | answered hplayer hless hask hfirst hrest =>
      refine ⟨_, _, hplayer, hask, ?_⟩
      rcases List.mem_cons.1 hanswer with heq | hlater
      · cases heq
        exact .inl ⟨rfl, (congrArg Prod.fst hfirst).symm⟩
      · rw [hfirst]
        exact .inr ⟨_, hrest, hlater⟩

/-- Those set apart give the same answers in both groups, if they are asked in both. -/
theorem Isolated.exchange (h : ps.Isolated ps' R apart)
    (hdistinct : contexts.Pairwise fun c d => c.player.alike d.player = false) (hs : R s s')
    (hrecord : ps.Exchange s contexts record) (hrecord' : ps'.Exchange s' contexts record')
    {c : Context} {answer answer' : Except Fault Value} (hanswer : (c, answer) ∈ record)
    (hanswer' : (c, answer') ∈ record') {p : Nat} (hplayer : c.player = .int p)
    (hapart : apart p) : answer = answer' := by
  -- By induction on those who are to be asked: the states before the next one of them is asked are
  -- related again.
  induction contexts generalizing s s' record record' with
  | nil =>
      cases hrecord
      cases hanswer
  | cons first contexts ih =>
      rw [List.pairwise_cons] at hdistinct
      obtain ⟨hfirst, hdistinct⟩ := hdistinct
      obtain ⟨q, ask, hq, hask, hasked⟩ := hrecord.first_or_later hanswer
      -- The first one is asked once only.
      have honce : first ∉ contexts := by
        intro hmem
        have hother := hfirst first hmem
        rw [hq, Value.int_alike, decide_eq_false_iff_not] at hother
        exact hother rfl
      obtain ⟨q', ask', hq', hask', hasked'⟩ := hrecord'.first_or_later hanswer'
      cases hq.symm.trans hq'
      rcases hasked with ⟨rfl, rfl⟩ | ⟨later, hrest, hlater⟩ <;>
        rcases hasked' with ⟨hc, hanswer₂⟩ | ⟨later', hrest', hlater'⟩
      · subst hanswer₂
        cases hq.symm.trans hplayer
        exact (h.alike hask hask' hapart c s s' hs).1
      · exact absurd (hrest'.mem hlater').1 honce
      · exact absurd (hc ▸ (hrest.mem hlater).1) honce
      · exact ih hdistinct (h.after hask hask' first hs) hrest hrest' hlater hlater'

/-- Whoever is asked in one group is asked in the other one, unless someone there does not answer
who is not set apart. -/
theorem Isolated.asked (h : ps.Isolated ps' R apart) (hs : R s s')
    (hrecord : ps.Exchange s contexts record) (hrecord' : ps'.Exchange s' contexts record')
    (hanswered : record'.Answered apart) {c : Context} {answer : Except Fault Value}
    (hanswer : (c, answer) ∈ record) : ∃ answer', (c, answer') ∈ record' := by
  -- A player with a seat in the one group has a seat in the other.
  have hseats {first : Context} {p : Nat} {ask : Context → Run σ Value}
      (hp : first.player = .int p) (hless : (p : Int) < first.numPlayers)
      (hask : ps.ask p = some ask) : ps'.Seats first.numPlayers first.player :=
    ⟨p, hp, hless, by rw [← h.seated, hask]; rfl⟩
  induction hrecord generalizing s' record' with
  | nil => cases hanswer
  | unseated => cases hanswer
  | failed hp hless hask hfirst =>
      cases List.mem_singleton.1 hanswer
      cases hrecord' with
      | unseated hunseated => exact absurd (hseats hp hless hask) hunseated
      | failed => exact ⟨_, List.mem_cons_self ..⟩
      | answered => exact ⟨_, List.mem_cons_self ..⟩
  | @answered s s₁ first p ask move contexts record hp hless hask hfirst hrest ih =>
      cases hrecord' with
      | unseated hunseated => exact absurd (hseats hp hless hask) hunseated
      | @failed _ _ _ q ask' f hq _ hask' hfirst' =>
          cases hp.symm.trans hq
          -- Only someone set apart may fail there, who fails here as well.
          have hapart := hanswered first f (List.mem_cons_self ..) p hp
          have hsame := (h.alike hask hask' hapart first _ _ hs).1
          rw [hfirst, hfirst'] at hsame
          cases hsame
      | @answered _ _ _ q ask' move' _ later hq _ hask' hfirst' hrest' =>
          cases hp.symm.trans hq
          rcases List.mem_cons.1 hanswer with heq | hlater
          · cases heq
            exact ⟨_, List.mem_cons_self ..⟩
          · have hafter := h.after hask hask' first hs
            rw [hfirst, hfirst'] at hafter
            obtain ⟨answer', hmem⟩ := ih hafter hrest'
              (fun d f hd => hanswered d f (List.mem_cons_of_mem _ hd)) hlater
            exact ⟨answer', List.mem_cons_of_mem _ hmem⟩

/-- The record tells what passed. -/
theorem exists_exchange (ps : Participants ω σ) (contexts : List Context) (s : σ)
    (before : Record) :
    ∃ record, ps.Exchange s contexts record ∧
      ((contexts.mapM ps.recorded.answer).start (s, before)).2.2 = record.reverse ++ before := by
  induction contexts generalizing s before with
  | nil => exact ⟨[], .nil s, rfl⟩
  | cons c contexts ih =>
      rw [List.mapM_cons]
      by_cases hseats : ps.Seats c.numPlayers c.player
      · obtain ⟨p, hp, hless, hseated⟩ := hseats
        obtain ⟨ask, hask⟩ := Option.isSome_iff_exists.1 hseated
        have hask' : ps.recorded.ask p =
            some fun c => (ask c).logged fun answer => [(c, answer)] := by
          rw [recorded_ask, hask]
          rfl
        have hasked := Run.start_logged (ask c) (fun answer => [(c, answer)]) s before
        rw [answer_seated hp hless hask']
        rcases hresult : (ask c).start s with ⟨f | move, s'⟩ <;> rw [hresult] at hasked
        · refine ⟨_, .failed hp hless hask hresult contexts, ?_⟩
          rw [Run.start_bind_error hasked]
          rfl
        · obtain ⟨record, hrecord, hrest⟩ := ih s' ((c, .ok move) :: before)
          refine ⟨_, .answered hp hless hask hresult hrecord, ?_⟩
          rw [Run.start_bind_ok hasked, List.reverse_cons, List.append_assoc]
          refine Eq.trans ?_ hrest
          show ((contexts.mapM ps.recorded.answer >>= _).start
            (s', (c, .ok move) :: before)).2.2 = _
          rcases hrun : (contexts.mapM ps.recorded.answer).start
            (s', (c, .ok move) :: before) with ⟨f | moves, s''⟩
          · rw [Run.start_bind_error hrun]
          · rw [Run.start_bind_ok hrun]
            rfl
      · have hunseated : ¬ ps.recorded.Seats c.numPlayers c.player := by rwa [recorded_seats]
        obtain ⟨f, hanswer⟩ := answer_unseated hunseated
        rw [hanswer]
        exact ⟨[], .unseated hseats s contexts, rfl⟩

end Participants

namespace Walk

variable {ω σ : Type} {ps ps' : Participants ω σ} {R : σ → σ → Prop}
  {apart : Nat → Prop} {numPlayers : Int} {transcript : Transcript} {n : Simultaneous} {s s' : σ}

/-- What everyone who is asked at a decision of several players is shown and answers. -/
def record (ps : Participants ω σ) (numPlayers : Int) (transcript : Transcript)
    (n : Simultaneous) (s : σ) : Record :=
  ((decideTogether ps.recorded numPlayers transcript n).start (s, [])).2.2

/-- Where every player has a move to choose, the record tells what passes until someone does not
answer, legally or not. -/
theorem exists_exchange_record (ps : Participants ω σ) (numPlayers : Int) (transcript : Transcript)
    {n : Simultaneous} (h : n.checkMoves = .ok ()) (s : σ) :
    ∃ exchanged, ps.Exchange s (n.seats.map (n.context numPlayers transcript)) exchanged ∧
      record ps numPlayers transcript n s = exchanged.reverse := by
  obtain ⟨exchanged, hexchange, hexchanged⟩ :=
    ps.exists_exchange (n.seats.map (n.context numPlayers transcript)) s []
  refine ⟨exchanged, hexchange, ?_⟩
  rw [List.mapM_map, List.append_nil, Function.comp_def] at hexchanged
  unfold record decideTogether
  rw [h, Run.liftM_ok, pure_bind, ← hexchanged]
  rcases hrun : (n.seats.mapM fun seat =>
    ps.recorded.answer (n.context numPlayers transcript seat)).start (s, []) with
    ⟨f | moves, s', asked⟩
  · rw [Run.start_bind_error hrun]
  · rw [Run.start_bind_ok hrun]
    -- Whether the moves are legal is found out after everyone was asked.
    cases n.checkLegal moves <;> rfl

/-- Where a player has no move to choose, nobody is asked. -/
theorem record_eq_nil (ps : Participants ω σ) (numPlayers : Int) (transcript : Transcript)
    {n : Simultaneous} {f : Fault} (h : n.checkMoves = .error f) (s : σ) :
    record ps numPlayers transcript n s = [] := by
  unfold record decideTogether
  rw [h]
  rfl

/-- Whoever is asked under the same number is shown the same. -/
theorem context_unique {c c' : Context}
    (hc : c ∈ n.seats.map (n.context numPlayers transcript))
    (hc' : c' ∈ n.seats.map (n.context numPlayers transcript)) {p : Nat}
    (hplayer : c.player = .int p) (hplayer' : c'.player = .int p) : c = c' := by
  obtain ⟨seat, hseat, rfl⟩ := List.mem_map.1 hc
  obtain ⟨seat', hseat', rfl⟩ := List.mem_map.1 hc'
  by_contra hne
  have : Std.Symm fun a b : Seat => a.player.alike b.player = false := ⟨fun a b hab =>
    Bool.eq_false_iff.2 fun hba => Bool.eq_false_iff.1 hab (Value.alike_symm hba)⟩
  have hother := n.distinct.forall hseat hseat' fun heq => hne (heq ▸ rfl)
  have hseats : seat.player = .int p ∧ seat'.player = .int p := ⟨hplayer, hplayer'⟩
  rw [hseats.1, hseats.2, Value.int_alike, decide_eq_false_iff_not] at hother
  exact hother rfl

/-- From related states, the records of a decision are the same but for what those answer who are
not set apart. -/
theorem record_isolated (hps : ps.Isolated ps' R apart) (hs : R s s') :
    Record.Isolated (n.seats.map (n.context numPlayers transcript)) apart
      (record ps numPlayers transcript n s) (record ps' numPlayers transcript n s') := by
  cases hchecked : n.checkMoves with
  | error f =>
      rw [record_eq_nil ps numPlayers transcript hchecked, record_eq_nil ps' numPlayers transcript
        hchecked]
      constructor <;> intros <;> contradiction
  | ok =>
      obtain ⟨exchanged, hexchange, hrecord⟩ :=
        exists_exchange_record ps numPlayers transcript hchecked s
      obtain ⟨exchanged', hexchange', hrecord'⟩ :=
        exists_exchange_record ps' numPlayers transcript hchecked s'
      have hdistinct : (n.seats.map (n.context numPlayers transcript)).Pairwise
          fun c d => c.player.alike d.player = false := List.pairwise_map.2 n.distinct
      rw [hrecord, hrecord']
      constructor <;> simp only [List.mem_reverse]
      case known => exact fun h => (hexchange.mem h).1
      case asked =>
        intro c answer hanswered h
        refine hps.asked hs hexchange hexchange' (fun d f hd => ?_) h
        exact hanswered d f (List.mem_reverse.2 hd)
      case shown =>
        intro c c' answer answer' h h' hplayer
        obtain ⟨hmem, p, hp⟩ := hexchange.mem h
        exact context_unique hmem (hexchange'.mem h').1 hp (hplayer ▸ hp)
      case alike =>
        exact fun h h' _ hp hapart => hps.exchange hdistinct hs hexchange hexchange' h h' hp hapart

end Walk

/-- Up to a decision of several players, two plays have followed the same keys. Then they have got
to the same place with the same transcript, and what passes there is the same in both of them but
for what those answer who are not set apart. -/
def Tree.Isolates {ω σ : Type} [Scale ω] (t : Tree ω σ) (ps ps' : Participants ω σ)
    (R : σ → σ → Prop) (apart : Nat → Prop) (numPlayers maxDepth : Int) : Prop :=
  ∀ (root : t.Position) (s s' s₁ s₁' : σ) (keys : List Value) (w w' : Walk t.Position)
    (n : Simultaneous), R s s' →
    Walk.Follows t ps numPlayers maxDepth (Walk.start t root) s keys w s₁ →
    Walk.Follows t ps' numPlayers maxDepth (Walk.start t root) s' keys w' s₁' →
    t.node w.position = .simultaneous n →
    w' = w ∧
      let contexts := (t.node w.position).contexts numPlayers w.transcript
      let record := Walk.record ps numPlayers w.transcript n s₁
      let record' := Walk.record ps' numPlayers w'.transcript n s₁'
      record.Isolated contexts apart record' ∧ record'.Isolated contexts apart record

section Repeated

variable {ω σ : Type} [Scale ω] {g : Game ω σ} {r : Repetition σ} {R : σ → σ → Prop}

/-- From related states a game is begun at the same root, and its rules lead to the same
positions. -/
structure Game.Consistent (g : Game ω σ) (R : σ → σ → Prop) : Prop where
  tree : g.tree.Consistent R
  root : Run.Same R g.root g.root

/-- From related states a history ends the repetition or it does not. -/
def Repetition.Consistent (r : Repetition σ) (R : σ → σ → Prop) : Prop :=
  ∀ stop, r.stop = some stop → ∀ h, Run.Same R (stop h) (stop h)

theorem Repetition.isFinished_same (hr : r.Consistent R) (h : History) :
    Run.Same R (r.isFinished h) (r.isFinished h) := by
  unfold isFinished
  cases hstop : r.stop with
  | none => exact .ite (.pure _) (.pure _)
  | some stop => exact .ite (.pure _) (.bind (hr stop hstop h) fun _ => .pure _)

theorem Repetition.settle_same (hg : g.Consistent R) (hr : r.Consistent R) (further : Nat)
    (p : g.tree.Position) (h : History) (t : Transcript) :
    Run.Same R (r.settle g further p h t) (r.settle g further p h t) := by
  induction further using Nat.strongRecOn generalizing p h t with
  | ind further ih =>
      rcases (g.tree.node p).goesOn_or with ⟨e, hnode⟩ | ⟨v, hnode⟩ | hnode
      · rw [settle_end r g hnode]
        refine .bind (.liftM _) fun o => .bind (isFinished_same hr _) fun finished => ?_
        refine .ite (.bind (.liftM _) fun _ => .pure _) ?_
        cases further with
        | zero => exact .throw _
        | succ further =>
            exact .bind hg.root fun q => ih further (Nat.lt_succ_self further) q _ _
      · rw [settle_stray hnode]
        exact .throw _
      · rw [settle_goesOn hnode]
        exact .pure _

/-- The rules of a repeated game are as consistent as those of the stage game. -/
theorem Game.repeatedTree_consistent (hg : g.Consistent R) (hr : r.Consistent R) :
    (g.repeatedTree r).Consistent R := by
  intro P key
  cases P with
  | within p h t =>
      exact .bind (hg.tree.follow p key) fun q =>
        .bind (Repetition.settle_same hg hr _ q h _) fun _ => .pure _
  | _ => exact .pure _

end Repeated

/-- Moves made at once are isolated from each other: in every tree, and in the tree of a repeated
game in whatever round. -/
theorem simultaneous_moves_are_isolated {ω σ : Type} [Scale ω] {ps ps' : Participants ω σ}
    {R : σ → σ → Prop} {apart : Nat → Prop} (hps : ps.Isolated ps' R apart)
    (numPlayers maxDepth : Int) :
    (∀ t : Tree ω σ, t.Consistent R → t.Isolates ps ps' R apart numPlayers maxDepth) ∧
      ∀ (g : Game ω σ) (r : Repetition σ), g.Consistent R → r.Consistent R →
        (g.repeatedTree r).Isolates ps ps' R apart numPlayers maxDepth := by
  have hisolates (t : Tree ω σ) (ht : t.Consistent R) :
      t.Isolates ps ps' R apart numPlayers maxDepth := by
    intro root s s' s₁ s₁' keys w w' n hs h h' hnode
    obtain ⟨rfl, hs₁⟩ := h.isolated ht hps h' hs
    rw [hnode]
    exact ⟨rfl, Walk.record_isolated hps hs₁, Walk.record_isolated hps.symm hs₁⟩
  exact ⟨hisolates, fun g r hg hr => hisolates _ (Game.repeatedTree_consistent hg hr)⟩

/-! ### Strategies of a session -/

namespace Session

variable {μ ω ν : Type} [Scale ω] {apart : Nat → Prop} {s s' : Session μ ω ν} {place p : Nat}

/-- Two sessions have the same strategies at these places, and these strategies draw nothing. -/
def AgreeAt (apart : Nat → Prop) (s s' : Session μ ω ν) : Prop :=
  ∀ p, apart p → s'.strategies[p]? = s.strategies[p]? ∧
    ∀ x, s.strategies[p]? = some x → x.drawsNothing = true

/-- Whoever is asked, the strategies at other places stay as they are. -/
theorem ask_other (h : place ≠ p) (c : Context) (s : Session μ ω ν) :
    ((ask place c).start s).2.strategies[p]? = s.strategies[p]? := by
  cases hplace : s.strategies[place]? with
  | none => rw [start_ask_none hplace]
  | some x =>
      rw [start_ask hplace]
      exact List.getElem?_set_ne h

/-- Two sessions that agree at a place get the same answer there, and agree at it from then on. -/
theorem ask_same (hs : AgreeAt apart s s') (hplace : apart place) (c : Context) :
    ((ask place c).start s).1 = ((ask place c).start s').1 ∧
      ((ask place c).start s').2.strategies[place]? =
        ((ask place c).start s).2.strategies[place]? ∧
      ∀ x, ((ask place c).start s).2.strategies[place]? = some x → x.drawsNothing = true := by
  obtain ⟨hsame, hdraws⟩ := hs place hplace
  cases hfound : s.strategies[place]? with
  | none =>
      rw [hfound] at hsame
      rw [start_ask_none hfound, start_ask_none hsame]
      exact ⟨rfl, hsame.trans hfound.symm, hdraws⟩
  | some x =>
      rw [hfound] at hsame
      obtain ⟨hnext, hafter⟩ := x.next_kept c s.generator s'.generator (hdraws x hfound)
      have hless := (List.getElem?_eq_some_iff.1 hfound).1
      have hless' := (List.getElem?_eq_some_iff.1 hsame).1
      rw [start_ask hfound, start_ask hsame]
      simp only [List.getElem?_set_self hless, List.getElem?_set_self hless', Option.some.injEq]
      refine ⟨by rw [hnext], by rw [hnext], ?_⟩
      rintro y rfl
      exact hafter

/-- Strategies that draw nothing are set apart from all others. -/
theorem isolated (count : Nat) (apart : Nat → Prop) :
    (inOrder (μ := μ) (ω := ω) (ν := ν) count).Isolated (inOrder count) (AgreeAt apart) apart := by
  have hask {player : Nat} {ask : Context → Run (Session μ ω ν) Value}
      (h : (inOrder count).ask player = some ask) : ask = Session.ask player := by
    simp only [inOrder] at h
    split at h <;> cases h
    rfl
  refine ⟨fun _ => rfl, ?_, ?_, fun hs => hs⟩
  · intro player ask ask' h h' hapart c s s' hs
    rw [hask h, hask h']
    obtain ⟨hanswer, hsame⟩ := ask_same hs hapart c
    refine ⟨hanswer, fun p hp => ?_⟩
    by_cases hplayer : player = p
    · subst hplayer
      exact hsame
    · rw [ask_other hplayer, ask_other hplayer]
      exact hs p hp
  · intro player ask ask' h h' hother c s s' hs p hp
    have hplayer : player ≠ p := by
      rintro rfl
      exact hother hp
    rw [hask h, hask h', ask_other hplayer, ask_other hplayer]
    exact hs p hp

end Session

theorem callTwice_consistent {σ : Type} (R : σ → σ → Prop) : (callTwice σ).Consistent R :=
  fun _ _ => .pure _

/-- The first of the callers names a side that the coin does not have. -/
def cheating : Session Unit Rat Unit :=
  { callers with strategies := [.strategy (.pure (.int 7)), .strategy (.pure (.int 1))] }

/-- The walk that has followed the toss of the coin to the first call. -/
def tossed : Walk (callTwice (Session Unit Rat Unit)).Position :=
  (Walk.start (callTwice _) (0 : Nat)).goOn (.int 0) (1 : Nat)

/-- The second one of the callers is not concerned by what the first one does. -/
theorem second_caller_is_isolated :
    callers.AgreeAt (· = 1) cheating ∧
      ∃ s₁ s₁' n, (callTwice _).node tossed.position = .simultaneous n ∧
        Walk.Follows (callTwice _) (Session.inOrder 2) 2 4 (Walk.start (callTwice _) (0 : Nat))
          callers [.int 0] tossed s₁ ∧
        Walk.Follows (callTwice _) (Session.inOrder 2) 2 4 (Walk.start (callTwice _) (0 : Nat))
          cheating [.int 0] tossed s₁' ∧
        (Walk.record (Session.inOrder 2) 2 tossed.transcript n s₁).map (·.2) =
          [.ok (.int 1), .ok (.int 0)] ∧
        (Walk.record (Session.inOrder 2) 2 tossed.transcript n s₁').map (·.2) =
          [.ok (.int 1), .ok (.int 7)] ∧
        (Walk.record (Session.inOrder 2) 2 tossed.transcript n s₁).Isolated
          (n.seats.map (n.context 2 tossed.transcript)) (· = 1)
          (Walk.record (Session.inOrder 2) 2 tossed.transcript n s₁') := by
  have hagree : callers.AgreeAt (· = 1) cheating := by
    rintro p rfl
    refine ⟨rfl, fun x hx => ?_⟩
    cases hx
    rfl
  have hbound : ¬ (4 : Int) ≤
      (Walk.start (callTwice (Session Unit Rat Unit)) (0 : Nat)).enter.visited := by decide
  have hfollows : Walk.Follows (callTwice _) (Session.inOrder 2) 2 4
      (Walk.start (callTwice _) (0 : Nat)) callers [.int 0] tossed _ :=
    .cons hbound rfl (by with_unfolding_all rfl) rfl (.nil _ _)
  have hfollows' : Walk.Follows (callTwice _) (Session.inOrder 2) 2 4
      (Walk.start (callTwice _) (0 : Nat)) cheating [.int 0] tossed _ :=
    .cons hbound rfl (by with_unfolding_all rfl) rfl (.nil _ _)
  refine ⟨hagree, _, _, _, rfl, hfollows, hfollows', by with_unfolding_all rfl,
    by with_unfolding_all rfl, ?_⟩
  exact ((simultaneous_moves_are_isolated (Session.isolated 2 (· = 1)) 2 4).1 _
    (callTwice_consistent _) _ _ _ _ _ _ _ _ _ hagree hfollows hfollows' rfl).2.1

end ExtensiveForm
