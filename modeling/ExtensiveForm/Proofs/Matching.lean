import ExtensiveForm.Proofs.Answers
import ExtensiveForm.Proofs.Profile

/-!
# Decisions at nodes that match

Nodes match when the same players choose among the same moves there, or chance draws alike, and
when their states match. `decide_carries` is the main result: if participants who respect equality
decide at a node, they decide alike at every node that matches it and names its players by whole
numbers, and `offers_of_gives` says that they never decide for anything that is not offered.
-/

namespace ExtensiveForm

namespace Value

/-- The value may equal a whole number although it is none. -/
def passesForInt : Value → Bool
  | .bool _ | .double _ => true
  | _ => false

/-- Unless it only passes for one, what matches a whole number is that number. -/
theorem eq_int_of_alike {n : Int} {w : Value} (h : (int n).alike w = true)
    (hw : w.passesForInt = false) : w = .int n := by
  have hnumber := number?_eq h
  cases w with
  | int m =>
      rw [int_alike, decide_eq_true_eq] at h
      rw [h]
  | undefined mark => cases hnumber
  | bool b => cases hw
  | double x => cases hw
  | _ => cases hnumber

end Value

/-- Equal contexts get answers that match, equal distributions draws that match, and related states
stay related. -/
structure Participants.Respects {ω σ : Type} [Scale ω] (ps : Participants ω σ)
    (R : σ → σ → Prop) : Prop where
  ask {player : Nat} {ask : Context → Run σ Value} (h : ps.ask player = some ask) {c c' : Context}
    (hc : c.agree c' = true) : Run.Carries R (fun v w => v.alike w = true) (ask c) (ask c')
  draw {d e : Distribution ω} (h : d.same e = true) :
    Run.Carries R (fun v w => v.alike w = true) (d.sample ps.uniform) (e.sample ps.uniform)

/-- Chance never draws an element without a positive probability. -/
def Participants.DrawsPossible {ω σ : Type} [Scale ω] (ps : Participants ω σ) : Prop :=
  ∀ (d : Distribution ω) (v : Value), Run.Gives (d.sample ps.uniform) v → v ∈ d.support

/-- Two seats match: one player, and the same moves. -/
def Seat.Match (a b : Seat) : Prop :=
  a.player.alike b.player = true ∧ Value.AllAlike a.moves b.moves

theorem Seat.Match.trans {a b c : Seat} (h : a.Match b) (h' : b.Match c) : a.Match c :=
  ⟨Value.alike_trans h.1 h'.1, h.2.trans h'.2⟩

/-- Two ends of a game match in all that they say. -/
structure Ending.Match (d e : Ending) : Prop where
  payoff : (d.payoff == e.payoff) = true
  profile : (Profile.formOr d.profile).alike (Profile.formOr e.profile) = true
  history : (History.formOr d.history).alike (History.formOr e.history) = true
  state : d.state.alike e.state = true

/-- Two nodes match for these participants. -/
inductive Node.Match {ω σ : Type} [Scale ω] (ps : Participants ω σ) (R : σ → σ → Prop) :
    Node ω → Node ω → Prop
  | simultaneous {m n : Simultaneous} (hseats : List.Forall₂ Seat.Match m.seats n.seats)
      (hstate : m.state.alike n.state = true) : Match ps R (.simultaneous m) (.simultaneous n)
  | sequential {player player' state state' : Value} {moves moves' : List Value}
      (hplayer : player.alike player' = true) (hmoves : Value.AllAlike moves moves')
      (hstate : state.alike state' = true) :
      Match ps R (.sequential player moves state) (.sequential player' moves' state')
  | chance {d e : Distribution ω} {state state' : Value}
      (hdraw : Run.Carries R (fun v w => v.alike w = true) (d.sample ps.uniform)
        (e.sample ps.uniform))
      (hstate : state.alike state' = true) : Match ps R (.chance d state) (.chance e state')
  | terminal {d e : Ending} (h : d.Match e) : Match ps R (.terminal d) (.terminal e)

namespace Ending

theorem Match.of_agree {d e : Ending} (h : d.agree e = true) : d.Match e := by
  simp only [agree, Bool.and_eq_true] at h
  obtain ⟨⟨⟨hpayoff, hprofile⟩, hhistory⟩, hstate⟩ := h
  exact ⟨hpayoff, Profile.formOr_alike hprofile, History.formOr_alike hhistory, hstate⟩

theorem Match.trans {d e f : Ending} (h : d.Match e) (h' : e.Match f) : d.Match f where
  payoff := Payoff.beq_iff.2 ((Payoff.beq_iff.1 h.payoff).trans (Payoff.beq_iff.1 h'.payoff))
  profile := Form.alike_trans h.profile h'.profile
  history := Form.alike_trans h.history h'.history
  state := Value.alike_trans h.state h'.state

/-- Ends that match come to profiles that match after equal transcripts. -/
theorem Match.profileAfter {d e : Ending} (h : d.Match e) {t t' : Transcript}
    (ht : (t == t') = true) (hnames : t'.NamesPlayers) {numPlayers : Int}
    {profile : Option Profile} (hprofile : d.profileAfter t numPlayers = .ok profile) :
    ∃ profile', e.profileAfter t' numPlayers = .ok profile' ∧
      (Profile.formOr profile).alike (Profile.formOr profile') = true := by
  have halike := h.profile
  unfold Ending.profileAfter at hprofile ⊢
  cases hd : d.profile with
  | some p =>
      cases he : e.profile with
      | some q =>
          rw [hd] at hprofile
          rw [hd, he] at halike
          cases hprofile
          exact ⟨some q, rfl, halike⟩
      | none =>
          rw [hd, he] at halike
          cases p
          cases halike
  | none =>
      cases he : e.profile with
      | some q =>
          rw [hd, he] at halike
          cases q
          cases halike
      | none =>
          rw [hd] at hprofile
          exact Transcript.profile?_of_beq ht hnames hprofile

/-- Ends that match have equal outcomes after equal transcripts, unless the second transcript names
a player by a double. -/
theorem Match.outcome {d e : Ending} (h : d.Match e) {t t' : Transcript} (ht : (t == t') = true)
    (hnames : t'.NamesPlayers) {numPlayers : Int} {o : Outcome}
    (ho : d.outcome t numPlayers = .ok o) :
    ∃ o', e.outcome t' numPlayers = .ok o' ∧ (o == o') = true := by
  have hlength := (Payoff.beq_iff.1 h.payoff).length_eq
  obtain ⟨hsize, hpayoff, htranscript, hhistory, hprofile⟩ := outcome_eq_ok ho
  obtain ⟨profile', hprofile', halike⟩ := h.profileAfter ht hnames hprofile
  rw [hlength] at hsize
  refine ⟨⟨e.payoff, profile', t', e.history⟩, ?_, ?_⟩
  · rw [outcome_eq hsize, hprofile']
    rfl
  · refine Outcome.beq_of_parts ?_ halike ?_ ?_
    · rw [hpayoff]
      exact h.payoff
    · rw [htranscript]
      exact ht
    · rw [hhistory]
      exact h.history

end Ending

namespace Node

variable {ω σ : Type} [Scale ω] {ps : Participants ω σ} {R : σ → σ → Prop} {n n' : Node ω}

/-- The players who decide at a node. -/
def players : Node ω → List Value
  | simultaneous n => n.players
  | sequential player _ _ => [player]
  | _ => []

/-- Every player who decides at the node and equals a whole number is one. -/
def NamesPlayers (n : Node ω) : Prop :=
  ∀ player ∈ n.players, player.passesForInt = false

theorem seats_match {as bs : List Seat}
    (hplayers : Value.AllAlike (as.map (·.player)) (bs.map (·.player)))
    (hmoves : Value.AllAlike ((as.map (·.moves)).map .tuple) ((bs.map (·.moves)).map .tuple)) :
    List.Forall₂ Seat.Match as bs := by
  induction as generalizing bs with
  | nil =>
      cases bs with
      | nil => exact .nil
      | cons b bs => cases hplayers
  | cons a as ih =>
      cases bs with
      | nil => cases hplayers
      | cons b bs =>
          rw [Value.AllAlike] at hplayers hmoves
          simp only [List.map_cons, List.forall₂_cons] at hplayers hmoves
          exact .cons ⟨hplayers.1, Value.tuple_alike.1 hmoves.1⟩ (ih hplayers.2 hmoves.2)

/-- Nodes that agree match. -/
theorem match_of_agree (hrespects : ps.Respects R) (h : n.agree n' = .ok true) :
    n.Match ps R n' := by
  cases n <;> cases n' <;> simp only [agree, Except.ok.injEq, Bool.and_eq_true] at h
  case simultaneous.simultaneous m n =>
      obtain ⟨⟨hstate, hplayers⟩, hmoves⟩ := h
      exact .simultaneous (seats_match (Value.tuple_beq.1 hplayers) (Value.tuple_beq.1 hmoves))
        (Value.alike_of_beq hstate)
  case sequential.sequential =>
      obtain ⟨⟨hstate, hplayer⟩, hmoves⟩ := h
      exact .sequential hplayer (Value.tuple_beq.1 hmoves) (Value.alike_of_beq hstate)
  case chance.chance =>
      -- Distributions do not have to be equal later on. All that counts is that they draw alike.
      exact .chance (hrespects.draw h.2) (Value.alike_of_beq h.1)
  case terminal.terminal d e =>
      exact .terminal (.of_agree h)
  case stray.stray => split at h <;> cases h
  all_goals cases h

/-- Nodes that match the same node match each other. -/
theorem Match.trans (hR : Equivalence R) {n₁ n₂ n₃ : Node ω} (h : n₁.Match ps R n₂)
    (h' : n₂.Match ps R n₃) : n₁.Match ps R n₃ := by
  cases h with
  | simultaneous hseats hstate =>
      cases h' with
      | simultaneous hseats' hstate' =>
          exact .simultaneous (forall₂_trans hseats hseats' fun _ _ _ => Seat.Match.trans)
            (Value.alike_trans hstate hstate')
  | sequential hplayer hmoves hstate =>
      cases h' with
      | sequential hplayer' hmoves' hstate' =>
          exact .sequential (Value.alike_trans hplayer hplayer') (hmoves.trans hmoves')
            (Value.alike_trans hstate hstate')
  | chance hdraw hstate =>
      cases h' with
      | chance hdraw' hstate' =>
          exact .chance (hdraw.trans hR (fun _ _ _ => Value.alike_trans) hdraw')
            (Value.alike_trans hstate hstate')
  | terminal h =>
      cases h' with
      | terminal h' => exact .terminal (h.trans h')

theorem Match.state (h : n.Match ps R n') : n.state.alike n'.state = true := by
  cases h with
  | simultaneous hseats hstate => exact hstate
  | sequential hplayer hmoves hstate => exact hstate
  | chance hdraw hstate => exact hstate
  | terminal h => exact h.state

omit [Scale ω] in
theorem zipWith_alike {as bs : List Seat} (h : List.Forall₂ Seat.Match as bs)
    {moves moves' : List Value} (hmoves : Value.AllAlike moves moves') :
    List.Forall₂ Ply.Alike (List.zipWith (fun seat move => ⟨seat.player, move⟩) as moves)
      (List.zipWith (fun seat move => ⟨seat.player, move⟩) bs moves') := by
  induction h generalizing moves moves' with
  | nil => exact .nil
  | cons hhead _ ih =>
      cases hmoves with
      | nil => exact .nil
      | cons hmove htail => exact .cons ⟨hhead.1, hmove⟩ (ih htail)

/-- Keys that match make plies that match at nodes that match. -/
theorem Match.plies (h : n.Match ps R n') {key key' : Value} (hkey : n.lookupKey key = .ok key)
    (halike : key.alike key' = true) : List.Forall₂ Ply.Alike (n.plies key) (n'.plies key') := by
  cases h with
  | @simultaneous m n hseats hstate =>
      -- A key of a joint move that is no tuple cannot be looked up.
      obtain ⟨moves, rfl⟩ : ∃ moves, key = .tuple moves := by
        cases hitems : key.items <;> simp only [lookupKey, hitems] at hkey <;> cases hkey
        exact ⟨_, rfl⟩
      obtain ⟨moves', rfl, hmoves⟩ := Value.tuple_of_alike halike
      exact zipWith_alike hseats hmoves
  | sequential hplayer hmoves hstate => exact .cons ⟨hplayer, halike⟩ .nil
  | chance hdraw hstate => exact .cons ⟨rfl, halike⟩ .nil
  | terminal h => exact .nil

/-- No ply of a node that names its players by whole numbers is that of a double. -/
theorem NamesPlayers.plies (h : n.NamesPlayers) {key : Value} {p : Ply} (hp : p ∈ n.plies key)
    (x : Float) : p.player ≠ .double x := by
  intro hdouble
  cases n with
  | simultaneous n =>
      cases key with
      | tuple moves =>
          have hname := h p.player (player_mem_of_zipWith hp)
          rw [hdouble] at hname
          cases hname
      | _ => cases hp
  | sequential player moves state =>
      rw [plies, List.mem_singleton] at hp
      subst hp
      have hname := h player (List.mem_singleton_self _)
      rw [show player = .double x from hdouble] at hname
      cases hname
  | chance d state =>
      rw [plies, List.mem_singleton] at hp
      subst hp
      cases hdouble
  | terminal e => cases hp
  | stray v => cases hp

end Node

/-- What matches a player of the game is that player, unless it only passes for one. -/
theorem checkPlayer_of_alike {player player' : Value} {numPlayers : Int} {index : Nat}
    (halike : player.alike player' = true) (hname : player'.passesForInt = false)
    (h : checkPlayer player numPlayers = .ok index) :
    checkPlayer player' numPlayers = .ok index := by
  cases player with
  | int p => rw [Value.eq_int_of_alike halike hname, h]
  | _ => cases h

namespace Walk

variable {ω σ : Type} [Scale ω] {ps : Participants ω σ} {R : σ → σ → Prop} {n n' : Node ω}
  {numPlayers : Int} {t t' : Transcript} {c c' : Context}

theorem answer_carries (hrespects : ps.Respects R) (hc : c.agree c' = true)
    (hname : c'.player.passesForInt = false) :
    Run.Carries R (fun v w => v.alike w = true) (ps.answer c) (ps.answer c') := by
  have hparts := hc
  simp only [Context.agree, Bool.and_eq_true, beq_iff_eq] at hparts
  obtain ⟨⟨⟨⟨hplayer, -⟩, hnum⟩, -⟩, -⟩ := hparts
  unfold Participants.answer
  rw [hnum]
  refine .bind (Q := Eq)
    (.liftM fun player h => ⟨player, checkPlayer_of_alike hplayer hname h, rfl⟩) ?_
  rintro player _ rfl
  cases hask : ps.ask player with
  | none => exact .throw _ _
  | some ask => exact hrespects.ask hask hc

theorem decideAlone_carries (hrespects : ps.Respects R) (hc : c.agree c' = true)
    (hname : c'.player.passesForInt = false) {moves : List Value}
    (hoffered : c.offered = .tuple moves) :
    Run.Carries R (fun v w => v.alike w = true) (decideAlone ps c) (decideAlone ps c') := by
  have hparts := hc
  simp only [Context.agree, Bool.and_eq_true, beq_iff_eq] at hparts
  obtain ⟨⟨⟨⟨hplayer, hmoves⟩, hnum⟩, -⟩, -⟩ := hparts
  rw [hoffered] at hmoves
  obtain ⟨moves', hoffered', hmoves⟩ := Value.tuple_of_alike hmoves
  unfold decideAlone
  rw [hnum]
  refine .bind (Q := Eq)
    (.liftM fun player h => ⟨player, checkPlayer_of_alike hplayer hname h, rfl⟩) ?_
  rintro player _ rfl
  cases hask : ps.ask player with
  | none => exact .throw _ _
  | some ask =>
      simp only [Run.throw_bind, Context.availableMoves, hoffered, hoffered']
      cases hmoves with
      | nil => exact .throw _ _
      | cons hhead htail =>
          refine .bind (hrespects.ask hask hc) fun move move' hmove => ?_
          refine .bind (Q := fun legal legal' => legal = true → legal' = true)
            (.liftM fun legal h => ⟨_, Context.isValidMove_of_tuple hoffered', ?_⟩) ?_
          -- A move that is legal stays legal, since both it and the offered ones match.
          · rw [Context.isValidMove_of_tuple hoffered] at h
            cases h
            exact Value.AllAlike.isAmong (.cons hhead htail) hmove
          · intro legal legal' hlegal
            cases legal with
            | true =>
                rw [hlegal rfl]
                exact .pure hmove
            | false => exact .throw _ _

theorem mapM_answer_carries (hrespects : ps.Respects R) {m n : Simultaneous}
    (hseats : List.Forall₂ Seat.Match m.seats n.seats) (hstate : m.state.alike n.state = true)
    (hnames : ∀ seat ∈ n.seats, seat.player.passesForInt = false) (ht : (t == t') = true) :
    Run.Carries R Value.AllAlike
      (m.seats.mapM fun seat => ps.answer (m.context numPlayers t seat))
      (n.seats.mapM fun seat => ps.answer (n.context numPlayers t' seat)) := by
  refine .mapM (forall₂_mem hseats) fun seat seat' hseat => ?_
  refine answer_carries hrespects ?_ (hnames seat' hseat.2)
  simp only [Context.agree, Simultaneous.context, Bool.and_eq_true, beq_iff_eq]
  exact ⟨⟨⟨⟨hseat.1.1, Value.tuple_alike.2 hseat.1.2⟩, trivial⟩, hstate⟩, ht⟩

omit [Scale ω] in
theorem checkMoves_of_match {m n : Simultaneous} (hseats : List.Forall₂ Seat.Match m.seats n.seats)
    (h : m.checkMoves = .ok ()) : n.checkMoves = .ok () := by
  unfold Simultaneous.checkMoves at h ⊢
  refine forM_of_forall₂ hseats (fun seat seat' hseat h => ?_) h
  cases hmoves : seat.moves with
  | nil =>
      rw [hmoves] at h
      cases h
  | cons move moves =>
      have halike := hseat.2
      rw [hmoves] at halike
      cases hmoves' : seat'.moves with
      | nil =>
          rw [hmoves'] at halike
          cases halike
      | cons move' moves' => rfl

omit [Scale ω] in
theorem checkLegal_of_match {m n : Simultaneous} (hseats : List.Forall₂ Seat.Match m.seats n.seats)
    {moves moves' : List Value} (hmoves : Value.AllAlike moves moves')
    (h : m.checkLegal moves = .ok ()) : n.checkLegal moves' = .ok () := by
  unfold Simultaneous.checkLegal at h ⊢
  refine forM_of_forall₂ (forall₂_zip hseats hmoves) (fun choice choice' hchoice h => ?_) h
  by_cases hlegal : choice.2.isAmong choice.1.moves
  · simp only [hchoice.1.2.isAmong hchoice.2 hlegal, if_true]
    rfl
  · simp only [hlegal] at h
    cases h

theorem decideTogether_carries (hrespects : ps.Respects R) {m n : Simultaneous}
    (hseats : List.Forall₂ Seat.Match m.seats n.seats) (hstate : m.state.alike n.state = true)
    (hnames : ∀ seat ∈ n.seats, seat.player.passesForInt = false) (ht : (t == t') = true) :
    Run.Carries R Value.AllAlike (decideTogether ps numPlayers t m)
      (decideTogether ps numPlayers t' n) := by
  unfold decideTogether
  refine .bind (Q := fun _ _ => True)
    (.liftM fun _ h => ⟨(), checkMoves_of_match hseats h, trivial⟩) fun _ _ _ => ?_
  refine .bind (mapM_answer_carries hrespects hseats hstate hnames ht) fun moves moves' hmoves => ?_
  refine .bind (Q := fun _ _ => True)
    (.liftM fun _ h => ⟨(), checkLegal_of_match hseats hmoves h, trivial⟩) fun _ _ _ => ?_
  exact .pure hmoves

/-- Participants who respect equality decide alike at nodes that match, if the second node names
its players by whole numbers. -/
theorem decide_carries (hrespects : ps.Respects R) (h : n.Match ps R n') (hnames : n'.NamesPlayers)
    (ht : (t == t') = true) :
    Run.Carries R (fun v w => v.alike w = true) (decide ps numPlayers t n)
      (decide ps numPlayers t' n') := by
  cases h with
  | simultaneous hseats hstate =>
      refine .bind (decideTogether_carries hrespects hseats hstate (fun seat hseat => ?_) ht)
        fun moves moves' hmoves => .pure (Value.tuple_alike.2 hmoves)
      exact hnames _ (List.mem_map_of_mem hseat)
  | sequential hplayer hmoves hstate =>
      refine decideAlone_carries hrespects ?_ (hnames _ (List.mem_singleton_self _)) rfl
      simp only [Context.agree, Bool.and_eq_true, beq_iff_eq]
      exact ⟨⟨⟨⟨hplayer, Value.tuple_alike.2 hmoves⟩, trivial⟩, hstate⟩, ht⟩
  | chance hdraw hstate => exact hdraw
  | terminal h => exact .throw _ _

end Walk

/-! ### What is decided for -/

/-- A choice takes one member of each list. -/
theorem mem_choices {α : Type} {sets : List (List α)} {choice : List α} :
    choice ∈ choices sets ↔ List.Forall₂ (fun xs x => x ∈ xs) sets choice := by
  induction sets generalizing choice with
  | nil => rw [choices, List.mem_singleton, List.forall₂_nil_left_iff]
  | cons xs sets ih =>
      simp only [choices, List.mem_flatMap, List.mem_map, ih]
      constructor
      · rintro ⟨x, hx, rest, hrest, rfl⟩
        exact .cons hx hrest
      · intro h
        cases h with
        | cons hx hrest => exact ⟨_, hx, _, hrest, rfl⟩

/-- Where there is something to choose from each list, any member of one is chosen at times. -/
theorem exists_choice_mem {α : Type} {sets : List (List α)} (h : ∀ xs ∈ sets, xs ≠ [])
    {xs : List α} (hxs : xs ∈ sets) {x : α} (hx : x ∈ xs) :
    ∃ choice ∈ choices sets, x ∈ choice := by
  induction sets with
  | nil => cases hxs
  | cons ys sets ih =>
      rw [List.forall_mem_cons] at h
      rcases List.mem_cons.1 hxs with rfl | hxs
      · obtain ⟨rest, hrest⟩ :=
          exists_forall₂ fun ys hys => List.exists_mem_of_ne_nil ys (h.2 ys hys)
        exact ⟨x :: rest, mem_choices.2 (.cons hx hrest), List.mem_cons_self⟩
      · obtain ⟨choice, hchoice, hmem⟩ := ih h.2 hxs
        obtain ⟨y, hy⟩ := List.exists_mem_of_ne_nil ys h.1
        exact ⟨y :: choice, mem_choices.2 (.cons hy (mem_choices.1 hchoice)),
          List.mem_cons_of_mem y hmem⟩

/-- If every move is among those of its set, then there is a choice of moves that matches them. -/
theorem exists_choice_of_among {sets : List (List Value)} {moves : List Value}
    (h : List.Forall₂ (fun set move => move.isAmong set = true) sets moves) :
    ∃ choice ∈ choices sets, Value.AllAlike moves choice := by
  induction h with
  | nil => exact ⟨[], List.mem_singleton_self _, .nil⟩
  | @cons set move sets moves hmove _ ih =>
      obtain ⟨choice, hchoice, halike⟩ := ih
      obtain ⟨move', hmem, hmove'⟩ := List.any_eq_true.1 hmove
      refine ⟨move' :: choice, ?_, .cons hmove' halike⟩
      exact List.mem_flatMap.2 ⟨move', hmem, List.mem_map_of_mem hchoice⟩

/-- So there is one where every move is one of those of its seat. -/
theorem exists_choice {seats : List Seat} {moves : List Value}
    (h : List.Forall₂ (fun seat move => move.isAmong seat.moves = true) seats moves) :
    ∃ choice ∈ choices (seats.map (·.moves)), Value.AllAlike moves choice :=
  exists_choice_of_among (List.forall₂_map_left_iff.2 h)

/-- The choices from sets that match match one by one. -/
theorem choices_alike {sets sets' : List (List Value)}
    (h : List.Forall₂ Value.AllAlike sets sets') :
    List.Forall₂ Value.AllAlike (choices sets) (choices sets') := by
  induction h with
  | nil => exact .cons .nil .nil
  | cons hhead _ ih =>
      refine List.rel_flatMap hhead fun move move' hmove => ?_
      rw [List.forall₂_map_left_iff, List.forall₂_map_right_iff]
      exact ih.imp fun choice choice' hchoice => .cons hmove hchoice

namespace Node

variable {ω σ : Type} [Scale ω] {ps : Participants ω σ} {R : σ → σ → Prop} {n n' : Node ω}
  {numPlayers : Int} {t : Transcript} {key : Value}

/-- The key is one that may be followed from a node, or it matches one. -/
def Offers (n : Node ω) (key : Value) : Prop :=
  ∃ k ∈ n.keys, key = k ∨ key.alike k = true

/-- A key that may be followed is looked up as it is. -/
theorem lookupKey_of_mem_keys (h : key ∈ n.keys) : n.lookupKey key = .ok key := by
  cases n with
  | simultaneous n =>
      obtain ⟨moves, -, rfl⟩ := List.mem_map.1 h
      rfl
  | sequential player moves state => rfl
  | chance d state => rfl
  | terminal e => cases h
  | stray v => cases h

omit [Scale ω] in
/-- Seats that match offer keys that match. -/
theorem keys_of_seats {m n : Simultaneous} (hseats : List.Forall₂ Seat.Match m.seats n.seats) :
    Value.AllAlike ((choices m.moves).map .tuple) ((choices n.moves).map .tuple) := by
  have hsets : List.Forall₂ Value.AllAlike m.moves n.moves :=
    List.forall₂_map_left_iff.2 (List.forall₂_map_right_iff.2 (hseats.imp fun _ _ h => h.2))
  refine List.forall₂_map_left_iff.2 (List.forall₂_map_right_iff.2 ?_)
  exact (choices_alike hsets).imp fun _ _ => Value.tuple_alike.2

/-- Nodes that match offer keys that match, but for the moves of chance. -/
theorem Match.keys (h : n.Match ps R n') (hchance : ∀ d s, n ≠ .chance d s) :
    Value.AllAlike n.keys n'.keys := by
  cases h with
  | simultaneous hseats hstate => exact keys_of_seats hseats
  | sequential hplayer hmoves hstate => exact hmoves
  | chance hdraw hstate => exact absurd rfl (hchance _ _)
  | terminal h => exact .nil

omit [Scale ω] in
theorem legal_of_decideTogether {n : Simultaneous} {moves : List Value}
    (h : Run.Gives (Walk.decideTogether ps numPlayers t n) moves) :
    List.Forall₂ (fun seat move => move.isAmong seat.moves = true) n.seats moves := by
  obtain ⟨s, s', h⟩ := h
  exact (decideTogether_eq_ok_iff.1 h).2.2

omit [Scale ω] in
theorem legal_of_decideAlone {c : Context} {moves : List Value}
    (hoffered : c.offered = .tuple moves) {move : Value}
    (h : Run.Gives (Walk.decideAlone ps c) move) : move.isAmong moves = true := by
  obtain ⟨s, s', h⟩ := h
  exact ((decideAlone_eq_ok_iff hoffered).1 h).2.2

/-- What is decided for is offered. -/
theorem offers_of_gives (hdraws : ps.DrawsPossible)
    (h : Run.Gives (Walk.decide ps numPlayers t n) key) : n.Offers key := by
  cases n with
  | simultaneous n =>
      obtain ⟨s, s', h⟩ := h
      simp only [Walk.decide, Run.start_bind_eq_ok, Run.start_pure] at h
      obtain ⟨moves, s₁, hmoves, heq⟩ := h
      cases heq
      obtain ⟨choice, hchoice, halike⟩ :=
        exists_choice (legal_of_decideTogether ⟨s, _, hmoves⟩)
      exact ⟨.tuple choice, List.mem_map_of_mem hchoice, .inr (Value.tuple_alike.2 halike)⟩
  | sequential player moves state =>
      obtain ⟨move, hmem, halike⟩ := List.any_eq_true.1 (legal_of_decideAlone rfl h)
      exact ⟨move, hmem, .inr halike⟩
  | chance d state => exact ⟨key, hdraws d key h, .inl rfl⟩
  | terminal e =>
      obtain ⟨s, s', h⟩ := h
      cases h
  | stray v =>
      obtain ⟨s, s', h⟩ := h
      cases h

/-- What is decided for at a node is offered at each node that matches it. -/
theorem Match.offers (hmatch : n.Match ps R n') (hR : Equivalence R) (hdraws : ps.DrawsPossible)
    (h : Run.Gives (Walk.decide ps numPlayers t n) key) :
    n'.Offers key := by
  -- The supports of distributions that draw alike need not match, so what chance offers is found by
  -- drawing from the other one.
  by_cases hchance : ∃ d s, n = .chance d s
  · obtain ⟨d, s, rfl⟩ := hchance
    cases hmatch with
    | chance hdraw hstate =>
        obtain ⟨key', hkey', halike⟩ := hdraw.gives hR h
        exact ⟨key', hdraws _ _ hkey', .inr halike⟩
  · have hkeys := hmatch.keys fun d s hnode => hchance ⟨d, s, hnode⟩
    obtain ⟨k, hk, hkey⟩ := offers_of_gives hdraws h
    obtain ⟨k', hk', halike⟩ := exists_of_mem_left hkeys hk
    refine ⟨k', hk', .inr ?_⟩
    rcases hkey with rfl | hkey
    · exact halike
    · exact Value.alike_trans hkey halike

end Node

end ExtensiveForm
