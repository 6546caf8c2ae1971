import Mathlib.Data.List.FinRange
import ExtensiveForm.Proofs.PerPlayer
import ExtensiveForm.Proofs.Replay
import ExtensiveForm.Proofs.Steps

/-!
# The order of players who move at once

Players who move at once are asked one after the other, in the order in which they are given.
`Tree.rearrange` gives them in another order wherever several players decide. The answers arrive in
the other order then, and so do the plies in the transcript.

This makes no difference to players of whom each has a memory apart, and who read the transcript
player by player (`Participants.Separate`): they give the same answers whenever they are asked
(`Answer.perm`), so the same key is decided for (`decide_rearrange`), and the walks through both
trees visit the same positions, while their transcripts stay the same player by player
(`Follows.rearranged`). The main result, `seating_makes_no_difference`, is about strategies of a
session that draw nothing from its generator.
-/

namespace ExtensiveForm

/-! ### Lists in another order -/

/-- A way to rearrange lists: for each length, a permutation of the places. -/
structure Rearrangement where
  places (length : Nat) : Equiv.Perm (Fin length)

namespace Rearrangement

variable {α β : Type} (π : Rearrangement) (xs : List α)

/-- The members of a list in another order. -/
def list (xs : List α) : List α :=
  List.ofFn fun place => xs[π.places xs.length place]

/-- The way back. -/
def inverse : Rearrangement :=
  ⟨fun length => (π.places length).symm⟩

@[simp] theorem length_list : (π.list xs).length = xs.length :=
  List.length_ofFn

theorem list_perm : (π.list xs).Perm xs := by
  have hperm := (π.places xs.length).ofFn_comp_perm xs.get
  rwa [List.ofFn_get] at hperm

/-- Where the places of a list come from depends on its length only. -/
theorem places_congr {m n : Nat} (h : m = n) (place : Fin m) :
    (π.places m place : Nat) = π.places n (Fin.cast h place) := by
  subst h
  rfl

theorem getElem_list {place : Nat} (h : place < (π.list xs).length) :
    (π.list xs)[place] = xs[π.places xs.length ⟨place, π.length_list xs ▸ h⟩] :=
  List.getElem_ofFn h

theorem list_map (f : α → β) : π.list (xs.map f) = (π.list xs).map f := by
  refine List.ext_getElem (by simp) fun place h h' => ?_
  rw [getElem_list, List.getElem_map, getElem_list]
  simp only [Fin.getElem_fin, List.getElem_map]
  congr 2
  exact π.places_congr (List.length_map f) _

@[simp] theorem inverse_list : π.inverse.list (π.list xs) = xs := by
  refine List.ext_getElem (by simp) fun place h h' => ?_
  have hlength : (π.list xs).length = xs.length := π.length_list xs
  have hplace : place < (π.list xs).length := hlength ▸ h'
  have hback : Fin.cast hlength (π.inverse.places (π.list xs).length ⟨place, hplace⟩) =
      (π.places xs.length).symm ⟨place, h'⟩ :=
    Fin.ext (π.inverse.places_congr hlength ⟨place, hplace⟩)
  have hsame : π.places xs.length
      (Fin.cast hlength (π.inverse.places (π.list xs).length ⟨place, hplace⟩)) = ⟨place, h'⟩ := by
    rw [hback, Equiv.apply_symm_apply]
  rw [getElem_list, Fin.getElem_fin, getElem_list, Fin.getElem_fin]
  congr 1
  exact congrArg Fin.val hsame

end Rearrangement

/-- If at most one member of a list is picked, it is picked from the list in any order. -/
theorem filter_eq_of_perm {α : Type} {xs ys : List α} {p : α → Bool} (hperm : xs.Perm ys)
    (hone : xs.Pairwise fun a b => ¬ (p a = true ∧ p b = true)) : ys.filter p = xs.filter p := by
  induction hperm with
  | nil => rfl
  | cons a _ ih => rw [List.filter_cons, List.filter_cons, ih hone.of_cons]
  | swap a b xs =>
      have hboth := (List.pairwise_cons.1 hone).1 a List.mem_cons_self
      simp only [List.filter_cons]
      cases ha : p a <;> cases hb : p b <;> first | rfl | exact absurd ⟨hb, ha⟩ hboth
  | trans hperm _ ih ih' =>
      have hsymm {a b : α} (h : ¬ (p a = true ∧ p b = true)) : ¬ (p b = true ∧ p a = true) :=
        fun hba => h hba.symm
      rw [ih' ((hperm.pairwise_iff hsymm).1 hone), ih hone]

/-! ### Players in another order -/

theorem Value.not_alike_symm {a b : Value} (h : a.alike b = false) : b.alike a = false := by
  rw [Bool.eq_false_iff] at h ⊢
  exact fun hba => h (alike_symm hba)

/-- The same decision, with the players and their moves in another order. -/
def Simultaneous.rearrange (n : Simultaneous) (π : Rearrangement) : Simultaneous where
  seats := π.list n.seats
  state := n.state
  distinct := ((π.list_perm n.seats).pairwise_iff Value.not_alike_symm).2 n.distinct

namespace Node

variable {ω : Type} [Scale ω]

/-- The same node, with players who decide at once in another order. -/
def rearrange (π : Rearrangement) : Node ω → Node ω
  | simultaneous n => simultaneous (n.rearrange π)
  | n => n

/-- The same key, with the moves of players who decide at once in another order. -/
def rearrangeKey (π : Rearrangement) : Node ω → Value → Value
  | simultaneous _, .tuple moves => .tuple (π.list moves)
  | _, key => key

variable {π : Rearrangement} {n : Node ω}

@[simp] theorem rearrange_state : (n.rearrange π).state = n.state := by
  cases n <;> rfl

@[simp] theorem rearrange_goesOn : (n.rearrange π).goesOn = n.goesOn := by
  cases n <;> rfl

@[simp] theorem rearrange_inverse : (n.rearrange π).rearrange π.inverse = n := by
  cases n with
  | simultaneous n =>
      obtain ⟨seats, state, distinct⟩ := n
      simp [rearrange, Simultaneous.rearrange]
  | _ => rfl

/-- A key is put back in the old order. -/
@[simp] theorem rearrangeKey_inverse (key : Value) :
    (n.rearrange π).rearrangeKey π.inverse (n.rearrangeKey π key) = key := by
  cases n with
  | simultaneous n => cases key <;> simp [rearrange, rearrangeKey]
  | _ => rfl

/-- The key under which something is found is found under in the other order, too. -/
theorem lookupKey_rearrangeKey {key found : Value} (h : n.lookupKey key = .ok found) :
    (n.rearrange π).lookupKey (n.rearrangeKey π found) = .ok (n.rearrangeKey π found) := by
  cases n with
  | simultaneous n =>
      obtain ⟨moves, rfl⟩ : ∃ moves, found = .tuple moves := by
        cases hitems : key.items <;> simp only [lookupKey, hitems] at h <;> cases h
        exact ⟨_, rfl⟩
      rfl
  | sequential player moves state => rfl
  | chance d state => rfl
  | terminal e => cases h
  | stray v => cases h

end Node

/-- The same tree, with players who decide at once in another order. Where a key leads is found out
with the key in the old order. -/
def Tree.rearrange {ω σ : Type} [Scale ω] (t : Tree ω σ) (order : t.Position → Rearrangement) :
    Tree ω σ where
  Position := t.Position
  node p := (t.node p).rearrange (order p)
  next p key := t.next p (((t.node p).rearrange (order p)).rearrangeKey (order p).inverse key)

namespace Tree

variable {ω σ : Type} [Scale ω] {t : Tree ω σ} {order : t.Position → Rearrangement}
  {p q : t.Position}
  {key : Value} {s s' : σ}

/-- The states are the same in both orders. -/
theorem rearrange_state (order : t.Position → Rearrangement) (p : t.Position) :
    ((t.rearrange order).node p).state = (t.node p).state :=
  Node.rearrange_state

/-- The key in the other order leads to the same position. -/
theorem follow_rearrange (order : t.Position → Rearrangement)
    (h : (t.follow p key).start s = (.ok q, s')) :
    ∃ found, (t.node p).lookupKey key = .ok found ∧
      ((t.rearrange order).follow p ((t.node p).rearrangeKey (order p) found)).start s =
        (.ok q, s') := by
  obtain ⟨found, hfound, hnext⟩ := follow_eq_ok.1 h
  refine ⟨found, hfound, follow_eq_ok.2 ⟨_, Node.lookupKey_rearrangeKey hfound, ?_⟩⟩
  show (t.next p (((t.node p).rearrange (order p)).rearrangeKey (order p).inverse
    ((t.node p).rearrangeKey (order p) found))).start s = _
  rw [Node.rearrangeKey_inverse]
  exact hnext

/-- No other positions are reached. -/
theorem Reached.of_rearrange {root p : (t.rearrange order).Position}
    (h : (t.rearrange order).Reached root p) : t.Reached root p := by
  induction h with
  | root => exact .root
  | @follow p q key s s' _ hfollow ih =>
      obtain ⟨found, hfound, hnext⟩ := follow_eq_ok.1 hfollow
      have hkey := Node.lookupKey_rearrangeKey (n := (t.node p).rearrange (order p))
        (π := (order p).inverse) hfound
      rw [Node.rearrange_inverse] at hkey
      exact ih.follow (follow_eq_ok.2 ⟨_, hkey, hnext⟩)

/-- A play of the tree that is put back in the old order is a play of the tree. -/
theorem execute_rearrange_inverse (order : t.Position → Rearrangement)
    (ps : Participants ω σ) (numPlayers maxDepth : Int) (visits : Nat) (root : t.Position) :
    execute ((t.rearrange order).rearrange fun p => (order p).inverse) ps numPlayers maxDepth visits
      root = execute t ps numPlayers maxDepth visits root := by
  obtain ⟨Position, node, next⟩ := t
  have hnode : (fun p => ((node p).rearrange (order p)).rearrange (order p).inverse) = node :=
    funext fun p => Node.rearrange_inverse
  have hnext : (fun p key => next p (((node p).rearrange (order p)).rearrangeKey (order p).inverse
      ((((node p).rearrange (order p)).rearrange (order p).inverse).rearrangeKey (order p) key))) =
      next := by
    funext p key
    rw [Node.rearrange_inverse, Node.rearrangeKey_inverse]
  exact congrArg₂ (fun node next =>
    execute (Tree.mk Position node next) ps numPlayers maxDepth visits root) hnode hnext

end Tree

/-! ### Players who are on their own -/

/-- Players of whom each has a memory apart, and who read the transcript player by player: they
answer the same, whatever the order in which different players moved, and two of them give the same
answers in either order. All this is so while the surroundings are of one sort, which they remain
whoever is asked. -/
structure Participants.Separate {ω σ : Type} (ps : Participants ω σ) (I : σ → Prop) : Prop where
  overlooks {player : Nat} {ask : Context → Run σ Value} (h : ps.ask player = some ask)
    {c : Context} {t : Transcript} (ht : c.transcript.SameByPlayer t) {s : σ} (hs : I s) :
    (ask { c with transcript := t }).start s = (ask c).start s
  apart {player other : Nat} {ask ask' : Context → Run σ Value} (h : ps.ask player = some ask)
    (h' : ps.ask other = some ask') (hne : player ≠ other) {c c' : Context} {s s₁ s₂ : σ}
    {move move' : Value} (hs : I s) (hmove : (ask c).start s = (.ok move, s₁))
    (hmove' : (ask' c').start s₁ = (.ok move', s₂)) :
    ∃ s₁', (ask' c').start s = (.ok move', s₁') ∧ (ask c).start s₁' = (.ok move, s₂)
  asked {player : Nat} {ask : Context → Run σ Value} (h : ps.ask player = some ask) (c : Context) :
    Run.Keeps I (ask c)
  chance {s : σ} (hs : I s) : I (ps.uniform s).2

namespace Participants

variable {ω σ : Type} [Scale ω] {ps : Participants ω σ} {I : σ → Prop} {s s' s₁ s₂ : σ}
  {answered answered' : List (Context × Value)}

omit [Scale ω] in
/-- Whoever is to answer leaves the surroundings of their sort. -/
theorem Separate.keeps (hps : ps.Separate I) (c : Context) : Run.Keeps I (ps.answer c) :=
  answer_keeps (fun _ _ hask c => hps.asked hask c) c

/-- Those who are asked one after the other give these answers. -/
inductive Answer (ps : Participants ω σ) : σ → List (Context × Value) → σ → Prop
  | nil (s : σ) : Answer ps s [] s
  | cons {s s₁ s₂ : σ} {c : Context} {move : Value} {rest : List (Context × Value)}
      (hmove : (ps.answer c).start s = (.ok move, s₁)) (hrest : Answer ps s₁ rest s₂) :
      Answer ps s ((c, move) :: rest) s₂

omit [Scale ω] in
theorem answer_iff :
    ((answered.map (·.1)).mapM ps.answer).start s = (.ok (answered.map (·.2)), s') ↔
      ps.Answer s answered s' := by
  induction answered generalizing s with
  | nil =>
      constructor
      · intro h
        cases h
        exact .nil _
      · intro h
        cases h
        rfl
  | cons first rest ih =>
      obtain ⟨c, move⟩ := first
      rw [List.map_cons, List.map_cons, List.mapM_cons]
      constructor
      · intro h
        obtain ⟨_, s₁, hmove, h⟩ := Run.start_bind_eq_ok.1 h
        obtain ⟨_, s₂, hrest, h⟩ := Run.start_bind_eq_ok.1 h
        cases h
        exact .cons hmove (ih.1 hrest)
      · intro h
        cases h with
        | cons hmove hrest =>
            rw [Run.start_bind_ok hmove, Run.start_bind_ok (ih.2 hrest)]
            rfl

omit [Scale ω] in
/-- Different players may be asked in any order. -/
theorem Answer.perm (hps : ps.Separate I) (hperm : answered.Perm answered')
    (hdistinct : answered.Pairwise fun a b => a.1.player.alike b.1.player = false) (hs : I s)
    (h : ps.Answer s answered s') : ps.Answer s answered' s' := by
  induction hperm generalizing s with
  | nil => exact h
  | cons first _ ih =>
      cases h with
      | cons hmove hrest =>
          have hs₁ := (hps.keeps _).left hs hmove
          exact .cons hmove (ih hdistinct.of_cons hs₁ hrest)
  | swap second first rest =>
      obtain ⟨c, move⟩ := first
      obtain ⟨c', move'⟩ := second
      cases h with
      | cons hmove hrest =>
          cases hrest with
          | cons hmove' hrest =>
              obtain ⟨p, ask, hp, hless, hask, hmove⟩ := answer_eq_ok_iff.1 hmove
              obtain ⟨q, ask', hq, hless', hask', hmove'⟩ := answer_eq_ok_iff.1 hmove'
              have hne : p ≠ q := by
                rintro rfl
                have halike := (List.pairwise_cons.1 hdistinct).1 _ List.mem_cons_self
                rw [hp, hq, Value.int_alike] at halike
                exact absurd rfl (decide_eq_false_iff_not.1 halike)
              obtain ⟨s₁, hfirst, hsecond⟩ := hps.apart hask hask' hne hs hmove hmove'
              exact .cons (answer_eq_ok_iff.2 ⟨q, ask', hq, hless', hask', hfirst⟩)
                (.cons (answer_eq_ok_iff.2 ⟨p, ask, hp, hless, hask, hsecond⟩) hrest)
  | trans hperm _ ih ih' =>
      exact ih' ((hperm.pairwise_iff Value.not_alike_symm).1 hdistinct) hs (ih hdistinct hs h)

omit [Scale ω] in
/-- A player who is shown another transcript that is the same player by player answers the same. -/
theorem answer_overlooks (hps : ps.Separate I) {c : Context} {t : Transcript}
    (ht : c.transcript.SameByPlayer t) (hs : I s) {move : Value}
    (h : (ps.answer c).start s = (.ok move, s₁)) :
    (ps.answer { c with transcript := t }).start s = (.ok move, s₁) := by
  obtain ⟨p, ask, hp, hless, hask, hmove⟩ := answer_eq_ok_iff.1 h
  exact answer_eq_ok_iff.2 ⟨p, ask, hp, hless, hask, (hps.overlooks hask ht hs).trans hmove⟩

omit [Scale ω] in
/-- So do all who are asked. -/
theorem Answer.overlooks (hps : ps.Separate I) {t : Transcript}
    (ht : ∀ a ∈ answered, a.1.transcript.SameByPlayer t) (hs : I s) (h : ps.Answer s answered s') :
    ps.Answer s (answered.map fun a => ({ a.1 with transcript := t }, a.2)) s' := by
  induction h with
  | nil s => exact .nil s
  | cons hmove _ ih =>
      rw [List.forall_mem_cons] at ht
      have hs₁ := (hps.keeps _).left hs hmove
      exact .cons (answer_overlooks hps ht.1 hs hmove) (ih ht.2 hs₁)

end Participants

/-! ### One decision in both orders -/

/-- The ply of a player who has chosen a move. -/
def plyOf (chosen : Seat × Value) : Ply :=
  ⟨chosen.1.player, chosen.2⟩

theorem Simultaneous.plies_eq {n : Simultaneous} {chosen : List (Seat × Value)}
    (h : chosen.map (·.1) = n.seats) : n.plies (chosen.map (·.2)) = chosen.map plyOf := by
  rw [plies, ← h, List.zipWith_map, List.zipWith_self]
  rfl

namespace Node

variable {ω σ : Type} [Scale ω] {ps : Participants ω σ} {I : σ → Prop} {numPlayers : Int}
  {t t' : Transcript} {n : Node ω} {key : Value} {s s' : σ}

/-- Players decide at once when each of them answers with one of the moves offered. -/
theorem decide_simultaneous_iff {n : Simultaneous} :
    (Walk.decide ps numPlayers t (.simultaneous n)).start s = (.ok key, s') ↔
      ∃ chosen : List (Seat × Value), chosen.map (·.1) = n.seats ∧
        key = .tuple (chosen.map (·.2)) ∧
        (∀ x ∈ chosen, x.1.moves ≠ [] ∧ x.2.isAmong x.1.moves = true) ∧
        ps.Answer s (chosen.map fun x => (n.context numPlayers t x.1, x.2)) s' := by
  have hlegal (chosen : List (Seat × Value)) :
      List.Forall₂ (fun seat move => move.isAmong seat.moves = true) (chosen.map (·.1))
        (chosen.map (·.2)) ↔ ∀ x ∈ chosen, x.2.isAmong x.1.moves = true := by
    rw [List.forall₂_map_left_iff, List.forall₂_map_right_iff, List.forall₂_same]
  have hplayers (d : Distribution ω) (state : Value) : simultaneous n ≠ .chance d state := nofun
  rw [decide_eq_ok_iff hplayers]
  constructor
  · rintro ⟨moves, ⟨⟩, hoffered, hanswers, hamong⟩
    have hseats : (n.seats.zip moves).map (·.1) = n.seats :=
      List.map_fst_zip (le_of_eq hamong.length_eq)
    have hmoves : (n.seats.zip moves).map (·.2) = moves :=
      List.map_snd_zip (le_of_eq hamong.length_eq.symm)
    refine ⟨n.seats.zip moves, hseats, by rw [hmoves], fun x hx => ⟨?_, ?_⟩, ?_⟩
    · have hseat : x.1 ∈ n.seats := hseats ▸ List.mem_map_of_mem hx
      exact hoffered x.1 hseat
    · refine (hlegal (n.seats.zip moves)).1 ?_ x hx
      rwa [hseats, hmoves]
    · refine Participants.answer_iff.1 ?_
      rw [List.map_map, List.map_map]
      have hcontexts : (n.seats.zip moves).map ((n.context numPlayers t) ∘ (·.1)) =
          n.seats.map (n.context numPlayers t) := by
        rw [← List.map_map, hseats]
      exact hcontexts ▸ hmoves.symm ▸ hanswers
  · rintro ⟨chosen, hseats, rfl, hoffered, hanswers⟩
    refine ⟨_, .together n _, ?_, ?_, ?_⟩
    · show ∀ seat ∈ n.seats, seat.moves ≠ []
      rw [← hseats]
      exact List.forall_mem_map.2 fun x hx => (hoffered x hx).1
    · have hmoves := Participants.answer_iff.2 hanswers
      rw [List.map_map, List.map_map] at hmoves
      show ((n.seats.map (n.context numPlayers t)).mapM ps.answer).start s = _
      rw [← hseats, List.map_map]
      exact hmoves
    · show List.Forall₂ _ n.seats _
      rw [← hseats]
      exact (hlegal chosen).2 fun x hx => (hoffered x hx).2

/-- The same is decided in another order, and with a transcript that is the same player by
player. -/
theorem decide_rearrange (hps : ps.Separate I) (hs : I s) (ht : t.SameByPlayer t')
    (π : Rearrangement) (h : (Walk.decide ps numPlayers t n).start s = (.ok key, s')) :
    (Walk.decide ps numPlayers t' (n.rearrange π)).start s = (.ok (n.rearrangeKey π key), s') := by
  cases n with
  | simultaneous n =>
      obtain ⟨chosen, hseats, rfl, hoffered, hanswers⟩ := decide_simultaneous_iff.1 h
      have hperm := π.list_perm chosen
      refine decide_simultaneous_iff.2 ⟨π.list chosen, ?_, ?_, ?_, ?_⟩
      · rw [← π.list_map, hseats]
        rfl
      · show Value.tuple (π.list (chosen.map (·.2))) = _
        rw [π.list_map]
      · exact fun x hx => hoffered x (hperm.mem_iff.1 hx)
      · have hshown : ps.Answer s (chosen.map fun x => (n.context numPlayers t' x.1, x.2)) s' := by
          have hall := hanswers.overlooks hps
            (List.forall_mem_map.2 fun x _ => ht) hs
          rwa [List.map_map] at hall
        refine hshown.perm hps (hperm.symm.map _) ?_ hs
        rw [List.pairwise_map]
        have hdistinct := n.distinct
        rwa [← hseats, List.pairwise_map] at hdistinct
  | sequential player moves state =>
      obtain ⟨hoffered, hanswer, hlegal⟩ := (decideAlone_eq_ok_iff rfl).1 h
      exact (decideAlone_eq_ok_iff rfl).2
        ⟨hoffered, Participants.answer_overlooks hps ht hs hanswer, hlegal⟩
  | chance d state => exact h
  | terminal e => cases h
  | stray v => cases h

/-- A decision leaves a state of the same sort. -/
theorem left_of_decide (hps : ps.Separate I) (hs : I s)
    (h : (Walk.decide ps numPlayers t n).start s = (.ok key, s')) : I s' := by
  by_cases hchance : ∃ d state, n = .chance d state
  · obtain ⟨d, state, rfl⟩ := hchance
    exact (Distribution.sample_keeps (fun _ => hps.chance) d).left hs h
  · have hplayers : ∀ d state, n ≠ .chance d state := fun d state h => hchance ⟨d, state, h⟩
    obtain ⟨moves, -, -, hanswers, -⟩ := (decide_eq_ok_iff hplayers).1 h
    exact (Run.Keeps.mapM hps.keeps (n.contexts numPlayers t)).left hs hanswers

/-- The same plies are made in another order, and those of each player in the same order, since no
player makes more than one. -/
theorem plies_rearrange (π : Rearrangement)
    (h : (Walk.decide ps numPlayers t n).start s = (.ok key, s')) :
    (n.plies key).Perm ((n.rearrange π).plies (n.rearrangeKey π key)) ∧ ∀ player : Value,
      ((n.rearrange π).plies (n.rearrangeKey π key)).filter (·.player == player) =
        (n.plies key).filter (·.player == player) := by
  cases n with
  | simultaneous n =>
      obtain ⟨chosen, hseats, rfl, -, -⟩ := decide_simultaneous_iff.1 h
      have hseats' : (π.list chosen).map (·.1) = (n.rearrange π).seats := by
        rw [← π.list_map, hseats]
        rfl
      have hplies : (simultaneous n : Node ω).plies (.tuple (chosen.map (·.2))) =
          chosen.map plyOf := Simultaneous.plies_eq hseats
      have hplies' : ((simultaneous n : Node ω).rearrange π).plies
          (.tuple (π.list (chosen.map (·.2)))) = (π.list chosen).map plyOf := by
        rw [π.list_map]
        exact Simultaneous.plies_eq hseats'
      have hperm : (chosen.map plyOf).Perm ((π.list chosen).map plyOf) :=
        (π.list_perm chosen).symm.map plyOf
      have hdistinct := n.distinct
      rw [← hseats, List.pairwise_map] at hdistinct
      rw [rearrangeKey, hplies, hplies']
      refine ⟨hperm, fun player => filter_eq_of_perm hperm (List.pairwise_map.2 ?_)⟩
      refine hdistinct.imp fun {x y} hapart hboth => ?_
      have halike := Value.alike_trans (Value.alike_of_beq hboth.1)
        (Value.alike_symm (Value.alike_of_beq hboth.2))
      exact absurd (halike.symm.trans hapart) nofun
  | sequential player moves state => exact ⟨.refl _, fun _ => rfl⟩
  | chance d state => exact ⟨.refl _, fun _ => rfl⟩
  | terminal e => cases h
  | stray v => cases h

end Node

/-! ### Both walks -/

/-- The outcomes have the same payoff, profile and history, and transcripts that are the same player
by player. -/
structure Outcome.SameByPlayer (o o' : Outcome) : Prop where
  payoff : o'.payoff = o.payoff
  profile : o'.profile = o.profile
  history : o'.history = o.history
  transcript : o.transcript.SameByPlayer o'.transcript

/-- The end of a game makes such outcomes of transcripts with the same plies. -/
theorem Ending.outcome_reordered {e : Ending} {t t' : Transcript} {numPlayers : Int} {o : Outcome}
    (ht : t.NamesNumbers) (hreordered : t.Reordered t') (h : e.outcome t numPlayers = .ok o) :
    ∃ o', e.outcome t' numPlayers = .ok o' ∧ o.SameByPlayer o' := by
  obtain ⟨hsize, hpayoff, htranscript, hhistory, hprofile⟩ := outcome_eq_ok h
  have hprofile' : e.profileAfter t' numPlayers = .ok o.profile := by
    rw [← hprofile, profileAfter, profileAfter]
    cases e.profile with
    | some profile => rfl
    | none => exact Transcript.profile?_of_perm ht hreordered.perm
  refine ⟨⟨e.payoff, o.profile, t', e.history⟩, ?_, hpayoff.symm, rfl, hhistory.symm, ?_⟩
  · rw [outcome_eq hsize, hprofile']
    rfl
  · rw [htranscript]
    exact hreordered.toSameByPlayer

section Walks

variable {ω σ : Type} [Scale ω] {t : Tree ω σ} {ps : Participants ω σ} {I : σ → Prop}
  {numPlayers maxDepth : Int} {root : t.Position} {v w : Walk t.Position} {s s' : σ}
  {keys : List Value}

/-- A node is entered in the same way in both orders. -/
theorem Walk.enter_rearrange (order : t.Position → Rearrangement) (w : Walk t.Position)
    (T : Transcript) :
    Walk.enter (t := t.rearrange order) { w with transcript := T } =
      { Walk.enter (t := t) w with transcript := T } := by
  dsimp only [enter]
  rw [Tree.rearrange_state]
  split <;> rfl

/-- A node is left behind in the same way, too, apart from the plies that are added. -/
theorem Walk.goOn_rearrange (order : t.Position → Rearrangement) {w : Walk t.Position}
    (T : Transcript) {child : t.Position} (hbare : (t.node child).state.transcript? = none)
    (key key' : Value) :
    Walk.goOn (t := t.rearrange order)
        (Walk.enter (t := t.rearrange order) { w with transcript := T }) key' child =
      { Walk.goOn (t := t) (Walk.enter (t := t) w) key child with
        transcript := T.addAll (((t.node w.position).rearrange (order w.position)).plies key') } := by
  have hposition : (Walk.enter (t := t) w).position = w.position := enter_position
  rw [enter_rearrange]
  dsimp only [goOn]
  rw [Tree.rearrange_state, hbare, Option.getD_none, hposition]
  rfl

/-- Keys that are followed in one order are followed in the other order, from a walk with the same
plies. -/
theorem Walk.Follows.rearranged (hps : ps.Separate I) (ht : ∀ p key, Run.Keeps I (t.next p key))
    (hbare : ∀ p, t.Reached root p → (t.node p).state.transcript? = none)
    (order : t.Position → Rearrangement) (h : Follows t ps numPlayers maxDepth w s keys v s')
    (hw : t.Reached root w.position) (hs : I s) (hnames : w.transcript.NamesNumbers)
    {T : Transcript} (hT : w.transcript.Reordered T) :
    ∃ keys' T', keys'.length = keys.length ∧ v.transcript.NamesNumbers ∧
      v.transcript.Reordered T' ∧
      Follows (t.rearrange order) ps numPlayers maxDepth { w with transcript := T } s keys'
        { v with transcript := T' } s' := by
  induction h generalizing T with
  | nil w s => exact ⟨[], T, rfl, hnames, hT, .nil _ _⟩
  | @cons w v child key keys s s₁ s₂ s' hbound hnode hkey hchild hrest ih =>
      have hreached := hw.follow hchild
      obtain ⟨found, hfound, hchild'⟩ := Tree.follow_rearrange order hchild
      obtain rfl : key = found := Except.ok.inj ((lookupKey_of_decide hkey).symm.trans hfound)
      have hkey' := Node.decide_rearrange hps hs hT.toSameByPlayer (order w.position) hkey
      obtain ⟨hperm, hsame⟩ := Node.plies_rearrange (order w.position) hkey
      obtain ⟨_, -, hnext⟩ := Tree.follow_eq_ok.1 hchild
      have hs₂ : I s₂ := (ht _ _).left (Node.left_of_decide hps hs hkey) hnext
      have htranscript : (w.enter.goOn key child).transcript =
          w.transcript.addAll ((t.node w.position).plies key) := by
        rw [enter_goOn_transcript, hbare child hreached, Option.getD_none]
      obtain ⟨keys', T', hlength, hnames', hT', hrest'⟩ := ih hreached hs₂
        (htranscript ▸ hnames.addAll (Node.plies_of_decide hkey))
        (htranscript ▸ hT.addAll hperm hsame)
      have henter := enter_rearrange order w T
      refine ⟨_ :: keys', T', congrArg (· + 1) hlength, hnames', hT',
        .cons ?_ (Node.rearrange_goesOn.trans hnode) hkey' hchild' ?_⟩
      · rwa [henter]
      · rwa [goOn_rearrange order T (hbare child hreached) key]

/-- A play that comes to an outcome in one order comes to one in the other order, too. -/
theorem Participants.Separate.execute_rearrange (hps : ps.Separate I)
    (ht : ∀ p key, Run.Keeps I (t.next p key))
    (hbare : ∀ p, t.Reached root p → (t.node p).state.transcript? = none)
    (order : t.Position → Rearrangement) (hs : I s) {visits : Nat} {o : Outcome}
    (h : (execute t ps numPlayers maxDepth visits root).start s = (.ok (some o), s')) :
    ∃ o', (execute (t.rearrange order) ps numPlayers maxDepth visits root).start s =
        (.ok (some o'), s') ∧ o.SameByPlayer o' := by
  cases hcheck : ps.check numPlayers with
  | error f =>
      rw [execute_eq_throw hcheck] at h
      cases h
  | ok =>
      rw [execute_eq hcheck] at h
      obtain ⟨keys, v, hfollows, hvisits, hbound, e, hnode, houtcome⟩ := Walk.run_eq_some_iff.1 h
      have hempty : (Walk.start t root).transcript = .empty := by
        show (t.node root).state.transcript?.getD .empty = .empty
        rw [hbare root .root, Option.getD_none]
      have hnames : (Walk.start t root).transcript.NamesNumbers := by
        rw [hempty]
        exact fun ply hply => absurd hply List.not_mem_nil
      have hstart : Walk.start (t.rearrange order) root = Walk.start t root := by
        dsimp only [Walk.start]
        rw [Tree.rearrange_state]
        rfl
      obtain ⟨keys', T, hlength, hnames', hT, hfollows'⟩ :=
        hfollows.rearranged hps ht hbare order .root hs hnames (.refl _)
      obtain ⟨o', houtcome', hsame⟩ := Ending.outcome_reordered hnames' hT houtcome
      have hbound' : ¬ maxDepth ≤ (Walk.enter (t := t.rearrange order)
          { v with transcript := T }).visited := by
        rwa [Walk.enter_rearrange]
      have hnode' : (t.rearrange order).node v.position = .terminal e :=
        congrArg (Node.rearrange (order v.position)) hnode
      have hwalk := execute_eq (t := t.rearrange order) hcheck maxDepth visits root
      rw [hstart] at hwalk
      refine ⟨o', (congrArg (Run.start · s) hwalk).trans ?_, hsame⟩
      exact Walk.run_eq_some_iff.2
        ⟨keys', _, hfollows', hlength ▸ hvisits, hbound', e, hnode', houtcome'⟩

end Walks

/-! ### Strategies of a session -/

section Sessions

variable {μ ω ν : Type} [Scale ω]

/-- Each player has the strategy at a place of its own, and chance draws from the generator of the
play. -/
structure Participants.HavePlaces (ps : Participants ω (Session μ ω ν)) (place : Nat → Nat) :
    Prop where
  uniform : ps.uniform = Session.uniform
  ask {player : Nat} {ask : Context → Run (Session μ ω ν) Value} (h : ps.ask player = some ask) :
    ask = Session.ask (place player)
  apart {player other : Nat} (h : (ps.ask player).isSome = true)
    (h' : (ps.ask other).isSome = true) (hne : player ≠ other) : place player ≠ place other

namespace Session

variable {s s₁ s₂ : Session μ ω ν}

/-- The strategies draw nothing from the generator of the play and read the transcript player by
player. -/
def OnTheirOwn (s : Session μ ω ν) : Prop :=
  ∀ x ∈ s.strategies, x.drawsNothing = true ∧ x.ReadsByPlayer

/-- Only the strategy that is asked has changed afterwards. -/
theorem OnTheirOwn.start_ask (hs : s.OnTheirOwn) {place : Nat} {x : Candidate μ ω}
    (h : s.strategies[place]? = some x) (c : Context) :
    (ask place c).start s = ((x.next c s.generator).answer,
      { s with strategies := s.strategies.set place (x.next c s.generator).after }) := by
  have hkept := (x.next_kept c s.generator s.generator (hs x (List.mem_of_getElem? h)).1).1
  rw [Session.start_ask h, show (x.next c s.generator).generator = s.generator from
    congrArg Reply.generator hkept]

theorem OnTheirOwn.ask (place : Nat) (c : Context) :
    Run.Keeps OnTheirOwn (Session.ask (μ := μ) (ω := ω) (ν := ν) place c) := by
  intro s hs
  cases hplace : s.strategies[place]? with
  | none => rwa [start_ask_none hplace]
  | some x =>
      obtain ⟨hdraws, hreads⟩ := hs x (List.mem_of_getElem? hplace)
      rw [hs.start_ask hplace]
      intro y hy
      rcases List.mem_or_eq_of_mem_set hy with hy | rfl
      · exact hs y hy
      · exact ⟨(x.next_kept c s.generator s.generator hdraws).2,
          (x.next_sameByPlayer hreads (.refl c.transcript) s.generator).2⟩

/-- Two of these strategies give the same answers in either order. -/
theorem OnTheirOwn.ask_swap (hs : s.OnTheirOwn) {place other : Nat} (hapart : place ≠ other)
    {c c' : Context} {move move' : Value} (hmove : (Session.ask place c).start s = (.ok move, s₁))
    (hmove' : (Session.ask other c').start s₁ = (.ok move', s₂)) :
    ∃ s₁', (Session.ask other c').start s = (.ok move', s₁') ∧
      (Session.ask place c).start s₁' = (.ok move, s₂) := by
  have hs₁ : s₁.OnTheirOwn := (OnTheirOwn.ask place c).left hs hmove
  cases hplace : s.strategies[place]? with
  | none =>
      rw [start_ask_none hplace] at hmove
      cases hmove
  | some x =>
      rw [hs.start_ask hplace] at hmove
      obtain ⟨hanswer, rfl⟩ := Prod.mk.inj hmove
      have hother : (s.strategies.set place (x.next c s.generator).after)[other]? =
          s.strategies[other]? := List.getElem?_set_ne hapart
      cases hplace' : s.strategies[other]? with
      | none =>
          rw [start_ask_none (hother.trans hplace')] at hmove'
          cases hmove'
      | some y =>
          rw [hs₁.start_ask (hother.trans hplace')] at hmove'
          obtain ⟨hanswer', rfl⟩ := Prod.mk.inj hmove'
          have hfirst := hs.start_ask hplace' c'
          have hs₁' := (OnTheirOwn.ask other c').left hs hfirst
          have hsame : (s.strategies.set other (y.next c' s.generator).after)[place]? =
              s.strategies[place]? := List.getElem?_set_ne hapart.symm
          refine ⟨_, hfirst.trans (Prod.ext hanswer' rfl), ?_⟩
          rw [hs₁'.start_ask (hsame.trans hplace)]
          refine Prod.ext hanswer ?_
          simp only [List.set_comm _ _ hapart]

/-- Each of such strategies has a memory apart. -/
theorem separate {ps : Participants ω (Session μ ω ν)} {place : Nat → Nat}
    (hps : ps.HavePlaces place) : ps.Separate OnTheirOwn where
  overlooks {player ask} h {c t} ht {s} hs := by
    obtain rfl := hps.ask h
    cases hplace : s.strategies[place player]? with
    | none => rw [start_ask_none hplace, start_ask_none hplace]
    | some x =>
        have hreads := (hs x (List.mem_of_getElem? hplace)).2
        rw [Session.start_ask hplace, Session.start_ask hplace,
          (x.next_sameByPlayer hreads ht s.generator).1]
  apart {player other ask ask'} h h' hne {c c' s s₁ s₂ move move'} hs hmove hmove' := by
    obtain rfl := hps.ask h
    obtain rfl := hps.ask h'
    exact hs.ask_swap (hps.apart (h ▸ rfl) (h' ▸ rfl) hne) hmove hmove'
  asked {player ask} h c := by
    obtain rfl := hps.ask h
    exact OnTheirOwn.ask (place player) c
  chance {s} hs := by
    rw [hps.uniform]
    exact hs

/-- Players with strategies in order have places of their own. -/
theorem inOrder_havePlaces (count : Nat) :
    (inOrder (μ := μ) (ω := ω) (ν := ν) count).HavePlaces id where
  uniform := rfl
  ask {player ask} h := by
    simp only [inOrder] at h
    split at h <;> cases h
    rfl
  apart _ _ hne := hne

/-- So have players with strategies by player, if no two of them share one. -/
theorem byPlayer_havePlaces {places : Table Nat}
    (h : ∀ (p q : Nat) place, places.find? (.int p) = some place →
      places.find? (.int q) = some place → p = q) :
    (byPlayer (μ := μ) (ω := ω) (ν := ν) places).HavePlaces
      fun player => (places.find? (.int player)).getD 0 where
  uniform := rfl
  ask {player ask} hask := by
    obtain ⟨place, hplace, rfl⟩ := Option.map_eq_some_iff.1 hask
    rw [hplace, Option.getD_some]
  apart {player other} hplayer hother hne heq := by
    obtain ⟨_, hask⟩ := Option.isSome_iff_exists.1 hplayer
    obtain ⟨_, hask'⟩ := Option.isSome_iff_exists.1 hother
    obtain ⟨place, hplace, -⟩ := Option.map_eq_some_iff.1 hask
    obtain ⟨place', hplace', -⟩ := Option.map_eq_some_iff.1 hask'
    rw [hplace, hplace', Option.getD_some, Option.getD_some] at heq
    exact hne (h player other place hplace (heq ▸ hplace'))

end Session

/-- The order of players who move at once makes no difference, if each player has a strategy of its
own, and the strategies draw nothing from the generator of the play and read the transcript player
by player. Where no state carries a transcript, the play in one order comes to an outcome if and
only if the play in another order does, from the same generator, with the same payoff, profile and
history, and with transcripts that are the same player by player. -/
theorem seating_makes_no_difference (t : Tree ω (Session μ ω ν))
    (order : t.Position → Rearrangement) {ps : Participants ω (Session μ ω ν)}
    {place : Nat → Nat} (hps : ps.HavePlaces place) (numPlayers maxDepth : Int) (visits : Nat)
    (root : t.Position) (ht : ∀ p key, Run.Keeps Session.OnTheirOwn (t.next p key))
    (hbare : ∀ p, t.Reached root p → (t.node p).state.transcript? = none)
    {s : Session μ ω ν} (hs : s.OnTheirOwn) (s' : Session μ ω ν) :
    (∀ o, (execute t ps numPlayers maxDepth visits root).start s = (.ok (some o), s') →
      ∃ o', (execute (t.rearrange order) ps numPlayers maxDepth visits root).start s =
        (.ok (some o'), s') ∧ o.SameByPlayer o') ∧
    (∀ o', (execute (t.rearrange order) ps numPlayers maxDepth visits root).start s =
        (.ok (some o'), s') →
      ∃ o, (execute t ps numPlayers maxDepth visits root).start s = (.ok (some o), s') ∧
        o'.SameByPlayer o) := by
  have hseparate := Session.separate hps
  refine ⟨fun o h => hseparate.execute_rearrange ht hbare order hs h, fun o' h => ?_⟩
  -- The tree in the other order is put back in the old one.
  have hback := hseparate.execute_rearrange (t := t.rearrange order) (fun p key => ht p _)
    (fun p hp => (congrArg _ (t.rearrange_state order p)).trans (hbare p hp.of_rearrange))
    (fun p => (order p).inverse) hs h
  rwa [Tree.execute_rearrange_inverse] at hback

/-- Everyone in the opposite order. -/
def Rearrangement.reverse : Rearrangement :=
  ⟨fun _ => Fin.revPerm⟩

/-- Two callers who name their sides at once may be asked in the opposite order. -/
theorem callers_swap :
    callers.OnTheirOwn ∧
      ∃ s', (execute (callTwice _) (Session.inOrder 2) 2 4 4 (0 : Nat)).start callers =
          (.ok (some called), s') ∧
        ∃ o', (execute ((callTwice _).rearrange fun _ => .reverse) (Session.inOrder 2) 2 4 4
            (0 : Nat)).start callers = (.ok (some o'), s') ∧ called.SameByPlayer o' := by
  have hs : callers.OnTheirOwn := by
    simp [callers, Session.OnTheirOwn, Candidate.drawsNothing, Strategy.drawsNothing,
      Strategy.turn, Strategy.allDrawNothing, Candidate.ReadsByPlayer, Strategy.ReadsByPlayer,
      Strategy.AllReadByPlayer]
  have hplay : ∃ s', (execute (callTwice _) (Session.inOrder 2) 2 4 4 (0 : Nat)).start callers =
      (.ok (some called), s') := ⟨_, by with_unfolding_all rfl⟩
  obtain ⟨s', hplay⟩ := hplay
  exact ⟨hs, s', hplay, (seating_makes_no_difference (callTwice _) (fun _ => .reverse)
    (Session.inOrder_havePlaces 2) 2 4 4 (0 : Nat) (fun _ _ _ hs => hs)
    (fun p _ => callTwice_transcript? p) hs s').1 _ hplay⟩

end Sessions

end ExtensiveForm
