import Mathlib.Data.Nat.Find
import ExtensiveForm.Proofs.Beside
import ExtensiveForm.Proofs.Flattening
import ExtensiveForm.Proofs.PlaysOut

/-!
# Fewer rounds of the same play

The rounds of a play do not depend on how the repetition ends: `Game.Completed` tells them without
any end, and `Completed.leads` says that they lead from one to the next in every repetition that is
not over before. The main result, `repetitions_and_stop_truncate`, is about a play with a number of
rounds. If the same game is repeated fewer times, or until its history is judged in some way, the
play has the same rounds, but only the first ones.

A repetition is `watched` by a list beside the state of all the histories that it was asked about.
-/

namespace ExtensiveForm

namespace History

variable {h : History} {k : Nat}

/-- The history of the first rounds. -/
def take (h : History) (k : Nat) : History :=
  .ofOutcomes (h.outcomes.take k)

@[simp] theorem outcomes_take : (h.take k).outcomes = h.outcomes.take k :=
  List.reverse_reverse _

theorem length_take (hk : k ≤ h.length) : (h.take k).length = k := by
  rw [take, ofOutcomes, length, List.length_reverse, List.length_take, outcomes,
    List.length_reverse]
  exact Nat.min_eq_left hk

/-- The payoffs of the first rounds can be added when those of all rounds can. -/
theorem exists_score_take {total : Payoff} (hscore : h.score = .ok total) :
    ∃ total', (h.take k).score = .ok total' := by
  unfold score at hscore ⊢
  rw [outcomes_take]
  cases houtcomes : h.outcomes with
  | nil => exact ⟨_, by rw [List.take_nil]⟩
  | cons first rest =>
      cases k with
      | zero => exact ⟨_, rfl⟩
      | succ k =>
          rw [houtcomes] at hscore
          dsimp only at hscore
          rw [← List.take_append_drop k rest, List.foldlM_append] at hscore
          obtain ⟨total', htotal', -⟩ := Run.except_bind_eq_ok.1 hscore
          exact ⟨total', htotal'⟩

end History

namespace Round

/-- The histories after each of some rounds, the latest first. -/
def histories : List Round → List History
  | [] => []
  | round :: before => history (round :: before) :: histories before

/-- The first rounds of a history are those that were completed first. -/
theorem history_take {before rounds : List Round} (h : before <:+ rounds) :
    (history rounds).take before.length = history before := by
  obtain ⟨later, rfl⟩ := h
  simp [history, History.take, History.outcomes, History.ofOutcomes]

/-- The histories after each of the rounds that were completed first are those of the first round,
of the first two rounds and so on. -/
theorem histories_eq {before rounds : List Round} (h : before <:+ rounds) :
    histories before =
      ((List.range before.length).map fun i => (history rounds).take (i + 1)).reverse := by
  induction before with
  | nil => rfl
  | cons round before ih =>
      have htake := history_take h
      rw [List.length_cons] at htake
      rw [histories, ih ((List.suffix_cons round before).trans h), List.length_cons,
        List.range_succ, List.map_append, List.map_singleton, htake, List.reverse_append,
        List.reverse_singleton, List.singleton_append]

end Round

/-! ### Repetitions that are watched -/

namespace Repetition

variable {σ : Type} {r : Repetition σ} {h : History} {s s' : σ} {finished : Bool}

/-- The same repetition, with a log beside the state of the histories that it is asked about. -/
def watched (r : Repetition σ) : Repetition (σ × List History) where
  rounds := r.rounds
  stop := r.stop.map fun stop h => (stop h).beside (h :: ·)
  maxDepth := r.maxDepth
  ends := by simpa using r.ends
  bounded := r.bounded

/-- The last of a given number of rounds ends the game, and nobody is asked. -/
theorem isFinished_last (hlast : r.rounds.any (· ≤ h.length) = true) :
    r.isFinished h = pure true := by
  rw [isFinished, if_pos hlast]

/-- Otherwise the history is judged. -/
theorem isFinished_stop {stop : History → Run σ Value} (hstop : r.stop = some stop)
    (hless : ¬ r.rounds.any (· ≤ h.length) = true) :
    r.isFinished h = do return (← stop h).truthy := by
  rw [isFinished, if_neg hless, hstop]

/-- A game that is not finished has been asked about, if its history is judged. -/
theorem not_last (hrun : (r.isFinished h).start s = (.ok false, s')) :
    ¬ r.rounds.any (· ≤ h.length) = true := by
  intro hlast
  rw [isFinished_last hlast] at hrun
  cases hrun

/-- With a log, the same is decided about the end, and the history is on the log unless the last of
a given number of rounds has ended the game. -/
theorem isFinished_watched (hstop : r.stop.isSome) (hrun : (r.isFinished h).start s =
      (.ok finished, s')) (log : List History) :
    (r.watched.isFinished h).start (s, log) =
      (.ok finished, (s', if r.rounds.any (· ≤ h.length) then log else h :: log)) := by
  obtain ⟨stop, hstop⟩ := Option.isSome_iff_exists.1 hstop
  have hwatched : r.watched.stop = some fun h => (stop h).beside (h :: ·) := by
    show r.stop.map _ = _
    rw [hstop, Option.map_some]
  by_cases hlast : r.rounds.any (· ≤ h.length) = true
  · rw [isFinished_last hlast] at hrun
    cases hrun
    rw [if_pos hlast, isFinished_last (r := r.watched) hlast, Run.start_pure]
  · rw [isFinished_stop hstop hlast, Run.start_bind_eq_ok] at hrun
    obtain ⟨v, s₁, hv, heq⟩ := hrun
    cases heq
    rw [if_neg hlast, isFinished_stop hwatched hlast, Run.start_bind_ok (Run.start_beside hv log)]
    rfl

end Repetition

namespace Game

variable {ω σ : Type} [Scale ω] {g : Game ω σ} {r : Repetition σ} {ps : Participants ω σ}
  {limit n : Nat} {h : History} {rounds : List Round} {round : Round} {s s₁ s' : σ}

/-! ### The same rounds with something beside the state -/

theorem Moves.beside {ν : Type} {x y : g.Moment} (hmoves : g.Moves ps h n y x) (a : ν) :
    (g.beside ν).Moves (ps.beside ν) h n ⟨y.position, y.transcript, (y.surroundings, a)⟩
      ⟨x.position, x.transcript, (x.surroundings, a)⟩ := by
  induction hmoves with
  | none x => exact .none _
  | next hnode hkey hfollow _ ih =>
      exact .next (g := g.beside ν) hnode (Walk.decide_beside hkey a)
        (Tree.follow_beside hfollow a) ih

theorem Completes.beside {ν : Type} (hround : g.Completes ps limit h s round s') (a : ν) :
    (g.beside ν).Completes (ps.beside ν) limit h (s, a) round (s', a) := by
  obtain ⟨hle, x, e, ⟨root, s₁, hroot, hmoves⟩, hnode, hstate, ho, rfl⟩ := hround
  exact ⟨hle, ⟨x.position, x.transcript, (x.surroundings, a)⟩, e,
    ⟨root, (s₁, a), Run.start_beside hroot a, hmoves.beside a⟩, hnode, hstate, ho, rfl⟩

/-- Rounds that lead to another one in a repetition lead to it when the repetition is watched, and
all their histories are on the log then. -/
theorem Leads.watched (h : g.Leads r ps limit s rounds s') (hstop : r.stop.isSome) :
    (g.beside _).Leads r.watched (ps.beside _) limit (s, []) rounds
      (s', Round.histories rounds) := by
  induction h with
  | none => exact .none
  | next _ hround hgoesOn hready ih =>
      have hwatched := Repetition.isFinished_watched hstop hgoesOn
      simp only [if_neg (Repetition.not_last hgoesOn)] at hwatched
      exact .next ih (hround.beside _) (hwatched _) hready

/-! ### The same rounds in another repetition -/

/-- These rounds, the latest first, are completed one after another. -/
inductive Completed (g : Game ω σ) (ps : Participants ω σ) (limit : Nat) (s : σ) :
    List Round → σ → Prop
  | none : Completed g ps limit s [] s
  | next {rounds : List Round} {round : Round} {s₁ s₂ : σ}
      (hbefore : Completed g ps limit s rounds s₁)
      (hround : g.Completes ps limit (Round.history rounds) s₁ round s₂) :
      Completed g ps limit s (round :: rounds) s₂

/-- If nothing but a number of rounds ends the repetition, its rounds are completed one after
another. -/
theorem Leads.completed (h : g.Leads r ps limit s rounds s') {count : Nat}
    (hrounds : r.rounds = some count) (hstop : r.stop = .none) :
    g.Completed ps limit s rounds s' := by
  induction h with
  | none => exact .none
  | next _ hround hgoesOn _ ih =>
      rw [isFinished_eq hrounds hstop, Run.start_pure, Prod.mk.injEq] at hgoesOn
      exact hgoesOn.2 ▸ .next ih hround

/-- Some of the rounds were completed before all of them. -/
theorem Completed.before {before : List Round} (h : g.Completed ps limit s rounds s')
    (hbefore : before <:+ rounds) : ∃ s₁, g.Completed ps limit s before s₁ := by
  induction h with
  | none =>
      rw [List.suffix_nil.1 hbefore]
      exact ⟨s, .none⟩
  | next hcompleted hround ih =>
      rcases List.suffix_cons_iff.1 hbefore with rfl | hbefore
      · exact ⟨_, .next hcompleted hround⟩
      · exact ih hbefore

/-- They lead from one to the next in any repetition that does not end with them. -/
theorem Completed.leads (h : g.Completed ps limit s rounds s')
    (hgoesOn : ∀ before, before <:+ rounds → before ≠ [] →
      r.isFinished (Round.history before) = pure false ∧ ¬ r.Tired before) :
    g.Leads r ps limit s rounds s' := by
  induction h with
  | none => exact .none
  | next _ hround ih =>
      obtain ⟨hfinished, hready⟩ := hgoesOn _ List.suffix_rfl (List.cons_ne_nil _ _)
      refine .next (ih fun before hsuffix => ?_) hround ?_ hready
      · exact hgoesOn before (hsuffix.trans (List.suffix_cons _ _))
      · rw [hfinished, Run.start_pure]

/-- While rounds lead to another one, their number is not reached. -/
theorem Leads.length_lt (h : g.Leads r ps limit s rounds s') {count : Nat}
    (hrounds : r.rounds = some count) : rounds.length < count := by
  cases h with
  | none => exact (r.bounded count hrounds).1
  | next _ _ hgoesOn _ =>
      have hless := Repetition.isFinished_eq_false hrounds hgoesOn
      rwa [Round.length_history] at hless

variable {q : Repetition σ} {verdict : History → Value} {maxDepth : Int} {k m : Nat}

/-- If the history is judged, the repetition is over after so many of its rounds. -/
def OverAfter (q : Repetition σ) (verdict : History → Value) (h : History) (k : Nat) : Prop :=
  1 ≤ k ∧ (q.rounds = some k ∨ (verdict (h.take k)).truthy = true)

omit [Scale ω] in
/-- As long as a repetition is not over, its history is judged and nothing ends it. -/
theorem isFinished_of_not_over (hverdict : q.stop = some fun h => pure (verdict h))
    (hleast : ∀ j, OverAfter q verdict h j → k ≤ j) {before : List Round}
    (hbefore : h.take before.length = Round.history before) (hne : before ≠ [])
    (hless : before.length < k) : q.isFinished (Round.history before) = pure false := by
  have hnot : ¬ OverAfter q verdict h before.length := fun hover =>
    Nat.not_le_of_lt hless (hleast _ hover)
  have hpositive : 1 ≤ before.length := List.length_pos_iff.2 hne
  have hrounds : ¬ q.rounds.any (· ≤ (Round.history before).length) = true := by
    rw [Round.length_history]
    cases hcount : q.rounds with
    | none => exact Bool.false_ne_true
    | some count =>
        have hle := hleast count ⟨(q.bounded count hcount).1, .inl hcount⟩
        rw [Option.any_some, decide_eq_true_eq]
        omega
  have hfalse : (verdict (Round.history before)).truthy = false := by
    rw [← hbefore]
    exact Bool.eq_false_iff.2 fun htrue => hnot ⟨hpositive, .inr htrue⟩
  rw [Repetition.isFinished_stop hverdict hrounds, pure_bind, hfalse]

omit [Scale ω] in
/-- When it is over, this is because of its number of rounds, or because its history is judged so.
-/
theorem isFinished_of_over (hverdict : q.stop = some fun h => pure (verdict h))
    (hover : OverAfter q verdict h rounds.length)
    (hrounds : h.take rounds.length = Round.history rounds) :
    q.isFinished (Round.history rounds) = pure true := by
  by_cases hlast : q.rounds.any (· ≤ (Round.history rounds).length) = true
  · exact Repetition.isFinished_last hlast
  · rcases hover.2 with hcount | htrue
    · rw [hcount, Round.length_history] at hlast
      simp at hlast
    · rw [Repetition.isFinished_stop hverdict hlast, pure_bind, ← hrounds, htrue]

/-- A repetition that goes on until it is over after these rounds plays them out, and it has been
asked about the history after each of them, but not after the last of a given number of rounds. -/
theorem Completed.playsOut (h : g.Completed ps maxDepth.toNat s (round :: rounds) s')
    (hstop : q.stop.isSome)
    (hgoesOn : ∀ before, before <:+ rounds → before ≠ [] →
      q.isFinished (Round.history before) = pure false ∧ ¬ q.Tired before)
    (hover : q.isFinished (Round.history (round :: rounds)) = pure true) :
    g.PlaysOut q ps maxDepth s (rounds.length + 1) (Round.history (round :: rounds)).summary s' ∧
      (g.beside _).PlaysOut q.watched (ps.beside _) maxDepth (s, []) (rounds.length + 1)
        (Round.history (round :: rounds)).summary
        (s', if q.rounds.any (· ≤ rounds.length + 1) then Round.histories rounds
          else Round.histories (round :: rounds)) := by
  cases h with
  | next hcompleted hround =>
      have hleads := hcompleted.leads hgoesOn
      have hfinished : (q.isFinished (Round.history (round :: rounds))).start s' =
          (.ok true, s') := by
        rw [hover, Run.start_pure]
      have hwatched := Repetition.isFinished_watched hstop hfinished (Round.histories rounds)
      rw [Round.length_history] at hwatched
      exact ⟨.finished hleads hround hfinished,
        .finished (hleads.watched hstop) (hround.beside _) hwatched⟩

omit [Scale ω] in
/-- What has been asked about when it is over: all the histories, but not that of the last of a
given number of rounds. -/
theorem histories_asked {all : List Round}
    (hleast : ∀ j, OverAfter q verdict h j → rounds.length + 1 ≤ j)
    (hkept : round :: rounds <:+ all) :
    (if q.rounds.any (· ≤ rounds.length + 1) then Round.histories rounds
      else Round.histories (round :: rounds)) =
      ((List.range (if q.rounds = some (rounds.length + 1) then rounds.length
        else rounds.length + 1)).map fun i => (Round.history all).take (i + 1)).reverse := by
  have hlast : q.rounds.any (· ≤ rounds.length + 1) = true ↔
      q.rounds = some (rounds.length + 1) := by
    cases hcount : q.rounds with
    | none => simp
    | some count =>
        have hle := hleast count ⟨(q.bounded count hcount).1, .inl hcount⟩
        rw [Option.any_some, decide_eq_true_eq, Option.some.injEq]
        omega
  by_cases hcount : q.rounds = some (rounds.length + 1)
  · rw [if_pos (hlast.2 hcount), if_pos hcount,
      Round.histories_eq ((List.suffix_cons round rounds).trans hkept)]
  · rw [if_neg (mt hlast.1 hcount), if_neg hcount, Round.histories_eq hkept, List.length_cons]

/-- The number of rounds, and an end that the history gives, only make a play shorter. A play with a
number of rounds comes to an outcome. If the same game is repeated so often at most, and until its
history is judged so, then the play comes to an outcome as well, from the same state of the
surroundings and under the same bound. The same holds if nothing but its history ends the
repetition, when it does so after as many rounds at most, and as many of them may be completed
without a move. The history of the outcome are the first rounds, as many as the least number after
which the repetition is over, and its payoff is the sum of their payoffs. The histories of the first
round, of the first two rounds and so on were judged in this order, each of them once, but not the
history after the last of a given number of rounds. -/
theorem repetitions_and_stop_truncate {visits : Nat} {o : Outcome} {name : String}
    (hrounds : r.rounds = some m) (hstop : r.stop = none)
    (hplay : ((g.repeated r name).play ps maxDepth visits).start s = (.ok (some o), s'))
    (hhistory : o.history = some h) (hverdict : q.stop = some fun h => pure (verdict h))
    (hends : (∃ n ≤ m, q.rounds = some n) ∨
      q.rounds = none ∧ m ≤ q.maxDepth ∧ ∃ k ≤ m, OverAfter q verdict h k) :
    h.length = m ∧ ∃ k o' s₁, k ≤ m ∧ OverAfter q verdict h k ∧
      (∀ j, OverAfter q verdict h j → k ≤ j) ∧
      o'.history = some (h.take k) ∧ (h.take k).score = .ok o'.payoff ∧
      ∀ name visits, k * maxDepth.toNat < visits →
        ((g.repeated q name).play ps maxDepth visits).start s = (.ok (some o'), s₁) ∧
        (((g.beside _).repeated q.watched name).play (ps.beside _) maxDepth visits).start (s, []) =
          (.ok (some o'), (s₁, ((List.range (if q.rounds = some k then k - 1 else k)).map
            fun i => h.take (i + 1)).reverse)) := by
  obtain ⟨hcheck, hdepth, rounds, round, s₁, s₂, hleads, hround, hfinished, hsummary⟩ :=
    play_eq_ok hplay
  obtain ⟨hscore, hsome⟩ := History.summary_eq_ok hsummary
  obtain rfl : h = Round.history (round :: rounds) := Option.some.inj (hhistory.symm.trans hsome)
  have hlength : (round :: rounds).length = m := by
    rw [isFinished_eq hrounds hstop, Run.start_pure, Round.length_history,
      Prod.mk.injEq] at hfinished
    have hle := hleads.length_lt hrounds
    have hlast : decide (m ≤ (round :: rounds).length) = true := Except.ok.inj hfinished.1
    rw [decide_eq_true_eq, List.length_cons] at hlast
    rw [List.length_cons]
    omega
  have hall : g.Completed ps maxDepth.toNat s (round :: rounds) s₂ :=
    .next (hleads.completed hrounds hstop) hround
  refine ⟨Round.length_history.trans hlength, ?_⟩
  generalize round :: rounds = all at *
  obtain ⟨k, hle, hover, hleast⟩ : ∃ k ≤ m, OverAfter q verdict (Round.history all) k ∧
      ∀ j, OverAfter q verdict (Round.history all) j → k ≤ j := by
    classical
    have hexists : ∃ k ≤ m, OverAfter q verdict (Round.history all) k := by
      rcases hends with ⟨n, hle, hcount⟩ | ⟨-, -, hexists⟩
      · exact ⟨n, hle, (q.bounded n hcount).1, .inl hcount⟩
      · exact hexists
    obtain ⟨k, hle, hover⟩ := hexists
    have hexists : ∃ k, OverAfter q verdict (Round.history all) k := ⟨k, hover⟩
    exact ⟨Nat.find hexists, (Nat.find_min' hexists hover).trans hle, Nat.find_spec hexists,
      fun j hj => Nat.find_min' hexists hj⟩
  obtain ⟨kept, hkept, rfl⟩ : ∃ kept, kept <:+ all ∧ kept.length = k :=
    ⟨all.drop (m - k), List.drop_suffix _ _, by rw [List.length_drop]; omega⟩
  cases kept with
  | nil => exact absurd hover.1 (Nat.not_succ_le_zero 0)
  | cons last before =>
      have htake := Round.history_take hkept
      obtain ⟨s₃, hcompleted⟩ := hall.before hkept
      have hstop' : q.stop.isSome := by rw [hverdict, Option.isSome_some]
      have hgoesOn : ∀ l, l <:+ before → l ≠ [] →
          q.isFinished (Round.history l) = pure false ∧ ¬ q.Tired l := by
        intro l hl hne
        have hl' := (hl.trans (List.suffix_cons last before)).trans hkept
        have hless : l.length < (last :: before).length := Nat.lt_succ_of_le hl.length_le
        refine ⟨isFinished_of_not_over hverdict hleast (Round.history_take hl') hne hless, ?_⟩
        rintro ⟨hnone, htired⟩
        have hatOnce : Round.atOnce l ≤ l.length := Round.atOnce_le
        rcases hends with ⟨n, -, hcount⟩ | ⟨-, hdepth', -⟩
        · rw [hnone] at hcount
          cases hcount
        · omega
      have hplays := hcompleted.playsOut hstop' hgoesOn (isFinished_of_over hverdict hover htake)
      obtain ⟨total, htotal⟩ := History.exists_score_take (k := (last :: before).length) hscore
      have htotal' := htotal
      rw [htake] at htotal'
      obtain ⟨o', hsummary', rfl, hhistory'⟩ :=
        History.exists_summary htotal' (by rw [Round.length_history]; exact Nat.succ_pos _)
      rw [hsummary', histories_asked hleast hkept] at hplays
      exact ⟨_, o', s₃, hle, hover, hleast, hhistory'.trans (congrArg some htake.symm), htotal,
        fun name visits hvisits => ⟨hplays.1.play hcheck hdepth name hvisits,
          hplays.2.play (g := g.beside _) hcheck hdepth name hvisits⟩⟩

/-- As many rounds as it takes until there are two of them. -/
def untilTwo : Repetition Bool :=
  .judged (fun h => pure (.bool (decide (2 ≤ h.length)))) 3

/-- Of three rounds, the first two are played when the game is over after two. Both histories were
asked about. -/
theorem picks_truncate :
    ∃ o, ((pick.repeated (.times 3 (by decide)) "").play alternating 1 4).start false =
        (.ok (some o), true) ∧
      o.history = some ⟨[picked true, picked false, picked true]⟩ ∧
      ∃ o' s₁, o'.history = some ⟨[picked false, picked true]⟩ ∧ o'.payoff = ⟨[.int 4]⟩ ∧
        ((pick.repeated untilTwo "").play alternating 1 3).start false = (.ok (some o'), s₁) ∧
        (((pick.beside _).repeated untilTwo.watched "").play (alternating.beside _) 1 3).start
            (false, []) =
          (.ok (some o'), (s₁, [⟨[picked false, picked true]⟩, ⟨[picked true]⟩])) := by
  obtain ⟨o, hplay, hhistory⟩ : ∃ o,
      ((pick.repeated (.times 3 (by decide)) "").play alternating 1 4).start false =
        (.ok (some o), true) ∧
      o.history = some ⟨[picked true, picked false, picked true]⟩ := by
    rw [play_repeated_eq rfl (by decide) rfl "" (by decide)]
    exact ⟨_, rfl, rfl⟩
  have htwo : OverAfter untilTwo (fun h => .bool (decide (2 ≤ h.length)))
      ⟨[picked true, picked false, picked true]⟩ 2 := ⟨by decide, .inr rfl⟩
  obtain ⟨-, k, o', s₁, -, ⟨hpositive, hover⟩, hleast, hhistory', hscore, hplays⟩ :=
    repetitions_and_stop_truncate rfl rfl hplay hhistory (q := untilTwo) rfl
      (.inr ⟨rfl, by decide, 2, by decide, htwo⟩)
  obtain rfl : k = 2 := by
    refine Nat.le_antisymm (hleast 2 htwo) (Nat.lt_of_le_of_ne hpositive ?_)
    rintro rfl
    rcases hover with hcount | htrue
    · cases hcount
    · cases htrue
  refine ⟨o, hplay, hhistory, o', s₁, hhistory', ?_, hplays "" 3 (by decide)⟩
  exact (Except.ok.inj hscore).symm

end Game

end ExtensiveForm
