import ExtensiveForm.Proofs.PlaysOut
import ExtensiveForm.Proofs.Equality
import ExtensiveForm.Proofs.Flattening

/-!
# What the outcome of a repeated play tells

The outcome of a repeated play carries the history of its rounds, and all else that it tells can be
read off this history: `outcome_summarises_history`. The last round gives the profile and the
transcript, and each player's utility is the sum of those of the rounds. Playing a game several
times at once gives the same history, and its last round.

The payoffs are added place by place from the first round on, and the utilities of one player from
the number zero on. For whole numbers this makes no difference, but for how a single utility is
told.
-/

namespace ExtensiveForm

namespace Value

theorem form_of_whole? {v : Value} {n : Int} (h : v.whole? = some n) :
    ∃ a, v.form = .leaf a ∧ a.number? = some (.ofInt n) := by
  cases v <;> cases h <;> exact ⟨_, rfl, rfl⟩

/-- Values that stand for the same whole number are equal. -/
theorem beq_of_whole? {v w : Value} {n : Int} (hv : v.whole? = some n) (hw : w.whole? = some n) :
    (v == w) = true := by
  obtain ⟨a, ha, hna⟩ := form_of_whole? hv
  obtain ⟨b, hb, hnb⟩ := form_of_whole? hw
  show v.form.same w.form = true
  rw [ha, hb]
  exact Leaf.same_iff.2 (.inl ⟨.ofInt n, nofun, hna, hnb⟩)

/-- What whole numbers add up to, from the number that this value stands for on. -/
theorem whole?_foldl_plus {v : Value} {vs : List Value} {n : Int} (hv : v.whole? = some n) :
    (vs.foldl plus v).whole? = some (vs.foldl (fun n w => n + w.whole?.getD 0) n) := by
  induction vs generalizing v n with
  | nil => exact hv
  | cons w vs ih =>
      have hplus : (v.plus w).whole? = some (n + w.whole?.getD 0) := by
        show some (v.whole?.getD 0 + w.whole?.getD 0) = _
        rw [hv, Option.getD_some]
      rw [List.foldl_cons, List.foldl_cons]
      exact ih hplus

theorem foldlM_add_whole {v : Value} {vs : List Value} (hv : v.IsWhole)
    (hvs : ∀ w ∈ vs, w.IsWhole) : vs.foldlM add v = .ok (vs.foldl plus v) := by
  induction vs generalizing v with
  | nil => rfl
  | cons w vs ih =>
      rw [List.forall_mem_cons] at hvs
      rw [List.foldlM_cons, add_whole hv hvs.1]
      exact ih (show (v.plus w).IsWhole from rfl) hvs.2

/-- Whole numbers have a sum, and it makes no difference whether they are added from zero on or from
the first of them on. -/
theorem sum_whole {v : Value} {vs : List Value} (hv : v.IsWhole) (hvs : ∀ w ∈ vs, w.IsWhole) :
    ∃ total, sum (v :: vs) = .ok total ∧ (vs.foldl plus v == total) = true := by
  obtain ⟨n, hn⟩ := Option.isSome_iff_exists.1 hv
  have hzero : (Value.int 0).IsWhole := rfl
  refine ⟨vs.foldl plus ((Value.int 0).plus v), ?_, ?_⟩
  · rw [sum, List.foldlM_cons, add_whole hzero hv]
    exact foldlM_add_whole (show ((Value.int 0).plus v).IsWhole from rfl) hvs
  · have hplus : ((Value.int 0).plus v).whole? = some n := by
      show some (0 + v.whole?.getD 0) = some n
      rw [hn, Option.getD_some, Int.zero_add]
    exact beq_of_whole? (whole?_foldl_plus hn) (whole?_foldl_plus hplus)

end Value

namespace Payoff

/-- The utility of a player is the entry at the player's place. -/
theorem forPlayer_eq {p : Payoff} {numPlayers : Int} (hsize : (p.values.length : Int) = numPlayers)
    {player : Nat} (hplayer : (player : Int) < numPlayers) :
    p.forPlayer (.int player) = .ok (p.values.getD player .null) := by
  have hchecked : checkPlayer (.int player) p.values.length = .ok player := by
    rw [checkPlayer, if_pos ⟨Int.natCast_nonneg player, hsize ▸ hplayer⟩, Int.toNat_natCast]
  rw [forPlayer, entryFor, hchecked]
  rfl

theorem getD_plus {p q : Payoff} {i : Nat} (hp : i < p.values.length) (hq : i < q.values.length) :
    (p.plus q).values.getD i .null = (p.values.getD i .null).plus (q.values.getD i .null) := by
  simp [plus, hp, hq]

/-- Each entry of a sum of payoffs is the sum of their entries. -/
theorem getD_foldl_plus {p : Payoff} {ps : List Payoff} {i : Nat} (hp : i < p.values.length)
    (hps : ∀ q ∈ ps, i < q.values.length) :
    (ps.foldl plus p).values.getD i .null =
      (ps.map (·.values.getD i .null)).foldl Value.plus (p.values.getD i .null) := by
  induction ps generalizing p with
  | nil => rfl
  | cons q ps ih =>
      rw [List.forall_mem_cons] at hps
      have hlength : i < (p.plus q).values.length := by
        rw [plus, List.length_zipWith]
        omega
      rw [List.foldl_cons, List.map_cons, List.foldl_cons, ih hlength hps.2, getD_plus hp hps.1]

end Payoff

namespace History

variable {h : History} {numPlayers : Int}

/-- In a score of whole payoffs, the utility of each player is the sum of the player's utilities. -/
theorem payoff_eq_sum {total : Payoff} (hscore : h.score = .ok total) (hlength : 1 ≤ h.length)
    (hpays : ∀ o ∈ h.outcomes, o.payoff.PaysWhole numPlayers) {player : Nat}
    (hplayer : (player : Int) < numPlayers) :
    ∃ us u sum, h.payoffsForPlayer (.int player) = .ok us ∧ Value.sum us = .ok sum ∧
      total.forPlayer (.int player) = .ok u ∧ (u == sum) = true := by
  have hpayoffs : h.payoffsForPlayer (.int player) =
      .ok (h.outcomes.map fun o => o.payoff.values.getD player .null) :=
    mapM_eq_map fun o ho => Payoff.forPlayer_eq (hpays o ho).sized hplayer
  have hplace : ∀ o ∈ h.outcomes, player < o.payoff.values.length := fun o ho =>
    Int.ofNat_lt.1 ((hpays o ho).sized ▸ hplayer)
  have hwhole : ∀ o ∈ h.outcomes, (o.payoff.values.getD player .null).IsWhole := by
    intro o ho
    rw [List.getD_eq_getElem?_getD, List.getElem?_eq_getElem (hplace o ho), Option.getD_some]
    exact (hpays o ho).whole _ (List.getElem_mem _)
  rw [score_whole h hpays] at hscore
  obtain rfl := Except.ok.inj hscore
  cases houtcomes : h.outcomes with
  | nil =>
      rw [outcomes, List.reverse_eq_nil_iff] at houtcomes
      rw [length, houtcomes] at hlength
      cases hlength
  | cons first rest =>
      rw [houtcomes] at hpayoffs hplace hwhole hpays
      rw [List.forall_mem_cons] at hplace hwhole
      have htotal : (Payoff.total ((first :: rest).map (·.payoff))).PaysWhole numPlayers :=
        .total (List.cons_ne_nil _ _) (List.forall_mem_map.2 hpays)
      obtain ⟨sum, hsum, hequal⟩ := Value.sum_whole hwhole.1 (List.forall_mem_map.2 hwhole.2)
      refine ⟨_, _, sum, hpayoffs, hsum, Payoff.forPlayer_eq htotal.sized hplayer, ?_⟩
      rw [List.map_cons, Payoff.total,
        Payoff.getD_foldl_plus hplace.1 (List.forall_mem_map.2 hplace.2), List.map_map]
      exact hequal

end History

namespace Repetition

variable {σ : Type} {r : Repetition σ} {rounds : Option Int} {stop : Option (History → Run σ Value)}
  {depth : Int}

/-- An end can be given with another bound on the rounds without a move, and then it is the same but
for this bound. -/
theorem make_eq_ok (h : make rounds stop depth = .ok r) :
    r.maxDepth = depth ∧ (r.rounds = none → rounds = none) ∧
      ∀ maxDepth, orDefault rounds stop maxDepth = .ok { r with maxDepth := maxDepth } := by
  cases rounds with
  | none =>
      cases stop with
      | none => cases h
      | some stop =>
          cases h
          exact ⟨rfl, fun _ => rfl, fun _ => rfl⟩
  | some n =>
      rw [make] at h
      split at h
      · rename_i hn
        cases h
        refine ⟨rfl, nofun, fun maxDepth => ?_⟩
        rw [orDefault, if_neg (fun hnone => nomatch hnone.1), make, dif_pos hn]
      · cases h

end Repetition

namespace Game

variable {ω σ : Type} [Scale ω] {g : Game ω σ} {r : Repetition σ} {ps : Participants ω σ}
  {maxDepth : Int} {limit : Nat} {before : List Round} {round : Round} {s s₁ s₂ s' : σ}

/-- Rounds that lead to another one also lead to it when more of them may be completed without a
move. -/
theorem Leads.deeper (h : g.Leads r ps limit s before s') (depth : Int)
    (hdepth : r.rounds = .none → r.maxDepth ≤ depth) :
    g.Leads { r with maxDepth := depth } ps limit s before s' := by
  induction h with
  | none => exact .none
  | next _ hround hgoesOn hready ih =>
      refine .next ih hround hgoesOn fun htired => hready ⟨htired.1, ?_⟩
      have hle := Int.toNat_le_toNat (hdepth htired.1)
      exact Nat.lt_of_le_of_lt hle htired.2

/-- Completed rounds that have paid whole numbers have paid each player a whole number. -/
theorem Leads.paysWhole (hleads : g.Leads r ps limit s before s₁)
    (hround : g.Completes ps limit (Round.history before) s₁ round s₂)
    (hwhole : ∀ o ∈ (Round.history (round :: before)).outcomes, o.payoff.IsWhole) :
    ∀ o ∈ (Round.history (round :: before)).outcomes, o.payoff.PaysWhole g.numPlayers :=
  fun o ho => ⟨hround.sized hleads.sized o (List.mem_reverse.1 ho), hwhole o ho⟩

/-- The outcome of a repeated play tells what its history tells. There is a last round, and the
profile and the transcript are those of this round. The payoff is the score of the history; if the
rounds have paid whole numbers, each player gets the sum of what the player got in the rounds. If
the same is to be played several times, with an end given in the same way and with the same bound,
the last round and the history come of it. Where rounds that have paid whole numbers are completed
and the game is over, nothing can go wrong any more: their payoffs are added, and the play comes to
an outcome. -/
theorem outcome_summarises_history {rounds : Option Int} {stop : Option (History → Run σ Value)}
    {depth : Int} (hmake : Repetition.make rounds stop depth = .ok r) (ps : Participants ω σ)
    (maxDepth : Int) (name : String) (s : σ) :
    (∀ visits o s', ((g.repeated r name).play ps maxDepth visits).start s = (.ok (some o), s') →
      ∃ h last, o.history = some h ∧ h.last? = some last ∧ 1 ≤ h.length ∧
        o.profile = last.profile ∧ o.transcript = last.transcript ∧ h.score = .ok o.payoff ∧
        ((∀ o' ∈ h.outcomes, o'.payoff.IsWhole) →
          ∀ player : Nat, (player : Int) < g.numPlayers → ∃ us u sum,
            h.payoffsForPlayer (.int player) = .ok us ∧ Value.sum us = .ok sum ∧
            o.payoff.forPlayer (.int player) = .ok u ∧ (u == sum) = true) ∧
        ((rounds = none → depth ≤ maxDepth) →
          ∃ q, Repetition.orDefault rounds stop maxDepth = .ok q ∧
            ∀ visits, h.length * maxDepth.toNat < visits →
              (g.playRepeated q ps visits).start s = (.ok (some (some last, h)), s'))) ∧
    (ps.check g.numPlayers = .ok () → 1 ≤ maxDepth → ∀ before round s₁ s₂ s',
      g.Leads r ps maxDepth.toNat s before s₁ →
      g.Completes ps maxDepth.toNat (Round.history before) s₁ round s₂ →
      (r.isFinished (Round.history (round :: before))).start s₂ = (.ok true, s') →
      (∀ o' ∈ (Round.history (round :: before)).outcomes, o'.payoff.IsWhole) →
      ∃ o, ∀ visits, (before.length + 1) * maxDepth.toNat < visits →
        ((g.repeated r name).play ps maxDepth visits).start s = (.ok (some o), s')) := by
  obtain ⟨hdepth, hnone, hagain⟩ := Repetition.make_eq_ok hmake
  constructor
  · intro visits o s' hplay
    obtain ⟨hcheck, hbound, before, round, s₁, s₂, hleads, hround, hover, hsummary⟩ :=
      play_eq_ok hplay
    have hlast : (Round.history (round :: before)).last? = some round.outcome := rfl
    have hplaysOut (hle : rounds = none → depth ≤ maxDepth) :
        g.PlaysOut { r with maxDepth := maxDepth } ps maxDepth s (before.length + 1)
          (Round.history (round :: before)).summary s' :=
      .finished (hleads.deeper maxDepth fun hr => hdepth ▸ hle (hnone hr)) hround hover
    have hsummary' := hsummary
    rw [History.summary_eq hlast] at hsummary'
    obtain ⟨total, hscore, heq⟩ := Run.except_bind_eq_ok.1 hsummary'
    cases heq
    refine ⟨_, round.outcome, rfl, hlast, ?_, rfl, rfl, hscore, fun hwhole player hplayer => ?_,
      fun hle => ⟨_, hagain maxDepth, fun visits hvisits => ?_⟩⟩
    · rw [Round.length_history]
      exact Nat.succ_pos _
    · exact History.payoff_eq_sum hscore (by rw [Round.length_history]; exact Nat.succ_pos _)
        (hleads.paysWhole hround hwhole) hplayer
    · rw [Round.length_history] at hvisits
      have hagain := (hplaysOut hle).play hcheck hbound "" hvisits
      rw [hsummary] at hagain
      rw [playRepeated, Run.start_bind_ok hagain, Run.start_pure, hlast]
  · intro hcheck hbound before round s₁ s₂ s' hleads hround hover hwhole
    have hscore := History.score_whole _ (hleads.paysWhole hround hwhole)
    obtain ⟨o, hsummary, -⟩ := History.exists_summary hscore
      (by rw [Round.length_history]; exact Nat.succ_pos _)
    refine ⟨o, fun visits hvisits => ?_⟩
    have hplay := (PlaysOut.finished hleads hround hover).play hcheck hbound name hvisits
    rw [hplay, hsummary]
    rfl

/-- Three rounds of picks, played as one game and as a series. -/
theorem picks_are_summarised :
    ∃ r, Repetition.make (some 3) none 0 = .ok r ∧
      ∃ o q us u sum, ((pick.repeated r "").play alternating 1 4).start false =
          (.ok (some o), true) ∧
        Repetition.orDefault (some 3) none 1 = .ok q ∧
        (pick.playRepeated q alternating 4).start false =
          (.ok (some (some (picked true), ⟨[picked true, picked false, picked true]⟩)), true) ∧
        History.payoffsForPlayer ⟨[picked true, picked false, picked true]⟩ (.int 0) = .ok us ∧
        Value.sum us = .ok sum ∧ o.payoff.forPlayer (.int 0) = .ok u ∧ (u == sum) = true := by
  have hmake : Repetition.make (some 3) none 0 = .ok (.times (σ := Bool) 3 (by decide)) := rfl
  refine ⟨_, hmake, ?_⟩
  obtain ⟨o, hplay, hhistory⟩ : ∃ o,
      ((pick.repeated (.times 3 (by decide)) "").play alternating 1 4).start false =
        (.ok (some o), true) ∧
      o.history = some ⟨[picked true, picked false, picked true]⟩ := by
    rw [play_repeated_eq rfl (by decide) rfl "" (by decide)]
    exact ⟨_, rfl, rfl⟩
  obtain ⟨h, last, hhistory', hlast, -, -, -, -, hsum, hagain⟩ :=
    (outcome_summarises_history (g := pick) hmake alternating 1 "" false).1 4 o true hplay
  obtain rfl := Option.some.inj (hhistory'.symm.trans hhistory)
  obtain rfl := Option.some.inj hlast
  have hwhole : ∀ o' ∈ (History.mk [picked true, picked false, picked true]).outcomes,
      o'.payoff.IsWhole := by
    simp [History.outcomes, picked, Payoff.IsWhole, Value.IsWhole, Value.whole?]
  obtain ⟨us, u, sum, hus, htotal, hu, hequal⟩ := hsum hwhole 0 (by decide)
  obtain ⟨q, hq, hseries⟩ := hagain (by decide)
  exact ⟨o, q, us, u, sum, hplay, hq, hseries 4 (by decide), hus, htotal, hu, hequal⟩

end Game

end ExtensiveForm
