import ExtensiveForm.Proofs.PerPlayer
import ExtensiveForm.Proofs.RoundMoves

/-!
# Who moved exactly once

The profile of a transcript is looked for ply by ply. `onlyMoves` keeps the moves known so far and
gives up at the second move of a player. `Tallied` is the invariant of this search: what was known
of a player, followed by the player's moves among the plies, is what is known in the end, and where
the search gives up someone has two moves. It follows that a profile is found exactly if every
player moved once, whatever the order of the plies and whoever else moved besides.
-/

namespace ExtensiveForm

/-- A whole number matches the numbers that are as large as it. -/
theorem Value.beq_int {v : Value} {n : Int} (hv : v.whole? = some n) (m : Int) :
    (v == .int m) = decide (n = m) := by
  cases v <;> cases hv
  · exact int_beq _ m
  · exact int_beq _ m

/-- The ply was made under the number of a player of a game for so many. -/
def Ply.isOfPlayer (numPlayers : Int) (ply : Ply) : Bool :=
  ply.player.whole?.any fun p => decide (0 ≤ p ∧ p < numPlayers)

namespace Transcript

/-- Every ply was made by chance or under a whole number, be it that of a player or not. -/
def NamesWholes (t : Transcript) : Prop :=
  ∀ ply ∈ t.plies, ply.player = .null ∨ ply.player.IsWhole

/-- The moves of one player among some plies, in the order of the plies. -/
def movesAmong (plies : List Ply) (player : Value) : List Value :=
  (plies.filter (·.player == player)).map (·.move)

variable {t t' : Transcript} {numPlayers : Int} {known : List (Nat × Value)} {plies : List Ply}
  {ply : Ply} {profile : Profile}

theorem movesAmong_cons (ply : Ply) (plies : List Ply) (player : Value) :
    movesAmong (ply :: plies) player =
      if ply.player == player then ply.move :: movesAmong plies player
      else movesAmong plies player := by
  unfold movesAmong
  rw [List.filter_cons]
  split <;> rfl

/-- The seat of a ply is the number of the player who made it, if there is one. -/
theorem seat?_tells (hply : ply.player = .null ∨ ply.player.IsWhole) (numPlayers : Int) :
    ∃ seat, seat? ply.player numPlayers = .ok seat ∧ ply.isOfPlayer numPlayers = seat.isSome ∧
      (∀ index ∈ seat, (index : Int) < numPlayers) ∧
      ∀ p : Nat, (p : Int) < numPlayers → (ply.player == .int p) = decide (seat = some p) := by
  rcases hply with hnull | hwhole
  · rw [Ply.isOfPlayer, hnull]
    exact ⟨none, rfl, rfl, nofun, fun _ _ => rfl⟩
  · obtain ⟨n, hn⟩ := Option.isSome_iff_exists.1 hwhole
    refine ⟨_, seat?_whole hn, ?_, ?_, fun p hp => ?_⟩
    · rw [Ply.isOfPlayer, hn, Option.any_some]
      split <;> simp_all
    · intro index hindex
      split at hindex
      · cases hindex
        omega
      · cases hindex
    · rw [Value.beq_int hn, decide_eq_decide]
      split
      · rw [Option.some.injEq]
        omega
      · refine ⟨fun hsame => ?_, nofun⟩
        omega

/-- What a search through some plies came to, from the moves known before it. -/
def Tallied (numPlayers : Int) (known : List (Nat × Value)) (plies : List Ply) :
    Option (List (Nat × Value)) → Prop
  | some known' => ∀ p : Nat, (p : Int) < numPlayers →
      (moveOf known p).toList ++ movesAmong plies (.int p) = (moveOf known' p).toList
  | none => ∃ p : Nat, (p : Int) < numPlayers ∧
      2 ≤ ((moveOf known p).toList ++ movesAmong plies (.int p)).length

/-- A search that goes on behind a ply tallies as the rest of it does, if what is known of each
player has the move of this ply added. -/
theorem Tallied.cons {known₁ : List (Nat × Value)} {result : Option (List (Nat × Value))}
    (h : Tallied numPlayers known₁ plies result)
    (hsame : ∀ p : Nat, (p : Int) < numPlayers →
      (moveOf known p).toList ++ movesAmong (ply :: plies) (.int p) =
        (moveOf known₁ p).toList ++ movesAmong plies (.int p)) :
    Tallied numPlayers known (ply :: plies) result := by
  cases result with
  | some known' => exact fun p hp => (hsame p hp).trans (h p hp)
  | none =>
      obtain ⟨p, hp, htwice⟩ := h
      exact ⟨p, hp, (hsame p hp).symm ▸ htwice⟩

/-- Every search comes to an end, and tallies. -/
theorem exists_tallied (numPlayers : Int)
    (hplies : ∀ ply ∈ plies, ply.player = .null ∨ ply.player.IsWhole) (known : List (Nat × Value)) :
    ∃ result, onlyMoves numPlayers known plies = .ok result ∧
      Tallied numPlayers known plies result := by
  induction plies generalizing known with
  | nil => exact ⟨some known, rfl, fun _ _ => List.append_nil _⟩
  | cons ply plies ih =>
      rw [List.forall_mem_cons] at hplies
      obtain ⟨hply, hplies⟩ := hplies
      obtain ⟨seat, hseat, -, hindex, hbeq⟩ := seat?_tells hply numPlayers
      cases seat with
      | none =>
          rw [onlyMoves_cons_none hseat]
          obtain ⟨result, honly, htallied⟩ := ih hplies known
          refine ⟨result, honly, htallied.cons fun p hp => ?_⟩
          rw [movesAmong_cons, hbeq p hp]
          rfl
      | some index =>
          have hown : movesAmong (ply :: plies) (.int index) =
              ply.move :: movesAmong plies (.int index) := by
            rw [movesAmong_cons, hbeq index (hindex index rfl), decide_eq_true rfl]
            rfl
          rw [onlyMoves_cons_some hseat]
          cases hknown : known.lookup index with
          | some move =>
              -- The player has a move already, and this is another one.
              refine ⟨none, rfl, index, hindex index rfl, ?_⟩
              rw [moveOf, hknown, hown]
              simp
          | none =>
              obtain ⟨result, honly, htallied⟩ := ih hplies ((index, ply.move) :: known)
              refine ⟨result, honly, htallied.cons fun p hp => ?_⟩
              by_cases hp' : p = index
              · subst hp'
                simp only [moveOf_cons, if_pos, hown]
                rw [moveOf, hknown]
                rfl
              · have hother : (ply.player == .int p) = false := by
                  rw [hbeq p hp]
                  exact decide_eq_false fun h => hp' (Option.some.inj h).symm
                simp only [moveOf_cons, if_neg hp', movesAmong_cons, hother]
                rfl

/-- A search from the beginning ends with the moves that are the only ones of their players. -/
theorem Tallied.movesBy_eq {known : List (Nat × Value)}
    (h : Tallied numPlayers [] t.plies (some known)) {p : Nat} (hp : (p : Int) < numPlayers) :
    t.movesBy (.int p) = (moveOf known p).toList :=
  h p hp

theorem Tallied.two_le {numPlayers : Int} (h : Tallied numPlayers [] t.plies none) :
    ∃ p : Nat, (p : Int) < numPlayers ∧ 2 ≤ (t.movesBy (.int p)).length :=
  h

theorem profile?_of_onlyMoves (h : onlyMoves numPlayers [] t.plies = .ok (some known)) :
    t.profile? numPlayers =
      .ok (((List.range numPlayers.toNat).mapM (moveOf known)).map (⟨·⟩)) := by
  unfold profile?
  rw [h]
  rfl

theorem profile?_of_onlyMoves_none (h : onlyMoves numPlayers [] t.plies = .ok none) :
    t.profile? numPlayers = .ok none := by
  unfold profile?
  rw [h]
  rfl

/-- A search for the profile of moves made by chance or under whole numbers comes to an end. -/
theorem NamesWholes.exists_profile? (ht : t.NamesWholes) (numPlayers : Int) :
    ∃ result, t.profile? numPlayers = .ok result := by
  obtain ⟨result, honly, -⟩ := exists_tallied numPlayers ht []
  cases result with
  | none => exact ⟨none, profile?_of_onlyMoves_none honly⟩
  | some known => exact ⟨_, profile?_of_onlyMoves honly⟩

/-- A profile is found if it holds, for each player, the only move of this player. -/
theorem NamesWholes.profile?_eq_some_iff (ht : t.NamesWholes) :
    t.profile? numPlayers = .ok (some profile) ↔
      profile.moves.length = numPlayers.toNat ∧ ∀ p : Nat, (p : Int) < numPlayers →
        ∃ move, t.movesBy (.int p) = [move] ∧ profile.moves[p]? = some move := by
  obtain ⟨result, honly, htallied⟩ := exists_tallied numPlayers ht []
  cases result with
  | none =>
      rw [profile?_of_onlyMoves_none honly]
      obtain ⟨p, hp, htwice⟩ := htallied.two_le
      constructor
      · intro h
        cases h
      · intro ⟨_, hmoves⟩
        obtain ⟨move, hmove, -⟩ := hmoves p hp
        rw [hmove] at htwice
        exact absurd htwice (by simp)
  | some known =>
      have honce : t.profile? numPlayers = .ok (some profile) ↔
          List.Forall₂ (fun p move => moveOf known p = some move)
            (List.range numPlayers.toNat) profile.moves := by
        obtain ⟨moves⟩ := profile
        rw [profile?_of_onlyMoves honly, Except.ok.injEq, ← mapM_eq_some_iff]
        simp
      rw [honce, forall₂_range_iff]
      refine and_congr_right fun hlength => ?_
      constructor
      · intro hmoves p hp
        have hlt : p < profile.moves.length := by omega
        have hget : profile.moves[p]? = some profile.moves[p] := List.getElem?_eq_getElem hlt
        refine ⟨_, ?_, hget⟩
        rw [htallied.movesBy_eq hp, hmoves p _ hget]
        rfl
      · intro hmoves p move hmove
        obtain ⟨hlt, -⟩ := List.getElem?_eq_some_iff.1 hmove
        obtain ⟨move', hsingle, hget⟩ := hmoves p (by omega)
        rw [htallied.movesBy_eq (by omega), Option.toList_eq_singleton_iff] at hsingle
        rw [hsingle, ← hget, hmove]

/-- The profile that holds the first move of each player, or nothing. -/
def firstMoves (t : Transcript) (numPlayers : Int) : Profile :=
  ⟨(List.range numPlayers.toNat).map fun (p : Nat) => (t.firstMoveBy? (.int p)).getD .null⟩

/-- Where each player made one move, there is a profile. -/
theorem NamesWholes.exists_profile_iff (ht : t.NamesWholes) :
    (∃ profile, t.profile? numPlayers = .ok (some profile)) ↔
      ∀ p : Nat, (p : Int) < numPlayers → (t.movesBy (.int p)).length = 1 := by
  constructor
  · intro ⟨profile, hprofile⟩ p hp
    obtain ⟨move, hmove, -⟩ := (ht.profile?_eq_some_iff.1 hprofile).2 p hp
    rw [hmove]
    rfl
  · intro honce
    refine ⟨t.firstMoves numPlayers, ht.profile?_eq_some_iff.2 ⟨by simp [firstMoves], ?_⟩⟩
    intro p hp
    obtain ⟨move, hmove⟩ := List.length_eq_one_iff.1 (honce p hp)
    have hp' : p < numPlayers.toNat := by omega
    refine ⟨move, hmove, ?_⟩
    simp [firstMoves, hp', firstMoveBy?_eq, hmove]

/-- The plies made under the number of a player, in their order. -/
def playersPlies (t : Transcript) (numPlayers : Int) : List Ply :=
  t.plies.filter (Ply.isOfPlayer numPlayers)

/-- The moves of a player are among the plies made under the number of a player. -/
theorem NamesWholes.movesBy_eq (ht : t.NamesWholes) {p : Nat} (hp : (p : Int) < numPlayers) :
    t.movesBy (.int p) = movesAmong (t.playersPlies numPlayers) (.int p) := by
  rw [movesBy, movesAmong, playersPlies, List.filter_filter]
  refine congrArg _ (List.filter_congr fun ply hply => ?_)
  obtain ⟨seat, -, hseat, -, hbeq⟩ := seat?_tells (ht ply hply) numPlayers
  rw [hseat, hbeq p hp]
  by_cases hsame : seat = some p
  · rw [hsame, Option.isSome_some, Bool.and_true]
  · rw [decide_eq_false hsame, Bool.false_and]

/-- The profile is not changed by the order of the plies of players, nor by other plies. -/
theorem NamesWholes.profile?_of_perm (ht : t.NamesWholes) (ht' : t'.NamesWholes)
    (hperm : (t.playersPlies numPlayers).Perm (t'.playersPlies numPlayers)) :
    t'.profile? numPlayers = t.profile? numPlayers := by
  have hmoves {p : Nat} (hp : (p : Int) < numPlayers) :
      (t'.movesBy (.int p)).Perm (t.movesBy (.int p)) := by
    rw [ht.movesBy_eq hp, ht'.movesBy_eq hp]
    exact ((hperm.filter _).map _).symm
  -- A list that is another order of a single move is this move.
  have hsingle {p : Nat} (hp : (p : Int) < numPlayers) (move : Value) :
      t'.movesBy (.int p) = [move] ↔ t.movesBy (.int p) = [move] := by
    rw [← List.perm_singleton, ← List.perm_singleton]
    exact ⟨(hmoves hp).symm.trans, (hmoves hp).trans⟩
  have hsome (profile : Profile) :
      t'.profile? numPlayers = .ok (some profile) ↔ t.profile? numPlayers = .ok (some profile) := by
    rw [ht.profile?_eq_some_iff, ht'.profile?_eq_some_iff]
    refine and_congr_right fun _ => forall₂_congr fun p hp => exists_congr fun move => ?_
    rw [hsingle hp]
  obtain ⟨result, hresult⟩ := ht.exists_profile? numPlayers
  obtain ⟨result', hresult'⟩ := ht'.exists_profile? numPlayers
  cases result' with
  | some profile => rw [(hsome profile).1 hresult', hresult']
  | none =>
      cases result with
      | none => rw [hresult, hresult']
      | some profile =>
          rw [(hsome profile).2 hresult] at hresult'
          cases hresult'

/-- The profile of a transcript depends only on what each player did, where every ply was made by
chance or under a whole number. The search for it comes to an end, and finds a profile exactly if
each player made one move: then this is the player's move in the profile, which has one for each
player and no more. So it makes no difference in which order the plies were made, nor which plies of
chance or under the number of no player were made besides. The first and the last move of anyone are
those of the moves made under this name, if there are any. -/
theorem profile_holds_only_moves (ht : t.NamesWholes) (numPlayers : Int) :
    (∃ result, t.profile? numPlayers = .ok result ∧
      (result.isSome = true ↔
        ∀ p : Nat, (p : Int) < numPlayers → (t.movesBy (.int p)).length = 1) ∧
      ∀ profile ∈ result, profile.moves.length = numPlayers.toNat ∧
        ∀ p : Nat, (p : Int) < numPlayers →
          ∃ move, t.movesBy (.int p) = [move] ∧ profile.forPlayer (.int p) = .ok move) ∧
    (∀ t' : Transcript, t'.NamesWholes →
      (t.playersPlies numPlayers).Perm (t'.playersPlies numPlayers) →
      t'.profile? numPlayers = t.profile? numPlayers) ∧
    ∀ player, t.firstMoveBy? player = (t.movesBy player).head? ∧
      t.lastMoveBy? player = (t.movesBy player).getLast? := by
  refine ⟨?_, fun t' ht' hperm => ht.profile?_of_perm ht' hperm,
    fun player => ⟨firstMoveBy?_eq t player, lastMoveBy?_eq t player⟩⟩
  obtain ⟨result, hresult⟩ := ht.exists_profile? numPlayers
  refine ⟨result, hresult, ?_, fun profile hprofile => ?_⟩
  · rw [← ht.exists_profile_iff, hresult, Option.isSome_iff_exists]
    exact exists_congr fun profile => by rw [Except.ok.injEq]
  · rw [Option.mem_def.1 hprofile] at hresult
    obtain ⟨hlength, hmoves⟩ := ht.profile?_eq_some_iff.1 hresult
    refine ⟨hlength, fun p hp => ?_⟩
    obtain ⟨move, hmove, hget⟩ := hmoves p hp
    exact ⟨move, hmove, Profile.forPlayer_eq_ok.2 ⟨p, rfl, hget⟩⟩

/-- Both players of a game for two made a move, the second one first, and so did chance and someone
who is no player. -/
def crowded : Transcript :=
  ofPlies [⟨.null, .text "rain"⟩, ⟨.int 1, .text "stay"⟩, ⟨.int 7, .text "shout"⟩,
    ⟨.int 0, .text "go"⟩]

/-- Both players made these moves, in their order. -/
def sparse : Transcript :=
  ofPlies [⟨.int 0, .text "go"⟩, ⟨.int 1, .text "stay"⟩]

/-- Two moves make a profile, whatever happens besides, and a single one makes none. -/
theorem crowded_holds_only_moves :
    crowded.NamesWholes ∧ sparse.NamesWholes ∧
      (crowded.playersPlies 2).Perm (sparse.playersPlies 2) ∧
      (∃ profile, crowded.profile? 2 = .ok (some profile) ∧ sparse.profile? 2 = crowded.profile? 2 ∧
        profile.forPlayer (.int 1) = .ok (.text "stay")) ∧
      crowded.profile? 3 = .ok none := by
  have hcrowded : crowded.NamesWholes := by
    simp [NamesWholes, crowded, ofPlies, plies, Value.IsWhole, Value.whole?]
  have hsparse : sparse.NamesWholes := by
    simp [NamesWholes, sparse, ofPlies, plies, Value.IsWhole, Value.whole?]
  have hperm : (crowded.playersPlies 2).Perm (sparse.playersPlies 2) := .swap _ _ _
  obtain ⟨⟨result, hresult, -, hmoves⟩, hreordered, -⟩ := profile_holds_only_moves hcrowded 2
  obtain ⟨⟨result₃, hresult₃, honce₃, -⟩, -, -⟩ := profile_holds_only_moves hcrowded 3
  refine ⟨hcrowded, hsparse, hperm, ?_, ?_⟩
  · cases hresult
    obtain ⟨-, hmoves⟩ := hmoves _ rfl
    obtain ⟨move, hmove, hforPlayer⟩ := hmoves 1 (by decide)
    cases hmove
    exact ⟨_, rfl, hreordered sparse hsparse hperm, hforPlayer⟩
  · cases result₃ with
    | none => exact hresult₃
    | some profile => cases honce₃.1 rfl 2 (by decide)

end Transcript

end ExtensiveForm
