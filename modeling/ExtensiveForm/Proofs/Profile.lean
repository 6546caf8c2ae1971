import ExtensiveForm.Tree.Node
import ExtensiveForm.Proofs.Equality

/-!
# Profiles of transcripts

A transcript has a profile only if every player moved exactly once. Where this is not so, making all
the moves once more does not help: `profile?_copies` says that copies of a transcript without a
profile have none either.

Equal transcripts have equal profiles, unless the second one names a player by a double
(`profile?_of_beq`): a double that equals the number of a player is none, and cannot be counted for
one.
-/

namespace ExtensiveForm.Transcript

theorem addAll_append (t : Transcript) (ps qs : List Ply) :
    t.addAll (ps ++ qs) = (t.addAll ps).addAll qs := by
  simp only [addAll, List.foldl_append]

theorem addAll_eq (t : Transcript) (ps : List Ply) :
    t.addAll ps = ⟨ps.reverse ++ t.latestFirst⟩ := by
  induction ps generalizing t with
  | nil =>
      obtain ⟨latestFirst⟩ := t
      rfl
  | cons p ps ih =>
      show (t.add p).addAll ps = _
      simp [ih, add]

theorem plies_addAll (t : Transcript) (plies : List Ply) :
    (t.addAll plies).plies = t.plies ++ plies := by
  simp [addAll_eq, Transcript.plies]

/-- The moves of a player are those made before and those made since. -/
theorem movesBy_addAll (t : Transcript) (plies : List Ply) (player : Value) :
    (t.addAll plies).movesBy player =
      t.movesBy player ++ (plies.filter (·.player == player)).map (·.move) := by
  rw [movesBy, plies_addAll, List.filter_append, List.map_append, movesBy]

/-- The same moves so many times. -/
def copies (t : Transcript) (count : Nat) : Transcript :=
  ⟨(List.replicate count t.latestFirst).flatten⟩

theorem addAll_replicate (ps : List Ply) (count : Nat) :
    empty.addAll (List.replicate count ps).flatten = (empty.addAll ps).copies count := by
  simp [addAll_eq, copies, empty, List.reverse_flatten]

variable {numPlayers : Int} {known known' : List (Nat × Value)}

theorem onlyMoves_cons_none {p : Ply} {ps : List Ply}
    (hseat : seat? p.player numPlayers = .ok none) :
    onlyMoves numPlayers known (p :: ps) = onlyMoves numPlayers known ps := by
  rw [onlyMoves, hseat]
  rfl

theorem onlyMoves_cons_some {p : Ply} {ps : List Ply} {index : Nat}
    (hseat : seat? p.player numPlayers = .ok (some index)) :
    onlyMoves numPlayers known (p :: ps) =
      if (known.lookup index).isSome then .ok none
      else onlyMoves numPlayers ((index, p.move) :: known) ps := by
  rw [onlyMoves, hseat]
  rfl

theorem onlyMoves_cons_error {p : Ply} {ps : List Ply} {f : Fault}
    (hseat : seat? p.player numPlayers = .error f) :
    onlyMoves numPlayers known (p :: ps) = .error f := by
  rw [onlyMoves, hseat]
  rfl

/-- Moves made after others count only if each player moved no more than once before. -/
theorem onlyMoves_append (ps qs : List Ply) :
    onlyMoves numPlayers known (ps ++ qs) =
      (onlyMoves numPlayers known ps).bind fun
        | none => .ok none
        | some known => onlyMoves numPlayers known qs := by
  induction ps generalizing known with
  | nil => rfl
  | cons p ps ih =>
      rw [List.cons_append]
      rcases hseat : seat? p.player numPlayers with f | _ | index
      · rw [onlyMoves_cons_error hseat, onlyMoves_cons_error hseat]
        rfl
      · rw [onlyMoves_cons_none hseat, onlyMoves_cons_none hseat, ih]
      · rw [onlyMoves_cons_some hseat, onlyMoves_cons_some hseat]
        by_cases hknown : (known.lookup index).isSome
        · rw [if_pos hknown, if_pos hknown]
          rfl
        · rw [if_neg hknown, if_neg hknown, ih]

/-- A player who is known stays known. -/
theorem lookup_isSome_of_onlyMoves {ps : List Ply}
    (h : onlyMoves numPlayers known ps = .ok (some known')) {index : Nat}
    (hindex : (known.lookup index).isSome) : (known'.lookup index).isSome := by
  induction ps generalizing known with
  | nil =>
      cases h
      exact hindex
  | cons p ps ih =>
      rcases hseat : seat? p.player numPlayers with f | _ | index'
      · rw [onlyMoves_cons_error hseat] at h
        cases h
      · rw [onlyMoves_cons_none hseat] at h
        exact ih h hindex
      · rw [onlyMoves_cons_some hseat] at h
        by_cases hknown : (known.lookup index').isSome
        · rw [if_pos hknown] at h
          cases h
        · rw [if_neg hknown] at h
          refine ih h ?_
          rw [List.lookup_cons]
          split
          · rfl
          · exact hindex

/-- Whoever made some moves once, and makes them again, moves twice; if nobody did, nothing new
becomes known. -/
theorem onlyMoves_again {ps : List Ply} {before : List (Nat × Value)}
    (h : onlyMoves numPlayers before ps = .ok (some known'))
    (hknown : ∀ index, (known'.lookup index).isSome → (known.lookup index).isSome) :
    onlyMoves numPlayers known ps = .ok none ∨
      onlyMoves numPlayers known ps = .ok (some known) := by
  induction ps generalizing before with
  | nil => exact .inr rfl
  | cons p ps ih =>
      rcases hseat : seat? p.player numPlayers with f | _ | index
      · rw [onlyMoves_cons_error hseat] at h
        cases h
      -- A move without a seat is passed over. The first one with a seat is a second one of its
      -- player.
      · rw [onlyMoves_cons_none hseat] at h ⊢
        exact ih h
      · rw [onlyMoves_cons_some hseat] at h
        by_cases hbefore : (before.lookup index).isSome
        · rw [if_pos hbefore] at h
          cases h
        · rw [if_neg hbefore] at h
          have hindex : (known'.lookup index).isSome := lookup_isSome_of_onlyMoves h (by simp)
          rw [onlyMoves_cons_some hseat, if_pos (hknown index hindex)]
          exact .inl rfl

/-- All that is known after copies of some moves is known after the first of them. -/
theorem onlyMoves_replicate {ps : List Ply} (h : onlyMoves numPlayers [] ps = .ok (some known))
    (count : Nat) :
    onlyMoves numPlayers known (List.replicate count ps).flatten = .ok none ∨
      onlyMoves numPlayers known (List.replicate count ps).flatten = .ok (some known) := by
  induction count with
  | zero => exact .inr rfl
  | succ count ih =>
      rw [List.replicate_succ, List.flatten_cons, onlyMoves_append]
      rcases onlyMoves_again h fun _ hindex => hindex with hnone | hsome
      · rw [hnone]
        exact .inl rfl
      · rw [hsome]
        exact ih

/-- Copies of a transcript without a profile have none either. -/
theorem profile?_copies {t : Transcript} (h : t.profile? numPlayers = .ok none) {count : Nat}
    (hcount : 1 ≤ count) : (t.copies count).profile? numPlayers = .ok none := by
  obtain ⟨count, rfl⟩ : ∃ k, count = k + 1 := ⟨count - 1, by omega⟩
  have hplies : (t.copies (count + 1)).plies = (List.replicate (count + 1) t.plies).flatten := by
    simp [plies, copies, List.reverse_flatten]
  unfold profile? at h ⊢
  rw [hplies, List.replicate_succ, List.flatten_cons, onlyMoves_append]
  rcases honly : onlyMoves numPlayers [] t.plies with f | _ | known
  · rw [honly] at h
    cases h
  · rfl
  · rw [honly] at h
    rcases onlyMoves_replicate honly count with hnone | hsome
    · simp only [Except.bind, hnone]
      rfl
    · simp only [Except.bind, hsome]
      exact h

/-! ### Equal transcripts -/

/-- No move of the transcript was made by someone whose name is a double. -/
def NamesPlayers (t : Transcript) : Prop :=
  ∀ p ∈ t.latestFirst, ∀ x, p.player ≠ .double x

theorem seat?_whole {player : Value} {p : Int} (h : player.whole? = some p) :
    seat? player numPlayers =
      .ok (if 0 ≤ p ∧ p < numPlayers then some p.toNat else none) := by
  cases player <;> cases h <;> rfl

theorem seat?_other {player : Value} {x : Number} (hnumber : player.number? = some x)
    (hwhole : player.whole? = none) :
    seat? player numPlayers =
      if (Number.ofInt 0).atMost x && x.below (.ofInt numPlayers) then .error .wrongType
      else .ok none := by
  cases player <;> cases hwhole <;> cases hnumber <;> rfl

theorem seat?_none {player : Value} (hnull : player ≠ .null) (hnumber : player.number? = none) :
    seat? player numPlayers = .error .wrongType := by
  cases player <;> cases hnumber <;> first | rfl | exact absurd rfl hnull

/-- The same number of a player is meant by values that match, unless the second one is a double. -/
theorem seat?_of_alike {player player' : Value} {seat : Option Nat}
    (halike : player.alike player' = true) (hname : ∀ x, player' ≠ .double x)
    (h : seat? player numPlayers = .ok seat) : seat? player' numPlayers = .ok seat := by
  have hnumber := Value.number?_eq halike
  cases hwhole' : player'.whole? with
  | some p =>
      rw [Value.number?_of_whole? hwhole'] at hnumber
      rw [seat?_whole hwhole']
      cases hwhole : player.whole? with
      | some q =>
          rw [Value.number?_of_whole? hwhole, Option.some.injEq, Number.ofInt_inj] at hnumber
          rw [← hnumber, ← seat?_whole hwhole, h]
      | none =>
          -- A double in the range of players is refused, so this number is out of range.
          rw [seat?_other hnumber hwhole] at h
          split at h
          · cases h
          · rename_i hrange
            rw [Bool.and_eq_true, Number.ofInt_atMost, Number.ofInt_below] at hrange
            rw [if_neg hrange, h]
  | none =>
      -- A double is the only value that has a number besides whole ones and what is no number.
      cases hnumber' : player'.number? with
      | some x =>
          obtain rfl : x = .undefined := by
            cases player' <;> cases hwhole' <;> cases hnumber' <;>
              first | rfl | exact absurd rfl (hname _)
          rw [hnumber'] at hnumber
          have hwhole : player.whole? = none := by
            cases hplayer : player.whole? with
            | none => rfl
            | some p => cases (Value.number?_of_whole? hplayer).symm.trans hnumber
          rw [seat?_other hnumber' hwhole', ← seat?_other hnumber hwhole, h]
      | none =>
          by_cases hnull : player = .null
          · subst hnull
            rw [Value.null_alike halike, h]
          · rw [seat?_none hnull (hnumber.trans hnumber')] at h
            cases h

/-- The same players are known on both sides, by moves that match. -/
abbrev SameKnown (known known' : List (Nat × Value)) : Prop :=
  List.Forall₂ (fun a b => a.1 = b.1 ∧ a.2.alike b.2 = true) known known'

theorem SameKnown.lookup (h : SameKnown known known') (index : Nat) :
    Option.Rel (fun v w => v.alike w = true) (known.lookup index) (known'.lookup index) := by
  induction h with
  | nil => exact .none
  | @cons a b as bs hhead _ ih =>
      obtain ⟨hindex, hmoves⟩ := hhead
      obtain ⟨i, v⟩ := a
      obtain ⟨j, w⟩ := b
      obtain rfl : i = j := hindex
      rw [List.lookup_cons, List.lookup_cons]
      split
      · exact .some hmoves
      · exact ih

/-- Where moves match, the same players moved once, and those moves match. -/
theorem onlyMoves_of_alike {ps qs : List Ply} (hknown : SameKnown known known')
    (hplies : List.Forall₂ Ply.Alike ps qs) (hnames : ∀ q ∈ qs, ∀ x, q.player ≠ .double x)
    {result : Option (List (Nat × Value))} (h : onlyMoves numPlayers known ps = .ok result) :
    ∃ result', onlyMoves numPlayers known' qs = .ok result' ∧
      Option.Rel SameKnown result result' := by
  induction hplies generalizing known known' with
  | nil =>
      cases h
      exact ⟨_, rfl, .some hknown⟩
  | @cons p q ps qs hhead _ ih =>
      rw [List.forall_mem_cons] at hnames
      rcases hseat : seat? p.player numPlayers with f | _ | index
      · rw [onlyMoves_cons_error hseat] at h
        cases h
      · have hseat' := seat?_of_alike hhead.1 hnames.1 hseat
        rw [onlyMoves_cons_none hseat] at h
        rw [onlyMoves_cons_none hseat']
        exact ih hknown hnames.2 h
      · have hseat' := seat?_of_alike hhead.1 hnames.1 hseat
        have hlookup := hknown.lookup index
        have hnew : SameKnown ((index, p.move) :: known) ((index, q.move) :: known') :=
          .cons ⟨rfl, hhead.2⟩ hknown
        rw [onlyMoves_cons_some hseat] at h
        rw [onlyMoves_cons_some hseat']
        cases hleft : known.lookup index <;> cases hright : known'.lookup index <;>
          rw [hleft, hright] at hlookup <;> cases hlookup <;> rw [hleft] at h
        · exact ih hnew hnames.2 h
        · cases h
          exact ⟨none, rfl, .none⟩

theorem lookups_of_sameKnown (h : SameKnown known known') (indices : List Nat) :
    Option.Rel Value.AllAlike (indices.mapM fun index => known.lookup index)
      (indices.mapM fun index => known'.lookup index) := by
  induction indices with
  | nil => exact .some .nil
  | cons index indices ih =>
      have hlookup := h.lookup index
      rw [List.mapM_cons, List.mapM_cons]
      cases hleft : known.lookup index <;> cases hright : known'.lookup index <;>
        rw [hleft, hright] at hlookup <;> cases hlookup
      · exact .none
      · rename_i hmove
        cases hrest : indices.mapM fun index => known.lookup index <;>
          cases hrest' : indices.mapM fun index => known'.lookup index <;>
            rw [hrest, hrest'] at ih <;> cases ih
        · exact .none
        · exact .some (.cons hmove ‹_›)

theorem formOr_alike {moves? moves'? : Option (List Value)}
    (h : Option.Rel Value.AllAlike moves? moves'?) :
    (Profile.formOr (moves?.map (⟨·⟩))).alike (Profile.formOr (moves'?.map (⟨·⟩))) = true := by
  cases h with
  | none => rfl
  | @some moves moves' hmoves =>
      exact (Profile.beq_iff (p := ⟨moves⟩) (q := ⟨moves'⟩)).2 hmoves

/-- Equal transcripts have equal profiles, unless the second one names a player by a double. -/
theorem profile?_of_beq {t t' : Transcript} (heq : (t == t') = true) (hnames : t'.NamesPlayers)
    {profile : Option Profile} (h : t.profile? numPlayers = .ok profile) :
    ∃ profile', t'.profile? numPlayers = .ok profile' ∧
      (Profile.formOr profile).alike (Profile.formOr profile') = true := by
  have hplies : List.Forall₂ Ply.Alike t.plies t'.plies :=
    List.forall₂_reverse_iff.2 (beq_iff.1 heq)
  have hnames' : ∀ q ∈ t'.plies, ∀ x, q.player ≠ .double x := fun q hq =>
    hnames q (List.mem_reverse.1 hq)
  unfold profile? at h ⊢
  rcases honly : onlyMoves numPlayers [] t.plies with f | result
  · rw [honly] at h
    cases h
  · rw [honly] at h
    obtain ⟨result', honly', hresult⟩ := onlyMoves_of_alike .nil hplies hnames' honly
    rw [honly']
    cases hresult with
    | none =>
        cases h
        exact ⟨none, rfl, rfl⟩
    | some hknown =>
        cases h
        refine ⟨_, rfl, ?_⟩
        exact formOr_alike (lookups_of_sameKnown hknown _)

/-! ### Moves under the numbers of players -/

variable {t : Transcript}

/-- Every move was made by chance or under the number of a player. -/
def NamesNumbers (t : Transcript) : Prop :=
  ∀ ply ∈ t.plies, ply.player = .null ∨ ∃ p : Nat, ply.player = .int p

theorem NamesNumbers.addAll (h : t.NamesNumbers) {plies : List Ply}
    (hplies : ∀ ply ∈ plies, ply.player = .null ∨ ∃ p : Nat, ply.player = .int p) :
    (t.addAll plies).NamesNumbers := by
  intro ply hply
  rw [plies_addAll] at hply
  rcases List.mem_append.1 hply with hply | hply
  · exact h ply hply
  · exact hplies ply hply

/-- What is done by chance or under the number of a player counts for a player or for none. -/
theorem exists_seat {player : Value} (h : player = .null ∨ ∃ p : Nat, player = .int p)
    (numPlayers : Int) : ∃ seat, seat? player numPlayers = .ok seat := by
  rcases h with rfl | ⟨p, rfl⟩
  · exact ⟨none, rfl⟩
  · exact ⟨_, seat?_whole rfl⟩

/-- Where every move was made by chance or under the number of a player, it can be told who moved
exactly once. -/
theorem exists_onlyMoves {plies : List Ply}
    (h : ∀ ply ∈ plies, ply.player = .null ∨ ∃ p : Nat, ply.player = .int p)
    (known : List (Nat × Value)) : ∃ result, onlyMoves numPlayers known plies = .ok result := by
  induction plies generalizing known with
  | nil => exact ⟨_, rfl⟩
  | cons ply plies ih =>
      rw [List.forall_mem_cons] at h
      obtain ⟨hfirst, hrest⟩ := h
      obtain ⟨seat, hseat⟩ := exists_seat hfirst numPlayers
      cases seat with
      | none =>
          rw [onlyMoves_cons_none hseat]
          exact ih hrest known
      | some index =>
          rw [onlyMoves_cons_some hseat]
          split
          · exact ⟨none, rfl⟩
          · exact ih hrest _

theorem NamesNumbers.profile? (h : t.NamesNumbers) :
    ∃ profile, t.profile? numPlayers = .ok profile := by
  have honly : ∃ result, onlyMoves numPlayers [] t.plies = .ok result := exists_onlyMoves h []
  obtain ⟨result, honly⟩ := honly
  unfold Transcript.profile?
  rw [honly]
  cases result <;> exact ⟨_, rfl⟩

end ExtensiveForm.Transcript

namespace ExtensiveForm.Ending

/-- The profile of a play that ends here: the given one, or that of the moves. -/
def profileAfter (e : Ending) (t : Transcript) (numPlayers : Int) : Except Fault (Option Profile) :=
  match e.profile with
  | some profile => .ok (some profile)
  | none => t.profile? numPlayers

variable {e : Ending} {t : Transcript} {numPlayers : Int}

theorem outcome_eq (hsize : (e.payoff.values.length : Int) = numPlayers) :
    e.outcome t numPlayers = (e.profileAfter t numPlayers).map (⟨e.payoff, ·, t, e.history⟩) := by
  unfold outcome profileAfter
  simp only [hsize]
  cases e.profile with
  | some profile => rfl
  | none => cases t.profile? numPlayers <;> rfl

theorem outcome_eq_error (hsize : (e.payoff.values.length : Int) ≠ numPlayers) :
    e.outcome t numPlayers =
      .error (.told (.invalidPayoff e.payoff.values numPlayers e.state)) := by
  unfold outcome
  simp only [hsize]
  rfl

/-- What the outcome of a play says about the end that it came to. -/
theorem outcome_eq_ok {o : Outcome} (h : e.outcome t numPlayers = .ok o) :
    (e.payoff.values.length : Int) = numPlayers ∧ o.payoff = e.payoff ∧ o.transcript = t ∧
      o.history = e.history ∧ e.profileAfter t numPlayers = .ok o.profile := by
  by_cases hsize : (e.payoff.values.length : Int) = numPlayers
  · rw [outcome_eq hsize] at h
    cases hprofile : e.profileAfter t numPlayers with
    | error f =>
        rw [hprofile] at h
        cases h
    | ok profile =>
        rw [hprofile] at h
        cases h
        exact ⟨hsize, rfl, rfl, rfl, rfl⟩
  · rw [outcome_eq_error hsize] at h
    cases h

/-- A payoff for each player and moves under the numbers of players make an outcome. -/
theorem exists_outcome (hsize : (e.payoff.values.length : Int) = numPlayers)
    (ht : t.NamesNumbers) : ∃ o, e.outcome t numPlayers = .ok o := by
  rw [outcome_eq hsize, profileAfter]
  cases e.profile with
  | some profile => exact ⟨_, rfl⟩
  | none =>
      have hprofile : ∃ profile, t.profile? numPlayers = .ok profile := ht.profile?
      obtain ⟨profile, hprofile⟩ := hprofile
      rw [hprofile]
      exact ⟨_, rfl⟩

end ExtensiveForm.Ending
