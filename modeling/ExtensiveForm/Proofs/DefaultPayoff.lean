import ExtensiveForm.Proofs.PayoffTable

/-!
# Default payoffs

Where all players have the same actions, a table of payoffs is checked entry by entry,
`Table.Names`, before it is read. Without a default payoff it is read as any other table, and has to
be total. With one, every combination of actions is looked up in it as the tuple of these actions,
and has the default payoff if nothing is found, `Table.filled`.

So the two readings agree for tables whose keys are tuples, and for all others as far as the entry
that counts has a tuple for its key, `default_fills_gaps`. A key of another kind is accepted and
counts without a default payoff, but a default payoff takes its place, `default_overrules_profiles`.
-/

namespace ExtensiveForm

namespace Table

/-- Each entry names one of the actions and has one utility for each player. -/
def Names (t : Table Value) (actions : List Value) (numPlayers : Int) : Prop :=
  ∀ e ∈ t.entries, ∃ named utilities, e.1.items = .ok named ∧ e.2.items = .ok utilities ∧
    (named.length : Int) = numPlayers ∧ (utilities.length : Int) = numPlayers ∧
    ∀ action ∈ named, action.isAmong actions = true

theorem Names.sequences {t : Table Value} {actions : List Value} {numPlayers : Int}
    (h : t.Names actions numPlayers) : ∀ e ∈ t.entries, e.1.IsSequence ∧ e.2.IsSequence := by
  intro e he
  obtain ⟨named, utilities, hnamed, hutilities, -⟩ := h e he
  exact ⟨⟨named, hnamed⟩, utilities, hutilities⟩

/-- The table with what is found in another one for each of the tuples, or else a default. -/
def filled (t : Table Value) (tuples : List Value) (default : Value) : Table Value :=
  ofList (tuples.map fun moves => (moves, (t.find? moves).getD default))

theorem find?_filled {t : Table Value} {tuples : List Value} {default key : Value}
    (h : ∃ moves ∈ tuples, moves.alike key = true) :
    (t.filled tuples default).find? key = some ((t.find? key).getD default) := by
  rw [filled, find?_ofList]
  refine last?_map_eq_some h fun moves hmoves => ?_
  rw [find?_congr hmoves]

end Table

namespace NormalForm

variable {σ : Type} {name : String} {actions default : Value} {as utilities : List Value}
  {payoffs : Table Value} {numPlayers : Int} {g : NormalForm σ}

/-! ### The checks -/

/-- A pass of a loop that checks is passed when the check is. -/
theorem yield_eq_ok {x : Except Fault Unit} {s : ForInStep PUnit} :
    (do x; pure (ForInStep.yield PUnit.unit)) = .ok s ↔ x = .ok () ∧ s = .yield .unit := by
  rw [Run.except_bind_eq_ok]
  constructor
  · rintro ⟨_, hx, ⟨⟩⟩
    exact ⟨hx, rfl⟩
  · rintro ⟨hx, rfl⟩
    exact ⟨(), hx, rfl⟩

theorem checkEntry_eq_ok {key payoff : Value} :
    checkEntry as numPlayers key payoff = .ok () ↔
      ∃ named utilities, key.items = .ok named ∧ payoff.items = .ok utilities ∧
        (named.length : Int) = numPlayers ∧ (utilities.length : Int) = numPlayers ∧
        ∀ action ∈ named, action.isAmong as = true := by
  have hactions {named : List Value} {u : PUnit} : (forIn named PUnit.unit fun action _ =>
      if action.isAmong as = true then pure (.yield .unit) else do
        throw (.told (.refused (.unknownAction action as)))
        pure (.yield .unit) : Except Fault PUnit) = .ok u ↔
      ∀ action ∈ named, action.isAmong as = true := by
    refine forIn_eq_ok fun action s => ?_
    rw [Run.checked_eq_ok]
    exact and_congr_right fun _ => ⟨fun h => (Except.ok.inj h).symm, fun h => congrArg _ h.symm⟩
  constructor
  · intro h
    obtain ⟨named, hnamed, h⟩ := Run.except_bind_eq_ok.1 h
    obtain ⟨hlength, h⟩ := Run.checked_eq_ok.1 h
    obtain ⟨_, hsize, hrest⟩ := Run.except_bind_eq_ok.1 h
    obtain ⟨utilities, hutilities, rfl⟩ := Value.length_eq_ok_iff.1 hsize
    obtain ⟨hlength', hrest⟩ := Run.checked_eq_ok.1 hrest
    obtain ⟨_, hamong, -⟩ := Run.except_bind_eq_ok.1 hrest
    exact ⟨named, utilities, hnamed, hutilities, hlength, hlength', hactions.1 hamong⟩
  · rintro ⟨named, utilities, hnamed, hutilities, hlength, hlength', hamong⟩
    refine Run.except_bind_eq_ok.2 ⟨named, hnamed, Run.checked_eq_ok.2 ⟨hlength, ?_⟩⟩
    refine Run.except_bind_eq_ok.2 ⟨utilities.length, ?_, Run.checked_eq_ok.2 ⟨hlength', ?_⟩⟩
    · exact Value.length_eq_ok_iff.2 ⟨utilities, hutilities, rfl⟩
    · exact Run.except_bind_eq_ok.2 ⟨.unit, hactions.2 hamong, rfl⟩

/-- The checks of a table are passed when each entry names actions and has utilities. -/
theorem checks_eq_ok {u : PUnit} : (forIn payoffs.entries PUnit.unit fun e _ => do
      checkEntry as numPlayers e.1 e.2
      pure (ForInStep.yield PUnit.unit) : Except Fault PUnit) = .ok u ↔
    payoffs.Names as numPlayers := by
  rw [forIn_eq_ok fun _ _ => yield_eq_ok]
  exact forall₂_congr fun _ _ => checkEntry_eq_ok

/-! ### The two readings -/

/-- Without a default payoff, the table is read as any other one. -/
theorem ofActions_null_eq_ok (hactions : actions.items = .ok as) :
    ofActions name actions payoffs numPlayers .null = .ok g ↔ payoffs.Names as numPlayers ∧
      ofTable name (.tuple ((List.replicate numPlayers.toNat as).map .tuple)) payoffs = .ok g := by
  unfold ofActions
  rw [hactions, Run.except_ok_bind, Run.except_bind_eq_ok]
  constructor
  · rintro ⟨_, hchecks, h⟩
    exact ⟨checks_eq_ok.1 hchecks, h⟩
  · rintro ⟨hnames, h⟩
    exact ⟨.unit, checks_eq_ok.2 hnames, h⟩

/-- With one, the game is that of the table with the gaps filled. -/
theorem ofActions_default_eq_ok (hactions : actions.items = .ok as)
    (hdefault : default.items = .ok utilities) :
    ofActions name actions payoffs numPlayers default = .ok g ↔ payoffs.Names as numPlayers ∧
      (utilities.length : Int) = numPlayers ∧
      Value.AreHashable ((choices (List.replicate numPlayers.toNat as)).map .tuple) ∧
      make name (List.replicate numPlayers.toNat as) (lookUp (payoffs.filled
        ((choices (List.replicate numPlayers.toNat as)).map .tuple) default)) = .ok g := by
  have hlength : default.length = .ok utilities.length :=
    Value.length_eq_ok_iff.2 ⟨utilities, hdefault, rfl⟩
  unfold ofActions
  rw [hactions, Run.except_ok_bind, Run.except_bind_eq_ok]
  cases default with
  | null => cases hdefault
  | _ =>
    dsimp only
    rw [hlength, Run.except_ok_bind, Run.checked_eq_ok, Run.except_bind_eq_ok]
    constructor
    · rintro ⟨_, hchecks, hsize, tuples, htuples, h⟩
      obtain ⟨hhashable, rfl⟩ := Value.mapM_asKey_eq_ok_iff.1 htuples
      exact ⟨checks_eq_ok.1 hchecks, hsize, hhashable, h⟩
    · rintro ⟨hnames, hsize, hhashable, h⟩
      exact ⟨.unit, checks_eq_ok.2 hnames, hsize, _,
        Value.mapM_asKey_eq_ok_iff.2 ⟨hhashable, rfl⟩, h⟩

/-- With a default payoff, all that is asked is that there are a player and an action, that actions
can be members of keys, and that the entries pass the checks. -/
theorem exists_ofActions_default_iff (hactions : actions.items = .ok as)
    (hdefault : default.items = .ok utilities) (hsize : (utilities.length : Int) = numPlayers) :
    (∃ g : NormalForm σ, ofActions name actions payoffs numPlayers default = .ok g) ↔
      payoffs.Names as numPlayers ∧ 0 < numPlayers ∧ as ≠ [] ∧ Value.AreHashable as := by
  have hmember {P : List Value → Prop} (hplayers : 0 < numPlayers) :
      (∀ set ∈ List.replicate numPlayers.toNat as, P set) ↔ P as := by
    rw [List.forall_mem_replicate]
    exact or_iff_right fun hnobody => by omega
  simp only [ofActions_default_eq_ok hactions hdefault, exists_and_left, hsize, true_and]
  refine and_congr_right fun _ => ?_
  rw [exists_make_iff, Ne, List.replicate_eq_nil_iff, Int.toNat_eq_zero, Int.not_le]
  constructor
  · rintro ⟨hhashable, hplayers, hmoves⟩
    have hsets := Value.areHashable_of_choices hmoves hhashable
    exact ⟨hplayers, (hmember hplayers).1 hmoves, (hmember hplayers).1 hsets⟩
  · rintro ⟨hplayers, hmoves, has⟩
    exact ⟨Value.areHashable_choices ((hmember hplayers).2 has), hplayers,
      (hmember hplayers).2 hmoves⟩

section Payoffs

variable (hactions : actions.items = .ok as) (hdefault : default.items = .ok utilities)
  {p : Profile}

include hactions hdefault

/-- What is found for the moves of a valid profile, or else the default, is what it pays. -/
theorem payoff_eq_getD (hg : ofActions name actions payoffs numPlayers default = .ok g)
    (hp : g.isValidProfile p = true) :
    ∃ paid, ((payoffs.find? (.tuple p.moves)).getD default).items = .ok paid ∧
      g.payoff p = pure ⟨paid⟩ := by
  obtain ⟨hnames, -, hhashable, hg⟩ := (ofActions_default_eq_ok hactions hdefault).1 hg
  obtain ⟨hmoveSets, hpayoffOf⟩ := make_eq_ok hg
  obtain ⟨paid, hpaid⟩ : ((payoffs.find? (.tuple p.moves)).getD default).IsSequence := by
    cases hfind : payoffs.find? (.tuple p.moves) with
    | none => exact ⟨utilities, hdefault⟩
    | some entry =>
        obtain ⟨key, hmem⟩ := Table.mem_of_find? hfind
        exact (hnames.sequences _ hmem).2
  refine ⟨paid, hpaid, payoff_eq_pure hp ?_ hpaid⟩
  -- The moves need not be declared, but they match a declared choice.
  obtain ⟨choice, hchoice, halike⟩ := exists_choice_of_valid hp
  rw [hmoveSets] at hchoice
  have htuple := Value.tuple_alike.2 halike.symm
  have hmoves : (Value.tuple p.moves).isHashable = true := by
    rw [← Value.isHashable_congr htuple]
    exact hhashable _ (List.mem_map_of_mem hchoice)
  rw [hpayoffOf, lookUp, Table.lookUp_eq hmoves,
    Table.find?_filled ⟨.tuple choice, List.mem_map_of_mem hchoice, htuple⟩]
  rfl

theorem payoff_eq_entry {entry : Value}
    (hg : ofActions name actions payoffs numPlayers default = .ok g)
    (hp : g.isValidProfile p = true) (hfind : payoffs.find? (.tuple p.moves) = some entry) :
    ∃ paid, entry.items = .ok paid ∧ g.payoff p = pure ⟨paid⟩ := by
  have hpaid := payoff_eq_getD hactions hdefault hg hp
  rwa [hfind] at hpaid

theorem payoff_eq_default (hg : ofActions name actions payoffs numPlayers default = .ok g)
    (hp : g.isValidProfile p = true) (hfind : payoffs.find? (.tuple p.moves) = none) :
    g.payoff p = pure ⟨utilities⟩ := by
  obtain ⟨paid, hitems, hpayoff⟩ := payoff_eq_getD hactions hdefault hg hp
  rw [hfind, Option.getD_none, hdefault] at hitems
  cases hitems
  exact hpayoff

/-- A table that makes a game without a default payoff makes one with it, and both games pay what
the last entry for a profile says if its key is a tuple. -/
theorem exists_ofActions_default (hsize : (utilities.length : Int) = numPlayers)
    (hg : ofActions name actions payoffs numPlayers .null = .ok g) :
    ∃ g' : NormalForm σ, ofActions name actions payoffs numPlayers default = .ok g' ∧
      g'.moveSets = g.moveSets ∧ ∀ p, g.isValidProfile p = true →
        ∃ entry, payoffs.LastFor p.moves entry ∧
          (payoffs.find? (.tuple p.moves) = some entry → g'.payoff p = g.payoff p) := by
  obtain ⟨hnames, htable⟩ := (ofActions_null_eq_ok hactions).1 hg
  have hsets := Value.itemLists_tuple (List.replicate numPlayers.toNat as)
  obtain ⟨hcovers, hkeyed⟩ := (exists_ofTable_iff hnames.sequences hsets).1 ⟨g, htable⟩
  obtain ⟨g', hmake⟩ : ∃ g' : NormalForm σ, make name (List.replicate numPlayers.toNat as)
      (lookUp (payoffs.filled _ default)) = .ok g' :=
    exists_make hcovers.hasPlayer hcovers.hasMoves
  have hg' := (ofActions_default_eq_ok hactions hdefault).2 
    ⟨hnames, hsize, Value.areHashable_choices hkeyed.moves, hmake⟩
  have hmoveSets : g'.moveSets = g.moveSets := by
    rw [(make_eq_ok hmake).1, moveSets_of_ofTable hnames.sequences hsets htable]
  refine ⟨g', hg', hmoveSets, fun p hp => ?_⟩
  obtain ⟨entry, paid, hlast, hitems, -, hpayoff⟩ :=
    payoff_eq_lastFor hnames.sequences hsets htable hp
  refine ⟨entry, hlast, fun hfind => ?_⟩
  have hp' : g'.isValidProfile p = true := by
    rwa [isValidProfile_iff, hmoveSets, ← isValidProfile_iff]
  obtain ⟨paid', hitems', hpayoff'⟩ := payoff_eq_entry hactions hdefault hg' hp' hfind
  rw [hitems] at hitems'
  cases hitems'
  rw [hpayoff', hpayoff]

end Payoffs

/-- A default payoff only fills the gaps of a table whose keys are tuples. Where a table makes a
game without a default payoff, it makes one with the same moves with it, and a profile has the same
payoff in both if the last entry for its moves has a tuple as its key. A game with a default payoff
needs nothing but entries that pass the checks and actions that can be members of keys, and pays
every profile what is found in the table for the tuple of its moves, or the default payoff if
nothing is found. -/
theorem default_fills_gaps (name : String) {actions default : Value} {as utilities : List Value}
    {payoffs : Table Value} {numPlayers : Int} (hactions : actions.items = .ok as)
    (hdistinct : payoffs.Distinct) (hdefault : default.items = .ok utilities)
    (hsize : (utilities.length : Int) = numPlayers) :
    (∀ g : NormalForm σ, ofActions name actions payoffs numPlayers .null = .ok g →
      ∃ g' : NormalForm σ, ofActions name actions payoffs numPlayers default = .ok g' ∧
        g'.moveSets = g.moveSets ∧
        (∀ p entry, g.isValidProfile p = true → payoffs.LastFor p.moves entry →
          payoffs.find? (.tuple p.moves) = some entry → g'.payoff p = g.payoff p) ∧
        (payoffs.TupleKeys → ∀ p, g.isValidProfile p = true → g'.payoff p = g.payoff p)) ∧
    ((∃ g : NormalForm σ, ofActions name actions payoffs numPlayers default = .ok g) ↔
      payoffs.Names as numPlayers ∧ 0 < numPlayers ∧ as ≠ [] ∧ Value.AreHashable as) ∧
    ∀ g : NormalForm σ, ofActions name actions payoffs numPlayers default = .ok g →
      g.moveSets = List.replicate numPlayers.toNat as ∧
      ∀ p, g.isValidProfile p = true →
        (∀ entry, payoffs.find? (.tuple p.moves) = some entry →
          ∃ paid, entry.items = .ok paid ∧ g.payoff p = pure ⟨paid⟩) ∧
        (payoffs.find? (.tuple p.moves) = none → g.payoff p = pure ⟨utilities⟩) ∧
        (payoffs.TupleKeys →
          (∀ entry, payoffs.LastFor p.moves entry →
            ∃ paid, entry.items = .ok paid ∧ g.payoff p = pure ⟨paid⟩) ∧
          ((∀ e ∈ payoffs.entries, ¬ e.1.IsFor p.moves) → g.payoff p = pure ⟨utilities⟩)) := by
  refine ⟨fun g hg => ?_, exists_ofActions_default_iff hactions hdefault hsize,
    fun g hg => ⟨?_, fun p hp => ⟨fun entry hfind => ?_, fun hfind => ?_, fun htuples => ?_⟩⟩⟩
  · obtain ⟨g', hg', hmoveSets, hagree⟩ := exists_ofActions_default hactions hdefault hsize hg
    refine ⟨g', hg', hmoveSets, fun p entry hp hlast hfind => ?_, fun htuples p hp => ?_⟩
    · obtain ⟨entry', hlast', hpayoff⟩ := hagree p hp
      rw [hlast'.unique hlast] at hpayoff
      exact hpayoff hfind
    · obtain ⟨entry, hlast, hpayoff⟩ := hagree p hp
      exact hpayoff ((Table.lastFor_iff hdistinct htuples).1 hlast)
  · exact (make_eq_ok ((ofActions_default_eq_ok hactions hdefault).1 hg).2.2.2).1
  · exact payoff_eq_entry hactions hdefault hg hp hfind
  · exact payoff_eq_default hactions hdefault hg hp hfind
  · refine ⟨fun entry hlast => ?_, fun hnone => ?_⟩
    · exact payoff_eq_entry hactions hdefault hg hp ((Table.lastFor_iff hdistinct htuples).1 hlast)
    · refine payoff_eq_default hactions hdefault hg hp (by_contra fun hsome => ?_)
      obtain ⟨e, he, hfor⟩ := (Table.exists_isFor_iff htuples).2 hsome
      exact hnone e he hfor

/-- One entry for two players who choose the same letter. -/
def sameLetter : Table Value :=
  ⟨[(.tuple [.text "a", .text "a"], .tuple [.int 1, .int 1])]⟩

/-- With one letter to choose, the entry is all of the table, with or without a default payoff. With
two letters it leaves gaps. -/
theorem default_fills_gaps_of_letters :
    (∃ g g' : NormalForm Unit, ofActions "" (.text "a") sameLetter 2 .null = .ok g ∧
      ofActions "" (.text "a") sameLetter 2 (.list [.int 0, .int 0]) = .ok g' ∧
      ∀ p, g.isValidProfile p = true → g'.payoff p = g.payoff p) ∧
    ∃ g : NormalForm Unit, ofActions "" (.text "ab") sameLetter 2 (.list [.int 0, .int 0]) = .ok g ∧
      g.payoff ⟨[.text "a", .text "a"]⟩ = pure ⟨[.int 1, .int 1]⟩ ∧
      g.payoff ⟨[.text "b", .text "a"]⟩ = pure ⟨[.int 0, .int 0]⟩ := by
  have hdistinct : sameLetter.Distinct := List.pairwise_singleton _ _
  have htuples : sameLetter.TupleKeys :=
    fun e he => ⟨_, congrArg Prod.fst (List.mem_singleton.1 he)⟩
  have hdefault : (Value.list [.int 0, .int 0]).items = .ok [.int 0, .int 0] := rfl
  have hsize : (([.int 0, .int 0] : List Value).length : Int) = 2 := rfl
  constructor
  · have hactions : (Value.text "a").items = .ok [.text "a"] := rfl
    obtain ⟨hagree, -⟩ := default_fills_gaps (σ := Unit) "" hactions hdistinct hdefault hsize
    obtain ⟨g', hg', -, -, hpayoff⟩ := hagree _ rfl
    exact ⟨_, g', rfl, hg', hpayoff htuples⟩
  · have hactions : (Value.text "ab").items = .ok [.text "a", .text "b"] := rfl
    obtain ⟨-, -, hpaid⟩ := default_fills_gaps (σ := Unit) "" hactions hdistinct hdefault hsize
    obtain ⟨-, hpayoff⟩ := hpaid _ rfl
    refine ⟨_, rfl, ?_, ?_⟩
    · obtain ⟨hentry, -⟩ := hpayoff ⟨[.text "a", .text "a"]⟩ rfl
      obtain ⟨_, ⟨⟩, hpaid⟩ := hentry _ rfl
      exact hpaid
    · obtain ⟨-, hunpaid, -⟩ := hpayoff ⟨[.text "b", .text "a"]⟩ rfl
      exact hunpaid rfl

/-- One entry for two players, whose key is a profile. -/
def keyedByProfile : Table Value :=
  ⟨[(.profile ⟨[.text "a", .text "a"]⟩, .tuple [.int 1, .int 1])]⟩

/-- The entry of a profile is accepted and counts, but not where there is a default payoff. So this
does more than fill gaps. -/
theorem default_overrules_profiles : ¬ ∀ (as utilities : List Value) (payoffs : Table Value),
    payoffs.Distinct → ∀ g : NormalForm Unit,
      ofActions "" (.tuple as) payoffs utilities.length .null = .ok g →
      ∃ g' : NormalForm Unit,
        ofActions "" (.tuple as) payoffs utilities.length (.tuple utilities) = .ok g' ∧
          ∀ p, g.isValidProfile p = true → g'.payoff p = g.payoff p := by
  intro h
  obtain ⟨g', hg', hagree⟩ := h [.text "a"] [.int 0, .int 0] keyedByProfile
    (List.pairwise_singleton _ _) _ rfl
  have hvalid : g'.isValidProfile ⟨[.text "a", .text "a"]⟩ = true := by
    cases hg'
    rfl
  have hpaid := hagree ⟨[.text "a", .text "a"]⟩ rfl
  rw [payoff_eq_default rfl rfl hg' hvalid rfl] at hpaid
  have hutilities : (Except.ok ⟨[.int 0, .int 0]⟩ : Except Fault Payoff) =
      .ok ⟨[.int 1, .int 1]⟩ := congrArg (fun x => (x.start ()).1) hpaid
  cases hutilities

end NormalForm

end ExtensiveForm
