import ExtensiveForm.Game.PayoffTable
import ExtensiveForm.Proofs.Gaps
import ExtensiveForm.Proofs.NormalForm
import ExtensiveForm.Proofs.Payments
import ExtensiveForm.Proofs.Table

/-!
# Games given by a table

The keys of a table of payoffs are read as tuples of moves. `Table.Covers` says which tables are
accepted: those with a key for every choice of moves, all of whose payoffs are of the right size,
also those that are for no choice at all. A profile is paid by the last entry that is for its moves,
`Table.LastFor`, so moves and keys that are equal without being the same are no obstacle.

Keys are looked up by what they hold, so the moves and the members of the keys must not hold lists:
`Table.Keyed`. The main result, `accepts_tables_that_cover`, says what comes of tables that are
keyed in this way and of others, and adds that no play of such a game finds a gap in its rules.
-/

namespace ExtensiveForm

namespace Value

/-- The value has members in order. -/
def IsSequence (v : Value) : Prop :=
  ∃ items, v.items = .ok items

/-- The members of a value. -/
def members (v : Value) : List Value :=
  v.items.toOption.getD []

/-- The value, read as a tuple, is the tuple of these moves, or one that matches it. -/
def IsFor (key : Value) (moves : List Value) : Prop :=
  ∃ named, key.items = .ok named ∧ AllAlike named moves

variable {v key : Value} {moves items : List Value} {lists : List (List Value)}

theorem members_eq (h : v.items = .ok items) : v.members = items := by
  rw [members, h]
  rfl

theorem IsSequence.items_eq (h : v.IsSequence) : v.items = .ok v.members := by
  obtain ⟨items, hitems⟩ := h
  rw [hitems, members_eq hitems]

theorem length_eq_ok_iff {n : Nat} :
    v.length = .ok n ↔ ∃ items, v.items = .ok items ∧ items.length = n := by
  rw [length]
  cases v.items with
  | error e => exact ⟨nofun, nofun⟩
  | ok items =>
      constructor
      · intro h
        exact ⟨items, rfl, Except.ok.inj h⟩
      · rintro ⟨_, ⟨⟩, rfl⟩
        rfl

theorem IsSequence.length_eq_ok_iff (h : v.IsSequence) {n : Nat} :
    v.length = .ok n ↔ v.members.length = n := by
  rw [Value.length_eq_ok_iff, h.items_eq]
  simp

theorem IsSequence.isFor_iff (h : key.IsSequence) :
    key.IsFor moves ↔ (tuple key.members).alike (.tuple moves) = true := by
  rw [tuple_alike]
  constructor
  · rintro ⟨named, hnamed, halike⟩
    rwa [members_eq hnamed]
  · intro halike
    exact ⟨key.members, h.items_eq, halike⟩

theorem itemLists_eq_ok (h : v.itemLists = .ok lists) : v.length = .ok lists.length := by
  obtain ⟨items, hitems, hlists⟩ := Run.except_bind_eq_ok.1 h
  exact length_eq_ok_iff.2 ⟨items, hitems, (mapM_eq_ok_iff.1 hlists).length_eq⟩

/-- What is chosen from values that can be members of keys is a key. -/
theorem areHashable_choices {sets : List (List Value)} (h : ∀ set ∈ sets, AreHashable set) :
    AreHashable ((choices sets).map .tuple) := by
  refine List.forall_mem_map.2 fun choice hchoice => isHashable_tuple.2 fun v hv => ?_
  obtain ⟨set, hset, hmem⟩ := exists_of_mem_right (mem_choices.1 hchoice) hv
  exact h set hset v hmem

theorem areHashable_of_choices {sets : List (List Value)} (hsets : ∀ set ∈ sets, set ≠ [])
    (h : AreHashable ((choices sets).map .tuple)) : ∀ set ∈ sets, AreHashable set := by
  intro set hset v hv
  obtain ⟨choice, hchoice, hmem⟩ := exists_choice_mem hsets hset hv
  exact isHashable_tuple.1 (h _ (List.mem_map_of_mem hchoice)) v hmem

/-- A tuple of tuples is read as their members. -/
theorem itemLists_tuple (lists : List (List Value)) :
    (tuple (lists.map .tuple)).itemLists = .ok lists :=
  mapM_eq_ok_iff.2 (List.forall₂_map_left_iff.2 (List.forall₂_same.2 fun _ _ => rfl))

end Value

namespace Table

variable {t : Table Value} {sets : List (List Value)} {moves : List Value} {entry : Value}

/-- This is the last entry of the table that is for these moves. -/
def LastFor (t : Table Value) (moves : List Value) (entry : Value) : Prop :=
  ∃ before key after, t.entries = before ++ (key, entry) :: after ∧ key.IsFor moves ∧
    ∀ later ∈ after, ¬ later.1.IsFor moves

/-- There is a player, every player has a move, every entry has one utility for each player, and for
every choice of moves there is a key. -/
structure Covers (t : Table Value) (sets : List (List Value)) : Prop where
  hasPlayer : sets ≠ []
  hasMoves : ∀ moves ∈ sets, moves ≠ []
  sized : ∀ e ∈ t.entries, e.2.length = .ok sets.length
  total : ∀ moves ∈ choices sets, ∃ e ∈ t.entries, e.1.IsFor moves

/-- Moves and members of keys can be members of keys. -/
structure Keyed (t : Table Value) (sets : List (List Value)) : Prop where
  moves : ∀ moves ∈ sets, Value.AreHashable moves
  keys : ∀ e ∈ t.entries, Value.AreHashable e.1.members

/-- The payoffs by the tuples that the keys are read as. -/
def read (t : Table Value) : Table Payoff :=
  ofList (t.entries.map fun e => (.tuple e.1.members, ⟨e.2.members⟩))

theorem find?_read_eq_some (hkeys : ∀ e ∈ t.entries, e.1.IsSequence) {payoff : Payoff}
    (h : t.read.find? (.tuple moves) = some payoff) :
    ∃ entry, t.LastFor moves entry ∧ payoff = ⟨entry.members⟩ := by
  rw [read, find?_ofList, last?_eq_some_iff] at h
  obtain ⟨before, _, after, hsplit, hkey, hafter⟩ := h
  obtain ⟨before, rest, hentries, rfl, hrest⟩ := List.map_eq_append_iff.1 hsplit
  obtain ⟨⟨key, entry⟩, after, rfl, heq, rfl⟩ := List.map_eq_cons_iff.1 hrest
  cases heq
  rw [hentries] at hkeys
  refine ⟨entry, ⟨before, key, after, hentries, ?_, fun later hlater hfor => ?_⟩, rfl⟩
  · exact (hkeys (key, entry) (by simp)).isFor_iff.2 hkey
  · have hother := hafter _ (List.mem_map_of_mem hlater)
    rw [(hkeys later (by simp [hlater])).isFor_iff.1 hfor] at hother
    cases hother

theorem find?_read_eq_none (hkeys : ∀ e ∈ t.entries, e.1.IsSequence) :
    t.read.find? (.tuple moves) = none ↔ ∀ e ∈ t.entries, ¬ e.1.IsFor moves := by
  rw [read, find?_ofList, last?_eq_none_iff, List.forall_mem_map]
  refine forall₂_congr fun e he => ?_
  rw [(hkeys e he).isFor_iff, Bool.not_eq_true]

/-- Moves that a key is for can be members of keys if those of the key can. -/
theorem hashable_of_isFor {e : Value × Value} (hkey : e.1.IsSequence)
    (hhashable : Value.AreHashable e.1.members) (hfor : e.1.IsFor moves) :
    (Value.tuple moves).isHashable = true := by
  rw [← Value.isHashable_congr (hkey.isFor_iff.1 hfor)]
  exact Value.isHashable_tuple.2 hhashable

/-- There is at most one last entry. -/
theorem LastFor.unique {entry' : Value} (h : t.LastFor moves entry) (h' : t.LastFor moves entry') :
    entry = entry' := by
  obtain ⟨before, key, after, hentries, hkey, hafter⟩ := h
  obtain ⟨before', key', after', hentries', hkey', hafter'⟩ := h'
  rcases List.append_eq_append_iff.1 (hentries.symm.trans hentries') with
    ⟨between, -, hrest⟩ | ⟨between, -, hrest⟩ <;> cases between <;> simp at hrest
  · exact hrest.1.2
  · exact absurd hkey' (hafter (key', entry') (by simp [hrest.2]))
  · exact hrest.1.2.symm
  · exact absurd hkey (hafter' (key, entry) (by simp [hrest.2]))

/-! ### Tables whose keys are tuples -/

/-- All keys of the table are tuples. -/
def TupleKeys (t : Table Value) : Prop :=
  ∀ e ∈ t.entries, ∃ named, e.1 = .tuple named

theorem find?_eq_none_iff {key : Value} :
    t.find? key = none ↔ ∀ e ∈ t.entries, e.1.alike key = false := by
  simp [find?]

theorem isFor_iff_of_tuple {key : Value} {named : List Value} (h : key = .tuple named) :
    key.IsFor moves ↔ key.alike (.tuple moves) = true := by
  subst h
  exact Value.IsSequence.isFor_iff ⟨named, rfl⟩

/-- If no two keys match, an entry is the last one for some moves when it is the one for them. -/
theorem lastFor_iff (hdistinct : t.Distinct) (htuples : t.TupleKeys) :
    t.LastFor moves entry ↔ t.find? (.tuple moves) = some entry := by
  rw [hdistinct.find?_eq_some_iff]
  constructor
  · rintro ⟨before, key, after, hentries, hkey, -⟩
    have hmem : (key, entry) ∈ t.entries := by simp [hentries]
    obtain ⟨named, hnamed⟩ := htuples _ hmem
    exact ⟨key, hmem, (isFor_iff_of_tuple hnamed).1 hkey⟩
  · rintro ⟨key, hmem, halike⟩
    obtain ⟨before, after, hentries⟩ := List.append_of_mem hmem
    obtain ⟨named, hnamed⟩ := htuples _ hmem
    refine ⟨before, key, after, hentries, (isFor_iff_of_tuple hnamed).2 halike,
      fun later hlater hfor => ?_⟩
    have hlater' : later ∈ t.entries := by simp [hentries, hlater]
    obtain ⟨named', hnamed'⟩ := htuples _ hlater'
    have hmatch := Value.alike_trans halike
      (Value.alike_symm ((isFor_iff_of_tuple hnamed').1 hfor))
    rw [Distinct, hentries, List.pairwise_append, List.pairwise_cons] at hdistinct
    rw [hdistinct.2.1.1 later hlater] at hmatch
    cases hmatch

theorem exists_isFor_iff (htuples : t.TupleKeys) :
    (∃ e ∈ t.entries, e.1.IsFor moves) ↔ t.find? (.tuple moves) ≠ none := by
  rw [Ne, find?_eq_none_iff]
  simp only [not_forall, Bool.not_eq_false, exists_prop]
  refine exists_congr fun e => and_congr_right fun he => ?_
  obtain ⟨named, hnamed⟩ := htuples e he
  exact isFor_iff_of_tuple hnamed

end Table

namespace NormalForm

variable {ω σ : Type} {name : String} {moveSets : Value} {sets : List (List Value)}
  {payoffs : Table Value} {g : NormalForm σ}

/-! ### Which tables are accepted -/

/-- A table with one more entry, which has to have one utility for each player. -/
def readEntry (numPlayers : Nat) (table : Table Payoff) (e : Value × Value) :
    Except Fault (Table Payoff) :=
  if e.2.members.length = numPlayers then do
    return table.insert (← (Value.tuple e.1.members).asKey) ⟨e.2.members⟩
  else .error (.told (.refused (.tableEntrySize e.2.members e.1 numPlayers)))

theorem readEntry_eq_ok_iff {numPlayers : Nat} {table table' : Table Payoff} {e : Value × Value} :
    readEntry numPlayers table e = .ok table' ↔
      (e.2.members.length = numPlayers ∧ Value.AreHashable e.1.members) ∧
        table' = table.insert (.tuple e.1.members) ⟨e.2.members⟩ := by
  unfold readEntry
  split
  · rename_i hsize
    simp only [Run.except_bind_eq_ok, Value.asKey_eq_ok_iff, Value.isHashable_tuple, hsize,
      true_and]
    constructor
    · rintro ⟨_, ⟨hkey, rfl⟩, ⟨⟩⟩
      exact ⟨hkey, rfl⟩
    · rintro ⟨hkey, rfl⟩
      exact ⟨_, ⟨hkey, rfl⟩, rfl⟩
  · rename_i hsize
    exact ⟨nofun, fun h => absurd h.1.1 hsize⟩

/-- Where the sets of moves are read, the table is read next. -/
theorem ofTable_eq (hsets : moveSets.itemLists = .ok sets) :
    (ofTable name moveSets payoffs : Except Fault (NormalForm σ)) = (do
      let table ← readTable sets.length payoffs
      let tuples ← ((choices sets).map Value.tuple).mapM Value.asKey
      let missing := tuples.filter fun moves => (table.find? moves).isNone
      unless missing.isEmpty do
        throw (.told (.refused (.missingProfiles missing.length (missing.take 3))))
      make name sets (lookUp (table.map .payoff))) := by
  rw [ofTable, Value.itemLists_eq_ok hsets, hsets]
  rfl

section Accepted

variable (hsequences : ∀ e ∈ payoffs.entries, e.1.IsSequence ∧ e.2.IsSequence) {numPlayers : Nat}

include hsequences

/-- Where keys and payoffs are sequences, only the size of the payoffs and the members of the keys
matter. -/
theorem readTable_eq :
    readTable numPlayers payoffs = payoffs.entries.foldlM (readEntry numPlayers) .empty := by
  refine foldlM_congr fun table e he => ?_
  obtain ⟨hkey, hentry⟩ := hsequences e he
  simp only [Payoff.ofValue, hentry.items_eq, hkey.items_eq]
  rfl

theorem readTable_eq_ok_iff {table : Table Payoff} : readTable numPlayers payoffs = .ok table ↔
    (∀ e ∈ payoffs.entries, e.2.members.length = numPlayers ∧ Value.AreHashable e.1.members) ∧
      table = payoffs.read := by
  have hread (h : ∀ e ∈ payoffs.entries,
      e.2.members.length = numPlayers ∧ Value.AreHashable e.1.members) :
      readTable numPlayers payoffs = .ok payoffs.read := by
    rw [readTable_eq hsequences, Table.read, Table.ofList, List.foldl_map]
    exact foldlM_eq_foldl fun table e he => readEntry_eq_ok_iff.2 ⟨h e he, rfl⟩
  constructor
  · intro h
    have hentries : ∀ e ∈ payoffs.entries,
        e.2.members.length = numPlayers ∧ Value.AreHashable e.1.members := by
      intro e he
      rw [readTable_eq hsequences] at h
      obtain ⟨_, _, hentry⟩ := forall_of_foldlM_eq_ok h e he
      exact (readEntry_eq_ok_iff.1 hentry).1
    exact ⟨hentries, Except.ok.inj (h.symm.trans (hread hentries))⟩
  · rintro ⟨hentries, rfl⟩
    exact hread hentries

/-- A table is accepted if it covers every choice of moves and its keys can be keys, and no other
one. The profiles without an entry are looked for in the table as it was read. -/
theorem ofTable_eq_ok_iff (hsets : moveSets.itemLists = .ok sets) :
    ofTable name moveSets payoffs = .ok g ↔
      (payoffs.Covers sets ∧ payoffs.Keyed sets) ∧
        make name sets (lookUp (payoffs.read.map .payoff)) = .ok g := by
  have hkeys : ∀ e ∈ payoffs.entries, e.1.IsSequence := fun e he => (hsequences e he).1
  have hmissing : ((choices sets).map Value.tuple).filter
      (fun moves => (payoffs.read.find? moves).isNone) = [] ↔
        ∀ moves ∈ choices sets, ∃ e ∈ payoffs.entries, e.1.IsFor moves := by
    rw [List.filter_eq_nil_iff, List.forall_mem_map]
    refine forall₂_congr fun moves _ => ?_
    rw [Option.isNone_iff_eq_none, Table.find?_read_eq_none hkeys]
    simp
  rw [ofTable_eq hsets, Run.except_bind_eq_ok]
  constructor
  · rintro ⟨table, htable, h⟩
    obtain ⟨hentries, rfl⟩ := (readTable_eq_ok_iff hsequences).1 htable
    obtain ⟨tuples, htuples, h⟩ := Run.except_bind_eq_ok.1 h
    obtain ⟨hhashable, rfl⟩ := Value.mapM_asKey_eq_ok_iff.1 htuples
    obtain ⟨hnone, hmake⟩ := Run.checked_eq_ok.1 h
    obtain ⟨hplayer, hmoves⟩ := exists_make_iff.1 ⟨g, hmake⟩
    refine ⟨⟨⟨hplayer, hmoves, fun e he => ?_, hmissing.1 (List.isEmpty_iff.1 hnone)⟩,
      Value.areHashable_of_choices hmoves hhashable, fun e he => (hentries e he).2⟩, hmake⟩
    exact (hsequences e he).2.length_eq_ok_iff.2 (hentries e he).1
  · rintro ⟨⟨hcovers, hkeyed⟩, hmake⟩
    refine ⟨_, (readTable_eq_ok_iff hsequences).2 ⟨fun e he => ?_, rfl⟩, ?_⟩
    · exact ⟨(hsequences e he).2.length_eq_ok_iff.1 (hcovers.sized e he), hkeyed.keys e he⟩
    · refine Run.except_bind_eq_ok.2 ⟨_, Value.mapM_asKey_eq_ok_iff.2
        ⟨Value.areHashable_choices hkeyed.moves, rfl⟩, ?_⟩
      exact Run.checked_eq_ok.2 ⟨List.isEmpty_iff.2 (hmissing.2 hcovers.total), hmake⟩

/-- Whatever is not accepted is refused, or it holds something that is no key. -/
theorem ofTable_fails (hsets : moveSets.itemLists = .ok sets) :
    FailsWith (Fault.IsRefusalIf (payoffs.Keyed sets))
      (ofTable name moveSets payoffs : Except Fault (NormalForm σ)) := by
  rw [ofTable_eq hsets, readTable_eq hsequences]
  refine .bind (.foldlM (fun table e he => ?_) _) fun table => .bind (.mapM fun v hv => ?_)
    fun tuples => ?_
  · unfold readEntry
    split
    · have hkey : payoffs.Keyed sets → (Value.tuple e.1.members).isHashable = true :=
        fun hkeyed => Value.isHashable_tuple.2 (hkeyed.keys e he)
      exact ((Value.asKey_fails hkey).mono fun _ => .inr).bind fun key => .ok _
    · exact .error (.inl ⟨_, rfl⟩)
  · have hkey : payoffs.Keyed sets → v.isHashable = true :=
      fun hkeyed => Value.areHashable_choices hkeyed.moves v hv
    exact (Value.asKey_fails hkey).mono fun _ => .inr
  · dsimp only
    split
    · exact make_fails.mono fun _ => .inl
    · exact .error (.inl ⟨_, rfl⟩)

theorem exists_ofTable_iff (hsets : moveSets.itemLists = .ok sets) :
    (∃ g : NormalForm σ, ofTable name moveSets payoffs = .ok g) ↔
      payoffs.Covers sets ∧ payoffs.Keyed sets := by
  simp only [ofTable_eq_ok_iff hsequences hsets, exists_and_left]
  exact and_iff_left_of_imp fun h => exists_make h.1.hasPlayer h.1.hasMoves

theorem moveSets_of_ofTable (hsets : moveSets.itemLists = .ok sets)
    (hg : ofTable name moveSets payoffs = .ok g) : g.moveSets = sets :=
  (make_eq_ok ((ofTable_eq_ok_iff hsequences hsets).1 hg).2).1

/-- Every choice of declared moves is valid. -/
theorem isValidProfile_of_ofTable (hsets : moveSets.itemLists = .ok sets)
    (hg : ofTable name moveSets payoffs = .ok g) {moves : List Value}
    (hmoves : moves ∈ choices g.moveSets) : g.isValidProfile ⟨moves⟩ = true := by
  refine isValidProfile_of_mem_choices hmoves ?_
  obtain ⟨⟨hcovers, -⟩, hmake⟩ := (ofTable_eq_ok_iff hsequences hsets).1 hg
  rw [(make_eq_ok hmake).1] at hmoves
  obtain ⟨e, -, named, -, halike⟩ := hcovers.total moves hmoves
  exact halike.symm.trans halike

/-- A valid profile is paid by the last entry for its moves. -/
theorem payoff_eq_lastFor (hsets : moveSets.itemLists = .ok sets)
    (hg : ofTable name moveSets payoffs = .ok g) {p : Profile} (hp : g.isValidProfile p = true) :
    ∃ entry utilities, payoffs.LastFor p.moves entry ∧ entry.items = .ok utilities ∧
      utilities.length = g.numPlayers ∧ g.payoff p = pure ⟨utilities⟩ := by
  obtain ⟨⟨hcovers, hkeyed⟩, hmake⟩ := (ofTable_eq_ok_iff hsequences hsets).1 hg
  obtain ⟨rfl, hpayoffOf⟩ := make_eq_ok hmake
  have hkeys : ∀ e ∈ payoffs.entries, e.1.IsSequence := fun e he => (hsequences e he).1
  -- The moves need not be declared: a declared choice that matches them has a key, so they have.
  obtain ⟨choice, hchoice, halike⟩ := exists_choice_of_valid hp
  obtain ⟨e, he, named, hnamed, hnamedalike⟩ := hcovers.total choice hchoice
  have hfor : e.1.IsFor p.moves := ⟨named, hnamed, hnamedalike.trans halike.symm⟩
  cases hfind : payoffs.read.find? (.tuple p.moves) with
  | none => exact absurd hfor ((Table.find?_read_eq_none hkeys).1 hfind e he)
  | some payoff =>
      obtain ⟨entry, hlast, rfl⟩ := Table.find?_read_eq_some hkeys hfind
      obtain ⟨before, key, after, hentries, -⟩ := id hlast
      have hmem : (key, entry) ∈ payoffs.entries := by simp [hentries]
      have hentry := (hsequences _ hmem).2
      refine ⟨entry, entry.members, hlast, hentry.items_eq,
        hentry.length_eq_ok_iff.1 (hcovers.sized _ hmem), ?_⟩
      have hmoves := Table.hashable_of_isFor (hkeys e he) (hkeyed.keys e he) hfor
      refine payoff_eq_pure hp (v := .payoff ⟨entry.members⟩) ?_ rfl
      rw [hpayoffOf, lookUp, Table.lookUp_eq hmoves, Table.find?_map, hfind]
      rfl

end Accepted

/-! ### Plays -/

/-- A game that pays every valid profile provides for everything. -/
theorem provides [Scale ω] {E : Fault → Prop} (hpays : ∀ p, g.isValidProfile p = true →
      (g.payoff p).Confined (fun payoff => payoff.values.length = g.numPlayers) E) :
    (g.game (ω := ω)).Provides
      (fun p => ∀ e, p = some e → (e.payoff.values.length : Int) = g.numPlayers) E where
  root := .pure nofun
  follow := by
    intro p key _ hkey
    cases p with
    | none =>
        cases hkey with
        | @joined _ moves _ hjoins hmoves =>
            cases hjoins
            have hvalid : g.isValidProfile ⟨moves⟩ = true :=
              isValidProfile_iff.2 (among_of_everyone hmoves)
            have hfollow := follow_moves (ω := ω) g moves
            refine hfollow ▸ (hpays _ hvalid).bind fun payoff hpayoff => .pure ?_
            rintro _ ⟨⟩
            exact congrArg Int.ofNat hpayoff
    | some e =>
        cases hkey with
        | joined hjoins => cases hjoins
  sized := by
    intro p e hp hnode
    cases p with
    | none => cases hnode
    | some e' =>
        cases hnode
        exact hp e rfl

/-- Two letters, each with an utility for the one player: the first one is given twice, in two
spellings. -/
def letters : Table Value :=
  ⟨[(.tuple [.text "a"], .tuple [.int 1]), (.text "b", .list [.int 2]),
    (.text "a", .payoff ⟨[.int 3]⟩)]⟩

end NormalForm

end ExtensiveForm
