import ExtensiveForm.Tree.Same
import ExtensiveForm.Proofs.Draws
import ExtensiveForm.Proofs.Walk

/-!
# Trees that describe the same game are played alike

`Tree.same` compares two trees from two positions on. The main result, `same_is_played_alike`, says
what this is good for: a play of the one tree that visits no more nodes than were compared is a play
of the other tree, with as many visits and an equal outcome.

The walks over the two trees never meet the positions that were compared, but positions that count
as equal to them (`Congruence`), since players choose keys that match the offered ones without being
the same. `Corresponds` relates two positions of this kind, and `Mirrors` two walks; a visit keeps
both, with one level less to compare.
-/

namespace ExtensiveForm

namespace Tree

variable {ω σ : Type} [Scale ω] {t u : Tree ω σ} {R : σ → σ → Prop} {depth : Nat}
  {key : Value}

/-- The positions that keys lead to from a first one on. -/
inductive Reached (t : Tree ω σ) (root : t.Position) : t.Position → Prop
  | root : Reached t root root
  | follow {p q : t.Position} {key : Value} {s s' : σ} (hp : Reached t root p)
      (h : (t.follow p key).start s = (.ok q, s')) : Reached t root q

/-- Positions that count as equal have equal nodes, and equal keys lead from them to positions that
count as equal again, from whatever state. Finding these positions leaves a related state. -/
structure Congruence (t : Tree ω σ) (R : σ → σ → Prop) (E : t.Position → t.Position → Prop) :
    Prop where
  node {p q : t.Position} (h : E p q) :
    t.node p = t.node q ∨ (t.node p).agree (t.node q) = .ok true
  next {p q p' : t.Position} {k k' : Value} {s s₁ : σ} (h : E p q) (hk : (k == k') = true)
    (hnext : (t.next p k).start s = (.ok (some p'), s₁)) (s' : σ) :
    ∃ q' s₁', (t.next q k').start s' = (.ok (some q'), s₁') ∧ E p' q'
  quiet {p : t.Position} {k : Value} {s s' : σ} {result : Except Fault (Option t.Position)}
    (hnext : (t.next p k).start s = (result, s')) : R s s'

/-- A tree that is a function of its keys from a first position on. -/
structure Functional (t : Tree ω σ) (R : σ → σ → Prop) (E : t.Position → t.Position → Prop)
    (root : t.Position) : Prop extends t.Congruence R E where
  first : E root root

/-- A tree names players by whole numbers from a first position on, and the transcripts that its
states carry name no player by a double. -/
def NamesPlayers (t : Tree ω σ) (root : t.Position) : Prop :=
  ∀ p, t.Reached root p → (t.node p).NamesPlayers ∧
    ∀ transcript, (t.node p).state.transcript? = some transcript → transcript.NamesPlayers

/-! ### What was compared -/

/-- Trees that are the same from two positions on have nodes there that agree. -/
theorem agree_of_same {p : t.Position} {q : u.Position}
    (h : Run.Gives (t.same u depth p q) true) : (t.node p).agree (u.node q) = .ok true := by
  obtain ⟨s, s', h⟩ := h
  cases depth with
  | zero => exact congrArg Prod.fst h
  | succ depth =>
      rw [same, Run.start_bind_eq_ok] at h
      obtain ⟨agreed, s₁, hagree, h⟩ := h
      cases agreed with
      | true => exact congrArg Prod.fst hagree
      | false => cases h

theorem exists_child_of_sameChildren {same : t.Position → u.Position → Run σ Bool} {p : t.Position}
    {keys : List Value} {others : List (Value × u.Position)}
    (h : Run.Gives (t.sameChildren u same p keys others) true) (hkey : key ∈ keys) :
    ∃ entry ∈ others, (key == entry.1) = true ∧
      ∃ child, Run.Gives (t.follow p key) child ∧ Run.Gives (same child entry.2) true := by
  obtain ⟨s, s', h⟩ := h
  induction keys generalizing others s with
  | nil => cases hkey
  | cons k keys ih =>
      rw [sameChildren, Run.start_bind_eq_ok] at h
      obtain ⟨child, s₁, hchild, h⟩ := h
      cases others with
      | nil => cases h
      | cons entry others =>
          obtain ⟨k', other⟩ := entry
          by_cases hk : (k == k') = true
          · simp only [hk, if_true, Run.start_bind_eq_ok] at h
            obtain ⟨agreed, s₂, hagree, h⟩ := h
            cases agreed with
            | true =>
                rcases List.mem_cons.1 hkey with rfl | hkey
                · exact ⟨_, List.mem_cons_self .., hk, child, ⟨s, s₁, hchild⟩, ⟨s₁, s₂, hagree⟩⟩
                · obtain ⟨entry, hmem, hentry⟩ := ih hkey s₂ h
                  exact ⟨entry, List.mem_cons_of_mem _ hmem, hentry⟩
            | false => cases h
          · simp only [hk] at h
            cases h

/-- Every key that may be followed in the one tree is equal to one that may be followed in the
other, and the trees are the same from the children on. -/
theorem exists_child_of_same {p : t.Position} {q : u.Position}
    (h : Run.Gives (t.same u (depth + 1) p q) true) (hkey : key ∈ (t.node p).keys) :
    ∃ key' ∈ (u.node q).keys, (key == key') = true ∧
      ∃ child other, Run.Gives (t.follow p key) child ∧ Run.Gives (u.follow q key') other ∧
        Run.Gives (t.same u depth child other) true := by
  obtain ⟨s, s', h⟩ := h
  rw [same, Run.start_bind_eq_ok] at h
  obtain ⟨agreed, s₁, -, h⟩ := h
  cases agreed with
  | false => cases h
  | true =>
      obtain ⟨others, s₂, hothers, h⟩ := Run.start_bind_eq_ok.1 h
      obtain ⟨entry, hmem, hequal, child, hchild, hsame⟩ :=
        exists_child_of_sameChildren ⟨s₂, s', h⟩ hkey
      have hplaces := Run.gives_mapM ⟨s₁, s₂, hothers⟩
      obtain ⟨key', hkey', s₃, s₄, hother⟩ := exists_of_mem_right hplaces hmem
      rw [Run.start_bind_eq_ok] at hother
      obtain ⟨other, s₅, hother, heq⟩ := hother
      cases heq
      exact ⟨key', hkey', hequal, child, other, hchild, ⟨s₃, s₄, hother⟩, hsame⟩

/-! ### Positions that correspond -/

/-- A key that is looked up as it is leads where it was followed to. -/
theorem next_of_follow {p q : t.Position} {s s' : σ} (hkey : (t.node p).lookupKey key = .ok key)
    (h : (t.follow p key).start s = (.ok q, s')) : (t.next p key).start s = (.ok (some q), s') := by
  obtain ⟨found, hfound, hnext⟩ := follow_eq_ok.1 h
  cases hkey.symm.trans hfound
  exact hnext

section Corresponds

variable {E : t.Position → t.Position → Prop} {F : u.Position → u.Position → Prop}
  {root : t.Position} {root' : u.Position} {ps : Participants ω σ} {numPlayers : Int}
  {transcript : Transcript} {P : t.Position} {Q : u.Position}

/-- Two positions count as equal to two others from which on the trees are the same down to a
depth. -/
def Corresponds (t u : Tree ω σ) (E : t.Position → t.Position → Prop)
    (F : u.Position → u.Position → Prop) (root : t.Position) (root' : u.Position) (depth : Nat)
    (P : t.Position) (Q : u.Position) : Prop :=
  t.Reached root P ∧ u.Reached root' Q ∧ ∃ p q, t.Reached root p ∧ u.Reached root' q ∧
    E P p ∧ F q Q ∧ Run.Gives (t.same u depth p q) true

/-- Nodes at positions that correspond match. -/
theorem Corresponds.match (hR : Equivalence R) (ht : t.Functional R E root)
    (hu : u.Functional R F root') (hrespects : ps.Respects R)
    (h : Corresponds t u E F root root' depth P Q) : (t.node P).Match ps R (u.node Q) := by
  obtain ⟨hP, hQ, p, q, hp, hq, hE, hF, hsame⟩ := h
  have hmatch := Node.match_of_agree hrespects (agree_of_same hsame)
  have hmatch' : (t.node p).Match ps R (u.node Q) := by
    rcases hF |> hu.node with hnode | hagree
    · rw [← hnode]
      exact hmatch
    · exact hmatch.trans hR (Node.match_of_agree hrespects hagree)
  rcases ht.node hE with hnode | hagree
  · rw [hnode]
    exact hmatch'
  · exact (Node.match_of_agree hrespects hagree).trans hR hmatch'

/-- What is decided for is offered at every position that counts as equal. -/
theorem Functional.offers (ht : t.Functional R E root) (hR : Equivalence R)
    (hrespects : ps.Respects R) (hdraws : ps.DrawsPossible) {p : t.Position} (hE : E P p)
    (h : Run.Gives (Walk.decide ps numPlayers transcript (t.node P)) key) :
    (t.node p).Offers key := by
  rcases ht.node hE with hnode | hagree
  · rw [← hnode]
    exact Node.offers_of_gives hdraws h
  · exact (Node.match_of_agree hrespects hagree).offers hR hdraws h

/-- Keys that match lead from positions that correspond to positions that correspond, with one
level less to compare. -/
theorem Corresponds.follow (hR : Equivalence R) (ht : t.Functional R E root)
    (hu : u.Functional R F root') (hrespects : ps.Respects R) (hdraws : ps.DrawsPossible)
    (h : Corresponds t u E F root root' (depth + 1) P Q) {key' : Value}
    (hdecided : Run.Gives (Walk.decide ps numPlayers transcript (t.node P)) key)
    (hkey' : (u.node Q).lookupKey key' = .ok key') (hkeys : key.alike key' = true)
    {child : t.Position} {s s' s₁ : σ} (hs : R s s')
    (hfollow : (t.follow P key).start s = (.ok child, s₁)) :
    ∃ child' s₁', (u.follow Q key').start s' = (.ok child', s₁') ∧
      Corresponds t u E F root root' depth child child' ∧ R s₁ s₁' := by
  obtain ⟨hP, hQ, p, q, hp, hq, hE, hF, hsame⟩ := h
  obtain ⟨k, hk, hkey⟩ := ht.offers hR hrespects hdraws hE hdecided
  obtain ⟨k', hk', hequal, found, other, hfound, hother, hsame'⟩ := exists_child_of_same hsame hk
  -- A value need not equal itself. That `k` does comes from its having been compared with `k'`.
  have hself : (k == k) = true := Value.beq_trans hequal (Value.beq_symm hequal)
  have hkeyk : (key == k) = true := by
    rcases hkey with rfl | hkey
    · exact hself
    · exact Value.beq_symm (Value.beq_of_beq_of_alike hself (Value.alike_symm hkey))
  have hkey'k : (k' == key') = true :=
    Value.beq_of_beq_of_alike (Value.beq_symm (Value.beq_trans hkeyk hequal)) hkeys
  have hlookup : (t.node P).lookupKey key = .ok key := by
    obtain ⟨_, _, hdecided⟩ := hdecided
    exact Walk.lookupKey_of_decide hdecided
  have hnext := next_of_follow hlookup hfollow
  -- The children were compared in other states than those of the play, so they only count as
  -- equal to the ones that the play finds.
  obtain ⟨s₂, s₃, hfound⟩ := hfound
  obtain ⟨found', s₂', hnext', hE'⟩ := ht.next hE hkeyk hnext s₂
  cases (next_of_follow (Node.lookupKey_of_mem_keys hk) hfound).symm.trans hnext'
  obtain ⟨s₄, s₅, hother⟩ := hother
  obtain ⟨child', s₁', hchild', hF'⟩ :=
    hu.next hF hkey'k (next_of_follow (Node.lookupKey_of_mem_keys hk') hother) s'
  have hfollow' : (u.follow Q key').start s' = (.ok child', s₁') :=
    follow_eq_ok.2 ⟨key', hkey', hchild'⟩
  exact ⟨child', s₁', hfollow',
    ⟨hP.follow hfollow, hQ.follow hfollow', found, other, hp.follow hfound, hq.follow hother, hE',
      hF', hsame'⟩,
    hR.trans (hR.symm (ht.quiet hnext)) (hR.trans hs (hu.quiet hchild'))⟩

end Corresponds

end Tree

/-- Nodes that match end the game both or neither. -/
theorem Node.Match.goesOn {ω σ : Type} [Scale ω] {ps : Participants ω σ} {R : σ → σ → Prop}
    {n n' : Node ω} (h : n.Match ps R n') : n'.goesOn = n.goesOn := by
  cases h <;> rfl

/-- Only the end of a game matches the end of a game. -/
theorem Node.Match.of_terminal {ω σ : Type} [Scale ω] {ps : Participants ω σ} {R : σ → σ → Prop}
    {e : Ending} {n : Node ω} (h : (Node.terminal e).Match ps R n) :
    ∃ e', n = .terminal e' ∧ e.Match e' := by
  cases h with
  | terminal h => exact ⟨_, rfl, h⟩

namespace Walk

variable {ω σ : Type} [Scale ω] {t u : Tree ω σ} {R : σ → σ → Prop} {depth : Nat}
  {E : t.Position → t.Position → Prop} {F : u.Position → u.Position → Prop} {root : t.Position}
  {root' : u.Position} {ps : Participants ω σ} {numPlayers maxDepth : Int} {w : Walk t.Position}
  {w' : Walk u.Position}

/-- Two walks have got to positions that correspond, with equal transcripts and equally many visits
in rounds that match. -/
structure Mirrors (E : t.Position → t.Position → Prop) (F : u.Position → u.Position → Prop)
    (root : t.Position) (root' : u.Position) (depth : Nat) (w : Walk t.Position)
    (w' : Walk u.Position) : Prop where
  position : t.Corresponds u E F root root' depth w.position w'.position
  transcript : (w.transcript == w'.transcript) = true
  names : w'.transcript.NamesPlayers
  round : w.round.alike w'.round = true
  visited : w.visited = w'.visited

/-- Walks that mirror each other enter their nodes alike. -/
theorem Mirrors.enter (hR : Equivalence R) (ht : t.Functional R E root)
    (hu : u.Functional R F root') (hrespects : ps.Respects R)
    (h : Mirrors E F root root' depth w w') : Mirrors E F root root' depth w.enter w'.enter := by
  have hround := Value.round_of_alike (h.position.match hR ht hu hrespects).state
  have hsame := Value.beq_congr hround h.round
  by_cases hbeq : ((t.node w.position).state.round == w.round) = true
  · rw [enter_of_beq hbeq, enter_of_beq (hsame.symm.trans hbeq)]
    exact h
  · rw [enter_of_not_beq hbeq, enter_of_not_beq (by rwa [← hsame])]
    exact ⟨h.position, h.transcript, h.names, hround, rfl⟩

/-- Where the nodes that are entered match, the transcripts of their states replace the moves made
so far alike. -/
theorem transcript_of_match {n n' : Node ω} (h : n.Match ps R n') {t t' : Transcript}
    (ht : (t == t') = true) (hnames : t'.NamesPlayers)
    (hstate : ∀ transcript, n'.state.transcript? = some transcript → transcript.NamesPlayers) :
    (n.state.transcript?.getD t == n'.state.transcript?.getD t') = true ∧
      (n'.state.transcript?.getD t').NamesPlayers := by
  have hsame := Value.transcript?_of_alike h.state
  cases hleft : n.state.transcript? <;> cases hright : n'.state.transcript? <;>
    rw [hleft, hright] at hsame <;> cases hsame
  · exact ⟨ht, hnames⟩
  · exact ⟨‹_›, hstate _ hright⟩

theorem addAll_beq {t t' : Transcript} (h : (t == t') = true) {plies plies' : List Ply}
    (hplies : List.Forall₂ Ply.Alike plies plies') :
    (t.addAll plies == t'.addAll plies') = true := by
  rw [Transcript.addAll_eq, Transcript.addAll_eq, Transcript.beq_iff]
  exact List.rel_append (List.rel_reverse hplies) (Transcript.beq_iff.1 h)

theorem namesPlayers_addAll {t : Transcript} (h : t.NamesPlayers) {plies : List Ply}
    (hplies : ∀ p ∈ plies, ∀ x, p.player ≠ .double x) : (t.addAll plies).NamesPlayers := by
  rw [Transcript.addAll_eq]
  intro p hp
  rcases List.mem_append.1 hp with hp | hp
  · exact hplies p (List.mem_reverse.1 hp)
  · exact h p hp

/-- A visit that goes on is mirrored, with one level less to compare. -/
theorem goOn_mirrors (hR : Equivalence R) (ht : t.Functional R E root)
    (hu : u.Functional R F root') (hrespects : ps.Respects R) (hdraws : ps.DrawsPossible)
    (hnames : u.NamesPlayers root') (hw : Mirrors E F root root' (depth + 1) w w')
    {key : Value} {child : t.Position} {s s' s₁ s₂ : σ} (hs : R s s')
    (hdecide : (decide ps numPlayers w.transcript (t.node w.position)).start s = (.ok key, s₁))
    (hfollow : (t.follow w.position key).start s₁ = (.ok child, s₂)) :
    ∃ key' child' s₁' s₂',
      (decide ps numPlayers w'.transcript (u.node w'.position)).start s' = (.ok key', s₁') ∧
        (u.follow w'.position key').start s₁' = (.ok child', s₂') ∧
          Mirrors E F root root' depth (w.goOn key child) (w'.goOn key' child') ∧ R s₂ s₂' := by
  have hmatch := hw.position.match hR ht hu hrespects
  have hnames' := (hnames _ hw.position.2.1).1
  obtain ⟨key', s₁', hdecide', halike, hs₁⟩ :=
    decide_carries hrespects hmatch hnames' hw.transcript s s' key s₁ hs hdecide
  obtain ⟨child', s₂', hfollow', hposition, hs₂⟩ := hw.position.follow hR ht hu hrespects hdraws
    ⟨s, s₁, hdecide⟩ (lookupKey_of_decide hdecide') halike hs₁ hfollow
  have hplies := hmatch.plies (lookupKey_of_decide hdecide) halike
  obtain ⟨htranscript, hnamed⟩ := transcript_of_match (hposition.match hR ht hu hrespects)
    (addAll_beq hw.transcript hplies)
    (namesPlayers_addAll hw.names fun p hp => hnames'.plies hp) (hnames _ hposition.2.1).2
  exact ⟨key', child', s₁', s₂', hdecide', hfollow',
    ⟨hposition, htranscript, hnamed, hw.round, congrArg (· + 1) hw.visited⟩, hs₂⟩

/-- The end of a game is mirrored by an equal outcome. -/
theorem outcome_mirrors (hR : Equivalence R) (ht : t.Functional R E root)
    (hu : u.Functional R F root') (hrespects : ps.Respects R)
    (hw : Mirrors E F root root' depth w w') {e : Ending} (hnode : t.node w.position = .terminal e)
    {o : Outcome} (ho : e.outcome w.transcript numPlayers = .ok o) :
    ∃ e' o', u.node w'.position = .terminal e' ∧
      e'.outcome w'.transcript numPlayers = .ok o' ∧ (o == o') = true := by
  have hmatch := hw.position.match hR ht hu hrespects
  rw [hnode] at hmatch
  obtain ⟨e', hnode', he⟩ := hmatch.of_terminal
  obtain ⟨o', ho', hequal⟩ := he.outcome hw.transcript hw.names ho
  exact ⟨e', o', hnode', ho', hequal⟩

/-- A walk that visits no more nodes than were compared is mirrored to its end. -/
theorem run_mirrors (hR : Equivalence R) (ht : t.Functional R E root) (hu : u.Functional R F root')
    (hrespects : ps.Respects R) (hdraws : ps.DrawsPossible) (hnames : u.NamesPlayers root')
    {visits : Nat} (hw : Mirrors E F root root' depth w w') {s s' s₁ : σ} (hs : R s s')
    {result : Option Outcome} (hvisits : visits ≤ depth ∨ visits ≤ depth + 1 ∧ result ≠ none)
    (hrun : (run t ps numPlayers maxDepth visits w).start s = (.ok result, s₁)) :
    ∃ result' s₁', (run u ps numPlayers maxDepth visits w').start s' = (.ok result', s₁') ∧
      Option.Rel (fun o o' => (o == o') = true) result result' ∧ R s₁ s₁' := by
  -- By induction on the visits, each of which uses up one level of what was compared. The last one
  -- needs no level for its children.
  induction visits generalizing depth w w' s s' with
  | zero =>
      cases hrun
      exact ⟨none, s', rfl, .none, hs⟩
  | succ visits ih =>
      by_cases hbound : maxDepth ≤ w.enter.visited
      · rw [run_cut_off hbound] at hrun
        cases hrun
      have hentered := hw.enter hR ht hu hrespects
      have hbound' : ¬ maxDepth ≤ w'.enter.visited := by rwa [← hentered.visited]
      have hmatch := hw.position.match hR ht hu hrespects
      rcases Node.goesOn_or (t.node w.position) with ⟨e, hnode⟩ | ⟨v, hnode⟩ | hnode
      · rw [run_terminal hbound hnode] at hrun
        obtain ⟨o, ho, heq⟩ := Run.start_liftM_bind_eq_ok.1 hrun
        cases heq
        obtain ⟨e', o', hnode', ho', hequal⟩ := outcome_mirrors hR ht hu hrespects hw hnode ho
        rw [run_terminal hbound' hnode', ho']
        exact ⟨some o', s', rfl, .some hequal, hs⟩
      · rw [hnode] at hmatch
        cases hmatch
      · rw [run_goesOn hbound hnode] at hrun
        obtain ⟨key, s₂, hdecide, hrun⟩ := Run.start_bind_eq_ok.1 hrun
        obtain ⟨child, s₃, hfollow, hrun⟩ := Run.start_bind_eq_ok.1 hrun
        -- A play that goes on from its last visit has not ended.
        obtain ⟨depth, rfl⟩ : ∃ d, depth = d + 1 := by
          rcases hvisits with hvisits | ⟨hvisits, hended⟩
          · exact ⟨depth - 1, by omega⟩
          · cases visits with
            | zero =>
                cases hrun
                exact absurd rfl hended
            | succ visits => exact ⟨depth - 1, by omega⟩
        rw [← enter_position (w := w), ← enter_transcript (w := w)] at hdecide
        rw [← enter_position (w := w)] at hfollow
        obtain ⟨key', child', s₁', s₂', hdecide', hfollow', hnext, hs'⟩ :=
          goOn_mirrors hR ht hu hrespects hdraws hnames hentered hs hdecide hfollow
        rw [enter_position, enter_transcript] at hdecide'
        rw [enter_position] at hfollow'
        have hnode' : (u.node w'.position).goesOn = true := by rw [hmatch.goesOn, hnode]
        rw [run_goesOn hbound' hnode', Run.start_bind_ok hdecide', Run.start_bind_ok hfollow']
        rw [goOn, goOn, enter_position, enter_transcript, enter_position, enter_transcript] at hnext
        exact ih hnext hs' (hvisits.imp Nat.le_of_succ_le_succ fun h =>
          ⟨Nat.le_of_succ_le_succ h.1, h.2⟩) hrun

/-- Walks from two positions from which on the trees are the same begin alike. -/
theorem start_mirrors (hR : Equivalence R) (ht : t.Functional R E root)
    (hu : u.Functional R F root') (hrespects : ps.Respects R) (hnames : u.NamesPlayers root')
    (hsame : Run.Gives (t.same u depth root root') true) :
    Mirrors E F root root' depth (start t root) (start u root') := by
  have hposition : t.Corresponds u E F root root' depth root root' :=
    ⟨.root, .root, root, root', .root, .root, ht.first, hu.first, hsame⟩
  have hmatch := hposition.match hR ht hu hrespects
  have hempty : (Transcript.empty == Transcript.empty) = true := rfl
  obtain ⟨htranscript, hnamed⟩ := transcript_of_match hmatch hempty (fun _ h => (nomatch h))
    (hnames _ .root).2
  exact ⟨hposition, htranscript, hnamed, Value.round_of_alike hmatch.state, rfl⟩

end Walk

namespace Tree

variable {ω σ : Type} [Scale ω] {t u : Tree ω σ} {R : σ → σ → Prop}
  {E : t.Position → t.Position → Prop} {F : u.Position → u.Position → Prop} {root : t.Position}
  {root' : u.Position} {ps : Participants ω σ} {numPlayers maxDepth : Int}

/-- A play comes to this outcome with its last one of so many visits, and leaves this state. -/
def EndsAfter (t : Tree ω σ) (ps : Participants ω σ) (numPlayers maxDepth : Int)
    (root : t.Position) (s : σ) (visits : Nat) (o : Outcome) (s' : σ) : Prop :=
  (execute t ps numPlayers maxDepth visits root).start s = (.ok (some o), s') ∧
    ∀ fewer < visits, ((execute t ps numPlayers maxDepth fewer root).start s).1 = .ok none

/-- Trees that are the same down to a depth are played alike. If the play of the one comes to an
outcome with no more visits than one more than this depth, then the play of the other comes to an
equal outcome with as many visits. For this the nodes of the other tree have to name their players
by whole numbers. Of chance it is assumed that it draws alike from equal distributions, and nothing
without probability. Where probabilities are exact, both are true of numbers from zero on. -/
theorem same_is_played_alike (hR : Equivalence R) (ht : t.Functional R E root)
    (hu : u.Functional R F root') (hnames : u.NamesPlayers root') (hrespects : ps.Respects R)
    (hdraws : ps.DrawsPossible) {depth : Nat}
    (hsame : Run.Gives (t.same u depth root root') true) {s s' s₁ : σ} (hs : R s s')
    {visits : Nat} (hvisits : visits ≤ depth + 1) {o : Outcome}
    (hplay : t.EndsAfter ps numPlayers maxDepth root s visits o s₁) :
    ∃ o' s₁', u.EndsAfter ps numPlayers maxDepth root' s' visits o' s₁' ∧ (o == o') = true ∧
      R s₁ s₁' := by
  obtain ⟨hplay, hfewer⟩ := hplay
  have hmirrors := Walk.start_mirrors hR ht hu hrespects hnames hsame
  cases hcheck : ps.check numPlayers with
  | error f =>
      rw [execute_eq_throw hcheck] at hplay
      cases hplay
  | ok =>
      rw [execute_eq hcheck] at hplay
      obtain ⟨result, s₁', hplay', hresult, hs'⟩ := Walk.run_mirrors hR ht hu hrespects hdraws
        hnames hmirrors hs (.inr ⟨hvisits, Option.some_ne_none o⟩) hplay
      cases hresult with
      | some hequal =>
          refine ⟨_, s₁', ⟨?_, fun fewer hless => ?_⟩, hequal, hs'⟩
          · rw [execute_eq hcheck, hplay']
          -- Fewer visits are mirrored as well, so the other play does not end earlier.
          · have hnone := hfewer fewer hless
            rw [execute_eq hcheck] at hnone ⊢
            obtain ⟨result, s₂', hplay₂, hresult, -⟩ := Walk.run_mirrors hR ht hu hrespects hdraws
              hnames hmirrors hs (.inl (by omega)) (Prod.ext hnone rfl)
            cases hresult
            rw [hplay₂]

/-- Chance tosses a coin, and a player names a side. -/
def toss (player side : Value) : Tree Rat Unit where
  Position := Nat
  node
    | 0 => .chance (.coin side (.text "tails")) .null
    | 1 => .sequential player [side, .text "tails"] .null
    | _ => .terminal ⟨⟨[side]⟩, none, none, .null⟩
  next place _ := return some (place + 1)

/-- A player who always names the same side, of a coin that always falls on its first one. -/
def naming (side : Value) : Participants Rat Unit where
  players := [.int 0]
  ask
    | 0 => some fun _ => return side
    | _ => none
  uniform := return 0

theorem toss_functional (player side : Value) :
    (toss player side).Functional (fun _ _ => True) Eq (0 : Nat) where
  node h := .inl (congrArg _ h)
  next := by
    rintro p q p' k k' s s₁ rfl hk hnext s'
    exact ⟨p', s₁, hnext, rfl⟩
  quiet _ := trivial
  first := rfl

theorem toss_namesPlayers {player : Value} (h : player.passesForInt = false) (side : Value) :
    (toss player side).NamesPlayers (0 : Nat) := by
  rintro (_ | _ | p) hp
  · exact ⟨fun _ h => (nomatch h), fun _ h => (nomatch h)⟩
  · refine ⟨fun name hname => ?_, fun _ h => (nomatch h)⟩
    rw [List.mem_singleton.1 hname]
    exact h
  · exact ⟨fun _ h => (nomatch h), fun _ h => (nomatch h)⟩

theorem naming_respects : (naming (.int 1)).Respects fun _ _ => True where
  ask := by
    intro player ask h c c' hc
    cases player with
    | zero =>
        cases h
        exact .pure rfl
    | succ player => cases h
  draw h := Participants.DrawsAlike.draw ⟨fun _ => rfl, fun _ => trivial⟩ h

theorem naming_drawsPossible (side : Value) : (naming side).DrawsPossible :=
  Participants.drawsPossible_of_nonneg fun _ => le_refl 0

/-- The play of the coin that is told as a whole number. -/
theorem toss_endsAfter : (toss (.int 0) (.int 1)).EndsAfter (naming (.int 1)) 1 64 (0 : Nat) () 3
    ⟨⟨[.int 1]⟩, some ⟨[.int 1]⟩, ⟨[⟨.int 0, .int 1⟩, ⟨.null, .int 1⟩]⟩, none⟩ () := by
  refine ⟨by with_unfolding_all rfl, ?_⟩
  rintro (_ | _ | _ | fewer) hless
  · with_unfolding_all rfl
  · with_unfolding_all rfl
  · with_unfolding_all rfl
  · omega

/-- A coin whose sides are told as a truth value is tossed like one told as a whole number. -/
theorem equal_coins_are_tossed_alike :
    Run.Gives ((toss (.int 0) (.int 1)).same (toss (.int 0) (.bool true)) 2 (0 : Nat) (0 : Nat))
        true ∧
      ∃ o', (toss (.int 0) (.bool true)).EndsAfter (naming (.int 1)) 1 64 (0 : Nat) () 3 o' () ∧
        (Outcome.mk ⟨[.int 1]⟩ (some ⟨[.int 1]⟩) ⟨[⟨.int 0, .int 1⟩, ⟨.null, .int 1⟩]⟩ none == o') =
          true := by
  have hsame : Run.Gives
      ((toss (.int 0) (.int 1)).same (toss (.int 0) (.bool true)) 2 (0 : Nat) (0 : Nat)) true :=
    ⟨(), (), by with_unfolding_all rfl⟩
  have hR : Equivalence fun _ _ : Unit => True :=
    ⟨fun _ => trivial, fun _ => trivial, fun _ _ => trivial⟩
  obtain ⟨o', _, hplay, hequal, -⟩ := same_is_played_alike hR (toss_functional _ _)
    (toss_functional _ _) (toss_namesPlayers rfl _) naming_respects (naming_drawsPossible _) hsame
    trivial (by decide) toss_endsAfter
  exact ⟨hsame, o', hplay, hequal⟩

/-- Two trees are the same, and the play of the first one comes to an outcome. In the second one the
player is named by the truth value that equals zero, and the play is refused. -/
theorem player_named_false_is_refused :
    Run.Gives ((toss (.int 0) (.int 1)).same (toss (.bool false) (.int 1)) 2 (0 : Nat) (0 : Nat))
        true ∧
      (toss (.int 0) (.int 1)).Functional (fun _ _ => True) Eq (0 : Nat) ∧
      (toss (.bool false) (.int 1)).Functional (fun _ _ => True) Eq (0 : Nat) ∧
      (naming (.int 1)).Respects (fun _ _ => True) ∧ (naming (.int 1)).DrawsPossible ∧
      (toss (.int 0) (.int 1)).EndsAfter (naming (.int 1)) 1 64 (0 : Nat) () 3
        ⟨⟨[.int 1]⟩, some ⟨[.int 1]⟩, ⟨[⟨.int 0, .int 1⟩, ⟨.null, .int 1⟩]⟩, none⟩ () ∧
      (execute (toss (.bool false) (.int 1)) (naming (.int 1)) 1 64 3 (0 : Nat)).start () =
        (.error (.invalidPlayer (.bool false) (.int 1) .null), ()) := by
  have htold : Fault.told (.invalidPlayer (.bool false) (.int 1) .null) =
      .invalidPlayer (.bool false) (.int 1) .null :=
    Fault.told_eq (by simp [Fault.shown, Value.isWritable_of_lt]; rfl)
  have hplay : (execute (toss (.bool false) (.int 1)) (naming (.int 1)) 1 64 3 (0 : Nat)).start () =
      (.error (.told (.invalidPlayer (.bool false) (.int 1) .null)), ()) := by
    with_unfolding_all rfl
  rw [htold] at hplay
  exact ⟨⟨(), (), by with_unfolding_all rfl⟩, toss_functional _ _, toss_functional _ _,
    naming_respects, naming_drawsPossible _, toss_endsAfter, hplay⟩

/-- One move, made by this player. -/
def record (player : Value) : Transcript :=
  ⟨[⟨player, .null⟩]⟩

/-- An end whose state has a move of this player on record. -/
def recordedEnd (player : Value) : Ending :=
  ⟨⟨[.int 1]⟩, none, none, .scope ⟨.null, .transcript (record player), .null, .null⟩⟩

/-- A game that is over at once. -/
def recorded (player : Value) : Tree Rat Unit where
  Position := Unit
  node _ := .terminal (recordedEnd player)
  next _ _ := return none

theorem recorded_same {player player' : Value} (h : player.alike player' = true) :
    Run.Gives ((recorded player).same (recorded player') 0 () ()) true := by
  refine ⟨(), (), ?_⟩
  have hstate : (recordedEnd player).state.alike (recordedEnd player').state = true := by
    change player.form.alike player'.form = true at h
    simp only [recordedEnd, record, Value.alike, Value.form, Scope.form, Transcript.form, Ply.forms,
      Ply.form, List.reverse_singleton, Form.alike, Form.allAlike, h]
    rfl
  show (Except.ok ((recordedEnd player).agree (recordedEnd player')), ()) = _
  rw [Ending.agree, hstate]
  rfl

theorem outcome_recordedEnd :
    (recordedEnd (.double 0.0)).outcome (record (.double 0.0)) 1 = .error .wrongType := by
  have hwithin : ((Number.ofInt 0).atMost (.ofFloat 0.0) &&
      (Number.ofFloat 0.0).below (.ofInt 1)) = true := by decide +kernel
  have hseat : Transcript.seat? (.double 0.0) 1 = .error .wrongType := by
    rw [Transcript.seat?_other rfl rfl, if_pos hwithin]
  have hmoves : Transcript.onlyMoves 1 [] (record (.double 0.0)).plies = .error .wrongType :=
    Transcript.onlyMoves_cons_error hseat
  have hprofile : (record (.double 0.0)).profile? 1 = .error .wrongType := by
    rw [Transcript.profile?, hmoves]
    rfl
  have hsize : ((recordedEnd (.double 0.0)).payoff.values.length : Int) = 1 := rfl
  have hafter : (recordedEnd (.double 0.0)).profileAfter (record (.double 0.0)) 1 =
      .error .wrongType := hprofile
  rw [Ending.outcome_eq hsize, hafter]
  rfl

/-- The record of the second tree names the player by a double, and no profile comes of that. -/
theorem player_recorded_as_double_is_refused :
    Run.Gives ((recorded (.int 0)).same (recorded (.double 0.0)) 0 () ()) true ∧
      (recorded (.int 0)).EndsAfter (naming (.int 1)) 1 64 () () 1
        ⟨⟨[.int 1]⟩, some ⟨[.null]⟩, ⟨[⟨.int 0, .null⟩]⟩, none⟩ () ∧
      (execute (recorded (.double 0.0)) (naming (.int 1)) 1 64 1 ()).start () =
        (.error .wrongType, ()) := by
  refine ⟨recorded_same (by decide +kernel), ⟨rfl, ?_⟩, ?_⟩
  · rintro (_ | fewer) hless
    · rfl
    · omega
  · have hbound : ¬ (64 : Int) ≤ (Walk.start (recorded (.double 0.0)) ()).enter.visited := by
      decide
    have hcheck : (naming (.int 1)).check 1 = .ok () := rfl
    have hplay := (execute_eq hcheck 64 1 _).trans (Walk.run_terminal hbound rfl 0)
    refine (congrArg (Run.start · ()) hplay).trans ?_
    exact Run.start_bind_error (congrArg (·, ()) outcome_recordedEnd)

end Tree

end ExtensiveForm
