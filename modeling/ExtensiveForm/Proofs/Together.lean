import ExtensiveForm.Proofs.Beside
import ExtensiveForm.Proofs.Blame
import ExtensiveForm.Proofs.Flattening

/-!
# Deciding alone and deciding together

A player who decides alone may as well decide together with nobody else. `Tree.together` is a tree
in which every decision of one player is replaced by such a decision, and a tuple of one move leads
where the move itself led. The two ways to decide look up the player, check the moves and ask in
different orders, but where there is a move to choose they come to the same, `decide_together`.

So both trees are walked alike, with the same answers and the same faults, but for one that tells of
the key: if a player has decided for a move that has no continuation, then what has none in the
other tree is the tuple of it. `Walk.StrandsAlone` says when this happens, and `alone_or_together`
that nothing else differs. A fault that cannot be written tells of no key, so it does not differ
either.
-/

namespace ExtensiveForm

variable {ω σ : Type} [Scale ω]

/-- The tuple of one value can be written when the value can. -/
theorem Value.isWritable_single (v : Value) : (Value.tuple [v]).isWritable = v.isWritable := by
  simp [isWritable, form, forms, Form.isWritable, Form.allWritable]

namespace Node

/-- The same node, where a player who decides alone decides together with nobody else. -/
def together : Node ω → Node ω
  | .sequential player moves state =>
      .simultaneous ⟨[⟨player, moves⟩], state, List.pairwise_singleton _ _⟩
  | n => n

/-- The key of the other node: a move that was decided for alone makes a tuple of one. -/
def keyTogether : Node ω → Value → Value
  | .sequential _ _ _, move => .tuple [move]
  | _, key => key

variable {n : Node ω} {key : Value}

@[simp] theorem together_state (n : Node ω) : n.together.state = n.state := by
  cases n <;> rfl

@[simp] theorem together_goesOn (n : Node ω) : n.together.goesOn = n.goesOn := by
  cases n <;> rfl

@[simp] theorem together_plies (n : Node ω) (key : Value) :
    n.together.plies (n.keyTogether key) = n.plies key := by
  cases n <;> rfl

/-- That a key has no continuation is told of both nodes alike, unless the key was decided for alone
and can be written. -/
theorem told_unmapped_keyTogether (state : Value)
    (h : ∀ player moves state, n = .sequential player moves state → key.isWritable = false) :
    (Fault.unmapped (n.keyTogether key) state).told = (Fault.unmapped key state).told := by
  cases n with
  | sequential player moves state' =>
      simp [Fault.told, Fault.shown, keyTogether, Value.isWritable_single,
        h player moves state' rfl]
  | _ => rfl

theorem together_lookupKey (h : n.lookupKey key = .ok key) :
    n.together.lookupKey (n.keyTogether key) = .ok (n.keyTogether key) := by
  cases n with
  | sequential player moves state => rfl
  | _ => exact h

end Node

/-- The same tree, where players who decide alone decide together with nobody else, and where keys
are followed in this way. -/
def Tree.together (t : Tree ω σ) (next : t.Position → Value → Run σ (Option t.Position)) :
    Tree ω σ where
  Position := t.Position
  node p := (t.node p).together
  next := next

theorem Tree.together_state (t : Tree ω σ)
    (next : t.Position → Value → Run σ (Option t.Position)) (p : t.Position) :
    ((t.together next).node p).state = (t.node p).state :=
  Node.together_state _

variable {ps : Participants ω σ} {numPlayers : Int} {transcript : Transcript}

namespace Walk

omit [Scale ω] in
/-- Alone, a player who has a move to choose answers, and then the move is checked. -/
theorem decideAlone_eq_answer (c : Context) {move : Value} {moves : List Value}
    (hoffered : c.offered = .tuple (move :: moves)) :
    decideAlone ps c = (do
      let chosen ← ps.answer c
      if chosen.isAmong (move :: moves) then return chosen
      else throw (.told (.illegalMove c.player chosen c.state))) := by
  unfold decideAlone Participants.answer
  rw [bind_assoc]
  refine bind_congr fun player => ?_
  cases ps.ask player with
  | none => rfl
  | some ask =>
      have havailable : c.availableMoves = move :: moves := by
        rw [Context.availableMoves, hoffered]
        rfl
      simp only [havailable, List.isEmpty_cons, Bool.false_eq_true, if_false]
      refine bind_congr fun chosen => ?_
      rw [Context.isValidMove_of_tuple hoffered]
      rfl

omit [Scale ω] in
/-- Together with nobody else, so does the player. -/
theorem decideTogether_single (player state move : Value) (moves : List Value) :
    decideTogether ps numPlayers transcript
        ⟨[⟨player, move :: moves⟩], state, List.pairwise_singleton _ _⟩ = (do
      let chosen ← ps.answer ⟨player, .tuple (move :: moves), numPlayers, state, transcript⟩
      if chosen.isAmong (move :: moves) then return [chosen]
      else throw (.told (.illegalMove player chosen state))) := by
  show (do
    let chosen ← [(⟨player, move :: moves⟩ : Seat)].mapM fun seat =>
      ps.answer ⟨seat.player, .tuple seat.moves, numPlayers, state, transcript⟩
    Simultaneous.checkLegal ⟨[⟨player, move :: moves⟩], state, List.pairwise_singleton _ _⟩ chosen
    return chosen : Run σ (List Value)) = _
  rw [List.mapM_cons, List.mapM_nil, bind_assoc]
  refine bind_congr fun chosen => ?_
  rw [pure_bind, pure_bind]
  cases hlegal : chosen.isAmong (move :: moves) with
  | true => simp [Simultaneous.checkLegal, hlegal]
  | false =>
      simp [Simultaneous.checkLegal, hlegal]
      rfl

/-- What is decided together with nobody else is decided alone, where there is a move to choose. -/
theorem decide_together (n : Node ω) (hmoves : ∀ player state, n ≠ .sequential player [] state) :
    decide ps numPlayers transcript n.together = (do
      return n.keyTogether (← decide ps numPlayers transcript n)) := by
  cases n with
  | sequential player moves state =>
      cases moves with
      | nil => exact absurd rfl (hmoves player state)
      | cons move moves =>
          show (do
            let chosen ← decideTogether ps numPlayers transcript
              ⟨[⟨player, move :: moves⟩], state, List.pairwise_singleton _ _⟩
            return Value.tuple chosen : Run σ Value) = (do
            let chosen ← decideAlone ps
              ⟨player, .tuple (move :: moves), numPlayers, state, transcript⟩
            return Value.tuple [chosen])
          rw [decideTogether_single, decideAlone_eq_answer _ rfl, bind_assoc, bind_assoc]
          refine bind_congr fun chosen => ?_
          cases chosen.isAmong (move :: moves) <;> rfl
  | simultaneous n => exact (bind_pure _).symm
  | chance d state => exact (bind_pure _).symm
  | terminal e => rfl
  | stray v => rfl

variable {t : Tree ω σ} {next : t.Position → Value → Run σ (Option t.Position)}
  {maxDepth : Int} {w v : Walk t.Position} {s s' s₁ s₂ : σ} {keys : List Value} {key state : Value}
  {visits : Nat}

@[simp] theorem enter_together (w : Walk t.Position) :
    Walk.enter (t.together next) w = Walk.enter t w := by
  unfold enter
  rw [t.together_state next]
  rfl

theorem goOn_together (next : t.Position → Value → Run σ (Option t.Position)) (w : Walk t.Position)
    (key : Value) (child : t.Position) :
    Walk.goOn (t := t.together next) w ((t.node w.position).keyTogether key) child =
      w.goOn key child := by
  unfold goOn
  rw [t.together_state next]
  show Walk.mk child ((t.node child).state.transcript?.getD (w.transcript.addAll
    ((t.node w.position).together.plies _))) w.round (w.visited + 1) = _
  rw [Node.together_plies]

/-- A key that was decided for leads in the other tree where the rules say. -/
theorem follow_together {p : t.Position}
    (hnext : ∀ p key, next p ((t.node p).keyTogether key) = t.next p key)
    (hkey : (t.node p).lookupKey key = .ok key) :
    (t.together next).follow p ((t.node p).keyTogether key) = (do
      match ← t.next p key with
      | some q => return q
      | none => throw (.told (.unmapped ((t.node p).keyTogether key) (t.node p).state))) := by
  have hkey' : ((t.together next).node p).lookupKey ((t.node p).keyTogether key) =
      .ok ((t.node p).keyTogether key) := Node.together_lookupKey hkey
  have hleads : (t.together next).next p ((t.node p).keyTogether key) = t.next p key := hnext p key
  unfold Tree.follow
  rw [hkey', Run.liftM_ok, pure_bind, t.together_state next, hleads]
  refine bind_congr fun found => ?_
  cases found <;> rfl

/-- Within so many visits keys lead to a node where a player decides alone for a key that has no
continuation. The key can be written, otherwise no fault tells of it. -/
def StrandsAlone (t : Tree ω σ) (ps : Participants ω σ) (numPlayers maxDepth : Int) (visits : Nat)
    (w : Walk t.Position) (s : σ) (key state : Value) (s' : σ) : Prop :=
  ∃ keys v s₁ s₂ player moves, Follows t ps numPlayers maxDepth w s keys v s₁ ∧
    keys.length < visits ∧ ¬ maxDepth ≤ v.enter.visited ∧
    t.node v.position = .sequential player moves state ∧
    (decide ps numPlayers v.transcript (t.node v.position)).start s₁ = (.ok key, s₂) ∧
    (t.next v.position key).start s₂ = (.ok none, s') ∧ key.isWritable = true

/-- Where this key was decided for alone and has no continuation, the walk is stranded. -/
theorem StrandsAlone.here {player : Value} {moves : List Value}
    (hbound : ¬ maxDepth ≤ w.enter.visited)
    (hnode : t.node w.position = .sequential player moves state)
    (hkey : (decide ps numPlayers w.transcript (t.node w.position)).start s = (.ok key, s₁))
    (hnext : (t.next w.position key).start s₁ = (.ok none, s₂))
    (hwritable : key.isWritable = true) :
    StrandsAlone t ps numPlayers maxDepth (visits + 1) w s key state s₂ :=
  ⟨[], w, s, s₁, player, moves, .nil w s, Nat.zero_lt_succ _, hbound, hnode, hkey, hnext,
    hwritable⟩

/-- Where a key leads to a walk that strands, the walk before it does. -/
theorem StrandsAlone.after {first : Value} {child : t.Position}
    (hbound : ¬ maxDepth ≤ w.enter.visited) (hnode : (t.node w.position).goesOn = true)
    (hkey : (decide ps numPlayers w.transcript (t.node w.position)).start s = (.ok first, s₁))
    (hchild : (t.follow w.position first).start s₁ = (.ok child, s₂))
    (h : StrandsAlone t ps numPlayers maxDepth visits (w.enter.goOn first child) s₂ key state s') :
    StrandsAlone t ps numPlayers maxDepth (visits + 1) w s key state s' := by
  obtain ⟨keys, v, s₃, s₄, player, moves, hfollows, hless, hrest⟩ := h
  exact ⟨first :: keys, v, s₃, s₄, player, moves, .cons hbound hnode hkey hchild hfollows,
    Nat.succ_lt_succ hless, hrest⟩

section Walks

variable (hmoves : ∀ p player state, t.node p ≠ .sequential player [] state)

include hmoves

/-- What follows in the other tree where the walk goes on: the same is decided for, and the key of
it is followed. -/
theorem run_goOn_together (hbound : ¬ maxDepth ≤ w.enter.visited)
    (hnode : (t.node w.position).goesOn = true) (visits : Nat) :
    run (t.together next) ps numPlayers maxDepth (visits + 1) w = (do
      let key ← decide ps numPlayers w.transcript (t.node w.position)
      let child ← (t.together next).follow w.position ((t.node w.position).keyTogether key)
      run (t.together next) ps numPlayers maxDepth visits (w.enter.goOn key child)) := by
  have hbound' : ¬ maxDepth ≤ (Walk.enter (t.together next) w).visited := by
    rwa [enter_together]
  have hnode' : ((t.together next).node w.position).goesOn = true :=
    (Node.together_goesOn _).trans hnode
  rw [run_goOn hbound' hnode']
  show (do
    let key ← decide ps numPlayers w.transcript (t.node w.position).together
    let child ← (t.together next).follow w.position key
    run (t.together next) ps numPlayers maxDepth visits
      (Walk.goOn (t := t.together next) (Walk.enter (t.together next) w) key child)) = _
  rw [decide_together _ (hmoves w.position), bind_assoc]
  refine bind_congr fun key => ?_
  rw [pure_bind]
  refine bind_congr fun child => ?_
  have hgoOn := goOn_together next (Walk.enter t w) key child
  rw [enter_position] at hgoOn
  rw [enter_together, hgoOn]

variable (hnext : ∀ p key, next p ((t.node p).keyTogether key) = t.next p key)

include hnext

/-- A play of the other tree goes on from where the keys lead in the first one. -/
theorem Follows.run_together (h : Follows t ps numPlayers maxDepth w s keys v s₁) (visits : Nat) :
    (Walk.run (t.together next) ps numPlayers maxDepth (keys.length + visits) w).start s =
      (Walk.run (t.together next) ps numPlayers maxDepth visits v).start s₁ := by
  induction h with
  | nil => rw [List.length_nil, Nat.zero_add]
  | cons hbound hnode hkey hchild _ ih =>
      rw [List.length_cons, Nat.succ_add, run_goOn_together hmoves hbound hnode,
        Run.start_bind_ok hkey]
      obtain ⟨found, hfound, hleads⟩ := Tree.follow_eq_ok.1 hchild
      have hlookup := lookupKey_of_decide hkey
      cases hlookup.symm.trans hfound
      rw [follow_together hnext hlookup, bind_assoc, Run.start_bind_ok hleads]
      exact ih

/-- Where a walk strands alone, both trees tell of the key, and the other one of the tuple of it. -/
theorem StrandsAlone.run
    (h : StrandsAlone t ps numPlayers maxDepth visits w s key state s') :
    (Walk.run t ps numPlayers maxDepth visits w).start s = (.error (.unmapped key state), s') ∧
      (Walk.run (t.together next) ps numPlayers maxDepth visits w).start s =
        (.error (.unmapped (.tuple [key]) state), s') := by
  obtain ⟨keys, v, s₁, s₂, player, moves, hfollows, hless, hbound, hnode, hkey, hstray,
    hwritable⟩ :=
    h
  obtain ⟨more, rfl⟩ : ∃ more, visits = keys.length + (more + 1) :=
    ⟨visits - keys.length - 1, by omega⟩
  have hgoesOn : (t.node v.position).goesOn = true := by rw [hnode]; rfl
  have hlookup := lookupKey_of_decide hkey
  constructor
  · rw [hfollows.run, run_goOn hbound hgoesOn, Run.start_bind_ok hkey, Tree.follow, hlookup,
      Run.liftM_ok, pure_bind, bind_assoc, Run.start_bind_ok hstray, hnode,
      Fault.told_eq (by simpa [Fault.shown] using hwritable)]
    rfl
  · rw [hfollows.run_together hmoves hnext, run_goOn_together hmoves hbound hgoesOn,
      Run.start_bind_ok hkey, follow_together hnext hlookup, bind_assoc, Run.start_bind_ok hstray,
      hnode, Node.keyTogether,
      Fault.told_eq (by simpa [Fault.shown, Value.isWritable_single] using hwritable)]
    rfl

/-- Where a walk does not strand alone, both trees are walked the same. -/
theorem run_together
    (hled : ∀ key state s', ¬ StrandsAlone t ps numPlayers maxDepth visits w s key state s') :
    (Walk.run (t.together next) ps numPlayers maxDepth visits w).start s =
      (Walk.run t ps numPlayers maxDepth visits w).start s := by
  induction visits generalizing w s with
  | zero => rfl
  | succ visits ih =>
      have henter : Walk.enter (t.together next) w = Walk.enter t w := enter_together w
      by_cases hbound : maxDepth ≤ w.enter.visited
      · have hbound' : maxDepth ≤ (Walk.enter (t.together next) w).visited := by rwa [henter]
        rw [run_cut_off hbound, run_cut_off hbound', t.together_state next]
      have hbound' : ¬ maxDepth ≤ (Walk.enter (t.together next) w).visited := by rwa [henter]
      rcases (t.node w.position).goesOn_or with ⟨e, hnode⟩ | ⟨stray, hnode⟩ | hnode
      · have hnode' : (t.together next).node w.position = .terminal e :=
          congrArg Node.together hnode
        rw [run_terminal hbound hnode, run_terminal hbound' hnode']
      · have hnode' : (t.together next).node w.position = .stray stray :=
          congrArg Node.together hnode
        rw [run_stray hbound hnode, run_stray hbound' hnode']
      · rw [run_goOn hbound hnode, run_goOn_together hmoves hbound hnode]
        rcases hkey : (decide ps numPlayers w.transcript (t.node w.position)).start s with
          ⟨f | key, s₁⟩
        · rw [Run.start_bind_error hkey, Run.start_bind_error hkey]
        have hlookup := lookupKey_of_decide hkey
        rw [Run.start_bind_ok hkey, Run.start_bind_ok hkey, follow_together hnext hlookup,
          Tree.follow, hlookup, Run.liftM_ok, pure_bind, bind_assoc, bind_assoc]
        rcases hleads : (t.next w.position key).start s₁ with ⟨f | (_ | child), s₂⟩
        · rw [Run.start_bind_error hleads, Run.start_bind_error hleads]
        · -- A key without a continuation is told of in both trees alike unless decided for alone.
          have hsame (state : Value) :
              (Fault.unmapped ((t.node w.position).keyTogether key) state).told =
                (Fault.unmapped key state).told :=
            Node.told_unmapped_keyTogether state fun player moves state halone =>
              Bool.eq_false_iff.2 fun hwritable =>
                hled key state s₂ (.here hbound halone hkey hleads hwritable)
          rw [Run.start_bind_ok hleads, Run.start_bind_ok hleads, hsame]
          rfl
        · rw [Run.start_bind_ok hleads, Run.start_bind_ok hleads]
          have hchild : (t.follow w.position key).start s₁ = (.ok child, s₂) :=
            Tree.follow_eq_ok.2 ⟨key, hlookup, hleads⟩
          exact ih fun key' state s' hstrands =>
            hled key' state s' (hstrands.after hbound hnode hkey hchild)

end Walks

end Walk

variable {t : Tree ω σ} {next : t.Position → Value → Run σ (Option t.Position)} {maxDepth : Int}
  {root : t.Position} {visits : Nat} {s s' : σ} {key state : Value}

@[simp] theorem Walk.start_together (root : t.Position) :
    Walk.start (t.together next) root = Walk.start t root := by
  unfold Walk.start
  rw [t.together_state next]
  rfl

section Plays

variable (hmoves : ∀ p player state, t.node p ≠ .sequential player [] state)
  (hnext : ∀ p key, next p ((t.node p).keyTogether key) = t.next p key)

include hmoves hnext

/-- A play that does not strand alone is the same in both trees. -/
theorem execute_together
    (hled : ps.check numPlayers = .ok () → ∀ key state s',
      ¬ Walk.StrandsAlone t ps numPlayers maxDepth visits (Walk.start t root) s key state s') :
    (execute (t.together next) ps numPlayers maxDepth visits root).start s =
      (execute t ps numPlayers maxDepth visits root).start s := by
  cases hcheck : ps.check numPlayers with
  | error f =>
      rw [execute_eq_throw hcheck,
        execute_eq_throw (t := t.together next) hcheck maxDepth visits root]
  | ok =>
      rw [execute_eq hcheck, execute_eq (t := t.together next) hcheck maxDepth visits root,
        Walk.start_together]
      exact Walk.run_together hmoves hnext (hled hcheck)

/-- A play that does tells of the key, and in the other tree of the tuple of it. -/
theorem Walk.StrandsAlone.execute (hcheck : ps.check numPlayers = .ok ())
    (h : Walk.StrandsAlone t ps numPlayers maxDepth visits (Walk.start t root) s key state s') :
    (ExtensiveForm.execute t ps numPlayers maxDepth visits root).start s =
        (.error (.unmapped key state), s') ∧
      (ExtensiveForm.execute (t.together next) ps numPlayers maxDepth visits root).start s =
        (.error (.unmapped (.tuple [key]) state), s') := by
  rw [execute_eq hcheck, execute_eq (t := t.together next) hcheck maxDepth visits root,
    Walk.start_together]
  exact h.run hmoves hnext

/-- In both trees a play leaves the same behind. -/
theorem execute_together_after :
    ((execute (t.together next) ps numPlayers maxDepth visits root).start s).2 =
      ((execute t ps numPlayers maxDepth visits root).start s).2 := by
  by_cases hstrands : ∃ key state s', ps.check numPlayers = .ok () ∧
    Walk.StrandsAlone t ps numPlayers maxDepth visits (Walk.start t root) s key state s'
  · obtain ⟨key, state, s', hcheck, hstrands⟩ := hstrands
    obtain ⟨halone, htogether⟩ := hstrands.execute hmoves hnext hcheck
    rw [halone, htogether]
  · rw [execute_together hmoves hnext fun hcheck key state s' h =>
      hstrands ⟨key, state, s', hcheck, h⟩]

end Plays

/-- It makes no difference to a play whether a player who has a move to choose decides alone or
together with nobody else. Both trees are played to the same outcome or fault, unless keys have led
to a node where a player has decided alone for a key without a continuation; then both faults tell
so, the one of the key and the other of the tuple of it. In any case the players are shown the same
one after another, and the surroundings are left the same. -/
theorem alone_or_together
    (hnext : ∀ p key, next p ((t.node p).keyTogether key) = t.next p key)
    (hmoves : ∀ p player state, t.node p ≠ .sequential player [] state) (ps : Participants ω σ)
    (numPlayers maxDepth : Int) (visits : Nat) (root : t.Position) (s : σ) :
    ((ps.check numPlayers = .ok () → ∀ key state s',
        ¬ Walk.StrandsAlone t ps numPlayers maxDepth visits (Walk.start t root) s key state s') →
      (execute (t.together next) ps numPlayers maxDepth visits root).start s =
        (execute t ps numPlayers maxDepth visits root).start s) ∧
    (ps.check numPlayers = .ok () → ∀ key state s',
      Walk.StrandsAlone t ps numPlayers maxDepth visits (Walk.start t root) s key state s' →
      (execute t ps numPlayers maxDepth visits root).start s =
          (.error (.unmapped key state), s') ∧
        (execute (t.together next) ps numPlayers maxDepth visits root).start s =
          (.error (.unmapped (.tuple [key]) state), s')) ∧
    ((execute ((t.together next).beside (List Context)) (ps.noted List.cons) numPlayers maxDepth
        visits root).start (s, [])).2 =
      ((execute (t.beside (List Context)) (ps.noted List.cons) numPlayers maxDepth visits
        root).start (s, [])).2 := by
  refine ⟨execute_together hmoves hnext,
    fun hcheck key state s' hstrands => hstrands.execute hmoves hnext hcheck, ?_⟩
  exact execute_together_after (t := t.beside (List Context)) hmoves
    fun p key => congrArg (Run.beside id) (hnext p key)

/-- Where the tuple of a pick leads. -/
def Game.pickTogether : Option Bool → Value → Run Bool (Option (Option Bool))
  | none, .tuple [move] => pick.tree.next none move
  | _, _ => return none

/-- A pick is the same alone and together with nobody else, and whoever picks is shown the same.
Where the second move has no continuation, the one fault tells of the move and the other of the
tuple. -/
theorem Game.picks_alone_or_together :
    (execute (pick.tree.together pickTogether) alternating 1 5 3 none).start false =
        (.ok (some (picked true)), true) ∧
      ((execute ((pick.tree.together pickTogether).beside (List Context))
        (alternating.noted List.cons) 1 5 3 none).start (false, [])).2 =
        (true, [⟨.int 0, .tuple [.bool true, .bool false], 1, .null, .empty⟩]) ∧
      (execute ((Tree.cutShort (.int 0)).together (Tree.cutShort (.int 0)).next) .steadfast 1 9 3
        false).start () = (.error (.unmapped (.tuple [.int 1]) (.text "second")), ()) := by
  have hnext : ∀ p key, pickTogether p ((pick.tree.node p).keyTogether key) =
      pick.tree.next p key := by
    intro p key
    cases p <;> rfl
  have hmoves : ∀ p player state, pick.tree.node p ≠ .sequential player [] state := by
    intro p player state
    cases p <;> simp [pick]
  obtain ⟨hsame, hstrands, hshown⟩ :=
    alone_or_together hnext hmoves alternating 1 5 3 none false
  have hplay : (execute pick.tree alternating 1 5 3 none).start false =
      (.ok (some (picked true)), true) := by with_unfolding_all rfl
  refine ⟨?_, ?_, ?_⟩
  · rw [hsame, hplay]
    intro hcheck key state s' hstranded
    have hfault := (hstrands hcheck key state s' hstranded).1
    rw [hplay] at hfault
    cases hfault
  · rw [hshown]
    with_unfolding_all rfl
  · have hmoves' : ∀ p player state,
        (Tree.cutShort (.int 0)).node p ≠ .sequential player [] state := by
      intro p player state
      cases p <;> simp [Tree.cutShort]
    have hstranded : Walk.StrandsAlone (.cutShort (.int 0)) .steadfast 1 9 3
        (Walk.start (.cutShort (.int 0)) false) () (.int 1) (.text "second") () :=
      ⟨[.int 1], ⟨true, ⟨[⟨.int 0, .int 1⟩]⟩, .null, 1⟩, (), (), .int 0, [.int 1],
        .cons (by with_unfolding_all decide) rfl (by with_unfolding_all rfl)
          (by with_unfolding_all rfl) (.nil _ _),
        by decide, by with_unfolding_all decide, rfl, by with_unfolding_all rfl, rfl,
        Value.isWritable_of_lt (by decide)⟩
    exact ((alone_or_together (fun _ _ => rfl) hmoves' .steadfast 1 9 3 false ()).2.1 rfl _ _ _
      hstranded).2

end ExtensiveForm
