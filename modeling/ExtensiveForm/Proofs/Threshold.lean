import Mathlib.Data.List.SplitBy
import ExtensiveForm.Proofs.Equality
import ExtensiveForm.Proofs.Legal

/-!
# The bound is a threshold

The nodes that a play visits fall into blocks of consecutive nodes of one round. The main result,
`Tree.bound_is_a_threshold`, says that nothing but the length of the longest block matters of the
bound: a play comes to the same outcome under every bound that is not less than this length, and
under every lesser one it is cut off in the first block that is too long.

The walk counts the visits in the round that it tells of, and it compares the round of a node with
that of the first node of the block. Since equality of rounds is symmetric and transitive, the count
is the number of nodes right before that belong to the block, `stretch`, whatever the bound is.
`Walk.Reaches` therefore tells how far a play gets with no bound at all.
-/

namespace ExtensiveForm

/-! ### Blocks of a list -/

section Blocks

variable {α : Type} {same : α → α → Bool} {l p block : List α} {before after : List (List α)}

/-- How many things come right before the first one, the latest first, each of them in one block
with what follows it. -/
def stretch (same : α → α → Bool) : List α → Nat
  | a :: b :: before => if same b a then stretch same (b :: before) + 1 else 0
  | _ => 0

/-- The first thing of a block has nothing of the block before it. -/
theorem stretch_head {a : α} {rest : List α}
    (h : l.splitBy same = before ++ (a :: rest) :: after) :
    stretch same (a :: before.flatten.reverse) = 0 := by
  rcases List.eq_nil_or_concat before with rfl | ⟨before, b, rfl⟩
  · rfl
  · have hb : b ∈ l.splitBy same := by simp [h]
    obtain ⟨b', z, rfl⟩ := List.eq_nil_or_concat b |>.resolve_left (List.ne_nil_of_mem_splitBy hb)
    have hchain := List.isChain_getLast_head_splitBy same l
    rw [h, List.concat_eq_append, List.append_assoc, List.singleton_append,
      List.isChain_append_cons_cons] at hchain
    obtain ⟨-, ⟨_, _, hdifferent⟩, -⟩ := hchain
    simpa [stretch] using hdifferent

/-- At each place of a block, the things of the block up to there are what comes before. -/
theorem stretch_block (h : l.splitBy same = before ++ block :: after) {j : Nat}
    (hj : j < block.length) :
    stretch same (before.flatten ++ block.take (j + 1)).reverse = j := by
  induction j with
  | zero =>
      obtain ⟨a, rest, rfl⟩ := List.exists_cons_of_length_pos hj
      simpa using stretch_head h
  | succ j ih =>
      have hchain :=
        List.isChain_of_mem_splitBy (h ▸ List.mem_append_right before List.mem_cons_self)
      have hsame : same block[j] block[j + 1] = true := List.isChain_iff_getElem.1 hchain j hj
      have hbefore := ih (Nat.lt_of_succ_lt hj)
      rw [← List.take_append_getElem (Nat.lt_of_succ_lt hj), ← List.append_assoc,
        List.reverse_append, List.reverse_singleton, List.singleton_append] at hbefore
      rw [← List.take_append_getElem hj, ← List.take_append_getElem (Nat.lt_of_succ_lt hj),
        ← List.append_assoc, ← List.append_assoc, List.reverse_append, List.reverse_append,
        List.reverse_singleton, List.reverse_singleton, List.singleton_append,
        List.singleton_append, stretch, if_pos hsame, hbefore]

/-- A list of blocks that is cut off somewhere is cut off in one of them. -/
theorem exists_block {blocks : List (List α)} (h : p <+: blocks.flatten) (hp : p ≠ []) :
    ∃ before block after j, blocks = before ++ block :: after ∧ j < block.length ∧
      p = before.flatten ++ block.take (j + 1) := by
  induction blocks generalizing p with
  | nil => exact absurd (List.prefix_nil.1 h) hp
  | cons b blocks ih =>
      rw [List.flatten_cons] at h
      by_cases hlength : p.length ≤ b.length
      · obtain ⟨j, hj⟩ : ∃ j, p.length = j + 1 :=
          Nat.exists_eq_succ_of_ne_zero (mt List.length_eq_zero_iff.1 hp)
        refine ⟨[], b, blocks, j, rfl, by omega, ?_⟩
        rw [← hj]
        exact List.prefix_iff_eq_take.1 (List.prefix_of_prefix_length_le h
          (List.prefix_append b _) hlength)
      · obtain ⟨p', rfl⟩ := List.prefix_of_prefix_length_le (List.prefix_append b _) h
          (Nat.le_of_not_le hlength)
        have hp' : p' ≠ [] := by
          rintro rfl
          simp at hlength
        obtain ⟨before, block, after, j, rfl, hj, rfl⟩ :=
          ih ((List.prefix_append_right_inj b).1 h) hp'
        exact ⟨b :: before, block, after, j, rfl, hj, by simp⟩

/-- Where a list is cut off in front of a place of a block, and no block before it is longer than
the number of this place, nothing has as many things of its block before it. -/
theorem stretch_lt {d : Nat} (h : l.splitBy same = before ++ block :: after)
    (hbefore : ∀ b ∈ before, b.length ≤ d) (hp : p <+: before.flatten ++ block.take d)
    (hne : p ≠ []) : stretch same p.reverse < d := by
  have hflatten : before.flatten ++ block.take d = (before ++ [block.take d]).flatten := by simp
  obtain ⟨before', block', after', j, hblocks, hj, rfl⟩ := exists_block (hflatten ▸ hp) hne
  rcases List.eq_nil_or_concat after' with rfl | ⟨after', b, rfl⟩
  · obtain ⟨rfl, heq⟩ := List.append_inj' hblocks rfl
    cases heq
    rw [List.length_take] at hj
    rw [List.take_take, min_eq_left (by omega), stretch_block h (by omega)]
    omega
  · have hsame : before ++ [block.take d] = (before' ++ block' :: after') ++ [b] := by
      simpa using hblocks
    obtain ⟨rfl, -⟩ := List.append_inj' hsame rfl
    rw [List.append_assoc, List.cons_append] at h
    rw [stretch_block h hj]
    exact Nat.lt_of_lt_of_le hj (hbefore block' (by simp))

/-- The length of the longest block. -/
def longest (blocks : List (List α)) : Nat :=
  (blocks.map List.length).foldr max 0

theorem length_le_longest {blocks : List (List α)} (h : block ∈ blocks) :
    block.length ≤ longest blocks := by
  induction blocks with
  | nil => cases h
  | cons b blocks ih =>
      show block.length ≤ max b.length (longest blocks)
      rcases List.mem_cons.1 h with rfl | h
      · exact Nat.le_max_left _ _
      · exact Nat.le_trans (ih h) (Nat.le_max_right _ _)

/-- There is a first block that is longer than this, unless the longest one is not. -/
theorem exists_first_longer {blocks : List (List α)} {d : Nat} (h : d < longest blocks) :
    ∃ before block after, blocks = before ++ block :: after ∧
      (∀ b ∈ before, b.length ≤ d) ∧ d < block.length := by
  induction blocks with
  | nil => exact absurd h (Nat.not_lt_zero d)
  | cons b blocks ih =>
      by_cases hlonger : d < b.length
      · exact ⟨[], b, blocks, rfl, nofun, hlonger⟩
      · have hlater : d < longest blocks := by
          change d < max b.length (longest blocks) at h
          omega
        obtain ⟨before, block, after, rfl, hbefore, hd⟩ := ih hlater
        exact ⟨b :: before, block, after, rfl,
          List.forall_mem_cons.2 ⟨Nat.le_of_not_lt hlonger, hbefore⟩, hd⟩

/-- Nothing has more things of its block before it than fit into the longest block. -/
theorem stretch_lt_longest (hp : p <+: l) (hne : p ≠ []) :
    stretch same p.reverse < longest (l.splitBy same) := by
  rw [← List.flatten_splitBy same l] at hp
  obtain ⟨before, block, after, j, hblocks, hj, rfl⟩ := exists_block hp hne
  rw [stretch_block hblocks hj]
  exact Nat.lt_of_lt_of_le hj (length_le_longest (hblocks ▸ by simp))

end Blocks

/-! ### Blocks of visited nodes -/

/-- Two nodes belong to the same round. -/
def Tree.sameRound {ω σ : Type} [Scale ω] (t : Tree ω σ) (p q : t.Position) : Bool :=
  (t.node p).state.round == (t.node q).state.round

/-- The blocks of consecutive nodes of one round. -/
def Tree.blocks {ω σ : Type} [Scale ω] (t : Tree ω σ) (visited : List t.Position) :
    List (List t.Position) :=
  visited.splitBy t.sameRound

namespace Walk

variable {ω σ : Type} [Scale ω] {t : Tree ω σ} {ps : Participants ω σ} {numPlayers bound : Int}
  {root : t.Position} {s s₁ s' : σ} {path later : List (Visit t.Position)} {v w : Walk t.Position}
  {keys : List Value}

/-- With no bound, a play comes by these visits, the latest first, to this walk. -/
inductive Reaches (t : Tree ω σ) (ps : Participants ω σ) (numPlayers : Int) (root : t.Position)
    (s : σ) : List (Visit t.Position) → Walk t.Position → σ → Prop
  | start : Reaches t ps numPlayers root s [] (Walk.start t root) s
  | next {path : List (Visit t.Position)} {w : Walk t.Position} {child : t.Position} {key : Value}
      {s₁ s₂ s₃ : σ} (hbefore : Reaches t ps numPlayers root s path w s₁)
      (hnode : (t.node w.position).goesOn = true)
      (hkey : (decide ps numPlayers w.transcript (t.node w.position)).start s₁ = (.ok key, s₂))
      (hchild : (t.follow w.position key).start s₂ = (.ok child, s₃)) :
      Reaches t ps numPlayers root s (⟨w.position, w.transcript, key, child⟩ :: path)
        (w.enter.goOn key child) s₃

namespace Reaches

/-- The round that a walk tells of is that of its node, and the visits that it counts are those
right before that belong to the block of its node. -/
theorem visited (h : Reaches t ps numPlayers root s path w s₁) :
    ((t.node w.position).state.round = w.enter.round ∨
      ((t.node w.position).state.round == w.enter.round) = true) ∧
    w.enter.visited = stretch t.sameRound (w.position :: path.map (·.position)) := by
  induction h with
  | start =>
      by_cases hround : ((t.node root).state.round == (t.node root).state.round) = true
      · rw [enter_of_beq hround]
        exact ⟨.inl rfl, rfl⟩
      · rw [enter_of_not_beq hround]
        exact ⟨.inl rfl, rfl⟩
  | @next path w child key s₁ s₂ s₃ hbefore _ _ _ ih =>
      obtain ⟨hround, hvisited⟩ := ih
      -- The walk compares with the first node of the block what the blocks compare with the last.
      have hsame : t.sameRound w.position child = true ↔
          ((t.node child).state.round == w.enter.round) = true := by
        rcases hround with hround | hround
        · rw [Tree.sameRound, hround]
          exact ⟨Value.beq_symm, Value.beq_symm⟩
        · exact ⟨fun h => Value.beq_trans (Value.beq_symm h) hround,
            fun h => Value.beq_trans hround (Value.beq_symm h)⟩
      show _ ∧ _ = stretch t.sameRound (child :: w.position :: path.map (·.position))
      rw [stretch, ← hvisited]
      by_cases hchild : ((t.node child).state.round == w.enter.round) = true
      · rw [if_pos (hsame.2 hchild), enter_of_beq (w := w.enter.goOn key child) hchild]
        exact ⟨.inr hchild, rfl⟩
      · rw [if_neg (mt hsame.1 hchild), enter_of_not_beq (w := w.enter.goOn key child) hchild]
        exact ⟨.inl rfl, rfl⟩

/-- Each visit led to the next one. -/
theorem positions (h : Reaches t ps numPlayers root s path w s₁) :
    w.position :: path.map (·.position) = path.map (·.next) ++ [root] := by
  induction h with
  | start => rfl
  | @next path w child key _ _ _ _ _ _ _ ih => exact congrArg (child :: ·) ih

/-- A bound that is greater than all the counts of these visits does not matter to them. -/
theorem run (h : Reaches t ps numPlayers root s path w s₁)
    (hbound : ∀ p, p <:+ path.map (·.position) → p ≠ [] →
      (stretch t.sameRound p : Int) < bound) (visits : Nat) :
    (Walk.run t ps numPlayers bound (path.length + visits) (Walk.start t root)).start s =
      (Walk.run t ps numPlayers bound visits w).start s₁ := by
  induction h generalizing visits with
  | start => rw [List.length_nil, Nat.zero_add]
  | @next path w child key s₁ s₂ s₃ hbefore hnode hkey hchild ih =>
      have hvisit : ¬ bound ≤ w.enter.visited := by
        rw [hbefore.visited.2]
        exact Int.not_le.2 (hbound _ List.suffix_rfl (List.cons_ne_nil _ _))
      rw [List.length_cons, Nat.succ_add_eq_add_succ,
        ih (fun p hsuffix => hbound p (hsuffix.trans (List.suffix_cons _ _))),
        run_goOn hvisit hnode, Run.start_bind_ok hkey, Run.start_bind_ok hchild]

/-- With a log, a play comes by the same visits to the same walk, and these visits are in the
log. -/
theorem logged (h : Reaches t ps numPlayers root s path w s₁) :
    Reaches t.logged (ps.logged t.Position) numPlayers root (s, []) path w
      (s₁, (path.reverse.flatMap (Visit.entries · numPlayers)).reverse) := by
  induction h with
  | start => exact .start
  | @next path w child key s₁ s₂ s₃ _ hnode hkey hchild ih =>
      rw [List.reverse_cons, List.flatMap_append, List.reverse_append, List.flatMap_singleton,
        Visit.entries, List.reverse_append, List.reverse_singleton, List.append_assoc]
      exact .next (t := t.logged) ih hnode (decide_logged hkey _)
        (follow_logged (lookupKey_of_decide hkey) hchild _)

theorem before (h : Reaches t ps numPlayers root s (later ++ path) w s₁) :
    ∃ v s₂ rest, Reaches t ps numPlayers root s path v s₂ ∧
      w.position :: (later ++ path).map (·.position) =
        rest ++ v.position :: path.map (·.position) := by
  induction later generalizing w s₁ with
  | nil => exact ⟨w, s₁, [], h, rfl⟩
  | cons visit later ih =>
      cases h with
      | next hbefore =>
          obtain ⟨v, s₂, rest, hv, hpositions⟩ := ih hbefore
          exact ⟨v, s₂, _ :: rest, hv, congrArg (_ :: ·) hpositions⟩

/-- A play that comes by some visits, told in the order in which they were made, was on its way at
each of them. -/
theorem take (h : Reaches t ps numPlayers root s path.reverse w s₁) (i : Nat) :
    ∃ v s₂ rest, Reaches t ps numPlayers root s (path.take i).reverse v s₂ ∧
      path.map (·.position) ++ [w.position] =
        (path.take i).map (·.position) ++ v.position :: rest := by
  have hsplit : path.reverse = (path.drop i).reverse ++ (path.take i).reverse := by
    rw [← List.reverse_append, List.take_append_drop]
  rw [hsplit] at h
  obtain ⟨v, s₂, rest, hv, hpositions⟩ := h.before
  rw [← hsplit, ← List.reverse_inj, List.map_reverse, List.map_reverse] at hpositions
  exact ⟨v, s₂, rest.reverse, hv, by simpa using hpositions⟩

/-- At the end of the game a play has its outcome, if no visit exceeds the bound. -/
theorem execute_eq_ok {e : Ending} {o : Outcome} (hcheck : ps.check numPlayers = .ok ())
    (h : Reaches t ps numPlayers root s path w s₁) (hnode : t.node w.position = .terminal e)
    (houtcome : e.outcome w.transcript numPlayers = .ok o)
    (hbound : ∀ p, p <:+ w.position :: path.map (·.position) → p ≠ [] →
      (stretch t.sameRound p : Int) < bound) {visits : Nat} (hvisits : path.length < visits) :
    (execute t ps numPlayers bound visits root).start s = (.ok (some o), s₁) := by
  have hlast : ¬ bound ≤ w.enter.visited := by
    rw [h.visited.2]
    exact Int.not_le.2 (hbound _ List.suffix_rfl (List.cons_ne_nil _ _))
  obtain ⟨more, rfl⟩ : ∃ more, visits = path.length + (more + 1) :=
    ⟨visits - path.length - 1, by omega⟩
  rw [execute_eq hcheck,
    h.run (fun p hsuffix => hbound p (hsuffix.trans (List.suffix_cons _ _)))]
  exact Finishes.run ⟨hlast, e, hnode, houtcome⟩ more

/-- Where the bound is reached, a play is cut off. -/
theorem execute_cut_off (hcheck : ps.check numPlayers = .ok ())
    (h : Reaches t ps numPlayers root s path w s₁)
    (hbound : ∀ p, p <:+ path.map (·.position) → p ≠ [] →
      (stretch t.sameRound p : Int) < bound)
    (hreached : bound ≤ stretch t.sameRound (w.position :: path.map (·.position))) {visits : Nat}
    (hvisits : path.length < visits) :
    (execute t ps numPlayers bound visits root).start s =
      (.error (.nonterminating bound (t.node w.position).state), s₁) := by
  obtain ⟨more, rfl⟩ : ∃ more, visits = path.length + (more + 1) :=
    ⟨visits - path.length - 1, by omega⟩
  rw [execute_eq hcheck, h.run hbound, run_cut_off (by rwa [h.visited.2]), Run.start_throw]

end Reaches

/-- Keys that are followed under some bound are followed with no bound. -/
theorem Follows.reaches (h : Follows t ps numPlayers bound w s₁ keys v s')
    (hw : Reaches t ps numPlayers root s path w s₁) :
    ∃ later, later.length = keys.length ∧
      Reaches t ps numPlayers root s (later ++ path) v s' := by
  induction h generalizing path with
  | nil => exact ⟨[], rfl, hw⟩
  | cons _ hnode hkey hchild _ ih =>
      obtain ⟨later, hlength, hlater⟩ := ih (.next hw hnode hkey hchild)
      refine ⟨later ++ [_], ?_, by rwa [List.append_assoc]⟩
      rw [List.length_append, hlength, List.length_singleton, List.length_cons]

end Walk

namespace Tree

variable {ω σ : Type} [Scale ω] {t : Tree ω σ} {ps : Participants ω σ} {numPlayers bound : Int}
  {root : t.Position} {s s₁ s' : σ} {path : List (Visit t.Position)} {w : Walk t.Position}

/-- The length of the longest block of consecutive nodes of one round. -/
def longestBlock (t : Tree ω σ) (visited : List t.Position) : Nat :=
  longest (t.blocks visited)

/-- The visits come, in the order in which they were made, to the first place of the first block
that is longer than the bound at which the bound is reached. -/
theorem reaches_bound (h : Walk.Reaches t ps numPlayers root s path.reverse w s₁)
    {before after : List (List t.Position)} {block : List t.Position} {d : Nat}
    (hblocks : t.blocks (path.map (·.position) ++ [w.position]) = before ++ block :: after)
    (hbefore : ∀ b ∈ before, b.length ≤ d) (hd : d < block.length) :
    ∃ v s₂, Walk.Reaches t ps numPlayers root s
        (path.take (before.flatten.length + d)).reverse v s₂ ∧
      v.position = block[d] ∧ before.flatten.length + d ≤ path.length ∧
      (∀ p, p <:+ (path.take (before.flatten.length + d)).reverse.map (·.position) → p ≠ [] →
        stretch t.sameRound p < d) ∧
      stretch t.sameRound (v.position ::
        (path.take (before.flatten.length + d)).reverse.map (·.position)) = d := by
  have hvisited : path.map (·.position) ++ [w.position] =
      (before.flatten ++ block.take d) ++ block[d] :: (block.drop (d + 1) ++ after.flatten) := by
    rw [List.append_assoc, ← List.cons_append, List.getElem_cons_drop,
      ← List.append_assoc (block.take d), List.take_append_drop, ← List.flatten_cons,
      ← List.flatten_append, ← hblocks]
    exact (List.flatten_splitBy _ _).symm
  have hlength : (before.flatten ++ block.take d).length = before.flatten.length + d := by
    rw [List.length_append, List.length_take, min_eq_left hd.le]
  have hle : before.flatten.length + d ≤ path.length := by
    have := congrArg List.length hvisited
    rw [List.length_append, List.length_append, hlength, List.length_map] at this
    simp only [List.length_cons, List.length_nil] at this
    omega
  obtain ⟨v, s₂, rest, hv, hpositions⟩ := h.take (before.flatten.length + d)
  obtain ⟨htake, hrest⟩ := List.append_inj (hvisited.symm.trans hpositions)
    (by rw [hlength, List.length_map, List.length_take, min_eq_left hle])
  obtain ⟨hposition, -⟩ := List.cons.inj hrest
  rw [List.map_reverse, ← htake]
  refine ⟨v, s₂, hv, hposition.symm, hle, fun p hsuffix hne => ?_, ?_⟩
  · rw [← List.reverse_reverse p]
    refine stretch_lt hblocks hbefore ?_ (List.reverse_ne_nil_iff.2 hne)
    rwa [← List.reverse_suffix, List.reverse_reverse]
  · have hblock := stretch_block hblocks hd
    rwa [← List.take_append_getElem hd, ← List.append_assoc, List.reverse_append,
      List.reverse_singleton, List.singleton_append, hposition] at hblock

/-- Under a bound that is less than the length of the longest block, a play is cut off. -/
theorem cut_off_below (hcheck : ps.check numPlayers = .ok ())
    (h : Walk.Reaches t ps numPlayers root s path.reverse w s₁) {d : Nat}
    (hd : d < t.longestBlock (path.map (·.position) ++ [w.position])) :
    ∃ before block after s₂,
      t.blocks (path.map (·.position) ++ [w.position]) = before ++ block :: after ∧
      (∀ b ∈ before, b.length ≤ d) ∧
      ∃ hd : d < block.length, ∀ visits, before.flatten.length + d < visits →
        (execute t ps numPlayers d visits root).start s =
          (.error (.nonterminating d (t.node block[d]).state), s₂) ∧
        (execute t.logged (ps.logged t.Position) numPlayers d visits root).start (s, []) =
          (.error (.nonterminating d (t.node block[d]).state), (s₂,
            ((path.take (before.flatten.length + d)).flatMap
              (Visit.entries · numPlayers)).reverse)) := by
  obtain ⟨before, block, after, hblocks, hbefore, hd⟩ := exists_first_longer hd
  obtain ⟨v, s₂, hv, hposition, hle, hwithin, hreached⟩ := reaches_bound h hblocks hbefore hd
  have hlogged := hv.logged
  rw [List.reverse_reverse] at hlogged
  refine ⟨before, block, after, s₂, hblocks, hbefore, hd, fun visits hvisits => ?_⟩
  have hvisits' : (path.take (before.flatten.length + d)).reverse.length < visits := by
    rw [List.length_reverse, List.length_take, min_eq_left hle]
    exact hvisits
  rw [← hposition]
  have hbound p hsuffix hne := Int.ofNat_lt.2 (hwithin p hsuffix hne)
  have hreached' := Int.ofNat_le.2 hreached.ge
  exact ⟨hv.execute_cut_off hcheck hbound hreached' hvisits',
    hlogged.execute_cut_off (t := t.logged) hcheck hbound hreached' hvisits'⟩

/-- Whether the bound of a play is great enough depends on the longest block of consecutive visited
nodes of one round alone. If a play comes to an outcome, it comes to the same outcome by the same
visits under every bound that is not less than the length of this block. Under every lesser bound
that is not negative, it is cut off in the first block that is longer than the bound, at the node
whose number in the block is greater than the bound by one, and by then exactly the visits before
this node were made. -/
theorem bound_is_a_threshold {visits : Nat} {o : Outcome}
    (h : (execute t ps numPlayers bound visits root).start s = (.ok (some o), s')) :
    ∃ (path : List (Visit t.Position)) (last : t.Position),
      let visited := path.map (·.position) ++ [last]
      visited = root :: path.map (·.next) ∧ visited.length ≤ visits ∧
      t.longestBlock visited ≤ bound ∧
      (∀ d : Int, t.longestBlock visited ≤ d → ∀ visits, visited.length ≤ visits →
        (execute t ps numPlayers d visits root).start s = (.ok (some o), s') ∧
        (execute t.logged (ps.logged t.Position) numPlayers d visits root).start (s, []) =
          (.ok (some o), (s', (path.flatMap (Visit.entries · numPlayers)).reverse))) ∧
      ∀ d : Nat, d < t.longestBlock visited → ∃ before block after s₁,
        t.blocks visited = before ++ block :: after ∧ (∀ b ∈ before, b.length ≤ d) ∧
        ∃ hd : d < block.length, ∀ visits, before.flatten.length + d < visits →
          (execute t ps numPlayers d visits root).start s =
            (.error (.nonterminating d (t.node block[d]).state), s₁) ∧
          (execute t.logged (ps.logged t.Position) numPlayers d visits root).start (s, []) =
            (.error (.nonterminating d (t.node block[d]).state), (s₁,
              ((path.take (before.flatten.length + d)).flatMap
                (Visit.entries · numPlayers)).reverse)) := by
  cases hcheck : ps.check numPlayers with
  | error f =>
      rw [execute_eq_throw hcheck] at h
      cases h
  | ok =>
      rw [execute_eq hcheck] at h
      obtain ⟨keys, w, hfollows, hvisits, hlast, e, hnode, houtcome⟩ := Walk.run_eq_some_iff.1 h
      obtain ⟨latest, hlength, hreaches⟩ := hfollows.reaches .start
      obtain ⟨path, rfl⟩ : ∃ path : List (Visit t.Position), latest = path.reverse :=
        ⟨_, latest.reverse_reverse.symm⟩
      rw [List.append_nil] at hreaches
      have hlogged := hreaches.logged
      rw [List.reverse_reverse] at hlogged
      refine ⟨path, w.position, ?_, ?_, ?_, fun d hd visits hvisits => ?_,
        fun d hd => cut_off_below hcheck hreaches hd⟩
      · simpa using congrArg List.reverse hreaches.positions
      · rw [List.length_reverse] at hlength
        rw [List.length_append, List.length_map, hlength]
        exact hvisits
      · -- Otherwise the play itself would have been cut off.
        refine Int.not_lt.1 fun hless => ?_
        obtain ⟨d, rfl⟩ := Int.eq_ofNat_of_zero_le (Int.le_of_lt
          (Int.lt_of_le_of_lt (Int.natCast_nonneg _) (Int.not_le.1 hlast)))
        obtain ⟨before, _, _, _, -, -, _, hcut⟩ :=
          cut_off_below hcheck hreaches (Int.ofNat_lt.1 hless)
        have hmore := Walk.run_mono h nofun (Nat.le_max_left visits (before.flatten.length + d + 1))
        rw [← execute_eq hcheck, (hcut _ (Nat.le_max_right _ _)).1] at hmore
        cases hmore
      · have hbound : ∀ p, p <:+ w.position :: path.reverse.map (·.position) → p ≠ [] →
            (stretch t.sameRound p : Int) < d := by
          intro p hsuffix hne
          have hprefix : p.reverse <+: path.map (·.position) ++ [w.position] := by
            rw [← List.reverse_suffix, List.reverse_reverse]
            simpa using hsuffix
          have hless : stretch t.sameRound p.reverse.reverse < _ :=
            stretch_lt_longest hprefix (List.reverse_ne_nil_iff.2 hne)
          rw [List.reverse_reverse] at hless
          exact Int.lt_of_lt_of_le (Int.ofNat_lt.2 hless) hd
        have hvisits' : path.reverse.length < visits := by
          rw [List.length_append, List.length_map] at hvisits
          rw [List.length_reverse]
          exact hvisits
        exact ⟨hreaches.execute_eq_ok hcheck hnode houtcome hbound hvisits',
          hlogged.execute_eq_ok (t := t.logged) hcheck hnode houtcome hbound hvisits'⟩

/-- A coin is tossed, its side is named, and that is the end of the game: three nodes of no round.
So a bound of three is great enough, and no lesser one. -/
theorem toss_has_a_threshold :
    (execute (toss (.int 0) (.int 1)) (naming (.int 1)) 1 3 3 (0 : Nat)).start () =
        (.ok (some ⟨⟨[.int 1]⟩, some ⟨[.int 1]⟩, ⟨[⟨.int 0, .int 1⟩, ⟨.null, .int 1⟩]⟩, none⟩), ()) ∧
      ∃ (path : List (Visit Nat)) (last : Nat),
        path.map (·.position) ++ [last] = 0 :: path.map (·.next) ∧
        (toss (.int 0) (.int 1)).longestBlock (path.map (·.position) ++ [last]) = 3 := by
  have hplay : (execute (toss (.int 0) (.int 1)) (naming (.int 1)) 1 3 3 (0 : Nat)).start () =
      (.ok (some ⟨⟨[.int 1]⟩, some ⟨[.int 1]⟩, ⟨[⟨.int 0, .int 1⟩, ⟨.null, .int 1⟩]⟩, none⟩), ()) := by
    with_unfolding_all rfl
  obtain ⟨path, last, hlinked, hvisits, hle, henough, -⟩ := bound_is_a_threshold hplay
  refine ⟨hplay, path, last, hlinked, Nat.le_antisymm (Int.ofNat_le.1 hle) ?_⟩
  refine Nat.le_of_not_lt fun hless => ?_
  have hcut : (execute (toss (.int 0) (.int 1)) (naming (.int 1)) 1 2 3 (0 : Nat)).start () =
      (.error (.nonterminating 2 .null), ()) := by
    with_unfolding_all rfl
  rw [(henough 2 (Int.ofNat_le.2 (Nat.le_of_lt_succ hless)) 3 hvisits).1] at hcut
  cases hcut

end Tree

end ExtensiveForm
