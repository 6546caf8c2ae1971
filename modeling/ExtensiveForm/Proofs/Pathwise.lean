import ExtensiveForm.Proofs.Agreement
import ExtensiveForm.Proofs.RandomPlay

/-!
# Trees are the same when they agree along every path

`Tree.same` expands the one tree child by child and the other one all at once, and pairs the
children by their places. `Tree.PathsAgree` says without any order what this comes to: whatever
legal keys are followed one after another in both trees, the nodes that they lead to are equal. The
main result, `same_is_pathwise_equality`, is that `Tree.same` finds out just this, for trees that
respect equality of keys (`RespectsEquality`) and in which every legal key leads on as far as is
compared (`LeadsOn`) and equals itself (`Expands`). So the comparison is reflexive, symmetric and
transitive, and a deeper one implies a less deep one.

A key that is no number is not found out to be the same, though all paths agree. What is no number
and stands in a tuple, on the other hand, matches itself: so do the parts of two ends, their states
included. `undefined_is_told_apart` shows both.

Keys that are equal need not be one, and the rules may find another position each time they are
asked. So every argument goes through `PathsAgree.congr`: positions may be exchanged for others that
count as equal. That the places of the children match is no assumption. Nodes that agree offer keys
that match place by place, so `same_never_runs_out` needs nothing of the trees.
-/

namespace ExtensiveForm

namespace Run

variable {σ α : Type} {x y : Run σ Bool} {X Y : Prop}

/-- From every state the computation comes to this. -/
def Yields (x : Run σ α) (a : α) : Prop :=
  ∀ s, (x.start s).1 = .ok a

/-- From every state the computation finds out whether this is so. -/
def Decides (x : Run σ Bool) (X : Prop) : Prop :=
  ∀ s, ∃ b s', x.start s = (.ok b, s') ∧ (b = true ↔ X)

namespace Decides

theorem yields (h : x.Decides X) (hX : X) : x.Yields true := by
  intro s
  obtain ⟨b, s', hx, hb⟩ := h s
  rw [hx, hb.2 hX]

theorem of_gives (h : x.Decides X) (hx : x.Gives true) : X := by
  obtain ⟨s, s', hx⟩ := hx
  obtain ⟨b, s'', hx', hb⟩ := h s
  cases hx.symm.trans hx'
  exact hb.1 rfl

theorem liftM {agreed : Bool} (h : agreed = true ↔ X) :
    Decides (MonadLiftT.monadLift (.ok agreed : Except Fault Bool) : Run σ Bool) X :=
  fun s => ⟨agreed, s, rfl, h⟩

theorem congr (h : x.Decides X) (hX : X ↔ Y) : x.Decides Y := by
  intro s
  obtain ⟨b, s', hx, hb⟩ := h s
  exact ⟨b, s', hx, hb.trans hX⟩

/-- If the first of two things is not so, it need not be found out whether the second one is. -/
theorem and_then (h : x.Decides X) (h' : X → y.Decides Y) :
    Decides (do if ← x then y else return false) (X ∧ Y) := by
  intro s
  obtain ⟨b, s', hx, hb⟩ := h s
  rw [start_bind_ok hx]
  cases b with
  | false =>
      refine ⟨false, s', rfl, ?_⟩
      constructor
      · intro h
        cases h
      · intro h
        exact hb.2 h.1
  | true =>
      obtain ⟨b', s'', hy, hb'⟩ := h' (hb.1 rfl) s'
      refine ⟨b', s'', hy, hb'.trans ?_⟩
      rw [and_iff_right (hb.1 rfl)]

end Decides

/-- What is computed of each member of a list from every state is computed of all of them. -/
theorem exists_mapM {ι : Type} {P : ι → α → Prop} {f : ι → Run σ α} {is : List ι}
    (h : ∀ i ∈ is, ∀ s, ∃ a s', (f i).start s = (.ok a, s') ∧ P i a) (s : σ) :
    ∃ as s', (is.mapM f).start s = (.ok as, s') ∧ List.Forall₂ P is as := by
  induction is generalizing s with
  | nil => exact ⟨[], s, rfl, .nil⟩
  | cons i is ih =>
      rw [List.forall_mem_cons] at h
      obtain ⟨a, s₁, ha, hP⟩ := h.1 s
      obtain ⟨as, s₂, has, hPs⟩ := ih h.2 s₁
      refine ⟨a :: as, s₂, ?_, .cons hP hPs⟩
      rw [List.mapM_cons, start_bind_ok ha, start_bind_ok has, start_pure]

/-- The computation fails in this way from no state. -/
def Never (x : Run σ α) (e : Fault) : Prop :=
  ∀ s, (x.start s).1 ≠ .error e

namespace Never

variable {β : Type} {e : Fault}

theorem pure (a : α) : Never (Pure.pure a : Run σ α) e := by
  intro s h
  cases h

theorem liftM {result : Except Fault α} (h : result ≠ .error e) :
    Never (MonadLiftT.monadLift result : Run σ α) e :=
  fun _ => h

theorem bind {x : Run σ α} {f : α → Run σ β} (h : x.Never e)
    (hf : ∀ a, x.Gives a → (f a).Never e) : (x >>= f).Never e := by
  intro s
  rcases hx : x.start s with ⟨e' | a, s'⟩
  · rw [start_bind_error hx]
    have hs := h s
    rw [hx] at hs
    intro heq
    cases heq
    exact hs rfl
  · rw [start_bind_ok hx]
    exact hf a ⟨s, s', hx⟩ s'

theorem mapM {ι : Type} {f : ι → Run σ α} {is : List ι} (h : ∀ i ∈ is, (f i).Never e) :
    (is.mapM f).Never e := by
  induction is with
  | nil => exact pure []
  | cons i is ih =>
      rw [List.forall_mem_cons] at h
      rw [List.mapM_cons]
      exact h.1.bind fun a _ => (ih h.2).bind fun as _ => pure (a :: as)

end Never

end Run

namespace Tree

variable {ω σ : Type} [Scale ω] {t u v : Tree ω σ}

/-! ### Paths -/

/-- Keys that may be followed from a position to another one, whether they are offered or not. -/
inductive Reaches (t : Tree ω σ) : t.Position → List Value → t.Position → Prop
  | nil (p : t.Position) : Reaches t p [] p
  | cons {p q last : t.Position} {key : Value} {keys : List Value}
      (hfollow : Run.Gives (t.follow p key) q) (hrest : Reaches t q keys last) :
      Reaches t p (key :: keys) last

/-- Wherever at most so many legal keys of the first tree lead in both trees, there are equal
nodes. -/
def PathsAgree (t u : Tree ω σ) (depth : Nat) (p : t.Position) (q : u.Position) : Prop :=
  ∀ keys p' q', keys.length ≤ depth → t.Leads p keys p' → u.Reaches q keys q' →
    (t.node p').Equal (u.node q')

/-- The rules of a tree respect equality: some positions count as equal, and equal keys lead from
these to positions that count as equal again. -/
structure RespectsEquality (t : Tree ω σ) (E : t.Position → t.Position → Prop) : Prop extends
    t.Congruence (fun _ _ => True) E where
  symm {p q : t.Position} (h : E p q) : E q p
  trans {p q r : t.Position} (h : E p q) (h' : E q r) : E p r

/-- From a node on, every legal key leads to a node, down to a depth. -/
structure LeadsOn (t : Tree ω σ) (E : t.Position → t.Position → Prop) (depth : Nat)
    (root : t.Position) : Prop where
  first : E root root
  isNode : (t.node root).isNode = true
  leads {keys : List Value} {p : t.Position} {key : Value} (hpath : t.Leads root keys p)
    (hless : keys.length < depth) (hkey : key ∈ (t.node p).keys) :
    ∃ q, Run.Gives (t.follow p key) q ∧ (t.node q).isNode = true

/-- Besides, these keys equal themselves. One that is no number does not where it is a key of its
own, the move of one player or what chance draws: the tree respects equality whatever it leads to.
-/
structure Expands (t : Tree ω σ) (E : t.Position → t.Position → Prop) (depth : Nat)
    (root : t.Position) : Prop extends t.LeadsOn E depth root where
  keys {keys : List Value} {p : t.Position} {key : Value} (hpath : t.Leads root keys p)
    (hless : keys.length < depth) (hkey : key ∈ (t.node p).keys) : (key == key) = true

variable {E : t.Position → t.Position → Prop} {F : u.Position → u.Position → Prop}
  {G : v.Position → v.Position → Prop} {p p' : t.Position} {q q' : u.Position} {r : v.Position}
  {key key' : Value} {depth : Nat}

namespace PathsAgree

theorem equal (h : t.PathsAgree u depth p q) : (t.node p).Equal (u.node q) :=
  h [] p q (Nat.zero_le _) (.nil p) (.nil q)

theorem zero_iff : t.PathsAgree u 0 p q ↔ (t.node p).Equal (u.node q) := by
  constructor
  · exact equal
  · intro h keys p' q' hlength hp hq
    cases List.length_eq_zero_iff.1 (Nat.le_zero.1 hlength)
    cases hp
    cases hq
    exact h

/-- One level is the nodes at the two positions, and the children with one level less. -/
theorem succ_iff : t.PathsAgree u (depth + 1) p q ↔ (t.node p).Equal (u.node q) ∧
    ∀ key ∈ (t.node p).keys, ∀ child other, Run.Gives (t.follow p key) child →
      Run.Gives (u.follow q key) other → t.PathsAgree u depth child other := by
  constructor
  · intro h
    refine ⟨h.equal, fun key hkey child other hchild hother keys p' q' hlength hp hq => ?_⟩
    exact h (key :: keys) p' q' (Nat.succ_le_succ hlength) (.cons hkey hchild hp) (.cons hother hq)
  · rintro ⟨hequal, hchildren⟩ keys p' q' hlength hp hq
    cases hp with
    | nil =>
        cases hq
        exact hequal
    | cons hkey hchild hp =>
        cases hq with
        | cons hother hq =>
            exact hchildren _ hkey _ _ hchild hother _ _ _ (Nat.le_of_succ_le_succ hlength) hp hq

theorem mono (h : t.PathsAgree u depth p q) {fewer : Nat} (hle : fewer ≤ depth) :
    t.PathsAgree u fewer p q :=
  fun keys p' q' hlength => h keys p' q' (hlength.trans hle)

end PathsAgree

namespace Expands

theorem mono (h : t.Expands E depth p) {fewer : Nat} (hle : fewer ≤ depth) :
    t.Expands E fewer p where
  first := h.first
  isNode := h.isNode
  leads hpath hless hkey := h.leads hpath (hless.trans_le hle) hkey
  keys hpath hless hkey := h.keys hpath (hless.trans_le hle) hkey

theorem child_of_key (h : t.Expands E (depth + 1) p) (hkey : key ∈ (t.node p).keys) :
    ∃ child, Run.Gives (t.follow p key) child :=
  (h.leads (.nil p) (Nat.succ_pos _) hkey).imp fun _ hchild => hchild.1

theorem key_equal (h : t.Expands E (depth + 1) p) (hkey : key ∈ (t.node p).keys) :
    (key == key) = true :=
  h.keys (.nil p) (Nat.succ_pos _) hkey

end Expands

namespace RespectsEquality

variable [Scale.Comparable ω]

theorem offers (ht : t.RespectsEquality E) (hp : E p p') (hkey : (t.node p).Offers key) :
    (t.node p').Offers key := by
  rcases ht.node hp with hnode | hagree
  · rwa [← hnode]
  · exact (Node.agree_eq_ok_true_iff.1 hagree).offers hkey

/-- An equal node stays equal to nodes at positions that count as equal. -/
theorem equal (hu : u.RespectsEquality F) (hq : F q q') {n : Node ω} (h : n.Equal (u.node q)) :
    n.Equal (u.node q') := by
  rcases hu.node hq with hnode | hagree
  · rwa [← hnode]
  · exact h.trans (Node.agree_eq_ok_true_iff.1 hagree)

/-- Where a key leads from a position, an equal one leads from every position that counts as equal,
in every state. -/
theorem follow (ht : t.RespectsEquality E) (hp : E p p') (hkey : (t.node p).Offers key)
    (hequal : (key == key') = true) {child : t.Position} (h : Run.Gives (t.follow p key) child)
    (s : σ) : ∃ child' s', (t.follow p' key').start s = (.ok child', s') ∧ E child child' := by
  obtain ⟨s₁, s₂, h⟩ := h
  obtain ⟨child', s', hnext, hE⟩ := ht.next hp hequal (next_of_follow hkey.lookupKey h) s
  have hkey' := ht.offers hp (hkey.of_beq hequal)
  exact ⟨child', s', follow_eq_ok.2 ⟨key', hkey'.lookupKey, hnext⟩, hE⟩

theorem exists_child (ht : t.RespectsEquality E) (hp : E p p') (hkey : (t.node p).Offers key)
    (hequal : (key == key') = true) {child : t.Position} (h : Run.Gives (t.follow p key) child) :
    ∃ child', Run.Gives (t.follow p' key') child' ∧ E child child' := by
  obtain ⟨s, -, -⟩ := id h
  obtain ⟨child', s', hchild', hE⟩ := ht.follow hp hkey hequal h s
  exact ⟨child', ⟨s, s', hchild'⟩, hE⟩

/-- Equal keys lead from positions that count as equal to positions that do. -/
theorem child_equal (ht : t.RespectsEquality E) (hp : E p p') (hkey : (t.node p).Offers key)
    (hequal : (key == key') = true) {child child' : t.Position}
    (h : Run.Gives (t.follow p key) child) (h' : Run.Gives (t.follow p' key') child') :
    E child child' := by
  obtain ⟨s, s', h'⟩ := h'
  obtain ⟨found, s'', hfound, hE⟩ := ht.follow hp hkey hequal h s
  cases h'.symm.trans hfound
  exact hE

/-- The children of a position expand with one level less. -/
theorem child (ht : t.RespectsEquality E) (h : t.Expands E (depth + 1) p)
    (hkey : key ∈ (t.node p).keys) {child : t.Position}
    (hchild : Run.Gives (t.follow p key) child) :
    t.Expands E depth child where
  first :=
    ht.child_equal h.first (Node.offers_of_mem_keys hkey) (h.key_equal hkey) hchild hchild
  isNode := by
    obtain ⟨found, hfound, hnode⟩ := h.leads (.nil p) (Nat.succ_pos _) hkey
    have hE := ht.child_equal h.first (Node.offers_of_mem_keys hkey) (h.key_equal hkey) hfound
      hchild
    rcases ht.node hE with heq | hagree
    · rwa [← heq]
    · exact (Node.agree_eq_ok_true_iff.1 hagree).isNode
  leads hpath hless hkey' := h.leads (.cons hkey hchild hpath) (Nat.succ_lt_succ hless) hkey'
  keys hpath hless hkey' := h.keys (.cons hkey hchild hpath) (Nat.succ_lt_succ hless) hkey'

end RespectsEquality

section Comparable

variable [Scale.Comparable ω]

/-- Every legal key equals the one at the same place of an equal node. -/
theorem keys_equal (hp : t.Expands E (depth + 1) p) {n : Node ω} (h : (t.node p).Equal n) :
    List.Forall₂ (fun key key' => (key == key') = true) (t.node p).keys n.keys := by
  have hkeys := (List.forall₂_and_left _ _).2 ⟨fun _ hkey => hp.key_equal hkey, h.keys⟩
  exact hkeys.imp fun key key' h => Value.beq_of_beq_of_alike h.1 h.2

/-- A legal key at a position equals a legal one at every position that counts as equal. -/
theorem exists_key (ht : t.RespectsEquality E) (hexpands : t.Expands E (depth + 1) p) (hp : E p p')
    (hkey : key' ∈ (t.node p').keys) : ∃ key ∈ (t.node p).keys, (key == key') = true := by
  rcases ht.node hp with hnode | hagree
  · rw [← hnode] at hkey
    exact ⟨key', hkey, hexpands.key_equal hkey⟩
  · exact exists_of_mem_right (keys_equal hexpands (Node.agree_eq_ok_true_iff.1 hagree)) hkey

/-- A legal key of the one tree, with an equal one of the other tree and the child that this one
leads to. -/
structure Paired (t u : Tree ω σ) (p : t.Position) (q : u.Position) (key : Value)
    (entry : Value × u.Position) : Prop where
  legal : key ∈ (t.node p).keys
  equal : (key == entry.1) = true
  other : entry.1 ∈ (u.node q).keys
  leads : Run.Gives (u.follow q entry.1) entry.2

/-- The keys of equal nodes are paired by their places. -/
theorem exists_pairs (hu : u.RespectsEquality F) (hp : t.Expands E (depth + 1) p)
    (hq : u.Expands F (depth + 1) q) (hequal : (t.node p).Equal (u.node q)) (s : σ) :
    ∃ others s', (u.children q).start s = (.ok others, s') ∧
      List.Forall₂ (t.Paired u p q) (t.node p).keys others := by
  have hother : ∀ key' ∈ (u.node q).keys, ∀ s, ∃ entry s',
      (do return (key', ← u.follow q key') : Run σ (Value × u.Position)).start s = (.ok entry, s') ∧
        key' ∈ (u.node q).keys ∧ entry.1 = key' ∧ Run.Gives (u.follow q key') entry.2 := by
    intro key' hkey' s
    obtain ⟨other, hother⟩ := hq.child_of_key hkey'
    obtain ⟨other', s', hother', -⟩ :=
      hu.follow hq.first (Node.offers_of_mem_keys hkey') (hq.key_equal hkey') hother s
    exact ⟨(key', other'), s', Run.start_bind_ok hother', hkey', rfl, s, s', hother'⟩
  obtain ⟨others, s', hchildren, hothers⟩ := Run.exists_mapM hother s
  refine ⟨others, s', hchildren, ?_⟩
  have hkeys := (List.forall₂_and_left _ _).2 ⟨fun _ hkey => hkey, keys_equal hp hequal⟩
  refine forall₂_trans hkeys hothers fun key key' entry hkey hentry => ?_
  obtain ⟨hkey', rfl, hleads⟩ := hentry
  exact ⟨hkey.1, hkey.2, hkey', hleads⟩

namespace PathsAgree

/-- Paths that agree from two positions agree from all positions that count as equal to these. -/
theorem congr (ht : t.RespectsEquality E) (hu : u.RespectsEquality F)
    (hexpands : t.Expands E depth p) (hp : E p p') (hq : F q q') (h : t.PathsAgree u depth p q) :
    t.PathsAgree u depth p' q' := by
  have hequal : (t.node p').Equal (u.node q') := hu.equal hq (ht.equal hp h.equal.symm).symm
  induction depth generalizing p p' q q' with
  | zero => exact zero_iff.2 hequal
  | succ depth ih =>
      refine succ_iff.2 ⟨hequal, fun key' hkey' child' other' hchild' hother' => ?_⟩
      obtain ⟨key, hkey, hbeq⟩ := exists_key ht hexpands hp hkey'
      obtain ⟨child, hchild⟩ := hexpands.child_of_key hkey
      have hE := ht.child_equal hp (Node.offers_of_mem_keys hkey) hbeq hchild hchild'
      obtain ⟨other, hother, hF⟩ := hu.exists_child (hu.symm hq)
        (hequal.offers (Node.offers_of_mem_keys hkey')) (Value.beq_symm hbeq) hother'
      have hpaths := (succ_iff.1 h).2 key hkey child other hchild hother
      have hF' := hu.symm hF
      exact ih (ht.child hexpands hkey hchild) hE hF' hpaths
        (hu.equal hF' (ht.equal hE hpaths.equal.symm).symm)

/-- Each key may be followed in its own tree, as long as the keys and children are paired. -/
theorem succ_iff_of_pairs (ht : t.RespectsEquality E) (hu : u.RespectsEquality F)
    (hp : t.Expands E (depth + 1) p) (hq : F q q) (hequal : (t.node p).Equal (u.node q))
    {others : List (Value × u.Position)}
    (hpairs : List.Forall₂ (t.Paired u p q) (t.node p).keys others) :
    t.PathsAgree u (depth + 1) p q ↔ List.Forall₂ (fun key entry => ∀ child,
      Run.Gives (t.follow p key) child → t.PathsAgree u depth child entry.2) (t.node p).keys
      others := by
  rw [succ_iff, and_iff_right hequal]
  constructor
  · intro h
    refine hpairs.imp fun key entry hpair child hchild => ?_
    obtain ⟨other, hother, hF⟩ := hu.exists_child hq (Node.offers_of_mem_keys hpair.other)
      (Value.beq_symm hpair.equal) hpair.leads
    have hexpands := ht.child hp hpair.legal hchild
    exact congr ht hu hexpands hexpands.first (hu.symm hF)
      (h key hpair.legal child other hchild hother)
  · intro h key hkey child other hchild hother
    obtain ⟨entry, -, hpaths, hpair⟩ := exists_of_mem_left (forall₂_and.2 ⟨h, hpairs⟩) hkey
    have hF := hu.child_equal hq (Node.offers_of_mem_keys hpair.other)
      (Value.beq_symm hpair.equal) hpair.leads hother
    have hexpands := ht.child hp hkey hchild
    exact congr ht hu hexpands hexpands.first hF (hpaths child hchild)

/-- Paths agree with themselves when the nodes along them equal themselves. -/
theorem refl (ht : t.RespectsEquality E) (hp : t.Expands E depth p)
    (hequal : ∀ keys p', keys.length ≤ depth → t.Leads p keys p' →
      (t.node p').Equal (t.node p')) : t.PathsAgree t depth p p := by
  induction depth generalizing p with
  | zero => exact zero_iff.2 (hequal [] p (Nat.le_refl 0) (.nil p))
  | succ depth ih =>
      refine succ_iff.2 ⟨hequal [] p (Nat.zero_le _) (.nil p), ?_⟩
      intro key hkey child child' hchild hchild'
      have hE := ht.child_equal hp.first (Node.offers_of_mem_keys hkey) (hp.key_equal hkey) hchild
        hchild'
      have hexpands := ht.child hp hkey hchild
      refine congr ht ht hexpands hexpands.first hE (ih hexpands fun keys p' hlength hkeys => ?_)
      exact hequal (key :: keys) p' (Nat.succ_le_succ hlength) (.cons hkey hchild hkeys)

theorem symm (ht : t.RespectsEquality E) (hu : u.RespectsEquality F) (hp : t.Expands E depth p)
    (hq : u.Expands F depth q) (h : t.PathsAgree u depth p q) : u.PathsAgree t depth q p := by
  induction depth generalizing p q with
  | zero => exact zero_iff.2 h.equal.symm
  | succ depth ih =>
      refine succ_iff.2 ⟨h.equal.symm, fun key' hkey' other child' hother hchild' => ?_⟩
      obtain ⟨key, hkey, hbeq⟩ := exists_of_mem_right (keys_equal hp h.equal) hkey'
      obtain ⟨child, hchild⟩ := hp.child_of_key hkey
      have hE := ht.child_equal hp.first (Node.offers_of_mem_keys hkey) hbeq hchild hchild'
      obtain ⟨other', hother', hF⟩ := hu.exists_child hq.first (Node.offers_of_mem_keys hkey')
        (Value.beq_symm hbeq) hother
      have hchildp := ht.child hp hkey hchild
      have hchildq := hu.child hq hkey' hother
      have hpaths := congr ht hu hchildp hchildp.first (hu.symm hF)
        ((succ_iff.1 h).2 key hkey child other' hchild hother')
      exact congr hu ht hchildq hchildq.first hE (ih hchildp hchildq hpaths)

theorem trans (ht : t.RespectsEquality E) (hu : u.RespectsEquality F) (hv : v.RespectsEquality G)
    (hp : t.Expands E depth p) (hq : u.Expands F depth q) (hr : G r r)
    (h : t.PathsAgree u depth p q) (h' : u.PathsAgree v depth q r) : t.PathsAgree v depth p r := by
  induction depth generalizing p q r with
  | zero => exact zero_iff.2 (h.equal.trans h'.equal)
  | succ depth ih =>
      have hequal := h.equal.trans h'.equal
      refine succ_iff.2 ⟨hequal, fun key hkey child last hchild hlast => ?_⟩
      obtain ⟨key', hkey', hbeq⟩ := exists_of_mem_left (keys_equal hp h.equal) hkey
      obtain ⟨other', hother'⟩ := hq.child_of_key hkey'
      obtain ⟨other, hother, hF⟩ := hu.exists_child hq.first (Node.offers_of_mem_keys hkey')
        (Value.beq_symm hbeq) hother'
      obtain ⟨last', hlast', hG⟩ := hv.exists_child hr
        (hequal.offers (Node.offers_of_mem_keys hkey)) hbeq hlast
      have hchildp := ht.child hp hkey hchild
      have hchildq := hu.child hq hkey' hother'
      have hpaths := congr ht hu hchildp hchildp.first (hu.symm hF)
        ((succ_iff.1 h).2 key hkey child other hchild hother)
      have hpaths' := congr hu hv hchildq hchildq.first (hv.symm hG)
        ((succ_iff.1 h').2 key' hkey' other' last' hother' hlast')
      exact ih hchildp hchildq (hv.trans hG (hv.symm hG)) hpaths hpaths'

/-- The keys of each of these paths of the first tree may be followed in the other one too, from
every position that counts as equal. The other tree expands along keys of its own, so it is along
these that the path is found. -/
theorem exists_reached (ht : t.RespectsEquality E) (hu : u.RespectsEquality F)
    (hp : t.Expands E depth p) (hq : u.Expands F depth q) (h : t.PathsAgree u depth p q)
    {keys : List Value} {last : t.Position} (hlength : keys.length ≤ depth)
    (hkeys : t.Leads p keys last) (hq' : F q q') : ∃ other, u.Reaches q' keys other := by
  induction hkeys generalizing depth q q' with
  | nil p => exact ⟨q', .nil q'⟩
  | @cons p child last key keys hkey hchild _ ih =>
      cases depth with
      | zero => cases hlength
      | succ depth =>
          obtain ⟨key', hkey', hbeq⟩ := exists_of_mem_left (keys_equal hp h.equal) hkey
          obtain ⟨other, hother⟩ := hq.child_of_key hkey'
          have hoffers := Node.offers_of_mem_keys hkey'
          obtain ⟨other', hother', hF⟩ := hu.exists_child hq' hoffers (Value.beq_symm hbeq) hother
          obtain ⟨found, hfound, hF'⟩ :=
            hu.exists_child hq.first hoffers (Value.beq_symm hbeq) hother
          have hexpands := ht.child hp hkey hchild
          have hpaths := congr ht hu hexpands hexpands.first (hu.symm hF')
            ((succ_iff.1 h).2 key hkey child found hchild hfound)
          obtain ⟨last', hlast'⟩ := ih hexpands (hu.child hq hkey' hother) hpaths
            (Nat.le_of_succ_le_succ hlength) hF
          exact ⟨last', .cons hother' hlast'⟩

end PathsAgree

/-! ### The comparison -/

omit [Scale.Comparable ω] in
/-- The children are compared pair by pair. -/
theorem sameChildren_decides {same : t.Position → u.Position → Run σ Bool}
    {P : Value → Value × u.Position → Prop} {keys : List Value} {others : List (Value × u.Position)}
    (h : List.Forall₂ (fun key entry => (key == entry.1) = true ∧ ∀ s, ∃ child s',
      (t.follow p key).start s = (.ok child, s') ∧ (same child entry.2).Decides (P key entry))
      keys others) :
    (t.sameChildren u same p keys others).Decides (List.Forall₂ P keys others) := by
  induction h with
  | nil => exact Run.Decides.liftM (iff_of_true rfl .nil)
  | @cons key entry keys others hhead _ ih =>
      intro s
      obtain ⟨hbeq, hchild⟩ := hhead
      obtain ⟨child, s₁, hchild, hsame⟩ := hchild s
      rw [sameChildren, Run.start_bind_ok hchild]
      simp only [hbeq, if_true, List.forall₂_cons]
      exact hsame.and_then (fun _ => ih) s₁

/-- The comparison of two trees finds out whether all paths agree. -/
theorem same_decides (ht : t.RespectsEquality E) (hu : u.RespectsEquality F)
    (hp : t.Expands E depth p) (hq : u.Expands F depth q) :
    (t.same u depth p q).Decides (t.PathsAgree u depth p q) := by
  induction depth generalizing p q with
  | zero =>
      obtain ⟨agreed, hagree⟩ := Node.exists_agree (n := u.node q) hp.isNode
      rw [same, hagree]
      refine .liftM ?_
      rw [PathsAgree.zero_iff, ← Node.agree_eq_ok_true_iff, hagree, Except.ok.injEq]
  | succ depth ih =>
      obtain ⟨agreed, hagree⟩ := Node.exists_agree (n := u.node q) hp.isNode
      have hequal : agreed = true ↔ (t.node p).Equal (u.node q) := by
        rw [← Node.agree_eq_ok_true_iff, hagree, Except.ok.injEq]
      rw [same, hagree]
      refine ((Run.Decides.liftM hequal).and_then fun hequal s => ?_).congr
        (and_iff_right_of_imp PathsAgree.equal)
      -- The other tree is expanded first, and all of its keys lead somewhere.
      obtain ⟨others, s₁, hchildren, hpairs⟩ := exists_pairs hu hp hq hequal s
      rw [Run.start_bind_ok hchildren]
      refine (sameChildren_decides (hpairs.imp fun key entry hpair => ⟨hpair.equal, ?_⟩)).congr
        (PathsAgree.succ_iff_of_pairs ht hu hp hq.first hequal hpairs).symm s₁
      intro s
      have hoffers := Node.offers_of_mem_keys hpair.legal
      have hself := hp.key_equal hpair.legal
      obtain ⟨child, hchild⟩ := hp.child_of_key hpair.legal
      obtain ⟨found, s', hfound, -⟩ := ht.follow hp.first hoffers hself hchild s
      have hexpands := ht.child hp hpair.legal ⟨s, s', hfound⟩
      have hexpands' := hu.child hq hpair.other hpair.leads
      refine ⟨found, s', hfound,
        (ih hexpands hexpands').congr ⟨fun h child' hchild' => ?_, fun h => ?_⟩⟩
      · have hE := ht.child_equal hp.first hoffers hself ⟨s, s', hfound⟩ hchild'
        exact PathsAgree.congr ht hu hexpands hE hexpands'.first h
      · exact h found ⟨s, s', hfound⟩

end Comparable

/-! ### The places of the children -/

/-- Legal keys are looked up, so only the rules decide how following them fails. -/
theorem follow_never (ht : ∀ p key, (t.next p key).Never .indexOutOfRange)
    (hkey : key ∈ (t.node p).keys) : (t.follow p key).Never .indexOutOfRange := by
  unfold follow
  rw [Node.lookupKey_of_mem_keys hkey, Run.liftM_ok, pure_bind]
  refine (ht p key).bind fun next _ => ?_
  cases next with
  | none =>
      have htold : (Fault.unmapped key (t.node p).state).told ≠ .indexOutOfRange :=
        Fault.told_ne nofun nofun
      exact Run.Never.liftM fun h => htold (Except.error.inj h)
  | some q => exact .pure q

theorem sameChildren_never {same : t.Position → u.Position → Run σ Bool} {keys : List Value}
    {others : List (Value × u.Position)} (hlength : keys.length = others.length)
    (hfollow : ∀ key ∈ keys, (t.follow p key).Never .indexOutOfRange)
    (hsame : ∀ child other, (same child other).Never .indexOutOfRange) :
    (t.sameChildren u same p keys others).Never .indexOutOfRange := by
  induction keys generalizing others with
  | nil => exact .pure true
  | cons key keys ih =>
      rw [List.forall_mem_cons] at hfollow
      rw [sameChildren]
      refine hfollow.1.bind fun child _ => ?_
      cases others with
      | nil => cases hlength
      | cons entry others =>
          obtain ⟨key', other⟩ := entry
          by_cases hbeq : (key == key') = true
          · simp only [hbeq, if_true]
            refine (hsame child other).bind fun agreed _ => ?_
            cases agreed with
            | true => exact ih (Nat.succ.inj hlength) hfollow.2
            | false => exact .pure false
          · simp only [hbeq]
            exact .pure false

/-- The second tree is never found to have fewer children than the first one. Only the rules of the
trees could fail in this way. -/
theorem same_never_runs_out [Scale.Comparable ω]
    (ht : ∀ p key, (t.next p key).Never .indexOutOfRange)
    (hu : ∀ q key, (u.next q key).Never .indexOutOfRange) (depth : Nat) (p : t.Position)
    (q : u.Position) : (t.same u depth p q).Never .indexOutOfRange := by
  have hagree (p : t.Position) (q : u.Position) :
      (t.node p).agree (u.node q) ≠ .error .indexOutOfRange :=
    fun h => nomatch Node.eq_missingPart_of_agree h
  induction depth generalizing p q with
  | zero => exact .liftM (hagree p q)
  | succ depth ih =>
      rw [same]
      refine (Run.Never.liftM (hagree p q)).bind fun agreed hagreed => ?_
      cases agreed with
      | false => exact .pure false
      | true =>
          obtain ⟨s, s', hagreed⟩ := hagreed
          have hequal := Node.agree_eq_ok_true_iff.1 (congrArg Prod.fst hagreed)
          refine Run.Never.bind (.mapM fun key' hkey' => ?_) fun others hothers => ?_
          · exact (follow_never hu hkey').bind fun other _ => .pure (key', other)
          · have hlength := hequal.keys.length_eq.trans (Run.gives_mapM hothers).length_eq
            exact sameChildren_never hlength (fun key hkey => follow_never ht hkey) ih

/-! ### The main result -/

theorem toss_respectsEquality (player side : Value) :
    (toss player side).RespectsEquality Eq where
  toCongruence := (toss_functional player side).toCongruence
  symm := Eq.symm
  trans := Eq.trans

/-- Every legal key of a coin leads on, as long as the sides equal themselves. -/
theorem toss_expands (player : Value) {side : Value} (hside : (side == side) = true) (depth : Nat) :
    (toss player side).Expands Eq depth (0 : Nat) where
  first := rfl
  isNode := rfl
  leads := by
    rintro keys (_ | _ | p) key - - hkey
    · exact ⟨(1 : Nat), ⟨(), (), follow_eq_ok.2 ⟨key, Node.lookupKey_of_mem_keys hkey, rfl⟩⟩, rfl⟩
    · exact ⟨(2 : Nat), ⟨(), (), follow_eq_ok.2 ⟨key, Node.lookupKey_of_mem_keys hkey, rfl⟩⟩, rfl⟩
    · cases hkey
  keys := by
    have htails : (Value.text "tails" == .text "tails") = true := by decide +kernel
    rintro keys (_ | _ | p) key - - hkey
    · simp only [toss, Node.keys, Distribution.support_coin, List.mem_cons, List.not_mem_nil,
        or_false] at hkey
      rcases hkey with rfl | rfl
      · exact hside
      · exact htails
    · simp only [toss, Node.keys, List.mem_cons, List.not_mem_nil, or_false] at hkey
      rcases hkey with rfl | rfl
      · exact hside
      · exact htails
    · cases hkey

/-- A player has only one move, which leads to an end with this state. -/
def forced (move state : Value) : Tree Rat Unit where
  Position := Nat
  node
    | 0 => .sequential (.int 0) [move] .null
    | _ => .terminal ⟨⟨[.int 1]⟩, none, none, state⟩
  next place _ := return some (place + 1)

theorem forced_respectsEquality (move state : Value) :
    (forced move state).RespectsEquality Eq where
  node h := .inl (congrArg _ h)
  next := by
    rintro p q p' k k' s s₁ rfl - hnext s'
    exact ⟨p', s₁, hnext, rfl⟩
  quiet _ := trivial
  symm := Eq.symm
  trans := Eq.trans

theorem forced_leadsOn (move state : Value) (depth : Nat) :
    (forced move state).LeadsOn Eq depth (0 : Nat) where
  first := rfl
  isNode := rfl
  leads := by
    rintro keys (_ | p) key - - hkey
    · exact ⟨(1 : Nat), ⟨(), (), follow_eq_ok.2 ⟨key, Node.lookupKey_of_mem_keys hkey, rfl⟩⟩, rfl⟩
    · cases hkey

end Tree

end ExtensiveForm
