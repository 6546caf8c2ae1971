import ExtensiveForm.Run
import ExtensiveForm.Proofs.Lists

/-!
# Computations taken apart

How a computation that may be abandoned proceeds from a given state. `start_bind` says what becomes
of two computations one after the other; the other lemmas are its cases. Equality of computations
is equality from every state, so the laws of a monad apply to them.

`Retells` compares two computations that do the same to the state and differ only in how they tell
a fault. `Foretells` asks this only where something comes of the first one.
-/

namespace ExtensiveForm.Run

variable {σ α β : Type}

/-- Computations are equal when they proceed equally from every state. -/
theorem ext {x y : Run σ α} (h : ∀ s, x.start s = y.start s) : x = y :=
  funext h

@[simp] theorem start_pure (a : α) (s : σ) : (pure a : Run σ α).start s = (.ok a, s) := rfl

@[simp] theorem start_throw (f : Fault) (s : σ) :
    (throw f : Run σ α).start s = (.error f, s) := rfl

/-- A result that is given leaves the state as it is. -/
@[simp] theorem start_liftM (x : Except Fault α) (s : σ) :
    (liftM x : Run σ α).start s = (x, s) := rfl

/-- A given result is returned, and a given fault is thrown. -/
@[simp] theorem liftM_ok (a : α) : (liftM (.ok a : Except Fault α) : Run σ α) = pure a := rfl

/-- What is given in two parts may be given one after the other. -/
theorem liftM_bind (x : Except Fault α) (f : α → Except Fault β) :
    (liftM (x >>= f) : Run σ β) = (liftM x : Run σ α) >>= fun a => liftM (f a) := by
  cases x <;> rfl

/-- What depends on a given result is computed of it. -/
theorem except_ok_bind (a : α) (f : α → Except Fault β) :
    (.ok a : Except Fault α) >>= f = f a := rfl

/-- A result that depends on another one is given when both are. -/
theorem except_bind_eq_ok {x : Except Fault α} {f : α → Except Fault β} {b : β} :
    x >>= f = .ok b ↔ ∃ a, x = .ok a ∧ f a = .ok b := by
  cases x with
  | error e =>
      constructor
      · intro h
        cases h
      · rintro ⟨_, ⟨⟩, -⟩
  | ok a =>
      constructor
      · intro h
        exact ⟨a, rfl, h⟩
      · rintro ⟨_, ⟨⟩, h⟩
        exact h

/-- What follows a check is given when the check is passed. -/
theorem checked_eq_ok {p : Prop} [Decidable p] {x : Except Fault β} {e : Fault}
    {f : α → Except Fault β} {b : β} :
    (if p then x else throw e >>= f) = .ok b ↔ p ∧ x = .ok b := by
  split
  · exact (and_iff_right ‹p›).symm
  · exact ⟨nofun, fun h => absurd h.1 ‹¬ p›⟩

/-- The second of two computations proceeds from the state that the first one left. -/
theorem start_bind (x : Run σ α) (f : α → Run σ β) (s : σ) :
    (x >>= f).start s =
      match x.start s with
      | (.ok a, s') => (f a).start s'
      | (.error e, s') => (.error e, s') := by
  show (ExceptT.bind x f : ExceptT Fault (StateM σ) β) s = _
  simp only [ExceptT.bind, ExceptT.mk, bind, StateT.bind, start]
  rcases x s with ⟨_ | _, s'⟩ <;> rfl

variable {x : Run σ α} {f : α → Run σ β} {s s' : σ}

theorem start_bind_ok {a : α} (h : x.start s = (.ok a, s')) :
    (x >>= f).start s = (f a).start s' := by
  rw [start_bind, h]

theorem start_bind_error {e : Fault} (h : x.start s = (.error e, s')) :
    (x >>= f).start s = (.error e, s') := by
  rw [start_bind, h]

/-- Two computations give a result when the first one does, and then the second one. -/
theorem start_bind_eq_ok {b : β} {s'' : σ} :
    (x >>= f).start s = (.ok b, s'') ↔
      ∃ a s', x.start s = (.ok a, s') ∧ (f a).start s' = (.ok b, s'') := by
  rcases hx : x.start s with ⟨e | a, s'⟩
  · simp [start_bind_error hx]
  · rw [start_bind_ok hx]
    constructor
    · intro h
      exact ⟨a, s', rfl, h⟩
    · rintro ⟨_, _, ⟨⟩, h⟩
      exact h

/-- Two computations fail when the first one does, or the second one after a result of the first. -/
theorem start_bind_eq_error {e : Fault} {s'' : σ} :
    (x >>= f).start s = (.error e, s'') ↔
      x.start s = (.error e, s'') ∨
        ∃ a s', x.start s = (.ok a, s') ∧ (f a).start s' = (.error e, s'') := by
  rcases hx : x.start s with ⟨e' | a, s'⟩
  · simp [start_bind_error hx]
  · rw [start_bind_ok hx]
    constructor
    · intro h
      exact .inr ⟨a, s', rfl, h⟩
    · rintro (⟨⟨⟩⟩ | ⟨_, _, ⟨⟩, h⟩)
      exact h

/-- After a given result the state is still the one before. -/
theorem start_liftM_bind_eq_ok {a : Except Fault α} {b : β} {s' : σ} :
    ((liftM a : Run σ α) >>= f).start s = (.ok b, s') ↔
      ∃ r, a = .ok r ∧ (f r).start s = (.ok b, s') := by
  cases a with
  | ok r => simp
  | error e => simp [start_bind_error (start_liftM (.error e) s)]

theorem start_liftM_bind_eq_error {a : Except Fault α} {e : Fault} {s' : σ} :
    ((liftM a : Run σ α) >>= f).start s = (.error e, s') ↔
      a = .error e ∧ s = s' ∨ ∃ r, a = .ok r ∧ (f r).start s = (.error e, s') := by
  cases a with
  | ok r => simp
  | error e => simp [start_bind_error (start_liftM (.error e) s)]

@[simp] theorem throw_bind (e : Fault) : (throw e >>= f : Run σ β) = throw e := rfl

/-- What follows a computation matters only for the results that it can give. -/
theorem bind_congr_of {g : α → Run σ β}
    (h : ∀ a s s', x.start s = (.ok a, s') → f a = g a) : x >>= f = x >>= g := by
  refine ext fun s => ?_
  rcases hx : x.start s with ⟨_ | a, s'⟩
  · rw [start_bind_error hx, start_bind_error hx]
  · rw [start_bind_ok hx, start_bind_ok hx, h a s s' hx]

/-! ### Computations that have nothing to do with the state -/

/-- The same comes of the computation from every state, and it leaves the state as it is. -/
def Steady (x : Run σ α) : Prop :=
  ∃ result, x = lift result

namespace Steady

theorem pure (a : α) : Steady (Pure.pure a : Run σ α) :=
  ⟨.ok a, rfl⟩

theorem throw (e : Fault) : Steady (MonadExcept.throw e : Run σ α) :=
  ⟨.error e, rfl⟩

theorem liftM (x : Except Fault α) : Steady (MonadLiftT.monadLift x : Run σ α) :=
  ⟨x, rfl⟩

theorem bind (h : Steady x) (hf : ∀ a, Steady (f a)) : Steady (x >>= f) := by
  obtain ⟨result, rfl⟩ := h
  cases result with
  | error e => exact throw e
  | ok a => exact hf a

theorem ite {c : Prop} [Decidable c] {y : Run σ α} (h : Steady x) (h' : Steady y) :
    Steady (if c then x else y) := by
  by_cases hc : c
  · rw [if_pos hc]
    exact h
  · rw [if_neg hc]
    exact h'

theorem mapM {ι : Type} {f : ι → Run σ α} (h : ∀ i, Steady (f i)) (is : List ι) :
    Steady (is.mapM f) := by
  induction is with
  | nil => exact pure []
  | cons i is ih =>
      rw [List.mapM_cons]
      exact (h i).bind fun a => ih.bind fun as => pure (a :: as)

/-- What it gives from one state is given from every state. -/
theorem eq_pure (h : Steady x) {a : α} (hx : x.start s = (.ok a, s')) : x = Pure.pure a := by
  obtain ⟨result, rfl⟩ := h
  cases hx
  rfl

end Steady

/-! ### The same but for how faults are told -/

/-- The same result and the same state left behind, or related faults and the same state. -/
inductive Told (R : Fault → Fault → Prop) : Except Fault α × σ → Except Fault α × σ → Prop
  | ok (a : α) (s : σ) : Told R (.ok a, s) (.ok a, s)
  | error {e e' : Fault} (h : R e e') (s : σ) : Told R (.error e, s) (.error e', s)

/-- From every state both computations proceed alike, but for how they tell a fault. -/
def Retells (R : Fault → Fault → Prop) (x y : Run σ α) : Prop :=
  ∀ s, Told R (x.start s) (y.start s)

/-- The second computation proceeds like the first one, but for how it tells a fault, wherever
something comes of the first one. -/
def Foretells (R : Fault → Fault → Prop) (x : Run σ (Option α)) (y : Run σ α) : Prop :=
  ∀ s, (x.start s).1 = .ok none ∨ Told R (x.start s) ((do return some (← y) : Run σ _).start s)

variable {R : Fault → Fault → Prop}

namespace Retells

theorem refl (hR : ∀ e, R e e) (x : Run σ α) : Retells R x x := by
  intro s
  rcases hx : x.start s with ⟨e | a, s'⟩
  · exact .error (hR e) s'
  · exact .ok a s'

theorem throw {e e' : Fault} (h : R e e') :
    Retells R (MonadExcept.throw e : Run σ α) (MonadExcept.throw e') :=
  fun s => .error h s

theorem bind {x y : Run σ α} {f g : α → Run σ β} (h : Retells R x y)
    (hf : ∀ a, Retells R (f a) (g a)) : Retells R (x >>= f) (y >>= g) := by
  intro s
  have hs := h s
  rcases hx : x.start s with ⟨e | a, s'⟩ <;> rcases hy : y.start s with ⟨e' | b, s''⟩ <;>
    rw [hx, hy] at hs <;> cases hs
  · rw [start_bind_error hx, start_bind_error hy]
    exact .error ‹_› _
  · rw [start_bind_ok hx, start_bind_ok hy]
    exact hf _ _

theorem ite {c : Prop} [Decidable c] {x x' y y' : Run σ α} (h : Retells R x y)
    (h' : Retells R x' y') : Retells R (if c then x else x') (if c then y else y') := by
  by_cases hc : c
  · rw [if_pos hc, if_pos hc]
    exact h
  · rw [if_neg hc, if_neg hc]
    exact h'

theorem mapM {ι : Type} {f g : ι → Run σ α} (h : ∀ i, Retells R (f i) (g i)) (is : List ι) :
    Retells R (is.mapM f) (is.mapM g) := by
  induction is with
  | nil => exact fun s => .ok [] s
  | cons i is ih =>
      rw [List.mapM_cons, List.mapM_cons]
      exact (h i).bind fun a => ih.bind fun as s => .ok (a :: as) s

/-- The checks of some things one after the other are told alike when all of them are. -/
theorem forM {ι : Type} {f g : ι → Except Fault Unit}
    (h : ∀ i, Retells (σ := σ) R (liftM (f i)) (liftM (g i))) (is : List ι) :
    Retells (σ := σ) R (liftM (is.forM f)) (liftM (is.forM g)) := by
  induction is with
  | nil => exact fun s => .ok () s
  | cons i is ih =>
      rw [List.forM, List.forM, liftM_bind, liftM_bind]
      exact (h i).bind fun _ => ih

/-- Whoever is told alike what comes first foretells what comes next. -/
theorem foretells {x y : Run σ α} {f : α → Run σ (Option β)} {g : α → Run σ β}
    (h : Retells R x y) (hf : ∀ a s s', x.start s = (.ok a, s') → Foretells R (f a) (g a)) :
    Foretells R (x >>= f) (y >>= g) := by
  intro s
  have hs := h s
  rw [bind_assoc]
  rcases hx : x.start s with ⟨e | a, s'⟩ <;> rcases hy : y.start s with ⟨e' | b, s''⟩ <;>
    rw [hx, hy] at hs <;> cases hs
  · rw [start_bind_error hx, start_bind_error hy]
    exact .inr (.error ‹_› _)
  · rw [start_bind_ok hx, start_bind_ok hy]
    exact hf _ _ _ hx _

end Retells

namespace Foretells

theorem nothing (y : Run σ α) : Foretells R (pure none) y :=
  fun _ => .inl rfl

theorem refl (hR : ∀ e, R e e) (y : Run σ α) : Foretells R (do return some (← y)) y :=
  fun s => .inr (Retells.refl hR _ s)

variable {x : Run σ (Option α)} {y : Run σ α}

theorem ok (h : Foretells R x y) {a : α} (hx : x.start s = (.ok (some a), s')) :
    y.start s = (.ok a, s') := by
  rcases hy : y.start s with ⟨e | b, s''⟩
  · have hs := h s
    rw [hx, start_bind_error hy] at hs
    rcases hs with hs | hs <;> cases hs
  · have hs := h s
    rw [hx, start_bind_ok hy] at hs
    rcases hs with hs | hs <;> cases hs
    rfl

theorem error (h : Foretells R x y) {e : Fault} (hx : x.start s = (.error e, s')) :
    ∃ e', R e e' ∧ y.start s = (.error e', s') := by
  rcases hy : y.start s with ⟨e' | b, s''⟩
  · have hs := h s
    rw [hx, start_bind_error hy] at hs
    rcases hs with hs | hs <;> cases hs
    exact ⟨e', ‹_›, rfl⟩
  · have hs := h s
    rw [hx, start_bind_ok hy] at hs
    rcases hs with hs | hs <;> cases hs

end Foretells

/-! ### Computations that keep the state within a sort -/

/-- From a state of this sort a state of this sort is left behind. -/
def Keeps (I : σ → Prop) (x : Run σ α) : Prop :=
  ∀ s, I s → I (x.start s).2

namespace Keeps

variable {I : σ → Prop}

theorem left (h : Keeps I x) (hs : I s) {result : Except Fault α} (hx : x.start s = (result, s')) :
    I s' := by
  have hleft := h s hs
  rwa [hx] at hleft

theorem liftM (result : Except Fault α) :
    Keeps I (MonadLiftT.monadLift result : Run σ α) :=
  fun _ hs => hs

theorem bind (h : Keeps I x) (hf : ∀ a, Keeps I (f a)) : Keeps I (x >>= f) := by
  intro s hs
  rcases hx : x.start s with ⟨e | a, s'⟩
  · rw [start_bind_error hx]
    exact h.left hs hx
  · rw [start_bind_ok hx]
    exact hf a s' (h.left hs hx)

theorem mapM {ι : Type} {f : ι → Run σ α} (h : ∀ i, Keeps I (f i)) (is : List ι) :
    Keeps I (is.mapM f) := by
  induction is with
  | nil => exact liftM (.ok [])
  | cons i is ih =>
      rw [List.mapM_cons]
      exact (h i).bind fun a => ih.bind fun as => liftM (.ok (a :: as))

end Keeps

/-! ### Related results from related states -/

/-- This may come of the computation. -/
def Gives (x : Run σ α) (a : α) : Prop :=
  ∃ s s', x.start s = (.ok a, s')

/-- What is computed place by place of a list may come of the computations at these places. -/
theorem gives_mapM {ι : Type} {f : ι → Run σ α} {is : List ι} {as : List α}
    (h : Gives (is.mapM f) as) : List.Forall₂ (fun i a => Gives (f i) a) is as := by
  obtain ⟨s, s', h⟩ := h
  induction is generalizing s as with
  | nil =>
      cases h
      exact .nil
  | cons i is ih =>
      rw [List.mapM_cons] at h
      obtain ⟨a, s₁, ha, h⟩ := start_bind_eq_ok.1 h
      obtain ⟨as, s₂, has, h⟩ := start_bind_eq_ok.1 h
      cases h
      exact .cons ⟨s, s₁, ha⟩ (ih s₁ has)

/-- From related states both computations come to the same result or the same fault, and leave
related states. -/
def Same (R : σ → σ → Prop) (x y : Run σ α) : Prop :=
  ∀ s s', R s s' → (x.start s).1 = (y.start s').1 ∧ R (x.start s).2 (y.start s').2

namespace Same

variable {R : σ → σ → Prop} {x y : Run σ α}

/-- Both give the result that one of them gives. -/
theorem start_ok {s s' s₁ s₁' : σ} {a b : α} (h : Same R x y) (hs : R s s')
    (hx : x.start s = (.ok a, s₁)) (hy : y.start s' = (.ok b, s₁')) : a = b ∧ R s₁ s₁' := by
  obtain ⟨hresult, hstates⟩ := h s s' hs
  rw [hx, hy] at hresult hstates
  cases hresult
  exact ⟨rfl, hstates⟩

theorem liftM (r : Except Fault α) :
    Same R (MonadLiftT.monadLift r : Run σ α) (MonadLiftT.monadLift r) :=
  fun _ _ hs => ⟨rfl, hs⟩

theorem pure (a : α) : Same R (Pure.pure a : Run σ α) (Pure.pure a) :=
  liftM (.ok a)

theorem throw (e : Fault) :
    Same R (MonadExcept.throw e : Run σ α) (MonadExcept.throw e) :=
  liftM (.error e)

theorem bind {f g : α → Run σ β} (h : Same R x y) (hf : ∀ a, Same R (f a) (g a)) :
    Same R (x >>= f) (y >>= g) := by
  intro s s' hs
  obtain ⟨hresult, hstates⟩ := h s s' hs
  rcases hx : x.start s with ⟨e | a, s₁⟩ <;> rcases hy : y.start s' with ⟨e' | b, s₁'⟩ <;>
    rw [hx, hy] at hresult hstates <;> cases hresult
  · rw [start_bind_error hx, start_bind_error hy]
    exact ⟨rfl, hstates⟩
  · rw [start_bind_ok hx, start_bind_ok hy]
    exact hf a s₁ s₁' hstates

theorem ite {c : Prop} [Decidable c] {x' y' : Run σ α} (h : Same R x y) (h' : Same R x' y') :
    Same R (if c then x else x') (if c then y else y') := by
  by_cases hc : c
  · rw [if_pos hc, if_pos hc]
    exact h
  · rw [if_neg hc, if_neg hc]
    exact h'

end Same

/-- Whatever comes of the first computation from one state, the like comes of the second one from
any related state, and the states left behind are related again. -/
def Carries (R : σ → σ → Prop) (Q : α → β → Prop) (x : Run σ α) (y : Run σ β) : Prop :=
  ∀ s s' a s₁, R s s' → x.start s = (.ok a, s₁) →
    ∃ b s₁', y.start s' = (.ok b, s₁') ∧ Q a b ∧ R s₁ s₁'

namespace Carries

variable {γ δ : Type} {R : σ → σ → Prop} {Q : α → β → Prop} {Q' : γ → δ → Prop}

theorem pure {a : α} {b : β} (h : Q a b) :
    Carries R Q (Pure.pure a : Run σ α) (Pure.pure b) := by
  intro s s' _ _ hs hx
  cases hx
  exact ⟨b, s', rfl, h, hs⟩

theorem throw (e : Fault) (y : Run σ β) : Carries R Q (MonadExcept.throw e : Run σ α) y := by
  intro s s' _ _ _ hx
  cases hx

/-- A given result is carried when its like is given on the other side. -/
theorem liftM {x : Except Fault α} {y : Except Fault β}
    (h : ∀ a, x = .ok a → ∃ b, y = .ok b ∧ Q a b) :
    Carries R Q (MonadLiftT.monadLift x : Run σ α) (MonadLiftT.monadLift y : Run σ β) := by
  intro s s' a s₁ hs hx
  cases hx
  obtain ⟨b, rfl, hb⟩ := h a rfl
  exact ⟨b, s', rfl, hb, hs⟩

theorem bind {x : Run σ α} {y : Run σ β} {f : α → Run σ γ} {g : β → Run σ δ}
    (h : Carries R Q x y)
    (hf : ∀ a b, Q a b → Carries R Q' (f a) (g b)) : Carries R Q' (x >>= f) (y >>= g) := by
  intro s s' c s₁ hs hx
  obtain ⟨a, s₂, hx, hfa⟩ := start_bind_eq_ok.1 hx
  obtain ⟨b, s₂', hy, hb, hs'⟩ := h s s' a s₂ hs hx
  rw [start_bind_ok hy]
  exact hf a b hb s₂ s₂' c s₁ hs' hfa

/-- What is carried on and then carried on again is carried on, from related states to related
states. -/
theorem trans {P : α → α → Prop} {x y z : Run σ α} (hR : Equivalence R)
    (hP : ∀ a b c, P a b → P b c → P a c) (h : Carries R P x y) (h' : Carries R P y z) :
    Carries R P x z := by
  intro s s' a s₁ hs hx
  obtain ⟨b, s₂, hy, hab, hs₂⟩ := h s s a s₁ (hR.refl s) hx
  obtain ⟨c, s₃, hz, hbc, hs₃⟩ := h' s s' b s₂ hs hy
  exact ⟨c, s₃, hz, hP a b c hab hbc, hR.trans hs₂ hs₃⟩

/-- What the second of two computations gives, if the first one gives anything. -/
theorem gives {x : Run σ α} {y : Run σ β} (hR : Equivalence R) (h : Carries R Q x y) {a : α}
    (hx : Gives x a) : ∃ b, Gives y b ∧ Q a b := by
  obtain ⟨s, s₁, hx⟩ := hx
  obtain ⟨b, s₁', hy, hab, -⟩ := h s s a s₁ (hR.refl s) hx
  exact ⟨b, ⟨s, s₁', hy⟩, hab⟩

/-- Computations one for each of two lists are carried when they are carried place by place. -/
theorem mapM {ι κ : Type} {P : ι → κ → Prop} {f : ι → Run σ α} {g : κ → Run σ β} {is : List ι}
    {js : List κ} (his : List.Forall₂ P is js) (h : ∀ i j, P i j → Carries R Q (f i) (g j)) :
    Carries R (List.Forall₂ Q) (is.mapM f) (js.mapM g) := by
  induction his with
  | nil => exact .pure .nil
  | cons hhead _ ih =>
      rw [List.mapM_cons, List.mapM_cons]
      exact (h _ _ hhead).bind fun a b hab => ih.bind fun as bs has => .pure (.cons hab has)

end Carries

end ExtensiveForm.Run
