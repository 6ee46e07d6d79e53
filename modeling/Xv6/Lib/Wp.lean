import Mathlib

/-!
# Weakest preconditions for code that can fail

Code with a state `σ` that may stop with an error `ε`. `wp f Q E s` says of the one run of `f` from `s`
that it ends in `Q`, with its result and its last state, or stops with an error in `E`. So a function is
specified by what it returns and by when it fails, and a caller needs nothing but the rule for `bind`.
-/

namespace Lib

variable {σ ε α β : Type}

def wp (f : StateT σ (Except ε) α) (Q : α → σ → Prop) (E : ε → Prop) (s : σ) : Prop :=
  match f s with
  | .ok (a, s') => Q a s'
  | .error e => E e

section Rules

variable {Q : α → σ → Prop} {E : ε → Prop} {s : σ}

@[simp] theorem wp_pure (a : α) : wp (pure a : StateT σ (Except ε) α) Q E s ↔ Q a s := Iff.rfl

@[simp] theorem wp_throw (e : ε) : wp (throw e : StateT σ (Except ε) α) Q E s ↔ E e := Iff.rfl

@[simp] theorem wp_get {Q : σ → σ → Prop} : wp (get : StateT σ (Except ε) σ) Q E s ↔ Q s s := Iff.rfl

@[simp] theorem wp_modify {Q : PUnit → σ → Prop} (f : σ → σ) :
    wp (modify f : StateT σ (Except ε) PUnit) Q E s ↔ Q ⟨⟩ (f s) := Iff.rfl

@[simp] theorem wp_bind {Q : β → σ → Prop} (x : StateT σ (Except ε) α) (f : α → StateT σ (Except ε) β) :
    wp (x >>= f) Q E s ↔ wp x (fun a s' => wp (f a) Q E s') E s := by
  have hbind : (x >>= f) s = x s >>= fun p => f p.1 p.2 := rfl
  unfold wp
  rw [hbind]
  cases x s <;> rfl

@[simp] theorem wp_map {Q : β → σ → Prop} (g : α → β) (x : StateT σ (Except ε) α) :
    wp (g <$> x) Q E s ↔ wp x (fun a s' => Q (g a) s') E s := by
  rw [map_eq_pure_bind, wp_bind]
  simp

@[simp] theorem wp_ite (c : Prop) [Decidable c] (x y : StateT σ (Except ε) α) :
    wp (if c then x else y) Q E s ↔ if c then wp x Q E s else wp y Q E s := by
  split <;> rfl

variable {f : StateT σ (Except ε) α}

theorem wp_mono {Q' : α → σ → Prop} {E' : ε → Prop} (h : wp f Q E s)
    (hQ : ∀ a s', Q a s' → Q' a s') (hE : ∀ e, E e → E' e) : wp f Q' E' s := by
  unfold wp at h ⊢
  split
  · rename_i hf
    rw [hf] at h
    exact hQ _ _ h
  · rename_i hf
    rw [hf] at h
    exact hE _ h

theorem wp_ok (h : wp f Q E s) {a : α} {s' : σ} (hf : f s = .ok (a, s')) : Q a s' := by
  unfold wp at h
  rwa [hf] at h

theorem wp_error (h : wp f Q E s) {e : ε} (hf : f s = .error e) : E e := by
  unfold wp at h
  rwa [hf] at h

theorem wp_and {Q' : α → σ → Prop} {E' : ε → Prop} (h : wp f Q E s) (h' : wp f Q' E' s) :
    wp f (fun a s' => Q a s' ∧ Q' a s') (fun e => E e ∧ E' e) s := by
  unfold wp at h h' ⊢
  split
  · rename_i hf
    rw [hf] at h h'
    exact ⟨h, h'⟩
  · rename_i hf
    rw [hf] at h h'
    exact ⟨h, h'⟩

theorem wp_run (h : wp f Q E s) : wp f (fun a s' => f s = .ok (a, s') ∧ Q a s') E s := by
  unfold wp at h ⊢
  split
  · rename_i hf
    rw [hf] at h
    exact ⟨hf, h⟩
  · rename_i hf
    rwa [hf] at h

theorem exists_ok (h : wp f Q E s) (hE : ∀ e, ¬E e) : ∃ a s', f s = .ok (a, s') ∧ Q a s' := by
  cases hf : f s with
  | error e => exact absurd (wp_error h hf) (hE e)
  | ok p => exact ⟨p.1, p.2, rfl, wp_ok h hf⟩

theorem exists_run_iff {a : α} {s' : σ} (hf : f s = .ok (a, s')) {P : α → σ → Prop} :
    (∃ b s'', f s = .ok (b, s'') ∧ P b s'') ↔ P a s' := by
  constructor
  · rintro ⟨b, s'', hf', hP⟩
    rw [hf] at hf'
    obtain ⟨rfl, rfl⟩ := Prod.mk.inj (Except.ok.inj hf')
    exact hP
  · exact fun hP => ⟨a, s', hf, hP⟩

end Rules

/-! ### Single runs -/

section Runs

variable {x : StateT σ (Except ε) α} {f : α → StateT σ (Except ε) β} {s s' : σ} {a : α} {b : β}

theorem bind_of_ok (h : x s = .ok (a, s')) : (x >>= f) s = f a s' := by
  change (x s >>= fun p => f p.1 p.2) = _
  rw [h]
  rfl

theorem wp_of_ok {Q : α → σ → Prop} {E : ε → Prop} (h : x s = .ok (a, s')) : wp x Q E s ↔ Q a s' := by
  unfold wp
  rw [h]

end Runs

/-! ### Loops -/

def forTo (body : Nat → StateT σ (Except ε) PUnit) : Nat → StateT σ (Except ε) PUnit
  | 0 => pure ⟨⟩
  | n + 1 => do
    forTo body n
    body n

theorem wp_forTo {body : Nat → StateT σ (Except ε) PUnit} {I : Nat → σ → Prop} {E : ε → Prop} {s : σ} {n : Nat}
    (h₀ : I 0 s) (hbody : ∀ i s', i < n → I i s' → wp (body i) (fun _ s'' => I (i + 1) s'') E s') :
    wp (forTo body n) (fun _ s' => I n s') E s := by
  induction n with
  | zero => exact h₀
  | succ n ih =>
    rw [forTo, wp_bind]
    refine wp_mono (ih fun i s' hi => hbody i s' (by omega)) (fun _ s' hs' => ?_) fun _ he => he
    exact hbody n s' (by omega) hs'

-- a loop is used through its invariant and never unrolled
attribute [irreducible] forTo

end Lib
