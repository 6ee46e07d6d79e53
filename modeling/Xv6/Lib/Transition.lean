import Mathlib

/-!
# Labelled transition systems

A system takes labelled steps. Given its state and a label the step is determined: it leads to a next
state, fails with an error that stops the system, or cannot be taken. A run is the list of labels of the
steps taken so far together with the state reached, so that a property may speak of the history.
-/

namespace Lib

inductive Outcome (ε σ : Type) where
  | next (s : σ)
  | fail (e : ε)
  | disabled

namespace Outcome

variable {ε σ : Type}

def state? : Outcome ε σ → Option σ
  | .next s => some s
  | _ => none

def error? : Outcome ε σ → Option ε
  | .fail e => some e
  | _ => none

@[simp] theorem state?_eq_some {o : Outcome ε σ} {s : σ} : o.state? = some s ↔ o = .next s := by
  cases o <;> simp [state?]

@[simp] theorem error?_eq_some {o : Outcome ε σ} {e : ε} : o.error? = some e ↔ o = .fail e := by
  cases o <;> simp [error?]

/-- A step leads to a state of which `Q` holds or to an error of which `E` holds, if it can be taken. -/
def Meets (Q : σ → Prop) (E : ε → Prop) : Outcome ε σ → Prop
  | .next s => Q s
  | .fail e => E e
  | .disabled => True

theorem Meets.ite {Q : σ → Prop} {E : ε → Prop} {c : Prop} [Decidable c] {o o' : Outcome ε σ} (h : c → o.Meets Q E)
    (h' : ¬c → o'.Meets Q E) : (if c then o else o').Meets Q E := by
  split
  · exact h ‹_›
  · exact h' ‹_›

end Outcome

structure Automaton (σ α ε : Type) where
  start : σ → Prop
  step : σ → α → Outcome ε σ

namespace Automaton

variable {σ α ε : Type} {A : Automaton σ α ε}

inductive Run (A : Automaton σ α ε) : List α → σ → Prop where
  | start {s : σ} (hs : A.start s) : Run A [] s
  | step {as : List α} {s s' : σ} {a : α} (h : Run A as s) (ha : A.step s a = .next s') : Run A (as ++ [a]) s'

variable {P : σ → α → Prop} {as : List α} {s : σ}

/-- What holds at the start and is kept by every step holds along every run. -/
theorem Run.invariant {I : List α → σ → Prop} (hstart : ∀ s, A.start s → I [] s)
    (hstep : ∀ as s a s', I as s → A.step s a = .next s' → I (as ++ [a]) s')
    (h : A.Run as s) : I as s := by
  induction h with
  | start hs => exact hstart _ hs
  | step _ ha ih => exact hstep _ _ _ _ ih ha

/-- A run all of whose steps meet a condition on the state and the label. -/
inductive RunIn (A : Automaton σ α ε) (P : σ → α → Prop) : List α → σ → Prop where
  | start {s : σ} (hs : A.start s) : RunIn A P [] s
  | step {as : List α} {s s' : σ} {a : α} (h : RunIn A P as s) (hP : P s a) (ha : A.step s a = .next s') :
      RunIn A P (as ++ [a]) s'

theorem RunIn.run (h : A.RunIn P as s) : A.Run as s := by
  induction h with
  | start hs => exact .start hs
  | step _ _ ha ih => exact .step ih ha

theorem RunIn.mono {P Q : σ → α → Prop} (hPQ : ∀ s a, P s a → Q s a) (h : A.RunIn P as s) :
    A.RunIn Q as s := by
  induction h with
  | start hs => exact .start hs
  | step _ hP ha ih => exact .step ih (hPQ _ _ hP) ha

theorem RunIn.invariant {I : List α → σ → Prop} (hstart : ∀ s, A.start s → I [] s)
    (hstep : ∀ as s a s', A.Run as s → I as s → P s a → A.step s a = .next s' → I (as ++ [a]) s')
    (h : A.RunIn P as s) : I as s := by
  induction h with
  | start hs => exact hstart _ hs
  | step h hP ha ih => exact hstep _ _ _ _ h.run ih hP ha

def exec (A : Automaton σ α ε) : σ → List α → Option σ
  | s, [] => some s
  | s, a :: as => (A.step s a).state?.bind fun t => exec A t as

theorem Run.exec {as bs : List α} {s t : σ} (h : A.Run as s) (ht : A.exec s bs = some t) : A.Run (as ++ bs) t := by
  induction bs generalizing as s with
  | nil =>
    obtain rfl : s = t := by simpa [Automaton.exec] using ht
    simpa using h
  | cons a bs ih =>
    obtain ⟨s', ha, hrest⟩ := Option.bind_eq_some_iff.mp ht
    rw [← List.singleton_append, ← List.append_assoc]
    exact ih (h.step (Outcome.state?_eq_some.mp ha)) hrest

theorem RunIn.exec {as bs : List α} {s t : σ} (h : A.RunIn P as s) (hP : ∀ b ∈ bs, ∀ s, P s b)
    (ht : A.exec s bs = some t) : A.RunIn P (as ++ bs) t := by
  induction bs generalizing as s with
  | nil =>
    obtain rfl : s = t := by simpa [Automaton.exec] using ht
    simpa using h
  | cons a bs ih =>
    obtain ⟨s', ha, hrest⟩ := Option.bind_eq_some_iff.mp ht
    rw [← List.singleton_append, ← List.append_assoc]
    exact ih (h.step (hP a (by simp) s) (Outcome.state?_eq_some.mp ha)) (fun b hb => hP b (by simp [hb])) hrest

/-- Take the steps of a list in order, each after a test. -/
def execIn (A : Automaton σ α ε) (test : σ → α → Bool) : σ → List α → Option σ
  | s, [] => some s
  | s, a :: as => if test s a then (A.step s a).state?.bind fun t => execIn A test t as else none

theorem RunIn.execIn {test : σ → α → Bool} (htest : ∀ s a, test s a = true → P s a) {as bs : List α} {s t : σ}
    (h : A.RunIn P as s) (ht : A.execIn test s bs = some t) : A.RunIn P (as ++ bs) t := by
  induction bs generalizing as s with
  | nil =>
    obtain rfl : s = t := by simpa [Automaton.execIn] using ht
    simpa using h
  | cons a bs ih =>
    rw [Automaton.execIn] at ht
    split_ifs at ht with ha
    obtain ⟨s', hs', hrest⟩ := Option.bind_eq_some_iff.mp ht
    rw [← List.singleton_append, ← List.append_assoc]
    exact ih (h.step (htest s a ha) (Outcome.state?_eq_some.mp hs')) hrest

/-! ### Histories -/

section

variable {τ : Type} {f : σ → α → List τ}

/-- A run together with what is observed at its steps. -/
inductive Observed (A : Automaton σ α ε) (f : σ → α → List τ) : List α → σ → List τ → Prop where
  | start {s : σ} (hs : A.start s) : Observed A f [] s []
  | step {as : List α} {s s' : σ} {h : List τ} {a : α} (hrun : Observed A f as s h) (ha : A.step s a = .next s') :
      Observed A f (as ++ [a]) s' (h ++ f s a)

theorem Observed.run {as : List α} {s : σ} {h : List τ} (hrun : A.Observed f as s h) : A.Run as s := by
  induction hrun with
  | start hs => exact .start hs
  | step _ ha ih => exact .step ih ha

/-- Take the steps of a list in order and observe them. -/
def observe (A : Automaton σ α ε) (f : σ → α → List τ) : σ → List α → Option (σ × List τ)
  | s, [] => some (s, [])
  | s, a :: as => (A.step s a).state?.bind fun t => (observe A f t as).map fun p => (p.1, f s a ++ p.2)

theorem Observed.observe {as bs : List α} {s t : σ} {h h' : List τ} (hrun : A.Observed f as s h)
    (ht : A.observe f s bs = some (t, h')) : A.Observed f (as ++ bs) t (h ++ h') := by
  induction bs generalizing as s h h' with
  | nil =>
    obtain ⟨rfl, rfl⟩ : s = t ∧ [] = h' := by simpa [Automaton.observe] using ht
    simpa using hrun
  | cons a bs ih =>
    obtain ⟨s', ha, hrest⟩ := Option.bind_eq_some_iff.mp ht
    obtain ⟨⟨t', h''⟩, hobserve, hp⟩ := Option.map_eq_some_iff.mp hrest
    obtain ⟨rfl, rfl⟩ := Prod.mk.inj hp
    rw [← List.singleton_append, ← List.append_assoc, ← List.append_assoc]
    exact ih (hrun.step (Outcome.state?_eq_some.mp ha)) hobserve

end

end Automaton

end Lib
