import Xv6.Lib.Transition

/-!
# Fair paths

A path is an infinite run. It is fair to a label when the label is taken again and again as long as it can be. What
leads to what along a path follows from single steps by the rules here.
-/

namespace Lib

structure Path {σ α ε : Type} (A : Automaton σ α ε) where
  state : Nat → σ
  label : Nat → α
  start : A.start (state 0)
  step : ∀ n, A.step (state n) (label n) = .next (state (n + 1))

namespace Path

variable {σ α ε : Type} {A : Automaton σ α ε} {π : Path A}

theorem run (π : Path A) (n : Nat) : A.Run ((List.range n).map π.label) (π.state n) := by
  induction n with
  | zero => exact .start π.start
  | succ n ih =>
    rw [List.range_succ, List.map_append]
    exact ih.step (π.step n)

def stateAt (A : Automaton σ α ε) (s : σ) (label : Nat → α) : Nat → σ
  | 0 => s
  | n + 1 => (A.step (stateAt A s label n) (label n)).state?.getD (stateAt A s label n)

def ofLabels (A : Automaton σ α ε) (s : σ) (label : Nat → α) (hs : A.start s)
    (hstep : ∀ n, (A.step (stateAt A s label n) (label n)).state?.isSome) : Path A where
  state := stateAt A s label
  label := label
  start := hs
  step n := by
    obtain ⟨t, ht⟩ := Option.isSome_iff_exists.mp (hstep n)
    rw [stateAt, ht]
    exact Outcome.state?_eq_some.mp ht

/-- A label that can be taken from some time on is taken. -/
def Fair (π : Path A) (a : α) : Prop :=
  ∀ n, (∀ m, n ≤ m → A.step (π.state m) a ≠ .disabled) → ∃ m, n ≤ m ∧ π.label m = a

def Leads (π : Path A) (P Q : σ → Prop) : Prop := ∀ n, P (π.state n) → ∃ m, n ≤ m ∧ Q (π.state m)

variable {P Q R : σ → Prop}

theorem Leads.trans (hPQ : π.Leads P Q) (hQR : π.Leads Q R) : π.Leads P R := by
  intro n hn
  obtain ⟨m, hnm, hm⟩ := hPQ n hn
  obtain ⟨l, hml, hl⟩ := hQR m hm
  exact ⟨l, hnm.trans hml, hl⟩

/-- A condition that lets a label be taken, and that stays until the goal is reached, by this label at the latest. -/
theorem Leads.ensures {a : α} (hfair : π.Fair a) (hable : ∀ n, P (π.state n) → A.step (π.state n) a ≠ .disabled)
    (hstep : ∀ n, P (π.state n) → Q (π.state (n + 1)) ∨ P (π.state (n + 1)) ∧ π.label n ≠ a) : π.Leads P Q := by
  intro n hn
  by_contra hnever
  have hnext : ∀ m, n ≤ m → P (π.state m) → P (π.state (m + 1)) ∧ π.label m ≠ a := fun m hm hP =>
    (hstep m hP).resolve_left fun hQ => hnever ⟨m + 1, by omega, hQ⟩
  have hstays : ∀ m, n ≤ m → P (π.state m) := by
    intro m hm
    induction m, hm using Nat.le_induction with
    | base => exact hn
    | succ m hm ih => exact (hnext m hm ih).1
  obtain ⟨m, hm, ha⟩ := hfair n fun m hm => hable m (hstays m hm)
  exact (hnext m hm (hstays m hm)).2 ha

theorem Leads.descend {P : Nat → σ → Prop} (h : ∀ k, π.Leads (P (k + 1)) (P k)) (k : Nat) : π.Leads (P k) (P 0) := by
  induction k with
  | zero => exact fun n hn => ⟨n, le_rfl, hn⟩
  | succ k ih => exact (h k).trans ih

end Path

end Lib
