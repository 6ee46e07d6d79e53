import Mathlib

/-!
# Programs over an effect signature

A program is a tree of commands: it performs a command, receives the answer and goes on. What a command
does is not part of the program; a semantics relates the state before it, its answer and the state after
it. The same program can so be run on two machines, and it can be interrupted between any two commands,
which is what a crash is. `Exec` is a complete run, `Mid` a run cut short, and `Triple` a specification
of both: what holds at the end and what holds wherever the program may stop.
-/

namespace Lib

/-- A program that performs commands `c : Cmd` and receives answers of type `Ret c`. -/
inductive Prog (Cmd : Type) (Ret : Cmd → Type) (α : Type) : Type where
  | ret (a : α)
  | op (c : Cmd) (k : Ret c → Prog Cmd Ret α)

namespace Prog

variable {Cmd : Type} {Ret : Cmd → Type} {α β σ : Type}

def bind : Prog Cmd Ret α → (α → Prog Cmd Ret β) → Prog Cmd Ret β
  | ret a, f => f a
  | op c k, f => op c fun r => (k r).bind f

instance : Monad (Prog Cmd Ret) where
  pure := ret
  bind := bind

def call (c : Cmd) : Prog Cmd Ret (Ret c) := op c ret

def loop : Nat → (Nat → Prog Cmd Ret Unit) → Prog Cmd Ret Unit
  | 0, _ => ret ()
  | n + 1, body => (loop n body).bind fun _ => body n

/-! ### Complete and interrupted runs -/

abbrev Semantics (Cmd : Type) (Ret : Cmd → Type) (σ : Type) := (c : Cmd) → σ → Ret c → σ → Prop

variable {sem : Semantics Cmd Ret σ}

/-- The program runs to its end from one state to another and returns a value. -/
inductive Exec (sem : Semantics Cmd Ret σ) : Prog Cmd Ret α → σ → α → σ → Prop where
  | ret {a : α} {s : σ} : Exec sem (ret a) s a s
  | op {c : Cmd} {k : Ret c → Prog Cmd Ret α} {s t s' : σ} {r : Ret c} {a : α}
      (hstep : sem c s r t) (hrest : Exec sem (k r) t a s') : Exec sem (op c k) s a s'

/-- The program, started in one state, may be found in another after some of its commands. -/
inductive Mid (sem : Semantics Cmd Ret σ) : Prog Cmd Ret α → σ → σ → Prop where
  | here {p : Prog Cmd Ret α} {s : σ} : Mid sem p s s
  | op {c : Cmd} {k : Ret c → Prog Cmd Ret α} {s t s' : σ} {r : Ret c}
      (hstep : sem c s r t) (hrest : Mid sem (k r) t s') : Mid sem (op c k) s s'

variable {p : Prog Cmd Ret α} {f : α → Prog Cmd Ret β} {s s' : σ}

theorem exec_bind {b : β} :
    Exec sem (p.bind f) s b s' ↔ ∃ a t, Exec sem p s a t ∧ Exec sem (f a) t b s' := by
  induction p generalizing s with
  | ret a =>
    constructor
    · intro h
      exact ⟨a, s, .ret, h⟩
    · rintro ⟨_, _, hp, hf⟩
      cases hp
      exact hf
  | op c k ih =>
    constructor
    · intro h
      cases h with
      | op hstep hrest =>
        obtain ⟨a, t, hk, hf⟩ := (ih _).mp hrest
        exact ⟨a, t, .op hstep hk, hf⟩
    · rintro ⟨a, t, hp, hf⟩
      cases hp with
      | op hstep hrest => exact .op hstep ((ih _).mpr ⟨a, t, hrest, hf⟩)

/-- A sequence is interrupted in its first part, or in its second after the first has ended. -/
theorem mid_bind (h : Mid sem (p.bind f) s s') :
    Mid sem p s s' ∨ ∃ a t, Exec sem p s a t ∧ Mid sem (f a) t s' := by
  induction p generalizing s with
  | ret a => exact .inr ⟨a, s, .ret, h⟩
  | op c k ih =>
    cases h with
    | here => exact .inl .here
    | op hstep hrest =>
      rcases ih _ hrest with hmid | ⟨a, t, hk, hf⟩
      · exact .inl (.op hstep hmid)
      · exact .inr ⟨a, t, .op hstep hk, hf⟩

theorem Exec.mid {a : α} (h : Exec sem p s a s') : Mid sem p s s' := by
  induction h with
  | ret => exact .here
  | op hstep _ ih => exact .op hstep ih

/-- Where every command can be performed in every state, every program runs to its end. -/
theorem exists_exec (htotal : ∀ c s, ∃ r t, sem c s r t) (p : Prog Cmd Ret α) (s : σ) :
    ∃ a s', Exec sem p s a s' := by
  induction p generalizing s with
  | ret a => exact ⟨a, s, .ret⟩
  | op c k ih =>
    obtain ⟨r, t, hstep⟩ := htotal c s
    obtain ⟨a, s', hrest⟩ := ih r t
    exact ⟨a, s', .op hstep hrest⟩

/-! ### Specifications with a crash condition -/

/-- From a state with `pre`, a complete run ends with `post` and an interrupted one stops with `crash`. -/
structure Triple (sem : Semantics Cmd Ret σ) (pre : σ → Prop) (p : Prog Cmd Ret α) (post : α → σ → Prop)
    (crash : σ → Prop) : Prop where
  post : ∀ {s a s'}, pre s → Exec sem p s a s' → post a s'
  crash : ∀ {s s'}, pre s → Mid sem p s s' → crash s'

variable {pre : σ → Prop} {crash : σ → Prop}

variable {post : α → σ → Prop}

theorem Triple.ret {a : α} (hpost : ∀ s, pre s → post a s) (hcrash : ∀ s, pre s → crash s) :
    Triple sem pre (.ret a) post crash where
  post hs h := by
    cases h
    exact hpost _ hs
  crash hs h := by
    cases h
    exact hcrash _ hs

/-- One command: the states before and after it meet the crash condition, and what it answers leads to
the rest. -/
theorem Triple.call {c : Cmd} {post : Ret c → σ → Prop} (hbefore : ∀ s, pre s → crash s)
    (hafter : ∀ s r t, pre s → sem c s r t → post r t ∧ crash t) :
    Triple sem pre (.call c) post crash where
  post hs h := by
    cases h with
    | op hstep hrest =>
      cases hrest
      exact (hafter _ _ _ hs hstep).1
  crash hs h := by
    cases h with
    | here => exact hbefore _ hs
    | op hstep hrest =>
      cases hrest
      exact (hafter _ _ _ hs hstep).2

theorem Triple.bind {mid : α → σ → Prop} {post : β → σ → Prop}
    (hp : Triple sem pre p mid crash) (hf : ∀ a, Triple sem (mid a) (f a) post crash) :
    Triple sem pre (p.bind f) post crash where
  post hs h := by
    obtain ⟨a, t, hexec, hrest⟩ := exec_bind.mp h
    exact (hf a).post (hp.post hs hexec) hrest
  crash hs h := by
    rcases mid_bind h with hmid | ⟨a, t, hexec, hrest⟩
    · exact hp.crash hs hmid
    · exact (hf a).crash (hp.post hs hexec) hrest

theorem Triple.conseq {pre' : σ → Prop} {post' : α → σ → Prop} {crash' : σ → Prop}
    (h : Triple sem pre' p post' crash') (hpre : ∀ s, pre s → pre' s) (hpost : ∀ a s, post' a s → post a s)
    (hcrash : ∀ s, crash' s → crash s) : Triple sem pre p post crash where
  post hs hexec := hpost _ _ (h.post (hpre _ hs) hexec)
  crash hs hmid := hcrash _ (h.crash (hpre _ hs) hmid)

/-- A fact about the start of a run may be assumed while proving its specification. -/
theorem Triple.of_pre
    (h : ∀ s, pre s → Triple sem (fun t => t = s) p post crash) : Triple sem pre p post crash where
  post hs hexec := (h _ hs).post rfl hexec
  crash hs hmid := (h _ hs).crash rfl hmid

end Prog

end Lib
