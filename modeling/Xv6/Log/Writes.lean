import Xv6.Lib.Replay
import Xv6.Log.Code

/-!
# What the log writes, and in which order

Each function of the log is a fixed list of sector writes, determined by the disk, the pinned buffers and
the in-memory log. `Emits` says which list, and that wherever the function is cut short the disk has seen
a beginning of it. Recycling never shows: a clean buffer holds what the disk holds, so what `bread` gives
does not depend on which buffers are still cached. The crash argument then is about lists of writes only.
-/

namespace Xv6.RedoLog

open Lib

/-! ### The header block -/

variable {b : Block} {lh : List Nat}

theorem get32_putSectors_before {i o : Nat} (h : o + 4 ≤ 4 + 4 * i) (ho : o + 4 ≤ bsize) :
    get32 (putSectors b i lh) o = get32 b o := by
  induction lh generalizing b i with
  | nil => rfl
  | cons sector rest ih => rw [putSectors, ih (by omega), get32_put32_disjoint ho (.inl h)]

theorem get32_putSectors {i j : Nat} (hj : j < lh.length)
    (hfit : 4 + 4 * (i + lh.length) ≤ bsize) :
    get32 (putSectors b i lh) (4 + 4 * (i + j)) = UInt32.ofNat (lh.getD j 0) := by
  induction lh generalizing b i j with
  | nil => simp at hj
  | cons sector rest ih =>
    simp only [List.length_cons] at hj hfit
    cases j with
    | zero =>
      change get32 (putSectors (put32 b (4 + 4 * i) (UInt32.ofNat sector)) (i + 1) rest) (4 + 4 * i) = UInt32.ofNat sector
      rw [get32_putSectors_before (by omega) (by omega), get32_put32_same (by omega)]
    | succ j =>
      rw [putSectors, show i + (j + 1) = i + 1 + j by omega, ih (by omega) (by omega)]
      rfl

theorem headerCount_putHeader (hlen : lh.length ≤ logSize) :
    headerCount (putHeader b lh) = lh.length := by
  have hfit : lh.length < 2 ^ 31 := by simp only [logSize, maxOpBlocks] at hlen; omega
  have hword : (get32 (putHeader b lh) 0).toNat = lh.length := by
    rw [putHeader, get32_putSectors_before (by omega) (by decide), get32_put32_same (by decide)]
    exact UInt32.toNat_ofNat_of_lt' (by simp only [UInt32.size]; omega)
  rw [headerCount, hword, if_pos hfit]

theorem headerSectors_putHeader (hlen : lh.length ≤ logSize)
    (hsmall : ∀ sector ∈ lh, sector < 2 ^ 32) : headerSectors (putHeader b lh) = lh := by
  apply List.ext_getElem
  · simp [headerSectors, headerCount_putHeader hlen]
  · intro j hj hj'
    have hget : lh.getD j 0 = lh[j] := List.getD_eq_getElem _ _ hj'
    have hword := get32_putSectors (b := put32 b 0 (UInt32.ofNat lh.length)) (i := 0) hj'
      (by simp only [logSize, maxOpBlocks, bsize] at *; omega)
    simp only [headerSectors, List.getElem_map, List.getElem_range, putHeader]
    rw [show 4 + 4 * j = 4 + 4 * (0 + j) by omega, hword, hget,
      UInt32.toNat_ofNat_of_lt' (by simpa [UInt32.size] using hsmall _ (List.getElem_mem hj'))]

/-! ### Configurations -/

/-- What decides a run: the pinned buffers with their contents, the disk and the in-memory log. -/
structure Config where
  pinned : Nat → Option Block
  disk : Nat → Block
  log : Log

/-- Every dirty buffer is pinned and every clean one agrees with the disk. -/
structure Config.At (c : Config) (written : List (Nat × Block)) (s : Machine) : Prop where
  disk : s.disk = c.disk
  log : s.log = c.log
  writes : s.writes = written
  pinned : ∀ b data, c.pinned b = some data → s.cache b = some ⟨data, true⟩
  clean : ∀ b buf, c.pinned b = none → s.cache b = some buf → buf = ⟨c.disk b, false⟩

def Config.view (c : Config) (b : Nat) : Block := (c.pinned b).getD (c.disk b)

/-- The configuration after a `bwrite`: the buffer is clean and on disk. -/
def Config.bwrite (c : Config) (b : Nat) (data : Block) : Config :=
  { c with pinned := Function.update c.pinned b none, disk := Function.update c.disk b data }

variable {w : List (Nat × Block)} {s : Machine}

theorem Config.At.view {c : Config} (h : c.At w s) (b : Nat) :
    s.view b = c.view b := by
  unfold Machine.view Config.view
  cases hpin : c.pinned b with
  | some data => simp [h.pinned b data hpin]
  | none =>
    cases hbuf : s.cache b with
    | none => simp [h.disk]
    | some buf => simp [h.clean b buf hpin hbuf]

variable {t : Machine} {data : Block}

theorem Config.At.bread {c : Config} {b : Nat} (h : c.At w s)
    (hstep : sem (.bread b) s data t) : data = c.view b ∧ c.At w t := by
  obtain ⟨hdata, cache, hrecycled, rfl⟩ := hstep
  refine ⟨hdata.trans (h.view b), h.disk, h.log, h.writes, ?_, ?_⟩
  · intro b' data' hpin
    have hold := h.pinned b' data' hpin
    by_cases hb : b' = b
    · subst hb
      simp [hold]
    · simp only [Function.update_of_ne hb]
      rcases hrecycled b' with hsame | ⟨_, _, hclean⟩
      · rw [hsame, hold]
      · simp [hold] at hclean
  · intro b' buf hpin hbuf
    by_cases hb : b' = b
    · subst hb
      simp only [Function.update_self, Option.some.injEq] at hbuf
      subst hbuf
      cases hold : s.cache b' with
      | none => simp [h.disk]
      | some buf' => simpa using h.clean b' buf' hpin hold
    · simp only [Function.update_of_ne hb] at hbuf
      rcases hrecycled b' with hsame | ⟨hnone, _⟩
      · exact h.clean b' buf hpin (hsame ▸ hbuf)
      · simp [hnone] at hbuf

theorem Config.At.bwrite {c : Config} {b : Nat} {u : Unit}
    (h : c.At w s) (hstep : sem (.bwrite b data) s u t) : (c.bwrite b data).At (w ++ [(b, data)]) t := by
  cases hstep
  refine ⟨?_, h.log, ?_, ?_, ?_⟩
  · simp [Config.bwrite, h.disk]
  · simp [h.writes]
  · intro b' data' hpin
    by_cases hb : b' = b
    · simp [Config.bwrite, hb] at hpin
    · simp only [Config.bwrite, Function.update_of_ne hb] at hpin ⊢
      exact h.pinned b' data' hpin
  · intro b' buf hpin hbuf
    by_cases hb : b' = b
    · subst hb
      simpa [Config.bwrite, eq_comm] using hbuf
    · simp only [Config.bwrite, Function.update_of_ne hb] at hpin hbuf ⊢
      exact h.clean b' buf hpin hbuf

theorem Config.At.pin {c : Config} {b : Nat} {u : Unit}
    (h : c.At w s) (hstep : sem (.pin b data) s u t) :
    { c with pinned := Function.update c.pinned b (some data) }.At w t := by
  cases hstep
  refine ⟨h.disk, h.log, h.writes, ?_, ?_⟩
  · intro b' data' hpin
    by_cases hb : b' = b
    · subst hb
      simpa using hpin
    · simp only [Function.update_of_ne hb] at hpin ⊢
      exact h.pinned b' data' hpin
  · intro b' buf hpin hbuf
    by_cases hb : b' = b
    · simp [hb] at hpin
    · simp only [Function.update_of_ne hb] at hpin hbuf
      exact h.clean b' buf hpin hbuf

theorem boot_at (disk : Nat → Block) : Config.At ⟨fun _ => none, disk, (boot disk).log⟩ [] (boot disk) where
  disk := rfl
  log := rfl
  writes := rfl
  pinned := by simp
  clean := by simp [boot]

/-! ### Programs as lists of writes -/

/-- From `c`, the program writes `ws` in order, returns `a` and ends in `c'`; cut short, it has written a
beginning of `ws`. -/
structure Emits {α : Type} (p : LogProg α) (c : Config) (a : α) (ws : List (Nat × Block)) (c' : Config) : Prop where
  disk : c'.disk = replay c.disk ws
  run : ∀ w, Prog.Triple sem (c.At w) p (fun a' s => a' = a ∧ c'.At (w ++ ws) s)
    (fun s => ∃ v, v <+: ws ∧ s.disk = replay c.disk v ∧ s.writes = w ++ v)

variable {α β : Type} {c c' c'' : Config}

theorem Config.At.stopped {ws : List (Nat × Block)} (h : c.At w s) :
    ∃ v, v <+: ws ∧ s.disk = replay c.disk v ∧ s.writes = w ++ v :=
  ⟨[], List.nil_prefix, h.disk, by simpa using h.writes⟩

theorem Emits.ret (a : α) (c : Config) : Emits (.ret a) c a [] c where
  disk := rfl
  run w := .ret (fun s h => ⟨rfl, by simpa using h⟩) fun s h => h.stopped

theorem Emits.bind {p : LogProg α} {f : α → LogProg β} {a : α} {b : β} {ws vs : List (Nat × Block)}
    (hp : Emits p c a ws c') (hf : Emits (f a) c' b vs c'') : Emits (p.bind f) c b (ws ++ vs) c'' where
  disk := by rw [hf.disk, hp.disk, replay_append]
  run w := by
    have hfirst : Prog.Triple sem (c.At w) p (fun a' s => a' = a ∧ c'.At (w ++ ws) s)
        (fun s => ∃ v, v <+: ws ++ vs ∧ s.disk = replay c.disk v ∧ s.writes = w ++ v) := by
      refine (hp.run w).conseq (fun _ h => h) (fun _ _ h => h) ?_
      rintro s ⟨v, hv, hrest⟩
      exact ⟨v, hv.trans (List.prefix_append ws vs), hrest⟩
    refine hfirst.bind fun a' => ?_
    · refine .of_pre ?_
      rintro s ⟨rfl, hs⟩
      refine (hf.run (w ++ ws)).conseq (fun t ht => ht ▸ hs) (fun _ t h => ⟨h.1, by simpa using h.2⟩) ?_
      rintro t ⟨v, hv, hdisk, hwrites⟩
      refine ⟨ws ++ v, (List.prefix_append_right_inj ws).mpr hv, ?_, by simpa using hwrites⟩
      rw [hdisk, hp.disk, replay_append]

theorem Emits.then {p : LogProg α} {f : α → LogProg β} {a : α} {b : β} {vs : List (Nat × Block)}
    (hp : Emits p c a [] c') (hf : Emits (f a) c' b vs c'') : Emits (p.bind f) c b vs c'' :=
  hp.bind hf

theorem emits_bread (b : Nat) (c : Config) : Emits (bread b) c (c.view b) [] c where
  disk := rfl
  run w := .call (fun s h => h.stopped) fun s r t h hstep => by
    have hafter := h.bread hstep
    exact ⟨⟨hafter.1, by simpa using hafter.2⟩, hafter.2.stopped⟩

theorem emits_bwrite (b : Nat) (data : Block) (c : Config) : Emits (bwrite b data) c () [(b, data)] (c.bwrite b data) where
  disk := rfl
  run w := .call (fun s h => h.stopped) fun s r t h hstep => by
    have hafter := h.bwrite hstep
    exact ⟨⟨rfl, hafter⟩, [(b, data)], List.prefix_refl _, hafter.disk, hafter.writes⟩

theorem emits_pin (b : Nat) (data : Block) (c : Config) :
    Emits (pin b data) c () [] { c with pinned := Function.update c.pinned b (some data) } where
  disk := rfl
  run w := .call (fun s h => h.stopped) fun s r t h hstep => by
    have hafter := h.pin hstep
    exact ⟨⟨rfl, by simpa using hafter⟩, [], List.nil_prefix, hafter.disk, by simpa using hafter.writes⟩

theorem emits_getLog (c : Config) : Emits getLog c c.log [] c where
  disk := rfl
  run w := .call (fun s h => h.stopped) fun s r t h hstep => by
    obtain ⟨rfl, rfl⟩ := hstep
    exact ⟨⟨h.log, by simpa using h⟩, h.stopped⟩

theorem emits_setLog (log : Log) (c : Config) : Emits (setLog log) c () [] { c with log := log } where
  disk := rfl
  run w := .call (fun s h => h.stopped) fun s r t h hstep => by
    cases hstep
    exact ⟨⟨rfl, h.disk, rfl, by simpa using h.writes, h.pinned, h.clean⟩,
      [], List.nil_prefix, h.disk, by simpa using h.writes⟩

theorem Emits.loop {n : Nat} {body : Nat → LogProg Unit} {cs : Nat → Config} {ws : Nat → List (Nat × Block)}
    (h : ∀ k, k < n → Emits (body k) (cs k) () (ws k) (cs (k + 1))) :
    Emits (.loop n body) (cs 0) () ((List.range n).flatMap ws) (cs n) := by
  induction n with
  | zero => exact .ret () _
  | succ n ih =>
    rw [List.range_succ, List.flatMap_append, List.flatMap_singleton]
    exact (ih fun k hk => h k (by omega)).bind (h n (by omega))

end Xv6.RedoLog
