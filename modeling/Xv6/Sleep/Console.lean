import Xv6.Sleep.Fifo

/-!
# The line discipline of the console

`Tty` is the console without its ring: the characters committed so far, how many of them have been taken, and the
line that can still be edited. Every run of `consoleintr` and `consoleread` is a run of it.
-/

namespace Xv6.Sleep

open Lib Monitor

structure Tty where
  /-- All the characters committed so far. -/
  committed : List UInt8
  /-- How many of them the reads have taken. -/
  taken : Nat
  /-- What has been typed since. -/
  line : List UInt8
  /-- The characters given to the reads, each with the number of the call. -/
  delivered : List (Nat × UInt8)
  /-- The calls that are over. -/
  ended : List Nat

variable {t' : Tty} {n : Int}

namespace Tty

def unread (t : Tty) : List UInt8 := t.committed.drop t.taken

def got (t : Tty) (k : Nat) : List UInt8 := own k t.delivered

def insert (t : Tty) (c : UInt8) : Tty :=
  if c = newline ∨ c = ctrl 'D' ∨ t.unread.length + (t.line ++ [c]).length = inputBuf then
    { t with committed := t.committed ++ (t.line ++ [c]), line := [] }
  else { t with line := t.line ++ [c] }

def key (t : Tty) (c : UInt8) : Tty :=
  if c = ctrl 'P' then t
  else if c = ctrl 'U' then { t with line := [] }
  else if c = ctrl 'H' ∨ c = 0x7f then { t with line := t.line.dropLast }
  else if c ≠ 0 ∧ t.unread.length + t.line.length < inputBuf then t.insert (if c = carriageReturn then newline else c)
  else t

def skip (t : Tty) : Tty := { t with taken := t.taken + 1 }

def deliver (t : Tty) (k : Nat) (c : UInt8) : Tty := { t with taken := t.taken + 1, delivered := t.delivered ++ [(k, c)] }

def finish (t : Tty) (k : Nat) : Tty := { t with ended := t.ended ++ [k] }

/-- The call `k`, a read of `n` characters, looks at the next one. -/
def read (t : Tty) (k : Nat) (n : Int) (c : UInt8) : Tty :=
  if c = ctrl 'D' then if t.got k = [] then t.skip.finish k else t.finish k
  else if c = newline ∨ ((t.deliver k c).got k).length = n then (t.deliver k c).finish k else t.deliver k c

inductive Act where
  | key (c : UInt8)
  | read (k : Nat) (n : Int)

def Act.key? : Act → Option UInt8
  | .key c => some c
  | .read .. => none

def step (t : Tty) : Act → Outcome Empty Tty
  | .key c => .next (t.key c)
  | .read k n =>
    match t.unread with
    | [] => .disabled
    | c :: _ => if k ∈ t.ended then .disabled else .next (t.read k n c)

def discipline : Automaton Tty Act Empty where
  start t := t = ⟨[], 0, [], [], []⟩
  step := step

/-! ### What the discipline keeps -/

theorem got_deliver (t : Tty) (k k' : Nat) (c : UInt8) : (t.deliver k c).got k' = if k = k' then t.got k' ++ [c] else t.got k' := by
  rw [got, deliver, own_append]
  by_cases hk : k = k'
  · simp [own, hk, got]
  · simp [own, hk, got]

theorem unread_skip (t : Tty) : t.skip.unread = t.unread.tail := by
  simp [unread, skip]

structure Typed (t t' : Tty) : Prop where
  taken : t'.taken = t.taken
  delivered : t'.delivered = t.delivered
  ended : t'.ended = t.ended
  committed : t.committed <+: t'.committed

theorem typed_insert (t : Tty) (c : UInt8) : Typed t (t.insert c) := by
  rw [insert]
  split_ifs
  · exact ⟨rfl, rfl, rfl, List.prefix_append ..⟩
  · exact ⟨rfl, rfl, rfl, List.prefix_rfl⟩

theorem typed_key (t : Tty) (c : UInt8) : Typed t (t.key c) := by
  rw [key]
  split_ifs
  any_goals exact ⟨rfl, rfl, rfl, List.prefix_rfl⟩
  · exact typed_insert t newline
  · exact typed_insert t c

/-- What has been given away is what has been committed, in order and without the ends of file; each end of file
taken is the result 0 of one read. -/
structure Inv (t : Tty) : Prop where
  taken : t.taken ≤ t.committed.length
  order : t.delivered.map Prod.snd = (t.committed.take t.taken).filter (· ≠ ctrl 'D')
  nodup : t.ended.Nodup
  eof : t.ended.countP (fun k => t.got k = []) = (t.committed.take t.taken).count (ctrl 'D')

theorem Inv.typed {t : Tty} (h : Inv t) (ht : Typed t t') : Inv t' := by
  obtain ⟨cs, hcs⟩ := ht.committed
  have htake : t'.committed.take t'.taken = t.committed.take t.taken := by
    rw [ht.taken, ← hcs, List.take_append_of_le_length h.taken]
  have hgot : t'.got = t.got := by
    funext k
    rw [got, got, ht.delivered]
  refine ⟨?_, ?_, ?_, ?_⟩
  · rw [ht.taken, ← hcs, List.length_append]
    exact h.taken.trans (Nat.le_add_right ..)
  · rw [ht.delivered, htake]
    exact h.order
  · rw [ht.ended]
    exact h.nodup
  · rw [ht.ended, htake, hgot]
    exact h.eof

variable {t : Tty} {c : UInt8} {cs : List UInt8}

theorem take_succ (hc : t.unread = c :: cs) : t.committed.take (t.taken + 1) = t.committed.take t.taken ++ [c] := by
  have hget : t.committed[t.taken]? = some c := by
    rw [← List.head?_drop, ← unread, hc]
    rfl
  rw [List.take_add_one, hget]
  rfl

theorem taken_lt (hc : t.unread = c :: cs) : t.taken < t.committed.length := by
  have hlen := congrArg List.length hc
  rw [unread, List.length_drop, List.length_cons] at hlen
  omega

theorem nodup_concat {l : List Nat} {k : Nat} (h : l.Nodup) (hk : k ∉ l) : (l ++ [k]).Nodup := by
  rw [← List.concat_eq_append]
  exact h.concat hk

/-- A call that has been given a character is over without changing the ends of file. -/
theorem Inv.finish {k : Nat} (h : Inv t) (hk : k ∉ t.ended) (hgot : t.got k ≠ []) : Inv (t.finish k) where
  taken := h.taken
  order := h.order
  nodup := nodup_concat h.nodup hk
  eof := by
    have hcount : [k].countP (fun k => t.got k = []) = 0 := by simp [hgot]
    show (t.ended ++ [k]).countP (fun k => t.got k = []) = _
    rw [List.countP_append, hcount]
    exact h.eof

theorem Inv.deliver {k : Nat} (h : Inv t) (hk : k ∉ t.ended) (hc : t.unread = c :: cs) (hdata : c ≠ ctrl 'D') : Inv (t.deliver k c) where
  taken := taken_lt hc
  order := by
    show (t.delivered ++ [(k, c)]).map Prod.snd = (t.committed.take (t.taken + 1)).filter _
    rw [take_succ hc, List.map_append, h.order, List.filter_append]
    simp [hdata]
  nodup := h.nodup
  eof := by
    have hother : t.ended.countP (fun k' => (t.deliver k c).got k' = []) = t.ended.countP (fun k' => t.got k' = []) := by
      refine List.countP_congr fun k' hk' => ?_
      have hne : k ≠ k' := fun hkk => hk (hkk ▸ hk')
      rw [got_deliver, if_neg hne]
    show t.ended.countP _ = (t.committed.take (t.taken + 1)).count (ctrl 'D')
    rw [hother, h.eof, take_succ hc, List.count_append]
    simp [hdata]

theorem Inv.eofRead {k : Nat} (h : Inv t) (hk : k ∉ t.ended) (hc : t.unread = ctrl 'D' :: cs) (hgot : t.got k = []) :
    Inv (t.skip.finish k) where
  taken := taken_lt hc
  order := by
    show t.delivered.map Prod.snd = (t.committed.take (t.taken + 1)).filter _
    rw [take_succ hc, h.order, List.filter_append]
    simp
  nodup := nodup_concat h.nodup hk
  eof := by
    have hcount : [k].countP (fun k => t.got k = []) = 1 := by simp [hgot]
    show (t.ended ++ [k]).countP (fun k => t.got k = []) = (t.committed.take (t.taken + 1)).count (ctrl 'D')
    rw [List.countP_append, hcount, h.eof, take_succ hc, List.count_append]
    simp

theorem Inv.read {k : Nat} (n : Int) (h : Inv t) (hk : k ∉ t.ended) (hc : t.unread = c :: cs) : Inv (t.read k n c) := by
  rw [Tty.read]
  split_ifs with heof hgot hlast
  · subst heof
    exact h.eofRead hk hc hgot
  · exact h.finish hk hgot
  · refine (h.deliver hk hc heof).finish hk ?_
    rw [got_deliver, if_pos rfl]
    simp
  · exact h.deliver hk hc heof

theorem step_key {t : Tty} (h : discipline.step t (.key c) = .next t') : t' = t.key c := by
  cases h
  rfl

theorem step_read {t : Tty} {k : Nat} (h : discipline.step t (.read k n) = .next t') :
    ∃ c cs, t.unread = c :: cs ∧ k ∉ t.ended ∧ t' = t.read k n c := by
  change t.step (.read k n) = .next t' at h
  rw [step] at h
  cases hc : t.unread with
  | nil =>
    rw [hc] at h
    cases h
  | cons c cs =>
    rw [hc] at h
    by_cases hk : k ∈ t.ended
    · simp [hk] at h
    · refine ⟨c, cs, rfl, hk, ?_⟩
      simpa [hk, eq_comm] using h

theorem inv_of_run {acts : List Act} (h : discipline.Run acts t) : Inv t := by
  refine Automaton.Run.invariant (I := fun _ t => Inv t) ?_ ?_ h
  · rintro t rfl
    exact ⟨le_rfl, rfl, .nil, rfl⟩
  · intro acts t a t' hinv hstep
    cases a with
    | key c =>
      rw [step_key hstep]
      exact hinv.typed (typed_key t c)
    | read k n =>
      obtain ⟨c, cs, hc, hk, rfl⟩ := step_read hstep
      exact hinv.read n hk hc

end Tty

/-! ### The ring shows the discipline's state -/

theorem inputBuf_dvd : inputBuf ∣ 2 ^ 32 := by decide

theorem inputBuf_lt : inputBuf < 2 ^ 32 := by decide

/-- The ring holds what has not been taken and then the line `l`. -/
structure Shows (v : Input) (t : Tty) (l : List UInt8) : Prop where
  holds : Ring.Holds v.buf v.r v.e (t.unread ++ l)
  w : v.w = v.r + UInt32.ofNat t.unread.length
  plain : newline ∉ l

namespace Shows

variable {v : Input} {t : Tty} {l : List UInt8}

theorem length_le (h : Shows v t l) : t.unread.length + l.length ≤ inputBuf := by
  simpa using h.holds.le

theorem unread (h : Shows v t l) : Ring.Holds v.buf v.r v.w t.unread := by
  rw [h.w]
  exact h.holds.left

theorem edited_iff (h : Shows v t l) : v.e = v.w ↔ l = [] := by
  have hle := h.length_le
  have hlt := inputBuf_lt
  rw [h.holds.count, h.w, List.length_append]
  constructor
  · intro heq
    have hlen := Ring.add_ofNat_inj v.r (by omega) (by omega) heq
    exact List.eq_nil_of_length_eq_zero (by omega)
  · rintro rfl
    rfl

theorem room_iff (h : Shows v t l) : v.e - v.r < UInt32.ofNat inputBuf ↔ t.unread.length + l.length < inputBuf := by
  rw [UInt32.lt_iff_toNat_lt, Ring.Holds.sub inputBuf_lt h.holds, List.length_append]
  rfl

theorem erase {c : UInt8} (h : Shows v t (l ++ [c])) : v.get (v.e - 1) = c ∧ Shows { v with e := v.e - 1 } t l := by
  have hholds := h.holds
  rw [← List.append_assoc] at hholds
  obtain ⟨hget, hrest⟩ := hholds.unpush
  exact ⟨hget, hrest, h.w, fun hmem => h.plain (List.mem_append_left _ hmem)⟩

theorem backspace (h : Shows v t l) : Shows (if v.e = v.w then v else { v with e := v.e - 1 }) t l.dropLast := by
  obtain rfl | ⟨l, c, rfl⟩ := List.eq_nil_or_concat' l
  · rw [if_pos (h.edited_iff.mpr rfl)]
    exact h
  · rw [if_neg fun he => by simpa using h.edited_iff.mp he, List.dropLast_concat]
    exact h.erase.2

theorem take {u : Tty} {c : UInt8} (h : Shows v t l) (hc : t.unread = c :: u.unread) : Shows { v with r := v.r + 1 } u l := by
  have hholds := h.holds
  have hw := h.w
  rw [hc] at hholds hw
  refine ⟨hholds.pop.2, ?_, h.plain⟩
  rw [hw, List.length_cons, Ring.ofNat_succ, add_comm (UInt32.ofNat _), ← add_assoc]

theorem next {c : UInt8} {cs : List UInt8} (h : Shows v t l) (hc : t.unread = c :: cs) : v.r ≠ v.w ∧ v.get v.r = c := by
  have hholds := h.unread
  rw [hc] at hholds
  exact ⟨fun heq => List.cons_ne_nil _ _ ((Ring.Holds.empty_iff inputBuf_lt hholds).mp heq), hholds.pop.1⟩

theorem congr {u : Tty} (h : Shows v t l) (hu : u.unread = t.unread) : Shows v u l :=
  ⟨hu ▸ h.holds, hu ▸ h.w, h.plain⟩

end Shows

variable {s : State} {t : Tty} {v : Input} {i k : Nat} {c : UInt8} {as : List Label}

/-- The characters that `consoleintr` gets at the point. -/
def IntrPc.fetched : IntrPc → List UInt8
  | .loop (c :: _) => [c]
  | _ => []

/-- The line in the ring. While a line is being killed what is left of it is still there. -/
def IntrPc.Line (t : Tty) (l : List UInt8) : IntrPc → Prop
  | .killLine _ => t.line = []
  | _ => l = t.line

theorem Tty.unread_commit (ht : t.taken ≤ t.committed.length) (cs l : List UInt8) :
    Tty.unread { t with committed := t.committed ++ cs, line := l } = t.unread ++ cs :=
  List.drop_append_of_le_length ht

variable {v' : Input} {pc' : IntrPc}

theorem insertChar_shows {cs : List UInt8} {es : List InputEvent}
    (h : insertChar v c cs = .run v' pc' es) (hv : Shows v t t.line) (ht : t.taken ≤ t.committed.length) (hc : c ≠ ctrl 'P' ∧ c ≠ ctrl 'U' ∧ ¬(c = ctrl 'H' ∨ c = 0x7f)) :
    es = [] ∧ ∃ l, Shows v' (t.key c) l ∧ pc'.Line (t.key c) l := by
  rw [Tty.key, if_neg hc.1, if_neg hc.2.1, if_neg hc.2.2]
  by_cases hroom : c ≠ 0 ∧ t.unread.length + t.line.length < inputBuf
  · rw [insertChar, if_pos (by rwa [hv.room_iff])] at h
    rw [if_pos hroom]
    generalize hc' : (if c = carriageReturn then newline else c) = c' at h ⊢
    have hpush : Ring.Holds (Function.update v.buf (Ring.slot inputBuf v.e) c') v.r (v.e + 1) (t.unread ++ (t.line ++ [c'])) := by
      rw [← List.append_assoc]
      exact hv.holds.push inputBuf_dvd (by simpa using hroom.2) c'
    have hfull : v.e + 1 = v.r + UInt32.ofNat inputBuf ↔ t.unread.length + (t.line ++ [c']).length = inputBuf := by
      rw [Ring.Holds.full_iff inputBuf_lt hpush, List.length_append]
    have hcommit : (c' = newline ∨ c' = ctrl 'D' ∨ v.e + 1 = v.r + UInt32.ofNat inputBuf) ↔
        c' = newline ∨ c' = ctrl 'D' ∨ t.unread.length + (t.line ++ [c']).length = inputBuf := by rw [hfull]
    by_cases hlast : c' = newline ∨ c' = ctrl 'D' ∨ v.e + 1 = v.r + UInt32.ofNat inputBuf
    · simp only [if_pos hlast] at h
      cases h
      rw [Tty.insert, if_pos (hcommit.mp hlast)]
      refine ⟨rfl, [], ⟨?_, ?_, List.not_mem_nil⟩, rfl⟩
      · rw [Tty.unread_commit ht, List.append_nil]
        exact hpush
      · rw [Tty.unread_commit ht]
        exact hpush.count
    · simp only [if_neg hlast] at h
      cases h
      rw [Tty.insert, if_neg (hcommit.not.mp hlast)]
      refine ⟨rfl, _, ⟨hpush, hv.w, ?_⟩, rfl⟩
      rw [List.mem_append, List.mem_singleton, not_or]
      exact ⟨hv.plain, fun hnl => hlast (.inl hnl.symm)⟩
  · rw [insertChar, if_neg (by rwa [hv.room_iff])] at h
    cases h
    rw [if_neg hroom]
    exact ⟨rfl, _, hv, rfl⟩

variable {pc : IntrPc} {killed : Bool}

theorem consoleintr_shows {l : List UInt8} {es : List InputEvent}
    (h : consoleintr pc v killed = .run v' pc' es) (hv : Shows v t l) (hl : pc.Line t l) (ht : t.taken ≤ t.committed.length) :
    es = [] ∧ ∃ l', Shows v' (pc.fetched.foldl Tty.key t) l' ∧ pc'.Line (pc.fetched.foldl Tty.key t) l' := by
  cases pc with
  | loop cs =>
    cases cs with
    | nil => cases h
    | cons c cs =>
      obtain rfl : l = t.line := hl
      show es = [] ∧ ∃ l', Shows v' (t.key c) l' ∧ pc'.Line (t.key c) l'
      rw [consoleintr] at h
      by_cases hP : c = ctrl 'P'
      · rw [if_pos hP] at h
        cases h
        rw [Tty.key, if_pos hP]
        exact ⟨rfl, _, hv, rfl⟩
      rw [if_neg hP] at h
      by_cases hU : c = ctrl 'U'
      · rw [if_pos hU] at h
        cases h
        rw [Tty.key, if_neg hP, if_pos hU]
        exact ⟨rfl, _, hv.congr rfl, rfl⟩
      rw [if_neg hU] at h
      by_cases hH : c = ctrl 'H' ∨ c = 0x7f
      · rw [if_pos hH] at h
        cases h
        rw [Tty.key, if_neg hP, if_neg hU, if_pos hH]
        exact ⟨rfl, _, hv.backspace.congr rfl, rfl⟩
      · rw [if_neg hH] at h
        exact insertChar_shows h hv ht ⟨hP, hU, hH⟩
  | killLine cs =>
    change t.line = [] at hl
    show es = [] ∧ ∃ l', Shows v' t l' ∧ pc'.Line t l'
    simp only [consoleintr] at h
    obtain rfl | ⟨l, c, rfl⟩ := List.eq_nil_or_concat' l
    · rw [if_neg fun hcond => hcond.1 (hv.edited_iff.mpr rfl)] at h
      cases h
      exact ⟨rfl, [], hv, hl.symm⟩
    · -- the line has no newline, so the loop goes on to its start
      obtain ⟨hget, hrest⟩ := hv.erase
      have hplain : c ≠ newline := fun hnl => hv.plain (by simp [hnl])
      rw [if_pos ⟨fun he => by simpa using hv.edited_iff.mp he, hget.symm ▸ hplain⟩] at h
      cases h
      exact ⟨rfl, l, hrest, hl⟩
  | wake cs => cases h

/-! ### Runs of the system are runs of the discipline -/

/-- The characters that `consoleintr` fetches in a step. -/
def getc (s : State) : Label → List UInt8
  | .go i =>
    match s.pos i with
    | .inside _ (.consoleintr pc) => pc.fetched
    | _ => []
  | _ => []

def Event.char? : Event → Option UInt8
  | .input (.char c) => some c
  | _ => none

/-- The characters given to the reads, each with the number of the call. -/
def chars (tr : List (Nat × Event)) : List (Nat × UInt8) := tr.filterMap fun e => e.2.char?.map (e.1, ·)

theorem chars_emit (tr : List (Nat × Event)) (k : Nat) (es : List Event) :
    chars (tr ++ es.map (k, ·)) = chars tr ++ (es.filterMap Event.char?).map (k, ·) := by
  rw [chars, List.filterMap_append, ← chars, List.filterMap_map, List.map_filterMap]
  rfl

/-- How far the call `k`, a read of `n` characters, has come. -/
def ConsolePc.Ready (t : Tty) (k : Nat) (n : Int) : ConsolePc → Prop
  | .loop m => m = n - (t.got k).length ∧ 0 ≤ m ∧ (k ∈ t.ended ↔ m = 0)
  | .sleep m => m = n - (t.got k).length ∧ 0 < m ∧ k ∉ t.ended
  | .ret m => m = n - (t.got k).length ∧ k ∈ t.ended

def Killing (s : State) : Prop := ∃ i k cs, s.pos i = .inside k (.consoleintr (.killLine cs))

structure Sim (s : State) (t : Tty) : Prop where
  ring : ∃ l, Shows s.data.input t l ∧ (Killing s ∧ t.line = [] ∨ ¬Killing s ∧ l = t.line)
  chars : chars s.trace = t.delivered
  active : ∀ i k n pc, (s.pos i).call? = some k → (s.pos i).point? = some (.consoleread n pc) → pc.Ready t k n
  fresh : ∀ k, k ∈ t.ended ∨ t.got k ≠ [] → k < s.calls.length
  returned : ∀ (k : Nat) (r : Int), (k, .input (.returned r)) ∈ s.trace → k ∈ t.ended ∧ r = (t.got k).length

structure Tty.Change (k : Nat) (es : List Event) (t t' : Tty) : Prop where
  delivered : t'.delivered = t.delivered ++ (es.filterMap Event.char?).map (k, ·)
  ended : ∀ k', k' ∈ t'.ended ↔ k' ∈ t.ended ∨ k' = k ∧ k ∈ t'.ended
  silent : k ∈ t.ended → es.filterMap Event.char? = []

variable {es : List Event}

theorem Tty.Change.got {k k' : Nat} (h : Tty.Change k es t t') (hk : k ≠ k') : t'.got k' = t.got k' := by
  rw [Tty.got, h.delivered, own_append, own_map, if_neg hk, List.append_nil]
  rfl

theorem Tty.Change.got_over {k k' : Nat} (h : Tty.Change k es t t') (hk : k' ∈ t.ended) : t'.got k' = t.got k' := by
  by_cases hkk : k = k'
  · subst hkk
    rw [Tty.got, h.delivered, h.silent hk]
    simp [Tty.got]
  · exact h.got hkk

theorem ConsolePc.Ready.congr {pc : ConsolePc} (h : pc.Ready t k n) (hgot : t'.got k = t.got k)
    (hended : k ∈ t'.ended ↔ k ∈ t.ended) : pc.Ready t' k n := by
  cases pc with
  | loop m => exact ⟨hgot ▸ h.1, h.2.1, hended.trans h.2.2⟩
  | sleep m => exact ⟨hgot ▸ h.1, h.2.1, hended.not.mpr h.2.2⟩
  | ret m => exact ⟨hgot ▸ h.1, hended.mpr h.2⟩

variable {s' : State}

theorem Sim.advance (hinv : record.Inv s) (h : Sim s t)
    (hcalls : s'.calls = s.calls) (hcall : (s.pos i).call? = some k) (hpos : ∀ j, j ≠ i → s'.pos j = s.pos j)
    (htrace : s'.trace = s.trace ++ es.map (k, ·)) (hchange : Tty.Change k es t t')
    (hring : ∃ l, Shows s'.data.input t' l ∧ (Killing s' ∧ t'.line = [] ∨ ¬Killing s' ∧ l = t'.line))
    (hi : ∀ k' n pc, (s'.pos i).call? = some k' → (s'.pos i).point? = some (.consoleread n pc) → k' = k ∧ pc.Ready t' k n)
    (hret : ∀ r : Int, .input (.returned r) ∈ es → k ∈ t'.ended ∧ r = (t'.got k).length) : Sim s' t' where
  ring := hring
  chars := by rw [htrace, chars_emit, h.chars, hchange.delivered]
  active := by
    intro j k' n pc hk' hpc
    by_cases hji : j = i
    · subst hji
      obtain ⟨rfl, hready⟩ := hi k' n pc hk' hpc
      exact hready
    · rw [hpos j hji] at hk' hpc
      have hkk : k ≠ k' := fun heq => hji (hinv.unique j i k' hk' (heq ▸ hcall))
      refine (h.active j k' n pc hk' hpc).congr (hchange.got hkk) ?_
      rw [hchange.ended]
      exact ⟨fun hor => hor.resolve_right fun hand => hkk hand.1.symm, .inl⟩
  fresh := by
    intro k' hk'
    rw [hcalls]
    by_cases hkk : k = k'
    · subst hkk
      exact hinv.lt hcall
    · refine h.fresh k' ?_
      rw [hchange.got hkk, hchange.ended] at hk'
      exact hk'.imp_left fun hor => hor.resolve_right fun hand => hkk hand.1.symm
  returned := by
    intro k' r hr
    rw [htrace, List.mem_append] at hr
    rcases hr with hold | hnew
    · obtain ⟨hk', hlen⟩ := h.returned k' r hold
      rw [hchange.got_over hk']
      exact ⟨(hchange.ended k').mpr (.inl hk'), hlen⟩
    · obtain ⟨e, he, heq⟩ := List.mem_map.mp hnew
      obtain ⟨rfl, rfl⟩ := Prod.mk.inj heq
      exact hret r he

theorem Tty.Change.same (hes : es.filterMap Event.char? = [])
    (hdelivered : t'.delivered = t.delivered) (hended : t'.ended = t.ended) : Tty.Change k es t t' where
  delivered := by simp [hes, hdelivered]
  ended k' := by
    rw [hended]
    exact ⟨.inl, fun hor => hor.elim id fun hand => hand.1 ▸ hand.2⟩
  silent _ := hes

theorem Tty.Change.deliver (c : UInt8) (hk : k ∉ t.ended) :
    Tty.Change k [.input (.char c)] t (t.deliver k c) :=
  ⟨rfl, fun _ => ⟨.inl, fun hor => hor.elim id fun hand => hand.1 ▸ hand.2⟩, fun hmem => absurd hmem hk⟩

theorem Tty.Change.finish (h : Tty.Change k es t t') : Tty.Change k es t (t'.finish k) where
  delivered := h.delivered
  ended k' := by
    have hold := h.ended k'
    simp only [Tty.finish, List.mem_append, List.mem_singleton]
    tauto
  silent := h.silent

theorem mem_finish (t : Tty) (k : Nat) : k ∈ (t.finish k).ended := by simp [Tty.finish]

variable {m : Int}

theorem consoleread_takes {pc' : ConsolePc} {es : List InputEvent}
    {cs : List UInt8} (h : consoleread n (.loop m) v false = .run v' pc' es) (hv : Shows v t t.line)
    (hm : m = n - (t.got k).length) (hpos : 0 < m) (hk : k ∉ t.ended) (hc : t.unread = c :: cs) :
    Shows v' (t.read k n c) (t.read k n c).line ∧ pc'.Ready (t.read k n c) k n ∧
      Tty.Change k (es.map .input) t (t.read k n c) ∧ ∀ r, InputEvent.returned r ∉ es := by
  obtain ⟨hbytes, hget⟩ := hv.next hc
  rw [consoleread, if_pos hpos, if_neg hbytes, hget] at h
  have hskip : Shows { v with r := v.r + 1 } t.skip t.line := by
    refine hv.take (c := c) ?_
    rw [Tty.unread_skip, hc]
    rfl
  have hdeliver : Shows { v with r := v.r + 1 } (t.deliver k c) t.line := hskip.congr rfl
  have hgot : (t.deliver k c).got k = t.got k ++ [c] := by rw [Tty.got_deliver, if_pos rfl]
  have hlen : (((t.deliver k c).got k).length : Int) = (t.got k).length + 1 := by
    rw [hgot, List.length_append]
    rfl
  rw [Tty.read]
  by_cases heof : c = ctrl 'D'
  · rw [if_pos heof] at h ⊢
    by_cases hnone : t.got k = []
    · have hsame : Tty.Change k [] t t.skip := .same rfl rfl rfl
      rw [hnone] at hm
      rw [if_neg (by simp at hm; omega)] at h
      cases h
      rw [if_pos hnone]
      refine ⟨hskip.congr rfl, ⟨?_, mem_finish _ k⟩, hsame.finish, by simp⟩
      rw [hm, ← hnone]
      rfl
    · have hsame : Tty.Change k [] t t := .same rfl rfl rfl
      have hbegun : 0 < (t.got k).length := List.length_pos_iff.mpr hnone
      rw [if_pos (by omega)] at h
      cases h
      rw [if_neg hnone]
      exact ⟨hv.congr rfl, ⟨hm, mem_finish t k⟩, hsame.finish, by simp⟩
  · rw [if_neg heof] at h ⊢
    cases h
    by_cases hnl : c = newline
    · rw [if_pos hnl, if_pos (.inl hnl)]
      refine ⟨hdeliver.congr rfl, ⟨?_, mem_finish _ k⟩, (Tty.Change.deliver c hk).finish, by simp⟩
      show m - 1 = n - ((t.deliver k c).got k).length
      omega
    · rw [if_neg hnl]
      by_cases hlast : (((t.deliver k c).got k).length : Int) = n
      · rw [if_pos (.inr hlast)]
        refine ⟨hdeliver.congr rfl, ⟨?_, by omega, iff_of_true (mem_finish _ k) (by omega)⟩, (Tty.Change.deliver c hk).finish, by simp⟩
        show m - 1 = n - ((t.deliver k c).got k).length
        omega
      · rw [if_neg (by tauto)]
        refine ⟨hdeliver, ⟨?_, by omega, iff_of_false hk (by omega)⟩, .deliver c hk, by simp⟩
        omega

theorem consoleread_waits {pc' : ConsolePc} {es : List InputEvent}
    (h : consoleread n (.loop m) v false = .run v' pc' es) (hv : Shows v t t.line)
    (hready : ConsolePc.Ready t k n (.loop m)) (hidle : m = 0 ∨ t.unread = []) : v' = v ∧ es = [] ∧ pc'.Ready t k n := by
  obtain ⟨hm, hle, hended⟩ := hready
  by_cases hpos : 0 < m
  · have hnil := hidle.resolve_left (by omega)
    have hempty : v.r = v.w := (Ring.Holds.empty_iff inputBuf_lt hv.unread).mpr hnil
    rw [consoleread, if_pos hpos, if_pos hempty] at h
    cases h
    exact ⟨rfl, rfl, hm, hpos, hended.not.mpr (by omega)⟩
  · rw [consoleread, if_neg hpos] at h
    cases h
    exact ⟨rfl, rfl, hm, hended.mpr (by omega)⟩

theorem consoleread_leave {pc : ConsolePc} {es : List InputEvent}
    (h : consoleread n pc v killed = .leave es) : (killed = true ∧ es = [.returned (-1)]) ∨ ∃ m, pc = .ret m ∧ es = [.returned (n - m)] := by
  cases pc with
  | loop m =>
    simp only [consoleread] at h
    split_ifs at h with hpos hempty hkilled
    cases h
    exact .inl ⟨hkilled, rfl⟩
  | sleep m => cases h
  | ret m =>
    cases h
    exact .inr ⟨m, rfl, rfl⟩

theorem consoleintr_leave {es : List InputEvent}
    (h : consoleintr pc v killed = .leave es) : pc = .loop [] ∧ es = [] := by
  cases pc with
  | loop cs =>
    cases cs with
    | nil =>
      cases h
      exact ⟨rfl, rfl⟩
    | cons c cs =>
      simp only [consoleintr, insertChar] at h
      split_ifs at h
  | killLine cs =>
    simp only [consoleintr] at h
    split_ifs at h
  | wake cs => cases h

/-! ### One step -/

theorem Killing.other (h : Killing s) (hpos : ∀ j, j ≠ i → s'.pos j = s.pos j)
    (hi : ∀ k cs, s.pos i ≠ .inside k (.consoleintr (.killLine cs))) : Killing s' := by
  obtain ⟨j, k, cs, hj⟩ := h
  have hji : j ≠ i := fun heq => hi k cs (heq ▸ hj)
  exact ⟨j, k, cs, (hpos j hji).trans hj⟩

theorem killing_congr (hpos : ∀ j, j ≠ i → s'.pos j = s.pos j)
    (hi : ∀ k cs, s.pos i ≠ .inside k (.consoleintr (.killLine cs)))
    (hi' : ∀ k cs, s'.pos i ≠ .inside k (.consoleintr (.killLine cs))) : Killing s' ↔ Killing s :=
  ⟨fun hk => hk.other (fun j hj => (hpos j hj).symm) hi', fun hk => hk.other hpos hi⟩

theorem killing_iff {q : Point} (hwf : Wf code s) (hpos : s.pos i = .inside k q) (hq : q.lock = .input) :
    Killing s ↔ ∃ cs, q = .consoleintr (.killLine cs) := by
  constructor
  · rintro ⟨j, k', cs, hj⟩
    have hholds : (s.pos i).Holds code .input := by
      rw [hpos]
      exact hq
    have hholds' : (s.pos j).Holds code .input := by
      rw [hj]
      rfl
    obtain rfl := hwf.mutex hholds hholds'
    rw [hpos] at hj
    exact ⟨cs, (Pos.inside.inj hj).2⟩
  · rintro ⟨cs, rfl⟩
    exact ⟨i, k, cs, hpos⟩

theorem Sim.line (hwf : Wf code s) (h : Sim s t)
    (hpos : s.pos i = .inside k (.consoleintr pc)) : ∃ l, Shows s.data.input t l ∧ pc.Line t l := by
  obtain ⟨l, hl, hor⟩ := h.ring
  rw [killing_iff hwf hpos rfl] at hor
  refine ⟨l, hl, ?_⟩
  rcases hor with ⟨⟨cs, hcs⟩, hnil⟩ | ⟨hnot, heq⟩
  · obtain rfl := Point.consoleintr.inj hcs
    exact hnil
  · cases pc with
    | killLine cs => exact absurd ⟨cs, rfl⟩ hnot
    | _ => exact heq

theorem Sim.alone {pc : ConsolePc} (hwf : Wf code s) (h : Sim s t)
    (hpos : s.pos i = .inside k (.consoleread n pc)) : Shows s.data.input t t.line := by
  obtain ⟨l, hl, hor⟩ := h.ring
  rw [killing_iff hwf hpos rfl] at hor
  rcases hor with ⟨⟨cs, hcs⟩, -⟩ | ⟨-, rfl⟩
  · cases hcs
  · exact hl

theorem Sim.move (hinv : record.Inv s) (h : Sim s t)
    (hcalls : s'.calls = s.calls) (hcall : (s.pos i).call? = some k) (hpos : ∀ j, j ≠ i → s'.pos j = s.pos j)
    (htrace : s'.trace = s.trace ++ es.map (k, ·)) (hinput : s'.data.input = s.data.input) (hes : es.filterMap Event.char? = [])
    (hkill : ∀ k cs, s.pos i ≠ .inside k (.consoleintr (.killLine cs)))
    (hkill' : ∀ k cs, s'.pos i ≠ .inside k (.consoleintr (.killLine cs)))
    (hi : ∀ k' n pc, (s'.pos i).call? = some k' → (s'.pos i).point? = some (.consoleread n pc) → k' = k ∧ pc.Ready t k n)
    (hret : ∀ r : Int, .input (.returned r) ∈ es → k ∈ t.ended ∧ r = (t.got k).length) : Sim s' t := by
  refine h.advance hinv hcalls hcall hpos htrace (.same hes rfl rfl) ?_ hi hret
  rw [hinput, killing_congr hpos hkill hkill']
  exact h.ring

variable {d : Shared}

/-- A call on something else neither touches the input nor tells anything about it. -/
theorem other_run {q q' : Point} {d' : Shared} (hq : q.lock ≠ .input)
    (h : q.act d killed = .run d' q' es) : d'.input = d.input ∧ ∀ e ∈ es, ∀ x, e ≠ .input x := by
  cases q with
  | consoleread | consoleintr => exact absurd rfl hq
  | _ =>
    obtain ⟨v, pc', es, -, rfl, -, rfl⟩ := Action.lift_eq_run.mp h
    exact ⟨rfl, by simp⟩

theorem other_leave {q : Point} (hq : q.lock ≠ .input)
    (h : q.act d killed = .leave es) : ∀ e ∈ es, ∀ x, e ≠ .input x := by
  cases q with
  | consoleread | consoleintr => exact absurd rfl hq
  | _ =>
    obtain ⟨es, -, rfl⟩ := Action.lift_eq_leave.mp h
    simp

theorem quiet_chars (h : ∀ e ∈ es, ∀ x, e ≠ .input x) : es.filterMap Event.char? = [] := by
  refine List.filterMap_eq_nil_iff.mpr fun e he => ?_
  cases e with
  | input x => exact absurd rfl (h _ he x)
  | _ => rfl

/-- The discipline types what is fetched, and goes on to a state that the new one shows. -/
def Follows (s' : State) (t : Tty) (fetched : List UInt8) : Prop :=
  ∃ acts t', Tty.discipline.exec t acts = some t' ∧ acts.filterMap Tty.Act.key? = fetched ∧ Sim s' t'

theorem Follows.still (h : Sim s' t) : Follows s' t [] := ⟨[], t, rfl, rfl, h⟩

theorem consoleread_follows {pc pc' : ConsolePc} {es : List InputEvent}
    (hwf : Wf code s) (hwf' : Wf code s') (hinv : record.Inv s) (h : Sim s t) (hpos : s.pos i = .inside k (.consoleread n pc))
    (hact : consoleread n pc s.data.input false = .run v pc' es)
    (hs' : s' = ({ s with data := { s.data with input := v } }.goto i (.inside k (.consoleread n pc'))).emit k (es.map .input)) :
    Follows s' t [] := by
  have hshows := h.alone hwf hpos
  have hcall : (s.pos i).call? = some k := by rw [hpos]; rfl
  have hpos' : s'.pos i = .inside k (.consoleread n pc') := by simp [hs', State.emit]
  have hother : ∀ j, j ≠ i → s'.pos j = s.pos j := fun j hj => by simp [hs', State.emit, hj]
  cases pc with
  | loop m =>
    have hready : ConsolePc.Ready t k n (.loop m) := h.active i k n _ hcall (by rw [hpos]; rfl)
    by_cases hidle : m = 0 ∨ t.unread = []
    · obtain ⟨rfl, rfl, hready'⟩ := consoleread_waits hact hshows hready hidle
      have htrace : s'.trace = s.trace ++ ([] : List Event).map (k, ·) := by
        rw [hs']
        rfl
      refine .still (h.move hinv ?_ hcall hother htrace ?_ rfl (by simp [hpos]) (by simp [hpos']) ?_ (by simp))
      · rw [hs']
        rfl
      · rw [hs']
        rfl
      · simpa [hpos', Pos.call?, Pos.point?] using hready'
    · obtain ⟨hm, hunread⟩ := not_or.mp hidle
      obtain ⟨c, cs, hc⟩ := List.exists_cons_of_ne_nil hunread
      obtain ⟨hlen, hle, hended⟩ := hready
      have hk : k ∉ t.ended := hended.not.mpr hm
      obtain ⟨hshows', hready', hchange, hret⟩ := consoleread_takes hact hshows hlen (by omega) hk hc
      have hread : Tty.discipline.exec t [.read k n] = some (t.read k n c) := by
        simp [Automaton.exec, Tty.discipline, Tty.step, hc, hk, Outcome.state?]
      have hnot : ¬Killing s' := by
        rw [killing_iff hwf' hpos' rfl]
        simp
      refine ⟨[.read k n], _, hread, rfl, ?_⟩
      refine h.advance hinv ?_ hcall hother ?_ hchange ⟨_, ?_, .inr ⟨hnot, rfl⟩⟩ ?_ ?_
      · rw [hs']
        rfl
      · rw [hs']
        rfl
      · rw [hs']
        exact hshows'
      · simpa [hpos', Pos.call?, Pos.point?] using hready'
      · intro r hr
        obtain ⟨e, he, heq⟩ := List.mem_map.mp hr
        obtain rfl := Event.input.inj heq
        exact absurd he (hret r)
  | _ => cases hact

theorem consoleintr_follows {es : List InputEvent}
    (hwf : Wf code s) (hwf' : Wf code s') (hinv : record.Inv s) (ht : Tty.Inv t) (h : Sim s t)
    (hpos : s.pos i = .inside k (.consoleintr pc)) (hact : consoleintr pc s.data.input killed = .run v pc' es)
    (hs' : s' = ({ s with data := { s.data with input := v } }.goto i (.inside k (.consoleintr pc'))).emit k (es.map .input)) :
    Follows s' t pc.fetched := by
  obtain ⟨l, hl, hline⟩ := h.line hwf hpos
  obtain ⟨rfl, l', hl', hline'⟩ := consoleintr_shows hact hl hline ht.taken
  have hcall : (s.pos i).call? = some k := by rw [hpos]; rfl
  have hpos' : s'.pos i = .inside k (.consoleintr pc') := by simp [hs', State.emit]
  have htyped : Tty.discipline.exec t (pc.fetched.map .key) = some (pc.fetched.foldl Tty.key t) ∧
      Tty.Change k [] t (pc.fetched.foldl Tty.key t) := by
    cases pc with
    | loop cs =>
      cases cs with
      | nil => exact ⟨rfl, .same rfl rfl rfl⟩
      | cons c cs => exact ⟨rfl, .same rfl (Tty.typed_key t c).delivered (Tty.typed_key t c).ended⟩
    | _ => exact ⟨rfl, .same rfl rfl rfl⟩
  refine ⟨pc.fetched.map .key, _, htyped.1, ?_, ?_⟩
  · rw [List.filterMap_map]
    exact List.filterMap_some
  · have htrace : s'.trace = s.trace ++ ([] : List Event).map (k, ·) := by
      rw [hs']
      rfl
    refine h.advance hinv ?_ hcall (fun j hj => by simp [hs', State.emit, hj]) htrace htyped.2 ⟨l', ?_, ?_⟩ ?_ (by simp)
    · rw [hs']
      rfl
    · rw [hs']
      exact hl'
    · rw [killing_iff hwf' hpos' rfl]
      cases pc' with
      | killLine cs => exact .inl ⟨⟨cs, rfl⟩, hline'⟩
      | _ => exact .inr ⟨by simp, hline'⟩
    · simp [hpos', Pos.point?]

/-- A call is not put to sleep while it kills the line. -/
theorem killLine_inside (hrun : system.Run as s) (cs : List UInt8)
    (hnot : ∀ k q, s.pos i ≠ .inside k q) : (s.pos i).point? ≠ some (.consoleintr (.killLine cs)) := by
  intro hq
  refine resume_of_run (R := fun q => ∀ cs, q ≠ .consoleintr (.killLine cs)) ?_ ?_ hrun i _ hq (fun k => hnot k _) cs rfl
  · intro g cs hg
    cases g <;> cases hg
  · rintro q d killed c q' hact cs rfl
    cases q with
    | consoleintr pc =>
      obtain ⟨e, pc', hsleep, -, -⟩ := Action.lift_eq_sleep.mp hact
      exact consoleintr_sleep hsleep
    | _ =>
      obtain ⟨e, pc', -, -, hq'⟩ := Action.lift_eq_sleep.mp hact
      cases hq'

theorem Sim.pass {p : Pos Chan Point} (hrun : system.Run as s) (h : Sim s t)
    (hnot : ∀ k q, s.pos i ≠ .inside k q) (hpos : s'.pos = Function.update s.pos i p) (hcall : p.call? = (s.pos i).call?)
    (hpoint : p.point? = (s.pos i).point?) (hsome : ∃ k, (s.pos i).call? = some k) (hdata : s'.data = s.data)
    (htrace : s'.trace = s.trace) (hcalls : s'.calls = s.calls) : Sim s' t := by
  obtain ⟨k, hk⟩ := hsome
  have hi : s'.pos i = p := by rw [hpos, Function.update_self]
  have htrace' : s'.trace = s.trace ++ ([] : List Event).map (k, ·) := by simpa using htrace
  refine h.move (.of_run hrun) hcalls hk (fun j hj => by rw [hpos, Function.update_of_ne hj]) htrace' (by rw [hdata]) rfl
    (fun k cs => hnot k _) ?_ ?_ nofun
  · intro k cs heq
    rw [hi] at heq
    refine killLine_inside hrun cs hnot ?_
    rw [← hpoint, heq]
    rfl
  · intro k' n pc hk' hpc
    rw [hi, hcall] at hk'
    rw [hi, hpoint] at hpc
    obtain rfl : k' = k := Option.some.inj (hk'.symm.trans hk)
    exact ⟨rfl, h.active i k' n pc hk hpc⟩

theorem Sim.call {g : Call} (h : Sim s t) (hpos : s.pos i = .out) (hn : ∀ n, g = .consoleread n → 0 < n) :
    Sim ({ s with calls := s.calls ++ [g] }.goto i (.entering s.calls.length g.entry)) t where
  ring := by
    rw [killing_congr (s := s) (i := i) (fun j hj => by simp [hj]) (by simp [hpos]) (by simp)]
    exact h.ring
  chars := h.chars
  active := by
    intro j k n pc hk hpc
    by_cases hji : j = i
    · subst hji
      have hk' : s.calls.length = k := by simpa [Pos.call?] using hk
      have hpc' : g.entry = .consoleread n pc := by simpa [Pos.point?] using hpc
      cases g with
      | consoleread m =>
        obtain ⟨rfl, rfl⟩ := Point.consoleread.inj hpc'
        have hnew : k ∉ t.ended ∧ t.got k = [] := by
          rw [← not_ne_iff, ← not_or]
          exact fun hor => absurd (h.fresh k hor) (by omega)
        have hpos := hn m rfl
        exact ⟨by simp [hnew.2], hpos.le, iff_of_false hnew.1 hpos.ne'⟩
      | _ => cases hpc'
    · exact h.active j k n pc (by simpa [hji] using hk) (by simpa [hji] using hpc)
  fresh k hk := (h.fresh k hk).trans_le (by simp)
  returned := h.returned

theorem getc_other (hpos : ∀ k pc, s.pos i ≠ .inside k (.consoleintr pc)) : getc s (.go i) = [] := by
  rw [getc]
  split
  · rename_i hi
    exact absurd hi (hpos _ _)
  · rfl

/-- Nothing is fetched at the point, and no line is being killed. -/
def Point.Calm (q : Point) : Prop := ∀ pc, q = .consoleintr pc → pc.fetched = [] ∧ ∀ cs, pc ≠ .killLine cs

section

variable {as : List Label} {s : State} {t : Tty} {i k : Nat} {q q' : Point} (hrun : system.Run as s) (h : Sim s t)
  (hpos : s.pos i = .inside k q)
include hrun h hpos

/-- A step from a calm point that leaves the input as it is. -/
theorem Sim.still (es : List Event) {p : Pos Chan Point} (hq : q.Calm) (hpos' : s'.pos = Function.update s.pos i p) (hcalls : s'.calls = s.calls)
    (htrace : s'.trace = s.trace ++ es.map (k, ·)) (hinput : s'.data.input = s.data.input) (hes : es.filterMap Event.char? = [])
    (hp : ∀ k' cs, p ≠ .inside k' (.consoleintr (.killLine cs)))
    (hi : ∀ k' n pc, p.call? = some k' → p.point? = some (.consoleread n pc) → k' = k ∧ pc.Ready t k n)
    (hret : ∀ r : Int, .input (.returned r) ∈ es → k ∈ t.ended ∧ r = (t.got k).length) : Follows s' t (getc s (.go i)) := by
  have hgetc : getc s (.go i) = [] := by
    rw [getc, hpos]
    cases q with
    | consoleintr pc => exact (hq pc rfl).1
    | _ => rfl
  rw [← Function.update_self i p s.pos, ← hpos'] at hp hi
  rw [hgetc]
  refine .still (h.move (.of_run hrun) hcalls (by rw [hpos]; rfl) (fun j hj => by simp [hpos', hj]) htrace hinput hes ?_ hp hi hret)
  intro k' cs hk'
  exact (hq _ (Pos.inside.inj (hpos.symm.trans hk')).2).2 cs rfl

theorem Sim.run (ht : Tty.Inv t) (hkilled : ∀ n pc, q = .consoleread n pc → s.killed i = false)
    (hact : q.act s.data (s.killed i) = .run d q' es) (hwf' : Wf code (({ s with data := d }.goto i (.inside k q')).emit k es)) :
    Follows (({ s with data := d }.goto i (.inside k q')).emit k es) t (getc s (.go i)) := by
  have hinv : record.Inv s := .of_run hrun
  have hwf : Wf code s := .run hrun
  by_cases hq : q.lock = .input
  · cases q with
    | consoleread n pc =>
      obtain ⟨v, pc', es, hread, rfl, rfl, rfl⟩ := Action.lift_eq_run.mp hact
      rw [hkilled n pc rfl] at hread
      rw [getc_other (by simp [hpos])]
      exact consoleread_follows hwf hwf' hinv h hpos hread rfl
    | consoleintr pc =>
      obtain ⟨v, pc', es, hintr, rfl, rfl, rfl⟩ := Action.lift_eq_run.mp hact
      rw [getc, hpos]
      exact consoleintr_follows hwf hwf' hinv ht h hpos hintr rfl
    | _ => cases hq
  · obtain ⟨hinput, hquiet⟩ := other_run hq hact
    have hq' : q'.lock ≠ .input := by rwa [lock_of_run hact]
    refine h.still hrun hpos _ ?_ rfl rfl rfl hinput (quiet_chars hquiet) ?_ ?_ fun r hr => absurd rfl (hquiet _ hr _)
    · rintro pc rfl
      exact absurd rfl hq
    · rintro k' cs heq
      rw [(Pos.inside.inj heq).2] at hq'
      exact hq' rfl
    · intro k' n pc _ hpc
      rw [Option.some.inj hpc] at hq'
      exact absurd rfl hq'

theorem Sim.wakeup {c : Chan} (hact : q.act s.data (s.killed i) = .wakeup c q') :
    Follows ((s.wake c).goto i (.inside k q')) t (getc s (.go i)) := by
  have hq : q.Calm ∧ (∀ cs, q' ≠ .consoleintr (.killLine cs)) ∧ ∀ n pc, q' ≠ .consoleread n pc := by
    cases q with
    | consoleread n pc =>
      obtain ⟨e, pc', hwake, -, -⟩ := Action.lift_eq_wakeup.mp hact
      exact absurd hwake consoleread_wakeup
    | consoleintr pc =>
      obtain ⟨e, pc', hwake, -, rfl⟩ := Action.lift_eq_wakeup.mp hact
      obtain ⟨cs, rfl, rfl⟩ := consoleintr_wakeup hwake
      exact ⟨fun pc hpc => by cases hpc; exact ⟨rfl, by simp⟩, by simp, by simp⟩
    | _ =>
      obtain ⟨e, pc', -, -, rfl⟩ := Action.lift_eq_wakeup.mp hact
      exact ⟨fun _ => nofun, by simp, by simp⟩
  refine h.still hrun hpos [] hq.1 rfl rfl (by simp [State.wake]) rfl rfl ?_ ?_ (by simp)
  · intro k' cs heq
    exact hq.2.1 cs (Pos.inside.inj heq).2
  · intro k' n pc _ hpc
    exact absurd (Option.some.inj hpc) (hq.2.2 n pc)

theorem Sim.sleep {c : Chan} (hact : q.act s.data (s.killed i) = .sleep c q') :
    Follows (s.goto i (.locking k c q')) t (getc s (.go i)) := by
  have hq : q.Calm ∧ ∀ n pc, q' = .consoleread n pc → pc.Ready t k n := by
    cases q with
    | consoleread n pc =>
      obtain ⟨e, pc', hsleep, -, rfl⟩ := Action.lift_eq_sleep.mp hact
      obtain ⟨m, rfl, rfl⟩ := consoleread_sleep hsleep
      refine ⟨fun _ => nofun, fun n' pc hpc => ?_⟩
      obtain ⟨rfl, rfl⟩ := Point.consoleread.inj hpc
      obtain ⟨hm, hlt, hk⟩ : ConsolePc.Ready t k n (.sleep m) := h.active i k n _ (by rw [hpos]; rfl) (by rw [hpos]; rfl)
      exact ⟨hm, hlt.le, iff_of_false hk hlt.ne'⟩
    | consoleintr pc =>
      obtain ⟨e, pc', hsleep, -, -⟩ := Action.lift_eq_sleep.mp hact
      exact absurd hsleep consoleintr_sleep
    | _ =>
      obtain ⟨e, pc', -, -, rfl⟩ := Action.lift_eq_sleep.mp hact
      exact ⟨fun _ => nofun, nofun⟩
  refine h.still hrun hpos [] hq.1 rfl rfl (by simp) rfl rfl (by simp) ?_ nofun
  intro k' n pc hk' hpc
  exact ⟨(Option.some.inj hk').symm, hq.2 n pc (Option.some.inj hpc)⟩

theorem Sim.leave (hkilled : ∀ n pc, q = .consoleread n pc → s.killed i = false)
    (hact : q.act s.data (s.killed i) = .leave es) (f : Lock → Option Nat) :
    Follows (({ s with lock := f }.goto i .out).emit k es) t (getc s (.go i)) := by
  have hq : q.Calm ∧ es.filterMap Event.char? = [] ∧
      ∀ r : Int, .input (.returned r) ∈ es → k ∈ t.ended ∧ r = (t.got k).length := by
    cases q with
    | consoleread n pc =>
      obtain ⟨es, hleave, rfl⟩ := Action.lift_eq_leave.mp hact
      rw [hkilled n pc rfl] at hleave
      obtain ⟨hfalse, -⟩ | ⟨m, rfl, rfl⟩ := consoleread_leave hleave
      · cases hfalse
      · obtain ⟨hm, hk⟩ : ConsolePc.Ready t k n (.ret m) := h.active i k n _ (by rw [hpos]; rfl) (by rw [hpos]; rfl)
        refine ⟨fun _ => nofun, rfl, fun r hr => ⟨hk, ?_⟩⟩
        obtain rfl : r = n - m := by simpa using hr
        omega
    | consoleintr pc =>
      obtain ⟨es, hleave, rfl⟩ := Action.lift_eq_leave.mp hact
      obtain ⟨rfl, rfl⟩ := consoleintr_leave hleave
      exact ⟨fun pc hpc => by cases hpc; exact ⟨rfl, nofun⟩, rfl, nofun⟩
    | _ =>
      have hquiet := other_leave (by nofun) hact
      exact ⟨fun _ => nofun, quiet_chars hquiet, fun r hr => absurd rfl (hquiet _ hr _)⟩
  exact h.still hrun hpos _ hq.1 rfl rfl rfl rfl hq.2.1 (by simp) (by simp [Pos.call?]) hq.2.2

end

/-- The reads ask for something, by processes that are not killed. -/
def Unkilled (as : List Label) : Prop := ∀ i n, .call i (.consoleread n) ∈ as → 0 < n ∧ .kill i ∉ as

theorem Unkilled.left {as bs : List Label} (h : Unkilled (as ++ bs)) : Unkilled as := fun i n hcall =>
  ⟨(h i n (List.mem_append_left _ hcall)).1, fun hkill => (h i n (List.mem_append_left _ hcall)).2 (List.mem_append_left _ hkill)⟩

theorem Unkilled.alive {pc : ConsolePc} (h : Unkilled as) (hrun : system.Run as s)
    (hpos : s.pos i = .inside k (.consoleread n pc)) : s.killed i = false := by
  have hcall : (s.pos i).call? = some k := by rw [hpos]; rfl
  have hinv : record.Inv s := .of_run hrun
  obtain ⟨g, hg, hnote⟩ := hinv.active i k _ hcall (by rw [hpos]; rfl)
  obtain ⟨g', hg', hmem⟩ := call_mem hrun hcall
  obtain rfl : g = g' := Option.some.inj (hg.symm.trans hg')
  cases g with
  | consoleread m => exact Bool.eq_false_iff.mpr fun hkilled => (h i m hmem).2 (kill_mem hrun hkilled)
  | pipewrite =>
    obtain ⟨_, hq, -, -⟩ := hnote
    cases hq
  | piperead =>
    obtain ⟨_, _, hq, -, -⟩ := hnote
    cases hq
  | _ =>
    obtain ⟨_, hq⟩ := hnote
    cases hq

theorem Sim.step {a : Label} (hrun : system.Run as s) (h : Sim s t) (ht : Tty.Inv t)
    (hstep : system.step s a = .next s') (has : Unkilled (as ++ [a])) : Follows s' t (getc s a) := by
  have hwf' : Wf code s' := .run (hrun.step hstep)
  have hcases : Trans code s a s' := step_cases hstep
  cases hcases with
  | @call i g hpos => exact .still (h.call hpos fun n hg => (has i n (by simp [hg])).1)
  | kill hfree => exact .still ⟨h.ring, h.chars, h.active, h.fresh, h.returned⟩
  | run hpos hact => exact h.run hrun hpos ht (fun n pc hq => has.left.alive hrun (hq ▸ hpos)) hact hwf'
  | wakeup hpos hact hfree => exact h.wakeup hrun hpos hact
  | sleep hpos hact => exact h.sleep hrun hpos hact
  | leave hpos hact => exact h.leave hrun hpos (fun n pc hq => has.left.alive hrun (hq ▸ hpos)) hact _
  | dispatch hpos hfree hrunnable =>
    exact .still (h.pass hrun (by simp [hpos]) rfl (by rw [hpos]; rfl) (by rw [hpos]; rfl) ⟨_, by rw [hpos]; rfl⟩ rfl rfl rfl)
  | enter hpos | lockTable hpos | unlock hpos | doze hpos | awake hpos =>
    rw [getc_other (by simp [hpos])]
    exact .still (h.pass hrun (by simp [hpos]) rfl (by rw [hpos]; rfl) (by rw [hpos]; rfl) ⟨_, by rw [hpos]; rfl⟩ rfl rfl rfl)

theorem Sim.start (hs : system.start s) : Sim s ⟨[], 0, [], [], []⟩ where
  ring := by
    obtain ⟨hidle, -, hr, hw, he⟩ := hs
    refine ⟨[], ⟨?_, ?_, List.not_mem_nil⟩, .inr ⟨?_, rfl⟩⟩
    · rw [hr, he]
      exact .nil _ _
    · rw [hr, hw]
      rfl
    · rintro ⟨i, k, cs, hi⟩
      rw [hidle.pos] at hi
      cases hi
  chars := by
    rw [hs.1.trace]
    rfl
  active i k n pc hk := by
    rw [hs.1.pos] at hk
    cases hk
  fresh k hk := by simp [Tty.got, own] at hk
  returned k r hr := by
    rw [hs.1.trace] at hr
    cases hr

theorem sim_of_run {typed : List UInt8} (hrun : system.Observed getc as s typed) (has : Unkilled as) :
    ∃ acts t, Tty.discipline.Run acts t ∧ acts.filterMap Tty.Act.key? = typed ∧ Sim s t := by
  induction hrun with
  | start hs => exact ⟨[], _, .start rfl, rfl, .start hs⟩
  | step hrun ha ih =>
    obtain ⟨acts, t, ht, rfl, hsim⟩ := ih has.left
    obtain ⟨acts', t', hexec, hkeys, hsim'⟩ := hsim.step hrun.run (Tty.inv_of_run ht) ha has
    refine ⟨acts ++ acts', t', ht.exec hexec, ?_, hsim'⟩
    rw [List.filterMap_append, hkeys]

/-! ### The console -/

def reads : Record code where
  note
    | .consoleread n, q, _ => ∃ pc, q = .consoleread n pc
    | _, _, _ => True
  final
    | .consoleread _, o => ∃ r, .input (.returned r) ∈ o
    | _, _ => True
  entry g := by
    cases g with
    | consoleread n => exact ⟨_, rfl⟩
    | _ => trivial
  run g q s killed s' q' es o h hnote := by
    cases g with
    | consoleread n =>
      obtain ⟨pc, rfl⟩ := hnote
      obtain ⟨_, pc', _, -, -, rfl, -⟩ := Action.lift_eq_run.mp h
      exact ⟨pc', rfl⟩
    | _ => trivial
  wakeup g q s killed c q' o h hnote := by
    cases g with
    | consoleread n =>
      obtain ⟨pc, rfl⟩ := hnote
      obtain ⟨_, pc', -, -, rfl⟩ := Action.lift_eq_wakeup.mp h
      exact ⟨pc', rfl⟩
    | _ => trivial
  sleep g q s killed c q' o h hnote := by
    cases g with
    | consoleread n =>
      obtain ⟨pc, rfl⟩ := hnote
      obtain ⟨_, pc', -, -, rfl⟩ := Action.lift_eq_sleep.mp h
      exact ⟨pc', rfl⟩
    | _ => trivial
  leave g q s killed es o h hnote := by
    cases g with
    | consoleread n =>
      obtain ⟨pc, rfl⟩ := hnote
      obtain ⟨es, hleave, rfl⟩ := Action.lift_eq_leave.mp h
      obtain ⟨-, rfl⟩ | ⟨m, -, rfl⟩ := consoleread_leave hleave <;> exact ⟨_, List.mem_append_right _ (by simp; rfl)⟩
    | _ => trivial

/-- The indices, the reads and their results are those of the discipline. -/
structure Discipline (s : State) (t : Tty) : Prop where
  w_le : (s.data.input.w - s.data.input.r).toNat ≤ (s.data.input.e - s.data.input.r).toNat
  e_le : (s.data.input.e - s.data.input.r).toNat ≤ inputBuf
  unread : Ring.Holds s.data.input.buf s.data.input.r s.data.input.w t.unread
  delivered : chars s.trace = t.delivered
  /-- What has been delivered is what was committed, in order, without the ends of file. -/
  order : (chars s.trace).map Prod.snd = (t.committed.take t.taken).filter (· ≠ ctrl 'D')
  /-- Typing erases nothing that is committed. -/
  keeps : ∀ c, t.committed <+: (t.key c).committed
  result : ∀ (k : Nat) (r : Int), (k, .input (.returned r)) ∈ s.trace → k ∈ t.ended ∧ r = (t.got k).length
  returns : ∀ k n, s.calls[k]? = some (.consoleread n) → (∀ i, (s.pos i).call? ≠ some k) →
    (k, .input (.returned (t.got k).length)) ∈ s.trace
  /-- An end of file stays where it is when it ends a read that has characters. -/
  before : ∀ i k n m cs s', s.pos i = .inside k (.consoleread n (.loop m)) → t.unread = ctrl 'D' :: cs → t.got k ≠ [] → 0 < m →
    system.step s (.go i) = .next s' → s'.data = s.data ∧ s'.pos i = .inside k (.consoleread n (.ret m))
  once : t.ended.Nodup
  /-- Each end of file that is taken is the result 0 of one read. -/
  eof : t.ended.countP (fun k => t.got k = []) = (t.committed.take t.taken).count (ctrl 'D')

theorem mem_own {e : Event} {tr : List (Nat × Event)} (h : e ∈ own k tr) : (k, e) ∈ tr := by
  obtain ⟨⟨k', e'⟩, hmem, heq⟩ := List.mem_filterMap.mp h
  by_cases hk : k' = k
  · subst hk
    obtain rfl : e' = e := by simpa using heq
    exact hmem
  · simp [hk] at heq

theorem Sim.before {cs : List UInt8} (hwf : Wf code s) (h : Sim s t)
    (hpos : s.pos i = .inside k (.consoleread n (.loop m))) (hc : t.unread = ctrl 'D' :: cs) (hgot : t.got k ≠ []) (hm : 0 < m)
    (hstep : system.step s (.go i) = .next s') : s'.data = s.data ∧ s'.pos i = .inside k (.consoleread n (.ret m)) := by
  obtain ⟨hbytes, hget⟩ := (h.alone hwf hpos).next hc
  obtain ⟨hlen, -, -⟩ : ConsolePc.Ready t k n (.loop m) := h.active i k n _ (by rw [hpos]; rfl) (by rw [hpos]; rfl)
  have hbegun : 0 < (t.got k).length := List.length_pos_iff.mpr hgot
  have hact : consoleread n (.loop m) s.data.input (s.killed i) = .run s.data.input (.ret m) [] := by
    rw [consoleread, if_pos hm, if_neg hbytes, if_pos hget, if_pos (by omega)]
  have hgo : system.step s (.go i) = .next (({ s with data := s.data }.goto i (.inside k (.consoleread n (.ret m)))).emit k []) := by
    refine step_of_trans (C := code) (.run hpos ?_)
    show onInput s.data (.consoleread n) _ = _
    rw [hact]
    rfl
  obtain rfl := Outcome.next.inj (hgo.symm.trans hstep)
  exact ⟨rfl, by simp [State.emit]⟩

theorem console_discipline (as : List Label) (s : State) (typed : List UInt8) (hrun : system.Observed getc as s typed)
    (has : Unkilled as) : ∃ acts t, Tty.discipline.Run acts t ∧ acts.filterMap Tty.Act.key? = typed ∧ Discipline s t := by
  obtain ⟨acts, t, ht, hkeys, hsim⟩ := sim_of_run hrun has
  obtain ⟨l, hl, -⟩ := hsim.ring
  have hinv := Tty.inv_of_run ht
  have hw := Ring.Holds.sub inputBuf_lt hl.unread
  have he := Ring.Holds.sub inputBuf_lt hl.holds
  have hle := hl.length_le
  rw [List.length_append] at he
  refine ⟨acts, t, ht, hkeys, by omega, by omega, hl.unread, hsim.chars, ?_, fun c => (Tty.typed_key t c).committed,
    hsim.returned, ?_, ?_, hinv.nodup, hinv.eof⟩
  · rw [hsim.chars]
    exact hinv.order
  · intro k n hk hover
    have hreads : reads.Inv s := .of_run hrun.run
    obtain ⟨r, hr⟩ := hreads.done k _ hk hover
    obtain ⟨-, rfl⟩ := hsim.returned k r (mem_own hr)
    exact mem_own hr
  · intro i k n m cs s' hpos hc hgot hm hstep
    exact hsim.before (.run hrun.run) hpos hc hgot hm hstep

/-- `a`, a backspace, `b`, a return and a ^D are typed, and two reads follow. -/
def twoReads : List Label :=
  .call 0 (.consoleintr [97, 8, 98, 13, 4]) :: List.replicate 9 (.go 0) ++
    .call 1 (.consoleread 10) :: List.replicate 4 (.go 1) ++ .call 1 (.consoleread 5) :: List.replicate 3 (.go 1)

theorem console_discipline_twoReads : ∃ s acts t, system.Observed getc twoReads s [97, 8, 98, 13, 4] ∧ Unkilled twoReads ∧
    s.trace = [(1, .input (.char 98)), (1, .input (.char 10)), (1, .input (.returned 2)), (2, .input (.returned 0))] ∧
    Tty.discipline.Run acts t ∧ acts.filterMap Tty.Act.key? = [97, 8, 98, 13, 4] ∧ Discipline s t := by
  obtain ⟨s, hs, htrace⟩ : ∃ s, system.observe getc idle twoReads = some (s, [97, 8, 98, 13, 4]) ∧
      s.trace = [(1, .input (.char 98)), (1, .input (.char 10)), (1, .input (.returned 2)), (2, .input (.returned 0))] :=
    ⟨_, rfl, rfl⟩
  have hrun : system.Observed getc twoReads s [97, 8, 98, 13, 4] := (Automaton.Observed.start start_idle).observe hs
  have has : Unkilled twoReads := by
    intro i n hcall
    have hn : n = 10 ∨ n = 5 := by
      have hor : i = 1 ∧ n = 10 ∨ i = 1 ∧ n = 5 := by simpa [twoReads] using hcall
      exact hor.imp And.right And.right
    exact ⟨by omega, by simp [twoReads]⟩
  obtain ⟨acts, t, ht, hkeys, hdiscipline⟩ := console_discipline twoReads s _ hrun has
  exact ⟨s, acts, t, hrun, has, htrace, ht, hkeys, hdiscipline⟩

end Xv6.Sleep
