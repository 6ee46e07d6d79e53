import Xv6.Ide.Transfer

/-!
# The driver carries out the requests in the order of the queue

Each process in `iderw` has a buffer of its own, and its request stays in the queue until it is served. What the driver
has done at any time is what the transfers do one after the other.
-/

namespace Xv6.Ide

open Lib Bio

/-! ### Positions -/

def Pos.buf? : Pos → Option (Fin nbuf)
  | .out => none
  | .entering b => some b
  | .waiting b _ => some b
  | .asleep b _ => some b

def Pos.request? : Pos → Option (Fin nbuf × Nat)
  | .waiting b k => some (b, k)
  | .asleep b k => some (b, k)
  | _ => none

variable {b : Fin nbuf} {k : Nat}

theorem Pos.buf?_of_request? {x : Pos} (h : x.request? = some (b, k)) : x.buf? = some b := by
  cases x <;> simp_all [Pos.request?, Pos.buf?]

@[simp] theorem Pos.buf?_wake (x : Pos) : x.wake.buf? = x.buf? := by cases x <;> rfl

@[simp] theorem Pos.request?_wake (x : Pos) : x.wake.request? = x.request? := by cases x <;> rfl

@[simp] theorem Pos.buf?_wakeOn (b : Fin nbuf) (x : Pos) : (x.wakeOn b).buf? = x.buf? := by
  cases x with
  | asleep b' k =>
    by_cases hb : b' = b
    · simp [wakeOn, hb, buf?]
    · simp [wakeOn, hb]
  | _ => rfl

@[simp] theorem Pos.request?_wakeOn (b : Fin nbuf) (x : Pos) : (x.wakeOn b).request? = x.request? := by
  cases x with
  | asleep b' k =>
    by_cases hb : b' = b
    · simp [wakeOn, hb, request?]
    · simp [wakeOn, hb]
  | _ => rfl

section Steps

variable {ι D : Type} {havedisk1 : Bool} {s s' : State ι D} {a : Label ι D}

/-! ### Who waits for what -/

/-- The state after the device's request left the queue. -/
def State.finish (s : State ι D) (b : Fin nbuf) (d : D) (device : Device D) : State ι D :=
  { s with
    queue := { s.queue with head := s.queue.next b }
    buf := Function.update s.buf b (complete (s.buf b) d)
    pos := fun q => (s.pos q).wakeOn b
    device := device
    served := s.served ++ [(b, complete (s.buf b) d)] }

def State.pending (s : State ι D) : List (Fin nbuf × Buf D) := s.queued.drop s.served.length

/-- The request `k` is for the buffer, which has the result when it is served. -/
def State.Requested (s : State ι D) (b : Fin nbuf) (k : Nat) : Prop :=
  (∃ v, s.queued[k]? = some (b, v)) ∧ (k < s.served.length → s.served[k]? = some (b, s.buf b))

/-- What holds of the buffer and the request of a process at a position. -/
def State.At (havedisk1 : Bool) (s : State ι D) : Pos → Prop
  | .out => True
  | .entering b => b ∈ s.active ∧ State.check havedisk1 (s.buf b) = none
  | .waiting b k => b ∈ s.active ∧ s.Requested b k
  | .asleep b k => b ∈ s.active ∧ s.Requested b k ∧ s.served.length ≤ k

/-- The processes in `iderw`, their buffers and their requests. -/
structure Placed (havedisk1 : Bool) (s : State ι D) : Prop where
  place : ∀ p, s.At havedisk1 (s.pos p)
  excl : ∀ p q b, (s.pos p).buf? = some b → (s.pos q).buf? = some b → p = q
  waiter : ∀ k b v, s.queued[k]? = some (b, v) → s.served.length ≤ k →
    s.buf b = v ∧ ∃ p, (s.pos p).request? = some (b, k)

variable {x : Fin nbuf × Buf D} {p : ι} {v : Buf D}

/-- A position stays as good as it was when its buffer is not touched. -/
theorem State.At.mono {x : Pos} (h : s.At havedisk1 x) (hactive : ∀ b, x.buf? = some b → b ∈ s.active → b ∈ s'.active)
    (hbuf : ∀ b, x.buf? = some b → s'.buf b = s.buf b) (hqueued : ∀ (k : Nat) y, s.queued[k]? = some y → s'.queued[k]? = some y)
    (hserved : s'.served = s.served) : s'.At havedisk1 x := by
  have hrequested : ∀ b k, x.buf? = some b → s.Requested b k → s'.Requested b k := by
    rintro b k hb ⟨⟨v, hv⟩, hresult⟩
    rw [State.Requested, hserved, hbuf b hb]
    exact ⟨⟨v, hqueued k _ hv⟩, hresult⟩
  cases x with
  | out => trivial
  | entering b => exact ⟨hactive b rfl h.1, by rw [hbuf b rfl]; exact h.2⟩
  | waiting b k => exact ⟨hactive b rfl h.1, hrequested b k rfl h.2⟩
  | asleep b k => exact ⟨hactive b rfl h.1, hrequested b k rfl h.2.1, hserved ▸ h.2.2⟩

namespace Placed

theorem active (h : Placed havedisk1 s) (hp : (s.pos p).buf? = some b) : b ∈ s.active := by
  have hplace := h.place p
  cases hpos : s.pos p <;> simp_all [State.At, Pos.buf?]

theorem requested (h : Placed havedisk1 s) (hp : (s.pos p).request? = some (b, k)) : s.Requested b k := by
  have hplace := h.place p
  cases hpos : s.pos p <;> simp_all [State.At, Pos.request?]

theorem unique (h : Placed havedisk1 s) {k' : Nat} (hp : (s.pos p).request? = some (b, k))
    (hk' : s.queued[k']? = some (b, v)) (hserved : s.served.length ≤ k') : k = k' := by
  obtain ⟨-, q, hq⟩ := h.waiter k' b v hk' hserved
  obtain rfl := h.excl p q b (Pos.buf?_of_request? hp) (Pos.buf?_of_request? hq)
  exact (Prod.mk.inj (Option.some.inj (hp.symm.trans hq))).2

theorem mem_pending (hx : x ∈ s.pending) : ∃ k, s.queued[k]? = some x ∧ s.served.length ≤ k := by
  obtain ⟨i, hi⟩ := List.mem_iff_getElem?.mp hx
  exact ⟨s.served.length + i, by simpa [State.pending] using hi, by omega⟩

theorem nodup (h : Placed havedisk1 s) : (s.pending.map Prod.fst).Nodup := by
  rw [List.nodup_iff_getElem?_ne_getElem?]
  intro i j hij hj heq
  have hi : i < s.pending.length := by rw [List.length_map] at hj; omega
  obtain ⟨b, hb⟩ : ∃ b, (s.pending.map Prod.fst)[j]? = some b := ⟨_, List.getElem?_eq_getElem hj⟩
  rw [hb, List.getElem?_map, Option.map_eq_some_iff] at heq
  obtain ⟨⟨b', v⟩, hv, rfl⟩ := heq
  rw [List.getElem?_map, Option.map_eq_some_iff] at hb
  obtain ⟨⟨b, v'⟩, hv', rfl⟩ := hb
  rw [State.pending, List.getElem?_drop] at hv hv'
  obtain ⟨-, p, hp⟩ := h.waiter _ _ _ hv (by omega)
  have hsame := h.unique hp hv' (by omega)
  omega

theorem not_pending (h : Placed havedisk1 s) (hpos : s.pos p = .entering b) :
    b ∉ s.pending.map Prod.fst := by
  intro hmem
  obtain ⟨⟨b', v⟩, hv, rfl⟩ := List.mem_map.mp hmem
  obtain ⟨k, hk, hserved⟩ := mem_pending hv
  obtain ⟨-, q, hq⟩ := h.waiter k b' v hk hserved
  obtain rfl := h.excl p q b' (by rw [hpos]; rfl) (Pos.buf?_of_request? hq)
  rw [hpos] at hq
  cases hq

theorem length_le (h : Placed havedisk1 s) : (s.pending.map Prod.fst).length ≤ nbuf := by
  have hcard := h.nodup.length_le_card
  rwa [Fintype.card_fin] at hcard

/-- One process moves, nothing is served, and who has a request in the queue keeps it. -/
theorem move [DecidableEq ι] {x : Pos} (h : Placed havedisk1 s) (hpos : s'.pos = Function.update s.pos p x) (hx : s'.At havedisk1 x)
    (hothers : ∀ q, q ≠ p → s.At havedisk1 (s.pos q) → s'.At havedisk1 (s.pos q))
    (hbuf : ∀ b, x.buf? = some b → (s.pos p).buf? = some b ∨ b ∉ s.active) (hserved : s'.served = s.served)
    (hqueued : ∀ (k : Nat) b v, s'.queued[k]? = some (b, v) → s.served.length ≤ k →
      s'.buf b = v ∧ x.request? = some (b, k) ∨ s.queued[k]? = some (b, v) ∧ s'.buf b = s.buf b)
    (hkeep : ∀ b k, (s.pos p).request? = some (b, k) → s.served.length ≤ k → x.request? = some (b, k)) : Placed havedisk1 s' := by
  have hself : s'.pos p = x := by rw [hpos, Function.update_self]
  have hother : ∀ q, q ≠ p → s'.pos q = s.pos q := fun q hq => by rw [hpos, Function.update_of_ne hq]
  have hdistinct : ∀ q b, q ≠ p → x.buf? = some b → (s.pos q).buf? ≠ some b := by
    intro q b hq hb hqb
    obtain hold | hnew := hbuf b hb
    · exact hq (h.excl q p b hqb hold)
    · exact hnew (h.active hqb)
  refine ⟨fun q => ?_, fun q q' b hq hq' => ?_, fun k b v hk hle => ?_⟩
  · by_cases hqp : q = p
    · rwa [hqp, hself]
    · rw [hother q hqp]
      exact hothers q hqp (h.place q)
  · by_cases hqp : q = p <;> by_cases hqp' : q' = p
    · rw [hqp, hqp']
    · rw [hqp, hself] at hq
      rw [hother q' hqp'] at hq'
      exact absurd hq' (hdistinct q' b hqp' hq)
    · rw [hqp', hself] at hq'
      rw [hother q hqp] at hq
      exact absurd hq (hdistinct q b hqp hq')
    · rw [hother q hqp] at hq
      rw [hother q' hqp'] at hq'
      exact h.excl q q' b hq hq'
  · rw [hserved] at hle
    obtain ⟨hv, hrequest⟩ | ⟨hold, hsame⟩ := hqueued k b v hk hle
    · exact ⟨hv, p, by rw [hself, hrequest]⟩
    · obtain ⟨hv, q, hq⟩ := h.waiter k b v hold hle
      refine ⟨hsame.trans hv, q, ?_⟩
      by_cases hqp : q = p
      · subst hqp
        rw [hself]
        exact hkeep b k hq hle
      · rwa [hother q hqp]

/-- A process stays with its request. -/
theorem reposition [DecidableEq ι] {x : Pos} (h : Placed havedisk1 s) (hx : s.At havedisk1 x) (hbuf : x.buf? = (s.pos p).buf?)
    (hrequest : x.request? = (s.pos p).request?) : Placed havedisk1 (s.goto p x) := by
  refine h.move rfl (hx.mono (fun _ _ h => h) (fun _ _ => rfl) (fun _ _ h => h) rfl) ?_ (fun b hb => .inl (hbuf ▸ hb)) rfl
    (fun k b v hk _ => .inr ⟨hk, rfl⟩) fun b k hk _ => hrequest.trans hk
  exact fun q _ hq => hq.mono (fun _ _ h => h) (fun _ _ => rfl) (fun _ _ h => h) rfl

theorem finish (h : Placed havedisk1 s) (hb : s.queued[s.served.length]? = some (b, v)) (d : D)
    (device : Device D) : Placed havedisk1 (s.finish b d device) := by
  have hlength : (s.served ++ [(b, complete (s.buf b) d)]).length = s.served.length + 1 := by simp
  have hother : ∀ q b' k, (s.pos q).request? = some (b', k) → k ≠ s.served.length →
      Function.update s.buf b (complete (s.buf b) d) b' = s.buf b' := by
    intro q b' k hq hk
    refine Function.update_of_ne ?_ _ _
    rintro rfl
    exact hk (h.unique hq hb le_rfl)
  have hfirst : ∀ q b', (s.pos q).request? = some (b', s.served.length) → b' = b := by
    intro q b' hq
    obtain ⟨v', hv'⟩ := (h.requested hq).1
    exact (Prod.mk.inj (Option.some.inj (hv'.symm.trans hb))).1
  have hrequested : ∀ q b' k, (s.pos q).request? = some (b', k) → (s.finish b d device).Requested b' k := by
    intro q b' k hq
    refine ⟨(h.requested hq).1, fun hk => ?_⟩
    simp only [State.finish, hlength] at hk ⊢
    obtain hlt | rfl := Nat.lt_or_eq_of_le (Nat.le_of_lt_succ hk)
    · rw [List.getElem?_append_left hlt, hother q b' k hq (by omega)]
      exact (h.requested hq).2 hlt
    · obtain rfl := hfirst q b' hq
      simp
  refine ⟨fun q => ?_, fun q q' b' hq hq' => ?_, fun k b' v' hk hserved => ?_⟩
  · have hplace := h.place q
    show (s.finish b d device).At havedisk1 ((s.pos q).wakeOn b)
    cases hpos : s.pos q with
    | out => trivial
    | entering b' =>
      rw [hpos] at hplace
      refine ⟨hplace.1, ?_⟩
      have hne : b' ≠ b := by
        rintro rfl
        obtain ⟨-, q', hq'⟩ := h.waiter _ b' v hb le_rfl
        obtain rfl := h.excl q q' b' (by rw [hpos]; rfl) (Pos.buf?_of_request? hq')
        rw [hpos] at hq'
        cases hq'
      simp only [State.finish, Function.update_of_ne hne]
      exact hplace.2
    | waiting b' k =>
      rw [hpos] at hplace
      exact ⟨hplace.1, hrequested q b' k (by rw [hpos]; rfl)⟩
    | asleep b' k =>
      have hrequest : (s.pos q).request? = some (b', k) := by rw [hpos]; rfl
      rw [hpos] at hplace
      by_cases hb' : b' = b
      · rw [Pos.wakeOn, if_pos hb']
        exact ⟨hplace.1, hrequested q b' k hrequest⟩
      · rw [Pos.wakeOn, if_neg hb']
        refine ⟨hplace.1, hrequested q b' k hrequest, ?_⟩
        simp only [State.finish, hlength]
        refine lt_of_le_of_ne hplace.2.2 ?_
        rintro rfl
        exact hb' (hfirst q b' hrequest)
  · simp only [State.finish, Pos.buf?_wakeOn] at hq hq'
    exact h.excl q q' b' hq hq'
  · simp only [State.finish, Pos.request?_wakeOn, hlength] at hk hserved ⊢
    obtain ⟨hv, q, hq⟩ := h.waiter k b' v' hk (by omega)
    rw [hother q b' k hq (by omega)]
    exact ⟨hv, q, hq⟩

end Placed

/-! ### What has been carried out -/

/-- The device has the first request of the queue, and has carried it out or not. -/
inductive Drives (disk : Disk D) : List (Fin nbuf × Buf D) → Device D → Disk D → Prop where
  | idle : Drives disk [] .idle disk
  | busy {b : Fin nbuf} {v : Buf D} {rest : List (Fin nbuf × Buf D)} : Drives disk ((b, v) :: rest) (.busy (idestart v)) disk
  | done {b : Fin nbuf} {v : Buf D} {rest : List (Fin nbuf × Buf D)} :
      Drives disk ((b, v) :: rest) (.done ((idestart v).perform disk).1) ((idestart v).perform disk).2

structure Carried (havedisk1 : Bool) (disk : Disk D) (s : State ι D) : Prop where
  length : s.served.length ≤ s.queued.length
  holds : s.queue.Holds (s.pending.map Prod.fst)
  checked : ∀ x ∈ s.queued, State.check havedisk1 x.2 = none
  served : (transfers disk (s.queued.take s.served.length)).1 = s.served
  drives : Drives (transfers disk (s.queued.take s.served.length)).2 s.pending s.device s.disk
  returned : ∀ k v, (k, v) ∈ s.returned → ∃ b, s.served[k]? = some (b, v)

variable {device : Device D}

namespace Carried

variable {disk : Disk D}

theorem done (h : Carried havedisk1 disk s) (hx : x ∈ s.served) : x.2.valid = true ∧ x.2.dirty = false := by
  rw [← h.served] at hx
  exact transfers_done _ _ x hx

theorem drives_join {disk disk' : Disk D} {l : List (Fin nbuf × Buf D)}
    (h : Drives disk l device disk') (hl : l ≠ []) : Drives disk (l ++ [x]) device disk' := by
  cases h with
  | idle => exact absurd rfl hl
  | busy => exact .busy
  | done => exact .done

theorem perform (h : Carried havedisk1 disk s) {r : Request D} (hdevice : s.device = .busy r) :
    Carried havedisk1 disk { s with device := .done (r.perform s.disk).1, disk := (r.perform s.disk).2 } := by
  refine ⟨h.length, h.holds, h.checked, h.served, ?_, h.returned⟩
  have hdrives := h.drives
  rw [hdevice] at hdrives
  show Drives _ s.pending _ _
  generalize s.pending = l, s.disk = disk' at hdrives ⊢
  cases hdrives with
  | busy => exact .done

theorem front (h : Carried havedisk1 disk s) {d : D} (hdevice : s.device = .done d) :
    ∃ b v rest, s.pending = (b, v) :: rest ∧ s.queue.head = some b ∧ s.queued[s.served.length]? = some (b, v) := by
  have hdrives := h.drives
  have hholds := h.holds
  rw [hdevice] at hdrives
  obtain ⟨b, v, rest, hpending⟩ : ∃ b v rest, s.pending = (b, v) :: rest := by
    generalize s.pending = l, s.disk = disk' at hdrives
    cases hdrives with
    | done => exact ⟨_, _, _, rfl⟩
  rw [hpending] at hholds
  refine ⟨b, v, rest, hpending, hholds.pop.1, ?_⟩
  have hfirst : (s.queued.drop s.served.length)[0]? = some (b, v) := by
    rw [← State.pending, hpending]
    rfl
  simpa using hfirst

theorem finish (h : Carried havedisk1 disk s) {rest : List (Fin nbuf × Buf D)} {d : D}
    (hdevice : s.device = .done d) (hpending : s.pending = (b, v) :: rest) (hbuf : s.buf b = v)
    (hnext : rest = [] ∧ device = .idle ∨ ∃ b' v' rest', rest = (b', v') :: rest' ∧ device = .busy (idestart v')) :
    Carried havedisk1 disk (s.finish b d device) := by
  have hdrop : s.queued.drop s.served.length = (b, v) :: rest := hpending
  have hlt : s.served.length < s.queued.length := by
    by_contra hge
    rw [List.drop_eq_nil_of_le (by omega)] at hdrop
    cases hdrop
  have hget : s.queued[s.served.length] = (b, v) := by
    rw [List.drop_eq_getElem_cons hlt] at hdrop
    exact (List.cons.inj hdrop).1
  have hlength : (s.served ++ [(b, complete (s.buf b) d)]).length = s.served.length + 1 := by simp
  have htake : s.queued.take (s.served.length + 1) = s.queued.take s.served.length ++ [(b, v)] := by
    rw [List.take_succ_eq_append_getElem hlt, hget]
  have hrest : (s.finish b d device).pending = rest := by
    simp only [State.pending, State.finish, hlength]
    rw [← List.drop_drop, hdrop]
    rfl
  -- The device has carried out the request on what the requests before it left.
  obtain ⟨hd, hdisk⟩ : d = ((idestart v).perform (transfers disk (s.queued.take s.served.length)).2).1 ∧
      s.disk = ((idestart v).perform (transfers disk (s.queued.take s.served.length)).2).2 := by
    have hdrives := h.drives
    rw [hdevice, hpending] at hdrives
    generalize s.disk = disk' at hdrives ⊢
    cases hdrives with
    | done => exact ⟨rfl, rfl⟩
  refine ⟨?_, ?_, h.checked, ?_, ?_, fun k w hk => ?_⟩
  · simp only [State.finish, hlength]
    omega
  · have hholds := h.holds
    rw [hpending] at hholds
    rw [hrest]
    exact hholds.pop.2
  · show (transfers disk (s.queued.take (s.served ++ [(b, complete (s.buf b) d)]).length)).1 = _
    rw [hlength, htake, transfers_concat, h.served, transfer, ← hd, ← hbuf]
    rfl
  · rw [hrest]
    show Drives (transfers disk (s.queued.take (s.served ++ [(b, complete (s.buf b) d)]).length)).2 _ _ s.disk
    rw [hlength, htake, transfers_concat, transfer, ← hdisk]
    obtain ⟨rfl, rfl⟩ | ⟨b', v', rest', rfl, rfl⟩ := hnext
    · exact .idle
    · exact .busy
  · obtain ⟨b', hb'⟩ := h.returned k w hk
    refine ⟨b', ?_⟩
    simp only [State.finish]
    rw [List.getElem?_append_left (List.getElem?_eq_some_iff.mp hb').1, hb']

end Carried

/-- The number of requests that the device has carried out. -/
def State.carried (s : State ι D) : Nat :=
  match s.device with
  | .done _ => s.served.length + 1
  | _ => s.served.length

theorem Carried.transfers (h : Carried havedisk1 disk s) :
    ∃ l, Ide.transfers disk (s.queued.take s.carried) = (l, s.disk) ∧ s.served = l.take s.served.length := by
  have hserved := h.served
  have hdrives := h.drives
  cases hdevice : s.device with
  | done d =>
    have hcarried : s.carried = s.served.length + 1 := by rw [State.carried, hdevice]
    obtain ⟨b, v, rest, hpending, -, hfirst⟩ := h.front hdevice
    obtain ⟨hlt, hget⟩ := List.getElem?_eq_some_iff.mp hfirst
    rw [hdevice, hpending] at hdrives
    rw [hcarried, List.take_succ_eq_append_getElem hlt, hget, transfers_concat, hserved]
    refine ⟨_, Prod.ext rfl ?_, (List.take_left ..).symm⟩
    generalize s.disk = disk' at hdrives
    cases hdrives with
    | done => rfl
  | idle | busy r =>
    have hcarried : s.carried = s.served.length := by rw [State.carried, hdevice]
    have hdisk : s.disk = (Ide.transfers disk (s.queued.take s.served.length)).2 := by
      rw [hdevice] at hdrives
      generalize s.disk = disk', s.pending = l at hdrives
      cases hdrives
      rfl
    refine ⟨s.served, Prod.ext ?_ ?_, List.take_length.symm⟩
    · rw [hcarried]
      exact hserved
    · rw [hcarried, hdisk]

/-! ### The invariant -/

structure Inv (havedisk1 : Bool) (disk : Disk D) (s : State ι D) : Prop where
  placed : Placed havedisk1 s
  carried : Carried havedisk1 disk s

namespace Inv

variable {disk : Disk D}

theorem unserved (h : Inv havedisk1 disk s) (hp : (s.pos p).request? = some (b, k))
    (hk : s.served.length ≤ k) : ¬((s.buf b).valid = true ∧ (s.buf b).dirty = false) := by
  obtain ⟨v, hv⟩ := (h.placed.requested hp).1
  obtain ⟨rfl, -⟩ := h.placed.waiter k b v hv hk
  exact (check_eq_none (h.carried.checked _ (List.mem_of_getElem? hv))).2

theorem isServed (h : Inv havedisk1 disk s) (hp : (s.pos p).request? = some (b, k)) :
    ((s.buf b).valid = true ∧ (s.buf b).dirty = false) ↔ k < s.served.length := by
  constructor
  · intro hflags
    by_contra hk
    exact h.unserved hp (by omega) hflags
  · intro hk
    exact h.carried.done (List.mem_of_getElem? ((h.placed.requested hp).2 hk))

theorem append (h : Inv havedisk1 disk s) (hpos : s.pos p = .entering b) :
    ∃ queue, s.queue.append b (nbuf + 1) = some queue ∧ queue.Holds (s.pending.map Prod.fst ++ [b]) :=
  h.carried.holds.append h.placed.nodup (h.placed.not_pending hpos) (Nat.lt_succ_of_le h.placed.length_le)

theorem head_append (h : Inv havedisk1 disk s) (hpos : s.pos p = .entering b) {queue : Queue (Fin nbuf)}
    (hqueue : queue.Holds (s.pending.map Prod.fst ++ [b])) : queue.head = some b ↔ s.pending = [] := by
  have hb := h.placed.not_pending hpos
  cases hpending : s.pending with
  | nil =>
    rw [hpending] at hqueue
    simpa using hqueue.pop.1
  | cons x rest =>
    rw [hpending] at hqueue hb
    have hhead : queue.head = some x.1 := hqueue.pop.1
    have hne : x.1 ≠ b := by
      rintro rfl
      simp at hb
    simp [hhead, hne]

theorem idle_iff (h : Inv havedisk1 disk s) : s.device = .idle ↔ s.pending = [] := by
  have hdrives := h.carried.drives
  generalize s.device = device, s.pending = l, s.disk = disk' at hdrives
  cases hdrives <;> simp

theorem checked (h : Inv havedisk1 disk s) (hpos : s.pos p = .entering b) : State.check havedisk1 (s.buf b) = none := by
  have hplace := h.placed.place p
  rw [hpos] at hplace
  exact hplace.2

theorem mem_pending_iff (h : Inv havedisk1 disk s) (b : Fin nbuf) :
    b ∈ s.pending.map Prod.fst ↔ ∃ p k, (s.pos p).request? = some (b, k) ∧ s.served.length ≤ k := by
  constructor
  · intro hb
    obtain ⟨⟨b, v⟩, hv, rfl⟩ := List.mem_map.mp hb
    obtain ⟨k, hk, hserved⟩ := Placed.mem_pending hv
    obtain ⟨-, p, hp⟩ := h.placed.waiter k b v hk hserved
    exact ⟨p, k, hp, hserved⟩
  · rintro ⟨p, k, hp, hserved⟩
    obtain ⟨v, hv⟩ := (h.placed.requested hp).1
    refine List.mem_map.mpr ⟨(b, v), List.mem_iff_getElem?.mpr ⟨k - s.served.length, ?_⟩, rfl⟩
    rw [State.pending, List.getElem?_drop, Nat.add_sub_cancel' hserved, hv]

theorem head (h : Inv havedisk1 disk s) {r : Request D} (hdevice : s.device = .busy r) :
    ∃ b, s.queue.head = some b ∧ r = idestart (s.buf b) := by
  have hdrives := h.carried.drives
  have hholds := h.carried.holds
  have hplaced := h.placed
  obtain ⟨b, v, rest, hpending, rfl⟩ : ∃ b v rest, s.pending = (b, v) :: rest ∧ r = idestart v := by
    rw [hdevice] at hdrives
    generalize s.pending = l, s.disk = disk' at hdrives
    cases hdrives with
    | busy => exact ⟨_, _, _, rfl, rfl⟩
  have hmem : (b, v) ∈ s.pending := by simp [hpending]
  obtain ⟨k, hk, hserved⟩ := Placed.mem_pending hmem
  rw [hpending] at hholds
  exact ⟨b, hholds.pop.1, by rw [(hplaced.waiter k b v hk hserved).1]⟩

theorem idle (h : Inv havedisk1 disk s) : s.device = .idle ↔ s.queue.head = none := by
  have hholds := h.carried.holds
  rw [h.idle_iff]
  cases hpending : s.pending with
  | nil =>
    rw [hpending] at hholds
    simpa using Queue.Chain.nil_inv hholds
  | cons x rest =>
    rw [hpending] at hholds
    simp [hholds.pop.1]

theorem init (hs : Start disk s) : Inv havedisk1 disk s := by
  have hpos := hs.pos
  have hqueued := hs.queued
  have hserved := hs.served
  have hpending : s.pending = [] := by simp [State.pending, hqueued]
  refine ⟨⟨?_, ?_, ?_⟩, ⟨?_, ?_, ?_, ?_, ?_, ?_⟩⟩
  · simp [hpos, State.At]
  · simp [hpos, Pos.buf?]
  · simp [hqueued]
  · simp [hserved]
  · rw [hpending, Queue.Holds, hs.queue]
    trivial
  · simp [hqueued]
  · simp [hqueued, hserved, transfers]
  · rw [hpending, hs.device, hs.disk, hqueued, List.take_nil]
    exact .idle
  · simp [hs.returned]

end Inv

/-! ### The steps -/

variable [DecidableEq ι]

def State.join (s : State ι D) (p : ι) (b : Fin nbuf) (queue : Queue (Fin nbuf)) (device : Device D) : State ι D :=
  { s with queue := queue, queued := s.queued ++ [(b, s.buf b)], device := device }.goto p (.waiting b s.queued.length)

theorem State.join_pos (s : State ι D) (p : ι) (b : Fin nbuf) (queue : Queue (Fin nbuf)) (device : Device D) :
    (s.join p b queue device).pos p = .waiting b s.queued.length := Function.update_self ..

inductive Trans (havedisk1 : Bool) (s : State ι D) : Label ι D → State ι D → Prop where
  | call {p : ι} {b : Fin nbuf} {v : Buf D} (hpos : s.pos p = .out) (hb : b ∉ s.active)
      (hcheck : State.check havedisk1 v = none) :
      Trans havedisk1 s (.iderw p b v)
        ({ s with buf := Function.update s.buf b v, active := insert b s.active }.goto p (.entering b))
  | first {p : ι} {b : Fin nbuf} {queue : Queue (Fin nbuf)} (hpos : s.pos p = .entering b)
      (hqueue : s.queue.append b (nbuf + 1) = some queue) (hhead : queue.head = some b) (hdevice : s.device = .idle) :
      Trans havedisk1 s (.go p) (s.join p b queue (.busy (idestart (s.buf b))))
  | behind {p : ι} {b : Fin nbuf} {queue : Queue (Fin nbuf)} (hpos : s.pos p = .entering b)
      (hqueue : s.queue.append b (nbuf + 1) = some queue) (hhead : queue.head ≠ some b) :
      Trans havedisk1 s (.go p) (s.join p b queue s.device)
  | ret {p : ι} {b : Fin nbuf} {k : Nat} (hpos : s.pos p = .waiting b k)
      (hflags : (s.buf b).valid = true ∧ (s.buf b).dirty = false) :
      Trans havedisk1 s (.go p)
        ({ s with active := s.active.erase b, returned := s.returned ++ [(k, s.buf b)] }.goto p .out)
  | sleep {p : ι} {b : Fin nbuf} {k : Nat} (hpos : s.pos p = .waiting b k)
      (hflags : ¬((s.buf b).valid = true ∧ (s.buf b).dirty = false)) :
      Trans havedisk1 s (.go p) (s.goto p (.asleep b k))
  | kill {p : ι} : Trans havedisk1 s (.kill p) (s.goto p (s.pos p).wake)
  | device {r : Request D} (hdevice : s.device = .busy r) :
      Trans havedisk1 s .device { s with device := .done (r.perform s.disk).1, disk := (r.perform s.disk).2 }
  | spurious {d : D} (hdevice : s.device = .done d) (hhead : s.queue.head = none) :
      Trans havedisk1 s .ideintr { s with device := .idle }
  | finishLast {b : Fin nbuf} {d : D} (hdevice : s.device = .done d) (hhead : s.queue.head = some b) (hnext : s.queue.next b = none) :
      Trans havedisk1 s .ideintr (s.finish b d .idle)
  | finishNext {b b' : Fin nbuf} {d : D} (hdevice : s.device = .done d) (hhead : s.queue.head = some b)
      (hnext : s.queue.next b = some b') :
      Trans havedisk1 s .ideintr (s.finish b d (.busy (idestart (Function.update s.buf b (complete (s.buf b) d) b'))))

/-- Why a step panics: the test of `iderw`, a broken queue, or a device that works although nothing is queued. -/
def Faults (havedisk1 : Bool) (s : State ι D) (a : Label ι D) (e : Panic) : Prop :=
  (∃ p b v, a = .iderw p b v ∧ State.check havedisk1 v = some e) ∨ ∃ p b, s.pos p = .entering b ∧
    (s.queue.append b (nbuf + 1) = none ∨ ∃ queue, s.queue.append b (nbuf + 1) = some queue ∧ queue.head = some b ∧ s.device ≠ .idle)

theorem step_meets (a : Label ι D) : (s.step havedisk1 a).Meets (Trans havedisk1 s a) (Faults havedisk1 s a) := by
  cases a with
  | iderw p b v =>
    rw [State.step]
    cases hpos : s.pos p with
    | out =>
      dsimp only
      split_ifs with hb
      · trivial
      · cases hcheck : State.check havedisk1 v with
        | some e => exact .inl ⟨p, b, v, rfl, hcheck⟩
        | none => exact .call hpos hb hcheck
    | _ => trivial
  | go p =>
    rw [State.step]
    cases hpos : s.pos p with
    | entering b =>
      simp only [State.enqueue]
      cases hqueue : s.queue.append b (nbuf + 1) with
      | none => exact .inr ⟨p, b, hpos, .inl hqueue⟩
      | some queue =>
        refine Outcome.Meets.ite (fun hhead => ?_) fun hhead => .behind hpos hqueue hhead
        cases hdevice : s.device with
        | idle =>
          simp only [State.start, State.goto]
          exact .first hpos hqueue hhead hdevice
        | _ =>
          simp only [State.start, State.goto]
          exact .inr ⟨p, b, hpos, .inr ⟨queue, hqueue, hhead, by simp [hdevice]⟩⟩
    | waiting b k =>
      simp only [State.wait]
      split_ifs with hflags
      · exact .ret hpos hflags
      · exact .sleep hpos hflags
    | _ => trivial
  | kill p => exact .kill
  | device =>
    rw [State.step]
    cases hdevice : s.device with
    | busy r => exact .device hdevice
    | _ => trivial
  | ideintr =>
    rw [State.step]
    cases hdevice : s.device with
    | done d =>
      simp only [State.ideintr]
      cases hhead : s.queue.head with
      | none => exact .spurious hdevice hhead
      | some b =>
        cases hnext : s.queue.next b with
        | none =>
          simp only [hnext, if_pos]
          exact hnext ▸ .finishLast hdevice hhead hnext
        | some b' =>
          simp only [hnext, reduceCtorEq, if_false, State.start]
          exact hnext ▸ .finishNext hdevice hhead hnext
    | _ => trivial

theorem step_cases (h : s.step havedisk1 a = .next s') : Trans havedisk1 s a s' := by
  have hmeets : (s.step havedisk1 a).Meets _ _ := step_meets a
  rwa [h] at hmeets

/-! ### Who waits for what, along a step -/

namespace Placed

theorem call (h : Placed havedisk1 s) (hpos : s.pos p = .out) (hb : b ∉ s.active)
    (hcheck : State.check havedisk1 v = none) :
    Placed havedisk1 ({ s with buf := Function.update s.buf b v, active := insert b s.active }.goto p (.entering b)) := by
  have hsame : ∀ q b', (s.pos q).buf? = some b' → Function.update s.buf b v b' = s.buf b' := by
    intro q b' hq
    refine Function.update_of_ne ?_ _ _
    rintro rfl
    exact hb (h.active hq)
  refine h.move rfl ⟨Finset.mem_insert_self .., ?_⟩ (fun q _ hq => ?_) ?_ rfl (fun k b' v' hk hle => ?_) ?_
  · simpa [State.goto] using hcheck
  · exact hq.mono (fun _ _ => Finset.mem_insert_of_mem) (hsame q) (fun _ _ h => h) rfl
  · rintro b' hb'
    cases hb'
    exact .inr hb
  · obtain ⟨-, q, hq⟩ := h.waiter k b' v' hk hle
    exact .inr ⟨hk, hsame q b' (Pos.buf?_of_request? hq)⟩
  · simp [hpos, Pos.request?]

theorem join (h : Placed havedisk1 s) (hlength : s.served.length ≤ s.queued.length)
    (hpos : s.pos p = .entering b) (queue : Queue (Fin nbuf)) (device : Device D) :
    Placed havedisk1 (s.join p b queue device) := by
  have hold : ∀ (k : Nat) x, s.queued[k]? = some x → (s.queued ++ [(b, s.buf b)])[k]? = some x := by
    intro k x hk
    rw [List.getElem?_append_left (List.getElem?_eq_some_iff.mp hk).1, hk]
  refine h.move rfl ⟨h.active (by rw [hpos]; rfl), ⟨s.buf b, ?_⟩, fun hk => ?_⟩ (fun q _ hq => ?_) ?_ rfl (fun k b' v hk hle => ?_) ?_
  · simp [State.join, State.goto]
  · exact absurd hk (Nat.not_lt.mpr hlength)
  · exact hq.mono (fun _ _ h => h) (fun _ _ => rfl) hold rfl
  · intro b' hb'
    exact .inl (by rw [hpos]; exact hb')
  · obtain hlt | rfl : k < s.queued.length ∨ k = s.queued.length := by
      have hbound := (List.getElem?_eq_some_iff.mp hk).1
      simp [State.join, State.goto] at hbound
      omega
    · exact .inr ⟨(List.getElem?_append_left hlt).symm.trans hk, rfl⟩
    · obtain ⟨rfl, rfl⟩ : b = b' ∧ s.buf b = v := by simpa [State.join, State.goto] using hk
      exact .inl ⟨rfl, rfl⟩
  · simp [hpos, Pos.request?]

theorem ret (h : Placed havedisk1 s) (hpos : s.pos p = .waiting b k) (hk : k < s.served.length)
    (returned : List (Nat × Buf D)) :
    Placed havedisk1 ({ s with active := s.active.erase b, returned := returned }.goto p .out) := by
  refine h.move rfl trivial (fun q hqp hq => ?_) nofun rfl (fun k b' v hk _ => .inr ⟨hk, rfl⟩) fun b' k' hk' hle => ?_
  · refine hq.mono (fun b' hb' hactive => Finset.mem_erase.mpr ⟨?_, hactive⟩) (fun _ _ => rfl) (fun _ _ h => h) rfl
    rintro rfl
    exact hqp (h.excl q p b' hb' (by rw [hpos]; rfl))
  · rw [hpos] at hk'
    obtain ⟨-, rfl⟩ := Prod.mk.inj (Option.some.inj hk')
    omega

end Placed

namespace Carried

variable {disk : Disk D}

theorem join (h : Carried havedisk1 disk s) {queue : Queue (Fin nbuf)}
    (hqueue : queue.Holds (s.pending.map Prod.fst ++ [b])) (hcheck : State.check havedisk1 (s.buf b) = none)
    (hdevice : s.pending = [] ∧ device = .busy (idestart (s.buf b)) ∨ s.pending ≠ [] ∧ device = s.device) :
    Carried havedisk1 disk (s.join p b queue device) := by
  have hpending : (s.join p b queue device).pending = s.pending ++ [(b, s.buf b)] := by
    simp only [State.pending, State.join, State.goto]
    exact List.drop_append_of_le_length h.length
  have htake : (s.queued ++ [(b, s.buf b)]).take s.served.length = s.queued.take s.served.length :=
    List.take_append_of_le_length h.length
  refine ⟨?_, ?_, fun x hx => ?_, ?_, ?_, h.returned⟩
  · have hlength := h.length
    simp only [State.join, State.goto, List.length_append]
    omega
  · rw [hpending, List.map_append]
    exact hqueue
  · obtain hx | hx := List.mem_append.mp hx
    · exact h.checked x hx
    · rw [List.mem_singleton.mp hx]
      exact hcheck
  · simp only [State.join, State.goto, htake]
    exact h.served
  · rw [hpending]
    simp only [State.join, State.goto, htake]
    have hdrives := h.drives
    obtain ⟨hnil, rfl⟩ | ⟨hne, rfl⟩ := hdevice
    · rw [hnil] at hdrives ⊢
      generalize s.device = dev, s.disk = disk' at hdrives
      cases hdrives
      exact .busy
    · exact drives_join hdrives hne

end Carried

/-! ### The invariant along a run -/

namespace Inv

variable {disk : Disk D}

theorem step (h : Inv havedisk1 disk s) (hstep : Trans havedisk1 s a s') : Inv havedisk1 disk s' := by
  cases hstep with
  | call hpos hb hcheck =>
    have hc := h.carried
    exact ⟨h.placed.call hpos hb hcheck, hc.length, hc.holds, hc.checked, hc.served, hc.drives, hc.returned⟩
  | first hpos hqueue hhead hdevice =>
    obtain ⟨queue, hqueue', hholds⟩ := h.append hpos
    obtain rfl := Option.some.inj (hqueue.symm.trans hqueue')
    refine ⟨h.placed.join h.carried.length hpos _ _, h.carried.join hholds ?_ (.inl ⟨(h.head_append hpos hholds).mp hhead, rfl⟩)⟩
    exact h.checked hpos
  | behind hpos hqueue hhead =>
    obtain ⟨queue, hqueue', hholds⟩ := h.append hpos
    obtain rfl := Option.some.inj (hqueue.symm.trans hqueue')
    refine ⟨h.placed.join h.carried.length hpos _ _,
      h.carried.join hholds ?_ (.inr ⟨fun hnil => hhead ((h.head_append hpos hholds).mpr hnil), rfl⟩)⟩
    exact h.checked hpos
  | @ret p b k hpos hflags =>
    have hrequest : (s.pos p).request? = some (b, k) := by rw [hpos]; rfl
    have hk := (h.isServed hrequest).mp hflags
    have hc := h.carried
    refine ⟨h.placed.ret hpos hk _, hc.length, hc.holds, hc.checked, hc.served, hc.drives, fun k' v hk' => ?_⟩
    obtain hold | hnew := List.mem_append.mp hk'
    · exact hc.returned k' v hold
    · obtain ⟨rfl, rfl⟩ := Prod.mk.inj (List.mem_singleton.mp hnew)
      exact ⟨b, (h.placed.requested hrequest).2 hk⟩
  | @sleep p b k hpos hflags =>
    have hrequest : (s.pos p).request? = some (b, k) := by rw [hpos]; rfl
    have hk : s.served.length ≤ k := by
      by_contra hlt
      exact hflags ((h.isServed hrequest).mpr (by omega))
    have hc := h.carried
    refine ⟨h.placed.reposition ⟨h.placed.active (Pos.buf?_of_request? hrequest), h.placed.requested hrequest, hk⟩ ?_ ?_,
      hc.length, hc.holds, hc.checked, hc.served, hc.drives, hc.returned⟩ <;> simp [hpos, Pos.buf?, Pos.request?]
  | @kill p =>
    have hc := h.carried
    refine ⟨h.placed.reposition ?_ (Pos.buf?_wake _) (Pos.request?_wake _), hc.length, hc.holds, hc.checked, hc.served, hc.drives,
      hc.returned⟩
    have hplace := h.placed.place p
    cases hpos : s.pos p with
    | asleep b k =>
      rw [hpos] at hplace
      exact ⟨hplace.1, hplace.2.1⟩
    | _ => rwa [hpos] at hplace
  | device hdevice =>
    refine ⟨⟨fun p => ?_, h.placed.excl, h.placed.waiter⟩, h.carried.perform hdevice⟩
    exact (h.placed.place p).mono (fun _ _ h => h) (fun _ _ => rfl) (fun _ _ h => h) rfl
  | spurious hdevice hhead =>
    obtain ⟨b, v, rest, -, hb, -⟩ := h.carried.front hdevice
    rw [hhead] at hb
    cases hb
  | finishLast hdevice hhead hnext =>
    obtain ⟨b, v, rest, hpending, hb, hfirst⟩ := h.carried.front hdevice
    obtain rfl := Option.some.inj (hhead.symm.trans hb)
    refine ⟨h.placed.finish hfirst _ _, h.carried.finish hdevice hpending (h.placed.waiter _ _ _ hfirst le_rfl).1 (.inl ⟨?_, rfl⟩)⟩
    have hholds := h.carried.holds
    rw [hpending] at hholds
    have hrest := hholds.pop.2
    cases rest with
    | nil => rfl
    | cons x rest =>
      have hx := hrest.pop.1
      simp [hnext] at hx
  | @finishNext b b' d hdevice hhead hnext =>
    obtain ⟨b₀, v, rest, hpending, hb, hfirst⟩ := h.carried.front hdevice
    obtain rfl := Option.some.inj (hhead.symm.trans hb)
    have hplaced := fun device => h.placed.finish hfirst d device
    refine ⟨hplaced _, h.carried.finish hdevice hpending (h.placed.waiter _ _ _ hfirst le_rfl).1 (.inr ?_)⟩
    have hholds := h.carried.holds
    rw [hpending] at hholds
    have hrest := hholds.pop.2
    cases rest with
    | nil =>
      have hnone : s.queue.next b = none := Queue.Chain.nil_inv hrest
      rw [hnext] at hnone
      cases hnone
    | cons x rest =>
      obtain ⟨b'', v'⟩ := x
      have hx : s.queue.next b = some b'' := hrest.pop.1
      obtain rfl := Option.some.inj (hnext.symm.trans hx)
      have hsecond : s.queued[s.served.length + 1]? = some (b', v') := by
        have hdrop : (s.queued.drop s.served.length)[1]? = some (b', v') := by
          rw [← State.pending, hpending]
          rfl
        simpa using hdrop
      -- The next buffer is as it was when it came into the queue.
      obtain ⟨hv', -⟩ := (hplaced .idle).waiter (s.served.length + 1) b' v' hsecond (by simp [State.finish])
      exact ⟨b', v', rest, rfl, by rw [← hv']; rfl⟩

theorem panics (h : Inv havedisk1 disk s) {e : Panic} (hfail : s.step havedisk1 a = .fail e) :
    ∃ p b v, a = .iderw p b v ∧ State.check havedisk1 v = some e := by
  have hmeets : (s.step havedisk1 a).Meets _ _ := step_meets a
  rw [hfail] at hmeets
  refine hmeets.resolve_right ?_
  rintro ⟨p, b, hpos, hbroken⟩
  obtain ⟨queue, hqueue, hholds⟩ := h.append hpos
  rw [hqueue] at hbroken
  obtain hnone | ⟨queue', hsome, hhead, hdevice⟩ := hbroken
  · cases hnone
  · obtain rfl := Option.some.inj hsome
    exact hdevice (h.idle_iff.mpr ((h.head_append hpos hholds).mp hhead))

theorem of_run {as : List (Label ι D)} (hrun : (system havedisk1 disk).Run as s) : Inv havedisk1 disk s :=
  hrun.invariant (I := fun _ s => Inv havedisk1 disk s) (fun _ hs => init hs) fun _ _ _ _ h hstep => h.step (step_cases hstep)

end Inv

end Steps

end Xv6.Ide
