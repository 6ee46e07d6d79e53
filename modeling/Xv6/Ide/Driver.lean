import Xv6.Ide.Refine
import Xv6.Lib.Fair

/-!
# The driver as an in-memory disk

The queue, the device, the buffers and the disks at any time of any run, and every call of `iderw` returns when the
processes, the device and the handler each get their turn.
-/

namespace Xv6.Ide

open Lib Bio

section

variable {ι D : Type} [DecidableEq ι] {havedisk1 : Bool} {disk : Disk D} {s s' : State ι D} {a : Label ι D}

/-! ### Every call returns -/

theorem Inv.keeps (h : Inv havedisk1 disk s) (hstep : Trans havedisk1 s a s') {p : ι} {b : Fin nbuf} {k : Nat}
    (hp : (s.pos p).request? = some (b, k)) :
    (s'.pos p).request? = some (b, k) ∨ s'.pos p = .out ∧ k < s.served.length := by
  have hupdate : ∀ {q : ι} {x : Pos}, (q = p → x.request? = some (b, k)) → (Function.update s.pos q x p).request? = some (b, k) := by
    intro q x hx
    by_cases hq : p = q
    · rw [hq, Function.update_self]
      exact hx hq.symm
    · rwa [Function.update_of_ne hq]
  cases hstep with
  | call hpos | first hpos | behind hpos =>
    refine .inl (hupdate ?_)
    rintro rfl
    rw [hpos] at hp
    cases hp
  | @ret q b' k' hpos hflags =>
    by_cases hq : q = p
    · subst hq
      refine .inr ⟨Function.update_self .., (h.isServed hp).mp ?_⟩
      rw [hpos] at hp
      obtain ⟨rfl, -⟩ := Prod.mk.inj (Option.some.inj hp)
      exact hflags
    · exact .inl (hupdate fun heq => absurd heq hq)
  | sleep hpos =>
    refine .inl (hupdate ?_)
    rintro rfl
    rw [hpos] at hp
    exact hp
  | kill =>
    refine .inl (hupdate ?_)
    rintro rfl
    rwa [Pos.request?_wake]
  | device | spurious => exact .inl hp
  | finishLast | finishNext => exact .inl (by simpa [State.finish] using hp)

theorem Trans.served_le (hstep : Trans havedisk1 s a s') : s.served.length ≤ s'.served.length := by
  cases hstep with
  | finishLast | finishNext => simp [State.finish]
  | _ => exact le_rfl

/-- The processes, the device and the handler get their turns. -/
structure FairPath (π : Path (system (ι := ι) havedisk1 disk)) : Prop where
  go : ∀ p, π.Fair (.go p)
  device : π.Fair .device
  ideintr : π.Fair .ideintr

section Returns

variable {π : Path (system (ι := ι) havedisk1 disk)}

theorem inv_state (π : Path (system (ι := ι) havedisk1 disk)) (n : Nat) : Inv havedisk1 disk (π.state n) := .of_run (π.run n)

/-- What one step does, from the states that can be reached. -/
theorem leads_of_step {P Q : State ι D → Prop} {a : Label ι D} (hfair : π.Fair a)
    (hable : ∀ s, Inv havedisk1 disk s → P s → s.step havedisk1 a ≠ .disabled)
    (hstep : ∀ s b s', Inv havedisk1 disk s → P s → Trans havedisk1 s b s' → Q s' ∨ P s' ∧ b ≠ a) : π.Leads P Q :=
  .ensures hfair (fun n hn => hable _ (.of_run (π.run n)) hn) fun n hn => hstep _ _ _ (.of_run (π.run n)) hn (step_cases (π.step n))

theorem FairPath.enters (h : FairPath π) (p : ι) (b : Fin nbuf) :
    π.Leads (fun s => s.pos p = .entering b) fun s => ∃ k, (s.pos p).request? = some (b, k) := by
  refine leads_of_step (h.go p) (fun s hinv hn => ?_) fun s a s' hinv hn htrans => ?_
  · obtain ⟨queue, hqueue, hholds⟩ := hinv.append hn
    simp only [State.step, hn, State.enqueue, hqueue]
    by_cases hhead : queue.head = some b
    · have hidle := hinv.idle_iff.mpr ((hinv.head_append hn hholds).mp hhead)
      simp [hhead, State.start, State.goto, hidle]
    · simp [hhead]
  · have hother : ∀ {q : ι} {x : Pos}, q ≠ p → Function.update s.pos q x p = .entering b := fun hq =>
      (Function.update_of_ne hq.symm _ _).trans hn
    cases htrans with
    | @call q _ _ hpos | @ret q _ _ hpos | @sleep q _ _ hpos =>
      have hq : q ≠ p := by
        rintro rfl
        rw [hpos] at hn
        cases hn
      exact .inr ⟨hother hq, by simp [hq]⟩
    | @first q b' _ hpos | @behind q b' _ hpos =>
      by_cases hq : q = p
      · subst hq
        obtain rfl : b' = b := by simpa [hpos] using hn
        exact .inl ⟨_, by rw [State.join_pos]; rfl⟩
      · exact .inr ⟨hother hq, by simp [hq]⟩
    | @kill q =>
      refine .inr ⟨?_, by simp⟩
      by_cases hq : q = p
      · subst hq
        refine (Function.update_self ..).trans ?_
        rw [hn]
        rfl
      · exact hother hq
    | device | spurious => exact .inr ⟨hn, by simp⟩
    | finishLast | finishNext =>
      refine .inr ⟨?_, by simp⟩
      simp only [State.finish, hn]
      rfl

/-- A request with `j` requests before it and itself still to be served. -/
def Ahead (p : ι) (b : Fin nbuf) (k j : Nat) (s : State ι D) : Prop :=
  (s.pos p).request? = some (b, k) ∧ s.served.length + j = k + 1

theorem FairPath.performs (h : FairPath π) (p : ι) (b : Fin nbuf) (k j : Nat) :
    π.Leads (fun s => Ahead p b k (j + 1) s ∧ ∃ r, s.device = .busy r) fun s => Ahead p b k (j + 1) s ∧ ∃ d, s.device = .done d := by
  refine leads_of_step h.device (fun s _ hn => ?_) fun s a s' hinv hn htrans => ?_
  · obtain ⟨-, r, hbusy⟩ := hn
    simp [State.step, hbusy]
  · obtain ⟨⟨hrequest, hlength⟩, r, hbusy⟩ := hn
    have hkeeps := (hinv.keeps htrans hrequest).resolve_right (by omega)
    cases htrans with
    | device hdevice => exact .inl ⟨⟨hkeeps, hlength⟩, _, rfl⟩
    | first _ _ _ hdevice => simp [hdevice] at hbusy
    | spurious hdevice | finishLast hdevice | finishNext hdevice => simp [hdevice] at hbusy
    | _ => exact .inr ⟨⟨⟨hkeeps, hlength⟩, r, hbusy⟩, by simp⟩

theorem FairPath.serves (h : FairPath π) (p : ι) (b : Fin nbuf) (k j : Nat) :
    π.Leads (fun s => Ahead p b k (j + 1) s ∧ ∃ d, s.device = .done d) (Ahead p b k j) := by
  refine leads_of_step h.ideintr (fun s hinv hn => ?_) fun s a s' hinv hn htrans => ?_
  · obtain ⟨-, d, hdone⟩ := hn
    obtain ⟨b', v, rest, -, hhead, -⟩ := hinv.carried.front hdone
    simp only [State.step, hdone, State.ideintr, hhead]
    cases s.queue.next b' <;> simp [State.start]
  · obtain ⟨⟨hrequest, hlength⟩, d, hdone⟩ := hn
    have hkeeps := (hinv.keeps htrans hrequest).resolve_right (by omega)
    cases htrans with
    | device hdevice | first _ _ _ hdevice => simp [hdevice] at hdone
    | spurious hdevice hhead =>
      obtain ⟨_, _, _, -, hb, -⟩ := hinv.carried.front hdevice
      simp [hhead] at hb
    | finishLast | finishNext =>
      refine .inl ⟨hkeeps, ?_⟩
      simp only [State.finish, List.length_append, List.length_singleton]
      omega
    | _ => exact .inr ⟨⟨⟨hkeeps, hlength⟩, d, hdone⟩, by simp⟩

theorem FairPath.descends (h : FairPath π) (p : ι) (b : Fin nbuf) (k j : Nat) :
    π.Leads (Ahead p b k (j + 1)) (Ahead p b k j) := by
  intro n hn
  have hdevice : (∃ r, (π.state n).device = .busy r) ∨ ∃ d, (π.state n).device = .done d := by
    cases hidle : (π.state n).device with
    | idle =>
      obtain ⟨v, hv⟩ := ((inv_state π n).placed.requested hn.1).1
      have hnil := (inv_state π n).idle_iff.mp hidle
      have hlength := (List.getElem?_eq_some_iff.mp hv).1
      have hle := List.drop_eq_nil_iff.mp hnil
      obtain ⟨-, hserved⟩ := hn
      omega
    | busy r => exact .inl ⟨r, rfl⟩
    | done d => exact .inr ⟨d, rfl⟩
  cases hdevice with
  | inl hbusy => exact (h.performs p b k j).trans (h.serves p b k j) n ⟨hn, hbusy⟩
  | inr hdone => exact h.serves p b k j n ⟨hn, hdone⟩

theorem FairPath.leaves (h : FairPath π) (p : ι) (b : Fin nbuf) (k : Nat) :
    π.Leads (fun s => (s.pos p).request? = some (b, k) ∧ k < s.served.length) fun s => s.pos p = .out := by
  have hwaiting : ∀ s, Inv havedisk1 disk s → (s.pos p).request? = some (b, k) ∧ k < s.served.length → s.pos p = .waiting b k := by
    rintro s hinv ⟨hrequest, hlength⟩
    have hplace := hinv.placed.place p
    cases hpos : s.pos p with
    | waiting b' k' =>
      rw [hpos] at hrequest
      obtain ⟨rfl, rfl⟩ := Prod.mk.inj (Option.some.inj hrequest)
      rfl
    | asleep b' k' =>
      rw [hpos] at hrequest hplace
      obtain ⟨rfl, rfl⟩ := Prod.mk.inj (Option.some.inj hrequest)
      exact absurd hplace.2.2 (by omega)
    | _ =>
      rw [hpos] at hrequest
      cases hrequest
  refine leads_of_step (h.go p) (fun s hinv hn => ?_) fun s a s' hinv hn htrans => ?_
  · simp [State.step, hwaiting s hinv hn]
  · have hgrows := htrans.served_le
    obtain hkeeps | ⟨hout, -⟩ := hinv.keeps htrans hn.1
    · refine .inr ⟨⟨hkeeps, hn.2.trans_le hgrows⟩, ?_⟩
      rintro rfl
      have hpos := hwaiting s hinv hn
      cases htrans with
      | first hpos' | behind hpos' =>
        rw [hpos'] at hpos
        cases hpos
      | ret => simp [State.goto, Pos.request?] at hkeeps
      | sleep hpos' hflags =>
        obtain ⟨rfl, rfl⟩ := Pos.waiting.inj (hpos'.symm.trans hpos)
        exact absurd ((hinv.isServed hn.1).mpr hn.2) hflags
    · exact .inl hout

theorem FairPath.returns (h : FairPath π) (p : ι) : π.Leads (fun _ => True) fun s => s.pos p = .out := by
  have hwaits : ∀ b k, π.Leads (fun s => (s.pos p).request? = some (b, k)) fun s => s.pos p = .out := by
    intro b k n hn
    by_cases hk : k < (π.state n).served.length
    · exact h.leaves p b k n ⟨hn, hk⟩
    · obtain ⟨m, hm, hahead⟩ := Path.Leads.descend (h.descends p b k) (k + 1 - (π.state n).served.length) n ⟨hn, by omega⟩
      obtain ⟨m', hm', hout⟩ := h.leaves p b k m ⟨hahead.1, by have := hahead.2; omega⟩
      exact ⟨m', hm.trans hm', hout⟩
  intro n _
  cases hpos : (π.state n).pos p with
  | out => exact ⟨n, le_rfl, hpos⟩
  | entering b =>
    obtain ⟨m, hm, k, hk⟩ := h.enters p b n hpos
    obtain ⟨m', hm', hout⟩ := hwaits b k m hk
    exact ⟨m', hm.trans hm', hout⟩
  | waiting b k | asleep b k => exact hwaits b k n (congrArg Pos.request? hpos)

end Returns

/-! ### The driver -/

/-- The queue, the device, what `iderw` returns and what is on the disks. -/
structure DriverOf (havedisk1 : Bool) (disk : Disk D) (s : State ι D) : Prop where
  fifo : s.queue.Holds (s.pending.map Prod.fst)
  once : (s.pending.map Prod.fst).Nodup
  pending : ∀ b, b ∈ s.pending.map Prod.fst ↔ ∃ p k, (s.pos p).request? = some (b, k) ∧ s.served.length ≤ k
  idle : s.device = .idle ↔ s.queue.head = none
  head : ∀ r, s.device = .busy r → ∃ b, s.queue.head = some b ∧ r = idestart (s.buf b)
  flags : ∀ x ∈ s.returned, x.2.valid = true ∧ x.2.dirty = false
  results : ∀ k v, (k, v) ∈ s.returned → ∃ b, s.served[k]? = some (b, v)
  transfers : ∃ l, transfers disk (s.queued.take s.carried) = (l, s.disk) ∧ s.served = l.take s.served.length
  /-- `memide.c` runs through on the requests for its disk. -/
  accepts : ∀ size, (∃ r, sequential size (disk 1) (s.queued.take s.carried) = .ok r) ↔
    ∀ x ∈ s.queued.take s.carried, x.2.dev = 1 ∧ x.2.sector.toNat < disksize size
  memide : ∀ size l memdisk, sequential size (disk 1) (s.queued.take s.carried) = .ok (l, memdisk) →
    s.disk 1 = memdisk ∧ s.served = l.take s.served.length
  panics : ∀ a e, s.step havedisk1 a = .fail e → ∃ p b v, a = .iderw p b v ∧ State.check havedisk1 v = some e

theorem Inv.driverOf (h : Inv havedisk1 disk s) : DriverOf havedisk1 disk s := by
  have hchecked : ∀ x ∈ s.queued.take s.carried, State.check havedisk1 x.2 = none := fun x hx =>
    h.carried.checked x (List.mem_of_mem_take hx)
  obtain ⟨l, hl, hserved⟩ := h.carried.transfers
  refine ⟨h.carried.holds, h.placed.nodup, h.mem_pending_iff, h.idle, fun r => h.head, fun x hx => ?_, h.carried.returned,
    ⟨l, hl, hserved⟩, fun size => sequential_ok_iff disk hchecked, fun size l' memdisk hrun => ?_, fun a e => h.panics⟩
  · obtain ⟨b, hb⟩ := h.carried.returned x.1 x.2 hx
    exact h.carried.done (List.mem_of_getElem? hb)
  · have haccepts := (sequential_ok_iff disk hchecked).mp ⟨_, hrun⟩
    rw [sequential_eq disk hchecked haccepts, hl] at hrun
    obtain ⟨rfl, rfl⟩ := Prod.mk.inj (Except.ok.inj hrun)
    exact ⟨rfl, hserved⟩

theorem ide_refines (havedisk1 : Bool) (disk : Disk D) :
    (∀ as (s : State ι D), (system havedisk1 disk).Run as s → DriverOf havedisk1 disk s) ∧
      ∀ π : Path (system (ι := ι) havedisk1 disk), FairPath π → ∀ p n, ∃ m, n ≤ m ∧ (π.state m).pos p = .out :=
  ⟨fun _ _ hrun => (Inv.of_run hrun).driverOf, fun _ hfair p n => hfair.returns p n trivial⟩

end

/-- Nobody has called `iderw` yet, and each block holds its number. -/
def quiet : State (Fin 2) Nat where
  buf _ := ⟨false, false, false, 0, 0, 0⟩
  queue := ⟨none, fun _ => none⟩
  device := .idle
  disk _ sector := sector
  pos _ := .out
  active := ∅
  queued := []
  served := []
  returned := []

theorem start_quiet : Start (fun _ sector => sector) quiet := ⟨rfl, rfl, rfl, fun _ => rfl, rfl, rfl, rfl, rfl⟩

/-- A process writes a block, and another one reads it before the write is done. -/
def writeAndRead : List (Label (Fin 2) Nat) :=
  [.iderw 0 0 ⟨true, false, true, 1, 5, 77⟩, .iderw 1 1 ⟨true, false, false, 1, 5, 0⟩, .go 0, .go 1, .go 0, .go 1, .device, .ideintr,
    .go 0, .device, .kill 1, .ideintr, .go 1]

/-- The two calls, and then only steps that do nothing. -/
def writeAndReadPath : Path (system (ι := Fin 2) true fun _ sector => (sector : Nat)) :=
  .ofLabels _ quiet (fun n => writeAndRead.getD n (.kill 0)) start_quiet (by
    intro n
    by_cases hn : n < 13
    · interval_cases n <;> decide +kernel
    · rw [List.getD_eq_default _ _ (by simpa [writeAndRead] using hn)]
      rfl)

theorem fair_writeAndReadPath : FairPath writeAndReadPath := by
  have hrest : ∀ n, 13 ≤ n → (∀ p, (writeAndReadPath.state n).pos p = .out) ∧
      (writeAndReadPath.state n).queued.length ≤ (writeAndReadPath.state n).served.length := by
    intro n hn
    induction n, hn using Nat.le_induction with
    | base => decide +kernel
    | succ n hn ih =>
      have hlabel : writeAndReadPath.label n = .kill 0 := List.getD_eq_default _ _ (by simpa [writeAndRead] using hn)
      have hstep := writeAndReadPath.step n
      rw [hlabel] at hstep
      rw [← Outcome.next.inj hstep]
      refine ⟨fun p => ?_, ih.2⟩
      by_cases hp : p = 0
      · simp [State.goto, hp, ih.1, Pos.wake]
      · simp [State.goto, hp, ih.1]
  -- From the end of the calls on none of the steps is possible.
  have hnever : ∀ a, (∀ n, 13 ≤ n → State.step true (writeAndReadPath.state n) a = .disabled) → writeAndReadPath.Fair a := by
    intro a ha n hable
    exact absurd (ha (max n 13) (le_max_right ..)) (hable _ (le_max_left ..))
  have hidle : ∀ n, 13 ≤ n → (writeAndReadPath.state n).device = .idle := fun n hn =>
    (inv_state writeAndReadPath n).idle_iff.mpr (List.drop_eq_nil_iff.mpr (hrest n hn).2)
  refine ⟨fun p => hnever _ fun n hn => ?_, hnever _ fun n hn => ?_, hnever _ fun n hn => ?_⟩
  · simp [State.step, (hrest n hn).1]
  · simp [State.step, hidle n hn]
  · simp [State.step, hidle n hn]

theorem ide_refines_writeAndRead :
    FairPath writeAndReadPath ∧
    (writeAndReadPath.state 13).returned.map (fun x => (x.1, x.2.data)) = [(0, 77), (1, 77)] ∧
    (∀ n, DriverOf true (fun _ sector => sector) (writeAndReadPath.state n)) ∧
    ∀ p n, ∃ m, n ≤ m ∧ (writeAndReadPath.state m).pos p = .out := by
  obtain ⟨hdriver, hreturns⟩ := ide_refines (ι := Fin 2) true fun _ sector => (sector : Nat)
  exact ⟨fair_writeAndReadPath, by decide +kernel, fun n => hdriver _ _ (writeAndReadPath.run n),
    hreturns writeAndReadPath fair_writeAndReadPath⟩

end Xv6.Ide
