import Xv6.Sleep.Wakeup

/-!
# A pipe is a lossless queue

The bytes between the counters of a pipe are those that have been stored and not yet taken, in order. The
counters run freely modulo `2 ^ 32`, which `PIPESIZE` divides, so nothing changes when they wrap around.
-/

namespace Xv6.Sleep

open Lib Monitor

def PipeEvent.stored? : PipeEvent → Option UInt8
  | .stored b => some b
  | _ => none

def PipeEvent.taken? : PipeEvent → Option UInt8
  | .took b => some b
  | _ => none

def Event.at? (p : Nat) : Event → Option PipeEvent
  | .pipe p' e => if p' = p then some e else none
  | _ => none

/-- The bytes that `f` finds in the events of the pipe `p`. -/
def bytes (f : PipeEvent → Option UInt8) (p : Nat) (o : List Event) : List UInt8 := o.filterMap fun e => (e.at? p).bind f

/-- All bytes that the calls so far have stored into the pipe, in order. -/
def stored (p : Nat) (t : List (Nat × Event)) : List UInt8 := bytes PipeEvent.stored? p (t.map Prod.snd)

/-- All bytes that the calls so far have taken from the pipe, in order. -/
def taken (p : Nat) (t : List (Nat × Event)) : List UInt8 := bytes PipeEvent.taken? p (t.map Prod.snd)

variable (f : PipeEvent → Option UInt8)

theorem bytes_append (p : Nat) (o o' : List Event) : bytes f p (o ++ o') = bytes f p o ++ bytes f p o' :=
  List.filterMap_append ..

theorem bytes_emit (p k : Nat) (t : List (Nat × Event)) (es : List Event) :
    bytes f p ((t ++ es.map (k, ·)).map Prod.snd) = bytes f p (t.map Prod.snd) ++ bytes f p es := by
  rw [List.map_append, List.map_map, bytes_append]
  exact congrArg (bytes f p (t.map Prod.snd) ++ bytes f p ·) (List.map_id es)

theorem bytes_pipe (p p' : Nat) (es : List PipeEvent) :
    bytes f p (es.map (.pipe p')) = if p' = p then es.filterMap f else [] := by
  rw [bytes, List.filterMap_map]
  by_cases hp : p' = p
  · subst hp
    simp [Function.comp_def, Event.at?]
  · simp [Function.comp_def, Event.at?, hp]

variable {f}

theorem bytes_other {α : Type} (p : Nat) {g : α → Event} (hg : ∀ a, (g a).at? p = none) (es : List α) :
    bytes f p (es.map g) = [] := by
  refine List.filterMap_eq_nil_iff.mpr fun e he => ?_
  obtain ⟨a, -, rfl⟩ := List.mem_map.mp he
  simp [hg]

/-! ### The queue in the ring -/

def Pipe.Holds (v : Pipe) (l : List UInt8) : Prop := Ring.Holds v.data v.nread v.nwrite l

theorem pipesize_dvd : pipesize ∣ 2 ^ 32 := by decide

theorem pipesize_lt : pipesize < 2 ^ 32 := by decide

/-- An action takes its bytes from the front and stores its bytes at the end. -/
def Queued (v v' : Pipe) (es : List PipeEvent) : Prop :=
  ∀ l, v.Holds l → ∃ l', v'.Holds l' ∧ l ++ es.filterMap PipeEvent.stored? = es.filterMap PipeEvent.taken? ++ l'

theorem Queued.same (v : Pipe) : Queued v v [] := fun l h => ⟨l, h, by simp⟩

variable {v : Pipe}

theorem queued_store (b : UInt8) (hroom : ¬v.Full) : Queued v (v.store b) [.stored b] := by
  intro l h
  have hlen : l.length < pipesize := by
    refine lt_of_le_of_ne h.le fun hlen => hroom ?_
    exact (Ring.Holds.full_iff pipesize_lt h).mpr hlen
  exact ⟨l ++ [b], h.push pipesize_dvd hlen b, rfl⟩

theorem queued_take (hbytes : ¬v.Empty) : Queued v v.take [.took v.front] := by
  intro l h
  cases l with
  | nil => exact absurd ((Ring.Holds.empty_iff pipesize_lt h).mpr rfl) hbytes
  | cons b l =>
    obtain ⟨hfront, hrest⟩ := h.pop
    refine ⟨l, hrest, ?_⟩
    rw [← hfront]
    simp [PipeEvent.stored?, PipeEvent.taken?, Pipe.front]

variable {addr : Nat → UInt8} {n : Int} {v' : Pipe} {killed : Bool} {es : List PipeEvent}

theorem pipewrite_queued {pc pc' : WritePc}
    (h : pipewrite addr n pc v killed = .run v' pc' es) : Queued v v' es := by
  cases pc with
  | loop i =>
    simp only [pipewrite] at h
    split_ifs at h with hn hfull hgive
    · cases h
      exact .same v
    · cases h
      exact queued_store _ hfull
    · cases h
      exact .same v
  | _ => cases h

theorem piperead_queued {pc pc' : ReadPc}
    (h : piperead n pc v killed = .run v' pc' es) : Queued v v' es := by
  cases pc with
  | wait =>
    simp only [piperead] at h
    split_ifs at h <;> cases h <;> exact .same v
  | copy i =>
    simp only [piperead] at h
    split_ifs at h with hn hempty
    · cases h
      exact .same v
    · cases h
      exact queued_take hempty
    · cases h
      exact .same v
  | _ => cases h

theorem pipeclose_queued {writable : Bool} {pc pc' : ClosePc}
    (h : pipeclose writable pc v killed = .run v' pc' es) : Queued v v' es := by
  cases pc with
  | close =>
    cases h
    intro l hl
    refine ⟨l, ?_, by simp⟩
    cases writable <;> exact hl
  | wake => cases h
  | free =>
    simp only [pipeclose] at h
    split_ifs at h

/-- What has been stored is what has been taken followed by what the pipe holds. -/
def Queue (p : Nat) (s : Shared) (t : List (Nat × Event)) : Prop :=
  ∃ l, (s.pipe p).Holds l ∧ stored p t = taken p t ++ l

variable {k p : Nat}

theorem Queue.onPipe {p' : Nat} {s : Shared} {t : List (Nat × Event)}
    (h : Queue p s t) (hv : Queued (s.pipe p') v es) :
    Queue p (s.setPipe p' v) (t ++ (es.map (.pipe p')).map (k, ·)) := by
  obtain ⟨l, hl, heq⟩ := h
  by_cases hp : p' = p
  · subst hp
    obtain ⟨l', hl', heq'⟩ := hv l hl
    refine ⟨l', by simpa using hl', ?_⟩
    rw [stored, taken, bytes_emit, bytes_emit, bytes_pipe, bytes_pipe, if_pos rfl, if_pos rfl, ← stored, ← taken, heq,
      List.append_assoc, heq', List.append_assoc]
  · refine ⟨l, ?_, ?_⟩
    · simpa [Shared.setPipe, Ne.symm hp] using hl
    · rw [stored, taken, bytes_emit, bytes_emit, bytes_pipe, bytes_pipe, if_neg hp, if_neg hp, List.append_nil,
        List.append_nil, ← stored, ← taken, heq]

theorem Queue.quiet {s s' : Shared} {es : List Event} {t : List (Nat × Event)} (h : Queue p s t)
    (hs : s'.pipe = s.pipe) (hes : ∀ f, f = PipeEvent.stored? ∨ f = PipeEvent.taken? → bytes f p es = []) :
    Queue p s' (t ++ es.map (k, ·)) := by
  obtain ⟨l, hl, heq⟩ := h
  refine ⟨l, by rwa [hs], ?_⟩
  rw [stored, taken, bytes_emit, bytes_emit, hes _ (.inl rfl), hes _ (.inr rfl), List.append_nil, List.append_nil,
    ← stored, ← taken, heq]

theorem bytes_result {p' : Nat} (hes : es = [] ∨ es = [.freed] ∨ ∃ r, es = [.returned r])
    (hf : f = PipeEvent.stored? ∨ f = PipeEvent.taken?) : bytes f p (es.map (.pipe p')) = [] := by
  rw [bytes_pipe]
  obtain rfl | rfl | ⟨r, rfl⟩ := hes <;> obtain rfl | rfl := hf <;> split_ifs <;> rfl

theorem bytes_returned (p : Nat) (r : Int) (hf : f = PipeEvent.stored? ∨ f = PipeEvent.taken?) :
    bytes f p [.pipe p (.returned r)] = [] := by
  show bytes f p ([PipeEvent.returned r].map (.pipe p)) = []
  exact bytes_result (.inr (.inr ⟨r, rfl⟩)) hf

variable {s : State}

theorem queue_of_run {as : List Label} (hrun : system.Run as s) (p : Nat) : Queue p s.data s.trace := by
  refine data_invariant (J := Queue p) ?_ ?_ ?_ hrun
  · intro d hd
    obtain ⟨hread, hwrite, -⟩ := hd.1 p
    refine ⟨[], ?_, rfl⟩
    rw [Pipe.Holds, hread, hwrite]
    exact .nil _ _
  · intro q d killed d' q' es k t h hqueue
    cases q with
    | pipewrite p' addr n pc =>
      obtain ⟨v, pc', es, hact, rfl, -, rfl⟩ := Action.lift_eq_run.mp h
      exact hqueue.onPipe (pipewrite_queued hact)
    | piperead p' n pc =>
      obtain ⟨v, pc', es, hact, rfl, -, rfl⟩ := Action.lift_eq_run.mp h
      exact hqueue.onPipe (piperead_queued hact)
    | pipeclose p' writable pc =>
      obtain ⟨v, pc', es, hact, rfl, -, rfl⟩ := Action.lift_eq_run.mp h
      exact hqueue.onPipe (pipeclose_queued hact)
    | _ =>
      obtain ⟨v, pc', es, hact, rfl, -, rfl⟩ := Action.lift_eq_run.mp h
      exact hqueue.quiet rfl fun f _ => bytes_other p (fun _ => rfl) es
  · intro q d killed es k t h hqueue
    refine hqueue.quiet rfl fun f hf => ?_
    cases q with
    | pipewrite p' addr n pc =>
      obtain ⟨es, hact, rfl⟩ := Action.lift_eq_leave.mp h
      refine bytes_result (.inr (.inr ?_)) hf
      obtain ⟨_, -, -, -, -, rfl⟩ | ⟨-, rfl⟩ := pipewrite_leave hact <;> exact ⟨_, rfl⟩
    | piperead p' n pc =>
      obtain ⟨es, hact, rfl⟩ := Action.lift_eq_leave.mp h
      refine bytes_result (.inr (.inr ?_)) hf
      obtain ⟨-, rfl⟩ | ⟨_, -, rfl⟩ := piperead_leave hact <;> exact ⟨_, rfl⟩
    | pipeclose p' writable pc =>
      obtain ⟨es, hact, rfl⟩ := Action.lift_eq_leave.mp h
      exact bytes_result ((pipeclose_leave hact).2.imp_right .inl) hf
    | _ =>
      obtain ⟨es, hact, rfl⟩ := Action.lift_eq_leave.mp h
      exact bytes_other p (fun _ => rfl) es

/-! ### What one call does -/

/-- The number of bytes stored when the call is at the point. -/
def WritePc.count (n : Int) : WritePc → Nat
  | .loop i | .wake i | .sleep i => i
  | .done | .ret => n.toNat

def ReadPc.count : ReadPc → Nat
  | .wait | .sleep => 0
  | .copy i | .done i | .ret i => i

/-- The events of a `pipewrite` that has stored the first `i` bytes. -/
def stores (p : Nat) (addr : Nat → UInt8) (i : Nat) : List Event := (List.range i).map fun j => .pipe p (.stored (addr j))

/-- The events of a `piperead` that has taken the bytes `bs`. -/
def takes (p : Nat) (bs : List UInt8) : List Event := bs.map fun b => .pipe p (.took b)

def Call.Note : Call → Point → List Event → Prop
  | .pipewrite p addr n, q, o => ∃ pc, q = .pipewrite p addr n pc ∧ pc.count n ≤ n.toNat ∧ o = stores p addr (pc.count n)
  | .piperead p n, q, o => ∃ pc bs, q = .piperead p n pc ∧ bs.length = pc.count ∧ o = takes p bs
  | .pipeclose p writable, q, _ => ∃ pc, q = .pipeclose p writable pc
  | .consoleread n, q, _ => ∃ pc, q = .consoleread n pc
  | .consoleintr _, q, _ => ∃ pc, q = .consoleintr pc
  | .sysSleep n, q, _ => ∃ pc, q = .sysSleep n pc
  | .tick, q, _ => ∃ pc, q = .tick pc

def Call.Final : Call → List Event → Prop
  | .pipewrite p addr n, o => (∃ i, i < n.toNat ∧ o = stores p addr i ++ [.pipe p (.returned (-1))]) ∨
      o = stores p addr n.toNat ++ [.pipe p (.returned n)]
  | .piperead p _, o => o = [.pipe p (.returned (-1))] ∨ ∃ bs : List UInt8, o = takes p bs ++ [.pipe p (.returned bs.length)]
  | _, _ => True

theorem pipewrite_note {pc pc' : WritePc}
    (p : Nat) (h : pipewrite addr n pc v killed = .run v' pc' es) (hpc : pc.count n ≤ n.toNat) :
    pc'.count n ≤ n.toNat ∧ stores p addr (pc.count n) ++ es.map (.pipe p) = stores p addr (pc'.count n) := by
  cases pc with
  | loop i =>
    simp only [pipewrite] at h
    split_ifs at h with hn hfull hgive
    · cases h
      exact ⟨hpc, List.append_nil _⟩
    · cases h
      refine ⟨?_, ?_⟩
      · change i + 1 ≤ n.toNat
        omega
      · simp [stores, WritePc.count, List.range_succ]
    · cases h
      have hi : i = n.toNat := by
        change i ≤ n.toNat at hpc
        omega
      exact ⟨le_refl _, by simp [WritePc.count, hi]⟩
  | _ => cases h

theorem piperead_note {pc pc' : ReadPc} {bs : List UInt8}
    (p : Nat) (h : piperead n pc v killed = .run v' pc' es) (hbs : bs.length = pc.count) :
    ∃ bs', bs'.length = pc'.count ∧ takes p bs ++ es.map (.pipe p) = takes p bs' := by
  cases pc with
  | wait =>
    simp only [piperead] at h
    split_ifs at h <;> cases h <;> exact ⟨bs, hbs, List.append_nil _⟩
  | copy i =>
    simp only [piperead] at h
    split_ifs at h with hn hempty
    · cases h
      exact ⟨bs, hbs, List.append_nil _⟩
    · cases h
      exact ⟨bs ++ [v.front], by simpa [ReadPc.count] using hbs, by simp [takes]⟩
    · cases h
      exact ⟨bs, hbs, List.append_nil _⟩
  | _ => cases h

def record : Record code where
  note := Call.Note
  final := Call.Final
  entry g := by
    cases g with
    | pipewrite p addr n => exact ⟨.loop 0, rfl, Nat.zero_le _, rfl⟩
    | piperead p n => exact ⟨.wait, [], rfl, rfl, rfl⟩
    | _ => exact ⟨_, rfl⟩
  run g q s killed s' q' es o h hnote := by
    cases g with
    | pipewrite p addr n =>
      obtain ⟨pc, rfl, hpc, rfl⟩ := hnote
      obtain ⟨v, pc', es, hact, -, rfl, rfl⟩ := Action.lift_eq_run.mp h
      obtain ⟨hpc', heq⟩ := pipewrite_note p hact hpc
      exact ⟨pc', rfl, hpc', heq⟩
    | piperead p n =>
      obtain ⟨pc, bs, rfl, hbs, rfl⟩ := hnote
      obtain ⟨v, pc', es, hact, -, rfl, rfl⟩ := Action.lift_eq_run.mp h
      obtain ⟨bs', hbs', heq⟩ := piperead_note p hact hbs
      exact ⟨pc', bs', rfl, hbs', heq⟩
    | _ =>
      obtain ⟨pc, rfl⟩ := hnote
      obtain ⟨v, pc', es, hact, -, rfl, rfl⟩ := Action.lift_eq_run.mp h
      exact ⟨pc', rfl⟩
  wakeup g q s killed c q' o h hnote := by
    cases g with
    | pipewrite p addr n =>
      obtain ⟨pc, rfl, hpc, rfl⟩ := hnote
      obtain ⟨e, pc', hact, -, rfl⟩ := Action.lift_eq_wakeup.mp h
      obtain ⟨-, ⟨i, rfl, rfl⟩ | ⟨rfl, rfl⟩⟩ := pipewrite_wakeup hact <;> exact ⟨_, rfl, hpc, rfl⟩
    | piperead p n =>
      obtain ⟨pc, bs, rfl, hbs, rfl⟩ := hnote
      obtain ⟨e, pc', hact, -, rfl⟩ := Action.lift_eq_wakeup.mp h
      obtain ⟨i, rfl, -, rfl⟩ := piperead_wakeup hact
      exact ⟨_, bs, rfl, hbs, rfl⟩
    | _ =>
      obtain ⟨pc, rfl⟩ := hnote
      obtain ⟨e, pc', hact, -, rfl⟩ := Action.lift_eq_wakeup.mp h
      exact ⟨pc', rfl⟩
  sleep g q s killed c q' o h hnote := by
    cases g with
    | pipewrite p addr n =>
      obtain ⟨pc, rfl, hpc, rfl⟩ := hnote
      obtain ⟨e, pc', hact, -, rfl⟩ := Action.lift_eq_sleep.mp h
      obtain ⟨i, rfl, -, rfl⟩ := pipewrite_sleep hact
      exact ⟨_, rfl, hpc, rfl⟩
    | piperead p n =>
      obtain ⟨pc, bs, rfl, hbs, rfl⟩ := hnote
      obtain ⟨e, pc', hact, -, rfl⟩ := Action.lift_eq_sleep.mp h
      obtain ⟨rfl, -, rfl⟩ := piperead_sleep hact
      exact ⟨_, bs, rfl, hbs, rfl⟩
    | _ =>
      obtain ⟨pc, rfl⟩ := hnote
      obtain ⟨e, pc', hact, -, rfl⟩ := Action.lift_eq_sleep.mp h
      exact ⟨pc', rfl⟩
  leave g q s killed es o h hnote := by
    cases g with
    | pipewrite p addr n =>
      obtain ⟨pc, rfl, hpc, rfl⟩ := hnote
      obtain ⟨es, hact, rfl⟩ := Action.lift_eq_leave.mp h
      obtain ⟨i, rfl, hi, -, -, rfl⟩ | ⟨rfl, rfl⟩ := pipewrite_leave hact
      · exact .inl ⟨i, by omega, rfl⟩
      · exact .inr rfl
    | piperead p n =>
      obtain ⟨pc, bs, rfl, hbs, rfl⟩ := hnote
      obtain ⟨es, hact, rfl⟩ := Action.lift_eq_leave.mp h
      obtain ⟨rfl, rfl⟩ | ⟨i, rfl, rfl⟩ := piperead_leave hact
      · obtain rfl : bs = [] := List.eq_nil_of_length_eq_zero hbs
        exact .inl rfl
      · obtain rfl : bs.length = i := hbs
        exact .inr ⟨bs, rfl⟩
    | _ => trivial

theorem bytes_stores (p : Nat) (addr : Nat → UInt8) (i : Nat) :
    bytes PipeEvent.stored? p (stores p addr i) = (List.range i).map addr := by
  rw [bytes, stores, List.filterMap_map, ← List.filterMap_eq_map]
  congr 1
  funext j
  simp [Event.at?, PipeEvent.stored?]

theorem bytes_takes (p : Nat) (bs : List UInt8) : bytes PipeEvent.taken? p (takes p bs) = bs := by
  rw [bytes, takes, List.filterMap_map]
  simp [Function.comp_def, Event.at?, PipeEvent.taken?]

theorem writer_order (hinv : record.Inv s)
    (hk : s.calls[k]? = some (.pipewrite p addr n)) :
    bytes PipeEvent.stored? p (own k s.trace) <+: (List.range n.toNat).map addr := by
  obtain ⟨i, hi, heq⟩ : ∃ i ≤ n.toNat, bytes PipeEvent.stored? p (own k s.trace) = (List.range i).map addr := by
    rcases hinv.note_or_final hk with ⟨q, pc, -, hpc, howned⟩ | ⟨i, hi, howned⟩ | howned
    · exact ⟨_, hpc, by rw [howned, bytes_stores]⟩
    · refine ⟨i, hi.le, ?_⟩
      rw [howned, bytes_append, bytes_stores, bytes_returned p _ (.inl rfl), List.append_nil]
    · refine ⟨n.toNat, le_refl _, ?_⟩
      rw [howned, bytes_append, bytes_stores, bytes_returned p _ (.inl rfl), List.append_nil]
  obtain ⟨j, hj⟩ := Nat.exists_eq_add_of_le hi
  rw [heq, hj, List.range_add, List.map_append]
  exact List.prefix_append ..

/-- A `pipewrite` returns the number it was given and has stored all the bytes, or -1 and has stored fewer. -/
theorem writer_result (hinv : record.Inv s) {r : Int} (hk : s.calls[k]? = some (.pipewrite p addr n))
    (hr : .pipe p (.returned r) ∈ own k s.trace) :
    r = n ∧ bytes PipeEvent.stored? p (own k s.trace) = (List.range n.toNat).map addr ∨
      r = -1 ∧ ∃ i < n.toNat, bytes PipeEvent.stored? p (own k s.trace) = (List.range i).map addr := by
  rcases hinv.note_or_final hk with ⟨q, pc, -, -, howned⟩ | ⟨i, hi, howned⟩ | howned
  · simp [howned, stores] at hr
  · refine .inr ⟨by simpa [howned, stores] using hr, i, hi, ?_⟩
    rw [howned, bytes_append, bytes_stores, bytes_returned p _ (.inl rfl), List.append_nil]
  · refine .inl ⟨by simpa [howned, stores] using hr, ?_⟩
    rw [howned, bytes_append, bytes_stores, bytes_returned p _ (.inl rfl), List.append_nil]

/-- A `piperead` returns the number of the bytes it has taken, or -1 and has taken none. -/
theorem reader_result (hinv : record.Inv s) {r : Int} (hk : s.calls[k]? = some (.piperead p n))
    (hr : .pipe p (.returned r) ∈ own k s.trace) :
    r = (bytes PipeEvent.taken? p (own k s.trace)).length ∨ r = -1 ∧ bytes PipeEvent.taken? p (own k s.trace) = [] := by
  rcases hinv.note_or_final hk with ⟨q, pc, bs, -, -, howned⟩ | howned | ⟨bs, howned⟩
  · simp [howned, takes] at hr
  · refine .inr ⟨by simpa [howned] using hr, ?_⟩
    rw [howned, bytes_returned p _ (.inr rfl)]
  · left
    obtain rfl : r = bs.length := by simpa [howned, takes] using hr
    rw [howned, bytes_append, bytes_takes, bytes_returned p _ (.inr rfl), List.append_nil]

/-- Where a `piperead` that asked for bytes returns 0 the pipe is drained and has no writer. -/
theorem endOfFile {as : List Label} {s' : State} {i : Nat} (hrun : system.Run as s)
    (hstep : system.step s (.go i) = .next s') (htrace : s'.trace = s.trace ++ [(k, .pipe p (.returned 0))])
    (hk : s.calls[k]? = some (.piperead p n)) (hn : 0 < n) :
    (s.data.pipe p).writeopen = false ∧ (s.data.pipe p).Empty := by
  have hinv' : record.Inv s' := .of_run (hrun.step hstep)
  have hreturned : .pipe p (.returned 0) ∈ own k s'.trace := by
    rw [htrace, own_append]
    exact List.mem_append_right _ (by simp [own])
  have hgo : step code s (.go i) = .next s' := hstep
  cases step_cases hgo with
  | @run _ m q q' d es hpos hact =>
    have hes : es.map (m, ·) = [(k, Event.pipe p (.returned 0))] := List.append_cancel_left htrace
    obtain ⟨rfl, -⟩ : m = k ∧ es = [Event.pipe p (.returned 0)] := by
      cases es with
      | nil => cases hes
      | cons e es => simp_all
    -- a call still in progress has no result
    obtain ⟨g, hg, hnote⟩ := hinv'.active i m q' (by simp [State.emit, Pos.call?]) (by simp [State.emit, Pos.point?])
    obtain rfl : g = .piperead p n := Option.some.inj (hg.symm.trans hk)
    obtain ⟨pc, bs, -, -, howned⟩ := hnote
    rw [howned] at hreturned
    simp [takes] at hreturned
  | @leave _ m q es hpos hact =>
    have hes : es.map (m, ·) = [(k, Event.pipe p (.returned 0))] := List.append_cancel_left htrace
    obtain ⟨rfl, rfl⟩ : m = k ∧ es = [Event.pipe p (.returned 0)] := by
      cases es with
      | nil => cases hes
      | cons e es => simp_all
    have hinv : record.Inv s := .of_run hrun
    obtain ⟨g, hg, hnote⟩ := hinv.active i m q (by simp [hpos, Pos.call?]) (by simp [hpos, Pos.point?])
    obtain rfl : g = .piperead p n := Option.some.inj (hg.symm.trans hk)
    obtain ⟨pc, bs, rfl, -, -⟩ := hnote
    have hpre : pc.Pre n (s.data.pipe p) := (Assertions.Inv.of_run (A := assertions) hrun).points i m _ hpos
    obtain ⟨es, hleave, hes⟩ := Action.lift_eq_leave.mp hact
    obtain ⟨rfl, rfl⟩ | ⟨j, rfl, rfl⟩ := piperead_leave hleave
    · simp at hes
    · obtain rfl : j = 0 := by simpa using hes
      exact (hpre hn rfl).symm
  | _ => simp [State.wake] at htrace

/-- The pipe and the calls on it so far are those of a lossless queue. -/
structure Fifo (s : State) (p : Nat) : Prop where
  order : taken p s.trace <+: stored p s.trace
  writer : ∀ k addr n, s.calls[k]? = some (.pipewrite p addr n) →
    bytes PipeEvent.stored? p (own k s.trace) <+: (List.range n.toNat).map addr
  written : ∀ (k : Nat) (addr : Nat → UInt8) (n r : Int), s.calls[k]? = some (.pipewrite p addr n) →
    .pipe p (.returned r) ∈ own k s.trace →
    r = n ∧ bytes PipeEvent.stored? p (own k s.trace) = (List.range n.toNat).map addr ∨
      r = -1 ∧ ∃ i < n.toNat, bytes PipeEvent.stored? p (own k s.trace) = (List.range i).map addr
  reader : ∀ (k : Nat) (n r : Int), s.calls[k]? = some (.piperead p n) → .pipe p (.returned r) ∈ own k s.trace →
    r = (bytes PipeEvent.taken? p (own k s.trace)).length ∨ r = -1 ∧ bytes PipeEvent.taken? p (own k s.trace) = []
  count : (stored p s.trace).length = (taken p s.trace).length + ((s.data.pipe p).nwrite - (s.data.pipe p).nread).toNat
  bound : ((s.data.pipe p).nwrite - (s.data.pipe p).nread).toNat ≤ pipesize
  endOfFile : ∀ i k n s', system.step s (.go i) = .next s' → s'.trace = s.trace ++ [(k, .pipe p (.returned 0))] →
    s.calls[k]? = some (.piperead p n) → 0 < n → (s.data.pipe p).writeopen = false ∧ taken p s.trace = stored p s.trace

theorem pipe_fifo (as : List Label) (s : State) (hrun : system.Run as s) (p : Nat) : Fifo s p := by
  obtain ⟨l, hl, heq⟩ := queue_of_run hrun p
  have hinv : record.Inv s := .of_run hrun
  have hsub := Ring.Holds.sub pipesize_lt hl
  refine ⟨?_, fun _ _ _ => writer_order hinv, fun _ _ _ _ => writer_result hinv, fun _ _ _ => reader_result hinv, ?_, ?_, ?_⟩
  · rw [heq]
    exact List.prefix_append ..
  · rw [hsub, heq, List.length_append]
  · rw [hsub]
    exact hl.le
  · intro i k n s' hstep htrace hk hn
    obtain ⟨hopen, hempty⟩ := Sleep.endOfFile hrun hstep htrace hk hn
    refine ⟨hopen, ?_⟩
    rw [heq, (Ring.Holds.empty_iff pipesize_lt hl).mp hempty, List.append_nil]

def writeRead : List Label :=
  .call 0 (.pipewrite 0 (fun j => UInt8.ofNat (7 + j)) 2) :: List.replicate 6 (.go 0) ++
    .call 1 (.piperead 0 1) :: List.replicate 6 (.go 1)

theorem pipe_fifo_writeRead : ∃ s, system.Run writeRead s ∧ stored 0 s.trace = [7, 8] ∧ taken 0 s.trace = [7] ∧ Fifo s 0 := by
  obtain ⟨s, hs, hstored, htaken⟩ : ∃ s, system.exec idle writeRead = some s ∧ stored 0 s.trace = [7, 8] ∧
      taken 0 s.trace = [7] := ⟨_, rfl, rfl, rfl⟩
  have hrun := (Automaton.Run.start start_idle).exec hs
  exact ⟨s, hrun, hstored, htaken, pipe_fifo _ s hrun 0⟩

end Xv6.Sleep
