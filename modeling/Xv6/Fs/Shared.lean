import Xv6.Fs.Offset

/-!
# Calls on one open file

Any number of `filewrite` and `fileread` calls on one `struct file`, which processes share after `dup` and `fork`. Its
offset is read and moved under the lock of the inode, so a step of the system is what a call does between `ilock` and
`iunlock`: one piece of a write, or a read.
-/

namespace Xv6.Fs

open Lib

/-- The part of `fileread` under the lock: what `readi` stores, and the new file offset. -/
def filereadPiece (devsw : Devsw) (ip : Nat) (off n : UInt32) : FsM (Option (List UInt8) × UInt32) := do
  ilock ip
  let r ← readi devsw ip off n
  iunlock ip
  match r with
  | some bs => return (some bs, off + UInt32.ofNat bs.length)
  | none => return (none, off)

/-- The calls: a write of `n` bytes, and a read of up to `n` bytes. -/
inductive Request where
  | write (src : Nat → UInt8) (n : Int)
  | read (n : UInt32)

inductive Status where
  /-- The call is under way, and has written `i` bytes. -/
  | running (i : Nat)
  | wrote (r : Int)
  | got (r : Option (List UInt8))
deriving DecidableEq

def Status.count : Status → Nat
  | .running _ => 0
  | .wrote r => r.toNat
  | .got r => (r.getD []).length

inductive Status.Succeeded : Status → Prop
  | wrote (n : Nat) : Succeeded (.wrote n)
  | got (bs : List UInt8) : Succeeded (.got (some bs))

/-- Bytes that a call has written or read at an offset. -/
structure Entry (ι : Type) where
  call : ι
  off : Nat
  bytes : List UInt8

structure Shared (ι : Type) where
  fs : State
  file : File
  status : ι → Status
  log : List (Entry ι)

namespace Shared

variable {ι : Type} [DecidableEq ι] (devsw : Devsw) (calls : ι → Request)

def advance (s : Shared ι) (t : ι) (fs : State) (off : UInt32) (status : Status) (bytes : List UInt8) : Shared ι where
  fs := fs
  file := { s.file with off := off }
  status := Function.update s.status t status
  log := s.log ++ [⟨t, s.file.off.toNat, bytes⟩]

def step (s : Shared ι) (t : ι) : Outcome Panic (Shared ι) :=
  match s.status t, calls t with
  | .running i, .write src n =>
    if i < n.toNat then
      let n1 := min (n.toNat - i) maxPiece
      match filewritePiece devsw s.file.ip (fun k => src (i + k)) s.file.off n1 s.fs with
      | .error e => .fail e
      | .ok ((none, off), fs) => .next (s.advance t fs off (.wrote (-1)) [])
      | .ok ((some r, off), fs) =>
        if r ≠ n1 then .fail .shortFilewrite
        else .next (s.advance t fs off (.running (i + r)) ((List.range r).map fun k => src (i + k)))
    else .next { s with status := Function.update s.status t (.wrote (if (i : Int) = n then n else -1)) }
  | .running _, .read n =>
    match filereadPiece devsw s.file.ip s.file.off n s.fs with
    | .error e => .fail e
    | .ok ((r, off), fs) => .next (s.advance t fs off (.got r) (r.getD []))
  | _, _ => .disabled

/-- The calls on an open file, from a given state on. -/
def system (s₀ : Shared ι) : Automaton (Shared ι) ι Panic where
  start s := s = s₀
  step := step devsw calls

end Shared

/-! ### One step -/

variable {sb : Superblock} {v v' : View} {ip : Nat} {off off' : UInt32}

theorem overwrite_self {c bs : List UInt8} {off : Nat} (h : bs <+: c.drop off) : overwrite c off bs = c := by
  rw [overwrite, ← List.drop_drop, List.append_assoc]
  obtain ⟨rest, hrest⟩ := h
  rw [← hrest, List.drop_left, hrest, List.take_append_drop]

theorem Moved.drop_contents {bs : List UInt8} (h : Moved sb ip off bs off' v v') :
    (v'.contents ip).drop off'.toNat = (v.contents ip).drop off'.toNat := by
  rw [h.contents, h.moved]
  rcases h.fits with rfl | hle
  · rw [overwrite_nil]
  · exact List.drop_left' (by simp [hle])

theorem vwp_filereadPiece (devsw : Devsw) (h : Ready sb ip v) (off n : UInt32) :
    vwp sb (filereadPiece devsw ip off n) (fun r v' => Moved sb ip off (r.1.getD []) r.2 v v' ∧
      ∀ bs ∈ r.1, bs = ((v.contents ip).drop off.toNat).take n.toNat) (fun _ => False) v := by
  obtain ⟨e, he, hbusy⟩ := h.unlocked
  have htype := typed_of_file he h.type
  have hcur₁ : (v.locked ip e).cur ip = v.cur ip := cur_setInode rfl ip
  have he₁ : (v.locked ip e).icache ip = some { e with busy := true, valid := true, din := v.cur ip } := setInode_same _ _ _
  refine vwp_bind (vwp_ilock he (h.consistent.handle ip e he) (by simp [hbusy]) (fun hv hzero => absurd hzero (htype hv)) fun _ _ => ?_)
  refine vwp_seq (vwp_readi_contents devsw (h.consistent.locked he htype) he₁ rfl (by rw [h.type]; decide) off n) ?_
  rintro r v₂ ⟨hr, hcons, hcache, hdinode, hcontents⟩
  have he₂ := (congrFun hcache ip).trans he₁
  have hcur₂ : v₂.cur ip = v.cur ip := cur_of_valid he₂ rfl
  refine vwp_bind (vwp_iunlock he₂ (by simp) fun _ => ?_)
  have hcur₃ : (v₂.setInode ip { e with busy := false, valid := true, din := v.cur ip }).cur ip = v.cur ip := cur_setInode_self rfl
  have hready : Ready sb ip (v₂.setInode ip { e with busy := false, valid := true, din := v.cur ip }) := by
    refine ⟨hcons.unlock he₂ rfl ?_, ⟨_, setInode_same _ _ _, rfl⟩, (congrArg Dinode.type hcur₃).trans h.type⟩
    rw [hdinode]
    exact h.consistent.synced_cur he hbusy
  have hsame : (v₂.setInode ip { e with busy := false, valid := true, din := v.cur ip }).contents ip = v.contents ip := by
    rw [contents_of_cur (v := v₂) (hcur₃.trans hcur₂.symm) rfl, hcontents, contents_of_cur hcur₁ rfl]
  rw [contents_of_cur hcur₁ rfl] at hr
  split at hr
  · subst hr
    exact vwp_pure ⟨⟨hready, hsame.trans (overwrite_nil _ _).symm, rfl, .inl rfl⟩, by simp⟩
  · rename_i hbad
    subst hr
    have hpre := List.take_prefix (readCount (v.cur ip).size.toNat off.toNat n.toNat) ((v.contents ip).drop off.toNat)
    refine vwp_pure ⟨⟨hready, hsame.trans (overwrite_self hpre).symm, ?_, .inr ?_⟩, ?_⟩
    · have hlen := hpre.length_le
      have hsize := h.consistent.size ip
      rw [List.length_drop, length_contents] at hlen
      have hmax : maxFile * bsize = 71680 := rfl
      have hlt : ¬(v.cur ip).size.toNat < off.toNat := (not_or.mp hbad).1
      simp only [Option.getD_some]
      rw [toNat_add_of_lt] <;> rw [UInt32.toNat_ofNat_of_lt' (by simp only [UInt32.size]; omega)]
      omega
    · rw [length_contents]
      exact Nat.not_lt.mp (not_or.mp hbad).1
    · simp only [Option.mem_some_iff, forall_eq']
      rw [List.take_eq_take_iff, List.length_drop, length_contents, readCount]
      omega

namespace Shared

variable {ι : Type} [DecidableEq ι] {devsw : Devsw} {calls : ι → Request} {s₀ s s' : Shared ι} {t : ι}

def bytes (log : List (Entry ι)) : List UInt8 := log.flatMap Entry.bytes

def bytesOf (s : Shared ι) (t : ι) : List UInt8 := bytes (s.log.filter fun x => x.call = t)

inductive Sent : Request → Status → List UInt8 → Prop
  | writing {src : Nat → UInt8} {n : Int} {i : Nat} (hi : i ≤ n.toNat) : Sent (.write src n) (.running i) ((List.range i).map src)
  | wrote {src : Nat → UInt8} {n : Int} {i : Nat} : Sent (.write src n) (.wrote (if (i : Int) = n then n else -1)) ((List.range i).map src)
  | reading {n : UInt32} : Sent (.read n) (.running 0) []
  | got {n : UInt32} {r : Option (List UInt8)} : Sent (.read n) (.got r) (r.getD [])

structure Inv (calls : ι → Request) (s₀ s : Shared ι) : Prop where
  super : s.fs.super = s₀.fs.super
  ip : s.file.ip = s₀.file.ip
  moved : Moved s₀.fs.super s₀.file.ip s₀.file.off (bytes s.log) s.file.off (s₀.fs.view s₀.fs.super) (s.fs.view s₀.fs.super)
  places : ∀ l₁ x l₂, s.log = l₁ ++ x :: l₂ → x.off = s₀.file.off.toNat + (bytes l₁).length
  sent : ∀ t, Sent (calls t) (s.status t) (s.bytesOf t)
  reads : ∀ x ∈ s.log, ∀ n, calls x.call = .read n → ∃ r, s.status x.call = .got r ∧
    ∀ bs ∈ r, x.bytes = ((s₀.fs.contents s₀.file.ip).drop x.off).take n.toNat

omit [DecidableEq ι] in
theorem bytes_append (l l' : List (Entry ι)) : bytes (l ++ l') = bytes l ++ bytes l' := List.flatMap_append

theorem bytesOf_advance (s : Shared ι) (t u : ι) (fs : State) (off : UInt32) (status : Status) (bs : List UInt8) :
    (s.advance t fs off status bs).bytesOf u = if u = t then s.bytesOf u ++ bs else s.bytesOf u := by
  simp only [bytesOf, advance, List.filter_append, bytes_append]
  by_cases hu : u = t
  · simp [hu, bytes]
  · simp [hu, Ne.symm hu, bytes]

theorem Inv.contents (h : Inv calls s₀ s) :
    s.fs.contents s₀.file.ip = overwrite (s₀.fs.contents s₀.file.ip) s₀.file.off.toNat (bytes s.log) := by
  rw [State.contents, h.super]
  exact h.moved.contents

theorem Inv.advance (h : Inv calls s₀ s) {fs : State} {off : UInt32} {status : Status} {bs : List UInt8}
    (hm : Moved s₀.fs.super s₀.file.ip s.file.off bs off (s.fs.view s₀.fs.super) v') (hrep : Rep s₀.fs.super fs v')
    (hrunning : ∀ r, s.status t ≠ .got r) (hsent : Sent (calls t) status (s.bytesOf t ++ bs))
    (hread : ∀ n, calls t = .read n → ∃ r, status = .got r ∧
      ∀ bs' ∈ r, bs = (((s.fs.view s₀.fs.super).contents s₀.file.ip).drop s.file.off.toNat).take n.toNat) :
    Inv calls s₀ (s.advance t fs off status bs) := by
  have hmoved := h.moved.trans hm
  have hlog : bytes (s.advance t fs off status bs).log = bytes s.log ++ bs := by simp [Shared.advance, bytes]
  -- the calls so far have not changed the file behind the offset
  rw [h.moved.drop_contents] at hread
  refine ⟨hrep.super, h.ip, ?_, ?_, fun u => ?_, ?_⟩
  · rw [hlog]
    exact hrep.view ▸ hmoved
  · intro l₁ x l₂ hsplit
    rcases List.eq_nil_or_concat l₂ with rfl | ⟨l₂, y, rfl⟩
    · obtain ⟨rfl, hx⟩ := List.append_inj' hsplit rfl
      obtain rfl := List.head_eq_of_cons_eq hx
      exact h.moved.moved
    · have hinit : s.log ++ [_] = (l₁ ++ x :: l₂) ++ [y] := hsplit.trans (by simp)
      exact h.places l₁ x l₂ (List.append_inj' hinit rfl).1
  · rw [bytesOf_advance]
    by_cases hu : u = t
    · subst hu
      rw [if_pos rfl]
      simpa [Shared.advance] using hsent
    · rw [if_neg hu]
      simpa [Shared.advance, hu] using h.sent u
  · intro x hx n hcall
    rcases List.mem_append.mp hx with hx | hx
    · obtain ⟨r, hstatus, hbytes⟩ := h.reads x hx n hcall
      have hother : x.call ≠ t := fun heq => hrunning r (heq ▸ hstatus)
      exact ⟨r, by simpa [Shared.advance, hother] using hstatus, hbytes⟩
    · obtain rfl := List.mem_singleton.mp hx
      simpa [Shared.advance, State.contents] using hread n hcall

theorem Inv.step (h : Inv calls s₀ s) (hstep : step devsw calls s t = .next s') : Inv calls s₀ s' := by
  have hsent := h.sent t
  have hrep : Rep s₀.fs.super s.fs (s.fs.view s₀.fs.super) := ⟨h.super, rfl⟩
  obtain ⟨e, he, hbusy⟩ := h.moved.unlocked
  unfold Shared.step at hstep
  rw [h.ip] at hstep
  generalize hreq : calls t = req at hsent hstep
  generalize hstatus : s.status t = status at hsent hstep
  generalize hbytes : s.bytesOf t = bs at hsent
  cases hsent with
  | @writing src n i hi =>
    simp only at hstep
    split at hstep
    · rename_i hlt
      have hn1 : min (n.toNat - i) maxPiece < 2 ^ 32 := by
        have hpiece : maxPiece = 6656 := rfl
        omega
      cases hrun : filewritePiece devsw s₀.file.ip (fun k => src (i + k)) s.file.off (min (n.toNat - i) maxPiece) s.fs with
      | error x => simp [hrun] at hstep
      | ok p =>
        obtain ⟨⟨r, off⟩, fs⟩ := p
        obtain ⟨v', hrep', es, hp⟩ := wp_ok (vwp_filewritePiece (E := fun _ => True) devsw h.moved.consistent he h.moved.type hn1
          (fun _ => trivial) (fun _ _ _ _ _ _ _ => trivial) s.fs hrep) hrun
        rw [hrun] at hstep
        rcases hp.moved hn1 with ⟨-, hr, hm⟩ | ⟨-, hr, hm⟩ <;> obtain rfl : r = _ := hr
        · simp only [ne_eq, not_true_eq_false, if_false] at hstep
          cases hstep
          refine h.advance hm hrep' (by simp [hstatus]) ?_ (by simp [hreq])
          rw [hreq, hbytes, ← map_range_add]
          exact .writing (by omega)
        · cases hstep
          refine h.advance hm hrep' (by simp [hstatus]) ?_ (by simp [hreq])
          rw [hreq, hbytes, List.append_nil]
          have hfailed : (-1 : Int) = if (i : Int) = n then n else -1 := by
            split <;> omega
          exact hfailed ▸ .wrote
    · cases hstep
      have hend : i = n.toNat := by omega
      refine { h with sent := fun u => ?_, reads := fun x hx n' hn' => ?_ }
      · by_cases hu : u = t
        · subst hu
          show Sent (calls u) (Function.update s.status u _ u) (s.bytesOf u)
          rw [hreq, hbytes, Function.update_self]
          exact .wrote
        · show Sent (calls u) (Function.update s.status t _ u) (s.bytesOf u)
          rw [Function.update_of_ne hu]
          exact h.sent u
      · have hother : x.call ≠ t := by
          rintro heq
          simp [heq, hreq] at hn'
        simpa [hother] using h.reads x hx n' hn'
  | wrote => cases hstep
  | @reading n =>
    simp only at hstep
    have hwp := vwp_filereadPiece devsw h.moved.toReady s.file.off n s.fs hrep
    cases hrun : filereadPiece devsw s₀.file.ip s.file.off n s.fs with
    | error x => simp [hrun] at hstep
    | ok p =>
      obtain ⟨⟨r, off⟩, fs⟩ := p
      obtain ⟨v', hrep', hm, hgot⟩ := wp_ok hwp hrun
      rw [hrun] at hstep
      cases hstep
      refine h.advance hm hrep' (by simp [hstatus]) ?_ fun n' hn' => ⟨r, rfl, fun bs hbs => ?_⟩
      · rw [hreq, hbytes]
        exact .got
      · obtain rfl : n = n' := by simpa [hreq] using hn'
        rw [Option.mem_def.mp hbs, Option.getD_some]
        exact hgot bs hbs
  | got => cases hstep

end Shared

/-! ### Whole runs -/

namespace Shared

variable {ι : Type} [DecidableEq ι] {devsw : Devsw} {calls : ι → Request} {s₀ s : Shared ι}

/-- Calls that have not begun, on a regular file that nobody has locked. -/
structure Start (s : Shared ι) : Prop where
  ready : Ready s.fs.super s.file.ip (s.fs.view s.fs.super)
  status : ∀ t, s.status t = .running 0
  log : s.log = []

theorem inv_of_run (hstart : Start s₀) {as : List ι} (hrun : (system devsw calls s₀).Run as s) : Inv calls s₀ s := by
  refine hrun.invariant (I := fun _ s => Inv calls s₀ s) (fun s hs => ?_) fun _ _ _ _ h hstep => h.step hstep
  obtain rfl : s = s₀ := hs
  refine ⟨rfl, rfl, ?_, ?_, fun t => ?_, ?_⟩
  · rw [hstart.log]
    exact .refl hstart.ready _
  · simp [hstart.log]
  · rw [hstart.status, bytesOf, hstart.log]
    cases calls t with
    | write src n => exact .writing (Nat.zero_le _)
    | read n => exact .reading
  · simp [hstart.log]

theorem Sent.of_succeeded {req : Request} {status : Status} {bs : List UInt8} (h : Sent req status bs) (hs : status.Succeeded) :
    bs.length = status.count ∧ (∀ src n, req = .write src n → bs = (List.range n.toNat).map src) ∧
      (∀ n, req = .read n → status = .got (some bs)) := by
  cases h with
  | writing => cases hs
  | @wrote src n i =>
    have hi : (i : Int) = n := by
      by_contra hne
      rw [if_neg hne] at hs
      cases hs
    rw [if_pos hi]
    refine ⟨by simp [Status.count, ← hi], fun src' n' heq => ?_, by simp⟩
    cases heq
    rw [← hi, Int.toNat_natCast]
  | reading => cases hs
  | @got n r =>
    cases hs with
    | got bs => exact ⟨rfl, by simp, fun _ _ => rfl⟩

theorem length_bytes [Fintype ι] (log : List (Entry ι)) :
    (bytes log).length = ∑ t, (bytes (log.filter fun x => x.call = t)).length := by
  induction log with
  | nil => simp [bytes]
  | cons x log ih =>
    have hcons : ∀ t, (bytes ((x :: log).filter fun y => y.call = t)).length =
        (if x.call = t then x.bytes.length else 0) + (bytes (log.filter fun y => y.call = t)).length := by
      intro t
      by_cases ht : x.call = t <;> simp [ht, bytes]
    rw [Finset.sum_congr rfl fun t _ => hcons t, Finset.sum_add_distrib, ← ih, Finset.sum_ite_eq Finset.univ x.call]
    simp [bytes]

end Shared

open Shared in
/-- Whatever the order of the steps, the calls take turns on consecutive ranges of the file: a write has stored its bytes,
each of them once and in order, and a read of `n` bytes has got the next `n` bytes of the file, or as many as there are. -/
theorem shared_offset {ι : Type} [DecidableEq ι] [Fintype ι] (devsw : Devsw) (calls : ι → Request) {s₀ s : Shared ι} (hstart : Start s₀)
    {as : List ι} (hrun : (system devsw calls s₀).Run as s) (hdone : ∀ t, (s.status t).Succeeded) :
    (∀ l₁ x l₂, s.log = l₁ ++ x :: l₂ → x.off = s₀.file.off.toNat + (bytes l₁).length) ∧
    s.file.off.toNat = s₀.file.off.toNat + ∑ t, (s.status t).count ∧
    s.fs.contents s₀.file.ip = overwrite (s₀.fs.contents s₀.file.ip) s₀.file.off.toNat (bytes s.log) ∧
    (∀ t src n, calls t = .write src n → s.bytesOf t = (List.range n.toNat).map src) ∧
    (∀ t n, calls t = .read n → s.status t = .got (some (s.bytesOf t))) ∧
    ∀ x ∈ s.log, ∀ n, calls x.call = .read n → x.bytes = ((s₀.fs.contents s₀.file.ip).drop x.off).take n.toNat := by
  have h := inv_of_run hstart hrun
  have hsent := fun t => (h.sent t).of_succeeded (hdone t)
  refine ⟨h.places, ?_, h.contents, fun t => (hsent t).2.1, fun t => (hsent t).2.2, fun x hx n hn => ?_⟩
  · rw [h.moved.moved, length_bytes]
    exact congrArg _ (Finset.sum_congr rfl fun t _ => (hsent t).1)
  · obtain ⟨r, hstatus, hbytes⟩ := h.reads x hx n hn
    rw [(hsent x.call).2.2 n hn] at hstatus
    obtain rfl := Status.got.inj hstatus
    exact hbytes _ rfl

/-- Two writes of three bytes to the empty file. -/
def twoWrites : Fin 2 → Request
  | 0 => .write (fun k => UInt8.ofNat k) 3
  | 1 => .write (fun k => UInt8.ofNat (k + 7)) 3

def twoReads : Fin 2 → Request
  | 0 => .read 2
  | 1 => .read 9

/-- Nobody has used the descriptor yet. -/
def Shared.opened (fs : State) : Shared (Fin 2) := ⟨fs, emptyFd, fun _ => .running 0, []⟩

/-- The file is written, opened once more and read. -/
theorem shared_offset_twoReads : ∃ fs s, (Shared.system noDev twoReads (.opened fs)).Run [0, 1] s ∧
    s.status 0 = .got (some [7, 8]) ∧ s.status 1 = .got (some [9, 0, 1, 2]) ∧ s.file.off.toNat = 6 ∧
    ∀ x ∈ s.log, ∀ n, twoReads x.call = .read n → x.bytes = ((fs.contents 1).drop x.off).take n.toNat := by
  have hobserve : ((Shared.system noDev twoWrites (.opened emptyFile)).exec (.opened emptyFile) [1, 0, 0, 1]).bind (fun s =>
      ((Shared.system noDev twoReads (.opened s.fs)).exec (.opened s.fs) [0, 1]).map fun s => (s.status 0, s.status 1)) =
      some (.got (some [7, 8]), .got (some [9, 0, 1, 2])) := by decide +kernel
  obtain ⟨s₀, hs₀, hreads⟩ := Option.bind_eq_some_iff.mp hobserve
  obtain ⟨s, hs, hstatus⟩ := Option.map_eq_some_iff.mp hreads
  obtain ⟨h0, h1⟩ := Prod.mk.inj hstatus
  have hempty : Shared.Start (.opened emptyFile) :=
    ⟨⟨emptyFile_consistent, emptyFile_entry, by decide +kernel⟩, fun _ => rfl, rfl⟩
  have hwritten := Shared.inv_of_run hempty ((Automaton.Run.start rfl).exec hs₀)
  have hstart : Shared.Start (.opened s₀.fs) := ⟨hwritten.super ▸ hwritten.moved.toReady, fun _ => rfl, rfl⟩
  have hrun := (Automaton.Run.start (A := Shared.system noDev twoReads (.opened s₀.fs)) rfl).exec hs
  have hdone : ∀ t, (s.status t).Succeeded := by
    intro t
    fin_cases t
    · exact h0 ▸ .got _
    · exact h1 ▸ .got _
  obtain ⟨-, hoff, -, -, -, hgot⟩ := shared_offset noDev twoReads hstart hrun hdone
  refine ⟨s₀.fs, s, hrun, h0, h1, ?_, hgot⟩
  rw [hoff, Fin.sum_univ_two, h0, h1]
  rfl

end Xv6.Fs
