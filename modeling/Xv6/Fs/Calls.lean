import Xv6.Fs.Consistent
import Xv6.Lib.Transition

/-!
# Sequences of calls

The calls on the inode layer that the rest of the kernel makes, one after the other. A caller keeps to the
locking rules: it reads, writes and changes an inode only while it holds the lock, it calls `iupdate` for the
fields it has assigned before it lets go of the lock, and it does not drop the last reference while it holds it.
That `writei` and `itrunc` leave a locked inode as it is on disk is not a rule but a fact about them.
-/

namespace Xv6.Fs

open Lib

inductive Call where
  | beginOp
  | endOp
  | ialloc (type : Int16)
  | iget (i : Nat)
  | idup (i : Nat)
  | ilock (i : Nat)
  | iunlock (i : Nat)
  | iput (i : Nat)
  | readi (i : Nat) (off n : UInt32)
  | writei (i : Nat) (src : Nat → UInt8) (off n : UInt32)
  /-- The assignments to the fields of a locked inode in `sysfile.c`. -/
  | assign (i : Nat) (major minor nlink : Int16)
  | iupdate (i : Nat)

def assign (ip : Nat) (major minor nlink : Int16) : FsM PUnit := do
  let e ← inode ip
  setInode ip { e with din := { e.din with major := major, minor := minor, nlink := nlink } }

def Call.run (devsw : Devsw) : Call → FsM PUnit
  | .beginOp => Fs.beginOp
  | .endOp => Fs.endOp
  | .ialloc type => (fun _ => ⟨⟩) <$> Fs.ialloc type
  | .iget i => Fs.iget i
  | .idup i => Fs.idup i
  | .ilock i => Fs.ilock i
  | .iunlock i => Fs.iunlock i
  | .iput i => Fs.iput i
  | .readi i off n => (fun _ => ⟨⟩) <$> Fs.readi devsw i off n
  | .writei i src off n => (fun _ => ⟨⟩) <$> Fs.writei devsw i src off n
  | .assign i major minor nlink => Fs.assign i major minor nlink
  | .iupdate i => Fs.iupdate i

/-- The rules a caller keeps, by the inodes with assignments that are not on disk and the entry of its inode. -/
def Call.entryOk (unsaved : Nat → Bool) : Call → Inode → Bool
  | .iunlock i, _ => !unsaved i
  | .iput _, e => !e.busy || decide (1 < e.ref)
  | .readi .., e | .writei .., e | .assign .., e | .iupdate _, e => e.busy && e.valid
  | _, _ => true

/-- Except to get a reference, a caller has one to the inode of its call. -/
def Call.allowed (sb : Superblock) (unsaved : Nat → Bool) (v : View) (c : Call) : Bool :=
  match c with
  | .beginOp | .endOp | .ialloc _ => true
  | .iget i => decide (i < sb.ninodes)
  | .idup i | .ilock i | .iunlock i | .iput i | .readi i .. | .writei i .. | .assign i .. | .iupdate i =>
    (v.icache i).any (c.entryOk unsaved)

def Call.unsaved (unsaved : Nat → Bool) : Call → Nat → Bool
  | .assign i .. => Function.update unsaved i true
  | .iupdate i => Function.update unsaved i false
  | _ => unsaved

def State.Consistent (s : State) : Prop := Fs.Consistent s.super (s.view s.super)

structure Layer where
  fs : State
  unsaved : Nat → Bool

def callStep (devsw : Devsw) (l : Layer) (c : Call) : Outcome Panic Layer :=
  if c.allowed l.fs.super l.unsaved (l.fs.view l.fs.super) then
    match c.run devsw l.fs with
    | .ok (_, s') => .next ⟨s', c.unsaved l.unsaved⟩
    | .error e => .fail e
  else .disabled

/-- A valid inode is as it is on disk unless it has unsaved fields, and then it is locked. -/
structure Saved (unsaved : Nat → Bool) (v : View) : Prop where
  locked : ∀ i, unsaved i = true → ∃ e, v.icache i = some e ∧ e.busy = true
  same : ∀ i e, v.icache i = some e → e.valid = true → unsaved i = false → e.din.Same (v.dinode i)

structure Layer.Consistent (l : Layer) : Prop where
  fs : l.fs.Consistent
  saved : Saved l.unsaved (l.fs.view l.fs.super)

def inodeLayer (devsw : Devsw) : Automaton Layer Call Panic := ⟨Layer.Consistent, callStep devsw⟩

/-! ### What a call does -/

/-- The effect of a call on the inodes with unsaved fields and on the disk. -/
inductive Effect (sb : Superblock) (u : Nat → Bool) : View → (Nat → Bool) → View → Prop where
  | same {v} : Effect sb u v u v
  | noted {v} (x : Event) : Effect sb u v u (v.note x)
  | taken {v i} (hi : i < sb.ninodes) : Effect sb u v u (v.take i)
  | alloc {v i} (type : Int16) (hi : i < sb.ninodes) (hfree : (v.dinode i).type = 0) :
    Effect sb u v u ((v.setDinode i (Dinode.ofType type)).take i)
  | locked {v ip e} (he : v.icache ip = some e) (hbusy : e.busy = false)
    (htype : e.valid = false → (v.dinode ip).type ≠ 0) : Effect sb u v u (v.locked ip e)
  | unlocked {v ip e} (he : v.icache ip = some e) (hsaved : u ip = false) :
    Effect sb u v u (v.setInode ip { e with busy := false })
  | dropped {v ip e} (he : v.icache ip = some e) (hbusy : e.busy = true → 1 < e.ref) : Effect sb u v u (v.drop ip e)
  | freed {v v' ip e} (he : v.icache ip = some e) (hbusy : e.busy = false) (hf : Freed ip e v v') : Effect sb u v u v'
  | read {v v' ip e off n} (he : v.icache ip = some e) (hvalid : e.valid = true) (hend : off + n ≤ e.din.size.toNat)
    (hg : Grows sb ip (NeedsRange off n) v v') : Effect sb u v u v'
  | written {v v' ip e off n src} (he : v.icache ip = some e) (hvalid : e.valid = true) (hbusy : e.busy = true)
    (hfits : Fits e.din.size.toNat off.toNat n.toNat) (hw : Written sb ip e off n src v v') : Effect sb u v u v'
  | assigned {v ip e} (major minor nlink : Int16) (he : v.icache ip = some e) (hvalid : e.valid = true)
    (hbusy : e.busy = true) :
    Effect sb u v (Function.update u ip true) (v.setInode ip { e with din := { e.din with major := major, minor := minor, nlink := nlink } })
  | updated {v ip e} (he : v.icache ip = some e) (hvalid : e.valid = true) :
    Effect sb u v (Function.update u ip false) (v.setDinode ip e.din)

variable {sb : Superblock} {u u' : Nat → Bool} {v v' : View} {devsw : Devsw} {c : Call}

theorem exists_of_any {α : Type} {o : Option α} {f : α → Bool} (h : o.any f = true) : ∃ a, o = some a ∧ f a = true := by
  cases o with
  | none => cases h
  | some a => exact ⟨a, rfl, h⟩

theorem vwp_call (devsw : Devsw) (h : Own sb v) (hsize : ∀ i, (v.cur i).size.toNat ≤ maxFile * bsize) (hallowed : c.allowed sb u v = true) :
    vwp sb (c.run devsw) (fun _ v' => Effect sb u v (c.unsaved u) v') (fun _ => True) v := by
  cases c with
  | beginOp => exact vwp_beginOp (.noted _)
  | endOp => exact vwp_note (.noted _)
  | ialloc type =>
    exact vwp_map (vwp_ialloc trivial (fun _ _ _ => trivial) fun i _ hi hfree _ _ => .alloc type hi hfree)
  | iget i => exact vwp_iget (fun _ _ => trivial) fun _ => .taken (of_decide_eq_true hallowed)
  | idup i =>
    obtain ⟨e, he, -⟩ := exists_of_any hallowed
    have htake : v.setInode i { e with ref := e.ref + 1 } = v.take i := by rw [View.take, he]
    exact vwp_idup he (htake ▸ .taken (h.handle i e he))
  | ilock i =>
    obtain ⟨e, he, -⟩ := exists_of_any hallowed
    exact vwp_ilock he (h.handle i e he) (fun _ => trivial) (fun _ _ => trivial) (.locked he)
  | iunlock i =>
    obtain ⟨e, he, hsaved⟩ := exists_of_any hallowed
    exact vwp_iunlock he (fun _ => trivial) fun _ => .unlocked he (by simpa [Call.entryOk] using hsaved)
  | iput i =>
    obtain ⟨e, he, hbusy⟩ := exists_of_any hallowed
    refine vwp_iput h he (fun _ _ _ _ => trivial) (fun _ _ _ hbusy v' hf => .freed he hbusy hf) fun _ => .dropped he fun hb => ?_
    simpa [Call.entryOk, hb] using hbusy
  | readi i off n =>
    obtain ⟨e, he, hheld⟩ := exists_of_any hallowed
    obtain ⟨-, hvalid⟩ := Bool.and_eq_true_iff.mp hheld
    refine vwp_map ?_
    by_cases hdev : e.din.type = tDev
    · exact vwp_mono (vwp_readi_dev he hdev) (fun _ v' heq => heq ▸ .same) fun _ hE => hE
    · have hmax := hsize i
      rw [cur_of_valid he hvalid] at hmax
      refine vwp_mono (vwp_readi h he hvalid hdev hmax fun _ _ _ _ _ _ => trivial) (fun r v' hpost => ?_) fun _ hE => hE
      split at hpost
      · exact hpost.2 ▸ .same
      · rename_i hbad
        refine .read he hvalid ?_ hpost.2
        unfold readCount BadRange at *
        omega
  | writei i src off n =>
    obtain ⟨e, he, hheld⟩ := exists_of_any hallowed
    obtain ⟨hbusy, hvalid⟩ := Bool.and_eq_true_iff.mp hheld
    refine vwp_map ?_
    by_cases hdev : e.din.type = tDev
    · exact vwp_mono (vwp_writei_dev he hdev) (fun _ v' heq => heq ▸ .same) fun _ hE => hE
    · refine vwp_mono (vwp_writei h he hvalid hdev fun _ _ _ _ _ _ _ => trivial) (fun r v' hpost => ?_) fun _ hE => hE
      split at hpost
      · exact .written he hvalid hbusy ‹_› hpost.2
      · exact hpost.2 ▸ .same
  | assign i major minor nlink =>
    obtain ⟨e, he, hheld⟩ := exists_of_any hallowed
    obtain ⟨hbusy, hvalid⟩ := Bool.and_eq_true_iff.mp hheld
    exact vwp_bind (vwp_inode he (vwp_setInode (.assigned major minor nlink he hvalid hbusy)))
  | iupdate i =>
    obtain ⟨e, he, hheld⟩ := exists_of_any hallowed
    obtain ⟨-, hvalid⟩ := Bool.and_eq_true_iff.mp hheld
    exact vwp_iupdate he (h.handle i e he) (.updated he hvalid)

theorem Consistent.effect (h : Consistent sb v) (hsaved : Saved u v) (heff : Effect sb u v u' v') : Consistent sb v' := by
  cases heff with
  | same => exact h
  | noted x => exact h.note x
  | taken hi => exact h.take hi
  | alloc type hi hfree => exact (h.ialloc hfree type).take hi
  | locked he hbusy htype => exact h.locked he htype
  | unlocked he hclean =>
    have htyped := h.typed _ _ he
    have hsame := hsaved.same _ _ he
    refine h.setInode (h.handle _ _ he) ?_ (fun hvalid _ => hsame hvalid hclean) htyped
    simp only [View.cur, he]
    exact .of_eq rfl
  | dropped he hbusy => exact h.drop he hbusy
  | freed he _ hf => exact h.freed hf
  | read he hvalid hend hg => exact h.grows he hvalid hend hg
  | written he hvalid hbusy hfits hw => exact h.written he hvalid hbusy hfits hw
  | assigned major minor nlink he hvalid hbusy =>
    have htyped := h.typed _ _ he
    refine h.setInode (h.handle _ _ he) ?_ (fun _ hb => absurd hb (by simp [hbusy])) htyped
    rw [cur_of_valid he hvalid, if_pos hvalid]
    exact ⟨rfl, rfl, rfl⟩
  | updated he hvalid => exact h.setDinode he hvalid _ fun _ => .refl _

/-- A call that is about inode `ip` leaves the others alone. -/
theorem Saved.update (h : Saved u v) (ip : Nat) (hu : ∀ i, i ≠ ip → u' i = u i) (hcache : ∀ i, i ≠ ip → v'.icache i = v.icache i)
    (hdinode : ∀ i, i ≠ ip → v'.dinode i = v.dinode i) (hlocked : u' ip = true → ∃ e, v'.icache ip = some e ∧ e.busy = true)
    (hsame : ∀ e, v'.icache ip = some e → e.valid = true → u' ip = false → e.din.Same (v'.dinode ip)) : Saved u' v' := by
  refine ⟨fun i hi => ?_, fun i e he hvalid hi => ?_⟩
  · by_cases hip : i = ip
    · exact hip ▸ hlocked (hip ▸ hi)
    · rw [hcache i hip]
      exact h.locked i (hu i hip ▸ hi)
  · by_cases hip : i = ip
    · subst hip
      exact hsame e he hvalid hi
    · rw [hdinode i hip]
      exact h.same i e (hcache i hip ▸ he) hvalid (hu i hip ▸ hi)

/-- The entry of inode `ip` changes, but not what is copied from disk. -/
theorem Saved.setInode (h : Saved u v) {ip : Nat} {e e' : Inode} (he : v.icache ip = some e) (hdin : e'.din = e.din)
    (hvalid : e'.valid = e.valid) (hbusy : u ip = true → e.busy = true → e'.busy = true) : Saved u (v.setInode ip e') := by
  refine h.update ip (fun _ _ => rfl) (fun i hi => setInode_other v hi e') (fun _ _ => rfl) (fun hu => ?_) fun d hd hv hu => ?_
  · obtain ⟨d, hd, hb⟩ := h.locked ip hu
    obtain rfl := Option.some.inj (he.symm.trans hd)
    exact ⟨e', setInode_same _ _ _, hbusy hu hb⟩
  · obtain rfl := Option.some.inj ((setInode_same v ip e').symm.trans hd)
    rw [hdin]
    exact h.same ip e he (hvalid ▸ hv) hu

theorem Saved.take (h : Saved u v) (i : Nat) : Saved u (v.take i) := by
  unfold View.take
  cases he : v.icache i with
  | some e => exact h.setInode he rfl rfl fun _ hb => hb
  | none =>
    refine h.update i (fun _ _ => rfl) (fun j hj => setInode_other v hj _) (fun _ _ => rfl) (fun hu => ?_) fun d hd hv _ => ?_
    · obtain ⟨e, he', -⟩ := h.locked i hu
      rw [he] at he'
      cases he'
    · obtain rfl := Option.some.inj ((setInode_same v i _).symm.trans hd)
      cases hv

theorem Saved.drop (h : Saved u v) {ip : Nat} {e : Inode} (he : v.icache ip = some e) (hbusy : e.busy = true → 1 < e.ref) :
    Saved u (v.drop ip e) := by
  unfold View.drop
  split
  · rename_i hle
    refine h.update ip (fun _ _ => rfl) (fun i hi => Function.update_of_ne hi _ _) (fun _ _ => rfl) (fun hu => ?_) fun d hd _ _ => ?_
    · obtain ⟨d, hd, hb⟩ := h.locked ip hu
      obtain rfl := Option.some.inj (he.symm.trans hd)
      exact absurd (hbusy hb) (by omega)
    · cases (Function.update_self ip none v.icache).symm.trans hd
  · exact h.setInode he rfl rfl fun _ hb => hb

theorem Saved.effect (h : Saved u v) (hv : Consistent sb v) (heff : Effect sb u v u' v') : Saved u' v' := by
  cases heff with
  | same => exact h
  | noted x => exact ⟨h.locked, h.same⟩
  | taken hi => exact h.take _
  | @alloc i type hi hfree =>
    refine Saved.take ?_ i
    refine h.update i (fun _ _ => rfl) (fun _ _ => rfl) (fun j hj => Function.update_of_ne hj _ _) (h.locked i) fun e he hvalid hu => ?_
    -- the type of a valid inode is not zero
    exact absurd ((h.same i e he hvalid hu).type.trans hfree) (hv.typed i e he hvalid)
  | @locked ip e he hbusy htype =>
    refine h.update ip (fun _ _ => rfl) (fun i hi => setInode_other v hi _) (fun _ _ => rfl) (fun _ => ⟨_, setInode_same _ _ _, rfl⟩) ?_
    intro d hd _ _
    obtain rfl := Option.some.inj ((setInode_same _ _ _).symm.trans hd)
    exact hv.synced_cur he hbusy
  | unlocked he hclean => exact h.setInode he rfl rfl fun hu => absurd (hclean.symm.trans hu) (by decide)
  | dropped he hbusy => exact h.drop he hbusy
  | @freed _ ip e he hbusy hf =>
    refine h.update ip (fun _ _ => rfl) hf.other (fun i hi => by rw [hf.dinode, Function.update_of_ne hi]) (fun hu => ?_) fun d hd _ _ => ?_
    · obtain ⟨d, hd, hb⟩ := h.locked ip hu
      obtain rfl := Option.some.inj (he.symm.trans hd)
      rw [hbusy] at hb
      cases hb
    · rw [hf.self] at hd
      cases hd
  | @read _ ip e off n he hvalid hend hg =>
    -- the file has every block it is read from, so nothing changes
    obtain ⟨-, hcache, -⟩ := hg.toExtends.same he hvalid fun p hp => hv.needsRange_own (by rw [cur_of_valid he hvalid]; exact hend) hp
    refine ⟨fun i hi => ?_, fun i d hd => ?_⟩
    · rw [hcache]
      exact h.locked i hi
    · rw [hg.dinode]
      exact h.same i d (hcache ▸ hd)
  | @written _ ip e off n src he hvalid hbusy hfits hw =>
    obtain ⟨addrs, hself⟩ := hw.self
    refine h.update ip (fun _ _ => rfl) hw.other (fun i hi => ?_) (fun _ => ⟨_, hself, hbusy⟩) fun d hd _ hu => ?_
    · rw [hw.dinode]
      split
      · exact Function.update_of_ne hi _ _
      · rfl
    · exact hw.synced hv he hvalid (h.same ip e he hvalid hu) hd
  | @assigned ip e major minor nlink he hvalid hbusy =>
    refine h.update ip (fun i hi => Function.update_of_ne hi _ _) (fun i hi => setInode_other v hi _) (fun _ _ => rfl)
      (fun _ => ⟨_, setInode_same _ _ _, hbusy⟩) fun d _ _ hu => ?_
    rw [Function.update_self] at hu
    cases hu
  | @updated ip e he hvalid =>
    refine h.update ip (fun i hi => Function.update_of_ne hi _ _) (fun _ _ => rfl) (fun i hi => Function.update_of_ne hi _ _)
      (fun hu => ?_) fun d hd _ _ => ?_
    · rw [Function.update_self] at hu
      cases hu
    · obtain rfl := Option.some.inj (he.symm.trans hd)
      change Dinode.Same _ (Function.update v.dinode ip e.din ip)
      rw [Function.update_self]
      exact .refl _

theorem effect_of_step {l l' : Layer} (hown : Own l.fs.super (l.fs.view l.fs.super))
    (hsize : ∀ i, ((l.fs.view l.fs.super).cur i).size.toNat ≤ maxFile * bsize) (hstep : callStep devsw l c = .next l') :
    l'.fs.super = l.fs.super ∧ Effect l.fs.super l.unsaved (l.fs.view l.fs.super) l'.unsaved (l'.fs.view l.fs.super) := by
  unfold callStep at hstep
  split at hstep
  · rename_i hallowed
    have hwp := vwp_call devsw hown hsize hallowed l.fs ⟨rfl, rfl⟩
    cases hrun : c.run devsw l.fs with
    | error e => simp [hrun] at hstep
    | ok r =>
      obtain rfl : (⟨r.2, c.unsaved l.unsaved⟩ : Layer) = l' := by simpa [hrun] using hstep
      obtain ⟨v', hrep, heff⟩ := wp_ok hwp hrun
      exact ⟨hrep.super, hrep.view ▸ heff⟩
  · cases hstep

theorem Layer.Consistent.step {l l' : Layer} (h : l.Consistent) (hstep : callStep devsw l c = .next l') :
    l'.Consistent := by
  obtain ⟨hsuper, heff⟩ := effect_of_step h.fs.toOwn h.fs.size hstep
  refine ⟨?_, ?_⟩
  · unfold State.Consistent
    rw [hsuper]
    exact h.fs.effect h.saved heff
  · rw [hsuper]
    exact h.saved.effect h.fs heff

theorem Layer.Consistent.exec {cs : List Call} {l l' : Layer} (h : l.Consistent)
    (hexec : (inodeLayer devsw).exec l cs = some l') : l'.Consistent := by
  induction cs generalizing l with
  | nil =>
    obtain rfl : l = l' := by simpa [Automaton.exec] using hexec
    exact h
  | cons c cs ih =>
    obtain ⟨t, ht, hrest⟩ := Option.bind_eq_some_iff.mp hexec
    exact ih (h.step (Outcome.state?_eq_some.mp ht)) hrest

/-- No block has two owners, a data block is marked in use exactly if it has one, a file has blocks exactly
up to its end, cached inodes agree with the disk and free inodes own nothing, after any calls. -/
theorem block_allocation_invariant (devsw : Devsw) {cs : List Call} {l : Layer} (hrun : (inodeLayer devsw).Run cs l) :
    l.fs.Consistent :=
  (hrun.invariant (I := fun _ l => Layer.Consistent l) (fun _ hl => hl) fun _ _ _ _ h hstep => h.step hstep).fs

/-- A disk of 84 blocks without files: block 4 is the bitmap, the data begin at block 5, and the log is as long as
`mkfs` makes it. -/
def blankDisk : State where
  blocks b :=
    if b = 1 then put32 (put32 (put32 (put32 Bytes.zero 0 84) 4 49) 8 8) 12 30
    else if b = 4 then Bytes.ofFn fun i => if i = 0 then 31 else 0
    else Bytes.zero
  icache _ := none
  ncached := 0
  logsize := 30
  trace := []

theorem blankDisk_super : blankDisk.super = ⟨84, 49, 8, 30⟩ := by decide +kernel

/-- A disk with one bitmap block and eight free inodes in the block before it. -/
theorem consistent_of_blank {s : State} {sb : Superblock} (hsuper : s.super = sb) (hninodes : sb.ninodes = 8) (hstart : dataStart sb = 5)
    (hbit : ∀ b < sb.size, (s.view sb).bit b = decide (b < 5)) (hsize : 5 ≤ sb.size) (hblock : s.blocks 2 = Bytes.zero)
    (hcache : ∀ i, s.icache i = none) : s.Consistent := by
  have hcur : ∀ i, (s.view sb).cur i = Dinode.zero := by
    intro i
    have hview : (s.view sb).cur i = if i < sb.ninodes then getDinode (s.blocks (iblock i)) (ioffset i) else Dinode.zero := by
      simp only [View.cur, State.view, hcache]
    rw [hview, hninodes]
    split
    · rename_i hi
      rw [iblock_eq, Nat.div_eq_of_lt hi, hblock, getDinode_zero]
    · rfl
  have hown : ∀ i p, (s.view sb).own i p = 0 := fun i => own_eq_zero fun k => by rw [hcur]; rfl
  unfold State.Consistent
  rw [hsuper]
  refine ⟨⟨fun b hb => ?_, ?_, ?_, ?_⟩, fun b hlo hhi hb => ?_, fun i => ?_, fun i bn hbn => ?_, ?_, ?_, fun i p _ => hown i p⟩
  · rw [hstart] at hb
    rw [hbit b (by omega), decide_eq_true hb]
  · simp [State.view, hcache]
  · intro i p hp
    exact absurd (hown i p) hp
  · intro i p j q hp
    exact absurd (hown i p) hp
  · rw [hstart] at hlo
    rw [hbit b (by omega), decide_eq_true_eq] at hb
    omega
  · rw [hcur]
    simp [Dinode.zero]
  · rw [hown, hcur]
    simp [Dinode.zero]
  · simp [State.view, hcache]
  · simp [State.view, hcache]

theorem blankDisk_consistent : blankDisk.Consistent :=
  consistent_of_blank blankDisk_super rfl rfl (by decide +kernel) (by decide) rfl fun _ => rfl

def noDev : Devsw := ⟨fun _ => none, fun _ => none⟩

/-- A disk after some calls on a blank one. -/
def State.made (s : State) (cs : List Call) : State := (((inodeLayer noDev).exec ⟨s, fun _ => false⟩ cs).map Layer.fs).getD s

theorem Layer.consistent_blank {s : State} (hs : s.Consistent) (hcache : ∀ i, s.icache i = none) :
    Layer.Consistent ⟨s, fun _ => false⟩ := by
  refine ⟨hs, ⟨fun i hi => absurd hi (by simp), fun i e he => ?_⟩⟩
  change s.icache i = some e at he
  rw [hcache] at he
  cases he

theorem State.Consistent.made {s : State} {cs : List Call} (hs : s.Consistent) (hcache : ∀ i, s.icache i = none) :
    (s.made cs).Consistent := by
  unfold State.made
  cases hexec : (inodeLayer noDev).exec ⟨s, fun _ => false⟩ cs with
  | none => exact hs
  | some l => exact ((Layer.consistent_blank hs hcache).exec hexec).fs

theorem block_allocation_invariant_file : ∃ l, (inodeLayer noDev).Run
    [.beginOp, .ialloc tFile, .ilock 1, .writei 1 (fun _ => 7) 0 700, .assign 1 0 0 1, .iupdate 1, .iunlock 1, .iput 1, .endOp] l ∧
      l.fs.Consistent := by
  have hexec : ((inodeLayer noDev).exec ⟨blankDisk, fun _ => false⟩ [.beginOp, .ialloc tFile, .ilock 1, .writei 1 (fun _ => 7) 0 700,
      .assign 1 0 0 1, .iupdate 1, .iunlock 1, .iput 1, .endOp]).isSome = true := by decide +kernel
  obtain ⟨l, hl⟩ := Option.isSome_iff_exists.mp hexec
  have hstart : (inodeLayer noDev).Run [] ⟨blankDisk, fun _ => false⟩ :=
    .start (Layer.consistent_blank blankDisk_consistent fun _ => rfl)
  exact ⟨l, hstart.exec hl, block_allocation_invariant noDev (hstart.exec hl)⟩

end Xv6.Fs
