import Xv6.Fs.FileWrite

/-!
# The offset of an open file

`filewrite` moves the offset and stores bytes piece by piece. What it has done when it stops is a write of the bytes
before the piece that is refused, so a write that runs into the largest file size reports a failure after it has changed
the file.
-/

namespace Xv6.Fs

open Lib

variable {sb : Superblock} {v v' v₀ : View} {ip : Nat} {e : Inode} {off off' off₀ : UInt32} {src : Nat → UInt8} {N i : Nat}
  {E : Panic → Prop}

theorem overwrite_nil (old : List UInt8) (off : Nat) : overwrite old off [] = old := by
  simp [overwrite]

theorem overwrite_append {old : List UInt8} {off : Nat} (hoff : off ≤ old.length) (bs bs' : List UInt8) :
    overwrite (overwrite old off bs) (off + bs.length) bs' = overwrite old off (bs ++ bs') := by
  have hlen : (old.take off ++ bs).length = off + bs.length := by simp [hoff]
  unfold overwrite
  rw [List.take_left' hlen, ← List.drop_drop, List.drop_left' hlen, List.drop_drop, List.length_append, List.append_assoc _ bs,
    Nat.add_assoc]

theorem Takes.mono {off m n : Nat} (h : Takes sb ip off m v v') (hmn : m ≤ n) : Takes sb ip off n v v' := by
  obtain ⟨k, rfl⟩ := Nat.exists_eq_add_of_le hmn
  exact ⟨h.keeps, fun p hp => (h.only p hp).imp_right fun hneed => needsRange_add.mpr (.inl hneed), h.count⟩

/-! ### One section under the lock -/

/-- A regular file that a call can lock. -/
structure Ready (sb : Superblock) (ip : Nat) (v : View) : Prop where
  consistent : Consistent sb v
  unlocked : ∃ e, v.icache ip = some e ∧ e.busy = false
  type : (v.cur ip).type = tFile

/-- The bytes are in the file at the offset, and the offset has moved behind them. -/
structure Moved (sb : Superblock) (ip : Nat) (off : UInt32) (bytes : List UInt8) (off' : UInt32) (v v' : View) : Prop
    extends Ready sb ip v' where
  contents : v'.contents ip = overwrite (v.contents ip) off.toNat bytes
  moved : off'.toNat = off.toNat + bytes.length
  fits : bytes = [] ∨ off.toNat ≤ (v.contents ip).length

namespace Moved

variable {v₁ : View} {off₁ : UInt32} {bs bs' : List UInt8}

theorem refl (h : Ready sb ip v) (off : UInt32) : Moved sb ip off [] off v v :=
  ⟨h, (overwrite_nil _ _).symm, rfl, .inl rfl⟩

theorem trans (h : Moved sb ip off bs off₁ v v₁) (h' : Moved sb ip off₁ bs' off' v₁ v') : Moved sb ip off (bs ++ bs') off' v v' := by
  have hfits : bs ++ bs' = [] ∨ off.toNat ≤ (v.contents ip).length := by
    rcases h.fits with rfl | hle
    · refine h'.fits.imp_right fun hle => ?_
      rwa [h.contents, overwrite_nil, h.moved] at hle
    · exact .inr hle
  refine ⟨h'.toReady, ?_, ?_, hfits⟩
  · rw [h'.contents, h.contents, h.moved]
    rcases hfits with hnil | hle
    · obtain ⟨rfl, rfl⟩ := List.append_eq_nil_iff.mp hnil
      simp [overwrite_nil]
    · exact overwrite_append hle bs bs'
  · rw [h'.moved, h.moved, List.length_append, Nat.add_assoc]

theorem size (h : Moved sb ip off bs off' v v') : (v'.cur ip).size.toNat =
    if bs = [] then (v.cur ip).size.toNat else max (v.cur ip).size.toNat (off.toNat + bs.length) := by
  rw [← length_contents v', h.contents, ← length_contents v]
  split
  · rename_i hnil
    rw [hnil, overwrite_nil]
  · rename_i hne
    exact length_overwrite (h.fits.resolve_left hne)

end Moved

theorem Piece.ready {n1 : Nat} {r : Option Nat × UInt32} {es : List Event} (hp : Piece sb ip src off n1 r v v' es) : Ready sb ip v' :=
  ⟨hp.consistent, hp.unlocked, hp.type⟩

theorem Piece.moved {n1 : Nat} {r : Option Nat × UInt32} {es : List Event} (hp : Piece sb ip src off n1 r v v' es) (hn1 : n1 < 2 ^ 32) :
    Fits (v.cur ip).size.toNat off.toNat n1 ∧ r.1 = some n1 ∧ Moved sb ip off ((List.range n1).map src) r.2 v v' ∨
      ¬Fits (v.cur ip).size.toNat off.toNat n1 ∧ r.1 = none ∧ Moved sb ip off [] r.2 v v' := by
  have hcontents := hp.contents
  by_cases hfits : Fits (v.cur ip).size.toNat off.toNat n1
  · obtain ⟨rfl, -⟩ := hp.accepted hfits
    rw [if_pos hfits] at hcontents
    have hn : (UInt32.ofNat n1).toNat = n1 := UInt32.toNat_ofNat_of_lt' hn1
    refine .inl ⟨hfits, rfl, hp.ready, hcontents, ?_, .inr (by rw [length_contents]; exact hfits.1)⟩
    rw [toNat_add_of_lt (by rw [hn]; exact hfits.2.1), hn, List.length_map, List.length_range]
  · obtain ⟨rfl, -⟩ := hp.refused hfits
    rw [if_neg hfits] at hcontents
    exact .inr ⟨hfits, rfl, hp.ready, hcontents.trans (overwrite_nil _ _).symm, rfl, .inl rfl⟩

/-! ### The loop -/

/-- The first `i` bytes of a write of `N` bytes have been written. -/
structure Sofar (sb : Superblock) (ip : Nat) (src : Nat → UInt8) (off₀ : UInt32) (N : Nat) (v₀ : View) (i : Nat) (off : UInt32)
    (v : View) : Prop extends Moved sb ip off₀ ((List.range i).map src) off v₀ v where
  first : i = 0 ∨ Fits (v₀.cur ip).size.toNat off₀.toNat i ∧ min N maxPiece ≤ i
  takes : Takes sb ip off₀.toNat i v₀ v

namespace Sofar

theorem start (h : Ready sb ip v) : Sofar sb ip src off N v 0 off v := ⟨.refl h off, .inl rfl, .refl v⟩

theorem off_eq (h : Sofar sb ip src off₀ N v₀ i off v) : off.toNat = off₀.toNat + i := by
  rw [h.moved, List.length_map, List.length_range]

theorem size_eq (h : Sofar sb ip src off₀ N v₀ i off v) : (v.cur ip).size.toNat =
    if i = 0 then (v₀.cur ip).size.toNat else max (v₀.cur ip).size.toNat (off₀.toNat + i) := by
  simp only [h.size, List.length_map, List.length_range, List.map_eq_nil_iff, List.range_eq_nil]

theorem piece (h : Sofar sb ip src off₀ N v₀ i off v) {n1 : Nat} {off' : UInt32} (hn1 : n1 = min (N - i) maxPiece)
    (hfits : Fits (v.cur ip).size.toNat off.toNat n1) (hm : Moved sb ip off ((List.range n1).map fun k => src (i + k)) off' v v')
    (htakes : Takes sb ip off.toNat n1 v v') : Sofar sb ip src off₀ N v₀ (i + n1) off' v' := by
  have hsize := h.size_eq
  obtain ⟨hle, hlt, hend⟩ := hfits
  rw [h.off_eq] at hle hlt hend htakes
  refine ⟨?_, .inr ⟨⟨?_, by omega, by omega⟩, ?_⟩, h.takes.trans htakes⟩
  · rw [map_range_add]
    exact h.toMoved.trans hm
  · rcases h.first with rfl | hfirst
    · rwa [hsize, if_pos rfl] at hle
    · exact hfirst.1.1
  · rcases h.first with rfl | hfirst <;> omega

end Sofar

theorem vwp_filewriteLoop_sofar (devsw : Devsw) {fuel : Nat} (h : Sofar sb ip src off₀ N v₀ i off v) (hi : i ≤ N) (hfuel : N ≤ i + fuel)
    (hE : Fits (v₀.cur ip).size.toNat off₀.toNat (min N maxPiece) → v₀.nfree sb < v₀.needed ip off₀.toNat N → E .outOfBlocks) :
    vwp sb (filewriteLoop devsw ip src N fuel i off) (fun r v' => Sofar sb ip src off₀ N v₀ r.1 r.2 v' ∧ r.1 ≤ N ∧
      (r.1 < N → ¬Fits (v'.cur ip).size.toNat r.2.toNat (min (N - r.1) maxPiece))) E v := by
  induction fuel generalizing i off v with
  | zero => exact vwp_pure ⟨h, hi, fun hlt => absurd hlt (by omega)⟩
  | succ fuel ih =>
    unfold filewriteLoop
    by_cases hlt : i < N
    · rw [if_pos hlt]
      have hpiece : maxPiece = 6656 := rfl
      obtain ⟨e, he, hbusy⟩ := h.unlocked
      refine vwp_seq (vwp_filewritePiece devsw h.consistent he h.type (by omega) (by simp [hbusy])
        fun hfits v₁ p htakes hbits hp hzero => ?_) ?_
      · -- the blocks of the pieces so far and of this one are blocks of the whole write
        have hall : Takes sb ip off₀.toNat (i + min (N - i) maxPiece) v₀ v₁ := h.takes.trans (h.off_eq ▸ htakes)
        have hneed : NeedsRange off₀.toNat (i + min (N - i) maxPiece) p := needsRange_add.mpr (.inr (h.off_eq ▸ hp))
        obtain ⟨k, hk⟩ := Nat.exists_eq_add_of_le (show i + min (N - i) maxPiece ≤ N by omega)
        refine hE ?_ ((hall.mono (by omega)).nfree_lt hbits (hk ▸ needsRange_add.mpr (.inl hneed)) hzero)
        rcases h.first with rfl | ⟨⟨hle, -, hend⟩, hmin⟩
        · rwa [h.size_eq, if_pos rfl, h.off_eq, Nat.sub_zero] at hfits
        · have hmax : maxFile * bsize = 71680 := rfl
          exact ⟨hle, by omega, by omega⟩
      rintro ⟨r, off'⟩ v₁ ⟨es, hp⟩
      have htakes := hp.takes
      rcases hp.moved (by omega) with ⟨hfits, hr, hm⟩ | ⟨hfits, hr, hm⟩ <;> obtain rfl : r = _ := hr
      · rw [if_pos hfits] at htakes
        simp only [ne_eq, not_true_eq_false, if_false]
        exact ih (h.piece rfl hfits hm htakes) (by omega) (by omega)
      · rw [if_neg hfits] at htakes
        rw [h.off_eq] at htakes
        have hmoved := h.toMoved.trans hm
        rw [List.append_nil] at hmoved
        have hsofar : Sofar sb ip src off₀ N v₀ i off' v₁ := ⟨hmoved, h.first, h.takes.trans htakes⟩
        refine vwp_pure ⟨hsofar, hi, fun _ => ?_⟩
        rwa [hm.size, if_pos rfl, hm.moved]
    · rw [if_neg hlt]
      exact vwp_pure ⟨h, hi, fun hlt' => absurd hlt' hlt⟩

/-! ### What `filewrite` reports -/

theorem needed_zero (v : View) (ip off : Nat) : v.needed ip off 0 = 0 := by
  refine Finset.card_eq_zero.mpr (Finset.filter_eq_empty_iff.mpr fun p _ hp => ?_)
  obtain ⟨bn, ⟨x, hlo, hhi, -⟩, -⟩ := hp.1
  omega

/-- The call has stored all bytes and says so, or it has changed nothing and says that it failed. -/
def Reports (f : File) (src : Nat → UInt8) (n : Int) (s : State) (r : Int × File) (s' : State) : Prop :=
  (0 ≤ n ∧ r = (n, { f with off := f.off + UInt32.ofNat n.toNat }) ∧
    s'.contents f.ip = overwrite (s.contents f.ip) f.off.toNat ((List.range n.toNat).map src)) ∨
  (r = (-1, f) ∧ s'.contents f.ip = s.contents f.ip)

/-- How `filewrite` ends on a regular file: with the bytes before the piece that is refused. -/
theorem vwp_filewrite_sofar (devsw : Devsw) (pipewrite : FsM Int) {f : File} (h : Consistent sb v) (htype : f.type = .inode)
    (hwritable : f.writable = true) (he : v.icache f.ip = some e) (hbusy : e.busy = false) (hfile : (v.cur f.ip).type = tFile)
    (src : Nat → UInt8) (n : Int) (hE : Fits (v.cur f.ip).size.toNat f.off.toNat (min n.toNat maxPiece) → v.nfree sb < v.needed f.ip f.off.toNat n.toNat →
      E .outOfBlocks) :
    vwp sb (filewrite devsw pipewrite f src n) (fun r v' => ∃ (i : Nat) (off : UInt32), r = (if (i : Int) = n then n else -1, { f with off := off }) ∧
      Sofar sb f.ip src f.off n.toNat v i off v' ∧ i ≤ n.toNat ∧
      (i < n.toNat → ¬Fits (v'.cur f.ip).size.toNat off.toNat (min (n.toNat - i) maxPiece))) E v := by
  unfold filewrite
  rw [if_neg (by simp [hwritable]), htype]
  refine vwp_seq (vwp_filewriteLoop_sofar devsw (.start ⟨h, ⟨e, he, hbusy⟩, hfile⟩) (Nat.zero_le _) (by omega) hE) ?_
  intro r v' hpost
  exact vwp_pure ⟨r.1, r.2, rfl, hpost⟩

/-- A write reports what it did unless it is cut off in the middle: by the largest file size, or by the end of the free
blocks. -/
theorem filewrite_reports_iff (devsw : Devsw) (pipewrite : FsM Int) {s : State} (hs : s.Consistent) (hidle : s.Idle)
    (hbits : s.super.size < 12 * bpb) {f : File} (htype : f.type = .inode)
    {e : Inode} (he : s.icache f.ip = some e) (hbusy : e.busy = false) (hfile : ((s.view s.super).cur f.ip).type = tFile)
    (src : Nat → UInt8) (n : Int) :
    (∃ r s', filewrite devsw pipewrite f src n s = .ok (r, s') ∧ Reports f src n s r s') ↔
      f.writable = false ∨ n ≤ 0 ∨ ¬Fits (s.contents f.ip).length f.off.toNat (min n.toNat maxPiece) ∨
        f.off.toNat + n.toNat ≤ maxFile * bsize ∧
          (s.view s.super).needed f.ip f.off.toNat n.toNat ≤ (s.view s.super).nfree s.super := by
  have hlength : (s.contents f.ip).length = ((s.view s.super).cur f.ip).size.toNat := length_contents ..
  have hmax : maxFile * bsize = 71680 := rfl
  have hpiece : maxPiece = 6656 := rfl
  rw [hlength]
  cases hwritable : f.writable with
  | false =>
    have hrun : filewrite devsw pipewrite f src n s = .ok ((-1, f), s) := by
      unfold filewrite
      rw [if_pos hwritable]
      rfl
    exact iff_of_true ⟨_, s, hrun, .inr ⟨rfl, rfl⟩⟩ (.inl rfl)
  | true =>
    have hwp := vwp_filewrite_sofar (E := fun _ => Fits ((s.view s.super).cur f.ip).size.toNat f.off.toNat (min n.toNat maxPiece) ∧
      (s.view s.super).nfree s.super < (s.view s.super).needed f.ip f.off.toNat n.toNat) devsw pipewrite hs htype hwritable he hbusy hfile
      src n (fun hfits hlt => ⟨hfits, hlt⟩) s ⟨rfl, rfl⟩
    cases hrun : filewrite devsw pipewrite f src n s with
    | error x =>
      have hroom := wp_error (wp_filewrite_room devsw pipewrite ⟨rfl, rfl⟩ hs htype he hfile hbits n hidle) hrun
      obtain ⟨hfits, hlt⟩ := (wp_error hwp hrun).resolve_left fun hlog => absurd (hlog.symm.trans hroom) (by decide)
      refine iff_of_false (by simp) ?_
      rintro (hnot | hn | hnot | ⟨-, hle⟩)
      · cases hnot
      · rw [Int.toNat_of_nonpos hn, needed_zero] at hlt
        omega
      · exact hnot hfits
      · omega
    | ok p =>
      obtain ⟨v', hrep, i, off, hr, hsofar, hi, hrefused⟩ := wp_ok hwp hrun
      rw [← hrun, exists_run_iff hrun, hr]
      have hcontents : p.2.contents f.ip = overwrite (s.contents f.ip) f.off.toNat ((List.range i).map src) :=
        (hrep.contents f.ip).trans hsofar.contents
      have hsize := hsofar.size_eq
      have hoff := hsofar.off_eq
      by_cases hall : (i : Int) = n
      · -- all bytes are written
        obtain rfl : n.toNat = i := by omega
        rw [if_pos hall]
        have hmove : off = f.off + UInt32.ofNat n.toNat := by
          have hlt := off.toNat_lt
          refine UInt32.toNat.inj ?_
          rw [UInt32.toNat_add, UInt32.toNat_ofNat']
          omega
        refine iff_of_true (.inl ⟨by omega, by rw [hmove], hcontents⟩) (.inr ?_)
        rcases hsofar.first with hzero | ⟨⟨hle, -, hend⟩, -⟩
        · exact .inl (by omega)
        · refine .inr (.inr ⟨hend, hsofar.takes.needed_le fun p hp => hsofar.consistent.needsRange_own ?_ hp⟩)
          rw [hsize]
          split <;> omega
      rw [if_neg hall]
      rcases Nat.eq_zero_or_pos i with rfl | hpos
      · -- nothing is written
        rw [if_pos rfl] at hsize
        have hsame : off = f.off := UInt32.toNat.inj hoff
        refine iff_of_true (.inr ⟨by rw [hsame], by rw [hcontents]; exact overwrite_nil _ _⟩) (.inr ?_)
        rcases lt_or_ge 0 n with hn | hn
        · have hnot := hrefused (by omega)
          rw [hsize, hoff, Nat.sub_zero] at hnot
          exact .inr (.inl hnot)
        · exact .inl hn
      · -- a later piece is refused
        obtain ⟨⟨hle, -, hend⟩, hmin⟩ := hsofar.first.resolve_left hpos.ne'
        rw [if_neg hpos.ne'] at hsize
        have hnot := hrefused (by omega)
        rw [hsize, hoff] at hnot
        refine iff_of_false ?_ ?_
        · rintro (⟨hn, hr, -⟩ | ⟨hr, -⟩)
          · have := congrArg Prod.fst hr
            simp only at this
            omega
          · have := congrArg (fun r : Int × File => r.2.off.toNat) hr
            simp only at this
            omega
        · rintro (hnot' | hn | hnot' | ⟨hfit, -⟩)
          · cases hnot'
          · omega
          · exact hnot' ⟨hle, by omega, by omega⟩
          · exact hnot ⟨by omega, by omega, by omega⟩

theorem filewrite_reports_iff_three : ∃ r s', filewrite noDev (return 0) emptyFd (fun _ => 7) 3 emptyFile = .ok (r, s') ∧
    Reports emptyFd (fun _ => 7) 3 emptyFile r s' := by
  obtain ⟨e, he, hbusy⟩ := emptyFile_entry
  exact (filewrite_reports_iff noDev (return 0) emptyFile_consistent (by decide +kernel) (by decide +kernel) rfl he hbusy (by decide +kernel) (fun _ => 7) 3).mpr
    (.inr (.inr (.inr ⟨by decide, by decide +kernel⟩)))

def largeDisk : State :=
  { blankDisk with blocks := Function.update blankDisk.blocks 1 (put32 (put32 (put32 (put32 Bytes.zero 0 276) 4 241) 8 8) 12 30) }

theorem largeDisk_super : largeDisk.super = ⟨276, 241, 8, 30⟩ := by decide +kernel

@[irreducible]
def largeFile : State := largeDisk.made [.beginOp, .ialloc tFile, .endOp]

theorem largeFile_consistent : largeFile.Consistent := by
  rw [largeFile]
  refine State.Consistent.made ?_ fun _ => rfl
  exact consistent_of_blank largeDisk_super rfl rfl (by decide +kernel) (by decide) rfl fun _ => rfl

/-- One byte more than the largest file: the last piece is refused, after the others have been written. -/
theorem filewrite_fails_halfway : ∃ r s', filewrite noDev (return 0) emptyFd (fun _ => 7) 71681 largeFile = .ok (r, s') ∧
    largeFile.super.nlog = logSize ∧ largeFile.Idle ∧ r.1 = -1 ∧ largeFile.contents emptyFd.ip = [] ∧ 65024 < (s'.contents emptyFd.ip).length := by
  have hentry : (largeFile.icache emptyFd.ip).any (fun e => !e.busy) = true := by decide +kernel
  obtain ⟨e, he, hbusy⟩ := exists_of_any hentry
  have hempty : largeFile.contents emptyFd.ip = [] := by decide +kernel
  have hneeded : (largeFile.view largeFile.super).needed emptyFd.ip 0 71681 ≤ (largeFile.view largeFile.super).nfree largeFile.super := by
    decide +kernel
  have hidle : largeFile.Idle := by decide +kernel
  have hfile : ((largeFile.view largeFile.super).cur emptyFd.ip).type = tFile := by decide +kernel
  have hwp := vwp_filewrite_sofar (f := emptyFd) (E := fun _ => False) noDev (return 0) largeFile_consistent rfl rfl he
    (by simpa using hbusy) hfile (fun _ => 7) 71681 (fun _ hlt => absurd hneeded (Nat.not_le.mpr hlt))
  obtain ⟨r, s', hrun, ⟨v', hrep, i, off, rfl, hsofar, hi, hrefused⟩, -⟩ := vwp_ok hwp ⟨rfl, rfl⟩
    (wp_filewrite_room noDev (return 0) ⟨rfl, rfl⟩ largeFile_consistent rfl he hfile (by decide +kernel) 71681 hidle)
  have hsize₀ : ((largeFile.view largeFile.super).cur emptyFd.ip).size.toNat = 0 := by decide +kernel
  have hsize := hsofar.size_eq
  have hoff : off.toNat = 0 + i := hsofar.off_eq
  have hmax : maxFile * bsize = 71680 := rfl
  have hpiece : maxPiece = 6656 := rfl
  have hfirst := hsofar.first
  have hlt : i < 71681 := by
    rcases hfirst with rfl | ⟨⟨-, -, hend⟩, -⟩
    · decide
    · have : (0 : Nat) + i ≤ maxFile * bsize := hend
      omega
  have hnot : ¬Fits (v'.cur emptyFd.ip).size.toNat off.toNat (min (71681 - i) maxPiece) := hrefused hlt
  have hlength : (v'.cur emptyFd.ip).size.toNat = i := by
    rw [hsize, hsize₀]
    split
    · omega
    · exact (Nat.zero_max _).trans (Nat.zero_add i)
  have hi : 65024 < i := by
    by_contra hle
    exact hnot ⟨by omega, by omega, by omega⟩
  refine ⟨_, s', hrun, by decide +kernel, hidle, if_neg (by omega), hempty, ?_⟩
  rw [hrep.contents, length_contents, hlength]
  exact hi

end Xv6.Fs
