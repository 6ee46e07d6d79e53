import Xv6.Files.Table
import Xv6.Fs.File

/-!
# Transactions of `filewrite`

`filewrite` cuts a long write into pieces and wraps each in a transaction. A transaction may write
`MAXOPBLOCKS` blocks, but the pieces are cut by `LOGSIZE`, which is three times as much. Here the blocks a
piece writes are counted exactly: the blocks of its range, the bitmap block if the file gets a new block, the
indirect block if that is one past the direct blocks, and the inode if the file becomes longer.
-/

namespace Xv6.Fs

open Lib

open Files (FdType)

structure File where
  type : FdType
  ref : Nat
  readable : Bool
  writable : Bool
  ip : Nat
  off : UInt32

abbrev maxPiece : Nat := (logSize - 1 - 1 - 2) / 2 * 512

/-- One round of the loop of `filewrite`: what `writei` returns, and the new file offset. -/
def filewritePiece (devsw : Devsw) (ip : Nat) (src : Nat → UInt8) (off : UInt32) (n1 : Nat) :
    FsM (Option Nat × UInt32) := do
  beginOp
  ilock ip
  let r ← writei devsw ip src off (UInt32.ofNat n1)
  iunlock ip
  endOp
  match r with
  | some k => return (some k, off + UInt32.ofNat k)
  | none => return (none, off)

/-- The loop of `filewrite`, from its count `i` on: the count and the file offset at its end. -/
def filewriteLoop (devsw : Devsw) (ip : Nat) (src : Nat → UInt8) (n : Nat) : Nat → Nat → UInt32 → FsM (Nat × UInt32)
  | 0, i, off => return (i, off)
  | fuel + 1, i, off => do
    if i < n then
      let n1 := min (n - i) maxPiece
      match ← filewritePiece devsw ip (fun k => src (i + k)) off n1 with
      | (none, off) => return (i, off)
      | (some r, off) => if r ≠ n1 then throw .shortFilewrite else filewriteLoop devsw ip src n fuel (i + r) off
    else return (i, off)

/-- Write to a file; `pipewrite` is the call on its pipe. -/
def filewrite (devsw : Devsw) (pipewrite : FsM Int) (f : File) (src : Nat → UInt8) (n : Int) : FsM (Int × File) := do
  if f.writable = false then return (-1, f)
  else
    match f.type with
    | .pipe =>
      let r ← pipewrite
      return (r, f)
    | .inode =>
      let (i, off) ← filewriteLoop devsw f.ip src n.toNat n.toNat 0 f.off
      return (if i = n then n else -1, { f with off := off })
    | .none => throw .filewrite

/-- The blocks written in each transaction that has ended. -/
def brackets : List Nat → List Event → List (List Nat)
  | _, [] => []
  | _, .beginOp :: es => brackets [] es
  | bs, .endOp :: es => bs :: brackets [] es
  | bs, .logWrite b :: es => brackets (bs ++ [b]) es
  | bs, .balloc _ _ :: es => brackets bs es

/-! ### The blocks of one piece -/

def sectorsOf (es : List Event) : List Nat := es.filterMap fun
  | .logWrite b => some b
  | _ => none

theorem mem_sectorsOf {es : List Event} {b : Nat} : b ∈ sectorsOf es ↔ .logWrite b ∈ es := by
  simp only [sectorsOf, List.mem_filterMap]
  constructor
  · rintro ⟨x, hx, hb⟩
    cases x <;> simp_all
  · exact fun hb => ⟨_, hb, rfl⟩

/-- The number of blocks that a write of `n > 0` bytes at `off` passes to `log_write`, for a file of `size` bytes. -/
def sectorCount (size off n : Nat) : Nat :=
  let last := (off + n - 1) / bsize
  last + 1 - off / bsize + (if size ≤ last * bsize then 1 else 0) +
    (if size ≤ last * bsize ∧ ndirect ≤ last then 1 else 0) + if size < off + n then 1 else 0

variable {sb : Superblock} {v v' : View} {ip : Nat} {e : Inode} {off n : UInt32} {src : Nat → UInt8}

section Count

variable (hw : Written sb ip e off n src v v') (h : Consistent sb v) (he : v.icache ip = some e) (hvalid : e.valid = true)
  (hfits : Fits e.din.size.toNat off.toNat n.toNat)

include h he hvalid hfits in
/-- A block of the range is new exactly if it lies past the end of the file. -/
theorem gained_posOf {bn : Nat} (hmeets : Meets off.toNat n.toNat bn) :
    v.own ip (posOf bn) = 0 ↔ e.din.size.toNat ≤ bn * bsize := by
  have := h.indexed ip bn (hmeets.lt hfits.2.2)
  rw [cur_of_valid he hvalid] at this
  rw [← not_iff_not, ← ne_eq, this, Nat.not_le]

theorem posOf_eq_entry {bn : Nat} (hlo : ndirect ≤ bn) (hbn : bn < maxFile) : ∃ j, posOf bn = .entry j := by
  have hj : bn - ndirect < nindirect := by
    simp only [maxFile] at hbn
    omega
  exact ⟨⟨_, hj⟩, by rw [posOf, dif_neg (by omega), dif_pos hj]⟩

theorem le_of_posOf_eq_entry {bn : Nat} {j : Fin nindirect} (h : posOf bn = .entry j) : ndirect ≤ bn := by
  by_contra hlt
  rw [posOf, dif_pos (by omega)] at h
  cases h

include hw h he hvalid hfits in
/-- The blocks written for new blocks of the file, besides these themselves. -/
theorem gained_iff (hn : 0 < n.toNat) (hbpb : sb.size ≤ bpb) (x : Nat) :
    Gained sb ip v v' x ∨ (∃ bn, Meets off.toNat n.toNat bn ∧ x = (v'.own ip (posOf bn)).toNat) ↔
      (∃ bn, Meets off.toNat n.toNat bn ∧ x = (v'.own ip (posOf bn)).toNat) ∨
      e.din.size.toNat ≤ (off.toNat + n.toNat - 1) / bsize * bsize ∧ (x = bblock 0 sb.ninodes ∨
        ndirect ≤ (off.toNat + n.toNat - 1) / bsize ∧ x = (v'.own ip .indirect).toNat) := by
  have hbblock : ∀ p, v'.own ip p ≠ 0 → bblock (v'.own ip p).toNat sb.ninodes = bblock 0 sb.ninodes := by
    intro p hp
    have := (hw.own.range ip p hp).2.1
    simp only [bblock_eq, bpb, bsize] at *
    omega
  have hlast : Meets off.toNat n.toNat ((off.toNat + n.toNat - 1) / bsize) := by
    rw [meets_iff hn]
    exact ⟨Nat.div_le_div_right (by omega), le_refl _⟩
  constructor
  · rintro (⟨p, hp, hp', ht⟩ | hblock)
    · obtain ⟨-, ⟨bn, hmeets, hneeds⟩, -⟩ := (hw.owns ip p).resolve_left fun heq => hp' (heq.trans hp)
      have hle := ((meets_iff hn).mp hmeets).2
      -- a missing indirect block means that the entry is missing as well
      have hzero : v.own ip (posOf bn) = 0 := by
        rcases hneeds with rfl | ⟨hlo, rfl⟩
        · exact hp
        · obtain ⟨j, hj⟩ := posOf_eq_entry hlo (hmeets.lt hfits.2.2)
          rw [hj, own_entry, if_pos hp]
      have hsize := ((gained_posOf h he hvalid hfits hmeets).mp hzero).trans (Nat.mul_le_mul_right bsize hle)
      rcases ht with rfl | rfl | ⟨j, rfl, rfl⟩
      · rcases hneeds with rfl | ⟨hlo, rfl⟩
        · exact .inl ⟨bn, hmeets, rfl⟩
        · exact .inr ⟨hsize, .inr ⟨hlo.trans hle, rfl⟩⟩
      · exact .inr ⟨hsize, .inl (hbblock p hp')⟩
      · rcases hneeds with hpos | ⟨-, hpos⟩
        · exact .inr ⟨hsize, .inr ⟨(le_of_posOf_eq_entry hpos.symm).trans hle, rfl⟩⟩
        · cases hpos
    · exact .inl hblock
  · rintro (hblock | ⟨hsize, hx⟩)
    · exact .inr hblock
    · have hzero := (gained_posOf h he hvalid hfits hlast).mpr hsize
      have hfull := hw.full _ hlast
      refine .inl ⟨_, hzero, hfull, ?_⟩
      rcases hx with rfl | ⟨hlo, rfl⟩
      · exact .inr (.inl (hbblock _ hfull).symm)
      · obtain ⟨j, hj⟩ := posOf_eq_entry hlo (hlast.lt hfits.2.2)
        exact .inr (.inr ⟨j, hj, rfl⟩)

def rangeBlocks (v : View) (ip off n : Nat) : Finset Nat :=
  (Finset.Icc (off / bsize) ((off + n - 1) / bsize)).image fun bn => (v.own ip (posOf bn)).toNat

theorem mem_rangeBlocks (hn : 0 < n.toNat) (x : Nat) : x ∈ rangeBlocks v' ip off.toNat n.toNat ↔
    ∃ bn, Meets off.toNat n.toNat bn ∧ x = (v'.own ip (posOf bn)).toNat := by
  simp only [rangeBlocks, Finset.mem_image, Finset.mem_Icc, meets_iff hn, eq_comm]

include hw hfits in
theorem card_rangeBlocks (hn : 0 < n.toNat) : (rangeBlocks v' ip off.toNat n.toNat).card =
    (off.toNat + n.toNat - 1) / bsize + 1 - off.toNat / bsize := by
  rw [rangeBlocks, Finset.card_image_of_injOn, Nat.card_Icc]
  intro m hm k hk heq
  rw [Finset.mem_coe, Finset.mem_Icc, ← meets_iff hn] at hm hk
  have hpos := (hw.own.unique ip _ ip _ (hw.full m hm) (UInt32.toNat_inj.mp heq)).2
  exact posOf_inj (hm.lt hfits.2.2) (hk.lt hfits.2.2) hpos

include hw h he hvalid hfits in
theorem Written.sectors_card (hn : 0 < n.toNat) (hbpb : sb.size ≤ bpb) :
    (sectorsOf (newEvents v v')).toFinset.card = sectorCount e.din.size.toNat off.toNat n.toNat := by
  have hip := h.handle ip e he
  have hlast : Meets off.toNat n.toNat ((off.toNat + n.toNat - 1) / bsize) := by
    rw [meets_iff hn]
    exact ⟨Nat.div_le_div_right (by omega), le_refl _⟩
  have hset : (sectorsOf (newEvents v v')).toFinset = ((rangeBlocks v' ip off.toNat n.toNat ∪
      (if e.din.size.toNat ≤ (off.toNat + n.toNat - 1) / bsize * bsize then {bblock 0 sb.ninodes} else ∅)) ∪
      (if e.din.size.toNat ≤ (off.toNat + n.toNat - 1) / bsize * bsize ∧ ndirect ≤ (off.toNat + n.toNat - 1) / bsize then
        {(v'.own ip .indirect).toNat} else ∅)) ∪
      if e.din.size.toNat < off.toNat + n.toNat then {iblock ip} else ∅ := by
    ext x
    have hgained := gained_iff hw h he hvalid hfits hn hbpb x
    simp only [List.mem_toFinset, mem_sectorsOf, hw.logged, Finset.mem_union, mem_rangeBlocks hn]
    rw [← or_assoc, hgained]
    split <;> split <;> split <;> simp <;> grind
  have hstart : ∀ x ∈ rangeBlocks v' ip off.toNat n.toNat, dataStart sb ≤ x := by
    intro x hx
    obtain ⟨bn, hbn, rfl⟩ := (mem_rangeBlocks hn x).mp hx
    exact (hw.own.range ip _ (hw.full bn hbn)).1
  have hind : ndirect ≤ (off.toNat + n.toNat - 1) / bsize → v'.own ip .indirect ≠ 0 := by
    intro hlo hzero
    obtain ⟨j, hj⟩ := posOf_eq_entry hlo (hlast.lt hfits.2.2)
    have hfull := hw.full _ hlast
    rw [hj, own_entry, if_pos hzero] at hfull
    exact hfull rfl
  have hindStart : ndirect ≤ (off.toNat + n.toNat - 1) / bsize → dataStart sb ≤ (v'.own ip .indirect).toNat ∧
      (v'.own ip .indirect).toNat ∉ rangeBlocks v' ip off.toNat n.toNat := by
    intro hlo
    refine ⟨(hw.own.range ip _ (hind hlo)).1, fun hmem => ?_⟩
    obtain ⟨bn, hbn, heq⟩ := (mem_rangeBlocks hn _).mp hmem
    have hpos := (hw.own.unique ip _ ip _ (hind hlo) (UInt32.toNat_inj.mp heq)).2
    exact posOf_ne_indirect (hbn.lt hfits.2.2) hpos.symm
  have hbitmap : iblock ip < bblock 0 sb.ninodes ∧ bblock 0 sb.ninodes < dataStart sb := by
    simp only [iblock_eq, bblock_eq, dataStart_eq]
    omega
  rw [hset, Finset.card_union_of_disjoint, Finset.card_union_of_disjoint, Finset.card_union_of_disjoint,
    card_rangeBlocks hw hfits hn, sectorCount]
  · congr 1
    · congr 1
      · congr 1
        split <;> rfl
      · split <;> rfl
    · split <;> rfl
  all_goals
    rw [Finset.disjoint_left]
    intro x
    have := hstart x
    grind

end Count

/-! ### Writes that do not fit in the log -/

theorem typed_of_file (he : v.icache ip = some e) (hfile : (v.cur ip).type = tFile) (hv : e.valid = false) :
    (v.dinode ip).type ≠ 0 := by
  have hcur : v.cur ip = v.dinode ip := by simp [View.cur, he, hv]
  rw [← hcur, hfile]
  decide

theorem Consistent.unlock (h : Consistent sb v) (he : v.icache ip = some e) (hvalid : e.valid = true)
    (hsync : e.din.Same (v.dinode ip)) : Consistent sb (v.setInode ip { e with busy := false }) := by
  refine h.setInode (h.handle ip e he) ?_ (fun _ _ => hsync) (h.typed ip e he)
  rw [cur_of_valid he hvalid, if_pos hvalid]
  exact .of_eq rfl

/-- What one round does to an unlocked regular file. -/
structure Piece (sb : Superblock) (ip : Nat) (src : Nat → UInt8) (off : UInt32) (n1 : Nat) (r : Option Nat × UInt32) (v v' : View)
    (es : List Event) : Prop where
  consistent : Consistent sb v'
  unlocked : ∃ e, v'.icache ip = some e ∧ e.busy = false
  type : (v'.cur ip).type = tFile
  trace : v'.trace = v.trace ++ ([.beginOp] ++ es ++ [.endOp])
  marks : ∀ x ∈ es, x.isMark = false
  accepted : Fits (v.cur ip).size.toNat off.toNat n1 → r = (some n1, off + UInt32.ofNat n1) ∧
    (0 < n1 → sb.size ≤ bpb → (sectorsOf es).toFinset.card = sectorCount (v.cur ip).size.toNat off.toNat n1)
  refused : ¬Fits (v.cur ip).size.toNat off.toNat n1 → r = (none, off) ∧ es = []
  takes : Takes sb ip off.toNat (if Fits (v.cur ip).size.toNat off.toNat n1 then n1 else 0) v v'
  contents : v'.contents ip = if Fits (v.cur ip).size.toNat off.toNat n1 then
    overwrite (v.contents ip) off.toNat ((List.range n1).map src) else v.contents ip

theorem vwp_filewritePiece {E : Panic → Prop} (devsw : Devsw) (h : Consistent sb v) (he : v.icache ip = some e)
    (hfile : (v.cur ip).type = tFile) {n1 : Nat} (hn1 : n1 < 2 ^ 32) (hasleep : e.busy = true → E .asleep)
    (hfull : Fits (v.cur ip).size.toNat off.toNat n1 → ∀ v₁ p, Takes sb ip off.toNat n1 v v₁ → (∀ b, v₁.bit b = true) →
      NeedsRange off.toNat n1 p → v₁.own ip p = 0 → E .outOfBlocks) :
    vwp sb (filewritePiece devsw ip src off n1) (fun r v' => ∃ es, Piece sb ip src off n1 r v v' es) E v := by
  have hip := h.handle ip e he
  have htoNat : (UInt32.ofNat n1).toNat = n1 := UInt32.toNat_ofNat_of_lt' hn1
  have htype := typed_of_file he hfile
  refine vwp_bind (vwp_beginOp (vwp_bind (vwp_ilock he hip hasleep (fun hv hzero => absurd hzero (htype hv))
    fun hbusy _ => ?_)))
  have h₁ : Consistent sb ((v.note .beginOp).locked ip e) := (h.note .beginOp).locked he htype
  have he₁ : ((v.note .beginOp).locked ip e).icache ip =
    some { e with busy := true, valid := true, din := v.cur ip } := setInode_same _ _ _
  have hsync₁ : (v.cur ip).Same (v.dinode ip) := h.synced_cur he hbusy
  have hcur₁ : ∀ i, ((v.note .beginOp).locked ip e).cur i = v.cur i := cur_setInode (v := v.note .beginOp) rfl
  have hown₁ := own_of_cur (v := v) (congrArg Dinode.addrs (hcur₁ ip)) rfl
  have htakes₁ : ∀ v₁, Gains sb ip (NeedsRange off.toNat (UInt32.ofNat n1).toNat) ((v.note .beginOp).locked ip e) v₁ →
      Takes sb ip off.toNat n1 v v₁ := fun v₁ hgains =>
    htoNat ▸ (Takes.of_gains hgains).congr (fun p => (hown₁ p).symm) rfl (fun _ => rfl) rfl
  refine vwp_seq (vwp_writei h₁.toOwn he₁ rfl (by rw [hfile]; decide) fun hfits v₁ p hext hbits hp hzero =>
    hfull (htoNat ▸ hfits) v₁ p (htakes₁ v₁ hext.toGains) hbits (htoNat ▸ hp) hzero) ?_
  intro r v₂ hpost
  rw [htoNat] at hpost
  -- the locked inode after `writei`, and the events since the lock was taken
  obtain ⟨e₂, es, h₂, he₂, hbusy₂, hvalid₂, hsync₂, htype₂, htrace₂, hmarks, haccepted, hrefused, htakes, hcontents⟩ :
      ∃ e₂ es, Consistent sb v₂ ∧ v₂.icache ip = some e₂ ∧ e₂.busy = true ∧ e₂.valid = true ∧
        e₂.din.Same (v₂.dinode ip) ∧ e₂.din.type = tFile ∧ v₂.trace = v.trace ++ ([.beginOp] ++ es) ∧
        (∀ x ∈ es, x.isMark = false) ∧ (Fits (v.cur ip).size.toNat off.toNat n1 → r = some n1 ∧
          (0 < n1 → sb.size ≤ bpb → (sectorsOf es).toFinset.card = sectorCount (v.cur ip).size.toNat off.toNat n1)) ∧
        (¬Fits (v.cur ip).size.toNat off.toNat n1 → r = none ∧ es = []) ∧
        Takes sb ip off.toNat (if Fits (v.cur ip).size.toNat off.toNat n1 then n1 else 0) v v₂ ∧
        v₂.contents ip = if Fits (v.cur ip).size.toNat off.toNat n1 then
          overwrite (v.contents ip) off.toNat ((List.range n1).map src) else v.contents ip := by
    by_cases hfits : Fits (v.cur ip).size.toNat off.toNat n1
    · rw [if_pos hfits] at hpost
      obtain ⟨rfl, hw⟩ := hpost
      have hfits' : Fits (v.cur ip).size.toNat off.toNat (UInt32.ofNat n1).toNat := by rwa [htoNat]
      obtain ⟨addrs, hself⟩ := hw.self
      refine ⟨_, newEvents ((v.note .beginOp).locked ip e) v₂, h₁.written he₁ rfl rfl hfits' hw, hself, rfl, rfl,
        hw.synced h₁ he₁ rfl hsync₁ hself, hfile, ?_, hw.marks, fun _ => ⟨rfl, fun hpos hbpb => ?_⟩,
        fun hnot => absurd hfits hnot, by rw [if_pos hfits]; exact htakes₁ v₂ hw.toGains, ?_⟩
      · rw [hw.trace, ← List.append_assoc]
        rfl
      · have hcard := hw.sectors_card h₁ he₁ rfl hfits' (by rwa [htoNat]) hbpb
        rwa [htoNat] at hcard
      · rw [if_pos hfits, hw.contents_self h₁ he₁ rfl hfits', htoNat, contents_of_cur (hcur₁ ip) rfl]
    · rw [if_neg hfits] at hpost
      obtain ⟨rfl, rfl⟩ := hpost
      refine ⟨_, [], h₁, he₁, rfl, rfl, hsync₁, hfile, rfl, by simp, fun hyes => absurd hyes hfits, fun _ => ⟨rfl, rfl⟩,
        (Takes.refl v).congr (fun _ => rfl) rfl hown₁ rfl, ?_⟩
      rw [if_neg hfits, contents_of_cur (hcur₁ ip) rfl]
  refine vwp_bind (vwp_iunlock he₂ (by simp [hbusy₂]) fun _ => vwp_bind (vwp_note ?_))
  have hcur₃ : ∀ i, ((v₂.setInode ip { e₂ with busy := false }).note .endOp).cur i = v₂.cur i :=
    cur_setInode (by rw [cur_of_valid he₂ hvalid₂, if_pos hvalid₂])
  have hend : Consistent sb ((v₂.setInode ip { e₂ with busy := false }).note .endOp) :=
    (h₂.unlock he₂ hvalid₂ hsync₂).note _
  have hpiece : ∀ r', (Fits (v.cur ip).size.toNat off.toNat n1 → r' = (some n1, off + UInt32.ofNat n1)) →
      (¬Fits (v.cur ip).size.toNat off.toNat n1 → r' = (none, off)) →
      Piece sb ip src off n1 r' v ((v₂.setInode ip { e₂ with busy := false }).note .endOp) es := by
    intro r' hyes hno
    refine ⟨hend, ⟨_, setInode_same _ _ _, rfl⟩, ?_, ?_, hmarks, fun hfits => ⟨hyes hfits, (haccepted hfits).2⟩,
      fun hfits => ⟨hno hfits, (hrefused hfits).2⟩, ?_, ?_⟩
    · rw [cur_of_valid (v := (v₂.setInode ip { e₂ with busy := false }).note .endOp) (setInode_same _ _ _) hvalid₂]
      exact htype₂
    · rw [← List.append_assoc, ← htrace₂]
      rfl
    · exact htakes.congr (fun _ => rfl) rfl (own_of_cur (congrArg Dinode.addrs (hcur₃ ip)) rfl) rfl
    · rw [contents_of_cur (hcur₃ ip) rfl, hcontents]
  by_cases hfits : Fits (v.cur ip).size.toNat off.toNat n1
  · obtain ⟨rfl, -⟩ := haccepted hfits
    exact vwp_pure ⟨es, hpiece _ (fun _ => rfl) fun hnot => absurd hfits hnot⟩
  · obtain ⟨rfl, -⟩ := hrefused hfits
    exact vwp_pure ⟨es, hpiece _ (fun hyes => absurd hyes hfits) fun _ => rfl⟩

theorem brackets_append {es : List Event} (hes : ∀ x ∈ es, x.isMark = false) (bs : List Nat) (rest : List Event) :
    brackets bs (es ++ rest) = brackets (bs ++ sectorsOf es) rest := by
  induction es generalizing bs with
  | nil => simp [sectorsOf]
  | cons x es ih =>
    have hx := hes x (List.mem_cons_self)
    have hrest : ∀ y ∈ es, y.isMark = false := fun y hy => hes y (List.mem_cons_of_mem _ hy)
    cases x with
    | beginOp => cases hx
    | endOp => cases hx
    | logWrite b =>
      rw [List.cons_append, brackets, ih hrest, List.append_assoc]
      rfl
    | balloc b room =>
      rw [List.cons_append, brackets, ih hrest]
      rfl

theorem brackets_piece {es rest : List Event} (hes : ∀ x ∈ es, x.isMark = false) :
    brackets [] ([.beginOp] ++ es ++ [.endOp] ++ rest) = sectorsOf es :: brackets [] rest := by
  simp only [List.append_assoc, List.cons_append, List.nil_append, brackets]
  rw [brackets_append hes]
  rfl

/-- The events of a write of `n` bytes: those of its first transaction come first, and they are all if it is
refused or if there is nothing left to write. -/
structure FirstPiece (sb : Superblock) (size off n : Nat) (events es rest : List Event) : Prop where
  events : events = [.beginOp] ++ es ++ [.endOp] ++ rest
  marks : ∀ x ∈ es, x.isMark = false
  accepted : Fits size off (min n maxPiece) → sb.size ≤ bpb →
    (sectorsOf es).toFinset.card = sectorCount size off (min n maxPiece)
  refused : ¬Fits size off (min n maxPiece) → es = [] ∧ rest = []
  last : n ≤ maxPiece → rest = []

theorem vwp_filewriteLoop (devsw : Devsw) (h : Consistent sb v) (he : v.icache ip = some e)
    (hfile : (v.cur ip).type = tFile) (N fuel i : Nat) (off : UInt32) :
    vwp sb (filewriteLoop devsw ip src N fuel i off) (fun _ v' => v'.trace = v.trace ++ newEvents v v' ∧
      (fuel ≠ 0 → i < N → ∃ es rest, FirstPiece sb (v.cur ip).size.toNat off.toNat (N - i) (newEvents v v') es rest) ∧
      (N ≤ i → newEvents v v' = [])) (fun _ => True) v := by
  have hstop : ∀ w : View, w.trace = w.trace ++ newEvents w w ∧ newEvents w w = [] := fun w =>
    ⟨trace_of_eq (List.append_nil _).symm, newEvents_of_eq (List.append_nil _).symm⟩
  induction fuel generalizing v e i off with
  | zero => exact vwp_pure ⟨(hstop v).1, by simp, fun _ => (hstop v).2⟩
  | succ fuel ih =>
    unfold filewriteLoop
    by_cases hi : i < N
    · rw [if_pos hi]
      have hpos : 0 < min (N - i) maxPiece := by
        simp only [maxPiece, logSize, maxOpBlocks]
        omega
      have hlt : min (N - i) maxPiece < 2 ^ 32 := by
        simp only [maxPiece, logSize, maxOpBlocks]
        omega
      refine vwp_seq (vwp_filewritePiece devsw h he hfile hlt (fun _ => trivial) fun _ _ _ _ _ _ _ => trivial) ?_
      rintro r v₁ ⟨es, hp⟩
      obtain ⟨e₁, he₁, -⟩ := hp.unlocked
      -- the events of the rest follow those of the piece
      have hevents : ∀ v₂ : View, v₂.trace = v₁.trace ++ newEvents v₁ v₂ → v₂.trace = v.trace ++ newEvents v v₂ ∧
          newEvents v v₂ = [.beginOp] ++ es ++ [.endOp] ++ newEvents v₁ v₂ := by
        intro v₂ htrace
        have hp' := trace_of_eq hp.trace
        refine ⟨trace_trans hp' htrace, ?_⟩
        rw [newEvents_trans hp' htrace, newEvents_of_eq hp.trace]
      by_cases hfits : Fits (v.cur ip).size.toNat off.toNat (min (N - i) maxPiece)
      · obtain ⟨rfl, hcard⟩ := hp.accepted hfits
        simp only [ne_eq, not_true_eq_false, if_false]
        refine vwp_mono (ih hp.consistent he₁ hp.type (i + min (N - i) maxPiece) _) ?_ fun _ hE => hE
        rintro - v₂ ⟨htrace, -, hdone⟩
        obtain ⟨htrace₂, hnew⟩ := hevents v₂ htrace
        refine ⟨htrace₂, fun _ _ => ⟨es, newEvents v₁ v₂, hnew, hp.marks, fun _ hbpb => hcard hpos hbpb,
          fun hnot => absurd hfits hnot, fun hle => hdone ?_⟩, fun hle => absurd hi (by omega)⟩
        rw [Nat.min_eq_left hle]
        omega
      · obtain ⟨rfl, hes⟩ := hp.refused hfits
        obtain ⟨htrace, hnil⟩ := hstop v₁
        obtain ⟨htrace₂, hnew⟩ := hevents v₁ htrace
        refine vwp_pure ⟨htrace₂, fun _ _ => ⟨es, newEvents v₁ v₁, hnew, hp.marks, fun hyes => absurd hyes hfits,
          fun _ => ⟨hes, hnil⟩, fun _ => hnil⟩, fun hle => absurd hi (by omega)⟩
    · rw [if_neg hi]
      exact vwp_pure ⟨(hstop v).1, fun _ hlt => absurd hlt hi, fun _ => (hstop v).2⟩

theorem filewriteLoop_done {devsw : Devsw} {N fuel i : Nat} {off : UInt32} (hi : N ≤ i) :
    filewriteLoop devsw ip src N fuel i off = pure (i, off) := by
  cases fuel with
  | zero => rfl
  | succ fuel => rw [filewriteLoop, if_neg (by omega)]

theorem maxOpBlocks_lt_sectorCount (size off : Nat) : maxOpBlocks < sectorCount size off maxPiece := by
  simp only [sectorCount, maxPiece, maxOpBlocks, logSize, bsize]
  omega

theorem FirstPiece.budget_iff {size off N : Nat} {events es rest : List Event}
    (hp : FirstPiece sb size off N events es rest) (hbpb : sb.size ≤ bpb) :
    (∀ bs ∈ brackets [] events, bs.toFinset.card ≤ maxOpBlocks) ↔
      ¬Fits size off (min N maxPiece) ∨ sectorCount size off (min N maxPiece) ≤ maxOpBlocks := by
  rw [hp.events, brackets_piece hp.marks]
  by_cases hfits : Fits size off (min N maxPiece)
  · rw [List.forall_mem_cons, hp.accepted hfits hbpb]
    by_cases hle : N ≤ maxPiece
    · simp [hp.last hle, brackets, hfits]
    · have hlt := maxOpBlocks_lt_sectorCount size off
      rw [Nat.min_eq_right (by omega)] at hfits ⊢
      simp only [hfits, not_true_eq_false, false_or]
      omega
  · obtain ⟨rfl, rfl⟩ := hp.refused hfits
    simp [hfits, brackets, sectorsOf]

/-- Every transaction of `filewrite` on a regular file keeps to its budget exactly if the first piece is
refused or is short enough. -/
theorem filewrite_budget_iff (devsw : Devsw) (pipewrite : FsM Int) {s s' : State} (hs : s.Consistent)
    (hbpb : s.super.size ≤ bpb) {f : File} (htype : f.type = .inode) (hwritable : f.writable = true) {e : Inode}
    (he : s.icache f.ip = some e) (hfile : ((s.view s.super).cur f.ip).type = tFile) (src : Nat → UInt8) (n : Int)
    {r : Int × File} (hrun : filewrite devsw pipewrite f src n s = .ok (r, s')) :
    (∀ bs ∈ brackets [] (s'.trace.drop s.trace.length), bs.toFinset.card ≤ maxOpBlocks) ↔
      n ≤ 0 ∨ ¬Fits (s.contents f.ip).length f.off.toNat (min n.toNat maxPiece) ∨
        sectorCount (s.contents f.ip).length f.off.toNat (min n.toNat maxPiece) ≤ maxOpBlocks := by
  have hlength : (s.contents f.ip).length = ((s.view s.super).cur f.ip).size.toNat := length_contents ..
  have hwp : vwp s.super (filewrite devsw pipewrite f src n) (fun _ v' =>
      (0 < n.toNat → ∃ es rest, FirstPiece s.super (s.contents f.ip).length f.off.toNat n.toNat
        (newEvents (s.view s.super) v') es rest) ∧ (n.toNat = 0 → newEvents (s.view s.super) v' = []))
      (fun _ => True) (s.view s.super) := by
    unfold filewrite
    rw [if_neg (by simp [hwritable]), htype, hlength]
    refine vwp_seq (vwp_filewriteLoop devsw hs he hfile n.toNat n.toNat 0 f.off) ?_
    rintro r v' ⟨-, hpiece, hdone⟩
    exact vwp_pure ⟨fun hpos => hpiece (by omega) hpos, fun hzero => hdone (by omega)⟩
  obtain ⟨v', hrep, hpiece, hdone⟩ := wp_ok (hwp s ⟨rfl, rfl⟩) hrun
  have hevents : s'.trace.drop s.trace.length = newEvents (s.view s.super) v' := by
    rw [← hrep.view]
    rfl
  rw [hevents]
  by_cases hn : n ≤ 0
  · simp [hdone (by omega), brackets, hn]
  · obtain ⟨es, rest, hp⟩ := hpiece (by omega)
    rw [hp.budget_iff hbpb]
    simp only [hn, false_or]

@[irreducible]
def emptyFile : State := blankDisk.made [.beginOp, .ialloc tFile, .endOp]

def emptyFd : File := ⟨.inode, 1, true, true, 1, 0⟩

theorem emptyFile_consistent : emptyFile.Consistent := by
  rw [emptyFile]
  exact blankDisk_consistent.made fun _ => rfl

theorem emptyFile_entry : ∃ e, emptyFile.icache emptyFd.ip = some e ∧ e.busy = false := by
  have hentry : (emptyFile.icache emptyFd.ip).any (fun e => !e.busy) = true := by decide +kernel
  obtain ⟨e, he, hbusy⟩ := exists_of_any hentry
  exact ⟨e, he, by simpa using hbusy⟩

/-- Three bytes at the beginning of the file are three blocks: the data, the bitmap and the inode. -/
theorem filewrite_budget_iff_three : ∃ r s', filewrite noDev (return 0) emptyFd (fun _ => 7) 3 emptyFile = .ok (r, s') ∧
    ∀ bs ∈ brackets [] (s'.trace.drop emptyFile.trace.length), bs.toFinset.card ≤ maxOpBlocks := by
  obtain ⟨e, he, -⟩ := emptyFile_entry
  have hok : (filewrite noDev (return 0) emptyFd (fun _ => 7) 3 emptyFile).isOk = true := by decide +kernel
  cases hrun : filewrite noDev (return 0) emptyFd (fun _ => 7) 3 emptyFile with
  | error _ => simp [hrun, Except.isOk, Except.toBool] at hok
  | ok p =>
    have hlength : (emptyFile.contents emptyFd.ip).length = 0 := by decide +kernel
    refine ⟨p.1, p.2, rfl, (filewrite_budget_iff noDev (return 0) emptyFile_consistent (by decide +kernel) rfl rfl he
      (by decide +kernel) (fun _ => 7) 3 hrun).mpr (.inr (.inr ?_))⟩
    rw [hlength]
    decide

theorem vwp_filewrite_one {E : Panic → Prop} (devsw : Devsw) (pipewrite : FsM Int) (h : Consistent sb v) {f : File}
    (htype : f.type = .inode) (hwritable : f.writable = true) (he : v.icache f.ip = some e) (hbusy : e.busy = false)
    (hfile : (v.cur f.ip).type = tFile) {N : Nat} (hpos : 0 < N) (hle : N ≤ maxPiece)
    (hfree : v.needed f.ip f.off.toNat N ≤ v.nfree sb) :
    vwp sb (filewrite devsw pipewrite f src N) (fun _ v' => ∃ r es, Piece sb f.ip src f.off N r v v' es) E v := by
  have hlt : N < 2 ^ 32 := by
    simp only [maxPiece, logSize, maxOpBlocks] at hle
    omega
  obtain ⟨k, rfl⟩ : ∃ k, N = k + 1 := ⟨N - 1, by omega⟩
  unfold filewrite
  rw [if_neg (by simp [hwritable]), htype]
  simp only [Int.toNat_natCast]
  refine vwp_bind ?_
  unfold filewriteLoop
  rw [if_pos hpos, Nat.sub_zero, Nat.min_eq_left hle]
  simp only [Nat.zero_add]
  refine vwp_seq (vwp_filewritePiece devsw h he hfile hlt (by simp [hbusy]) fun _ v₁ p htakes hbits hp hzero => ?_) ?_
  · exact absurd (htakes.nfree_lt hbits hp hzero) (by omega)
  · rintro r v₁ ⟨es, hp⟩
    by_cases hfits : Fits (v.cur f.ip).size.toNat f.off.toNat (k + 1)
    · obtain ⟨rfl, -⟩ := hp.accepted hfits
      simp only [ne_eq, not_true_eq_false, if_false]
      rw [filewriteLoop_done (by omega)]
      exact vwp_pure (vwp_pure ⟨_, es, hp⟩)
    · obtain ⟨rfl, -⟩ := hp.refused hfits
      exact vwp_pure (vwp_pure ⟨_, es, hp⟩)

/-! ### The log has room for a piece -/

/-- No transaction is open, and the log is as long as `mkfs` makes it. -/
def State.Idle (s : State) : Prop := s.log = ⟨0, []⟩ ∧ logSize ≤ s.logsize

instance (s : State) : Decidable s.Idle := inferInstanceAs (Decidable (_ ∧ _))

theorem rangeCount_piece (off : Nat) {n1 : Nat} (hn1 : n1 ≤ maxPiece) : rangeCount off n1 ≤ 14 := by
  simp only [rangeCount, maxPiece, logSize, maxOpBlocks, bsize] at *
  split <;> omega

theorem wp_ilock_log {s : State} (hcache : s.icache ip = some e) :
    wp (ilock ip) (fun _ s' => s'.trace = s.trace ∧ s'.logsize = s.logsize) NotLog s := by
  simp only [ilock, inode, wp_bind, wp_get, hcache, wp_pure, wp_ite, wp_throw, setInode, bread, wp_modify, wp_map]
  split
  · exact rfl
  split
  · exact ⟨rfl, rfl⟩
  split
  · exact rfl
  · exact ⟨rfl, rfl⟩

theorem wp_iunlock_log (ip : Nat) (s : State) :
    wp (iunlock ip) (fun _ s' => s'.trace = s.trace ∧ s'.logsize = s.logsize) NotLog s := by
  simp only [iunlock, inode, wp_bind, wp_get]
  cases s.icache ip with
  | none => exact rfl
  | some e =>
    simp only [wp_pure, wp_ite, setInode, wp_modify, wp_throw]
    split
    · exact ⟨rfl, rfl⟩
    · exact rfl

/-- The log does not stop a piece: with twelve bitmap blocks these are 28 sectors at the most. -/
theorem wp_filewritePiece_room (devsw : Devsw) {s : State} (hs : Rep sb s v) (h : Consistent sb v) (he : v.icache ip = some e)
    (hfile : (v.cur ip).type = tFile) (hbits : sb.size < 12 * bpb) {n1 : Nat} (hn1 : n1 ≤ maxPiece) (hidle : s.Idle) :
    wp (filewritePiece devsw ip src off n1) (fun _ s' => s'.Idle) NotLog s := by
  obtain ⟨hlog, hsize⟩ := hidle
  have hcache : s.icache ip = some e := by rw [← he, ← hs.view]; rfl
  have htoNat : (UInt32.ofNat n1).toNat = n1 := by
    refine UInt32.toNat_ofNat_of_lt' (hn1.trans_lt ?_)
    decide
  have htype := typed_of_file he hfile
  rw [filewritePiece, wp_bind, beginOp, wp_bind, wp_get, hlog, if_neg (by decide), note, wp_modify, wp_bind]
  have hlog₁ : State.log { s with trace := s.trace ++ [.beginOp] } = ⟨1, []⟩ := by
    rw [log_snoc, hlog]
    rfl
  have hlock := vwp_ilock (E := fun _ => True) (Q := fun _ v' => v' = (v.note .beginOp).locked ip e) (v := v.note .beginOp) he (h.handle ip e he)
    (fun _ => trivial) (fun _ _ => trivial) (fun _ _ => rfl) _ (hs.note .beginOp)
  refine wp_mono (wp_and hlock (wp_ilock_log hcache)) ?_ fun _ hE => hE.2
  rintro - s₂ ⟨⟨v₂, hs₂, rfl⟩, htrace₂, hsize₂⟩
  have h₂ : Consistent sb ((v.note .beginOp).locked ip e) := (h.note .beginOp).locked he htype
  have hlog₂ : s₂.log = ⟨1, []⟩ := by rw [← hlog₁, State.log, htrace₂, State.log]
  have hroom : s₂.RoomFor off.toNat (UInt32.ofNat n1).toNat := by
    have hsuper : s₂.super = sb := hs₂.super
    have hcount := rangeCount_piece off.toNat hn1
    have hblocks : sb.size / bpb < 12 := Nat.div_lt_of_lt_mul (by omega)
    refine ⟨by rw [hlog₂]; decide, ?_⟩
    rw [hlog₂, hsize₂, hsuper, htoNat]
    simp only [List.length_nil, logSize, maxOpBlocks] at *
    omega
  obtain ⟨T, hspare⟩ := spare_of_roomFor hs₂ hroom ip
  rw [wp_bind]
  refine wp_mono (wp_writei_room hs₂ h₂.toOwn (setInode_same _ _ _) rfl (fun hdev => absurd (hfile.symm.trans hdev) (by decide))
    devsw off _ src hroom.1 hspare) ?_ fun _ hE => hE
  rintro r s₃ ⟨T₃, hlogs⟩
  rw [wp_bind]
  refine wp_mono (wp_iunlock_log ip s₃) ?_ fun _ hE => hE
  rintro - s₄ ⟨htrace₄, hsize₄⟩
  have hidle : State.Idle { s₄ with trace := s₄.trace ++ [.endOp] } := by
    have hlogs₄ := hlogs.of_trace htrace₄ hsize₄
    have hout := hlogs₄.outstanding
    have hcap := hlogs₄.capacity
    rw [hlog₂] at hout
    refine ⟨?_, ?_⟩
    · rw [log_snoc, LogHeader.next, hout, if_pos (le_refl _)]
    · simp only [logSize, maxOpBlocks] at *
      omega
  rw [endOp, wp_bind, note, wp_modify]
  cases r with
  | none => exact hidle
  | some k => exact hidle

theorem wp_filewriteLoop_room (devsw : Devsw) {s : State} (hs : Rep sb s v) (h : Consistent sb v) (he : v.icache ip = some e)
    (hfile : (v.cur ip).type = tFile) (hbits : sb.size < 12 * bpb) (N fuel i : Nat) (off : UInt32) (hidle : s.Idle) :
    wp (filewriteLoop devsw ip src N fuel i off) (fun _ s' => s'.Idle) NotLog s := by
  induction fuel generalizing s v e i off with
  | zero => exact hidle
  | succ fuel ih =>
    unfold filewriteLoop
    split
    · have hlt : min (N - i) maxPiece < 2 ^ 32 := by
        simp only [maxPiece, logSize, maxOpBlocks]
        omega
      rw [wp_bind]
      refine wp_mono (wp_and (vwp_filewritePiece (E := fun _ => True) devsw h he hfile hlt (fun _ => trivial) (fun _ _ _ _ _ _ _ => trivial) s hs)
        (wp_filewritePiece_room devsw hs h he hfile hbits (Nat.min_le_right _ _) hidle)) ?_ fun _ hE => hE.2
      rintro ⟨r, off'⟩ s₁ ⟨⟨v₁, hs₁, es, hp⟩, hidle₁⟩
      obtain ⟨e₁, he₁, -⟩ := hp.unlocked
      cases r with
      | none => exact hidle₁
      | some k =>
        simp only
        split
        · exact rfl
        · exact ih hs₁ hp.consistent he₁ hp.type _ _ hidle₁
    · exact hidle

/-- The log does not stop `filewrite` on a regular file. -/
theorem wp_filewrite_room (devsw : Devsw) (pipewrite : FsM Int) {s : State} (hs : Rep sb s v) (h : Consistent sb v) {f : File}
    (htype : f.type = .inode) (he : v.icache f.ip = some e) (hfile : (v.cur f.ip).type = tFile) (hbits : sb.size < 12 * bpb) (n : Int)
    (hidle : s.Idle) : wp (filewrite devsw pipewrite f src n) (fun _ s' => s'.Idle) NotLog s := by
  unfold filewrite
  split
  · exact hidle
  · rw [htype]
    simp only [wp_bind]
    exact wp_filewriteLoop_room devsw hs h he hfile hbits _ _ _ _ hidle

/-- The first 6656 bytes of a file are 13 blocks; with the bitmap, the indirect block and the inode, 16. -/
theorem filewrite_exceeds_budget : ∃ s s' r, s.Consistent ∧ s.super.size ≤ bpb ∧ s.super.nlog = logSize ∧ s.Idle ∧
    ((s.view s.super).cur emptyFd.ip).type = tFile ∧
    filewrite noDev (return 0) emptyFd (fun _ => 7) 6656 s = .ok (r, s') ∧
    ∃ bs ∈ brackets [] (s'.trace.drop s.trace.length), maxOpBlocks < bs.toFinset.card := by
  obtain ⟨e, he, hbusy⟩ := emptyFile_entry
  have hbpb : emptyFile.super.size ≤ bpb := by decide +kernel
  have hfile : ((emptyFile.view emptyFile.super).cur emptyFd.ip).type = tFile := by decide +kernel
  have hsize : ((emptyFile.view emptyFile.super).cur emptyFd.ip).size.toNat = 0 := by decide +kernel
  have hwp : vwp emptyFile.super (filewrite noDev (return 0) emptyFd (fun _ => 7) (6656 : Nat)) _ (fun _ => False)
      (emptyFile.view emptyFile.super) :=
    vwp_filewrite_one noDev (return 0) emptyFile_consistent rfl rfl he hbusy hfile (by decide) (by decide) (by decide +kernel)
  obtain ⟨r, s', hrun, ⟨v', hrep, r', es, hp⟩, -⟩ := vwp_ok hwp ⟨rfl, rfl⟩ (wp_filewrite_room noDev (return 0) ⟨rfl, rfl⟩
    emptyFile_consistent rfl he hfile (by decide +kernel) _ (by decide +kernel))
  refine ⟨emptyFile, s', r, emptyFile_consistent, hbpb, by decide +kernel, by decide +kernel, hfile, hrun, sectorsOf es, ?_, ?_⟩
  · have hevents : s'.trace.drop emptyFile.trace.length = [.beginOp] ++ es ++ [.endOp] ++ [] := by
      rw [List.append_nil, ← newEvents_of_eq hp.trace, ← hrep.view]
      rfl
    rw [hevents, brackets_piece hp.marks]
    exact List.mem_cons_self
  · have haccepted := hp.accepted
    rw [hsize] at haccepted
    rw [(haccepted (by decide)).2 (by decide) hbpb]
    decide

end Xv6.Fs
