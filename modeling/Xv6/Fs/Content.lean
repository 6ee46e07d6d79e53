import Xv6.Fs.Bmap

/-!
# Reading and writing

The loops of `readi` and `writei`, by the bytes of files. A read returns the bytes of its range, and a hole
in the range may be filled on the way. A write replaces the bytes of its range and no others, of this file
or of any other, and it fails only if the free blocks are fewer than the blocks it needs.
-/

namespace Xv6.Fs

open Lib

variable {sb : Superblock} {v v' v₁ v₂ : View} {E : Panic → Prop} {ip : Nat}

/-- The range of `n` bytes from `off` on meets block `bn` of a file. -/
def Meets (off n bn : Nat) : Prop := ∃ x, off ≤ x ∧ x < off + n ∧ x / bsize = bn

def NeedsRange (off n : Nat) (p : Pos) : Prop := ∃ bn, Meets off n bn ∧ Needs bn p

theorem Meets.lt {off n bn : Nat} (h : Meets off n bn) (hmax : off + n ≤ maxFile * bsize) : bn < maxFile := by
  obtain ⟨x, -, hx, rfl⟩ := h
  exact Nat.div_lt_of_lt_mul (by rw [Nat.mul_comm]; omega)

theorem meets_add {off m n bn : Nat} : Meets off (m + n) bn ↔ Meets off m bn ∨ Meets (off + m) n bn := by
  constructor
  · rintro ⟨x, hlo, hhi, rfl⟩
    by_cases hx : x < off + m
    · exact .inl ⟨x, hlo, hx, rfl⟩
    · exact .inr ⟨x, by omega, by omega, rfl⟩
  · rintro (⟨x, hlo, hhi, rfl⟩ | ⟨x, hlo, hhi, rfl⟩)
    · exact ⟨x, hlo, by omega, rfl⟩
    · exact ⟨x, by omega, by omega, rfl⟩

theorem needsRange_add {off m n : Nat} {p : Pos} :
    NeedsRange off (m + n) p ↔ NeedsRange off m p ∨ NeedsRange (off + m) n p := by
  simp only [NeedsRange, meets_add]
  grind

theorem meets_iff {off n bn : Nat} (hn : 0 < n) : Meets off n bn ↔ off / bsize ≤ bn ∧ bn ≤ (off + n - 1) / bsize := by
  simp only [bsize]
  constructor
  · rintro ⟨x, hlo, hhi, rfl⟩
    simp only [bsize]
    omega
  · rintro ⟨hlo, hhi⟩
    refine ⟨max off (bn * 512), by omega, by omega, ?_⟩
    simp only [bsize]
    omega

theorem meets_first {off m bn : Nat} (hm : 0 < m) (hfit : off % bsize + m ≤ bsize) : Meets off m bn ↔ bn = off / bsize := by
  simp only [bsize] at hfit
  constructor
  · rintro ⟨x, hlo, hhi, rfl⟩
    simp only [bsize]
    omega
  · rintro rfl
    exact ⟨off, le_refl off, by omega, rfl⟩

theorem needsRange_first {off m : Nat} {p : Pos} (hm : 0 < m) (hfit : off % bsize + m ≤ bsize) :
    NeedsRange off m p ↔ Needs (off / bsize) p := by
  simp only [NeedsRange, meets_first hm hfit, exists_eq_left]

theorem first_chunk (off : Nat) {n : Nat} (hn : n ≠ 0) :
    ∃ m n', 0 < m ∧ n = m + n' ∧ min n (bsize - off % bsize) = m ∧ off % bsize + m ≤ bsize := by
  have : off % bsize < bsize := Nat.mod_lt _ (by simp [bsize])
  exact ⟨min n (bsize - off % bsize), n - min n (bsize - off % bsize), by omega, by omega, rfl, by omega⟩

/-! ### Reading -/

theorem map_range_add {α : Type} (f : Nat → α) (m n : Nat) :
    (List.range (m + n)).map f = (List.range m).map f ++ (List.range n).map fun k => f (m + k) := by
  rw [List.range_add, List.map_append, List.map_map]
  rfl

theorem slice_eq_byte {off m : Nat} (hfit : off % bsize + m ≤ bsize) (hown : v.own ip (posOf (off / bsize)) ≠ 0) :
    (v.data (v.own ip (posOf (off / bsize))).toNat).slice (off % bsize) m =
      (List.range m).map fun k => v.byte ip (off + k) := by
  refine List.map_congr_left fun k hk => ?_
  have hk := List.mem_range.mp hk
  have hdiv : (off + k) / bsize = off / bsize := by
    simp only [bsize] at *
    omega
  have hmod : (off + k) % bsize = off % bsize + k := by
    simp only [bsize] at *
    omega
  rw [View.byte, hdiv, hmod, if_neg hown]

theorem vwp_readLoop (h : Own sb v) {e : Inode} (he : v.icache ip = some e) (hvalid : e.valid = true) {fuel off n : Nat}
    (hfuel : n ≤ fuel) (hmax : off + n ≤ maxFile * bsize)
    (hfull : ∀ v₁ p, Grows sb ip (NeedsRange off n) v v₁ → (∀ b, v₁.bit b = true) → NeedsRange off n p →
      v₁.own ip p = 0 → E .outOfBlocks) :
    vwp sb (readLoop ip fuel off n) (fun bytes v' => bytes = (List.range n).map (fun k => v.byte ip (off + k)) ∧
      Grows sb ip (NeedsRange off n) v v') E v := by
  induction fuel generalizing v e off n with
  | zero =>
    obtain rfl : n = 0 := by omega
    exact vwp_pure ⟨rfl, Grows.refl h ip _⟩
  | succ fuel ih =>
    unfold readLoop
    by_cases hn : n = 0
    · subst hn
      exact vwp_pure ⟨rfl, Grows.refl h ip _⟩
    rw [if_neg hn]
    -- the first block, and the rest of the range
    obtain ⟨m, n', hm, rfl, hmin, hfit⟩ := first_chunk off hn
    have hfirst : ∀ p, Needs (off / bsize) p → NeedsRange off (m + n') p := fun p hp =>
      needsRange_add.mpr (.inl ((needsRange_first hm hfit).mpr hp))
    have hbn : off / bsize < maxFile := ((meets_first hm hfit).mpr rfl).lt (by omega)
    refine vwp_seq (vwp_bmap h he hvalid hbn fun v₁ p hgrows hbits hp => ?_) ?_
    · exact hfull v₁ p (hgrows.mono hfirst) hbits (hfirst p hp)
    rintro addr v₁ ⟨hne, rfl, hgrows⟩
    replace hgrows := hgrows.mono hfirst
    obtain ⟨addrs, he₁⟩ := hgrows.self e he
    refine vwp_bind (vwp_breadData (hgrows.own.range ip _ hne).1 ?_)
    simp only [hmin, Nat.add_sub_cancel_left]
    refine vwp_seq (ih hgrows.own he₁ hvalid (by omega) (by omega) fun v₂ p hgrows₂ hbits hp => ?_) ?_
    · refine hfull v₂ p (hgrows.trans (hgrows₂.mono ?_)) hbits (needsRange_add.mpr (.inr hp))
      exact fun p hp => needsRange_add.mpr (.inr hp)
    rintro bytes v₂ ⟨rfl, hgrows₂⟩
    refine vwp_pure ⟨?_, hgrows.trans (hgrows₂.mono fun p hp => needsRange_add.mpr (.inr hp))⟩
    rw [slice_eq_byte hfit hne, map_range_add]
    have hbyte : ∀ k, k < m + n' → v₁.byte ip (off + k) = v.byte ip (off + k) := fun k hk =>
      hgrows.byte ip (off + k) (by omega)
    congr 1
    · refine List.map_congr_left fun k hk => hbyte k ?_
      have := List.mem_range.mp hk
      omega
    · refine List.map_congr_left fun k hk => ?_
      have := List.mem_range.mp hk
      rw [Nat.add_assoc]
      exact hbyte (m + k) (by omega)

/-! ### Writing -/

/-- The bytes of a range of the file have been written, and no others. -/
structure Wrote (sb : Superblock) (ip off n : Nat) (src : Nat → UInt8) (v v' : View) : Prop
    extends Extends sb ip (NeedsRange off n) v v' where
  byte : ∀ i x, x < maxFile * bsize →
    v'.byte i x = if i = ip ∧ off ≤ x ∧ x < off + n then src (x - off) else v.byte i x
  full : ∀ bn, Meets off n bn → v'.own ip (posOf bn) ≠ 0
  logged : ∀ x, .logWrite x ∈ newEvents v v' ↔ Gained sb ip v v' x ∨
    ∃ bn, Meets off n bn ∧ x = (v'.own ip (posOf bn)).toNat

theorem not_meets_zero (off bn : Nat) : ¬Meets off 0 bn := by
  rintro ⟨x, hlo, hhi, -⟩
  omega

theorem Wrote.zero (h : Own sb v) (ip off : Nat) (src : Nat → UInt8) : Wrote sb ip off 0 src v v where
  toExtends := (Grows.refl h ip _).toExtends
  byte i x _ := by
    rw [if_neg (by omega)]
  full bn hbn := absurd hbn (not_meets_zero off bn)
  logged x := by
    simp only [not_meets_zero, false_and, exists_false, or_false]
    exact (Grows.refl h ip fun _ => True).logged x

theorem Wrote.trans {off m n : Nat} {src : Nat → UInt8} (h : Wrote sb ip off m src v v₁)
    (h' : Wrote sb ip (off + m) n (fun k => src (m + k)) v₁ v₂) : Wrote sb ip off (m + n) src v v₂ := by
  have hext := h.toExtends.mono fun p hp => needsRange_add.mpr (.inl hp : NeedsRange off m p ∨ NeedsRange (off + m) n p)
  have hext' := h'.toExtends.mono fun p hp => needsRange_add.mpr (.inr hp : NeedsRange off m p ∨ NeedsRange (off + m) n p)
  refine ⟨hext.trans hext', fun i x hx => ?_, fun bn hbn => ?_, fun x => ?_⟩
  · rw [h'.byte i x hx, h.byte i x hx]
    by_cases hsecond : i = ip ∧ off + m ≤ x ∧ x < off + m + n
    · rw [if_pos hsecond, if_pos (by omega)]
      congr 1
      omega
    · rw [if_neg hsecond]
      split
      · rw [if_pos (by omega)]
      · rw [if_neg (by omega)]
  · rcases meets_add.mp hbn with hbn | hbn
    · rw [h'.keeps (h.full bn hbn)]
      exact h.full bn hbn
    · exact h'.full bn hbn
  · rw [newEvents_trans h.trace h'.trace, List.mem_append, h.logged, h'.logged, hext.gained_trans hext']
    have hkeep : ∀ bn, Meets off m bn → v₂.own ip (posOf bn) = v₁.own ip (posOf bn) := fun bn hbn =>
      h'.keeps (h.full bn hbn)
    simp only [meets_add]
    grind

theorem Grows.wrote {off n : Nat} {src : Nat → UInt8} (h : Grows sb ip (NeedsRange off n) v v₁)
    (h' : Wrote sb ip off n src v₁ v₂) : Wrote sb ip off n src v v₂ where
  toExtends := h.toExtends.trans h'.toExtends
  byte i x hx := by rw [h'.byte i x hx, h.byte i x hx]
  full := h'.full
  logged x := by
    rw [newEvents_trans h.trace h'.trace, List.mem_append, h.logged, h'.logged, h.toExtends.gained_trans h'.toExtends,
      or_assoc]

theorem setData_own (h : Own sb v) (ip : Nat) {bn : Nat} (hbn : bn < maxFile) (x : Block) (i : Nat) (p : Pos) :
    (v.setData (v.own ip (posOf bn)).toNat x).own i p = v.own i p := by
  have hcur : (v.setData (v.own ip (posOf bn)).toNat x).cur i = v.cur i := rfl
  refine own_congr (congrArg Dinode.addrs hcur) (fun hind => Function.update_of_ne (fun heq => posOf_ne_indirect hbn ?_) _ _) p
  exact (h.unique i .indirect ip (posOf bn) hind (UInt32.toNat_inj.mp heq)).2.symm

theorem setData_byte (h : Own sb v) {bn : Nat} (hbn : bn < maxFile) (hne : v.own ip (posOf bn) ≠ 0) (b : Block) (i : Nat)
    {x : Nat} (hx : x < maxFile * bsize) :
    (v.setData (v.own ip (posOf bn)).toNat b).byte i x =
      if i = ip ∧ x / bsize = bn then b.get (x % bsize) else v.byte i x := by
  simp only [View.byte, setData_own h ip hbn]
  by_cases hsame : i = ip ∧ x / bsize = bn
  · obtain ⟨rfl, rfl⟩ := hsame
    simp [hne, View.setData, View.log]
  · rw [if_neg hsame]
    by_cases hp : v.own i (posOf (x / bsize)) = 0
    · rw [if_pos hp, if_pos hp]
    · rw [if_neg hp, if_neg hp]
      congr 1
      refine Function.update_of_ne (fun heq => hsame ?_) _ _
      obtain ⟨hi, hpos⟩ := h.unique i _ ip _ hp (UInt32.toNat_inj.mp heq)
      exact ⟨hi, posOf_inj (Nat.div_lt_of_lt_mul (by rwa [Nat.mul_comm])) hbn hpos⟩

theorem wrote_setData (h : Own sb v) {off m : Nat} (hm : 0 < m) (hfit : off % bsize + m ≤ bsize)
    (hbn : off / bsize < maxFile) (hne : v.own ip (posOf (off / bsize)) ≠ 0) (src : Nat → UInt8) :
    Wrote sb ip off m src v (v.setData (v.own ip (posOf (off / bsize))).toNat
      ((v.data (v.own ip (posOf (off / bsize))).toNat).copyIn (off % bsize) m src)) := by
  have hown := setData_own h ip hbn ((v.data (v.own ip (posOf (off / bsize))).toNat).copyIn (off % bsize) m src)
  refine ⟨.of_same (h.of_same hown rfl h.handle) hown rfl rfl rfl rfl rfl (by simp) ip _, fun i x hx => ?_, fun bn hmeets => ?_, fun x => ?_⟩
  · have hrange : off ≤ x ∧ x < off + m ↔
        x / bsize = off / bsize ∧ off % bsize ≤ x % bsize ∧ x % bsize < off % bsize + m := by
      simp only [bsize] at *
      omega
    have hsub : x / bsize = off / bsize → x % bsize - off % bsize = x - off := by
      simp only [bsize] at *
      omega
    rw [setData_byte h hbn hne _ i hx, Bytes.get_copyIn (Nat.mod_lt _ (by simp [bsize]))]
    by_cases hsame : i = ip ∧ x / bsize = off / bsize
    · obtain ⟨rfl, hx'⟩ := hsame
      simp only [hrange, hx', true_and, if_true, hsub hx', View.byte, if_neg hne]
    · rw [if_neg hsame, if_neg fun hcond => hsame ⟨hcond.1, (hrange.mp hcond.2).1⟩]
  · rw [hown, (meets_first hm hfit).mp hmeets]
    exact hne
  · have hnot : ¬Gained sb ip v _ x := not_gained_of_same (hown ip) x
    rw [newEvents_of_eq rfl]
    simp only [meets_first hm hfit, exists_eq_left, hown, hnot, false_or, List.mem_singleton, Event.logWrite.injEq]

theorem vwp_writeLoop (h : Own sb v) {e : Inode} (he : v.icache ip = some e) (hvalid : e.valid = true)
    {fuel off n : Nat} {src : Nat → UInt8} (hfuel : n ≤ fuel) (hmax : off + n ≤ maxFile * bsize)
    (hfull : ∀ v₁ p, Extends sb ip (NeedsRange off n) v v₁ → (∀ b, v₁.bit b = true) → NeedsRange off n p →
      v₁.own ip p = 0 → E .outOfBlocks) :
    vwp sb (writeLoop ip fuel src off n) (fun _ v' => Wrote sb ip off n src v v') E v := by
  induction fuel generalizing v e src off n with
  | zero =>
    obtain rfl : n = 0 := by omega
    exact vwp_pure (Wrote.zero h ip off src)
  | succ fuel ih =>
    unfold writeLoop
    by_cases hn : n = 0
    · subst hn
      exact vwp_pure (Wrote.zero h ip off src)
    rw [if_neg hn]
    obtain ⟨m, n', hm, rfl, hmin, hfit⟩ := first_chunk off hn
    have hfirst : ∀ p, Needs (off / bsize) p → NeedsRange off m p := fun p hp => (needsRange_first hm hfit).mpr hp
    have hbn : off / bsize < maxFile := ((meets_first hm hfit).mpr rfl).lt (by omega)
    refine vwp_seq (vwp_bmap h he hvalid hbn fun v₁ p hgrows hbits hp => ?_) ?_
    · exact hfull v₁ p (hgrows.mono fun p hp => needsRange_add.mpr (.inl (hfirst p hp))).toExtends hbits
        (needsRange_add.mpr (.inl (hfirst p hp)))
    rintro addr v₁ ⟨hne, rfl, hgrows⟩
    refine vwp_bind (vwp_breadData (hgrows.own.range ip _ hne).1 ?_)
    simp only [hmin, Nat.add_sub_cancel_left]
    refine vwp_bind (vwp_logWriteData (hgrows.own.range ip _ hne).1 ?_)
    have hwrote : Wrote sb ip off m src v _ := (hgrows.mono hfirst).wrote (wrote_setData hgrows.own hm hfit hbn hne src)
    obtain ⟨addrs, he₂⟩ := hwrote.self e he
    refine vwp_mono (ih hwrote.own he₂ hvalid (by omega) (by omega) fun v₂ p hext hbits hp => ?_) ?_ fun _ hE => hE
    · refine hfull v₂ p ((hwrote.toExtends.mono ?_).trans (hext.mono ?_)) hbits (needsRange_add.mpr (.inr hp))
      · exact fun p hp => needsRange_add.mpr (.inl hp)
      · exact fun p hp => needsRange_add.mpr (.inr hp)
    · exact fun _ v₂ hwrote₂ => hwrote.trans hwrote₂

/-! ### The calls -/

theorem lt_off_iff (off n : UInt32) : off + n < off ↔ 2 ^ 32 ≤ off.toNat + n.toNat := by
  have hoff := off.toNat_lt
  have hn := n.toNat_lt
  rw [UInt32.lt_iff_toNat_lt, UInt32.toNat_add]
  omega

theorem toNat_add_of_lt {off n : UInt32} (h : off.toNat + n.toNat < 2 ^ 32) : (off + n).toNat = off.toNat + n.toNat := by
  rw [UInt32.toNat_add, Nat.mod_eq_of_lt h]

/-- The first check of `readi` and `writei`: the offset is past the end, or the sum wraps. -/
def BadRange (size off n : Nat) : Prop := size < off ∨ 2 ^ 32 ≤ off + n

instance (size off n : Nat) : Decidable (BadRange size off n) := inferInstanceAs (Decidable (_ ∨ _))

theorem badRange_iff (size off n : UInt32) : off > size ∨ off + n < off ↔ BadRange size.toNat off.toNat n.toNat := by
  rw [lt_off_iff, gt_iff_lt, UInt32.lt_iff_toNat_lt, BadRange]

/-- The number of bytes `readi` reads from offset `off` of a file. -/
def readCount (size off n : Nat) : Nat := min (off + n) size - off

variable {e : Inode} {devsw : Devsw} {off n : UInt32} {src : Nat → UInt8}

theorem vwp_readi_dev (he : v.icache ip = some e) (hdev : e.din.type = tDev) :
    vwp sb (readi devsw ip off n) (fun _ v' => v' = v) E v := by
  refine vwp_bind (vwp_inode he ?_)
  rw [if_pos hdev]
  split
  · exact vwp_pure rfl
  · cases devsw.read e.din.major with
    | none => exact vwp_pure rfl
    | some read => exact vwp_pure rfl

theorem vwp_readi (h : Own sb v) (he : v.icache ip = some e) (hvalid : e.valid = true) (hdev : e.din.type ≠ tDev)
    (hsize : e.din.size.toNat ≤ maxFile * bsize)
    (hfull : ∀ v₁ p, Grows sb ip (NeedsRange off.toNat (readCount e.din.size.toNat off.toNat n.toNat)) v v₁ →
      (∀ b, v₁.bit b = true) → NeedsRange off.toNat (readCount e.din.size.toNat off.toNat n.toNat) p →
      v₁.own ip p = 0 → E .outOfBlocks) :
    vwp sb (readi devsw ip off n) (fun r v' =>
      if BadRange e.din.size.toNat off.toNat n.toNat then r = none ∧ v' = v
      else r = some ((List.range (readCount e.din.size.toNat off.toNat n.toNat)).map fun k => v.byte ip (off.toNat + k)) ∧
        Grows sb ip (NeedsRange off.toNat (readCount e.din.size.toNat off.toNat n.toNat)) v v') E v := by
  refine vwp_bind (vwp_inode he ?_)
  rw [if_neg hdev]
  simp only [badRange_iff]
  by_cases hbad : BadRange e.din.size.toNat off.toNat n.toNat
  · simp only [if_pos hbad]
    exact vwp_pure ⟨rfl, rfl⟩
  simp only [if_neg hbad]
  obtain ⟨hle, hwrap⟩ := not_or.mp hbad
  have hcount : (if off + n > e.din.size then e.din.size - off else n).toNat =
      readCount e.din.size.toNat off.toNat n.toNat := by
    have hadd := toNat_add_of_lt (by omega : off.toNat + n.toNat < 2 ^ 32)
    simp only [gt_iff_lt, UInt32.lt_iff_toNat_lt, hadd, readCount]
    split
    · rw [UInt32.toNat_sub_of_le _ _ (UInt32.le_iff_toNat_le.mpr (by omega))]
      omega
    · omega
  simp only [hcount]
  refine vwp_map (vwp_mono (vwp_readLoop h he hvalid (le_refl _) ?_ hfull) ?_ fun _ hE => hE)
  · unfold readCount
    omega
  · rintro bytes v' ⟨rfl, hgrows⟩
    exact ⟨rfl, hgrows⟩

def Fits (size off n : Nat) : Prop := off ≤ size ∧ off + n < 2 ^ 32 ∧ off + n ≤ maxFile * bsize

instance (size off n : Nat) : Decidable (Fits size off n) := inferInstanceAs (Decidable (_ ∧ _))

/-- The file size after `n` bytes have been written at `off`. -/
def newSize (size off n : UInt32) : UInt32 := if size.toNat < off.toNat + n.toNat then off + n else size

theorem toNat_newSize {size off n : UInt32} (h : Fits size.toNat off.toNat n.toNat) :
    (newSize size off n).toNat = max size.toNat (off.toNat + n.toNat) := by
  unfold newSize
  split
  · rw [toNat_add_of_lt h.2.1]
    omega
  · omega

/-- What a call of `writei` on inode `ip` does, whose entry is `e`: a file that has become longer is written
back, so its new blocks are on disk; otherwise no inode changes on disk. -/
structure Written (sb : Superblock) (ip : Nat) (e : Inode) (off n : UInt32) (src : Nat → UInt8) (v v' : View) : Prop
    extends Gains sb ip (NeedsRange off.toNat n.toNat) v v' where
  byte : ∀ i x, x < maxFile * bsize →
    v'.byte i x = if i = ip ∧ off.toNat ≤ x ∧ x < off.toNat + n.toNat then src (x - off.toNat) else v.byte i x
  full : ∀ bn, Meets off.toNat n.toNat bn → v'.own ip (posOf bn) ≠ 0
  self : ∃ addrs, v'.icache ip = some { e with din := { e.din with size := newSize e.din.size off n, addrs := addrs } }
  dinode : v'.dinode =
    if e.din.size.toNat < off.toNat + n.toNat then Function.update v.dinode ip (v'.cur ip) else v.dinode
  logged : ∀ x, .logWrite x ∈ newEvents v v' ↔ Gained sb ip v v' x ∨
    (∃ bn, Meets off.toNat n.toNat bn ∧ x = (v'.own ip (posOf bn)).toNat) ∨
    e.din.size.toNat < off.toNat + n.toNat ∧ x = iblock ip

/-- The end of `writei` for a file that has become longer. -/
def View.grow (v : View) (ip : Nat) (e : Inode) (size : UInt32) : View :=
  (v.setInode ip { e with din := { e.din with size := size } }).setDinode ip { e.din with size := size }

theorem grow_cur_self (hvalid : e.valid = true) (size : UInt32) :
    (v.grow ip e size).cur ip = { e.din with size := size } :=
  cur_of_valid (v := v.grow ip e size) (setInode_same v ip { e with din := { e.din with size := size } }) hvalid

theorem grow_cur_other {i : Nat} (hi : i ≠ ip) (size : UInt32) : (v.grow ip e size).cur i = v.cur i := by
  simp only [View.cur, View.grow, View.setDinode, View.log, setInode_other v hi]
  simp only [View.setInode, Function.update_of_ne hi]

theorem grow_own (he : v.icache ip = some e) (hvalid : e.valid = true) (size : UInt32) (i : Nat) (p : Pos) :
    (v.grow ip e size).own i p = v.own i p := by
  have haddrs : ((v.grow ip e size).cur i).addrs = (v.cur i).addrs := by
    by_cases hi : i = ip
    · rw [hi, grow_cur_self hvalid, cur_of_valid he hvalid]
    · rw [grow_cur_other hi]
  exact own_of_cur haddrs rfl p

theorem grow_byte (he : v.icache ip = some e) (hvalid : e.valid = true) (size : UInt32) (i x : Nat) :
    (v.grow ip e size).byte i x = v.byte i x := by
  simp only [View.byte, grow_own he hvalid]
  rfl

theorem Gains.grow {P : Pos → Prop} (h : Gains sb ip P v v₁) {e₁ : Inode} (he₁ : v₁.icache ip = some e₁)
    (hvalid : e₁.valid = true) (size : UInt32) : Gains sb ip P v (v₁.grow ip e₁ size) := by
  have hown := grow_own he₁ hvalid size
  have hother : ∀ i, i ≠ ip → (v₁.grow ip e₁ size).icache i = v₁.icache i := fun i hi => setInode_other v₁ hi _
  have htrace : (v₁.grow ip e₁ size).trace = v.trace ++ (newEvents v v₁ ++ [.logWrite (iblock ip)]) := by
    rw [← List.append_assoc, ← h.trace]
    rfl
  refine ⟨h.own.of_same hown rfl fun i e hi => ?_, fun i p => ?_, fun i hi => (hother i hi).trans (h.other i hi), h.ncached,
    fun b => ?_, ?_, trace_of_eq htrace, fun x hx => ?_, fun b room hmem => h.allocs b room ?_, fun p hp hp' => ?_⟩
  · by_cases hne : i = ip
    · exact hne ▸ h.own.handle ip e₁ he₁
    · exact h.own.handle i e (hother i hne ▸ hi)
  · rw [hown]
    exact h.owns i p
  · simp only [hown]
    exact h.bit b
  · have hcount := h.count
    simp only [View.nblocks, hown] at hcount ⊢
    exact hcount
  · rw [newEvents_of_eq htrace, List.mem_append, List.mem_singleton] at hx
    rcases hx with hx | rfl
    · exact h.marks x hx
    · rfl
  · rw [newEvents_of_eq htrace] at hmem
    simpa using hmem
  · rw [hown] at hp' ⊢
    obtain ⟨room, hmem⟩ := h.returned p hp hp'
    rw [newEvents_of_eq htrace]
    exact ⟨room, List.mem_append_left _ hmem⟩

theorem Gained.congr_own (hown : ∀ p, v₂.own ip p = v₁.own ip p) (x : Nat) : Gained sb ip v v₂ x ↔ Gained sb ip v v₁ x := by
  simp only [Gained, View.touched, hown]

theorem Wrote.written (hw : Wrote sb ip off.toNat n.toNat src v v₁) (hvalid : e.valid = true) {e₁ : Inode}
    (he₁ : v₁.icache ip = some e₁) (haddrs : ∃ addrs, e₁ = { e with din := { e.din with addrs := addrs } }) :
    Written sb ip e off n src v (if e.din.size.toNat < off.toNat + n.toNat then v₁.grow ip e₁ (off + n) else v₁) := by
  obtain ⟨addrs, heq⟩ := haddrs
  have hvalid₁ : e₁.valid = true := by rw [heq, hvalid]
  split
  · rename_i hlt
    have hown := grow_own he₁ hvalid₁ (off + n)
    refine ⟨hw.toGains.grow he₁ hvalid₁ _, fun i x hx => ?_, fun bn hbn => ?_, ⟨addrs, ?_⟩, ?_, fun x => ?_⟩
    · rw [grow_byte he₁ hvalid₁]
      exact hw.byte i x hx
    · rw [hown]
      exact hw.full bn hbn
    · rw [newSize, if_pos hlt, heq]
      exact setInode_same _ _ _
    · rw [if_pos hlt, grow_cur_self hvalid₁, ← hw.dinode]
      rfl
    · rw [Gained.congr_own (hown ip)]
      have htrace : (v₁.grow ip e₁ (off + n)).trace = v.trace ++ (newEvents v v₁ ++ [.logWrite (iblock ip)]) := by
        rw [← List.append_assoc, ← hw.trace]
        rfl
      simp only [hown, newEvents_of_eq htrace, List.mem_append, List.mem_singleton, Event.logWrite.injEq, hw.logged x,
        hlt, true_and, or_assoc]
  · rename_i hlt
    refine ⟨hw.toGains, hw.byte, hw.full, ⟨addrs, ?_⟩, ?_, fun x => ?_⟩
    · rw [he₁, newSize, if_neg hlt, heq]
    · rw [if_neg hlt, hw.dinode]
    · simp only [hw.logged x, hlt, false_and, or_false]

theorem vwp_writei_dev (he : v.icache ip = some e) (hdev : e.din.type = tDev) :
    vwp sb (writei devsw ip src off n) (fun _ v' => v' = v) E v := by
  refine vwp_bind (vwp_inode he ?_)
  rw [if_pos hdev]
  split
  · exact vwp_pure rfl
  · cases devsw.write e.din.major with
    | none => exact vwp_pure rfl
    | some write => exact vwp_pure rfl

theorem vwp_writei (h : Own sb v) (he : v.icache ip = some e) (hvalid : e.valid = true) (hdev : e.din.type ≠ tDev)
    (hfull : Fits e.din.size.toNat off.toNat n.toNat → ∀ v₁ p, Extends sb ip (NeedsRange off.toNat n.toNat) v v₁ →
      (∀ b, v₁.bit b = true) → NeedsRange off.toNat n.toNat p → v₁.own ip p = 0 → E .outOfBlocks) :
    vwp sb (writei devsw ip src off n) (fun r v' =>
      if Fits e.din.size.toNat off.toNat n.toNat then r = some n.toNat ∧ Written sb ip e off n src v v'
      else r = none ∧ v' = v) E v := by
  refine vwp_bind (vwp_inode he ?_)
  rw [if_neg hdev]
  simp only [badRange_iff]
  by_cases hbad : BadRange e.din.size.toNat off.toNat n.toNat
  · have hfits : ¬Fits e.din.size.toNat off.toNat n.toNat := by
      unfold BadRange Fits at *
      omega
    simp only [if_pos hbad, if_neg hfits]
    exact vwp_pure ⟨rfl, rfl⟩
  simp only [if_neg hbad]
  obtain ⟨hle, hwrap⟩ := not_or.mp hbad
  have hadd := toNat_add_of_lt (by omega : off.toNat + n.toNat < 2 ^ 32)
  by_cases hmax : (off + n).toNat > maxFile * bsize
  · have hfits : ¬Fits e.din.size.toNat off.toNat n.toNat := fun hfits => by
      have := hfits.2.2
      omega
    simp only [if_pos hmax, if_neg hfits]
    exact vwp_pure ⟨rfl, rfl⟩
  have hfits : Fits e.din.size.toNat off.toNat n.toNat := ⟨by omega, by omega, by omega⟩
  simp only [if_neg hmax, if_pos hfits]
  refine vwp_seq (vwp_writeLoop h he hvalid (le_refl _) (by omega) (hfull hfits)) ?_
  rintro - v₁ hwrote
  obtain ⟨addrs, he₁⟩ := hwrote.self e he
  refine vwp_bind (vwp_inode he₁ ?_)
  have hgrow : n > 0 ∧ off + n > e.din.size ↔ e.din.size.toNat < off.toNat + n.toNat := by
    simp only [gt_iff_lt, UInt32.lt_iff_toNat_lt, hadd, UInt32.toNat_zero]
    omega
  have hwritten := hwrote.written (e := e) hvalid he₁ ⟨addrs, rfl⟩
  simp only [hgrow]
  by_cases hlt : e.din.size.toNat < off.toNat + n.toNat
  · rw [if_pos hlt] at hwritten ⊢
    refine vwp_bind (vwp_setInode (vwp_bind (vwp_iupdate (setInode_same _ _ _) (h.handle ip e he) (vwp_pure ?_))))
    exact ⟨rfl, hwritten⟩
  · rw [if_neg hlt] at hwritten ⊢
    exact vwp_pure ⟨rfl, hwritten⟩

end Xv6.Fs
