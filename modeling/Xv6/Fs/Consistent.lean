import Xv6.Fs.Content
import Xv6.Fs.Inode

/-!
# The block allocation invariant

On top of single ownership: every data block in use has an owner, files have no holes and no blocks past
their end, an inode that is cached and not locked agrees with the disk, and free inodes own nothing. The
invariant is about the inodes as the kernel sees them, so a locked inode may differ from the disk. Every
call on the inode layer keeps it.
-/

namespace Xv6.Fs

structure Dinode.SameBlocks (d d' : Dinode) : Prop where
  type : d.type = d'.type
  size : d.size = d'.size
  addrs : d.addrs = d'.addrs

/-- The fields in which an unlocked inode agrees with the disk. -/
structure Dinode.Same (d d' : Dinode) : Prop extends d.SameBlocks d' where
  nlink : d.nlink = d'.nlink

theorem Dinode.Same.refl (d : Dinode) : d.Same d := ⟨⟨rfl, rfl, rfl⟩, rfl⟩

theorem Dinode.SameBlocks.of_eq {d d' : Dinode} (h : d = d') : d.SameBlocks d' := h ▸ ⟨rfl, rfl, rfl⟩

theorem Dinode.SameBlocks.symm {d d' : Dinode} (h : d.SameBlocks d') : d'.SameBlocks d :=
  ⟨h.type.symm, h.size.symm, h.addrs.symm⟩

structure Consistent (sb : Superblock) (v : View) : Prop extends Own sb v where
  marked : ∀ b, dataStart sb ≤ b → b < sb.size - sb.nlog → v.bit b = true → ∃ i p, v.own i p ≠ 0 ∧ (v.own i p).toNat = b
  size : ∀ i, (v.cur i).size.toNat ≤ maxFile * bsize
  indexed : ∀ i bn, bn < maxFile → (v.own i (posOf bn) ≠ 0 ↔ bn * bsize < (v.cur i).size.toNat)
  synced : ∀ i e, v.icache i = some e → e.valid = true → e.busy = false → e.din.Same (v.dinode i)
  typed : ∀ i e, v.icache i = some e → e.valid = true → e.din.type ≠ 0
  free : ∀ i p, (v.cur i).type = 0 → v.own i p = 0

variable {sb : Superblock} {v v' : View} {ip : Nat} {e : Inode}

theorem Consistent.of_own (h : Consistent sb v) (hown : ∀ i p, v'.own i p = v.own i p)
    (hsize : ∀ i, (v'.cur i).size = (v.cur i).size) (hbit : v'.bit = v.bit)
    (hcache : ∀ i e, v'.icache i = some e → i < sb.ninodes)
    (hsync : ∀ i e, v'.icache i = some e → e.valid = true → e.busy = false → e.din.Same (v'.dinode i))
    (htyped : ∀ i e, v'.icache i = some e → e.valid = true → e.din.type ≠ 0)
    (hfree : ∀ i p, (v'.cur i).type = 0 → v.own i p = 0) : Consistent sb v' where
  toOwn := h.toOwn.of_same hown hbit hcache
  marked b hlo hhi hb := by
    obtain ⟨i, p, hp⟩ := h.marked b hlo hhi (hbit ▸ hb)
    exact ⟨i, p, by rwa [hown]⟩
  size i := by
    rw [hsize]
    exact h.size i
  indexed i bn hbn := by
    rw [hown, hsize]
    exact h.indexed i bn hbn
  synced := hsync
  typed := htyped
  free i p htype := by
    rw [hown]
    exact hfree i p htype

theorem Consistent.of_same (h : Consistent sb v) (hsame : ∀ i, (v'.cur i).SameBlocks (v.cur i)) (hdata : v'.data = v.data)
    (hbit : v'.bit = v.bit) (hcache : ∀ i e, v'.icache i = some e → i < sb.ninodes)
    (hsync : ∀ i e, v'.icache i = some e → e.valid = true → e.busy = false → e.din.Same (v'.dinode i))
    (htyped : ∀ i e, v'.icache i = some e → e.valid = true → e.din.type ≠ 0) : Consistent sb v' :=
  h.of_own (fun i p => own_of_cur (hsame i).addrs hdata p) (fun i => (hsame i).size) hbit hcache hsync htyped
    fun i p htype => h.free i p ((hsame i).type ▸ htype)

theorem Consistent.setInode (h : Consistent sb v) (hip : ip < sb.ninodes)
    (hcur : ((if e.valid then e.din else v.dinode ip) : Dinode).SameBlocks (v.cur ip))
    (hsync : e.valid = true → e.busy = false → e.din.Same (v.dinode ip)) (htyped : e.valid = true → e.din.type ≠ 0) :
    Consistent sb (v.setInode ip e) := by
  have hcases : ∀ i e', (v.setInode ip e).icache i = some e' → i = ip ∧ e' = e ∨ i ≠ ip ∧ v.icache i = some e' := by
    intro i e' hi
    by_cases hne : i = ip
    · subst hne
      rw [setInode_same] at hi
      exact .inl ⟨rfl, (Option.some.inj hi).symm⟩
    · exact .inr ⟨hne, setInode_other v hne e ▸ hi⟩
  refine h.of_same (fun i => ?_) rfl rfl (fun i e' hi => ?_) (fun i e' hi => ?_) fun i e' hi => ?_
  · by_cases hi : i = ip
    · subst hi
      rwa [View.cur, setInode_same]
    · exact .of_eq (cur_setInode_ne hi e)
  · rcases hcases i e' hi with ⟨rfl, -⟩ | ⟨-, hi⟩
    · exact hip
    · exact h.handle i e' hi
  · rcases hcases i e' hi with ⟨rfl, rfl⟩ | ⟨-, hi⟩
    · exact hsync
    · exact h.synced i e' hi
  · rcases hcases i e' hi with ⟨rfl, rfl⟩ | ⟨-, hi⟩
    · exact htyped
    · exact h.typed i e' hi

theorem Consistent.take (h : Consistent sb v) {i : Nat} (hi : i < sb.ninodes) : Consistent sb (v.take i) := by
  unfold View.take
  cases hcache : v.icache i with
  | some e =>
    refine h.setInode hi ?_ (h.synced i e hcache) (h.typed i e hcache)
    simp only [View.cur, hcache]
    exact .of_eq rfl
  | none =>
    have hnew : Consistent sb (v.setInode i ⟨1, false, false, Dinode.zero⟩) := by
      refine h.setInode hi ?_ (by simp) (by simp)
      simp only [View.cur, hcache]
      exact .of_eq rfl
    exact { hnew with }

theorem Consistent.drop (h : Consistent sb v) (he : v.icache ip = some e) (hbusy : e.busy = true → 1 < e.ref) :
    Consistent sb (v.drop ip e) := by
  unfold View.drop
  split
  · -- the entry goes away, and what it held is on disk
    have hcases : ∀ i e', Function.update v.icache ip none i = some e' → v.icache i = some e' := by
      intro i e' hi
      rw [Function.update_apply] at hi
      grind
    refine h.of_same (fun i => ?_) rfl rfl (fun i e' hi => h.handle i e' (hcases i e' hi))
      (fun i e' hi => h.synced i e' (hcases i e' hi)) fun i e' hi => h.typed i e' (hcases i e' hi)
    by_cases hi : i = ip
    · subst hi
      have hsync := h.synced i e he
      simp only [View.cur, Function.update_self, he]
      split
      · refine (hsync ‹_› ?_).symm
        by_contra hb
        have := hbusy (by simpa using hb)
        omega
      · exact .of_eq rfl
    · simp only [View.cur, Function.update_of_ne hi]
      exact .of_eq rfl
  · refine h.setInode (h.handle ip e he) ?_ (h.synced ip e he) (h.typed ip e he)
    simp only [View.cur, he]
    exact .of_eq rfl

theorem Consistent.locked (h : Consistent sb v) (he : v.icache ip = some e)
    (htype : e.valid = false → (v.dinode ip).type ≠ 0) : Consistent sb (v.locked ip e) := by
  refine h.setInode (h.handle ip e he) (.of_eq rfl) (by simp) fun _ => ?_
  cases hv : e.valid with
  | true =>
    rw [cur_of_valid he hv]
    exact h.typed ip e he hv
  | false =>
    simp only [View.cur, he, hv, Bool.false_eq_true, if_false]
    exact htype hv

theorem Consistent.setDinode (h : Consistent sb v) (he : v.icache ip = some e) (hvalid : e.valid = true) (d : Dinode)
    (hsync : e.busy = false → e.din.Same d) : Consistent sb (v.setDinode ip d) := by
  have hdin : ∀ i, i ≠ ip → (v.setDinode ip d).dinode i = v.dinode i := fun i hi => Function.update_of_ne hi _ _
  refine h.of_same (fun i => ?_) rfl rfl h.handle (fun i e' hi hv hb => ?_) h.typed
  · by_cases hi : i = ip
    · subst hi
      exact .of_eq ((cur_of_valid (v := v.setDinode i d) he hvalid).trans (cur_of_valid he hvalid).symm)
    · refine .of_eq ?_
      simp only [View.cur, hdin i hi]
      rfl
  · by_cases hne : i = ip
    · subst hne
      obtain rfl := Option.some.inj (he.symm.trans hi)
      have : (v.setDinode i d).dinode i = d := Function.update_self _ _ _
      rw [this]
      exact hsync hb
    · rw [hdin i hne]
      exact h.synced i e' hi hv hb

theorem Consistent.size_eq_zero (h : Consistent sb v) {i : Nat} (hfree : ∀ p, v.own i p = 0) : (v.cur i).size = 0 := by
  have hzero := h.indexed i 0 (by simp [maxFile, ndirect])
  rw [hfree] at hzero
  simp only [ne_eq, not_true_eq_false, Nat.zero_mul, false_iff, Nat.not_lt, Nat.le_zero] at hzero
  exact UInt32.toNat_inj.mp hzero

theorem Consistent.ialloc (h : Consistent sb v) {i₀ : Nat} (hfree : (v.dinode i₀).type = 0) (type : Int16) :
    Consistent sb (v.setDinode i₀ (Dinode.ofType type)) := by
  by_cases hcached : ∃ e, v.icache i₀ = some e ∧ e.valid = true
  · -- a valid entry is locked, for otherwise it would be free as well
    obtain ⟨e, he, hvalid⟩ := hcached
    refine h.setDinode he hvalid _ fun hb => absurd ?_ (h.typed i₀ e he hvalid)
    rw [(h.synced i₀ e he hvalid hb).type, hfree]
  have hcur : v.cur i₀ = v.dinode i₀ := by
    unfold View.cur
    grind
  have hcur' : (v.setDinode i₀ (Dinode.ofType type)).cur i₀ = Dinode.ofType type := by
    have : (v.setDinode i₀ (Dinode.ofType type)).icache i₀ = v.icache i₀ := rfl
    have hdin : (v.setDinode i₀ (Dinode.ofType type)).dinode i₀ = Dinode.ofType type :=
      Function.update_self _ _ _
    rw [View.cur, this, hdin]
    grind
  have hother : ∀ i, i ≠ i₀ → (v.setDinode i₀ (Dinode.ofType type)).cur i = v.cur i := by
    intro i hi
    simp only [View.cur, View.setDinode, View.log, Function.update_of_ne hi]
  have hempty : ∀ p, v.own i₀ p = 0 := fun p => h.free i₀ p (hcur ▸ hfree)
  refine h.of_own (fun i p => ?_) (fun i => ?_) rfl h.handle (fun i e' hi hv hb => ?_) h.typed fun i p htype => ?_
  · by_cases hi : i = i₀
    · subst hi
      rw [hempty]
      exact own_eq_zero (fun k => by rw [hcur']; rfl) p
    · exact own_of_cur (congrArg Dinode.addrs (hother i hi)) rfl p
  · by_cases hi : i = i₀
    · rw [hi, hcur', h.size_eq_zero hempty]
      rfl
    · rw [hother i hi]
  · have hne : i ≠ i₀ := by
      rintro rfl
      exact hcached ⟨e', hi, hv⟩
    have : (v.setDinode i₀ (Dinode.ofType type)).dinode i = v.dinode i := Function.update_of_ne hne _ _
    rw [this]
    exact h.synced i e' hi hv hb
  · by_cases hi : i = i₀
    · rw [hi]
      exact hempty p
    · exact h.free i p (hother i hi ▸ htype)

/-! ### Reading and writing -/

theorem Consistent.needs_own (h : Consistent sb v) {i bn : Nat} {p : Pos} (hbn : bn * bsize < (v.cur i).size.toNat)
    (hp : Needs bn p) : v.own i p ≠ 0 := by
  have hmax : bn < maxFile := by
    have := h.size i
    simp only [maxFile, bsize, ndirect, nindirect] at *
    omega
  have hown := (h.indexed i bn hmax).mpr hbn
  rcases hp with rfl | ⟨hlo, rfl⟩
  · exact hown
  · -- the entry of the block is in the indirect block
    intro hzero
    have hj : bn - ndirect < nindirect := by
      simp only [maxFile] at hmax
      omega
    rw [posOf, dif_neg (by omega), dif_pos hj, own_entry, if_pos hzero] at hown
    exact hown rfl

theorem Consistent.needsRange_own (h : Consistent sb v) {i off n : Nat} (hend : off + n ≤ (v.cur i).size.toNat) {p : Pos}
    (hp : NeedsRange off n p) : v.own i p ≠ 0 := by
  obtain ⟨bn, ⟨x, hlo, hhi, rfl⟩, hp⟩ := hp
  refine h.needs_own ?_ hp
  simp only [bsize]
  omega

theorem Consistent.grows (h : Consistent sb v) (he : v.icache ip = some e) (hvalid : e.valid = true) {off n : Nat}
    (hend : off + n ≤ e.din.size.toNat) (hg : Grows sb ip (NeedsRange off n) v v') : Consistent sb v' := by
  have hcur := cur_of_valid he hvalid
  obtain ⟨hown, hcache, hbit⟩ := hg.toExtends.same he hvalid fun p hp => h.needsRange_own (hcur ▸ hend) hp
  have hcur' : ∀ i, v'.cur i = v.cur i := fun i => by simp only [View.cur, hcache, hg.dinode]
  refine h.of_own hown (fun i => by rw [hcur']) hbit ?_ ?_ ?_ fun i p htype => h.free i p (hcur' i ▸ htype)
  · rw [hcache]
    exact h.handle
  · rw [hcache, hg.dinode]
    exact h.synced
  · rw [hcache]
    exact h.typed

/-- A block of the file after a write lies before the old end or meets the range. -/
theorem lt_max_iff {size off n bn : Nat} (hoff : off ≤ size) :
    bn * bsize < max size (off + n) ↔ bn * bsize < size ∨ Meets off n bn := by
  constructor
  · intro hlt
    by_cases hold : bn * bsize < size
    · exact .inl hold
    · refine .inr ⟨bn * bsize, by omega, by omega, ?_⟩
      simp [bsize]
  · rintro (hlt | ⟨x, hlo, hhi, rfl⟩)
    · omega
    · have := Nat.div_mul_le_self x bsize
      omega

section Written

variable {off n : UInt32} {src : Nat → UInt8}

theorem Written.cur_self (hw : Written sb ip e off n src v v') (hvalid : e.valid = true) :
    ∃ addrs, v'.cur ip = { e.din with size := newSize e.din.size off n, addrs := addrs } := by
  obtain ⟨addrs, he'⟩ := hw.self
  exact ⟨addrs, cur_of_valid he' hvalid⟩

theorem Written.cur_other (hw : Written sb ip e off n src v v') {i : Nat} (hi : i ≠ ip) : v'.cur i = v.cur i := by
  have hdin : v'.dinode i = v.dinode i := by
    rw [hw.dinode]
    split
    · exact Function.update_of_ne hi _ _
    · rfl
  simp only [View.cur, hw.other i hi, hdin]

theorem Written.indexed (hw : Written sb ip e off n src v v') (h : Consistent sb v) (he : v.icache ip = some e)
    (hvalid : e.valid = true) (hfits : Fits e.din.size.toNat off.toNat n.toNat) {bn : Nat} (hbn : bn < maxFile) :
    v'.own ip (posOf bn) ≠ 0 ↔ bn * bsize < max e.din.size.toNat (off.toNat + n.toNat) := by
  have hold := h.indexed ip bn hbn
  rw [cur_of_valid he hvalid] at hold
  rw [lt_max_iff hfits.1]
  constructor
  · intro hown
    rcases hw.owns ip (posOf bn) with heq | ⟨-, ⟨bn', hmeets, hneeds⟩, -⟩
    · exact .inl (hold.mp (heq ▸ hown))
    · right
      rcases hneeds with hpos | ⟨-, hpos⟩
      · rwa [posOf_inj hbn (hmeets.lt hfits.2.2) hpos]
      · exact absurd hpos (posOf_ne_indirect hbn)
  · rintro (hlt | hmeets)
    · have hown := hold.mpr hlt
      rwa [hw.keeps hown]
    · exact hw.full bn hmeets

theorem Consistent.written (h : Consistent sb v) (he : v.icache ip = some e) (hvalid : e.valid = true)
    (hbusy : e.busy = true) (hfits : Fits e.din.size.toNat off.toNat n.toNat)
    (hw : Written sb ip e off n src v v') : Consistent sb v' := by
  obtain ⟨addrs, he'⟩ := hw.self
  have hcur' := cur_of_valid he' hvalid
  have hsize := toNat_newSize hfits
  refine ⟨hw.own, fun b hlo hhi hb => ?_, fun i => ?_, fun i bn hbn => ?_, fun i e' hi hv hb => ?_, fun i e' hi hv => ?_,
    fun i p htype => ?_⟩
  · rcases (hw.bit b).mp hb with hb | ⟨p, -, hp⟩
    · obtain ⟨i, p, hp, hpb⟩ := h.marked b hlo hhi hb
      exact ⟨i, p, by rwa [hw.keeps hp], by rwa [hw.keeps hp]⟩
    · exact ⟨ip, p, hp⟩
  · by_cases hi : i = ip
    · have := h.size ip
      rw [cur_of_valid he hvalid] at this
      rw [hi, hcur', hsize]
      exact max_le this hfits.2.2
    · rw [hw.cur_other hi]
      exact h.size i
  · by_cases hi : i = ip
    · rw [hi, hcur', hsize]
      exact hw.indexed h he hvalid hfits hbn
    · have hown : v'.own i (posOf bn) = v.own i (posOf bn) := (hw.owns i _).resolve_right fun hgain => hi hgain.1
      rw [hown, hw.cur_other hi]
      exact h.indexed i bn hbn
  · by_cases hne : i = ip
    · rw [hne, he'] at hi
      cases hi
      exact absurd hb (by simp [hbusy])
    · have hdin : v'.dinode i = v.dinode i := by
        rw [hw.dinode]
        split
        · exact Function.update_of_ne hne _ _
        · rfl
      rw [hdin]
      exact h.synced i e' (hw.other i hne ▸ hi) hv hb
  · by_cases hne : i = ip
    · rw [hne, he'] at hi
      cases hi
      exact h.typed ip e he hvalid
    · exact h.typed i e' (hw.other i hne ▸ hi) hv
  · by_cases hi : i = ip
    · rw [hi, hcur'] at htype
      exact absurd htype (h.typed ip e he hvalid)
    · rw [(hw.owns i p).resolve_right fun hgain => hi hgain.1]
      exact h.free i p (hw.cur_other hi ▸ htype)

end Written

theorem Consistent.freed (h : Consistent sb v) (hf : Freed ip e v v') : Consistent sb v' := by
  have hcache : ∀ i e', v'.icache i = some e' → i ≠ ip ∧ v.icache i = some e' := by
    intro i e' hi
    have hne : i ≠ ip := by
      rintro rfl
      rw [hf.self] at hi
      cases hi
    exact ⟨hne, hf.other i hne ▸ hi⟩
  refine ⟨hf.own h.toOwn, fun b hlo hhi hb => ?_, fun i => ?_, fun i bn hbn => ?_, fun i e' hi hv hb => ?_, fun i e' hi => ?_,
    fun i p htype => ?_⟩
  · obtain ⟨hb, hnot⟩ := (hf.bit b).mp hb
    obtain ⟨i, p, hp, hpb⟩ := h.marked b hlo hhi hb
    have hi : i ≠ ip := by
      rintro rfl
      exact hnot p hp hpb
    exact ⟨i, p, by rw [hf.owns, if_neg hi]; exact ⟨hp, hpb⟩⟩
  · by_cases hi : i = ip
    · rw [hi, hf.cur_self]
      simp [Dinode.empty]
    · rw [hf.cur_other hi]
      exact h.size i
  · rw [hf.owns]
    by_cases hi : i = ip
    · rw [if_pos hi, hi, hf.cur_self]
      simp [Dinode.empty]
    · rw [if_neg hi, hf.cur_other hi]
      exact h.indexed i bn hbn
  · obtain ⟨hne, hi⟩ := hcache i e' hi
    rw [hf.dinode, Function.update_of_ne hne]
    exact h.synced i e' hi hv hb
  · exact h.typed i e' (hcache i e' hi).2
  · rw [hf.owns]
    by_cases hi : i = ip
    · rw [if_pos hi]
    · rw [if_neg hi]
      exact h.free i p (hf.cur_other hi ▸ htype)

theorem Consistent.note (h : Consistent sb v) (x : Event) : Consistent sb (v.note x) := { h with }

theorem Written.synced (hw : Written sb ip e off n src v v') (h : Consistent sb v) (he : v.icache ip = some e)
    (hvalid : e.valid = true) (hsync : e.din.Same (v.dinode ip)) {e' : Inode} (he' : v'.icache ip = some e') :
    e'.din.Same (v'.dinode ip) := by
  obtain ⟨addrs, hself⟩ := hw.self
  obtain rfl := Option.some.inj (he'.symm.trans hself)
  have hcur := cur_of_valid he' hvalid
  have hdinode := hw.dinode
  by_cases hlt : e.din.size.toNat < off.toNat + n.toNat
  · rw [if_pos hlt] at hdinode
    rw [hdinode, Function.update_self, hcur]
    exact .refl _
  · rw [if_neg hlt] at hdinode
    -- the file has all the blocks it is written to, so its addresses are the old ones
    have haddrs : addrs = e.din.addrs := by
      funext k
      have hown : v'.own ip (.slot k) = v.own ip (.slot k) := by
        refine (hw.owns ip _).resolve_right fun ⟨_, hp, hzero⟩ => ?_
        exact h.needsRange_own (i := ip) (by rw [cur_of_valid he hvalid]; omega) hp hzero
      rwa [own_slot, own_slot, hcur, cur_of_valid he hvalid] at hown
    have hsize : newSize e.din.size off n = e.din.size := by rw [newSize, if_neg hlt]
    rw [hdinode, haddrs, hsize]
    exact hsync

theorem Consistent.synced_cur (h : Consistent sb v) (he : v.icache ip = some e) (hbusy : e.busy = false) :
    (v.cur ip).Same (v.dinode ip) := by
  cases hv : e.valid with
  | true =>
    rw [cur_of_valid he hv]
    exact h.synced ip e he hv hbusy
  | false =>
    have hcur : v.cur ip = v.dinode ip := by simp [View.cur, he, hv]
    exact hcur ▸ .refl _

end Xv6.Fs
