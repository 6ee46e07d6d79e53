import Xv6.Fs.Calls
import Xv6.Fs.Room

/-!
# Files as byte arrays

The abstract file is the list of its bytes. On a consistent file system `writei` replaces a range of that
list, possibly past its end, and `readi` returns a range of it, with the 32-bit checks of the code deciding
which ranges are accepted. A write that is accepted fails only for lack of blocks or of room in the log.
-/

namespace Xv6.Fs

open Lib

def View.contents (v : View) (i : Nat) : List UInt8 := (List.range (v.cur i).size.toNat).map (v.byte i)

def State.contents (s : State) (i : Nat) : List UInt8 := (s.view s.super).contents i

theorem Rep.contents {sb : Superblock} {s : State} {v : View} (hs : Rep sb s v) (i : Nat) : s.contents i = v.contents i := by
  rw [State.contents, ← hs.view, State.super, hs.super]

theorem contents_of_cur {v v' : View} {i : Nat} (hcur : v'.cur i = v.cur i) (hdata : v'.data = v.data) :
    v'.contents i = v.contents i := by
  have hown := own_of_cur (congrArg Dinode.addrs hcur) hdata
  rw [View.contents, View.contents, hcur]
  exact List.map_congr_left fun x _ => by simp only [View.byte, hown, hdata]

theorem length_contents (v : View) (i : Nat) : (v.contents i).length = (v.cur i).size.toNat := by
  rw [View.contents, List.length_map, List.length_range]

/-- The list with `bytes` in the place of its elements from `off` on. -/
def overwrite (old : List UInt8) (off : Nat) (bytes : List UInt8) : List UInt8 :=
  old.take off ++ bytes ++ old.drop (off + bytes.length)

/-! ### Free blocks -/

instance (bn : Nat) (p : Pos) : Decidable (Needs bn p) := inferInstanceAs (Decidable (_ ∨ _))

instance (off n : Nat) (p : Pos) : Decidable (NeedsRange off n p) :=
  decidable_of_iff (0 < n ∧ ∃ bn < (off + n - 1) / bsize + 1, off / bsize ≤ bn ∧ Needs bn p) <| by
    constructor
    · rintro ⟨hn, bn, hhi, hlo, hp⟩
      exact ⟨bn, (meets_iff hn).mpr ⟨hlo, by omega⟩, hp⟩
    · rintro ⟨bn, hmeets, hp⟩
      have hn : 0 < n := by
        obtain ⟨x, hlo, hhi, -⟩ := hmeets
        omega
      obtain ⟨hlo, hhi⟩ := (meets_iff hn).mp hmeets
      exact ⟨hn, bn, by omega, hlo, hp⟩

/-- The number of blocks that inode `ip` lacks for a write of `n` bytes at `off`. -/
def View.needed (v : View) (ip off n : Nat) : Nat :=
  (Finset.univ.filter fun p => NeedsRange off n p ∧ v.own ip p = 0).card

variable {sb : Superblock} {v v' v₁ : View} {ip : Nat} {e : Inode}

/-- Inode `ip` has taken blocks for a write of `n` bytes at `off`, some of those it lacks. -/
structure Takes (sb : Superblock) (ip off n : Nat) (v v' : View) : Prop where
  keeps : ∀ p, v.own ip p ≠ 0 → v'.own ip p ≠ 0
  only : ∀ p, v'.own ip p ≠ 0 → v.own ip p ≠ 0 ∨ NeedsRange off n p
  count : v'.nfree sb + v'.nblocks ip = v.nfree sb + v.nblocks ip

namespace Takes

variable {off m n : Nat}

theorem of_gains (h : Gains sb ip (NeedsRange off n) v v') : Takes sb ip off n v v' where
  keeps p hp := h.keeps hp ▸ hp
  only _ hp := (h.owns ip _).imp (fun heq => by rwa [heq] at hp) fun hgain => hgain.2.1
  count := h.count

theorem refl (v : View) : Takes sb ip off n v v := ⟨fun _ hp => hp, fun _ hp => .inl hp, rfl⟩

theorem congr {w w' : View} (h : Takes sb ip off n v v') (hown : ∀ p, w.own ip p = v.own ip p) (hbit : w.bit = v.bit)
    (hown' : ∀ p, w'.own ip p = v'.own ip p) (hbit' : w'.bit = v'.bit) : Takes sb ip off n w w' where
  keeps p := by simpa only [hown, hown'] using h.keeps p
  only p := by simpa only [hown, hown'] using h.only p
  count := by simpa only [View.nfree, View.nblocks, hbit, hown, hbit', hown'] using h.count

theorem trans (h : Takes sb ip off m v v₁) (h' : Takes sb ip (off + m) n v₁ v') : Takes sb ip off (m + n) v v' where
  keeps p hp := h'.keeps p (h.keeps p hp)
  only p hp := by
    rcases h'.only p hp with hp | ⟨bn, hbn, hp⟩
    · exact (h.only p hp).imp_right fun ⟨bn, hbn, hp⟩ => ⟨bn, meets_add.mpr (.inl hbn), hp⟩
    · exact .inr ⟨bn, meets_add.mpr (.inr hbn), hp⟩
  count := h'.count.trans h.count

theorem nfree_lt (h : Takes sb ip off n v v₁) (hfull : ∀ b, v₁.bit b = true) {p : Pos} (hp : NeedsRange off n p)
    (hzero : v₁.own ip p = 0) : v.nfree sb < v.needed ip off n := by
  have hnone : v₁.nfree sb = 0 := by simp [View.nfree, hfull]
  have hp₀ : v.own ip p = 0 := by
    by_contra hne
    exact h.keeps p hne hzero
  -- the blocks the inode has now are old ones, or needed ones other than the missing one
  have hsub : (Finset.univ.filter fun q => v₁.own ip q ≠ 0) ⊆ (Finset.univ.filter fun q => v.own ip q ≠ 0) ∪
      (Finset.univ.filter fun q => NeedsRange off n q ∧ v.own ip q = 0).erase p := by
    intro q hq
    simp only [Finset.mem_filter, Finset.mem_univ, true_and, Finset.mem_union, Finset.mem_erase] at hq ⊢
    have := h.only q hq
    grind
  have hcard := (Finset.card_le_card hsub).trans (Finset.card_union_le _ _)
  have herase : ((Finset.univ.filter fun q => NeedsRange off n q ∧ v.own ip q = 0).erase p).card < v.needed ip off n :=
    Finset.card_erase_lt_of_mem (by simp [hp, hp₀])
  have hcount := h.count
  simp only [View.nblocks] at hcount
  omega

theorem needed_le (h : Takes sb ip off n v v') (hall : ∀ p, NeedsRange off n p → v'.own ip p ≠ 0) :
    v.needed ip off n ≤ v.nfree sb := by
  have hdisjoint : Disjoint (Finset.univ.filter fun q => v.own ip q ≠ 0)
      (Finset.univ.filter fun q => NeedsRange off n q ∧ v.own ip q = 0) :=
    Finset.disjoint_filter.mpr fun q _ hq hnot => hq hnot.2
  have hsub : (Finset.univ.filter fun q => v.own ip q ≠ 0) ∪ (Finset.univ.filter fun q => NeedsRange off n q ∧ v.own ip q = 0) ⊆
      Finset.univ.filter fun q => v'.own ip q ≠ 0 := by
    intro q hq
    simp only [Finset.mem_filter, Finset.mem_univ, true_and, Finset.mem_union] at hq ⊢
    exact hq.elim (h.keeps q) fun hneed => hall q hneed.1
  have hcard := Finset.card_le_card hsub
  rw [Finset.card_union_of_disjoint hdisjoint] at hcard
  have hcount := h.count
  simp only [View.nblocks] at hcount
  simp only [View.needed]
  omega

end Takes

/-! ### Writing -/

theorem drop_map_range (f : Nat → UInt8) (m n : Nat) :
    ((List.range n).map f).drop m = (List.range (n - m)).map fun k => f (m + k) := by
  by_cases hm : m ≤ n
  · obtain ⟨k, rfl⟩ := Nat.exists_eq_add_of_le hm
    rw [map_range_add, List.drop_left' (by simp), Nat.add_sub_cancel_left]
  · rw [List.drop_of_length_le (by simp; omega), Nat.sub_eq_zero_of_le (by omega)]
    rfl

theorem map_range_overwrite (f : Nat → UInt8) (g : Nat → UInt8) {size off n : Nat} (hoff : off ≤ size) :
    (List.range (max size (off + n))).map (fun x => if off ≤ x ∧ x < off + n then g (x - off) else f x) =
      overwrite ((List.range size).map f) off ((List.range n).map g) := by
  have hsplit : max size (off + n) = off + (n + (size - (off + n))) := by omega
  rw [hsplit, map_range_add, map_range_add, overwrite, List.length_map, List.length_range, drop_map_range,
    ← List.map_take, List.take_range, Nat.min_eq_left hoff, List.append_assoc]
  congr 1
  · exact List.map_congr_left fun k hk => if_neg (by have := List.mem_range.mp hk; omega)
  congr 1
  · refine List.map_congr_left fun k hk => ?_
    have := List.mem_range.mp hk
    rw [if_pos (by omega), Nat.add_sub_cancel_left]
  · refine List.map_congr_left fun k _ => ?_
    rw [if_neg (by omega), Nat.add_assoc]

theorem length_overwrite {old bytes : List UInt8} {off : Nat} (hoff : off ≤ old.length) :
    (overwrite old off bytes).length = max old.length (off + bytes.length) := by
  simp only [overwrite, List.length_append, List.length_take, List.length_drop]
  omega

section Write

variable {off n : UInt32} {src : Nat → UInt8}

theorem Written.contents_self (hw : Written sb ip e off n src v v') (h : Consistent sb v) (he : v.icache ip = some e)
    (hvalid : e.valid = true) (hfits : Fits e.din.size.toNat off.toNat n.toNat) :
    v'.contents ip = overwrite (v.contents ip) off.toNat ((List.range n.toNat).map src) := by
  have hsize := h.size ip
  rw [cur_of_valid he hvalid] at hsize
  obtain ⟨addrs, hcur⟩ := hw.cur_self hvalid
  have hcur₀ := cur_of_valid he hvalid
  rw [View.contents, View.contents, hcur, hcur₀, toNat_newSize hfits, ← map_range_overwrite _ _ hfits.1]
  refine List.map_congr_left fun x hx => ?_
  have hx := List.mem_range.mp hx
  rw [hw.byte ip x (hx.trans_le (max_le hsize hfits.2.2))]
  simp only [true_and]

end Write

/-! ### Reading -/

theorem vwp_readi_contents (devsw : Devsw) (h : Consistent sb v) (he : v.icache ip = some e) (hvalid : e.valid = true)
    (hdev : e.din.type ≠ tDev) (off n : UInt32) :
    vwp sb (readi devsw ip off n) (fun r v' => r = (if BadRange e.din.size.toNat off.toNat n.toNat then none
        else some (((v.contents ip).drop off.toNat).take (readCount e.din.size.toNat off.toNat n.toNat))) ∧
      Consistent sb v' ∧ v'.icache = v.icache ∧ v'.dinode = v.dinode ∧ ∀ i, v'.contents i = v.contents i) (fun _ => False) v := by
  have hcur : v.cur ip = e.din := cur_of_valid he hvalid
  have hsize := h.size ip
  rw [hcur] at hsize
  have hcount : off.toNat ≤ e.din.size.toNat ∨ 0 < readCount e.din.size.toNat off.toNat n.toNat →
      off.toNat + readCount e.din.size.toNat off.toNat n.toNat ≤ e.din.size.toNat := by
    unfold readCount
    omega
  refine vwp_mono (vwp_readi h.toOwn he hvalid hdev hsize fun v₁ p hg _ hp hzero => ?_) (fun r v' hpost => ?_) fun _ hE => hE
  · -- the file has every block it is read from
    have hpos : 0 < readCount e.din.size.toNat off.toNat n.toNat := by
      obtain ⟨bn, ⟨x, hlo, hhi, -⟩, -⟩ := hp
      omega
    have hne := h.needsRange_own (i := ip) (by rw [hcur]; exact hcount (.inr hpos)) hp
    exact hne (hg.keeps hne ▸ hzero)
  · split at hpost
    · rename_i hbad
      obtain ⟨rfl, rfl⟩ := hpost
      exact ⟨(if_pos hbad).symm, h, rfl, rfl, fun _ => rfl⟩
    · rename_i hbad
      obtain ⟨rfl, hg⟩ := hpost
      obtain ⟨hle, -⟩ := not_or.mp hbad
      have hend := hcount (.inl (by omega))
      obtain ⟨-, hcache, -⟩ := hg.toExtends.same he hvalid fun p hp => h.needsRange_own (hcur ▸ hend) hp
      refine ⟨?_, h.grows he hvalid hend hg, hcache, hg.dinode, fun i => ?_⟩
      · rw [if_neg hbad, View.contents, hcur, drop_map_range, ← List.map_take, List.take_range, Nat.min_eq_left (by omega)]
      · have hcur' : v'.cur i = v.cur i := by simp only [View.cur, hcache, hg.dinode]
        rw [View.contents, View.contents, hcur']
        refine List.map_congr_left fun x hx => hg.byte i x ?_
        exact (List.mem_range.mp hx).trans_le (h.size i)

end Xv6.Fs
