import Xv6.Fs.Consistent

/-!
# Room in the log

`log_write` panics if the header is full or no transaction is open, and `begin_op` waits for room. The other
modules leave such a call aside; here it is shown when the log does not stop one. A call of `writei` adds to the
header the blocks of its range, the bitmap, the indirect block and the inode, so it is enough that these fit; `readi`
adds nothing.
-/

namespace Xv6.Fs

open Lib

variable {sb : Superblock} {s s' : State} {v v' : View} {ip k cap n b : Nat} {e : Inode} {T T' : Finset Nat}

/-- The sectors in the log header are among `T`; `k` transactions are open, and `log_write` panics when the
header has `cap` sectors. -/
structure Logs (k cap : Nat) (T : Finset Nat) (s : State) : Prop where
  outstanding : s.log.outstanding = k
  capacity : min logSize (s.logsize - 1) = cap
  nodup : s.log.sectors.Nodup
  sectors : ∀ x ∈ s.log.sectors, x ∈ T

/-- The log does not stop the call. -/
def NotLog (e : Panic) : Prop := e.ofLog = false

theorem log_snoc (s : State) (e : Event) : State.log { s with trace := s.trace ++ [e] } = s.log.next e := by
  simp only [State.log, List.foldl_append, List.foldl_cons, List.foldl_nil]

namespace Logs

theorem length_le (h : Logs k cap T s) : s.log.sectors.length ≤ T.card := by
  rw [← List.toFinset_card_of_nodup h.nodup]
  exact Finset.card_le_card fun x hx => h.sectors x (List.mem_toFinset.mp hx)

theorem mono (h : Logs k cap T s) (hT : T ⊆ T') : Logs k cap T' s := { h with sectors := fun x hx => hT (h.sectors x hx) }

theorem of_trace (h : Logs k cap T s) (htrace : s'.trace = s.trace) (hsize : s'.logsize = s.logsize) : Logs k cap T s' := by
  have hlog : s'.log = s.log := by rw [State.log, State.log, htrace]
  exact ⟨hlog ▸ h.outstanding, hsize ▸ h.capacity, hlog ▸ h.nodup, hlog ▸ h.sectors⟩

theorem balloc (h : Logs k cap T s) (b : Nat) (room : Bool) : Logs k cap T { s with trace := s.trace ++ [.balloc b room] } := by
  have hlog : State.log { s with trace := s.trace ++ [.balloc b room] } = s.log := log_snoc s _
  exact ⟨hlog ▸ h.outstanding, h.capacity, hlog ▸ h.nodup, hlog ▸ h.sectors⟩

theorem write (h : Logs k cap T s) (b : Nat) (x : Block) : Logs k cap (insert b T) (s.write b x) := by
  have hlog : (s.write b x).log = s.log.next (.logWrite b) := log_snoc s _
  by_cases hb : b ∈ s.log.sectors
  · rw [LogHeader.next, if_pos hb] at hlog
    exact ⟨hlog ▸ h.outstanding, h.capacity, hlog ▸ h.nodup, fun y hy => Finset.mem_insert_of_mem (h.sectors y (hlog ▸ hy))⟩
  · rw [LogHeader.next, if_neg hb] at hlog
    refine ⟨hlog ▸ h.outstanding, h.capacity, ?_, fun y hy => ?_⟩
    · rw [hlog]
      exact List.nodup_append.mpr ⟨h.nodup, List.nodup_singleton b, fun y hy z hz => by grind⟩
    · rw [hlog, List.mem_append, List.mem_singleton] at hy
      exact Finset.mem_insert.mpr (hy.symm.imp_right (h.sectors y))

end Logs

theorem wp_logWrite_room {x : Block} {Q : PUnit → State → Prop} (h : Logs k cap T s) (hk : 0 < k) (hcard : T.card < cap)
    (hQ : Q ⟨⟩ (s.write b x)) : wp (logWrite b x) Q NotLog s := by
  have hlen := h.length_le
  have hcap := h.capacity
  have hk' := h.outstanding
  rw [logWrite, wp_bind, wp_get, if_neg (by omega), if_neg (by omega)]
  exact hQ

/-- A call that only the log could stop returns if there is room. -/
theorem vwp_ok {α : Type} {f : FsM α} {Q : α → View → Prop} {P : α → State → Prop} (h : vwp sb f Q (fun _ => False) v) (hs : Rep sb s v)
    (hroom : wp f P NotLog s) : ∃ a s', f s = .ok (a, s') ∧ (∃ v', Rep sb s' v' ∧ Q a v') ∧ P a s' := by
  refine exists_ok (wp_and (h s hs) hroom) fun e he => ?_
  rcases he with ⟨hlog | hfalse, hnot⟩
  · exact absurd (hlog.symm.trans hnot) (by decide)
  · exact hfalse

/-! ### Allocation -/

theorem wp_balloc_room (hs : Rep sb s v) (h : Logs k cap T s) (hk : 0 < k) (hbits : ∀ b < sb.size, bblock b sb.ninodes ∈ T)
    (hcard : T.card < cap) :
    wp balloc (fun a s' => Logs k cap (insert a.toNat T) s' ∧ s'.icache = s.icache) NotLog s := by
  have hsb : Superblock.ofBlock (s.blocks 1) = sb := hs.super
  simp only [balloc, readsb, bread, wp_bind, wp_map, wp_get, hsb]
  cases hfind : (List.range sb.size).find? fun b => !s.marked sb.ninodes b with
  | none => exact rfl
  | some b =>
    have hb : b < sb.size := List.mem_range.mp (List.mem_of_find?_eq_some hfind)
    have hround : (UInt32.ofNat b).toNat = b := UInt32.toNat_ofNat_of_lt' (hb.trans hs.size_lt)
    simp only [bzero, wp_bind, wp_map, wp_get, wp_modify, wp_pure]
    have hbitmap := h.write (bblock b sb.ninodes) ((s.blocks (bblock b sb.ninodes)).setBit (b % bpb) true)
    rw [Finset.insert_eq_of_mem (hbits b hb)] at hbitmap
    refine wp_logWrite_room h hk hcard (wp_logWrite_room hbitmap hk hcard ⟨?_, rfl⟩)
    rw [hround]
    exact (hbitmap.write b _).balloc b _

/-- An address is that of a block the inode has, or of one that is now in the header. -/
theorem wp_addrOf_room (hs : Rep sb s v) (hown : Own sb v) (he : v.icache ip = some e) (hvalid : e.valid = true) (h : Logs k cap T s)
    (hk : 0 < k) (hbits : ∀ b < sb.size, bblock b sb.ninodes ∈ T) (hcard : T.card < cap) (i : Fin (ndirect + 1)) :
    wp (addrOf ip i) (fun a s' => (∃ v', Rep sb s' v' ∧ a ≠ 0 ∧ v'.own ip (.slot i) = a ∧ Grows sb ip (· = .slot i) v v') ∧
      Logs k cap (insert a.toNat T) s') NotLog s := by
  have hcache : s.icache ip = some e := by rw [← he, ← hs.view]; rfl
  have hroom : wp (addrOf ip i) (fun a s' => Logs k cap (insert a.toNat T) s') NotLog s := by
    simp only [addrOf, inode, wp_bind, wp_get, hcache, wp_pure]
    split
    · rw [wp_bind]
      refine wp_mono (wp_balloc_room hs h hk hbits hcard) (fun a s₁ hpost => ?_) fun _ hE => hE
      obtain ⟨h₁, hsame⟩ := hpost
      simp only [setAddr, inode, setInode, wp_bind, wp_get, wp_modify, hsame, hcache, wp_pure]
      exact h₁.of_trace rfl rfl
    · exact h.mono (Finset.subset_insert _ _)
  exact wp_mono (wp_and (vwp_addrOf (E := fun _ => True) hown he hvalid i (fun _ _ => trivial) s hs) hroom) (fun _ _ hpost => hpost)
    fun _ hE => hE.2

/-- The header has room for `n` more sectors, besides the bitmap and the indirect block of the file. -/
def Spare (sb : Superblock) (ip k cap n : Nat) (T : Finset Nat) (s : State) (v : View) : Prop :=
  Logs k cap T s ∧ (∀ b < sb.size, bblock b sb.ninodes ∈ T) ∧
    (v.own ip .indirect ≠ 0 → (v.own ip .indirect).toNat ∈ T) ∧ T.card + (if v.own ip .indirect = 0 then 1 else 0) + n < cap

theorem wp_bmap_room (hs : Rep sb s v) (hown : Own sb v) (he : v.icache ip = some e) (hvalid : e.valid = true) {bn : Nat}
    (hbn : bn < maxFile) (hk : 0 < k) (h : Spare sb ip k cap (n + 1) T s v) :
    wp (bmap ip bn) (fun a s' => ∃ v', Rep sb s' v' ∧ (a ≠ 0 ∧ v'.own ip (posOf bn) = a ∧ Grows sb ip (Needs bn) v v') ∧
      ∃ T', Spare sb ip k cap n T' s' v' ∧ a.toNat ∈ T') NotLog s := by
  obtain ⟨hlogs, hbits, hind, hcard⟩ := h
  have hwp := vwp_bmap (E := fun _ => True) hown he hvalid hbn (fun _ _ _ _ _ _ => trivial) s hs
  by_cases hdirect : bn < ndirect
  · have hroom : wp (bmap ip bn) (fun a s' => Logs k cap (insert a.toNat T) s') NotLog s := by
      rw [bmap, dif_pos hdirect]
      exact wp_mono (wp_addrOf_room hs hown he hvalid hlogs hk hbits (by omega) _) (fun _ _ hpost => hpost.2) fun _ hE => hE
    refine wp_mono (wp_and hwp hroom) ?_ fun _ hE => hE.2
    rintro a s' ⟨⟨v', hs', hpost⟩, hlogs'⟩
    -- no block but that of the position is new
    have hsame : v'.own ip .indirect = v.own ip .indirect := by
      refine (hpost.2.2.owns ip .indirect).resolve_right fun ⟨_, hneeds, _⟩ => ?_
      rcases hneeds with hpos | ⟨hle, -⟩
      · exact posOf_ne_indirect hbn hpos.symm
      · omega
    have hinsert := Finset.card_insert_le a.toNat T
    refine ⟨v', hs', hpost, insert a.toNat T, ⟨hlogs', fun b hb => Finset.mem_insert_of_mem (hbits b hb), ?_, ?_⟩,
      Finset.mem_insert_self _ _⟩
    · rw [hsame]
      exact fun hne => Finset.mem_insert_of_mem (hind hne)
    · rw [hsame]
      omega
  -- the indirect block is in the header or gets its reserve
  have hroom : wp (bmap ip bn) (fun a s' => ∃ d e', s'.icache ip = some e' ∧ e'.valid = true ∧ e'.din.addrs (Fin.last ndirect) = d ∧ d ≠ 0 ∧
      (v.own ip .indirect ≠ 0 → d = v.own ip .indirect) ∧ Logs k cap (insert a.toNat (insert d.toNat T)) s') NotLog s := by
    have hj : bn - ndirect < nindirect := by
      simp only [maxFile] at hbn
      omega
    rw [bmap, dif_neg hdirect, if_pos hj, wp_bind]
    refine wp_mono (wp_addrOf_room hs hown he hvalid hlogs hk hbits (by omega) _) ?_ fun _ hE => hE
    rintro d s₁ ⟨⟨v₁, hs₁, hne, hd, hgrows⟩, hlogs₁⟩
    obtain ⟨addrs, he₁⟩ := hgrows.self e he
    have hcache₁ : s₁.icache ip = some { e with din := { e.din with addrs := addrs } } := by rw [← he₁, ← hs₁.view]; rfl
    have haddr : addrs (Fin.last ndirect) = d := by
      rw [← hd, own_slot, cur_of_valid he₁ hvalid]
    have hkeep : v.own ip .indirect ≠ 0 → d = v.own ip .indirect := fun hne' => hd.symm.trans (hgrows.keeps hne')
    have hcard₁ : (insert d.toNat T).card + 1 < cap := by
      by_cases hzero : v.own ip .indirect = 0
      · rw [if_pos hzero] at hcard
        have := Finset.card_insert_le d.toNat T
        omega
      · rw [hkeep hzero, Finset.insert_eq_of_mem (hind hzero)]
        omega
    simp only [bread, wp_bind, wp_map, wp_get]
    split
    · rw [wp_bind]
      refine wp_mono (wp_balloc_room hs₁ hlogs₁ hk (fun b hb => Finset.mem_insert_of_mem (hbits b hb)) (by omega)) ?_ fun _ hE => hE
      rintro a s₂ ⟨hlogs₂, hsame⟩
      have hinsert := Finset.card_insert_le a.toNat (insert d.toNat T)
      rw [wp_bind]
      refine wp_logWrite_room hlogs₂ hk (by omega) ⟨d, _, (congrFun hsame ip).trans hcache₁, hvalid, haddr, hne, hkeep, ?_⟩
      have hwritten := hlogs₂.write d.toNat (put32 (s₁.blocks d.toNat) (4 * (bn - ndirect)) a)
      rwa [Finset.insert_eq_of_mem (Finset.mem_insert_of_mem (Finset.mem_insert_self _ _))] at hwritten
    · exact ⟨d, _, hcache₁, hvalid, haddr, hne, hkeep, hlogs₁.mono (Finset.subset_insert _ _)⟩
  refine wp_mono (wp_and hwp hroom) ?_ fun _ hE => hE.2
  rintro a s' ⟨⟨v', hs', hpost⟩, d, e', he', hvalid', hd, hne, hkeep, hlogs'⟩
  have hown' : v'.own ip .indirect = d := by
    have hcache : v'.icache ip = some e' := by rw [← he', ← hs'.view]; rfl
    change v'.own ip (.slot (Fin.last ndirect)) = d
    rw [own_slot, cur_of_valid hcache hvalid', hd]
  refine ⟨v', hs', hpost, _, ⟨hlogs', fun b hb => Finset.mem_insert_of_mem (Finset.mem_insert_of_mem (hbits b hb)), ?_, ?_⟩,
    Finset.mem_insert_self _ _⟩
  · rw [hown']
    exact fun _ => Finset.mem_insert_of_mem (Finset.mem_insert_self _ _)
  · rw [hown', if_neg hne]
    have hinsert := Finset.card_insert_le a.toNat (insert d.toNat T)
    by_cases hzero : v.own ip .indirect = 0
    · rw [if_pos hzero] at hcard
      have := Finset.card_insert_le d.toNat T
      omega
    · rw [hkeep hzero, Finset.insert_eq_of_mem (hind hzero)] at hinsert ⊢
      rw [if_neg hzero] at hcard
      omega

/-! ### Writing -/

/-- The number of blocks that a range of bytes meets. -/
def rangeCount (off n : Nat) : Nat := if n = 0 then 0 else (off + n - 1) / bsize + 1 - off / bsize

theorem rangeCount_chunk {off m n : Nat} (hm : 0 < m) (hmin : m = min (m + n) (bsize - off % bsize)) :
    rangeCount (off + m) n + 1 ≤ rangeCount off (m + n) := by
  simp only [rangeCount, bsize] at *
  split
  · rw [if_neg (by omega)]
    omega
  · rw [if_neg (by omega)]
    omega

theorem wp_writeLoop_room (hs : Rep sb s v) (hown : Own sb v) (he : v.icache ip = some e) (hvalid : e.valid = true) {fuel off n : Nat}
    {src : Nat → UInt8} (hfuel : n ≤ fuel) (hmax : off + n ≤ maxFile * bsize) (hk : 0 < k)
    (h : Spare sb ip k cap (rangeCount off n) T s v) :
    wp (writeLoop ip fuel src off n) (fun _ s' => ∃ T', Logs k cap T' s' ∧ T'.card < cap) NotLog s := by
  induction fuel generalizing s v e src off n T with
  | zero => exact ⟨T, h.1, by have := h.2.2.2; omega⟩
  | succ fuel ih =>
    unfold writeLoop
    by_cases hn : n = 0
    · rw [if_pos hn]
      exact ⟨T, h.1, by have := h.2.2.2; omega⟩
    rw [if_neg hn]
    obtain ⟨m, n', hm, rfl, hmin, hfit⟩ := first_chunk off hn
    have hbn : off / bsize < maxFile := ((meets_first hm hfit).mpr rfl).lt (by omega)
    have hcount := rangeCount_chunk hm hmin.symm
    rw [wp_bind]
    have hspare : Spare sb ip k cap (rangeCount (off + m) n' + 1) T s v :=
      ⟨h.1, h.2.1, h.2.2.1, by have := h.2.2.2; omega⟩
    refine wp_mono (wp_bmap_room hs hown he hvalid hbn hk hspare) ?_ fun _ hE => hE
    rintro addr s₁ ⟨v₁, hs₁, ⟨hne, rfl, hgrows⟩, T₁, ⟨hlogs, hbits, hind, hcard⟩, hmem⟩
    have hstart := (hgrows.own.range ip _ hne).1
    have hdata : s₁.blocks (v₁.own ip (posOf (off / bsize))).toNat = v₁.data (v₁.own ip (posOf (off / bsize))).toNat := by
      rw [← hs₁.view] at hstart ⊢
      exact (if_pos hstart).symm
    simp only [bread, wp_bind, wp_map, wp_get, hmin, Nat.add_sub_cancel_left, hdata]
    refine wp_logWrite_room hlogs hk (by omega) ?_
    have hwrote := wrote_setData hgrows.own hm hfit hbn hne src
    obtain ⟨addrs, he₁⟩ := hgrows.self e he
    obtain ⟨addrs', he₂⟩ := hwrote.self _ he₁
    have hown₂ := setData_own hgrows.own ip hbn
      ((v₁.data (v₁.own ip (posOf (off / bsize))).toNat).copyIn (off % bsize) m src) ip .indirect
    refine ih (hs₁.writeData hstart _) hwrote.own he₂ hvalid (by omega) (by omega) ⟨?_, hbits, ?_, ?_⟩
    · have hlogs' := hlogs.write (v₁.own ip (posOf (off / bsize))).toNat
        ((v₁.data (v₁.own ip (posOf (off / bsize))).toNat).copyIn (off % bsize) m src)
      rwa [Finset.insert_eq_of_mem hmem] at hlogs'
    · rw [hown₂]
      exact hind
    · rw [hown₂]
      exact hcard

/-- A transaction is open, and the blocks of a write fit in the log, with those that are in it already. -/
def State.RoomFor (s : State) (off n : Nat) : Prop :=
  0 < s.log.outstanding ∧ s.log.sectors.length + (s.super.size / bpb + 1) + rangeCount off n + 1 < min logSize (s.logsize - 1)

instance (s : State) (off n : Nat) : Decidable (s.RoomFor off n) := inferInstanceAs (Decidable (_ ∧ _))

theorem nodup_log (s : State) : s.log.sectors.Nodup := by
  have hfold : ∀ (es : List Event) (log : LogHeader), log.sectors.Nodup → (es.foldl .next log).sectors.Nodup := by
    intro es
    induction es with
    | nil => exact fun _ h => h
    | cons x es ih =>
      refine fun log h => ih _ ?_
      cases x with
      | beginOp => exact h
      | endOp =>
        rw [LogHeader.next]
        split
        · exact List.nodup_nil
        · exact h
      | logWrite b =>
        rw [LogHeader.next]
        split
        · exact h
        · exact List.nodup_append.mpr ⟨h, List.nodup_singleton b, fun y hy z hz => by grind⟩
      | balloc b room => exact h
  exact hfold s.trace ⟨0, []⟩ List.nodup_nil

theorem spare_of_roomFor (hs : Rep sb s v) {off n : Nat} (h : s.RoomFor off n) (ip : Nat) :
    ∃ T, Spare sb ip s.log.outstanding (min logSize (s.logsize - 1)) (rangeCount off n) T s v := by
  have hsuper : s.super = sb := hs.super
  have hcount := h.2
  rw [hsuper] at hcount
  have hbitmaps := Finset.card_image_le (s := Finset.range (sb.size / bpb + 1)) (f := fun c => bblock (c * bpb) sb.ninodes)
  have hsectors := List.toFinset_card_le s.log.sectors
  have hunion := Finset.card_union_le s.log.sectors.toFinset ((Finset.range (sb.size / bpb + 1)).image fun c => bblock (c * bpb) sb.ninodes)
  rw [Finset.card_range] at hbitmaps
  have hlogs : Logs s.log.outstanding (min logSize (s.logsize - 1)) (s.log.sectors.toFinset ∪
      (Finset.range (sb.size / bpb + 1)).image fun c => bblock (c * bpb) sb.ninodes) s :=
    ⟨rfl, rfl, nodup_log s, fun x hx => Finset.mem_union_left _ (List.mem_toFinset.mpr hx)⟩
  have hbits : ∀ b < sb.size, bblock b sb.ninodes ∈ s.log.sectors.toFinset ∪
      (Finset.range (sb.size / bpb + 1)).image fun c => bblock (c * bpb) sb.ninodes := by
    refine fun b hb => Finset.mem_union_right _ (Finset.mem_image.mpr ⟨b / bpb, ?_, ?_⟩)
    · exact Finset.mem_range.mpr (Nat.lt_succ_of_le (Nat.div_le_div_right hb.le))
    · simp only [bblock_eq, bpb, bsize]
      omega
  by_cases hzero : v.own ip .indirect = 0
  · exact ⟨_, hlogs, hbits, fun hne => absurd hzero hne, by rw [if_pos hzero]; omega⟩
  · have hinsert := Finset.card_insert_le (v.own ip .indirect).toNat (s.log.sectors.toFinset ∪
      (Finset.range (sb.size / bpb + 1)).image fun c => bblock (c * bpb) sb.ninodes)
    exact ⟨_, hlogs.mono (Finset.subset_insert _ _), fun b hb => Finset.mem_insert_of_mem (hbits b hb),
      fun _ => Finset.mem_insert_self _ _, by rw [if_neg hzero]; omega⟩

/-- The log does not stop a write whose blocks fit in it. -/
theorem wp_writei_room (hs : Rep sb s v) (hown : Own sb v) (he : v.icache ip = some e) (hvalid : e.valid = true)
    (hdev : e.din.type ≠ tDev) (devsw : Devsw) (off n : UInt32) (src : Nat → UInt8) (hk : 0 < k)
    (h : Spare sb ip k cap (rangeCount off.toNat n.toNat) T s v) :
    wp (writei devsw ip src off n) (fun _ s' => ∃ T', Logs k cap T' s') NotLog s := by
  have hcache : s.icache ip = some e := by rw [← he, ← hs.view]; rfl
  simp only [writei, inode, wp_bind, wp_get, hcache, wp_pure, if_neg hdev, badRange_iff]
  split
  · exact ⟨T, h.1⟩
  split
  · exact ⟨T, h.1⟩
  rename_i hbad hmax
  have hadd := toNat_add_of_lt (by unfold BadRange at hbad; omega : off.toNat + n.toNat < 2 ^ 32)
  rw [wp_bind]
  refine wp_mono (wp_writeLoop_room hs hown he hvalid (le_refl _) (by omega) hk h) ?_ fun _ hE => hE
  rintro - s₁ ⟨T₁, hlogs, hcard⟩
  simp only [wp_bind, wp_get]
  cases hcache₁ : s₁.icache ip with
  | none => exact rfl
  | some e₁ =>
    simp only [wp_pure, setInode, iupdate, inode, bread, wp_ite, wp_bind, wp_modify, wp_get, wp_map]
    split
    · simp only [State.setInode, Function.update_self, wp_pure]
      have hset : Logs k cap T₁ (s₁.setInode ip (some { e₁ with din := { e₁.din with size := off + n } })) := hlogs.of_trace rfl rfl
      exact wp_logWrite_room hset hk hcard ⟨_, hset.write _ _⟩
    · exact ⟨T₁, hlogs⟩

/-! ### Reading -/

end Xv6.Fs
