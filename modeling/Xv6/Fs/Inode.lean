import Xv6.Fs.Own

/-!
# The inode cache and truncation

The functions of `fs.c` that move inodes between the disk and the cache, by what they do to the view.
`itrunc` gives back every block of an inode; each is still marked in use when its turn comes, because a
block has one position only.
-/

namespace Xv6.Fs

open Lib

variable {sb : Superblock} {v v' v₁ v₂ : View} {E : Panic → Prop} {ip : Nat}

theorem trace_snoc {b : Nat} (h : v₁.trace = v.trace ++ newEvents v v₁) (hno : ∀ b room, .balloc b room ∉ newEvents v v₁)
    (h' : v₂.trace = v₁.trace ++ [.logWrite b]) :
    v₂.trace = v.trace ++ newEvents v v₂ ∧ ∀ b room, .balloc b room ∉ newEvents v v₂ := by
  refine ⟨trace_trans h (trace_of_eq h'), fun c room => ?_⟩
  rw [newEvents_trans h (trace_of_eq h'), newEvents_of_eq h']
  simpa using hno c room

/-! ### Truncation -/

/-- The blocks of inode `ip` at the positions in `F` have been marked free. -/
structure Frees (ip : Nat) (F : Pos → Prop) (v v' : View) : Prop where
  bit : ∀ b, v'.bit b = true ↔ v.bit b = true ∧ ∀ p, F p → v.own ip p ≠ 0 → (v.own ip p).toNat ≠ b
  dinode : v'.dinode = v.dinode
  data : v'.data = v.data
  other : ∀ i, i ≠ ip → v'.icache i = v.icache i
  ncached : v'.ncached = v.ncached
  trace : v'.trace = v.trace ++ newEvents v v'
  noAlloc : ∀ b room, .balloc b room ∉ newEvents v v'

theorem Frees.refl (ip : Nat) (v : View) : Frees ip (fun _ => False) v v where
  bit b := by simp
  dinode := rfl
  data := rfl
  other _ _ := rfl
  ncached := rfl
  trace := trace_of_eq (List.append_nil _).symm
  noAlloc b room := by simp [newEvents]

variable {F G : Pos → Prop}

theorem Frees.congr (h : Frees ip F v v') (hFG : ∀ p, v.own ip p ≠ 0 → (F p ↔ G p)) : Frees ip G v v' :=
  { h with bit := fun b => by rw [h.bit]; grind }

theorem Frees.setInode (h : Frees ip F v v') (e : Inode) : Frees ip F v (v'.setInode ip e) :=
  { h with other := fun i hi => (setInode_other v' hi e).trans (h.other i hi) }

theorem Frees.free (h : Frees ip F v v') {p : Pos} (hp : v.own ip p ≠ 0) :
    Frees ip (fun q => F q ∨ q = p) v (v'.setBit sb (v.own ip p).toNat false) where
  bit b := by
    have hbit : (v'.setBit sb (v.own ip p).toNat false).bit b = true ↔ v'.bit b = true ∧ (v.own ip p).toNat ≠ b := by
      simp only [View.setBit, View.log, Function.update_apply]
      split <;> grind
    rw [hbit, h.bit]
    grind
  dinode := h.dinode
  data := h.data
  other := h.other
  ncached := h.ncached
  trace := (trace_snoc h.trace h.noAlloc rfl).1
  noAlloc := (trace_snoc h.trace h.noAlloc rfl).2

theorem vwp_bfree_own (h : Own sb v) (hf : Frees ip F v v') {p : Pos} (hp : v.own ip p ≠ 0) (hF : ¬F p) :
    vwp sb (bfree (v.own ip p)) (fun _ v'' => Frees ip (fun q => F q ∨ q = p) v v'' ∧ v''.icache = v'.icache) E v' := by
  obtain ⟨-, hlt, hbit⟩ := h.range ip p hp
  have hmark : v'.bit (v.own ip p).toNat = true := by
    refine (hf.bit _).mpr ⟨hbit, fun q hq hq' heq => hF ?_⟩
    obtain rfl := (h.unique ip q ip p hq' (UInt32.toNat_inj.mp heq)).2
    exact hq
  exact vwp_bfree hlt hmark ⟨hf.free hp, rfl⟩

/-- The in-memory inode after its first `i` addresses have been cleared. -/
def Inode.clear (e : Inode) (i : Nat) : Inode :=
  { e with din := { e.din with addrs := fun k => if k.val < i then 0 else e.din.addrs k } }

theorem Inode.clear_zero (e : Inode) : e.clear 0 = e := by
  simp [Inode.clear]

theorem Inode.clear_succ (e : Inode) {i : Nat} (hi : i < ndirect + 1) :
    (e.clear i).withAddr ⟨i, hi⟩ 0 = e.clear (i + 1) := by
  simp only [Inode.clear, Inode.withAddr, Inode.mk.injEq, Dinode.mk.injEq, true_and]
  funext k
  rw [Function.update_apply]
  grind

theorem Inode.clear_succ_of_zero (e : Inode) {i : Nat} (hi : i < ndirect + 1) (hzero : e.din.addrs ⟨i, hi⟩ = 0) :
    e.clear i = e.clear (i + 1) := by
  simp only [Inode.clear, Inode.mk.injEq, Dinode.mk.injEq, true_and]
  funext k
  grind

def SlotsTo (i : Nat) (p : Pos) : Prop := ∃ k, p = .slot k ∧ k.val < i

theorem slotsTo_succ {i : Nat} (hi : i < ndirect + 1) (p : Pos) : SlotsTo i p ∨ p = .slot ⟨i, hi⟩ ↔ SlotsTo (i + 1) p := by
  constructor
  · rintro (⟨k, rfl, hk⟩ | rfl)
    · exact ⟨k, rfl, by omega⟩
    · exact ⟨_, rfl, by simp⟩
  · rintro ⟨k, rfl, hk⟩
    by_cases hki : k.val = i
    · exact .inr (congrArg Pos.slot (Fin.ext hki))
    · exact .inl ⟨k, rfl, by omega⟩

theorem vwp_freeDirect (h : Own sb v) {e : Inode} (he : v.icache ip = some e) (hvalid : e.valid = true) {i : Nat}
    (hi : i < ndirect) (hf : Frees ip (SlotsTo i) v v')
    (he' : v'.icache ip = some (e.clear i)) :
    vwp sb (freeDirect ip i) (fun _ v'' => Frees ip (SlotsTo (i + 1)) v v'' ∧
      v''.icache ip = some (e.clear (i + 1))) E v' := by
  have hi' : i < ndirect + 1 := by omega
  have hslot : v.own ip (.slot ⟨i, hi'⟩) = e.din.addrs ⟨i, hi'⟩ := by rw [own_slot, cur_of_valid he hvalid]
  have haddr : (e.clear i).din.addrs ⟨i, hi'⟩ = v.own ip (.slot ⟨i, hi'⟩) := by simp [Inode.clear, hslot]
  refine vwp_bind (vwp_inode he' ?_)
  rw [dif_pos hi', haddr]
  by_cases hp : v.own ip (.slot ⟨i, hi'⟩) ≠ 0
  · rw [if_pos hp]
    refine vwp_seq (vwp_bfree_own h hf hp (by rintro ⟨k, hk, hlt⟩; cases hk; simp at hlt)) ?_
    rintro - v'' ⟨hf'', hcache⟩
    refine vwp_setAddr (hcache ▸ he') ⟨?_, ?_⟩
    · exact (hf''.congr fun p _ => slotsTo_succ hi' p).setInode _
    · rw [setInode_same, e.clear_succ hi']
  · rw [if_neg hp]
    rw [not_not] at hp
    refine vwp_pure ⟨hf.congr fun p hne => ?_, ?_⟩
    · rw [← slotsTo_succ hi' p]
      refine (or_iff_left ?_).symm
      rintro rfl
      exact hne hp
    · rw [he', e.clear_succ_of_zero hi' (hslot ▸ hp)]

/-- All positions but the indirect block and its entries from `j` on. -/
def EntriesTo (j : Nat) (p : Pos) : Prop := SlotsTo ndirect p ∨ ∃ k, p = .entry k ∧ k.val < j

theorem entriesTo_succ {j : Nat} (hj : j < nindirect) (p : Pos) :
    EntriesTo j p ∨ p = .entry ⟨j, hj⟩ ↔ EntriesTo (j + 1) p := by
  unfold EntriesTo
  constructor
  · rintro ((hp | ⟨k, rfl, hk⟩) | rfl)
    · exact .inl hp
    · exact .inr ⟨k, rfl, by omega⟩
    · exact .inr ⟨_, rfl, by simp⟩
  · rintro (hp | ⟨k, rfl, hk⟩)
    · exact .inl (.inl hp)
    · by_cases hkj : k.val = j
      · exact .inr (congrArg Pos.entry (Fin.ext hkj))
      · exact .inl (.inr ⟨k, rfl, by omega⟩)

theorem entriesTo_indirect (p : Pos) : EntriesTo nindirect p ∨ p = .indirect := by
  cases p with
  | slot k =>
    by_cases hk : k.val < ndirect
    · exact .inl (.inl ⟨k, rfl, hk⟩)
    · exact .inr (congrArg Pos.slot (Fin.ext (by simp only [Fin.val_last]; omega)))
  | entry j => exact .inl (.inr ⟨j, rfl, j.isLt⟩)

theorem vwp_freeEntries (h : Own sb v) (hind : v.own ip .indirect ≠ 0) (hf : Frees ip (SlotsTo ndirect) v v') :
    vwp sb (freeEntries (v.data (v.own ip .indirect).toNat))
      (fun _ v'' => Frees ip (EntriesTo nindirect) v v'' ∧ v''.icache = v'.icache) E v' := by
  have h₀ : Frees ip (EntriesTo 0) v v' := hf.congr fun p _ => by simp [EntriesTo]
  unfold freeEntries
  refine vwp_forTo (I := fun j v'' => Frees ip (EntriesTo j) v v'' ∧ v''.icache = v'.icache) ⟨h₀, rfl⟩ ?_
  rintro j v₁ hj ⟨hf₁, hcache⟩
  have hentry : get32 (v.data (v.own ip .indirect).toNat) (4 * j) = v.own ip (.entry ⟨j, hj⟩) := by
    rw [own_entry, if_neg hind]
  rw [hentry]
  by_cases hp : v.own ip (.entry ⟨j, hj⟩) ≠ 0
  · rw [if_pos hp]
    have hnot : ¬EntriesTo j (.entry ⟨j, hj⟩) := by
      rintro (⟨k, hk, -⟩ | ⟨k, hk, hlt⟩)
      · cases hk
      · cases hk
        simp at hlt
    refine vwp_mono (vwp_bfree_own h hf₁ hp hnot) ?_ fun _ hE => hE
    rintro - v₂ ⟨hf₂, hcache₂⟩
    exact ⟨hf₂.congr fun p _ => entriesTo_succ hj p, hcache₂.trans hcache⟩
  · rw [if_neg hp]
    rw [not_not] at hp
    refine vwp_pure ⟨hf₁.congr fun p hne => ?_, hcache⟩
    rw [← entriesTo_succ hj p]
    refine (or_iff_left ?_).symm
    rintro rfl
    exact hne hp

def Dinode.empty (d : Dinode) : Dinode := { d with size := 0, addrs := fun _ => 0 }

/-- The blocks of inode `ip` have been freed, and it has been emptied in memory and on disk. -/
structure Truncated (ip : Nat) (e : Inode) (v v' : View) : Prop where
  bit : ∀ b, v'.bit b = true ↔ v.bit b = true ∧ ∀ p, v.own ip p ≠ 0 → (v.own ip p).toNat ≠ b
  dinode : v'.dinode = Function.update v.dinode ip e.din.empty
  data : v'.data = v.data
  other : ∀ i, i ≠ ip → v'.icache i = v.icache i
  self : v'.icache ip = some { e with din := e.din.empty }
  ncached : v'.ncached = v.ncached
  trace : v'.trace = v.trace ++ newEvents v v'
  noAlloc : ∀ b room, .balloc b room ∉ newEvents v v'

theorem vwp_truncEnd (hf : Frees ip F v v') (hF : ∀ p, v.own ip p ≠ 0 → F p) {e : Inode} (hip : ip < sb.ninodes)
    (he : v'.icache ip = some (e.clear (ndirect + 1))) :
    vwp sb (do let e ← inode ip; setInode ip { e with din := { e.din with size := 0 } }; iupdate ip)
      (fun _ v'' => Truncated ip e v v'') E v' := by
  have hempty : (e.clear (ndirect + 1)).din.addrs = fun _ => 0 := by
    funext k
    simp only [Inode.clear, if_pos k.isLt]
  refine vwp_bind (vwp_inode he (vwp_bind (vwp_setInode (vwp_iupdate (setInode_same _ _ _) hip ?_))))
  simp only [hempty]
  exact {
    bit := fun b => by
      have := hf.bit b
      simp only [View.setDinode, View.log, View.setInode]
      grind
    dinode := by
      simp only [View.setDinode, View.log, View.setInode, hf.dinode]
      rfl
    data := hf.data
    other := fun i hi => (setInode_other v' hi _).trans (hf.other i hi)
    self := setInode_same _ _ _
    ncached := hf.ncached
    trace := (trace_snoc hf.trace hf.noAlloc rfl).1
    noAlloc := (trace_snoc hf.trace hf.noAlloc rfl).2 }

theorem vwp_itrunc (h : Own sb v) {e : Inode} (he : v.icache ip = some e) (hvalid : e.valid = true) :
    vwp sb (itrunc ip) (fun _ v' => Truncated ip e v v') E v := by
  have hip := h.handle ip e he
  have h₀ : Frees ip (SlotsTo 0) v v := (Frees.refl ip v).congr fun p _ => by simp [SlotsTo]
  refine vwp_seq (vwp_forTo (I := fun i v' => Frees ip (SlotsTo i) v v' ∧ v'.icache ip = some (e.clear i))
    ⟨h₀, by rw [he, e.clear_zero]⟩ fun i v' hi hI => vwp_freeDirect h he hvalid hi hI.1 hI.2) ?_
  rintro - v₁ ⟨hf₁, he₁⟩
  refine vwp_bind (vwp_inode he₁ ?_)
  have hind : (e.clear ndirect).din.addrs (Fin.last ndirect) = v.own ip .indirect := by
    simp [Inode.clear, own_slot, cur_of_valid he hvalid]
  simp only [hind]
  by_cases hne : v.own ip .indirect ≠ 0
  · rw [if_pos hne]
    refine vwp_bind (vwp_breadData (h.range ip _ hne).1 ?_)
    rw [hf₁.data]
    refine vwp_seq (vwp_freeEntries h hne hf₁) ?_
    rintro - v₂ ⟨hf₂, hcache₂⟩
    refine vwp_seq (vwp_bfree_own h hf₂ hne ?_) ?_
    · rintro (⟨k, hk, hlt⟩ | ⟨k, hk, -⟩)
      · cases hk
        simp at hlt
      · cases hk
    rintro - v₃ ⟨hf₃, hcache₃⟩
    have he₃ : v₃.icache ip = some (e.clear ndirect) := by rw [hcache₃, hcache₂, he₁]
    refine vwp_bind (vwp_setAddr he₃ ?_)
    refine vwp_truncEnd (hf₃.setInode _) (fun p _ => entriesTo_indirect p) hip ?_
    rw [setInode_same]
    exact congrArg some (e.clear_succ (Nat.lt_succ_self ndirect))
  · rw [if_neg hne]
    rw [not_not] at hne
    -- without an indirect block the inode has direct blocks only
    refine vwp_truncEnd hf₁ (fun p hp => ?_) hip ?_
    · cases p with
      | slot k =>
        refine ⟨k, rfl, ?_⟩
        by_contra hk
        exact hp (by rwa [show k = Fin.last ndirect from Fin.ext (by simp only [Fin.val_last]; omega)])
      | entry j => exact absurd (by rw [own_entry, if_pos hne]) hp
    · have hzero : e.din.addrs ⟨ndirect, Nat.lt_succ_self ndirect⟩ = 0 := by rwa [own_slot, cur_of_valid he hvalid] at hne
      rw [he₁, e.clear_succ_of_zero (Nat.lt_succ_self ndirect) hzero]

/-! ### The inode cache -/

section Cache

variable {Q : PUnit → View → Prop} {e : Inode}

/-- The view after a reference to `ip` has been dropped. -/
def View.drop (v : View) (ip : Nat) (e : Inode) : View :=
  if e.ref ≤ 1 then { v with icache := Function.update v.icache ip none, ncached := v.ncached - 1 }
  else v.setInode ip { e with ref := e.ref - 1 }

theorem vwp_dropRef (he : v.icache ip = some e) (h : Q ⟨⟩ (v.drop ip e)) : vwp sb (dropRef ip) Q E v := by
  refine vwp_bind (vwp_inode he ?_)
  unfold View.drop at h
  by_cases hlast : e.ref ≤ 1
  · rw [if_pos hlast] at h ⊢
    intro s hs
    refine ⟨_, ⟨hs.super, ?_⟩, h⟩
    rw [← hs.view]
    rfl
  · rw [if_neg hlast] at h ⊢
    exact vwp_setInode h

/-- The view after a reference to `i` has been taken. -/
def View.take (v : View) (i : Nat) : View :=
  match v.icache i with
  | some e => v.setInode i { e with ref := e.ref + 1 }
  | none => { v.setInode i ⟨1, false, false, Dinode.zero⟩ with ncached := v.ncached + 1 }

theorem vwp_iget {i : Nat} (hfull : v.icache i = none → ninode ≤ v.ncached → E .cacheFull)
    (h : (v.icache i = none → v.ncached < ninode) → Q ⟨⟩ (v.take i)) : vwp sb (iget i) Q E v := by
  intro s hs
  have hcache : s.icache i = v.icache i := by rw [← hs.view]; rfl
  have hncached : s.ncached = v.ncached := by rw [← hs.view]; rfl
  simp only [iget, wp_bind, wp_get, hcache, hncached]
  unfold View.take at h
  cases hi : v.icache i with
  | some e =>
    simp only [hi, reduceCtorEq, false_imp_iff, true_imp_iff] at h
    exact ⟨_, hs.setInode i _, h⟩
  | none =>
    simp only [hi, true_imp_iff] at h hfull
    by_cases hroom : ninode ≤ v.ncached
    · rw [if_pos hroom]
      exact .inr (hfull hroom)
    · rw [if_neg hroom]
      refine ⟨_, ⟨hs.super, ?_⟩, h (by omega)⟩
      rw [← hs.view]
      rfl

theorem vwp_idup (he : v.icache ip = some e) (h : Q ⟨⟩ (v.setInode ip { e with ref := e.ref + 1 })) :
    vwp sb (idup ip) Q E v :=
  vwp_bind (vwp_inode he (vwp_setInode h))

theorem Rep.dinode {s : State} (hs : Rep sb s v) {i : Nat} (hi : i < sb.ninodes) :
    getDinode (s.blocks (iblock i)) (ioffset i) = v.dinode i := by
  rw [← hs.view]
  simp only [State.view, if_pos hi]

/-- The view after the lock of `ip` has been taken. -/
def View.locked (v : View) (ip : Nat) (e : Inode) : View :=
  v.setInode ip { e with busy := true, valid := true, din := v.cur ip }

theorem vwp_ilock (he : v.icache ip = some e) (hip : ip < sb.ninodes) (hbusy : e.busy = true → E .asleep)
    (htype : e.valid = false → (v.dinode ip).type = 0 → E .noType)
    (h : e.busy = false → (e.valid = false → (v.dinode ip).type ≠ 0) → Q ⟨⟩ (v.locked ip e)) :
    vwp sb (ilock ip) Q E v := by
  refine vwp_bind (vwp_inode he ?_)
  cases hb : e.busy with
  | true =>
    rw [if_pos rfl]
    exact vwp_throw (hbusy hb)
  | false =>
    rw [if_neg (by simp)]
    cases hv : e.valid with
    | true =>
      have hQ := h hb (by simp [hv])
      rw [View.locked, cur_of_valid he hv] at hQ
      rw [if_pos rfl]
      exact vwp_setInode hQ
    | false =>
      have hcur : v.cur ip = v.dinode ip := by simp [View.cur, he, hv]
      rw [if_neg (by simp)]
      intro s hs
      simp only [bread, setInode, wp_bind, wp_map, wp_get, wp_modify, hs.dinode hip]
      by_cases hzero : (v.dinode ip).type = 0
      · rw [if_pos hzero]
        exact .inr (htype hv hzero)
      · rw [if_neg hzero]
        refine ⟨_, hs.setInode ip _, ?_⟩
        have := h hb fun _ => hzero
        rwa [View.locked, hcur] at this

theorem vwp_iunlock (he : v.icache ip = some e) (hbusy : e.busy = false → E .iunlock)
    (h : e.busy = true → Q ⟨⟩ (v.setInode ip { e with busy := false })) : vwp sb (iunlock ip) Q E v := by
  refine vwp_bind (vwp_inode he ?_)
  cases hb : e.busy with
  | true =>
    rw [if_pos rfl]
    exact vwp_setInode (h hb)
  | false =>
    rw [if_neg (by simp)]
    exact vwp_throw (hbusy hb)

theorem vwp_ialloc {Q : Nat → View → Prop} {type : Int16} (hnone : E .noInodes)
    (hfull : ∀ i, v.icache i = none → ninode ≤ v.ncached → E .cacheFull)
    (h : ∀ i, 1 ≤ i → i < sb.ninodes → (v.dinode i).type = 0 → (∀ j < i, 1 ≤ j → (v.dinode j).type ≠ 0) →
      (v.icache i = none → v.ncached < ninode) → Q i ((v.setDinode i (Dinode.ofType type)).take i)) :
    vwp sb (ialloc type) Q E v := by
  intro s hs
  have hsb : Superblock.ofBlock (s.blocks 1) = sb := hs.super
  simp only [ialloc, readsb, bread, wp_bind, wp_map, wp_get, hsb]
  cases hfind : (List.range sb.ninodes).find? fun i =>
      1 ≤ i ∧ (getDinode (s.blocks (iblock i)) (ioffset i)).type = 0 with
  | none => exact .inr hnone
  | some i =>
    obtain ⟨hfree, hmem, hfirst⟩ := List.find?_range_eq_some.mp hfind
    have hi : i < sb.ninodes := List.mem_range.mp hmem
    simp only [hs.dinode hi, decide_eq_true_eq] at hfree
    simp only [wp_bind, wp_map, wp_get]
    refine wp_logWrite (vwp_iget (Q := fun _ v' => Q i v') (v := v.setDinode i _) (hfull i) (fun hroom => ?_) _ (hs.writeDinode hi _))
    refine h i hfree.1 hi hfree.2 (fun j hj hpos => ?_) hroom
    have := hfirst j hj
    simp only [hs.dinode (hj.trans hi), Bool.not_eq_true', decide_eq_false_iff_not] at this
    tauto

/-- Inode `ip` has been freed: its last reference is gone, and so are its blocks. -/
structure Freed (ip : Nat) (e : Inode) (v v' : View) : Prop where
  bit : ∀ b, v'.bit b = true ↔ v.bit b = true ∧ ∀ p, v.own ip p ≠ 0 → (v.own ip p).toNat ≠ b
  dinode : v'.dinode = Function.update v.dinode ip { e.din.empty with type := 0 }
  data : v'.data = v.data
  other : ∀ i, i ≠ ip → v'.icache i = v.icache i
  self : v'.icache ip = none
  ncached : v'.ncached = v.ncached - 1
  trace : v'.trace = v.trace ++ newEvents v v'
  noAlloc : ∀ b room, .balloc b room ∉ newEvents v v'

theorem vwp_iput (h : Own sb v) (he : v.icache ip = some e)
    (hbusy : e.ref = 1 → e.valid = true → e.din.nlink = 0 → e.busy = true → E .iputBusy)
    (hfree : e.ref = 1 → e.valid = true → e.din.nlink = 0 → e.busy = false → ∀ v', Freed ip e v v' → Q ⟨⟩ v')
    (hdrop : ¬(e.ref = 1 ∧ e.valid = true ∧ e.din.nlink = 0) → Q ⟨⟩ (v.drop ip e)) : vwp sb (iput ip) Q E v := by
  have hip := h.handle ip e he
  refine vwp_bind (vwp_inode he ?_)
  by_cases hlast : e.ref = 1 ∧ e.valid = true ∧ e.din.nlink = 0
  · rw [if_pos hlast]
    obtain ⟨href, hvalid, hnlink⟩ := hlast
    cases hb : e.busy with
    | true =>
      rw [if_pos rfl]
      exact vwp_throw (hbusy href hvalid hnlink hb)
    | false =>
      rw [if_neg (by simp)]
      have hcur : (if e.valid then e.din else v.dinode ip) = v.cur ip := by rw [cur_of_valid he hvalid, if_pos hvalid]
      have hlock : Own sb (v.setInode ip { e with busy := true }) := h.setInode hip hcur
      have hown : ∀ p, (v.setInode ip { e with busy := true }).own ip p = v.own ip p :=
        own_of_cur (congrArg Dinode.addrs (cur_setInode (e := { e with busy := true }) hcur ip)) rfl
      refine vwp_bind (vwp_setInode (vwp_seq (vwp_itrunc hlock (setInode_same _ _ _) hvalid) ?_))
      rintro - v₁ ht
      refine vwp_bind (vwp_inode ht.self (vwp_bind (vwp_setInode (vwp_bind (vwp_iupdate (setInode_same _ _ _) hip
        (vwp_bind (vwp_inode (setInode_same _ _ _) (vwp_bind (vwp_setInode (vwp_dropRef (setInode_same _ _ _) ?_))))))))))
      refine hfree href hvalid hnlink hb _ ?_
      rw [View.drop, if_pos (by simp [href])]
      exact {
        bit := fun b => by
          have := ht.bit b
          simp only [hown] at this
          exact this
        dinode := by
          simp only [View.setInode, View.setDinode, View.log, ht.dinode, Function.update_idem]
        data := ht.data
        other := fun i hi => by
          simp only [View.setInode, View.setDinode, View.log, Function.update_of_ne hi]
          exact (ht.other i hi).trans (setInode_other v hi _)
        self := by simp
        ncached := by
          simp only [View.setInode, View.setDinode, View.log, ht.ncached]
        trace := (trace_snoc (v := v) ht.trace ht.noAlloc rfl).1
        noAlloc := (trace_snoc (v := v) ht.trace ht.noAlloc rfl).2 }
  · rw [if_neg hlast]
    exact vwp_dropRef he (hdrop hlast)

theorem Freed.cur_self (hf : Freed ip e v v') : v'.cur ip = { e.din.empty with type := 0 } := by
  simp [View.cur, hf.self, hf.dinode]

theorem Freed.cur_other (hf : Freed ip e v v') {i : Nat} (hi : i ≠ ip) : v'.cur i = v.cur i := by
  simp only [View.cur, hf.other i hi, hf.dinode, Function.update_of_ne hi]

theorem Freed.owns (hf : Freed ip e v v') (i : Nat) (p : Pos) : v'.own i p = if i = ip then 0 else v.own i p := by
  by_cases hi : i = ip
  · subst hi
    rw [if_pos rfl]
    exact own_eq_zero (fun k => by rw [hf.cur_self]; rfl) p
  · rw [if_neg hi]
    exact own_of_cur (congrArg Dinode.addrs (hf.cur_other hi)) hf.data p

theorem Freed.own (hf : Freed ip e v v') (h : Own sb v) : Own sb v' := by
  refine h.of_sub (fun i p hp => ?_) (fun b hb => ?_) (fun i p hp => ?_) fun i e' hi => ?_
  · rw [hf.owns] at hp ⊢
    grind
  · -- the blocks given up are data blocks
    refine (hf.bit b).mpr ⟨h.metadata b hb, fun p hp heq => ?_⟩
    have := (h.range ip p hp).1
    omega
  · rw [hf.owns] at hp ⊢
    have hi : i ≠ ip := by grind
    rw [if_neg hi] at hp ⊢
    refine (hf.bit _).mpr ⟨(h.range i p hp).2.2, fun q hq heq => hi ?_⟩
    exact (h.unique ip q i p hq (UInt32.toNat_inj.mp heq)).1.symm
  · by_cases hne : i = ip
    · rw [hne, hf.self] at hi
      cases hi
    · exact h.handle i e' (hf.other i hne ▸ hi)

end Cache

end Xv6.Fs
