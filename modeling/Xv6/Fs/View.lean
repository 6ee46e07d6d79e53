import Xv6.Fs.Code

/-!
# The file system without its encoding

On disk the superblock, the inodes, the bitmap and the data are ranges of one array of blocks. A `View`
holds them apart: bits, inodes and data blocks by their numbers, next to the inode cache. Each write of the
code changes one part of the view, because the ranges do not overlap, and from here on the functions of
`fs.c` are specified by what they do to the view.
-/

namespace Xv6.Fs

open Lib

/-! ### Inodes in a block -/

variable {n o o' : Nat}

theorem getLE_putAddrs {b : Block} {addrs : Fin (ndirect + 1) → UInt32} {w : Nat}
    (hout : o' + w ≤ bsize) (hdisj : o' + w ≤ o ∨ o + 4 * n ≤ o') :
    (putAddrs b o addrs n).getLE o' w = b.getLE o' w := by
  induction n with
  | zero => rfl
  | succ n ih =>
    simp only [putAddrs]
    split
    · rw [put32, Bytes.getLE_putLE_disjoint hout (by omega), ih (by omega)]
    · exact ih (by omega)

theorem get32_putAddrs {b : Block} {addrs : Fin (ndirect + 1) → UInt32}
    (ho : o + 4 * n ≤ bsize) {i : Fin (ndirect + 1)} (hi : i.val < n) :
    get32 (putAddrs b o addrs n) (o + 4 * i) = addrs i := by
  induction n with
  | zero => omega
  | succ n ih =>
    simp only [putAddrs]
    by_cases hlast : i.val = n
    · rw [dif_pos (by omega), show (⟨n, _⟩ : Fin (ndirect + 1)) = i from Fin.ext hlast.symm, hlast]
      exact get32_put32_same (by omega)
    · split
      · rw [get32_put32_disjoint (by omega) (by omega), ih (by omega) (by omega)]
      · exact ih (by omega) (by omega)

variable {d : Dinode}

theorem getLE_putDinode {b : Block} {w : Nat} (hout : o' + w ≤ bsize)
    (hdisj : o' + w ≤ o ∨ o + 64 ≤ o') : (putDinode b o d).getLE o' w = b.getLE o' w := by
  simp only [putDinode, put16, put32]
  rw [getLE_putAddrs hout (by simp only [ndirect]; omega), Bytes.getLE_putLE_disjoint hout (by omega),
    Bytes.getLE_putLE_disjoint hout (by omega), Bytes.getLE_putLE_disjoint hout (by omega),
    Bytes.getLE_putLE_disjoint hout (by omega), Bytes.getLE_putLE_disjoint hout (by omega)]

theorem getDinode_putDinode_ne {b : Block} (ho : o' + 64 ≤ bsize)
    (hdisj : o' + 64 ≤ o ∨ o + 64 ≤ o') : getDinode (putDinode b o d) o' = getDinode b o' := by
  -- every field of the inode at `o'` lies in 64 bytes that the store does not touch
  have hfield : ∀ i w, i + w ≤ 64 → (putDinode b o d).getLE (o' + i) w = b.getLE (o' + i) w := by
    intro i w hi
    apply getLE_putDinode <;> omega
  have h16 : ∀ i, i + 2 ≤ 64 → get16 (putDinode b o d) (o' + i) = get16 b (o' + i) := fun i hi => by
    rw [get16, get16, hfield i 2 hi]
  have h32 : ∀ i, i + 4 ≤ 64 → get32 (putDinode b o d) (o' + i) = get32 b (o' + i) := fun i hi => by
    rw [get32, get32, hfield i 4 hi]
  simp only [getDinode, Dinode.mk.injEq, Nat.add_assoc]
  refine ⟨h16 0 (by omega), h16 2 (by omega), h16 4 (by omega), h16 6 (by omega), h32 8 (by omega), funext fun i => ?_⟩
  have hi := i.isLt
  exact h32 _ (by simp only [ndirect] at hi; omega)

theorem get16_of_getLE {b : Block} {v : Int16} (h : b.getLE o 2 = v.toUInt16.toNat % 256 ^ 2) :
    get16 b o = v := by
  have hlt := v.toUInt16.toNat_lt
  rw [get16, h, Nat.mod_eq_of_lt (by simpa using hlt), UInt16.ofNat_toNat]

theorem get32_of_getLE {b : Block} {v : UInt32} (h : b.getLE o 4 = v.toNat % 256 ^ 4) : get32 b o = v := by
  rw [get32, h, Nat.mod_eq_of_lt (by simpa using v.toNat_lt), UInt32.ofNat_toNat]

theorem getDinode_putDinode_same {b : Block} (ho : o + 64 ≤ bsize) :
    getDinode (putDinode b o d) o = d := by
  -- a field of the header is read back past the stores that follow it
  have hskip : ∀ {c : Block} {i v o' w}, o' + w ≤ bsize → o' + w ≤ o + i ∨ o + i + v ≤ o' → ∀ x,
      (c.putLE (o + i) v x).getLE o' w = c.getLE o' w := fun hout hdisj x => Bytes.getLE_putLE_disjoint hout hdisj
  have haddrs : ∀ {c : Block} {o' w}, o' + w ≤ o + 12 →
      (putAddrs c (o + 12) d.addrs (ndirect + 1)).getLE o' w = c.getLE o' w := fun hout =>
    getLE_putAddrs (by omega) (by omega)
  refine Dinode.ext ?_ ?_ ?_ ?_ ?_ (funext fun i => ?_)
  · refine get16_of_getLE ?_
    simp only [putDinode, put16, put32]
    rw [haddrs (by omega), hskip (by omega) (by omega), hskip (by omega) (by omega), hskip (by omega) (by omega),
      hskip (by omega) (by omega), Bytes.getLE_putLE_same (by omega)]
  · refine get16_of_getLE ?_
    simp only [putDinode, put16, put32]
    rw [haddrs (by omega), hskip (by omega) (by omega), hskip (by omega) (by omega), hskip (by omega) (by omega),
      Bytes.getLE_putLE_same (by omega)]
  · refine get16_of_getLE ?_
    simp only [putDinode, put16, put32]
    rw [haddrs (by omega), hskip (by omega) (by omega), hskip (by omega) (by omega), Bytes.getLE_putLE_same (by omega)]
  · refine get16_of_getLE ?_
    simp only [putDinode, put16, put32]
    rw [haddrs (by omega), hskip (by omega) (by omega), Bytes.getLE_putLE_same (by omega)]
  · refine get32_of_getLE ?_
    simp only [putDinode, put16, put32]
    rw [haddrs (by omega), Bytes.getLE_putLE_same (by omega)]
  · exact get32_putAddrs (by simp only [ndirect]; omega) i.isLt

@[simp] theorem getDinode_zero (o : Nat) : getDinode Bytes.zero o = Dinode.zero := by
  simp [getDinode, Dinode.zero]

/-! ### The layout of a disk -/

def dataStart (sb : Superblock) : Nat := sb.ninodes / ipb + 3 + (sb.size / bpb + 1)

theorem dataStart_eq (sb : Superblock) : dataStart sb = sb.ninodes / 8 + 3 + (sb.size / 4096 + 1) := rfl

theorem iblock_eq (i : Nat) : iblock i = i / 8 + 2 := rfl

theorem bblock_eq (b ninodes : Nat) : bblock b ninodes = b / 4096 + ninodes / 8 + 3 := rfl

variable {b : Nat}

theorem bblock_lt {sb : Superblock} (hb : b < sb.size) : bblock b sb.ninodes < dataStart sb := by
  rw [bblock_eq, dataStart_eq]
  omega

variable {i : Nat}

theorem iblock_lt_dataStart {sb : Superblock} (hi : i < sb.ninodes) : iblock i < dataStart sb := by
  rw [iblock_eq, dataStart_eq]
  omega

theorem iblock_lt_bblock {sb : Superblock} (hi : i < sb.ninodes) (b : Nat) :
    iblock i < bblock b sb.ninodes := by
  rw [iblock_eq, bblock_eq]
  omega

theorem ioffset_le (i : Nat) : ioffset i + 64 ≤ bsize := by
  simp only [ioffset, ipb, bsize, dinodeSize]
  omega

theorem ioffset_disjoint {j : Nat} (hblock : iblock i = iblock j) (hij : i ≠ j) :
    ioffset i + 64 ≤ ioffset j ∨ ioffset j + 64 ≤ ioffset i := by
  simp only [ioffset, iblock, ipb, bsize, dinodeSize] at *
  omega

/-! ### Views -/

structure View where
  bit : Nat → Bool
  dinode : Nat → Dinode
  data : Nat → Block
  icache : Nat → Option Inode
  ncached : Nat
  trace : List Event

/-- The parts of a disk with super block `sb`. A number outside the disk counts as a block in use. -/
def State.view (sb : Superblock) (s : State) : View where
  bit b := if b < sb.size then s.marked sb.ninodes b else true
  dinode i := if i < sb.ninodes then getDinode (s.blocks (iblock i)) (ioffset i) else Dinode.zero
  data b := if dataStart sb ≤ b then s.blocks b else Bytes.zero
  icache := s.icache
  ncached := s.ncached
  trace := s.trace

structure Rep (sb : Superblock) (s : State) (v : View) : Prop where
  super : Superblock.ofBlock (s.blocks 1) = sb
  view : s.view sb = v

variable {sb : Superblock} {s : State} {v : View}

def View.log (v : View) (b : Nat) : View := { v with trace := v.trace ++ [.logWrite b] }

def newEvents (v v' : View) : List Event := v'.trace.drop v.trace.length

theorem newEvents_of_eq {v v' : View} {es : List Event} (h : v'.trace = v.trace ++ es) : newEvents v v' = es := by
  simp [newEvents, h]

theorem trace_of_eq {v v' : View} {es : List Event} (h : v'.trace = v.trace ++ es) :
    v'.trace = v.trace ++ newEvents v v' := by
  rw [newEvents_of_eq h, h]

theorem newEvents_trans {v v₁ v₂ : View} (h : v₁.trace = v.trace ++ newEvents v v₁)
    (h' : v₂.trace = v₁.trace ++ newEvents v₁ v₂) : newEvents v v₂ = newEvents v v₁ ++ newEvents v₁ v₂ := by
  refine newEvents_of_eq ?_
  rw [h', h, List.append_assoc]

theorem trace_trans {v v₁ v₂ : View} (h : v₁.trace = v.trace ++ newEvents v v₁)
    (h' : v₂.trace = v₁.trace ++ newEvents v₁ v₂) : v₂.trace = v.trace ++ newEvents v v₂ := by
  rw [newEvents_trans h h', ← List.append_assoc, ← h, ← h']

/-- The view after data block `b` has been written. -/
def View.setData (v : View) (b : Nat) (x : Block) : View := { v with data := Function.update v.data b x }.log b

/-- The view after bit `b` of the bitmap has been written. -/
def View.setBit (sb : Superblock) (v : View) (b : Nat) (x : Bool) : View :=
  { v with bit := Function.update v.bit b x }.log (bblock b sb.ninodes)

def View.setDinode (v : View) (i : Nat) (d : Dinode) : View :=
  { v with dinode := Function.update v.dinode i d }.log (iblock i)

def View.setInode (v : View) (ip : Nat) (e : Inode) : View := { v with icache := Function.update v.icache ip (some e) }

@[simp] theorem setInode_same (v : View) (ip : Nat) (e : Inode) : (v.setInode ip e).icache ip = some e := by
  simp [View.setInode]

variable {ip : Nat}

theorem setInode_other (v : View) (hi : i ≠ ip) (e : Inode) : (v.setInode ip e).icache i = v.icache i := by
  simp [View.setInode, hi]

theorem Rep.size_lt (h : Rep sb s v) : sb.size < 2 ^ 32 := by
  rw [← h.super]
  exact UInt32.toNat_lt _

theorem Rep.marked (h : Rep sb s v) (hb : b < sb.size) : s.marked sb.ninodes b = v.bit b := by
  rw [← h.view]
  simp only [State.view, if_pos hb]

theorem marked_setBit {b' : Nat} {x : Bool} (s : State) (ninodes : Nat) :
    (s.write (bblock b ninodes) ((s.blocks (bblock b ninodes)).setBit (b % bpb) x)).marked ninodes b' =
      if b' = b then x else s.marked ninodes b' := by
  have hbit : b % bpb < 8 * bsize := by
    simp only [bpb, bsize]
    omega
  simp only [State.marked, State.write]
  by_cases hblock : bblock b' ninodes = bblock b ninodes
  · rw [hblock, Function.update_self, Bytes.getBit_setBit hbit]
    have hiff : b' % bpb = b % bpb ↔ b' = b := by
      simp only [bblock_eq, bpb, bsize] at *
      omega
    simp only [hiff]
  · rw [Function.update_of_ne hblock, if_neg]
    rintro rfl
    exact hblock rfl

theorem Rep.writeBit (h : Rep sb s v) (hb : b < sb.size) (x : Bool) :
    Rep sb (s.write (bblock b sb.ninodes) ((s.blocks (bblock b sb.ninodes)).setBit (b % bpb) x))
      (v.setBit sb b x) := by
  have hlo : 1 < bblock b sb.ninodes := by
    rw [bblock_eq]
    omega
  have hhi := bblock_lt hb
  refine ⟨?_, ?_⟩
  · simp only [State.write]
    rw [Function.update_of_ne hlo.ne, h.super]
  · rw [← h.view]
    simp only [State.view, marked_setBit]
    simp only [State.write, View.setBit, View.log, View.mk.injEq, and_true]
    refine ⟨funext fun b' => ?_, funext fun i => ?_, funext fun b' => ?_⟩
    · rw [Function.update_apply]
      by_cases hb' : b' = b
      · simp [hb', hb]
      · simp [hb']
    · by_cases hi : i < sb.ninodes
      · rw [Function.update_of_ne (iblock_lt_bblock hi b).ne]
      · rw [if_neg hi, if_neg hi]
    · by_cases hb' : dataStart sb ≤ b'
      · rw [Function.update_of_ne (hhi.trans_le hb').ne']
      · rw [if_neg hb', if_neg hb']

theorem Rep.writeDinode (h : Rep sb s v) (hi : i < sb.ninodes) (d : Dinode) :
    Rep sb (s.write (iblock i) (putDinode (s.blocks (iblock i)) (ioffset i) d))
      (v.setDinode i d) := by
  have hlo : 1 < iblock i := by
    rw [iblock_eq]
    omega
  have hhi := iblock_lt_dataStart hi
  refine ⟨?_, ?_⟩
  · simp only [State.write]
    rw [Function.update_of_ne hlo.ne, h.super]
  · rw [← h.view]
    simp only [State.view, State.marked, State.write, View.setDinode, View.log, View.mk.injEq, and_true]
    refine ⟨funext fun b' => ?_, funext fun j => ?_, funext fun b' => ?_⟩
    · rw [Function.update_of_ne (iblock_lt_bblock hi b').ne']
    · by_cases hij : j = i
      · subst hij
        rw [Function.update_self, Function.update_self, if_pos hi, getDinode_putDinode_same (ioffset_le j)]
      rw [Function.update_of_ne hij]
      by_cases hblock : iblock j = iblock i
      · rw [hblock, Function.update_self, getDinode_putDinode_ne (ioffset_le j) (ioffset_disjoint hblock hij)]
      · rw [Function.update_of_ne hblock]
    · by_cases hb' : dataStart sb ≤ b'
      · rw [Function.update_of_ne (hhi.trans_le hb').ne']
      · rw [if_neg hb', if_neg hb']

theorem Rep.writeData (h : Rep sb s v) (hb : dataStart sb ≤ b) (x : Block) :
    Rep sb (s.write b x) (v.setData b x) := by
  have hlo : 1 < b := by
    rw [dataStart_eq] at hb
    omega
  refine ⟨?_, ?_⟩
  · simp only [State.write]
    rw [Function.update_of_ne hlo.ne, h.super]
  · rw [← h.view]
    simp only [State.view, State.marked, State.write, View.setData, View.log, View.mk.injEq, and_true]
    refine ⟨funext fun b' => ?_, funext fun i => ?_, funext fun b' => ?_⟩
    · by_cases hb' : b' < sb.size
      · have := bblock_lt hb'
        rw [Function.update_of_ne (by omega)]
      · rw [if_neg hb', if_neg hb']
    · by_cases hi : i < sb.ninodes
      · have := iblock_lt_dataStart hi
        rw [Function.update_of_ne (by omega)]
      · rw [if_neg hi, if_neg hi]
    · rw [Function.update_apply, Function.update_apply]
      by_cases hb' : b' = b
      · rw [if_pos hb', if_pos hb', hb', if_pos hb]
      · rw [if_neg hb', if_neg hb']

theorem Rep.setInode (h : Rep sb s v) (ip : Nat) (e : Option Inode) :
    Rep sb (s.setInode ip e) { v with icache := Function.update v.icache ip e } := by
  refine ⟨h.super, ?_⟩
  rw [← h.view]
  rfl

theorem Rep.note (h : Rep sb s v) (e : Event) :
    Rep sb { s with trace := s.trace ++ [e] } { v with trace := v.trace ++ [e] } := by
  refine ⟨h.super, ?_⟩
  rw [← h.view]
  rfl

/-! ### Specifications over views -/

/-- From any disk with view `v` the code ends in a disk whose view is in `Q`, or stops with an error in `E`, or
the log stops it. -/
def vwp (sb : Superblock) {α : Type} (f : FsM α) (Q : α → View → Prop) (E : Panic → Prop) (v : View) : Prop :=
  ∀ s, Rep sb s v → wp f (fun a s' => ∃ v', Rep sb s' v' ∧ Q a v') (fun e => e.ofLog = true ∨ E e) s

section Rules

variable {α β : Type} {E : Panic → Prop}

theorem vwp_mono {Q Q' : α → View → Prop} {E' : Panic → Prop} {f : FsM α} (h : vwp sb f Q E v)
    (hQ : ∀ a v', Q a v' → Q' a v') (hE : ∀ e, E e → E' e) : vwp sb f Q' E' v := fun s hs =>
  wp_mono (h s hs) (fun _ _ ⟨v', hv', hq⟩ => ⟨v', hv', hQ _ _ hq⟩) fun e he => he.imp_right (hE e)

theorem vwp_pure {Q : α → View → Prop} {a : α} (h : Q a v) : vwp sb (pure a) Q E v := fun _ hs => ⟨v, hs, h⟩

theorem vwp_throw {Q : α → View → Prop} {e : Panic} (h : E e) : vwp sb (throw e) Q E v := fun _ _ => .inr h

variable {x : FsM α}

theorem vwp_bind {Q : β → View → Prop} {f : α → FsM β}
    (h : vwp sb x (fun a v' => vwp sb (f a) Q E v') E v) : vwp sb (x >>= f) Q E v := fun s hs => by
  rw [wp_bind]
  exact wp_mono (h s hs) (fun a s' ⟨v', hs', hf⟩ => hf s' hs') fun _ he => he

theorem vwp_map {Q : β → View → Prop} {g : α → β} (h : vwp sb x (fun a v' => Q (g a) v') E v) :
    vwp sb (g <$> x) Q E v := fun s hs => by
  rw [wp_map]
  exact h s hs

theorem vwp_seq {P : α → View → Prop} {Q : β → View → Prop} {f : α → FsM β} (hx : vwp sb x P E v)
    (hf : ∀ a v', P a v' → vwp sb (f a) Q E v') : vwp sb (x >>= f) Q E v :=
  vwp_bind (vwp_mono hx hf fun _ he => he)

theorem vwp_forTo {body : Nat → FsM PUnit} {I : Nat → View → Prop} (h₀ : I 0 v)
    (hbody : ∀ i v', i < n → I i v' → vwp sb (body i) (fun _ v'' => I (i + 1) v'') E v') :
    vwp sb (forTo body n) (fun _ v' => I n v') E v := fun s hs => by
  refine wp_forTo (I := fun i s' => ∃ v', Rep sb s' v' ∧ I i v') ⟨v, hs, h₀⟩ ?_
  rintro i s' hi ⟨v', hs', hI⟩
  exact hbody i v' hi hI s' hs'

theorem vwp_breadData {Q : Block → View → Prop} (hb : dataStart sb ≤ b) (h : Q (v.data b) v) :
    vwp sb (bread b) Q E v := fun s hs => by
  have hdata : v.data b = s.blocks b := by
    rw [← hs.view]
    simp only [State.view, if_pos hb]
  simp only [bread, wp_map, wp_get]
  exact ⟨v, hs, hdata ▸ h⟩

variable {Q : PUnit → View → Prop}

theorem wp_logWrite {x : Block} {Q : PUnit → State → Prop} (h : Q ⟨⟩ (s.write b x)) :
    wp (logWrite b x) Q (fun e => e.ofLog = true ∨ E e) s := by
  simp only [logWrite, wp_bind, wp_get, wp_ite, wp_throw]
  split
  · exact .inl rfl
  · split
    · exact .inl rfl
    · exact h

theorem vwp_logWriteData {x : Block} (hb : dataStart sb ≤ b)
    (h : Q ⟨⟩ (v.setData b x)) : vwp sb (logWrite b x) Q E v := fun _ hs =>
  wp_logWrite ⟨_, hs.writeData hb x, h⟩

variable {e : Inode}

theorem vwp_inode {Q : Inode → View → Prop} (he : v.icache ip = some e) (h : Q e v) :
    vwp sb (inode ip) Q E v := fun s hs => by
  have hcache : s.icache ip = some e := by rw [← he, ← hs.view]; rfl
  simp only [inode, wp_bind, wp_get, hcache, wp_pure]
  exact ⟨v, hs, h⟩

theorem vwp_setInode
    (h : Q ⟨⟩ (v.setInode ip e)) : vwp sb (setInode ip e) Q E v := fun s hs => by
  simp only [setInode, wp_modify]
  exact ⟨_, hs.setInode ip _, h⟩

def View.note (v : View) (x : Event) : View := { v with trace := v.trace ++ [x] }

theorem vwp_note {x : Event} (h : Q ⟨⟩ (v.note x)) : vwp sb (note x) Q E v := fun s hs => by
  simp only [note, wp_modify]
  exact ⟨_, hs.note x, h⟩

theorem vwp_beginOp (h : Q ⟨⟩ (v.note .beginOp)) : vwp sb beginOp Q E v := fun s hs => by
  simp only [beginOp, wp_bind, wp_get, wp_ite, wp_throw]
  split
  · exact .inl rfl
  · exact vwp_note h s hs

def Inode.withAddr (e : Inode) (k : Fin (ndirect + 1)) (a : UInt32) : Inode :=
  { e with din := { e.din with addrs := Function.update e.din.addrs k a } }

theorem vwp_setAddr {k : Fin (ndirect + 1)} {a : UInt32}
    (he : v.icache ip = some e) (h : Q ⟨⟩ (v.setInode ip (e.withAddr k a))) : vwp sb (setAddr ip k a) Q E v :=
  vwp_bind (vwp_inode he (vwp_setInode h))

/-! ### The block allocator -/

/-- The view after `balloc` has returned block `b`. -/
def View.alloc (sb : Superblock) (v : View) (b : Nat) : View where
  bit := Function.update v.bit b true
  dinode := v.dinode
  data := Function.update v.data b Bytes.zero
  icache := v.icache
  ncached := v.ncached
  trace := v.trace ++ [.logWrite (bblock b sb.ninodes), .logWrite b,
    .balloc b ((List.range (sb.size - sb.nlog)).any fun b' => !v.bit b')]

theorem Rep.bit_of_ge (h : Rep sb s v) (hb : ¬b < sb.size) : v.bit b = true := by
  rw [← h.view]
  simp only [State.view, if_neg hb]

theorem vwp_balloc {Q : UInt32 → View → Prop} (hmeta : ∀ b < dataStart sb, v.bit b = true)
    (hfree : ∀ b, v.bit b = false → b < sb.size → (UInt32.ofNat b).toNat = b → dataStart sb ≤ b →
      (∀ b' < b, v.bit b' = true) → Q (UInt32.ofNat b) (v.alloc sb b))
    (hfull : (∀ b, v.bit b = true) → E .outOfBlocks) : vwp sb balloc Q E v := fun s hs => by
  have hsb : Superblock.ofBlock (s.blocks 1) = sb := hs.super
  have hmarked : ∀ b, b < sb.size → s.marked sb.ninodes b = v.bit b := fun b hb => hs.marked hb
  simp only [balloc, readsb, bread, wp_bind, wp_map, wp_get, hsb]
  cases hfind : (List.range sb.size).find? fun b => !s.marked sb.ninodes b with
  | none =>
    simp only [wp_throw]
    refine .inr (hfull fun b => ?_)
    by_cases hb : b < sb.size
    · have := List.find?_eq_none.mp hfind b (List.mem_range.mpr hb)
      rw [← hmarked b hb]
      simpa using this
    · exact hs.bit_of_ge hb
  | some b =>
    obtain ⟨hclear, hmem, hfirst⟩ := List.find?_range_eq_some.mp hfind
    have hb : b < sb.size := List.mem_range.mp hmem
    have hbit : v.bit b = false := by
      rw [← hmarked b hb]
      simpa using hclear
    have hstart : dataStart sb ≤ b := by
      by_contra hlt
      rw [hmeta b (by omega)] at hbit
      cases hbit
    have hfirst' : ∀ b' < b, v.bit b' = true := fun b' hb' => by
      rw [← hmarked b' (hb'.trans hb)]
      simpa using hfirst b' hb'
    have hroom : (List.range (sb.size - sb.nlog)).any (fun b' => !s.marked sb.ninodes b') =
        (List.range (sb.size - sb.nlog)).any fun b' => !v.bit b' := by
      rw [Bool.eq_iff_iff, List.any_eq_true, List.any_eq_true]
      refine exists_congr fun b' => and_congr_right fun hb' => ?_
      have hlt : b' < sb.size - sb.nlog := List.mem_range.mp hb'
      rw [hmarked b' (by omega)]
    have hround : (UInt32.ofNat b).toNat = b := UInt32.toNat_ofNat_of_lt' (hb.trans hs.size_lt)
    have hrep := ((hs.writeBit hb true).writeData hstart Bytes.zero).note
      (.balloc b ((List.range (sb.size - sb.nlog)).any fun b' => !v.bit b'))
    simp only [bzero, wp_bind, wp_map, wp_get, wp_modify, wp_pure, hroom]
    refine wp_logWrite (wp_logWrite ⟨v.alloc sb b, ?_, hfree b hbit hb hround hstart hfirst'⟩)
    simpa only [View.alloc, View.setBit, View.setData, View.log, List.append_assoc, List.cons_append, List.nil_append] using hrep

theorem vwp_bfree {b : UInt32} (hb : b.toNat < sb.size) (hbit : v.bit b.toNat = true)
    (h : Q ⟨⟩ (v.setBit sb b.toNat false)) :
    vwp sb (bfree b) Q E v := fun s hs => by
  have hsb : Superblock.ofBlock (s.blocks 1) = sb := hs.super
  have hmarked : (s.blocks (bblock b.toNat sb.ninodes)).getBit (b.toNat % bpb) = true := (hs.marked hb).trans hbit
  simp only [bfree, readsb, bread, wp_bind, wp_map, wp_get, hsb, hmarked, Bool.true_eq_false, if_false]
  exact wp_logWrite ⟨_, hs.writeBit hb false, h⟩

theorem vwp_iupdate (he : v.icache ip = some e) (hip : ip < sb.ninodes)
    (h : Q ⟨⟩ (v.setDinode ip e.din)) :
    vwp sb (iupdate ip) Q E v := by
  refine vwp_bind (vwp_inode he fun s hs => ?_)
  simp only [bread, wp_bind, wp_map, wp_get]
  exact wp_logWrite ⟨_, hs.writeDinode hip e.din, h⟩

end Rules

end Xv6.Fs
