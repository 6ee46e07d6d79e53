import Xv6.Fs.Own

/-!
# The blocks of a file

`bmap` gives an inode blocks where it has none. The new blocks are zero, so no file changes its contents:
that is the relation `Grows`. A block is attached to an inode in two ways, as one of its addresses or as an
entry of its indirect block, and `Attach` is what the two have in common.
-/

namespace Xv6.Fs

variable {sb : Superblock} {v v' : View} {E : Panic → Prop}


/-- The blocks written when inode `ip` gets its block at position `p`. -/
def View.touched (sb : Superblock) (v : View) (ip : Nat) (p : Pos) (x : Nat) : Prop :=
  x = (v.own ip p).toNat ∨ x = bblock (v.own ip p).toNat sb.ninodes ∨
    ∃ j, p = .entry j ∧ x = (v.own ip .indirect).toNat

/-- A return of `balloc`: a block after the bitmap, and one below the log if there was a free one. -/
def Placed (sb : Superblock) (b : Nat) (room : Bool) : Prop :=
  dataStart sb ≤ b ∧ (b < sb.size - sb.nlog ↔ room = true)

/-- Inode `ip` has got blocks at positions in `P`, and nothing else has changed hands. -/
structure Gains (sb : Superblock) (ip : Nat) (P : Pos → Prop) (v v' : View) : Prop where
  own : Own sb v'
  owns : ∀ i p, v'.own i p = v.own i p ∨ i = ip ∧ P p ∧ v.own i p = 0
  other : ∀ i, i ≠ ip → v'.icache i = v.icache i
  ncached : v'.ncached = v.ncached
  bit : ∀ b, v'.bit b = true ↔ v.bit b = true ∨ ∃ p, v.own ip p = 0 ∧ v'.own ip p ≠ 0 ∧ (v'.own ip p).toNat = b
  count : v'.nfree sb + v'.nblocks ip = v.nfree sb + v.nblocks ip
  trace : v'.trace = v.trace ++ newEvents v v'
  marks : ∀ x ∈ newEvents v v', x.isMark = false
  allocs : ∀ b room, .balloc b room ∈ newEvents v v' → Placed sb b room
  returned : ∀ p, v.own ip p = 0 → v'.own ip p ≠ 0 → ∃ room, .balloc (v'.own ip p).toNat room ∈ newEvents v v'

/-- The new addresses are in memory, and no other field of an inode has changed. -/
structure Extends (sb : Superblock) (ip : Nat) (P : Pos → Prop) (v v' : View) : Prop extends Gains sb ip P v v' where
  dinode : v'.dinode = v.dinode
  self : ∀ e, v.icache ip = some e → ∃ addrs, v'.icache ip = some { e with din := { e.din with addrs := addrs } }

/-- The blocks written for the positions inode `ip` has gained. -/
def Gained (sb : Superblock) (ip : Nat) (v v' : View) (x : Nat) : Prop :=
  ∃ p, v.own ip p = 0 ∧ v'.own ip p ≠ 0 ∧ v'.touched sb ip p x

structure Grows (sb : Superblock) (ip : Nat) (P : Pos → Prop) (v v' : View) : Prop extends Extends sb ip P v v' where
  byte : ∀ i x, x < maxFile * bsize → v'.byte i x = v.byte i x
  logged : ∀ x, .logWrite x ∈ newEvents v v' ↔ Gained sb ip v v' x

variable {ip : Nat} {P Q : Pos → Prop} {v₁ v₂ : View}

theorem Extends.of_same (h : Own sb v') (hown : ∀ i p, v'.own i p = v.own i p) (hdinode : v'.dinode = v.dinode)
    (hcache : v'.icache = v.icache) (hncached : v'.ncached = v.ncached) (hbit : v'.bit = v.bit)
    {es : List Event} (htrace : v'.trace = v.trace ++ es) (hnone : ∀ x ∈ es, ∃ b, x = .logWrite b) (ip : Nat)
    (P : Pos → Prop) : Extends sb ip P v v' where
  own := h
  owns i p := .inl (hown i p)
  dinode := hdinode
  other i _ := by rw [hcache]
  self e he := ⟨e.din.addrs, by rw [hcache, he]⟩
  ncached := hncached
  bit b := by
    rw [hbit]
    grind
  count := by simp only [View.nfree, View.nblocks, hbit, hown]
  trace := trace_of_eq htrace
  marks x hx := by
    rw [newEvents_of_eq htrace] at hx
    obtain ⟨b, rfl⟩ := hnone x hx
    rfl
  allocs b room hmem := by
    rw [newEvents_of_eq htrace] at hmem
    obtain ⟨b', hb'⟩ := hnone _ hmem
    cases hb'
  returned p hp hp' := absurd ((hown ip p).trans hp) hp'

theorem Gains.keeps (h : Gains sb ip P v v₁) {i : Nat} {p : Pos} (hp : v.own i p ≠ 0) :
    v₁.own i p = v.own i p := by
  have := h.owns i p
  grind

theorem Extends.trans (h : Extends sb ip P v v₁) (h' : Extends sb ip P v₁ v₂) : Extends sb ip P v v₂ where
  own := h'.own
  owns i p := by
    have := h.owns i p
    have := h'.owns i p
    grind
  dinode := h'.dinode.trans h.dinode
  other i hi := (h'.other i hi).trans (h.other i hi)
  self e he := by
    obtain ⟨addrs, he₁⟩ := h.self e he
    obtain ⟨addrs', he₂⟩ := h'.self _ he₁
    exact ⟨addrs', he₂⟩
  ncached := h'.ncached.trans h.ncached
  bit b := by
    have hkeep := fun p (hp : v₁.own ip p ≠ 0) => h'.keeps hp
    have hkeep₀ := fun p (hp : v.own ip p ≠ 0) => h.keeps hp
    rw [h'.bit, h.bit]
    grind
  count := h'.count.trans h.count
  trace := trace_trans h.trace h'.trace
  marks x hx := by
    rw [newEvents_trans h.trace h'.trace, List.mem_append] at hx
    exact hx.elim (h.marks x) (h'.marks x)
  allocs b room hmem := by
    rw [newEvents_trans h.trace h'.trace, List.mem_append] at hmem
    exact hmem.elim (h.allocs b room) (h'.allocs b room)
  returned p hp hp' := by
    rw [newEvents_trans h.trace h'.trace]
    by_cases hmid : v₁.own ip p = 0
    · obtain ⟨room, hmem⟩ := h'.returned p hmid hp'
      exact ⟨room, List.mem_append_right _ hmem⟩
    · obtain ⟨room, hmem⟩ := h.returned p hp hmid
      rw [h'.keeps hmid]
      exact ⟨room, List.mem_append_left _ hmem⟩

theorem Extends.mono (h : Extends sb ip P v v₁) (hPQ : ∀ p, P p → Q p) : Extends sb ip Q v v₁ :=
  { h with owns := fun i p => (h.owns i p).imp_right fun ⟨hi, hp, hz⟩ => ⟨hi, hPQ p hp, hz⟩ }

variable {e : Inode} {a : UInt32} {b : Nat}

theorem Extends.cur_self (h : Extends sb ip P v v₁) (he : v.icache ip = some e) (hvalid : e.valid = true) :
    ∃ addrs, v₁.icache ip = some { e with din := { e.din with addrs := addrs } } ∧
      v₁.cur ip = { e.din with addrs := addrs } := by
  obtain ⟨addrs, he₁⟩ := h.self e he
  exact ⟨addrs, he₁, cur_of_valid he₁ hvalid⟩

theorem Extends.same (h : Extends sb ip P v v₁) (he : v.icache ip = some e) (hvalid : e.valid = true)
    (hP : ∀ p, P p → v.own ip p ≠ 0) : (∀ i p, v₁.own i p = v.own i p) ∧ v₁.icache = v.icache ∧ v₁.bit = v.bit := by
  have hown : ∀ i p, v₁.own i p = v.own i p := by
    intro i p
    rcases h.owns i p with heq | ⟨rfl, hp, hzero⟩
    · exact heq
    · exact absurd hzero (hP p hp)
  refine ⟨hown, funext fun i => ?_, funext fun b => ?_⟩
  · by_cases hi : i = ip
    · subst hi
      obtain ⟨addrs, he₁, hcur⟩ := h.cur_self he hvalid
      have haddrs : addrs = e.din.addrs := by
        funext k
        have := hown i (.slot k)
        rwa [own_slot, own_slot, hcur, cur_of_valid he hvalid] at this
      rw [he₁, he, haddrs]
    · exact h.other i hi
  · rw [Bool.eq_iff_iff, h.bit]
    refine or_iff_left ?_
    rintro ⟨p, hp, hp', -⟩
    exact hp' ((hown ip p).trans hp)

theorem Extends.touched_iff (h : Extends sb ip P v v₁) {p : Pos} {x : Nat} (hp : v.own ip p ≠ 0) :
    v₁.touched sb ip p x ↔ v.touched sb ip p x := by
  simp only [View.touched, h.keeps hp]
  have hind : ∀ j, p = .entry j → v₁.own ip .indirect = v.own ip .indirect := by
    rintro j rfl
    refine h.keeps fun hzero => hp ?_
    rw [own_entry, if_pos hzero]
  grind

theorem Extends.gained_trans (h : Extends sb ip P v v₁) (h' : Extends sb ip P v₁ v₂) (x : Nat) :
    Gained sb ip v v₂ x ↔ Gained sb ip v v₁ x ∨ Gained sb ip v₁ v₂ x := by
  have hkeep := fun p (hp : v₁.own ip p ≠ 0) => h'.keeps hp
  have hkeep₀ := fun p (hp : v.own ip p ≠ 0) => h.keeps hp
  have htouch := fun p (hp : v₁.own ip p ≠ 0) => h'.touched_iff (x := x) hp
  unfold Gained
  grind

theorem not_gained_of_same (hown : ∀ p, v'.own ip p = v.own ip p) (x : Nat) : ¬Gained sb ip v v' x := by
  rintro ⟨p, hp, hp', -⟩
  exact hp' ((hown p).trans hp)

theorem Grows.refl (h : Own sb v) (ip : Nat) (P : Pos → Prop) : Grows sb ip P v v where
  toExtends := .of_same h (fun _ _ => rfl) rfl rfl rfl rfl (List.append_nil _).symm (by simp) ip P
  byte _ _ _ := rfl
  logged x := by
    rw [newEvents_of_eq (List.append_nil _).symm]
    exact iff_of_false List.not_mem_nil (not_gained_of_same (fun _ => rfl) x)

theorem Grows.trans (h : Grows sb ip P v v₁) (h' : Grows sb ip P v₁ v₂) : Grows sb ip P v v₂ where
  toExtends := h.toExtends.trans h'.toExtends
  byte i x hx := (h'.byte i x hx).trans (h.byte i x hx)
  logged x := by
    rw [newEvents_trans h.trace h'.trace, List.mem_append, h.logged, h'.logged, h.toExtends.gained_trans h'.toExtends]

theorem Grows.mono (h : Grows sb ip P v v₁) (hPQ : ∀ p, P p → Q p) : Grows sb ip Q v v₁ :=
  { h with toExtends := h.toExtends.mono hPQ }

theorem nfree_alloc (hb : v.bit b = false) (hlt : b < sb.size) : (v.alloc sb b).nfree sb + 1 = v.nfree sb := by
  have herase : (Finset.range sb.size).filter (fun c => (v.alloc sb b).bit c = false) =
      ((Finset.range sb.size).filter fun c => v.bit c = false).erase b := by
    ext c
    simp only [View.alloc, Function.update_apply, Finset.mem_filter, Finset.mem_erase]
    split <;> simp_all
  rw [View.nfree, herase]
  exact Finset.card_erase_add_one (by simp [hlt, hb])

theorem nblocks_gain {q : Pos} (hown : ∀ p, v'.own ip p = if p = q then a else v.own ip p)
    (hzero : v.own ip q = 0) (ha : a ≠ 0) : v'.nblocks ip = v.nblocks ip + 1 := by
  have hinsert : (Finset.univ.filter fun p => v'.own ip p ≠ 0) = insert q (Finset.univ.filter fun p => v.own ip p ≠ 0) := by
    ext p
    simp only [hown, Finset.mem_filter, Finset.mem_univ, true_and, Finset.mem_insert]
    split <;> simp_all
  rw [View.nblocks, hinsert, Finset.card_insert_of_notMem (by simp [hzero])]
  rfl

/-- A new block that becomes the block of `ip` at position `q`. -/
structure Attach (sb : Superblock) (v : View) (ip : Nat) (q : Pos) (b : Nat) (a : UInt32) (v' : View) : Prop where
  zero : v.own ip q = 0
  owns : ∀ i p, v'.own i p = if i = ip ∧ p = q then a else v.own i p
  bit : v'.bit = (v.alloc sb b).bit
  data : ∀ c, c ≠ (v'.own ip .indirect).toNat → v'.data c = (v.alloc sb b).data c
  dinode : v'.dinode = v.dinode
  other : ∀ i, i ≠ ip → v'.icache i = v.icache i
  self : ∃ e addrs, v.icache ip = some e ∧ v'.icache ip = some { e with din := { e.din with addrs := addrs } }
  ncached : v'.ncached = v.ncached
  trace : v'.trace = v.trace ++ ([.logWrite (bblock b sb.ninodes), .logWrite b,
    .balloc b ((List.range (sb.size - sb.nlog)).any fun b' => !v.bit b')] ++
    match q with
    | .slot _ => []
    | .entry _ => [.logWrite (v'.own ip .indirect).toNat])

/-- A block number `balloc` may return, as the number `a` it returns. -/
structure Fresh (sb : Superblock) (v : View) (b : Nat) (a : UInt32) : Prop where
  free : v.bit b = false
  lt : b < sb.size
  toNat : a.toNat = b
  start : dataStart sb ≤ b
  first : ∀ b' < b, v.bit b' = true

theorem Fresh.ne_zero (hf : Fresh sb v b a) : a ≠ 0 := by
  rintro rfl
  have := hf.start
  have := hf.toNat
  rw [dataStart_eq] at *
  simp only [UInt32.toNat_zero] at *
  omega

section Attach

variable {q : Pos} {b : Nat} {a : UInt32}

theorem Attach.own_at (ha : Attach sb v ip q b a v') : v'.own ip q = a := by
  rw [ha.owns, if_pos ⟨rfl, rfl⟩]

theorem Attach.bit_iff (ha : Attach sb v ip q b a v') (c : Nat) : v'.bit c = true ↔ v.bit c = true ∨ c = b := by
  rw [ha.bit]
  simp only [View.alloc, Function.update_apply]
  split <;> simp_all

theorem Attach.own (ha : Attach sb v ip q b a v') (h : Own sb v) (hf : Fresh sb v b a) : Own sb v' := by
  have halloc := h.alloc hf.free
  have hab := hf.toNat
  refine halloc.of_gain ip q a (fun i p => ?_) (fun i p hp => ?_) (hab ▸ hf.start) (hab ▸ hf.lt) ?_ ha.bit
    fun i e' hi => ?_
  · rw [ha.owns, h.alloc_own hf.free]
  · rw [h.alloc_own hf.free] at hp ⊢
    intro heq
    exact h.ne_of_free hf.free i p hp (heq ▸ hab)
  · rw [← ha.bit, ha.bit_iff]
    exact .inr hab
  · obtain ⟨e, addrs, he, he'⟩ := ha.self
    by_cases hip : i = ip
    · exact hip ▸ h.handle ip e he
    · exact h.handle i e' (ha.other i hip ▸ hi)

/-- An old block keeps its contents, and the new one is zero, as the hole was. -/
theorem Attach.byte (ha : Attach sb v ip q b a v') (h : Own sb v) (hf : Fresh sb v b a) (i : Nat) {x : Nat}
    (hx : x < maxFile * bsize) : v'.byte i x = v.byte i x := by
  have hpos : posOf (x / bsize) ≠ .indirect := posOf_ne_indirect (Nat.div_lt_of_lt_mul (by rwa [Nat.mul_comm]))
  have hkeep : v'.own i (posOf (x / bsize)) ≠ 0 → v'.data (v'.own i (posOf (x / bsize))).toNat =
      (v.alloc sb b).data (v'.own i (posOf (x / bsize))).toNat := by
    intro hp
    refine ha.data _ fun heq => hpos ?_
    exact ((ha.own h hf).unique i _ ip _ hp (UInt32.toNat_inj.mp heq)).2
  simp only [View.byte]
  by_cases hq : i = ip ∧ posOf (x / bsize) = q
  · have hnew : v'.own i (posOf (x / bsize)) = a := by rw [ha.owns, if_pos hq]
    have hold : v.own i (posOf (x / bsize)) = 0 := by rw [hq.1, hq.2, ha.zero]
    rw [hkeep (hnew ▸ hf.ne_zero), hnew, hold, if_neg hf.ne_zero, if_pos rfl, hf.toNat]
    simp [View.alloc]
  · have hsame : v'.own i (posOf (x / bsize)) = v.own i (posOf (x / bsize)) := by rw [ha.owns, if_neg hq]
    rw [hsame] at hkeep ⊢
    by_cases hp : v.own i (posOf (x / bsize)) = 0
    · rw [if_pos hp, if_pos hp]
    · rw [if_neg hp, if_neg hp, hkeep hp]
      simp only [View.alloc, Function.update_of_ne (h.ne_of_free hf.free i _ hp)]

theorem Attach.exists_gained (ha : Attach sb v ip q b a v') (hne : a ≠ 0) (R : Pos → Prop) :
    (∃ p, v.own ip p = 0 ∧ v'.own ip p ≠ 0 ∧ R p) ↔ R q := by
  constructor
  · rintro ⟨p, hp, hp', hR⟩
    have := ha.owns ip p
    obtain rfl : p = q := by grind
    exact hR
  · intro hR
    exact ⟨q, ha.zero, ha.own_at ▸ hne, hR⟩

theorem Fresh.placed (hf : Fresh sb v b a) :
    Placed sb b ((List.range (sb.size - sb.nlog)).any fun b' => !v.bit b') := by
  refine ⟨hf.start, ?_⟩
  rw [List.any_eq_true]
  constructor
  · intro hlog
    exact ⟨b, List.mem_range.mpr hlog, by simp [hf.free]⟩
  · rintro ⟨x, hx, hfree⟩
    have hxlt := List.mem_range.mp hx
    by_contra hge
    have := hf.first x (by omega)
    simp [this] at hfree

theorem Attach.allocs (ha : Attach sb v ip q b a v') (hf : Fresh sb v b a) (c : Nat) (room : Bool)
    (hmem : .balloc c room ∈ newEvents v v') : Placed sb c room := by
  rw [newEvents_of_eq ha.trace] at hmem
  have heq : Event.balloc c room = .balloc b ((List.range (sb.size - sb.nlog)).any fun b' => !v.bit b') := by
    cases q <;> simpa using hmem
  obtain ⟨rfl, rfl⟩ := Event.balloc.inj heq
  exact hf.placed

theorem Attach.gained (ha : Attach sb v ip q b a v') (hne : a ≠ 0) (x : Nat) :
    Gained sb ip v v' x ↔ v'.touched sb ip q x :=
  ha.exists_gained hne fun p => v'.touched sb ip p x

theorem Attach.logged (ha : Attach sb v ip q b a v') (hf : Fresh sb v b a) (x : Nat) :
    .logWrite x ∈ newEvents v v' ↔ v'.touched sb ip q x := by
  rw [View.touched, ha.own_at, hf.toNat, newEvents_of_eq ha.trace]
  cases q <;> simp <;> grind

theorem Attach.grows (ha : Attach sb v ip q b a v') (h : Own sb v) (hf : Fresh sb v b a) :
    Grows sb ip (· = q) v v' where
  own := ha.own h hf
  owns i p := by
    have := ha.zero
    have := ha.owns i p
    grind
  byte i x hx := ha.byte h hf i hx
  dinode := ha.dinode
  other := ha.other
  self e he := by
    obtain ⟨e', addrs, he', haddrs⟩ := ha.self
    obtain rfl := Option.some.inj (he.symm.trans he')
    exact ⟨addrs, haddrs⟩
  ncached := ha.ncached
  bit c := by
    rw [ha.bit_iff, ha.exists_gained hf.ne_zero fun p => (v'.own ip p).toNat = c, ha.own_at, hf.toNat, eq_comm (a := c)]
  count := by
    have hfree : v'.nfree sb = (v.alloc sb b).nfree sb := by rw [View.nfree, View.nfree, ha.bit]
    have hown : ∀ p, v'.own ip p = if p = q then a else v.own ip p := fun p => by simp [ha.owns]
    have hblocks := nblocks_gain hown ha.zero hf.ne_zero
    have := nfree_alloc hf.free hf.lt
    omega
  trace := trace_of_eq ha.trace
  marks x hx := by
    rw [newEvents_of_eq ha.trace] at hx
    cases q <;> grind [Event.isMark]
  allocs := ha.allocs hf
  returned p hp hp' := by
    have := ha.owns ip p
    obtain rfl : p = q := by grind
    rw [newEvents_of_eq ha.trace, ha.own_at, hf.toNat]
    exact ⟨(List.range (sb.size - sb.nlog)).any fun b' => !v.bit b', List.mem_append_left _ (by simp)⟩
  logged x := by rw [ha.logged hf, ha.gained hf.ne_zero]

end Attach

/-! ### The code -/

theorem attach_slot (h : Own sb v) (he : v.icache ip = some e) (hvalid : e.valid = true)
    {k : Fin (ndirect + 1)} (hzero : e.din.addrs k = 0) (hf : Fresh sb v b a) :
    Attach sb v ip (.slot k) b a ((v.alloc sb b).setInode ip (e.withAddr k a)) where
  zero := by rw [own_slot, cur_of_valid he hvalid, hzero]
  owns i p := by
    by_cases hi : i = ip
    · subst hi
      have hcur : ((v.alloc sb b).setInode i (e.withAddr k a)).cur i = (e.withAddr k a).din := cur_setInode_self hvalid
      have hcur₀ := cur_of_valid he hvalid
      have haddrs : (e.withAddr k a).din.addrs = Function.update e.din.addrs k a := rfl
      cases p with
      | slot k' =>
        rw [own_slot, own_slot, hcur, hcur₀]
        simp [haddrs, Function.update_apply]
      | entry j =>
        -- a new indirect block has no entries
        simp only [own_entry, own_slot, hcur, hcur₀, haddrs, reduceCtorEq, and_false, if_false]
        by_cases hk : Fin.last ndirect = k
        · subst hk
          simp [hzero, hf.toNat, View.setInode, View.alloc]
        · rw [Function.update_of_ne hk]
          split
          · rfl
          · have hind : v.own i .indirect ≠ 0 := by rwa [own_slot, hcur₀]
            have hne := h.ne_of_free hf.free i .indirect hind
            rw [own_slot, hcur₀] at hne
            simp only [View.setInode, View.alloc, Function.update_of_ne hne]
    · rw [if_neg (by simp [hi]), ← h.alloc_own hf.free i p]
      exact own_congr (congrArg Dinode.addrs (cur_setInode_ne hi _)) (fun _ => rfl) p
  bit := rfl
  data _ _ := rfl
  dinode := rfl
  other i hi := setInode_other _ hi _
  self := ⟨e, _, he, setInode_same _ _ _⟩
  ncached := rfl
  trace := by simp [View.setInode, View.alloc]

/-- The view after entry `j` of the indirect block of `ip` has been set. -/
def View.setEntry (v : View) (ip : Nat) (j : Nat) (a : UInt32) : View :=
  v.setData (v.own ip .indirect).toNat (put32 (v.data (v.own ip .indirect).toNat) (4 * j) a)

theorem setEntry_own (h : Own sb v) (hind : v.own ip .indirect ≠ 0) (j : Fin nindirect) (a : UInt32) (i : Nat) (p : Pos) :
    (v.setEntry ip j a).own i p = if i = ip ∧ p = .entry j then a else v.own i p := by
  have hcur : (v.setEntry ip j a).cur i = v.cur i := rfl
  by_cases hi : i = ip
  · subst hi
    cases p with
    | slot k => simp [own_slot, hcur]
    | entry j' =>
      have hj := j.isLt
      have hj' := j'.isLt
      simp only [nindirect, bsize] at hj hj'
      rw [own_entry, own_slot, hcur, ← own_slot, if_neg hind]
      simp only [View.setEntry, View.setData, View.log, Function.update_self, Pos.entry.injEq, true_and]
      by_cases heq : j' = j
      · subst heq
        rw [get32_put32_same (by simp only [bsize]; omega), if_pos rfl]
      · have hne : j'.val ≠ j.val := fun hval => heq (Fin.ext hval)
        rw [if_neg heq, get32_put32_disjoint (by simp only [bsize]; omega) (by omega), own_entry, if_neg hind]
  · rw [if_neg (by simp [hi])]
    refine own_congr (congrArg Dinode.addrs hcur) (fun hi' => Function.update_of_ne (fun heq => hi ?_) _ _) p
    exact (h.unique i .indirect ip .indirect hi' (UInt32.toNat_inj.mp heq)).1

theorem attach_entry (h : Own sb v) (he : v.icache ip = some e) {j : Fin nindirect}
    (hind : v.own ip .indirect ≠ 0) (hzero : v.own ip (.entry j) = 0) (hf : Fresh sb v b a) :
    Attach sb v ip (.entry j) b a ((v.alloc sb b).setEntry ip j a) := by
  have halloc := h.alloc hf.free
  have hkeep := h.alloc_own hf.free
  have howns := setEntry_own halloc (hkeep ip _ ▸ hind) j a
  have hind' : ((v.alloc sb b).setEntry ip j a).own ip .indirect = (v.alloc sb b).own ip .indirect := by
    rw [howns, if_neg (by simp)]
  refine ⟨hzero, fun i p => ?_, rfl, fun c hc => ?_, rfl, fun _ _ => rfl, ⟨e, e.din.addrs, he, he⟩, rfl, ?_⟩
  · rw [howns, hkeep]
  · rw [hind'] at hc
    exact Function.update_of_ne hc _ _
  · simp only [hind']
    simp [View.setEntry, View.setData, View.log, View.alloc]

theorem vwp_addrOf (h : Own sb v) (he : v.icache ip = some e) (hvalid : e.valid = true) (k : Fin (ndirect + 1))
    (hfull : (∀ b, v.bit b = true) → v.own ip (.slot k) = 0 → E .outOfBlocks) :
    vwp sb (addrOf ip k) (fun a v' => a ≠ 0 ∧ v'.own ip (.slot k) = a ∧ Grows sb ip (· = .slot k) v v') E v := by
  have hslot : v.own ip (.slot k) = e.din.addrs k := by rw [own_slot, cur_of_valid he hvalid]
  refine vwp_bind (vwp_inode he ?_)
  by_cases hzero : e.din.addrs k = 0
  · rw [if_pos hzero]
    refine vwp_bind (vwp_balloc h.metadata (fun b hfree hlt hround hstart hfirst => ?_) fun hbits => hfull hbits (hslot.trans hzero))
    have hf : Fresh sb v b (UInt32.ofNat b) := ⟨hfree, hlt, hround, hstart, hfirst⟩
    have ha := attach_slot h he hvalid hzero hf
    refine vwp_bind (vwp_setAddr (v := v.alloc sb b) he (vwp_pure ?_))
    exact ⟨hf.ne_zero, ha.own_at, ha.grows h hf⟩
  · rw [if_neg hzero]
    exact vwp_pure ⟨hzero, hslot, Grows.refl h ip _⟩

/-- The positions `bmap` fills to give a file its block `bn`. -/
def Needs (bn : Nat) (p : Pos) : Prop := p = posOf bn ∨ ndirect ≤ bn ∧ p = .indirect

theorem vwp_bmap (h : Own sb v) (he : v.icache ip = some e) (hvalid : e.valid = true) {bn : Nat}
    (hbn : bn < maxFile) (hfull : ∀ v₁ p, Grows sb ip (Needs bn) v v₁ → (∀ b, v₁.bit b = true) → Needs bn p →
      v₁.own ip p = 0 → E .outOfBlocks) :
    vwp sb (bmap ip bn) (fun a v' => a ≠ 0 ∧ v'.own ip (posOf bn) = a ∧ Grows sb ip (Needs bn) v v') E v := by
  unfold bmap
  by_cases hdirect : bn < ndirect
  · rw [dif_pos hdirect]
    have hpos : posOf bn = .slot ⟨bn, by omega⟩ := by rw [posOf, dif_pos hdirect]
    refine vwp_mono (vwp_addrOf h he hvalid _ fun hbits hzero => ?_) ?_ fun _ hE => hE
    · exact hfull v _ (Grows.refl h ip _) hbits (.inl hpos.symm) hzero
    · rintro a v' ⟨hne, hown, hgrows⟩
      exact ⟨hne, hpos ▸ hown, hgrows.mono fun p hp => .inl (hp.trans hpos.symm)⟩
  have hj : bn - ndirect < nindirect := by
    simp only [maxFile] at hbn
    omega
  have hpos : posOf bn = .entry ⟨bn - ndirect, hj⟩ := by rw [posOf, dif_neg hdirect, dif_pos hj]
  have hneeds : Needs bn .indirect := .inr ⟨by omega, rfl⟩
  rw [dif_neg hdirect, if_pos hj]
  refine vwp_seq (vwp_addrOf h he hvalid _ fun hbits => hfull v _ (Grows.refl h ip _) hbits hneeds) ?_
  rintro ind v₁ ⟨hne, hind, hgrows⟩
  replace hgrows : Grows sb ip (Needs bn) v v₁ := hgrows.mono fun p hp => hp ▸ hneeds
  subst hind
  obtain ⟨addrs, he₁⟩ := hgrows.self e he
  have hentry : get32 (v₁.data (v₁.own ip .indirect).toNat) (4 * (bn - ndirect)) = v₁.own ip (posOf bn) := by
    rw [hpos, own_entry, if_neg hne]
  have hstart := (hgrows.own.range ip .indirect hne).1
  refine vwp_bind (vwp_breadData hstart ?_)
  rw [hentry]
  by_cases hzero : v₁.own ip (posOf bn) = 0
  · rw [if_pos hzero]
    refine vwp_bind (vwp_balloc hgrows.own.metadata (fun b hfree hlt hround hb hfirst => ?_) fun hbits =>
      hfull v₁ _ hgrows hbits (.inl rfl) hzero)
    have hf : Fresh sb v₁ b (UInt32.ofNat b) := ⟨hfree, hlt, hround, hb, hfirst⟩
    have ha := attach_entry hgrows.own he₁ hne (hpos ▸ hzero) hf
    have hdata : (v₁.alloc sb b).data (v₁.own ip .indirect).toNat = v₁.data (v₁.own ip .indirect).toNat :=
      Function.update_of_ne (hgrows.own.ne_of_free hfree ip .indirect hne) _ _
    refine vwp_bind (vwp_logWriteData hstart (vwp_pure ?_))
    rw [View.setEntry, hgrows.own.alloc_own hfree, hdata] at ha
    refine ⟨hf.ne_zero, ?_, hgrows.trans ((ha.grows hgrows.own hf).mono fun p hp => .inl (hp.trans hpos.symm))⟩
    rw [hpos]
    exact ha.own_at
  · rw [if_neg hzero]
    exact vwp_pure ⟨hzero, rfl, hgrows⟩

end Xv6.Fs
