import Mathlib

/-!
# Byte-addressed memory

A memory gives a byte for every address of `w` bits, and addresses wrap around. A store replaces the bytes of a
range; stores next to each other are one store, and a load inside the range gives back what was stored there.
-/

namespace Lib

variable {w : Nat}

def store (m : BitVec w → UInt8) (a : BitVec w) (bs : List UInt8) : BitVec w → UInt8 := fun x =>
  if (x - a).toNat < bs.length then bs.getD (x - a).toNat 0 else m x

def loadBytes (m : BitVec w → UInt8) (a : BitVec w) (n : Nat) : List UInt8 :=
  (List.range n).map fun i => m (a + BitVec.ofNat w i)

variable {m m' : BitVec w → UInt8} {a : BitVec w} {bs cs : List UInt8}

@[simp] theorem store_nil : store m a [] = m := by
  funext x
  simp [store]

theorem store_of_lt {x : BitVec w} (h : (x - a).toNat < bs.length) : store m a bs x = bs.getD (x - a).toNat 0 := if_pos h

theorem store_of_le {x : BitVec w} (h : bs.length ≤ (x - a).toNat) : store m a bs x = m x := if_neg (not_lt.mpr h)

theorem store_append (h : bs.length + cs.length ≤ 2 ^ w) :
    store (store m a bs) (a + BitVec.ofNat w bs.length) cs = store m a (bs ++ cs) := by
  funext x
  have hk := (x - a).isLt
  have hshift : (x - (a + BitVec.ofNat w bs.length)).toNat =
      (2 ^ w - bs.length % 2 ^ w + (x - a).toNat) % 2 ^ w := by
    rw [← BitVec.sub_sub, BitVec.toNat_sub, BitVec.toNat_ofNat]
  by_cases hlt : (x - a).toNat < bs.length
  · -- before the second range, whose offsets wrap around to the end
    have hle : cs.length ≤ (x - (a + BitVec.ofNat w bs.length)).toNat := by
      rw [hshift]
      by_cases hfull : bs.length = 2 ^ w
      · omega
      · rw [Nat.mod_eq_of_lt (by omega : bs.length < 2 ^ w), Nat.mod_eq_of_lt (by omega)]
        omega
    rw [store_of_le hle, store_of_lt hlt, store_of_lt (by rw [List.length_append]; omega), List.getD_append _ _ _ _ hlt]
  · have hsub : (x - (a + BitVec.ofNat w bs.length)).toNat = (x - a).toNat - bs.length := by
      rw [hshift, Nat.mod_eq_of_lt (by omega : bs.length < 2 ^ w)]
      rw [show 2 ^ w - bs.length + (x - a).toNat = (x - a).toNat - bs.length + 2 ^ w by omega, Nat.add_mod_right]
      exact Nat.mod_eq_of_lt (by omega)
    by_cases hin : (x - a).toNat < bs.length + cs.length
    · rw [store_of_lt (by rw [hsub]; omega), store_of_lt (by rw [List.length_append]; omega), hsub,
        List.getD_append_right _ _ _ _ (not_lt.mp hlt)]
    · rw [store_of_le (by rw [hsub]; omega), store_of_le (not_lt.mp hlt),
        store_of_le (by rw [List.length_append]; omega)]

theorem loadBytes_congr {n : Nat} (h : ∀ i < n, m' (a + BitVec.ofNat w i) = m (a + BitVec.ofNat w i)) :
    loadBytes m' a n = loadBytes m a n :=
  List.map_congr_left fun i hi => h i (List.mem_range.mp hi)

theorem loadBytes_drop {o n k : Nat} (h : o + n ≤ k) :
    loadBytes m (a + BitVec.ofNat w o) n = ((loadBytes m a k).drop o).take n := by
  refine List.ext_getElem (by simp [loadBytes]; omega) fun i hi hi' => ?_
  simp only [loadBytes, List.getElem_map, List.getElem_range, List.getElem_take, List.getElem_drop]
  rw [BitVec.ofNat_add, BitVec.add_assoc]

theorem loadBytes_store {o n : Nat} (hlen : bs.length ≤ 2 ^ w) (h : o + n ≤ bs.length) :
    loadBytes (store m a bs) (a + BitVec.ofNat w o) n = (bs.drop o).take n := by
  refine List.ext_getElem (by simp [loadBytes]; omega) fun i hi hi' => ?_
  have hin : i < n := by simpa [loadBytes] using hi
  have hoff : (a + BitVec.ofNat w o + BitVec.ofNat w i - a).toNat = o + i := by
    rw [BitVec.add_assoc, BitVec.add_comm a, BitVec.add_sub_cancel, ← BitVec.ofNat_add, BitVec.toNat_ofNat]
    exact Nat.mod_eq_of_lt (by omega)
  have hbyte : store m a bs (a + BitVec.ofNat w o + BitVec.ofNat w i) = bs.getD (o + i) 0 := by
    rw [store_of_lt (by rw [hoff]; omega), hoff]
  simp only [loadBytes, List.getElem_map, List.getElem_range, hbyte, List.getElem_take, List.getElem_drop]
  exact List.getD_eq_getElem _ _ (by omega)

theorem store_of_ge {x : BitVec w} (h : a.toNat + bs.length ≤ x.toNat) : store m a bs x = m x := by
  refine store_of_le ?_
  rw [BitVec.toNat_sub_of_le (BitVec.le_def.mpr (by omega))]
  omega

/-! ### Objects in memory -/

structure Obj (w : Nat) where
  addr : BitVec w
  bytes : List UInt8

def Obj.stop (o : Obj w) : Nat := o.addr.toNat + o.bytes.length

/-- The objects lie in order between `lo` and `hi`, and memory holds their bytes. -/
def Stacked (m : BitVec w → UInt8) : Nat → List (Obj w) → Nat → Prop
  | lo, [], hi => lo ≤ hi
  | lo, o :: os, hi => lo ≤ o.addr.toNat ∧ loadBytes m o.addr o.bytes.length = o.bytes ∧ Stacked m o.stop os hi

namespace Stacked

variable {lo hi : Nat} {o : Obj w} {os : List (Obj w)}

theorem le (h : Stacked m lo os hi) : lo ≤ hi := by
  induction os generalizing lo with
  | nil => exact h
  | cons o os ih =>
    obtain ⟨hlo, -, hrest⟩ := h
    have hstop := ih hrest
    unfold Obj.stop at hstop
    omega

theorem mem (h : Stacked m lo os hi) (ho : o ∈ os) :
    lo ≤ o.addr.toNat ∧ o.stop ≤ hi ∧ loadBytes m o.addr o.bytes.length = o.bytes := by
  induction os generalizing lo with
  | nil => cases ho
  | cons o' os ih =>
    obtain ⟨hlo, hbytes, hrest⟩ := h
    rcases List.mem_cons.mp ho with rfl | hin
    · exact ⟨hlo, hrest.le, hbytes⟩
    · obtain ⟨hfrom, hto, hload⟩ := ih hrest hin
      unfold Obj.stop at hfrom
      exact ⟨by omega, hto, hload⟩

theorem pairwise (h : Stacked m lo os hi) : os.Pairwise fun x y => x.stop ≤ y.addr.toNat := by
  induction os generalizing lo with
  | nil => exact .nil
  | cons o os ih =>
    obtain ⟨-, -, hrest⟩ := h
    exact List.pairwise_cons.mpr ⟨fun y hy => (hrest.mem hy).1, ih hrest⟩

theorem weaken {lo' : Nat} (h : Stacked m lo os hi) (hle : lo' ≤ lo) : Stacked m lo' os hi := by
  cases os with
  | nil => exact hle.trans h
  | cons o os => exact ⟨hle.trans h.1, h.2⟩

theorem congr (h : Stacked m lo os hi) (hhi : hi ≤ 2 ^ w) (hm : ∀ x : BitVec w, lo ≤ x.toNat → x.toNat < hi → m' x = m x) :
    Stacked m' lo os hi := by
  induction os generalizing lo with
  | nil => exact h
  | cons o os ih =>
    obtain ⟨hlo, hbytes, hrest⟩ := h
    have hstop := hrest.le
    unfold Obj.stop at hstop
    refine ⟨hlo, ?_, ih hrest fun x hx hx' => hm x (by unfold Obj.stop at hx; omega) hx'⟩
    refine (loadBytes_congr fun i hi => ?_).trans hbytes
    have hnat : (o.addr + BitVec.ofNat w i).toNat = o.addr.toNat + i := by
      rw [BitVec.toNat_add, BitVec.toNat_ofNat, Nat.add_mod_mod]
      exact Nat.mod_eq_of_lt (by omega)
    exact hm _ (by omega) (by omega)

theorem push (h : Stacked m lo os hi) (hhi : hi ≤ 2 ^ w) (ho : o.stop ≤ lo) :
    Stacked (store m o.addr o.bytes) o.addr.toNat (o :: os) hi := by
  have hle := h.le
  unfold Obj.stop at ho
  refine ⟨le_rfl, ?_, ?_⟩
  · have hload : loadBytes (store m o.addr o.bytes) (o.addr + BitVec.ofNat w 0) o.bytes.length = _ :=
      loadBytes_store (by omega) (by omega)
    rwa [show (BitVec.ofNat w 0) = 0#w from rfl, BitVec.add_zero, List.drop_zero, List.take_length] at hload
  · have hkeep : Stacked (store m o.addr o.bytes) lo os hi := h.congr hhi fun x hx _ => store_of_ge (by omega)
    exact hkeep.weaken ho

theorem split {bs cs : List UInt8} (h : Stacked m lo (⟨a, bs ++ cs⟩ :: os) hi) (hcs : 0 < cs.length) (hhi : hi ≤ 2 ^ w) :
    Stacked m lo (⟨a, bs⟩ :: ⟨a + BitVec.ofNat w bs.length, cs⟩ :: os) hi := by
  obtain ⟨hlo, hbytes, hrest⟩ := h
  have hle := hrest.le
  simp only [Obj.stop, List.length_append] at hle hbytes hrest
  have hnat : (a + BitVec.ofNat w bs.length).toNat = a.toNat + bs.length := by
    rw [BitVec.toNat_add, BitVec.toNat_ofNat, Nat.add_mod_mod]
    exact Nat.mod_eq_of_lt (by omega)
  have hpart : ∀ o n, o + n ≤ bs.length + cs.length → loadBytes m (a + BitVec.ofNat w o) n = ((bs ++ cs).drop o).take n := by
    intro o n hin
    rw [← hbytes]
    exact loadBytes_drop hin
  refine ⟨hlo, ?_, hnat.ge, ?_, ?_⟩
  · have hfirst := hpart 0 bs.length (by omega)
    rw [show (BitVec.ofNat w 0) = 0#w from rfl, BitVec.add_zero, List.drop_zero] at hfirst
    exact hfirst.trans (List.take_left' rfl)
  · refine (hpart bs.length cs.length le_rfl).trans ?_
    rw [List.drop_left' rfl, List.take_length]
  · simp only [Obj.stop, hnat]
    rwa [Nat.add_assoc]

end Stacked

/-! ### Little-endian numbers -/

def leNat : List UInt8 → Nat
  | [] => 0
  | b :: bs => b.toNat + 256 * leNat bs

def leBytes : Nat → Nat → List UInt8
  | 0, _ => []
  | n + 1, v => UInt8.ofNat v :: leBytes n (v / 256)

@[simp] theorem length_leBytes (n v : Nat) : (leBytes n v).length = n := by
  induction n generalizing v with
  | zero => rfl
  | succ n ih => rw [leBytes, List.length_cons, ih]

theorem leNat_leBytes {n v : Nat} (h : v < 256 ^ n) : leNat (leBytes n v) = v := by
  induction n generalizing v with
  | zero =>
    rw [pow_zero, Nat.lt_one_iff] at h
    rw [h]
    rfl
  | succ n ih =>
    have hdiv : v / 256 < 256 ^ n := by
      rw [pow_succ] at h
      omega
    have hbyte : (UInt8.ofNat v).toNat = v % 256 := UInt8.toNat_ofNat'
    rw [leBytes, leNat, ih hdiv, hbyte]
    omega

end Lib
