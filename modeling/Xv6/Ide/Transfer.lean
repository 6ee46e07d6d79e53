import Xv6.Ide.Code

/-!
# Transfers

A request carried out on the disks at once. On the requests that `memide.c` takes it is the `iderw` of `memide.c`.
-/

namespace Xv6.Ide

open Bio

variable {D β : Type}

def transfer (disk : Disk D) (b : Buf D) : Buf D × Disk D :=
  let r := (idestart b).perform disk
  (complete b r.1, r.2)

def transfers (disk : Disk D) : List (β × Buf D) → List (β × Buf D) × Disk D
  | [] => ([], disk)
  | (b, v) :: rest =>
    let r := transfer disk v
    let rs := transfers r.2 rest
    ((b, r.1) :: rs.1, rs.2)

theorem transfers_concat (disk : Disk D) (l : List (β × Buf D)) (b : β) (v : Buf D) :
    transfers disk (l ++ [(b, v)]) =
      ((transfers disk l).1 ++ [(b, (transfer (transfers disk l).2 v).1)], (transfer (transfers disk l).2 v).2) := by
  induction l generalizing disk with
  | nil => rfl
  | cons x l ih => simp [transfers, ih]

theorem complete_done (v : Buf D) (d : D) : (complete v d).valid = true ∧ (complete v d).dirty = false := ⟨rfl, rfl⟩

theorem transfers_done (disk : Disk D) (l : List (β × Buf D)) : ∀ x ∈ (transfers disk l).1, x.2.valid = true ∧ x.2.dirty = false := by
  induction l generalizing disk with
  | nil => simp [transfers]
  | cons x l ih =>
    intro y hy
    obtain rfl | hy := List.mem_cons.mp hy
    · exact complete_done ..
    · exact ih _ y hy

/-! ### The disk in memory -/

def Accepts (size : UInt32) (v : Buf D) : Prop := v.dev = 1 ∧ v.sector.toNat < disksize size

variable {size : UInt32}

theorem lba_eq {sector : UInt32} (h : sector.toNat < disksize size) : lba sector = sector.toNat := by
  have hsize := size.toNat_lt
  unfold disksize at h
  unfold lba
  omega

variable {havedisk1 : Bool} {v : Buf D}

theorem check_eq_none (h : State.check havedisk1 v = none) :
    v.busy = true ∧ ¬(v.valid = true ∧ v.dirty = false) := by
  unfold State.check at h
  split_ifs at h with hbusy hnothing
  exact ⟨by simpa using hbusy, hnothing⟩

theorem memIderw_eq (disk : Disk D) (hcheck : State.check havedisk1 v = none)
    (hv : Accepts size v) : memIderw size (disk 1) v = .ok ((transfer disk v).1, (transfer disk v).2 1) := by
  obtain ⟨hbusy, hwork⟩ := check_eq_none hcheck
  obtain ⟨hdev, hsector⟩ := hv
  have hdrive : v.dev &&& 1 = 1 := by rw [hdev]; rfl
  rw [memIderw, if_neg (by simp [hbusy]), if_neg hwork, if_neg (by simp [hdev]), if_neg (by omega)]
  by_cases hdirty : v.dirty = true
  · simp [hdirty, transfer, idestart, Request.perform, complete, hdrive, lba_eq hsector]
  · simp [hdirty, transfer, idestart, Request.perform, complete, hdrive, lba_eq hsector]

theorem accepts_of_memIderw {memdisk : Nat → D} {r : Buf D × (Nat → D)}
    (h : memIderw size memdisk v = .ok r) : Accepts size v := by
  unfold memIderw at h
  split_ifs at h with hbusy hnothing hdev hrange
  all_goals exact ⟨not_not.mp hdev, by omega⟩

variable {l : List (β × Buf D)}

theorem sequential_eq (disk : Disk D)
    (hcheck : ∀ x ∈ l, State.check havedisk1 x.2 = none) (hl : ∀ x ∈ l, Accepts size x.2) :
    sequential size (disk 1) l = .ok ((transfers disk l).1, (transfers disk l).2 1) := by
  induction l generalizing disk with
  | nil => rfl
  | cons x l ih =>
    have hx := memIderw_eq disk (hcheck x (by simp)) (hl x (by simp))
    have hrest := ih (transfer disk x.2).2 (fun y hy => hcheck y (by simp [hy])) (fun y hy => hl y (by simp [hy]))
    simp only [sequential, hx, bind, Except.bind, hrest, pure, Except.pure, transfers]

theorem accepts_of_sequential {memdisk : Nat → D} {r : List (β × Buf D) × (Nat → D)}
    (h : sequential size memdisk l = .ok r) : ∀ x ∈ l, Accepts size x.2 := by
  induction l generalizing memdisk r with
  | nil => simp
  | cons x l ih =>
    obtain ⟨b, v⟩ := x
    simp only [sequential, bind, Except.bind] at h
    cases hv : memIderw size memdisk v with
    | error e => simp [hv] at h
    | ok r₁ =>
      cases hrest : sequential size r₁.2 l with
      | error e => simp [hv, hrest] at h
      | ok r₂ =>
        intro y hy
        obtain rfl | hy := List.mem_cons.mp hy
        · exact accepts_of_memIderw hv
        · exact ih hrest y hy

theorem sequential_ok_iff (disk : Disk D)
    (hcheck : ∀ x ∈ l, State.check havedisk1 x.2 = none) :
    (∃ r, sequential size (disk 1) l = .ok r) ↔ ∀ x ∈ l, Accepts size x.2 :=
  ⟨fun ⟨_, hr⟩ => accepts_of_sequential hr, fun hl => ⟨_, sequential_eq disk hcheck hl⟩⟩

end Xv6.Ide
