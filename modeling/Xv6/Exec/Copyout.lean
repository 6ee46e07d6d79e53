import Xv6.Exec.Refine
import Xv6.Vm.Dealloc

/-!
# When `copyout` copies

`copyout` goes through the pages of a range. At the first one that is not for the user it stops with an error,
but where there is not even a page table it uses a null pointer. So it does what it is for exactly when every
page without a table comes after a page at which it stops.
-/

namespace Xv6.Exec

open Lib Syscall Vm Memory

variable {L : Layout} {s s' : Memory} {dirs held : Multiset Nat} {d q : Nat} {va : Word} {buf : List UInt8}

/-- Does page `k` meet the range of `n` bytes from `va` on? -/
def Meets (va : Word) (n k : Nat) : Prop := ∃ a, va.toNat ≤ a ∧ a < va.toNat + n ∧ a / pgsize = k

/-- The first page of the range that is not for the user. -/
def StopsAt (s : Memory) (d : Nat) (va : Word) (n k : Nat) : Prop :=
  Meets va n k ∧ frame s d k = none ∧ ∀ k' < k, Meets va n k' → frame s d k' ≠ none

section Pages

variable {n : Nat}

theorem meets_first (hn : 0 < n) : Meets va n (va.toNat / pgsize) := ⟨va.toNat, le_rfl, by omega, rfl⟩

theorem Meets.ge {k : Nat} (h : Meets va n k) : va.toNat / pgsize ≤ k := by
  obtain ⟨a, hle, -, rfl⟩ := h
  exact Nat.div_le_div_right hle

theorem meets_next {k : Nat} (htop : va.toNat + n ≤ 2 ^ 32) (hmore : pgsize - va.toNat % pgsize < n) :
    Meets (pgrounddown va + 4096) (n - (pgsize - va.toNat % pgsize)) k ↔ Meets va n k ∧ k ≠ va.toNat / pgsize := by
  have hnat : (pgrounddown va + 4096).toNat = va.toNat + (pgsize - va.toNat % pgsize) := by
    rw [pgrounddown_next, toNat_offset]
    exact Nat.mod_eq_of_lt (by omega)
  unfold Meets
  rw [hnat]
  unfold pgsize at *
  constructor
  · rintro ⟨a, hle, hlt, rfl⟩
    exact ⟨⟨a, by omega, by omega, rfl⟩, by omega⟩
  · rintro ⟨⟨a, hle, hlt, rfl⟩, hne⟩
    exact ⟨a, by omega, by omega, rfl⟩

theorem meets_last {k : Nat} (hlast : n ≤ pgsize - va.toNat % pgsize) (h : Meets va n k) : k = va.toNat / pgsize := by
  obtain ⟨a, hle, hlt, rfl⟩ := h
  unfold pgsize at *
  omega

end Pages

theorem wp_copyoutLoop {n : Nat} (h : Isolated L s dirs held) (hd : d ∈ dirs)
    (hfuel : buf.length + va.toNat % pgsize ≤ pgsize * n) (htop : va.toNat + buf.length ≤ 2 ^ 32) :
    wp (Vm.copyoutLoop d n va buf)
      (fun r s' => if r then ∀ q, (∀ k, Meets va buf.length k → frame s d k ≠ some q) → s'.page q = s.page q
        else ∃ k, StopsAt s d va buf.length k ∧ ¬Missing s d k)
      (fun _ => ∃ k, StopsAt s d va buf.length k ∧ Missing s d k) s := by
  induction n generalizing s va buf with
  | zero => exact fun _ _ => rfl
  | succ n ih =>
    unfold Vm.copyoutLoop
    rw [wp_ite]
    split
    swap
    · exact fun _ _ => rfl
    rename_i hpos
    have hfirst : Meets va buf.length (va.toNat / pgsize) := meets_first hpos
    have hstops : frame s d (va.toNat / pgsize) = none → StopsAt s d va buf.length (va.toNat / pgsize) := fun hnone =>
      ⟨hfirst, hnone, fun k' hk' hmeets => absurd hmeets.ge (not_le.mpr hk')⟩
    rw [wp_bind]
    refine wp_uva2ka (fun hm => ?_) (fun hm hnone => ?_) fun q hq => ?_
    · rw [page_pgrounddown] at hm
      exact ⟨_, hstops hm.frame, hm⟩
    · rw [page_pgrounddown] at hm hnone
      exact ⟨_, hstops hnone, hm⟩
    rw [page_pgrounddown] at hq
    simp only [wp_bind, wp_modify, toNat_sub_pgrounddown]
    have huser := (mem_userPages_of_frame h hd hq).1
    by_cases hlast : buf.length ≤ pgsize - va.toNat % pgsize
    · -- the rest of the page takes all bytes
      rw [Nat.min_eq_right hlast, List.drop_length]
      have hdone : ∀ (m : Nat) (t : Memory) (w : Word), Vm.copyoutLoop d m w [] t = .ok (true, t) := by
        intro m t w
        cases m <;> rfl
      unfold wp
      rw [hdone]
      intro q' hq'
      refine setPage_page_ne ?_ _
      rintro rfl
      exact hq' _ hfirst hq
    · have hmore := not_le.mp hlast
      rw [Nat.min_eq_left hmore.le]
      have hwrite := h.write hd huser ((s.page q).copyIn (va.toNat % pgsize) (pgsize - va.toNat % pgsize) fun k => buf.getD k 0)
      have hframe := frame_setPage h hd huser
        ((s.page q).copyIn (va.toNat % pgsize) (pgsize - va.toNat % pgsize) fun k => buf.getD k 0)
      have hdir : ∀ b k, Missing (s.setPage q b) d k ↔ Missing s d k := by
        intro b k
        unfold Missing
        simp only [entry_setPage_of_ne s (h.not_table_of_user hd huser d hd).1.symm]
      have hmod : va.toNat % pgsize < pgsize := Nat.mod_lt _ (by decide)
      have hnat : (pgrounddown va + 4096).toNat = va.toNat + (pgsize - va.toNat % pgsize) := by
        rw [pgrounddown_next, toNat_offset]
        exact Nat.mod_eq_of_lt (by omega)
      have hlength : (buf.drop (pgsize - va.toNat % pgsize)).length = buf.length - (pgsize - va.toNat % pgsize) :=
        List.length_drop
      have hmeets : ∀ k, Meets (pgrounddown va + 4096) (buf.drop (pgsize - va.toNat % pgsize)).length k ↔
          Meets va buf.length k ∧ k ≠ va.toNat / pgsize := by
        intro k
        rw [hlength]
        exact meets_next htop hmore
      -- where the rest stops, the whole range does
      have hlater : ∀ k, StopsAt (s.setPage q ((s.page q).copyIn (va.toNat % pgsize) (pgsize - va.toNat % pgsize)
          fun k => buf.getD k 0)) d (pgrounddown va + 4096) (buf.drop (pgsize - va.toNat % pgsize)).length k →
            StopsAt s d va buf.length k := by
        rintro k ⟨hk, hnone, hbefore⟩
        rw [hframe] at hnone
        refine ⟨((hmeets k).mp hk).1, hnone, fun k' hk' hk'meets => ?_⟩
        by_cases heq : k' = va.toNat / pgsize
        · rw [heq, hq]
          simp
        · rw [← hframe]
          exact hbefore k' hk' ((hmeets k').mpr ⟨hk'meets, heq⟩)
      refine wp_mono (ih hwrite ?_ ?_) (fun r s' hr => ?_) fun _ he => ?_
      · rw [hnat, hlength]
        unfold pgsize at *
        omega
      · rw [hnat, hlength]
        omega
      · cases r with
        | true =>
          intro q' hq'
          have hrest : s'.page q' = _ := hr q' fun k hk => by
            rw [hframe]
            exact hq' k ((hmeets k).mp hk).1
          rw [hrest]
          refine setPage_page_ne ?_ _
          rintro rfl
          exact hq' _ hfirst hq
        | false =>
          obtain ⟨k, hk, hm⟩ := hr
          exact ⟨k, hlater k hk, fun hmissing => hm ((hdir _ k).mpr hmissing)⟩
      · obtain ⟨k, hk, hm⟩ := he
        exact ⟨k, hlater k hk, (hdir _ k).mp hm⟩

/-- `copyout` follows a null pointer only where the range meets a page without a table, or wraps around. -/
theorem wp_copyout {Q : Bool → Memory → Prop} {E : Panic → Prop} {w : Scope} (h : Region L w s dirs held) (hd : d ∈ dirs)
    (hnull : (va.toNat + buf.length ≤ 2 ^ 32 → ∃ k, Meets va buf.length k ∧ Missing s d k) → E .nullPointer)
    (hfail : ∀ s', Region L w s' dirs held → Vm.Kept s s' d → Q false s')
    (hdone : ∀ s', Region L w s' dirs held → Vm.Kept s s' d → copyout (view s d) va buf = some (view s' d) → Q true s') :
    wp (Vm.copyout d va buf) Q E s := by
  have hview : wp (Vm.copyout d va buf) Q (fun e => e = .nullPointer) s := wp_copyoutLoop_view h hd rfl hfail hdone
  by_cases htop : va.toNat + buf.length ≤ 2 ^ 32
  · have hmod : va.toNat % pgsize < pgsize := Nat.mod_lt _ (by decide)
    have hloop := wp_copyoutLoop (n := buf.length / pgsize + 2) h.isolated hd (by unfold pgsize at *; omega) htop
    refine wp_mono (wp_and hloop hview) (fun _ _ hr => hr.2) fun e he => ?_
    obtain ⟨⟨k, hstops, hmissing⟩, rfl⟩ := he
    exact hnull fun _ => ⟨k, hstops.1, hmissing⟩
  · refine wp_mono hview (fun _ _ hr => hr) fun e he => ?_
    rw [he]
    exact hnull fun hle => absurd hle htop

/-- The bytes of the range are the buffer's, and no other byte of memory has changed. -/
structure CopiedOut (s s' : Memory) (d : Nat) (va : Word) (buf : List UInt8) : Prop where
  view : view s' d = { view s d with byte := store (view s d).byte va buf }
  other : ∀ q, (∀ k, Meets va buf.length k → frame s d k ≠ some q) → s'.page q = s.page q

/-- The pages of the range are all for the user exactly when the copy succeeds, and then it copies. -/
def CopiesExactly (s : Memory) (d : Nat) (va : Word) (buf : List UInt8) : Prop :=
  ∃ r s', Vm.copyout d va buf s = .ok (r, s') ∧ (r = true ↔ ∀ k, Meets va buf.length k → frame s d k ≠ none) ∧
    (r = true → CopiedOut s s' d va buf)

theorem copyout_copies_iff {rest : Multiset Nat} (h : Isolated L s (d ::ₘ rest) held)
    (htop : va.toNat + buf.length ≤ 2 ^ 32) :
    CopiesExactly s d va buf ↔ ∀ k, Meets va buf.length k → Missing s d k →
      ∃ k' < k, Meets va buf.length k' ∧ frame s d k' = none := by
  have hd : d ∈ d ::ₘ rest := Multiset.mem_cons_self d rest
  have hmod : va.toNat % pgsize < pgsize := Nat.mod_lt _ (by decide)
  have hloop := wp_copyoutLoop (n := buf.length / pgsize + 2) h hd (by unfold pgsize at *; omega) htop
  have hview : wp (Vm.copyout d va buf) (fun r s' => r = true → copyout (view s d) va buf = some (view s' d)) (fun _ => True) s :=
    wp_copyoutLoop_view h.region hd trivial (fun _ _ _ hr => by cases hr) fun s' _ _ hcopy _ => hcopy
  have hboth := wp_and hloop hview
  unfold CopiesExactly
  change wp (Vm.copyout d va buf) _ _ s at hboth
  cases hrun : Vm.copyout d va buf s with
  | error e =>
    obtain ⟨⟨k, ⟨hmeets, -, hbefore⟩, hmissing⟩, -⟩ := wp_error hboth hrun
    constructor
    · rintro ⟨r, s', hok, -⟩
      cases hok
    · intro hcond
      obtain ⟨k', hk', hmeets', hnone⟩ := hcond k hmeets hmissing
      exact absurd hnone (hbefore k' hk' hmeets')
  | ok p =>
    obtain ⟨r, s'⟩ := p
    obtain ⟨hr, hcopy⟩ := wp_ok hboth hrun
    rw [← hrun, exists_run_iff hrun]
    cases r with
    | true =>
      obtain ⟨hbytes, huser⟩ := copyout_eq_some htop (hcopy rfl)
      have hall : ∀ k, Meets va buf.length k → frame s d k ≠ none := by
        rintro k ⟨a, hle, hlt, rfl⟩
        have hframe := huser a hle hlt
        rw [view] at hframe
        exact Option.isSome_iff_ne_none.mp hframe
      constructor
      · intro _ k hmeets hmissing
        exact absurd hmissing.frame (hall k hmeets)
      · exact fun _ => ⟨⟨fun _ => hall, fun _ => rfl⟩, fun _ => ⟨hbytes, hr⟩⟩
    | false =>
      obtain ⟨k₀, ⟨hmeets₀, hnone₀, hbefore⟩, hpresent⟩ := hr
      constructor
      · intro _ k hmeets hmissing
        refine ⟨k₀, ?_, hmeets₀, hnone₀⟩
        by_contra hle
        rcases lt_or_eq_of_le (not_lt.mp hle) with hlt | rfl
        · exact hbefore k hlt hmeets hmissing.frame
        · exact hpresent hmissing
      · intro _
        exact ⟨⟨fun hfalse => absurd hfalse Bool.false_ne_true, fun hall => absurd hnone₀ (hall k₀ hmeets₀)⟩,
          fun hfalse => absurd hfalse Bool.false_ne_true⟩

/-- One byte to address 0 of a directory without page tables: the null pointer is followed. -/
theorem copyout_follows_null : Isolated smallLayout (emptyDir [] fun _ => false) {1000} 0 ∧
    (0 : Word).toNat + [(1 : UInt8)].length ≤ 2 ^ 32 ∧
    Vm.copyout 1000 0 [1] (emptyDir [] fun _ => false) = .error .nullPointer :=
  ⟨isolated_emptyDir _ (by decide) (by decide), by decide, error_of_panicOf (by decide +kernel)⟩

/-- One byte to a page of the user's. -/
theorem copyout_copies_iff_onePage : CopiesExactly (onePage 0 0 [] fun _ => false) 1000 0 [1] := by
  have hisolated : Isolated smallLayout (onePage 0 0 [] fun _ => false) {1000} 0 :=
    isolated_onePage (fun _ => false) (by decide) (by decide) (by decide)
  have htop : (0 : Word).toNat + [(1 : UInt8)].length ≤ 2 ^ 32 := by decide
  refine (copyout_copies_iff hisolated htop).mpr fun k hmeets hmissing => ?_
  rw [meets_last (by decide) hmeets, missing_iff] at hmissing
  exact absurd (by decide +kernel) hmissing

end Xv6.Exec
