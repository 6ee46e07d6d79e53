import Xv6.Exec.Copyout
import Xv6.Exec.Layout

/-!
# The stack phase of `exec`

The functions that fill the stack, on page tables. They do on the view of the new directory what `buildStack` does,
or fail. A null pointer is followed only if a page below the end of memory has no page table, or if the strings
reach below address 0.
-/

namespace Xv6.Exec

open Lib Syscall Vm Memory

variable {L : Layout} {s s' : Memory} {w : Scope} {dirs held : Multiset Nat} {d : Nat} {E : Panic → Prop}

theorem missing_kept {k : Nat} (h : Vm.Kept s s' d) : Missing s' d k ↔ Missing s d k := by
  unfold Missing
  simp only [h.1]

/-! ### The strings -/

theorem le_stackDepth (t : Nat) (argv : List CString) : t ≤ stackDepth t argv := by
  induction argv generalizing t with
  | nil => exact le_rfl
  | cons arg argv ih =>
    have hnext := ih ((t + (arg.bytes.length + 1) + 3) / 4 * 4)
    change t ≤ stackDepth ((t + (arg.bytes.length + 1) + 3) / 4 * 4) argv
    omega

theorem toNat_below {sp : Word} {arg : CString} {t sz : Nat} (halign : sz % 4 = 0) (ht : sp.toNat + t = sz)
    (hfit : (t + (arg.bytes.length + 1) + 3) / 4 * 4 ≤ sz) :
    (below sp arg).toNat + (t + (arg.bytes.length + 1) + 3) / 4 * 4 = sz := by
  have hsp := sp.isLt
  have hlen : (BitVec.ofNat 32 (arg.bytes.length + 1)).toNat = arg.bytes.length + 1 :=
    toNat_ofNat_of_le (m := sp.toNat) (by omega) hsp
  rw [toNat_align, BitVec.toNat_sub_of_le (by rw [BitVec.le_def, hlen]; omega), hlen]
  omega

/-- Memory below `sz` in which no page lacks its table. -/
def Tabled (s : Memory) (d sz : Nat) : Prop := ∀ k, Missing s d k → sz ≤ pgsize * k

theorem Tabled.kept {sz : Nat} (h : Tabled s d sz) (hk : Vm.Kept s s' d) : Tabled s' d sz := fun k hmissing =>
  h k ((missing_kept hk).mp hmissing)

theorem Tabled.not_meets {sz k : Nat} {va : Word} {buf : List UInt8} (h : Tabled s d sz) (htop : va.toNat + buf.length ≤ sz)
    (hmeets : Meets va buf.length k) : ¬Missing s d k := by
  intro hmissing
  obtain ⟨a, -, hlt, rfl⟩ := hmeets
  have hbeyond := h _ hmissing
  unfold pgsize at hbeyond
  omega

theorem wp_copyout_below {Q : Bool → Memory → Prop} {va : Word} {buf : List UInt8} (sz : Nat) (h : Region L w s dirs held)
    (hd : d ∈ dirs) (hnull : ¬(Tabled s d sz ∧ va.toNat + buf.length ≤ sz ∧ sz ≤ 2 ^ 32) → E .nullPointer)
    (hfail : ∀ s', Region L w s' dirs held → Vm.Kept s s' d → Q false s')
    (hdone : ∀ s', Region L w s' dirs held → Vm.Kept s s' d → copyout (view s d) va buf = some (view s' d) → Q true s') :
    wp (Vm.copyout d va buf) Q E s := by
  refine wp_copyout h hd (fun hmeets => hnull ?_) hfail hdone
  rintro ⟨htabled, htop, hsz⟩
  obtain ⟨k, hk, hmissing⟩ := hmeets (htop.trans hsz)
  exact htabled.not_meets htop hk hmissing

theorem wp_pushStrings {Q : Option (Word × List Word) → Memory → Prop} {argv : List CString} {argc t sz : Nat} {sp : Word}
    {us : List Word} (h : Region L w s dirs held) (hd : d ∈ dirs) (halign : sz % 4 = 0) (hsz : sz ≤ 2 ^ 32)
    (ht : sp.toNat + t = sz ∨ E .nullPointer) (hnull : ¬(Tabled s d sz ∧ stackDepth t argv ≤ sz) → E .nullPointer)
    (hfail : ∀ s', Region L w s' dirs held → Q none s')
    (hdone : ∀ s' sp' us', Region L w s' dirs held → Vm.Kept s s' d →
      pushArgs argv argc (view s d) sp us = some (view s' d, sp', us') → Q (some (sp', us')) s') :
    wp (pushStrings d argv argc sp us) Q E s := by
  induction argv generalizing s argc sp us t with
  | nil => exact hdone s sp us h (.refl s d) rfl
  | cons arg argv ih =>
    have hdepth := le_stackDepth ((t + (arg.bytes.length + 1) + 3) / 4 * 4) argv
    change ¬(Tabled s d sz ∧ stackDepth ((t + (arg.bytes.length + 1) + 3) / 4 * 4) argv ≤ sz) → _ at hnull
    have hnext : (below sp arg).toNat + (t + (arg.bytes.length + 1) + 3) / 4 * 4 = sz ∨ E .nullPointer := by
      rcases ht with ht | herr
      · by_cases hfit : (t + (arg.bytes.length + 1) + 3) / 4 * 4 ≤ sz
        · exact .inl (toNat_below halign ht hfit)
        · exact .inr (hnull fun hall => hfit (hdepth.trans hall.2))
      · exact .inr herr
    unfold pushStrings
    rw [wp_ite]
    split
    · exact hfail s h
    · rename_i hmax
      rw [wp_bind]
      refine wp_copyout_below sz h hd (fun hcopy => ?_) (fun s' hs' _ => hfail s' hs') fun s' hs' hk hcopy => ?_
      · rcases hnext with hat | herr
        · refine hnull fun hall => hcopy ⟨hall.1, ?_, hsz⟩
          change (below sp arg).toNat + _ ≤ _
          rw [List.length_append, List.length_singleton]
          omega
        · exact herr
      · refine ih hs' hnext (fun hall => hnull fun hs => hall ⟨hs.1.kept hk, hs.2⟩) fun s'' sp' us' hs'' hk' hpush =>
          hdone s'' sp' us' hs'' (hk.trans hk') ?_
        rw [pushArgs, if_neg hmax]
        simp only [hcopy]
        exact hpush

/-! ### The whole stack -/

theorem wp_copyStack {Q : Option Word → Memory → Prop} {img : Image} {argv : List CString} (h : Region L w s dirs held)
    (hd : d ∈ dirs) (himg : img.space = view s d)
    (hnull : ¬(Tabled s d img.sz.toNat ∧ stackDepth implicitExit.length argv ≤ img.sz.toNat) → E .nullPointer)
    (hfail : ∀ s', Region L w s' dirs held → Q none s')
    (hdone : ∀ s' esp, Region L w s' dirs held → buildStack img argv = some ⟨view s' d, img.sz, esp⟩ → Q (some esp) s') :
    wp (copyStack d img.sz argv) Q E s := by
  have hsz := img.sz.isLt
  have hroom := img.room
  have haligned := img.aligned
  have hcodeAt := img.codeAt
  unfold copyStack
  rw [wp_bind]
  refine wp_copyout_below img.sz.toNat h hd (fun hcopy => hnull fun hall => hcopy ⟨hall.1, hcodeAt.le, hsz.le⟩)
    (fun s' hs' _ => hfail s' hs') fun s₁ hs₁ hk₁ hcode => ?_
  rw [← himg] at hcode
  simp only [if_true, wp_bind]
  refine wp_pushStrings hs₁ hd (by unfold pgsize at haligned; omega) hsz.le (.inl hcodeAt)
    (fun hpush => hnull fun hall => hpush ⟨hall.1.kept hk₁, hall.2⟩) (fun s' hs' => hfail s' hs')
    fun s₂ sp args hs₂ hk₂ hargs => ?_
  -- the strings are in the last page, so there is room below them for the words
  obtain ⟨hon, hcount, hfew⟩ := (OnStack.start hcode).pushArgs hargs
  have hbottom := hon.bottom
  have htop := hon.top
  have hfew' : argv.length ≤ maxarg := by simpa using hfew (Nat.zero_le _)
  unfold maxarg at hfew'
  have hwords : (BitVec.ofNat 32 ((3 + argv.length + 1) * 4)).toNat = (3 + argv.length + 1) * 4 :=
    toNat_ofNat_of_le (m := 144) (by omega) (by decide)
  simp only [wp_bind]
  refine wp_copyout_below img.sz.toNat hs₂ hd (fun hcopy => hnull fun hall =>
    hcopy ⟨(hall.1.kept hk₁).kept hk₂, ?_, hsz.le⟩) (fun s' hs' _ => hfail s' hs') fun s₃ hs₃ _ hlast => hdone s₃ _ hs₃ ?_
  · rw [length_words, BitVec.toNat_sub_of_le (by rw [BitVec.le_def, hwords]; unfold pgsize at *; omega), hwords]
    simp only [List.length_append, List.length_cons, List.length_nil, hcount]
    unfold pgsize at *
    omega
  · unfold buildStack
    simp only [hcode, hargs, hlast]

/-! ### The page below -/

theorem wp_clearpteu {Q : PUnit → Memory → Prop} {uva : Word} (h : Region L w s dirs held) (hd : d ∈ dirs)
    (hE : Missing s d (uva.toNat / pgsize) → E .clearpteu)
    (hQ : ∀ s', Region L w s' dirs held → frame s' d (uva.toNat / pgsize) = none →
      (∀ i, s'.entry d i = s.entry d i) → Q ⟨⟩ s') : wp (clearpteu d uva) Q E s := by
  unfold clearpteu
  rw [wp_bind, wp_walkpgdir]
  by_cases hp : Present (s.entry d (pdx uva))
  swap
  · rw [if_neg hp]
    exact hE ((missing_iff uva).mpr hp)
  rw [if_pos hp]
  simp only [wp_modify]
  have hne := (ne_of_mem_pointedBy (h.nodup hd) (mem_pointedBy hp)).symm
  have hsame : ∀ i, (s.setEntry (pteAddr (s.entry d (pdx uva))) (ptx uva)
      (s.entry (pteAddr (s.entry d (pdx uva))) (ptx uva) &&& ~~~pteU)).entry d i = s.entry d i := fun i => by
    rw [entry_setEntry_of_ne s hne]
  refine hQ _ (h.setPte hd hp ?_ ⟨fun _ _ => ?_, fun hlow hnot => ?_⟩) ?_ hsame
  · simp only [entryPages, present_clear, pteAddr_clear]
  · rw [BitVec.and_assoc]
    simp [pteU]
  · rw [present_clear] at hnot
    rw [(h.isolated.tidy d hd).absent _ _ hlow hp hnot]
    rfl
  · refine Option.eq_none_iff_forall_ne_some.mpr fun q hq => ?_
    obtain ⟨i, j, hpage, -, -, huser, -⟩ := frame_eq_some.mp hq
    obtain ⟨rfl, rfl⟩ := index_eq hpage
    rw [hsame, entry_setEntry_same, BitVec.and_assoc] at huser
    simp [pteU] at huser

/-- A page directory whose last page but one is closed to the user is an image. -/
theorem exists_image {sz : Word} (h : Isolated L s dirs held) (hd : d ∈ dirs) (haligned : sz.toNat % pgsize = 0)
    (hroom : 2 * pgsize ≤ sz.toNat) (hlow : sz.toNat < kernbase) (hguard : frame s d (sz.toNat / pgsize - 2) = none) :
    ∃ img : Image, img.space = view s d ∧ img.sz = sz := by
  have hkernel : ∀ k, kernbase / pgsize ≤ k → (view s d).user k = false := by
    intro k hk
    have hnone : frame s d k = none := Option.eq_none_iff_forall_ne_some.mpr fun q hq =>
      absurd (mem_userPages_of_frame h hd hq).2 (not_lt.mpr hk)
    rw [view]
    simp only [hnone, Option.isSome_none]
  have hclosed : (view s d).user (sz.toNat / pgsize - 2) = false := by
    rw [view]
    simp only [hguard, Option.isSome_none]
  exact ⟨⟨view s d, sz, haligned, hroom, hlow, hclosed, hkernel⟩, rfl, rfl⟩

/-- In memory whose last page but one is closed to the user, with a table for each page, `exec` fills the stack of a program
about to start, or it fails; it fails if all that is to be there is more than a page. -/
theorem copyStack_makes_stack {rest : Multiset Nat} (sz : Word) (argv : List CString) (h : Isolated L s (d ::ₘ rest) held)
    (haligned : sz.toNat % pgsize = 0) (hroom : 2 * pgsize ≤ sz.toNat) (hlow : sz.toNat < kernbase)
    (hguard : frame s d (sz.toNat / pgsize - 2) = none) (htables : Tabled s d sz.toNat) (hsmall : argBytes argv < sz.toNat) :
    ∃ r s', copyStack d sz argv s = .ok (r, s') ∧
      (∀ esp, r = some esp → ∃ code vec ptrs, StackFor argv (view s' d).byte sz esp code vec ptrs) ∧
      (pgsize < stackBytes argv → r = none) := by
  have hd : d ∈ d ::ₘ rest := Multiset.mem_cons_self d rest
  obtain ⟨img, himg, rfl⟩ := exists_image h hd haligned hroom hlow hguard
  have hdepth : stackDepth implicitExit.length argv ≤ img.sz.toNat := stackDepth_le (by unfold pgsize at haligned; omega) hsmall
  refine exists_ok (wp_copyStack (E := fun _ => False) h.region hd himg (fun hnot => hnot ⟨htables, hdepth⟩)
    (fun s' _ => ?_) fun s' esp _ hbuild => ?_) fun _ => id
  · exact ⟨fun esp hesp => absurd hesp (by simp), fun _ => rfl⟩
  · refine ⟨fun esp' hesp => ?_, fun hbig => absurd (stackBytes_le_of_buildStack hbuild) (not_le.mpr hbig)⟩
    obtain rfl := Option.some.inj hesp
    exact (buildStack_stackFor hbuild).2

def lsName : CString := ⟨[108, 115], by decide, by decide⟩

/-- The stack of the program `ls` without arguments, below address 8192. -/
theorem copyStack_makes_stack_ls : ∃ s', copyStack 1000 8192 [lsName] (onePage 0 1 [] fun _ => false) =
    .ok (some 8160, s') ∧ ∃ code vec ptrs, StackFor [lsName] (view s' 1000).byte 8192 8160 code vec ptrs := by
  have hisolated : Isolated smallLayout (onePage 0 1 [] fun _ => false) {1000} 0 :=
    isolated_onePage (fun _ => false) (by decide) (by decide) (by decide)
  have htables : Tabled (onePage 0 1 [] fun _ => false) 1000 (8192 : Word).toNat := by
    rintro k ⟨i, hi, habsent⟩
    by_contra hlow
    have hlow' : pgsize * k < 8192 := not_le.mp hlow
    obtain rfl : i = 0 := Fin.ext (by unfold pgsize at hlow'; change i.val = 0; omega)
    exact habsent (by decide +kernel)
  obtain ⟨s₁, hrun, -⟩ := exists_run (f := copyStack 1000 8192 [lsName]) (s := onePage 0 1 [] fun _ => false)
    (a := some 8160) (g := fun _ => ()) (b := ()) (by decide +kernel)
  obtain ⟨r, s', hrun', hstack, -⟩ := copyStack_makes_stack 8192 [lsName] hisolated (by decide) (by decide) (by decide)
    (by decide +kernel) htables (by decide)
  obtain ⟨rfl, rfl⟩ := Prod.mk.inj (Except.ok.inj (hrun'.symm.trans hrun))
  exact ⟨s', hrun', hstack 8160 rfl⟩

end Xv6.Exec
