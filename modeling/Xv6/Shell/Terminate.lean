import Xv6.Shell.Line

/-!
# NUL termination

`nulterminate` writes a NUL behind every argument and every file name of the command, into the line that holds them
all. Behind a word stands a blank, a symbol or the end of the line, and none of these is inside of a word. So the
writes leave every word as it was, and end it.
-/

namespace Xv6.Shell

/-- The string at a position of a buffer. -/
def cstring (b : List UInt8) (i : Nat) : List UInt8 := (b.drop i).takeWhile (· ≠ 0)

/-- The text between the start and the end of a word. -/
def text (b : List UInt8) (w : Span) : List UInt8 := (b.drop w.1).take (w.2 - w.1)

/-- The arguments and file names of a command, in the order in which `nulterminate` comes to them. -/
def Cmd.spans : Cmd → List Span
  | .exec argv => argv
  | .redir cmd file _ _ => cmd.spans ++ [file]
  | .pipe left right | .list left right => left.spans ++ right.spans
  | .back cmd => cmd.spans

/-! ### The words of a command -/

/-- The span of a word among the tokens. -/
def Named (ts : List Token) (w : Span) : Prop := ∃ t ∈ ts, t.kind = .word ∧ t.span = w

section

variable {ts : List Token} {rs : List Redirection}

theorem Named.mono {ts' : List Token} {w : Span} (h : Named ts w) (hsub : ts ⊆ ts') : Named ts' w := by
  obtain ⟨t, ht, hkind, hspan⟩ := h
  exact ⟨t, hsub ht, hkind, hspan⟩

theorem spans_wrap (cmd : Cmd) (rs : List Redirection) : (cmd.wrap rs).spans = cmd.spans ++ rs.map Redirection.file := by
  induction rs generalizing cmd with
  | nil => exact (List.append_nil _).symm
  | cons r rs ih =>
    rw [show cmd.wrap (r :: rs) = (Cmd.redir cmd r.file r.mode r.fd).wrap rs from rfl, ih, Cmd.spans, List.append_assoc]
    rfl

theorem spans_backs (cmd : Cmd) (n : Nat) : (cmd.backs n).spans = cmd.spans := by
  induction n generalizing cmd with
  | zero => rfl
  | succ n ih => exact ih (.back cmd)

theorem Redirs.named (h : Redirs ts rs) : ∀ w ∈ rs.map Redirection.file, Named ts w := by
  induction h with
  | nil => simp
  | @cons op file mode fd ts rs hop hfile _ ih =>
    intro w hw
    rcases List.mem_cons.mp hw with rfl | hw
    · exact ⟨file, by simp, hfile, rfl⟩
    · exact (ih w hw).mono (by simp)

theorem Words.named {ws : List Span} (h : Words ts ws rs) : ∀ w ∈ ws ++ rs.map Redirection.file, Named ts w := by
  induction h with
  | nil => simp
  | @cons t ts ts' ws rs rs' ht hredirs _ ih =>
    intro w hw
    simp only [List.cons_append, List.map_append, List.mem_cons, List.mem_append] at hw
    rcases hw with rfl | hw | hw | hw
    · exact ⟨t, by simp, ht, rfl⟩
    · exact (ih w (List.mem_append.mpr (.inl hw))).mono (by simp)
    · exact (hredirs.named w hw).mono (by intro; simp; tauto)
    · exact (ih w (List.mem_append.mpr (.inr hw))).mono (by simp)

theorem Derives.named {p : Phrase} {cmd : Cmd} (h : Derives p ts cmd) : ∀ w ∈ cmd.spans, Named ts w := by
  induction h with
  | words hredirs hwords =>
    intro w hw
    rw [spans_wrap, List.map_append] at hw
    simp only [Cmd.spans, List.mem_append] at hw
    rcases hw with hw | hw | hw
    · exact (hwords.named w (by simp [hw])).mono (by simp)
    · exact (hredirs.named w hw).mono (by simp)
    · exact (hwords.named w (by rw [List.mem_append]; exact .inr hw)).mono (by simp)
  | block _ _ _ hredirs ih =>
    intro w hw
    rw [spans_wrap] at hw
    rcases List.mem_append.mp hw with hw | hw
    · exact (ih w hw).mono (by intro; simp; tauto)
    · exact (hredirs.named w hw).mono (by intro; simp; tauto)
  | exec _ ih => exact ih
  | pipe _ _ _ ihl ihr =>
    intro w hw
    rcases List.mem_append.mp hw with hw | hw
    · exact (ihl w hw).mono (by simp)
    · exact (ihr w hw).mono (by intro; simp; tauto)
  | line _ _ ih =>
    intro w hw
    rw [spans_backs] at hw
    exact (ih w hw).mono (by simp)
  | list _ _ _ _ ihl ihr =>
    intro w hw
    rcases List.mem_append.mp hw with hw | hw
    · rw [spans_backs] at hw
      exact (ihl w hw).mono (by simp)
    · exact (ihr w hw).mono (by intro; simp; tauto)

end

/-! ### The bytes of a word -/

def Plain (c : UInt8) : Prop := c ≠ 0 ∧ (!whitespace.contains c && !symbols.contains c) = true

/-- The bytes of a word are plain, and the one behind it is not. -/
structure IsWord (b : List UInt8) (w : Span) : Prop where
  le : w.1 ≤ w.2
  inside : ∀ i, w.1 ≤ i → i < w.2 → Plain (byte b i)
  behind : ¬Plain (byte b w.2)

section

variable {b : List UInt8} {es s n : Nat}

theorem scan_inside {p : UInt8 → Bool} {i : Nat} (hs : s ≤ i) (hi : i < scan p b n s) : p (byte b i) = true := by
  induction n generalizing s with
  | zero => exact absurd hi (not_lt.mpr hs)
  | succ n ih =>
    rw [scan] at hi
    split at hi
    · rename_i hp
      rcases hs.eq_or_lt with rfl | hlt
      · exact hp
      · exact ih hlt hi
    · exact absurd hi (not_lt.mpr hs)

theorem isWord_gettoken (hb : Terminated b es) (hs : s ≤ es) (h : (gettoken b es s).1.kind = .word) :
    IsWord b (gettoken b es s).1.span := by
  have hskip := skip_le (b := b) hs
  have hkind : (tokenAt b es (skip b es s)).1 = .word := h
  show IsWord b (skip b es s, (tokenAt b es (skip b es s)).2)
  have hcases := tokenAt_cases b es (skip b es s)
  rw [hkind] at hcases
  generalize (tokenAt b es (skip b es s)).2 = e at hcases
  cases hcases with
  | symbol _ _ hword => exact absurd rfl hword
  | word hzero hsymbol =>
    have hle := scan_le (fun c => !whitespace.contains c && !symbols.contains c) b (es - skip b es s) (skip b es s)
    refine ⟨le_scan .., fun i hfrom hto => ⟨hb.nonzero i (by omega), scan_inside hfrom hto⟩, fun hplain => ?_⟩
    rcases hle.lt_or_eq with hlt | heq
    · have hstop := hplain.2
      rw [scan_stop hlt] at hstop
      cases hstop
    · refine hplain.1 ?_
      show byte b (scan _ _ _ _) = 0
      rw [heq, Nat.add_sub_cancel' hskip, hb.zero]

theorem mem_tokensFrom (hb : Terminated b es) (hs : s ≤ es) {t : Token} (ht : t ∈ tokensFrom b es n s) :
    ∃ s' ≤ es, t = (gettoken b es s').1 := by
  induction n generalizing s with
  | zero => cases ht
  | succ n ih =>
    simp only [tokensFrom] at ht
    split at ht
    · cases ht
    · rcases List.mem_cons.mp ht with rfl | ht
      · exact ⟨s, hs, rfl⟩
      · exact ih (gettoken_tail hb hs).2 ht

theorem isWord_of_named {w : Span} (h : Named (tokens b) w) : IsWord b w := by
  obtain ⟨t, ht, hkind, rfl⟩ := h
  obtain ⟨s, hs, rfl⟩ := mem_tokensFrom (strlen_terminated b) (Nat.zero_le _) ht
  exact isWord_gettoken (strlen_terminated b) hs hkind

/-! ### The writes -/

theorem byte_set (b : List UInt8) (j i : Nat) : byte (b.set j 0) i = if i = j then 0 else byte b i := by
  simp only [byte, List.getD_eq_getElem?_getD, List.getElem?_set]
  by_cases hij : j = i
  · subst hij
    by_cases hlt : j < b.length <;> simp [hlt]
  · simp [hij, Ne.symm hij]

theorem nulterminate_eq (cmd : Cmd) (b : List UInt8) : nulterminate cmd b = cmd.spans.foldl (fun b w => b.set w.2 0) b := by
  induction cmd generalizing b with
  | exec argv => rfl
  | redir cmd file mode fd ih => rw [nulterminate, Cmd.spans, List.foldl_append, ih]; rfl
  | pipe left right ihl ihr => rw [nulterminate, Cmd.spans, List.foldl_append, ihl, ihr]
  | list left right ihl ihr => rw [nulterminate, Cmd.spans, List.foldl_append, ihl, ihr]
  | back cmd ih => exact ih b

theorem byte_nulterminate (cmd : Cmd) (b : List UInt8) (i : Nat) :
    byte (nulterminate cmd b) i = if i ∈ cmd.spans.map Prod.snd then 0 else byte b i := by
  rw [nulterminate_eq]
  induction cmd.spans generalizing b with
  | nil => simp
  | cons w ws ih =>
    rw [List.foldl_cons, ih, byte_set]
    by_cases hw : i = w.2
    · simp [hw]
    · simp only [List.map_cons, List.mem_cons, hw, false_or, if_false]

theorem byte_eq_headD (b : List UInt8) (i : Nat) : byte b i = (b.drop i).headD 0 := by
  rw [byte, List.getD_eq_getElem?_getD, List.headD_eq_head?_getD, List.head?_drop]

theorem drop_of_byte {b : List UInt8} {i : Nat} (h : byte b i ≠ 0) : b.drop i = byte b i :: b.drop (i + 1) := by
  rw [byte_eq_headD] at h ⊢
  cases hdrop : b.drop i with
  | nil =>
    rw [hdrop] at h
    exact absurd rfl h
  | cons c l => rw [← List.drop_drop, hdrop]; rfl

theorem cstring_eq_text {b b' : List UInt8} {i k : Nat} (hnonzero : ∀ j, i ≤ j → j < i + k → byte b j ≠ 0)
    (hsame : ∀ j, i ≤ j → j < i + k → byte b' j = byte b j) (hzero : byte b' (i + k) = 0) : cstring b' i = text b (i, i + k) := by
  rw [text, Nat.add_sub_cancel_left]
  induction k generalizing i with
  | zero =>
    rw [byte_eq_headD] at hzero
    rw [List.take_zero, cstring]
    cases hdrop : b'.drop i with
    | nil => rfl
    | cons c l =>
      rw [Nat.add_zero, hdrop] at hzero
      exact List.takeWhile_cons_of_neg (by simpa using hzero)
  | succ k ih =>
    have hfirst := hsame i le_rfl (by omega)
    have hne := hnonzero i le_rfl (by omega)
    have hrec := ih (i := i + 1) (fun j hfrom hto => hnonzero j (by omega) (by omega)) (fun j hfrom hto => hsame j (by omega) (by omega))
      (by rw [← hzero]; congr 1; omega)
    rw [cstring, drop_of_byte (by rwa [hfirst]), drop_of_byte hne, hfirst, List.takeWhile_cons_of_pos (by simpa using hne), List.take_succ_cons]
    exact congrArg _ hrec

end

/-- After `nulterminate` every argument and file name, read as a string from the line, is the text that was parsed, and
the command is the one that the line derives. -/
theorem nulterminate_preserves {b b' : List UInt8} {cmd : Cmd} (h : parsecmd b = .ok (cmd, b')) :
    Derives .line (tokens b) cmd ∧ ∀ w ∈ cmd.spans, cstring b' w.1 = text b w := by
  obtain ⟨cmd', hderives, hparsed⟩ | ⟨-, p, hpanic⟩ := parsecmd_cases b
  swap
  · rw [hpanic] at h
    cases h
  obtain ⟨rfl, rfl⟩ := Prod.mk.inj (Except.ok.inj (hparsed.symm.trans h))
  have hword : ∀ w ∈ cmd'.spans, IsWord b w := fun w hw => isWord_of_named (hderives.named w hw)
  refine ⟨hderives, ?_⟩
  rintro ⟨i, e⟩ hw
  obtain ⟨hle, hinside, -⟩ := hword _ hw
  obtain ⟨k, rfl⟩ : ∃ k, e = i + k := Nat.exists_eq_add_of_le hle
  refine cstring_eq_text (fun j hfrom hto => (hinside j hfrom hto).1) (fun j hfrom hto => ?_) ?_
  · -- no end of a word is inside of this one
    rw [byte_nulterminate, if_neg]
    intro hmem
    obtain ⟨w', hw', rfl⟩ := List.mem_map.mp hmem
    exact (hword w' hw').behind (hinside _ hfrom hto)
  · rw [byte_nulterminate, if_pos (List.mem_map.mpr ⟨_, hw, rfl⟩)]

/-- The line `cat<f`. -/
theorem nulterminate_preserves_cat : ∃ b', parsecmd ("cat<f".toList.map code) = .ok (.redir (.exec [(0, 3)]) (4, 5) oRdonly 0, b') ∧
    cstring b' 0 = "cat".toList.map code ∧ cstring b' 4 = "f".toList.map code := by
  have hparsed : parsecmd ("cat<f".toList.map code) =
      .ok (.redir (.exec [(0, 3)]) (4, 5) oRdonly 0, "cat\x00f".toList.map code) := by decide +kernel
  obtain ⟨-, hspans⟩ := nulterminate_preserves hparsed
  exact ⟨_, hparsed, hspans (0, 3) (by decide), hspans (4, 5) (by decide)⟩

end Xv6.Shell
