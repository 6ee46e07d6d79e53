import Xv6.Shell.Grammar

/-!
# What the parser makes of a line

The parser on the bytes of a line does what the parser on its tokens does. So it gives a command exactly for the lines
that derive from the grammar, panics on every other line, and looks at no byte behind the NUL that ends the line.
-/

namespace Xv6.Shell

/-! ### The tokens of a line -/

/-- The bytes before `es` are those of a string that ends there. -/
structure Terminated (b : List UInt8) (es : Nat) : Prop where
  nonzero : ∀ i < es, byte b i ≠ 0
  zero : byte b es = 0

theorem strlen_terminated (b : List UInt8) : Terminated b (strlen b) := by
  induction b with
  | nil => exact ⟨fun i hi => absurd hi (Nat.not_lt_zero i), rfl⟩
  | cons c b ih =>
    by_cases hc : c = 0
    · have hlen : strlen (c :: b) = 0 := by simp [strlen, hc]
      rw [hlen]
      exact ⟨fun i hi => absurd hi (Nat.not_lt_zero i), hc⟩
    · have hlen : strlen (c :: b) = strlen b + 1 := by simp [strlen, hc]
      rw [hlen]
      refine ⟨fun i hi => ?_, ih.zero⟩
      cases i with
      | zero => exact hc
      | succ i => exact ih.nonzero i (by omega)

theorem le_scan (p : UInt8 → Bool) (b : List UInt8) (n s : Nat) : s ≤ scan p b n s := by
  induction n generalizing s with
  | zero => exact le_rfl
  | succ n ih =>
    rw [scan]
    split
    · exact (Nat.le_succ s).trans (ih (s + 1))
    · exact le_rfl

theorem scan_le (p : UInt8 → Bool) (b : List UInt8) (n s : Nat) : scan p b n s ≤ s + n := by
  induction n generalizing s with
  | zero => exact le_rfl
  | succ n ih =>
    rw [scan]
    split
    · have := ih (s + 1)
      omega
    · omega

variable {n : Nat}

theorem scan_stop {p : UInt8 → Bool} {b : List UInt8} {s : Nat} (h : scan p b n s < s + n) :
    p (byte b (scan p b n s)) = false := by
  induction n generalizing s with
  | zero => exact absurd h (lt_irrefl s)
  | succ n ih =>
    rw [scan] at h ⊢
    split at h
    · rename_i hp
      rw [if_pos hp]
      exact ih (by omega)
    · rename_i hp
      rw [if_neg hp]
      exact Bool.eq_false_of_not_eq_true hp

theorem scan_of_not {p : UInt8 → Bool} {b : List UInt8} {s : Nat} (h : p (byte b s) = false) (n : Nat) : scan p b n s = s := by
  cases n with
  | zero => rfl
  | succ n => rw [scan, if_neg (by rw [h]; decide)]

section

variable {b : List UInt8} {es s : Nat}

theorem skip_le (hs : s ≤ es) : skip b es s ≤ es := by
  have := scan_le whitespace.contains b (es - s) s
  rw [skip]
  omega

theorem skip_stop (hb : Terminated b es) (hs : s ≤ es) : whitespace.contains (byte b (skip b es s)) = false := by
  rcases (skip_le (b := b) hs).lt_or_eq with hlt | heq
  · refine scan_stop ?_
    rw [skip] at hlt
    omega
  · rw [heq, hb.zero]
    decide

theorem skip_skip (hb : Terminated b es) (hs : s ≤ es) : skip b es (skip b es s) = skip b es s :=
  scan_of_not (skip_stop hb hs) _

/-- The byte that a token other than a word starts with. -/
def Tok.lead : Tok → UInt8
  | .eof | .word => 0
  | .bar => code '|'
  | .lparen => code '('
  | .rparen => code ')'
  | .semi => code ';'
  | .amp => code '&'
  | .lt => code '<'
  | .gt | .append => code '>'

theorem Tok.lead_of_ofByte {c : UInt8} {t : Tok} (h : Tok.ofByte? c = some t) : t.lead = c ∧ t ≠ .eof ∧ t ≠ .word := by
  simp only [Tok.ofByte?] at h
  repeat' split at h
  all_goals cases h
  all_goals exact ⟨by subst c; rfl, by decide, by decide⟩

theorem Tok.not_symbol {c : UInt8} (h : Tok.ofByte? c = none) (hgt : c ≠ code '>') : symbols.contains c = false := by
  simp only [Tok.ofByte?] at h
  repeat' split at h
  all_goals cases h
  simp_all [symbols]

inductive TokenAt (b : List UInt8) (es s : Nat) : Tok → Nat → Prop where
  | eof (hzero : byte b s = 0) : TokenAt b es s .eof s
  | symbol {t : Tok} (hlead : t.lead = byte b s) (heof : t ≠ .eof) (hword : t ≠ .word) (hzero : byte b s ≠ 0) : TokenAt b es s t (s + 1)
  | append (hlead : byte b s = code '>') (hnext : byte b (s + 1) = code '>') : TokenAt b es s .append (s + 2)
  | word (hzero : byte b s ≠ 0) (hsymbol : symbols.contains (byte b s) = false) :
      TokenAt b es s .word (scan (fun c => !whitespace.contains c && !symbols.contains c) b (es - s) s)

theorem tokenAt_cases (b : List UInt8) (es s : Nat) : TokenAt b es s (tokenAt b es s).1 (tokenAt b es s).2 := by
  rw [tokenAt]
  by_cases hzero : byte b s = 0
  · rw [if_pos hzero]
    exact .eof hzero
  rw [if_neg hzero]
  cases hsym : Tok.ofByte? (byte b s) with
  | some t =>
    obtain ⟨hlead, heof, hword⟩ := Tok.lead_of_ofByte hsym
    exact .symbol hlead heof hword hzero
  | none =>
    dsimp only
    by_cases hgt : byte b s = code '>'
    · rw [if_pos hgt]
      by_cases hnext : byte b (s + 1) = code '>'
      · rw [if_pos hnext]
        exact .append hgt hnext
      · rw [if_neg hnext]
        exact .symbol (t := .gt) hgt.symm (by decide) (by decide) hzero
    · rw [if_neg hgt]
      exact .word hzero (Tok.not_symbol hsym hgt)

theorem tokenAt_eof (h : (tokenAt b es s).1 = .eof) : byte b s = 0 := by
  have hcases := tokenAt_cases b es s
  rw [h] at hcases
  generalize (tokenAt b es s).2 = e at hcases
  cases hcases with
  | eof hzero => exact hzero
  | symbol _ heof => exact absurd rfl heof

theorem tokenAt_lt (hb : Terminated b es) (hs : s ≤ es) (hspace : whitespace.contains (byte b s) = false)
    (htok : (tokenAt b es s).1 ≠ .eof) : s < (tokenAt b es s).2 ∧ (tokenAt b es s).2 ≤ es := by
  have hlt : byte b s ≠ 0 → s < es := fun hzero => lt_of_le_of_ne hs (by rintro rfl; exact hzero hb.zero)
  generalize (tokenAt b es s).1 = t, (tokenAt b es s).2 = e, tokenAt_cases b es s = hcases at *
  cases hcases with
  | eof => exact absurd rfl htok
  | symbol hlead heof hword hzero => exact ⟨Nat.lt_succ_self s, hlt hzero⟩
  | append hlead hnext =>
    have hfirst := hlt (by rw [hlead]; decide)
    have hsecond : s + 1 ≠ es := by
      intro heq
      rw [heq, hb.zero] at hnext
      exact absurd hnext (by decide)
    omega
  | word hzero hsymbol =>
    have hfirst := hlt hzero
    refine ⟨?_, ?_⟩
    · obtain ⟨n, hn⟩ : ∃ n, es - s = n + 1 := ⟨es - s - 1, by omega⟩
      rw [hn, scan, if_pos (by simp only [hspace, hsymbol]; decide)]
      exact le_scan ..
    · have := scan_le (fun c => !whitespace.contains c && !symbols.contains c) b (es - s) s
      omega

theorem gettoken_skip (hb : Terminated b es) (hs : s ≤ es) : gettoken b es (skip b es s) = gettoken b es s := by
  rw [gettoken, gettoken, skip_skip hb hs]

theorem gettoken_lt (hb : Terminated b es) (hs : s ≤ es) (htok : (gettoken b es s).1.kind ≠ .eof) :
    s < (gettoken b es s).2 ∧ (gettoken b es s).2 ≤ es := by
  obtain ⟨hlt, hle⟩ := tokenAt_lt hb (skip_le hs) (skip_stop hb hs) htok
  have hstart : s ≤ skip b es s := le_scan ..
  have hend : (tokenAt b es (skip b es s)).2 ≤ skip b es (tokenAt b es (skip b es s)).2 := le_scan ..
  exact ⟨(hstart.trans_lt hlt).trans_le hend, skip_le hle⟩

theorem gettoken_eof_iff (hb : Terminated b es) (hs : s ≤ es) : (gettoken b es s).1.kind = .eof ↔ skip b es s = es := by
  have hle := skip_le (b := b) hs
  show (tokenAt b es (skip b es s)).1 = .eof ↔ _
  constructor
  · intro heof
    by_contra hne
    exact hb.nonzero (skip b es s) (by omega) (tokenAt_eof heof)
  · intro heq
    rw [tokenAt, heq, if_pos hb.zero]

def tokensFrom (b : List UInt8) (es : Nat) : Nat → Nat → List Token
  | 0, _ => []
  | n + 1, s =>
    let (tok, s') := gettoken b es s
    if tok.kind = .eof then [] else tok :: tokensFrom b es n s'

def rest (b : List UInt8) (es s : Nat) : List Token := tokensFrom b es (es - s + 1) s

def tokens (b : List UInt8) : List Token := rest b (strlen b) 0

theorem tokensFrom_eq (hb : Terminated b es) {m : Nat} (hs : s ≤ es) (hn : es - s < n) (hm : es - s < m) :
    tokensFrom b es n s = tokensFrom b es m s := by
  induction n generalizing m s with
  | zero => omega
  | succ n ih =>
    obtain ⟨m, rfl⟩ : ∃ k, m = k + 1 := ⟨m - 1, by omega⟩
    simp only [tokensFrom]
    split
    · rfl
    · rename_i htok
      obtain ⟨hlt, hle⟩ := gettoken_lt hb hs htok
      rw [ih hle (m := m) (by omega) (by omega)]

theorem rest_eof (htok : (gettoken b es s).1.kind = .eof) : rest b es s = [] := by
  simp only [rest, tokensFrom, if_pos htok]

theorem rest_cons (hb : Terminated b es) (hs : s ≤ es) (htok : (gettoken b es s).1.kind ≠ .eof) :
    rest b es s = (gettoken b es s).1 :: rest b es (gettoken b es s).2 := by
  obtain ⟨hlt, hle⟩ := gettoken_lt hb hs htok
  simp only [rest, tokensFrom, if_neg htok]
  rw [tokensFrom_eq hb hle (by omega) (by omega : es - (gettoken b es s).2 < es - (gettoken b es s).2 + 1)]
  rfl

theorem rest_skip (hb : Terminated b es) (hs : s ≤ es) : rest b es (skip b es s) = rest b es s := by
  by_cases htok : (gettoken b es s).1.kind = .eof
  · rw [rest_eof htok, rest_eof (by rwa [gettoken_skip hb hs])]
  · rw [rest_cons hb hs htok, rest_cons hb (skip_le hs) (by rwa [gettoken_skip hb hs]), gettoken_skip hb hs]

theorem next_rest (hb : Terminated b es) (hs : s ≤ es) : next (rest b es s) = (gettoken b es s).1.kind := by
  by_cases htok : (gettoken b es s).1.kind = .eof
  · rw [rest_eof htok, htok]
    rfl
  · rw [rest_cons hb hs htok]
    rfl

theorem gettoken_tail (hb : Terminated b es) (hs : s ≤ es) :
    rest b es (gettoken b es s).2 = (rest b es s).tail ∧ (gettoken b es s).2 ≤ es := by
  by_cases htok : (gettoken b es s).1.kind = .eof
  · have hes := (gettoken_eof_iff hb hs).mp htok
    have hend : skip b es es = es := le_antisymm (skip_le le_rfl) (le_scan ..)
    have hnext : (gettoken b es s).2 = es := by
      show skip b es (tokenAt b es (skip b es s)).2 = es
      rw [hes, tokenAt, if_pos hb.zero, hend]
    rw [hnext, rest_eof htok, rest_eof ((gettoken_eof_iff hb le_rfl).mpr hend)]
    exact ⟨rfl, le_rfl⟩
  · rw [rest_cons hb hs htok]
    exact ⟨rfl, (gettoken_lt hb hs htok).2⟩

theorem rest_eq_cons (hb : Terminated b es) (hs : s ≤ es) {t : Token} {ts : List Token} (h : rest b es s = t :: ts) :
    (gettoken b es s).1 = t ∧ rest b es (gettoken b es s).2 = ts ∧ t.kind ≠ .eof := by
  by_cases htok : (gettoken b es s).1.kind = .eof
  · rw [rest_eof htok] at h
    cases h
  · rw [rest_cons hb hs htok] at h
    obtain ⟨rfl, rfl⟩ := List.cons.inj h
    exact ⟨rfl, rfl, htok⟩

/-- A set of symbols: looking for one of them is looking at the kind of the next token. -/
theorem peek_eq (hb : Terminated b es) (hs : s ≤ es) {toks : List Char} (htoks : ∀ c ∈ toks.map code, symbols.contains c = true) :
    peek b es s toks = ((toks.map code).contains (next (rest b es s)).lead, skip b es s) := by
  have hzero : (toks.map code).contains 0 = false := by
    by_contra h
    have hmem := htoks 0 (by simpa using h)
    exact absurd hmem (by decide)
  rw [next_rest hb hs]
  refine Prod.ext ?_ rfl
  show (decide (byte b (skip b es s) ≠ 0) && (toks.map code).contains (byte b (skip b es s))) =
    (toks.map code).contains (tokenAt b es (skip b es s)).1.lead
  generalize (tokenAt b es (skip b es s)).1 = t, (tokenAt b es (skip b es s)).2 = e, tokenAt_cases b es (skip b es s) = hcases
  cases hcases with
  | eof h =>
    rw [h, hzero, Bool.and_false]
    exact hzero.symm
  | symbol hlead heof hword h => simp [hlead, h]
  | append hlead hnext =>
    rw [hlead]
    rfl
  | word h hsymbol =>
    have hnot : (toks.map code).contains (byte b (skip b es s)) = false := by
      by_contra hmem
      rw [htoks _ (by simpa using hmem)] at hsymbol
      cases hsymbol
    rw [hnot, Bool.and_false]
    exact hzero.symm

end

def WellFormed (b : List UInt8) : Prop := ∃ cmd, Derives .line (tokens b) cmd

/-! ### The parser on bytes -/

/-- The parsers stop in the same way, or go on with the same tokens. -/
inductive Sim (b : List UInt8) (es : Nat) : Except Stop (Cmd × Nat) → Except Stop (Cmd × List Token) → Prop where
  | ok (cmd : Cmd) {s : Nat} (hs : s ≤ es) : Sim b es (.ok (cmd, s)) (.ok (cmd, rest b es s))
  | error (e : Stop) : Sim b es (.error e) (.error e)

theorem Sim.bind {b : List UInt8} {es : Nat} {x : Except Stop (Cmd × Nat)} {y : Except Stop (Cmd × List Token)}
    {f : Cmd × Nat → Except Stop (Cmd × Nat)} {g : Cmd × List Token → Except Stop (Cmd × List Token)} (h : Sim b es x y)
    (hf : ∀ cmd s, s ≤ es → Sim b es (f (cmd, s)) (g (cmd, rest b es s))) : Sim b es (x >>= f) (y >>= g) := by
  cases h with
  | ok cmd hs => exact hf cmd _ hs
  | error e => exact .error e

section

variable {b : List UInt8} {es : Nat} (hb : Terminated b es)

include hb

section Peek

variable {s : Nat} (hs : s ≤ es)

include hs

theorem peek_one {c : Char} {k : Tok} (hc : symbols.contains (code c) = true) (hk : ∀ t : Tok, [code c].contains t.lead = decide (t = k)) :
    peek b es s [c] = (decide (next (rest b es s) = k), skip b es s) := by
  rw [peek_eq hb hs (by simpa using hc)]
  exact Prod.ext (hk _) rfl

theorem peek_redir : peek b es s ['<', '>'] = ((next (rest b es s)).redir?.isSome, skip b es s) := by
  rw [peek_eq hb hs (by simp [symbols])]
  cases next (rest b es s) <;> rfl

theorem peek_amp : peek b es s ['&'] = (decide (next (rest b es s) = .amp), skip b es s) :=
  peek_one hb hs (by simp [symbols]) fun t => by cases t <;> rfl

theorem peek_semi : peek b es s [';'] = (decide (next (rest b es s) = .semi), skip b es s) :=
  peek_one hb hs (by simp [symbols]) fun t => by cases t <;> rfl

theorem peek_bar : peek b es s ['|'] = (decide (next (rest b es s) = .bar), skip b es s) :=
  peek_one hb hs (by simp [symbols]) fun t => by cases t <;> rfl

theorem peek_lparen : peek b es s ['('] = (decide (next (rest b es s) = .lparen), skip b es s) :=
  peek_one hb hs (by simp [symbols]) fun t => by cases t <;> rfl

theorem peek_rparen : peek b es s [')'] = (decide (next (rest b es s) = .rparen), skip b es s) :=
  peek_one hb hs (by simp [symbols]) fun t => by cases t <;> rfl

theorem peek_ends : peek b es s ['|', ')', '&', ';'] =
    (decide ((next (rest b es s)).ends ∧ next (rest b es s) ≠ .eof), skip b es s) := by
  rw [peek_eq hb hs (by simp [symbols])]
  cases next (rest b es s) <;> rfl

theorem Sim.skip (cmd : Cmd) : Sim b es (.ok (cmd, skip b es s)) (.ok (cmd, rest b es s)) := by
  rw [← rest_skip hb hs]
  exact .ok cmd (skip_le hs)

end Peek

variable {s : Nat}

theorem parseredirs_sim (cmd : Cmd) (hs : s ≤ es) : Sim b es (parseredirs b es n cmd s) (OnTokens.parseredirs n cmd (rest b es s)) := by
  induction n generalizing cmd s with
  | zero => exact .error _
  | succ n ih =>
    rw [parseredirs, OnTokens.parseredirs, peek_redir hb hs]
    cases hop : (next (rest b es s)).redir? with
    | none => exact .skip hb hs cmd
    | some md =>
      obtain ⟨mode, fd⟩ := md
      obtain ⟨htail, hs₁⟩ := gettoken_tail hb hs
      have hs₂ := (gettoken_tail hb hs₁).2
      rw [next_rest hb hs] at hop
      have hfile := next_rest hb hs₁
      simp only [Option.isSome_some, gettoken_skip hb hs, ← htail, ← hfile]
      cases hrest : rest b es (gettoken b es s).2 with
      | nil => exact .error _
      | cons file ts =>
        obtain ⟨rfl, rfl, -⟩ := rest_eq_cons hb hs₁ hrest
        show Sim b es (if (gettoken b es (gettoken b es s).2).1.kind ≠ .word then _ else _) (if _ then _ else _)
        by_cases hword : (gettoken b es (gettoken b es s).2).1.kind = .word
        · rw [if_neg (not_not.mpr hword), if_pos hword]
          cases hkind : (gettoken b es s).1.kind <;> rw [hkind] at hop <;> cases hop <;> exact ih _ hs₂
        · rw [if_pos hword, if_neg hword]
          exact .error _

theorem parseargs_sim (argc : Nat) (ret : Cmd) (hs : s ≤ es) :
    Sim b es (parseargs b es n argc ret s) (OnTokens.parseargs n argc ret (rest b es s)) := by
  induction n generalizing argc ret s with
  | zero => exact .error _
  | succ n ih =>
    obtain ⟨htail, hs₁⟩ := gettoken_tail hb hs
    have hkind := next_rest hb hs
    rw [parseargs, peek_ends hb hs]
    cases hrest : rest b es s with
    | nil =>
      rw [hrest] at hkind htail
      have hend : Sim b es (.ok (ret, (gettoken b es s).2)) (.ok (ret, rest b es (gettoken b es s).2)) := .ok ret hs₁
      rw [htail] at hend
      simp only [gettoken_skip hb hs, ← hkind, next, ne_eq, not_true_eq_false, and_false, decide_false]
      exact hend
    | cons w ts =>
      have hskip := Sim.skip hb hs ret
      rw [hrest] at hskip
      obtain ⟨rfl, rfl, hne⟩ := rest_eq_cons hb hs hrest
      rw [OnTokens.parseargs]
      by_cases hends : (gettoken b es s).1.kind.ends = true
      · simp only [next, hends, hne, ne_eq, not_false_eq_true, and_self, decide_true, if_true]
        exact hskip
      · simp only [next, hends, false_and, decide_false, gettoken_skip hb hs, Bool.false_eq_true, if_false]
        by_cases hword : (gettoken b es s).1.kind = .word
        · simp only [hword, ne_eq, not_true_eq_false, if_false]
          split
          · exact .error _
          · exact (parseredirs_sim hb _ hs₁).bind fun ret s₂ hs₂ => ih _ ret hs₂
        · rw [if_pos hword]
          cases hkind : (gettoken b es s).1.kind <;> first | exact absurd hkind hne | exact absurd hkind hword | exact .error _

theorem parsebacks_sim (cmd : Cmd) (hs : s ≤ es) : Sim b es (parsebacks b es n cmd s) (OnTokens.parsebacks n cmd (rest b es s)) := by
  induction n generalizing cmd s with
  | zero => exact .error _
  | succ n ih =>
    obtain ⟨htail, hs₁⟩ := gettoken_tail hb hs
    rw [parsebacks, OnTokens.parsebacks, peek_amp hb hs]
    by_cases hamp : next (rest b es s) = .amp
    · simp only [hamp, decide_true, if_true, gettoken_skip hb hs, ← htail]
      exact ih _ hs₁
    · simp only [hamp, decide_false, if_false]
      exact .skip hb hs cmd

theorem parse_sim (n : Nat) :
    (∀ s ≤ es, Sim b es (parseline b es n s) (OnTokens.parseline n (rest b es s))) ∧
    (∀ s ≤ es, Sim b es (parsepipe b es n s) (OnTokens.parsepipe n (rest b es s))) ∧
    (∀ s ≤ es, Sim b es (parseexec b es n s) (OnTokens.parseexec n (rest b es s))) ∧
    ∀ s ≤ es, Sim b es (parseblock b es n s) (OnTokens.parseblock n (rest b es s)) := by
  induction n with
  | zero =>
    simp only [parseline, parsepipe, parseexec, parseblock, OnTokens.parseline, OnTokens.parsepipe, OnTokens.parseexec, OnTokens.parseblock]
    exact ⟨fun _ _ => .error _, fun _ _ => .error _, fun _ _ => .error _, fun _ _ => .error _⟩
  | succ n ih =>
    obtain ⟨hline, hpipe, hexec, hblock⟩ := ih
    refine ⟨fun s hs => ?_, fun s hs => ?_, fun s hs => ?_, fun s hs => ?_⟩
    · rw [parseline, OnTokens.parseline]
      refine (hpipe s hs).bind fun left s₁ hs₁ => (parsebacks_sim hb left hs₁).bind fun cmd s₂ hs₂ => ?_
      obtain ⟨htail, hs₃⟩ := gettoken_tail hb hs₂
      simp only [peek_semi hb hs₂]
      by_cases hsemi : next (rest b es s₂) = .semi
      · simp only [hsemi, decide_true, if_true, gettoken_skip hb hs₂, ← htail]
        exact (hline _ hs₃).bind fun right s₄ hs₄ => .ok _ hs₄
      · simp only [hsemi, decide_false, if_false]
        exact .skip hb hs₂ cmd
    · rw [parsepipe, OnTokens.parsepipe]
      refine (hexec s hs).bind fun cmd s₁ hs₁ => ?_
      obtain ⟨htail, hs₂⟩ := gettoken_tail hb hs₁
      simp only [peek_bar hb hs₁]
      by_cases hbar : next (rest b es s₁) = .bar
      · simp only [hbar, decide_true, if_true, gettoken_skip hb hs₁, ← htail]
        exact (hpipe _ hs₂).bind fun right s₃ hs₃ => .ok _ hs₃
      · simp only [hbar, decide_false, if_false]
        exact .skip hb hs₁ cmd
    · rw [parseexec, OnTokens.parseexec, peek_lparen hb hs]
      by_cases hl : next (rest b es s) = .lparen
      · simp only [hl, decide_true, if_true]
        rw [← rest_skip hb hs]
        exact hblock _ (skip_le hs)
      · simp only [hl, decide_false, if_false]
        rw [← rest_skip hb hs]
        exact (parseredirs_sim hb _ (skip_le hs)).bind fun ret s₁ hs₁ => parseargs_sim hb 0 ret hs₁
    · rw [parseblock, OnTokens.parseblock, peek_lparen hb hs]
      obtain ⟨htail, hs₁⟩ := gettoken_tail hb hs
      by_cases hl : next (rest b es s) = .lparen
      · simp only [hl, decide_true, if_true, gettoken_skip hb hs, ← htail]
        refine (hline _ hs₁).bind fun cmd s₂ hs₂ => ?_
        obtain ⟨htail₂, hs₃⟩ := gettoken_tail hb hs₂
        simp only [peek_rparen hb hs₂]
        by_cases hr : next (rest b es s₂) = .rparen
        · simp only [hr, decide_true, if_true, gettoken_skip hb hs₂, ← htail₂]
          exact parseredirs_sim hb cmd hs₃
        · simp only [hr, decide_false, if_false]
          exact .error _
      · simp only [hl, decide_false, if_false]
        exact .error _

theorem tokensFrom_length (hs : s ≤ es) : (tokensFrom b es n s).length ≤ es - s := by
  induction n generalizing s with
  | zero => exact Nat.zero_le _
  | succ n ih =>
    simp only [tokensFrom]
    split
    · exact Nat.zero_le _
    · rename_i htok
      obtain ⟨hlt, hle⟩ := gettoken_lt hb hs htok
      have := ih hle
      rw [List.length_cons]
      omega

end

/-! ### What the parser does on every line -/

/-- The command of a line without leftovers. -/
def OnTokens.parsecmd (n : Nat) (ts : List Token) : Except Stop Cmd :=
  parseline n ts >>= fun r => if r.2 = [] then .ok r.1 else .error (.panic .leftovers)

theorem parsecmd_eq (b : List UInt8) :
    parsecmd b = (OnTokens.parsecmd (4 * strlen b + 5) (tokens b)).map fun cmd => (cmd, nulterminate cmd b) := by
  have hb := strlen_terminated b
  have hsim := (parse_sim hb (4 * strlen b + 5)).1 0 (Nat.zero_le _)
  rw [parsecmd, OnTokens.parsecmd, tokens]
  generalize parseline b (strlen b) (4 * strlen b + 5) 0 = x, OnTokens.parseline (4 * strlen b + 5) (rest b (strlen b) 0) = y at hsim
  cases hsim with
  | error e => rfl
  | @ok cmd s hs =>
    have hend : skip b (strlen b) s = strlen b ↔ rest b (strlen b) s = [] := by
      rw [← gettoken_eof_iff hb hs, ← next_rest hb hs]
      cases hrest : rest b (strlen b) s with
      | nil => exact iff_of_true rfl rfl
      | cons t ts => exact iff_of_false (rest_eq_cons hb hs hrest).2.2 (List.cons_ne_nil t ts)
    show (if skip b (strlen b) s ≠ strlen b then _ else _) = Except.map _ (if rest b (strlen b) s = [] then _ else _)
    by_cases hnil : rest b (strlen b) s = []
    · rw [if_neg (not_not.mpr (hend.mpr hnil)), if_pos hnil]
      rfl
    · rw [if_pos fun heq => hnil (hend.mp heq), if_neg hnil]
      rfl

theorem depth_tokens (b : List UInt8) : Phrase.line.depth (tokens b).length ≤ 4 * strlen b + 5 := by
  have hlen : (tokens b).length ≤ strlen b - 0 := tokensFrom_length (strlen_terminated b) (Nat.zero_le _)
  simp only [Phrase.depth]
  omega

theorem parsecmd_derives {b : List UInt8} {cmd : Cmd} (h : Derives .line (tokens b) cmd) :
    parsecmd b = .ok (cmd, nulterminate cmd b) := by
  have hline : OnTokens.parseline (4 * strlen b + 5) (tokens b ++ []) = .ok (cmd, []) :=
    OnTokens.parse_complete h rfl (depth_tokens b)
  rw [List.append_nil] at hline
  rw [parsecmd_eq, OnTokens.parsecmd, hline]
  rfl

/-- A line is parsed if it is well formed, and makes the parser panic otherwise. -/
theorem parsecmd_cases (b : List UInt8) :
    (∃ cmd, Derives .line (tokens b) cmd ∧ parsecmd b = .ok (cmd, nulterminate cmd b)) ∨
    (¬ WellFormed b ∧ ∃ p, parsecmd b = .error (.panic p)) := by
  by_cases hwf : WellFormed b
  · obtain ⟨cmd, hcmd⟩ := hwf
    exact .inl ⟨cmd, hcmd, parsecmd_derives hcmd⟩
  refine .inr ⟨hwf, ?_⟩
  have hyields : Parses .line (tokens b) (OnTokens.parseline _ (tokens b)) := (OnTokens.parse_yields _).1 .line _ (depth_tokens b)
  rw [parsecmd_eq, OnTokens.parsecmd]
  cases hline : OnTokens.parseline (4 * strlen b + 5) (tokens b) with
  | error e =>
    rw [hline] at hyields
    cases e with
    | panic p => exact ⟨p, rfl⟩
    | depth => exact absurd rfl hyields
  | ok r =>
    rw [hline] at hyields
    obtain ⟨ts, hts, hderives⟩ := hyields
    have hne : r.2 ≠ [] := by
      intro hnil
      rw [hnil, List.append_nil] at hts
      exact hwf ⟨r.1, hts ▸ hderives⟩
    refine ⟨.leftovers, ?_⟩
    show Except.map _ (if r.2 = [] then _ else _) = _
    rw [if_neg hne]
    rfl

/-! ### The bytes the parser reads -/

/-- The second buffer holds the same bytes up to and with the NUL. -/
def SameLine (es : Nat) (b b' : List UInt8) : Prop := ∀ i ≤ es, byte b' i = byte b i

theorem Terminated.eq {b : List UInt8} {es es' : Nat} (h : Terminated b es) (h' : Terminated b es') : es = es' := by
  rcases lt_trichotomy es es' with hlt | heq | hgt
  · exact absurd h.zero (h'.nonzero es hlt)
  · exact heq
  · exact absurd h'.zero (h.nonzero es' hgt)

theorem SameLine.terminated {b b' : List UInt8} {es : Nat} (h : SameLine es b b') (hb : Terminated b es) : Terminated b' es :=
  ⟨fun i hi => by rw [h i hi.le]; exact hb.nonzero i hi, by rw [h es le_rfl, hb.zero]⟩

section

variable {b b' : List UInt8} {es s : Nat} (hb : Terminated b es) (hsame : SameLine es b b')

include hsame

theorem scan_same (p : UInt8 → Bool) (hn : s + n ≤ es) : scan p b' n s = scan p b n s := by
  induction n generalizing s with
  | zero => rfl
  | succ n ih => rw [scan, scan, hsame s (by omega), ih (by omega)]

theorem skip_same (hs : s ≤ es) : skip b' es s = skip b es s := scan_same hsame _ (by omega)

include hb

theorem tokenAt_same (hs : s ≤ es) : tokenAt b' es s = tokenAt b es s := by
  rw [tokenAt, tokenAt, hsame s hs, scan_same hsame _ (by omega)]
  -- the byte after a '>' is looked at, and the '>' is not the NUL
  by_cases hgt : byte b s = code '>'
  · have hlt : s < es := lt_of_le_of_ne hs fun heq => by
      rw [heq, hb.zero] at hgt
      exact absurd hgt (by decide)
    rw [hsame (s + 1) hlt]
  · simp only [hgt, if_false]

theorem gettoken_same (hs : s ≤ es) : gettoken b' es s = gettoken b es s := by
  have hend : (tokenAt b es (skip b es s)).2 ≤ es := (le_scan ..).trans (gettoken_tail hb hs).2
  simp only [gettoken, skip_same hsame hs, tokenAt_same hb hsame (skip_le hs), skip_same hsame hend]

theorem tokensFrom_same (hs : s ≤ es) : tokensFrom b' es n s = tokensFrom b es n s := by
  induction n generalizing s with
  | zero => rfl
  | succ n ih => simp only [tokensFrom, gettoken_same hb hsame hs, ih (gettoken_tail hb hs).2]

end

theorem parsecmd_same {b b' : List UInt8} (h : SameLine (strlen b) b b') :
    (parsecmd b').map Prod.fst = (parsecmd b).map Prod.fst := by
  have hb := strlen_terminated b
  have hlen : strlen b' = strlen b := (strlen_terminated b').eq (h.terminated hb)
  have htokens : tokens b' = tokens b := by
    rw [tokens, tokens, hlen]
    exact tokensFrom_same hb h (Nat.zero_le _)
  rw [parsecmd_eq, parsecmd_eq, hlen, htokens]
  cases OnTokens.parsecmd (4 * strlen b + 5) (tokens b) <;> rfl

theorem parsecmd_grammar (b : List UInt8) :
    (∀ cmd, (∃ b', parsecmd b = .ok (cmd, b')) ↔ Derives .line (tokens b) cmd) ∧
    (¬ WellFormed b → ∃ p, parsecmd b = .error (.panic p)) ∧
    ∀ b', SameLine (strlen b) b b' → (parsecmd b').map Prod.fst = (parsecmd b).map Prod.fst := by
  refine ⟨fun cmd => ⟨?_, fun hderives => ⟨_, parsecmd_derives hderives⟩⟩, fun hnot => ?_, fun b' => parsecmd_same⟩
  · rintro ⟨b', hok⟩
    obtain ⟨cmd', hderives, hparsed⟩ | ⟨-, p, hpanic⟩ := parsecmd_cases b
    · obtain ⟨rfl, -⟩ := Prod.mk.inj (Except.ok.inj (hparsed.symm.trans hok))
      exact hderives
    · rw [hpanic] at hok
      cases hok
  · obtain ⟨cmd, hderives, -⟩ | ⟨-, hpanic⟩ := parsecmd_cases b
    · exact absurd ⟨cmd, hderives⟩ hnot
    · exact hpanic

end Xv6.Shell
