import Xv6.Shell.Parse

/-!
# The grammar of command lines

    line  := pipe '&'* [';' line]
    pipe  := exec ['|' pipe]
    exec  := '(' line ')' redir* | redir* (word redir*)*      with fewer than `maxArgs` words
    redir := ('<' | '>' | '>>') word

over the tokens that `gettoken` finds one after the other. The parser gives a command exactly for the lines that derive
from this grammar, the command that the derivation denotes; on every other line it panics.
-/

namespace Xv6.Shell

def next : List Token → Tok
  | [] => .eof
  | t :: _ => t.kind

/-! ### The grammar -/

/-- The file mode and the descriptor of a redirection. -/
def Tok.redir? : Tok → Option (Nat × Nat)
  | .lt => some (oRdonly, 0)
  | .gt | .append => some (oWronly ||| oCreate, 1)
  | _ => none

structure Redirection where
  file : Span
  mode : Nat
  fd : Nat

/-- Later redirections are wrapped outside earlier ones. -/
def Cmd.wrap (cmd : Cmd) (rs : List Redirection) : Cmd := rs.foldl (fun cmd r => .redir cmd r.file r.mode r.fd) cmd

def Cmd.backs (cmd : Cmd) (n : Nat) : Cmd := Cmd.back^[n] cmd

inductive Redirs : List Token → List Redirection → Prop where
  | nil : Redirs [] []
  | cons {op file : Token} {mode fd : Nat} {ts : List Token} {rs : List Redirection} (hop : op.kind.redir? = some (mode, fd))
      (hfile : file.kind = .word) (hrest : Redirs ts rs) : Redirs (op :: file :: ts) (⟨file.span, mode, fd⟩ :: rs)

inductive Words : List Token → List Span → List Redirection → Prop where
  | nil : Words [] [] []
  | cons {w : Token} {ts ts' : List Token} {ws : List Span} {rs rs' : List Redirection} (hw : w.kind = .word)
      (hredirs : Redirs ts rs) (hrest : Words ts' ws rs') : Words (w :: ts ++ ts') (w.span :: ws) (rs ++ rs')

inductive Phrase where
  | line | pipe | exec

inductive Derives : Phrase → List Token → Cmd → Prop where
  | words {ts ts' : List Token} {ws : List Span} {rs rs' : List Redirection} (hredirs : Redirs ts rs) (hwords : Words ts' ws rs')
      (hargs : ws.length < maxArgs) : Derives .exec (ts ++ ts') ((Cmd.exec ws).wrap (rs ++ rs'))
  | block {l r : Token} {ts ts' : List Token} {cmd : Cmd} {rs : List Redirection} (hl : l.kind = .lparen) (hline : Derives .line ts cmd)
      (hr : r.kind = .rparen) (hredirs : Redirs ts' rs) : Derives .exec (l :: ts ++ r :: ts') (cmd.wrap rs)
  | exec {ts : List Token} {cmd : Cmd} (h : Derives .exec ts cmd) : Derives .pipe ts cmd
  | pipe {t : Token} {ts ts' : List Token} {cmd cmd' : Cmd} (hleft : Derives .exec ts cmd) (ht : t.kind = .bar)
      (hright : Derives .pipe ts' cmd') : Derives .pipe (ts ++ t :: ts') (.pipe cmd cmd')
  | line {ts amps : List Token} {cmd : Cmd} (h : Derives .pipe ts cmd) (hamps : ∀ t ∈ amps, t.kind = .amp) :
      Derives .line (ts ++ amps) (cmd.backs amps.length)
  | list {t : Token} {ts amps ts' : List Token} {cmd cmd' : Cmd} (h : Derives .pipe ts cmd) (hamps : ∀ t ∈ amps, t.kind = .amp)
      (ht : t.kind = .semi) (hright : Derives .line ts' cmd') : Derives .line (ts ++ amps ++ t :: ts') (.list (cmd.backs amps.length) cmd')

/-! ### The parser on tokens -/

/-- The tokens that end the arguments of a command. -/
def Tok.ends : Tok → Bool
  | .eof | .bar | .rparen | .amp | .semi => true
  | _ => false

namespace OnTokens

def parseredirs : Nat → Cmd → List Token → Except Stop (Cmd × List Token)
  | 0, _, _ => .error .depth
  | n + 1, cmd, ts =>
    match (next ts).redir?, ts.tail with
    | none, _ => .ok (cmd, ts)
    | some _, [] => .error (.panic .missingFile)
    | some (mode, fd), file :: ts =>
      if file.kind = .word then parseredirs n (.redir cmd file.span mode fd) ts else .error (.panic .missingFile)

def parseargs : Nat → Nat → Cmd → List Token → Except Stop (Cmd × List Token)
  | 0, _, _, _ => .error .depth
  | _ + 1, _, ret, [] => .ok (ret, [])
  | n + 1, argc, ret, w :: ts =>
    if w.kind.ends then .ok (ret, w :: ts)
    else if w.kind ≠ .word then .error (.panic .unexpected)
    else if maxArgs ≤ argc + 1 then .error (.panic .tooManyArgs)
    else parseredirs n (ret.addArg w.span) ts >>= fun r => parseargs n (argc + 1) r.1 r.2

def parsebacks : Nat → Cmd → List Token → Except Stop (Cmd × List Token)
  | 0, _, _ => .error .depth
  | n + 1, cmd, ts => if next ts = .amp then parsebacks n (.back cmd) ts.tail else .ok (cmd, ts)

mutual

def parseline : Nat → List Token → Except Stop (Cmd × List Token)
  | 0, _ => .error .depth
  | n + 1, ts => parsepipe n ts >>= fun l => parsebacks n l.1 l.2 >>= fun l =>
    if next l.2 = .semi then parseline n l.2.tail >>= fun r => .ok (.list l.1 r.1, r.2) else .ok l

def parsepipe : Nat → List Token → Except Stop (Cmd × List Token)
  | 0, _ => .error .depth
  | n + 1, ts => parseexec n ts >>= fun l =>
    if next l.2 = .bar then parsepipe n l.2.tail >>= fun r => .ok (.pipe l.1 r.1, r.2) else .ok l

def parseblock : Nat → List Token → Except Stop (Cmd × List Token)
  | 0, _ => .error .depth
  | n + 1, ts =>
    if next ts = .lparen then parseline n ts.tail >>= fun l =>
      if next l.2 = .rparen then parseredirs n l.1 l.2.tail else .error (.panic .missingParen)
    else .error (.panic .parseblock)

def parseexec : Nat → List Token → Except Stop (Cmd × List Token)
  | 0, _ => .error .depth
  | n + 1, ts =>
    if next ts = .lparen then parseblock n ts
    else parseredirs n (.exec []) ts >>= fun r => parseargs n 0 r.1 r.2

end

end OnTokens

/-- How deep the parser goes for a phrase of so many tokens. -/
def Phrase.depth : Phrase → Nat → Nat
  | .line, k => 4 * k + 5
  | .pipe, k => 4 * k + 4
  | .exec, k => 4 * k + 3

def Phrase.parse : Phrase → Nat → List Token → Except Stop (Cmd × List Token)
  | .line => OnTokens.parseline
  | .pipe => OnTokens.parsepipe
  | .exec => OnTokens.parseexec

/-! ### Every command parsed derives -/

theorem wrap_append (cmd : Cmd) (rs rs' : List Redirection) : cmd.wrap (rs ++ rs') = (cmd.wrap rs).wrap rs' := List.foldl_append

theorem addArg_wrap (ws : List Span) (w : Span) (rs : List Redirection) :
    ((Cmd.exec ws).wrap rs).addArg w = (Cmd.exec (ws ++ [w])).wrap rs := by
  induction rs using List.reverseRecOn with
  | nil => rfl
  | append_singleton rs r ih =>
    rw [wrap_append, wrap_append]
    exact congrArg (Cmd.redir · r.file r.mode r.fd) ih

/-- The parser gives such a command and such tokens behind it, or panics; it does not run out of depth. -/
def Yields (Q : Cmd → List Token → Prop) : Except Stop (Cmd × List Token) → Prop
  | .ok r => Q r.1 r.2
  | .error e => e ≠ .depth

theorem Yields.bind {P Q : Cmd → List Token → Prop} {x : Except Stop (Cmd × List Token)}
    {f : Cmd × List Token → Except Stop (Cmd × List Token)} (hx : Yields P x) (hf : ∀ cmd ts, P cmd ts → Yields Q (f (cmd, ts))) :
    Yields Q (x >>= f) := by
  cases x with
  | error e => exact hx
  | ok r => exact hf r.1 r.2 hx

theorem Yields.mono {P Q : Cmd → List Token → Prop} {x : Except Stop (Cmd × List Token)} (hx : Yields P x)
    (h : ∀ cmd ts, P cmd ts → Q cmd ts) : Yields Q x := by
  cases x with
  | error e => exact hx
  | ok r => exact h r.1 r.2 hx

theorem yields_panic {Q : Cmd → List Token → Prop} (p : Panic) : Yields Q (.error (.panic p)) := by simp [Yields]

theorem eq_cons_of_next {ts : List Token} {k : Tok} (h : next ts = k) (hk : k ≠ .eof) : ∃ t, t.kind = k ∧ ts = t :: ts.tail := by
  cases ts with
  | nil => exact absurd h.symm hk
  | cons t ts => exact ⟨t, h, rfl⟩

/-- The function parses a phrase of the grammar and leaves what is behind it. -/
def Parses (p : Phrase) (ts : List Token) (x : Except Stop (Cmd × List Token)) : Prop :=
  Yields (fun cmd R => ∃ ts', ts = ts' ++ R ∧ Derives p ts' cmd) x

namespace OnTokens

variable {n : Nat} {ts : List Token} {cmd : Cmd}

theorem parseredirs_yields (hn : ts.length < n) :
    Yields (fun cmd' R => ∃ ts' rs, ts = ts' ++ R ∧ Redirs ts' rs ∧ cmd' = cmd.wrap rs) (parseredirs n cmd ts) := by
  induction n generalizing cmd ts with
  | zero => omega
  | succ n ih =>
    rw [parseredirs]
    cases hop : (next ts).redir? with
    | none => exact ⟨[], [], rfl, .nil, rfl⟩
    | some md =>
      cases ts with
      | nil => cases hop
      | cons op ts =>
        cases ts with
        | nil => exact yields_panic _
        | cons file ts =>
          show Yields _ (if file.kind = .word then _ else _)
          split
          · rename_i hfile
            refine (ih (by simp at hn; omega)).mono ?_
            rintro cmd' R ⟨ts', rs, rfl, hredirs, rfl⟩
            exact ⟨op :: file :: ts', _, rfl, .cons hop hfile hredirs, rfl⟩
          · exact yields_panic _

theorem parseargs_yields (ws : List Span) (rs : List Redirection) (hn : ts.length < n) (hws : ws.length < maxArgs) :
    Yields (fun cmd R => ∃ ts' ws' rs', ts = ts' ++ R ∧ Words ts' ws' rs' ∧ cmd = (Cmd.exec (ws ++ ws')).wrap (rs ++ rs') ∧
      (ws ++ ws').length < maxArgs) (parseargs n ws.length ((Cmd.exec ws).wrap rs) ts) := by
  induction n generalizing ws rs ts with
  | zero => omega
  | succ n ih =>
    have hstop : ∀ ts, Yields (fun cmd R => ∃ ts' ws' rs', ts = ts' ++ R ∧ Words ts' ws' rs' ∧
        cmd = (Cmd.exec (ws ++ ws')).wrap (rs ++ rs') ∧ (ws ++ ws').length < maxArgs) (.ok ((Cmd.exec ws).wrap rs, ts)) := fun _ =>
      ⟨[], [], [], rfl, .nil, by simp, by simpa using hws⟩
    cases ts with
    | nil => exact hstop []
    | cons w ts =>
      rw [parseargs]
      split
      · exact hstop _
      split
      · exact yields_panic _
      split
      · exact yields_panic _
      · rename_i hw hargs
        simp only [List.length_cons] at hn
        refine (parseredirs_yields (by omega)).bind ?_
        rintro ret R ⟨ts₁, rs₁, rfl, hr₁, rfl⟩
        simp only [addArg_wrap, ← wrap_append]
        have hrec := ih (ws ++ [w.span]) (rs ++ rs₁) (show R.length < n by simp at hn; omega) (by simp; omega)
        rw [show (ws ++ [w.span]).length = ws.length + 1 by simp] at hrec
        refine hrec.mono ?_
        rintro cmd R' ⟨ts₂, ws₂, rs₂, rfl, hwords, rfl, hmax⟩
        exact ⟨w :: ts₁ ++ ts₂, w.span :: ws₂, rs₁ ++ rs₂, by simp, .cons (not_not.mp hw) hr₁ hwords, by simp, by simpa using hmax⟩

theorem parsebacks_yields (hn : ts.length < n) :
    Yields (fun cmd' R => ∃ amps, ts = amps ++ R ∧ (∀ t ∈ amps, t.kind = .amp) ∧ cmd' = cmd.backs amps.length) (parsebacks n cmd ts) := by
  induction n generalizing cmd ts with
  | zero => omega
  | succ n ih =>
    rw [parsebacks]
    split
    · rename_i hamp
      obtain ⟨t, ht, hts⟩ := eq_cons_of_next hamp (by decide)
      rw [hts, List.length_cons] at hn
      refine (ih (by omega)).mono ?_
      rintro cmd' R ⟨amps, hamps, hkinds, rfl⟩
      exact ⟨t :: amps, by rw [hts, hamps]; rfl, by simpa [ht] using hkinds, rfl⟩
    · exact ⟨[], rfl, by simp, rfl⟩

section Step

variable (ih : ∀ p ts, Phrase.depth p ts.length ≤ n → Parses p ts (p.parse n ts))

include ih

theorem parseline_yields (hn : Phrase.depth .line ts.length ≤ n + 1) : Parses .line ts (parseline (n + 1) ts) := by
  simp only [Phrase.depth] at hn
  rw [parseline]
  refine (ih .pipe ts (by simp only [Phrase.depth]; omega)).bind ?_
  rintro left R ⟨ts, rfl, hleft⟩
  rw [List.length_append] at hn
  refine (parsebacks_yields (by show R.length < n; omega)).bind ?_
  rintro cmd R ⟨amps, rfl, hamps, rfl⟩
  rw [List.length_append] at hn
  show Yields _ (if next R = .semi then _ else _)
  split
  · rename_i hsemi
    obtain ⟨t, ht, hR⟩ := eq_cons_of_next hsemi (by decide)
    rw [hR, List.length_cons] at hn
    refine (ih .line R.tail (by simp only [Phrase.depth]; omega)).bind ?_
    rintro right R' ⟨ts', hts', hright⟩
    exact ⟨_, by rw [hR, hts']; simp, .list hleft hamps ht hright⟩
  · exact ⟨ts ++ amps, by simp, .line hleft hamps⟩

theorem parsepipe_yields (hn : Phrase.depth .pipe ts.length ≤ n + 1) : Parses .pipe ts (parsepipe (n + 1) ts) := by
  simp only [Phrase.depth] at hn
  rw [parsepipe]
  refine (ih .exec ts (by simp only [Phrase.depth]; omega)).bind ?_
  rintro left R ⟨ts, rfl, hleft⟩
  rw [List.length_append] at hn
  show Yields _ (if next R = .bar then _ else _)
  split
  · rename_i hbar
    obtain ⟨t, ht, hR⟩ := eq_cons_of_next hbar (by decide)
    rw [hR, List.length_cons] at hn
    refine (ih .pipe R.tail (by simp only [Phrase.depth]; omega)).bind ?_
    rintro right R' ⟨ts', hts', hright⟩
    exact ⟨_, by rw [hR, hts']; simp, .pipe hleft ht hright⟩
  · exact ⟨ts, rfl, .exec hleft⟩

theorem parseblock_yields (hn : 4 * ts.length + 2 ≤ n + 1) : Parses .exec ts (parseblock (n + 1) ts) := by
  rw [parseblock]
  split
  · rename_i hl
    obtain ⟨l, hlkind, hts⟩ := eq_cons_of_next hl (by decide)
    rw [hts, List.length_cons] at hn
    refine (ih .line ts.tail (by simp only [Phrase.depth]; omega)).bind ?_
    rintro cmd R ⟨ts', hts', hcmd⟩
    rw [hts', List.length_append] at hn
    show Yields _ (if next R = .rparen then _ else _)
    split
    · rename_i hr
      obtain ⟨r, hrkind, hR⟩ := eq_cons_of_next hr (by decide)
      rw [hR, List.length_cons] at hn
      refine (parseredirs_yields (by show R.tail.length < n; omega)).mono ?_
      rintro cmd' R' ⟨ts'', rs, hts'', hredirs, rfl⟩
      exact ⟨_, by rw [hts, hts', hR, hts'']; simp, .block hlkind hcmd hrkind hredirs⟩
    · exact yields_panic _
  · exact yields_panic _

omit ih in
theorem parseexec_yields (hblock : ∀ ts, 4 * ts.length + 2 ≤ n → Parses .exec ts (parseblock n ts))
    (hn : Phrase.depth .exec ts.length ≤ n + 1) : Parses .exec ts (parseexec (n + 1) ts) := by
  simp only [Phrase.depth] at hn
  rw [parseexec]
  split
  · exact hblock ts (by omega)
  · refine (parseredirs_yields (by omega)).bind ?_
    rintro ret R ⟨ts, rs, rfl, hredirs, rfl⟩
    rw [List.length_append] at hn
    refine (parseargs_yields [] rs (by show R.length < n; omega) (by decide)).mono ?_
    rintro cmd R' ⟨ts', ws, rs', rfl, hwords, rfl, hmax⟩
    exact ⟨ts ++ ts', by simp, .words hredirs hwords hmax⟩

end Step

theorem parse_yields (n : Nat) : (∀ p ts, Phrase.depth p ts.length ≤ n → Parses p ts (p.parse n ts)) ∧
    ∀ ts, 4 * ts.length + 2 ≤ n → Parses .exec ts (parseblock n ts) := by
  induction n with
  | zero => exact ⟨fun p ts hn => absurd hn (by cases p <;> simp [Phrase.depth]), fun ts hn => absurd hn (by omega)⟩
  | succ n ih =>
    refine ⟨fun p ts hn => ?_, fun ts hn => parseblock_yields ih.1 hn⟩
    cases p with
    | line => exact parseline_yields ih.1 hn
    | pipe => exact parsepipe_yields ih.1 hn
    | exec => exact parseexec_yields ih.2 hn

end OnTokens

/-! ### Every derivation is found -/

theorem Tok.ends_redir {t : Tok} (h : t.ends = true) : t.redir? = none := by
  cases t <;> first | rfl | cases h

/-- The tokens that may stand behind a phrase. -/
def Phrase.follow : Phrase → Tok → Bool
  | .line, t => t = .eof || t = .rparen
  | .pipe, t => t.ends && t ≠ .bar
  | .exec, t => t.ends

section

variable {ts R : List Token} {rs : List Redirection}

theorem Words.next_cases {ws : List Span} (h : Words ts ws rs) (R : List Token) : next (ts ++ R) = .word ∨ ts = [] := by
  cases h with
  | nil => exact .inr rfl
  | cons hw => exact .inl hw

theorem Redirs.next_cases (h : Redirs ts rs) (R : List Token) : (next (ts ++ R)).redir? ≠ none ∨ ts = [] := by
  cases h with
  | nil => exact .inr rfl
  | @cons op _ _ _ _ _ hop => exact .inl (by rw [show next _ = op.kind from rfl, hop]; simp)

theorem Words.next_redir {ws : List Span} (h : Words ts ws rs) (hR : (next R).ends = true) : (next (ts ++ R)).redir? = none := by
  obtain hword | rfl := h.next_cases R
  · rw [hword]
    rfl
  · exact Tok.ends_redir hR

theorem follow_amps {amps : List Token} (hamps : ∀ t ∈ amps, t.kind = .amp) (hR : Phrase.pipe.follow (next R) = true) :
    Phrase.pipe.follow (next (amps ++ R)) = true := by
  cases amps with
  | nil => exact hR
  | cons t amps =>
    rw [show next (t :: amps ++ R) = t.kind from rfl, hamps t (by simp)]
    rfl

end

namespace OnTokens

variable {n : Nat} {ts R : List Token} {rs : List Redirection}

theorem parseredirs_complete (h : Redirs ts rs) (cmd : Cmd) (hR : (next R).redir? = none) (hn : ts.length < n) :
    parseredirs n cmd (ts ++ R) = .ok (cmd.wrap rs, R) := by
  induction h generalizing n cmd with
  | nil =>
    obtain ⟨n, rfl⟩ := Nat.exists_eq_add_one.mpr hn
    rw [List.nil_append, parseredirs, hR]
    rfl
  | @cons op file mode fd ts rs hop hfile _ ih =>
    obtain ⟨n, rfl⟩ := Nat.exists_eq_add_one.mpr (Nat.zero_lt_of_lt hn)
    rw [parseredirs, show next (op :: file :: ts ++ R) = op.kind from rfl, hop]
    simp only [List.cons_append, List.tail_cons, hfile, if_true]
    exact ih _ (by simp at hn; omega)

theorem parseargs_complete {ws' : List Span} {rs' : List Redirection} (h : Words ts ws' rs') (ws : List Span)
    (rs : List Redirection) (hR : (next R).ends = true) (hn : ts.length < n) (hws : (ws ++ ws').length < maxArgs) :
    parseargs n ws.length ((Cmd.exec ws).wrap rs) (ts ++ R) = .ok ((Cmd.exec (ws ++ ws')).wrap (rs ++ rs'), R) := by
  induction h generalizing n ws rs with
  | nil =>
    obtain ⟨n, rfl⟩ := Nat.exists_eq_add_one.mpr hn
    rw [List.append_nil, List.append_nil, List.nil_append]
    cases R with
    | nil => rfl
    | cons t R => exact if_pos hR
  | @cons w ts ts' ws' rs₁ rs₂ hw hredirs hwords ih =>
    obtain ⟨n, rfl⟩ := Nat.exists_eq_add_one.mpr (Nat.zero_lt_of_lt hn)
    simp only [List.length_append, List.length_cons] at hws hn
    rw [List.cons_append, List.cons_append, parseargs, hw, if_neg (by decide), if_neg (by simp), if_neg (by omega), addArg_wrap,
      List.append_assoc, parseredirs_complete hredirs _ (hwords.next_redir hR) (by omega)]
    have hrec := ih (ws ++ [w.span]) (rs ++ rs₁) (n := n) (by omega) (by simp; omega)
    rw [wrap_append, List.length_append, List.append_assoc, List.append_assoc] at hrec
    exact hrec

theorem parsebacks_complete {amps : List Token} (hamps : ∀ t ∈ amps, t.kind = .amp) (cmd : Cmd) (hR : next R ≠ .amp)
    (hn : amps.length < n) : parsebacks n cmd (amps ++ R) = .ok (cmd.backs amps.length, R) := by
  induction amps generalizing n cmd with
  | nil =>
    obtain ⟨n, rfl⟩ := Nat.exists_eq_add_one.mpr hn
    exact if_neg hR
  | cons t amps ih =>
    obtain ⟨n, rfl⟩ := Nat.exists_eq_add_one.mpr (Nat.zero_lt_of_lt hn)
    rw [parsebacks, show next (t :: amps ++ R) = t.kind from rfl, if_pos (hamps t (by simp))]
    exact ih (fun t ht => hamps t (by simp [ht])) (.back cmd) (by simp at hn; omega)

theorem parse_complete {p : Phrase} {cmd : Cmd} (h : Derives p ts cmd) (hR : p.follow (next R) = true) (hn : p.depth ts.length ≤ n) :
    p.parse n (ts ++ R) = .ok (cmd, R) := by
  induction h generalizing n R with
  | @words ts ts' ws rs rs' hredirs hwords hargs =>
    obtain ⟨n, rfl⟩ : ∃ k, n = k + 1 := ⟨n - 1, by simp [Phrase.depth] at hn; omega⟩
    simp only [Phrase.depth, List.length_append] at hn
    rw [List.append_assoc]
    have hlparen : next (ts ++ (ts' ++ R)) ≠ .lparen := by
      intro hl
      obtain hredir | rfl := hredirs.next_cases (ts' ++ R)
      · rw [hl] at hredir
        exact hredir rfl
      · rw [List.nil_append] at hl
        obtain hword | rfl := hwords.next_cases R
        · rw [hword] at hl
          cases hl
        · rw [List.nil_append] at hl
          rw [hl] at hR
          cases hR
    show parseexec (n + 1) _ = _
    rw [parseexec, if_neg hlparen, parseredirs_complete hredirs _ (hwords.next_redir hR) (by omega)]
    exact parseargs_complete hwords [] rs hR (by omega) hargs
  | @block l r ts ts' cmd rs hl hline hr hredirs ih =>
    obtain ⟨n, rfl⟩ : ∃ k, n = k + 2 := ⟨n - 2, by simp [Phrase.depth] at hn; omega⟩
    simp only [Phrase.depth, List.length_append, List.length_cons] at hn
    have hline : parseline n (ts ++ (r :: ts' ++ R)) = .ok (cmd, r :: ts' ++ R) :=
      ih (by rw [show next (r :: ts' ++ R) = r.kind from rfl, hr]; rfl) (by simp only [Phrase.depth]; omega)
    have hrest : l :: ts ++ r :: ts' ++ R = l :: (ts ++ (r :: ts' ++ R)) := by simp
    have hnext : next (l :: (ts ++ (r :: ts' ++ R))) = .lparen := hl
    show parseexec (n + 2) _ = _
    rw [hrest, parseexec, if_pos hnext, parseblock, if_pos hnext, List.tail_cons, hline]
    show (if r.kind = .rparen then _ else _) = _
    rw [if_pos hr]
    exact parseredirs_complete hredirs cmd (Tok.ends_redir hR) (by omega)
  | @exec ts cmd h ih =>
    obtain ⟨n, rfl⟩ : ∃ k, n = k + 1 := ⟨n - 1, by simp [Phrase.depth] at hn; omega⟩
    simp only [Phrase.depth] at hn
    obtain ⟨hends, hbar⟩ : (next R).ends = true ∧ next R ≠ .bar := by simpa [Phrase.follow] using hR
    have hexec : parseexec n (ts ++ R) = .ok (cmd, R) := ih hends (by simp only [Phrase.depth]; omega)
    show parsepipe (n + 1) _ = _
    rw [parsepipe, hexec]
    exact if_neg hbar
  | @pipe t ts ts' cmd cmd' hleft ht hright ihl ihr =>
    obtain ⟨n, rfl⟩ : ∃ k, n = k + 1 := ⟨n - 1, by simp [Phrase.depth] at hn; omega⟩
    simp only [Phrase.depth, List.length_append, List.length_cons] at hn
    have hexec : parseexec n (ts ++ (t :: ts' ++ R)) = .ok (cmd, t :: ts' ++ R) :=
      ihl (by rw [show next (t :: ts' ++ R) = t.kind from rfl, ht]; rfl) (by simp only [Phrase.depth]; omega)
    have hpipe : parsepipe n (ts' ++ R) = .ok (cmd', R) := ihr hR (by simp only [Phrase.depth]; omega)
    show parsepipe (n + 1) _ = _
    rw [parsepipe, List.append_assoc, hexec]
    show (if t.kind = .bar then parsepipe n (ts' ++ R) >>= _ else _) = _
    rw [if_pos ht, hpipe]
    rfl
  | @line ts amps cmd h hamps ih =>
    obtain ⟨n, rfl⟩ : ∃ k, n = k + 1 := ⟨n - 1, by simp [Phrase.depth] at hn; omega⟩
    simp only [Phrase.depth, List.length_append] at hn
    have hfollow : next R = .eof ∨ next R = .rparen := by simpa [Phrase.follow] using hR
    have hpipe : parsepipe n (ts ++ (amps ++ R)) = .ok (cmd, amps ++ R) :=
      ih (follow_amps hamps (by obtain h | h := hfollow <;> rw [h] <;> rfl)) (by simp only [Phrase.depth]; omega)
    show parseline (n + 1) _ = _
    rw [parseline, List.append_assoc, hpipe]
    show parsebacks n cmd (amps ++ R) >>= _ = _
    rw [parsebacks_complete hamps cmd (by obtain h | h := hfollow <;> rw [h] <;> decide) (by omega)]
    exact if_neg (by obtain h | h := hfollow <;> rw [h] <;> decide)
  | @list t ts amps ts' cmd cmd' h hamps ht hright ihl ihr =>
    obtain ⟨n, rfl⟩ : ∃ k, n = k + 1 := ⟨n - 1, by simp [Phrase.depth] at hn; omega⟩
    simp only [Phrase.depth, List.length_append, List.length_cons] at hn
    have hsemi : next (t :: ts' ++ R) = .semi := ht
    have hpipe : parsepipe n (ts ++ (amps ++ (t :: ts' ++ R))) = .ok (cmd, amps ++ (t :: ts' ++ R)) :=
      ihl (follow_amps hamps (by rw [hsemi]; rfl)) (by simp only [Phrase.depth]; omega)
    have hline : parseline n (ts' ++ R) = .ok (cmd', R) := ihr hR (by simp only [Phrase.depth]; omega)
    show parseline (n + 1) _ = _
    rw [parseline, List.append_assoc, List.append_assoc, hpipe]
    show parsebacks n cmd (amps ++ (t :: ts' ++ R)) >>= _ = _
    rw [parsebacks_complete hamps cmd (by rw [hsemi]; decide) (by omega)]
    show (if t.kind = .semi then parseline n (ts' ++ R) >>= _ else _) = _
    rw [if_pos ht, hline]
    rfl

end OnTokens

end Xv6.Shell
