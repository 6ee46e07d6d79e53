import Xv6.Log.Recovery

/-!
# Transactions, and crashes anywhere in them

A transaction is open while its sectors are pinned in the cache and nothing of it is on disk. Committing
it writes the log body, then the header, then redoes the log as recovery would. So a disk found by a crash
belongs to the transactions whose non-empty header has been written: those and no others.
-/

namespace Xv6.RedoLog

open Lib

variable {sb : Superblock} {H : Nat → Block} {t : Txn} {c : Config}

/-! ### Logging -/

/-- The transaction's sectors are in the in-memory log and pinned with their new contents; the disk still
holds `H`. -/
structure Open (sb : Superblock) (H : Nat → Block) (t : Txn) (c : Config) : Prop where
  start : c.log.start = logStart sb
  size : c.log.size = sb.nlog
  mem : ∀ b, b ∈ c.log.lh ↔ b ∈ t.map Prod.fst
  pinned : ∀ b, c.pinned b = if b ∈ c.log.lh then some (replay H t b) else none
  homes : ∀ b ∈ c.log.lh, Home sb b
  length : c.log.lh.length ≤ logSize
  room : ∀ i, i < c.log.lh.length → i + 1 < sb.nlog
  head : headerSectors (c.disk (logStart sb)) = []
  contents : ∀ b, Home sb b → c.disk b = H b

theorem Ready.open (h : Ready sb H c) : Open sb H [] c where
  start := h.start
  size := h.size
  mem := by simp [h.lh]
  pinned := by simp [h.lh, h.pinned]
  homes := by simp [h.lh]
  length := by simp [h.lh]
  room := by simp [h.lh]
  head := h.head
  contents := h.contents

variable {b : Nat}

theorem Open.record {data : Block} (h : Open sb H t c) (hb : Home sb b) (hcheck : c.log.check = none) :
    Open sb H (t ++ [(b, data)])
      { c with log := c.log.record b, pinned := Function.update c.pinned b (some data) } := by
  obtain ⟨hlen, hroom, -⟩ := check_eq_none hcheck
  have hgrow := length_record c.log b
  refine ⟨?_, ?_, ?_, ?_, ?_, by dsimp only; omega, ?_, h.head, h.contents⟩
  · simpa [Log.record, apply_ite Log.start] using h.start
  · simpa [Log.record, apply_ite Log.size] using h.size
  · intro b'
    simp only [mem_record, h.mem b', List.map_append, List.mem_append, List.map_cons, List.map_nil,
      List.mem_singleton]
  · intro b'
    by_cases hb' : b' = b
    · subst hb'
      simp [mem_record, replay_concat]
    · simp [mem_record, hb', replay_concat, h.pinned b']
  · intro b' hb'
    rcases mem_record.mp hb' with hold | rfl
    · exact h.homes b' hold
    · exact hb
  · intro i hi
    dsimp only at hi
    rw [h.size] at hroom
    omega

/-- A `log_write` either panics or adds one sector to the open transaction; it writes nothing to disk. -/
theorem emits_logWrite {data : Block} (h : Open sb H t c) (hb : Home sb b) :
    ∃ r c', Emits (logWrite b data) c r [] c' ∧ c'.disk = c.disk ∧ (r = none → Open sb H (t ++ [(b, data)]) c') := by
  cases hcheck : c.log.check with
  | some panic =>
    refine ⟨some panic, c, (emits_bread b c).then ((emits_getLog c).then ?_), rfl, by simp⟩
    simp only [hcheck]
    exact .ret _ c
  | none =>
    refine ⟨none, { c with log := c.log.record b, pinned := Function.update c.pinned b (some data) },
      (emits_bread b c).then ((emits_getLog c).then ?_), rfl, fun _ => h.record hb hcheck⟩
    simp only [hcheck]
    exact (emits_setLog _ c).then ((emits_pin b data _).then (.ret none _))

theorem emits_logWrites {rest : Txn} (h : Open sb H t c) (hhome : ∀ w ∈ rest, Home sb w.1) :
    ∃ r c', Emits (logWrites rest) c r [] c' ∧ c'.disk = c.disk ∧ (r = none → Open sb H (t ++ rest) c') := by
  induction rest generalizing t c with
  | nil => exact ⟨none, c, .ret none c, rfl, fun _ => by simpa using h⟩
  | cons w rest ih =>
    obtain ⟨r, c', hwrite, hdisk, hopen⟩ := @emits_logWrite _ _ _ _ w.1 w.2 h (hhome w List.mem_cons_self)
    cases r with
    | some panic => exact ⟨some panic, c', hwrite.then (.ret _ c'), hdisk, by simp⟩
    | none =>
      obtain ⟨r, c'', hrest, hdisk', hopen'⟩ := ih (hopen rfl) fun w' hw' => hhome w' (List.mem_cons_of_mem _ hw')
      exact ⟨r, c'', hwrite.then hrest, hdisk'.trans hdisk, fun hr => by simpa using hopen' hr⟩

/-! ### Committing -/

def commitHead (c : Config) : Block := putHeader (c.disk c.log.start) c.log.lh

/-- The disk at the commit point: the log body and then the header have been written. -/
def commitDisk (c : Config) : Nat → Block := replay c.disk (bodyWrites c ++ [(c.log.start, commitHead c)])

theorem Open.clear (hsb : HasLog sb) (h : Open sb H t c) : Clear c := by
  refine clear_of_homes hsb h.start (fun b hb => h.homes b ?_) h.homes h.room
  by_contra hmem
  exact hb (by rw [h.pinned, if_neg hmem])

theorem mem_bodyWrites {w : Nat × Block} (hw : w ∈ bodyWrites c) :
    ∃ i, i < c.log.lh.length ∧ w = (c.log.start + i + 1, c.view (c.log.lh.getD i 0)) := by
  obtain ⟨i, hi, rfl⟩ := List.mem_map.mp hw
  exact ⟨i, List.mem_range.mp hi, rfl⟩

variable {v : List (Nat × Block)}

theorem Open.bodyWrites_out (hsb : HasLog sb) (h : Open sb H t c) (hv : v <+: bodyWrites c)
    (hb : Home sb b ∨ b = logStart sb) : replay c.disk v b = c.disk b := by
  apply replay_of_not_mem
  intro hmem
  obtain ⟨w, hw, rfl⟩ := List.mem_map.mp hmem
  obtain ⟨i, hi, rfl⟩ := mem_bodyWrites (hv.subset hw)
  have hstart := h.start
  rcases hb with hb | hb
  · exact hb.ne_log hsb (h.room i hi) (by rw [h.start, Nat.add_assoc])
  · dsimp only at hb
    omega

theorem Open.commitDisk_head (h : Open sb H t c) : headerSectors (commitDisk c (logStart sb)) = c.log.lh := by
  rw [commitDisk, replay_concat, ← h.start, Function.update_self]
  exact headerSectors_putHeader h.length fun b hb => (h.homes b hb).2

/-- After `write_log` the body holds the transaction's contents of the logged sectors. -/
theorem Open.commitDisk_body (h : Open sb H t c) {i : Nat} (hi : i < c.log.lh.length) :
    commitDisk c (logStart sb + i + 1) = replay H t (c.log.lh.getD i 0) := by
  have hview : c.view (c.log.lh.getD i 0) = replay H t (c.log.lh.getD i 0) := by
    have hmem : c.log.lh.getD i 0 ∈ c.log.lh := by
      rw [List.getD_eq_getElem _ _ hi]
      exact List.getElem_mem hi
    rw [Config.view, h.pinned, if_pos hmem, Option.getD_some]
  rw [commitDisk, replay_concat, ← h.start, Function.update_of_ne (by dsimp only; omega), ← hview]
  apply replay_eq_of_forall
  · exact List.mem_map.mpr ⟨_, List.mem_map.mpr ⟨i, List.mem_range.mpr hi, rfl⟩, rfl⟩
  · intro w hw heq
    obtain ⟨j, hj, rfl⟩ := mem_bodyWrites hw
    have hij : j = i := by
      dsimp only at heq
      omega
    rw [hij]

theorem Open.recoverable_commitDisk (hsb : HasLog sb) (h : Open sb H t c) :
    Recoverable sb (replay H t) (commitDisk c) := by
  have hhead := h.commitDisk_head
  refine ⟨hhead ▸ h.homes, hhead ▸ h.room, fun b hb => ?_⟩
  rw [hhead]
  by_cases hmem : b ∈ c.log.lh
  · apply replay_eq_of_forall
    · rwa [map_fst_logged]
    · intro w hw heq
      obtain ⟨i, hi, rfl⟩ := List.mem_map.mp hw
      dsimp only at heq ⊢
      rw [h.commitDisk_body (List.mem_range.mp hi), heq]
  · rw [replay_of_not_mem (by rwa [map_fst_logged]), replay_of_not_mem (by rwa [← h.mem]), ← h.contents b hb, commitDisk,
      replay_concat, Function.update_of_ne (by rw [h.start]; exact hb.ne_start hsb),
      h.bodyWrites_out hsb (List.prefix_refl _) (.inl hb)]

/-- What `commit` writes: the body, the header, and then the redo of what it has just committed. -/
def commitWrites (sb : Superblock) (c : Config) : List (Nat × Block) :=
  bodyWrites c ++ (c.log.start, commitHead c) :: redoWrites sb (commitDisk c)

theorem emits_commit (hsb : HasLog sb) (h : Open sb H t c) (hne : 0 < c.log.lh.length) :
    Emits commit c () (commitWrites sb c)
      ⟨fun _ => none, replay (commitDisk c) (redoWrites sb (commitDisk c)), { c.log with lh := [] }⟩ := by
  have hclear := h.clear hsb
  have hbody := emits_writeLog hclear
  have hhead := emits_writeHead (c := { c with disk := replay c.disk (bodyWrites c) }) hclear.head
  have hkeep : replay c.disk (bodyWrites c) c.log.start = c.disk c.log.start :=
    h.bodyWrites_out hsb (List.prefix_refl _) (.inr h.start)
  simp only [hkeep] at hhead
  have hdisk : Function.update (replay c.disk (bodyWrites c)) c.log.start (putHeader (c.disk c.log.start) c.log.lh) =
      commitDisk c := by
    rw [commitDisk, replay_concat, commitHead]
  rw [hdisk] at hhead
  have hredo := emits_installAndClear (c := { c with disk := commitDisk c }) ⟨hclear.head, hclear.body, hclear.out⟩
  have hlist : logged c.log.start (commitDisk c) c.log.lh ++ [(c.log.start, putHeader (commitDisk c c.log.start) [])] =
      redoWrites sb (commitDisk c) := by
    rw [redoWrites, h.commitDisk_head, h.start]
  have hpinned : (fun b => if b ∈ c.log.lh then none else c.pinned b) = fun _ => none := by
    funext b
    rw [h.pinned]
    split <;> rfl
  dsimp only at hredo
  rw [hlist, hpinned] at hredo
  have hall := hbody.bind (hhead.bind (f := fun _ => installAndClear) hredo)
    (f := fun _ => writeHead.bind fun _ => installAndClear)
  have hwrites : bodyWrites c ++ ([(c.log.start, putHeader (c.disk c.log.start) c.log.lh)] ++
      redoWrites sb (commitDisk c)) = commitWrites sb c := by
    rw [commitWrites, commitHead, List.singleton_append]
  rw [hwrites] at hall
  refine (emits_getLog c).then ?_
  simp only [gt_iff_lt, hne, if_true]
  exact hall

theorem ready_of_commit (hsb : HasLog sb) (h : Open sb H t c) :
    Ready sb (replay H t)
      ⟨fun _ => none, replay (commitDisk c) (redoWrites sb (commitDisk c)), { c.log with lh := [] }⟩ where
  start := h.start
  size := h.size
  lh := rfl
  pinned _ := rfl
  head := by
    dsimp only
    exact head_redo
  contents b hb := by
    dsimp only
    exact (h.recoverable_commitDisk hsb).redo hsb hb

/-! ### How many transactions a list of writes has committed -/

/-- The number of writes that put a non-empty header on disk. -/
def heads (sb : Superblock) (ws : List (Nat × Block)) : Nat :=
  ws.countP fun w => w.1 == logStart sb && headerCount w.2 != 0

theorem heads_append (ws vs : List (Nat × Block)) : heads sb (ws ++ vs) = heads sb ws + heads sb vs :=
  List.countP_append

theorem heads_eq_zero {ws : List (Nat × Block)} (h : ∀ w ∈ ws, w.1 = logStart sb → headerCount w.2 = 0) :
    heads sb ws = 0 := by
  rw [heads, List.countP_eq_zero]
  intro w hw
  simpa using h w hw

theorem Open.heads_bodyWrites (h : Open sb H t c) (hv : v <+: bodyWrites c) : heads sb v = 0 := by
  apply heads_eq_zero
  intro w hw heq
  obtain ⟨i, -, rfl⟩ := mem_bodyWrites (hv.subset hw)
  have hstart := h.start
  dsimp only at heq
  omega

theorem Open.heads_commitHead (h : Open sb H t c) (hne : 0 < c.log.lh.length) :
    heads sb [(c.log.start, commitHead c)] = 1 := by
  have hcount : headerCount (commitHead c) ≠ 0 := by
    rw [commitHead, headerCount_putHeader h.length]
    omega
  simp [heads, h.start, hcount]

variable {d : Nat → Block}

theorem Recoverable.heads_redo (hsb : HasLog sb) (h : Recoverable sb H d)
    (hv : v <+: redoWrites sb d) : heads sb v = 0 := by
  apply heads_eq_zero
  intro w hw heq
  rcases List.mem_append.mp (hv.subset hw) with hbody | hlast
  · have hmem : w.1 ∈ headerSectors (d (logStart sb)) := by
      rw [← map_fst_logged (logStart sb) d (headerSectors (d (logStart sb)))]
      exact List.mem_map_of_mem hbody
    exact absurd heq ((h.homes _ hmem).ne_start hsb)
  · rw [List.mem_singleton.mp hlast, headerCount_putHeader (by simp), List.length_nil]

/-- A prefix of a concatenation ends in its first part or reaches into its second. -/
theorem prefix_append_cases {α : Type} {v ws vs : List α} (h : v <+: ws ++ vs) :
    v <+: ws ∨ ∃ v', v' <+: vs ∧ v = ws ++ v' := by
  rcases Nat.lt_or_ge v.length ws.length with hlt | hge
  · exact .inl (List.prefix_of_prefix_length_le h (List.prefix_append ws vs) hlt.le)
  · obtain ⟨v', rfl⟩ := List.prefix_of_prefix_length_le (List.prefix_append ws vs) h hge
    exact .inr ⟨v', (List.prefix_append_right_inj ws).mp h, rfl⟩

/-- One transaction. Cut `commit` anywhere: before its header is on disk the home sectors recover to
their old contents, and afterwards to those of the transaction. -/
theorem Open.commit_cut (hsb : HasLog sb) (h : Open sb H t c) (hne : 0 < c.log.lh.length)
    (hv : v <+: commitWrites sb c) :
    heads sb v = 0 ∧ Recoverable sb H (replay c.disk v) ∨
      heads sb v = 1 ∧ Recoverable sb (replay H t) (replay c.disk v) := by
  rcases prefix_append_cases hv with hbody | ⟨v', hv', rfl⟩
  · refine .inl ⟨h.heads_bodyWrites hbody, recoverable_of_empty ?_ fun b hb => ?_⟩
    · rw [h.bodyWrites_out hsb hbody (.inr rfl), h.head]
    · rw [h.bodyWrites_out hsb hbody (.inl hb), h.contents b hb]
  · cases v' with
    | nil =>
      rw [List.append_nil]
      refine .inl ⟨h.heads_bodyWrites (List.prefix_refl _), recoverable_of_empty ?_ fun b hb => ?_⟩
      · rw [h.bodyWrites_out hsb (List.prefix_refl _) (.inr rfl), h.head]
      · rw [h.bodyWrites_out hsb (List.prefix_refl _) (.inl hb), h.contents b hb]
    | cons w v' =>
      obtain ⟨rfl, hredo⟩ := List.cons_prefix_cons.mp hv'
      have hcommitted := h.recoverable_commitDisk hsb
      refine .inr ⟨?_, ?_⟩
      · rw [← List.singleton_append, heads_append, heads_append, h.heads_bodyWrites (List.prefix_refl _),
          h.heads_commitHead hne, hcommitted.heads_redo hsb hredo]
      · rw [← List.singleton_append, ← List.append_assoc, replay_append]
        exact hcommitted.redo_cut hsb hredo

theorem Open.commit (hsb : HasLog sb) (h : Open sb H t c) (hne : t ≠ []) :
    ∃ ws c', Emits commit c () ws c' ∧ Ready sb (replay H t) c' ∧ heads sb ws = 1 ∧
      ∀ v, v <+: ws → heads sb v = 0 ∧ Recoverable sb H (replay c.disk v) ∨
        heads sb v = 1 ∧ Recoverable sb (replay H t) (replay c.disk v) := by
  have hlh : 0 < c.log.lh.length := by
    obtain ⟨w, rest, rfl⟩ := List.exists_cons_of_ne_nil hne
    exact List.length_pos_of_mem ((h.mem w.1).mpr (by simp))
  refine ⟨_, _, emits_commit hsb h hlh, ready_of_commit hsb h, ?_, fun v hv => h.commit_cut hsb hlh hv⟩
  rw [commitWrites, ← List.singleton_append, heads_append, heads_append, h.heads_bodyWrites (List.prefix_refl _),
    h.heads_commitHead hlh, (h.recoverable_commitDisk hsb).heads_redo hsb (List.prefix_refl _)]

/-! ### A kernel's life -/

/-- Contents of the sectors after the transactions, one after another. -/
def contentsAfter (H : Nat → Block) (txns : List Txn) : Nat → Block := txns.foldl replay H

def nonEmpty (txns : List Txn) : List Txn := txns.filter fun t => !t.isEmpty

/-- The disk, cut anywhere, recovers to the transactions whose header it has seen. -/
def Follows (sb : Superblock) (H : Nat → Block) (txns : List Txn) (d : Nat → Block) (v : List (Nat × Block)) : Prop :=
  Recoverable sb (contentsAfter H ((nonEmpty txns).take (heads sb v))) (replay d v)

theorem emits_setOutstanding (n : Nat) (c : Config) :
    Emits (setOutstanding n) c () [] { c with log := { c.log with outstanding := n } } :=
  (emits_getLog c).then (emits_setLog { c.log with outstanding := n } c)

theorem emits_commit_nil (hlh : c.log.lh = []) : Emits commit c () [] c := by
  refine (emits_getLog c).then ?_
  simp only [hlh, List.length_nil, gt_iff_lt, lt_irrefl, if_false]
  exact .ret () c

theorem Open.setOutstanding (h : Open sb H t c) (n : Nat) :
    Open sb H t { c with log := { c.log with outstanding := n } } where
  start := h.start
  size := h.size
  mem := h.mem
  pinned := h.pinned
  homes := h.homes
  length := h.length
  room := h.room
  head := h.head
  contents := h.contents

theorem Ready.follows_nil (h : Ready sb H c) (txns : List Txn) : Follows sb H txns c.disk [] := by
  simpa [Follows, heads, contentsAfter] using h.recoverable

theorem Open.ready (h : Open sb H [] c) : Ready sb H c where
  start := h.start
  size := h.size
  lh := List.eq_nil_iff_forall_not_mem.mpr fun b hb => by simpa using (h.mem b).mp hb
  pinned b := by
    rw [h.pinned, if_neg]
    intro hb
    simpa using (h.mem b).mp hb
  head := h.head
  contents := h.contents

theorem emits_operations (h : Ready sb H c) (hhome : ∀ w ∈ t, Home sb w.1) :
    (∃ panic c', Emits (logWrites t) { c with log := { c.log with outstanding := 1 } } (some panic) [] c') ∨
    ∃ c₁ c', Emits (logWrites t) { c with log := { c.log with outstanding := 1 } } none [] c₁ ∧
      Emits (setOutstanding 0) c₁ () [] c' ∧ c'.disk = c.disk ∧ Open sb H t c' := by
  obtain ⟨r, c₁, hlog, hdisk, hopen⟩ := emits_logWrites (h.open.setOutstanding 1) hhome
  cases r with
  | some panic => exact .inl ⟨panic, c₁, hlog⟩
  | none => exact .inr ⟨c₁, _, hlog, emits_setOutstanding 0 c₁, hdisk, (hopen rfl).setOutstanding 0⟩

theorem emits_transactions (hsb : HasLog sb) {txns : List Txn} (h : Ready sb H c)
    (hhome : ∀ t ∈ txns, ∀ w ∈ t, Home sb w.1) :
    ∃ ws c', Emits (transactions txns) c () ws c' ∧ ∀ v, v <+: ws → Follows sb H txns c.disk v := by
  induction txns generalizing H c with
  | nil =>
    refine ⟨[], c, .ret () c, fun v hv => ?_⟩
    rw [List.prefix_nil.mp hv]
    exact h.follows_nil []
  | cons t txns ih =>
    have hrest : ∀ t' ∈ txns, ∀ w ∈ t', Home sb w.1 := fun t' ht' => hhome t' (List.mem_cons_of_mem _ ht')
    have hbegin := emits_setOutstanding 1 c
    rcases emits_operations h (hhome t List.mem_cons_self) with ⟨panic, c₁, hlog⟩ | ⟨c₁, c₂, hlog, hend, hdisk, hopen⟩
    · refine ⟨[], c₁, hbegin.then (hlog.then (.ret () c₁)), fun v hv => ?_⟩
      rw [List.prefix_nil.mp hv]
      exact h.follows_nil _
    · by_cases hne : t = []
      · subst hne
        have hready := hopen.ready
        obtain ⟨ws, c₃, hmore, hfollows⟩ := ih hready hrest
        refine ⟨ws, c₃, hbegin.then (hlog.then (hend.then ((emits_commit_nil hready.lh).then hmore))), fun v hv => ?_⟩
        rw [← hdisk]
        exact hfollows v hv
      · obtain ⟨ws, c₃, hcommit, hready, hone, hcut⟩ := hopen.commit hsb hne
        obtain ⟨vs, c₄, hmore, hfollows⟩ := ih hready hrest
        refine ⟨ws ++ vs, c₄, hbegin.then (hlog.then (hend.then (hcommit.bind hmore))), fun v hv => ?_⟩
        have hkept : nonEmpty (t :: txns) = t :: nonEmpty txns := by simp [nonEmpty, hne]
        rw [Follows, hkept]
        rcases prefix_append_cases hv with hfirst | ⟨v', hv', rfl⟩
        · -- the crash falls into this transaction's commit
          rw [← hdisk]
          rcases hcut v hfirst with ⟨hcount, hrec⟩ | ⟨hcount, hrec⟩
          · rw [hcount]
            exact hrec
          · rw [hcount]
            exact hrec
        · -- the crash falls into a later one
          have hlater := hfollows v' hv'
          rw [Follows, hcommit.disk, hdisk] at hlater
          rw [heads_append, hone, Nat.add_comm, List.take_succ_cons, replay_append]
          exact hlater

theorem kernel_follows (hsb : HasLog sb) (h : Recoverable sb H d) {txns : List Txn}
    (hhome : ∀ t ∈ txns, ∀ w ∈ t, Home sb w.1) {s : Machine} (hmid : Prog.Mid sem (kernel sb txns) (boot d) s) :
    Recoverable sb (contentsAfter H ((nonEmpty txns).take (heads sb s.writes))) s.disk := by
  have hinit := emits_initlog hsb h
  obtain ⟨ws, c', htxns, hfollows⟩ := emits_transactions hsb (ready_of_recovery hsb h) hhome
  obtain ⟨v, hv, hdisk, hwrites⟩ := ((hinit.bind htxns).run []).crash (boot_at d) hmid
  rw [hdisk, hwrites, List.nil_append]
  rcases prefix_append_cases hv with hfirst | ⟨v', hv', rfl⟩
  · rw [h.heads_redo hsb hfirst]
    exact h.redo_cut hsb hfirst
  · have hlater := hfollows v' hv'
    rw [Follows] at hlater
    dsimp only at hlater
    rw [heads_append, h.heads_redo hsb (List.prefix_refl _), Nat.zero_add, replay_append]
    exact hlater

/-! ### Crash atomicity -/

/-- From the disk `d₀`, kernels run transactions and crash, one after another; `done` is what the headers
on disk have committed. A kernel that runs no transaction is a recovery, which may crash as well. -/
inductive Crashes (sb : Superblock) (d₀ : Nat → Block) : (Nat → Block) → List Txn → Prop where
  | fresh : Crashes sb d₀ d₀ []
  | crash {d : Nat → Block} {done txns : List Txn} {s : Machine} (h : Crashes sb d₀ d done)
      (hhome : ∀ t ∈ txns, ∀ w ∈ t, Home sb w.1) (hmid : Prog.Mid sem (kernel sb txns) (boot d) s) :
      Crashes sb d₀ s.disk (done ++ (nonEmpty txns).take (heads sb s.writes))

/-- Recoveries, complete or cut short, one after another. -/
inductive Recoveries (sb : Superblock) (d : Nat → Block) : (Nat → Block) → Prop where
  | none : Recoveries sb d d
  | again {d' : Nat → Block} {s : Machine} (h : Recoveries sb d d') (hmid : Prog.Mid sem (initlog sb) (boot d') s) :
      Recoveries sb d s.disk

theorem Crashes.recoverable (hsb : HasLog sb) {d₀ : Nat → Block} {done : List Txn}
    (hfresh : headerCount (d₀ (logStart sb)) = 0) (h : Crashes sb d₀ d done) :
    Recoverable sb (contentsAfter d₀ done) d := by
  induction h with
  | fresh => exact recoverable_of_empty (by simp [headerSectors, hfresh]) fun _ _ => rfl
  | crash _ hhome hmid ih =>
    rw [contentsAfter, List.foldl_append]
    exact kernel_follows hsb ih hhome hmid

theorem redoWrites_of_empty (hhead : headerSectors (d (logStart sb)) = []) :
    redoWrites sb d = [(logStart sb, putHeader (d (logStart sb)) [])] := by
  simp [redoWrites, hhead, logged]

theorem Recoveries.settled (hsb : HasLog sb) {d' : Nat → Block} (hhead : headerSectors (d (logStart sb)) = [])
    (h : Recoveries sb d d') : headerSectors (d' (logStart sb)) = [] ∧ ∀ b, Home sb b → d' b = d b := by
  induction h with
  | none => exact ⟨hhead, fun _ _ => rfl⟩
  | again _ hmid ih =>
    obtain ⟨hempty, hsame⟩ := ih
    have hrec : Recoverable sb _ _ := recoverable_of_empty hempty fun _ _ => rfl
    obtain ⟨v, hv, hdisk, -⟩ := ((emits_initlog hsb hrec).run []).crash (boot_at _) hmid
    rw [redoWrites_of_empty hempty, ← List.nil_append [_]] at hv
    dsimp only at hdisk
    rw [hdisk]
    rcases prefix_concat_cases hv with hnil | hall
    · rw [List.prefix_nil.mp hnil]
      exact ⟨hempty, hsame⟩
    · rw [hall, replay_concat, replay_nil]
      refine ⟨?_, fun b hb => ?_⟩
      · rw [Function.update_self, headerSectors_cleared]
      · rw [Function.update_of_ne (hb.ne_start hsb), hsame b hb]

theorem terminates {α : Type} (p : LogProg α) (s : Machine) : ∃ a s', Prog.Exec sem p s a s' := by
  refine Prog.exists_exec (fun c s => ?_) p s
  cases c with
  | bread b => exact ⟨_, _, rfl, s.cache, fun _ => .inl rfl, rfl⟩
  | bwrite b data => exact ⟨(), _, rfl⟩
  | pin b data => exact ⟨(), _, rfl⟩
  | getLog => exact ⟨_, _, rfl, rfl⟩
  | setLog log => exact ⟨(), _, rfl⟩

/-- Crash atomicity of the redo log. Start from an image with an empty log and let kernels run any
transactions and crash between any two sector writes, in a transaction, in a commit or in a recovery, any
number of times. Recovery then ends, and it leaves every home sector with its contents after exactly the
transactions whose non-empty header reached the disk; further recoveries, with crashes inside them, change
no home sector. -/
theorem crash_atomicity (sb : Superblock) (hsb : HasLog sb) (d₀ d : Nat → Block) (done : List Txn)
    (hfresh : headerCount (d₀ (logStart sb)) = 0) (h : Crashes sb d₀ d done) :
    (∃ s, Prog.Exec sem (initlog sb) (boot d) () s) ∧
    ∀ s, Prog.Exec sem (initlog sb) (boot d) () s →
      (∀ b, Home sb b → s.disk b = contentsAfter d₀ done b) ∧
      ∀ d', Recoveries sb s.disk d' → ∀ b, Home sb b → d' b = s.disk b := by
  obtain ⟨_, s₀, hends⟩ := terminates (initlog sb) (boot d)
  refine ⟨⟨s₀, hends⟩, fun s hexec => ?_⟩
  have hrec := h.recoverable hsb hfresh
  have hend := (((emits_initlog hsb hrec).run []).post (boot_at d) hexec).2.disk
  dsimp only at hend
  rw [hend]
  exact ⟨fun b hb => hrec.redo hsb hb, fun d' hd' => (hd'.settled hsb head_redo).2⟩

/-- A zeroed disk of eight sectors with a log of four, and a transaction that fills sector 0 with ones. -/
theorem crash_atomicity_one_transaction :
    ∃ s, Prog.Mid sem (kernel ⟨8, 0, 0, 4⟩ [[(0, fun _ => 1)]]) (boot fun _ => Bytes.zero) s ∧
      ∀ s', Prog.Exec sem (initlog ⟨8, 0, 0, 4⟩) (boot s.disk) () s' → ∀ b, Home ⟨8, 0, 0, 4⟩ b →
        s'.disk b = contentsAfter (fun _ => Bytes.zero)
          ((nonEmpty [[(0, fun _ => 1)]]).take (heads ⟨8, 0, 0, 4⟩ s.writes)) b := by
  obtain ⟨_, s, hexec⟩ := terminates (kernel ⟨8, 0, 0, 4⟩ [[(0, fun _ => 1)]]) (boot fun _ => Bytes.zero)
  have hcrash : Crashes ⟨8, 0, 0, 4⟩ (fun _ => Bytes.zero) _ _ :=
    .crash .fresh (by simp [Home, logStart]) hexec.mid
  exact ⟨s, hexec.mid, fun s' hs' => ((crash_atomicity ⟨8, 0, 0, 4⟩ (by simp [HasLog]) _ _ _
    (by simp [headerCount]) hcrash).2 s' hs').1⟩

end Xv6.RedoLog
