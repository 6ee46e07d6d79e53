import Xv6.Log.Writes

/-!
# Crash atomicity of the redo log

A crash loses everything but the disk, so what a crash may find is a disk that has seen a beginning of the
writes of a kernel's life. `Recoverable` is the relation that holds of every such disk: the header names the
home sectors and their contents lie in the log body, and replaying them over the disk gives the contents
after the committed transactions. Writing the body keeps it because the header still counts nothing; the
header write moves it to the next transaction in one step; installing keeps it because redo is idempotent;
and clearing the header keeps it because by then there is nothing left to redo.
-/

namespace Xv6.RedoLog

open Lib

/-! ### What each function writes -/

/-- The log body against the sectors it belongs to. -/
def logged (start : Nat) (d : Nat → Block) (lh : List Nat) : List (Nat × Block) :=
  (List.range lh.length).map fun i => (lh.getD i 0, d (start + i + 1))

@[simp] theorem length_logged (start : Nat) (d : Nat → Block) (lh : List Nat) : (logged start d lh).length = lh.length := by
  simp [logged]

theorem map_fst_logged (start : Nat) (d : Nat → Block) (lh : List Nat) : (logged start d lh).map Prod.fst = lh := by
  apply List.ext_getElem
  · simp
  · intro i hi hi'
    simp [logged, List.getElem?_eq_getElem hi']

variable {d : Nat → Block}

theorem logged_congr {start : Nat} {d' : Nat → Block} {lh : List Nat}
    (h : ∀ i, i < lh.length → d (start + i + 1) = d' (start + i + 1)) : logged start d lh = logged start d' lh := by
  apply List.map_congr_left
  intro i hi
  rw [h i (List.mem_range.mp hi)]

theorem take_succ_logged {start : Nat} {lh : List Nat} {k : Nat} (hk : k < lh.length) :
    (logged start d lh).take (k + 1) = (logged start d lh).take k ++ [(lh.getD k 0, d (start + k + 1))] := by
  rw [List.take_add_one, List.getElem?_eq_getElem (by simpa using hk)]
  simp [logged]

/-- The log area is clear of the sectors in the log and of pinned buffers. -/
structure Clear (c : Config) : Prop where
  head : c.pinned c.log.start = none
  body : ∀ i, i < c.log.lh.length → c.pinned (c.log.start + i + 1) = none
  out : ∀ b ∈ c.log.lh, b ≠ c.log.start ∧ ∀ i, i < c.log.lh.length → b ≠ c.log.start + i + 1

variable {c : Config}

theorem Clear.getD_ne (h : Clear c) {k i : Nat} (hk : k < c.log.lh.length) (hi : i < c.log.lh.length) :
    c.log.lh.getD k 0 ≠ c.log.start + i + 1 := by
  have hmem : c.log.lh.getD k 0 ∈ c.log.lh := by
    rw [List.getD_eq_getElem _ _ hk]
    exact List.getElem_mem hk
  exact (h.out _ hmem).2 i hi

/-- The configuration after the logged sectors have been installed. -/
def Config.installed (c : Config) (k : Nat) : Config where
  pinned := fun b => if b ∈ c.log.lh.take k then none else c.pinned b
  disk := replay c.disk ((logged c.log.start c.disk c.log.lh).take k)
  log := c.log

theorem emits_installTrans (h : Clear c) :
    Emits installTrans c () (logged c.log.start c.disk c.log.lh) (c.installed c.log.lh.length) := by
  have hstep : ∀ k, k < c.log.lh.length → Emits (do
      let lbuf ← bread (c.log.start + k + 1)
      let _dbuf ← bread (c.log.lh.getD k 0)
      bwrite (c.log.lh.getD k 0) lbuf) (c.installed k) () [(c.log.lh.getD k 0, c.disk (c.log.start + k + 1))]
      (c.installed (k + 1)) := by
    intro k hk
    -- installing earlier sectors has not touched the log body
    have hview : (c.installed k).view (c.log.start + k + 1) = c.disk (c.log.start + k + 1) := by
      have hpin : (c.installed k).pinned (c.log.start + k + 1) = none := by
        simp only [Config.installed, h.body k hk, ite_self]
      rw [Config.view, hpin, Option.getD_none]
      apply replay_of_not_mem
      intro hmem
      have hmem' : c.log.start + k + 1 ∈ c.log.lh := by
        rw [← map_fst_logged c.log.start c.disk c.log.lh]
        exact (List.take_sublist _ _).map Prod.fst |>.subset hmem
      exact (h.out _ hmem').2 k hk rfl
    have hnext : (c.installed k).bwrite (c.log.lh.getD k 0) (c.disk (c.log.start + k + 1)) = c.installed (k + 1) := by
      have htake : c.log.lh.take (k + 1) = c.log.lh.take k ++ [c.log.lh.getD k 0] := by
        rw [List.take_add_one, List.getElem?_eq_getElem hk, List.getD_eq_getElem _ _ hk]
        rfl
      simp only [Config.bwrite, Config.installed, take_succ_logged hk, replay_concat, htake]
      congr 1
      funext b
      by_cases hb : b = c.log.lh.getD k 0
      · rw [hb, Function.update_self, if_pos (by simp)]
      · rw [Function.update_of_ne hb]
        simp only [List.mem_append, List.mem_singleton, hb, or_false]
    have hwrite := (emits_bread (c.log.start + k + 1) (c.installed k)).bind
      ((emits_bread (c.log.lh.getD k 0) (c.installed k)).bind
        (f := fun _ => bwrite (c.log.lh.getD k 0) ((c.installed k).view (c.log.start + k + 1)))
        (emits_bwrite _ _ (c.installed k)))
      (f := fun lbuf => (bread (c.log.lh.getD k 0)).bind fun _ => bwrite (c.log.lh.getD k 0) lbuf)
    rw [hview, hnext] at hwrite
    exact hwrite
  have hzero : c.installed 0 = c := by simp [Config.installed]
  have hloop := Emits.loop hstep
  rw [← List.map_eq_flatMap, hzero] at hloop
  exact (emits_getLog c).bind hloop

/-- What `write_log` writes: the current contents of the logged sectors, into the log body. -/
def bodyWrites (c : Config) : List (Nat × Block) :=
  (List.range c.log.lh.length).map fun i => (c.log.start + i + 1, c.view (c.log.lh.getD i 0))

theorem emits_writeLog (h : Clear c) :
    Emits writeLog c () (bodyWrites c) { c with disk := replay c.disk (bodyWrites c) } := by
  let cs : Nat → Config := fun k => { c with disk := replay c.disk ((bodyWrites c).take k) }
  have hstep : ∀ k, k < c.log.lh.length → Emits (do
      let _to ← bread (c.log.start + k + 1)
      let from_ ← bread (c.log.lh.getD k 0)
      bwrite (c.log.start + k + 1) from_) (cs k) () [(c.log.start + k + 1, c.view (c.log.lh.getD k 0))] (cs (k + 1)) := by
    intro k hk
    -- the body written so far holds none of the logged sectors
    have hview : (cs k).view (c.log.lh.getD k 0) = c.view (c.log.lh.getD k 0) := by
      have hdisk : (cs k).disk (c.log.lh.getD k 0) = c.disk (c.log.lh.getD k 0) := by
        apply replay_of_not_mem
        intro hmem
        obtain ⟨w, hw, hfst⟩ := List.mem_map.mp hmem
        obtain ⟨i, hi, rfl⟩ := List.mem_map.mp ((List.take_sublist _ _).subset hw)
        exact h.getD_ne hk (List.mem_range.mp hi) hfst.symm
      simp only [Config.view, hdisk]
      rfl
    have hnext : (cs k).bwrite (c.log.start + k + 1) (c.view (c.log.lh.getD k 0)) = cs (k + 1) := by
      have htake : (bodyWrites c).take (k + 1) =
          (bodyWrites c).take k ++ [(c.log.start + k + 1, c.view (c.log.lh.getD k 0))] := by
        rw [List.take_add_one, List.getElem?_eq_getElem (by simpa [bodyWrites] using hk)]
        simp [bodyWrites]
      simp only [cs, Config.bwrite, htake, replay_concat]
      rw [← h.body k hk, Function.update_eq_self]
    have hwrite := (emits_bread (c.log.start + k + 1) (cs k)).bind
      ((emits_bread (c.log.lh.getD k 0) (cs k)).bind (emits_bwrite (c.log.start + k + 1) _ (cs k))
        (f := fun from_ => bwrite (c.log.start + k + 1) from_))
      (f := fun _ => (bread (c.log.lh.getD k 0)).bind fun from_ => bwrite (c.log.start + k + 1) from_)
    rw [hview, hnext] at hwrite
    exact hwrite
  have hloop := Emits.loop hstep
  rw [← List.map_eq_flatMap] at hloop
  have hlast : cs c.log.lh.length = { c with disk := replay c.disk (bodyWrites c) } := by
    simp [cs, bodyWrites, List.take_of_length_le]
  rw [hlast] at hloop
  exact (emits_getLog c).bind hloop

theorem emits_readHead (hhead : c.pinned c.log.start = none) :
    Emits readHead c () [] { c with log := { c.log with lh := headerSectors (c.disk c.log.start) } } := by
  have hview : c.view c.log.start = c.disk c.log.start := by simp [Config.view, hhead]
  have h := (emits_getLog c).bind ((emits_bread c.log.start c).bind
    (emits_setLog { c.log with lh := headerSectors (c.view c.log.start) } c)
    (f := fun buf => setLog { c.log with lh := headerSectors buf }))
    (f := fun log => (bread log.start).bind fun buf => setLog { log with lh := headerSectors buf })
  rw [hview] at h
  exact h

theorem emits_writeHead (hhead : c.pinned c.log.start = none) :
    Emits writeHead c () [(c.log.start, putHeader (c.disk c.log.start) c.log.lh)]
      { c with disk := Function.update c.disk c.log.start (putHeader (c.disk c.log.start) c.log.lh) } := by
  have hview : c.view c.log.start = c.disk c.log.start := by simp [Config.view, hhead]
  have h := (emits_getLog c).bind ((emits_bread c.log.start c).bind
    (emits_bwrite c.log.start (putHeader (c.view c.log.start) c.log.lh) c)
    (f := fun buf => bwrite c.log.start (putHeader buf c.log.lh)))
    (f := fun log => (bread log.start).bind fun buf => bwrite log.start (putHeader buf log.lh))
  rw [hview, Config.bwrite] at h
  rw [← hhead, Function.update_eq_self] at h
  exact h

theorem emits_clearHead (c : Config) : Emits clearHead c () [] { c with log := { c.log with lh := [] } } :=
  (emits_getLog c).bind (emits_setLog { c.log with lh := [] } c)

/-- The tail common to `commit` and `recover_from_log`. -/
def installAndClear : LogProg Unit := do
  installTrans
  clearHead
  writeHead

variable {v : List (Nat × Block)}

theorem Clear.replay_head (h : Clear c)
    (hv : v <+: logged c.log.start c.disk c.log.lh) : replay c.disk v c.log.start = c.disk c.log.start := by
  apply replay_of_not_mem
  intro hmem
  have hmem' : c.log.start ∈ c.log.lh := by
    rw [← map_fst_logged c.log.start c.disk c.log.lh]
    exact (hv.map Prod.fst).subset hmem
  exact (h.out _ hmem').1 rfl

theorem emits_installAndClear (h : Clear c) :
    Emits installAndClear c ()
      (logged c.log.start c.disk c.log.lh ++ [(c.log.start, putHeader (c.disk c.log.start) [])])
      { pinned := fun b => if b ∈ c.log.lh then none else c.pinned b
        disk := replay c.disk (logged c.log.start c.disk c.log.lh ++ [(c.log.start, putHeader (c.disk c.log.start) [])])
        log := { c.log with lh := [] } } := by
  have hhead : replay c.disk (logged c.log.start c.disk c.log.lh) c.log.start = c.disk c.log.start :=
    h.replay_head (List.prefix_refl _)
  have hinst : c.installed c.log.lh.length =
      ⟨fun b => if b ∈ c.log.lh then none else c.pinned b, replay c.disk (logged c.log.start c.disk c.log.lh), c.log⟩ := by
    simp [Config.installed, List.take_of_length_le]
  have hpin : (if c.log.start ∈ c.log.lh then none else c.pinned c.log.start) = none := by
    rw [h.head, ite_self]
  have hinstall := emits_installTrans h
  rw [hinst] at hinstall
  have hclear := emits_clearHead ⟨fun b => if b ∈ c.log.lh then none else c.pinned b,
    replay c.disk (logged c.log.start c.disk c.log.lh), c.log⟩
  have hwrite := emits_writeHead (c := ⟨fun b => if b ∈ c.log.lh then none else c.pinned b,
    replay c.disk (logged c.log.start c.disk c.log.lh), { c.log with lh := [] }⟩) hpin
  simp only [hhead] at hwrite
  rw [replay_concat]
  exact hinstall.bind (hclear.bind hwrite)

/-! ### Recoverable disks -/

def logStart (sb : Superblock) : Nat := sb.size - sb.nlog

/-- The image has a log: its area holds at least the header block. -/
def HasLog (sb : Superblock) : Prop := 0 < sb.nlog ∧ sb.nlog ≤ sb.size

/-- A sector with a 32-bit number outside the log area `[sb.size - sb.nlog, sb.size)`. -/
def Home (sb : Superblock) (b : Nat) : Prop := (b < logStart sb ∨ sb.size ≤ b) ∧ b < 2 ^ 32

/-- The on-disk log, replayed over the disk, gives every home sector the contents `H`. -/
structure Recoverable (sb : Superblock) (H d : Nat → Block) : Prop where
  homes : ∀ b ∈ headerSectors (d (logStart sb)), Home sb b
  room : ∀ i, i < (headerSectors (d (logStart sb))).length → i + 1 < sb.nlog
  contents : ∀ b, Home sb b → replay d (logged (logStart sb) d (headerSectors (d (logStart sb)))) b = H b

/-- Nothing is logged, nothing is pinned, and the home sectors on disk are `H`. -/
structure Ready (sb : Superblock) (H : Nat → Block) (c : Config) : Prop where
  start : c.log.start = logStart sb
  size : c.log.size = sb.nlog
  lh : c.log.lh = []
  pinned : ∀ b, c.pinned b = none
  head : headerSectors (c.disk (logStart sb)) = []
  contents : ∀ b, Home sb b → c.disk b = H b

variable {sb : Superblock} {H : Nat → Block}

variable {b : Nat}

theorem Home.ne_log (hsb : HasLog sb) {i : Nat} (hb : Home sb b) (hi : i < sb.nlog) : b ≠ logStart sb + i := by
  have h := hb.1
  have hle := hsb.2
  simp only [logStart] at *
  omega

theorem Home.ne_start (hsb : HasLog sb) (hb : Home sb b) : b ≠ logStart sb := hb.ne_log hsb hsb.1

theorem recoverable_of_empty (hhead : headerSectors (d (logStart sb)) = [])
    (hhome : ∀ b, Home sb b → d b = H b) : Recoverable sb H d where
  homes := by simp [hhead]
  room := by simp [hhead]
  contents b hb := by simpa [hhead, logged] using hhome b hb

theorem Ready.recoverable (h : Ready sb H c) : Recoverable sb H c.disk :=
  recoverable_of_empty h.head h.contents

theorem clear_of_homes (hsb : HasLog sb) (hstart : c.log.start = logStart sb)
    (hpin : ∀ b, c.pinned b ≠ none → Home sb b) (hhomes : ∀ b ∈ c.log.lh, Home sb b)
    (hroom : ∀ i, i < c.log.lh.length → i + 1 < sb.nlog) : Clear c where
  head := by
    by_contra hne
    exact (hpin _ hne).ne_start hsb hstart
  body i hi := by
    by_contra hne
    exact (hpin _ hne).ne_log hsb (hroom i hi) (by rw [hstart, Nat.add_assoc])
  out b hb := ⟨fun heq => (hhomes b hb).ne_start hsb (heq.trans hstart),
    fun i hi heq => (hhomes b hb).ne_log hsb (hroom i hi) (by rw [heq, hstart, Nat.add_assoc])⟩

theorem headerSectors_cleared (b : Block) : headerSectors (putHeader b []) = [] :=
  headerSectors_putHeader (by simp) (by simp)

/-- Installing a beginning of the log leaves the disk recoverable: header and body are still there. -/
theorem Recoverable.installed (hsb : HasLog sb) (h : Recoverable sb H d)
    (hv : v <+: logged (logStart sb) d (headerSectors (d (logStart sb)))) : Recoverable sb H (replay d v) := by
  have houtside : ∀ w ∈ v, Home sb w.1 := by
    intro w hw
    apply h.homes
    rw [← map_fst_logged (logStart sb) d (headerSectors (d (logStart sb)))]
    exact List.mem_map_of_mem (hv.subset hw)
  have hkeep : ∀ i, i < sb.nlog → replay d v (logStart sb + i) = d (logStart sb + i) := by
    intro i hi
    apply replay_of_not_mem
    intro hmem
    obtain ⟨w, hw, heq⟩ := List.mem_map.mp hmem
    exact (houtside w hw).ne_log hsb hi heq
  have hhead : headerSectors (replay d v (logStart sb)) = headerSectors (d (logStart sb)) :=
    congrArg headerSectors (hkeep 0 hsb.1)
  have hbody : logged (logStart sb) (replay d v) (headerSectors (d (logStart sb))) =
      logged (logStart sb) d (headerSectors (d (logStart sb))) :=
    logged_congr fun i hi => hkeep (i + 1) (h.room i hi)
  refine ⟨hhead ▸ h.homes, hhead ▸ h.room, fun b hb => ?_⟩
  rw [hhead, hbody, replay_replay hv, h.contents b hb]

/-- What the log writes to a disk once a transaction is committed: its sectors, then the empty header. -/
def redoWrites (sb : Superblock) (d : Nat → Block) : List (Nat × Block) :=
  logged (logStart sb) d (headerSectors (d (logStart sb))) ++ [(logStart sb, putHeader (d (logStart sb)) [])]

theorem head_redo : headerSectors (replay d (redoWrites sb d) (logStart sb)) = [] := by
  rw [redoWrites, replay_concat, Function.update_self, headerSectors_cleared]

theorem Recoverable.redo (hsb : HasLog sb) (h : Recoverable sb H d) (hb : Home sb b) :
    replay d (redoWrites sb d) b = H b := by
  rw [redoWrites, replay_concat, Function.update_of_ne (hb.ne_start hsb), h.contents b hb]

/-- A prefix of a list with one more element is a prefix of the list, or all of it. -/
theorem prefix_concat_cases {α : Type} {v ws : List α} {w : α} (h : v <+: ws ++ [w]) : v <+: ws ∨ v = ws ++ [w] := by
  rcases List.prefix_concat_iff.mp (by simpa using h) with heq | hpre
  · exact .inr (by simpa using heq)
  · exact .inl hpre

/-- Every disk a crash in `install_trans` and the clearing `write_head` may find is recoverable. -/
theorem Recoverable.redo_cut (hsb : HasLog sb) (h : Recoverable sb H d)
    (hv : v <+: redoWrites sb d) : Recoverable sb H (replay d v) := by
  rcases prefix_concat_cases hv with hpre | hall
  · exact h.installed hsb hpre
  · rw [hall]
    exact recoverable_of_empty head_redo fun b hb => h.redo hsb hb

/-! ### Recovery -/

theorem emits_initlog (hsb : HasLog sb) (h : Recoverable sb H d) :
    Emits (initlog sb) ⟨fun _ => none, d, (boot d).log⟩ () (redoWrites sb d)
      ⟨fun _ => none, replay d (redoWrites sb d), ⟨logStart sb, sb.nlog, 0, false, []⟩⟩ := by
  let c : Config := ⟨fun _ => none, d, ⟨logStart sb, sb.nlog, 0, false, headerSectors (d (logStart sb))⟩⟩
  have hclear : Clear c := clear_of_homes hsb rfl (by simp [c]) h.homes h.room
  have htail := emits_installAndClear hclear
  simp only [c, ite_self] at htail
  have hread := emits_readHead (c := ⟨fun _ => none, d, ⟨logStart sb, sb.nlog, 0, false, []⟩⟩) rfl
  have hset := emits_setLog ⟨logStart sb, sb.nlog, 0, false, []⟩ ⟨fun _ => none, d, (boot d).log⟩
  exact (emits_bread 1 _).then ((emits_getLog _).then (hset.then (hread.then htail)))

/-- Recovery leaves the log empty and every home sector with the committed contents. -/
theorem ready_of_recovery (hsb : HasLog sb) (h : Recoverable sb H d) :
    Ready sb H ⟨fun _ => none, replay d (redoWrites sb d), ⟨logStart sb, sb.nlog, 0, false, []⟩⟩ where
  start := rfl
  size := rfl
  lh := rfl
  pinned _ := rfl
  head := by
    dsimp only
    exact head_redo
  contents b hb := by
    dsimp only
    exact h.redo hsb hb

end Xv6.RedoLog
