import Xv6.Files.Table
import Xv6.Fs.Code
import Xv6.Syscall.Args

/-!
# The user memory that `read` and `write` touch

`sys_read` and `sys_write` with all they call, down to the loops that copy bytes: each function returns the
addresses in the caller's memory at which it stores or from which it loads, and its result, `none` for a
panic. What other processes and the devices contribute is a parameter: the state of the pipe, the characters
typed, and the changes to an open file while its inode is not locked. A `write` for which `balloc` panics
loads the first of the bytes listed here.
-/

namespace Xv6.Syscall

open Fs (tDev)

open Files (FdType)

structure Inode where
  type : Int16
  major : Int16
  size : Word

structure File where
  type : FdType
  readable : Bool
  writable : Bool
  ip : Inode
  off : Word

structure Env where
  /-- The number of bytes in the pipe when `piperead` starts to copy; `none` if the reader is killed before. -/
  piped : Option Nat
  /-- Is the pipe full before byte `i`, and the writer killed or the other end closed? -/
  givesUp : Nat → Bool
  /-- The characters that reach the reader of the console, who is killed after the last. -/
  typed : List UInt8
  /-- The offset and the size after other processes have used the file, between two rounds of `filewrite`. -/
  others : Word × Word → Word × Word

abbrev Touched := List Word × Option Int

/-! ### Pipes and the console -/

/-- The copying loop of `piperead`, with `avail` bytes left in the pipe. -/
def pipereadFrom (addr : Word) (n : Int) : Nat → Nat → Touched
  | i, 0 => ([], some i)
  | i, avail + 1 =>
    if (i : Int) < n then
      let rest := pipereadFrom addr n (i + 1) avail
      ((addr + BitVec.ofNat 32 i) :: rest.1, rest.2)
    else ([], some i)

def piperead (env : Env) (addr : Word) (n : Int) : Touched :=
  match env.piped with
  | none => ([], some (-1))
  | some avail => pipereadFrom addr n 0 avail

/-- The loop of `pipewrite`, with `left` rounds to go. -/
def pipewriteFrom (env : Env) (addr : Word) (n : Int) : Nat → Nat → Touched
  | _, 0 => ([], some n)
  | i, left + 1 =>
    if env.givesUp i then ([], some (-1))
    else
      let rest := pipewriteFrom env addr n (i + 1) left
      ((addr + BitVec.ofNat 32 i) :: rest.1, rest.2)

def pipewrite (env : Env) (addr : Word) (n : Int) : Touched := pipewriteFrom env addr n 0 n.toNat

/-- The loop of `consoleread`, which has stored `i` bytes; `4` is `C('D')` and `10` is `'\n'`. -/
def consolereadFrom (dst : Word) (n : Int) : Nat → List UInt8 → Touched
  | i, [] => ([], some (if (i : Int) < n then -1 else i))
  | i, c :: cs =>
    if (i : Int) < n then
      if c = 4 then ([], some i)
      else
        let rest := if c = 10 then ([], some (i + 1 : Int)) else consolereadFrom dst n (i + 1) cs
        ((dst + BitVec.ofNat 32 i) :: rest.1, rest.2)
    else ([], some i)

def consoleread (env : Env) (dst : Word) (n : Int) : Touched := consolereadFrom dst n 0 env.typed

def consolewrite (buf : Word) (n : Int) : Touched := (bytesFrom buf n.toNat, some n)

/-! ### Inodes -/

/-- The only device that `consoleinit` enters in `devsw`. -/
def console : Int16 := 1

/-- The loops of `readi` and `writei`, which move the rest of a block at a time, with `n` bytes to go. -/
def blocksFrom (addr off : Word) (n : Nat) : List Word :=
  if n = 0 then []
  else
    let m := min n (bsize - off.toNat % bsize)
    bytesFrom addr m ++ blocksFrom (addr + BitVec.ofNat 32 m) (off + BitVec.ofNat 32 m) (n - m)
termination_by n
decreasing_by
  have := Nat.mod_lt off.toNat (show 0 < bsize by decide)
  omega

/-- The bytes that `readi` reads of those asked for; `none` where it returns `-1`. -/
def readCount (ip : Inode) (off n : Word) : Option Word :=
  if off > ip.size ∨ off + n < off then none
  else some (if off + n > ip.size then ip.size - off else n)

def readi (env : Env) (ip : Inode) (dst off n : Word) : Touched :=
  if ip.type = tDev then
    if ip.major = console then consoleread env dst n.toInt else ([], some (-1))
  else
    match readCount ip off n with
    | none => ([], some (-1))
    | some m => (blocksFrom dst off m.toNat, some m.toInt)

/-- The addresses, the result and the size of the file afterwards. -/
def writei (ip : Inode) (src off n : Word) : Touched × Word :=
  if ip.type = tDev then
    if ip.major = console then (consolewrite src n.toInt, ip.size) else (([], some (-1)), ip.size)
  else if off > ip.size ∨ off + n < off then (([], some (-1)), ip.size)
  else if (off + n).toNat > maxFile * bsize then (([], some (-1)), ip.size)
  else
    ((blocksFrom src off n.toNat, some n.toInt), if 0 < n.toNat ∧ off + n > ip.size then off + n else ip.size)

/-! ### Files -/

def fileread (env : Env) (f : File) (addr n : Word) : Touched :=
  if f.readable = false then ([], some (-1))
  else
    match f.type with
    | .pipe => piperead env addr n.toInt
    | .inode => readi env f.ip addr f.off n
    | .none => ([], none)

/-- The bytes that `filewrite` writes in one transaction. -/
def maxWrite : Nat := (logSize - 1 - 1 - 2) / 2 * 512

/-- The loop of `filewrite`, which has written `i` of `n` bytes. -/
def filewriteFrom (env : Env) (f : File) (addr : Word) (n i : Nat) : Touched :=
  if i < n then
    let n1 := min (n - i) maxWrite
    let w := writei f.ip (addr + BitVec.ofNat 32 i) f.off (BitVec.ofNat 32 n1)
    match w.1.2 with
    | none => w.1
    | some r =>
      if r < 0 then (w.1.1, some (-1))
      else if r ≠ n1 then (w.1.1, none)
      else
        let now := env.others (f.off + BitVec.ofInt 32 r, w.2)
        let rest := filewriteFrom env { f with ip := { f.ip with size := now.2 }, off := now.1 } addr n (i + n1)
        (w.1.1 ++ rest.1, rest.2)
  else ([], some n)
termination_by n - i
decreasing_by
  have : 0 < maxWrite := by decide
  omega

def filewrite (env : Env) (f : File) (addr n : Word) : Touched :=
  if f.writable = false then ([], some (-1))
  else
    match f.type with
    | .pipe => pipewrite env addr n.toInt
    | .inode =>
      -- for a negative count the loop is not entered, and `i == n` fails
      if n.toInt < 0 then ([], some (-1)) else filewriteFrom env f addr n.toInt.toNat 0
    | .none => ([], none)

/-! ### System calls -/

def argfd (u : User) (ofile : Fin nofile → Option File) (n : Nat) : Option File :=
  match argint u n with
  | none => none
  | some fd => if h : fd.toInt.toNat < nofile ∧ 0 ≤ fd.toInt then ofile ⟨fd.toInt.toNat, h.1⟩ else none

/-- The file, the pointer and the count of a call that gets past the checks. -/
def transferArgs (u : User) (ofile : Fin nofile → Option File) : Option (File × Word × Word) :=
  match argfd u ofile 0, argint u 2 with
  | some f, some n => (argptr u 1 n).map fun p => (f, p, n)
  | _, _ => none

def sysRead (u : User) (ofile : Fin nofile → Option File) (env : Env) : Touched :=
  match transferArgs u ofile with
  | some (f, p, n) => fileread env f p n
  | none => ([], some (-1))

def sysWrite (u : User) (ofile : Fin nofile → Option File) (env : Env) : Touched :=
  match transferArgs u ofile with
  | some (f, p, n) => filewrite env f p n
  | none => ([], some (-1))

/-! ### The bytes touched -/

theorem mem_bytesFrom {a b : Word} {n : Nat} : b ∈ bytesFrom a n ↔ ∃ i < n, b = a + BitVec.ofNat 32 i := by
  simp only [bytesFrom, List.mem_map, List.mem_range, eq_comm]

theorem bytesFrom_add (a : Word) (m n : Nat) :
    bytesFrom a (m + n) = bytesFrom a m ++ bytesFrom (a + BitVec.ofNat 32 m) n := by
  unfold bytesFrom
  rw [List.range_add, List.map_append, List.map_map]
  congr 1
  refine List.map_congr_left fun i _ => ?_
  rw [Function.comp_apply, BitVec.ofNat_add, BitVec.add_assoc]

theorem blocksFrom_eq (addr off : Word) (n : Nat) : blocksFrom addr off n = bytesFrom addr n := by
  fun_induction blocksFrom addr off n with
  | case1 => rfl
  | case2 addr off n hn m ih =>
    have hm : m ≤ n := Nat.min_le_left _ _
    rw [ih, ← bytesFrom_add, Nat.add_sub_cancel' hm]

theorem pipereadFrom_subset (addr : Word) (n : Int) (i avail : Nat) :
    (pipereadFrom addr n i avail).1 ⊆ bytesFrom addr n.toNat := by
  induction avail generalizing i with
  | zero => exact List.nil_subset _
  | succ avail ih =>
    unfold pipereadFrom
    split
    · exact List.cons_subset.mpr ⟨mem_bytesFrom.mpr ⟨i, by omega, rfl⟩, ih (i + 1)⟩
    · exact List.nil_subset _

theorem pipewriteFrom_subset (env : Env) (addr : Word) (n : Int) (i left : Nat) (hle : i + left ≤ n.toNat) :
    (pipewriteFrom env addr n i left).1 ⊆ bytesFrom addr n.toNat := by
  induction left generalizing i with
  | zero => exact List.nil_subset _
  | succ left ih =>
    unfold pipewriteFrom
    split
    · exact List.nil_subset _
    · exact List.cons_subset.mpr ⟨mem_bytesFrom.mpr ⟨i, by omega, rfl⟩, ih (i + 1) (by omega)⟩

theorem consolereadFrom_subset (dst : Word) (n : Int) (i : Nat) (cs : List UInt8) :
    (consolereadFrom dst n i cs).1 ⊆ bytesFrom dst n.toNat := by
  induction cs generalizing i with
  | nil => exact List.nil_subset _
  | cons c cs ih =>
    unfold consolereadFrom
    split
    · split
      · exact List.nil_subset _
      · refine List.cons_subset.mpr ⟨mem_bytesFrom.mpr ⟨i, by omega, rfl⟩, ?_⟩
        split
        · exact List.nil_subset _
        · exact ih (i + 1)
    · exact List.nil_subset _

theorem piperead_subset (env : Env) (addr : Word) (n : Int) : (piperead env addr n).1 ⊆ bytesFrom addr n.toNat := by
  unfold piperead
  split
  · exact List.nil_subset _
  · exact pipereadFrom_subset addr n 0 _

theorem toInt_toNat_le (n : Word) : n.toInt.toNat ≤ n.toNat := by
  rw [BitVec.toInt_eq_toNat_cond]
  split
  · rw [Int.toNat_natCast]
  · have := n.isLt
    omega

theorem bytesFrom_subset {a : Word} {m n : Nat} (hle : m ≤ n) : bytesFrom a m ⊆ bytesFrom a n := by
  intro b hb
  obtain ⟨i, hi, rfl⟩ := mem_bytesFrom.mp hb
  exact mem_bytesFrom.mpr ⟨i, by omega, rfl⟩

theorem writei_subset (ip : Inode) (src off n : Word) : (writei ip src off n).1.1 ⊆ bytesFrom src n.toNat := by
  unfold writei
  split
  · split
    · exact bytesFrom_subset (toInt_toNat_le n)
    · exact List.nil_subset _
  · split
    · exact List.nil_subset _
    · split
      · exact List.nil_subset _
      · rw [blocksFrom_eq]
        exact List.Subset.refl _

theorem bytesFrom_inner {a : Word} {i m n : Nat} (hle : i + m ≤ n) :
    bytesFrom (a + BitVec.ofNat 32 i) m ⊆ bytesFrom a n := by
  refine List.Subset.trans ?_ (bytesFrom_subset hle)
  rw [bytesFrom_add]
  exact List.subset_append_right _ _

theorem round_subset (ip : Inode) (addr off : Word) {n i : Nat} (hlt : i < n) :
    (writei ip (addr + BitVec.ofNat 32 i) off (BitVec.ofNat 32 (min (n - i) maxWrite))).1.1 ⊆ bytesFrom addr n := by
  refine List.Subset.trans (writei_subset _ _ _ _) (bytesFrom_inner ?_)
  have hmod : (BitVec.ofNat 32 (min (n - i) maxWrite)).toNat ≤ min (n - i) maxWrite := by
    rw [BitVec.toNat_ofNat]
    exact Nat.mod_le _ _
  omega

/-- The loop touches only bytes of the range, whatever other processes do to the file. -/
theorem filewriteFrom_subset (env : Env) (f : File) (addr : Word) (n i : Nat) :
    (filewriteFrom env f addr n i).1 ⊆ bytesFrom addr n := by
  fun_induction filewriteFrom env f addr n i with
  | case1 f i hlt => exact round_subset f.ip addr f.off hlt
  | case2 f i hlt => exact round_subset f.ip addr f.off hlt
  | case3 f i hlt => exact round_subset f.ip addr f.off hlt
  | case4 f i hlt =>
    rename_i ih
    exact List.append_subset.mpr ⟨round_subset f.ip addr f.off hlt, ih⟩
  | case5 => exact List.nil_subset _

theorem filewrite_subset (env : Env) (f : File) (addr n : Word) :
    (filewrite env f addr n).1 ⊆ bytesFrom addr n.toInt.toNat := by
  unfold filewrite
  split
  · exact List.nil_subset _
  · split
    · exact pipewriteFrom_subset env addr n.toInt 0 _ (by omega)
    · split
      · exact List.nil_subset _
      · exact filewriteFrom_subset env f addr _ 0
    · exact List.nil_subset _

def File.regular (f : File) : Prop := f.readable = true ∧ f.type = .inode ∧ f.ip.type ≠ tDev

theorem fileread_subset {env : Env} {f : File} {addr n : Word} (hf : ¬f.regular) :
    (fileread env f addr n).1 ⊆ bytesFrom addr n.toInt.toNat := by
  unfold fileread
  split
  · exact List.nil_subset _
  · rename_i hreadable
    split
    · exact piperead_subset env addr n.toInt
    · rename_i htype
      have hdev : f.ip.type = tDev := by
        by_contra hdev
        exact hf ⟨by simpa using hreadable, htype, hdev⟩
      rw [readi, if_pos hdev]
      split
      · exact consolereadFrom_subset addr n.toInt 0 env.typed
      · exact List.nil_subset _
    · exact List.nil_subset _

theorem fileread_regular {env : Env} {f : File} {addr n : Word} (hf : f.regular) :
    (fileread env f addr n).1 = (readCount f.ip f.off n).elim [] fun m => bytesFrom addr m.toNat := by
  obtain ⟨hreadable, htype, hdev⟩ := hf
  rw [fileread, if_neg (by simp [hreadable]), htype]
  simp only [readi, if_neg hdev]
  cases readCount f.ip f.off n with
  | none => rfl
  | some m => exact blocksFrom_eq addr f.off m.toNat

theorem readCount_le {ip : Inode} {off n m : Word} (hm : readCount ip off n = some m) : m.toNat ≤ n.toNat := by
  unfold readCount at hm
  split at hm
  · cases hm
  · rename_i hok
    rw [not_or, gt_iff_lt, BitVec.lt_def, BitVec.lt_def, BitVec.toNat_add, not_lt, not_lt] at hok
    obtain rfl := Option.some.inj hm
    split
    · rename_i hclip
      rw [gt_iff_lt, BitVec.lt_def, BitVec.toNat_add] at hclip
      have hsub : (ip.size - off).toNat = ip.size.toNat - off.toNat := BitVec.toNat_sub_of_le (BitVec.le_def.mpr hok.1)
      have hsum : (off.toNat + n.toNat) % 2 ^ 32 ≤ off.toNat + n.toNat := Nat.mod_le _ _
      omega
    · exact le_refl _

/-! ### The bounds -/

/-- A pointer and a count that is not negative, past the checks, are a range of the process. -/
theorem bytesFrom_checked {u : User} {p n b : Word} (hsz : u.sz.toNat < kernbase) (hptr : argptr u 1 n = some p)
    (hb : b ∈ bytesFrom p n.toInt.toNat) : b.toNat < u.sz.toNat := by
  obtain ⟨-, hlt, hle⟩ := argptr_eq_some.mp hptr
  have hpos : 0 < n.toInt.toNat := by
    obtain ⟨i, hi, -⟩ := mem_bytesFrom.mp hb
    omega
  refine (bytesFrom_below hpos).mpr ?_ b hb
  have hn : n.toInt.toNat = n.toNat ∧ n.toNat < 2 ^ 31 := by
    rw [BitVec.toInt_eq_toNat_cond] at hpos ⊢
    have := n.isLt
    split <;> rename_i hsign <;> simp only [hsign, if_true, if_false] at hpos ⊢ <;> omega
  unfold kernbase at hsz
  rw [Nat.mod_eq_of_lt (by omega)] at hle
  omega

theorem transferArgs_eq_some {u : User} {ofile : Fin nofile → Option File} {f : File} {p n : Word}
    (h : transferArgs u ofile = some (f, p, n)) : argptr u 1 n = some p := by
  unfold transferArgs at h
  split at h
  · obtain ⟨p', hp, heq⟩ := Option.map_eq_some_iff.mp h
    cases heq
    exact hp
  · cases h

/-- `read` and `write` stay inside the caller's memory, save that `read` of a regular file with a negative count
that passes the checks stores what the file holds from the offset on. -/
theorem transfers_within_iff (u : User) (ofile : Fin nofile → Option File) (env : Env)
    (hsz : u.sz.toNat < kernbase) :
    (∀ a ∈ (sysRead u ofile env).1 ++ (sysWrite u ofile env).1, a.toNat < u.sz.toNat) ↔
      ∀ f p n m, transferArgs u ofile = some (f, p, n) → n.toInt < 0 → f.regular → readCount f.ip f.off n = some m →
        0 < m.toNat → p.toNat + m.toNat ≤ u.sz.toNat := by
  unfold sysRead sysWrite
  cases hargs : transferArgs u ofile with
  | none => simp
  | some args =>
    obtain ⟨f, p, n⟩ := args
    have hptr := transferArgs_eq_some hargs
    have hread : (∀ a ∈ (fileread env f p n).1, a.toNat < u.sz.toNat) ↔
        ∀ m, n.toInt < 0 → f.regular → readCount f.ip f.off n = some m → 0 < m.toNat →
          p.toNat + m.toNat ≤ u.sz.toNat := by
      constructor
      · intro hall m _ hf hm hpos
        rw [fileread_regular hf, hm] at hall
        exact (bytesFrom_below hpos).mp hall
      · intro hneg a ha
        by_cases hf : f.regular
        · rw [fileread_regular hf] at ha
          cases hm : readCount f.ip f.off n with
          | none =>
            rw [hm] at ha
            cases ha
          | some m =>
            rw [hm] at ha
            by_cases hsign : n.toInt < 0
            · have hpos : 0 < m.toNat := by
                obtain ⟨i, hi, -⟩ := mem_bytesFrom.mp ha
                omega
              exact (bytesFrom_below hpos).mpr (hneg m hsign hf hm hpos) a ha
            · refine bytesFrom_checked hsz hptr (bytesFrom_subset ?_ ha)
              have hle := readCount_le hm
              rw [BitVec.toInt_eq_toNat_cond] at hsign ⊢
              have := n.isLt
              split <;> rename_i hc <;> simp only [hc, if_true, if_false] at hsign ⊢ <;> omega
        · exact bytesFrom_checked hsz hptr (fileread_subset hf ha)
    have hwrite : ∀ a ∈ (filewrite env f p n).1, a.toNat < u.sz.toNat := fun a ha =>
      bytesFrom_checked hsz hptr (filewrite_subset env f p n ha)
    constructor
    · intro hall f' p' n' m heq
      cases heq
      exact hread.mp (fun a ha => hall a (List.mem_append_left _ ha)) m
    · intro hneg a ha
      rcases List.mem_append.mp ha with hr | hw
      · exact hread.mpr (fun m => hneg f p n m rfl) a hr
      · exact hwrite a hw

/-- A regular file of 1000 bytes, open for reading at its start. -/
def openFile : File := ⟨.inode, true, false, ⟨Fs.tFile, 0, 1000⟩, 0⟩

/-- A process of one page that has the file open, with the arguments of `read(0, p, -1)` from address `4` on. -/
def reader (p : Word) : User := ⟨4096, 0, fun a => if a = 4 then 0 else if a = 8 then p else -1⟩

def quiet : Env := ⟨none, fun _ => false, [], id⟩

/-- There is room for the whole file at address `100`. -/
theorem transfers_within_room :
    transferArgs (reader 100) (fun _ => some openFile) = some (openFile, 100, -1) ∧
      ∀ a ∈ (sysRead (reader 100) (fun _ => some openFile) quiet).1 ++
        (sysWrite (reader 100) (fun _ => some openFile) quiet).1, a.toNat < (reader 100).sz.toNat := by
  have heq : transferArgs (reader 100) (fun _ => some openFile) = some (openFile, 100, -1) := rfl
  refine ⟨heq, (transfers_within_iff _ _ quiet (by decide)).mpr ?_⟩
  intro f p n m hargs _ _ hm _
  cases heq.symm.trans hargs
  have hcount : readCount openFile.ip openFile.off (-1) = some 1000 := by decide
  cases hcount.symm.trans hm
  decide

/-- At the last byte of the process the check passes all the same, and the file is stored past the end. -/
theorem read_stores_past_end :
    transferArgs (reader 4095) (fun _ => some openFile) = some (openFile, 4095, -1) ∧
      ∃ a ∈ (sysRead (reader 4095) (fun _ => some openFile) quiet).1, (reader 4095).sz.toNat ≤ a.toNat := by
  have hargs : transferArgs (reader 4095) (fun _ => some openFile) = some (openFile, 4095, -1) := rfl
  have hregular : openFile.regular := ⟨rfl, rfl, by decide⟩
  have hcount : readCount openFile.ip openFile.off (-1) = some 1000 := by decide
  refine ⟨hargs, 4096, ?_, by decide⟩
  rw [sysRead, hargs]
  simp only [fileread_regular hregular, hcount, Option.elim_some]
  refine mem_bytesFrom.mpr ⟨1, ?_, by decide⟩
  rw [show (1000 : Word).toNat = 1000 from rfl]
  omega

end Xv6.Syscall
