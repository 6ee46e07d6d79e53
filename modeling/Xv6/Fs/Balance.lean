import Xv6.Fs.Calls
import Xv6.Fs.Dir

/-!
# References and locks

What a function of the file system does to the references and the locks of the inodes and to the number of
transactions. Most functions change nothing of it; `namex` changes nothing but the reference that it returns. It takes and
gives back a reference and the lock of each directory on the way, and the directory it finds may be the one it comes from.
-/

namespace Xv6.Fs

open Lib

/-- The number of references to an inode, and whether it is locked. -/
def State.hold (s : State) (i : Nat) : Nat × Bool :=
  match s.icache i with
  | some e => (e.ref, e.busy)
  | none => (0, false)

def State.marks (s : State) : List Event := s.trace.filter Event.isMark

/-- References, locks and transactions are as before. -/
structure Still (s s' : State) : Prop where
  hold : s'.hold = s.hold
  marks : s'.marks = s.marks

variable {α β : Type} {s s' s'' : State} {ip : Nat}

theorem Still.refl (s : State) : Still s s := ⟨rfl, rfl⟩

theorem Still.trans (h : Still s s') (h' : Still s' s'') : Still s s'' :=
  ⟨h'.hold.trans h.hold, h'.marks.trans h.marks⟩

/-! ### Functions that change nothing of it -/

def Quiet (f : FsM α) : Prop := ∀ s, wp f (fun _ s' => Still s s') (fun _ => True) s

theorem quiet_pure (a : α) : Quiet (pure a : FsM α) := fun s => .refl s

theorem quiet_throw (e : Panic) : Quiet (throw e : FsM α) := fun _ => trivial

theorem quiet_get : Quiet (get : FsM State) := fun s => .refl s

theorem quiet_bind {x : FsM α} {f : α → FsM β} (hx : Quiet x) (hf : ∀ a, Quiet (f a)) : Quiet (x >>= f) := by
  intro s
  rw [wp_bind]
  refine wp_mono (hx s) (fun a s' hs' => ?_) fun _ he => he
  exact wp_mono (hf a s') (fun _ _ hs'' => hs'.trans hs'') fun _ he => he

theorem quiet_map {x : FsM α} (g : α → β) (hx : Quiet x) : Quiet (g <$> x) := fun s => by
  rw [wp_map]
  exact hx s

theorem quiet_ite {c : Prop} [Decidable c] {x y : FsM α} (hx : Quiet x) (hy : Quiet y) : Quiet (if c then x else y) := by
  split
  · exact hx
  · exact hy

theorem quiet_bread (b : Nat) : Quiet (bread b) := quiet_map _ quiet_get

theorem quiet_readsb : Quiet readsb := quiet_map _ (quiet_bread 1)

theorem quiet_logWrite (b : Nat) (data : Block) : Quiet (logWrite b data) := by
  intro s
  rw [logWrite, wp_bind, wp_get, wp_ite, wp_ite]
  split
  · trivial
  split
  · trivial
  refine ⟨rfl, ?_⟩
  change (s.trace ++ [Event.logWrite b]).filter Event.isMark = _
  rw [List.filter_append]
  exact List.append_nil _

theorem quiet_forTo {body : Nat → FsM PUnit} (n : Nat) (h : ∀ i, Quiet (body i)) : Quiet (forTo body n) := by
  intro s
  refine wp_forTo (I := fun _ s' => Still s s') (.refl s) fun i s' _ hs' => ?_
  exact wp_mono (h i s') (fun _ _ hs'' => hs'.trans hs'') fun _ he => he

theorem wp_inode {Q : Inode → State → Prop} (h : ∀ e, s.icache ip = some e → Q e s) :
    wp (inode ip) Q (fun _ => True) s := by
  unfold inode
  rw [wp_bind, wp_get]
  cases he : s.icache ip with
  | none => trivial
  | some e => exact h e he

theorem quiet_inode (ip : Nat) : Quiet (inode ip) := fun s => wp_inode fun _ _ => .refl s

theorem hold_of_some {e : Inode} (he : s.icache ip = some e) : s.hold ip = (e.ref, e.busy) := by
  unfold State.hold
  rw [he]

theorem hold_of_none (he : s.icache ip = none) : s.hold ip = (0, false) := by
  unfold State.hold
  rw [he]

theorem hold_setInode (s : State) (ip : Nat) (e : Inode) :
    (s.setInode ip (some e)).hold = Function.update s.hold ip (e.ref, e.busy) := by
  funext i
  by_cases hi : i = ip
  · subst hi
    rw [Function.update_self]
    exact hold_of_some (Function.update_self _ _ _)
  · rw [Function.update_of_ne hi]
    simp only [State.hold, State.setInode, Function.update_of_ne hi]

theorem quiet_assign {g : Inode → Inode} (hg : ∀ e, (g e).ref = e.ref ∧ (g e).busy = e.busy) {k : FsM α} (hk : Quiet k) :
    Quiet (do let e ← inode ip; setInode ip (g e); k) := by
  intro s
  rw [wp_bind]
  refine wp_inode fun e he => ?_
  rw [setInode, wp_bind, wp_modify]
  have hassign : Still s (s.setInode ip (some (g e))) := by
    refine ⟨?_, rfl⟩
    rw [hold_setInode, (hg e).1, (hg e).2, ← hold_of_some he, Function.update_eq_self]
  exact wp_mono (hk _) (fun _ _ hs' => hassign.trans hs') fun _ he => he

theorem quiet_setAddr (i : Fin (ndirect + 1)) (addr : UInt32) : Quiet (setAddr ip i addr) :=
  quiet_assign (g := fun e => { e with din := { e.din with addrs := Function.update e.din.addrs i addr } })
    (fun _ => ⟨rfl, rfl⟩) (quiet_pure PUnit.unit)

theorem quiet_balloc : Quiet balloc := by
  refine quiet_bind quiet_readsb fun sb => quiet_bind quiet_get fun t => ?_
  cases (List.range sb.size).find? fun b => !t.marked sb.ninodes b with
  | none => exact quiet_throw _
  | some b =>
    refine quiet_bind (quiet_bread _) fun bp => quiet_bind (quiet_logWrite _ _) fun _ => quiet_bind (quiet_logWrite _ _) fun _ =>
      quiet_bind (fun s => ⟨rfl, ?_⟩) fun _ => quiet_pure _
    change List.filter _ (s.trace ++ [_]) = _
    rw [List.filter_append]
    exact List.append_nil _

theorem quiet_bfree (b : UInt32) : Quiet (bfree b) :=
  quiet_bind quiet_readsb fun _ => quiet_bind (quiet_bread _) fun _ => quiet_ite (quiet_throw _) (quiet_logWrite _ _)

theorem quiet_iupdate (ip : Nat) : Quiet (iupdate ip) :=
  quiet_bind (quiet_inode ip) fun _ => quiet_bind (quiet_bread _) fun _ => quiet_logWrite _ _

theorem quiet_itrunc (ip : Nat) : Quiet (itrunc ip) := by
  have hdirect : ∀ i, Quiet (freeDirect ip i) := by
    intro i
    refine quiet_bind (quiet_inode ip) fun e => ?_
    by_cases hi : i < ndirect + 1
    · rw [dif_pos hi]
      exact quiet_ite (quiet_bind (quiet_bfree _) fun _ => quiet_setAddr _ _) (quiet_pure _)
    · rw [dif_neg hi]
      exact quiet_pure _
  have hentries : ∀ a, Quiet (freeEntries a) := fun a => quiet_forTo _ fun j => quiet_ite (quiet_bfree _) (quiet_pure _)
  have hlast : Quiet (do let e ← inode ip; setInode ip { e with din := { e.din with size := 0 } }; iupdate ip) :=
    quiet_assign (g := fun e => { e with din := { e.din with size := 0 } }) (fun _ => ⟨rfl, rfl⟩) (quiet_iupdate ip)
  refine quiet_bind (quiet_forTo _ hdirect) fun _ => quiet_bind (quiet_inode ip) fun e => ?_
  dsimp only
  split
  · exact quiet_bind (quiet_bread _) fun a => quiet_bind (hentries a) fun _ => quiet_bind (quiet_bfree _) fun _ =>
      quiet_bind (quiet_setAddr _ _) fun _ => hlast
  · exact hlast

/-! ### Reading -/

theorem quiet_addrOf (i : Fin (ndirect + 1)) : Quiet (addrOf ip i) :=
  quiet_bind (quiet_inode ip) fun _ =>
    quiet_ite (quiet_bind quiet_balloc fun _ => quiet_bind (quiet_setAddr _ _) fun _ => quiet_pure _) (quiet_pure _)

theorem quiet_bmap (ip bn : Nat) : Quiet (bmap ip bn) := by
  unfold bmap
  by_cases hdirect : bn < ndirect
  · rw [dif_pos hdirect]
    exact quiet_addrOf _
  · rw [dif_neg hdirect]
    refine quiet_ite (quiet_bind (quiet_addrOf _) fun _ => quiet_bind (quiet_bread _) fun _ => quiet_ite ?_ (quiet_pure _))
      (quiet_throw _)
    exact quiet_bind quiet_balloc fun _ => quiet_bind (quiet_logWrite _ _) fun _ => quiet_pure _

theorem quiet_readLoop (ip fuel off n : Nat) : Quiet (readLoop ip fuel off n) := by
  induction fuel generalizing off n with
  | zero => exact quiet_pure _
  | succ fuel ih =>
    exact quiet_ite (quiet_pure _) (quiet_bind (quiet_bmap _ _) fun _ => quiet_bind (quiet_bread _) fun _ =>
      quiet_bind (ih _ _) fun _ => quiet_pure _)

theorem quiet_readi (devsw : Devsw) (ip : Nat) (off n : UInt32) : Quiet (readi devsw ip off n) := by
  refine quiet_bind (quiet_inode ip) fun e => quiet_ite (quiet_ite (quiet_pure _) ?_) (quiet_ite (quiet_pure _) ?_)
  · cases devsw.read e.din.major with
    | none => exact quiet_pure _
    | some read => exact quiet_pure _
  · exact quiet_map _ (quiet_readLoop _ _ _ _)

/-! ### Taking and dropping references -/

def take (h : Nat → Nat × Bool) (i : Nat) : Nat → Nat × Bool := Function.update h i ((h i).1 + 1, (h i).2)

/-- An inode with one reference less, which is not locked; without references it is not cached. -/
def drop (h : Nat → Nat × Bool) (i : Nat) : Nat → Nat × Bool :=
  Function.update h i (if (h i).1 ≤ 1 then (0, false) else ((h i).1 - 1, (h i).2))

theorem wp_iget (i : Nat) (s : State) :
    wp (iget i) (fun _ s' => s'.hold = take s.hold i ∧ s'.marks = s.marks) (fun _ => True) s := by
  unfold iget
  rw [wp_bind, wp_get]
  cases he : s.icache i with
  | some e =>
    refine ⟨?_, rfl⟩
    change (s.setInode i (some _)).hold = _
    rw [hold_setInode, take, hold_of_some he]
  | none =>
    rw [wp_ite]
    split
    · trivial
    · refine ⟨?_, rfl⟩
      change (s.setInode i (some _)).hold = _
      rw [hold_setInode, take, hold_of_none he]

theorem wp_idup (i : Nat) (s : State) :
    wp (idup i) (fun _ s' => s'.hold = take s.hold i ∧ s'.marks = s.marks) (fun _ => True) s := by
  unfold idup
  rw [wp_bind]
  refine wp_inode fun e he => ⟨?_, rfl⟩
  change (s.setInode i (some _)).hold = _
  rw [hold_setInode, take, hold_of_some he]

theorem wp_ilock (i : Nat) (s : State) : wp (ilock i) (fun _ s' => (s.hold i).2 = false ∧
    s'.hold = Function.update s.hold i ((s.hold i).1, true) ∧ s'.marks = s.marks) (fun _ => True) s := by
  unfold ilock
  rw [wp_bind]
  refine wp_inode fun e he => ?_
  rw [hold_of_some he, wp_ite, wp_ite]
  split
  · trivial
  · rename_i hbusy
    have hfree : e.busy = false := Bool.eq_false_iff.mpr hbusy
    split
    · exact ⟨hfree, hold_setInode s i _, rfl⟩
    · simp only [bread, wp_bind, wp_map, wp_get, setInode, wp_modify, wp_ite]
      split
      · trivial
      · exact ⟨hfree, hold_setInode s i _, rfl⟩

theorem wp_iunlock (i : Nat) (s : State) :
    wp (iunlock i) (fun _ s' => s'.hold = Function.update s.hold i ((s.hold i).1, false) ∧ s'.marks = s.marks) (fun _ => True) s := by
  unfold iunlock
  rw [wp_bind]
  refine wp_inode fun e he => ?_
  rw [wp_ite]
  split
  · refine ⟨?_, rfl⟩
    change (s.setInode i (some _)).hold = _
    rw [hold_setInode, hold_of_some he]
  · trivial

theorem hold_setInode_none (s : State) (ip : Nat) : (s.setInode ip none).hold = Function.update s.hold ip (0, false) := by
  funext i
  by_cases hi : i = ip
  · subst hi
    rw [Function.update_self]
    exact hold_of_none (Function.update_self _ _ _)
  · rw [Function.update_of_ne hi]
    simp only [State.hold, State.setInode, Function.update_of_ne hi]

theorem wp_dropRef (i : Nat) (s : State) :
    wp (dropRef i) (fun _ s' => s'.hold = drop s.hold i ∧ s'.marks = s.marks) (fun _ => True) s := by
  unfold dropRef
  rw [wp_bind]
  refine wp_inode fun e he => ?_
  rw [wp_ite]
  split
  · rename_i hle
    refine ⟨?_, rfl⟩
    change (s.setInode i none).hold = _
    rw [hold_setInode_none, drop, hold_of_some he, if_pos hle]
  · rename_i hlt
    refine ⟨?_, rfl⟩
    change (s.setInode i (some _)).hold = _
    rw [hold_setInode, drop, hold_of_some he, if_neg hlt]

/-- The lock that is held while an inode without links is freed is not seen afterwards. -/
theorem wp_iput (i : Nat) (s : State) :
    wp (iput i) (fun _ s' => s'.hold = drop s.hold i ∧ s'.marks = s.marks) (fun _ => True) s := by
  unfold iput
  rw [wp_bind]
  refine wp_inode fun e he => ?_
  rw [wp_ite]
  split
  swap
  · exact wp_dropRef i s
  rename_i hlast
  rw [wp_ite]
  split
  · trivial
  simp only [setInode, wp_bind, wp_modify]
  refine wp_mono (quiet_itrunc i _) (fun _ s₁ hs₁ => ?_) fun _ he => he
  refine wp_inode fun e₁ he₁ => ?_
  have hhold : (s₁.setInode i (some { e₁ with din := { e₁.din with type := 0 } })).hold =
      Function.update s.hold i (1, true) := by
    rw [hold_setInode, ← hold_of_some he₁, hs₁.hold, Function.update_eq_self, hold_setInode, hlast.1]
  refine wp_mono (quiet_iupdate i _) (fun _ s₂ hs₂ => ?_) fun _ he => he
  refine wp_inode fun e₂ he₂ => ?_
  have href : e₂.ref = 1 := by
    have hone := congrFun (hs₂.hold.trans hhold) i
    rw [hold_of_some he₂, Function.update_self] at hone
    exact congrArg Prod.fst hone
  refine wp_mono (wp_dropRef i _) (fun _ s₃ hs₃ => ⟨?_, ?_⟩) fun _ he => he
  · rw [hs₃.1, hold_setInode, hs₂.hold, hhold, drop, drop, Function.update_self, hold_of_some he, hlast.1, href]
    simp
  · rw [hs₃.2]
    exact hs₂.marks.trans hs₁.marks

/-- Locking, and then unlocking and dropping, an inode to which a reference has been taken undoes it. -/
theorem wp_iunlockput {h : Nat → Nat × Bool} {i : Nat} (hfree : (h i).2 = false)
    (hs : s.hold = Function.update (take h i) i ((h i).1 + 1, true)) :
    wp (iunlockput i) (fun _ s' => s'.hold = h ∧ s'.marks = s.marks) (fun _ => True) s := by
  unfold iunlockput
  rw [wp_bind]
  refine wp_mono (wp_iunlock i s) (fun _ s₁ hs₁ => ?_) fun _ he => he
  refine wp_mono (wp_iput i s₁) (fun _ s₂ hs₂ => ⟨?_, hs₂.2.trans hs₁.2⟩) fun _ he => he
  rw [hs₂.1, hs₁.1, hs]
  funext k
  by_cases hk : k = i
  · subst hk
    simp only [drop, Function.update_self]
    by_cases hzero : (h k).1 = 0
    · rw [if_pos (by omega), ← hzero, ← hfree]
    · rw [if_neg (by omega), Nat.add_sub_cancel, ← hfree]
  · simp only [drop, take, Function.update_of_ne hk]

/-! ### Directories and paths -/

/-- A reference to the inode that is found, and nothing else. -/
def Found (h : Nat → Nat × Bool) (marks : List Event) (r : Option Nat) (s : State) : Prop :=
  s.marks = marks ∧ match r with
    | none => s.hold = h
    | some ip => s.hold = take h ip

theorem wp_lookupLoop (devsw : Devsw) (dp : Nat) (name : List UInt8) (n : Nat) (off : UInt32) (s : State) :
    wp (lookupLoop devsw dp name n off) (fun r s' => Found s.hold s.marks (r.map Prod.fst) s') (fun _ => True) s := by
  induction n generalizing off s with
  | zero => exact ⟨rfl, rfl⟩
  | succ n ih =>
    unfold lookupLoop
    rw [wp_bind]
    refine wp_inode fun e _ => ?_
    rw [wp_ite]
    split
    swap
    · exact ⟨rfl, rfl⟩
    rw [wp_bind]
    refine wp_mono (quiet_readi devsw dp off direntSize s) (fun r s₁ hs₁ => ?_) fun _ he => he
    cases r with
    | none => trivial
    | some de =>
      have hnext := ih (off + direntSize) s₁
      rw [hs₁.hold, hs₁.marks] at hnext
      dsimp only
      rw [wp_ite, wp_ite, wp_ite]
      split
      · trivial
      · split
        · exact hnext
        · split
          · rw [wp_bind]
            refine wp_mono (wp_iget _ s₁) (fun _ s₂ hs₂ => ?_) fun _ he => he
            rw [hs₁.hold, hs₁.marks] at hs₂
            exact ⟨hs₂.2, hs₂.1⟩
          · exact hnext

theorem wp_dirlookup (devsw : Devsw) (dp : Nat) (name : List UInt8) (s : State) :
    wp (dirlookup devsw dp name) (fun r s' => Found s.hold s.marks (r.map Prod.fst) s') (fun _ => True) s := by
  unfold dirlookup
  rw [wp_bind]
  refine wp_inode fun e _ => ?_
  rw [wp_ite]
  split
  · trivial
  · exact wp_lookupLoop _ _ _ _ _ _

theorem length_skipelem {path name rest : List UInt8} (h : skipelem path = some (name, rest)) : rest.length < path.length := by
  have hdrop : ∀ (p : UInt8 → Bool) (l : List UInt8), (l.dropWhile p).length ≤ l.length := fun p l =>
    (List.dropWhile_sublist p).length_le
  unfold skipelem at h
  dsimp only at h
  split at h
  · cases h
  rename_i hne
  obtain ⟨-, rfl⟩ := Prod.mk.inj (Option.some.inj h)
  have hhead := List.head_dropWhile_not (· == slash) hne
  have hle := hdrop (· == slash) path
  cases hs : path.dropWhile (· == slash) with
  | nil => exact absurd hs hne
  | cons b bs =>
    have hb : (b != slash) = true := by
      simp only [hs, List.head_cons] at hhead
      rw [bne, hhead]
      rfl
    rw [hs, List.length_cons] at hle
    rw [List.dropWhile_cons_of_pos (p := (· != slash)) hb]
    have hrest := hdrop (· == slash) (bs.dropWhile (· != slash))
    have helem := hdrop (· != slash) bs
    omega

/-- A reference that has been taken is dropped again. -/
theorem drop_take {h : Nat → Nat × Bool} {i : Nat} (hidle : (h i).1 = 0 → (h i).2 = false) : drop (take h i) i = h := by
  funext k
  by_cases hk : k = i
  · subst hk
    simp only [drop, take, Function.update_self]
    by_cases hzero : (h k).1 = 0
    · rw [if_pos (by omega), ← hidle hzero, ← hzero]
    · rw [if_neg (by omega), Nat.add_sub_cancel]
  · simp only [drop, take, Function.update_of_ne hk]

/-- The walk holds a reference to the inode it has come to, and locks it while it looks for the next one. -/
theorem wp_namexLoop (devsw : Devsw) {parent : Bool} {n ip : Nat} {path : List UInt8} {h : Nat → Nat × Bool}
    (hidle : ∀ i, (h i).1 = 0 → (h i).2 = false) (hs : s.hold = take h ip) (hn : path.length < n) :
    wp (namexLoop devsw parent n ip path) (fun r s' => Found h s.marks (r.map Prod.fst) s') (fun _ => True) s := by
  induction n generalizing ip path s with
  | zero => exact absurd hn (Nat.not_lt_zero _)
  | succ n ih =>
    unfold namexLoop
    cases helem : skipelem path with
    | none =>
      dsimp only
      rw [wp_ite, wp_bind]
      split
      · refine wp_mono (wp_iput ip s) (fun _ s₁ hs₁ => ⟨hs₁.2, ?_⟩) fun _ he => he
        show s₁.hold = h
        rw [hs₁.1, hs, drop_take (hidle ip)]
      · exact ⟨rfl, hs⟩
    | some p =>
      obtain ⟨name, rest⟩ := p
      dsimp only
      rw [wp_bind]
      refine wp_mono (wp_ilock ip s) (fun _ s₁ hs₁ => ?_) fun _ he => he
      obtain ⟨hfree, hlocked, hmarks⟩ := hs₁
      rw [hs, take, Function.update_self] at hfree hlocked
      -- the way out without an inode
      have hback : ∀ s₂, s₂.hold = s₁.hold → s₂.marks = s₁.marks →
          wp (iunlockput ip) (fun _ s' => Found h s.marks none s') (fun _ => True) s₂ := by
        intro s₂ hhold hmarks₂
        refine wp_mono (wp_iunlockput hfree (hhold.trans hlocked)) (fun _ s₃ hs₃ => ?_) fun _ he => he
        exact ⟨hs₃.2.trans (hmarks₂.trans hmarks), hs₃.1⟩
      rw [wp_bind]
      refine wp_inode fun e _ => ?_
      rw [wp_ite, wp_ite]
      split
      · rw [wp_bind]
        exact hback s₁ rfl rfl
      split
      · -- the last element stays, and the directory is unlocked
        rw [wp_bind]
        refine wp_mono (wp_iunlock ip s₁) (fun _ s₂ hs₂ => ⟨hs₂.2.trans hmarks, ?_⟩) fun _ he => he
        show s₂.hold = take h ip
        rw [hs₂.1, hlocked, Function.update_self, Function.update_idem, take, hfree, Function.update_idem]
      rw [wp_bind]
      refine wp_mono (wp_dirlookup devsw ip name s₁) (fun r s₂ hs₂ => ?_) fun _ he => he
      cases r with
      | none =>
        rw [wp_bind]
        exact hback s₂ hs₂.2 hs₂.1
      | some next =>
        -- the next inode may be the same one
        have hnext : s₂.hold = Function.update (take (take h next.1) ip) ip ((take h next.1 ip).1 + 1, true) := by
          have hfound : s₂.hold = take s₁.hold next.1 := hs₂.2
          rw [hfound, hlocked]
          funext k
          by_cases hk : k = ip
          · subst hk
            by_cases hsame : next.1 = k
            · subst hsame
              simp [take, Function.update_self]
            · simp [take, Function.update_of_ne (Ne.symm hsame), Function.update_of_ne hsame]
          · by_cases hsame : k = next.1
            · subst hsame
              simp [take, Function.update_of_ne hk]
            · simp [take, Function.update_of_ne hk, Function.update_of_ne hsame]
        have hfree' : (take h next.1 ip).2 = false := by
          unfold take
          by_cases hsame : ip = next.1
          · rw [← hsame, Function.update_self]
            exact hfree
          · rw [Function.update_of_ne hsame]
            exact hfree
        dsimp only
        rw [wp_bind]
        refine wp_mono (wp_iunlockput hfree' hnext) (fun _ s₃ hs₃ => ?_) fun _ he => he
        have hloop := ih hs₃.1 (show rest.length < n by have := length_skipelem helem; omega)
        rwa [hs₃.2, hs₂.1, hmarks] at hloop

theorem wp_namex (devsw : Devsw) (cwd : Nat) (path : List UInt8) (parent : Bool) (s : State)
    (hidle : ∀ i, (s.hold i).1 = 0 → (s.hold i).2 = false) :
    wp (namex devsw cwd path parent) (fun r s' => Found s.hold s.marks (r.map Prod.fst) s') (fun _ => True) s := by
  have hwalk : ∀ ip s₁, s₁.hold = take s.hold ip ∧ s₁.marks = s.marks →
      wp (namexLoop devsw parent (path.length + 1) ip path) (fun r s' => Found s.hold s.marks (r.map Prod.fst) s')
        (fun _ => True) s₁ := by
    intro ip s₁ hs₁
    rw [← hs₁.2]
    exact wp_namexLoop devsw hidle hs₁.1 (Nat.lt_succ_self _)
  unfold namex
  rw [wp_ite]
  split
  · rw [wp_bind]
    exact wp_mono (wp_iget rootIno s) (fun _ s₁ hs₁ => hwalk _ s₁ hs₁) fun _ he => he
  · rw [wp_bind]
    exact wp_mono (wp_idup cwd s) (fun _ s₁ hs₁ => hwalk _ s₁ hs₁) fun _ he => he

/-- Looking up a path leaves one reference to what is found, and no lock. -/
theorem path_lookup_references (devsw : Devsw) (cwd : Nat) (path : List UInt8) (s : State)
    (hidle : ∀ i, (s.hold i).1 = 0 → (s.hold i).2 = false) :
    (∀ r s', namei devsw cwd path s = .ok (r, s') → Found s.hold s.marks r s') ∧
      ∀ r s', nameiparent devsw cwd path s = .ok (r, s') → Found s.hold s.marks (r.map Prod.fst) s' := by
  refine ⟨fun r s' hrun => ?_, fun r s' hrun => wp_ok (wp_namex devsw cwd path true s hidle) hrun⟩
  have hnamei : wp (namei devsw cwd path) (fun r s' => Found s.hold s.marks r s') (fun _ => True) s := by
    unfold namei
    rw [wp_map]
    exact wp_namex devsw cwd path false s hidle
  exact wp_ok hnamei hrun

/-! ### A directory with one file -/

def rootDinode : Dinode := { Dinode.ofType tDir with nlink := 1, size := 16, addrs := fun i => if i = 0 then 5 else 0 }

def fileDinode : Dinode := { Dinode.ofType tFile with nlink := 1 }

/-- The root directory, to which there is a reference, has the file `f`, which is inode 2. -/
def oneFile : State where
  blocks b :=
    if b = 2 then putDinode (putDinode Bytes.zero (ioffset 1) rootDinode) (ioffset 2) fileDinode
    else if b = 5 then Bytes.ofFn fun i => if i = 0 then 2 else if i = 2 then 0x66 else 0
    else Bytes.zero
  icache := Function.update (fun _ => none) rootIno (some ⟨1, false, true, rootDinode⟩)
  ncached := 1
  logsize := 30
  trace := []

theorem path_lookup_references_oneFile : ∃ s', namei noDev rootIno [0x66] oneFile = .ok (some 2, s') ∧
    s'.hold = take oneFile.hold 2 := by
  have hidle : ∀ i, (oneFile.hold i).1 = 0 → (oneFile.hold i).2 = false := by
    intro i
    by_cases hi : i = rootIno
    · subst hi
      decide
    · have hnone : oneFile.icache i = none := by simp [oneFile, Function.update_of_ne hi]
      rw [hold_of_none hnone]
      exact fun _ => rfl
  have hfound : (namei noDev rootIno [0x66] oneFile).toOption.map Prod.fst = some (some 2) := by decide +kernel
  cases hrun : namei noDev rootIno [0x66] oneFile with
  | error e =>
    rw [hrun] at hfound
    cases hfound
  | ok p =>
    rw [hrun] at hfound
    obtain ⟨r, s'⟩ := p
    obtain rfl : r = some 2 := Option.some.inj hfound
    exact ⟨s', rfl, ((path_lookup_references noDev rootIno [0x66] oneFile hidle).1 _ _ hrun).2⟩

end Xv6.Fs
