import Xv6.Bio.Code

/-!
# The list of the buffers

`binit` links all buffers into one ring through `bcache.head`, and `brelse` moves one of them to its front. The loops of
`bget` go once around this ring.
-/

namespace Xv6.Bio

open Lib

namespace Cache

variable {D : Type} {c : Cache D} {l : List (Fin nbuf)} {b : Fin nbuf}

/-- The links lead from the head through the buffers of the list and back. -/
def Rep (c : Cache D) (l : List (Fin nbuf)) : Prop := LinkedRing c.next c.prev none (l.map some)

def Linked (c : Cache D) : Prop := ∃ l, c.Rep l ∧ ∀ b, b ∈ l

theorem Rep.nodup (h : c.Rep l) : l.Nodup := List.Nodup.of_map some (List.nodup_cons.mp (LinkedRing.nodup h)).2

theorem Rep.pushFront (h : c.Rep l) (hb : b ∉ l) : (c.pushFront b).Rep (b :: l) := by
  have hpush := LinkedRing.push h (a := some b) (by simpa using hb)
  have hhead : Function.update c.next (some b) (c.next none) none = c.next none := Function.update_of_ne (by simp) _ _
  rw [Rep, Cache.pushFront]
  simpa [setNext, setPrev, hhead] using hpush

theorem Rep.unlink {l₁ l₂ : List (Fin nbuf)} (h : c.Rep (l₁ ++ b :: l₂)) : (c.unlink b).Rep (l₁ ++ l₂) := by
  have hring : LinkedRing c.next c.prev none (l₁.map some ++ some b :: l₂.map some) := by simpa [Rep] using h
  have hprev : Function.update c.prev (c.next b) (c.prev b) b = c.prev b := by
    by_cases hself : some b = c.next b
    · rw [← hself, Function.update_self]
    · exact Function.update_of_ne hself _ _
  have herase := hring.erase
  rw [Rep, Cache.unlink, List.map_append]
  simpa [setNext, setPrev, hprev] using herase

theorem Rep.setBuf (h : c.Rep l) (b : Fin nbuf) (v : Buf D) : (c.setBuf b v).Rep l := h

theorem Linked.brelse (h : c.Linked) (b : Fin nbuf) : (c.brelse b).Linked := by
  obtain ⟨l, hl, hall⟩ := h
  obtain ⟨l₁, l₂, rfl⟩ := List.append_of_mem (hall b)
  have hb : b ∉ l₁ ++ l₂ := (List.nodup_middle.mp hl.nodup).notMem
  refine ⟨b :: (l₁ ++ l₂), (hl.unlink.pushFront hb).setBuf b _, fun b' => ?_⟩
  have hmem := hall b'
  simp only [List.mem_append, List.mem_cons] at hmem ⊢
  tauto

/-! ### The start -/

theorem Rep.initBufs {bs : List (Fin nbuf)} (h : c.Rep l) (hbs : bs.Nodup) (hdisjoint : ∀ b ∈ bs, b ∉ l) :
    (bs.foldl initBuf c).Rep (bs.reverse ++ l) := by
  induction bs generalizing c l with
  | nil => exact h
  | cons b bs ih =>
    obtain ⟨hb, hrest⟩ := List.nodup_cons.mp hbs
    rw [List.foldl_cons, List.reverse_cons, List.append_assoc]
    refine ih ((h.setBuf b _).pushFront (hdisjoint b (by simp))) hrest fun b' hb' => ?_
    rw [List.singleton_append, List.mem_cons, not_or]
    exact ⟨fun heq => hb (heq ▸ hb'), hdisjoint b' (by simp [hb'])⟩

theorem linked_binit (c : Cache D) : c.binit.Linked := by
  have hempty : ((c.setPrev none none).setNext none none).Rep [] := by
    refine ⟨by simp, ?_⟩
    simp [Links, setNext, setPrev]
  refine ⟨_, hempty.initBufs (List.nodup_finRange nbuf) (by simp), ?_⟩
  simp

theorem initBuf_buf (c : Cache D) (b : Fin nbuf) : (c.initBuf b).buf = Function.update c.buf b { c.buf b with dev := -1 } := rfl

theorem initBufs_buf (bs : List (Fin nbuf)) (c : Cache D) (b : Fin nbuf) :
    (bs.foldl initBuf c).buf b = if b ∈ bs then { c.buf b with dev := -1 } else c.buf b := by
  induction bs generalizing c with
  | nil => rfl
  | cons b' bs ih =>
    rw [List.foldl_cons, ih, initBuf_buf]
    by_cases hb : b = b'
    · subst hb
      simp
    · simp [hb]

theorem binit_buf (c : Cache D) (b : Fin nbuf) : c.binit.buf b = { c.buf b with dev := -1 } := by
  rw [binit, initBufs_buf, if_pos (List.mem_finRange b)]
  rfl

/-! ### The search -/

theorem find_some {p : Fin nbuf → Bool} {l : List (Fin nbuf)} :
    ((l.map some).find? (Option.any p)).getD none = l.find? p := by
  rw [List.find?_map]
  cases h : l.find? (Option.any p ∘ some) with
  | none => exact (show l.find? p = none from h).symm
  | some b => exact (show l.find? p = some b from h).symm

theorem Rep.length_lt (h : c.Rep l) : (l.map some).length < nbuf + 1 := by
  have hle := h.nodup.length_le_card
  rw [Fintype.card_fin] at hle
  rw [List.length_map]
  omega

theorem Rep.forward (h : c.Rep l) (p : Fin nbuf → Bool) :
    LinkedRing.scan c.next none (Option.any p) (nbuf + 1) (c.next none) = some (l.find? p) := by
  rw [LinkedRing.scan_eq _ h h.length_lt, find_some]

theorem Rep.backward (h : c.Rep l) (p : Fin nbuf → Bool) :
    LinkedRing.scan c.prev none (Option.any p) (nbuf + 1) (c.prev none) = some (l.reverse.find? p) := by
  have hback : LinkedRing c.prev c.next none (l.reverse.map some) := by
    rw [List.map_reverse]
    exact LinkedRing.reverse h
  have hlt : (l.reverse.map some).length < nbuf + 1 := by simpa using h.length_lt
  rw [LinkedRing.scan_eq _ hback hlt, find_some]

inductive Found (c : Cache D) (dev sector : UInt32) : Got → Prop where
  | found {b : Fin nbuf} (hb : c.caches dev sector b = true) (hbusy : (c.buf b).busy = false) : Found c dev sector (.found b)
  | busy {b : Fin nbuf} (hb : c.caches dev sector b = true) (hbusy : (c.buf b).busy = true) : Found c dev sector (.busy b)
  | recycled {b : Fin nbuf} (hnone : ∀ b, c.caches dev sector b = false) (hb : c.clean b = true) : Found c dev sector (.recycled b)
  | noBuffers (hnone : ∀ b, c.caches dev sector b = false) (hall : ∀ b, c.clean b = false) : Found c dev sector .noBuffers

theorem Linked.bget (h : c.Linked) (dev sector : UInt32) : Found c dev sector (c.bget dev sector) := by
  obtain ⟨l, hl, hall⟩ := h
  rw [Cache.bget, hl.forward]
  cases hfind : l.find? (c.caches dev sector) with
  | some b =>
    have hb : c.caches dev sector b = true := List.find?_some hfind
    show Found c dev sector (if (c.buf b).busy then .busy b else .found b)
    by_cases hbusy : (c.buf b).busy = true
    · rw [if_pos hbusy]
      exact .busy hb hbusy
    · rw [if_neg hbusy]
      exact .found hb (by simpa using hbusy)
  | none =>
    have hnone : ∀ b, c.caches dev sector b = false := fun b => by
      simpa using List.find?_eq_none.mp hfind b (hall b)
    rw [hl.backward]
    cases hclean : l.reverse.find? c.clean with
    | some b => exact .recycled hnone (List.find?_some hclean)
    | none =>
      refine .noBuffers hnone fun b => ?_
      simpa using List.find?_eq_none.mp hclean b (by simpa using hall b)

end Cache

end Xv6.Bio
