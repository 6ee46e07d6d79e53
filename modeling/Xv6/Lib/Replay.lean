import Mathlib

/-!
# Replaying writes

A store is a map from addresses to contents, and a list of writes is applied to it from the first to the
last. Two facts carry every argument about redo: an address some write names ends with what the last such
write says, whatever the store held before; and so replaying all of a list over a store that has already
seen a beginning of it gives the same store as replaying it once.
-/

namespace Lib

variable {κ β : Type} [DecidableEq κ]

def replay (m : κ → β) (ws : List (κ × β)) : κ → β := ws.foldl (fun m w => Function.update m w.1 w.2) m

@[simp] theorem replay_nil (m : κ → β) : replay m [] = m := rfl

theorem replay_cons (m : κ → β) (w : κ × β) (ws : List (κ × β)) :
    replay m (w :: ws) = replay (Function.update m w.1 w.2) ws := rfl

theorem replay_append (m : κ → β) (ws vs : List (κ × β)) : replay m (ws ++ vs) = replay (replay m ws) vs := by
  simp [replay]

theorem replay_concat (m : κ → β) (ws : List (κ × β)) (w : κ × β) :
    replay m (ws ++ [w]) = Function.update (replay m ws) w.1 w.2 := by
  rw [replay_append, replay_cons, replay_nil]

variable {m : κ → β} {ws : List (κ × β)} {k : κ}

theorem replay_of_not_mem (h : k ∉ ws.map Prod.fst) :
    replay m ws k = m k := by
  induction ws generalizing m with
  | nil => rfl
  | cons w ws ih =>
    simp only [List.map_cons, List.mem_cons, not_or] at h
    rw [replay_cons, ih h.2, Function.update_of_ne h.1]

theorem replay_of_mem {m' : κ → β} (h : k ∈ ws.map Prod.fst) :
    replay m ws k = replay m' ws k := by
  induction ws generalizing m m' with
  | nil => simp at h
  | cons w ws ih =>
    rw [replay_cons, replay_cons]
    by_cases htail : k ∈ ws.map Prod.fst
    · exact ih htail
    · have hhead : k = w.1 := by simpa [htail] using h
      rw [replay_of_not_mem htail, replay_of_not_mem htail, hhead, Function.update_self, Function.update_self]

theorem replay_congr {m' : κ → β} (h : k ∉ ws.map Prod.fst → m k = m' k) :
    replay m ws k = replay m' ws k := by
  by_cases hk : k ∈ ws.map Prod.fst
  · exact replay_of_mem hk
  · rw [replay_of_not_mem hk, replay_of_not_mem hk, h hk]

/-- Redo is idempotent. A beginning of the list, already applied, does not show after a full replay. -/
theorem replay_replay {vs : List (κ × β)} (h : vs <+: ws) : replay (replay m vs) ws = replay m ws := by
  funext k
  apply replay_congr
  intro hk
  apply replay_of_not_mem
  intro hmem
  exact hk (h.map Prod.fst |>.subset hmem)

theorem replay_eq_of_forall {x : β} (hmem : k ∈ ws.map Prod.fst)
    (hval : ∀ w ∈ ws, w.1 = k → w.2 = x) : replay m ws k = x := by
  induction ws generalizing m with
  | nil => simp at hmem
  | cons w ws ih =>
    rw [replay_cons]
    by_cases htail : k ∈ ws.map Prod.fst
    · exact ih htail fun w' hw' => hval w' (List.mem_cons_of_mem _ hw')
    · have hhead : k = w.1 := by simpa [htail] using hmem
      rw [replay_of_not_mem htail, hhead, Function.update_self]
      exact hval w List.mem_cons_self hhead.symm

end Lib
