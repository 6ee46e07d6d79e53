import Mathlib.Computability.Language

/-!
# The matcher of `grep`

`match`, `matchhere` and `matchstar` of `grep.c` on the bytes before the NUL, against the language that a pattern
denotes.
-/

namespace Xv6.Grep

open scoped Computability

@[match_pattern] def star : UInt8 := 0x2A

@[match_pattern] def dollar : UInt8 := 0x24

@[match_pattern] def dot : UInt8 := 0x2E

def caret : UInt8 := 0x5E

mutual

def matchhere : List UInt8 → List UInt8 → Bool
  | [], _ => true
  | c :: star :: re, text => matchstar c re text
  | [dollar], text => text.isEmpty
  | c :: re, t :: text => (c == dot || c == t) && matchhere re text
  | _ :: _, [] => false
termination_by re text => (re.length, text.length)

def matchstar (c : UInt8) (re : List UInt8) : List UInt8 → Bool
  | [] => matchhere re []
  | t :: text => matchhere re (t :: text) || ((t == c || c == dot) && matchstar c re text)
termination_by text => (re.length + 1, text.length)

end

def matchLoop (re : List UInt8) : List UInt8 → Bool
  | [] => matchhere re []
  | t :: text => matchhere re (t :: text) || matchLoop re text

def matchText (re text : List UInt8) : Bool :=
  if re.head? = some caret then matchhere re.tail text else matchLoop re text

/-! ### What a pattern denotes -/

inductive Item where
  | star (c : UInt8)
  | one (c : UInt8)

structure Pattern where
  items : List Item
  /-- The pattern ends with `$`. -/
  toEnd : Bool

def Pattern.read : List UInt8 → Pattern
  | [] => ⟨[], false⟩
  | c :: Grep.star :: re => ⟨.star c :: (read re).items, (read re).toEnd⟩
  | [dollar] => ⟨[], true⟩
  | c :: re => ⟨.one c :: (read re).items, (read re).toEnd⟩

/-- The strings of one character that a character stands for. -/
def chars (c : UInt8) : Language UInt8 := {w | ∃ x, w = [x] ∧ (c = dot ∨ x = c)}

def Item.language : Item → Language UInt8
  | star c => (chars c)∗
  | one c => chars c

def Pattern.language (p : Pattern) : Language UInt8 := (p.items.map Item.language).prod

/-- The text has a string of the pattern's language at its start, which is all of it where the pattern says so. -/
def Pattern.Begins (p : Pattern) (text : List UInt8) : Prop :=
  ∃ w rest, text = w ++ rest ∧ w ∈ p.language ∧ (p.toEnd = true → rest = [])

theorem begins_nil (toEnd : Bool) (text : List UInt8) : (⟨[], toEnd⟩ : Pattern).Begins text ↔ (toEnd = true → text = []) := by
  constructor
  · rintro ⟨w, rest, rfl, hw, hrest⟩ hend
    obtain rfl : w = [] := hw
    exact hrest hend
  · exact fun h => ⟨[], text, rfl, rfl, h⟩

theorem begins_cons (i : Item) (items : List Item) (toEnd : Bool) (text : List UInt8) : (⟨i :: items, toEnd⟩ : Pattern).Begins text ↔
    ∃ v rest, text = v ++ rest ∧ v ∈ i.language ∧ (⟨items, toEnd⟩ : Pattern).Begins rest := by
  constructor
  · rintro ⟨w, rest, rfl, hw, hrest⟩
    obtain ⟨v, hv, u, hu, rfl⟩ := Language.mem_mul.mp hw
    exact ⟨v, u ++ rest, List.append_assoc v u rest, hv, u, rest, rfl, hu, hrest⟩
  · rintro ⟨v, -, rfl, hv, u, rest, rfl, hu, hrest⟩
    exact ⟨v ++ u, rest, (List.append_assoc v u rest).symm, Language.append_mem_mul hv hu, hrest⟩

theorem begins_one (c : UInt8) (items : List Item) (toEnd : Bool) (text : List UInt8) : (⟨.one c :: items, toEnd⟩ : Pattern).Begins text ↔
    ∃ t rest, text = t :: rest ∧ (c = dot ∨ t = c) ∧ (⟨items, toEnd⟩ : Pattern).Begins rest := by
  rw [begins_cons]
  constructor
  · rintro ⟨-, rest, rfl, ⟨t, rfl, ht⟩, hrest⟩
    exact ⟨t, rest, rfl, ht, hrest⟩
  · rintro ⟨t, rest, rfl, ht, hrest⟩
    exact ⟨[t], rest, rfl, ⟨t, rfl, ht⟩, hrest⟩

/-- A starred character either takes nothing or one character and then goes on. -/
theorem begins_star (c : UInt8) (items : List Item) (toEnd : Bool) (text : List UInt8) : (⟨.star c :: items, toEnd⟩ : Pattern).Begins text ↔
    (⟨items, toEnd⟩ : Pattern).Begins text ∨
      ∃ t rest, text = t :: rest ∧ (c = dot ∨ t = c) ∧ (⟨.star c :: items, toEnd⟩ : Pattern).Begins rest := by
  have hunfold : ∀ v, v ∈ (chars c)∗ ↔ v = [] ∨ ∃ t u, v = t :: u ∧ (c = dot ∨ t = c) ∧ u ∈ (chars c)∗ := by
    intro v
    rw [← Language.one_add_self_mul_kstar_eq_kstar, Language.mem_add, Language.mem_one, Language.mem_mul]
    refine or_congr Iff.rfl ⟨?_, ?_⟩
    · rintro ⟨-, ⟨t, rfl, ht⟩, u, hu, rfl⟩
      exact ⟨t, u, rfl, ht, by rwa [Language.one_add_self_mul_kstar_eq_kstar]⟩
    · rintro ⟨t, u, rfl, ht, hu⟩
      exact ⟨[t], ⟨t, rfl, ht⟩, u, by rwa [Language.one_add_self_mul_kstar_eq_kstar] at hu, rfl⟩
  rw [begins_cons]
  constructor
  · rintro ⟨v, rest, rfl, hv, hrest⟩
    obtain rfl | ⟨t, u, rfl, ht, hu⟩ := (hunfold v).mp hv
    · exact .inl hrest
    · exact .inr ⟨t, u ++ rest, rfl, ht, (begins_cons ..).mpr ⟨u, rest, rfl, hu, hrest⟩⟩
  · rintro (h | ⟨t, rest, rfl, ht, h⟩)
    · exact ⟨[], text, rfl, (hunfold []).mpr (.inl rfl), h⟩
    · obtain ⟨u, rest, rfl, hu, hrest⟩ := (begins_cons ..).mp h
      exact ⟨t :: u, rest, rfl, (hunfold _).mpr (.inr ⟨t, u, rfl, ht, hu⟩), hrest⟩

/-! ### The matcher -/

theorem matchstar_iff (c : UInt8) (re : List UInt8) (items : List Item) (toEnd : Bool) (text : List UInt8)
    (h : ∀ text, matchhere re text = true ↔ (⟨items, toEnd⟩ : Pattern).Begins text) :
    matchstar c re text = true ↔ (⟨.star c :: items, toEnd⟩ : Pattern).Begins text := by
  induction text with
  | nil =>
    rw [matchstar, h, begins_star]
    simp
  | cons t text ih =>
    rw [matchstar, begins_star, Bool.or_eq_true, Bool.and_eq_true, h, ih]
    simp [or_comm]

theorem matchhere_iff (re text : List UInt8) : matchhere re text = true ↔ (Pattern.read re).Begins text := by
  induction re using Pattern.read.induct generalizing text with
  | case1 => simp [matchhere, Pattern.read, begins_nil]
  | case2 c re ih =>
    rw [matchhere, Pattern.read]
    exact matchstar_iff c re _ _ text ih
  | case3 =>
    have hend : matchhere [dollar] text = text.isEmpty := matchhere.eq_3 text
    exact hend ▸ List.isEmpty_iff.trans ((begins_nil true text).trans (forall_prop_of_true rfl)).symm
  | case4 c re hstar hdollar ih =>
    rw [Pattern.read, begins_one]
    · cases text with
      | nil =>
        rw [matchhere]
        · simp
        · exact hstar
        · exact hdollar
      | cons t text =>
        rw [matchhere]
        · simp [ih, eq_comm (a := t)]
        · exact hstar
        · exact hdollar
    · exact hstar
    · exact hdollar

theorem matchLoop_iff (re text : List UInt8) :
    matchLoop re text = true ↔ ∃ skipped rest, text = skipped ++ rest ∧ (Pattern.read re).Begins rest := by
  induction text with
  | nil => simp [matchLoop, matchhere_iff]
  | cons t text ih =>
    rw [matchLoop, Bool.or_eq_true, matchhere_iff, ih]
    constructor
    · rintro (h | ⟨skipped, rest, rfl, h⟩)
      · exact ⟨[], t :: text, rfl, h⟩
      · exact ⟨t :: skipped, rest, rfl, h⟩
    · rintro ⟨_ | ⟨u, skipped⟩, rest, htext, h⟩
      · exact .inl (htext ▸ h)
      · exact .inr ⟨skipped, rest, (List.cons.inj htext).2, h⟩

def body (re : List UInt8) : List UInt8 := if re.head? = some caret then re.tail else re

/-- A pattern matches a text that has a part in the language of the pattern: at the start of the text if the pattern begins
with a caret, and at the end of the text if it ends with a dollar. -/
theorem match_iff (re text : List UInt8) : matchText re text = true ↔
    ∃ skipped w rest, text = skipped ++ w ++ rest ∧ w ∈ (Pattern.read (body re)).language ∧
      (re.head? = some caret → skipped = []) ∧ ((Pattern.read (body re)).toEnd = true → rest = []) := by
  by_cases hcaret : re.head? = some caret
  · rw [matchText, body, if_pos hcaret, if_pos hcaret, matchhere_iff]
    constructor
    · rintro ⟨w, rest, rfl, hw, hrest⟩
      exact ⟨[], w, rest, rfl, hw, fun _ => rfl, hrest⟩
    · rintro ⟨skipped, w, rest, rfl, hw, hskipped, hrest⟩
      obtain rfl := hskipped hcaret
      exact ⟨w, rest, rfl, hw, hrest⟩
  · rw [matchText, body, if_neg hcaret, if_neg hcaret, matchLoop_iff]
    constructor
    · rintro ⟨skipped, -, rfl, w, rest, rfl, hw, hrest⟩
      exact ⟨skipped, w, rest, (List.append_assoc ..).symm, hw, fun h => absurd h hcaret, hrest⟩
    · rintro ⟨skipped, w, rest, rfl, hw, -, hrest⟩
      exact ⟨skipped, w ++ rest, List.append_assoc .., w, rest, rfl, hw, hrest⟩

end Xv6.Grep
