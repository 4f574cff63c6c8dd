import Smalltalk.Memory.Arena
import Mathlib.Tactic.Common

/-!
# Words, bytes and runs in the byte store

The store is addressed by bytes and mostly used by words. The lemmas here go between the two: a word
is determined by its four bytes and determines them, and the operations on runs of words and bytes
are described byte by byte, so that one lemma serves a reader of either size.

`copyWords` is described without a hypothesis on how the two runs lie: it picks the direction in
which no word is overwritten before it has been read, and the description says what that buys.

## Main results

* `Arena.getWord_congr`, `Arena.get_eq_of_getWord_eq`: words and bytes determine each other
* `Arena.get_copyWords`, `Arena.get_fillWords_of_outside`, `Arena.get_setBytes`: what a run changes
-/

namespace Smalltalk

namespace Arena

variable {a b : Arena} {i j : Nat}

/-! ## Words and their bytes -/

/-- Four equal bytes make equal words. -/
theorem getWord_congr (h : ∀ k < 4, a.get (i + k) = b.get (j + k)) : a.getWord i = b.getWord j := by
  have h0 : a.get i = b.get j := h 0 (by decide)
  rw [getWord_eq_bytes, getWord_eq_bytes, h0, h 1 (by decide), h 2 (by decide), h 3 (by decide)]

/-- The word as a number, least significant byte first. -/
theorem toNat_getWord (a : Arena) (i : Nat) :
    (a.getWord i).toNat = (a.get i).toNat + 256 * (a.get (i + 1)).toNat
      + 65536 * (a.get (i + 2)).toNat + 16777216 * (a.get (i + 3)).toNat := by
  have h0 := (a.get i).toNat_lt
  have h1 := (a.get (i + 1)).toNat_lt
  have h2 := (a.get (i + 2)).toNat_lt
  have h3 := (a.get (i + 3)).toNat_lt
  have h8 : UInt32.toNat 8 % 32 = 8 := by decide
  have h16 : UInt32.toNat 16 % 32 = 16 := by decide
  have h24 : UInt32.toNat 24 % 32 = 24 := by decide
  simp only [getWord_eq_bytes, UInt32.toNat_add, UInt32.toNat_shiftLeft, UInt8.toNat_toUInt32,
    Nat.shiftLeft_eq, h8, h16, h24]
  omega

/-- Equal words have equal bytes. -/
theorem get_eq_of_getWord_eq (h : a.getWord i = b.getWord j) :
    ∀ k < 4, a.get (i + k) = b.get (j + k) := by
  have hn : (a.getWord i).toNat = (b.getWord j).toNat := congrArg _ h
  rw [toNat_getWord, toNat_getWord] at hn
  have hlt (x : UInt8) : x.toNat < 256 := x.toNat_lt
  have ha0 := hlt (a.get i)
  have ha1 := hlt (a.get (i + 1))
  have ha2 := hlt (a.get (i + 2))
  have ha3 := hlt (a.get (i + 3))
  have hb0 := hlt (b.get j)
  have hb1 := hlt (b.get (j + 1))
  have hb2 := hlt (b.get (j + 2))
  have hb3 := hlt (b.get (j + 3))
  intro k hk
  apply UInt8.toNat_inj.1
  match k, hk with
  | 0, _ => rw [Nat.add_zero, Nat.add_zero]; omega
  | 1, _ => omega
  | 2, _ => omega
  | 3, _ => omega

/-- A byte outside the word that is written. -/
theorem get_setWord_of_outside (a : Arena) (w : UInt32) (h : j < i ∨ i + 4 ≤ j) :
    (a.setWord i w).get j = a.get j := by
  rw [get_setWord, if_neg (by omega), if_neg (by omega), if_neg (by omega), if_neg (by omega)]

/-- Writing the same word makes bytes that agreed before agree after. -/
theorem get_setWord_congr (w : UInt32) (h : a.get j = b.get j) :
    (a.setWord i w).get j = (b.setWord i w).get j := by
  simp only [get_setWord, h]

/-- The bytes of a word that was written are those of the word it was read as. -/
theorem get_setWord_getWord (a b : Arena) (i j : Nat) {k : Nat} (hk : k < 4) :
    (a.setWord i (b.getWord j)).get (i + k) = b.get (j + k) :=
  get_eq_of_getWord_eq (getWord_setWord_same a i (b.getWord j)) k hk

/-! ## Runs of words -/

/-- Copying upwards: the run may overlap its source from above. -/
theorem get_copyUp (a : Arena) (source target n : Nat) (h : source ≤ target) (j : Nat) :
    (a.copyUp source target n).get j =
      if target ≤ j ∧ j < target + 4 * n then a.get (source + (j - target)) else a.get j := by
  induction n generalizing a with
  | zero => rw [copyUp, if_neg (by omega)]
  | succ n ih =>
    rw [copyUp, ih]
    by_cases hlow : target ≤ j ∧ j < target + 4 * n
    · -- the word written first lies above everything that is still to be read
      rw [if_pos hlow, if_pos (by omega), get_setWord_of_outside _ _ (by omega)]
    · rw [if_neg hlow]
      by_cases htop : target ≤ j ∧ j < target + 4 * (n + 1)
      · rw [if_pos htop]
        obtain ⟨k, hk, rfl⟩ : ∃ k < 4, j = target + 4 * n + k :=
          ⟨j - (target + 4 * n), by omega, by omega⟩
        rw [get_setWord_getWord _ _ _ _ hk]
        congr 1
        omega
      · rw [if_neg htop, get_setWord_of_outside _ _ (by omega)]

/-- Copying downwards: the run may overlap its source from below. -/
theorem get_copyDown (a : Arena) (source target n : Nat) (h : target ≤ source) (j : Nat) :
    (a.copyDown source target n).get j =
      if target ≤ j ∧ j < target + 4 * n then a.get (source + (j - target)) else a.get j := by
  induction n generalizing a source target with
  | zero => rw [copyDown, if_neg (by omega)]
  | succ n ih =>
    rw [copyDown, ih _ _ _ (by omega)]
    by_cases hhigh : target + 4 ≤ j ∧ j < target + 4 + 4 * n
    · rw [if_pos hhigh, if_pos (by omega), get_setWord_of_outside _ _ (by omega)]
      congr 1
      omega
    · rw [if_neg hhigh]
      by_cases hlow : target ≤ j ∧ j < target + 4 * (n + 1)
      · rw [if_pos hlow]
        obtain ⟨k, hk, rfl⟩ : ∃ k < 4, j = target + k := ⟨j - target, by omega, by omega⟩
        rw [get_setWord_getWord _ _ _ _ hk, Nat.add_sub_cancel_left]
      · rw [if_neg hlow, get_setWord_of_outside _ _ (by omega)]

/-- **Copying a run.** Every byte of the target is the byte that was in its place of the source, and
no other byte changes. -/
theorem get_copyWords (a : Arena) (source target n j : Nat) :
    (a.copyWords source target n).get j =
      if target ≤ j ∧ j < target + 4 * n then a.get (source + (j - target)) else a.get j := by
  rw [copyWords]
  by_cases h : source < target
  · rw [if_pos h, get_copyUp _ _ _ _ (by omega)]
  · rw [if_neg h, get_copyDown _ _ _ _ (by omega)]

theorem get_fillWords_of_outside (a : Arena) (target : Nat) (w : UInt32) (n : Nat)
    (h : j < target ∨ target + 4 * n ≤ j) : (a.fillWords target w n).get j = a.get j := by
  induction n generalizing a target with
  | zero => rfl
  | succ n ih => rw [fillWords, ih _ _ (by omega), get_setWord_of_outside _ _ (by omega)]

theorem getWord_fillWords (a : Arena) (target : Nat) (w : UInt32) {n k : Nat} (hk : k < n) :
    (a.fillWords target w n).getWord (target + 4 * k) = w := by
  induction n generalizing a target k with
  | zero => omega
  | succ n ih =>
    rw [fillWords]
    cases k with
    | zero =>
      have hkeep : ((a.setWord target w).fillWords (target + 4) w n).getWord (target + 4 * 0) =
          (a.setWord target w).getWord target :=
        getWord_congr fun l hl => get_fillWords_of_outside _ _ _ _ (by omega)
      rw [hkeep, getWord_setWord_same]
    | succ k =>
      rw [show target + 4 * (k + 1) = target + 4 + 4 * k by omega]
      exact ih _ _ (by omega)

/-! ## Runs of bytes -/

theorem get_setBytes (a : Arena) (i : Nat) (bs : List UInt8) (j : Nat) :
    (a.setBytes i bs).get j =
      if i ≤ j ∧ j < i + bs.length then bs.getD (j - i) 0 else a.get j := by
  induction bs generalizing a i with
  | nil => rw [setBytes, if_neg (by simp)]
  | cons x xs ih =>
    rw [setBytes, ih, List.length_cons]
    by_cases htail : i + 1 ≤ j ∧ j < i + 1 + xs.length
    · rw [if_pos htail, if_pos (by omega), show j - i = j - (i + 1) + 1 by omega,
        List.getD_cons_succ]
    · rw [if_neg htail, get_set]
      by_cases hj : j = i
      · rw [if_pos hj, if_pos (by omega), hj, Nat.sub_self, List.getD_cons_zero]
      · rw [if_neg hj, if_neg (by omega)]

theorem getBytes_congr {n : Nat} (h : ∀ k < n, a.get (i + k) = b.get (j + k)) :
    a.getBytes i n = b.getBytes j n := by
  refine List.map_congr_left fun k hk => h k ?_
  exact List.mem_range.1 hk

end Arena

end Smalltalk
