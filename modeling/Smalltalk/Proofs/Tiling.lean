import Mathlib.Algebra.BigOperators.Group.List.Basic
import Mathlib.Algebra.GroupWithZero.Nat
import Mathlib.Data.List.Nodup
import Mathlib.Tactic.Common

/-!
# Tilings of an interval

Objects are packed: each starts where the one before it ends. `Tiles start length c xs e` says that
of a list, for whatever the entries are: they cover the interval from `c` to `e`, in order and
without gaps. The memory uses it for the objects of a semispace, and the collection for the pairs of
an old and a new place, where it is the new places that are packed.

Entries must have a positive length for places to determine entries. That is a hypothesis of the
lemmas that need it, not of the definition.

## Main results

* `Tiles.separate`: two entries are the same or do not overlap
* `Tiles.next`: an entry ends where another starts, or where the interval ends
* `Tiles.covers`: every place of the interval belongs to an entry
-/

namespace Smalltalk

variable {α β : Type}

/-- The entries cover the interval from `c` to `e`, each starting where the one before it ends. -/
def Tiles (start length : α → Nat) (c : Nat) : List α → Nat → Prop
  | [], e => c = e
  | x :: xs, e => start x = c ∧ Tiles start length (c + length x) xs e

instance Tiles.decidable (start length : α → Nat) :
    ∀ (c : Nat) (xs : List α) (e : Nat), Decidable (Tiles start length c xs e)
  | c, [], e => inferInstanceAs (Decidable (c = e))
  | c, x :: xs, e =>
    have := Tiles.decidable start length (c + length x) xs e
    inferInstanceAs (Decidable (start x = c ∧ Tiles start length (c + length x) xs e))

namespace Tiles

variable {start length : α → Nat} {c d e : Nat} {xs ys : List α} {x y : α}

theorem append (hxs : Tiles start length c xs d) (hys : Tiles start length d ys e) :
    Tiles start length c (xs ++ ys) e := by
  induction xs generalizing c with
  | nil => cases hxs; exact hys
  | cons x xs ih => exact ⟨hxs.1, ih hxs.2⟩

/-- One more entry at the end. -/
theorem snoc (h : Tiles start length c xs d) (hx : start x = d) :
    Tiles start length c (xs ++ [x]) (d + length x) :=
  h.append ⟨hx, rfl⟩

theorem end_eq (h : Tiles start length c xs e) : e = c + (xs.map length).sum := by
  induction xs generalizing c with
  | nil => simpa using (show c = e from h).symm
  | cons x xs ih =>
    rw [ih h.2, List.map_cons, List.sum_cons, Nat.add_assoc]

theorem le_end (h : Tiles start length c xs e) : c ≤ e := by
  rw [h.end_eq]
  exact Nat.le_add_right _ _

theorem bounds (h : Tiles start length c xs e) (hx : x ∈ xs) :
    c ≤ start x ∧ start x + length x ≤ e := by
  induction xs generalizing c with
  | nil => exact absurd hx List.not_mem_nil
  | cons y ys ih =>
    obtain ⟨hy, hys⟩ := h
    rcases List.mem_cons.1 hx with rfl | hx
    · exact ⟨Nat.le_of_eq hy.symm, hy ▸ hys.le_end⟩
    · exact ⟨Nat.le_trans (Nat.le_add_right _ _) (ih hys hx).1, (ih hys hx).2⟩

/-- Two entries are the same, or one ends before the other starts. -/
theorem separate (h : Tiles start length c xs e) (hx : x ∈ xs) (hy : y ∈ xs) :
    x = y ∨ start x + length x ≤ start y ∨ start y + length y ≤ start x := by
  induction xs generalizing c with
  | nil => exact absurd hx List.not_mem_nil
  | cons z zs ih =>
    obtain ⟨hz, hzs⟩ := h
    rcases List.mem_cons.1 hx with hxz | hx <;> rcases List.mem_cons.1 hy with hyz | hy
    · exact .inl (hxz.trans hyz.symm)
    · rw [hxz, hz]
      exact .inr (.inl (hzs.bounds hy).1)
    · rw [hyz, hz]
      exact .inr (.inr (hzs.bounds hx).1)
    · exact ih hzs hx hy

/-- Where an entry starts determines it. -/
theorem eq_of_start_eq (h : Tiles start length c xs e) (pos : ∀ z, 0 < length z) (hx : x ∈ xs)
    (hy : y ∈ xs) (hxy : start x = start y) : x = y := by
  have hposx := pos x
  have hposy := pos y
  rcases h.separate hx hy with rfl | hle | hle
  · rfl
  · omega
  · omega

/-- An entry that shares a place with another is that one. -/
theorem eq_of_overlap (h : Tiles start length c xs e) (hx : x ∈ xs) (hy : y ∈ xs) {i : Nat}
    (hix : start x ≤ i ∧ i < start x + length x) (hiy : start y ≤ i ∧ i < start y + length y) :
    x = y := by
  rcases h.separate hx hy with rfl | hle | hle
  · rfl
  · omega
  · omega

theorem nodup (h : Tiles start length c xs e) (pos : ∀ z, 0 < length z) : xs.Nodup := by
  induction xs generalizing c with
  | nil => exact List.nodup_nil
  | cons x xs ih =>
    refine List.nodup_cons.2 ⟨fun hx => ?_, ih h.2⟩
    have hle := (h.2.bounds hx).1
    have hpos := pos x
    have hstart := h.1
    omega

/-- The interval is empty, or an entry starts at its beginning. -/
theorem first (h : Tiles start length c xs e) : c = e ∨ ∃ y ∈ xs, start y = c := by
  cases xs with
  | nil => exact .inl h
  | cons x xs => exact .inr ⟨x, List.mem_cons_self, h.1⟩

/-- Where an entry ends, another one starts, or the interval ends. -/
theorem next (h : Tiles start length c xs e) (hx : x ∈ xs) :
    start x + length x = e ∨ ∃ y ∈ xs, start y = start x + length x := by
  induction xs generalizing c with
  | nil => exact absurd hx List.not_mem_nil
  | cons z zs ih =>
    obtain ⟨hz, hzs⟩ := h
    rcases List.mem_cons.1 hx with rfl | hx
    · rcases hzs.first with he | ⟨y, hy, hs⟩
      · exact .inl (hz ▸ he)
      · exact .inr ⟨y, List.mem_cons_of_mem _ hy, by rw [hs, hz]⟩
    · rcases ih hzs hx with he | ⟨y, hy, hs⟩
      · exact .inl he
      · exact .inr ⟨y, List.mem_cons_of_mem _ hy, hs⟩

/-- Every place of the interval belongs to an entry. -/
theorem covers (h : Tiles start length c xs e) {i : Nat} (hi : c ≤ i ∧ i < e) :
    ∃ x ∈ xs, start x ≤ i ∧ i < start x + length x := by
  induction xs generalizing c with
  | nil => have : c = e := h; omega
  | cons x xs ih =>
    obtain ⟨hx, hxs⟩ := h
    by_cases hlt : i < c + length x
    · exact ⟨x, List.mem_cons_self, by omega, by omega⟩
    · obtain ⟨y, hy, hiy⟩ := ih hxs (by omega)
      exact ⟨y, List.mem_cons_of_mem _ hy, hiy⟩

theorem congr {length' : α → Nat} (h : Tiles start length c xs e)
    (hlen : ∀ x ∈ xs, length' x = length x) : Tiles start length' c xs e := by
  induction xs generalizing c with
  | nil => exact h
  | cons x xs ih =>
    refine ⟨h.1, ?_⟩
    rw [hlen x List.mem_cons_self]
    exact ih h.2 fun y hy => hlen y (List.mem_cons_of_mem _ hy)

/-- The places of the entries, as entries of their own. -/
theorem map_start {length' : Nat → Nat} (h : Tiles start length c xs e)
    (hlen : ∀ x ∈ xs, length' (start x) = length x) :
    Tiles id length' c (xs.map start) e := by
  induction xs generalizing c with
  | nil => exact h
  | cons x xs ih =>
    refine ⟨h.1, ?_⟩
    rw [hlen x List.mem_cons_self]
    exact ih h.2 fun y hy => hlen y (List.mem_cons_of_mem _ hy)

/-- Entries whose places are packed are packed. -/
theorem of_map_start {length' : Nat → Nat} (h : Tiles id length' c (xs.map start) e) :
    Tiles start (fun x => length' (start x)) c xs e := by
  induction xs generalizing c with
  | nil => exact h
  | cons x xs ih => exact ⟨h.1, ih h.2⟩

/-- A number that divides the beginning and all lengths divides all places. -/
theorem dvd {k : Nat} (h : Tiles start length c xs e) (hc : k ∣ c) (hlen : ∀ x, k ∣ length x)
    (hx : x ∈ xs) : k ∣ start x := by
  induction xs generalizing c with
  | nil => exact absurd hx List.not_mem_nil
  | cons y ys ih =>
    rcases List.mem_cons.1 hx with rfl | hx
    · exact h.1 ▸ hc
    · exact ih h.2 (Nat.dvd_add hc (hlen y)) hx

/-- A number that divides the beginning and all lengths divides the end. -/
theorem dvd_end {k : Nat} (h : Tiles start length c xs e) (hc : k ∣ c)
    (hlen : ∀ x, k ∣ length x) : k ∣ e := by
  induction xs generalizing c with
  | nil => exact (show c = e from h) ▸ hc
  | cons y ys ih => exact ih h.2 (Nat.dvd_add hc (hlen y))

end Tiles

end Smalltalk
