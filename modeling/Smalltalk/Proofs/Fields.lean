import Smalltalk.Proofs.Store

/-!
# Reading fields behind a store

What a store to a field of an object does to all that can be read: the field has the new value, and
every other field of every object is what it was, errors included. References are
asked to belong to the heap, because the check of the accessors alone does not tell the header of an
object from a place inside one.

## Main results

* `Memory.WellFormed.setPtr`: a store leaves a heap
* `Memory.getPtr_setPtr`: what is read after it
-/

namespace Smalltalk

namespace Memory

section Fields

variable {m m' : Memory} {u v w : Value} {i : Nat}

/-- A store to a field that succeeds is one to a field of an object. -/
theorem setPtr_eq_ok (hm : m.WellFormed) (hv : m.Holds v)
    (h : Memory.setPtr v i w m = .ok () m') :
    ∃ a : Address, v = .ref a ∧ a.offset ∈ m.headers ∧ m.kindAt a.offset = .pointers ∧
      i < m.countAt a.offset ∧ m' = m.writeWord (a.offset + headerBytes + i * 4) w.encode := by
  cases hv with
  | small n => cases h
  | @ref a ha =>
    rw [Memory.setPtr, writeAt, element_of_mem hm ha] at h
    by_cases hk : m.kindAt a.offset = .pointers
    · by_cases hi : m.countAt a.offset ≤ i
      · rw [if_neg (not_not.2 hk), if_pos hi] at h
        cases h
      · rw [if_neg (not_not.2 hk), if_neg hi] at h
        cases h
        exact ⟨a, rfl, ha, hk, by omega, rfl⟩
    · rw [if_pos hk] at h
      cases h

theorem getPtr_of_mem (hm : m.WellFormed) {a : Address} (ha : a.offset ∈ m.headers) :
    m.getPtr (.ref a) i =
      if m.kindAt a.offset ≠ .pointers then .error (.wrongKind "getPtr" .pointers)
      else if m.countAt a.offset ≤ i then
        .error (.indexOutOfRange "getPtr" i (m.countAt a.offset))
      else .ok (m.fieldAt a.offset i) := by
  rw [Memory.getPtr, element_of_mem hm ha]
  by_cases hk : m.kindAt a.offset ≠ .pointers
  · rw [if_pos hk, if_pos hk]
  · rw [if_neg hk, if_neg hk]
    by_cases hi : m.countAt a.offset ≤ i
    · rw [if_pos hi, if_pos hi]
    · rw [if_neg hi, if_neg hi]
      rfl

theorem getWord_of_mem (hm : m.WellFormed) {a : Address} (ha : a.offset ∈ m.headers) :
    m.getWord (.ref a) i =
      if m.kindAt a.offset ≠ .words then .error (.wrongKind "getWord" .words)
      else if m.countAt a.offset ≤ i then
        .error (.indexOutOfRange "getWord" i (m.countAt a.offset))
      else .ok (m.wordElementAt a.offset i) := by
  rw [Memory.getWord, element_of_mem hm ha]
  by_cases hk : m.kindAt a.offset ≠ .words
  · rw [if_pos hk, if_pos hk]
  · rw [if_neg hk, if_neg hk]
    by_cases hi : m.countAt a.offset ≤ i
    · rw [if_pos hi, if_pos hi]
    · rw [if_neg hi, if_neg hi]
      rfl

/-- The bytes that a store to a field replaces. -/
theorem stored_setPtr (hm : m.WellFormed) (hv : m.Holds v)
    (h : Memory.setPtr v i w m = .ok () m') :
    ∃ a : Address, v = .ref a ∧ m.kindAt a.offset = .pointers ∧ i < m.countAt a.offset ∧
      Stored m a.offset (headerBytes + i * 4) (headerBytes + i * 4 + 4) m' ∧
      ∀ j, m'.fieldAt a.offset j = if j = i then w else m.fieldAt a.offset j := by
  obtain ⟨a, rfl, ha, hk, hi, rfl⟩ := setPtr_eq_ok hm hv h
  refine ⟨a, rfl, hk, hi, stored_element ha (by rw [hk]; rfl) hi _, fun j => ?_⟩
  exact fieldAt_writeWord m a.offset i j w

/-- **A store to a field leaves a heap**, with the same objects. -/
theorem WellFormed.setPtr (hm : m.WellFormed) (hv : m.Holds v) (hw : m.Holds w)
    (h : Memory.setPtr v i w m = .ok () m') :
    m'.WellFormed ∧ ∀ u, m.Holds u → m'.Holds u := by
  obtain ⟨a, rfl, hk, hi, hstored, hfield⟩ := stored_setPtr hm hv h
  refine ⟨hstored.wellFormed hm ?_ fun _ j hj => ?_, fun u hu => hstored.holds hm hu⟩
  · rw [hstored.hashAt (Nat.le_add_right _ _)]
    exact hm.hash_lt _ hstored.mem
  · rw [hfield]
    split
    · exact hw
    · exact hm.field _ hstored.mem hk j hj

/-- **Fields after a store**: the one that was stored to has the new value, all others have
theirs. -/
theorem getPtr_setPtr (hm : m.WellFormed) (hv : m.Holds v) (hw : m.Holds w)
    (h : Memory.setPtr v i w m = .ok () m') (hu : m.Holds u) (j : Nat) :
    m'.getPtr u j = if u = v ∧ j = i then .ok w else m.getPtr u j := by
  have hm' := (hm.setPtr hv hw h).1
  obtain ⟨a, rfl, hk, hi, hstored, hfield⟩ := stored_setPtr hm hv h
  cases hu with
  | small n => rfl
  | @ref b hb =>
    have hb' : b.offset ∈ m'.headers := by
      rw [hstored.headers hm]
      exact hb
    rw [getPtr_of_mem hm' hb', getPtr_of_mem hm hb, hstored.kindAt hm hb, hstored.countAt hm hb]
    by_cases hba : b = a
    · subst hba
      rw [if_neg (not_not.2 hk), if_neg (not_not.2 hk), hfield]
      by_cases hj : j = i
      · rw [hj, if_neg (by omega), if_pos rfl, if_pos ⟨rfl, rfl⟩]
      · rw [if_neg hj, if_neg fun hc : Value.ref b = .ref b ∧ j = i => hj hc.2]
    · have hne : b.offset ≠ a.offset := fun hc => hba (Address.ext hc)
      have hagree := hstored.agreeAt hm hb hne
      rw [if_neg fun hc : Value.ref b = .ref a ∧ j = i => hba (Value.ref.inj hc.1)]
      by_cases hkb : m.kindAt b.offset ≠ .pointers
      · rw [if_pos hkb, if_pos hkb]
      · rw [if_neg hkb, if_neg hkb]
        by_cases hj : m.countAt b.offset ≤ j
        · rw [if_pos hj, if_pos hj]
        · rw [if_neg hj, if_neg hj, hagree.fieldAt (not_not.1 hkb) (by omega)]

end Fields

end Memory

end Smalltalk
