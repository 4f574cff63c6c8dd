import Smalltalk.Image.Basic
import Smalltalk.Proofs.Transparency
import Mathlib.Algebra.BigOperators.Ring.List

/-!
# What the check of an image establishes

A machine that was read from an image is checked before it is used. `Machine.Verified` says what the
check looks for, without saying how: objects tile the occupied part of the memory, and references
lead to objects. The check passes exactly then.

That is less than a heap has to satisfy. The check takes the element count and the kind from a size
word and does not look at the mark of moved objects, and it does not look at hashes at all. A
machine that passes is therefore well-formed exactly if no object is marked and all hashes have 30
bits; and only then is a collection known to keep its objects.

## Main definitions

* `Machine.Verified`: what the check looks for
* `Memory.Unspoiled`: what it does not look for

## Main results

* `Machine.verify_eq_ok_iff`: the check passes exactly if the machine is verified
* `Image.readMachine_eq_ok`: what has been read, if nothing was refused
* `Machine.Verified.wellFormed_iff`: which verified machines are well-formed
-/

namespace Smalltalk

open Memory Machine

/-- Objects tile the occupied part of the memory, and every reference leads to one of them. -/
structure Machine.Verified (m : Machine) : Prop where
  tiled : Tiles id m.memory.extentAt m.memory.start m.memory.headers m.memory.free
  registers : ∀ v ∈ m.registers.named.toList, m.memory.Holds v
  cls : ∀ o ∈ m.memory.headers, m.memory.Holds (m.memory.classAt o)
  field : ∀ o ∈ m.memory.headers, m.memory.kindAt o = .pointers → ∀ i < m.memory.countAt o,
    m.memory.Holds (m.memory.fieldAt o i)

/-- No object is marked as moved, and hashes have 30 bits. -/
def Memory.Unspoiled (m : Memory) : Prop :=
  ∀ o ∈ m.headers, SizeWord.forwarded (m.sizeWordAt o) = false ∧ (m.hashAt o).toNat < 1073741824

/-! ## The starts of objects -/

section Starts

variable {m : Memory}

/-- If the walk over the objects comes to its end, they tile what it has walked over. -/
theorem Memory.tiles_of_objectStartsFrom {offset : Nat} {starts found : Std.HashSet Nat}
    (hle : offset ≤ m.free) (h : m.objectStartsFrom offset starts = .ok found) :
    Tiles id m.extentAt offset (m.headersFrom offset) m.free := by
  fun_induction objectStartsFrom m offset starts with
  | case1 => cases h
  | case2 => cases h
  | case3 offset starts _ hheader hextent ih =>
    rw [headersFrom, if_pos (Nat.le_of_not_lt hheader)]
    exact ⟨rfl, ih (Nat.le_of_not_lt hextent) h⟩
  | case4 offset starts hlt =>
    rw [headersFrom, if_neg (by simp only [headerBytes]; omega)]
    exact Nat.le_antisymm hle (Nat.le_of_not_lt hlt)

/-- The walk over objects that tile the rest of the memory finds them. -/
theorem Memory.objectStartsFrom_of_tiles {offset : Nat} {os : List Nat}
    (h : Tiles id m.extentAt offset os m.free) (starts : Std.HashSet Nat) :
    ∃ found, m.objectStartsFrom offset starts = .ok found ∧
      ∀ o, o ∈ found ↔ o ∈ starts ∨ o ∈ os := by
  induction os generalizing offset starts with
  | nil =>
    have hend : offset = m.free := h
    refine ⟨starts, ?_, fun o => by simp⟩
    rw [objectStartsFrom, if_neg (by omega)]
  | cons o os ih =>
    obtain ⟨rfl, hos⟩ : o = offset ∧ Tiles id m.extentAt (offset + m.extentAt o) os m.free := h
    obtain ⟨found, hfound, hmem⟩ := ih hos (starts.insert o)
    have hend := hos.le_end
    have hheader := m.headerBytes_le_extentAt o
    have hpos := m.extentAt_pos o
    refine ⟨found, ?_, fun p => ?_⟩
    · rw [objectStartsFrom, if_pos (by omega), if_neg (by omega), if_neg (by omega)]
      exact hfound
    · rw [hmem, Std.HashSet.mem_insert, beq_iff_eq, List.mem_cons]
      constructor
      · rintro ((rfl | hp) | hp)
        · exact .inr (.inl rfl)
        · exact .inl hp
        · exact .inr (.inr hp)
      · rintro (hp | rfl | hp)
        · exact .inl (.inr hp)
        · exact .inl (.inl rfl)
        · exact .inr hp

theorem Memory.tiles_of_objectStarts {found : Std.HashSet Nat} (hle : m.start ≤ m.free)
    (h : m.objectStarts = .ok found) : Tiles id m.extentAt m.start m.headers m.free := by
  unfold objectStarts at h
  split at h
  · cases h
  · exact tiles_of_objectStartsFrom hle h

theorem Memory.objectStarts_of_tiles (h : Tiles id m.extentAt m.start m.headers m.free) :
    ∃ found, m.objectStarts = .ok found ∧ ∀ o, o ∈ found ↔ o ∈ m.headers := by
  obtain ⟨found, hfound, hmem⟩ := objectStartsFrom_of_tiles h ∅
  have haligned : m.usedBytes % 4 = 0 := by
    have hdvd : 4 ∣ (m.headers.map m.extentAt).sum :=
      List.dvd_sum fun n hn => by
        obtain ⟨o, -, rfl⟩ := List.mem_map.1 hn
        exact m.four_dvd_extentAt o
    rw [usedBytes, h.end_eq, Nat.add_sub_cancel_left]
    exact Nat.mod_eq_zero_of_dvd hdvd
  refine ⟨found, ?_, fun o => (hmem o).trans (or_iff_right Std.HashSet.not_mem_empty)⟩
  rw [objectStarts, if_neg (not_not_intro haligned), hfound]

end Starts

/-! ## References -/

section References

variable {m : Machine} {found : Std.HashSet Nat}

theorem Machine.checkReference_eq_ok_iff (hmem : ∀ o, o ∈ found ↔ o ∈ m.memory.headers)
    (v : Value) : checkReference found v = .ok () ↔ m.memory.Holds v := by
  cases v with
  | small n => exact iff_of_true rfl (.small n)
  | ref a =>
    have hcontains : found.contains a.offset ↔ a.offset ∈ m.memory.headers :=
      Std.HashSet.contains_iff_mem.trans (hmem a.offset)
    show (if found.contains a.offset then _ else _) = _ ↔ _
    split
    · next h => exact iff_of_true rfl (.ref (hcontains.1 h))
    · next h => exact iff_of_false (by simp) fun hv => h (hcontains.2 hv.mem)

/-- A check of all entries passes if it passes for each. -/
theorem forM_eq_ok_iff {ε α : Type} (f : α → Except ε PUnit) (l : List α) :
    l.forM f = .ok ⟨⟩ ↔ ∀ a ∈ l, f a = .ok ⟨⟩ := by
  induction l with
  | nil => exact iff_of_true rfl (by simp)
  | cons a l ih =>
    rw [List.forall_mem_cons, ← ih]
    show (f a >>= fun _ => l.forM f) = _ ↔ _
    cases f a with
    | ok => exact ⟨fun h => ⟨rfl, h⟩, fun h => h.2⟩
    | error e => exact iff_of_false (by rintro ⟨⟩) (by rintro ⟨⟨⟩, -⟩)

theorem Memory.forall_referencesAt_iff {m : Memory} {o : Nat} {P : Value → Prop} :
    (∀ v ∈ m.referencesAt o, P v) ↔
      P (m.classAt o) ∧ (m.kindAt o = .pointers → ∀ i < m.countAt o, P (m.fieldAt o i)) := by
  rw [referencesAt, List.forall_mem_cons]
  refine and_congr_right fun _ => ?_
  by_cases hk : m.kindAt o = .pointers
  · simp [hk, fieldAt, Nat.mul_comm]
  · simp [hk]

/-- **The check passes exactly if the machine is verified.** -/
theorem Machine.verify_eq_ok_iff (hle : m.memory.start ≤ m.memory.free) :
    m.verify = .ok () ↔ m.Verified := by
  have hverify : m.verify = m.memory.objectStarts >>= fun found =>
      m.registers.named.toList.forM (checkReference found) >>= fun _ =>
        m.memory.headers.forM fun o => (m.memory.referencesAt o).forM (checkReference found) := rfl
  -- once the objects are known to tile, the rest of the check is about what they hold
  have hrest : Tiles id m.memory.extentAt m.memory.start m.memory.headers m.memory.free →
      (m.verify = .ok () ↔ (∀ v ∈ m.registers.named.toList, m.memory.Holds v) ∧
        ∀ o ∈ m.memory.headers, ∀ v ∈ m.memory.referencesAt o, m.memory.Holds v) := by
    intro htiles
    obtain ⟨found, hfound, hmem⟩ := objectStarts_of_tiles htiles
    have hobjects : (m.memory.headers.forM fun o =>
        (m.memory.referencesAt o).forM (checkReference found)) = .ok ⟨⟩ ↔
        ∀ o ∈ m.memory.headers, ∀ v ∈ m.memory.referencesAt o, m.memory.Holds v := by
      simp only [forM_eq_ok_iff, checkReference_eq_ok_iff hmem]
    have hregisters : m.registers.named.toList.forM (checkReference found) = .ok ⟨⟩ ↔
        ∀ v ∈ m.registers.named.toList, m.memory.Holds v := by
      simp only [forM_eq_ok_iff, checkReference_eq_ok_iff hmem]
    rw [hverify, hfound, ← hobjects, ← hregisters]
    show (m.registers.named.toList.forM (checkReference found) >>= _) = _ ↔ _
    cases m.registers.named.toList.forM (checkReference found) with
    | ok => exact ⟨fun h => ⟨rfl, h⟩, fun h => h.2⟩
    | error e => exact iff_of_false (by rintro ⟨⟩) (by rintro ⟨⟨⟩, -⟩)
  constructor
  · intro h
    have htiles : Tiles id m.memory.extentAt m.memory.start m.memory.headers m.memory.free := by
      rw [hverify] at h
      cases hfound : m.memory.objectStarts with
      | ok found => exact tiles_of_objectStarts hle hfound
      | error e =>
        rw [hfound] at h
        cases h
    obtain ⟨hregisters, hobjects⟩ := (hrest htiles).1 h
    exact
      { tiled := htiles
        registers := hregisters
        cls := fun o ho => (forall_referencesAt_iff.1 (hobjects o ho)).1
        field := fun o ho => (forall_referencesAt_iff.1 (hobjects o ho)).2 }
  · intro h
    exact (hrest h.tiled).2
      ⟨h.registers, fun o ho => forall_referencesAt_iff.2 ⟨h.cls o ho, h.field o ho⟩⟩

end References

/-! ## Machines that were read -/

namespace Image

/-- The machine that the parts of an image describe. -/
def machineOf (settings : Settings) (roots : List UInt32) (ip sp : UInt32) (bytes : List UInt8) :
    Machine where
  memory := memoryWith (Memory.empty settings) bytes
  registers :=
    { named := Vector.ofFn fun i => Value.decode (roots.toArray.getD i 0)
      scratch := #[] }
  ip := ip.toNat
  sp := sp.toNat

section Reading

variable {α β : Type} {r r' : ImageReader} {settings : Settings} {m : Machine}

theorem bind_eq_ok {σ : Type} {x : EStateM ImageError σ α} {k : α → EStateM ImageError σ β} {b : β}
    {s s' : σ} (h : (x >>= k) s = .ok b s') : ∃ a s₁, x s = .ok a s₁ ∧ k a s₁ = .ok b s' := by
  change EStateM.bind x k s = _ at h
  rw [EStateM.bind] at h
  cases hx : x s with
  | ok a s₁ =>
    rw [hx] at h
    exact ⟨a, s₁, rfl, h⟩
  | error e s₁ =>
    rw [hx] at h
    cases h

/-- What comes after a condition that does not stop the reading. -/
theorem of_guard_eq_ok {c : Prop} [Decidable c] {e : ImageError} {k : PUnit → ReadImage α} {a : α}
    (h : (if c then throw e >>= k else k ⟨⟩) r = .ok a r') : ¬ c ∧ k ⟨⟩ r = .ok a r' := by
  split at h
  · cases h
  · next hc => exact ⟨hc, h⟩

theorem nextBytes_eq_ok {n : Nat} {bytes : List UInt8}
    (h : ImageReader.nextBytes n r = .ok bytes r') : bytes.length = n := by
  unfold ImageReader.nextBytes at h
  split at h
  · cases h
  · cases h
    rw [List.length_take]
    omega

theorem readHeader_eq_ok {capacity size : Nat} (h : readHeader capacity r = .ok size r') :
    size ≤ capacity := by
  unfold readHeader at h
  obtain ⟨w, r, -, h⟩ := bind_eq_ok h
  obtain ⟨-, h⟩ := of_guard_eq_ok h
  obtain ⟨w, r, -, h⟩ := bind_eq_ok h
  obtain ⟨-, h⟩ := of_guard_eq_ok h
  obtain ⟨major, r, -, h⟩ := bind_eq_ok h
  obtain ⟨-, h⟩ := of_guard_eq_ok h
  obtain ⟨minor, r, -, h⟩ := bind_eq_ok h
  -- whether a version is reported makes no difference to what is read
  obtain ⟨r, h⟩ : ∃ r, (do
      let start ← ImageReader.nextWord
      let size ← ImageReader.nextWord
      if start ≠ 0 then throw (.corrupt .badStart)
      if capacity < size.toNat then throw (.tooLarge size.toNat capacity)
      return size.toNat : ReadImage Nat) r = .ok size r' := by
    split at h
    · obtain ⟨_, r₁, _, h⟩ := bind_eq_ok h
      exact ⟨r₁, h⟩
    · exact ⟨r, h⟩
  obtain ⟨start, r, -, h⟩ := bind_eq_ok h
  obtain ⟨w, r, -, h⟩ := bind_eq_ok h
  obtain ⟨-, h⟩ := of_guard_eq_ok h
  obtain ⟨hsize, h⟩ := of_guard_eq_ok h
  cases h
  exact Nat.le_of_not_lt hsize

theorem readMachine_eq_ok (h : readMachine settings r = .ok m r') :
    ∃ roots ip sp bytes, m = machineOf settings roots ip sp bytes ∧
      settings.validate = .ok () ∧ bytes.length ≤ settings.semispaceSize ∧ m.verify = .ok () := by
  unfold readMachine at h
  obtain ⟨size, r, hheader, h⟩ := bind_eq_ok h
  have hsize := readHeader_eq_ok hheader
  have hvalid : settings.validate = .ok () := by
    cases hv : settings.validate with
    | ok => rfl
    | error e =>
      rw [Memory.create, hv] at h
      cases h
  rw [Memory.create, hvalid] at h
  obtain ⟨memory, r, hmemory, h⟩ := bind_eq_ok h
  cases hmemory
  obtain ⟨count, r, -, h⟩ := bind_eq_ok h
  obtain ⟨-, h⟩ := of_guard_eq_ok h
  obtain ⟨roots, r, -, h⟩ := bind_eq_ok h
  obtain ⟨ip, r, -, h⟩ := bind_eq_ok h
  obtain ⟨sp, r, -, h⟩ := bind_eq_ok h
  obtain ⟨bytes, r, hbytes, h⟩ := bind_eq_ok h
  have hlength := nextBytes_eq_ok hbytes
  refine ⟨roots, ip, sp, bytes, ?_⟩
  cases hverify : (machineOf settings roots ip sp bytes).verify with
  | ok =>
    simp only [machineOf] at hverify
    simp only [hverify] at h
    cases h
    exact ⟨rfl, hvalid, hlength ▸ hsize, hverify⟩
  | error flaw =>
    simp only [machineOf] at hverify
    simp only [hverify] at h
    cases h

end Reading

end Image

theorem Machine.WellFormed.verified {m : Machine} (hm : m.WellFormed) : m.Verified where
  tiled := hm.memory.tiled
  registers v hv := by
    obtain ⟨i, hi, rfl⟩ := List.getElem_of_mem hv
    exact hm.registers.named ⟨i, by simpa using hi⟩
  cls := hm.memory.cls
  field := hm.memory.field

theorem Machine.WellFormed.unspoiled {m : Machine} (hm : m.WellFormed) : m.memory.Unspoiled :=
  fun o ho => ⟨hm.memory.unmarked o ho, hm.memory.hash_lt o ho⟩

/-- A verified machine is well-formed if no object is marked and hashes have 30 bits. -/
theorem Machine.Verified.wellFormed_iff {m : Machine} (h : m.Verified)
    (hsettings : m.memory.settings.validate = .ok ()) (hfree : m.memory.free ≤ m.memory.limit)
    (hscratch : m.registers.scratch = #[]) : m.WellFormed ↔ m.memory.Unspoiled := by
  constructor
  · exact fun hm => hm.unspoiled
  · intro hunspoiled
    refine ⟨?_, fun i => ?_, fun v hv => ?_⟩
    · exact
        { settings := hsettings
          tiled := h.tiled
          free_le := hfree
          unmarked := fun o ho => (hunspoiled o ho).1
          hash_lt := fun o ho => (hunspoiled o ho).2
          cls := h.cls
          field := h.field }
    · exact h.registers _ (by simp)
    · rw [hscratch] at hv
      exact absurd hv (Array.not_mem_empty v)

end Smalltalk
