import Smalltalk.Proofs.Image.Reading

/-!
# What bytes the check of an image accepts

The bytes of an image may come from anybody. What the check accepts is said here of the bytes alone:
at which places words are written, where the objects lie that the size words describe, and where
references lead. Nothing in this description looks behind the last byte.

The check itself is made on a memory, which has a byte everywhere. That it never looks at those
behind the last byte of the image is said by comparing two memories that may differ there: it ends
in the same way, also where it refuses.

## Main definitions

* `Image.HasWord`: a word is written at a place
* `Image.Laid`: objects lie one behind the other to the end
* `Image.Refers`: the references of an object lead to objects

## Main results

* `Machine.verify_congr`: the check looks at the occupied bytes only
* `Image.laid_iff`: objects are laid out in the bytes just if they tile the memory
* `heap_check_exact`: which bytes and registers are accepted
-/

namespace Smalltalk

open Memory Machine

/-! ## The check looks at the occupied bytes only -/

section Blind

variable {m m' : Memory}

theorem Memory.SameObjects.wordAt (h : m.SameObjects m') {i : Nat} (hlow : m.start ≤ i)
    (hhigh : i + 4 ≤ m.free) : m'.wordAt i = m.wordAt i :=
  Arena.getWord_congr fun k hk => h.bytes (i + k) (by omega) (by omega)

/-- A header that lies before the end describes the same object in both memories. -/
theorem Memory.SameObjects.extentAt (h : m.SameObjects m') {o : Nat} (hlow : m.start ≤ o)
    (hheader : o + headerBytes ≤ m.free) : m'.extentAt o = m.extentAt o := by
  have hsize : m'.sizeWordAt o = m.sizeWordAt o := by
    refine h.wordAt (by omega) ?_
    simp only [headerBytes] at hheader
    omega
  simp only [Memory.extentAt, countAt, kindAt, hsize]

/-- Both walks over the objects come to the same end, or stop at the same flaw. -/
theorem Memory.SameObjects.objectStartsFrom (h : m.SameObjects m') {o : Nat} (hlow : m.start ≤ o)
    (starts : Std.HashSet Nat) : m'.objectStartsFrom o starts = m.objectStartsFrom o starts := by
  fun_induction Memory.objectStartsFrom m o starts with
  | case1 o starts hlt hheader =>
    rw [Memory.objectStartsFrom, h.free, if_pos hlt, if_pos hheader]
  | case2 o starts hlt hheader hextent =>
    rw [Memory.objectStartsFrom, h.free, if_pos hlt, if_neg hheader,
      h.extentAt hlow (Nat.le_of_not_lt hheader), if_pos hextent]
  | case3 o starts hlt hheader hextent ih =>
    rw [Memory.objectStartsFrom, h.free, if_pos hlt, if_neg hheader,
      h.extentAt hlow (Nat.le_of_not_lt hheader), if_neg hextent]
    exact ih (by omega)
  | case4 o starts hlt =>
    rw [Memory.objectStartsFrom, h.free, if_neg hlt]

theorem Memory.SameObjects.objectStarts (h : m.SameObjects m') :
    m'.objectStarts = m.objectStarts := by
  have hused : m'.usedBytes = m.usedBytes := by rw [usedBytes, usedBytes, h.free, h.start]
  rw [Memory.objectStarts, Memory.objectStarts, hused, h.start, h.objectStartsFrom (Nat.le_refl _)]

theorem Memory.AgreeAt.referencesAt {o : Nat} (h : AgreeAt m m' o) :
    m'.referencesAt o = m.referencesAt o := by
  have hcls : Value.decode (m'.wordAt o) = Value.decode (m.wordAt o) := h.classAt
  rw [Memory.referencesAt, Memory.referencesAt, h.kindAt, h.countAt, hcls]
  refine congrArg (_ :: ·) (List.map_congr_left fun i hi => ?_)
  split at hi
  next hk =>
    rw [Nat.mul_comm 4 i]
    exact h.fieldAt hk (List.mem_range.1 hi)
  next hk => cases hi

theorem forM_congr {ε α : Type} {f g : α → Except ε PUnit} {l : List α} (h : ∀ a ∈ l, f a = g a) :
    l.forM f = l.forM g := by
  induction l with
  | nil => rfl
  | cons a l ih =>
    obtain ⟨ha, hl⟩ := List.forall_mem_cons.1 h
    show (f a >>= fun _ => l.forM f) = (g a >>= fun _ => l.forM g)
    rw [ha, ih hl]

theorem Machine.verify_of_error {m : Machine} {flaw : ImageFlaw}
    (h : m.memory.objectStarts = .error flaw) : m.verify = .error flaw := by
  unfold verify
  rw [h]
  rfl

theorem Machine.verify_of_ok {m : Machine} {found : Std.HashSet Nat}
    (h : m.memory.objectStarts = .ok found) :
    m.verify = m.registers.named.toList.forM (checkReference found) >>= fun _ =>
      m.memory.headers.forM fun o => (m.memory.referencesAt o).forM (checkReference found) := by
  unfold verify
  rw [h]
  rfl

/-- **The check looks at the occupied bytes only**, whether it accepts them or not. -/
theorem Machine.verify_congr {m m' : Machine} (h : m.memory.SameObjects m'.memory)
    (hle : m.memory.start ≤ m.memory.free) (hnamed : m'.registers.named = m.registers.named) :
    m'.verify = m.verify := by
  cases hfound : m.memory.objectStarts with
  | error flaw => rw [verify_of_error hfound, verify_of_error (h.objectStarts.trans hfound)]
  | ok found =>
    have htiles := tiles_of_objectStarts hle hfound
    have hobjects :
        m'.memory.headers.forM (fun o => (m'.memory.referencesAt o).forM (checkReference found)) =
          m.memory.headers.forM fun o => (m.memory.referencesAt o).forM (checkReference found) := by
      rw [h.headers htiles]
      refine forM_congr fun o ho => ?_
      rw [(h.agreeAt htiles ho).referencesAt]
    rw [verify_of_ok hfound, verify_of_ok (h.objectStarts.trans hfound), hnamed, hobjects]

end Blind

/-! ## Objects in bytes -/

namespace Image

/-- A word is written at a place, least significant byte first. -/
def HasWord (bytes : List UInt8) (i : Nat) (w : UInt32) : Prop := wordBytes w <+: bytes.drop i

instance (bytes : List UInt8) (i : Nat) (w : UInt32) : Decidable (HasWord bytes i w) :=
  inferInstanceAs (Decidable (wordBytes w <+: bytes.drop i))

/-- Objects lie one behind the other, from an offset to the end of the bytes. -/
inductive Laid (bytes : List UInt8) : Nat → List Nat → Prop
  | done : Laid bytes bytes.length []
  | object {o : Nat} {size : UInt32} {os : List Nat} (hsize : HasWord bytes (o + 8) size)
      (rest : Laid bytes (o + extent (SizeWord.count size) (SizeWord.kind size)) os) :
      Laid bytes o (o :: os)

/-- The class and the fields of the object at an offset are integers or some of these objects. -/
structure Refers (bytes : List UInt8) (os : List Nat) (o : Nat) : Prop where
  cls : ∃ w, HasWord bytes o w ∧ IsAmong os (.decode w)
  fields : ∀ size, HasWord bytes (o + 8) size → SizeWord.kind size = .pointers →
    ∀ i < SizeWord.count size, ∃ w, HasWord bytes (o + headerBytes + 4 * i) w ∧
      IsAmong os (.decode w)

section Bytes

variable {bytes : List UInt8} {memory : Memory} {i : Nat} {w : UInt32}

theorem getBytes_setWord (a : Arena) : (a.setWord i w).getBytes i 4 = wordBytes w := by
  simp [Arena.getBytes, Arena.get_setWord, List.range_succ, wordBytes]

/-- A word is determined by its bytes. -/
theorem getBytes_eq_wordBytes_iff {a : Arena} : a.getBytes i 4 = wordBytes w ↔ a.getWord i = w := by
  have hword : ∀ w, (Arena.empty.setWord i w).getWord i = w := Arena.getWord_setWord_same _ i
  rw [← getBytes_setWord Arena.empty]
  constructor
  · intro h
    rw [← hword w]
    refine Arena.getWord_congr fun k hk => ?_
    exact List.map_inj_left.1 h k (List.mem_range.2 hk)
  · rintro rfl
    exact Arena.getBytes_congr fun k hk => (Arena.get_setWord_getWord _ a i i hk).symm

theorem get_memoryWith (hi : i < bytes.length) :
    (memoryWith memory bytes).arena.get i = bytes.getD i 0 := by
  rw [memoryWith, Arena.get_setBytes, if_pos ⟨Nat.zero_le _, by omega⟩, Nat.sub_zero]

/-- A word is written at a place just if it lies there before the end. -/
theorem hasWord_iff (memory : Memory) : HasWord bytes i w ↔
    i + 4 ≤ bytes.length ∧ (memoryWith memory bytes).wordAt i = w := by
  have hlength : (wordBytes w).length = 4 := rfl
  have htake : i + 4 ≤ bytes.length →
      (bytes.drop i).take 4 = (memoryWith memory bytes).arena.getBytes i 4 := by
    intro hi
    refine List.ext_getElem (by simp [Arena.getBytes]; omega) fun k hk hk' => ?_
    have hlt : k < 4 := by simpa [Arena.getBytes] using hk'
    simp only [List.getElem_take, List.getElem_drop, Arena.getBytes, List.getElem_map,
      List.getElem_range]
    rw [get_memoryWith (by omega), List.getD_eq_getElem]
  rw [HasWord, List.prefix_iff_eq_take, hlength]
  constructor
  · intro h
    have hi : i + 4 ≤ bytes.length := by
      have hle := congrArg List.length h
      simp only [hlength, List.length_take, List.length_drop] at hle
      omega
    rw [htake hi] at h
    exact ⟨hi, getBytes_eq_wordBytes_iff.1 h.symm⟩
  · rintro ⟨hi, hw⟩
    rw [htake hi]
    exact (getBytes_eq_wordBytes_iff.2 hw).symm

/-- Objects are laid out in the bytes just if they tile a memory that has them. -/
theorem laid_iff (memory : Memory) {o : Nat} {os : List Nat} : Laid bytes o os ↔
    Tiles id (memoryWith memory bytes).extentAt o os bytes.length := by
  constructor
  · intro h
    induction h with
    | done => rfl
    | object hsize _ ih =>
      obtain ⟨-, rfl⟩ := (hasWord_iff memory).1 hsize
      exact ⟨rfl, ih⟩
  · intro h
    induction os generalizing o with
    | nil =>
      obtain rfl : o = bytes.length := h
      exact .done
    | cons p os ih =>
      obtain ⟨rfl, hos⟩ : p = o ∧ _ := h
      have hend := hos.le_end
      have hheader := (memoryWith memory bytes).headerBytes_le_extentAt p
      simp only [headerBytes] at hheader
      exact .object ((hasWord_iff memory).2 ⟨by omega, rfl⟩) (ih hos)

theorem refers_iff {o : Nat} {os : List Nat}
    (ho : o + (memoryWith memory bytes).extentAt o ≤ bytes.length) :
    Refers bytes os o ↔ ∀ v ∈ (memoryWith memory bytes).referencesAt o, IsAmong os v := by
  have hheader := (memoryWith memory bytes).headerBytes_le_extentAt o
  simp only [headerBytes] at hheader
  rw [forall_referencesAt_iff]
  constructor
  · intro h
    obtain ⟨w, hw, hcls⟩ := h.cls
    obtain ⟨-, rfl⟩ := (hasWord_iff memory).1 hw
    refine ⟨hcls, fun hk i hi => ?_⟩
    have hsize : HasWord bytes (o + 8) ((memoryWith memory bytes).sizeWordAt o) :=
      (hasWord_iff memory).2 ⟨by omega, rfl⟩
    obtain ⟨w, hw, hfield⟩ := h.fields _ hsize hk i hi
    obtain ⟨-, rfl⟩ := (hasWord_iff memory).1 hw
    rwa [Nat.mul_comm 4 i] at hfield
  · rintro ⟨hcls, hfields⟩
    refine ⟨⟨_, (hasWord_iff memory).2 ⟨by omega, rfl⟩, hcls⟩, fun size hsize hk i hi => ?_⟩
    obtain ⟨-, rfl⟩ := (hasWord_iff memory).1 hsize
    have hfield := hfields hk i hi
    rw [fieldAt, Nat.mul_comm i 4] at hfield
    refine ⟨_, (hasWord_iff memory).2 ⟨?_, rfl⟩, hfield⟩
    have hextent := extentAt_of_pointers hk
    have hcount : i < (memoryWith memory bytes).countAt o := hi
    simp only [headerBytes] at hextent ⊢
    omega

end Bytes

end Image

/-- **The check of the heap is exact.** It accepts bytes and registers just if the bytes are whole
words, objects lie in them one behind the other to the end, and all references, in registers, class
words and fields, are integers or lead to one of these objects. It never looks behind the last byte:
a memory that has anything else there is accepted or refused in the same way. -/
theorem heap_check_exact (settings : Settings) (bytes : List UInt8) (registers : Registers)
    (ip sp : Nat) :
    let m : Machine :=
      { memory := Image.memoryWith (Memory.empty settings) bytes, registers, ip, sp }
    (m.verify = .ok () ↔ bytes.length % 4 = 0 ∧ ∃ os, Image.Laid bytes 0 os ∧
      (∀ v ∈ registers.named.toList, IsAmong os v) ∧ ∀ o ∈ os, Image.Refers bytes os o) ∧
    ∀ m' : Machine, m'.registers.named = registers.named → m'.memory.start = 0 →
      m'.memory.free = bytes.length → (∀ i < bytes.length, m'.memory.arena.get i = bytes.getD i 0) →
      m'.verify = m.verify := by
  intro m
  have hstart : m.memory.start = 0 := rfl
  have hfree : m.memory.free = bytes.length := rfl
  refine ⟨?_, fun m' hnamed hstart' hfree' hbytes => ?_⟩
  · rw [verify_eq_ok_iff (hstart ▸ Nat.zero_le _)]
    constructor
    · intro h
      have hamong : ∀ v, m.memory.Holds v → IsAmong m.memory.headers v := fun v hv => hv.isAmong
      refine ⟨?_, m.memory.headers, (Image.laid_iff _).2 h.tiled,
        fun v hv => hamong v (h.registers v hv), fun o ho => ?_⟩
      · have hdvd := h.tiled.dvd_end (hstart ▸ Nat.dvd_zero 4) fun o => m.memory.four_dvd_extentAt o
        exact Nat.mod_eq_zero_of_dvd hdvd
      · refine (Image.refers_iff (h.tiled.bounds ho).2).2 (forall_referencesAt_iff.2 ⟨?_, ?_⟩)
        · exact hamong _ (h.cls o ho)
        · exact fun hk i hi => hamong _ (h.field o ho hk i hi)
    · rintro ⟨-, os, hlaid, hregisters, hrefers⟩
      have htiled : Tiles id m.memory.extentAt m.memory.start os m.memory.free :=
        (Image.laid_iff _).1 hlaid
      obtain rfl := headers_eq_of_tiles htiled
      have hobjects : ∀ o ∈ m.memory.headers, _ := fun o ho =>
        forall_referencesAt_iff.1 ((Image.refers_iff (htiled.bounds ho).2).1 (hrefers o ho))
      exact
        { tiled := htiled
          registers := fun v hv => holds_of_isAmong (hregisters v hv)
          cls := fun o ho => holds_of_isAmong (hobjects o ho).1
          field := fun o ho hk i hi => holds_of_isAmong ((hobjects o ho).2 hk i hi) }
  · refine verify_congr ⟨hstart'.trans hstart.symm, hfree'.trans hfree.symm, fun i _ hi => ?_⟩
      (hstart ▸ Nat.zero_le _) hnamed
    rw [hbytes i hi]
    exact (Image.get_memoryWith hi).symm

/-- The bytes of an object without fields that is its own class. -/
def loneObject : List UInt8 :=
  [0, 0, 0, 0, 0, 0, 0, 0] ++ wordBytes (SizeWord.make 0 .pointers)

/-- The object is accepted if all registers have it, also with another byte behind it. -/
theorem heap_check_exact_loneObject :
    let memory := Image.memoryWith (Memory.empty {}) loneObject
    let m : Machine := { memory, registers := Registers.empty, ip := 0, sp := 0 }
    m.verify = .ok () ∧
      ({ m with memory := { memory with arena := memory.arena.set 12 255 } } : Machine).verify =
      .ok () := by
  intro memory m
  obtain ⟨haccepts, hblind⟩ := heap_check_exact {} loneObject Registers.empty 0 0
  have hsize : Image.HasWord loneObject 8 (SizeWord.make 0 .pointers) := by decide
  have hlaid : Image.Laid loneObject 0 [0] := .object hsize .done
  have hrefers : Image.Refers loneObject [0] 0 := by
    refine ⟨⟨0, by decide, by decide +kernel⟩, fun size hsize' _ i hi => ?_⟩
    -- there is one word in that place, and it counts no fields
    obtain ⟨-, hw⟩ := (Image.hasWord_iff memory).1 hsize
    obtain ⟨-, hw'⟩ := (Image.hasWord_iff memory).1 hsize'
    have hzero : SizeWord.count size = 0 := by
      rw [← hw', hw]
      decide
    omega
  have hverify : m.verify = .ok () :=
    haccepts.2 ⟨by decide, [0], hlaid, by decide +kernel, by simpa using hrefers⟩
  refine ⟨hverify, (hblind _ rfl rfl rfl fun i hi => ?_).trans hverify⟩
  have hne : i ≠ 12 := Nat.ne_of_lt hi
  exact (Arena.get_set _ 12 i 255).trans ((if_neg hne).trans (Image.get_memoryWith hi))

end Smalltalk
