import Smalltalk.Memory.Access
import Smalltalk.Proofs.Arena
import Smalltalk.Proofs.Tiling
import Mathlib.Algebra.Order.BigOperators.Group.List
import Mathlib.Algebra.Order.Ring.Nat
import Mathlib.Data.List.Perm.Subperm
import Mathlib.Data.Nat.Bitwise

/-!
# Well-formed memories

A memory is a store of bytes, and most stores are not heaps. `Memory.WellFormed` says which are: the
objects that the size words describe tile the occupied part of the active semispace exactly, none is
marked as moved, hashes have 30 bits, and whatever is read as a reference is an integer or the
header of one of those objects.

The predicate speaks of *all* objects, not only of those that something refers to. So it can be kept
by operations that know nothing of roots, and what an operation may touch is settled before anybody
asks what it reaches.

## Reading objects

`classAt`, `hashAt`, `fieldAt` and so on read an object by its header offset and check nothing; the
accessors of the memory are these behind their checks. A *slot* is a place relative to the header at
which the collector finds a reference: the class word, or a field of a pointer object.

## Main definitions

* `Memory.WellFormed`, `Memory.Holds`: which memories are heaps, and which values belong to them
* `Memory.LaidOut`: a memory that is written out is a heap
* `Memory.Reachable`: the objects that roots lead to
* `Value.Renames`, `Memory.Matches`: values and objects that are the same up to a renaming

## Main results

* `Memory.headers_eq_of_tiles`: a tiling determines the list of headers
* `Memory.WellFormed.within`: an object lies inside the occupied part of the active semispace
-/

namespace Smalltalk

/-! ## Size words -/

namespace SizeWord

/-- A flag is set if the bit of the word as a number is. -/
theorem and_flag_ne_zero (w f : UInt32) (i : Nat) (hf : f.toNat = 2 ^ i) :
    (w &&& f != 0) = decide (w.toNat / 2 ^ i % 2 = 1) := by
  have hand : (w &&& f).toNat = (w.toNat.testBit i).toNat * 2 ^ i := by
    rw [UInt32.toNat_and, hf, Nat.and_two_pow]
  rw [← Nat.testBit_eq_decide_div_mod_eq]
  cases hb : w.toNat.testBit i with
  | false =>
    have h0 : w &&& f = 0 := UInt32.toNat_inj.1 (by rw [hand, hb]; simp)
    rw [h0]
    rfl
  | true =>
    rw [bne_iff_ne]
    intro h0
    rw [h0, hb] at hand
    have hpos := Nat.two_pow_pos i
    have hzero : UInt32.toNat 0 = 0 := rfl
    simp only [hzero, Bool.toNat_true, Nat.one_mul] at hand
    omega

theorem kind_eq (w : UInt32) :
    kind w = if w.toNat / 1073741824 % 2 = 1 then .pointers
      else if w.toNat / 536870912 % 2 = 1 then .words else .bytes := by
  rw [kind, and_flag_ne_zero w 0x40000000 30 (by decide),
    and_flag_ne_zero w 0x20000000 29 (by decide)]
  simp only [decide_eq_true_eq]
  rfl

theorem forwarded_eq (w : UInt32) : forwarded w = decide (2147483648 ≤ w.toNat) := by
  have hlt := w.toNat_lt
  rw [forwarded, and_flag_ne_zero w 0x80000000 31 (by decide)]
  congr 1
  apply propext
  omega

theorem count_eq (w : UInt32) : count w = w.toNat % 536870912 := by
  have hmask : UInt32.toNat 0x1FFFFFFF = 2 ^ 29 - 1 := by decide
  rw [count, UInt32.toNat_and, hmask, Nat.and_two_pow_sub_one_eq_mod]

/-- Marking sets the mark. -/
theorem forwarded_forward (w : UInt32) : forwarded (forward w) = true := by
  have hand : (w ||| 0x80000000) &&& 0x80000000 = 0x80000000 := by
    apply UInt32.toBitVec_inj.1
    ext i hi
    simp only [UInt32.toBitVec_and, UInt32.toBitVec_or, BitVec.getElem_and, BitVec.getElem_or]
    cases w.toBitVec[i] <;> simp
  rw [forwarded, forward, hand]
  decide

section Make

variable {n : Nat} (k : BodyKind) (h : n ≤ maxCount)
include h

theorem toNat_make : (make n k).toNat = n + k.flag.toNat := by
  unfold maxCount at h
  rw [make, UInt32.toNat_or, UInt32.toNat_ofNat', Nat.mod_eq_of_lt (by omega), Nat.or_comm]
  cases k with
  | pointers =>
    have hor : (2 ^ 30 * 1 + n : Nat) = 2 ^ 30 * 1 ||| n := Nat.two_pow_add_eq_or_of_lt (by omega) 1
    exact hor.symm.trans (Nat.add_comm _ _)
  | words =>
    have hor : (2 ^ 29 * 1 + n : Nat) = 2 ^ 29 * 1 ||| n := Nat.two_pow_add_eq_or_of_lt (by omega) 1
    exact hor.symm.trans (Nat.add_comm _ _)
  | bytes => exact Nat.zero_or n

theorem count_make : count (make n k) = n := by
  rw [count_eq, toNat_make k h]
  unfold maxCount at h
  cases k with
  | pointers => rw [show BodyKind.pointers.flag.toNat = 1073741824 from rfl]; omega
  | words => rw [show BodyKind.words.flag.toNat = 536870912 from rfl]; omega
  | bytes => rw [show BodyKind.bytes.flag.toNat = 0 from rfl]; omega

theorem kind_make : kind (make n k) = k := by
  rw [kind_eq, toNat_make k h]
  unfold maxCount at h
  cases k with
  | pointers => rw [show BodyKind.pointers.flag.toNat = 1073741824 from rfl, if_pos (by omega)]
  | words =>
    rw [show BodyKind.words.flag.toNat = 536870912 from rfl, if_neg (by omega), if_pos (by omega)]
  | bytes => rw [show BodyKind.bytes.flag.toNat = 0 from rfl, if_neg (by omega), if_neg (by omega)]

theorem forwarded_make : forwarded (make n k) = false := by
  rw [forwarded_eq, toNat_make k h]
  unfold maxCount at h
  apply decide_eq_false
  cases k with
  | pointers => rw [show BodyKind.pointers.flag.toNat = 1073741824 from rfl]; omega
  | words => rw [show BodyKind.words.flag.toNat = 536870912 from rfl]; omega
  | bytes => rw [show BodyKind.bytes.flag.toNat = 0 from rfl]; omega

end Make
end SizeWord

/-- Relates the header offsets of objects that are taken to be the same. -/
abbrev Renaming := Nat → Nat → Prop

/-- The two values are the same integer, or refer to objects that the renaming relates. -/
inductive Value.Renames (ρ : Renaming) : Value → Value → Prop
  | small (n : SmallInt) : Renames ρ (.small n) (.small n)
  | ref {a b : Address} (h : ρ a.offset b.offset) : Renames ρ (.ref a) (.ref b)

theorem Value.Renames.mono {ρ σ : Renaming} {v w : Value} (h : Value.Renames ρ v w)
    (hle : ∀ a b, ρ a b → σ a b) : Value.Renames σ v w := by
  cases h with
  | small n => exact .small n
  | ref h => exact .ref (hle _ _ h)

/-- What a reference is renamed to is a reference. -/
theorem Value.Renames.of_ref {ρ : Renaming} {a : Address} {w : Value}
    (h : Value.Renames ρ (.ref a) w) : ∃ b : Address, w = .ref b ∧ ρ a.offset b.offset := by
  cases h with
  | ref h => exact ⟨_, rfl, h⟩

namespace Memory

/-! ## Objects by their headers -/

/-- The class of the object at an offset. -/
def classAt (m : Memory) (o : Nat) : Value := Value.decode (m.wordAt o)

/-- The identity hash of the object at an offset. -/
def hashAt (m : Memory) (o : Nat) : UInt32 := m.wordAt (o + 4)

/-- Element `i` of the body of the object at an offset, as a reference. -/
def fieldAt (m : Memory) (o i : Nat) : Value := Value.decode (m.wordAt (o + headerBytes + i * 4))

/-- Element `i` of the body of the object at an offset, as a word. -/
def wordElementAt (m : Memory) (o i : Nat) : UInt32 := m.wordAt (o + headerBytes + i * 4)

/-- Element `i` of the body of the object at an offset, as a byte. -/
def byteElementAt (m : Memory) (o i : Nat) : UInt8 := m.arena.get (o + headerBytes + i)

/-- The value is an integer or the header of an object. -/
inductive Holds (m : Memory) : Value → Prop
  | small (n : SmallInt) : Holds m (.small n)
  | ref {a : Address} (h : a.offset ∈ m.headers) : Holds m (.ref a)

theorem Holds.mem {m : Memory} {a : Address} (h : m.Holds (.ref a)) : a.offset ∈ m.headers := by
  cases h with
  | ref h => exact h

/-- A value belongs to a memory if objects are renamed to objects of that memory only. -/
theorem Holds.of_renames {ρ : Renaming} {m : Memory} {v w : Value} (h : Value.Renames ρ v w)
    (hrange : ∀ a b, ρ a b → b ∈ m.headers) : m.Holds w := by
  cases h with
  | small n => exact .small n
  | ref h => exact .ref (hrange _ _ h)

/-- The memory is a heap: its objects tile the occupied part of the active semispace, and refer to
nothing but each other. -/
structure WellFormed (m : Memory) : Prop where
  /-- The semispaces have an admissible size. -/
  settings : m.settings.validate = .ok ()
  /-- The objects tile the occupied part. -/
  tiled : Tiles id m.extentAt m.start m.headers m.free
  /-- The occupied part lies within the active semispace. -/
  free_le : m.free ≤ m.limit
  /-- No object is marked as moved. -/
  unmarked : ∀ o ∈ m.headers, SizeWord.forwarded (m.sizeWordAt o) = false
  /-- Hashes have 30 bits. -/
  hash_lt : ∀ o ∈ m.headers, (m.hashAt o).toNat < 1073741824
  /-- Class words are references. -/
  cls : ∀ o ∈ m.headers, m.Holds (m.classAt o)
  /-- The fields of pointer objects are references. -/
  field : ∀ o ∈ m.headers, m.kindAt o = .pointers → ∀ i < m.countAt o, m.Holds (m.fieldAt o i)

/-- The objects that the roots lead to, through class words and fields. -/
inductive Reachable (m : Memory) (roots : Array Value) : Nat → Prop
  | root {a : Address} (h : .ref a ∈ roots) : Reachable m roots a.offset
  | cls {o : Nat} {a : Address} (ho : Reachable m roots o) (h : m.classAt o = .ref a) :
      Reachable m roots a.offset
  | field {o i : Nat} {a : Address} (ho : Reachable m roots o) (hk : m.kindAt o = .pointers)
      (hi : i < m.countAt o) (h : m.fieldAt o i = .ref a) : Reachable m roots a.offset

/-- The value is an integer or one of these objects. -/
def IsAmong (os : List Nat) : Value → Prop
  | .small _ => True
  | .ref a => a.offset ∈ os

instance (os : List Nat) (v : Value) : Decidable (IsAmong os v) :=
  match v with
  | .small _ => .isTrue trivial
  | .ref a => inferInstanceAs (Decidable (a.offset ∈ os))

/-- Objects that refer only to each other are all that is reached from among them. -/
theorem Reachable.mem_of_closed {m : Memory} {roots : Array Value} {os : List Nat} {o : Nat}
    (h : m.Reachable roots o) (hroots : ∀ v ∈ roots, IsAmong os v)
    (hcls : ∀ o ∈ os, IsAmong os (m.classAt o))
    (hfields : ∀ o ∈ os, m.kindAt o = .pointers → ∀ i < m.countAt o, IsAmong os (m.fieldAt o i)) :
    o ∈ os := by
  induction h with
  | root h => exact hroots _ h
  | cls _ h ih =>
    have hamong := hcls _ ih
    rwa [h] at hamong
  | field _ hk hi h ih =>
    have hamong := hfields _ ih hk _ hi
    rwa [h] at hamong

/-- The object at `o'` is the object at `o`, with its references renamed. -/
structure Matches (ρ : Renaming) (m : Memory) (o : Nat) (m' : Memory) (o' : Nat) : Prop where
  hash : m'.hashAt o' = m.hashAt o
  kind : m'.kindAt o' = m.kindAt o
  count : m'.countAt o' = m.countAt o
  cls : Value.Renames ρ (m.classAt o) (m'.classAt o')
  fields : m.kindAt o = .pointers → ∀ i < m.countAt o,
    Value.Renames ρ (m.fieldAt o i) (m'.fieldAt o' i)
  words : m.kindAt o = .words → ∀ i < m.countAt o, m'.wordElementAt o' i = m.wordElementAt o i
  bytes : m.kindAt o = .bytes → ∀ i < m.countAt o, m'.byteElementAt o' i = m.byteElementAt o i

theorem Matches.mono {ρ σ : Renaming} {m m' : Memory} {o o' : Nat} (h : Matches ρ m o m' o')
    (hle : ∀ a b, ρ a b → σ a b) : Matches σ m o m' o' :=
  { h with
    cls := h.cls.mono hle
    fields := fun hk i hi => (h.fields hk i hi).mono hle }

/-- The two objects are of one length. -/
theorem Matches.extent {ρ : Renaming} {m m' : Memory} {o o' : Nat} (h : Matches ρ m o m' o') :
    m'.extentAt o' = m.extentAt o := by
  simp only [extentAt, h.count, h.kind]

/-! ## Extents -/

section Extent

variable {m : Memory} {o : Nat}

theorem extentAt_pos (m : Memory) (o : Nat) : 0 < m.extentAt o :=
  Nat.lt_of_lt_of_le (by decide) (m.headerBytes_le_extentAt o)

theorem four_dvd_extentAt (m : Memory) (o : Nat) : 4 ∣ m.extentAt o := four_dvd_extent _ _

theorem extentAt_of_pointers (h : m.kindAt o = .pointers) :
    m.extentAt o = headerBytes + 4 * m.countAt o := by
  simp only [extentAt, h, extent, BodyKind.elementBytes, headerBytes]
  omega

theorem extentAt_of_words (h : m.kindAt o = .words) :
    m.extentAt o = headerBytes + 4 * m.countAt o := by
  simp only [extentAt, h, extent, BodyKind.elementBytes, headerBytes]
  omega

theorem le_extentAt_of_bytes (h : m.kindAt o = .bytes) :
    headerBytes + m.countAt o ≤ m.extentAt o := by
  simp only [extentAt, h, extent, BodyKind.elementBytes, headerBytes]
  omega

end Extent

/-! ## Objects that are the same in two memories -/

/-- The bytes of the object at an offset are the same in both memories. -/
def AgreeAt (m m' : Memory) (o : Nat) : Prop :=
  ∀ k < m.extentAt o, m'.arena.get (o + k) = m.arena.get (o + k)

namespace AgreeAt

variable {m m' : Memory} {o : Nat}

theorem wordAt (h : AgreeAt m m' o) {k : Nat} (hk : k + 4 ≤ m.extentAt o) :
    m'.wordAt (o + k) = m.wordAt (o + k) := by
  refine Arena.getWord_congr fun l hl => ?_
  rw [Nat.add_assoc]
  exact h _ (by omega)

theorem sizeWordAt (h : AgreeAt m m' o) : m'.sizeWordAt o = m.sizeWordAt o :=
  h.wordAt (m.headerBytes_le_extentAt o)

theorem kindAt (h : AgreeAt m m' o) : m'.kindAt o = m.kindAt o := by
  simp only [Memory.kindAt, h.sizeWordAt]

theorem countAt (h : AgreeAt m m' o) : m'.countAt o = m.countAt o := by
  simp only [Memory.countAt, h.sizeWordAt]

theorem extentAt (h : AgreeAt m m' o) : m'.extentAt o = m.extentAt o := by
  simp only [Memory.extentAt, h.kindAt, h.countAt]

theorem symm (h : AgreeAt m m' o) : AgreeAt m' m o :=
  fun k hk => (h k (h.extentAt ▸ hk)).symm

theorem classAt (h : AgreeAt m m' o) : m'.classAt o = m.classAt o :=
  congrArg Value.decode
    (h.wordAt (k := 0) (Nat.le_trans (by decide) (m.headerBytes_le_extentAt o)))

theorem hashAt (h : AgreeAt m m' o) : m'.hashAt o = m.hashAt o :=
  h.wordAt (Nat.le_trans (by decide) (m.headerBytes_le_extentAt o))

theorem fieldAt (h : AgreeAt m m' o) (hk : m.kindAt o = .pointers) {i : Nat}
    (hi : i < m.countAt o) : m'.fieldAt o i = m.fieldAt o i := by
  have hext := extentAt_of_pointers hk
  rw [Memory.fieldAt, Memory.fieldAt, Nat.add_assoc, h.wordAt (by omega)]

theorem wordElementAt (h : AgreeAt m m' o) (hk : m.kindAt o = .words) {i : Nat}
    (hi : i < m.countAt o) : m'.wordElementAt o i = m.wordElementAt o i := by
  have hext := extentAt_of_words hk
  rw [Memory.wordElementAt, Memory.wordElementAt, Nat.add_assoc, h.wordAt (by omega)]

theorem byteElementAt (h : AgreeAt m m' o) (hk : m.kindAt o = .bytes) {i : Nat}
    (hi : i < m.countAt o) : m'.byteElementAt o i = m.byteElementAt o i := by
  have hext := le_extentAt_of_bytes hk
  rw [Memory.byteElementAt, Memory.byteElementAt, Nat.add_assoc]
  exact h _ (by omega)

end AgreeAt

/-- Whether two objects match depends on nothing but the two. -/
theorem Matches.congr {ρ : Renaming} {m m' m₁ m₁' : Memory} {o o' : Nat}
    (h : Matches ρ m o m' o') (hl : AgreeAt m m₁ o) (hr : AgreeAt m' m₁' o') :
    Matches ρ m₁ o m₁' o' := by
  constructor
  case hash => rw [hr.hashAt, hl.hashAt, h.hash]
  case kind => rw [hr.kindAt, hl.kindAt, h.kind]
  case count => rw [hr.countAt, hl.countAt, h.count]
  case cls => rw [hr.classAt, hl.classAt]; exact h.cls
  case fields =>
    intro hk i hi
    rw [hl.kindAt] at hk
    rw [hl.countAt] at hi
    rw [hl.fieldAt hk hi, hr.fieldAt (h.kind.trans hk) (h.count.symm ▸ hi)]
    exact h.fields hk i hi
  case words =>
    intro hk i hi
    rw [hl.kindAt] at hk
    rw [hl.countAt] at hi
    rw [hl.wordElementAt hk hi, hr.wordElementAt (h.kind.trans hk) (h.count.symm ▸ hi)]
    exact h.words hk i hi
  case bytes =>
    intro hk i hi
    rw [hl.kindAt] at hk
    rw [hl.countAt] at hi
    rw [hl.byteElementAt hk hi, hr.byteElementAt (h.kind.trans hk) (h.count.symm ▸ hi)]
    exact h.bytes hk i hi

/-! ## The list of headers -/

/-- Walking over objects that tile the rest of the occupied part lists them. -/
theorem headersFrom_eq_of_tiles {m : Memory} {c : Nat} {os : List Nat}
    (h : Tiles id m.extentAt c os m.free) : m.headersFrom c = os := by
  induction os generalizing c with
  | nil =>
    have hc : c = m.free := h
    rw [headersFrom, if_neg]
    simp only [headerBytes]
    omega
  | cons o os ih =>
    obtain ⟨rfl, hos⟩ : o = c ∧ Tiles id m.extentAt (c + m.extentAt o) os m.free := h
    have hle := m.headerBytes_le_extentAt o
    have hend := hos.le_end
    rw [headersFrom, if_pos (by omega), ih hos]

/-- A tiling of the occupied part is the list of headers. -/
theorem headers_eq_of_tiles {m : Memory} {os : List Nat}
    (h : Tiles id m.extentAt m.start os m.free) : m.headers = os :=
  headersFrom_eq_of_tiles h

theorem holds_of_isAmong {m : Memory} {v : Value} (h : IsAmong m.headers v) : m.Holds v := by
  cases v with
  | small n => exact .small n
  | ref a => exact .ref h

theorem Holds.isAmong {m : Memory} {v : Value} (h : m.Holds v) : IsAmong m.headers v := by
  cases h with
  | small n => exact trivial
  | ref h => exact h

/-! ### Memories that are written out -/

/-- The words of an object made of fields. Its class is nil. -/
def fieldWords (fields : List UInt32) : List UInt32 :=
  0 :: 0 :: SizeWord.make fields.length .pointers :: fields

/-- The word of a number. -/
def numberWord (n : UInt8) : UInt32 := (Value.ofByte n).encode

/-- A memory that consists of these words. -/
def ofWords (settings : Settings) (words : List UInt32) : Memory :=
  { Memory.empty settings with
    arena := words.zipIdx.foldl (fun arena p => arena.setWord (4 * p.2) p.1) Arena.empty
    free := 4 * words.length }

/-- The memory is a heap with objects at these places. This can be checked. -/
def LaidOut (m : Memory) (os : List Nat) : Prop :=
  m.settings.validate = .ok () ∧ Tiles id m.extentAt m.start os m.free ∧ m.free ≤ m.limit ∧
    (∀ o ∈ os, SizeWord.forwarded (m.sizeWordAt o) = false) ∧
    (∀ o ∈ os, (m.hashAt o).toNat < 1073741824) ∧ (∀ o ∈ os, IsAmong os (m.classAt o)) ∧
    ∀ o ∈ os, m.kindAt o = .pointers → ∀ i < m.countAt o, IsAmong os (m.fieldAt o i)

instance (m : Memory) (os : List Nat) : Decidable (m.LaidOut os) := by
  unfold LaidOut
  infer_instance

theorem LaidOut.headers {m : Memory} {os : List Nat} (h : m.LaidOut os) : m.headers = os :=
  headers_eq_of_tiles h.2.1

theorem LaidOut.holds {m : Memory} {os : List Nat} (h : m.LaidOut os) {v : Value}
    (hv : IsAmong os v) : m.Holds v :=
  holds_of_isAmong (h.headers ▸ hv)

theorem LaidOut.wellFormed {m : Memory} {os : List Nat} (h : m.LaidOut os) : m.WellFormed := by
  obtain ⟨hsettings, htiles, hfree, hunmarked, hhash, hcls, hfield⟩ := h
  obtain rfl := headers_eq_of_tiles htiles
  exact ⟨hsettings, htiles, hfree, hunmarked, hhash, fun o ho => holds_of_isAmong (hcls o ho),
    fun o ho hk i hi => holds_of_isAmong (hfield o ho hk i hi)⟩

/-! ## Consequences of being a heap -/

namespace WellFormed

variable {m : Memory} {o : Nat}

theorem capacity_bounds (hm : m.WellFormed) :
    1024 ≤ m.capacity ∧ 4 ∣ m.capacity ∧ m.capacity ≤ 1073741824 := by
  have h := hm.settings
  unfold Settings.validate at h
  simp only [capacity]
  split at h
  · cases h
  · split at h
    · cases h
    · split at h
      · cases h
      · exact ⟨by omega, by omega, by omega⟩

theorem four_dvd_start (hm : m.WellFormed) : 4 ∣ m.start := by
  unfold start
  split
  · exact hm.capacity_bounds.2.1
  · exact Nat.dvd_zero 4

theorem four_dvd_free (hm : m.WellFormed) : 4 ∣ m.free :=
  hm.tiled.dvd_end hm.four_dvd_start m.four_dvd_extentAt

/-- An object lies in the occupied part of the active semispace. -/
theorem within (hm : m.WellFormed) (ho : o ∈ m.headers) :
    m.start ≤ o ∧ o + m.extentAt o ≤ m.free :=
  hm.tiled.bounds ho

/-- Two objects are the same or do not overlap. -/
theorem separate (hm : m.WellFormed) {p : Nat} (ho : o ∈ m.headers) (hp : p ∈ m.headers) :
    o = p ∨ o + m.extentAt o ≤ p ∨ p + m.extentAt p ≤ o :=
  hm.tiled.separate ho hp

theorem headers_nodup (hm : m.WellFormed) : m.headers.Nodup :=
  hm.tiled.nodup m.extentAt_pos

/-- Different objects never cover more than the occupied part. -/
theorem sum_extentAt_le (hm : m.WellFormed) {os : List Nat} (hnodup : os.Nodup)
    (hsub : os ⊆ m.headers) : m.start + (os.map m.extentAt).sum ≤ m.free := by
  obtain ⟨os', hperm, hsublist⟩ := hnodup.subperm hsub
  rw [hm.tiled.end_eq, ← (hperm.map m.extentAt).sum_eq]
  exact Nat.add_le_add_left
    ((hsublist.map m.extentAt).sum_le_sum fun _ _ => Nat.zero_le _) _

/-- The semispaces do not overlap. -/
theorem apart (m : Memory) :
    m.start + m.capacity ≤ m.otherStart ∨ m.otherStart + m.capacity ≤ m.start := by
  unfold Memory.start Memory.otherStart
  cases m.upper
  · exact .inl (by simp)
  · exact .inr (by simp)

theorem limit_le (hm : m.WellFormed) : m.limit ≤ 2147483648 := by
  have hcap := hm.capacity_bounds
  unfold limit start
  split <;> omega

theorem otherStart_add_le (hm : m.WellFormed) : m.otherStart + m.capacity ≤ 2147483648 := by
  have hcap := hm.capacity_bounds
  unfold otherStart
  split <;> omega

/-- Every offset in use fits an address. -/
theorem free_le_addresses (hm : m.WellFormed) : m.free ≤ 2147483648 :=
  Nat.le_trans hm.free_le hm.limit_le

/-- Objects are where addresses can refer to them. -/
theorem header_lt (hm : m.WellFormed) (ho : o ∈ m.headers) : o < 2147483648 := by
  have hwithin := hm.within ho
  have hpos := m.extentAt_pos o
  have hfree := hm.free_le_addresses
  omega

/-- What the roots reach are objects of the heap. -/
theorem mem_of_reachable (hm : m.WellFormed) {roots : Array Value}
    (hroots : ∀ v ∈ roots, m.Holds v) (h : m.Reachable roots o) : o ∈ m.headers := by
  induction h with
  | root h => exact (hroots _ h).mem
  | cls _ h ih => exact (h ▸ hm.cls _ ih).mem
  | field _ hk hi h ih => exact (h ▸ hm.field _ ih hk _ hi).mem

end WellFormed

/-! ## Heaps with the same objects -/

section Agree

variable {m m' : Memory} (hm : m.WellFormed) (hagree : ∀ o ∈ m.headers, AgreeAt m m' o)
include hm hagree

theorem headers_of_agree (hstart : m'.start = m.start) (hfree : m'.free = m.free) :
    m'.headers = m.headers := by
  refine headers_eq_of_tiles ?_
  rw [hstart, hfree]
  exact hm.tiled.congr fun o ho => (hagree o ho).extentAt

/-- A memory with the objects of a heap, and no others, is a heap. -/
theorem wellFormed_of_agree (hsettings : m'.settings = m.settings) (hupper : m'.upper = m.upper)
    (hfree : m'.free = m.free) : m'.WellFormed := by
  have hcapacity : m'.capacity = m.capacity := by simp only [capacity, hsettings]
  have hstart : m'.start = m.start := by simp only [start, hupper, hcapacity]
  have hheaders := headers_of_agree hm hagree hstart hfree
  have hholds : ∀ v, m.Holds v → m'.Holds v := by
    intro v hv
    cases hv with
    | small n => exact .small n
    | ref ha => exact .ref (hheaders.symm ▸ ha)
  constructor
  case settings => rw [hsettings, hm.settings]
  case tiled =>
    rw [hheaders, hstart, hfree]
    exact hm.tiled.congr fun o ho => (hagree o ho).extentAt
  case free_le => rw [hfree, limit, hstart, hcapacity]; exact hm.free_le
  case unmarked =>
    rw [hheaders]
    intro o ho
    rw [(hagree o ho).sizeWordAt]
    exact hm.unmarked o ho
  case hash_lt =>
    rw [hheaders]
    intro o ho
    rw [(hagree o ho).hashAt]
    exact hm.hash_lt o ho
  case cls =>
    rw [hheaders]
    intro o ho
    rw [(hagree o ho).classAt]
    exact hholds _ (hm.cls o ho)
  case field =>
    rw [hheaders]
    intro o ho hk i hi
    rw [(hagree o ho).kindAt] at hk
    rw [(hagree o ho).countAt] at hi
    rw [(hagree o ho).fieldAt hk hi]
    exact hholds _ (hm.field o ho hk i hi)

/-- The same objects are reached. -/
theorem Reachable.of_agree {roots : Array Value} (hroots : ∀ v ∈ roots, m.Holds v) {o : Nat}
    (h : m.Reachable roots o) : m'.Reachable roots o := by
  induction h with
  | root h => exact .root h
  | @cls o a ho h ih =>
    refine .cls ih ?_
    rw [(hagree o (hm.mem_of_reachable hroots ho)).classAt, h]
  | @field o i a ho hk hi h ih =>
    have hsame := hagree o (hm.mem_of_reachable hroots ho)
    refine .field ih (hsame.kindAt.trans hk) (hsame.countAt.symm ▸ hi) ?_
    rw [hsame.fieldAt hk hi, h]

end Agree

/-- The memories differ at most in bytes that belong to no object. -/
def Twin (m m' : Memory) : Prop :=
  ∃ A : Arena, m' = { m with arena := A } ∧
    ∀ i, m.start ≤ i → i < m.free → A.get i = m.arena.get i

namespace Twin

variable {m m' : Memory}

theorem refl (m : Memory) : Twin m m := ⟨m.arena, rfl, fun _ _ _ => rfl⟩

theorem agreeAt (hm : m.WellFormed) (h : Twin m m') {o : Nat} (ho : o ∈ m.headers) :
    AgreeAt m m' o := by
  obtain ⟨A, rfl, hA⟩ := h
  have hin := hm.within ho
  exact fun k hk => hA _ (by omega) (by omega)

theorem headers (hm : m.WellFormed) (h : Twin m m') : m'.headers = m.headers := by
  have hagree := fun o ho => h.agreeAt hm (o := o) ho
  obtain ⟨A, rfl, -⟩ := h
  exact headers_of_agree hm hagree rfl rfl

theorem wellFormed (hm : m.WellFormed) (h : Twin m m') : m'.WellFormed := by
  have hagree := fun o ho => h.agreeAt hm (o := o) ho
  obtain ⟨A, rfl, -⟩ := h
  exact wellFormed_of_agree hm hagree rfl rfl rfl

theorem holds (hm : m.WellFormed) (h : Twin m m') {v : Value} (hv : m.Holds v) : m'.Holds v := by
  cases hv with
  | small n => exact .small n
  | ref ha => exact .ref (h.headers hm ▸ ha)

theorem reachable_iff (hm : m.WellFormed) (h : Twin m m') {roots : Array Value}
    (hroots : ∀ v ∈ roots, m.Holds v) {o : Nat} :
    m'.Reachable roots o ↔ m.Reachable roots o :=
  ⟨Reachable.of_agree (h.wellFormed hm)
      (fun _ ho => (h.agreeAt hm (h.headers hm ▸ ho)).symm) fun v hv => h.holds hm (hroots v hv),
    Reachable.of_agree hm (fun _ ho => h.agreeAt hm ho) hroots⟩

end Twin

/-! ## The same objects in memories of any size -/

/-- The memories have the same bytes in the same occupied part. -/
structure SameObjects (m m' : Memory) : Prop where
  start : m'.start = m.start
  free : m'.free = m.free
  bytes : ∀ i, m.start ≤ i → i < m.free → m'.arena.get i = m.arena.get i

namespace SameObjects

variable {m m' : Memory} (h : m.SameObjects m')
  (htiled : Tiles id m.extentAt m.start m.headers m.free)
include h htiled

theorem agreeAt {o : Nat} (ho : o ∈ m.headers) : AgreeAt m m' o := by
  obtain ⟨hlow, hhigh⟩ : m.start ≤ o ∧ o + m.extentAt o ≤ m.free := htiled.bounds ho
  exact fun k hk => h.bytes _ (by omega) (by omega)

theorem tiled : Tiles id m'.extentAt m'.start m.headers m'.free := by
  rw [h.start, h.free]
  exact htiled.congr fun o ho => (h.agreeAt htiled ho).extentAt

theorem headers : m'.headers = m.headers := headers_eq_of_tiles (h.tiled htiled)

theorem holds {v : Value} (hv : m.Holds v) : m'.Holds v := by
  cases hv with
  | small n => exact .small n
  | ref ha => exact .ref (h.headers htiled ▸ ha)

end SameObjects

/-! ## Statistics -/

section Stats

variable {m : Memory} (stats : Stats)

theorem headersFrom_withStats (c : Nat) :
    headersFrom { m with stats } c = m.headersFrom c := by
  fun_induction headersFrom m c with
  | case1 c h ih => rw [headersFrom, if_pos h, ← ih]; rfl
  | case2 c h => rw [headersFrom, if_neg h]

theorem headers_withStats : headers { m with stats } = m.headers :=
  headersFrom_withStats stats m.start

theorem Holds.withStats {v : Value} (h : m.Holds v) : Holds { m with stats } v := by
  cases h with
  | small n => exact .small n
  | ref h => exact .ref ((headers_withStats stats).symm ▸ h)

/-- Whether a memory is a heap does not depend on what is counted about it. -/
theorem WellFormed.withStats (h : m.WellFormed) : WellFormed { m with stats } := by
  have hheaders := headers_withStats (m := m) stats
  constructor
  case settings => exact h.settings
  case tiled => rw [hheaders]; exact h.tiled
  case free_le => exact h.free_le
  case unmarked => rw [hheaders]; exact h.unmarked
  case hash_lt => rw [hheaders]; exact h.hash_lt
  case cls => rw [hheaders]; exact fun o ho => (h.cls o ho).withStats stats
  case field =>
    rw [hheaders]
    exact fun o ho hk i hi => (h.field o ho hk i hi).withStats stats

end Stats

end Memory

end Smalltalk
