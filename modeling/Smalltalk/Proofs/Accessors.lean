import Smalltalk.Proofs.Relocation
import Smalltalk.Proofs.Store

/-!
# Accessors do not interfere

All objects share one store of bytes, and nothing but the size words keeps them apart. `Memory.Cell`
names all that can be asked of an object: its class, hash, size and kind, and the elements of its
body by kind and number. An assignment to a cell changes that cell and no other cell of any object.

Every cell lies in a range of bytes of its object. Two cells that can both be read have ranges
apart, unless both come from the size word, to which nothing is assigned; and the ranges of
different objects are apart because the objects tile the memory. So it is enough to know which bytes
are written and which are read.

What is assigned need not be a reference into the memory: it is read back whatever it is.

## Main definitions

* `Memory.Cell`, `Memory.content`: what can be asked of an object, and what the accessors answer
* `Memory.Assignment`, `Memory.assign`: changes to a cell

## Main results

* `Memory.content_eq`, `Memory.assign_eq`: when accessors fail, and what they do else
* `Memory.content_write_of_ne`: what is read at other places
* `accessors_do_not_interfere`
-/

namespace Smalltalk

namespace Memory

/-- What can be asked of an object. -/
inductive Cell where
  | cls
  | hash
  | size
  | kind
  | field (i : Nat)
  | word (i : Nat)
  | byte (i : Nat)
deriving DecidableEq

/-- What a cell may hold. -/
inductive Content where
  | value (v : Value)
  | word (w : UInt32)
  | byte (b : UInt8)
  | count (n : Nat)
  | kind (k : BodyKind)
deriving DecidableEq

/-- What the accessors answer for a cell. -/
def content (m : Memory) (object : Value) : Cell → Except Fault Content
  | .cls => (m.classOf object).map .value
  | .hash => (m.hash object).map .word
  | .size => (m.size object).map .count
  | .kind => (m.kind object).map .kind
  | .field i => (m.getPtr object i).map .value
  | .word i => (m.getWord object i).map .word
  | .byte i => (m.getByte object i).map .byte

/-- A change to a cell. Sizes and kinds are never changed. -/
inductive Assignment where
  | cls (v : Value)
  | hash (w : UInt32)
  | field (i : Nat) (v : Value)
  | word (i : Nat) (w : UInt32)
  | byte (i : Nat) (b : UInt8)

/-- Changes a cell of an object. -/
def assign (object : Value) : Assignment → Store Unit
  | .cls v => setClass object v
  | .hash w => setHash object w
  | .field i v => setPtr object i v
  | .word i w => setWord object i w
  | .byte i b => setByte object i b

/-- The cell that is changed. -/
def Assignment.cell : Assignment → Cell
  | .cls _ => .cls
  | .hash _ => .hash
  | .field i _ => .field i
  | .word i _ => .word i
  | .byte i _ => .byte i

/-- What the cell holds afterwards. Hashes have 30 bits. -/
def Assignment.content : Assignment → Content
  | .cls v => .value v
  | .hash w => .word (w &&& hashMask)
  | .field _ v => .value v
  | .word _ w => .word w
  | .byte _ b => .byte b

/-! ## Cells without their checks -/

/-- The kind and the number of an element of a body. -/
def Cell.element? : Cell → Option (BodyKind × Nat)
  | .field i => some (.pointers, i)
  | .word i => some (.words, i)
  | .byte i => some (.bytes, i)
  | _ => none

/-- The bytes of its object in which a cell lies, as the first one and the one behind the last. -/
def Cell.range : Cell → Nat × Nat
  | .cls => (0, 4)
  | .hash => (4, 8)
  | .size => (8, 12)
  | .kind => (8, 12)
  | .field i => (headerBytes + i * 4, headerBytes + i * 4 + 4)
  | .word i => (headerBytes + i * 4, headerBytes + i * 4 + 4)
  | .byte i => (headerBytes + i, headerBytes + i + 1)

/-- What the bytes of a cell stand for. -/
def contentAt (m : Memory) (o : Nat) : Cell → Content
  | .cls => .value (m.classAt o)
  | .hash => .word (m.hashAt o)
  | .size => .count (m.countAt o)
  | .kind => .kind (m.kindAt o)
  | .field i => .value (m.fieldAt o i)
  | .word i => .word (m.wordElementAt o i)
  | .byte i => .byte (m.byteElementAt o i)

/-- Replaces the bytes of a cell. -/
def Assignment.write (o : Nat) (m : Memory) : Assignment → Memory
  | .cls v => m.writeWord o v.encode
  | .hash w => m.writeWord (o + 4) (w &&& hashMask)
  | .field i v => m.writeWord (o + headerBytes + i * 4) v.encode
  | .word i w => m.writeWord (o + headerBytes + i * 4) w
  | .byte i b => { m with arena := m.arena.set (o + headerBytes + i) b }

/-- Why a cell of an object with `n` elements of kind `k` is not accessible, if it is not. -/
def Cell.fault? (operation : String) (k : BodyKind) (n : Nat) (s : Cell) : Option Fault :=
  s.element?.bind fun e =>
    if k ≠ e.1 then some (.wrongKind operation e.1)
    else if n ≤ e.2 then some (.indexOutOfRange operation e.2 n)
    else none

/-- An object with `n` elements of kind `k` does not have the cell. -/
def Cell.Missing (k : BodyKind) (n : Nat) (s : Cell) : Prop :=
  ∃ kind i, s.element? = some (kind, i) ∧ (k ≠ kind ∨ n ≤ i)

theorem Cell.missing_iff (operation : String) {k : BodyKind} {n : Nat} {s : Cell} :
    s.Missing k n ↔ ∃ f, s.fault? operation k n = some f := by
  unfold Cell.Missing Cell.fault?
  cases hs : s.element? with
  | none => simp
  | some e =>
    obtain ⟨kind, i⟩ := e
    by_cases hk : k = kind
    · by_cases hi : n ≤ i <;> simp [hk, hi]
    · simp [hk]

/-- The operation that a reader names when it fails. -/
def Cell.reader : Cell → String
  | .cls => "getClass"
  | .hash => "getHash"
  | .size => "getSize"
  | .kind => "kind"
  | .field _ => "getPtr"
  | .word _ => "getWord"
  | .byte _ => "getByte"

/-- The operation that a writer names when it fails. -/
def Assignment.writer : Assignment → String
  | .cls _ => "setClass"
  | .hash _ => "setHash"
  | .field _ _ => "setPtr"
  | .word _ _ => "setWord"
  | .byte _ _ => "setByte"

section Checks

variable {m : Memory} {a : Address}

/-- A reference that passes the check of headers. -/
def Passes (m : Memory) (a : Address) : Prop := m.start ≤ a.offset ∧ a.offset + headerBytes ≤ m.free

theorem WellFormed.passes (hm : m.WellFormed) (ha : a.offset ∈ m.headers) : m.Passes a := by
  have hin := hm.within ha
  have hhead := m.headerBytes_le_extentAt a.offset
  exact ⟨hin.1, by omega⟩

theorem Passes.header (h : m.Passes a) (operation : String) :
    m.header operation (.ref a) = .ok a.offset := if_pos h

theorem Passes.element (h : m.Passes a) {s : Cell} {kind : BodyKind} {i : Nat}
    (hs : s.element? = some (kind, i)) (operation : String) :
    m.element operation (.ref a) i kind =
      (s.fault? operation (m.kindAt a.offset) (m.countAt a.offset)).elim
        (.ok (a.offset + headerBytes + i * kind.elementBytes)) .error := by
  simp only [Memory.element, h.header, Cell.fault?, hs, Option.bind_some]
  by_cases hk : m.kindAt a.offset = kind
  · by_cases hi : m.countAt a.offset ≤ i <;> simp [hk, hi]
  · simp [hk]

/-- **Reading a cell** fails if the object does not have it, and answers what its bytes stand for
else. -/
theorem content_eq (h : m.Passes a) (s : Cell) :
    m.content (.ref a) s = (s.fault? s.reader (m.kindAt a.offset) (m.countAt a.offset)).elim
      (.ok (m.contentAt a.offset s)) .error := by
  cases s with
  | cls =>
    simp [content, Memory.classOf, h.header, Cell.fault?, Cell.element?, contentAt, Except.map,
      classAt]
  | hash =>
    simp [content, Memory.hash, h.header, Cell.fault?, Cell.element?, contentAt, Except.map, hashAt]
  | size => simp [content, Memory.size, h.header, Cell.fault?, Cell.element?, contentAt, Except.map]
  | kind => simp [content, Memory.kind, h.header, Cell.fault?, Cell.element?, contentAt, Except.map]
  | field i =>
    simp only [content, Memory.getPtr, h.element (s := .field i) rfl, Cell.reader]
    cases Cell.fault? "getPtr" (m.kindAt a.offset) (m.countAt a.offset) (.field i) <;> rfl
  | word i =>
    simp only [content, Memory.getWord, h.element (s := .word i) rfl, Cell.reader]
    cases Cell.fault? "getWord" (m.kindAt a.offset) (m.countAt a.offset) (.word i) <;> rfl
  | byte i =>
    simp only [content, Memory.getByte, h.element (s := .byte i) rfl, Cell.reader]
    cases Cell.fault? "getByte" (m.kindAt a.offset) (m.countAt a.offset) (.byte i) with
    | none => simp [Except.map, contentAt, byteElementAt, BodyKind.elementBytes]
    | some f => rfl

/-- **Assigning to a cell** fails if the object does not have it, and replaces its bytes else. -/
theorem assign_eq (h : m.Passes a) (e : Assignment) :
    assign (.ref a) e m = (e.cell.fault? e.writer (m.kindAt a.offset) (m.countAt a.offset)).elim
      (.ok () (e.write a.offset m)) fun f => .error f m := by
  cases e with
  | cls v =>
    simp [assign, setClass, writeAt, h.header, Assignment.cell, Cell.fault?, Cell.element?,
      Assignment.write]
  | hash w =>
    simp [assign, setHash, writeAt, h.header, Assignment.cell, Cell.fault?, Cell.element?,
      Assignment.write]
  | field i v =>
    simp only [assign, setPtr, writeAt, h.element (s := .field i) rfl, Assignment.cell,
      Assignment.writer]
    cases Cell.fault? "setPtr" (m.kindAt a.offset) (m.countAt a.offset) (.field i) <;> rfl
  | word i w =>
    simp only [assign, setWord, writeAt, h.element (s := .word i) rfl, Assignment.cell,
      Assignment.writer]
    cases Cell.fault? "setWord" (m.kindAt a.offset) (m.countAt a.offset) (.word i) <;> rfl
  | byte i b =>
    simp only [assign, setByte, writeAt, h.element (s := .byte i) rfl, Assignment.cell,
      Assignment.writer]
    cases Cell.fault? "setByte" (m.kindAt a.offset) (m.countAt a.offset) (.byte i) with
    | none => simp [Assignment.write, BodyKind.elementBytes]
    | some f => rfl

/-- An assignment that fails changes nothing, whatever it was tried on. -/
theorem eq_of_assign_error {v : Value} {e : Assignment} {f : Fault} {m' : Memory}
    (h : assign v e m = .error f m') : m' = m := by
  cases e <;>
  · simp only [assign, setClass, setHash, setPtr, setWord, setByte, writeAt] at h
    split at h <;> cases h
    rfl

/-- Nothing can be assigned to an integer. -/
theorem assign_small (n : SmallInt) (e : Assignment) :
    assign (.small n) e m = .error (.notAnObject e.writer (.small n)) m := by
  cases e <;> rfl

end Checks

/-! ## Bytes that are written and bytes that are read -/

section Bytes

variable {m m' : Memory} {o p : Nat}

theorem get_write_of_outside (e : Assignment) {j : Nat}
    (hj : j < o + e.cell.range.1 ∨ o + e.cell.range.2 ≤ j) :
    (e.write o m).arena.get j = m.arena.get j := by
  cases e with
  | cls v =>
    exact Arena.get_setWord_of_outside _ _ (by simpa [Assignment.cell, Cell.range] using hj)
  | hash w =>
    exact Arena.get_setWord_of_outside _ _ (by simp only [Assignment.cell, Cell.range] at hj; omega)
  | field i v =>
    exact Arena.get_setWord_of_outside _ _ (by simp only [Assignment.cell, Cell.range] at hj; omega)
  | word i w =>
    exact Arena.get_setWord_of_outside _ _ (by simp only [Assignment.cell, Cell.range] at hj; omega)
  | byte i b =>
    simp only [Assignment.cell, Cell.range] at hj
    simp only [Assignment.write, Arena.get_set]
    rw [if_neg (by omega)]

/-- A cell is read from the bytes in its range. -/
theorem contentAt_congr {s : Cell}
    (h : ∀ k, s.range.1 ≤ k → k < s.range.2 → m'.arena.get (o + k) = m.arena.get (o + k)) :
    m'.contentAt o s = m.contentAt o s := by
  have hword : ∀ k, s.range.1 = k → s.range.2 = k + 4 → m'.wordAt (o + k) = m.wordAt (o + k) := by
    intro k hlow hhigh
    refine Arena.getWord_congr fun l hl => ?_
    rw [Nat.add_assoc]
    exact h _ (by omega) (by omega)
  cases s with
  | cls => exact congrArg (fun w => Content.value (Value.decode w)) (hword 0 rfl rfl)
  | hash => exact congrArg Content.word (hword 4 rfl rfl)
  | size => exact congrArg (fun w => Content.count (SizeWord.count w)) (hword 8 rfl rfl)
  | kind => exact congrArg (fun w => Content.kind (SizeWord.kind w)) (hword 8 rfl rfl)
  | field i =>
    have hfield := hword (headerBytes + i * 4) rfl rfl
    rw [← Nat.add_assoc] at hfield
    exact congrArg (fun w => Content.value (Value.decode w)) hfield
  | word i =>
    have helement := hword (headerBytes + i * 4) rfl rfl
    rw [← Nat.add_assoc] at helement
    exact congrArg Content.word helement
  | byte i =>
    have hbyte := h (headerBytes + i) (Nat.le_refl _) (Nat.lt_succ_self _)
    rw [← Nat.add_assoc] at hbyte
    exact congrArg Content.byte hbyte

/-- What was written is read back. -/
theorem contentAt_write_same (m : Memory) (o : Nat) (e : Assignment) :
    (e.write o m).contentAt o e.cell = e.content := by
  cases e with
  | cls v =>
    simp [Assignment.write, Assignment.cell, Assignment.content, contentAt, classAt, wordAt,
      writeWord]
  | hash w =>
    simp [Assignment.write, Assignment.cell, Assignment.content, contentAt, hashAt_writeWord]
  | field i v =>
    simp [Assignment.write, Assignment.cell, Assignment.content, contentAt, fieldAt_writeWord]
  | word i w =>
    simp [Assignment.write, Assignment.cell, Assignment.content, contentAt, wordElementAt_writeWord]
  | byte i b =>
    simp [Assignment.write, Assignment.cell, Assignment.content, contentAt, byteElementAt_set]

/-- The cells of an object lie in it. -/
theorem range_le_extentAt {s : Cell} {operation : String}
    (h : s.fault? operation (m.kindAt o) (m.countAt o) = none) : s.range.2 ≤ m.extentAt o := by
  have hhead := m.headerBytes_le_extentAt o
  have hbody : ∀ kind i, s.element? = some (kind, i) →
      headerBytes + i * kind.elementBytes + kind.elementBytes ≤ m.extentAt o := by
    intro kind i hs
    have hhas : ¬ s.Missing (m.kindAt o) (m.countAt o) := by
      rw [Cell.missing_iff operation, h]
      simp
    have hk : m.kindAt o = kind := by_contra fun hne => hhas ⟨kind, i, hs, .inl hne⟩
    have hi : i < m.countAt o := by_contra fun hle => hhas ⟨kind, i, hs, .inr (by omega)⟩
    exact hk ▸ element_within o i hi
  simp only [headerBytes] at hhead
  cases s with
  | field i => exact hbody .pointers i rfl
  | word i => exact hbody .words i rfl
  | byte i => simpa [Cell.range, BodyKind.elementBytes] using hbody .bytes i rfl
  | cls => exact Nat.le_trans (by decide) hhead
  | hash => exact Nat.le_trans (by decide) hhead
  | size => exact hhead
  | kind => exact hhead

/-- Two cells that an object has do not share a byte, if one of them can be changed. -/
theorem range_apart {k : BodyKind} {n : Nat} {s : Cell} {e : Assignment}
    {operation operation' : String} (hs : s.fault? operation k n = none)
    (he : e.cell.fault? operation' k n = none) (hne : s ≠ e.cell) :
    s.range.2 ≤ e.cell.range.1 ∨ e.cell.range.2 ≤ s.range.1 := by
  have hkind : ∀ t : Cell, ∀ op, t.fault? op k n = none → ∀ kind i, t.element? = some (kind, i) →
      k = kind := by
    intro t op ht kind i hi
    by_contra hk
    simp [Cell.fault?, hi, hk] at ht
  have hs' := hkind s _ hs
  have he' := hkind e.cell _ he
  cases e <;> cases s <;>
    simp only [Assignment.cell, Cell.range, Cell.element?, headerBytes, ne_eq, Cell.field.injEq,
      Cell.word.injEq, Cell.byte.injEq, not_true_eq_false] at * <;>
    first
    | omega
    | exact absurd ((hs' _ _ rfl).symm.trans (he' _ _ rfl)) (by decide)

end Bytes

/-! ## Other places -/

section Writing

variable {m : Memory} {o p : Nat} {e : Assignment} {operation : String}

/-- The bytes of another object are not written. -/
theorem agreeAt_write (hm : m.WellFormed) (ho : o ∈ m.headers) (hp : p ∈ m.headers) (hne : p ≠ o)
    (he : e.cell.fault? operation (m.kindAt o) (m.countAt o) = none) :
    AgreeAt m (e.write o m) p := by
  intro k hk
  have hle := range_le_extentAt he
  have hsep := hm.separate hp ho
  exact get_write_of_outside e (by omega)

/-- The size word is never written. -/
theorem sizeWordAt_write (hm : m.WellFormed) (ho : o ∈ m.headers) (hp : p ∈ m.headers)
    (he : e.cell.fault? operation (m.kindAt o) (m.countAt o) = none) :
    (e.write o m).sizeWordAt p = m.sizeWordAt p := by
  by_cases hne : p = o
  · subst hne
    refine Arena.getWord_congr fun l hl => get_write_of_outside e ?_
    cases e <;> simp only [Assignment.cell, Cell.range, headerBytes] <;> omega
  · exact (agreeAt_write hm ho hp hne he).sizeWordAt

theorem headers_write (hm : m.WellFormed) (ho : o ∈ m.headers)
    (he : e.cell.fault? operation (m.kindAt o) (m.countAt o) = none) :
    (e.write o m).headers = m.headers := by
  have hbounds : (e.write o m).start = m.start ∧ (e.write o m).free = m.free := by
    cases e <;> exact ⟨rfl, rfl⟩
  refine headers_eq_of_tiles ?_
  rw [hbounds.1, hbounds.2]
  refine hm.tiled.congr fun p hp => ?_
  simp only [extentAt, kindAt, countAt, sizeWordAt_write hm ho hp he]

theorem passes_write {a : Address} (e : Assignment) (h : m.Passes a) : (e.write o m).Passes a := by
  cases e <;> exact h

theorem contentAt_write_of_ne (hm : m.WellFormed) (ho : o ∈ m.headers) (hp : p ∈ m.headers)
    (he : e.cell.fault? operation (m.kindAt o) (m.countAt o) = none) {s : Cell}
    {operation' : String} (hs : s.fault? operation' (m.kindAt p) (m.countAt p) = none)
    (hne : p ≠ o ∨ s ≠ e.cell) : (e.write o m).contentAt p s = m.contentAt p s := by
  refine contentAt_congr fun k hlow hhigh => ?_
  by_cases hpo : p = o
  · subst hpo
    have hapart := range_apart hs he (hne.resolve_left (not_not.2 rfl))
    exact get_write_of_outside e (by omega)
  · exact agreeAt_write hm ho hp hpo he k (Nat.lt_of_lt_of_le hhigh (range_le_extentAt hs))

/-- **Other cells are what they were**, those of the same object as well as those of others. -/
theorem content_write_of_ne (hm : m.WellFormed) {a b : Address} (ha : a.offset ∈ m.headers)
    (hb : b.offset ∈ m.headers)
    (he : e.cell.fault? operation (m.kindAt a.offset) (m.countAt a.offset) = none)
    {s : Cell} (hne : b ≠ a ∨ s ≠ e.cell) :
    (e.write a.offset m).content (.ref b) s = m.content (.ref b) s := by
  have hsize := sizeWordAt_write hm ha hb he
  rw [content_eq (passes_write e (hm.passes hb)), content_eq (hm.passes hb)]
  simp only [kindAt, countAt, hsize]
  cases hs : s.fault? s.reader (SizeWord.kind (m.sizeWordAt b.offset))
    (SizeWord.count (m.sizeWordAt b.offset)) with
  | some f => rfl
  | none =>
    have hoff : b.offset ≠ a.offset ∨ s ≠ e.cell := hne.imp_left fun h hc => h (Address.ext hc)
    exact congrArg Except.ok (contentAt_write_of_ne hm ha hb he hs hoff)

/-- **An assignment leaves a heap**, if a reference that is assigned belongs to it. -/
theorem wellFormed_write (hm : m.WellFormed) (ho : o ∈ m.headers)
    (he : e.cell.fault? operation (m.kindAt o) (m.countAt o) = none)
    (hv : ∀ v, e.content = .value v → m.Holds v) : (e.write o m).WellFormed := by
  have hheaders := headers_write hm ho he
  have hsame : (e.write o m).settings = m.settings ∧ (e.write o m).start = m.start ∧
      (e.write o m).free = m.free ∧ (e.write o m).limit = m.limit := by
    cases e <;> exact ⟨rfl, rfl, rfl, rfl⟩
  have hholds : ∀ v, m.Holds v → (e.write o m).Holds v := by
    intro v hv
    cases hv with
    | small n => exact .small n
    | ref ha => exact .ref (hheaders.symm ▸ ha)
  -- a cell is the one that was assigned to, or what it was
  have hcell : ∀ p ∈ m.headers, ∀ s : Cell, s.fault? "" (m.kindAt p) (m.countAt p) = none →
      (e.write o m).contentAt p s = e.content ∧ s = e.cell ∨
        (e.write o m).contentAt p s = m.contentAt p s := by
    intro p hp s hs
    by_cases hne : p = o ∧ s = e.cell
    · obtain ⟨rfl, rfl⟩ := hne
      exact .inl ⟨contentAt_write_same m p e, rfl⟩
    · exact .inr (contentAt_write_of_ne hm ho hp he hs (Decidable.not_and_iff_or_not.1 hne))
  constructor
  case settings => rw [hsame.1]; exact hm.settings
  case tiled =>
    rw [hheaders, hsame.2.1, hsame.2.2.1]
    refine hm.tiled.congr fun p hp => ?_
    simp only [extentAt, kindAt, countAt, sizeWordAt_write hm ho hp he]
  case free_le => rw [hsame.2.2.1, hsame.2.2.2]; exact hm.free_le
  case unmarked =>
    rw [hheaders]
    intro p hp
    rw [sizeWordAt_write hm ho hp he]
    exact hm.unmarked p hp
  case hash_lt =>
    rw [hheaders]
    intro p hp
    rcases hcell p hp .hash rfl with ⟨hnew, hwhere⟩ | hold
    · cases e with
      | hash w =>
        have hhash : (Assignment.write o m (.hash w)).hashAt p = w &&& hashMask :=
          Content.word.inj hnew
        rw [hhash, UInt32.toNat_and]
        exact Nat.lt_of_le_of_lt Nat.and_le_right (by decide)
      | _ => cases hwhere
    · exact (Content.word.inj hold).symm ▸ hm.hash_lt p hp
  case cls =>
    rw [hheaders]
    intro p hp
    rcases hcell p hp .cls rfl with ⟨hnew, -⟩ | hold
    · exact hholds _ (hv _ hnew.symm)
    · exact hholds _ ((Content.value.inj hold).symm ▸ hm.cls p hp)
  case field =>
    rw [hheaders]
    intro p hp hk i hi
    simp only [kindAt, countAt, sizeWordAt_write hm ho hp he] at hk hi
    have hhas : (Cell.field i).fault? "" (m.kindAt p) (m.countAt p) = none := by
      simp [Cell.fault?, Cell.element?, kindAt, countAt, hk, Nat.not_le.2 hi]
    rcases hcell p hp (.field i) hhas with ⟨hnew, -⟩ | hold
    · exact hholds _ (hv _ hnew.symm)
    · exact hholds _ ((Content.value.inj hold).symm ▸ hm.field p hp hk i hi)

end Writing

end Memory

open Memory

/-- **Accessors do not interfere.** After an assignment to a cell of an object, the cell reads as
what was assigned, every other cell of this object and of all others reads as before, errors
included, and the objects are the same. An assignment that fails changes nothing. An access to an
object fails exactly if it asks for an element of another kind than its elements have, or for one
that is not below their number; an assignment to an integer always fails. -/
theorem accessors_do_not_interfere (m : Memory) (hm : m.WellFormed) :
    (∀ a e m', m.Holds (.ref a) → assign (.ref a) e m = .ok () m' →
      m'.content (.ref a) e.cell = .ok e.content ∧
      (∀ b s, m.Holds (.ref b) → b ≠ a ∨ s ≠ e.cell →
        m'.content (.ref b) s = m.content (.ref b) s) ∧
      m'.objects = m.objects) ∧
    (∀ v e f m', assign v e m = .error f m' → m' = m) ∧
    (∀ n e, ∃ f, assign (.small n) e m = .error f m) ∧
    ∀ a, m.Holds (.ref a) → ∃ k n, m.kind (.ref a) = .ok k ∧ m.size (.ref a) = .ok n ∧
      (∀ s, (∃ f, m.content (.ref a) s = .error f) ↔ s.Missing k n) ∧
      ∀ e, (∃ f m', assign (.ref a) e m = .error f m') ↔ e.cell.Missing k n := by
  refine ⟨fun a e m' ha h => ?_, fun v e f m' h => eq_of_assign_error h,
    fun n e => ⟨_, assign_small n e⟩, fun a ha => ?_⟩
  · rw [assign_eq (hm.passes ha.mem)] at h
    cases he : e.cell.fault? e.writer (m.kindAt a.offset) (m.countAt a.offset) with
    | some f =>
      rw [he] at h
      cases h
    | none =>
      rw [he] at h
      obtain ⟨-, rfl⟩ := EStateM.Result.ok.inj h
      refine ⟨?_, fun b s hb hne => content_write_of_ne hm ha.mem hb.mem he hne, ?_⟩
      · have hsize := sizeWordAt_write hm ha.mem ha.mem he
        have hfits : e.cell.fault? e.cell.reader (m.kindAt a.offset) (m.countAt a.offset) =
            none := by
          rw [Option.eq_none_iff_forall_ne_some]
          intro f hf
          obtain ⟨f', hf'⟩ := (Cell.missing_iff e.writer).1
            ((Cell.missing_iff e.cell.reader).2 ⟨f, hf⟩)
          rw [he] at hf'
          cases hf'
        rw [content_eq (passes_write e (hm.passes ha.mem)), contentAt_write_same]
        simp only [kindAt, countAt, hsize] at hfits ⊢
        rw [hfits]
        rfl
      · simp only [objects, headers_write hm ha.mem he]
  · have hpasses := hm.passes ha.mem
    refine ⟨m.kindAt a.offset, m.countAt a.offset, ?_, ?_, fun s => ?_, fun e => ?_⟩
    · simp only [Memory.kind, hpasses.header]
    · simp only [Memory.size, hpasses.header]
    · rw [content_eq hpasses, Cell.missing_iff s.reader]
      cases s.fault? s.reader (m.kindAt a.offset) (m.countAt a.offset) <;> simp
    · rw [assign_eq hpasses, Cell.missing_iff e.writer]
      cases e.cell.fault? e.writer (m.kindAt a.offset) (m.countAt a.offset) <;> simp

/-- The hash of the first of two objects is changed, and only 30 bits of it are kept. Its class and
the hash of the second object stay. -/
theorem accessors_do_not_interfere_pairOfObjects :
    ∃ (m' : Memory) (a : Address), a.offset = 16 ∧
      assign (.ref Address.zero) (.hash 0xFFFFFFFF) pairOfObjects = .ok () m' ∧
      m'.content (.ref Address.zero) .hash = .ok (.word 0x3FFFFFFF) ∧
      m'.content (.ref Address.zero) .cls = .ok (.value (.ref Address.zero)) ∧
      m'.content (.ref a) .hash = .ok (.word 7) ∧ m'.objects = pairOfObjects.objects := by
  have hfirst : pairOfObjects.Holds (.ref Address.zero) := laidOut_pairOfObjects.holds (by decide)
  have hsecond : pairOfObjects.Holds (.ref ⟨16, by decide⟩) :=
    laidOut_pairOfObjects.holds (by decide)
  have hrun := assign_eq (laidOut_pairOfObjects.wellFormed.passes hfirst.mem) (.hash 0xFFFFFFFF)
  obtain ⟨hsame, hothers, hobjects⟩ :=
    (accessors_do_not_interfere pairOfObjects laidOut_pairOfObjects.wellFormed).1 _ _ _ hfirst hrun
  refine ⟨_, ⟨16, by decide⟩, rfl, hrun, hsame, ?_, ?_, hobjects⟩
  · rw [hothers _ .cls hfirst (.inr (by decide))]
    decide +kernel
  · rw [hothers _ .hash hsecond (.inl (by decide))]
    decide +kernel

end Smalltalk
