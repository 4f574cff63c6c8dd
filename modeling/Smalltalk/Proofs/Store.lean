import Smalltalk.Memory.Access
import Smalltalk.Memory.Allocation
import Smalltalk.Proofs.Heap

/-!
# Writing to a heap

There are two ways in which a heap changes other than by a collection. A *store* replaces some bytes
of one object, and never those of its class word or size word; so it moves nothing, and every other
object is what it was. A *placement* adds one object behind the last.

Both are described once, here, by what they leave alone. What a particular writer puts into the
bytes it owns is then a matter of a line.

## Main definitions

* `Memory.Stored`: one memory is another after a store
* `Memory.header_of_mem`, `Memory.element_of_mem`: the checks of the accessors, on objects

## Main results

* `Memory.Stored.wellFormed`: a store of references leaves a heap
* `Memory.wellFormed_place`: so does a placement
-/

namespace Smalltalk

namespace Memory

/-! ## The checks of the accessors -/

section Checks

variable {m : Memory} {a : Address}

/-- The header of an object passes the check. -/
theorem header_of_mem (hm : m.WellFormed) (ha : a.offset ∈ m.headers) (operation : String) :
    m.header operation (.ref a) = .ok a.offset := by
  have hin := hm.within ha
  have hhead := m.headerBytes_le_extentAt a.offset
  exact if_pos ⟨hin.1, by omega⟩

/-- Once the reference is one to an object, kind and index are what is checked. -/
theorem element_of_mem (hm : m.WellFormed) (ha : a.offset ∈ m.headers) (operation : String)
    (i : Nat) (kind : BodyKind) :
    m.element operation (.ref a) i kind =
      if m.kindAt a.offset ≠ kind then .error (.wrongKind operation kind)
      else if m.countAt a.offset ≤ i then .error (.indexOutOfRange operation i (m.countAt a.offset))
      else .ok (a.offset + headerBytes + i * kind.elementBytes) := by
  simp only [element, header_of_mem hm ha]

theorem byteBody_of_mem (hm : m.WellFormed) (ha : a.offset ∈ m.headers) :
    m.byteBody (.ref a) =
      if m.kindAt a.offset ≠ .bytes then .error (.wrongKind "bytes" .bytes)
      else .ok (a.offset + headerBytes, m.countAt a.offset) := by
  simp only [byteBody, header_of_mem hm ha]

theorem hash_ref_of_mem (hm : m.WellFormed) (ha : a.offset ∈ m.headers) :
    m.hash (.ref a) = .ok (m.hashAt a.offset) := by
  unfold Memory.hash
  dsimp only
  rw [header_of_mem hm ha]
  rfl

theorem size_ref_of_mem (hm : m.WellFormed) (ha : a.offset ∈ m.headers) :
    m.size (.ref a) = .ok (m.countAt a.offset) := by
  unfold Memory.size
  dsimp only
  rw [header_of_mem hm ha]

theorem kind_ref_of_mem (hm : m.WellFormed) (ha : a.offset ∈ m.headers) :
    m.kind (.ref a) = .ok (m.kindAt a.offset) := by
  unfold Memory.kind
  rw [header_of_mem hm ha]

theorem classOf_ref_of_mem (hm : m.WellFormed) (ha : a.offset ∈ m.headers) :
    m.classOf (.ref a) = .ok (m.classAt a.offset) := by
  unfold Memory.classOf
  rw [header_of_mem hm ha]
  rfl

/-- An element lies in the body of its object. -/
theorem element_within (o i : Nat) (hi : i < m.countAt o) :
    headerBytes + i * (m.kindAt o).elementBytes + (m.kindAt o).elementBytes ≤ m.extentAt o := by
  cases hk : m.kindAt o with
  | pointers => rw [extentAt_of_pointers hk, BodyKind.elementBytes]; omega
  | words => rw [extentAt_of_words hk, BodyKind.elementBytes]; omega
  | bytes =>
    have hext := le_extentAt_of_bytes hk
    rw [BodyKind.elementBytes]
    omega

end Checks

/-! ## Stores -/

/-- The memory `m'` is `m` after bytes `lo` to `hi` of the object at `o` have been replaced. Class
word and size word are not among them. -/
structure Stored (m : Memory) (o lo hi : Nat) (m' : Memory) : Prop where
  mem : o ∈ m.headers
  plain : 4 ≤ lo ∧ hi ≤ 8 ∨ headerBytes ≤ lo
  le : hi ≤ m.extentAt o
  rest : m' = { m with arena := m'.arena }
  bytes : ∀ i, i < o + lo ∨ o + hi ≤ i → m'.arena.get i = m.arena.get i

namespace Stored

variable {m m' : Memory} {o lo hi p : Nat}

theorem start (h : Stored m o lo hi m') : m'.start = m.start := by
  rw [h.rest]
  rfl

theorem free (h : Stored m o lo hi m') : m'.free = m.free := by
  rw [h.rest]

/-- Other objects are what they were. -/
theorem agreeAt (hm : m.WellFormed) (h : Stored m o lo hi m') (hp : p ∈ m.headers) (hne : p ≠ o) :
    AgreeAt m m' p := by
  intro k hk
  have hle := h.le
  have hsep := hm.separate hp h.mem
  exact h.bytes _ (by omega)

theorem wordAt (h : Stored m o lo hi m') {i : Nat} (hi : i + 4 ≤ o + lo ∨ o + hi ≤ i) :
    m'.wordAt i = m.wordAt i :=
  Arena.getWord_congr fun k hk => h.bytes _ (by omega)

theorem sizeWordAt (hm : m.WellFormed) (h : Stored m o lo hi m') (hp : p ∈ m.headers) :
    m'.sizeWordAt p = m.sizeWordAt p := by
  by_cases hne : p = o
  · subst hne
    have hplain := h.plain
    simp only [headerBytes] at hplain
    exact h.wordAt (by omega)
  · exact (h.agreeAt hm hp hne).sizeWordAt

theorem kindAt (hm : m.WellFormed) (h : Stored m o lo hi m') (hp : p ∈ m.headers) :
    m'.kindAt p = m.kindAt p := by
  simp only [Memory.kindAt, h.sizeWordAt hm hp]

theorem countAt (hm : m.WellFormed) (h : Stored m o lo hi m') (hp : p ∈ m.headers) :
    m'.countAt p = m.countAt p := by
  simp only [Memory.countAt, h.sizeWordAt hm hp]

theorem extentAt (hm : m.WellFormed) (h : Stored m o lo hi m') (hp : p ∈ m.headers) :
    m'.extentAt p = m.extentAt p := by
  simp only [Memory.extentAt, h.kindAt hm hp, h.countAt hm hp]

theorem classAt (hm : m.WellFormed) (h : Stored m o lo hi m') (hp : p ∈ m.headers) :
    m'.classAt p = m.classAt p := by
  by_cases hne : p = o
  · subst hne
    have hplain := h.plain
    simp only [headerBytes] at hplain
    rw [Memory.classAt, Memory.classAt, h.wordAt (by omega)]
  · exact (h.agreeAt hm hp hne).classAt

/-- A store to the body leaves the hash. -/
theorem hashAt (h : Stored m o lo hi m') (hbody : headerBytes ≤ lo) : m'.hashAt o = m.hashAt o := by
  simp only [headerBytes] at hbody
  exact h.wordAt (by omega)

/-- A store to the header leaves the body. -/
theorem body (h : Stored m o lo hi m') (hhead : hi ≤ headerBytes) {k : Nat} (hk : headerBytes ≤ k) :
    m'.arena.get (o + k) = m.arena.get (o + k) :=
  h.bytes _ (by omega)

theorem headers (hm : m.WellFormed) (h : Stored m o lo hi m') : m'.headers = m.headers := by
  refine headers_eq_of_tiles ?_
  rw [h.start, h.free]
  exact hm.tiled.congr fun p hp => h.extentAt hm hp

theorem holds (hm : m.WellFormed) (h : Stored m o lo hi m') {v : Value} (hv : m.Holds v) :
    m'.Holds v := by
  cases hv with
  | small n => exact .small n
  | ref ha => exact .ref (h.headers hm ▸ ha)

/-- **A store leaves a heap**, if what is stored as references belongs to it. -/
theorem wellFormed (hm : m.WellFormed) (h : Stored m o lo hi m')
    (hhash : (m'.hashAt o).toNat < 1073741824)
    (hfield : m.kindAt o = .pointers → ∀ i < m.countAt o, m.Holds (m'.fieldAt o i)) :
    m'.WellFormed := by
  have hheaders := h.headers hm
  constructor
  case settings => rw [h.rest]; exact hm.settings
  case tiled =>
    rw [hheaders, h.start, h.free]
    exact hm.tiled.congr fun p hp => h.extentAt hm hp
  case free_le => rw [h.rest]; exact hm.free_le
  case unmarked =>
    rw [hheaders]
    intro p hp
    rw [h.sizeWordAt hm hp]
    exact hm.unmarked p hp
  case hash_lt =>
    rw [hheaders]
    intro p hp
    by_cases hne : p = o
    · exact hne ▸ hhash
    · rw [(h.agreeAt hm hp hne).hashAt]
      exact hm.hash_lt p hp
  case cls =>
    rw [hheaders]
    intro p hp
    rw [h.classAt hm hp]
    exact h.holds hm (hm.cls p hp)
  case field =>
    rw [hheaders]
    intro p hp hk i hi
    rw [h.kindAt hm hp] at hk
    rw [h.countAt hm hp] at hi
    by_cases hne : p = o
    · subst hne
      exact h.holds hm (hfield hk i hi)
    · rw [(h.agreeAt hm hp hne).fieldAt hk hi]
      exact h.holds hm (hm.field p hp hk i hi)

end Stored

/-! ## The writers -/

section Writers

variable {m : Memory} {o i : Nat}

theorem stored_element (ho : o ∈ m.headers) (hk : (m.kindAt o).elementBytes = 4)
    (hi : i < m.countAt o) (w : UInt32) :
    Stored m o (headerBytes + i * 4) (headerBytes + i * 4 + 4)
      (m.writeWord (o + headerBytes + i * 4) w) where
  mem := ho
  plain := .inr (Nat.le_add_right _ _)
  le := by
    have hin := element_within o i hi
    rwa [hk] at hin
  rest := rfl
  bytes := fun j hj => Arena.get_setWord_of_outside _ _ (by omega)

theorem stored_byte (ho : o ∈ m.headers) (hk : m.kindAt o = .bytes) (hi : i < m.countAt o)
    (b : UInt8) :
    Stored m o (headerBytes + i) (headerBytes + i + 1)
      { m with arena := m.arena.set (o + headerBytes + i) b } where
  mem := ho
  plain := .inr (Nat.le_add_right _ _)
  le := by
    have hext := le_extentAt_of_bytes hk
    omega
  rest := rfl
  bytes := fun j hj => by
    rw [Arena.get_set, if_neg (by omega)]

theorem stored_bytes (ho : o ∈ m.headers) (hk : m.kindAt o = .bytes) {bs : List UInt8}
    (hbs : bs.length ≤ m.countAt o) :
    Stored m o headerBytes (headerBytes + bs.length)
      { m with arena := m.arena.setBytes (o + headerBytes) bs } where
  mem := ho
  plain := .inr (Nat.le_refl _)
  le := by
    have hext := le_extentAt_of_bytes hk
    omega
  rest := rfl
  bytes := fun j hj => by
    rw [Arena.get_setBytes, if_neg (by omega)]

theorem stored_hash (ho : o ∈ m.headers) (w : UInt32) :
    Stored m o 4 8 (m.writeWord (o + 4) w) where
  mem := ho
  plain := .inl ⟨by decide, by decide⟩
  le := Nat.le_trans (by decide) (m.headerBytes_le_extentAt o)
  rest := rfl
  bytes := fun j hj => Arena.get_setWord_of_outside _ _ (by omega)

theorem wordElementAt_writeWord (m : Memory) (o i j : Nat) (w : UInt32) :
    (m.writeWord (o + headerBytes + i * 4) w).wordElementAt o j =
      if j = i then w else m.wordElementAt o j := by
  simp only [wordElementAt, wordAt, writeWord]
  split
  · next h => rw [h, Arena.getWord_setWord_same]
  · rw [Arena.getWord_setWord_of_disjoint _ _ (by omega)]

theorem fieldAt_writeWord (m : Memory) (o i j : Nat) (v : Value) :
    (m.writeWord (o + headerBytes + i * 4) v.encode).fieldAt o j =
      if j = i then v else m.fieldAt o j := by
  have hword := wordElementAt_writeWord m o i j v.encode
  rw [fieldAt, ← wordElementAt, hword]
  split
  · exact Value.decode_encode v
  · rfl

theorem byteElementAt_set (m : Memory) (o i j : Nat) (b : UInt8) :
    byteElementAt { m with arena := m.arena.set (o + headerBytes + i) b } o j =
      if j = i then b else m.byteElementAt o j := by
  simp only [byteElementAt, Arena.get_set, Nat.add_left_cancel_iff]

theorem byteElementAt_setBytes (m : Memory) (o j : Nat) (bs : List UInt8) :
    byteElementAt { m with arena := m.arena.setBytes (o + headerBytes) bs } o j =
      if j < bs.length then bs.getD j 0 else m.byteElementAt o j := by
  simp only [byteElementAt, Arena.get_setBytes]
  by_cases hj : j < bs.length
  · rw [if_pos hj, if_pos (by omega), Nat.add_sub_cancel_left]
  · rw [if_neg hj, if_neg (by omega)]

theorem hashAt_writeWord (m : Memory) (o : Nat) (w : UInt32) :
    (m.writeWord (o + 4) w).hashAt o = w := by
  simp only [hashAt, wordAt, writeWord, Arena.getWord_setWord_same]

end Writers

/-! ## Placements -/

section Place

variable (m : Memory) (cls : Value) (size : Nat) (kind : BodyKind) (fill : Value)

theorem get_place_of_outside {i : Nat} (hi : i < m.free ∨ m.free + extent size kind ≤ i) :
    (m.place cls size kind fill).arena.get i = m.arena.get i := by
  have hle := headerBytes_le_extent size kind
  simp only [headerBytes] at hle
  simp only [place, headerBytes]
  rw [Arena.get_fillWords_of_outside _ _ _ _ (by omega),
    Arena.get_setWord_of_outside _ _ (by omega), Arena.get_setWord_of_outside _ _ (by omega),
    Arena.get_setWord_of_outside _ _ (by omega)]

theorem wordAt_place_header (k : Nat) (hk : k + 4 ≤ headerBytes) :
    (m.place cls size kind fill).wordAt (m.free + k) =
      (((m.arena.setWord m.free cls.encode).setWord (m.free + 4)
        (m.hashCounter &&& hashMask)).setWord (m.free + 8) (SizeWord.make size kind)).getWord
          (m.free + k) := by
  simp only [place, wordAt]
  refine Arena.getWord_congr fun l hl => ?_
  rw [Arena.get_fillWords_of_outside _ _ _ _ (by omega)]

theorem classAt_place : (m.place cls size kind fill).classAt m.free = cls := by
  have hword := m.wordAt_place_header cls size kind fill 0 (by decide)
  rw [Nat.add_zero] at hword
  rw [classAt, hword, Arena.getWord_setWord_of_disjoint _ _ (by omega),
    Arena.getWord_setWord_of_disjoint _ _ (by omega), Arena.getWord_setWord_same,
    Value.decode_encode]

theorem hashAt_place : (m.place cls size kind fill).hashAt m.free = m.hashCounter &&& hashMask := by
  rw [hashAt, m.wordAt_place_header cls size kind fill 4 (by decide),
    Arena.getWord_setWord_of_disjoint _ _ (by omega), Arena.getWord_setWord_same]

theorem sizeWordAt_place :
    (m.place cls size kind fill).sizeWordAt m.free = SizeWord.make size kind := by
  rw [sizeWordAt, m.wordAt_place_header cls size kind fill 8 (by decide),
    Arena.getWord_setWord_same]

/-- The words of the new body. -/
theorem wordAt_place_body {i : Nat} (hi : headerBytes + 4 * i + 4 ≤ extent size kind) :
    (m.place cls size kind fill).wordAt (m.free + headerBytes + 4 * i) =
      if kind = .pointers then fill.encode else 0 := by
  simp only [place, wordAt]
  exact Arena.getWord_fillWords _ _ _ (by omega)

end Place

section NewObject

variable {m : Memory} {cls fill : Value} {size : Nat} {kind : BodyKind} (hsize : size ≤ maxCount)
include hsize

theorem kindAt_place : (m.place cls size kind fill).kindAt m.free = kind := by
  rw [kindAt, sizeWordAt_place, SizeWord.kind_make kind hsize]

theorem countAt_place : (m.place cls size kind fill).countAt m.free = size := by
  rw [countAt, sizeWordAt_place, SizeWord.count_make kind hsize]

theorem extentAt_place : (m.place cls size kind fill).extentAt m.free = extent size kind := by
  rw [extentAt, kindAt_place hsize, countAt_place hsize]

omit hsize

theorem fieldAt_place {i : Nat} (hi : i < size) :
    (m.place cls size .pointers fill).fieldAt m.free i = fill := by
  have hword := m.wordAt_place_body cls size .pointers fill (i := i) (by
    simp only [extent, BodyKind.elementBytes]
    omega)
  rw [fieldAt, Nat.mul_comm, hword, if_pos rfl, Value.decode_encode]

theorem wordElementAt_place {i : Nat} (hi : i < size) :
    (m.place cls size .words fill).wordElementAt m.free i = 0 := by
  have hword := m.wordAt_place_body cls size .words fill (i := i) (by
    simp only [extent, BodyKind.elementBytes]
    omega)
  rw [wordElementAt, Nat.mul_comm, hword, if_neg (by decide)]

theorem byteElementAt_place {i : Nat} (hi : i < size) :
    (m.place cls size .bytes fill).byteElementAt m.free i = 0 := by
  have hword := m.wordAt_place_body cls size .bytes fill (i := i / 4) (by
    simp only [extent, BodyKind.elementBytes, headerBytes]
    omega)
  rw [if_neg (by decide), show (0 : UInt32) = Arena.empty.getWord 0 by decide +kernel] at hword
  have hbyte := Arena.get_eq_of_getWord_eq hword (i % 4) (by omega)
  rw [show m.free + headerBytes + 4 * (i / 4) + i % 4 = m.free + headerBytes + i by omega] at hbyte
  rw [byteElementAt, hbyte, Arena.get_empty]

end NewObject

section PlaceHeap

variable {m : Memory} {cls fill : Value} {size : Nat} {kind : BodyKind} (hm : m.WellFormed)
include hm

theorem agreeAt_place {o : Nat} (ho : o ∈ m.headers) :
    AgreeAt m (m.place cls size kind fill) o := by
  intro k hk
  have hin := hm.within ho
  exact get_place_of_outside m cls size kind fill (.inl (by omega))

theorem tiles_place (hsize : size ≤ maxCount) :
    Tiles id (m.place cls size kind fill).extentAt m.start (m.headers ++ [m.free])
      (m.free + extent size kind) := by
  have hnew : (m.place cls size kind fill).extentAt m.free = extent size kind :=
    extentAt_place hsize
  rw [← hnew]
  exact (hm.tiled.congr fun o ho => (agreeAt_place hm ho).extentAt).snoc rfl

theorem headers_place (hsize : size ≤ maxCount) :
    (m.place cls size kind fill).headers = m.headers ++ [m.free] :=
  headers_eq_of_tiles (tiles_place hm hsize)

theorem holds_place (hsize : size ≤ maxCount) {v : Value} (hv : m.Holds v) :
    (m.place cls size kind fill).Holds v := by
  cases hv with
  | small n => exact .small n
  | ref ha =>
    refine .ref ?_
    rw [headers_place hm hsize]
    exact List.mem_append_left _ ha

/-- The place of a new object was not that of an object before. -/
theorem free_not_mem : m.free ∉ m.headers := by
  intro h
  have hin := hm.within h
  have hpos := m.extentAt_pos m.free
  omega

/-- **A placement leaves a heap.** -/
theorem wellFormed_place (hsize : size ≤ maxCount) (hfits : m.free + extent size kind ≤ m.limit)
    (hcls : m.Holds cls) (hfill : m.Holds fill) : (m.place cls size kind fill).WellFormed := by
  have hcase : ∀ o ∈ m.headers ++ [m.free], o ∈ m.headers ∨ o = m.free := by
    intro o ho
    simpa using ho
  constructor
  case settings => exact hm.settings
  case tiled =>
    rw [headers_place hm hsize]
    exact tiles_place hm hsize
  case free_le => exact hfits
  case unmarked =>
    rw [headers_place hm hsize]
    intro o ho
    rcases hcase o ho with ho | rfl
    · rw [(agreeAt_place hm ho).sizeWordAt]
      exact hm.unmarked o ho
    · rw [sizeWordAt_place, SizeWord.forwarded_make kind hsize]
  case hash_lt =>
    rw [headers_place hm hsize]
    intro o ho
    rcases hcase o ho with ho | rfl
    · rw [(agreeAt_place hm ho).hashAt]
      exact hm.hash_lt o ho
    · rw [hashAt_place, UInt32.toNat_and]
      exact Nat.lt_of_le_of_lt Nat.and_le_right (by decide)
  case cls =>
    rw [headers_place hm hsize]
    intro o ho
    rcases hcase o ho with ho | rfl
    · rw [(agreeAt_place hm ho).classAt]
      exact holds_place hm hsize (hm.cls o ho)
    · rw [classAt_place]
      exact holds_place hm hsize hcls
  case field =>
    rw [headers_place hm hsize]
    intro o ho hk i hi
    rcases hcase o ho with ho | rfl
    · rw [(agreeAt_place hm ho).kindAt] at hk
      rw [(agreeAt_place hm ho).countAt] at hi
      rw [(agreeAt_place hm ho).fieldAt hk hi]
      exact holds_place hm hsize (hm.field o ho hk i hi)
    · rw [kindAt_place hsize] at hk
      rw [countAt_place hsize] at hi
      subst hk
      rw [fieldAt_place hi]
      exact holds_place hm hsize hfill

end PlaceHeap

/-- Placing an object leaves no byte of it as it was. -/
theorem Twin.place {m m' : Memory} (h : Twin m m') (cls : Value) (size : Nat) (kind : BodyKind)
    (fill : Value) : Twin (m.place cls size kind fill) (m'.place cls size kind fill) := by
  obtain ⟨A, rfl, hA⟩ := h
  refine ⟨(Memory.place { m with arena := A } cls size kind fill).arena, rfl,
    fun i hlow hhigh => ?_⟩
  have hlow' : m.start ≤ i := hlow
  have hhigh' : i < m.free + extent size kind := hhigh
  by_cases hold : i < m.free
  · rw [get_place_of_outside m cls size kind fill (.inl hold), ← hA i hlow' hold]
    exact get_place_of_outside { m with arena := A } cls size kind fill (.inl hold)
  · -- a word of the header, or one of the body
    have hdvd := four_dvd_extent size kind
    have hwords : ∀ k, 4 * k + 4 ≤ extent size kind →
        (Memory.place { m with arena := A } cls size kind fill).wordAt (m.free + 4 * k) =
          (m.place cls size kind fill).wordAt (m.free + 4 * k) := by
      intro k hk
      by_cases hhead : k < 3
      · rw [wordAt_place_header m cls size kind fill (4 * k) (by simp only [headerBytes]; omega)]
        refine (wordAt_place_header { m with arena := A } cls size kind fill (4 * k)
          (by simp only [headerBytes]; omega)).trans ?_
        obtain rfl | rfl | rfl : k = 0 ∨ k = 1 ∨ k = 2 := by omega
        · simp only [Nat.mul_zero, Nat.add_zero]
          rw [Arena.getWord_setWord_of_disjoint _ _ (by omega),
            Arena.getWord_setWord_of_disjoint _ _ (by omega), Arena.getWord_setWord_same,
            Arena.getWord_setWord_of_disjoint _ _ (by omega),
            Arena.getWord_setWord_of_disjoint _ _ (by omega), Arena.getWord_setWord_same]
        · rw [Arena.getWord_setWord_of_disjoint _ _ (by omega), Arena.getWord_setWord_same,
            Arena.getWord_setWord_of_disjoint _ _ (by omega), Arena.getWord_setWord_same]
        · rw [Arena.getWord_setWord_same, Arena.getWord_setWord_same]
      · obtain ⟨l, rfl⟩ : ∃ l, k = 3 + l := ⟨k - 3, by omega⟩
        have hfit : headerBytes + 4 * l + 4 ≤ extent size kind := by
          simp only [headerBytes]
          omega
        have hword := wordAt_place_body m cls size kind fill hfit
        have hword' := wordAt_place_body { m with arena := A } cls size kind fill hfit
        rw [show m.free + 4 * (3 + l) = m.free + headerBytes + 4 * l by
          simp only [headerBytes]; omega]
        exact hword'.trans hword.symm
    have hbyte := Arena.get_eq_of_getWord_eq (hwords ((i - m.free) / 4) (by omega))
      ((i - m.free) % 4) (by omega)
    rwa [show m.free + 4 * ((i - m.free) / 4) + (i - m.free) % 4 = i by omega] at hbyte

end Memory

end Smalltalk
