import Smalltalk.Memory.Collection
import Smalltalk.Proofs.Heap

/-!
# The invariant of a collection

A collection is told as a list of pairs `(o, n)`: the object that was at `o` is now at `n`. The list
grows at its end and never changes otherwise, because objects are moved to the end of those already
moved. Everything that holds halfway through is said about this list and the memory before the
collection:

* the new places tile the occupied part of the new semispace, in the order of the list;
* an object that has not been moved is as it was;
* an object that has been moved is marked, and its class word holds the new place;
* a copy is the old object, except that the references in it that have been *scanned* are already
  the new ones.

Scanning goes through the copies from low to high, so one offset, the *frontier*, tells which slots
have been scanned: those below it. That makes the invariant the same in the middle of an object and
between objects, and the two loops of the collector need no invariants of their own.

No hypothesis on the graph is made. An object that is met again is found marked, whatever path led
to it, so cycles and sharing are no cases of their own.

## Main definitions

* `Collector.Slot`: the places of an object that hold references
* `Collector.Invariant`: what holds throughout a collection

## Main results

* `Collector.relocate_invariant`: moving one object keeps the invariant
* `Collector.scan_invariant`: the frontier reaches the end of the copies
* `Collector.relocateRoots_invariant`: all roots are renamed
-/

namespace Smalltalk

open Memory

namespace Collector

/-! ## Slots -/

/-- Where, from its header on, an object holds references: its class word, and the fields of a
pointer object. -/
inductive Slot (m : Memory) (o : Nat) : Nat → Prop
  | cls : Slot m o 0
  | field {i : Nat} (hk : m.kindAt o = .pointers) (hi : i < m.countAt o) :
      Slot m o (headerBytes + i * 4)

namespace Slot

variable {m : Memory} {o k : Nat}

theorem four_dvd (h : Slot m o k) : 4 ∣ k := by
  cases h with
  | cls => exact Nat.dvd_zero 4
  | field => exact Nat.dvd_add (by decide) (Nat.dvd_mul_left 4 _)

theorem le_extentAt (h : Slot m o k) : k + 4 ≤ m.extentAt o := by
  cases h with
  | cls => exact Nat.le_trans (by decide) (m.headerBytes_le_extentAt o)
  | field hk hi =>
    rw [extentAt_of_pointers hk]
    omega

/-- The hash word and the size word are not slots. -/
theorem eq_zero_or_ge (h : Slot m o k) : k = 0 ∨ headerBytes ≤ k := by
  cases h with
  | cls => exact .inl rfl
  | field => exact .inr (Nat.le_add_right _ _)

theorem holds (hm : m.WellFormed) (ho : o ∈ m.headers) (h : Slot m o k) :
    m.Holds (Value.decode (m.wordAt (o + k))) := by
  cases h with
  | cls => exact hm.cls o ho
  | @field i hk hi =>
    have hf := hm.field o ho hk i hi
    rw [fieldAt, Nat.add_assoc] at hf
    exact hf

theorem reachable {roots : Array Value} {a : Address} (ho : m.Reachable roots o) (h : Slot m o k)
    (hv : Value.decode (m.wordAt (o + k)) = .ref a) : m.Reachable roots a.offset := by
  cases h with
  | cls => exact .cls ho hv
  | @field i hk hi =>
    rw [← Nat.add_assoc] at hv
    exact .field ho hk hi hv

end Slot

/-! ## What a move does to the store -/

section Move

variable {s : Collector} {old length : Nat} {new : Address} {j : Nat}

theorem get_move_target (h4 : 4 ∣ length) (hfar : new.offset + length ≤ old ∨ old + 12 ≤ new.offset)
    (hj : new.offset ≤ j ∧ j < new.offset + length) :
    (s.move old new length).memory.arena.get j =
      s.memory.arena.get (old + (j - new.offset)) := by
  simp only [move]
  rw [Arena.get_setWord_of_outside _ _ (by omega), Arena.get_setWord_of_outside _ _ (by omega),
    Arena.get_copyWords, if_pos (by omega)]

theorem get_move_other (h4 : 4 ∣ length) (hj : j < new.offset ∨ new.offset + length ≤ j)
    (hcls : j < old ∨ old + 4 ≤ j) (hsize : j < old + 8 ∨ old + 12 ≤ j) :
    (s.move old new length).memory.arena.get j = s.memory.arena.get j := by
  simp only [move]
  rw [Arena.get_setWord_of_outside _ _ hcls, Arena.get_setWord_of_outside _ _ (by omega),
    Arena.get_copyWords, if_neg (by omega)]

/-- The class word of the object that has been moved is its new place. -/
theorem wordAt_move (s : Collector) (old : Nat) (new : Address) (length : Nat) :
    (s.move old new length).memory.wordAt old = Value.encode (.ref new) := by
  simp only [move, wordAt, Arena.getWord_setWord_same]

/-- The object that has been moved is marked. -/
theorem sizeWordAt_move (h4 : 4 ∣ length)
    (hfar : new.offset + length ≤ old ∨ old + 12 ≤ new.offset) :
    (s.move old new length).memory.sizeWordAt old =
      SizeWord.forward (s.memory.sizeWordAt old) := by
  simp only [move, sizeWordAt, wordAt]
  have hkeep : (s.memory.arena.copyWords old new.offset (length / 4)).getWord (old + 8) =
      s.memory.arena.getWord (old + 8) := by
    refine Arena.getWord_congr fun k hk => ?_
    rw [Arena.get_copyWords, if_neg (by omega)]
  rw [Arena.getWord_setWord_of_disjoint _ _ (by omega), Arena.getWord_setWord_same, hkeep]

end Move

/-! ## The invariant -/

/-- The renaming of the objects moved so far. -/
def movedTo (moves : List (Nat × Nat)) : Renaming := fun o n => (o, n) ∈ moves

/-- What holds while a collection of `m` runs, once the objects of `moves` have been moved and the
slots below the frontier `c` have been scanned. -/
structure Invariant (m : Memory) (roots : Array Value) (moves : List (Nat × Nat)) (c : Nat)
    (s : Collector) : Prop where
  settings : s.memory.settings = m.settings
  upper : s.memory.upper = !m.upper
  stats : s.memory.stats = m.stats
  hashCounter : s.memory.hashCounter = m.hashCounter
  copied : s.copied = moves.length
  /-- The new places tile the occupied part of the new semispace. -/
  packed : Tiles Prod.snd (fun p => m.extentAt p.1) m.otherStart moves s.memory.free
  /-- Objects are moved once. -/
  nodup : (moves.map Prod.fst).Nodup
  /-- Only objects that the roots reach are moved. -/
  reached : ∀ p ∈ moves, m.Reachable roots p.1
  /-- Objects that have not been moved are as they were. -/
  stays : ∀ o ∈ m.headers, o ∉ moves.map Prod.fst →
    ∀ k < m.extentAt o, s.memory.arena.get (o + k) = m.arena.get (o + k)
  /-- Objects that have been moved are marked. -/
  marked : ∀ p ∈ moves, SizeWord.forwarded (s.memory.sizeWordAt p.1) = true
  /-- Objects that have been moved tell where they are now. -/
  forward : ∀ p ∈ moves, ∃ a : Address, a.offset = p.2 ∧
    Value.decode (s.memory.wordAt p.1) = .ref a
  /-- Copies are as the objects were, apart from the slots that have been scanned. -/
  copies : ∀ p ∈ moves, ∀ k < m.extentAt p.1,
    (∀ l, Slot m p.1 l → p.2 + l < c → k < l ∨ l + 4 ≤ k) →
      s.memory.arena.get (p.2 + k) = m.arena.get (p.1 + k)
  /-- Slots that have been scanned hold the new references. -/
  scanned : ∀ p ∈ moves, ∀ l, Slot m p.1 l → p.2 + l < c →
    Value.Renames (movedTo moves) (Value.decode (m.wordAt (p.1 + l)))
      (Value.decode (s.memory.wordAt (p.2 + l)))
  /-- Nothing else has been written. -/
  untouched : ∀ i, i < m.start ∨ m.free ≤ i → i < m.otherStart ∨ s.memory.free ≤ i →
    s.memory.arena.get i = m.arena.get i

namespace Invariant

variable {m : Memory} {roots : Array Value} {moves : List (Nat × Nat)} {c : Nat} {s : Collector}

theorem capacity (h : Invariant m roots moves c s) : s.memory.capacity = m.capacity := by
  simp only [Memory.capacity, h.settings]

theorem start (h : Invariant m roots moves c s) : s.memory.start = m.otherStart := by
  simp only [Memory.start, otherStart, h.capacity, h.upper]
  cases m.upper <;> rfl

theorem otherStart (h : Invariant m roots moves c s) : s.memory.otherStart = m.start := by
  simp only [Memory.start, Memory.otherStart, h.capacity, h.upper]
  cases m.upper <;> rfl

/-- The frontier may pass over a stretch without slots. -/
theorem advance (h : Invariant m roots moves c s) {d : Nat}
    (hnone : ∀ p ∈ moves, ∀ l, Slot m p.1 l → p.2 + l < d → p.2 + l < c) (hle : c ≤ d) :
    Invariant m roots moves d s :=
  { h with
    copies := fun p hp k hk hout => h.copies p hp k hk fun l hl hlt => hout l hl (by omega)
    scanned := fun p hp l hl hlt => h.scanned p hp l hl (hnone p hp l hl hlt) }

theorem sizeWordAt_of_fresh (h : Invariant m roots moves c s) {o : Nat} (ho : o ∈ m.headers)
    (hfresh : o ∉ moves.map Prod.fst) : s.memory.sizeWordAt o = m.sizeWordAt o := by
  have hle := m.headerBytes_le_extentAt o
  simp only [headerBytes] at hle
  refine Arena.getWord_congr fun k hk => ?_
  have hbyte := h.stays o ho hfresh (8 + k) (by omega)
  rwa [← Nat.add_assoc] at hbyte

/-! ### Room for the copies -/

variable (hm : m.WellFormed) (hroots : ∀ v ∈ roots, m.Holds v) (h : Invariant m roots moves c s)

include hm hroots h

theorem old_mem {p : Nat × Nat} (hp : p ∈ moves) : p.1 ∈ m.headers :=
  hm.mem_of_reachable hroots (h.reached p hp)

/-- There is room for any object that has not been moved: the copies and it are different objects of
a semispace of the same size. -/
theorem room {o : Nat} (ho : o ∈ m.headers) (hfresh : o ∉ moves.map Prod.fst) :
    s.memory.free + m.extentAt o ≤ m.otherStart + m.capacity := by
  have hnodup : (o :: moves.map Prod.fst).Nodup := List.nodup_cons.2 ⟨hfresh, h.nodup⟩
  have hsub : o :: moves.map Prod.fst ⊆ m.headers := by
    intro q hq
    rcases List.mem_cons.1 hq with rfl | hq
    · exact ho
    · obtain ⟨p, hp, rfl⟩ := List.mem_map.1 hq
      exact h.old_mem hm hroots hp
  have hsum := hm.sum_extentAt_le hnodup hsub
  have hend := h.packed.end_eq
  have hfree : m.free ≤ m.start + m.capacity := hm.free_le
  simp only [List.map_cons, List.sum_cons, List.map_map, Function.comp_def] at hsum
  omega

theorem free_le : s.memory.free ≤ m.otherStart + m.capacity := by
  have hsub : moves.map Prod.fst ⊆ m.headers := by
    intro q hq
    obtain ⟨p, hp, rfl⟩ := List.mem_map.1 hq
    exact h.old_mem hm hroots hp
  have hsum := hm.sum_extentAt_le h.nodup hsub
  have hend := h.packed.end_eq
  have hfree : m.free ≤ m.start + m.capacity := hm.free_le
  simp only [List.map_map, Function.comp_def] at hsum
  omega

end Invariant

/-! ## Moving one object -/

/-- The collection has gone on from `s`, and its frontier is now at `c`. -/
structure Continues (m : Memory) (roots : Array Value) (moves : List (Nat × Nat)) (s : Collector)
    (moves' : List (Nat × Nat)) (c : Nat) (s' : Collector) : Prop where
  invariant : Invariant m roots moves' c s'
  grows : moves <+: moves'
  free_le : s.memory.free ≤ s'.memory.free
  roots : s'.roots = s.roots

/-! ## Two stores at once

What a collection does is settled by the objects. If the bytes that belong to no object were
different, it would do the same and leave them as they are. `Overlay` says which stores are meant,
and `Runs` that an effect of the collector does the same in all of them; the lemmas below state
their results with `Runs`, so that this is shown along with everything else. -/

/-- The same collection in another store. -/
def withArena (s : Collector) (A : Arena) : Collector :=
  { s with memory := { s.memory with arena := A } }

/-- The store `A` is that of `s` where objects of `m` and their copies are, and that of `m'`
elsewhere. -/
structure Overlay (m m' : Memory) (s : Collector) (A : Arena) : Prop where
  inside : ∀ i, m.start ≤ i ∧ i < m.free ∨ m.otherStart ≤ i ∧ i < s.memory.free →
    A.get i = s.memory.arena.get i
  outside : ∀ i, i < m.start ∨ m.free ≤ i → i < m.otherStart ∨ s.memory.free ≤ i →
    A.get i = m'.arena.get i

/-- The effect succeeds, and does the same in every store with the same objects. -/
structure Runs {α : Type} (m : Memory) (x : Collecting α) (s : Collector) (a : α)
    (s' : Collector) : Prop where
  run : x s = .ok a s'
  alike : ∀ m' A, Overlay m m' s A →
    ∃ A', x (s.withArena A) = .ok a (s'.withArena A') ∧ Overlay m m' s' A'

section Twins

variable {m m' : Memory} {s s' s'' : Collector} {A : Arena} {α β : Type} {x : Collecting α}
  {f : α → Collecting β} {a : α} {b : β}

theorem Runs.pure (m : Memory) (a : α) (s : Collector) : Runs m (Pure.pure a) s a s :=
  ⟨rfl, fun _ A hA => ⟨A, rfl, hA⟩⟩

theorem Runs.bind (h : Runs m x s a s') (h' : Runs m (f a) s' b s'') :
    Runs m (x >>= f) s b s'' := by
  refine ⟨by simp only [Bind.bind, EStateM.bind, h.run, h'.run], fun m' A hA => ?_⟩
  obtain ⟨A', hrun, hA'⟩ := h.alike m' A hA
  obtain ⟨A'', hrun', hA''⟩ := h'.alike m' A' hA'
  exact ⟨A'', by simp only [Bind.bind, EStateM.bind, hrun, hrun'], hA''⟩

theorem Runs.look (f : Collector → α)
    (hf : ∀ m' A, Overlay m m' s A → f (s.withArena A) = f s) : Runs m (look f) s (f s) s := by
  refine ⟨rfl, fun m' A hA => ⟨A, ?_, hA⟩⟩
  simp only [Collector.look, hf m' A hA]

theorem Overlay.wordAt (h : Overlay m m' s A) {i : Nat}
    (hi : m.start ≤ i ∧ i + 4 ≤ m.free ∨ m.otherStart ≤ i ∧ i + 4 ≤ s.memory.free) :
    (s.withArena A).memory.wordAt i = s.memory.wordAt i := by
  simp only [Memory.wordAt, withArena]
  exact Arena.getWord_congr fun k hk => h.inside _ (by omega)

/-- Writing a word of a copy. -/
theorem Runs.write (i : Nat) (w : UInt32) (hi : m.otherStart ≤ i ∧ i + 4 ≤ s.memory.free) :
    Runs m (modify fun s => { s with memory := s.memory.writeWord i w }) s ()
      { s with memory := s.memory.writeWord i w } := by
  refine ⟨rfl, fun m' A hA => ⟨A.setWord i w, rfl, fun j hj => ?_, fun j hj hj' => ?_⟩⟩
  · exact Arena.get_setWord_congr w (hA.inside j hj)
  · have hfree : j < m.otherStart ∨ s.memory.free ≤ j := hj'
    rw [Arena.get_setWord_of_outside _ _ (by omega)]
    exact hA.outside j hj hj'

/-- Moving an object reads nothing but the object. -/
theorem Overlay.move (hm : m.WellFormed) (h : Overlay m m' s A) {o : Nat} (ho : o ∈ m.headers)
    {new : Address} (hnew : new.offset = s.memory.free) (hlow : m.otherStart ≤ s.memory.free) :
    Overlay m m' (s.move o new (m.extentAt o))
      ((s.withArena A).move o new (m.extentAt o)).memory.arena := by
  have hin := hm.within ho
  have hhead : 12 ≤ m.extentAt o := m.headerBytes_le_extentAt o
  have hfree : m.free ≤ m.start + m.capacity := hm.free_le
  have hapart := WellFormed.apart m
  have h4 := m.four_dvd_extentAt o
  have hcopied : ∀ i, m.start ≤ i ∧ i < m.free ∨
      m.otherStart ≤ i ∧ i < s.memory.free + m.extentAt o →
      (A.copyWords o new.offset (m.extentAt o / 4)).get i =
        (s.memory.arena.copyWords o new.offset (m.extentAt o / 4)).get i := by
    intro i hi
    rw [Arena.get_copyWords, Arena.get_copyWords]
    split
    · exact h.inside _ (by omega)
    · exact h.inside _ (by omega)
  have hsize : (A.copyWords o new.offset (m.extentAt o / 4)).getWord (o + 8) =
      (s.memory.arena.copyWords o new.offset (m.extentAt o / 4)).getWord (o + 8) :=
    Arena.getWord_congr fun k hk => hcopied _ (by omega)
  refine ⟨fun i hi => ?_, fun i hi hi' => ?_⟩
  · have hi' : m.start ≤ i ∧ i < m.free ∨ m.otherStart ≤ i ∧ i < new.offset + m.extentAt o := hi
    simp only [Collector.move, withArena, hsize]
    exact Arena.get_setWord_congr _ (Arena.get_setWord_congr _ (hcopied i (by omega)))
  · have hi'' : i < m.otherStart ∨ new.offset + m.extentAt o ≤ i := hi'
    rw [get_move_other h4 (by omega) (by omega) (by omega)]
    exact h.outside i hi (by omega)

end Twins

section Relocate

variable {m : Memory} {roots : Array Value} {moves : List (Nat × Nat)} {c : Nat} {s : Collector}

theorem get_move_of_disjoint {old length : Nat} {new : Address} {j : Nat} (h4 : 4 ∣ length)
    (hnew : j < new.offset ∨ new.offset + length ≤ j) (hold : j < old ∨ old + 12 ≤ j) :
    (s.move old new length).memory.arena.get j = s.memory.arena.get j :=
  get_move_other h4 hnew (by omega) (by omega)

variable (hm : m.WellFormed) (hroots : ∀ v ∈ roots, m.Holds v) (h : Invariant m roots moves c s)

include hm hroots h

section FirstMove

variable {o : Nat} (ho : o ∈ m.headers) (hfresh : o ∉ moves.map Prod.fst) {new : Address}
  (hnew : new.offset = s.memory.free)

include ho hfresh

/-- The new place is not in the old space. -/
theorem room_apart : s.memory.free + m.extentAt o ≤ m.start ∨ m.free ≤ m.otherStart := by
  have hroom := h.room hm hroots ho hfresh
  have hfree : m.free ≤ m.start + m.capacity := hm.free_le
  have hapart := WellFormed.apart m
  omega

include hnew

/-- Of the old space a move changes the header of the object alone. -/
theorem get_move_old {j : Nat} (hj : m.start ≤ j ∧ j < m.free) (hout : j < o ∨ o + 12 ≤ j) :
    (s.move o new (m.extentAt o)).memory.arena.get j = s.memory.arena.get j := by
  have hroom := room_apart hm hroots h ho hfresh
  have hlow := h.packed.le_end
  exact get_move_of_disjoint (m.four_dvd_extentAt o) (by omega) hout

/-- An object moved before is not this one, so its header stays. -/
theorem wordAt_move_moved {p : Nat × Nat} (hp : p ∈ moves) {j : Nat} (hj : p.1 ≤ j)
    (hj' : j + 4 ≤ p.1 + 12) :
    (s.move o new (m.extentAt o)).memory.wordAt j = s.memory.wordAt j := by
  have hold := h.old_mem hm hroots hp
  have hin := hm.within hold
  have hhead : 12 ≤ m.extentAt p.1 := m.headerBytes_le_extentAt p.1
  have hhead' : 12 ≤ m.extentAt o := m.headerBytes_le_extentAt o
  rcases hm.separate hold ho with rfl | hsep
  · exact absurd (List.mem_map_of_mem hp) hfresh
  · exact Arena.getWord_congr fun k hk =>
      get_move_old hm hroots h ho hfresh hnew (by omega) (by omega)

/-- Copies made before stay. -/
theorem get_move_copy {j : Nat} (hj : m.otherStart ≤ j ∧ j < s.memory.free) :
    (s.move o new (m.extentAt o)).memory.arena.get j = s.memory.arena.get j := by
  have hroom := room_apart hm hroots h ho hfresh
  have hin := hm.within ho
  have hhead : 12 ≤ m.extentAt o := m.headerBytes_le_extentAt o
  exact get_move_of_disjoint (m.four_dvd_extentAt o) (by omega) (by omega)

end FirstMove

/-- Moving an object for the first time. -/
theorem move_invariant (hc : c ≤ s.memory.free) {o : Nat}
    (hreach : m.Reachable roots o) (hfresh : o ∉ moves.map Prod.fst) {new : Address}
    (hnew : new.offset = s.memory.free) :
    Invariant m roots (moves ++ [(o, new.offset)]) c (s.move o new (m.extentAt o)) := by
  have ho : o ∈ m.headers := hm.mem_of_reachable hroots hreach
  have h4 := m.four_dvd_extentAt o
  have hroom := room_apart hm hroots h ho hfresh
  have hin := hm.within ho
  have hhead : 12 ≤ m.extentAt o := m.headerBytes_le_extentAt o
  have hfree : m.free ≤ m.start + m.capacity := hm.free_le
  have hlow := h.packed.le_end
  have hfar : new.offset + m.extentAt o ≤ o ∨ o + 12 ≤ new.offset := by omega
  constructor
  case settings => simp only [move, h.settings]
  case upper => simp only [move, h.upper]
  case stats => simp only [move, h.stats]
  case hashCounter => simp only [move, h.hashCounter]
  case copied => simp only [move, h.copied, List.length_append, List.length_singleton]
  case packed =>
    have hsnoc := h.packed.snoc (x := (o, new.offset)) hnew
    simpa only [move, hnew] using hsnoc
  case nodup =>
    rw [List.map_append, List.nodup_append]
    refine ⟨h.nodup, by simp, ?_⟩
    intro a ha b hb hab
    obtain rfl : b = o := by simpa using hb
    exact hfresh (hab ▸ ha)
  case reached => exact List.forall_mem_append.2 ⟨h.reached, List.forall_mem_singleton.2 hreach⟩
  case stays =>
    intro o' ho' hfresh' k hk
    rw [List.map_append, List.mem_append, not_or] at hfresh'
    have hne : o' ≠ o := by simpa using hfresh'.2
    have hin' := hm.within ho'
    have hsep := (hm.separate ho' ho).resolve_left hne
    rw [← h.stays o' ho' hfresh'.1 k hk]
    exact get_move_old hm hroots h ho hfresh hnew (by omega) (by omega)
  case marked =>
    refine List.forall_mem_append.2 ⟨fun p hp => ?_, List.forall_mem_singleton.2 ?_⟩
    · rw [← h.marked p hp]
      exact congrArg SizeWord.forwarded
        (wordAt_move_moved hm hroots h ho hfresh hnew hp (by omega) (by omega))
    · rw [sizeWordAt_move h4 hfar, SizeWord.forwarded_forward]
  case forward =>
    refine List.forall_mem_append.2 ⟨fun p hp => ?_, List.forall_mem_singleton.2 ⟨new, rfl, ?_⟩⟩
    · rw [wordAt_move_moved hm hroots h ho hfresh hnew hp (Nat.le_refl _) (by omega)]
      exact h.forward p hp
    · rw [wordAt_move, Value.decode_encode]
  case copies =>
    refine List.forall_mem_append.2
      ⟨fun p hp k hk hout => ?_, List.forall_mem_singleton.2 fun k (hk : k < m.extentAt o) _ => ?_⟩
    · have hbound := h.packed.bounds hp
      rw [← h.copies p hp k hk hout]
      exact get_move_copy hm hroots h ho hfresh hnew (by omega)
    · rw [get_move_target h4 hfar (by omega), Nat.add_sub_cancel_left]
      exact h.stays o ho hfresh k hk
  case scanned =>
    refine List.forall_mem_append.2
      ⟨fun p hp l hl hlt => ?_, List.forall_mem_singleton.2 fun l hl hlt => absurd hlt (by omega)⟩
    have hbound := h.packed.bounds hp
    have hle := hl.le_extentAt
    have hcopy : (s.move o new (m.extentAt o)).memory.wordAt (p.2 + l) =
        s.memory.wordAt (p.2 + l) :=
      Arena.getWord_congr fun k hk => get_move_copy hm hroots h ho hfresh hnew (by omega)
    rw [hcopy]
    exact (h.scanned p hp l hl hlt).mono fun _ _ hmem => List.mem_append_left _ hmem
  case untouched =>
    intro i hi hi'
    have hi'' : i < m.otherStart ∨ new.offset + m.extentAt o ≤ i := hi'
    rw [← h.untouched i hi (by omega)]
    exact get_move_of_disjoint h4 (by omega) (by omega)

/-- Relocating a reference to an object that has been moved answers its new place. -/
theorem relocate_of_moved {a : Address} {n : Nat} (hmem : (a.offset, n) ∈ moves) :
    ∃ b : Address, b.offset = n ∧ Runs m (relocate (.ref a)) s (.ref b) s := by
  have ha : a.offset ∈ m.headers := h.old_mem hm hroots hmem
  have hin := hm.within ha
  have hhead : 12 ≤ m.extentAt a.offset := m.headerBytes_le_extentAt a.offset
  have hfree : m.free ≤ m.start + m.capacity := hm.free_le
  obtain ⟨b, hb, hdec⟩ := h.forward _ hmem
  refine ⟨b, hb, ?_, fun m' A hA => ⟨A, ?_, hA⟩⟩
  · simp only [relocate, h.otherStart, h.capacity, headerBytes]
    rw [if_neg (by omega), if_pos (h.marked _ hmem), hdec]
  · have hsize : (s.withArena A).memory.sizeWordAt a.offset = s.memory.sizeWordAt a.offset :=
      hA.wordAt (by omega)
    have hcls := hA.wordAt (i := a.offset) (by omega)
    have hother : (s.withArena A).memory.otherStart = m.start := h.otherStart
    have hcap : (s.withArena A).memory.capacity = m.capacity := h.capacity
    simp only [relocate, hother, hcap, headerBytes]
    rw [if_neg (by omega), hsize, if_pos (h.marked _ hmem), hcls, hdec]

/-- Relocating a reference to an object that has not been moved moves it. -/
theorem relocate_of_fresh {a : Address} (ha : a.offset ∈ m.headers)
    (hfresh : a.offset ∉ moves.map Prod.fst) :
    ∃ new : Address, new.offset = s.memory.free ∧
      Runs m (relocate (.ref a)) s (.ref new) (s.move a.offset new (m.extentAt a.offset)) := by
  have hin := hm.within ha
  have hhead : 12 ≤ m.extentAt a.offset := m.headerBytes_le_extentAt a.offset
  have hfree : m.free ≤ m.start + m.capacity := hm.free_le
  have hroom := h.room hm hroots ha hfresh
  have htop := hm.otherStart_add_le
  have hsize := h.sizeWordAt_of_fresh ha hfresh
  have hext : s.memory.extentAt a.offset = m.extentAt a.offset := by
    simp only [extentAt, countAt, kindAt, hsize]
  have hlt : s.memory.free < 2147483648 := by omega
  refine ⟨⟨s.memory.free, hlt⟩, rfl, ?_, fun m' A hA =>
    ⟨_, ?_, hA.move hm ha rfl h.packed.le_end⟩⟩
  · simp only [relocate, h.otherStart, h.capacity, headerBytes, limit, h.start, hext, hsize,
      hm.unmarked _ ha]
    rw [if_neg (by omega), if_neg (by decide), if_neg (by omega), Address.ofNat?, dif_pos hlt]
  · have hsizeA : (s.withArena A).memory.sizeWordAt a.offset = m.sizeWordAt a.offset :=
      (hA.wordAt (by omega)).trans hsize
    have hextA : (s.withArena A).memory.extentAt a.offset = m.extentAt a.offset := by
      simp only [extentAt, countAt, kindAt, hsizeA]
    have hother : (s.withArena A).memory.otherStart = m.start := h.otherStart
    have hstart : (s.withArena A).memory.start = m.otherStart := h.start
    have hcap : (s.withArena A).memory.capacity = m.capacity := h.capacity
    have hend : (s.withArena A).memory.free = s.memory.free := rfl
    simp only [relocate, hother, hcap, headerBytes, limit, hstart, hend, hextA, hsizeA,
      hm.unmarked _ ha]
    rw [if_neg (by omega), if_neg (by decide), if_neg (by omega), Address.ofNat?, dif_pos hlt]
    rfl

theorem continues_of_moved {a : Address} (hmoved : a.offset ∈ moves.map Prod.fst) :
    ∃ v', Runs m (relocate (.ref a)) s v' s ∧ Continues m roots moves s moves c s ∧
      Value.Renames (movedTo moves) (.ref a) v' := by
  obtain ⟨⟨o, n⟩, hmem, rfl⟩ := List.mem_map.1 hmoved
  obtain ⟨b, rfl, hrun⟩ := relocate_of_moved hm hroots h hmem
  exact ⟨.ref b, hrun, ⟨h, List.prefix_rfl, Nat.le_refl _, rfl⟩, .ref hmem⟩

theorem continues_of_fresh (hc : c ≤ s.memory.free) {a : Address}
    (hreach : m.Reachable roots a.offset) (hfresh : a.offset ∉ moves.map Prod.fst) :
    ∃ n v' s', Runs m (relocate (.ref a)) s v' s' ∧
      Continues m roots moves s (moves ++ [(a.offset, n)]) c s' ∧
      Value.Renames (movedTo (moves ++ [(a.offset, n)])) (.ref a) v' := by
  obtain ⟨new, hnew, hrun⟩ :=
    relocate_of_fresh hm hroots h (hm.mem_of_reachable hroots hreach) hfresh
  refine ⟨new.offset, .ref new, _, hrun, ⟨?_, ?_, ?_, ?_⟩, .ref ?_⟩
  · exact move_invariant hm hroots h hc hreach hfresh hnew
  · exact List.prefix_append _ _
  · simp only [move]
    omega
  · simp only [move]
  · exact List.mem_append_right _ List.mem_cons_self

/-- **One reference.** Relocating a reference of the old heap succeeds, and answers the new
reference of the same object. -/
theorem relocate_invariant (hc : c ≤ s.memory.free) {v : Value} (hv : m.Holds v)
    (hreach : ∀ a, v = .ref a → m.Reachable roots a.offset) :
    ∃ moves' v' s', Runs m (relocate v) s v' s' ∧ Continues m roots moves s moves' c s' ∧
      Value.Renames (movedTo moves') v v' := by
  cases hv with
  | small n =>
    exact ⟨moves, .small n, s, .pure m _ s, ⟨h, List.prefix_rfl, Nat.le_refl _, rfl⟩, .small n⟩
  | @ref a ha =>
    by_cases hmoved : a.offset ∈ moves.map Prod.fst
    · obtain ⟨v', hstep⟩ := continues_of_moved hm hroots h hmoved
      exact ⟨moves, v', s, hstep⟩
    · obtain ⟨n, v', s', hstep⟩ := continues_of_fresh hm hroots h hc (hreach a rfl) hmoved
      exact ⟨_, v', s', hstep⟩

end Relocate

/-! ## Scanning -/

section Scan

variable {m : Memory} {roots : Array Value} {moves : List (Nat × Nat)} {c : Nat} {s : Collector}

theorem Continues.trans {moves' moves'' : List (Nat × Nat)} {s' s'' : Collector} {d : Nat}
    (h : Continues m roots moves s moves' c s') (h' : Continues m roots moves' s' moves'' d s'') :
    Continues m roots moves s moves'' d s'' :=
  ⟨h'.invariant, h.grows.trans h'.grows, Nat.le_trans h.free_le h'.free_le,
    h'.roots.trans h.roots⟩

/-- A slot at the frontier still holds the old reference. -/
theorem Invariant.wordAt_frontier (h : Invariant m roots moves c s) {p : Nat × Nat} {k : Nat}
    (hp : p ∈ moves) (hk : Slot m p.1 k) (hc : c ≤ p.2 + k) :
    s.memory.wordAt (p.2 + k) = m.wordAt (p.1 + k) := by
  have hle := hk.le_extentAt
  refine Arena.getWord_congr fun l hl => ?_
  have hbyte := h.copies p hp (k + l) (by omega) fun j _ hlt => by
    have hj := ‹Slot m p.1 j›.four_dvd
    have hk4 := hk.four_dvd
    omega
  rwa [← Nat.add_assoc, ← Nat.add_assoc] at hbyte

/-- Writing the new reference into the slot at the frontier moves the frontier past it. -/
theorem Invariant.write_frontier (hm : m.WellFormed) (h : Invariant m roots moves c s)
    {p : Nat × Nat} {k : Nat} (hp : p ∈ moves) (hk : Slot m p.1 k) (hc : c = p.2 + k) {v : Value}
    (hfar : ∀ q ∈ moves, m.start ≤ q.1 ∧ q.1 + m.extentAt q.1 ≤ m.free)
    (hfree : s.memory.free ≤ m.otherStart + m.capacity)
    (hv : Value.Renames (movedTo moves) (Value.decode (m.wordAt (p.1 + k))) v) :
    Invariant m roots moves (c + 4)
      { s with memory := s.memory.writeWord c v.encode } := by
  have hle := hk.le_extentAt
  have hbound := h.packed.bounds hp
  have hapart := WellFormed.apart m
  have hold : m.free ≤ m.start + m.capacity := hm.free_le
  have haligned : ∀ q ∈ moves, 4 ∣ q.2 := by
    have hcap := hm.capacity_bounds
    refine fun q hq => h.packed.dvd ?_ (fun q => m.four_dvd_extentAt q.1) hq
    unfold Memory.otherStart
    split <;> omega
  -- in the old semispace nothing is written
  have hbyte : ∀ i, i < c ∨ c + 4 ≤ i →
      (s.memory.writeWord c v.encode).arena.get i = s.memory.arena.get i :=
    fun i hi => Arena.get_setWord_of_outside _ _ hi
  have hword : ∀ i, i + 4 ≤ c ∨ c + 4 ≤ i →
      (s.memory.writeWord c v.encode).wordAt i = s.memory.wordAt i :=
    fun i hi => Arena.getWord_setWord_of_disjoint _ _ hi
  have hhead : ∀ q : Nat × Nat, 12 ≤ m.extentAt q.1 := fun q => m.headerBytes_le_extentAt q.1
  constructor
  case settings => exact h.settings
  case upper => exact h.upper
  case stats => exact h.stats
  case hashCounter => exact h.hashCounter
  case copied => exact h.copied
  case packed => exact h.packed
  case nodup => exact h.nodup
  case reached => exact h.reached
  case stays =>
    intro o ho hfresh l hl
    have hin := hm.within ho
    rw [← h.stays o ho hfresh l hl]
    exact hbyte _ (by omega)
  case marked =>
    intro q hq
    have hin := hfar q hq
    have hlen := hhead q
    rw [← h.marked q hq]
    exact congrArg SizeWord.forwarded (hword _ (by omega))
  case forward =>
    intro q hq
    have hin := hfar q hq
    have hlen := hhead q
    obtain ⟨a, ha, hdec⟩ := h.forward q hq
    exact ⟨a, ha, by rw [hword _ (by omega), hdec]⟩
  case copies =>
    intro q hq l hl hout
    rw [← h.copies q hq l hl fun j hj hlt => hout j hj (by omega)]
    apply hbyte
    rcases h.packed.separate hq hp with rfl | hsep
    · have hslot := hout k hk (by omega)
      omega
    · omega
  case scanned =>
    intro q hq l hl hlt
    have hq4 := haligned q hq
    have hp4 := haligned p hp
    have hl4 := hl.four_dvd
    have hk4 := hk.four_dvd
    by_cases hbelow : q.2 + l < c
    · have hkeep : (s.memory.writeWord c v.encode).wordAt (q.2 + l) = s.memory.wordAt (q.2 + l) :=
        hword _ (by omega)
      rw [hkeep]
      exact h.scanned q hq l hl hbelow
    · -- places of slots are multiples of four, so this is the slot at the frontier
      have hat : q.2 + l = p.2 + k := by omega
      have hlq := hl.le_extentAt
      obtain rfl : q = p := h.packed.eq_of_overlap hq hp (i := p.2 + k)
        ⟨by omega, by omega⟩ ⟨by omega, by omega⟩
      obtain rfl : l = k := by omega
      have hsame : (s.memory.writeWord c v.encode).wordAt (q.2 + l) = v.encode := by
        rw [← hc]
        exact Arena.getWord_setWord_same _ _ _
      rw [hsame, Value.decode_encode]
      exact hv
  case untouched =>
    intro i hi hi'
    have hi'' : i < m.otherStart ∨ s.memory.free ≤ i := hi'
    rw [← h.untouched i hi hi']
    exact hbyte _ (by omega)

/-- Writing down what the reference at the frontier is relocated to. -/
theorem relocateAt_continues (hm : m.WellFormed) (hroots : ∀ v ∈ roots, m.Holds v) {p : Nat × Nat}
    {k : Nat} (hp : p ∈ moves) (hk : Slot m p.1 k) (h : Invariant m roots moves (p.2 + k) s)
    {moves' : List (Nat × Nat)} {v : Value} {s' : Collector}
    (hrun : Runs m (relocate (Value.decode (m.wordAt (p.1 + k)))) s v s')
    (hcont : Continues m roots moves s moves' (p.2 + k) s')
    (hren : Value.Renames (movedTo moves') (Value.decode (m.wordAt (p.1 + k))) v) :
    ∃ s'', Runs m (relocateAt (p.2 + k)) s () s'' ∧
      Continues m roots moves s moves' (p.2 + k + 4) s'' := by
  have hle := hk.le_extentAt
  have hbound := h.packed.bounds hp
  have hword := h.wordAt_frontier hp hk (Nat.le_refl _)
  rw [← hword] at hrun
  have hread : ∀ m' A, Overlay m m' s A →
      Value.decode ((s.withArena A).memory.wordAt (p.2 + k)) =
        Value.decode (s.memory.wordAt (p.2 + k)) :=
    fun m' A hA => congrArg Value.decode (hA.wordAt (.inr ⟨by omega, by omega⟩))
  have hfree := hcont.free_le
  refine ⟨_, (Runs.look _ hread).bind (hrun.bind (.write _ _ ⟨by omega, by omega⟩)),
    ⟨?_, hcont.grows, hcont.free_le, hcont.roots⟩⟩
  have hinv := hcont.invariant
  exact hinv.write_frontier hm (hcont.grows.subset hp) hk rfl
    (fun q hq => hm.within (hinv.old_mem hm hroots hq)) (hinv.free_le hm hroots) hren

/-- **One slot.** The reference at the frontier is relocated, and the frontier moves past it. -/
theorem relocateAt_invariant (hm : m.WellFormed) (hroots : ∀ v ∈ roots, m.Holds v) {p : Nat × Nat}
    {k : Nat} (hp : p ∈ moves) (hk : Slot m p.1 k) (h : Invariant m roots moves (p.2 + k) s) :
    ∃ moves' s', Runs m (relocateAt (p.2 + k)) s () s' ∧
      Continues m roots moves s moves' (p.2 + k + 4) s' := by
  have hle := hk.le_extentAt
  have hbound := h.packed.bounds hp
  obtain ⟨moves', v, s', hrun, hcont, hren⟩ := relocate_invariant hm hroots h (by omega)
    (hk.holds hm (h.old_mem hm hroots hp)) fun a ha => hk.reachable (h.reached p hp) ha
  obtain ⟨s'', hrun', hcont'⟩ := relocateAt_continues hm hroots hp hk h hrun hcont hren
  exact ⟨moves', s'', hrun', hcont'⟩

/-- The fields of a copy, from number `i` on. -/
theorem relocateFrom_invariant (hm : m.WellFormed) (hroots : ∀ v ∈ roots, m.Holds v)
    {p : Nat × Nat} (hkind : m.kindAt p.1 = .pointers) {n i : Nat} (hp : p ∈ moves)
    (hn : i + n = m.countAt p.1) (h : Invariant m roots moves (p.2 + (headerBytes + i * 4)) s) :
    ∃ moves' s', Runs m (relocateFrom (p.2 + (headerBytes + i * 4)) n) s () s' ∧
      Continues m roots moves s moves' (p.2 + m.extentAt p.1) s' := by
  induction n generalizing i moves s with
  | zero =>
    refine ⟨moves, s, .pure m () s, ⟨?_, List.prefix_rfl, Nat.le_refl _, rfl⟩⟩
    rw [extentAt_of_pointers hkind, ← hn, Nat.add_zero, Nat.mul_comm]
    exact h
  | succ n ih =>
    obtain ⟨moves₁, s₁, hrun₁, hcont₁⟩ :=
      relocateAt_invariant hm hroots hp (.field hkind (by omega)) h
    have hnext : p.2 + (headerBytes + i * 4) + 4 = p.2 + (headerBytes + (i + 1) * 4) := by omega
    rw [hnext] at hcont₁
    obtain ⟨moves₂, s₂, hrun₂, hcont₂⟩ :=
      ih (hcont₁.grows.subset hp) (by omega) hcont₁.invariant
    refine ⟨moves₂, s₂, hrun₁.bind ?_, hcont₁.trans hcont₂⟩
    rw [hnext]
    exact hrun₂

/-- The size word of a copy is that of the object. -/
theorem Invariant.sizeWordAt_copy (h : Invariant m roots moves c s) {p : Nat × Nat}
    (hp : p ∈ moves) : s.memory.sizeWordAt p.2 = m.sizeWordAt p.1 := by
  have hhead : 12 ≤ m.extentAt p.1 := m.headerBytes_le_extentAt p.1
  refine Arena.getWord_congr fun k hk => ?_
  have hbyte := h.copies p hp (8 + k) (by omega) fun l hl _ => by
    have hlow := hl.eq_zero_or_ge
    simp only [headerBytes] at hlow
    omega
  rwa [← Nat.add_assoc, ← Nat.add_assoc] at hbyte

theorem Invariant.extentAt_copy (h : Invariant m roots moves c s) {p : Nat × Nat}
    (hp : p ∈ moves) : s.memory.extentAt p.2 = m.extentAt p.1 := by
  simp only [extentAt, countAt, kindAt, h.sizeWordAt_copy hp]

/-- Between two places of one copy, the frontier passes over whatever holds no slot of it. -/
theorem Invariant.advance_within (h : Invariant m roots moves c s) {p : Nat × Nat} {d : Nat}
    (hp : p ∈ moves) (hc : p.2 ≤ c) (hle : c ≤ d) (hd : d ≤ p.2 + m.extentAt p.1)
    (hnone : ∀ l, Slot m p.1 l → p.2 + l < d → p.2 + l < c) : Invariant m roots moves d s := by
  refine h.advance (fun q hq l hl hlt => ?_) hle
  by_cases hbelow : q.2 + l < c
  · exact hbelow
  · have hlq := hl.le_extentAt
    obtain rfl : q = p := h.packed.eq_of_overlap hq hp (i := q.2 + l) ⟨by omega, by omega⟩
      ⟨by omega, by omega⟩
    exact hnone l hl hlt

/-- No slot lies between the class word and the body. -/
theorem Invariant.advance_to_body {p : Nat × Nat} (hp : p ∈ moves)
    (h : Invariant m roots moves (p.2 + 0 + 4) s) :
    Invariant m roots moves (p.2 + (headerBytes + 0 * 4)) s := by
  have hhead : headerBytes ≤ m.extentAt p.1 := m.headerBytes_le_extentAt p.1
  refine h.advance_within hp (by omega) (by simp only [headerBytes]; omega) (by omega)
    fun l hl hlt => ?_
  have hlow := hl.eq_zero_or_ge
  omega

/-- The body of an object without references holds no slot. -/
theorem Invariant.advance_to_end {p : Nat × Nat} (hp : p ∈ moves)
    (hkind : m.kindAt p.1 ≠ .pointers)
    (h : Invariant m roots moves (p.2 + (headerBytes + 0 * 4)) s) :
    Invariant m roots moves (p.2 + m.extentAt p.1) s := by
  have hhead : headerBytes ≤ m.extentAt p.1 := m.headerBytes_le_extentAt p.1
  refine h.advance_within hp (by omega) (by omega) (Nat.le_refl _) fun l hl hlt => ?_
  cases hl with
  | cls => simp only [headerBytes]; omega
  | field hk _ => exact absurd hk hkind

/-- How many fields an object has. -/
def fieldCount (m : Memory) (o : Nat) : Nat := if m.kindAt o = .pointers then m.countAt o else 0

/-- The class word of a copy is relocated, and then its fields. How many there are is read off the
copy. -/
theorem scanObject_runs {p : Nat × Nat} (hp : p ∈ moves) {d : Nat} {s₁ s₂ : Collector}
    (hrun₁ : Runs m (relocateAt p.2) s () s₁) (h : Invariant m roots moves d s₁)
    (hrun₂ : Runs m (relocateFrom (p.2 + headerBytes) (fieldCount m p.1)) s₁ () s₂) :
    Runs m (scanObject p.2) s () s₂ := by
  have hhead : headerBytes ≤ m.extentAt p.1 := m.headerBytes_le_extentAt p.1
  have hbound := h.packed.bounds hp
  have hsize := h.sizeWordAt_copy hp
  have hread : ∀ m' A, Overlay m m' s₁ A →
      (if (s₁.withArena A).memory.kindAt p.2 = .pointers then (s₁.withArena A).memory.countAt p.2
        else 0) =
      if s₁.memory.kindAt p.2 = .pointers then s₁.memory.countAt p.2 else 0 := by
    intro m' A hA
    simp only [headerBytes] at hhead
    have hword : (s₁.withArena A).memory.sizeWordAt p.2 = s₁.memory.sizeWordAt p.2 :=
      hA.wordAt (.inr ⟨by omega, by omega⟩)
    rw [kindAt, countAt, hword]
    rfl
  refine hrun₁.bind ((Runs.look _ hread).bind ?_)
  have hkind : s₁.memory.kindAt p.2 = m.kindAt p.1 := by simp only [kindAt, hsize]
  have hcount : s₁.memory.countAt p.2 = m.countAt p.1 := by simp only [countAt, hsize]
  rw [hkind, hcount]
  exact hrun₂

/-- **One copy.** Scanning a copy moves the frontier from its beginning to its end. -/
theorem scanObject_invariant (hm : m.WellFormed) (hroots : ∀ v ∈ roots, m.Holds v)
    {p : Nat × Nat} (hp : p ∈ moves) (h : Invariant m roots moves p.2 s) :
    ∃ moves' s', Runs m (scanObject p.2) s () s' ∧
      Continues m roots moves s moves' (p.2 + m.extentAt p.1) s' := by
  obtain ⟨moves₁, s₁, hrun₁, hcont₁⟩ := relocateAt_invariant hm hroots hp .cls h
  have hp₁ : p ∈ moves₁ := hcont₁.grows.subset hp
  have hbody := hcont₁.invariant.advance_to_body hp₁
  by_cases hkind : m.kindAt p.1 = .pointers
  · obtain ⟨moves₂, s₂, hrun₂, hcont₂⟩ :=
      relocateFrom_invariant hm hroots hkind hp₁ (Nat.zero_add _) hbody
    refine ⟨moves₂, s₂, scanObject_runs hp₁ hrun₁ hcont₁.invariant ?_, hcont₁.trans hcont₂⟩
    rw [fieldCount, if_pos hkind]
    simpa only [Nat.zero_mul, Nat.add_zero] using hrun₂
  · refine ⟨moves₁, s₁, scanObject_runs hp₁ hrun₁ hcont₁.invariant ?_,
      ⟨hbody.advance_to_end hp₁ hkind, hcont₁.grows, hcont₁.free_le, hcont₁.roots⟩⟩
    rw [fieldCount, if_neg hkind]
    exact .pure m () s₁

/-- Reading through the copies stops at their end. -/
theorem scan_stops {limit : Nat} : Runs m (scan limit s.memory.free) s s.memory.free s := by
  have hstop : Runs m (look (·.memory.free)) s s.memory.free s := .look _ fun _ _ _ => rfl
  rw [scan]
  refine hstop.bind ?_
  rw [if_neg (by omega)]
  exact .pure m _ s

/-- One copy is read through, and then those behind it. -/
theorem scan_runs {p : Nat × Nat} (hp : p ∈ moves) {limit a d : Nat} {s₁ s₂ : Collector}
    (hlt : p.2 < s.memory.free ∧ p.2 < limit) (hrun₁ : Runs m (scanObject p.2) s () s₁)
    (h : Invariant m roots moves d s₁)
    (hrun₂ : Runs m (scan limit (p.2 + m.extentAt p.1)) s₁ a s₂) :
    Runs m (scan limit p.2) s a s₂ := by
  have hhead : 12 ≤ m.extentAt p.1 := m.headerBytes_le_extentAt p.1
  have hbound := h.packed.bounds hp
  have hext := h.extentAt_copy hp
  have hstop : Runs m (look (·.memory.free)) s s.memory.free s := .look _ fun _ _ _ => rfl
  rw [scan]
  refine hstop.bind ?_
  rw [if_pos hlt]
  refine hrun₁.bind ((Runs.look _ fun m' A hA => ?_).bind ?_)
  · have hword : (s₁.withArena A).memory.sizeWordAt p.2 = s₁.memory.sizeWordAt p.2 :=
      hA.wordAt (.inr ⟨by omega, by omega⟩)
    apply Subtype.ext
    simp only [extentAt, countAt, kindAt, hword]
  · simp only [hext]
    exact hrun₂

/-- **All copies.** Scanning ends with the frontier at the end of the copies. -/
theorem scan_invariant (hm : m.WellFormed) (hroots : ∀ v ∈ roots, m.Holds v)
    (h : Invariant m roots moves c s) (hc : c = s.memory.free ∨ ∃ p ∈ moves, p.2 = c) :
    ∃ moves' s', Runs m (scan (m.otherStart + m.capacity) c) s s'.memory.free s' ∧
      Continues m roots moves s moves' s'.memory.free s' := by
  -- the recursion of `scan`: the rest of the semispace gets shorter
  induction hrest : m.otherStart + m.capacity - c using Nat.strongRecOn generalizing c moves s with
  | ind rest ih =>
    rcases hc with rfl | ⟨p, hp, rfl⟩
    · exact ⟨moves, s, scan_stops, ⟨h, List.prefix_rfl, Nat.le_refl _, rfl⟩⟩
    · have hbound := h.packed.bounds hp
      have hhead : 12 ≤ m.extentAt p.1 := m.headerBytes_le_extentAt p.1
      have hroom := h.free_le hm hroots
      obtain ⟨moves₁, s₁, hrun₁, hcont₁⟩ := scanObject_invariant hm hroots hp h
      have hp₁ : p ∈ moves₁ := hcont₁.grows.subset hp
      obtain ⟨moves₂, s₂, hrun₂, hcont₂⟩ := ih _ (by omega) hcont₁.invariant
        (hcont₁.invariant.packed.next hp₁) rfl
      exact ⟨moves₂, s₂, scan_runs hp₁ ⟨by omega, by omega⟩ hrun₁ hcont₁.invariant hrun₂,
        hcont₁.trans hcont₂⟩

end Scan

/-! ## Roots -/

section Roots

variable {m : Memory} {roots : Array Value} {moves : List (Nat × Nat)} {c : Nat} {s : Collector}

/-- The first `i` roots have been renamed, and the others are as they were. -/
structure RootsDone (roots : Array Value) (moves : List (Nat × Nat)) (i : Nat) (now : Array Value) :
    Prop where
  size : now.size = roots.size
  renamed : ∀ j (h : j < roots.size), j < i →
    Value.Renames (movedTo moves) roots[j] (now[j])
  same : ∀ j (h : j < roots.size), i ≤ j → now[j] = roots[j]

/-- The invariant does not speak of the roots as they are now. -/
theorem Invariant.withRoots (h : Invariant m roots moves c s) (now : Array Value) :
    Invariant m roots moves c { s with roots := now } :=
  { h with }

theorem RootsDone.next {moves' : List (Nat × Nat)} {now : Array Value} {i : Nat} {v : Value}
    (h : RootsDone roots moves i now) (hgrows : moves <+: moves') (hi : i < roots.size)
    (hv : Value.Renames (movedTo moves') roots[i] v) :
    RootsDone roots moves' (i + 1) (now.setIfInBounds i v) := by
  have hsize := h.size
  refine ⟨by rw [Array.size_setIfInBounds, hsize], fun j hj hlt => ?_, fun j hj hle => ?_⟩
  · rw [Array.getElem_setIfInBounds]
    by_cases hij : i = j
    · subst hij
      simpa only [if_true] using hv
    · rw [if_neg hij]
      exact (h.renamed j hj (by omega)).mono fun _ _ hmem => hgrows.subset hmem
  · rw [Array.getElem_setIfInBounds, if_neg (by omega)]
    exact h.same j hj (by omega)

theorem relocateRoot_runs {i : Nat} {v v' : Value} {s' : Collector} (hroot : s.roots[i]? = some v)
    (h : Runs m (relocate v) s v' s') :
    Runs m (relocateRoot i) s () { s' with roots := s'.roots.setIfInBounds i v' } := by
  refine ⟨by simp only [relocateRoot, hroot, h.run], fun m' A hA => ?_⟩
  obtain ⟨A', hrun, hA'⟩ := h.alike m' A hA
  refine ⟨A', ?_, hA'.inside, hA'.outside⟩
  have hroot' : (s.withArena A).roots[i]? = some v := hroot
  simp only [relocateRoot, hroot', hrun]
  rfl

/-- **All roots.** Relocating the roots from number `i` on renames them. -/
theorem relocateRoots_invariant (hm : m.WellFormed) (hroots : ∀ v ∈ roots, m.Holds v)
    (h : Invariant m roots moves c s) (hc : c ≤ s.memory.free) {n i : Nat}
    (hn : i + n = roots.size) (hdone : RootsDone roots moves i s.roots) :
    ∃ moves' s', Runs m (relocateRoots i n) s () s' ∧ Invariant m roots moves' c s' ∧
      moves <+: moves' ∧ c ≤ s'.memory.free ∧ RootsDone roots moves' roots.size s'.roots := by
  induction n generalizing i moves s with
  | zero =>
    obtain rfl : i = roots.size := by omega
    exact ⟨moves, s, .pure m () s, h, List.prefix_rfl, hc, hdone⟩
  | succ n ih =>
    have hi : i < roots.size := by omega
    have hroot : s.roots[i]? = some roots[i] := by
      rw [Array.getElem?_eq_getElem (by rw [hdone.size]; exact hi), hdone.same i hi (Nat.le_refl i)]
    have hmem : roots[i] ∈ roots := Array.getElem_mem hi
    obtain ⟨moves₁, v, s₁, hrun₁, hcont₁, hren⟩ :=
      relocate_invariant hm hroots h hc (hroots _ hmem) fun a ha => .root (ha ▸ hmem)
    have hdone₁ := hdone.next hcont₁.grows hi hren
    rw [← hcont₁.roots] at hdone₁
    obtain ⟨moves₂, s₂, hrun₂, hinv₂, hgrows₂, hc₂, hdone₂⟩ :=
      ih (hcont₁.invariant.withRoots (s₁.roots.setIfInBounds i v))
        (Nat.le_trans hc hcont₁.free_le) (by omega) hdone₁
    exact ⟨moves₂, s₂, (relocateRoot_runs hroot hrun₁).bind hrun₂, hinv₂,
      hcont₁.grows.trans hgrows₂, hc₂, hdone₂⟩

end Roots

end Collector

end Smalltalk
