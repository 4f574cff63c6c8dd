import Smalltalk.Proofs.Simulation.Basic

/-!
# Reading and writing corresponding heaps

An accessor that is given corresponding objects of two heaps finds the same in both, or fails in
both with the same fault. The faults name no addresses, so they are alike under any renaming at all;
that is why the renaming of the faults in the lemmas about readers is a variable of its own.

## Main results

* `Heaps.getPtr`, `Heaps.bytes`, …: readers agree
* `Heaps.setPtr`, `Heaps.setBytes`, …: writers keep the heaps corresponding
-/

namespace Smalltalk

open Memory

/-! ## Readers -/

namespace Memory.Corresponds

variable {ρ σ : Renaming} {m m' : Memory} {v v' : Value}

/-- The offsets found are those of objects that are paired. -/
theorem header (h : Corresponds ρ m m') (hv : Value.Renames ρ v v') (operation : String) :
    Agree σ ρ (m.header operation v) (m'.header operation v') := by
  cases hv with
  | small n => exact .fault (.same trivial)
  | ref hab =>
    rw [header_of_mem h.left (h.domain _ _ hab), header_of_mem h.right (h.range _ _ hab)]
    exact .ok hab

/-- The offsets found are those of the same element of objects that are paired. -/
theorem element (h : Corresponds ρ m m') (hv : Value.Renames ρ v v') (operation : String) (i : Nat)
    (kind : BodyKind) :
    Agree σ (fun j j' => ∃ a b, ρ a b ∧ m.kindAt a = kind ∧ i < m.countAt a ∧
        j = a + headerBytes + i * kind.elementBytes ∧ j' = b + headerBytes + i * kind.elementBytes)
      (m.element operation v i kind) (m'.element operation v' i kind) := by
  cases hv with
  | small n => exact .fault (.same trivial)
  | ref hab =>
    have hobject := h.objects _ _ hab
    rw [element_of_mem h.left (h.domain _ _ hab), element_of_mem h.right (h.range _ _ hab),
      hobject.kind, hobject.count]
    refine .ite Iff.rfl (fun _ => .fault (.same trivial)) fun hkind => ?_
    refine .ite Iff.rfl (fun _ => .fault (.same trivial)) fun hcount => ?_
    exact .ok ⟨_, _, hab, Decidable.of_not_not hkind, Nat.lt_of_not_le hcount, rfl, rfl⟩

theorem byteBody (h : Corresponds ρ m m') (hv : Value.Renames ρ v v') :
    Agree σ (fun j j' => ∃ a b, ρ a b ∧ m.kindAt a = .bytes ∧
        j = (a + headerBytes, m.countAt a) ∧ j' = (b + headerBytes, m.countAt a))
      (m.byteBody v) (m'.byteBody v') := by
  cases hv with
  | small n => exact .fault (.same trivial)
  | ref hab =>
    have hobject := h.objects _ _ hab
    rw [byteBody_of_mem h.left (h.domain _ _ hab), byteBody_of_mem h.right (h.range _ _ hab),
      hobject.kind, hobject.count]
    refine .ite Iff.rfl (fun _ => .fault (.same trivial)) fun hkind => ?_
    exact .ok ⟨_, _, hab, Decidable.of_not_not hkind, rfl, rfl⟩

theorem classOf (h : Corresponds ρ m m') (hv : Value.Renames ρ v v') :
    Agree σ (Value.Renames ρ) (m.classOf v) (m'.classOf v') := by
  obtain ⟨a, b, hx, hx', hab⟩ | ⟨e, e', hx, hx', he⟩ := (h.header (σ := σ) hv "getClass").cases
  · simp only [Memory.classOf, hx, hx']
    exact .ok (h.objects _ _ hab).cls
  · simp only [Memory.classOf, hx, hx']
    exact .error he

theorem hash (h : Corresponds ρ m m') (hv : Value.Renames ρ v v') :
    Agree σ Eq (m.hash v) (m'.hash v') := by
  cases hv with
  | small n => exact .ok rfl
  | ref hab =>
    rw [Memory.hash, Memory.hash, header_of_mem h.left (h.domain _ _ hab),
      header_of_mem h.right (h.range _ _ hab)]
    exact .ok (h.objects _ _ hab).hash.symm

theorem size (h : Corresponds ρ m m') (hv : Value.Renames ρ v v') :
    Agree σ Eq (m.size v) (m'.size v') := by
  cases hv with
  | small n => exact .ok rfl
  | ref hab =>
    rw [Memory.size, Memory.size, header_of_mem h.left (h.domain _ _ hab),
      header_of_mem h.right (h.range _ _ hab)]
    exact .ok (h.objects _ _ hab).count.symm

theorem kind (h : Corresponds ρ m m') (hv : Value.Renames ρ v v') :
    Agree σ Eq (m.kind v) (m'.kind v') := by
  obtain ⟨a, b, hx, hx', hab⟩ | ⟨e, e', hx, hx', he⟩ := (h.header (σ := σ) hv "kind").cases
  · simp only [Memory.kind, hx, hx']
    exact .ok (h.objects _ _ hab).kind.symm
  · simp only [Memory.kind, hx, hx']
    exact .error he

theorem getPtr (h : Corresponds ρ m m') (hv : Value.Renames ρ v v') (i : Nat) :
    Agree σ (Value.Renames ρ) (m.getPtr v i) (m'.getPtr v' i) := by
  obtain ⟨_, _, hx, hx', a, b, hab, hk, hi, rfl, rfl⟩ | ⟨e, e', hx, hx', he⟩ :=
    (h.element (σ := σ) hv "getPtr" i .pointers).cases
  · simp only [Memory.getPtr, hx, hx']
    exact .ok ((h.objects a b hab).fields hk i hi)
  · simp only [Memory.getPtr, hx, hx']
    exact .error he

theorem getWord (h : Corresponds ρ m m') (hv : Value.Renames ρ v v') (i : Nat) :
    Agree σ Eq (m.getWord v i) (m'.getWord v' i) := by
  obtain ⟨_, _, hx, hx', a, b, hab, hk, hi, rfl, rfl⟩ | ⟨e, e', hx, hx', he⟩ :=
    (h.element (σ := σ) hv "getWord" i .words).cases
  · simp only [Memory.getWord, hx, hx']
    exact .ok ((h.objects a b hab).words hk i hi).symm
  · simp only [Memory.getWord, hx, hx']
    exact .error he

theorem getByte (h : Corresponds ρ m m') (hv : Value.Renames ρ v v') (i : Nat) :
    Agree σ Eq (m.getByte v i) (m'.getByte v' i) := by
  obtain ⟨_, _, hx, hx', a, b, hab, hk, hi, rfl, rfl⟩ | ⟨e, e', hx, hx', he⟩ :=
    (h.element (σ := σ) hv "getByte" i .bytes).cases
  · simp only [Memory.getByte, hx, hx']
    rw [BodyKind.elementBytes, Nat.mul_one]
    exact .ok ((h.objects a b hab).bytes hk i hi).symm
  · simp only [Memory.getByte, hx, hx']
    exact .error he

theorem bytes (h : Corresponds ρ m m') (hv : Value.Renames ρ v v') :
    Agree σ Eq (m.bytes v) (m'.bytes v') := by
  obtain ⟨_, _, hx, hx', a, b, hab, hk, rfl, rfl⟩ | ⟨e, e', hx, hx', he⟩ :=
    (h.byteBody (σ := σ) hv).cases
  · simp only [Memory.bytes, hx, hx']
    exact .ok (Arena.getBytes_congr fun k hi => ((h.objects a b hab).bytes hk k hi).symm)
  · simp only [Memory.bytes, hx, hx']
    exact .error he

end Memory.Corresponds

/-! ## Writers -/

namespace Memory

/-- An object that is written to in its body keeps its header, so what matters is the body. -/
theorem Matches.store {ρ : Renaming} {m m' m₁ m₁' : Memory} {a b lo hi : Nat} (hm : m.WellFormed)
    (hm' : m'.WellFormed) (h : Matches ρ m a m' b) (hs : Stored m a lo hi m₁)
    (hs' : Stored m' b lo hi m₁') (hlo : headerBytes ≤ lo)
    (hfields : m.kindAt a = .pointers → ∀ i < m.countAt a,
      Value.Renames ρ (m₁.fieldAt a i) (m₁'.fieldAt b i))
    (hwords : m.kindAt a = .words → ∀ i < m.countAt a,
      m₁'.wordElementAt b i = m₁.wordElementAt a i)
    (hbytes : m.kindAt a = .bytes → ∀ i < m.countAt a,
      m₁'.byteElementAt b i = m₁.byteElementAt a i) : Matches ρ m₁ a m₁' b := by
  have hkind := hs.kindAt hm hs.mem
  have hcount := hs.countAt hm hs.mem
  constructor
  case hash => rw [hs'.hashAt hlo, hs.hashAt hlo, h.hash]
  case kind => rw [hs'.kindAt hm' hs'.mem, hkind, h.kind]
  case count => rw [hs'.countAt hm' hs'.mem, hcount, h.count]
  case cls =>
    rw [hs'.classAt hm' hs'.mem, hs.classAt hm hs.mem]
    exact h.cls
  case fields => rw [hkind, hcount]; exact hfields
  case words => rw [hkind, hcount]; exact hwords
  case bytes => rw [hkind, hcount]; exact hbytes

namespace Twin

variable {m m' : Memory}

theorem writeWord (h : Twin m m') (i : Nat) (w : UInt32) :
    Twin (m.writeWord i w) (m'.writeWord i w) := by
  obtain ⟨A, rfl, hA⟩ := h
  exact ⟨A.setWord i w, rfl, fun j hlow hhigh => Arena.get_setWord_congr w (hA j hlow hhigh)⟩

theorem setBytes (h : Twin m m') (i : Nat) (bs : List UInt8) :
    Twin { m with arena := m.arena.setBytes i bs } { m' with arena := m'.arena.setBytes i bs } := by
  obtain ⟨A, rfl, hA⟩ := h
  refine ⟨A.setBytes i bs, rfl, fun j hlow hhigh => ?_⟩
  rw [Arena.get_setBytes, Arena.get_setBytes, hA j hlow hhigh]

theorem set (h : Twin m m') (i : Nat) (b : UInt8) :
    Twin { m with arena := m.arena.set i b } { m' with arena := m'.arena.set i b } :=
  h.setBytes i [b]

end Twin

end Memory

/-- Two effects on heaps end alike, and leave heaps that correspond. -/
inductive StoresAlike (S : Setting) (ρ : Renaming) :
    EStateM.Result Fault Memory Unit → EStateM.Result Fault Memory Unit → Prop
  | ok {m m' : Memory} (h : Heaps S ρ m m') : StoresAlike S ρ (.ok () m) (.ok () m')
  | error {f f' : Fault} {m m' : Memory} (h : Heaps S ρ m m') (hf : f.Renames ρ f') :
      StoresAlike S ρ (.error f m) (.error f' m')

namespace Heaps

variable {S : Setting} {ρ : Renaming} {m m' m₁ m₁' : Memory} {v v' : Value}

/-- Stores to objects that are paired. -/
theorem store (h : Heaps S ρ m m') {a b lo hi : Nat} (hab : ρ a b) (hs : Stored m a lo hi m₁)
    (hs' : Stored m' b lo hi m₁') (hhash : (m₁.hashAt a).toNat < 1073741824)
    (hmatch : Matches ρ m₁ a m₁' b) (htwin : S.twins → m₁.Twin m₁') : Heaps S ρ m₁ m₁' where
  corresponds := h.corresponds.store hab hs hs' hhash hmatch
  counter := by rw [hs.rest, hs'.rest]; exact h.counter
  changes := h.changes.tail (.store hs (h.corresponds.store hab hs hs' hhash hmatch).left)
  twin := htwin
  fixed := h.fixed

/-- Stores to the bodies of objects that are paired. -/
theorem storeBody (h : Heaps S ρ m m') {a b lo hi : Nat} (hab : ρ a b) (hs : Stored m a lo hi m₁)
    (hs' : Stored m' b lo hi m₁') (hlo : headerBytes ≤ lo)
    (hmatch : Matches ρ m₁ a m₁' b) (htwin : S.twins → m₁.Twin m₁') : Heaps S ρ m₁ m₁' := by
  refine h.store hab hs hs' ?_ hmatch htwin
  rw [hs.hashAt hlo]
  exact h.corresponds.left.hash_lt a hs.mem

theorem setPtr (h : Heaps S ρ m m') (hv : Value.Renames ρ v v') (i : Nat) {w w' : Value}
    (hw : Value.Renames ρ w w') :
    StoresAlike S ρ (Memory.setPtr v i w m) (Memory.setPtr v' i w' m') := by
  have hc := h.corresponds
  obtain ⟨_, _, hx, hx', a, b, hab, hk, hi, rfl, rfl⟩ | ⟨e, e', hx, hx', he⟩ :=
    (hc.element (σ := ρ) hv "setPtr" i .pointers).cases
  · simp only [Memory.setPtr, writeAt, hx, hx', BodyKind.elementBytes]
    have hobject := hc.objects a b hab
    have hs := stored_element (hc.domain a b hab) (by rw [hk]; rfl) hi w.encode
    have hs' := stored_element (hc.range a b hab) (by rw [hobject.kind, hk]; rfl)
      (hobject.count.symm ▸ hi) w'.encode
    refine .ok (h.storeBody hab hs hs' (Nat.le_add_right _ _) ?_ fun ht => ?_)
    · refine hobject.store hc.left hc.right hs hs' (Nat.le_add_right _ _) (fun _ j hj => ?_)
        (fun hwords => ?_) fun hbytes => ?_
      · rw [fieldAt_writeWord, fieldAt_writeWord]
        split
        · exact hw
        · exact hobject.fields hk j hj
      · rw [hk] at hwords
        cases hwords
      · rw [hk] at hbytes
        cases hbytes
    · rw [← hw.eq_of_fixed (h.fixed ht), ← h.fixed ht a b hab]
      exact (h.twin ht).writeWord _ _
  · simp only [Memory.setPtr, writeAt, hx, hx']
    exact .error h he.renames

theorem setWord (h : Heaps S ρ m m') (hv : Value.Renames ρ v v') (i : Nat) (w : UInt32) :
    StoresAlike S ρ (Memory.setWord v i w m) (Memory.setWord v' i w m') := by
  have hc := h.corresponds
  obtain ⟨_, _, hx, hx', a, b, hab, hk, hi, rfl, rfl⟩ | ⟨e, e', hx, hx', he⟩ :=
    (hc.element (σ := ρ) hv "setWord" i .words).cases
  · simp only [Memory.setWord, writeAt, hx, hx', BodyKind.elementBytes]
    have hobject := hc.objects a b hab
    have hs := stored_element (hc.domain a b hab) (by rw [hk]; rfl) hi w
    have hs' := stored_element (hc.range a b hab) (by rw [hobject.kind, hk]; rfl)
      (hobject.count.symm ▸ hi) w
    refine .ok (h.storeBody hab hs hs' (Nat.le_add_right _ _) ?_ fun ht => ?_)
    · refine hobject.store hc.left hc.right hs hs' (Nat.le_add_right _ _) (fun hfields => ?_)
        (fun _ j hj => ?_) fun hbytes => ?_
      · rw [hk] at hfields
        cases hfields
      · rw [wordElementAt_writeWord, wordElementAt_writeWord, hobject.words hk j hj]
      · rw [hk] at hbytes
        cases hbytes
    · rw [← h.fixed ht a b hab]
      exact (h.twin ht).writeWord _ _
  · simp only [Memory.setWord, writeAt, hx, hx']
    exact .error h he.renames

theorem setByte (h : Heaps S ρ m m') (hv : Value.Renames ρ v v') (i : Nat) (byte : UInt8) :
    StoresAlike S ρ (Memory.setByte v i byte m) (Memory.setByte v' i byte m') := by
  have hc := h.corresponds
  obtain ⟨_, _, hx, hx', a, b, hab, hk, hi, rfl, rfl⟩ | ⟨e, e', hx, hx', he⟩ :=
    (hc.element (σ := ρ) hv "setByte" i .bytes).cases
  · simp only [Memory.setByte, writeAt, hx, hx', BodyKind.elementBytes, Nat.mul_one]
    have hobject := hc.objects a b hab
    have hs := stored_byte (hc.domain a b hab) hk hi byte
    have hs' := stored_byte (hc.range a b hab) (hobject.kind.trans hk)
      (hobject.count.symm ▸ hi) byte
    refine .ok (h.storeBody hab hs hs' (Nat.le_add_right _ _) ?_ fun ht => ?_)
    · refine hobject.store hc.left hc.right hs hs' (Nat.le_add_right _ _) (fun hfields => ?_)
        (fun hwords => ?_) fun _ j hj => ?_
      · rw [hk] at hfields
        cases hfields
      · rw [hk] at hwords
        cases hwords
      · rw [byteElementAt_set, byteElementAt_set, hobject.bytes hk j hj]
    · rw [← h.fixed ht a b hab]
      exact (h.twin ht).set _ _
  · simp only [Memory.setByte, writeAt, hx, hx']
    exact .error h he.renames

theorem setBytes (h : Heaps S ρ m m') (hv : Value.Renames ρ v v') (bs : List UInt8) :
    StoresAlike S ρ (Memory.setBytes v bs m) (Memory.setBytes v' bs m') := by
  have hc := h.corresponds
  obtain ⟨_, _, hx, hx', a, b, hab, hk, rfl, rfl⟩ | ⟨e, e', hx, hx', he⟩ :=
    (hc.byteBody (σ := ρ) hv).cases
  · simp only [Memory.setBytes, hx, hx']
    have hobject := hc.objects a b hab
    have hlen : (bs.take (m.countAt a)).length ≤ m.countAt a := List.length_take_le _ _
    have hlen' : (bs.take (m.countAt a)).length ≤ m'.countAt b := by
      rw [hobject.count]
      exact hlen
    have hs := stored_bytes (hc.domain a b hab) hk hlen
    have hs' := stored_bytes (hc.range a b hab) (hobject.kind.trans hk) hlen'
    refine .ok (h.storeBody hab hs hs' (Nat.le_refl _) ?_ fun ht => ?_)
    · refine hobject.store hc.left hc.right hs hs' (Nat.le_refl _) (fun hfields => ?_)
        (fun hwords => ?_) fun _ j hj => ?_
      · rw [hk] at hfields
        cases hfields
      · rw [hk] at hwords
        cases hwords
      · rw [byteElementAt_setBytes, byteElementAt_setBytes, hobject.bytes hk j hj]
    · rw [← h.fixed ht a b hab]
      exact (h.twin ht).setBytes _ _
  · simp only [Memory.setBytes, hx, hx']
    exact .error h he.renames

theorem setHash (h : Heaps S ρ m m') (hv : Value.Renames ρ v v') (hash : UInt32) :
    StoresAlike S ρ (Memory.setHash v hash m) (Memory.setHash v' hash m') := by
  have hc := h.corresponds
  obtain ⟨a, b, hx, hx', hab⟩ | ⟨e, e', hx, hx', he⟩ := (hc.header (σ := ρ) hv "setHash").cases
  · simp only [Memory.setHash, writeAt, hx, hx']
    have hobject := hc.objects a b hab
    have hs := stored_hash (hc.domain a b hab) (hash &&& hashMask)
    have hs' := stored_hash (hc.range a b hab) (hash &&& hashMask)
    -- the body is behind the bytes that are written
    have hbody : ∀ {o : Nat} {m : Memory} (k : Nat), headerBytes ≤ k →
        (m.writeWord (o + 4) (hash &&& hashMask)).arena.get (o + k) = m.arena.get (o + k) := by
      intro o m k hk
      simp only [headerBytes] at hk
      exact Arena.get_setWord_of_outside _ _ (by omega)
    have hword : ∀ {o : Nat} {m : Memory} (i : Nat),
        (m.writeWord (o + 4) (hash &&& hashMask)).wordElementAt o i = m.wordElementAt o i := by
      intro o m i
      refine Arena.getWord_congr fun k hk => ?_
      simp only [Nat.add_assoc]
      exact hbody _ (Nat.le_add_right _ _)
    have hfield : ∀ {o : Nat} {m : Memory} (i : Nat),
        (m.writeWord (o + 4) (hash &&& hashMask)).fieldAt o i = m.fieldAt o i :=
      fun i => congrArg Value.decode (hword i)
    refine .ok (h.store hab hs hs' ?_ ?_ fun ht => ?_)
    · rw [hashAt_writeWord, UInt32.toNat_and]
      exact Nat.lt_of_le_of_lt Nat.and_le_right (by decide)
    · have hkind := hs.kindAt hc.left hs.mem
      have hcount := hs.countAt hc.left hs.mem
      constructor
      case hash => rw [hashAt_writeWord, hashAt_writeWord]
      case kind => rw [hs'.kindAt hc.right hs'.mem, hkind, hobject.kind]
      case count => rw [hs'.countAt hc.right hs'.mem, hcount, hobject.count]
      case cls =>
        rw [hs'.classAt hc.right hs'.mem, hs.classAt hc.left hs.mem]
        exact hobject.cls
      case fields =>
        rw [hkind, hcount]
        intro hk i hi
        rw [hfield, hfield]
        exact hobject.fields hk i hi
      case words =>
        rw [hkind, hcount]
        intro hk i hi
        rw [hword, hword]
        exact hobject.words hk i hi
      case bytes =>
        rw [hkind, hcount]
        intro hk i hi
        simp only [byteElementAt, Nat.add_assoc, hbody _ (Nat.le_add_right headerBytes i)]
        simpa only [byteElementAt, Nat.add_assoc] using hobject.bytes hk i hi
    · rw [← h.fixed ht a b hab]
      exact (h.twin ht).writeWord _ _
  · simp only [Memory.setHash, writeAt, hx, hx']
    exact .error h he.renames

end Heaps

end Smalltalk
