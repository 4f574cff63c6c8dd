import Smalltalk.Proofs.Running

/-!
# Edits of a machine

A machine that has made objects and stored to a few fields is, apart from these fields, the machine
it was: every object that is still there is the same object, with its references renamed as the
collections have moved what they refer to. `Machine.Edits` says so with the set of fields that are
touched. Objects that were made meanwhile are not renamed from anything, so whatever is stored into
them touches nothing.

Edits compose, and what was read before can be read afterwards. An operation is therefore described
once, by the fields it touches and by what it leaves in the objects it makes.

## Main definitions

* `Memory.Edited`: an object is the same, but for some fields
* `Machine.Edits`: so are all objects that are still there

## Main results

* `Machine.Edits.trans`
* `Machine.Edits.create`, `Machine.Edits.setPtr`, `Machine.Edits.setPtr_new`: what operations edit
* `Machine.Edits.getPtr`, `Machine.Edits.bytes` and others: what is read afterwards
* `Machine.holding_eq_ok`: values that are held meanwhile
-/

namespace Smalltalk

open Memory Machine Layout

namespace Memory

/-- The object at `o'` is the object at `o`, with its references renamed, but for some fields. -/
structure Edited (T : Nat → Prop) (σ : Renaming) (m : Memory) (o : Nat) (m' : Memory) (o' : Nat) :
    Prop where
  hash : m'.hashAt o' = m.hashAt o
  kind : m'.kindAt o' = m.kindAt o
  count : m'.countAt o' = m.countAt o
  cls : Value.Renames σ (m.classAt o) (m'.classAt o')
  fields : m.kindAt o = .pointers → ∀ i < m.countAt o, ¬ T i →
    Value.Renames σ (m.fieldAt o i) (m'.fieldAt o' i)
  words : m.kindAt o = .words → ∀ i < m.countAt o, m'.wordElementAt o' i = m.wordElementAt o i
  bytes : m.kindAt o = .bytes → ∀ i < m.countAt o, m'.byteElementAt o' i = m.byteElementAt o i

namespace Edited

variable {T T' U : Nat → Prop} {σ τ : Renaming} {m m₁ m₂ : Memory} {o o₁ o₂ : Nat}

theorem of_matches (h : Matches σ m o m₁ o₁) : Edited T σ m o m₁ o₁ where
  hash := h.hash
  kind := h.kind
  count := h.count
  cls := h.cls
  fields := fun hk i hi _ => h.fields hk i hi
  words := h.words
  bytes := h.bytes

theorem mono (h : Edited T σ m o m₁ o₁) (hT : ∀ i, T i → U i) : Edited U σ m o m₁ o₁ :=
  { h with fields := fun hk i hi hnot => h.fields hk i hi (mt (hT i) hnot) }

theorem trans (h : Edited T σ m o m₁ o₁) (h' : Edited T' τ m₁ o₁ m₂ o₂) (hT : ∀ i, T i → U i)
    (hT' : ∀ i, T' i → U i) : Edited U (σ.followedBy τ) m o m₂ o₂ where
  hash := h'.hash.trans h.hash
  kind := h'.kind.trans h.kind
  count := h'.count.trans h.count
  cls := h.cls.followedBy h'.cls
  fields := fun hk i hi hnot => (h.fields hk i hi (mt (hT i) hnot)).followedBy
    (h'.fields (h.kind.trans hk) i (h.count.symm ▸ hi) (mt (hT' i) hnot))
  words := fun hk i hi =>
    (h'.words (h.kind.trans hk) i (h.count.symm ▸ hi)).trans (h.words hk i hi)
  bytes := fun hk i hi =>
    (h'.bytes (h.kind.trans hk) i (h.count.symm ▸ hi)).trans (h.bytes hk i hi)

/-- Other objects do not matter. -/
theorem congr (h : Edited T σ m o m₁ o₁) (hagree : AgreeAt m₁ m₂ o₁) : Edited T σ m o m₂ o₁ where
  hash := hagree.hashAt.trans h.hash
  kind := hagree.kindAt.trans h.kind
  count := hagree.countAt.trans h.count
  cls := hagree.classAt.symm ▸ h.cls
  fields := fun hk i hi hnot => by
    rw [hagree.fieldAt (h.kind.trans hk) (h.count.symm ▸ hi)]
    exact h.fields hk i hi hnot
  words := fun hk i hi => by
    rw [hagree.wordElementAt (h.kind.trans hk) (h.count.symm ▸ hi)]
    exact h.words hk i hi
  bytes := fun hk i hi => by
    rw [hagree.byteElementAt (h.kind.trans hk) (h.count.symm ▸ hi)]
    exact h.bytes hk i hi

end Edited

/-! ## Reading -/

section Reading

variable {m : Memory} {v w : Value}

/-- The bytes of an object made of them. -/
theorem bytes_eq_ok (hm : m.WellFormed) (hv : m.Holds v) {bs : List UInt8}
    (h : m.bytes v = .ok bs) :
    ∃ a : Address, v = .ref a ∧ a.offset ∈ m.headers ∧ m.kindAt a.offset = .bytes ∧
      bs = m.arena.getBytes (a.offset + headerBytes) (m.countAt a.offset) := by
  cases hv with
  | small n => cases h
  | @ref a ha =>
    unfold Memory.bytes at h
    rw [byteBody_of_mem hm ha] at h
    by_cases hk : m.kindAt a.offset = .bytes
    · rw [if_neg (not_not.2 hk)] at h
      exact ⟨a, rfl, ha, hk, (Except.ok.inj h).symm⟩
    · rw [if_pos hk] at h
      cases h

theorem bytes_ref_of_mem (hm : m.WellFormed) {a : Address} (ha : a.offset ∈ m.headers)
    (hk : m.kindAt a.offset = .bytes) :
    m.bytes (.ref a) = .ok (m.arena.getBytes (a.offset + headerBytes) (m.countAt a.offset)) := by
  unfold Memory.bytes
  rw [byteBody_of_mem hm ha, if_neg (not_not.2 hk)]

theorem getWord_eq_ok (hm : m.WellFormed) (hv : m.Holds v) {i : Nat} {x : UInt32}
    (h : m.getWord v i = .ok x) :
    ∃ a : Address, v = .ref a ∧ a.offset ∈ m.headers ∧ m.kindAt a.offset = .words ∧
      i < m.countAt a.offset ∧ m.wordElementAt a.offset i = x := by
  cases hv with
  | small n => cases h
  | @ref a ha =>
    rw [getWord_of_mem hm ha] at h
    by_cases hk : m.kindAt a.offset = .words
    · by_cases hi : m.countAt a.offset ≤ i
      · rw [if_neg (not_not.2 hk), if_pos hi] at h
        cases h
      · rw [if_neg (not_not.2 hk), if_neg hi] at h
        exact ⟨a, rfl, ha, hk, by omega, Except.ok.inj h⟩
    · rw [if_pos hk] at h
      cases h

end Reading

end Memory

/-- Nothing is renamed to an object that was made meanwhile. -/
theorem Value.Renames.ne_new {σ : Renaming} {v w : Value} {a : Address} (h : Value.Renames σ v w)
    (hnew : ∀ x, ¬ σ x a.offset) : w ≠ .ref a := by
  rintro rfl
  cases h with
  | ref hab => exact hnew _ hab

/-- What an object that is still there had in its fields before is still there. -/
def Renaming.Closed (σ : Renaming) (m : Memory) : Prop :=
  ∀ x x', σ x x' → m.kindAt x = .pointers → ∀ i < m.countAt x, ∃ w,
    Value.Renames σ (m.fieldAt x i) w

theorem Memory.WellFormed.closed_unmoved {m : Memory} (hm : m.WellFormed) : m.unmoved.Closed m :=
  fun x _ hx hk i hi => ⟨_, .unmoved (hm.field x hx.1 hk i hi)⟩

namespace Machine

/-- Nothing is lost that is reached from registers, from values that are held or from some
others. -/
def Preserves (m : Machine) (σ : Renaming) (others : List Value) : Prop :=
  ∀ (roots : Array Value) (x : Nat),
    (∀ v ∈ roots, v ∈ others ∨ v ∈ m.registers.scratch ∨ ∃ r, v = m.registers.get r) →
    m.memory.Reachable roots x → ∃ x', σ x x'

/-- Objects that are still there are the same, but for some fields. -/
structure Edits (T : Nat → Nat → Prop) (K : List Root) (σ : Renaming) (m m₁ : Machine) :
    Prop extends Follows K σ m m₁ where
  before : m.WellFormed
  after : m₁.WellFormed
  size : m₁.registers.scratch.size = m.registers.scratch.size
  objects : ∀ x x', σ x x' → Edited (T x) σ m.memory x m₁.memory x'

/-- No field is touched. -/
def untouched (_ _ : Nat) : Prop := False

theorem Shifted.edits {T : Nat → Nat → Prop} {K : List Root} {σ : Renaming} {m m₁ : Machine}
    (hm : m.WellFormed) (h : Shifted σ m m₁) : m.Edits T K σ m₁ where
  toFollows := h.follows.mono (List.nil_subset K)
  before := hm
  after := h.wellFormed
  size := h.held
  objects := fun x x' hx => .of_matches (h.objects x x' hx)

namespace Edits

variable {T T' U : Nat → Nat → Prop} {K L : List Root} {σ τ : Renaming} {m m₁ m₂ : Machine}
  {o u v w : Value} {i : Nat} {a b : Address}

theorem refl (hm : m.WellFormed) : m.Edits T K m.memory.unmoved m where
  toFollows := .unmoved hm .refl (fun _ _ => rfl) (fun _ _ _ => rfl) fun _ _ h => h
  before := hm
  after := hm
  size := rfl
  objects := fun x x' hx => .of_matches ((Corresponds.refl hm.memory).objects x x' hx)

theorem mono (h : m.Edits T K σ m₁) (hT : ∀ x i, T x i → U x i) (hK : K ⊆ L) :
    m.Edits U L σ m₁ :=
  { h with
    toFollows := h.toFollows.mono hK
    objects := fun x x' hx => (h.objects x x' hx).mono (hT x) }

/-- **Edits compose.** -/
theorem trans (h : m.Edits T K σ m₁) (h' : m₁.Edits T' K τ m₂) (hT : ∀ x i, T x i → U x i)
    (hT' : ∀ x x' i, σ x x' → T' x' i → U x i) : m.Edits U K (σ.followedBy τ) m₂ where
  toFollows := h.toFollows.trans h.before.memory h'.toFollows
  before := h.before
  after := h'.after
  size := h'.size.trans h.size
  objects := by
    rintro x x'' ⟨x', hx, hx'⟩
    exact (h.objects x x' hx).trans (h'.objects x' x'' hx') (hT x) fun i => hT' x x' i hx

theorem persists (h : m.Edits T K σ m₁) : Persists σ m.memory m₁.memory :=
  h.toRetains.persists h.before.memory

theorem holds (h : m.Edits T K σ m₁) (hvw : Value.Renames σ v w) : m₁.memory.Holds w :=
  h.persists.holds_right hvw

/-- Nothing is moved in the second step. -/
theorem trans_unmoved (h : m.Edits T K σ m₁) (h' : m₁.Edits T' K m₁.memory.unmoved m₂)
    (hT : ∀ x i, T x i → U x i) (hT' : ∀ x x' i, σ x x' → T' x' i → U x i) : m.Edits U K σ m₂ := by
  have hall := h.trans h' hT hT'
  rwa [h.persists.followedBy_unmoved] at hall

/-- Nothing is moved in the first step. -/
theorem unmoved_trans (h : m.Edits T K m.memory.unmoved m₁) (h' : m₁.Edits T' K σ m₂)
    (hheaders : m₁.memory.headers = m.memory.headers) (hT : ∀ x i, T x i → U x i)
    (hT' : ∀ x i, x ∈ m.memory.headers → T' x i → U x i) : m.Edits U K σ m₂ := by
  have hall := h.trans h' hT fun x x' i hx => by
    obtain ⟨hmem, rfl⟩ := hx
    exact hT' x i hmem
  rwa [h'.persists.unmoved_followedBy hheaders] at hall

theorem eq_iff (h : m.Edits T K σ m₁) {v' w' : Value} (hv : Value.Renames σ v v')
    (hw : Value.Renames σ w w') : v = w ↔ v' = w' :=
  h.persists.eq_iff hv hw

theorem nil (h : m.Edits T K σ m₁) : Value.Renames σ m.nil m₁.nil := h.constants .nil (by decide)

theorem eq_nil_iff (h : m.Edits T K σ m₁) (hv : Value.Renames σ v w) : v = m.nil ↔ w = m₁.nil :=
  h.eq_iff hv h.nil

theorem scratch (h : m.Edits T K σ m₁) :
    List.Forall₂ (Value.Renames σ) m.registers.scratch.toList m₁.registers.scratch.toList := by
  refine List.forall₂_iff_get.2 ⟨h.size.symm, fun i hi hi' => ?_⟩
  obtain ⟨w, hw, hren⟩ := h.held i _ (Array.getElem?_eq_getElem hi)
  obtain ⟨hlt, rfl⟩ := Array.getElem?_eq_some_iff.1 hw
  exact hren

/-! ### What is still there -/

theorem closed (h : m.Edits untouched K σ m₁) : σ.Closed m.memory :=
  fun x x' hx hk i hi => ⟨_, (h.objects x x' hx).fields hk i hi id⟩

/-- **What can be reached is kept.** -/
theorem exists_of_reachable (h : m.Edits T K σ m₁) (hclosed : σ.Closed m.memory)
    {roots : Array Value} {x : Nat} (hroots : ∀ v ∈ roots, ∃ w, Value.Renames σ v w)
    (hx : m.memory.Reachable roots x) : ∃ x', σ x x' := by
  have hkept : ∀ {v w : Value} {a : Address}, Value.Renames σ v w → v = .ref a →
      ∃ x', σ a.offset x' := by
    rintro _ w a hvw rfl
    obtain ⟨b, -, hab⟩ := hvw.of_ref
    exact ⟨b.offset, hab⟩
  induction hx with
  | root hroot =>
    obtain ⟨w, hw⟩ := hroots _ hroot
    exact hkept hw rfl
  | cls _ hclass ih =>
    obtain ⟨x', hx'⟩ := ih
    exact hkept (h.objects _ _ hx').cls hclass
  | @field o i a _ hk hi hfield ih =>
    obtain ⟨x', hx'⟩ := ih
    obtain ⟨w, hw⟩ := hclosed _ _ hx' hk i hi
    exact hkept hw hfield

theorem preserves (h : m.Edits T [] σ m₁) (hclosed : σ.Closed m.memory) {others : List Value}
    (hothers : ∀ v ∈ others, ∃ w, Value.Renames σ v w) : m.Preserves σ others := by
  intro roots x hroots hx
  refine h.exists_of_reachable hclosed (fun v hv => ?_) hx
  rcases hroots v hv with hother | hscratch | ⟨r, rfl⟩
  · exact hothers v hother
  · exact h.exists_of_held hscratch
  · exact h.exists_of_register (List.not_mem_nil)

/-! ### What is read afterwards -/

/-- A field that is not touched. -/
theorem getPtr (h : m.Edits T K σ m₁) (hvw : Value.Renames σ v w) (hu : m.memory.getPtr v i = .ok u)
    (hT : ∀ a : Address, v = .ref a → ¬ T a.offset i) :
    ∃ u', m₁.memory.getPtr w i = .ok u' ∧ Value.Renames σ u u' := by
  cases hvw with
  | small n => cases hu
  | @ref a b hab =>
    obtain ⟨_, heq, -, hk, hlt, rfl⟩ :=
      getPtr_eq_ok h.before.memory (.ref (h.persists.domain _ _ hab)) hu
    obtain rfl := Value.ref.inj heq
    have hedited := h.objects _ _ hab
    refine ⟨_, ?_, hedited.fields hk i hlt (hT a rfl)⟩
    rw [getPtr_of_mem h.after.memory (h.persists.range _ _ hab),
      if_neg (not_not.2 (hedited.kind.trans hk)), if_neg (Nat.not_le.2 (hedited.count.symm ▸ hlt))]

theorem bytes (h : m.Edits T K σ m₁) (hvw : Value.Renames σ v w) {bs : List UInt8}
    (hbs : m.memory.bytes v = .ok bs) : m₁.memory.bytes w = .ok bs := by
  cases hvw with
  | small n => cases hbs
  | @ref a b hab =>
    obtain ⟨_, heq, -, hk, rfl⟩ :=
      bytes_eq_ok h.before.memory (.ref (h.persists.domain _ _ hab)) hbs
    obtain rfl := Value.ref.inj heq
    have hedited := h.objects _ _ hab
    rw [bytes_ref_of_mem h.after.memory (h.persists.range _ _ hab) (hedited.kind.trans hk),
      hedited.count]
    exact congrArg Except.ok (Arena.getBytes_congr fun k hk' => hedited.bytes hk k hk')

theorem hash (h : m.Edits T K σ m₁) (hvw : Value.Renames σ v w) :
    m₁.memory.hash w = m.memory.hash v := by
  cases hvw with
  | small n => rfl
  | @ref a b hab =>
    rw [hash_ref_of_mem h.after.memory (h.persists.range _ _ hab),
      hash_ref_of_mem h.before.memory (h.persists.domain _ _ hab), (h.objects _ _ hab).hash]

theorem length (h : m.Edits T K σ m₁) (hvw : Value.Renames σ v w) :
    m₁.memory.size w = m.memory.size v := by
  cases hvw with
  | small n => rfl
  | @ref a b hab =>
    rw [size_ref_of_mem h.after.memory (h.persists.range _ _ hab),
      size_ref_of_mem h.before.memory (h.persists.domain _ _ hab), (h.objects _ _ hab).count]

theorem getWord (h : m.Edits T K σ m₁) (hvw : Value.Renames σ v w) {x : UInt32}
    (hx : m.memory.getWord v i = .ok x) : m₁.memory.getWord w i = .ok x := by
  cases hvw with
  | small n => cases hx
  | @ref a b hab =>
    obtain ⟨_, heq, -, hk, hlt, rfl⟩ :=
      getWord_eq_ok h.before.memory (.ref (h.persists.domain _ _ hab)) hx
    obtain rfl := Value.ref.inj heq
    have hedited := h.objects _ _ hab
    rw [getWord_of_mem h.after.memory (h.persists.range _ _ hab),
      if_neg (not_not.2 (hedited.kind.trans hk)),
      if_neg (Nat.not_le.2 (hedited.count.symm ▸ hlt)), hedited.words hk i hlt]

theorem classOf (h : m.Edits T K σ m₁) (hvw : Value.Renames σ v w) (hu : m.classOf v = .ok u) :
    ∃ u', m₁.classOf w = .ok u' ∧ Value.Renames σ u u' := by
  cases hvw with
  | small n =>
    obtain rfl := Except.ok.inj hu
    exact ⟨_, rfl, h.constants .shortIntegerClass (by decide)⟩
  | @ref a b hab =>
    rw [Machine.classOf, classOf_ref_of_mem h.before.memory (h.persists.domain _ _ hab)] at hu
    obtain rfl := Except.ok.inj hu
    exact ⟨_, classOf_ref_of_mem h.after.memory (h.persists.range _ _ hab), (h.objects _ _ hab).cls⟩

/-- An object stays one of its class. -/
theorem hasClass (h : m.Edits T K σ m₁) {r : Root} (hr : r ∉ Root.running)
    (hvw : Value.Renames σ v w) (hv : m.classOf v = .ok (m.registers.get r)) :
    m₁.classOf w = .ok (m₁.registers.get r) := by
  obtain ⟨u, hu, hren⟩ := h.classOf hvw hv
  rw [hu, (h.eq_iff hren (h.constants r hr)).1 rfl]

theorem register_eq (h : m.Edits T K σ m₁) {r : Root} (hr : r ∉ Root.running)
    (hvw : Value.Renames σ (m.registers.get r) w) : w = m₁.registers.get r :=
  (h.eq_iff hvw (h.constants r hr)).1 rfl

/-- A field that is not touched can be read before if it can be read afterwards. -/
theorem getPtr_before (h : m.Edits T K σ m₁) (hvw : Value.Renames σ v w)
    (hu : m₁.memory.getPtr w i = .ok u) (hT : ∀ a : Address, v = .ref a → ¬ T a.offset i) :
    ∃ u', m.memory.getPtr v i = .ok u' ∧ Value.Renames σ u' u := by
  cases hvw with
  | small n => cases hu
  | @ref a b hab =>
    have hmem := h.persists.domain _ _ hab
    have hedited := h.objects _ _ hab
    obtain ⟨_, heq, -, hk, hlt, -⟩ :=
      getPtr_eq_ok h.after.memory (.ref (h.persists.range _ _ hab)) hu
    obtain rfl := Value.ref.inj heq
    have hold : m.memory.getPtr (.ref a) i = .ok (m.memory.fieldAt a.offset i) := by
      rw [getPtr_of_mem h.before.memory hmem, if_neg (not_not.2 (hedited.kind.symm.trans hk)),
        if_neg (Nat.not_le.2 (hedited.count ▸ hlt))]
    obtain ⟨u', hu', hren⟩ := h.getPtr (.ref hab) hold hT
    obtain rfl := Except.ok.inj (hu.symm.trans hu')
    exact ⟨_, hold, hren⟩

/-! ### What operations edit -/

/-- Bytes of an object are replaced, which is the same afterwards but for fields that are
touched. -/
theorem store (h : m.Edits T K σ m₁) {lo hi : Nat} {memory : Memory}
    (hs : Stored m₁.memory a.offset lo hi memory)
    (hbody : headerBytes ≤ lo ∨ m₁.memory.kindAt a.offset = .bytes) (hmemory : memory.WellFormed)
    (ha : ∀ x, σ x a.offset → Edited (T x) σ m.memory x memory a.offset) :
    m.Edits T K σ { m₁ with memory } where
  carries := h.carries.store hs hbody hmemory
  constants := h.constants
  running := h.running
  held := h.held
  before := h.before
  after := ⟨hmemory, fun k => hs.holds h.after.memory (h.after.registers.named k),
    fun w hw => hs.holds h.after.memory (h.after.registers.scratch w hw)⟩
  size := h.size
  objects := by
    intro x x' hx
    by_cases hxa : x' = a.offset
    · subst hxa
      exact ha x hx
    · exact (h.objects x x' hx).congr (hs.agreeAt h.after.memory (h.persists.range x x' hx) hxa)

/-- **A field that may be touched is stored to.** -/
theorem setPtr (h : m.Edits T K σ m₁) (ho : m₁.memory.Holds o) (hv : m₁.memory.Holds v)
    (hset : Machine.setPtr o i v m₁ = .ok () m₂)
    (hT : ∀ (a : Address) x, o = .ref a → σ x a.offset → T x i) : m.Edits T K σ m₂ := by
  obtain ⟨memory, hstore, rfl⟩ := setPtr_eq_ok hset
  obtain ⟨a, rfl, hk, -, hs, hfield⟩ := stored_setPtr h.after.memory ho hstore
  have hbody : headerBytes ≤ headerBytes + i * 4 := Nat.le_add_right _ _
  refine h.store hs (.inl hbody) (h.after.memory.setPtr ho hv hstore).1 fun x hx => ?_
  have hedited := h.objects x _ hx
  exact {
    hash := (hs.hashAt hbody).trans hedited.hash
    kind := (hs.kindAt h.after.memory hs.mem).trans hedited.kind
    count := (hs.countAt h.after.memory hs.mem).trans hedited.count
    cls := (hs.classAt h.after.memory hs.mem).symm ▸ hedited.cls
    fields := fun hk j hj hnot => by
      have hji : j ≠ i := fun hc => hnot (hc ▸ hT a x rfl hx)
      rw [hfield, if_neg hji]
      exact hedited.fields hk j hj hnot
    words := fun hk' => absurd (hk'.symm.trans (hedited.kind.symm.trans hk)) (by decide)
    bytes := fun hk' => absurd (hk'.symm.trans (hedited.kind.symm.trans hk)) (by decide) }

/-- An object that was made meanwhile is stored to. -/
theorem setPtr_new (h : m.Edits T K σ m₁) (hnew : ∀ x, ¬ σ x a.offset)
    (ha : a.offset ∈ m₁.memory.headers) (hv : m₁.memory.Holds v)
    (hset : Machine.setPtr (.ref a) i v m₁ = .ok () m₂) : m.Edits T K σ m₂ := by
  refine h.setPtr (.ref ha) hv hset fun b x hb hx => ?_
  obtain rfl := Value.ref.inj hb
  exact absurd hx (hnew x)

/-- A register is changed that may be changed. -/
theorem setRegister (h : m.Edits T K σ m₁) {r : Root} (hr : r ∈ K) (hrunning : r ∈ Root.running)
    (hv : m₁.memory.Holds v) :
    m.Edits T K σ { m₁ with registers := m₁.registers.set r v } := by
  have hget : ∀ r', r' ≠ r → (m₁.registers.set r v).get r' = m₁.registers.get r' :=
    fun r' hne => (Registers.get_set _ _ _ _).trans (if_neg hne)
  exact { h with
    constants := fun r' hr' => by
      rw [hget r' fun hc => hr' (hc ▸ hrunning)]
      exact h.constants r' hr'
    running := fun r' hr' hK => by
      rw [hget r' fun hc => hK (hc ▸ hr)]
      exact h.running r' hr' hK
    after := ⟨h.after.memory, h.after.registers.set r hv⟩ }

/-- Only memory and registers matter. -/
theorem congr (h : m.Edits T K σ m₁) (hmemory : m₂.memory = m₁.memory)
    (hregisters : m₂.registers = m₁.registers) : m.Edits T K σ m₂ where
  carries := hmemory ▸ h.carries
  constants := hregisters ▸ h.constants
  running := hregisters ▸ h.running
  held := hregisters ▸ h.held
  before := h.before
  after := ⟨hmemory ▸ h.after.memory, hmemory ▸ hregisters ▸ h.after.registers⟩
  size := hregisters ▸ h.size
  objects := hmemory ▸ h.objects

/-- Bytes of an object that was made meanwhile are replaced. -/
theorem store_new (h : m.Edits T K σ m₁) (hnew : ∀ x, ¬ σ x a.offset) {lo hi : Nat}
    {memory : Memory} (hs : Stored m₁.memory a.offset lo hi memory)
    (hbody : headerBytes ≤ lo ∨ m₁.memory.kindAt a.offset = .bytes) (hmemory : memory.WellFormed) :
    m.Edits T K σ { m₁ with memory } :=
  h.store hs hbody hmemory fun x hx => absurd hx (hnew x)

end Edits

/-- Fields after a store: the one that was stored to has the new value, all others have theirs. -/
theorem getPtr_after_setPtr {m m₁ : Machine} {o u v : Value} {i : Nat} (hm : m.WellFormed)
    (ho : m.memory.Holds o) (hv : m.memory.Holds v) (h : Machine.setPtr o i v m = .ok () m₁)
    (hu : m.memory.Holds u) (j : Nat) :
    m₁.memory.getPtr u j = if u = o ∧ j = i then .ok v else m.memory.getPtr u j := by
  obtain ⟨memory, hset, rfl⟩ := setPtr_eq_ok h
  exact Memory.getPtr_setPtr hm.memory ho hv hset hu j

/-! ## New objects -/

/-- The object at `a` has been made, of a class, and no object from before is touched. -/
structure Adds (cls : Value) (σ : Renaming) (a : Address) (m m₁ : Machine) : Prop extends
    Edits untouched [] σ m m₁ where
  fresh : ∀ x, ¬ σ x a.offset
  mem : a.offset ∈ m₁.memory.headers
  classAt : Value.Renames σ cls (m₁.memory.classAt a.offset)

section Adding

variable {σ : Renaming} {m m₁ m₂ : Machine} {cls v : Value} {size i : Nat} {kind : BodyKind}
  {a : Address}

theorem Created.adds (hm : m.WellFormed) (h : Created cls size kind σ a m m₁) :
    m.Adds cls σ a m₁ where
  toEdits := h.toShifted.edits hm
  fresh := h.fresh
  mem := h.mem
  classAt := h.classAt

theorem Created.getPtr (h : Created cls size .pointers σ a m m₁) (hi : i < size) :
    m₁.memory.getPtr (.ref a) i = .ok m₁.nil := by
  rw [getPtr_of_mem h.wellFormed.memory h.mem, if_neg (not_not.2 h.kindAt),
    if_neg (Nat.not_le.2 (h.countAt.symm ▸ hi)), h.fields rfl i hi]

theorem Created.length (h : Created cls size kind σ a m m₁) :
    m₁.memory.size (.ref a) = .ok size := by
  rw [size_ref_of_mem h.wellFormed.memory h.mem, h.countAt]

/-- A new object belongs to the class it was made for. -/
theorem Adds.hasClass {r : Root} (h : m.Adds (m.registers.get r) σ a m₁) (hr : r ∉ Root.running) :
    m₁.classOf (.ref a) = .ok (m₁.registers.get r) := by
  rw [Machine.classOf, classOf_ref_of_mem h.after.memory h.mem, h.register_eq hr h.classAt]

/-- The new object is stored to, but for its class and its size. -/
theorem Adds.store (h : m.Adds cls σ a m₁) {lo hi : Nat} {memory : Memory}
    (hs : Stored m₁.memory a.offset lo hi memory)
    (hbody : headerBytes ≤ lo ∨ m₁.memory.kindAt a.offset = .bytes) (hmemory : memory.WellFormed) :
    m.Adds cls σ a { m₁ with memory } where
  toEdits := h.toEdits.store_new h.fresh hs hbody hmemory
  fresh := h.fresh
  mem := (hs.headers h.after.memory).symm ▸ h.mem
  classAt := (hs.classAt h.after.memory h.mem).symm ▸ h.classAt

/-- **Making an object of bytes.** -/
theorem newBytes_eq_ok (hm : m.WellFormed) (hcls : m.memory.Holds cls) {bs : List UInt8}
    (h : newBytes cls bs m = .ok v m₁) :
    ∃ σ a, v = .ref a ∧ m.Adds cls σ a m₁ ∧ m₁.memory.bytes (.ref a) = .ok bs := by
  obtain ⟨object, m₂, hcreate, h⟩ := bind_eq_ok h
  obtain ⟨σ, a, rfl, hcreated⟩ := createObject_eq_ok hm hcls hcreate
  obtain ⟨_, m₃, hset, h⟩ := bind_eq_ok h
  cases h
  obtain ⟨memory, hstore, rfl⟩ := onMemory_eq_ok hset
  have hm₂ := hcreated.wellFormed.memory
  have hwell := (storedData_setBytes hm₂ (.ref hcreated.mem) hstore).wellFormed hm₂
  rw [Memory.setBytes, byteBody_of_mem hm₂ hcreated.mem,
    if_neg (not_not.2 hcreated.kindAt)] at hstore
  obtain ⟨-, rfl⟩ := EStateM.Result.ok.inj hstore
  have hs := stored_bytes hcreated.mem hcreated.kindAt
    (List.length_take_le (m₂.memory.countAt a.offset) bs)
  have hadds := (hcreated.adds hm).store hs (.inl (Nat.le_refl _)) hwell
  refine ⟨σ, a, rfl, hadds, ?_⟩
  have hkind := (hs.kindAt hm₂ hcreated.mem).trans hcreated.kindAt
  rw [bytes_ref_of_mem hwell hadds.mem hkind, hs.countAt hm₂ hcreated.mem, hcreated.countAt,
    List.take_length]
  refine congrArg Except.ok (List.ext_getElem (by simp [Arena.getBytes]) fun i hi hi' => ?_)
  simp only [Arena.getBytes, List.getElem_map, List.getElem_range]
  exact (byteElementAt_setBytes _ _ _ _).trans (by rw [if_pos hi', List.getD_eq_getElem])

/-- The new object gets another hash. -/
theorem Adds.setHash (h : m.Adds cls σ a m₁) {bs : List UInt8} {hash : UInt32}
    (hbs : m₁.memory.bytes (.ref a) = .ok bs)
    (hset : onMemory (Memory.setHash (.ref a) hash) m₁ = .ok () m₂) :
    m.Adds cls σ a m₂ ∧ m₂.memory.bytes (.ref a) = .ok bs ∧
      m₂.memory.hash (.ref a) = .ok (hash &&& hashMask) := by
  have hm₁ := h.after.memory
  obtain ⟨_, heq, -, hkind, rfl⟩ := bytes_eq_ok hm₁ (.ref h.mem) hbs
  obtain rfl := Value.ref.inj heq
  obtain ⟨memory, hstore, rfl⟩ := onMemory_eq_ok hset
  have hwell := (storedData_setHash hm₁ h.mem hkind hstore).wellFormed hm₁
  obtain ⟨j, hj, rfl⟩ := writeAt_eq_ok hstore
  rw [header_of_mem hm₁ h.mem] at hj
  obtain rfl := Except.ok.inj hj
  have hs := stored_hash h.mem (hash &&& hashMask)
  have hadds := h.store hs (.inr hkind) hwell
  refine ⟨hadds, ?_, ?_⟩
  · rw [bytes_ref_of_mem hwell hadds.mem ((hs.kindAt hm₁ h.mem).trans hkind), hs.countAt hm₁ h.mem]
    refine congrArg Except.ok (Arena.getBytes_congr fun k _ => ?_)
    rw [Nat.add_assoc]
    exact hs.body (by decide) (Nat.le_add_right _ _)
  · rw [hash_ref_of_mem hwell hadds.mem, hashAt_writeWord]

end Adding

/-! ## Values that are held -/

section Holding

variable {α : Type} {m m₁ m₂ : Machine} {v w : Value} {act : Nat → Exec α} {x : α}

theorem WellFormed.hold (hm : m.WellFormed) (hv : m.memory.Holds v) :
    (m.withScratch (m.registers.scratch ++ #[v])).WellFormed := by
  refine ⟨hm.memory, hm.registers.named, fun w hw => ?_⟩
  rcases Array.mem_append.1 hw with hw | hw
  · exact hm.registers.scratch w hw
  · rw [Array.mem_singleton.1 hw]
    exact hv

/-- **A value that is held** is renamed with everything else. -/
theorem holding_eq_ok (hm : m.WellFormed) (h : holding v act m = .ok (x, w) m₂) :
    ∃ m₁, act m.registers.scratch.size (m.withScratch (m.registers.scratch ++ #[v])) = .ok x m₁ ∧
      m₂ = m₁.withScratch (m₁.registers.scratch.extract 0 m.registers.scratch.size) ∧
      ∀ T K σ, (m.withScratch (m.registers.scratch ++ #[v])).Edits T K σ m₁ →
        m.Edits T K σ m₂ ∧ Value.Renames σ v w := by
  obtain ⟨base, m₀, hhold, h⟩ := bind_eq_ok h
  obtain ⟨rfl, rfl⟩ := hold_eq_ok hhold
  obtain ⟨x', m₁, hrun, h⟩ := bind_eq_ok h
  obtain ⟨w', m₃, hheld, h⟩ := bind_eq_ok h
  obtain ⟨_, m₄, hrelease, h⟩ := bind_eq_ok h
  cases hheld
  cases h
  obtain ⟨values, hrelease⟩ := discard_eq_ok hrelease
  obtain ⟨-, rfl⟩ := releaseAll_eq_ok hrelease
  refine ⟨m₁, hrun, rfl, fun T K σ hedits => ?_⟩
  have hsize : m₁.registers.scratch.size = m.registers.scratch.size + 1 := by
    rw [hedits.size]
    exact Array.size_append
  have hkept : ∀ (i : Nat) (u : Value), m.registers.scratch[i]? = some u →
      ∃ u', (m₁.registers.scratch.extract 0 m.registers.scratch.size)[i]? = some u' ∧
        Value.Renames σ u u' := by
    intro i u hu
    have hi := (Array.getElem?_eq_some_iff.1 hu).1
    have hpushed : (m.registers.scratch ++ #[v])[i]? = some u := by
      rw [Array.getElem?_append_left hi]
      exact hu
    obtain ⟨u', hu', hren⟩ := hedits.held i u hpushed
    refine ⟨u', ?_, hren⟩
    rw [Array.getElem?_extract, if_pos (by omega), Nat.zero_add]
    exact hu'
  have hlast : (m.registers.scratch ++ #[v])[m.registers.scratch.size]? = some v := by
    rw [Array.getElem?_append_right (Nat.le_refl _), Nat.sub_self]
    rfl
  obtain ⟨u, hu, hren⟩ := hedits.held _ v hlast
  refine ⟨?_, ?_⟩
  · refine { hedits with
      carries := hedits.carries
      held := hkept
      before := hm
      after := ⟨hedits.after.memory, hedits.after.registers.named, fun u hu => ?_⟩
      size := ?_ }
    · exact hedits.after.registers.scratch u (mem_of_mem_extract hu)
    · show (m₁.registers.scratch.extract 0 m.registers.scratch.size).size = _
      rw [Array.size_extract]
      omega
  · show Value.Renames σ v (m₁.registers.scratch.getD m.registers.scratch.size Value.zeroRef)
    rw [Array.getD_eq_getD_getElem?, hu]
    exact hren

theorem holding₂_eq_ok {v₁ v₂ w₁ w₂ : Value} (hm : m.WellFormed) (hv₁ : m.memory.Holds v₁)
    (h : holding₂ v₁ v₂ act m = .ok (x, w₁, w₂) m₂) :
    ∃ m₁ scratch, act m.registers.scratch.size
        (m.withScratch (m.registers.scratch ++ #[v₁] ++ #[v₂])) = .ok x m₁ ∧
      m₂ = m₁.withScratch scratch ∧
      ∀ T K σ, (m.withScratch (m.registers.scratch ++ #[v₁] ++ #[v₂])).Edits T K σ m₁ →
        m.Edits T K σ m₂ ∧ Value.Renames σ v₁ w₁ ∧ Value.Renames σ v₂ w₂ := by
  obtain ⟨⟨⟨x', w₂'⟩, w₁'⟩, m₃, houter, h⟩ := bind_eq_ok h
  cases h
  obtain ⟨m₄, hinner, rfl, hfirst⟩ := holding_eq_ok hm houter
  obtain ⟨m₁, hrun, rfl, hsecond⟩ := holding_eq_ok (hm.hold hv₁) hinner
  refine ⟨m₁, _, hrun, rfl, fun T K σ he => ?_⟩
  obtain ⟨he', hren₂⟩ := hsecond T K σ he
  obtain ⟨he'', hren₁⟩ := hfirst T K σ he'
  exact ⟨he'', hren₁, hren₂⟩

theorem holding₃_eq_ok {v₁ v₂ v₃ w₁ w₂ w₃ : Value} (hm : m.WellFormed) (hv₁ : m.memory.Holds v₁)
    (hv₂ : m.memory.Holds v₂) (h : holding₃ v₁ v₂ v₃ act m = .ok (x, w₁, w₂, w₃) m₂) :
    ∃ m₁ scratch, act m.registers.scratch.size
        (m.withScratch (m.registers.scratch ++ #[v₁] ++ #[v₂] ++ #[v₃])) = .ok x m₁ ∧
      m₂ = m₁.withScratch scratch ∧
      ∀ T K σ, (m.withScratch (m.registers.scratch ++ #[v₁] ++ #[v₂] ++ #[v₃])).Edits T K σ m₁ →
        m.Edits T K σ m₂ ∧ Value.Renames σ v₁ w₁ ∧ Value.Renames σ v₂ w₂ ∧
        Value.Renames σ v₃ w₃ := by
  obtain ⟨⟨⟨x', w₂', w₃'⟩, w₁'⟩, m₃, houter, h⟩ := bind_eq_ok h
  cases h
  obtain ⟨m₄, hinner, rfl, hfirst⟩ := holding_eq_ok hm houter
  obtain ⟨m₁, scratch, hrun, rfl, hothers⟩ := holding₂_eq_ok (hm.hold hv₁) hv₂ hinner
  refine ⟨m₁, _, hrun, rfl, fun T K σ he => ?_⟩
  obtain ⟨he', hren₂, hren₃⟩ := hothers T K σ he
  obtain ⟨he'', hren₁⟩ := hfirst T K σ he'
  exact ⟨he'', hren₁, hren₂, hren₃⟩

end Holding

/-! ## Objects of fields -/

/-- The object at `a` has been made, and all its fields are nil. -/
structure AddsFields (cls : Value) (count : Nat) (σ : Renaming) (a : Address) (m m₁ : Machine) :
    Prop extends Adds cls σ a m m₁ where
  length : m₁.memory.size (.ref a) = .ok count
  fields : ∀ i < count, m₁.memory.getPtr (.ref a) i = .ok m₁.nil

section Fields

variable {m m₁ : Machine} {cls v : Value} {count : Nat} {σ : Renaming} {a : Address}

theorem createFields_eq_ok (hm : m.WellFormed) (hcls : m.memory.Holds cls)
    (h : createObject cls count .pointers m = .ok v m₁) :
    ∃ σ a, v = .ref a ∧ m.AddsFields cls count σ a m₁ := by
  obtain ⟨σ, a, rfl, hc⟩ := createObject_eq_ok hm hcls h
  exact ⟨σ, a, rfl, hc.adds hm, hc.length, fun i hi => hc.getPtr hi⟩

/-- The values held meanwhile do not matter. -/
theorem AddsFields.withScratch {scratch scratch' : Array Value}
    (h : (m.withScratch scratch).AddsFields cls count σ a m₁)
    (he : m.Edits untouched [] σ (m₁.withScratch scratch')) :
    m.AddsFields cls count σ a (m₁.withScratch scratch') where
  toEdits := he
  fresh := h.fresh
  mem := h.mem
  classAt := h.classAt
  length := h.length
  fields := h.fields

end Fields

end Machine

end Smalltalk
