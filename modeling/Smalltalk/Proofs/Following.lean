import Smalltalk.Machine.Step
import Smalltalk.Proofs.Fields
import Smalltalk.Proofs.Safety

/-!
# Following the objects of a machine

What becomes of the objects of a heap is said by a renaming that carries it. For a machine there is
more to say: the registers and the values held refer to the same objects as before, unless they are
changed. A machine *follows* another if it is a later state of it in this sense.

The two ways in which a machine changes its heap are described here once and for all. A store
changes bytes of one object. Making an object may move every other one, but changes nothing in them,
and the new one has nothing but nil in its fields.

## Main definitions

* `Machine.Retains`, `Machine.Follows`: objects are followed from one state of a machine to a later
  one
* `Machine.Shifted`: objects may have been moved, and that is all
* `Machine.Created`: an object has been made

## Main results

* `Machine.Follows.trans`
* `Memory.StoredData.wellFormed`: stores
* `Machine.createObject_eq_ok`: what making an object does
-/

namespace Smalltalk

open Memory Layout

/-! ## Registers -/

namespace Root

/-- The register with a number. The characters stand between the other constants. -/
def ofIndex (i : Nat) : Root :=
  if 4 ≤ i ∧ i < 260 then .character (UInt8.ofNat (i - 4))
  else
    List.getD
      ([.nil, .false, .true, .smalltalk, .shortIntegerClass, .floatClass, .characterClass,
        .stringClass, .symbolClass, .linkClass, .methodClass, .arrayClass, .wordArrayClass,
        .methodContextClass, .blockContextClass, .metaclassClass] ++ running)
      (if i < 4 then i else i - 256) .nil

theorem ofIndex_index (r : Root) : ofIndex r.index = r := by
  cases r with
  | character b =>
    have hb := b.toNat_lt
    have hrange : 4 ≤ 4 + b.toNat ∧ 4 + b.toNat < 260 := by omega
    show ofIndex (4 + b.toNat) = _
    rw [ofIndex, if_pos hrange, Nat.add_sub_cancel_left, UInt8.ofNat_toNat]
  | _ => rfl

theorem index_inj {r r' : Root} (h : r.index = r'.index) : r = r' := by
  rw [← ofIndex_index r, h, ofIndex_index]

theorem index_ofIndex (i : Fin count) : (ofIndex i).index = i := by
  revert i
  decide +kernel

end Root

namespace Registers

variable {m : Memory} {r : Registers} {v : Value}

theorem Held.get (h : r.Held m) (root : Root) : m.Holds (r.get root) :=
  h.named _

theorem get_set (r : Registers) (root root' : Root) (v : Value) :
    (r.set root v).get root' = if root' = root then v else r.get root' := by
  rw [get, get, set]
  by_cases h : root' = root
  · rw [if_pos h, h]
    exact Vector.getElem_set_self root.index.isLt
  · rw [if_neg h]
    exact Vector.getElem_set_ne root.index.isLt root'.index.isLt
      fun hi => h (Root.index_inj (Fin.ext hi)).symm

/-- Registers are the same if each of them is. -/
theorem ext_get {r' : Registers} (hget : ∀ root, r.get root = r'.get root)
    (hscratch : r.scratch = r'.scratch) : r = r' := by
  obtain ⟨named, scratch⟩ := r
  obtain ⟨named', scratch'⟩ := r'
  obtain rfl : scratch = scratch' := hscratch
  refine congrArg (Registers.mk · scratch) (Vector.ext fun i hi => ?_)
  have hi' := hget (.ofIndex i)
  simp only [Registers.get, Root.index_ofIndex ⟨i, hi⟩] at hi'
  exact hi'

/-- Registers are held if each of them is. -/
theorem Held.of_get (hget : ∀ root, m.Holds (r.get root)) (hscratch : ∀ v ∈ r.scratch, m.Holds v) :
    r.Held m := by
  refine ⟨fun i => ?_, hscratch⟩
  have hi := hget (.ofIndex i)
  simpa only [Registers.get, Root.index_ofIndex] using hi

end Registers

namespace Machine

/-! ## Effects -/

section Effects

variable {α β : Type} {m m' : Machine} {r : β}

theorem look_bind (f : Machine → α) (k : α → Exec β) (m : Machine) :
    (look f >>= k) m = k (f m) m := rfl

theorem register_bind (root : Root) (k : Value → Exec β) (m : Machine) :
    (register root >>= k) m = k (m.registers.get root) m := rfl

theorem modify_bind (f : Machine → Machine) (k : Unit → Exec β) (m : Machine) :
    ((modify f : Exec Unit) >>= k) m = k () (f m) := rfl

theorem bind_of_eq_ok {ε : Type} {x : EStateM ε Machine α} {k : α → EStateM ε Machine β} {a : α}
    {m₁ : Machine} (h : x m = .ok a m₁) : (x >>= k) m = k a m₁ := by
  change EStateM.bind x k m = _
  rw [EStateM.bind, h]

theorem bind_eq_ok {ε : Type} {x : EStateM ε Machine α} {k : α → EStateM ε Machine β}
    (h : (x >>= k) m = .ok r m') :
    ∃ b m₁, x m = .ok b m₁ ∧ k b m₁ = .ok r m' := by
  change EStateM.bind x k m = _ at h
  rw [EStateM.bind] at h
  cases hx : x m with
  | ok b m₁ =>
    rw [hx] at h
    exact ⟨b, m₁, rfl, h⟩
  | error e m₁ =>
    rw [hx] at h
    cases h

theorem bind_eq_error {ε : Type} {x : EStateM ε Machine α} {k : α → EStateM ε Machine β} {e : ε}
    (h : (x >>= k) m = .error e m') :
    x m = .error e m' ∨ ∃ a m₁, x m = .ok a m₁ ∧ k a m₁ = .error e m' := by
  change EStateM.bind x k m = _ at h
  rw [EStateM.bind] at h
  cases hx : x m with
  | ok a m₁ =>
    rw [hx] at h
    exact .inr ⟨a, m₁, rfl, h⟩
  | error e' m₁ =>
    rw [hx] at h
    cases h
    exact .inl rfl

theorem read_bind_eq_ok {f : Machine → Except Fault α} {k : α → Exec β}
    (h : (Machine.read f >>= k) m = .ok r m') : ∃ b, f m = .ok b ∧ k b m = .ok r m' := by
  obtain ⟨b, m₁, h₁, hk⟩ := bind_eq_ok h
  rw [Machine.read] at h₁
  cases hf : f m with
  | ok b' =>
    rw [hf] at h₁
    cases h₁
    exact ⟨b, rfl, hk⟩
  | error e =>
    rw [hf] at h₁
    cases h₁

theorem setPtr_eq_ok {v w : Value} {i : Nat} (h : Machine.setPtr v i w m = .ok () m') :
    ∃ memory, Memory.setPtr v i w m.memory = .ok () memory ∧ m' = { m with memory } := by
  rw [Machine.setPtr, onMemory_apply] at h
  cases hrun : Memory.setPtr v i w m.memory with
  | ok u memory =>
    rw [hrun] at h
    cases h
    exact ⟨memory, rfl, rfl⟩
  | error e memory =>
    rw [hrun] at h
    cases h

theorem push_eq_ok {v : Value} (h : push v m = .ok () m') :
    ∃ memory, Memory.setPtr (m.registers.get .stack) m.sp v m.memory = .ok () memory ∧
      storeSp "push" { m with memory, sp := m.sp + 1 } = .ok () m' := by
  rw [push, look_bind, register_bind] at h
  obtain ⟨_, m₁, h₁, h₂⟩ := bind_eq_ok h
  obtain ⟨memory, hmemory, rfl⟩ := setPtr_eq_ok h₁
  exact ⟨memory, hmemory, h₂⟩

theorem pop_eq_ok {v : Value} (h : pop m = .ok v m') :
    ∃ k memory, m.sp = k + 1 ∧ m.memory.getPtr (m.registers.get .stack) k = .ok v ∧
      Memory.setPtr (m.registers.get .stack) k m.nil m.memory = .ok () memory ∧
      storeSp "pop" { m with memory, sp := k } = .ok () m' := by
  rw [pop, look_bind] at h
  dsimp only at h
  cases hsp : m.sp with
  | zero =>
    rw [if_pos hsp] at h
    cases h
  | succ k =>
    rw [if_neg (by omega), modify_bind, register_bind, hsp, Nat.add_sub_cancel] at h
    obtain ⟨value, hvalue, h₁⟩ := read_bind_eq_ok h
    rw [look_bind] at h₁
    obtain ⟨_, m₂, h₂, h₃⟩ := bind_eq_ok h₁
    obtain ⟨memory, hmemory, rfl⟩ := setPtr_eq_ok h₂
    obtain ⟨_, m₄, h₄, h₅⟩ := bind_eq_ok h₃
    cases h₅
    exact ⟨k, memory, rfl, hvalue, hmemory, h₄⟩

theorem smallValue_eq_ok {operation : String} {k : Nat} {v : Value}
    (h : smallValue operation k = .ok v) : ∃ n, v = .small n := by
  rw [smallValue] at h
  obtain hk | ⟨n, hk⟩ := ofInt?_cases k
  · rw [Value.ofNat?, hk] at h
    cases h
  · rw [Value.ofNat?, hk] at h
    cases h
    exact ⟨n, rfl⟩

end Effects

/-! ## Where objects are -/

/-- The object at `x` is in a register. -/
def At (m : Machine) (r : Root) (x : Nat) : Prop :=
  ∃ a : Address, m.registers.get r = .ref a ∧ a.offset = x

/-! ## Held values -/

/-- The machine with other values held. -/
def withScratch (m : Machine) (scratch : Array Value) : Machine :=
  { m with registers := { m.registers with scratch } }

/-- The objects of a machine are retained in a later state of it, and so are the constants, wherever
collections have moved them. -/
structure Retains (σ : Renaming) (m m₁ : Machine) : Prop where
  carries : m.memory.Carries σ m₁.memory
  constants : ∀ r, r ∉ Root.running →
    Value.Renames σ (m.registers.get r) (m₁.registers.get r)

/-- The objects of a machine are followed to a later state of it. The other registers are never
changed but by collections, apart from those listed, and neither are the values held. -/
structure Follows (changed : List Root) (σ : Renaming) (m m₁ : Machine) : Prop extends
    Retains σ m m₁ where
  running : ∀ r ∈ Root.running, r ∉ changed →
    Value.Renames σ (m.registers.get r) (m₁.registers.get r)
  held : ∀ (i : Nat) (v : Value), m.registers.scratch[i]? = some v →
    ∃ w, m₁.registers.scratch[i]? = some w ∧ Value.Renames σ v w

section Reading

variable {m : Machine} {v : Value}

/-- A field that can be read is one of an object. -/
theorem getPtr_eq_ok (h : m.memory.WellFormed) {i : Nat} {w : Value} (hv : m.memory.Holds v)
    (hw : m.memory.getPtr v i = .ok w) :
    ∃ a : Address, v = .ref a ∧ a.offset ∈ m.memory.headers ∧
      m.memory.kindAt a.offset = .pointers ∧ i < m.memory.countAt a.offset ∧
      m.memory.fieldAt a.offset i = w := by
  cases hv with
  | small n => cases hw
  | @ref a ha =>
    rw [getPtr_of_mem h ha] at hw
    by_cases hk : m.memory.kindAt a.offset = .pointers
    · by_cases hi : m.memory.countAt a.offset ≤ i
      · rw [if_neg (not_not.2 hk), if_pos hi] at hw
        cases hw
      · rw [if_neg (not_not.2 hk), if_neg hi] at hw
        exact ⟨a, rfl, ha, hk, by omega, Except.ok.inj hw⟩
    · rw [if_pos hk] at hw
      cases hw

end Reading

/-! ## Following objects -/

namespace Retains

variable {σ τ : Renaming} {m m₁ m₂ : Machine} {a b : Nat} {v w : Value}

theorem persists (h : m.Retains σ m₁) (hm : m.memory.WellFormed) :
    Persists σ m.memory m₁.memory :=
  h.carries.persists hm

theorem trans (hm : m.memory.WellFormed) (h : m.Retains σ m₁) (h' : m₁.Retains τ m₂) :
    m.Retains (σ.followedBy τ) m₂ where
  carries := h.carries.trans hm h'.carries
  constants := fun r hr => (h.constants r hr).followedBy (h'.constants r hr)

/-- An object stays in the register it is in, unless that is changed. -/
theorem at_iff (h : m.Retains σ m₁) (hm : m.memory.WellFormed) {r : Root}
    (hr : Value.Renames σ (m.registers.get r) (m₁.registers.get r)) (hab : σ a b) :
    m.At r a ↔ m₁.At r b := by
  have hp := h.persists hm
  constructor
  · rintro ⟨c, hc, rfl⟩
    rw [hc] at hr
    obtain ⟨c', hc', hcc'⟩ := hr.of_ref
    exact ⟨c', hc', hp.functional _ _ _ hcc' hab⟩
  · rintro ⟨c', hc', rfl⟩
    rw [hc'] at hr
    cases hget : m.registers.get r with
    | small n =>
      rw [hget] at hr
      cases hr
    | ref c =>
      rw [hget] at hr
      cases hr with
      | ref hcc' => exact ⟨c, hget, hp.injective _ _ _ hcc' hab⟩

end Retains

namespace Follows

variable {K K' : List Root} {σ τ : Renaming} {m m₁ m₂ : Machine}

theorem mono (h : m.Follows K σ m₁) (hle : K ⊆ K') : m.Follows K' σ m₁ :=
  { h with running := fun r hr hK => h.running r hr fun hc => hK (hle hc) }

theorem trans (hm : m.memory.WellFormed) (h : m.Follows K σ m₁) (h' : m₁.Follows K τ m₂) :
    m.Follows K (σ.followedBy τ) m₂ where
  toRetains := h.toRetains.trans hm h'.toRetains
  running := fun r hr hK => (h.running r hr hK).followedBy (h'.running r hr hK)
  held := fun i v hv => by
    obtain ⟨w, hw, hvw⟩ := h.held i v hv
    obtain ⟨u, hu, hwu⟩ := h'.held i w hw
    exact ⟨u, hu, hvw.followedBy hwu⟩

theorem exists_of_held (h : m.Follows K σ m₁) {v : Value} (hv : v ∈ m.registers.scratch) :
    ∃ w, Value.Renames σ v w := by
  obtain ⟨i, hi, rfl⟩ := Array.mem_iff_getElem.1 hv
  obtain ⟨w, -, hw⟩ := h.held i _ (Array.getElem?_eq_getElem hi)
  exact ⟨w, hw⟩

theorem exists_of_register (h : m.Follows K σ m₁) {r : Root} (hr : r ∉ K) :
    ∃ w, Value.Renames σ (m.registers.get r) w := by
  by_cases hrunning : r ∈ Root.running
  · exact ⟨_, h.running r hrunning hr⟩
  · exact ⟨_, h.constants r hrunning⟩

end Follows

end Machine

/-! ## Stores that are not to fields -/

namespace Memory

variable {m m' : Memory} {v : Value}

/-- Bytes of an object without fields have been replaced. -/
def StoredData (m m' : Memory) : Prop :=
  ∃ o lo hi, Stored m o lo hi m' ∧ m.kindAt o ≠ .pointers ∧
    (headerBytes ≤ lo ∨ m.kindAt o = .bytes) ∧ (m'.hashAt o).toNat < 1073741824

theorem StoredData.of_body (hm : m.WellFormed) {o lo hi : Nat} (h : Stored m o lo hi m')
    (hk : m.kindAt o ≠ .pointers) (hlo : headerBytes ≤ lo) : m.StoredData m' := by
  refine ⟨o, lo, hi, h, hk, .inl hlo, ?_⟩
  rw [h.hashAt hlo]
  exact hm.hash_lt o h.mem

theorem writeAt_eq_ok {find : Memory → Except Fault Nat} {write : Nat → Memory → Memory}
    (h : writeAt find write m = .ok () m') : ∃ i, find m = .ok i ∧ m' = write i m := by
  rw [writeAt] at h
  cases hfind : find m with
  | ok i =>
    rw [hfind] at h
    cases h
    exact ⟨i, rfl, rfl⟩
  | error e =>
    rw [hfind] at h
    cases h

/-- What the check of an element has found. -/
theorem element_eq_ok (hm : m.WellFormed) (hv : m.Holds v) {operation : String} {i j : Nat}
    {kind : BodyKind} (h : m.element operation v i kind = .ok j) :
    ∃ a : Address, v = .ref a ∧ a.offset ∈ m.headers ∧ m.kindAt a.offset = kind ∧
      i < m.countAt a.offset ∧ j = a.offset + headerBytes + i * kind.elementBytes := by
  cases hv with
  | small n => cases h
  | @ref a ha =>
    rw [element_of_mem hm ha] at h
    by_cases hk : m.kindAt a.offset = kind
    · by_cases hi : m.countAt a.offset ≤ i
      · rw [if_neg (not_not.2 hk), if_pos hi] at h
        cases h
      · rw [if_neg (not_not.2 hk), if_neg hi] at h
        exact ⟨a, rfl, ha, hk, by omega, (Except.ok.inj h).symm⟩
    · rw [if_pos hk] at h
      cases h

theorem storedData_setWord (hm : m.WellFormed) (hv : m.Holds v) {i : Nat} {w : UInt32}
    (h : Memory.setWord v i w m = .ok () m') : m.StoredData m' := by
  obtain ⟨j, hj, rfl⟩ := writeAt_eq_ok h
  obtain ⟨a, rfl, ha, hk, hi, rfl⟩ := element_eq_ok hm hv hj
  refine .of_body hm (stored_element ha (by rw [hk]; rfl) hi w) ?_ (Nat.le_add_right _ _)
  rw [hk]
  decide

theorem storedData_setBytes (hm : m.WellFormed) (hv : m.Holds v) {bs : List UInt8}
    (h : Memory.setBytes v bs m = .ok () m') : m.StoredData m' := by
  cases hv with
  | small n => cases h
  | @ref a ha =>
    rw [Memory.setBytes, byteBody_of_mem hm ha] at h
    by_cases hk : m.kindAt a.offset = .bytes
    · rw [if_neg (not_not.2 hk)] at h
      cases h
      refine .of_body hm (stored_bytes ha hk (List.length_take_le _ _)) ?_ (Nat.le_refl _)
      rw [hk]
      decide
    · rw [if_pos hk] at h
      cases h

theorem storedData_setHash (hm : m.WellFormed) {a : Address} (ha : a.offset ∈ m.headers)
    (hk : m.kindAt a.offset = .bytes) {hash : UInt32}
    (h : Memory.setHash (.ref a) hash m = .ok () m') : m.StoredData m' := by
  obtain ⟨j, hj, rfl⟩ := writeAt_eq_ok h
  rw [header_of_mem hm ha] at hj
  obtain rfl := Except.ok.inj hj
  refine ⟨a.offset, 4, 8, stored_hash ha _, ?_, .inr hk, ?_⟩
  · rw [hk]
    decide
  · rw [hashAt_writeWord, UInt32.toNat_and]
    exact Nat.lt_of_le_of_lt Nat.and_le_right (by decide)

/-- A store to an object without fields leaves a heap. -/
theorem StoredData.wellFormed (hm : m.WellFormed) (h : m.StoredData m') : m'.WellFormed := by
  obtain ⟨o, lo, hi, hstored, hk, -, hhash⟩ := h
  exact hstored.wellFormed hm hhash fun hk' => absurd hk' hk

end Memory

namespace Machine

/-! ## Stores -/

namespace Follows

variable {m m₁ : Machine}

/-- Nothing has moved. -/
theorem unmoved {K : List Root} (hm : m.WellFormed)
    (hcarries : m.memory.Carries m.memory.unmoved m₁.memory)
    (hconstants : ∀ r, r ∉ Root.running → m₁.registers.get r = m.registers.get r)
    (hrunning : ∀ r ∈ Root.running, r ∉ K → m₁.registers.get r = m.registers.get r)
    (hheld : ∀ (i : Nat) (v : Value), m.registers.scratch[i]? = some v →
      m₁.registers.scratch[i]? = some v) : m.Follows K m.memory.unmoved m₁ where
  carries := hcarries
  constants := fun r hr => (hconstants r hr).symm ▸ .unmoved (hm.registers.get r)
  running := fun r hr hK => (hrunning r hr hK).symm ▸ .unmoved (hm.registers.get r)
  held := fun i v hv =>
    ⟨v, hheld i v hv, .unmoved (hm.registers.scratch v (Array.mem_of_getElem? hv))⟩

end Follows

section Stores

variable {m m₁ : Machine} {o v : Value} {i : Nat}

theorem registers_setPtr (h : Machine.setPtr o i v m = .ok () m₁) :
    m₁.registers = m.registers := by
  obtain ⟨memory, -, rfl⟩ := setPtr_eq_ok h
  rfl

theorem onMemory_eq_ok {α : Type} {act : Store α} {a : α} (h : onMemory act m = .ok a m₁) :
    ∃ memory, act m.memory = .ok a memory ∧ m₁ = { m with memory } := by
  rw [onMemory_apply] at h
  cases hact : act m.memory with
  | ok b memory =>
    rw [hact] at h
    cases h
    exact ⟨memory, rfl, rfl⟩
  | error e memory =>
    rw [hact] at h
    cases h

end Stores

/-! ## New objects -/

/-- Objects may have been moved, or dropped, and nothing else has happened to them. -/
structure Shifted (σ : Renaming) (m m₁ : Machine) : Prop where
  follows : m.Follows [] σ m₁
  wellFormed : m₁.WellFormed
  held : m₁.registers.scratch.size = m.registers.scratch.size
  settings : m₁.memory.settings = m.memory.settings
  rest : m₁ = { m with memory := m₁.memory, registers := m₁.registers, log := m₁.log }
  objects : ∀ x x', σ x x' → Matches σ m.memory x m₁.memory x'

/-- The object at `a` has been made, of a class, a size and a kind. -/
structure Created (cls : Value) (size : Nat) (kind : BodyKind) (σ : Renaming) (a : Address)
    (m m₁ : Machine) : Prop extends Shifted σ m m₁ where
  fresh : ∀ x, ¬ σ x a.offset
  mem : a.offset ∈ m₁.memory.headers
  others : ∀ b ∈ m₁.memory.headers, b ≠ a.offset → ∃ x, σ x b
  kindAt : m₁.memory.kindAt a.offset = kind
  countAt : m₁.memory.countAt a.offset = size
  classAt : Value.Renames σ cls (m₁.memory.classAt a.offset)
  fields : kind = .pointers → ∀ i < size, m₁.memory.fieldAt a.offset i = m₁.nil
  words : kind = .words → ∀ i < size, m₁.memory.wordElementAt a.offset i = 0
  bytes : kind = .bytes → ∀ i < size, m₁.memory.byteElementAt a.offset i = 0

section Creating

variable {m m₁ : Machine} {cls v : Value} {size : Nat} {kind : BodyKind}

theorem getElem?_of_forall₂ {ρ : Renaming} {xs ys : Array Value}
    (h : List.Forall₂ (Value.Renames ρ) xs.toList ys.toList) {i : Nat} {v : Value}
    (hv : xs[i]? = some v) : ∃ w, ys[i]? = some w ∧ Value.Renames ρ v w := by
  obtain ⟨hlen, hget⟩ := List.forall₂_iff_get.1 h
  rw [← Array.getElem?_toList] at hv
  obtain ⟨hi, rfl⟩ := List.getElem?_eq_some_iff.1 hv
  have hi' := hlen ▸ hi
  refine ⟨ys.toList[i], ?_, hget i hi hi'⟩
  rw [← Array.getElem?_toList, List.getElem?_eq_getElem hi']

/-- Objects have been moved, and the registers with them. -/
theorem Shifted.of_settles {σ : Renaming} {h : Memory} {r : Registers}
    {log : Log} (hs : Settles σ m.memory m.registers h r) :
    Shifted σ m { m with memory := h, registers := r, log } where
  follows := {
    carries := hs.carries
    constants := fun r _ => hs.registers.named r.index
    running := fun r _ _ => hs.registers.named r.index
    held := fun _ _ hv => getElem?_of_forall₂ hs.registers.scratch hv }
  wellFormed := by
    refine ⟨hs.corresponds.right, fun i => hs.corresponds.holds_right (hs.registers.named i), ?_⟩
    intro w hw
    have hlen := hs.registers.scratch.length_eq
    rw [Array.length_toList, Array.length_toList] at hlen
    obtain ⟨i, hi, rfl⟩ := Array.mem_iff_getElem.1 hw
    obtain ⟨w, hw, hren⟩ := getElem?_of_forall₂ hs.registers.scratch
      (Array.getElem?_eq_getElem (hlen.symm ▸ hi))
    rw [Array.getElem?_eq_getElem hi] at hw
    obtain rfl := Option.some.inj hw
    exact hs.corresponds.holds_right hren
  held := by
    have hlen := hs.registers.scratch.length_eq
    rw [Array.length_toList, Array.length_toList] at hlen
    exact hlen.symm
  settings := hs.settings
  rest := rfl
  objects := hs.corresponds.objects

/-- An object is added to a heap that has been made ready for it. -/
theorem Created.of_settles {σ : Renaming} {h : Memory} {r : Registers}
    {cls₁ : Value} {log : Log} {a : Address} (hs : Settles σ m.memory m.registers h r)
    (hcls : Value.Renames σ cls cls₁) (ha : a.offset = h.free) (hsize : size ≤ maxCount)
    (hfits : h.free + extent size kind ≤ h.limit) :
    Created cls size kind σ a m
      { m with memory := h.place cls₁ size kind (r.get .nil), registers := r, log } := by
  have hheap := hs.corresponds.right
  have hshifted : Shifted σ m { m with memory := h, registers := r, log } := .of_settles hs
  have hnil := hs.corresponds.holds_right (hs.registers.named Root.nil.index)
  have hplaced := wellFormed_place hheap hsize hfits (hs.corresponds.holds_right hcls) hnil
  have hheaders : (h.place cls₁ size kind (r.get .nil)).headers = h.headers ++ [h.free] :=
    headers_place hheap hsize
  have hholds : ∀ {w}, h.Holds w → (h.place cls₁ size kind (r.get .nil)).Holds w :=
    fun hw => holds_place hheap hsize hw
  constructor
  case toShifted =>
    exact {
      follows := {
        carries := hs.carries.place hsize hplaced
        constants := hshifted.follows.constants
        running := hshifted.follows.running
        held := hshifted.follows.held }
      wellFormed := ⟨hplaced, fun i => hholds (hshifted.wellFormed.registers.named i),
        fun w hw => hholds (hshifted.wellFormed.registers.scratch w hw)⟩
      held := hshifted.held
      settings := hs.settings
      rest := rfl
      objects := fun x x' hx => (hs.corresponds.objects x x' hx).congr (fun _ _ => rfl)
        (agreeAt_place hheap (hs.corresponds.range x x' hx)) }
  case fresh => exact fun x hx => free_not_mem hheap (ha ▸ hs.corresponds.range x _ hx)
  case mem =>
    rw [hheaders, ha]
    exact List.mem_append_right _ List.mem_cons_self
  case others =>
    intro b hb hne
    rw [hheaders] at hb
    rcases List.mem_append.1 hb with hb | hb
    · exact hs.total b hb
    · rw [ha] at hne
      exact absurd (List.mem_singleton.1 hb) hne
  case kindAt => rw [ha]; exact kindAt_place hsize
  case countAt => rw [ha]; exact countAt_place hsize
  case classAt => rw [ha, classAt_place]; exact hcls
  case fields =>
    rintro rfl i hi
    rw [ha, fieldAt_place hi]
    rfl
  case words =>
    rintro rfl i hi
    rw [ha]
    exact wordElementAt_place hi
  case bytes =>
    rintro rfl i hi
    rw [ha]
    exact byteElementAt_place hi

/-- The heap is made ready for an object, and then there is room for it or not. -/
theorem allocate_nil_settles (hm : m.WellFormed) (hcls : m.memory.Holds cls) (size : Nat)
    (kind : BodyKind) :
    ∃ σ h r cls₁, Settles σ m.memory m.registers h r ∧ Value.Renames σ cls cls₁ ∧
      allocate cls size kind (m.registers.get .nil) ⟨m.memory, m.registers⟩ =
        placeFitting cls₁ size kind (r.get .nil) ⟨h, r⟩ := by
  obtain ⟨σ, h, r, cls₁, fill₁, hs, hc, hf, hrun, -⟩ :=
    allocate_settles hm.memory hm.registers hcls (hm.registers.get .nil) size kind
  have hfill : fill₁ = r.get .nil :=
    (hs.corresponds.eq_iff hf (hs.registers.named Root.nil.index)).1 rfl
  exact ⟨σ, h, r, cls₁, hs, hc, hrun.trans (by rw [hfill])⟩

/-- **Making an object.** -/
theorem createObject_eq_ok (hm : m.WellFormed) (hcls : m.memory.Holds cls)
    (h : createObject cls size kind m = .ok v m₁) :
    ∃ σ a, v = .ref a ∧ Created cls size kind σ a m m₁ := by
  obtain ⟨σ, h₁, r₁, cls₁, hs, hc, hrun⟩ := allocate_nil_settles hm hcls size kind
  rw [createObject, look_bind, onHeap_apply, Machine.nil, hrun] at h
  by_cases hroom : size ≤ maxCount ∧ h₁.fits (extent size kind)
  · obtain ⟨hfits, a, ha, hplace⟩ :=
      placeFitting_of_fits (r := r₁) hs.corresponds.right cls₁ (r₁.get .nil) hroom
    rw [hplace] at h
    cases h
    exact ⟨σ, a, rfl, .of_settles hs hc ha hroom.1 hfits⟩
  · rw [placeFitting, if_neg hroom] at h
    cases h

/-- A collection moves objects and does nothing else to them. -/
theorem collectGarbage_eq (hm : m.WellFormed) :
    ∃ σ m₁, collectGarbage m = .ok () m₁ ∧ Shifted σ m m₁ ∧
      ∀ b ∈ m₁.memory.headers, ∃ x, σ x b := by
  have hnone : ∀ v ∈ (#[] : Array Value), m.memory.Holds v := by simp
  obtain ⟨σ, h₁, roots₁, hr, hrun, -⟩ :=
    collectWith_relocates #[] hm.memory hm.registers.roots hnone
  have hs := Settles.of_relocation hm.memory hm.registers hnone hr
  unfold collectGarbage
  rw [onHeap_apply, collect_of_collectWith hrun]
  exact ⟨σ, _, rfl, .of_settles hs, hs.total⟩

end Creating

end Machine

end Smalltalk
