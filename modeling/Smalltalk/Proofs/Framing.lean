import Smalltalk.Proofs.Activation
import Smalltalk.Proofs.Editing

/-!
# Making the context of a method

A context is made for a method that is called, and it is filled in over several allocations.
Arguments and receiver are popped off the stack of the caller in between. `Machine.Assembles` says
how far this has come: which operands have been popped, and which fields of the new context are as
they should be. Each step gets it further.

Only old objects and the new context are stored to, and the array of arguments while it is filled.
What has been filled in before are other objects, so it stays.

## Main definitions

* `Invocation`: what a method is called with
* `Machine.FrameField`: what a field of the new context has
* `Machine.Assembles`: the new context has been filled in so far

## Main results

* `Machine.Assembles.alloc`, `Machine.Assembles.store`, `Machine.Assembles.pop`: what steps do
* `Machine.newFrame_assembles`: the new context, when all fields are filled in
-/

namespace Smalltalk

open Memory Machine Layout

/-- What a method is called with. -/
structure Invocation where
  method : Value
  receiver : Value
  args : List Value
  tempSize : Nat
  stackSize : Nat

namespace Machine

/-! ## Counts in fields -/

section Counts

variable {T : Nat → Nat → Prop} {K : List Root} {σ : Renaming} {m m₁ : Machine} {o u v w : Value}
  {i k : Nat}

theorem Edits.indexField (h : m.Edits T K σ m₁) (hvw : Value.Renames σ v w)
    (hk : m.indexField v i = .ok k) (hT : ∀ a : Address, v = .ref a → ¬ T a.offset i) :
    m₁.indexField w i = .ok k := by
  refine indexField_congr (fun u hu hsmall => ?_) hk
  obtain ⟨u', hu', hren⟩ := h.getPtr hvw hu hT
  cases hren with
  | small n => exact hu'
  | ref hab => cases hsmall

theorem Edits.indexField_before (h : m.Edits T K σ m₁) (hvw : Value.Renames σ v w)
    (hk : m₁.indexField w i = .ok k) (hT : ∀ a : Address, v = .ref a → ¬ T a.offset i) :
    m.indexField v i = .ok k := by
  refine indexField_congr (fun u hu hsmall => ?_) hk
  obtain ⟨u', hu', hren⟩ := h.getPtr_before hvw hu hT
  cases hren with
  | small n => exact hu'
  | ref hab => cases hsmall

/-- A count that is stored is read again. -/
theorem indexField_after_setPtr (hm : m.WellFormed) (ho : m.memory.Holds o) {operation : String}
    (hv : smallValue operation k = .ok v) (hset : Machine.setPtr o i v m = .ok () m₁) :
    m₁.indexField o i = .ok k := by
  obtain ⟨j, rfl⟩ := smallValue_eq_ok hv
  show (m₁.memory.getPtr o i >>= expectIndex "field") = _
  rw [getPtr_after_setPtr hm ho (.small j) hset ho, if_pos ⟨rfl, rfl⟩]
  exact expectIndex_of_smallValue hv

/-- No count is nil. -/
theorem indexField_ne_nil (hnil : ∃ a : Address, u = .ref a) (hu : m.memory.getPtr v i = .ok u) :
    m.indexField v i ≠ .ok k := by
  obtain ⟨a, rfl⟩ := hnil
  intro hc
  change (m.memory.getPtr v i >>= expectIndex "field") = _ at hc
  rw [hu] at hc
  cases hc

end Counts

/-! ## Operands -/

section Operands

variable {m m₁ : Machine} {o v : Value} {i : Nat}

theorem setPtr_of_eq_ok {memory : Memory} (h : Memory.setPtr o i v m.memory = .ok () memory) :
    Machine.setPtr o i v m = .ok () { m with memory } := by
  rw [Machine.setPtr, onMemory_apply, h]

theorem peek_succ {d : Nat} (h : m.peek d = .ok v) :
    ∃ k, m.sp = k + d + 1 ∧ m.memory.getPtr (m.registers.get .stack) k = .ok v := by
  unfold peek at h
  split at h
  · cases h
  · exact ⟨m.sp - 1 - d, by omega, h⟩

theorem peek_of_getPtr {d k : Nat} (hsp : m.sp = k + d + 1)
    (h : m.memory.getPtr (m.registers.get .stack) k = .ok v) : m.peek d = .ok v := by
  rw [peek, if_neg (by omega), show m.sp - 1 - d = k by omega]
  exact h

/-- An operand is stored, and the context has the number of operands. -/
theorem storeOperand_edits (hm : m.WellFormed) (hv : m.memory.Holds v)
    (hapart : m.registers.get .stack ≠ m.registers.get .activeContext) {k count : Nat}
    {memory : Memory} {operation : String}
    (hstore : Memory.setPtr (m.registers.get .stack) k v m.memory = .ok () memory)
    (hrun : storeSp operation { m with memory, sp := count } = .ok () m₁) :
    m.Edits (fun x i => m.At .activeContext x ∧ i = Context.sp ∨ m.At .stack x ∧ i = k) []
        m.memory.unmoved m₁ ∧
      m₁ = { m with memory := m₁.memory, sp := count } ∧
      m₁.memory.getPtr (m.registers.get .stack) k = .ok v ∧
      m₁.indexField (m.registers.get .activeContext) Context.sp = .ok count := by
  have hstack := hm.registers.get .stack
  rw [storeSp] at hrun
  obtain ⟨value, hvalue, hrun⟩ := read_bind_eq_ok hrun
  rw [register_bind] at hrun
  have hset := setPtr_of_eq_ok hstore
  have hfirst : m.Edits (fun x i => m.At .activeContext x ∧ i = Context.sp ∨ m.At .stack x ∧
      i = k) [] m.memory.unmoved { m with memory } :=
    (Edits.refl hm).setPtr hstack hv hset fun a x ha hx => .inr ⟨⟨a, ha, hx.2.symm⟩, rfl⟩
  have hm' : { m with memory, sp := count }.WellFormed :=
    ⟨hfirst.after.memory, hfirst.after.registers⟩
  have hactive' : memory.Holds (m.registers.get .activeContext) :=
    hfirst.after.registers.get .activeContext
  have hstack' : memory.Holds (m.registers.get .stack) := hfirst.after.registers.get .stack
  obtain ⟨j, rfl⟩ := smallValue_eq_ok hvalue
  have hfirst' : m.Edits _ [] m.memory.unmoved { m with memory, sp := count } :=
    hfirst.congr rfl rfl
  have hsecond := hfirst'.setPtr hactive' (.small j) hrun
    fun a x ha hx => .inl ⟨⟨a, ha, hx.2.symm⟩, rfl⟩
  refine ⟨hsecond, ?_, ?_, ?_⟩
  · obtain ⟨memory', -, rfl⟩ := setPtr_eq_ok hrun
    rfl
  · rw [getPtr_after_setPtr hm' hactive' (.small j) hrun hstack', if_neg fun hc => hapart hc.1]
    exact (getPtr_after_setPtr hm hstack hv hset hstack k).trans (if_pos ⟨rfl, rfl⟩)
  · exact indexField_after_setPtr hm' hactive' hvalue hrun

/-- **Popping an operand**: its place is nil afterwards, and the context has the number of those
that are left. -/
theorem pop_edits (hm : m.WellFormed)
    (hapart : m.registers.get .stack ≠ m.registers.get .activeContext) (hrun : pop m = .ok v m₁) :
    ∃ k, m.sp = k + 1 ∧ m.memory.getPtr (m.registers.get .stack) k = .ok v ∧
      m.Edits (fun x i => m.At .activeContext x ∧ i = Context.sp ∨ m.At .stack x ∧ i = k) []
        m.memory.unmoved m₁ ∧
      m₁ = { m with memory := m₁.memory, sp := k } ∧
      m₁.memory.getPtr (m.registers.get .stack) k = .ok m.nil ∧
      m₁.indexField (m.registers.get .activeContext) Context.sp = .ok k := by
  obtain ⟨k, memory, hsp, hget, hclear, hstore⟩ := pop_eq_ok hrun
  exact ⟨k, hsp, hget, storeOperand_edits hm (hm.registers.get .nil) hapart hclear hstore⟩

/-- **Pushing an operand**: it is on top afterwards, and the context has the number of operands. -/
theorem push_edits (hm : m.WellFormed) (hv : m.memory.Holds v)
    (hapart : m.registers.get .stack ≠ m.registers.get .activeContext)
    (hrun : push v m = .ok () m₁) :
    m.Edits (fun x i => m.At .activeContext x ∧ i = Context.sp ∨ m.At .stack x ∧ i = m.sp) []
        m.memory.unmoved m₁ ∧
      m₁ = { m with memory := m₁.memory, sp := m.sp + 1 } ∧
      m₁.memory.getPtr (m.registers.get .stack) m.sp = .ok v ∧
      m₁.indexField (m.registers.get .activeContext) Context.sp = .ok (m.sp + 1) := by
  obtain ⟨memory, hset, hstore⟩ := push_eq_ok hrun
  exact storeOperand_edits hm hv hapart hset hstore

end Operands

/-! ## Fields of the new context -/

/-- Nil if there are no values, and otherwise a new array of them. -/
inductive Listing (busy : Nat → Prop) (σ : Renaming) (n : Machine) : List Value → Value → Prop
  | none : Listing busy σ n [] n.nil
  | some {values : List Value} {a : Address} (hsome : values ≠ []) (hidle : ¬ busy a.offset)
      (hclass : n.classOf (.ref a) = .ok (n.registers.get .arrayClass))
      (hsize : n.memory.size (.ref a) = .ok values.length)
      (hget : ∀ i v, values[i]? = some v →
        ∃ w, n.memory.getPtr (.ref a) i = .ok w ∧ Value.Renames σ v w) :
          Listing busy σ n values (.ref a)

/-- What a field of the new context has. It is in the machine `n`, and the call came from `m`. -/
inductive FrameField (busy : Nat → Prop) (e : Invocation) (m : Machine) (σ : Renaming)
    (n : Machine) : Nat → Value → Prop
  | caller {v : Value} (h : Value.Renames σ (m.registers.get .activeContext) v) :
      FrameField busy e m σ n Context.caller v
  | ip : FrameField busy e m σ n Context.ip (.ofByte 0)
  | stack {v : Value} (h : n.Listing busy σ (List.replicate e.stackSize m.nil) v) :
      FrameField busy e m σ n Context.stack v
  | sp : FrameField busy e m σ n Context.sp (.ofByte 0)
  | method {v : Value} (h : Value.Renames σ e.method v) :
      FrameField busy e m σ n MethodContext.method v
  | receiver {v : Value} (h : Value.Renames σ e.receiver v) :
      FrameField busy e m σ n MethodContext.receiver v
  | args {v : Value} (h : n.Listing busy σ e.args v) : FrameField busy e m σ n MethodContext.args v
  | temps {v : Value} (h : n.Listing busy σ (List.replicate e.tempSize m.nil) v) :
      FrameField busy e m σ n MethodContext.temps v
  | state : FrameField busy e m σ n MethodContext.state (FrameState.value .active)

section Fields

variable {busy busy' : Nat → Prop} {T : Nat → Nat → Prop} {K : List Root} {σ τ : Renaming}
  {m n n₁ : Machine} {values : List Value} {v w : Value} {e : Invocation} {f : Nat}

theorem Listing.mono (h : n.Listing busy σ values v) (hle : ∀ x, busy' x → busy x) :
    n.Listing busy' σ values v := by
  cases h with
  | none => exact .none
  | some hsome hidle hclass hsize hget => exact .some hsome (mt (hle _) hidle) hclass hsize hget

/-- An array that nobody stores to keeps its values. -/
theorem Listing.edits (he : n.Edits T K τ n₁) (hT : ∀ x i, T x i → busy x)
    (hbusy : ∀ x x', τ x x' → busy' x' → busy x) (h : n.Listing busy σ values v)
    (hvw : Value.Renames τ v w) : n₁.Listing busy' (σ.followedBy τ) values w := by
  cases h with
  | none =>
    rw [he.register_eq (r := .nil) (by decide) hvw]
    exact .none
  | @some _ a hsome hidle hclass hsize hget =>
    obtain ⟨b, rfl, hab⟩ := hvw.of_ref
    refine .some hsome (mt (hbusy _ _ hab) hidle) (he.hasClass (by decide) hvw hclass)
      ((he.length hvw).trans hsize) fun i u hu => ?_
    obtain ⟨u', hu', hren⟩ := hget i u hu
    obtain ⟨u'', hu'', hren'⟩ := he.getPtr hvw hu' fun c hc => by
      obtain rfl := Value.ref.inj hc
      exact mt (hT _ _) hidle
    exact ⟨u'', hu'', hren.followedBy hren'⟩

theorem FrameField.mono (h : FrameField busy e m σ n f v) (hle : ∀ x, busy' x → busy x) :
    FrameField busy' e m σ n f v := by
  cases h with
  | caller h => exact .caller h
  | ip => exact .ip
  | stack h => exact .stack (h.mono hle)
  | sp => exact .sp
  | method h => exact .method h
  | receiver h => exact .receiver h
  | args h => exact .args (h.mono hle)
  | temps h => exact .temps (h.mono hle)
  | state => exact .state

theorem FrameField.edits (he : n.Edits T K τ n₁) (hT : ∀ x i, T x i → busy x)
    (hbusy : ∀ x x', τ x x' → busy' x' → busy x) (h : FrameField busy e m σ n f v)
    (hvw : Value.Renames τ v w) : FrameField busy' e m (σ.followedBy τ) n₁ f w := by
  cases h with
  | caller h => exact .caller (h.followedBy hvw)
  | ip =>
    cases hvw
    exact .ip
  | stack h => exact .stack (h.edits he hT hbusy hvw)
  | sp =>
    cases hvw
    exact .sp
  | method h => exact .method (h.followedBy hvw)
  | receiver h => exact .receiver (h.followedBy hvw)
  | args h => exact .args (h.edits he hT hbusy hvw)
  | temps h => exact .temps (h.edits he hT hbusy hvw)
  | state =>
    cases hvw
    exact .state

theorem FrameField.eq_of_ip (h : FrameField busy e m σ n f v) (hf : f = Context.ip) :
    v = .ofByte 0 := by
  cases h with
  | ip => rfl
  | _ => exact absurd hf (by decide)

theorem FrameField.eq_of_sp (h : FrameField busy e m σ n f v) (hf : f = Context.sp) :
    v = .ofByte 0 := by
  cases h with
  | sp => rfl
  | _ => exact absurd hf (by decide)

theorem FrameField.renames_of_caller (h : FrameField busy e m σ n f v) (hf : f = Context.caller) :
    Value.Renames σ (m.registers.get .activeContext) v := by
  cases h with
  | caller h => exact h
  | _ => exact absurd hf (by decide)

theorem FrameField.renames_of_method (h : FrameField busy e m σ n f v)
    (hf : f = MethodContext.method) : Value.Renames σ e.method v := by
  cases h with
  | method h => exact h
  | _ => exact absurd hf (by decide)

theorem FrameField.renames_of_receiver (h : FrameField busy e m σ n f v)
    (hf : f = MethodContext.receiver) : Value.Renames σ e.receiver v := by
  cases h with
  | receiver h => exact h
  | _ => exact absurd hf (by decide)

theorem FrameField.listing_of_stack (h : FrameField busy e m σ n f v) (hf : f = Context.stack) :
    n.Listing busy σ (List.replicate e.stackSize m.nil) v := by
  cases h with
  | stack h => exact h
  | _ => exact absurd hf (by decide)

theorem FrameField.eq_of_state (h : FrameField busy e m σ n f v) (hf : f = MethodContext.state) :
    v = FrameState.value .active := by
  cases h with
  | state => rfl
  | _ => exact absurd hf (by decide)

end Fields

/-! ## A context that is being filled in -/

/-- The fields that have been touched when so many operands have been popped. -/
def spent (m : Machine) (count x i : Nat) : Prop :=
  m.At .activeContext x ∧ i = Context.sp ∨ m.At .stack x ∧ m.sp ≤ i + count ∧ i < m.sp

/-- Old objects, the new context and the array that is filled, if there is one. -/
def inUse (σ : Renaming) (c : Address) (extra : Nat → Prop) (x : Nat) : Prop :=
  (∃ y, σ y x) ∨ x = c.offset ∨ extra x

/-- The new context is the object at `c`, and some of its fields are as they should be. So many
operands have been popped for it. Two of its fields share nothing but old objects. -/
structure Assembles (e : Invocation) (m : Machine) (count : Nat) (σ : Renaming) (n : Machine)
    (c : Address) (extra : Nat → Prop) (full free : List Nat) : Prop extends
    Edits (m.spent count) [.newContext] σ m n where
  register : n.registers.get .newContext = .ref c
  fresh : ∀ x, ¬ σ x c.offset
  cls : n.classOf (.ref c) = .ok (n.registers.get .methodContextClass)
  fields : n.memory.size (.ref c) = .ok MethodContext.size
  ip : n.ip = m.ip
  sp : n.sp + count = m.sp
  recorded : n.indexField (n.registers.get .activeContext) Context.sp = .ok n.sp
  cleared : ∀ i, n.sp ≤ i → i < m.sp → n.memory.getPtr (n.registers.get .stack) i = .ok n.nil
  filled : ∀ f ∈ full, ∃ v, n.memory.getPtr (.ref c) f = .ok v ∧
    FrameField (inUse σ c extra) e m σ n f v
  empty : ∀ f ∈ free, n.memory.getPtr (.ref c) f = .ok n.nil
  apart : ∀ f ∈ full, ∀ g ∈ full, f ≠ g → ∀ a : Address, n.memory.getPtr (.ref c) f = .ok (.ref a) →
    n.memory.getPtr (.ref c) g = .ok (.ref a) → ∃ x, σ x a.offset

namespace Assembles

variable {e : Invocation} {m n n₁ : Machine} {count : Nat} {σ τ : Renaming} {a b c : Address}
  {extra extra' : Nat → Prop} {full full' free free' : List Nat} {cls v : Value} {size i f : Nat}
  {kind : BodyKind}

section

variable (h : Assembles e m count σ n c extra full free)

include h

theorem old {r : Root} (hr : r ≠ .newContext) :
    Value.Renames σ (m.registers.get r) (n.registers.get r) := by
  by_cases hrunning : r ∈ Root.running
  · exact h.running r hrunning (by simpa using hr)
  · exact h.constants r hrunning

theorem ne_new {r : Root} (hr : r ≠ .newContext)
    (hnew : ∀ x, ¬ σ x b.offset) : n.registers.get r ≠ .ref b :=
  (h.old hr).ne_new hnew

theorem mono (hextra : ∀ x, extra' x → extra x)
    (hfull : full' ⊆ full) (hfree : free' ⊆ free) :
    Assembles e m count σ n c extra' full' free' :=
  { h with
    filled := fun f hf => by
      obtain ⟨v, hv, hfield⟩ := h.filled f (hfull hf)
      exact ⟨v, hv, hfield.mono fun x hx => hx.imp_right (Or.imp_right (hextra x))⟩
    empty := fun f hf => h.empty f (hfree hf)
    apart := fun f hf g hg => h.apart f (hfull hf) g (hfull hg) }

/-- A field is as it should be. -/
theorem fill
    (hv : n.memory.getPtr (.ref c) f = .ok v) (hfield : FrameField (inUse σ c extra) e m σ n f v)
    (hshare : ∀ g ∈ full, ∀ a : Address, v = .ref a → n.memory.getPtr (.ref c) g = .ok (.ref a) →
      ∃ x, σ x a.offset) :
    Assembles e m count σ n c extra (f :: full) free :=
  { h with
    filled := fun g hg => by
      rcases List.mem_cons.1 hg with rfl | hg
      · exact ⟨v, hv, hfield⟩
      · exact h.filled g hg
    apart := fun g hg g' hg' hne a hga hga' => by
      rcases List.mem_cons.1 hg with rfl | hold
      · rcases List.mem_cons.1 hg' with rfl | hold'
        · exact absurd rfl hne
        · exact hshare g' hold' a (Except.ok.inj (hv.symm.trans hga)) hga'
      · rcases List.mem_cons.1 hg' with rfl | hold'
        · exact hshare g hold a (Except.ok.inj (hv.symm.trans hga')) hga
        · exact h.apart g hold g' hold' hne a hga hga' }

/-- Values from before are shared. -/
theorem fill_old
    (hv : n.memory.getPtr (.ref c) f = .ok v) (hfield : FrameField (inUse σ c extra) e m σ n f v)
    {u : Value} (hold : Value.Renames σ u v) :
    Assembles e m count σ n c extra (f :: full) free :=
  h.fill hv hfield fun g hg a ha _ => by
    subst ha
    cases hold with
    | ref hab => exact ⟨_, hab⟩

/-- **An object is made** meanwhile. -/
theorem alloc (hcreated : Created cls size kind τ a n n₁) :
    ∃ c' : Address, τ c.offset c'.offset ∧
      Assembles e m count (σ.followedBy τ) n₁ c' (· = a.offset) full free ∧
      ∀ f ∈ full, n₁.memory.getPtr (.ref c') f ≠ .ok (.ref a) := by
  have hadds := hcreated.adds h.after
  have hrest := hcreated.rest
  have hmoved := hadds.running .newContext (by decide) (by decide)
  rw [h.register] at hmoved
  obtain ⟨c', hc', hcc'⟩ := hmoved.of_ref
  have hactive := hadds.running .activeContext (by decide) (by decide)
  have hstack := hadds.running .stack (by decide) (by decide)
  have hinj := hadds.persists.injective
  have hfields : ∀ f ∈ full, ∀ b' : Address, n₁.memory.getPtr (.ref c') f = .ok (.ref b') →
      ∃ b : Address, n.memory.getPtr (.ref c) f = .ok (.ref b) ∧ τ b.offset b'.offset := by
    intro f hf b' hb'
    obtain ⟨u, hu, hren⟩ := hadds.getPtr_before (.ref hcc') hb' fun _ _ => id
    cases hren with
    | ref hab => exact ⟨_, hu, hab⟩
  refine ⟨c', hcc', ⟨?edits, hc', ?fresh, ?cls, ?fields, ?ip, ?sp, ?recorded, ?cleared,
    ?filled, ?empty, ?apart⟩, ?unshared⟩
  case unshared =>
    intro f hf hfa
    obtain ⟨b, -, hb⟩ := hfields f hf a hfa
    exact hadds.fresh _ hb
  case apart =>
    intro f hf g hg hne b' hfb hgb
    obtain ⟨b, hfb, hbb'⟩ := hfields f hf b' hfb
    obtain ⟨d, hgb, hdb'⟩ := hfields g hg b' hgb
    obtain rfl : b = d := Address.ext (hinj _ _ _ hbb' hdb')
    obtain ⟨x, hx⟩ := h.apart f hf g hg hne b hfb hgb
    exact ⟨x, b.offset, hx, hbb'⟩
  case edits =>
    exact h.toEdits.trans (hadds.toEdits.mono (fun _ _ hx => hx) (List.nil_subset _))
      (fun _ _ hx => hx) fun _ _ _ _ hc => absurd hc id
  case fresh =>
    rintro x ⟨o, hxo, ho⟩
    obtain rfl := hinj _ _ _ ho hcc'
    exact h.fresh x hxo
  case cls => exact hadds.toEdits.hasClass (by decide) (.ref hcc') h.cls
  case fields => exact (hadds.length (.ref hcc')).trans h.fields
  case ip =>
    rw [hrest]
    exact h.ip
  case sp =>
    rw [hrest]
    exact h.sp
  case recorded =>
    have hsp : n₁.sp = n.sp := by rw [hrest]
    rw [hsp]
    exact hadds.indexField hactive h.recorded fun _ _ => id
  case cleared =>
    intro i hi hi'
    have hsp : n₁.sp = n.sp := by rw [hrest]
    obtain ⟨u, hu, hren⟩ := hadds.getPtr hstack (h.cleared i (hsp ▸ hi) hi') fun _ _ => id
    rw [hu, (hadds.eq_nil_iff hren).1 rfl]
  case filled =>
    intro f hf
    obtain ⟨v, hv, hfield⟩ := h.filled f hf
    obtain ⟨w, hw, hren⟩ := hadds.getPtr (.ref hcc') hv fun _ _ => id
    refine ⟨w, hw, hfield.edits hadds.toEdits (fun _ _ hx => absurd hx id) ?_ hren⟩
    rintro x x' hx (⟨y, o, hyo, ho⟩ | rfl | rfl)
    · exact .inl ⟨y, hinj _ _ _ ho hx ▸ hyo⟩
    · exact .inr (.inl (hinj _ _ _ hx hcc'))
    · exact absurd hx (hadds.fresh x)
  case empty =>
    intro f hf
    obtain ⟨u, hu, hren⟩ := hadds.getPtr (.ref hcc') (h.empty f hf) fun _ _ => id
    rw [hu, (hadds.eq_nil_iff hren).1 rfl]

/-- Objects are stored to that are in use. What has been filled in is not among them. -/
theorem kept {T : Nat → Nat → Prop}
    (he : n.Edits T [] n.memory.unmoved n₁) (hT : ∀ x i, T x i → inUse σ c extra x)
    (hfull : ∀ f ∈ full', f ∈ full ∧ ¬ T c.offset f)
    (hfree : ∀ f ∈ free', f ∈ free ∧ ¬ T c.offset f) :
    n₁.classOf (.ref c) = .ok (n₁.registers.get .methodContextClass) ∧
      n₁.memory.size (.ref c) = .ok MethodContext.size ∧
      (∀ f ∈ full', ∃ v, n₁.memory.getPtr (.ref c) f = .ok v ∧
        FrameField (inUse σ c extra) e m σ n₁ f v) ∧
      (∀ f ∈ free', n₁.memory.getPtr (.ref c) f = .ok n₁.nil) ∧
      ∀ f ∈ full', n₁.memory.getPtr (.ref c) f = n.memory.getPtr (.ref c) f := by
  have hc : n.memory.Holds (.ref c) := h.register ▸ h.after.registers.get .newContext
  have hsame : Value.Renames n.memory.unmoved (.ref c) (.ref c) := .unmoved hc
  refine ⟨he.hasClass (by decide) hsame h.cls, (he.length hsame).trans h.fields, fun f hf => ?_,
    fun f hf => ?_, fun f hf => ?_⟩
  rotate_right
  · obtain ⟨v, hv, -⟩ := h.filled f (hfull f hf).1
    obtain ⟨w, hw, hren⟩ := he.getPtr hsame hv fun b hb => Value.ref.inj hb ▸ (hfull f hf).2
    rw [hv, hw, hren.eq_of_fixed fun _ _ hab => hab.2]
  · obtain ⟨v, hv, hfield⟩ := h.filled f (hfull f hf).1
    obtain ⟨w, hw, hren⟩ := he.getPtr hsame hv fun b hb => Value.ref.inj hb ▸ (hfull f hf).2
    have hfield₁ := hfield.edits he hT (fun x x' hx (hbusy : inUse σ c extra x') =>
      hx.2 ▸ hbusy) hren
    rw [h.persists.followedBy_unmoved] at hfield₁
    exact ⟨w, hw, hfield₁⟩
  · obtain ⟨u, hu, hren⟩ := he.getPtr hsame (h.empty f (hfree f hf).1)
      fun b hb => Value.ref.inj hb ▸ (hfree f hf).2
    rw [hu, (he.eq_nil_iff hren).1 rfl]

/-- Fields that have not changed share what they did. -/
theorem apart_of_eq (hfull : full' ⊆ full)
    (heq : ∀ f ∈ full', n₁.memory.getPtr (.ref c) f = n.memory.getPtr (.ref c) f) :
    ∀ f ∈ full', ∀ g ∈ full', f ≠ g → ∀ a : Address, n₁.memory.getPtr (.ref c) f = .ok (.ref a) →
      n₁.memory.getPtr (.ref c) g = .ok (.ref a) → ∃ x, σ x a.offset :=
  fun f hf g hg hne a hfa hga =>
    h.apart f (hfull hf) g (hfull hg) hne a ((heq f hf).symm.trans hfa) ((heq g hg).symm.trans hga)

/-- **A new object is stored to.** -/
theorem store (hnew : ∀ x, ¬ σ x b.offset)
    (huse : inUse σ c extra b.offset) (hb : n.memory.Holds (.ref b)) (hv : n.memory.Holds v)
    (hset : Machine.setPtr (.ref b) i v n = .ok () n₁)
    (hfull : ∀ f ∈ full', f ∈ full ∧ ¬ (c.offset = b.offset ∧ f = i))
    (hfree : ∀ f ∈ free', f ∈ free ∧ ¬ (c.offset = b.offset ∧ f = i)) :
    Assembles e m count σ n₁ c extra full' free' ∧ n₁.memory.getPtr (.ref b) i = .ok v ∧
      n.Edits (fun x j => x = b.offset ∧ j = i) [] n.memory.unmoved n₁ := by
  have hold : n.Edits (fun x j => x = b.offset ∧ j = i) [] n.memory.unmoved n₁ := by
    refine (Edits.refl h.after).setPtr hb hv hset fun a x ha hx => ⟨?_, rfl⟩
    rw [Value.ref.inj ha]
    exact hx.2
  have hregisters : n₁.registers = n.registers := registers_setPtr hset
  obtain ⟨memory, -, hrest⟩ := setPtr_eq_ok hset
  have hsp : n₁.sp = n.sp := by rw [hrest]
  obtain ⟨hclass, hsize, hfilled, hempty, hsame⟩ :=
    h.kept hold (fun x j hx => hx.1 ▸ huse) hfull hfree
  refine ⟨⟨h.toEdits.setPtr_new hnew hb.mem hv hset, hregisters ▸ h.register, h.fresh,
    hclass, hsize,
    (congrArg Machine.ip hrest).trans h.ip, hsp ▸ h.sp, ?recorded, ?cleared, hfilled, hempty,
    h.apart_of_eq (fun f hf => (hfull f hf).1) hsame⟩, ?_, hold⟩
  case recorded =>
    rw [hregisters, hsp]
    refine hold.indexField (.unmoved (h.after.registers.get .activeContext)) h.recorded
      fun a ha hc => ?_
    exact h.ne_new (by decide) hnew (ha.trans (congrArg Value.ref (Address.ext hc.1)))
  case cleared =>
    intro j hj hj'
    have hne : ¬ (n.registers.get .stack = .ref b ∧ j = i) :=
      fun hc => h.ne_new (by decide) hnew hc.1
    rw [hregisters, getPtr_after_setPtr h.after hb hv hset (h.after.registers.get .stack),
      if_neg hne, h.cleared j (hsp ▸ hj) hj']
    exact congrArg Except.ok (congrArg (·.get .nil) hregisters.symm)
  · rw [getPtr_after_setPtr h.after hb hv hset hb, if_pos ⟨rfl, rfl⟩]

/-- **An operand is popped** off the stack of the caller. Only old objects are stored to. -/
theorem pop (hapart : m.registers.get .stack ≠ m.registers.get .activeContext)
    (hrun : Machine.pop n = .ok v n₁) :
    ∃ k u, m.sp = k + count + 1 ∧ m.memory.getPtr (m.registers.get .stack) k = .ok u ∧
      Value.Renames σ u v ∧ Assembles e m (count + 1) σ n₁ c extra full free ∧
      n.Edits (fun x _ => ∃ y, σ y x) [] n.memory.unmoved n₁ := by
  have hactive : Value.Renames σ (m.registers.get .activeContext)
      (n.registers.get .activeContext) :=
    h.old (by decide)
  have hstack : Value.Renames σ (m.registers.get .stack) (n.registers.get .stack) :=
    h.old (by decide)
  obtain ⟨k, hsp, hget, hedits, hrest, hclear, hrecorded⟩ :=
    pop_edits h.after (mt (h.eq_iff hstack hactive).2 hapart) hrun
  have hcount := h.sp
  have hat : ∀ {r : Root}, r ≠ .newContext → ∀ {x x'}, σ x x' → n.At r x' → m.At r x :=
    fun hr _ _ hx hx' => (h.at_iff h.before.memory (h.old hr) hx).2 hx'
  have hexists : ∀ {r : Root}, r ≠ .newContext → ∀ {x'}, n.At r x' → ∃ x, σ x x' := by
    intro r hr x' hx'
    obtain ⟨x, hx, -⟩ := Follows.exists_at_of (h.old hr) hx'
    exact ⟨x, hx⟩
  obtain ⟨u, hu, hren⟩ := h.getPtr_before hstack hget fun a ha => by
    rintro (⟨hx, -⟩ | ⟨-, hi, -⟩)
    · exact hapart (ha.trans hx.get_eq.symm)
    · omega
  have hall : m.Edits (m.spent (count + 1)) [.newContext] σ n₁ := by
    refine h.toEdits.trans_unmoved (hedits.mono (fun _ _ hx => hx) (List.nil_subset _))
      (fun x i hx => hx.imp_right fun hx => ⟨hx.1, by omega, hx.2.2⟩) ?_
    rintro x x' i hx (⟨hx', hi⟩ | ⟨hx', rfl⟩)
    · exact .inl ⟨hat (by decide) hx hx', hi⟩
    · exact .inr ⟨hat (by decide) hx hx', by omega, by omega⟩
  have hold : n.Edits (fun x _ => ∃ y, σ y x) [] n.memory.unmoved n₁ := by
    refine hedits.mono ?_ (List.Subset.refl _)
    rintro x i (⟨hx, -⟩ | ⟨hx, -⟩)
    · exact hexists (by decide) hx
    · exact hexists (by decide) hx
  have hregisters : n₁.registers = n.registers := by rw [hrest]
  have hsp₁ : n₁.sp = k := by rw [hrest]
  have hnot : ¬ ∃ y, σ y c.offset := not_exists.2 h.fresh
  obtain ⟨hclass, hsize, hfilled, hempty, hsame⟩ := h.kept hold (fun x j hx => .inl hx)
    (fun f hf => ⟨hf, hnot⟩) fun f hf => ⟨hf, hnot⟩
  refine ⟨k, u, by omega, hu, hren, ⟨hall, hregisters ▸ h.register, h.fresh, hclass, hsize,
    ?ip, ?sp, ?recorded, ?cleared, hfilled, hempty, h.apart_of_eq (List.Subset.refl _) hsame⟩, hold⟩
  case ip =>
    rw [hrest]
    exact h.ip
  case sp => omega
  case recorded =>
    rw [hregisters, hsp₁]
    exact hrecorded
  case cleared =>
    intro j hj hj'
    have hnil : n₁.nil = n.nil := congrArg (·.get .nil) hregisters
    rw [hregisters, hnil]
    by_cases hjk : j = k
    · rw [hjk, hclear]
    · have hlater := h.cleared j (by omega) hj'
      obtain ⟨w, hw, hren⟩ := hedits.getPtr (.unmoved (h.after.registers.get .stack)) hlater
        fun a ha => by
          rintro (⟨hx, -⟩ | ⟨-, hi⟩)
          · exact hapart ((h.eq_iff hstack hactive).2 (ha.trans hx.get_eq.symm))
          · exact hjk hi
      rw [hw, (hedits.eq_nil_iff hren).1 rfl, hnil]

/-- **Operands are popped into an array**, so that the one on top comes last. -/
theorem popInto (hapart : m.registers.get .stack ≠ m.registers.get .activeContext)
    (hnew : ∀ x, ¬ σ x a.offset) (huse : extra a.offset) (hac : c.offset ≠ a.offset)
    (ha : n.memory.Holds (.ref a)) {left : Nat}
    (hrun : Machine.popInto (.ref a) left n = .ok () n₁) :
    Assembles e m (count + left) σ n₁ c extra full free ∧
      n.Edits (fun x j => (∃ y, σ y x) ∨ x = a.offset ∧ j < left) [] n.memory.unmoved n₁ ∧
      ∀ j < left, ∃ i u w, i + (count + left) = m.sp + j ∧
        m.memory.getPtr (m.registers.get .stack) i = .ok u ∧
        n₁.memory.getPtr (.ref a) j = .ok w ∧ Value.Renames σ u w := by
  induction left generalizing n count with
  | zero =>
    cases hrun
    exact ⟨h, .refl h.after, fun j hj => absurd hj (Nat.not_lt_zero j)⟩
  | succ left ih =>
    obtain ⟨v, n₂, hpop, hrun⟩ := bind_eq_ok hrun
    obtain ⟨_, n₃, hset, hrun⟩ := bind_eq_ok hrun
    obtain ⟨k, u, hk, hu, hren, h₂, hedits₂⟩ := h.pop hapart hpop
    have ha₂ := hedits₂.holds (.unmoved ha)
    obtain ⟨h₃, hget, hedits₃⟩ := h₂.store hnew (.inr (.inr huse)) ha₂ (h₂.holds hren) hset
      (fun f hf => ⟨hf, fun hc => hac hc.1⟩) fun f hf => ⟨hf, fun hc => hac hc.1⟩
    have ha₃ := hedits₃.holds (.unmoved ha₂)
    obtain ⟨h₁, hedits₁, hrest⟩ := ih h₃ ha₃ hrun
    rw [show count + (left + 1) = count + 1 + left by omega]
    have hstep : n.Edits (fun x j => (∃ y, σ y x) ∨ x = a.offset ∧ j < left + 1) []
        n.memory.unmoved n₃ :=
      hedits₂.trans_unmoved hedits₃ (fun x j hx => .inl hx)
        fun x x' j hx hj => .inr ⟨hx.2.trans hj.1, by omega⟩
    refine ⟨h₁, hstep.trans_unmoved hedits₁ (fun x j hx => hx) ?_, fun j hj => ?_⟩
    · rintro x _ j ⟨-, rfl⟩ (hj | ⟨hx, hj⟩)
      · exact .inl hj
      · exact .inr ⟨hx, by omega⟩
    · by_cases hjl : j = left
      · subst hjl
        obtain ⟨w, hw, hvw⟩ := hedits₁.getPtr (.unmoved ha₃) hget fun b hb => by
          obtain rfl := Value.ref.inj hb
          rintro (⟨y, hy⟩ | hc)
          · exact hnew y hy
          · omega
        obtain rfl := hvw.eq_of_fixed fun _ _ hab => hab.2
        exact ⟨k, u, _, by omega, hu, hw, hren⟩
      · exact hrest j (by omega)

/-- A count of the method is what it was. One that was popped would be nil. -/
theorem newMethodCount (hnil : ∃ a : Address, m.nil = .ref a) (hf : f ≠ Context.sp) {k : Nat}
    (hrun : Machine.newMethodCount f n = .ok k n₁) :
    n₁ = n ∧ m.indexField (m.registers.get .newMethod) f = .ok k := by
  unfold Machine.newMethodCount at hrun
  rw [register_bind] at hrun
  obtain ⟨hk, rfl⟩ := read_eq_ok hrun
  have hmethod : Value.Renames σ (m.registers.get .newMethod) (n₁.registers.get .newMethod) :=
    h.old (by decide)
  have hstack : Value.Renames σ (m.registers.get .stack) (n₁.registers.get .stack) :=
    h.old (by decide)
  refine ⟨rfl, h.indexField_before hmethod hk fun a ha => ?_⟩
  rintro (⟨-, hc⟩ | ⟨hx, hlow, hhigh⟩)
  · exact hf hc
  · have hsame := (h.eq_iff hmethod hstack).1 (ha.trans hx.get_eq.symm)
    have hsp := h.sp
    obtain ⟨b, hb⟩ := hnil
    have hnil₁ := h.nil
    rw [hb] at hnil₁
    obtain ⟨b', hb', -⟩ := hnil₁.of_ref
    refine indexField_ne_nil ⟨b', hb'⟩ (h.cleared f (by omega) hhigh) (k := k) ?_
    rw [← hsame]
    exact hk

/-- The new context gets a field. -/
theorem setField (hv : n.memory.Holds v)
    (hset : Machine.setPtr (.ref c) f v n = .ok () n₁) (hfull : f ∉ full)
    (hfield : FrameField (inUse σ c extra) e m σ n f v)
    (hshare : ∀ g ∈ full, ∀ a : Address, v = .ref a → n.memory.getPtr (.ref c) g = .ok (.ref a) →
      ∃ x, σ x a.offset) (hfree : ∀ g ∈ free', g ∈ free ∧ g ≠ f) :
    Assembles e m count σ n₁ c extra (f :: full) free' := by
  have hc : n.memory.Holds (.ref c) := h.register ▸ h.after.registers.get .newContext
  have huse : inUse σ c extra c.offset := .inr (.inl rfl)
  have hfull' : ∀ g ∈ full, g ∈ full ∧ ¬ (c.offset = c.offset ∧ g = f) :=
    fun g hg => ⟨hg, fun hgf => hfull (hgf.2 ▸ hg)⟩
  obtain ⟨h₁, hget, hedits⟩ := h.store h.fresh huse hc hv hset hfull'
    fun g hg => ⟨(hfree g hg).1, fun hgf => (hfree g hg).2 hgf.2⟩
  have hfield₁ := hfield.edits hedits (fun x j hx => hx.1 ▸ huse)
    (fun x x' hx (hbusy : inUse σ c extra x') => hx.2 ▸ hbusy) (.unmoved hv)
  rw [h.persists.followedBy_unmoved] at hfield₁
  refine h₁.fill hget hfield₁ fun g hg a ha hga => hshare g hg a ha ?_
  have hother : ¬ (Value.ref c = .ref c ∧ g = f) := fun hgf => hfull (hgf.2 ▸ hg)
  rwa [getPtr_after_setPtr h.after hc hv hset hc, if_neg hother] at hga

/-- The new context gets a field that is a value from before. -/
theorem setField_old {u : Value}
    (hold : Value.Renames σ u v) (hset : Machine.setPtr (.ref c) f v n = .ok () n₁)
    (hfull : f ∉ full) (hfield : FrameField (inUse σ c extra) e m σ n f v)
    (hfree : ∀ g ∈ free', g ∈ free ∧ g ≠ f) :
    Assembles e m count σ n₁ c extra (f :: full) free' := by
  refine h.setField (h.holds hold) hset hfull hfield (fun g hg a ha _ => ?_) hfree
  subst ha
  cases hold with
  | ref hab => exact ⟨_, hab⟩

/-- **The new context gets an array** of nils, unless it would be empty. -/
theorem addArray (hf : f ∈ free) (hfull : f ∉ full)
    (hfield : ∀ {busy : Nat → Prop} {σ : Renaming} {n : Machine} {v : Value},
      n.Listing busy σ (List.replicate size m.nil) v → FrameField busy e m σ n f v)
    (hfree : ∀ g ∈ free', g ∈ free ∧ g ≠ f) (hrun : Machine.addArray size f n = .ok () n₁) :
    ∃ σ' c', Assembles e m count σ' n₁ c' (fun _ => False) (f :: full) free' := by
  unfold Machine.addArray at hrun
  cases size with
  | zero =>
    cases hrun
    exact ⟨σ, c, (h.fill_old (h.empty f hf) (hfield .none) h.nil).mono (fun _ hx => absurd hx id)
      (List.Subset.refl _) fun g hg => (hfree g hg).1⟩
  | succ size =>
    rw [if_pos (Nat.succ_pos size), register_bind] at hrun
    obtain ⟨array, n₂, hcreate, hrun⟩ := bind_eq_ok hrun
    rw [register_bind] at hrun
    obtain ⟨τ, a, rfl, hcreated⟩ :=
      createObject_eq_ok h.after (h.after.registers.get .arrayClass) hcreate
    have hadds := hcreated.adds h.after
    obtain ⟨c', hcc', h₂, hunshared⟩ := h.alloc hcreated
    rw [h₂.register] at hrun
    refine ⟨_, c', (h₂.mono (fun _ hx => absurd hx id) (List.Subset.refl _)
      (List.Subset.refl _)).setField (.ref hcreated.mem) hrun hfull (hfield ?_)
      (fun g hg b hb hgb => absurd (hb ▸ hgb) (hunshared g hg)) hfree⟩
    refine .some (List.cons_ne_nil _ _) ?_ (hadds.hasClass (by decide)) ?_ fun i v hv => ?_
    · rintro (⟨y, o, -, ho⟩ | hc | hfalse)
      · exact hadds.fresh o ho
      · exact hadds.fresh _ (hc ▸ hcc')
      · exact hfalse
    · rw [hcreated.length, List.length_replicate]
    · obtain ⟨hi, rfl⟩ := List.getElem?_eq_some_iff.1 hv
      rw [List.getElem_replicate]
      rw [List.length_replicate] at hi
      exact ⟨_, hcreated.getPtr hi, h₂.nil⟩

end

/-- **The new context gets the arguments**, in the order in which they were pushed. -/
theorem moveArguments (h : Assembles e m 0 σ n c extra full free)
    (hapart : m.registers.get .stack ≠ m.registers.get .activeContext)
    (hargs : ∀ i j u, i + e.args.length = m.sp + j →
      m.memory.getPtr (m.registers.get .stack) i = .ok u → j < e.args.length → e.args[j]? = some u)
    (hf : MethodContext.args ∈ free) (hfull : MethodContext.args ∉ full)
    (hfree : ∀ g ∈ free', g ∈ free ∧ g ≠ MethodContext.args)
    (hrun : Machine.moveArguments e.args.length n = .ok () n₁) :
    (∃ σ' c', Assembles e m e.args.length σ' n₁ c' (fun _ => False)
      (MethodContext.args :: full) free') ∧
      ∀ j < e.args.length, ∃ i u, i + e.args.length = m.sp + j ∧
        m.memory.getPtr (m.registers.get .stack) i = .ok u := by
  unfold Machine.moveArguments at hrun
  by_cases hlength : e.args.length = 0
  · rw [if_neg (by omega)] at hrun
    cases hrun
    have hnone : FrameField (inUse σ c extra) e m σ n MethodContext.args n.nil :=
      .args (List.eq_nil_of_length_eq_zero hlength ▸ .none)
    rw [hlength]
    exact ⟨⟨σ, c, (h.fill_old (h.empty _ hf) hnone h.nil).mono (fun _ hx => absurd hx id)
      (List.Subset.refl _) fun g hg => (hfree g hg).1⟩, fun j hj => absurd hj (Nat.not_lt_zero j)⟩
  · rw [if_pos (by omega), register_bind] at hrun
    obtain ⟨array, n₂, hcreate, hrun⟩ := bind_eq_ok hrun
    rw [register_bind] at hrun
    obtain ⟨_, n₃, hset, hpop⟩ := bind_eq_ok hrun
    obtain ⟨τ, a, rfl, hcreated⟩ :=
      createObject_eq_ok h.after (h.after.registers.get .arrayClass) hcreate
    have hadds := hcreated.adds h.after
    have ha : n₂.memory.Holds (.ref a) := .ref hcreated.mem
    obtain ⟨c', hcc', h₂, hunshared⟩ := h.alloc hcreated
    have hac : c'.offset ≠ a.offset := fun hc => hadds.fresh _ (hc ▸ hcc')
    have hnew : ∀ x, ¬ (σ.followedBy τ) x a.offset := by
      rintro x ⟨o, -, ho⟩
      exact hadds.fresh o ho
    rw [h₂.register] at hset
    have hc : n₂.memory.Holds (.ref c') := h₂.register ▸ h₂.after.registers.get .newContext
    have hfull' : ∀ g ∈ full, g ∈ full ∧ ¬ (c'.offset = c'.offset ∧ g = MethodContext.args) :=
      fun g hg => ⟨hg, fun hgf => hfull (hgf.2 ▸ hg)⟩
    obtain ⟨h₃, hget, hedits₃⟩ := h₂.store h₂.fresh (.inr (.inl rfl)) hc ha hset hfull'
      fun g hg => ⟨(hfree g hg).1, fun hgf => (hfree g hg).2 hgf.2⟩
    have ha₃ := hedits₃.holds (.unmoved ha)
    obtain ⟨h₁, hedits₁, hpopped⟩ := h₃.popInto hapart hnew rfl hac ha₃ hpop
    rw [Nat.zero_add] at h₁ hpopped
    have hclass := hedits₁.hasClass (by decide) (.unmoved ha₃)
      (hedits₃.hasClass (by decide) (.unmoved ha) (hadds.hasClass (by decide)))
    have hlength₁ := (hedits₁.length (.unmoved ha₃)).trans
      ((hedits₃.length (.unmoved ha)).trans hcreated.length)
    have hc₃ := hedits₃.holds (.unmoved hc)
    have hkept : ∀ g (b : Address), Value.ref c' = .ref b →
        ¬ ((∃ y, (σ.followedBy τ) y b.offset) ∨ b.offset = a.offset ∧ g < e.args.length) := by
      intro g b hb
      obtain rfl := Value.ref.inj hb
      rintro (⟨y, hy⟩ | ⟨hc, -⟩)
      · exact h₂.fresh y hy
      · exact hac hc
    obtain ⟨w, hw, hren⟩ := hedits₁.getPtr (.unmoved hc₃) hget (hkept _)
    obtain rfl := hren.eq_of_fixed fun _ _ hab => hab.2
    have hsame : ∀ g ∈ full, n₁.memory.getPtr (.ref c') g ≠ .ok (.ref a) := by
      intro g hg hga
      obtain ⟨u, hu, hren⟩ := hedits₁.getPtr_before (.unmoved hc₃) hga (hkept g)
      obtain rfl := hren.eq_of_fixed fun _ _ hab => hab.2
      have hother : ¬ (Value.ref c' = .ref c' ∧ g = MethodContext.args) :=
        fun hgf => hfull (hgf.2 ▸ hg)
      rw [getPtr_after_setPtr h₂.after hc ha hset hc, if_neg hother] at hu
      exact hunshared g hg hu
    refine ⟨⟨_, c', (h₁.mono (fun _ hx => absurd hx id) (List.Subset.refl _)
      (List.Subset.refl _)).fill hw (.args ?_) fun g hg b hb hgb => absurd (hb ▸ hgb) (hsame g hg)⟩,
      fun j hj => ?_⟩
    swap
    · obtain ⟨i, u, -, hi, hu, -⟩ := hpopped j hj
      exact ⟨i, u, hi, hu⟩
    refine .some (fun hc => hlength (congrArg List.length hc)) ?_ hclass hlength₁ fun j v hv => ?_
    · rintro (⟨y, hy⟩ | hc | hfalse)
      · exact hnew y hy
      · exact hac hc.symm
      · exact hfalse
    · have hj := (List.getElem?_eq_some_iff.1 hv).1
      obtain ⟨i, u, w, hi, hu, hw, hren⟩ := hpopped j hj
      obtain rfl := Option.some.inj (hv.symm.trans (hargs i j u hi hu hj))
      exact ⟨w, hw, hren⟩

end Assembles

/-! ## The whole context -/

/-- The counts of the method are those of the call, and its operands are on the stack. -/
structure Calls (m : Machine) (e : Invocation) : Prop where
  stackSize : m.indexField e.method Method.stackSize = .ok e.stackSize
  argSize : m.indexField e.method Method.argSize = .ok e.args.length
  tempSize : m.indexField e.method Method.tempSize = .ok e.tempSize
  receiver : ∃ i, i + e.args.length + 1 = m.sp ∧
    m.memory.getPtr (m.registers.get .stack) i = .ok e.receiver
  args : ∀ j v, e.args[j]? = some v → ∃ i, i + e.args.length = m.sp + j ∧
    m.memory.getPtr (m.registers.get .stack) i = .ok v

/-- The operand at a place, or nil if there is none. -/
def operand (m : Machine) (i : Nat) : Value :=
  (m.memory.getPtr (m.registers.get .stack) i).toOption.getD m.nil

/-- The call of the new method with so many arguments. -/
def invocation (m : Machine) (argc tempSize stackSize : Nat) : Invocation where
  method := m.registers.get .newMethod
  receiver := m.operand (m.sp - (argc + 1))
  args := (List.range argc).map fun j => m.operand (m.sp + j - argc)
  tempSize
  stackSize

section Frames

variable {m n : Machine} {e : Invocation} {v : Value} {i : Nat}

theorem operand_eq (hv : m.memory.getPtr (m.registers.get .stack) i = .ok v) : m.operand i = v := by
  rw [operand, hv]
  rfl

theorem getElem?_invocation {argc tempSize stackSize j : Nat} (hj : j < argc)
    (hi : i + argc = m.sp + j) :
    (m.invocation argc tempSize stackSize).args[j]? = some (m.operand i) := by
  have hplace : m.sp + j - argc = i := by omega
  simp [invocation, hj, hplace]

/-- **A context is made** for a method. Nothing in it is filled in yet. -/
theorem makeIn_assembles (hm : m.WellFormed)
    (hrecorded : m.indexField (m.registers.get .activeContext) Context.sp = .ok m.sp)
    (hrun : makeIn .newContext .methodContextClass MethodContext.size m = .ok () n) :
    ∃ σ c, Assembles e m 0 σ n c (fun _ => False) [] (List.range MethodContext.size) := by
  rw [makeIn, register_bind] at hrun
  obtain ⟨_, m₂, hcreate, hset⟩ := bind_eq_ok hrun
  obtain ⟨σ, c, rfl, hcreated⟩ :=
    createObject_eq_ok hm (hm.registers.get .methodContextClass) hcreate
  have hadds := hcreated.adds hm
  have hrest := hcreated.rest
  have hc : m₂.memory.Holds (.ref c) := .ref hcreated.mem
  have hother : ∀ r, r ≠ .newContext →
      (m₂.registers.set .newContext (.ref c)).get r = m₂.registers.get r :=
    fun r hr => (Registers.get_set _ _ _ _).trans (if_neg hr)
  have hip : m₂.ip = m.ip := by rw [hrest]
  have hsp : m₂.sp = m.sp := by rw [hrest]
  cases hset
  refine ⟨σ, c, ⟨?edits, ?register, hadds.fresh, ?cls, hcreated.length, hip, hsp, ?recorded,
    ?cleared,
    fun f hf => absurd hf List.not_mem_nil, ?empty, fun f hf => absurd hf List.not_mem_nil⟩⟩
  case edits =>
    exact (hadds.toEdits.mono (fun _ _ hx => absurd hx id) (List.nil_subset _)).setRegister
      List.mem_cons_self (by decide) hc
  case register => exact (Registers.get_set _ _ _ _).trans (if_pos rfl)
  case cls =>
    rw [hother _ (by decide)]
    exact hadds.hasClass (by decide)
  case recorded =>
    rw [hother _ (by decide)]
    show m₂.indexField _ _ = .ok m₂.sp
    rw [hsp]
    exact hadds.indexField (hadds.running .activeContext (by decide) (by decide)) hrecorded
      fun _ _ => id
  case cleared => exact fun i hi hi' => absurd (hsp ▸ hi : m.sp ≤ i) (Nat.not_le.2 hi')
  case empty =>
    intro f hf
    exact (hcreated.getPtr (List.mem_range.1 hf)).trans (congrArg _ (hother .nil (by decide)).symm)

/-- **The context of a method that is called** is complete when its fields are filled in. Arguments
and receiver have come from the stack. -/
theorem newFrame_assembles (hm : m.WellFormed) (hnil : ∃ a : Address, m.nil = .ref a)
    (hapart : m.registers.get .stack ≠ m.registers.get .activeContext)
    (hrecorded : m.indexField (m.registers.get .activeContext) Context.sp = .ok m.sp)
    (hrun : newFrame m = .ok () n) :
    ∃ e σ c, m.registers.get .newMethod = e.method ∧ m.Calls e ∧
      Assembles e m (e.args.length + 1) σ n c (fun _ => False) (List.range MethodContext.size)
      [] := by
  unfold newFrame fillFrame at hrun
  obtain ⟨_, n₁, hmake, hrun₁⟩ := bind_eq_ok hrun
  obtain ⟨stackSize, n₁', hstackSize, hrun₁'⟩ := bind_eq_ok hrun₁
  obtain ⟨_, n₂, hstack, hrun₂⟩ := bind_eq_ok hrun₁'
  rw [register_bind, register_bind] at hrun₂
  obtain ⟨_, n₃, hcaller, hrun₃⟩ := bind_eq_ok hrun₂
  obtain ⟨_, n₄, hip, hrun₄⟩ := bind_eq_ok hrun₃
  obtain ⟨_, n₅, hsp, hrun₅⟩ := bind_eq_ok hrun₄
  rw [register_bind] at hrun₅
  obtain ⟨_, n₆, hmethod, hrun₆⟩ := bind_eq_ok hrun₅
  obtain ⟨_, n₇, hstate, hrun₇⟩ := bind_eq_ok hrun₆
  obtain ⟨argc, n₇', hargSize, hrun₇'⟩ := bind_eq_ok hrun₇
  obtain ⟨_, n₈, hargs, hrun₈⟩ := bind_eq_ok hrun₇'
  obtain ⟨receiver, n₉, hpop, hrun₉⟩ := bind_eq_ok hrun₈
  rw [register_bind] at hrun₉
  obtain ⟨_, n₁₀, hreceiver, hrun₁₀⟩ := bind_eq_ok hrun₉
  obtain ⟨tempSize, n₁₀', htempSize, htemps⟩ := bind_eq_ok hrun₁₀
  have hlength : (m.invocation argc tempSize stackSize).args.length = argc := by simp [invocation]
  generalize he : m.invocation argc tempSize stackSize = e at hlength
  obtain ⟨σ₁, c₁, h₁⟩ := makeIn_assembles (e := e) hm hrecorded hmake
  obtain ⟨rfl, hcountS⟩ := h₁.newMethodCount hnil (by decide) hstackSize
  have hsizeS : e.stackSize = stackSize := he ▸ rfl
  have hsizeT : e.tempSize = tempSize := he ▸ rfl
  have heMethod : m.registers.get .newMethod = e.method := he ▸ rfl
  obtain ⟨σ₂, c₂, h₂⟩ := h₁.addArray (f := Context.stack) (by decide) (by decide)
    (fun h => .stack (hsizeS ▸ h))
    (by decide : ∀ g ∈ [MethodContext.args, MethodContext.temps], _) hstack
  rw [h₂.register] at hcaller hip hsp hmethod hstate
  have hold₂ : Value.Renames σ₂ (m.registers.get .activeContext)
      (n₂.registers.get .activeContext) :=
    h₂.old (by decide)
  have h₃ := h₂.setField_old hold₂ hcaller (by decide) (.caller hold₂)
    (by decide : ∀ g ∈ [MethodContext.args, MethodContext.temps], _)
  have h₄ := h₃.setField_old (.small _) hip (by decide) .ip
    (by decide : ∀ g ∈ [MethodContext.args, MethodContext.temps], _)
  have h₅ := h₄.setField_old (.small _) hsp (by decide) .sp
    (by decide : ∀ g ∈ [MethodContext.args, MethodContext.temps], _)
  have hold₅ : Value.Renames σ₂ e.method (n₅.registers.get .newMethod) :=
    heMethod ▸ h₅.old (by decide)
  have h₆ := h₅.setField_old hold₅ hmethod (by decide) (.method hold₅)
    (by decide : ∀ g ∈ [MethodContext.args, MethodContext.temps], _)
  have h₇ := h₆.setField_old (.small _) hstate (by decide) .state
    (by decide : ∀ g ∈ [MethodContext.args, MethodContext.temps], _)
  obtain ⟨rfl, hcountA⟩ := h₇.newMethodCount hnil (by decide) hargSize
  rw [← hlength] at hargs
  have hplaces : ∀ i j u, i + e.args.length = m.sp + j →
      m.memory.getPtr (m.registers.get .stack) i = .ok u → j < e.args.length →
      e.args[j]? = some u := by
    intro i j u hi hu hj
    rw [hlength] at hi hj
    rw [← he, getElem?_invocation hj hi, operand_eq hu]
  obtain ⟨⟨σ₈, c₈, h₈⟩, hpushed⟩ := h₇.moveArguments hapart hplaces (by decide) (by decide)
    (by decide : ∀ g ∈ [MethodContext.temps], _) hargs
  obtain ⟨k, u, hk, hu, hren, h₉, -⟩ := h₈.pop hapart hpop
  have huReceiver : e.receiver = u := by
    rw [← he, ← operand_eq hu]
    exact congrArg m.operand (by omega)
  rw [h₉.register] at hreceiver
  have h₁₀ := h₉.setField_old hren hreceiver (by decide) (.receiver (huReceiver ▸ hren))
    (by decide : ∀ g ∈ [MethodContext.temps], _)
  obtain ⟨rfl, hcountT⟩ := h₁₀.newMethodCount hnil (by decide) htempSize
  obtain ⟨σ₁₁, c₁₁, h₁₁⟩ := h₁₀.addArray (f := MethodContext.temps) (by decide) (by decide)
    (fun h => .temps (hsizeT ▸ h)) (by decide : ∀ g ∈ ([] : List Nat), _) htemps
  refine ⟨e, σ₁₁, c₁₁, heMethod, ⟨?_, ?_, ?_, ⟨k, by omega, huReceiver ▸ hu⟩, fun j v hv => ?_⟩,
    h₁₁.mono (fun _ hx => hx) (by decide) (List.Subset.refl _)⟩
  · rw [← heMethod, hsizeS]
    exact hcountS
  · rw [← heMethod, hlength]
    exact hcountA
  · rw [← heMethod, hsizeT]
    exact hcountT
  · obtain ⟨i, u, hi, hu⟩ := hpushed j (List.getElem?_eq_some_iff.1 hv).1
    have hplace := hplaces i j u hi hu (List.getElem?_eq_some_iff.1 hv).1
    exact ⟨i, hi, Option.some.inj (hv.symm.trans hplace) ▸ hu⟩

end Frames

end Machine

end Smalltalk
