import Smalltalk.Proofs.Calling

/-!
# Returning to the sender

A method that returns makes the context active again that called it. All registers are loaded from
that context, so they are what they were when the message was sent if nobody has touched the fields
they are loaded from. The answer takes the place that the receiver had on the stack.

What the called method may do until then is left open: it may make and move objects and store to any
other fields. It is described by the fields that it touches.

## Main definitions

* `Machine.loads`: the fields that registers are loaded from
* `Machine.suspended`: the fields that a context needs to go on
* `Machine.Resumed`: the sender has gone on

## Main results

* `Machine.Mirrored.activate`: a context is activated again
* `Machine.Entered.resumes`: the sender goes on when the method returns
-/

namespace Smalltalk

open Memory Machine Layout

namespace Machine

/-! ## Effects that go well -/

section Succeeding

variable {m : Machine} {o u v place : Value} {i j : Nat} {operation : String}

/-- A field that can be read can be stored to. -/
theorem exists_setPtr (hm : m.WellFormed) (ho : m.memory.Holds o) (hu : m.memory.getPtr o i = .ok u)
    (v : Value) : ∃ m₁, Machine.setPtr o i v m = .ok () m₁ := by
  obtain ⟨a, rfl, ha, hk, hlt, -⟩ := getPtr_eq_ok hm.memory ho hu
  refine ⟨{ m with memory := m.memory.writeWord (a.offset + headerBytes + i * 4) v.encode }, ?_⟩
  rw [Machine.setPtr, onMemory_apply, Memory.setPtr, writeAt, element_of_mem hm.memory ha,
    if_neg (not_not.2 hk), if_neg (Nat.not_le.2 hlt)]
  rfl

/-- Objects have so few fields that the number of any of them can be recorded. -/
theorem exists_smallValue (hm : m.WellFormed) (ho : m.memory.Holds o)
    (hu : m.memory.getPtr o i = .ok u) (hj : j ≤ i + 1) : ∃ w, smallValue operation j = .ok w := by
  obtain ⟨a, rfl, -, -, hlt, -⟩ := getPtr_eq_ok hm.memory ho hu
  have hcount : m.memory.countAt a.offset ≤ 0x1FFFFFFF := by
    rw [countAt, SizeWord.count, UInt32.toNat_and]
    exact Nat.and_le_right
  rw [smallValue, ofNat?_of_lt (by omega)]
  exact ⟨_, rfl⟩

/-- An operand can be stored where there was one, and the number of operands be recorded where there
is a place for it. -/
theorem exists_storeOperand (hm : m.WellFormed) (hv : m.memory.Holds v)
    (hu : m.memory.getPtr (m.registers.get .stack) i = .ok u)
    (hplace : m.memory.getPtr (m.registers.get .activeContext) Context.sp = .ok place)
    (hj : j ≤ i + 1) :
    ∃ memory m₁, Memory.setPtr (m.registers.get .stack) i v m.memory = .ok () memory ∧
      storeSp operation { m with memory, sp := j } = .ok () m₁ := by
  have hstack := hm.registers.get .stack
  have hactive := hm.registers.get .activeContext
  obtain ⟨m₂, hset⟩ := exists_setPtr hm hstack hu v
  have hafter := ((Edits.refl hm).setPtr (T := fun _ _ => True) (K := []) hstack hv hset
    fun _ _ _ _ => trivial).after
  have hread : ∃ u', m₂.memory.getPtr (m.registers.get .activeContext) Context.sp = .ok u' := by
    rw [getPtr_after_setPtr hm hstack hv hset hactive]
    split
    · exact ⟨v, rfl⟩
    · exact ⟨place, hplace⟩
  obtain ⟨memory, hmemory, rfl⟩ := setPtr_eq_ok hset
  obtain ⟨w, hw⟩ := exists_smallValue hm hstack hu hj
  obtain ⟨u', hu'⟩ := hread
  have hafter' : { m with memory, sp := j }.WellFormed := ⟨hafter.memory, hafter.registers⟩
  obtain ⟨m₁, hstore⟩ := exists_setPtr hafter' (hafter.registers.get .activeContext) hu' w
  refine ⟨memory, m₁, hmemory, ?_⟩
  rw [storeSp]
  refine (bind_of_eq_ok (read_of_eq_ok hw)).trans ?_
  rw [register_bind]
  exact hstore

/-- An operand can be popped. -/
theorem exists_pop (hm : m.WellFormed) (hsp : m.sp = i + 1)
    (hv : m.memory.getPtr (m.registers.get .stack) i = .ok v)
    (hplace : m.memory.getPtr (m.registers.get .activeContext) Context.sp = .ok place) :
    ∃ m₁, pop m = .ok v m₁ := by
  obtain ⟨memory, m₁, hmemory, hstore⟩ :=
    exists_storeOperand hm (hm.registers.get .nil) hv hplace (Nat.le_succ i)
  refine ⟨m₁, ?_⟩
  rw [pop, look_bind]
  dsimp only
  rw [if_neg (by omega), modify_bind, register_bind, hsp, Nat.add_sub_cancel]
  refine (bind_of_eq_ok (read_of_eq_ok hv)).trans ?_
  rw [look_bind]
  refine (bind_of_eq_ok (setPtr_of_eq_ok (m := { m with sp := i }) hmemory)).trans ?_
  exact (bind_of_eq_ok hstore).trans rfl

/-- A place on the stack can be pushed to. -/
theorem exists_push (hm : m.WellFormed) (hv : m.memory.Holds v)
    (hu : m.memory.getPtr (m.registers.get .stack) m.sp = .ok u)
    (hplace : m.memory.getPtr (m.registers.get .activeContext) Context.sp = .ok place) :
    ∃ m₁, push v m = .ok () m₁ := by
  obtain ⟨memory, m₁, hmemory, hstore⟩ := exists_storeOperand hm hv hu hplace (Nat.le_refl _)
  refine ⟨m₁, ?_⟩
  rw [push, look_bind, register_bind]
  refine (bind_of_eq_ok (setPtr_of_eq_ok hmemory)).trans ?_
  rw [modify_bind]
  exact hstore

end Succeeding

/-! ## Activating a context again -/

/-- The fields that registers are loaded from when the active context is activated. -/
def loads (m : Machine) (x i : Nat) : Prop :=
  m.At .activeContext x ∧ (i = Context.stack ∨ i = BlockContext.home) ∨
    m.At .homeContext x ∧
      i ∈ [MethodContext.method, MethodContext.receiver, MethodContext.args, MethodContext.temps] ∨
    m.At .method x ∧ (i = Method.code ∨ i = Method.literals)

section Activating

variable {T : Nat → Nat → Prop} {K : List Root} {σ : Renaming} {m n : Machine} {v w home : Value}
  {ip sp x i : Nat}

theorem At.eq_of_at {r r' : Root} (h : m.At r x) (h' : m.At r' x) :
    m.registers.get r = m.registers.get r' := by
  obtain ⟨a, ha, rfl⟩ := h
  exact ha.trans h'.get_eq.symm

/-- The progress of a context is recorded elsewhere. -/
theorem loads.ne_progress (hmethod : m.registers.get .method ≠ m.registers.get .activeContext)
    (h : m.loads x i) (hx : m.At .activeContext x) : i ≠ Context.ip ∧ i ≠ Context.sp := by
  rcases h with ⟨-, rfl | rfl⟩ | ⟨-, hi⟩ | ⟨hx', -⟩
  · decide
  · decide
  · exact (by decide : ∀ i ∈ [MethodContext.method, MethodContext.receiver, MethodContext.args,
      MethodContext.temps], i ≠ Context.ip ∧ i ≠ Context.sp) i hi
  · exact absurd (hx'.eq_of_at hx) hmethod

theorem loads.not_stack (hapart : ∀ r ∈ [Root.activeContext, .homeContext, .method],
    m.registers.get .stack ≠ m.registers.get r) (h : m.loads x i) : ¬ m.At .stack x := by
  intro hx
  rcases h with ⟨hx', -⟩ | ⟨hx', -⟩ | ⟨hx', -⟩
  · exact hapart .activeContext (by decide) (hx.eq_of_at hx')
  · exact hapart .homeContext (by decide) (hx.eq_of_at hx')
  · exact hapart .method (by decide) (hx.eq_of_at hx')

/-- A context keeps its home. -/
theorem Edits.homeOf (h : m.Edits T K σ n) (hvw : Value.Renames σ v w)
    (hhome : m.homeOf v = .ok home)
    (hT : ∀ a : Address, v = .ref a → ¬ T a.offset BlockContext.home) :
    ∃ home', n.homeOf w = .ok home' ∧ Value.Renames σ home home' := by
  obtain ⟨cls, hcls, hkind, hmethod⟩ := homeOf_eq_ok_iff.1 hhome
  have hclass : ∀ {u u' : Value} {cls}, Value.Renames σ u u' → m.memory.classOf u = .ok cls →
      ∃ cls', n.memory.classOf u' = .ok cls' ∧ Value.Renames σ cls cls' := by
    intro u u' cls hren hcls
    cases hren with
    | small k => cases hcls
    | ref hab => exact h.classOf (.ref hab) hcls
  obtain ⟨cls', hcls', hren⟩ := hclass hvw hcls
  have hsame : ∀ {u u' : Value}, Value.Renames σ u u' →
      m.memory.classOf u = .ok (m.registers.get .methodContextClass) →
      n.memory.classOf u' = .ok (n.registers.get .methodContextClass) := by
    intro u u' hu hcls
    obtain ⟨cls', hcls', hren⟩ := hclass hu hcls
    rw [hcls', h.register_eq (by decide) hren]
  have hiff := h.eq_iff hren (h.constants .methodContextClass (by decide))
  split at hkind
  · rename_i hc
    subst hkind
    exact ⟨w, homeOf_eq_ok_iff.2 ⟨cls', hcls', by rw [if_pos (hiff.1 hc)], hsame hvw hmethod⟩, hvw⟩
  · rename_i hc
    obtain ⟨home', hhome', hren'⟩ := h.getPtr hvw hkind.2 hT
    have hblock := (h.eq_iff hren (h.constants .blockContextClass (by decide))).1 hkind.1
    refine ⟨home', homeOf_eq_ok_iff.2 ⟨cls', hcls', ?_, hsame hren' hmethod⟩, hren'⟩
    rw [if_neg (mt hiff.2 hc)]
    exact ⟨hblock, hhome'⟩

theorem setRegister_bind {r : Root} {k : Unit → Exec Unit} :
    (setRegister r v >>= k) m = k () { m with registers := m.registers.set r v } := rfl

theorem loadRegister_bind {r : Root} {o : Value} {i : Nat} {k : Unit → Exec Unit}
    (hv : m.memory.getPtr o i = .ok v) :
    (loadRegister r o i >>= k) m = k () { m with registers := m.registers.set r v } := by
  refine bind_of_eq_ok ?_
  rw [loadRegister]
  exact bind_of_eq_ok (read_of_eq_ok hv)

/-- **A context is activated again** after edits that do not touch what is loaded from it. Its
registers are what they were. -/
theorem Mirrored.activate (hm : m.Mirrored) (he : m.Edits T K σ n)
    (hT : ∀ x i, m.loads x i → ¬ T x i) (hv : Value.Renames σ (m.registers.get .activeContext) v)
    (hip : n.indexField v Context.ip = .ok ip) (hsp : n.indexField v Context.sp = .ok sp) :
    ∃ n₁, activateContext v n = .ok () n₁ ∧ n₁.ip = ip ∧ n₁.sp = sp ∧
      ∀ r ∈ switched, Value.Renames σ (m.registers.get r) (n₁.registers.get r) := by
  have hmirror := mirrored_iff.1 hm
  have hat : ∀ {r : Root} {a : Address}, m.registers.get r = .ref a → m.At r a.offset :=
    fun ha => ⟨_, ha, rfl⟩
  obtain ⟨home, hhome, hhomeR⟩ := he.homeOf hv hmirror.home
    fun a ha => hT _ _ (.inl ⟨hat ha, .inr rfl⟩)
  have hof : ∀ {i u}, m.memory.getPtr (m.registers.get .homeContext) i = .ok u →
      i ∈ [MethodContext.method, MethodContext.receiver, MethodContext.args, MethodContext.temps] →
      ∃ u', n.memory.getPtr home i = .ok u' ∧ Value.Renames σ u u' :=
    fun hu hi => he.getPtr hhomeR hu fun a ha => hT _ _ (.inr (.inl ⟨hat ha, hi⟩))
  obtain ⟨method, hmethod, hmethodR⟩ := hof hmirror.method (by decide)
  obtain ⟨receiver, hreceiver, hreceiverR⟩ := hof hmirror.receiver (by decide)
  obtain ⟨args, hargs, hargsR⟩ := hof hmirror.args (by decide)
  obtain ⟨temps, htemps, htempsR⟩ := hof hmirror.temps (by decide)
  obtain ⟨stack, hstack, hstackR⟩ := he.getPtr hv hmirror.stack
    fun a ha => hT _ _ (.inl ⟨hat ha, .inl rfl⟩)
  obtain ⟨code, hcode, hcodeR⟩ := he.getPtr hmethodR hmirror.code
    fun a ha => hT _ _ (.inr (.inr ⟨hat ha, .inl rfl⟩))
  obtain ⟨literals, hliterals, hliteralsR⟩ := he.getPtr hmethodR hmirror.literals
    fun a ha => hT _ _ (.inr (.inr ⟨hat ha, .inr rfl⟩))
  have hrun : ∃ n₁, activateContext v n = .ok () n₁ := by
    apply Exists.intro
    refine (bind_of_eq_ok (read_of_eq_ok hhome)).trans ?_
    refine (bind_of_eq_ok (read_of_eq_ok hmethod)).trans ?_
    refine setRegister_bind.trans (setRegister_bind.trans (setRegister_bind.trans ?_))
    refine (loadRegister_bind (by exact hreceiver)).trans ?_
    refine (loadRegister_bind (by exact hargs)).trans ?_
    refine (loadRegister_bind (by exact htemps)).trans ?_
    refine (loadRegister_bind (by exact hstack)).trans ?_
    refine (loadRegister_bind (by exact hcode)).trans ?_
    refine (loadRegister_bind (by exact hliterals)).trans ?_
    refine (bind_of_eq_ok (read_of_eq_ok (by exact hip))).trans ?_
    refine (modify_bind _ _ _).trans ?_
    exact bind_of_eq_ok (read_of_eq_ok (by exact hsp))
  obtain ⟨n₁, hrun⟩ := hrun
  have hactivated := activateContext_eq_ok hrun
  have hhome₁ : n₁.registers.get .homeContext = home :=
    Except.ok.inj (hactivated.home.symm.trans hhome)
  have hmethod₁ : n₁.registers.get .method = method :=
    Except.ok.inj ((hhome₁ ▸ hactivated.method).symm.trans hmethod)
  refine ⟨n₁, hrun, Except.ok.inj (hactivated.ip.symm.trans hip),
    Except.ok.inj (hactivated.sp.symm.trans hsp), ?_⟩
  simp only [switched, List.forall_mem_cons]
  refine ⟨hactivated.active.symm ▸ hv, hhome₁.symm ▸ hhomeR, hmethod₁.symm ▸ hmethodR, ?_,
    ?_, ?_, ?_, ?_, ?_, fun r hr => absurd hr List.not_mem_nil⟩
  · exact Except.ok.inj ((hhome₁ ▸ hactivated.receiver).symm.trans hreceiver) ▸ hreceiverR
  · exact Except.ok.inj ((hhome₁ ▸ hactivated.args).symm.trans hargs) ▸ hargsR
  · exact Except.ok.inj ((hhome₁ ▸ hactivated.temps).symm.trans htemps) ▸ htempsR
  · exact Except.ok.inj (hactivated.stack.symm.trans hstack) ▸ hstackR
  · exact Except.ok.inj ((hmethod₁ ▸ hactivated.code).symm.trans hcode) ▸ hcodeR
  · exact Except.ok.inj ((hmethod₁ ▸ hactivated.literals).symm.trans hliterals) ▸ hliteralsR

/-- A method context is its own home. -/
theorem Mirrored.home_eq (hm : m.Mirrored) {c : Address}
    (hactive : m.registers.get .activeContext = .ref c)
    (hclass : m.classOf (.ref c) = .ok (m.registers.get .methodContextClass)) :
    m.registers.get .homeContext = .ref c := by
  obtain ⟨cls, hcls, hkind, -⟩ := homeOf_eq_ok_iff.1 (mirrored_iff.1 hm).home
  rw [hactive] at hcls hkind
  obtain rfl := Except.ok.inj (hclass.symm.trans hcls)
  rwa [if_pos rfl] at hkind

/-- The registers mirror the active context as long as what is loaded from it is not touched. -/
theorem Mirrored.kept (hm : m.Mirrored) (he : m.Edits T [] m.memory.unmoved n)
    (hregisters : n.registers = m.registers) (hT : ∀ x i, m.loads x i → ¬ T x i)
    (hip : n.indexField (m.registers.get .activeContext) Context.ip = .ok n.ip)
    (hsp : n.indexField (m.registers.get .activeContext) Context.sp = .ok n.sp) : n.Mirrored := by
  obtain ⟨n₁, hrun, hip₁, hsp₁, hswitched⟩ :=
    hm.activate he hT (.unmoved (he.before.registers.get .activeContext)) hip hsp
  have hactivated := activateContext_eq_ok hrun
  have hsame : n₁.registers = n.registers := by
    refine Registers.ext_get (fun r => ?_) hactivated.scratch
    by_cases hr : r ∈ switched
    · rw [hregisters]
      exact ((hswitched r hr).eq_of_fixed fun _ _ hab => hab.2).symm
    · exact hactivated.others r hr
  have hall : n₁ = n := by
    rw [hactivated.rest, hsame, hip₁, hsp₁]
  rw [Mirrored, hregisters, hrun, hall]

end Activating

/-! ## Returning -/

/-- The fields that the active context needs to go on. -/
def suspended (m : Machine) (x i : Nat) : Prop :=
  m.loads x i ∨ m.At .activeContext x ∧ (i = Context.ip ∨ i = Context.sp) ∨ m.At .stack x

/-- **The sender has gone on**: its registers are what they were, and the answer stands for the
receiver and the arguments that were on its stack. -/
structure Resumed (m : Machine) (argc : Nat) (σ : Renaming) (v : Value) (m₁ : Machine) : Prop where
  registers : ∀ r ∈ switched, Value.Renames σ (m.registers.get r) (m₁.registers.get r)
  ip : m₁.ip = m.ip + 1
  sp : m₁.sp + argc = m.sp
  answer : m₁.peek 0 = .ok v
  rest : ∀ i u, i + (argc + 1) < m.sp ∨ m.sp ≤ i →
    m.memory.getPtr (m.registers.get .stack) i = .ok u →
    ∃ w, m₁.memory.getPtr (m₁.registers.get .stack) i = .ok w ∧ Value.Renames σ u w
  cleared : ∀ i, m₁.sp ≤ i → i < m.sp →
    m₁.memory.getPtr (m₁.registers.get .stack) i = .ok m₁.nil
  mirrored : m₁.Mirrored

/-- The context at `c` can return to a caller. It has the answer on a stack of its own at `a`. -/
structure Ready (m : Machine) (σ : Renaming) (c a : Address) (sender v : Value) (n : Machine) :
    Prop where
  active : n.registers.get .activeContext = .ref c
  home : n.registers.get .homeContext = .ref c
  stack : n.registers.get .stack = .ref a
  apart : a ≠ c
  newContext : ∀ x, ¬ σ x c.offset
  newStack : ∀ x, ¬ σ x a.offset
  state : n.memory.getPtr (.ref c) MethodContext.state = .ok (FrameState.value .active)
  caller : n.memory.getPtr (.ref c) Context.caller = .ok sender
  old : Value.Renames σ (m.registers.get .activeContext) sender
  recorded : n.indexField (.ref c) Context.sp = .ok n.sp
  answer : ∃ k, n.sp = k + 1 ∧ n.memory.getPtr (.ref a) k = .ok v

section Returning

variable {T U : Nat → Nat → Prop} {K : List Root} {σ τ : Renaming} {m m₁ n n₁ : Machine}
  {v sender : Value} {argc k : Nat} {a c : Address}

/-- The fields that a return touches before the caller is activated. -/
def left (n : Machine) (c a : Address) (x i : Nat) : Prop :=
  x = c.offset ∧ i ∈ [Context.caller, Context.sp, MethodContext.state] ∨ x = a.offset ∧ i + 1 = n.sp

/-- **A method is left**, and the answer is taken off its stack. -/
theorem Ready.leaves (hn : n.WellFormed) (h : m.Ready σ c a sender v n) (hsender : sender ≠ n.nil) :
    ∃ n₁, n.Edits (n.left c a) [] n.memory.unmoved n₁ ∧
      returnFromMethod n = (do activateContext sender; push v) n₁ := by
  obtain ⟨k, hsp, hv⟩ := h.answer
  have hc : n.memory.Holds (.ref c) := h.active ▸ hn.registers.get .activeContext
  have ha : n.memory.Holds (.ref a) := h.stack ▸ hn.registers.get .stack
  have hnot : ¬ (FrameState.active = .returned ∨ sender = n.nil) := by
    rintro (hc | hc)
    · cases hc
    · exact hsender hc
  have hleft : ∀ {j}, j ∈ [Context.caller, Context.sp, MethodContext.state] →
      ∀ (b : Address) x, Value.ref c = .ref b → n.memory.unmoved x b.offset → n.left c a x j := by
    intro j hj b x hb hx
    obtain rfl := Value.ref.inj hb
    exact .inl ⟨hx.2, hj⟩
  obtain ⟨n₂, hset⟩ := exists_setPtr hn hc h.state (FrameState.value .returned)
  have h₂ : n.Edits (n.left c a) [] n.memory.unmoved n₂ :=
    (Edits.refl hn).setPtr hc (.small _) hset (hleft (by decide))
  have hc₂ := h₂.holds (.unmoved hc)
  have hget₂ : ∀ {u j}, n.memory.Holds u → ¬ (u = .ref c ∧ j = MethodContext.state) →
      n₂.memory.getPtr u j = n.memory.getPtr u j := fun hu hj =>
    (getPtr_after_setPtr hn hc (.small _) hset hu _).trans (if_neg hj)
  have hcaller₂ : n₂.memory.getPtr (.ref c) Context.caller = .ok sender :=
    (hget₂ hc fun hc => absurd hc.2 (by decide)).trans h.caller
  obtain ⟨n₃, hclear⟩ := exists_setPtr h₂.after hc₂ hcaller₂ n.nil
  have hnil₂ : n₂.memory.Holds n.nil := h₂.holds (.unmoved (hn.registers.get .nil))
  have h₃ : n.Edits (n.left c a) [] n.memory.unmoved n₃ :=
    h₂.setPtr hc₂ hnil₂ hclear (hleft (by decide))
  have hget₃ : ∀ {u j}, n.memory.Holds u → ¬ (u = .ref c ∧ j = MethodContext.state) →
      ¬ (u = .ref c ∧ j = Context.caller) → n₃.memory.getPtr u j = n.memory.getPtr u j :=
    fun hu hj hj' => ((getPtr_after_setPtr h₂.after hc₂ hnil₂ hclear (h₂.holds (.unmoved hu))
      _).trans (if_neg hj')).trans (hget₂ hu hj)
  have hregisters : n₃.registers = n.registers :=
    (registers_setPtr hclear).trans (registers_setPtr hset)
  have hsp₃ : n₃.sp = n.sp := by
    obtain ⟨_, -, rfl⟩ := setPtr_eq_ok hclear
    obtain ⟨_, -, rfl⟩ := setPtr_eq_ok hset
    rfl
  have hac : Value.ref a ≠ .ref c := fun hc => h.apart (Value.ref.inj hc)
  have hv₃ : n₃.memory.getPtr (n₃.registers.get .stack) k = .ok v := by
    rw [hregisters, h.stack, hget₃ ha (fun hc => hac hc.1) fun hc => hac hc.1]
    exact hv
  obtain ⟨place, hplace, -⟩ := except_bind_eq_ok h.recorded
  have hplace₃ : n₃.memory.getPtr (n₃.registers.get .activeContext) Context.sp = .ok place := by
    rw [hregisters, h.active, hget₃ hc (fun hc => absurd hc.2 (by decide)) fun hc =>
      absurd hc.2 (by decide)]
    exact hplace
  obtain ⟨n₄, hpop⟩ := exists_pop h₃.after (hsp₃.trans hsp) hv₃ hplace₃
  have hapart : n₃.registers.get .stack ≠ n₃.registers.get .activeContext := by
    rw [hregisters, h.stack, h.active]
    exact hac
  obtain ⟨j, hj, -, hpopped, -⟩ := pop_edits h₃.after hapart hpop
  refine ⟨n₄, ?_, ?_⟩
  · refine h₃.trans_unmoved hpopped (fun _ _ hx => hx) ?_
    rintro x _ i ⟨-, rfl⟩ (⟨hx, rfl⟩ | ⟨hx, hi⟩)
    · obtain ⟨b, hb, rfl⟩ := hx
      rw [hregisters, h.active] at hb
      obtain rfl := Value.ref.inj hb
      exact .inl ⟨rfl, by decide⟩
    · obtain ⟨b, hb, rfl⟩ := hx
      rw [hregisters, h.stack] at hb
      obtain rfl := Value.ref.inj hb
      exact .inr ⟨rfl, by omega⟩
  · have hleave : leaveMethod n = .ok sender n₃ := by
      rw [leaveMethod_apply h.home h.state (show FrameState.ofValue _ = .ok .active by decide)
        h.caller, if_neg hnot]
      exact (bind_of_eq_ok hset).trans (bind_of_eq_ok hclear)
    rw [returnFromMethod_eq]
    exact (bind_of_eq_ok hleave).trans (bind_of_eq_ok hpop)

/-- **The sender is activated and gets the answer.** It is what it was, but for operands that have
been taken off its stack. -/
theorem activate_then_push (hmirrored : m.Mirrored) (he : m.Edits U K σ n)
    (hloads : ∀ x i, m.loads x i → ¬ U x i)
    (hstackU : ∀ x i, m.At .stack x → U x i → k ≤ i ∧ i < m.sp)
    (hapart : ∀ r ∈ [Root.activeContext, .homeContext, .method],
      m.registers.get .stack ≠ m.registers.get r)
    (hrunning : m.registers.get .method ≠ m.registers.get .activeContext)
    (hsender : Value.Renames σ (m.registers.get .activeContext) sender)
    (hip : n.indexField sender Context.ip = .ok (m.ip + 1))
    (hsp : n.indexField sender Context.sp = .ok k) (hk : k + (argc + 1) = m.sp)
    (hclear : ∀ u i, Value.Renames σ (m.registers.get .stack) u → k ≤ i → i < m.sp →
      n.memory.getPtr u i = .ok n.nil) (hv : n.memory.Holds v) :
    ∃ n₁, (do activateContext sender; push v) n = .ok () n₁ ∧ m.Resumed argc σ v n₁ ∧
      n.Edits (fun x i => n₁.At .activeContext x ∧ i = Context.sp ∨ n₁.At .stack x ∧ i + 1 = n₁.sp)
        switched n.memory.unmoved n₁ := by
  obtain ⟨n₂, hactivate, hip₂, hsp₂, hswitched⟩ := hmirrored.activate he hloads hsender hip hsp
  have hactivated := activateContext_eq_ok hactivate
  have h₂ := hactivated.edits he.after (he.holds hsender)
  have hmemory : n₂.memory = n.memory := by rw [hactivated.rest]
  have hnil : n₂.nil = n.nil := hactivated.others .nil (by decide)
  have hactive : n₂.registers.get .activeContext = sender := hactivated.active
  have hstack := hswitched .stack (by decide)
  have hapart₂ : ∀ r ∈ [Root.activeContext, .homeContext, .method],
      n₂.registers.get .stack ≠ n₂.registers.get r := by
    intro r hr
    exact mt (he.eq_iff hstack (hswitched r ((by decide : ∀ r ∈ [Root.activeContext, .homeContext,
      .method], r ∈ switched) r hr))).2 (hapart r hr)
  have htop : n₂.memory.getPtr (n₂.registers.get .stack) n₂.sp = .ok n₂.nil := by
    rw [hmemory, hnil, hsp₂]
    exact hclear _ k hstack (Nat.le_refl k) (by omega)
  obtain ⟨place, hplace, -⟩ := except_bind_eq_ok hsp
  rw [← hmemory, ← hactive] at hplace
  obtain ⟨n₁, hpush⟩ := exists_push h₂.after (hmemory ▸ hv) htop hplace
  obtain ⟨h₁, hrest, hanswer, hrecorded₁⟩ :=
    push_edits h₂.after (hmemory ▸ hv) (hapart₂ .activeContext (by decide)) hpush
  have hregisters : n₁.registers = n₂.registers := by rw [hrest]
  have hsp₁ : n₁.sp = k + 1 := by rw [hrest, hsp₂]
  have hip₁ : n₁.ip = m.ip + 1 := by rw [hrest, hip₂]
  have hat : ∀ {r x}, n₂.At r x → n₁.At r x := by
    rintro r x ⟨b, hb, hbx⟩
    exact ⟨b, hregisters ▸ hb, hbx⟩
  have hkept : ∀ {i u}, n.memory.getPtr (n₂.registers.get .stack) i = .ok u → i ≠ k →
      n₁.memory.getPtr (n₁.registers.get .stack) i = .ok u := by
    intro i u hu hik
    rw [← hmemory] at hu
    obtain ⟨w, hw, hren⟩ := h₁.getPtr (.unmoved (h₂.after.registers.get .stack)) hu fun b hb => by
      rintro (⟨hx, -⟩ | ⟨-, hi⟩)
      · exact hapart₂ .activeContext (by decide) (hb.trans hx.get_eq.symm)
      · exact hik (hi.trans hsp₂)
    rw [hregisters, hw, hren.eq_of_fixed fun _ _ hab => hab.2]
  refine ⟨n₁, (bind_of_eq_ok hactivate).trans hpush,
    ⟨hregisters ▸ hswitched, hip₁, by omega, ?answer, ?rest, ?cleared, ?mirrored⟩, ?edits⟩
  case answer =>
    rw [peek, if_neg (by omega), hregisters, show n₁.sp - 1 - 0 = n₂.sp by omega]
    exact hanswer
  case rest =>
    intro i u hi hu
    obtain ⟨w, hw, hren⟩ := he.getPtr hstack hu fun b hb hU => by
      have := hstackU b.offset i ⟨b, hb, rfl⟩ hU
      omega
    exact ⟨w, hkept hw (by omega), hren⟩
  case cleared =>
    intro i hi hi'
    rw [hkept (hclear _ i hstack (by omega) hi') (by omega), ← hnil]
    exact congrArg Except.ok (congrArg (·.get .nil) hregisters.symm)
  case mirrored =>
    refine hactivated.mirrored.kept h₁ hregisters ?_ ?_ ?_
    · rintro x i hx (⟨hactive, hi⟩ | ⟨hstack, -⟩)
      · refine (hx.ne_progress ?_ hactive).2 hi
        exact mt (he.eq_iff (hswitched .method (by decide))
          (hswitched .activeContext (by decide))).2 hrunning
      · exact hx.not_stack hapart₂ hstack
    · have hip' : n₂.indexField sender Context.ip = .ok (m.ip + 1) := by
        rw [Machine.indexField, hmemory]
        exact hip
      rw [hip₁, hactive]
      refine h₁.indexField (.unmoved (hmemory ▸ he.holds hsender)) hip' fun b hb => ?_
      rintro (⟨-, hi⟩ | ⟨hx, -⟩)
      · exact absurd hi (by decide)
      · exact hapart₂ .activeContext (by decide) (hx.get_eq.trans (hactive.trans hb).symm)
    · rw [hsp₁, ← hsp₂]
      exact hrecorded₁
  case edits =>
    refine h₂.trans_unmoved (h₁.mono (fun _ _ hx => hx) (List.nil_subset _))
      (fun _ _ hx => absurd hx id) ?_
    rintro x _ i ⟨-, rfl⟩ (⟨hx, hi⟩ | ⟨hx, hi⟩)
    · exact .inl ⟨hat hx, hi⟩
    · exact .inr ⟨hat hx, by omega⟩

end Returning

/-- The method that has been entered is about to return, and nobody has touched what its sender
needs. -/
structure Returning (m : Machine) (σ : Renaming) (c : Address) (m₁ : Machine) (τ : Renaming)
    (v : Value) (m₂ : Machine) : Prop where
  edits : ∃ T K, m₁.Edits T K τ m₂ ∧ .activeContext ∉ K ∧
    (∀ x x' i, σ x x' → T x' i → ¬ m.suspended x i) ∧
    ∀ i, T c.offset i → i ∉ [Context.caller, Context.stack, MethodContext.state]
  mirrored : m₂.Mirrored
  fetches : ∃ m₃, fetch m₂ = .ok .returnMethod m₃
  answer : m₂.peek 0 = .ok v

section Leaving

variable {σ τ : Renaming} {m m₁ m₂ m₃ n n₁ : Machine} {e : Invocation} {v sender : Value}
  {a c : Address}

theorem peek_eq_ok (h : m.peek 0 = .ok v) :
    ∃ k, m.sp = k + 1 ∧ m.memory.getPtr (m.registers.get .stack) k = .ok v := by
  unfold peek at h
  split at h
  · cases h
  · exact ⟨m.sp - 1, by omega, h⟩

/-- Nil has no fields to be read. -/
theorem HasNil.getPtr_ne (hn : n.WellFormed) (h : n.HasNil) {i : Nat} {u : Value} :
    n.memory.getPtr n.nil i ≠ .ok u := by
  obtain ⟨b, hb, hsize⟩ := h
  intro hu
  obtain ⟨_, heq, hmem, -, hlt, -⟩ := getPtr_eq_ok hn.memory (hn.registers.get .nil) hu
  obtain rfl := Value.ref.inj (hb.symm.trans heq)
  rw [size_ref_of_mem hn.memory hmem] at hsize
  have hzero := Except.ok.inj hsize
  omega

theorem HasNil.edits {T : Nat → Nat → Prop} {K : List Root} (he : m.Edits T K σ n) (h : m.HasNil) :
    n.HasNil := by
  obtain ⟨b, hb, hsize⟩ := h
  have hren := he.nil
  rw [hb] at hren
  obtain ⟨b', hb', hbb'⟩ := hren.of_ref
  exact ⟨b', hb', (he.length (.ref hbb')).trans hsize⟩

/-- The stack of the method that was entered is new, unless there is none. -/
theorem Entered.stack_new (h : m.Entered e σ c m₁) (hne : m₁.registers.get .stack ≠ m₁.nil) :
    ∃ a, m₁.registers.get .stack = .ref a ∧ ¬ inUse σ c (fun _ => False) a.offset := by
  obtain ⟨u, hu, hframe⟩ := h.filled Context.stack (by decide)
  have hmirror := (mirrored_iff.1 h.mirrored).stack
  rw [h.active] at hmirror
  obtain rfl := Except.ok.inj (hu.symm.trans hmirror)
  have hlisting := hframe.listing_of_stack rfl
  generalize List.replicate e.stackSize m.nil = operands at hlisting
  generalize m₁.registers.get .stack = stack at hlisting hne
  cases hlisting with
  | none => exact absurd rfl hne
  | @some _ a hsome hidle => exact ⟨a, rfl, hidle⟩

/-- The method that was entered can return. -/
theorem Entered.ready (hnil : m.HasNil) (h : m.Entered e σ c m₁) (hr : m.Returning σ c m₁ τ v m₂) :
    ∃ c₂ a₂ sender, m.Ready (σ.followedBy τ) c₂ a₂ sender v m₂ := by
  obtain ⟨T, K, hlater, hK, -, htouch⟩ := hr.edits
  have hmirror := mirrored_iff.1 hr.mirrored
  have hinj := hlater.persists.injective
  have hactive := hlater.running .activeContext (by decide) hK
  rw [h.active] at hactive
  obtain ⟨c₂, hc₂, hcc₂⟩ := hactive.of_ref
  have hfield : ∀ {f}, f ∈ [Context.caller, Context.stack, MethodContext.state] →
      ∃ u w, FrameField (inUse σ c fun _ => False) e m σ m₁ f u ∧
        m₁.memory.getPtr (.ref c) f = .ok u ∧
        m₂.memory.getPtr (.ref c₂) f = .ok w ∧ Value.Renames τ u w := by
    intro f hf
    have hlt := (by decide : ∀ f ∈ [Context.caller, Context.stack, MethodContext.state],
      f < MethodContext.size) f hf
    obtain ⟨u, hu, hframe⟩ := h.filled f hlt
    obtain ⟨w, hw, hren⟩ := hlater.getPtr (.ref hcc₂) hu fun b hb hT => by
      obtain rfl := Value.ref.inj hb
      exact htouch f hT hf
    exact ⟨u, w, hframe, hu, hw, hren⟩
  obtain ⟨sender₁, sender, hframe, -, hcaller, hsender⟩ := hfield (f := Context.caller) (by decide)
  have hsender₁ := hframe.renames_of_caller rfl
  obtain ⟨state₁, state, hframe, -, hstate, hren⟩ := hfield (f := MethodContext.state) (by decide)
  rw [hframe.eq_of_state rfl] at hren
  cases hren
  obtain ⟨stack₁, stack, -, hstack₁, hstack, hstackR⟩ := hfield (f := Context.stack) (by decide)
  have hmirror₁ := (mirrored_iff.1 h.mirrored).stack
  rw [h.active] at hmirror₁
  obtain rfl := Except.ok.inj (hstack₁.symm.trans hmirror₁)
  have hstack₂ : m₂.registers.get .stack = stack := by
    have hmirrored := hmirror.stack
    rw [hc₂] at hmirrored
    exact Except.ok.inj (hmirrored.symm.trans hstack)
  obtain ⟨k, hk, hv⟩ := peek_eq_ok hr.answer
  rw [hstack₂] at hv
  have hhome := hr.mirrored.home_eq hc₂ (hlater.hasClass (by decide) (.ref hcc₂) h.cls)
  have hstack_ne : m₁.registers.get .stack ≠ m₁.nil := by
    intro hc
    rw [(hlater.eq_nil_iff hstackR).1 hc] at hv
    exact (hnil.edits h.toEdits).edits hlater |>.getPtr_ne hlater.after hv
  obtain ⟨a, ha, hidle⟩ := h.stack_new hstack_ne
  rw [ha] at hstackR
  obtain ⟨a₂, rfl, haa₂⟩ := hstackR.of_ref
  have hac : a₂ ≠ c₂ := by
    rintro rfl
    exact hidle (.inr (.inl (hinj _ _ _ haa₂ hcc₂)))
  refine ⟨c₂, a₂, sender, hc₂, hhome, hstack₂, hac, ?_, ?_, hstate, hcaller,
    hsender₁.followedBy hsender, ?_, k, hk, hv⟩
  · rintro x ⟨o, hxo, hoc⟩
    exact h.fresh x (hinj _ _ _ hoc hcc₂ ▸ hxo)
  · rintro x ⟨o, hxo, hoa⟩
    exact hidle (.inl ⟨x, hinj _ _ _ hoa haa₂ ▸ hxo⟩)
  · exact hc₂ ▸ hmirror.sp

/-- Fetching the instruction does not matter. -/
theorem Ready.fetch (hn : n.WellFormed) (h : m.Ready σ c a sender v n) {i : Instruction}
    (hfetch : Machine.fetch n = .ok i n₁) : m.Ready σ c a sender v n₁ := by
  obtain ⟨hedits, hregisters, hsp, -⟩ := fetch_edits hn hfetch
  have hc : n.memory.Holds (.ref c) := h.active ▸ hn.registers.get .activeContext
  have ha : n.memory.Holds (.ref a) := h.stack ▸ hn.registers.get .stack
  have hkept : ∀ {b : Address} {j u}, n.memory.Holds (.ref b) → b ≠ c ∨ j ≠ Context.ip →
      n.memory.getPtr (.ref b) j = .ok u → n₁.memory.getPtr (.ref b) j = .ok u := by
    intro b j u hb hne hu
    obtain ⟨w, hw, hren⟩ := hedits.getPtr (.unmoved hb) hu fun d hd hx => by
      obtain rfl := Value.ref.inj hd
      rcases hne with hne | hne
      · exact hne (Value.ref.inj (hx.1.get_eq.symm.trans h.active))
      · exact hne hx.2
    rw [hw, hren.eq_of_fixed fun _ _ hab => hab.2]
  obtain ⟨k, hk, hv⟩ := h.answer
  refine ⟨hregisters ▸ h.active, hregisters ▸ h.home, hregisters ▸ h.stack, h.apart, h.newContext,
    h.newStack, hkept hc (.inr (by decide)) h.state, hkept hc (.inr (by decide)) h.caller,
    h.old, ?_, k, hsp.trans hk, hkept ha (.inl h.apart) hv⟩
  rw [hsp]
  exact hedits.indexField (.unmoved hc) h.recorded fun _ _ hx => absurd hx.2 (by decide)

theorem at_of_renames {r : Root} (h : Value.Renames σ (m.registers.get r) (.ref a)) :
    ∃ x, σ x a.offset ∧ m.At r x := by
  generalize hv : m.registers.get r = v at h
  cases h with
  | ref hab => exact ⟨_, hab, _, hv, rfl⟩

/-- The fields that change as the method returns, until the sender is activated. -/
def released (n : Machine) (x i : Nat) : Prop :=
  n.At .activeContext x ∧ i ∈ [Context.caller, Context.ip, Context.sp, MethodContext.state] ∨
    n.At .stack x ∧ i + 1 = n.sp

theorem Ready.not_released (h : m.Ready σ c a sender v n) {x x' i : Nat} (hx : σ x x') :
    ¬ n.released x' i := by
  rintro (⟨⟨b, hb, rfl⟩, -⟩ | ⟨⟨b, hb, rfl⟩, -⟩)
  · obtain rfl := Value.ref.inj (h.active.symm.trans hb)
    exact h.newContext x hx
  · obtain rfl := Value.ref.inj (h.stack.symm.trans hb)
    exact h.newStack x hx

/-- **The method is left**, and what remains of the step is the sender's. -/
theorem Ready.step_eq (hn : n.WellFormed) (h : m.Ready σ c a sender v n) (hsender : sender ≠ n.nil)
    (hfetch : Machine.fetch n = .ok .returnMethod m₃) :
    ∃ n₁, n.Edits n.released [] n.memory.unmoved n₁ ∧
      step n = (do activateContext sender; push v) n₁ := by
  obtain ⟨hfetched, hregisters, hsp, -⟩ := fetch_edits hn hfetch
  have hsender₃ : sender ≠ m₃.nil := by rwa [Machine.nil, hregisters]
  obtain ⟨n₁, hleft, hrun⟩ := (h.fetch hn hfetch).leaves hfetched.after hsender₃
  refine ⟨n₁, hfetched.trans_unmoved hleft ?_ ?_, (bind_of_eq_ok hfetch).trans hrun⟩
  · rintro x i ⟨hx, rfl⟩
    exact .inl ⟨hx, by decide⟩
  · rintro x _ i ⟨-, rfl⟩ (⟨rfl, hi⟩ | ⟨rfl, hi⟩)
    · refine .inl ⟨.of_ref h.active, ?_⟩
      exact (by decide : ∀ i ∈ [Context.caller, Context.sp, MethodContext.state],
        i ∈ [Context.caller, Context.ip, Context.sp, MethodContext.state]) i hi
    · exact .inr ⟨.of_ref h.stack, hsp ▸ hi⟩

/-- The fields that change when the method returns: in its context, on its stack, and the progress
and the stack of the sender. -/
def handed (n n₁ : Machine) (x i : Nat) : Prop :=
  n.At .activeContext x ∧ i ∈ [Context.caller, Context.ip, Context.sp, MethodContext.state] ∨
    n.At .stack x ∧ i + 1 = n.sp ∨ n₁.At .activeContext x ∧ i = Context.sp ∨
    n₁.At .stack x ∧ i + 1 = n₁.sp

section Going

variable (hmirrored : m.Mirrored)
  (hapart : ∀ r ∈ [Root.activeContext, .homeContext, .method],
    m.registers.get .stack ≠ m.registers.get r)
  (hrunning : m.registers.get .method ≠ m.registers.get .activeContext) (h : m.Entered e σ c m₁)

include hmirrored hapart hrunning h

/-- The sender goes on where it stopped, if nobody has touched what it needs. -/
theorem Entered.continues {T : Nat → Nat → Prop} {K : List Root} (hlater : m₁.Edits T K τ n)
    (hsuspended : ∀ x x' i, σ x x' → T x' i → ¬ m.suspended x i)
    (hsender : Value.Renames (σ.followedBy τ) (m.registers.get .activeContext) sender)
    (hv : n.memory.Holds v) :
    ∃ n₁, (do activateContext sender; push v) n = .ok () n₁ ∧
      m.Resumed e.args.length (σ.followedBy τ) v n₁ ∧
      n.Edits (fun x i => n₁.At .activeContext x ∧ i = Context.sp ∨ n₁.At .stack x ∧ i + 1 = n₁.sp)
        switched n.memory.unmoved n₁ := by
  have hall := (h.toEdits.mono (fun _ _ hx => hx) (List.subset_append_left entering K)).trans
    (hlater.mono (fun _ _ hx => hx) (List.subset_append_right entering K))
    (U := fun x i => m.taken (e.args.length + 1) x i ∨ ∃ x', σ x x' ∧ T x' i)
    (fun _ _ hx => .inl hx) fun x x' i hx hT => .inr ⟨x', hx, hT⟩
  obtain ⟨sender₁, hsender₁, hsender₂⟩ := h.persists.split hsender
  have hindex : ∀ {f k}, f = Context.ip ∨ f = Context.sp → m₁.indexField sender₁ f = .ok k →
      n.indexField sender f = .ok k := by
    intro f k hf hk
    refine hlater.indexField hsender₂ hk fun b hb hT => ?_
    subst hb
    obtain ⟨x, hx, hat⟩ := at_of_renames hsender₁
    exact hsuspended x _ f hx hT (.inr (.inl ⟨hat, hf⟩))
  obtain ⟨k, hk, hsp⟩ := h.waitingSp sender₁ hsender₁
  have hclear : ∀ u i, Value.Renames (σ.followedBy τ) (m.registers.get .stack) u → k ≤ i →
      i < m.sp → n.memory.getPtr u i = .ok n.nil := by
    intro u i hu hi hi'
    obtain ⟨u₁, hu₁, hu₂⟩ := h.persists.split hu
    obtain ⟨w, hw, hren⟩ := hlater.getPtr hu₂ (h.popped u₁ i hu₁ (by omega) hi') fun b hb hT => by
      subst hb
      obtain ⟨x, hx, hat⟩ := at_of_renames hu₁
      exact hsuspended x _ i hx hT (.inr (.inr hat))
    rw [hw, (hlater.eq_nil_iff hren).1 rfl]
  have hloads : ∀ x i, m.loads x i →
      ¬ (m.taken (e.args.length + 1) x i ∨ ∃ x', σ x x' ∧ T x' i) := by
    rintro x i hx ((⟨hactive, hi⟩ | ⟨hstack, -⟩) | ⟨x', hxx', hT⟩)
    · have hne := hx.ne_progress hrunning hactive
      exact hi.elim hne.1 hne.2
    · exact hx.not_stack hapart hstack
    · exact hsuspended x x' i hxx' hT (.inl hx)
  have hstackU : ∀ x i, m.At .stack x →
      (m.taken (e.args.length + 1) x i ∨ ∃ x', σ x x' ∧ T x' i) → k ≤ i ∧ i < m.sp := by
    rintro x i hstack ((⟨hactive, -⟩ | ⟨-, hlow, hhigh⟩) | ⟨x', hxx', hT⟩)
    · exact absurd (hstack.eq_of_at hactive) (hapart .activeContext (by decide))
    · exact ⟨by omega, hhigh⟩
    · exact absurd (.inr (.inr hstack)) (hsuspended x x' i hxx' hT)
  exact activate_then_push hmirrored hall hloads hstackU hapart hrunning hsender
    (hindex (.inl rfl) (h.waitingIp sender₁ hsender₁)) (hindex (.inr rfl) hsp) hk hclear hv

/-- **The sender goes on** when the method that it has called returns. -/
theorem Entered.resumes (hnil : m.HasNil) (hr : m.Returning σ c m₁ τ v m₂) :
    ∃ m₃, step m₂ = .ok () m₃ ∧ m.Resumed e.args.length (σ.followedBy τ) v m₃ ∧
      m₂.Edits (m₂.handed m₃) switched m₂.memory.unmoved m₃ := by
  obtain ⟨c₂, a₂, sender, hready⟩ := h.ready hnil hr
  obtain ⟨T, K, hlater, -, hsuspended, -⟩ := hr.edits
  obtain ⟨_, hfetch⟩ := hr.fetches
  have hsender : sender ≠ m₂.nil := by
    intro hc
    obtain ⟨sender₁, hsender₁, hsender₂⟩ := h.persists.split hready.old
    have hactive := (h.toEdits.eq_nil_iff hsender₁).2 ((hlater.eq_nil_iff hsender₂).2 hc)
    obtain ⟨u, hu, -⟩ := except_bind_eq_ok (mirrored_iff.1 hmirrored).ip
    exact hnil.getPtr_ne h.before (hactive ▸ hu)
  obtain ⟨n, hreleased, hrun⟩ := hready.step_eq hlater.after hsender hfetch
  have hall := hlater.trans_unmoved (hreleased.mono (fun _ _ hx => hx) (List.nil_subset K))
    (U := fun x i => T x i ∨ ∃ x', τ x x' ∧ m₂.released x' i)
    (fun _ _ hx => .inl hx) fun x x' i hx hi => .inr ⟨x', hx, hi⟩
  -- what is released is new, so nothing that the sender needs is touched
  have hneeded : ∀ x x' i, σ x x' → (T x' i ∨ ∃ y, τ x' y ∧ m₂.released y i) →
      ¬ m.suspended x i := by
    rintro x x' i hx (hT | ⟨y, hy, hi⟩)
    · exact hsuspended x x' i hx hT
    · exact absurd hi (hready.not_released ⟨x', hx, hy⟩)
  have hv : n.memory.Holds v := by
    obtain ⟨j, -, hv⟩ := hready.answer
    have ha : m₂.memory.Holds (.ref a₂) := hready.stack ▸ hlater.after.registers.get .stack
    exact hreleased.holds (.unmoved (hlater.after.memory.holds_getPtr ha hv).2)
  obtain ⟨m₃, hresume, hresumed, hpushed⟩ :=
    h.continues hmirrored hapart hrunning hall hneeded hready.old hv
  refine ⟨m₃, hrun.trans hresume, hresumed, ?_⟩
  refine (hreleased.mono (fun _ _ hx => hx) (List.nil_subset _)).trans_unmoved hpushed ?_ ?_
  · exact fun x i hx => hx.imp_right .inl
  · rintro x _ i ⟨-, rfl⟩ hx
    exact .inr (.inr hx)

end Going

/-- **A method returns what it has just pushed.** -/
theorem Entered.returning_of_push (hnil : m.HasNil) (h : m.Entered e σ c m₁)
    (hv : m₁.memory.Holds v) (hpush : push v m₁ = .ok () m₂)
    (hfetch : ∃ m₃, fetch m₂ = .ok .returnMethod m₃) :
    m.Returning σ c m₁ m₁.memory.unmoved v m₂ := by
  have hnil₁ := hnil.edits h.toEdits
  have hstack_ne : m₁.registers.get .stack ≠ m₁.nil := by
    intro hc
    obtain ⟨memory, hset, -⟩ := push_eq_ok hpush
    rw [hc] at hset
    obtain ⟨a, ha, hmem, -, hlt, -⟩ :=
      Memory.setPtr_eq_ok h.after.memory (h.after.registers.get .nil) hset
    obtain ⟨b, hb, hsize⟩ := hnil₁
    obtain rfl := Value.ref.inj (hb.symm.trans ha)
    rw [size_ref_of_mem h.after.memory hmem] at hsize
    have hzero := Except.ok.inj hsize
    omega
  obtain ⟨a, ha, hidle⟩ := h.stack_new hstack_ne
  have hac : a.offset ≠ c.offset := fun hc => hidle (.inr (.inl hc))
  have hmirror := mirrored_iff.1 h.mirrored
  have hhome := h.mirrored.home_eq h.active h.cls
  have hmethod : Value.Renames σ e.method (m₁.registers.get .method) := by
    obtain ⟨u, hu, hframe⟩ := h.filled MethodContext.method (by decide)
    have hfield := hmirror.method
    rw [hhome] at hfield
    exact Except.ok.inj (hu.symm.trans hfield) ▸ hframe.renames_of_method rfl
  have hapart : ∀ r ∈ [Root.activeContext, .homeContext, .method],
      m₁.registers.get .stack ≠ m₁.registers.get r := by
    simp only [List.forall_mem_cons]
    rw [ha, h.active, hhome]
    have hne : Value.ref a ≠ .ref c := fun hc => hac (congrArg Address.offset (Value.ref.inj hc))
    exact ⟨hne, hne, (hmethod.ne_new fun x hx => hidle (.inl ⟨x, hx⟩)).symm,
      fun r hr => absurd hr List.not_mem_nil⟩
  obtain ⟨hedits, hrest, htop, hrecorded⟩ :=
    push_edits h.after hv (hapart .activeContext (by decide)) hpush
  have hregisters : m₂.registers = m₁.registers := by rw [hrest]
  have hsp : m₂.sp = m₁.sp + 1 := by rw [hrest]
  have hip : m₂.ip = m₁.ip := by rw [hrest]
  refine ⟨⟨_, [], hedits, List.not_mem_nil, ?_, ?_⟩, ?_, hfetch, ?_⟩
  · rintro x x' i hx (⟨hat, -⟩ | ⟨hat, -⟩)
    · obtain ⟨b, hb, rfl⟩ := hat
      rw [h.active] at hb
      obtain rfl := Value.ref.inj hb
      exact absurd hx (h.fresh x)
    · obtain ⟨b, hb, rfl⟩ := hat
      rw [ha] at hb
      obtain rfl := Value.ref.inj hb
      exact absurd (.inl ⟨x, hx⟩) hidle
  · rintro i (⟨-, rfl⟩ | ⟨hat, -⟩)
    · decide
    · exact absurd (hat.get_eq.trans h.active.symm) (hapart .activeContext (by decide))
  · refine h.mirrored.kept hedits hregisters ?_ ?_ ?_
    · rintro x i hx (⟨hactive, hi⟩ | ⟨hstack, -⟩)
      · exact (hx.ne_progress (h.active ▸ hmethod.ne_new h.fresh) hactive).2 hi
      · exact hx.not_stack hapart hstack
    · rw [hip]
      refine hedits.indexField (.unmoved (h.after.registers.get .activeContext)) hmirror.ip
        fun b hb => ?_
      rintro (⟨-, hi⟩ | ⟨hx, -⟩)
      · exact absurd hi (by decide)
      · exact hapart .activeContext (by decide) (hx.get_eq.trans hb.symm)
    · rw [hsp]
      exact hrecorded
  · rw [peek, if_neg (by omega), hregisters, show m₂.sp - 1 - 0 = m₁.sp by omega]
    exact htop

/-- The method that sends is no context: its code is made of words, and a stack is made of
fields. -/
theorem Calls.method_ne_active (hm : m.WellFormed) (hmirrored : m.Mirrored) (h : m.Calls e)
    {i : Instruction} (hfetch : fetch m = .ok i n) :
    m.registers.get .method ≠ m.registers.get .activeContext := by
  intro hc
  obtain ⟨-, -, -, -, -, -, word, hword⟩ := fetch_edits hm hfetch
  obtain ⟨k, -, hu⟩ := h.receiver
  have hmirror := mirrored_iff.1 hmirrored
  have hcode := hmirror.code
  rw [hc] at hcode
  rw [Except.ok.inj (hcode.symm.trans hmirror.stack)] at hword
  obtain ⟨a, ha, -, hkind, -⟩ := getPtr_eq_ok hm.memory (hm.registers.get .stack) hu
  obtain ⟨b, hb, -, hkind', -⟩ := getWord_eq_ok hm.memory (hm.registers.get .stack) hword
  obtain rfl := Value.ref.inj (ha.symm.trans hb)
  cases hkind.symm.trans hkind'

/-- **A send enters the method it finds, and its return resumes the sender.** The new context has
the receiver, the arguments in their order, and arrays of nils for temporaries and operands; the
sender has lost just the operands of the message. When the new context returns, the sender goes on
with the same registers and has the answer in place of these operands. All this is so wherever
collections have moved the objects. The stack of the sender must not be one of the objects that its
registers are loaded from. -/
theorem send_enters_and_return_resumes {m₀ : Machine} {i : Instruction} {argc : Nat}
    (hm : m.WellFormed) (hmirrored : m.Mirrored) (hnil : m.HasNil)
    (hapart : ∀ r ∈ [Root.activeContext, .homeContext, .method],
      m.registers.get .stack ≠ m.registers.get r)
    (hsend : i.sentArgs = some argc) (hfetch : fetch m = .ok i m₀) (hstep : step m = .ok () m₁) :
    ∃ e σ c, e.args.length = argc ∧ m₀.Finds i e.method ∧ m.Calls e ∧ m.Entered e σ c m₁ ∧
      ∀ τ v m₂, m.Returning σ c m₁ τ v m₂ →
        ∃ m₃, step m₂ = .ok () m₃ ∧ m.Resumed argc (σ.followedBy τ) v m₃ ∧
          m₂.Edits (m₂.handed m₃) switched m₂.memory.unmoved m₃ := by
  obtain ⟨e, σ, c, rfl, hfinds, hcalls, hentered⟩ :=
    step_entered hm hmirrored hnil (hapart .activeContext (by decide)) hsend hfetch hstep
  refine ⟨e, σ, c, rfl, hfinds, hcalls, hentered, fun τ v m₂ hreturning => ?_⟩
  exact hentered.resumes hmirrored hapart (hcalls.method_ne_active hm hmirrored hfetch) hnil
    hreturning

end Leaving

/-! ### A small machine -/

set_option maxRecDepth 100000 in
/-- What the registers have, and that the next instruction is a send. -/
theorem loaded_senderMachine : ∀ stack ∈ senderStacks, ∀ nil ∈ [0, 192],
    let m := senderMachine stack nil
    let field (r : Root) (i : Nat) := m.memory.getPtr (m.registers.get r) i
    (m.homeOf (m.registers.get .activeContext) = .ok (m.registers.get .homeContext) ∧
      field .homeContext MethodContext.method = .ok (m.registers.get .method) ∧
      field .homeContext MethodContext.receiver = .ok (m.registers.get .receiver) ∧
      field .homeContext MethodContext.args = .ok (m.registers.get .args) ∧
      field .homeContext MethodContext.temps = .ok (m.registers.get .temps) ∧
      field .activeContext Context.stack = .ok (m.registers.get .stack) ∧
      field .method Method.code = .ok (m.registers.get .code) ∧
      field .method Method.literals = .ok (m.registers.get .literals) ∧
      m.indexField (m.registers.get .activeContext) Context.ip = .ok m.ip ∧
      m.indexField (m.registers.get .activeContext) Context.sp = .ok m.sp) ∧
      answerOf (fetch m) = some (.send 1 0) ∧ (nil = 0 → m.nil = .ref Address.zero) ∧
      m.memory.size (.ref Address.zero) = .ok 0 := by
  refine List.forall_mem_cons.2 ⟨List.forall_mem_cons.2 ⟨?_, List.forall_mem_singleton.2 ?_⟩,
    List.forall_mem_singleton.2 (List.forall_mem_cons.2 ⟨?_, List.forall_mem_singleton.2 ?_⟩)⟩ <;>
  decide +kernel

theorem mirrored_senderMachine {stack nil : UInt32} (h : stack ∈ senderStacks)
    (hnil : nil ∈ [0, 192]) : (senderMachine stack nil).Mirrored := by
  obtain ⟨hloaded, -⟩ := loaded_senderMachine stack h nil hnil
  obtain ⟨hhome, hmethod, hreceiver, hargs, htemps, hstack, hcode, hliterals, hip, hsp⟩ := hloaded
  exact mirrored_iff.2 ⟨hhome, hmethod, rfl, hreceiver, hargs, htemps, hstack, hcode, hliterals,
    hip, hsp, fun _ _ => rfl, rfl, rfl⟩

theorem fetch_senderMachine {stack nil : UInt32} (h : stack ∈ senderStacks)
    (hnil : nil ∈ [0, 192]) :
    fetch (senderMachine stack nil) = .ok (.send 1 0)
      (machineOf (fetch (senderMachine stack nil))) := by
  obtain ⟨-, hfetch, -⟩ := loaded_senderMachine stack h nil hnil
  exact eq_ok_of_answerOf hfetch

theorem hasNil_senderMachine {stack : UInt32} (h : stack ∈ senderStacks) :
    (senderMachine stack 0).HasNil := by
  obtain ⟨-, -, hnil, hsize⟩ := loaded_senderMachine stack h 0 (by decide)
  exact ⟨Address.zero, hnil rfl, hsize⟩

/-- The machine after its send, when the new context has pushed a number. -/
def calledMachine (stack nil : UInt32) : Machine :=
  machineOf (push (.ofByte 5) (machineOf (step (senderMachine stack nil))))

set_option maxRecDepth 100000 in
/-- If the operands are in the array, the new context can push a number, and goes on to return it.
Nothing returns to a context that passes for nil. -/
theorem returns_calledMachine :
    (∀ nil ∈ [0, 192], let m := senderMachine 168 nil
      (∀ r ∈ [Root.activeContext, .homeContext, .method],
        m.registers.get .stack ≠ m.registers.get r) ∧
        answerOf (push (.ofByte 5) (machineOf (step m))) = some () ∧
        answerOf (fetch (calledMachine 168 nil)) = some .returnMethod) ∧
      errorOf (step (calledMachine 168 192)) = some .doubleReturn := by
  refine ⟨List.forall_mem_cons.2 ⟨?_, List.forall_mem_singleton.2 ?_⟩, ?_⟩ <;> decide +kernel

set_option maxRecDepth 100000 in
/-- A message is sent, and the method returns the number five. -/
theorem send_then_return_senderMachine :
    let m := senderMachine 168 0
    ∃ m₁ e σ c, step m = .ok () m₁ ∧ e.args.length = 1 ∧ m.Calls e ∧ m.Entered e σ c m₁ ∧
      ∃ m₃, step (calledMachine 168 0) = .ok () m₃ ∧
        m.Resumed 1 (σ.followedBy m₁.memory.unmoved) (.ofByte 5) m₃ := by
  have hstack : 168 ∈ senderStacks := by decide
  have hnil := hasNil_senderMachine hstack
  have hstep := step_senderMachine hstack (by decide : (0 : UInt32) ∈ [0, 192])
  obtain ⟨hseparate, hpushed, hfetched⟩ := returns_calledMachine.1 0 (by decide)
  obtain ⟨e, σ, c, hargs, -, hcalls, hentered, hresumes⟩ :=
    send_enters_and_return_resumes (wellFormed_senderMachine hstack (by decide))
      (mirrored_senderMachine hstack (by decide)) hnil hseparate rfl
      (fetch_senderMachine hstack (by decide)) hstep
  have hpush : push (.ofByte 5) (machineOf (step (senderMachine 168 0))) =
      .ok () (calledMachine 168 0) :=
    eq_ok_of_answerOf hpushed
  have hfetch : fetch (calledMachine 168 0) = .ok .returnMethod
      (machineOf (fetch (calledMachine 168 0))) :=
    eq_ok_of_answerOf hfetched
  obtain ⟨m₃, hreturn, hresumed, -⟩ :=
    hresumes _ _ _ (hentered.returning_of_push hnil (.small _) hpush ⟨_, hfetch⟩)
  exact ⟨_, e, σ, c, hstep, hargs, hcalls, hentered, m₃, hreturn, hresumed⟩

set_option maxRecDepth 100000 in
/-- A context that has itself for its stack sends with another receiver than the operand there was,
for its own instruction number lies in that place. A context that passes for nil is never returned
to. -/
theorem send_from_overlaid_context :
    (∃ m m₀ m₁ : Machine, m.WellFormed ∧ m.Mirrored ∧ m.HasNil ∧ fetch m = .ok (.send 1 0) m₀ ∧
      step m = .ok () m₁ ∧ ¬ ∃ e σ c, e.args.length = 1 ∧ m.Calls e ∧ m.Entered e σ c m₁) ∧
    ∃ m m₀ m₁ m₂ m₃ : Machine, m.WellFormed ∧ m.Mirrored ∧
      (∀ r ∈ [Root.activeContext, .homeContext, .method],
        m.registers.get .stack ≠ m.registers.get r) ∧
      fetch m = .ok (.send 1 0) m₀ ∧ step m = .ok () m₁ ∧ push (.ofByte 5) m₁ = .ok () m₂ ∧
      (∃ m₂', fetch m₂ = .ok .returnMethod m₂') ∧ step m₂ = .error .doubleReturn m₃ := by
  constructor
  · have hstack : 192 ∈ senderStacks := by decide
    refine ⟨senderMachine 192 0, _, _, wellFormed_senderMachine hstack (by decide),
      mirrored_senderMachine hstack (by decide), hasNil_senderMachine hstack,
      fetch_senderMachine hstack (by decide), step_senderMachine hstack (by decide), ?_⟩
    rintro ⟨e, σ, c, hargs, hcalls, hentered⟩
    have hbefore : (senderMachine 192 0).memory.getPtr
        ((senderMachine 192 0).registers.get .stack) 1 = .ok (.ofByte 1) := by
      decide +kernel
    have hafter : (machineOf (step (senderMachine 192 0))).memory.getPtr
        ((machineOf (step (senderMachine 192 0))).registers.get .activeContext)
        MethodContext.receiver =
          .ok (.ofByte 2) := by
      decide +kernel
    obtain ⟨i, hi, hreceiver⟩ := hcalls.receiver
    obtain rfl : i = 1 := by
      have hsp : i + e.args.length + 1 = 3 := hi
      omega
    obtain ⟨v, hv, hframe⟩ := hentered.filled MethodContext.receiver (by decide)
    rw [hentered.active, hv] at hafter
    rw [hbefore] at hreceiver
    cases hafter
    have hrenames := hframe.renames_of_receiver rfl
    rw [← Except.ok.inj hreceiver] at hrenames
    cases hrenames
  · have hstack : 168 ∈ senderStacks := by decide
    obtain ⟨hseparate, hpush, hfetch⟩ := returns_calledMachine.1 192 (by decide)
    exact ⟨senderMachine 168 192, _, _, _, _, wellFormed_senderMachine hstack (by decide),
      mirrored_senderMachine hstack (by decide), hseparate, fetch_senderMachine hstack (by decide),
      step_senderMachine hstack (by decide),
      eq_ok_of_answerOf hpush, ⟨_, eq_ok_of_answerOf hfetch⟩,
      eq_error_of_errorOf returns_calledMachine.2⟩

end Machine

end Smalltalk
