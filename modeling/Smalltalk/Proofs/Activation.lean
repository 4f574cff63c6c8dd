import Smalltalk.Proofs.Running

/-!
# Activating contexts

Activating a context loads registers from its fields, from those of its home and from those of the
method. Registers that could be loaded again without a change *mirror* the active context.

Running a method and returning from it are taken apart here into making a context, filling it in,
leaving the old one and activating the new one.

## Main definitions

* `Machine.Activated`: the registers have been loaded from a context
* `Machine.Mirrored`: activating the active context once more changes nothing

## Main results

* `activateContext_eq_ok`, `Machine.Activated.mirrored`
* `Machine.mirrored_iff`: which fields the registers agree with
-/

namespace Smalltalk

open Memory Machine Layout

/-- The registers that are loaded from the active context. -/
def switched : List Root :=
  [.activeContext, .homeContext, .method, .receiver, .args, .temps, .stack, .code, .literals]

/-- Registers that hold something only while an instruction is carried out. -/
def working : List Root := [.newMethod, .newContext, .compilerMethod]

/-- The registers have been loaded from a context, and nothing else has changed. -/
structure Machine.Activated (v : Value) (m m₁ : Machine) : Prop where
  home : m.homeOf v = .ok (m₁.registers.get .homeContext)
  method : m.memory.getPtr (m₁.registers.get .homeContext) MethodContext.method =
    .ok (m₁.registers.get .method)
  active : m₁.registers.get .activeContext = v
  receiver : m.memory.getPtr (m₁.registers.get .homeContext) MethodContext.receiver =
    .ok (m₁.registers.get .receiver)
  args : m.memory.getPtr (m₁.registers.get .homeContext) MethodContext.args =
    .ok (m₁.registers.get .args)
  temps : m.memory.getPtr (m₁.registers.get .homeContext) MethodContext.temps =
    .ok (m₁.registers.get .temps)
  stack : m.memory.getPtr v Context.stack = .ok (m₁.registers.get .stack)
  code : m.memory.getPtr (m₁.registers.get .method) Method.code = .ok (m₁.registers.get .code)
  literals : m.memory.getPtr (m₁.registers.get .method) Method.literals =
    .ok (m₁.registers.get .literals)
  ip : m.indexField v Context.ip = .ok m₁.ip
  sp : m.indexField v Context.sp = .ok m₁.sp
  others : ∀ r, r ∉ switched → m₁.registers.get r = m.registers.get r
  rest : m₁ = { m with registers := m₁.registers, ip := m₁.ip, sp := m₁.sp }
  scratch : m₁.registers.scratch = m.registers.scratch

section Activating

variable {m m₁ : Machine} {v : Value}

theorem loadRegister_bind_eq_ok {β : Type} {r : Root} {o : Value} {i : Nat} {k : Unit → Exec β}
    {b : β} (h : (loadRegister r o i >>= k) m = .ok b m₁) :
    ∃ w, m.memory.getPtr o i = .ok w ∧
      k () { m with registers := m.registers.set r w } = .ok b m₁ := by
  obtain ⟨_, m₂, hload, h⟩ := bind_eq_ok h
  obtain ⟨w, hw, hset⟩ := read_bind_eq_ok hload
  cases hset
  exact ⟨w, hw, h⟩

/-- **A context that has been activated** has its registers loaded. -/
theorem activateContext_eq_ok (h : activateContext v m = .ok () m₁) : m.Activated v m₁ := by
  unfold activateContext at h
  obtain ⟨home, hhome, h⟩ := read_bind_eq_ok h
  obtain ⟨method, hmethod, h⟩ := read_bind_eq_ok h
  obtain ⟨_, m₂, hset, h⟩ := bind_eq_ok h
  cases hset
  obtain ⟨_, m₃, hset, h⟩ := bind_eq_ok h
  cases hset
  obtain ⟨_, m₄, hset, h⟩ := bind_eq_ok h
  cases hset
  obtain ⟨receiver, hreceiver, h⟩ := loadRegister_bind_eq_ok h
  obtain ⟨args, hargs, h⟩ := loadRegister_bind_eq_ok h
  obtain ⟨temps, htemps, h⟩ := loadRegister_bind_eq_ok h
  obtain ⟨stack, hstack, h⟩ := loadRegister_bind_eq_ok h
  obtain ⟨code, hcode, h⟩ := loadRegister_bind_eq_ok h
  obtain ⟨literals, hliterals, h⟩ := loadRegister_bind_eq_ok h
  obtain ⟨ip, hip, h⟩ := read_bind_eq_ok h
  rw [modify_bind] at h
  obtain ⟨sp, hsp, h⟩ := read_bind_eq_ok h
  cases h
  constructor
  case others =>
    intro r hr
    simp only [switched, List.mem_cons, List.not_mem_nil, or_false, not_or] at hr
    simp only [Registers.get_set, hr, if_false]
  case scratch => rfl
  case rest => rfl
  case ip => exact hip
  case sp => exact hsp
  all_goals simp only [Registers.get_set, reduceCtorEq, if_true, if_false]
  all_goals assumption

end Activating

namespace Machine

/-- Registers for the classes of contexts. -/
def contextClasses : List Root := [.methodContextClass, .blockContextClass]

/-- Activating the active context once more changes nothing. -/
def Mirrored (m : Machine) : Prop :=
  activateContext (m.registers.get .activeContext) m = .ok () m

section Mirroring

variable {m m₁ : Machine} {v : Value}

/-- Putting into a register what is there changes nothing. -/
theorem set_get (registers : Registers) (r : Root) :
    registers.set r (registers.get r) = registers := by
  rw [Registers.set, Registers.get, Fin.getElem_fin, Vector.set_getElem_self]

theorem setRegister_self {r : Root} {w : Value} (h : w = m.registers.get r) :
    setRegister r w m = .ok () m := by
  show EStateM.Result.ok () { m with registers := m.registers.set r w } = _
  rw [h, set_get]

theorem loadRegister_self {r : Root} {o : Value} {i : Nat}
    (h : m.memory.getPtr o i = .ok (m.registers.get r)) : loadRegister r o i m = .ok () m :=
  (bind_of_eq_ok (read_of_eq_ok h)).trans (setRegister_self rfl)

/-- **Which fields the registers agree with.** -/
theorem mirrored_iff : m.Mirrored ↔ m.Activated (m.registers.get .activeContext) m := by
  refine ⟨activateContext_eq_ok, fun h => ?_⟩
  unfold Mirrored activateContext
  refine (bind_of_eq_ok (read_of_eq_ok h.home)).trans ?_
  refine (bind_of_eq_ok (read_of_eq_ok h.method)).trans ?_
  refine (bind_of_eq_ok (setRegister_self rfl)).trans ?_
  refine (bind_of_eq_ok (setRegister_self rfl)).trans ?_
  refine (bind_of_eq_ok (setRegister_self rfl)).trans ?_
  refine (bind_of_eq_ok (loadRegister_self h.receiver)).trans ?_
  refine (bind_of_eq_ok (loadRegister_self h.args)).trans ?_
  refine (bind_of_eq_ok (loadRegister_self h.temps)).trans ?_
  refine (bind_of_eq_ok (loadRegister_self h.stack)).trans ?_
  refine (bind_of_eq_ok (loadRegister_self h.code)).trans ?_
  refine (bind_of_eq_ok (loadRegister_self h.literals)).trans ?_
  refine (bind_of_eq_ok (read_of_eq_ok h.ip)).trans ?_
  refine (modify_bind _ _ _).trans ?_
  exact bind_of_eq_ok (read_of_eq_ok h.sp)

/-- The home of a context depends on the heap and on two registers. -/
theorem homeOf_congr (hmemory : m₁.memory = m.memory)
    (hget : ∀ r ∈ contextClasses, m₁.registers.get r = m.registers.get r) :
    m₁.homeOf v = m.homeOf v := by
  unfold homeOf
  rw [hmemory, hget .methodContextClass (by decide), hget .blockContextClass (by decide)]

/-- **A context that has been activated is mirrored.** -/
theorem Activated.mirrored (h : m.Activated v m₁) : m₁.Mirrored := by
  have hmemory : m₁.memory = m.memory := by rw [h.rest]
  have hget : ∀ r ∈ contextClasses, m₁.registers.get r = m.registers.get r := fun r hr =>
    h.others r ((show ∀ r ∈ contextClasses, r ∉ switched by decide) r hr)
  have hindex : ∀ i, m₁.indexField v i = m.indexField v i := fun i => by
    unfold indexField
    rw [hmemory]
  refine mirrored_iff.2 ?_
  rw [h.active]
  exact {
    home := (homeOf_congr hmemory hget).trans h.home
    method := hmemory ▸ h.method
    active := h.active
    receiver := hmemory ▸ h.receiver
    args := hmemory ▸ h.args
    temps := hmemory ▸ h.temps
    stack := hmemory ▸ h.stack
    code := hmemory ▸ h.code
    literals := hmemory ▸ h.literals
    ip := (hindex _).trans h.ip
    sp := (hindex _).trans h.sp
    others := fun _ _ => rfl
    rest := rfl
    scratch := rfl }

end Mirroring

end Machine

/-! ## Returning from a method -/

/-- A condition under which an effect fails at once, before another effect. -/
theorem guard_bind {ε α β : Type} {c : Prop} [Decidable c] {e : ε} {x : EStateM ε Machine α}
    {k : α → EStateM ε Machine β} :
    (if c then MonadExcept.throw e >>= fun (_ : PUnit) => x else x) >>= k =
      if c then MonadExcept.throw e >>= fun (_ : PUnit) => x >>= k else x >>= k := by
  by_cases h : c
  · simp only [if_pos h, bind_assoc]
  · simp only [if_neg h]

/-- Marks the home context as returned, and answers its caller. -/
def leaveMethod : Exec Value := do
  let home ← register .homeContext
  let state ← check (FrameState.ofValue (← getPtr home MethodContext.state))
  let caller ← getPtr home Context.caller
  let nil ← look Machine.nil
  if state = .returned ∨ caller = nil then throw .doubleReturn
  setPtr home MethodContext.state (FrameState.value .returned)
  setPtr home Context.caller nil
  return caller

theorem returnFromMethod_eq : returnFromMethod = leaveMethod >>= answerTo := by
  unfold returnFromMethod leaveMethod
  simp only [bind_assoc, guard_bind, pure_bind]

/-- What the check of a return reads. -/
theorem leaveMethod_apply {m : Machine} {home v caller : Value} {state : FrameState}
    (hhome : m.registers.get .homeContext = home)
    (hv : m.memory.getPtr home MethodContext.state = .ok v)
    (hstate : FrameState.ofValue v = .ok state)
    (hcaller : m.memory.getPtr home Context.caller = .ok caller) :
    leaveMethod m = ((if state = .returned ∨ caller = m.nil then throw .doubleReturn else do
      setPtr home MethodContext.state (FrameState.value .returned)
      setPtr home Context.caller m.nil
      return caller : Exec Value)) m := by
  unfold leaveMethod
  rw [register_bind, hhome]
  refine (bind_of_eq_ok (read_of_eq_ok hv)).trans ?_
  refine (bind_of_eq_ok (read_of_eq_ok hstate)).trans ?_
  refine (bind_of_eq_ok (read_of_eq_ok hcaller)).trans ?_
  rw [look_bind]
  by_cases hc : state = .returned ∨ caller = m.nil
  · rw [if_pos hc, if_pos hc]
    exact bind_of_eq_error rfl
  · rw [if_neg hc, if_neg hc]

/-! ## Running a method -/

/-- Makes an object with fields and puts it into a register. -/
def makeIn (r c : Root) (size : Nat) : Exec Unit := do
  setRegister r (← createObject (← register c) size .pointers)

theorem makeIn_bind {α : Type} {r c : Root} {k : Nat} (act : Exec α) :
    (do setRegister r (← createObject (← register c) k .pointers); act) =
      (do makeIn r c k; act) := by
  simp only [makeIn, bind_assoc]

/-- Fills in the context that has been made for the new method. -/
def fillFrame : Exec Unit := do
  addArray (← newMethodCount Method.stackSize) Context.stack
  let context ← register .newContext
  setPtr context Context.caller (← register .activeContext)
  setPtr context Context.ip (.ofByte 0)
  setPtr context Context.sp (.ofByte 0)
  setPtr context MethodContext.method (← register .newMethod)
  setPtr context MethodContext.state (FrameState.value .active)
  moveArguments (← newMethodCount Method.argSize)
  let receiver ← pop
  setPtr (← register .newContext) MethodContext.receiver receiver
  addArray (← newMethodCount Method.tempSize) MethodContext.temps

/-- Activates the context that has been made. -/
def enterFrame : Exec Unit := do
  let nil ← look Machine.nil
  let context ← register .newContext
  setRegister .newMethod nil
  setRegister .newContext nil
  activateContext context

/-- Makes a context for the new method. -/
def newFrame : Exec Unit := do
  makeIn .newContext .methodContextClass MethodContext.size
  fillFrame

theorem executeNewMethod_eq : executeNewMethod = (do newFrame; enterFrame) := by
  unfold executeNewMethod newFrame fillFrame enterFrame
  rw [makeIn_bind]
  simp only [bind_assoc]

/-- The machine without a new method and a new context. -/
def Machine.cleared (m : Machine) : Machine :=
  { m with registers := (m.registers.set .newMethod m.nil).set .newContext m.nil }

theorem enterFrame_apply {m : Machine} :
    enterFrame m = activateContext (m.registers.get .newContext) m.cleared := rfl

theorem get_cleared {m : Machine} {r : Root} (hr : r ∉ working) :
    m.cleared.registers.get r = m.registers.get r := by
  have hother : r ≠ .newMethod ∧ r ≠ .newContext := by
    constructor
    all_goals
      rintro rfl
      exact hr (by decide)
  show ((m.registers.set .newMethod m.nil).set .newContext m.nil).get r = _
  rw [Registers.get_set, if_neg hother.2, Registers.get_set, if_neg hother.1]

end Smalltalk
