import Smalltalk.Proofs.Framing

/-!
# Sending a message

An instruction that sends a message finds a method and runs it. The context that was active waits,
with the operands of the message gone from its stack, and a new context of the method is active.
Everything else is as before, wherever collections have moved it.

## Main definitions

* `Machine.Finds`: the method that is found
* `Machine.Entered`: the method has been entered

## Main results

* `Machine.fetch_edits`: fetching an instruction stores the instruction pointer
* `Machine.Activated.edits`: activating a context changes registers
* `Machine.step_entered`: a send enters the method
-/

namespace Smalltalk

open Memory Machine Layout

/-- How many arguments an instruction sends. -/
def Instruction.sentArgs : Instruction → Option Nat
  | .send argc _ => some argc.toNat
  | .sendSuper argc _ => some argc.toNat
  | _ => none

namespace Machine

/-! ## Instructions -/

section Fetching

variable {m m₀ : Machine} {i : Instruction}

/-- The word is read, the instruction pointer is moved, and what is fetched may be reported. -/
theorem fetch_eq_ok (hfetch : fetch m = .ok i m₀) :
    ∃ word m₁, m.memory.getWord (m.registers.get .code) m.ip = .ok word ∧
      Instruction.decode word = .ok i ∧ setIp "fetch" (m.ip + 1) m = .ok () m₁ ∧
      m₀.memory = m₁.memory ∧ m₀.registers = m₁.registers ∧ m₀.sp = m₁.sp ∧ m₀.ip = m₁.ip := by
  unfold fetch at hfetch
  obtain ⟨word, hword, hfetch⟩ := read_bind_eq_ok hfetch
  rw [look_bind] at hfetch
  obtain ⟨_, m₁, hset, hfetch⟩ := bind_eq_ok hfetch
  obtain ⟨i', hdecode, hfetch⟩ := read_bind_eq_ok hfetch
  rw [look_bind, look_bind] at hfetch
  obtain ⟨_, m₂, hreport, hfetch⟩ := bind_eq_ok hfetch
  cases hfetch
  exact ⟨word, m₁, hword, hdecode, hset, report_eq_ok hreport⟩

/-- **Fetching an instruction** moves the instruction pointer. -/
theorem fetch_edits (hm : m.WellFormed) (hfetch : fetch m = .ok i m₀) :
    m.Edits (fun x j => m.At .activeContext x ∧ j = Context.ip) [] m.memory.unmoved m₀ ∧
      m₀.registers = m.registers ∧ m₀.sp = m.sp ∧ m₀.ip = m.ip + 1 ∧
      m₀.indexField (m.registers.get .activeContext) Context.ip = .ok (m.ip + 1) ∧
      m₀.memory.headers = m.memory.headers ∧
      ∃ word, m.memory.getWord (m.registers.get .code) m.ip = .ok word := by
  obtain ⟨word, m₁, hword, -, hset, hmemory, hregisters, hsp, hip⟩ := fetch_eq_ok hfetch
  rw [setIp, modify_bind, register_bind] at hset
  obtain ⟨v, hv, hset⟩ := read_bind_eq_ok hset
  obtain ⟨k, rfl⟩ := smallValue_eq_ok hv
  have hactive := hm.registers.get .activeContext
  have hm' : { m with ip := m.ip + 1 }.WellFormed := ⟨hm.memory, hm.registers⟩
  have hmoved : m.Edits (fun x j => m.At .activeContext x ∧ j = Context.ip) [] m.memory.unmoved
      { m with ip := m.ip + 1 } := (Edits.refl hm).congr rfl rfl
  have hedits := hmoved.setPtr hactive (.small k) hset fun a x ha hx => ⟨⟨a, ha, hx.2.symm⟩, rfl⟩
  have hread := indexField_after_setPtr hm' hactive hv hset
  obtain ⟨memory, hstore, rfl⟩ := setPtr_eq_ok hset
  refine ⟨hedits.congr hmemory hregisters, hregisters, hsp, hip, ?_, ?_, word, hword⟩
  · rw [Machine.indexField, hmemory]
    exact hread
  · obtain ⟨_, -, -, -, hs, -⟩ := stored_setPtr hm.memory hactive hstore
    rw [hmemory]
    exact hs.headers hm.memory

end Fetching

/-- The method that a send runs. It is looked for from the class of the receiver on, or from the
superclass of the class that has the running method. -/
inductive Finds (m : Machine) : Instruction → Value → Prop
  | send {argc : UInt8} {literal : UInt16} {selector receiver cls method : Value}
      (hselector : m.memory.getPtr (m.registers.get .literals) literal.toNat = .ok selector)
      (hreceiver : m.peek argc.toNat = .ok receiver) (hclass : m.classOf receiver = .ok cls)
      (hmethod : m.findMethod cls selector = .ok method) : Finds m (.send argc literal) method
  | sendSuper {argc : UInt8} {literal : UInt16} {selector owner cls method : Value}
      (hselector : m.memory.getPtr (m.registers.get .literals) literal.toNat = .ok selector)
      (howner : m.memory.getPtr (m.registers.get .method) Method.owner = .ok owner)
      (hclass : m.memory.getPtr owner Behavior.superclass = .ok cls)
      (hmethod : m.findMethod cls selector = .ok method) : Finds m (.sendSuper argc literal) method

section Sending

variable {m m₁ : Machine} {i : Instruction} {cls selector : Value} {argc : Nat}

theorem literalAt_bind_eq_ok {index : UInt16} {act : Value → Exec Unit}
    (h : (literalAt index >>= act) m = .ok () m₁) :
    ∃ v, m.memory.getPtr (m.registers.get .literals) index.toNat = .ok v ∧ act v m = .ok () m₁ := by
  obtain ⟨v, m₂, hliteral, hrun⟩ := bind_eq_ok h
  rw [literalAt, register_bind] at hliteral
  obtain ⟨hv, rfl⟩ := read_eq_ok hliteral
  exact ⟨v, hv, hrun⟩

theorem send_eq_ok (h : send cls selector argc m = .ok () m₁) :
    ∃ method, m.findMethod cls selector = .ok method ∧
      m.indexField method Method.argSize = .ok argc ∧
      executeNewMethod { m with registers := m.registers.set .newMethod method } = .ok () m₁ := by
  unfold send at h
  obtain ⟨method, hmethod, h⟩ := read_bind_eq_ok h
  obtain ⟨expected, hexpected, h⟩ := read_bind_eq_ok h
  by_cases hargc : expected = argc
  · subst hargc
    rw [if_neg (not_not.2 rfl)] at h
    exact ⟨method, hmethod, hexpected, h⟩
  · rw [if_pos hargc] at h
    cases h

/-- **A send runs the method that it finds**, with as many arguments as the method has. -/
theorem execute_send_eq_ok (hsend : i.sentArgs = some argc) (h : execute i m = .ok () m₁) :
    ∃ method, m.Finds i method ∧ m.indexField method Method.argSize = .ok argc ∧
      executeNewMethod { m with registers := m.registers.set .newMethod method } = .ok () m₁ := by
  cases i with
  | send count literal =>
    obtain rfl := Option.some.inj hsend
    obtain ⟨selector, hselector, hsent⟩ := literalAt_bind_eq_ok h
    obtain ⟨receiver, hreceiver, hsent⟩ := read_bind_eq_ok hsent
    obtain ⟨cls, hclass, hsent⟩ := read_bind_eq_ok hsent
    obtain ⟨method, hmethod, hrun⟩ := send_eq_ok hsent
    exact ⟨method, .send hselector hreceiver hclass hmethod, hrun⟩
  | sendSuper count literal =>
    obtain rfl := Option.some.inj hsend
    obtain ⟨selector, hselector, hsent⟩ := literalAt_bind_eq_ok h
    rw [register_bind] at hsent
    obtain ⟨owner, howner, hsent⟩ := read_bind_eq_ok hsent
    obtain ⟨cls, hclass, hsent⟩ := read_bind_eq_ok hsent
    obtain ⟨method, hmethod, hrun⟩ := send_eq_ok hsent
    exact ⟨method, .sendSuper hselector howner hclass hmethod, hrun⟩
  | _ => cases hsend

/-- A method that is found belongs to the heap. -/
theorem Finds.holds {method : Value} (hm : m.WellFormed) (h : m.Finds i method) :
    m.memory.Holds method := by
  have hfield : ∀ {o u k}, m.memory.Holds o → m.memory.getPtr o k = .ok u → m.memory.Holds u :=
    fun ho hu => (hm.memory.holds_getPtr ho hu).2
  cases h with
  | send hselector hreceiver hclass hmethod =>
    unfold peek at hreceiver
    split at hreceiver
    · cases hreceiver
    · have hheld := hfield (hm.registers.get .stack) hreceiver
      exact findMethod_holds hm (classOf_holds hm hheld hclass)
        (hfield (hm.registers.get .literals) hselector) hmethod
  | sendSuper hselector howner hclass hmethod =>
    exact findMethod_holds hm (hfield (hfield (hm.registers.get .method) howner) hclass)
      (hfield (hm.registers.get .literals) hselector) hmethod

end Sending

/-! ## Activating -/

section Activating

variable {T : Nat → Nat → Prop} {K : List Root} {σ : Renaming} {m n n₁ : Machine} {v w home : Value}

theorem methodContext_of_bind {u : Value} :
    (m.memory.classOf u >>= fun cls =>
      if cls ≠ m.registers.get .methodContextClass then
        Except.error (.corruptContext .homeNotAMethodContext)
      else pure u) = .ok home ↔
    home = u ∧ m.memory.classOf u = .ok (m.registers.get .methodContextClass) := by
  cases m.memory.classOf u with
  | error e =>
    refine ⟨fun h => ?_, fun h => ?_⟩
    · cases h
    · cases h.2
  | ok cls =>
    show (if cls ≠ _ then _ else _) = _ ↔ _
    by_cases hcls : cls = m.registers.get .methodContextClass
    · rw [if_neg (not_not.2 hcls), hcls]
      refine ⟨fun h => ⟨(Except.ok.inj h).symm, rfl⟩, fun h => ?_⟩
      rw [h.1]
      rfl
    · rw [if_pos hcls]
      refine ⟨fun h => ?_, fun h => absurd (Except.ok.inj h.2) hcls⟩
      cases h

/-- What the home of a context is. -/
theorem homeOf_eq_ok_iff : m.homeOf v = .ok home ↔ ∃ cls, m.memory.classOf v = .ok cls ∧
    (if cls = m.registers.get .methodContextClass then home = v
      else cls = m.registers.get .blockContextClass ∧
      m.memory.getPtr v BlockContext.home = .ok home) ∧
    m.memory.classOf home = .ok (m.registers.get .methodContextClass) := by
  constructor
  · intro h
    unfold homeOf at h
    obtain ⟨cls, hcls, h⟩ := except_bind_eq_ok h
    refine ⟨cls, hcls, ?_⟩
    dsimp only at h
    split at h
    · rename_i hmethod
      rw [if_pos hmethod]
      obtain ⟨rfl, hclass⟩ := methodContext_of_bind.1 h
      exact ⟨rfl, hclass⟩
    · rename_i hmethod
      rw [if_neg hmethod]
      split at h
      · rename_i hblock
        obtain ⟨u, hu, h⟩ := except_bind_eq_ok h
        obtain ⟨rfl, hclass⟩ := methodContext_of_bind.1 h
        exact ⟨⟨hblock, hu⟩, hclass⟩
      · cases h
  · rintro ⟨cls, hcls, hhome, hclass⟩
    unfold homeOf
    rw [hcls]
    show (if cls = _ then _ else _) = _
    split at hhome
    · rename_i hmethod
      rw [if_pos hmethod]
      exact methodContext_of_bind.2 ⟨hhome, hhome ▸ hclass⟩
    · rename_i hmethod
      rw [if_neg hmethod, if_pos hhome.1, hhome.2]
      exact methodContext_of_bind.2 ⟨rfl, hclass⟩

theorem holds_homeOf (hm : m.WellFormed) (hv : m.memory.Holds v) (h : m.homeOf v = .ok home) :
    m.memory.Holds home := by
  obtain ⟨cls, -, hhome, -⟩ := homeOf_eq_ok_iff.1 h
  split at hhome
  · exact hhome ▸ hv
  · exact (hm.memory.holds_getPtr hv hhome.2).2

/-- **Activating a context** changes registers and nothing else. -/
theorem Activated.edits (hn : n.WellFormed) (hv : n.memory.Holds v) (h : n.Activated v n₁) :
    n.Edits untouched switched n.memory.unmoved n₁ := by
  have hmemory : n₁.memory = n.memory := by rw [h.rest]
  have hhome := holds_homeOf hn hv h.home
  have hfield : ∀ {o u i}, n.memory.Holds o → n.memory.getPtr o i = .ok u → n.memory.Holds u :=
    fun ho hu => (hn.memory.holds_getPtr ho hu).2
  have hmethod := hfield hhome h.method
  have hswitched : ∀ r ∈ switched, n.memory.Holds (n₁.registers.get r) := by
    simp only [switched, List.forall_mem_cons]
    exact ⟨h.active.symm ▸ hv, hhome, hmethod, hfield hhome h.receiver, hfield hhome h.args,
      hfield hhome h.temps, hfield hv h.stack, hfield hmethod h.code, hfield hmethod h.literals,
      fun r hr => absurd hr List.not_mem_nil⟩
  have hget : ∀ r, n.memory.Holds (n₁.registers.get r) := by
    intro r
    by_cases hr : r ∈ switched
    · exact hswitched r hr
    · rw [h.others r hr]
      exact hn.registers.get r
  have hconstant : ∀ r, r ∉ Root.running → r ∉ switched :=
    fun r hr hc => hr ((by decide : ∀ r ∈ switched, r ∈ Root.running) r hc)
  exact {
    toFollows := .unmoved hn (hmemory ▸ .refl) (fun r hr => h.others r (hconstant r hr))
      (fun r _ hr => h.others r hr) fun i v hv => h.scratch ▸ hv
    before := hn
    after := ⟨hmemory ▸ hn.memory, hmemory ▸ .of_get hget (h.scratch ▸ hn.registers.scratch)⟩
    size := by rw [h.scratch]
    objects := fun x x' hx => by
      rw [hmemory]
      exact .of_matches ((Corresponds.refl hn.memory).objects x x' hx) }

end Activating

/-! ## Entering a method -/

/-- The registers that change when a method is entered. -/
def entering : List Root := .newMethod :: .newContext :: switched

/-- The fields that change when so many operands are taken: the progress of the active context, and
the places of the operands. -/
def taken (m : Machine) (count x i : Nat) : Prop :=
  m.At .activeContext x ∧ (i = Context.ip ∨ i = Context.sp) ∨
    m.At .stack x ∧ m.sp ≤ i + count ∧ i < m.sp

/-- Nil is an object without fields. -/
def HasNil (m : Machine) : Prop := ∃ a : Address, m.nil = .ref a ∧ m.memory.size (.ref a) = .ok 0

/-- **A method has been entered**: the object at `c` is its context, and the context that was active
waits below it. -/
structure Entered (m : Machine) (e : Invocation) (σ : Renaming) (c : Address) (m₁ : Machine) :
    Prop extends Edits (m.taken (e.args.length + 1)) entering σ m m₁ where
  active : m₁.registers.get .activeContext = .ref c
  fresh : ∀ x, ¬ σ x c.offset
  cls : m₁.classOf (.ref c) = .ok (m₁.registers.get .methodContextClass)
  fields : m₁.memory.size (.ref c) = .ok MethodContext.size
  filled : ∀ f < MethodContext.size, ∃ v, m₁.memory.getPtr (.ref c) f = .ok v ∧
    FrameField (inUse σ c fun _ => False) e m σ m₁ f v
  apart : ∀ f < MethodContext.size, ∀ g < MethodContext.size, f ≠ g → ∀ a : Address,
    m₁.memory.getPtr (.ref c) f = .ok (.ref a) → m₁.memory.getPtr (.ref c) g = .ok (.ref a) →
    ∃ x, σ x a.offset
  mirrored : m₁.Mirrored
  ip : m₁.ip = 0
  sp : m₁.sp = 0
  newMethod : m₁.registers.get .newMethod = m₁.nil
  newContext : m₁.registers.get .newContext = m₁.nil
  waitingIp : ∀ v, Value.Renames σ (m.registers.get .activeContext) v →
    m₁.indexField v Context.ip = .ok (m.ip + 1)
  waitingSp : ∀ v, Value.Renames σ (m.registers.get .activeContext) v →
    ∃ k, k + (e.args.length + 1) = m.sp ∧ m₁.indexField v Context.sp = .ok k
  popped : ∀ v i, Value.Renames σ (m.registers.get .stack) v → m.sp ≤ i + (e.args.length + 1) →
    i < m.sp → m₁.memory.getPtr v i = .ok m₁.nil

section Entering

variable {busy : Nat → Prop} {σ : Renaming} {m m₀ m₁ n : Machine} {e : Invocation} {i : Instruction}
  {argc f : Nat} {v : Value} {c : Address}

theorem FrameField.congr (h : FrameField busy e m₀ σ n f v)
    (hactive : m₀.registers.get .activeContext = m.registers.get .activeContext)
    (hnil : m₀.nil = m.nil) : FrameField busy e m σ n f v := by
  cases h with
  | caller h => exact .caller (hactive ▸ h)
  | ip => exact .ip
  | stack h => exact .stack (hnil ▸ h)
  | sp => exact .sp
  | method h => exact .method h
  | receiver h => exact .receiver h
  | args h => exact .args h
  | temps h => exact .temps (hnil ▸ h)
  | state => exact .state

theorem indexField_of_zero (hv : n.memory.getPtr v f = .ok (.ofByte 0)) :
    n.indexField v f = .ok 0 := by
  rw [Machine.indexField, hv]
  rfl

/-- The new context is activated, and no longer new. -/
theorem enterFrame_eq_ok (hn : n.WellFormed) (hrun : enterFrame n = .ok () m₁) :
    n.Edits untouched entering n.memory.unmoved m₁ ∧
      n.cleared.Activated (n.registers.get .newContext) m₁ ∧ m₁.memory = n.memory ∧
      m₁.registers.get .newMethod = m₁.nil ∧ m₁.registers.get .newContext = m₁.nil := by
  have hactivated := activateContext_eq_ok (enterFrame_apply.symm.trans hrun)
  have hnil := hn.registers.get .nil
  have hcleared : n.Edits untouched entering n.memory.unmoved n.cleared :=
    ((Edits.refl hn).setRegister (by decide) (by decide) hnil).setRegister (by decide)
      (by decide) hnil
  have hentered := (hactivated.edits hcleared.after (hn.registers.get .newContext)).mono
    (fun _ _ hx => hx) (by decide : switched ⊆ entering)
  have hsame : m₁.nil = n.nil :=
    (hactivated.others .nil (by decide)).trans (get_cleared (r := .nil) (by decide))
  refine ⟨hcleared.trans_unmoved hentered (fun _ _ hx => hx) fun _ _ _ _ hx => hx, hactivated,
    ?_, ?_, ?_⟩
  · rw [hactivated.rest]
    rfl
  · rw [hactivated.others .newMethod (by decide), hsame]
    exact (Registers.get_set _ _ _ _).trans
      ((if_neg (by decide)).trans ((Registers.get_set _ _ _ _).trans (if_pos rfl)))
  · rw [hactivated.others .newContext (by decide), hsame]
    exact (Registers.get_set _ _ _ _).trans (if_pos rfl)

/-- **The method is entered** when its context is complete. The instruction had been fetched
before. -/
theorem Assembles.entered {p : Machine}
    (hfirst : m.Edits (fun x j => m.At .activeContext x ∧ j = Context.ip) [.newMethod]
      m.memory.unmoved p) (hheaders : p.memory.headers = m.memory.headers)
    (hget : ∀ r, r ≠ .newMethod → p.registers.get r = m.registers.get r) (hsp : p.sp = m.sp)
    (hip : p.indexField (m.registers.get .activeContext) Context.ip = .ok (m.ip + 1))
    (hapart : m.registers.get .stack ≠ m.registers.get .activeContext)
    (h : Assembles e p (e.args.length + 1) σ n c (fun _ => False)
      (List.range MethodContext.size) [])
    (hrun : enterFrame n = .ok () m₁) : m.Entered e σ c m₁ := by
  obtain ⟨hentered, hactivated, hmemory, hnewMethod, hnewContext⟩ := enterFrame_eq_ok h.after hrun
  rw [h.register] at hactivated
  have hat : ∀ {r : Root}, r ≠ .newMethod → ∀ {x}, p.At r x → m.At r x := by
    rintro r hr x ⟨a, ha, hax⟩
    exact ⟨a, (hget r hr).symm.trans ha, hax⟩
  have hall : m.Edits (m.taken (e.args.length + 1)) entering σ m₁ := by
    refine (hfirst.mono (fun _ _ hx => hx) (by decide)).unmoved_trans
      ((h.toEdits.mono (fun _ _ hx => hx) (by decide : [Root.newContext] ⊆ entering)).trans_unmoved
        hentered (fun _ _ hx => hx) fun _ _ _ _ hx => absurd hx id) hheaders ?_ ?_
    · rintro x i ⟨hx, hi⟩
      exact .inl ⟨hx, .inl hi⟩
    · rintro x i - (⟨hx, hi⟩ | ⟨hx, hlow, hhigh⟩)
      · exact .inl ⟨hat (by decide) hx, .inr hi⟩
      · exact .inr ⟨hat (by decide) hx, by omega, by omega⟩
  have hc : n.memory.Holds (.ref c) := h.register ▸ h.after.registers.get .newContext
  have hnil : m₁.nil = n.nil := (hentered.register_eq (r := .nil) (by decide) (.unmoved
    (h.after.registers.get .nil))).symm
  have hindex : ∀ v k, m₁.indexField v k = n.indexField v k := by
    intro v k
    rw [Machine.indexField, hmemory, Machine.indexField]
  have hsame : ∀ {r : Root} {v : Value}, r ≠ .newMethod → r ≠ .newContext →
      Value.Renames σ (m.registers.get r) v → n.registers.get r = v := by
    intro r v hr hr' hv
    rw [← hget r hr] at hv
    exact (h.eq_iff (h.old hr') hv).1 rfl
  have hcount := h.sp
  refine ⟨hall, hactivated.active, h.fresh, ?cls, hmemory ▸ h.fields, ?filled, ?apart,
    hactivated.mirrored, ?ip, ?sp, hnewMethod, hnewContext, ?waitingIp, ?waitingSp, ?popped⟩
  case cls => exact hentered.hasClass (by decide) (.unmoved hc) h.cls
  case filled =>
    intro f hf
    obtain ⟨v, hv, hfield⟩ := h.filled f (List.mem_range.2 hf)
    have hheld := (h.after.memory.holds_getPtr hc hv).2
    have hfield₁ := hfield.edits hentered (fun _ _ hx => absurd hx id)
      (fun x x' hx (hbusy : inUse σ c (fun _ => False) x') => hx.2 ▸ hbusy) (.unmoved hheld)
    rw [h.persists.followedBy_unmoved] at hfield₁
    exact ⟨v, hmemory ▸ hv, hfield₁.congr (hget _ (by decide)) (hget .nil (by decide))⟩
  case apart =>
    intro f hf g hg
    rw [hmemory]
    exact h.apart f (List.mem_range.2 hf) g (List.mem_range.2 hg)
  case ip =>
    obtain ⟨v, hv, hfield⟩ := h.filled Context.ip (by decide)
    rw [hfield.eq_of_ip rfl] at hv
    exact Except.ok.inj (hactivated.ip.symm.trans (indexField_of_zero hv))
  case sp =>
    obtain ⟨v, hv, hfield⟩ := h.filled Context.sp (by decide)
    rw [hfield.eq_of_sp rfl] at hv
    exact Except.ok.inj (hactivated.sp.symm.trans (indexField_of_zero hv))
  case waitingIp =>
    intro v hv
    rw [hindex]
    have hactive := hget .activeContext (by decide)
    refine h.indexField (hactive ▸ hv) (hactive ▸ hip) fun a ha => ?_
    rintro (⟨-, hc⟩ | ⟨hx, -⟩)
    · exact absurd hc (by decide)
    · exact hapart ((hat (by decide) hx).get_eq.trans (hactive.symm.trans ha).symm)
  case waitingSp =>
    intro v hv
    refine ⟨n.sp, by omega, ?_⟩
    rw [hindex, ← hsame (by decide) (by decide) hv]
    exact h.recorded
  case popped =>
    intro v i hv hlow hhigh
    rw [hmemory, ← hsame (by decide) (by decide) hv, hnil]
    exact h.cleared i (by omega) (by omega)

/-- Fetching the instruction has not changed what is called. -/
theorem Calls.before {p : Machine}
    (hfirst : m.Edits (fun x j => m.At .activeContext x ∧ j = Context.ip) [.newMethod]
      m.memory.unmoved p) (hstack : p.registers.get .stack = m.registers.get .stack)
      (hsp : p.sp = m.sp)
    (hapart : m.registers.get .stack ≠ m.registers.get .activeContext)
    (hmethod : m.memory.Holds e.method) (h : p.Calls e) : m.Calls e := by
  have hcount : ∀ {field k}, field ≠ Context.ip → p.indexField e.method field = .ok k →
      m.indexField e.method field = .ok k :=
    fun hfield hk => hfirst.indexField_before (.unmoved hmethod) hk fun _ _ hx => hfield hx.2
  have hoperand : ∀ {j v}, p.memory.getPtr (p.registers.get .stack) j = .ok v →
      m.memory.getPtr (m.registers.get .stack) j = .ok v := by
    intro j v hv
    rw [hstack] at hv
    obtain ⟨u, hu, hren⟩ := hfirst.getPtr_before (.unmoved (hfirst.before.registers.get .stack)) hv
      fun a ha hx => hapart (ha.trans hx.1.get_eq.symm)
    rw [hu, hren.eq_of_fixed fun _ _ hab => hab.2]
  refine ⟨hcount (by decide) h.stackSize, hcount (by decide) h.argSize,
    hcount (by decide) h.tempSize, ?_, fun j v hv => ?_⟩
  · obtain ⟨k, hk, hu⟩ := h.receiver
    exact ⟨k, hsp ▸ hk, hoperand hu⟩
  · obtain ⟨k, hk, hu⟩ := h.args j v hv
    exact ⟨k, hsp ▸ hk, hoperand hu⟩

/-- **A send enters the method that it finds**, with the operands of the message. -/
theorem step_entered (hm : m.WellFormed) (hmirrored : m.Mirrored) (hnil : m.HasNil)
    (hapart : m.registers.get .stack ≠ m.registers.get .activeContext)
    (hsend : i.sentArgs = some argc) (hfetch : fetch m = .ok i m₀) (hstep : step m = .ok () m₁) :
    ∃ e σ c, e.args.length = argc ∧ m₀.Finds i e.method ∧ m.Calls e ∧ m.Entered e σ c m₁ := by
  obtain ⟨i', m₀', hfetch', hexecute⟩ := bind_eq_ok hstep
  obtain ⟨rfl, rfl⟩ := EStateM.Result.ok.inj (hfetch.symm.trans hfetch')
  obtain ⟨hedits, hregisters, hsp, -, hip, hheaders, -⟩ := fetch_edits hm hfetch
  obtain ⟨method, hfinds, hargc, hrun⟩ := execute_send_eq_ok hsend hexecute
  have hheld := hfinds.holds hedits.after
  have hbefore : m.memory.Holds method := by
    cases hheld with
    | small k => exact .small k
    | ref hmem => exact .ref (hheaders ▸ hmem)
  have hfirst := (hedits.mono (fun _ _ hx => hx) (List.nil_subset [.newMethod])).setRegister
    List.mem_cons_self (by decide) hheld
  have hget : ∀ r, r ≠ .newMethod →
      (m₀.registers.set .newMethod method).get r = m.registers.get r := by
    intro r hr
    rw [Registers.get_set, if_neg hr, hregisters]
  have hmirror := mirrored_iff.1 hmirrored
  rw [executeNewMethod_eq] at hrun
  obtain ⟨_, n, hnew, henter⟩ := bind_eq_ok hrun
  obtain ⟨a, ha, -⟩ := hnil
  have hrecorded : m₀.indexField ((m₀.registers.set .newMethod method).get .activeContext)
      Context.sp = .ok m₀.sp := by
    rw [hget _ (by decide), hsp]
    exact hedits.indexField (.unmoved (hm.registers.get .activeContext)) hmirror.sp
      fun _ _ hx => absurd hx.2 (by decide)
  obtain ⟨e, σ, c, hmethod, hcalls, hassembles⟩ := newFrame_assembles hfirst.after
    ⟨a, (hget .nil (by decide)).trans ha⟩
    (by rw [hget _ (by decide), hget _ (by decide)]; exact hapart) hrecorded hnew
  obtain rfl : method = e.method := by
    rw [← hmethod]
    exact ((Registers.get_set _ _ _ _).trans (if_pos rfl)).symm
  have hlength : e.args.length = argc := Except.ok.inj (hcalls.argSize.symm.trans hargc)
  refine ⟨e, σ, c, hlength, hfinds,
    hcalls.before hfirst (hget _ (by decide)) hsp hapart hbefore, ?_⟩
  exact hassembles.entered hfirst hheaders hget hsp hip hapart henter

end Entering

end Machine

end Smalltalk
