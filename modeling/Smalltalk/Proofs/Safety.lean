import Smalltalk.Proofs.Simulation.Classes
import Smalltalk.Proofs.Simulation.Steps

/-!
# Heap safety

A machine is well-formed if its memory is a heap and its registers hold values of that heap. No
operation can break that, whatever code it runs, wherever a collection falls, and whether it
succeeds or fails.

What an operation reads and writes is settled along with it.

* *Writes.* The memory changes in steps, and each of them replaces bytes of one object, adds an
  object behind the last one, or is a collection. After each step the memory is a heap.
* *Reads.* If the bytes that belong to no object are changed before the operation, it does the same,
  and the memories differ again in such bytes only. So these bytes are never read.
* *Checks.* Where the accessors of a heap allow a read or a write, it falls into the object that was
  asked for, and the object lies in the occupied part of the active semispace.

The runs of a machine beside a copy of itself with other unused bytes are a case of two runs side by
side: the renaming is the identity of the objects.

## Main definitions

* `Machine.WellFormed`
* `Machine.Safe`: what an operation may do

## Main results

* `Machine.Safe.of_leads`: an effect that does the same to related machines is safe
* `heap_safe`: every operation is safe
-/

namespace Smalltalk

open Memory Machine

/-! ## Definitions -/

/-- The memory is a heap, and the registers and the values held belong to it. -/
structure Machine.WellFormed (m : Machine) : Prop where
  memory : m.memory.WellFormed
  registers : m.registers.Held m.memory

/-- What the accessors allow for an object lies in the object, and the object lies in the occupied
part of the active semispace. -/
structure Memory.Confined (m : Memory) (a : Address) : Prop where
  inside : m.start ≤ a.offset ∧ a.offset + m.extentAt a.offset ≤ m.free
  header : ∀ operation, m.header operation (.ref a) = .ok a.offset
  element : ∀ operation i kind j, m.element operation (.ref a) i kind = .ok j →
    a.offset + headerBytes ≤ j ∧ j + kind.elementBytes ≤ a.offset + m.extentAt a.offset
  bytes : ∀ j size, m.byteBody (.ref a) = .ok (j, size) →
    a.offset + headerBytes ≤ j ∧ j + size ≤ a.offset + m.extentAt a.offset

/-- The machine `m₁` may be what an operation leaves of `m`. -/
structure Machine.Leaves (m m₁ : Machine) : Prop where
  wellFormed : m₁.WellFormed
  changes : Relation.ReflTransGen Memory.Changes m.memory m₁.memory

/-- The operation is safe on a machine: it leaves a well-formed machine, what it answers belongs to
the heap, it does not end in a fault of a broken heap, and it does not read what belongs to no
object. -/
structure Machine.Safe {ε α : Type} [Failing ε] (m : Machine) (x : EStateM ε Machine α)
    (V : Memory → α → Prop) : Prop where
  ok : ∀ a m₁, x m = .ok a m₁ → m.Leaves m₁ ∧ V m₁.memory a ∧
    ∀ t, m.memory.Twin t → ∃ t₁, m₁.memory.Twin t₁ ∧
      x { m with memory := t } = .ok a { m₁ with memory := t₁ }
  error : ∀ e m₁, x m = .error e m₁ → m.Leaves m₁ ∧ (∀ f, e = Failing.ofFault f → f.Sound) ∧
    ∀ t, m.memory.Twin t → ∃ t₁, m₁.memory.Twin t₁ ∧
      x { m with memory := t } = .error e { m₁ with memory := t₁ }

/-- The value that a call returned, if it did, belongs to the heap. -/
def Memory.HoldsCompletion (m : Memory) (c : Completion) : Prop :=
  ∀ v, c = .returned v → m.Holds v

/-! ## Accessors -/

theorem Memory.WellFormed.confined {m : Memory} (hm : m.WellFormed) {a : Address}
    (ha : a.offset ∈ m.headers) : m.Confined a where
  inside := hm.within ha
  header := fun operation => header_of_mem hm ha operation
  element := by
    intro operation i kind j h
    rw [element_of_mem hm ha] at h
    split at h
    · cases h
    · rename_i hkind
      split at h
      · cases h
      · rename_i hi
        obtain rfl := Except.ok.inj h
        have hle := m.element_within a.offset i (Nat.lt_of_not_le hi)
        rw [Decidable.of_not_not hkind] at hle
        omega
  bytes := by
    intro j size h
    rw [byteBody_of_mem hm ha] at h
    split at h
    · cases h
    · rename_i hkind
      obtain ⟨rfl, rfl⟩ := Prod.mk.inj (Except.ok.inj h)
      have hle := m.le_extentAt_of_bytes (Decidable.of_not_not hkind)
      omega

theorem Memory.Changes.wellFormed {m m₁ : Memory} (h : Memory.Changes m m₁) : m₁.WellFormed := by
  cases h with
  | store _ hm' => exact hm'
  | place _ hm' => exact hm'
  | collect h => exact h.wellFormed

/-- Whatever a machine does on the way, its memory is a heap then. -/
theorem Memory.WellFormed.of_changes {m m₁ : Memory} (hm : m.WellFormed)
    (h : Relation.ReflTransGen Memory.Changes m m₁) : m₁.WellFormed := by
  cases h with
  | refl => exact hm
  | tail _ h => exact h.wellFormed

/-! ## A machine beside its twin -/

/-- What a machine and its twin begin with. -/
def Setting.twin (m : Machine) : Setting := ⟨True, m.memory, m.output, m.output⟩

section Twins

variable {m : Machine} {t : Memory} {v : Value}

theorem Memory.Corresponds.twin {h : Memory} (hh : h.WellFormed) (ht : h.Twin t) :
    Corresponds h.unmoved h t := by
  have hself := Corresponds.refl hh
  refine hself.congr hh (ht.wellFormed hh) rfl (ht.headers hh) fun a b hab => ?_
  exact (hself.objects a b hab).congr (fun _ _ => rfl) (ht.agreeAt hh (hself.range a b hab))

theorem Related.twins (hm : m.WellFormed) (ht : m.memory.Twin t) :
    Related (.twin m) m.memory.unmoved m.registers.scratch.size m { m with memory := t } where
  heaps :=
    { corresponds := .twin hm.memory ht
      counter := by
        obtain ⟨A, rfl, -⟩ := ht
        rfl
      changes := .refl
      twin := fun _ => ht
      fixed := fun _ _ _ h => h.2 }
  registers := .refl hm.registers
  held := rfl
  ip := rfl
  sp := rfl
  running := rfl
  input := rfl
  compiler := rfl
  written := ⟨[], rfl, rfl⟩
  twin := fun _ => rfl

theorem Related.leaves {ρ : Renaming} {n : Nat} {m₁ m₁' : Machine}
    (h : Related (.twin m) ρ n m₁ m₁') : m.Leaves m₁ :=
  ⟨⟨h.corresponds.left, h.left⟩, h.heaps.changes⟩

theorem EndsAlike.of_ok {ε α : Type} [Failing ε] {S : Setting}
    {Q : Renaming → Nat → α → α → Prop} (hS : S.twins) {a : α} {m₁ : Machine}
    {r : EStateM.Result ε Machine α} (h : EndsAlike S Q (.ok a m₁) r) :
    ∃ ρ n a' m₁', r = .ok a' m₁' ∧ Related S ρ n m₁ m₁' ∧ Q ρ n a a' := by
  cases h with
  | ok h hQ => exact ⟨_, _, _, _, rfl, h, hQ⟩
  | right h => exact absurd hS h

theorem EndsAlike.of_error {ε α : Type} [Failing ε] {S : Setting}
    {Q : Renaming → Nat → α → α → Prop} (hS : S.twins) {e : ε} {m₁ : Machine}
    {r : EStateM.Result ε Machine α} (h : EndsAlike S Q (.error e m₁) r) :
    ∃ ρ n e' m₁', r = .error e' m₁' ∧ Related S ρ n m₁ m₁' ∧ Alike ρ e e' := by
  cases h with
  | error h he => exact ⟨_, _, _, _, rfl, h, he⟩
  | left h => exact absurd hS h
  | right h => exact absurd hS h

/-- **An effect that does the same to a machine and its twins is safe.** -/
theorem Machine.Safe.of_leads {ε α : Type} [Failing ε] {x : EStateM ε Machine α}
    {U : Renaming → α → α → Prop} {V : Memory → α → Prop} (hm : m.WellFormed)
    (h : ∀ S n, Leads S m.memory.unmoved n x x U)
    (hV : ∀ ρ h h' a a', Corresponds ρ h h' → U ρ a a' → V h a)
    (heq : ∀ ρ a a', (∀ o o', ρ o o' → o = o') → U ρ a a' → a = a') : m.Safe x V := by
  have hrun : ∀ t, m.memory.Twin t →
      EndsAlike (.twin m) (fun ρ _ a a' => U ρ a a') (x m) (x { m with memory := t }) :=
    fun t ht => h _ _ _ _ (.twins hm ht)
  constructor
  · intro a m₁ hx
    rw [hx] at hrun
    obtain ⟨ρ, n, a', m₁', -, hrel, hU⟩ := (hrun m.memory (.refl _)).of_ok trivial
    refine ⟨hrel.leaves, hV ρ _ _ a a' hrel.corresponds hU, fun t ht => ?_⟩
    obtain ⟨ρ, n, a', m₁', hx', hrel, hU⟩ := (hrun t ht).of_ok trivial
    obtain rfl := heq ρ a a' (hrel.heaps.fixed trivial) hU
    exact ⟨m₁'.memory, hrel.heaps.twin trivial, hx'.trans (by rw [← hrel.twin trivial])⟩
  · intro e m₁ hx
    rw [hx] at hrun
    obtain ⟨ρ, n, e', m₁', -, hrel, he⟩ := (hrun m.memory (.refl _)).of_error trivial
    refine ⟨hrel.leaves, fun f hf => (hf ▸ he).sound, fun t ht => ?_⟩
    obtain ⟨ρ, n, e', m₁', hx', hrel, he⟩ := (hrun t ht).of_error trivial
    obtain rfl := he.eq_of_fixed (hrel.heaps.fixed trivial)
    exact ⟨m₁'.memory, hrel.heaps.twin trivial, hx'.trans (by rw [← hrel.twin trivial])⟩

theorem Value.Renames.unmoved {h : Memory} (hv : h.Holds v) : Value.Renames h.unmoved v v :=
  .refl hv

/-- An effect that answers a value. -/
theorem Machine.Safe.of_value {ε : Type} [Failing ε] {x : EStateM ε Machine Value}
    (hm : m.WellFormed) (h : ∀ S n, Leads S m.memory.unmoved n x x Value.Renames) :
    m.Safe x Memory.Holds :=
  .of_leads hm h (fun _ _ _ _ _ hc ha => hc.holds_left ha) fun _ _ _ hfix ha => ha.eq_of_fixed hfix

/-- An effect that answers nothing of the heap. -/
theorem Machine.Safe.of_eq {ε α : Type} [Failing ε] {x : EStateM ε Machine α}
    (hm : m.WellFormed) (h : ∀ S n, Leads S m.memory.unmoved n x x fun _ => Eq) :
    m.Safe x fun _ _ => True :=
  .of_leads hm h (fun _ _ _ _ _ _ _ => trivial) fun _ _ _ _ ha => ha

/-- An effect that runs code. -/
theorem Machine.Safe.of_completion {ε : Type} [Failing ε] {x : EStateM ε Machine Completion}
    (hm : m.WellFormed) (h : ∀ S n, Leads S m.memory.unmoved n x x Completion.Renames) :
    m.Safe x Memory.HoldsCompletion := by
  refine .of_leads hm h (fun ρ h h' c c' hc hren => ?_) fun ρ c c' hfix hren => ?_
  · rintro v rfl
    cases hren with
    | returned hv => exact hc.holds_left hv
  · cases hren with
    | returned hv => rw [hv.eq_of_fixed hfix]
    | shutDown => rfl
    | unfinished => rfl

theorem forall₂_unmoved {h : Memory} {args : List Value} (hargs : ∀ v ∈ args, h.Holds v) :
    List.Forall₂ (Value.Renames h.unmoved) args args :=
  List.forall₂_same.2 fun v hv => .refl (hargs v hv)

end Twins

/-! ## Machines that are written out -/

namespace Registers

variable {m : Memory} {r : Registers} {v : Value}

/-- Registers with these values. All others are zero. -/
def ofList (roots : List (Root × Value)) : Registers :=
  roots.foldl (fun r p => r.set p.1 p.2) Registers.empty

theorem Held.set (h : r.Held m) (root : Root) (hv : m.Holds v) : (r.set root v).Held m := by
  refine ⟨fun i => ?_, h.scratch⟩
  simp only [Registers.set, Fin.getElem_fin, Vector.getElem_set]
  split
  · exact hv
  · exact h.named i

theorem Held.foldl_set {ps : List (Root × Value)} (h : r.Held m) (hps : ∀ p ∈ ps, m.Holds p.2) :
    (ps.foldl (fun r p => r.set p.1 p.2) r).Held m := by
  induction ps generalizing r with
  | nil => exact h
  | cons p ps ih =>
    obtain ⟨hp, hps⟩ := List.forall_mem_cons.1 hps
    exact ih (h.set p.1 hp) hps

theorem Held.empty (h : m.Holds .zeroRef) : Registers.empty.Held m := by
  refine ⟨fun i => ?_, fun v hv => absurd hv (Array.not_mem_empty v)⟩
  simpa only [Registers.empty, Fin.getElem_fin, Vector.getElem_replicate] using h

end Registers

/-- A machine that is written out can be checked. -/
theorem Memory.LaidOut.wellFormed_machine {m : Machine} {os : List Nat} (h : m.memory.LaidOut os)
    (hzero : 0 ∈ os) (roots : List (Root × Value)) (hregisters : m.registers = .ofList roots)
    (hroots : ∀ p ∈ roots, IsAmong os p.2) : m.WellFormed := by
  refine ⟨h.wellFormed, ?_⟩
  rw [hregisters]
  exact .foldl_set (.empty (h.holds hzero)) fun p hp => h.holds (hroots p hp)

theorem wellFormed_empty_pairOfObjects : (Machine.empty pairOfObjects).WellFormed :=
  laidOut_pairOfObjects.wellFormed_machine (by decide) [] rfl (by simp)

/-! ### What a result holds -/

/-- The machine that a result leaves. -/
def machineOf {ε α : Type} : EStateM.Result ε Machine α → Machine
  | .ok _ m => m
  | .error _ m => m

/-- The answer in a result, if there is one. -/
def answerOf {ε α : Type} : EStateM.Result ε Machine α → Option α
  | .ok a _ => some a
  | .error _ _ => none

theorem eq_ok_of_answerOf {ε α : Type} {result : EStateM.Result ε Machine α} {a : α}
    (h : answerOf result = some a) : result = .ok a (machineOf result) := by
  cases result with
  | ok b m =>
    cases h
    rfl
  | error e m => cases h

/-- The error in a result, if there is one. -/
def errorOf {ε α : Type} : EStateM.Result ε Machine α → Option ε
  | .ok _ _ => none
  | .error e _ => some e

theorem eq_error_of_errorOf {ε α : Type} {result : EStateM.Result ε Machine α} {e : ε}
    (h : errorOf result = some e) : result = .error e (machineOf result) := by
  cases result with
  | ok a m => cases h
  | error e' m =>
    cases h
    rfl

namespace Machine

/-- Nil, a class with one method, an array of three operands, and a context of that method. The code
of the method returns at once; the context is at a send that comes behind. -/
def senderWords (stack : UInt32) : List UInt32 :=
  fieldWords [] ++
  fieldWords [0, 0, 0, 48, 0, 0] ++
  fieldWords [64] ++
  fieldWords [80] ++
  fieldWords [0, 104, 0] ++
  fieldWords [0, 0, 148, 104, numberWord 1, numberWord 1, numberWord 1, 0] ++
  [0, 0, SizeWord.make 2 .words, Instruction.returnMethod.encode, (Instruction.send 1 0).encode] ++
  fieldWords [numberWord 7, numberWord 8, numberWord 9] ++
  fieldWords [0, numberWord 1, stack, numberWord 3, 104, 0, 0, 0, numberWord 0]

/-- The registers of the context. -/
def senderRoots (stack nil : UInt32) : List (Root × Value) :=
  [(.nil, .decode nil), (.shortIntegerClass, .decode 12), (.method, .decode 104),
    (.literals, .decode 104), (.code, .decode 148), (.stack, .decode stack),
    (.activeContext, .decode 192), (.homeContext, .decode 192)]

/-- A machine that is about to send a message with one argument. It has its operands in the object
at `stack`, and takes the object at `nil` for nil. -/
def senderMachine (stack nil : UInt32) : Machine :=
  { memory := .ofWords {} (senderWords stack)
    registers := .ofList (senderRoots stack nil)
    ip := 1
    sp := 3 }

def senderHeaders : List Nat := [0, 12, 48, 64, 80, 104, 148, 168, 192]

/-- The operands are in the array or in the context itself. -/
def senderStacks : List UInt32 := [168, 192]

set_option maxRecDepth 100000 in
theorem laidOut_senderMachine : ∀ stack ∈ senderStacks, ∀ nil ∈ [0, 192],
    (senderMachine stack nil).memory.LaidOut senderHeaders ∧
      (∀ p ∈ senderRoots stack nil, IsAmong senderHeaders p.2) ∧
      answerOf (step (senderMachine stack nil)) = some () := by
  -- case by case, since numbers of 32 bits could also be tried one after the other
  refine List.forall_mem_cons.2 ⟨List.forall_mem_cons.2 ⟨?_, List.forall_mem_singleton.2 ?_⟩,
    List.forall_mem_singleton.2 (List.forall_mem_cons.2 ⟨?_, List.forall_mem_singleton.2 ?_⟩)⟩ <;>
  decide +kernel

variable {stack nil : UInt32}

theorem wellFormed_senderMachine (h : stack ∈ senderStacks) (hnil : nil ∈ [0, 192]) :
    (senderMachine stack nil).WellFormed := by
  obtain ⟨hlaid, hroots, -⟩ := laidOut_senderMachine stack h nil hnil
  exact hlaid.wellFormed_machine (by decide) _ rfl hroots

/-- The send succeeds. -/
theorem step_senderMachine (h : stack ∈ senderStacks) (hnil : nil ∈ [0, 192]) :
    step (senderMachine stack nil) = .ok () (machineOf (step (senderMachine stack nil))) := by
  obtain ⟨-, -, hstep⟩ := laidOut_senderMachine stack h nil hnil
  exact eq_ok_of_answerOf hstep

end Machine

/-! ## Every operation -/

/-- **Heap safety of the whole machine.** Of a well-formed machine every operation leaves a
well-formed machine, whether it succeeds or fails; it writes only to objects, reads only objects,
and never meets a broken heap. -/
theorem heap_safe {m : Machine} (hm : m.WellFormed) :
    (∀ h, Relation.ReflTransGen Memory.Changes m.memory h →
      ∀ a : Address, h.Holds (.ref a) → h.Confined a) ∧
    m.Safe step (fun _ _ => True) ∧
    (∀ number argc, m.Safe (invoke number argc) fun _ _ => True) ∧
    (∀ argc p, m.Safe (runPrimitive argc p) fun _ _ => True) ∧
    (∀ cls size kind, m.memory.Holds cls → m.Safe (createObject cls size kind) Memory.Holds) ∧
    m.Safe collectGarbage (fun _ _ => True) ∧
    (∀ name, m.Safe (newSymbol name) Memory.Holds) ∧
    (∀ name v, m.memory.Holds v → m.Safe (setGlobal name v) fun _ _ => True) ∧
    (∀ cls buckets, m.memory.Holds cls → m.Safe (newDictionary cls buckets) Memory.Holds) ∧
    (∀ dictionary key v, m.memory.Holds dictionary → m.memory.Holds key → m.memory.Holds v →
      m.Safe (dictionaryEnter dictionary key v) fun _ _ => True) ∧
    (∀ cls method, m.memory.Holds cls → m.memory.Holds method →
      m.Safe (installMethod cls method) fun _ _ => True) ∧
    (∀ source cls valueNeeded, m.memory.Holds cls →
      m.Safe (compile source cls valueNeeded) Memory.Holds) ∧
    (∀ text, m.Safe (loadText text) fun _ _ => True) ∧
    (∀ steps method receiver args, m.memory.Holds method → m.memory.Holds receiver →
      (∀ v ∈ args, m.memory.Holds v) →
      m.Safe (call steps method receiver args) Memory.HoldsCompletion) ∧
    (∀ steps receiver selector args, m.memory.Holds receiver → (∀ v ∈ args, m.memory.Holds v) →
      m.Safe (sendMessage steps receiver selector args) Memory.HoldsCompletion) ∧
    ∀ steps source, m.Safe (evaluate steps source) Memory.HoldsCompletion := by
  refine ⟨fun h hchanges a ha => (hm.memory.of_changes hchanges).confined ha.mem, ?_, ?_,
    ?_, ?_, ?_, ?_, ?_, ?_, ?_, ?_, ?_, ?_, ?_, ?_, ?_⟩
  · exact .of_eq hm fun S n => step_leads
  · exact fun number argc => .of_eq hm fun S n => invoke_leads number argc
  · exact fun argc p => .of_eq hm fun S n => runPrimitive_leads argc p
  · exact fun cls size kind hcls =>
      .of_value hm fun S n => (createObject_moves (.unmoved hcls) size kind).leads
  · exact .of_eq hm fun S n => collectGarbage_moves.leads
  · exact fun name => .of_value hm fun S n => (newSymbol_moves name).leads
  · exact fun name v hv => .of_eq hm fun S n => (setGlobal_moves name (.unmoved hv)).leads
  · exact fun cls buckets hcls =>
      .of_value hm fun S n => (newDictionary_moves (.unmoved hcls) buckets).leads
  · exact fun dictionary key v hd hk hv => .of_eq hm fun S n =>
      (dictionaryEnter_moves (.unmoved hd) (.unmoved hk) (.unmoved hv)).leads
  · exact fun cls method hcls hmethod => .of_eq hm fun S n =>
      (installMethod_moves (.unmoved hcls) (.unmoved hmethod)).leads
  · exact fun source cls valueNeeded hcls => .of_value hm fun S n =>
      (compile_moves source (.unmoved hcls) valueNeeded).leads
  · exact fun text => .of_eq hm fun S n => loadText_leads text
  · exact fun steps method receiver args hmethod hreceiver hargs => .of_completion hm fun S n =>
      call_leads steps (.unmoved hmethod) (.unmoved hreceiver) (forall₂_unmoved hargs)
  · exact fun steps receiver selector args hreceiver hargs => .of_completion hm fun S n =>
      sendMessage_leads steps (.unmoved hreceiver) selector (forall₂_unmoved hargs)
  · exact fun steps source => .of_completion hm fun S n => evaluate_leads steps source

/-- A machine that is about to send a message is safe. Its send succeeds. -/
theorem heap_safe_senderMachine :
    (senderMachine 168 0).WellFormed ∧
      (∃ m₁, step (senderMachine 168 0) = .ok () m₁ ∧ m₁.WellFormed) ∧
      (senderMachine 168 0).Safe step (fun _ _ => True) ∧
      (senderMachine 168 0).Safe collectGarbage fun _ _ => True := by
  have hm := wellFormed_senderMachine (by decide : 168 ∈ senderStacks)
    (by decide : (0 : UInt32) ∈ [0, 192])
  have hrun := step_senderMachine (by decide : 168 ∈ senderStacks)
    (by decide : (0 : UInt32) ∈ [0, 192])
  obtain ⟨-, hstep, -, -, -, hcollect, -⟩ := heap_safe hm
  exact ⟨hm, ⟨_, hrun, (hstep.ok _ _ hrun).1.wellFormed⟩, hstep, hcollect⟩

end Smalltalk
