import Smalltalk.Proofs.Safety
import Mathlib.Data.Set.Function

/-!
# Collections do not show

Two machines are isomorphic if a bijection between the objects that their registers reach takes each
object to one with the same class, hash, kind, size and contents, and each register to the same
register. Addresses, garbage, how full the memories are and how large they are may all differ.

Isomorphic machines do the same. That includes steps in which one of them collects and the other
does not; only that one of them may run out of memory where the other goes on.

An isomorphism speaks of what is reached, a correspondence of what is paired. Each gives the other:
what is reached from paired roots is paired, along every path, and the other way round.

## Main definitions

* `Memory.Isomorphism`: heaps with the same objects, as far as given roots reach
* `Machine.Isomorphism`: machines that differ in where their objects are only
* `Machine.Indistinct`: two ends of an operation that differ in that only

## Main results

* `Memory.Isomorphism.corresponds`, `Memory.Corresponds.isomorphism`
* `collection_transparent`: isomorphic machines stay isomorphic, step by step and call by call
-/

namespace Smalltalk

open Memory Machine

/-! ## Definitions -/

/-- The function as a renaming. -/
def Renaming.ofMap (φ : Nat → Nat) : Renaming := fun a b => φ a = b

/-- What the roots reach is the same in both memories: `φ` takes each object to its like. -/
structure Memory.Isomorphism (φ : Nat → Nat) (m : Memory) (roots : Array Value) (m' : Memory)
    (roots' : Array Value) : Prop where
  bijection : Set.BijOn φ {o | m.Reachable roots o} {o | m'.Reachable roots' o}
  objects : ∀ o, m.Reachable roots o → Matches (.ofMap φ) m o m' (φ o)

/-- The machines are the same but for where their objects are. The objects are those that the
registers reach, and some further values. -/
structure Machine.Isomorphism (φ : Nat → Nat) (m m' : Machine) (values values' : Array Value) :
    Prop where
  memory : m.memory.Isomorphism φ (RootSet.toArray m.registers ++ values) m'.memory
    (RootSet.toArray m'.registers ++ values')
  registers : m.registers.Renames (.ofMap φ) m'.registers
  values : List.Forall₂ (Value.Renames (.ofMap φ)) values.toList values'.toList
  hashCounter : m.memory.hashCounter = m'.memory.hashCounter
  ip : m.ip = m'.ip
  sp : m.sp = m'.sp
  running : m.running = m'.running
  input : m.input = m'.input
  compiler : m.compiler = m'.compiler

/-- Two operations, on `m` and on `m'`, end in the same way, unless one of them is out of memory.
They answer alike, they have written the same, and the machines they leave are isomorphic. Errors
are the same up to the addresses in them. -/
inductive Machine.Indistinct {ε α : Type} [Failing ε] (m m' : Machine)
    (like : Renaming → α → α → Prop) (values : α → Array Value) :
    EStateM.Result ε Machine α → EStateM.Result ε Machine α → Prop
  | ok {φ : Nat → Nat} {a a' : α} {m₁ m₁' : Machine} (bytes : List UInt8)
      (wellFormed : m₁.WellFormed ∧ m₁'.WellFormed)
      (isomorphic : m₁.Isomorphism φ m₁' (values a) (values a'))
      (written : m₁.output = bytes.foldl ByteArray.push m.output ∧
        m₁'.output = bytes.foldl ByteArray.push m'.output)
      (answers : like (.ofMap φ) a a') : Indistinct m m' like values (.ok a m₁) (.ok a' m₁')
  | error {φ : Nat → Nat} {e e' : ε} {m₁ m₁' : Machine} (bytes : List UInt8)
      (wellFormed : m₁.WellFormed ∧ m₁'.WellFormed)
      (isomorphic : m₁.Isomorphism φ m₁' #[] #[])
      (written : m₁.output = bytes.foldl ByteArray.push m.output ∧
        m₁'.output = bytes.foldl ByteArray.push m'.output)
      (errors : Alike (.ofMap φ) e e') : Indistinct m m' like values (.error e m₁) (.error e' m₁')
  | left {size : Nat} {m₁ : Machine} {r : EStateM.Result ε Machine α} :
      Indistinct m m' like values (.error (Failing.ofFault (.memoryExhausted size)) m₁) r
  | right {size : Nat} {m₁ : Machine} {r : EStateM.Result ε Machine α} :
      Indistinct m m' like values r (.error (Failing.ofFault (.memoryExhausted size)) m₁)

/-- The value that a call returned, if it did. -/
def Completion.values : Completion → Array Value
  | .returned v => #[v]
  | _ => #[]

/-! ## Isomorphisms and correspondences -/

/-- The values of two arrays are paired. -/
abbrev RenamesAll (ρ : Renaming) (values values' : Array Value) : Prop :=
  List.Forall₂ (Value.Renames ρ) values.toList values'.toList

section Heaps

variable {m m' : Memory} {roots roots' : Array Value} {ρ : Renaming} {φ : Nat → Nat}

theorem RenamesAll.exists_of_mem (h : RenamesAll ρ roots roots') {v : Value} (hv : v ∈ roots) :
    ∃ v' ∈ roots', Value.Renames ρ v v' := by
  obtain ⟨i, rfl⟩ := List.mem_iff_get.1 (Array.mem_toList_iff.2 hv)
  obtain ⟨hlen, hall⟩ := List.forall₂_iff_get.1 h
  have hi' : i.val < roots'.toList.length := by
    rw [← hlen]
    exact i.isLt
  exact ⟨_, Array.mem_toList_iff.1 (List.get_mem _ ⟨i, hi'⟩), hall i i.isLt hi'⟩

theorem renamesAll_empty : RenamesAll ρ #[] #[] := .nil

theorem RenamesAll.append {values values' : Array Value} (h : RenamesAll ρ roots roots')
    (h' : RenamesAll ρ values values') : RenamesAll ρ (roots ++ values) (roots' ++ values') := by
  rw [RenamesAll, Array.toList_append, Array.toList_append]
  exact List.rel_append h h'

/-- What paired roots reach is paired with what is reached. -/
theorem Memory.Corresponds.reachable (h : Corresponds ρ m m') (hroots : RenamesAll ρ roots roots')
    {o : Nat} (ho : m.Reachable roots o) : ∃ o', ρ o o' ∧ m'.Reachable roots' o' := by
  -- along the path that reaches the object, on both sides at once
  induction ho with
  | @root a hmem =>
    obtain ⟨w, hw, hren⟩ := hroots.exists_of_mem hmem
    obtain ⟨b, rfl, hb⟩ := hren.of_ref
    exact ⟨_, hb, .root hw⟩
  | @cls o a _ hcls ih =>
    obtain ⟨o', ho, hreach⟩ := ih
    have hren := (h.objects o o' ho).cls
    rw [hcls] at hren
    obtain ⟨b, hb, hab⟩ := hren.of_ref
    exact ⟨_, hab, .cls hreach hb⟩
  | @field o i a _ hk hi hfield ih =>
    obtain ⟨o', ho, hreach⟩ := ih
    have hobject := h.objects o o' ho
    have hren := hobject.fields hk i hi
    rw [hfield] at hren
    obtain ⟨b, hb, hab⟩ := hren.of_ref
    exact ⟨_, hab, .field hreach (hobject.kind.trans hk) (hobject.count.symm ▸ hi) hb⟩

theorem RenamesAll.inverse (h : RenamesAll ρ roots roots') : RenamesAll ρ.inverse roots' roots :=
  (List.Forall₂.flip h).imp fun _ _ hvw => hvw.inverse

/-- **A correspondence is an isomorphism** of what paired roots reach. -/
theorem Memory.Corresponds.isomorphism (h : Corresponds ρ m m')
    (hroots : RenamesAll ρ roots roots') :
    ∃ φ, m.Isomorphism φ roots m' roots' ∧ ∀ a b, ρ a b → φ a = b := by
  classical
  let φ : Nat → Nat := fun a => if hex : ∃ b, ρ a b then hex.choose else a
  have hφ : ∀ a b, ρ a b → φ a = b := by
    intro a b hab
    have hex : ∃ b, ρ a b := ⟨b, hab⟩
    show (if hex : ∃ b, ρ a b then hex.choose else a) = b
    rw [dif_pos hex]
    exact h.functional a _ b hex.choose_spec hab
  refine ⟨φ, ⟨⟨?_, ?_, ?_⟩, ?_⟩, hφ⟩
  · intro o ho
    obtain ⟨o', hpair, hreach⟩ := h.reachable hroots ho
    show m'.Reachable roots' (φ o)
    rw [hφ o o' hpair]
    exact hreach
  · intro o ho p hp heq
    obtain ⟨o', hpair, -⟩ := h.reachable hroots ho
    obtain ⟨p', hpair', -⟩ := h.reachable hroots hp
    rw [hφ o o' hpair, hφ p p' hpair'] at heq
    subst heq
    exact h.injective o p o' hpair hpair'
  · intro o' ho'
    obtain ⟨o, hpair, hreach⟩ := h.inverse.reachable hroots.inverse ho'
    exact ⟨o, hreach, hφ o o' hpair⟩
  · intro o ho
    obtain ⟨o', hpair, -⟩ := h.reachable hroots ho
    rw [hφ o o' hpair]
    exact (h.objects o o' hpair).mono hφ

/-- The pairs of an isomorphism. -/
def Memory.paired (m : Memory) (roots : Array Value) (φ : Nat → Nat) : Renaming :=
  fun a b => m.Reachable roots a ∧ φ a = b

theorem Value.Renames.reached {v v' : Value} (h : Value.Renames (.ofMap φ) v v')
    (hv : ∀ a, v = .ref a → m.Reachable roots a.offset) :
    Value.Renames (m.paired roots φ) v v' := by
  cases h with
  | small n => exact .small n
  | ref hab => exact .ref ⟨hv _ rfl, hab⟩

/-- **An isomorphism is a correspondence** of the objects that are reached. -/
theorem Memory.Isomorphism.corresponds (h : m.Isomorphism φ roots m' roots') (hm : m.WellFormed)
    (hm' : m'.WellFormed) (hroots : ∀ v ∈ roots, m.Holds v) (hroots' : ∀ v ∈ roots', m'.Holds v) :
    Corresponds (m.paired roots φ) m m' where
  left := hm
  right := hm'
  domain := fun a b hab => hm.mem_of_reachable hroots hab.1
  range := fun a b hab => hab.2 ▸ hm'.mem_of_reachable hroots' (h.bijection.mapsTo hab.1)
  functional := fun a b b' hab hab' => hab.2.symm.trans hab'.2
  injective := fun a a' b hab hab' =>
    h.bijection.injOn hab.1 hab'.1 (hab.2.trans hab'.2.symm)
  objects := by
    rintro a _ ⟨ha, rfl⟩
    have hobject := h.objects a ha
    exact { hobject with
      cls := hobject.cls.reached fun c hc => .cls ha hc
      fields := fun hk i hi => (hobject.fields hk i hi).reached fun c hc => .field ha hk hi hc }

end Heaps

/-! ## Machines -/

/-- What two machines begin with that are no twins. -/
def Setting.strangers (m m' : Machine) : Setting := ⟨False, m.memory, m.output, m'.output⟩

section Machines

variable {m m' : Machine} {φ : Nat → Nat} {ρ : Renaming}

theorem Registers.Renames.roots {r r' : Registers} (h : r.Renames ρ r') :
    RenamesAll ρ (RootSet.toArray r) (RootSet.toArray r') := by
  have hnamed : List.Forall₂ (Value.Renames ρ) r.named.toArray.toList r'.named.toArray.toList := by
    refine List.forall₂_iff_get.2 ⟨by simp, fun i hi hi' => ?_⟩
    have hlt : i < Root.count := by simpa using hi
    simpa using h.named ⟨i, hlt⟩
  exact RenamesAll.append hnamed h.scratch

theorem Value.Renames.reached_of_mem {h : Memory} {roots : Array Value} {v v' : Value}
    (hv : Value.Renames (.ofMap φ) v v') (hmem : v ∈ roots) :
    Value.Renames (h.paired roots φ) v v' :=
  hv.reached fun _ ha => .root (ha ▸ hmem)

/-- Isomorphic machines are related. -/
theorem Machine.Isomorphism.related (h : m.Isomorphism φ m' #[] #[]) (hm : m.WellFormed)
    (hm' : m'.WellFormed) :
    Related (.strangers m m') (m.memory.paired (RootSet.toArray m.registers) φ)
      m.registers.scratch.size m m' := by
  have hmemory := h.memory
  rw [Array.append_empty, Array.append_empty] at hmemory
  have hnamed : ∀ i : Fin Root.count, m.registers.named[i] ∈ RootSet.toArray m.registers :=
    fun i => Array.mem_of_getElem? (roots_named m.registers i)
  have hscratch : ∀ v ∈ m.registers.scratch.toList, v ∈ RootSet.toArray m.registers :=
    fun v hv => Array.mem_append_right _ (Array.mem_toList_iff.1 hv)
  have hregisters : m.registers.Renames (m.memory.paired (RootSet.toArray m.registers) φ)
      m'.registers := by
    refine ⟨fun i => (h.registers.named i).reached_of_mem (hnamed i), ?_⟩
    refine List.forall₂_iff_get.2 ⟨h.registers.scratch.length_eq, fun i hi hi' => ?_⟩
    exact ((List.forall₂_iff_get.1 h.registers.scratch).2 i hi hi').reached_of_mem
      (hscratch _ (List.get_mem _ ⟨i, hi⟩))
  exact
    { heaps :=
        { corresponds := hmemory.corresponds hm.memory hm'.memory hm.registers.roots
            hm'.registers.roots
          counter := h.hashCounter
          changes := .refl
          twin := False.elim
          fixed := False.elim }
      registers := hregisters
      held := rfl
      ip := h.ip
      sp := h.sp
      running := h.running
      input := h.input
      compiler := h.compiler
      written := ⟨[], rfl, rfl⟩
      twin := False.elim }

/-- Related machines are isomorphic, together with values that are paired. -/
theorem Related.isomorphism {S : Setting} {n : Nat} (h : Related S ρ n m m')
    {values values' : Array Value} (hvalues : RenamesAll ρ values values') :
    ∃ φ, m.Isomorphism φ m' values values' ∧ ∀ a b, ρ a b → φ a = b := by
  have hroots : RenamesAll ρ (RootSet.toArray m.registers ++ values)
      (RootSet.toArray m'.registers ++ values') :=
    h.registers.roots.append hvalues
  obtain ⟨φ, hiso, hφ⟩ := h.corresponds.isomorphism hroots
  refine ⟨φ, ?_, hφ⟩
  exact
    { memory := hiso
      registers := ⟨fun i => (h.registers.named i).mono hφ,
        h.registers.scratch.imp fun _ _ hv => hv.mono hφ⟩
      values := hvalues.imp fun _ _ hv => hv.mono hφ
      hashCounter := h.heaps.counter
      ip := h.ip
      sp := h.sp
      running := h.running
      input := h.input
      compiler := h.compiler }

theorem Alike.mono {ε : Type} [Failing ε] {σ : Renaming} {e e' : ε} (h : Alike ρ e e')
    (hle : ∀ a b, ρ a b → σ a b) : Alike σ e e' := by
  cases h with
  | fault h => exact .fault (h.mono hle)
  | other h => exact .other h

/-- **Effects that do the same to related machines** cannot be told apart on isomorphic ones. -/
theorem Machine.Indistinct.of_leads {ε α : Type} [Failing ε] {x : EStateM ε Machine α}
    {like : Renaming → α → α → Prop} {values : α → Array Value} (hm : m.WellFormed)
    (hm' : m'.WellFormed) (h : m.Isomorphism φ m' #[] #[])
    (hx : ∀ ρ n, Leads (.strangers m m') ρ n x x like)
    (hvalues : ∀ ρ a a', like ρ a a' → RenamesAll ρ (values a) (values a'))
    (hmono : ∀ ρ σ a a', (∀ o o', ρ o o' → σ o o') → like ρ a a' → like σ a a') :
    Indistinct m m' like values (x m) (x m') := by
  have hout := hx _ _ m m' (h.related hm hm')
  generalize x m = r at hout
  generalize x m' = r' at hout
  cases hout with
  | ok hrel hlike =>
    obtain ⟨φ₁, hiso, hφ⟩ := hrel.isomorphism (hvalues _ _ _ hlike)
    obtain ⟨bytes, hwritten⟩ := hrel.written
    exact .ok bytes ⟨⟨hrel.corresponds.left, hrel.left⟩, ⟨hrel.corresponds.right, hrel.right⟩⟩ hiso
      hwritten (hmono _ _ _ _ hφ hlike)
  | error hrel he =>
    obtain ⟨φ₁, hiso, hφ⟩ := hrel.isomorphism renamesAll_empty
    obtain ⟨bytes, hwritten⟩ := hrel.written
    exact .error bytes ⟨⟨hrel.corresponds.left, hrel.left⟩, ⟨hrel.corresponds.right, hrel.right⟩⟩
      hiso hwritten (he.mono hφ)
  | left => exact .left
  | right => exact .right

/-- A collection leaves an isomorphic machine. -/
theorem Machine.WellFormed.collected (hm : m.WellFormed) :
    ∃ φ m', collectGarbage m = .ok () m' ∧ m'.WellFormed ∧ m.Isomorphism φ m' #[] #[] := by
  have hnone : ∀ v ∈ (#[] : Array Value), m.memory.Holds v := by simp
  obtain ⟨σ, h₁, roots₁, hr, hrun, -⟩ :=
    collectWith_relocates #[] hm.memory hm.registers.roots hnone
  have hs := Settles.of_relocation hm.memory hm.registers hnone hr
  have hcollect := onHeap_apply collect m
  rw [collect_of_collectWith hrun] at hcollect
  generalize RootSet.replace m.registers _ = r₁ at hs hcollect
  have hrel : Related (.strangers m m) σ m.registers.scratch.size m
      { m with memory := h₁, registers := r₁, log := noted m.memory.stats h₁ m.log } :=
    { heaps :=
        { corresponds := hs.corresponds
          counter := hs.counter.symm
          changes := .refl
          twin := False.elim
          fixed := False.elim }
      registers := hs.registers
      held := rfl
      ip := rfl
      sp := rfl
      running := rfl
      input := rfl
      compiler := rfl
      written := ⟨[], rfl, rfl⟩
      twin := False.elim }
  obtain ⟨φ, hiso, -⟩ := hrel.isomorphism renamesAll_empty
  exact ⟨φ, _, hcollect, ⟨hrel.corresponds.right, hrel.right⟩, hiso⟩

end Machines

theorem Completion.Renames.mono {ρ σ : Renaming} {c c' : Completion} (h : c.Renames ρ c')
    (hle : ∀ a b, ρ a b → σ a b) : c.Renames σ c' := by
  cases h with
  | returned h => exact .returned (h.mono hle)
  | shutDown => exact .shutDown
  | unfinished => exact .unfinished

theorem Completion.Renames.values {ρ : Renaming} {c c' : Completion} (h : c.Renames ρ c') :
    RenamesAll ρ c.values c'.values := by
  cases h with
  | returned h => exact .cons h .nil
  | shutDown => exact .nil
  | unfinished => exact .nil

/-- **Collections do not show.** Take isomorphic machines, whatever their addresses, their garbage
and the sizes of their memories. Unless one of them runs out of memory, every step ends in the same
way on both and leaves them isomorphic, with the same output; and so does the evaluation of any
source, with isomorphic results. -/
theorem collection_transparent {φ : Nat → Nat} {m m' : Machine} (hm : m.WellFormed)
    (hm' : m'.WellFormed) (h : m.Isomorphism φ m' #[] #[]) :
    Indistinct m m' (fun _ => Eq) (fun _ => #[]) (step m) (step m') ∧
    ∀ steps source, Indistinct m m' Completion.Renames Completion.values (evaluate steps source m)
      (evaluate steps source m') := by
  constructor
  · exact .of_leads hm hm' h (fun ρ n => step_leads) (fun _ _ _ _ => .nil) fun _ _ _ _ _ heq => heq
  · intro steps source
    exact .of_leads hm hm' h (fun ρ n => evaluate_leads steps source) (fun _ _ _ hc => hc.values)
      fun _ _ _ _ hle hc => hc.mono hle

/-- A machine that is about to send a message, and what a collection leaves of it, do the same. The
send succeeds on both. -/
theorem collection_transparent_senderMachine :
    ∃ φ m' m₁, (senderMachine 168 0).WellFormed ∧ m'.WellFormed ∧
      (senderMachine 168 0).Isomorphism φ m' #[] #[] ∧ step (senderMachine 168 0) = .ok () m₁ ∧
      Indistinct (senderMachine 168 0) m' (fun _ => Eq) (fun _ => #[])
        (step (senderMachine 168 0)) (step m') := by
  have hm := wellFormed_senderMachine (by decide : 168 ∈ senderStacks)
    (by decide : (0 : UInt32) ∈ [0, 192])
  have hrun := step_senderMachine (by decide : 168 ∈ senderStacks)
    (by decide : (0 : UInt32) ∈ [0, 192])
  obtain ⟨φ, m', -, hm', hiso⟩ := hm.collected
  exact ⟨φ, m', _, hm, hm', hiso, hrun, (collection_transparent hm hm' hiso).1⟩

end Smalltalk
