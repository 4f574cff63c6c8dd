import Smalltalk.Machine.Basic
import Smalltalk.Proofs.Correspondence
import Mathlib.Data.List.Forall2
import Mathlib.Logic.Relation

/-!
# Running two machines side by side

What a machine does must not depend on where its objects are. To say so, two machines are run side
by side, and a renaming keeps track of which object of one is which of the other. Everything the
machines do is then shown once, about pairs of runs, and read in two ways.

* The machines may be *twins*: the same in everything but the bytes that belong to no object. Their
  runs stay the same to the byte, so nothing outside the objects is ever read.
* Otherwise they are strangers with corresponding objects. One may run out of memory where the other
  does not, and one may collect where the other does not; apart from that their runs correspond.

Either way both heaps stay heaps, and the only faults are those that heaps can have.

## The renaming between two effects

An effect that allocates may move every object, so it answers with a new renaming, and whatever was
known under the old one is lost. That is the discipline the machine itself must follow: a reference
that is needed after an allocation is in a register or held. An effect that does not allocate
*keeps* the renaming. `Keeps` and `Moves` are the two judgements, both instances of `Sim`; the
number `n` counts the values held. After compiling or running code nobody needs to know that number,
and `Leads` leaves it open.

## Main definitions

* `Fault.Renames`, `Alike`: errors that are the same up to the addresses in them
* `Related`: two machines in the middle of their runs
* `Sim`, `Keeps`, `Moves`, `Leads`: two effects that do the same to related machines

## Main results

* `Sim.bind`, `Keeps.bind`, `Moves.bind`: sequences
-/

namespace Smalltalk

open Memory

/-! ## Errors -/

/-- Not one of the two faults that only a broken heap can cause. -/
def Fault.Sound : Fault → Prop
  | .danglingReference .. => False
  | .collectorOverflow => False
  | _ => True

/-- The faults are the same up to the addresses in them, and no heap is broken. -/
inductive Fault.Renames (ρ : Renaming) : Fault → Fault → Prop
  | same {f : Fault} (h : f.Sound) : Renames ρ f f
  | expectedSmallInt (operation : String) {v v' : Value} (h : Value.Renames ρ v v') :
      Renames ρ (.expectedSmallInt operation v) (.expectedSmallInt operation v')
  /-- A class without a name is named by its address. -/
  | messageNotUnderstood (selector : String) {v v' : Value} (h : Value.Renames ρ v v') :
      Renames ρ (.messageNotUnderstood v.text selector) (.messageNotUnderstood v'.text selector)

/-- Errors among which are the faults of the machine. -/
class Failing (ε : Type) where
  ofFault : Fault → ε
  ofFault_inj : ∀ f f', ofFault f = ofFault f' → f = f'

instance : Failing Fault := ⟨fun f => f, fun _ _ h => h⟩

/-- The errors are the same up to the addresses in them. -/
inductive Alike {ε : Type} [Failing ε] (ρ : Renaming) : ε → ε → Prop
  | fault {f f' : Fault} (h : f.Renames ρ f') : Alike ρ (Failing.ofFault f) (Failing.ofFault f')
  | other {e : ε} (h : ∀ f, e ≠ Failing.ofFault f) : Alike ρ e e

namespace Fault.Renames

variable {ρ : Renaming} {f f' : Fault}

theorem sound (h : f.Renames ρ f') : f.Sound := by
  cases h with
  | same h => exact h
  | expectedSmallInt => trivial
  | messageNotUnderstood => trivial

theorem mono {σ : Renaming} (h : f.Renames ρ f') (hle : ∀ a b, ρ a b → σ a b) : f.Renames σ f' := by
  cases h with
  | same h => exact .same h
  | expectedSmallInt operation h => exact .expectedSmallInt operation (h.mono hle)
  | messageNotUnderstood selector h => exact .messageNotUnderstood selector (h.mono hle)

theorem eq_of_fixed (h : f.Renames ρ f') (hfix : ∀ a b, ρ a b → a = b) : f = f' := by
  cases h with
  | same => rfl
  | expectedSmallInt operation h => rw [h.eq_of_fixed hfix]
  | messageNotUnderstood selector h => rw [h.eq_of_fixed hfix]

end Fault.Renames

theorem Alike.cases {ε : Type} [Failing ε] {ρ : Renaming} {e e' : ε} (h : Alike ρ e e') :
    (∃ f f', e = Failing.ofFault f ∧ e' = Failing.ofFault f' ∧ f.Renames ρ f') ∨
      e = e' ∧ ∀ f, e ≠ Failing.ofFault f := by
  cases h with
  | fault h => exact .inl ⟨_, _, rfl, rfl, h⟩
  | other h => exact .inr ⟨rfl, h⟩

theorem Alike.sound {ε : Type} [Failing ε] {ρ : Renaming} {f : Fault} {e' : ε}
    (h : Alike ρ (Failing.ofFault f) e') : f.Sound := by
  obtain ⟨f₁, f', hf, -, hren⟩ | ⟨-, hne⟩ := h.cases
  · exact Failing.ofFault_inj f f₁ hf ▸ hren.sound
  · exact absurd rfl (hne f)

theorem Alike.renames {ρ : Renaming} {f f' : Fault} (h : Alike ρ f f') : f.Renames ρ f' := by
  cases h with
  | fault h => exact h
  | other h => exact absurd rfl (h f)

theorem Alike.eq_of_fixed {ε : Type} [Failing ε] {ρ : Renaming} {e e' : ε} (h : Alike ρ e e')
    (hfix : ∀ a b, ρ a b → a = b) : e = e' := by
  cases h with
  | fault h => rw [h.eq_of_fixed hfix]
  | other => rfl

/-! ## What two functions of related machines answer -/

/-- Both answer, and the answers are related; or both fail alike. -/
inductive Agree {ε α : Type} [Failing ε] (ρ : Renaming) (V : α → α → Prop) :
    Except ε α → Except ε α → Prop
  | ok {a a' : α} (h : V a a') : Agree ρ V (.ok a) (.ok a')
  | error {e e' : ε} (h : Alike ρ e e') : Agree ρ V (.error e) (.error e')

namespace Agree

variable {ε α β : Type} [Failing ε] {ρ : Renaming} {V W : α → α → Prop} {U : β → β → Prop}
  {x x' : Except ε α}

theorem fault {f f' : Fault} (h : f.Renames ρ f') :
    Agree ρ V (.error (Failing.ofFault f) : Except ε α) (.error (Failing.ofFault f')) :=
  .error (.fault h)

theorem pure {a a' : α} (h : V a a') :
    Agree ρ V (Pure.pure a : Except ε α) (Pure.pure a') :=
  .ok h

theorem cases (h : Agree ρ V x x') :
    (∃ a a', x = .ok a ∧ x' = .ok a' ∧ V a a') ∨
      ∃ e e', x = .error e ∧ x' = .error e' ∧ Alike ρ e e' := by
  cases h with
  | ok h => exact .inl ⟨_, _, rfl, rfl, h⟩
  | error h => exact .inr ⟨_, _, rfl, rfl, h⟩

theorem mono (h : Agree ρ V x x') (hle : ∀ a a', V a a' → W a a') : Agree ρ W x x' := by
  cases h with
  | ok h => exact .ok (hle _ _ h)
  | error h => exact .error h

theorem bind {f f' : α → Except ε β} (h : Agree ρ V x x')
    (hf : ∀ a a', V a a' → Agree ρ U (f a) (f' a')) : Agree ρ U (x >>= f) (x' >>= f') := by
  cases h with
  | ok h => exact hf _ _ h
  | error h => exact .error h

theorem eq_bind {f f' : α → Except ε β} (h : Agree ρ Eq x x')
    (hf : ∀ a, Agree ρ U (f a) (f' a)) : Agree ρ U (x >>= f) (x' >>= f') :=
  h.bind fun a _ heq => heq ▸ hf a

theorem ite {c c' : Prop} [Decidable c] [Decidable c'] {y y' : Except ε α} (hc : c ↔ c')
    (ht : c → Agree ρ V x x') (he : ¬ c → Agree ρ V y y') :
    Agree ρ V (if c then x else y) (if c' then x' else y') := by
  by_cases h : c
  · rw [if_pos h, if_pos (hc.1 h)]
    exact ht h
  · rw [if_neg h, if_neg fun h' => h (hc.2 h')]
    exact he h

theorem mapM_eq {γ : Type} {f f' : γ → Except ε α} {l l' : List γ}
    (h : List.Forall₂ (fun c c' => Agree ρ Eq (f c) (f' c')) l l') :
    Agree ρ Eq (l.mapM f) (l'.mapM f') := by
  induction h with
  | nil => exact .pure rfl
  | cons h _ ih =>
    rw [List.mapM_cons, List.mapM_cons]
    exact h.eq_bind fun a => ih.eq_bind fun as => .pure rfl

end Agree

/-! ## Heaps and machines -/

/-- What two runs began with. -/
structure Setting where
  /-- The machines are twins. -/
  twins : Prop
  /-- The memory of the first machine at the beginning. -/
  origin : Memory
  /-- What the machines had written at the beginning. -/
  output : ByteArray
  output' : ByteArray

/-- One step of what can happen to a heap, after which it is a heap again. -/
inductive Memory.Changes (m : Memory) : Memory → Prop
  /-- Bytes of one object are replaced. -/
  | store {o lo hi : Nat} {m' : Memory} (h : Stored m o lo hi m') (hm' : m'.WellFormed) :
      Changes m m'
  /-- An object is added behind the last one. -/
  | place {cls fill : Value} {size : Nat} {kind : BodyKind}
      (h : m.free + extent size kind ≤ m.limit)
      (hm' : (m.place cls size kind fill).WellFormed) : Changes m (m.place cls size kind fill)
  /-- The heap is collected. -/
  | collect {ρ : Renaming} {roots roots' : Array Value} {m' : Memory}
      (h : Relocation m roots ρ m' roots') : Changes m m'

/-- The memories of two machines in the middle of their runs. -/
structure Heaps (S : Setting) (ρ : Renaming) (m m' : Memory) : Prop where
  corresponds : Corresponds ρ m m'
  counter : m.hashCounter = m'.hashCounter
  changes : Relation.ReflTransGen Memory.Changes S.origin m
  twin : S.twins → m.Twin m'
  fixed : S.twins → ∀ a b, ρ a b → a = b

/-- Registers that hold the same objects. -/
structure Registers.Renames (ρ : Renaming) (r r' : Registers) : Prop where
  named : ∀ i : Fin Root.count,
    Value.Renames ρ (getElem r.named i i.isLt) (getElem r'.named i i.isLt)
  scratch : List.Forall₂ (Value.Renames ρ) r.scratch.toList r'.scratch.toList

/-- Two machines in the middle of their runs, with `n` values held. -/
structure Related (S : Setting) (ρ : Renaming) (n : Nat) (m m' : Machine) : Prop where
  heaps : Heaps S ρ m.memory m'.memory
  registers : m.registers.Renames ρ m'.registers
  held : m.registers.scratch.size = n
  ip : m.ip = m'.ip
  sp : m.sp = m'.sp
  running : m.running = m'.running
  input : m.input = m'.input
  compiler : m.compiler = m'.compiler
  /-- Both have written the same. -/
  written : ∃ bytes : List UInt8, m.output = bytes.foldl ByteArray.push S.output ∧
    m'.output = bytes.foldl ByteArray.push S.output'
  twin : S.twins → m' = { m with memory := m'.memory }

/-- How two effects end. -/
inductive EndsAlike {ε α : Type} [Failing ε] (S : Setting) (Q : Renaming → Nat → α → α → Prop) :
    EStateM.Result ε Machine α → EStateM.Result ε Machine α → Prop
  | ok {ρ : Renaming} {n : Nat} {a a' : α} {m m' : Machine} (h : Related S ρ n m m')
      (hQ : Q ρ n a a') : EndsAlike S Q (.ok a m) (.ok a' m')
  | error {ρ : Renaming} {n : Nat} {e e' : ε} {m m' : Machine} (h : Related S ρ n m m')
      (he : Alike ρ e e') : EndsAlike S Q (.error e m) (.error e' m')
  /-- Only the first machine is out of memory. -/
  | left {bytes : Nat} {m : Machine} {r : EStateM.Result ε Machine α} (h : ¬ S.twins) :
      EndsAlike S Q (.error (Failing.ofFault (.memoryExhausted bytes)) m) r
  /-- Only the second machine is out of memory. -/
  | right {bytes : Nat} {m : Machine} {r : EStateM.Result ε Machine α} (h : ¬ S.twins) :
      EndsAlike S Q r (.error (Failing.ofFault (.memoryExhausted bytes)) m)

/-- Two effects do the same to related machines. -/
def Sim {ε α : Type} [Failing ε] (S : Setting) (ρ : Renaming) (n : Nat)
    (x x' : EStateM ε Machine α) (Q : Renaming → Nat → α → α → Prop) : Prop :=
  ∀ m m', Related S ρ n m m' → EndsAlike S Q (x m) (x' m')

/-- Two effects that do the same, and do not allocate. -/
abbrev Keeps {ε α : Type} [Failing ε] (S : Setting) (ρ : Renaming) (n : Nat)
    (x x' : EStateM ε Machine α) (V : α → α → Prop) : Prop :=
  Sim S ρ n x x' fun ρ₁ n₁ a a' => ρ₁ = ρ ∧ n₁ = n ∧ V a a'

/-- Two effects that do the same, and may allocate. They hold as many values afterwards as before.
-/
abbrev Moves {ε α : Type} [Failing ε] (S : Setting) (ρ : Renaming) (n : Nat)
    (x x' : EStateM ε Machine α) (V : Renaming → α → α → Prop) : Prop :=
  Sim S ρ n x x' fun ρ₁ n₁ a a' => n₁ = n ∧ V ρ₁ a a'

/-- Two effects that do the same, and may allocate. How many values are held afterwards is left
open. -/
abbrev Leads {ε α : Type} [Failing ε] (S : Setting) (ρ : Renaming) (n : Nat)
    (x x' : EStateM ε Machine α) (V : Renaming → α → α → Prop) : Prop :=
  Sim S ρ n x x' fun ρ₁ _ a a' => V ρ₁ a a'

/-! ## Rules -/

section Rules

variable {ε α β : Type} [Failing ε] {S : Setting} {ρ : Renaming} {n : Nat}
  {x x' y y' : EStateM ε Machine α} {f f' : α → EStateM ε Machine β}
  {Q R : Renaming → Nat → α → α → Prop} {P : Renaming → Nat → β → β → Prop}

theorem EndsAlike.mono {r r' : EStateM.Result ε Machine α} (h : EndsAlike S Q r r')
    (hle : ∀ ρ n a a', Q ρ n a a' → R ρ n a a') : EndsAlike S R r r' := by
  cases h with
  | ok h hQ => exact .ok h (hle _ _ _ _ hQ)
  | error h he => exact .error h he
  | left h => exact .left h
  | right h => exact .right h

namespace Sim

theorem mono (h : Sim S ρ n x x' Q) (hle : ∀ ρ n a a', Q ρ n a a' → R ρ n a a') :
    Sim S ρ n x x' R :=
  fun m m' hm => (h m m' hm).mono hle

theorem pure {a a' : α} (h : Q ρ n a a') :
    Sim S ρ n (Pure.pure a : EStateM ε Machine α) (Pure.pure a') Q :=
  fun _ _ hm => .ok hm h

/-- **Sequences.** -/
theorem bind (h : Sim S ρ n x x' Q)
    (hf : ∀ ρ₁ n₁ a a', Q ρ₁ n₁ a a' → Sim S ρ₁ n₁ (f a) (f' a') P) :
    Sim S ρ n (x >>= f) (x' >>= f') P := by
  intro m m' hm
  have hout := h m m' hm
  show EndsAlike S P (EStateM.bind x f m) (EStateM.bind x' f' m')
  unfold EStateM.bind
  generalize x m = r at hout
  generalize x' m' = r' at hout
  cases hout with
  | ok h hQ => exact hf _ _ _ _ hQ _ _ h
  | error h he => exact .error h he
  | left h => exact .left h
  | @right _ _ r h =>
    cases r with
    | ok => exact .right h
    | error => exact .right h

theorem ite {c c' : Prop} [Decidable c] [Decidable c'] (hc : c ↔ c')
    (ht : c → Sim S ρ n x x' Q) (he : ¬ c → Sim S ρ n y y' Q) :
    Sim S ρ n (if c then x else y) (if c' then x' else y') Q := by
  by_cases h : c
  · rw [if_pos h, if_pos (hc.1 h)]
    exact ht h
  · rw [if_neg h, if_neg fun h' => h (hc.2 h')]
    exact he h

theorem error {e e' : ε} (h : Alike ρ e e') :
    Sim S ρ n (throw e : EStateM ε Machine α) (throw e') Q :=
  fun _ _ hm => .error hm h

theorem fault {f f' : Fault} (h : f.Renames ρ f') :
    Sim S ρ n (throw f : EStateM Fault Machine α) (throw f') Q :=
  .error (.fault h)

theorem fault_bind {γ : Type} {f f' : Fault} {k k' : γ → EStateM Fault Machine α}
    (h : f.Renames ρ f') : Sim S ρ n (throw f >>= k) (throw f' >>= k') Q :=
  fun _ _ hm => .error hm (.fault h)

/-- A condition under which an effect fails at once. -/
theorem guard {c c' : Prop} [Decidable c] [Decidable c'] {f f' : Fault}
    {k k' : PUnit → EStateM Fault Machine α} (hc : c ↔ c') (hf : c → f.Renames ρ f')
    (h : ¬ c → Sim S ρ n (k ⟨⟩) (k' ⟨⟩) Q) :
    Sim S ρ n (if c then throw f >>= k else k ⟨⟩) (if c' then throw f' >>= k' else k' ⟨⟩) Q :=
  .ite hc (fun hc => fault_bind (hf hc)) h

end Sim

/-- An effect of the machine among effects that may also end for another reason. -/
theorem Sim.adapt {ε : Type} [Failing ε] {x x' : EStateM Fault Machine α}
    (h : Sim S ρ n x x' Q) :
    Sim S ρ n (EStateM.adaptExcept (Failing.ofFault : Fault → ε) x)
      (EStateM.adaptExcept Failing.ofFault x') Q := by
  intro m m' hm
  have hout := h m m' hm
  unfold EStateM.adaptExcept
  generalize x m = r at hout
  generalize x' m' = r' at hout
  cases hout with
  | ok h hQ => exact .ok h hQ
  | error h he => exact .error h (.fault he.renames)
  | left h => exact .left h
  | @right _ _ r h =>
    cases r with
    | ok => exact .right h
    | error => exact .right h

/-- An effect whose answer is not used. -/
theorem Sim.discard (h : Sim S ρ n x x' Q) :
    Sim S ρ n (Functor.discard x) (Functor.discard x') fun ρ₁ n₁ _ _ => ∃ a a', Q ρ₁ n₁ a a' := by
  have heq : ∀ y : EStateM ε Machine α,
      Functor.discard y = y >>= fun _ => Pure.pure PUnit.unit := by
    intro y
    rw [← map_eq_pure_bind]
    rfl
  rw [heq, heq]
  exact h.bind fun ρ₁ n₁ a a' hQ => Sim.pure ⟨a, a', hQ⟩

variable {V W : α → α → Prop} {U : Renaming → α → α → Prop}

theorem Keeps.discard (h : Keeps S ρ n x x' V) :
    Keeps S ρ n (Functor.discard x) (Functor.discard x') Eq := by
  refine (Sim.discard h).mono ?_
  rintro ρ₁ n₁ _ _ ⟨_, _, rfl, rfl, -⟩
  exact ⟨rfl, rfl, rfl⟩

theorem Keeps.bind (h : Keeps S ρ n x x' V)
    (hf : ∀ a a', V a a' → Sim S ρ n (f a) (f' a') P) : Sim S ρ n (x >>= f) (x' >>= f') P := by
  refine Sim.bind h ?_
  rintro ρ₁ n₁ a a' ⟨rfl, rfl, ha⟩
  exact hf a a' ha

theorem Keeps.eq_bind (h : Keeps S ρ n x x' Eq) (hf : ∀ a, Sim S ρ n (f a) (f' a) P) :
    Sim S ρ n (x >>= f) (x' >>= f') P :=
  h.bind fun a _ heq => heq ▸ hf a

theorem Moves.bind (h : Moves S ρ n x x' U)
    (hf : ∀ ρ₁ a a', U ρ₁ a a' → Sim S ρ₁ n (f a) (f' a') P) :
    Sim S ρ n (x >>= f) (x' >>= f') P := by
  refine Sim.bind h ?_
  rintro ρ₁ n₁ a a' ⟨rfl, ha⟩
  exact hf ρ₁ a a' ha

theorem Moves.eq_bind (h : Moves S ρ n x x' fun _ => Eq)
    (hf : ∀ ρ₁ a, Sim S ρ₁ n (f a) (f' a) P) : Sim S ρ n (x >>= f) (x' >>= f') P :=
  h.bind fun ρ₁ a _ heq => heq ▸ hf ρ₁ a

/-- An effect that keeps the renaming is one that may change it. -/
theorem Keeps.moves (h : Keeps S ρ n x x' V) (hle : ∀ a a', V a a' → U ρ a a') :
    Moves S ρ n x x' U := by
  refine Sim.mono h ?_
  rintro ρ₁ n₁ a a' ⟨rfl, rfl, ha⟩
  exact ⟨rfl, hle a a' ha⟩

theorem Moves.leads (h : Moves S ρ n x x' U) : Leads S ρ n x x' U :=
  Sim.mono h fun _ _ _ _ h => h.2

theorem Leads.bind (h : Leads S ρ n x x' U)
    (hf : ∀ ρ₁ n₁ a a', U ρ₁ a a' → Sim S ρ₁ n₁ (f a) (f' a') P) :
    Sim S ρ n (x >>= f) (x' >>= f') P :=
  Sim.bind h hf

theorem Leads.mapM {γ : Type} {g : γ → EStateM ε Machine α} (l : List γ)
    (h : ∀ ρ n, ∀ c ∈ l, Leads S ρ n (g c) (g c) fun _ => Eq) :
    Leads S ρ n (l.mapM g) (l.mapM g) fun _ => Eq := by
  induction l generalizing ρ n with
  | nil => exact Sim.pure rfl
  | cons c l ih =>
    rw [List.mapM_cons]
    refine Leads.bind (h ρ n c List.mem_cons_self) fun ρ₁ n₁ a _ heq => heq ▸ ?_
    refine Leads.bind (ih fun ρ n c hc => h ρ n c (List.mem_cons_of_mem _ hc)) ?_
    rintro ρ₂ n₂ as _ rfl
    exact Sim.pure rfl

theorem Leads.flatMapM {γ : Type} {g : γ → EStateM ε Machine (List α)} (l : List γ)
    (h : ∀ ρ n, ∀ c ∈ l, Leads S ρ n (g c) (g c) fun _ => Eq) :
    Leads S ρ n (l.flatMapM g) (l.flatMapM g) fun _ => Eq := by
  induction l generalizing ρ n with
  | nil => exact Sim.pure rfl
  | cons c l ih =>
    rw [List.flatMapM_cons]
    refine Leads.bind (h ρ n c List.mem_cons_self) fun ρ₁ n₁ a _ heq => heq ▸ ?_
    refine Leads.bind (ih fun ρ n c hc => h ρ n c (List.mem_cons_of_mem _ hc)) ?_
    rintro ρ₂ n₂ as _ rfl
    exact Sim.pure rfl

theorem Keeps.pure {a a' : α} (h : V a a') :
    Keeps S ρ n (Pure.pure a : EStateM ε Machine α) (Pure.pure a') V :=
  Sim.pure ⟨rfl, rfl, h⟩

theorem Moves.pure {a a' : α} (h : U ρ a a') :
    Moves S ρ n (Pure.pure a : EStateM ε Machine α) (Pure.pure a') U :=
  Sim.pure ⟨rfl, h⟩

end Rules

end Smalltalk
