import Mathlib.Logic.Relation
import Smalltalk.Proofs.Compilation.Evaluation

/-!
# Running code in one frame

What the instructions of a draft do, seen from the one frame they run in. Instructions that push,
store, copy, drop and jump do here what they do in the machine. An instruction that sends a message
takes the arguments and the receiver from the operand stack, one that calls a primitive takes its
arguments, and one that makes a block takes nothing; each then pushes what the oracle answers, and
what happens elsewhere in between is not followed.

A block is known by the number of its arguments and by where its code starts, which is behind the
jump that follows the instruction that makes it. When it is activated, its arguments are on its own
operand stack, the first on top, and it goes on from there.

Code gets stuck where an operand or a literal is missing. This is not an error that the machine
reports but the end of what the frame says.

## Main definitions

* `Draft.next`: one instruction
* `Draft.Reaches`, `Draft.Finishes`: runs of instructions, up to somewhere and to the end
-/

namespace Smalltalk

/-- A block as code knows it. -/
structure CodeSite where
  argc : Nat
  start : Nat

/-- How far the code of a frame has come: the next instruction, the operands with the topmost first,
and what has been done. -/
structure Config (V : Type) where
  ip : Nat
  stack : List V
  history : History V CodeSite

variable {V : Type}

/-- The configuration with one more operand. -/
def Config.push (c : Config V) (v : V) : Config V := { c with stack := v :: c.stack }

/-- What comes of an instruction. -/
inductive FrameOutcome (V : Type) where
  | goesOn (c : Config V)
  | finishes (ending : Ending V) (history : History V CodeSite)
  | stuck

/-- Takes the topmost operand. -/
def Config.pop (c : Config V) (f : V → Config V → FrameOutcome V) : FrameOutcome V :=
  match c.stack with
  | v :: rest => f v { c with stack := rest }
  | [] => .stuck

namespace Draft

variable (d : Draft) (a : Activation V) (o : Oracle V)

/-- The name of the global that a literal is the link of. -/
def globalName? (index : UInt16) : Option String :=
  match d.literals[index.toNat]? with
  | some (.global name) => some name
  | _ => none

/-- Sends the selector in a literal to the receiver below the arguments. -/
def sendMessage (toSuper : Bool) (argc selector : Nat) (c : Config V) : FrameOutcome V :=
  match d.literals[selector]?, c.stack.drop argc with
  | some (.selector name), receiver :: rest =>
    let r := c.history.perform o (.send toSuper name receiver (c.stack.take argc).reverse)
    .goesOn { c with stack := r.1 :: rest, history := r.2 }
  | _, _ => .stuck

/-- What an instruction does. The instruction pointer is behind it already. -/
def execute : Instruction → Config V → FrameOutcome V
  | .nop, c => .goesOn c
  | .pushSelf, c => .goesOn (c.push a.receiver)
  | .pushNil, c => .goesOn (c.push a.nil)
  | .pushFalse, c => .goesOn (c.push a.false)
  | .pushTrue, c => .goesOn (c.push a.true)
  | .dup, c => c.pop fun v c => .goesOn ((c.push v).push v)
  | .drop, c => c.pop fun _ c => .goesOn c
  | .returnMethod, c => c.pop fun v c => .finishes (.returns v) c.history
  | .returnBlock, c => c.pop fun v c => .finishes (.ends v) c.history
  | .pushConst index, c =>
    match d.literals[index.toNat]? with
    | some entry => .goesOn (c.push (a.literal entry))
    | none => .stuck
  | .pushGlobal index, c =>
    match d.globalName? index with
    | some name => .goesOn (c.push (c.history.vars.globals name))
    | none => .stuck
  | .storeGlobal index, c =>
    match d.globalName? index with
    | some name =>
      c.pop fun v c => .goesOn { c with history := c.history.assign (.global name) v }
    | none => .stuck
  | .pushInstance index, c =>
    .goesOn (c.push (c.history.vars.instanceVariables index.toNat))
  | .storeInstance index, c =>
    c.pop fun v c =>
      .goesOn { c with history := c.history.assign (.instanceVariable index.toNat) v }
  | .pushArg index, c => .goesOn (c.push (a.args index.toNat))
  | .pushTemp index, c => .goesOn (c.push (c.history.vars.temps index.toNat))
  | .storeTemp index, c =>
    c.pop fun v c => .goesOn { c with history := c.history.assign (.temp index.toNat) v }
  | .pushBlock argc _, c =>
    let r := c.history.create o ⟨argc.toNat, c.ip + 1⟩
    .goesOn { c with stack := r.1 :: c.stack, history := r.2 }
  | .send argc selector, c => d.sendMessage o false argc.toNat selector.toNat c
  | .sendSuper argc selector, c => d.sendMessage o true argc.toNat selector.toNat c
  | .primitive argc number, c =>
    if argc.toNat ≤ c.stack.length then
      let r := c.history.perform o (.primitive number (c.stack.take argc.toNat).reverse)
      .goesOn { c with stack := r.1 :: c.stack.drop argc.toNat, history := r.2 }
    else .stuck
  | .jump target, c => .goesOn { c with ip := target.toNat }

/-- Runs the next instruction. -/
def next (c : Config V) : FrameOutcome V :=
  match d.code[c.ip]? with
  | some i => d.execute a o i { c with ip := c.ip + 1 }
  | none => .stuck

/-- The code gets from one configuration to another. -/
def Reaches : Config V → Config V → Prop :=
  Relation.ReflTransGen fun c c' => d.next a o c = .goesOn c'

/-- The code gets to its end. -/
def Finishes (c : Config V) (ending : Ending V) (history : History V CodeSite) : Prop :=
  ∃ c', d.Reaches a o c c' ∧ d.next a o c' = .finishes ending history

variable {d a o}

theorem next_eq {c : Config V} {i : Instruction} (h : d.code[c.ip]? = some i) :
    d.next a o c = d.execute a o i { c with ip := c.ip + 1 } := by
  rw [next, h]

theorem Reaches.refl (c : Config V) : d.Reaches a o c c := Relation.ReflTransGen.refl

theorem Reaches.trans {c c' c'' : Config V} (h : d.Reaches a o c c') (h' : d.Reaches a o c' c'') :
    d.Reaches a o c c'' :=
  Relation.ReflTransGen.trans h h'

theorem Reaches.of_next {c c' : Config V} (h : d.next a o c = .goesOn c') : d.Reaches a o c c' :=
  .single h

theorem Reaches.finishes {c c' : Config V} {ending : Ending V} {history : History V CodeSite}
    (h : d.Reaches a o c c') (h' : d.Finishes a o c' ending history) :
    d.Finishes a o c ending history := by
  obtain ⟨c'', hr, hn⟩ := h'
  exact ⟨c'', h.trans hr, hn⟩

/-- A run has one end. -/
theorem Finishes.unique {c : Config V} {ending ending' : Ending V}
    {history history' : History V CodeSite} (h : d.Finishes a o c ending history)
    (h' : d.Finishes a o c ending' history') : ending = ending' ∧ history = history' := by
  obtain ⟨last, hr, hn⟩ := h
  induction hr using Relation.ReflTransGen.head_induction_on with
  | refl =>
    obtain ⟨last', hr', hn'⟩ := h'
    rcases Relation.ReflTransGen.cases_head hr' with rfl | ⟨c', hc', -⟩
    · rw [hn] at hn'
      cases hn'
      exact ⟨rfl, rfl⟩
    · rw [hn] at hc'
      cases hc'
  | head hc hr ih =>
    obtain ⟨last', hr', hn'⟩ := h'
    rcases Relation.ReflTransGen.cases_head hr' with rfl | ⟨c', hc', hr''⟩
    · rw [hc] at hn'
      cases hn'
    · rw [hc] at hc'
      cases hc'
      exact ih ⟨last', hr'', hn'⟩

end Draft

end Smalltalk
