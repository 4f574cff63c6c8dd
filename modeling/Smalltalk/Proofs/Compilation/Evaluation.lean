import Mathlib.Logic.Function.Basic
import Smalltalk.Method.Draft

/-!
# What a method means

A direct evaluation of syntax trees, from left to right, that knows nothing of instructions, operand
stacks or literal tables.

**Values are not looked into.** What a method does to values it does by sending messages and calling
primitives, so values can be of any type, and what it means for a method to be compiled correctly
does not depend on what objects are. The constants that a method can name are in its `Activation`.

**What others do is told.** An `Oracle` says what comes back from each message, primitive and block
creation. While a message is answered, anything may happen to the variables: a block of this very
method may run and assign to its temporaries. So an answer comes with the variables as they are
then. It is the number of actions so far that selects an answer, and so two evaluations that do the
same things hear the same answers.

**What the method does is written down.** A `History` has every message with receiver and arguments,
every primitive, every assignment and every creation of a block, in order. It does not say what a
block is: evaluating a tree makes blocks of the tree's, running code makes blocks of the code's.

**Names stand for places**, in the order that `Names` describes. The variables of blocks are slots
of the method's frame, like its own temporaries, and all of them are numbered in the order in which
their declarations stand in the source. `next` is the first slot that is not taken.

## Main definitions

* `Action`, `History`: what has been done
* `Scoping.place`: what a name stands for
* `evalExpr`: the value of an expression
* `BlockSite.eval`, `MethodTree.eval`: what a block does when it is activated, and a method
-/

namespace Smalltalk

/-! ## Places and values -/

/-- Where the value of a name is found. -/
inductive Place where
  | receiver
  | nil
  | true
  | false
  | temp (slot : Nat)
  | arg (index : Nat)
  | instanceVariable (index : Nat)
  | global (name : String)
deriving DecidableEq

/-- The variables that a method can assign to. -/
structure Variables (V : Type) where
  temps : Nat → V
  instanceVariables : Nat → V
  globals : String → V

/-- What stays as it is while a method runs. -/
structure Activation (V : Type) where
  receiver : V
  nil : V
  true : V
  false : V
  args : Nat → V
  /-- The objects that the literals are. -/
  literal : LiteralEntry → V

variable {V B : Type}

/-- The value at a place. -/
def Activation.value (a : Activation V) (vars : Variables V) : Place → V
  | .receiver => a.receiver
  | .nil => a.nil
  | .true => a.true
  | .false => a.false
  | .temp slot => vars.temps slot
  | .arg index => a.args index
  | .instanceVariable index => vars.instanceVariables index
  | .global name => vars.globals name

/-- The variables after an assignment. Only temporaries, instance variables and globals can be
assigned to. -/
def Variables.set (vars : Variables V) (place : Place) (value : V) : Variables V :=
  match place with
  | .temp slot => { vars with temps := Function.update vars.temps slot value }
  | .instanceVariable index =>
    { vars with instanceVariables := Function.update vars.instanceVariables index value }
  | .global name => { vars with globals := Function.update vars.globals name value }
  | _ => vars

/-! ## Actions -/

/-- What a method does that can be seen from outside. `B` is what is known of a block that is
created. -/
inductive Action (V B : Type) where
  | send (toSuper : Bool) (selector : String) (receiver : V) (args : List V)
  | primitive (number : UInt16) (args : List V)
  | store (place : Place) (value : V)
  | block (site : B)

/-- What comes back from an action: an answer, and the variables as they are then. -/
structure Reply (V : Type) where
  value : V
  vars : Variables V

/-- What comes back from each action, by the number of actions before it. -/
abbrev Oracle (V : Type) := Nat → Reply V

/-- What has been done so far, and what the variables are now. -/
structure History (V B : Type) where
  vars : Variables V
  actions : List (Action V B)

namespace History

/-- Assigns to a place. -/
def assign (place : Place) (value : V) (h : History V B) : History V B :=
  ⟨h.vars.set place value, h.actions ++ [.store place value]⟩

/-- Assigns values to slots in a row. -/
def assignSlots (slot : Nat) : List V → History V B → History V B
  | [], h => h
  | v :: vs, h => assignSlots (slot + 1) vs (h.assign (.temp slot) v)

/-- Does something to which others respond. -/
def perform (o : Oracle V) (action : Action V B) (h : History V B) : V × History V B :=
  ((o h.actions.length).value, ⟨(o h.actions.length).vars, h.actions ++ [action]⟩)

/-- Creates a block. Nothing else can happen meanwhile. -/
def create (o : Oracle V) (site : B) (h : History V B) : V × History V B :=
  ((o h.actions.length).value, ⟨h.vars, h.actions ++ [.block site]⟩)

end History

/-! ## Names -/

/-- What the names at some point of a method are declared as. -/
structure Scoping where
  /-- Inherited variables first. -/
  instanceVariables : List String
  args : List String
  /-- The variables of blocks and methods with their slots, the innermost scope first. -/
  scopes : List (List (String × Nat))

/-- The position of the last of several equal names. -/
def lastIdxOf? (name : String) : List String → Option Nat
  | [] => none
  | first :: more =>
    match lastIdxOf? name more with
    | some i => some (i + 1)
    | none => if first = name then some 0 else none

namespace Scoping

/-- The scoping inside a block or method that declares these variables. -/
def enter (s : Scoping) (next : Nat) (names : List String) : Scoping :=
  { s with scopes := names.zipIdx next :: s.scopes }

/-- What a name stands for. -/
def place (s : Scoping) (name : String) : Place :=
  if name = "self" ∨ name = "super" then .receiver
  else if name = "nil" then .nil
  else if name = "true" then .true
  else if name = "false" then .false
  else
    match s.scopes.findSome? (·.lookup name) with
    | some slot => .temp slot
    | none =>
      match s.args.idxOf? name with
      | some i => .arg i
      | none =>
        match lastIdxOf? name s.instanceVariables with
        | some i => .instanceVariable i
        | none => .global name

end Scoping

mutual

/-- How many variables the blocks in an expression declare. -/
def Expr.slots : Expr → Nat
  | .name _ _ => 0
  | .literal _ _ => 0
  | .assign _ value _ => value.slots
  | .send receiver message => receiver.slots + message.slots
  | .cascade receiver messages => receiver.slots + slotsOfMessages messages
  | .block b => b.slots
  | .primitive _ args _ => slotsOfExprs args

def slotsOfExprs : List Expr → Nat
  | [] => 0
  | e :: es => e.slots + slotsOfExprs es

def Message.slots : Message → Nat
  | .mk _ args _ => slotsOfExprs args

def slotsOfMessages : List Message → Nat
  | [] => 0
  | m :: ms => m.slots + slotsOfMessages ms

def Statement.slots : Statement → Nat
  | .evaluate e => e.slots
  | .answer e => e.slots

def slotsOfStatements : List Statement → Nat
  | [] => 0
  | s :: ss => s.slots + slotsOfStatements ss

def Block.slots : Block → Nat
  | .mk params temps body _ => (params ++ temps).length + slotsOfStatements body

end

/-! ## Evaluation -/

/-- A block where it stands in a method: what is declared around it, and from which slot on there is
room for its own variables. -/
structure BlockSite where
  block : Block
  scoping : Scoping
  next : Nat

section Evaluation

variable (a : Activation V) (o : Oracle V)

mutual

/-- The value of an expression. -/
def evalExpr (s : Scoping) (next : Nat) : Expr → History V BlockSite → V × History V BlockSite
  | .name name _, h => (a.value h.vars (s.place name), h)
  | .literal value _, h => (a.literal (.constant value), h)
  | .assign name value _, h =>
    let r := evalExpr s next value h
    (r.1, r.2.assign (s.place name) r.1)
  | .send receiver message, h =>
    let r := evalExpr s next receiver h
    evalMessage s (next + receiver.slots) receiver.isSuper r.1 message r.2
  | .cascade receiver messages, h =>
    let r := evalExpr s next receiver h
    evalCascade s (next + receiver.slots) receiver.isSuper r.1 r.1 messages r.2
  | .block b, h => h.create o ⟨b, s, next⟩
  | .primitive number args _, h =>
    let r := evalExprs s next args h
    r.2.perform o (.primitive number r.1)

/-- The values of expressions. -/
def evalExprs (s : Scoping) (next : Nat) :
    List Expr → History V BlockSite → List V × History V BlockSite
  | [], h => ([], h)
  | e :: es, h =>
    let r := evalExpr s next e h
    let rs := evalExprs s (next + e.slots) es r.2
    (r.1 :: rs.1, rs.2)

/-- The answer to a message. -/
def evalMessage (s : Scoping) (next : Nat) (toSuper : Bool) (receiver : V) :
    Message → History V BlockSite → V × History V BlockSite
  | .mk selector args _, h =>
    let r := evalExprs s next args h
    r.2.perform o (.send toSuper selector receiver r.1)

/-- The answer to the last of several messages to one receiver; `answer` is that to the message
before them. -/
def evalCascade (s : Scoping) (next : Nat) (toSuper : Bool) (receiver answer : V) :
    List Message → History V BlockSite → V × History V BlockSite
  | [], h => (answer, h)
  | m :: ms, h =>
    let r := evalMessage s next toSuper receiver m h
    evalCascade s (next + m.slots) toSuper receiver r.1 ms r.2

end

/-- How statements end. -/
inductive Ending (V : Type) where
  /-- With a return from the method. -/
  | returns (value : V)
  /-- Behind the last statement, with its value. -/
  | ends (value : V)

/-- What a method answers whose statements have ended: the value of the return; or, if there was
none, that of the last statement if this is asked for; or else the receiver. -/
def Ending.answer (receiver : V) (valueNeeded : Bool) : Ending V → V
  | .returns value => value
  | .ends value => if valueNeeded then value else receiver

/-- Evaluates statements up to a return; `value` is that of the statement before them. -/
def evalStatements (s : Scoping) (next : Nat) (value : V) :
    List Statement → History V BlockSite → Ending V × History V BlockSite
  | [], h => (.ends value, h)
  | .answer e :: _, h =>
    let r := evalExpr a o s next e h
    (.returns r.1, r.2)
  | .evaluate e :: rest, h =>
    let r := evalExpr a o s next e h
    evalStatements s (next + e.slots) r.1 rest r.2

/-- What a block does when it is activated: its parameters get their values, and its value is that
of its last statement, or nil. -/
def BlockSite.eval (b : BlockSite) (args : List V) (h : History V BlockSite) :
    Ending V × History V BlockSite :=
  let names := b.block.params ++ b.block.temps
  evalStatements a o (b.scoping.enter b.next names) (b.next + names.length) a.nil b.block.body
    (h.assignSlots b.next args)

/-- What a method does, and what it answers. -/
def MethodTree.eval (tree : MethodTree) (instanceVariables : List String) (valueNeeded : Bool)
    (h : History V BlockSite) : V × History V BlockSite :=
  let s := Scoping.enter ⟨instanceVariables, tree.args, []⟩ 0 tree.temps
  let r := evalStatements a o s tree.temps.length a.receiver tree.body h
  (r.1.answer a.receiver valueNeeded, r.2)

end Evaluation

end Smalltalk
