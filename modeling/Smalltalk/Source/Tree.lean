import Smalltalk.Double.Basic

/-!
# Syntax trees of methods

A tree keeps, for each name, literal and message, the line on which it stands in the source, because
that is the line a message about it names.
-/

namespace Smalltalk

/-- A literal. The words `nil`, `true` and `false` are literals only inside a literal array;
elsewhere they are names. -/
inductive Literal where
  | integer (n : Int)
  | float (x : Double)
  | character (b : UInt8)
  | string (s : String)
  | symbol (s : String)
  | nil
  | true
  | false
  | array (items : List Literal)

mutual

/-- An expression. -/
inductive Expr where
  | name (name : String) (line : Nat)
  | literal (value : Literal) (line : Nat)
  | assign (name : String) (value : Expr) (line : Nat)
  | send (receiver : Expr) (message : Message)
  /-- All messages go to the one receiver. -/
  | cascade (receiver : Expr) (messages : List Message)
  | block (block : Block)
  | primitive (number : UInt16) (args : List Expr) (line : Nat)

/-- A selector and the arguments that go with it. -/
inductive Message where
  | mk (selector : String) (args : List Expr) (line : Nat)

/-- A statement: an expression that is evaluated, or one whose value the method answers. -/
inductive Statement where
  | evaluate (expr : Expr)
  | answer (expr : Expr)

/-- A block: its parameters, its own temporaries and its statements. -/
inductive Block where
  | mk (params temps : List String) (body : List Statement) (line : Nat)

end

namespace Message

/-- The selector that is sent. -/
def selector : Message → String
  | mk selector _ _ => selector

/-- The arguments, in the order of the source. -/
def args : Message → List Expr
  | mk _ args _ => args

/-- The line of the selector's first part. -/
def line : Message → Nat
  | mk _ _ line => line

end Message

namespace Block

/-- The names of the parameters. -/
def params : Block → List String
  | mk params _ _ _ => params

/-- The names of the block's own temporaries. -/
def temps : Block → List String
  | mk _ temps _ _ => temps

/-- The statements. -/
def body : Block → List Statement
  | mk _ _ body _ => body

/-- The line of the opening bracket. -/
def line : Block → Nat
  | mk _ _ _ line => line

end Block

namespace Expr

/-- Is the expression the name `super`, whose messages are looked up above the class of the method?
-/
def isSuper : Expr → Bool
  | .name word _ => word == "super"
  | _ => false

/-- The line on which an expression starts: for messages, the line of their receiver. -/
def line : Expr → Nat
  | .name _ line => line
  | .literal _ line => line
  | .assign _ _ line => line
  | .send receiver _ => receiver.line
  | .cascade receiver _ => receiver.line
  | .block b => b.line
  | .primitive _ _ line => line

end Expr

/-- A method: its pattern, its temporaries and its statements. -/
structure MethodTree where
  selector : String
  args : List String
  temps : List String
  body : List Statement

end Smalltalk
