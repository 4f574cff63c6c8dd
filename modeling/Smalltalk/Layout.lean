/-!
# Fields of the objects that the machine looks inside

A field is named by its position in the body of the object. Everything else about an object is the
business of the methods of its class.
-/

namespace Smalltalk

namespace Layout

/-! ### Link: a key, its value and the next link of the chain -/

namespace Link

/-- The key. -/
abbrev key : Nat := 0

/-- The value. -/
abbrev value : Nat := 1

/-- The next link of the chain, or nil. -/
abbrev next : Nat := 2

/-- How many fields there are. -/
abbrev size : Nat := 3

end Link

/-! ### Dictionary: an array of chains of links -/

namespace Dictionary

/-- The array of chains. -/
abbrev table : Nat := 0

/-- How many fields there are. -/
abbrev size : Nat := 1

/-- The chains of a method dictionary. -/
abbrev buckets : Nat := 7

/-- The chains of the dictionary of globals and symbols. -/
abbrev systemBuckets : Nat := 97

end Dictionary

/-! ### Behavior: classes and metaclasses -/

namespace Behavior

/-- The name, a symbol. -/
abbrev name : Nat := 0

/-- What instances hold, as `ClassShape.code` numbers it. -/
abbrev instanceType : Nat := 1

/-- How many variables instances have, inherited ones included. -/
abbrev instanceSize : Nat := 2

/-- The dictionary from selectors to methods, or nil. -/
abbrev methods : Nat := 3

/-- The superclass, or nil. -/
abbrev superclass : Nat := 4

/-- The names of the variables that the class adds, or nil. -/
abbrev variableNames : Nat := 5

/-- How many fields there are. -/
abbrev size : Nat := 6

end Behavior

/-! ### Context: what method contexts and block contexts share -/

namespace Context

/-- The context to return to, or nil. -/
abbrev caller : Nat := 0

/-- The number of the next instruction. -/
abbrev ip : Nat := 1

/-- The operand stack, or nil. -/
abbrev stack : Nat := 2

/-- How many operands there are. -/
abbrev sp : Nat := 3

end Context

/-! ### MethodContext: a method that runs, or has run -/

namespace MethodContext

/-- The method. -/
abbrev method : Nat := 4

/-- The receiver. -/
abbrev receiver : Nat := 5

/-- The arguments, or nil. -/
abbrev args : Nat := 6

/-- The temporaries, or nil. -/
abbrev temps : Nat := 7

/-- Whether the method has returned. -/
abbrev state : Nat := 8

/-- How many fields there are. -/
abbrev size : Nat := 9

end MethodContext

/-! ### BlockContext: a block -/

namespace BlockContext

/-- How many arguments the block takes. -/
abbrev argCount : Nat := 4

/-- The number of its first instruction. -/
abbrev start : Nat := 5

/-- The method context in which the block was made. -/
abbrev home : Nat := 6

/-- How many fields there are. -/
abbrev size : Nat := 7

end BlockContext

/-! ### Method -/

namespace Method

/-- The source. -/
abbrev text : Nat := 0

/-- The selector, a symbol. -/
abbrev selector : Nat := 1

/-- The instructions, a word object. -/
abbrev code : Nat := 2

/-- The literals, or nil. -/
abbrev literals : Nat := 3

/-- How many arguments there are. -/
abbrev argSize : Nat := 4

/-- How many temporaries there are. -/
abbrev tempSize : Nat := 5

/-- How many operands the stack must hold. -/
abbrev stackSize : Nat := 6

/-- The class for which the method was compiled. -/
abbrev owner : Nat := 7

/-- How many fields there are. -/
abbrev size : Nat := 8

end Method

end Layout

end Smalltalk
