import Smalltalk.Source.Error

/-!
# What names stand for

A name in a method is looked up in a fixed order: the words that are always there (`self`, `super`,
`nil`, `true`, `false`); the variables of the blocks around it, from the innermost outwards, and the
temporaries of the method; the arguments; the instance variables, the last of several with one name;
and, if it is capitalised, the globals.

Block parameters and the temporaries of blocks are slots of the method like its own temporaries, so
that a block finds them in its home context.

## Main definitions

* `Names`: what is in scope at some point of a method
* `Names.resolve`: what a name stands for there
* `Names.checkDeclaration`: whether a name may be declared there
* `NameTree`: names to search for
-/

namespace Smalltalk

/-- What a name stands for. -/
inductive Variable where
  | receiver
  | nil
  | true
  | false
  | temp (slot : UInt16)
  | arg (index : UInt16)
  | instanceVariable (index : UInt16)
  | global (name : String)
deriving DecidableEq

/-- The variables that a method or a block declares, with their slots. -/
abbrev Scope := List (String × UInt16)

/-- The names in scope. -/
structure Names where
  /-- Inherited variables first. -/
  instanceVariables : List String
  args : List String
  /-- The innermost scope first. -/
  scopes : List Scope
  /-- Is there a global of this name? -/
  isGlobal : String → Except Fault Bool

namespace Names

/-- The words that no declaration may take. -/
def reserved : List String := ["self", "super", "nil", "true", "false"]

/-- The slot of a variable of the method or of a block. -/
def slot? (names : Names) (name : String) : Option UInt16 :=
  names.scopes.findSome? (·.lookup name)

/-- The position of an instance variable. -/
def instanceVariable? (names : Names) (name : String) : Option Nat :=
  (names.instanceVariables.reverse.idxOf? name).map (names.instanceVariables.length - 1 - ·)

/-- Does the name start with one of the letters `A` to `Z`? -/
def isCapitalised (name : String) : Bool :=
  match name.toList with
  | c :: _ => 'A' ≤ c && c ≤ 'Z'
  | [] => false

/-- What a name stands for. -/
def resolve (names : Names) (name : String) (line : Nat) : Except CompileError Variable :=
  if name = "self" ∨ name = "super" then .ok .receiver
  else if name = "nil" then .ok .nil
  else if name = "true" then .ok .true
  else if name = "false" then .ok .false
  else
    match names.slot? name with
    | some slot => .ok (.temp slot)
    | none =>
      match names.args.idxOf? name with
      | some i => .ok (.arg (UInt16.ofNat i))
      | none =>
        match names.instanceVariable? name with
        | some i =>
          if i < 65536 then .ok (.instanceVariable (UInt16.ofNat i))
          else .error (.semantic ⟨line, .tooManyInstanceVariables⟩)
        | none =>
          if isCapitalised name then
            match names.isGlobal name with
            | .error fault => .error (.machine fault)
            | .ok true => .ok (.global name)
            | .ok false => .error (.semantic ⟨line, .undefinedGlobal name⟩)
          else .error (.semantic ⟨line, .undefinedVariable name⟩)

/-- A new name must not hide a reserved word, an argument or a variable of a scope around it. -/
def checkDeclaration (names : Names) (name : String) (line : Nat) : Except CompileError Unit :=
  if name ∈ reserved then .error (.semantic ⟨line, .cannotRedefine name⟩)
  else if name ∈ names.args ∨ names.scopes.any (·.any (·.1 = name)) then
    .error (.semantic ⟨line, .alreadyDefined name⟩)
  else .ok ()

end Names

/-- Names in the order of a search. -/
inductive NameTree where
  | none
  | node (before : NameTree) (name : String) (behind : NameTree)

namespace NameTree

/-- Is the name one of these? -/
def contains (name : String) : NameTree → Bool
  | .none => false
  | .node before other behind =>
    if name = other then true
    else if name < other then before.contains name
    else behind.contains name

/-- Adds a name. -/
def insert (name : String) : NameTree → NameTree
  | .none => .node .none name .none
  | .node before other behind =>
    if name = other then .node before other behind
    else if name < other then .node (before.insert name) other behind
    else .node before other (behind.insert name)

/-- What is found is what was added. -/
@[simp] theorem contains_insert (name added : String) (t : NameTree) :
    (t.insert added).contains name = (name = added || t.contains name) := by
  induction t with
  | none => by_cases h : name = added <;> simp [insert, contains, h]
  | node before other behind ihb iha =>
    rw [insert]
    split
    · rename_i h
      by_cases hname : name = added <;> simp [contains, hname, h]
    · split
      · by_cases hname : name = added
        · simp_all [contains]
        · simp [contains, ihb, hname]
      · by_cases hname : name = added
        · simp_all [contains]
        · simp [contains, iha, hname]

end NameTree

end Smalltalk
