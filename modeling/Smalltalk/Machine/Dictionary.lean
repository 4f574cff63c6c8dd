import Smalltalk.Machine.Symbol

/-!
# Dictionaries and classes

A dictionary maps keys to values by identity. Its chains are chosen by the identity hash of the key;
integers have none and share the first chain.

The methods of a class are such a dictionary, from selectors to methods. A method is looked for in
the class, then in its superclass, and so on; a chain of superclasses that runs in a circle ends as
one that leads nowhere.

## Main definitions

* `Machine.newDictionary`, `Machine.dictionaryLookup`, `Machine.dictionaryEnter`
* `Machine.findMethod`, `Machine.installMethod`
* `Machine.instanceVariables`, `Machine.className`
-/

namespace Smalltalk

open Layout

namespace Machine

/-- Makes a dictionary with empty chains. -/
def newDictionary (cls : Value) (buckets : Nat) : Exec Value := do
  let dictionary ← createObject cls Dictionary.size .pointers
  let (table, dictionary) ← holding dictionary fun _ => do
    createObject (← register .arrayClass) buckets .pointers
  setPtr dictionary Dictionary.table table
  return dictionary

/-- The table of a dictionary and the number of the chain for a key. -/
def dictionaryBucket (m : Machine) (dictionary key : Value) : Except Fault (Value × Nat) := do
  let table ← m.memory.getPtr dictionary Dictionary.table
  let buckets ← m.memory.size table
  if buckets = 0 then .error (.indexOutOfRange "dictionary" 0 0)
  else return (table, (← m.memory.hash key).toNat % buckets)

/-- The link of a key, if there is one. -/
def dictionaryLink (m : Machine) (dictionary key : Value) : Except Fault (Option Value) := do
  let (table, bucket) ← m.dictionaryBucket dictionary key
  let isLink (link : Value) : Except Fault Bool := do
    return (← m.memory.getPtr link Link.key) = key
  m.findInChain isLink m.chainBound (← m.memory.getPtr table bucket)

/-- The value of a key, if there is one. -/
def dictionaryLookup (m : Machine) (dictionary key : Value) : Except Fault (Option Value) := do
  match ← m.dictionaryLink dictionary key with
  | some link => return some (← m.memory.getPtr link Link.value)
  | none => return none

/-- Puts a new link for a key in front of its chain. -/
def addDictionaryLink (dictionary key value : Value) : Exec Unit := do
  let (link, dictionary, key, value) ← holding₃ dictionary key value fun _ => do
    createObject (← register .linkClass) Link.size .pointers
  let (table, bucket) ← read (·.dictionaryBucket dictionary key)
  let head ← getPtr table bucket
  setPtr link Link.key key
  setPtr link Link.value value
  setPtr link Link.next head
  setPtr table bucket link

/-- Gives a key a value. -/
def dictionaryEnter (dictionary key value : Value) : Exec Unit := do
  match ← read (·.dictionaryLink dictionary key) with
  | some link => setPtr link Link.value value
  | none => addDictionaryLink dictionary key value

/-! ### Classes -/

/-- The name of a class, or how its reference is written if it has none. -/
def className (m : Machine) (cls : Value) : String :=
  match m.memory.getPtr cls Behavior.name >>= m.stringValue with
  | .ok name => name
  | .error _ => cls.text

/-- The text of a symbol, empty if it is none. -/
def selectorText (m : Machine) (selector : Value) : String :=
  match m.stringValue selector with
  | .ok text => text
  | .error _ => ""

/-- An empty dictionary for methods. -/
def newMethodDictionary : Exec Value := do
  let cls ← read (·.globalValue "Dictionary")
  newDictionary (cls.getD (← look nil)) Dictionary.buckets

/-- Adds a method to a class under its selector. -/
def installMethod (cls method : Value) : Exec Unit := do
  let methods ← getPtr cls Behavior.methods
  let (methods, _, method) ← holding₂ cls method fun place => do
    if methods = (← look nil) then
      let methods ← newMethodDictionary
      setPtr (← held place) Behavior.methods methods
      return methods
    else return methods
  let selector ← getPtr method Method.selector
  dictionaryEnter methods selector method

/-- The method for a selector in a class or above it, within a number of steps. A class that is
above itself has no topmost class: where no class above it has the method, the search would go on
for ever, and here it answers that there is none. -/
def findMethodFrom (m : Machine) (selector : Value) : Nat → Value → Except Fault (Option Value)
  | 0, _ => return none
  | steps + 1, cls => do
    if cls = m.nil then return none
    else
      let methods ← m.memory.getPtr cls Behavior.methods
      let found ← if methods = m.nil then pure none else m.dictionaryLookup methods selector
      match found with
      | some method => return some method
      | none => m.findMethodFrom selector steps (← m.memory.getPtr cls Behavior.superclass)

/-- The method that a message to an instance of a class runs. -/
def findMethod (m : Machine) (cls selector : Value) : Except Fault Value := do
  match ← m.findMethodFrom selector m.chainBound cls with
  | some method => return method
  | none => .error (.messageNotUnderstood (m.className cls) (m.selectorText selector))

/-- A class and the classes above it, unless there are more than a number of them. For a class that
is above itself, whose superclasses could be followed for ever, there is no such list. -/
def superclassChain (m : Machine) : Nat → Value → Except Fault (Option (List Value))
  | 0, _ => return none
  | steps + 1, cls => do
    if cls = m.nil then return some []
    else
      let above ← m.superclassChain steps (← m.memory.getPtr cls Behavior.superclass)
      return above.map (cls :: ·)

/-- The names of the variables that a class adds. -/
def ownVariables (m : Machine) (cls : Value) : Except Fault (List String) := do
  let variableNames ← m.memory.getPtr cls Behavior.variableNames
  if variableNames = m.nil then return []
  else
    (List.range (← m.memory.size variableNames)).mapM fun i => do
      m.stringValue (← m.memory.getPtr variableNames i)

/-- The names of the variables of instances of a class, those of the root class first. A class that
is above itself answers none. -/
def instanceVariables (m : Machine) (cls : Value) : Except Fault (List String) := do
  let chain ← m.superclassChain m.chainBound cls
  return (← (chain.getD []).reverse.mapM m.ownVariables).flatten

/-- The class that a global names, if it is one: an object whose class is an instance of the class
of metaclasses. -/
def lookupClass (m : Machine) (name : String) : Except Fault (Option Value) := do
  match ← m.globalValue name with
  | none => return none
  | some value =>
    if value.isSmall ∨ value = m.nil then return none
    else
      let metaclass ← m.classOf value
      if (← m.classOf metaclass) = m.registers.get .metaclassClass then return some value
      else return none

end Machine

end Smalltalk
