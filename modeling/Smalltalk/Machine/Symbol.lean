import Smalltalk.Double.Basic
import Smalltalk.Machine.Basic
import Smalltalk.Text.Utf8

/-!
# Strings, numbers, symbols and globals

Symbols and globals share one table, the dictionary `Smalltalk`. Every symbol that exists is the key
of a link in it, in the chain that the hash of its bytes chooses, and the value of the link is the
global of that name, nil if there is none. So there is one symbol for each spelling, and a method
refers to a global by its link.

Chains end in nil. A walk along one takes at most as many steps as the memory has bytes in use; a
chain that is longer runs in a circle, and holds nothing more than was seen.

## Main definitions

* `symbolHash`: the hash of a symbol's bytes
* `Machine.findInChain`: walks along a chain of links
* `Machine.globalLink`, `Machine.newSymbol`: the link and the symbol of a name, made if missing
* `Machine.globalValue`, `Machine.setGlobal`
-/

namespace Smalltalk

open Layout

/-- One step of the hash: the bits that leave the lower 28 are mixed in again at the low end. -/
def symbolHashStep (h : UInt32) (b : UInt8) : UInt32 :=
  let h := (h <<< 4) + b.toUInt32
  let g := h &&& 0xF0000000
  if g = 0 then h else h ^^^ (g >>> 24) ^^^ g

/-- The hash of a symbol's bytes, kept within the 30 bits of identity hashes. -/
def symbolHash (name : List UInt8) : UInt32 := name.foldl symbolHashStep 0 &&& hashMask

namespace Machine

/-! ### Byte objects -/

/-- Makes a byte object. -/
def newBytes (cls : Value) (bytes : List UInt8) : Exec Value := do
  let object ← createObject cls bytes.length .bytes
  onMemory (Memory.setBytes object bytes)
  return object

/-- Makes a string. -/
def newString (text : String) : Exec Value := do
  newBytes (← register .stringClass) (Text.utf8 text)

/-- The text of a string or a symbol. Bytes that are not UTF-8 are replaced. -/
def stringValue (m : Machine) (object : Value) : Except Fault String := do
  return Text.decodeLossy (← m.memory.bytes object)

/-- Makes a floating point number. -/
def newFloat (x : Double) : Exec Value := do
  newBytes (← register .floatClass) x.toBytes

/-- The value of a floating point number. -/
def floatValue (m : Machine) (object : Value) : Except Fault Double := do
  match Double.ofBytes? (← m.memory.bytes object) with
  | some x => return x
  | none => .error (.wrongKind "float" .bytes)

/-- The code of a character. -/
def characterValue (m : Machine) (object : Value) : Except Fault UInt8 := do
  if object.isSmall then .error (.expectedCharacter "character")
  else if (← m.memory.classOf object) ≠ m.registers.get .characterClass then
    .error (.expectedCharacter "character")
  else m.memory.getByte object 0

/-! ### Chains of links -/

/-- The first link from `link` on that passes a test, within a number of steps. A chain that leads
back to itself has no end: where no link of it passes, the search would go on for ever, and here it
answers that there is none. -/
def findInChain (m : Machine) (test : Value → Except Fault Bool) :
    Nat → Value → Except Fault (Option Value)
  | 0, _ => return none
  | steps + 1, link => do
    if link = m.nil then return none
    else if ← test link then return some link
    else m.findInChain test steps (← m.memory.getPtr link Link.next)

/-- More steps than any chain without a circle has links. -/
def chainBound (m : Machine) : Nat := m.memory.usedBytes + 1

/-! ### The table of symbols and globals -/

/-- The table and the number of the chain for a hash. -/
def symbolBucket (m : Machine) (hash : UInt32) : Except Fault (Value × Nat) := do
  let table ← m.memory.getPtr (m.registers.get .smalltalk) Dictionary.table
  let buckets ← m.memory.size table
  if buckets = 0 then .error (.corruptContext .emptySystemDictionary)
  else return (table, hash.toNat % buckets)

/-- Is the key of a link the symbol with these bytes? -/
def isKey (m : Machine) (hash : UInt32) (name : List UInt8) (link : Value) : Except Fault Bool := do
  let key ← m.memory.getPtr link Link.key
  if key = m.nil then return false
  else if (← m.memory.hash key) ≠ hash then return false
  else if (← m.memory.kind key) ≠ .bytes then return false
  else return (← m.memory.bytes key) == name

/-- The link of a name, if there is one. -/
def findSymbolLink (m : Machine) (name : List UInt8) : Except Fault (Option Value) := do
  let hash := symbolHash name
  let (table, bucket) ← m.symbolBucket hash
  m.findInChain (m.isKey hash name) m.chainBound (← m.memory.getPtr table bucket)

/-- Puts a new link for a name in front of its chain. It is refetched after its key is made, because
that may have moved it. -/
def addSymbolLink (name : List UInt8) : Exec Value := do
  let hash := symbolHash name
  let link ← createObject (← register .linkClass) Link.size .pointers
  let (table, bucket) ← read (·.symbolBucket hash)
  let head ← getPtr table bucket
  setPtr link Link.next head
  setPtr table bucket link
  let symbol ← newBytes (← register .symbolClass) name
  onMemory (Memory.setHash symbol hash)
  let (table, bucket) ← read (·.symbolBucket hash)
  let link ← getPtr table bucket
  setPtr link Link.key symbol
  return link

/-- The link of a name, made with the value nil if it is missing. -/
def intern (name : List UInt8) : Exec Value := do
  match ← read (·.findSymbolLink name) with
  | some link => return link
  | none => addSymbolLink name

/-- The symbol of this spelling. -/
def newSymbol (name : String) : Exec Value := do
  getPtr (← intern (Text.utf8 name)) Link.key

/-- The link of a global, made with the value nil if it is missing. -/
def globalLink (name : String) : Exec Value := intern (Text.utf8 name)

/-- The link of a global, if there is one. -/
def lookupGlobal (m : Machine) (name : String) : Except Fault (Option Value) :=
  m.findSymbolLink (Text.utf8 name)

/-- The value of a global, if its name is known. -/
def globalValue (m : Machine) (name : String) : Except Fault (Option Value) := do
  match ← m.lookupGlobal name with
  | some link => return some (← m.memory.getPtr link Link.value)
  | none => return none

/-- Changes the value of a global. -/
def setGlobal (name : String) (value : Value) : Exec Unit := do
  let (link, value) ← holding value fun _ => globalLink name
  setPtr link Link.value value

end Machine

end Smalltalk
