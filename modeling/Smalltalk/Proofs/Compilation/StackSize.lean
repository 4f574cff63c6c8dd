import Smalltalk.Proofs.Compilation.Operands

/-!
# Declared stack sizes are sufficient

The emitter counts how deep the operand stack is and remembers the deepest point, which becomes the
size of the stack: that of a method is the room of its statements, that of a block the room of the
block. The intents of a tree are a script within this room, and code that follows a script flows
from one depth to another without leaving the room.

The depths do not depend on what names stand for, so there is no bound on the arguments of a method
here.

## Main results

* `Draft.Meets.flows`: code that follows a script
* `stack_sizes_sufficient`: every instruction of a compiled method has a depth that fits
-/

namespace Smalltalk

theorem Draft.Meets.flows {d : Draft} {s : Scoping} {room a b i k : Nat} {blocks : List Nest}
    {ws : List Intent} (h : d.Meets ws i k) (hscript : Script s room a b blocks ws) :
    d.Flows room a b i k := by
  induction hscript generalizing i k with
  | nil =>
    obtain rfl := meets_nil.1 h
    exact .nil
  | step hw ha hb _ ih =>
    obtain ⟨⟨ins, hi, hins⟩, hmore⟩ := meets_cons.1 h
    obtain ⟨hplain, -, hneeds, heffect⟩ := hins.steps hw
    exact .step hi hplain hneeds heffect ha hb (ih hmore)
  | answer hreturn hroom _ ih =>
    obtain ⟨⟨_, hi, ⟨⟩⟩, hmore⟩ := meets_cons.1 h
    exact .answer hi hreturn hroom (ih hmore)
  | block _ hreturn hsize hroom _ ihbody ih =>
    obtain ⟨j, hblock, hmore⟩ := meets_append.1 h
    obtain ⟨argc, size, target, hi, rfl, rfl, hnext, htarget, hinner⟩ := meets_block hblock
    obtain ⟨l, hbody, hret⟩ := meets_append.1 hinner
    obtain ⟨⟨_, hl, ⟨⟩⟩, hend⟩ := meets_cons.1 hret
    obtain rfl := meets_nil.1 hend
    exact .block hi hnext htarget (ihbody hbody) hl hreturn hsize hroom (ih hmore)

/-- **Declared stack sizes are sufficient.** For every method that can be parsed, all instance
variables and globals, and whether or not the value of its last statement is asked for: if the
method is compiled, then every instruction of its code has one depth at which it is reached. The
depths begin at zero, and in the body of a block at the number of its arguments; they follow the
effects of the instructions and the jumps; every instruction finds its operands; and no depth
exceeds the size that is declared for the stack of the method or of the innermost block around the
instruction. A return is reached with nothing on the stack but what is returned. -/
theorem stack_sizes_sufficient {source : List UInt8} {tree : MethodTree}
    {instanceVariables : List String} {isGlobal : String → Except Fault Bool} {valueNeeded : Bool}
    {d : Draft} (hparse : MethodTree.ofSource source = .ok tree)
    (hcompile : Draft.ofTree instanceVariables isGlobal tree valueNeeded = .ok d) :
    ∃ depth, d.Depths depth := by
  have hbody := MethodTree.proper_ofSource hparse
  obtain ⟨-, -, hroom, hmeets⟩ := Draft.laidOut_ofTree hbody hcompile
  obtain ⟨ws, heq, hscript⟩ := script_method tree.body hbody
    (Scoping.enter ⟨instanceVariables, tree.args, []⟩ 0 tree.temps) tree.temps.length valueNeeded
    (Nat.le_of_eq hroom.symm)
  rw [MethodTree.intents, heq] at hmeets
  obtain ⟨l, hcode, hret⟩ := Draft.meets_append.1 hmeets
  obtain ⟨⟨_, hl, ⟨⟩⟩, hend⟩ := Draft.meets_cons.1 hret
  exact (hcode.flows hscript).depths hl rfl (hscript.le_room (Nat.zero_le _))
    (Draft.meets_nil.1 hend)

/-- The theorem applies to a method with a block that assigns, and with a cascade. -/
theorem stack_sizes_sufficient_raise :
    MethodTree.ofSource raiseSource = .ok raiseTree ∧
      ∃ d, Draft.ofTree ["n"] (fun _ => .ok false) raiseTree false = .ok d ∧
        ∃ depth, d.Depths depth := by
  obtain ⟨d, hd⟩ := ofTree_raiseTree
  exact ⟨ofSource_raiseSource, d, hd, stack_sizes_sufficient ofSource_raiseSource hd⟩

end Smalltalk
