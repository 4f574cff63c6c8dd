import Smalltalk.Machine.Context
import Smalltalk.Proofs.Simulation.Symbols

/-!
# Contexts

Building a context takes several allocations, between which nothing but registers is kept: the
context under construction is in one of them, and whatever is put into it is fetched anew. That is
what the proofs below follow, one effect after the other.

## Main results

* `activateContext_keeps`: making a context the active one
* `executeNewMethod_moves`, `send_moves`: calling a method
* `returnFromMethod_keeps`, `returnFromBlock_keeps`: returning
* `createBlock_moves`, `activateBlock_keeps`: blocks
-/

namespace Smalltalk

open Memory Machine Layout

section Contexts

variable {S : Setting} {ρ σ : Renaming} {n : Nat} {m m' : Machine} {v v' w w' : Value}

theorem FrameState.ofValue_agree (hv : Value.Renames ρ v v') :
    Agree σ Eq (FrameState.ofValue v) (FrameState.ofValue v') := by
  cases hv with
  | small k =>
    refine .ite Iff.rfl (fun _ => .ok rfl) fun _ => ?_
    exact .ite Iff.rfl (fun _ => .ok rfl) fun _ => .fault (.same trivial)
  | ref hab => exact .fault (.same trivial)

/-! ## Activation -/

theorem Related.homeOf (hm : Related S ρ n m m') (hv : Value.Renames ρ v v') :
    Agree σ (Value.Renames ρ) (m.homeOf v) (m'.homeOf v') := by
  refine (hm.corresponds.classOf hv).bind fun cls cls' hcls => ?_
  have hrest : ∀ home home', Value.Renames ρ home home' →
      Agree σ (Value.Renames ρ)
        (do
          if (← m.memory.classOf home) ≠ m.registers.get .methodContextClass then
            .error (.corruptContext .homeNotAMethodContext)
          else return home)
        (do
          if (← m'.memory.classOf home') ≠ m'.registers.get .methodContextClass then
            .error (.corruptContext .homeNotAMethodContext)
          else return home') := by
    intro home home' hhome
    refine (hm.corresponds.classOf hhome).bind fun cls cls' hcls => ?_
    exact .ite (not_congr (hm.eq_iff hcls (hm.get .methodContextClass)))
      (fun _ => .fault (.same trivial)) fun _ => .pure hhome
  refine .ite (hm.eq_iff hcls (hm.get .methodContextClass)) (fun _ => hrest _ _ hv) fun _ => ?_
  refine .ite (hm.eq_iff hcls (hm.get .blockContextClass)) (fun _ => ?_)
    fun _ => .fault (.same trivial)
  exact (hm.corresponds.getPtr hv BlockContext.home).bind hrest

theorem indexField_keeps (hv : Value.Renames ρ v v') (i : Nat) :
    Keeps S ρ n (read (·.indexField v i)) (read (·.indexField v' i)) Eq :=
  read_keeps fun _ _ hm => hm.indexField hv i

theorem loadRegister_keeps (root : Root) (hv : Value.Renames ρ v v') (i : Nat) :
    Keeps S ρ n (loadRegister root v i) (loadRegister root v' i) Eq :=
  (getPtr_keeps hv i).bind fun _ _ h => setRegister_keeps root h

/-- Making a context the active one. -/
theorem activateContext_keeps (hv : Value.Renames ρ v v') :
    Keeps S ρ n (activateContext v) (activateContext v') Eq := by
  unfold activateContext
  refine Keeps.bind (read_keeps fun _ _ hm => hm.homeOf hv) fun home home' hhome => ?_
  refine (getPtr_keeps hhome MethodContext.method).bind fun method method' hmethod => ?_
  refine (setRegister_keeps .activeContext hv).eq_bind fun _ => ?_
  refine (setRegister_keeps .homeContext hhome).eq_bind fun _ => ?_
  refine (setRegister_keeps .method hmethod).eq_bind fun _ => ?_
  refine (loadRegister_keeps .receiver hhome MethodContext.receiver).eq_bind fun _ => ?_
  refine (loadRegister_keeps .args hhome MethodContext.args).eq_bind fun _ => ?_
  refine (loadRegister_keeps .temps hhome MethodContext.temps).eq_bind fun _ => ?_
  refine (loadRegister_keeps .stack hv Context.stack).eq_bind fun _ => ?_
  refine (loadRegister_keeps .code hmethod Method.code).eq_bind fun _ => ?_
  refine (loadRegister_keeps .literals hmethod Method.literals).eq_bind fun _ => ?_
  refine (indexField_keeps hv Context.ip).eq_bind fun ip => ?_
  refine (setIp_keeps ip).eq_bind fun _ => ?_
  refine (indexField_keeps hv Context.sp).eq_bind fun sp => ?_
  exact setSp_keeps sp

/-! ## Sending -/

theorem addArray_moves (size field : Nat) :
    Moves S ρ n (addArray size field) (addArray size field) fun _ => Eq := by
  unfold addArray
  refine .ite Iff.rfl (fun _ => ?_) fun _ => Moves.pure rfl
  refine (register_keeps .arrayClass).bind fun cls cls' hcls => ?_
  refine Moves.bind (createObject_moves hcls size .pointers) fun ρ₁ array array' harray => ?_
  refine (register_keeps .newContext).bind fun context context' hcontext => ?_
  exact (setPtr_keeps hcontext field harray).moves fun _ _ h => h

theorem popInto_keeps (hv : Value.Renames ρ v v') (k : Nat) :
    Keeps S ρ n (popInto v k) (popInto v' k) Eq := by
  induction k with
  | zero => exact Keeps.pure rfl
  | succ k ih =>
    refine pop_keeps.bind fun value value' hvalue => ?_
    exact (setPtr_keeps hv k hvalue).eq_bind fun _ => ih

theorem moveArguments_moves (argc : Nat) :
    Moves S ρ n (moveArguments argc) (moveArguments argc) fun _ => Eq := by
  unfold moveArguments
  refine .ite Iff.rfl (fun _ => ?_) fun _ => Moves.pure rfl
  refine (register_keeps .arrayClass).bind fun cls cls' hcls => ?_
  refine Moves.bind (createObject_moves hcls argc .pointers) fun ρ₁ args args' hargs => ?_
  refine (register_keeps .newContext).bind fun context context' hcontext => ?_
  refine (setPtr_keeps hcontext MethodContext.args hargs).eq_bind fun _ => ?_
  exact (popInto_keeps hargs argc).moves fun _ _ h => h

theorem newMethodCount_keeps (field : Nat) :
    Keeps S ρ n (newMethodCount field) (newMethodCount field) Eq :=
  (register_keeps .newMethod).bind fun _ _ hmethod => indexField_keeps hmethod field

/-- Running the new method. -/
theorem executeNewMethod_moves : Moves S ρ n executeNewMethod executeNewMethod fun _ => Eq := by
  unfold executeNewMethod
  refine (register_keeps .methodContextClass).bind fun cls cls' hcls => ?_
  refine Moves.bind (createObject_moves hcls MethodContext.size .pointers) fun ρ₁ _ _ hnew => ?_
  refine (setRegister_keeps .newContext hnew).eq_bind fun _ => ?_
  refine (newMethodCount_keeps Method.stackSize).eq_bind fun stackSize => ?_
  refine Moves.eq_bind (addArray_moves stackSize Context.stack) fun ρ₂ _ => ?_
  refine (register_keeps .newContext).bind fun context context' hcontext => ?_
  refine (register_keeps .activeContext).bind fun caller caller' hcaller => ?_
  refine (setPtr_keeps hcontext Context.caller hcaller).eq_bind fun _ => ?_
  refine (setPtr_keeps hcontext Context.ip (.small _)).eq_bind fun _ => ?_
  refine (setPtr_keeps hcontext Context.sp (.small _)).eq_bind fun _ => ?_
  refine (register_keeps .newMethod).bind fun method method' hmethod => ?_
  refine (setPtr_keeps hcontext MethodContext.method hmethod).eq_bind fun _ => ?_
  refine (setPtr_keeps hcontext MethodContext.state (.small _)).eq_bind fun _ => ?_
  refine (newMethodCount_keeps Method.argSize).eq_bind fun argc => ?_
  refine Moves.eq_bind (moveArguments_moves argc) fun ρ₃ _ => ?_
  refine pop_keeps.bind fun receiver receiver' hreceiver => ?_
  refine (register_keeps .newContext).bind fun context context' hcontext => ?_
  refine (setPtr_keeps hcontext MethodContext.receiver hreceiver).eq_bind fun _ => ?_
  refine (newMethodCount_keeps Method.tempSize).eq_bind fun tempSize => ?_
  refine Moves.eq_bind (addArray_moves tempSize MethodContext.temps) fun ρ₄ _ => ?_
  refine nil_keeps.bind fun nil nil' hnil => ?_
  refine (register_keeps .newContext).bind fun context context' hcontext => ?_
  refine (setRegister_keeps .newMethod hnil).eq_bind fun _ => ?_
  refine (setRegister_keeps .newContext hnil).eq_bind fun _ => ?_
  exact (activateContext_keeps hcontext).moves fun _ _ h => h

theorem selectorText_keeps (hv : Value.Renames ρ v v') :
    Keeps S ρ n (look (·.selectorText v)) (look (·.selectorText v')) Eq :=
  look_keeps fun _ _ hm => hm.selectorText hv

theorem send_moves (hv : Value.Renames ρ v v') (hw : Value.Renames ρ w w') (argc : Nat) :
    Moves S ρ n (Machine.send v w argc) (Machine.send v' w' argc) fun _ => Eq := by
  unfold Machine.send
  refine Keeps.bind (read_keeps fun _ _ hm => hm.findMethod hv hw) fun method method' hmethod => ?_
  refine (indexField_keeps hmethod Method.argSize).eq_bind fun expected => ?_
  refine .ite Iff.rfl (fun _ => ?_) fun _ => ?_
  · exact (selectorText_keeps hw).eq_bind fun text => .fault_bind (.same trivial)
  · refine (setRegister_keeps .newMethod hmethod).eq_bind fun _ => ?_
    exact executeNewMethod_moves

/-! ## Returning -/

theorem answerTo_keeps (hv : Value.Renames ρ v v') :
    Keeps S ρ n (answerTo v) (answerTo v') Eq := by
  unfold answerTo
  refine pop_keeps.bind fun value value' hvalue => ?_
  exact (activateContext_keeps hv).eq_bind fun _ => push_keeps hvalue

theorem returnFromMethod_keeps : Keeps S ρ n returnFromMethod returnFromMethod Eq := by
  unfold returnFromMethod
  refine (register_keeps .homeContext).bind fun home home' hhome => ?_
  refine (getPtr_keeps hhome MethodContext.state).bind fun state state' hstate => ?_
  refine (check_keeps (FrameState.ofValue_agree hstate)).eq_bind fun state => ?_
  refine (getPtr_keeps hhome Context.caller).bind fun caller caller' hcaller => ?_
  refine nil_keeps.bind fun nil nil' hnil => ?_
  refine .comparing hcaller hnil fun heq => ?_
  refine .guard (or_congr Iff.rfl heq) (fun _ => .same trivial) fun _ => ?_
  refine (setPtr_keeps hhome MethodContext.state (.small _)).eq_bind fun _ => ?_
  refine (setPtr_keeps hhome Context.caller hnil).eq_bind fun _ => ?_
  exact answerTo_keeps hcaller

theorem returnFromBlock_keeps : Keeps S ρ n returnFromBlock returnFromBlock Eq := by
  unfold returnFromBlock
  refine (register_keeps .activeContext).bind fun block block' hblock => ?_
  refine (getPtr_keeps hblock Context.caller).bind fun caller caller' hcaller => ?_
  refine nil_keeps.bind fun nil nil' hnil => ?_
  refine .comparing hcaller hnil fun heq => .guard heq (fun _ => .same trivial) fun _ => ?_
  refine (setPtr_keeps hblock Context.caller hnil).eq_bind fun _ => ?_
  exact answerTo_keeps hcaller

/-! ## Blocks -/

theorem createBlock_moves (argc stackSize : Nat) :
    Moves S ρ n (createBlock argc stackSize) (createBlock argc stackSize) fun _ => Eq := by
  unfold createBlock
  refine (register_keeps .blockContextClass).bind fun cls cls' hcls => ?_
  refine Moves.bind (createObject_moves hcls BlockContext.size .pointers) fun ρ₁ _ _ hnew => ?_
  refine (setRegister_keeps .newContext hnew).eq_bind fun _ => ?_
  refine Moves.eq_bind (addArray_moves stackSize Context.stack) fun ρ₂ _ => ?_
  refine (register_keeps .newContext).bind fun block block' hblock => ?_
  refine Keeps.bind (V := Value.Renames ρ₂) (read_keeps fun m m' hm => ?_) fun start start' hs => ?_
  · rw [hm.ip]
    exact smallValue_agree "block" _
  refine (check_keeps (smallValue_agree "block" argc)).bind fun count count' hcount => ?_
  refine (setPtr_keeps hblock Context.ip (.small _)).eq_bind fun _ => ?_
  refine (setPtr_keeps hblock Context.sp (.small _)).eq_bind fun _ => ?_
  refine (setPtr_keeps hblock BlockContext.argCount hcount).eq_bind fun _ => ?_
  refine (setPtr_keeps hblock BlockContext.start hs).eq_bind fun _ => ?_
  refine (register_keeps .homeContext).bind fun home home' hhome => ?_
  refine (setPtr_keeps hblock BlockContext.home hhome).eq_bind fun _ => ?_
  refine nil_keeps.bind fun nil nil' hnil => ?_
  refine (setRegister_keeps .newContext hnil).eq_bind fun _ => ?_
  exact (push_keeps hblock).moves fun _ _ h => h

theorem moveOperands_keeps (hv : Value.Renames ρ v v') (i k : Nat) :
    Keeps S ρ n (moveOperands v i k) (moveOperands v' i k) Eq := by
  induction k generalizing i with
  | zero => exact Keeps.pure rfl
  | succ k ih =>
    refine pop_keeps.bind fun value value' hvalue => ?_
    exact (setPtr_keeps hv i hvalue).eq_bind fun _ => ih (i + 1)

theorem activateBlock_keeps (argc : Nat) :
    Keeps S ρ n (activateBlock argc) (activateBlock argc) Eq := by
  unfold activateBlock
  refine Keeps.bind (read_keeps fun _ _ hm => hm.peek (argc - 1)) fun block block' hblock => ?_
  refine Keeps.bind (read_keeps fun _ _ hm => hm.classOf hblock) fun cls cls' hcls => ?_
  refine (register_keeps .blockContextClass).bind fun blocks blocks' hblocks => ?_
  refine .comparing hcls hblocks fun heq => ?_
  refine .guard (not_congr heq) (fun _ => .same trivial) fun _ => ?_
  refine (indexField_keeps hblock BlockContext.argCount).eq_bind fun expected => ?_
  refine .guard Iff.rfl (fun _ => .same trivial) fun _ => ?_
  refine (getPtr_keeps hblock BlockContext.start).bind fun start start' hs => ?_
  refine (register_keeps .activeContext).bind fun caller caller' hcaller => ?_
  refine (setPtr_keeps hblock Context.caller hcaller).eq_bind fun _ => ?_
  refine (setPtr_keeps hblock Context.ip hs).eq_bind fun _ => ?_
  refine (getPtr_keeps hblock Context.stack).bind fun stack stack' hstack => ?_
  refine (moveOperands_keeps hstack 0 expected).eq_bind fun _ => ?_
  refine (check_keeps (smallValue_agree "value" expected)).bind fun count count' hcount => ?_
  refine (setPtr_keeps hblock Context.sp hcount).eq_bind fun _ => ?_
  exact pop_keeps.bind fun context context' hcontext => activateContext_keeps hcontext

end Contexts

end Smalltalk
