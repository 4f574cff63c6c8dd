import Smalltalk.Machine.Step
import Smalltalk.Proofs.Simulation.Primitives

/-!
# Instructions, runs and calls from outside

One instruction does the same to related machines, whatever word it comes from: a word that is no
instruction is the same fault in both. A run is a sequence of such steps, and it ends in both
machines at the same time, because they agree on whether the context that is active is the one in
which the call began.

## Main definitions

* `Completion.Renames`: calls that end in the same way

## Main results

* `step_leads`: one instruction
* `run_leads`: a run, by induction on the steps allowed
* `call_leads`, `sendMessage_leads`, `evaluate_leads`: calls from outside
-/

namespace Smalltalk

open Memory Machine Layout

/-- The calls have ended in the same way, with the same value. -/
inductive Completion.Renames (ρ : Renaming) : Completion → Completion → Prop
  | returned {v v' : Value} (h : Value.Renames ρ v v') : Renames ρ (.returned v) (.returned v')
  | shutDown : Renames ρ .shutDown .shutDown
  | unfinished : Renames ρ .unfinished .unfinished

/-! ## One instruction -/

section Steps

variable {S : Setting} {ρ : Renaming} {n : Nat} {v v' w w' : Value}

theorem moveIp_keeps (operation : String) (ip : Nat) :
    Keeps S ρ n (setIp operation ip) (setIp operation ip) Eq := by
  unfold setIp
  refine (setIp_keeps ip).eq_bind fun _ => ?_
  refine (register_keeps .activeContext).bind fun context context' hcontext => ?_
  refine (check_keeps (smallValue_agree operation ip)).bind fun value value' hvalue => ?_
  exact setPtr_keeps hcontext Context.ip hvalue

theorem decode_agree (word : UInt32) :
    Agree ρ Eq (Instruction.decode word) (Instruction.decode word) := by
  unfold Instruction.decode Instruction.ofParts
  split
  all_goals first
    | exact .ok rfl
    | exact .fault (.same trivial)

theorem fetch_keeps : Keeps S ρ n fetch fetch Eq := by
  unfold fetch
  refine Keeps.eq_bind (read_keeps fun m m' hm => ?_) fun word => ?_
  · rw [hm.ip]
    exact hm.corresponds.getWord (hm.get .code) _
  refine ip_keeps.eq_bind fun ip => ?_
  refine (moveIp_keeps "fetch" (ip + 1)).eq_bind fun _ => ?_
  refine (check_keeps (decode_agree word)).eq_bind fun i => ?_
  refine Keeps.bind (V := fun b b' => S.twins → b = b') (look_keeps fun m m' hm ht => ?_)
    fun tracing tracing' htracing => ?_
  · rw [hm.twin ht]
  refine sp_keeps.eq_bind fun sp => ?_
  refine (report_keeps fun ht => by rw [htracing ht]).eq_bind fun _ => ?_
  exact Keeps.pure rfl

theorem literalAt_keeps (index : UInt16) :
    Keeps S ρ n (literalAt index) (literalAt index) (Value.Renames ρ) :=
  (register_keeps .literals).bind fun _ _ h => getPtr_keeps h index.toNat

/-- **What an instruction does**, one case for each. -/
theorem execute_leads (i : Instruction) :
    Leads S ρ n (execute i) (execute i) fun _ => Eq := by
  cases i with
  | nop => exact Sim.pure rfl
  | pushSelf => exact Keeps.leads ((register_keeps .receiver).bind fun _ _ h => push_keeps h)
  | pushNil => exact Keeps.leads (nil_keeps.bind fun _ _ h => push_keeps h)
  | pushFalse => exact (pushBoolean_keeps false).leads
  | pushTrue => exact (pushBoolean_keeps true).leads
  | dup =>
    exact Keeps.leads (Keeps.bind (read_keeps fun _ _ hm => hm.peek 0) fun _ _ h => push_keeps h)
  | drop => exact Keeps.leads pop_keeps.discard
  | returnMethod => exact returnFromMethod_keeps.leads
  | returnBlock => exact returnFromBlock_keeps.leads
  | pushConst literal =>
    exact Keeps.leads ((literalAt_keeps literal).bind fun _ _ h => push_keeps h)
  | pushGlobal literal =>
    refine Keeps.leads ((literalAt_keeps literal).bind fun link link' hlink => ?_)
    exact (getPtr_keeps hlink Link.value).bind fun _ _ h => push_keeps h
  | storeGlobal literal =>
    refine Keeps.leads (pop_keeps.bind fun value value' hvalue => ?_)
    exact (literalAt_keeps literal).bind fun _ _ hlink => setPtr_keeps hlink Link.value hvalue
  | pushInstance index =>
    refine Keeps.leads ((register_keeps .receiver).bind fun receiver receiver' hreceiver => ?_)
    exact (getPtr_keeps hreceiver index.toNat).bind fun _ _ h => push_keeps h
  | storeInstance index =>
    refine Keeps.leads (pop_keeps.bind fun value value' hvalue => ?_)
    exact (register_keeps .receiver).bind fun _ _ h => setPtr_keeps h index.toNat hvalue
  | pushArg index =>
    refine Keeps.leads ((register_keeps .args).bind fun args args' hargs => ?_)
    exact (getPtr_keeps hargs index.toNat).bind fun _ _ h => push_keeps h
  | pushTemp index =>
    refine Keeps.leads ((register_keeps .temps).bind fun temps temps' htemps => ?_)
    exact (getPtr_keeps htemps index.toNat).bind fun _ _ h => push_keeps h
  | storeTemp index =>
    refine Keeps.leads (pop_keeps.bind fun value value' hvalue => ?_)
    exact (register_keeps .temps).bind fun _ _ h => setPtr_keeps h index.toNat hvalue
  | pushBlock argc stackSize => exact (createBlock_moves argc.toNat stackSize.toNat).leads
  | send argc selector =>
    refine Moves.leads ((literalAt_keeps selector).bind fun selector selector' hselector => ?_)
    refine Keeps.bind (read_keeps fun _ _ hm => hm.peek argc.toNat) fun receiver receiver' hr => ?_
    refine Keeps.bind (read_keeps fun _ _ hm => hm.classOf hr) fun cls cls' hcls => ?_
    exact send_moves hcls hselector argc.toNat
  | sendSuper argc selector =>
    refine Moves.leads ((literalAt_keeps selector).bind fun selector selector' hselector => ?_)
    refine (register_keeps .method).bind fun method method' hmethod => ?_
    refine (getPtr_keeps hmethod Method.owner).bind fun owner owner' howner => ?_
    refine (getPtr_keeps howner Behavior.superclass).bind fun cls cls' hcls => ?_
    exact send_moves hcls hselector argc.toNat
  | primitive argc number => exact invoke_leads number argc.toNat
  | jump target => exact (moveIp_keeps "jump" target.toNat).leads

theorem step_leads : Leads S ρ n step step fun _ => Eq :=
  fetch_keeps.eq_bind fun i => execute_leads i

/-! ## Runs -/

/-- **A run**, by induction on the steps allowed. -/
theorem run_leads (steps : Nat) :
    Leads S ρ n (run steps) (run steps) Completion.Renames := by
  induction steps generalizing ρ n with
  | zero => exact Sim.pure .unfinished
  | succ steps ih =>
    unfold run
    refine Keeps.eq_bind (look_keeps fun _ _ hm => hm.running) fun running => ?_
    refine .ite Iff.rfl (fun _ => Sim.pure .shutDown) fun _ => ?_
    refine (register_keeps .activeContext).bind fun active active' hactive => ?_
    refine (register_keeps .entryContext).bind fun entry entry' hentry => ?_
    refine .comparing hactive hentry fun heq => .ite heq (fun _ => ?_) fun _ => ?_
    · refine (setRunning_keeps false).eq_bind fun _ => ?_
      exact pop_keeps.bind fun _ _ h => Sim.pure (.returned h)
    · exact Leads.bind step_leads fun ρ₁ k _ _ _ => ih

theorem runToEntry_leads (steps : Nat) :
    Leads S ρ n (runToEntry steps) (runToEntry steps) Completion.Renames :=
  (setRunning_keeps true).eq_bind fun _ => run_leads steps

end Steps

/-! ## Calls from outside -/

section Calls

variable {S : Setting} {ρ : Renaming} {n : Nat} {v v' w w' u u' : Value}

theorem pushAll_keeps {values values' : List Value}
    (h : List.Forall₂ (Value.Renames ρ) values values') :
    Keeps S ρ n (pushAll values) (pushAll values') Eq := by
  induction h with
  | nil => exact Keeps.pure rfl
  | cons hv _ ih => exact (push_keeps hv).eq_bind fun _ => ih

theorem createEntry_moves (argc : Nat) :
    Moves S ρ n (createEntry argc) (createEntry argc) Value.Renames := by
  unfold createEntry
  refine (register_keeps .methodContextClass).bind fun cls cls' hcls => ?_
  refine Moves.bind (createObject_moves hcls MethodContext.size .pointers) fun ρ₁ _ _ hentry => ?_
  refine (setRegister_keeps .entryContext hentry).eq_bind fun _ => ?_
  refine (register_keeps .arrayClass).bind fun cls cls' hcls => ?_
  exact createObject_moves hcls (argc + 2) .pointers

theorem fillEntry_keeps (hv : Value.Renames ρ v v') (hw : Value.Renames ρ w w')
    (hu : Value.Renames ρ u u') : Keeps S ρ n (fillEntry v w u) (fillEntry v' w' u') Eq := by
  unfold fillEntry
  refine (register_keeps .entryContext).bind fun entry entry' hentry => ?_
  refine (register_keeps .activeContext).bind fun caller caller' hcaller => ?_
  refine (setPtr_keeps hentry Context.caller hcaller).eq_bind fun _ => ?_
  refine (setPtr_keeps hentry Context.ip (.small _)).eq_bind fun _ => ?_
  refine (setPtr_keeps hentry Context.stack hu).eq_bind fun _ => ?_
  refine (setPtr_keeps hentry Context.sp (.small _)).eq_bind fun _ => ?_
  refine (setPtr_keeps hentry MethodContext.method hv).eq_bind fun _ => ?_
  refine (setPtr_keeps hentry MethodContext.receiver hw).eq_bind fun _ => ?_
  exact setPtr_keeps hentry MethodContext.state (.small _)

theorem Registers.Renames.setAll {r r' : Registers} (h : r.Renames ρ r') (hv : Value.Renames ρ v v')
    (roots : List Root) :
    (roots.foldl (fun r root => r.set root v) r).Renames ρ
      (roots.foldl (fun r root => r.set root v') r') := by
  induction roots generalizing r r' with
  | nil => exact h
  | cons root roots ih => exact ih (h.set root hv)

theorem clearRunning_sim :
    Sim S ρ n (onRegisters Registers.clearRunning) (onRegisters Registers.clearRunning)
      fun ρ₁ _ _ _ => ρ₁ = ρ := by
  intro m m' hm
  have hall := hm.registers.setAll hm.nil Root.running
  have hnew : m.registers.clearRunning.Renames ρ m'.registers.clearRunning := ⟨hall.named, .nil⟩
  refine .ok (n := 0) (ρ := ρ) { hm with
    registers := hnew
    held := rfl
    twin := fun ht => ?_ } rfl
  rw [hm.twin ht]

/-- Going back does not allocate, but it may let go of all values held. -/
theorem leaveEntry_sim {c c' : Completion} (hc : c.Renames ρ c') :
    Sim S ρ n (leaveEntry c) (leaveEntry c') fun ρ₁ _ _ _ => ρ₁ = ρ := by
  unfold leaveEntry
  refine (register_keeps .entryContext).bind fun entry entry' hentry => ?_
  refine (getPtr_keeps hentry Context.caller).bind fun previous previous' hprevious => ?_
  refine nil_keeps.bind fun nil nil' hnil => ?_
  have hshut : c = .shutDown ↔ c' = .shutDown := by
    cases hc with
    | returned h => exact ⟨nofun, nofun⟩
    | shutDown => exact Iff.rfl
    | unfinished => exact Iff.rfl
  refine .comparing hprevious hnil fun heq => .ite (or_congr hshut heq) (fun _ => ?_) fun _ => ?_
  · exact clearRunning_sim
  · refine (setRegister_keeps .entryContext hnil).eq_bind fun _ => ?_
    exact Sim.mono (activateContext_keeps hprevious) fun _ _ _ _ h => h.1

/-- A value that is taken off again is the one that was held. -/
theorem renames_getD {values values' : Array Value}
    (h : List.Forall₂ (Value.Renames ρ) values.toList values'.toList) {i : Nat}
    (hi : i < values.size) (v v' : Value) :
    Value.Renames ρ (values.getD i v) (values'.getD i v') := by
  have hall := List.forall₂_iff_get.1 h
  have hi' : i < values'.size := by
    have hlen := hall.1
    rw [Array.length_toList, Array.length_toList] at hlen
    omega
  have hren := hall.2 i (by simpa using hi) (by simpa using hi')
  simpa [Array.getD_eq_getD_getElem?, Array.getElem?_eq_getElem, hi, hi'] using hren

/-- **A call from outside.** -/
theorem call_leads (steps : Nat) (hv : Value.Renames ρ v v') (hw : Value.Renames ρ w w')
    {args args' : List Value} (hargs : List.Forall₂ (Value.Renames ρ) args args') :
    Leads S ρ n (call steps v w args) (call steps v' w' args') Completion.Renames := by
  unfold call
  rw [← hargs.length_eq]
  refine (indexField_keeps hv Method.argSize).eq_bind fun expected => ?_
  refine .ite Iff.rfl (fun _ => ?_) fun _ => ?_
  · refine (getPtr_keeps hv Method.selector).bind fun selector selector' hselector => ?_
    exact (selectorText_keeps hselector).eq_bind fun text => .fault_bind (.same trivial)
  refine (hold_sim (List.Forall₂.cons hv (.cons hw hargs))).bind ?_
  rintro _ _ _ _ ⟨rfl, rfl, rfl, rfl⟩
  refine Moves.bind (createEntry_moves args.length) fun ρ₁ stack stack' hstack => ?_
  refine (releaseAll_sim (Nat.le_add_right _ _)).bind ?_
  rintro _ _ values values' ⟨rfl, rfl, hsize, hvalues⟩
  have hlen : 2 ≤ values.size := by
    rw [hsize, List.size_toArray, List.length_cons, List.length_cons]
    omega
  have hmethod := renames_getD hvalues (Nat.lt_of_lt_of_le Nat.zero_lt_two hlen) v v'
  have hreceiver := renames_getD hvalues hlen w w'
  refine (fillEntry_keeps hmethod hreceiver hstack).eq_bind fun _ => ?_
  refine (register_keeps .entryContext).bind fun entry entry' hentry => ?_
  refine (activateContext_keeps hentry).eq_bind fun _ => ?_
  refine (push_keeps hreceiver).eq_bind fun _ => ?_
  refine (pushAll_keeps (List.forall₂_drop 2 hvalues)).eq_bind fun _ => ?_
  refine (setRegister_keeps .newMethod hmethod).eq_bind fun _ => ?_
  refine Moves.eq_bind executeNewMethod_moves fun ρ₂ _ => ?_
  refine Leads.bind (runToEntry_leads steps) fun ρ₃ k completion completion' hc => ?_
  have hunfinished : completion = .unfinished ↔ completion' = .unfinished := by
    cases hc with
    | returned h => exact ⟨nofun, nofun⟩
    | shutDown => exact Iff.rfl
    | unfinished => exact Iff.rfl
  refine .ite hunfinished (fun _ => Sim.pure hc) fun _ => ?_
  refine (leaveEntry_sim hc).bind ?_
  rintro _ _ _ _ rfl
  exact Sim.pure hc

theorem sendMessage_leads (steps : Nat) (hv : Value.Renames ρ v v') (selector : String)
    {args args' : List Value} (hargs : List.Forall₂ (Value.Renames ρ) args args') :
    Leads S ρ n (sendMessage steps v selector args) (sendMessage steps v' selector args')
      Completion.Renames := by
  unfold sendMessage
  refine (hold_sim (List.Forall₂.cons hv hargs)).bind ?_
  rintro _ _ _ _ ⟨rfl, rfl, rfl, rfl⟩
  refine Moves.bind (newSymbol_moves selector) fun ρ₁ symbol symbol' hsymbol => ?_
  refine (releaseAll_sim (Nat.le_add_right _ _)).bind ?_
  rintro _ _ values values' ⟨rfl, rfl, hsize, hvalues⟩
  have hlen : 0 < values.size := by
    rw [hsize, List.size_toArray, List.length_cons]
    omega
  have hreceiver := renames_getD hvalues hlen v v'
  refine Keeps.bind (read_keeps fun _ _ hm => hm.classOf hreceiver) fun cls cls' hcls => ?_
  refine Keeps.bind (read_keeps fun _ _ hm => hm.findMethod hcls hsymbol) fun _ _ hmethod => ?_
  exact call_leads steps hmethod hreceiver (List.forall₂_drop 1 hvalues)

/-- **Evaluating source.** -/
theorem evaluate_leads (steps : Nat) (source : String) :
    Leads S ρ n (evaluate steps source) (evaluate steps source) Completion.Renames := by
  unfold evaluate
  refine Keeps.bind (compiling_sim (read_keeps fun _ _ hm => hm.classOf hm.nil))
    fun cls cls' hcls => ?_
  refine Moves.bind (compile_moves _ hcls true) fun ρ₁ method method' hmethod => ?_
  refine compiling_sim (nil_keeps.bind fun nil nil' hnil => ?_)
  exact call_leads steps hmethod hnil .nil

end Calls

end Smalltalk
