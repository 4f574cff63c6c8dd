import Smalltalk.ClassFile.Load
import Smalltalk.Proofs.Simulation.Primitives

/-!
# Loading class files

A class and its metaclass are made while their superclasses are held, and filled in while they are
held themselves. A method is compiled for a class and installed in it, and the class is looked up
again between the two, because compiling may have moved it.

Loading reports what it did, in texts and numbers, and those are the same in both machines.

## Main results

* `initClass_moves`, `defineClass_moves`: classes
* `loadMethod_leads`, `load_leads`, `loadText_leads`: loading
-/

namespace Smalltalk

open Memory Machine Layout

instance : Failing LoadError := ⟨.machine, fun _ _ => LoadError.machine.inj⟩

section Classes

variable {S : Setting} {ρ : Renaming} {n : Nat} {v v' w w' u u' : Value}

theorem loading_sim {α : Type} {x x' : Exec α} {Q : Renaming → Nat → α → α → Prop}
    (h : Sim S ρ n x x' Q) : Sim S ρ n (loading x) (loading x') Q :=
  h.adapt

/-! ## Filling in -/

theorem fillVariables_moves {base : Nat} (hbase : base < n) (i : Nat) (names : List String) :
    Moves S ρ n (fillVariables base i names) (fillVariables base i names) fun _ => Eq := by
  induction names generalizing ρ i with
  | nil => exact Moves.pure rfl
  | cons name names ih =>
    refine Moves.bind (newSymbol_moves name) fun ρ₁ symbol symbol' hsymbol => ?_
    refine (held_keeps hbase).bind fun cls cls' hcls => ?_
    refine (getPtr_keeps hcls Behavior.variableNames).bind fun array array' harray => ?_
    exact (setPtr_keeps harray i hsymbol).eq_bind fun _ => ih (i + 1)

theorem addVariables_moves {base : Nat} (hbase : base < n) (names : List String) :
    Moves S ρ n (addVariables base names) (addVariables base names) fun _ => Eq := by
  unfold addVariables
  refine .ite Iff.rfl (fun _ => Moves.pure rfl) fun _ => ?_
  refine (register_keeps .arrayClass).bind fun cls cls' hcls => ?_
  refine Moves.bind (createObject_moves hcls names.length .pointers) fun ρ₁ array array' ha => ?_
  refine (held_keeps hbase).bind fun cls cls' hcls => ?_
  refine (setPtr_keeps hcls Behavior.variableNames ha).eq_bind fun _ => ?_
  exact fillVariables_moves hbase 0 names

theorem fillClass_moves {base : Nat} (hbase : base + 1 < n) (inherited : Nat)
    (definition : ClassDefinition) :
    Moves S ρ n (fillClass base inherited definition) (fillClass base inherited definition)
      fun _ => Eq := by
  have hheld : base < n := Nat.lt_of_succ_lt hbase
  unfold fillClass
  refine Moves.bind (newSymbol_moves definition.name) fun ρ₁ name name' hname => ?_
  refine (held_keeps hheld).bind fun cls cls' hcls => ?_
  refine (setPtr_keeps hcls Behavior.name hname).eq_bind fun _ => ?_
  refine (held_keeps hheld).bind fun cls cls' hcls => ?_
  refine (setPtr_keeps hcls Behavior.instanceType (.small _)).eq_bind fun _ => ?_
  refine (check_keeps (smallValue_agree "class" _)).bind fun size size' hsize => ?_
  refine (held_keeps hheld).bind fun cls cls' hcls => ?_
  refine (setPtr_keeps hcls Behavior.instanceSize hsize).eq_bind fun _ => ?_
  refine (held_keeps hheld).bind fun cls cls' hcls => ?_
  refine (held_keeps hbase).bind fun superclass superclass' hsuper => ?_
  refine (setPtr_keeps hcls Behavior.superclass hsuper).eq_bind fun _ => ?_
  refine Moves.bind newMethodDictionary_moves fun ρ₂ methods methods' hmethods => ?_
  refine (held_keeps hheld).bind fun cls cls' hcls => ?_
  refine (setPtr_keeps hcls Behavior.methods hmethods).eq_bind fun _ => ?_
  exact addVariables_moves hheld definition.variableNames

theorem setMetaclassField_keeps {base : Nat} (hbase : base < n) (field : Nat)
    (hv : Value.Renames ρ v v') :
    Keeps S ρ n (setMetaclassField base field v) (setMetaclassField base field v') Eq := by
  refine (held_keeps hbase).bind fun cls cls' hcls => ?_
  refine Keeps.bind (read_keeps fun _ _ hm => hm.classOf hcls) fun metaclass metaclass' hmeta => ?_
  exact setPtr_keeps hmeta field hv

theorem fillMetaclass_moves {base : Nat} (hbase : base + 2 < n) (name : String) :
    Moves S ρ n (fillMetaclass base name) (fillMetaclass base name) fun _ => Eq := by
  have hheld : base < n := by omega
  unfold fillMetaclass
  refine Moves.bind (newSymbol_moves _) fun ρ₁ symbol symbol' hsymbol => ?_
  refine (setMetaclassField_keeps hheld Behavior.name hsymbol).eq_bind fun _ => ?_
  refine (setMetaclassField_keeps hheld Behavior.instanceType (.small _)).eq_bind fun _ => ?_
  refine (setMetaclassField_keeps hheld Behavior.instanceSize (.small _)).eq_bind fun _ => ?_
  refine (held_keeps hbase).bind fun superclass superclass' hsuper => ?_
  refine (setMetaclassField_keeps hheld Behavior.superclass hsuper).eq_bind fun _ => ?_
  refine Moves.bind newMethodDictionary_moves fun ρ₂ methods methods' hmethods => ?_
  exact (setMetaclassField_keeps hheld Behavior.methods hmethods).moves fun _ _ h => h

theorem initClass_moves (hv : Value.Renames ρ v v') (hw : Value.Renames ρ w w')
    (hu : Value.Renames ρ u u') (definition : ClassDefinition) :
    Moves S ρ n (initClass v w u definition) (initClass v' w' u' definition) Value.Renames := by
  unfold initClass
  refine nil_keeps.bind fun nil nil' hnil => ?_
  refine .comparing hw hnil fun heq => .ite heq (fun _ => ?_) fun _ => ?_
  on_goal 1 => refine Keeps.eq_bind (Keeps.pure rfl) fun inherited => ?_
  on_goal 2 => refine (indexField_keeps hw Behavior.instanceSize).eq_bind fun inherited => ?_
  -- what follows is the same for all numbers of inherited variables
  all_goals
    refine Moves.bind (holding₃_moves (V := fun _ => Eq) hv hw hu ?_) ?_
    · refine Moves.eq_bind (fillClass_moves (by omega) inherited definition) fun ρ₁ _ => ?_
      exact fillMetaclass_moves (by omega) definition.name
    · rintro ρ₁ ⟨_, cls, _⟩ ⟨_, cls', _⟩ ⟨-, hcls, -⟩
      exact Moves.pure hcls

/-! ## Defining -/

theorem lookupClass_keeps (name : String) :
    Keeps S ρ n (loading (read (·.lookupClass name))) (loading (read (·.lookupClass name)))
      (Option.Rel (Value.Renames ρ)) :=
  loading_sim (read_keeps fun _ _ hm => hm.lookupClass name)

theorem requireClass_keeps (line : Nat) (name : String) :
    Keeps S ρ n (requireClass line name) (requireClass line name) (Value.Renames ρ) := by
  unfold requireClass
  refine (lookupClass_keeps name).bind fun found found' hfound => ?_
  cases hfound with
  | some hcls => exact Keeps.pure hcls
  | none => exact .error (.other fun _ => nofun)

/-- A class and its metaclass are made, below superclasses that are there. -/
theorem makeClass_moves (definition : ClassDefinition) (hv : Value.Renames ρ v v')
    (hw : Value.Renames ρ w w') :
    Moves S ρ n
      (do
        let (cls, superclass, superMetaclass) ← holding₂ v w fun _ => do
          let metaclass ← createObject (← register .metaclassClass) Behavior.size .pointers
          createObject metaclass Behavior.size .pointers
        let cls ← initClass cls superclass superMetaclass definition
        setGlobal definition.name cls
        report (.classDefined definition.name))
      (do
        let (cls, superclass, superMetaclass) ← holding₂ v' w' fun _ => do
          let metaclass ← createObject (← register .metaclassClass) Behavior.size .pointers
          createObject metaclass Behavior.size .pointers
        let cls ← initClass cls superclass superMetaclass definition
        setGlobal definition.name cls
        report (.classDefined definition.name)) fun _ => Eq := by
  refine Moves.bind (holding₂_moves (V := Value.Renames) hv hw ?_) ?_
  · refine (register_keeps .metaclassClass).bind fun cls cls' hcls => ?_
    refine Moves.bind (createObject_moves hcls Behavior.size .pointers) fun ρ₁ _ _ hmeta => ?_
    exact createObject_moves hmeta Behavior.size .pointers
  · rintro ρ₁ ⟨cls, superclass, superMetaclass⟩ ⟨cls', superclass', superMetaclass'⟩ ⟨hc, hs, hm⟩
    refine Moves.bind (initClass_moves hc hs hm definition) fun ρ₂ cls cls' hcls => ?_
    refine Moves.eq_bind (setGlobal_moves definition.name hcls) fun ρ₃ _ => ?_
    exact (report_keeps fun _ => rfl).moves fun _ _ h => h

theorem defineClass_moves (definition : ClassDefinition) :
    Moves S ρ n (defineClass definition) (defineClass definition) fun _ => Eq := by
  unfold defineClass
  refine Keeps.bind (loading_sim nil_keeps) fun nil nil' hnil => ?_
  cases definition.superclass with
  | none =>
    refine Keeps.bind (Keeps.pure hnil) fun superclass superclass' hsuper => ?_
    refine .comparing hsuper hnil fun heq => .ite heq (fun _ => ?_) fun _ => ?_
    · refine (requireClass_keeps definition.line "Class").bind fun _ _ hmeta => ?_
      exact loading_sim (makeClass_moves definition hsuper hmeta)
    · refine Keeps.bind (loading_sim (read_keeps fun _ _ hm => hm.classOf hsuper))
        fun _ _ hmeta => ?_
      exact loading_sim (makeClass_moves definition hsuper hmeta)
  | some name =>
    refine (requireClass_keeps definition.line name).bind fun superclass superclass' hsuper => ?_
    refine .comparing hsuper hnil fun heq => .ite heq (fun _ => ?_) fun _ => ?_
    · refine (requireClass_keeps definition.line "Class").bind fun _ _ hmeta => ?_
      exact loading_sim (makeClass_moves definition hsuper hmeta)
    · refine Keeps.bind (loading_sim (read_keeps fun _ _ hm => hm.classOf hsuper))
        fun _ _ hmeta => ?_
      exact loading_sim (makeClass_moves definition hsuper hmeta)

theorem defineClasses_moves (definitions : List ClassDefinition) :
    Moves S ρ n (defineClasses definitions) (defineClasses definitions) fun _ => Eq := by
  induction definitions generalizing ρ with
  | nil => exact Moves.pure rfl
  | cons definition more ih =>
    unfold defineClasses
    refine (lookupClass_keeps definition.name).bind fun found found' hfound => ?_
    cases hfound with
    | some hcls =>
      exact Keeps.eq_bind (loading_sim (report_keeps fun _ => rfl)) fun _ => ih
    | none =>
      refine Moves.eq_bind (defineClass_moves definition) fun ρ₁ _ => ?_
      exact Moves.eq_bind ih fun ρ₂ count => Moves.pure rfl

/-! ## Methods -/

theorem sectionTarget_keeps (s : MethodSection) :
    Keeps S ρ n (sectionTarget s) (sectionTarget s) (Value.Renames ρ) := by
  refine (requireClass_keeps s.line s.className).bind fun cls cls' hcls => ?_
  refine .ite Iff.rfl (fun _ => ?_) fun _ => Keeps.pure hcls
  exact loading_sim (read_keeps fun _ _ hm => hm.classOf hcls)

theorem attemptLoad_eq {α : Type} (act : Compile α) : attemptLoad act = loading (attempt act) := by
  funext m
  unfold attemptLoad loading EStateM.adaptExcept attempt
  cases act m with
  | ok a m => rfl
  | error e m => cases e <;> rfl

theorem loadMethod_leads (s : MethodSection) (method : MethodSource) :
    Leads S ρ n (loadMethod s method) (loadMethod s method) fun _ => Eq := by
  unfold loadMethod
  refine (sectionTarget_keeps s).bind fun cls cls' hcls => ?_
  rw [attemptLoad_eq, attemptLoad_eq]
  refine Leads.bind (loading_sim (attempt_leads (compile_moves method.text hcls false)))
    fun ρ₁ k r r' hr => ?_
  obtain ⟨object, object', rfl, rfl, hobject⟩ | ⟨e, rfl, rfl⟩ := hr
  · refine (sectionTarget_keeps s).bind fun target target' htarget => ?_
    refine Moves.eq_bind (loading_sim (installMethod_moves htarget hobject)) fun ρ₂ _ => ?_
    exact Sim.pure rfl
  · refine Keeps.eq_bind (loading_sim (report_keeps fun _ => rfl)) fun _ => ?_
    exact Sim.pure rfl

/-- **Loading a class file.** -/
theorem load_leads (file : ClassFile) : Leads S ρ n (load file) (load file) fun _ => Eq := by
  unfold load
  refine Moves.eq_bind (defineClasses_moves file.classes) fun ρ₁ classes => ?_
  refine Leads.bind (Leads.flatMapM file.sections fun ρ k s _ =>
    Leads.mapM s.methods fun ρ k method _ => loadMethod_leads s method) ?_
  rintro ρ₂ k outcomes _ rfl
  refine Keeps.eq_bind (loading_sim (report_keeps fun _ => rfl)) fun _ => ?_
  exact Sim.pure rfl

theorem loadText_leads (text : String) :
    Leads S ρ n (loadText text) (loadText text) fun _ => Eq := by
  unfold loadText
  cases ClassFile.ofText text with
  | ok file => exact load_leads file
  | error e => exact .error (.other fun _ => nofun)

end Classes

end Smalltalk
