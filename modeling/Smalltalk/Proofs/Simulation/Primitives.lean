import Smalltalk.Machine.Primitives
import Smalltalk.Proofs.Simulation.Contexts
import Smalltalk.Proofs.Simulation.Methods

/-!
# Primitives

Each primitive takes its operands off the stack and looks at them before it allocates, if it does.
Those that use an operand afterwards hold it.

Compiling from within is special. If the source is no method, the machine goes on, and how many
values are held then is not looked into: nothing above depends on it.

## Main results

* `runPrimitive_leads`: every primitive
* `invoke_leads`: calling one by its number
-/

namespace Smalltalk

open Memory Machine Layout

/-! ## Operands -/

section Operands

variable {S : Setting} {ρ σ : Renaming} {n : Nat} {v v' w w' : Value}

theorem oneBased_agree (operation : String) (hv : Value.Renames ρ v v') :
    Agree ρ Eq (oneBased operation v) (oneBased operation v') := by
  refine (expectSmall_agree operation hv).eq_bind fun i => ?_
  exact .ite Iff.rfl (fun _ => .fault (.same trivial)) fun _ => .pure rfl

theorem expectByte_agree (operation : String) (hv : Value.Renames ρ v v') :
    Agree ρ Eq (expectByte operation v) (expectByte operation v') := by
  refine (expectSmall_agree operation hv).eq_bind fun i => ?_
  exact .ite Iff.rfl (fun _ => .pure rfl) fun _ => .fault (.same trivial)

theorem expectWord_agree (operation : String) (hv : Value.Renames ρ v v') :
    Agree ρ Eq (expectWord operation v) (expectWord operation v') := by
  refine (expectSmall_agree operation hv).eq_bind fun i => ?_
  exact .ite Iff.rfl (fun _ => .pure rfl) fun _ => .fault (.same trivial)

theorem integerOperands_keeps (operation : String) :
    Keeps S ρ n (integerOperands operation) (integerOperands operation) Eq := by
  unfold integerOperands
  refine pop_keeps.bind fun b b' hb => ?_
  refine pop_keeps.bind fun a a' ha => ?_
  refine (check_keeps (expectSmall_agree operation ha)).eq_bind fun a => ?_
  refine (check_keeps (expectSmall_agree operation hb)).eq_bind fun b => ?_
  exact Keeps.pure rfl

theorem indexOperands_keeps (operation : String) :
    Keeps S ρ n (indexOperands operation) (indexOperands operation)
      fun p p' => Value.Renames ρ p.1 p'.1 ∧ p.2 = p'.2 := by
  unfold indexOperands
  refine pop_keeps.bind fun index index' hindex => ?_
  refine pop_keeps.bind fun receiver receiver' hreceiver => ?_
  refine (check_keeps (oneBased_agree operation hindex)).eq_bind fun i => ?_
  exact Keeps.pure ⟨hreceiver, rfl⟩

theorem pushBoolean_keeps (b : Bool) : Keeps S ρ n (pushBoolean b) (pushBoolean b) Eq :=
  Keeps.bind (look_keeps fun _ _ hm => hm.boolean b) fun _ _ h => push_keeps h

theorem character_keeps (b : UInt8) :
    Keeps S ρ n (look (·.character b)) (look (·.character b)) (Value.Renames ρ) :=
  look_keeps fun _ _ hm => hm.get (.character b)

end Operands

/-! ## Integers -/

section Integers

variable {S : Setting} {ρ : Renaming} {n : Nat}

theorem pushInteger_keeps (operation : String) (k : Int) :
    Keeps S ρ n (pushInteger operation k) (pushInteger operation k) Eq := by
  unfold pushInteger
  rcases ofInt?_cases k with h | ⟨i, h⟩
  · rw [h]
    exact .fault (.same trivial)
  · rw [h]
    exact push_keeps (.small i)

theorem arithmetic_keeps (operation : String) (f : Int → Int → Int) :
    Keeps S ρ n (arithmetic operation f) (arithmetic operation f) Eq :=
  (integerOperands_keeps operation).eq_bind fun _ => pushInteger_keeps operation _

theorem division_keeps (operation : String) (f : Int → Int → Int) :
    Keeps S ρ n (division operation f) (division operation f) Eq := by
  refine (integerOperands_keeps operation).eq_bind fun p => ?_
  refine .guard Iff.rfl (fun _ => .same trivial) fun _ => ?_
  exact pushInteger_keeps operation _

theorem bitwise_keeps (operation : String) (f : BitVec 32 → BitVec 32 → BitVec 32) :
    Keeps S ρ n (bitwise operation f) (bitwise operation f) Eq :=
  (integerOperands_keeps operation).eq_bind fun _ => pushInteger_keeps operation _

theorem comparison_keeps (operation : String) (f : Int → Int → Bool) :
    Keeps S ρ n (comparison operation f) (comparison operation f) Eq :=
  (integerOperands_keeps operation).eq_bind fun _ => pushBoolean_keeps _

end Integers

/-! ## Objects -/

section Objects

variable {S : Setting} {ρ : Renaming} {n : Nat}

theorem newObject_moves (kind : BodyKind) :
    Moves S ρ n (newObject kind) (newObject kind) fun _ => Eq := by
  unfold newObject
  refine pop_keeps.bind fun size size' hsize => ?_
  refine (check_keeps (expectIndex_agree "new:" hsize)).eq_bind fun size => ?_
  refine pop_keeps.bind fun cls cls' hcls => ?_
  refine Moves.bind (createObject_moves hcls size kind) fun ρ₁ object object' hobject => ?_
  exact (push_keeps hobject).moves fun _ _ h => h

theorem pushClass_keeps : Keeps S ρ n pushClass pushClass Eq := by
  refine pop_keeps.bind fun receiver receiver' hreceiver => ?_
  exact Keeps.bind (read_keeps fun _ _ hm => hm.classOf hreceiver) fun _ _ h => push_keeps h

theorem pushSize_keeps : Keeps S ρ n pushSize pushSize Eq := by
  refine pop_keeps.bind fun receiver receiver' hreceiver => ?_
  refine (read_keeps fun _ _ hm => hm.corresponds.size hreceiver).eq_bind fun size => ?_
  exact (check_keeps (smallValue_agree "size" size)).bind fun _ _ h => push_keeps h

theorem pushHash_keeps : Keeps S ρ n pushHash pushHash Eq := by
  refine pop_keeps.bind fun receiver receiver' hreceiver => ?_
  refine (read_keeps fun _ _ hm => hm.corresponds.hash hreceiver).eq_bind fun hash => ?_
  obtain ⟨k, hk⟩ := Value.tagged_eq_small hash
  rw [hk]
  exact push_keeps (.small k)

theorem pushIdentical_keeps : Keeps S ρ n pushIdentical pushIdentical Eq := by
  refine pop_keeps.bind fun other other' hother => ?_
  refine pop_keeps.bind fun receiver receiver' hreceiver => ?_
  refine .comparing hreceiver hother fun heq => ?_
  rw [decide_eq_decide.2 heq]
  exact pushBoolean_keeps _

theorem wordAt_keeps : Keeps S ρ n Machine.wordAt Machine.wordAt Eq := by
  refine (indexOperands_keeps "wordAt:").bind ?_
  rintro ⟨receiver, i⟩ ⟨receiver', _⟩ ⟨hreceiver, rfl⟩
  refine (read_keeps fun _ _ hm => hm.corresponds.getWord hreceiver i).eq_bind fun word => ?_
  exact pushInteger_keeps "wordAt:" _

theorem byteAt_keeps : Keeps S ρ n byteAt byteAt Eq := by
  refine (indexOperands_keeps "byteAt:").bind ?_
  rintro ⟨receiver, i⟩ ⟨receiver', _⟩ ⟨hreceiver, rfl⟩
  refine (read_keeps fun _ _ hm => hm.corresponds.getByte hreceiver i).eq_bind fun byte => ?_
  exact push_keeps (.small _)

theorem pointerAt_keeps : Keeps S ρ n pointerAt pointerAt Eq := by
  refine (indexOperands_keeps "at:").bind ?_
  rintro ⟨receiver, i⟩ ⟨receiver', _⟩ ⟨hreceiver, rfl⟩
  exact (getPtr_keeps hreceiver i).bind fun _ _ h => push_keeps h

theorem wordAtPut_keeps : Keeps S ρ n wordAtPut wordAtPut Eq := by
  refine pop_keeps.bind fun value value' hvalue => ?_
  refine (indexOperands_keeps "wordAt:put:").bind ?_
  rintro ⟨receiver, i⟩ ⟨receiver', _⟩ ⟨hreceiver, rfl⟩
  refine (check_keeps (expectWord_agree "wordAt:put:" hvalue)).eq_bind fun word => ?_
  refine (onMemory_keeps fun _ _ hh => hh.setWord hreceiver i word).eq_bind fun _ => ?_
  exact push_keeps hvalue

theorem byteAtPut_keeps : Keeps S ρ n byteAtPut byteAtPut Eq := by
  refine pop_keeps.bind fun value value' hvalue => ?_
  refine (indexOperands_keeps "byteAt:put:").bind ?_
  rintro ⟨receiver, i⟩ ⟨receiver', _⟩ ⟨hreceiver, rfl⟩
  refine (check_keeps (expectByte_agree "byteAt:put:" hvalue)).eq_bind fun byte => ?_
  refine (onMemory_keeps fun _ _ hh => hh.setByte hreceiver i byte).eq_bind fun _ => ?_
  exact push_keeps hvalue

theorem pointerAtPut_keeps : Keeps S ρ n pointerAtPut pointerAtPut Eq := by
  refine pop_keeps.bind fun value value' hvalue => ?_
  refine (indexOperands_keeps "at:put:").bind ?_
  rintro ⟨receiver, i⟩ ⟨receiver', _⟩ ⟨hreceiver, rfl⟩
  exact (setPtr_keeps hreceiver i hvalue).eq_bind fun _ => push_keeps hvalue

end Objects

/-! ## Characters and strings -/

section Strings

variable {S : Setting} {ρ : Renaming} {n : Nat}

theorem concatenate_moves : Moves S ρ n concatenate concatenate fun _ => Eq := by
  unfold concatenate
  refine pop_keeps.bind fun b b' hb => ?_
  refine pop_keeps.bind fun a a' ha => ?_
  refine (read_keeps fun _ _ hm => hm.corresponds.size ha).eq_bind fun aSize => ?_
  refine (read_keeps fun _ _ hm => hm.corresponds.size hb).eq_bind fun bSize => ?_
  refine Keeps.bind (V := fun _ _ => True)
    (read_keeps fun _ _ hm => (hm.corresponds.byteBody ha).mono fun _ _ _ => trivial)
    fun _ _ _ => ?_
  refine Keeps.bind (V := fun _ _ => True)
    (read_keeps fun _ _ hm => (hm.corresponds.byteBody hb).mono fun _ _ _ => trivial)
    fun _ _ _ => ?_
  refine Moves.bind (holding₂_moves ha hb ((register_keeps .stringClass).bind fun _ _ hcls =>
    createObject_moves hcls (aSize + bSize) .bytes)) ?_
  rintro ρ₁ ⟨result, a, b⟩ ⟨result', a', b'⟩ ⟨hresult, ha, hb⟩
  refine (read_keeps fun _ _ hm => hm.corresponds.bytes ha).eq_bind fun aBytes => ?_
  refine (read_keeps fun _ _ hm => hm.corresponds.bytes hb).eq_bind fun bBytes => ?_
  refine (onMemory_keeps fun _ _ hh => hh.setBytes hresult (aBytes ++ bBytes)).eq_bind fun _ => ?_
  exact (push_keeps hresult).moves fun _ _ h => h

theorem stringAt_keeps : Keeps S ρ n stringAt stringAt Eq := by
  refine (indexOperands_keeps "at:").bind ?_
  rintro ⟨receiver, i⟩ ⟨receiver', _⟩ ⟨hreceiver, rfl⟩
  refine (read_keeps fun _ _ hm => hm.corresponds.getByte hreceiver i).eq_bind fun byte => ?_
  exact (character_keeps byte).bind fun _ _ h => push_keeps h

theorem stringAtPut_keeps : Keeps S ρ n stringAtPut stringAtPut Eq := by
  refine pop_keeps.bind fun value value' hvalue => ?_
  refine (indexOperands_keeps "at:put:").bind ?_
  rintro ⟨receiver, i⟩ ⟨receiver', _⟩ ⟨hreceiver, rfl⟩
  refine (read_keeps fun _ _ hm => hm.characterValue hvalue).eq_bind fun byte => ?_
  refine (onMemory_keeps fun _ _ hh => hh.setByte hreceiver i byte).eq_bind fun _ => ?_
  exact push_keeps hvalue

theorem pushCharacterValue_keeps : Keeps S ρ n pushCharacterValue pushCharacterValue Eq := by
  refine pop_keeps.bind fun receiver receiver' hreceiver => ?_
  refine (read_keeps fun _ _ hm => hm.characterValue hreceiver).eq_bind fun byte => ?_
  exact push_keeps (.small _)

theorem characterFromValue_keeps : Keeps S ρ n characterFromValue characterFromValue Eq := by
  refine pop_keeps.bind fun value value' hvalue => ?_
  refine (check_keeps (expectByte_agree "Character value:" hvalue)).eq_bind fun byte => ?_
  exact (character_keeps byte).bind fun _ _ h => push_keeps h

theorem outputString_keeps : Keeps S ρ n outputString outputString Eq := by
  refine pop_keeps.bind fun receiver receiver' hreceiver => ?_
  refine (read_keeps fun _ _ hm => hm.corresponds.bytes hreceiver).eq_bind fun bytes => ?_
  exact (write_keeps bytes).eq_bind fun _ => push_keeps hreceiver

theorem outputCharacter_keeps : Keeps S ρ n outputCharacter outputCharacter Eq := by
  refine pop_keeps.bind fun receiver receiver' hreceiver => ?_
  refine (read_keeps fun _ _ hm => hm.characterValue hreceiver).eq_bind fun byte => ?_
  exact (write_keeps [byte]).eq_bind fun _ => push_keeps hreceiver

end Strings

/-! ## The system -/

section System

variable {S : Setting} {ρ : Renaming} {n : Nat} {m m' : Machine} {v v' : Value}

theorem shutDown_keeps : Keeps S ρ n shutDown shutDown Eq := by
  refine pop_keeps.bind fun _ _ _ => ?_
  exact (setRunning_keeps false).eq_bind fun _ => pushBoolean_keeps true

theorem Related.compileFlag (hm : Related S ρ n m m') (hv : Value.Renames ρ v v') :
    Agree ρ Eq (m.compileFlag v) (m'.compileFlag v') := by
  refine .ite (hm.eq_iff hv (hm.boolean true)) (fun _ => .ok rfl) fun _ => ?_
  exact .ite (hm.eq_iff hv (hm.boolean false)) (fun _ => .ok rfl) fun _ => .fault (.same trivial)

/-- Both attempts answer, or both report the same error of the source. -/
theorem attempt_leads {α : Type} {V : Renaming → α → α → Prop} {act act' : Compile α}
    (h : Moves S ρ n act act' V) :
    Leads S ρ n (attempt act) (attempt act') fun ρ₁ r r' =>
      (∃ a a', r = .ok a ∧ r' = .ok a' ∧ V ρ₁ a a') ∨ ∃ e, r = .error e ∧ r' = .error e := by
  intro m m' hm
  have hout := h m m' hm
  unfold attempt
  generalize act m = r at hout
  generalize act' m' = r' at hout
  cases hout with
  | ok h hQ => exact .ok h (.inl ⟨_, _, rfl, rfl, hQ.2⟩)
  | @error _ _ e _ _ _ h he =>
    obtain ⟨f, f', rfl, rfl, hf⟩ | ⟨rfl, hne⟩ := he.cases
    · exact .error h (.fault hf)
    · cases e with
      | machine f => exact absurd rfl (hne f)
      | syntactic e => exact .ok h (.inr ⟨_, rfl, rfl⟩)
      | semantic e => exact .ok h (.inr ⟨_, rfl, rfl⟩)
  | left h => exact .left h
  | right h => exact .right h

theorem compileString_leads : Leads S ρ n compileString compileString fun _ => Eq := by
  unfold compileString
  refine pop_keeps.bind fun flag flag' hflag => ?_
  refine pop_keeps.bind fun cls cls' hcls => ?_
  refine pop_keeps.bind fun source source' hsource => ?_
  refine (read_keeps fun _ _ hm => hm.compileFlag hflag).eq_bind fun valueNeeded => ?_
  refine (read_keeps fun _ _ hm => hm.stringValue hsource).eq_bind fun text => ?_
  refine Leads.bind (attempt_leads (compile_moves text hcls valueNeeded)) fun ρ₁ k r r' hr => ?_
  obtain ⟨method, method', rfl, rfl, hmethod⟩ | ⟨e, rfl, rfl⟩ := hr
  · exact Moves.leads ((push_keeps hmethod).moves fun _ _ h => h)
  · refine (report_keeps fun _ => rfl).eq_bind fun _ => ?_
    refine nil_keeps.bind fun nil nil' hnil => ?_
    exact Moves.leads ((push_keeps hnil).moves fun _ _ h => h)

theorem readInput_moves : Moves S ρ n readInput readInput fun _ => Eq := by
  unfold readInput
  refine pop_keeps.bind fun _ _ _ => ?_
  refine takeLine_keeps.eq_bind fun line => ?_
  refine .guard Iff.rfl (fun _ => .same trivial) fun _ => ?_
  refine Moves.bind (newString_moves _) fun ρ₁ string string' hstring => ?_
  exact (push_keeps hstring).moves fun _ _ h => h

theorem halt_keeps : Keeps S ρ n halt halt Eq := by
  unfold halt
  refine pop_keeps.bind fun message message' hmessage => ?_
  refine (read_keeps fun _ _ hm => hm.stringValue hmessage).eq_bind fun text => ?_
  refine (write_keeps _).eq_bind fun _ => ?_
  refine (report_keeps fun _ => rfl).eq_bind fun _ => ?_
  refine (setTracing_keeps true).eq_bind fun _ => ?_
  exact nil_keeps.bind fun _ _ h => push_keeps h

end System

/-! ## All of them -/

section All

variable {S : Setting} {ρ : Renaming} {n : Nat}

theorem Keeps.leads {x x' : Exec Unit} (h : Keeps S ρ n x x' Eq) : Leads S ρ n x x' fun _ => Eq :=
  Moves.leads (h.moves fun _ _ h => h)

/-- **Every primitive.** -/
theorem runPrimitive_leads (argc : Nat) (p : Primitive) :
    Leads S ρ n (runPrimitive argc p) (runPrimitive argc p) fun _ => Eq := by
  cases p with
  | shutDown => exact shutDown_keeps.leads
  | classOf => exact pushClass_keeps.leads
  | size => exact pushSize_keeps.leads
  | hash => exact pushHash_keeps.leads
  | identical => exact pushIdentical_keeps.leads
  | newWords => exact (newObject_moves .words).leads
  | newBytes => exact (newObject_moves .bytes).leads
  | newPointers => exact (newObject_moves .pointers).leads
  | concatenate => exact concatenate_moves.leads
  | wordAt => exact wordAt_keeps.leads
  | byteAt => exact byteAt_keeps.leads
  | pointerAt => exact pointerAt_keeps.leads
  | stringAt => exact stringAt_keeps.leads
  | compile => exact compileString_leads
  | wordAtPut => exact wordAtPut_keeps.leads
  | byteAtPut => exact byteAtPut_keeps.leads
  | pointerAtPut => exact pointerAtPut_keeps.leads
  | stringAtPut => exact stringAtPut_keeps.leads
  | characterValue => exact pushCharacterValue_keeps.leads
  | characterFromValue => exact characterFromValue_keeps.leads
  | add => exact (arithmetic_keeps "+" _).leads
  | subtract => exact (arithmetic_keeps "-" _).leads
  | remainder => exact (division_keeps "\\\\" _).leads
  | multiply => exact (arithmetic_keeps "*" _).leads
  | quotient => exact (division_keeps "//" _).leads
  | blockValue => exact (activateBlock_keeps argc).leads
  | input => exact readInput_moves.leads
  | halt => exact halt_keeps.leads
  | outputString => exact outputString_keeps.leads
  | outputCharacter => exact outputCharacter_keeps.leads
  | less => exact (comparison_keeps "<" (· < ·)).leads
  | lessEqual => exact (comparison_keeps "<=" (· ≤ ·)).leads
  | bitAnd => exact (bitwise_keeps "bitAnd:" _).leads
  | bitOr => exact (bitwise_keeps "bitOr:" _).leads
  | bitXor => exact (bitwise_keeps "bitXor:" _).leads

theorem ofNumber_agree (number : UInt16) :
    Agree ρ Eq (Primitive.ofNumber number) (Primitive.ofNumber number) := by
  unfold Primitive.ofNumber
  generalize Primitive.ofNumber? number = found
  cases found with
  | some p => exact .ok rfl
  | none => exact .fault (.same trivial)

theorem invoke_leads (number : UInt16) (argc : Nat) :
    Leads S ρ n (invoke number argc) (invoke number argc) fun _ => Eq := by
  unfold invoke
  refine (check_keeps (ofNumber_agree number)).eq_bind fun p => ?_
  refine .guard Iff.rfl (fun _ => .same trivial) fun _ => ?_
  exact (report_keeps fun _ => rfl).eq_bind fun _ => runPrimitive_leads argc p

end All

end Smalltalk
