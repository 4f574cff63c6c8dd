import Smalltalk.ClassFile.Build
import Smalltalk.Proofs.Running

/-!
# What a method that does not compile leaves behind

A class file may hold methods that do not compile. Loading skips them, and what it does otherwise is
what it does to the file without them: source that is not a method is refused before an object is
made or a name is interned, so the methods after it meet the machine that they would have met
without it.

The two runs do differ in the events that they report. So the argument has two halves. A failed
method changes nothing but the events kept. And nothing that compiling, installing and looking up
classes do depends on these events: that is `Blind`, shown once for each effect.

## Main definitions

* `Machine.unlogged`, `Blind`: what does not depend on the events kept
* `ClassFile.without`: a class file without the methods that failed

## Main results

* `loadMethod_failed`: a failed method changes nothing but the events kept
* `loadSections_without`: the sections of a file without the methods that failed
* `failed_methods_leave_no_trace`
-/

namespace Smalltalk

open Machine Layout

/-- The machine without the events it has kept. -/
def Machine.unlogged (m : Machine) : Machine := { m with log := {} }

/-- A result without the events that the machine has kept. -/
def unloggedResult {ε α : Type} : EStateM.Result ε Machine α → EStateM.Result ε Machine α
  | .ok a m => .ok a m.unlogged
  | .error e m => .error e m.unlogged

/-- What the effect does and answers does not depend on the events kept. -/
def Blind {ε α : Type} (x : EStateM ε Machine α) : Prop :=
  ∀ m m', m.unlogged = m'.unlogged → unloggedResult (x m) = unloggedResult (x m')

theorem exists_log {m m' : Machine} (h : m.unlogged = m'.unlogged) :
    ∃ log, m' = { m with log := log } := by
  refine ⟨m'.log, ?_⟩
  cases m
  cases m'
  simp only [Machine.unlogged, Machine.mk.injEq] at h ⊢
  simp [h]

/-! ## Sequences -/

section Rules

variable {ε α β : Type} {x : EStateM ε Machine α} {k : α → EStateM ε Machine β}

/-- Two runs of a blind effect end alike. -/
theorem Blind.ok {m m' m₁ : Machine} {a : α} (hx : Blind x) (h : m.unlogged = m'.unlogged)
    (hrun : x m = .ok a m₁) : ∃ m₁', x m' = .ok a m₁' ∧ m₁.unlogged = m₁'.unlogged := by
  have heq := hx m m' h
  rw [hrun] at heq
  cases hrun' : x m' with
  | ok a' m₁' =>
    rw [hrun'] at heq
    injection heq with ha hlogs
    exact ⟨m₁', by rw [ha], hlogs⟩
  | error e' m₁' =>
    rw [hrun'] at heq
    cases heq

theorem Blind.error {m m' m₁ : Machine} {e : ε} (hx : Blind x) (h : m.unlogged = m'.unlogged)
    (hrun : x m = .error e m₁) : ∃ m₁', x m' = .error e m₁' ∧ m₁.unlogged = m₁'.unlogged := by
  have heq := hx m m' h
  rw [hrun] at heq
  cases hrun' : x m' with
  | ok a' m₁' =>
    rw [hrun'] at heq
    cases heq
  | error e' m₁' =>
    rw [hrun'] at heq
    injection heq with he hlogs
    exact ⟨m₁', by rw [he], hlogs⟩

theorem Blind.pure (a : α) : Blind (Pure.pure a : EStateM ε Machine α) := fun _ _ h =>
  congrArg (EStateM.Result.ok a) h

theorem Blind.throw (e : ε) : Blind (throw e : EStateM ε Machine α) := fun _ _ h =>
  congrArg (EStateM.Result.error e) h

theorem Blind.bind (hx : Blind x) (hk : ∀ a, Blind (k a)) : Blind (x >>= k) := by
  intro m m' h
  change unloggedResult (EStateM.bind x k m) = unloggedResult (EStateM.bind x k m')
  unfold EStateM.bind
  cases hm : x m with
  | ok a m₁ =>
    obtain ⟨m₁', hm', hlogs⟩ := hx.ok h hm
    rw [hm']
    exact hk a m₁ m₁' hlogs
  | error e m₁ =>
    obtain ⟨m₁', hm', hlogs⟩ := hx.error h hm
    rw [hm']
    exact congrArg (EStateM.Result.error e) hlogs

theorem Blind.ite {c : Prop} [Decidable c] {y : EStateM ε Machine α} (hx : Blind x)
    (hy : Blind y) : Blind (if c then x else y) := by
  split
  · exact hx
  · exact hy

theorem Blind.discard (hx : Blind x) : Blind (Functor.discard x) := by
  have heq : Functor.discard x = x >>= fun _ => Pure.pure PUnit.unit := by
    rw [← map_eq_pure_bind]
    rfl
  rw [heq]
  exact hx.bind fun _ => .pure _

theorem Blind.adaptExcept {ε' : Type} (f : ε → ε') (hx : Blind x) :
    Blind (EStateM.adaptExcept f x) := by
  intro m m' h
  unfold EStateM.adaptExcept
  cases hm : x m with
  | ok a m₁ =>
    obtain ⟨m₁', hm', hlogs⟩ := hx.ok h hm
    rw [hm']
    exact congrArg (EStateM.Result.ok a) hlogs
  | error e m₁ =>
    obtain ⟨m₁', hm', hlogs⟩ := hx.error h hm
    rw [hm']
    exact congrArg (EStateM.Result.error (f e)) hlogs

end Rules

/-! ## Looking at the machine -/

section Looking

variable {α : Type} {m : Machine}

@[simp] theorem unlogged_findInChain {test : Value → Except Fault Bool} {steps : Nat}
    {link : Value} :
    m.unlogged.findInChain test steps link = m.findInChain test steps link := by
  induction steps generalizing link with
  | zero => rfl
  | succ steps ih =>
    simp only [findInChain, ih]
    rfl

@[simp] theorem unlogged_superclassChain {steps : Nat} {cls : Value} :
    m.unlogged.superclassChain steps cls = m.superclassChain steps cls := by
  induction steps generalizing cls with
  | zero => rfl
  | succ steps ih =>
    simp only [superclassChain, ih]
    rfl

@[simp] theorem unlogged_findSymbolLink {name : List UInt8} :
    m.unlogged.findSymbolLink name = m.findSymbolLink name := by
  simp only [findSymbolLink, unlogged_findInChain]
  rfl

@[simp] theorem unlogged_lookupGlobal {name : String} :
    m.unlogged.lookupGlobal name = m.lookupGlobal name := unlogged_findSymbolLink

@[simp] theorem unlogged_globalValue {name : String} :
    m.unlogged.globalValue name = m.globalValue name := by
  simp only [globalValue, unlogged_lookupGlobal]
  rfl

@[simp] theorem unlogged_lookupClass {name : String} :
    m.unlogged.lookupClass name = m.lookupClass name := by
  simp only [lookupClass, unlogged_globalValue]
  rfl

@[simp] theorem unlogged_dictionaryLink {dictionary key : Value} :
    m.unlogged.dictionaryLink dictionary key = m.dictionaryLink dictionary key := by
  simp only [dictionaryLink, unlogged_findInChain]
  rfl

@[simp] theorem unlogged_instanceVariables {cls : Value} :
    m.unlogged.instanceVariables cls = m.instanceVariables cls := by
  simp only [instanceVariables, unlogged_superclassChain]
  rfl

@[simp] theorem unlogged_isGlobal : m.unlogged.isGlobal = m.isGlobal := by
  funext name
  simp only [isGlobal, unlogged_lookupGlobal]

@[simp] theorem unlogged_draftSource {source : String} {cls : Value} {valueNeeded : Bool} :
    m.unlogged.draftSource source cls valueNeeded = m.draftSource source cls valueNeeded := by
  simp only [draftSource, draft, unlogged_instanceVariables, unlogged_isGlobal]

theorem Blind.of_look {f : Machine → α} (hf : ∀ m : Machine, f m.unlogged = f m) :
    Blind (look f) := by
  intro m m' h
  have heq : f m = f m' := (hf m).symm.trans ((congrArg f h).trans (hf m'))
  simp only [look, unloggedResult, heq, h]

theorem Blind.of_read {f : Machine → Except Fault α} (hf : ∀ m : Machine, f m.unlogged = f m) :
    Blind (Machine.read f) := by
  intro m m' h
  have heq : f m = f m' := (hf m).symm.trans ((congrArg f h).trans (hf m'))
  unfold Machine.read
  rw [heq]
  cases f m' with
  | ok a => exact congrArg (EStateM.Result.ok a) h
  | error e => exact congrArg (EStateM.Result.error e) h

theorem Blind.of_checking {f : Machine → Except CompileError α}
    (hf : ∀ m : Machine, f m.unlogged = f m) : Blind (checking f) := by
  intro m m' h
  have heq : f m = f m' := (hf m).symm.trans ((congrArg f h).trans (hf m'))
  unfold checking
  rw [heq]
  cases f m' with
  | ok a => exact congrArg (EStateM.Result.ok a) h
  | error e => exact congrArg (EStateM.Result.error e) h

theorem check_blind {a : Except Fault α} : Blind (check a) := .of_read fun _ => rfl

theorem register_blind {root : Root} : Blind (register root) := .of_look fun _ => rfl

theorem held_blind {place : Nat} : Blind (held place) := .of_look fun _ => rfl

theorem getPtr_blind {object : Value} {index : Nat} : Blind (getPtr object index) :=
  .of_read fun _ => rfl

end Looking

/-! ## Changing the machine -/

section Changing

variable {α : Type}

theorem Blind.of_modify {f : Machine → Machine}
    (hf : ∀ m : Machine, (f m).unlogged = (f m.unlogged).unlogged) :
    Blind (modify f : Exec Unit) := by
  intro m m' h
  have heq : (f m).unlogged = (f m').unlogged := by rw [hf m, hf m', h]
  exact congrArg (EStateM.Result.ok ()) heq

theorem onRegisters_blind {f : Registers → Registers} : Blind (onRegisters f) :=
  .of_modify fun _ => rfl

/-- An event is kept or not, and nothing else changes. -/
theorem unlogged_reported (event : Event) (m : Machine) :
    (if m.log.keeps event.level then { m with log := m.log.add event } else m).unlogged =
      m.unlogged := by
  split <;> rfl

theorem report_blind {event : Event} : Blind (report event) := by
  refine .of_modify fun m => ?_
  rw [unlogged_reported, unlogged_reported]
  rfl

theorem onMemory_blind {act : Store α} : Blind (onMemory act) := by
  intro m m' h
  obtain ⟨log, rfl⟩ := exists_log h
  rw [onMemory_apply, onMemory_apply]
  dsimp only
  cases act m.memory <;> rfl

theorem setPtr_blind {object : Value} {index : Nat} {value : Value} :
    Blind (setPtr object index value) := onMemory_blind

theorem onHeap_blind {act : Managed Registers α} : Blind (onHeap act) := by
  intro m m' h
  obtain ⟨log, rfl⟩ := exists_log h
  rw [onHeap_apply, onHeap_apply]
  dsimp only
  cases act ⟨m.memory, m.registers⟩ <;> rfl

theorem createObject_blind {cls : Value} {size : Nat} {kind : BodyKind} :
    Blind (createObject cls size kind) :=
  (Blind.of_look fun _ => rfl).bind fun _ => onHeap_blind

theorem holding_blind {value : Value} {act : Nat → Exec α} (hact : ∀ place, Blind (act place)) :
    Blind (holding value act) := by
  unfold holding hold releaseAll
  refine .bind (.bind (.of_look fun _ => rfl) fun _ => .bind onRegisters_blind fun _ =>
    .pure _) fun place => (hact place).bind fun a => held_blind.bind fun v => ?_
  refine .bind (.discard ?_) fun _ => .pure _
  exact .bind (.of_look fun _ => rfl) fun _ => .bind onRegisters_blind fun _ => .pure _

theorem holding₂_blind {v₁ v₂ : Value} {act : Nat → Exec α} (hact : ∀ place, Blind (act place)) :
    Blind (holding₂ v₁ v₂ act) :=
  (holding_blind fun place => holding_blind fun _ => hact place).bind fun _ => .pure _

theorem holding₃_blind {v₁ v₂ v₃ : Value} {act : Nat → Exec α}
    (hact : ∀ place, Blind (act place)) : Blind (holding₃ v₁ v₂ v₃ act) :=
  (holding_blind fun place => holding₂_blind fun _ => hact place).bind fun _ => .pure _

end Changing

/-! ## Symbols and dictionaries -/

theorem newBytes_blind {cls : Value} {bytes : List UInt8} : Blind (newBytes cls bytes) :=
  createObject_blind.bind fun _ => onMemory_blind.bind fun _ => .pure _

theorem newString_blind {text : String} : Blind (newString text) :=
  register_blind.bind fun _ => newBytes_blind

theorem newFloat_blind {x : Double} : Blind (newFloat x) :=
  register_blind.bind fun _ => newBytes_blind

theorem addSymbolLink_blind {name : List UInt8} : Blind (addSymbolLink name) := by
  unfold addSymbolLink
  refine register_blind.bind fun _ => createObject_blind.bind fun link => ?_
  refine Blind.bind (.of_read fun _ => rfl) fun bucket => getPtr_blind.bind fun head => ?_
  refine setPtr_blind.bind fun _ => setPtr_blind.bind fun _ => ?_
  refine register_blind.bind fun _ => newBytes_blind.bind fun symbol => ?_
  refine onMemory_blind.bind fun _ => Blind.bind (.of_read fun _ => rfl) fun bucket => ?_
  exact getPtr_blind.bind fun _ => setPtr_blind.bind fun _ => .pure _

theorem intern_blind {name : List UInt8} : Blind (intern name) := by
  unfold intern
  refine Blind.bind (.of_read fun _ => unlogged_findSymbolLink) fun found => ?_
  cases found with
  | some link => exact .pure link
  | none => exact addSymbolLink_blind

theorem newSymbol_blind {name : String} : Blind (newSymbol name) :=
  intern_blind.bind fun _ => getPtr_blind

theorem newMethodDictionary_blind : Blind newMethodDictionary := by
  unfold newMethodDictionary newDictionary
  refine Blind.bind (.of_read fun _ => unlogged_globalValue) fun cls => ?_
  refine Blind.bind (.of_look fun _ => rfl) fun nil => ?_
  refine createObject_blind.bind fun dictionary => ?_
  refine (holding_blind fun _ => register_blind.bind fun _ => createObject_blind).bind ?_
  exact fun _ => setPtr_blind.bind fun _ => .pure _

theorem dictionaryEnter_blind {dictionary key value : Value} :
    Blind (dictionaryEnter dictionary key value) := by
  unfold dictionaryEnter addDictionaryLink
  refine Blind.bind (.of_read fun _ => unlogged_dictionaryLink) fun found => ?_
  cases found with
  | some link => exact setPtr_blind
  | none =>
    refine (holding₃_blind fun _ =>
      register_blind.bind fun _ => createObject_blind).bind fun _ => ?_
    refine Blind.bind (.of_read fun _ => rfl) fun _ => getPtr_blind.bind fun _ => ?_
    refine setPtr_blind.bind fun _ => setPtr_blind.bind fun _ => ?_
    exact setPtr_blind.bind fun _ => setPtr_blind

theorem installMethod_blind {cls method : Value} : Blind (installMethod cls method) := by
  unfold installMethod
  refine getPtr_blind.bind fun methods => (holding₂_blind fun place => ?_).bind fun _ =>
    getPtr_blind.bind fun _ => dictionaryEnter_blind
  refine Blind.bind (.of_look fun _ => rfl) fun nil => .ite ?_ (.pure _)
  refine newMethodDictionary_blind.bind fun _ => held_blind.bind fun _ => ?_
  exact setPtr_blind.bind fun _ => .pure _

/-! ## Compiling -/

mutual

theorem materialize_blind : ∀ literal : Literal, Blind (materialize literal)
  | .integer n => by
    unfold materialize
    cases Value.ofInt? n with
    | some v => exact .pure v
    | none => exact .throw _
  | .float x => newFloat_blind
  | .character b => .of_look fun _ => rfl
  | .string s => newString_blind
  | .symbol s => newSymbol_blind
  | .nil => .of_look fun _ => rfl
  | .true => .of_look fun _ => rfl
  | .false => .of_look fun _ => rfl
  | .array items => by
    unfold materialize
    refine register_blind.bind fun _ => createObject_blind.bind fun array => ?_
    exact (holding_blind fun place => materializeInto_blind place 0 items).bind fun _ => .pure _

theorem materializeInto_blind (place : Nat) :
    ∀ (i : Nat) (items : List Literal), Blind (materializeInto place i items)
  | _, [] => .pure _
  | i, item :: items => by
    unfold materializeInto
    refine (materialize_blind item).bind fun value => held_blind.bind fun _ => ?_
    exact setPtr_blind.bind fun _ => materializeInto_blind place (i + 1) items

end

theorem materializeEntry_blind (entry : LiteralEntry) : Blind (materializeEntry entry) := by
  cases entry with
  | constant value => exact materialize_blind value
  | selector name => exact newSymbol_blind
  | «global» name => exact intern_blind

theorem setMethodField_blind {field : Nat} {value : Value} : Blind (setMethodField field value) :=
  register_blind.bind fun _ => setPtr_blind

theorem setMethodCount_blind {field count : Nat} : Blind (setMethodCount field count) :=
  check_blind.bind fun _ => setMethodField_blind

theorem fillWords_blind {object : Value} {i : Nat} {words : List UInt32} :
    Blind (fillWords object i words) := by
  induction words generalizing i with
  | nil => exact .pure _
  | cons w ws ih => exact onMemory_blind.bind fun _ => ih

theorem fillLiterals_blind {i : Nat} {entries : List LiteralEntry} :
    Blind (fillLiterals i entries) := by
  induction entries generalizing i with
  | nil => exact .pure _
  | cons entry entries ih =>
    refine (materializeEntry_blind entry).bind fun value => register_blind.bind fun _ => ?_
    exact getPtr_blind.bind fun _ => setPtr_blind.bind fun _ => ih

theorem addLiterals_blind {entries : List LiteralEntry} : Blind (addLiterals entries) := by
  unfold addLiterals
  cases entries.isEmpty with
  | true => exact .pure _
  | false =>
    refine register_blind.bind fun _ => createObject_blind.bind fun _ => ?_
    exact setMethodField_blind.bind fun _ => fillLiterals_blind

theorem fillMethod_blind {source : String} {draft : Draft} : Blind (fillMethod source draft) := by
  unfold fillMethod newWords
  refine newString_blind.bind fun _ => setMethodField_blind.bind fun _ => ?_
  refine newSymbol_blind.bind fun _ => setMethodField_blind.bind fun _ => ?_
  refine Blind.bind (register_blind.bind fun _ => createObject_blind.bind fun object =>
    fillWords_blind.bind fun _ => .pure _) fun _ => setMethodField_blind.bind fun _ => ?_
  refine addLiterals_blind.bind fun _ => setMethodCount_blind.bind fun _ => ?_
  exact setMethodCount_blind.bind fun _ => setMethodCount_blind

theorem buildMethod_blind {source : String} {cls : Value} {draft : Draft} :
    Blind (buildMethod source cls draft) := by
  unfold buildMethod takeMethod
  refine (holding_blind fun _ => ?_).bind fun _ => setMethodField_blind.bind fun _ => ?_
  · refine register_blind.bind fun _ => createObject_blind.bind fun _ => ?_
    exact onRegisters_blind.bind fun _ => fillMethod_blind
  · refine register_blind.bind fun _ => Blind.bind (.of_look fun _ => rfl) fun _ => ?_
    exact onRegisters_blind.bind fun _ => .pure _

theorem compile_blind {source : String} {cls : Value} {valueNeeded : Bool} :
    Blind (compile source cls valueNeeded) := by
  unfold compile
  refine Blind.bind (.of_checking fun _ => rfl) fun _ => ?_
  refine Blind.bind (.of_checking fun _ => unlogged_draftSource) fun draft => ?_
  refine .adaptExcept _ (Blind.bind (.of_look fun _ => rfl) fun name => ?_)
  exact report_blind.bind fun _ => buildMethod_blind

/-! ## Loading methods -/

theorem sectionTarget_blind {s : MethodSection} : Blind (sectionTarget s) := by
  unfold sectionTarget requireClass
  refine Blind.bind (Blind.bind (.adaptExcept _ (.of_read fun _ => unlogged_lookupClass))
    fun found => ?_) fun cls => .ite (.adaptExcept _ (.of_read fun _ => rfl)) (.pure _)
  cases found with
  | some cls => exact .pure cls
  | none => exact .throw _

theorem attemptLoad_blind {α : Type} {act : Compile α} (hact : Blind act) :
    Blind (attemptLoad act) := by
  intro m m' h
  unfold attemptLoad
  cases hm : act m with
  | ok a m₁ =>
    obtain ⟨m₁', hm', hlogs⟩ := hact.ok h hm
    rw [hm']
    exact congrArg (EStateM.Result.ok _) hlogs
  | error e m₁ =>
    obtain ⟨m₁', hm', hlogs⟩ := hact.error h hm
    rw [hm']
    cases e with
    | machine fault => exact congrArg (EStateM.Result.error _) hlogs
    | _ => exact congrArg (EStateM.Result.ok _) hlogs

theorem loadMethod_blind {s : MethodSection} {method : MethodSource} :
    Blind (loadMethod s method) := by
  unfold loadMethod
  refine sectionTarget_blind.bind fun cls => ?_
  refine (attemptLoad_blind compile_blind).bind fun outcome => ?_
  cases outcome with
  | ok object =>
    refine sectionTarget_blind.bind fun target => ?_
    exact (Blind.adaptExcept _ installMethod_blind).bind fun _ => .pure _
  | error e => exact (Blind.adaptExcept _ report_blind).bind fun _ => .pure _

/-! ## Failed methods -/

section Failing

variable {m m' m₁ : Machine}

/-- What only reads answers with the machine as it was. -/
theorem loading_read_eq_ok {α : Type} {f : Machine → Except Fault α} {a : α}
    (h : loading (Machine.read f) m = .ok a m₁) : m₁ = m := by
  unfold loading EStateM.adaptExcept Machine.read at h
  cases hf : f m with
  | ok b =>
    rw [hf] at h
    cases h
    rfl
  | error e =>
    rw [hf] at h
    cases h

theorem sectionTarget_eq_ok {s : MethodSection} {target : Value}
    (h : sectionTarget s m = .ok target m₁) : m₁ = m := by
  unfold sectionTarget requireClass at h
  obtain ⟨cls, m₂, hcls, htarget⟩ := bind_eq_ok h
  obtain ⟨found, m₃, hfound, hanswer⟩ := bind_eq_ok hcls
  obtain rfl := loading_read_eq_ok hfound
  have hsame : m₂ = m₃ := by
    cases found with
    | some cls' =>
      cases hanswer
      rfl
    | none => cases hanswer
  subst hsame
  cases hside : s.classSide with
  | true =>
    rw [hside] at htarget
    exact loading_read_eq_ok htarget
  | false =>
    rw [hside] at htarget
    cases htarget
    rfl

/-- Source that does not compile leaves the machine as it was. -/
theorem attemptLoad_compile_eq_error {source : String} {cls : Value} {valueNeeded : Bool}
    {e : CompileError}
    (h : attemptLoad (compile source cls valueNeeded) m = .ok (.error e) m₁) : m₁ = m := by
  unfold attemptLoad at h
  cases hrun : compile source cls valueNeeded m with
  | ok object m₂ =>
    rw [hrun] at h
    cases h
  | error e' m₂ =>
    rw [hrun] at h
    rcases compile_eq_error hrun with ⟨fault, rfl⟩ | rfl
    · cases h
    · cases e' with
      | machine fault => cases h
      | _ =>
        cases h
        rfl

/-- A method that fails changes nothing but the events kept. -/
theorem loadMethod_failed {s : MethodSection} {method : MethodSource} {failure : String}
    (h : loadMethod s method m = .ok (some failure) m₁) : m₁.unlogged = m.unlogged := by
  unfold loadMethod at h
  obtain ⟨target, m₂, htarget, hattempt⟩ := bind_eq_ok h
  obtain rfl := sectionTarget_eq_ok htarget
  obtain ⟨outcome, m₃, houtcome, hrest⟩ := bind_eq_ok hattempt
  cases outcome with
  | ok object =>
    obtain ⟨_, m₄, -, hinstall⟩ := bind_eq_ok hrest
    obtain ⟨_, m₅, -, hanswer⟩ := bind_eq_ok hinstall
    cases hanswer
  | error e =>
    obtain rfl := attemptLoad_compile_eq_error houtcome
    cases hrest
    exact unlogged_reported _ _

end Failing

/-- The section without the methods that failed, given the outcomes of all its methods. -/
def MethodSection.without (s : MethodSection) (outcomes : List (Option String)) :
    MethodSection :=
  { s with methods := ((s.methods.zip outcomes).filter (·.2.isNone)).map (·.1) }

/-- The class file without the methods that failed, given the outcomes of all its methods, section
by section. -/
def ClassFile.without (file : ClassFile) (outcomes : List (List (Option String))) : ClassFile :=
  { file with sections := file.sections.zipWith MethodSection.without outcomes }

/-- The number of methods in a class file. -/
def ClassFile.methodCount (file : ClassFile) : Nat :=
  (file.sections.flatMap (·.methods)).length

/-- Loads the methods of a section, and answers the outcome of each. -/
def Machine.loadSection (s : MethodSection) : Load (List (Option String)) :=
  s.methods.mapM (loadMethod s)

/-- Loads a class file, and answers how many classes were defined and the outcome of every method,
section by section. -/
def Machine.loadOutcomes (file : ClassFile) : Load (Nat × List (List (Option String))) := do
  let classes ← defineClasses file.classes
  let outcomes ← file.sections.mapM loadSection
  return (classes, outcomes)

/-- The report on a class file, from the number of classes defined and the outcomes of its methods.
-/
def LoadReport.ofOutcomes (classes : Nat) (outcomes : List (Option String)) : LoadReport :=
  ⟨classes, outcomes.length - (outcomes.filterMap id).length, outcomes.filterMap id⟩

section Runs

variable {m m' m₁ : Machine} {s : MethodSection}

theorem loadMethods_length {methods : List MethodSource} {outcomes : List (Option String)}
    (h : methods.mapM (loadMethod s) m = .ok outcomes m₁) : outcomes.length = methods.length := by
  induction methods generalizing m outcomes with
  | nil =>
    cases h
    rfl
  | cons method methods ih =>
    rw [List.mapM_cons] at h
    obtain ⟨outcome, m₂, -, h⟩ := bind_eq_ok h
    obtain ⟨more, m₃, hmore, h⟩ := bind_eq_ok h
    cases h
    exact congrArg (· + 1) (ih hmore)

/-- Loading the methods of a section without those that fail. Every failed method is a step that the
shorter run leaves out, every other one a step that both runs make. -/
theorem loadMethods_without {methods : List MethodSource} {outcomes : List (Option String)}
    (hlogs : m.unlogged = m'.unlogged)
    (h : methods.mapM (loadMethod s) m = .ok outcomes m₁) :
    ∃ m₁', (((methods.zip outcomes).filter (·.2.isNone)).map (·.1)).mapM (loadMethod s) m' =
        .ok (outcomes.filter (·.isNone)) m₁' ∧
      m₁.unlogged = m₁'.unlogged := by
  induction methods generalizing m m' outcomes with
  | nil =>
    cases h
    exact ⟨m', rfl, hlogs⟩
  | cons method methods ih =>
    rw [List.mapM_cons] at h
    obtain ⟨outcome, m₂, houtcome, h⟩ := bind_eq_ok h
    obtain ⟨more, m₃, hmore, h⟩ := bind_eq_ok h
    cases h
    cases outcome with
    | some failure =>
      obtain ⟨m₁', hrun, hend⟩ := ih ((loadMethod_failed houtcome).trans hlogs) hmore
      exact ⟨m₁', hrun, hend⟩
    | none =>
      obtain ⟨m₂', houtcome', hlogs₂⟩ := loadMethod_blind.ok hlogs houtcome
      obtain ⟨m₁', hrun, hend⟩ := ih hlogs₂ hmore
      refine ⟨m₁', ?_, hend⟩
      rw [List.zip_cons_cons, List.filter_cons_of_pos rfl, List.map_cons, List.mapM_cons,
        bind_of_eq_ok houtcome', bind_of_eq_ok hrun]
      rfl

/-- Loading sections without the methods that fail. -/
theorem loadSections_without {sections : List MethodSection}
    {outcomes : List (List (Option String))} (hlogs : m.unlogged = m'.unlogged)
    (h : sections.mapM loadSection m = .ok outcomes m₁) :
    ∃ m₁', (sections.zipWith MethodSection.without outcomes).mapM loadSection m' =
        .ok (outcomes.map (·.filter (·.isNone))) m₁' ∧
      m₁.unlogged = m₁'.unlogged := by
  induction sections generalizing m m' outcomes with
  | nil =>
    cases h
    exact ⟨m', rfl, hlogs⟩
  | cons s sections ih =>
    rw [List.mapM_cons] at h
    obtain ⟨outcome, m₂, houtcome, hrest⟩ := bind_eq_ok h
    obtain ⟨more, m₃, hmore, hanswer⟩ := bind_eq_ok hrest
    cases hanswer
    obtain ⟨m₂', houtcome', hlogs₂⟩ := loadMethods_without hlogs houtcome
    obtain ⟨m₁', hrun, hend⟩ := ih hlogs₂ hmore
    refine ⟨m₁', ?_, hend⟩
    rw [List.zipWith_cons_cons, List.mapM_cons]
    have hsection : loadSection (s.without outcome) m' =
        .ok (outcome.filter (·.isNone)) m₂' := houtcome'
    rw [bind_of_eq_ok hsection, bind_of_eq_ok hrun]
    rfl

theorem loadSections_length {sections : List MethodSection} {outcomes : List (List (Option String))}
    (h : sections.mapM loadSection m = .ok outcomes m₁) :
    outcomes.flatten.length = (sections.flatMap (·.methods)).length := by
  induction sections generalizing m outcomes with
  | nil =>
    cases h
    rfl
  | cons s sections ih =>
    rw [List.mapM_cons] at h
    obtain ⟨outcome, m₂, houtcome, hrest⟩ := bind_eq_ok h
    obtain ⟨more, m₃, hmore, hanswer⟩ := bind_eq_ok hrest
    cases hanswer
    rw [List.flatten_cons, List.flatMap_cons, List.length_append, List.length_append,
      loadMethods_length houtcome, ih hmore]

/-- Going through the sections for the outcomes of all methods in a row. -/
theorem flatMapM_eq_flatten_mapM {ε α β : Type} {f : α → EStateM ε Machine (List β)}
    (l : List α) : l.flatMapM f = List.flatten <$> l.mapM f := by
  induction l with
  | nil => rfl
  | cons a l ih =>
    rw [List.flatMapM_cons, List.mapM_cons, ih]
    simp only [map_eq_pure_bind, bind_assoc, pure_bind, List.flatten_cons]

end Runs

/-! ## Loading a class file -/

section Files

variable {file : ClassFile} {m m₁ m₂ : Machine} {r : LoadReport}
  {outcomes : List (List (Option String))}

/-- Loading a class file is loading its methods and counting the outcomes. -/
theorem load_eq (file : ClassFile) : load file = loadOutcomes file >>= fun p => do
    let r := LoadReport.ofOutcomes p.1 p.2.flatten
    loading (report (.loaded r.classes r.methods r.failures.length))
    return r := by
  have hsections : (fun s : MethodSection => s.methods.mapM (loadMethod s)) = loadSection := rfl
  unfold load loadOutcomes
  simp only [hsections, flatMapM_eq_flatten_mapM, map_eq_pure_bind, bind_assoc, pure_bind]
  rfl

theorem load_eq_ok (h : load file m = .ok r m₁) :
    ∃ classes outcomes m₂, loadOutcomes file m = .ok (classes, outcomes) m₂ ∧
      r = .ofOutcomes classes outcomes.flatten ∧ m₁.unlogged = m₂.unlogged := by
  rw [load_eq] at h
  obtain ⟨⟨classes, outcomes⟩, m₂, houtcomes, hanswer⟩ := bind_eq_ok h
  cases hanswer
  exact ⟨classes, outcomes, m₂, houtcomes, rfl, unlogged_reported _ _⟩

theorem load_of_loadOutcomes {classes : Nat}
    (h : loadOutcomes file m = .ok (classes, outcomes) m₂) :
    ∃ m₁, load file m = .ok (.ofOutcomes classes outcomes.flatten) m₁ ∧
      m₁.unlogged = m₂.unlogged := by
  rw [load_eq, bind_of_eq_ok h]
  exact ⟨_, rfl, unlogged_reported _ _⟩

theorem loadOutcomes_eq_ok {classes : Nat}
    (h : loadOutcomes file m = .ok (classes, outcomes) m₂) :
    ∃ m₀, defineClasses file.classes m = .ok classes m₀ ∧
      file.sections.mapM loadSection m₀ = .ok outcomes m₂ := by
  obtain ⟨classes, m₀, hclasses, hrest⟩ := bind_eq_ok h
  obtain ⟨outcomes, m₂, houtcomes, hanswer⟩ := bind_eq_ok hrest
  cases hanswer
  exact ⟨m₀, hclasses, houtcomes⟩

/-- Loading a class file without the methods that fail: the outcomes are those that are no failures,
and the machine is the same but for the events kept. -/
theorem loadOutcomes_without {classes : Nat}
    (h : loadOutcomes file m = .ok (classes, outcomes) m₂) :
    ∃ m₂', loadOutcomes (file.without outcomes) m =
        .ok (classes, outcomes.map (·.filter (·.isNone))) m₂' ∧
      m₂.unlogged = m₂'.unlogged := by
  obtain ⟨m₀, hclasses, houtcomes⟩ := loadOutcomes_eq_ok h
  obtain ⟨m₂', hrun, hlogs⟩ := loadSections_without rfl houtcomes
  refine ⟨m₂', ?_, hlogs⟩
  have hclasses' : defineClasses (file.without outcomes).classes m = .ok classes m₀ := hclasses
  have hrun' : (file.without outcomes).sections.mapM loadSection m₀ = _ := hrun
  unfold loadOutcomes
  rw [bind_of_eq_ok hclasses', bind_of_eq_ok hrun']
  rfl

/-- Every outcome is a failure or none. -/
theorem length_filter_isNone {α : Type} (l : List (Option α)) :
    (l.filter (·.isNone)).length + (l.filterMap id).length = l.length := by
  induction l with
  | nil => rfl
  | cons o l ih =>
    cases o with
    | none =>
      rw [List.filter_cons_of_pos rfl, List.filterMap_cons_none rfl, List.length_cons,
        List.length_cons, ← ih, Nat.add_right_comm]
    | some a =>
      rw [List.filter_cons_of_neg (by simp), List.filterMap_cons_some (f := id) rfl,
        List.length_cons, List.length_cons, ← ih, Nat.add_assoc]

/-- The report on the outcomes that are no failures counts the same methods, and no failure. -/
theorem ofOutcomes_filter_isNone (classes : Nat) (outcomes : List (Option String)) :
    LoadReport.ofOutcomes classes (outcomes.filter (·.isNone)) =
      { LoadReport.ofOutcomes classes outcomes with failures := [] } := by
  have hnone : (outcomes.filter (·.isNone)).filterMap id = [] := by
    simp [List.filterMap_eq_nil_iff, List.mem_filter]
  have hlength := length_filter_isNone outcomes
  rw [LoadReport.ofOutcomes, LoadReport.ofOutcomes, hnone]
  simp only [LoadReport.mk.injEq, List.length_nil, true_and, and_true]
  omega

/-- **Methods that fail leave no trace.** Source that is not a method leaves the machine as it was.
So loading a class file does what it does to the file without the methods that fail, up to the
events kept, and every method of the file is counted once, as loaded or as failed. -/
theorem failed_methods_leave_no_trace :
    (∀ (source : String) (cls : Value) (valueNeeded : Bool) (m m₁ : Machine) (e : CompileError),
      compile source cls valueNeeded m = .error e m₁ → (∀ fault, e ≠ .machine fault) → m₁ = m) ∧
    ∀ (file : ClassFile) (m m₁ : Machine) (r : LoadReport), load file m = .ok r m₁ →
      ∃ outcomes m₂, loadOutcomes file m = .ok (r.classes, outcomes) m₂ ∧
        r.failures = outcomes.flatten.filterMap id ∧
        r.methods + r.failures.length = file.methodCount ∧
        ∃ log, load (file.without outcomes) m =
          .ok { r with failures := [] } { m₁ with log := log } := by
  constructor
  · intro source cls valueNeeded m m₁ e h hne
    rcases compile_eq_error h with ⟨fault, rfl⟩ | hsame
    · exact absurd rfl (hne fault)
    · exact hsame
  · intro file m m₁ r h
    obtain ⟨classes, outcomes, m₂, houtcomes, rfl, hlogs⟩ := load_eq_ok h
    obtain ⟨m₀, hclasses, hsections⟩ := loadOutcomes_eq_ok houtcomes
    refine ⟨outcomes, m₂, houtcomes, rfl, ?_, ?_⟩
    · have hlength := length_filter_isNone outcomes.flatten
      have hcount := loadSections_length hsections
      rw [← ClassFile.methodCount] at hcount
      simp only [LoadReport.ofOutcomes]
      omega
    · obtain ⟨m₂', hwithout, hlogs'⟩ := loadOutcomes_without houtcomes
      obtain ⟨m₁', hload, hlogs''⟩ := load_of_loadOutcomes hwithout
      obtain ⟨log, rfl⟩ := exists_log (hlogs.trans (hlogs'.trans hlogs''.symm))
      refine ⟨log, hload.trans ?_⟩
      rw [← List.filter_flatten, ofOutcomes_filter_isNone]

end Files

/-! ### A file with good and bad methods -/

/-- The classes that a machine cannot do without, each without variables. -/
def bareClasses : List ClassDefinition :=
  ⟨"Object", .fixed, none, [], 1⟩ ::
    ["Class", "Metaclass", "ShortInteger", "Float", "Character", "String", "Symbol", "Link",
      "Method", "Array", "WordArray", "MethodContext", "BlockContext", "UndefinedObject", "False",
      "True", "SystemDictionary"].map fun name => ⟨name, .fixed, some "Object", [], 1⟩

/-- A machine with these classes. -/
def bareMachine : Machine :=
  machineOf (buildFrom ⟨bareClasses, []⟩ (Machine.empty (Memory.empty ⟨16384, false⟩)))

/-- A class with a variable, two methods, and three that do not compile: two mention a name that
nobody knows there, and one ends too early. -/
def pairFile : ClassFile :=
  ⟨[⟨"Pair", .fixed, some "Object", ["x"], 1⟩],
    [⟨"Pair", false, [⟨"x ^x", 3⟩, ⟨"y ^y", 5⟩, ⟨"z ^^", 7⟩], 2⟩,
      ⟨"Pair", true, [⟨"x ^x", 10⟩, ⟨"itself ^Pair", 12⟩], 9⟩]⟩

/-- The file without the three. -/
def goodPairFile : ClassFile :=
  ⟨pairFile.classes,
    [⟨"Pair", false, [⟨"x ^x", 3⟩], 2⟩, ⟨"Pair", true, [⟨"itself ^Pair", 12⟩], 9⟩]⟩

/-- What becomes of the methods. -/
def pairOutcomes : List (List (Option String)) :=
  [[none, some "Pair (method at line 5): line 1: undefined variable y",
      some "Pair (method at line 7): line 1: syntax error: expected expression, found Caret"],
    [some "Pair (method at line 10): line 1: undefined variable x", none]]

set_option maxRecDepth 100000 in
theorem answerOf_loadOutcomes_pairFile :
    answerOf (loadOutcomes pairFile bareMachine) = some (1, pairOutcomes) := by
  decide +kernel

/-- A machine without objects. -/
def hollowMachine : Machine := Machine.empty (Memory.empty ⟨16, false⟩)

theorem errorOf_compile_hollowMachine : errorOf (compile "z ^^" .zeroRef false hollowMachine) =
    some (.syntactic ⟨1, .expected .expression .caret⟩) := by
  decide +kernel

theorem failed_methods_leave_no_trace_pairFile :
    (∃ e, compile "z ^^" .zeroRef false hollowMachine = .error e hollowMachine) ∧
    ∃ m₁ log, load pairFile bareMachine =
        .ok ⟨1, 2, pairOutcomes.flatten.filterMap id⟩ m₁ ∧
      load goodPairFile bareMachine = .ok ⟨1, 2, []⟩ { m₁ with log := log } := by
  constructor
  · have hrun := eq_error_of_errorOf errorOf_compile_hollowMachine
    have hsame := failed_methods_leave_no_trace.1 _ _ _ _ _ _ hrun (by simp)
    exact ⟨_, hsame ▸ hrun⟩
  · have hrun := eq_ok_of_answerOf answerOf_loadOutcomes_pairFile
    obtain ⟨m₁, hload, -⟩ := load_of_loadOutcomes hrun
    obtain ⟨outcomes, m₂, houtcomes, -, -, log, hwithout⟩ :=
      failed_methods_leave_no_trace.2 pairFile bareMachine m₁ _ hload
    have hsame : outcomes = pairOutcomes := by
      rw [hrun] at houtcomes
      cases houtcomes
      rfl
    subst hsame
    exact ⟨m₁, log, hload, hwithout⟩

end Smalltalk
