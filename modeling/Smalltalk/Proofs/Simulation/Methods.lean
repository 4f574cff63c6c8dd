import Smalltalk.Method.Build
import Smalltalk.Proofs.Compilation.Faults
import Smalltalk.Proofs.Simulation.Symbols

/-!
# Compiling

Reading source and drafting a method touch the machine in two ways: they ask for the instance
variables of a class, and whether globals exist. Related machines give the same answers to both, so
they arrive at the same draft, or fail in the same way.

Building the method then allocates many times over. The method is in a register meanwhile, and
arrays of literals are held; each object is made first and put into its place afterwards, when the
place has been fetched anew.

## Main results

* `materialize_moves`: the objects of literals
* `buildMethod_moves`: the object of a draft
* `compile_moves`: compiling source
-/

namespace Smalltalk

open Memory Machine Layout

instance : Failing CompileError := ⟨.machine, fun _ _ => CompileError.machine.inj⟩

/-! ## Effects that compile -/

section Compiling

variable {S : Setting} {ρ : Renaming} {n : Nat} {α : Type}

theorem compiling_sim {x x' : Exec α} {Q : Renaming → Nat → α → α → Prop}
    (h : Sim S ρ n x x' Q) : Sim S ρ n (compiling x) (compiling x') Q :=
  h.adapt

theorem checking_keeps {V : α → α → Prop} {f f' : Machine → Except CompileError α}
    (h : ∀ m m', Related S ρ n m m' → Agree ρ V (f m) (f' m')) :
    Keeps S ρ n (checking f) (checking f') V := by
  intro m m' hm
  obtain ⟨a, a', hx, hx', ha⟩ | ⟨e, e', hx, hx', he⟩ := (h m m' hm).cases
  · simp only [checking, hx, hx']
    exact .ok hm ⟨rfl, rfl, ha⟩
  · simp only [checking, hx, hx']
    exact .error hm he

end Compiling

/-! ## Literals -/

section Literals

variable {S : Setting}

mutual

theorem materialize_moves (ρ : Renaming) (n : Nat) (l : Literal) :
    Moves S ρ n (materialize l) (materialize l) Value.Renames := by
  cases l with
  | integer k =>
    unfold materialize
    rcases ofInt?_cases k with h | ⟨i, h⟩
    · rw [h]
      exact .fault (.same trivial)
    · rw [h]
      exact Moves.pure (.small i)
  | float x => exact newFloat_moves x
  | character b => exact (look_keeps fun _ _ hm => hm.get (.character b)).moves fun _ _ h => h
  | string s => exact newString_moves s
  | symbol s => exact newSymbol_moves s
  | nil => exact nil_keeps.moves fun _ _ h => h
  | true => exact (look_keeps fun _ _ hm => hm.boolean true).moves fun _ _ h => h
  | false => exact (look_keeps fun _ _ hm => hm.boolean false).moves fun _ _ h => h
  | array items =>
    unfold materialize
    refine (register_keeps .arrayClass).bind fun cls cls' hcls => ?_
    refine Moves.bind (createObject_moves hcls items.length .pointers) fun ρ₁ array array' ha => ?_
    refine Moves.bind (holding_moves ha (materializeInto_moves ρ₁ (Nat.lt_succ_self n) 0 items)) ?_
    rintro ρ₂ ⟨_, array⟩ ⟨_, array'⟩ ⟨-, ha⟩
    exact Moves.pure ha

theorem materializeInto_moves (ρ : Renaming) {n place : Nat} (hplace : place < n) (i : Nat)
    (items : List Literal) :
    Moves S ρ n (materializeInto place i items) (materializeInto place i items) fun _ => Eq := by
  cases items with
  | nil =>
    unfold materializeInto
    exact Moves.pure rfl
  | cons item items =>
    unfold materializeInto
    refine Moves.bind (materialize_moves ρ n item) fun ρ₁ value value' hvalue => ?_
    refine (held_keeps hplace).bind fun array array' harray => ?_
    refine (setPtr_keeps harray i hvalue).eq_bind fun _ => ?_
    exact materializeInto_moves ρ₁ hplace (i + 1) items

end

theorem materializeEntry_moves (ρ : Renaming) (n : Nat) (entry : LiteralEntry) :
    Moves S ρ n (materializeEntry entry) (materializeEntry entry) Value.Renames := by
  cases entry with
  | constant value => exact materialize_moves ρ n value
  | selector name => exact newSymbol_moves name
  | global name => exact globalLink_moves name

end Literals

/-! ## Building a method -/

section Building

variable {S : Setting} {ρ : Renaming} {n : Nat} {v v' w w' : Value}

theorem setMethodField_keeps (field : Nat) (hv : Value.Renames ρ v v') :
    Keeps S ρ n (setMethodField field v) (setMethodField field v') Eq :=
  (register_keeps .compilerMethod).bind fun _ _ hmethod => setPtr_keeps hmethod field hv

theorem fillWords_keeps (hv : Value.Renames ρ v v') (i : Nat) (words : List UInt32) :
    Keeps S ρ n (Machine.fillWords v i words) (Machine.fillWords v' i words) Eq := by
  induction words generalizing i with
  | nil => exact Keeps.pure rfl
  | cons word words ih =>
    exact (onMemory_keeps fun _ _ hh => hh.setWord hv i word).eq_bind fun _ => ih (i + 1)

theorem newWords_moves (words : List UInt32) :
    Moves S ρ n (newWords words) (newWords words) Value.Renames := by
  unfold newWords
  refine (register_keeps .wordArrayClass).bind fun cls cls' hcls => ?_
  refine Moves.bind (createObject_moves hcls words.length .words) fun ρ₁ object object' ho => ?_
  refine (fillWords_keeps ho 0 words).eq_bind fun _ => ?_
  exact Moves.pure ho

theorem fillLiterals_moves (i : Nat) (entries : List LiteralEntry) :
    Moves S ρ n (fillLiterals i entries) (fillLiterals i entries) fun _ => Eq := by
  induction entries generalizing ρ i with
  | nil => exact Moves.pure rfl
  | cons entry entries ih =>
    refine Moves.bind (materializeEntry_moves ρ n entry) fun ρ₁ value value' hvalue => ?_
    refine (register_keeps .compilerMethod).bind fun method method' hmethod => ?_
    refine (getPtr_keeps hmethod Method.literals).bind fun literals literals' hliterals => ?_
    exact (setPtr_keeps hliterals i hvalue).eq_bind fun _ => ih (i + 1)

theorem addLiterals_moves (entries : List LiteralEntry) :
    Moves S ρ n (addLiterals entries) (addLiterals entries) fun _ => Eq := by
  unfold addLiterals
  refine .ite Iff.rfl (fun _ => Moves.pure rfl) fun _ => ?_
  refine (register_keeps .arrayClass).bind fun cls cls' hcls => ?_
  refine Moves.bind (createObject_moves hcls entries.length .pointers) fun ρ₁ array array' ha => ?_
  refine (setMethodField_keeps Method.literals ha).eq_bind fun _ => ?_
  exact fillLiterals_moves 0 entries

theorem setMethodCount_keeps (field count : Nat) :
    Keeps S ρ n (setMethodCount field count) (setMethodCount field count) Eq :=
  (check_keeps (smallValue_agree "compile" count)).bind fun _ _ h => setMethodField_keeps field h

theorem fillMethod_moves (source : String) (draft : Draft) :
    Moves S ρ n (fillMethod source draft) (fillMethod source draft) fun _ => Eq := by
  unfold fillMethod
  refine Moves.bind (newString_moves source) fun ρ₁ text text' htext => ?_
  refine (setMethodField_keeps Method.text htext).eq_bind fun _ => ?_
  refine Moves.bind (newSymbol_moves draft.selector) fun ρ₂ symbol symbol' hsymbol => ?_
  refine (setMethodField_keeps Method.selector hsymbol).eq_bind fun _ => ?_
  refine Moves.bind (newWords_moves _) fun ρ₃ code code' hcode => ?_
  refine (setMethodField_keeps Method.code hcode).eq_bind fun _ => ?_
  refine Moves.eq_bind (addLiterals_moves draft.literals.toList) fun ρ₄ _ => ?_
  refine (setMethodCount_keeps Method.argSize draft.argSize).eq_bind fun _ => ?_
  refine (setMethodCount_keeps Method.tempSize draft.tempSize).eq_bind fun _ => ?_
  exact (setMethodCount_keeps Method.stackSize draft.stackSize).moves fun _ _ h => h

theorem takeMethod_keeps : Keeps S ρ n takeMethod takeMethod (Value.Renames ρ) := by
  unfold takeMethod
  refine (register_keeps .compilerMethod).bind fun method method' hmethod => ?_
  refine nil_keeps.bind fun nil nil' hnil => ?_
  refine (setRegister_keeps .compilerMethod hnil).eq_bind fun _ => ?_
  exact Keeps.pure hmethod

theorem buildMethod_moves (source : String) (hv : Value.Renames ρ v v') (draft : Draft) :
    Moves S ρ n (buildMethod source v draft) (buildMethod source v' draft) Value.Renames := by
  unfold buildMethod
  refine Moves.bind (holding_moves (V := fun _ => Eq) hv ?_) ?_
  · refine (register_keeps .methodClass).bind fun cls cls' hcls => ?_
    refine Moves.bind (createObject_moves hcls Method.size .pointers) fun ρ₁ _ _ hmethod => ?_
    refine (setRegister_keeps .compilerMethod hmethod).eq_bind fun _ => ?_
    exact fillMethod_moves source draft
  · rintro ρ₁ ⟨_, cls⟩ ⟨_, cls'⟩ ⟨-, hcls⟩
    refine (setMethodField_keeps Method.owner hcls).eq_bind fun _ => ?_
    exact takeMethod_keeps.moves fun _ _ h => h

end Building

/-! ## Compiling source -/

section Source

variable {S : Setting} {ρ : Renaming} {n : Nat} {m m' : Machine} {v v' : Value}

theorem Agree.mapError {α : Type} {x x' : Except Fault α} {V : α → α → Prop} (h : Agree ρ V x x') :
    Agree ρ V (x.mapError CompileError.machine) (x'.mapError CompileError.machine) := by
  cases h with
  | ok h => exact .ok h
  | error h => exact .fault h.renames

theorem Related.isGlobal (hm : Related S ρ n m m') (name : String) :
    Agree (fun _ _ => False) Eq (m.isGlobal name) (m'.isGlobal name) := by
  refine (hm.findSymbolLink (Text.utf8 name)).bind fun found found' hfound => .pure ?_
  cases hfound with
  | none => rfl
  | some => rfl

/-- Related machines draft the same method. -/
theorem Related.draft (hm : Related S ρ n m m') (instanceVariables : List String)
    (tree : MethodTree) (valueNeeded : Bool) :
    Agree ρ Eq (m.draft instanceVariables tree valueNeeded)
      (m'.draft instanceVariables tree valueNeeded) := by
  -- nothing that a question about a global can answer depends on an address
  have hsame : m.isGlobal = m'.isGlobal := by
    funext name
    obtain ⟨b, _, hx, hx', rfl⟩ | ⟨f, f', hx, hx', hf⟩ := (hm.isGlobal name).cases
    · rw [hx, hx']
    · rw [hx, hx', hf.renames.eq_of_fixed nofun]
  unfold Machine.draft
  rw [← hsame]
  cases hdraft : Draft.ofTree instanceVariables m.isGlobal tree valueNeeded with
  | ok d => exact .ok rfl
  | error e =>
    cases e with
    | machine f =>
      obtain ⟨name, hname⟩ := Draft.faultsFrom_ofTree hdraft
      obtain ⟨_, _, hx, -, -⟩ | ⟨_, _, hx, -, hf⟩ := (hm.isGlobal name).cases
      · cases hname.symm.trans hx
      · obtain rfl := Except.error.inj (hname.symm.trans hx)
        exact .fault (.same hf.renames.sound)
    | syntactic e => exact .error (.other fun _ => nofun)
    | semantic e => exact .error (.other fun _ => nofun)

theorem Related.draftSource (hm : Related S ρ n m m') (source : String)
    (hv : Value.Renames ρ v v') (valueNeeded : Bool) :
    Agree ρ Eq (m.draftSource source v valueNeeded) (m'.draftSource source v' valueNeeded) := by
  unfold Machine.draftSource
  refine Agree.eq_bind ?_ fun tree => ?_
  · cases MethodTree.ofSource (Text.utf8 source) with
    | ok tree => exact .ok rfl
    | error e => exact .error (.other fun _ => nofun)
  · refine (hm.instanceVariables hv).mapError.eq_bind fun instanceVariables => ?_
    exact hm.draft instanceVariables tree valueNeeded

/-- **Compiling source.** -/
theorem compile_moves (source : String) (hv : Value.Renames ρ v v') (valueNeeded : Bool) :
    Moves S ρ n (compile source v valueNeeded) (compile source v' valueNeeded) Value.Renames := by
  unfold compile
  refine Keeps.eq_bind (checking_keeps fun m m' hm => ?_) fun _ => ?_
  · rw [hm.compiler]
    exact .ite Iff.rfl (fun _ => .ok rfl) fun _ => .fault (.same trivial)
  refine (checking_keeps fun _ _ hm => hm.draftSource source hv valueNeeded).eq_bind fun draft => ?_
  refine compiling_sim ?_
  refine Keeps.bind (V := fun s s' => S.twins → s = s') (look_keeps fun m m' hm ht => ?_)
    fun name name' hname => ?_
  · obtain rfl := hv.eq_of_fixed (hm.heaps.fixed ht)
    rcases hm.className hv with h | ⟨h, h'⟩
    · exact h
    · rw [h, h']
  refine (report_keeps fun ht => by rw [hname ht]).eq_bind fun _ => ?_
  exact buildMethod_moves source hv draft

end Source

end Smalltalk
