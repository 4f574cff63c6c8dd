import Smalltalk.Proofs.IdentityMap
import Smalltalk.Proofs.Safety

/-!
# Dictionaries over time

A dictionary is a map from keys to values that tells keys apart by identity. Some are made and kept
on the scratch stack, keys are entered into them, other objects are made, and collections move
everything. After each step a dictionary answers the value that was entered last for a key, wherever
both have been moved, and nothing for any other key. What is entered into one of them does not show
in the others.

## Main definitions

* `Bindings`, `Bindings.Renames`: what a dictionary is to answer, and what becomes of it in a
  collection
* `MapOperation`, `Machine.PerformsOn`: operations on dictionaries, one after the other
* `Machine.Accounts`: such a run, with what each dictionary answers after each step

## Main results

* `Machine.Keeps.step`: one operation
* `dictionaries_are_identity_maps`
-/

namespace Smalltalk

open Memory Machine Layout

/-! ## What dictionaries are to answer -/

/-- Keys and their values. -/
abbrev Bindings := Value → Option Value

namespace Bindings

/-- No key has a value. -/
def none : Bindings := fun _ => Option.none

/-- A key is given a value. -/
def enter (f : Bindings) (key value : Value) : Bindings :=
  fun k => if k = key then some value else f k

/-- Keys and values have been moved at most. No key is lost, and what is new is no key. -/
structure Renames (σ : Renaming) (f f' : Bindings) : Prop where
  kept : ∀ k v, f k = some v → ∃ k', Value.Renames σ k k'
  moved : ∀ k k', Value.Renames σ k k' → Option.Rel (Value.Renames σ) (f k) (f' k')
  new : ∀ k', (∀ k, ¬ Value.Renames σ k k') → f' k' = Option.none

end Bindings

/-- What is to be answered by the dictionaries that are held at places of the scratch stack. -/
abbrev MapStore := Nat → Option Bindings

def MapStore.Renames (σ : Renaming) (S S' : MapStore) : Prop :=
  ∀ place, Option.Rel (Bindings.Renames σ) (S place) (S' place)

section Bindings

variable {T : Nat → Nat → Prop} {K : List Root} {σ : Renaming} {m m₁ : Machine} {D D' : Dict}

/-- What a dictionary answers is moved with it. -/
theorem Dict.Renames.lookup (he : m.Edits T K σ m₁) (h : D.Renames σ D') :
    Bindings.Renames σ D.lookup D'.lookup := by
  constructor
  case kept =>
    intro k v hv
    obtain ⟨y, hfind, -⟩ := Option.map_eq_some_iff.1 hv
    obtain rfl : y.key = k := by simpa using List.find?_some hfind
    obtain ⟨y', -, hy⟩ := exists_of_mem_left h.nodes (List.mem_of_find?_eq_some hfind)
    exact ⟨y'.key, hy.key⟩
  case moved => exact fun k k' hk => lookup_renames he h hk
  case new =>
    intro k' hk'
    refine Option.map_eq_none_iff.2 (List.find?_eq_none.2 fun y' hy' hkey => ?_)
    obtain ⟨y, -, hy⟩ := exists_of_mem_right h.nodes hy'
    obtain rfl : y'.key = k' := by simpa using hkey
    exact hk' _ hy.key

/-- A key is given a value, and both are moved. -/
theorem Bindings.Renames.enter (he : m.Edits T K σ m₁) {f f' : Bindings} {k k' v v' : Value}
    (h : Bindings.Renames σ f f') (hk : Value.Renames σ k k') (hv : Value.Renames σ v v') :
    Bindings.Renames σ (f.enter k v) (f'.enter k' v') := by
  constructor
  case kept =>
    intro u w hw
    by_cases huk : u = k
    · exact ⟨k', huk ▸ hk⟩
    · exact h.kept u w ((if_neg huk).symm.trans hw)
  case moved =>
    intro u u' hu
    unfold Bindings.enter
    by_cases huk : u = k
    · rw [if_pos huk, if_pos ((he.eq_iff hu hk).1 huk)]
      exact .some hv
    · rw [if_neg huk, if_neg (mt (he.eq_iff hu hk).2 huk)]
      exact h.moved u u' hu
  case new =>
    intro u' hu'
    have hne : u' ≠ k' := fun hc => hu' k (hc ▸ hk)
    exact (if_neg hne).trans (h.new u' hu')

theorem MapStore.Renames.update {S S' : MapStore} {f f' : Option Bindings} (h : S.Renames σ S')
    (hf : Option.Rel (Bindings.Renames σ) f f') (place : Nat) :
    MapStore.Renames σ (Function.update S place f) (Function.update S' place f') := by
  intro p
  by_cases hp : p = place
  · subst hp
    rwa [Function.update_self, Function.update_self]
  · rw [Function.update_of_ne hp, Function.update_of_ne hp]
    exact h p

end Bindings

/-! ## Operations -/

/-- What is done with dictionaries. -/
inductive MapOperation where
  | create (cls : Value) (buckets : Nat)
  | enter (place : Nat) (key value : Value)
  | make (cls : Value) (size : Nat) (kind : BodyKind)
  | collect

namespace MapOperation

/-- Performs an operation. A new dictionary is held behind what is held already. -/
def run : MapOperation → Exec Unit
  | .create cls buckets => do
    let dictionary ← newDictionary cls buckets
    discard (hold #[dictionary])
  | .enter place key value => do
    let dictionary ← held place
    dictionaryEnter dictionary key value
  | .make cls size kind => discard (createObject cls size kind)
  | .collect => collectGarbage

/-- Where dictionaries are held after an operation. -/
def places (m : Machine) (made : List Nat) : MapOperation → List Nat
  | .create _ _ => m.registers.scratch.size :: made
  | .enter _ _ _ | .make _ _ _ | .collect => made

/-- All values are values of the machine, and there is a dictionary where a key is entered. -/
def Applies (m : Machine) (made : List Nat) : MapOperation → Prop
  | .create cls buckets => m.memory.Holds cls ∧ 0 < buckets
  | .enter place key value => place ∈ made ∧ m.memory.Holds key ∧ m.memory.Holds value
  | .make cls _ _ => m.memory.Holds cls
  | .collect => True

/-- The key and the value that an operation enters. -/
def entered : MapOperation → List Value
  | .enter _ key value => [key, value]
  | .create _ _ | .make _ _ _ | .collect => []

/-- What dictionaries are to answer after an operation, if nothing is moved. -/
def update (m : Machine) (S : MapStore) : MapOperation → MapStore
  | .create _ _ => Function.update S m.registers.scratch.size (some .none)
  | .enter place key value => Function.update S place ((S place).map (·.enter key value))
  | .make _ _ _ | .collect => S

end MapOperation

namespace Machine

/-- Operations are performed one after the other. -/
inductive PerformsOn : Machine → List Nat → List MapOperation → Machine → Prop
  | nil (m : Machine) (made : List Nat) : PerformsOn m made [] m
  | cons {m m₁ m₂ : Machine} {made : List Nat} {op : MapOperation} {ops : List MapOperation}
      (happlies : op.Applies m made) (hrun : op.run m = .ok () m₁)
      (hrest : PerformsOn m₁ (op.places m made) ops m₂) : PerformsOn m made (op :: ops) m₂

/-- **The dictionary that is held at a place** is in order, and answers what it is to answer. -/
def Answers (m : Machine) (place : Nat) (f : Bindings) : Prop :=
  ∃ D : Dict, m.registers.scratch[place]? = some (.ref D.object) ∧ m.IsMap D ∧
    ∀ key, m.memory.Holds key → m.dictionaryLookup (.ref D.object) key = .ok (f key)

/-- Operations are performed, and after each of them all dictionaries answer what was entered.
Nothing is lost that can be reached. -/
inductive Accounts : Machine → MapStore → List MapOperation → Machine → MapStore → Prop
  | nil (m : Machine) (S : MapStore) : Accounts m S [] m S
  | cons {m m₁ m₂ : Machine} {S S₁ S₂ : MapStore} {op : MapOperation} {ops : List MapOperation}
      {σ : Renaming} (hrun : op.run m = .ok () m₁) (hfollows : m.Follows [] σ m₁)
      (hkept : m.Preserves σ op.entered) (hstore : MapStore.Renames σ (op.update m S) S₁)
      (hanswers : ∀ place f, S₁ place = some f → m₁.Answers place f)
      (hrest : Accounts m₁ S₁ ops m₂ S₂) : Accounts m S (op :: ops) m₂ S₂

/-! ## The dictionaries -/

/-- There are these dictionaries, each held at its place. -/
structure Keeps (m : Machine) (Ds : Nat → Option Dict) : Prop extends Family m Ds where
  held : ∀ p D, Ds p = some D → m.registers.scratch[p]? = some (.ref D.object)

/-- What dictionaries answer. -/
def lookups (Ds : Nat → Option Dict) : MapStore := fun p => (Ds p).map Dict.lookup

section Keeping

variable {σ : Renaming} {m m₁ : Machine} {S : MapStore} {Ds Ds₁ : Nat → Option Dict} {D : Dict}
  {place : Nat} {f : Bindings}

theorem keeps_nothing (m : Machine) : m.Keeps fun _ => none where
  isMap := nofun
  apart := nofun
  held := nofun

theorem lookups_update (Ds : Nat → Option Dict) (place : Nat) (D : Dict) :
    lookups (Function.update Ds place (some D)) =
      Function.update (lookups Ds) place (some D.lookup) := by
  funext p
  by_cases hp : p = place
  · subst hp
    rw [lookups, Function.update_self, Function.update_self]
    rfl
  · rw [lookups, Function.update_of_ne hp, Function.update_of_ne hp]
    rfl

theorem Keeps.answers (hm : m.WellFormed) (h : m.Keeps Ds) (hf : lookups Ds place = some f) :
    m.Answers place f := by
  obtain ⟨D, hD, rfl⟩ := Option.map_eq_some_iff.1 hf
  exact ⟨D, h.held place D hD, h.isMap place D hD,
    fun key => (h.isMap place D hD).dictionaryLookup hm⟩

/-- With another dictionary at a place. -/
theorem keeps_update (hfamily : m.Family (Function.update Ds place (some D)))
    (hheld : m.registers.scratch[place]? = some (.ref D.object))
    (hothers : ∀ p E, p ≠ place → Ds p = some E → m.registers.scratch[p]? = some (.ref E.object)) :
    m.Keeps (Function.update Ds place (some D)) := by
  refine ⟨hfamily, fun p E hE => ?_⟩
  by_cases hp : p = place
  · subst hp
    rw [Function.update_self] at hE
    rw [hheld, Option.some.inj hE]
  · rw [Function.update_of_ne hp] at hE
    exact hothers p E hp hE

/-- What is held stays there, so all dictionaries do. -/
theorem Keeps.moved {T : Nat → Nat → Prop} {K : List Root} (he : m.Edits T K σ m₁) (h : m.Keeps Ds)
    (hmoved : Dict.Moved σ Ds Ds₁) :
    MapStore.Renames σ (lookups Ds) (lookups Ds₁) ∧
      ∀ p D', Ds₁ p = some D' → m₁.registers.scratch[p]? = some (.ref D'.object) := by
  have hkept : ∀ p D, Ds p = some D → ∃ D', Ds₁ p = some D' ∧ D.Renames σ D' ∧
      m₁.registers.scratch[p]? = some (.ref D'.object) := by
    intro p D hD
    obtain ⟨w, hw, hren⟩ := he.held p _ (h.held p D hD)
    obtain ⟨D', hD', hren', rfl⟩ := hmoved.kept p D w hD hren
    exact ⟨D', hD', hren', hw⟩
  constructor
  · intro p
    unfold lookups
    cases hp : Ds p with
    | none =>
      have hnone : Ds₁ p = none := Option.eq_none_iff_forall_ne_some.2 fun D' hD' => by
        obtain ⟨D, hD, -⟩ := hmoved.old p D' hD'
        cases hp.symm.trans hD
      rw [hnone]
      exact .none
    | some D =>
      obtain ⟨D', hD', hren, -⟩ := hkept p D hp
      rw [hD']
      exact .some (hren.lookup he)
  · intro p D' hD'
    obtain ⟨D, hD, -⟩ := hmoved.old p D' hD'
    obtain ⟨D₂, hD₂, -, hheld⟩ := hkept p D hD
    obtain rfl := Option.some.inj (hD'.symm.trans hD₂)
    exact hheld

/-! ## What operations do to them -/

/-- An operation leaves the dictionaries in order, with what was entered. -/
def Maintains (m : Machine) (entered : List Value) (S : MapStore) (m₁ : Machine) : Prop :=
  ∃ σ Ds₁, m.Follows [] σ m₁ ∧ m.Preserves σ entered ∧ m₁.WellFormed ∧
    MapStore.Renames σ S (lookups Ds₁) ∧ m₁.Keeps Ds₁

/-- Nothing is done to dictionaries. -/
theorem Keeps.untouched (h : m.Keeps Ds) (he : m.Edits Machine.untouched [] σ m₁) :
    ∃ Ds₁, Dict.Moved σ Ds Ds₁ ∧ m₁.Keeps Ds₁ := by
  obtain ⟨Ds₁, hmoved, hfamily⟩ := h.toFamily.edits he fun _ _ _ _ _ _ => id
  exact ⟨Ds₁, hmoved, hfamily, (h.moved he hmoved).2⟩

theorem Keeps.maintains (h : m.Keeps Ds) (he : m.Edits Machine.untouched [] σ m₁) :
    m.Maintains [] (lookups Ds) m₁ := by
  obtain ⟨Ds₁, hmoved, hkeeps⟩ := h.untouched he
  exact ⟨σ, Ds₁, he.toFollows, he.preserves he.closed (by simp), he.after,
    (h.moved he hmoved).1, hkeeps⟩

theorem Keeps.create (hm : m.WellFormed) (h : m.Keeps Ds) {cls : Value} {n : Nat}
    (hcls : m.memory.Holds cls) (hn : 0 < n)
    (hrun : (MapOperation.create cls n).run m = .ok () m₁) :
    m.Maintains [] ((MapOperation.create cls n).update m (lookups Ds)) m₁ := by
  obtain ⟨_, m₂, hnew, hrun⟩ := bind_eq_ok hrun
  obtain ⟨σ, D, rfl, he, hD, hlookup, hfresh⟩ := newDictionary_eq_ok hm hcls hn hnew
  obtain ⟨Ds₂, hmoved, hkeeps⟩ := h.untouched he
  obtain ⟨base, hhold⟩ := discard_eq_ok hrun
  obtain ⟨-, rfl⟩ := hold_eq_ok hhold
  have hpushed : ∀ (i : Nat) (w : Value), m₂.registers.scratch[i]? = some w →
      (m₂.registers.scratch ++ #[.ref D.object])[i]? = some w := by
    intro i w hw
    rw [Array.getElem?_append_left (Array.getElem?_eq_some_iff.1 hw).1, hw]
  have hlast : (m₂.registers.scratch ++ #[.ref D.object])[m.registers.scratch.size]? =
      some (.ref D.object) := by
    rw [← he.size, Array.getElem?_append_right (Nat.le_refl _), Nat.sub_self]
    rfl
  have hkeeps₁ : (m₂.withScratch (m₂.registers.scratch ++ #[.ref D.object])).Keeps Ds₂ :=
    ⟨⟨fun p E hE => (hkeeps.isMap p E hE).withScratch, hkeeps.apart⟩,
      fun p E hE => hpushed p _ (hkeeps.held p E hE)⟩
  have hfamily := hkeeps₁.toFamily.insert hD.withScratch (i := m.registers.scratch.size)
    fun p E _ hE x hx hx' => by
      obtain ⟨E₀, -, hren⟩ := hmoved.old p E hE
      obtain ⟨y, -, hy⟩ := hren.part hx'
      exact hfresh x hx y hy
  refine ⟨σ, _, ?_, he.preserves he.closed (by simp), he.after.hold hD.held, ?_,
    keeps_update hfamily hlast fun p E _ => hkeeps₁.held p E⟩
  · refine { he.toFollows with held := fun i v hv => ?_ }
    obtain ⟨w, hw, hren⟩ := he.held i v hv
    exact ⟨w, hpushed i w hw, hren⟩
  · rw [lookups_update, hlookup]
    exact (h.moved he hmoved).1.update
      (.some ⟨fun _ _ hc => (Option.some_ne_none _ hc.symm).elim, fun _ _ _ => .none,
        fun _ _ => rfl⟩) _

theorem Keeps.enter (hm : m.WellFormed) (h : m.Keeps Ds) {k v : Value} (hD : Ds place = some D)
    (hk : m.memory.Holds k) (hv : m.memory.Holds v)
    (hrun : (MapOperation.enter place k v).run m = .ok () m₁) :
    m.Maintains [k, v] ((MapOperation.enter place k v).update m (lookups Ds)) m₁ := by
  have hrun : dictionaryEnter (m.registers.scratch.getD place Value.zeroRef) k v m = .ok () m₁ :=
    hrun
  rw [Array.getD_eq_getD_getElem?, h.held place D hD] at hrun
  obtain ⟨σ, Ds₁, D₁, D₂, k', v', he, hclosed, hk', hv', hmoved, hfamily, hobject, hlookup, -⟩ :=
    h.toFamily.enter hm hD hk hv hrun
  obtain ⟨hstore, hheld⟩ := h.moved he hmoved
  have hplace := hheld place D₁ (Function.update_self ..)
  have hentered : ∀ u ∈ [k, v], ∃ w, Value.Renames σ u w :=
    List.forall_mem_cons.2 ⟨⟨k', hk'⟩, List.forall_mem_singleton.2 ⟨v', hv'⟩⟩
  refine ⟨σ, _, he.toFollows, he.preserves hclosed hentered, he.after, ?_,
    keeps_update hfamily (hobject ▸ hplace) fun p E hp hE =>
      hheld p E ((Function.update_of_ne hp ..).trans hE)⟩
  have hbefore : lookups Ds place = some D.lookup := by rw [lookups, hD, Option.map_some]
  rw [lookups_update] at hstore
  have hmap := hstore place
  rw [hbefore, Function.update_self] at hmap
  cases hmap with
  | some hmap =>
    have hentered : D₂.lookup = Bindings.enter D₁.lookup k' v' := funext hlookup
    have hall := hstore.update (.some (hentered ▸ hmap.enter he hk' hv')) place
    rw [Function.update_idem] at hall
    rw [MapOperation.update, hbefore, lookups_update]
    exact hall

/-- **One operation.** -/
theorem Keeps.step (hm : m.WellFormed) (h : m.Keeps Ds) {op : MapOperation} {made : List Nat}
    (hmade : ∀ p ∈ made, (lookups Ds p).isSome) (happlies : op.Applies m made)
    (hrun : op.run m = .ok () m₁) : m.Maintains op.entered (op.update m (lookups Ds)) m₁ := by
  cases op with
  | create cls n => exact h.create hm happlies.1 happlies.2 hrun
  | enter place key value =>
    obtain ⟨hplace, hkey, hvalue⟩ := happlies
    obtain ⟨D, hD⟩ := Option.isSome_iff_exists.1 (Option.isSome_map.symm.trans (hmade place hplace))
    exact h.enter hm hD hkey hvalue hrun
  | make cls size kind =>
    obtain ⟨_, hcreate⟩ := discard_eq_ok hrun
    obtain ⟨σ, a, -, hcreated⟩ := createObject_eq_ok hm happlies hcreate
    exact h.maintains (hcreated.toShifted.edits hm)
  | collect =>
    obtain ⟨σ, m₂, hcollect, hshifted, -⟩ := collectGarbage_eq hm
    obtain ⟨-, rfl⟩ := EStateM.Result.ok.inj (hcollect.symm.trans hrun)
    exact h.maintains (hshifted.edits hm)

/-- Where dictionaries are held, there is something to be answered. -/
theorem isSome_of_places {S₁ : MapStore} {op : MapOperation} {made : List Nat}
    (hmade : ∀ p ∈ made, (S p).isSome) (hS : MapStore.Renames σ (op.update m S) S₁) :
    ∀ p ∈ op.places m made, (S₁ p).isSome := by
  have hold : ∀ p ∈ op.places m made, (op.update m S p).isSome := by
    intro p hp
    cases op with
    | create cls n =>
      show (Function.update S _ _ p).isSome
      by_cases hlast : p = m.registers.scratch.size
      · rw [hlast, Function.update_self]
        rfl
      · rw [Function.update_of_ne hlast]
        exact hmade p ((List.mem_cons.1 hp).resolve_left hlast)
    | enter place key value =>
      show (Function.update S _ _ p).isSome
      by_cases hplace : p = place
      · rw [hplace, Function.update_self, Option.isSome_map]
        exact hmade place (hplace ▸ hp)
      · rw [Function.update_of_ne hplace]
        exact hmade p hp
    | make cls size kind => exact hmade p hp
    | collect => exact hmade p hp
  intro p hp
  have hsome := hold p hp
  have hrel := hS p
  generalize op.update m S p = f, S₁ p = f₁ at hrel hsome ⊢
  cases hrel with
  | none => cases hsome
  | some _ => rfl

end Keeping

end Machine

/-- **Dictionaries are identity maps.** There may be dictionaries already, and more of them are
made. After each operation every one of them answers the value that was entered last for a key, and
nothing for a key that was never entered, whatever has been moved meanwhile. Nothing is lost that
can be reached, and so no key and no value. Chains end in nil, each key is in the chain of its hash
and in no other link, and what is entered into one dictionary does not show in another. -/
theorem dictionaries_are_identity_maps (m m₁ : Machine) (Ds : Nat → Option Dict) (made : List Nat)
    (ops : List MapOperation) (hm : m.WellFormed) (hkeeps : m.Keeps Ds)
    (hmade : ∀ p ∈ made, (lookups Ds p).isSome) (hops : m.PerformsOn made ops m₁) :
    ∃ S₁, m.Accounts (lookups Ds) ops m₁ S₁ := by
  induction hops generalizing Ds with
  | nil m made => exact ⟨_, .nil m _⟩
  | @cons m m₁ m₂ made op ops happlies hrun hrest ih =>
    obtain ⟨σ, Ds₁, hfollows, hkept, hm₁, hS₁, hkeeps₁⟩ := hkeeps.step hm hmade happlies hrun
    obtain ⟨S₂, haccounts⟩ := ih Ds₁ hm₁ hkeeps₁ (isSome_of_places hmade hS₁)
    exact ⟨S₂, .cons hrun hfollows hkept hS₁ (fun place f hf => hkeeps₁.answers hm₁ hf) haccounts⟩

/-! ### A small machine -/

/-- Two keys are entered into a dictionary with one chain, and the second gets another value. -/
def sampleOperations : List MapOperation :=
  [.create (.ref Address.zero) 1, .enter 0 (.ref Address.zero) (.ofByte 9),
    .enter 0 (.ofByte 7) (.ofByte 8), .enter 0 (.ofByte 7) (.ofByte 10)]

/-- The machine after operations. -/
def Machine.after (m : Machine) : List MapOperation → Machine
  | [] => m
  | op :: ops => (machineOf (op.run m)).after ops

set_option maxRecDepth 100000 in
theorem run_sampleOperations :
    ∀ n : Fin sampleOperations.length, answerOf ((sampleOperations.get n).run
    ((Machine.empty pairOfObjects).after (sampleOperations.take n))) = some () := by
  decide +kernel

set_option maxRecDepth 100000 in
theorem nil_after_create :
    ((Machine.empty pairOfObjects).after (sampleOperations.take 1)).registers.get
    .nil = .ref Address.zero := by
  decide +kernel

theorem performsOn_sampleOperations : (Machine.empty pairOfObjects).PerformsOn [] sampleOperations
    ((Machine.empty pairOfObjects).after sampleOperations) := by
  have hm := wellFormed_empty_pairOfObjects
  have hrun := fun n hn => eq_ok_of_answerOf (run_sampleOperations ⟨n, hn⟩)
  have hcreate : (MapOperation.create (.ref Address.zero) 1).Applies
      (Machine.empty pairOfObjects) [] :=
    ⟨hm.registers.get .nil, by decide⟩
  obtain ⟨_, _, -, -, hm₁, -⟩ := (keeps_nothing _).step hm (by simp) hcreate (hrun 0 (by decide))
  have hzero := nil_after_create ▸ hm₁.registers.get .nil
  exact .cons hcreate (hrun 0 (by decide)) <|
    .cons ⟨List.mem_cons_self, hzero, .small _⟩ (hrun 1 (by decide)) <|
    .cons ⟨List.mem_cons_self, .small _, .small _⟩ (hrun 2 (by decide)) <|
    .cons ⟨List.mem_cons_self, .small _, .small _⟩ (hrun 3 (by decide)) (.nil _ _)

theorem dictionaries_are_identity_maps_sample :
    ∃ m₁ S₁, (Machine.empty pairOfObjects).PerformsOn [] sampleOperations m₁ ∧
      (Machine.empty pairOfObjects).Accounts (fun _ => none) sampleOperations m₁ S₁ := by
  have hops := performsOn_sampleOperations
  obtain ⟨S₁, haccounts⟩ := dictionaries_are_identity_maps _ _ _ [] _ wellFormed_empty_pairOfObjects
    (keeps_nothing _) (by simp) hops
  exact ⟨_, S₁, hops, haccounts⟩

end Smalltalk
