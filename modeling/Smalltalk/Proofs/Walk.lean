import Smalltalk.Machine.Dictionary
import Smalltalk.Proofs.Simulation.Access

/-!
# Walks that end, and walks in circles

Three functions of the machine follow references until they find something: along a chain of links,
and twice along the superclasses of a class. Each is told how many steps it may take, and the number
is taken from the bytes in use, so it is different in two machines with the same objects.

It makes no difference. A walk that ends passes no object twice: from each object it goes on in one
way only, so the number of steps that remain tells the objects apart. Hence it ends within as many
steps as there are objects, and more steps change nothing. A walk that does not end within that many
is in a circle, and however many steps it is given it has found nothing.

## Main definitions

* `EndsAfter`: a walk ends after exactly so many steps

## Main results

* `EndsAfter.le_length`: a walk that ends is no longer than the list of objects it can pass
* `walk_eq_walk`: the number of steps makes no difference once it is larger than that
* `Machine.findInChain_eq`, `Machine.findMethodFrom_eq`, `Machine.superclassChain_eq`
-/

namespace Smalltalk

open Layout Memory

/-! ## Walks -/

/-- Following `next` from a place ends after exactly so many steps. -/
def EndsAfter {α : Type} (next : α → Option α) : Nat → α → Prop
  | 0, a => next a = none
  | k + 1, a => ∃ b, next a = some b ∧ EndsAfter next k b

section Walks

variable {α γ : Type} {next : α → Option α} {a : α} {j k : Nat}

theorem EndsAfter.unique (hj : EndsAfter next j a) (hk : EndsAfter next k a) : j = k := by
  induction j generalizing k a with
  | zero =>
    cases k with
    | zero => rfl
    | succ k =>
      obtain ⟨b, hb, -⟩ := hk
      rw [EndsAfter, hb] at hj
      cases hj
  | succ j ih =>
    obtain ⟨b, hb, hj⟩ := hj
    cases k with
    | zero =>
      rw [EndsAfter, hb] at hk
      cases hk
    | succ k =>
      obtain ⟨c, hc, hk⟩ := hk
      obtain rfl := Option.some.inj (hb.symm.trans hc)
      rw [ih hj hk]

/-- The places that a walk passes are different, because different numbers of steps remain. -/
theorem EndsAfter.path {P : α → Prop} {places : List α}
    (hnext : ∀ a b, P a → next a = some b → a ∈ places ∧ P b) (ha : P a)
    (hk : EndsAfter next k a) :
    ∃ path : List α, path.length = k ∧ path.Nodup ∧ path ⊆ places ∧
      ∀ b ∈ path, ∃ j, 0 < j ∧ j ≤ k ∧ EndsAfter next j b := by
  induction k generalizing a with
  | zero => exact ⟨[], rfl, List.nodup_nil, List.nil_subset _, nofun⟩
  | succ k ih =>
    obtain ⟨b, hb, hk'⟩ := id hk
    obtain ⟨hmem, hb⟩ := hnext a b ha hb
    obtain ⟨path, hlen, hnodup, hsub, hsteps⟩ := ih hb hk'
    refine ⟨a :: path, by rw [List.length_cons, hlen], List.nodup_cons.2 ⟨fun hin => ?_, hnodup⟩,
      List.cons_subset.2 ⟨hmem, hsub⟩, fun c hc => ?_⟩
    · obtain ⟨j, -, hjk, hj⟩ := hsteps a hin
      have heq := hj.unique hk
      omega
    · rcases List.mem_cons.1 hc with rfl | hc
      · exact ⟨k + 1, Nat.succ_pos k, le_rfl, hk⟩
      · obtain ⟨j, hpos, hle, hj⟩ := hsteps c hc
        exact ⟨j, hpos, Nat.le_succ_of_le hle, hj⟩

/-- **A walk that ends is no longer than the list of places it can pass.** -/
theorem EndsAfter.le_length {P : α → Prop} {places : List α}
    (hnext : ∀ a b, P a → next a = some b → a ∈ places ∧ P b) (ha : P a)
    (hk : EndsAfter next k a) : k ≤ places.length := by
  obtain ⟨path, rfl, hnodup, hsub, -⟩ := hk.path hnext ha
  exact (hnodup.subperm hsub).length_le

variable {walk : Nat → α → γ} {lost : γ} {extend : α → γ → γ}

/-- More steps than it takes to the end change nothing. -/
theorem walk_of_endsAfter (hstop : ∀ k a, next a = none → walk (k + 1) a = walk 1 a)
    (hgo : ∀ k a b, next a = some b → walk (k + 1) a = extend a (walk k b))
    (h : EndsAfter next j a) (hjk : j < k) : walk k a = walk (j + 1) a := by
  induction j generalizing k a with
  | zero =>
    obtain ⟨k, rfl⟩ := Nat.exists_eq_succ_of_ne_zero (by omega : k ≠ 0)
    exact hstop k a h
  | succ j ih =>
    obtain ⟨k, rfl⟩ := Nat.exists_eq_succ_of_ne_zero (by omega : k ≠ 0)
    obtain ⟨b, hb, h⟩ := h
    rw [hgo k a b hb, hgo (j + 1) a b hb, ih h (by omega)]

/-- A walk that does not come to its end has found nothing. -/
theorem walk_of_not_endsAfter (hzero : ∀ a, walk 0 a = lost)
    (hgo : ∀ k a b, next a = some b → walk (k + 1) a = extend a (walk k b))
    (hlost : ∀ a, extend a lost = lost) (h : ∀ j < k, ¬ EndsAfter next j a) : walk k a = lost := by
  induction k generalizing a with
  | zero => exact hzero a
  | succ k ih =>
    cases hb : next a with
    | none => exact absurd hb (h 0 (Nat.succ_pos k))
    | some b =>
      rw [hgo k a b hb, ih fun j hj hend => h (j + 1) (by omega) ⟨b, hb, hend⟩, hlost]

/-- **The number of steps makes no difference** once it is larger than the number of places. -/
theorem walk_eq_walk {P : α → Prop} {places : List α}
    (hnext : ∀ a b, P a → next a = some b → a ∈ places ∧ P b) (hzero : ∀ a, walk 0 a = lost)
    (hstop : ∀ k a, next a = none → walk (k + 1) a = walk 1 a)
    (hgo : ∀ k a b, next a = some b → walk (k + 1) a = extend a (walk k b))
    (hlost : ∀ a, extend a lost = lost) (ha : P a) {k k' : Nat} (hk : places.length < k)
    (hk' : places.length < k') : walk k a = walk k' a := by
  by_cases h : ∃ j, EndsAfter next j a
  · obtain ⟨j, hj⟩ := h
    have hle := hj.le_length hnext ha
    rw [walk_of_endsAfter hstop hgo hj (by omega : j < k),
      walk_of_endsAfter hstop hgo hj (by omega : j < k')]
  · have hnever : ∀ j, ¬ EndsAfter next j a := fun j hj => h ⟨j, hj⟩
    rw [walk_of_not_endsAfter hzero hgo hlost fun j _ => hnever j,
      walk_of_not_endsAfter hzero hgo hlost fun j _ => hnever j]

end Walks

/-! ## Walks through the heap -/

section Heap

variable {m : Memory} {v w : Value}

theorem Memory.Holds.mem_objects {a : Address} (h : m.Holds (.ref a)) : .ref a ∈ m.objects := by
  refine List.mem_filterMap.2 ⟨a.offset, h.mem, ?_⟩
  rw [Address.ofNat?, dif_pos a.offset_lt]
  rfl

/-- What a field holds belongs to the heap, and only objects have fields. -/
theorem Memory.WellFormed.holds_getPtr (hm : m.WellFormed) (hv : m.Holds v) {i : Nat}
    (h : m.getPtr v i = .ok w) : v ∈ m.objects ∧ m.Holds w := by
  constructor
  · cases hv with
    | small n => cases h
    | ref ha => exact (Memory.Holds.ref ha).mem_objects
  · have hc := Corresponds.refl hm
    obtain ⟨a, a', ha, -, hren⟩ | ⟨e, -, he, -⟩ :=
      (hc.getPtr (σ := fun _ _ => False) (.refl hv) i).cases
    · obtain rfl := Except.ok.inj (h.symm.trans ha)
      exact hc.holds_left hren
    · cases h.symm.trans he

theorem Memory.WellFormed.length_objects_le (hm : m.WellFormed) :
    m.objects.length ≤ m.usedBytes := by
  have hsum : m.headers.length ≤ (m.headers.map m.extentAt).sum := by
    have h := List.length_le_sum_of_one_le (m.headers.map m.extentAt) (by
      intro i hi
      obtain ⟨o, -, rfl⟩ := List.mem_map.1 hi
      exact m.extentAt_pos o)
    rwa [List.length_map] at h
  have hend := hm.tiled.end_eq
  have hfilter : m.objects.length ≤ m.headers.length := List.length_filterMap_le _ _
  rw [Memory.usedBytes]
  omega

end Heap

namespace Machine

variable {m : Machine} {v w : Value}

/-- Where a walk goes on: in a field of the object, unless the walk ends there. -/
def onward (m : Machine) (field : Nat) (goesOn : Value → Bool) (v : Value) : Option Value :=
  if v ≠ m.nil ∧ goesOn v then (m.memory.getPtr v field).toOption else none

theorem onward_eq_some {field : Nat} {goesOn : Value → Bool}
    (h : m.onward field goesOn v = some w) :
    v ≠ m.nil ∧ goesOn v ∧ m.memory.getPtr v field = .ok w := by
  unfold onward at h
  split at h
  · rename_i hc
    cases hget : m.memory.getPtr v field with
    | error e => simp [hget, Except.toOption] at h
    | ok u =>
      simp only [hget, Except.toOption, Option.some.injEq] at h
      exact ⟨hc.1, hc.2, h ▸ rfl⟩
  · cases h

theorem onward_eq_none {field : Nat} {goesOn : Value → Bool} (h : m.onward field goesOn v = none) :
    v = m.nil ∨ goesOn v = false ∨ ∃ e, m.memory.getPtr v field = .error e := by
  by_cases hnil : v = m.nil
  · exact .inl hnil
  cases hgo : goesOn v with
  | false => exact .inr (.inl rfl)
  | true =>
    cases hget : m.memory.getPtr v field with
    | error e => exact .inr (.inr ⟨e, rfl⟩)
    | ok w => simp [onward, hnil, hgo, hget, Except.toOption] at h

/-- A walk along a field gives the same however many steps it is allowed, if only they are enough.
-/
theorem walk_eq_of_onward {γ : Type} (hm : m.memory.WellFormed) (field : Nat)
    (goesOn : Value → Bool) (walk : Nat → Value → γ) (lost : γ) (extend : Value → γ → γ)
    (hzero : ∀ v, walk 0 v = lost)
    (hstop : ∀ k v, m.onward field goesOn v = none → walk (k + 1) v = walk 1 v)
    (hgo : ∀ k v w, m.onward field goesOn v = some w → walk (k + 1) v = extend v (walk k w))
    (hlost : ∀ v, extend v lost = lost) (hv : m.memory.Holds v) {k k' : Nat}
    (hk : m.chainBound ≤ k) (hk' : m.chainBound ≤ k') : walk k v = walk k' v := by
  have hle : m.memory.objects.length < m.chainBound := Nat.lt_succ_of_le hm.length_objects_le
  refine walk_eq_walk (P := m.memory.Holds) (fun a b ha hb => ?_) hzero hstop hgo hlost hv
    (hle.trans_le hk) (hle.trans_le hk')
  obtain ⟨-, -, hget⟩ := onward_eq_some hb
  exact hm.holds_getPtr ha hget

/-- Chains of links. -/
theorem findInChain_eq (hm : m.memory.WellFormed) (test : Value → Except Fault Bool)
    (hv : m.memory.Holds v) {k k' : Nat} (hk : m.chainBound ≤ k) (hk' : m.chainBound ≤ k') :
    m.findInChain test k v = m.findInChain test k' v := by
  let goesOn (link : Value) : Bool := (test link).toOption == some false
  refine walk_eq_of_onward hm Link.next goesOn (m.findInChain test) (.ok none)
    (fun _ found => found) (fun _ => rfl) (fun k v h => ?_) (fun k v w h => ?_)
    (fun _ => rfl) hv hk hk'
  · simp only [findInChain]
    rcases onward_eq_none h with h | h | ⟨e, h⟩
    · simp only [h, if_true]
    · split
      · rfl
      · cases ht : test v with
        | error e => rfl
        | ok b =>
          cases b with
          | true => rfl
          | false => simp [goesOn, ht, Except.toOption] at h
    · simp only [h]
      rfl
  · obtain ⟨hnil, hgo, hget⟩ := onward_eq_some h
    simp only [findInChain, hnil, if_false, hget]
    cases ht : test v with
    | error e => simp [goesOn, ht, Except.toOption] at hgo
    | ok b =>
      cases b with
      | true => simp [goesOn, ht, Except.toOption] at hgo
      | false => rfl

/-- What a class itself has for a selector. -/
def ownMethod (m : Machine) (selector cls : Value) : Except Fault (Option Value) := do
  let methods ← m.memory.getPtr cls Behavior.methods
  if methods = m.nil then pure none else m.dictionaryLookup methods selector

theorem findMethodFrom_succ (m : Machine) (selector : Value) (k : Nat) (cls : Value) :
    m.findMethodFrom selector (k + 1) cls =
      if cls = m.nil then .ok none
      else
        match m.ownMethod selector cls with
        | .error e => .error e
        | .ok (some method) => .ok (some method)
        | .ok none =>
          m.memory.getPtr cls Behavior.superclass >>= fun cls =>
            m.findMethodFrom selector k cls := by
  simp only [findMethodFrom, ownMethod]
  split
  · rfl
  · cases m.memory.getPtr cls Behavior.methods with
    | error e => rfl
    | ok methods =>
      simp only [bind, Except.bind, pure, Except.pure]
      split
      · rfl
      · cases m.dictionaryLookup methods selector with
        | error e => rfl
        | ok found => cases found <;> rfl

/-- Superclasses, in search of a method. -/
theorem findMethodFrom_eq (hm : m.memory.WellFormed) (selector : Value) (hv : m.memory.Holds v)
    {k k' : Nat} (hk : m.chainBound ≤ k) (hk' : m.chainBound ≤ k') :
    m.findMethodFrom selector k v = m.findMethodFrom selector k' v := by
  let goesOn (cls : Value) : Bool := (m.ownMethod selector cls).toOption == some none
  refine walk_eq_of_onward hm Behavior.superclass goesOn (m.findMethodFrom selector) (.ok none)
    (fun _ found => found) (fun _ => rfl) (fun k v h => ?_) (fun k v w h => ?_) (fun _ => rfl) hv hk
    hk'
  · rw [findMethodFrom_succ, findMethodFrom_succ]
    rcases onward_eq_none h with h | h | ⟨e, h⟩
    · rw [if_pos h, if_pos h]
    · split
      · rfl
      · cases hown : m.ownMethod selector v with
        | error e => rfl
        | ok found =>
          cases found with
          | some method => rfl
          | none => simp [goesOn, hown, Except.toOption] at h
    · rw [h]
      rfl
  · obtain ⟨hnil, hgo, hget⟩ := onward_eq_some h
    rw [findMethodFrom_succ, if_neg hnil, hget]
    cases hown : m.ownMethod selector v with
    | error e => simp [goesOn, hown, Except.toOption] at hgo
    | ok found =>
      cases found with
      | some method => simp [goesOn, hown, Except.toOption] at hgo
      | none => rfl

/-- Superclasses, all of them. -/
theorem superclassChain_eq (hm : m.memory.WellFormed) (hv : m.memory.Holds v) {k k' : Nat}
    (hk : m.chainBound ≤ k) (hk' : m.chainBound ≤ k') :
    m.superclassChain k v = m.superclassChain k' v := by
  refine walk_eq_of_onward hm Behavior.superclass (fun _ => true) m.superclassChain (.ok none)
    (fun cls above => above.map (Option.map (cls :: ·))) (fun _ => rfl) (fun k v h => ?_)
    (fun k v w h => ?_) (fun _ => rfl) hv hk hk'
  · simp only [superclassChain]
    rcases onward_eq_none h with h | h | ⟨e, h⟩
    · rw [if_pos h, if_pos h]
    · cases h
    · rw [h]
      rfl
  · obtain ⟨hnil, -, hget⟩ := onward_eq_some h
    rw [superclassChain, if_neg hnil, hget]
    cases hw : m.superclassChain k w with
    | error e => simp [hw, bind, Except.bind, Except.map]
    | ok above => simp [hw, bind, Except.bind, Except.map, pure, Except.pure]

end Machine

end Smalltalk
