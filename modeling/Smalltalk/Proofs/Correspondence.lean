import Smalltalk.Proofs.Relocation
import Smalltalk.Proofs.Store

/-!
# Heaps that look alike

Two heaps *correspond* under a renaming if the renaming pairs objects that match, each with at most
one other. Objects that are not paired are of no consequence: they may be garbage, and there may be
any number of them on either side. So a heap corresponds to what a collection makes of it, and two
heaps that correspond go on corresponding when either of them is collected, when both are written to
alike, and when both get a new object.

Nothing is said of reachability. That the values which matter are paired is said where they are
used.

## Main definitions

* `Memory.Corresponds`: the objects that the renaming pairs match

## Main results

* `Memory.Corresponds.eq_iff`: values are equal on one side if they are on the other
* `Memory.Corresponds.store`, `Memory.Corresponds.place`, `Memory.Corresponds.after`: what keeps
  the correspondence
-/

namespace Smalltalk

namespace Renaming

/-- The renaming seen from the other side. -/
def inverse (ρ : Renaming) : Renaming := fun a b => ρ b a

/-- What `ρ` says about objects, said about where `σ` has moved them to. -/
def after (ρ σ : Renaming) : Renaming := fun a b => ∃ o, σ o a ∧ ρ o b

/-- One more pair. -/
def add (ρ : Renaming) (a b : Nat) : Renaming := fun x y => ρ x y ∨ (x = a ∧ y = b)

end Renaming

namespace Value.Renames

variable {ρ σ : Renaming} {v w u : Value}

theorem inverse (h : Renames ρ v w) : Renames ρ.inverse w v := by
  cases h with
  | small n => exact .small n
  | ref h => exact .ref h

theorem after (h : Renames σ v w) (h' : Renames ρ v u) : Renames (ρ.after σ) w u := by
  cases h with
  | small n =>
    cases h' with
    | small n => exact .small n
  | ref h =>
    cases h' with
    | ref h' => exact .ref ⟨_, h, h'⟩

theorem add (h : Renames ρ v w) (a b : Nat) : Renames (ρ.add a b) v w :=
  h.mono fun _ _ hab => .inl hab

theorem isSmall (h : Renames ρ v w) : v.isSmall = w.isSmall := by
  cases h with
  | small n => rfl
  | ref h => rfl

theorem refl {m : Memory} (h : m.Holds v) :
    Renames (fun a b => a ∈ m.headers ∧ a = b) v v := by
  cases h with
  | small n => exact .small n
  | ref ha => exact .ref ⟨ha, rfl⟩

/-- Under a renaming that pairs each object with at most one other, values are the same if they are
renamed to the same. -/
theorem eq_iff {v' w' : Value} (hfunctional : ∀ a b b', ρ a b → ρ a b' → b = b')
    (hinjective : ∀ a a' b, ρ a b → ρ a' b → a = a') (hv : Renames ρ v v') (hw : Renames ρ w w') :
    v = w ↔ v' = w' := by
  cases hv with
  | small n =>
    cases hw with
    | small k => exact Iff.rfl
    | ref hb => exact iff_of_false (fun h => by cases h) fun h => by cases h
  | ref ha =>
    cases hw with
    | small k => exact iff_of_false (fun h => by cases h) fun h => by cases h
    | ref hb =>
      constructor
      · intro heq
        obtain rfl := Value.ref.inj heq
        exact congrArg Value.ref (Address.ext (hfunctional _ _ _ ha hb))
      · intro heq
        obtain rfl := Value.ref.inj heq
        exact congrArg Value.ref (Address.ext (hinjective _ _ _ ha hb))

/-- Under a renaming that moves nothing, values are renamed to themselves. -/
theorem eq_of_fixed (h : Renames ρ v w) (hfix : ∀ a b, ρ a b → a = b) : v = w := by
  cases h with
  | small n => rfl
  | ref h => exact congrArg Value.ref (Address.ext (hfix _ _ h))

end Value.Renames

namespace Memory

theorem Matches.inverse {ρ : Renaming} {m m' : Memory} {o o' : Nat} (h : Matches ρ m o m' o') :
    Matches ρ.inverse m' o' m o where
  hash := h.hash.symm
  kind := h.kind.symm
  count := h.count.symm
  cls := h.cls.inverse
  fields := fun hk i hi => (h.fields (h.kind ▸ hk) i (h.count ▸ hi)).inverse
  words := fun hk i hi => (h.words (h.kind ▸ hk) i (h.count ▸ hi)).symm
  bytes := fun hk i hi => (h.bytes (h.kind ▸ hk) i (h.count ▸ hi)).symm

theorem Matches.after {ρ σ : Renaming} {m m₁ m' : Memory} {o o₁ o' : Nat}
    (h : Matches σ m o m₁ o₁) (h' : Matches ρ m o m' o') : Matches (ρ.after σ) m₁ o₁ m' o' where
  hash := h'.hash.trans h.hash.symm
  kind := h'.kind.trans h.kind.symm
  count := h'.count.trans h.count.symm
  cls := h.cls.after h'.cls
  fields := fun hk i hi =>
    (h.fields (h.kind ▸ hk) i (h.count ▸ hi)).after (h'.fields (h.kind ▸ hk) i (h.count ▸ hi))
  words := fun hk i hi =>
    (h'.words (h.kind ▸ hk) i (h.count ▸ hi)).trans (h.words (h.kind ▸ hk) i (h.count ▸ hi)).symm
  bytes := fun hk i hi =>
    (h'.bytes (h.kind ▸ hk) i (h.count ▸ hi)).trans (h.bytes (h.kind ▸ hk) i (h.count ▸ hi)).symm

/-- The renaming pairs objects of the two heaps that match, each with at most one other. -/
structure Corresponds (ρ : Renaming) (m m' : Memory) : Prop where
  left : m.WellFormed
  right : m'.WellFormed
  domain : ∀ a b, ρ a b → a ∈ m.headers
  range : ∀ a b, ρ a b → b ∈ m'.headers
  functional : ∀ a b b', ρ a b → ρ a b' → b = b'
  injective : ∀ a a' b, ρ a b → ρ a' b → a = a'
  objects : ∀ a b, ρ a b → Matches ρ m a m' b

namespace Corresponds

variable {ρ σ : Renaming} {m m' m₁ m₁' : Memory}

theorem inverse (h : Corresponds ρ m m') : Corresponds ρ.inverse m' m where
  left := h.right
  right := h.left
  domain := fun a b hab => h.range b a hab
  range := fun a b hab => h.domain b a hab
  functional := fun a b b' hab hab' => h.injective b b' a hab hab'
  injective := fun a a' b hab hab' => h.functional b a a' hab hab'
  objects := fun a b hab => (h.objects b a hab).inverse

theorem holds_left (h : Corresponds ρ m m') {v w : Value} (hvw : Value.Renames ρ v w) :
    m.Holds v :=
  .of_renames hvw.inverse fun _ _ hab => h.domain _ _ hab

theorem holds_right (h : Corresponds ρ m m') {v w : Value} (hvw : Value.Renames ρ v w) :
    m'.Holds w :=
  .of_renames hvw h.range

/-- Values are the same on one side if they are on the other. -/
theorem eq_iff (h : Corresponds ρ m m') {v v' w w' : Value} (hv : Value.Renames ρ v v')
    (hw : Value.Renames ρ w w') : v = w ↔ v' = w' :=
  hv.eq_iff h.functional h.injective hw

/-- Two heaps correspond as long as their objects are the same. -/
theorem congr (h : Corresponds ρ m m') (hm₁ : m₁.WellFormed) (hm₁' : m₁'.WellFormed)
    (hheaders : m₁.headers = m.headers) (hheaders' : m₁'.headers = m'.headers)
    (hobjects : ∀ a b, ρ a b → Matches ρ m₁ a m₁' b) : Corresponds ρ m₁ m₁' where
  left := hm₁
  right := hm₁'
  domain := fun a b hab => hheaders ▸ h.domain a b hab
  range := fun a b hab => hheaders' ▸ h.range a b hab
  functional := h.functional
  injective := h.injective
  objects := hobjects

/-- **Stores.** Two heaps that correspond still do after stores to two objects that are paired, if
those match again. -/
theorem store (h : Corresponds ρ m m') {a b lo hi : Nat} (hab : ρ a b)
    (hs : Stored m a lo hi m₁) (hs' : Stored m' b lo hi m₁')
    (hhash : (m₁.hashAt a).toNat < 1073741824) (hmatch : Matches ρ m₁ a m₁' b) :
    Corresponds ρ m₁ m₁' := by
  have hkind := hs.kindAt h.left hs.mem
  have hcount := hs.countAt h.left hs.mem
  have hkind' := hs'.kindAt h.right hs'.mem
  have hcount' := hs'.countAt h.right hs'.mem
  have hm₁ : m₁.WellFormed := by
    refine hs.wellFormed h.left hhash fun hk i hi => ?_
    exact h.holds_left (hmatch.fields (hkind.trans hk) i (hcount.symm ▸ hi))
  have hm₁' : m₁'.WellFormed := by
    refine hs'.wellFormed h.right (hmatch.hash.symm ▸ hhash) fun hk i hi => ?_
    refine h.holds_right (hmatch.fields ?_ i ?_)
    · rw [← hmatch.kind, hkind', hk]
    · rw [← hmatch.count, hcount']
      exact hi
  refine h.congr hm₁ hm₁' (hs.headers h.left) (hs'.headers h.right) fun x y hxy => ?_
  by_cases hx : x = a
  · subst hx
    obtain rfl := h.functional _ _ _ hab hxy
    exact hmatch
  · have hy : y ≠ b := fun hy => hx (h.injective _ _ _ hxy (hy ▸ hab))
    exact (h.objects x y hxy).congr (hs.agreeAt h.left (h.domain x y hxy) hx)
      (hs'.agreeAt h.right (h.range x y hxy) hy)

/-- A heap corresponds to itself. -/
theorem refl (hm : m.WellFormed) : Corresponds (fun a b => a ∈ m.headers ∧ a = b) m m where
  left := hm
  right := hm
  domain := fun _ _ h => h.1
  range := fun _ _ h => h.2 ▸ h.1
  functional := fun _ _ _ h h' => h.2.symm.trans h'.2
  injective := fun _ _ _ h h' => h.2.trans h'.2.symm
  objects := fun a b ⟨ha, hab⟩ => by
    subst hab
    have hself : ∀ {v}, m.Holds v → Value.Renames (fun a b => a ∈ m.headers ∧ a = b) v v := by
      intro v hv
      cases hv with
      | small n => exact .small n
      | ref h => exact .ref ⟨h, rfl⟩
    exact ⟨rfl, rfl, rfl, hself (hm.cls a ha), fun hk i hi => hself (hm.field a ha hk i hi),
      fun _ _ _ => rfl, fun _ _ _ => rfl⟩

/-- A heap corresponds to what a collection makes of it. -/
theorem of_relocation (hm : m.WellFormed) {roots roots₁ : Array Value}
    (hroots : ∀ v ∈ roots, m.Holds v) (hr : Relocation m roots σ m₁ roots₁) :
    Corresponds σ m m₁ where
  left := hm
  right := hr.wellFormed
  domain := fun a b hab => hm.mem_of_reachable hroots ((hr.domain a).2 ⟨b, hab⟩)
  range := fun a b hab => (hr.range b).2 ⟨a, hab⟩
  functional := hr.functional
  injective := hr.injective
  objects := hr.objects

/-- **Collections.** If one of two heaps that correspond is replaced by one it corresponds to, the
heaps go on corresponding. -/
theorem after (h : Corresponds ρ m m') (h' : Corresponds σ m m₁) :
    Corresponds (ρ.after σ) m₁ m' where
  left := h'.right
  right := h.right
  domain := fun _ _ ⟨_, ho, _⟩ => h'.range _ _ ho
  range := fun _ _ ⟨_, _, hab⟩ => h.range _ _ hab
  functional := fun a b b' ⟨o, ho, hab⟩ ⟨o', ho', hab'⟩ => by
    obtain rfl := h'.injective _ _ _ ho ho'
    exact h.functional _ _ _ hab hab'
  injective := fun a a' b ⟨o, ho, hab⟩ ⟨o', ho', hab'⟩ => by
    obtain rfl := h.injective _ _ _ hab hab'
    exact h'.functional _ _ _ ho ho'
  objects := fun _ _ ⟨_, ho, hab⟩ => (h'.objects _ _ ho).after (h.objects _ _ hab)

/-- **Placements.** Two heaps that get an object of the same shape go on corresponding, and the new
objects are paired. -/
theorem place (h : Corresponds ρ m m') (hcounter : m.hashCounter = m'.hashCounter)
    {cls cls' fill fill' : Value} (hcls : Value.Renames ρ cls cls')
    (hfill : Value.Renames ρ fill fill') {size : Nat} (hsize : size ≤ maxCount) {kind : BodyKind}
    (hfits : m.free + extent size kind ≤ m.limit)
    (hfits' : m'.free + extent size kind ≤ m'.limit) :
    Corresponds (ρ.add m.free m'.free) (m.place cls size kind fill)
      (m'.place cls' size kind fill') := by
  have hnew := free_not_mem h.left
  have hnew' := free_not_mem h.right
  have hheaders : (m.place cls size kind fill).headers = m.headers ++ [m.free] :=
    headers_place h.left hsize
  have hheaders' : (m'.place cls' size kind fill').headers = m'.headers ++ [m'.free] :=
    headers_place h.right hsize
  constructor
  case left =>
    exact wellFormed_place h.left hsize hfits (h.holds_left hcls) (h.holds_left hfill)
  case right =>
    exact wellFormed_place h.right hsize hfits' (h.holds_right hcls) (h.holds_right hfill)
  case domain =>
    rintro a b (hab | ⟨rfl, rfl⟩)
    · rw [hheaders]
      exact List.mem_append_left _ (h.domain a b hab)
    · rw [hheaders]
      exact List.mem_append_right _ List.mem_cons_self
  case range =>
    rintro a b (hab | ⟨rfl, rfl⟩)
    · rw [hheaders']
      exact List.mem_append_left _ (h.range a b hab)
    · rw [hheaders']
      exact List.mem_append_right _ List.mem_cons_self
  case functional =>
    rintro a b b' (hab | ⟨rfl, rfl⟩) (hab' | ⟨ha, rfl⟩)
    · exact h.functional a b b' hab hab'
    · exact absurd (ha ▸ h.domain a b hab) hnew
    · exact absurd (h.domain _ b' hab') hnew
    · rfl
  case injective =>
    rintro a a' b (hab | ⟨rfl, rfl⟩) (hab' | ⟨rfl, hb⟩)
    · exact h.injective a a' b hab hab'
    · exact absurd (hb ▸ h.range a b hab) hnew'
    · exact absurd (h.range a' _ hab') hnew'
    · rfl
  case objects =>
    rintro a b (hab | ⟨rfl, rfl⟩)
    · exact ((h.objects a b hab).mono fun _ _ hxy => .inl hxy).congr
        (agreeAt_place h.left (h.domain a b hab)) (agreeAt_place h.right (h.range a b hab))
    · constructor
      case hash => rw [hashAt_place, hashAt_place, hcounter]
      case kind => rw [kindAt_place hsize, kindAt_place hsize]
      case count => rw [countAt_place hsize, countAt_place hsize]
      case cls =>
        rw [classAt_place, classAt_place]
        exact hcls.add _ _
      case fields =>
        rw [kindAt_place hsize, countAt_place hsize]
        rintro rfl i hi
        rw [fieldAt_place hi, fieldAt_place hi]
        exact hfill.add _ _
      case words =>
        rw [kindAt_place hsize, countAt_place hsize]
        rintro rfl i hi
        rw [wordElementAt_place hi, wordElementAt_place hi]
      case bytes =>
        rw [kindAt_place hsize, countAt_place hsize]
        rintro rfl i hi
        rw [byteElementAt_place hi, byteElementAt_place hi]

end Corresponds

end Memory

end Smalltalk
