import Smalltalk.Proofs.Correspondence

/-!
# What becomes of objects

A reference says where an object is, and a collection moves objects. So which object of a heap is
which object of a later one can only be told from what has happened in between. Stores leave every
object where it is, and so does the making of a new one. A collection moves the objects that the
roots reach, and the others are gone.

A renaming *carries* a heap to a later one if it was put together in this way, one change of the
heap after the other. Objects that are gone are renamed to nothing, and nothing is renamed to
objects that are new.

## Main definitions

* `Renaming.followedBy`: one renaming after the other
* `Memory.unmoved`: the renaming that leaves every object where it is
* `Memory.Carries`: the renaming says what has become of the objects of a heap

## Main results

* `Memory.Carries.persists`: an object stays one object, of its class, kind, size and hash
* `Memory.Carries.trans`
-/

namespace Smalltalk

/-- First one renaming, then the other. -/
def Renaming.followedBy (σ τ : Renaming) : Renaming := fun a b => ∃ o, σ a o ∧ τ o b

theorem Value.Renames.followedBy {σ τ : Renaming} {v w u : Value} (h : Value.Renames σ v w)
    (h' : Value.Renames τ w u) : Value.Renames (σ.followedBy τ) v u := by
  cases h with
  | small n =>
    cases h' with
    | small n => exact .small n
  | ref h =>
    cases h' with
    | ref h' => exact .ref ⟨_, h, h'⟩

namespace Memory

/-- The renaming that leaves every object where it is. -/
def unmoved (m : Memory) : Renaming := fun a b => a ∈ m.headers ∧ a = b

/-- The renaming says what has become of the objects of a heap. -/
inductive Carries (m : Memory) : Renaming → Memory → Prop
  | refl : Carries m m.unmoved m
  /-- Bytes of one object are replaced. Only objects made of bytes get another hash. -/
  | store {σ : Renaming} {m₁ m₂ : Memory} {o lo hi : Nat} (h : Carries m σ m₁)
      (hstored : Stored m₁ o lo hi m₂) (hbody : headerBytes ≤ lo ∨ m₁.kindAt o = .bytes)
      (hm₂ : m₂.WellFormed) : Carries m σ m₂
  /-- An object is added behind the last one. -/
  | place {σ : Renaming} {m₁ : Memory} {cls fill : Value} {size : Nat} {kind : BodyKind}
      (h : Carries m σ m₁) (hsize : size ≤ maxCount)
      (hm₂ : (m₁.place cls size kind fill).WellFormed) :
      Carries m σ (m₁.place cls size kind fill)
  /-- The heap is collected. -/
  | collect {σ ρ : Renaming} {m₁ m₂ : Memory} {roots roots₂ : Array Value} (h : Carries m σ m₁)
      (hroots : ∀ v ∈ roots, m₁.Holds v) (hmoved : Relocation m₁ roots ρ m₂ roots₂) :
      Carries m (σ.followedBy ρ) m₂

/-- Objects that are renamed are the same objects, though their contents may have changed. -/
structure Persists (σ : Renaming) (m m₁ : Memory) : Prop where
  left : m.WellFormed
  right : m₁.WellFormed
  domain : ∀ a b, σ a b → a ∈ m.headers
  range : ∀ a b, σ a b → b ∈ m₁.headers
  functional : ∀ a b b', σ a b → σ a b' → b = b'
  injective : ∀ a a' b, σ a b → σ a' b → a = a'
  kind : ∀ a b, σ a b → m₁.kindAt b = m.kindAt a
  count : ∀ a b, σ a b → m₁.countAt b = m.countAt a
  cls : ∀ a b, σ a b → Value.Renames σ (m.classAt a) (m₁.classAt b)
  hash : ∀ a b, σ a b → m.kindAt a ≠ .bytes → m₁.hashAt b = m.hashAt a

namespace Persists

variable {σ τ : Renaming} {m m₁ m₂ : Memory} {v w v' w' : Value}

theorem of_corresponds (h : Corresponds σ m m₁) : Persists σ m m₁ where
  left := h.left
  right := h.right
  domain := h.domain
  range := h.range
  functional := h.functional
  injective := h.injective
  kind := fun a b hab => (h.objects a b hab).kind
  count := fun a b hab => (h.objects a b hab).count
  cls := fun a b hab => (h.objects a b hab).cls
  hash := fun a b hab _ => (h.objects a b hab).hash

theorem refl (hm : m.WellFormed) : Persists m.unmoved m m := .of_corresponds (.refl hm)

/-- What happens to the contents of the objects that are renamed to does not matter. -/
theorem congr (h : Persists σ m m₁) (hm₂ : m₂.WellFormed) (hheaders : m₁.headers ⊆ m₂.headers)
    (hkind : ∀ b ∈ m₁.headers, m₂.kindAt b = m₁.kindAt b)
    (hcount : ∀ b ∈ m₁.headers, m₂.countAt b = m₁.countAt b)
    (hcls : ∀ b ∈ m₁.headers, m₂.classAt b = m₁.classAt b)
    (hhash : ∀ b ∈ m₁.headers, m₁.kindAt b ≠ .bytes → m₂.hashAt b = m₁.hashAt b) :
    Persists σ m m₂ where
  left := h.left
  right := hm₂
  domain := h.domain
  range := fun a b hab => hheaders (h.range a b hab)
  functional := h.functional
  injective := h.injective
  kind := fun a b hab => (hkind b (h.range a b hab)).trans (h.kind a b hab)
  count := fun a b hab => (hcount b (h.range a b hab)).trans (h.count a b hab)
  cls := fun a b hab => (hcls b (h.range a b hab)).symm ▸ h.cls a b hab
  hash := fun a b hab hk =>
    (hhash b (h.range a b hab) (h.kind a b hab ▸ hk)).trans (h.hash a b hab hk)

theorem trans (h : Persists σ m m₁) (h' : Persists τ m₁ m₂) :
    Persists (σ.followedBy τ) m m₂ where
  left := h.left
  right := h'.right
  domain := fun _ _ ⟨_, ho, _⟩ => h.domain _ _ ho
  range := fun _ _ ⟨_, _, ho⟩ => h'.range _ _ ho
  functional := fun a b b' ⟨o, ho, hb⟩ ⟨o', ho', hb'⟩ => by
    obtain rfl := h.functional _ _ _ ho ho'
    exact h'.functional _ _ _ hb hb'
  injective := fun a a' b ⟨o, ho, hb⟩ ⟨o', ho', hb'⟩ => by
    obtain rfl := h'.injective _ _ _ hb hb'
    exact h.injective _ _ _ ho ho'
  kind := fun _ _ ⟨_, ho, hb⟩ => (h'.kind _ _ hb).trans (h.kind _ _ ho)
  count := fun _ _ ⟨_, ho, hb⟩ => (h'.count _ _ hb).trans (h.count _ _ ho)
  cls := fun _ _ ⟨_, ho, hb⟩ => (h.cls _ _ ho).followedBy (h'.cls _ _ hb)
  hash := fun _ _ ⟨_, ho, hb⟩ hk =>
    (h'.hash _ _ hb (h.kind _ _ ho ▸ hk)).trans (h.hash _ _ ho hk)

theorem followedBy_unmoved (h : Persists σ m m₁) : σ.followedBy m₁.unmoved = σ := by
  funext a b
  refine propext ⟨?_, fun hab => ⟨b, hab, h.range a b hab, rfl⟩⟩
  rintro ⟨o, hao, -, rfl⟩
  exact hao

theorem unmoved_followedBy (h : Persists σ m₁ m₂) (hheaders : m₁.headers = m.headers) :
    m.unmoved.followedBy σ = σ := by
  funext a b
  refine propext ⟨?_, fun hab => ⟨a, ⟨hheaders ▸ h.domain a b hab, rfl⟩, hab⟩⟩
  rintro ⟨o, ⟨-, rfl⟩, hab⟩
  exact hab

theorem holds_right (h : Persists σ m m₁) (hvw : Value.Renames σ v w) : m₁.Holds w :=
  .of_renames hvw h.range

/-- What is renamed in two steps is something in between. -/
theorem split (h : Persists σ m m₁) (hvw : Value.Renames (σ.followedBy τ) v w) :
    ∃ u, Value.Renames σ v u ∧ Value.Renames τ u w := by
  cases hvw with
  | small n => exact ⟨_, .small n, .small n⟩
  | @ref a b hab =>
    obtain ⟨o, hao, hob⟩ := hab
    exact ⟨.ref ⟨o, h.right.header_lt (h.range _ _ hao)⟩, .ref hao, .ref hob⟩

/-- Different values stay different, and equal ones equal. -/
theorem eq_iff (h : Persists σ m m₁) (hv : Value.Renames σ v v') (hw : Value.Renames σ w w') :
    v = w ↔ v' = w' :=
  hv.eq_iff h.functional h.injective hw

end Persists

namespace Carries

variable {σ τ : Renaming} {m m₁ m₂ : Memory}

/-- **An object stays one object**, of its class, kind, size and hash. -/
theorem persists (hm : m.WellFormed) (h : m.Carries σ m₁) : Persists σ m m₁ := by
  induction h with
  | refl => exact .refl hm
  | @store σ m₁ m₂ o lo hi _ hstored hbody hm₂ ih =>
    have hm₁ := ih.right
    refine ih.congr hm₂ (hstored.headers hm₁ ▸ List.Subset.refl _) (fun b => hstored.kindAt hm₁)
      (fun b => hstored.countAt hm₁) (fun b => hstored.classAt hm₁) fun b hb hk => ?_
    by_cases hbo : b = o
    · subst hbo
      exact hstored.hashAt (hbody.resolve_right hk)
    · exact (hstored.agreeAt hm₁ hb hbo).hashAt
  | @place σ m₁ cls fill size kind _ hsize hm₂ ih =>
    have hm₁ := ih.right
    refine ih.congr hm₂ ?_ (fun b hb => (agreeAt_place hm₁ hb).kindAt)
      (fun b hb => (agreeAt_place hm₁ hb).countAt) (fun b hb => (agreeAt_place hm₁ hb).classAt)
      fun b hb _ => (agreeAt_place hm₁ hb).hashAt
    rw [headers_place hm₁ hsize]
    exact List.subset_append_left _ _
  | collect _ hroots hmoved ih =>
    exact ih.trans (.of_corresponds (.of_relocation ih.right hroots hmoved))

/-- A collection of a heap carries it. -/
theorem of_relocation (hm : m.WellFormed) {roots roots₁ : Array Value}
    (hroots : ∀ v ∈ roots, m.Holds v) (hmoved : Relocation m roots σ m₁ roots₁) :
    m.Carries σ m₁ := by
  have hdomain := (Corresponds.of_relocation hm hroots hmoved).domain
  have hσ : m.unmoved.followedBy σ = σ := by
    funext a b
    refine propext ⟨?_, fun hab => ⟨a, ⟨hdomain a b hab, rfl⟩, hab⟩⟩
    rintro ⟨o, ⟨-, rfl⟩, hab⟩
    exact hab
  exact hσ ▸ .collect .refl hroots hmoved

/-- What carries a heap to another and that one to a third carries it there. -/
theorem trans (hm : m.WellFormed) (h : m.Carries σ m₁) (h' : m₁.Carries τ m₂) :
    m.Carries (σ.followedBy τ) m₂ := by
  induction h' with
  | refl => exact (h.persists hm).followedBy_unmoved.symm ▸ h
  | store _ hstored hbody hm₂ ih => exact ih.store hstored hbody hm₂
  | place _ hsize hm₂ ih => exact ih.place hsize hm₂
  | @collect τ ρ _ _ _ _ _ hroots hmoved ih =>
    have hassoc : σ.followedBy (τ.followedBy ρ) = (σ.followedBy τ).followedBy ρ := by
      funext a b
      refine propext ⟨?_, ?_⟩
      · rintro ⟨o, ho, o', ho', hb⟩
        exact ⟨o', ⟨o, ho, ho'⟩, hb⟩
      · rintro ⟨o', ⟨o, ho, ho'⟩, hb⟩
        exact ⟨o, ho, o', ho', hb⟩
    rw [hassoc]
    exact ih.collect hroots hmoved

end Carries

end Memory

end Smalltalk
