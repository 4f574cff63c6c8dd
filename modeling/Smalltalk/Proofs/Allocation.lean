import Mathlib.Algebra.Order.BigOperators.Group.Finset
import Smalltalk.Proofs.Simulation.Allocation

/-!
# When an allocation succeeds, and what it leaves behind

An object that fits is placed behind the others, and nothing else happens. For one that does not fit
there is one collection, unless it would not fit an empty semispace either. What a collection leaves
is what the roots reach, the class and the fill value of the new object among them, so there is room
afterwards exactly if the object and all of that fit a semispace together. That makes the condition
under which an allocation succeeds one about the heap before it.

Whether it succeeds or not, what the roots reach is kept.

## Main definitions

* `KeepsGraph`: all that the roots reach is still there, wherever it has been moved
* `Fresh`: an object that has been made

## Main results

* `allocate_readies`: the heap is made ready for an object, by a collection or by nothing
* `allocate_exact`
-/

namespace Smalltalk

open Memory

/-- All that the roots reach is still there, wherever it has been moved. -/
structure KeepsGraph (σ : Renaming) (m : Memory) (roots : Array Value) (m' : Memory)
    (roots' : Array Value) : Prop where
  corresponds : Corresponds σ m m'
  reached : ∀ o, m.Reachable roots o → ∃ n, σ o n
  roots : List.Forall₂ (Value.Renames σ) roots.toList roots'.toList

/-- The object at `a` is new in `m'`. It overlaps no other object, and nothing is in it but what it
was made with, as far as that has been moved. -/
structure Fresh (σ : Renaming) (m : Memory) (cls : Value) (size : Nat) (kind : BodyKind)
    (fill : Value) (m' : Memory) (a : Address) : Prop where
  mem : a.offset ∈ m'.headers
  new : ∀ o, ¬ σ o a.offset
  extentAt : m'.extentAt a.offset = extent size kind
  apart : ∀ o ∈ m'.headers, o ≠ a.offset →
    o + m'.extentAt o ≤ a.offset ∨ a.offset + m'.extentAt a.offset ≤ o
  classAt : Value.Renames σ cls (m'.classAt a.offset)
  hashAt : m'.hashAt a.offset = m.hashCounter &&& hashMask
  counter : m'.hashCounter = m.hashCounter + hashStep
  kindAt : m'.kindAt a.offset = kind
  countAt : m'.countAt a.offset = size
  fields : kind = .pointers → ∀ i < size, Value.Renames σ fill (m'.fieldAt a.offset i)
  words : kind = .words → ∀ i < size, m'.wordElementAt a.offset i = 0
  bytes : kind = .bytes → ∀ i < size, m'.byteElementAt a.offset i = 0

section Readying

variable {σ : Renaming} {m m₁ : Memory} {roots roots₁ : Array Value} {cls cls₁ fill fill₁ : Value}
  {size : Nat} {kind : BodyKind}

theorem Memory.Reachable.mono {roots' : Array Value} {o : Nat} (h : m.Reachable roots o)
    (hsub : ∀ v ∈ roots, v ∈ roots') : m.Reachable roots' o := by
  induction h with
  | root h => exact .root (hsub _ h)
  | cls _ h ih => exact .cls ih h
  | field _ hk hi h ih => exact .field ih hk hi h

theorem holds_pinned (hroots : ∀ v ∈ roots, m.Holds v) (hcls : m.Holds cls) (hfill : m.Holds fill) :
    ∀ v ∈ roots ++ #[cls, fill], m.Holds v := by
  intro v hv
  rcases Array.mem_append.1 hv with hv | hv
  · exact hroots v hv
  · rcases List.mem_pair.1 (Array.mem_toList_iff.2 hv) with rfl | rfl
    · exact hcls
    · exact hfill

theorem fits_iff (hm : m.WellFormed) (bytes : Nat) : m.fits bytes = true ↔ bytes ≤ m.freeBytes := by
  have hle := hm.free_le
  rw [Memory.fits, decide_eq_true_iff, Memory.freeBytes]
  omega

/-- Nothing has happened. -/
theorem KeepsGraph.refl (hm : m.WellFormed) (hroots : ∀ v ∈ roots, m.Holds v) :
    KeepsGraph m.unmoved m roots m roots where
  corresponds := .refl hm
  reached := fun o ho => ⟨o, hm.mem_of_reachable hroots ho, rfl⟩
  roots := List.forall₂_same.2 fun v hv => .refl (hroots v (Array.mem_toList_iff.1 hv))

/-- The heap has been collected. -/
theorem KeepsGraph.of_relocation (hm : m.WellFormed) (hroots : ∀ v ∈ roots, m.Holds v)
    (h : Relocation m roots σ m₁ roots₁) : KeepsGraph σ m roots m₁ roots₁ where
  corresponds := .of_relocation hm hroots h
  reached := fun o ho => (h.domain o).1 ho
  roots := by
    refine List.forall₂_iff_get.2 ⟨?_, fun i hi _ => ?_⟩
    · rw [Array.length_toList, Array.length_toList, h.size_roots]
    · rw [List.get_eq_getElem, List.get_eq_getElem, Array.getElem_toList, Array.getElem_toList]
      exact h.renamed i (Array.length_toList ▸ hi)

/-- The values that were pinned are let go. -/
theorem KeepsGraph.unpin {pinned pinned₁ : Array Value}
    (h : KeepsGraph σ m (roots ++ pinned) m₁ (roots₁ ++ pinned₁))
    (hsize : roots₁.size = roots.size) : KeepsGraph σ m roots m₁ roots₁ where
  corresponds := h.corresponds
  reached := fun o ho => h.reached o (ho.mono fun _ hv => Array.mem_append_left _ hv)
  roots := by
    have htake := List.forall₂_take roots.size h.roots
    rwa [Array.toList_append, Array.toList_append,
      List.take_left' Array.length_toList,
      List.take_left' (Array.length_toList.trans hsize)] at htake

/-- A heap that has been made ready is given the new object. -/
theorem KeepsGraph.place (h : KeepsGraph σ m roots m₁ roots₁) (hcls : Value.Renames σ cls cls₁)
    (hfill : Value.Renames σ fill fill₁) (hsize : size ≤ maxCount)
    (hfits : m₁.free + extent size kind ≤ m₁.limit) :
    KeepsGraph σ m roots (m₁.place cls₁ size kind fill₁) roots₁ where
  corresponds := by
    have hplaced := wellFormed_place h.corresponds.right hsize hfits
      (h.corresponds.holds_right hcls) (h.corresponds.holds_right hfill)
    exact { h.corresponds with
      right := hplaced
      range := fun a b hab => by
        rw [headers_place h.corresponds.right hsize]
        exact List.mem_append_left _ (h.corresponds.range a b hab)
      objects := fun a b hab => (h.corresponds.objects a b hab).congr (fun _ _ => rfl)
        (agreeAt_place h.corresponds.right (h.corresponds.range a b hab)) }
  reached := h.reached
  roots := h.roots

/-- The object that is placed is a new one. -/
theorem KeepsGraph.fresh (h : KeepsGraph σ m roots m₁ roots₁) (hcls : Value.Renames σ cls cls₁)
    (hfill : Value.Renames σ fill fill₁) (hcounter : m₁.hashCounter = m.hashCounter)
    (hsize : size ≤ maxCount) (hfits : m₁.free + extent size kind ≤ m₁.limit) {a : Address}
    (ha : a.offset = m₁.free) :
    Fresh σ m cls size kind fill (m₁.place cls₁ size kind fill₁) a := by
  have hm₁ := h.corresponds.right
  have hplaced := wellFormed_place hm₁ hsize hfits (h.corresponds.holds_right hcls)
    (h.corresponds.holds_right hfill)
  have hmem : a.offset ∈ (m₁.place cls₁ size kind fill₁).headers := by
    rw [headers_place hm₁ hsize, ha]
    exact List.mem_append_right _ List.mem_cons_self
  constructor
  case mem => exact hmem
  case new => exact fun o ho => free_not_mem hm₁ (ha ▸ h.corresponds.range o _ ho)
  case extentAt => rw [ha]; exact extentAt_place hsize
  case apart => exact fun o ho hne => (hplaced.separate ho hmem).resolve_left hne
  case classAt => rw [ha, classAt_place]; exact hcls
  case hashAt => rw [ha, hashAt_place, hcounter]
  case counter => rw [← hcounter]; rfl
  case kindAt => rw [ha]; exact kindAt_place hsize
  case countAt => rw [ha]; exact countAt_place hsize
  case fields =>
    rintro rfl i hi
    rw [ha, fieldAt_place hi]
    exact hfill
  case words =>
    rintro rfl i hi
    rw [ha]
    exact wordElementAt_place hi
  case bytes =>
    rintro rfl i hi
    rw [ha]
    exact byteElementAt_place hi

/-! ## Making the heap ready -/

/-- What the heap is like once it has been made ready for an object. -/
structure Readied (σ : Renaming) (m : Memory) (roots : Array Value) (cls fill : Value)
    (collections : Nat) (m₁ : Memory) (roots₁ : Array Value) (cls₁ fill₁ : Value) : Prop where
  graph : KeepsGraph σ m roots m₁ roots₁
  cls : Value.Renames σ cls cls₁
  fill : Value.Renames σ fill fill₁
  counter : m₁.hashCounter = m.hashCounter
  collections : m₁.stats.collections = m.stats.collections + collections

/-- The objects that the roots reach, with the bytes they cover. -/
theorem exists_live (hm : m.WellFormed) (hroots : ∀ v ∈ roots, m.Holds v) :
    ∃ live : Finset Nat, ∀ o, o ∈ live ↔ m.Reachable roots o := by
  classical
  refine ⟨m.headers.toFinset.filter (m.Reachable roots), fun o => ?_⟩
  rw [Finset.mem_filter, List.mem_toFinset]
  exact ⟨And.right, fun ho => ⟨hm.mem_of_reachable hroots ho, ho⟩⟩

/-- There is room after a collection exactly if the object fits a semispace together with all that
has been reached. -/
theorem Relocation.fits_iff {live : Finset Nat} (h : Relocation m roots σ m₁ roots₁)
    (hlive : ∀ o, o ∈ live ↔ m.Reachable roots o) (bytes : Nat) :
    m₁.fits bytes = true ↔ bytes + ∑ o ∈ live, m.extentAt o ≤ m.capacity := by
  obtain ⟨reached, hnodup, hreached, -, hfree⟩ := h.stats
  have hsame : live = ⟨reached, hnodup⟩ :=
    Finset.ext fun o => (hlive o).trans (hreached o).symm
  have hsum : (reached.map m.extentAt).sum = ∑ o ∈ live, m.extentAt o := by
    rw [hsame]
    rfl
  rw [hsum] at hfree
  rw [Memory.fits, decide_eq_true_iff, hfree, Memory.limit,
    show m₁.capacity = m.capacity from congrArg Settings.semispaceSize h.settings]
  omega

variable (hm : m.WellFormed) (hroots : ∀ v ∈ roots, m.Holds v) (hcls : m.Holds cls)
  (hfill : m.Holds fill)

include hm hroots hcls hfill

/-- **An allocation makes the heap ready**, by one collection or by nothing, and places the object
if there is room then. -/
theorem allocate_readies {live : Finset Nat} (hsize : size ≤ maxCount)
    (hlive : ∀ o, o ∈ live ↔ m.Reachable (roots ++ #[cls, fill]) o) :
    ∃ σ m₁ roots₁ cls₁ fill₁,
      Readied σ m roots cls fill
        (if m.settings.gcEnabled ∧ m.freeBytes < extent size kind ∧ extent size kind ≤ m.capacity
          then 1 else 0) m₁ roots₁ cls₁ fill₁ ∧
      allocate cls size kind fill ⟨m, roots⟩ = placeFitting cls₁ size kind fill₁ ⟨m₁, roots₁⟩ ∧
      (m₁.fits (extent size kind) = true ↔ extent size kind ≤ m.freeBytes ∨
        m.settings.gcEnabled ∧ extent size kind + ∑ o ∈ live, m.extentAt o ≤ m.capacity) ∧
      (m.settings.gcEnabled = false → m₁ = m ∧ roots₁ = roots) := by
  by_cases hc : m.settings.gcEnabled ∧ m.freeBytes < extent size kind ∧
    extent size kind ≤ m.capacity
  · obtain ⟨henabled, hfull, hcapacity⟩ := hc
    have hpinned : ∀ v ∈ #[cls, fill], m.Holds v := by simp [hcls, hfill]
    obtain ⟨σ, m₁, all₁, hr, hrun, -⟩ :=
      @collectWith_relocates _ _ m roots #[cls, fill] hm hroots hpinned
    have hfits : m.fits (extent size kind) = false :=
      Bool.eq_false_iff.2 (mt (fits_iff hm _).1 (Nat.not_le.2 hfull))
    have hgraph := KeepsGraph.of_relocation hm (holds_pinned hroots hcls hfill) hr
    have hle : roots.size ≤ all₁.size := by
      rw [hr.size_roots, Array.size_append]
      exact Nat.le_add_right _ _
    have hsplit : all₁ = all₁.extract 0 roots.size ++ all₁.extract roots.size all₁.size := by
      rw [Array.extract_append_extract, Nat.zero_min, Nat.max_eq_right hle, Array.extract_size]
    have hkept : (all₁.extract 0 roots.size).size = roots.size := by
      rw [Array.size_extract]
      omega
    rw [hsplit] at hgraph
    refine ⟨σ, m₁, all₁.extract 0 roots.size, _, _,
      ⟨hgraph.unpin hkept, hr.renamed_pinned (i := 0) (by simp) cls,
        hr.renamed_pinned (i := 1) (by simp) fill, hr.hashCounter, ?_⟩,
      allocate_of_collect hsize hcapacity hfits henabled hrun, ?_, ?_⟩
    · obtain ⟨_, -, -, hstats, -⟩ := hr.stats
      rw [hstats, if_pos ⟨henabled, hfull, hcapacity⟩]
      rfl
    · rw [hr.fits_iff hlive]
      simp only [henabled, true_and, Nat.not_le.2 hfull, false_or]
    · exact fun h => absurd henabled (by simp [h])
  · have hno : maxCount < size ∨ m.capacity < extent size kind ∨ m.fits (extent size kind) ∨
        m.settings.gcEnabled = false := by
      rw [fits_iff hm]
      by_cases henabled : m.settings.gcEnabled
      · have hroom : m.freeBytes < extent size kind → ¬ extent size kind ≤ m.capacity :=
          fun hfull hcap => hc ⟨henabled, hfull, hcap⟩
        by_cases hfree : extent size kind ≤ m.freeBytes
        · exact .inr (.inr (.inl hfree))
        · exact .inr (.inl (Nat.not_le.1 (hroom (Nat.not_le.1 hfree))))
      · exact .inr (.inr (.inr (Bool.eq_false_iff.2 henabled)))
    refine ⟨m.unmoved, m, roots, cls, fill,
      ⟨.refl hm hroots, .refl hcls, .refl hfill, rfl, by rw [if_neg hc, Nat.add_zero]⟩,
      allocate_eq_placeFitting hm hno, ?_, fun _ => ⟨rfl, rfl⟩⟩
    rw [fits_iff hm]
    refine ⟨.inl, fun h => h.elim id fun ⟨henabled, hroom⟩ => ?_⟩
    by_contra hfree
    exact hc ⟨henabled, Nat.not_le.1 hfree, Nat.le_trans (Nat.le_add_right _ _) hroom⟩

end Readying

/-- **An allocation is exact.** With collections it succeeds exactly if the object fits the free
space, or fits a semispace together with all that the roots, its class and its fill value reach; and
it runs one collection exactly if the object does not fit the free space but would fit a semispace.
Without collections it fails exactly if the object does not fit the free space, and changes nothing
then. If it succeeds there is a new object, apart from all others and made of what was asked for,
and whether it succeeds or not, what the roots reach is kept. -/
theorem allocate_exact (m : Memory) (roots : Array Value) (cls fill : Value) (size : Nat)
    (kind : BodyKind) (hm : m.WellFormed) (hroots : ∀ v ∈ roots, m.Holds v) (hcls : m.Holds cls)
    (hfill : m.Holds fill) (hsize : size ≤ maxCount) :
    ∃ live : Finset Nat, (∀ o, o ∈ live ↔ m.Reachable (roots ++ #[cls, fill]) o) ∧
      (m.settings.gcEnabled = true →
        ((∃ v s, allocate cls size kind fill ⟨m, roots⟩ = .ok v s) ↔
          extent size kind ≤ m.freeBytes ∨
            extent size kind + ∑ o ∈ live, m.extentAt o ≤ m.capacity)) ∧
      (m.settings.gcEnabled = false →
        ((∃ e s, allocate cls size kind fill ⟨m, roots⟩ = .error e s) ↔
          m.freeBytes < extent size kind)) ∧
      (∀ v s, allocate cls size kind fill ⟨m, roots⟩ = .ok v s →
        s.memory.stats.collections = m.stats.collections +
          (if m.settings.gcEnabled ∧ m.freeBytes < extent size kind ∧ extent size kind ≤ m.capacity
            then 1 else 0) ∧
        ∃ σ a, v = .ref a ∧ KeepsGraph σ m roots s.memory s.roots ∧
          Fresh σ m cls size kind fill s.memory a) ∧
      (∀ e s, allocate cls size kind fill ⟨m, roots⟩ = .error e s →
        e = .memoryExhausted (extent size kind) ∧
        s.memory.stats.collections = m.stats.collections +
          (if m.settings.gcEnabled ∧ m.freeBytes < extent size kind ∧ extent size kind ≤ m.capacity
            then 1 else 0) ∧
        (m.settings.gcEnabled = false → s = ⟨m, roots⟩) ∧
        ∃ σ, KeepsGraph σ m roots s.memory s.roots) := by
  obtain ⟨live, hlive⟩ := exists_live hm (holds_pinned hroots hcls hfill)
  obtain ⟨σ, m₁, roots₁, cls₁, fill₁, hready, hrun, hfits, hoff⟩ :=
    @allocate_readies m roots cls fill size kind hm hroots hcls hfill live hsize hlive
  refine ⟨live, hlive, ?_⟩
  rw [hrun]
  by_cases hroom : m₁.fits (extent size kind) = true
  · obtain ⟨hle, a, ha, hplace⟩ :=
      placeFitting_of_fits (r := roots₁) hready.graph.corresponds.right cls₁ fill₁ ⟨hsize, hroom⟩
    rw [hplace]
    refine ⟨fun _ => ?_, fun hdisabled => ?_, fun v s h => ?_, fun e s h => (by cases h)⟩
    · exact iff_of_true ⟨_, _, rfl⟩ ((hfits.1 hroom).imp_right And.right)
    · refine iff_of_false (by rintro ⟨e, s, h⟩; cases h) (Nat.not_lt.2 ?_)
      exact (hfits.1 hroom).resolve_right fun h => absurd h.1 (by simp [hdisabled])
    · cases h
      exact ⟨hready.collections, σ, a, rfl, hready.graph.place hready.cls hready.fill hsize hle,
        hready.graph.fresh hready.cls hready.fill hready.counter hsize hle ha⟩
  · rw [placeFitting, if_neg fun h => hroom h.2]
    refine ⟨fun henabled => ?_, fun hdisabled => ?_, fun v s h => (by cases h), fun e s h => ?_⟩
    · refine iff_of_false (by rintro ⟨e, s, h⟩; cases h) fun h => hroom (hfits.2 ?_)
      exact h.imp_right fun h => ⟨henabled, h⟩
    · exact iff_of_true ⟨_, _, rfl⟩ (Nat.not_le.1 fun h => hroom (hfits.2 (.inl h)))
    · cases h
      refine ⟨rfl, hready.collections, fun hdisabled => ?_, σ, hready.graph⟩
      rw [(hoff hdisabled).1, (hoff hdisabled).2]

/-- Nil, an object with a number, and an object to which nothing refers. -/
def threeObjects : Memory :=
  .ofWords {} (fieldWords [] ++ fieldWords [numberWord 7] ++ fieldWords [])

theorem laidOut_threeObjects : threeObjects.LaidOut [0, 12, 28] := by
  decide +kernel

/-- Beside two objects that the root reaches, a row of bytes that takes all the rest of a semispace
can be made, by a collection that drops the third object and keeps these. -/
theorem allocate_exact_threeObjects :
    ∃ v s, allocate (Value.ofByte 0) 1048536 .bytes (Value.ofByte 0)
        ⟨threeObjects, #[Value.ref ⟨12, by decide⟩]⟩ = .ok v s ∧
      s.memory.stats.collections = 1 ∧ s.memory.WellFormed ∧
      ∃ a : Address, s.roots = #[.ref a] ∧ s.memory.fieldAt a.offset 0 = .ofByte 7 := by
  have hm := laidOut_threeObjects.wellFormed
  have hroots : ∀ v ∈ #[Value.ref ⟨12, by decide⟩], threeObjects.Holds v := by
    intro v hv
    obtain rfl := Array.mem_singleton.1 hv
    exact laidOut_threeObjects.holds (by decide)
  obtain ⟨live, hlive, hok, -, hmade, -⟩ :=
    allocate_exact threeObjects #[Value.ref ⟨12, by decide⟩] (Value.ofByte 0)
      (Value.ofByte 0) 1048536 .bytes hm hroots (.small _) (.small _) (by decide)
  have hsubset : live ⊆ {0, 12} := by
    intro o ho
    have hmem : o ∈ [0, 12] := ((hlive o).1 ho).mem_of_closed (by decide) (by decide +kernel)
      (by decide +kernel)
    simpa using hmem
  have hextents : ∑ o ∈ ({0, 12} : Finset Nat), threeObjects.extentAt o = 28 := by
    decide +kernel
  have hroom : extent 1048536 .bytes + ∑ o ∈ live, threeObjects.extentAt o ≤
      threeObjects.capacity := by
    have hle := Finset.sum_le_sum_of_subset (f := threeObjects.extentAt) hsubset
    rw [hextents] at hle
    exact Nat.le_trans (Nat.add_le_add_left hle _) (by decide)
  obtain ⟨v, s, hrun⟩ := (hok rfl).2 (.inr hroom)
  obtain ⟨hcollections, σ, a, -, hgraph, -⟩ := hmade v s hrun
  refine ⟨v, s, hrun, hcollections.trans ?_, hgraph.corresponds.right, ?_⟩
  · rw [if_pos (by decide +kernel)]
    rfl
  · obtain ⟨w, rest, hw, hrest, hroots'⟩ := List.forall₂_cons_left_iff.1 hgraph.roots
    cases List.forall₂_nil_left_iff.1 hrest
    cases hw with
    | @ref _ b hb =>
      refine ⟨b, Array.toList_inj.1 hroots', ?_⟩
      have hfield := (hgraph.corresponds.objects _ _ hb).fields (by decide +kernel) 0
        (by decide +kernel)
      rw [show threeObjects.fieldAt 12 0 = .ofByte 7 by decide +kernel] at hfield
      generalize s.memory.fieldAt b.offset 0 = u at hfield ⊢
      cases hfield
      rfl

end Smalltalk
