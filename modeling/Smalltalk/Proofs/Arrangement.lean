import Smalltalk.Proofs.Correspondence
import Mathlib.Data.List.Forall2

/-!
# The order in which objects are moved

A collection lays objects down in the order in which it meets them, and it meets them along the
references of the roots and of the objects laid down before. So the order depends on the graph of
the objects alone. Take two heaps whose objects correspond, with the same roots, and collect both:
the n-th object moved on one side corresponds to the n-th object moved on the other, whatever their
places were before and whatever garbage lies between them.

This is shown by running the two collections *abreast*, one loop of the collector at a time.

A heap is *in order* if its objects lie in the order in which a collection meets them. A heap that a
collection has left is in order: it is collected abreast of the heap that was collected. A
collection of a heap in order moves everything without rearranging it; a second one moves
everything back.

## Main definitions

* `Collector.Paired`: two collections have moved corresponding objects, one by one
* `Memory.InOrder`: objects lie in the order in which a collection meets them
* `Memory.Slides`: the heap is moved to the other semispace as it is

## Main results

* `Collector.run_abreast`: corresponding heaps are collected in the same order
* `Collector.Collected.inOrder`: what a collection leaves is in order
* `Memory.InOrder.slides`: a heap in order is moved as it is
* `Memory.Slides.back`: what is moved there and back is as it was
-/

namespace Smalltalk

open Memory

/-- Two tilings with the same lengths. -/
theorem Tiles.forall₂ {α β : Type} {start length : α → Nat} {start' length' : β → Nat}
    {c e c' e' : Nat} {xs : List α} {ys : List β} (h : Tiles start length c xs e)
    (h' : Tiles start' length' c' ys e')
    (hlen : List.Forall₂ (fun x y => length x = length' y) xs ys) :
    List.Forall₂ (fun x y => start x + c' = start' y + c) xs ys ∧ e + c' = e' + c := by
  induction hlen generalizing c c' with
  | nil =>
    obtain rfl : c = e := h
    obtain rfl : c' = e' := h'
    exact ⟨.nil, Nat.add_comm _ _⟩
  | cons hxy _ ih =>
    obtain ⟨hplaces, hends⟩ := ih h.2 h'.2
    have hx := h.1
    have hy := h'.1
    exact ⟨.cons (by omega) (hplaces.imp fun _ _ h => by omega), by omega⟩

theorem exists_of_mem_of_forall₂ {α β : Type} {R : α → β → Prop} {xs : List α} {ys : List β}
    (h : List.Forall₂ R xs ys) {x : α} (hx : x ∈ xs) : ∃ y ∈ ys, R x y := by
  induction h with
  | nil => exact absurd hx List.not_mem_nil
  | @cons _ y _ _ hxy _ ih =>
    rcases List.mem_cons.1 hx with rfl | hx
    · exact ⟨y, List.mem_cons_self, hxy⟩
    · obtain ⟨z, hz, hxz⟩ := ih hx
      exact ⟨z, List.mem_cons_of_mem _ hz, hxz⟩

theorem map_eq_of_forall₂ {α β γ : Type} {R : α → β → Prop} {f : α → γ} {g : β → γ} {xs : List α}
    {ys : List β} (h : List.Forall₂ R xs ys) (hR : ∀ x ∈ xs, ∀ y, R x y → g y = f x) :
    ys.map g = xs.map f := by
  induction h with
  | nil => rfl
  | cons hxy _ ih =>
    rw [List.map_cons, List.map_cons, hR _ List.mem_cons_self _ hxy,
      ih fun x hx => hR x (List.mem_cons_of_mem _ hx)]

namespace Collector

/-! ## Two collections abreast -/

/-- The two collections have moved corresponding objects, in the same order. -/
abbrev Paired (ρ : Renaming) (moves moves' : List (Nat × Nat)) : Prop :=
  List.Forall₂ (fun p p' => ρ p.1 p'.1) moves moves'

/-- An effect of a collection that takes it from one state to another. -/
structure Goes {α : Type} (m : Memory) (roots : Array Value) (moves : List (Nat × Nat))
    (s : Collector) (x : Collecting α) (a : α) (moves₁ : List (Nat × Nat)) (c : Nat)
    (s₁ : Collector) : Prop where
  run : Runs m x s a s₁
  continues : Continues m roots moves s moves₁ c s₁

section Abreast

variable {ρ : Renaming} {m m' : Memory} {roots roots' : Array Value}
  {moves moves' : List (Nat × Nat)} {c c' : Nat} {s s' : Collector}

theorem Paired.fst (h : Paired ρ moves moves') :
    List.Forall₂ ρ (moves.map Prod.fst) (moves'.map Prod.fst) :=
  List.forall₂_map_left_iff.2 (List.forall₂_map_right_iff.2 h)

variable (hcorr : Corresponds ρ m m')
include hcorr

/-- Corresponding objects are moved at the same time. -/
theorem Paired.moved_iff (h : Paired ρ moves moves') {a b : Nat} (hab : ρ a b) :
    a ∈ moves.map Prod.fst ↔ b ∈ moves'.map Prod.fst :=
  List.rel_mem ⟨fun a b c hac hbc => hcorr.injective a b c hac hbc,
    fun a b c hab hac => hcorr.functional a b c hab hac⟩ hab h.fst

/-- Corresponding objects have slots at the same places. -/
theorem slot_iff {a b k : Nat} (hab : ρ a b) : Slot m a k ↔ Slot m' b k := by
  have hobject := hcorr.objects a b hab
  constructor
  · intro h
    cases h with
    | cls => exact .cls
    | field hk hi => exact .field (hobject.kind.trans hk) (hobject.count.symm ▸ hi)
  · intro h
    cases h with
    | cls => exact .cls
    | field hk hi => exact .field (hobject.kind.symm.trans hk) (hobject.count ▸ hi)

/-- Corresponding slots hold corresponding references. -/
theorem Slot.renames {a b k : Nat} (hab : ρ a b) (h : Slot m a k) :
    Value.Renames ρ (Value.decode (m.wordAt (a + k))) (Value.decode (m'.wordAt (b + k))) := by
  have hobject := hcorr.objects a b hab
  cases h with
  | cls => exact hobject.cls
  | field hk hi =>
    rw [← Nat.add_assoc, ← Nat.add_assoc]
    exact hobject.fields hk _ hi

/-- Corresponding objects are moved to corresponding places. -/
theorem Paired.places (h : Paired ρ moves moves') (hs : Invariant m roots moves c s)
    (hs' : Invariant m' roots' moves' c' s') :
    List.Forall₂ (fun p p' => ρ p.1 p'.1 ∧ p.2 + m'.otherStart = p'.2 + m.otherStart) moves moves' ∧
      s.memory.free + m'.otherStart = s'.memory.free + m.otherStart := by
  have hlen : List.Forall₂ (fun p p' : Nat × Nat => m.extentAt p.1 = m'.extentAt p'.1) moves
      moves' :=
    h.imp fun p p' hp => (hcorr.objects p.1 p'.1 hp).extent.symm
  obtain ⟨hplaces, hfree⟩ := hs.packed.forall₂ hs'.packed hlen
  exact ⟨List.Forall₂.mp (fun _ _ hq hr => ⟨hq, hr⟩) h hplaces, hfree⟩

variable (hroots : ∀ v ∈ roots, m.Holds v) (hroots' : ∀ v ∈ roots', m'.Holds v)
include hroots hroots'

/-- **One reference on each side.** -/
theorem relocate_abreast (hs : Invariant m roots moves c s) (hs' : Invariant m' roots' moves' c' s')
    (hpaired : Paired ρ moves moves') (hc : c ≤ s.memory.free) (hc' : c' ≤ s'.memory.free)
    {v v' : Value} (hv : Value.Renames ρ v v')
    (hreach : ∀ a, v = .ref a → m.Reachable roots a.offset)
    (hreach' : ∀ a, v' = .ref a → m'.Reachable roots' a.offset) :
    ∃ moves₁ w s₁ moves₁' w' s₁', Goes m roots moves s (relocate v) w moves₁ c s₁ ∧
      Goes m' roots' moves' s' (relocate v') w' moves₁' c' s₁' ∧ Paired ρ moves₁ moves₁' ∧
      Value.Renames (movedTo moves₁) v w ∧ Value.Renames (movedTo moves₁') v' w' := by
  have hm := hcorr.left
  have hm' := hcorr.right
  cases hv with
  | small n =>
    exact ⟨moves, .small n, s, moves', .small n, s',
      ⟨.pure m _ s, hs, List.prefix_rfl, Nat.le_refl _, rfl⟩,
      ⟨.pure m' _ s', hs', List.prefix_rfl, Nat.le_refl _, rfl⟩, hpaired, .small n, .small n⟩
  | @ref a b hab =>
    by_cases hmoved : a.offset ∈ moves.map Prod.fst
    · obtain ⟨w, hrun, hcont, hw⟩ := continues_of_moved hm hroots hs hmoved
      obtain ⟨w', hrun', hcont', hw'⟩ :=
        continues_of_moved hm' hroots' hs' ((hpaired.moved_iff hcorr hab).1 hmoved)
      exact ⟨moves, w, s, moves', w', s', ⟨hrun, hcont⟩, ⟨hrun', hcont'⟩, hpaired, hw, hw'⟩
    · have hfresh' := fun h => hmoved ((hpaired.moved_iff hcorr hab).2 h)
      obtain ⟨n, w, s₁, hrun, hcont, hw⟩ :=
        continues_of_fresh hm hroots hs hc (hreach a rfl) hmoved
      obtain ⟨n', w', s₁', hrun', hcont', hw'⟩ :=
        continues_of_fresh hm' hroots' hs' hc' (hreach' b rfl) hfresh'
      exact ⟨_, w, s₁, _, w', s₁', ⟨hrun, hcont⟩, ⟨hrun', hcont'⟩,
        List.rel_append hpaired (.cons hab .nil), hw, hw'⟩

/-- **One slot on each side.** -/
theorem relocateAt_abreast {p p' : Nat × Nat} {k : Nat} (hp : p ∈ moves) (hp' : p' ∈ moves')
    (hpp' : ρ p.1 p'.1) (hk : Slot m p.1 k) (hs : Invariant m roots moves (p.2 + k) s)
    (hs' : Invariant m' roots' moves' (p'.2 + k) s') (hpaired : Paired ρ moves moves') :
    ∃ moves₁ s₁ moves₁' s₁',
      Goes m roots moves s (relocateAt (p.2 + k)) () moves₁ (p.2 + k + 4) s₁ ∧
      Goes m' roots' moves' s' (relocateAt (p'.2 + k)) () moves₁' (p'.2 + k + 4) s₁' ∧
      Paired ρ moves₁ moves₁' := by
  have hk' : Slot m' p'.1 k := (slot_iff hcorr hpp').1 hk
  have hle := hk.le_extentAt
  have hle' := hk'.le_extentAt
  have hbound := hs.packed.bounds hp
  have hbound' := hs'.packed.bounds hp'
  obtain ⟨moves₁, w, s₁, moves₁', w', s₁', hgo, hgo', hpaired₁, hw, hw'⟩ :=
    relocate_abreast hcorr hroots hroots' hs hs' hpaired (by omega) (by omega)
      (Slot.renames hcorr hpp' hk) (fun a ha => hk.reachable (hs.reached p hp) ha)
      fun a ha => hk'.reachable (hs'.reached p' hp') ha
  obtain ⟨s₂, hgo₂⟩ := relocateAt_continues hcorr.left hroots hp hk hs hgo.run hgo.continues hw
  obtain ⟨s₂', hgo₂'⟩ :=
    relocateAt_continues hcorr.right hroots' hp' hk' hs' hgo'.run hgo'.continues hw'
  exact ⟨moves₁, s₂, moves₁', s₂', ⟨hgo₂.1, hgo₂.2⟩, ⟨hgo₂'.1, hgo₂'.2⟩, hpaired₁⟩

/-- The fields of a copy on each side, from number `i` on. -/
theorem relocateFrom_abreast {p p' : Nat × Nat} (hpp' : ρ p.1 p'.1)
    (hkind : m.kindAt p.1 = .pointers) {n i : Nat} (hp : p ∈ moves) (hp' : p' ∈ moves')
    (hn : i + n = m.countAt p.1) (hs : Invariant m roots moves (p.2 + (headerBytes + i * 4)) s)
    (hs' : Invariant m' roots' moves' (p'.2 + (headerBytes + i * 4)) s')
    (hpaired : Paired ρ moves moves') :
    ∃ moves₁ s₁ moves₁' s₁',
      Goes m roots moves s (relocateFrom (p.2 + (headerBytes + i * 4)) n) () moves₁
        (p.2 + m.extentAt p.1) s₁ ∧
      Goes m' roots' moves' s' (relocateFrom (p'.2 + (headerBytes + i * 4)) n) () moves₁'
        (p'.2 + m'.extentAt p'.1) s₁' ∧ Paired ρ moves₁ moves₁' := by
  induction n generalizing i moves s moves' s' with
  | zero =>
    have hend : headerBytes + i * 4 = m.extentAt p.1 := by
      rw [extentAt_of_pointers hkind, ← hn, Nat.add_zero, Nat.mul_comm]
    rw [(hcorr.objects p.1 p'.1 hpp').extent, ← hend]
    exact ⟨moves, s, moves', s', ⟨.pure m () s, hs, List.prefix_rfl, Nat.le_refl _, rfl⟩,
      ⟨.pure m' () s', hs', List.prefix_rfl, Nat.le_refl _, rfl⟩, hpaired⟩
  | succ n ih =>
    obtain ⟨moves₁, s₁, moves₁', s₁', hgo₁, hgo₁', hpaired₁⟩ :=
      relocateAt_abreast hcorr hroots hroots' hp hp' hpp' (.field hkind (by omega)) hs hs' hpaired
    have hnext : ∀ q : Nat,
        q + (headerBytes + i * 4) + 4 = q + (headerBytes + (i + 1) * 4) := fun q => by omega
    rw [hnext] at hgo₁ hgo₁'
    obtain ⟨moves₂, s₂, moves₂', s₂', hgo₂, hgo₂', hpaired₂⟩ :=
      ih (hgo₁.continues.grows.subset hp) (hgo₁'.continues.grows.subset hp') (by omega)
        hgo₁.continues.invariant hgo₁'.continues.invariant hpaired₁
    refine ⟨moves₂, s₂, moves₂', s₂', ⟨hgo₁.run.bind ?_, hgo₁.continues.trans hgo₂.continues⟩,
      ⟨hgo₁'.run.bind ?_, hgo₁'.continues.trans hgo₂'.continues⟩, hpaired₂⟩
    · rw [hnext]
      exact hgo₂.run
    · rw [hnext]
      exact hgo₂'.run

/-- **One copy on each side.** -/
theorem scanObject_abreast {p p' : Nat × Nat} (hp : p ∈ moves) (hp' : p' ∈ moves')
    (hpp' : ρ p.1 p'.1) (hs : Invariant m roots moves p.2 s)
    (hs' : Invariant m' roots' moves' p'.2 s') (hpaired : Paired ρ moves moves') :
    ∃ moves₁ s₁ moves₁' s₁',
      Goes m roots moves s (scanObject p.2) () moves₁ (p.2 + m.extentAt p.1) s₁ ∧
      Goes m' roots' moves' s' (scanObject p'.2) () moves₁' (p'.2 + m'.extentAt p'.1) s₁' ∧
      Paired ρ moves₁ moves₁' := by
  obtain ⟨moves₁, s₁, moves₁', s₁', ⟨hrun₁, hcont₁⟩, ⟨hrun₁', hcont₁'⟩, hpaired₁⟩ :=
    relocateAt_abreast hcorr hroots hroots' hp hp' hpp' .cls hs hs' hpaired
  have hp₁ := hcont₁.grows.subset hp
  have hp₁' := hcont₁'.grows.subset hp'
  have hbody := hcont₁.invariant.advance_to_body hp₁
  have hbody' := hcont₁'.invariant.advance_to_body hp₁'
  have hobject := hcorr.objects p.1 p'.1 hpp'
  by_cases hkind : m.kindAt p.1 = .pointers
  · have hkind' : m'.kindAt p'.1 = .pointers := hobject.kind.trans hkind
    obtain ⟨moves₂, s₂, moves₂', s₂', ⟨hrun₂, hcont₂⟩, ⟨hrun₂', hcont₂'⟩, hpaired₂⟩ :=
      relocateFrom_abreast hcorr hroots hroots' hpp' hkind hp₁ hp₁' (Nat.zero_add _) hbody hbody'
        hpaired₁
    refine ⟨moves₂, s₂, moves₂', s₂',
      ⟨scanObject_runs hp₁ hrun₁ hcont₁.invariant ?_, hcont₁.trans hcont₂⟩,
      ⟨scanObject_runs hp₁' hrun₁' hcont₁'.invariant ?_, hcont₁'.trans hcont₂'⟩, hpaired₂⟩
    · rw [fieldCount, if_pos hkind]
      simpa only [Nat.zero_mul, Nat.add_zero] using hrun₂
    · rw [fieldCount, if_pos hkind', hobject.count]
      simpa only [Nat.zero_mul, Nat.add_zero] using hrun₂'
  · have hkind' : m'.kindAt p'.1 ≠ .pointers := hobject.kind ▸ hkind
    refine ⟨moves₁, s₁, moves₁', s₁',
      ⟨scanObject_runs hp₁ hrun₁ hcont₁.invariant ?_,
        hbody.advance_to_end hp₁ hkind, hcont₁.grows, hcont₁.free_le, hcont₁.roots⟩,
      ⟨scanObject_runs hp₁' hrun₁' hcont₁'.invariant ?_,
        hbody'.advance_to_end hp₁' hkind', hcont₁'.grows, hcont₁'.free_le, hcont₁'.roots⟩, hpaired₁⟩
    · rw [fieldCount, if_neg hkind]
      exact .pure m () s₁
    · rw [fieldCount, if_neg hkind']
      exact .pure m' () s₁'

/-- **All copies on each side.** -/
theorem scan_abreast (hs : Invariant m roots moves c s) (hs' : Invariant m' roots' moves' c' s')
    (hpaired : Paired ρ moves moves') (hcc' : c + m'.otherStart = c' + m.otherStart)
    (hc : c = s.memory.free ∨ ∃ p ∈ moves, p.2 = c) :
    ∃ moves₁ s₁ moves₁' s₁',
      Goes m roots moves s (scan (m.otherStart + m.capacity) c) s₁.memory.free moves₁
        s₁.memory.free s₁ ∧
      Goes m' roots' moves' s' (scan (m'.otherStart + m'.capacity) c') s₁'.memory.free moves₁'
        s₁'.memory.free s₁' ∧ Paired ρ moves₁ moves₁' := by
  -- the recursion of `scan` on the first side; the second follows
  induction hrest : m.otherStart + m.capacity - c using Nat.strongRecOn
    generalizing c c' moves moves' s s' with
  | ind rest ih =>
    obtain ⟨hplaces, hfree⟩ := hpaired.places hcorr hs hs'
    rcases hc with rfl | ⟨p, hp, rfl⟩
    · obtain rfl : c' = s'.memory.free := by omega
      exact ⟨moves, s, moves', s', ⟨scan_stops, hs, List.prefix_rfl, Nat.le_refl _, rfl⟩,
        ⟨scan_stops, hs', List.prefix_rfl, Nat.le_refl _, rfl⟩, hpaired⟩
    · obtain ⟨p', hp', hpp', hplace⟩ := exists_of_mem_of_forall₂ hplaces hp
      obtain rfl : c' = p'.2 := by omega
      have hbound := hs.packed.bounds hp
      have hbound' := hs'.packed.bounds hp'
      have hhead : 12 ≤ m.extentAt p.1 := m.headerBytes_le_extentAt p.1
      have hhead' : 12 ≤ m'.extentAt p'.1 := m'.headerBytes_le_extentAt p'.1
      have hroom := hs.free_le hcorr.left hroots
      have hroom' := hs'.free_le hcorr.right hroots'
      obtain ⟨moves₁, s₁, moves₁', s₁', ⟨hrun₁, hcont₁⟩, ⟨hrun₁', hcont₁'⟩, hpaired₁⟩ :=
        scanObject_abreast hcorr hroots hroots' hp hp' hpp' hs hs' hpaired
      have hp₁ := hcont₁.grows.subset hp
      have hp₁' := hcont₁'.grows.subset hp'
      have hext := (hcorr.objects p.1 p'.1 hpp').extent
      obtain ⟨moves₂, s₂, moves₂', s₂', ⟨hrun₂, hcont₂⟩, ⟨hrun₂', hcont₂'⟩, hpaired₂⟩ :=
        ih _ (by omega) hcont₁.invariant hcont₁'.invariant hpaired₁ (by omega)
          (hcont₁.invariant.packed.next hp₁) rfl
      exact ⟨moves₂, s₂, moves₂', s₂',
        ⟨scan_runs hp₁ ⟨by omega, by omega⟩ hrun₁ hcont₁.invariant hrun₂, hcont₁.trans hcont₂⟩,
        ⟨scan_runs hp₁' ⟨by omega, by omega⟩ hrun₁' hcont₁'.invariant hrun₂',
          hcont₁'.trans hcont₂'⟩,
        hpaired₂⟩

/-- **All roots on each side.** -/
theorem relocateRoots_abreast (hsize : roots'.size = roots.size)
    (hrenames : ∀ j (h : j < roots.size) (h' : j < roots'.size),
      Value.Renames ρ roots[j] roots'[j])
    (hs : Invariant m roots moves c s) (hs' : Invariant m' roots' moves' c' s')
    (hpaired : Paired ρ moves moves') (hc : c ≤ s.memory.free) (hc' : c' ≤ s'.memory.free)
    {n i : Nat} (hn : i + n = roots.size) (hdone : RootsDone roots moves i s.roots)
    (hdone' : RootsDone roots' moves' i s'.roots) :
    ∃ moves₁ s₁ moves₁' s₁', Runs m (relocateRoots i n) s () s₁ ∧
      Runs m' (relocateRoots i n) s' () s₁' ∧ Invariant m roots moves₁ c s₁ ∧
      Invariant m' roots' moves₁' c' s₁' ∧ Paired ρ moves₁ moves₁' ∧
      RootsDone roots moves₁ roots.size s₁.roots ∧
      RootsDone roots' moves₁' roots'.size s₁'.roots := by
  induction n generalizing i moves s moves' s' with
  | zero =>
    obtain rfl : i = roots.size := by omega
    exact ⟨moves, s, moves', s', .pure m () s, .pure m' () s', hs, hs', hpaired, hdone,
      hsize ▸ hdone'⟩
  | succ n ih =>
    have hi : i < roots.size := by omega
    have hi' : i < roots'.size := by omega
    have hroot : s.roots[i]? = some roots[i] := by
      rw [Array.getElem?_eq_getElem (by rw [hdone.size]; exact hi), hdone.same i hi (Nat.le_refl i)]
    have hroot' : s'.roots[i]? = some roots'[i] := by
      rw [Array.getElem?_eq_getElem (by rw [hdone'.size]; exact hi'),
        hdone'.same i hi' (Nat.le_refl i)]
    obtain ⟨moves₁, w, s₁, moves₁', w', s₁', hgo₁, hgo₁', hpaired₁, hw, hw'⟩ :=
      relocate_abreast hcorr hroots hroots' hs hs' hpaired hc hc' (hrenames i hi hi')
        (fun a ha => .root (ha ▸ Array.getElem_mem hi))
        fun a ha => .root (ha ▸ Array.getElem_mem hi')
    have hdone₁ := hdone.next hgo₁.continues.grows hi hw
    have hdone₁' := hdone'.next hgo₁'.continues.grows hi' hw'
    rw [← hgo₁.continues.roots] at hdone₁
    rw [← hgo₁'.continues.roots] at hdone₁'
    obtain ⟨moves₂, s₂, moves₂', s₂', hrun₂, hrun₂', hrest⟩ :=
      ih (hgo₁.continues.invariant.withRoots (s₁.roots.setIfInBounds i w))
        (hgo₁'.continues.invariant.withRoots (s₁'.roots.setIfInBounds i w')) hpaired₁
        (Nat.le_trans hc hgo₁.continues.free_le) (Nat.le_trans hc' hgo₁'.continues.free_le)
        (show i + 1 + n = roots.size by omega) hdone₁ hdone₁'
    exact ⟨moves₂, s₂, moves₂', s₂', (relocateRoot_runs hroot hgo₁.run).bind hrun₂,
      (relocateRoot_runs hroot' hgo₁'.run).bind hrun₂', hrest⟩

/-- **Corresponding heaps are collected in the same order.** -/
theorem run_abreast (hsize : roots'.size = roots.size)
    (hrenames : ∀ j (h : j < roots.size) (h' : j < roots'.size),
      Value.Renames ρ roots[j] roots'[j]) :
    ∃ moves s moves' s', Collected m roots moves s ∧ Collected m' roots' moves' s' ∧
      Paired ρ moves moves' := by
  obtain ⟨moves₁, s₁, moves₁', s₁', hrun₁, hrun₁', hinv₁, hinv₁', hpaired₁, hdone₁, hdone₁'⟩ :=
    relocateRoots_abreast hcorr hroots hroots' hsize hrenames (flip_invariant m roots)
      (flip_invariant m' roots') .nil (Nat.le_refl _) (Nat.le_refl _) (Nat.zero_add _)
      (rootsDone_zero roots) (rootsDone_zero roots')
  obtain ⟨moves₂, s₂, moves₂', s₂', ⟨hrun₂, hcont₂⟩, ⟨hrun₂', hcont₂'⟩, hpaired₂⟩ :=
    scan_abreast hcorr hroots hroots' hinv₁ hinv₁' hpaired₁ (Nat.add_comm _ _) hinv₁.packed.first
  rw [← hsize] at hrun₁'
  obtain ⟨s, hcollected⟩ := Collected.of_parts hcorr.left hroots hrun₁ hdone₁ hrun₂ hcont₂
  obtain ⟨s', hcollected'⟩ := Collected.of_parts hcorr.right hroots' hrun₁' hdone₁' hrun₂' hcont₂'
  exact ⟨moves₂, s, moves₂', s', hcollected, hcollected', hpaired₂⟩

end Abreast

end Collector

/-! ## What was moved is determined -/

section Unique

variable {m m₁ : Memory} {roots roots₁ : Array Value}

/-- A reference that two renamings take to the same value. -/
theorem Value.Renames.transfer {ρ σ : Renaming} {a : Address} {n : Nat} {v w : Value}
    (hfun : ∀ o n n', ρ o n → ρ o n' → n = n') (hv : v = .ref a) (hρ : Value.Renames ρ v w)
    (hσ : Value.Renames σ v w) (h : ρ a.offset n) : σ a.offset n := by
  subst hv
  obtain ⟨b, rfl, hb⟩ := hρ.of_ref
  obtain ⟨b', hbb', hb'⟩ := hσ.of_ref
  obtain rfl := Value.ref.inj hbb'
  obtain rfl := hfun _ _ _ h hb
  exact hb'

/-- Two relocations with the same outcome rename alike. -/
theorem Relocation.transfer {ρ σ : Renaming} (hρ : Relocation m roots ρ m₁ roots₁)
    (hσ : Relocation m roots σ m₁ roots₁) {o n : Nat} (h : ρ o n) : σ o n := by
  -- along the path that reaches the object
  have hreach := (hρ.domain o).2 ⟨n, h⟩
  induction hreach generalizing n with
  | @root a hmem =>
    obtain ⟨i, hi, hget⟩ := Array.mem_iff_getElem.1 hmem
    exact (hρ.renamed i hi).transfer hρ.functional hget (hσ.renamed i hi) h
  | @cls o a hreach hcls ih =>
    obtain ⟨k, hk⟩ := (hρ.domain o).1 hreach
    exact (hρ.objects o k hk).cls.transfer hρ.functional hcls (hσ.objects o k (ih hk)).cls h
  | @field o i a hreach hkind hi hfield ih =>
    obtain ⟨k, hk⟩ := (hρ.domain o).1 hreach
    exact ((hρ.objects o k hk).fields hkind i hi).transfer hρ.functional hfield
      ((hσ.objects o k (ih hk)).fields hkind i hi) h

/-- What a collection moves, and in which order, is determined. -/
theorem Collector.Collected.unique {moves moves' : List (Nat × Nat)} {s s' : Collector}
    (h : Collected m roots moves s) (h' : Collected m roots moves' s') :
    s = s' ∧ moves = moves' := by
  obtain ⟨-, rfl⟩ := EStateM.Result.ok.inj (h.run.run.symm.trans h'.run.run)
  have hplaces : moves.map Prod.snd = moves'.map Prod.snd := h.headers.symm.trans h'.headers
  have hlength : moves.length = moves'.length := by simpa using congrArg List.length hplaces
  refine ⟨rfl, List.ext_getElem hlength fun i hi hi' => ?_⟩
  have hmem : moves[i] ∈ moves' := h.relocation.transfer h'.relocation (List.getElem_mem hi)
  have hplace : moves[i].2 = moves'[i].2 := by
    have hget := congrArg (fun l : List Nat => l[i]?) hplaces
    simpa [hi, hi'] using hget
  exact h'.packed.eq_of_start_eq (fun p => m.extentAt_pos p.1) hmem (List.getElem_mem hi') hplace

end Unique

/-! ## Heaps in order -/

/-- The objects lie in the order in which a collection meets them. -/
def Memory.InOrder (m : Memory) (roots : Array Value) : Prop :=
  ∃ moves s, Collector.Collected m roots moves s ∧ moves.map Prod.fst = m.headers

section InOrder

variable {m m' : Memory} {roots : Array Value} {moves : List (Nat × Nat)} {s : Collector}

/-- **What a collection leaves is in order.** -/
theorem Collector.Collected.inOrder (hm : m.WellFormed) (hroots : ∀ v ∈ roots, m.Holds v)
    (h : Collected m roots moves s) : s.memory.InOrder s.roots := by
  have hrel := h.relocation
  -- the heap is collected once more, abreast of what was left of it
  obtain ⟨moves₁, s₁, moves₁', s₁', h₁, h₁', hpaired⟩ :=
    run_abreast (.of_relocation hm hroots hrel) hroots hrel.holds hrel.size_roots
      fun j hj _ => hrel.renamed j hj
  obtain ⟨-, rfl⟩ := h.unique h₁
  refine ⟨moves₁', s₁', h₁', ?_⟩
  rw [h.headers]
  exact map_eq_of_forall₂ hpaired fun p hp p' hpp' => hrel.functional p.1 p'.1 p.2 hpp' hp

/-- Whether a heap is in order depends on its objects alone. -/
theorem Memory.InOrder.congr (h : m.InOrder roots) (hm : m.WellFormed) (hm' : m'.WellFormed)
    (hsame : m.SameObjects m') (hroots : ∀ v ∈ roots, m.Holds v) : m'.InOrder roots := by
  obtain ⟨moves, s, hcollected, horder⟩ := h
  have hheaders := hsame.headers hm.tiled
  have hself := Corresponds.refl hm
  have hcorr : Corresponds (fun a b => a ∈ m.headers ∧ a = b) m m' := by
    refine hself.congr hm hm' rfl hheaders fun a b hab => ?_
    exact (hself.objects a b hab).congr (fun _ _ => rfl)
      (hsame.agreeAt hm.tiled (hself.range a b hab))
  obtain ⟨moves₁, s₁, moves₁', s₁', h₁, h₁', hpaired⟩ :=
    Collector.run_abreast hcorr hroots (fun v hv => hsame.holds hm.tiled (hroots v hv)) rfl
      fun j hj _ => .refl (hroots _ (Array.getElem_mem hj))
  obtain ⟨-, rfl⟩ := hcollected.unique h₁
  refine ⟨moves₁', s₁', h₁', ?_⟩
  rw [hheaders, ← horder]
  exact map_eq_of_forall₂ hpaired fun p _ p' hpp' => hpp'.2.symm

end InOrder

/-! ## Moving without rearranging -/

/-- An object keeps its distance from the start of the semispace. -/
def Memory.shift (m : Memory) : Renaming := fun a b => b + m.start = a + m.otherStart

/-- The heap is moved to the other semispace as it is. -/
structure Memory.Slides (m : Memory) (roots : Array Value) (m' : Memory) (roots' : Array Value) :
    Prop where
  start : m'.start = m.otherStart
  otherStart : m'.otherStart = m.start
  free : m.shift m.free m'.free
  headers : ∀ o ∈ m.headers, ∀ o', m.shift o o' → o' ∈ m'.headers
  /-- All bytes stay the same that do not belong to references. -/
  bytes : ∀ o ∈ m.headers, ∀ o', m.shift o o' → ∀ k < m.extentAt o,
    (∀ l, Collector.Slot m o l → k < l ∨ l + 4 ≤ k) →
      m'.arena.get (o' + k) = m.arena.get (o + k)
  /-- References are shifted. -/
  slots : ∀ o ∈ m.headers, ∀ o', m.shift o o' → ∀ l, Collector.Slot m o l →
    Value.Renames m.shift (Value.decode (m.wordAt (o + l))) (Value.decode (m'.wordAt (o' + l)))
  size_roots : roots'.size = roots.size
  roots : ∀ j (h : j < roots.size), Value.Renames m.shift roots[j] roots'[j]

section Slides

variable {m m' m'' : Memory} {roots roots' roots'' : Array Value}

/-- **A collection of a heap in order** moves it as it is. -/
theorem Memory.InOrder.slides (hm : m.WellFormed) (hroots : ∀ v ∈ roots, m.Holds v)
    (h : m.InOrder roots) {moves : List (Nat × Nat)} {s : Collector}
    (hs : Collector.Collected m roots moves s) : m.Slides roots s.memory s.roots := by
  obtain ⟨moves', s', hs', horder⟩ := h
  obtain ⟨-, rfl⟩ := hs.unique hs'
  have hrel := hs.relocation
  -- the old places are packed like the new ones
  have htiled : Tiles Prod.fst (fun p => m.extentAt p.1) m.start moves m.free :=
    .of_map_start (horder.symm ▸ hm.tiled)
  have hself : List.Forall₂ (fun p q : Nat × Nat => m.extentAt p.1 = m.extentAt q.1) moves moves :=
    List.forall₂_same.2 fun _ _ => rfl
  obtain ⟨hplaces, hfree⟩ := hs.packed.forall₂ htiled hself
  have hplace : ∀ o n, Collector.movedTo moves o n → m.shift o n :=
    fun o n hmem => List.forall₂_same.1 hplaces (o, n) hmem
  have hof : ∀ o ∈ m.headers, ∀ o', m.shift o o' → Collector.movedTo moves o o' := by
    intro o ho o' hshift
    rw [← horder] at ho
    obtain ⟨⟨o, n⟩, hmem, rfl⟩ := List.mem_map.1 ho
    have hn := hplace o n hmem
    unfold shift at hshift hn
    obtain rfl : o' = n := by omega
    exact hmem
  have hcorr := Corresponds.of_relocation hm hroots hrel
  constructor
  case start => exact hrel.start
  case otherStart => exact hrel.otherStart
  case free => exact hfree
  case headers => exact fun o ho o' hshift => (hrel.range o').2 ⟨o, hof o ho o' hshift⟩
  case bytes => exact fun o ho o' hshift => hs.copies (o, o') (hof o ho o' hshift)
  case slots =>
    exact fun o ho o' hshift l hl => (hl.renames hcorr (hof o ho o' hshift)).mono hplace
  case size_roots => exact hrel.size_roots
  case roots => exact fun j hj => (hrel.renamed j hj).mono hplace

namespace Memory.Slides

theorem sizeWordAt (h : m.Slides roots m' roots') {o o' : Nat} (ho : o ∈ m.headers)
    (hshift : m.shift o o') : m'.sizeWordAt o' = m.sizeWordAt o := by
  have hhead : 12 ≤ m.extentAt o := m.headerBytes_le_extentAt o
  refine Arena.getWord_congr fun k hk => ?_
  rw [Nat.add_assoc, Nat.add_assoc]
  refine h.bytes o ho o' hshift (8 + k) (by omega) fun l hl => ?_
  have hlow := hl.eq_zero_or_ge
  simp only [headerBytes] at hlow
  omega

/-- An object has its references where it had them. -/
theorem slot (h : m.Slides roots m' roots') {o o' l : Nat} (ho : o ∈ m.headers)
    (hshift : m.shift o o') : Collector.Slot m' o' l ↔ Collector.Slot m o l := by
  have hsize := h.sizeWordAt ho hshift
  have hkind : m'.kindAt o' = m.kindAt o := by simp only [kindAt, hsize]
  have hcount : m'.countAt o' = m.countAt o := by simp only [countAt, hsize]
  constructor
  · intro hl
    cases hl with
    | cls => exact .cls
    | field hk hi => exact .field (hkind.symm.trans hk) (hcount ▸ hi)
  · intro hl
    cases hl with
    | cls => exact .cls
    | field hk hi => exact .field (hkind.trans hk) (hcount.symm ▸ hi)

/-- What is shifted twice is where it was. -/
theorem shift_back (h : m.Slides roots m' roots') {a b c : Nat} (hab : m.shift a b)
    (hbc : m'.shift b c) : c = a := by
  have hstart := h.start
  have hother := h.otherStart
  unfold shift at hab hbc
  omega

theorem renames_back (h : m.Slides roots m' roots') {v w u : Value}
    (hvw : Value.Renames m.shift v w) (hwu : Value.Renames m'.shift w u) : u = v := by
  cases hvw with
  | small n =>
    cases hwu with
    | small n => rfl
  | ref hab =>
    cases hwu with
    | ref hbc => exact congrArg Value.ref (Address.ext (h.shift_back hab hbc))

/-- **There and back.** A heap that is moved twice as it is has the bytes it had. -/
theorem back (hm : m.WellFormed) (h : m.Slides roots m' roots')
    (h' : m'.Slides roots' m'' roots'') : m.SameObjects m'' ∧ roots'' = roots := by
  have hstart : m''.start = m.start := h'.start.trans h.otherStart
  have hfree : m''.free = m.free := h.shift_back h.free h'.free
  refine ⟨⟨hstart, hfree, fun i hlow hhigh => ?_⟩, ?_⟩
  · obtain ⟨o, ho, hoi⟩ := hm.tiled.covers ⟨hlow, hhigh⟩
    obtain ⟨k, rfl⟩ := Nat.exists_eq_add_of_le hoi.1
    have hk : k < m.extentAt o := Nat.lt_of_add_lt_add_left hoi.2
    have hin := hm.within ho
    -- where the object is in between
    obtain ⟨o', hshift⟩ : ∃ o', m.shift o o' := ⟨o - m.start + m.otherStart, by unfold shift; omega⟩
    have ho' := h.headers o ho o' hshift
    have hback : m'.shift o' o := by
      have h₁ := h.start
      have h₂ := h.otherStart
      unfold shift at *
      omega
    have hextent : m'.extentAt o' = m.extentAt o := by
      simp only [extentAt, kindAt, countAt, h.sizeWordAt ho hshift]
    by_cases hslot : ∃ l, Collector.Slot m o l ∧ l ≤ k ∧ k < l + 4
    · obtain ⟨l, hl, hlk⟩ := hslot
      have hvalue := h.renames_back (h.slots o ho o' hshift l hl)
        (h'.slots o' ho' o hback l ((h.slot ho hshift).2 hl))
      have hword : m''.wordAt (o + l) = m.wordAt (o + l) := by
        rw [← Value.encode_decode (m''.wordAt (o + l)), hvalue, Value.encode_decode]
      have hbyte := Arena.get_eq_of_getWord_eq hword (k - l) (by omega)
      rwa [show o + l + (k - l) = o + k by omega] at hbyte
    · have hout : ∀ l, Collector.Slot m o l → k < l ∨ l + 4 ≤ k := by
        intro l hl
        by_contra hcon
        exact hslot ⟨l, hl, by omega, by omega⟩
      exact (h'.bytes o' ho' o hback k (hextent.symm ▸ hk) fun l hl =>
        hout l ((h.slot ho hshift).1 hl)).trans (h.bytes o ho o' hshift k hk hout)
  · have hsize : roots''.size = roots.size := h'.size_roots.trans h.size_roots
    refine Array.ext hsize fun i hi hi' => ?_
    exact h.renames_back (h.roots i hi') (h'.roots i (h.size_roots ▸ hi'))

end Memory.Slides

end Slides

end Smalltalk
