import Smalltalk.Proofs.Identity
import Smalltalk.Proofs.Simulation.Effects

/-!
# Effects that allocate

Before an object is placed the heap may be collected. Which of two machines collects is their own
affair, so what is shown first is about one machine: it *settles*, which is to say that it is left
with a heap that corresponds to the one before, whether by a collection or because nothing happened.
Two machines that correspond and settle correspond again, under a renaming that goes through both.

Twins settle in the same way, and so their renaming still moves nothing.

## Main definitions

* `Settles`: a heap and its registers, possibly after a collection

## Main results

* `createObject_moves`: making an object
* `collectGarbage_moves`: a collection that is asked for
-/

namespace Smalltalk

open Memory Machine

/-! ## Registers after a collection -/

/-- The heap and its registers are those before, possibly moved. -/
structure Settles (σ : Renaming) (m : Memory) (r : Registers) (m₁ : Memory) (r₁ : Registers) :
    Prop where
  corresponds : Corresponds σ m m₁
  carries : m.Carries σ m₁
  total : ∀ b ∈ m₁.headers, ∃ a, σ a b
  counter : m₁.hashCounter = m.hashCounter
  changes : Relation.ReflTransGen Memory.Changes m m₁
  settings : m₁.settings = m.settings
  registers : r.Renames σ r₁

/-- The values of the registers belong to the heap. -/
structure Registers.Held (m : Memory) (r : Registers) : Prop where
  named : ∀ i : Fin Root.count, m.Holds (getElem r.named i i.isLt)
  scratch : ∀ v ∈ r.scratch, m.Holds v

section Roots

variable {m : Memory} {r : Registers}

theorem Registers.Held.roots (h : r.Held m) : ∀ v ∈ RootSet.toArray r, m.Holds v := by
  intro v hv
  rcases Array.mem_append.1 hv with hv | hv
  · obtain ⟨i, hi, rfl⟩ := Array.mem_iff_getElem.1 hv
    exact h.named ⟨i, by simpa using hi⟩
  · exact h.scratch v hv

theorem Registers.Held.pinned (h : r.Held m) {pinned : Array Value}
    (hpinned : ∀ v ∈ pinned, m.Holds v) : ∀ v ∈ RootSet.toArray r ++ pinned, m.Holds v := by
  intro v hv
  rcases Array.mem_append.1 hv with hv | hv
  · exact h.roots v hv
  · exact hpinned v hv

theorem size_roots (r : Registers) :
    (RootSet.toArray r).size = Root.count + r.scratch.size := by
  simp [RootSet.toArray]

theorem roots_named (r : Registers) (i : Fin Root.count) :
    (RootSet.toArray r)[i.val]? = some (getElem r.named i i.isLt) := by
  have hi := i.isLt
  simp [RootSet.toArray, Array.getElem?_append, hi]

theorem roots_scratch (r : Registers) {i : Nat} (hi : i < r.scratch.size) :
    (RootSet.toArray r)[Root.count + i]? = some r.scratch[i] := by
  simp [RootSet.toArray, hi]

/-- Once the roots are renamed, so are the registers made of them. -/
theorem Registers.Renames.of_roots {σ : Renaming} {roots₁ : Array Value} {k : Nat}
    (hsize : roots₁.size = (RootSet.toArray r).size + k)
    (h : ∀ i v, i < (RootSet.toArray r).size → (RootSet.toArray r)[i]? = some v →
      ∃ w, roots₁[i]? = some w ∧ Value.Renames σ v w) :
    r.Renames σ (RootSet.replace r (roots₁.extract 0 (RootSet.toArray r).size)) := by
  have hcount := size_roots r
  generalize hold : (RootSet.toArray r).size = N at *
  have hnew : ∀ i < N, (roots₁.extract 0 N)[i]? = roots₁[i]? := by
    intro i hi
    rw [Array.getElem?_extract, if_pos (by omega), Nat.zero_add]
  have hlen : (roots₁.extract 0 N).size = N := by
    rw [Array.size_extract]
    omega
  refine ⟨fun i => ?_, List.forall₂_iff_get.2 ⟨?_, fun i hi hi' => ?_⟩⟩
  · have hi := i.isLt
    obtain ⟨w, hw, hren⟩ := h i _ (by omega) (roots_named r i)
    have hget : (RootSet.replace r (roots₁.extract 0 N)).named[i] =
        (roots₁.extract 0 N).getD i r.named[i] := by
      simp only [RootSet.replace, Fin.getElem_fin, Vector.getElem_ofFn]
    rw [hget, Array.getD_eq_getD_getElem?, hnew i (by omega), hw]
    exact hren
  · simp only [RootSet.replace, Array.length_toList, Array.size_extract, hlen]
    omega
  · rw [Array.length_toList] at hi
    obtain ⟨w, hw, hren⟩ := h (Root.count + i) _ (by omega) (roots_scratch r hi)
    have hsome : (RootSet.replace r (roots₁.extract 0 N)).scratch.toList[i]? = some w := by
      simp only [RootSet.replace, Array.getElem?_toList]
      rw [Array.getElem?_extract, hlen, if_pos (by omega), hnew _ (by omega), hw]
    obtain ⟨_, hget⟩ := List.getElem?_eq_some_iff.1 hsome
    rw [List.get_eq_getElem, List.get_eq_getElem, hget, Array.getElem_toList]
    exact hren

end Roots

/-! ## One machine -/

section Settling

variable {m : Memory} {r : Registers}

theorem Registers.Renames.refl (h : r.Held m) :
    r.Renames (fun a b => a ∈ m.headers ∧ a = b) r :=
  ⟨fun i => .refl (h.named i),
    List.forall₂_same.2 fun v hv => .refl (h.scratch v (Array.mem_toList_iff.1 hv))⟩

theorem Registers.Held.twin {m' : Memory} (h : r.Held m) (hm : m.WellFormed) (ht : m.Twin m') :
    r.Held m' :=
  ⟨fun i => ht.holds hm (h.named i), fun v hv => ht.holds hm (h.scratch v hv)⟩

/-- Nothing has happened. -/
theorem Settles.refl (hm : m.WellFormed) (h : r.Held m) :
    Settles (fun a b => a ∈ m.headers ∧ a = b) m r m r :=
  ⟨.refl hm, .refl, fun b hb => ⟨b, hb, rfl⟩, rfl, .refl, rfl, .refl h⟩

/-- The heap has been collected. -/
theorem Settles.of_relocation (hm : m.WellFormed) (h : r.Held m) {pinned : Array Value}
    (hpinned : ∀ v ∈ pinned, m.Holds v) {σ : Renaming} {m₁ : Memory} {roots₁ : Array Value}
    (hr : Relocation m (RootSet.toArray r ++ pinned) σ m₁ roots₁) :
    Settles σ m r m₁ (RootSet.replace r (roots₁.extract 0 (RootSet.toArray r).size)) where
  corresponds := .of_relocation hm (h.pinned hpinned) hr
  carries := .of_relocation hm (h.pinned hpinned) hr
  total := fun b hb => (hr.range b).1 hb
  counter := hr.hashCounter
  changes := .single (.collect hr)
  settings := hr.settings
  registers := by
    have hsize := hr.size_roots
    rw [Array.size_append] at hsize
    refine .of_roots hsize fun i v hi hv => ?_
    have hlt : i < (RootSet.toArray r ++ pinned).size := by
      rw [Array.size_append]
      omega
    refine ⟨roots₁[i], Array.getElem?_eq_getElem _, ?_⟩
    have hren := hr.renamed i hlt
    rw [Array.getElem_append_left hi] at hren
    rwa [(Array.getElem?_eq_some_iff.1 hv).2] at hren

theorem Relocation.renamed_pinned {roots pinned roots₁ : Array Value} {σ : Renaming} {m₁ : Memory}
    (hr : Relocation m (roots ++ pinned) σ m₁ roots₁) {i : Nat} (hi : i < pinned.size)
    (d : Value) :
    Value.Renames σ pinned[i] ((roots₁.extract roots.size roots₁.size).getD i d) := by
  have hsize := hr.size_roots
  rw [Array.size_append] at hsize
  have hlt : roots.size + i < (roots ++ pinned).size := by
    rw [Array.size_append]
    omega
  have hren := hr.renamed _ hlt
  rw [Array.getElem_append_right (Nat.le_add_right _ _)] at hren
  simp only [Nat.add_sub_cancel_left] at hren
  rw [Array.getD_eq_getD_getElem?, Array.getElem?_extract, if_pos (by omega),
    Array.getElem?_eq_getElem (by omega)]
  exact hren

theorem Memory.Twin.fits {m' : Memory} (h : m.Twin m') (bytes : Nat) :
    m'.fits bytes = m.fits bytes := by
  obtain ⟨A, rfl, -⟩ := h
  rfl

/-- The end of an allocation: the object is placed if there is room. -/
def placeFitting {ρ : Type} (cls : Value) (size : Nat) (kind : BodyKind) (fill : Value) :
    Managed ρ Value := fun s =>
  if size ≤ maxCount ∧ s.memory.fits (extent size kind) then placeObject cls size kind fill s
  else .error (.memoryExhausted (extent size kind)) s

theorem not_fits (hm : m.WellFormed) {bytes : Nat} (h : m.capacity < bytes) :
    m.fits bytes = false := by
  have hle := hm.tiled.le_end
  refine decide_eq_false ?_
  rw [Memory.limit]
  omega

theorem placeFitting_of_fits {ρ : Type} {r : ρ} (hm : m.WellFormed) (cls fill : Value) {size : Nat}
    {kind : BodyKind} (h : size ≤ maxCount ∧ m.fits (extent size kind)) :
    m.free + extent size kind ≤ m.limit ∧ ∃ a : Address, a.offset = m.free ∧
      placeFitting cls size kind fill ⟨m, r⟩ = .ok (.ref a) ⟨m.place cls size kind fill, r⟩ := by
  have hfits := of_decide_eq_true h.2
  have hlt : m.free < 2147483648 := by
    have hlimit := hm.limit_le
    have hextent := headerBytes_le_extent size kind
    rw [headerBytes] at hextent
    omega
  refine ⟨hfits, ⟨m.free, hlt⟩, rfl, ?_⟩
  have hplace : size ≤ maxCount ∧ (Rooted.mk m r).memory.fits (extent size kind) := h
  rw [placeFitting, if_pos hplace, placeObject, Address.ofNat?, dif_pos hlt]

/-- An allocation that does not collect. -/
theorem allocate_eq_placeFitting {ρ : Type} [RootSet ρ] {r : ρ} (hm : m.WellFormed)
    {cls fill : Value} {size : Nat} {kind : BodyKind}
    (h : maxCount < size ∨ m.capacity < extent size kind ∨ m.fits (extent size kind) ∨
      m.settings.gcEnabled = false) :
    allocate cls size kind fill ⟨m, r⟩ = placeFitting cls size kind fill ⟨m, r⟩ := by
  have hbig : m.capacity < extent size kind → m.fits (extent size kind) = false := not_fits hm
  unfold allocate placeFitting
  by_cases hc : maxCount < size ∨ m.capacity < extent size kind
  · rw [if_pos hc, if_neg]
    rintro ⟨hsize, hfits⟩
    rcases hc with hc | hc
    · exact absurd hsize (Nat.not_le.2 hc)
    · exact absurd hfits (Bool.eq_false_iff.1 (hbig hc))
  rw [if_neg hc]
  push Not at hc
  by_cases hfits : m.fits (extent size kind) = true
  · rw [if_pos hfits, if_pos ⟨hc.1, hfits⟩]
  · have hdisabled : ¬ m.settings.gcEnabled = true := by
      rcases h with h | h | h | h
      · exact absurd hc.1 (Nat.not_le.2 h)
      · exact absurd hc.2 (Nat.not_le.2 h)
      · exact absurd h hfits
      · exact Bool.eq_false_iff.1 h
    have hplace : ¬ (size ≤ maxCount ∧ m.fits (extent size kind) = true) := fun h => hfits h.2
    rw [if_neg hfits, if_neg hplace, if_pos hdisabled]

/-- An allocation that collects. -/
theorem allocate_of_collect {ρ : Type} [RootSet ρ] {r : ρ} {cls fill : Value} {size : Nat}
    {kind : BodyKind} {pinned : Array Value} {s : Rooted ρ} (hsize : size ≤ maxCount)
    (hcapacity : extent size kind ≤ m.capacity) (hfits : m.fits (extent size kind) = false)
    (henabled : m.settings.gcEnabled = true)
    (hrun : collectWith #[cls, fill] ⟨m, r⟩ = .ok pinned s) :
    allocate cls size kind fill ⟨m, r⟩ =
      placeFitting (pinned.getD 0 cls) size kind (pinned.getD 1 fill) s := by
  unfold allocate placeFitting
  rw [if_neg (not_or.2 ⟨Nat.not_lt.2 hsize, Nat.not_lt.2 hcapacity⟩), if_neg (by simp [hfits]),
    if_neg (by simp [henabled]), hrun]
  simp only [hsize, true_and]

/-- **An allocation.** The heap settles, with the class and the fill value of the new object, and
then the object is placed if there is room. Twins settle in the same way. -/
theorem allocate_settles (hm : m.WellFormed) (h : r.Held m) {cls fill : Value} (hcls : m.Holds cls)
    (hfill : m.Holds fill) (size : Nat) (kind : BodyKind) :
    ∃ σ m₁ r₁ cls₁ fill₁, Settles σ m r m₁ r₁ ∧ Value.Renames σ cls cls₁ ∧
      Value.Renames σ fill fill₁ ∧
      allocate cls size kind fill ⟨m, r⟩ = placeFitting cls₁ size kind fill₁ ⟨m₁, r₁⟩ ∧
      ∀ m', m.Twin m' → ∃ m₁', m₁.Twin m₁' ∧ Settles σ m' r m₁' r₁ ∧
        allocate cls size kind fill ⟨m', r⟩ = placeFitting cls₁ size kind fill₁ ⟨m₁', r₁⟩ := by
  by_cases hc : maxCount < size ∨ m.capacity < extent size kind ∨ m.fits (extent size kind) ∨
      m.settings.gcEnabled = false
  · refine ⟨_, m, r, cls, fill, .refl hm h, .refl hcls, .refl hfill,
      allocate_eq_placeFitting hm hc, fun m' ht => ⟨m', ht, ?_, ?_⟩⟩
    · rw [← ht.headers hm]
      exact .refl (ht.wellFormed hm) (h.twin hm ht)
    · refine allocate_eq_placeFitting (ht.wellFormed hm) ?_
      obtain ⟨A, rfl, -⟩ := ht
      exact hc
  · push Not at hc
    obtain ⟨hsize, hcapacity, hfits, henabled⟩ := hc
    have hfits : m.fits (extent size kind) = false := eq_false_of_ne_true hfits
    have henabled : m.settings.gcEnabled = true := eq_true_of_ne_false henabled
    have hpinned : ∀ v ∈ #[cls, fill], m.Holds v := by simp [hcls, hfill]
    obtain ⟨σ, m₁, roots₁, hr, hrun, htwin⟩ :=
      collectWith_relocates #[cls, fill] hm h.roots hpinned
    refine ⟨σ, m₁, _, _, _, .of_relocation hm h hpinned hr,
      hr.renamed_pinned (i := 0) (by simp) cls, hr.renamed_pinned (i := 1) (by simp) fill,
      allocate_of_collect hsize hcapacity hfits henabled hrun, fun m' ht => ?_⟩
    obtain ⟨m₁', ht₁, hr', hrun'⟩ := htwin m' ht
    refine ⟨m₁', ht₁, .of_relocation (ht.wellFormed hm) (h.twin hm ht)
      (fun v hv => ht.holds hm (hpinned v hv)) hr', ?_⟩
    obtain ⟨A, rfl, -⟩ := ht
    exact allocate_of_collect hsize hcapacity hfits henabled hrun'

end Settling

/-! ## Two machines -/

/-- What `ρ` says about objects, said about where `σ` and `σ'` have moved them to. -/
def Renaming.between (ρ σ σ' : Renaming) : Renaming := ((ρ.after σ).inverse.after σ').inverse

section Between

variable {S : Setting} {ρ σ σ' : Renaming}

theorem Value.Renames.between {v v' v₁ v₁' : Value} (h : Value.Renames ρ v v')
    (hv : Value.Renames σ v v₁) (hv' : Value.Renames σ' v' v₁') :
    Value.Renames (ρ.between σ σ') v₁ v₁' :=
  (hv'.after (hv.after h).inverse).inverse

theorem Registers.Renames.between {r r' r₁ r₁' : Registers} (h : r.Renames ρ r')
    (hr : r.Renames σ r₁) (hr' : r'.Renames σ' r₁') : r₁.Renames (ρ.between σ σ') r₁' := by
  refine ⟨fun i => (h.named i).between (hr.named i) (hr'.named i), ?_⟩
  refine List.forall₂_iff_get.2 ⟨?_, fun i hi hi' => ?_⟩
  · rw [← hr.scratch.length_eq, ← hr'.scratch.length_eq]
    exact h.scratch.length_eq
  · have hold := hr.scratch.length_eq ▸ hi
    have hold' := hr'.scratch.length_eq ▸ hi'
    exact ((List.forall₂_iff_get.1 h.scratch).2 i hold hold').between
      ((List.forall₂_iff_get.1 hr.scratch).2 i hold hi)
      ((List.forall₂_iff_get.1 hr'.scratch).2 i hold' hi')

theorem Registers.Renames.eq_of_fixed {r r' : Registers} (h : r.Renames ρ r')
    (hfix : ∀ a b, ρ a b → a = b) : r = r' := by
  obtain ⟨named, scratch⟩ := r
  obtain ⟨named', scratch'⟩ := r'
  congr
  · exact Vector.ext fun i hi => (h.named ⟨i, hi⟩).eq_of_fixed hfix
  · refine Array.toList_inj.1 (List.forall₂_eq_eq_eq ▸ h.scratch.imp fun v w hvw => ?_)
    exact hvw.eq_of_fixed hfix

variable {m m' m₁ m₁' : Memory} {r r' r₁ r₁' : Registers}

/-- Heaps that correspond and settle correspond again. -/
theorem Heaps.settle (h : Heaps S ρ m m') (hs : Settles σ m r m₁ r₁)
    (hs' : Settles σ' m' r' m₁' r₁') (htwin : S.twins → σ' = σ ∧ m₁.Twin m₁') :
    Heaps S (ρ.between σ σ') m₁ m₁' where
  corresponds := ((h.corresponds.after hs.corresponds).inverse.after hs'.corresponds).inverse
  counter := hs.counter.trans (h.counter.trans hs'.counter.symm)
  changes := h.changes.trans hs.changes
  twin := fun ht => (htwin ht).2
  fixed := by
    rintro ht a b ⟨o', hb, o, ha, ho⟩
    obtain ⟨rfl, -⟩ := htwin ht
    obtain rfl := h.fixed ht _ _ ho
    exact hs.corresponds.functional _ _ _ ha hb

/-- Heaps that correspond do so after an object is placed in both. -/
theorem Heaps.place (h : Heaps S ρ m m') {cls cls' fill fill' : Value}
    (hcls : Value.Renames ρ cls cls') (hfill : Value.Renames ρ fill fill') {size : Nat}
    (hsize : size ≤ maxCount) {kind : BodyKind} (hfits : m.free + extent size kind ≤ m.limit)
    (hfits' : m'.free + extent size kind ≤ m'.limit) :
    Heaps S (ρ.add m.free m'.free) (m.place cls size kind fill)
      (m'.place cls' size kind fill') where
  corresponds := h.corresponds.place h.counter hcls hfill hsize hfits hfits'
  counter := congrArg (· + hashStep) h.counter
  changes := h.changes.tail
    (.place hfits (h.corresponds.place h.counter hcls hfill hsize hfits hfits').left)
  twin := fun ht => by
    rw [← hcls.eq_of_fixed (h.fixed ht), ← hfill.eq_of_fixed (h.fixed ht)]
    exact (h.twin ht).place cls size kind fill
  fixed := by
    rintro ht a b (hab | ⟨rfl, rfl⟩)
    · exact h.fixed ht a b hab
    · obtain ⟨A, rfl, -⟩ := h.twin ht
      rfl

end Between

/-! ## The machine -/

/-- The log after an effect on the heap. -/
def noted (before : Stats) (memory : Memory) (log : Log) : Log :=
  match collectionEvent before memory.stats memory.capacity with
  | some event => log.add event
  | none => log

theorem onHeap_apply {α : Type} (act : Managed Registers α) (m : Machine) :
    onHeap act m =
      match act ⟨m.memory, m.registers⟩ with
      | .ok a s => .ok a { m with
          memory := s.memory, registers := s.roots, log := noted m.memory.stats s.memory m.log }
      | .error e s => .error e { m with
          memory := s.memory, registers := s.roots,
          log := noted m.memory.stats s.memory m.log } := by
  obtain ⟨memory, registers⟩ := m
  dsimp only [onHeap]
  generalize act ⟨memory, registers⟩ = result
  cases result <;> rfl

section Heap

variable {S : Setting} {ρ ρ₁ : Renaming} {n : Nat} {m m' : Machine} {h h' : Memory}
  {r r' : Registers}

theorem Related.left (hm : Related S ρ n m m') : m.registers.Held m.memory := by
  refine ⟨fun i => hm.corresponds.holds_left (hm.registers.named i), fun v hv => ?_⟩
  obtain ⟨i, hi, rfl⟩ := Array.mem_iff_getElem.1 hv
  have hall := List.forall₂_iff_get.1 hm.registers.scratch
  have hi' : i < m'.registers.scratch.toList.length := hall.1 ▸ by simpa using hi
  have hren := hall.2 i (by simpa using hi) hi'
  rw [List.get_eq_getElem, Array.getElem_toList] at hren
  exact hm.corresponds.holds_left hren

theorem Related.right (hm : Related S ρ n m m') : m'.registers.Held m'.memory := by
  refine ⟨fun i => hm.corresponds.holds_right (hm.registers.named i), fun v hv => ?_⟩
  obtain ⟨i, hi, rfl⟩ := Array.mem_iff_getElem.1 hv
  have hall := List.forall₂_iff_get.1 hm.registers.scratch
  have hi' : i < m.registers.scratch.toList.length := hall.1 ▸ by simpa using hi
  have hren := hall.2 i hi' (by simpa using hi)
  simp only [List.get_eq_getElem, Array.getElem_toList] at hren
  exact hm.corresponds.holds_right hren

theorem Related.withHeap (hm : Related S ρ n m m') (hh : Heaps S ρ₁ h h') (hr : r.Renames ρ₁ r')
    (hsize : r.scratch.size = n) :
    Related S ρ₁ n
      { m with memory := h, registers := r, log := noted m.memory.stats h m.log }
      { m' with memory := h', registers := r', log := noted m'.memory.stats h' m'.log } :=
  { hm with
    heaps := hh
    registers := hr
    held := hsize
    twin := fun ht => by
      obtain ⟨A, hA, -⟩ := hm.heaps.twin ht
      obtain ⟨A₁, rfl, -⟩ := hh.twin ht
      rw [hr.eq_of_fixed (hh.fixed ht), hm.twin ht, hA]
      rfl }

/-- **Two allocations.** Both heaps settle and correspond as before; twins settle alike. -/
theorem Related.allocate (hm : Related S ρ n m m') {cls cls' fill fill' : Value}
    (hcls : Value.Renames ρ cls cls') (hfill : Value.Renames ρ fill fill') (size : Nat)
    (kind : BodyKind) :
    ∃ ρ₁ h₁ r₁ cls₁ fill₁ h₁' r₁' cls₁' fill₁', Heaps S ρ₁ h₁ h₁' ∧ r₁.Renames ρ₁ r₁' ∧
      r₁.scratch.size = n ∧ Value.Renames ρ₁ cls₁ cls₁' ∧ Value.Renames ρ₁ fill₁ fill₁' ∧
      Smalltalk.allocate cls size kind fill ⟨m.memory, m.registers⟩ =
        placeFitting cls₁ size kind fill₁ ⟨h₁, r₁⟩ ∧
      Smalltalk.allocate cls' size kind fill' ⟨m'.memory, m'.registers⟩ =
        placeFitting cls₁' size kind fill₁' ⟨h₁', r₁'⟩ := by
  obtain ⟨σ, h₁, r₁, cls₁, fill₁, hs, hc, hf, hrun, htwin⟩ :=
    allocate_settles hm.corresponds.left hm.left (hm.corresponds.holds_left hcls)
      (hm.corresponds.holds_left hfill) size kind
  have hsize : r₁.scratch.size = n := by
    have hlen := hs.registers.scratch.length_eq
    rw [Array.length_toList, Array.length_toList] at hlen
    rw [← hlen, hm.held]
  by_cases ht : S.twins
  · obtain ⟨h₁', ht₁, hs', hrun'⟩ := htwin _ (hm.heaps.twin ht)
    have hfix := hm.heaps.fixed ht
    have hc' : Value.Renames σ cls' cls₁ := hcls.eq_of_fixed hfix ▸ hc
    have hf' : Value.Renames σ fill' fill₁ := hfill.eq_of_fixed hfix ▸ hf
    rw [hm.registers.eq_of_fixed hfix] at hs'
    rw [hm.registers.eq_of_fixed hfix, hcls.eq_of_fixed hfix, hfill.eq_of_fixed hfix] at hrun'
    exact ⟨ρ.between σ σ, h₁, r₁, cls₁, fill₁, h₁', r₁, cls₁, fill₁,
      hm.heaps.settle hs hs' fun _ => ⟨rfl, ht₁⟩, hm.registers.between hs.registers hs'.registers,
      hsize, hcls.between hc hc', hfill.between hf hf', hrun, hrun'⟩
  · obtain ⟨σ', h₁', r₁', cls₁', fill₁', hs', hc', hf', hrun', -⟩ :=
      allocate_settles hm.corresponds.right hm.right (hm.corresponds.holds_right hcls)
        (hm.corresponds.holds_right hfill) size kind
    exact ⟨ρ.between σ σ', h₁, r₁, cls₁, fill₁, h₁', r₁', cls₁', fill₁',
      hm.heaps.settle hs hs' fun h => absurd h ht, hm.registers.between hs.registers hs'.registers,
      hsize, hcls.between hc hc', hfill.between hf hf', hrun, hrun'⟩

/-- Making an object. -/
theorem createObject_moves {cls cls' : Value} (hcls : Value.Renames ρ cls cls') (size : Nat)
    (kind : BodyKind) :
    Moves S ρ n (createObject cls size kind) (createObject cls' size kind) Value.Renames := by
  unfold createObject
  refine nil_keeps.bind fun fill fill' hfill => ?_
  intro m m' hm
  obtain ⟨ρ₁, h₁, r₁, cls₁, fill₁, h₁', r₁', cls₁', fill₁', hheaps, hregisters, hsize, hc, hf, hrun,
    hrun'⟩ := hm.allocate hcls hfill size kind
  have hfits : S.twins → h₁'.fits (extent size kind) = h₁.fits (extent size kind) :=
    fun ht => (hheaps.twin ht).fits _
  rw [onHeap_apply, onHeap_apply, hrun, hrun']
  by_cases hroom : size ≤ maxCount ∧ h₁.fits (extent size kind)
  · obtain ⟨hle, a, ha, hplace⟩ := placeFitting_of_fits (r := r₁) hheaps.corresponds.left cls₁ fill₁
      hroom
    rw [hplace]
    by_cases hroom' : size ≤ maxCount ∧ h₁'.fits (extent size kind)
    · obtain ⟨hle', a', ha', hplace'⟩ := placeFitting_of_fits (r := r₁') hheaps.corresponds.right
        cls₁' fill₁' hroom'
      rw [hplace']
      have hnew : r₁.Renames (ρ₁.add h₁.free h₁'.free) r₁' :=
        ⟨fun i => (hregisters.named i).add _ _,
          hregisters.scratch.imp fun _ _ hvw => hvw.add _ _⟩
      exact .ok (hm.withHeap (hheaps.place hc hf hroom.1 hle hle') hnew hsize)
        ⟨rfl, .ref (.inr ⟨ha, ha'⟩)⟩
    · rw [placeFitting, if_neg hroom']
      exact .right fun ht => hroom' ⟨hroom.1, (hfits ht).trans hroom.2⟩
  · rw [placeFitting, if_neg hroom]
    by_cases hroom' : size ≤ maxCount ∧ h₁'.fits (extent size kind)
    · exact .left fun ht => hroom ⟨hroom'.1, (hfits ht).symm.trans hroom'.2⟩
    · rw [placeFitting, if_neg hroom']
      exact .error (hm.withHeap hheaps hregisters hsize) (.fault (.same trivial))

theorem collect_of_collectWith {s s₁ : Rooted Registers} {pinned : Array Value}
    (h : collectWith #[] s = .ok pinned s₁) : collect s = .ok () s₁ := by
  show EStateM.bind (collectWith #[]) _ s = _
  rw [EStateM.bind, h]
  rfl

/-- A collection that is asked for. -/
theorem collectGarbage_moves : Moves S ρ n collectGarbage collectGarbage fun _ => Eq := by
  intro m m' hm
  have hnone : ∀ (h : Memory), ∀ v ∈ (#[] : Array Value), h.Holds v := by simp
  obtain ⟨σ, h₁, roots₁, hr, hrun, htwin⟩ :=
    collectWith_relocates #[] hm.corresponds.left hm.left.roots (hnone _)
  have hs := Settles.of_relocation hm.corresponds.left hm.left (hnone _) hr
  obtain ⟨σ', h₁', roots₁', hr', hrun', hsame⟩ : ∃ σ' h₁' roots₁',
      Relocation m'.memory (RootSet.toArray m'.registers ++ #[]) σ' h₁' roots₁' ∧
      collectWith #[] ⟨m'.memory, m'.registers⟩ =
        .ok (roots₁'.extract (RootSet.toArray m'.registers).size roots₁'.size)
          ⟨h₁', RootSet.replace m'.registers
            (roots₁'.extract 0 (RootSet.toArray m'.registers).size)⟩ ∧
      (S.twins → σ' = σ ∧ h₁.Twin h₁') := by
    by_cases ht : S.twins
    · obtain ⟨h₁', ht₁, hr', hrun'⟩ := htwin _ (hm.heaps.twin ht)
      rw [hm.registers.eq_of_fixed (hm.heaps.fixed ht)] at hr' hrun'
      exact ⟨σ, h₁', roots₁, hr', hrun', fun _ => ⟨rfl, ht₁⟩⟩
    · obtain ⟨σ', h₁', roots₁', hr', hrun', -⟩ :=
        collectWith_relocates #[] hm.corresponds.right hm.right.roots (hnone _)
      exact ⟨σ', h₁', roots₁', hr', hrun', fun h => absurd h ht⟩
  have hs' := Settles.of_relocation hm.corresponds.right hm.right (hnone _) hr'
  unfold collectGarbage
  rw [onHeap_apply, onHeap_apply, collect_of_collectWith hrun, collect_of_collectWith hrun']
  refine .ok (hm.withHeap (hm.heaps.settle hs hs' hsame)
    (hm.registers.between hs.registers hs'.registers) ?_) ⟨rfl, rfl⟩
  have hlen := hs.registers.scratch.length_eq
  rw [Array.length_toList, Array.length_toList] at hlen
  rw [← hlen, hm.held]

end Heap

end Smalltalk
