import Mathlib.Algebra.Group.Nat.Even
import Smalltalk.Proofs.Accessors
import Smalltalk.Proofs.Allocation

/-!
# The statistics account for the heap

A memory counts the objects and the bytes that the last collection has kept and those that have been
added since. Neither is computed from the heap: the first are counted while objects are copied and
the others whenever one is placed, and an allocation may do both, or fail in between. Yet after any
history together they are what a walk over the heap finds.

A history is a list of operations. Each is performed whether or not the one before has succeeded,
with the roots that the owner of the memory has at that time.

## Main definitions

* `Memory.Operation`, `Memory.Operation.after`: what can be asked of a memory, and what it leaves
* `Memory.ProperAll`: a history in which nothing but references to objects is used as one
* `Memory.Accounted`: the invariant

## Main results

* `Memory.Accounted.place`, `Memory.Accounted.relocation`: the steps that count
* `Memory.Accounted.after`: what one operation preserves
* `statistics_account_for_heap`
-/

namespace Smalltalk

namespace Memory

/-- What can be asked of a memory, with the roots where they matter. -/
inductive Operation (ρ : Type) where
  | allocate (roots : ρ) (cls : Value) (size : Nat) (kind : BodyKind) (fill : Value)
  | collect (roots : ρ)
  | assign (object : Value) (e : Assignment)
  | setBytes (object : Value) (bs : List UInt8)
  | fillBytes (object : Value) (b : UInt8)

/-- The state in which a computation ends, whether it succeeds or fails. -/
def endState {ε σ α : Type} : EStateM.Result ε σ α → σ
  | .ok _ s => s
  | .error _ s => s

section Histories

variable {ρ : Type} [RootSet ρ]

/-- The memory that an operation leaves, whether it succeeds or fails. -/
def Operation.after (m : Memory) : Operation ρ → Memory
  | .allocate roots cls size kind fill =>
    (endState (Smalltalk.allocate cls size kind fill ⟨m, roots⟩)).memory
  | .collect roots => (endState (Smalltalk.collect ⟨m, roots⟩)).memory
  | .assign object e => endState (Memory.assign object e m)
  | .setBytes object bs => endState (Memory.setBytes object bs m)
  | .fillBytes object b => endState (Memory.fillBytes object b m)

/-- All references that the operation is given are references to objects. Nothing is asked of kinds
and indices. -/
def Operation.Proper (m : Memory) : Operation ρ → Prop
  | .allocate roots cls _ _ fill =>
    (∀ v ∈ RootSet.toArray roots, m.Holds v) ∧ m.Holds cls ∧ m.Holds fill
  | .collect roots => ∀ v ∈ RootSet.toArray roots, m.Holds v
  | .assign object e => m.Holds object ∧ ∀ v, e.content = .value v → m.Holds v
  | .setBytes object _ => m.Holds object
  | .fillBytes object _ => m.Holds object

/-- Every operation of the history is proper when its turn comes. -/
def ProperAll (m : Memory) : List (Operation ρ) → Prop
  | [] => True
  | op :: ops => op.Proper m ∧ ProperAll (op.after m) ops

/-- The memory that a history leaves. -/
def afterAll (m : Memory) (ops : List (Operation ρ)) : Memory := ops.foldl Operation.after m

end Histories

/-- What changes a row of bytes, with new bytes that are computed from how many there are, replaces
some bytes of an object or does nothing. -/
theorem endState_onBytes {m : Memory} (hm : m.WellFormed) {object : Value}
    (hobject : m.Holds object) {act : Store Unit} (bs : Nat → List UInt8)
    (hbs : ∀ n, (bs n).length ≤ n) (hok : ∀ i n, m.byteBody object = .ok (i, n) →
      act m = .ok () { m with arena := m.arena.setBytes i (bs n) })
    (herror : ∀ f, m.byteBody object = .error f → act m = .error f m) :
    endState (act m) = m ∨ ∃ o ∈ m.headers, m.kindAt o = .bytes ∧ ∃ new : List UInt8,
      new.length ≤ m.countAt o ∧
      endState (act m) = { m with arena := m.arena.setBytes (o + headerBytes) new } := by
  cases hobject with
  | small n => exact .inl (by rw [herror _ rfl]; rfl)
  | @ref a ha =>
    have hbody := byteBody_of_mem hm ha
    by_cases hk : m.kindAt a.offset = .bytes
    · rw [if_neg (not_not.2 hk)] at hbody
      exact .inr ⟨a.offset, ha, hk, _, hbs _, by rw [hok _ _ hbody]; rfl⟩
    · rw [if_pos hk] at hbody
      exact .inl (by rw [herror _ hbody]; rfl)

section Bytes

variable {ρ : Type} [RootSet ρ] {m : Memory} (hm : m.WellFormed) {object : Value}
  (hobject : m.Holds object)

include hm hobject

theorem after_setBytes (bs : List UInt8) :
    Operation.after m (.setBytes object bs : Operation ρ) = m ∨
      ∃ o ∈ m.headers, m.kindAt o = .bytes ∧ ∃ new : List UInt8, new.length ≤ m.countAt o ∧
        Operation.after m (.setBytes object bs : Operation ρ) =
          { m with arena := m.arena.setBytes (o + headerBytes) new } := by
  refine endState_onBytes hm hobject (bs.take ·) (fun n => List.length_take_le _ _)
    (fun i n hn => ?_) fun f hf => ?_
  · rw [Memory.setBytes, hn]
  · rw [Memory.setBytes, hf]

theorem after_fillBytes (b : UInt8) :
    Operation.after m (.fillBytes object b : Operation ρ) = m ∨
      ∃ o ∈ m.headers, m.kindAt o = .bytes ∧ ∃ new : List UInt8, new.length ≤ m.countAt o ∧
        Operation.after m (.fillBytes object b : Operation ρ) =
          { m with arena := m.arena.setBytes (o + headerBytes) new } := by
  refine endState_onBytes hm hobject (List.replicate · b) (fun n => (List.length_replicate).le)
    (fun i n hn => ?_) fun f hf => ?_
  · rw [Memory.fillBytes, hn]
  · rw [Memory.fillBytes, hf]

end Bytes

/-- The statistics say what is in the memory. -/
structure Accounted (settings : Settings) (m : Memory) : Prop where
  wellFormed : m.WellFormed
  settings_eq : m.settings = settings
  bytes : m.usedBytes = m.stats.bytesCopied + m.stats.bytesSince
  objects : m.headers.length = m.stats.objectsCopied + m.stats.objectsSince
  /-- The semispaces have taken turns. -/
  side : m.upper = false ↔ Even m.stats.collections

namespace Accounted

variable {settings : Settings} {m m' : Memory}

/-! ## What counts, and what does not -/

/-- Bytes within objects do not count. -/
theorem rewrite (h : Accounted settings m) (hm' : m'.WellFormed)
    (hrest : m' = { m with arena := m'.arena }) (hheaders : m'.headers = m.headers) :
    Accounted settings m' where
  wellFormed := hm'
  settings_eq := by rw [hrest]; exact h.settings_eq
  bytes := by rw [hrest]; exact h.bytes
  objects := by rw [hheaders, hrest]; exact h.objects
  side := by rw [hrest]; exact h.side

theorem write (h : Accounted settings m) {o : Nat} {e : Assignment} {operation : String}
    (ho : o ∈ m.headers) (he : e.cell.fault? operation (m.kindAt o) (m.countAt o) = none)
    (hv : ∀ v, e.content = .value v → m.Holds v) : Accounted settings (e.write o m) := by
  refine h.rewrite (wellFormed_write h.wellFormed ho he hv) ?_ (headers_write h.wellFormed ho he)
  cases e <;> rfl

theorem bytesStored (h : Accounted settings m) {o : Nat} (ho : o ∈ m.headers)
    (hk : m.kindAt o = .bytes) {bs : List UInt8} (hbs : bs.length ≤ m.countAt o) :
    Accounted settings { m with arena := m.arena.setBytes (o + headerBytes) bs } := by
  have hstored := stored_bytes ho hk hbs
  refine h.rewrite (hstored.wellFormed h.wellFormed ?_ ?_) rfl (hstored.headers h.wellFormed)
  · rw [hstored.hashAt (Nat.le_refl _)]
    exact h.wellFormed.hash_lt o ho
  · rw [hk]
    exact fun hpointers => absurd hpointers (by decide)

/-- **A placement** adds one object and the bytes it covers, to the heap and to the count. -/
theorem place (h : Accounted settings m) {cls fill : Value} {size : Nat} {kind : BodyKind}
    (hsize : size ≤ maxCount) (hfits : m.free + extent size kind ≤ m.limit) (hcls : m.Holds cls)
    (hfill : m.Holds fill) : Accounted settings (m.place cls size kind fill) where
  wellFormed := wellFormed_place h.wellFormed hsize hfits hcls hfill
  settings_eq := h.settings_eq
  bytes := by
    have hbytes := h.bytes
    have hstart := h.wellFormed.tiled.le_end
    show m.free + extent size kind - m.start =
      m.stats.bytesCopied + (m.stats.bytesSince + extent size kind)
    unfold usedBytes at hbytes
    omega
  objects := by
    rw [headers_place h.wellFormed hsize, List.length_append, h.objects]
    exact Nat.add_assoc _ _ 1
  side := h.side

/-- **A collection** starts a new count with what it has copied, and the semispaces swap. -/
theorem relocation (h : Accounted settings m) {roots roots' : Array Value} {σ : Renaming}
    (hr : Relocation m roots σ m' roots') : Accounted settings m' := by
  obtain ⟨live, hnodup, hlive, hstats, hfree⟩ := hr.stats
  constructor
  case wellFormed => exact hr.wellFormed
  case settings_eq => rw [hr.settings, h.settings_eq]
  case bytes =>
    rw [usedBytes, hfree, hstats]
    exact Nat.add_sub_cancel_left ..
  case objects =>
    -- what there is and what was reached are equally many, by the renaming
    obtain ⟨φ, -, hφ⟩ := hr.bijection
    have hperm : (live.map φ).Perm m'.headers := by
      refine (List.perm_ext_iff_of_nodup ?_ hr.wellFormed.headers_nodup).2 fun n => ?_
      · refine hnodup.map_on fun o ho o' ho' => ?_
        exact hφ.injOn ((hlive o).1 ho) ((hlive o').1 ho')
      · have himage : n ∈ φ '' {o | m.Reachable roots o} ↔ n ∈ m'.headers := by
          rw [hφ.image_eq]
          rfl
        rw [← himage, List.mem_map]
        simp only [hlive, Set.mem_image, Set.mem_ofPred_eq]
    rw [← hperm.length_eq, List.length_map, hstats]
    rfl
  case side =>
    have hside := h.side
    rw [hr.upper, hstats, Stats.collected, Nat.even_add_one, ← hside]
    cases m.upper <;> simp

/-! ## One operation -/

theorem placeFitting {ρ : Type} (h : Accounted settings m) (roots : ρ) {cls fill : Value}
    (hcls : m.Holds cls) (hfill : m.Holds fill) (size : Nat) (kind : BodyKind) :
    Accounted settings
      (endState (Smalltalk.placeFitting cls size kind fill ⟨m, roots⟩)).memory := by
  by_cases hc : size ≤ maxCount ∧ m.fits (extent size kind)
  · obtain ⟨hfits, a, -, hrun⟩ := placeFitting_of_fits (r := roots) h.wellFormed cls fill hc
    rw [hrun]
    exact h.place hc.1 hfits hcls hfill
  · rw [Smalltalk.placeFitting, if_neg hc]
    exact h

section Operations

variable {ρ : Type} [RootSet ρ]

/-- The heap is collected or it is not, and then there is room for the object or there is not. -/
theorem allocate (h : Accounted settings m) {roots : ρ}
    (hroots : ∀ v ∈ RootSet.toArray roots, m.Holds v)
    {cls fill : Value} (hcls : m.Holds cls) (hfill : m.Holds fill) (size : Nat) (kind : BodyKind) :
    Accounted settings (endState (Smalltalk.allocate cls size kind fill ⟨m, roots⟩)).memory := by
  by_cases hc : maxCount < size ∨ m.capacity < extent size kind ∨ m.fits (extent size kind) ∨
      m.settings.gcEnabled = false
  · rw [allocate_eq_placeFitting h.wellFormed hc]
    exact h.placeFitting roots hcls hfill size kind
  · push Not at hc
    obtain ⟨hsize, hcapacity, hfits, henabled⟩ := hc
    obtain ⟨σ, m₁, roots₁, hr, hrun, -⟩ :=
      collectWith_relocates #[cls, fill] h.wellFormed hroots (by simp [hcls, hfill])
    have hpinned : ∀ i (hi : i < #[cls, fill].size) d,
        m₁.Holds ((roots₁.extract (RootSet.toArray roots).size roots₁.size).getD i d) :=
        fun i hi d =>
      .of_renames (hr.renamed_pinned hi d) fun o n hn => (hr.range n).2 ⟨o, hn⟩
    rw [allocate_of_collect hsize hcapacity (eq_false_of_ne_true hfits)
      (eq_true_of_ne_false henabled) hrun]
    exact (h.relocation hr).placeFitting _ (hpinned 0 (by simp) _) (hpinned 1 (by simp) _) size kind

theorem collect (h : Accounted settings m) {roots : ρ}
    (hroots : ∀ v ∈ RootSet.toArray roots, m.Holds v) :
    Accounted settings (endState (Smalltalk.collect ⟨m, roots⟩)).memory := by
  obtain ⟨σ, m₁, roots₁, hr, hrun, -⟩ := collectWith_relocates #[] h.wellFormed hroots (by simp)
  have hcollect : (endState (Smalltalk.collect ⟨m, roots⟩)).memory = m₁ := by
    simp only [Smalltalk.collect, bind, EStateM.bind, hrun]
    rfl
  rw [hcollect]
  exact h.relocation hr

theorem assign (h : Accounted settings m) {object : Value} (hobject : m.Holds object)
    {e : Assignment} (hv : ∀ v, e.content = .value v → m.Holds v) :
    Accounted settings (endState (Memory.assign object e m)) := by
  cases hobject with
  | small n =>
    rw [assign_small]
    exact h
  | @ref a ha =>
    rw [assign_eq (h.wellFormed.passes ha)]
    cases he : e.cell.fault? e.writer (m.kindAt a.offset) (m.countAt a.offset) with
    | none => exact h.write ha he hv
    | some f => exact h

/-- **What one operation preserves.** -/
theorem after (h : Accounted settings m) {op : Operation ρ} (hop : op.Proper m) :
    Accounted settings (op.after m) := by
  cases op with
  | allocate roots cls size kind fill => exact h.allocate hop.1 hop.2.1 hop.2.2 size kind
  | collect roots => exact h.collect hop
  | assign object e => exact h.assign hop.1 hop.2
  | setBytes object bs =>
    rcases after_setBytes (ρ := ρ) h.wellFormed hop bs with hsame | ⟨o, ho, hk, new, hnew, hafter⟩
    · exact hsame.symm ▸ h
    · exact hafter.symm ▸ h.bytesStored ho hk hnew
  | fillBytes object b =>
    rcases after_fillBytes (ρ := ρ) h.wellFormed hop b with hsame | ⟨o, ho, hk, new, hnew, hafter⟩
    · exact hsame.symm ▸ h
    · exact hafter.symm ▸ h.bytesStored ho hk hnew

/-- What a history preserves. -/
theorem afterAll (h : Accounted settings m) {ops : List (Operation ρ)} (hops : ProperAll m ops) :
    Accounted settings (m.afterAll ops) := by
  induction ops generalizing m with
  | nil => exact h
  | cons op ops ih => exact ih (h.after hops.1) hops.2

end Operations

theorem empty (hsettings : settings.validate = .ok ()) :
    Accounted settings (Memory.empty settings) := by
  have hheaders : (Memory.empty settings).headers = [] := headers_eq_of_tiles rfl
  constructor
  case wellFormed =>
    constructor
    case settings => exact hsettings
    case tiled => rw [hheaders]; rfl
    case free_le => exact Nat.zero_le _
    all_goals simp [hheaders]
  case settings_eq => rfl
  case bytes => rfl
  case objects => rw [hheaders]; rfl
  case side => simp [Memory.empty]

theorem of_create (h : Memory.create settings = .ok m) : Accounted settings m := by
  rw [Memory.create] at h
  cases hvalid : settings.validate with
  | error e =>
    rw [hvalid] at h
    cases h
  | ok u =>
    rw [hvalid] at h
    obtain rfl := Except.ok.inj h
    exact .empty hvalid

end Accounted

/-- A walk over a heap finds all of its objects. -/
theorem WellFormed.length_objects {m : Memory} (hm : m.WellFormed) :
    m.objects.length = m.headers.length := by
  have hsome : ∀ o ∈ m.headers, (Address.ofNat? o).isSome := by
    intro o ho
    have hin := hm.within ho
    have hpos := m.extentAt_pos o
    have hfree := hm.free_le
    have hlimit := hm.limit_le
    rw [Address.ofNat?, dif_pos (by omega)]
    rfl
  rw [objects, List.length_filterMap_eq_countP, List.countP_eq_length]
  intro o ho
  rw [Option.isSome_map]
  exact hsome o ho

end Memory

open Memory

/-- **The statistics account for the heap.** After any history of a new memory in which references
to objects are used as such, whatever has failed in it, the bytes in use are those that the last
collection has kept and those added since, and so are the objects that a walk finds. What is used
and what is free make up a semispace, words are never cut, and the lower semispace is active exactly
after an even number of collections. -/
theorem statistics_account_for_heap {ρ : Type} [RootSet ρ] (settings : Settings) (m₀ : Memory)
    (ops : List (Operation ρ)) (hcreate : Memory.create settings = .ok m₀)
    (hops : ProperAll m₀ ops) :
    let m := m₀.afterAll ops
    m.usedBytes = m.stats.bytesCopied + m.stats.bytesSince ∧
      m.objects.length = m.stats.objectsCopied + m.stats.objectsSince ∧
      m.usedBytes + m.freeBytes = settings.semispaceSize ∧ 4 ∣ m.usedBytes ∧
      (m.upper = false ↔ Even m.stats.collections) := by
  intro m
  have h : Accounted settings m := (Accounted.of_create hcreate).afterAll hops
  have hle := h.wellFormed.tiled.le_end
  refine ⟨h.bytes, h.wellFormed.length_objects.trans h.objects, ?_, ?_, h.side⟩
  · have hfree := h.wellFormed.free_le
    rw [← h.settings_eq]
    simp only [usedBytes, freeBytes, limit, capacity] at *
    omega
  · exact Nat.dvd_sub h.wellFormed.four_dvd_free h.wellFormed.four_dvd_start

/-- Two rows of bytes are made, and a collection keeps the first of them; a third one is made
then. -/
def sampleHistory : List (Operation (Array Value)) :=
  [.allocate #[] (Value.ofByte 0) 3 .bytes (Value.ofByte 0),
    .allocate #[] (Value.ofByte 0) 9 .bytes (Value.ofByte 0),
    .setBytes (.ref Address.zero) [1, 2, 3], .collect #[.ref Address.zero],
    .allocate #[] (Value.ofByte 0) 5 .bytes (Value.ofByte 0)]

theorem properAll_sampleHistory : ProperAll (Memory.empty {}) sampleHistory := by
  -- before and after the bytes are set, there are the same two objects
  have hholds : ∀ n, n = 2 ∨ n = 3 →
      ((Memory.empty {}).afterAll (sampleHistory.take n)).Holds (.ref Address.zero) := by
    intro n hn
    have hheaders : ((Memory.empty {}).afterAll (sampleHistory.take n)).headers = [0, 16] := by
      refine headers_eq_of_tiles ?_
      simp only [Tiles, id_eq]
      obtain rfl | rfl := hn <;> decide +kernel
    refine .ref ?_
    rw [hheaders]
    exact List.mem_cons_self
  refine ⟨⟨?_, .small _, .small _⟩, ⟨?_, .small _, .small _⟩, hholds 2 (.inl rfl), ?_,
    ⟨?_, .small _, .small _⟩, trivial⟩
  · simp [RootSet.toArray]
  · simp [RootSet.toArray]
  · intro v hv
    obtain rfl := Array.mem_singleton.1 hv
    exact hholds 3 (.inr rfl)
  · simp [RootSet.toArray]

theorem statistics_account_for_heap_sampleHistory :
    Memory.create {} = .ok (Memory.empty {}) ∧ ProperAll (Memory.empty {}) sampleHistory ∧
      ((Memory.empty {}).afterAll sampleHistory).upper = true ∧
      ((Memory.empty {}).afterAll sampleHistory).objects.length = 2 := by
  obtain ⟨-, hobjects, -⟩ := statistics_account_for_heap {} _ _ rfl properAll_sampleHistory
  exact ⟨rfl, properAll_sampleHistory, by decide +kernel, hobjects.trans (by decide +kernel)⟩

end Smalltalk
