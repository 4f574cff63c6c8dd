import Mathlib.Data.Nat.ModEq
import Smalltalk.Proofs.Accounting
import Smalltalk.Proofs.Identity

/-!
# Identity hashes

Hashes are handed out by a counter of 32 bits that goes round, of which a hash has 30. The step of
the counter is odd, so it takes all the 2 ^ 30 hashes before one comes back. Nothing but the making
of an object touches the counter, and that holds whatever a memory is asked to do: also of
collections that fail, and of references that refer to no object.

That an object keeps its hash holds of heaps only. A collection trusts that its roots refer to
objects. It leaves the new address of an object behind in the old one, and if a root refers into the
middle of an object, what is overwritten there may be the hash.

## Main definitions

* `Memory.Request`, `Memory.afterRequests`: histories in which collections may be switched off and
  on
* `Memory.givenHashes`: the hashes that the objects made in a history were given
* `Memory.MovesAll`: where a history takes the objects of a heap

## Main results

* `Memory.hashAfter_injective`: the counter gives 2 ^ 30 different hashes
* `Memory.Counts.ticks`: what one request does to the counter
* `Memory.Request.Moves.hashAt`: what one request does to the hashes of objects
* `identity_hashes_distinct`, `hash_lost_to_forged_root`
-/

namespace Smalltalk

namespace Memory

/-! ## The counter -/

/-- The hash counter after some more objects. -/
def hashAfter (counter : UInt32) : Nat → UInt32
  | 0 => counter
  | n + 1 => hashAfter counter n + hashStep

theorem toNat_and_hashMask (w : UInt32) : (w &&& hashMask).toNat = w.toNat % 2 ^ 30 := by
  have hmask : hashMask.toNat = 2 ^ 30 - 1 := by decide
  rw [UInt32.toNat_and, hmask, Nat.and_two_pow_sub_one_eq_mod]

theorem toNat_hashAfter (counter : UInt32) (n : Nat) :
    (hashAfter counter n).toNat = (counter.toNat + n * hashStep.toNat) % 2 ^ 32 := by
  induction n with
  | zero =>
    have hlt := counter.toNat_lt
    rw [hashAfter, Nat.zero_mul]
    omega
  | succ n ih =>
    rw [hashAfter, UInt32.toNat_add, ih, Nat.add_mul, Nat.one_mul]
    omega

theorem hashAfter_succ (counter : UInt32) (n : Nat) :
    hashAfter counter (n + 1) = hashAfter (counter + hashStep) n := by
  induction n with
  | zero => simp only [hashAfter]
  | succ n ih => exact congrArg (· + hashStep) ih

/-- **The counter gives 2 ^ 30 different hashes** before one comes back, since its step is odd. -/
theorem hashAfter_injective {counter : UInt32} {n k : Nat} (hn : n < 2 ^ 30) (hk : k < 2 ^ 30)
    (h : hashAfter counter n &&& hashMask = hashAfter counter k &&& hashMask) : n = k := by
  have hmod : ∀ i, (hashAfter counter i &&& hashMask).toNat =
      (counter.toNat + i * hashStep.toNat) % 2 ^ 30 := fun i => by
    rw [toNat_and_hashMask, toNat_hashAfter, Nat.mod_mod_of_dvd _ (by decide)]
  have hsum : counter.toNat + n * hashStep.toNat ≡ counter.toNat + k * hashStep.toNat
      [MOD 2 ^ 30] := by
    rw [Nat.ModEq, ← hmod, ← hmod, h]
  have hodd : Nat.gcd (2 ^ 30) hashStep.toNat = 1 := by decide
  have hsame := Nat.ModEq.cancel_right_of_coprime hodd (Nat.ModEq.add_left_cancel' _ hsum)
  rwa [Nat.ModEq, Nat.mod_eq_of_lt hn, Nat.mod_eq_of_lt hk] at hsame

/-! ## What any collection keeps -/

/-- The counter stands at `counter`, and the occupied part of the active semispace ends behind its
start. -/
structure Counts (counter : UInt32) (m : Memory) : Prop where
  counter_eq : m.hashCounter = counter
  le : m.start ≤ m.free

variable {counter : UInt32} {m : Memory}

theorem Counts.setArena (h : Counts counter m) (a : Arena) : Counts counter { m with arena := a } :=
  ⟨h.counter_eq, h.le⟩

end Memory

namespace Collector

open Memory

variable {α β : Type} (counter : UInt32)

/-- However the computation ends, the counter is what it was. -/
def Keeps (x : Collecting α) : Prop :=
  ∀ s, Counts counter s.memory → Counts counter (endState (x s)).memory

variable {counter}

theorem Keeps.bind {x : Collecting α} {f : α → Collecting β} (hx : Keeps counter x)
    (hf : ∀ a, Keeps counter (f a)) : Keeps counter (x >>= f) := by
  intro s hs
  have hx := hx s hs
  show Counts counter (endState (EStateM.bind x f s)).memory
  unfold EStateM.bind
  cases hrun : x s with
  | ok a s₁ =>
    rw [hrun] at hx
    exact hf a s₁ hx
  | error e s₁ =>
    rw [hrun] at hx
    exact hx

theorem keeps_pure (a : α) : Keeps counter (pure a : Collecting α) := fun _ hs => hs

theorem keeps_look (f : Collector → α) : Keeps counter (look f) := fun _ hs => hs

theorem keeps_relocate (v : Value) : Keeps counter (relocate v) := by
  intro s hs
  unfold relocate
  split
  · exact hs
  · split
    · exact hs
    split
    · exact hs
    split
    · exact hs
    split
    · exact hs
    · rename_i new hnew
      have hfree : new.offset = s.memory.free := by
        rw [Address.ofNat?] at hnew
        split at hnew
        · rw [← Option.some.inj hnew]
        · cases hnew
      refine ⟨hs.counter_eq, ?_⟩
      show s.memory.start ≤ new.offset + _
      rw [hfree]
      exact Nat.le_add_right_of_le hs.le

theorem keeps_relocateAt (i : Nat) : Keeps counter (relocateAt i) := by
  refine (keeps_look _).bind fun v => (keeps_relocate v).bind fun v' => ?_
  exact fun s hs => hs.setArena _

theorem keeps_relocateFrom (i n : Nat) : Keeps counter (relocateFrom i n) := by
  induction n generalizing i with
  | zero => exact keeps_pure _
  | succ n ih => exact (keeps_relocateAt i).bind fun _ => ih (i + 4)

theorem keeps_scanObject (offset : Nat) : Keeps counter (scanObject offset) :=
  (keeps_relocateAt offset).bind fun _ => (keeps_look _).bind fun n => keeps_relocateFrom _ n

theorem keeps_scan (limit cursor : Nat) : Keeps counter (scan limit cursor) := by
  rw [scan]
  refine (keeps_look _).bind fun free => ?_
  split
  · refine (keeps_scanObject cursor).bind fun _ => (keeps_look _).bind fun length => ?_
    exact keeps_scan limit (cursor + length.val)
  · exact keeps_pure _
termination_by limit - cursor
decreasing_by
  unfold headerBytes at *
  omega

theorem keeps_relocateRoot (i : Nat) : Keeps counter (relocateRoot i) := by
  intro s hs
  unfold relocateRoot
  split
  · exact hs
  · rename_i v hv
    have h := keeps_relocate v s hs
    split
    · rename_i hrun
      rw [hrun] at h
      exact h
    · rename_i hrun
      rw [hrun] at h
      exact h

theorem keeps_relocateRoots (i n : Nat) : Keeps counter (relocateRoots i n) := by
  induction n generalizing i with
  | zero => exact keeps_pure _
  | succ n ih => exact (keeps_relocateRoot i).bind fun _ => ih (i + 1)

theorem keeps_finish (cursor : Nat) : Keeps counter (finish cursor) := by
  intro s hs
  unfold finish
  split
  · exact hs
  · exact ⟨hs.counter_eq, hs.le⟩

theorem keeps_run (count start limit : Nat) : Keeps counter (run count start limit) :=
  (keeps_relocateRoots 0 count).bind fun _ => (keeps_scan limit start).bind fun cursor =>
    keeps_finish cursor

end Collector

namespace Memory

section Any

variable {ρ : Type} [RootSet ρ] {counter : UInt32} {m : Memory}

/-- **No collection touches the counter**, whatever its roots are and however it ends. -/
theorem Counts.collectWith (h : Counts counter m) (pinned : Array Value) (roots : ρ) :
    Counts counter (endState (Smalltalk.collectWith pinned ⟨m, roots⟩)).memory := by
  have hflip : Counts counter (Collector.flip m) := by
    refine ⟨h.counter_eq, ?_⟩
    simp only [Collector.flip, start, otherStart, capacity]
    by_cases hupper : m.upper = true <;> simp [hupper]
  have hkeeps : Collector.Keeps counter _ := Collector.keeps_run
    ((RootSet.toArray roots).size + pinned.size) (Collector.flip m).start (Collector.flip m).limit
  have hrun := hkeeps ⟨Collector.flip m, RootSet.toArray roots ++ pinned, 0⟩ hflip
  simp only [Smalltalk.collectWith]
  split
  · rename_i heq
    rw [heq] at hrun
    exact hrun
  · rename_i heq
    rw [heq] at hrun
    exact hrun

theorem Counts.collect (h : Counts counter m) (roots : ρ) :
    Counts counter (endState (Smalltalk.collect ⟨m, roots⟩)).memory := by
  have hcollect := h.collectWith #[] roots
  simp only [Smalltalk.collect, bind, EStateM.bind]
  cases hrun : Smalltalk.collectWith #[] (⟨m, roots⟩ : Rooted ρ) with
  | ok pinned s =>
    rw [hrun] at hcollect
    exact hcollect
  | error e s =>
    rw [hrun] at hcollect
    exact hcollect

/-- The hash of the object that has been made, if one has. -/
def madeHash : EStateM.Result Fault (Rooted ρ) Value → Option (Except Fault UInt32)
  | .ok object s => some (s.memory.hash object)
  | .error _ _ => none

/-- Either no object was made and the counter is what it was, or one was made that has the next
hash, and the counter has advanced. -/
def Ticks (counter : UInt32) (made : Option (Except Fault UInt32)) (m : Memory) : Prop :=
  made = none ∧ Counts counter m ∨
    made = some (.ok (counter &&& hashMask)) ∧ Counts (counter + hashStep) m

omit [RootSet ρ] in
theorem Counts.placeObject (h : Counts counter m) (roots : ρ) (cls : Value) (size : Nat)
    (kind : BodyKind) (fill : Value) :
    Ticks counter (madeHash (Smalltalk.placeObject cls size kind fill ⟨m, roots⟩))
      (endState (Smalltalk.placeObject cls size kind fill ⟨m, roots⟩)).memory := by
  unfold Smalltalk.placeObject Address.ofNat?
  by_cases hfree : m.free < 2147483648
  · rw [dif_pos hfree]
    have hextent := headerBytes_le_extent size kind
    have hle : m.start ≤ (m.place cls size kind fill).free := Nat.le_add_right_of_le h.le
    refine .inr ⟨?_, congrArg (· + hashStep) h.counter_eq, hle⟩
    have hheader : (m.place cls size kind fill).header "getHash" (.ref ⟨m.free, hfree⟩) =
        .ok m.free :=
      if_pos ⟨h.le, Nat.add_le_add_left hextent _⟩
    simp only [madeHash, Memory.hash, hheader]
    rw [← h.counter_eq, ← hashAt_place m cls size kind fill]
    rfl
  · rw [dif_neg hfree]
    exact .inl ⟨rfl, h⟩

theorem Counts.allocate (h : Counts counter m) (roots : ρ) (cls : Value) (size : Nat)
    (kind : BodyKind) (fill : Value) :
    Ticks counter (madeHash (Smalltalk.allocate cls size kind fill ⟨m, roots⟩))
      (endState (Smalltalk.allocate cls size kind fill ⟨m, roots⟩)).memory := by
  have hcollect := h.collectWith #[cls, fill] roots
  simp only [Smalltalk.allocate]
  split
  · exact .inl ⟨rfl, h⟩
  split
  · exact h.placeObject roots cls size kind fill
  split
  · exact .inl ⟨rfl, h⟩
  split
  · rename_i hrun
    rw [hrun] at hcollect
    exact .inl ⟨rfl, hcollect⟩
  · rename_i pinned s hrun
    rw [hrun] at hcollect
    split
    · exact Counts.placeObject hcollect s.roots _ size kind _
    · exact .inl ⟨rfl, hcollect⟩

/-- An assignment changes the store and nothing else, whatever it is tried on. -/
theorem endState_assign (m : Memory) (object : Value) (e : Assignment) :
    ∃ a, endState (Memory.assign object e m) = { m with arena := a } := by
  cases e <;>
  · simp only [Memory.assign, setClass, setHash, setPtr, setWord, setByte, writeAt]
    split
    · exact ⟨_, rfl⟩
    · exact ⟨m.arena, rfl⟩

/-! ## Histories -/

/-- What a memory can be asked for: an operation, or to start or stop collecting when it is full. -/
inductive Request (ρ : Type) where
  | perform (op : Operation ρ)
  | setGcEnabled (enabled : Bool)

namespace Request

/-- The memory that a request leaves, whether it succeeds or fails. -/
def after (m : Memory) : Request ρ → Memory
  | .perform op => op.after m
  | .setGcEnabled enabled => m.setGcEnabled enabled

/-- The hash of the object that the request makes, if it makes one. -/
def givenHash? (m : Memory) : Request ρ → Option (Except Fault UInt32)
  | .perform (.allocate roots cls size kind fill) =>
    madeHash (Smalltalk.allocate cls size kind fill ⟨m, roots⟩)
  | _ => none

/-- The request is one to change a hash. -/
def setsHash : Request ρ → Bool
  | .perform (.assign _ (.hash _)) => true
  | _ => false

/-- All references that the request is given are references to objects. -/
def Proper (m : Memory) : Request ρ → Prop
  | .perform op => op.Proper m
  | .setGcEnabled _ => True

end Request

/-- The memory that a history leaves. -/
def afterRequests (m : Memory) (rs : List (Request ρ)) : Memory := rs.foldl Request.after m

/-- The hashes that the objects made in a history were given, in the order in which they were
made. -/
def givenHashes (m : Memory) : List (Request ρ) → List (Except Fault UInt32)
  | [] => []
  | r :: rs => (r.givenHash? m).toList ++ givenHashes (r.after m) rs

/-- Every request of the history is proper when its turn comes. -/
def ProperRequests (m : Memory) : List (Request ρ) → Prop
  | [] => True
  | r :: rs => r.Proper m ∧ ProperRequests (r.after m) rs

/-- **What one request does to the counter**, whatever the request is. -/
theorem Counts.ticks (h : Counts counter m) (r : Request ρ) :
    Ticks counter (r.givenHash? m) (r.after m) := by
  cases r with
  | setGcEnabled enabled => exact .inl ⟨rfl, h.counter_eq, h.le⟩
  | perform op =>
    cases op with
    | allocate roots cls size kind fill => exact h.allocate roots cls size kind fill
    | collect roots => exact .inl ⟨rfl, h.collect roots⟩
    | assign object e =>
      obtain ⟨a, ha⟩ := endState_assign m object e
      refine .inl ⟨rfl, ?_⟩
      rw [Request.after, Operation.after, ha]
      exact h.setArena a
    | setBytes object bs =>
      refine .inl ⟨rfl, ?_⟩
      simp only [Request.after, Operation.after, Memory.setBytes]
      split
      · exact h.setArena _
      · exact h
    | fillBytes object b =>
      refine .inl ⟨rfl, ?_⟩
      simp only [Request.after, Operation.after, Memory.fillBytes]
      split
      · exact h.setArena _
      · exact h

/-- What a history does to the counter. -/
theorem Counts.givenHashes (h : Counts counter m) (rs : List (Request ρ)) :
    m.givenHashes rs = (List.range (m.givenHashes rs).length).map fun n =>
      .ok (hashAfter counter n &&& hashMask) := by
  induction rs generalizing m counter with
  | nil => rfl
  | cons r rs ih =>
    rcases h.ticks r with ⟨hnone, hafter⟩ | ⟨hsome, hafter⟩
    · rw [Memory.givenHashes, hnone]
      exact ih hafter
    · rw [Memory.givenHashes, hsome, Option.toList_some, List.singleton_append, List.length_cons,
        List.range_succ_eq_map, List.map_cons, List.map_map]
      refine congrArg (Except.ok _ :: ·) ((ih hafter).trans (List.map_congr_left fun n _ => ?_))
      exact congrArg (fun c => Except.ok (c &&& hashMask)) (hashAfter_succ counter n).symm

/-- **The hashes given to objects are different**, as long as there are enough of them. -/
theorem Counts.nodup_givenHashes (h : Counts counter m) {rs : List (Request ρ)}
    (hlength : (m.givenHashes rs).length ≤ 2 ^ 30) : (m.givenHashes rs).Nodup := by
  rw [h.givenHashes rs]
  refine List.Nodup.map_on (fun n hn k hk heq => ?_) List.nodup_range
  rw [List.mem_range] at hn hk
  exact hashAfter_injective (by omega) (by omega) (Except.ok.inj heq)

theorem Counts.of_mem_givenHashes (h : Counts counter m) {rs : List (Request ρ)}
    {hash : Except Fault UInt32} (hmem : hash ∈ m.givenHashes rs) :
    ∃ w : UInt32, hash = .ok w ∧ w.toNat < 2 ^ 30 := by
  rw [h.givenHashes rs] at hmem
  obtain ⟨n, -, rfl⟩ := List.mem_map.1 hmem
  refine ⟨_, rfl, ?_⟩
  rw [toNat_and_hashMask]
  exact Nat.mod_lt _ (by decide)

end Any

/-! ## What becomes of objects -/

section Moving

variable {ρ : Type} [RootSet ρ] {m m' : Memory}

/-- Where a request takes the objects of a heap. A collection takes those that it reaches to where
it moves them, and all else leaves every object where it is. -/
inductive Request.Moves (m : Memory) : Request ρ → Renaming → Prop
  | stays {r : Request ρ} (h : (r.after m).stats.collections = m.stats.collections) :
      Moves m r m.unmoved
  | collect {roots : ρ} {σ : Renaming} {roots' : Array Value}
      (h : Relocation m (RootSet.toArray roots) σ (after m (.perform (.collect roots))) roots') :
      Moves m (.perform (.collect roots)) σ
  /-- The object did not fit, and may not fit now. -/
  | allocate {roots : ρ} {cls fill : Value} {size : Nat} {kind : BodyKind} {σ : Renaming}
      {pinned roots' : Array Value} {s : Rooted ρ}
      (hran : (after m (.perform (.allocate roots cls size kind fill))).stats.collections ≠
        m.stats.collections)
      (hrun : collectWith #[cls, fill] ⟨m, roots⟩ = .ok pinned s)
      (h : Relocation m (RootSet.toArray roots ++ #[cls, fill]) σ s.memory roots') :
      Moves m (.perform (.allocate roots cls size kind fill)) σ

/-- Where a history takes the objects of a heap, one request after the other. -/
def MovesAll (m : Memory) : List (Request ρ) → Renaming → Prop
  | [], σ => σ = m.unmoved
  | r :: rs, σ => ∃ τ υ, r.Moves m τ ∧ MovesAll (r.after m) rs υ ∧ σ = τ.followedBy υ

/-- All objects are where they were, with their hashes. -/
def KeepsHashes (m m' : Memory) : Prop := ∀ o ∈ m.headers, o ∈ m'.headers ∧ m'.hashAt o = m.hashAt o

omit [RootSet ρ] in
theorem placeFitting_keepsHashes (hm : m.WellFormed) (roots : ρ) (cls : Value) (size : Nat)
    (kind : BodyKind) (fill : Value) :
    (endState (placeFitting cls size kind fill ⟨m, roots⟩)).memory.stats.collections =
        m.stats.collections ∧
      KeepsHashes m (endState (placeFitting cls size kind fill ⟨m, roots⟩)).memory := by
  by_cases hc : size ≤ maxCount ∧ m.fits (extent size kind)
  · obtain ⟨-, a, -, hrun⟩ := placeFitting_of_fits (r := roots) hm cls fill hc
    rw [hrun]
    refine ⟨rfl, fun o ho => ⟨?_, (agreeAt_place hm ho).hashAt⟩⟩
    show o ∈ (m.place cls size kind fill).headers
    rw [headers_place hm hc.1]
    exact List.mem_append_left _ ho
  · rw [placeFitting, if_neg hc]
    exact ⟨rfl, fun o ho => ⟨ho, rfl⟩⟩

/-- An allocation runs a collection first, or it does not. -/
theorem after_allocate (hm : m.WellFormed) {roots : ρ} {cls fill : Value} {size : Nat}
    {kind : BodyKind} (hproper : (Operation.allocate roots cls size kind fill).Proper m) :
    Operation.after m (.allocate roots cls size kind fill) =
        (endState (placeFitting cls size kind fill ⟨m, roots⟩)).memory ∨
      ∃ σ pinned s roots', collectWith #[cls, fill] ⟨m, roots⟩ = .ok pinned s ∧
        Relocation m (RootSet.toArray roots ++ #[cls, fill]) σ s.memory roots' ∧
        Operation.after m (.allocate roots cls size kind fill) =
          (endState (placeFitting (pinned.getD 0 cls) size kind (pinned.getD 1 fill)
            s)).memory := by
  obtain ⟨hroots, hcls, hfill⟩ := hproper
  by_cases hc : maxCount < size ∨ m.capacity < extent size kind ∨ m.fits (extent size kind) ∨
      m.settings.gcEnabled = false
  · exact .inl (by rw [Operation.after, allocate_eq_placeFitting hm hc])
  · push Not at hc
    obtain ⟨hsize, hcapacity, hfits, henabled⟩ := hc
    obtain ⟨σ, m₁, roots₁, hr, hrun, -⟩ :=
      collectWith_relocates #[cls, fill] hm hroots (by simp [hcls, hfill])
    refine .inr ⟨σ, _, _, _, hrun, hr, ?_⟩
    rw [Operation.after, allocate_of_collect hsize hcapacity (eq_false_of_ne_true hfits)
      (eq_true_of_ne_false henabled) hrun]

theorem after_collect (hm : m.WellFormed) {roots : ρ}
    (hroots : ∀ v ∈ RootSet.toArray roots, m.Holds v) :
    ∃ σ roots', Relocation m (RootSet.toArray roots) σ (Operation.after m (.collect roots))
      roots' := by
  obtain ⟨σ, m₁, roots₁, hr, hrun, -⟩ := collectWith_relocates #[] hm hroots (by simp)
  rw [Array.append_empty] at hr
  have hafter : Operation.after m (.collect roots) = m₁ := by
    simp only [Operation.after, Smalltalk.collect, bind, EStateM.bind, hrun]
    rfl
  exact ⟨σ, roots₁, hafter ▸ hr⟩

theorem collections_ne_of_relocation {roots roots' : Array Value} {σ : Renaming}
    (h : Relocation m roots σ m' roots') : m'.stats.collections ≠ m.stats.collections := by
  obtain ⟨live, -, -, hstats, -⟩ := h.stats
  rw [hstats]
  exact Nat.succ_ne_self _

/-- Assignments to anything but a hash keep all hashes. -/
theorem assign_keepsHashes (hm : m.WellFormed) {object : Value} {e : Assignment}
    (hobject : m.Holds object) (he : e.cell ≠ .hash) :
    KeepsHashes m (endState (Memory.assign object e m)) := by
  cases hobject with
  | small n =>
    rw [assign_small]
    exact fun o ho => ⟨ho, rfl⟩
  | @ref a ha =>
    rw [assign_eq (hm.passes ha)]
    cases hfault : e.cell.fault? e.writer (m.kindAt a.offset) (m.countAt a.offset) with
    | some f => exact fun o ho => ⟨ho, rfl⟩
    | none =>
      intro o ho
      refine ⟨?_, ?_⟩
      · show o ∈ (e.write a.offset m).headers
        rw [headers_write hm ha hfault]
        exact ho
      · have hhash : Cell.hash.fault? "getHash" (m.kindAt o) (m.countAt o) = none := rfl
        exact Content.word.inj (contentAt_write_of_ne hm ha ho hfault hhash (.inr he.symm))

theorem setBytes_keepsHashes (hm : m.WellFormed) {o : Nat} (ho : o ∈ m.headers)
    (hk : m.kindAt o = .bytes) {bs : List UInt8} (hbs : bs.length ≤ m.countAt o) :
    KeepsHashes m { m with arena := m.arena.setBytes (o + headerBytes) bs } := by
  have hstored := stored_bytes ho hk hbs
  intro p hp
  refine ⟨by rwa [hstored.headers hm], ?_⟩
  by_cases hpo : p = o
  · subst hpo
    exact hstored.hashAt (Nat.le_refl _)
  · exact (hstored.agreeAt hm hp hpo).hashAt

theorem headers_setGcEnabled (hm : m.WellFormed) (enabled : Bool) :
    (m.setGcEnabled enabled).headers = m.headers :=
  headers_eq_of_tiles (m := m.setGcEnabled enabled) hm.tiled

theorem Accounted.setGcEnabled {settings : Settings} (h : Accounted settings m) (enabled : Bool) :
    Accounted { settings with gcEnabled := enabled } (m.setGcEnabled enabled) := by
  have hheaders := headers_setGcEnabled h.wellFormed enabled
  have hholds : ∀ v, m.Holds v → (m.setGcEnabled enabled).Holds v := by
    intro v hv
    cases hv with
    | small n => exact .small n
    | ref ha => exact .ref (hheaders.symm ▸ ha)
  constructor
  case wellFormed =>
    have hm := h.wellFormed
    constructor
    case settings => exact hm.settings
    case tiled => exact hheaders.symm ▸ hm.tiled
    case free_le => exact hm.free_le
    case unmarked => exact hheaders.symm ▸ hm.unmarked
    case hash_lt => exact hheaders.symm ▸ hm.hash_lt
    case cls => exact fun o ho => hholds _ (hm.cls o (hheaders ▸ ho))
    case field => exact fun o ho hk i hi => hholds _ (hm.field o (hheaders ▸ ho) hk i hi)
  case settings_eq => rw [Memory.setGcEnabled, h.settings_eq]
  case bytes => exact h.bytes
  case objects => rw [hheaders]; exact h.objects
  case side => exact h.side

/-- The heap is what some history has left of a new memory. -/
def Sound (m : Memory) : Prop := ∃ settings, Accounted settings m

theorem Sound.wellFormed (h : m.Sound) : m.WellFormed := by
  obtain ⟨settings, h⟩ := h
  exact h.wellFormed

theorem Sound.after (h : m.Sound) {r : Request ρ} (hr : r.Proper m) : (r.after m).Sound := by
  obtain ⟨settings, h⟩ := h
  cases r with
  | perform op => exact ⟨settings, h.after hr⟩
  | setGcEnabled enabled => exact ⟨_, h.setGcEnabled enabled⟩

variable {r : Request ρ}

/-- A request that does not collect keeps all hashes, unless it is one to change a hash. -/
theorem Request.keepsHashes (hm : m.WellFormed) (hr : r.Proper m) (hset : r.setsHash = false)
    (hstays : (r.after m).stats.collections = m.stats.collections) : KeepsHashes m (r.after m) := by
  cases r with
  | setGcEnabled enabled =>
    intro o ho
    refine ⟨?_, rfl⟩
    show o ∈ (m.setGcEnabled enabled).headers
    rwa [headers_setGcEnabled hm enabled]
  | perform op =>
    cases op with
    | allocate roots cls size kind fill =>
      rcases after_allocate hm hr with hafter | ⟨σ, pinned, s, roots', -, hmoved, hafter⟩
      · rw [Request.after, hafter]
        exact (placeFitting_keepsHashes hm roots cls size kind fill).2
      · -- a collection would have been counted
        refine absurd ?_ (collections_ne_of_relocation hmoved)
        rw [← (placeFitting_keepsHashes hmoved.wellFormed s.roots _ size kind _).1, ← hstays]
        exact congrArg (·.stats.collections) hafter.symm
    | collect roots =>
      obtain ⟨σ, roots', hmoved⟩ := after_collect hm hr
      exact absurd hstays (collections_ne_of_relocation hmoved)
    | assign object e =>
      refine assign_keepsHashes hm hr.1 fun hcell => ?_
      cases e <;> cases hcell
      cases hset
    | setBytes object bs =>
      rcases after_setBytes (ρ := ρ) hm hr bs with hsame | ⟨o, ho, hk, new, hnew, hafter⟩
      · rw [Request.after, hsame]
        exact fun o ho => ⟨ho, rfl⟩
      · rw [Request.after, hafter]
        exact setBytes_keepsHashes hm ho hk hnew
    | fillBytes object b =>
      rcases after_fillBytes (ρ := ρ) hm hr b with hsame | ⟨o, ho, hk, new, hnew, hafter⟩
      · rw [Request.after, hsame]
        exact fun o ho => ⟨ho, rfl⟩
      · rw [Request.after, hafter]
        exact setBytes_keepsHashes hm ho hk hnew

/-- A proper request takes the objects somewhere. -/
theorem Request.exists_moves (hm : m.WellFormed) (hr : r.Proper m) : ∃ σ, r.Moves m σ := by
  by_cases hstays : (r.after m).stats.collections = m.stats.collections
  · exact ⟨_, .stays hstays⟩
  cases r with
  | setGcEnabled enabled => exact absurd rfl hstays
  | perform op =>
    cases op with
    | allocate roots cls size kind fill =>
      rcases after_allocate hm hr with hafter | ⟨σ, pinned, s, roots', hrun, hmoved, -⟩
      · refine absurd ?_ hstays
        rw [Request.after, hafter]
        exact (placeFitting_keepsHashes hm roots cls size kind fill).1
      · exact ⟨σ, .allocate hstays hrun hmoved⟩
    | collect roots =>
      obtain ⟨σ, roots', hmoved⟩ := after_collect hm hr
      exact ⟨σ, .collect hmoved⟩
    | assign object e =>
      obtain ⟨a, ha⟩ := endState_assign m object e
      refine absurd ?_ hstays
      rw [Request.after, Operation.after, ha]
    | setBytes object bs =>
      refine absurd ?_ hstays
      rcases after_setBytes (ρ := ρ) hm hr bs with hsame | ⟨o, ho, hk, new, hnew, hafter⟩
      · rw [Request.after, hsame]
      · rw [Request.after, hafter]
    | fillBytes object b =>
      refine absurd ?_ hstays
      rcases after_fillBytes (ρ := ρ) hm hr b with hsame | ⟨o, ho, hk, new, hnew, hafter⟩
      · rw [Request.after, hsame]
      · rw [Request.after, hafter]

/-- **An object keeps its hash** wherever a request takes it, unless the request is one to change a
hash. -/
theorem Request.Moves.hashAt (hm : m.WellFormed) (hr : r.Proper m) (hset : r.setsHash = false)
    {σ : Renaming} (h : r.Moves m σ) {a b : Nat} (hab : σ a b) :
    a ∈ m.headers ∧ b ∈ (r.after m).headers ∧ (r.after m).hashAt b = m.hashAt a := by
  cases h with
  | stays hstays =>
    obtain ⟨ha, rfl⟩ := hab
    exact ⟨ha, r.keepsHashes hm hr hset hstays a ha⟩
  | collect hmoved =>
    have hcorr := Corresponds.of_relocation hm hr hmoved
    exact ⟨hcorr.domain a b hab, hcorr.range a b hab, (hmoved.objects a b hab).hash⟩
  | @allocate roots cls fill size kind σ pinned roots' s hran hrun hmoved =>
    have hcorr := Corresponds.of_relocation hm (holds_pinned hr.1 hr.2.1 hr.2.2) hmoved
    rcases after_allocate hm hr with hafter | ⟨_, pinned', s', _, hrun', -, hafter⟩
    · refine absurd ?_ hran
      rw [Request.after, hafter]
      exact (placeFitting_keepsHashes hm roots cls size kind fill).1
    · obtain ⟨rfl, rfl⟩ := EStateM.Result.ok.inj (hrun.symm.trans hrun')
      have hkept := (placeFitting_keepsHashes hmoved.wellFormed s.roots (pinned.getD 0 cls)
        size kind (pinned.getD 1 fill)).2 b (hcorr.range a b hab)
      rw [Request.after, hafter]
      exact ⟨hcorr.domain a b hab, hkept.1, hkept.2.trans (hmoved.objects a b hab).hash⟩

/-- A proper history takes the objects somewhere. -/
theorem Sound.exists_movesAll (h : m.Sound) {rs : List (Request ρ)} (hrs : ProperRequests m rs) :
    ∃ σ, m.MovesAll rs σ := by
  induction rs generalizing m with
  | nil => exact ⟨_, rfl⟩
  | cons r rs ih =>
    obtain ⟨τ, hτ⟩ := r.exists_moves h.wellFormed hrs.1
    obtain ⟨υ, hυ⟩ := ih (h.after hrs.1) hrs.2
    exact ⟨_, τ, υ, hτ, hυ, rfl⟩

/-- **An object keeps its hash** wherever a history takes it. -/
theorem Sound.hashAt_of_movesAll (h : m.Sound) {rs : List (Request ρ)} (hrs : ProperRequests m rs)
    (hset : ∀ r ∈ rs, r.setsHash = false) {σ : Renaming} (hσ : m.MovesAll rs σ) {a b : Nat}
    (hab : σ a b) :
    a ∈ m.headers ∧ b ∈ (m.afterRequests rs).headers ∧
      (m.afterRequests rs).hashAt b = m.hashAt a := by
  induction rs generalizing m σ a with
  | nil =>
    obtain rfl : σ = m.unmoved := hσ
    obtain ⟨ha, rfl⟩ := hab
    exact ⟨ha, ha, rfl⟩
  | cons r rs ih =>
    obtain ⟨τ, υ, hτ, hυ, rfl⟩ := hσ
    obtain ⟨o, hao, hob⟩ := hab
    obtain ⟨hset₁, hset₂⟩ := List.forall_mem_cons.1 hset
    obtain ⟨ha, -, hhash₁⟩ := hτ.hashAt h.wellFormed hrs.1 hset₁ hao
    obtain ⟨-, hb, hhash₂⟩ := ih (h.after hrs.1) hrs.2 hset₂ hυ hob
    exact ⟨ha, hb, hhash₂.trans hhash₁⟩

theorem Sound.afterRequests (h : m.Sound) {rs : List (Request ρ)} (hrs : ProperRequests m rs) :
    (m.afterRequests rs).Sound := by
  induction rs generalizing m with
  | nil => exact h
  | cons r rs ih => exact ih (h.after hrs.1) hrs.2

theorem properRequests_append {earlier later : List (Request ρ)} :
    ProperRequests m (earlier ++ later) ↔
      ProperRequests m earlier ∧ ProperRequests (m.afterRequests earlier) later := by
  induction earlier generalizing m with
  | nil => exact (true_and _).symm.to_iff
  | cons r rs ih =>
    show r.Proper m ∧ ProperRequests _ (rs ++ later) ↔ (r.Proper m ∧ _) ∧ _
    rw [ih, and_assoc]
    rfl

end Moving

end Memory

open Memory

/-- **Identity hashes are distinct.** In any history of a new memory in which no hash is assigned to
and at most 2 ^ 30 objects are made, whatever else it is asked for and whatever fails, no two
objects are given the same hash, and all hashes given have 30 bits. And if references to objects are
used as such, an object keeps its hash for as long as it is there, wherever collections take it. -/
theorem identity_hashes_distinct {ρ : Type} [RootSet ρ] (settings : Settings) (m₀ : Memory)
    (rs : List (Request ρ)) (hcreate : Memory.create settings = .ok m₀)
    (hset : ∀ r ∈ rs, r.setsHash = false) (hcount : (m₀.givenHashes rs).length ≤ 2 ^ 30) :
    (m₀.givenHashes rs).Nodup ∧
    (∀ hash ∈ m₀.givenHashes rs, ∃ w : UInt32, hash = .ok w ∧ w.toNat < 2 ^ 30) ∧
    (ProperRequests m₀ rs → ∀ earlier later, rs = earlier ++ later →
      let m := m₀.afterRequests earlier
      let m' := m.afterRequests later
      (∃ σ, m.MovesAll later σ) ∧ ∀ σ, m.MovesAll later σ → ∀ a b : Address, σ a.offset b.offset →
        ∃ w : UInt32, m.hash (.ref a) = .ok w ∧ m'.hash (.ref b) = .ok w ∧ w.toNat < 2 ^ 30) := by
  have hstart : Accounted settings m₀ := .of_create hcreate
  have hcounts : Counts m₀.hashCounter m₀ := ⟨rfl, hstart.wellFormed.tiled.le_end⟩
  refine ⟨hcounts.nodup_givenHashes hcount, fun hash => hcounts.of_mem_givenHashes, ?_⟩
  rintro hproper earlier later rfl m m'
  obtain ⟨hearlier, hlater⟩ := properRequests_append.1 hproper
  have hm : m.Sound := Sound.afterRequests ⟨settings, hstart⟩ hearlier
  have hm' : m'.Sound := hm.afterRequests hlater
  refine ⟨hm.exists_movesAll hlater, fun σ hσ a b hab => ?_⟩
  obtain ⟨ha, hb, hhash⟩ := hm.hashAt_of_movesAll hlater
    (fun r hr => hset r (List.mem_append_right _ hr)) hσ hab
  refine ⟨_, hash_ref_of_mem hm.wellFormed ha, ?_, hm.wellFormed.hash_lt _ ha⟩
  rw [hash_ref_of_mem hm'.wellFormed hb, hhash]

/-- The sample history makes three objects, and collects after the second. -/
theorem identity_hashes_distinct_sampleHistory :
    let rs := sampleHistory.map Request.perform
    (∀ r ∈ rs, r.setsHash = false) ∧ ((Memory.empty {}).givenHashes rs).length = 3 ∧
      ((Memory.empty {}).givenHashes rs).Nodup ∧ ProperRequests (Memory.empty {}) rs ∧
      ∃ σ, (Memory.empty {}).MovesAll rs σ := by
  intro rs
  have hset : ∀ r ∈ rs, r.setsHash = false := by decide
  have hlength : ((Memory.empty {}).givenHashes rs).length = 3 := by decide +kernel
  obtain ⟨hnodup, -, hkept⟩ := identity_hashes_distinct {} _ rs rfl hset (by rw [hlength]; decide)
  exact ⟨hset, hlength, hnodup, properAll_sampleHistory,
    (hkept properAll_sampleHistory [] rs rfl).1⟩

/-! ## Roots that refer to no object -/

/-- Eleven objects are made: ten without elements, and one of a single word. -/
def elevenRequests : List (Request (Array Value)) :=
  List.replicate 10 (.perform (.allocate #[] (Value.ofByte 0) 0 .bytes (Value.ofByte 0))) ++
    [.perform (.allocate #[] (Value.ofByte 0) 1 .words (Value.ofByte 0))]

/-- The memory in which they are made. -/
def elevenObjects : Memory :=
  (Memory.empty { semispaceSize := 16777216 }).afterRequests elevenRequests

/-- The last of the eleven objects. -/
def lastOfEleven : Value := .ref ⟨120, of_decide_eq_true rfl⟩

/-- A reference to the hash of that object, where no object begins. -/
def forgedRoot : Value := .ref ⟨124, of_decide_eq_true rfl⟩

/-- **A root that refers to no object** may cost an object its hash. The collection takes the words
from the hash on for the header of an object and moves that object first, leaving its new address
where the hash was. Then the real object is copied, and has another hash than it was given. -/
theorem hash_lost_to_forged_root :
    Memory.create { semispaceSize := 16777216 } = .ok (Memory.empty { semispaceSize := 16777216 }) ∧
      (∀ r ∈ elevenRequests, r.setsHash = false) ∧
      (Memory.givenHashes (Memory.empty { semispaceSize := 16777216 }) elevenRequests).length = 11 ∧
      (elevenObjects.hash lastOfEleven).toOption = some 14971355 ∧
      let s := endState (Smalltalk.collect ⟨elevenObjects, #[forgedRoot, lastOfEleven]⟩)
      s.memory.stats.collections = 1 ∧
        (s.memory.hash (s.roots.getD 1 forgedRoot)).toOption = some 16777216 := by
  refine ⟨rfl, ?_⟩
  decide +kernel

end Smalltalk
