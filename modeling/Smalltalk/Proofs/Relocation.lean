import Smalltalk.Proofs.Collection
import Mathlib.Algebra.BigOperators.Group.Finset.Basic
import Mathlib.Data.Set.Function

/-!
# What a collection does to the heap

The invariant of a collection speaks of lists of places. Here it is read at the end, when the
frontier has met the end of the copies, and says what callers want to know: the objects that the
roots reach, and no others, are in the new semispace, and each is what it was with its references
renamed.

`Relocation m roots ρ m' roots'` states this with the renaming as a relation, because that is the
form in which renamings are composed later. `collect_correct` states it with a function.

## Main definitions

* `Relocation`: the heap after a collection, seen from the heap before

## Main results

* `Collector.run_relocates`: a collection of a heap succeeds and relocates it
* `collect_correct`: the same for a row of roots, with a bijection
-/

namespace Smalltalk

open Memory

/-- The heap `m'` with the roots `roots'` consists of the objects that `roots` reach in `m`, each
renamed by `ρ`. -/
structure Relocation (m : Memory) (roots : Array Value) (ρ : Renaming) (m' : Memory)
    (roots' : Array Value) : Prop where
  wellFormed : m'.WellFormed
  /-- What is renamed is what the roots reach. -/
  domain : ∀ o, m.Reachable roots o ↔ ∃ n, ρ o n
  /-- What objects are renamed to are all objects there are. -/
  range : ∀ n, n ∈ m'.headers ↔ ∃ o, ρ o n
  functional : ∀ o n n', ρ o n → ρ o n' → n = n'
  injective : ∀ o o' n, ρ o n → ρ o' n → o = o'
  objects : ∀ o n, ρ o n → Matches ρ m o m' n
  size_roots : roots'.size = roots.size
  renamed : ∀ i (h : i < roots.size),
    Value.Renames ρ roots[i] (getElem roots' i (Nat.lt_of_lt_of_eq h size_roots.symm))
  settings : m'.settings = m.settings
  upper : m'.upper = !m.upper
  hashCounter : m'.hashCounter = m.hashCounter
  /-- The statistics count the objects reached and the bytes they cover. -/
  stats : ∃ live : List Nat, live.Nodup ∧ (∀ o, o ∈ live ↔ m.Reachable roots o) ∧
    m'.stats = m.stats.collected (live.map m.extentAt).sum live.length ∧
    m'.free = m'.start + (live.map m.extentAt).sum
  /-- Outside the occupied parts of both semispaces nothing is written. -/
  untouched : ∀ i, i < m.start ∨ m.free ≤ i → i < m'.start ∨ m'.free ≤ i →
    m'.arena.get i = m.arena.get i

namespace Collector

variable {m : Memory} {roots : Array Value} {moves : List (Nat × Nat)} {c : Nat} {s : Collector}

/-! ## The end of a collection -/

/-- The collection has come to its end: every slot of every copy has been scanned. -/
structure Complete (m : Memory) (roots : Array Value) (moves : List (Nat × Nat)) (s : Collector) :
    Prop where
  invariant : Invariant m roots moves s.memory.free s
  roots : RootsDone roots moves roots.size s.roots

namespace Complete

/-- A slot of a copy, once all are scanned. -/
theorem slot (h : Complete m roots moves s) {p : Nat × Nat} (hp : p ∈ moves) {k : Nat}
    (hk : Slot m p.1 k) :
    Value.Renames (movedTo moves) (Value.decode (m.wordAt (p.1 + k)))
      (Value.decode (s.memory.wordAt (p.2 + k))) := by
  have hle := hk.le_extentAt
  have hbound := h.invariant.packed.bounds hp
  exact h.invariant.scanned p hp k hk (by omega)

/-- Everything that the roots reach has been moved. -/
theorem moved_of_reachable (h : Complete m roots moves s) {o : Nat} (ho : m.Reachable roots o) :
    ∃ n, (o, n) ∈ moves := by
  -- along the path that reaches the object: the root, and then slot by slot
  induction ho with
  | @root a hmem =>
    obtain ⟨i, hi, hget⟩ := Array.mem_iff_getElem.1 hmem
    have hren := h.roots.renamed i hi hi
    rw [hget] at hren
    obtain ⟨b, -, hb⟩ := hren.of_ref
    exact ⟨_, hb⟩
  | @cls o a _ hcls ih =>
    obtain ⟨n, hmem⟩ := ih
    have hren := h.slot hmem .cls
    rw [classAt] at hcls
    rw [Nat.add_zero, hcls] at hren
    obtain ⟨b, -, hb⟩ := hren.of_ref
    exact ⟨_, hb⟩
  | @field o i a _ hk hi hfield ih =>
    obtain ⟨n, hmem⟩ := ih
    have hren := h.slot hmem (.field hk hi)
    rw [fieldAt, Nat.add_assoc] at hfield
    rw [hfield] at hren
    obtain ⟨b, -, hb⟩ := hren.of_ref
    exact ⟨_, hb⟩

theorem reachable_iff (h : Complete m roots moves s) (o : Nat) :
    m.Reachable roots o ↔ ∃ n, (o, n) ∈ moves :=
  ⟨h.moved_of_reachable, fun ⟨_, hmem⟩ => h.invariant.reached _ hmem⟩

theorem headers (h : Complete m roots moves s) : s.memory.headers = moves.map Prod.snd := by
  refine headers_eq_of_tiles ?_
  rw [h.invariant.start]
  exact h.invariant.packed.map_start fun p hp => h.invariant.extentAt_copy hp

/-- A copy is the object, with its references renamed. -/
theorem matches_copy (h : Complete m roots moves s) {o n : Nat} (hmem : (o, n) ∈ moves) :
    Matches (movedTo moves) m o s.memory n := by
  have hinv := h.invariant
  have hhead : headerBytes ≤ m.extentAt o := m.headerBytes_le_extentAt o
  have hsize : s.memory.sizeWordAt n = m.sizeWordAt o :=
    hinv.sizeWordAt_copy (p := (o, n)) hmem
  have hbyte : ∀ k < m.extentAt o, (∀ l, Slot m o l → k < l ∨ l + 4 ≤ k) →
      s.memory.arena.get (n + k) = m.arena.get (o + k) :=
    fun k hk hout => hinv.copies (o, n) hmem k hk fun l hl _ => hout l hl
  -- the body of an object without references holds no slot
  have hplain : m.kindAt o ≠ .pointers → ∀ k, headerBytes ≤ k → k < m.extentAt o →
      s.memory.arena.get (n + k) = m.arena.get (o + k) := by
    intro hkind k hlow hk
    refine hbyte k hk fun l hl => ?_
    cases hl with
    | cls => exact .inr (Nat.le_trans (by decide) hlow)
    | field hp _ => exact absurd hp hkind
  constructor
  case hash =>
    simp only [hashAt, wordAt]
    refine Arena.getWord_congr fun k hk => ?_
    rw [Nat.add_assoc, Nat.add_assoc]
    refine hbyte _ (by simp only [headerBytes] at hhead; omega) fun l hl => ?_
    have hlow := hl.eq_zero_or_ge
    simp only [headerBytes] at hlow
    omega
  case kind => simp only [kindAt, hsize]
  case count => simp only [countAt, hsize]
  case cls =>
    have hren := h.slot hmem .cls
    rw [Nat.add_zero, Nat.add_zero] at hren
    exact hren
  case fields =>
    intro hk i hi
    have hren := h.slot hmem (.field hk hi)
    rwa [← Nat.add_assoc, ← Nat.add_assoc] at hren
  case words =>
    intro hk i hi
    have hext := extentAt_of_words hk
    simp only [wordElementAt, wordAt]
    refine Arena.getWord_congr fun k hk4 => ?_
    simp only [Nat.add_assoc]
    exact hplain (by rw [hk]; decide) _ (by omega) (by omega)
  case bytes =>
    intro hk i hi
    have hext := le_extentAt_of_bytes hk
    simp only [byteElementAt, Nat.add_assoc]
    exact hplain (by rw [hk]; decide) _ (by omega) (by omega)

theorem wellFormed (hm : m.WellFormed) (hroots : ∀ v ∈ roots, m.Holds v)
    (h : Complete m roots moves s) : s.memory.WellFormed := by
  have hinv := h.invariant
  have hheaders := h.headers
  have hof : ∀ n ∈ s.memory.headers, ∃ o, (o, n) ∈ moves := by
    intro n hn
    rw [hheaders] at hn
    obtain ⟨p, hp, rfl⟩ := List.mem_map.1 hn
    exact ⟨p.1, hp⟩
  have hrange : ∀ o n, movedTo moves o n → n ∈ s.memory.headers := by
    intro o n hmem
    rw [hheaders]
    exact List.mem_map_of_mem hmem
  constructor
  case settings => rw [hinv.settings, hm.settings]
  case tiled =>
    rw [hheaders, hinv.start]
    exact hinv.packed.map_start fun p hp => hinv.extentAt_copy hp
  case free_le =>
    rw [limit, hinv.start, hinv.capacity]
    exact hinv.free_le hm hroots
  case unmarked =>
    intro n hn
    obtain ⟨o, hmem⟩ := hof n hn
    rw [hinv.sizeWordAt_copy hmem]
    exact hm.unmarked o (hinv.old_mem hm hroots hmem)
  case hash_lt =>
    intro n hn
    obtain ⟨o, hmem⟩ := hof n hn
    rw [(h.matches_copy hmem).hash]
    exact hm.hash_lt o (hinv.old_mem hm hroots hmem)
  case cls =>
    intro n hn
    obtain ⟨o, hmem⟩ := hof n hn
    exact .of_renames (h.matches_copy hmem).cls hrange
  case field =>
    intro n hn hk i hi
    obtain ⟨o, hmem⟩ := hof n hn
    have hcopy := h.matches_copy hmem
    exact .of_renames (hcopy.fields (hcopy.kind ▸ hk) i (hcopy.count ▸ hi)) hrange

theorem relocation (hm : m.WellFormed) (hroots : ∀ v ∈ roots, m.Holds v)
    (h : Complete m roots moves s) :
    Relocation m roots (movedTo moves)
      { s.memory with stats := m.stats.collected (s.memory.free - s.memory.start) s.copied }
      s.roots := by
  have hinv := h.invariant
  have hstart := hinv.start
  have hend := hinv.packed.end_eq
  have hsum : (moves.map fun p => m.extentAt p.1).sum =
      ((moves.map Prod.fst).map m.extentAt).sum := by
    rw [List.map_map]
    rfl
  have hlive : ∀ o, o ∈ moves.map Prod.fst ↔ m.Reachable roots o := by
    intro o
    rw [h.reachable_iff]
    simp
  constructor
  case wellFormed => exact (h.wellFormed hm hroots).withStats _
  case domain => exact h.reachable_iff
  case range =>
    intro n
    rw [headers_withStats, h.headers]
    simp [movedTo]
  case functional =>
    intro o n n' hn hn'
    exact congrArg Prod.snd (List.inj_on_of_nodup_map hinv.nodup hn hn' rfl)
  case injective =>
    intro o o' n ho ho'
    exact congrArg Prod.fst (hinv.packed.eq_of_start_eq (fun p => m.extentAt_pos p.1) ho ho' rfl)
  case objects =>
    intro o n hmem
    obtain ⟨hhash, hkind, hcount, hcls, hfields, hwords, hbytes⟩ := h.matches_copy hmem
    exact ⟨hhash, hkind, hcount, hcls, hfields, hwords, hbytes⟩
  case size_roots => exact h.roots.size
  case renamed => exact fun i hi => h.roots.renamed i hi hi
  case settings => exact hinv.settings
  case upper => exact hinv.upper
  case hashCounter => exact hinv.hashCounter
  case stats =>
    refine ⟨moves.map Prod.fst, hinv.nodup, hlive, ?_, ?_⟩
    · rw [← hsum, List.length_map, ← hinv.copied, hend, hstart, Nat.add_sub_cancel_left]
    · rw [← hsum, ← hstart] at *
      exact hend
  case untouched =>
    intro i hold hnew
    exact hinv.untouched i hold (hstart ▸ hnew)

end Complete

/-! ## Whole collections -/

theorem start_flip (m : Memory) : (flip m).start = m.otherStart := by
  cases h : m.upper <;> simp [flip, Memory.start, otherStart, Memory.capacity, h]

theorem limit_flip (m : Memory) : (flip m).limit = m.otherStart + m.capacity := by
  rw [limit, start_flip]
  rfl

/-- A collection begins with nothing moved. -/
theorem flip_invariant (m : Memory) (roots : Array Value) :
    Invariant m roots [] m.otherStart ⟨flip m, roots, 0⟩ where
  settings := rfl
  upper := rfl
  stats := rfl
  hashCounter := rfl
  copied := rfl
  packed := rfl
  nodup := List.nodup_nil
  reached := fun _ hp => absurd hp List.not_mem_nil
  stays := fun _ _ _ _ _ => rfl
  marked := fun _ hp => absurd hp List.not_mem_nil
  forward := fun _ hp => absurd hp List.not_mem_nil
  copies := fun _ hp => absurd hp List.not_mem_nil
  scanned := fun _ hp => absurd hp List.not_mem_nil
  untouched := fun _ _ _ => rfl

theorem Runs.finish (hinv : Invariant m roots moves s.memory.free s) (hm : m.WellFormed)
    (hroots : ∀ v ∈ roots, m.Holds v) :
    Runs m (finish s.memory.free) s ()
      { s with
        memory := { s.memory with
          stats := m.stats.collected (s.memory.free - s.memory.start) s.copied } } := by
  have hlimit : s.memory.free ≤ s.memory.limit := by
    rw [limit, hinv.start, hinv.capacity]
    exact hinv.free_le hm hroots
  have hok : ¬ (s.memory.free ≠ s.memory.free ∨ s.memory.limit < s.memory.free) := by omega
  refine ⟨?_, fun m' A hA => ⟨A, ?_, hA.inside, hA.outside⟩⟩
  · rw [Collector.finish, if_neg hok, hinv.stats]
  · have hstats : (s.withArena A).memory.stats = m.stats := hinv.stats
    rw [Collector.finish, hstats]
    exact if_neg hok

/-- A collection that has moved the objects of `moves` and ended in `s`. -/
structure Collected (m : Memory) (roots : Array Value) (moves : List (Nat × Nat))
    (s : Collector) : Prop where
  run : Runs m (run roots.size (flip m).start (flip m).limit) ⟨flip m, roots, 0⟩ () s
  relocation : Relocation m roots (movedTo moves) s.memory s.roots
  headers : s.memory.headers = moves.map Prod.snd
  packed : Tiles Prod.snd (fun p => m.extentAt p.1) m.otherStart moves s.memory.free
  /-- Copies are as the objects were, apart from the references. -/
  copies : ∀ p ∈ moves, ∀ k < m.extentAt p.1, (∀ l, Slot m p.1 l → k < l ∨ l + 4 ≤ k) →
    s.memory.arena.get (p.2 + k) = m.arena.get (p.1 + k)

/-- The two parts of a collection: the roots, and the copies. -/
theorem Collected.of_parts (hm : m.WellFormed) (hroots : ∀ v ∈ roots, m.Holds v)
    {moves₁ moves₂ : List (Nat × Nat)} {s₁ s₂ : Collector}
    (hrun₁ : Runs m (relocateRoots 0 roots.size) ⟨flip m, roots, 0⟩ () s₁)
    (hdone₁ : RootsDone roots moves₁ roots.size s₁.roots)
    (hrun₂ : Runs m (scan (m.otherStart + m.capacity) m.otherStart) s₁ s₂.memory.free s₂)
    (hcont₂ : Continues m roots moves₁ s₁ moves₂ s₂.memory.free s₂) :
    ∃ s, Collected m roots moves₂ s := by
  have hinv := hcont₂.invariant
  have hcomplete : Complete m roots moves₂ s₂ := by
    refine ⟨hinv, ?_⟩
    rw [hcont₂.roots]
    exact ⟨hdone₁.size,
      fun j hj hlt => (hdone₁.renamed j hj hlt).mono fun _ _ hmem => hcont₂.grows.subset hmem,
      hdone₁.same⟩
  refine ⟨{ s₂ with
      memory := { s₂.memory with
        stats := m.stats.collected (s₂.memory.free - s₂.memory.start) s₂.copied } },
    ?_, hcomplete.relocation hm hroots, ?_, hinv.packed,
    fun p hp k hk hout => hinv.copies p hp k hk fun l hl _ => hout l hl⟩
  · rw [start_flip, limit_flip]
    exact hrun₁.bind (hrun₂.bind (.finish hinv hm hroots))
  · rw [headers_withStats]
    exact hcomplete.headers

theorem rootsDone_zero (roots : Array Value) : RootsDone roots [] 0 roots :=
  ⟨rfl, fun _ _ hlt => absurd hlt (Nat.not_lt_zero _), fun _ _ _ => rfl⟩

/-- A collection comes to its end. -/
theorem exists_collected (hm : m.WellFormed) (hroots : ∀ v ∈ roots, m.Holds v) :
    ∃ moves s, Collected m roots moves s := by
  obtain ⟨moves₁, s₁, hrun₁, hinv₁, -, -, hdone₁⟩ :=
    relocateRoots_invariant hm hroots (flip_invariant m roots) (Nat.le_refl _) (Nat.zero_add _)
      (rootsDone_zero roots)
  obtain ⟨moves₂, s₂, hrun₂, hcont₂⟩ := scan_invariant hm hroots hinv₁ hinv₁.packed.first
  exact ⟨moves₂, Collected.of_parts hm hroots hrun₁ hdone₁ hrun₂ hcont₂⟩

/-- **A collection succeeds, and relocates the heap.** -/
theorem run_relocates (hm : m.WellFormed) (hroots : ∀ v ∈ roots, m.Holds v) :
    ∃ ρ s', Runs m (run roots.size (flip m).start (flip m).limit) ⟨flip m, roots, 0⟩ () s' ∧
      Relocation m roots ρ s'.memory s'.roots := by
  obtain ⟨moves, s, h⟩ := exists_collected hm hroots
  exact ⟨movedTo moves, s, h.run, h.relocation⟩

end Collector

/-- The renaming of a relocation is a bijection between what was reached and what there is now. -/
theorem Relocation.bijection {ρ : Renaming} {m m' : Memory} {roots roots' : Array Value}
    (h : Relocation m roots ρ m' roots') :
    ∃ φ : Nat → Nat, (∀ o n, ρ o n → φ o = n) ∧
      Set.BijOn φ {o | m.Reachable roots o} {n | n ∈ m'.headers} := by
  classical
  have hspec : ∀ o, ∃ n, ∀ k, ρ o k → n = k := by
    intro o
    by_cases ho : ∃ n, ρ o n
    · obtain ⟨n, hn⟩ := ho
      exact ⟨n, fun k hk => h.functional o n k hn hk⟩
    · exact ⟨0, fun k hk => absurd ⟨k, hk⟩ ho⟩
  choose φ hφ using hspec
  have hρ : ∀ o, m.Reachable roots o → ρ o (φ o) := by
    intro o ho
    obtain ⟨n, hn⟩ := (h.domain o).1 ho
    rwa [hφ o n hn]
  refine ⟨φ, hφ, fun o ho => (h.range _).2 ⟨o, hρ o ho⟩, fun o ho o' ho' heq => ?_, fun n hn => ?_⟩
  · have hn := hρ o' ho'
    rw [← show φ o = φ o' from heq] at hn
    exact h.injective o o' _ (hρ o ho) hn
  · obtain ⟨o, ho⟩ := (h.range n).1 hn
    exact ⟨o, (h.domain o).2 ⟨n, ho⟩, hφ o n ho⟩

/-- The new roots belong to the new heap. -/
theorem Relocation.holds {ρ : Renaming} {m m' : Memory} {roots roots' : Array Value}
    (h : Relocation m roots ρ m' roots') : ∀ v ∈ roots', m'.Holds v := by
  intro v hv
  obtain ⟨i, hi, rfl⟩ := Array.mem_iff_getElem.1 hv
  exact .of_renames (h.renamed i (h.size_roots ▸ hi)) fun o n hn => (h.range n).2 ⟨o, hn⟩

theorem Relocation.start {ρ : Renaming} {m m' : Memory} {roots roots' : Array Value}
    (h : Relocation m roots ρ m' roots') : m'.start = m.otherStart := by
  cases hup : m.upper <;> simp [Memory.start, otherStart, Memory.capacity, h.upper, h.settings, hup]

theorem Relocation.otherStart {ρ : Renaming} {m m' : Memory} {roots roots' : Array Value}
    (h : Relocation m roots ρ m' roots') : m'.otherStart = m.start := by
  cases hup : m.upper <;>
    simp [Memory.start, Memory.otherStart, Memory.capacity, h.upper, h.settings, hup]

/-- A collection of a heap relocates its twins in the same way. -/
theorem Relocation.twin {ρ : Renaming} {m m' m₁ : Memory} {roots roots₁ : Array Value}
    (hm : m.WellFormed) (hroots : ∀ v ∈ roots, m.Holds v) (h : Relocation m roots ρ m₁ roots₁)
    (ht : Twin m m') {A : Arena} (hin : ∀ i, m₁.start ≤ i → i < m₁.free → A.get i = m₁.arena.get i)
    (hout : ∀ i, i < m.start ∨ m.free ≤ i → i < m₁.start ∨ m₁.free ≤ i →
      A.get i = m'.arena.get i) :
    Relocation m' roots ρ { m₁ with arena := A } roots₁ := by
  have ht₁ : Twin m₁ { m₁ with arena := A } := ⟨A, rfl, hin⟩
  have hreach : ∀ o, m'.Reachable roots o ↔ m.Reachable roots o :=
    fun o => ht.reachable_iff hm hroots
  have hold : ∀ o n, ρ o n → o ∈ m.headers :=
    fun o n hn => hm.mem_of_reachable hroots ((h.domain o).2 ⟨n, hn⟩)
  have hnew : ∀ o n, ρ o n → n ∈ m₁.headers := fun o n hn => (h.range n).2 ⟨o, hn⟩
  have hagree := fun o ho => ht.agreeAt hm (o := o) ho
  obtain ⟨B, rfl, hB⟩ := ht
  constructor
  case wellFormed => exact ht₁.wellFormed h.wellFormed
  case domain => exact fun o => (hreach o).trans (h.domain o)
  case range => exact fun n => (ht₁.headers h.wellFormed) ▸ h.range n
  case functional => exact h.functional
  case injective => exact h.injective
  case objects =>
    intro o n hn
    exact (h.objects o n hn).congr (hagree o (hold o n hn))
      (ht₁.agreeAt h.wellFormed (hnew o n hn))
  case size_roots => exact h.size_roots
  case renamed => exact h.renamed
  case settings => exact h.settings
  case upper => exact h.upper
  case hashCounter => exact h.hashCounter
  case stats =>
    obtain ⟨live, hnodup, hlive, hstats, hfree⟩ := h.stats
    have hext : live.map (extentAt { m with arena := B }) = live.map m.extentAt := by
      refine List.map_congr_left fun o ho => ?_
      exact (hagree o (hm.mem_of_reachable hroots ((hlive o).1 ho))).extentAt
    refine ⟨live, hnodup, fun o => (hlive o).trans (hreach o).symm, ?_, ?_⟩
    · rw [hext]
      exact hstats
    · rw [hext]
      exact hfree
  case untouched => exact hout

/-- **A collection with pinned values**, for any owner of roots. Twins are collected alike. -/
theorem collectWith_relocates {ρ : Type} [RootSet ρ] {m : Memory} {owner : ρ}
    (pinned : Array Value) (hm : m.WellFormed)
    (howned : ∀ v ∈ RootSet.toArray owner, m.Holds v) (hpinned : ∀ v ∈ pinned, m.Holds v) :
    ∃ σ m₁ roots₁, Relocation m (RootSet.toArray owner ++ pinned) σ m₁ roots₁ ∧
      collectWith pinned ⟨m, owner⟩ =
        .ok (roots₁.extract (RootSet.toArray owner).size roots₁.size)
          ⟨m₁, RootSet.replace owner (roots₁.extract 0 (RootSet.toArray owner).size)⟩ ∧
      ∀ m', Twin m m' → ∃ m₁', Twin m₁ m₁' ∧
        Relocation m' (RootSet.toArray owner ++ pinned) σ m₁' roots₁ ∧
        collectWith pinned ⟨m', owner⟩ =
          .ok (roots₁.extract (RootSet.toArray owner).size roots₁.size)
            ⟨m₁', RootSet.replace owner (roots₁.extract 0 (RootSet.toArray owner).size)⟩ := by
  have hroots : ∀ v ∈ RootSet.toArray owner ++ pinned, m.Holds v := by
    intro v hv
    rcases Array.mem_append.1 hv with hv | hv
    · exact howned v hv
    · exact hpinned v hv
  obtain ⟨σ, s, hrun, hrel⟩ := Collector.run_relocates hm hroots
  rw [Array.size_append] at hrun
  have hstart := hrel.start
  refine ⟨σ, s.memory, s.roots, hrel, by simp only [collectWith, hrun.run], fun m' ht => ?_⟩
  obtain ⟨A, rfl, hA⟩ := id ht
  have hover : Collector.Overlay m { m with arena := A }
      ⟨Collector.flip m, RootSet.toArray owner ++ pinned, 0⟩ A := by
    refine ⟨fun i hi => ?_, fun _ _ _ => rfl⟩
    have hi' : m.start ≤ i ∧ i < m.free ∨ m.otherStart ≤ i ∧ i < m.otherStart := hi
    exact hA i (by omega) (by omega)
  obtain ⟨A', hrun', hA'⟩ := hrun.alike _ A hover
  have hin : ∀ i, s.memory.start ≤ i → i < s.memory.free → A'.get i = s.memory.arena.get i :=
    fun i hlow hhigh => hA'.inside i (.inr ⟨hstart ▸ hlow, hhigh⟩)
  refine ⟨{ s.memory with arena := A' }, ⟨A', rfl, hin⟩,
    hrel.twin hm hroots ht hin fun i hi hi' => hA'.outside i hi (hstart ▸ hi'), ?_⟩
  have hrun'' : Collector.run ((RootSet.toArray owner).size + pinned.size)
      (Collector.flip { m with arena := A }).start (Collector.flip { m with arena := A }).limit
      ⟨Collector.flip { m with arena := A }, RootSet.toArray owner ++ pinned, 0⟩ =
      .ok () (s.withArena A') := hrun'
  simp only [collectWith, hrun'']
  rfl

/-- **A collection is correct.** On a heap, collecting succeeds whatever the roots are. It leaves a
heap in the other semispace that consists of what the roots reached, and of nothing else: `φ` takes
each object reached to its copy, and the copy is the object with its references renamed by `φ`. -/
theorem collect_correct {ρ : Type} [RootSet ρ] (m : Memory) (owner : ρ) (hm : m.WellFormed)
    (howned : ∀ v ∈ RootSet.toArray owner, m.Holds v) :
    ∃ (m' : Memory) (roots' : Array Value) (φ : Nat → Nat) (live : Finset Nat),
      collect ⟨m, owner⟩ = .ok () ⟨m', RootSet.replace owner roots'⟩ ∧
      Set.BijOn φ {o | m.Reachable (RootSet.toArray owner) o} {n | n ∈ m'.headers} ∧
      (∀ o, m.Reachable (RootSet.toArray owner) o → Matches (fun a b => φ a = b) m o m' (φ o)) ∧
      roots'.size = (RootSet.toArray owner).size ∧
      (∀ (i : Nat) (h : i < (RootSet.toArray owner).size) (h' : i < roots'.size),
        Value.Renames (fun a b => φ a = b) (RootSet.toArray owner)[i] roots'[i]) ∧
      m'.WellFormed ∧ (∀ v ∈ roots', m'.Holds v) ∧
      m'.start = m.otherStart ∧ m'.otherStart = m.start ∧ m'.settings = m.settings ∧
      (∀ o, o ∈ live ↔ m.Reachable (RootSet.toArray owner) o) ∧
      m'.stats.objectsCopied = live.card ∧ m'.stats.bytesCopied = ∑ o ∈ live, m.extentAt o := by
  obtain ⟨σ, m', roots', hrel, hrun, -⟩ := collectWith_relocates #[] hm howned
    fun v hv => absurd hv (Array.not_mem_empty v)
  rw [Array.append_empty] at hrel
  obtain ⟨φ, hφ, hbij⟩ := hrel.bijection
  obtain ⟨live, hnodup, hlive, hstats, -⟩ := hrel.stats
  refine ⟨m', roots', φ, ⟨live, hnodup⟩, ?_, hbij, ?_, hrel.size_roots, ?_, hrel.wellFormed,
    hrel.holds, hrel.start, hrel.otherStart, hrel.settings, hlive, ?_, ?_⟩
  · simp only [collect, bind, EStateM.bind, hrun, ← hrel.size_roots, Array.extract_size]
    rfl
  · intro o ho
    obtain ⟨n, hn⟩ := (hrel.domain o).1 ho
    rw [hφ o n hn]
    exact (hrel.objects o n hn).mono hφ
  · exact fun i h _ => (hrel.renamed i h).mono hφ
  · rw [hstats]
    rfl
  · rw [hstats]
    rfl

/-- Two objects: one with itself as class and the other as its field, and a row of three bytes. -/
def pairOfObjects : Memory :=
  { Memory.empty {} with
    arena := (((Arena.empty.setWord 8 0x40000001).setWord 12 16).setWord 20 7).setWord 24 3
    free := 32 }

theorem laidOut_pairOfObjects : pairOfObjects.LaidOut [0, 16] := by
  decide +kernel

/-- The theorem applies to a heap whose root refers to an object that is its own class. -/
theorem collect_correct_pairOfObjects :
    ∃ (m' : Memory) (roots' : Array Value),
      (collect : Managed (Array Value) Unit) ⟨pairOfObjects, #[.ref Address.zero]⟩ =
        .ok () ⟨m', roots'⟩ ∧ m'.WellFormed := by
  obtain ⟨m', roots', -, -, hrun, -, -, -, -, hwf, -⟩ :=
    collect_correct pairOfObjects #[Value.ref Address.zero] laidOut_pairOfObjects.wellFormed
      fun v hv => by
        obtain rfl : v = .ref Address.zero := by simpa [RootSet.toArray] using hv
        exact laidOut_pairOfObjects.holds (by decide)
  exact ⟨m', roots', hrun, hwf⟩

end Smalltalk
