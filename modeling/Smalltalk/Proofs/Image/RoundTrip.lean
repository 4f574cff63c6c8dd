import Smalltalk.Proofs.Arrangement
import Smalltalk.Proofs.Image.Reading

/-!
# Writing, reading and writing again

A machine is collected before it is written, so its image does not show where its objects were or
what garbage lay between them. That the image is the same each time rests on the order in which a
collection puts objects: a heap that a collection has left is in that order already, and the next
collection moves it as it is. Two collections therefore bring an arranged machine back to where it
was, byte by byte.

A machine that was read has the objects of the one that was written, hence is arranged as well, and
what holds of the one holds of the other.

## Main definitions

* `Machine.Arranged`: the objects lie in the order in which a collection meets them

## Main results

* `Machine.WellFormed.arranged`: a collection arranges a machine
* `Machine.Arranged.back`: two more collections change nothing that is saved
* `image_round_trip`: reading gives back what was written, and writing again the same bytes
-/

namespace Smalltalk

open Memory Machine

/-! ## Isomorphisms in a row -/

section Composition

variable {φ ψ : Nat → Nat}

theorem Value.Renames.comp {u v w : Value} (h : Value.Renames (.ofMap φ) u v)
    (h' : Value.Renames (.ofMap ψ) v w) : Value.Renames (.ofMap (ψ ∘ φ)) u w := by
  cases h with
  | small n =>
    cases h' with
    | small n => exact .small n
  | ref hab =>
    cases h' with
    | ref hbc => exact .ref ((congrArg ψ hab).trans hbc)

theorem Memory.Isomorphism.trans {m m' m'' : Memory} {roots roots' roots'' : Array Value}
    (h : m.Isomorphism φ roots m' roots') (h' : m'.Isomorphism ψ roots' m'' roots'') :
    m.Isomorphism (ψ ∘ φ) roots m'' roots'' where
  bijection := h'.bijection.comp h.bijection
  objects o ho := by
    have hfirst := h.objects o ho
    have hsecond := h'.objects (φ o) (h.bijection.mapsTo ho)
    constructor
    case hash => exact hsecond.hash.trans hfirst.hash
    case kind => exact hsecond.kind.trans hfirst.kind
    case count => exact hsecond.count.trans hfirst.count
    case cls => exact hfirst.cls.comp hsecond.cls
    case fields =>
      exact fun hk i hi => (hfirst.fields hk i hi).comp
        (hsecond.fields (hfirst.kind.trans hk) i (hfirst.count.symm ▸ hi))
    case words =>
      exact fun hk i hi => (hsecond.words (hfirst.kind.trans hk) i (hfirst.count.symm ▸ hi)).trans
        (hfirst.words hk i hi)
    case bytes =>
      exact fun hk i hi => (hsecond.bytes (hfirst.kind.trans hk) i (hfirst.count.symm ▸ hi)).trans
        (hfirst.bytes hk i hi)

theorem forall₂_renames_comp {us vs ws : List Value}
    (h : List.Forall₂ (Value.Renames (.ofMap φ)) us vs)
    (h' : List.Forall₂ (Value.Renames (.ofMap ψ)) vs ws) :
    List.Forall₂ (Value.Renames (.ofMap (ψ ∘ φ))) us ws := by
  induction h generalizing ws with
  | nil =>
    cases h' with
    | nil => exact .nil
  | cons hv _ ih =>
    cases h' with
    | cons hw hrest => exact .cons (hv.comp hw) (ih hrest)

theorem Machine.Isomorphism.trans {m m' m'' : Machine} {values values' values'' : Array Value}
    (h : m.Isomorphism φ m' values values') (h' : m'.Isomorphism ψ m'' values' values'') :
    m.Isomorphism (ψ ∘ φ) m'' values values'' where
  memory := h.memory.trans h'.memory
  registers := ⟨fun i => (h.registers.named i).comp (h'.registers.named i),
    forall₂_renames_comp h.registers.scratch h'.registers.scratch⟩
  values := forall₂_renames_comp h.values h'.values
  hashCounter := h.hashCounter.trans h'.hashCounter
  ip := h.ip.trans h'.ip
  sp := h.sp.trans h'.sp
  running := h.running.trans h'.running
  input := h.input.trans h'.input
  compiler := h.compiler.trans h'.compiler

/-- Registers that hold one value go on to do so. -/
theorem Registers.Renames.get_eq {r r' : Registers} (h : r.Renames (.ofMap φ) r') {x y : Root}
    (heq : r.get x = r.get y) : r'.get x = r'.get y := by
  have hx := h.named x.index
  have hy := h.named y.index
  unfold Registers.get at *
  rw [heq] at hx
  generalize r.named[y.index] = v at hx hy
  generalize r'.named[x.index] = v₁ at hx ⊢
  generalize r'.named[y.index] = v₂ at hy ⊢
  cases hx with
  | small n =>
    cases hy with
    | small n => rfl
  | ref ha =>
    cases hy with
    | ref hb => exact congrArg Value.ref (Address.ext (ha.symm.trans hb))

end Composition

/-! ## Collections of a machine -/

section Collections

variable {m m₁ m₂ : Machine}

/-- A collection of a machine is one of its memory. -/
theorem collectGarbage_of_collected {moves : List (Nat × Nat)} {s : Collector}
    (h : Collector.Collected m.memory (RootSet.toArray m.registers) moves s) :
    collectGarbage m = .ok () { m with
      memory := s.memory
      registers := RootSet.replace m.registers s.roots
      log := noted m.memory.stats s.memory m.log } := by
  have hsize : s.roots.size = (RootSet.toArray m.registers).size := h.relocation.size_roots
  have hwith : collectWith #[] ⟨m.memory, m.registers⟩ =
      .ok (s.roots.extract (RootSet.toArray m.registers).size s.roots.size)
        ⟨s.memory, RootSet.replace m.registers s.roots⟩ := by
    simp only [collectWith, Array.append_empty, List.size_toArray, List.length_nil, Nat.add_zero,
      h.run.run]
    rw [← hsize, Array.extract_size]
  rw [collectGarbage, onHeap_apply, collect_of_collectWith hwith]

/-- The machine holds no values for an operation, and its objects lie in the order in which a
collection meets them. -/
structure Machine.Arranged (m : Machine) : Prop where
  wellFormed : m.WellFormed
  scratch : m.registers.scratch = #[]
  inOrder : m.memory.InOrder (RootSet.toArray m.registers)

theorem roots_eq_named {r : Registers} (h : r.scratch = #[]) :
    RootSet.toArray r = r.named.toArray := by
  show r.named.toArray ++ r.scratch = _
  rw [h, Array.append_empty]

theorem roots_replace {r : Registers} (h : r.scratch = #[]) {roots : Array Value}
    (hsize : roots.size = (RootSet.toArray r).size) :
    RootSet.toArray (RootSet.replace r roots) = roots ∧
      (RootSet.replace r roots).scratch = #[] := by
  have hcount : roots.size = Root.count := by
    rw [hsize, roots_eq_named h, Vector.size_toArray]
  have hscratch : (RootSet.replace r roots).scratch = #[] := by
    simp only [RootSet.replace, hcount, Array.extract_empty_of_stop_le_start, Nat.le_refl]
  refine ⟨?_, hscratch⟩
  rw [roots_eq_named hscratch]
  refine Array.ext ((Vector.size_toArray _).trans hcount.symm) fun i hi hi' => ?_
  have hlt : i < Root.count := Nat.lt_of_lt_of_eq hi' hcount
  have hget : (RootSet.replace r roots).named[i] = roots.getD i r.named[i] := by
    simp only [RootSet.replace, Vector.getElem_ofFn, Fin.getElem_fin]
  rw [Vector.getElem_toArray, hget]
  simp [hi']

/-- **Collections arrange.** -/
theorem Machine.WellFormed.arranged (hm : m.WellFormed) (hscratch : m.registers.scratch = #[]) :
    ∃ φ m₁, collectGarbage m = .ok () m₁ ∧ m.Isomorphism φ m₁ #[] #[] ∧ m₁.Arranged ∧
      m₁.memory.upper = !m.memory.upper := by
  obtain ⟨moves, s, hs⟩ := Collector.exists_collected hm.memory hm.registers.roots
  have hcollect := collectGarbage_of_collected hs
  obtain ⟨φ, m₁, hcollect', hm₁, hiso⟩ := hm.collected
  obtain ⟨-, rfl⟩ := EStateM.Result.ok.inj (hcollect.symm.trans hcollect')
  obtain ⟨hroots, hempty⟩ := roots_replace hscratch hs.relocation.size_roots
  refine ⟨φ, _, hcollect, hiso, ⟨hm₁, hempty, ?_⟩, hs.relocation.upper⟩
  have hinOrder := hs.inOrder hm.memory hm.registers.roots
  rwa [← hroots] at hinOrder

/-- Collections of arranged machines do not rearrange. -/
theorem Machine.Arranged.slides (hm : m.Arranged) (h : collectGarbage m = .ok () m₁) :
    m.memory.Slides (RootSet.toArray m.registers) m₁.memory (RootSet.toArray m₁.registers) := by
  have hroots := hm.wellFormed.registers.roots
  obtain ⟨moves, s, hs⟩ := Collector.exists_collected hm.wellFormed.memory hroots
  obtain ⟨-, rfl⟩ := EStateM.Result.ok.inj ((collectGarbage_of_collected hs).symm.trans h)
  have hslides := hm.inOrder.slides hm.wellFormed.memory hroots hs
  rwa [← (roots_replace hm.scratch hs.relocation.size_roots).1] at hslides

/-- **There and back.** After two collections an arranged machine is as it was. -/
theorem Machine.Arranged.back (hm : m.Arranged) (h : collectGarbage m = .ok () m₁)
    (hm₁ : m₁.Arranged) (h' : collectGarbage m₁ = .ok () m₂) (hm₂ : m₂.Arranged) :
    m.memory.SameObjects m₂.memory ∧ m₂.registers.named = m.registers.named := by
  obtain ⟨hsame, hroots⟩ := (hm.slides h).back hm.wellFormed.memory (hm₁.slides h')
  rw [roots_eq_named hm₂.scratch, roots_eq_named hm.scratch] at hroots
  exact ⟨hsame, Vector.toArray_inj.1 hroots⟩

end Collections

/-! ## Settling and writing -/

namespace Image

section Writing

variable {m m₁ m₂ : Machine}

theorem saving_of_ok {α : Type} {x : Exec α} {a : α} (h : x m = .ok a m₁) :
    saving x m = .ok a m₁ := by
  rw [saving, EStateM.adaptExcept, h]

theorem settle_of_lower (h : collectGarbage m = .ok () m₁) (hlower : m₁.memory.upper = false) :
    settle m = .ok () m₁ := by
  unfold settle
  rw [bind_of_ok (saving_of_ok h)]
  show (if m₁.memory.upper = true then _ else _ : Save Unit) m₁ = _
  simp only [hlower]
  show (if m₁.memory.upper = true then _ else _ : Save Unit) m₁ = _
  simp only [hlower]
  rfl

theorem settle_of_upper (h : collectGarbage m = .ok () m₁) (hupper : m₁.memory.upper = true)
    (h' : collectGarbage m₁ = .ok () m₂) (hlower : m₂.memory.upper = false) :
    settle m = .ok () m₂ := by
  unfold settle
  rw [bind_of_ok (saving_of_ok h)]
  show (if m₁.memory.upper = true then _ else _ : Save Unit) m₁ = _
  rw [if_pos hupper, bind_of_ok (saving_of_ok h')]
  show (if m₂.memory.upper = true then _ else _ : Save Unit) m₂ = _
  simp only [hlower]
  rfl

/-- The machine is in the middle of nothing. -/
def Idle (m : Machine) : Prop :=
  m.registers.scratch = #[] ∧ m.registers.get .compilerMethod = m.registers.get .nil

/-- A machine in the middle of something is not even looked at. -/
theorem attempt_of_not_idle (h : ¬ Idle m) :
    ∃ reason, attempt m = ⟨.error (.busy reason), [], m⟩ := by
  have hbusy : ∃ reason, checkIdle m = .error (.busy reason) m := by
    unfold checkIdle
    by_cases hscratch : m.registers.scratch.size = 0
    · have hcompiler : m.registers.get .compilerMethod ≠ m.nil := fun hnil =>
        h ⟨Array.size_eq_zero_iff.1 hscratch, hnil⟩
      rw [if_neg (not_not.2 hscratch), if_pos hcompiler]
      exact ⟨_, rfl⟩
    · rw [if_pos hscratch]
      exact ⟨_, rfl⟩
  obtain ⟨reason, hreason⟩ := hbusy
  refine ⟨reason, ?_⟩
  rw [attempt, bind_of_error hreason]

theorem checkIdle_of_idle (h : Idle m) : checkIdle m = .ok () m := by
  have hcompiler : m.registers.get .compilerMethod = m.nil := h.2
  rw [checkIdle, if_neg (not_not.2 (Array.size_eq_zero_iff.2 h.1)), if_neg (not_not.2 hcompiler)]

theorem attempt_of_unsettled {e : ImageError} (h : Idle m) (hsettle : settle m = .error e m₁) :
    attempt m = ⟨.error e, [], m₁⟩ := by
  rw [attempt, bind_of_ok (checkIdle_of_idle h), hsettle]

theorem attempt_of_ok (h : Idle m) (hsettle : settle m = .ok () m₁) {written : List UInt8}
    (hwritten : writeMachine m₁ [] = .ok () written) : attempt m = ⟨.ok (), written, m₁⟩ := by
  rw [attempt, bind_of_ok (checkIdle_of_idle h), hsettle]
  simp only [hwritten]

theorem attempt_of_error (h : Idle m) (hsettle : settle m = .ok () m₁) {written : List UInt8}
    {e : ImageError} (hwritten : writeMachine m₁ [] = .error e written) :
    attempt m = ⟨.error e, written, m₁⟩ := by
  rw [attempt, bind_of_ok (checkIdle_of_idle h), hsettle]
  simp only [hwritten]

/-- When a machine can be written, and what is left of it. -/
theorem write_eq_ok_iff {bytes : List UInt8} :
    write m = .ok bytes m₁ ↔
      Idle m ∧ settle m = .ok () m₁ ∧ writeMachine m₁ [] = .ok () bytes := by
  constructor
  · intro h
    by_cases hidle : Idle m
    · cases hsettle : settle m with
      | error e m' =>
        rw [write, attempt_of_unsettled hidle hsettle] at h
        cases h
      | ok u m' =>
        cases hwritten : writeMachine m' [] with
        | ok _ written =>
          rw [write, attempt_of_ok hidle hsettle hwritten] at h
          cases h
          exact ⟨hidle, rfl, hwritten⟩
        | error e written =>
          rw [write, attempt_of_error hidle hsettle hwritten] at h
          cases h
    · obtain ⟨reason, hbusy⟩ := attempt_of_not_idle hidle
      rw [write, hbusy] at h
      cases h
  · rintro ⟨hidle, hsettle, hwritten⟩
    rw [write, attempt_of_ok hidle hsettle hwritten]

/-- The bytes depend on what is saved alone. -/
theorem writeMachine_congr (h : m.memory.SameObjects m₁.memory)
    (hnamed : m₁.registers.named = m.registers.named) (hip : m₁.ip = m.ip) (hsp : m₁.sp = m.sp) :
    writeMachine m₁ = writeMachine m := by
  have hused : m₁.memory.usedBytes = m.memory.usedBytes := by
    rw [usedBytes, usedBytes, h.free, h.start]
  have hobjects : m₁.memory.arena.getBytes m₁.memory.start m₁.memory.usedBytes =
      m.memory.arena.getBytes m.memory.start m.memory.usedBytes := by
    rw [hused, h.start]
    refine List.map_congr_left fun k hk => ?_
    have hlt := List.mem_range.1 hk
    simp only [usedBytes] at hlt
    exact h.bytes _ (Nat.le_add_right _ _) (by omega)
  rw [writeMachine, writeMachine, hobjects, hused, hnamed, hip, hsp]

/-- Settling arranges, in the lower semispace. -/
theorem settle_arranges (hm : m.WellFormed) (hscratch : m.registers.scratch = #[]) :
    ∃ φ m₁, settle m = .ok () m₁ ∧ m.Isomorphism φ m₁ #[] #[] ∧ m₁.Arranged ∧
      m₁.memory.upper = false := by
  obtain ⟨φ, m₁, hcollect, hiso, harranged, hside⟩ := hm.arranged hscratch
  cases hupper : m₁.memory.upper with
  | false => exact ⟨φ, m₁, settle_of_lower hcollect hupper, hiso, harranged, hupper⟩
  | true =>
    obtain ⟨ψ, m₂, hcollect', hiso', harranged', hside'⟩ :=
      harranged.wellFormed.arranged harranged.scratch
    have hlower : m₂.memory.upper = false := by rw [hside', hupper, Bool.not_true]
    exact ⟨ψ ∘ φ, m₂, settle_of_upper hcollect hupper hcollect' hlower, hiso.trans hiso',
      harranged', hlower⟩

/-- **Settling again.** An arranged machine in the lower semispace is settled as it is. -/
theorem settle_arranged (hm : m.Arranged) (hlower : m.memory.upper = false) :
    ∃ m₁, settle m = .ok () m₁ ∧ m.memory.SameObjects m₁.memory ∧
      m₁.registers.named = m.registers.named ∧ m₁.ip = m.ip ∧ m₁.sp = m.sp := by
  obtain ⟨φ, m₁, hcollect, hiso, harranged, hside⟩ := hm.wellFormed.arranged hm.scratch
  have hupper : m₁.memory.upper = true := by rw [hside, hlower, Bool.not_false]
  obtain ⟨ψ, m₂, hcollect', hiso', harranged', hside'⟩ :=
    harranged.wellFormed.arranged harranged.scratch
  have hlower' : m₂.memory.upper = false := by rw [hside', hupper, Bool.not_true]
  obtain ⟨hsame, hnamed⟩ := hm.back hcollect harranged hcollect' harranged'
  exact ⟨m₂, settle_of_upper hcollect hupper hcollect' hlower', hsame, hnamed,
    (hiso.ip.trans hiso'.ip).symm, (hiso.sp.trans hiso'.sp).symm⟩

/-- An arranged machine is written as it is. -/
theorem write_arranged (hm : m.Arranged) (hlower : m.memory.upper = false)
    (hcompiler : m.registers.get .compilerMethod = m.registers.get .nil) {bytes : List UInt8}
    (hbytes : writeMachine m [] = .ok () bytes) : ∃ m₁, write m = .ok bytes m₁ := by
  obtain ⟨m₁, hsettle, hsame, hnamed, hip, hsp⟩ := settle_arranged hm hlower
  refine ⟨m₁, write_eq_ok_iff.2 ⟨⟨hm.scratch, hcompiler⟩, hsettle, ?_⟩⟩
  rw [writeMachine_congr hsame hnamed hip hsp, hbytes]

/-- A machine that is in the middle of nothing can be written. -/
theorem exists_write (hm : m.WellFormed) (hidle : Idle m) (hip : m.ip < 4294967296)
    (hsp : m.sp < 4294967296) : ∃ bytes m₁, write m = .ok bytes m₁ := by
  obtain ⟨φ, m₁, hsettle, hiso, harranged, -⟩ := settle_arranges hm hidle.1
  obtain ⟨bytes, hbytes⟩ :=
    exists_writeMachine harranged.wellFormed (hiso.ip ▸ hip) (hiso.sp ▸ hsp)
  exact ⟨bytes, m₁, write_eq_ok_iff.2 ⟨hidle, hsettle, hbytes⟩⟩

end Writing

/-! ## Reading back -/

section Restored

variable {m l : Machine} {settings : Settings}

/-- **What is read is arranged**, if what was written is. -/
theorem Restores.arranged (h : Restores m l settings) (hm : m.Arranged)
    (hvalid : settings.validate = .ok ()) (hle : m.memory.usedBytes ≤ settings.semispaceSize) :
    l.Arranged := by
  have htiled := hm.wellFormed.memory.tiled
  have hverified := hm.wellFormed.verified.congr h.objects h.named
  have hfree : l.memory.free ≤ l.memory.limit := by
    have hstart : l.memory.start = 0 := by simp [start, h.upper]
    have hzero : m.memory.start = 0 := h.objects.start.symm.trans hstart
    rw [usedBytes, hzero, Nat.sub_zero, ← h.objects.free] at hle
    rwa [limit, capacity, h.settings, hstart, Nat.zero_add]
  have hwell : l.WellFormed := by
    refine (hverified.wellFormed_iff ?_ hfree h.scratch).2
      (hm.wellFormed.unspoiled.congr h.objects htiled)
    rw [h.settings, hvalid]
  have hroots : RootSet.toArray l.registers = RootSet.toArray m.registers := by
    rw [roots_eq_named h.scratch, roots_eq_named hm.scratch, h.named]
  refine ⟨hwell, h.scratch, ?_⟩
  rw [hroots]
  exact hm.inOrder.congr hm.wellFormed.memory hwell.memory h.objects hm.wellFormed.registers.roots

end Restored

end Image

/-- **Images are stable.** Whatever a machine holds besides, writing it leaves an isomorphic
machine, and what is read from the bytes has the registers and, byte by byte, the objects of that.
To write either of them again gives the same bytes. -/
theorem image_round_trip {m m₁ : Machine} {bytes : List UInt8} (hm : m.WellFormed)
    (hwrite : Image.write m = .ok bytes m₁) :
    (m₁.WellFormed ∧ ∃ φ, m.Isomorphism φ m₁ #[] #[]) ∧
    (∀ settings : Settings, settings.validate = .ok () →
      m₁.memory.usedBytes ≤ settings.semispaceSize →
      ∃ l, Image.read settings bytes = (.ok l, []) ∧ l.WellFormed ∧ Image.Restores m₁ l settings ∧
        ∃ l', Image.write l = .ok bytes l') ∧
    ∃ m₂, Image.write m₁ = .ok bytes m₂ := by
  obtain ⟨⟨hscratch, hcompiler⟩, hsettle, hbytes⟩ := Image.write_eq_ok_iff.1 hwrite
  obtain ⟨φ, m', hsettle', hiso, harranged, hlower⟩ := Image.settle_arranges hm hscratch
  obtain ⟨-, rfl⟩ := EStateM.Result.ok.inj (hsettle.symm.trans hsettle')
  have hcompiler₁ := hiso.registers.get_eq hcompiler
  refine ⟨⟨harranged.wellFormed, φ, hiso⟩, fun settings hvalid hle => ?_,
    Image.write_arranged harranged hlower hcompiler₁ hbytes⟩
  obtain ⟨l, hread, hrestores⟩ :=
    Image.read_writeMachine harranged.wellFormed.verified hlower hbytes hvalid hle
  have harranged' := hrestores.arranged harranged hvalid hle
  refine ⟨l, hread, harranged'.wellFormed, hrestores, ?_⟩
  refine Image.write_arranged harranged' hrestores.upper ?_ ?_
  · rwa [Registers.get, Registers.get, hrestores.named]
  · rw [Image.writeMachine_congr hrestores.objects hrestores.named hrestores.ip hrestores.sp,
      hbytes]

/-- The theorem applies to a machine of two objects, one of which all registers hold. -/
theorem image_round_trip_pairOfObjects :
    (Machine.empty pairOfObjects).WellFormed ∧
    ∃ bytes m₁, Image.write (Machine.empty pairOfObjects) = .ok bytes m₁ ∧
      ∃ m₂, Image.write m₁ = .ok bytes m₂ := by
  have hm := wellFormed_empty_pairOfObjects
  have hcompiler : (Machine.empty pairOfObjects).registers.get .compilerMethod =
      (Machine.empty pairOfObjects).registers.get .nil := by
    decide +kernel
  obtain ⟨bytes, m₁, hwrite⟩ := Image.exists_write hm ⟨rfl, hcompiler⟩ (by decide) (by decide)
  exact ⟨hm, bytes, m₁, hwrite, (image_round_trip hm hwrite).2.2⟩

end Smalltalk
