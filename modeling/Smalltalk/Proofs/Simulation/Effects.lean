import Smalltalk.Proofs.Simulation.Access

/-!
# Effects that do not allocate

Everything a machine does without allocating comes down to looking at itself, changing a register or
one of its counters, and writing to an object. Each of these keeps the renaming, and so do the
operations on the operand stack, which are made of them.

## Main results

* `read_keeps`, `look_keeps`: looking
* `setRegister_keeps`, `setPtr_keeps`: changing
* `push_keeps`, `pop_keeps`, `Related.peek`: the operand stack
-/

namespace Smalltalk

open Memory Machine Layout

/-! ## What related machines have in common -/

namespace Related

variable {S : Setting} {ρ σ : Renaming} {n : Nat} {m m' : Machine} {v v' w w' : Value}

theorem corresponds (h : Related S ρ n m m') : Corresponds ρ m.memory m'.memory :=
  h.heaps.corresponds

theorem get (h : Related S ρ n m m') (root : Root) :
    Value.Renames ρ (m.registers.get root) (m'.registers.get root) :=
  h.registers.named root.index

theorem nil (h : Related S ρ n m m') : Value.Renames ρ m.nil m'.nil := h.get .nil

theorem boolean (h : Related S ρ n m m') (b : Bool) :
    Value.Renames ρ (m.boolean b) (m'.boolean b) := by
  cases b with
  | false => exact h.get .false
  | true => exact h.get .true

theorem eq_iff (h : Related S ρ n m m') (hv : Value.Renames ρ v v') (hw : Value.Renames ρ w w') :
    v = w ↔ v' = w' :=
  h.corresponds.eq_iff hv hw

theorem eq_nil_iff (h : Related S ρ n m m') (hv : Value.Renames ρ v v') :
    v = m.nil ↔ v' = m'.nil :=
  h.eq_iff hv h.nil

theorem classOf (h : Related S ρ n m m') (hv : Value.Renames ρ v v') :
    Agree σ (Value.Renames ρ) (m.classOf v) (m'.classOf v') := by
  cases hv with
  | small k => exact .ok (h.get .shortIntegerClass)
  | ref hab => exact h.corresponds.classOf (.ref hab)

end Related

/-- Effects may compare values, because both machines come to the same result. -/
theorem Sim.comparing {ε α : Type} [Failing ε] {S : Setting} {ρ : Renaming} {n : Nat}
    {x x' : EStateM ε Machine α} {Q : Renaming → Nat → α → α → Prop} {v v' w w' : Value}
    (hv : Value.Renames ρ v v') (hw : Value.Renames ρ w w')
    (h : (v = w ↔ v' = w') → Sim S ρ n x x' Q) : Sim S ρ n x x' Q :=
  fun m m' hm => h (hm.eq_iff hv hw) m m' hm

/-! ## Checks -/

section Checks

variable {ρ : Renaming} {v v' : Value}

theorem expectSmall_agree (operation : String) (hv : Value.Renames ρ v v') :
    Agree ρ Eq (expectSmall operation v) (expectSmall operation v') := by
  cases hv with
  | small n => exact .ok rfl
  | ref hab => exact .fault (.expectedSmallInt operation (.ref hab))

theorem expectIndex_agree (operation : String) (hv : Value.Renames ρ v v') :
    Agree ρ Eq (expectIndex operation v) (expectIndex operation v') := by
  refine (expectSmall_agree operation hv).eq_bind fun n => ?_
  refine .ite Iff.rfl (fun _ => .fault (.same trivial)) fun _ => .pure rfl

/-- What is made of an integer is an integer. -/
theorem ofInt?_cases (k : Int) : Value.ofInt? k = none ∨ ∃ n, Value.ofInt? k = some (.small n) := by
  unfold Value.ofInt?
  cases SmallInt.ofInt? k with
  | none => exact .inl rfl
  | some n => exact .inr ⟨n, rfl⟩

theorem smallValue_agree (operation : String) (k : Nat) :
    Agree ρ (Value.Renames ρ) (smallValue operation k) (smallValue operation k) := by
  rw [smallValue, Value.ofNat?]
  rcases ofInt?_cases k with h | ⟨n, h⟩
  · rw [h]
    exact .fault (.same trivial)
  · rw [h]
    exact .ok (.small n)

theorem Related.indexField {S : Setting} {n : Nat} {m m' : Machine} (h : Related S ρ n m m')
    (hv : Value.Renames ρ v v') (i : Nat) : Agree ρ Eq (m.indexField v i) (m'.indexField v' i) :=
  (h.corresponds.getPtr hv i).bind fun _ _ hw => expectIndex_agree "field" hw

end Checks

/-! ## Looking -/

section Looking

variable {S : Setting} {ρ : Renaming} {n : Nat} {α : Type} {V : α → α → Prop}

theorem look_keeps {f f' : Machine → α} (h : ∀ m m', Related S ρ n m m' → V (f m) (f' m')) :
    Keeps S ρ n (look f) (look f') V :=
  fun m m' hm => .ok hm ⟨rfl, rfl, h m m' hm⟩

theorem read_keeps {f f' : Machine → Except Fault α}
    (h : ∀ m m', Related S ρ n m m' → Agree ρ V (f m) (f' m')) :
    Keeps S ρ n (read f) (read f') V := by
  intro m m' hm
  obtain ⟨a, a', hx, hx', ha⟩ | ⟨e, e', hx, hx', he⟩ := (h m m' hm).cases
  · simp only [Machine.read, hx, hx']
    exact .ok hm ⟨rfl, rfl, ha⟩
  · simp only [Machine.read, hx, hx']
    exact .error hm he

theorem check_keeps {a a' : Except Fault α} (h : Agree ρ V a a') :
    Keeps S ρ n (check a) (check a') V :=
  read_keeps fun _ _ _ => h

theorem register_keeps (root : Root) :
    Keeps S ρ n (register root) (register root) (Value.Renames ρ) :=
  look_keeps fun _ _ hm => hm.get root

theorem nil_keeps : Keeps S ρ n (look Machine.nil) (look Machine.nil) (Value.Renames ρ) :=
  look_keeps fun _ _ hm => hm.nil

theorem sp_keeps : Keeps S ρ n (look (·.sp)) (look (·.sp)) Eq :=
  look_keeps fun _ _ hm => hm.sp

theorem ip_keeps : Keeps S ρ n (look (·.ip)) (look (·.ip)) Eq :=
  look_keeps fun _ _ hm => hm.ip

theorem getPtr_keeps {v v' : Value} (hv : Value.Renames ρ v v') (i : Nat) :
    Keeps S ρ n (Machine.getPtr v i) (Machine.getPtr v' i) (Value.Renames ρ) :=
  read_keeps fun _ _ hm => hm.corresponds.getPtr hv i

theorem held_keeps {place : Nat} (h : place < n) :
    Keeps S ρ n (held place) (held place) (Value.Renames ρ) := by
  refine look_keeps fun m m' hm => ?_
  have hlt : place < m.registers.scratch.toList.length := by
    rw [Array.length_toList, hm.held]
    exact h
  have hlt' := hm.registers.scratch.length_eq ▸ hlt
  have hget := (List.forall₂_iff_get.1 hm.registers.scratch).2 place hlt hlt'
  simpa [Array.getD_eq_getD_getElem?, Array.getElem?_eq_getElem, Array.length_toList ▸ hlt,
    Array.length_toList ▸ hlt'] using hget

end Looking

/-! ## Changing -/

section Changing

variable {S : Setting} {ρ : Renaming} {n : Nat} {m m' : Machine} {v v' w w' : Value}

theorem modify_keeps {g g' : Machine → Machine}
    (h : ∀ m m', Related S ρ n m m' → Related S ρ n (g m) (g' m')) :
    Keeps S ρ n (modify g : Exec PUnit) (modify g') Eq :=
  fun m m' hm => .ok (h m m' hm) ⟨rfl, rfl, rfl⟩

theorem setIp_keeps (k : Nat) :
    Keeps S ρ n (modify fun m => { m with ip := k } : Exec PUnit)
      (modify fun m => { m with ip := k }) Eq :=
  modify_keeps fun _ _ hm => { hm with ip := rfl, twin := fun ht => by rw [hm.twin ht] }

theorem setSp_keeps (k : Nat) :
    Keeps S ρ n (modify fun m => { m with sp := k } : Exec PUnit)
      (modify fun m => { m with sp := k }) Eq :=
  modify_keeps fun _ _ hm => { hm with sp := rfl, twin := fun ht => by rw [hm.twin ht] }

theorem incSp_keeps :
    Keeps S ρ n (modify fun m => { m with sp := m.sp + 1 } : Exec PUnit)
      (modify fun m => { m with sp := m.sp + 1 }) Eq :=
  modify_keeps fun _ _ hm =>
    { hm with sp := congrArg (· + 1) hm.sp, twin := fun ht => by rw [hm.twin ht] }

theorem decSp_keeps :
    Keeps S ρ n (modify fun m => { m with sp := m.sp - 1 } : Exec PUnit)
      (modify fun m => { m with sp := m.sp - 1 }) Eq :=
  modify_keeps fun _ _ hm =>
    { hm with sp := congrArg (· - 1) hm.sp, twin := fun ht => by rw [hm.twin ht] }

theorem setRunning_keeps (b : Bool) :
    Keeps S ρ n (modify fun m => { m with running := b } : Exec PUnit)
      (modify fun m => { m with running := b }) Eq :=
  modify_keeps fun _ _ hm => { hm with running := rfl, twin := fun ht => by rw [hm.twin ht] }

theorem setTracing_keeps (b : Bool) :
    Keeps S ρ n (modify fun m => { m with tracing := b } : Exec PUnit)
      (modify fun m => { m with tracing := b }) Eq :=
  modify_keeps fun _ _ hm => { hm with twin := fun ht => by rw [hm.twin ht] }

/-- What is kept of events is the machine's own affair. -/
theorem Related.withLog (hm : Related S ρ n m m') {log log' : Log} (hlog : S.twins → log = log') :
    Related S ρ n { m with log } { m' with log := log' } :=
  { hm with twin := fun ht => by rw [hm.twin ht, hlog ht] }

theorem report_keeps {event event' : Event} (h : S.twins → event = event') :
    Keeps S ρ n (report event) (report event') Eq := by
  refine modify_keeps fun m m' hm => ?_
  -- whether the event is kept makes no difference to what is related
  have hsame : S.twins → m.log = m'.log := fun ht => by rw [hm.twin ht]
  have hl : ∀ e : Event, (if m.log.keeps e.level then { m with log := m.log.add e } else m) =
      { m with log := if m.log.keeps e.level then m.log.add e else m.log } := by
    intro e
    split <;> rfl
  have hr : ∀ e : Event, (if m'.log.keeps e.level then { m' with log := m'.log.add e } else m') =
      { m' with log := if m'.log.keeps e.level then m'.log.add e else m'.log } := by
    intro e
    split <;> rfl
  rw [hl, hr]
  exact hm.withLog fun ht => by rw [hsame ht, h ht]

theorem write_keeps (bytes : List UInt8) : Keeps S ρ n (write bytes) (write bytes) Eq := by
  refine modify_keeps fun m m' hm => ?_
  obtain ⟨before, hl, hr⟩ := hm.written
  refine { hm with
    written := ⟨before ++ bytes, ?_, ?_⟩
    twin := fun ht => by rw [hm.twin ht] }
  · rw [List.foldl_append, ← hl]
  · rw [List.foldl_append, ← hr]

theorem takeLine_keeps : Keeps S ρ n takeLine takeLine Eq := by
  intro m m' hm
  simp only [takeLine, hm.input]
  exact .ok { hm with input := rfl, twin := fun ht => by rw [hm.twin ht] } ⟨rfl, rfl, rfl⟩

theorem Registers.Renames.set {r r' : Registers} (h : r.Renames ρ r') (root : Root)
    (hv : Value.Renames ρ v v') : (r.set root v).Renames ρ (r'.set root v') := by
  refine ⟨fun i => ?_, h.scratch⟩
  simp only [Registers.set, Fin.getElem_fin, Vector.getElem_set]
  split
  · exact hv
  · exact h.named i

theorem setRegister_keeps (root : Root) (hv : Value.Renames ρ v v') :
    Keeps S ρ n (setRegister root v) (setRegister root v') Eq :=
  modify_keeps fun _ _ hm =>
    { hm with
      registers := hm.registers.set root hv
      twin := fun ht => by rw [hm.twin ht, hv.eq_of_fixed (hm.heaps.fixed ht)] }

theorem Related.withMemory (hm : Related S ρ n m m') {h h' : Memory} (hh : Heaps S ρ h h') :
    Related S ρ n { m with memory := h } { m' with memory := h' } :=
  { hm with heaps := hh, twin := fun ht => by rw [hm.twin ht] }

theorem onMemory_apply {α : Type} (act : Store α) (m : Machine) :
    onMemory act m =
      match act m.memory with
      | .ok a memory => .ok a { m with memory }
      | .error e memory => .error e { m with memory } := by
  cases m
  rfl

theorem onMemory_keeps {act act' : Store Unit}
    (h : ∀ m m', Heaps S ρ m m' → StoresAlike S ρ (act m) (act' m')) :
    Keeps S ρ n (onMemory act) (onMemory act') Eq := by
  intro m m' hm
  have hact := h _ _ hm.heaps
  rw [onMemory_apply, onMemory_apply]
  generalize act m.memory = r at hact
  generalize act' m'.memory = r' at hact
  cases hact with
  | ok hh => exact .ok (hm.withMemory hh) ⟨rfl, rfl, rfl⟩
  | error hh hf => exact .error (hm.withMemory hh) (.fault hf)

theorem setPtr_keeps (hv : Value.Renames ρ v v') (i : Nat) (hw : Value.Renames ρ w w') :
    Keeps S ρ n (Machine.setPtr v i w) (Machine.setPtr v' i w') Eq :=
  onMemory_keeps fun _ _ hh => hh.setPtr hv i hw

end Changing

/-! ## Held values -/

section Holding

variable {S : Setting} {ρ : Renaming} {n : Nat} {m m' : Machine}

theorem Related.withScratch (hm : Related S ρ n m m') {k : Nat} {scratch scratch' : Array Value}
    (h : List.Forall₂ (Value.Renames ρ) scratch.toList scratch'.toList) (hk : scratch.size = k) :
    Related S ρ k { m with registers := { m.registers with scratch } }
      { m' with registers := { m'.registers with scratch := scratch' } } :=
  { hm with
    registers := ⟨hm.registers.named, h⟩
    held := hk
    twin := fun ht => by
      have hsame : scratch = scratch' := by
        refine Array.toList_inj.1 (List.forall₂_eq_eq_eq ▸ h.imp fun v w hvw => ?_)
        exact hvw.eq_of_fixed (hm.heaps.fixed ht)
      rw [hm.twin ht, hsame] }

/-- Holding values. -/
theorem hold_sim {values values' : Array Value}
    (h : List.Forall₂ (Value.Renames ρ) values.toList values'.toList) :
    Sim S ρ n (hold values) (hold values') fun ρ₁ n₁ b b' =>
      ρ₁ = ρ ∧ n₁ = n + values.size ∧ b = n ∧ b' = n := by
  intro m m' hm
  have hsize' : m'.registers.scratch.size = n := by
    have hlen := hm.registers.scratch.length_eq
    rw [Array.length_toList, Array.length_toList, hm.held] at hlen
    exact hlen.symm
  refine .ok (hm.withScratch ?_ ?_) ⟨rfl, rfl, hm.held, hsize'⟩
  · rw [Array.toList_append, Array.toList_append]
    exact List.rel_append hm.registers.scratch h
  · rw [Array.size_append, hm.held]

/-- Taking held values off again. -/
theorem releaseAll_sim {base : Nat} (hbase : base ≤ n) :
    Sim S ρ n (releaseAll base) (releaseAll base) fun ρ₁ n₁ a a' =>
      ρ₁ = ρ ∧ n₁ = base ∧ a.size = n - base ∧
        List.Forall₂ (Value.Renames ρ) a.toList a'.toList := by
  intro m m' hm
  have hall := hm.registers.scratch
  refine .ok (hm.withScratch ?_ ?_) ⟨rfl, rfl, ?_, ?_⟩
  · rw [Array.toList_extract, Array.toList_extract]
    exact List.forall₂_take _ (List.forall₂_drop _ hall)
  · rw [Array.size_extract, hm.held]
    omega
  · rw [Array.size_extract, hm.held, Nat.min_self]
  · rw [Array.toList_extract, Array.toList_extract, ← Array.length_toList, ← Array.length_toList,
      hall.length_eq]
    exact List.forall₂_take _ (List.forall₂_drop _ hall)

/-- **Holding a value.** Whatever the effect does, the value is the same object afterwards. -/
theorem holding_moves {α : Type} {V : Renaming → α → α → Prop} {v v' : Value}
    (hv : Value.Renames ρ v v') {act act' : Nat → Exec α}
    (h : Moves S ρ (n + 1) (act n) (act' n) V) :
    Moves S ρ n (holding v act) (holding v' act') fun ρ₁ p p' =>
      V ρ₁ p.1 p'.1 ∧ Value.Renames ρ₁ p.2 p'.2 := by
  unfold holding
  refine (hold_sim (List.Forall₂.cons hv .nil)).bind ?_
  rintro _ _ _ _ ⟨rfl, rfl, rfl, rfl⟩
  refine Moves.bind h fun ρ₁ a a' ha => ?_
  refine (held_keeps (Nat.lt_succ_self _)).bind fun w w' hw => ?_
  refine (Sim.discard (releaseAll_sim (Nat.le_succ _))).bind ?_
  rintro _ _ _ _ ⟨_, _, rfl, rfl, -⟩
  exact Sim.pure ⟨rfl, ha, hw⟩

theorem holding₂_moves {α : Type} {V : Renaming → α → α → Prop} {v₁ v₁' v₂ v₂' : Value}
    (h₁ : Value.Renames ρ v₁ v₁') (h₂ : Value.Renames ρ v₂ v₂') {act act' : Nat → Exec α}
    (h : Moves S ρ (n + 2) (act n) (act' n) V) :
    Moves S ρ n (holding₂ v₁ v₂ act) (holding₂ v₁' v₂' act') fun ρ₁ p p' =>
      V ρ₁ p.1 p'.1 ∧ Value.Renames ρ₁ p.2.1 p'.2.1 ∧ Value.Renames ρ₁ p.2.2 p'.2.2 := by
  unfold holding₂
  refine Moves.bind (holding_moves h₁ (holding_moves h₂ h)) ?_
  rintro ρ₁ ⟨⟨a, w₂⟩, w₁⟩ ⟨⟨a', w₂'⟩, w₁'⟩ ⟨⟨ha, hw₂⟩, hw₁⟩
  exact Moves.pure ⟨ha, hw₁, hw₂⟩

theorem holding₃_moves {α : Type} {V : Renaming → α → α → Prop} {v₁ v₁' v₂ v₂' v₃ v₃' : Value}
    (h₁ : Value.Renames ρ v₁ v₁') (h₂ : Value.Renames ρ v₂ v₂') (h₃ : Value.Renames ρ v₃ v₃')
    {act act' : Nat → Exec α} (h : Moves S ρ (n + 3) (act n) (act' n) V) :
    Moves S ρ n (holding₃ v₁ v₂ v₃ act) (holding₃ v₁' v₂' v₃' act') fun ρ₁ p p' =>
      V ρ₁ p.1 p'.1 ∧ Value.Renames ρ₁ p.2.1 p'.2.1 ∧ Value.Renames ρ₁ p.2.2.1 p'.2.2.1 ∧
        Value.Renames ρ₁ p.2.2.2 p'.2.2.2 := by
  unfold holding₃
  refine Moves.bind (holding_moves h₁ (holding₂_moves h₂ h₃ h)) ?_
  rintro ρ₁ ⟨⟨a, w₂, w₃⟩, w₁⟩ ⟨⟨a', w₂', w₃'⟩, w₁'⟩ ⟨⟨ha, hw₂, hw₃⟩, hw₁⟩
  exact Moves.pure ⟨ha, hw₁, hw₂, hw₃⟩

end Holding

/-! ## The operand stack -/

section Stack

variable {S : Setting} {ρ : Renaming} {n : Nat} {v v' : Value}

theorem storeSp_keeps (operation : String) :
    Keeps S ρ n (storeSp operation) (storeSp operation) Eq := by
  unfold storeSp
  refine Keeps.bind (V := Value.Renames ρ) (read_keeps fun m m' hm => ?_) fun sp sp' hsp => ?_
  · rw [hm.sp]
    exact smallValue_agree operation m'.sp
  refine (register_keeps .activeContext).bind fun context context' hcontext => ?_
  exact setPtr_keeps hcontext Context.sp hsp

theorem push_keeps (hv : Value.Renames ρ v v') : Keeps S ρ n (push v) (push v') Eq := by
  unfold push
  refine sp_keeps.eq_bind fun sp => ?_
  refine (register_keeps .stack).bind fun stack stack' hstack => ?_
  refine (setPtr_keeps hstack sp hv).eq_bind fun _ => ?_
  refine incSp_keeps.eq_bind fun _ => ?_
  exact storeSp_keeps "push"

theorem pop_keeps : Keeps S ρ n pop pop (Value.Renames ρ) := by
  unfold pop
  refine sp_keeps.eq_bind fun sp => ?_
  refine .guard Iff.rfl (fun _ => .same trivial) fun _ => ?_
  refine decSp_keeps.eq_bind fun _ => ?_
  refine (register_keeps .stack).bind fun stack stack' hstack => ?_
  refine (getPtr_keeps hstack (sp - 1)).bind fun value value' hvalue => ?_
  refine nil_keeps.bind fun nil nil' hnil => ?_
  refine (setPtr_keeps hstack (sp - 1) hnil).eq_bind fun _ => ?_
  refine (storeSp_keeps "pop").eq_bind fun _ => ?_
  exact Keeps.pure hvalue

theorem Related.peek {m m' : Machine} (hm : Related S ρ n m m') (depth : Nat) :
    Agree ρ (Value.Renames ρ) (m.peek depth) (m'.peek depth) := by
  unfold Machine.peek
  rw [hm.sp]
  refine .ite Iff.rfl (fun _ => .fault (.same trivial)) fun _ => ?_
  exact hm.corresponds.getPtr (hm.get .stack) _

end Stack

end Smalltalk
