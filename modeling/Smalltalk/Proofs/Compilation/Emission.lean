import Smalltalk.Proofs.Compilation.Faults
import Smalltalk.Proofs.Compilation.Layout
import Smalltalk.Proofs.Derivation

/-!
# The emitter produces the code of the tree

Emitting a part of a tree only adds: instructions behind those that are there, literals behind those
that are there. The one exception is a block, whose first two instructions are completed when its
body is there; but they belong to the block, so what was there before the block stays. So the code
of a part stays as it is once the part is done, and it can be described in terms of the finished
draft: `Lays x c P L` says that the effect `x` has the cost `c` and an answer that satisfies `P`,
and that a draft that holds what `x` has emitted satisfies `L` at the positions where `x` started
and ended. The cost counts the slots that are given to variables and the operands on the stack.

What a `Lays` says of a sequence comes from its parts. Only the case of a block looks at emissions
themselves, because of the two instructions, and because the count of operands begins anew with the
arguments of the block and later goes on where it was left.

The table of literals never has more than 65536 entries, which is why the number of an entry that is
used again fits in an operand.

## Main results

* `Names.truncated_of_resolve`: names are resolved to the places they stand for
* `Emission.laysOut_expr`, `Emission.laysOut_blockBody`: the code of expressions and of blocks
* `Emission.laysOut_method`: the code of a method
-/

namespace Smalltalk

/-! ## Names -/

/-- The place that a variable is found at. -/
def Variable.place : Variable → Place
  | .receiver => .receiver
  | .nil => .nil
  | .true => .true
  | .false => .false
  | .temp slot => .temp slot.toNat
  | .arg index => .arg index.toNat
  | .instanceVariable index => .instanceVariable index.toNat
  | .global name => .global name

/-- The slots of a scope as numbers. -/
def Scope.slots (scope : Scope) : List (String × Nat) := scope.map fun p => (p.1, p.2.toNat)

/-- The scoping that the emitter keeps. -/
def Names.scoping (names : Names) : Scoping :=
  ⟨names.instanceVariables, names.args, names.scopes.map Scope.slots⟩

theorem Scope.lookup_slots (scope : Scope) (name : String) :
    scope.slots.lookup name = (scope.lookup name).map UInt16.toNat := by
  induction scope with
  | nil => rfl
  | cons p scope ih =>
    obtain ⟨other, slot⟩ := p
    change List.lookup name ((other, slot.toNat) :: Scope.slots scope) = _
    rw [List.lookup_cons, List.lookup_cons, ih]
    cases name == other <;> rfl

theorem Names.slot_scoping (names : Names) (name : String) :
    names.scoping.scopes.findSome? (·.lookup name) = (names.slot? name).map UInt16.toNat := by
  rw [Names.scoping, Names.slot?]
  dsimp only
  induction names.scopes with
  | nil => rfl
  | cons scope scopes ih =>
    rw [List.map_cons, List.findSome?_cons, List.findSome?_cons, Scope.lookup_slots, ih]
    cases scope.lookup name <;> rfl

theorem lastIdxOf?_eq (name : String) (l : List String) :
    lastIdxOf? name l = (l.reverse.idxOf? name).map (l.length - 1 - ·) := by
  induction l with
  | nil => rfl
  | cons first more ih =>
    rw [lastIdxOf?, ih, List.reverse_cons]
    cases hmore : more.reverse.idxOf? name with
    | some i =>
      have hi : i < more.length := by
        have hlt := (List.idxOf?_eq_some_iff.1 hmore).1
        rwa [List.length_reverse] at hlt
      have happ : (more.reverse ++ [first]).idxOf? name = some i := by
        rw [List.idxOf?, List.findIdx?_append]
        rw [List.idxOf?] at hmore
        rw [hmore]
        rfl
      rw [happ]
      simp only [Option.map_some, List.length_cons]
      congr 1
      omega
    | none =>
      have happ : (more.reverse ++ [first]).idxOf? name =
          if first = name then some more.length else none := by
        rw [List.idxOf?, List.findIdx?_append]
        rw [List.idxOf?] at hmore
        rw [hmore]
        by_cases h : first = name <;> simp [h, List.findIdx?_cons]
      rw [happ]
      by_cases h : first = name <;> simp [h]

theorem toNat_ofNat_of_lt {i : Nat} (h : i < 65536) : (UInt16.ofNat i).toNat = i := by
  rw [UInt16.toNat_ofNat', Nat.mod_eq_of_lt h]

/-- **Names are resolved to the places they stand for**, but for the positions of arguments. -/
theorem Names.truncated_of_resolve {names : Names} {name : String} {line : Nat} {v : Variable}
    (h : names.resolve name line = .ok v) : v.place = (names.scoping.place name).truncated := by
  have hlast : lastIdxOf? name names.scoping.instanceVariables = names.instanceVariable? name :=
    lastIdxOf?_eq name names.instanceVariables
  have hpos : names.scoping.args.idxOf? name = names.args.idxOf? name := rfl
  unfold Names.resolve at h
  unfold Scoping.place
  rw [names.slot_scoping, hlast, hpos]
  repeat' split at h
  all_goals cases h
  all_goals simp_all [Variable.place, Place.truncated, Nat.mod_eq_of_lt, -List.idxOf?_eq_none_iff]

/-! ## Emissions and drafts -/

theorem LiteralEntry.eq_of_sameAs {x y : LiteralEntry} (h : x.sameAs y) : x = y := by
  cases x <;> cases y <;> simp_all [LiteralEntry.sameAs]

/-- One emission continues another: what was there is there still. -/
structure Emission.Extends (e e' : Emission) : Prop where
  size_le : e.code.size ≤ e'.code.size
  code : ∀ i < e.code.size, e'.code[i]? = e.code[i]?
  literals : ∀ (i : Nat) x, e.literals[i]? = some x → e'.literals[i]? = some x

/-- The draft has the code that was emitted between two points, and the literals up to the
second. -/
structure Draft.Holds (d : Draft) (e e' : Emission) : Prop where
  code : ∀ i, e.code.size ≤ i → i < e'.code.size → d.code[i]? = e'.code[i]?
  literals : ∀ (i : Nat) x, e'.literals[i]? = some x → d.literals[i]? = some x

theorem Emission.Extends.refl (e : Emission) : e.Extends e :=
  ⟨Nat.le_refl _, fun _ _ => rfl, fun _ _ h => h⟩

theorem Emission.Extends.trans {e₁ e₂ e₃ : Emission} (h : e₁.Extends e₂) (h' : e₂.Extends e₃) :
    e₁.Extends e₃ := by
  refine ⟨Nat.le_trans h.size_le h'.size_le, fun i hi => ?_, fun i x hx => h'.literals i x ?_⟩
  · rw [h'.code i (by have := h.size_le; omega), h.code i hi]
  · exact h.literals i x hx

theorem Draft.Holds.left {d : Draft} {e₁ e₂ e₃ : Emission} (h : d.Holds e₁ e₃)
    (hext : e₂.Extends e₃) : d.Holds e₁ e₂ := by
  refine ⟨fun i hi hlt => ?_, fun i x hx => h.literals i x (hext.literals i x hx)⟩
  rw [h.code i hi (by have := hext.size_le; omega), hext.code i hlt]

theorem Draft.Holds.right {d : Draft} {e₁ e₂ e₃ : Emission} (h : d.Holds e₁ e₃)
    (hext : e₁.Extends e₂) : d.Holds e₂ e₃ :=
  ⟨fun i hi hlt => h.code i (Nat.le_trans hext.size_le hi) hlt, h.literals⟩

namespace Emission

/-- What an effect costs: slots for variables, operands that it leaves, and operands at most on the
way. -/
structure Cost where
  slots : Nat
  rise : Int
  peak : Int

namespace Cost

def zero : Cost := ⟨0, 0, 0⟩

/-- One instruction. -/
def one (effect : Int) : Cost := ⟨0, effect, effect⟩

def andThen (c c' : Cost) : Cost :=
  ⟨c.slots + c'.slots, c.rise + c'.rise, max c.peak (c.rise + c'.peak)⟩

/-- The operands that are there at the beginning count too, so no peak is below zero. -/
def Same (c c' : Cost) : Prop :=
  c.slots = c'.slots ∧ c.rise = c'.rise ∧ max 0 c.peak = max 0 c'.peak

theorem Same.refl (c : Cost) : c.Same c := ⟨rfl, rfl, rfl⟩

end Cost

/-- Literals have numbers that fit in an operand, and the operands have been counted. -/
structure Sound (e : Emission) : Prop where
  literals : e.literals.size ≤ 65536
  depth : e.depth ≤ e.maxDepth

/-- One emission continues another at a cost. -/
structure Adds (c : Cost) (e e' : Emission) : Prop where
  ext : e.Extends e'
  sound : e'.Sound
  temps : e'.temps = e.temps + c.slots
  depth : e'.depth = e.depth + c.rise
  maxDepth : e'.maxDepth = max e.maxDepth (e.depth + c.peak)

theorem Adds.trans {c c' : Cost} {e₁ e₂ e₃ : Emission} (h : Adds c e₁ e₂) (h' : Adds c' e₂ e₃) :
    Adds (c.andThen c') e₁ e₃ := by
  obtain ⟨hext, -, htemps, hdepth, hmax⟩ := h
  obtain ⟨hext', hsound, htemps', hdepth', hmax'⟩ := h'
  refine ⟨hext.trans hext', hsound, ?_, ?_, ?_⟩ <;> simp only [Cost.andThen] <;> omega

theorem Adds.mono {c c' : Cost} {e e' : Emission} (h : Adds c e e') (hc : c.Same c')
    (he : e.Sound) : Adds c' e e' := by
  obtain ⟨hext, hsound, htemps, hdepth, hmax⟩ := h
  obtain ⟨hslots, hrise, hpeak⟩ := hc
  have hle := he.depth
  exact ⟨hext, hsound, by omega, by omega, by omega⟩

/-- The effect has a cost and an answer that satisfies `P`, and `L` holds of a draft with what it
emits, of the first slot that was not taken, of the positions where it started and ended, and of its
answer. -/
def Lays {α : Type} (x : Emit α) (c : Cost) (P : α → Prop)
    (L : Draft → (next i k : Nat) → α → Prop) : Prop :=
  ∀ e r e', x.run e = .ok (r, e') → e.Sound →
    Adds c e e' ∧ P r ∧ ∀ d : Draft, d.Holds e e' → L d e.temps e.code.size e'.code.size r

/-- The effect emits code that meets intents, which depend on the first slot that is not taken. -/
def LaysOut (x : Emit Unit) (c : Cost) (W : Nat → List Intent) : Prop :=
  Lays x c (fun _ => True) fun d next i k _ => d.Meets (W next) i k

/-- A sequence of effects succeeds if both do. -/
theorem run_bind_eq_ok {α β : Type} {x : Emit α} {f : α → Emit β} {e e' : Emission} {r : β} :
    (x >>= f).run e = .ok (r, e') ↔
      ∃ a e₁, x.run e = .ok (a, e₁) ∧ (f a).run e₁ = .ok (r, e') := by
  rw [StateT.run_bind]
  constructor
  · intro h
    cases hx : x.run e with
    | error err =>
      rw [hx] at h
      cases h
    | ok p =>
      rw [hx] at h
      exact ⟨p.1, p.2, rfl, h⟩
  · rintro ⟨a, e₁, hx, hf⟩
    rw [hx]
    exact hf

theorem run_discard_eq_ok {α : Type} {x : Emit α} {e e' : Emission} {r : PUnit}
    (h : (discard x).run e = .ok (r, e')) : ∃ a, x.run e = .ok (a, e') := by
  have heq : discard x = x >>= fun _ => Pure.pure PUnit.unit := by
    rw [← map_eq_pure_bind]
    rfl
  rw [heq] at h
  obtain ⟨a, e₁, hrun, h⟩ := run_bind_eq_ok.1 h
  cases h
  exact ⟨a, hrun⟩

section Rules

variable {α β : Type} {x : Emit α} {f : α → Emit β} {c c' : Cost} {P P' : α → Prop} {Q : β → Prop}
  {L L' : Draft → Nat → Nat → Nat → α → Prop} {M : Draft → Nat → Nat → Nat → β → Prop}
  {R : Draft → α → Prop} {N : α → Draft → Nat → Nat → Nat → β → Prop}

theorem Lays.bind (hx : Lays x c P L) (hf : ∀ a, P a → Lays (f a) c' Q (N a)) :
    Lays (x >>= f) (c.andThen c') Q fun d next i k r =>
      ∃ a j, L d next i j a ∧ N a d (next + c.slots) j k r := by
  intro e r e' h hsound
  obtain ⟨a, e₁, hrun, hrun'⟩ := run_bind_eq_ok.1 h
  obtain ⟨hadds, hP, hl⟩ := hx e a e₁ hrun hsound
  obtain ⟨hadds', hQ, hm⟩ := hf a hP e₁ r e' hrun' hadds.sound
  refine ⟨hadds.trans hadds', hQ, fun d hd => ⟨a, e₁.code.size, hl d (hd.left hadds'.ext), ?_⟩⟩
  rw [← hadds.temps]
  exact hm d (hd.right hadds.ext)

theorem Lays.mono (hx : Lays x c P L) (hc : c.Same c') (hP : ∀ a, P a → P' a)
    (h : ∀ d next i k a, L d next i k a → L' d next i k a) : Lays x c' P' L' := by
  intro e r e' hrun hsound
  obtain ⟨hadds, hr, hl⟩ := hx e r e' hrun hsound
  exact ⟨hadds.mono hc hsound, hP r hr, fun d hd => h _ _ _ _ _ (hl d hd)⟩

/-- An effect that emits nothing, whose answer is then used. -/
theorem Lays.using (hx : Lays x .zero P fun d _ i k a => i = k ∧ R d a)
    (hf : ∀ a, P a → Lays (f a) c Q fun d next i k r => R d a → M d next i k r) :
    Lays (x >>= f) c Q M := by
  refine (hx.bind hf).mono ⟨?_, ?_, ?_⟩ (fun _ => id) ?_
  · exact Nat.zero_add _
  · exact Int.zero_add _
  · simp only [Cost.andThen, Cost.zero]
    omega
  · rintro d next i k r ⟨a, _, ⟨rfl, ha⟩, hm⟩
    exact hm ha

theorem Lays.first (hx : Lays x .zero P fun _ _ i k _ => i = k)
    (hf : ∀ a, P a → Lays (f a) c Q M) : Lays (x >>= f) c Q M :=
  (hx.mono (.refl _) (fun _ => id) fun _ _ _ _ _ h => ⟨h, trivial⟩).using (R := fun _ _ => True)
    fun a ha => (hf a ha).mono (.refl _) (fun _ => id) fun _ _ _ _ _ h _ => h

/-- An effect that changes nothing but the line. -/
theorem Lays.of_same (h : ∀ e r e', x.run e = .ok (r, e') → (∃ line, e' = { e with line }) ∧ P r) :
    Lays x .zero P fun _ _ i k _ => i = k := by
  intro e r e' hrun hsound
  obtain ⟨⟨line, rfl⟩, hr⟩ := h e r e' hrun
  refine ⟨⟨⟨Nat.le_refl _, fun _ _ => rfl, fun _ _ hx => hx⟩, ⟨hsound.literals, hsound.depth⟩, rfl,
    ?_, ?_⟩, hr, fun _ _ => rfl⟩
  · exact (Int.add_zero _).symm
  · have hle := hsound.depth
    simp only [Cost.zero]
    omega

theorem Lays.pure {a : α} (hP : P a) (hR : ∀ d, R d a) :
    Lays (Pure.pure a : Emit α) .zero P fun d _ i k r => i = k ∧ R d r := by
  have hsame : Lays (Pure.pure a : Emit α) .zero (· = a) fun _ _ i k _ => i = k := by
    refine .of_same fun e r e' h => ?_
    cases h
    exact ⟨⟨_, rfl⟩, rfl⟩
  intro e r e' h hsound
  obtain ⟨hadds, rfl, hik⟩ := hsame e r e' h hsound
  exact ⟨hadds, hP, fun d hd => ⟨hik d hd, hR d⟩⟩

theorem Lays.fail (line : Nat) (cause : SemanticCause) :
    Lays (Emission.fail line cause : Emit α) c P L := by
  intro e r e' h
  cases h

theorem Lays.lift (y : Except CompileError α) :
    Lays (liftM y : Emit α) .zero (y = .ok ·) fun _ _ i k _ => i = k := by
  refine .of_same fun e r e' h => ?_
  cases y with
  | error err => cases h
  | ok a =>
    cases h
    exact ⟨⟨_, rfl⟩, rfl⟩

theorem Lays.setLine (line : Nat) :
    Lays (modify ({ · with line }) : Emit PUnit) .zero (fun _ => True) fun _ _ i k _ => i = k := by
  refine .of_same fun e r e' h => ?_
  cases h
  exact ⟨⟨_, rfl⟩, trivial⟩

variable {y z : Emit Unit} {W W' : Nat → List Intent}

theorem LaysOut.nil : LaysOut (Pure.pure ()) .zero fun _ => [] :=
  (Lays.pure (P := fun _ => True) (R := fun _ _ => True) trivial fun _ => trivial).mono (.refl _)
    (fun _ => id) fun _ _ _ _ _ h => Draft.meets_nil.2 h.1.symm

theorem LaysOut.append (hy : LaysOut y c W) (hz : LaysOut z c' W') :
    LaysOut (y >>= fun _ => z) (c.andThen c') fun next => W next ++ W' (next + c.slots) := by
  refine (Lays.bind hy fun _ _ => hz).mono (.refl _) (fun _ => id) ?_
  rintro d next i k _ ⟨_, j, hw, hw'⟩
  exact hw.append hw'

theorem LaysOut.mono (hy : LaysOut y c W) (hc : c.Same c') (hW : ∀ next, W next = W' next) :
    LaysOut y c' W' :=
  Lays.mono hy hc (fun _ => id) fun _ next _ _ _ h => hW next ▸ h

end Rules

/-! ## Instructions and literals -/

theorem run_emit {ins : Instruction} {e e' : Emission} {r : Nat}
    (h : (emit ins).run e = .ok (r, e')) :
    r = e.code.size ∧ e' = { e with
      code := e.code.push ins
      depth := e.depth + ins.stackEffect
      maxDepth := max e.maxDepth (e.depth + ins.stackEffect) } := by
  obtain ⟨e₁, e₂, hget, h⟩ := run_bind_eq_ok.1 h
  cases hget
  dsimp only at h
  split at h
  · obtain ⟨e₃, e₄, -, h⟩ := run_bind_eq_ok.1 h
    cases h
  · obtain ⟨_, e₃, hmodify, h⟩ := run_bind_eq_ok.1 h
    cases hmodify
    cases h
    exact ⟨rfl, rfl⟩

theorem lays_emit (ins : Instruction) :
    Lays (discard (emit ins)) (.one ins.stackEffect) (fun _ => True) fun d _ i k _ =>
      d.code[i]? = some ins ∧ k = i + 1 := by
  intro e r e' h hsound
  obtain ⟨position, h⟩ := run_discard_eq_ok h
  obtain ⟨-, rfl⟩ := run_emit h
  have hsize : (e.code.push ins).size = e.code.size + 1 := Array.size_push _
  have hle := hsound.depth
  refine ⟨⟨⟨by dsimp only; omega, fun i hi => ?_, fun i x hx => hx⟩, ⟨hsound.literals, ?_⟩,
    rfl, rfl, rfl⟩, trivial, fun d hd => ⟨?_, hsize⟩⟩
  · dsimp only
    rw [Array.getElem?_push_lt hi, Array.getElem?_eq_getElem hi]
  · dsimp only
    omega
  · rw [hd.code _ (Nat.le_refl _) (by dsimp only; omega)]
    exact Array.getElem?_push_size

/-- One instruction that fulfils an intent, because of what is known of the draft. -/
theorem lays_intent {ins : Instruction} {w : Intent} {effect : Int} {R : Draft → Prop}
    (heffect : ins.stackEffect = effect) (hw : ∀ d i, R d → d.Fulfils i ins w.truncated) :
    Lays (discard (emit ins)) (.one effect) (fun _ => True) fun d _ i k _ =>
      R d → d.Meets [w] i k := by
  refine (lays_emit ins).mono (heffect ▸ .refl _) (fun _ => id) ?_
  rintro d next i k _ ⟨hi, rfl⟩ hR
  exact .one hi (hw d i hR)

theorem laysOut_emit {ins : Instruction} {w : Intent} {effect : Int}
    (heffect : ins.stackEffect = effect) (hw : ∀ d i, Draft.Fulfils d i ins w.truncated) :
    LaysOut (discard (emit ins)) (.one effect) fun _ => [w] :=
  (lays_intent (R := fun _ => True) heffect fun d i _ => hw d i).mono (.refl _) (fun _ => id)
    fun _ _ _ _ _ h => h trivial

/-- One instruction without operands. -/
theorem laysOut_plain (ins : Instruction) :
    LaysOut (discard (emit ins)) (.one ins.stackEffect) fun _ => [.plain ins] :=
  laysOut_emit rfl fun _ _ => .plain ins

theorem lays_literal (entry : LiteralEntry) (line : Nat) :
    Lays (literal entry line) .zero (fun _ => True) fun d _ i k index =>
      i = k ∧ d.literals[index.toNat]? = some entry := by
  intro e r e' h hsound
  have hle := hsound.depth
  have hmax : e.maxDepth = max e.maxDepth (e.depth + Cost.zero.peak) := by
    simp only [Cost.zero]
    omega
  obtain ⟨e₁, e₂, hget, h⟩ := run_bind_eq_ok.1 h
  cases hget
  split at h
  · rename_i position hfound
    cases h
    obtain ⟨hlt, hsame, -⟩ := Array.findIdx?_eq_some_iff_getElem.1 hfound
    refine ⟨⟨.refl _, hsound, rfl, (Int.add_zero _).symm, hmax⟩, trivial,
      fun d hd => ⟨rfl, hd.literals _ _ ?_⟩⟩
    rw [toNat_ofNat_of_lt (Nat.lt_of_lt_of_le hlt hsound.literals), Array.getElem?_eq_getElem hlt]
    exact congrArg some (LiteralEntry.eq_of_sameAs hsame)
  · obtain ⟨e₁, e₂, hget, h⟩ := run_bind_eq_ok.1 h
    cases hget
    dsimp only at h
    split at h
    · rename_i hlt
      obtain ⟨_, e₁, hmodify, h⟩ := run_bind_eq_ok.1 h
      cases hmodify
      cases h
      refine ⟨⟨⟨Nat.le_refl _, fun i _ => rfl, fun i x hx => ?_⟩, ⟨?_, hle⟩, rfl,
        (Int.add_zero _).symm, hmax⟩, trivial, fun d hd => ⟨rfl, hd.literals _ _ ?_⟩⟩
      · obtain ⟨hi, -⟩ := Array.getElem?_eq_some_iff.1 hx
        rw [Array.getElem?_push_lt hi, ← hx, Array.getElem?_eq_getElem hi]
      · rw [Array.size_push]
        exact hlt
      · rw [toNat_ofNat_of_lt hlt, Array.getElem?_push_size]
    · cases h

theorem lays_newSlot (line : Nat) :
    Lays (newSlot line) ⟨1, 0, 0⟩ (fun _ => True) fun _ next i k slot =>
      i = k ∧ slot.toNat = next := by
  intro e r e' h hsound
  have hle := hsound.depth
  obtain ⟨e₁, e₂, hget, h⟩ := run_bind_eq_ok.1 h
  cases hget
  dsimp only at h
  split at h
  · rename_i hlt
    obtain ⟨_, e₁, hmodify, h⟩ := run_bind_eq_ok.1 h
    cases hmodify
    cases h
    refine ⟨⟨⟨Nat.le_refl _, fun i _ => rfl, fun i x hx => hx⟩, ⟨hsound.literals, hle⟩, rfl,
      (Int.add_zero _).symm, ?_⟩, trivial, fun d hd => ⟨rfl, toNat_ofNat_of_lt hlt⟩⟩
    dsimp only
    omega
  · cases h

theorem lays_declare (names : Names) (line : Nat) (duplicate : String → SemanticCause)
    (taken : Scope) (more : List String) :
    Lays (declare names line duplicate taken more) ⟨more.length, 0, 0⟩
      (fun scope => List.length scope = List.length taken + more.length) fun _ next i k scope =>
        i = k ∧ Scope.slots scope = Scope.slots taken.reverse ++ more.zipIdx next := by
  induction more generalizing taken with
  | nil =>
    refine (Lays.pure (R := fun _ scope => scope = taken.reverse) List.length_reverse
      fun _ => rfl).mono (.refl _) (fun _ => id) ?_
    rintro d next i k _ ⟨rfl, rfl⟩
    exact ⟨rfl, (List.append_nil _).symm⟩
  | cons name more ih =>
    refine (Lays.lift (names.checkDeclaration name line)).first fun _ _ => ?_
    split
    · exact .fail _ _
    · have hlength (slot : UInt16) (scope : Scope)
          (h : List.length scope = List.length ((name, slot) :: taken) + more.length) :
          List.length scope = List.length taken + (name :: more).length := by
        rw [h, List.length_cons, List.length_cons]
        omega
      refine ((lays_newSlot line).bind fun slot _ => (ih ((name, slot) :: taken)).mono (.refl _)
        (hlength slot) fun _ _ _ _ _ => id).mono ?_ (fun _ => id) ?_
      · exact ⟨Nat.add_comm _ _, rfl, rfl⟩
      · rintro d next i k scope ⟨slot, _, ⟨rfl, hslot⟩, rfl, hscope⟩
        refine ⟨rfl, ?_⟩
        rw [hscope, List.reverse_cons, Scope.slots, List.map_append, List.append_assoc,
          List.zipIdx_cons]
        simp only [List.map_cons, List.map_nil, hslot, List.cons_append, List.nil_append,
          Scope.slots]

section Variables

variable {v : Variable} {place : Place} (hv : v.place = place.truncated)

include hv

theorem laysOut_pushVariable (line : Nat) :
    LaysOut (pushVariable v line) (.one 1) fun _ => [.push place] := by
  have hpush {ins : Instruction} {R : Draft → Prop} (heffect : ins.stackEffect = 1)
      (hpushes : ∀ d, R d → Draft.Pushes d ins v.place) :
      Lays (discard (emit ins)) (.one 1) (fun _ => True) fun d _ i k _ =>
        R d → d.Meets [.push place] i k :=
    lays_intent heffect fun d i hR => .push (hv ▸ hpushes d hR)
  have hplain {ins : Instruction} (heffect : ins.stackEffect = 1)
      (hpushes : ∀ d, Draft.Pushes d ins v.place) :
      LaysOut (discard (emit ins)) (.one 1) fun _ => [.push place] :=
    laysOut_emit heffect fun d i => .push (hv ▸ hpushes d)
  unfold pushVariable
  cases v with
  | receiver => exact hplain rfl fun _ => .receiver
  | nil => exact hplain rfl fun _ => .nil
  | true => exact hplain rfl fun _ => .true
  | false => exact hplain rfl fun _ => .false
  | temp slot => exact hplain rfl fun _ => .temp slot
  | arg index => exact hplain rfl fun _ => .arg index
  | instanceVariable index => exact hplain rfl fun _ => .instanceVariable index
  | global name =>
    dsimp only
    rw [map_eq_pure_bind, bind_assoc]
    exact (lays_literal (.global name) line).using fun index _ => hpush rfl fun d => .global

theorem lays_storeVariable (name : String) (line : Nat) :
    Lays (storeVariable v name line) .zero (·.stackEffect = -1) fun d _ i k ins =>
      i = k ∧ d.Stores ins place := by
  have hstore {ins : Instruction} (heffect : ins.stackEffect = -1)
      (hstores : ∀ d, Draft.Stores d ins v.place) :
      Lays (Pure.pure ins) .zero (·.stackEffect = -1) fun d _ i k ins => i = k ∧
        d.Stores ins place :=
    .pure heffect fun d => .of_truncated (hv ▸ hstores d)
  unfold storeVariable
  cases v with
  | temp slot => exact hstore rfl fun _ => .temp slot
  | instanceVariable index => exact hstore rfl fun _ => .instanceVariable index
  | global name =>
    refine (lays_literal (.global name) line).using fun index _ => ?_
    refine (Lays.pure (P := fun ins : Instruction => ins.stackEffect = -1)
      (R := fun _ ins => ins = .storeGlobal index) rfl fun _ => rfl).mono (.refl _) (fun _ => id) ?_
    rintro d next i k _ ⟨rfl, rfl⟩ hentry
    exact ⟨rfl, .of_truncated (hv ▸ .global hentry)⟩
  | _ => exact .fail _ _

end Variables

theorem laysOut_pushLiteral (value : Literal) (line : Nat) :
    LaysOut (pushLiteral value line) (.one 1) fun _ => [.constant value] := by
  unfold pushLiteral
  split
  · exact Lays.fail _ _
  · exact (lays_literal (.constant value) line).using fun index _ =>
      lays_intent rfl fun d i hentry => .constant hentry

theorem laysOut_dropUnless (needed : Bool) :
    LaysOut (dropUnless needed) ⟨0, needed.toNat - 1, 0⟩ fun _ =>
      intentIf (.plain .drop) (!needed) := by
  cases needed with
  | true => exact LaysOut.nil
  | false => exact (laysOut_plain .drop).mono ⟨rfl, rfl, rfl⟩ fun _ => rfl

theorem run_smallOperand {count line : Nat} {cause : SemanticCause} {e e' : Emission} {argc : UInt8}
    (h : (smallOperand count line cause).run e = .ok (argc, e')) : e' = e ∧ argc.toNat = count := by
  unfold smallOperand at h
  split at h
  · rename_i hlt
    cases h
    exact ⟨rfl, by rw [UInt8.toNat_ofNat', Nat.mod_eq_of_lt hlt]⟩
  · cases h

theorem lays_smallOperand (count line : Nat) (cause : SemanticCause) :
    Lays (smallOperand count line cause) .zero (·.toNat = count) fun _ _ i k _ => i = k := by
  refine .of_same fun e r e' h => ?_
  obtain ⟨rfl, hr⟩ := run_smallOperand h
  exact ⟨⟨_, rfl⟩, hr⟩

theorem laysOut_storeParameters (scope : Scope) :
    LaysOut (storeParameters scope) ⟨0, -List.length scope, 0⟩ fun _ =>
      scope.map fun p => .store (.temp p.2.toNat) := by
  induction scope with
  | nil => exact LaysOut.nil
  | cons p more ih =>
    have hstore : LaysOut (discard (emit (.storeTemp p.2))) (.one (-1))
        fun _ => [.store (.temp p.2.toNat)] := laysOut_emit rfl fun _ _ => .store (.temp p.2)
    refine (hstore.append ih).mono ?_ fun _ => rfl
    refine ⟨rfl, ?_, ?_⟩ <;> simp only [Cost.andThen, Cost.one, List.length_cons] <;> omega

/-! ## Blocks -/

theorem run_openBlock {argc : UInt8} {e e' : Emission} {start : Nat}
    (h : (openBlock argc).run e = .ok (start, e')) :
    start = e.code.size ∧ e'.code = (e.code.push (.pushBlock argc 0)).push (.jump 0) ∧
      e'.literals = e.literals ∧ e'.temps = e.temps ∧ e'.depth = e.depth + 1 ∧
      e'.maxDepth = max e.maxDepth (e.depth + 1) := by
  obtain ⟨position, e₁, hpush, h⟩ := run_bind_eq_ok.1 h
  obtain ⟨hposition, rfl⟩ := run_emit hpush
  obtain ⟨_, e₂, hjump, h⟩ := run_bind_eq_ok.1 h
  obtain ⟨_, hjump⟩ := run_discard_eq_ok hjump
  obtain ⟨-, rfl⟩ := run_emit hjump
  cases h
  refine ⟨hposition, rfl, rfl, rfl, ?_, ?_⟩ <;> simp only [Instruction.stackEffect] <;> omega

theorem run_closeBlock {start : Nat} {argc : UInt8} {line : Nat} {depth maxDepth : Int}
    {e e' : Emission} {r : Unit}
    (h : (closeBlock start argc line depth maxDepth).run e = .ok (r, e')) :
    e.maxDepth.toNat < 65536 ∧ e.code.size < 65536 ∧ e' = { e with
      depth, maxDepth
      code := (e.code.setIfInBounds start
        (.pushBlock argc (UInt16.ofNat e.maxDepth.toNat))).setIfInBounds (start + 1)
          (.jump (UInt16.ofNat e.code.size)) } := by
  obtain ⟨e₁, e₂, hget, h⟩ := run_bind_eq_ok.1 h
  cases hget
  obtain ⟨e₁, e₂, hget, h⟩ := run_bind_eq_ok.1 h
  cases hget
  dsimp only at h
  split at h
  · cases h
  · rename_i hdepth
    split at h
    · cases h
    · rename_i hsize
      cases h
      exact ⟨Nat.lt_of_not_le hdepth, Nat.lt_of_not_le hsize, rfl⟩

/-- Two instructions are emitted, more follow, and then the two are replaced. What was there before
them stays, and so does what follows. -/
theorem extends_of_replaced {e e₁ e₂ e₃ : Emission} {first second first' second' : Instruction}
    (hcode₁ : e₁.code = (e.code.push first).push second) (hliterals₁ : e₁.literals = e.literals)
    (hext : e₁.Extends e₂)
    (hcode₃ : e₃.code = (e₂.code.setIfInBounds e.code.size first').setIfInBounds
      (e.code.size + 1) second')
    (hliterals₃ : e₃.literals = e₂.literals) :
    e.Extends e₃ ∧ e₃.code.size = e₂.code.size ∧
      ∀ d : Draft, d.Holds e e₃ → d.code[e.code.size]? = some first' ∧
        d.code[e.code.size + 1]? = some second' ∧ d.Holds e₁ e₂ := by
  have hsize₁ : e₁.code.size = e.code.size + 2 := by rw [hcode₁, Array.size_push, Array.size_push]
  have hsize₂ := hext.size_le
  have hsize₃ : e₃.code.size = e₂.code.size := by
    rw [hcode₃, Array.size_setIfInBounds, Array.size_setIfInBounds]
  have hother : ∀ i, i ≠ e.code.size → i ≠ e.code.size + 1 → e₃.code[i]? = e₂.code[i]? := by
    intro i hi hi'
    rw [hcode₃, Array.getElem?_setIfInBounds_ne hi'.symm, Array.getElem?_setIfInBounds_ne hi.symm]
  refine ⟨⟨by omega, fun i hi => ?_, fun i x hx => ?_⟩, hsize₃, fun d hd => ⟨?_, ?_, ?_, ?_⟩⟩
  · rw [hother i (by omega) (by omega), hext.code i (by omega), hcode₁,
      Array.getElem?_push_lt (by rw [Array.size_push]; omega), Array.getElem_push_lt hi,
      Array.getElem?_eq_getElem hi]
  · rw [hliterals₃]
    refine hext.literals i x ?_
    rw [hliterals₁]
    exact hx
  · rw [hd.code _ (Nat.le_refl _) (by omega), hcode₃, Array.getElem?_setIfInBounds_ne (by omega),
      Array.getElem?_setIfInBounds_self_of_lt (by omega)]
  · rw [hd.code _ (by omega) (by omega), hcode₃,
      Array.getElem?_setIfInBounds_self_of_lt (by rw [Array.size_setIfInBounds]; omega)]
  · intro i hi hlt
    rw [hd.code i (by omega) (by omega), hother i (by omega) (by omega)]
  · rw [← hliterals₃]
    exact hd.literals

/-- The scope that a block declares for the emitter is the one it enters. -/
theorem scoping_enter (names : Names) {scope : Scope} {next : Nat} {declared : List String}
    (h : Scope.slots scope = declared.zipIdx next) :
    Names.scoping { names with scopes := scope :: names.scopes } =
      names.scoping.enter next declared := by
  rw [Names.scoping, Names.scoping, Scoping.enter, List.map_cons, h]

section Blocks

variable (names : Names) {params temps : List String} {body : List Statement} {line : Nat}
  (hbody : ∀ scope : Scope, LaysOut (blockBody { names with scopes := scope :: names.scopes } body)
    ⟨slotsOfStatements body, 0, roomOfBody body⟩ fun next =>
      intentsOfBody (Names.scoping { names with scopes := scope :: names.scopes }) next body)

include hbody

/-- What is emitted between the first two instructions of a block and its end. -/
theorem laysOut_blockInner :
    LaysOut
      (do
        let scope ← declare names line .duplicateBlockVariable [] (params ++ temps)
        storeParameters (scope.take params.length)
        blockBody { names with scopes := scope :: names.scopes } body)
      ⟨(params ++ temps).length + slotsOfStatements body, -params.length,
        roomOfBody body - params.length⟩
      fun next => (List.range' next params.length).map (fun slot => .store (.temp slot)) ++
        intentsOfBody (names.scoping.enter next (params ++ temps)) (next + (params ++ temps).length)
          body := by
  have htake {scope : Scope} (h : List.length scope = (params ++ temps).length) :
      (scope.take params.length).length = params.length := by
    rw [List.length_take, h, List.length_append]
    omega
  have hrest (scope : Scope) (hscope : List.length scope = 0 + (params ++ temps).length) : LaysOut
      (do
        storeParameters (scope.take params.length)
        blockBody { names with scopes := scope :: names.scopes } body)
      ⟨slotsOfStatements body, -params.length, roomOfBody body - params.length⟩ fun next =>
        (scope.take params.length).map (fun p => .store (.temp p.2.toNat)) ++
          intentsOfBody (Names.scoping { names with scopes := scope :: names.scopes })
          next body := by
    refine ((laysOut_storeParameters (scope.take params.length)).append (hbody scope)).mono ?_
      fun _ => rfl
    rw [htake (hscope.trans (Nat.zero_add _))]
    refine ⟨?_, ?_, ?_⟩ <;> simp only [Cost.andThen] <;> omega
  refine ((lays_declare names line .duplicateBlockVariable [] (params ++ temps)).bind hrest).mono ?_
    (fun _ => id) ?_
  · refine ⟨?_, ?_, ?_⟩ <;> simp only [Cost.andThen] <;> omega
  · rintro d next i k _ ⟨scope, _, ⟨rfl, hscope⟩, hmeets⟩
    have hslots : Scope.slots scope = (params ++ temps).zipIdx next := hscope
    have hmap : scope.map (fun p => p.2.toNat) = List.range' next (params ++ temps).length := by
      have hsnd := congrArg (List.map Prod.snd) hslots
      rwa [Scope.slots, List.map_map, List.zipIdx_map_snd] at hsnd
    have hstores : (scope.take params.length).map (fun p => Intent.store (.temp p.2.toNat)) =
        (List.range' next params.length).map fun slot => .store (.temp slot) := by
      have hcomp : (fun p : String × UInt16 => Intent.store (.temp p.2.toNat)) =
          (fun slot => .store (.temp slot)) ∘ fun p => p.2.toNat := rfl
      rw [hcomp, ← List.map_map, List.map_take, hmap, List.length_append, ← List.range'_append_1,
        List.take_left' List.length_range']
    rwa [hstores, scoping_enter names hslots] at hmeets

/-- A block: the instruction that makes it, a jump to its end, stores for its parameters, and its
statements. -/
theorem laysOut_block (needed : Bool) :
    LaysOut (expr names needed (.block (.mk params temps body line)))
      ⟨(Block.mk params temps body line).slots, needed.toNat, 1⟩ fun next =>
        Expr.intents names.scoping next needed (.block (.mk params temps body line)) := by
  unfold expr
  refine (Lays.setLine line).first fun _ _ => ?_
  refine (lays_smallOperand params.length line _).first fun argc hargc => ?_
  intro e r e' h hsound
  obtain ⟨start, e₁, hopen, h₁⟩ := run_bind_eq_ok.1 h
  obtain ⟨rfl, hcode₁, hliterals₁, htemps₁, hdepth₁, hmax₁⟩ := run_openBlock hopen
  obtain ⟨⟨depth, maxDepth⟩, e₂, hsave, h₂⟩ := run_bind_eq_ok.1 h₁
  cases hsave
  obtain ⟨scope, e₃, hdeclare, h₃⟩ := run_bind_eq_ok.1 h₂
  obtain ⟨_, e₄, hstore, h₄⟩ := run_bind_eq_ok.1 h₃
  obtain ⟨_, e₅, hrun, h₅⟩ := run_bind_eq_ok.1 h₄
  obtain ⟨_, e₆, hclose, hdrop⟩ := run_bind_eq_ok.1 h₅
  -- The count begins with the arguments, which are stored before the statements.
  obtain ⟨hadds₅, -, hinner⟩ := laysOut_blockInner names hbody _ _ e₅
    (run_bind_eq_ok.2 ⟨scope, e₃, hdeclare, run_bind_eq_ok.2 ⟨_, e₄, hstore, hrun⟩⟩)
    ⟨Nat.le_trans (Nat.le_of_eq (congrArg Array.size hliterals₁)) hsound.literals, Int.le_refl _⟩
  obtain ⟨hlt, hlt', heq⟩ := run_closeBlock hclose
  have hliterals₆ : e₆.literals = e₅.literals := by rw [heq]
  obtain ⟨hext₆, hsize₆, hholds⟩ := extends_of_replaced hcode₁ hliterals₁
    ⟨hadds₅.ext.size_le, hadds₅.ext.code, hadds₅.ext.literals⟩ (congrArg Emission.code heq)
    hliterals₆
  have hmax₅ := hadds₅.maxDepth
  dsimp only at hmax₅
  have hle := hsound.depth
  have hadds₆ : Adds ⟨(Block.mk params temps body line).slots, 1, 1⟩ e e₆ := by
    subst heq
    refine ⟨hext₆, ⟨hadds₅.sound.literals, ?_⟩, hadds₅.temps.trans ?_, hdepth₁, hmax₁⟩
    · dsimp only
      omega
    · rw [htemps₁]
      rfl
  obtain ⟨hadds, -, hdropped⟩ := laysOut_dropUnless needed e₆ _ e' hdrop hadds₆.sound
  refine ⟨(hadds₆.trans hadds).mono ?_ hsound, trivial, fun d hd => ?_⟩
  · refine ⟨rfl, ?_, rfl⟩
    simp only [Cost.andThen]
    omega
  obtain ⟨hi, hnext, hd₅⟩ := hholds d (hd.left hadds.ext)
  have hstatements := hinner d ⟨hd₅.code, hd₅.literals⟩
  have hstart : e₁.code.size = e.code.size + 1 + 1 := by
    rw [hcode₁, Array.size_push, Array.size_push]
  have hlength := hstatements.length
  rw [List.length_append, List.length_map, List.length_range'] at hlength
  dsimp only at hstatements hlength
  rw [hstart, htemps₁] at hstatements hlength
  have hsize : (UInt16.ofNat e₅.maxDepth.toNat).toNat = (Block.mk params temps body line).room := by
    rw [toNat_ofNat_of_lt hlt, Block.room, Block.params, Block.body]
    omega
  have hdrops := hdropped d (hd.right hext₆)
  rw [hsize₆] at hdrops
  change d.Meets (Block.intents names.scoping e.temps (.mk params temps body line) ++ _) _ _
  rw [Block.intents, List.cons_append, List.cons_append, List.cons_append, List.cons_append]
  refine Draft.meets_cons.2 ⟨⟨_, hi, hargc ▸ hsize ▸ .block⟩, ?_⟩
  refine Draft.meets_cons.2 ⟨⟨_, hnext, .skip ?_⟩, ?_⟩
  · rw [toNat_ofNat_of_lt hlt', hlength]
  · exact hstatements.append hdrops

end Blocks

/-! ## Trees -/

mutual

/-- **The emitter produces the code of an expression.** -/
theorem laysOut_expr (names : Names) (needed : Bool) (e : Expr) (he : e.Proper) :
    LaysOut (expr names needed e) ⟨e.slots, needed.toNat, e.room needed⟩ fun next =>
      e.intents names.scoping next needed := by
  cases e with
  | name name line =>
    unfold expr
    refine (Lays.setLine line).first fun _ _ => (Lays.lift _).first fun v hv => ?_
    cases needed with
    | true => exact laysOut_pushVariable (Names.truncated_of_resolve hv) line
    | false => exact LaysOut.nil
  | literal value line =>
    unfold expr
    refine (Lays.setLine line).first fun _ _ => ?_
    cases needed with
    | true => exact laysOut_pushLiteral value line
    | false => exact LaysOut.nil
  | assign name value line =>
    unfold expr
    refine (Lays.setLine line).first fun _ _ => (Lays.lift _).first fun v hv => ?_
    refine (lays_storeVariable (Names.truncated_of_resolve hv) name line).using fun ins hins => ?_
    have hstore : Lays (discard (emit ins)) (.one (-1)) (fun _ => True) fun d _ i k _ =>
        d.Stores ins (names.scoping.place name) →
          d.Meets [.store (names.scoping.place name)] i k :=
      lays_intent hins fun d i h => .store h
    cases needed with
    | true =>
      refine ((laysOut_expr names true value he).bind fun _ _ =>
        (laysOut_plain .dup).bind fun _ _ => hstore).mono ?_ (fun _ => id) ?_
      · refine ⟨rfl, rfl, ?_⟩
        simp only [Cost.andThen, Cost.one, Instruction.stackEffect, Expr.room, Bool.toNat_true,
          if_true]
        omega
      · rintro d next i k _ ⟨_, _, hvalue, _, _, hdup, hlast⟩ hstores
        change d.Meets (_ ++ [.plain .dup] ++ [_]) i k
        rw [List.append_assoc]
        exact hvalue.append (hdup.append (hlast hstores))
    | false =>
      refine ((laysOut_expr names true value he).bind fun _ _ => hstore).mono ?_ (fun _ => id) ?_
      · refine ⟨rfl, rfl, ?_⟩
        simp only [Cost.andThen, Cost.one, Expr.room, Bool.toNat_true, Bool.false_eq_true, if_false]
        omega
      · rintro d next i k _ ⟨_, _, hvalue, hlast⟩ hstores
        change d.Meets (_ ++ [] ++ [_]) i k
        rw [List.append_nil]
        exact hvalue.append (hlast hstores)
  | send receiver message =>
    unfold expr
    refine (Lays.setLine _).first fun _ _ => ((laysOut_expr names true receiver he.1).append
      ((laysOut_messageSend names receiver.isSuper message he.2).append
        (laysOut_dropUnless needed))).mono ?_ fun next => ?_
    · refine ⟨?_, ?_, ?_⟩ <;>
        simp only [Cost.andThen, Expr.slots, Expr.room, Bool.toNat_true] <;> omega
    · rw [Expr.intents, List.append_assoc]
  | cascade receiver messages =>
    unfold expr
    refine (Lays.setLine _).first fun _ _ => ((laysOut_expr names true receiver he.1).append
      (laysOut_cascade names receiver.isSuper needed messages he.2.1 he.2.2)).mono ?_
      fun next => rfl
    refine ⟨rfl, ?_, ?_⟩ <;> simp only [Cost.andThen, Expr.room, Bool.toNat_true] <;> omega
  | block b =>
    obtain ⟨params, temps, body, line⟩ := b
    exact laysOut_block names (fun scope => laysOut_blockBody _ body he) needed
  | primitive number args line =>
    unfold expr
    refine (Lays.setLine line).first fun _ _ => ?_
    split
    · exact Lays.fail _ _
    · have hcall : LaysOut
          (do
            let argc ← smallOperand args.length line .tooManyPrimitiveArguments
            discard (emit (.primitive argc number))
            dropUnless needed)
          ⟨0, 1 - args.length + (needed.toNat - 1), 1 - args.length⟩ fun _ =>
            .primitive args.length number :: intentIf (.plain .drop) (!needed) := by
        refine (lays_smallOperand args.length line _).first fun argc hargc => ?_
        have hemit : LaysOut (discard (emit (.primitive argc number))) (.one (1 - args.length))
            fun _ => [.primitive args.length number] :=
          laysOut_emit (by rw [Instruction.stackEffect, hargc]) fun _ _ => hargc ▸ .primitive
        refine (hemit.append (laysOut_dropUnless needed)).mono ?_ fun _ => rfl
        refine ⟨rfl, rfl, ?_⟩
        simp only [Cost.andThen, Cost.one]
        omega
      refine ((laysOut_exprs names args he).append hcall).mono ?_ fun next => ?_
      · refine ⟨rfl, ?_, ?_⟩ <;> simp only [Cost.andThen, Expr.room] <;> omega
      · rw [Expr.intents, List.append_assoc]
        rfl

theorem laysOut_exprs (names : Names) (es : List Expr) (hes : ProperExprs es) :
    LaysOut (exprs names es) ⟨slotsOfExprs es, es.length, roomOfExprs es⟩ fun next =>
      intentsOfExprs names.scoping next es := by
  cases es with
  | nil => exact LaysOut.nil
  | cons e es =>
    unfold exprs
    refine ((laysOut_expr names true e hes.1).append (laysOut_exprs names es hes.2)).mono ?_
      fun _ => rfl
    refine ⟨rfl, ?_, ?_⟩ <;>
      simp only [Cost.andThen, Bool.toNat_true, List.length_cons, roomOfExprs] <;> omega

theorem laysOut_messageSend (names : Names) (toSuper : Bool) (message : Message)
    (hm : message.Proper) :
    LaysOut (messageSend names toSuper message) ⟨message.slots, 0, message.room⟩ fun next =>
      message.intents names.scoping next toSuper := by
  obtain ⟨selector, args, line⟩ := message
  unfold messageSend
  have hcall : LaysOut
      (do
        let argc ← smallOperand args.length line .tooManyMessageArguments
        let entry ← literal (.selector selector) line
        discard (emit (if toSuper then .sendSuper argc entry else .send argc entry)))
      (.one (-args.length)) fun _ => [.send toSuper args.length selector] := by
    refine (lays_smallOperand args.length line _).first fun argc hargc => ?_
    refine (lays_literal (.selector selector) line).using fun entry _ => ?_
    rw [← hargc]
    cases toSuper with
    | true => exact lays_intent rfl fun _ _ hentry => .sendSuper hentry
    | false => exact lays_intent rfl fun _ _ hentry => .send hentry
  refine ((laysOut_exprs names args hm).append hcall).mono ?_ fun _ => rfl
  refine ⟨rfl, ?_, ?_⟩ <;> simp only [Cost.andThen, Cost.one, Message.room] <;> omega

theorem laysOut_cascade (names : Names) (toSuper needed : Bool) (messages : List Message)
    (hne : messages ≠ []) (hms : ProperMessages messages) :
    LaysOut (cascade names toSuper needed messages)
      ⟨slotsOfMessages messages, needed.toNat - 1, roomOfCascade messages⟩ fun next =>
        intentsOfCascade names.scoping next toSuper needed messages := by
  cases messages with
  | nil => exact absurd rfl hne
  | cons message more =>
    have hmessage := laysOut_messageSend names toSuper message hms.1
    cases more with
    | nil =>
      unfold cascade
      refine (hmessage.append (laysOut_dropUnless needed)).mono ?_ fun _ => rfl
      refine ⟨rfl, ?_, ?_⟩ <;> simp only [Cost.andThen, roomOfCascade] <;> omega
    | cons message' more =>
      unfold cascade
      refine ((laysOut_plain .dup).append (hmessage.append ((laysOut_plain .drop).append
        (laysOut_cascade names toSuper needed (message' :: more)
          (List.cons_ne_nil _ _) hms.2)))).mono ?_ fun _ => rfl
      have hroom : roomOfCascade (message :: message' :: more) =
          max (1 + message.room) (roomOfCascade (message' :: more)) := rfl
      rw [hroom]
      refine ⟨?_, ?_, ?_⟩ <;>
        simp only [Cost.andThen, Cost.one, Instruction.stackEffect, slotsOfMessages] <;> omega

theorem laysOut_statement (names : Names) (s : Statement) (hs : s.Proper) :
    LaysOut (statement names s) ⟨s.slots, 0, s.room⟩ fun next => s.intents names.scoping next := by
  cases s with
  | evaluate e =>
    unfold statement
    exact laysOut_expr names false e hs
  | answer e =>
    unfold statement
    refine ((laysOut_expr names true e hs).append (laysOut_plain .returnMethod)).mono ?_
      fun _ => rfl
    refine ⟨rfl, rfl, ?_⟩
    simp only [Cost.andThen, Cost.one, Instruction.stackEffect, Statement.room, Bool.toNat_true]
    omega

/-- **The emitter produces the code of the statements of a block.** -/
theorem laysOut_blockBody (names : Names) (body : List Statement) (hbody : ProperStatements body) :
    LaysOut (blockBody names body) ⟨slotsOfStatements body, 0, roomOfBody body⟩ fun next =>
      intentsOfBody names.scoping next body := by
  have hlast {e : Expr} (he : LaysOut (expr names true e) ⟨e.slots, 1, e.room true⟩ fun next =>
        e.intents names.scoping next true) {ins : Instruction} (hins : ins.stackEffect = -1) :
      LaysOut (expr names true e >>= fun _ => discard (emit ins)) ⟨e.slots, 0, e.room true⟩
        fun next => e.intents names.scoping next true ++ [.plain ins] := by
    refine (he.append (laysOut_plain ins)).mono ?_ fun _ => rfl
    refine ⟨rfl, ?_, ?_⟩ <;> simp only [Cost.andThen, Cost.one] <;> omega
  cases body with
  | nil =>
    unfold blockBody
    exact ((laysOut_plain .pushNil).append (laysOut_plain .returnBlock)).mono ⟨rfl, rfl, rfl⟩
      fun _ => rfl
  | cons s more =>
    cases more with
    | nil =>
      cases s with
      | answer e =>
        unfold blockBody
        exact hlast (laysOut_expr names true e hbody.1) rfl
      | evaluate e =>
        unfold blockBody
        exact hlast (laysOut_expr names true e hbody.1) rfl
    | cons s' more =>
      rw [blockBody_cons_cons]
      refine ((laysOut_statement names s hbody.1).append
        (laysOut_blockBody names (s' :: more) hbody.2)).mono ?_ fun next => ?_
      · have hroom : roomOfBody (s :: s' :: more) = max s.room (roomOfBody (s' :: more)) := by
          cases s <;> rfl
        rw [hroom]
        refine ⟨rfl, rfl, ?_⟩
        simp only [Cost.andThen]
        omega
      · exact (intentsOfBody_cons_cons _ _ _ _ _).symm

end

/-- **The emitter produces the code of the statements of a method.** -/
theorem laysOut_methodBody (names : Names) (needed : Bool) (body : List Statement)
    (hbody : ProperStatements body) :
    LaysOut (methodBody names needed body) ⟨slotsOfStatements body, 0, roomOfMethod needed body⟩
      fun next => intentsOfMethod names.scoping next needed body := by
  induction body with
  | nil =>
    exact ((laysOut_plain .pushSelf).append (laysOut_plain .returnMethod)).mono ⟨rfl, rfl, rfl⟩
      fun _ => rfl
  | cons s more ih =>
    cases more with
    | nil =>
      cases s with
      | answer e => exact laysOut_statement names (.answer e) hbody.1
      | evaluate e =>
        unfold methodBody
        cases needed with
        | true =>
          refine ((laysOut_expr names true e hbody.1).append (laysOut_plain .returnMethod)).mono ?_
            fun next => ?_
          · refine ⟨rfl, rfl, ?_⟩
            simp only [Cost.andThen, Cost.one, Instruction.stackEffect, roomOfMethod, Bool.not_true,
              Bool.toNat_true, Bool.toNat_false]
            omega
          · change _ = _ ++ [] ++ _
            rw [List.append_nil]
        | false =>
          refine ((laysOut_expr names false e hbody.1).append ((laysOut_plain .pushSelf).append
            (laysOut_plain .returnMethod))).mono ?_ fun next => ?_
          · refine ⟨rfl, rfl, ?_⟩
            simp only [Cost.andThen, Cost.one, Instruction.stackEffect, roomOfMethod,
              Bool.not_false, Bool.toNat_true, Bool.toNat_false]
            omega
          · exact (List.append_assoc _ _ _).symm
    | cons s' more =>
      rw [methodBody_cons_cons]
      refine ((laysOut_statement names s hbody.1).append (ih hbody.2)).mono ?_ fun next => ?_
      · have hroom : roomOfMethod needed (s :: s' :: more) =
            max s.room (roomOfMethod needed (s' :: more)) := by cases s <;> rfl
        rw [hroom]
        refine ⟨rfl, rfl, ?_⟩
        simp only [Cost.andThen]
        omega
      · exact (intentsOfMethod_cons_cons _ _ _ _ _ _).symm

theorem lays_checkArguments (names : Names) (taken : NameTree) (more : List String) :
    Lays (checkArguments names taken more) .zero (fun _ => True) fun _ _ i k _ => i = k := by
  induction more generalizing taken with
  | nil =>
    exact (Lays.pure (R := fun _ _ => True) trivial fun _ => trivial).mono (.refl _) (fun _ => id)
      fun _ _ _ _ _ h => h.1
  | cons name more ih =>
    refine (Lays.lift _).first fun _ _ => ?_
    split
    · exact .fail _ _
    · exact ih _

/-- **The emitter produces the code of a method.** -/
theorem laysOut_method (names : Names) (tree : MethodTree) (hbody : ProperStatements tree.body)
    (hscopes : names.scopes = []) (needed : Bool) :
    LaysOut (method names tree needed)
      ⟨tree.temps.length + slotsOfStatements tree.body, 0, roomOfMethod needed tree.body⟩
      fun next =>
        intentsOfMethod (Scoping.enter ⟨names.instanceVariables, tree.args, []⟩ next tree.temps)
          (next + tree.temps.length) needed tree.body := by
  refine (lays_checkArguments names .none tree.args).first fun _ _ => ?_
  refine ((lays_declare { names with args := tree.args } 1 .duplicateTemporary [] tree.temps).bind
    fun scope _ => laysOut_methodBody { names with args := tree.args, scopes := [scope] } needed
      tree.body hbody).mono ?_ (fun _ => id) ?_
  · refine ⟨rfl, rfl, ?_⟩
    simp only [Cost.andThen]
    omega
  · rintro d next i k _ ⟨scope, _, ⟨rfl, hscope⟩, hcode⟩
    have henter := scoping_enter { names with args := tree.args } hscope
    rw [hscopes] at henter
    change d.Meets (intentsOfMethod (Scoping.enter ⟨names.instanceVariables, tree.args, []⟩ next
      tree.temps) _ needed tree.body) i k
    exact henter ▸ hcode

end Emission

/-- **The code of a compiled method** does what its tree means, as far as operands can say it, and
the sizes are those of the tree. -/
theorem Draft.laidOut_ofTree {instanceVariables : List String}
    {isGlobal : String → Except Fault Bool} {tree : MethodTree} {valueNeeded : Bool} {d : Draft}
    (hbody : ProperStatements tree.body)
    (h : Draft.ofTree instanceVariables isGlobal tree valueNeeded = .ok d) :
    d.argSize = tree.args.length ∧
      d.tempSize = tree.temps.length + slotsOfStatements tree.body ∧
      d.stackSize = roomOfMethod valueNeeded tree.body ∧
      d.Meets (tree.intents instanceVariables valueNeeded) 0 d.code.size := by
  simp only [Draft.ofTree] at h
  cases hrun : (Emission.method ⟨instanceVariables, [], [], isGlobal⟩ tree valueNeeded).run {} with
  | error err =>
    rw [hrun] at h
    cases h
  | ok p =>
    obtain ⟨_, e⟩ := p
    rw [hrun] at h
    cases h
    obtain ⟨hadds, -, hcode⟩ := Emission.laysOut_method ⟨instanceVariables, [], [], isGlobal⟩ tree
      hbody rfl valueNeeded _ _ _ hrun ⟨Nat.zero_le _, Int.le_refl _⟩
    refine ⟨rfl, hadds.temps.trans (Nat.zero_add _), ?_, ?_⟩
    · have hmax : e.maxDepth = max 0 (0 + (roomOfMethod valueNeeded tree.body : Int)) :=
        hadds.maxDepth
      change e.maxDepth.toNat = _
      omega
    · rw [MethodTree.intents, ← Nat.zero_add tree.temps.length]
      exact hcode ⟨tree.selector, e.code, e.literals, tree.args.length, e.temps, e.maxDepth.toNat⟩
        ⟨fun _ _ _ => rfl, fun _ _ hx => hx⟩

theorem Draft.follows_ofTree {instanceVariables : List String}
    {isGlobal : String → Except Fault Bool} {tree : MethodTree} {valueNeeded : Bool} {d : Draft}
    (hbody : ProperStatements tree.body)
    (h : Draft.ofTree instanceVariables isGlobal tree valueNeeded = .ok d) :
    d.Follows ((tree.intents instanceVariables valueNeeded).map .truncated) 0 d.code.size :=
  (Draft.laidOut_ofTree hbody h).2.2.2

end Smalltalk
