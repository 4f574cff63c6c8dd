import Mathlib.Data.Int.Bitwise
import Smalltalk.Proofs.Resuming
import Smalltalk.Proofs.Words

/-!
# Integer primitives are exact

The integers of the machine have 31 bits, and a result is the mathematical one, or the operation
fails. Bitwise operations are computed on words of 32 bits. The two topmost bits of an integer in
such a word are the same, and so are those of the result, which therefore is an integer again: these
operations never fail. The bits of an integer are those of its two's complement, which goes on to
the left for ever.

Operands are popped before they are looked at, and with each of them the context records how many
are left, whatever it had recorded before. A context that is its own stack may have an operand where
that number goes. It is overwritten before it is read, which is why the operands must be elsewhere.

## Main definitions

* `Machine.Replaced`: two operands have been replaced by one
* `Machine.Gives`: what a primitive does whose result is a given integer

## Main results

* `Machine.exists_operands`: what the primitives have in common
* `integer_primitives_exact`, `add_on_overlaid_context`
-/

namespace Smalltalk

open Memory Layout

/-! ## Integers in range -/

/-- The integers that the machine has. -/
def InRange (n : Int) : Prop := -2 ^ 30 ≤ n ∧ n ≤ 2 ^ 30 - 1

theorem ofInt?_of_inRange {n : Int} (h : InRange n) :
    ∃ k : SmallInt, k.val = n ∧ Value.ofInt? n = some (.small k) := by
  refine ⟨⟨n, h.1, Int.lt_of_le_sub_one h.2⟩, rfl, ?_⟩
  rw [Value.ofInt?, SmallInt.ofInt?_of_mem h.1 (Int.lt_of_le_sub_one h.2)]
  rfl

theorem ofInt?_of_not_inRange {n : Int} (h : ¬ InRange n) : Value.ofInt? n = none := by
  unfold InRange at h
  unfold Value.ofInt? SmallInt.ofInt?
  cases n with
  | ofNat k =>
    have hk : ¬ k < 1073741824 := by simp only [Int.ofNat_eq_natCast] at h; omega
    simp only [dif_neg hk, Option.map_none]
  | negSucc k =>
    have hk : ¬ k < 1073741824 := by omega
    simp only [dif_neg hk, Option.map_none]

/-! ## Bits -/

/-- A word in two's complement goes on with its sign. -/
theorem testBit_toInt {w : Nat} (x : BitVec w) (i : Nat) :
    x.toInt.testBit i = if i < w then x.getLsbD i else x.msb := by
  rw [BitVec.toInt_eq_msb_cond]
  cases hmsb : x.msb with
  | false =>
    simp only [Bool.false_eq_true, if_false]
    rw [show (x.toNat : Int).testBit i = x.getLsbD i from rfl]
    split
    · rfl
    · exact BitVec.getLsbD_of_ge _ _ (by omega)
  | true =>
    have hlt := x.isLt
    have hneg : (x.toNat : Int) - ((2 ^ w : Nat) : Int) = Int.negSucc (~~~x).toNat := by
      rw [BitVec.toNat_not, Int.negSucc_eq]
      omega
    rw [if_pos rfl, hneg, show Int.testBit (Int.negSucc (~~~x).toNat) i =
      !(~~~x).getLsbD i from rfl, BitVec.getLsbD_not]
    by_cases hi : i < w <;> simp [hi]

theorem SmallInt.toInt_bits (a : SmallInt) : a.bits.toInt = a.val := by
  have hlow := a.le_val
  have hhigh := a.val_lt
  rw [SmallInt.bits, BitVec.toInt_ofInt, Int.bmod_eq_of_le (by omega) (by omega)]

/-- A word is an integer of the machine just if its two topmost bits are the same. -/
theorem inRange_toInt_iff (x : BitVec 32) : InRange x.toInt ↔ x.getLsbD 30 = x.getLsbD 31 := by
  have hlt := x.isLt
  have htop : x.getLsbD 31 = decide (2 ^ 31 ≤ x.toNat) := BitVec.msb_eq_decide x
  have hnext : x.getLsbD 30 = decide (x.toNat / 2 ^ 30 % 2 = 1) := Nat.testBit_eq_decide_div_mod_eq
  rw [htop, hnext, decide_eq_decide, BitVec.toInt_eq_toNat_cond, InRange]
  split <;> omega

section Bitwise

variable {f : Bool → Bool → Bool} {g : BitVec 32 → BitVec 32 → BitVec 32}
  (hbit : ∀ x y i, i < 32 → (g x y).getLsbD i = f (x.getLsbD i) (y.getLsbD i))
include hbit

/-- A function of bits is one of all bits of the two's complement. -/
theorem testBit_bitwise (a b : SmallInt) (i : Nat) :
    (g a.bits b.bits).toInt.testBit i = f (a.val.testBit i) (b.val.testBit i) := by
  rw [← a.toInt_bits, ← b.toInt_bits, testBit_toInt, testBit_toInt, testBit_toInt]
  split
  · exact hbit _ _ i ‹_›
  · exact hbit _ _ 31 (by decide)

/-- **A function of bits stays in range**: the two topmost bits of the result are made of equal
bits. -/
theorem inRange_bitwise (a b : SmallInt) : InRange (g a.bits b.bits).toInt := by
  have hsame : ∀ c : SmallInt, c.bits.getLsbD 30 = c.bits.getLsbD 31 := by
    intro c
    rw [← inRange_toInt_iff, c.toInt_bits]
    exact ⟨c.le_val, Int.le_sub_one_of_lt c.val_lt⟩
  rw [inRange_toInt_iff, hbit _ _ 30 (by decide), hbit _ _ 31 (by decide), hsame a, hsame b]

end Bitwise

/-! ## Division -/

/-- The quotient is rounded towards zero, and the remainder is what is left then. -/
structure Truncates (a b q r : Int) : Prop where
  exact : a = b * q + r
  rounded : q.natAbs = a.natAbs / b.natAbs
  small : r.natAbs < b.natAbs
  sign : r = 0 ∨ r.sign = a.sign

theorem truncates_tdiv {a b : Int} (hb : b ≠ 0) : Truncates a b (a.tdiv b) (a.tmod b) where
  exact := (Int.mul_tdiv_add_tmod a b).symm
  rounded := Int.natAbs_tdiv a b
  small := by
    rw [Int.natAbs_tmod]
    exact Nat.mod_lt _ (Int.natAbs_pos.2 hb)
  sign := by
    have hsign := Int.sign_tmod a b
    split at hsign
    · exact .inl (Int.sign_eq_zero_iff_zero.1 hsign)
    · exact .inr hsign

theorem Truncates.inRange_iff {a b : SmallInt} {q r : Int} (h : Truncates a.val b.val q r) :
    InRange q ↔ ¬ (a.val = -2 ^ 30 ∧ b.val = -1) := by
  have hlow := a.le_val
  have hhigh := a.val_lt
  have hle : a.val.natAbs / b.val.natAbs ≤ a.val.natAbs := Nat.div_le_self _ _
  have hexact := h.exact
  have hsmall := h.small
  constructor
  · rintro ⟨-, hq⟩ ⟨ha, hminus⟩
    rw [hminus] at hsmall hexact
    omega
  · intro hne
    have hq := h.rounded
    by_cases hone : b.val.natAbs = 1
    · rcases Int.natAbs_eq_iff.1 hone with hb' | hb'
      · rw [hb'] at hexact
        exact ⟨by omega, by omega⟩
      · rw [hb'] at hexact hne
        exact ⟨by omega, by omega⟩
    · have hhalf : a.val.natAbs / b.val.natAbs ≤ a.val.natAbs / 2 :=
        Nat.div_le_div_left (by omega) (by decide)
      exact ⟨by omega, by omega⟩

theorem Truncates.inRange {a b : SmallInt} {q r : Int} (h : Truncates a.val b.val q r) :
    InRange r := by
  have hsmall := h.small
  have hlow := b.le_val
  have hhigh := b.val_lt
  exact ⟨by omega, by omega⟩

/-! ## Operands -/

namespace Machine

variable {m m₁ m₂ : Machine} {a b v : Value}

/-- The active context has its operands in another object, and a field for their number. What that
field has does not matter. -/
structure Operating (m : Machine) : Prop where
  wellFormed : m.WellFormed
  apart : m.registers.get .stack ≠ m.registers.get .activeContext
  place : ∃ v, m.memory.getPtr (m.registers.get .activeContext) Context.sp = .ok v

/-- The places of operands from some number on, and that of their number. -/
def operandsFrom (m : Machine) (k x i : Nat) : Prop :=
  m.At .activeContext x ∧ i = Context.sp ∨ m.At .stack x ∧ k ≤ i

/-- The two operands on top have been replaced by one, and the context has recorded how many there
are. Nothing else has changed. -/
structure Replaced (m : Machine) (v : Value) (m₁ : Machine) : Prop where
  operating : m₁.Operating
  recorded : m₁.indexField (m₁.registers.get .activeContext) Context.sp = .ok m₁.sp
  top : m₁.peek 0 = .ok v
  deeper : ∀ d w, m.peek (d + 2) = .ok w → m₁.peek (d + 1) = .ok w
  rest : m₁ = { m with memory := m₁.memory, sp := m.sp - 1 }
  edits : m.Edits (m.operandsFrom (m.sp - 2)) [] m.memory.unmoved m₁

/-- Operands below those that are touched stay. -/
theorem Edits.operand {k i : Nat} (hm : m.Operating)
    (h : m.Edits (m.operandsFrom k) [] m.memory.unmoved m₁)
    (hi : i < k) (hv : m.memory.getPtr (m.registers.get .stack) i = .ok v) :
    m₁.memory.getPtr (m.registers.get .stack) i = .ok v := by
  obtain ⟨v', hv', hren⟩ :=
      h.getPtr (.unmoved (hm.wellFormed.registers.get .stack)) hv fun x hx hT => by
    rcases hT with ⟨hat, -⟩ | ⟨-, hk⟩
    · exact hm.apart (hx.trans hat.get_eq.symm)
    · omega
  rwa [hren.eq_of_fixed fun _ _ h => h.2]

/-- Changes to operands are changes to operands from a lower one on. -/
theorem operandsFrom_mono {j k x i : Nat} (hle : k ≤ j) (hregisters : m₁.registers = m.registers)
    (h : m₁.operandsFrom j x i) : m.operandsFrom k x i := by
  rw [operandsFrom, At, At, hregisters] at h
  exact h.imp_right fun h => ⟨h.1, hle.trans h.2⟩

/-- Operands have been stored to, and their number recorded. -/
theorem Operating.stored {T : Nat → Nat → Prop} (hm : m.Operating)
    (he : m.Edits T [] m.memory.unmoved m₁) (hregisters : m₁.registers = m.registers)
    (hrecorded : m₁.indexField (m.registers.get .activeContext) Context.sp = .ok m₁.sp) :
    m₁.Operating := by
  obtain ⟨place, hplace, -⟩ := except_bind_eq_ok hrecorded
  exact ⟨he.after, hregisters ▸ hm.apart, place, hregisters ▸ hplace⟩

/-- **An operand is popped.** -/
theorem Operating.pop (hm : m.Operating) (hv : m.peek 0 = .ok v) :
    ∃ m₁ k, pop m = .ok v m₁ ∧ m.sp = k + 1 ∧ m₁.Operating ∧
      m₁ = { m with memory := m₁.memory, sp := k } ∧
      m.Edits (m.operandsFrom k) [] m.memory.unmoved m₁ ∧
      m₁.memory.getPtr (m.registers.get .stack) k = .ok m.nil := by
  obtain ⟨k, hsp, hget⟩ := peek_succ hv
  obtain ⟨place, hplace⟩ := hm.place
  obtain ⟨m₁, hpop⟩ := exists_pop hm.wellFormed hsp hget hplace
  obtain ⟨_, hk, -, hedits, hm₁, hnil, hrecorded⟩ := pop_edits hm.wellFormed hm.apart hpop
  obtain rfl := Nat.succ.inj (hk.symm.trans hsp)
  have hregisters : m₁.registers = m.registers := by rw [hm₁]
  have hsp₁ : m₁.sp = _ := congrArg Machine.sp hm₁
  refine ⟨m₁, _, hpop, hsp, hm.stored hedits hregisters (hsp₁ ▸ hrecorded), hm₁, ?_, hnil⟩
  exact hedits.mono (fun _ _ h => h.imp_right fun h => ⟨h.1, h.2.ge⟩) (List.Subset.refl _)

/-- **An operand is pushed.** -/
theorem Operating.push {u : Value} (hm : m.Operating) (hv : m.memory.Holds v)
    (hroom : m.memory.getPtr (m.registers.get .stack) m.sp = .ok u) :
    ∃ m₁, push v m = .ok () m₁ ∧ m₁.Operating ∧
      m₁.indexField (m₁.registers.get .activeContext) Context.sp = .ok m₁.sp ∧ m₁.peek 0 = .ok v ∧
      m₁ = { m with memory := m₁.memory, sp := m.sp + 1 } ∧
      m.Edits (m.operandsFrom m.sp) [] m.memory.unmoved m₁ := by
  obtain ⟨place, hplace⟩ := hm.place
  obtain ⟨m₁, hpush⟩ := exists_push hm.wellFormed hv hroom hplace
  obtain ⟨hedits, hm₁, htop, hrecorded⟩ := push_edits hm.wellFormed hv hm.apart hpush
  have hregisters : m₁.registers = m.registers := by rw [hm₁]
  have hsp₁ : m₁.sp = m.sp + 1 := congrArg Machine.sp hm₁
  rw [← hsp₁] at hrecorded
  refine ⟨m₁, hpush, hm.stored hedits hregisters hrecorded, ?_, ?_, hm₁, ?_⟩
  · rw [hregisters]
    exact hrecorded
  · refine peek_of_getPtr hsp₁ ?_
    rw [hregisters]
    exact htop
  · exact hedits.mono (fun _ _ h => h.imp_right fun h => ⟨h.1, h.2.ge⟩) (List.Subset.refl _)

/-- **Two operands are popped**, and then anything can be pushed in their place. -/
theorem exists_operands (hm : m.Operating) (ha : m.peek 1 = .ok a) (hb : m.peek 0 = .ok b) :
    ∃ m₁ m₂, pop m = .ok b m₁ ∧ pop m₁ = .ok a m₂ ∧ m₂.registers = m.registers ∧
      ∀ v, m.memory.Holds v → ∃ m₃, push v m₂ = .ok () m₃ ∧ m.Replaced v m₃ := by
  obtain ⟨m₁, k, hpop₁, hk, hm₁, heq₁, hedits₁, -⟩ := hm.pop hb
  obtain ⟨k', hk', hget⟩ := peek_succ ha
  have hregisters₁ : m₁.registers = m.registers := by rw [heq₁]
  have hsp₁ : m₁.sp = k := congrArg Machine.sp heq₁
  have hget₁ : m₁.peek 0 = .ok a := by
    refine peek_of_getPtr (k := k') (by omega) ?_
    rw [hregisters₁]
    exact hedits₁.operand hm (by omega) hget
  obtain ⟨m₂, k₂, hpop₂, hk₂, hm₂, heq₂, hedits₂, hnil⟩ := hm₁.pop hget₁
  have hregisters₂ : m₂.registers = m.registers := by rw [heq₂, hregisters₁]
  have hsp₂ : m₂.sp = k₂ := congrArg Machine.sp heq₂
  refine ⟨m₁, m₂, hpop₁, hpop₂, hregisters₂, fun v hv => ?_⟩
  have hfirst : m.Edits (m.operandsFrom (m.sp - 2)) [] m.memory.unmoved m₂ := by
    refine hedits₁.trans_unmoved hedits₂ (fun _ _ => operandsFrom_mono (by omega) rfl)
      fun x x' i hx => ?_
    obtain rfl := hx.2
    exact operandsFrom_mono (by omega) hregisters₁
  rw [hregisters₁, ← hregisters₂, ← hsp₂] at hnil
  obtain ⟨m₃, hpush, hm₃, hrecorded, htop, heq₃, hedits₃⟩ :=
    hm₂.push (hfirst.holds (.unmoved hv)) hnil
  have hedits : m.Edits (m.operandsFrom (m.sp - 2)) [] m.memory.unmoved m₃ := by
    refine hfirst.trans_unmoved hedits₃ (fun _ _ h => h) fun x x' i hx => ?_
    obtain rfl := hx.2
    exact operandsFrom_mono (by omega) hregisters₂
  refine ⟨m₃, hpush, hm₃, hrecorded, htop, fun d w hw => ?_, ?_, hedits⟩
  · obtain ⟨j, hj, hget⟩ := peek_succ hw
    have hsp₃ : m₃.sp = m₂.sp + 1 := congrArg Machine.sp heq₃
    have hregisters₃ : m₃.registers = m.registers := by rw [heq₃, hregisters₂]
    refine peek_of_getPtr (k := j) (by omega) ?_
    rw [hregisters₃]
    exact hedits.operand hm (by omega) hget
  · rw [heq₃, heq₂, heq₁, show k₂ + 1 = m.sp - 1 by omega]

/-! ## What the primitives do -/

/-- The primitive replaces its operands by a value. -/
def Replaces (m : Machine) (p : Primitive) (v : Value) : Prop :=
  ∀ argc, ∃ m₁, runPrimitive argc p m = .ok () m₁ ∧ m.Replaced v m₁

/-- The primitive fails. -/
def Fails (m : Machine) (p : Primitive) (f : Fault) : Prop :=
  ∀ argc, ∃ m₁, runPrimitive argc p m = .error f m₁

/-- The primitive replaces its operands by the integer `n`, unless there is no such integer. -/
def Gives (m : Machine) (p : Primitive) (n : Int) : Prop :=
  (InRange n → ∃ k : SmallInt, k.val = n ∧ m.Replaces p (.small k)) ∧
    (¬ InRange n → m.Fails p (.integerOverflow p.name))

section Running

variable {x y : SmallInt} {p : Primitive} {n : Int}

/-- What is done with two integers once they are popped. -/
theorem run_integers (hm : m.Operating) (hx : m.peek 1 = .ok (.small x))
    (hy : m.peek 0 = .ok (.small y)) : ∃ m₂, m₂.registers = m.registers ∧
      (∀ {α : Type} (operation : String) (act : SmallInt × SmallInt → Exec α),
        (integerOperands operation >>= act) m = act (x, y) m₂) ∧
      ∀ v, m.memory.Holds v → ∃ m₃, push v m₂ = .ok () m₃ ∧ m.Replaced v m₃ := by
  obtain ⟨m₁, m₂, hpop₁, hpop₂, hregisters, hpush⟩ := exists_operands hm hx hy
  refine ⟨m₂, hregisters, fun operation act => ?_, hpush⟩
  refine bind_of_eq_ok ?_
  rw [integerOperands]
  refine (bind_of_eq_ok hpop₁).trans ((bind_of_eq_ok hpop₂).trans ?_)
  rfl

theorem gives_of_run (hpush : ∀ v, m.memory.Holds v → ∃ m₃, push v m₂ = .ok () m₃ ∧ m.Replaced v m₃)
    (hrun : ∀ argc, runPrimitive argc p m = pushInteger p.name n m₂) : m.Gives p n := by
  constructor
  · intro hn
    obtain ⟨k, hk, hvalue⟩ := ofInt?_of_inRange hn
    refine ⟨k, hk, fun argc => ?_⟩
    obtain ⟨m₃, hok, hreplaced⟩ := hpush (.small k) (.small k)
    refine ⟨m₃, ?_, hreplaced⟩
    rw [hrun, pushInteger, hvalue]
    exact hok
  · intro hn argc
    refine ⟨m₂, ?_⟩
    rw [hrun, pushInteger, ofInt?_of_not_inRange hn]
    rfl

end Running

end Machine

open Machine

/-- **Integer primitives are exact.** Sums, differences and products are the mathematical ones,
unless these are out of range. Division fails just for zero; the quotient is out of range for one
pair of operands, and the remainder never. Bitwise operations never fail and act on each bit of the
two's complement, and comparisons answer the objects that stand for the truth. The context must have
its operands in another object, and a field for their number. -/
theorem integer_primitives_exact (m : Machine) (a b : SmallInt) (hm : m.Operating)
    (ha : m.peek 1 = .ok (.small a)) (hb : m.peek 0 = .ok (.small b)) :
    m.Gives .add (a.val + b.val) ∧ m.Gives .subtract (a.val - b.val) ∧
      m.Gives .multiply (a.val * b.val) ∧
    (b.val = 0 → m.Fails .quotient (.divisionByZero "//") ∧
      m.Fails .remainder (.divisionByZero "\\\\")) ∧
    (b.val ≠ 0 → ∃ q r, Truncates a.val b.val q r ∧ m.Gives .quotient q ∧ m.Gives .remainder r ∧
      (InRange q ↔ ¬ (a.val = -2 ^ 30 ∧ b.val = -1)) ∧ InRange r) ∧
    (∃ k : SmallInt, m.Replaces .bitAnd (.small k) ∧
      ∀ i, k.val.testBit i = (a.val.testBit i && b.val.testBit i)) ∧
    (∃ k : SmallInt, m.Replaces .bitOr (.small k) ∧
      ∀ i, k.val.testBit i = (a.val.testBit i || b.val.testBit i)) ∧
    (∃ k : SmallInt, m.Replaces .bitXor (.small k) ∧
      ∀ i, k.val.testBit i = (a.val.testBit i ^^ b.val.testBit i)) ∧
    m.Replaces .less (m.registers.get (if a.val < b.val then .true else .false)) ∧
    m.Replaces .lessEqual (m.registers.get (if a.val ≤ b.val then .true else .false)) := by
  obtain ⟨m₂, hregisters, hoperands, hpush⟩ := run_integers hm ha hb
  have hgives : ∀ p n, (∀ argc, runPrimitive argc p m = pushInteger p.name n m₂) → m.Gives p n :=
    fun _ _ => gives_of_run hpush
  have hbits : ∀ p (f : Bool → Bool → Bool) (g : BitVec 32 → BitVec 32 → BitVec 32),
      (∀ x y i, i < 32 → (g x y).getLsbD i = f (x.getLsbD i) (y.getLsbD i)) →
      (∀ argc, runPrimitive argc p m = pushInteger p.name (g a.bits b.bits).toInt m₂) →
      ∃ k : SmallInt, m.Replaces p (.small k) ∧
        ∀ i, k.val.testBit i = f (a.val.testBit i) (b.val.testBit i) := by
    intro p f g hbit hrun
    obtain ⟨k, hk, hreplaces⟩ := (hgives p _ hrun).1 (inRange_bitwise hbit a b)
    exact ⟨k, hreplaces, fun i => hk ▸ testBit_bitwise hbit a b i⟩
  have htruth : ∀ p (c : Prop) [Decidable c],
      (∀ argc, runPrimitive argc p m = pushBoolean (decide c) m₂) →
      m.Replaces p (m.registers.get (if c then .true else .false)) := by
    intro p c _ hrun argc
    obtain ⟨m₃, hok, hreplaced⟩ :=
      hpush _ (hm.wellFormed.registers.get (if c then .true else .false))
    refine ⟨m₃, ?_, hreplaced⟩
    rw [hrun, pushBoolean, look_bind, boolean, hregisters, ← hok]
    by_cases hc : c <;> simp [hc]
  have hdivision : ∀ operation f, division operation f m =
      if b.val = 0 then .error (.divisionByZero operation) m₂
      else pushInteger operation (f a.val b.val) m₂ := by
    intro operation f
    refine (hoperands ..).trans ?_
    dsimp only
    split <;> rfl
  refine ⟨hgives _ _ fun _ => hoperands .., hgives _ _ fun _ => hoperands ..,
    hgives _ _ fun _ => hoperands .., fun hzero => ?_, fun hne => ?_,
    hbits _ _ _ (fun _ _ _ _ => BitVec.getLsbD_and) fun _ => hoperands ..,
    hbits _ _ _ (fun _ _ _ _ => BitVec.getLsbD_or) fun _ => hoperands ..,
    hbits _ _ _ (fun _ _ _ _ => BitVec.getLsbD_xor) fun _ => hoperands ..,
    htruth _ _ fun _ => hoperands .., htruth _ _ fun _ => hoperands ..⟩
  · exact ⟨fun _ => ⟨m₂, (hdivision ..).trans (if_pos hzero)⟩,
      fun _ => ⟨m₂, (hdivision ..).trans (if_pos hzero)⟩⟩
  · have htruncates := truncates_tdiv (a := a.val) hne
    exact ⟨_, _, htruncates, hgives _ _ fun _ => (hdivision ..).trans (if_neg hne),
      hgives _ _ fun _ => (hdivision ..).trans (if_neg hne), htruncates.inRange_iff,
      htruncates.inRange⟩

/-! ### A small machine -/

/-- Nil, a context that is its own stack, and an array. Both have five fields, and numbers in the
last two. -/
def overlaidWords : List UInt32 :=
  fieldWords [] ++
  fieldWords [0, numberWord 0, 12, numberWord 5, numberWord 4] ++
  fieldWords [0, 0, 0, numberWord 7, numberWord 2]

def overlaidRoots (stack context : UInt32) : List (Root × Value) :=
  [(.stack, .decode stack), (.activeContext, .decode context)]

/-- A machine with five operands in the object at `stack`. -/
def overlaidMachine (stack context : UInt32) : Machine :=
  { memory := .ofWords {} overlaidWords
    registers := .ofList (overlaidRoots stack context)
    sp := 5 }

theorem wellFormed_overlaidMachine {stack context : UInt32}
    (hroots : ∀ p ∈ overlaidRoots stack context, IsAmong [0, 12, 44] p.2) :
    (overlaidMachine stack context).WellFormed := by
  have hlaid : (ofWords {} overlaidWords).LaidOut [0, 12, 44] := by decide +kernel
  exact LaidOut.wellFormed_machine hlaid (by decide) _ rfl hroots

/-- Seven and two are divided. -/
theorem integer_primitives_exact_overlaidMachine :
    (overlaidMachine 44 12).Operating ∧ (overlaidMachine 44 12).peek 1 = .ok (.ofByte 7) ∧
      (overlaidMachine 44 12).peek 0 = .ok (.ofByte 2) ∧
      (overlaidMachine 44 12).Replaces .quotient (.ofByte 3) ∧
      (overlaidMachine 44 12).Replaces .remainder (.ofByte 1) := by
  have hm : (overlaidMachine 44 12).Operating :=
    ⟨wellFormed_overlaidMachine (by decide +kernel), by decide +kernel, .ofByte 5,
      by decide +kernel⟩
  have hseven : (overlaidMachine 44 12).peek 1 = .ok (.ofByte 7) := by decide +kernel
  have htwo : (overlaidMachine 44 12).peek 0 = .ok (.ofByte 2) := by decide +kernel
  obtain ⟨-, -, -, -, hdivides, -⟩ := integer_primitives_exact _ _ _ hm hseven htwo
  obtain ⟨q, r, htruncates, hq, hr, hrange, hrange'⟩ := hdivides (by decide)
  obtain ⟨k, hk, hquotient⟩ := hq.1 (hrange.2 (by decide))
  obtain ⟨l, hl, hremainder⟩ := hr.1 hrange'
  have hexact : (7 : Int) = 2 * q + r := htruncates.exact
  have hsmall : r.natAbs < 2 := htruncates.small
  have hsign : r = 0 ∨ 0 < r := htruncates.sign.imp_right Int.sign_eq_one_iff_pos.1
  have hrone : r = 1 := by omega
  obtain rfl : k = .ofByte 3 := SmallInt.ext (hk.trans (by show q = 3; omega))
  obtain rfl : l = .ofByte 1 := SmallInt.ext (hl.trans hrone)
  exact ⟨hm, hseven, htwo, hquotient, hremainder⟩

/-- A context that is its own stack adds five and four to four, for the number of its operands lies
where the result goes. A context without a place for that number adds nothing. -/
theorem add_on_overlaid_context :
    (∃ m m₁ : Machine, m.WellFormed ∧
      m.indexField (m.registers.get .activeContext) Context.sp = .ok m.sp ∧
      m.peek 1 = .ok (.ofByte 5) ∧ m.peek 0 = .ok (.ofByte 4) ∧
      runPrimitive 2 .add m = .ok () m₁ ∧ m₁.peek 0 = .ok (.ofByte 4)) ∧
    ∃ m : Machine, m.WellFormed ∧ m.registers.get .stack ≠ m.registers.get .activeContext ∧
      m.peek 1 = .ok (.ofByte 7) ∧ m.peek 0 = .ok (.ofByte 2) ∧
      ∃ m₁, runPrimitive 2 .add m = .error (.indexOutOfRange "setPtr" 3 0) m₁ := by
  refine ⟨⟨overlaidMachine 12 12, _, wellFormed_overlaidMachine ?_, ?_, ?_, ?_,
    eq_ok_of_answerOf (a := ()) ?_, ?_⟩, overlaidMachine 44 0,
    wellFormed_overlaidMachine ?_, ?_, ?_, ?_, _, eq_error_of_errorOf ?_⟩ <;>
  decide +kernel

end Smalltalk
