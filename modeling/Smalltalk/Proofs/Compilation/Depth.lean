import Smalltalk.Method.Draft
import Mathlib.Tactic.Common

/-!
# How deep the operand stack is

Code is run with operand stacks of a fixed size: that of a method is declared with the method, that
of a block by the instruction that makes the block. Whether they are large enough can be told from
the code alone, if every instruction has one depth at which it is always reached. `Draft.Depths`
says what it takes for numbers to be these depths.

Depths are given to a piece of code at a time. `d.Flows room a b i k` says that the instructions
from `i` up to `k` take a stack of `a` operands to one of `b`, and that `room` places are enough on
the way. It is built instruction by instruction, except that a block is passed over in one step: its
body runs in a frame of its own, with its own room, and begins with the arguments of the block. The
depths of the pieces are put together in the same way.

## Main definitions

* `Draft.RoomIn`: the size of the stack that an instruction runs with
* `Draft.Depths`: the depths of all instructions
* `Draft.Flows`: what a piece of code does to the depth

## Main results

* `Draft.Flows.depths`: code that flows from its beginning to a return has depths
-/

namespace Smalltalk

namespace Instruction

/-- How many operands the instruction finds on the stack. -/
def operands : Instruction → Nat
  | .dup => 1
  | .drop => 1
  | .returnMethod => 1
  | .returnBlock => 1
  | .storeGlobal _ => 1
  | .storeInstance _ => 1
  | .storeTemp _ => 1
  | .send argc _ => argc.toNat + 1
  | .sendSuper argc _ => argc.toNat + 1
  | .primitive argc _ => argc.toNat
  | _ => 0

/-- The instruction leaves the frame. -/
def isReturn : Instruction → Bool
  | .returnMethod => true
  | .returnBlock => true
  | _ => false

/-- The instruction behind this one is the next. -/
def goesOn : Instruction → Bool
  | .returnMethod => false
  | .returnBlock => false
  | .jump _ => false
  | _ => true

/-- The instruction neither leaves the frame nor belongs to a block that is passed over. -/
def isPlain : Instruction → Bool
  | .returnMethod => false
  | .returnBlock => false
  | .pushBlock _ _ => false
  | .jump _ => false
  | _ => true

theorem operands_of_isReturn {ins : Instruction} (h : ins.isReturn) :
    ins.operands = 1 ∧ ins.goesOn = false ∧ ins.stackEffect = -1 := by
  cases ins with
  | returnMethod => exact ⟨rfl, rfl, rfl⟩
  | returnBlock => exact ⟨rfl, rfl, rfl⟩
  | _ => cases h

end Instruction

namespace Draft

variable (d : Draft)

/-- The instruction at `i` is in the body of the block that is made at `p`, and the stack of the
block has `room` places. -/
def Encloses (p room i : Nat) : Prop :=
  ∃ argc size target, d.code[p]? = some (.pushBlock argc size) ∧
    d.code[p + 1]? = some (.jump target) ∧ p + 2 ≤ i ∧ i < target.toNat ∧ room = size.toNat

/-- The size of the stack that the instruction at `i` runs with: that of the innermost block around
it, and `outer` if there is none. Blocks that are made before `first` do not count. -/
inductive RoomIn (first outer i : Nat) : Nat → Prop
  | outer (hnone : ∀ p room, first ≤ p → ¬ d.Encloses p room i) : RoomIn first outer i outer
  | block {p room : Nat} (hp : first ≤ p) (henc : d.Encloses p room i)
    (hinner : ∀ q room', first ≤ q → d.Encloses q room' i → q ≤ p) : RoomIn first outer i room

/-- The depths are right at the instruction `ins` at position `i`. The code is looked at from
`first` on, and its jumps go to `last` at most. -/
structure DepthAt (depth : Nat → Nat) (first last outer i : Nat) (ins : Instruction) : Prop where
  /-- The operands are there. -/
  operands : ins.operands ≤ depth i
  /-- A return finds nothing but what it returns. -/
  returns : ins.isReturn → depth i = 1
  follows : ins.goesOn → (depth (i + 1) : Int) = depth i + ins.stackEffect
  /-- The body of a block begins with the arguments, behind the jump that passes over it. -/
  body : ∀ argc size, ins = .pushBlock argc size → depth (i + 2) = argc.toNat ∧
    ∃ target, d.code[i + 1]? = some (.jump target) ∧ i + 2 < target.toNat ∧ target.toNat ≤ last
  /-- Only blocks are jumped over, and the depth stays. -/
  jumps : ∀ target, ins = .jump target → depth target.toNat = depth i ∧
    ∃ p argc size, first ≤ p ∧ i = p + 1 ∧ d.code[p]? = some (.pushBlock argc size)
  /-- There is room before and after. -/
  fits : ∃ room, d.RoomIn first outer i room ∧ depth i ≤ room ∧ depth i + ins.stackEffect ≤ room

/-- Each instruction has a depth at which it is always reached, which begins at zero and never
exceeds the size of the stack. -/
structure Depths (depth : Nat → Nat) : Prop where
  start : depth 0 = 0
  at_instruction : ∀ i ins, d.code[i]? = some ins →
    d.DepthAt depth 0 (d.code.size - 1) d.stackSize i ins

/-- The instructions from `i` up to `k` take a stack of `a` operands to one of `b`, in a frame with
`room` places. -/
inductive Flows : (room a b i k : Nat) → Prop
  | nil {room a i : Nat} : Flows room a a i i
  | step {room a c b i k : Nat} {ins : Instruction} (hi : d.code[i]? = some ins)
    (hplain : ins.isPlain) (hneeds : ins.operands ≤ a) (hc : (c : Int) = a + ins.stackEffect)
    (ha : a ≤ room) (hroom : c ≤ room) (hmore : Flows room c b (i + 1) k) : Flows room a b i k
  | answer {room b i k : Nat} {ins : Instruction} (hi : d.code[i]? = some ins)
    (hreturn : ins.isReturn) (hroom : 1 ≤ room) (hmore : Flows room 0 b (i + 1) k) :
    Flows room 1 b i k
  /-- The body of a block ends in a return, behind which the code goes on. -/
  | block {room a b i l k : Nat} {argc : UInt8} {size target : UInt16} {ins : Instruction}
    (hi : d.code[i]? = some (.pushBlock argc size)) (hnext : d.code[i + 1]? = some (.jump target))
    (htarget : target.toNat = l + 1) (hbody : Flows size.toNat argc.toNat 1 (i + 2) l)
    (hl : d.code[l]? = some ins) (hreturn : ins.isReturn) (hsize : 1 ≤ size.toNat)
    (hroom : a + 1 ≤ room) (hmore : Flows room (a + 1) b (l + 1) k) : Flows room a b i k

variable {d}

/-! ## Rooms -/

section Rooms

variable {first first' outer room i : Nat}

/-- Looking at more of the code makes no difference if no block there has the instruction. -/
theorem RoomIn.widen (h : d.RoomIn first outer i room) (hle : first' ≤ first)
    (hnone : ∀ p room', first' ≤ p → p < first → ¬ d.Encloses p room' i) :
    d.RoomIn first' outer i room := by
  have hfrom : ∀ p room', first' ≤ p → d.Encloses p room' i → first ≤ p := fun p room' hp henc =>
    Nat.le_of_not_lt fun hlt => hnone p room' hp hlt henc
  cases h with
  | outer h => exact .outer fun p room' hp henc => h p room' (hfrom p room' hp henc) henc
  | block hp henc hinner =>
    exact .block (Nat.le_trans hle hp) henc fun q room' hq hencq =>
      hinner q room' (hfrom q room' hq hencq) hencq

/-- If nothing inside a block has the instruction, the block does. -/
theorem RoomIn.enclosed {p size : Nat} (h : d.RoomIn first size i room) (hp : first' ≤ p)
    (hle : p < first) (henc : d.Encloses p size i)
    (hnone : ∀ q room', p < q → q < first → ¬ d.Encloses q room' i) :
    d.RoomIn first' outer i room := by
  cases h with
  | outer h =>
    refine .block hp henc fun q room' _ hencq => Nat.le_of_not_lt fun hlt => ?_
    by_cases hq : q < first
    · exact hnone q room' hlt hq hencq
    · exact h q room' (by omega) hencq
  | @block p' _ hp' henc' hinner =>
    refine .block (by omega) henc' fun q room' _ hencq => ?_
    by_cases hq : q < first
    · omega
    · exact hinner q room' (by omega) hencq

/-- No block that is made from an instruction on has the instruction in its body. -/
theorem RoomIn.at_first : d.RoomIn first outer first outer :=
  .outer fun _ _ hp ⟨_, _, _, _, _, hin, _⟩ => by omega

/-- An instruction that makes no block has nothing in its body. -/
theorem not_encloses {p : Nat} {ins : Instruction} (hi : d.code[p]? = some ins)
    (hplain : ∀ argc size, ins ≠ .pushBlock argc size) : ¬ d.Encloses p room i := by
  rintro ⟨argc, size, _, hblock, -⟩
  rw [hi] at hblock
  exact hplain argc size (Option.some.inj hblock)

theorem ne_of_isReturn {ins : Instruction} (h : ins.isReturn) (argc : UInt8) (size : UInt16) :
    ins ≠ .pushBlock argc size := by
  rintro rfl
  cases h

theorem ne_of_isPlain {ins : Instruction} (h : ins.isPlain) (argc : UInt8) (size : UInt16) :
    ins ≠ .pushBlock argc size := by
  rintro rfl
  cases h

end Rooms

/-! ## Putting depths together -/

namespace DepthAt

variable {depth depth' : Nat → Nat} {first last outer i : Nat} {ins : Instruction}

/-- What is looked at lies between the instruction and the end of the piece. -/
theorem congr (h : d.DepthAt depth first last outer i ins) (hi : i < last)
    (hsame : ∀ x, i ≤ x → x ≤ last → depth' x = depth x)
    (hjump : ∀ target, ins = .jump target → i ≤ target.toNat ∧ target.toNat ≤ last) :
    d.DepthAt depth' first last outer i ins := by
  have hat : depth' i = depth i := hsame i (Nat.le_refl i) (Nat.le_of_lt hi)
  constructor
  case operands => rw [hat]; exact h.operands
  case returns => rw [hat]; exact h.returns
  case follows =>
    intro hgoes
    rw [hat, hsame (i + 1) (by omega) (by omega)]
    exact h.follows hgoes
  case body =>
    intro argc size hins
    obtain ⟨hargs, target, hnext, hlow, hhigh⟩ := h.body argc size hins
    rw [hsame (i + 2) (by omega) (by omega)]
    exact ⟨hargs, target, hnext, hlow, hhigh⟩
  case jumps =>
    intro target hins
    obtain ⟨hlow, hhigh⟩ := hjump target hins
    rw [hat, hsame _ hlow hhigh]
    exact h.jumps target hins
  case fits => rw [hat]; exact h.fits

/-- The same in a larger piece of code, where the instruction has the same room. -/
theorem widen {first' last' outer' : Nat} (h : d.DepthAt depth first last outer i ins)
    (hfirst : first' ≤ first) (hlast : last ≤ last')
    (hroom : ∀ room, d.RoomIn first outer i room → d.RoomIn first' outer' i room) :
    d.DepthAt depth first' last' outer' i ins where
  operands := h.operands
  returns := h.returns
  follows := h.follows
  body := fun argc size hins => by
    obtain ⟨hargs, target, hnext, hlow, hhigh⟩ := h.body argc size hins
    exact ⟨hargs, target, hnext, hlow, Nat.le_trans hhigh hlast⟩
  jumps := fun target hins => by
    obtain ⟨hsame, p, argc, size, hp, hat, hblock⟩ := h.jumps target hins
    exact ⟨hsame, p, argc, size, Nat.le_trans hfirst hp, hat, hblock⟩
  fits := by
    obtain ⟨room, hin, hbefore, hafter⟩ := h.fits
    exact ⟨room, hroom room hin, hbefore, hafter⟩

/-- A return is right where there is nothing but what it returns. -/
theorem of_isReturn {room : Nat} (hreturn : ins.isReturn) (hone : depth i = 1)
    (hin : d.RoomIn first outer i room) (hroom : 1 ≤ room) :
    d.DepthAt depth first last outer i ins := by
  obtain ⟨hneeds, hgoes, heffect⟩ := Instruction.operands_of_isReturn hreturn
  exact
    { operands := by omega
      returns := fun _ => hone
      follows := fun h => by rw [hgoes] at h; cases h
      body := fun argc size heq => absurd heq (ne_of_isReturn hreturn argc size)
      jumps := fun target heq => by rw [heq] at hreturn; cases hreturn
      fits := ⟨room, hin, by omega, by omega⟩ }

end DepthAt

/-- The depths are right everywhere in a piece of code. -/
def DepthsOn (d : Draft) (depth : Nat → Nat) (room i k : Nat) : Prop :=
  ∀ x ins, i ≤ x → x < k → d.code[x]? = some ins → d.DepthAt depth i k room x ins

namespace DepthsOn

variable {depth depth' : Nat → Nat} {room i k : Nat}

/-- Where the jumps of a piece of code go. -/
theorem target_le (h : d.DepthsOn depth room i k) {x : Nat} {target : UInt16} (hx : i ≤ x)
    (hlt : x < k) (hjump : d.code[x]? = some (.jump target)) :
    x ≤ target.toNat ∧ target.toNat ≤ k := by
  obtain ⟨-, p, argc, size, hp, rfl, hblock⟩ := (h x _ hx hlt hjump).jumps target rfl
  obtain ⟨-, target', hnext, hlow, hhigh⟩ := (h p _ hp (by omega) hblock).body argc size rfl
  rw [hjump] at hnext
  cases hnext
  exact ⟨by omega, hhigh⟩

theorem congr (h : d.DepthsOn depth room i k) (hsame : ∀ x, i ≤ x → x ≤ k → depth' x = depth x) :
    d.DepthsOn depth' room i k := by
  intro x ins hx hlt hins
  refine (h x ins hx hlt hins).congr hlt (fun y hy hle => hsame y (by omega) hle) ?_
  rintro target rfl
  exact h.target_le hx hlt hins

/-- Blocks that are made in a piece of code end in it. -/
theorem not_encloses (h : d.DepthsOn depth room i k) {p room' x : Nat} (hp : i ≤ p) (hlt : p < k)
    (hx : k ≤ x) : ¬ d.Encloses p room' x := by
  rintro ⟨argc, size, target, hblock, hnext, -, hin, -⟩
  obtain ⟨-, target', hnext', -, hhigh⟩ := (h p _ hp hlt hblock).body argc size rfl
  rw [hnext] at hnext'
  cases hnext'
  omega

/-- One instruction in front. -/
theorem cons {ins : Instruction} (h : d.DepthsOn depth room (i + 1) k) (hle : i + 1 ≤ k)
    (hi : d.code[i]? = some ins) (hplain : ∀ argc size, ins ≠ .pushBlock argc size)
    (hat : d.DepthAt depth i k room i ins) : d.DepthsOn depth room i k := by
  intro x ins' hx hlt hins
  by_cases heq : x = i
  · subst heq
    rw [hi] at hins
    cases hins
    exact hat
  · refine (h x ins' (by omega) hlt hins).widen (Nat.le_succ i) (Nat.le_refl k) fun room' hin => ?_
    refine hin.widen (Nat.le_succ i) fun p room' hp hlt' => ?_
    obtain rfl : p = i := by omega
    exact Draft.not_encloses hi hplain

/-- A block in front: its body, and what comes behind it. -/
theorem block {l : Nat} {argc : UInt8} {size target : UInt16} {ins : Instruction}
    (hbody : d.DepthsOn depth size.toNat (i + 2) l) (hmore : d.DepthsOn depth room (l + 1) k)
    (hlow : i + 2 ≤ l) (hle : l + 1 ≤ k) (hi : d.code[i]? = some (.pushBlock argc size))
    (hnext : d.code[i + 1]? = some (.jump target)) (htarget : target.toNat = l + 1)
    (hl : d.code[l]? = some ins) (hreturn : ins.isReturn)
    (hfirst : depth (i + 1) = depth i + 1) (hargs : depth (i + 2) = argc.toNat)
    (hone : depth l = 1) (hbehind : depth (l + 1) = depth i + 1) (hsize : 1 ≤ size.toNat)
    (hroom : depth i + 1 ≤ room) : d.DepthsOn depth room i k := by
  have hjump : ∀ room' x, ¬ d.Encloses (i + 1) room' x := fun room' x =>
    Draft.not_encloses hnext fun _ _ => nofun
  have hin : ∀ x, i + 2 ≤ x → x ≤ l → d.Encloses i size.toNat x := fun x hx hxl =>
    ⟨argc, size, target, hi, hnext, hx, by omega, rfl⟩
  -- the two instructions of the block are in the frame that makes it
  have hhere : ∀ x, x < i + 2 → d.RoomIn i room x room := fun x hx => .outer fun p room' hp => by
    rintro ⟨_, _, _, -, -, hin, -⟩
    omega
  intro x ins' hx hlt hins
  by_cases hxi : x = i
  · subst hxi
    rw [hi] at hins
    cases hins
    exact
      { operands := Nat.zero_le _
        returns := nofun
        follows := fun _ => by rw [hfirst]; rfl
        body := by
          intro argc' size' heq
          cases heq
          exact ⟨hargs, target, hnext, by omega, by omega⟩
        jumps := nofun
        fits := ⟨room, hhere x (by omega), by omega,
          by simp only [Instruction.stackEffect]; omega⟩ }
  by_cases hxj : x = i + 1
  · subst hxj
    rw [hnext] at hins
    cases hins
    exact
      { operands := Nat.zero_le _
        returns := nofun
        follows := nofun
        body := nofun
        jumps := by
          intro target' heq
          cases heq
          exact ⟨by rw [htarget, hbehind, hfirst], i, argc, size, Nat.le_refl i, rfl, hi⟩
        fits := ⟨room, hhere (i + 1) (by omega), by omega,
          by simp only [Instruction.stackEffect]; omega⟩ }
  by_cases hxl : x < l
  · refine (hbody x ins' (by omega) hxl hins).widen (by omega) (by omega) fun room' hroom' => ?_
    refine hroom'.enclosed (Nat.le_refl i) (by omega) (hin x (by omega) (by omega)) ?_
    intro q room'' hq hq'
    obtain rfl : q = i + 1 := by omega
    exact hjump room'' x
  by_cases hxeq : x = l
  · subst hxeq
    rw [hl] at hins
    cases hins
    refine .of_isReturn hreturn hone ?_ hsize
    refine .block (Nat.le_refl i) (hin x (by omega) (Nat.le_refl x)) fun q room' _ hencq => ?_
    refine Nat.le_of_not_lt fun hq => ?_
    by_cases hqx : q < x
    · by_cases hqi : q = i + 1
      · exact hjump room' x (hqi ▸ hencq)
      · exact hbody.not_encloses (by omega) hqx (Nat.le_refl x) hencq
    · obtain ⟨_, _, _, -, -, hin', -⟩ := hencq
      omega
  · -- behind the block, which has ended
    refine (hmore x ins' (by omega) hlt hins).widen (by omega) (Nat.le_refl k)
      fun room' hroom' => ?_
    refine hroom'.widen (by omega) fun p room'' hp hp' henc => ?_
    by_cases hpi : p = i
    · subst hpi
      obtain ⟨_, _, target', -, hnext', -, hin', -⟩ := henc
      rw [hnext] at hnext'
      cases hnext'
      omega
    by_cases hpj : p = i + 1
    · exact hjump room'' x (hpj ▸ henc)
    by_cases hpl : p = l
    · subst hpl
      exact Draft.not_encloses hl (ne_of_isReturn hreturn) henc
    · exact hbody.not_encloses (by omega) (by omega) (by omega) henc

end DepthsOn

/-! ## The depths of a piece of code -/

namespace Flows

variable {room a b c i j k : Nat}

theorem le (h : d.Flows room a b i k) : i ≤ k := by
  induction h with
  | nil => exact Nat.le_refl _
  | step _ _ _ _ _ _ _ ih => omega
  | answer _ _ _ _ ih => omega
  | block _ _ _ _ _ _ _ _ _ ihbody ih => omega

/-- **Code that flows has depths**, from the one it starts with to the one it ends with. -/
theorem exists_depth (h : d.Flows room a b i k) :
    ∃ depth, depth i = a ∧ depth k = b ∧ d.DepthsOn depth room i k := by
  induction h with
  | @nil room a i => exact ⟨fun _ => a, rfl, rfl, fun x ins hx hlt => absurd hlt (by omega)⟩
  | @step room a c b i k ins hi hplain hneeds hc ha hroom hmore ih =>
    obtain ⟨depth, hstart, hend, hon⟩ := ih
    have hle := hmore.le
    have hat : ∀ x, i + 1 ≤ x → Function.update depth i a x = depth x :=
      fun x hx => Function.update_of_ne (by omega) _ _
    have hself : Function.update depth i a i = a := Function.update_self _ _ _
    refine ⟨Function.update depth i a, hself, by rw [hat k hle, hend], ?_⟩
    refine (hon.congr fun x hx _ => hat x hx).cons hle hi (ne_of_isPlain hplain) ?_
    exact
      { operands := by rw [hself]; exact hneeds
        returns := fun hreturn => by
          cases ins with
          | returnMethod => cases hplain
          | returnBlock => cases hplain
          | _ => cases hreturn
        follows := fun _ => by rw [hself, hat _ (Nat.le_refl _), hstart, hc]
        body := fun argc size heq => absurd heq (ne_of_isPlain hplain argc size)
        jumps := fun target heq => by rw [heq] at hplain; cases hplain
        fits := ⟨room, .at_first, by omega, by omega⟩ }
  | @answer room b i k ins hi hreturn hroom hmore ih =>
    obtain ⟨depth, -, hend, hon⟩ := ih
    have hle := hmore.le
    have hat : ∀ x, i + 1 ≤ x → Function.update depth i 1 x = depth x :=
      fun x hx => Function.update_of_ne (by omega) _ _
    have hself : Function.update depth i 1 i = 1 := Function.update_self _ _ _
    refine ⟨Function.update depth i 1, hself, by rw [hat k hle, hend], ?_⟩
    refine (hon.congr fun x hx _ => hat x hx).cons hle hi (ne_of_isReturn hreturn) ?_
    exact .of_isReturn hreturn hself .at_first hroom
  | @block room a b i l k argc size target ins hi hnext htarget hbody hl hreturn hsize hroom hmore
      ihbody ih =>
    obtain ⟨inner, hargs, hone, honBody⟩ := ihbody
    obtain ⟨depth, hbehind, hend, hon⟩ := ih
    have hlow := hbody.le
    have hle := hmore.le
    -- the two instructions of the block, its body with the return at its end, and the rest
    let whole : Nat → Nat := fun x =>
      if x = i then a else if x = i + 1 then a + 1 else if x ≤ l then inner x else depth x
    have hbodyAt : ∀ x, i + 2 ≤ x → x ≤ l → whole x = inner x := fun x hx hxl => by
      simp only [whole]
      rw [if_neg (by omega), if_neg (by omega), if_pos hxl]
    have hrestAt : ∀ x, l + 1 ≤ x → whole x = depth x := fun x hx => by
      simp only [whole]
      rw [if_neg (by omega), if_neg (by omega), if_neg (by omega)]
    have hfirst : whole i = a := if_pos rfl
    have hsecond : whole (i + 1) = a + 1 := by
      simp only [whole]
      rw [if_neg (by omega), if_pos trivial]
    refine ⟨whole, hfirst, by rw [hrestAt k hle, hend], ?_⟩
    refine DepthsOn.block (honBody.congr hbodyAt) (hon.congr fun x hx _ => hrestAt x hx) hlow hle hi
      hnext htarget hl hreturn (by rw [hsecond, hfirst]) ?_ ?_ ?_ hsize
      (by rw [hfirst]; exact hroom)
    · rw [hbodyAt _ (Nat.le_refl _) hlow, hargs]
    · rw [hbodyAt _ hlow (Nat.le_refl _), hone]
    · rw [hrestAt _ (Nat.le_refl _), hbehind, hfirst]

/-- **Code that flows from its beginning to a return has depths.** -/
theorem depths {l : Nat} {ins : Instruction} (h : d.Flows d.stackSize 0 1 0 l)
    (hl : d.code[l]? = some ins) (hreturn : ins.isReturn) (hroom : 1 ≤ d.stackSize)
    (hsize : d.code.size = l + 1) : ∃ depth, d.Depths depth := by
  obtain ⟨depth, hstart, hend, hon⟩ := h.exists_depth
  refine ⟨depth, hstart, fun i ins' hi => ?_⟩
  have hlast : d.code.size - 1 = l := by omega
  have hlt : i < d.code.size := (Array.getElem?_eq_some_iff.1 hi).1
  rw [hlast]
  by_cases hil : i < l
  · exact hon i ins' (Nat.zero_le i) hil hi
  · obtain rfl : i = l := by omega
    rw [hl] at hi
    cases hi
    refine .of_isReturn hreturn hend (.outer fun p room _ henc => ?_) hroom
    have hp : p < i := by
      obtain ⟨_, _, _, -, -, hin, -⟩ := henc
      omega
    exact hon.not_encloses (Nat.zero_le p) hp (Nat.le_refl i) henc

end Flows

end Draft

end Smalltalk
