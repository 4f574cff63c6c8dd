import Smalltalk.Proofs.Calling
import Smalltalk.Proofs.Compilation.Frames

/-!
# Frames on the machine

A configuration says how far the code of a frame has come. Here it is tied to the machine, where all
that the code can name is in a register or in a field of some object, and so are the literals and
the operands. As long as no two of them are the same field, an instruction that stays in the frame
does to the machine what it does to the configuration.

Nothing is said here of instructions that send, return, call a primitive or make a block. What they
do elsewhere is not in the frame, and what comes back is the oracle's.

## Main definitions

* `FrameSlot`, `Machine.slot`: what a frame has to do with, and the fields that have it
* `Machine.Runs`: the machine runs the code of a frame and has come as far

## Main results

* `Machine.HasFrame.store`: one field is stored to, and the others stay
* `Machine.Runs.step`, `Machine.Runs.steps`: what the machine does is what the frame does
-/

namespace Smalltalk

open Memory Machine Layout

/-- The instruction has to do with nothing but its frame. -/
def Instruction.isLocal : Instruction → Bool
  | .send _ _ | .sendSuper _ _ | .primitive _ _ | .pushBlock _ _ | .returnMethod
  | .returnBlock => false
  | _ => true

/-- The register that has the value of a place. -/
def Place.register : Place → Option Root
  | .receiver => some .receiver
  | .nil => some .nil
  | .true => some .true
  | .false => some .false
  | _ => none

/-- What a frame has to do with. Operands are counted from the bottom. -/
inductive FrameSlot where
  | place (p : Place)
  | literal (index : Nat)
  | operand (index : Nat)
  | ip
  | sp

/-- What a slot is to have. -/
def Config.Shows (d : Draft) (a : Activation Value) (c : Config Value) : FrameSlot → Value → Prop
  | .place p, v => a.value c.history.vars p = v
  | .literal i, v => ∀ entry, d.literals[i]? = some entry → a.literal entry = v
  | .operand i, v => ∀ w, c.stack.reverse[i]? = some w → w = v
  | _, _ => True

namespace Machine

/-- The field of a slot. -/
def slot (m : Machine) (a : Activation Value) : FrameSlot → Option (Value × Nat)
  | .place (.temp slot) => some (m.registers.get .temps, slot)
  | .place (.arg index) => some (m.registers.get .args, index)
  | .place (.instanceVariable index) => some (m.registers.get .receiver, index)
  | .place (.global name) => some (a.literal (.global name), Link.value)
  | .place _ => none
  | .literal index => some (m.registers.get .literals, index)
  | .operand index => some (m.registers.get .stack, index)
  | .ip => some (m.registers.get .activeContext, Context.ip)
  | .sp => some (m.registers.get .activeContext, Context.sp)

/-- The machine has the frame. Slots are different fields, but an object without fields may stand
for several arrays. -/
structure HasFrame (d : Draft) (a : Activation Value) (c : Config Value) (m : Machine) : Prop where
  wellFormed : m.WellFormed
  constants : ∀ vars p r, Place.register p = some r → a.value vars p = m.registers.get r
  code : ∀ i ins, d.code[i]? = some ins →
    m.memory.getWord (m.registers.get .code) i = .ok ins.encode
  held : ∀ entry, m.memory.Holds (a.literal entry)
  shows : ∀ s f v, m.slot a s = some f → m.memory.getPtr f.1 f.2 = .ok v → c.Shows d a s v
  unshared : ∀ s t f, m.slot a s = some f → m.slot a t = some f → s = t ∨ m.memory.size f.1 = .ok 0

/-- **The machine runs the code of a frame** and has come as far as the configuration says. -/
structure Runs (d : Draft) (a : Activation Value) (c : Config Value) (m : Machine) : Prop extends
    HasFrame d a c m where
  ip : m.ip = c.ip
  sp : m.sp = c.stack.length

variable {d : Draft} {a : Activation Value} {o : Oracle Value} {c c' : Config Value}
  {m m₁ m₂ : Machine} {v : Value} {s : FrameSlot} {p : Place} {f : Value × Nat} {ins : Instruction}

namespace HasFrame

theorem holds_slot (h : m.HasFrame d a c) (hs : m.slot a s = some f) : m.memory.Holds f.1 := by
  have hget := h.wellFormed.registers.get
  cases s with
  | place p =>
    cases p <;> cases hs
    exacts [hget .temps, hget .args, hget .receiver, h.held _]
  | _ =>
    cases hs
    exact hget _

/-- Only memory, registers, operands and variables matter. -/
theorem congr (h : m.HasFrame d a c) (hmemory : m₁.memory = m.memory)
    (hregisters : m₁.registers = m.registers) (hstack : c'.stack = c.stack)
    (hhistory : c'.history = c.history) : m₁.HasFrame d a c' := by
  have hslot : m₁.slot a = m.slot a := by
    funext s
    unfold slot
    rw [hregisters]
  have hshows : c'.Shows d a = c.Shows d a := by
    funext s
    unfold Config.Shows
    rw [hstack, hhistory]
  have hm := h.wellFormed
  constructor
  case wellFormed => exact ⟨hmemory ▸ hm.memory, hmemory ▸ hregisters ▸ hm.registers⟩
  case constants => exact hregisters ▸ h.constants
  case code => exact hmemory ▸ hregisters ▸ h.code
  case held => exact hmemory ▸ h.held
  case shows => exact hmemory ▸ hslot ▸ hshows ▸ h.shows
  case unshared => exact hmemory ▸ hslot ▸ h.unshared

/-- **One field is stored to.** The other slots have what they had. -/
theorem store (h : m.HasFrame d a c) (hs : m.slot a s = some f) (hv : m.memory.Holds v)
    (hset : setPtr f.1 f.2 v m = .ok () m₁)
    (hothers : ∀ t w, t ≠ s → c.Shows d a t w → c'.Shows d a t w) (hshow : c'.Shows d a s v) :
    m₁.HasFrame d a c' ∧ ∀ u, m.memory.Holds u → m₁.memory.Holds u := by
  have hm := h.wellFormed
  have he : m.Edits (fun _ _ => True) [] m.memory.unmoved m₁ :=
    (Edits.refl hm).setPtr (h.holds_slot hs) hv hset fun _ _ _ _ => trivial
  have hget := fun {u} => getPtr_after_setPtr hm (h.holds_slot hs) hv hset (u := u)
  obtain ⟨memory, hstore, rfl⟩ := setPtr_eq_ok hset
  have hsome : m.memory.size f.1 ≠ .ok 0 := by
    obtain ⟨b, hb, -, hi, hs, -⟩ := stored_setPtr hm.memory (h.holds_slot hs) hstore
    rw [hb, size_ref_of_mem hm.memory hs.mem]
    exact fun hc => absurd (Except.ok.inj hc) (by omega)
  refine ⟨?_, fun u hu => he.holds (.unmoved hu)⟩
  constructor
  case wellFormed => exact he.after
  case constants => exact h.constants
  case code =>
    exact fun i ins hins => he.getWord (.unmoved (hm.registers.get .code)) (h.code i ins hins)
  case held => exact fun entry => he.holds (.unmoved (h.held entry))
  case shows =>
    intro t g w ht hw
    have ht : m.slot a t = some g := ht
    rw [hget (h.holds_slot ht)] at hw
    by_cases hgf : g.1 = f.1 ∧ g.2 = f.2
    · obtain rfl : g = f := Prod.ext hgf.1 hgf.2
      rw [if_pos hgf] at hw
      rwa [(h.unshared t s g ht hs).resolve_right hsome, ← Except.ok.inj hw]
    · rw [if_neg hgf] at hw
      refine hothers t w ?_ (h.shows t g w ht hw)
      rintro rfl
      obtain rfl := Option.some.inj (ht.symm.trans hs)
      exact hgf ⟨rfl, rfl⟩
  case unshared =>
    intro t t' g ht ht'
    have hsize := he.length (.unmoved (h.holds_slot (s := t) (f := g) ht))
    exact (h.unshared t t' g ht ht').imp_right (hsize.trans ·)

end HasFrame

namespace Runs

/-- Operands have been stored, and their number is recorded. -/
theorem storeSp (h : m.HasFrame d a c) {operation : String} (hrun : storeSp operation m = .ok () m₁)
    (hip : m.ip = c.ip) (hsp : m.sp = c.stack.length) :
    m₁.Runs d a c ∧ ∀ u, m.memory.Holds u → m₁.memory.Holds u := by
  obtain ⟨w, hw, hset⟩ := read_bind_eq_ok hrun
  obtain ⟨n, rfl⟩ := smallValue_eq_ok hw
  obtain ⟨hframe, hheld⟩ := h.store (s := .sp) rfl (.small n) hset (fun _ _ _ => id) trivial
  obtain ⟨memory, -, rfl⟩ := setPtr_eq_ok hset
  exact ⟨⟨hframe, hip, hsp⟩, hheld⟩

theorem push (h : m.Runs d a c) (hv : m.memory.Holds v) (hrun : push v m = .ok () m₁) :
    m₁.Runs d a (c.push v) := by
  obtain ⟨memory, hset, hstore⟩ := push_eq_ok hrun
  have hsp : m.sp = c.stack.reverse.length := h.sp.trans List.length_reverse.symm
  have hthere : ∀ w, (c.push v).stack.reverse[m.sp]? = some w → w = v := by
    intro w hw
    rw [Config.push, List.reverse_cons, hsp, List.getElem?_concat_length] at hw
    exact (Option.some.inj hw).symm
  have hothers : ∀ t w, t ≠ .operand m.sp → c.Shows d a t w → (c.push v).Shows d a t w := by
    intro t w ht hw
    cases t with
    | operand i =>
      intro u hu
      have hi : i ≠ c.stack.reverse.length := fun hc => ht (congrArg _ (hc.trans hsp.symm))
      rw [Config.push, List.reverse_cons, List.getElem?_append] at hu
      split at hu
      · exact hw u hu
      · rw [List.getElem?_eq_none (by simp only [List.length_singleton]; omega)] at hu
        cases hu
    | _ => exact hw
  obtain ⟨hframe, -⟩ := h.store rfl hv (setPtr_of_eq_ok hset) hothers hthere
  have hframe : HasFrame d a (c.push v) { m with memory, sp := m.sp + 1 } :=
    hframe.congr rfl rfl rfl rfl
  exact (storeSp hframe hstore h.ip (congrArg (· + 1) h.sp)).1

/-- What is read from the top of the stack is an operand. -/
theorem operand (h : m.Runs d a c) {i : Nat} (hi : m.sp = i + 1)
    (hv : m.memory.getPtr (m.registers.get .stack) i = .ok v) :
    ∃ rest, c.stack = v :: rest ∧ rest.length = i ∧ m.memory.Holds v := by
  have hshows := h.shows (.operand i) _ v rfl hv
  have hsp := h.sp
  cases hstack : c.stack with
  | nil =>
    rw [hstack, hi] at hsp
    cases hsp
  | cons w rest =>
    rw [hstack, hi, List.length_cons] at hsp
    obtain rfl := Nat.succ.inj hsp
    obtain rfl : w = v := hshows w (by
      rw [hstack, List.reverse_cons, ← List.length_reverse, List.getElem?_concat_length])
    exact ⟨rest, rfl, rfl, (h.wellFormed.memory.holds_getPtr
      (h.wellFormed.registers.get .stack) hv).2⟩

theorem pop (h : m.Runs d a c) (hrun : pop m = .ok v m₁) :
    ∃ rest, c.stack = v :: rest ∧ m₁.Runs d a ⟨c.ip, rest, c.history⟩ ∧ m₁.memory.Holds v := by
  obtain ⟨k, memory, hk, hv, hset, hstore⟩ := pop_eq_ok hrun
  obtain ⟨rest, hstack, rfl, hheld⟩ := h.operand hk hv
  have hgone : ∀ w, rest.reverse[rest.length]? = some w → w = m.nil := by
    intro w hw
    rw [← List.length_reverse, List.getElem?_eq_none (Nat.le_refl _)] at hw
    cases hw
  have hothers : ∀ t w, t ≠ .operand rest.length → c.Shows d a t w →
      Config.Shows d a ⟨c.ip, rest, c.history⟩ t w := by
    intro t w _ hw
    cases t with
    | operand i =>
      intro u hu
      refine hw u ?_
      rw [hstack, List.reverse_cons, List.getElem?_append_left (List.getElem?_eq_some_iff.1 hu).1]
      exact hu
    | _ => exact hw
  obtain ⟨hframe, hkept⟩ :=
    h.store rfl (h.wellFormed.registers.get .nil) (setPtr_of_eq_ok hset) hothers hgone
  have hframe : HasFrame d a ⟨c.ip, rest, c.history⟩ { m with memory, sp := rest.length } :=
    hframe.congr rfl rfl rfl rfl
  obtain ⟨hruns, hkept'⟩ := storeSp hframe hstore h.ip rfl
  exact ⟨rest, hstack, hruns, hkept' v (hkept v hheld)⟩

/-- The instruction pointer is moved. -/
theorem setIp (h : m.Runs d a c) {operation : String} {k : Nat}
    (hrun : setIp operation k m = .ok () m₁) : m₁.Runs d a { c with ip := k } := by
  rw [Machine.setIp, modify_bind, register_bind] at hrun
  obtain ⟨w, hw, hset⟩ := read_bind_eq_ok hrun
  obtain ⟨n, rfl⟩ := smallValue_eq_ok hw
  have hframe : HasFrame d a { c with ip := k } { m with ip := k } := h.congr rfl rfl rfl rfl
  obtain ⟨hframe, -⟩ := hframe.store (s := .ip) rfl (.small n) hset (fun _ _ _ => id) trivial
  obtain ⟨memory, -, rfl⟩ := setPtr_eq_ok hset
  exact ⟨hframe, rfl, h.sp⟩

/-- An assignment gives a variable its value, and no other place. -/
theorem value_set (hp : Place.register p = none) (harg : ∀ i, p ≠ .arg i) (vars : Variables Value)
    (q : Place) : a.value (vars.set p v) q = if q = p then v else a.value vars q := by
  cases p with
  | temp | instanceVariable | global =>
    cases q <;> simp [Variables.set, Activation.value, Function.update_apply]
  | arg i => exact absurd rfl (harg i)
  | _ => cases hp

/-- **A variable is assigned to.** -/
theorem assign (h : m.Runs d a c) (hs : m.slot a (.place p) = some f) (hv : m.memory.Holds v)
    (hset : setPtr f.1 f.2 v m = .ok () m₁) (hp : Place.register p = none)
    (harg : ∀ i, p ≠ .arg i) :
    m₁.Runs d a { c with history := c.history.assign p v } := by
  have hothers : ∀ t w, t ≠ .place p → c.Shows d a t w →
      Config.Shows d a { c with history := c.history.assign p v } t w := by
    intro t w ht hw
    cases t with
    | place q =>
      exact (value_set hp harg _ q).trans ((if_neg fun hq => ht (congrArg _ hq)).trans hw)
    | _ => exact hw
  obtain ⟨hframe, -⟩ := h.store hs hv hset hothers ((value_set hp harg _ p).trans (if_pos rfl))
  obtain ⟨memory, -, rfl⟩ := setPtr_eq_ok hset
  exact ⟨hframe, h.ip, h.sp⟩

/-- The value of a place is pushed. -/
theorem pushPlace (h : m.Runs d a c) (hs : m.slot a (.place p) = some f)
    (hrun : (getPtr f.1 f.2 >>= Machine.push) m = .ok () m₁) :
    m₁.Runs d a (c.push (a.value c.history.vars p)) := by
  obtain ⟨v, hv, hpush⟩ := read_bind_eq_ok hrun
  obtain rfl := h.shows _ f v hs hv
  exact h.push (h.wellFormed.memory.holds_getPtr (h.holds_slot hs) hv).2 hpush

/-- An operand is popped and assigned to a variable. -/
theorem storePlace (h : m.Runs d a c) {act : Value → Exec Unit}
    (hnext : (c.pop fun v c => .goesOn { c with history := c.history.assign p v }) = .goesOn c')
    (hrun : (Machine.pop >>= act) m = .ok () m₁)
    (hact : ∀ v c₂ m₂, m₂.Runs d a c₂ → act v m₂ = .ok () m₁ →
      ∃ f, m₂.slot a (.place p) = some f ∧ setPtr f.1 f.2 v m₂ = .ok () m₁)
    (hp : Place.register p = none) (harg : ∀ i, p ≠ .arg i) : m₁.Runs d a c' := by
  obtain ⟨v, m₂, hpop, hrun⟩ := bind_eq_ok hrun
  obtain ⟨rest, hstack, hruns, hheld⟩ := h.pop hpop
  rw [Config.pop, hstack] at hnext
  cases hnext
  obtain ⟨f, hf, hset⟩ := hact v _ m₂ hruns hrun
  exact hruns.assign hf hheld hset hp harg

theorem literalAt (h : m.Runs d a c) {index : UInt16} {entry : LiteralEntry}
    {act : Value → Exec Unit} (hentry : d.literals[index.toNat]? = some entry)
    (hrun : (literalAt index >>= act) m = .ok () m₁) : act (a.literal entry) m = .ok () m₁ := by
  obtain ⟨v, hv, hact⟩ := literalAt_bind_eq_ok hrun
  rwa [h.shows (.literal index.toNat) _ v rfl hv entry hentry]

theorem literal_of_globalName? {index : UInt16} {name : String}
    (h : d.globalName? index = some name) : d.literals[index.toNat]? = some (.global name) := by
  unfold Draft.globalName? at h
  split at h
  · cases h
    assumption
  · cases h

/-- **An instruction that stays in the frame** does to the machine what it does to the frame. -/
theorem execute (h : m.Runs d a c) (hlocal : ins.isLocal) (hnext : d.execute a o ins c = .goesOn c')
    (hrun : Machine.execute ins m = .ok () m₁) : m₁.Runs d a c' := by
  have hm := h.wellFormed
  have hregister : ∀ p {r}, Place.register p = some r →
      Machine.push (m.registers.get r) m = .ok () m₁ →
      m₁.Runs d a (c.push (a.value c.history.vars p)) := fun p _ hp hpush =>
    h.constants _ p _ hp ▸ h.push (hm.registers.get _) hpush
  cases ins with
  | send | sendSuper | primitive | pushBlock | returnMethod | returnBlock => cases hlocal
  | nop =>
    cases hnext
    cases hrun
    exact h
  | pushSelf =>
    cases hnext
    exact hregister .receiver rfl hrun
  | pushNil =>
    cases hnext
    exact hregister .nil rfl hrun
  | pushTrue =>
    cases hnext
    exact hregister .true rfl hrun
  | pushFalse =>
    cases hnext
    exact hregister .false rfl hrun
  | dup =>
    obtain ⟨v, hv, hpush⟩ := read_bind_eq_ok hrun
    obtain ⟨k, hk, hget⟩ := peek_succ hv
    obtain ⟨rest, hstack, -, hheld⟩ := h.operand hk hget
    have hruns := h.push hheld hpush
    rw [Draft.execute, Config.pop, hstack] at hnext
    rw [Config.push, hstack] at hruns
    cases hnext
    exact hruns
  | drop =>
    obtain ⟨v, hpop⟩ := discard_eq_ok hrun
    obtain ⟨rest, hstack, hruns, -⟩ := h.pop hpop
    rw [Draft.execute, Config.pop, hstack] at hnext
    cases hnext
    exact hruns
  | pushConst index =>
    rw [Draft.execute] at hnext
    split at hnext
    · rename_i entry hentry
      cases hnext
      exact h.push (h.held entry) (h.literalAt hentry hrun)
    · cases hnext
  | pushGlobal index =>
    rw [Draft.execute] at hnext
    split at hnext
    · rename_i name hname
      cases hnext
      exact h.pushPlace (p := .global name) rfl (h.literalAt (literal_of_globalName? hname) hrun)
    · cases hnext
  | storeGlobal index =>
    rw [Draft.execute] at hnext
    split at hnext
    · rename_i name hname
      exact h.storePlace hnext hrun (fun v c₂ m₂ h₂ hact =>
        ⟨_, rfl, h₂.literalAt (literal_of_globalName? hname) hact⟩) rfl (by simp)
    · cases hnext
  | pushInstance index =>
    cases hnext
    exact h.pushPlace (p := .instanceVariable index.toNat) rfl hrun
  | storeInstance index =>
    exact h.storePlace hnext hrun (fun _ _ _ _ hact => ⟨_, rfl, hact⟩) rfl (by simp)
  | pushArg index =>
    cases hnext
    exact h.pushPlace (p := .arg index.toNat) rfl hrun
  | pushTemp index =>
    cases hnext
    exact h.pushPlace (p := .temp index.toNat) rfl hrun
  | storeTemp index =>
    exact h.storePlace hnext hrun (fun _ _ _ _ hact => ⟨_, rfl, hact⟩) rfl (by simp)
  | jump target =>
    cases hnext
    exact h.setIp hrun

/-- The instruction that is fetched is that of the draft. -/
theorem fetch (h : m.Runs d a c) (hins : d.code[c.ip]? = some ins) {i : Instruction}
    (hrun : fetch m = .ok i m₁) : i = ins ∧ m₁.Runs d a { c with ip := c.ip + 1 } := by
  obtain ⟨word, m₂, hword, hdecode, hset, hmemory, hregisters, hsp, hip⟩ := fetch_eq_ok hrun
  have hruns := h.setIp hset
  rw [h.ip] at hruns hword
  obtain rfl := Except.ok.inj ((h.code c.ip ins hins).symm.trans hword)
  refine ⟨Except.ok.inj (hdecode.symm.trans (Instruction.decode_encode ins)), ?_⟩
  exact ⟨hruns.congr hmemory hregisters rfl rfl, hip.trans hruns.ip, hsp.trans hruns.sp⟩

/-- **A step of the machine is a step of the frame**, if neither fails. -/
theorem step (h : m.Runs d a c) (hins : d.code[c.ip]? = some ins) (hlocal : ins.isLocal)
    (hnext : d.next a o c = .goesOn c') (hrun : step m = .ok () m₁) : m₁.Runs d a c' := by
  obtain ⟨i, m₂, hfetch, hexecute⟩ := bind_eq_ok hrun
  obtain ⟨rfl, hruns⟩ := h.fetch hins hfetch
  rw [Draft.next_eq hins] at hnext
  exact hruns.execute hlocal hnext hexecute

end Runs

/-- The frame takes a step that stays in it, and so does the machine. -/
def StepBoth (d : Draft) (a : Activation Value) (o : Oracle Value) (x y : Config Value × Machine) :
    Prop :=
  ∃ ins, d.code[x.1.ip]? = some ins ∧ ins.isLocal ∧ d.next a o x.1 = .goesOn y.1 ∧
    step x.2 = .ok () y.2

/-- **As long as code stays in its frame**, the machine does what the frame does. -/
theorem Runs.steps {x y : Config Value × Machine} (h : x.2.Runs d a x.1)
    (hsteps : Relation.ReflTransGen (StepBoth d a o) x y) : y.2.Runs d a y.1 := by
  induction hsteps with
  | refl => exact h
  | tail _ hstep ih =>
    obtain ⟨ins, hins, hlocal, hnext, hrun⟩ := hstep
    exact ih.step hins hlocal hnext hrun

/-! ### A small frame -/

namespace SmallFrame

/-- Nil is pushed. -/
def draft : Draft := ⟨"n", #[.pushNil], #[], 0, 0, 1⟩

/-- Everything is nil. -/
def activation : Activation Value :=
  ⟨.zeroRef, .zeroRef, .zeroRef, .zeroRef, fun _ => .zeroRef, fun _ => .zeroRef⟩

def allNil : Variables Value := ⟨fun _ => .zeroRef, fun _ => .zeroRef, fun _ => .zeroRef⟩

/-- Nil, the code, room for one operand, and a context. -/
def machine : Machine :=
  { memory := .ofWords {} (fieldWords [] ++
      [0, 0, SizeWord.make 1 .words, Instruction.encode .pushNil] ++ fieldWords [0] ++
      fieldWords (List.replicate MethodContext.size 0))
    registers := .ofList [(.code, .decode 12), (.stack, .decode 28), (.activeContext, .decode 44)] }

theorem runs : machine.Runs draft activation ⟨0, [], ⟨allNil, []⟩⟩ := by
  have hlaid : machine.memory.LaidOut [0, 12, 28, 44] := by decide +kernel
  have hm : machine.WellFormed :=
    hlaid.wellFormed_machine (by decide) _ rfl (by decide +kernel)
  have hnil : machine.memory.size .zeroRef = .ok 0 := by decide +kernel
  have hfail : ∀ i v, machine.memory.getPtr .zeroRef i ≠ .ok v := by
    intro i v hv
    obtain ⟨b, hb, hmem, -, hi, -⟩ := getPtr_eq_ok hm.memory (hm.registers.get .nil) hv
    have hsize : machine.memory.size .zeroRef = _ := hb ▸ size_ref_of_mem hm.memory hmem
    rw [← Except.ok.inj (hnil.symm.trans hsize)] at hi
    omega
  have hslot : ∀ s f, machine.slot activation s = some f → f.1 = .zeroRef ∨ s =
      if f.1 = .decode 28 then .operand f.2 else if f.2 = Context.ip then .ip else .sp := by
    have hstack : machine.registers.get .stack = .decode 28 := rfl
    have hcontext : machine.registers.get .activeContext ≠ .decode 28 := by decide +kernel
    intro s f hs
    rcases s with (_ | _) | _ | _ | _ | _ <;> cases hs
    case operand i => exact .inr (if_pos hstack).symm
    case ip => exact .inr (by rw [if_neg hcontext, if_pos rfl])
    case sp => exact .inr (by rw [if_neg hcontext, if_neg (by decide)])
    all_goals exact .inl rfl
  refine ⟨⟨hm, ?_, ?_, fun _ => hm.registers.get .nil, ?_, ?_⟩, rfl, rfl⟩
  · intro vars p r hp
    cases p <;> cases hp <;> rfl
  · intro i ins hins
    obtain ⟨hi, rfl⟩ := Array.getElem?_eq_some_iff.1 hins
    obtain rfl : i = 0 := Nat.lt_one_iff.1 hi
    exact (by decide +kernel : machine.memory.getWord (machine.registers.get .code) 0 =
      .ok (Instruction.encode .pushNil))
  · intro s f v hs hv
    cases s with
    | place p => cases p <;> cases hs <;> exact absurd hv (hfail _ v)
    | literal i | operand i =>
      intro _ h
      cases h
    | ip | sp => trivial
  · intro s t f hs ht
    rcases hslot s f hs with h | h
    · exact .inr (h ▸ hnil)
    · rcases hslot t f ht with h' | h'
      · exact .inr (h' ▸ hnil)
      · exact .inl (h.trans h'.symm)

/-- The machine takes the step of the frame. -/
theorem runs_after : ∃ m₁, step machine = .ok () m₁ ∧
    m₁.Runs draft activation ⟨1, [.zeroRef], ⟨allNil, []⟩⟩ := by
  have hrun := eq_ok_of_answerOf (by decide +kernel : answerOf (step machine) = some ())
  exact ⟨_, hrun, runs.step (o := fun _ => ⟨.zeroRef, allNil⟩) rfl rfl rfl hrun⟩

end SmallFrame

end Machine

end Smalltalk
