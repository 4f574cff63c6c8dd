import Mathlib
import Smalltalk.Proofs.Compilation.Emission
import Smalltalk.Proofs.Compilation.Frames

/-!
# Compiled methods mean what their trees mean

Running the code of a method does, one after the other, what evaluating its tree does, and ends with
the same answer, whatever the oracle says.

The blocks that the code creates are not the blocks that the evaluation creates: a `CodeSite` is a
position in the code, a `BlockSite` a piece of the tree. That they agree means that running one and
evaluating the other, on the same arguments, does the same things again, blocks that these create
included. So agreement is given by a relation between the two kinds that is kept by running, and the
relation here is `Draft.Blocks`: the code at the position follows the intents of the piece of the
tree.

The argument is over the intents that the code follows and never looks at how it was emitted. The
code of an expression runs from its first position to its last, above whatever operands there are,
and leaves there the value of the expression or, if it is not needed, nothing.

## Main definitions

* `History.Matches`: two histories are the same up to what is known of blocks
* `Draft.Does`: running code ends as an evaluation does

## Main results

* `Draft.carries_expr`: the code of an expression
* `Draft.Blocks.does`, `Draft.MethodCode.does`: the code of blocks and methods
* `compilation_preserves_meaning`: the code that a method is compiled to
-/

namespace Smalltalk

variable {V : Type}

/-! ## Histories -/

/-- The same action, with blocks that agree. -/
inductive Action.Matches (B : CodeSite → BlockSite → Prop) :
    Action V CodeSite → Action V BlockSite → Prop
  | send (toSuper : Bool) (selector : String) (receiver : V) (args : List V) :
    Matches B (.send toSuper selector receiver args) (.send toSuper selector receiver args)
  | primitive (number : UInt16) (args : List V) :
    Matches B (.primitive number args) (.primitive number args)
  | store (place : Place) (value : V) : Matches B (.store place value) (.store place value)
  | block {c : CodeSite} {b : BlockSite} (h : B c b) : Matches B (.block c) (.block b)

/-- The same variables after the same actions, with blocks that agree. -/
structure History.Matches (B : CodeSite → BlockSite → Prop) (h : History V CodeSite)
    (h' : History V BlockSite) : Prop where
  vars : h.vars = h'.vars
  actions : List.Forall₂ (Action.Matches B) h.actions h'.actions

namespace History.Matches

variable {B : CodeSite → BlockSite → Prop} {h : History V CodeSite} {h' : History V BlockSite}

theorem actions_append (hm : h.Matches B h') {x : Action V CodeSite} {x' : Action V BlockSite}
    (hx : Action.Matches B x x') :
    List.Forall₂ (Action.Matches B) (h.actions ++ [x]) (h'.actions ++ [x']) :=
  List.rel_append hm.actions (.cons hx .nil)

theorem assign (hm : h.Matches B h') (place : Place) (v : V) :
    (h.assign place v).Matches B (h'.assign place v) :=
  ⟨congrArg (·.set place v) hm.vars, hm.actions_append (.store place v)⟩

theorem perform (hm : h.Matches B h') (o : Oracle V) {x : Action V CodeSite}
    {x' : Action V BlockSite} (hx : Action.Matches B x x') :
    (h.perform o x).1 = (h'.perform o x').1 ∧ (h.perform o x).2.Matches B (h'.perform o x').2 := by
  have hlength : h.actions.length = h'.actions.length := hm.actions.length_eq
  refine ⟨congrArg (fun n => (o n).value) hlength, ?_, hm.actions_append hx⟩
  exact congrArg (fun n => (o n).vars) hlength

theorem create (hm : h.Matches B h') (o : Oracle V) {c : CodeSite} {b : BlockSite} (hb : B c b) :
    (h.create o c).1 = (h'.create o b).1 ∧ (h.create o c).2.Matches B (h'.create o b).2 :=
  ⟨congrArg (fun n => (o n).value) hm.actions.length_eq, hm.vars,
    hm.actions_append (.block hb)⟩

end History.Matches

/-! ## Instructions -/

namespace Draft

variable {d : Draft} {a : Activation V} {o : Oracle V}

/-- The operands with a value on top, if it is needed. -/
def keep (needed : Bool) (v : V) (stack : List V) : List V := if needed then v :: stack else stack

theorem Reaches.step {i : Nat} {ins : Instruction} {stack : List V} {h : History V CodeSite}
    {c : Config V} (hi : d.code[i]? = some ins)
    (hexec : d.execute a o ins ⟨i + 1, stack, h⟩ = .goesOn c) : d.Reaches a o ⟨i, stack, h⟩ c :=
  .of_next ((next_eq hi).trans hexec)

theorem globalName?_eq {index : UInt16} {name : String}
    (h : d.literals[index.toNat]? = some (.global name)) : d.globalName? index = some name := by
  rw [globalName?, h]

theorem Pushes.reaches {i : Nat} {ins : Instruction} {place : Place} (hp : d.Pushes ins place)
    (hi : d.code[i]? = some ins) (stack : List V) (h : History V CodeSite) :
    d.Reaches a o ⟨i, stack, h⟩ ⟨i + 1, a.value h.vars place :: stack, h⟩ := by
  refine .step hi ?_
  cases hp with
  | global hentry =>
    rw [execute, globalName?_eq hentry]
    rfl
  | _ => rfl

theorem Stores.reaches {i : Nat} {ins : Instruction} {place : Place} (hs : d.Stores ins place)
    (hi : d.code[i]? = some ins) (v : V) (stack : List V) (h : History V CodeSite) :
    d.Reaches a o ⟨i, v :: stack, h⟩ ⟨i + 1, stack, h.assign place v⟩ := by
  refine .step hi ?_
  cases hs with
  | global hentry =>
    rw [execute, globalName?_eq hentry]
    rfl
  | _ => rfl

theorem reaches_drop {needed : Bool} {i k : Nat}
    (hd : d.Follows (intentIf (.plain .drop) (!needed)) i k) (v : V) (stack : List V)
    (h : History V CodeSite) : d.Reaches a o ⟨i, v :: stack, h⟩ ⟨k, keep needed v stack, h⟩ := by
  cases needed with
  | true =>
    obtain rfl := follows_nil.1 hd
    exact .refl _
  | false =>
    obtain ⟨⟨_, hi, ⟨⟩⟩, rfl⟩ := follows_singleton.1 hd
    exact .step hi rfl

theorem reaches_dup {needed : Bool} {i k : Nat} (hd : d.Follows (intentIf (.plain .dup) needed) i k)
    (v : V) (stack : List V) (h : History V CodeSite) :
    d.Reaches a o ⟨i, v :: stack, h⟩ ⟨k, v :: keep needed v stack, h⟩ := by
  cases needed with
  | true =>
    obtain ⟨⟨_, hi, ⟨⟩⟩, rfl⟩ := follows_singleton.1 hd
    exact .step hi rfl
  | false =>
    obtain rfl := follows_nil.1 hd
    exact .refl _

/-! ## Expressions -/

/-- The code from `i` up to `k` is that of a block: it stores the arguments and goes through the
statements. -/
structure BlockCode (d : Draft) (b : BlockSite) (i k : Nat) : Prop where
  proper : b.block.Proper
  follows : d.Follows (b.block.inner b.scoping b.next) i k

/-- The code at the position is that of the block. -/
def Blocks (d : Draft) (c : CodeSite) (b : BlockSite) : Prop :=
  c.argc = b.block.params.length ∧ ∃ k, d.BlockCode b c.start k

/-- The code gets to a position with some operands, having done what an evaluation has. -/
def Carries (d : Draft) (a : Activation V) (o : Oracle V) (c : Config V) (ip : Nat)
    (stack : List V) (h' : History V BlockSite) : Prop :=
  ∃ h, d.Reaches a o c ⟨ip, stack, h⟩ ∧ h.Matches d.Blocks h'

theorem Carries.bind {c : Config V} {ip ip' : Nat} {stack stack' : List V}
    {h₁ h₂ : History V BlockSite} (hc : d.Carries a o c ip stack h₁)
    (hk : ∀ h, h.Matches d.Blocks h₁ → d.Carries a o ⟨ip, stack, h⟩ ip' stack' h₂) :
    d.Carries a o c ip' stack' h₂ := by
  obtain ⟨h, hr, hm⟩ := hc
  obtain ⟨h', hr', hm'⟩ := hk h hm
  exact ⟨h', hr.trans hr', hm'⟩

/-- Instructions follow that do nothing but move operands. -/
theorem Carries.moves {c : Config V} {ip ip' : Nat} {stack stack' : List V}
    {h' : History V BlockSite} (hc : d.Carries a o c ip stack h')
    (hk : ∀ h, d.Reaches a o ⟨ip, stack, h⟩ ⟨ip', stack', h⟩) : d.Carries a o c ip' stack' h' :=
  hc.bind fun h hm => ⟨h, hk h, hm⟩

theorem length_evalExprs (s : Scoping) (next : Nat) (es : List Expr) (h : History V BlockSite) :
    (evalExprs a o s next es h).1.length = es.length := by
  induction es generalizing next h with
  | nil => rfl
  | cons e es ih =>
    simp only [evalExprs, List.length_cons]
    rw [ih]

/-- A message is sent when its arguments are on the stack above its receiver. -/
theorem carries_sendMessage {i index argc : Nat} {toSuper : Bool} {selector : String}
    {ins : Instruction} {receiver : V} {args stack : List V} {h : History V CodeSite}
    {h' : History V BlockSite} (hm : h.Matches d.Blocks h') (hi : d.code[i]? = some ins)
    (hins : ∀ c, d.execute a o ins c = d.sendMessage o toSuper argc index c)
    (hentry : d.literals[index]? = some (.selector selector)) (hargc : argc = args.length) :
    d.Carries a o ⟨i, args.reverse ++ receiver :: stack, h⟩ (i + 1)
      ((h'.perform o (.send toSuper selector receiver args)).1 :: stack)
      (h'.perform o (.send toSuper selector receiver args)).2 := by
  obtain ⟨hvalue, hm'⟩ := hm.perform o (.send toSuper selector receiver args)
  rw [← hvalue]
  refine ⟨_, .step hi ?_, hm'⟩
  have hlength : args.reverse.length = argc := by rw [List.length_reverse, hargc]
  rw [hins, sendMessage, hentry]
  dsimp only
  rw [List.drop_left' hlength, List.take_left' hlength, List.reverse_reverse]

theorem carries_primitive {i : Nat} {argc : UInt8} {number : UInt16} {args stack : List V}
    {h : History V CodeSite} {h' : History V BlockSite} (hm : h.Matches d.Blocks h')
    (hi : d.code[i]? = some (.primitive argc number)) (hargc : argc.toNat = args.length) :
    d.Carries a o ⟨i, args.reverse ++ stack, h⟩ (i + 1)
      ((h'.perform o (.primitive number args)).1 :: stack)
      (h'.perform o (.primitive number args)).2 := by
  obtain ⟨hvalue, hm'⟩ := hm.perform o (.primitive number args)
  rw [← hvalue]
  refine ⟨_, .step hi ?_, hm'⟩
  have hlength : args.reverse.length = argc.toNat := by rw [List.length_reverse, hargc]
  have hle : argc.toNat ≤ (args.reverse ++ stack).length := by
    rw [List.length_append, hlength]
    omega
  rw [execute]
  dsimp only
  rw [if_pos hle, List.drop_left' hlength, List.take_left' hlength, List.reverse_reverse]

/-- A block is created, and its body is jumped over. -/
theorem carries_block {i k : Nat} {argc : UInt8} {stackSize target : UInt16} {b : BlockSite}
    {h : History V CodeSite} {h' : History V BlockSite} (hm : h.Matches d.Blocks h')
    (hi : d.code[i]? = some (.pushBlock argc stackSize))
    (hnext : d.code[i + 1]? = some (.jump target)) (htarget : target.toNat = k)
    (hb : d.Blocks ⟨argc.toNat, i + 2⟩ b) (stack : List V) :
    d.Carries a o ⟨i, stack, h⟩ k ((h'.create o b).1 :: stack) (h'.create o b).2 := by
  obtain ⟨hvalue, hm'⟩ := hm.create o hb
  rw [← hvalue, ← htarget]
  exact ⟨_, (Reaches.step hi rfl).trans (.step hnext rfl), hm'⟩

mutual

/-- **The code of an expression** leaves its value, if it is needed, having done what evaluating it
does. -/
theorem carries_expr {s : Scoping} {next i k : Nat} {needed : Bool} {e : Expr} (he : e.Proper)
    (hcode : d.Follows (e.intents s next needed) i k) (stack : List V) {h : History V CodeSite}
    {h' : History V BlockSite} (hm : h.Matches d.Blocks h') :
    d.Carries a o ⟨i, stack, h⟩ k (keep needed (evalExpr a o s next e h').1 stack)
      (evalExpr a o s next e h').2 := by
  cases e with
  | name name line =>
    cases needed with
    | false =>
      obtain rfl := follows_nil.1 hcode
      exact ⟨h, .refl _, hm⟩
    | true =>
      obtain ⟨⟨_, hi, hins⟩, rfl⟩ := follows_singleton.1 hcode
      cases hins with
      | push hpushes =>
        have hreaches := hpushes.reaches (a := a) (o := o) hi stack h
        rw [hm.vars] at hreaches
        exact ⟨h, hreaches, hm⟩
  | literal value line =>
    cases needed with
    | false =>
      obtain rfl := follows_nil.1 hcode
      exact ⟨h, .refl _, hm⟩
    | true =>
      obtain ⟨⟨_, hi, hins⟩, rfl⟩ := follows_singleton.1 hcode
      cases hins with
      | constant hentry =>
        refine ⟨h, .step hi ?_, hm⟩
        rw [execute, hentry]
        rfl
  | assign name value line =>
    simp only [Expr.intents, follows_append, follows_singleton] at hcode
    obtain ⟨_, ⟨_, hvalue, hdup⟩, ⟨_, hk, hins⟩, rfl⟩ := hcode
    have hproper : value.Proper := he
    refine (carries_expr hproper hvalue stack hm).bind fun h₁ hm₁ => ?_
    refine Carries.bind ⟨h₁, reaches_dup hdup _ stack h₁, hm₁⟩ fun h₂ hm₂ => ?_
    cases hins with
    | store hstores => exact ⟨_, hstores.reaches hk _ _ h₂, hm₂.assign _ _⟩
  | send receiver message =>
    simp only [Expr.intents, follows_append] at hcode
    obtain ⟨_, ⟨_, hreceiver, hmessage⟩, hdrop⟩ := hcode
    refine (carries_expr he.1 hreceiver stack hm).bind fun h₁ hm₁ => ?_
    exact (carries_message he.2 hmessage _ stack hm₁).moves fun h₂ => reaches_drop hdrop _ stack h₂
  | cascade receiver messages =>
    simp only [Expr.intents, follows_append] at hcode
    obtain ⟨_, hreceiver, hmessages⟩ := hcode
    refine (carries_expr he.1 hreceiver stack hm).bind fun h₁ hm₁ => ?_
    exact carries_cascade he.2.1 he.2.2 hmessages _ _ stack hm₁
  | block b =>
    simp only [Expr.intents, follows_append, b.intents_eq] at hcode
    obtain ⟨_, hblock, hdrop⟩ := hcode
    obtain ⟨argc, size, target, hi, hargc, -, hnext, htarget, hinner⟩ := follows_block hblock
    have hblocks : d.Blocks ⟨argc.toNat, i + 2⟩ ⟨b, s, next⟩ := ⟨hargc, _, he, hinner⟩
    exact (carries_block hm hi hnext htarget hblocks stack).moves fun h₂ =>
      reaches_drop hdrop _ stack h₂
  | primitive number args line =>
    simp only [Expr.intents, follows_append, follows_singleton] at hcode
    obtain ⟨_, ⟨_, hargs, ⟨_, hj, hins⟩, rfl⟩, hdrop⟩ := hcode
    obtain ⟨argc, rfl, hargc⟩ := hins.primitive_eq
    refine (carries_exprs he hargs stack hm).bind fun h₁ hm₁ => ?_
    refine (carries_primitive hm₁ hj ?_).moves fun h₂ => reaches_drop hdrop _ stack h₂
    rw [length_evalExprs, hargc]

theorem carries_exprs {s : Scoping} {next i k : Nat} {es : List Expr} (hes : ProperExprs es)
    (hcode : d.Follows (intentsOfExprs s next es) i k) (stack : List V) {h : History V CodeSite}
    {h' : History V BlockSite} (hm : h.Matches d.Blocks h') :
    d.Carries a o ⟨i, stack, h⟩ k ((evalExprs a o s next es h').1.reverse ++ stack)
      (evalExprs a o s next es h').2 := by
  cases es with
  | nil =>
    obtain rfl := follows_nil.1 hcode
    exact ⟨h, .refl _, hm⟩
  | cons e es =>
    obtain ⟨_, hfirst, hmore⟩ := follows_append.1 hcode
    refine (carries_expr hes.1 hfirst stack hm).bind fun h₁ hm₁ => ?_
    have hrest := carries_exprs hes.2 hmore ((evalExpr a o s next e h').1 :: stack) hm₁
    simp only [evalExprs, List.reverse_cons, List.append_assoc, List.cons_append,
      List.nil_append]
    exact hrest

theorem carries_message {s : Scoping} {next i k : Nat} {toSuper : Bool} {m : Message}
    (hproper : m.Proper) (hcode : d.Follows (m.intents s next toSuper) i k) (receiver : V)
    (stack : List V) {h : History V CodeSite} {h' : History V BlockSite}
    (hm : h.Matches d.Blocks h') :
    d.Carries a o ⟨i, receiver :: stack, h⟩ k
      ((evalMessage a o s next toSuper receiver m h').1 :: stack)
      (evalMessage a o s next toSuper receiver m h').2 := by
  obtain ⟨selector, args, line⟩ := m
  simp only [Message.intents, follows_append, follows_singleton] at hcode
  obtain ⟨_, hargs, ⟨_, hj, hins⟩, rfl⟩ := hcode
  obtain ⟨argc, index, hargc, hentry, rfl⟩ := hins.send_eq
  refine (carries_exprs hproper hargs (receiver :: stack) hm).bind fun h₁ hm₁ => ?_
  have hexec (c : Config V) :
      d.execute a o (if toSuper then .sendSuper argc index else .send argc index) c =
        d.sendMessage o toSuper argc.toNat index.toNat c := by cases toSuper <;> rfl
  refine carries_sendMessage hm₁ hj hexec hentry ?_
  rw [length_evalExprs, hargc]

theorem carries_cascade {s : Scoping} {next i k : Nat} {toSuper needed : Bool} {ms : List Message}
    (hne : ms ≠ []) (hms : ProperMessages ms)
    (hcode : d.Follows (intentsOfCascade s next toSuper needed ms) i k) (receiver answer : V)
    (stack : List V) {h : History V CodeSite} {h' : History V BlockSite}
    (hm : h.Matches d.Blocks h') :
    d.Carries a o ⟨i, receiver :: stack, h⟩ k
      (keep needed (evalCascade a o s next toSuper receiver answer ms h').1 stack)
      (evalCascade a o s next toSuper receiver answer ms h').2 := by
  cases ms with
  | nil => exact absurd rfl hne
  | cons m more =>
    cases more with
    | nil =>
      obtain ⟨_, hmessage, hdrop⟩ := follows_append.1 hcode
      exact (carries_message hms.1 hmessage receiver stack hm).moves fun h₁ =>
        reaches_drop hdrop _ stack h₁
    | cons m' more =>
      simp only [intentsOfCascade_cons_cons, follows_append, follows_cons] at hcode
      obtain ⟨⟨_, hi, ⟨⟩⟩, _, hmessage, ⟨_, hj, ⟨⟩⟩, hmore⟩ := hcode
      refine Carries.bind ⟨h, .step hi rfl, hm⟩ fun h₁ hm₁ => ?_
      refine (carries_message hms.1 hmessage receiver (receiver :: stack) hm₁).bind fun h₂ hm₂ => ?_
      refine Carries.bind ⟨h₂, .step hj rfl, hm₂⟩ fun h₃ hm₃ => ?_
      exact carries_cascade (List.cons_ne_nil _ _) hms.2 hmore receiver
        (evalMessage a o s next toSuper receiver m h').1 stack hm₃

end

/-! ## Statements -/

/-- Running the code ends as an evaluation does, having done the same. -/
def Does (d : Draft) (a : Activation V) (o : Oracle V) (B : CodeSite → BlockSite → Prop)
    (c : Config V) (r : Ending V × History V BlockSite) : Prop :=
  ∃ h, d.Finishes a o c r.1 h ∧ h.Matches B r.2

theorem Carries.does {c : Config V} {ip : Nat} {stack : List V} {h' : History V BlockSite}
    {r : Ending V × History V BlockSite} (hc : d.Carries a o c ip stack h')
    (hk : ∀ h, h.Matches d.Blocks h' → d.Does a o d.Blocks ⟨ip, stack, h⟩ r) :
    d.Does a o d.Blocks c r := by
  obtain ⟨h, hr, hm⟩ := hc
  obtain ⟨h₂, hf, hm₂⟩ := hk h hm
  exact ⟨h₂, hr.finishes hf, hm₂⟩

theorem does_returnMethod {i : Nat} {v : V} {stack : List V} {h : History V CodeSite}
    {h' : History V BlockSite} (hi : d.code[i]? = some .returnMethod)
    (hm : h.Matches d.Blocks h') : d.Does a o d.Blocks ⟨i, v :: stack, h⟩ (.returns v, h') :=
  ⟨h, ⟨_, .refl _, (next_eq hi).trans rfl⟩, hm⟩

theorem does_returnBlock {i : Nat} {v : V} {stack : List V} {h : History V CodeSite}
    {h' : History V BlockSite} (hi : d.code[i]? = some .returnBlock)
    (hm : h.Matches d.Blocks h') : d.Does a o d.Blocks ⟨i, v :: stack, h⟩ (.ends v, h') :=
  ⟨h, ⟨_, .refl _, (next_eq hi).trans rfl⟩, hm⟩

/-- The code of statements in a row. What follows them does not matter if the first is a return. -/
theorem does_statement {s : Scoping} {next i k : Nat} {st : Statement} (hst : st.Proper)
    (hcode : d.Follows (st.intents s next) i k) (value : V) (rest : List Statement) (stack : List V)
    {h : History V CodeSite} {h' : History V BlockSite} (hm : h.Matches d.Blocks h')
    {r : Ending V × History V BlockSite → Ending V × History V BlockSite}
    (hreturn : ∀ v h₁, r (.returns v, h₁) = (.returns v, h₁))
    (hrest : ∀ v h₁ h₁', h₁.Matches d.Blocks h₁' → d.Does a o d.Blocks ⟨k, stack, h₁⟩
      (r (evalStatements a o s (next + st.slots) v rest h₁'))) :
    d.Does a o d.Blocks ⟨i, stack, h⟩ (r (evalStatements a o s next value (st :: rest) h')) := by
  cases st with
  | evaluate e => exact (carries_expr hst hcode stack hm).does fun h₁ hm₁ => hrest _ h₁ _ hm₁
  | answer e =>
    simp only [Statement.intents, follows_append, follows_singleton] at hcode
    obtain ⟨_, hexpr, ⟨_, hk, ⟨⟩⟩, -⟩ := hcode
    refine (carries_expr hst hexpr stack hm).does fun h₁ hm₁ => ?_
    simp only [evalStatements]
    rw [hreturn]
    exact does_returnMethod hk hm₁

theorem does_body {s : Scoping} {next i k : Nat} {body : List Statement}
    (hbody : ProperStatements body) (hcode : d.Follows (intentsOfBody s next body) i k) {value : V}
    (hvalue : body = [] → value = a.nil) (stack : List V) {h : History V CodeSite}
    {h' : History V BlockSite} (hm : h.Matches d.Blocks h') :
    d.Does a o d.Blocks ⟨i, stack, h⟩ (evalStatements a o s next value body h') := by
  induction body generalizing next i value h h' with
  | nil =>
    obtain ⟨⟨_, hi, ⟨⟩⟩, hnext⟩ := follows_cons.1 hcode
    obtain ⟨⟨_, hnext, ⟨⟩⟩, -⟩ := follows_singleton.1 hnext
    rw [hvalue rfl]
    refine Carries.does ⟨h, .step hi rfl, hm⟩ fun h₁ hm₁ => ?_
    exact does_returnBlock hnext hm₁
  | cons st more ih =>
    cases more with
    | nil =>
      cases st with
      | answer e =>
        simp only [intentsOfBody, follows_append, follows_singleton] at hcode
        obtain ⟨_, hexpr, ⟨_, hk, ⟨⟩⟩, -⟩ := hcode
        exact (carries_expr hbody.1 hexpr stack hm).does fun h₁ hm₁ => does_returnMethod hk hm₁
      | evaluate e =>
        simp only [intentsOfBody, follows_append, follows_singleton] at hcode
        obtain ⟨_, hexpr, ⟨_, hk, ⟨⟩⟩, -⟩ := hcode
        exact (carries_expr hbody.1 hexpr stack hm).does fun h₁ hm₁ => does_returnBlock hk hm₁
    | cons st' more =>
      rw [intentsOfBody_cons_cons] at hcode
      obtain ⟨_, hstatement, hmore⟩ := follows_append.1 hcode
      exact does_statement hbody.1 hstatement value (st' :: more) stack hm (r := id)
        (fun _ _ => rfl)
        fun v h₁ h₁' hm₁ => ih hbody.2 hmore (absurd · (List.cons_ne_nil _ _)) hm₁

/-- The code from `i` up to `k` is that of the statements of a method. -/
structure MethodCode (d : Draft) (s : Scoping) (next : Nat) (needed : Bool) (body : List Statement)
    (i k : Nat) : Prop where
  proper : ProperStatements body
  follows : d.Follows (intentsOfMethod s next needed body) i k

theorem MethodCode.does {s : Scoping} {next i k : Nat} {needed : Bool} {body : List Statement}
    (hcode : d.MethodCode s next needed body i k) {value : V}
    (hvalue : body = [] → value = a.receiver) (stack : List V) {h : History V CodeSite}
    {h' : History V BlockSite} (hm : h.Matches d.Blocks h') :
    d.Does a o d.Blocks ⟨i, stack, h⟩
      (.returns ((evalStatements a o s next value body h').1.answer a.receiver needed),
        (evalStatements a o s next value body h').2) := by
  obtain ⟨hbody, hcode⟩ := hcode
  induction body generalizing next i value h h' with
  | nil =>
    obtain ⟨⟨_, hi, ⟨⟩⟩, hnext⟩ := follows_cons.1 hcode
    obtain ⟨⟨_, hnext, ⟨⟩⟩, -⟩ := follows_singleton.1 hnext
    rw [hvalue rfl]
    refine Carries.does ⟨h, .step hi rfl, hm⟩ fun h₁ hm₁ => ?_
    have hself : (evalStatements a o s next a.receiver [] h').1.answer a.receiver needed =
        a.receiver := by cases needed <;> rfl
    rw [hself]
    exact does_returnMethod hnext hm₁
  | cons st more ih =>
    cases more with
    | nil =>
      cases st with
      | answer e =>
        simp only [intentsOfMethod, follows_append, follows_singleton] at hcode
        obtain ⟨_, hexpr, ⟨_, hk, ⟨⟩⟩, -⟩ := hcode
        exact (carries_expr hbody.1 hexpr stack hm).does fun h₁ hm₁ => does_returnMethod hk hm₁
      | evaluate e =>
        simp only [intentsOfMethod, follows_append, follows_singleton] at hcode
        obtain ⟨_, ⟨_, hexpr, hself⟩, ⟨_, hk, ⟨⟩⟩, -⟩ := hcode
        refine (carries_expr hbody.1 hexpr stack hm).does fun h₁ hm₁ => ?_
        cases needed with
        | true =>
          obtain rfl := follows_nil.1 hself
          exact does_returnMethod hk hm₁
        | false =>
          obtain ⟨⟨_, hj, ⟨⟩⟩, rfl⟩ := follows_singleton.1 hself
          refine Carries.does ⟨h₁, .step hj rfl, hm₁⟩ fun h₂ hm₂ => ?_
          exact does_returnMethod hk hm₂
    | cons st' more =>
      rw [intentsOfMethod_cons_cons] at hcode
      obtain ⟨_, hstatement, hmore⟩ := follows_append.1 hcode
      exact does_statement hbody.1 hstatement value (st' :: more) stack hm
        (r := fun p => (.returns (p.1.answer a.receiver needed), p.2)) (fun _ _ => rfl)
        fun v h₁ h₁' hm₁ => ih (absurd · (List.cons_ne_nil _ _)) hm₁ hbody.2 hmore

/-! ## Blocks and methods -/

theorem carries_parameters {slot count i k : Nat}
    (hcode : d.Follows ((List.range' slot count).map fun slot => .store (.temp slot)) i k)
    {args : List V} (hargs : args.length = count) (stack : List V) {h : History V CodeSite}
    {h' : History V BlockSite} (hm : h.Matches d.Blocks h') :
    d.Carries a o ⟨i, args ++ stack, h⟩ k stack (h'.assignSlots slot args) := by
  induction count generalizing slot i args h h' with
  | zero =>
    obtain rfl := List.length_eq_zero_iff.1 hargs
    obtain rfl := follows_nil.1 hcode
    exact ⟨h, .refl _, hm⟩
  | succ count ih =>
    obtain ⟨v, args, rfl⟩ := List.exists_cons_of_length_eq_add_one hargs
    obtain ⟨⟨_, hi, hins⟩, hmore⟩ := follows_cons.1 hcode
    cases hins with
    | store hstores =>
      exact Carries.bind ⟨_, hstores.reaches hi v _ h, hm.assign _ v⟩ fun h₁ hm₁ =>
        ih hmore (Nat.succ.inj hargs) hm₁

/-- **The code of a block**, with its arguments on the stack, does what evaluating the block
does. -/
theorem Blocks.does {c : CodeSite} {b : BlockSite} (hb : d.Blocks c b) {args : List V}
    (hargs : args.length = c.argc) {h : History V CodeSite} {h' : History V BlockSite}
    (hm : h.Matches d.Blocks h') :
    d.Does a o d.Blocks ⟨c.start, args, h⟩ (b.eval a o args h') := by
  obtain ⟨hargc, k, hproper, hcode⟩ := hb
  obtain ⟨⟨params, temps, body, line⟩, s, next⟩ := b
  obtain ⟨_, hparams, hbody⟩ := follows_append.1 hcode
  have hcarries := carries_parameters (a := a) (o := o) hparams (hargs.trans hargc) [] hm
  rw [List.append_nil] at hcarries
  exact hcarries.does fun h₁ hm₁ => does_body hproper hbody (fun _ => rfl) [] hm₁

/-- The blocks that the relation pairs take as many arguments, and running the code of one does what
evaluating the other does, where blocks that are created are paired again. -/
def BlocksAgree (d : Draft) (B : CodeSite → BlockSite → Prop) : Prop :=
  ∀ c b, B c b → c.argc = b.block.params.length ∧
    ∀ (V : Type) (a : Activation V) (o : Oracle V) (args : List V) (h : History V CodeSite)
      (h' : History V BlockSite), args.length = c.argc → h.Matches B h' →
        d.Does a o B ⟨c.start, args, h⟩ (b.eval a o args h')

/-- **The code of a compiled method** is that of its tree. -/
theorem methodCode_ofTree {instanceVariables : List String} {isGlobal : String → Except Fault Bool}
    {tree : MethodTree} {valueNeeded : Bool} {d : Draft} (hargs : tree.args.length ≤ 65536)
    (hbody : ProperStatements tree.body)
    (h : Draft.ofTree instanceVariables isGlobal tree valueNeeded = .ok d) :
    ∃ k, d.MethodCode (Scoping.enter ⟨instanceVariables, tree.args, []⟩ 0 tree.temps)
      tree.temps.length valueNeeded tree.body 0 k := by
  have hfollows := follows_ofTree hbody h
  rw [MethodTree.map_truncated_intents hargs] at hfollows
  exact ⟨d.code.size, hbody, hfollows⟩

end Draft

/-- **Compiling a method preserves its meaning.** For every method that can be parsed, with at most
65536 arguments, all instance variables and globals, and whether or not the value of its last
statement is asked for: if the method is compiled, then its code, run in a frame, performs the same
messages, primitives, assignments and creations of blocks in the same order and with the same
operands as evaluating the tree, and returns the same answer, whatever others do in between. The
same holds of every block that is created, when it is activated. -/
theorem compilation_preserves_meaning {source : List UInt8} {tree : MethodTree}
    {instanceVariables : List String} {isGlobal : String → Except Fault Bool} {valueNeeded : Bool}
    {d : Draft} (hparse : MethodTree.ofSource source = .ok tree)
    (hargs : tree.args.length ≤ 65536)
    (hcompile : Draft.ofTree instanceVariables isGlobal tree valueNeeded = .ok d) :
    ∃ B : CodeSite → BlockSite → Prop, d.BlocksAgree B ∧
      ∀ (V : Type) (a : Activation V) (o : Oracle V) (h : History V CodeSite)
        (h' : History V BlockSite), h.Matches B h' →
          d.Does a o B ⟨0, [], h⟩
            (.returns (tree.eval a o instanceVariables valueNeeded h').1,
              (tree.eval a o instanceVariables valueNeeded h').2) := by
  obtain ⟨k, hcode⟩ :=
    Draft.methodCode_ofTree hargs (MethodTree.proper_ofSource hparse) hcompile
  refine ⟨d.Blocks, fun c b hb => ⟨hb.1, ?_⟩, ?_⟩
  · intro V a o args h h' hlength hm
    exact hb.does hlength hm
  · intro V a o h h' hm
    exact hcode.does (fun _ => rfl) [] hm

/-- The source of a method with a block that assigns to an instance variable, and with a cascade. -/
def raiseSource : List UInt8 :=
  "raise: x | up | up := [:y | n := y + x]. ^up value: 1; value: 2".toUTF8.toList

/-- The tree of this method. -/
def raiseTree : MethodTree where
  selector := "raise:"
  args := ["x"]
  temps := ["up"]
  body :=
    [.evaluate (.assign "up" (.block (.mk ["y"] []
        [.evaluate (.assign "n" (.send (.name "y" 1) (.mk "+" [.name "x" 1] 1)) 1)] 1)) 1),
      .answer (.cascade (.name "up" 1)
        [.mk "value:" [.literal (.integer 1) 1] 1, .mk "value:" [.literal (.integer 2) 1] 1])]

theorem ofSource_raiseSource : MethodTree.ofSource raiseSource = .ok raiseTree := by
  cbv

theorem ofTree_raiseTree :
    ∃ d, Draft.ofTree ["n"] (fun _ => .ok false) raiseTree false = .ok d := by
  have hok : (Draft.ofTree ["n"] (fun _ => .ok false) raiseTree false).isOk = true := by
    decide +kernel
  cases h : Draft.ofTree ["n"] (fun _ => .ok false) raiseTree false with
  | error err =>
    rw [h] at hok
    cases hok
  | ok d => exact ⟨d, rfl⟩

theorem compilation_preserves_meaning_raise :
    ∃ d, Draft.ofTree ["n"] (fun _ => .ok false) raiseTree false = .ok d ∧
      ∃ B : CodeSite → BlockSite → Prop, d.BlocksAgree B ∧
        ∀ (V : Type) (a : Activation V) (o : Oracle V) (h : History V CodeSite)
          (h' : History V BlockSite), h.Matches B h' →
            d.Does a o B ⟨0, [], h⟩
              (.returns (raiseTree.eval a o ["n"] false h').1,
                (raiseTree.eval a o ["n"] false h').2) := by
  obtain ⟨d, hd⟩ := ofTree_raiseTree
  exact ⟨d, hd, compilation_preserves_meaning ofSource_raiseSource (by decide) hd⟩

end Smalltalk
