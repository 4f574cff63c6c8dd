import Smalltalk.Proofs.Compilation.Evaluation

/-!
# What the code of a tree looks like

A description of code by the tree it belongs to, which does not mention how the code was emitted.
`Expr.intents` is what the code of an expression is meant to do, instruction by instruction, in
numbers as they are: places, counts, distances of jumps, and the room that a block needs on its
stack, which `Expr.room` computes from the tree. What is inside brackets is the code of a part of
the tree:

* a name or a literal: one instruction, or none if its value is not needed
* an assignment: [value] dup? store
* a message: [receiver] [arguments] send drop?
* a cascade: [receiver], then dup [arguments] send drop for every message but the last, and
  [arguments] send drop? for the last
* a block: pushBlock, jump, store for each parameter, [body], drop? where the jump goes
* a primitive: [arguments] primitive drop?

`Draft.Fulfils` says that an instruction fulfils an intent, and its operands are then the very
numbers of the intent. Literals are found by number in the table of the draft, so nothing here
depends on whether two uses of a selector share an entry.

An instruction has one byte for a count and two for everything else, while the numbers of a source
have no bounds. Where a number does not fit, a method is rejected, with one exception: the position
of an argument is taken modulo 65536. `Draft.Meets` says that code fulfils intents but for that, and
for a method with no more arguments than that there is no difference.

## Main definitions

* `Expr.room`: how many operands there are at most while an expression is evaluated
* `Intent`, `Expr.intents`, `MethodTree.intents`: what code is meant to do
* `Draft.Fulfils`, `Draft.Follows`: code fulfils intents
* `Intent.truncated`, `Draft.Meets`: intents as operands can say them

## Main results

* `MethodTree.map_truncated_intents`: few arguments are counted as they are
-/

namespace Smalltalk

/-! ## Room -/

mutual

/-- How many operands an expression adds to the stack at most while it is evaluated. -/
def Expr.room (needed : Bool) : Expr → Nat
  | .name _ _ => needed.toNat
  | .literal _ _ => needed.toNat
  | .assign _ value _ => max (value.room true) (if needed then 2 else 0)
  | .send receiver message => max (receiver.room true) (1 + message.room)
  | .cascade receiver messages => max (receiver.room true) (1 + roomOfCascade messages)
  | .block _ => 1
  | .primitive _ args _ => max (roomOfExprs args) 1

/-- The same for expressions whose values are all kept. -/
def roomOfExprs : List Expr → Nat
  | [] => 0
  | e :: es => max (e.room true) (1 + roomOfExprs es)

/-- The same for a message to a receiver that is on the stack. -/
def Message.room : Message → Nat
  | .mk _ args _ => roomOfExprs args

/-- The same for messages, each but the last to a copy of the receiver on the stack. -/
def roomOfCascade : List Message → Nat
  | [] => 0
  | [m] => m.room
  | m :: ms => max (1 + m.room) (roomOfCascade ms)

def Statement.room : Statement → Nat
  | .evaluate e => e.room false
  | .answer e => e.room true

/-- The same for statements of which the last is returned. -/
def roomOfBody : List Statement → Nat
  | [] => 1
  | [.evaluate e] => e.room true
  | [.answer e] => e.room true
  | s :: ss => max s.room (roomOfBody ss)

end

/-- The room that a block needs: for its arguments, and later for its statements. -/
def Block.room (b : Block) : Nat := max b.params.length (roomOfBody b.body)

/-- The room that the statements of a method need, of which the last has a value that is asked for
or not. -/
def roomOfMethod (needed : Bool) : List Statement → Nat
  | [] => 1
  | [.answer e] => e.room true
  | [.evaluate e] => max (e.room needed) (!needed).toNat
  | s :: ss => max s.room (roomOfMethod needed ss)

/-! ## Intents -/

/-- What an instruction is meant to do. -/
inductive Intent where
  /-- An instruction without operands. -/
  | plain (ins : Instruction)
  | push (place : Place)
  | store (place : Place)
  | constant (value : Literal)
  | send (toSuper : Bool) (count : Nat) (selector : String)
  | primitive (count : Nat) (number : UInt16)
  | block (count room : Nat)
  /-- Pass over so many instructions. -/
  | skip (count : Nat)

/-- One intent, if a condition holds. -/
def intentIf (w : Intent) (c : Bool) : List Intent := if c then [w] else []

mutual

/-- What the code of an expression is meant to do. -/
def Expr.intents (s : Scoping) (next : Nat) (needed : Bool) : Expr → List Intent
  | .name name _ => intentIf (.push (s.place name)) needed
  | .literal value _ => intentIf (.constant value) needed
  | .assign name value _ =>
    value.intents s next true ++ intentIf (.plain .dup) needed ++ [.store (s.place name)]
  | .send receiver message =>
    receiver.intents s next true ++ message.intents s (next + receiver.slots) receiver.isSuper ++
      intentIf (.plain .drop) (!needed)
  | .cascade receiver messages =>
    receiver.intents s next true ++
      intentsOfCascade s (next + receiver.slots) receiver.isSuper needed messages
  | .block b => b.intents s next ++ intentIf (.plain .drop) (!needed)
  | .primitive number args _ =>
    intentsOfExprs s next args ++ [.primitive args.length number] ++
      intentIf (.plain .drop) (!needed)

def intentsOfExprs (s : Scoping) (next : Nat) : List Expr → List Intent
  | [] => []
  | e :: es => e.intents s next true ++ intentsOfExprs s (next + e.slots) es

def Message.intents (s : Scoping) (next : Nat) (toSuper : Bool) : Message → List Intent
  | .mk selector args _ => intentsOfExprs s next args ++ [.send toSuper args.length selector]

def intentsOfCascade (s : Scoping) (next : Nat) (toSuper needed : Bool) : List Message → List Intent
  | [] => []
  | [m] => m.intents s next toSuper ++ intentIf (.plain .drop) (!needed)
  | m :: ms =>
    .plain .dup :: m.intents s next toSuper ++
      .plain .drop :: intentsOfCascade s (next + m.slots) toSuper needed ms

def Statement.intents (s : Scoping) (next : Nat) : Statement → List Intent
  | .evaluate e => e.intents s next false
  | .answer e => e.intents s next true ++ [.plain .returnMethod]

def intentsOfBody (s : Scoping) (next : Nat) : List Statement → List Intent
  | [] => [.plain .pushNil, .plain .returnBlock]
  | [.answer e] => e.intents s next true ++ [.plain .returnMethod]
  | [.evaluate e] => e.intents s next true ++ [.plain .returnBlock]
  | st :: sts => st.intents s next ++ intentsOfBody s (next + st.slots) sts

/-- A block is made, its body is passed over, and the body stores the arguments first. -/
def Block.intents (s : Scoping) (next : Nat) : Block → List Intent
  | .mk params temps body line =>
    .block params.length (Block.mk params temps body line).room ::
      .skip (params.length + (intentsOfBody (s.enter next (params ++ temps))
        (next + (params ++ temps).length) body).length) ::
      (List.range' next params.length).map (fun slot => .store (.temp slot)) ++
      intentsOfBody (s.enter next (params ++ temps)) (next + (params ++ temps).length) body

end

/-- What the code inside a block is meant to do: store the arguments and go through the
statements. -/
def Block.inner (s : Scoping) (next : Nat) (b : Block) : List Intent :=
  (List.range' next b.params.length).map (fun slot => .store (.temp slot)) ++
    intentsOfBody (s.enter next (b.params ++ b.temps)) (next + (b.params ++ b.temps).length) b.body

theorem Block.intents_eq (s : Scoping) (next : Nat) (b : Block) :
    b.intents s next =
      .block b.params.length b.room :: .skip (b.inner s next).length :: b.inner s next := by
  obtain ⟨params, temps, body, line⟩ := b
  simp only [Block.intents, Block.inner, List.length_append, List.length_map, List.length_range',
    List.cons_append, Block.params, Block.temps, Block.body]

/-- What the code of the statements of a method is meant to do. -/
def intentsOfMethod (s : Scoping) (next : Nat) (needed : Bool) : List Statement → List Intent
  | [] => [.plain .pushSelf, .plain .returnMethod]
  | [.answer e] => e.intents s next true ++ [.plain .returnMethod]
  | [.evaluate e] =>
    e.intents s next needed ++ intentIf (.plain .pushSelf) (!needed) ++ [.plain .returnMethod]
  | st :: sts => st.intents s next ++ intentsOfMethod s (next + st.slots) needed sts

/-- What the code of a method is meant to do. -/
def MethodTree.intents (instanceVariables : List String) (needed : Bool) (tree : MethodTree) :
    List Intent :=
  intentsOfMethod (Scoping.enter ⟨instanceVariables, tree.args, []⟩ 0 tree.temps) tree.temps.length
    needed tree.body

theorem intentsOfCascade_cons_cons (s : Scoping) (next : Nat) (toSuper needed : Bool)
    (m m' : Message) (ms : List Message) : intentsOfCascade s next toSuper needed (m :: m' :: ms) =
      .plain .dup :: (m.intents s next toSuper ++
        .plain .drop :: intentsOfCascade s (next + m.slots) toSuper needed (m' :: ms)) := rfl

theorem intentsOfBody_cons_cons (s : Scoping) (next : Nat) (st st' : Statement)
    (more : List Statement) : intentsOfBody s next (st :: st' :: more) =
      st.intents s next ++ intentsOfBody s (next + st.slots) (st' :: more) := by
  cases st <;> rfl

theorem intentsOfMethod_cons_cons (s : Scoping) (next : Nat) (needed : Bool) (st st' : Statement)
    (more : List Statement) : intentsOfMethod s next needed (st :: st' :: more) =
      st.intents s next ++ intentsOfMethod s (next + st.slots) needed (st' :: more) := by
  cases st <;> rfl

/-! ## Fulfilling intents -/

namespace Draft

variable (d : Draft)

/-- The instruction pushes what is at a place. -/
inductive Pushes : Instruction → Place → Prop
  | receiver : Pushes .pushSelf .receiver
  | nil : Pushes .pushNil .nil
  | true : Pushes .pushTrue .true
  | false : Pushes .pushFalse .false
  | temp (index : UInt16) : Pushes (.pushTemp index) (.temp index.toNat)
  | arg (index : UInt16) : Pushes (.pushArg index) (.arg index.toNat)
  | instanceVariable (index : UInt16) :
    Pushes (.pushInstance index) (.instanceVariable index.toNat)
  | global {index : UInt16} {name : String}
    (hentry : d.literals[index.toNat]? = some (.global name)) :
    Pushes (.pushGlobal index) (.global name)

/-- The instruction stores what is on top of the stack at a place. -/
inductive Stores : Instruction → Place → Prop
  | temp (index : UInt16) : Stores (.storeTemp index) (.temp index.toNat)
  | instanceVariable (index : UInt16) :
    Stores (.storeInstance index) (.instanceVariable index.toNat)
  | global {index : UInt16} {name : String}
    (hentry : d.literals[index.toNat]? = some (.global name)) :
    Stores (.storeGlobal index) (.global name)

/-- The instruction at position `p` fulfils the intent: its operands are the numbers that the
intent speaks of. A literal is meant by its number in the table of the draft. -/
inductive Fulfils (p : Nat) : Instruction → Intent → Prop
  | plain (ins : Instruction) : Fulfils p ins (.plain ins)
  | push {ins : Instruction} {place : Place} (h : d.Pushes ins place) : Fulfils p ins (.push place)
  | store {ins : Instruction} {place : Place} (h : d.Stores ins place) :
      Fulfils p ins (.store place)
  | constant {index : UInt16} {value : Literal}
    (h : d.literals[index.toNat]? = some (.constant value)) :
    Fulfils p (.pushConst index) (.constant value)
  | send {argc : UInt8} {index : UInt16} {selector : String}
    (h : d.literals[index.toNat]? = some (.selector selector)) :
    Fulfils p (.send argc index) (.send false argc.toNat selector)
  | sendSuper {argc : UInt8} {index : UInt16} {selector : String}
    (h : d.literals[index.toNat]? = some (.selector selector)) :
    Fulfils p (.sendSuper argc index) (.send true argc.toNat selector)
  | primitive {argc : UInt8} {number : UInt16} :
    Fulfils p (.primitive argc number) (.primitive argc.toNat number)
  | block {argc : UInt8} {size : UInt16} :
      Fulfils p (.pushBlock argc size) (.block argc.toNat size.toNat)
  | skip {target : UInt16} {count : Nat} (h : target.toNat = p + 1 + count) :
    Fulfils p (.jump target) (.skip count)

/-- The instructions from position `p` on fulfil the intents, one each. -/
def FulfilsAll (p : Nat) : List Intent → Prop
  | [] => True
  | w :: ws => (∃ ins, d.code[p]? = some ins ∧ d.Fulfils p ins w) ∧ FulfilsAll (p + 1) ws

/-- The instructions from `i` up to `k` are as many as the intents and fulfil them. -/
def Follows (ws : List Intent) (i k : Nat) : Prop := k = i + ws.length ∧ d.FulfilsAll i ws

variable {d} {i k : Nat} {w : Intent} {ws ws' : List Intent}

theorem follows_nil : d.Follows [] i k ↔ k = i := by
  simp [Follows, FulfilsAll]

theorem follows_cons : d.Follows (w :: ws) i k ↔
    (∃ ins, d.code[i]? = some ins ∧ d.Fulfils i ins w) ∧ d.Follows ws (i + 1) k := by
  rw [Follows, Follows, FulfilsAll, List.length_cons, Nat.add_comm ws.length, ← Nat.add_assoc]
  exact and_left_comm

theorem follows_append :
    d.Follows (ws ++ ws') i k ↔ ∃ j, d.Follows ws i j ∧ d.Follows ws' j k := by
  induction ws generalizing i with
  | nil => simp only [List.nil_append, follows_nil, exists_eq_left]
  | cons w ws ih => simp only [List.cons_append, follows_cons, ih, and_assoc, exists_and_left]

theorem follows_singleton : d.Follows [w] i k ↔
    (∃ ins, d.code[i]? = some ins ∧ d.Fulfils i ins w) ∧ k = i + 1 := by
  rw [follows_cons, follows_nil]

theorem Fulfils.primitive_eq {ins : Instruction} {count : Nat} {number : UInt16}
    (h : d.Fulfils i ins (.primitive count number)) :
    ∃ argc, ins = .primitive argc number ∧ argc.toNat = count := by
  cases h
  exact ⟨_, rfl, rfl⟩

theorem Fulfils.send_eq {ins : Instruction} {toSuper : Bool} {count : Nat} {selector : String}
    (h : d.Fulfils i ins (.send toSuper count selector)) :
    ∃ argc index, argc.toNat = count ∧ d.literals[index.toNat]? = some (.selector selector) ∧
      ins = if toSuper then .sendSuper argc index else .send argc index := by
  cases h with
  | send hentry => exact ⟨_, _, rfl, hentry, rfl⟩
  | sendSuper hentry => exact ⟨_, _, rfl, hentry, rfl⟩

/-- A block is made, and the jump behind it leads to the end of its body. -/
theorem follows_block {count room : Nat}
    (h : d.Follows (.block count room :: .skip ws.length :: ws) i k) :
    ∃ argc size target, d.code[i]? = some (.pushBlock argc size) ∧ argc.toNat = count ∧
      size.toNat = room ∧ d.code[i + 1]? = some (.jump target) ∧ target.toNat = k ∧
      d.Follows ws (i + 2) k := by
  obtain ⟨⟨_, hi, hblock⟩, hrest⟩ := follows_cons.1 h
  obtain ⟨⟨_, hnext, hskip⟩, hws⟩ := follows_cons.1 hrest
  cases hblock
  cases hskip with
  | skip htarget => exact ⟨_, _, _, hi, rfl, rfl, hnext, htarget.trans hws.1.symm, hws⟩

end Draft

/-! ## Arguments are counted modulo 65536 -/

/-- A place as an operand can say it. -/
def Place.truncated : Place → Place
  | .arg index => .arg (index % 65536)
  | place => place

/-- An intent as operands can say it. -/
def Intent.truncated : Intent → Intent
  | .push place => .push place.truncated
  | w => w

namespace Draft

variable {d : Draft} {i k : Nat} {w : Intent} {ws ws' : List Intent}

variable (d) in
/-- The instructions from `i` up to `k` fulfil the intents as operands can say them. -/
def Meets (ws : List Intent) (i k : Nat) : Prop := d.Follows (ws.map .truncated) i k

theorem meets_nil : d.Meets [] i k ↔ k = i := follows_nil

theorem meets_cons : d.Meets (w :: ws) i k ↔
    (∃ ins, d.code[i]? = some ins ∧ d.Fulfils i ins w.truncated) ∧ d.Meets ws (i + 1) k :=
  follows_cons

theorem meets_append : d.Meets (ws ++ ws') i k ↔ ∃ j, d.Meets ws i j ∧ d.Meets ws' j k := by
  rw [Meets, List.map_append]
  exact follows_append

theorem Meets.one {ins : Instruction} (hi : d.code[i]? = some ins)
    (h : d.Fulfils i ins w.truncated) : d.Meets [w] i (i + 1) :=
  meets_cons.2 ⟨⟨ins, hi, h⟩, meets_nil.2 rfl⟩

theorem Meets.append {j : Nat} (h : d.Meets ws i j) (h' : d.Meets ws' j k) :
    d.Meets (ws ++ ws') i k :=
  meets_append.2 ⟨j, h, h'⟩

/-- As many instructions as intents. -/
theorem Meets.length (h : d.Meets ws i k) : k = i + ws.length := by
  rw [h.1, List.length_map]

theorem meets_block {count room : Nat}
    (h : d.Meets (.block count room :: .skip ws.length :: ws) i k) :
    ∃ argc size target, d.code[i]? = some (.pushBlock argc size) ∧ argc.toNat = count ∧
      size.toNat = room ∧ d.code[i + 1]? = some (.jump target) ∧ target.toNat = k ∧
      d.Meets ws (i + 2) k := by
  refine follows_block ?_
  rw [List.length_map]
  exact h

/-- Nothing is stored in an argument. -/
theorem Stores.of_truncated {ins : Instruction} {place : Place} (h : d.Stores ins place.truncated) :
    d.Stores ins place := by
  cases place with
  | arg index => cases h
  | _ => exact h

end Draft

/-! ## Few arguments -/

/-- With no more arguments than an operand can number, every place is one that operands can say. -/
theorem Scoping.truncated_place {s : Scoping} (hs : s.args.length ≤ 65536) (name : String) :
    (s.place name).truncated = s.place name := by
  cases hplace : s.place name with
  | arg index =>
    suffices h : s.args.idxOf? name = some index by
      have hlt := (List.idxOf?_eq_some_iff.1 h).1
      exact congrArg Place.arg (Nat.mod_eq_of_lt (by omega))
    unfold Scoping.place at hplace
    repeat' split at hplace
    all_goals cases hplace
    assumption
  | _ => rfl

theorem map_truncated_intentIf (ins : Instruction) (c : Bool) :
    (intentIf (.plain ins) c).map Intent.truncated = intentIf (.plain ins) c := by
  cases c <;> rfl

theorem map_truncated_intentIf_push {s : Scoping} (hs : s.args.length ≤ 65536) (name : String)
    (c : Bool) :
    (intentIf (.push (s.place name)) c).map Intent.truncated =
      intentIf (.push (s.place name)) c := by
  cases c with
  | true => exact congrArg (fun place => [Intent.push place]) (Scoping.truncated_place hs name)
  | false => rfl

mutual

theorem Expr.map_truncated_intents {s : Scoping} (hs : s.args.length ≤ 65536) (next : Nat)
    (needed : Bool) (e : Expr) :
    (e.intents s next needed).map .truncated = e.intents s next needed := by
  cases e with
  | name name line => exact map_truncated_intentIf_push hs name needed
  | literal value line =>
    rw [Expr.intents]
    cases needed <;> rfl
  | assign name value line =>
    rw [Expr.intents, List.map_append, List.map_append, map_truncated_intentIf,
      value.map_truncated_intents hs]
    rfl
  | send receiver message =>
    rw [Expr.intents, List.map_append, List.map_append, map_truncated_intentIf,
      receiver.map_truncated_intents hs, message.map_truncated_intents hs]
  | cascade receiver messages =>
    rw [Expr.intents, List.map_append, receiver.map_truncated_intents hs,
      map_truncated_intentsOfCascade hs]
  | block b =>
    rw [Expr.intents, List.map_append, map_truncated_intentIf, b.map_truncated_intents hs]
  | primitive number args line =>
    rw [Expr.intents, List.map_append, List.map_append, map_truncated_intentIf,
      map_truncated_intentsOfExprs hs]
    rfl

theorem map_truncated_intentsOfExprs {s : Scoping} (hs : s.args.length ≤ 65536) (next : Nat)
    (es : List Expr) : (intentsOfExprs s next es).map .truncated = intentsOfExprs s next es := by
  cases es with
  | nil => rfl
  | cons e es =>
    rw [intentsOfExprs, List.map_append, e.map_truncated_intents hs,
      map_truncated_intentsOfExprs hs]

theorem Message.map_truncated_intents {s : Scoping} (hs : s.args.length ≤ 65536) (next : Nat)
    (toSuper : Bool) (m : Message) :
    (m.intents s next toSuper).map .truncated = m.intents s next toSuper := by
  obtain ⟨selector, args, line⟩ := m
  rw [Message.intents, List.map_append, map_truncated_intentsOfExprs hs]
  rfl

theorem map_truncated_intentsOfCascade {s : Scoping} (hs : s.args.length ≤ 65536) (next : Nat)
    (toSuper needed : Bool) (ms : List Message) :
    (intentsOfCascade s next toSuper needed ms).map .truncated =
      intentsOfCascade s next toSuper needed ms := by
  cases ms with
  | nil => rfl
  | cons m ms =>
    cases ms with
    | nil =>
      rw [intentsOfCascade, List.map_append, map_truncated_intentIf, m.map_truncated_intents hs]
    | cons m' ms =>
      rw [intentsOfCascade_cons_cons, List.map_cons, List.map_append, List.map_cons,
        m.map_truncated_intents hs, map_truncated_intentsOfCascade hs]
      rfl

theorem Statement.map_truncated_intents {s : Scoping} (hs : s.args.length ≤ 65536) (next : Nat)
    (st : Statement) : (st.intents s next).map .truncated = st.intents s next := by
  cases st with
  | evaluate e => exact e.map_truncated_intents hs next false
  | answer e =>
    rw [Statement.intents, List.map_append, e.map_truncated_intents hs]
    rfl

theorem map_truncated_intentsOfBody {s : Scoping} (hs : s.args.length ≤ 65536) (next : Nat)
    (body : List Statement) :
    (intentsOfBody s next body).map .truncated = intentsOfBody s next body := by
  cases body with
  | nil => rfl
  | cons st more =>
    cases more with
    | nil =>
      cases st with
      | evaluate e =>
        rw [intentsOfBody, List.map_append, e.map_truncated_intents hs]
        rfl
      | answer e =>
        rw [intentsOfBody, List.map_append, e.map_truncated_intents hs]
        rfl
    | cons st' more =>
      rw [intentsOfBody_cons_cons, List.map_append, st.map_truncated_intents hs,
        map_truncated_intentsOfBody hs]

theorem Block.map_truncated_intents {s : Scoping} (hs : s.args.length ≤ 65536) (next : Nat)
    (b : Block) : (b.intents s next).map .truncated = b.intents s next := by
  obtain ⟨params, temps, body, line⟩ := b
  have hbody := map_truncated_intentsOfBody (s := s.enter next (params ++ temps)) hs
    (next + (params ++ temps).length) body
  rw [Block.intents, List.map_append, hbody, List.map_cons, List.map_cons, List.map_map]
  rfl

end

theorem map_truncated_intentsOfMethod {s : Scoping} (hs : s.args.length ≤ 65536) (next : Nat)
    (needed : Bool) (body : List Statement) :
    (intentsOfMethod s next needed body).map .truncated = intentsOfMethod s next needed body := by
  induction body generalizing next with
  | nil => rfl
  | cons st more ih =>
    cases more with
    | nil =>
      cases st with
      | evaluate e =>
        rw [intentsOfMethod, List.map_append, List.map_append, map_truncated_intentIf,
          e.map_truncated_intents hs]
        rfl
      | answer e =>
        rw [intentsOfMethod, List.map_append, e.map_truncated_intents hs]
        rfl
    | cons st' more =>
      rw [intentsOfMethod_cons_cons, List.map_append, st.map_truncated_intents hs, ih]

/-- **Few arguments are counted as they are.** -/
theorem MethodTree.map_truncated_intents {tree : MethodTree} (hargs : tree.args.length ≤ 65536)
    (instanceVariables : List String) (needed : Bool) :
    (tree.intents instanceVariables needed).map .truncated =
      tree.intents instanceVariables needed :=
  map_truncated_intentsOfMethod hargs _ needed tree.body

end Smalltalk
