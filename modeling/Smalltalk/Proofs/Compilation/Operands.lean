import Smalltalk.Proofs.Compilation.Correctness
import Smalltalk.Proofs.Compilation.Depth

/-!
# Operands and jumps of compiled code

What an instruction refers to by number is there: a literal of the right sort, an argument, an
instance variable, a slot of a variable that is in scope. And code is nested as the blocks of its
tree are: a block is passed over by the one jump that belongs to it, its body ends in a return, and
so control neither runs out of the code nor into or out of the body of a block.

Both are said of a piece of code at a time. `d.Piece n args scopes blocks i k` says that the
instructions from `i` up to `k` refer only to what is there where `scopes` are in force, and that
the blocks made among them are `blocks`, in this order, each with a piece of its own for a body. The
blocks are those of the tree, with the slots that their variables have if all variables of the
method are numbered as they are declared.

What the tree has to do with it is in its intents alone. `Script s room a b blocks ws` says of
intents that they speak of what is in scope, that they take `a` operands to `b` within a room, and
that the blocks among them end in returns. The intents of every tree are such a script, and code
that follows a script is a piece.

The numbers themselves are exact. An instruction has one byte for a count and two for everything
else, while the numbers of a source have no bounds. The emitter rejects a method if a number does
not fit, with one exception: the position of an argument is taken modulo 65536. So the code of a
method with no more arguments than that is exact, and the code of a method with more may read
another argument than the one that is named.

## Main definitions

* `Draft.Valid`: the operand of an instruction refers to something
* `MethodTree.nest`: the blocks of a method, with the slots of their variables
* `Script`: intents with blocks in them
* `Draft.Piece`: code with blocks in it
* `Draft.WellNested`: how blocks and jumps go together

## Main results

* `Expr.script`, `script_body`, `script_method`: the intents of a tree are a script
* `Draft.Meets.piece`: what code is that follows a script
* `Draft.WellNested.successor`: control stays where it is
* `operands_and_jumps_valid`: the code of every method that is compiled
* `operands_exact_but_arguments`: its operands are the numbers that they stand for
-/

namespace Smalltalk

/-! ## Operands -/

namespace Draft

variable (d : Draft)

/-- What the operand of an instruction refers to is there: a literal of the right sort, one of so
many instance variables or arguments, or a slot that is allowed. -/
def Valid (n args : Nat) (slot : Nat → Prop) : Instruction → Prop
  | .pushConst literal => ∃ value, d.literals[literal.toNat]? = some (.constant value)
  | .pushGlobal literal => ∃ name, d.literals[literal.toNat]? = some (.global name)
  | .storeGlobal literal => ∃ name, d.literals[literal.toNat]? = some (.global name)
  | .send _ selector => ∃ name, d.literals[selector.toNat]? = some (.selector name)
  | .sendSuper _ selector => ∃ name, d.literals[selector.toNat]? = some (.selector name)
  | .pushInstance index => index.toNat < n
  | .storeInstance index => index.toNat < n
  | .pushArg index => index.toNat < args
  | .pushTemp index => slot index.toNat
  | .storeTemp index => slot index.toNat
  | _ => True

variable {d}

theorem Valid.mono {n args : Nat} {slot slot' : Nat → Prop} {ins : Instruction}
    (h : d.Valid n args slot ins) (hslot : ∀ j, slot j → slot' j) :
    d.Valid n args slot' ins := by
  cases ins with
  | pushTemp index => exact hslot _ h
  | storeTemp index => exact hslot _ h
  | _ => exact h

theorem valid_of_isReturn {n args : Nat} {slot : Nat → Prop} {ins : Instruction}
    (h : ins.isReturn) : d.Valid n args slot ins := by
  cases ins with
  | returnMethod => trivial
  | returnBlock => trivial
  | _ => cases h

end Draft

/-- The variables in scope with their slots, those of the innermost block first. -/
abbrev Scopes := List (List (String × Nat))

/-- Some variable in scope has the slot. -/
def Scopes.HasSlot (scopes : Scopes) (slot : Nat) : Prop := ∃ name, (name, slot) ∈ scopes.flatten

/-- Different variables in scope have different slots, all of them below a bound. -/
structure Scopes.Distinct (scopes : Scopes) (bound : Nat) : Prop where
  nodup : (scopes.flatten.map Prod.snd).Nodup
  lt : ∀ slot, scopes.HasSlot slot → slot < bound

/-- The place is that of something in scope. -/
def Place.Within (n args : Nat) (scopes : Scopes) : Place → Prop
  | .temp slot => scopes.HasSlot slot
  | .arg index => index < args
  | .instanceVariable index => index < n
  | _ => True

theorem lt_of_lastIdxOf? {name : String} {names : List String} {i : Nat}
    (h : lastIdxOf? name names = some i) : i < names.length := by
  induction names generalizing i with
  | nil => cases h
  | cons first more ih =>
    rw [lastIdxOf?] at h
    split at h
    · rename_i j hj
      cases h
      exact Nat.succ_lt_succ (ih hj)
    · split at h
      · cases h
        exact Nat.zero_lt_succ _
      · cases h

/-- **Names stand for what is in scope.** -/
theorem Scoping.within_place (s : Scoping) (name : String) :
    (s.place name).Within s.instanceVariables.length s.args.length s.scopes := by
  cases hplace : s.place name with
  | temp slot =>
    suffices h : s.scopes.findSome? (·.lookup name) = some slot by
      obtain ⟨scope, hscope, hlookup⟩ := List.exists_of_findSome?_eq_some h
      obtain ⟨before, behind, rfl, -⟩ := List.lookup_eq_some_iff.1 hlookup
      exact ⟨name, List.mem_flatten.2 ⟨_, hscope, List.mem_append_right _ List.mem_cons_self⟩⟩
    unfold Scoping.place at hplace
    repeat' split at hplace
    all_goals cases hplace
    assumption
  | arg index =>
    suffices h : s.args.idxOf? name = some index from (List.idxOf?_eq_some_iff.1 h).1
    unfold Scoping.place at hplace
    repeat' split at hplace
    all_goals cases hplace
    assumption
  | instanceVariable index =>
    suffices h : lastIdxOf? name s.instanceVariables = some index from lt_of_lastIdxOf? h
    unfold Scoping.place at hplace
    repeat' split at hplace
    all_goals cases hplace
    assumption
  | _ => trivial

/-- The number of an argument is taken modulo the size of an operand, and is in range even so. -/
theorem Place.Within.truncated {n args : Nat} {scopes : Scopes} {place : Place}
    (h : place.Within n args scopes) : place.truncated.Within n args scopes := by
  cases place with
  | arg index => exact Nat.lt_of_le_of_lt (Nat.mod_le _ _) h
  | _ => exact h

/-! ## The blocks of a tree -/

/-- A method or a block: the variables that it declares with their slots, and the blocks in it. -/
inductive Nest where
  | mk (declared : List (String × Nat)) (blocks : List Nest)

mutual

/-- The blocks in an expression, if its variables have slots from `next` on. -/
def Expr.nests (next : Nat) : Expr → List Nest
  | .name _ _ => []
  | .literal _ _ => []
  | .assign _ value _ => value.nests next
  | .send receiver message => receiver.nests next ++ message.nests (next + receiver.slots)
  | .cascade receiver messages =>
    receiver.nests next ++ nestsOfMessages (next + receiver.slots) messages
  | .block b => [b.nest next]
  | .primitive _ args _ => nestsOfExprs next args

def nestsOfExprs (next : Nat) : List Expr → List Nest
  | [] => []
  | e :: es => e.nests next ++ nestsOfExprs (next + e.slots) es

def Message.nests (next : Nat) : Message → List Nest
  | .mk _ args _ => nestsOfExprs next args

def nestsOfMessages (next : Nat) : List Message → List Nest
  | [] => []
  | m :: ms => m.nests next ++ nestsOfMessages (next + m.slots) ms

def Statement.nests (next : Nat) : Statement → List Nest
  | .evaluate e => e.nests next
  | .answer e => e.nests next

def nestsOfStatements (next : Nat) : List Statement → List Nest
  | [] => []
  | s :: ss => s.nests next ++ nestsOfStatements (next + s.slots) ss

/-- A block, whose own variables come before those of the blocks in it. -/
def Block.nest (next : Nat) : Block → Nest
  | .mk params temps body _ =>
    .mk ((params ++ temps).zipIdx next) (nestsOfStatements (next + (params ++ temps).length) body)

end

/-- A method, whose temporaries come before the variables of its blocks. -/
def MethodTree.nest (tree : MethodTree) : Nest :=
  .mk (tree.temps.zipIdx 0) (nestsOfStatements tree.temps.length tree.body)

mutual

/-- What is in scope in a method or a block and in each of the blocks in it. -/
def Nest.scopings (outer : Scopes) : Nest → List Scopes
  | .mk declared blocks => (declared :: outer) :: scopingsOf (declared :: outer) blocks

/-- What is in scope in each of several blocks and of the blocks in them. -/
def scopingsOf (outer : Scopes) : List Nest → List Scopes
  | [] => []
  | b :: bs => b.scopings outer ++ scopingsOf outer bs

end

theorem mem_scopingsOf_append {outer s : Scopes} {bs bs' : List Nest} :
    s ∈ scopingsOf outer (bs ++ bs') ↔ s ∈ scopingsOf outer bs ∨ s ∈ scopingsOf outer bs' := by
  induction bs with
  | nil => exact ⟨.inr, fun h => h.resolve_left List.not_mem_nil⟩
  | cons b bs ih =>
    rw [List.cons_append, scopingsOf, scopingsOf, List.mem_append, List.mem_append, ih, or_assoc]

/-! ### Slots are numbered -/

namespace Scopes

variable {scopes : Scopes} {bound bound' : Nat}

theorem Distinct.mono (h : scopes.Distinct bound) (hle : bound ≤ bound') :
    scopes.Distinct bound' :=
  ⟨h.nodup, fun slot hslot => Nat.lt_of_lt_of_le (h.lt slot hslot) hle⟩

/-- Variables that are numbered behind all others in scope. -/
theorem Distinct.enter (h : scopes.Distinct bound) (names : List String) :
    Distinct (names.zipIdx bound :: scopes) (bound + names.length) := by
  constructor
  · rw [List.flatten_cons, List.map_append, List.zipIdx_map_snd]
    refine List.nodup_append.2 ⟨List.nodup_range', h.nodup, fun a ha b hb hab => ?_⟩
    obtain ⟨⟨name, slot⟩, hmem, rfl⟩ := List.mem_map.1 hb
    have hlt := h.lt slot ⟨name, hmem⟩
    have hle := (List.mem_range'_1.1 ha).1
    omega
  · rintro slot ⟨name, hmem⟩
    rw [List.flatten_cons, List.mem_append] at hmem
    rcases hmem with hmem | hmem
    · have hlt := (List.mk_mem_zipIdx_iff_le_and_getElem?_sub.1 hmem)
      have hlt' := (List.getElem?_eq_some_iff.1 hlt.2).1
      omega
    · have hlt := h.lt slot ⟨name, hmem⟩
      omega

end Scopes

mutual

/-- The blocks in an expression give different slots to variables that are in scope together. -/
theorem Expr.scopings_distinct (e : Expr) {outer : Scopes} {next : Nat} (h : outer.Distinct next) :
    ∀ s ∈ scopingsOf outer (e.nests next), s.Distinct (next + e.slots) := by
  cases e with
  | name name line => exact fun s hs => absurd hs List.not_mem_nil
  | literal value line => exact fun s hs => absurd hs List.not_mem_nil
  | assign name value line => exact value.scopings_distinct h
  | send receiver message =>
    intro s hs
    rw [Expr.slots, ← Nat.add_assoc]
    rcases mem_scopingsOf_append.1 hs with hs | hs
    · exact (receiver.scopings_distinct h s hs).mono (Nat.le_add_right _ _)
    · exact message.scopings_distinct (h.mono (Nat.le_add_right _ _)) s hs
  | cascade receiver messages =>
    intro s hs
    rw [Expr.slots, ← Nat.add_assoc]
    rcases mem_scopingsOf_append.1 hs with hs | hs
    · exact (receiver.scopings_distinct h s hs).mono (Nat.le_add_right _ _)
    · exact scopings_distinct_messages messages (h.mono (Nat.le_add_right _ _)) s hs
  | block b =>
    intro s hs
    rw [Expr.nests, scopingsOf, scopingsOf, List.append_nil] at hs
    exact b.scopings_distinct h s hs
  | primitive number args line => exact scopings_distinct_exprs args h

theorem scopings_distinct_exprs (es : List Expr) {outer : Scopes} {next : Nat}
    (h : outer.Distinct next) :
    ∀ s ∈ scopingsOf outer (nestsOfExprs next es), s.Distinct (next + slotsOfExprs es) := by
  cases es with
  | nil => exact fun s hs => absurd hs List.not_mem_nil
  | cons e es =>
    intro s hs
    rw [slotsOfExprs, ← Nat.add_assoc]
    rcases mem_scopingsOf_append.1 hs with hs | hs
    · exact (e.scopings_distinct h s hs).mono (Nat.le_add_right _ _)
    · exact scopings_distinct_exprs es (h.mono (Nat.le_add_right _ _)) s hs

theorem Message.scopings_distinct (m : Message) {outer : Scopes} {next : Nat}
    (h : outer.Distinct next) :
    ∀ s ∈ scopingsOf outer (m.nests next), s.Distinct (next + m.slots) := by
  obtain ⟨selector, args, line⟩ := m
  exact scopings_distinct_exprs args h

theorem scopings_distinct_messages (ms : List Message) {outer : Scopes} {next : Nat}
    (h : outer.Distinct next) :
    ∀ s ∈ scopingsOf outer (nestsOfMessages next ms), s.Distinct (next + slotsOfMessages ms) := by
  cases ms with
  | nil => exact fun s hs => absurd hs List.not_mem_nil
  | cons m ms =>
    intro s hs
    rw [slotsOfMessages, ← Nat.add_assoc]
    rcases mem_scopingsOf_append.1 hs with hs | hs
    · exact (m.scopings_distinct h s hs).mono (Nat.le_add_right _ _)
    · exact scopings_distinct_messages ms (h.mono (Nat.le_add_right _ _)) s hs

theorem Statement.scopings_distinct (st : Statement) {outer : Scopes} {next : Nat}
    (h : outer.Distinct next) :
    ∀ s ∈ scopingsOf outer (st.nests next), s.Distinct (next + st.slots) := by
  cases st with
  | evaluate e => exact e.scopings_distinct h
  | answer e => exact e.scopings_distinct h

theorem scopings_distinct_statements (ss : List Statement) {outer : Scopes} {next : Nat}
    (h : outer.Distinct next) :
    ∀ s ∈ scopingsOf outer (nestsOfStatements next ss),
      s.Distinct (next + slotsOfStatements ss) := by
  cases ss with
  | nil => exact fun s hs => absurd hs List.not_mem_nil
  | cons st ss =>
    intro s hs
    rw [slotsOfStatements, ← Nat.add_assoc]
    rcases mem_scopingsOf_append.1 hs with hs | hs
    · exact (st.scopings_distinct h s hs).mono (Nat.le_add_right _ _)
    · exact scopings_distinct_statements ss (h.mono (Nat.le_add_right _ _)) s hs

theorem Block.scopings_distinct (b : Block) {outer : Scopes} {next : Nat}
    (h : outer.Distinct next) :
    ∀ s ∈ (b.nest next).scopings outer, s.Distinct (next + b.slots) := by
  obtain ⟨params, temps, body, line⟩ := b
  have henter := h.enter (params ++ temps)
  intro s hs
  rw [Block.slots, ← Nat.add_assoc]
  rw [Block.nest, Nest.scopings] at hs
  rcases List.mem_cons.1 hs with rfl | hs
  · exact henter.mono (Nat.le_add_right _ _)
  · exact scopings_distinct_statements body henter s hs

end

/-- **Variables of a method that are in scope together have different slots.** -/
theorem MethodTree.scopings_distinct (tree : MethodTree) :
    ∀ s ∈ tree.nest.scopings [], s.Distinct (tree.temps.length + slotsOfStatements tree.body) := by
  have hnone : Scopes.Distinct [] 0 :=
    ⟨List.nodup_nil, fun _ ⟨_, hmem⟩ => absurd hmem List.not_mem_nil⟩
  have henter := hnone.enter tree.temps
  rw [Nat.zero_add] at henter
  intro s hs
  rw [MethodTree.nest, Nest.scopings] at hs
  rcases List.mem_cons.1 hs with rfl | hs
  · exact henter.mono (Nat.le_add_right _ _)
  · exact scopings_distinct_statements tree.body henter s hs

/-! ## Scripts -/

/-- The intent takes `a` operands to `b`, and what it speaks of is in scope. -/
inductive Intent.Steps (s : Scoping) : (a b : Nat) → Intent → Prop
  | pushNil {a : Nat} : Steps s a (a + 1) (.plain .pushNil)
  | pushSelf {a : Nat} : Steps s a (a + 1) (.plain .pushSelf)
  | dup {a : Nat} : Steps s (a + 1) (a + 2) (.plain .dup)
  | drop {a : Nat} : Steps s (a + 1) a (.plain .drop)
  | push {a : Nat} {place : Place}
    (h : place.Within s.instanceVariables.length s.args.length s.scopes) :
    Steps s a (a + 1) (.push place)
  | store {a : Nat} {place : Place}
    (h : place.Within s.instanceVariables.length s.args.length s.scopes) :
    Steps s (a + 1) a (.store place)
  | constant {a : Nat} (value : Literal) : Steps s a (a + 1) (.constant value)
  | send {a : Nat} (toSuper : Bool) (count : Nat) (selector : String) :
    Steps s (a + 1 + count) (a + 1) (.send toSuper count selector)
  | primitive {a : Nat} (count : Nat) (number : UInt16) :
    Steps s (a + count) (a + 1) (.primitive count number)

/-- The intents take `a` operands to `b`, with room for so many, they speak of what is in scope, and
the blocks made among them are the given ones. The body of a block ends in a return, which the jump
leads past. -/
inductive Script : Scoping → (room a b : Nat) → List Nest → List Intent → Prop
  | nil {s : Scoping} {room a : Nat} : Script s room a a [] []
  | step {s : Scoping} {room a b c : Nat} {blocks : List Nest} {w : Intent} {ws : List Intent}
    (hw : w.Steps s a b) (ha : a ≤ room) (hb : b ≤ room) (hmore : Script s room b c blocks ws) :
    Script s room a c blocks (w :: ws)
  | answer {s : Scoping} {room b : Nat} {blocks : List Nest} {ret : Instruction} {ws : List Intent}
    (hreturn : ret.isReturn) (hroom : 1 ≤ room) (hmore : Script s room 0 b blocks ws) :
    Script s room 1 b blocks (.plain ret :: ws)
  | block {s : Scoping} {next count size room a b : Nat} {names : List String}
    {inner blocks : List Nest} {ret : Instruction} {body ws : List Intent}
    (hbody : Script (s.enter next names) size count 1 inner body) (hreturn : ret.isReturn)
    (hsize : 1 ≤ size) (hroom : a + 1 ≤ room) (hmore : Script s room (a + 1) b blocks ws) :
    Script s room a b (.mk (names.zipIdx next) inner :: blocks)
      (.block count size :: .skip (body ++ [Intent.plain ret]).length ::
        (body ++ [.plain ret]) ++ ws)

namespace Script

variable {s : Scoping} {room a b c : Nat} {blocks blocks' : List Nest} {ws ws' : List Intent}

theorem trans (h : Script s room a b blocks ws) (h' : Script s room b c blocks' ws') :
    Script s room a c (blocks ++ blocks') (ws ++ ws') := by
  induction h with
  | nil => exact h'
  | step hw ha hb _ ih => exact .step hw ha hb (ih h')
  | answer hreturn hroom _ ih => exact .answer hreturn hroom (ih h')
  | block hbody hreturn hsize hroom _ _ ih =>
    rw [List.append_assoc]
    exact .block hbody hreturn hsize hroom (ih h')

/-- One more intent. -/
theorem snoc {w : Intent} (h : Script s room a b blocks ws) (hw : w.Steps s b c) (hb : b ≤ room)
    (hc : c ≤ room) : Script s room a c blocks (ws ++ [w]) := by
  have hscript := h.trans (.step hw hb hc .nil)
  rwa [List.append_nil] at hscript

/-- One operand is dropped, if it is not needed. -/
theorem dropUnless (h : Script s room a (b + 1) blocks ws) (hb : b + 1 ≤ room) (needed : Bool) :
    Script s room a (b + needed.toNat) blocks (ws ++ intentIf (.plain .drop) (!needed)) := by
  cases needed with
  | true =>
    have heq : ws ++ intentIf (.plain .drop) (!true) = ws := List.append_nil ws
    rwa [heq]
  | false => exact h.snoc .drop hb (Nat.le_of_succ_le hb)

theorem le_room (h : Script s room a b blocks ws) (ha : a ≤ room) : b ≤ room := by
  induction h with
  | nil => exact ha
  | step _ _ hb _ ih => exact ih hb
  | answer _ _ _ ih => exact ih (Nat.zero_le _)
  | block _ _ _ hroom _ _ ih => exact ih hroom

/-- Stores for parameters whose slots are in scope. -/
theorem parameters {slot count : Nat} (hcount : count ≤ room)
    (hslots : ∀ j, slot ≤ j → j < slot + count → Scopes.HasSlot s.scopes j) :
    Script s room count 0 [] ((List.range' slot count).map fun slot => .store (.temp slot)) := by
  induction count generalizing slot with
  | zero => exact .nil
  | succ count ih =>
    have hslot := hslots slot (Nat.le_refl _) (by omega)
    refine .step (.store hslot) hcount (by omega) (ih (by omega) fun j hle hlt => ?_)
    exact hslots j (by omega) (by omega)

end Script

/-- The slots of variables that are declared are in scope. -/
theorem hasSlot_of_declared {scopes : Scopes} {declared : List String} {next slot : Nat}
    (hle : next ≤ slot) (hlt : slot < next + declared.length) :
    Scopes.HasSlot (declared.zipIdx next :: scopes) slot := by
  have hslot : slot ∈ (declared.zipIdx next).map Prod.snd := by
    rw [List.zipIdx_map_snd, List.mem_range'_1]
    omega
  obtain ⟨⟨name, _⟩, hmem, rfl⟩ := List.mem_map.1 hslot
  exact ⟨name, List.mem_append_left _ hmem⟩

mutual

/-- **An expression** adds its value to the operands, if it is needed. -/
theorem Expr.script (e : Expr) (he : e.Proper) (s : Scoping) (next : Nat) (needed : Bool)
    {room a : Nat} (hroom : a + e.room needed ≤ room) :
    Script s room a (a + needed.toNat) (e.nests next) (e.intents s next needed) := by
  cases e with
  | name name line =>
    cases needed with
    | true => exact .step (.push (s.within_place name)) (Nat.le_of_succ_le hroom) hroom .nil
    | false => exact .nil
  | literal value line =>
    cases needed with
    | true => exact .step (.constant value) (Nat.le_of_succ_le hroom) hroom .nil
    | false => exact .nil
  | assign name value line =>
    rw [Expr.room] at hroom
    have hvalue := value.script he s next true (show a + value.room true ≤ room by omega)
    have hle := hvalue.le_room (by omega)
    cases needed with
    | true =>
      rw [if_pos rfl] at hroom
      exact (hvalue.snoc .dup hle (by omega)).snoc (.store (s.within_place name)) (by omega) hle
    | false =>
      have heq : Expr.intents s next false (.assign name value line) =
          value.intents s next true ++ [.store (s.place name)] := by
        simp [Expr.intents, intentIf]
      rw [heq]
      exact hvalue.snoc (.store (s.within_place name)) hle (Nat.le_of_succ_le hle)
  | send receiver message =>
    rw [Expr.room] at hroom
    exact ((receiver.script he.1 s next true (by omega)).trans
      (message.script he.2 s (next + receiver.slots) receiver.isSuper (by omega))).dropUnless
        (by omega) needed
  | cascade receiver messages =>
    rw [Expr.room] at hroom
    exact (receiver.script he.1 s next true (by omega)).trans
      (script_cascade messages he.2.1 he.2.2 s (next + receiver.slots) receiver.isSuper needed
        (by omega))
  | block b =>
    have hblock := b.script he s next hroom
    exact hblock.dropUnless hroom needed
  | primitive number args line =>
    rw [Expr.room] at hroom
    have hargs := script_exprs args he s next (show a + roomOfExprs args ≤ room by omega)
    have hle := hargs.le_room (by omega)
    exact (hargs.snoc (.primitive args.length number) hle (by omega)).dropUnless (by omega) needed

theorem script_exprs (es : List Expr) (hes : ProperExprs es) (s : Scoping) (next : Nat)
    {room a : Nat} (hroom : a + roomOfExprs es ≤ room) :
    Script s room a (a + es.length) (nestsOfExprs next es) (intentsOfExprs s next es) := by
  cases es with
  | nil => exact .nil
  | cons e es =>
    rw [roomOfExprs] at hroom
    rw [List.length_cons, Nat.add_comm es.length, ← Nat.add_assoc]
    exact (e.script hes.1 s next true (by omega)).trans
      (script_exprs es hes.2 s (next + e.slots) (a := a + 1) (by omega))

/-- A message takes its receiver from the stack and leaves the answer. -/
theorem Message.script (m : Message) (hm : m.Proper) (s : Scoping) (next : Nat) (toSuper : Bool)
    {room a : Nat} (hroom : a + 1 + m.room ≤ room) :
    Script s room (a + 1) (a + 1) (m.nests next) (m.intents s next toSuper) := by
  obtain ⟨selector, args, line⟩ := m
  rw [Message.room] at hroom
  have hargs := script_exprs args hm s next hroom
  exact hargs.snoc (.send toSuper args.length selector) (hargs.le_room (by omega)) (by omega)

theorem script_cascade (ms : List Message) (hne : ms ≠ []) (hms : ProperMessages ms) (s : Scoping)
    (next : Nat) (toSuper needed : Bool) {room a : Nat} (hroom : a + 1 + roomOfCascade ms ≤ room) :
    Script s room (a + 1) (a + needed.toNat) (nestsOfMessages next ms)
      (intentsOfCascade s next toSuper needed ms) := by
  cases ms with
  | nil => exact absurd rfl hne
  | cons m more =>
    cases more with
    | nil =>
      rw [roomOfCascade] at hroom
      rw [nestsOfMessages, nestsOfMessages, List.append_nil]
      exact (m.script hms.1 s next toSuper hroom).dropUnless (by omega) needed
    | cons m' more =>
      have hcascade : roomOfCascade (m :: m' :: more) =
          max (1 + m.room) (roomOfCascade (m' :: more)) := rfl
      rw [hcascade] at hroom
      have hmessage := m.script hms.1 s next toSuper (show a + 1 + 1 + m.room ≤ room by omega)
      have hmore := script_cascade (m' :: more) (List.cons_ne_nil _ _) hms.2 s (next + m.slots)
        toSuper needed (show a + 1 + roomOfCascade (m' :: more) ≤ room by omega)
      rw [intentsOfCascade_cons_cons]
      refine .step .dup (by omega) (by omega) ?_
      exact hmessage.trans (.step .drop (by omega) (by omega) hmore)

theorem Statement.script (st : Statement) (hst : st.Proper) (s : Scoping) (next : Nat) {room : Nat}
    (hroom : st.room ≤ room) : Script s room 0 0 (st.nests next) (st.intents s next) := by
  cases st with
  | evaluate e =>
    rw [Statement.room] at hroom
    exact e.script hst s next false (by omega)
  | answer e =>
    rw [Statement.room] at hroom
    have hexpr := e.script hst s next true (show 0 + e.room true ≤ room by omega)
    have hreturn : Instruction.isReturn .returnMethod := rfl
    have hscript := hexpr.trans (.answer hreturn (hexpr.le_room (Nat.zero_le _)) .nil)
    rwa [List.append_nil] at hscript

/-- **The statements of a block** end in a return. -/
theorem script_body (body : List Statement) (hbody : ProperStatements body) (s : Scoping)
    (next : Nat) {room : Nat} (hroom : roomOfBody body ≤ room) :
    ∃ ws ret, intentsOfBody s next body = ws ++ [.plain ret] ∧ ret.isReturn ∧
      Script s room 0 1 (nestsOfStatements next body) ws := by
  cases body with
  | nil =>
    exact ⟨[.plain .pushNil], .returnBlock, rfl, rfl, .step .pushNil (Nat.zero_le _) hroom .nil⟩
  | cons st more =>
    cases more with
    | nil =>
      cases st with
      | answer e =>
        have hexpr := e.script hbody.1 s next true
          (show 0 + e.room true ≤ room by rw [roomOfBody] at hroom; omega)
        rw [nestsOfStatements, nestsOfStatements, List.append_nil]
        exact ⟨_, .returnMethod, rfl, rfl, hexpr⟩
      | evaluate e =>
        have hexpr := e.script hbody.1 s next true
          (show 0 + e.room true ≤ room by rw [roomOfBody] at hroom; omega)
        rw [nestsOfStatements, nestsOfStatements, List.append_nil]
        exact ⟨_, .returnBlock, rfl, rfl, hexpr⟩
    | cons st' more =>
      have hcons : roomOfBody (st :: st' :: more) = max st.room (roomOfBody (st' :: more)) := by
        cases st <;> rfl
      rw [hcons] at hroom
      obtain ⟨ws, ret, heq, hreturn, hmore⟩ :=
        script_body (st' :: more) hbody.2 s (next + st.slots)
          (show roomOfBody (st' :: more) ≤ room by omega)
      refine ⟨st.intents s next ++ ws, ret, ?_, hreturn,
        (st.script hbody.1 s next (by omega)).trans hmore⟩
      rw [intentsOfBody_cons_cons, heq, List.append_assoc]

theorem Block.script (b : Block) (hb : b.Proper) (s : Scoping) (next : Nat) {room a : Nat}
    (hroom : a + 1 ≤ room) : Script s room a (a + 1) [b.nest next] (b.intents s next) := by
  obtain ⟨params, temps, body, line⟩ := b
  obtain ⟨ws, ret, heq, hreturn, hbody⟩ := script_body body hb (s.enter next (params ++ temps))
    (next + (params ++ temps).length) (Nat.le_max_right params.length (roomOfBody body))
  have hparams : Script (s.enter next (params ++ temps)) (max params.length (roomOfBody body))
      params.length 0 [] ((List.range' next params.length).map fun slot =>
        .store (.temp slot)) := by
    refine .parameters (Nat.le_max_left _ _) fun slot hle hlt => hasSlot_of_declared hle ?_
    rw [List.length_append]
    omega
  have hsize := hbody.le_room (Nat.zero_le _)
  have hscript := Script.block (hparams.trans hbody) hreturn hsize hroom .nil
  have hinner : Block.inner s next (.mk params temps body line) =
      (List.range' next params.length).map (fun slot => .store (.temp slot)) ++ ws ++
        [.plain ret] := by
    rw [List.append_assoc, ← heq]
    rfl
  rw [Block.intents_eq, hinner]
  rw [List.append_nil] at hscript
  exact hscript

end

/-- **The statements of a method** end in a return from the method. -/
theorem script_method (body : List Statement) (hbody : ProperStatements body) (s : Scoping)
    (next : Nat) (needed : Bool) {room : Nat} (hroom : roomOfMethod needed body ≤ room) :
    ∃ ws, intentsOfMethod s next needed body = ws ++ [.plain .returnMethod] ∧
      Script s room 0 1 (nestsOfStatements next body) ws := by
  induction body generalizing next with
  | nil => exact ⟨[.plain .pushSelf], rfl, .step .pushSelf (Nat.zero_le _) hroom .nil⟩
  | cons st more ih =>
    cases more with
    | nil =>
      cases st with
      | answer e =>
        have hexpr := e.script hbody.1 s next true
          (show 0 + e.room true ≤ room by rw [roomOfMethod] at hroom; omega)
        rw [nestsOfStatements, nestsOfStatements, List.append_nil]
        exact ⟨_, rfl, hexpr⟩
      | evaluate e =>
        rw [roomOfMethod] at hroom
        have hexpr := e.script hbody.1 s next needed (show 0 + e.room needed ≤ room by omega)
        rw [nestsOfStatements, nestsOfStatements, List.append_nil]
        refine ⟨_, rfl, ?_⟩
        cases needed with
        | true =>
          have heq : e.intents s next true ++ intentIf (.plain .pushSelf) (!true) =
              e.intents s next true := List.append_nil _
          rw [heq]
          exact hexpr
        | false =>
          exact hexpr.snoc .pushSelf (Nat.zero_le _) (Nat.le_trans (Nat.le_max_right _ _) hroom)
    | cons st' more =>
      have hcons : roomOfMethod needed (st :: st' :: more) =
          max st.room (roomOfMethod needed (st' :: more)) := by cases st <;> rfl
      rw [hcons] at hroom
      obtain ⟨ws, heq, hmore⟩ := ih hbody.2 (next + st.slots) (by omega)
      refine ⟨st.intents s next ++ ws, ?_, (st.script hbody.1 s next (by omega)).trans hmore⟩
      rw [intentsOfMethod_cons_cons, heq, List.append_assoc]

/-! ## Pieces of code -/

namespace Draft

variable (d : Draft)

/-- The instructions from `i` up to `k` refer only to what is there where `scopes` are in force, and
the blocks made among them are the given ones. -/
inductive Piece (n args : Nat) : Scopes → List Nest → (i k : Nat) → Prop
  | nil {scopes : Scopes} {i : Nat} : Piece n args scopes [] i i
  | step {scopes : Scopes} {blocks : List Nest} {i k : Nat} {ins : Instruction}
    (hi : d.code[i]? = some ins) (hplain : ins.isPlain ∨ ins.isReturn)
    (hvalid : d.Valid n args scopes.HasSlot ins) (hmore : Piece n args scopes blocks (i + 1) k) :
    Piece n args scopes blocks i k
  /-- The body of a block ends in a return, behind which the code goes on. -/
  | block {scopes : Scopes} {declared : List (String × Nat)} {inner blocks : List Nest}
      {i l k : Nat}
    {argc : UInt8} {size target : UInt16} {ins : Instruction}
    (hi : d.code[i]? = some (.pushBlock argc size)) (hnext : d.code[i + 1]? = some (.jump target))
    (htarget : target.toNat = l + 1) (hbody : Piece n args (declared :: scopes) inner (i + 2) l)
    (hl : d.code[l]? = some ins) (hreturn : ins.isReturn)
    (hmore : Piece n args scopes blocks (l + 1) k) :
    Piece n args scopes (.mk declared inner :: blocks) i k

/-- A block is made at `i`, and its body goes up to `t`, where the jump behind it leads. -/
def HasBody (i t : Nat) : Prop :=
  ∃ argc size target, d.code[i]? = some (.pushBlock argc size) ∧
    d.code[i + 1]? = some (.jump target) ∧ target.toNat = t

/-- How the blocks and jumps from `first` up to `last` go together: a block has a body that ends in
a return, behind the jump that passes over it; there are no other jumps; and of two blocks the
second is behind the first or in its body. -/
structure NestedIn (first last : Nat) : Prop where
  le : first ≤ last
  block : ∀ i argc size, first ≤ i → i < last → d.code[i]? = some (.pushBlock argc size) →
    ∃ t, d.HasBody i t ∧ i + 2 < t ∧ t ≤ last ∧ ∃ ins, d.code[t - 1]? = some ins ∧ ins.isReturn
  jump : ∀ j target, first ≤ j → j < last → d.code[j]? = some (.jump target) →
    ∃ i argc size, first ≤ i ∧ j = i + 1 ∧ d.code[i]? = some (.pushBlock argc size)
  nested : ∀ i t j u, first ≤ i → i < j → j < last → d.HasBody i t → d.HasBody j u →
    t ≤ j ∨ i + 2 ≤ j ∧ u < t

variable {d} {n args : Nat} {scopes : Scopes}

theorem Pushes.valid {ins : Instruction} {place : Place} (h : d.Pushes ins place)
    (hplace : place.Within n args scopes) :
    ins.isPlain ∧ d.Valid n args scopes.HasSlot ins := by
  cases h with
  | temp index => exact ⟨rfl, hplace⟩
  | arg index => exact ⟨rfl, hplace⟩
  | instanceVariable index => exact ⟨rfl, hplace⟩
  | global hentry => exact ⟨rfl, _, hentry⟩
  | _ => exact ⟨rfl, trivial⟩

theorem Stores.valid {ins : Instruction} {place : Place} (h : d.Stores ins place)
    (hplace : place.Within n args scopes) :
    ins.isPlain ∧ d.Valid n args scopes.HasSlot ins := by
  cases h with
  | temp index => exact ⟨rfl, hplace⟩
  | instanceVariable index => exact ⟨rfl, hplace⟩
  | global hentry => exact ⟨rfl, _, hentry⟩

theorem Pushes.effect {ins : Instruction} {place : Place} (h : d.Pushes ins place) :
    ins.operands = 0 ∧ ins.stackEffect = 1 := by
  cases h <;> exact ⟨rfl, rfl⟩

theorem Stores.effect {ins : Instruction} {place : Place} (h : d.Stores ins place) :
    ins.operands = 1 ∧ ins.stackEffect = -1 := by
  cases h <;> exact ⟨rfl, rfl⟩

/-- An instruction that fulfils the step of a script. -/
theorem Fulfils.steps {s : Scoping} {p a b : Nat} {ins : Instruction} {w : Intent}
    (h : d.Fulfils p ins w.truncated) (hw : w.Steps s a b) :
    ins.isPlain ∧ d.Valid s.instanceVariables.length s.args.length (Scopes.HasSlot s.scopes) ins ∧
      ins.operands ≤ a ∧ (b : Int) = a + ins.stackEffect := by
  cases hw with
  | push hplace =>
    cases h with
    | push hpushes =>
      obtain ⟨hplain, hvalid⟩ := hpushes.valid hplace.truncated
      obtain ⟨hneeds, heffect⟩ := hpushes.effect
      exact ⟨hplain, hvalid, by omega, by omega⟩
  | store hplace =>
    cases h with
    | store hstores =>
      obtain ⟨hplain, hvalid⟩ := hstores.valid hplace
      obtain ⟨hneeds, heffect⟩ := hstores.effect
      exact ⟨hplain, hvalid, by omega, by omega⟩
  | constant value =>
    cases h with
    | constant hentry => exact ⟨rfl, ⟨_, hentry⟩, Nat.zero_le _, rfl⟩
  | send toSuper count selector =>
    cases h with
    | send hentry =>
      exact ⟨rfl, ⟨_, hentry⟩, by simp only [Instruction.operands]; omega,
        by simp only [Instruction.stackEffect]; omega⟩
    | sendSuper hentry =>
      exact ⟨rfl, ⟨_, hentry⟩, by simp only [Instruction.operands]; omega,
        by simp only [Instruction.stackEffect]; omega⟩
  | primitive count number =>
    cases h with
    | primitive =>
      exact ⟨rfl, trivial, by simp only [Instruction.operands]; omega,
        by simp only [Instruction.stackEffect]; omega⟩
  | _ =>
    cases h
    exact ⟨rfl, trivial, by simp only [Instruction.operands]; omega,
      by simp only [Instruction.stackEffect]; omega⟩

/-- **Code that follows a script** refers to what is in scope. -/
theorem Meets.piece {s : Scoping} {room a b i k : Nat} {blocks : List Nest} {ws : List Intent}
    (h : d.Meets ws i k) (hscript : Script s room a b blocks ws) :
    d.Piece s.instanceVariables.length s.args.length s.scopes blocks i k := by
  induction hscript generalizing i k with
  | nil =>
    obtain rfl := meets_nil.1 h
    exact .nil
  | step hw _ _ _ ih =>
    obtain ⟨⟨ins, hi, hins⟩, hmore⟩ := meets_cons.1 h
    obtain ⟨hplain, hvalid, -⟩ := hins.steps hw
    exact .step hi (.inl hplain) hvalid (ih hmore)
  | answer hreturn _ _ ih =>
    obtain ⟨⟨_, hi, ⟨⟩⟩, hmore⟩ := meets_cons.1 h
    exact .step hi (.inr hreturn) (valid_of_isReturn hreturn) (ih hmore)
  | block _ hreturn _ _ _ ihbody ih =>
    obtain ⟨j, hblock, hmore⟩ := meets_append.1 h
    obtain ⟨argc, size, target, hi, -, -, hnext, htarget, hinner⟩ := meets_block hblock
    obtain ⟨l, hbody, hret⟩ := meets_append.1 hinner
    obtain ⟨⟨_, hl, ⟨⟩⟩, hend⟩ := meets_cons.1 hret
    obtain rfl := meets_nil.1 hend
    exact .block hi hnext htarget (ihbody hbody) hl hreturn (ih hmore)

end Draft

/-! ## What a piece of code is like -/

namespace Draft

variable {d : Draft} {n args : Nat} {scopes : Scopes} {blocks : List Nest} {i k : Nat}

/-- Every operand in a piece refers to something, if the slots of all that is ever in scope are
allowed. -/
theorem Piece.valid {slot : Nat → Prop} (h : d.Piece n args scopes blocks i k)
    (hscopes : ∀ j, scopes.HasSlot j → slot j)
    (hblocks : ∀ s ∈ scopingsOf scopes blocks, ∀ j, s.HasSlot j → slot j) {p : Nat}
    {ins : Instruction} (hle : i ≤ p) (hlt : p < k) (hp : d.code[p]? = some ins) :
    d.Valid n args slot ins := by
  induction h with
  | nil => omega
  | step hi _ hvalid _ ih =>
    rcases Nat.eq_or_lt_of_le hle with rfl | hgt
    · obtain rfl := Option.some.inj (hi.symm.trans hp)
      exact hvalid.mono hscopes
    · exact ih hscopes hblocks hgt hlt
  | @block scopes declared inner blocks i l k argc size target ret hi hnext _ hbody hl hreturn _
      ihbody ih =>
    have hinner : ∀ s ∈ scopingsOf (declared :: scopes) inner, ∀ j, s.HasSlot j → slot j :=
      fun s hs => hblocks s (List.mem_append_left _ (List.mem_cons_of_mem _ hs))
    by_cases hbody' : p < l
    · rcases Nat.eq_or_lt_of_le hle with rfl | hgt
      · obtain rfl := Option.some.inj (hi.symm.trans hp)
        trivial
      rcases Nat.eq_or_lt_of_le hgt with rfl | hgt
      · obtain rfl := Option.some.inj (hnext.symm.trans hp)
        trivial
      · exact ihbody (hblocks _ (List.mem_append_left _ List.mem_cons_self)) hinner hgt hbody'
    · rcases Nat.eq_or_lt_of_le (Nat.le_of_not_lt hbody') with rfl | hgt
      · obtain rfl := Option.some.inj (hl.symm.trans hp)
        exact valid_of_isReturn hreturn
      · exact ih hscopes (fun s hs => hblocks s (List.mem_append_right _ hs)) hgt hlt

/-- An instruction that makes no block has no body. -/
theorem not_hasBody {ins : Instruction} {t : Nat} (hi : d.code[i]? = some ins)
    (hplain : ∀ argc size, ins ≠ .pushBlock argc size) : ¬ d.HasBody i t := by
  rintro ⟨argc, size, _, hblock, -⟩
  exact hplain argc size (Option.some.inj (hi.symm.trans hblock))

theorem HasBody.pushBlock {t : Nat} (h : d.HasBody i t) :
    ∃ argc size, d.code[i]? = some (.pushBlock argc size) := by
  obtain ⟨argc, size, _, hi, -⟩ := h
  exact ⟨argc, size, hi⟩

theorem HasBody.unique {t u : Nat} (h : d.HasBody i t) (h' : d.HasBody i u) : t = u := by
  obtain ⟨_, _, _, -, hnext, rfl⟩ := h
  obtain ⟨_, _, _, -, hnext', rfl⟩ := h'
  rw [hnext] at hnext'
  cases hnext'
  rfl

theorem NestedIn.nil : d.NestedIn i i where
  le := Nat.le_refl i
  block p _ _ hle hlt := by omega
  jump p _ hle hlt := by omega
  nested p _ q _ hle hlt hlt' := by omega

theorem ne_of_isPlain_or_isReturn {ins : Instruction} (h : ins.isPlain ∨ ins.isReturn) :
    (∀ argc size, ins ≠ .pushBlock argc size) ∧ ∀ target, ins ≠ .jump target := by
  constructor
  · rintro argc size rfl
    rcases h with h | h <;> cases h
  · rintro target rfl
    rcases h with h | h <;> cases h

/-- An instruction that has nothing to do with blocks, in front of others. -/
theorem NestedIn.step {ins : Instruction} (h : d.NestedIn (i + 1) k) (hi : d.code[i]? = some ins)
    (hplain : ins.isPlain ∨ ins.isReturn) : d.NestedIn i k := by
  obtain ⟨hblock, hjump⟩ := ne_of_isPlain_or_isReturn hplain
  constructor
  · have := h.le
    omega
  · intro p argc size hle hlt hp
    rcases Nat.eq_or_lt_of_le hle with rfl | hgt
    · exact absurd (Option.some.inj (hi.symm.trans hp)) (hblock argc size)
    · exact h.block p argc size hgt hlt hp
  · intro p target hle hlt hp
    rcases Nat.eq_or_lt_of_le hle with rfl | hgt
    · exact absurd (Option.some.inj (hi.symm.trans hp)) (hjump target)
    · obtain ⟨q, argc, size, hle', hq⟩ := h.jump p target hgt hlt hp
      exact ⟨q, argc, size, by omega, hq⟩
  · intro p t q u hle hpq hlt hpt hqu
    rcases Nat.eq_or_lt_of_le hle with rfl | hgt
    · exact absurd hpt (not_hasBody hi hblock)
    · exact h.nested p t q u hgt hpq hlt hpt hqu

/-- Code in front of other code. -/
theorem NestedIn.append {j : Nat} (h : d.NestedIn i j) (h' : d.NestedIn j k) : d.NestedIn i k := by
  have hle := h.le
  have hle' := h'.le
  constructor
  · omega
  · intro p argc size hip hpk hp
    by_cases hpj : p < j
    · obtain ⟨t, hbody, hlt, ht, hend⟩ := h.block p argc size hip hpj hp
      exact ⟨t, hbody, hlt, by omega, hend⟩
    · exact h'.block p argc size (by omega) hpk hp
  · intro p target hip hpk hp
    by_cases hpj : p < j
    · exact h.jump p target hip hpj hp
    · obtain ⟨q, argc, size, hjq, hq⟩ := h'.jump p target (by omega) hpk hp
      exact ⟨q, argc, size, by omega, hq⟩
  · intro p t q u hip hpq hqk hpt hqu
    by_cases hpj : p < j
    · by_cases hqj : q < j
      · exact h.nested p t q u hip hpq hqj hpt hqu
      · obtain ⟨argc, size, hp⟩ := hpt.pushBlock
        obtain ⟨t', hbody, -, ht', -⟩ := h.block p argc size hip hpj hp
        rw [hpt.unique hbody]
        exact .inl (by omega)
    · exact h'.nested p t q u (by omega) hpq hqk hpt hqu

/-- A block around code. -/
theorem NestedIn.block_of {l : Nat} {argc : UInt8} {size target : UInt16} {ins : Instruction}
    (h : d.NestedIn (i + 2) l) (hi : d.code[i]? = some (.pushBlock argc size))
    (hnext : d.code[i + 1]? = some (.jump target)) (htarget : target.toNat = l + 1)
    (hl : d.code[l]? = some ins) (hreturn : ins.isReturn) : d.NestedIn i (l + 1) := by
  have hle := h.le
  have hbody : d.HasBody i (l + 1) := ⟨argc, size, target, hi, hnext, htarget⟩
  have hjump : ∀ t, ¬ d.HasBody (i + 1) t := fun t => not_hasBody hnext fun _ _ h => by cases h
  have hend : ∀ t, ¬ d.HasBody l t := fun t =>
    not_hasBody hl (ne_of_isPlain_or_isReturn (.inr hreturn)).1
  -- A block that is made in front of the end is the one at hand or in its body.
  have hplace : ∀ p t, i ≤ p → p < l + 1 → d.HasBody p t → p = i ∨ i + 2 ≤ p ∧ p < l := by
    intro p t hip hpl hpt
    have hne : p ≠ i + 1 := fun hc => hjump t (hc ▸ hpt)
    have hne' : p ≠ l := fun hc => hend t (hc ▸ hpt)
    omega
  constructor
  · omega
  · intro p argc' size' hip hpl hp
    by_cases hpi : p = i
    · subst hpi
      exact ⟨l + 1, hbody, by omega, Nat.le_refl _, ins, hl, hreturn⟩
    by_cases hpi' : p = i + 1
    · subst hpi'
      cases hnext.symm.trans hp
    by_cases hpl' : p = l
    · subst hpl'
      exact absurd (Option.some.inj (hl.symm.trans hp))
        ((ne_of_isPlain_or_isReturn (.inr hreturn)).1 _ _)
    obtain ⟨t, hpt, hlt, ht, hreturns⟩ := h.block p argc' size' (by omega) (by omega) hp
    exact ⟨t, hpt, hlt, by omega, hreturns⟩
  · intro p target' hip hpl hp
    by_cases hpi : p = i
    · subst hpi
      cases hi.symm.trans hp
    by_cases hpi' : p = i + 1
    · exact ⟨i, argc, size, Nat.le_refl i, hpi', hi⟩
    by_cases hpl' : p = l
    · subst hpl'
      exact absurd (Option.some.inj (hl.symm.trans hp))
        ((ne_of_isPlain_or_isReturn (.inr hreturn)).2 _)
    obtain ⟨q, argc', size', hle', hq⟩ := h.jump p target' (by omega) (by omega) hp
    exact ⟨q, argc', size', by omega, hq⟩
  · intro p t q u hip hpq hql hpt hqu
    have hq := (hplace q u (by omega) hql hqu).resolve_left (by omega)
    rcases hplace p t hip (by omega) hpt with rfl | hp
    · obtain ⟨argc', size', hq'⟩ := hqu.pushBlock
      obtain ⟨u', hbody', -, hu', -⟩ := h.block q argc' size' hq.1 hq.2 hq'
      rw [hpt.unique hbody, hqu.unique hbody']
      exact .inr ⟨hq.1, by omega⟩
    · exact h.nested p t q u hp.1 hpq hq.2 hpt hqu

/-- **A piece of code is nested.** -/
theorem Piece.nestedIn (h : d.Piece n args scopes blocks i k) : d.NestedIn i k := by
  induction h with
  | nil => exact .nil
  | step hi hplain _ _ ih => exact ih.step hi hplain
  | block hi hnext htarget _ hl hreturn _ ihbody ih =>
    exact (ihbody.block_of hi hnext htarget hl hreturn).append ih

/-! ## Whole methods -/

variable (d) in
/-- The code of a method is nested, and behind it there is one more instruction, a return from the
method. -/
structure WellNested : Prop where
  pos : 0 < d.code.size
  nested : d.NestedIn 0 (d.code.size - 1)
  last : d.code[d.code.size - 1]? = some .returnMethod

variable (d) in
/-- The instruction at `p` is in the body of the block that is made at `i`. -/
def InBody (i p : Nat) : Prop := ∃ t, d.HasBody i t ∧ i + 2 ≤ p ∧ p < t

namespace WellNested

theorem hasBody (h : d.WellNested) {t : Nat} (hbody : d.HasBody i t) :
    i + 2 < t ∧ t < d.code.size ∧ ∃ ins, d.code[t - 1]? = some ins ∧ ins.isReturn := by
  obtain ⟨argc, size, hi⟩ := hbody.pushBlock
  have hlt := (Array.getElem?_eq_some_iff.1 hi).1
  have hne : i ≠ d.code.size - 1 := by
    intro hc
    rw [hc, h.last] at hi
    cases hi
  obtain ⟨t', hbody', hlt', hle, hend⟩ := h.nested.block i argc size (Nat.zero_le i) (by omega) hi
  obtain rfl := hbody.unique hbody'
  have hpos := h.pos
  exact ⟨hlt', by omega, hend⟩

theorem apart (h : d.WellNested) {j t u : Nat} (hij : i < j) (hi : d.HasBody i t)
    (hj : d.HasBody j u) : t ≤ j ∨ i + 2 ≤ j ∧ u < t := by
  obtain ⟨hlt, hlt', -⟩ := h.hasBody hj
  exact h.nested.nested i t j u (Nat.zero_le i) hij (by omega) hi hj

/-- Behind an instruction that goes on there is another one, in the same bodies. -/
theorem goesOn (h : d.WellNested) {p : Nat} {ins : Instruction} (hp : d.code[p]? = some ins)
    (hgoes : ins.goesOn) : p + 1 < d.code.size ∧ ∀ i, d.InBody i p ↔ d.InBody i (p + 1) := by
  have hlt := (Array.getElem?_eq_some_iff.1 hp).1
  -- it is neither the last instruction of the code nor that of a body
  have hreturn : ∀ q ret, d.code[q]? = some ret → ret.isReturn → p ≠ q := by
    rintro q ret hq hret rfl
    obtain rfl := Option.some.inj (hp.symm.trans hq)
    rw [(Instruction.operands_of_isReturn hret).2.1] at hgoes
    cases hgoes
  refine ⟨?_, fun i => ⟨?_, ?_⟩⟩
  · have hne := hreturn _ _ h.last rfl
    omega
  · rintro ⟨t, hbody, hle, hpt⟩
    obtain ⟨-, -, ret, hret, hisReturn⟩ := h.hasBody hbody
    have hne := hreturn _ _ hret hisReturn
    exact ⟨t, hbody, by omega, by omega⟩
  · rintro ⟨t, hbody, hle, hpt⟩
    obtain ⟨_, _, _, -, hnext, -⟩ := id hbody
    have hne : p ≠ i + 1 := by
      rintro rfl
      obtain rfl := Option.some.inj (hp.symm.trans hnext)
      cases hgoes
    exact ⟨t, hbody, by omega, by omega⟩

/-- A jump leads to an instruction in the same bodies, past the body of one block. -/
theorem jumps (h : d.WellNested) {p : Nat} {target : UInt16}
    (hp : d.code[p]? = some (.jump target)) :
    target.toNat < d.code.size ∧ ∀ i, d.InBody i p ↔ d.InBody i target.toNat := by
  have hlt := (Array.getElem?_eq_some_iff.1 hp).1
  have hne : p ≠ d.code.size - 1 := by
    intro hc
    rw [hc, h.last] at hp
    cases hp
  obtain ⟨q, argc, size, -, rfl, hq⟩ := h.nested.jump p target (Nat.zero_le p) (by omega) hp
  have hbody : d.HasBody q target.toNat := ⟨argc, size, target, hq, hp, rfl⟩
  obtain ⟨hlt', hsize, -⟩ := h.hasBody hbody
  refine ⟨hsize, fun i => ⟨?_, ?_⟩⟩
  · rintro ⟨t, hit, hle, hpt⟩
    have hinside := (h.apart (by omega) hit hbody).resolve_left (by omega)
    exact ⟨t, hit, by omega, hinside.2⟩
  · rintro ⟨t, hit, hle, hpt⟩
    rcases Nat.lt_trichotomy i q with hiq | rfl | hqi
    · rcases h.apart hiq hit hbody with hbefore | hinside
      · omega
      · exact ⟨t, hit, by omega, by omega⟩
    · have := hit.unique hbody
      omega
    · rcases h.apart hqi hbody hit with hbehind | hinside
      · omega
      · omega

end WellNested

end Draft

/-- Where control goes behind an instruction, unless it returns. -/
def Instruction.successor? (i : Nat) : Instruction → Option Nat
  | .returnMethod => none
  | .returnBlock => none
  | .jump target => some target.toNat
  | _ => some (i + 1)

/-- **Control stays where it is.** Behind every instruction that does not return there is another
one in the code, and it is in the body of the same blocks. -/
theorem Draft.WellNested.successor {d : Draft} (h : d.WellNested) {p next : Nat} {ins : Instruction}
    (hp : d.code[p]? = some ins) (hnext : ins.successor? p = some next) :
    next < d.code.size ∧ ∀ i, d.InBody i p ↔ d.InBody i next := by
  cases ins with
  | returnMethod => cases hnext
  | returnBlock => cases hnext
  | jump target =>
    cases hnext
    exact h.jumps hp
  | _ =>
    cases hnext
    exact h.goesOn hp rfl

/-- What the emitter leaves of a method. -/
theorem Draft.piece_ofTree {instanceVariables : List String}
    {isGlobal : String → Except Fault Bool} {tree : MethodTree} {valueNeeded : Bool} {d : Draft}
    (hbody : ProperStatements tree.body)
    (h : Draft.ofTree instanceVariables isGlobal tree valueNeeded = .ok d) :
    d.argSize = tree.args.length ∧
      d.tempSize = tree.temps.length + slotsOfStatements tree.body ∧
      ∃ l, d.Piece instanceVariables.length d.argSize [tree.temps.zipIdx 0]
          (nestsOfStatements tree.temps.length tree.body) 0 l ∧
        d.code[l]? = some .returnMethod ∧ d.code.size = l + 1 := by
  obtain ⟨hargs, htemps, -, hmeets⟩ := Draft.laidOut_ofTree hbody h
  obtain ⟨ws, heq, hscript⟩ := script_method tree.body hbody
    (Scoping.enter ⟨instanceVariables, tree.args, []⟩ 0 tree.temps) tree.temps.length valueNeeded
    (Nat.le_refl _)
  rw [MethodTree.intents, heq] at hmeets
  obtain ⟨l, hpiece, hret⟩ := Draft.meets_append.1 hmeets
  obtain ⟨⟨_, hl, ⟨⟩⟩, hend⟩ := Draft.meets_cons.1 hret
  refine ⟨hargs, htemps, l, ?_, hl, Draft.meets_nil.1 hend⟩
  rw [hargs]
  exact hpiece.piece hscript

/-- **Operands and jumps of compiled code are valid.** For every method that can be parsed, all
instance variables and globals, and whether or not the value of its last statement is asked for: if
the method is compiled, then
* every operand refers to a literal of the right sort, to an argument, to an instance variable or to
  a slot of the method;
* variables of the method and of its blocks that are ever in scope together have different slots,
  and the code of the method and of each block uses the slots of what is in scope there;
* it uses for each name the slot of this name: the code has one instruction for each intent of the
  tree, in this order, where the intent of a name is the place that the name has among the variables
  in scope, with their slots, and a block stores its arguments in the slots of its parameters. Only
  the position of an argument is taken modulo 65536;
* every block has a body behind the one jump that passes over it, there are no other jumps, bodies
  are nested and end in returns, and the code ends in a return from the method;
* so control never leaves the code, nor does it run into the body of a block or out of it. -/
theorem operands_and_jumps_valid {source : List UInt8} {tree : MethodTree}
    {instanceVariables : List String} {isGlobal : String → Except Fault Bool} {valueNeeded : Bool}
    {d : Draft} (hparse : MethodTree.ofSource source = .ok tree)
    (hcompile : Draft.ofTree instanceVariables isGlobal tree valueNeeded = .ok d) :
    (∀ (p : Nat) ins, d.code[p]? = some ins →
      d.Valid instanceVariables.length d.argSize (· < d.tempSize) ins) ∧
    (∀ s ∈ tree.nest.scopings [], s.Distinct d.tempSize) ∧
    d.Piece instanceVariables.length d.argSize [tree.temps.zipIdx 0]
      (nestsOfStatements tree.temps.length tree.body) 0 (d.code.size - 1) ∧
    d.Follows ((tree.intents instanceVariables valueNeeded).map .truncated) 0 d.code.size ∧
    d.WellNested ∧
    ∀ (p : Nat) ins next, d.code[p]? = some ins → ins.successor? p = some next →
      next < d.code.size ∧ ∀ i, d.InBody i p ↔ d.InBody i next := by
  have hproper := MethodTree.proper_ofSource hparse
  obtain ⟨-, htemps, l, hpiece, hl, hsize⟩ := Draft.piece_ofTree hproper hcompile
  obtain rfl : l = d.code.size - 1 := by omega
  have hdistinct : ∀ s ∈ tree.nest.scopings [], s.Distinct d.tempSize := by
    rw [htemps]
    exact tree.scopings_distinct
  have hnested : d.WellNested := ⟨by omega, hpiece.nestedIn, hl⟩
  refine ⟨fun p ins hp => ?_, hdistinct, hpiece, Draft.follows_ofTree hproper hcompile, hnested,
    fun p ins next => hnested.successor⟩
  have hlt := (Array.getElem?_eq_some_iff.1 hp).1
  by_cases hlast : p < d.code.size - 1
  · exact hpiece.valid (hdistinct _ List.mem_cons_self).lt
      (fun s hs => (hdistinct s (List.mem_cons_of_mem _ hs)).lt) (Nat.zero_le p) hlast hp
  · obtain rfl : p = d.code.size - 1 := by omega
    obtain rfl := Option.some.inj (hl.symm.trans hp)
    trivial

/-- The theorem applies to a method with a block that assigns, and with a cascade. -/
theorem operands_and_jumps_valid_raise :
    MethodTree.ofSource raiseSource = .ok raiseTree ∧
      ∃ d, Draft.ofTree ["n"] (fun _ => .ok false) raiseTree false = .ok d ∧ d.WellNested ∧
        (∀ s ∈ raiseTree.nest.scopings [], s.Distinct d.tempSize) ∧
        d.Follows ((raiseTree.intents ["n"] false).map .truncated) 0 d.code.size := by
  obtain ⟨d, hd⟩ := ofTree_raiseTree
  obtain ⟨-, hdistinct, -, hfollows, hnested, -⟩ :=
    operands_and_jumps_valid ofSource_raiseSource hd
  exact ⟨ofSource_raiseSource, d, hd, hnested, hdistinct, hfollows⟩

/-! ## Operands are exact -/

/-- **Operands are exact, but for positions of arguments.** Whenever a method is compiled, its code
consists of one instruction for each intent of its tree, in this order, and the operands are the
numbers of the intents: slots, indices of instance variables, positions of literals, targets of
jumps, counts of arguments, and sizes of stacks of blocks. Only the position of an argument is taken
modulo 65536. So the operands of a method with at most 65536 arguments are all exact. -/
theorem operands_exact_but_arguments {source : List UInt8} {tree : MethodTree}
    {instanceVariables : List String} {isGlobal : String → Except Fault Bool} {valueNeeded : Bool}
    {d : Draft} (hparse : MethodTree.ofSource source = .ok tree)
    (hcompile : Draft.ofTree instanceVariables isGlobal tree valueNeeded = .ok d) :
    d.Follows ((tree.intents instanceVariables valueNeeded).map .truncated) 0 d.code.size ∧
      (tree.args.length ≤ 65536 →
        d.Follows (tree.intents instanceVariables valueNeeded) 0 d.code.size) := by
  have hfollows := Draft.follows_ofTree (MethodTree.proper_ofSource hparse) hcompile
  refine ⟨hfollows, fun hargs => ?_⟩
  rwa [MethodTree.map_truncated_intents hargs] at hfollows

/-- The operands of a method with a block that assigns, and with a cascade, are exact. -/
theorem operands_exact_but_arguments_raise :
    MethodTree.ofSource raiseSource = .ok raiseTree ∧
      ∃ d, Draft.ofTree ["n"] (fun _ => .ok false) raiseTree false = .ok d ∧
        d.Follows (raiseTree.intents ["n"] false) 0 d.code.size := by
  obtain ⟨d, hd⟩ := ofTree_raiseTree
  exact ⟨ofSource_raiseSource, d, hd,
    (operands_exact_but_arguments ofSource_raiseSource hd).2 (by decide)⟩

end Smalltalk
