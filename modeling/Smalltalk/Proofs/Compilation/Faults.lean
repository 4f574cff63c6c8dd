import Smalltalk.Method.Draft

/-!
# What can go wrong in compiling a tree

Compiling a tree looks at the machine in one way only: it asks whether a global exists. So if it
ends in a fault of the machine, one of these questions did. `FaultsFrom` says so about an effect on
an emission; it is kept by sequences, and the rest is one case for each construct of a tree.

## Main results

* `Draft.faultsFrom_ofTree`: a fault that ends the compilation of a tree is the answer to a question
  about a global
-/

namespace Smalltalk

namespace Emission

/-- If the effect ends in a fault of the machine, a question about a global has. -/
def FaultsFrom {α : Type} (isGlobal : String → Except Fault Bool) (x : Emit α) : Prop :=
  ∀ e f, x.run e = .error (.machine f) → ∃ name, isGlobal name = .error f

section Rules

variable {α β : Type} {isGlobal : String → Except Fault Bool} {x : Emit α} {k : α → Emit β}

theorem FaultsFrom.pure (a : α) : FaultsFrom isGlobal (Pure.pure a : Emit α) := by
  intro e f h
  cases h

theorem FaultsFrom.bind (hx : FaultsFrom isGlobal x) (hk : ∀ a, FaultsFrom isGlobal (k a)) :
    FaultsFrom isGlobal (x >>= k) := by
  intro e f h
  rw [StateT.run_bind] at h
  cases hrun : x.run e with
  | error err =>
    rw [hrun] at h
    cases h
    exact hx e f hrun
  | ok p =>
    rw [hrun] at h
    exact hk p.1 p.2 f h

theorem FaultsFrom.get : FaultsFrom isGlobal (MonadState.get : Emit Emission) := by
  intro e f h
  cases h

theorem FaultsFrom.of_modify (g : Emission → Emission) :
    FaultsFrom isGlobal (modify g : Emit PUnit) := by
  intro e f h
  cases h

theorem FaultsFrom.modifyGet (g : Emission → α × Emission) :
    FaultsFrom isGlobal (MonadState.modifyGet g : Emit α) := by
  intro e f h
  cases h

theorem FaultsFrom.fail (line : Nat) (cause : SemanticCause) :
    FaultsFrom isGlobal (Emission.fail line cause : Emit α) := by
  intro e f h
  cases h

theorem FaultsFrom.ite {c : Prop} [Decidable c] {y : Emit α} (hx : FaultsFrom isGlobal x)
    (hy : FaultsFrom isGlobal y) : FaultsFrom isGlobal (if c then x else y) := by
  split
  · exact hx
  · exact hy

theorem FaultsFrom.discard (hx : FaultsFrom isGlobal x) :
    FaultsFrom isGlobal (Functor.discard x) := by
  have heq : Functor.discard x = x >>= fun _ => Pure.pure PUnit.unit := by
    rw [← map_eq_pure_bind]
    rfl
  rw [heq]
  exact hx.bind fun _ => .pure _

theorem FaultsFrom.lift {y : Except CompileError α}
    (h : ∀ f, y = .error (.machine f) → ∃ name, isGlobal name = .error f) :
    FaultsFrom isGlobal (liftM y : Emit α) := by
  intro e f hrun
  cases y with
  | ok a => cases hrun
  | error err =>
    cases hrun
    exact h f rfl

end Rules

/-! ## Names -/

section Names

variable (names : Names) (line : Nat)

theorem faultsFrom_resolve (name : String) :
    FaultsFrom names.isGlobal (liftM (names.resolve name line) : Emit Variable) := by
  refine .lift fun f h => ⟨name, ?_⟩
  unfold Names.resolve at h
  split at h <;> try cases h
  split at h <;> try cases h
  split at h <;> try cases h
  split at h <;> try cases h
  split at h <;> try cases h
  split at h <;> try cases h
  split at h
  · split at h <;> cases h
  · split at h
    · split at h <;> cases h
      assumption
    · cases h

theorem faultsFrom_checkDeclaration (name : String) :
    FaultsFrom names.isGlobal (liftM (names.checkDeclaration name line) : Emit Unit) := by
  refine .lift fun f h => ?_
  unfold Names.checkDeclaration at h
  split at h
  · cases h
  · split at h <;> cases h

end Names

/-! ## Instructions -/

section Instructions

variable {isGlobal : String → Except Fault Bool}

theorem faultsFrom_emit (i : Instruction) : FaultsFrom isGlobal (emit i) := by
  refine FaultsFrom.get.bind fun e => ?_
  refine .ite (FaultsFrom.get.bind fun e => .fail _ _) ?_
  exact (FaultsFrom.of_modify _).bind fun _ => .pure _

theorem faultsFrom_literal (entry : LiteralEntry) (line : Nat) :
    FaultsFrom isGlobal (literal entry line) := by
  refine FaultsFrom.get.bind fun e => ?_
  split
  · exact .pure _
  · refine FaultsFrom.get.bind fun e => ?_
    exact .ite ((FaultsFrom.of_modify _).bind fun _ => .pure _) (.fail _ _)

theorem faultsFrom_newSlot (line : Nat) : FaultsFrom isGlobal (newSlot line) := by
  refine FaultsFrom.get.bind fun e => ?_
  exact .ite ((FaultsFrom.of_modify _).bind fun _ => .pure _) (.fail _ _)

theorem faultsFrom_declare (names : Names) (line : Nat) (duplicate : String → SemanticCause)
    (taken : Scope) (more : List String) :
    FaultsFrom names.isGlobal (declare names line duplicate taken more) := by
  induction more generalizing taken with
  | nil => exact .pure _
  | cons name more ih =>
    refine (faultsFrom_checkDeclaration names line name).bind fun _ => ?_
    refine .ite (.fail _ _) ?_
    exact (faultsFrom_newSlot line).bind fun slot => ih _

theorem faultsFrom_pushVariable (v : Variable) (line : Nat) :
    FaultsFrom isGlobal (pushVariable v line) := by
  unfold pushVariable
  cases v with
  | global name =>
    refine FaultsFrom.bind ?_ fun i => (faultsFrom_emit i).discard
    rw [map_eq_pure_bind]
    exact (faultsFrom_literal _ line).bind fun _ => .pure _
  | _ => exact (FaultsFrom.pure _).bind fun i => (faultsFrom_emit i).discard

theorem faultsFrom_storeVariable (v : Variable) (name : String) (line : Nat) :
    FaultsFrom isGlobal (storeVariable v name line) := by
  unfold storeVariable
  cases v with
  | temp slot => exact .pure _
  | instanceVariable index => exact .pure _
  | global name => exact (faultsFrom_literal _ line).bind fun _ => .pure _
  | _ => exact .fail _ _

theorem faultsFrom_pushLiteral (value : Literal) (line : Nat) :
    FaultsFrom isGlobal (pushLiteral value line) := by
  unfold pushLiteral
  split
  · exact .fail _ _
  · exact (faultsFrom_literal _ line).bind fun i => (faultsFrom_emit _).discard

theorem faultsFrom_dropUnless (needed : Bool) : FaultsFrom isGlobal (dropUnless needed) :=
  .ite (.pure _) (faultsFrom_emit _).discard

theorem faultsFrom_smallOperand (k line : Nat) (cause : SemanticCause) :
    FaultsFrom isGlobal (smallOperand k line cause) :=
  .ite (.pure _) (.fail _ _)

theorem faultsFrom_openBlock (argc : UInt8) : FaultsFrom isGlobal (openBlock argc) :=
  (faultsFrom_emit _).bind fun _ => (faultsFrom_emit _).discard.bind fun _ => .pure _

theorem faultsFrom_storeParameters (scope : Scope) :
    FaultsFrom isGlobal (storeParameters scope) := by
  induction scope with
  | nil => exact .pure _
  | cons p more ih => exact (faultsFrom_emit _).discard.bind fun _ => ih

theorem faultsFrom_closeBlock (start : Nat) (argc : UInt8) (line : Nat) (depth maxDepth : Int) :
    FaultsFrom isGlobal (closeBlock start argc line depth maxDepth) := by
  refine FaultsFrom.get.bind fun e => FaultsFrom.get.bind fun e' => ?_
  exact .ite (.fail _ _) (.ite (.fail _ _) (.of_modify _))

end Instructions

/-! ## Trees -/

theorem blockBody_cons_cons (names : Names) (s next : Statement) (rest : List Statement) :
    blockBody names (s :: next :: rest) =
      (do
        statement names s
        blockBody names (next :: rest)) := by
  rw [blockBody] <;> exact fun _ _ => nofun

theorem methodBody_cons_cons (names : Names) (needed : Bool) (s next : Statement)
    (rest : List Statement) :
    methodBody names needed (s :: next :: rest) =
      (do
        statement names s
        methodBody names needed (next :: rest)) := by
  rw [methodBody] <;> exact fun _ _ => nofun

mutual

theorem faultsFrom_expr (names : Names) (needed : Bool) (e : Expr) :
    FaultsFrom names.isGlobal (expr names needed e) := by
  cases e with
  | name name line =>
    unfold expr
    refine (FaultsFrom.of_modify _).bind fun _ => ?_
    refine (faultsFrom_resolve names line name).bind fun v => ?_
    exact .ite (faultsFrom_pushVariable v line) (.pure _)
  | literal value line =>
    unfold expr
    refine (FaultsFrom.of_modify _).bind fun _ => ?_
    exact .ite (faultsFrom_pushLiteral value line) (.pure _)
  | assign name value line =>
    unfold expr
    refine (FaultsFrom.of_modify _).bind fun _ => ?_
    refine (faultsFrom_resolve names line name).bind fun v => ?_
    refine (faultsFrom_storeVariable v name line).bind fun store => ?_
    refine (faultsFrom_expr names true value).bind fun _ => ?_
    refine FaultsFrom.ite ?_ (faultsFrom_emit _).discard
    exact (faultsFrom_emit _).discard.bind fun _ => (faultsFrom_emit _).discard
  | send receiver message =>
    unfold expr
    refine (FaultsFrom.of_modify _).bind fun _ => ?_
    refine (faultsFrom_expr names true receiver).bind fun _ => ?_
    refine (faultsFrom_messageSend names receiver.isSuper message).bind fun _ => ?_
    exact faultsFrom_dropUnless needed
  | cascade receiver messages =>
    unfold expr
    refine (FaultsFrom.of_modify _).bind fun _ => ?_
    refine (faultsFrom_expr names true receiver).bind fun _ => ?_
    exact faultsFrom_cascade names receiver.isSuper needed messages
  | block b =>
    obtain ⟨params, temps, body, line⟩ := b
    unfold expr
    refine (FaultsFrom.of_modify _).bind fun _ => ?_
    refine (faultsFrom_smallOperand _ line _).bind fun argc => ?_
    refine (faultsFrom_openBlock argc).bind fun start => ?_
    refine (FaultsFrom.modifyGet _).bind fun p => ?_
    refine (faultsFrom_declare names line _ [] (params ++ temps)).bind fun scope => ?_
    refine (faultsFrom_storeParameters _).bind fun _ => ?_
    refine (faultsFrom_blockBody { names with scopes := scope :: names.scopes } body).bind
      fun _ => ?_
    exact (faultsFrom_closeBlock _ _ _ _ _).bind fun _ => faultsFrom_dropUnless needed
  | primitive number args line =>
    unfold expr
    refine (FaultsFrom.of_modify _).bind fun _ => ?_
    refine .ite (.fail _ _) ?_
    refine (faultsFrom_exprs names args).bind fun _ => ?_
    refine (faultsFrom_smallOperand _ line _).bind fun argc => ?_
    exact (faultsFrom_emit _).discard.bind fun _ => faultsFrom_dropUnless needed

theorem faultsFrom_exprs (names : Names) (es : List Expr) :
    FaultsFrom names.isGlobal (exprs names es) := by
  cases es with
  | nil => exact .pure _
  | cons e es =>
    unfold exprs
    exact (faultsFrom_expr names true e).bind fun _ => faultsFrom_exprs names es

theorem faultsFrom_messageSend (names : Names) (toSuper : Bool) (message : Message) :
    FaultsFrom names.isGlobal (messageSend names toSuper message) := by
  obtain ⟨selector, args, line⟩ := message
  unfold messageSend
  refine (faultsFrom_exprs names args).bind fun _ => ?_
  refine (faultsFrom_smallOperand _ line _).bind fun argc => ?_
  exact (faultsFrom_literal _ line).bind fun entry => (faultsFrom_emit _).discard

theorem faultsFrom_cascade (names : Names) (toSuper needed : Bool) (messages : List Message) :
    FaultsFrom names.isGlobal (cascade names toSuper needed messages) := by
  match messages with
  | [] => exact .pure _
  | [message] =>
    unfold cascade
    exact (faultsFrom_messageSend names toSuper message).bind fun _ => faultsFrom_dropUnless needed
  | message :: next :: more =>
    unfold cascade
    refine (faultsFrom_emit _).discard.bind fun _ => ?_
    refine (faultsFrom_messageSend names toSuper message).bind fun _ => ?_
    exact (faultsFrom_emit _).discard.bind fun _ =>
      faultsFrom_cascade names toSuper needed (next :: more)

theorem faultsFrom_statement (names : Names) (s : Statement) :
    FaultsFrom names.isGlobal (statement names s) := by
  cases s with
  | evaluate e => exact faultsFrom_expr names false e
  | answer e =>
    unfold statement
    exact (faultsFrom_expr names true e).bind fun _ => (faultsFrom_emit _).discard

theorem faultsFrom_blockBody (names : Names) (body : List Statement) :
    FaultsFrom names.isGlobal (blockBody names body) := by
  match body with
  | [] =>
    unfold blockBody
    exact (faultsFrom_emit _).discard.bind fun _ => (faultsFrom_emit _).discard
  | [.answer e] =>
    unfold blockBody
    exact (faultsFrom_expr names true e).bind fun _ => (faultsFrom_emit _).discard
  | [.evaluate e] =>
    unfold blockBody
    exact (faultsFrom_expr names true e).bind fun _ => (faultsFrom_emit _).discard
  | s :: next :: rest =>
    rw [blockBody_cons_cons]
    exact (faultsFrom_statement names s).bind fun _ => faultsFrom_blockBody names (next :: rest)

end

theorem faultsFrom_methodBody (names : Names) (needed : Bool) (body : List Statement) :
    FaultsFrom names.isGlobal (methodBody names needed body) := by
  match body with
  | [] => exact (faultsFrom_emit _).discard.bind fun _ => (faultsFrom_emit _).discard
  | [.answer e] => exact (faultsFrom_expr names true e).bind fun _ => (faultsFrom_emit _).discard
  | [.evaluate e] =>
    unfold methodBody
    refine (faultsFrom_expr names needed e).bind fun _ => ?_
    refine FaultsFrom.ite (faultsFrom_emit _).discard ?_
    exact (faultsFrom_emit _).discard.bind fun _ => (faultsFrom_emit _).discard
  | s :: next :: rest =>
    rw [methodBody_cons_cons]
    exact (faultsFrom_statement names s).bind fun _ =>
      faultsFrom_methodBody names needed (next :: rest)

theorem faultsFrom_checkArguments (names : Names) (taken : NameTree) (more : List String) :
    FaultsFrom names.isGlobal (checkArguments names taken more) := by
  induction more generalizing taken with
  | nil => exact .pure _
  | cons name more ih =>
    refine (faultsFrom_checkDeclaration names 1 name).bind fun _ => ?_
    exact .ite (.fail _ _) (ih _)

theorem faultsFrom_method (names : Names) (tree : MethodTree) (needed : Bool) :
    FaultsFrom names.isGlobal (method names tree needed) := by
  refine (faultsFrom_checkArguments names .none tree.args).bind fun _ => ?_
  refine (faultsFrom_declare { names with args := tree.args } 1 _ [] tree.temps).bind
    fun scope => ?_
  exact faultsFrom_methodBody { names with args := tree.args, scopes := [scope] } needed tree.body

end Emission

/-- **A fault that ends the compilation of a tree** is the answer to a question about a global. -/
theorem Draft.faultsFrom_ofTree {instanceVariables : List String}
    {isGlobal : String → Except Fault Bool} {tree : MethodTree} {valueNeeded : Bool} {f : Fault}
    (h : Draft.ofTree instanceVariables isGlobal tree valueNeeded = .error (.machine f)) :
    ∃ name, isGlobal name = .error f := by
  simp only [Draft.ofTree] at h
  have hmethod := Emission.faultsFrom_method ⟨instanceVariables, [], [], isGlobal⟩ tree valueNeeded
  cases hrun : (Emission.method ⟨instanceVariables, [], [], isGlobal⟩ tree valueNeeded).run {} with
  | ok p =>
    rw [hrun] at h
    cases h
  | error err =>
    rw [hrun] at h
    cases h
    exact hmethod _ f hrun

end Smalltalk
