import PrimitiveShader.Program.Builder

/-!
# Emission

Code is emitted at the end of the innermost open block of a builder. `Emit α` is an action that does so
and hands back an `α`, mostly the value of the instruction it appended. Branches and loops are opened
before and closed after the actions that emit what they hold.

An action says what it does to a builder (`Emit.build`) and what it does to a program with a single
block (`Emit.apply`), and that the blocks which are open around the innermost one make no difference:
whatever an action opens it closes, so a builder that was balanced can be finished.

A new instruction is stored with the type that its operands give it, and with type `void` when they
do not fit; a later validation reports those. Actions that have to know the type of an operand fault
when there is no such value.
-/

namespace PrimitiveShader

/-- Everything that `p` defines and declares is in `P`, under the same number. -/
structure Program.Within (p P : Program) : Prop where
  definitions : p.definitions.toList <+: P.definitions.toList
  vars : p.vars.toList <+: P.vars.toList

/-- The program `p'` is `p` with something added at the end. -/
structure Program.Grows (p p' : Program) : Prop extends p.Within p' where
  body : p.body <+: p'.body
  stage : p'.stage = p.stage

namespace Program

variable {p p' p'' : Program}

/-- Only the tables count. -/
theorem Within.same {stage stage' : Stage} {body body' : Block} {size size' : Nat} {definitions : Array Definition}
    {vars : Array VarDecl} : Within ⟨stage, body, size, definitions, vars⟩ ⟨stage', body', size', definitions, vars⟩ :=
  ⟨List.prefix_rfl, List.prefix_rfl⟩

theorem Within.refl (p : Program) : p.Within p := .same

theorem Within.trans (h : p.Within p') (h' : p'.Within p'') : p.Within p'' :=
  ⟨h.definitions.trans h'.definitions, h.vars.trans h'.vars⟩

theorem Grows.refl (p : Program) : p.Grows p := ⟨.same, List.prefix_rfl, rfl⟩

theorem Grows.trans (h : p.Grows p') (h' : p'.Grows p'') : p.Grows p'' :=
  ⟨h.toWithin.trans h'.toWithin, h.body.trans h'.body, h'.stage.trans h.stage⟩

end Program

/-- An action that appends to the innermost open block. -/
structure Emit (α : Type) where
  /-- What the action does to a program. -/
  apply : Program → Except Fault (α × Program)
  /-- What the action does to a builder. -/
  build : Builder → Except Fault (α × Builder)
  build_eq : ∀ b, build b = (apply b.program).map fun r => (r.1, { b with program := r.2 })
  grows : ∀ {p : Program} {a : α} {p' : Program}, apply p = .ok (a, p') → p.Grows p'

namespace Emit

variable {α β : Type}

instance : CoeFun (Emit α) fun _ => Program → Except Fault (α × Program) := ⟨apply⟩

/-- An action that opens nothing. -/
def of (action : Program → Except Fault (α × Program))
    (h : ∀ {p : Program} {a : α} {p' : Program}, action p = .ok (a, p') → p.Grows p') : Emit α where
  apply := action
  build b := (action b.program).map fun r => (r.1, { b with program := r.2 })
  build_eq _ := rfl
  grows := h

/-- Two actions, one after the other. -/
protected def bind (action : Emit α) (next : α → Emit β) : Emit β where
  apply p := action p >>= fun r => next r.1 r.2
  build b := action.build b >>= fun r => (next r.1).build r.2
  build_eq b := by
    rw [action.build_eq]
    cases action b.program with
    | error fault => rfl
    | ok r => exact (next r.1).build_eq { b with program := r.2 }
  grows {p _ _} h := by
    cases hr : action p with
    | error fault =>
      rw [hr] at h
      cases h
    | ok r =>
      rw [hr] at h
      exact (action.grows hr).trans ((next r.1).grows h)

/-- An outcome that the program has no part in. -/
def lift (r : Except Fault α) : Emit α := of (fun program => r.map (·, program)) fun h => by
  cases r with
  | error fault => cases h
  | ok a =>
    cases h
    exact .refl _

instance : Monad Emit where
  pure a := lift (.ok a)
  bind := Emit.bind

instance : MonadLift (Except Fault) Emit := ⟨lift⟩

/-- The program so far. -/
def get : Emit Program := of (fun program => .ok (program, program)) fun h => by
  cases h
  exact .refl _

/-- Ends with a fault. -/
def fail (fault : Fault) : Emit α := lift (.error fault)

/-- Appends existing nodes. -/
def place (nodes : List Node) : Emit Unit :=
  of (fun program => .ok ((), { program with body := program.body ++ nodes })) fun h => by
    cases h
    exact ⟨.same, List.prefix_append _ _, rfl⟩

/-- Appends a new instruction. -/
def push (instr : Instr) : Emit Value := of (fun program =>
    let value : Value := ⟨program.definitions.size⟩
    let type := (program.resultType? instr).getD .void
    .ok (value, { program with
      definitions := program.definitions.push ⟨instr, type⟩
      body := program.body ++ [.instr value] })) fun h => by
  cases h
  exact ⟨⟨by simp, List.prefix_rfl⟩, List.prefix_append _ _, rfl⟩

/-- Appends a new instruction without a result. -/
def run (instr : Instr) : Emit Unit := do
  let _ ← push instr

/-- Declares a variable. -/
def createVar (name : String) (type : ScalarType) : Emit Var :=
  of (fun program => .ok (program.createVar name type)) fun h => by
    cases h
    exact ⟨⟨List.prefix_rfl, by simp⟩, List.prefix_rfl, rfl⟩

/-- The type of a value. -/
def typeOf (value : Value) : Emit ScalarType := do (← get).typeOf value

/-- The value of a constant, `none` for any other instruction. -/
def constant? (value : Value) : Emit (Option UInt64) := do
  return (← (← get).instr value).constant?

/-! ## Control flow -/

/-- Emits into a block of its own, which is not placed. -/
def nested (action : Emit Unit) : Emit Block := of (fun program =>
    (action { program with body := [] }).map fun r => (r.2.body, { r.2 with body := program.body }))
  fun {p _ _} h => by
    cases hr : action { p with body := [] } with
    | error fault =>
      rw [hr] at h
      cases h
    | ok r =>
      rw [hr] at h
      cases h
      have hgrows := action.grows hr
      exact ⟨⟨hgrows.definitions, hgrows.vars⟩, List.prefix_rfl, hgrows.stage⟩

/-- Emits a branch without `else`. -/
def ifThen (cond : Value) (action : Emit Unit) : Emit Unit :=
  { nested action >>= fun block => place [.branch cond block []] with
    build := fun b => do
      let r ← action.build (b.openIf cond)
      return ((), ← r.2.closeIf)
    build_eq := fun b => by
      rw [action.build_eq]
      change (Except.map _ (action { b.program with body := [] }) >>= _) =
        Except.map _ (Except.map _ (action { b.program with body := [] }) >>= _)
      cases action { b.program with body := [] } <;> rfl }

/-- Emits a branch. -/
def ifThenElse (cond : Value) (thenAction elseAction : Emit Unit) : Emit Unit :=
  { nested thenAction >>= fun thenBlock => nested elseAction >>= fun elseBlock =>
      place [.branch cond thenBlock elseBlock] with
    build := fun b => do
      let r ← thenAction.build (b.openIf cond)
      let r ← elseAction.build (← r.2.openElse)
      return ((), ← r.2.closeIf)
    build_eq := fun b => by
      rw [thenAction.build_eq]
      change (Except.map _ (thenAction { b.program with body := [] }) >>= _) =
        Except.map _ (Except.map _ (thenAction { b.program with body := [] }) >>= _)
      cases thenAction { b.program with body := [] } with
      | error fault => rfl
      | ok r =>
        change (elseAction.build ⟨{ r.2 with body := [] }, _⟩ >>= _) =
          Except.map _ (Except.map _ (elseAction { r.2 with body := [] }) >>= _)
        rw [elseAction.build_eq]
        cases elseAction { r.2 with body := [] } <;> rfl }

/-- Emits a loop. -/
def loop (action : Emit Unit) : Emit Unit :=
  { nested action >>= fun body => place [.loop body] with
    build := fun b => do
      let r ← action.build b.openLoop
      return ((), ← r.2.closeLoop)
    build_eq := fun b => by
      rw [action.build_eq]
      change (Except.map _ (action { b.program with body := [] }) >>= _) =
        Except.map _ (Except.map _ (action { b.program with body := [] }) >>= _)
      cases action { b.program with body := [] } <;> rfl }

/-- Leaves the innermost loop. -/
def leave : Emit Unit := place [.leave]

/-! ## Constants -/

/-- A constant, cut down to its type. -/
def imm (type : ScalarType) (value : UInt64) : Emit Value := push (.const type (value &&& type.mask))

/-- A 32-bit constant. -/
def imm32 (value : Nat) : Emit Value := imm .u32 (UInt64.ofNat value)

/-- A boolean constant. -/
def immBool (value : Bool) : Emit Value := imm .bool value.toUInt64

/-- A value that nothing may depend on. -/
def undef (type : ScalarType) : Emit Value := push (.undef type)

/-! ## Arithmetic -/

/-- A binary operator. -/
def binary (op : BinaryOp) (a b : Value) : Emit Value := push (.binary op a b)

/-- A binary operator with a constant of the same type on the right. -/
def binaryImm (op : BinaryOp) (a : Value) (imm : UInt64) : Emit Value := do
  let b ← Emit.imm (← typeOf a) imm
  binary op a b

/-- A left shift by a constant. -/
def shlImm (a : Value) (shift : Nat) : Emit Value := do
  let b ← imm32 shift
  binary .shl a b

/-- A unary operator. -/
def unary (op : UnaryOp) (a : Value) : Emit Value := push (.unary op a)

/-- A choice between two values. -/
def select (cond a b : Value) : Emit Value := push (.select cond a b)

/-- A change of type. Nothing is emitted for a value that has the type already. -/
def convert (a : Value) (type : ScalarType) : Emit Value := do
  if (← typeOf a) = type then return a else push (.convert a type)

/-- Some bits of a value. -/
def extract (a : Value) (offset bits : UInt8) : Emit Value := push (.extract a offset bits)

/-! ## Variables and intrinsics -/

/-- Reads a variable. -/
def loadVar (var : Var) : Emit Value := push (.loadVar var)

/-- Writes a variable. -/
def storeVar (var : Var) (a : Value) : Emit Unit := run (.storeVar var a)

/-- An intrinsic with a result. -/
def intrinsic (op : Intrinsic) : Emit Value := push (.intrinsic op)

/-- An intrinsic without a result. -/
def effect (op : Intrinsic) : Emit Unit := run (.intrinsic op)

/-- An input of the lane. -/
def input (input : LaneInput) : Emit Value := intrinsic (.input input)

/-- A cross-lane operation. -/
def crossLane (op : CrossLaneOp) : Emit Value := intrinsic (.crossLane op)

/-! ## Builders -/

/-- Emits with a builder of its own and hands back the finished program. -/
def finish (action : Emit Unit) (program : Program) : Except Fault Program := do
  let r ← action.build { program }
  r.2.finish

end Emit

/-- Emits at the end of the innermost open block. -/
def Builder.emit {α : Type} (builder : Builder) (action : Emit α) : Except Fault (α × Builder) := action.build builder

end PrimitiveShader
