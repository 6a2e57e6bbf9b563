import PrimitiveShader.Proofs.Memory.Ownership

/-!
# One lane as a thread

A lane can be looked at as a thread of its own. It has its state, it knows those bytes of shared
memory that nobody else may write, it makes exports, and the first lane of the workgroup asks for
their space. `Block.wp` is the precondition under which
a thread runs a block without ever breaking a rule of the hardware: every load is of bytes without
an owner, every store is to bytes that the thread owns, and nothing else is asked of the workgroup.
There is one postcondition for the end of the block and one for the departure from the loop around
it. Loops have an invariant.

The result of a cross-lane operation depends on other threads, so the precondition allows any.
-/

namespace PrimitiveShader

/-- A lane with what it knows and what it has exported. -/
structure Thread where
  lane : Lane
  /-- The bytes of shared memory, as far as the thread can know them. -/
  view : Nat → UInt8
  primitives : List ExportWord
  vertices : List (SlotTable UInt64)
  /-- The space that the thread has asked for. -/
  space : Option Allocation

/-- What a thread finds around it: its workgroup, who may write which byte, and whether a fault is
admitted. -/
structure Setting where
  group : Workgroup
  own : Ownership
  faults : Prop

namespace Setting

/-- The program of the workgroup. -/
def program (c : Setting) : Program := c.group.program

end Setting

/-- Whether an instruction concerns one lane only: arithmetic, variables, inputs and outputs. -/
def Instr.isLaneLocal : Instr → Bool
  | .intrinsic (.input _) => true
  | .intrinsic (.storeOutput _ _) => true
  | .intrinsic _ => false
  | _ => true

/-- The access of a thread: its length, its address and, for a store, its value. -/
structure Access where
  len : Nat
  addr : Nat
  value : UInt64

namespace Thread

/-- The state of the lane changes. -/
def withLane (t : Thread) (lane : Lane) : Thread := { t with lane }

/-- A register is set. -/
def write (t : Thread) (value : Value) (a : UInt64) : Thread := t.withLane (t.lane.write value a)

/-- The address and the length of a load. -/
def loadAccess (t : Thread) (addr : Value) (base : UInt32) (type : ScalarType) :
    Except Fault Access := do
  let at_ ← Wave.address base (← t.lane.read addr)
  return ⟨type.bytes, at_, 0⟩

/-- The address, the length and the value of a store. -/
def storeAccess (program : Program) (t : Thread) (data addr : Value) (base : UInt32) :
    Except Fault Access := do
  let type ← program.typeOf data
  let at_ ← Wave.address base (← t.lane.read addr)
  let a ← t.lane.read data
  return ⟨type.bytes, at_, a⟩

/-- What is added to a query counter. -/
def queryCount (t : Thread) (stream : UInt8) (count : Value) : Except Fault UInt64 :=
  if stream.toNat < 4 then t.lane.read count else .error .outOfRange

/-- The space of a request. -/
def request (t : Thread) (vertices primitives : Value) : Except Fault Allocation := do
  let v ← t.lane.read vertices
  let p ← t.lane.read primitives
  return ⟨v.toUInt32.toNat, p.toUInt32.toNat⟩

end Thread

/-- The precondition of an instruction. -/
def Instr.wp (c : Setting) (id : LaneId) (value : Value) (instr : Instr) (Q : Thread → Prop)
    (t : Thread) : Prop :=
  match instr with
  | .intrinsic (.crossLane op) =>
    (c.faults ∨ ∀ v ∈ op.operands, v.index < c.program.definitions.size) ∧ ∀ a, Q (t.write value a)
  | .intrinsic (.loadShared addr base type) =>
    Yields c.faults (fun acc => acc.addr + acc.len ≤ c.program.sharedSize ∧
      (∀ j < acc.len, c.own (acc.addr + j) = none) ∧
      Q (t.write value (littleEndian t.view acc.addr acc.len 0))) (t.loadAccess addr base type)
  | .intrinsic (.storeShared data addr base) =>
    Yields c.faults (fun acc => acc.addr + acc.len ≤ c.program.sharedSize ∧
      (∀ j < acc.len, c.own (acc.addr + j) = some id.index) ∧
      Q { t with view := overwrite t.view acc.addr acc.len acc.value })
      (t.storeAccess c.program data addr base)
  | .intrinsic .barrier => c.faults
  | .intrinsic (.queryAdd stream count) =>
    Yields c.faults (fun _ => Q t) (t.queryCount stream count)
  | .intrinsic (.allocate vertices primitives) =>
    id.index = 0 ∧ t.space = none ∧
      Yields c.faults (fun space => Q { t with space := some space }) (t.request vertices primitives)
  | .intrinsic (.exportPrimitive word) =>
    Yields c.faults (fun a => Q { t with primitives := t.primitives ++ [⟨a.toUInt32⟩] })
      (t.lane.read word)
  | .intrinsic .exportVertex => Q { t with vertices := t.vertices ++ [t.lane.outputs] }
  | .intrinsic (.geometry _) => False
  | _ => Yields c.faults (fun lane => Q (t.withLane lane)) (t.lane.execute c.group id value instr)

mutual

/-- The precondition of a node. -/
def Node.wp (c : Setting) (id : LaneId) : Node → (Q L : Thread → Prop) → Thread → Prop
  | .instr value, Q, _, t =>
    Yields c.faults (fun instr => instr.wp c id value Q t) (c.program.instr value)
  | .branch cond thenBlock elseBlock, Q, L, t =>
    Yields c.faults (fun a =>
      if a = 0 then Block.wp c id elseBlock Q L t else Block.wp c id thenBlock Q L t)
      (t.lane.read cond)
  | .loop body, Q, _, t => ∃ I : Thread → Prop, I t ∧ ∀ u, I u → Block.wp c id body I Q u
  | .leave, _, L, t => L t

/-- The precondition of a block: `Q` at its end, `L` where it leaves the loop around it. -/
def Block.wp (c : Setting) (id : LaneId) : List Node → (Q L : Thread → Prop) → Thread → Prop
  | [], Q, _, t => Q t
  | node :: rest, Q, L, t => node.wp c id (Block.wp c id rest Q L) L t

end

/-! ## Sizes -/

/-- A lane has a register for every value and a place for every variable of its program. -/
structure Lane.Sized (program : Program) (lane : Lane) : Prop where
  registers : lane.registers.size = program.definitions.size
  vars : lane.vars.size = program.vars.size

namespace Lane.Sized

variable {value : Value} {program : Program} {lane lane' : Lane}

theorem start (program : Program) : (Lane.start program).Sized program where
  registers := by simp [Lane.start]
  vars := by simp [Lane.start]

variable (h : lane.Sized program)
include h

theorem write (value : Value) (a : UInt64) : (lane.write value a).Sized program where
  registers := by simpa [Lane.write] using h.registers
  vars := h.vars

theorem read (hv : value.index < program.definitions.size) : ∃ a, lane.read value = .ok a := by
  have hlt : value.index < lane.registers.size := h.registers ▸ hv
  simp [Lane.read, hlt]

theorem execute {group : Workgroup} {id : LaneId} {instr : Instr}
    (he : lane.execute group id value instr = .ok lane') : lane'.Sized program := by
  unfold Lane.execute at he
  split at he <;> obtain ⟨data, -, he⟩ := except_bind_eq_ok.mp he
  · unfold Lane.writeVar at he
    split at he
    · cases he
      exact ⟨h.registers, by simpa using h.vars⟩
    · cases he
  · cases he
    exact ⟨h.registers, h.vars⟩
  · cases he
    exact h.write value data

end Lane.Sized

/-- A thread whose lane has all registers and variables of the program. -/
def Thread.Sized (c : Setting) (t : Thread) : Prop := t.lane.Sized c.program

section

variable {value : Value} {instr : Instr} {c : Setting} {id : LaneId} {Q Q' L L' : Thread → Prop} {t : Thread}

theorem Instr.wp_of_isLaneLocal (h : instr.isLaneLocal) : instr.wp c id value Q t =
      Yields c.faults (fun lane => Q (t.withLane lane)) (t.lane.execute c.group id value instr) := by
  unfold Instr.wp
  split <;> first | rfl | cases h

/-- The postcondition may be weakened for threads that have kept their sizes. -/
theorem Instr.wp_imp (h : instr.wp c id value Q t)
    (hQ : ∀ u, (t.Sized c → u.Sized c) → Q u → Q' u) : instr.wp c id value Q' t := by
  by_cases hl : instr.isLaneLocal
  · rw [Instr.wp_of_isLaneLocal hl] at h ⊢
    exact h.mono fun _ he hq => hQ _ (fun hs => Lane.Sized.execute hs he) hq
  · cases instr with
    | intrinsic op =>
      have hwrite (a : UInt64) : t.Sized c → (t.write value a).Sized c := fun hs => Lane.Sized.write hs value a
      cases op with
      | crossLane op => exact ⟨h.1, fun a => hQ _ (hwrite a) (h.2 a)⟩
      | loadShared addr base type => exact h.mono fun _ _ ⟨hlt, hown, hq⟩ => ⟨hlt, hown, hQ _ (hwrite _) hq⟩
      | storeShared data addr base => exact h.mono fun _ _ ⟨hlt, hown, hq⟩ => ⟨hlt, hown, hQ _ (fun hs => hs) hq⟩
      | barrier => exact h
      | queryAdd stream count => exact h.mono fun _ _ hq => hQ _ (fun hs => hs) hq
      | allocate vertices primitives =>
        exact ⟨h.1, h.2.1, h.2.2.mono fun _ _ hq => hQ _ (fun hs => hs) hq⟩
      | exportPrimitive word => exact h.mono fun _ _ hq => hQ _ (fun hs => hs) hq
      | exportVertex => exact hQ _ (fun hs => hs) h
      | geometry op => exact h
      | input input => exact absurd rfl hl
      | storeOutput slot data => exact absurd rfl hl
    | const | undef | unary | binary | select | convert | extract | loadVar | storeVar =>
      exact absurd rfl hl

mutual

theorem Node.wp_imp : ∀ (node : Node) {Q Q' L L' : Thread → Prop} {t : Thread}, node.wp c id Q L t →
    (∀ u, (t.Sized c → u.Sized c) → Q u → Q' u) → (∀ u, (t.Sized c → u.Sized c) → L u → L' u) → node.wp c id Q' L' t
  | .instr value, _, _, _, _, _, h, hQ, hL => by
    unfold Node.wp at h ⊢
    exact h.mono fun instr _ hi => Instr.wp_imp hi hQ
  | .branch cond thenBlock elseBlock, _, _, _, _, _, h, hQ, hL => by
    unfold Node.wp at h ⊢
    refine h.mono fun a _ ha => ?_
    by_cases hzero : a = 0
    · simp only [hzero, ↓reduceIte] at ha ⊢
      exact Block.wp_imp elseBlock ha hQ hL
    · simp only [hzero, ↓reduceIte] at ha ⊢
      exact Block.wp_imp thenBlock ha hQ hL
  | .loop body, _, _, _, _, t, h, hQ, hL => by
    unfold Node.wp at h ⊢
    obtain ⟨I, hI, hbody⟩ := h
    refine ⟨fun u => (t.Sized c → u.Sized c) ∧ I u, ⟨fun hs => hs, hI⟩, fun u hu => ?_⟩
    exact Block.wp_imp body (hbody u hu.2) (fun v hv hI => ⟨fun hs => hv (hu.1 hs), hI⟩)
      fun v hv => hQ v fun hs => hv (hu.1 hs)
  | .leave, _, _, _, _, _, h, hQ, hL => by
    unfold Node.wp at h ⊢
    exact hL _ (fun hs => hs) h

theorem Block.wp_imp : ∀ (block : Block) {Q Q' L L' : Thread → Prop} {t : Thread}, Block.wp c id block Q L t →
    (∀ u, (t.Sized c → u.Sized c) → Q u → Q' u) → (∀ u, (t.Sized c → u.Sized c) → L u → L' u) →
    Block.wp c id block Q' L' t
  | [], _, _, _, _, _, h, hQ, hL => by
    unfold Block.wp at h ⊢
    exact hQ _ (fun hs => hs) h
  | node :: rest, _, _, _, _, _, h, hQ, hL => by
    unfold Block.wp at h ⊢
    exact Node.wp_imp node h (fun u hu hrest => Block.wp_imp rest hrest (fun v hv => hQ v fun hs => hv (hu hs))
      fun v hv => hL v fun hs => hv (hu hs)) hL

end

theorem Instr.wp_mono (h : instr.wp c id value Q t) (hQ : ∀ u, Q u → Q' u) : instr.wp c id value Q' t :=
  Instr.wp_imp h fun u _ => hQ u

theorem Node.wp_mono (node : Node) (h : node.wp c id Q L t) (hQ : ∀ u, Q u → Q' u) (hL : ∀ u, L u → L' u) :
    node.wp c id Q' L' t :=
  Node.wp_imp node h (fun u _ => hQ u) fun u _ => hL u

theorem Block.wp_mono (block : Block) (h : Block.wp c id block Q L t) (hQ : ∀ u, Q u → Q' u)
    (hL : ∀ u, L u → L' u) : Block.wp c id block Q' L' t :=
  Block.wp_imp block h (fun u _ => hQ u) fun u _ => hL u

/-- A thread keeps its sizes. -/
theorem Block.wp_sized (block : Block) (hs : t.Sized c) (h : Block.wp c id block Q L t) :
    Block.wp c id block (fun u => u.Sized c ∧ Q u) (fun u => u.Sized c ∧ L u) t :=
  Block.wp_imp block h (fun _ hu hq => ⟨hu hs, hq⟩) fun _ hu hl => ⟨hu hs, hl⟩

theorem Block.wp_nil : Block.wp c id [] Q L t = Q t := by
  rw [Block.wp]

theorem Block.wp_cons (node : Node) (rest : Block) :
    Block.wp c id (node :: rest) Q L t = node.wp c id (Block.wp c id rest Q L) L t := by
  rw [Block.wp]

theorem Block.wp_append (a b : Block) : Block.wp c id (a ++ b) Q L t = Block.wp c id a (Block.wp c id b Q L) L t := by
  induction a generalizing t with
  | nil => rw [List.nil_append, Block.wp_nil]
  | cons node rest ih =>
    rw [List.cons_append, Block.wp_cons, Block.wp_cons]
    congr 1
    exact funext fun u => ih

end

end PrimitiveShader
