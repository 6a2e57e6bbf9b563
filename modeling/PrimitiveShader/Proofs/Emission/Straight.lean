import PrimitiveShader.Proofs.Emission.Growth

/-!
# Code of an action's own

Most actions place only instructions that they define themselves, of a certain kind (`Emit.Novel`), and many of
them one after the other, without branches and loops (`Emit.Straight`). How many operations a wave takes for such
code does not depend on what it finds.
-/

namespace PrimitiveShader

/-- Every value of the block is newer than all that `p` defines. -/
def Block.NewerThan (p : Program) (block : Block) : Prop :=
  ∀ v ∈ Block.values block, p.definitions.size ≤ v.index

/-- Whether an instruction adds to a query counter. -/
def Instr.isQuery : Instr → Bool
  | .intrinsic (.queryAdd _ _) => true
  | _ => false

/-- New instructions of a kind. -/
def Placement.new (P : Instr → Prop) : Placement :=
  ⟨fun n v instr => n ≤ v.index ∧ P instr, fun hle h => ⟨Nat.le_trans hle h.1, h.2⟩⟩

/-- An action that places nothing but instructions of its own, all of them of a kind. -/
abbrev Emit.Novel {α : Type} (P : Instr → Prop) (e : Emit α) : Prop := Placing { stage := .vertex } (.new P) e

/-- An action that appends new instructions of a kind, one after the other. -/
class Emit.Straight {α : Type} (P : Instr → Prop) (e : Emit α) : Prop where
  novel : Novel P e
  nodes : ∀ {p : Program} {a : α} {p' : Program}, e p = .ok (a, p') →
    ∀ node ∈ p'.body.drop p.body.length, ∃ value, node = .instr value

/-! ## Kinds of instructions -/

/-- Whether an instruction computes a value and does nothing else. -/
def Instr.isComputed : Instr → Bool
  | .storeVar _ _ => false
  | .intrinsic (.input _) => true
  | .intrinsic _ => false
  | _ => true

/-- An instruction that can be run, be it a barrier, and that does not add to a query counter. -/
def Instr.Uncounted (instr : Instr) : Prop := instr.Runnable true ∧ instr.isQuery = false

/-- A kind to which all instructions belong that compute a value. -/
class Instr.Computing (P : Instr → Prop) : Prop where
  computed : ∀ {instr : Instr}, instr.isComputed → P instr

/-- A kind to which also the stores and all operations over the lanes of a wave belong. -/
class Instr.Staging (P : Instr → Prop) : Prop extends Instr.Computing P where
  crossLane : ∀ op : CrossLaneOp, P (.intrinsic (.crossLane op))
  store : ∀ (a b : Value) (base : UInt32), P (.intrinsic (.storeShared a b base))

/-- A kind to which all instructions belong that any wave can run at any time. -/
class Instr.Common (P : Instr → Prop) : Prop where
  admits : ∀ {instr : Instr}, instr.Runnable false → instr.isQuery = false → P instr

instance (barriers : Bool) : Instr.Common (Instr.Runnable barriers) :=
  ⟨fun h _ => ⟨fun _ => h.barrier rfl, h.entryPoint⟩⟩

instance : Instr.Common Instr.Uncounted := ⟨fun h hquery => ⟨⟨nofun, h.entryPoint⟩, hquery⟩⟩

theorem Instr.isQuery_of_isComputed {instr : Instr} (h : instr.isComputed) : instr.isQuery = false := by
  cases instr with
  | intrinsic op => cases op <;> first | rfl | cases h
  | _ => rfl

instance (P : Instr → Prop) [hP : Instr.Common P] : Instr.Staging P where
  crossLane _ := hP.admits ⟨nofun, rfl⟩ rfl
  store _ _ _ := hP.admits ⟨nofun, rfl⟩ rfl
  computed {instr} h := by
    refine hP.admits ⟨fun _ heq => ?_, ?_⟩ (Instr.isQuery_of_isComputed h)
    · rw [heq] at h
      cases h
    · cases instr with
      | intrinsic op => cases op <;> first | rfl | cases h
      | _ => rfl

namespace Block.NewerThan

variable {p p' : Program} {a b : Block}

theorem nil (p : Program) : Block.NewerThan p [] := by
  intro v hv
  simp [Block.values] at hv

theorem append (ha : a.NewerThan p) (hb : b.NewerThan p) : (a ++ b).NewerThan p := by
  intro v hv
  rw [Block.values_append, List.mem_append] at hv
  exact hv.elim (ha v) (hb v)

theorem of_within (h : a.NewerThan p') (hp : p.Within p') : a.NewerThan p :=
  fun v hv => Nat.le_trans hp.size_le (h v hv)

end Block.NewerThan

namespace Emit

variable {α β : Type} {p p' : Program}

namespace Novel

variable {P : Instr → Prop}

theorem placed {e : Emit α} (he : Novel P e) {a : α} (h : e p = .ok (a, p')) :
    ∀ v ∈ Block.values (p'.body.drop p.body.length), p.definitions.size ≤ v.index ∧
      ∃ instr, p'.instr v = .ok instr ∧ P instr := by
  intro v hv
  obtain ⟨instr, hinstr, hnew, hkind⟩ := @Placing.placed _ _ _ _ he _ _ _ ⟨List.nil_prefix, List.nil_prefix⟩ h v hv
  exact ⟨hnew, instr, hinstr, hkind⟩

/-- Code that is an action's own can be run in any program. -/
instance (priority := low) toSteady {source : Program} {barriers : Bool} {e : Emit α}
    [h : Novel (Instr.Runnable barriers) e] : Steady source barriers e :=
  ⟨fun _ hp v hv => (placed h hp v hv).2⟩

theorem newer {e : Emit α} (he : Novel P e) {a : α} (h : e p = .ok (a, p')) :
    Block.NewerThan p (p'.body.drop p.body.length) :=
  fun v hv => (he.placed h v hv).1

/-- Instructions one after the other. -/
instance (priority := low) of_straight (e : Emit α) [he : Straight P e] : Novel P e := he.novel

theorem run {instr : Instr} (hi : P instr) : Novel P (Emit.run instr) := Placing.run fun n => ⟨Nat.le_refl n, hi⟩

instance barrier : Novel (Instr.Runnable true) (Emit.effect .barrier) := run ⟨nofun, rfl⟩

instance uncounted_barrier : Novel Instr.Uncounted (Emit.effect .barrier) := run ⟨⟨nofun, rfl⟩, rfl⟩

instance queryAdd {barriers : Bool} (stream : UInt8) (a : Value) :
    Novel (Instr.Runnable barriers) (Emit.effect (.queryAdd stream a)) :=
  run ⟨nofun, rfl⟩

end Novel

namespace Straight

variable {instr : Instr} {P : Instr → Prop}

/-- The nodes of such code. -/
theorem exists_instr {e : Emit α} [he : Straight P e] {a : α} (h : e p = .ok (a, p')) {node : Node}
    (hnode : node ∈ p'.body.drop p.body.length) : ∃ v instr, node = .instr v ∧ p'.instr v = .ok instr ∧ P instr := by
  obtain ⟨v, rfl⟩ := he.nodes h node hnode
  obtain ⟨before, after, heq⟩ := List.append_of_mem hnode
  obtain ⟨-, instr, hinstr, hkind⟩ := he.novel.placed h v (by simp [heq, Block.values_append, Block.values, Node.values])
  exact ⟨v, instr, rfl, hinstr, hkind⟩

theorem of_body {e : Emit α}
    (h : ∀ {p : Program} {a : α} {p' : Program}, e p = .ok (a, p') → p'.body = p.body) : Straight P e where
  novel := .of_body h
  nodes hp node hn := by
    rw [h hp, List.drop_length] at hn
    cases hn

instance pure (a : α) : Straight P (Pure.pure a : Emit α) := of_body fun h => by
  obtain ⟨-, rfl⟩ := pure_eq_ok_iff.mp h
  rfl

instance lift (r : Except Fault α) : Straight P (liftM r : Emit α) := of_body fun h => by
  obtain ⟨-, rfl⟩ := lift_eq_ok_iff.mp h
  rfl

instance fail (fault : Fault) : Straight P (Emit.fail fault : Emit α) := of_body fun h => by cases h

instance get : Straight P Emit.get := of_body fun h => by
  cases h
  rfl

instance createVar (name : String) (type : ScalarType) : Straight P (Emit.createVar name type) :=
  of_body fun h => by
    cases h
    rfl

instance bind (e : Emit α) (k : α → Emit β) [he : Straight P e] [hk : ∀ a, Straight P (k a)] :
    Straight P (e >>= k) where
  novel := inferInstance
  nodes h node hn := by
    obtain ⟨a, p', ha, hb⟩ := bind_eq_ok_iff.mp h
    rw [drop_body_eq (e.grows ha) ((k a).grows hb), List.mem_append] at hn
    exact hn.elim (he.nodes ha node) ((hk a).nodes hb node)

instance ite (c : Prop) [Decidable c] (e e' : Emit α) [he : Straight P e] [he' : Straight P e'] :
    Straight P (if c then e else e') := by
  split
  · exact he
  · exact he'

theorem push (h : P instr) : Straight P (Emit.push instr) where
  novel := .push fun n => ⟨Nat.le_refl n, h⟩
  nodes hp node hn := by
    obtain ⟨rfl, -, hbody⟩ := push_eq_ok hp
    rw [hbody, List.drop_left, List.mem_singleton] at hn
    exact ⟨_, hn⟩

theorem run (h : P instr) : Straight P (Emit.run instr) :=
  have : Straight P (Emit.push instr) := push h
  bind _ _

instance typeOf (value : Value) : Straight P (Emit.typeOf value) := bind _ _

instance constant? (value : Value) : Straight P (Emit.constant? value) := bind _ _

instance forM {γ : Type} (xs : List γ) (f : γ → Emit Unit) [h : ∀ x, Straight P (f x)] :
    Straight P (xs.forM f) := by
  induction xs with
  | nil => exact pure ()
  | cons x rest ih =>
    change Straight P (f x >>= fun _ => rest.forM f)
    infer_instance

instance mapM {γ δ : Type} (xs : List γ) (f : γ → Emit δ) [h : ∀ x, Straight P (f x)] :
    Straight P (xs.mapM f) := by
  induction xs with
  | nil =>
    rw [List.mapM_nil]
    infer_instance
  | cons x rest ih =>
    rw [List.mapM_cons]
    infer_instance

section

variable [hP : Instr.Computing P] (type : ScalarType) (a b cond : Value)

instance imm (value : UInt64) : Straight P (Emit.imm type value) := push (hP.computed rfl)

instance imm32 (value : Nat) : Straight P (Emit.imm32 value) := push (hP.computed rfl)

instance immBool (value : Bool) : Straight P (Emit.immBool value) := push (hP.computed rfl)

instance undef : Straight P (Emit.undef type) := push (hP.computed rfl)

instance unary (op : UnaryOp) : Straight P (Emit.unary op a) := push (hP.computed rfl)

instance binary (op : BinaryOp) : Straight P (Emit.binary op a b) := push (hP.computed rfl)

instance binaryImm (op : BinaryOp) (imm : UInt64) : Straight P (Emit.binaryImm op a imm) := bind _ _

instance shlImm (shift : Nat) : Straight P (Emit.shlImm a shift) := bind _ _

instance select : Straight P (Emit.select cond a b) := push (hP.computed rfl)

instance convert : Straight P (Emit.convert a type) :=
  have : Straight P (Emit.push (.convert a type)) := push (hP.computed rfl)
  bind _ _

instance extract (offset bits : UInt8) : Straight P (Emit.extract a offset bits) := push (hP.computed rfl)

instance loadVar (var : Var) : Straight P (Emit.loadVar var) := push (hP.computed rfl)

instance input (input : LaneInput) : Straight P (Emit.input input) := push (hP.computed rfl)

end

section

variable [hP : Instr.Staging P] (a b : Value)

instance crossLane (op : CrossLaneOp) : Straight P (Emit.crossLane op) := push (hP.crossLane op)

instance storeShared (base : UInt32) : Straight P (Emit.effect (.storeShared a b base)) := run (hP.store a b base)

end

section

variable [hP : Instr.Common P] (type : ScalarType) (a b : Value)

instance storeVar (var : Var) : Straight P (Emit.storeVar var a) := run (hP.admits ⟨nofun, rfl⟩ rfl)

instance loadShared (base : UInt32) : Straight P (Emit.intrinsic (.loadShared a base type)) :=
  push (hP.admits ⟨nofun, rfl⟩ rfl)

instance allocate : Straight P (Emit.effect (.allocate a b)) := run (hP.admits ⟨nofun, rfl⟩ rfl)

instance exportPrimitive : Straight P (Emit.effect (.exportPrimitive a)) := run (hP.admits ⟨nofun, rfl⟩ rfl)

instance exportVertex : Straight P (Emit.effect .exportVertex) := run (hP.admits ⟨nofun, rfl⟩ rfl)

instance storeOutput (slot : OutputSlot) : Straight P (Emit.effect (.storeOutput slot a)) :=
  run (hP.admits ⟨nofun, rfl⟩ rfl)

end

end Straight

end Emit

end PrimitiveShader
