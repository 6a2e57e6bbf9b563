import PrimitiveShader.Proofs.Emission.Straight
import PrimitiveShader.Proofs.Wave.Flattening
import PrimitiveShader.Proofs.Wave.Isolation
import PrimitiveShader.Subgroup

/-!
# Emissions that differ in addresses only

Two programs are alike when they have the same code, and the instructions of both are the same but for the base
addresses of their stores (`Program.Alike`). `Emit.Alike` says of two actions that they emit such code, with
nothing in it that looks beyond a wave (`Block.Staging`). What a wave does with its registers is then the same
under both programs.
-/

namespace PrimitiveShader

/-- The same instruction, or a store of the same data to another place. -/
inductive Instr.Alike : Instr → Instr → Prop where
  | refl (instr : Instr) : Instr.Alike instr instr
  | store (data addr : Value) (base base' : UInt32) :
      Instr.Alike (.intrinsic (.storeShared data addr base)) (.intrinsic (.storeShared data addr base'))

/-- The same type, and instructions that differ in addresses only. -/
structure Definition.Alike (d d' : Definition) : Prop where
  type : d'.type = d.type
  instr : d.instr.Alike d'.instr

/-- The same code and variables, with definitions that differ in addresses only. -/
structure Program.Alike (p q : Program) : Prop where
  body : q.body = p.body
  vars : q.vars = p.vars
  size : q.definitions.size = p.definitions.size
  definition : ∀ v : Value, Option.Rel Definition.Alike (p.definition? v) (q.definition? v)

/-- Whether an instruction looks at nothing but the lanes of its own wave that are on, and does nothing but to
compute, to store and to count. -/
def Instr.isStaging : Instr → Bool
  | .intrinsic (.input _) => true
  | .intrinsic (.crossLane (.ballot _ _)) => true
  | .intrinsic (.crossLane .elect) => true
  | .intrinsic (.crossLane (.reduceAdd _)) => true
  | .intrinsic (.storeShared _ _ _) => true
  | .intrinsic (.queryAdd _ _) => true
  | .intrinsic .barrier => true
  | .intrinsic _ => false
  | _ => true

theorem Instr.isLoad_of_isStaging {instr : Instr} (h : instr.isStaging) : instr.isLoad = false := by
  cases instr with
  | intrinsic op => cases op <;> first | rfl | cases h
  | _ => rfl

/-- All instructions of the block are of that kind. -/
def Block.Staging (p : Program) (block : Block) : Prop :=
  ∀ v ∈ Block.values block, ∃ instr, p.instr v = .ok instr ∧ instr.isStaging

namespace Program.Alike

variable {v : Value} {p q : Program}

theorem refl (p : Program) : p.Alike p where
  body := rfl
  vars := rfl
  size := rfl
  definition v := by
    cases p.definition? v with
    | none => exact .none
    | some d => exact .some ⟨rfl, .refl _⟩

variable (h : p.Alike q)
include h

/-- The body does not matter to the definitions. -/
theorem withBody (body : Block) : Program.Alike { p with body := body } { q with body := body } :=
  ⟨rfl, h.vars, h.size, h.definition⟩

theorem valueType? : q.valueType? = p.valueType? := by
  funext v
  have hrel := h.definition v
  unfold Program.valueType?
  generalize p.definition? v = d, q.definition? v = d' at hrel ⊢
  cases hrel with
  | none => rfl
  | some hd => exact congrArg some hd.type

theorem varType? : q.varType? = p.varType? := by
  funext x
  unfold Program.varType? Program.var?
  rw [h.vars]

theorem typeOf (v : Value) : q.typeOf v = p.typeOf v := by
  have hrel := h.definition v
  unfold Program.typeOf Program.definition
  generalize p.definition? v = d, q.definition? v = d' at hrel ⊢
  cases hrel with
  | none => rfl
  | some hd => exact congrArg Except.ok hd.type

theorem instr {i j : Instr} (hi : p.instr v = .ok i) (hj : q.instr v = .ok j) : i.Alike j := by
  obtain ⟨d, hd, rfl⟩ := instr_eq_ok_iff.mp hi
  obtain ⟨d', hd', rfl⟩ := instr_eq_ok_iff.mp hj
  have hrel := h.definition v
  rw [hd, hd'] at hrel
  cases hrel with
  | some hd => exact hd.instr

theorem exists_instr {i : Instr} (hi : p.instr v = .ok i) : ∃ j, q.instr v = .ok j ∧ i.Alike j := by
  obtain ⟨d, hd, rfl⟩ := instr_eq_ok_iff.mp hi
  have hrel := h.definition v
  generalize hq : q.definition? v = d' at hrel
  rw [hd] at hrel
  cases hrel with
  | some hd' => exact ⟨_, instr_of_definition? hq, hd'.instr⟩

theorem push {i j : Instr} (hij : i.Alike j) {w : Value} {p' q' : Program}
    (hp : Emit.push i p = .ok (v, p')) (hq : Emit.push j q = .ok (w, q')) : w = v ∧ p'.Alike q' := by
  have htype : q.resultType? j = p.resultType? i := by
    unfold Program.resultType?
    rw [h.valueType?, h.varType?]
    cases hij <;> rfl
  cases hp
  cases hq
  refine ⟨by rw [h.size], ⟨by rw [h.size, h.body], h.vars, by simp [h.size], fun v => ?_⟩⟩
  have hrel := h.definition v
  unfold Program.definition? at hrel ⊢
  simp only [Array.getElem?_push, h.size]
  split
  · exact .some ⟨by rw [htype], hij⟩
  · exact hrel

end Program.Alike

namespace Block.Staging

variable {p p' : Program} {a b : Block}

theorem nil (p : Program) : Block.Staging p [] := by
  intro v hv
  simp [Block.values] at hv

theorem append (ha : a.Staging p) (hb : b.Staging p) : (a ++ b).Staging p := by
  intro v hv
  rw [Block.values_append, List.mem_append] at hv
  exact hv.elim (ha v) (hb v)

theorem within (h : a.Staging p) (hp : p.Within p') : a.Staging p' := by
  intro v hv
  obtain ⟨instr, hi, hstaging⟩ := h v hv
  exact ⟨instr, hp.instr_eq hi, hstaging⟩

theorem instr {v : Value} {i : Instr} (hi : p.instr v = .ok i) (hstaging : i.isStaging) :
    Block.Staging p [.instr v] := by
  intro u hu
  obtain rfl : u = v := by simpa [Block.values, Node.values] using hu
  exact ⟨i, hi, hstaging⟩

/-- Code that is cut off behind such a block. -/
theorem loadsSame {group : Workgroup} {front rest : Block} (h : front.Staging group.program)
    (hcode : group.executable.code = (Block.code 0 (front ++ rest)).toArray) :
    (group.cut (Block.code 0 front).length).LoadsSame False := by
  intro v i hmem hi hload
  have hmem : CodeOp.instr v ∈ group.executable.code.take (Block.code 0 front).length := hmem
  rw [hcode, Block.code_append, List.take_toArray, List.take_left, List.mem_toArray] at hmem
  obtain ⟨i', hi', hstaging⟩ := h v (Block.mem_values_of_code hmem)
  have hi : group.program.instr v = .ok i := hi
  rw [hi] at hi'
  cases hi'
  rw [Instr.isLoad_of_isStaging hstaging] at hload
  cases hload

end Block.Staging

namespace Emit

variable {α β : Type} {source : Program}

/-- Actions that emit the same code up to the addresses of stores, which looks at nothing beyond a wave, in programs
that are alike and have everything that `source` has. -/
class Alike (source : Program) (e e' : Emit α) : Prop where
  alike : ∀ {p q : Program} {a b : α} {p' q' : Program}, source.Within p → source.Within q → p.Alike q →
    e p = .ok (a, p') → e' q = .ok (b, q') →
    b = a ∧ p'.Alike q' ∧ Block.Staging p' (p'.body.drop p.body.length)

namespace Alike

variable {nodes : Block}

/-- An action that leaves the program as it is. -/
theorem of_unchanged {e : Emit α} (h : ∀ {p : Program} {a : α} {p' : Program}, e p = .ok (a, p') → p' = p)
    (hsame : ∀ {p q : Program} {a b : α} {p' q' : Program}, p.Alike q → e p = .ok (a, p') → e q = .ok (b, q') →
      b = a) : Alike source e e where
  alike _ _ hpq hp hq := by
    refine ⟨hsame hpq hp hq, ?_⟩
    obtain rfl := h hp
    obtain rfl := h hq
    exact ⟨hpq, List.drop_length ▸ .nil _⟩

instance pure (a : α) : Alike source (Pure.pure a) (Pure.pure a : Emit α) :=
  of_unchanged (fun h => (pure_eq_ok_iff.mp h).2.symm) fun _ h h' =>
    (pure_eq_ok_iff.mp h').1.symm.trans (pure_eq_ok_iff.mp h).1

instance lift (r : Except Fault α) : Alike source (liftM r) (liftM r : Emit α) :=
  of_unchanged (fun h => (lift_eq_ok_iff.mp h).2.symm) fun _ h h' =>
    Except.ok.inj ((lift_eq_ok_iff.mp h').1.symm.trans (lift_eq_ok_iff.mp h).1)

instance typeOf (value : Value) : Alike source (Emit.typeOf value) (Emit.typeOf value) :=
  have hread {p p' : Program} {a : ScalarType} (h : Emit.typeOf value p = .ok (a, p')) :
      p.typeOf value = .ok a ∧ p = p' := by
    obtain ⟨_, _, hget, h⟩ := bind_eq_ok_iff.mp h
    cases hget
    exact lift_eq_ok_iff.mp h
  of_unchanged (fun h => (hread h).2.symm) fun hpq h h' =>
    Except.ok.inj ((hread h').1.symm.trans ((hpq.typeOf value).trans (hread h).1))

instance constant? (value : Value) : Alike source (Emit.constant? value) (Emit.constant? value) :=
  have hread {p p' : Program} {a : Option UInt64} (h : Emit.constant? value p = .ok (a, p')) :
      (∃ i, p.instr value = .ok i ∧ i.constant? = a) ∧ p = p' := by
    obtain ⟨_, _, hget, h⟩ := bind_eq_ok_iff.mp h
    cases hget
    obtain ⟨i, hinstr, h⟩ := lift_bind_eq_ok_iff.mp h
    obtain ⟨ha, rfl⟩ := pure_eq_ok_iff.mp h
    exact ⟨⟨i, hinstr, ha⟩, rfl⟩
  of_unchanged (fun h => (hread h).2.symm) fun hpq h h' => by
    obtain ⟨⟨i, hi, rfl⟩, -⟩ := hread h
    obtain ⟨⟨j, hj, rfl⟩, -⟩ := hread h'
    cases hpq.instr hi hj <;> rfl

instance bind (e e' : Emit α) (k k' : α → Emit β) [he : Alike source e e'] [hk : ∀ a, Alike source (k a) (k' a)] :
    Alike source (e >>= k) (e' >>= k') where
  alike hp hq hpq h h' := by
    obtain ⟨a, p₁, ha, hb⟩ := bind_eq_ok_iff.mp h
    obtain ⟨a', q₁, ha', hb'⟩ := bind_eq_ok_iff.mp h'
    obtain ⟨rfl, hpq₁, hfirst⟩ := he.alike hp hq hpq ha ha'
    have hgrows := e.grows ha
    have hgrows' := (k a').grows hb
    obtain ⟨rfl, hpq₂, hsecond⟩ :=
      (hk a').alike (hp.trans hgrows.toWithin) (hq.trans (e'.grows ha').toWithin) hpq₁ hb hb'
    refine ⟨rfl, hpq₂, ?_⟩
    rw [drop_body_eq hgrows hgrows']
    exact (hfirst.within hgrows'.toWithin).append hsecond

/-- Computations with different results, after which the code is the same all the same. -/
theorem bind_lift {r r' : Except Fault α} {k k' : α → Emit β}
    (hk : ∀ a a', r = .ok a → r' = .ok a' → Alike source (k a) (k' a')) :
    Alike source (liftM r >>= k) (liftM r' >>= k') where
  alike hp hq hpq h h' := by
    obtain ⟨a, hr, hb⟩ := lift_bind_eq_ok_iff.mp h
    obtain ⟨a', hr', hb'⟩ := lift_bind_eq_ok_iff.mp h'
    exact (hk a a' hr hr').alike hp hq hpq hb hb'

instance ite (c : Prop) [Decidable c] (e₁ e₂ e₁' e₂' : Emit α) [h₁ : Alike source e₁ e₁'] [h₂ : Alike source e₂ e₂'] :
    Alike source (if c then e₁ else e₂) (if c then e₁' else e₂') := by
  split
  · exact h₁
  · exact h₂

theorem push {i j : Instr} (hij : i.Alike j) (hstaging : i.isStaging) : Alike source (Emit.push i) (Emit.push j) where
  alike _ _ hpq h h' := by
    obtain ⟨heq, halike⟩ := hpq.push hij h h'
    refine ⟨heq, halike, ?_⟩
    obtain ⟨rfl, hgains, hbody⟩ := push_eq_ok h
    rw [hbody, List.drop_left]
    intro v hv
    obtain rfl : v = ⟨_⟩ := by simpa [Block.values, Node.values] using hv
    exact ⟨i, hgains.instr, hstaging⟩

theorem run {i j : Instr} (hij : i.Alike j) (hstaging : i.isStaging) : Alike source (Emit.run i) (Emit.run j) :=
  have : Alike source (Emit.push i) (Emit.push j) := push hij hstaging
  bind _ _ _ _

/-- The same nodes at the end of both programs, whatever has been defined before. -/
theorem placed {p q inner inner' : Program} (hbody : q.body = p.body) (halike : inner.Alike inner')
    (h : nodes.Staging inner) :
    Program.Alike { inner with body := p.body ++ nodes } { inner' with body := q.body ++ nodes } ∧
      Block.Staging { inner with body := p.body ++ nodes } ((p.body ++ nodes).drop p.body.length) := by
  rw [hbody, List.drop_left]
  exact ⟨halike.withBody _, h.within .same⟩

theorem place (h : nodes.Staging source) : Alike source (Emit.place nodes) (Emit.place nodes) where
  alike hp _ hpq h₁ h₂ := by
    cases h₁
    cases h₂
    exact ⟨rfl, placed hpq.body hpq (h.within hp)⟩

instance createVar (name : String) (type : ScalarType) :
    Alike source (Emit.createVar name type) (Emit.createVar name type) where
  alike _ _ hpq h h' := by
    cases h
    cases h'
    refine ⟨by rw [hpq.vars], ⟨hpq.body, ?_, hpq.size, hpq.definition⟩, List.drop_length ▸ .nil _⟩
    change Array.push _ _ = Array.push _ _
    rw [hpq.vars]

/-! ### Control flow -/

theorem of_empty {e e' : Emit Unit} (he : Alike source e e') {p q p' q' : Program} (hp : source.Within p)
    (hq : source.Within q) (hpq : p.Alike q) (h : e { p with body := [] } = .ok ((), p'))
    (h' : e' { q with body := [] } = .ok ((), q')) :
    p'.Alike q' ∧ p'.body.Staging p' ∧ source.Within p' ∧ source.Within q' := by
  obtain ⟨-, halike, hstaging⟩ := he.alike (hp.withBody []) (hq.withBody []) (hpq.withBody []) h h'
  rw [List.length_nil, List.drop_zero] at hstaging
  exact ⟨halike, hstaging, (hp.withBody []).trans (e.grows h).toWithin, (hq.withBody []).trans (e'.grows h').toWithin⟩

instance ifThen (cond : Value) (e e' : Emit Unit) [he : Alike source e e'] :
    Alike source (Emit.ifThen cond e) (Emit.ifThen cond e') where
  alike hp hq hpq h h' := by
    obtain ⟨inner, hinner, rfl⟩ := ifThen_eq_ok h
    obtain ⟨inner', hinner', rfl⟩ := ifThen_eq_ok h'
    obtain ⟨halike, hstaging, -⟩ := of_empty he hp hq hpq hinner hinner'
    rw [halike.body]
    refine ⟨rfl, placed hpq.body halike fun v hv => hstaging v ?_⟩
    simpa [Block.values, Node.values] using hv

instance ifThenElse (cond : Value) (e₁ e₂ e₁' e₂' : Emit Unit) [he₁ : Alike source e₁ e₁']
    [he₂ : Alike source e₂ e₂'] : Alike source (Emit.ifThenElse cond e₁ e₂) (Emit.ifThenElse cond e₁' e₂') where
  alike hp hq hpq h h' := by
    obtain ⟨inner₁, inner₂, hinner₁, hinner₂, rfl⟩ := ifThenElse_eq_ok h
    obtain ⟨inner₁', inner₂', hinner₁', hinner₂', rfl⟩ := ifThenElse_eq_ok h'
    obtain ⟨halike₁, hstaging₁, hp₁, hq₁⟩ := of_empty he₁ hp hq hpq hinner₁ hinner₁'
    obtain ⟨halike₂, hstaging₂, -⟩ := of_empty he₂ hp₁ hq₁ halike₁ hinner₂ hinner₂'
    have hgrows := e₂.grows hinner₂
    rw [halike₁.body, halike₂.body]
    refine ⟨rfl, placed hpq.body halike₂ fun v hv => ?_⟩
    simp only [Block.values, Node.values, List.append_nil, List.mem_append] at hv
    exact hv.elim (hstaging₁.within ⟨hgrows.definitions, hgrows.vars⟩ v) (hstaging₂ v)

instance loop (e e' : Emit Unit) [he : Alike source e e'] : Alike source (Emit.loop e) (Emit.loop e') where
  alike hp hq hpq h h' := by
    obtain ⟨inner, hinner, rfl⟩ := loop_eq_ok h
    obtain ⟨inner', hinner', rfl⟩ := loop_eq_ok h'
    obtain ⟨halike, hstaging, -⟩ := of_empty he hp hq hpq hinner hinner'
    rw [halike.body]
    refine ⟨rfl, placed hpq.body halike fun v hv => hstaging v ?_⟩
    simpa [Block.values, Node.values] using hv

instance leave : Alike source Emit.leave Emit.leave := place fun v hv => by simp [Block.values, Node.values] at hv

instance forM {γ : Type} (xs : List γ) (f f' : γ → Emit Unit) [h : ∀ x, Alike source (f x) (f' x)] :
    Alike source (xs.forM f) (xs.forM f') := by
  induction xs with
  | nil => exact pure ()
  | cons x rest ih =>
    change Alike source (f x >>= fun _ => rest.forM f) (f' x >>= fun _ => rest.forM f')
    infer_instance

/-! ### Instructions -/

section

variable (type : ScalarType) (a b : Value)

instance imm (value : UInt64) : Alike source (Emit.imm type value) (Emit.imm type value) := push (.refl _) rfl

instance imm32 (value : Nat) : Alike source (Emit.imm32 value) (Emit.imm32 value) := push (.refl _) rfl

instance immBool (value : Bool) : Alike source (Emit.immBool value) (Emit.immBool value) := push (.refl _) rfl

instance undef : Alike source (Emit.undef type) (Emit.undef type) := push (.refl _) rfl

instance unary (op : UnaryOp) : Alike source (Emit.unary op a) (Emit.unary op a) := push (.refl _) rfl

instance binary (op : BinaryOp) : Alike source (Emit.binary op a b) (Emit.binary op a b) := push (.refl _) rfl

instance binaryImm (op : BinaryOp) (value : UInt64) :
    Alike source (Emit.binaryImm op a value) (Emit.binaryImm op a value) := bind _ _ _ _

instance shlImm (shift : Nat) : Alike source (Emit.shlImm a shift) (Emit.shlImm a shift) := bind _ _ _ _

instance convert : Alike source (Emit.convert a type) (Emit.convert a type) :=
  have : Alike source (Emit.push (.convert a type)) (Emit.push (.convert a type)) := push (.refl _) rfl
  bind _ _ _ _

instance loadVar (var : Var) : Alike source (Emit.loadVar var) (Emit.loadVar var) := push (.refl _) rfl

instance storeVar (var : Var) : Alike source (Emit.storeVar var a) (Emit.storeVar var a) := run (.refl _) rfl

instance input (input : LaneInput) : Alike source (Emit.input input) (Emit.input input) := push (.refl _) rfl

instance queryAdd (stream : UInt8) :
    Alike source (Emit.effect (.queryAdd stream a)) (Emit.effect (.queryAdd stream a)) := run (.refl _) rfl

instance barrier : Alike source (Emit.effect .barrier) (Emit.effect .barrier) := run (.refl _) rfl

instance ballot (wave : WaveWidth) : Alike source (wave.ballot a) (wave.ballot a) := push (.refl _) rfl

instance popCount (wave : WaveWidth) : Alike source (wave.popCount a) (wave.popCount a) := unary _ _

instance reduceAdd (wave : WaveWidth) : Alike source (wave.reduceAdd a) (wave.reduceAdd a) := push (.refl _) rfl

instance elect (wave : WaveWidth) : Alike source wave.elect wave.elect := push (.refl _) rfl

end

end Alike

end Emit

end PrimitiveShader
