import Mathlib.Algebra.Ring.Nat
import PrimitiveShader.Program.Emission

/-!
# Emission only adds

An emission appends to the body of a program, to its table of definitions and to its variables, and
takes nothing away (`Emit.grows`). Values therefore keep their instructions and types
(`Program.Within.definition?_eq`). What is open in a builder makes no difference to an emission, so a
builder with nothing open can be finished (`Emit.finish_eq_ok_iff`).

An action may place code of its own and code that is already there, such as the body of a source. `Emit.Placing` says
what there is to be said about every instruction that it places, for instance that it can be run (`Emit.Steady`).
-/

namespace PrimitiveShader

variable {var : Var} {type : ScalarType}

namespace Program

variable {p p' p'' : Program}

variable {d : Definition} {instr : Instr} {value : Value}

theorem instr_eq_ok_iff : p.instr value = .ok instr ↔ ∃ d, p.definition? value = some d ∧ d.instr = instr := by
  unfold Program.instr definition
  cases p.definition? value <;> simp [Except.map]

theorem typeOf_eq_ok_iff : p.typeOf value = .ok type ↔ ∃ d, p.definition? value = some d ∧ d.type = type := by
  unfold typeOf definition
  cases p.definition? value <;> simp [Except.map]

namespace Within

variable (h : p.Within p')
include h

theorem size_le : p.definitions.size ≤ p'.definitions.size :=
  h.definitions.length_le

theorem vars_size_le : p.vars.size ≤ p'.vars.size := h.vars.length_le

theorem withBody (body : Block) : p.Within { p' with body } := ⟨h.definitions, h.vars⟩

theorem definition?_eq (hd : p.definition? value = some d) : p'.definition? value = some d := by
  obtain ⟨rest, hrest⟩ := h.definitions
  unfold definition? at hd ⊢
  rw [← Array.getElem?_toList] at hd ⊢
  rw [← hrest, List.getElem?_append_left]
  · exact hd
  · exact (List.getElem?_eq_some_iff.mp hd).1

theorem instr_eq (hi : p.instr value = .ok instr) : p'.instr value = .ok instr := by
  obtain ⟨d, hd, hinstr⟩ := instr_eq_ok_iff.mp hi
  exact instr_eq_ok_iff.mpr ⟨d, h.definition?_eq hd, hinstr⟩

theorem typeOf_eq (ht : p.typeOf value = .ok type) : p'.typeOf value = .ok type := by
  obtain ⟨d, hd, htype⟩ := typeOf_eq_ok_iff.mp ht
  exact typeOf_eq_ok_iff.mpr ⟨d, h.definition?_eq hd, htype⟩

end Within

theorem lt_of_definition? (h : p.definition? value = some d) : value.index < p.definitions.size :=
  (Array.getElem?_eq_some_iff.mp h).1

theorem instr_of_definition? (h : p.definition? value = some d) : p.instr value = .ok d.instr :=
  instr_eq_ok_iff.mpr ⟨d, h, rfl⟩

theorem lt_of_instr (h : p.instr value = .ok instr) : value.index < p.definitions.size := by
  obtain ⟨d, hd, -⟩ := instr_eq_ok_iff.mp h
  exact lt_of_definition? hd

theorem lt_of_typeOf (h : p.typeOf value = .ok type) : value.index < p.definitions.size := by
  obtain ⟨d, hd, -⟩ := typeOf_eq_ok_iff.mp h
  exact lt_of_definition? hd

theorem exists_instr_of_typeOf (h : p.typeOf value = .ok type) : ∃ instr, p.instr value = .ok instr := by
  obtain ⟨d, hd, -⟩ := typeOf_eq_ok_iff.mp h
  exact ⟨d.instr, instr_of_definition? hd⟩

theorem valueType?_eq_some_iff : p.valueType? value = some type ↔ p.typeOf value = .ok type := by
  unfold valueType? typeOf definition
  cases p.definition? value <;> simp [Except.map]

end Program

theorem Program.lt_of_varType? {p : Program} (h : p.varType? var = some type) : var.index < p.vars.size := by
  unfold varType? var? at h
  rcases Nat.lt_or_ge var.index p.vars.size with hlt | hge
  · exact hlt
  · simp [Array.getElem?_eq_none hge] at h

theorem Program.Within.varType?_eq {p p' : Program} (h : p.Within p')
    (ht : p.varType? var = some type) : p'.varType? var = some type := by
  have hlt := Program.lt_of_varType? ht
  obtain ⟨rest, hrest⟩ := h.vars
  unfold Program.varType? Program.var? at ht ⊢
  rw [← Array.getElem?_toList] at ht ⊢
  rw [← hrest, List.getElem?_append_left (by simpa using hlt)]
  exact ht

/-- The program `p'` is `p` with a new instruction. -/
structure Program.Gains (p : Program) (new : Instr) (p' : Program) : Prop extends
    p.Grows p' where
  instr : p'.instr ⟨p.definitions.size⟩ = .ok new
  typeOf : p'.typeOf ⟨p.definitions.size⟩ = .ok ((p.resultType? new).getD .void)

/-- An instruction that can be run. It is not a barrier, unless those are admitted. -/
structure Instr.Runnable (barriers : Bool) (instr : Instr) : Prop where
  barrier : barriers = false → instr ≠ .intrinsic .barrier
  entryPoint : instr.isEntryPoint = false

/-- Every instruction of the block is defined and can be run. -/
def Block.Steady (p : Program) (barriers : Bool) (block : Block) : Prop :=
  ∀ v ∈ Block.values block, ∃ instr, p.instr v = .ok instr ∧ instr.Runnable barriers

/-- What may be placed: an instruction, its value and the number of definitions before. What may be placed behind more
definitions may be placed behind fewer. -/
structure Placement where
  admits : Nat → Value → Instr → Prop
  mono : ∀ {m n : Nat} {v : Value} {instr : Instr}, m ≤ n → admits n v instr → admits m v instr

/-- Instructions that can be run. -/
def Placement.runnable (barriers : Bool) : Placement := ⟨fun _ _ instr => instr.Runnable barriers, fun _ h => h⟩

/-- An action that adds only what may be placed, as long as the program has everything that `source` has. -/
class Emit.Placing {α : Type} (source : Program) (S : Placement) (e : Emit α) : Prop where
  placed : ∀ {p : Program} {a : α} {p' : Program}, source.Within p → e p = .ok (a, p') →
    ∀ v ∈ Block.values (p'.body.drop p.body.length), ∃ instr, p'.instr v = .ok instr ∧
      S.admits p.definitions.size v instr

/-- An action that places only what can be run. -/
abbrev Emit.Steady {α : Type} (source : Program) (barriers : Bool) (e : Emit α) : Prop :=
  Placing source (.runnable barriers) e

theorem Block.values_append (a b : Block) : Block.values (a ++ b) = Block.values a ++ Block.values b := by
  induction a with
  | nil => simp [Block.values]
  | cons node rest ih => simp [Block.values, ih]

theorem Block.Steady.within {p p' : Program} {barriers : Bool} {block : Block} (h : block.Steady p barriers)
    (hp : p.Within p') : block.Steady p' barriers := by
  intro v hv
  obtain ⟨instr, hi, hne⟩ := h v hv
  exact ⟨instr, hp.instr_eq hi, hne⟩

namespace Emit

variable {α β : Type} {p p' p'' : Program}

/-- What an action does to a builder follows from what it does to a program. -/
@[ext]
theorem ext {e e' : Emit α} (h : ∀ p, e p = e' p) : e = e' := by
  obtain ⟨apply, build, hbuild⟩ := e
  obtain ⟨apply', build', hbuild'⟩ := e'
  obtain rfl : apply = apply' := funext h
  obtain rfl : build = build' := funext fun b => (hbuild b).trans (hbuild' b).symm
  rfl

instance : LawfulMonad Emit := by
  refine LawfulMonad.mk' Emit (fun e => ext fun p => ?_) (fun a k => rfl) fun e k l => ext fun p => ?_
  · change (e p >>= fun r => Except.ok (r.1, r.2)) = e p
    cases e p <;> rfl
  · change ((e p >>= fun r => k r.1 r.2) >>= fun r => l r.1 r.2) = (e p >>= fun r => k r.1 r.2 >>= fun r => l r.1 r.2)
    cases e p <;> rfl

theorem bind_eq_ok_iff {e : Emit α} {k : α → Emit β} {b : β} :
    (e >>= k) p = .ok (b, p'') ↔ ∃ a p', e p = .ok (a, p') ∧ k a p' = .ok (b, p'') := except_bind_eq_ok.trans Prod.exists

variable {e : Emit Unit} {instr : Instr} {u : Unit} {cond : Value} {a : α}

theorem pure_eq_ok_iff {b : α} : (pure a : Emit α) p = .ok (b, p') ↔ a = b ∧ p = p' := by
  change Except.ok (a, p) = .ok (b, p') ↔ _
  simp

/-- A computation that may fault, without an effect on the program. -/
theorem lift_eq_ok_iff {r : Except Fault α} : (liftM r : Emit α) p = .ok (a, p') ↔ r = .ok a ∧ p = p' := by
  change r.map (·, p) = _ ↔ _
  grind [except_map_eq_ok]

theorem lift_bind_eq_ok_iff {r : Except Fault α} {k : α → Emit β} {b : β} :
    (liftM r >>= k) p = .ok (b, p'') ↔ ∃ a, r = .ok a ∧ k a p = .ok (b, p'') := by
  simp only [bind_eq_ok_iff, lift_eq_ok_iff]
  grind

/-- The code of a nested block, and the program around it. -/
theorem nested_eq_ok_iff {block : Block} :
    nested e p = .ok (block, p') ↔ ∃ inner, e { p with body := [] } = .ok ((), inner) ∧
      block = inner.body ∧ p' = { inner with body := p.body } := by
  refine except_map_eq_ok.trans ⟨?_, ?_⟩
  · rintro ⟨⟨⟨⟩, inner⟩, h, heq⟩
    cases heq
    exact ⟨inner, h, rfl, rfl⟩
  · rintro ⟨inner, h, rfl, rfl⟩
    exact ⟨_, h, rfl⟩

/-- A builder that has nothing open can be finished after every action. -/
theorem finish_eq_ok_iff : e.finish p = .ok p' ↔ e p = .ok ((), p') := by
  refine except_bind_eq_ok.trans ⟨?_, fun h => ⟨_, (e.build_eq _).trans (except_map_eq_ok.mpr ⟨_, h, rfl⟩), rfl⟩⟩
  rintro ⟨r, hr, h⟩
  obtain ⟨⟨⟨⟩, q⟩, hq, rfl⟩ := except_map_eq_ok.mp ((e.build_eq _).symm.trans hr)
  cases h
  exact hq

/-! Control flow is what is nested, placed. -/

theorem ifThen_eq : ifThen cond e = nested e >>= fun block => place [.branch cond block []] := ext fun _ => rfl

theorem ifThenElse_eq {e' : Emit Unit} : ifThenElse cond e e' =
    nested e >>= fun block => nested e' >>= fun block' => place [.branch cond block block'] := ext fun _ => rfl

theorem loop_eq : loop e = nested e >>= fun block => place [.loop block] := ext fun _ => rfl

theorem place_eq_ok {nodes : Block} (h : place nodes p = .ok (u, p')) : p' = { p with body := p.body ++ nodes } := by
  cases h
  rfl

/-- A branch stands around what the action emits. -/
theorem ifThen_eq_ok (h : ifThen cond e p = .ok (u, p')) : ∃ inner, e { p with body := [] } = .ok ((), inner) ∧
      p' = { inner with body := p.body ++ [.branch cond inner.body []] } := by
  rw [ifThen_eq] at h
  obtain ⟨block, p₁, h₁, h₂⟩ := bind_eq_ok_iff.mp h
  obtain ⟨inner, hinner, rfl, rfl⟩ := nested_eq_ok_iff.mp h₁
  exact ⟨inner, hinner, place_eq_ok h₂⟩

theorem ifThenElse_eq_ok {e' : Emit Unit} (h : ifThenElse cond e e' p = .ok (u, p')) :
    ∃ inner inner', e { p with body := [] } = .ok ((), inner) ∧ e' { inner with body := [] } = .ok ((), inner') ∧
      p' = { inner' with body := p.body ++ [.branch cond inner.body inner'.body] } := by
  rw [ifThenElse_eq] at h
  obtain ⟨block, p₁, h₁, h⟩ := bind_eq_ok_iff.mp h
  obtain ⟨block', p₂, h₂, h₃⟩ := bind_eq_ok_iff.mp h
  obtain ⟨inner, hinner, rfl, rfl⟩ := nested_eq_ok_iff.mp h₁
  obtain ⟨inner', hinner', rfl, rfl⟩ := nested_eq_ok_iff.mp h₂
  exact ⟨inner, inner', hinner, hinner', place_eq_ok h₃⟩

theorem loop_eq_ok (h : loop e p = .ok (u, p')) : ∃ inner, e { p with body := [] } = .ok ((), inner) ∧
      p' = { inner with body := p.body ++ [.loop inner.body] } := by
  rw [loop_eq] at h
  obtain ⟨block, p₁, h₁, h₂⟩ := bind_eq_ok_iff.mp h
  obtain ⟨inner, hinner, rfl, rfl⟩ := nested_eq_ok_iff.mp h₁
  exact ⟨inner, hinner, place_eq_ok h₂⟩

theorem push_eq_ok {v : Value} (h : push instr p = .ok (v, p')) :
    v = ⟨p.definitions.size⟩ ∧ p.Gains instr p' ∧ p'.body = p.body ++ [.instr v] := by
  cases h
  refine ⟨rfl, ⟨⟨⟨by simp, List.prefix_rfl⟩, List.prefix_append _ _, rfl⟩, ?_, ?_⟩, rfl⟩
  · simp [Program.instr, Program.definition, Program.definition?, Except.map]
  · simp [Program.typeOf, Program.definition, Program.definition?, Except.map]

theorem run_eq_ok (h : run instr p = .ok (u, p')) :
    p.Gains instr p' ∧ p'.body = p.body ++ [.instr ⟨p.definitions.size⟩] := by
  obtain ⟨v, p₁, hpush, hpure⟩ := bind_eq_ok_iff.mp h
  obtain ⟨-, rfl⟩ := pure_eq_ok_iff.mp hpure
  obtain ⟨rfl, hplaced⟩ := push_eq_ok hpush
  exact hplaced

/-- What two actions append, one after the other. -/
theorem drop_body_eq (h : p.Grows p') (h' : p'.Grows p'') : p''.body.drop p.body.length =
      p'.body.drop p.body.length ++ p''.body.drop p'.body.length := by
  obtain ⟨x, hx⟩ := h.body
  obtain ⟨y, hy⟩ := h'.body
  rw [← hy, ← hx]
  simp

namespace Placing

variable {source : Program} {S : Placement}

theorem of_body {e : Emit α}
    (h : ∀ {p : Program} {a : α} {p' : Program}, e p = .ok (a, p') → p'.body = p.body) : Placing source S e where
  placed _ hp v hv := by
    rw [h hp, List.drop_length] at hv
    cases hv

instance pure (a : α) : Placing source S (Pure.pure a : Emit α) := of_body fun h => by
  obtain ⟨-, rfl⟩ := pure_eq_ok_iff.mp h
  rfl

instance bind (e : Emit α) (k : α → Emit β) [he : Placing source S e] [hk : ∀ a, Placing source S (k a)] :
    Placing source S (e >>= k) where
  placed hw h v hv := by
    obtain ⟨a, p', ha, hb⟩ := bind_eq_ok_iff.mp h
    have hgrows := e.grows ha
    have hgrows' := (k a).grows hb
    rw [drop_body_eq hgrows hgrows', Block.values_append, List.mem_append] at hv
    rcases hv with hv | hv
    · obtain ⟨instr, hinstr, hadmits⟩ := he.placed hw ha v hv
      exact ⟨instr, hgrows'.instr_eq hinstr, hadmits⟩
    · obtain ⟨instr, hinstr, hadmits⟩ := (hk a).placed (hw.trans hgrows.toWithin) hb v hv
      exact ⟨instr, hinstr, S.mono hgrows.size_le hadmits⟩

instance ite (c : Prop) [Decidable c] (e e' : Emit α) [he : Placing source S e] [he' : Placing source S e'] :
    Placing source S (if c then e else e') := by
  split
  · exact he
  · exact he'

theorem push (h : ∀ n, S.admits n ⟨n⟩ instr) : Placing source S (Emit.push instr) where
  placed _ hp v hv := by
    obtain ⟨rfl, hgains, hbody⟩ := push_eq_ok hp
    rw [hbody, List.drop_left] at hv
    obtain rfl : v = ⟨_⟩ := by simpa [Block.values, Node.values] using hv
    exact ⟨instr, hgains.instr, h _⟩

theorem run (h : ∀ n, S.admits n ⟨n⟩ instr) : Placing source S (Emit.run instr) :=
  have : Placing source S (Emit.push instr) := push h
  bind _ _

/-! ### Control flow -/

variable {e' : Emit Unit} (cond : Value)

instance ifThenElse [he : Placing source S e] [he' : Placing source S e'] :
    Placing source S (Emit.ifThenElse cond e e') where
  placed {p _ _} hw h v hv := by
    obtain ⟨inner, inner', hinner, hinner', rfl⟩ := ifThenElse_eq_ok h
    have hwithin := (e.grows hinner).toWithin
    have hplaced := he.placed (hw.withBody []) hinner v
    have hplaced' := he'.placed (((hw.withBody []).trans hwithin).withBody []) hinner' v
    rw [List.length_nil, List.drop_zero] at hplaced hplaced'
    simp only [List.drop_left, Block.values, Node.values, List.append_nil, List.mem_append] at hv
    rcases hv with hv | hv
    · obtain ⟨instr, hinstr, hadmits⟩ := hplaced hv
      have hwithin' := (e'.grows hinner').toWithin
      exact ⟨instr, Program.Within.instr_eq ⟨hwithin'.definitions, hwithin'.vars⟩ hinstr, hadmits⟩
    · obtain ⟨instr, hinstr, hadmits⟩ := hplaced' hv
      exact ⟨instr, hinstr, S.mono hwithin.size_le hadmits⟩

instance ifThen [he : Placing source S e] : Placing source S (Emit.ifThen cond e) where
  placed hw h v hv := by
    obtain ⟨inner, hinner, rfl⟩ := ifThen_eq_ok h
    rw [List.drop_left] at hv
    exact he.placed (hw.withBody []) hinner v (by simpa [Block.values, Node.values] using hv)

instance loop [he : Placing source S e] : Placing source S (Emit.loop e) where
  placed hw h v hv := by
    obtain ⟨inner, hinner, rfl⟩ := loop_eq_ok h
    rw [List.drop_left] at hv
    exact he.placed (hw.withBody []) hinner v (by simpa [Block.values, Node.values] using hv)

instance leave : Placing source S Emit.leave where
  placed _ h v hv := by
    cases h
    rw [List.drop_left] at hv
    simp [Block.values, Node.values] at hv

instance forM {γ : Type} (xs : List γ) (f : γ → Emit Unit) [h : ∀ x, Placing source S (f x)] :
    Placing source S (xs.forM f) := by
  induction xs with
  | nil => exact pure ()
  | cons x rest ih =>
    change Placing source S (f x >>= fun _ => rest.forM f)
    infer_instance

instance mapM {γ δ : Type} (xs : List γ) (f : γ → Emit δ) [h : ∀ x, Placing source S (f x)] :
    Placing source S (xs.mapM f) := by
  induction xs with
  | nil =>
    rw [List.mapM_nil]
    infer_instance
  | cons x rest ih =>
    rw [List.mapM_cons]
    infer_instance

end Placing

namespace Steady

variable {source : Program} {barriers : Bool}

theorem steady {e : Emit α} (he : Steady source barriers e) (hw : source.Within p) {a : α} (h : e p = .ok (a, p')) :
    Block.Steady p' barriers (p'.body.drop p.body.length) :=
  he.placed hw h

theorem place {nodes : Block} (h : ∀ p, source.Within p → nodes.Steady p barriers) :
    Steady source barriers (Emit.place nodes) where
  placed hw hp := by
    cases hp
    rw [List.drop_left]
    exact h _ ⟨hw.definitions, hw.vars⟩

end Steady

end Emit

end PrimitiveShader
