import PrimitiveShader.Proofs.Emission.Straight
import PrimitiveShader.Proofs.Thread.Crew

/-!
# Emitted code, as a thread runs it

`Emit.wp` is the precondition of the code that an action emits. With it a proof about a thread that
runs the emitted code follows the action that emits it, one instruction after the other. What a
thread has computed so far is recorded by `Knows`: a value, its type and its contents on this thread.
Later code does not change it (`Knows.later`), since every instruction has a register of its own.
-/

namespace PrimitiveShader

variable {c : Setting} {id : LaneId}

/-! ## The precondition of an action -/

/-- The precondition of the code that `e` emits at the end of `p`, as part of the program of `c`. -/
def Emit.wp {α : Type} (c : Setting) (id : LaneId) (e : Emit α) (p : Program)
    (Q : α → Program → Thread → Prop) (L : Thread → Prop) (t : Thread) : Prop :=
  t.Sized c → ∀ a p', e p = .ok (a, p') → p'.Within c.program →
    Block.wp c id (p'.body.drop p.body.length) (Q a p') L t

/-- Before the thread has `p` and `t` come `p'` and `t'`, with nothing lost in between. -/
structure Later (p : Program) (t : Thread) (p' : Program) (t' : Thread) : Prop where
  within : p.Within p'
  read : ∀ value : Value, value.index < p.definitions.size →
    t'.lane.read value = t.lane.read value

/-- A value of the program with its type and its contents on the thread. The contents of a constant
are the constant. -/
structure Knows (p : Program) (t : Thread) (value : Value) (type : ScalarType) (a : UInt64) :
    Prop where
  typeOf : p.typeOf value = .ok type
  read : t.lane.read value = .ok a
  constant : ∀ instr, p.instr value = .ok instr → ∀ k, instr.constant? = some k → k = a

/-- Only registers have changed. -/
structure Thread.Quiet (t t' : Thread) : Prop where
  vars : t'.lane.vars = t.lane.vars
  outputs : t'.lane.outputs = t.lane.outputs
  view : t'.view = t.view
  primitives : t'.primitives = t.primitives
  vertices : t'.vertices = t.vertices
  space : t'.space = t.space

/-- Between the two the thread has only computed values. -/
structure Computed (p : Program) (t : Thread) (p' : Program) (t' : Thread) : Prop extends
  Later p t p' t', t.Quiet t'

/-- The postcondition holds once the thread has computed a value of the type, with these contents. -/
abbrev Learns (p : Program) (t : Thread) (type : ScalarType) (a : UInt64) (Q : Value → Program → Thread → Prop) :
    Prop := ∀ v p' t', Computed p t p' t' → Knows p' t' v type a → Q v p' t'

section

variable {p p' p'' : Program} {t t' t'' : Thread}

namespace Later

theorem refl (p : Program) (t : Thread) : Later p t p t := ⟨.refl p, fun _ _ => rfl⟩

/-- Changes that leave the registers alone. -/
theorem of_registers (h : p.Within p') (hr : t'.lane.registers = t.lane.registers) : Later p t p' t' :=
  ⟨h, fun v _ => by simp only [Lane.read, hr]⟩

theorem trans (h : Later p t p' t') (h' : Later p' t' p'' t'') : Later p t p'' t'' :=
  ⟨h.within.trans h'.within, fun v hv =>
    (h'.read v (Nat.lt_of_lt_of_le hv h.within.size_le)).trans (h.read v hv)⟩

end Later

variable {type : ScalarType} {a : UInt64} {value : Value}

theorem Knows.later (h : Knows p t value type a) (hl : Later p t p' t') : Knows p' t' value type a where
  typeOf := hl.within.typeOf_eq h.typeOf
  read := (hl.read value (Program.lt_of_typeOf h.typeOf)).trans h.read
  constant instr' hi' k hk := by
    obtain ⟨instr, hi⟩ := Program.exists_instr_of_typeOf h.typeOf
    have heq := hl.within.instr_eq hi
    rw [hi'] at heq
    cases heq
    exact h.constant instr' hi k hk

namespace Thread.Quiet

theorem refl (t : Thread) : t.Quiet t := ⟨rfl, rfl, rfl, rfl, rfl, rfl⟩

theorem trans (h : t.Quiet t') (h' : t'.Quiet t'') : t.Quiet t'' :=
  ⟨h'.vars.trans h.vars, h'.outputs.trans h.outputs, h'.view.trans h.view,
    h'.primitives.trans h.primitives, h'.vertices.trans h.vertices, h'.space.trans h.space⟩

end Thread.Quiet

namespace Computed

theorem refl (p : Program) (t : Thread) : Computed p t p t := ⟨.refl p t, .refl t⟩

theorem of_within (h : p.Within p') : Computed p t p' t := ⟨.of_registers h rfl, .refl t⟩

variable (h : Computed p t p' t')
include h

theorem trans (h' : Computed p' t' p'' t'') : Computed p t p'' t'' :=
  ⟨h.toLater.trans h'.toLater, h.toQuiet.trans h'.toQuiet⟩

theorem withView (view : Nat → UInt8) : Computed p { t with view } p' { t' with view } :=
  ⟨⟨h.within, h.read⟩, h.vars, h.outputs, rfl, h.primitives, h.vertices, h.space⟩

theorem withPrimitives (words : List ExportWord) :
    Computed p { t with primitives := t.primitives ++ words } p' { t' with primitives := t'.primitives ++ words } :=
  ⟨⟨h.within, h.read⟩, h.vars, h.outputs, h.view, congrArg (· ++ words) h.primitives, h.vertices, h.space⟩

end Computed

theorem Knows.computed (h : Knows p t value type a) (hc : Computed p t p' t') : Knows p' t' value type a :=
  h.later hc.toLater

end

namespace Emit

section

variable {α β : Type} {p : Program} {t : Thread} {L : Thread → Prop} {Q : α → Program → Thread → Prop}

theorem wp_pure {a : α} (h : Q a p t) : Emit.wp c id (pure a : Emit α) p Q L t := by
  intro _ b p' hp _
  obtain ⟨rfl, rfl⟩ := pure_eq_ok_iff.mp hp
  rw [List.drop_length, Block.wp_nil]
  exact h

theorem wp_lift {r : Except Fault α} (h : ∀ a, r = .ok a → Q a p t) : Emit.wp c id (liftM r : Emit α) p Q L t := by
  intro _ a p' hp _
  obtain ⟨hr, rfl⟩ := lift_eq_ok_iff.mp hp
  rw [List.drop_length, Block.wp_nil]
  exact h a hr

/-- Actions that reject what they find emit nothing. -/
theorem wp_fail {fault : Fault} : Emit.wp c id (fail fault : Emit α) p Q L t := by
  intro _ a p' hp _
  cases hp

theorem wp_get {Q : Program → Program → Thread → Prop} (h : Q p p t) : Emit.wp c id Emit.get p Q L t := by
  intro _ a p' hp _
  cases hp
  rw [List.drop_length, Block.wp_nil]
  exact h

variable {e : Emit α} {k : α → Emit β}

theorem wp_mono {Q' : α → Program → Thread → Prop} {L' : Thread → Prop}
    (h : Emit.wp c id e p Q L t) (hQ : ∀ a p' u, Q a p' u → Q' a p' u) (hL : ∀ u, L u → L' u) :
    Emit.wp c id e p Q' L' t :=
  fun hs a p' hp hw => Block.wp_mono _ (h hs a p' hp hw) (hQ a p') hL

theorem wp_bind {Q : β → Program → Thread → Prop}
    (h : Emit.wp c id e p (fun a p' => Emit.wp c id (k a) p' Q L) L t) : Emit.wp c id (e >>= k) p Q L t := by
  intro hs b p'' hp hw
  obtain ⟨a, p', ha, hb⟩ := bind_eq_ok_iff.mp hp
  have hgrows := e.grows ha
  have hgrows' := (k a).grows hb
  rw [drop_body_eq hgrows hgrows', Block.wp_append]
  have hfirst := h hs a p' ha (hgrows'.toWithin.trans hw)
  refine Block.wp_mono _ (Block.wp_sized _ hs hfirst) (fun u hu => ?_) fun u hu => hu.2
  exact hu.2 hu.1 b p'' hb hw

theorem wp_push {instr : Instr} {Q : Value → Program → Thread → Prop}
    (h : ∀ p', p.Gains instr p' → p'.Within c.program → t.Sized c →
      instr.wp c id ⟨p.definitions.size⟩ (Q ⟨p.definitions.size⟩ p') t) : Emit.wp c id (push instr) p Q L t := by
  intro hs v p' hp hw
  obtain ⟨rfl, hgains, hbody⟩ := push_eq_ok hp
  rw [hbody, List.drop_left, Block.wp_cons]
  unfold Node.wp
  rw [hw.instr_eq hgains.instr]
  refine Instr.wp_mono (h p' hgains hw hs) fun u hu => ?_
  rw [Block.wp_nil]
  exact hu

end

end Emit

end PrimitiveShader
