import Mathlib.Data.List.Forall2
import PrimitiveShader.Proofs.Validity.WellFormed
import PrimitiveShader.Proofs.Wave.Flattening

/-!
# Scopes in flat code

The check of a program follows its tree. In flat code the same is followed operation by operation: what may be
used, and what may be used again behind each open branch or loop (`FlatScope`). In the code of a well-formed
program every operation uses what is in scope there, and where it jumps to, the scope is the one that a wave
arrives with (`CodeOp.Scoped`, `Block.WellFormed.scoped`).

A wave knows its scope when every lane that is on has run all instructions that may be used, and so have the
lanes that an open branch or loop will switch on again (`Wave.Knows`). Every operation keeps this
(`Wave.Knows.instr`, `Wave.Knows.steer`), so no lane uses a value that it has not computed.
-/

namespace PrimitiveShader

/-- What may be used at an operation. -/
structure FlatScope where
  visible : Value → Prop
  /-- What may be used behind the open branches and loops, innermost first. -/
  opened : List (Value → Prop)

namespace FlatScope

variable {code : Array CodeOp} {pc : Nat}

/-- The scope behind an operation. -/
def pass : FlatScope → CodeOp → FlatScope
  | ⟨visible, opened⟩, .instr value => ⟨(Node.instr value).opens visible, opened⟩
  | ⟨visible, opened⟩, .branch _ _ => ⟨visible, visible :: opened⟩
  | ⟨_, entry :: opened⟩, .otherwise _ => ⟨entry, entry :: opened⟩
  | ⟨_, entry :: opened⟩, .endBranch => ⟨entry, opened⟩
  | ⟨visible, opened⟩, .loop => ⟨visible, visible :: opened⟩
  | ⟨_, entry :: opened⟩, .endLoop _ => ⟨entry, opened⟩
  | scope, _ => scope

/-- The scope before an operation. -/
def before (code : Array CodeOp) (pc : Nat) : FlatScope :=
  (code.toList.take pc).foldl pass ⟨fun _ => False, []⟩

theorem before_add {ops : List CodeOp} (h : CodeAt code pc ops) :
    before code (pc + ops.length) = ops.foldl pass (before code pc) := by
  obtain ⟨front, rest, hcode, rfl⟩ := h
  have hfront : code.toList.take front.length = front := by simp [hcode]
  have hboth : code.toList.take (front.length + ops.length) = front ++ ops := by
    rw [hcode, ← List.length_append, List.take_left]
  rw [before, before, hfront, hboth, List.foldl_append]

theorem before_succ {op : CodeOp} (h : code[pc]? = some op) : before code (pc + 1) = (before code pc).pass op := by
  have htake : code.toList.take (pc + 1) = code.toList.take pc ++ [op] := by
    rw [List.take_add_one, Array.getElem?_toList, h]
    rfl
  rw [before, before, htake, List.foldl_append]
  rfl

end FlatScope

mutual

theorem Node.foldl_pass : ∀ (node : Node) (start : Nat) (visible : Value → Prop) (opened : List (Value → Prop)),
    (node.code start).foldl FlatScope.pass ⟨visible, opened⟩ = ⟨node.opens visible, opened⟩
  | .instr value, _, _, _ => rfl
  | .branch cond thenBlock elseBlock, start, visible, opened => by
    have hopens : (Node.branch cond thenBlock elseBlock).opens visible = visible := by
      funext v
      simp [Node.opens]
    simp only [Node.code, List.foldl_append, List.foldl_cons, List.foldl_nil, List.cons_append, FlatScope.pass,
      Block.foldl_pass thenBlock, Block.foldl_pass elseBlock, hopens]
  | .loop body, start, visible, opened => by
    have hopens : (Node.loop body).opens visible = visible := by
      funext v
      simp [Node.opens]
    simp only [Node.code, List.foldl_append, List.foldl_cons, List.foldl_nil, List.cons_append, FlatScope.pass,
      Block.foldl_pass body, hopens]
  | .leave, _, visible, opened => by
    have hopens : Node.leave.opens visible = visible := by
      funext v
      simp [Node.opens]
    rw [hopens]
    rfl

/-- The scope behind the code of a block. -/
theorem Block.foldl_pass : ∀ (block : Block) (start : Nat) (visible : Value → Prop) (opened : List (Value → Prop)),
    (Block.code start block).foldl FlatScope.pass ⟨visible, opened⟩ = ⟨Block.opens block visible, opened⟩
  | [], _, visible, opened => by
    rw [Block.opens_nil]
    rfl
  | node :: rest, start, visible, opened => by
    simp only [Block.code, List.foldl_append, Node.foldl_pass node, Block.foldl_pass rest, Block.opens_cons]

end

/-! ## Operations in scope -/

/-- The operation uses what is in scope, and where it jumps to, the scope is the one that a wave arrives with.
A wave that jumps over a side of a branch has no lane on, so that only the open branches and loops matter
there. -/
def CodeOp.Scoped (program : Program) (scope : Nat → FlatScope) (pc : Nat) : CodeOp → Prop
  | .instr value => ∃ d, program.Supports (scope pc).visible value d
  | .branch cond elseAt => ((scope pc).visible cond ∧ program.valueType? cond = some .bool) ∧
      (scope elseAt).opened = (scope pc).visible :: (scope pc).opened
  | .otherwise endAt => (scope endAt).opened = (scope pc).opened
  | .endLoop loopAt => ∃ entry opened, (scope pc).opened = entry :: opened ∧
      (∀ v, entry v → (scope pc).visible v) ∧ scope (loopAt + 1) = ⟨entry, entry :: opened⟩
  | _ => True

/-- Operations that stand one after the other are in scope. -/
def ScopedAt (program : Program) (scope : Nat → FlatScope) (pc : Nat) (ops : List CodeOp) : Prop :=
  ∀ (k : Nat) (op : CodeOp), ops[k]? = some op → op.Scoped program scope (pc + k)

namespace ScopedAt

variable {program : Program} {scope : Nat → FlatScope} {pc : Nat} {op : CodeOp} {a b : List CodeOp}

theorem nil : ScopedAt program scope pc [] := by
  intro k op h
  simp at h

theorem append (ha : ScopedAt program scope pc a) (hb : ScopedAt program scope (pc + a.length) b) :
    ScopedAt program scope pc (a ++ b) := by
  intro k op h
  by_cases hk : k < a.length
  · rw [List.getElem?_append_left hk] at h
    exact ha k op h
  · have hle := Nat.le_of_not_lt hk
    rw [List.getElem?_append_right hle] at h
    have hop := hb (k - a.length) op h
    rwa [Nat.add_assoc, Nat.add_sub_cancel' hle] at hop

theorem single (h : op.Scoped program scope pc) : ScopedAt program scope pc [op] := by
  intro k op' hk
  obtain ⟨rfl, rfl⟩ : k = 0 ∧ op = op' := by
    cases k with
    | zero => simpa using hk
    | succ k => simp at hk
  exact h

end ScopedAt

section

variable {program : Program} {code : Array CodeOp}

mutual

theorem Node.WellFormed.scoped : ∀ {node : Node} {inLoop : Bool} {visible : Value → Prop}
    {opened : List (Value → Prop)} {pc : Nat}, node.WellFormed program inLoop visible →
    CodeAt code pc (node.code pc) → FlatScope.before code pc = ⟨visible, opened⟩ →
    ScopedAt program (FlatScope.before code) pc (node.code pc)
  | .instr value, _, _, _, pc, ⟨d, hd⟩, _, hscope => by
    refine .single ⟨d, ?_⟩
    rwa [hscope]
  | .branch cond thenBlock elseBlock, _, visible, opened, pc, ⟨hcond, hthen, helse⟩, hcode, hscope => by
    obtain ⟨elseAt, helseAt⟩ : ∃ n, n = pc + 1 + (Block.code (pc + 1) thenBlock).length := ⟨_, rfl⟩
    obtain ⟨endAt, hendAt⟩ : ∃ n, n = elseAt + 1 + (Block.code (elseAt + 1) elseBlock).length := ⟨_, rfl⟩
    have hshape : (Node.branch cond thenBlock elseBlock).code pc =
        (([.branch cond elseAt] ++ Block.code (pc + 1) thenBlock) ++
          ([.otherwise endAt] ++ Block.code (elseAt + 1) elseBlock)) ++ [.endBranch] := by
      rw [hendAt, helseAt]
      rfl
    rw [hshape] at hcode ⊢
    have hthenCode : CodeAt code (pc + 1) (Block.code (pc + 1) thenBlock) :=
      hcode.append_left.append_left.append_right
    have hotherCode := hcode.append_left.append_right
    rw [List.length_append, ← Nat.add_assoc, List.length_singleton, ← helseAt] at hotherCode
    have helseCode : CodeAt code (elseAt + 1) (Block.code (elseAt + 1) elseBlock) := hotherCode.append_right
    -- The scopes at the start of the first side, at the mark, and at the start and the end of the second side.
    have hscope₁ : FlatScope.before code (pc + 1) = ⟨visible, visible :: opened⟩ := by
      rw [FlatScope.before_succ hcode.append_left.append_left.append_left.head, hscope]
      rfl
    have hscope₂ : FlatScope.before code elseAt = ⟨Block.opens thenBlock visible, visible :: opened⟩ := by
      rw [helseAt, FlatScope.before_add hthenCode, hscope₁, Block.foldl_pass]
    have hscope₃ : FlatScope.before code (elseAt + 1) = ⟨visible, visible :: opened⟩ := by
      rw [FlatScope.before_succ hotherCode.append_left.head, hscope₂]
      rfl
    have hscope₄ : FlatScope.before code endAt = ⟨Block.opens elseBlock visible, visible :: opened⟩ := by
      rw [hendAt, FlatScope.before_add helseCode, hscope₃, Block.foldl_pass]
    have hbranch : (CodeOp.branch cond elseAt).Scoped program (FlatScope.before code) pc := by
      simpa only [CodeOp.Scoped, hscope, hscope₂, and_true] using hcond
    have hother : (CodeOp.otherwise endAt).Scoped program (FlatScope.before code) elseAt := by
      simp only [CodeOp.Scoped, hscope₂, hscope₄]
    have hfirst := (ScopedAt.single hbranch).append (hthen.scoped hthenCode hscope₁)
    have hsecond := (ScopedAt.single hother).append (helse.scoped helseCode hscope₃)
    refine (hfirst.append ?_).append (.single trivial)
    rwa [List.length_append, ← Nat.add_assoc, List.length_singleton, ← helseAt]
  | .loop body, _, visible, opened, pc, hbody, hcode, hscope => by
    have hshape : (Node.loop body).code pc = ([.loop] ++ Block.code (pc + 1) body) ++ [.endLoop pc] := rfl
    rw [hshape] at hcode ⊢
    have hbody : Block.WellFormed program true visible body := hbody
    have hbodyCode : CodeAt code (pc + 1) (Block.code (pc + 1) body) := hcode.append_left.append_right
    have hscope₁ : FlatScope.before code (pc + 1) = ⟨visible, visible :: opened⟩ := by
      rw [FlatScope.before_succ hcode.append_left.append_left.head, hscope]
      rfl
    have hscope₂ : FlatScope.before code (pc + 1 + (Block.code (pc + 1) body).length) =
        ⟨Block.opens body visible, visible :: opened⟩ := by
      rw [FlatScope.before_add hbodyCode, hscope₁, Block.foldl_pass]
    have hend : (CodeOp.endLoop pc).Scoped program (FlatScope.before code)
        (pc + 1 + (Block.code (pc + 1) body).length) := by
      refine ⟨visible, opened, ?_, ?_, hscope₁⟩
      · rw [hscope₂]
      · rw [hscope₂]
        exact fun v hv => .inr hv
    have hloop : CodeOp.loop.Scoped program (FlatScope.before code) pc := trivial
    refine ((ScopedAt.single hloop).append (hbody.scoped hbodyCode hscope₁)).append (.single ?_)
    rwa [List.length_append, ← Nat.add_assoc, List.length_singleton]
  | .leave, _, _, _, pc, _, _, _ => .single trivial

/-- In the code of a well-formed block every operation is in scope. -/
theorem Block.WellFormed.scoped : ∀ {block : Block} {inLoop : Bool} {visible : Value → Prop}
    {opened : List (Value → Prop)} {pc : Nat}, Block.WellFormed program inLoop visible block →
    CodeAt code pc (Block.code pc block) → FlatScope.before code pc = ⟨visible, opened⟩ →
    ScopedAt program (FlatScope.before code) pc (Block.code pc block)
  | [], _, _, _, _, _, _, _ => .nil
  | node :: rest, _, visible, opened, pc, ⟨hnode, hrest⟩, hcode, hscope => by
    have hfirst := hcode.append_left
    have hscope' : FlatScope.before code (pc + (node.code pc).length) = ⟨node.opens visible, opened⟩ := by
      rw [FlatScope.before_add hfirst, hscope, Node.foldl_pass]
    exact (hnode.scoped hfirst hscope).append (hrest.scoped hcode.append_right hscope')

end

end

/-! ## What a wave has run -/

/-- Which lanes of a wave have run which instructions. -/
abbrev Ran := Nat → Value → Prop

/-- Some lanes have run one more instruction. -/
def Ran.add (ran : Ran) (lanes : List Nat) (value : Value) : Ran := fun l v =>
  ran l v ∨ (l ∈ lanes ∧ v = value)

theorem Ran.add_nil (ran : Ran) (value : Value) : ran.add [] value = ran := by
  funext l v
  simp [Ran.add]

theorem Ran.add_append (ran : Ran) (lanes lanes' : List Nat) (value : Value) :
    (ran.add lanes value).add lanes' value = ran.add (lanes ++ lanes') value := by
  funext l v
  simp only [Ran.add, List.mem_append, or_and_right, or_assoc]

/-- The lanes that an open branch or loop may switch on again. -/
def Frame.kept : Frame → List Nat
  | .branch saved otherwise => saved.lanes ++ otherwise.lanes
  | .loop saved _ => saved.lanes

/-- All these lanes have run everything that may be used. -/
def Ran.Covers (ran : Ran) (lanes : List Nat) (visible : Value → Prop) : Prop :=
  ∀ l ∈ lanes, ∀ v, visible v → ran l v

/-- The lanes that are on have run everything that may be used, and so have those that will be switched on
again behind the open branches and loops. -/
structure Wave.Knows (scope : FlatScope) (ran : Ran) (w : Wave) : Prop where
  exec : ran.Covers w.exec.lanes scope.visible
  frames : List.Forall₂ (fun frame visible => ran.Covers frame.kept visible) w.frames scope.opened

namespace Ran.Covers

variable {ran : Ran} {lanes lanes' : List Nat} {visible visible' : Value → Prop}

theorem mono (h : ran.Covers lanes visible) (hl : ∀ l ∈ lanes', l ∈ lanes) (hv : ∀ v, visible' v → visible v) :
    ran.Covers lanes' visible' :=
  fun l hmem v hvis => h l (hl l hmem) v (hv v hvis)

theorem empty (ran : Ran) (visible : Value → Prop) : ran.Covers LaneMask.empty.lanes visible :=
  fun l hl => absurd hl (LaneMask.not_mem_lanes_empty l)

theorem of_isEmpty {mask : LaneMask} (h : mask.isEmpty = true) (ran : Ran) (visible : Value → Prop) :
    ran.Covers mask.lanes visible := by
  rw [LaneMask.isEmpty_iff.mp h]
  exact empty ran visible

theorem add (h : ran.Covers lanes visible) (more : List Nat) (value : Value) :
    (ran.add more value).Covers lanes visible :=
  fun l hl v hv => .inl (h l hl v hv)

end Ran.Covers

/-- Leaving a loop switches no lane off for what is behind it. -/
theorem Frame.covers_of_leave {ran : Ran} {lanes : LaneMask} {frames frames' : List Frame}
    {opened : List (Value → Prop)} (h : Frame.leave lanes frames = some frames')
    (hcovers : List.Forall₂ (fun frame visible => ran.Covers (Frame.kept frame) visible) frames opened) :
    List.Forall₂ (fun frame visible => ran.Covers (Frame.kept frame) visible) frames' opened := by
  induction hcovers generalizing frames' with
  | nil => cases h
  | @cons frame visible frames opened hfirst hrest ih =>
    cases frame with
    | loop saved broken =>
      cases h
      exact .cons hfirst hrest
    | branch saved otherwise =>
      obtain ⟨frames₁, hframes₁, rfl⟩ := Option.map_eq_some_iff.mp h
      exact .cons hfirst (ih hframes₁)

namespace Wave.Knows

variable {code : Array CodeOp} {ran : Ran} {w w' : Wave} {op : CodeOp} {program : Program}

/-- Before its first operation there is nothing that a wave could use. -/
theorem start (code : Array CodeOp) (ran : Ran) (hpc : w.pc = 0) (hframes : w.frames = []) :
    w.Knows (FlatScope.before code w.pc) ran := by
  rw [hpc]
  refine ⟨fun l _ v hv => hv.elim, ?_⟩
  rw [hframes]
  exact .nil

/-- What may be used behind the innermost branch or loop. -/
theorem top {scope : FlatScope} (h : w.Knows scope ran) {frame : Frame} {rest : List Frame}
    (hw : w.frames = frame :: rest) : ∃ visible opened, scope.opened = visible :: opened ∧
      ran.Covers frame.kept visible ∧
      List.Forall₂ (fun frame visible => ran.Covers (Frame.kept frame) visible) rest opened := by
  have hframes := h.frames
  rw [hw] at hframes
  obtain ⟨visible, opened, hkept, hrest, hopened⟩ := List.forall₂_cons_left_iff.mp hframes
  exact ⟨visible, opened, hopened, hkept, hrest⟩

/-- An instruction has been run on the lanes that are on. -/
theorem instr (h : w.Knows (FlatScope.before code w.pc) ran) {value : Value}
    (hop : code[w.pc]? = some (.instr value)) (lanes : Array Lane) :
    Wave.Knows (FlatScope.before code (w.pc + 1)) (ran.add w.exec.lanes value)
      { w with pc := w.pc + 1, lanes := lanes } := by
  rw [FlatScope.before_succ hop]
  refine ⟨fun l hl v hv => ?_, h.frames.imp fun _ _ hcovers => hcovers.add w.exec.lanes value⟩
  rcases hv with hvalue | hv
  · cases hvalue
    exact .inr ⟨hl, rfl⟩
  · exact .inl (h.exec l hl v hv)

/-- A control operation switches on lanes only that have run what may be used. -/
theorem steer (h : w.Knows (FlatScope.before code w.pc) ran) (hop : code[w.pc]? = some op)
    (hscoped : op.Scoped program (FlatScope.before code) w.pc) (hne : ∀ v, op ≠ .instr v)
    (hsteer : w.steer op = .ok w') : w'.Knows (FlatScope.before code w'.pc) ran := by
  obtain ⟨visible, opened, hscope⟩ : ∃ visible opened, FlatScope.before code w.pc = ⟨visible, opened⟩ :=
    ⟨_, _, rfl⟩
  have hnext := FlatScope.before_succ hop
  rw [hscope] at h hnext
  cases op with
  | instr value => exact absurd rfl (hne value)
  | branch cond elseAt =>
    obtain ⟨taken, htaken, hsteer⟩ := except_bind_eq_ok.mp hsteer
    cases hsteer
    have hexec : ran.Covers taken.lanes visible :=
      h.exec.mono (fun l hl => (((maskOf_eq_ok htaken).2 l).mp hl).1) fun _ hv => hv
    have hkept : ran.Covers (Frame.kept (.branch w.exec (w.exec.diff taken))) visible :=
      h.exec.mono (fun l hl => (List.mem_append.mp hl).elim (fun hl => hl)
        fun hl => (LaneMask.mem_lanes_diff.mp hl).1) fun _ hv => hv
    by_cases hempty : taken.isEmpty
    · simp only [hempty, ↓reduceIte]
      refine ⟨.of_isEmpty hempty _ _, ?_⟩
      rw [hscoped.2, hscope]
      exact .cons hkept h.frames
    · simp only [hempty, Bool.false_eq_true, ↓reduceIte]
      rw [hnext]
      exact ⟨hexec, .cons hkept h.frames⟩
  | otherwise endAt =>
    simp only [Wave.steer, turnBranch] at hsteer
    split at hsteer <;> cases hsteer
    rename_i saved otherwise rest hw
    obtain ⟨entry, opened', hopened, hkept, -⟩ := h.top hw
    by_cases hempty : otherwise.isEmpty
    · simp only [hempty, ↓reduceIte]
      refine ⟨.of_isEmpty hempty _ _, ?_⟩
      rw [hscoped, hscope]
      exact h.frames
    · simp only [hempty, Bool.false_eq_true, ↓reduceIte]
      obtain rfl : opened = entry :: opened' := hopened
      rw [hnext]
      exact ⟨hkept.mono (fun l hl => List.mem_append_right _ hl) fun _ hv => hv, h.frames⟩
  | endBranch =>
    simp only [Wave.steer, endBranch] at hsteer
    split at hsteer <;> cases hsteer
    rename_i saved otherwise rest hw
    obtain ⟨entry, opened', hopened, hkept, hrest⟩ := h.top hw
    obtain rfl : opened = entry :: opened' := hopened
    rw [hnext]
    exact ⟨hkept.mono (fun l hl => List.mem_append_left _ (LaneMask.mem_lanes_diff.mp hl).1) fun _ hv => hv, hrest⟩
  | loop =>
    cases hsteer
    rw [show w.enterLoop.pc = w.pc + 1 from rfl, hnext]
    exact ⟨h.exec, .cons h.exec h.frames⟩
  | leave =>
    simp only [Wave.steer, leaveLoop] at hsteer
    split at hsteer <;> cases hsteer
    rename_i frames hleave
    rw [hnext]
    exact ⟨.empty _ _, Frame.covers_of_leave hleave h.frames⟩
  | endLoop loopAt =>
    simp only [Wave.steer, endLoop] at hsteer
    split at hsteer
    · split at hsteer <;> cases hsteer
      rename_i saved broken rest hw
      obtain ⟨entry, opened', hopened, hkept, hrest⟩ := h.top hw
      obtain rfl : opened = entry :: opened' := hopened
      rw [hnext]
      exact ⟨hkept, hrest⟩
    · cases hsteer
      obtain ⟨entry, opened', hopened, hentry, hloop⟩ := hscoped
      rw [hscope] at hopened hentry
      obtain rfl : opened = entry :: opened' := hopened
      rw [hloop]
      exact ⟨h.exec.mono (fun _ hl => hl) hentry, h.frames⟩

end Wave.Knows

end PrimitiveShader
