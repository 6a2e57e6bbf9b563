import PrimitiveShader.Lowering
import PrimitiveShader.Proofs.Lowering.VertexRun
import PrimitiveShader.Proofs.Lowering.Writing

/-!
# Lowered vertex and tessellation programs are valid

A valid body is placed once, where everything that it uses is its own, and the code around it is
well-formed (`VertexPlan.writes_wholeProgram`).
-/

namespace PrimitiveShader

open Emit

/-- The beginning of a program whose body is yet to be emitted. -/
def Scope.start (program : Program) : Scope where
  program := { program with body := [] }
  visible _ := False
  placed _ := False
  defined _ := False.elim

namespace Lowering

variable {inLoop : Bool} {s : Scope}

/-- The body of a valid program is placed somewhere in a program that is built upon it. -/
theorem writes_body {source : Program} {Q : Unit → Scope → Prop} (hvalid : source.validate = .ok ())
    (hs : (Scope.start source).Later [] s) (hQ : ∀ s', s.Later (Block.values source.body) s' → Q () s') :
    Writes false (Emit.place source.body) s Q := by
  obtain ⟨hbody, hnodup⟩ := Program.validate_eq_ok_iff.mp hvalid
  have hwithin : source.Within s.program := ⟨hs.within.definitions, hs.within.vars⟩
  refine .place (hbody.mono hwithin fun _ => False.elim) hnodup (fun v hv hp => ?_)
    fun s' h => hQ s' (h.later fun v hv => .inl hv)
  rcases hs.placed v hp with hp | hp | hp
  · exact hp
  · cases hp
  · exact absurd (hbody.lt_size v hv) (Nat.not_lt.mpr hp)

theorem writes_inputVertex {vertex : Nat} {Q : Value → Scope → Prop} (hQ : ∀ v s', s.Later [] s' → s'.Has v .u32 →
      (∃ instr, s'.program.instr v = .ok instr ∧ instr.constant? = none) → Q v s') :
    Writes inLoop (inputVertex vertex) s Q := by
  refine .bind (.input fun pair s₁ h₁ hpair _ => ?_)
  have hbits : (UInt8.ofNat (vertex % 2 * 16)).toNat + (16 : UInt8).toNat ≤ ScalarType.u32.bits := by
    rcases Nat.mod_two_eq_zero_or_one vertex with h | h <;> rw [h] <;> decide
  exact .extract hpair rfl hbits fun v s₂ h₂ hv hi => hQ v s₂ (h₁.trans h₂) hv ⟨_, hi, rfl⟩

namespace VertexPlan

variable {word : Value} {plan : VertexPlan} {Q : Unit → Scope → Prop}

/-- The relay has room for a number. -/
def RelayFits (plan : VertexPlan) : Prop :=
  ∀ relay, plan.relay = some relay → relay.Fits 4 0 ScalarType.u32.bytes

theorem writes_primitiveWord {Q : Value → Scope → Prop} (hQ : s.Gives .u32 Q) :
    Writes inLoop plan.primitiveWord s Q := by
  unfold primitiveWord
  split
  · exact .input fun v s' h hv _ => hQ v s' h hv
  · refine .bind (.mapM (fun i _ s₁ _ => writes_inputVertex fun v s₂ h hv _ => ⟨h, hv⟩)
      fun indices s₁ h₁ hlen hindices => ?_)
    have hlen : 1 ≤ indices.length ∧ indices.length ≤ 3 := by
      rw [hlen, List.length_range]
      exact vertexCount_bounds _
    split
    · refine .bind (.mapM (fun i _ s₁ _ => Writes.input fun v s₂ h hv _ => ⟨h, hv⟩)
        fun flags s₂ h₂ _ hflags => ?_)
      exact writes_packWord hlen (fun v hv => (hindices v hv).later h₂)
        (fun v hv => ⟨.u32, by decide, hflags v hv⟩) nofun fun v s₃ h₃ hv => hQ v s₃ (h₁.trans (h₂.trans h₃)) hv
    · exact writes_packWord hlen hindices nofun nofun fun v s₃ h₃ hv => hQ v s₃ (h₁.trans h₃) hv

/-- The primitive number is handed over and the word exported. -/
theorem writes_exportWord (hrelay : plan.RelayFits) (hword : s.Has word .u32) (hQ : s.Then Q) :
    Writes inLoop (plan.exportWord word) s Q := by
  have hexport (s₁ : Scope) (h₁ : s.Later [] s₁) : Writes inLoop (Emit.effect (.exportPrimitive word)) s₁ Q := by
    have hword := hword.later h₁
    refine .effect ?_ ?_ fun s' h => hQ s' (h₁.trans h)
    · simp [Intrinsic.resultType?, hword.valueType?, typeWhen]
    · simpa [Intrinsic.operands] using ⟨_, hword⟩
  unfold exportWord
  cases hr : plan.relay with
  | none => exact hexport s (.refl s)
  | some relay =>
    refine .bind (writes_inputVertex fun vertex s₁ h₁ hvertex hi => ?_)
    obtain ⟨instr, hinstr, hconst⟩ := hi
    refine .bind (.input fun id s₂ h₂ hid _ => Writes.bind ?_)
    exact Region.writes_store (hrelay relay hr) rfl hid (hvertex.later h₂)
      (h₂.within.instr_eq hinstr) (fun k hk => absurd hk (by simp [hconst]))
      fun s₃ h₃ => hexport s₃ (h₁.trans (h₂.trans h₃))

/-- The export of the lane's primitive, whose word is packed here or has been put into a variable. -/
theorem writes_exportPrimitive {var : Option Var} (hrelay : plan.RelayFits)
    (hvar : ∀ v, var = some v → s.program.varType? v = some .u32)
    (hQ : s.Then Q) : Writes inLoop (plan.exportPrimitive var) s Q := by
  refine .bind (.input fun has s₁ h₁ hhas _ => ?_)
  refine .ifThen hhas ?_ fun s' h => hQ s' (h₁.trans h)
  cases var with
  | some var =>
    have hvar := h₁.within.varType?_eq (hvar var rfl)
    exact .bind (.loadVar hvar fun word s₂ h₂ hword _ =>
      writes_exportWord hrelay hword fun s' h => h₂.trans h)
  | none =>
    exact .bind (writes_primitiveWord fun word s₂ h₂ hword =>
      writes_exportWord hrelay hword fun s' h => h₂.trans h)

theorem writes_exportVertex (hrelay : plan.RelayFits) (hQ : s.Then Q) : Writes inLoop plan.exportVertex s Q := by
  have hexport (s₁ : Scope) (h₁ : s.Later [] s₁) : Writes inLoop (Emit.effect .exportVertex) s₁ Q :=
    Writes.effect rfl nofun fun s' h => hQ s' (h₁.trans h)
  have hstore (id : Value) (s₁ : Scope) (h₁ : s.Later [] s₁) (hid : s₁.Has id .u32) :
      Writes inLoop (Emit.effect (.storeOutput primitiveIdSlot id)) s₁ fun _ s₂ =>
        Writes inLoop (Emit.effect .exportVertex) s₂ Q :=
    Writes.storeOutput hid rfl fun s₂ h₂ => hexport s₂ (h₁.trans h₂)
  unfold exportVertex
  split
  · cases hr : plan.relay with
    | none => exact .bind (.input fun id s₁ h₁ hid _ => Writes.bind (hstore id s₁ h₁ hid))
    | some relay =>
      refine .bind (.input fun lane s₁ h₁ hlane hi => Writes.bind ?_)
      exact Region.writes_load (hrelay relay hr) rfl hlane hi nofun fun id s₂ h₂ hid =>
        Writes.bind (hstore id s₂ (h₁.trans h₂) hid)
  · exact hexport s (.refl s)

theorem writes_relayBarrier (hQ : s.Then Q) : Writes inLoop plan.relayBarrier s Q := by
  unfold relayBarrier
  split
  · exact .effect rfl nofun hQ
  · exact .pure (hQ s (.refl s))

section

variable {source : Program} (hvalid : source.validate = .ok ()) (hrelay : plan.RelayFits)
  (hs : (Scope.start source).Later [] s)
include hvalid hrelay hs

theorem writes_exportThenRun : Writes false (plan.exportThenRun source.body) s fun _ _ => True := by
  refine .bind (writes_exportPrimitive hrelay nofun fun s₁ h₁ => ?_)
  refine .bind (writes_relayBarrier fun s₂ h₂ => ?_)
  refine .bind (.input fun has s₃ h₃ hhas _ => ?_)
  refine .ifThen_of (Block.values source.body) hhas (.bind ?_) fun _ _ => trivial
  refine writes_body hvalid (hs.trans (h₁.trans (h₂.trans h₃))).nest fun s₄ h₄ => ?_
  exact writes_exportVertex hrelay fun s₅ h₅ => h₄.trans h₅

theorem writes_runThenExport : Writes false (plan.runThenExport source.body) s fun _ _ => True := by
  simp only [runThenExport, runAndSend, packAhead, bind_assoc]
  refine .bind (.createVar fun var s₁ h₁ hvar => ?_)
  refine .bind (.input fun has s₂ h₂ hhas _ => ?_)
  refine .bind (.ifThen hhas (.bind ?_) fun s₃ h₃ => ?_)
  · refine writes_primitiveWord fun word t₁ k₁ hword => ?_
    have hvar₁ := (h₂.nest.trans k₁).within.varType?_eq hvar
    exact .storeVar hvar₁ hword fun t₂ k₂ => k₁.trans k₂
  refine .bind (.input fun has s₄ h₄ hhas _ => ?_)
  have h₁₄ := h₁.trans (h₂.trans (h₃.trans h₄))
  refine .bind (.ifThen_of (Block.values source.body) hhas ?_ fun s₅ h₅ => ?_)
  · exact writes_body hvalid (hs.trans h₁₄).nest fun s' h => h
  have hvar₅ := ((h₂.trans (h₃.trans h₄)).append h₅).within.varType?_eq hvar
  refine .bind (writes_exportPrimitive hrelay (fun v hv => by cases hv; exact hvar₅) fun s₆ h₆ => ?_)
  refine .bind (writes_relayBarrier fun s₇ h₇ => ?_)
  refine .bind (.input fun has s₈ h₈ hhas _ => ?_)
  exact .ifThen hhas (writes_exportVertex hrelay fun s' h => h) fun _ _ => trivial

end

/-- The lowering of a valid program emits a well-formed body. -/
theorem writes_wholeProgram {source : Program} (hvalid : source.validate = .ok ())
    (hrelay : plan.RelayFits) (early : Bool) :
    Writes false (plan.wholeProgram early source.body) (Scope.start source) fun _ _ => True := by
  refine .bind (.input fun vertices s₁ h₁ hv _ => ?_)
  refine .bind (.input fun primitives s₂ h₂ hp _ => ?_)
  refine .bind (writes_requestSpace (hv.later h₂) hp fun s₃ h₃ => ?_)
  have hs := h₁.trans (h₂.trans h₃)
  cases early with
  | true => exact writes_exportThenRun hvalid hrelay hs
  | false => exact writes_runThenExport hvalid hrelay hs

end VertexPlan

end Lowering

/-- A program whose body is emitted from nothing is valid, whatever its share of the memory. -/
theorem Emit.Writes.validate {α : Type} {e : Emit α} {source : Program} {Q : α → Scope → Prop}
    (h : Writes false e (Scope.start source) Q) : ∃ a emitted, e { source with body := [] } = .ok (a, emitted) ∧
      ∀ size, { emitted with sharedSize := size : Program }.validate = .ok () := by
  obtain ⟨a, s', nodes, hrun, hext, -⟩ := h
  refine ⟨a, s'.program, hrun, fun size => Program.validate_eq_ok_iff.mpr ?_⟩
  obtain rfl : s'.program.body = nodes := hext.body
  exact ⟨hext.wellFormed.mono .same fun _ hv => hv, hext.nodup⟩

/-! ## The lowering -/

namespace Lowering

variable {config : Config} {program : Program} {layout : SharedLayout}

/-- The relay has room for the number of a vertex. -/
theorem relayFits_of_vertexLayout (hconfig : config.validate = .ok ()) (h : vertexLayout config program = .ok layout) :
    (VertexPlan.ofProgram config program layout).RelayFits := by
  intro relay hrelay
  obtain ⟨hsound, hsmall, hroom⟩ := vertexLayout_eq_ok h
  have hsize := (hroom relay hrelay).2
  have hbound := hsound.bounded 3 relay hrelay
  have hpos := (Config.validate_eq_ok_iff.mp hconfig).2.2.1
  exact ⟨by decide, by omega, by omega⟩

/-- What a vertex or tessellation program is rewritten to is valid. -/
theorem LowersVertex.validate {lowered : Program} (h : LowersVertex config program layout lowered) :
    lowered.validate = .ok () := by
  obtain ⟨early, emitted, hemits, rfl⟩ := h.emits
  obtain ⟨⟨⟩, emitted', hemits', hvalid⟩ :=
    (VertexPlan.writes_wholeProgram h.valid (relayFits_of_vertexLayout h.accepted h.regions) early).validate
  cases hemits.symm.trans hemits'
  exact hvalid layout.size

end Lowering

end PrimitiveShader
