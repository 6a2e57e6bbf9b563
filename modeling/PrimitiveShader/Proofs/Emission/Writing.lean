import PrimitiveShader.Proofs.Validity.WellFormed

/-!
# Emitted code is well-formed

`Emit.Writes` says of an action that it ends without a fault, that the nodes it appends are well-formed
where they stand, and that it places no value that has been placed before. A `Scope` is a place in a
program under construction, with what may be used there and what has been placed so far. Values that
may be used somewhere keep their types and may still be used later on (`Scope.Later`, `Scope.Has.later`).

There is one rule for each action that emits an instruction. They ask for the types of the operands
and give the type of the result.
-/

namespace PrimitiveShader

/-- The end of a program under construction. -/
structure Scope where
  program : Program
  /-- What may be used here. -/
  visible : Value → Prop
  /-- What has been placed so far, here or in another block. -/
  placed : Value → Prop
  defined : ∀ v, placed v → v.index < program.definitions.size

namespace Scope

/-- A value of some type that may be used. -/
structure Has (s : Scope) (value : Value) (type : ScalarType) : Prop where
  visible : s.visible value
  typeOf : s.program.typeOf value = .ok type

/-- Nothing has been lost, and of the older values only some have been placed. -/
structure Later (values : List Value) (s s' : Scope) : Prop where
  within : s.program.Within s'.program
  visible : ∀ v, s.visible v → s'.visible v
  placed : ∀ v, s'.placed v → s.placed v ∨ v ∈ values ∨ s.program.definitions.size ≤ v.index

/-- The postcondition holds wherever no older value has been placed since. -/
abbrev Then (s : Scope) (Q : Unit → Scope → Prop) : Prop := ∀ s', s.Later [] s' → Q () s'

/-- The same, for a new value of the type. -/
abbrev Gives (s : Scope) (type : ScalarType) (Q : Value → Scope → Prop) : Prop :=
  ∀ v s', s.Later [] s' → s'.Has v type → Q v s'

/-- Some nodes are appended. -/
structure Extends (inLoop : Bool) (nodes : Block) (s s' : Scope) : Prop where
  body : s'.program.body = s.program.body ++ nodes
  within : s.program.Within s'.program
  wellFormed : Block.WellFormed s'.program inLoop s.visible nodes
  nodup : (Block.values nodes).Nodup
  fresh : ∀ v ∈ Block.values nodes, ¬ s.placed v
  visible : s'.visible = Block.opens nodes s.visible
  placed : ∀ v, s'.placed v ↔ v ∈ Block.values nodes ∨ s.placed v

/-- A block has been emitted that is yet to be placed in a node. -/
structure Nests (inLoop : Bool) (block : Block) (s s' : Scope) : Prop where
  body : s'.program.body = s.program.body
  within : s.program.Within s'.program
  wellFormed : Block.WellFormed s'.program inLoop s.visible block
  nodup : (Block.values block).Nodup
  fresh : ∀ v ∈ Block.values block, ¬ s.placed v
  visible : s'.visible = s.visible
  placed : ∀ v, s'.placed v ↔ v ∈ Block.values block ∨ s.placed v

/-- The beginning of a block of its own. -/
def nest (s : Scope) : Scope := { s with program := { s.program with body := [] } }

variable {s s' s'' : Scope} {inLoop : Bool} {nodes nodes' : Block}

theorem Later.refl (s : Scope) : s.Later [] s :=
  ⟨.refl _, fun _ h => h, fun _ h => .inl h⟩

variable {values values' : List Value} {type : ScalarType} {value : Value}

theorem Later.append (h : s.Later values s') (h' : s'.Later values' s'') : s.Later (values ++ values') s'' where
  within := h.within.trans h'.within
  visible v hv := h'.visible v (h.visible v hv)
  placed v hv := by
    rcases h'.placed v hv with hv | hv | hv
    · rcases h.placed v hv with hv | hv | hv
      · exact .inl hv
      · exact .inr (.inl (List.mem_append_left _ hv))
      · exact .inr (.inr hv)
    · exact .inr (.inl (List.mem_append_right _ hv))
    · exact .inr (.inr (Nat.le_trans h.within.size_le hv))

/-- From then on only new values have been placed. -/
theorem Later.trans (h : s.Later values s') (h' : s'.Later [] s'') : s.Later values s'' := by
  simpa using h.append h'

theorem Later.mono (h : s.Later values s') (hsub : ∀ v ∈ values, v ∈ values') : s.Later values' s' where
  within := h.within
  visible := h.visible
  placed v hv := (h.placed v hv).imp_right (.imp_left (hsub v))

theorem Has.later (h : s.Has value type) (hl : s.Later values s') : s'.Has value type :=
  ⟨hl.visible _ h.visible, hl.within.typeOf_eq h.typeOf⟩

theorem Has.isSome (h : s.Has value type) : (s.program.definition? value).isSome := by
  have hlt := s.program.lt_of_typeOf h.typeOf
  simp [Program.definition?, hlt]

theorem Has.valueType? (h : s.Has value type) : s.program.valueType? value = some type :=
  Program.valueType?_eq_some_iff.mpr h.typeOf

theorem Later.nest (h : s.Later values s') : s.Later values s'.nest :=
  ⟨⟨h.within.definitions, h.within.vars⟩, h.visible, h.placed⟩

theorem Has.nest (h : s.Has value type) : s.nest.Has value type :=
  ⟨h.visible, h.typeOf⟩

namespace Extends

theorem refl (s : Scope) (inLoop : Bool) : s.Extends inLoop [] s where
  body := (List.append_nil _).symm
  within := .refl _
  wellFormed := trivial
  nodup := List.nodup_nil
  fresh := by simp [Block.values]
  visible := by
    funext v
    simp [Block.opens]
  placed := by simp [Block.values]

theorem trans (h : s.Extends inLoop nodes s') (h' : s'.Extends inLoop nodes' s'') :
    s.Extends inLoop (nodes ++ nodes') s'' where
  body := by rw [h'.body, h.body, List.append_assoc]
  within := h.within.trans h'.within
  wellFormed := Block.wellFormed_append.mpr ⟨h.wellFormed.mono h'.within fun _ hv => hv, h.visible ▸ h'.wellFormed⟩
  nodup := by
    rw [Block.values_append, List.nodup_append]
    refine ⟨h.nodup, h'.nodup, fun v hv w hw hvw => ?_⟩
    subst hvw
    exact h'.fresh v hw ((h.placed v).mpr (.inl hv))
  fresh v hv hp := by
    rw [Block.values_append, List.mem_append] at hv
    rcases hv with hv | hv
    · exact h.fresh v hv hp
    · exact h'.fresh v hv ((h.placed v).mpr (.inr hp))
  visible := by
    rw [h'.visible, h.visible]
    funext v
    simp [Block.opens, or_assoc, or_left_comm]
  placed v := by
    rw [h'.placed, h.placed, Block.values_append, List.mem_append]
    exact ⟨fun h => by grind, fun h => by grind⟩

/-- Only the older values among the nodes count as older values that have been placed. -/
theorem later (h : s.Extends inLoop nodes s')
    (hv : ∀ v ∈ Block.values nodes, v ∈ values ∨ s.program.definitions.size ≤ v.index) : s.Later values s' where
  within := h.within
  visible v hs := by
    rw [h.visible]
    exact .inr hs
  placed v hp := ((h.placed v).mp hp).symm.imp_right fun hmem => hv v hmem

end Extends

/-- A node is placed whose blocks have been emitted. -/
def close (s : Scope) (node : Node) : Scope :=
  { s with program := { s.program with body := s.program.body ++ [node] } }

theorem Later.close (h : s.Later values s') {node : Node} : s.Later values (s'.close node) :=
  ⟨⟨h.within.definitions, h.within.vars⟩, h.visible, h.placed⟩

namespace Nests

theorem refl (s : Scope) (inLoop : Bool) : s.Nests inLoop [] s where
  body := rfl
  within := .refl _
  wellFormed := trivial
  nodup := List.nodup_nil
  fresh := nofun
  visible := rfl
  placed := by simp [Block.values]

theorem branch {cond : Value} {a b : Block} (hc : s.Has cond .bool) (ha : s.Nests inLoop a s')
    (hb : s'.Nests inLoop b s'') : s.Extends inLoop [.branch cond a b] (s''.close (.branch cond a b)) := by
  have hvalues : Block.values [.branch cond a b] = Block.values a ++ Block.values b := by
    simp [Block.values, Node.values]
  have hclose : s''.program.Within (s''.close (.branch cond a b)).program := .same
  have hwithin := (ha.within.trans hb.within).trans hclose
  have hthen := ha.wellFormed.mono (hb.within.trans hclose) fun _ hv => hv
  have helse := hb.wellFormed.mono hclose fun v hv => ha.visible ▸ hv
  constructor
  case body =>
    change s''.program.body ++ _ = _
    rw [hb.body, ha.body]
  case within => exact hwithin
  case wellFormed => exact ⟨⟨⟨hc.visible, hwithin.valueType?_eq hc.valueType?⟩, hthen, helse⟩, trivial⟩
  case nodup =>
    rw [hvalues, List.nodup_append]
    refine ⟨ha.nodup, hb.nodup, fun v hv w hw hvw => ?_⟩
    subst hvw
    exact hb.fresh v hw ((ha.placed v).mpr (.inl hv))
  case fresh =>
    intro v hv hp
    rw [hvalues, List.mem_append] at hv
    rcases hv with hv | hv
    · exact ha.fresh v hv hp
    · exact hb.fresh v hv ((ha.placed v).mpr (.inr hp))
  case visible =>
    change s''.visible = _
    rw [hb.visible, ha.visible]
    funext v
    simp [Block.opens]
  case placed =>
    intro v
    change s''.placed v ↔ _
    rw [hb.placed, ha.placed, hvalues, List.mem_append]
    exact or_left_comm.trans or_assoc.symm

theorem loop {a : Block} (ha : s.Nests true a s') : s.Extends inLoop [.loop a] (s'.close (.loop a)) := by
  have hvalues : Block.values [.loop a] = Block.values a := by simp [Block.values, Node.values]
  have hclose : s'.program.Within (s'.close (.loop a)).program := .same
  constructor
  case body =>
    change s'.program.body ++ _ = _
    rw [ha.body]
  case within => exact ha.within.trans hclose
  case wellFormed => exact ⟨ha.wellFormed.mono hclose fun _ hv => hv, trivial⟩
  case nodup => exact hvalues ▸ ha.nodup
  case fresh => exact hvalues ▸ ha.fresh
  case visible =>
    change s'.visible = _
    rw [ha.visible]
    funext v
    simp [Block.opens]
  case placed => exact hvalues ▸ ha.placed

end Nests

end Scope

namespace Emit

variable {α β : Type} {inLoop : Bool} {s : Scope}

/-- The action ends without a fault, and what it appends is well-formed where it stands. -/
def Writes (inLoop : Bool) (e : Emit α) (s : Scope) (Q : α → Scope → Prop) : Prop :=
  ∃ a s' nodes, e s.program = .ok (a, s'.program) ∧ s.Extends inLoop nodes s' ∧ Q a s'

namespace Writes

variable {instr : Instr}

theorem mono {e : Emit α} {Q Q' : α → Scope → Prop} (h : Writes inLoop e s Q)
    (hQ : ∀ a s', Q a s' → Q' a s') : Writes inLoop e s Q' := by
  obtain ⟨a, s', nodes, hrun, hext, hq⟩ := h
  exact ⟨a, s', nodes, hrun, hext, hQ a s' hq⟩

variable {e : Emit Unit} {γ : Type} {xs : List γ} {type : ScalarType} {Q : Unit → Scope → Prop} {value cond : Value}
  {a : α}

theorem pure {Q : α → Scope → Prop} (h : Q a s) : Writes inLoop (Pure.pure a : Emit α) s Q :=
  ⟨a, s, [], rfl, .refl s inLoop, h⟩

theorem bind {e : Emit α} {k : α → Emit β} {Q : β → Scope → Prop}
    (h : Writes inLoop e s fun a s' => Writes inLoop (k a) s' Q) : Writes inLoop (e >>= k) s Q := by
  obtain ⟨a, s₁, nodes, hrun, hext, b, s₂, nodes', hrun', hext', hq⟩ := h
  exact ⟨b, s₂, nodes ++ nodes', bind_eq_ok_iff.mpr ⟨a, _, hrun, hrun'⟩, hext.trans hext', hq⟩

theorem lift {r : Except Fault α} {Q : α → Scope → Prop} (hr : r = .ok a) (h : Q a s) :
    Writes inLoop (liftM r : Emit α) s Q :=
  ⟨a, s, [], lift_eq_ok_iff.mpr ⟨hr, rfl⟩, .refl s inLoop, h⟩

theorem get {Q : Program → Scope → Prop} (h : Q s.program s) : Writes inLoop Emit.get s Q :=
  ⟨_, s, [], rfl, .refl s inLoop, h⟩

/-- A new instruction whose operands may be used and fit. -/
theorem push {Q : Value → Scope → Prop}
    (ht : s.program.resultType? instr = some type) (ho : ∀ o ∈ instr.operands, ∃ τ, s.Has o τ)
    (hQ : ∀ v s', s.Later [] s' → s'.Has v type → s'.program.instr v = .ok instr → Q v s') :
    Writes inLoop (Emit.push instr) s Q := by
  obtain ⟨v, p', hpush⟩ : ∃ v p', Emit.push instr s.program = .ok (v, p') := ⟨_, _, rfl⟩
  obtain ⟨rfl, hgains, hbody⟩ := push_eq_ok hpush
  have hdefinition : p'.definition? ⟨s.program.definitions.size⟩ = some ⟨instr, type⟩ := by
    cases hpush
    simp [Program.definition?, ht]
  have hsupports : p'.Supports s.visible ⟨s.program.definitions.size⟩ ⟨instr, type⟩ :=
    { definition := hdefinition
      operands := fun o hmem => by
        obtain ⟨_, h⟩ := ho o hmem
        exact ⟨h.visible, hgains.isSome_definition? h.isSome⟩
      type := hgains.resultType?_eq ht }
  let s' : Scope :=
    { program := p'
      visible := Block.opens [.instr ⟨s.program.definitions.size⟩] s.visible
      placed := fun v => v ∈ Block.values [.instr ⟨s.program.definitions.size⟩] ∨ s.placed v
      defined := by
        rintro v (hv | hv)
        · simp only [Block.values, Node.values, List.append_nil, List.mem_singleton] at hv
          exact hv ▸ p'.lt_of_definition? hdefinition
        · exact Nat.lt_of_lt_of_le (s.defined v hv) hgains.size_le }
  have hext : s.Extends inLoop [.instr ⟨s.program.definitions.size⟩] s' :=
    { body := hbody
      within := hgains.toWithin
      wellFormed := ⟨⟨_, hsupports⟩, trivial⟩
      nodup := by simp [Block.values, Node.values]
      fresh := by
        intro v hv hp
        simp only [Block.values, Node.values, List.append_nil, List.mem_singleton] at hv
        exact absurd (s.defined v hp) (by rw [hv]; exact Nat.lt_irrefl _)
      visible := rfl
      placed := fun v => Iff.rfl }
  have hlater : s.Later [] s' := hext.later fun v hv => by
    simp only [Block.values, Node.values, List.append_nil, List.mem_singleton] at hv
    exact .inr (hv ▸ Nat.le_refl _)
  have htype : p'.typeOf ⟨s.program.definitions.size⟩ = .ok type := by simpa [ht] using hgains.typeOf
  exact ⟨_, s', _, hpush, hext, hQ _ s' hlater ⟨.inl List.mem_cons_self, htype⟩ hgains.instr⟩

theorem run (ht : s.program.resultType? instr = some type) (ho : ∀ o ∈ instr.operands, ∃ τ, s.Has o τ)
    (hQ : s.Then Q) : Writes inLoop (Emit.run instr) s Q :=
  bind (push ht ho fun _ s' hl _ _ => pure (hQ s' hl))

theorem createVar {name : String} {Q : Var → Scope → Prop}
    (hQ : ∀ var s', s.Later [] s' → s'.program.varType? var = some type → Q var s') :
    Writes inLoop (Emit.createVar name type) s Q := by
  let p' := (s.program.createVar name type).2
  have hwithin : s.program.Within p' := ⟨List.prefix_rfl, by simp [p', Program.createVar]⟩
  let s' : Scope := { s with program := p' }
  have hext : s.Extends inLoop [] s' :=
    { Scope.Extends.refl s inLoop with
      within := hwithin
      body := (List.append_nil _).symm
      wellFormed := trivial }
  refine ⟨⟨s.program.vars.size⟩, s', [], rfl, hext, hQ _ s' (hext.later (by simp [Block.values])) ?_⟩
  simp [s', p', Program.createVar, Program.varType?, Program.var?]

theorem typeOf {Q : ScalarType → Scope → Prop}
    (h : s.Has value type) (hQ : Q type s) : Writes inLoop (Emit.typeOf value) s Q :=
  bind (get (lift h.typeOf hQ))

theorem constant? {Q : Option UInt64 → Scope → Prop}
    (h : s.program.instr value = .ok instr) (hQ : Q instr.constant? s) : Writes inLoop (Emit.constant? value) s Q :=
  bind (get (bind (lift h (pure hQ))))

/-! ## Control flow -/

theorem place {nodes : Block}
    (h : Block.WellFormed s.program inLoop s.visible nodes) (hnodup : (Block.values nodes).Nodup)
    (hfresh : ∀ v ∈ Block.values nodes, ¬ s.placed v)
    (hQ : ∀ s', s.Extends inLoop nodes s' → Q () s') : Writes inLoop (Emit.place nodes) s Q := by
  let p' : Program := { s.program with body := s.program.body ++ nodes }
  have hwithin : s.program.Within p' := .same
  let s' : Scope :=
    { program := p'
      visible := Block.opens nodes s.visible
      placed := fun v => v ∈ Block.values nodes ∨ s.placed v
      defined := fun v hv => hv.elim (h.lt_size v) (s.defined v) }
  have hext : s.Extends inLoop nodes s' :=
    { body := rfl
      within := hwithin
      wellFormed := h.mono hwithin fun _ hv => hv
      nodup := hnodup
      fresh := hfresh
      visible := rfl
      placed := fun v => Iff.rfl }
  exact ⟨(), s', nodes, rfl, hext, hQ s' hext⟩

/-- What a nested action appends, on its own. -/
theorem nested {values : List Value} (h : Writes inLoop e s.nest fun _ s' => s.nest.Later values s') :
    ∃ block s', Emit.nested e s.program = .ok (block, s'.program) ∧ s.Nests inLoop block s' ∧ s.Later values s' := by
  obtain ⟨⟨⟩, s₁, nodes, hrun, hext, hl⟩ := h
  let s' : Scope :=
    { program := { s₁.program with body := s.program.body }
      visible := s.visible
      placed := s₁.placed
      defined := s₁.defined }
  have hbody : s₁.program.body = nodes := hext.body
  have hwithin : s₁.program.Within s'.program := .same
  have hnests : s.Nests inLoop nodes s' :=
    { body := rfl
      within := ⟨hext.within.definitions, hext.within.vars⟩
      wellFormed := hext.wellFormed.mono hwithin fun _ hv => hv
      nodup := hext.nodup
      fresh := hext.fresh
      visible := rfl
      placed := hext.placed }
  have hlater : s.Later values s' := ⟨hnests.within, fun _ hv => hv, hl.placed⟩
  exact ⟨nodes, s', nested_eq_ok_iff.mpr ⟨_, hrun, hbody.symm, rfl⟩, hnests, hlater⟩

theorem ifThenElse {e' : Emit Unit} {values values' : List Value} (hc : s.Has cond .bool)
    (he : Writes inLoop e s.nest fun _ s' => s.nest.Later values s')
    (he' : ∀ s₁, s.Later values s₁ → Writes inLoop e' s₁.nest fun _ s' => s₁.nest.Later values' s')
    (hQ : ∀ s', s.Later (values ++ values') s' → Q () s') : Writes inLoop (Emit.ifThenElse cond e e') s Q := by
  obtain ⟨a, s₁, ha, hnests, hl⟩ := nested he
  obtain ⟨b, s₂, hb, hnests', hl'⟩ := nested (he' s₁ hl)
  refine ⟨(), s₂.close (.branch cond a b), [.branch cond a b], ?_, hnests.branch hc hnests', hQ _ (hl.append hl').close⟩
  rw [ifThenElse_eq]
  exact bind_eq_ok_iff.mpr ⟨a, _, ha, bind_eq_ok_iff.mpr ⟨b, _, hb, rfl⟩⟩

/-- A branch in which some older values are placed. -/
theorem ifThen_of (values : List Value)
    (hc : s.Has cond .bool) (he : Writes inLoop e s.nest fun _ s' => s.nest.Later values s')
    (hQ : ∀ s', s.Later values s' → Q () s') : Writes inLoop (Emit.ifThen cond e) s Q := by
  obtain ⟨a, s₁, ha, hnests, hl⟩ := nested he
  refine ⟨(), s₁.close (.branch cond a []), [.branch cond a []], ?_, hnests.branch hc (.refl s₁ inLoop), hQ _ hl.close⟩
  rw [ifThen_eq]
  exact bind_eq_ok_iff.mpr ⟨a, _, ha, rfl⟩

theorem ifThen (hc : s.Has cond .bool) (he : Writes inLoop e s.nest fun _ s' => s.nest.Later [] s')
    (hQ : s.Then Q) : Writes inLoop (Emit.ifThen cond e) s Q :=
  ifThen_of [] hc he hQ

theorem loop (values : List Value) (he : Writes true e s.nest fun _ s' => s.nest.Later values s')
    (hQ : ∀ s', s.Later values s' → Q () s') : Writes inLoop (Emit.loop e) s Q := by
  obtain ⟨a, s₁, ha, hnests, hl⟩ := nested he
  refine ⟨(), s₁.close (.loop a), [.loop a], ?_, hnests.loop, hQ _ hl.close⟩
  rw [loop_eq]
  exact bind_eq_ok_iff.mpr ⟨a, _, ha, rfl⟩

theorem leave (hin : inLoop = true) (hQ : s.Then Q) : Writes inLoop Emit.leave s Q :=
  place ⟨hin, trivial⟩ List.nodup_nil nofun fun s' h => hQ s' (h.later nofun)

/-! ## Lists -/

/-- One action for each member of a list. -/
theorem forM {f : γ → Emit Unit}
    (hf : ∀ x ∈ xs, ∀ s', s.Later [] s' → Writes inLoop (f x) s' fun _ s'' => s'.Later [] s'')
    (hQ : s.Then Q) : Writes inLoop (xs.forM f) s Q := by
  induction xs generalizing s with
  | nil => exact pure (hQ s (.refl s))
  | cons x rest ih =>
    refine bind ((hf x List.mem_cons_self s (.refl s)).mono fun _ s₁ h₁ => ih ?_ ?_)
    · exact fun y hy s' hs' => hf y (List.mem_cons_of_mem _ hy) s' (h₁.trans hs')
    · exact fun s' hs' => hQ s' (h₁.trans hs')

theorem mapM {f : γ → Emit Value} {Q : List Value → Scope → Prop} (hf : ∀ x ∈ xs, ∀ s', s.Later [] s' →
      Writes inLoop (f x) s' fun v s'' => s'.Later [] s'' ∧ s''.Has v type)
    (hQ : ∀ vs s', s.Later [] s' → vs.length = xs.length → (∀ v ∈ vs, s'.Has v type) → Q vs s') :
    Writes inLoop (xs.mapM f) s Q := by
  induction xs generalizing s Q with
  | nil => exact pure (hQ [] s (.refl s) rfl nofun)
  | cons x rest ih =>
    rw [List.mapM_cons]
    refine bind ((hf x List.mem_cons_self s (.refl s)).mono fun v s₁ ⟨h₁, hv⟩ => bind (ih ?_ ?_))
    · exact fun y hy s' hs' => hf y (List.mem_cons_of_mem _ hy) s' (h₁.trans hs')
    · intro vs s₂ h₂ hlen hvs
      refine pure (hQ (v :: vs) s₂ (h₁.trans h₂) (congrArg (· + 1) hlen) fun w hw => ?_)
      rcases List.mem_cons.mp hw with rfl | hw
      · exact hv.later h₂
      · exact hvs w hw

/-! ## Instructions -/

section

variable {op : BinaryOp} {Q : Value → Scope → Prop} {a b : Value} {tyA tyB : ScalarType}

theorem imm {value : UInt64} (hQ : ∀ v s', s.Later [] s' → s'.Has v type →
      s'.program.instr v = .ok (.const type (value &&& type.mask)) → Q v s') :
    Writes inLoop (Emit.imm type value) s Q :=
  push rfl nofun hQ

theorem undef (hQ : ∀ v s', s.Later [] s' → s'.Has v type → s'.program.instr v = .ok (.undef type) → Q v s') :
    Writes inLoop (Emit.undef type) s Q :=
  push rfl nofun hQ

theorem unary {op : UnaryOp} (ha : s.Has a tyA) (hop : op.resultType? tyA = some type)
    (hQ : ∀ v s', s.Later [] s' → s'.Has v type → s'.program.instr v = .ok (.unary op a) → Q v s') :
    Writes inLoop (Emit.unary op a) s Q := by
  refine push ?_ ?_ hQ
  · simpa [Program.resultType?, Instr.resultType?, ha.valueType?] using hop
  · simpa [Instr.operands] using ⟨tyA, ha⟩

theorem binary (ha : s.Has a tyA) (hb : s.Has b tyB) (hop : op.resultType? tyA tyB = some type)
    (hQ : ∀ v s', s.Later [] s' → s'.Has v type → s'.program.instr v = .ok (.binary op a b) → Q v s') :
    Writes inLoop (Emit.binary op a b) s Q := by
  refine push ?_ ?_ hQ
  · simpa [Program.resultType?, Instr.resultType?, ha.valueType?, hb.valueType?] using hop
  · simpa [Instr.operands] using ⟨⟨tyA, ha⟩, tyB, hb⟩

theorem binaryImm {value : UInt64} (ha : s.Has a tyA) (hop : op.resultType? tyA tyA = some type)
    (hQ : ∀ v s', s.Later [] s' → s'.Has v type → (∃ b, s'.program.instr v = .ok (.binary op a b)) → Q v s') :
    Writes inLoop (Emit.binaryImm op a value) s Q := by
  refine bind (typeOf ha (bind (imm fun b s₁ h₁ hb _ => ?_)))
  exact binary (ha.later h₁) hb hop fun v s₂ h₂ hv hi => hQ v s₂ (h₁.trans h₂) hv ⟨b, hi⟩

theorem shlImm {shift : Nat} (ha : s.Has a tyA) (hint : tyA.isInt)
    (hQ : s.Gives tyA Q) : Writes inLoop (Emit.shlImm a shift) s Q := by
  refine bind (imm fun b s₁ h₁ hb _ => ?_)
  have hop : BinaryOp.shl.resultType? tyA .u32 = some tyA := by
    simp only [BinaryOp.resultType?, typeWhen, hint]
    rfl
  exact binary (ha.later h₁) hb hop fun v s₂ h₂ hv _ => hQ v s₂ (h₁.trans h₂) hv

theorem select (hc : s.Has cond .bool) (ha : s.Has a tyA) (hb : s.Has b tyA) (hne : tyA ≠ .void)
    (hQ : ∀ v s', s.Later [] s' → s'.Has v tyA → s'.program.instr v = .ok (.select cond a b) → Q v s') :
    Writes inLoop (Emit.select cond a b) s Q := by
  refine push ?_ ?_ hQ
  · simp [Program.resultType?, Instr.resultType?, hc.valueType?, ha.valueType?, hb.valueType?, typeWhen, hne]
  · simpa [Instr.operands] using ⟨⟨_, hc⟩, ⟨tyA, ha⟩, tyA, hb⟩

/-- A change of type; a value of that type is taken as it is. -/
theorem convert (ha : s.Has a tyA) (hA : tyA ≠ .void) (hne : type ≠ .void) (hQ : ∀ v s', s.Later [] s' → s'.Has v type →
      (tyA ≠ type → s'.program.instr v = .ok (.convert a type)) → Q v s') :
    Writes inLoop (Emit.convert a type) s Q := by
  refine bind (typeOf ha ?_)
  by_cases h : tyA = type
  · rw [if_pos h]
    exact pure (hQ a s (.refl s) (h ▸ ha) fun hn => absurd h hn)
  · rw [if_neg h]
    refine push ?_ ?_ fun v s' hl hv hi => hQ v s' hl hv fun _ => hi
    · simp [Program.resultType?, Instr.resultType?, ha.valueType?, typeWhen, hA, hne]
    · simpa [Instr.operands] using ⟨tyA, ha⟩

theorem extract {offset bits : UInt8} (ha : s.Has a tyA) (hint : tyA.isInt)
    (hbits : offset.toNat + bits.toNat ≤ tyA.bits)
    (hQ : ∀ v s', s.Later [] s' → s'.Has v tyA → s'.program.instr v = .ok (.extract a offset bits) → Q v s') :
    Writes inLoop (Emit.extract a offset bits) s Q := by
  refine push ?_ ?_ hQ
  · simp [Program.resultType?, Instr.resultType?, ha.valueType?, typeWhen, hint, hbits]
  · simpa [Instr.operands] using ⟨tyA, ha⟩

theorem loadVar {var : Var} (ht : s.program.varType? var = some type)
    (hQ : ∀ v s', s.Later [] s' → s'.Has v type → s'.program.instr v = .ok (.loadVar var) → Q v s') :
    Writes inLoop (Emit.loadVar var) s Q :=
  push ht nofun hQ

theorem input {input : LaneInput} (hQ : ∀ v s', s.Later [] s' → s'.Has v input.type →
      s'.program.instr v = .ok (.intrinsic (.input input)) → Q v s') : Writes inLoop (Emit.input input) s Q :=
  push rfl nofun hQ

theorem crossLane {op : CrossLaneOp}
    (ht : op.resultType? s.program.valueType? = some type) (ho : ∀ o ∈ op.operands, ∃ τ, s.Has o τ)
    (hQ : ∀ v s', s.Later [] s' → s'.Has v type → s'.program.instr v = .ok (.intrinsic (.crossLane op)) → Q v s') :
    Writes inLoop (Emit.crossLane op) s Q :=
  push ht ho hQ

theorem loadShared {base : UInt32} (ha : s.Has a .u32) (hint : type.isInt) (hQ : ∀ v s', s.Later [] s' → s'.Has v type →
      s'.program.instr v = .ok (.intrinsic (.loadShared a base type)) → Q v s') :
    Writes inLoop (Emit.intrinsic (.loadShared a base type)) s Q := by
  refine push ?_ ?_ hQ
  · simp [Program.resultType?, Instr.resultType?, Intrinsic.resultType?, ha.valueType?, typeWhen, hint]
  · simpa [Instr.operands, Intrinsic.operands] using ⟨_, ha⟩

end

section

variable {a b : Value}

theorem storeVar {var : Var} (ht : s.program.varType? var = some type) (ha : s.Has a type)
    (hQ : s.Then Q) : Writes inLoop (Emit.storeVar var a) s Q := by
  refine @run inLoop s (.storeVar var a) .void Q ?_ ?_ hQ
  · simp [Program.resultType?, Instr.resultType?, ht, ha.valueType?, typeWhen]
  · simpa [Instr.operands] using ⟨type, ha⟩

/-- An intrinsic without a result, with operands that fit. -/
theorem effect {op : Intrinsic} (ht : op.resultType? s.program.valueType? = some .void)
    (ho : ∀ o ∈ op.operands, ∃ τ, s.Has o τ) (hQ : s.Then Q) : Writes inLoop (Emit.effect op) s Q :=
  run ht ho hQ

theorem storeShared {base : UInt32} (hb : s.Has b type) (hint : type.isInt) (ha : s.Has a .u32)
    (hQ : s.Then Q) : Writes inLoop (Emit.effect (.storeShared b a base)) s Q := by
  refine effect ?_ ?_ hQ
  · simp [Intrinsic.resultType?, ha.valueType?, hb.valueType?, typeWhen, hint]
  · simpa [Intrinsic.operands] using ⟨⟨type, hb⟩, _, ha⟩

theorem storeOutput {slot : OutputSlot} (ha : s.Has a type) (hint : type.isInt) (hQ : s.Then Q) :
    Writes inLoop (Emit.effect (.storeOutput slot a)) s Q := by
  refine effect ?_ ?_ hQ
  · simp [Intrinsic.resultType?, ha.valueType?, typeWhen, hint]
  · simpa [Intrinsic.operands] using ⟨type, ha⟩

end

end Writes

end Emit

end PrimitiveShader
