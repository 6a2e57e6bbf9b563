import PrimitiveShader.Proofs.Emission.Team
import PrimitiveShader.Proofs.Thread.Script
import PrimitiveShader.Subgroup

/-!
# Emitted code that follows a script

`Emit.Clears` says which of the values that an action emits are settled, so that its branches may ask for
them. From there `Emit.Scripts` puts together code that all waves run from barrier to barrier on a way that
is fixed beforehand. Its rules are those of `Emit.Plays`.
-/

namespace PrimitiveShader

/-! ## Settled values -/

mutual

/-- More values are known, none of them computed by the node. -/
theorem Node.Clear.mono {p p' : Program} (hp : p.Within p') {known known' : Value → Prop}
    (hk : ∀ v, known v → known' v) : ∀ (node : Node), (∀ v ∈ node.values, known' v → known v) →
    node.Clear p known → node.Clear p' known'
  | .instr value, hold, ⟨instr, hinstr, hquery, hsettled⟩ =>
    ⟨instr, hp.instr_eq hinstr, hquery, fun hv => (hsettled (hold value (by simp [Node.values]) hv)).mono hk⟩
  | .branch cond thenBlock elseBlock, hold, ⟨hcond, hthen, helse⟩ =>
    ⟨hk cond hcond, Block.Clear.mono hp hk thenBlock (fun v hv => hold v (by simp [Node.values, hv])) hthen,
      Block.Clear.mono hp hk elseBlock (fun v hv => hold v (by simp [Node.values, hv])) helse⟩

theorem Block.Clear.mono {p p' : Program} (hp : p.Within p') {known known' : Value → Prop}
    (hk : ∀ v, known v → known' v) : ∀ (block : List Node),
    (∀ v ∈ Block.values block, known' v → known v) → Block.Clear p known block → Block.Clear p' known' block
  | [], _, _ => trivial
  | node :: rest, hold, ⟨hnode, hrest⟩ =>
    ⟨Node.Clear.mono hp hk node (fun v hv => hold v (by simp [Block.values, hv])) hnode,
      Block.Clear.mono hp hk rest (fun v hv => hold v (by simp [Block.values, hv])) hrest⟩

end

namespace Emit

variable {α β : Type} {p : Program} {known : Value → Prop}

/-- What is known once an action has emitted code from `p` to `p'` with a clear way. -/
structure Cleared (known : Value → Prop) (p p' : Program) (known' : Value → Prop) : Prop where
  older : ∀ v, known v → known' v
  newer : ∀ v, known' v → v.index < p.definitions.size → known v
  below : ∀ v, known' v → v.index < p'.definitions.size
  values : ∀ v ∈ Block.values (p'.body.drop p.body.length), v.index < p'.definitions.size
  clear : Block.Clear p' known' (p'.body.drop p.body.length)

/-- The action emits code with a clear way, if the values in `known` are known where it begins. -/
def Clears (known : Value → Prop) (e : Emit α) (Q : α → (Value → Prop) → Prop) : Prop :=
  ∀ p, (∀ v, known v → v.index < p.definitions.size) → ∀ a p', e p = .ok (a, p') →
    ∃ known', Cleared known p p' known' ∧ Q a known'

namespace Clears

/-- Without branches nothing has to be known. -/
theorem straight {e : Emit α} [he : Straight Instr.Uncounted e] {Q : α → (Value → Prop) → Prop} (h : ∀ a, Q a known) :
    Clears known e Q := by
  intro p hbelow a p' hp
  have hclear : ∀ block : Block, (∀ node ∈ block, ∃ value, node = .instr value) →
      (∀ v ∈ Block.values block, p.definitions.size ≤ v.index ∧ ∃ instr, p'.instr v = .ok instr ∧ instr.Uncounted) →
      Block.Clear p' known block := by
    intro block
    induction block with
    | nil => exact fun _ _ => trivial
    | cons node rest ih =>
      intro hnodes hvalues
      obtain ⟨value, rfl⟩ := hnodes node List.mem_cons_self
      obtain ⟨hnew, instr, hinstr, -, hquery⟩ := hvalues value (List.mem_append_left _ List.mem_cons_self)
      exact ⟨⟨instr, hinstr, hquery, fun hknown => absurd (hbelow value hknown) (Nat.not_lt.mpr hnew)⟩,
        ih (fun n hn => hnodes n (List.mem_cons_of_mem _ hn)) fun v hv => hvalues v (List.mem_append_right _ hv)⟩
  refine ⟨known, ⟨fun _ h => h, fun _ h _ => h,
    fun v hv => Nat.lt_of_lt_of_le (hbelow v hv) (e.grows hp).size_le, fun v hv => ?_,
    hclear _ (he.nodes hp) (he.novel.placed hp)⟩, h a⟩
  obtain ⟨-, instr, hinstr, -⟩ := he.novel.placed hp v hv
  exact Program.lt_of_instr hinstr

theorem pure {a : α} {Q : α → (Value → Prop) → Prop} (h : Q a known) : Clears known (Pure.pure a : Emit α) Q := by
  intro p hbelow b p' hp
  obtain ⟨known', hcleared, hq⟩ := straight (e := (Pure.pure a : Emit α))
    (Q := fun b known' => b = a → known' = known) (fun _ _ => rfl) p hbelow b p' hp
  obtain ⟨rfl, -⟩ := pure_eq_ok_iff.mp hp
  exact ⟨known', hcleared, hq rfl ▸ h⟩

theorem bind {e : Emit α} {k : α → Emit β} {Q : β → (Value → Prop) → Prop}
    (h : Clears known e fun a known' => Clears known' (k a) Q) : Clears known (e >>= k) Q := by
  intro p hbelow b p'' hp
  obtain ⟨a, p', ha, hb⟩ := bind_eq_ok_iff.mp hp
  obtain ⟨known', h₁, hk⟩ := h p hbelow a p' ha
  obtain ⟨known'', h₂, hq⟩ := hk p' h₁.below b p'' hb
  have hgrows := e.grows ha
  have hgrows' := (k a).grows hb
  refine ⟨known'', ⟨fun v hv => h₂.older v (h₁.older v hv), fun v hv hlt => ?_, h₂.below, fun v hv => ?_, ?_⟩, hq⟩
  · exact h₁.newer v (h₂.newer v hv (Nat.lt_of_lt_of_le hlt hgrows.size_le)) hlt
  · rw [drop_body_eq hgrows hgrows', Block.values_append, List.mem_append] at hv
    exact hv.elim (fun hv => Nat.lt_of_lt_of_le (h₁.values v hv) hgrows'.size_le) (h₂.values v)
  · rw [drop_body_eq hgrows hgrows', Block.clear_append]
    exact ⟨.mono hgrows'.toWithin h₂.older _ (fun v hv hv' => h₂.newer v hv' (h₁.values v hv)) h₁.clear, h₂.clear⟩

/-- A new instruction whose result is settled. -/
theorem push {instr : Instr} (hquery : instr.isQuery = false) (h : instr.Settled known)
    {Q : Value → (Value → Prop) → Prop} (hQ : ∀ v known', (∀ u, known u → known' u) → known' v → Q v known') :
    Clears known (Emit.push instr) Q := by
  intro p hbelow v p' hp
  obtain ⟨rfl, hgains, hbody⟩ := push_eq_ok hp
  have hlt := Program.lt_of_instr hgains.instr
  refine ⟨fun u => known u ∨ u = ⟨p.definitions.size⟩, ⟨fun _ hu => .inl hu, ?_, ?_, ?_, ?_⟩,
    hQ _ _ (fun _ hu => .inl hu) (.inr rfl)⟩
  · rintro u (hu | rfl) hsize
    · exact hu
    · exact absurd hsize (Nat.lt_irrefl _)
  · rintro u (hu | rfl)
    · exact Nat.lt_of_lt_of_le (hbelow u hu) hgains.size_le
    · exact hlt
  · rw [hbody, List.drop_left]
    simpa [Block.values, Node.values] using hlt
  · rw [hbody, List.drop_left]
    exact ⟨⟨instr, hgains.instr, hquery, fun _ => h.mono fun _ hu => .inl hu⟩, trivial⟩

section

variable {op : BinaryOp} {value : UInt64} {Q : Value → (Value → Prop) → Prop} {a b : Value}

theorem binary (ha : known a) (hb : known b)
    (hQ : ∀ v known', (∀ u, known u → known' u) → known' v → Q v known') : Clears known (Emit.binary op a b) Q :=
  @push known (.binary op a b) rfl ⟨ha, hb⟩ Q hQ

theorem imm {type : ScalarType} (hQ : ∀ v known', (∀ u, known u → known' u) → known' v → Q v known') :
    Clears known (Emit.imm type value) Q :=
  @push known (.const type (value &&& type.mask)) rfl trivial Q hQ

theorem binaryImm (ha : known a) (hQ : ∀ v known', (∀ u, known u → known' u) → known' v → Q v known') :
    Clears known (Emit.binaryImm op a value) Q := by
  refine bind (straight fun type => bind (imm fun b known₁ h₁ hb => ?_))
  exact binary (h₁ a ha) hb fun v known₂ h₂ hv => hQ v known₂ (fun u hu => h₂ u (h₁ u hu)) hv

variable (hQ : ∀ v known', (∀ u, known u → known' u) → known' v → Q v known')
include hQ

theorem input {input : LaneInput} : Clears known (Emit.input input) Q :=
  @push known (.intrinsic (.input input)) rfl trivial Q hQ

theorem elect {wave : WaveWidth} : Clears known wave.elect Q :=
  @push known (.intrinsic (.crossLane .elect)) rfl trivial Q hQ

end

/-- A branch on a condition that is known. -/
theorem ifThen {cond : Value} (hcond : known cond) {e : Emit Unit} {Q : Unit → (Value → Prop) → Prop}
    (he : Clears known e fun _ _ => True) (hQ : ∀ known', (∀ u, known u → known' u) → Q () known') :
    Clears known (Emit.ifThen cond e) Q := by
  intro p hbelow u p' hp
  obtain ⟨inner, hinner, rfl⟩ := ifThen_eq_ok hp
  obtain ⟨known', h, -⟩ := he { p with body := [] } hbelow () inner hinner
  have hvalues := h.values
  have hclear := h.clear
  rw [List.length_nil, List.drop_zero] at hvalues hclear
  refine ⟨known', ⟨h.older, h.newer, h.below, ?_, ?_⟩, hQ known' h.older⟩
  · rw [List.drop_left]
    simpa [Block.values, Node.values] using hvalues
  · rw [List.drop_left]
    exact ⟨⟨h.older cond hcond, .mono .same (fun _ hv => hv) _ (fun _ _ hv => hv) hclear, trivial⟩, trivial⟩

end Clears

/-! ## From barrier to barrier -/

/-- The waves run emitted code from barrier to barrier on a way that is fixed beforehand, and in the end
the threads have reached the goal. -/
def Scripts {α : Type} (group : Workgroup) (goal : (Nat → Thread) → Prop)
    (own : Ownership) (pre : Promise) (e : Emit α) (p : Program) : Prop :=
  ∀ a p', e p = .ok (a, p') → p'.Within group.program →
    group.Script goal p.definitions.size own pre (p'.body.drop p.body.length)

/-- What the lanes know of some values is fixed by their numbers. -/
def Fixes (group : Workgroup) (pre : Promise) (p : Program) (known : Value → Prop) : Prop :=
  ∀ v, known v → ∃ (type : ScalarType) (contents : Nat → UInt64),
    ∀ i < group.launch.numLanes, ∀ t, pre i t → Knows p t v type (contents i)

theorem Fixes.none (group : Workgroup) (pre : Promise) (p : Program) :
    Fixes group pre p fun _ => False := fun _ h => h.elim

namespace Scripts

variable {group : Workgroup} {goal : (Nat → Thread) → Prop} {own : Ownership} {pre : Promise}
  {source : Program} {e : Emit α} {k : α → Emit β}

theorem pure {a : α} (h : ∀ T : Nat → Thread, (∀ i < group.launch.numLanes, pre i (T i)) → goal T) :
    Scripts group goal own pre (Pure.pure a : Emit α) p := by
  intro b p' hp _
  obtain ⟨rfl, rfl⟩ := pure_eq_ok_iff.mp hp
  rw [List.drop_length]
  exact .last .nil h

theorem bind (hsource : source.Within p) [he : Steady source false e]
    (hfixes : Fixes group pre p known) (hclear : Clears known e fun _ _ => True) {M : α → Program → Promise}
    (h : ∀ id < group.numWaves, ∀ T, Setting.Keeps ⟨group, own, False⟩ id pre T → Brings ⟨group, own, False⟩ id e p
        (fun a p' => Setting.Keeps ⟨group, own, False⟩ id (M a p')) T)
    (hrest : ∀ a p', e p = .ok (a, p') → source.Within p' → Scripts group goal own (M a p') (k a) p') :
    Scripts group goal own pre (e >>= k) p := by
  intro b p'' hp hw
  obtain ⟨a, p', ha, hb⟩ := bind_eq_ok_iff.mp hp
  have hgrows := e.grows ha
  have hgrows' := (k a).grows hb
  have hw' := hgrows'.toWithin.trans hw
  have hvalues : ∀ v ∈ Block.values (p'.body.drop p.body.length), v.index < p'.definitions.size := by
    intro v hv
    obtain ⟨instr, hinstr, -⟩ := he.steady hsource ha v hv
    exact Program.lt_of_instr hinstr
  have hbrings := fun id hid T hT => h id hid T hT a p' ha hw'
  have hscript := hrest a p' ha (hsource.trans hgrows.toWithin) b p'' hb hw
  rw [drop_body_eq hgrows hgrows']
  by_cases hsome : ∃ i < group.launch.numLanes, ∃ t, pre i t
  · obtain ⟨i, hi, t, ht⟩ := hsome
    have hbelow : ∀ v, known v → v.index < p.definitions.size := by
      intro v hv
      obtain ⟨type, contents, hknows⟩ := hfixes v hv
      exact Program.lt_of_typeOf (hknows i hi t ht).typeOf
    obtain ⟨known', h', -⟩ := hclear p hbelow a p' ha
    refine .prepend known' hbrings (Plays.noBarrier hsource ha hw')
      (fun _ => .mono hw' (fun _ hv => hv) _ (fun _ _ hv => hv) h'.clear)
      (fun v hv hlt j hj u u' hu hu' => ?_) hgrows.size_le hvalues hscript
    obtain ⟨type, contents, hknows⟩ := hfixes v (h'.newer v hv hlt)
    rw [(hknows j hj u hu).read, (hknows j hj u' hu').read]
  · exact .prepend (fun _ => False) hbrings (Plays.noBarrier hsource ha hw') (fun h => absurd h hsome)
      (fun _ h => h.elim) hgrows.size_le hvalues hscript

/-- Code that each thread runs on its own. -/
theorem each (hsource : source.Within p) [Steady source false e] (hg : group.Fits)
    (hfixes : Fixes group pre p known) (hclear : Clears known e fun _ _ => True) {M : α → Program → Promise}
    (h : ∀ i < group.launch.numLanes, ∀ t, pre i t →
      Emit.wp ⟨group, own, False⟩ (group.laneId i) e p (fun a p' => M a p' i) (fun _ => False) t)
    (hrest : ∀ a p', e p = .ok (a, p') → source.Within p' → Scripts group goal own (M a p') (k a) p') :
    Scripts group goal own pre (e >>= k) p := by
  refine bind hsource hfixes hclear (fun id hid T hT => ?_) hrest
  exact .each hg hid (B := fun l a p' => M a p' (Setting.index ⟨group, own, False⟩ id l))
    (fun l hl => h _ (Setting.mem_launched.mp hl).2 _ (hT l hl)) fun a p' T' hT' => hT'

theorem finish (hsource : source.Within p) [Steady source false e] (hg : group.Fits)
    (hfixes : Fixes group pre p known) (hclear : Clears known e fun _ _ => True) {post : Promise}
    (h : ∀ i < group.launch.numLanes, ∀ t, pre i t →
      Emit.wp ⟨group, own, False⟩ (group.laneId i) e p (fun _ _ => post i) (fun _ => False) t)
    (hgoal : ∀ T : Nat → Thread, (∀ i < group.launch.numLanes, post i (T i)) → goal T) :
    Scripts group goal own pre e p := by
  rw [← bind_pure e]
  exact each (k := Pure.pure) hsource hg hfixes hclear h fun a p' _ _ => pure hgoal

/-- A barrier, where the bytes get new owners. -/
theorem barrier {k : Emit β} (own' : Ownership) (next : Program → Promise)
    (hnext : ∀ (T : Nat → Thread) (view : Nat → UInt8) (p' : Program), p.Within p' →
      (∀ i < group.launch.numLanes, pre i (T i)) →
      (∀ i < group.launch.numLanes, ∀ a, own a = none ∨ own a = some i → (T i).view a = view a) →
      ∀ i < group.launch.numLanes, next p' i ((T i).see view))
    (hrest : ∀ p', p.Within p' → Scripts group goal own' (next p') k p') :
    Scripts group goal own pre (effect .barrier >>= fun _ => k) p := by
  intro b p'' hp hw
  obtain ⟨bar, p', hgrows, hgrows', hb, hinstr, hbody⟩ := barrier_bind_eq_ok hp
  have hscript := hrest p' hgrows.toWithin b p'' hb hw
  rw [hbody]
  change group.Script goal _ own pre ([] ++ .instr _ :: _)
  exact .barrier own' (next p') .nil ((hgrows'.toWithin.trans hw).instr_eq hinstr)
    hgrows.size_le (fun T view hT hview => hnext T view p' hgrows.toWithin hT hview) hscript

theorem plays (h : Scripts group goal own pre e p) (faults : Prop) : Plays group faults goal own pre e p :=
  fun a p' hp hw => (h a p' hp hw).plays faults

end Scripts

end Emit

end PrimitiveShader
