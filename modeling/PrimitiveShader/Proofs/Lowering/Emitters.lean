import PrimitiveShader.Proofs.Lowering.Geometry.Export
import PrimitiveShader.Proofs.Lowering.Geometry.Writing
import PrimitiveShader.Proofs.Scalar.Lanewise

/-!
# Emitted arithmetic

Some of the code that a lowering emits has a counterpart that works on numbers: export words are packed
by `ExportWord.pack`, the vertices of a primitive are named by `Strip.vertexIndices`, and the flags of a
vertex are those of `PrimitiveFlags.ofVertex`. All of this code computes values and does nothing else
(`Instr.Computes`), so a wave walks through it one instruction after the other, and each lane that is on
comes out with its own result (`Wave.run_of_wp`).

`Emit.Computes` says this of an action. Besides its operands nothing is known of the wave: it can be any
wave of any workgroup, with any of its lanes on and inside any branches and loops.
-/

namespace PrimitiveShader

/-- An instruction that computes a value from what its own lane has. -/
def Instr.Computes (instr : Instr) : Prop := instr.isComputed = true

instance : Instr.Computing Instr.Computes := ⟨fun h => h⟩

/-! ## A wave in front of such code -/

/-- A lane as a thread that has neither seen memory nor exported anything. -/
def Lane.thread (lane : Lane) : Thread := ⟨lane, fun _ => 0, [], [], none⟩

namespace Wave

variable {group : Workgroup}

/-- Every lane that is on computes its value. -/
theorem step_computes {w : Wave} {value : Value} {instr : Instr} (hi : group.program.instr value = .ok instr)
    (hc : instr.Computes) {R : Nat → Lane → Prop} (h : ∀ l ∈ w.exec.lanes, ∃ lane lane', w.lanes[l]? = some lane ∧
      lane.execute group (laneId group w.id l) value instr = .ok lane' ∧ R l lane') :
    ∃ lanes, (∀ l ∉ w.exec.lanes, lanes[l]? = w.lanes[l]?) ∧
      (∀ l ∈ w.exec.lanes, ∃ lane, lanes[l]? = some lane ∧ R l lane) ∧
      w.step group (.instr value) = pure ({ w with pc := w.pc + 1, lanes }, false) := by
  have hlocal := Instr.isLaneLocal_of_isComputed hc
  obtain ⟨lanes, hoff, hon, hexecute⟩ := execute_eq_pure (w := { w with pc := w.pc + 1 }) hlocal h
  refine ⟨lanes, hoff, hon, funext fun s => ?_⟩
  simp only [step, stepInstr]
  by_cases he : w.exec.isEmpty
  · -- Nobody is on, so nobody has been served.
    have hsame : lanes = w.lanes := Array.ext_getElem? fun l => hoff l (by simp [LaneMask.lanes_eq_nil_iff.mpr he])
    rw [if_pos he, hsame]
  · rw [if_neg he, hi]
    simp only [Exec.liftM_ok, pure_bind]
    split
    · cases hlocal
    · rw [hexecute]
      rfl

/-- A wave walks through a block of arithmetic. -/
theorem run_of_wp : ∀ (block : Block) {w : Wave} {Q : Nat → Lane → Prop},
    (∀ node ∈ block, ∃ v instr, node = .instr v ∧ group.program.instr v = .ok instr ∧ instr.Computes) →
    CodeAt group.executable.code w.pc (Block.code w.pc block) →
    (∀ l ∈ w.exec.lanes, ∃ lane, w.lanes[l]? = some lane ∧ Block.wp ⟨group, fun _ => none, False⟩
      (laneId group w.id l) block (fun t => Q l t.lane) (fun _ => False) lane.thread) →
    ∃ lanes, (∀ l ∉ w.exec.lanes, lanes[l]? = w.lanes[l]?) ∧
      (∀ l ∈ w.exec.lanes, ∃ lane, lanes[l]? = some lane ∧ Q l lane) ∧ ∀ budget, w.turn group (budget + block.length) =
        turn group budget { w with pc := w.pc + block.length, lanes }
  | [], w, Q, _, _, hwp => by
    refine ⟨w.lanes, fun _ _ => rfl, fun l hl => ?_, fun _ => rfl⟩
    simp only [Block.wp_nil] at hwp
    exact hwp l hl
  | node :: rest, w, Q, hblock, hcode, hwp => by
    obtain ⟨v, instr, rfl, hi, hc⟩ := hblock node List.mem_cons_self
    have hop : CodeAt group.executable.code w.pc (.instr v :: Block.code (w.pc + 1) rest) := hcode
    obtain ⟨lanes₁, hoff₁, hon₁, hstep⟩ := step_computes hi hc (w := w)
      (R := fun l lane => Block.wp ⟨group, fun _ => none, False⟩ (laneId group w.id l) rest
        (fun t => Q l t.lane) (fun _ => False) lane.thread) fun l hl => by
      obtain ⟨lane, hlane, hwp⟩ := hwp l hl
      rw [Block.wp_cons, Node.wp] at hwp
      change Yields False _ (group.program.instr v) at hwp
      rw [hi] at hwp
      change instr.wp _ _ _ _ _ at hwp
      rw [Instr.wp_of_isLaneLocal (Instr.isLaneLocal_of_isComputed hc)] at hwp
      change Yields False _ (lane.execute group (laneId group w.id l) v instr) at hwp
      cases hexecute : lane.execute group (laneId group w.id l) v instr with
      | error fault =>
        rw [hexecute] at hwp
        exact hwp.elim
      | ok lane' =>
        rw [hexecute] at hwp
        exact ⟨lane, lane', hlane, hexecute, hwp⟩
    obtain ⟨lanes, hoff, hon, hturn⟩ := run_of_wp rest (w := { w with pc := w.pc + 1, lanes := lanes₁ })
      (fun node hnode => hblock node (List.mem_cons_of_mem _ hnode)) hop.tail hon₁
    refine ⟨lanes, fun l hl => (hoff l hl).trans (hoff₁ l hl), hon, fun budget => ?_⟩
    rw [List.length_cons, ← Nat.add_assoc, turn_succ hop.head, hstep, pure_bind]
    refine (hturn budget).trans ?_
    rw [Nat.add_assoc, Nat.add_comm 1]

end Wave

/-- Behind `p` the action can be emitted, and its code computes. Every wave that comes to it, with operands as
`Holds` says on the lanes that are on, takes one step for each instruction. Then these lanes have the results
of `Gives`, all other lanes are as they were, and nothing else has changed. -/
def Emit.Computes {α δ : Type} (e : Emit α) (p : Program) (Holds : Lane → δ → Prop)
    (Gives : α → Lane → δ → Prop) : Prop :=
  ∃ a p', e p = .ok (a, p') ∧ ∀ (group : Workgroup) (w : Wave) (x : Nat → δ), p'.Within group.program →
    CodeAt group.executable.code w.pc (Block.code w.pc (p'.body.drop p.body.length)) →
    (∀ l ∈ w.exec.lanes, ∃ lane, w.lanes[l]? = some lane ∧ lane.Sized group.program ∧ Holds lane (x l)) →
    ∃ lanes, (∀ l ∉ w.exec.lanes, lanes[l]? = w.lanes[l]?) ∧
      (∀ l ∈ w.exec.lanes, ∃ lane, lanes[l]? = some lane ∧ Gives a lane (x l)) ∧
      ∀ budget s, w.run group (budget + (p'.body.length - p.body.length)) s =
        Wave.run group budget { w with pc := w.pc + (p'.body.length - p.body.length), lanes } s

variable {α : Type} {e : Emit α} {p : Program}

/-- What each lane computes on its own is computed by the wave. -/
theorem Emit.computes_of_wp {δ : Type} [hs : Straight Instr.Computes e] {Holds : Lane → δ → Prop}
    {Gives : α → Lane → δ → Prop} (hok : ∃ a p', e p = .ok (a, p'))
    (hwp : ∀ (c : Setting) (id : LaneId) (lane : Lane) (x : δ), Holds lane x →
      Emit.wp c id e p (fun a _ t => Gives a t.lane x) (fun _ => False) lane.thread) : e.Computes p Holds Gives := by
  obtain ⟨a, p', he⟩ := hok
  refine ⟨a, p', he, fun group w x hwithin hcode hlanes => ?_⟩
  have hblock : ∀ node ∈ p'.body.drop p.body.length, ∃ v instr, node = .instr v ∧
      group.program.instr v = .ok instr ∧ instr.Computes := by
    intro node hnode
    obtain ⟨v, instr, hv, hinstr, hc⟩ := Straight.exists_instr (P := Instr.Computes) he hnode
    exact ⟨v, instr, hv, hwithin.instr_eq hinstr, hc⟩
  have := Wave.run_of_wp (p'.body.drop p.body.length) (Q := fun l lane => Gives a lane (x l)) hblock hcode
    fun l hl => by
      obtain ⟨lane, hlane, hsized, hholds⟩ := hlanes l hl
      exact ⟨lane, hlane, hwp ⟨group, fun _ => none, False⟩ _ lane (x l) hholds hsized a p' he hwithin⟩
  rw [List.length_drop] at this
  obtain ⟨lanes, hoff, hon, hturn⟩ := this
  exact ⟨lanes, hoff, hon, fun budget s => congrFun (hturn budget) s⟩

/-- What a program has can be used at its end. -/
def Scope.atEnd (p : Program) : Scope := ⟨p, fun _ => True, fun v => v.index < p.definitions.size, fun _ h => h⟩

theorem Emit.Writes.exists_eq_ok {Q : α → Scope → Prop}
    (h : Writes false e (Scope.atEnd p) Q) : ∃ a p', e p = .ok (a, p') := by
  obtain ⟨a, s', -, he, -⟩ := h
  exact ⟨a, s'.program, he⟩

theorem KnowsAll.map_read {t : Thread} {τ : ScalarType} : ∀ {vs : List Value} {as : List UInt64},
    KnowsAll p t τ vs as → vs.map t.lane.read = as.map .ok
  | [], [], _ => rfl
  | _ :: _, _ :: _, h => by rw [List.map_cons, List.map_cons, h.1.read, map_read h.2]

namespace Lowering

open Emit

/-! ## Words, indices and flags -/

/-- The numbers and flags that a lane holds for the operands of `packWord`. -/
structure PackOperands (p : Program) (values : List Value) (edgeFlags : Option (List Value))
    (mark : Option Value) (lane : Lane) (indices : List UInt32) (bools : List Bool) (null : Bool) : Prop where
  known : KnowsAll p lane.thread .u32 values (indices.map (·.toUInt64))
  flagged : KnowsFlags p lane.thread (edgeFlags.getD []) bools
  marked : ∀ flag, mark = some flag → Knows p lane.thread flag .bool null.toUInt64
  unmarked : mark = none → null = false

theorem flagsOf_toUInt64 (topology : Topology) (before : UInt32) :
    flagsOf topology before.toUInt64 = (PrimitiveFlags.ofVertex topology before).byte := by
  have hodd : before.toUInt64 &&& 1 = (before &&& 1).toUInt64 := (UInt32.toUInt64_and before 1).symm
  have hzero : (before &&& 1).toUInt64 = 0 ↔ before &&& 1 = 0 := UInt32.toUInt64_inj (b := 0)
  simp only [flagsOf, PrimitiveFlags.ofVertex, UInt32.toNat_toUInt64, hodd, ne_eq, hzero]

/-- Emitted code computes what its counterpart computes. The words that it packs are those of
`ExportWord.pack`, the vertices that it names are those of `Strip.vertexIndices`, whatever rank and flags
a lane has, and the flags that it gives a vertex are those of `PrimitiveFlags.ofVertex`. -/
theorem emitted_code_computes :
    (∀ (p : Program) (values : List Value) (edgeFlags : Option (List Value)) (mark : Option Value),
      1 ≤ values.length ∧ values.length ≤ 3 → (∀ v ∈ values, p.typeOf v = .ok .u32) →
      (∀ v ∈ edgeFlags.getD [], ∃ τ : ScalarType, τ ≠ .void ∧ p.typeOf v = .ok τ) →
      (∀ v, mark = some v → p.typeOf v = .ok .bool) → (packWord values edgeFlags mark).Computes p
        (fun lane (x : List UInt32 × List Bool × Bool) =>
          PackOperands p values edgeFlags mark lane x.1 x.2.1 x.2.2 ∧ ∀ index ∈ x.1, index ≤ 1023)
        fun word lane x => ∃ packed, ExportWord.pack x.1 (edgeFlags.map fun _ => x.2.1) x.2.2 = .ok packed ∧
          lane.read word = .ok packed.bits.toUInt64) ∧
    (∀ (p : Program) (topology : Topology) (provoking : ProvokingVertex) (rank flags : Value),
      p.typeOf rank = .ok .u32 → p.typeOf flags = .ok .u8 → (stripIndices topology rank flags provoking).Computes p
        (fun lane (x : UInt32 × UInt8) =>
          Knows p lane.thread rank .u32 x.1.toUInt64 ∧ Knows p lane.thread flags .u8 x.2.toUInt64)
        fun vertices lane x => vertices.map lane.read =
          (Strip.vertexIndices topology x.1 (x.2 &&& 2 != 0) provoking).map (.ok ·.toUInt64)) ∧
    ∀ (p : Program) (plan : GeometryPlan) (before : Value), p.typeOf before = .ok .u32 →
      (plan.vertexFlags before).Computes p (fun lane (n : UInt32) => Knows p lane.thread before .u32 n.toUInt64)
        fun flags lane n =>
          lane.read flags = .ok (PrimitiveFlags.ofVertex plan.config.topology n).byte.toUInt64 := by
  refine ⟨fun p values edgeFlags mark hlen hvalues hflags hmark => ?_,
    fun p topology provoking rank flags hrank hflags => ?_, fun p plan before hbefore => ?_⟩
  · refine computes_of_wp (Writes.exists_eq_ok (writes_packWord hlen (fun v hv => ⟨trivial, hvalues v hv⟩)
      (fun v hv => (hflags v hv).imp fun _ => .imp_right (⟨trivial, ·⟩)) (fun v hv => ⟨trivial, hmark v hv⟩)
      fun _ _ _ _ => trivial)) ?_
    rintro c id lane ⟨indices, bools, null⟩ ⟨h, hle⟩
    refine wp_packWord h.known h.flagged h.marked h.unmarked fun word p' t' _ hword => ?_
    rw [h.known.length_eq, List.length_map] at hlen
    refine ⟨_, ExportWord.pack_eq_ok hlen hle, ?_⟩
    cases edgeFlags with
    | some _ => exact hword.read
    | none =>
      obtain rfl : bools = [] := List.length_eq_zero_iff.mp h.flagged.length_eq.symm
      exact hword.read
  · refine computes_of_wp (Writes.exists_eq_ok (writes_stripIndices ⟨trivial, hrank⟩ ⟨trivial, hflags⟩
      fun _ _ _ _ _ => trivial)) ?_
    rintro c id lane ⟨r, f⟩ ⟨hr, hf⟩
    refine wp_stripIndices hr hf fun vs p' t' _ hvs => ?_
    rw [hvs.map_read, List.map_map]
    rfl
  · refine computes_of_wp (Writes.exists_eq_ok (GeometryPlan.writes_vertexFlags ⟨trivial, hbefore⟩
      fun _ _ _ _ => trivial)) ?_
    intro c id lane n hn
    refine GeometryPlan.wp_vertexFlags hn fun v p' t' _ hv => ?_
    rw [← flagsOf_toUInt64]
    exact hv.read

/-- Two indices, the larger one as large as it can be, and a flag. -/
def pairProgram : Program where
  stage := .vertex
  definitions := #[⟨.const .u32 5, .u32⟩, ⟨.const .u32 1023, .u32⟩, ⟨.const .bool 1, .bool⟩]
  body := [.instr ⟨0⟩, .instr ⟨1⟩, .instr ⟨2⟩]

/-- The program with the packing of a word that is marked, with an edge flag for the first of its vertices. -/
def packedPair : Program :=
  ((packWord [⟨0⟩, ⟨1⟩] (some [⟨2⟩]) (some ⟨2⟩) pairProgram).toOption.map (·.2)).getD pairProgram

def pairGroup : Workgroup := ⟨⟨packedPair, (Block.code 0 packedPair.body).toArray⟩, { numLanes := 2 }, .wave32⟩

/-- A lane behind the three constants. -/
def pairLane : Lane where
  registers := #[5, 1023, 1] ++ Array.replicate (packedPair.definitions.size - 3) 0
  vars := #[]

/-- A wave behind the three constants, with the second of its lanes switched off. -/
def pairWave : Wave where
  id := 0
  launched := .first 2
  exec := .first 1
  pc := 3
  frames := [.branch (.first 2) (LaneMask.empty.insert 1)]
  lanes := #[pairLane, pairLane]

theorem knows_pairLane {v : Value} {type : ScalarType} {a : UInt64}
    (h : pairProgram.definitions[v.index]? = some ⟨.const type a, type⟩)
    (hr : pairLane.registers[v.index]? = some a) : Knows pairProgram pairLane.thread v type a := by
  have hd : pairProgram.definition v = .ok ⟨.const type a, type⟩ := by
    simp [Program.definition, Program.definition?, h]
  refine ⟨by rw [Program.typeOf, hd]; rfl, by simp [Lane.thread, Lane.read, hr], fun instr hi k hk => ?_⟩
  rw [Program.instr, hd] at hi
  cases hi
  cases hk
  rfl

theorem emitted_code_computes_pair : ∃ word lanes,
    (lanes[0]?.map fun lane => lane.read word) = some (.ok 2148531717) ∧ lanes[1]? = some pairLane ∧
    ∀ budget s, pairWave.run pairGroup (budget + 11) s =
      Wave.run pairGroup budget { pairWave with pc := 14, lanes } s := by
  have hflag : pairProgram.typeOf ⟨2⟩ = .ok .bool := rfl
  obtain ⟨word, p', he, h⟩ := emitted_code_computes.1 pairProgram [⟨0⟩, ⟨1⟩] (some [⟨2⟩]) (some ⟨2⟩) (by decide)
    (by intro v hv; rcases List.mem_pair.mp hv with rfl | rfl <;> rfl)
    (by rintro v hv; rw [List.mem_singleton.mp hv]; exact ⟨.bool, nofun, hflag⟩) (by rintro v ⟨⟩; exact hflag)
  obtain rfl : p' = packedPair := by rw [packedPair, he]; rfl
  have hcount : packedPair.body.length - pairProgram.body.length = 11 := by decide +kernel
  have hcode : CodeAt pairGroup.executable.code pairWave.pc
      (Block.code pairWave.pc (packedPair.body.drop pairProgram.body.length)) := by
    refine ⟨Block.code 0 pairProgram.body, [], ?_, rfl⟩
    decide +kernel
  have hsized : pairLane.Sized pairGroup.program := ⟨by decide +kernel, by decide +kernel⟩
  have htrue : Knows pairProgram pairLane.thread ⟨2⟩ .bool true.toUInt64 := knows_pairLane rfl rfl
  have hon : ∀ l ∈ pairWave.exec.lanes, l = 0 := by decide +kernel
  rw [hcount] at h
  obtain ⟨lanes, hoff, hgives, hrun⟩ := h pairGroup pairWave (fun _ => ([5, 1023], [true], true)) (.refl _) hcode
    fun l hl => by
      rw [hon l hl]
      refine ⟨pairLane, rfl, hsized, ⟨⟨knows_pairLane rfl rfl, knows_pairLane rfl rfl, trivial⟩, ⟨rfl, ?_⟩, ?_, nofun⟩,
        by simp⟩
      · rintro (_ | i) flag b ⟨⟩ ⟨⟩
        exact ⟨.bool, nofun, htrue⟩
      · rintro flag ⟨⟩
        exact htrue
  obtain ⟨lane, hlane, packed, hpacked, hread⟩ := hgives 0 (by decide +kernel)
  refine ⟨word, lanes, ?_, hoff 1 (by decide +kernel), hrun⟩
  obtain rfl : packed = ⟨2148531717⟩ := by
    have hword : ExportWord.pack [5, 1023] (some [true]) true = .ok ⟨2148531717⟩ := by decide +kernel
    cases hword.symm.trans hpacked
    rfl
  rw [hlane, Option.map_some, hread]
  rfl

end Lowering

end PrimitiveShader
