import PrimitiveShader.Proofs.Schedule.WaveAction
import PrimitiveShader.Proofs.Thread.Crew

/-!
# Instructions of a wave, lane by lane

An instruction serves the lanes that are on one after the other. If every thread meets the
precondition of the instruction, all of them are served, and each ends up with its postcondition
(`Wave.execute_of_wp`).
-/

namespace PrimitiveShader.Crew

variable {c : Setting} {id : Nat} {lanes : Array Lane} {s : Shared} {T : Nat → Thread}
  {Q : Nat → Thread → Prop} {l : Nat} {E : RunError → Prop}

theorem readRegister_eq (h : Crew c id lanes s T) (hl : l < c.group.wave.size) (value : Value) :
    readRegister lanes l value = (T l).lane.read value := by
  simp only [readRegister, h.lane l hl]

/-- The lanes `before` have been served, the others wait. -/
def Served (c : Setting) (id : Nat) (s : Shared) (T : Nat → Thread) (Q : Nat → Thread → Prop)
    (before : List Nat) (lanes' : Array Lane) (s' : Shared) : Prop :=
  ∃ T', Crew c id lanes' s' T' ∧ s.Steps c id s' ∧ (∀ k ∈ before, Q k (T' k)) ∧
    ∀ k, k ∉ before → T' k = T k

theorem Served.nil (h : Crew c id lanes s T) : Served c id s T Q [] lanes s :=
  ⟨T, h, .refl s, fun _ hk => (nomatch hk), fun _ _ => rfl⟩

theorem Served.concat {before : List Nat} {lanes₁ lanes₂ : Array Lane} {s₁ s₂ : Shared}
    {T₁ : Nat → Thread} (h : Crew c id lanes₁ s₁ T₁) (hsteps : s.Steps c id s₁)
    (hdone : ∀ k ∈ before, Q k (T₁ k)) (hwait : ∀ k, k ∉ before → T₁ k = T k)
    (hl : l < c.group.wave.size) {t' : Thread} (hc : Change c id l lanes₁ lanes₂ s₁ s₂ t') (hQ : Q l t') :
    Served c id s T Q (before ++ [l]) lanes₂ s₂ := by
  obtain ⟨hcrew, hsteps'⟩ := h.change hl hc
  refine ⟨_, hcrew, hsteps.trans hsteps', fun k hk => ?_, fun k hk => ?_⟩
  · by_cases he : k = l
    · simpa only [replace, he, ↓reduceIte] using hQ
    · have hb : k ∈ before := by simpa [he] using hk
      simpa only [replace, he, ↓reduceIte] using hdone k hb
  · have hk' : k ∉ before ∧ k ≠ l := by simpa using hk
    simpa only [replace, hk'.2, ↓reduceIte] using hwait k hk'.1

/-! ## One lane -/

/-- Only the first lane of the workgroup asks for space. -/
theorem space_eq (h : Crew c id lanes s T) (hl : l < c.group.wave.size) :
    s.result.allocation = if c.index id l = 0 then (T l).space else s.result.allocation := by
  split
  · rename_i hzero
    have hdiv : c.index id l / c.group.wave.size = id := Setting.index_div hl
    rw [hzero, Nat.zero_div] at hdiv
    subst hdiv
    have hl0 : l = 0 := by simpa [Setting.index, Wave.laneId] using hzero
    rw [hl0]
    exact h.space rfl
  · rfl

section

variable {lanes' : Array Lane} {t' : Thread}

theorem Change.ofLane (h : Crew c id lanes s T) (hl : l < c.group.wave.size)
    {lane' : Lane} (hcount : lanes'.size = lanes.size)
    (hown : lanes'[l]? = some lane') (hothers : ∀ k ≠ l, lanes'[k]? = lanes[k]?) (hsized : lane'.Sized c.program) :
    Change c id l lanes lanes' s s ((T l).withLane lane') where
  count := hcount
  own := hown
  others := hothers
  sized := hsized
  obeys := h.obeys
  cells := rfl
  bytes _ _ := rfl
  view := h.view l hl
  primitives k := by
    split
    · rename_i hk
      rw [hk]
      exact h.primitives l hl
    · rfl
  vertices k := by
    split
    · rename_i hk
      rw [hk]
      exact h.vertices l hl
    · rfl
  space := h.space_eq hl

/-- A change of memory on top of a change of the lane's state. -/
theorem Change.withMemory (hc : Change c id l lanes lanes' s s t')
    {s' : Shared} {view : Nat → UInt8} (hobeys : s'.memory.Obeys c.own c.group.wave.size)
    (hcells : s'.memory.cells.size = s.memory.cells.size)
    (hbytes : ∀ a, c.own a ≠ some (c.index id l) → s'.memory.byteAt a = s.memory.byteAt a)
    (hview : ∀ a, (c.own a = none ∨ c.own a = some (c.index id l)) → view a = s'.memory.byteAt a)
    (hprimitives : s'.result.primitives = s.result.primitives) (hvertices : s'.result.vertices = s.result.vertices)
    (hallocation : s'.result.allocation = s.result.allocation) : Change c id l lanes lanes' s s' { t' with view } where
  count := hc.count
  own := hc.own
  others := hc.others
  sized := hc.sized
  obeys := hobeys
  cells := hcells
  bytes := hbytes
  view := hview
  primitives k := by rw [hprimitives]; exact hc.primitives k
  vertices k := by rw [hvertices]; exact hc.vertices k
  space := by rw [hallocation]; exact hc.space

end

theorem Change.refl (h : Crew c id lanes s T) (hl : l < c.group.wave.size) : Change c id l lanes lanes s s (T l) :=
  .ofLane h hl rfl (h.lane l hl) (fun _ _ => rfl) (h.sized l hl)

theorem Change.write (h : Crew c id lanes s T) (hl : l < c.group.wave.size) (value : Value) (a : UInt64) :
    Change c id l lanes (writeRegister lanes l value a) s s ((T l).write value a) := by
  refine .ofLane h hl (by simp [writeRegister]) ?_ (fun k hk => ?_) ((h.sized l hl).write value a)
  · simp [writeRegister, Array.getElem?_modify, h.lane l hl]
  · simp [writeRegister, Array.getElem?_modify, hk.symm]

variable {α : Type} {a : Array (Nat × α)} {entries : List α} {own : Nat} {type : ScalarType} {P : Thread → Prop}
  {base : UInt32} {value addr : Value}

theorem load_ends (h : Crew c id lanes s T) (hf : c.Fits id) (hl : l < c.group.wave.size)
    (hwp : (Instr.intrinsic (.loadShared addr base type)).wp c (Wave.laneId c.group id l) value P (T l)) : ((do
      let at_ ← Wave.address base (← readRegister lanes l addr)
      let data ← Shared.onMemory (SharedMemory.load id (Wave.laneId c.group id l).index at_ type.bytes
          c.group.program.sharedSize)
      Shared.onResult fun result => { result with sharedLoads := result.sharedLoads + 1 }
      return writeRegister lanes l value data : Exec Shared (Array Lane)) s).Ends E c.faults
      fun lanes' s' => ∃ t', Change c id l lanes lanes' s s' t' ∧ P t' := by
  rw [h.readRegister_eq hl]
  refine .bind (.lift ((Yields.bind_iff.mp hwp).mono fun a _ ha => ?_))
  refine .bind (.lift ((Yields.bind_iff.mp ha).mono fun at_ _ hat => ?_))
  obtain ⟨hshare, hfree, hP⟩ := hat
  have hfree' : ∀ j < type.bytes, c.own (at_ + j) = none := hfree
  have hbytes : type.bytes ≤ 8 := by cases type <;> decide
  have hlt : at_ + type.bytes < 2 ^ 64 := Nat.lt_of_le_of_lt hshare hf.share
  obtain ⟨m, hload, hobeys, hcells, hsame⟩ :=
    h.obeys.load id (c.index id l) hbytes hlt hshare h.share hfree hf.wave
  have hview : littleEndian s.memory.byteAt at_ type.bytes 0 = littleEndian (T l).view at_ type.bytes 0 :=
    littleEndian_congr fun j _ hj => (h.view l hl _ (.inl (hfree' j (by omega)))).symm
  have hdone : Shared.onMemory (SharedMemory.load id (Wave.laneId c.group id l).index at_
      type.bytes c.group.program.sharedSize) s =
      .done (littleEndian (T l).view at_ type.bytes 0) { s with memory := m } := by
    rw [← hview]
    exact Shared.onMemory_eq_done_iff.mpr ⟨m, hload, rfl⟩
  refine .bind ?_
  rw [hdone]
  exact ⟨_, (Change.write h hl value _).withMemory hobeys hcells (fun a _ => by simp only [hsame])
    (fun a ha => by rw [hsame]; exact h.view l hl a ha) rfl rfl rfl, hP⟩

theorem store_ends (h : Crew c id lanes s T) (hf : c.Fits id) (hl : l < c.group.wave.size) {data : Value}
    (ht : c.program.typeOf data = .ok type)
    (hwp : (Instr.intrinsic (.storeShared data addr base)).wp c (Wave.laneId c.group id l) value P (T l)) : ((do
      let at_ ← Wave.address base (← readRegister lanes l addr)
      let a ← readRegister lanes l data
      Shared.onMemory (SharedMemory.store id (Wave.laneId c.group id l).index at_ type.bytes a
          c.group.program.sharedSize)
      Shared.onResult fun result => { result with sharedStores := result.sharedStores + 1 } :
        Exec Shared Unit) s).Ends E c.faults
      fun _ s' => ∃ t', Change c id l lanes lanes s s' t' ∧ P t' := by
  rw [h.readRegister_eq hl, h.readRegister_eq hl]
  simp only [Instr.wp, Thread.storeAccess, ht] at hwp
  change Yields c.faults _ ((T l).lane.read addr >>= _) at hwp
  refine .bind (.lift ((Yields.bind_iff.mp hwp).mono fun a _ ha => ?_))
  refine .bind (.lift ((Yields.bind_iff.mp ha).mono fun at_ _ hat => ?_))
  refine .bind (.lift ((Yields.bind_iff.mp hat).mono fun v _ hv => ?_))
  obtain ⟨hshare, hown, hP⟩ := hv
  have hown' : ∀ j < type.bytes, c.own (at_ + j) = some (c.index id l) := hown
  have hbytes : type.bytes ≤ 8 := by cases type <;> decide
  have hlt : at_ + type.bytes < 2 ^ 64 := Nat.lt_of_le_of_lt hshare hf.share
  have hdiv : c.index id l / c.group.wave.size = id := Setting.index_div hl
  obtain ⟨m, hstore, hobeys, hcells, hbytesAt⟩ :=
    h.obeys.store v hbytes hlt hshare h.share hown' (hdiv.symm ▸ hf.wave)
  rw [hdiv] at hstore
  have hdone : Shared.onMemory (SharedMemory.store id (Wave.laneId c.group id l).index at_
      type.bytes v c.group.program.sharedSize) s = .done () { s with memory := m } :=
    Shared.onMemory_eq_done_iff.mpr ⟨m, hstore, rfl⟩
  refine .bind ?_
  rw [hdone]
  refine ⟨_, (Change.refl h hl).withMemory hobeys hcells (fun a ha => ?_) (fun a ha => ?_) rfl rfl rfl, hP⟩
  · change m.byteAt a = _
    rw [hbytesAt, overwrite, if_neg]
    rintro ⟨hle, hlt⟩
    have hself := hown' (a - at_) (by omega)
    rw [Nat.add_sub_cancel' hle] at hself
    exact ha hself
  · change _ = m.byteAt a
    rw [hbytesAt]
    simp only [overwrite]
    split
    · rfl
    · exact h.view l hl a ha

/-- A change of the result that leaves the exports of every lane but one as they are. -/
theorem Change.withResult (h : Crew c id lanes s T) (hl : l < c.group.wave.size)
    {result : WorkgroupResult} {primitives : List ExportWord} {vertices : List (SlotTable UInt64)}
    {space : Option Allocation} (hprimitives : ∀ k, exportsOf result.primitives k =
      if k = c.index id l then primitives.map (k, ·) else exportsOf s.result.primitives k)
    (hvertices : ∀ k, exportsOf result.vertices k =
      if k = c.index id l then vertices.map (k, ·) else exportsOf s.result.vertices k)
    (hspace : result.allocation = if c.index id l = 0 then space else s.result.allocation) :
    Change c id l lanes lanes s { s with result } { T l with primitives, vertices, space } where
  count := rfl
  own := h.lane l hl
  others _ _ := rfl
  sized := h.sized l hl
  obeys := h.obeys
  cells := rfl
  bytes _ _ := rfl
  view := h.view l hl
  primitives := hprimitives
  vertices := hvertices
  space := hspace

/-- One more export of a lane, as seen by all lanes. -/
theorem exportsOf_push {x : α} (h : exportsOf a own = entries.map (own, ·)) (k : Nat) : exportsOf (a.push (own, x)) k =
      if k = own then (entries ++ [x]).map (k, ·) else exportsOf a k := by
  by_cases hk : k = own
  · subst hk
    rw [if_pos rfl, List.map_append, ← h]
    simp [exportsOf]
  · rw [if_neg hk]
    simp [exportsOf, Ne.symm hk]

/-- The exports of a lane that makes none. -/
theorem exportsOf_same (h : exportsOf a own = entries.map (own, ·)) (k : Nat) :
    exportsOf a k = if k = own then entries.map (k, ·) else exportsOf a k := by
  split
  · rename_i hk
    rw [hk, h]
  · rfl

variable (h : Crew c id lanes s T)
include h

variable (hl : l < c.group.wave.size)
include hl

theorem query_ends {count : Value} {stream : UInt8}
    (hwp : (Instr.intrinsic (.queryAdd stream count)).wp c (Wave.laneId c.group id l) value P (T l)) : ((do
      if h : stream.toNat < 4 then
        let a ← readRegister lanes l count
        Shared.onResult fun result =>
          { result with queryCounters :=
              result.queryCounters.set stream.toNat (result.queryCounters[stream.toNat] + a) h }
      else
        Exec.fault .outOfRange : Exec Shared Unit) s).Ends E c.faults
      fun _ s' => ∃ t', Change c id l lanes lanes s s' t' ∧ P t' := by
  simp only [Instr.wp, Thread.queryCount] at hwp
  by_cases hs : stream.toNat < 4
  · simp only [hs, ↓reduceIte, ↓reduceDIte] at hwp ⊢
    rw [h.readRegister_eq hl]
    refine .bind (.lift (hwp.mono fun a _ hP => ⟨T l, ?_, hP⟩))
    exact .withResult h hl (exportsOf_same (h.primitives l hl)) (exportsOf_same (h.vertices l hl)) (h.space_eq hl)
  · simp only [hs, ↓reduceIte, ↓reduceDIte] at hwp ⊢
    exact hwp

theorem exportPrimitive_ends {word : Value}
    (hwp : (Instr.intrinsic (.exportPrimitive word)).wp c (Wave.laneId c.group id l) value P (T l)) : ((do
      let a ← readRegister lanes l word
      Shared.onResult fun result =>
        { result with
          primitives := result.primitives.push
            ((Wave.laneId c.group id l).index, ⟨a.toUInt32⟩) } : Exec Shared Unit) s).Ends E
      c.faults fun _ s' => ∃ t', Change c id l lanes lanes s s' t' ∧ P t' := by
  rw [h.readRegister_eq hl]
  simp only [Instr.wp] at hwp
  refine .bind (.lift (hwp.mono fun a _ hP => ⟨_, ?_, hP⟩))
  exact .withResult h hl (exportsOf_push (h.primitives l hl)) (exportsOf_same (h.vertices l hl)) (h.space_eq hl)

theorem exportVertex_ends (hwp : (Instr.intrinsic .exportVertex).wp c (Wave.laneId c.group id l) value P (T l)) :
    ((Shared.onResult fun result =>
      { result with
        vertices := result.vertices.push ((Wave.laneId c.group id l).index,
          (lanes[l]?.map (·.outputs)).getD []) } : Exec Shared Unit) s).Ends E
      c.faults fun _ s' => ∃ t', Change c id l lanes lanes s s' t' ∧ P t' := by
  rw [h.lane l hl]
  exact ⟨_, .withResult h hl (exportsOf_same (h.primitives l hl)) (exportsOf_push (h.vertices l hl))
    (h.space_eq hl), hwp⟩

theorem allocate_ends {vertices primitives : Value}
    (hwp : (Instr.intrinsic (.allocate vertices primitives)).wp c (Wave.laneId c.group id l) value P (T l)) : ((do
      unless id = 0 do Exec.fail (.allocation .outsideFirstWave)
      if (← Exec.get).result.allocation.isSome then Exec.fail (.allocation .repeated)
      let v ← readRegister lanes l vertices
      let p ← readRegister lanes l primitives
      let space : Allocation := ⟨v.toUInt32.toNat, p.toUInt32.toNat⟩
      Shared.onResult fun result => { result with allocation := some space } : Exec Shared Unit) s).Ends E c.faults
      fun _ s' => ∃ t', Change c id l lanes lanes s s' t' ∧ P t' := by
  obtain ⟨hindex, hnone, hP⟩ := hwp
  have hzero : c.index id l = 0 := hindex
  have hid : id = 0 := by
    have hdiv : c.index id l / c.group.wave.size = id := Setting.index_div hl
    rw [hzero, Nat.zero_div] at hdiv
    exact hdiv.symm
  have halloc : s.result.allocation = none := by
    rw [h.space_eq hl, if_pos hzero, hnone]
  rw [h.readRegister_eq hl, h.readRegister_eq hl]
  subst hid
  simp only [↓reduceIte]
  refine .bind (x := Exec.get) ?_
  change Outcome.Ends E c.faults _ ((if s.result.allocation.isSome = true then _ else _ : Exec Shared Unit) s)
  simp only [halloc, Option.isSome_none, Bool.false_eq_true, ↓reduceIte]
  refine .bind (.lift ((Yields.bind_iff.mp hP).mono fun v _ hv => ?_))
  refine .bind (.lift ((Yields.bind_iff.mp hv).mono fun p _ hp => ⟨_, ?_, hp⟩))
  exact .withResult h hl (exportsOf_same (h.primitives l hl)) (exportsOf_same (h.vertices l hl)) (by rw [if_pos hzero])

/-- An instruction that concerns one lane only. -/
theorem update_yields {f : Lane → Except Fault Lane}
    (hsized : ∀ lane lane', lane.Sized c.program → f lane = .ok lane' → lane'.Sized c.program)
    (hP : Yields c.faults (fun lane => P ((T l).withLane lane)) (f (T l).lane)) :
    Yields c.faults (fun lanes' => ∃ t', Change c id l lanes lanes' s s t' ∧ P t') (lanes.modifyM l f) := by
  have hlt : l < lanes.size := h.count ▸ hl
  have hget : lanes[l] = (T l).lane := by
    have hsome := h.lane l hl
    rw [Array.getElem?_eq_getElem hlt] at hsome
    exact Option.some.inj hsome
  unfold Array.modifyM
  rw [dif_pos hlt, hget]
  refine Yields.bind_iff.mpr (hP.mono fun lane' hf hP' => ⟨(T l).withLane lane', ?_, hP'⟩)
  exact .ofLane h hl (by simp) (by simp [hlt])
    (fun k hk => Array.getElem?_set_ne hlt (Ne.symm hk)) (hsized _ _ (h.sized l hl) hf)

end PrimitiveShader.Crew
