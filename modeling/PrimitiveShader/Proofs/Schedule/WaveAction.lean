import PrimitiveShader.Proofs.Schedule.Commutation

/-!
# What waves do to their workgroup

`WaveAction size waves a` says that the action `a` is put together from steps which the waves in
`waves` may take: they read and write single bytes in their own name, add to the result, and if the
first wave is among them they ask for output space. `size` is the number of lanes of a wave; it ties
the lane that writes or exports to its wave.

Such actions cannot tell alike states apart (`WaveAction.respects`), and the actions of disjoint sets
of waves commute (`WaveAction.commutes`).
-/

namespace PrimitiveShader

/-! ## Contributions to the result -/

/-- What an action adds to the result of its workgroup. -/
structure Contribution where
  primitives : Array (Nat × ExportWord) := #[]
  vertices : Array (Nat × SlotTable UInt64) := #[]
  queryCounters : Vector UInt64 4 := #v[0, 0, 0, 0]
  sharedLoads : Nat := 0
  sharedStores : Nat := 0

namespace Contribution

/-- Puts a contribution behind what is there. -/
def add (c : Contribution) (r : WorkgroupResult) : WorkgroupResult :=
  { r with
    primitives := r.primitives ++ c.primitives
    vertices := r.vertices ++ c.vertices
    queryCounters := r.queryCounters.zipWith (· + ·) c.queryCounters
    sharedLoads := r.sharedLoads + c.sharedLoads
    sharedStores := r.sharedStores + c.sharedStores }

/-- All exports of the contribution come from lanes with `P`. -/
def OnlyFrom (c : Contribution) (P : Nat → Prop) : Prop :=
  (∀ entry ∈ c.primitives, P entry.1) ∧ ∀ entry ∈ c.vertices, P entry.1

theorem zipWith_add_zero (v : Vector UInt64 4) : v.zipWith (· + ·) #v[0, 0, 0, 0] = v := by
  ext i hi
  have h : (#v[0, 0, 0, 0] : Vector UInt64 4)[i] = 0 := by
    match i, hi with
    | 0, _ => rfl
    | 1, _ => rfl
    | 2, _ => rfl
    | 3, _ => rfl
  simp [h]

theorem add_query (stream : Nat) (h : stream < 4) (a : UInt64) (r : WorkgroupResult) :
    add { queryCounters := (#v[0, 0, 0, 0] : Vector UInt64 4).set stream a } r =
      { r with queryCounters := r.queryCounters.set stream (r.queryCounters[stream] + a) } := by
  have hq : r.queryCounters.zipWith (· + ·) ((#v[0, 0, 0, 0] : Vector UInt64 4).set stream a) =
      r.queryCounters.set stream (r.queryCounters[stream] + a) := by
    ext i hi
    have hz := congrArg (fun v : Vector UInt64 4 => v[i]) (zipWith_add_zero r.queryCounters)
    simp only [Vector.getElem_zipWith] at hz
    simp only [Vector.getElem_zipWith, Vector.getElem_set]
    split
    · rename_i he
      subst he
      rfl
    · rw [hz]
  simp only [add, hq, Array.append_empty, Nat.add_zero]

/-- Contributions are made in alike results alike. -/
theorem add_alike (c : Contribution) {r q : WorkgroupResult} (h : r.Alike q) : (c.add r).Alike (c.add q) where
  allocation := h.allocation
  primitives lane := by simp only [add, exportsOf_append, h.primitives]
  vertices lane := by simp only [add, exportsOf_append, h.vertices]
  queryCounters := by simp only [add, h.queryCounters]
  barriers := h.barriers
  sharedLoads := by simp only [add, h.sharedLoads]
  sharedStores := by simp only [add, h.sharedStores]

theorem exportsOf_swap {α : Type} {P Q : Nat → Prop} (hPQ : ∀ lane, P lane → ¬ Q lane)
    (r : Array (Nat × α)) {c d : Array (Nat × α)} (hc : ∀ entry ∈ c, P entry.1)
    (hd : ∀ entry ∈ d, Q entry.1) (lane : Nat) : exportsOf (r ++ c ++ d) lane = exportsOf (r ++ d ++ c) lane := by
  simp only [exportsOf_append]
  by_cases hP : P lane
  · have hnil : exportsOf d lane = [] :=
      exportsOf_eq_nil fun entry he hl => hPQ lane hP (hl ▸ hd entry he)
    simp [hnil]
  · have hnil : exportsOf c lane = [] :=
      exportsOf_eq_nil fun entry he hl => hP (hl ▸ hc entry he)
    simp [hnil]

/-- Contributions of different lanes may be made in any order. -/
theorem add_add_alike {P Q : Nat → Prop} (hPQ : ∀ lane, P lane → ¬ Q lane) {c d : Contribution}
    (hc : c.OnlyFrom P) (hd : d.OnlyFrom Q) (r : WorkgroupResult) : (d.add (c.add r)).Alike (c.add (d.add r)) where
  allocation := rfl
  primitives := exportsOf_swap hPQ r.primitives hc.1 hd.1
  vertices := exportsOf_swap hPQ r.vertices hc.2 hd.2
  queryCounters := by
    ext i hi
    simp only [add, Vector.getElem_zipWith]
    rw [UInt64.add_assoc, UInt64.add_assoc, UInt64.add_comm c.queryCounters[i]]
  barriers := rfl
  sharedLoads := Nat.add_right_comm ..
  sharedStores := Nat.add_right_comm ..

end Contribution

/-- Asks for output space, which may be done once. -/
def requestOnce (space : Except Fault Allocation) : Exec WorkgroupResult Unit := fun result =>
  if result.allocation.isSome then .failed (.allocation .repeated) result
  else
    match space with
    | .ok space => .done () { result with allocation := some space }
    | .error fault => .faulted fault

theorem requestOnce_eq_done_iff {space : Except Fault Allocation} {r r' : WorkgroupResult} :
    requestOnce space r = .done () r' ↔
      r.allocation = none ∧ ∃ a, space = .ok a ∧ r' = { r with allocation := some a } := by
  unfold requestOnce
  cases hr : r.allocation <;> cases space <;> simp [eq_comm]

/-! ## Memory and result apart -/

namespace Shared

variable {α β : Type}

/-- Does something with the result. -/
def inResult (a : Exec WorkgroupResult α) : Exec Shared α := fun shared =>
  match a shared.result with
  | .done x result => .done x { shared with result }
  | .failed error result => .failed error { shared with result }
  | .faulted fault => .faulted fault

variable {a : Exec SharedMemory α} {s s' : Shared} {x : α}

theorem onMemory_eq_done_iff : onMemory a s = .done x s' ↔
      ∃ m, a s.memory = .done x m ∧ s' = { s with memory := m } := by
  unfold onMemory
  cases a s.memory <;> grind

theorem inResult_eq_done_iff {a : Exec WorkgroupResult α} : inResult a s = .done x s' ↔
      ∃ r, a s.result = .done x r ∧ s' = { s with result := r } := by
  unfold inResult
  cases a s.result <;> grind

theorem respects_onMemory (a : Exec SharedMemory α) : (onMemory a).Respects Alike := by
  intro s t x s' hst hs
  obtain ⟨m, hm, rfl⟩ := onMemory_eq_done_iff.mp hs
  rw [hst.memory] at hm
  exact ⟨{ t with memory := m }, onMemory_eq_done_iff.mpr ⟨m, hm, rfl⟩, rfl, hst.result⟩

theorem respects_inResult {a : Exec WorkgroupResult α} (h : a.Respects WorkgroupResult.Alike) :
    (inResult a).Respects Alike := by
  intro s t x s' hst hs
  obtain ⟨r, hr, rfl⟩ := inResult_eq_done_iff.mp hs
  obtain ⟨q, hq, hrq⟩ := h hst.result hr
  exact ⟨{ t with result := q }, inResult_eq_done_iff.mpr ⟨q, hq, rfl⟩, hst.memory, hrq⟩

theorem commutes_onMemory {b : Exec SharedMemory β}
    (h : a.Commutes Eq b) : (onMemory a).Commutes Alike (onMemory b) := by
  intro s x s₁ y s₂ hs hs₁
  obtain ⟨m₁, ha, rfl⟩ := onMemory_eq_done_iff.mp hs
  obtain ⟨m₂, hb, rfl⟩ := onMemory_eq_done_iff.mp hs₁
  obtain ⟨n₁, n₂, hb', ha', hmn⟩ := h ha hb
  exact ⟨_, _, onMemory_eq_done_iff.mpr ⟨n₁, hb', rfl⟩, onMemory_eq_done_iff.mpr ⟨n₂, ha', rfl⟩, hmn, .refl _⟩

theorem commutes_inResult {a : Exec WorkgroupResult α} {b : Exec WorkgroupResult β}
    (h : a.Commutes WorkgroupResult.Alike b) : (inResult a).Commutes Alike (inResult b) := by
  intro s x s₁ y s₂ hs hs₁
  obtain ⟨r₁, ha, rfl⟩ := inResult_eq_done_iff.mp hs
  obtain ⟨r₂, hb, rfl⟩ := inResult_eq_done_iff.mp hs₁
  obtain ⟨q₁, q₂, hb', ha', hrq⟩ := h ha hb
  exact ⟨_, _, inResult_eq_done_iff.mpr ⟨q₁, hb', rfl⟩, inResult_eq_done_iff.mpr ⟨q₂, ha', rfl⟩, .refl _, hrq⟩

theorem commutes_onMemory_inResult (a : Exec SharedMemory α) (b : Exec WorkgroupResult β) :
    (onMemory a).Commutes Alike (inResult b) := by
  intro s x s₁ y s₂ hs hs₁
  obtain ⟨m, ha, rfl⟩ := onMemory_eq_done_iff.mp hs
  obtain ⟨r, hb, rfl⟩ := inResult_eq_done_iff.mp hs₁
  exact ⟨_, _, inResult_eq_done_iff.mpr ⟨r, hb, rfl⟩, onMemory_eq_done_iff.mpr ⟨m, ha, rfl⟩, .refl _⟩

theorem commutes_inResult_onMemory (a : Exec WorkgroupResult α) (b : Exec SharedMemory β) :
    (inResult a).Commutes Alike (onMemory b) := by
  intro s x s₁ y s₂ hs hs₁
  obtain ⟨r, ha, rfl⟩ := inResult_eq_done_iff.mp hs
  obtain ⟨m, hb, rfl⟩ := onMemory_eq_done_iff.mp hs₁
  exact ⟨_, _, onMemory_eq_done_iff.mpr ⟨m, hb, rfl⟩, inResult_eq_done_iff.mpr ⟨r, ha, rfl⟩, .refl _⟩

theorem onMemory_bind (a : Exec SharedMemory α) (k : α → Exec SharedMemory β) :
    onMemory (a >>= k) = onMemory a >>= fun x => onMemory (k x) := by
  funext s
  change onMemory (Exec.bind a k) s = Exec.bind (onMemory a) _ s
  simp only [onMemory, Exec.bind]
  cases a s.memory <;> rfl

end Shared

/-! ## Steps and actions of waves -/

section

variable (size : Nat) (waves : Nat → Prop)

/-- The steps on memory that some waves may take. -/
inductive MemoryStep : {α : Type} → Exec SharedMemory α → Prop where
  | range (lane addr len share : Nat) : MemoryStep (SharedMemory.checkRange lane addr len share)
  | load (wave addr : Nat) (hw : waves wave) : MemoryStep (SharedMemory.loadByte wave addr)
  | store (writer : Writer) (addr : Nat) (byte : UInt8) (hw : waves writer.wave)
      (hl : writer.lane / size = writer.wave) :
      MemoryStep (SharedMemory.storeByte writer addr byte)

/-- The steps on the result that some waves may take. -/
inductive ResultStep : {α : Type} → Exec WorkgroupResult α → Prop where
  | contribute (c : Contribution) (hc : c.OnlyFrom fun lane => waves (lane / size)) :
      ResultStep (Exec.update c.add)
  | request (space : Except Fault Allocation) (hw : waves 0) : ResultStep (requestOnce space)

/-- What some waves may do. Only successful runs matter, so two actions that succeed alike are not
told apart. -/
inductive WaveAction : {α : Type} → Exec Shared α → Prop where
  | quiet {α : Type} {a : Exec Shared α} (h : a.Quiet) : WaveAction a
  | memory {α : Type} {a : Exec SharedMemory α} (h : MemoryStep size waves a) :
      WaveAction (Shared.onMemory a)
  | result {α : Type} {a : Exec WorkgroupResult α} (h : ResultStep size waves a) :
      WaveAction (Shared.inResult a)
  | bind {α β : Type} {a : Exec Shared α} {k : α → Exec Shared β} (ha : WaveAction a)
      (hk : ∀ s x s', a s = .done x s' → WaveAction (k x)) : WaveAction (a >>= k)
  | congr {α : Type} {a b : Exec Shared α} (ha : WaveAction a)
      (h : ∀ s x s', b s = .done x s' ↔ a s = .done x s') : WaveAction b

end

section

variable {size : Nat} {waves others : Nat → Prop} {α β : Type}

theorem checkRange_eq_done_iff {lane addr len share : Nat} {m m' : SharedMemory} :
    SharedMemory.checkRange lane addr len share m = .done () m' ↔
      (addr + len < 2 ^ 64 ∧ addr + len ≤ share ∧ addr + len ≤ m.cells.size) ∧ m' = m := by
  unfold SharedMemory.checkRange
  grind

namespace MemoryStep

variable {a : Exec SharedMemory α}

theorem size_eq (h : MemoryStep size waves a) {m m' : SharedMemory}
    {x : α} (hm : a m = .done x m') : m'.cells.size = m.cells.size := by
  cases h with
  | range =>
    obtain ⟨-, rfl⟩ := checkRange_eq_done_iff.mp hm
    rfl
  | load =>
    obtain ⟨-, -, -, rfl⟩ := (SharedMemory.describes_loadByte _ _ m x m').mp hm
    exact Array.size_modify
  | store =>
    obtain ⟨-, -, -, rfl⟩ := (SharedMemory.describes_storeByte _ _ _ m x m').mp hm
    exact Array.size_modify

theorem mono (h : MemoryStep size waves a) (hw : ∀ wave, waves wave → others wave) : MemoryStep size others a := by
  cases h with
  | range => exact .range _ _ _ _
  | load wave addr h => exact .load wave addr (hw wave h)
  | store writer addr byte h hl => exact .store writer addr byte (hw _ h) hl

theorem commutes (hd : ∀ wave, waves wave → ¬ others wave)
    {b : Exec SharedMemory β} (ha : MemoryStep size waves a) (hb : MemoryStep size others b) :
    a.Commutes Eq b := by
  have hne {i j : Nat} (hi : waves i) (hj : others j) : i ≠ j := fun h => hd i hi (h ▸ hj)
  cases ha with
  | range =>
    intro m x m₁ y m₂ hm hm₁
    obtain ⟨hr, rfl⟩ := checkRange_eq_done_iff.mp hm
    refine ⟨m₂, m₂, hm₁, checkRange_eq_done_iff.mpr ⟨?_, rfl⟩, rfl⟩
    rwa [hb.size_eq hm₁]
  | load wave addr hw =>
    cases hb with
    | range =>
      intro m x m₁ y m₂ hm hm₁
      obtain ⟨hr, rfl⟩ := checkRange_eq_done_iff.mp hm₁
      have hload : MemoryStep size waves (SharedMemory.loadByte wave addr) := .load wave addr hw
      rw [hload.size_eq hm] at hr
      exact ⟨m, m₂, checkRange_eq_done_iff.mpr ⟨hr, rfl⟩, hm, rfl⟩
    | load =>
      exact (SharedMemory.describes_loadByte _ _).commutes
        (SharedMemory.describes_loadByte _ _) fun _ => CellStep.load_swaps_load _ _ _ _
    | store writer _ _ hw' =>
      exact (SharedMemory.describes_loadByte _ _).commutes
        (SharedMemory.describes_storeByte _ _ _) fun _ => CellStep.load_swaps_store (hne hw hw') _ _ _
  | store writer addr byte hw hl =>
    cases hb with
    | range =>
      intro m x m₁ y m₂ hm hm₁
      obtain ⟨hr, rfl⟩ := checkRange_eq_done_iff.mp hm₁
      rw [(MemoryStep.store writer addr byte hw hl).size_eq hm] at hr
      exact ⟨m, m₂, checkRange_eq_done_iff.mpr ⟨hr, rfl⟩, hm, rfl⟩
    | load wave' _ hw' =>
      exact (SharedMemory.describes_storeByte _ _ _).commutes
        (SharedMemory.describes_loadByte _ _) fun _ => CellStep.store_swaps_load (hne hw hw') _ _ _
    | store writer' _ _ hw' hl' =>
      refine (SharedMemory.describes_storeByte _ _ _).commutes
        (SharedMemory.describes_storeByte _ _ _) fun _ => CellStep.store_swaps_store ?_ _ _ _ _
      intro he
      exact hne hw hw' (by rw [← hl, ← hl', he])

end MemoryStep

namespace ResultStep

variable {a : Exec WorkgroupResult α}

theorem respects (h : ResultStep size waves a) : a.Respects WorkgroupResult.Alike := by
  intro r q x r' hrq hr
  cases h with
  | contribute c =>
    cases hr
    exact ⟨c.add q, rfl, c.add_alike hrq⟩
  | request space =>
    obtain ⟨hnone, a, ha, rfl⟩ := requestOnce_eq_done_iff.mp hr
    exact ⟨_, requestOnce_eq_done_iff.mpr ⟨hrq.allocation ▸ hnone, a, ha, rfl⟩, { hrq with allocation := rfl }⟩

theorem mono (h : ResultStep size waves a) (hw : ∀ wave, waves wave → others wave) : ResultStep size others a := by
  cases h with
  | contribute c hc =>
    exact .contribute c ⟨fun e he => hw _ (hc.1 e he), fun e he => hw _ (hc.2 e he)⟩
  | request space h => exact .request space (hw 0 h)

theorem commutes (hd : ∀ wave, waves wave → ¬ others wave)
    {b : Exec WorkgroupResult β} (ha : ResultStep size waves a) (hb : ResultStep size others b) :
    a.Commutes WorkgroupResult.Alike b := by
  intro r x r₁ y r₂ hr hr₁
  cases ha with
  | contribute c hc =>
    cases hr
    cases hb with
    | contribute d hd' =>
      cases hr₁
      exact ⟨d.add r, c.add (d.add r), rfl, rfl, Contribution.add_add_alike (fun lane => hd (lane / size)) hc hd' r⟩
    | request space =>
      obtain ⟨hnone, a, ha, rfl⟩ := requestOnce_eq_done_iff.mp hr₁
      exact ⟨_, _, requestOnce_eq_done_iff.mpr ⟨hnone, a, ha, rfl⟩, rfl, .refl _⟩
  | request space hw =>
    obtain ⟨hnone, a, ha, rfl⟩ := requestOnce_eq_done_iff.mp hr
    cases hb with
    | contribute d =>
      cases hr₁
      exact ⟨d.add r, _, rfl, requestOnce_eq_done_iff.mpr ⟨hnone, a, ha, rfl⟩, .refl _⟩
    | request space' hw' => exact absurd hw' (hd 0 hw)

end ResultStep

namespace WaveAction

variable {a : Exec Shared α}

/-- Waves cannot tell alike states apart. -/
theorem respects (h : WaveAction size waves a) : a.Respects Shared.Alike := by
  induction h with
  | quiet h => exact h.respects
  | memory _ => exact Shared.respects_onMemory _
  | result h => exact Shared.respects_inResult h.respects
  | bind _ _ iha ihk => exact iha.bind ihk
  | congr _ h ih =>
    intro s t x s' hst hs
    obtain ⟨t', ht, hst'⟩ := ih hst ((h ..).mp hs)
    exact ⟨t', (h ..).mpr ht, hst'⟩

/-- Barriers are counted when the waves meet, and nowhere else. -/
theorem barriers_eq (h : WaveAction size waves a) {s s' : Shared} {x : α}
    (ha : a s = .done x s') : s'.result.barriers = s.result.barriers := by
  induction h generalizing s s' with
  | quiet h => rw [(h ha).1]
  | memory _ =>
    obtain ⟨m, -, rfl⟩ := Shared.onMemory_eq_done_iff.mp ha
    rfl
  | result h =>
    obtain ⟨r, hr, rfl⟩ := Shared.inResult_eq_done_iff.mp ha
    cases h with
    | contribute c =>
      cases hr
      rfl
    | request space =>
      obtain ⟨-, a, -, rfl⟩ := requestOnce_eq_done_iff.mp hr
      rfl
  | bind _ _ iha ihk =>
    obtain ⟨y, t, hy, hx⟩ := Exec.bind_eq_done_iff.mp ha
    exact (ihk s y t hy hx).trans (iha hy)
  | congr _ h ih => exact ih ((h ..).mp ha)

/-- What some waves may do, more waves may do. -/
theorem mono (h : WaveAction size waves a) (hw : ∀ wave, waves wave → others wave) : WaveAction size others a := by
  induction h with
  | quiet h => exact .quiet h
  | memory h => exact .memory (h.mono hw)
  | result h => exact .result (h.mono hw)
  | bind _ _ iha ihk => exact .bind iha ihk
  | congr _ h ih => exact .congr ih h

/-- The actions of different waves commute. -/
theorem commutes (hd : ∀ wave, waves wave → ¬ others wave)
    {b : Exec Shared β} (ha : WaveAction size waves a) (hb : WaveAction size others b) : a.Commutes Shared.Alike b := by
  have trans (s t u : Shared) (h : s.Alike t) (h' : t.Alike u) : s.Alike u := h.trans h'
  -- First the first action is taken apart, then the second one against each of its steps.
  induction ha with
  | quiet h => exact h.commutes_left Shared.Alike.refl b
  | bind _ hk iha ihk =>
    exact iha.bind_left trans ihk fun s x s' h => (hk s x s' h).respects
  | congr _ h ih =>
    intro s x s₁ y s₂ hs hs₁
    obtain ⟨t₁, t₂, hb₁, ha₁, hst⟩ := ih ((h ..).mp hs) hs₁
    exact ⟨t₁, t₂, hb₁, (h ..).mpr ha₁, hst⟩
  | memory ha =>
    induction hb with
    | quiet h => exact h.commutes_right Shared.Alike.refl _
    | memory hb => exact Shared.commutes_onMemory (ha.commutes hd hb)
    | result _ => exact Shared.commutes_onMemory_inResult _ _
    | bind _ hk ihb ihk =>
      exact ihb.bind_right trans ihk fun s y s' h => (hk s y s' h).respects
    | congr _ h ih =>
      intro s x s₁ y s₂ hs hs₁
      obtain ⟨t₁, t₂, hb₁, ha₁, hst⟩ := ih hs ((h ..).mp hs₁)
      exact ⟨t₁, t₂, (h ..).mpr hb₁, ha₁, hst⟩
  | result ha =>
    induction hb with
    | quiet h => exact h.commutes_right Shared.Alike.refl _
    | memory _ => exact Shared.commutes_inResult_onMemory _ _
    | result hb => exact Shared.commutes_inResult (ha.commutes hd hb)
    | bind _ hk ihb ihk =>
      exact ihb.bind_right trans ihk fun s y s' h => (hk s y s' h).respects
    | congr _ h ih =>
      intro s x s₁ y s₂ hs hs₁
      obtain ⟨t₁, t₂, hb₁, ha₁, hst⟩ := ih hs ((h ..).mp hs₁)
      exact ⟨t₁, t₂, (h ..).mpr hb₁, ha₁, hst⟩

end WaveAction

end

end PrimitiveShader
