import Mathlib.Algebra.Ring.Nat
import PrimitiveShader.Executor.ComputeUnit

/-!
# States that no wave can tell apart

Two orders of the same waves do not lead to the same state: the exports of different lanes are mixed
differently. `Shared.Alike` relates states that differ in nothing else. It is an equivalence, a barrier
keeps it (`Shared.Alike.meet`), and at the end of a workgroup alike states give the same result
(`WorkgroupResult.Alike.finish_eq`).
-/

namespace PrimitiveShader

/-! ## Results -/

/-- The exports of one lane, in the order in which they were made. -/
def exportsOf {α : Type} (exports : Array (Nat × α)) (lane : Nat) : List (Nat × α) :=
  exports.toList.filter fun (l, _) => l = lane

theorem exportsOf_append {α : Type} (a b : Array (Nat × α)) (lane : Nat) :
    exportsOf (a ++ b) lane = exportsOf a lane ++ exportsOf b lane := by
  simp [exportsOf]

theorem exportsOf_eq_nil {α : Type} {a : Array (Nat × α)} {lane : Nat}
    (h : ∀ entry ∈ a, entry.1 ≠ lane) : exportsOf a lane = [] := by
  simpa [exportsOf] using fun l x hx => h (l, x) hx

/-- Exports are empty when no lane has any. -/
theorem isEmpty_of_exportsOf {α : Type} {a b : Array (Nat × α)}
    (h : ∀ lane, exportsOf a lane = exportsOf b lane) (ha : a.isEmpty) : b.isEmpty := by
  have ha' : a = #[] := by simpa using ha
  have hnone : ∀ entry, entry ∉ b := by
    rintro ⟨lane, x⟩ hx
    have hmem : (lane, x) ∈ exportsOf b lane := by simpa [exportsOf] using hx
    rw [← h lane] at hmem
    simp [exportsOf, ha'] at hmem
  simpa using Array.eq_empty_iff_forall_not_mem.mpr hnone

/-- Results that agree in everything but how the exports of different lanes are mixed. -/
structure WorkgroupResult.Alike (r q : WorkgroupResult) : Prop where
  allocation : r.allocation = q.allocation
  primitives : ∀ lane, exportsOf r.primitives lane = exportsOf q.primitives lane
  vertices : ∀ lane, exportsOf r.vertices lane = exportsOf q.vertices lane
  queryCounters : r.queryCounters = q.queryCounters
  barriers : r.barriers = q.barriers
  sharedLoads : r.sharedLoads = q.sharedLoads
  sharedStores : r.sharedStores = q.sharedStores

namespace WorkgroupResult.Alike

theorem refl (r : WorkgroupResult) : r.Alike r :=
  ⟨rfl, fun _ => rfl, fun _ => rfl, rfl, rfl, rfl, rfl⟩

theorem trans {r q t : WorkgroupResult} (h : r.Alike q) (h' : q.Alike t) : r.Alike t :=
  ⟨h.allocation.trans h'.allocation, fun lane => (h.primitives lane).trans (h'.primitives lane),
    fun lane => (h.vertices lane).trans (h'.vertices lane),
    h.queryCounters.trans h'.queryCounters, h.barriers.trans h'.barriers,
    h.sharedLoads.trans h'.sharedLoads, h.sharedStores.trans h'.sharedStores⟩

theorem hasExports_eq {r q : WorkgroupResult} (h : r.Alike q) : r.hasExports = q.hasExports := by
  have hp : r.primitives.isEmpty = q.primitives.isEmpty := Bool.eq_iff_iff.mpr
    ⟨isEmpty_of_exportsOf h.primitives, isEmpty_of_exportsOf fun lane => (h.primitives lane).symm⟩
  have hv : r.vertices.isEmpty = q.vertices.isEmpty := Bool.eq_iff_iff.mpr
    ⟨isEmpty_of_exportsOf h.vertices, isEmpty_of_exportsOf fun lane => (h.vertices lane).symm⟩
  simp only [WorkgroupResult.hasExports, hp, hv]

/-- Sorting by lanes forgets how the exports of different lanes were mixed. -/
theorem inLaneOrder_eq {α : Type} {a b : Array (Nat × α)}
    (h : ∀ lane, exportsOf a lane = exportsOf b lane) (numLanes : Nat) :
    inLaneOrder numLanes a = inLaneOrder numLanes b := by
  have hf : exportsOf a = exportsOf b := funext h
  change ((List.range numLanes).flatMap (exportsOf a)).toArray = ((List.range numLanes).flatMap (exportsOf b)).toArray
  rw [hf]

/-- Alike results are finished in the same way. -/
theorem finish_eq {r q : WorkgroupResult} (h : r.Alike q) (numLanes : Nat) : r.finish numLanes = q.finish numLanes := by
  have he := h.hasExports_eq
  have hp := inLaneOrder_eq h.primitives numLanes
  have hv := inLaneOrder_eq h.vertices numLanes
  simp only [WorkgroupResult.finish, he, hp, hv, h.allocation, h.queryCounters, h.barriers,
    h.sharedLoads, h.sharedStores]

end WorkgroupResult.Alike

/-! ## Everything that waves share -/

/-- States that no wave can tell apart. -/
structure Shared.Alike (s t : Shared) : Prop where
  memory : s.memory = t.memory
  result : s.result.Alike t.result

namespace Shared.Alike

theorem refl (s : Shared) : s.Alike s := ⟨rfl, .refl _⟩

theorem trans {s t u : Shared} (h : s.Alike t) (h' : t.Alike u) : s.Alike u :=
  ⟨h.memory.trans h'.memory, h.result.trans h'.result⟩

theorem meet {s t : Shared} (h : s.Alike t) : s.meet.Alike t.meet where
  memory := congrArg SharedMemory.sync h.memory
  result :=
    { h.result with
      barriers := by simp only [Shared.meet, h.result.barriers] }

end Shared.Alike

end PrimitiveShader
