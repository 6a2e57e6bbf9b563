import Mathlib.Algebra.Ring.Nat
import Mathlib.Data.List.Rotate
import PrimitiveShader.Strip

/-!
# Strips as lists of primitives

A strip of `n` vertices stands for a list of separate primitives (`Strip.listed`): the points, the lines between
neighbours, or the triangles of three vertices in a row. The flags of the vertices and the indices of each
vertex that completes a primitive give this list, for strips of any length and wherever the strip begins
(`Strip.primitives_eq_listed`). In it the provoking vertex has its place, and the triangles of a strip all wind
alike: two neighbours run through the edge that they share in opposite directions.
-/

namespace PrimitiveShader

namespace PrimitiveFlags

theorem completesPrimitive_ofVertex (topology : Topology) (before : UInt32) :
    (ofVertex topology before).completesPrimitive = decide (topology.vertexCount - 1 ≤ before.toNat) := by
  simp only [ofVertex]
  by_cases hcompletes : topology.vertexCount - 1 ≤ before.toNat
  · rw [if_pos hcompletes, decide_eq_true hcompletes]
    split <;> rfl
  · rw [if_neg hcompletes, decide_eq_false hcompletes]
    split <;> rfl

/-- Only the vertices of a triangle strip are marked as odd. -/
theorem isOdd_ofVertex (topology : Topology) (before : UInt32) :
    (ofVertex topology before).isOdd = decide (topology = .triangles ∧ before.toNat % 2 = 1) := by
  have hbit : before &&& 1 ≠ 0 ↔ before.toNat % 2 = 1 := by
    have htoNat : (before &&& 1).toNat = before.toNat % 2 := Nat.and_one_is_mod _
    rw [Ne, ← UInt32.toNat_inj, htoNat, UInt32.toNat_zero]
    omega
  simp only [ofVertex, hbit]
  by_cases hodd : topology = .triangles ∧ before.toNat % 2 = 1
  · rw [if_pos hodd, decide_eq_true hodd]
    split <;> rfl
  · rw [if_neg hodd, decide_eq_false hodd]
    split <;> rfl

end PrimitiveFlags

namespace Strip

variable {topology : Topology} {provoking : ProvokingVertex} {base n : Nat}

/-- The vertices of a strip that complete a primitive, by the number of vertices ahead of them. -/
def completing (topology : Topology) (n : Nat) : List Nat :=
  (List.range n).filter fun i => (PrimitiveFlags.ofVertex topology (.ofNat i)).completesPrimitive

/-- The primitives of a strip of `n` vertices, the first of which has rank `base`. -/
def primitives (topology : Topology) (provoking : ProvokingVertex) (base n : Nat) : List (List UInt32) :=
  (completing topology n).map fun i =>
    vertexIndices topology (.ofNat (base + i)) (PrimitiveFlags.ofVertex topology (.ofNat i)).isOdd provoking

/-- Primitive `k` of the list that a strip stands for. Of the three vertices `k`, `k + 1` and `k + 2` of an odd
triangle the two that do not provoke are swapped. -/
def listed : Topology → ProvokingVertex → Nat → List Nat
  | .points, _, k => [k]
  | .lines, _, k => [k, k + 1]
  | .triangles, .first, k => [k, k + 1 + k % 2, k + 2 - k % 2]
  | .triangles, .last, k => [k + k % 2, k + 1 - k % 2, k + 2]

/-- The vertex that provokes primitive `k` of a strip. -/
def provokingVertex (topology : Topology) (k : Nat) : ProvokingVertex → Nat
  | .first => k
  | .last => k + topology.vertexCount - 1

/-- The edges of a primitive, each in the direction in which the primitive runs through it. -/
def edges (primitive : List Nat) : List (Nat × Nat) := primitive.zip (primitive.rotate 1)

/-- Two primitives have an edge in common and run through no edge in the same direction. -/
structure WindAlike (first second : List Nat) : Prop where
  share : ∃ u v, (u, v) ∈ edges first ∧ (v, u) ∈ edges second
  disjoint : (edges first).Disjoint (edges second)

theorem toNat_ofNat {a : Nat} (ha : a < 2 ^ 32) : (UInt32.ofNat a).toNat = a := UInt32.toNat_ofNat_of_lt' ha

/-! ## Completing vertices -/

/-- All vertices but the first few complete a primitive. -/
theorem completing_eq (hn : n ≤ 2 ^ 32) : completing topology n =
    (List.range (n + 1 - topology.vertexCount)).map (topology.vertexCount - 1 + ·) := by
  have hcount : 1 ≤ topology.vertexCount := by cases topology <;> decide
  have hfilter : completing topology n = (List.range n).filter (topology.vertexCount - 1 ≤ ·) := by
    refine List.filter_congr fun i hi => ?_
    have hi := List.mem_range.mp hi
    rw [PrimitiveFlags.completesPrimitive_ofVertex, toNat_ofNat (by omega)]
  rw [hfilter]
  by_cases hshort : n < topology.vertexCount
  · rw [show n + 1 - topology.vertexCount = 0 by omega]
    refine List.filter_eq_nil_iff.mpr fun i hi => ?_
    have hi := List.mem_range.mp hi
    simp only [decide_eq_true_eq]
    omega
  · obtain ⟨m, rfl⟩ : ∃ m, n = topology.vertexCount - 1 + m := ⟨n - (topology.vertexCount - 1), by omega⟩
    have hskip : (List.range (topology.vertexCount - 1)).filter (topology.vertexCount - 1 ≤ ·) = [] := by
      refine List.filter_eq_nil_iff.mpr fun i hi => ?_
      have hi := List.mem_range.mp hi
      simp only [decide_eq_true_eq]
      omega
    rw [List.range_add, List.filter_append, hskip, List.nil_append,
      show topology.vertexCount - 1 + m + 1 - topology.vertexCount = m by omega]
    refine List.filter_eq_self.mpr fun i hi => ?_
    obtain ⟨j, -, rfl⟩ := List.mem_map.mp hi
    exact decide_eq_true (Nat.le_add_right _ _)

/-! ## Indices -/

theorem toNat_ofNat_sub {a b : Nat} (hb : b ≤ a) (ha : a < 2 ^ 32) :
    (UInt32.ofNat a - UInt32.ofNat b).toNat = a - b := by
  have hle : UInt32.ofNat b ≤ UInt32.ofNat a := by
    rwa [UInt32.le_iff_toNat_le, toNat_ofNat ha, toNat_ofNat (by omega)]
  rw [UInt32.toNat_sub_of_le _ _ hle, toNat_ofNat ha, toNat_ofNat (by omega)]

/-- The last vertex of primitive `k` names the vertices of the list. -/
theorem vertexIndices_eq_listed {k : Nat} (hk : base + (topology.vertexCount - 1 + k) < 2 ^ 32) :
    (vertexIndices topology (.ofNat (base + (topology.vertexCount - 1 + k)))
        (PrimitiveFlags.ofVertex topology (.ofNat (topology.vertexCount - 1 + k))).isOdd provoking).map UInt32.toNat =
      (listed topology provoking k).map (base + ·) := by
  rw [PrimitiveFlags.isOdd_ofVertex, toNat_ofNat (by omega)]
  cases topology with
  | points =>
    simp only [Topology.vertexCount] at hk
    simp only [vertexIndices, listed, Topology.vertexCount, List.map_cons, List.map_nil,
      toNat_ofNat hk, List.cons.injEq, and_true]
    omega
  | lines =>
    simp only [Topology.vertexCount] at hk
    have hback : (UInt32.ofNat (base + (2 - 1 + k)) - 1).toNat = base + (2 - 1 + k) - 1 :=
      toNat_ofNat_sub (b := 1) (by omega) hk
    simp only [vertexIndices, listed, Topology.vertexCount, List.map_cons, List.map_nil,
      toNat_ofNat hk, hback, List.cons.injEq, and_true]
    omega
  | triangles =>
    simp only [Topology.vertexCount] at hk
    have hback₁ : (UInt32.ofNat (base + (3 - 1 + k)) - 1).toNat = base + (3 - 1 + k) - 1 :=
      toNat_ofNat_sub (b := 1) (by omega) hk
    have hback₂ : (UInt32.ofNat (base + (3 - 1 + k)) - 2).toNat = base + (3 - 1 + k) - 2 :=
      toNat_ofNat_sub (b := 2) (by omega) hk
    -- Vertex `k + 2` is at an odd place just if triangle `k` is an odd one.
    have hodd : decide (Topology.triangles = .triangles ∧ (Topology.triangles.vertexCount - 1 + k) % 2 = 1) =
        decide (k % 2 = 1) := by
      simp only [Topology.vertexCount, true_and, decide_eq_decide]
      omega
    rw [hodd]
    rcases Nat.mod_two_eq_zero_or_one k with hparity | hparity <;> cases provoking <;>
    · simp only [vertexIndices, listed, Topology.vertexCount, hparity, Nat.zero_ne_one, decide_true, decide_false,
        List.map_cons, List.map_nil, toNat_ofNat hk, hback₁, hback₂, List.cons.injEq, and_true]
      omega

/-- The primitives of a strip are those of the list, moved to where the strip begins. -/
theorem map_primitives (h : base + n ≤ 2 ^ 32) : (primitives topology provoking base n).map (·.map UInt32.toNat) =
      (List.range (n + 1 - topology.vertexCount)).map fun k => (listed topology provoking k).map (base + ·) := by
  rw [primitives, completing_eq (by omega), List.map_map, List.map_map]
  refine List.map_congr_left fun k hk => ?_
  have hcount : 1 ≤ topology.vertexCount := by cases topology <;> decide
  have hk := List.mem_range.mp hk
  exact vertexIndices_eq_listed (by omega)

/-! ## Provoking vertices and winding -/

theorem listed_index (k : Nat) :
    (listed topology provoking k)[provoking.index topology]? = some (provokingVertex topology k provoking) := by
  cases topology <;> cases provoking <;> rfl

/-- Whatever the convention, an even triangle runs through its vertices in the order of the strip and an odd one
against it. -/
theorem listed_isRotated (provoking : ProvokingVertex) (k : Nat) :
    listed .triangles provoking k ~r if k % 2 = 0 then [k, k + 1, k + 2] else [k + 1, k, k + 2] := by
  rcases Nat.mod_two_eq_zero_or_one k with hparity | hparity
  · rw [if_pos hparity]
    cases provoking <;> simp only [listed, hparity] <;> exact .refl _
  · rw [if_neg (by omega)]
    cases provoking with
    | first =>
      simp only [listed, hparity]
      exact ⟨2, rfl⟩
    | last =>
      simp only [listed, hparity]
      exact .refl _

/-- Where a primitive begins does not change which edges it has. -/
theorem mem_edges_of_isRotated {a b : List Nat} (h : a ~r b) (edge : Nat × Nat) : edge ∈ edges a ↔ edge ∈ edges b := by
  obtain ⟨m, rfl⟩ := h
  have hedges : edges (a.rotate m) = (edges a).rotate m := by
    rw [edges, edges, List.rotate_rotate, Nat.add_comm m 1, ← List.rotate_rotate]
    exact (List.zipWith_rotate_distrib Prod.mk a (a.rotate 1) m (List.length_rotate a 1).symm).symm
  rw [hedges, List.mem_rotate]

theorem mem_edges_triangle {a b c : Nat} {edge : Nat × Nat} :
    edge ∈ edges [a, b, c] ↔ edge = (a, b) ∨ edge = (b, c) ∨ edge = (c, a) := by
  simp [edges]

/-- Neighbouring triangles of a strip wind alike. -/
theorem listed_windAlike (provoking : ProvokingVertex) (k : Nat) :
    WindAlike (listed .triangles provoking k) (listed .triangles provoking (k + 1)) := by
  have hfirst := mem_edges_of_isRotated (listed_isRotated provoking k)
  have hsecond := mem_edges_of_isRotated (listed_isRotated provoking (k + 1))
  rcases Nat.mod_two_eq_zero_or_one k with hparity | hparity
  · rw [if_pos hparity] at hfirst
    rw [if_neg (by omega)] at hsecond
    simp only [mem_edges_triangle] at hfirst hsecond
    refine ⟨⟨k + 1, k + 2, (hfirst _).mpr (by simp), (hsecond _).mpr (by simp)⟩, ?_⟩
    intro edge ha hb
    rcases (hfirst edge).mp ha with rfl | rfl | rfl <;>
    · have hb := (hsecond _).mp hb
      simp only [Prod.mk.injEq] at hb
      omega
  · rw [if_neg (by omega)] at hfirst
    rw [if_pos (by omega)] at hsecond
    simp only [mem_edges_triangle] at hfirst hsecond
    refine ⟨⟨k + 2, k + 1, (hfirst _).mpr (by simp), (hsecond _).mpr (by simp)⟩, ?_⟩
    intro edge ha hb
    rcases (hfirst edge).mp ha with rfl | rfl | rfl <;>
    · have hb := (hsecond _).mp hb
      simp only [Prod.mk.injEq] at hb
      omega

/-- A strip of `n` vertices from rank `base` on is exported as the list of primitives that it stands for. Just
the vertices with enough others ahead of them complete a primitive, and the primitives are those of the list,
none if the strip is too short for one. In each of them the provoking vertex stands where the convention puts it.
The triangles wind as the first three vertices of the strip do. -/
theorem primitives_eq_listed (topology : Topology) (provoking : ProvokingVertex) (base n : Nat)
    (h : base + n ≤ 2 ^ 32) : (∀ i < n, (PrimitiveFlags.ofVertex topology (.ofNat i)).completesPrimitive = true ↔
      topology.vertexCount - 1 ≤ i) ∧ (primitives topology provoking base n).map (·.map UInt32.toNat) =
      ((List.range (n + 1 - topology.vertexCount)).map fun k =>
        (listed topology provoking k).map (base + ·)) ∧
    (∀ k, (listed topology provoking k)[provoking.index topology]? = some (provokingVertex topology k provoking)) ∧
    (topology = .triangles → listed topology provoking 0 = [0, 1, 2] ∧
      ∀ k, WindAlike (listed topology provoking k) (listed topology provoking (k + 1))) := by
  refine ⟨fun i hi => ?_, map_primitives h, listed_index, ?_⟩
  · rw [PrimitiveFlags.completesPrimitive_ofVertex, toNat_ofNat (by omega), decide_eq_true_iff]
  · rintro rfl
    refine ⟨by cases provoking <;> rfl, listed_windAlike provoking⟩

/-- Four vertices at the very end of the ranks are two triangles, the second of which is an odd one. -/
theorem primitives_eq_listed_atEnd : 4294967292 + 4 ≤ 2 ^ 32 ∧
    (primitives .triangles .last 4294967292 4).map (·.map UInt32.toNat) =
      [[4294967292, 4294967293, 4294967294], [4294967294, 4294967293, 4294967295]] :=
  ⟨by decide, (primitives_eq_listed .triangles .last 4294967292 4 (by decide)).2.1⟩

end Strip

end PrimitiveShader
