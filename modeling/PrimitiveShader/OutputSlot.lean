/-!
# Output slots

An output of a vertex is addressed by a slot, a component of it and the vertex stream it belongs
to. Tables over slots are association lists in ascending order of the slots, which an update keeps
(`sorted_update`). An update changes the entry of its slot and no other.
-/

namespace PrimitiveShader

/-- The place of one output component. -/
structure OutputSlot where
  slot : UInt8
  component : UInt8
  stream : UInt8
deriving DecidableEq, Repr

namespace OutputSlot

/-- The slot of the vertex position. -/
def position : UInt8 := 0

/-- The slot of the primitive number. -/
def primitiveId : UInt8 := 2

/-- The first slot of the generic outputs. -/
def generic : UInt8 := 32

/-- Slots are ordered by slot, then component, then stream. -/
def key (o : OutputSlot) : Nat :=
  o.slot.toNat * 65536 + o.component.toNat * 256 + o.stream.toNat

/-- Different slots have different keys. -/
theorem key_injective {o p : OutputSlot} (h : o.key = p.key) : o = p := by
  obtain ⟨a, b, c⟩ := o
  obtain ⟨a', b', c'⟩ := p
  have := a.toNat_lt
  have := a'.toNat_lt
  have := b.toNat_lt
  have := b'.toNat_lt
  have := c.toNat_lt
  have := c'.toNat_lt
  simp only [key] at h
  simp only [OutputSlot.mk.injEq, ← UInt8.toNat_inj]
  omega

/-- The text of a slot. -/
def text (o : OutputSlot) : String :=
  s!"IoSlot \x7b slot: {o.slot.toNat}, component: {o.component.toNat}, stream: {o.stream.toNat} \x7d"

end OutputSlot

/-- A table over output slots, in ascending order of the slots. -/
abbrev SlotTable (α : Type) := List (OutputSlot × α)

namespace SlotTable

variable {α : Type}

/-- The entry of a slot. -/
def find? (table : SlotTable α) (slot : OutputSlot) : Option α := table.lookup slot

/-- Sets the entry of a slot to what `f` makes of the present one. -/
def update (slot : OutputSlot) (f : Option α → α) : SlotTable α → SlotTable α
  | [] => [(slot, f none)]
  | (s, a) :: rest =>
    if s = slot then (s, f (some a)) :: rest
    else if slot.key < s.key then (slot, f none) :: (s, a) :: rest
    else (s, a) :: update slot f rest

/-- Sets the entry of a slot. -/
def insert (table : SlotTable α) (slot : OutputSlot) (a : α) : SlotTable α :=
  update slot (fun _ => a) table

/-- The slots of a table ascend. -/
def Sorted (table : SlotTable α) : Prop := table.Pairwise fun a b => a.1.key < b.1.key

theorem find?_cons (entry : OutputSlot × α) (table : SlotTable α) (slot : OutputSlot) :
    find? (entry :: table) slot = if slot = entry.1 then some entry.2 else find? table slot := by
  unfold find?
  by_cases h : slot = entry.1
  · rw [h, if_pos rfl, List.lookup_cons_self]
  · have hb : (slot == entry.1) = false := beq_false_of_ne h
    rw [if_neg h, List.lookup_cons, hb]

theorem find?_eq_none_of_lt {table : SlotTable α} {slot : OutputSlot}
    (h : ∀ entry ∈ table, slot.key < entry.1.key) : find? table slot = none := by
  induction table with
  | nil => rfl
  | cons entry rest ih =>
    have hne : slot ≠ entry.1 := fun he => absurd (h entry (by simp)) (by simp [he])
    rw [find?_cons, if_neg hne]
    exact ih fun e he => h e (by simp [he])

/-- An update leaves the entries of other slots alone. -/
theorem find?_update_of_ne (table : SlotTable α) {slot s : OutputSlot} (f : Option α → α)
    (h : s ≠ slot) : find? (update slot f table) s = find? table s := by
  induction table with
  | nil => simp [update, find?_cons, h]
  | cons entry rest ih =>
    unfold update
    split
    · rename_i he
      simp [find?_cons, he, h]
    · split
      · rw [find?_cons, if_neg h]
      · rw [find?_cons, find?_cons, ih]

/-- What an update makes of the entry of its own slot. -/
theorem find?_update_self {table : SlotTable α} (hs : table.Sorted) (slot : OutputSlot)
    (f : Option α → α) : find? (update slot f table) slot = some (f (find? table slot)) := by
  induction table with
  | nil => simp [update, find?]
  | cons entry rest ih =>
    obtain ⟨hlt, hrest⟩ := List.pairwise_cons.mp hs
    unfold update
    split
    · rename_i he
      simp [find?_cons, he]
    · rename_i hne
      split
      · rename_i hk
        have hnone : find? (entry :: rest) slot = none :=
          find?_eq_none_of_lt fun e he => by
            rcases List.mem_cons.mp he with rfl | he
            · exact hk
            · exact Nat.lt_trans hk (hlt e he)
        rw [find?_cons, if_pos rfl, hnone]
      · simp [find?_cons, Ne.symm hne, ih hrest]

theorem mem_update {table : SlotTable α} {slot : OutputSlot} {f : Option α → α}
    {entry : OutputSlot × α} (h : entry ∈ update slot f table) : entry ∈ table ∨ entry.1 = slot := by
  induction table with
  | nil =>
    obtain rfl : entry = (slot, f none) := by simpa [update] using h
    exact .inr rfl
  | cons e rest ih =>
    unfold update at h
    split at h
    · rename_i he
      rcases List.mem_cons.mp h with rfl | h
      · exact .inr he
      · exact .inl (List.mem_cons_of_mem _ h)
    · split at h
      · rcases List.mem_cons.mp h with rfl | h
        · exact .inr rfl
        · exact .inl h
      · rcases List.mem_cons.mp h with rfl | h
        · exact .inl (by simp)
        · exact (ih h).imp_left (List.mem_cons_of_mem _)

/-- An update keeps a table in order. -/
theorem sorted_update {table : SlotTable α} (hs : table.Sorted) (slot : OutputSlot)
    (f : Option α → α) : (update slot f table).Sorted := by
  induction table with
  | nil => simp [update, Sorted]
  | cons e rest ih =>
    obtain ⟨hlt, hrest⟩ := List.pairwise_cons.mp hs
    unfold update
    split
    · exact List.pairwise_cons.mpr ⟨hlt, hrest⟩
    · rename_i hne
      split
      · rename_i hk
        refine List.pairwise_cons.mpr ⟨fun x hx => ?_, hs⟩
        rcases List.mem_cons.mp hx with rfl | hx
        · exact hk
        · exact Nat.lt_trans hk (hlt x hx)
      · rename_i hk
        refine List.pairwise_cons.mpr ⟨fun x hx => ?_, ih hrest⟩
        rcases mem_update hx with hx | hx
        · exact hlt x hx
        · have hkey : e.1.key ≠ slot.key := fun h => hne (OutputSlot.key_injective h)
          show e.1.key < x.1.key
          rw [hx]
          omega

theorem find?_insert {table : SlotTable α} (hs : table.Sorted) (slot s : OutputSlot) (a : α) :
    (table.insert slot a).find? s = if s = slot then some a else table.find? s := by
  by_cases h : s = slot
  · simp [insert, h, find?_update_self hs]
  · simp [insert, h, find?_update_of_ne]

end SlotTable

end PrimitiveShader
