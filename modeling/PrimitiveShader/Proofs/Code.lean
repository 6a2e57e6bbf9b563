import PrimitiveShader.Executor.Code

/-!
# Flat code can be read back

Flat code keeps the whole tree of its block: reading the operations one after the other, with a stack of the
branches and loops that have begun, gives the block again (`Block.ofCode?_code`). The targets say the same as the
nesting of the operations. `CodeOp.mark?` finds the mark that belongs to an operation by counting what is begun
and ended behind it, and that mark is the target, or the place where the target is named
(`Block.mark?_of_linked`).
-/

namespace PrimitiveShader

/-! ## Reading code -/

/-- A branch or a loop that has begun, with the nodes in front of it. -/
inductive Begun where
  | thenSide (before : Block) (cond : Value)
  | elseSide (before : Block) (cond : Value) (thenBlock : Block)
  | loop (before : Block)

/-- Reads operations, given what has begun, innermost first, and the nodes of the innermost block so far. -/
def CodeOp.readOn : List CodeOp → List Begun → Block → Option Block
  | [], [], nodes => some nodes
  | .instr value :: rest, begun, nodes => readOn rest begun (nodes ++ [.instr value])
  | .branch cond _ :: rest, begun, nodes => readOn rest (.thenSide nodes cond :: begun) []
  | .otherwise _ :: rest, .thenSide before cond :: begun, nodes => readOn rest (.elseSide before cond nodes :: begun) []
  | .endBranch :: rest, .elseSide before cond thenBlock :: begun, nodes =>
    readOn rest begun (before ++ [.branch cond thenBlock nodes])
  | .loop :: rest, begun, nodes => readOn rest (.loop nodes :: begun) []
  | .leave :: rest, begun, nodes => readOn rest begun (nodes ++ [.leave])
  | .endLoop _ :: rest, .loop before :: begun, nodes => readOn rest begun (before ++ [.loop nodes])
  | _, _, _ => none

/-- The block that flat code is made of. -/
def Block.ofCode? (ops : List CodeOp) : Option Block := CodeOp.readOn ops [] []

mutual

theorem Node.readOn_code : ∀ (node : Node) (start : Nat) (rest : List CodeOp) (begun : List Begun) (nodes : Block),
    CodeOp.readOn (node.code start ++ rest) begun nodes = CodeOp.readOn rest begun (nodes ++ [node])
  | .instr _, _, _, _, _ | .leave, _, _, _, _ => by simp [Node.code, CodeOp.readOn]
  | .branch cond thenBlock elseBlock, start, rest, begun, nodes => by
    simp [Node.code, CodeOp.readOn, Block.readOn_code thenBlock, Block.readOn_code elseBlock]
  | .loop body, start, rest, begun, nodes => by
    simp [Node.code, CodeOp.readOn, Block.readOn_code body]

/-- Behind the code of a block the block has been read. -/
theorem Block.readOn_code : ∀ (block : Block) (start : Nat) (rest : List CodeOp) (begun : List Begun) (nodes : Block),
    CodeOp.readOn (Block.code start block ++ rest) begun nodes = CodeOp.readOn rest begun (nodes ++ block)
  | [], _, _, _, nodes => by simp [Block.code]
  | node :: others, start, rest, begun, nodes => by
    simp [Block.code, Node.readOn_code node, Block.readOn_code others]

end

theorem Block.ofCode?_code (start : Nat) (block : Block) : Block.ofCode? (Block.code start block) = some block := by
  have h := Block.readOn_code block start [] [] []
  rw [List.append_nil] at h
  exact h

/-- The instruction that an operation runs. -/
def CodeOp.value? : CodeOp → Option Value
  | .instr value => some value
  | _ => none

mutual

theorem Node.filterMap_value?_code : ∀ (node : Node) (start : Nat),
    (node.code start).filterMap CodeOp.value? = node.values
  | .instr _, _ | .leave, _ => rfl
  | .branch cond thenBlock elseBlock, start => by
    simp [Node.code, Node.values, List.filterMap_cons, CodeOp.value?, Block.filterMap_value?_code thenBlock,
      Block.filterMap_value?_code elseBlock]
  | .loop body, start => by
    simp [Node.code, Node.values, List.filterMap_cons, CodeOp.value?, Block.filterMap_value?_code body]

/-- The instructions of flat code are those of the block, in their order. -/
theorem Block.filterMap_value?_code : ∀ (block : Block) (start : Nat),
    (Block.code start block).filterMap CodeOp.value? = Block.values block
  | [], _ => rfl
  | node :: rest, start => by
    simp [Block.code, Block.values, Node.filterMap_value?_code node, Block.filterMap_value?_code rest]

end

/-! ## Marks -/

namespace CodeOp

variable {op : CodeOp} {ops : List CodeOp}

/-- Whether the operation ends a block. -/
@[simp]
def ends : CodeOp → Bool
  | .otherwise _ | .endBranch | .endLoop _ => true
  | _ => false

/-- How deep the operation behind this one lies. -/
@[simp]
def inside (depth : Nat) : CodeOp → Nat
  | .branch _ _ | .loop => depth + 1
  | .endBranch | .endLoop _ => depth - 1
  | _ => depth

/-- How many operations stand in front of the first mark that lies `depth` levels further out. -/
def toMark : Nat → List CodeOp → Option Nat
  | _, [] => none
  | depth, op :: rest => if depth = 0 ∧ op.ends then some 0 else (toMark (op.inside depth) rest).map (· + 1)

/-- The first mark behind operation `i` that does not belong to a branch or a loop which begins behind it as
well. -/
def mark? (ops : List CodeOp) (i : Nat) : Option Nat := (toMark 0 (ops.drop (i + 1))).map (i + 1 + ·)

/-- Whether something begins with the operation. -/
def begins : CodeOp → Bool
  | .branch _ _ | .otherwise _ | .loop => true
  | _ => false

/-- The targets name `j` at operation `i`, or `i` at the end `j` of a loop. -/
def Linked (ops : List CodeOp) (i j : Nat) : Prop :=
  (∃ cond, ops[i]? = some (.branch cond j)) ∨ ops[i]? = some (.otherwise j) ∨ ops[j]? = some (.endLoop i)

/-- A mark that is not the first operation is a mark of the operations behind it. -/
theorem exists_of_toMark_cons {rest : List CodeOp} {depth n : Nat}
    (h : toMark depth (op :: rest) = some n) (hskip : ¬ (depth = 0 ∧ op.ends)) :
    ∃ n', toMark (op.inside depth) rest = some n' ∧ n = n' + 1 := by
  rw [toMark, if_neg hskip] at h
  obtain ⟨n', hn', rfl⟩ := Option.map_eq_some_iff.mp h
  exact ⟨n', hn', rfl⟩

/-- From further in there is a mark that comes earlier. -/
theorem toMark_lt {depth inner n : Nat} (h : toMark depth ops = some n)
    (hlt : inner < depth) : ∃ m < n, toMark inner ops = some m := by
  induction ops generalizing depth inner n with
  | nil => cases h
  | cons op rest ih =>
    obtain ⟨n, hn, rfl⟩ := exists_of_toMark_cons h (by omega)
    by_cases hend : inner = 0 ∧ op.ends
    · exact ⟨0, Nat.succ_pos n, by rw [toMark, if_pos hend]⟩
    · have hinside : op.inside inner < op.inside depth := by
        cases op <;> simp at hend ⊢ <;> omega
      obtain ⟨m, hm, hmark⟩ := ih hn hinside
      exact ⟨m + 1, Nat.succ_lt_succ hm, by rw [toMark, if_neg hend, hmark]; rfl⟩

/-- What begins in front of a mark has a mark of its own in front of it. -/
theorem toMark_drop_lt {depth n k : Nat} (h : toMark depth ops = some n)
    (hk : ops[k]? = some op) (hlt : k < n) (hop : op.begins) :
    ∃ m, toMark 0 (ops.drop (k + 1)) = some m ∧ k + 1 + m < n := by
  induction ops generalizing depth n k with
  | nil => cases h
  | cons first rest ih =>
    have hskip : ¬ (depth = 0 ∧ first.ends) := by
      intro hend
      rw [toMark, if_pos hend] at h
      cases h
      cases hlt
    obtain ⟨n, hn, rfl⟩ := exists_of_toMark_cons h hskip
    cases k with
    | zero =>
      cases hk
      have hinside : 0 < op.inside depth := by
        cases op <;> simp [begins] at hskip hop ⊢
        omega
      obtain ⟨m, hm, hmark⟩ := toMark_lt hn hinside
      exact ⟨m, hmark, by omega⟩
    | succ k =>
      obtain ⟨m, hmark, hm⟩ := ih hn hk (Nat.lt_of_succ_lt_succ hlt)
      exact ⟨m, hmark, by omega⟩

/-- Marks nest. -/
theorem mark?_lt_of_inside {i j i' j' : Nat} (h : mark? ops i = some j)
    (h' : mark? ops i' = some j') (hop : ops[i']? = some op) (hbegins : op.begins) (hlt : i < i') (hlt' : i' < j) :
    j' < j := by
  obtain ⟨n, hn, rfl⟩ := Option.map_eq_some_iff.mp h
  obtain ⟨k, rfl⟩ := Nat.exists_eq_add_of_lt hlt
  obtain ⟨m, hm, hmn⟩ := toMark_drop_lt hn (k := k)
    (by rw [List.getElem?_drop, ← hop]; congr 1; omega) (by omega) hbegins
  obtain ⟨m', hm', rfl⟩ := Option.map_eq_some_iff.mp h'
  rw [List.drop_drop, show i + 1 + (k + 1) = i + k + 1 + 1 by omega, hm'] at hm
  cases hm
  omega

end CodeOp

mutual

theorem Node.toMark_code : ∀ (node : Node) (start depth : Nat) (rest : List CodeOp),
    CodeOp.toMark depth (node.code start ++ rest) = (CodeOp.toMark depth rest).map (· + (node.code start).length)
  | .instr _, _, _, _ | .leave, _, _, _ => by simp [Node.code, CodeOp.toMark]
  | .branch cond thenBlock elseBlock, start, depth, rest => by
    simp only [Node.code, List.cons_append, List.nil_append, List.append_assoc, CodeOp.toMark,
      Block.toMark_code thenBlock, Block.toMark_code elseBlock]
    cases hrest : CodeOp.toMark depth rest <;> simp [hrest]
    omega
  | .loop body, start, depth, rest => by
    simp only [Node.code, List.cons_append, List.nil_append, List.append_assoc, CodeOp.toMark, Block.toMark_code body]
    cases hrest : CodeOp.toMark depth rest <;> simp [hrest]
    omega

/-- All marks in the code of a block belong to operations of the block. -/
theorem Block.toMark_code : ∀ (block : Block) (start depth : Nat) (rest : List CodeOp),
    CodeOp.toMark depth (Block.code start block ++ rest) =
      (CodeOp.toMark depth rest).map (· + (Block.code start block).length)
  | [], _, _, _ => by simp [Block.code]
  | node :: nodes, start, depth, rest => by
    simp only [Block.code, List.append_assoc, Node.toMark_code node, Block.toMark_code nodes]
    cases CodeOp.toMark depth rest <;> simp
    omega

end

/-! ## Targets -/

/-- Operation `n` stands where it belongs, with `before` in front of it and `after` behind it: its target is the
place behind the code of a block, or the place in front of it. -/
def CodeOp.Fits (n : Nat) (before after : List CodeOp) : CodeOp → Prop
  | .branch _ elseAt => ∃ thenBlock endAt rest, after = Block.code (n + 1) thenBlock ++ .otherwise endAt :: rest ∧
      elseAt = n + 1 + (Block.code (n + 1) thenBlock).length
  | .otherwise endAt => ∃ elseBlock rest, after = Block.code (n + 1) elseBlock ++ .endBranch :: rest ∧
      endAt = n + 1 + (Block.code (n + 1) elseBlock).length
  | .endLoop loopAt => ∃ front body, before = front ++ .loop :: Block.code (loopAt + 1) body ∧
      n = loopAt + 1 + (Block.code (loopAt + 1) body).length
  | _ => True

/-- All of the operations stand where they belong. -/
def CodeOp.Fitting : Nat → (before ops after : List CodeOp) → Prop
  | _, _, [], _ => True
  | n, before, op :: ops, after => op.Fits n before (ops ++ after) ∧ Fitting (n + 1) (before ++ [op]) ops after

namespace CodeOp.Fitting

variable {n : Nat} {before after : List CodeOp}

theorem append {a b : List CodeOp} (ha : Fitting n before a (b ++ after))
    (hb : Fitting (n + a.length) (before ++ a) b after) : Fitting n before (a ++ b) after := by
  induction a generalizing n before with
  | nil => simpa using hb
  | cons op ops ih =>
    refine ⟨by simpa using ha.1, ih ha.2 ?_⟩
    rwa [List.append_assoc, List.singleton_append, Nat.add_assoc, Nat.add_comm 1]

theorem fits {ops : List CodeOp} (h : Fitting n before ops after) {i : Nat} {op : CodeOp} (hop : ops[i]? = some op) :
    op.Fits (n + i) (before ++ ops.take i) (ops.drop (i + 1) ++ after) := by
  induction ops generalizing n before i with
  | nil => cases hop
  | cons first rest ih =>
    cases i with
    | zero =>
      cases hop
      simpa using h.1
    | succ i =>
      have := ih h.2 hop
      rwa [List.append_assoc, Nat.add_assoc, Nat.add_comm 1] at this

end CodeOp.Fitting

mutual

theorem Node.fitting_code : ∀ (node : Node) (start : Nat) (before after : List CodeOp),
    CodeOp.Fitting start before (node.code start) after
  | .instr _, _, _, _ | .leave, _, _, _ => ⟨trivial, trivial⟩
  | .branch cond thenBlock elseBlock, start, before, after => by
    simp only [Node.code, List.cons_append, List.append_assoc]
    refine ⟨⟨thenBlock, _, _, by rw [List.append_assoc, List.cons_append], rfl⟩,
      .append (Block.fitting_code thenBlock _ _ _) ?_⟩
    exact ⟨⟨elseBlock, after, by simp, rfl⟩, .append (Block.fitting_code elseBlock _ _ _) ⟨trivial, trivial⟩⟩
  | .loop body, start, before, after => by
    simp only [Node.code, List.cons_append]
    refine ⟨trivial, .append (Block.fitting_code body _ _ _) ⟨⟨before, body, by simp, rfl⟩, trivial⟩⟩

/-- The code of a block fits, whatever stands around it. -/
theorem Block.fitting_code : ∀ (block : Block) (start : Nat) (before after : List CodeOp),
    CodeOp.Fitting start before (Block.code start block) after
  | [], _, _, _ => trivial
  | node :: rest, start, _, _ => .append (Node.fitting_code node start _ _) (Block.fitting_code rest _ _ _)

end

namespace Block

variable {block : Block} {i j : Nat}

/-- A branch names its own `else` mark. -/
theorem mark?_of_branch {cond : Value} (h : (code 0 block)[i]? = some (.branch cond j)) :
    CodeOp.mark? (code 0 block) i = some j ∧ ∃ endAt, (code 0 block)[j]? = some (.otherwise endAt) := by
  have hfits := (fitting_code block 0 [] []).fits h
  rw [Nat.zero_add, List.append_nil] at hfits
  obtain ⟨thenBlock, endAt, rest, hrest, rfl⟩ := hfits
  constructor
  · rw [CodeOp.mark?, hrest, toMark_code]
    simp [CodeOp.toMark]
  · refine ⟨endAt, ?_⟩
    rw [← List.getElem?_drop, hrest, List.getElem?_append_right (Nat.le_refl _), Nat.sub_self]
    rfl

/-- An `else` mark names its own end. -/
theorem mark?_of_otherwise (h : (code 0 block)[i]? = some (.otherwise j)) :
    CodeOp.mark? (code 0 block) i = some j ∧ (code 0 block)[j]? = some .endBranch := by
  have hfits := (fitting_code block 0 [] []).fits h
  rw [Nat.zero_add, List.append_nil] at hfits
  obtain ⟨elseBlock, rest, hrest, rfl⟩ := hfits
  constructor
  · rw [CodeOp.mark?, hrest, toMark_code]
    simp [CodeOp.toMark]
  · rw [← List.getElem?_drop, hrest, List.getElem?_append_right (Nat.le_refl _), Nat.sub_self]
    rfl

/-- The end of a loop names the beginning of its own loop. -/
theorem mark?_of_endLoop (h : (code 0 block)[j]? = some (.endLoop i)) :
    CodeOp.mark? (code 0 block) i = some j ∧ (code 0 block)[i]? = some .loop := by
  obtain ⟨front, body, hfront, hj⟩ := (fitting_code block 0 [] []).fits h
  obtain ⟨hlt, hget⟩ := List.getElem?_eq_some_iff.mp h
  rw [Nat.zero_add] at hj
  rw [List.nil_append] at hfront
  have hi : front.length = i := by
    have hlen := congrArg List.length hfront
    rw [List.length_take_of_le (Nat.le_of_lt hlt), List.length_append, List.length_cons] at hlen
    omega
  have hcode : code 0 block =
      front ++ .loop :: (code (i + 1) body ++ .endLoop i :: (code 0 block).drop (j + 1)) := by
    have hsplit := List.take_append_drop j (code 0 block)
    rw [List.drop_eq_getElem_cons hlt, hget, hfront, List.append_assoc, List.cons_append] at hsplit
    exact hsplit.symm
  constructor
  · rw [CodeOp.mark?, hcode, List.drop_append, ← hi, List.drop_eq_nil_of_le (Nat.le_succ _), Nat.add_sub_cancel_left,
      List.nil_append, List.drop_succ_cons, List.drop_zero, toMark_code, hi]
    simp [CodeOp.toMark, hj]
  · rw [hcode, List.getElem?_append_right (Nat.le_of_eq hi), hi, Nat.sub_self]
    rfl

/-- Targets lead from an operation with which something begins to its mark. -/
theorem mark?_of_linked (h : CodeOp.Linked (code 0 block) i j) : CodeOp.mark? (code 0 block) i = some j ∧
    ∃ op, (code 0 block)[i]? = some op ∧ op.begins := by
  obtain ⟨cond, h⟩ | h | h := h
  · exact ⟨(mark?_of_branch h).1, _, h, rfl⟩
  · exact ⟨(mark?_of_otherwise h).1, _, h, rfl⟩
  · exact ⟨(mark?_of_endLoop h).1, _, (mark?_of_endLoop h).2, rfl⟩

/-- Flat code loses nothing of its block. The block can be read back from it, so no other block has the same
code. The target of a branch is its own `else` mark, the target of an `else` mark its own end, and the end of a
loop names its own beginning; these pairs are properly nested. The instructions are those of the block, in their
order. -/
theorem code_loses_nothing (block : Block) :
    ofCode? (code 0 block) = some block ∧ (∀ other, code 0 other = code 0 block → other = block) ∧
    (∀ i cond elseAt, (code 0 block)[i]? = some (.branch cond elseAt) →
      CodeOp.mark? (code 0 block) i = some elseAt ∧ ∃ endAt, (code 0 block)[elseAt]? = some (.otherwise endAt)) ∧
    (∀ i endAt, (code 0 block)[i]? = some (.otherwise endAt) →
      CodeOp.mark? (code 0 block) i = some endAt ∧ (code 0 block)[endAt]? = some .endBranch) ∧
    (∀ i loopAt, (code 0 block)[i]? = some (.endLoop loopAt) →
      CodeOp.mark? (code 0 block) loopAt = some i ∧ (code 0 block)[loopAt]? = some .loop) ∧
    (∀ i j i' j', CodeOp.Linked (code 0 block) i j → CodeOp.Linked (code 0 block) i' j' →
      i < j ∧ (i < i' → i' < j → j' < j)) ∧
    (code 0 block).filterMap CodeOp.value? = values block := by
  refine ⟨ofCode?_code 0 block, fun other h => ?_, fun _ _ _ => mark?_of_branch, fun _ _ => mark?_of_otherwise,
    fun _ _ => mark?_of_endLoop, fun i j i' j' h h' => ?_, filterMap_value?_code block 0⟩
  · have hread := ofCode?_code 0 other
    rw [h, ofCode?_code] at hread
    exact (Option.some.inj hread).symm
  · obtain ⟨hmark, -⟩ := mark?_of_linked h
    obtain ⟨hmark', op, hop, hbegins⟩ := mark?_of_linked h'
    refine ⟨?_, CodeOp.mark?_lt_of_inside hmark hmark' hop hbegins⟩
    obtain ⟨n, -, rfl⟩ := Option.map_eq_some_iff.mp hmark
    omega

end Block

end PrimitiveShader
