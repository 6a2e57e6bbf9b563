import Mathlib.Data.List.Forall2
import PrimitiveShader.Proofs.Schedule.Independence
import PrimitiveShader.Proofs.Wave.Ensures
import PrimitiveShader.Proofs.Wave.Lockstep

/-!
# Two runs side by side

What does not depend on the contents of memory is said of two runs of the same code. Their outcomes are
twins if both succeed in related states, or both end with the same error or fault (`Outcome.Twin`). Two waves
that take each operation side by side take their turns side by side (`Wave.turn_twin`).

To speak of a wave in the middle of its turn the code is cut off behind an operation (`Workgroup.cut`): a turn
goes through the cut code first, and on from there (`Wave.turn_eq_cut`).
-/

namespace PrimitiveShader

variable {σ α β : Type}

/-- Two values that are related, or one and the same error, in states with `E`, or one and the same fault. -/
def Outcome.Twin (E : σ → σ → Prop) (R : α → σ → α → σ → Prop) : Outcome σ α → Outcome σ α → Prop
  | .done a s, .done a' s' => R a s a' s'
  | .failed error s, .failed error' s' => error = error' ∧ E s s'
  | .faulted fault, .faulted fault' => fault = fault'
  | _, _ => False

namespace Outcome.Twin

variable {E : σ → σ → Prop} {R R' : α → σ → α → σ → Prop} {Q : β → σ → β → σ → Prop} {o o' : Outcome σ α} {s s' : σ}

/-- The ways in which two outcomes can be twins. -/
theorem elim (h : o.Twin E R o') : (∃ a t a' t', o = .done a t ∧ o' = .done a' t' ∧ R a t a' t') ∨
    (∃ error t t', o = .failed error t ∧ o' = .failed error t' ∧ E t t') ∨
    ∃ fault, o = .faulted fault ∧ o' = .faulted fault := by
  cases o <;> cases o' <;> first | exact False.elim h | skip
  case done.done => exact .inl ⟨_, _, _, _, rfl, rfl, h⟩
  case failed.failed =>
    obtain ⟨rfl, h⟩ := h
    exact .inr (.inl ⟨_, _, _, rfl, rfl, h⟩)
  case faulted.faulted =>
    obtain rfl : _ = _ := h
    exact .inr (.inr ⟨_, rfl, rfl⟩)

theorem mono (h : o.Twin E R o')
    (hR : ∀ a t a' t', o = .done a t → o' = .done a' t' → R a t a' t' → R' a t a' t') : o.Twin E R' o' := by
  cases o <;> cases o' <;> first | exact h | exact hR _ _ _ _ rfl rfl h

/-- Less is asked of the states behind an error. -/
theorem mono_errors {E' : σ → σ → Prop} (h : o.Twin E R o') (hE : ∀ t t', E t t' → E' t t') : o.Twin E' R o' := by
  cases o <;> cases o' <;> first | exact h | exact ⟨h.1, hE _ _ h.2⟩

/-- What is known of each of the two runs. -/
theorem and_ensures {F : Prop} {P P' : α → σ → Prop} (h : o.Twin E R o') (ho : o.Ensures F P)
    (ho' : o'.Ensures F P') : o.Twin E (fun a t a' t' => R a t a' t' ∧ P a t ∧ P' a' t') o' := by
  refine h.mono fun a t a' t' heq heq' hR => ?_
  rw [heq] at ho
  rw [heq'] at ho'
  exact ⟨hR, ho, ho'⟩

theorem bind {x x' : Exec σ α} {k k' : α → Exec σ β}
    (h : (x s).Twin E (fun a t a' t' => (k a t).Twin E Q (k' a' t')) (x' s')) :
    ((x >>= k) s).Twin E Q ((x' >>= k') s') := by
  rw [Exec.bind_apply, Exec.bind_apply]
  obtain ⟨a, t, a', t', hx, hx', h⟩ | ⟨error, t, t', hx, hx', h⟩ | ⟨fault, hx, hx'⟩ := h.elim <;> rw [hx, hx']
  · exact h
  · exact ⟨rfl, h⟩
  · rfl

/-- A computation that does not look at the state. -/
theorem lift {r : Except Fault α} (h : ∀ a, r = .ok a → R a s a s') :
    ((Exec.lift r : Exec σ α) s).Twin E R ((Exec.lift r : Exec σ α) s') := by
  cases r with
  | ok a => exact h a rfl
  | error fault => rfl

/-- A fold over a list, with a relation that knows which elements are done. -/
theorem foldlM {xs : List α} {f f' : β → α → Exec σ β} {I : List α → β → σ → β → σ → Prop}
    (h : ∀ before x after b s b' s', xs = before ++ x :: after → I before b s b' s' →
      (f b x s).Twin E (I (before ++ [x])) (f' b' x s')) {b b' : β} (hI : I [] b s b' s') :
    (xs.foldlM f b s).Twin E (I xs) (xs.foldlM f' b' s') := by
  induction xs generalizing b b' s s' I with
  | nil => exact hI
  | cons x rest ih =>
    rw [List.foldlM_cons, List.foldlM_cons]
    refine .bind ((h [] x rest b s b' s' rfl hI).mono fun b₁ t b₁' t' _ _ ht => ?_)
    exact ih (I := fun before => I (x :: before))
      (fun before y after b s b' s' hrest => h (x :: before) y after b s b' s' (by rw [hrest]; rfl)) ht

theorem refl (hE : ∀ t, E t t) (hR : ∀ a t, o = .done a t → R a t a t) : o.Twin E R o := by
  cases o with
  | done a t => exact hR a t rfl
  | failed error t => exact ⟨rfl, hE t⟩
  | faulted fault => rfl

/-- Something done for every element of a list, with a relation of states that each time keeps. -/
theorem forM {xs : List α} {f f' : α → Exec σ PUnit} {S : σ → σ → Prop}
    (h : ∀ x ∈ xs, ∀ s s', S s s' → (f x s).Twin E (fun _ t _ t' => S t t') (f' x s')) (hS : S s s') :
    (xs.forM f s).Twin E (fun _ t _ t' => S t t') (xs.forM f' s') := by
  induction xs generalizing s s' with
  | nil => exact hS
  | cons x rest ih =>
    change ((f x >>= fun _ => rest.forM f) s).Twin E _ ((f' x >>= fun _ => rest.forM f') s')
    exact .bind ((h x List.mem_cons_self s s' hS).mono fun _ t _ t' _ _ ht =>
      ih (fun y hy => h y (List.mem_cons_of_mem x hy)) ht)

end Outcome.Twin

/-- An outcome without its state. -/
def Outcome.answer : Outcome σ α → Except Fault (Except RunError α)
  | .done a _ => .ok (.ok a)
  | .failed error _ => .ok (.error error)
  | .faulted fault => .error fault

/-- The state that an outcome leaves, unless it is a fault. -/
def Outcome.state? : Outcome σ α → Option σ
  | .done _ s => some s
  | .failed _ s => some s
  | .faulted _ => none

/-- The same value, the same error or the same fault, in states with `S`. -/
def Outcome.Agree (S : σ → σ → Prop) (o o' : Outcome σ α) : Prop :=
  o.Twin S (fun a t a' t' => a' = a ∧ S t t') o'

namespace Outcome.Agree

variable {S : σ → σ → Prop} {o o' : Outcome σ α} {s s' : σ}

theorem bind {x x' : Exec σ α} {k k' : α → Exec σ β} (h : (x s).Agree S (x' s'))
    (hk : ∀ a t t', S t t' → (k a t).Agree S (k' a t')) : ((x >>= k) s).Agree S ((x' >>= k') s') := by
  refine Twin.bind (Twin.mono h ?_)
  rintro a t _ t' - - ⟨rfl, ht⟩
  exact hk _ t t' ht

/-- A computation that does not look at the state. -/
theorem lift (r : Except Fault α) (h : S s s') : ((Exec.lift r : Exec σ α) s).Agree S ((Exec.lift r : Exec σ α) s') :=
  Twin.lift fun _ _ => ⟨rfl, h⟩

/-- Something done for every element of a list. -/
theorem forM {xs : List α} {f f' : α → Exec σ PUnit}
    (h : ∀ x ∈ xs, ∀ s s', S s s' → (f x s).Agree S (f' x s')) (hS : S s s') : (xs.forM f s).Agree S (xs.forM f' s') :=
  (Twin.forM (fun x hx s s' hs => (h x hx s s' hs).mono fun _ _ _ _ _ _ ht => ht.2) hS).mono
    fun _ _ _ _ _ _ ht => ⟨rfl, ht⟩

theorem foldlM {xs : List α} {f f' : β → α → Exec σ β}
    (h : ∀ x ∈ xs, ∀ b s s', S s s' → (f b x s).Agree S (f' b x s')) {b : β} (hS : S s s') :
    (xs.foldlM f b s).Agree S (xs.foldlM f' b s') := by
  refine Twin.foldlM (I := fun _ b s b' s' => b' = b ∧ S s s') ?_ ⟨rfl, hS⟩
  rintro before x after b s _ s' rfl ⟨rfl, hs⟩
  exact h x (by simp) _ s s' hs

theorem answer_eq (h : o.Agree S o') : o'.answer = o.answer := by
  obtain ⟨a, t, _, t', rfl, rfl, rfl, -⟩ | ⟨error, t, t', rfl, rfl, -⟩ | ⟨fault, rfl, rfl⟩ := Twin.elim h <;> rfl

/-- What is the same of related states is the same of those that are left. -/
theorem state?_map_eq (h : o.Agree S o') {f : σ → β} (hf : ∀ s s', S s s' → f s' = f s) :
    o'.state?.map f = o.state?.map f := by
  obtain ⟨a, t, _, t', rfl, rfl, -, ht⟩ | ⟨error, t, t', rfl, rfl, ht⟩ | ⟨fault, rfl, rfl⟩ := Twin.elim h
  · exact congrArg some (hf t t' ht)
  · exact congrArg some (hf t t' ht)
  · rfl

end Outcome.Agree

/-! ## Waves that find the same -/

theorem Exec.forM_congr {xs : List α} {f g : α → Exec σ PUnit} (h : ∀ x ∈ xs, f x = g x) : xs.forM f = xs.forM g := by
  induction xs with
  | nil => rfl
  | cons x rest ih =>
    change (f x >>= fun _ => rest.forM f) = (g x >>= fun _ => rest.forM g)
    rw [h x List.mem_cons_self, ih fun y hy => h y (List.mem_cons_of_mem x hy)]

theorem foldlM_except_congr {xs : List α} {f g : β → α → Except Fault β} (h : ∀ x ∈ xs, ∀ b, f b x = g b x)
    (b : β) : xs.foldlM f b = xs.foldlM g b := by
  induction xs generalizing b with
  | nil => rfl
  | cons x rest ih =>
    rw [List.foldlM_cons, List.foldlM_cons, h x List.mem_cons_self]
    exact bind_congr fun b' => ih (fun y hy => h y (List.mem_cons_of_mem x hy)) b'

namespace Wave

variable {w w' : Wave} {v : Value} (hexec : w'.exec = w.exec)
  (hread : ∀ l ∈ w.exec.lanes, readRegister w'.lanes l v = readRegister w.lanes l v)
include hexec hread

theorem maskOf_congr : w'.maskOf v = w.maskOf v := by
  unfold maskOf
  rw [hexec]
  exact foldlM_except_congr (fun l hl mask => by rw [hread l hl]) _

theorem sumOf_congr : w'.sumOf v = w.sumOf v := by
  unfold sumOf
  rw [hexec]
  exact foldlM_except_congr (fun l hl sum => by rw [hread l hl]) _

theorem queryAdd_congr (stream : UInt8) : w'.queryAdd stream v = w.queryAdd stream v := by
  unfold queryAdd
  rw [hexec]
  exact Exec.forM_congr fun l hl => by rw [hread l hl]

end Wave

/-! ## Waves that differ in their lanes -/

/-- The lanes of two waves are related, one by one. -/
structure LanesRelate (R : Nat → Lane → Lane → Prop) (lanes lanes' : Array Lane) : Prop where
  count : lanes'.size = lanes.size
  lane : ∀ l lane lane', lanes[l]? = some lane → lanes'[l]? = some lane' → R l lane lane'

namespace LanesRelate

variable {l : Nat} {R : Nat → Lane → Lane → Prop} {lanes lanes' : Array Lane}

variable (h : LanesRelate R lanes lanes')
include h

/-- What is the same of two lanes that are related is the same of all lanes, also of those that do not exist. -/
theorem map_eq {β : Type} {f : Option Lane → β}
    (hf : ∀ lane lane', R l lane lane' → f (some lane') = f (some lane)) : f lanes'[l]? = f lanes[l]? := by
  by_cases hlt : l < lanes.size
  · have hlane := Array.getElem?_eq_getElem hlt
    have hlane' := Array.getElem?_eq_getElem (h.count.symm ▸ hlt : l < lanes'.size)
    rw [hlane, hlane']
    exact hf _ _ (h.lane l _ _ hlane hlane')
  · have hge := Nat.le_of_not_lt hlt
    rw [Array.getElem?_eq_none hge, Array.getElem?_eq_none (h.count.symm ▸ hge)]

theorem readRegister_eq {v : Value}
    (hread : ∀ lane lane', R l lane lane' → lane'.read v = lane.read v) :
    readRegister lanes' l v = readRegister lanes l v := by
  have hboth := h.map_eq (f := Option.map fun lane => lane.read v) (l := l) fun _ _ hR => congrArg some (hread _ _ hR)
  unfold readRegister
  cases hlane : lanes[l]? <;> cases hlane' : lanes'[l]? <;>
    simp only [hlane, hlane', Option.map_some, Option.map_none, reduceCtorEq, Option.some.injEq] at hboth ⊢
  exact hboth

end LanesRelate

/-- The waves stand at the same operation with the same lanes on, and the states of their lanes are related. -/
structure Wave.Relates (R : Nat → Lane → Lane → Prop) (w w' : Wave) : Prop where
  same : w' = { w with lanes := w'.lanes }
  lanes : LanesRelate R w.lanes w'.lanes

namespace Wave.Relates

variable {R : Nat → Lane → Lane → Prop} {w w' : Wave}

variable (h : w.Relates R w')
include h

theorem id_eq : w'.id = w.id := by rw [h.same]

theorem exec_eq : w'.exec = w.exec := by rw [h.same]

theorem pc_eq : w'.pc = w.pc := by rw [h.same]

/-- The waves go on at another operation. -/
theorem goto (pc : Nat) : ({ w with pc := pc } : Wave).Relates R { w' with pc := pc } :=
  ⟨by rw [h.same], h.lanes⟩

/-- A control operation does the same to both waves, if they find the same in the condition of a branch. -/
theorem steer {op : CodeOp}
    (hmask : ∀ cond elseAt, op = .branch cond elseAt → w'.maskOf cond = w.maskOf cond) :
    w'.steer op = (w.steer op).map fun u => { u with lanes := w'.lanes } := by
  rw [h.same] at hmask ⊢
  exact steer_withLanes hmask

theorem of_steer {op : CodeOp} {u u' : Wave}
    (hmask : ∀ cond elseAt, op = .branch cond elseAt → w'.maskOf cond = w.maskOf cond)
    (hu : w.steer op = .ok u) (hu' : w'.steer op = .ok u') : u.Relates R u' := by
  rw [h.steer hmask, hu] at hu'
  obtain rfl : { u with lanes := w'.lanes } = u' := Except.ok.inj hu'
  exact ⟨rfl, (lanes_of_steer hu).symm ▸ h.lanes⟩

end Wave.Relates

/-! ## Turns side by side -/

/-- Turns through the same code, operation by operation. -/
theorem Wave.turn_twin {group : Workgroup} {E : Shared → Shared → Prop}
    {J : Nat → Wave → Shared → Wave → Shared → Prop} {P : Wave → Shared → Wave → Shared → Prop}
    (hsame : ∀ {b w s w' s'}, J b w s w' s' → w'.pc = w.pc ∧ w'.id = w.id ∧ E s s' ∧ P w s w' s')
    (hstep : ∀ {b w s w' s' op}, group.executable.code[w.pc]? = some op → J (b + 1) w s w' s' →
      (w.step group op s).Twin E (fun p t p' t' => p'.2 = p.2 ∧ P p.1 t p'.1 t' ∧
        (p.2 = false → J b p.1 t p'.1 t')) (w'.step group op s')) {b : Nat} {w w' : Wave} {s s' : Shared}
    (h : J b w s w' s') : (w.turn group b s).Twin E (fun p t p' t' => p'.halt = p.halt ∧ p'.budget = p.budget ∧
      P p.wave t p'.wave t') (w'.turn group b s') := by
  induction b generalizing w w' s s' with
  | zero =>
    obtain ⟨hpc, hid, hE, hP⟩ := hsame h
    cases hop : group.executable.code[w.pc]? with
    | none =>
      rw [turn_of_code_eq_none hop, turn_of_code_eq_none (hpc ▸ hop)]
      exact ⟨rfl, rfl, hP⟩
    | some op =>
      rw [turn_zero hop, turn_zero (hpc ▸ hop), hid]
      exact ⟨rfl, hE⟩
  | succ b ih =>
    obtain ⟨hpc, -, -, hP⟩ := hsame h
    cases hop : group.executable.code[w.pc]? with
    | none =>
      rw [turn_of_code_eq_none hop, turn_of_code_eq_none (hpc ▸ hop)]
      exact ⟨rfl, rfl, hP⟩
    | some op =>
      rw [turn_succ hop, turn_succ (hpc ▸ hop)]
      refine .bind ((hstep hop h).mono ?_)
      rintro ⟨w₁, flag⟩ t ⟨w₁', flag'⟩ t' - - ⟨hflag, hP₁, hJ⟩
      obtain rfl : flag' = flag := hflag
      cases flag' with
      | true => exact ⟨rfl, rfl, hP₁⟩
      | false => exact ih (hJ rfl)

/-! ## Workgroups side by side -/

/-- Two waves at work that are related and have the same budget. -/
structure Runner.Beside (W : Wave → Wave → Prop) (r r' : Runner) : Prop where
  budget : r'.budget = r.budget
  wave : W r.wave r'.wave

/-- Two waves that have paused for the same reason. -/
structure Pause.Beside (W : Wave → Wave → Prop) (p p' : Pause) : Prop where
  halt : p'.halt = p.halt
  resume : p.resume.Beside W p'.resume

namespace Workgroup

variable {group : Workgroup} {E S : Shared → Shared → Prop} {W : Wave → Wave → Prop} {s s' : Shared}
  {pauses pauses' : List Pause} {runners runners' : List Runner}

theorem all_halt_of_beside (h : List.Forall₂ (Pause.Beside W) pauses pauses')
    (halt : Halt) : pauses'.all (·.halt = halt) = pauses.all (·.halt = halt) := by
  induction h with
  | nil => rfl
  | cons h _ ih => rw [List.all_cons, List.all_cons, h.halt, ih]

theorem resume_of_beside (h : List.Forall₂ (Pause.Beside W) pauses pauses') :
    List.Forall₂ (Runner.Beside W) (pauses.map Pause.resume) (pauses'.map Pause.resume) := by
  rw [List.forall₂_map_left_iff, List.forall₂_map_right_iff]
  exact h.imp fun _ _ => Pause.Beside.resume

/-- Waves that take each turn side by side take a sweep side by side. -/
theorem sweeping_twin (hturn : ∀ {b w s w' s'}, W w w' → S s s' → (w.turn group b s).Twin E
      (fun p t p' t' => p.Beside W p' ∧ S t t') (w'.turn group b s'))
    (h : List.Forall₂ (Runner.Beside W) runners runners') (hs : S s s') :
    (group.sweeping runners s).Twin E
      (fun ps t ps' t' => List.Forall₂ (Pause.Beside W) ps ps' ∧ S t t') (group.sweeping runners' s') := by
  induction h generalizing s s' with
  | nil => exact ⟨.nil, hs⟩
  | cons h _ ih =>
    rw [sweeping_cons, sweeping_cons, h.budget]
    refine .bind ((hturn h.wave hs).mono fun p t p' t' _ _ ⟨hp, ht⟩ => ?_)
    exact .bind ((ih ht).mono fun ps u ps' u' _ _ ⟨hps, hu⟩ => ⟨.cons hp hps, hu⟩)

/-- Waves that stand at a barrier side by side, having met as often, go on side by side. -/
theorem meeting_twin {Q : Unit → Shared → Unit → Shared → Prop} (hcount : s'.result.barriers = s.result.barriers)
    (h : (group.rounds runners s.meet).Twin E Q (group.rounds runners' s'.meet)) :
    (group.meeting runners s).Twin E Q (group.meeting runners' s') := by
  unfold meeting
  rw [hcount]
  split
  · exact h
  · rfl

/-- Waves that take each turn side by side, with a relation of what they share that barriers keep, do so to
their end. -/
theorem rounds_twin (hcount : ∀ {s s'}, S s s' → s'.result.barriers = s.result.barriers)
    (hmeet : ∀ {s s'}, S s s' → S s.meet s'.meet)
    (hturn : ∀ {b w s w' s'}, W w w' → S s s' → (w.turn group b s).Twin S
      (fun p t p' t' => p.Beside W p' ∧ S t t') (w'.turn group b s'))
    (h : List.Forall₂ (Runner.Beside W) runners runners') (hs : S s s') :
    (group.rounds runners s).Twin S (fun _ t _ t' => S t t') (group.rounds runners' s') := by
  induction hn : totalBudget runners using Nat.strongRecOn generalizing runners runners' s s' with
  | ind n ih =>
    subst hn
    rw [rounds_eq, rounds_eq]
    refine .bind ((sweeping_twin hturn h hs).mono fun ps t ps' t' hsweep _ ⟨hps, ht⟩ => ?_)
    unfold afterSweep
    rw [all_halt_of_beside hps, all_halt_of_beside hps]
    split
    · exact ht
    · split
      · rename_i hf hb
        exact meeting_twin (hcount ht)
          (ih _ (totalBudget_resume_lt hsweep hf hb) (resume_of_beside hps) (hmeet ht) rfl)
      · exact ⟨rfl, ht⟩

end Workgroup

/-! ## Code that is cut off -/

/-- The workgroup with the code before operation `stop` only. -/
def Workgroup.cut (group : Workgroup) (stop : Nat) : Workgroup :=
  { group with executable := { group.executable with code := group.executable.code.take stop } }

theorem Wave.step_cut (group : Workgroup) (stop : Nat) (w : Wave) (op : CodeOp) :
    w.step (group.cut stop) op = w.step group op := rfl

theorem Workgroup.code_cut (group : Workgroup) (stop pc : Nat) :
    (group.cut stop).executable.code[pc]? = if pc < stop then group.executable.code[pc]? else none := by
  change (group.executable.code.extract 0 stop)[pc]? = _
  rw [Array.getElem?_extract, Nat.zero_add, Nat.sub_zero]
  by_cases hstop : pc < stop
  · by_cases hsize : pc < group.executable.code.size
    · rw [if_pos (Nat.lt_min.mpr ⟨hstop, hsize⟩), if_pos hstop]
    · rw [if_neg fun hlt => hsize (Nat.lt_min.mp hlt).2, if_pos hstop, Array.getElem?_eq_none (Nat.le_of_not_lt hsize)]
  · rw [if_neg fun hlt => hstop (Nat.lt_min.mp hlt).1, if_neg hstop]

/-- A turn goes through the code before operation `stop`, and on from there unless it meets a barrier. -/
theorem Wave.turn_eq_cut (group : Workgroup) (stop budget : Nat) (w : Wave) :
    w.turn group budget = w.turn (group.cut stop) budget >>= fun p =>
      match p.halt with
      | .finished => p.wave.turn group p.budget
      | .barrier => pure p := by
  induction budget generalizing w with
  | zero =>
    cases hop : (group.cut stop).executable.code[w.pc]? with
    | none => rw [turn_of_code_eq_none hop, pure_bind]
    | some op =>
      rw [turn_zero hop]
      rw [Workgroup.code_cut] at hop
      split at hop
      · rw [turn_zero hop]
        rfl
      · cases hop
  | succ budget ih =>
    cases hop : (group.cut stop).executable.code[w.pc]? with
    | none => rw [turn_of_code_eq_none hop, pure_bind]
    | some op =>
      rw [turn_succ hop, bind_assoc]
      rw [Workgroup.code_cut] at hop
      split at hop
      · rw [turn_succ hop, step_cut]
        refine bind_congr fun p => ?_
        obtain ⟨w', flag⟩ := p
        cases flag with
        | true => rfl
        | false => exact ih w'
      · cases hop

end PrimitiveShader
