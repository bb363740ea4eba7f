import ImpWasm.Proofs.Outcome
import ImpWasm.Proofs.Wasm.Code
import ImpWasm.Wasm.Validator
set_option autoImplicit false

namespace ImpWasm.Wasm

namespace Validator

variable {v w u : Validator} {f : Frame} {h k j : Nat}

/-- Frames stand on each other, and the innermost one stands inside the stack. -/
structure Layered (v : Validator) : Prop where
  heights : (v.frames.map Frame.height).Pairwise (· ≥ ·)
  floor : v.floor ≤ v.operands.length

def below (v : Validator) (h : Nat) : List Operand := v.operands.reverse.take h

theorem below_le (same : u.below k = v.below k) (hk : h ≤ k) : u.below h = v.below h := by
  have cut := congrArg (List.take h) same
  simpa [below, List.take_take, Nat.min_eq_left hk] using cut

theorem below_append (ops : List Operand) {rest : List Operand} (hv : v.operands = ops ++ rest) (hu : u.operands = rest)
    (hk : h ≤ rest.length) : v.below h = u.below h := by
  rw [below, below, hv, hu, List.reverse_append, List.take_append_of_le_length (by simpa using hk)]

theorem layered_start (results : List ValType) : (start results).Layered := ⟨List.pairwise_singleton _ _, Nat.le.refl⟩

theorem Layered.height_le (hv : v.Layered) (hf : f ∈ v.frames) : f.height ≤ v.floor := by
  obtain ⟨operands, frames, position⟩ := v
  cases frames with
  | nil => cases hf
  | cons g outer =>
    obtain rfl | hf := List.mem_cons.1 hf
    · exact Nat.le.refl
    · exact (List.pairwise_cons.1 hv.heights).1 _ (List.mem_map_of_mem hf)

/-- The frame with so many frames around it keeps its height, and everything below it stays. -/
def Protects (v u : Validator) (j : Nat) : Prop :=
  ∀ f, v.frames.reverse[j]? = some f → ∃ g, u.frames.reverse[j]? = some g ∧ g.height = f.height ∧
    u.below f.height = v.below f.height

theorem Protects.trans (h : v.Protects w j) (k : w.Protects u j) : v.Protects u j := by
  intro f hf
  obtain ⟨g, hg, same, kept⟩ := h f hf
  obtain ⟨e, he, same', kept'⟩ := k g hg
  rw [same] at same' kept'
  exact ⟨e, he, same', kept'.trans kept⟩

/-- The same heights, and the same operands below the innermost of them. -/
structure Steady (v u : Validator) : Prop where
  heights : u.frames.map Frame.height = v.frames.map Frame.height
  floor : v.floor ≤ u.operands.length
  below : u.below v.floor = v.below v.floor

theorem floor_eq (v : Validator) : v.floor = (v.frames.map Frame.height).head?.getD 0 := by
  obtain ⟨operands, frames, position⟩ := v
  cases frames <;> rfl

theorem Steady.floor_eq (h : v.Steady u) : u.floor = v.floor := by
  rw [u.floor_eq, v.floor_eq, h.heights]

theorem Steady.refl (hv : v.Layered) : v.Steady v := ⟨rfl, hv.floor, rfl⟩

theorem Steady.trans (h : v.Steady w) (k : w.Steady u) : v.Steady u where
  heights := k.heights.trans h.heights
  floor := h.floor_eq ▸ k.floor
  below := (h.floor_eq ▸ k.below).trans h.below

theorem Steady.layered (h : v.Steady u) (hv : v.Layered) : u.Layered where
  heights := h.heights ▸ hv.heights
  floor := h.floor_eq ▸ h.floor

theorem Steady.protects (h : v.Steady u) (hv : v.Layered) (j : Nat) : v.Protects u j := by
  intro f hf
  have heights : (u.frames.reverse[j]?).map Frame.height = (v.frames.reverse[j]?).map Frame.height := by
    rw [← List.getElem?_map, ← List.getElem?_map, List.map_reverse, List.map_reverse, h.heights]
  rw [hf] at heights
  obtain ⟨g, hg, same⟩ := Option.map_eq_some_iff.1 heights
  have inside : f ∈ v.frames := List.mem_reverse.1 (List.mem_of_getElem? hf)
  exact ⟨g, hg, same, below_le h.below (hv.height_le inside)⟩

/-- What a frame that is open before and after keeps, and that the frames still stand on each other. -/
structure Guards (v u : Validator) : Prop where
  layered : u.Layered
  protects : ∀ j, j < v.frames.length → j < u.frames.length → v.Protects u j

theorem Steady.guards (h : v.Steady u) (hv : v.Layered) : v.Guards u := ⟨h.layered hv, fun j _ _ => h.protects hv j⟩

theorem Steady.length_eq (h : v.Steady u) : u.frames.length = v.frames.length := by
  simpa using congrArg List.length h.heights

theorem Steady.before (h : v.Steady w) (hv : v.Layered) (k : w.Guards u) : v.Guards u where
  layered := k.layered
  protects j hj hu := (h.protects hv j).trans (k.protects j (h.length_eq ▸ hj) hu)

theorem Guards.after (h : v.Guards w) (k : w.Steady u) : v.Guards u where
  layered := k.layered h.layered
  protects j hj hu := (h.protects j hj (k.length_eq ▸ hu)).trans (k.protects h.layered j)

theorem Layered.opens (hv : v.Layered) {ops : List Operand} (hf : f.height = v.operands.length) :
    v.Guards { v with operands := ops ++ v.operands, frames := f :: v.frames } where
  layered := by
    refine ⟨List.pairwise_cons.2 ⟨?_, hv.heights⟩, ?_⟩
    · intro k hk
      obtain ⟨g, hg, rfl⟩ := List.mem_map.1 hk
      have low := hv.height_le hg
      have top := hv.floor
      omega
    · show f.height ≤ (ops ++ v.operands).length
      simp [hf]
  protects j hj _ g hg := by
    have inside : g ∈ v.frames := List.mem_reverse.1 (List.mem_of_getElem? hg)
    have low := hv.height_le inside
    have top := hv.floor
    refine ⟨g, ?_, rfl, below_append _ rfl rfl (by omega)⟩
    rw [List.reverse_cons, List.getElem?_append_left (by simpa using hj), hg]

theorem Layered.closes (hv : v.Layered) {outer : List Frame} (hf : v.frames = f :: outer) (hw : v.Steady w) :
    v.Guards { w with frames := outer } where
  layered := by
    have heights := hv.heights
    rw [hf, List.map_cons, List.pairwise_cons] at heights
    refine ⟨heights.2, ?_⟩
    cases outer with
    | nil => exact Nat.zero_le _
    | cons g outer => exact Nat.le_trans (hv.height_le (by simp [hf])) hw.floor
  protects j _ hu g hg := by
    have inside : g ∈ v.frames := List.mem_reverse.1 (List.mem_of_getElem? hg)
    refine ⟨g, ?_, rfl, below_le hw.below (hv.height_le inside)⟩
    rw [hf, List.reverse_cons, List.getElem?_append_left (by simpa using hu)] at hg
    exact hg

end Validator

namespace Check

open Validator

variable {α β : Type} {ctx : Context} {v : Validator}

/-- The check opens and closes no frame and touches nothing below the innermost one, also if it fails. -/
def Steadily (m : Check α) : Prop := ∀ v : Validator, v.Layered → v.Steady (outcome m v).2

theorem Steadily.bind {m : Check α} {f : α → Check β} (hm : m.Steadily) (hf : ∀ a, (f a).Steadily) :
    (m >>= f).Steadily := by
  intro v hv
  have first := hm v hv
  rw [outcome_bind]
  rcases ho : outcome m v with ⟨e | a, w⟩
  · rwa [ho] at first
  · rw [ho] at first
    exact first.trans (hf a w (first.layered hv))

theorem steadily_get_bind {f : Validator → Check β} (h : ∀ v : Validator, v.Layered → v.Steady (outcome (f v) v).2) :
    (get >>= f).Steadily := by
  intro v hv
  rw [outcome_bind_ok outcome_get]
  exact h v hv

theorem steadily_pure (a : α) : (pure a : Check α).Steadily := fun _ => .refl

theorem steadily_throw (e : ValidationError) : (throw e : Check α).Steadily := fun _ => .refl

theorem Steadily.discard {m : Check α} (h : m.Steadily) : (discard m).Steadily := h.bind fun _ => steadily_pure _

theorem steadily_forM {xs : List α} {f : α → Check PUnit} (h : ∀ x, (f x).Steadily) : (xs.forM f).Steadily := by
  induction xs with
  | nil => exact steadily_pure _
  | cons x xs ih => exact (h x).bind fun _ => ih

theorem steadily_push (o : Operand) : (push o).Steadily := by
  intro v hv
  have top := hv.floor
  exact ⟨rfl, Nat.le_succ_of_le top, below_append [o] rfl rfl top⟩

theorem steadily_pop : pop.Steadily := by
  refine steadily_get_bind fun v hv => ?_
  have top := hv.floor
  obtain ⟨operands, frames, position⟩ := v
  split
  · split
    · exact .refl hv
    · exact .refl hv
  · rename_i above
    cases operands with
    | nil => exact .refl hv
    | cons o rest =>
      -- the floor is not at the top, so it is inside what is left
      simp only [List.length_cons] at top above
      have inside : floor ⟨o :: rest, frames, position⟩ ≤ rest.length := by omega
      exact ⟨rfl, inside, (below_append [o] rfl rfl inside).symm⟩

theorem steadily_popExpected (t : ValType) : (popExpected t).Steadily := by
  refine steadily_pop.bind fun o => ?_
  cases o with
  | unknown => exact steadily_pure _
  | known s =>
    simp only
    split
    · exact steadily_pure _
    · exact steadily_throw _

theorem steadily_popAll (ts : List ValType) : (popAll ts).Steadily :=
  steadily_forM fun t => (steadily_popExpected t).discard

theorem steadily_pushAll (ts : List ValType) : (pushAll ts).Steadily := steadily_forM fun t => steadily_push (.known t)

theorem steadily_setUnreachable : setUnreachable.Steadily := by
  intro v hv
  obtain ⟨operands, frames, position⟩ := v
  cases frames with
  | nil => exact .refl hv
  | cons f outer =>
    have top : f.height ≤ operands.length := hv.floor
    have left : operands.length - (operands.length - f.height) = f.height := by omega
    refine ⟨rfl, ?_, ?_⟩
    · show f.height ≤ (operands.drop (operands.length - f.height)).length
      simp [left]
    · show (operands.drop (operands.length - f.height)).reverse.take f.height = operands.reverse.take f.height
      rw [List.reverse_drop, left, List.take_take, Nat.min_self]

theorem steadily_label (depth : UInt32) : (label depth).Steadily := by
  refine steadily_get_bind fun v hv => ?_
  split
  · exact .refl hv
  · exact .refl hv

theorem steadily_local (i : UInt32) : (local? ctx i).Steadily := by
  unfold local?
  split
  · exact steadily_pure _
  · exact steadily_throw _

theorem steadily_global (i : UInt32) : (global? ctx i).Steadily := by
  unfold global?
  split
  · exact steadily_pure _
  · exact steadily_throw _

theorem steadily_join (a b : Operand) : (join a b).Steadily := by
  unfold join
  split
  · split
    · exact steadily_pure _
    · exact steadily_throw _
  · exact steadily_pure _
  · exact steadily_pure _

theorem steadily_enter (offset : Nat) : (enter offset).Steadily := by
  refine steadily_get_bind fun v hv => ?_
  split
  · exact .refl hv
  · exact ⟨rfl, hv.floor, rfl⟩

theorem outcome_pushAll (ts : List ValType) (v : Validator) :
    outcome (pushAll ts) v = (.ok ⟨⟩, { v with operands := (ts.map Operand.known).reverse ++ v.operands }) := by
  induction ts generalizing v with
  | nil => rfl
  | cons t ts ih =>
    have rest := ih { v with operands := .known t :: v.operands }
    have first : outcome (push (.known t)) v = (.ok ⟨⟩, { v with operands := .known t :: v.operands }) := rfl
    change outcome (push (.known t) >>= fun _ => pushAll ts) v = _
    rw [outcome_bind_ok first, rest]
    simp

theorem outcome_pushFrame (opcode : Opcode) (startTypes endTypes : List ValType) (v : Validator) :
    outcome (pushFrame opcode startTypes endTypes) v =
      (.ok ⟨⟩, { v with
        operands := (startTypes.map Operand.known).reverse ++ v.operands
        frames := { opcode, startTypes, endTypes, height := v.operands.length } :: v.frames }) := by
  unfold pushFrame
  rw [outcome_bind_ok outcome_get, outcome_bind_ok (outcome_pushAll _ _)]
  rfl

theorem pushFrame_guards (opcode : Opcode) (startTypes endTypes : List ValType) (hv : v.Layered) :
    v.Guards (outcome (pushFrame opcode startTypes endTypes) v).2 := by
  rw [outcome_pushFrame]
  exact hv.opens rfl

/-- How closing the innermost frame ends. That operands are left over is found out when the frame is closed already. -/
inductive Closing (v : Validator) : Except ValidationError Frame × Validator → Prop
  | fails {e : ValidationError} {u : Validator} (steady : v.Steady u) : Closing v (.error e, u)
  | uneven {e : ValidationError} {f : Frame} {outer : List Frame} {w : Validator} (frames : v.frames = f :: outer)
    (steady : v.Steady w) : Closing v (.error e, { w with frames := outer })
  | even {f : Frame} {outer : List Frame} {w : Validator} (frames : v.frames = f :: outer) (steady : v.Steady w)
    (height : w.operands.length = f.height) : Closing v (.ok f, { w with frames := outer })

theorem closing_popFrame (hv : v.Layered) : Closing v (outcome popFrame v) := by
  unfold popFrame
  rw [outcome_bind_ok outcome_get]
  split
  · exact .fails (.refl hv)
  · rename_i f outer hf
    have popped := steadily_popAll f.endTypes v hv
    rcases ho : outcome (popAll f.endTypes) v with ⟨e | a, w⟩
    · rw [ho] at popped
      rw [outcome_bind_error ho]
      exact .fails popped
    · rw [ho] at popped
      rw [outcome_bind_ok ho, outcome_bind_ok (outcome_modify _), outcome_bind_ok outcome_get]
      dsimp only
      split
      · rename_i height
        exact .even hf popped height
      · exact .uneven hf popped

theorem popFrame_guards (hv : v.Layered) : v.Guards (outcome popFrame v).2 := by
  have closing := closing_popFrame hv
  generalize outcome popFrame v = r at closing ⊢
  cases closing with
  | fails steady => exact steady.guards hv
  | uneven frames steady => exact hv.closes frames steady
  | even frames steady height => exact hv.closes frames steady

theorem steadily_instr {i : Instr} (hi : i.isPlain = true) : (instr ctx i).Steadily := by
  cases i with
  | block | loop | if_ | else_ | end_ => cases hi
  | unreachable => exact steadily_setUnreachable
  | nop => exact steadily_pure _
  | br d => exact (steadily_label d).bind fun ls => (steadily_popAll ls).bind fun _ => steadily_setUnreachable
  | brIf d =>
    exact (steadily_popExpected _).discard.bind fun _ => (steadily_label d).bind fun ls =>
      (steadily_popAll ls).bind fun _ => steadily_pushAll ls
  | return_ =>
    exact steadily_get_bind fun v hv => ((steadily_popAll _).bind fun _ => steadily_setUnreachable) v hv
  | call i =>
    simp only [instr]
    split
    · exact (steadily_popAll _).bind fun _ => steadily_pushAll _
    · exact steadily_throw _
  | drop => exact steadily_pop.discard
  | select =>
    exact (steadily_popExpected _).discard.bind fun _ => steadily_pop.bind fun a => steadily_pop.bind fun b =>
      (steadily_join a b).bind fun _ => steadily_push _
  | localGet i => exact (steadily_local i).bind fun _ => steadily_push _
  | localSet i => exact (steadily_local i).bind fun t => (steadily_popExpected t).discard
  | localTee i =>
    exact (steadily_local i).bind fun t => (steadily_popExpected t).discard.bind fun _ => steadily_push _
  | globalGet i => exact (steadily_global i).bind fun _ => steadily_push _
  | globalSet i =>
    refine (steadily_global i).bind fun g => ?_
    split
    · exact (steadily_popExpected _).discard
    · exact steadily_throw _
  | i32Const v => exact steadily_push _
  | i64Const v => exact steadily_push _
  | numeric op => exact (steadily_popAll _).bind fun _ => steadily_push _

theorem else_guards (hv : v.Layered) : v.Guards (outcome (instr ctx .else_) v).2 := by
  have closing := closing_popFrame hv
  simp only [instr]
  rw [outcome_bind_ok outcome_get]
  split
  · split
    · rw [outcome_bind]
      generalize outcome popFrame v = r at closing ⊢
      cases closing with
      | fails steady => exact steady.guards hv
      | uneven frames steady => exact hv.closes frames steady
      | @even f outer w frames steady height =>
        simp only [outcome_pushFrame]
        have floor : v.floor = f.height := by simp [floor, frames]
        refine Steady.guards ⟨?_, ?_, ?_⟩ hv
        · simp [frames, height]
        · simp [floor, height]
        · rw [← steady.below]
          exact below_append _ rfl rfl steady.floor
    · exact (Steady.refl hv).guards hv
  · exact (Steady.refl hv).guards hv

theorem end_guards (hv : v.Layered) : v.Guards (outcome (instr ctx .end_) v).2 := by
  have closing := closing_popFrame hv
  simp only [instr]
  rw [outcome_bind]
  generalize outcome popFrame v = r at closing ⊢
  cases closing with
  | fails steady => exact steady.guards hv
  | uneven frames steady => exact hv.closes frames steady
  | even frames steady height =>
    have closed := hv.closes frames steady
    simp only
    split
    · exact closed
    · exact closed.after (steadily_pushAll _ _ closed.layered)

theorem if_guards (t : BlockType) (hv : v.Layered) : v.Guards (outcome (instr ctx (.if_ t)) v).2 := by
  have popped := (steadily_popExpected .i32).discard v hv
  simp only [instr]
  rcases ho : outcome (discard (popExpected .i32)) v with ⟨e | a, w⟩
  · rw [ho] at popped
    rw [outcome_bind_error ho]
    exact popped.guards hv
  · rw [ho] at popped
    rw [outcome_bind_ok ho]
    exact popped.before hv (pushFrame_guards _ _ _ (popped.layered hv))

theorem instr_guards (i : Instr) (hv : v.Layered) : v.Guards (outcome (instr ctx i) v).2 := by
  cases i with
  | block | loop => exact pushFrame_guards _ _ _ hv
  | if_ t => exact if_guards t hv
  | else_ => exact else_guards hv
  | end_ => exact end_guards hv
  | _ => exact (steadily_instr rfl v hv).guards hv

def step (ctx : Context) (offset : Nat) (i : Instr) : Check Unit := do
  enter offset
  instr ctx i

theorem listing_instr (offset : Nat) (i : Instr) (rest : Listing) :
    listing ctx (.instr offset i rest) = step ctx offset i >>= fun _ => listing ctx rest := by
  simp [listing, step]

theorem step_guards (offset : Nat) (i : Instr) (hv : v.Layered) : v.Guards (outcome (step ctx offset i) v).2 := by
  have entered := steadily_enter offset v hv
  unfold step
  rcases ho : outcome (enter offset) v with ⟨e | a, w⟩
  · rw [ho] at entered
    rw [outcome_bind_error ho]
    exact entered.guards hv
  · rw [ho] at entered
    rw [outcome_bind_ok ho]
    exact entered.before hv (instr_guards i (entered.layered hv))

/-- The states that going through a listing passes: the first, one after each instruction, and the last. -/
def moments (ctx : Context) : Listing → Validator → List Validator
  | .instr offset i rest, v =>
    v :: match outcome (step ctx offset i) v with
      | (.ok _, u) => moments ctx rest u
      | (.error _, u) => [u]
  | l, v => [v, (outcome (listing ctx l) v).2]

theorem mem_moments (l : Listing) (v : Validator) : v ∈ moments ctx l v := by
  cases l <;> simp [moments]

theorem outcome_mem_moments (l : Listing) (v : Validator) :
    (outcome (listing ctx l) v).2 ∈ moments ctx l v := by
  induction l generalizing v with
  | done => simp [moments]
  | broken offset cause => simp [moments]
  | instr offset i rest ih =>
    rw [listing_instr, moments]
    rcases ho : outcome (step ctx offset i) v with ⟨e | a, u⟩
    · simp [outcome_bind_error ho]
    · simpa [outcome_bind_ok ho] using .inr (ih u)

theorem steadily_done : (listing ctx .done).Steadily := by
  refine steadily_get_bind fun v hv => ?_
  dsimp only
  split
  · exact .refl hv
  · exact .refl hv

theorem steadily_broken (offset : Nat) (cause : ValidationError) : (listing ctx (.broken offset cause)).Steadily :=
  (steadily_enter offset).bind fun _ => steadily_throw cause

/-- A frame that is open all the time keeps what is below it, from one instruction to the next and so to the end. -/
theorem moments_protect (l : Listing) (hv : v.Layered) :
    (∀ u ∈ moments ctx l v, u.Layered) ∧
      ∀ j, (∀ u ∈ moments ctx l v, j < u.frames.length) → v.Protects (outcome (listing ctx l) v).2 j := by
  induction l generalizing v with
  | done =>
    have steady : v.Steady (outcome (listing ctx .done) v).2 := steadily_done v hv
    exact ⟨by simp [moments, hv, steady.layered hv], fun j _ => steady.protects hv j⟩
  | broken offset cause =>
    have steady : v.Steady (outcome (listing ctx (.broken offset cause)) v).2 := steadily_broken offset cause v hv
    exact ⟨by simp [moments, hv, steady.layered hv], fun j _ => steady.protects hv j⟩
  | instr offset i rest ih =>
    have first : v.Guards (outcome (step ctx offset i) v).2 := step_guards offset i hv
    rw [listing_instr, moments]
    rcases ho : outcome (step ctx offset i) v with ⟨e | a, u⟩
    · rw [ho] at first
      rw [outcome_bind_error ho]
      exact ⟨by simp [hv, first.layered], fun j hj => first.protects j (hj v (by simp)) (hj u (by simp))⟩
    · rw [ho] at first
      rw [outcome_bind_ok ho]
      obtain ⟨layered, kept⟩ := ih first.layered
      refine ⟨List.forall_mem_cons.2 ⟨hv, layered⟩, fun j hj => ?_⟩
      obtain ⟨here, later⟩ := List.forall_mem_cons.1 hj
      exact (first.protects j here (later u (mem_moments rest u))).trans (kept j later)

end Check

namespace Validator

variable {ctx : Context} {v : Validator}

theorem Guards.both {u : Validator} (h : v.Guards u) (hv : v.Layered) :
    (∀ w ∈ [v, u], w.Layered) ∧ ∀ j, (∀ w ∈ [v, u], j < w.frames.length) → v.Protects u j :=
  ⟨by simp [hv, h.layered], fun j hj => h.protects j (hj v (by simp)) (hj u (by simp))⟩

inductive Request where
  | push (o : Operand)
  | pop
  | popExpected (t : ValType)
  | pushFrame (opcode : Opcode) (startTypes endTypes : List ValType)
  | popFrame
  | setUnreachable
  | code (bytes : Bytes)

namespace Request

/-- The state after a request, whether or not it succeeds. -/
def after (ctx : Context) (v : Validator) : Request → Validator
  | .push o => (outcome (Check.push o) v).2
  | .pop => (outcome Check.pop v).2
  | .popExpected t => (outcome (Check.popExpected t) v).2
  | .pushFrame opcode startTypes endTypes => (outcome (Check.pushFrame opcode startTypes endTypes) v).2
  | .popFrame => (outcome Check.popFrame v).2
  | .setUnreachable => (outcome Check.setUnreachable v).2
  | .code bytes => (outcome (Check.code ctx bytes) v).2

def moments (ctx : Context) (v : Validator) : Request → List Validator
  | .code bytes => Check.moments ctx (Listing.ofBytes 0 bytes) v
  | r => [v, r.after ctx v]

theorem protects (r : Request) (hv : v.Layered) :
    (∀ u ∈ r.moments ctx v, u.Layered) ∧
      ∀ j, (∀ u ∈ r.moments ctx v, j < u.frames.length) → v.Protects (r.after ctx v) j := by
  cases r with
  | push o => exact ((Check.steadily_push o v hv).guards hv).both hv
  | pop => exact ((Check.steadily_pop v hv).guards hv).both hv
  | popExpected t => exact ((Check.steadily_popExpected t v hv).guards hv).both hv
  | pushFrame opcode startTypes endTypes => exact (Check.pushFrame_guards _ _ _ hv).both hv
  | popFrame => exact (Check.popFrame_guards hv).both hv
  | setUnreachable => exact ((Check.steadily_setUnreachable v hv).guards hv).both hv
  | code bytes => exact Check.moments_protect _ hv

theorem after_mem_moments (r : Request) : r.after ctx v ∈ r.moments ctx v := by
  cases r with
  | code bytes => exact Check.outcome_mem_moments _ v
  | _ => simp [moments]

end Request

def afterRequests (ctx : Context) (results : List ValType) (requests : List Request) : Validator :=
  requests.foldl (Request.after ctx) (start results)

theorem afterRequests_layered (ctx : Context) (results : List ValType) (requests : List Request) :
    (afterRequests ctx results requests).Layered := by
  unfold afterRequests
  generalize hs : start results = v
  have hv : v.Layered := hs ▸ layered_start results
  clear hs
  induction requests generalizing v with
  | nil => exact hv
  | cons r requests ih => exact ih _ ((r.protects hv).1 _ r.after_mem_moments)

theorem operands_setUnreachable (v : Validator) : (outcome Check.setUnreachable v).2.operands <:+ v.operands := by
  obtain ⟨operands, frames, position⟩ := v
  cases frames with
  | nil => exact List.suffix_refl _
  | cons f outer => exact List.drop_suffix _ _

theorem outcome_label (v : Validator) (depth : UInt32) :
    (∃ f, v.frames.reverse[v.frames.length - (1 + depth.toNat)]? = some f ∧
      1 + depth.toNat ≤ v.frames.length ∧ outcome (Check.label depth) v = (.ok f.labelTypes, v)) ∨
    v.frames.length < 1 + depth.toNat ∧ outcome (Check.label depth) v = (.error (.unknownLabel depth), v) := by
  unfold Check.label
  rw [outcome_bind_ok outcome_get]
  cases hf : v.frames[depth.toNat]? with
  | none =>
    have outside := List.getElem?_eq_none_iff.1 hf
    exact .inr ⟨by omega, rfl⟩
  | some f =>
    obtain ⟨inside, -⟩ := List.getElem?_eq_some_iff.1 hf
    refine .inl ⟨f, ?_, by omega, rfl⟩
    rw [List.getElem?_reverse (by omega), ← hf]
    congr 1
    omega

theorem outcome_pop_dead (dead : v.inDeadCode = true) (at_floor : v.operands.length = v.floor) :
    outcome Check.pop v = (.ok .unknown, v) := by
  unfold Check.pop
  rw [outcome_bind_ok outcome_get]
  simp [dead, at_floor]

/-- After any requests, failed ones among them, the heights of the open frames do not decrease from the outermost to
the innermost, and the innermost is not above the stack. Whatever is asked next, this holds at every moment of it, and
a frame that is open at every moment of it keeps its height and all operands below. In any state, a pop at the floor of
dead code takes nothing, marking code dead leaves a bottom part of the stack, and a label is that of an open frame. -/
theorem frames_protect_operands (ctx : Context) (results : List ValType) (requests : List Request) (r : Request) :
    let v := afterRequests ctx results requests
    (v.frames.reverse.map Frame.height).Pairwise (· ≤ ·) ∧ (∀ f ∈ v.frames.head?, f.height ≤ v.operands.length) ∧
      (∀ u ∈ r.moments ctx v, u.Layered) ∧
      (∀ j, (∀ u ∈ r.moments ctx v, j < u.frames.length) → v.Protects (r.after ctx v) j) ∧
      ∀ u : Validator,
        (u.inDeadCode = true → u.operands.length = u.floor → outcome Check.pop u = (.ok .unknown, u)) ∧
        (outcome Check.setUnreachable u).2.operands <:+ u.operands ∧
        ∀ depth : UInt32,
          (∃ f, u.frames.reverse[u.frames.length - (1 + depth.toNat)]? = some f ∧
            1 + depth.toNat ≤ u.frames.length ∧ outcome (Check.label depth) u = (.ok f.labelTypes, u)) ∨
          u.frames.length < 1 + depth.toNat ∧ outcome (Check.label depth) u = (.error (.unknownLabel depth), u) := by
  intro v
  have hv : v.Layered := afterRequests_layered ctx results requests
  obtain ⟨layered, kept⟩ : (∀ u ∈ r.moments ctx v, u.Layered) ∧
      ∀ j, (∀ u ∈ r.moments ctx v, j < u.frames.length) → v.Protects (r.after ctx v) j := r.protects hv
  refine ⟨?_, ?_, layered, kept, fun u => ⟨outcome_pop_dead, operands_setUnreachable u, outcome_label u⟩⟩
  · rw [List.map_reverse]
    exact List.pairwise_reverse.2 hv.heights
  · intro f hf
    exact Nat.le_trans (hv.height_le (List.mem_of_mem_head? hf)) hv.floor

/-- A block that could not be closed is gone and has left its operand, which a loop then stands on. -/
theorem frames_protect_operands_leftover :
    let ctx : Context := ⟨fun _ => none, fun _ => none, []⟩
    let v := afterRequests ctx [] [.push (.known .i32), .pushFrame .block [] [], .push (.known .i64), .popFrame,
      .pushFrame .loop [] [], .push (.known .f32)]
    let r := Request.setUnreachable
    v.operands = [.known .f32, .known .i64, .known .i32] ∧ (∀ u ∈ r.moments ctx v, 1 < u.frames.length) ∧
      v.Protects (r.after ctx v) 1 ∧ (r.after ctx v).operands = [.known .i64, .known .i32] ∧
      outcome Check.pop (r.after ctx v) = (.ok .unknown, r.after ctx v) := by
  intro ctx v r
  obtain ⟨-, -, -, kept, either⟩ := frames_protect_operands ctx [] [.push (.known .i32), .pushFrame .block [] [],
    .push (.known .i64), .popFrame, .pushFrame .loop [] [], .push (.known .f32)] r
  have openAll : ∀ u ∈ r.moments ctx v, 1 < u.frames.length := by decide
  exact ⟨rfl, openAll, kept 1 openAll, rfl, (either (r.after ctx v)).1 rfl rfl⟩

end Validator

end ImpWasm.Wasm
