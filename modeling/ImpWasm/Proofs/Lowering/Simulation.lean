import ImpWasm.Proofs.Lowering.WellTyped
import ImpWasm.Proofs.Typing.Semantics
import ImpWasm.Proofs.Wasm.Semantics
set_option autoImplicit false

/-!
Code that does what a computation of the program does. A simulation relates the states before and the
states after; it says nothing of a computation that has no outcome.
-/
namespace ImpWasm

namespace Wasm.Exec

section Stack

variable {s : State} {rest : List Value} {v a b : Int32}

theorem toBitVec_beq (a b : Int32) : (a.toBitVec == b.toBitVec) = (a == b) := by
  rw [Bool.eq_iff_iff, beq_iff_eq, beq_iff_eq, Int32.toBitVec_inj]

theorem outcome_popBits32 (h : s.stack = .i32 v :: rest) :
    outcome (popBits .w32) s = (.ok v.toBitVec, { s with stack := rest }) := outcome_popBits .w32 h

theorem outcome_popTruth (h : s.stack = .i32 v :: rest) :
    outcome popTruth s = (.ok (v != 0), { s with stack := rest }) := by
  have he : (v.toBitVec == 0) = (v == 0) := toBitVec_beq v 0
  simp only [popTruth, outcome_bind, outcome_popBits32 h, bne, ← he]
  rfl

theorem outcome_eqz (h : s.stack = .i32 v :: rest) :
    outcome (numeric (.eqz .w32)) s = (.ok (), { s with stack := .i32 (boolConst (v == 0)) :: rest }) := by
  have he : (v.toBitVec == 0) = (v == 0) := toBitVec_beq v 0
  simp only [numeric, outcome_bind, outcome_popBits32 h, ← he]
  rfl

def computed (s : State) (rest : List Value) : Option Int32 → Except Exit Unit × State
  | some v => (.ok (), { s with stack := .i32 v :: rest })
  | none => (.error .trap, { s with stack := rest })

theorem outcome_binary {op : BinOp} {r : Option Int32} (h : s.stack = .i32 b :: .i32 a :: rest)
    (hr : op.eval a.toBitVec b.toBitVec = r.map Int32.toBitVec) :
    outcome (numeric (.binary .w32 op)) s = computed s rest r := by
  have hpop : outcome (popBits .w32) { s with stack := .i32 a :: rest } =
      (.ok a.toBitVec, { s with stack := rest }) := outcome_popBits32 rfl
  simp only [numeric, outcome_bind, outcome_popBits32 h, hpop]
  have hr' : BinOp.eval (n := IntWidth.w32.bits) op a.toBitVec b.toBitVec = r.map Int32.toBitVec := hr
  rw [hr']
  cases r <;> rfl

theorem outcome_rel {op : RelOp} {t : Bool} (h : s.stack = .i32 b :: .i32 a :: rest)
    (ht : op.eval a.toBitVec b.toBitVec = t) :
    outcome (numeric (.rel .w32 op)) s = computed s rest (some (boolConst t)) := by
  have hpop : outcome (popBits .w32) { s with stack := .i32 a :: rest } =
      (.ok a.toBitVec, { s with stack := rest }) := outcome_popBits32 rfl
  simp only [numeric, outcome_bind, outcome_popBits32 h, hpop, ← ht]
  rfl

theorem outcome_operator (op : Operator) (h : s.stack = .i32 b :: .i32 a :: rest) :
    outcome (numeric op.lower) s = computed s rest (op.eval a b) := by
  cases op with
  | add | sub | mul | and | or => exact outcome_binary h rfl
  | div =>
    refine outcome_binary h ?_
    have hc : (b.toBitVec = 0 ∨ a.toBitVec = .intMin 32 ∧ b.toBitVec = -1) ↔
        (b = 0 ∨ a = Int32.minValue ∧ b = -1) := by
      rw [← Int32.toBitVec_inj, ← Int32.toBitVec_inj, ← Int32.toBitVec_inj]
      rfl
    simp only [BinOp.eval, Operator.eval, hc]
    split <;> rfl
  | mod =>
    refine outcome_binary h ?_
    have hc : b.toBitVec = 0 ↔ b = 0 := by
      rw [← Int32.toBitVec_inj]
      rfl
    simp only [BinOp.eval, Operator.eval, hc]
    split <;> rfl
  | eq => exact outcome_rel h (toBitVec_beq a b)
  | ne => exact outcome_rel h (congrArg (! ·) (toBitVec_beq a b))
  | lt | le | gt | ge =>
    refine outcome_rel h ?_
    rw [Bool.eq_iff_iff, decide_eq_true_iff]
    rfl

end Stack

end Wasm.Exec

open Wasm (Instr Code Exec Exit Value)

abbrev StateRel := Typed.State → Wasm.State → Prop

/-- How code ends where the program stops. -/
def Typed.Stop.exit : Typed.Stop → Exit
  | .returned _ => .return_
  | .trap => .trap
  | .undefined => .timeout

/-- From states in `pre`, code does what a computation does: it ends in the way `done` says for a value
and in states that `post` relates, or stops with it in states that `stop` relates. -/
def SimTo {α : Type} (done : α → Except Exit Unit) (pre : StateRel) (x : Typed.Run α) (e : Exec Unit)
    (post : α → StateRel) (stop : Typed.Stop → StateRel) : Prop :=
  ∀ σ w, pre σ w →
    match outcome x σ with
    | (.ok a, σ') => ∃ w', outcome e w = (done a, w') ∧ post a σ' w'
    | (.error s, σ') => s = .undefined ∨ ∃ w', outcome e w = (.error s.exit, w') ∧ stop s σ' w'

abbrev Sim {α : Type} (pre : StateRel) (x : Typed.Run α) (e : Exec Unit) (post : α → StateRel)
    (stop : Typed.Stop → StateRel) : Prop :=
  SimTo (fun _ => .ok ()) pre x e post stop

/-- The values that a computation may have. -/
def Typed.Yields {α : Type} (x : Typed.Run α) (a : α) : Prop := ∃ σ σ', outcome x σ = (.ok a, σ')

namespace SimTo

variable {α β : Type} {pre pre' : StateRel} {x : Typed.Run α} {f : α → Typed.Run β} {e e' : Exec Unit}
  {post : α → StateRel} {post' : β → StateRel} {stop stop' : Typed.Stop → StateRel}
  {done : β → Except Exit Unit}

theorem bind (h : Sim pre x e post stop)
    (hf : ∀ a, Typed.Yields x a → SimTo done (post a) (f a) e' post' stop) :
    SimTo done pre (x >>= f) (e >>= fun _ => e') post' stop := by
  intro σ w hp
  have hx := h σ w hp
  rw [outcome_bind]
  rcases hr : outcome x σ with ⟨s | a, σ'⟩
  · simp only [hr] at hx ⊢
    refine hx.imp id fun ⟨w', hw, hs⟩ => ⟨w', ?_, hs⟩
    exact outcome_bind_error hw
  · simp only [hr] at hx ⊢
    obtain ⟨w', hw, hpost⟩ := hx
    rw [outcome_bind_ok hw]
    exact hf a ⟨σ, σ', hr⟩ σ' w' hpost

theorem ofPure {b : β} (h : ∀ σ w, pre σ w → ∃ w', outcome e w = (done b, w') ∧ post' b σ w') :
    SimTo done pre (pure b) e post' stop := h

theorem ofModify {g : Typed.State → Typed.State} {post : Unit → StateRel}
    (h : ∀ σ w, pre σ w → ∃ w', outcome e w = (.ok (), w') ∧ post () (g σ) w') :
    Sim pre (modify g) e post stop := h

theorem ofThrow {s : Typed.Stop}
    (h : ∀ σ w, pre σ w → ∃ w', outcome e w = (.error s.exit, w') ∧ stop s σ w') :
    SimTo done pre (throw s) e post' stop := fun σ w hp => .inr (h σ w hp)

theorem weaken {y : Typed.Run β} {post'' : β → StateRel} (h : SimTo done pre y e post' stop)
    (hpre : ∀ σ w, pre' σ w → pre σ w) (hpost : ∀ b σ w, post' b σ w → post'' b σ w)
    (hstop : ∀ s σ w, stop s σ w → stop' s σ w) : SimTo done pre' y e post'' stop' := by
  intro σ w hp
  have hy := h σ w (hpre σ w hp)
  rcases hr : outcome y σ with ⟨s | b, σ'⟩
  · simp only [hr] at hy ⊢
    exact hy.imp id fun ⟨w', hw, hs⟩ => ⟨w', hw, hstop s σ' w' hs⟩
  · simp only [hr] at hy ⊢
    exact hy.imp fun w' ⟨hw, hb⟩ => ⟨hw, hpost b σ' w' hb⟩

end SimTo

def Typed.Call.lift (module : String) (c : Typed.Call) : Wasm.Event :=
  ⟨module, c.name, c.args.map .i32, c.result.map fun v => [.i32 v]⟩

/-- How the variables of the top level lie in a module. -/
structure Layout where
  importModule : String
  globals : List Nat
  later : List Value

namespace Layout

variable (y : Layout)

/-- The module has the values of the variables of the top level, and has made the same calls. -/
structure Agrees (σ : Typed.State) (w : Wasm.State) : Prop where
  globals : w.globals = y.globals.map (fun s => .i32 (σ.globals s)) ++ y.later
  trace : w.trace = σ.trace.map (Typed.Call.lift y.importModule)

/-- The module also has the values of the symbols in `slots`, its locals, and a given stack. -/
structure At (slots : List Nat) (stack : List Value) (σ : Typed.State) (w : Wasm.State) : Prop
    extends y.Agrees σ w where
  locals : w.locals = slots.map fun s => .i32 (σ.locals s)
  stack : w.stack = stack

/-- A value that is returned lies on the stack. -/
def Stops : Typed.Stop → StateRel
  | .returned v => fun σ w => y.Agrees σ w ∧ ∃ rest, w.stack = .i32 v :: rest
  | .trap => fun σ w => w.trace = σ.trace.map (Typed.Call.lift y.importModule)
  | .undefined => fun _ _ => True

end Layout

section Blocks

variable {y : Layout} {slots : List Nat} {base : List Value} {stop : Typed.Stop → StateRel}

theorem Layout.At.withStack {σ : Typed.State} {w : Wasm.State} (h : y.At slots base σ w)
    (stack : List Value) : y.At slots stack σ { w with stack } :=
  ⟨⟨h.globals, h.trace⟩, h.locals, rfl⟩

theorem SimTo.inBlock {x : Typed.Run Unit} {e : Exec Unit}
    (h : Sim (y.At slots []) x e (fun _ => y.At slots []) stop) :
    Sim (y.At slots base) x (Exec.inBlock 0 e) (fun _ => y.At slots base) stop := by
  intro σ w hp
  have hx := h σ _ (hp.withStack [])
  rcases hr : outcome x σ with ⟨s | _, σ'⟩
  · simp only [hr] at hx ⊢
    refine hx.imp id fun ⟨w', hw, hs⟩ => ⟨w', ?_, hs⟩
    simp only [Exec.inBlock, outcome_bind, outcome_get, outcome_modify, outcome_attempt, hw]
    cases s <;> rfl
  · simp only [hr] at hx ⊢
    obtain ⟨w', hw, hpost⟩ := hx
    refine ⟨{ w' with stack := base }, ?_, hpost.withStack base⟩
    simp only [Exec.inBlock, outcome_bind, outcome_get, outcome_modify, outcome_attempt, hw]
    simp [hpost.stack, hp.stack]

theorem SimTo.branch {x z : Typed.Run Unit} {ex ez : Exec Unit} {post : Unit → StateRel} {v : Int32}
    (hx : Sim (y.At slots base) x ex post stop) (hz : Sim (y.At slots base) z ez post stop) :
    Sim (y.At slots (.i32 v :: base)) (if v ≠ 0 then x else z)
      (do if ← Exec.popTruth then ex else ez) post stop := by
  intro σ w hp
  rw [outcome_bind_ok (Exec.outcome_popTruth hp.stack)]
  by_cases hv : v = 0
  · subst hv
    exact hz σ _ (hp.withStack base)
  · have htrue : (v != 0) = true := by simp [hv]
    simpa only [hv, htrue, ne_eq, not_false_eq_true, if_true] using hx σ _ (hp.withStack base)

end Blocks

section Loops

variable {y : Layout} {slots : List Nat} {base : List Value} {stop : Typed.Stop → StateRel}
  {test : Typed.Run Int32} {body : Typed.Run Unit} {e : Exec Unit}

def Typed.iteration (test : Typed.Run Int32) (body : Typed.Run Unit) : Typed.Run Bool := do
  let v ← test
  if v ≠ 0 then
    body
    return true
  else return false

theorem Typed.whileLoop_succ (n : Nat) : Typed.whileLoop test body (n + 1) = do
    let again ← Typed.iteration test body
    if again then Typed.whileLoop test body n else return := by
  refine outcome_ext fun σ => ?_
  simp only [whileLoop, iteration, outcome_bind]
  rcases outcome test σ with ⟨s | v, σ'⟩
  · rfl
  · by_cases hv : v = 0
    · simp [hv]
    · simp only [ne_eq, hv, not_false_eq_true, if_true, outcome_bind]
      rcases outcome body σ' with ⟨s | _, σ''⟩ <;> rfl

/-- A loop goes on by a branch to its start, and ends by a branch out of the block around it. -/
def Typed.loopExit (again : Bool) : Except Exit Unit := .error (.branch (if again then 0 else 1))

theorem SimTo.iteration {etest ebody : Exec Unit} (m : Wasm.Module) (call : UInt32 → Exec Unit)
    (ht : Sim (y.At slots []) test etest (fun v => y.At slots [.i32 v]) stop)
    (hb : Sim (y.At slots []) body ebody (fun _ => y.At slots []) stop) :
    SimTo Typed.loopExit (y.At slots []) (Typed.iteration test body)
      (do
        etest
        Exec.plain m call (.numeric (.eqz .w32))
        Exec.plain m call (.brIf 1)
        ebody
        Exec.plain m call (.br 0))
      (fun _ => y.At slots []) stop := by
  refine ht.bind fun v _ σ w hp => ?_
  have hz := Exec.outcome_eqz hp.stack
  have hpop : outcome Exec.popTruth { w with stack := [.i32 (boolConst (v == 0))] } =
      (.ok (boolConst (v == 0) != 0), { w with stack := [] }) := Exec.outcome_popTruth rfl
  simp only [Exec.plain, outcome_bind, hz, hpop]
  by_cases hv : v = 0
  · simp only [hv, ne_eq, not_true_eq_false, if_false, outcome_pure, outcome_throw]
    exact ⟨_, rfl, hp.withStack []⟩
  · have hfalse : (boolConst (v == 0) != 0) = false := by simp [hv, boolConst]
    have hgo : SimTo Typed.loopExit (y.At slots []) (body >>= fun _ => pure true)
        (ebody >>= fun _ => throw (.branch 0)) (fun _ => y.At slots []) stop :=
      hb.bind fun _ _ => .ofPure fun _ w' hp' => ⟨w', rfl, hp'⟩
    have hrest := hgo σ _ (hp.withStack [])
    simp only [outcome_bind] at hrest
    simp only [hv, hfalse, ne_eq, not_false_eq_true, if_true, outcome_bind, Bool.false_eq_true, if_false,
      outcome_pure]
    exact hrest

theorem SimTo.again (h : SimTo Typed.loopExit (y.At slots []) (Typed.iteration test body) e
      (fun _ => y.At slots []) stop) (n : Nat) :
    SimTo (fun _ => Typed.loopExit false) (y.At slots []) (Typed.whileLoop test body n) (Exec.again e n)
      (fun _ => y.At slots []) stop := by
  induction n with
  | zero => exact fun σ w _ => .inl rfl
  | succ n ih =>
    intro σ w hp
    have hi := h σ w hp
    rw [Typed.whileLoop_succ, outcome_bind]
    simp only [Exec.again, outcome_bind, outcome_attempt]
    rcases hr : outcome (Typed.iteration test body) σ with ⟨s | go, σ'⟩
    · simp only [hr] at hi ⊢
      refine hi.imp id fun ⟨w', hw, hs⟩ => ⟨w', ?_, hs⟩
      rw [hw]
      cases s <;> rfl
    · simp only [hr] at hi ⊢
      obtain ⟨w', hw, hpost⟩ := hi
      rw [hw]
      cases go with
      | false => exact ⟨w', rfl, hpost⟩
      | true => exact ih σ' _ (hpost.withStack [])

theorem SimTo.loop (h : SimTo Typed.loopExit (y.At slots []) (Typed.iteration test body) e
      (fun _ => y.At slots []) stop) (n : Nat) :
    Sim (y.At slots base) (Typed.whileLoop test body n)
      (Exec.inBlock 0 (Exec.inBlock 0 (Exec.again e n) >>= fun _ => pure ()))
      (fun _ => y.At slots base) stop := by
  intro σ w hp
  have hx := SimTo.again h n σ _ (hp.withStack [])
  rcases hr : outcome (Typed.whileLoop test body n) σ with ⟨s | _, σ'⟩
  · simp only [hr] at hx ⊢
    refine hx.imp id fun ⟨w', hw, hs⟩ => ⟨w', ?_, hs⟩
    simp only [Exec.inBlock, outcome_bind, outcome_get, outcome_modify, outcome_attempt, hw]
    cases s <;> rfl
  · simp only [hr] at hx ⊢
    obtain ⟨w', hw, hpost⟩ := hx
    refine ⟨{ w' with stack := base }, ?_, hpost.withStack base⟩
    simp only [Exec.inBlock, outcome_bind, outcome_get, outcome_modify, outcome_attempt, hw, ← hp.stack]
    rfl

end Loops

section Variables

variable {y : Layout} {slots : List Nat} {base : List Value} {stop : Typed.Stop → StateRel}
  {top : Nat → Bool} {symbol : Nat} {i : UInt32} {v : Int32} {m : Wasm.Module}

theorem map_update_of_notMem {xs : List Nat} (f : Nat → Int32) (h : symbol ∉ xs) :
    xs.map (fun s => Value.i32 (Typed.update f symbol v s)) = xs.map fun s => .i32 (f s) := by
  refine List.map_congr_left fun s hs => ?_
  have hne : s ≠ symbol := fun he => h (he ▸ hs)
  simp [Typed.update, hne]

theorem map_update_eq_set {xs : List Nat} {k : Nat} (f : Nat → Int32) (hd : xs.Nodup)
    (hk : xs[k]? = some symbol) :
    xs.map (fun s => Value.i32 (Typed.update f symbol v s)) =
      (xs.map fun s => Value.i32 (f s)).set k (.i32 v) := by
  obtain ⟨hlt, hget⟩ := List.getElem?_eq_some_iff.1 hk
  refine List.ext_getElem (by simp) fun j hj _ => ?_
  rw [List.length_map] at hj
  rw [List.getElem_set]
  split
  · rename_i he
    subst he
    simp [Typed.update, hget]
  · rename_i hne
    have hs : xs[j] ≠ symbol := by
      intro hs
      exact hne ((List.getElem?_inj hlt hd).1 (hk.trans (List.getElem?_eq_some_iff.2 ⟨hj, hs⟩).symm))
    simp [Typed.update, hs]

theorem SimTo.readLocal (hi : slots[i.toNat]? = some symbol) (ht : top symbol = false) :
    Sim (y.At slots base) (do return (← get).read top symbol) (Exec.readLocal i)
      (fun v => y.At slots (.i32 v :: base)) stop := by
  intro σ w hp
  have hget : w.locals[i.toNat]? = some (.i32 (σ.locals symbol)) := by simp [hp.locals, hi]
  refine ⟨{ w with stack := .i32 (σ.locals symbol) :: base }, ?_, ?_⟩
  · simp only [Exec.readLocal, outcome_bind, outcome_get, hget, Exec.outcome_push, hp.stack]
  · simpa [Typed.State.read, ht] using hp.withStack (.i32 (σ.locals symbol) :: base)

theorem SimTo.readGlobal (hi : y.globals[i.toNat]? = some symbol) (ht : top symbol = true) :
    Sim (y.At slots base) (do return (← get).read top symbol) (Exec.readGlobal i)
      (fun v => y.At slots (.i32 v :: base)) stop := by
  intro σ w hp
  have hlt := (List.getElem?_eq_some_iff.1 hi).1
  have hget : w.globals[i.toNat]? = some (.i32 (σ.globals symbol)) := by
    rw [hp.globals, List.getElem?_append_left (by simpa using hlt)]
    simp [hi]
  refine ⟨{ w with stack := .i32 (σ.globals symbol) :: base }, ?_, ?_⟩
  · simp only [Exec.readGlobal, outcome_bind, outcome_get, hget, Exec.outcome_push, hp.stack]
  · simpa [Typed.State.read, ht] using hp.withStack (.i32 (σ.globals symbol) :: base)

theorem SimTo.writeLocal (hd : slots.Nodup) (hi : slots[i.toNat]? = some symbol)
    (ht : top symbol = false) :
    Sim (y.At slots (.i32 v :: base)) (modify (Typed.State.write top symbol v)) (Exec.writeLocal i)
      (fun _ => y.At slots base) stop := by
  refine SimTo.ofModify fun σ w hp => ?_
  have htype : w.locals[i.toNat]?.map Value.type = some (Value.i32 v).type := by
    simp [hp.locals, hi, Value.type]
  refine ⟨{ w with locals := w.locals.set i.toNat (.i32 v), stack := base }, ?_, ?_⟩
  · simp only [Exec.writeLocal, outcome_bind, Exec.outcome_pop hp.stack, outcome_get, htype, if_true, outcome_set]
  · simp only [Typed.State.write, ht]
    exact ⟨⟨hp.globals, hp.trace⟩, by rw [hp.locals]; exact (map_update_eq_set _ hd hi).symm, rfl⟩

theorem SimTo.writeGlobal (hd : y.globals.Nodup) (hi : y.globals[i.toNat]? = some symbol)
    (ht : top symbol = true) (hm : m.globalType i = some ⟨.i32, true⟩) :
    Sim (y.At slots (.i32 v :: base)) (modify (Typed.State.write top symbol v)) (Exec.writeGlobal m i)
      (fun _ => y.At slots base) stop := by
  refine SimTo.ofModify fun σ w hp => ?_
  have hlt := (List.getElem?_eq_some_iff.1 hi).1
  have hok : m.globalType i = some ⟨(Value.i32 v).type, true⟩ ∧ i.toNat < w.globals.length :=
    ⟨hm, by simp only [hp.globals, List.length_append, List.length_map]; omega⟩
  refine ⟨{ w with globals := w.globals.set i.toNat (.i32 v), stack := base }, ?_, ?_⟩
  · simp only [Exec.writeGlobal, outcome_bind, Exec.outcome_pop hp.stack, outcome_get]
    rw [if_pos hok]
    rfl
  · simp only [Typed.State.write, ht, if_true]
    refine ⟨⟨?_, hp.trace⟩, hp.locals, rfl⟩
    simp only [hp.globals, map_update_eq_set _ hd hi]
    exact List.set_append_left _ _ (by simpa using hlt)

end Variables

end ImpWasm
