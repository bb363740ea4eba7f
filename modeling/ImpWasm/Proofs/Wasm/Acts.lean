import ImpWasm.Proofs.Wasm.Check
set_option autoImplicit false

namespace ImpWasm.Wasm

def Instr.Moves (ctx : Context) (labels : List (List ValType)) (results : List ValType) (i : Instr)
    (ts us : List ValType) : Prop :=
  ∃ base ts' us', ts = base ++ ts' ∧ us = base ++ us' ∧ i.HasType ctx labels results ts' us'

variable {p : Place} {ctx : Context} {labels : List (List ValType)} {results : List ValType}

theorem acts_instr {i : Instr} (hi : i.isPlain = true) :
    Acts p (Check.instr ctx i) (i.Moves ctx p.labels p.results) := by
  cases i with
  | block | loop | if_ | else_ | end_ => cases hi
  | unreachable =>
    refine acts_setUnreachable.congr ?_
    intro ts us
    exact ⟨fun _ => ⟨[], ts, us, rfl, rfl, .unreachable ts us⟩, fun _ => trivial⟩
  | nop =>
    refine acts_pure.congr ?_
    intro ts us
    constructor
    · rintro rfl
      exact ⟨ts, [], [], by simp, by simp, .nop⟩
    · rintro ⟨base, _, _, rfl, rfl, ⟨⟩⟩
      rfl
  | br d =>
    refine (acts_label fun ls _ => (acts_popAll ls).seq acts_setUnreachable).congr ?_
    intro ts us
    constructor
    · rintro ⟨ls, hl, vs, rfl, _⟩
      exact ⟨[], vs ++ ls, us, rfl, rfl, .br hl vs us⟩
    · rintro ⟨base, _, _, rfl, rfl, h⟩
      cases h with
      | @br _ ls hl vs us => exact ⟨ls, hl, base ++ vs, by simp, trivial⟩
  | brIf d =>
    refine ((acts_popExpected .i32).seq (acts_label fun ls _ => acts_effect ls ls)).congr ?_
    intro ts us
    constructor
    · rintro ⟨_, rfl, ls, hl, base, rfl, rfl⟩
      exact ⟨base, ls ++ [.i32], ls, by simp, rfl, .brIf hl⟩
    · rintro ⟨base, _, ls, rfl, rfl, h⟩
      cases h with
      | brIf hl => exact ⟨base ++ ls, by simp, ls, hl, base, rfl, rfl⟩
  | return_ =>
    refine acts_return.congr ?_
    intro ts us
    constructor
    · rintro ⟨vs, rfl⟩
      exact ⟨[], vs ++ p.results, us, rfl, rfl, .return_ vs us⟩
    · rintro ⟨base, _, _, rfl, rfl, h⟩
      cases h with
      | return_ vs us => exact ⟨base ++ vs, by simp⟩
  | call i =>
    simp only [Check.instr]
    cases hf : ctx.functionType i with
    | none =>
      refine (acts_throw _).congr ?_
      intro ts us
      constructor
      · exact False.elim
      · rintro ⟨_, _, _, _, _, h⟩
        cases h with
        | call h => simp [h] at hf
    | some t =>
      refine (acts_effect t.params t.results).congr ?_
      intro ts us
      constructor
      · rintro ⟨base, rfl, rfl⟩
        exact ⟨base, _, _, rfl, rfl, .call hf⟩
      · rintro ⟨base, _, _, rfl, rfl, h⟩
        cases h with
        | call h =>
          obtain rfl := Option.some.inj (h.symm.trans hf)
          exact ⟨base, rfl, rfl⟩
  | drop =>
    refine acts_pop.congr ?_
    intro ts us
    constructor
    · rintro ⟨t, rfl⟩
      exact ⟨us, [t], [], rfl, by simp, .drop t⟩
    · rintro ⟨base, _, _, rfl, rfl, h⟩
      cases h with
      | drop t => exact ⟨t, by simp⟩
  | select =>
    refine ((acts_popExpected .i32).seq acts_choice).congr ?_
    intro ts us
    constructor
    · rintro ⟨_, rfl, base, t, rfl, rfl⟩
      exact ⟨base, [t, t, .i32], [t], by simp, rfl, .select t⟩
    · rintro ⟨base, _, _, rfl, rfl, h⟩
      cases h with
      | select t => exact ⟨base ++ [t] ++ [t], by simp, base, t, rfl, rfl⟩
  | localGet i =>
    refine (acts_local acts_push).congr ?_
    intro ts us
    constructor
    · rintro ⟨t, h, rfl⟩
      exact ⟨ts, [], [t], by simp, rfl, .localGet h⟩
    · rintro ⟨base, _, _, rfl, rfl, h⟩
      cases h with
      | @localGet _ t h => exact ⟨t, h, by simp⟩
  | localSet i =>
    refine (acts_local acts_popExpected).congr ?_
    intro ts us
    constructor
    · rintro ⟨t, h, rfl⟩
      exact ⟨us, [t], [], rfl, by simp, .localSet h⟩
    · rintro ⟨base, _, _, rfl, rfl, h⟩
      cases h with
      | @localSet _ t h => exact ⟨t, h, by simp⟩
  | localTee i =>
    refine (acts_local fun t => (acts_popExpected t).seq (acts_push t)).congr ?_
    intro ts us
    constructor
    · rintro ⟨t, h, base, rfl, rfl⟩
      exact ⟨base, [t], [t], rfl, rfl, .localTee h⟩
    · rintro ⟨base, _, _, rfl, rfl, h⟩
      cases h with
      | @localTee _ t h => exact ⟨t, h, base, rfl, rfl⟩
  | globalGet i =>
    refine (acts_global fun g => acts_push g.type).congr ?_
    intro ts us
    constructor
    · rintro ⟨g, h, rfl⟩
      exact ⟨ts, [], [g.type], by simp, rfl, .globalGet h⟩
    · rintro ⟨base, _, _, rfl, rfl, h⟩
      cases h with
      | @globalGet _ g h => exact ⟨g, h, by simp⟩
  | globalSet i =>
    have hk : ∀ g : GlobalType,
        Acts p (if g.isMutable then discard (Check.popExpected g.type) else throw (.immutableGlobal i))
          fun ts us => g.isMutable = true ∧ ts = us ++ [g.type] := by
      intro g
      cases hm : g.isMutable with
      | true => exact (acts_popExpected g.type).congr (by simp)
      | false => exact (acts_throw _).congr (by simp)
    refine (acts_global hk).congr ?_
    intro ts us
    constructor
    · rintro ⟨g, h, hm, rfl⟩
      exact ⟨us, [g.type], [], rfl, by simp, .globalSet h hm⟩
    · rintro ⟨base, _, _, rfl, rfl, h⟩
      cases h with
      | @globalSet _ g h hm => exact ⟨g, h, hm, by simp⟩
  | i32Const v =>
    refine (acts_push .i32).congr ?_
    intro ts us
    constructor
    · rintro rfl
      exact ⟨ts, [], [.i32], by simp, rfl, .i32Const v⟩
    · rintro ⟨base, _, _, rfl, rfl, ⟨⟩⟩
      simp
  | i64Const v =>
    refine (acts_push .i64).congr ?_
    intro ts us
    constructor
    · rintro rfl
      exact ⟨ts, [], [.i64], by simp, rfl, .i64Const v⟩
    · rintro ⟨base, _, _, rfl, rfl, ⟨⟩⟩
      simp
  | numeric op =>
    refine ((acts_popAll op.shape.operands).seq (acts_push op.shape.result)).congr ?_
    intro ts us
    constructor
    · rintro ⟨base, rfl, rfl⟩
      exact ⟨base, _, _, rfl, rfl, .numeric op⟩
    · rintro ⟨base, _, _, rfl, rfl, ⟨⟩⟩
      exact ⟨base, rfl, rfl⟩

/-- The frame that a block opens where `ops` lie above the floor. -/
def Place.opened (p : Place) (opcode : Opcode) (endTypes : List ValType) (ops : List Operand) (dead : Bool) :
    Place where
  frame := { opcode, startTypes := [], endTypes, height := (ops ++ p.below).length }
  outer := { p.frame with isUnreachable := dead } :: p.outer
  below := ops ++ p.below
  floor := rfl

theorem Place.labels_opened (p : Place) (opcode : Opcode) (endTypes : List ValType) (ops : List Operand)
    (dead : Bool) :
    (p.opened opcode endTypes ops dead).labels = (if opcode = .loop then [] else endTypes) :: p.labels := rfl

theorem Place.results_opened (p : Place) (opcode : Opcode) (endTypes : List ValType) (ops : List Operand)
    (dead : Bool) : (p.opened opcode endTypes ops dead).results = p.results := by
  rw [← p.results_state ops dead 0]
  simp [Place.results, Place.opened, Place.state]

theorem ok_pushFrame {opcode : Opcode} {endTypes : List ValType} {ops : List Operand} {dead : Bool}
    {position : Nat} {v : Validator} :
    Check.Ok (Check.pushFrame opcode [] endTypes) (p.state ops dead position) () v ↔
      v = (p.opened opcode endTypes ops dead).state [] false position := by
  have hnil : Check.pushAll [] = pure () := rfl
  simp only [Check.pushFrame, hnil, pure_bind]
  rw [Check.ok_bind_of_reads fun _ _ => Check.ok_get, Check.ok_modify]
  exact eq_comm

theorem admits_nil {dead : Bool} {ops : List Operand} : Admits dead ops [] ↔ ops = [] := by
  cases ops with
  | nil => simp [Admits, Stands]
  | cons o ops => simp [Admits, Stands]

/-- A frame can be closed only if its operands may stand for just its results. -/
theorem admits_of_popFrame {ops : List Operand} {dead : Bool} {position : Nat} {f : Frame} {v : Validator}
    (h : Check.Ok Check.popFrame (p.state ops dead position) f v) :
    Admits dead ops p.frame.endTypes ∧ f = { p.frame with isUnreachable := dead } ∧
      ∃ position', v = ⟨p.below, p.outer, position'⟩ := by
  have hs : (p.state ops dead position).frames = { p.frame with isUnreachable := dead } :: p.outer := rfl
  unfold Check.popFrame at h
  rw [Check.ok_bind_of_reads fun _ _ => Check.ok_get, hs] at h
  simp only [Check.ok_bind, Check.ok_modify, Check.ok_get] at h
  obtain ⟨_, u, hu, _, _, rfl, _, _, ⟨rfl, rfl⟩, h⟩ := h
  obtain ⟨ops', dead', position', rfl, ha⟩ := (acts_popAll (p := p) _ ops dead position).2 u hu
  split at h
  · rename_i hl
    obtain ⟨rfl, rfl⟩ := Check.ok_pure.1 h
    have hf := p.floor
    simp only [Place.state, List.length_append] at hl
    obtain rfl : ops' = [] := List.eq_nil_of_length_eq_zero (by omega)
    obtain ⟨ts, hts, rfl⟩ := (ha []).1 (admits_nil.2 rfl)
    exact ⟨hts, rfl, position', rfl⟩
  · exact (Check.ok_throw.1 h).elim

theorem popFrame_of_admits {ops : List Operand} {dead : Bool} (h : Admits dead ops p.frame.endTypes)
    (position : Nat) :
    ∃ position', Check.Ok Check.popFrame (p.state ops dead position)
      { p.frame with isUnreachable := dead } ⟨p.below, p.outer, position'⟩ := by
  have hs : (p.state ops dead position).frames = { p.frame with isUnreachable := dead } :: p.outer := rfl
  have hpop := acts_popAll (p := p) p.frame.endTypes ops dead position
  obtain ⟨u, hu⟩ := hpop.1 ⟨_, [], h, rfl⟩
  obtain ⟨ops', dead', position', rfl, ha⟩ := hpop.2 u hu
  obtain rfl := admits_nil.1 ((ha []).2 ⟨_, h, rfl⟩)
  refine ⟨position', ?_⟩
  unfold Check.popFrame
  rw [Check.ok_bind_of_reads fun _ _ => Check.ok_get, hs]
  simp only [Check.ok_bind, Check.ok_modify, Check.ok_get]
  refine ⟨(), _, hu, ⟨⟩, _, rfl, _, _, ⟨rfl, rfl⟩, ?_⟩
  rw [if_pos (by simp [Place.state, p.floor])]
  exact Check.ok_pure.2 ⟨rfl, rfl⟩

/-- Checks that end a frame with the given results: they succeed if its operands may stand for the
results and `c` holds, and leave the results on the operands outside. -/
def Leaves (p : Place) (opcode : Opcode) (endTypes : List ValType) (m : Check Unit) (c : Prop) : Prop :=
  ∀ ops dead inner innerDead position,
    (Admits innerDead inner endTypes → c →
      ∃ v, Check.Ok m ((p.opened opcode endTypes ops dead).state inner innerDead position) () v) ∧
    ∀ v, Check.Ok m ((p.opened opcode endTypes ops dead).state inner innerDead position) () v →
      Admits innerDead inner endTypes ∧ c ∧
        ∃ position', Check.Ok (Check.pushAll endTypes) (p.state ops dead position') () v

theorem Check.ok_enter {v v' : Validator} {offset : Nat} :
    Ok (enter offset) v () v' ↔ v.frames ≠ [] ∧ { v with position := offset } = v' := by
  obtain ⟨operands, frames, position⟩ := v
  unfold enter
  rw [ok_bind_of_reads fun _ _ => ok_get]
  cases frames with
  | nil => simp
  | cons f outer => simp

theorem ok_enter {ops : List Operand} {dead : Bool} {position offset : Nat} {v : Validator} :
    Check.Ok (Check.enter offset) (p.state ops dead position) () v ↔ p.state ops dead offset = v := by
  simp [Check.ok_enter, Place.state]

theorem acts_enter (offset : Nat) : Acts p (Check.enter offset) fun ts us => ts = us := by
  intro ops dead position
  refine ⟨fun _ => ⟨_, ok_enter.2 rfl⟩, ?_⟩
  intro v hv
  obtain rfl := ok_enter.1 hv
  exact ⟨ops, dead, offset, rfl, by simp⟩

theorem Leaves.enter {opcode : Opcode} {endTypes : List ValType} {m : Check Unit} {c : Prop}
    (h : Leaves p opcode endTypes m c) (offset : Nat) :
    Leaves p opcode endTypes (do Check.enter offset; m) c := by
  intro ops dead inner innerDead position
  simp only [Check.ok_bind]
  constructor
  · intro ha hc
    obtain ⟨v, hv⟩ := (h ops dead inner innerDead offset).1 ha hc
    exact ⟨v, (), _, ok_enter.2 rfl, hv⟩
  · rintro v ⟨_, _, he, hv⟩
    obtain rfl := ok_enter.1 he
    exact (h ops dead inner innerDead offset).2 v hv

theorem leaves_end (ctx : Context) (opcode : Opcode) (endTypes : List ValType) :
    Leaves p opcode endTypes (Check.instr ctx .end_) (opcode = .if_ → endTypes = []) := by
  intro ops dead inner innerDead position
  simp only [Check.instr, Check.ok_bind]
  constructor
  · intro ha hc
    obtain ⟨position', hp⟩ :=
      popFrame_of_admits (p := p.opened opcode endTypes ops dead) ha position
    have hpush := (acts_pushAll endTypes (p := p) ops dead position').1
    obtain ⟨ts, hts⟩ := exists_admits dead ops
    obtain ⟨v, hv⟩ := hpush ⟨ts, _, hts, rfl⟩
    refine ⟨v, _, _, hp, ?_⟩
    rw [if_neg]
    · exact hv
    · rintro ⟨ho, hne⟩
      exact hne (hc ho).symm
  · rintro v ⟨f, u, hp, h⟩
    obtain ⟨ha, rfl, position', rfl⟩ := admits_of_popFrame hp
    split at h
    · exact (Check.ok_throw.1 h).elim
    · rename_i hn
      refine ⟨ha, ?_, position', h⟩
      intro ho
      exact (Decidable.byContradiction fun hne => hn ⟨ho, hne⟩).symm

theorem leaves_else (ctx : Context) {endTypes : List ValType} {no close : Check Unit} {c : Prop}
    {r : List ValType → List ValType → Prop}
    (hno : ∀ ops dead, Acts (p.opened .else_ endTypes ops dead) no r)
    (hclose : Leaves p .else_ endTypes close c) :
    Leaves p .if_ endTypes (do Check.instr ctx .else_; no; close) (r [] endTypes ∧ c) := by
  have helse : ∀ ops dead inner innerDead position v,
      Check.Ok (Check.instr ctx .else_) ((p.opened .if_ endTypes ops dead).state inner innerDead position) () v ↔
        ∃ f u, Check.Ok Check.popFrame ((p.opened .if_ endTypes ops dead).state inner innerDead position) f u ∧
          Check.Ok (Check.pushFrame .else_ f.startTypes f.endTypes) u () v := by
    intro ops dead inner innerDead position v
    simp only [Check.instr]
    rw [Check.ok_bind_of_reads fun _ _ => Check.ok_get, ← Check.ok_bind]
    rfl
  intro ops dead inner innerDead position
  simp only [Check.ok_bind, helse]
  constructor
  · rintro ha ⟨hr, hc⟩
    obtain ⟨position', hp⟩ :=
      popFrame_of_admits (p := p.opened .if_ endTypes ops dead) ha position
    have hn := hno ops dead [] false position'
    obtain ⟨u, hu⟩ := hn.1 ⟨[], endTypes, admits_nil.2 rfl, hr⟩
    obtain ⟨inner', innerDead', position'', rfl, hi⟩ := hn.2 u hu
    obtain ⟨v, hv⟩ :=
      (hclose ops dead inner' innerDead' position'').1 ((hi endTypes).2 ⟨[], admits_nil.2 rfl, hr⟩) hc
    exact ⟨v, (), _, ⟨_, _, hp, ok_pushFrame.2 rfl⟩, (), _, hu, hv⟩
  · rintro v ⟨_, _, ⟨f, u, hp, hpush⟩, _, w, hw, hv⟩
    obtain ⟨ha, rfl, position', rfl⟩ := admits_of_popFrame hp
    have hopen : Check.Ok (Check.pushFrame .else_ [] endTypes) (p.state ops dead position') () _ := hpush
    obtain rfl := ok_pushFrame.1 hopen
    obtain ⟨inner', innerDead', position'', rfl, hi⟩ := (hno ops dead [] false position').2 w hw
    obtain ⟨he, hc, h⟩ := (hclose ops dead inner' innerDead' position'').2 v hv
    obtain ⟨ts, hts, hr⟩ := (hi endTypes).1 he
    obtain rfl := admits_nil_live.1 hts
    exact ⟨ha, ⟨hr, hc⟩, h⟩

/-- A block turns the empty stack of its own into its results. -/
theorem acts_block {opcode : Opcode} {endTypes : List ValType} {body close : Check Unit} {c : Prop}
    {r : List ValType → List ValType → Prop}
    (hbody : ∀ ops dead, Acts (p.opened opcode endTypes ops dead) body r)
    (hclose : Leaves p opcode endTypes close c) :
    Acts p (do Check.pushFrame opcode [] endTypes; body; close) fun ts us =>
      (r [] endTypes ∧ c) ∧ us = ts ++ endTypes := by
  intro ops dead position
  have hb := hbody ops dead [] false position
  simp only [Check.ok_bind]
  constructor
  · rintro ⟨_, _, _, ⟨hr, hc⟩, _⟩
    obtain ⟨u, hu⟩ := hb.1 ⟨[], endTypes, admits_nil.2 rfl, hr⟩
    obtain ⟨inner, innerDead, position', rfl, hi⟩ := hb.2 u hu
    obtain ⟨v, hv⟩ :=
      (hclose ops dead inner innerDead position').1 ((hi endTypes).2 ⟨[], admits_nil.2 rfl, hr⟩) hc
    exact ⟨v, (), _, ok_pushFrame.2 rfl, (), _, hu, hv⟩
  · rintro v ⟨_, _, hf, _, w, hw, hv⟩
    -- the frame is closed on what the body left, and the block's results go onto the operands around it
    obtain rfl := ok_pushFrame.1 hf
    obtain ⟨inner, innerDead, position', rfl, hi⟩ := hb.2 w hw
    obtain ⟨he, hc, position'', hpush⟩ := (hclose ops dead inner innerDead position').2 v hv
    obtain ⟨ts, hts, hr⟩ := (hi endTypes).1 he
    obtain rfl := admits_nil_live.1 hts
    obtain ⟨ops', dead', _, rfl, ha⟩ := (acts_pushAll endTypes ops dead position'').2 v hpush
    refine ⟨ops', dead', _, rfl, ?_⟩
    intro us
    rw [ha us]
    simp [hr, hc]

def Check.steps (ctx : Context) : List (Nat × Instr) → Check Unit
  | [] => return
  | (offset, i) :: rest => do
    enter offset
    instr ctx i
    steps ctx rest

@[simp] theorem Check.steps_append (xs ys : List (Nat × Instr)) :
    steps ctx (xs ++ ys) = (do steps ctx xs; steps ctx ys) := by
  induction xs with
  | nil => simp [steps]
  | cons x xs ih => simp [steps, ih]

theorem exists_steps_append_cons {steps : List (Nat × Instr)} {xs ys : List Instr} {i : Instr}
    (h : steps.map Prod.snd = xs ++ i :: ys) :
    ∃ before o after, steps = before ++ (o, i) :: after ∧ before.map Prod.snd = xs ∧
      after.map Prod.snd = ys := by
  obtain ⟨before, steps', rfl, hb, h'⟩ := List.map_eq_append_iff.1 h
  obtain ⟨⟨o, _⟩, after, rfl, rfl, ha⟩ := List.map_eq_cons_iff.1 h'
  exact ⟨before, o, after, rfl, hb, ha⟩

theorem acts_opened {body : Code} {m : Check Unit} (h : ∀ q, Acts q m (body.HasType ctx q.results q.labels))
    (opcode : Opcode) (endTypes : List ValType) (ops : List Operand) (dead : Bool) :
    Acts (p.opened opcode endTypes ops dead) m
      (body.HasType ctx p.results ((if opcode = .loop then [] else endTypes) :: p.labels)) := by
  have hq := h (p.opened opcode endTypes ops dead)
  rwa [Place.labels_opened, Place.results_opened] at hq

theorem acts_code (ctx : Context) (c : Code) {steps : List (Nat × Instr)} (hs : steps.map Prod.snd = c.instrs) :
    Acts p (Check.steps ctx steps) (c.HasType ctx p.results p.labels) := by
  -- Each construct runs its own checks and then those of the rest; what they come to in a row is its typing rule.
  induction c generalizing p steps with
  | done =>
    obtain rfl := List.map_eq_nil_iff.1 hs
    refine acts_pure.congr ?_
    intro ts us
    constructor
    · rintro rfl
      exact .done _ _
    · rintro ⟨⟩
      rfl
  | plain i hi rest ih =>
    obtain ⟨⟨o, _⟩, steps, rfl, rfl, hr⟩ := List.map_eq_cons_iff.1 hs
    refine ((acts_enter o).seq ((acts_instr hi).seq (ih hr))).congr ?_
    intro ts us
    constructor
    · rintro ⟨_, rfl, _, ⟨base, _, _, rfl, rfl, hh⟩, ht⟩
      exact .plain base hh ht
    · intro h
      cases h with
      | plain base hh ht => exact ⟨_, rfl, _, ⟨base, _, _, rfl, rfl, hh⟩, ht⟩
  | block t body rest ihb ih =>
    obtain ⟨⟨o, _⟩, steps, rfl, rfl, h⟩ := List.map_eq_cons_iff.1 hs
    obtain ⟨inside, o', after, rfl, hb, hr⟩ := exists_steps_append_cons h
    have hblock := acts_block (p := p) (acts_opened (fun _ => ihb hb) .block t.results)
      ((leaves_end ctx .block t.results).enter o')
    have hall := (acts_enter o).seq (hblock.seq (ih hr))
    simp only [Check.steps, Check.steps_append, Check.instr, bind_assoc] at hall ⊢
    refine hall.congr ?_
    intro ts us
    simp only [reduceCtorEq, false_implies, and_true, exists_eq_left', if_false]
    constructor
    · rintro ⟨_, ⟨hi, rfl⟩, ht⟩
      exact .block hi ht
    · intro h
      cases h with
      | block hi ht => exact ⟨_, ⟨hi, rfl⟩, ht⟩
  | loop t body rest ihb ih =>
    obtain ⟨⟨o, _⟩, steps, rfl, rfl, h⟩ := List.map_eq_cons_iff.1 hs
    obtain ⟨inside, o', after, rfl, hb, hr⟩ := exists_steps_append_cons h
    have hblock := acts_block (p := p) (acts_opened (fun _ => ihb hb) .loop t.results)
      ((leaves_end ctx .loop t.results).enter o')
    have hall := (acts_enter o).seq (hblock.seq (ih hr))
    simp only [Check.steps, Check.steps_append, Check.instr, bind_assoc] at hall ⊢
    refine hall.congr ?_
    intro ts us
    simp only [reduceCtorEq, false_implies, and_true, exists_eq_left', if_true]
    constructor
    · rintro ⟨_, ⟨hi, rfl⟩, ht⟩
      exact .loop hi ht
    · intro h
      cases h with
      | loop hi ht => exact ⟨_, ⟨hi, rfl⟩, ht⟩
  | ifThen t yes rest ihy ih =>
    obtain ⟨⟨o, _⟩, steps, rfl, rfl, h⟩ := List.map_eq_cons_iff.1 hs
    obtain ⟨inside, o', after, rfl, hy, hr⟩ := exists_steps_append_cons h
    have hblock := acts_block (p := p) (acts_opened (fun _ => ihy hy) .if_ t.results)
      ((leaves_end ctx .if_ t.results).enter o')
    have hall := (acts_enter o).seq ((acts_popExpected .i32).seq (hblock.seq (ih hr)))
    simp only [Check.steps, Check.steps_append, Check.instr, bind_assoc] at hall ⊢
    refine hall.congr ?_
    intro ts us
    simp only [reduceCtorEq, forall_const, exists_eq_left', if_false]
    constructor
    · rintro ⟨_, rfl, _, ⟨⟨hi, hn⟩, rfl⟩, ht⟩
      exact .ifThen hn hi ht
    · intro h
      cases h with
      | ifThen hn hi ht => exact ⟨_, rfl, _, ⟨⟨hi, hn⟩, rfl⟩, ht⟩
  | ifElse t yes no rest ihy ihn ih =>
    obtain ⟨⟨o, _⟩, steps, rfl, rfl, h⟩ := List.map_eq_cons_iff.1 hs
    obtain ⟨inside, o', steps, rfl, hy, h'⟩ := exists_steps_append_cons h
    obtain ⟨other, o'', after, rfl, hn, hr⟩ := exists_steps_append_cons h'
    have helse := leaves_else (p := p) ctx (acts_opened (fun _ => ihn hn) .else_ t.results)
      ((leaves_end ctx .else_ t.results).enter o'')
    have hblock := acts_block (p := p) (acts_opened (fun _ => ihy hy) .if_ t.results) (helse.enter o')
    have hall := (acts_enter o).seq ((acts_popExpected .i32).seq (hblock.seq (ih hr)))
    simp only [Check.steps, Check.steps_append, Check.instr, bind_assoc] at hall ⊢
    refine hall.congr ?_
    intro ts us
    simp only [reduceCtorEq, false_implies, and_true, exists_eq_left', if_false]
    constructor
    · rintro ⟨_, rfl, _, ⟨⟨hi, ho⟩, rfl⟩, ht⟩
      exact .ifElse hi ho ht
    · intro h
      cases h with
      | ifElse hi ho ht => exact ⟨_, rfl, _, ⟨⟨hi, ho⟩, rfl⟩, ht⟩

end ImpWasm.Wasm
