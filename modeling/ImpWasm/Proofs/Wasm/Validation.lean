import ImpWasm.Proofs.Wasm.Acts
set_option autoImplicit false

namespace ImpWasm.Wasm

/-- The rest of a body in which frames with the given opcodes are open, the innermost first. -/
inductive Closes : List Opcode → List Instr → Prop where
  | nil : Closes [] []
  | end_ {o : Opcode} {os : List Opcode} {is : List Instr} (c : Code) (rest : Closes os is) :
      Closes (o :: os) (c.instrs ++ .end_ :: is)
  | else_ {os : List Opcode} {is : List Instr} (c d : Code) (rest : Closes os is) :
      Closes (.if_ :: os) (c.instrs ++ .else_ :: (d.instrs ++ .end_ :: is))

namespace Closes

variable {o : Opcode} {os : List Opcode} {is : List Instr}

theorem prepend (c : Code) (h : Closes (o :: os) is) : Closes (o :: os) (c.instrs ++ is) := by
  cases h with
  | end_ d rest => simpa using Closes.end_ (o := o) (c.append d) rest
  | else_ d e rest => simpa using Closes.else_ (c.append d) e rest

theorem plain {i : Instr} (hi : i.isPlain = true) (h : Closes (o :: os) is) : Closes (o :: os) (i :: is) :=
  h.prepend (.plain i hi .done)

theorem block {t : BlockType} (h : Closes (.block :: o :: os) is) : Closes (o :: os) (.block t :: is) := by
  cases h with
  | end_ c rest => simpa [Code.instrs] using rest.prepend (.block t c .done)

theorem loop {t : BlockType} (h : Closes (.loop :: o :: os) is) : Closes (o :: os) (.loop t :: is) := by
  cases h with
  | end_ c rest => simpa [Code.instrs] using rest.prepend (.loop t c .done)

theorem choice {t : BlockType} (h : Closes (.if_ :: o :: os) is) : Closes (o :: os) (.if_ t :: is) := by
  cases h with
  | end_ c rest => simpa [Code.instrs] using rest.prepend (.ifThen t c .done)
  | else_ c d rest => simpa [Code.instrs] using rest.prepend (.ifElse t c d .done)

theorem other (h : Closes (.else_ :: os) is) : Closes (.if_ :: os) (.else_ :: is) := by
  cases h with
  | end_ c rest => exact .else_ .done c rest

theorem body (h : Closes [.block] is) : ∃ c : Code, is = c.instrs ++ [.end_] := by
  cases h with
  | end_ c rest =>
    cases rest
    exact ⟨c, rfl⟩

end Closes

def Validator.opcodes (v : Validator) : List Opcode := v.frames.map Frame.opcode

/-- The check opens and closes no frame. -/
def Check.Keeps {α : Type} (m : Check α) : Prop :=
  ∀ v a v', Check.Ok m v a v' → v'.opcodes = v.opcodes

namespace Check

variable {α β : Type} {ctx : Context}

theorem Keeps.bind {m : Check α} {f : α → Check β} (hm : m.Keeps) (hf : ∀ a, (f a).Keeps) :
    (m >>= f).Keeps := by
  intro v b v' h
  obtain ⟨a, u, hu, hv⟩ := ok_bind.1 h
  exact (hf a u b v' hv).trans (hm v a u hu)

theorem keeps_pure (a : α) : (pure a : Check α).Keeps := by
  intro v b v' h
  obtain ⟨_, rfl⟩ := ok_pure.1 h
  rfl

theorem keeps_throw (e : ValidationError) : (throw e : Check α).Keeps := by
  intro v a v' h
  exact (ok_throw.1 h).elim

theorem keeps_get : (get : Check Validator).Keeps := by
  intro v u v' h
  obtain ⟨_, rfl⟩ := ok_get.1 h
  rfl

theorem keeps_modify {f : Validator → Validator} (h : ∀ v, (f v).opcodes = v.opcodes) :
    (modify f : Check PUnit).Keeps := by
  intro v u v' hv
  obtain rfl := ok_modify.1 hv
  exact h v

theorem Keeps.discard {m : Check α} (h : m.Keeps) : (discard m).Keeps := by
  intro v u v' hv
  obtain ⟨a, ha⟩ := ok_discard.1 hv
  exact h v a v' ha

theorem keeps_forM {xs : List α} {f : α → Check PUnit} (h : ∀ x, (f x).Keeps) : (xs.forM f).Keeps := by
  induction xs with
  | nil => exact keeps_pure _
  | cons x xs ih => exact (h x).bind fun _ => ih

theorem keeps_push (o : Operand) : (push o).Keeps := keeps_modify fun _ => rfl

theorem keeps_pop : pop.Keeps := by
  intro v o v' h
  unfold pop at h
  rw [ok_bind_of_reads fun _ _ => ok_get] at h
  split at h
  · split at h
    · exact keeps_pure _ v o v' h
    · exact keeps_throw _ v o v' h
  · split at h
    · exact keeps_throw _ v o v' h
    · obtain ⟨_, u, hu, hv⟩ := ok_bind.1 h
      obtain rfl := ok_set.1 hu
      obtain ⟨_, rfl⟩ := ok_pure.1 hv
      rfl

theorem keeps_popExpected (t : ValType) : (popExpected t).Keeps := by
  refine keeps_pop.bind ?_
  intro o
  cases o with
  | unknown => exact keeps_pure _
  | known s =>
    simp only
    split
    · exact keeps_pure _
    · exact keeps_throw _

theorem keeps_popAll (ts : List ValType) : (popAll ts).Keeps :=
  keeps_forM fun t => (keeps_popExpected t).discard

theorem keeps_pushAll (ts : List ValType) : (pushAll ts).Keeps := keeps_forM fun t => keeps_push (.known t)

theorem keeps_setUnreachable : setUnreachable.Keeps := by
  refine keeps_modify ?_
  intro v
  obtain ⟨operands, frames, position⟩ := v
  cases frames <;> rfl

theorem keeps_label (d : UInt32) : (label d).Keeps := by
  refine keeps_get.bind ?_
  intro v
  cases v.frames[d.toNat]? with
  | none => exact keeps_throw _
  | some f => exact keeps_pure _

theorem keeps_local (i : UInt32) : (local? ctx i).Keeps := by
  unfold local?
  cases ctx.locals[i.toNat]? with
  | none => exact keeps_throw _
  | some t => exact keeps_pure _

theorem keeps_global (i : UInt32) : (global? ctx i).Keeps := by
  unfold global?
  cases ctx.globalType i with
  | none => exact keeps_throw _
  | some g => exact keeps_pure _

theorem keeps_join (a b : Operand) : (join a b).Keeps := by
  intro v o v' h
  obtain ⟨rfl, _⟩ := ok_join h
  rfl

theorem keeps_instr {i : Instr} (hi : i.isPlain = true) : (instr ctx i).Keeps := by
  cases i with
  | block | loop | if_ | else_ | end_ => cases hi
  | unreachable => exact keeps_setUnreachable
  | nop => exact keeps_pure _
  | br d => exact (keeps_label d).bind fun ls => (keeps_popAll ls).bind fun _ => keeps_setUnreachable
  | brIf d =>
    exact (keeps_popExpected _).discard.bind fun _ => (keeps_label d).bind fun ls =>
      (keeps_popAll ls).bind fun _ => keeps_pushAll ls
  | return_ => exact keeps_get.bind fun v => (keeps_popAll _).bind fun _ => keeps_setUnreachable
  | call i =>
    simp only [instr]
    cases ctx.functionType i with
    | none => exact keeps_throw _
    | some t => exact (keeps_popAll _).bind fun _ => keeps_pushAll _
  | drop => exact keeps_pop.discard
  | select =>
    exact (keeps_popExpected _).discard.bind fun _ => keeps_pop.bind fun a => keeps_pop.bind fun b =>
      (keeps_join a b).bind fun _ => keeps_push _
  | localGet i => exact (keeps_local i).bind fun _ => keeps_push _
  | localSet i => exact (keeps_local i).bind fun t => (keeps_popExpected t).discard
  | localTee i =>
    exact (keeps_local i).bind fun t => (keeps_popExpected t).discard.bind fun _ => keeps_push _
  | globalGet i => exact (keeps_global i).bind fun _ => keeps_push _
  | globalSet i =>
    refine (keeps_global i).bind ?_
    intro g
    split
    · exact (keeps_popExpected _).discard
    · exact keeps_throw _
  | i32Const v => exact keeps_push _
  | i64Const v => exact keeps_push _
  | numeric op => exact (keeps_popAll _).bind fun _ => keeps_push _

end Check

namespace Check

variable {ctx : Context} {v v' : Validator}

theorem opcodes_pushFrame {o : Opcode} {ts us : List ValType} (h : Ok (pushFrame o ts us) v () v') :
    v'.opcodes = o :: v.opcodes := by
  unfold pushFrame at h
  rw [ok_bind_of_reads fun _ _ => ok_get] at h
  obtain ⟨_, u, hu, hv⟩ := ok_bind.1 h
  obtain rfl := ok_modify.1 hv
  rw [← keeps_pushAll ts v () u hu]
  rfl

theorem opcodes_popFrame {f : Frame} (h : Ok popFrame v f v') : v.opcodes = f.opcode :: v'.opcodes := by
  obtain ⟨operands, frames, position⟩ := v
  unfold popFrame at h
  rw [ok_bind_of_reads fun _ _ => ok_get] at h
  cases frames with
  | nil => exact (ok_throw.1 h).elim
  | cons g outer =>
    simp only [ok_bind, ok_modify, ok_get] at h
    obtain ⟨_, u, _, _, _, rfl, _, _, ⟨rfl, rfl⟩, h⟩ := h
    split at h
    · obtain ⟨rfl, rfl⟩ := ok_pure.1 h
      rfl
    · exact (ok_throw.1 h).elim

theorem opcodes_end (h : Ok (instr ctx .end_) v () v') : ∃ o, v.opcodes = o :: v'.opcodes := by
  obtain ⟨f, u, hu, hv⟩ := ok_bind.1 h
  refine ⟨f.opcode, ?_⟩
  rw [opcodes_popFrame hu]
  split at hv
  · exact (ok_throw.1 hv).elim
  · rw [keeps_pushAll _ u () v' hv]

theorem opcodes_else (h : Ok (instr ctx .else_) v () v') :
    ∃ os, v.opcodes = .if_ :: os ∧ v'.opcodes = .else_ :: os := by
  obtain ⟨operands, frames, position⟩ := v
  simp only [instr] at h
  rw [ok_bind_of_reads fun _ _ => ok_get] at h
  cases frames with
  | nil => exact (ok_throw.1 h).elim
  | cons g outer =>
    simp only at h
    split at h
    · rename_i hg
      obtain ⟨f, u, hu, hv⟩ := ok_bind.1 h
      have hp := opcodes_popFrame hu
      obtain ⟨_, hos⟩ := List.cons.inj hp
      refine ⟨u.opcodes, ?_, opcodes_pushFrame hv⟩
      rw [← hos, ← hg]
      rfl
    · exact (ok_throw.1 h).elim

theorem opcodes_if {t : BlockType} (h : Ok (instr ctx (.if_ t)) v () v') : v'.opcodes = .if_ :: v.opcodes := by
  obtain ⟨_, u, hu, hv⟩ := ok_bind.1 h
  rw [opcodes_pushFrame hv, (keeps_popExpected _).discard v _ u hu]

theorem closes_of_instr {i : Instr} {is : List Instr} (hi : Ok (instr ctx i) v () v') (hv : v.frames ≠ [])
    (h : Closes v'.opcodes is) : Closes v.opcodes (i :: is) := by
  obtain ⟨o, os, hos⟩ : ∃ o os, v.opcodes = o :: os :=
    List.exists_cons_of_ne_nil (by simpa [Validator.opcodes] using hv)
  cases i with
  | block t =>
    rw [opcodes_pushFrame hi, hos] at h
    exact hos ▸ h.block
  | loop t =>
    rw [opcodes_pushFrame hi, hos] at h
    exact hos ▸ h.loop
  | if_ t =>
    rw [opcodes_if hi, hos] at h
    exact hos ▸ h.choice
  | else_ =>
    obtain ⟨os, ho, hu⟩ := opcodes_else hi
    rw [hu] at h
    exact ho ▸ h.other
  | end_ =>
    obtain ⟨o, ho⟩ := opcodes_end hi
    exact ho ▸ .end_ .done h
  | _ =>
    rw [keeps_instr rfl v () v' hi, hos] at h
    exact hos ▸ h.plain rfl

/-- A run that closes every frame has gone through nested code. -/
theorem closes_of_steps {xs : List (Nat × Instr)} (h : Ok (steps ctx xs) v () v') (hv : v'.frames = []) :
    Closes v.opcodes (xs.map Prod.snd) := by
  induction xs generalizing v with
  | nil =>
    obtain ⟨_, rfl⟩ := ok_pure.1 h
    rw [Validator.opcodes, hv]
    exact .nil
  | cons x xs ih =>
    obtain ⟨_, _, he, h⟩ := ok_bind.1 h
    obtain ⟨hne, rfl⟩ := ok_enter.1 he
    obtain ⟨_, u, hi, h⟩ := ok_bind.1 h
    exact closes_of_instr (v := { v with position := x.1 }) hi hne (ih h)

end Check

def Listing.steps? : Listing → Option (List (Nat × Instr))
  | .done => some []
  | .broken _ _ => none
  | .instr offset i rest => rest.steps?.map ((offset, i) :: ·)

theorem Listing.map_steps? (l : Listing) : l.steps?.map (List.map Prod.snd) = l.instrs? := by
  induction l with
  | done => rfl
  | broken => rfl
  | instr offset i rest ih =>
    rw [instrs?, ← ih]
    cases h : rest.steps? <;> simp [steps?, h]

theorem Check.ok_listing {ctx : Context} {l : Listing} {v v' : Validator} :
    Ok (listing ctx l) v () v' ↔ ∃ xs, l.steps? = some xs ∧ Ok (steps ctx xs) v () v' ∧ v'.frames = [] := by
  induction l generalizing v with
  | done =>
    simp only [listing, Listing.steps?, Option.some.injEq, exists_eq_left', steps, ok_pure, true_and]
    rw [ok_bind_of_reads fun _ _ => ok_get]
    split
    · rename_i h
      simp only [ok_pure, true_and]
      constructor
      · rintro rfl
        exact ⟨rfl, List.eq_nil_of_length_eq_zero h⟩
      · rintro ⟨h, _⟩
        exact h
    · rename_i h
      rw [ok_throw]
      constructor
      · exact False.elim
      · rintro ⟨rfl, hn⟩
        simp [hn] at h
  | broken offset cause => simp [listing, Listing.steps?]
  | instr offset i rest ih =>
    simp only [listing, ok_bind, ih, Listing.steps?, Option.map_eq_some_iff]
    constructor
    · rintro ⟨a, u, hu, b, w, hw, xs, hx, h, hf⟩
      exact ⟨_, ⟨xs, hx, rfl⟩, ok_bind.2 ⟨a, u, hu, ok_bind.2 ⟨b, w, hw, h⟩⟩, hf⟩
    · rintro ⟨_, ⟨xs, hx, rfl⟩, h, hf⟩
      obtain ⟨a, u, hu, h⟩ := ok_bind.1 h
      obtain ⟨b, w, hw, h⟩ := ok_bind.1 h
      exact ⟨a, u, hu, b, w, hw, xs, hx, h, hf⟩

def Place.body (results : List ValType) : Place where
  frame := { opcode := .block, startTypes := [], endTypes := results, height := 0 }
  floor := rfl

theorem validateBody_eq_ok_iff {ctx : Context} {results : List ValType} {bytes : Bytes} :
    validateBody ctx results bytes = .ok () ↔
      ∃ v, Check.Ok (Check.code ctx bytes) (.start results) () v := by
  unfold validateBody Check.Ok outcome
  split
  · rename_i v h
    simp [h]
  · rename_i e v h
    simp [h]

theorem Check.exists_pushAll (ts : List ValType) (v : Validator) : ∃ v', Ok (pushAll ts) v () v' := by
  induction ts generalizing v with
  | nil => exact ⟨v, ok_pure.2 ⟨rfl, rfl⟩⟩
  | cons t ts ih =>
    obtain ⟨v', h⟩ := ih { v with operands := .known t :: v.operands }
    exact ⟨v', ok_bind.2 ⟨(), _, ok_modify.2 rfl, h⟩⟩

theorem ok_steps_body {ctx : Context} {results : List ValType} {xs : List (Nat × Instr)} {c : Code}
    {offset : Nat} (hx : xs.map Prod.snd = c.instrs) :
    (∃ v, Check.Ok (Check.steps ctx (xs ++ [(offset, .end_)])) (.start results) () v ∧ v.frames = []) ↔
      c.HasType ctx results [results] [] results := by
  -- The body acts on an empty stack, and the `end` after it pops the results from what it leaves.
  have hc := acts_code (p := .body results) ctx c hx [] false 0
  simp only [Check.steps_append, Check.steps, Check.instr, Check.ok_bind]
  constructor
  · rintro ⟨_, ⟨_, u, hu, _, w, hw, _, _, ⟨f, _, hf, _⟩, _⟩, _⟩
    obtain ⟨ops, dead, position, rfl, ha⟩ := hc.2 u hu
    obtain rfl := ok_enter.1 hw
    obtain ⟨he, _⟩ := admits_of_popFrame hf
    obtain ⟨ts, hts, h⟩ := (ha results).1 he
    obtain rfl := admits_nil_live.1 hts
    exact h
  · intro h
    obtain ⟨u, hu⟩ := hc.1 ⟨[], results, admits_nil.2 rfl, h⟩
    obtain ⟨ops, dead, position, rfl, ha⟩ := hc.2 u hu
    have hr : Admits dead ops results := (ha results).2 ⟨[], admits_nil.2 rfl, h⟩
    obtain ⟨position', hp⟩ := popFrame_of_admits (p := .body results) hr offset
    obtain ⟨v, hv⟩ := Check.exists_pushAll results ⟨[], [], position'⟩
    refine ⟨v, ⟨(), _, hu, (), _, ok_enter.2 rfl, (), v, ⟨_, _, hp, ?_⟩, Check.ok_pure.2 ⟨rfl, rfl⟩⟩, ?_⟩
    · rw [if_neg (by simp [Place.body])]
      exact hv
    · simpa [Validator.opcodes] using Check.keeps_pushAll results _ () v hv

/-- A body passes just if it is nested code of the right type with an `end` behind it. -/
theorem validateBody_iff_ofBytes? {ctx : Context} {results : List ValType} {bytes : Bytes} :
    validateBody ctx results bytes = .ok () ↔
      ∃ c, Code.ofBytes? bytes = some c ∧ c.HasType ctx results [results] [] results := by
  simp only [validateBody_eq_ok_iff, Check.code, Check.ok_listing, Code.ofBytes?, Option.bind_eq_some_iff,
    ← Listing.map_steps?, Option.map_eq_some_iff, Code.ofInstrs?_eq_some_iff]
  constructor
  · rintro ⟨v, xs, hx, hv, hf⟩
    obtain ⟨c, hc⟩ := (Check.closes_of_steps hv hf).body
    obtain ⟨ys, o, zs, rfl, hy, hz⟩ := exists_steps_append_cons hc
    obtain rfl := List.map_eq_nil_iff.1 hz
    exact ⟨c, ⟨_, ⟨_, hx, rfl⟩, hc⟩, (ok_steps_body hy).1 ⟨v, hv, hf⟩⟩
  · rintro ⟨c, ⟨_, ⟨xs, hx, rfl⟩, hc⟩, h⟩
    obtain ⟨ys, o, zs, rfl, hy, hz⟩ := exists_steps_append_cons hc
    obtain rfl := List.map_eq_nil_iff.1 hz
    obtain ⟨v, hv, hf⟩ := (ok_steps_body hy).2 h
    exact ⟨v, _, hx, hv, hf⟩

/-- The validator accepts a function's body just if its bytes decode, to the last one, into nested code
closed by the function's own `end`, and that code turns the empty stack into the results. -/
theorem validateBody_ok_iff (functionType : UInt32 → Option FuncType)
    (globalType : UInt32 → Option GlobalType) (type : FuncType) (locals : List ValType) (bytes : Bytes) :
    validateBody (.ofFunction functionType globalType type locals) type.results bytes = .ok () ↔
      ∃ c : Code, Decodes bytes (c.instrs ++ [.end_]) ∧
        c.HasType (.ofFunction functionType globalType type locals) type.results [type.results] []
          type.results := by
  simp only [validateBody_iff_ofBytes?, Code.ofBytes?_eq_some_iff]

end ImpWasm.Wasm
