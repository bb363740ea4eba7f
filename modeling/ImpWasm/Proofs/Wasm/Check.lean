import ImpWasm.Proofs.Outcome
import ImpWasm.Proofs.Wasm.Typing
set_option autoImplicit false

/-!
What the operations of the validator do when they succeed. The operands above the floor of the
innermost frame stand for a set of concrete stacks, and every operation is described by the relation
between concrete stacks that it carries out.
-/
namespace ImpWasm.Wasm

namespace Check

def Ok {α : Type} (m : Check α) (v : Validator) (a : α) (v' : Validator) : Prop :=
  outcome m v = (.ok a, v')

variable {α β : Type} {v v' : Validator} {a : α} {b : β}

@[simp] theorem ok_pure {x : α} : Ok (pure x) v a v' ↔ x = a ∧ v = v' := by simp [Ok]

@[simp] theorem ok_bind {m : Check α} {f : α → Check β} :
    Ok (m >>= f) v b v' ↔ ∃ a u, Ok m v a u ∧ Ok (f a) u b v' := by
  unfold Ok
  rw [outcome_bind]
  rcases outcome m v with ⟨e | x, u⟩
  · simp
  · constructor
    · intro h
      exact ⟨x, u, rfl, h⟩
    · rintro ⟨_, _, ⟨⟩, h⟩
      exact h

theorem ok_bind_of_reads {m : Check α} {f : α → Check β} (h : ∀ x u, Ok m v x u ↔ a = x ∧ v = u) :
    Ok (m >>= f) v b v' ↔ Ok (f a) v b v' := by
  rw [ok_bind]
  constructor
  · rintro ⟨x, u, hm, hf⟩
    obtain ⟨rfl, rfl⟩ := (h x u).1 hm
    exact hf
  · intro hf
    exact ⟨a, v, (h a v).2 ⟨rfl, rfl⟩, hf⟩

@[simp] theorem ok_throw {e : ValidationError} : Ok (throw e : Check α) v a v' ↔ False := by simp [Ok]

@[simp] theorem ok_get {u : Validator} : Ok (get : Check Validator) v u v' ↔ v = u ∧ v = v' := by simp [Ok]

@[simp] theorem ok_set {s : Validator} {u : PUnit} : Ok (set s : Check PUnit) v u v' ↔ s = v' := by simp [Ok]

@[simp] theorem ok_modify {f : Validator → Validator} {u : PUnit} :
    Ok (modify f : Check PUnit) v u v' ↔ f v = v' := by simp [Ok]

@[simp] theorem ok_discard {m : Check α} {u : PUnit} : Ok (discard m) v u v' ↔ ∃ a, Ok m v a v' := by
  have h : outcome (discard m) v =
      match outcome m v with
      | (.ok _, w) => (.ok u, w)
      | (.error e, w) => (.error e, w) := by
    change outcome (m >>= fun _ => pure u) v = _
    rw [outcome_bind]
    rcases outcome m v with ⟨_ | _, _⟩ <;> rfl
  unfold Ok
  rw [h]
  rcases outcome m v with ⟨_ | _, _⟩ <;> simp

end Check

def Operand.Fits : Operand → ValType → Prop
  | .known t, u => t = u
  | .unknown, _ => True

theorem Operand.exists_fits (o : Operand) : ∃ t, o.Fits t := by
  cases o with
  | known t => exact ⟨t, rfl⟩
  | unknown => exact ⟨.i32, trivial⟩

/-- The stacks, the top first, that operands stand for. In dead code there may be more below them. -/
def Stands (dead : Bool) : List Operand → List ValType → Prop
  | [], ts => dead = true ∨ ts = []
  | o :: os, ts => ∃ t us, ts = t :: us ∧ o.Fits t ∧ Stands dead os us

/-- The same with the deepest operand first, as types are written. -/
def Admits (dead : Bool) (ops : List Operand) (ts : List ValType) : Prop := Stands dead ops ts.reverse

/-- A frame in which a check takes place: the operands that it may not touch lie at its floor. -/
structure Place where
  frame : Frame
  outer : List Frame := []
  below : List Operand := []
  floor : below.length = frame.height

namespace Place

def state (p : Place) (ops : List Operand) (dead : Bool) (position : Nat) : Validator :=
  ⟨ops ++ p.below, { p.frame with isUnreachable := dead } :: p.outer, position⟩

def labels (p : Place) : List (List ValType) := (p.frame :: p.outer).map Frame.labelTypes

def results (p : Place) : List ValType := (((p.frame :: p.outer).getLast?).map Frame.endTypes).getD []

end Place

/-- The check turns stacks into stacks as the relation says: it succeeds if some stack that the
operands stand for is related to another, and then the new operands stand for just those. -/
def Acts (p : Place) (m : Check Unit) (r : List ValType → List ValType → Prop) : Prop :=
  ∀ ops dead position,
    ((∃ ts us, Admits dead ops ts ∧ r ts us) → ∃ v, Check.Ok m (p.state ops dead position) () v) ∧
    ∀ v, Check.Ok m (p.state ops dead position) () v →
      ∃ ops' dead' position', v = p.state ops' dead' position' ∧
        ∀ us, Admits dead' ops' us ↔ ∃ ts, Admits dead ops ts ∧ r ts us

variable {p : Place} {ctx : Context}

theorem Acts.congr {m : Check Unit} {r r' : List ValType → List ValType → Prop} (h : Acts p m r)
    (hr : ∀ ts us, r ts us ↔ r' ts us) : Acts p m r' := by
  have : r = r' := by
    funext ts us
    exact propext (hr ts us)
  exact this ▸ h

theorem Acts.seq {m n : Check Unit} {r s : List ValType → List ValType → Prop} (hm : Acts p m r)
    (hn : Acts p n s) : Acts p (m >>= fun _ => n) fun ts vs => ∃ us, r ts us ∧ s us vs := by
  intro ops dead position
  constructor
  · rintro ⟨ts, vs, hts, us, hr, hs⟩
    obtain ⟨v, hv⟩ := (hm ops dead position).1 ⟨ts, us, hts, hr⟩
    obtain ⟨ops', dead', position', rfl, ha⟩ := (hm ops dead position).2 v hv
    obtain ⟨w, hw⟩ := (hn ops' dead' position').1 ⟨us, vs, (ha us).2 ⟨ts, hts, hr⟩, hs⟩
    exact ⟨w, Check.ok_bind.2 ⟨(), _, hv, hw⟩⟩
  · intro w h
    obtain ⟨_, v, hv, hw⟩ := Check.ok_bind.1 h
    obtain ⟨ops', dead', position', rfl, ha⟩ := (hm ops dead position).2 v hv
    obtain ⟨ops'', dead'', position'', rfl, hb⟩ := (hn ops' dead' position').2 w hw
    refine ⟨ops'', dead'', position'', rfl, ?_⟩
    intro vs
    rw [hb vs]
    constructor
    · rintro ⟨us, hus, hs⟩
      obtain ⟨ts, hts, hr⟩ := (ha us).1 hus
      exact ⟨ts, hts, us, hr, hs⟩
    · rintro ⟨ts, hts, us, hr, hs⟩
      exact ⟨us, (ha us).2 ⟨ts, hts, hr⟩, hs⟩

theorem acts_throw (e : ValidationError) : Acts p (throw e) fun _ _ => False := by
  intro ops dead position
  constructor
  · rintro ⟨_, _, _, h⟩
    exact h.elim
  · intro v h
    exact (Check.ok_throw.1 h).elim

theorem acts_pure : Acts p (pure ()) fun ts us => ts = us := by
  intro ops dead position
  refine ⟨fun _ => ⟨_, Check.ok_pure.2 ⟨rfl, rfl⟩⟩, ?_⟩
  intro v h
  obtain ⟨_, rfl⟩ := Check.ok_pure.1 h
  refine ⟨ops, dead, position, rfl, ?_⟩
  intro us
  simp

theorem acts_push (t : ValType) : Acts p (Check.push (.known t)) fun ts us => us = ts ++ [t] := by
  intro ops dead position
  refine ⟨fun _ => ⟨_, Check.ok_modify.2 rfl⟩, ?_⟩
  intro v h
  obtain rfl := Check.ok_modify.1 h
  refine ⟨.known t :: ops, dead, position, rfl, ?_⟩
  intro us
  simp only [Admits, Stands, Operand.Fits]
  constructor
  · rintro ⟨_, ts, hu, rfl, hts⟩
    refine ⟨ts.reverse, by simpa using hts, ?_⟩
    rw [← List.reverse_reverse us, hu]
    simp
  · rintro ⟨ts, hts, rfl⟩
    exact ⟨t, ts.reverse, by simp, rfl, hts⟩

theorem acts_pushAll (types : List ValType) : Acts p (Check.pushAll types) fun ts us => us = ts ++ types := by
  induction types with
  | nil => exact acts_pure.congr (by simp [eq_comm])
  | cons t types ih =>
    refine ((acts_push t).seq ih).congr ?_
    intro ts us
    simp

/-- A pop takes the top operand, or at the floor of dead code nothing at all. -/
theorem ok_pop {ops : List Operand} {dead : Bool} {position : Nat} {o : Operand} {v : Validator} :
    Check.Ok Check.pop (p.state ops dead position) o v ↔
      (∃ rest, ops = o :: rest ∧ v = p.state rest dead position) ∨
      (ops = [] ∧ dead = true ∧ o = .unknown ∧ v = p.state [] true position) := by
  have hf : (p.state ops dead position).floor = p.below.length := p.floor.symm
  have hd : (p.state ops dead position).inDeadCode = dead := rfl
  have ho : (p.state ops dead position).operands = ops ++ p.below := rfl
  simp only [Check.pop, Check.ok_bind, Check.ok_get]
  cases ops with
  | nil =>
    constructor
    · rintro ⟨_, _, ⟨rfl, rfl⟩, h⟩
      rw [hf, hd, ho, if_pos (by simp)] at h
      cases dead with
      | false => exact (Check.ok_throw.1 h).elim
      | true =>
        obtain ⟨rfl, rfl⟩ := Check.ok_pure.1 h
        exact .inr ⟨rfl, rfl, rfl, rfl⟩
    · rintro (⟨_, h, _⟩ | ⟨_, rfl, rfl, rfl⟩)
      · simp at h
      · refine ⟨_, _, ⟨rfl, rfl⟩, ?_⟩
        rw [hf, hd, ho, if_pos (by simp), if_pos rfl]
        exact Check.ok_pure.2 ⟨rfl, rfl⟩
  | cons x rest =>
    have hne : (x :: rest ++ p.below).length ≠ p.below.length := by
      simp only [List.cons_append, List.length_cons, List.length_append]; omega
    constructor
    · rintro ⟨_, _, ⟨rfl, rfl⟩, h⟩
      rw [hf, hd, ho, if_neg hne] at h
      simp only [List.cons_append, Check.ok_bind, Check.ok_set, Check.ok_pure] at h
      obtain ⟨_, _, rfl, rfl, rfl⟩ := h
      exact .inl ⟨rest, rfl, rfl⟩
    · rintro (⟨_, h, rfl⟩ | ⟨h, _⟩)
      · cases h
        refine ⟨_, _, ⟨rfl, rfl⟩, ?_⟩
        rw [hf, hd, ho, if_neg hne]
        simp only [List.cons_append, Check.ok_bind, Check.ok_set, Check.ok_pure]
        exact ⟨⟨⟩, _, rfl, trivial, rfl⟩
      · simp at h

theorem ok_popExpected {ops : List Operand} {dead : Bool} {position : Nat} {t : ValType} {o : Operand}
    {v : Validator} :
    Check.Ok (Check.popExpected t) (p.state ops dead position) o v ↔
      o.Fits t ∧ Check.Ok Check.pop (p.state ops dead position) o v := by
  simp only [Check.popExpected, Check.ok_bind]
  constructor
  · rintro ⟨x, u, hx, h⟩
    cases x with
    | unknown =>
      obtain ⟨rfl, rfl⟩ := Check.ok_pure.1 h
      exact ⟨trivial, hx⟩
    | known s =>
      simp only at h
      split at h
      · rename_i hs
        obtain ⟨rfl, rfl⟩ := Check.ok_pure.1 h
        exact ⟨hs, hx⟩
      · exact (Check.ok_throw.1 h).elim
  · rintro ⟨hf, hx⟩
    refine ⟨o, v, hx, ?_⟩
    cases o with
    | unknown => exact Check.ok_pure.2 ⟨rfl, rfl⟩
    | known s =>
      have hs : s = t := hf
      simp [hs]

theorem admits_concat {dead : Bool} {o : Operand} {ops : List Operand} {ts : List ValType} {t : ValType} :
    Admits dead (o :: ops) (ts ++ [t]) ↔ o.Fits t ∧ Admits dead ops ts := by
  simp only [Admits, Stands, List.reverse_append, List.reverse_cons, List.reverse_nil, List.nil_append,
    List.cons_append, List.cons.injEq]
  constructor
  · rintro ⟨_, _, ⟨rfl, rfl⟩, h⟩
    exact h
  · intro h
    exact ⟨t, ts.reverse, ⟨rfl, rfl⟩, h⟩

theorem Admits.concat_of_cons {dead : Bool} {o : Operand} {ops : List Operand} {ts : List ValType}
    (h : Admits dead (o :: ops) ts) : ∃ us t, ts = us ++ [t] ∧ o.Fits t ∧ Admits dead ops us := by
  obtain ⟨t, us, hr, hf, hs⟩ := h
  refine ⟨us.reverse, t, ?_, hf, by simpa [Admits] using hs⟩
  rw [← List.reverse_reverse ts, hr]
  simp

theorem admits_nil_dead (ts : List ValType) : Admits true [] ts := .inl rfl

theorem admits_nil_live {ts : List ValType} : Admits false [] ts ↔ ts = [] := by
  simp [Admits, Stands]

theorem pop_splits {ops : List Operand} {dead : Bool} {position : Nat} {o : Operand} {v : Validator}
    (h : Check.Ok Check.pop (p.state ops dead position) o v) :
    ∃ rest, v = p.state rest dead position ∧
      ∀ ts t, Admits dead ops (ts ++ [t]) ↔ o.Fits t ∧ Admits dead rest ts := by
  obtain ⟨rest, rfl, rfl⟩ | ⟨rfl, rfl, rfl, rfl⟩ := ok_pop.1 h
  · exact ⟨rest, rfl, fun _ _ => admits_concat⟩
  · refine ⟨[], rfl, ?_⟩
    intro ts t
    exact ⟨fun _ => ⟨trivial, admits_nil_dead _⟩, fun _ => admits_nil_dead _⟩

theorem exists_pop {ops : List Operand} {dead : Bool} {ts : List ValType} {t : ValType}
    (h : Admits dead ops (ts ++ [t])) (position : Nat) :
    ∃ o v, Check.Ok Check.pop (p.state ops dead position) o v := by
  cases ops with
  | cons o rest => exact ⟨o, _, ok_pop.2 (.inl ⟨rest, rfl, rfl⟩)⟩
  | nil =>
    cases dead with
    | true => exact ⟨.unknown, _, ok_pop.2 (.inr ⟨rfl, rfl, rfl, rfl⟩)⟩
    | false => simp [admits_nil_live] at h

theorem acts_pop : Acts p (discard Check.pop) fun ts us => ∃ t, ts = us ++ [t] := by
  intro ops dead position
  constructor
  · rintro ⟨_, us, hts, t, rfl⟩
    obtain ⟨o, v, h⟩ := exists_pop hts position
    exact ⟨v, Check.ok_discard.2 ⟨o, h⟩⟩
  · intro v h
    obtain ⟨o, ho⟩ := Check.ok_discard.1 h
    obtain ⟨rest, rfl, hs⟩ := pop_splits ho
    refine ⟨rest, dead, position, rfl, ?_⟩
    intro us
    constructor
    · intro hu
      obtain ⟨t, ht⟩ := o.exists_fits
      exact ⟨us ++ [t], (hs us t).2 ⟨ht, hu⟩, t, rfl⟩
    · rintro ⟨_, hts, t, rfl⟩
      exact ((hs us t).1 hts).2

theorem acts_popExpected (t : ValType) :
    Acts p (discard (Check.popExpected t)) fun ts us => ts = us ++ [t] := by
  intro ops dead position
  constructor
  · rintro ⟨_, us, hts, rfl⟩
    obtain ⟨o, v, h⟩ := exists_pop hts position
    obtain ⟨rest, rfl, hs⟩ := pop_splits h
    exact ⟨_, Check.ok_discard.2 ⟨o, ok_popExpected.2 ⟨((hs us t).1 hts).1, h⟩⟩⟩
  · intro v h
    obtain ⟨o, ho⟩ := Check.ok_discard.1 h
    obtain ⟨hf, ho⟩ := ok_popExpected.1 ho
    obtain ⟨rest, rfl, hs⟩ := pop_splits ho
    refine ⟨rest, dead, position, rfl, ?_⟩
    intro us
    constructor
    · intro hu
      exact ⟨us ++ [t], (hs us t).2 ⟨hf, hu⟩, rfl⟩
    · rintro ⟨_, hts, rfl⟩
      exact ((hs us t).1 hts).2

theorem acts_popAll (types : List ValType) : Acts p (Check.popAll types) fun ts us => ts = us ++ types := by
  -- the pops run over the reversed list, so the induction does too
  suffices h : ∀ rev : List ValType,
      Acts p (rev.forM fun t => discard (Check.popExpected t)) fun ts us => ts = us ++ rev.reverse by
    simpa [Check.popAll] using h types.reverse
  intro rev
  induction rev with
  | nil => exact acts_pure.congr (by simp)
  | cons t rev ih =>
    refine ((acts_popExpected t).seq ih).congr ?_
    intro ts us
    constructor
    · rintro ⟨_, rfl, rfl⟩
      simp
    · rintro rfl
      exact ⟨us ++ rev.reverse, by simp, rfl⟩

theorem exists_admits (dead : Bool) (ops : List Operand) : ∃ ts, Admits dead ops ts := by
  induction ops with
  | nil => exact ⟨[], .inr rfl⟩
  | cons o ops ih =>
    obtain ⟨ts, hts⟩ := ih
    obtain ⟨t, ht⟩ := o.exists_fits
    exact ⟨ts ++ [t], admits_concat.2 ⟨ht, hts⟩⟩

theorem acts_setUnreachable : Acts p Check.setUnreachable fun _ _ => True := by
  intro ops dead position
  refine ⟨fun _ => ⟨_, Check.ok_modify.2 rfl⟩, ?_⟩
  intro v h
  obtain rfl := Check.ok_modify.1 h
  refine ⟨[], true, position, ?_, ?_⟩
  · have hl : ops.length + p.below.length - p.frame.height = ops.length := by
      have := p.floor
      omega
    simp [Place.state, hl]
  · intro us
    obtain ⟨ts, hts⟩ := exists_admits dead ops
    exact ⟨fun _ => ⟨ts, hts, trivial⟩, fun _ => admits_nil_dead _⟩

theorem ok_join {a b o : Operand} {v v' : Validator} (h : Check.Ok (Check.join a b) v o v') :
    v = v' ∧ ∀ t, o.Fits t ↔ a.Fits t ∧ b.Fits t := by
  cases a with
  | unknown =>
    obtain ⟨rfl, rfl⟩ := Check.ok_pure.1 h
    exact ⟨rfl, fun t => by simp [Operand.Fits]⟩
  | known s =>
    cases b with
    | unknown =>
      obtain ⟨rfl, rfl⟩ := Check.ok_pure.1 h
      exact ⟨rfl, fun t => by simp [Operand.Fits]⟩
    | known t =>
      simp only [Check.join] at h
      split at h
      · rename_i hst
        obtain ⟨rfl, rfl⟩ := Check.ok_pure.1 h
        exact ⟨rfl, fun u => by simp [Operand.Fits, hst]⟩
      · exact (Check.ok_throw.1 h).elim

theorem ok_join_of_fits {a b : Operand} {t : ValType} (ha : a.Fits t) (hb : b.Fits t) (v : Validator) :
    ∃ o, Check.Ok (Check.join a b) v o v := by
  cases a with
  | unknown => exact ⟨b, Check.ok_pure.2 ⟨rfl, rfl⟩⟩
  | known s =>
    cases b with
    | unknown => exact ⟨.known s, Check.ok_pure.2 ⟨rfl, rfl⟩⟩
    | known u =>
      have hsu : s = u := Eq.trans ha (Eq.symm hb)
      exact ⟨.known s, by simp [Check.join, hsu]⟩

theorem acts_choice : Acts p (do
    let a ← Check.pop
    let b ← Check.pop
    Check.push (← Check.join a b)) fun ts us => ∃ base t, ts = base ++ [t] ++ [t] ∧ us = base ++ [t] := by
  intro ops dead position
  simp only [Check.ok_bind]
  constructor
  · rintro ⟨_, _, hts, base, t, rfl, rfl⟩
    obtain ⟨a, _, ha⟩ := exists_pop hts position
    obtain ⟨rest, rfl, hs⟩ := pop_splits ha
    obtain ⟨hat, hts⟩ := (hs _ t).1 hts
    obtain ⟨b, _, hb⟩ := exists_pop hts position
    obtain ⟨rest', rfl, hs'⟩ := pop_splits hb
    obtain ⟨o, ho⟩ := ok_join_of_fits hat ((hs' _ t).1 hts).1 (p.state rest' dead position)
    exact ⟨_, a, _, ha, b, _, hb, o, _, ho, Check.ok_modify.2 rfl⟩
  · rintro v ⟨a, _, ha, b, _, hb, o, _, ho, h⟩
    obtain ⟨rest, rfl, hs⟩ := pop_splits ha
    obtain ⟨rest', rfl, hs'⟩ := pop_splits hb
    obtain ⟨rfl, hf⟩ := ok_join ho
    obtain rfl := Check.ok_modify.1 h
    refine ⟨o :: rest', dead, position, rfl, ?_⟩
    intro us
    constructor
    · intro hu
      obtain ⟨base, t, rfl, ht, hb⟩ := hu.concat_of_cons
      obtain ⟨hat, hbt⟩ := (hf t).1 ht
      exact ⟨base ++ [t] ++ [t], (hs _ t).2 ⟨hat, (hs' _ t).2 ⟨hbt, hb⟩⟩, base, t, rfl, rfl⟩
    · rintro ⟨_, hts, base, t, rfl, rfl⟩
      obtain ⟨hat, hts⟩ := (hs _ t).1 hts
      obtain ⟨hbt, hb⟩ := (hs' _ t).1 hts
      exact admits_concat.2 ⟨(hf t).2 ⟨hat, hbt⟩, hb⟩

theorem Acts.of_ok_iff {m n : Check Unit} {r : List ValType → List ValType → Prop} (h : Acts p n r)
    (hmn : ∀ ops dead position v, Check.Ok m (p.state ops dead position) () v ↔
      Check.Ok n (p.state ops dead position) () v) : Acts p m r := by
  intro ops dead position
  simp only [hmn]
  exact h ops dead position

/-- Takes operands of the first types and leaves operands of the second. -/
theorem acts_effect (xs ys : List ValType) :
    Acts p (do Check.popAll xs; Check.pushAll ys) fun ts us => ∃ base, ts = base ++ xs ∧ us = base ++ ys :=
  (acts_popAll xs).seq (acts_pushAll ys)

theorem ok_label {ops : List Operand} {dead : Bool} {position : Nat} {d : UInt32} {ls : List ValType}
    {v : Validator} :
    Check.Ok (Check.label d) (p.state ops dead position) ls v ↔
      p.labels[d.toNat]? = some ls ∧ p.state ops dead position = v := by
  have hl : p.labels[d.toNat]? = ((p.state ops dead position).frames[d.toNat]?).map Frame.labelTypes := by
    rw [← List.getElem?_map]
    rfl
  simp only [Check.label, Check.ok_bind, Check.ok_get, hl]
  cases hf : (p.state ops dead position).frames[d.toNat]? with
  | none =>
    simp only [Option.map_none, reduceCtorEq, false_and, iff_false]
    rintro ⟨_, _, ⟨rfl, rfl⟩, h⟩
    simp [hf] at h
  | some f =>
    constructor
    · rintro ⟨_, _, ⟨rfl, rfl⟩, h⟩
      simpa [hf] using h
    · rintro ⟨h, rfl⟩
      exact ⟨_, _, ⟨rfl, rfl⟩, by simpa [hf] using h⟩

theorem acts_label {d : UInt32} {k : List ValType → Check Unit}
    {r : List ValType → List ValType → List ValType → Prop}
    (hk : ∀ ls, p.labels[d.toNat]? = some ls → Acts p (k ls) (r ls)) :
    Acts p (Check.label d >>= k) fun ts us => ∃ ls, p.labels[d.toNat]? = some ls ∧ r ls ts us := by
  cases hl : p.labels[d.toNat]? with
  | none =>
    refine ((acts_throw (.unknownLabel d)).congr (by simp)).of_ok_iff ?_
    simp [ok_label, hl]
  | some ls =>
    refine ((hk ls hl).congr (by simp)).of_ok_iff ?_
    intro ops dead position v
    exact Check.ok_bind_of_reads fun _ _ => by simp [ok_label, hl]

theorem acts_local {i : UInt32} {k : ValType → Check Unit} {r : ValType → List ValType → List ValType → Prop}
    (hk : ∀ t, Acts p (k t) (r t)) :
    Acts p (Check.local? ctx i >>= k) fun ts us => ∃ t, ctx.locals[i.toNat]? = some t ∧ r t ts us := by
  unfold Check.local?
  cases hl : ctx.locals[i.toNat]? with
  | none => exact (acts_throw (.unknownLocal i)).congr (by simp)
  | some t => exact (hk t).congr (by simp)

theorem acts_global {i : UInt32} {k : GlobalType → Check Unit}
    {r : GlobalType → List ValType → List ValType → Prop} (hk : ∀ g, Acts p (k g) (r g)) :
    Acts p (Check.global? ctx i >>= k) fun ts us => ∃ g, ctx.globalType i = some g ∧ r g ts us := by
  unfold Check.global?
  cases hg : ctx.globalType i with
  | none => exact (acts_throw (.unknownGlobal i)).congr (by simp)
  | some g => exact (hk g).congr (by simp)

theorem Place.results_state (p : Place) (ops : List Operand) (dead : Bool) (position : Nat) :
    (((p.state ops dead position).frames.getLast?).map Frame.endTypes).getD [] = p.results := by
  obtain ⟨f, outer, below, floor⟩ := p
  cases outer with
  | nil => rfl
  | cons g outer => simp [Place.state, Place.results]

theorem acts_return : Acts p (Check.instr ctx .return_) fun ts _ => ∃ vs, ts = vs ++ p.results := by
  have h : Acts p (do Check.popAll p.results; Check.setUnreachable) fun ts _ => ∃ vs, ts = vs ++ p.results :=
    ((acts_popAll p.results).seq acts_setUnreachable).congr (by simp)
  refine h.of_ok_iff ?_
  intro ops dead position v
  rw [← p.results_state ops dead position]
  exact Check.ok_bind_of_reads fun _ _ => Check.ok_get

end ImpWasm.Wasm
