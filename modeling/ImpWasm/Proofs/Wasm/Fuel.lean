import ImpWasm.Proofs.Wasm.Semantics
set_option autoImplicit false

namespace ImpWasm.Wasm

namespace Exec

variable {α β : Type}

/-- The second computation does what the first does, unless the first times out. -/
def Below (x y : Exec α) : Prop := ∀ s, (outcome x s).1 = .error .timeout ∨ outcome y s = outcome x s

theorem Below.refl (x : Exec α) : x.Below x := fun _ => .inr rfl

theorem below_timeout (y : Exec α) : Below (throw .timeout) y := fun _ => .inl rfl

theorem Below.bind {x y : Exec α} {f g : α → Exec β} (hx : x.Below y) (hf : ∀ a, (f a).Below (g a)) :
    (x >>= f).Below (y >>= g) := by
  intro s
  rw [outcome_bind, outcome_bind]
  cases hx s with
  | inl h =>
    rcases ho : outcome x s with ⟨e | a, t⟩
    · left
      simpa [ho] using h
    · simp [ho] at h
  | inr h =>
    rw [h]
    rcases outcome x s with ⟨e | a, t⟩
    · exact .inr rfl
    · exact hf a t

theorem Below.attempt {x y : Exec α} {f g : Except Exit α → Exec β} (hx : x.Below y)
    (hf : ∀ r, (f r).Below (g r)) (ht : f (.error .timeout) = throw .timeout) :
    Below (ImpWasm.attempt x >>= f : Exec β) (ImpWasm.attempt y >>= g) := by
  intro s
  rw [outcome_attempt_bind, outcome_attempt_bind]
  cases hx s with
  | inl h =>
    rw [h, ht]
    exact .inl rfl
  | inr h =>
    rw [h]
    exact hf _ _

theorem Below.inBlock {x y : Exec Unit} (h : x.Below y) (arity : Nat) :
    (inBlock arity x).Below (inBlock arity y) := by
  refine (Below.refl _).bind fun base => (Below.refl _).bind fun _ => h.attempt ?_ ?_
  · intro r
    exact .refl _
  · rfl

theorem Below.again {x y : Exec Unit} (h : x.Below y) {n k : Nat} (hn : n ≤ k) :
    (again x n).Below (again y k) := by
  induction n generalizing k with
  | zero => exact below_timeout _
  | succ n ih =>
    cases k with
    | zero => omega
    | succ k =>
      refine h.attempt ?_ ?_
      · intro r
        cases r with
        | ok _ => exact .refl _
        | error e =>
          cases e with
          | branch d =>
            cases d with
            | zero => exact (Below.refl _).bind fun _ => ih (by omega)
            | succ d => exact .refl _
          | _ => exact .refl _
      · rfl

theorem Below.activate {x y : Exec Unit} (h : x.Below y) (arity : Nat) (locals : List Value) :
    (Module.activate arity locals x).Below (Module.activate arity locals y) := by
  refine (Below.refl _).bind fun outer => (Below.refl _).bind fun _ => ?_
  intro s
  simp only [outcome_bind, outcome_attempt, outcome_get]
  cases h s with
  | inl ht =>
    rw [ht]
    exact .inl rfl
  | inr he =>
    rw [he]
    exact .inr rfl

theorem Below.plain {call call' : UInt32 → Exec Unit} (h : ∀ i, (call i).Below (call' i)) (m : Module)
    (i : Instr) : (plain m call i).Below (plain m call' i) := by
  cases i with
  | call i => exact h i
  | _ => exact .refl _

end Exec

open Exec

theorem Code.run_below {m : Module} {call call' : UInt32 → Exec Unit} (h : ∀ i, (call i).Below (call' i))
    {n k : Nat} (hn : n ≤ k) (c : Code) : (c.run m call n).Below (c.run m call' k) := by
  induction c with
  | done => exact .refl _
  | plain i _ rest ih => exact (Below.plain h m i).bind fun _ => ih
  | block t body rest ihb ih => exact (ihb.inBlock _).bind fun _ => ih
  | loop t body rest ihb ih => exact ((ihb.again hn).inBlock _).bind fun _ => ih
  | ifThen t yes rest ihy ih =>
    refine (Below.refl _).bind fun b => ?_
    cases b with
    | false => exact ih
    | true => exact (ihy.inBlock _).bind fun _ => ih
  | ifElse t yes no rest ihy ihn ih =>
    refine (Below.refl _).bind fun b => ?_
    cases b with
    | false => exact (ihn.inBlock _).bind fun _ => ih
    | true => exact (ihy.inBlock _).bind fun _ => ih

namespace Module

variable {m : Module} {host : Host} {n k : Nat}

theorem invoke_below (hn : n ≤ k) (i : UInt32) : (m.invoke host n i).Below (m.invoke host k i) := by
  induction n generalizing k i with
  | zero => exact below_timeout _
  | succ n ih =>
    cases k with
    | zero => omega
    | succ k =>
      unfold invoke
      split
      · exact .refl _
      · refine (Below.refl _).bind fun args => ?_
        split
        · exact .refl _
        · split
          · exact .refl _
          · split
            · exact .refl _
            · exact (Code.run_below (fun j => ih (by omega) j) (by omega) _).activate _ _

/-- More fuel does not change how a module's start ends. -/
theorem execute_mono (hn : n ≤ k) (h : m.execute host n ≠ .timeout) :
    m.execute host k = m.execute host n := by
  unfold execute at h ⊢
  split
  · rfl
  · rename_i i hi
    have hbelow : (m.invoke host n i).Below (m.invoke host k i) := invoke_below hn i
    cases hbelow m.initial with
    | inl ht =>
      refine absurd ?_ h
      rcases ho : outcome (m.invoke host n i) m.initial with ⟨r, s⟩
      rw [ho] at ht
      simp only [hi, ho]
      rw [show r = .error .timeout from ht]
      rfl
    | inr he => rw [he]

end Module

end ImpWasm.Wasm
