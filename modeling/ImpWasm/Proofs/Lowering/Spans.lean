import ImpWasm.Proofs.Lowering.Relabeling
import ImpWasm.Proofs.Typing.Spans
set_option autoImplicit false

namespace ImpWasm

def LowerError.bare : LowerError → LowerError
  | .unsupportedType type context _ => .unsupportedType type context {}
  | .unknownSymbol name _ => .unknownSymbol name {}
  | .module cause => .module cause

section Results

variable {α : Type}

def Lowered.bare (x : Lowered α) : Lowered α := x.mapError LowerError.bare

theorem Lowered.bare_eq_ok {x : Lowered α} {a : α} : Lowered.bare x = .ok a ↔ x = .ok a := by
  cases x <;> simp [bare, Except.mapError]

theorem Lowered.bare_eq_error {x : Lowered α} {e : LowerError} :
    Lowered.bare x = .error e ↔ ∃ e', x = .error e' ∧ e'.bare = e := by
  cases x <;> simp [bare, Except.mapError]

theorem LowerError.Follows.eq_bare {e e' : LowerError} (h : e.Follows .unplaced e') : e' = e.bare := by
  cases h with
  | unsupportedType h =>
    obtain rfl := h rfl
    rfl
  | unknownSymbol h =>
    obtain rfl := h rfl
    rfl
  | module => rfl

theorem Lowered.Follows.eq_bare {x y : Lowered α} (h : Lowered.Follows .unplaced x y) : y = Lowered.bare x := by
  cases h with
  | ok => rfl
  | error h => exact congrArg Except.error h.eq_bare

end Results

theorem Typed.Program.lower_bare (options : LowerOptions) (p : Program) :
    p.bare.lower options = Lowered.bare (p.lower options) := by
  rw [← p.relabel_unplaced]
  exact (p.lower_follows .unplaced options).eq_bare

end ImpWasm
