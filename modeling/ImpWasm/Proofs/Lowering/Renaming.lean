import ImpWasm.Proofs.Lowering.Relabeling
set_option autoImplicit false

namespace ImpWasm

/-- Other names for variables, at the same places. -/
def Relabeling.renaming (r : String → String) (h : Function.Injective r) : Relabeling := ⟨r, h, id, rfl⟩

def TypeError.nameless : TypeError → TypeError
  | .unresolvedName _ span => .unresolvedName "" span
  | .duplicateDeclaration _ span previous => .duplicateDeclaration "" span previous
  | .untypedDeclaration _ span => .untypedDeclaration "" span
  | e => e

def LowerError.nameless : LowerError → LowerError
  | .unsupportedType type _ span => .unsupportedType type "" span
  | .unknownSymbol _ span => .unknownSymbol "" span
  | .module cause => .module cause

def CompileError.nameless : CompileError → CompileError
  | .parse cause => .parse cause
  | .check errors => .check (errors.map TypeError.nameless)
  | .lower cause => .lower cause.nameless
  | .module cause => .module cause

section Errors

variable {r : String → String} {h : Function.Injective r}

theorem TypeError.nameless_relabel (e : TypeError) : (e.relabel (.renaming r h)).nameless = e.nameless := by
  cases e with
  | duplicateDeclaration name span previous => cases previous <;> rfl
  | _ => rfl

theorem LowerError.Follows.nameless_eq {e e' : LowerError} (hf : e.Follows (.renaming r h) e') :
    e'.nameless = e.nameless := by
  cases hf <;> rfl

end Errors

section Compiling

variable {r : String → String} {h : Function.Injective r} {p : Program} {options : CompileOptions}

/-- Two compilations give the same bytes, the second for the first one's program with other names, or they fail
for the same reason. -/
def CompileAlike (l : Relabeling) (x y : Except CompileError Compiled) : Prop :=
  (∃ bytes typed, x = .ok ⟨bytes, typed⟩ ∧ y = .ok ⟨bytes, typed.relabel l⟩) ∨
    ∃ e e', x = .error e ∧ y = .error e' ∧ e'.nameless = e.nameless

theorem Typed.Program.compile_renamed (typed : Typed.Program) :
    CompileAlike (.renaming r h) (typed.compile options) ((typed.relabel (.renaming r h)).compile options) := by
  have follows := typed.lower_follows (.renaming r h) options.toLowerOptions
  unfold compile
  generalize typed.lower options.toLowerOptions = x at follows
  generalize (typed.relabel (.renaming r h)).lower options.toLowerOptions = y at follows
  cases follows with
  | error he => exact .inr ⟨_, _, rfl, rfl, congrArg CompileError.lower he.nameless_eq⟩
  | @ok m =>
    change CompileAlike _ ((encodeWith options m).map (⟨·, typed⟩))
      ((encodeWith options m).map (⟨·, typed.relabel (.renaming r h)⟩))
    cases encodeWith options m with
    | ok bytes => exact .inl ⟨bytes, typed, rfl, rfl⟩
    | error e => exact .inr ⟨e, e, rfl, rfl, rfl⟩

theorem Program.compile_renamed (p : Program) :
    CompileAlike (.renaming r h) (p.compile options) ((p.relabel (.renaming r h)).compile options) := by
  unfold compile
  rw [p.check_relabel]
  cases p.check with
  | ok typed => exact typed.compile_renamed
  | error errors =>
    refine .inr ⟨_, _, rfl, rfl, congrArg CompileError.check ?_⟩
    rw [List.map_map]
    exact List.map_congr_left fun e _ => e.nameless_relabel

end Compiling

/-- Other names for the variables and parameters change the names in what the check finds and nothing else: not
the numbers of the symbols, their scopes or types, nor which errors there are in what order. The bytes stay the
same. -/
theorem Program.renamed_compiles_alike (r : String → String) (h : Function.Injective r) (p : Program) :
    (∀ typed, p.check = .ok typed →
      (p.relabel (.renaming r h)).check = .ok (typed.relabel (.renaming r h))) ∧
    (∀ errors, p.check = .error errors →
      (p.relabel (.renaming r h)).check = .error (errors.map (TypeError.relabel (.renaming r h)))) ∧
    ∀ options : CompileOptions,
      (∃ bytes typed, p.compile options = .ok ⟨bytes, typed⟩ ∧
        (p.relabel (.renaming r h)).compile options = .ok ⟨bytes, typed.relabel (.renaming r h)⟩) ∨
      ∃ e e', p.compile options = .error e ∧ (p.relabel (.renaming r h)).compile options = .error e' ∧
        e'.nameless = e.nameless := by
  refine ⟨fun typed ht => ?_, fun errors he => ?_, fun options => p.compile_renamed⟩
  · rw [p.check_relabel, ht]
    rfl
  · rw [p.check_relabel, he]
    rfl

def Program.oneName : Program :=
  ⟨[.function ⟨"x", {}⟩ (some ⟨[⟨⟨"x", {}⟩, ⟨.int, {}⟩, {}⟩], {}⟩) ⟨.int, {}⟩
      [.var ⟨"x", {}⟩ none (some (.binary .add (.ident "x" {}) (.int 1 {}) {})) {}, .return_ (.ident "x" {}) {}]
      {} {},
    .var ⟨"x", {}⟩ none (some (.int 7 {})) {},
    .block [.var ⟨"x", {}⟩ none (some (.call ⟨"x", {}⟩ [.ident "x" {}] {})) {}] {} {}], {}⟩

theorem Program.renamed_compiles_alike_oneName :
    ∃ h : Function.Injective ("v_" ++ ·), ∃ bytes typed, Program.oneName.compile {} = .ok ⟨bytes, typed⟩ ∧
      (Program.oneName.relabel (.renaming ("v_" ++ ·) h)).compile {} =
        .ok ⟨bytes, typed.relabel (.renaming ("v_" ++ ·) h)⟩ := by
  have injective : Function.Injective ("v_" ++ ·) := fun s t same => by simpa using same
  have compiles : (Program.oneName.compile {}).toOption.isSome = true := by decide +kernel
  refine ⟨injective, ?_⟩
  obtain ⟨-, -, both⟩ := renamed_compiles_alike _ injective Program.oneName
  obtain same | ⟨e, e', he, -, -⟩ := both {}
  · exact same
  · simp [he, Except.toOption] at compiles

end ImpWasm
