import Mathlib
import ImpWasm.Proofs.Lang.RoundTrip
import ImpWasm.Proofs.Lowering.Spans
import ImpWasm.Proofs.Lowering.Validity
import ImpWasm.Proofs.Typing.Annotation
set_option autoImplicit false

namespace ImpWasm

section Texts

/-- The text is that of a program which is checked to this one, up to places. -/
def Typed.Program.WrittenAs (typed : Typed.Program) (text : String) : Prop :=
  ∃ q typed', Program.parse text = .ok q ∧ q.check = .ok typed' ∧ typed'.bare = typed.bare

def CompilesTo (options : CompileOptions) (bytes : Wasm.Bytes) (text : String) : Prop :=
  ∃ c, compileSource options text = .ok c ∧ c.bytes = bytes

def FailsToLower (options : CompileOptions) (e : LowerError) (text : String) : Prop :=
  ∃ e', compileSource options text = .error (.lower e') ∧ e'.bare = e.bare

variable {p : Program} {typed : Typed.Program} {text : String} {options : CompileOptions}

theorem Program.writtenAs_text (hw : p.WellFormed) (hp : p.check = .ok typed) : typed.WrittenAs p.text := by
  obtain ⟨q, hq, same⟩ := parse_text hw
  obtain ⟨typed', hcheck, hbare⟩ := check_eq_ok_of_bare_eq same hp
  exact ⟨q, typed', hq, hcheck, hbare⟩

theorem Program.WellFormed.annotate (hw : p.WellFormed) (typed : Typed.Program) : (p.annotate typed).WellFormed :=
  Stmt.allWellFormed_annotateAll hw typed.body

/-- The text of a checked program is that of the program with all its types, which is checked to it. -/
theorem Program.writtenAs_typed_text (hw : p.WellFormed) (hp : p.check = .ok typed) :
    typed.WrittenAs typed.text := by
  obtain ⟨hcheck, htext⟩ := annotate_ok hp
  rw [htext]
  exact writtenAs_text (hw.annotate typed) hcheck

end Texts

namespace Typed.Program.WrittenAs

variable {typed : Typed.Program} {text : String} {options : CompileOptions}

theorem compileSource_eq (h : typed.WrittenAs text) (options : CompileOptions) :
    ∃ typed' : Typed.Program, compileSource options text = typed'.compile options ∧
      Lowered.bare (typed'.lower options.toLowerOptions) = Lowered.bare (typed.lower options.toLowerOptions) := by
  obtain ⟨q, typed', hq, hcheck, same⟩ := h
  have hstages : q.compile options = typed'.compile options := by
    rw [ImpWasm.Program.compile, hcheck]
    rfl
  refine ⟨typed', ?_, by rw [← lower_bare, same, lower_bare]⟩
  rw [compileSource, hq]
  exact hstages

theorem encoded (h : typed.WrittenAs text) {m : Wasm.Module} (hm : typed.lower options.toLowerOptions = .ok m) :
    ∃ typed' : Typed.Program, compileSource options text = (encodeWith options m).map (⟨·, typed'⟩) := by
  obtain ⟨typed', hc, same⟩ := h.compileSource_eq options
  have hm' : typed'.lower options.toLowerOptions = .ok m :=
    Lowered.bare_eq_ok.1 (same.trans (Lowered.bare_eq_ok.2 hm))
  refine ⟨typed', hc.trans ?_⟩
  rw [compile, hm']
  rfl

theorem failsToLower (h : typed.WrittenAs text) {e : LowerError}
    (he : typed.lower options.toLowerOptions = .error e) : FailsToLower options e text := by
  obtain ⟨typed', hc, same⟩ := h.compileSource_eq options
  obtain ⟨e', he', hbare⟩ := Lowered.bare_eq_error.1 (same.trans (Lowered.bare_eq_error.2 ⟨e, he, rfl⟩))
  exact ⟨e', hc.trans (compile_of_error he'), hbare⟩

end Typed.Program.WrittenAs

theorem encodeWith_eq_error {options : CompileOptions} {m : Wasm.Module} {e : CompileError}
    (h : encodeWith options m = .error e) : ∃ cause, e = .module cause := by
  unfold encodeWith at h
  split at h
  · cases hm : m.finish with
    | ok bytes => simp [hm, CompileError.ofStage] at h
    | error cause => exact ⟨cause, by simpa [hm, CompileError.ofStage, eq_comm] using h⟩
  · cases h

/-- The text of a checked program spells out the types that were found, and is a program with the same typing.
It compiles to what the source and the canonical text of the source compile to, or all three fail for the same
reason. There is no other failure, unless there are more functions than indices. -/
theorem Program.typed_text_same_module {source : String} {p : Program} {typed : Typed.Program}
    (hs : Program.parse source = .ok p) (hp : p.check = .ok typed) :
    typed.text = (p.annotate typed).text ∧
    (∃ q typed', Program.parse typed.text = .ok q ∧ q.check = .ok typed' ∧ typed'.bare = typed.bare) ∧
    ∀ options : CompileOptions,
      (∃ bytes, ∀ text ∈ [typed.text, p.text, source], CompilesTo options bytes text) ∨
      (∃ e, ∀ text ∈ [typed.text, p.text, source], FailsToLower options e text) ∨
      (2 ^ 32 ≤ typed.functions.size + 1 ∧
        ∃ e, ∀ text ∈ [typed.text, p.text, source], compileSource options text = .error (.module e)) := by
  have hw := wellFormed_of_parse hs
  have hwritten : typed.WrittenAs typed.text := writtenAs_typed_text hw hp
  have hall : ∀ text ∈ [typed.text, p.text, source], typed.WrittenAs text := by
    simp only [List.forall_mem_cons, List.not_mem_nil, false_implies, implies_true, and_true]
    exact ⟨hwritten, writtenAs_text hw hp, p, typed, hs, hp, rfl⟩
  refine ⟨(annotate_ok hp).2, hwritten, fun options => ?_⟩
  cases hm : typed.lower options.toLowerOptions with
  | error e => exact .inr (.inl ⟨e, fun text ht => (hall text ht).failsToLower hm⟩)
  | ok m =>
    cases he : encodeWith options m with
    | ok bytes =>
      refine .inl ⟨bytes, fun text ht => ?_⟩
      obtain ⟨typed', hc⟩ := (hall text ht).encoded hm
      exact ⟨⟨bytes, typed'⟩, by rw [hc, he]; rfl, rfl⟩
    | error e =>
      obtain ⟨cause, rfl⟩ := encodeWith_eq_error he
      rcases Nat.lt_or_ge (typed.functions.size + 1) (2 ^ 32) with hfew | hmany
      · -- A module that can number its functions validates.
        have hn := Nat.lt_of_le_of_lt (functionCount_lower hp hm) hfew
        simp [encodeWith_of_validate (lower_wellFormed hp hm hn).validate_ok] at he
      · refine .inr (.inr ⟨hmany, cause, fun text ht => ?_⟩)
        obtain ⟨typed', hc⟩ := (hall text ht).encoded hm
        rw [hc, he]
        rfl

def Program.inferring : Program :=
  ⟨[.var ⟨"x", ⟨0, 1⟩⟩ none (some (.int 1 ⟨5, 6⟩)) ⟨0, 7⟩,
    .var ⟨"y", ⟨8, 9⟩⟩ none
      (some (.binary .lt (.ident "x" ⟨13, 14⟩) (.int 2 ⟨17, 18⟩) ⟨13, 18⟩)) ⟨8, 19⟩], ⟨0, 19⟩⟩

theorem Program.typed_text_same_module_inferring :
    Program.parse "x := 1; y := x < 2;" = .ok Program.inferring ∧
    ∃ typed, Program.inferring.check = .ok typed ∧ typed.text = "x: int = 1;\ny: bool = x < 2;" ∧
      typed.text = (Program.inferring.annotate typed).text ∧ typed.WrittenAs typed.text ∧
      ∃ bytes, ∀ text ∈ [typed.text, Program.inferring.text, "x := 1; y := x < 2;"],
        CompilesTo {} bytes text := by
  have hs : Program.parse "x := 1; y := x < 2;" = .ok Program.inferring := by cbv
  have hsome : (Program.inferring.compile {}).toOption.isSome = true := by decide +kernel
  have hc : compileSource {} "x := 1; y := x < 2;" = Program.inferring.compile {} := by
    rw [compileSource, hs]
    rfl
  obtain ⟨htext, hwritten, hmodule⟩ := typed_text_same_module hs rfl
  refine ⟨hs, _, rfl, by cbv, htext, hwritten, ?_⟩
  obtain hbytes | ⟨e, hfails⟩ | ⟨-, e, hfails⟩ := hmodule {}
  · exact hbytes
  · obtain ⟨e', he, -⟩ := hfails "x := 1; y := x < 2;" (by simp)
    simp [← hc, he, Except.toOption] at hsome
  · have he := hfails "x := 1; y := x < 2;" (by simp)
    simp [← hc, he, Except.toOption] at hsome

end ImpWasm
