import ImpWasm.Proofs.Peg.Attempts
import ImpWasm.Proofs.Peg.Places
import ImpWasm.Proofs.Lang.Lexemes
import ImpWasm.Lang.Parser
set_option autoImplicit false

namespace ImpWasm

open Grammar (Matches)
open Peg (Affirms)

/-- Outside of lexemes the grammar negates nothing but a mark. -/
theorem grammar_affirms : grammar.Affirms := by
  intro r
  cases r <;> first
    | exact .inl rfl
    | exact .inr (by simp [grammar, Rule.body, Rule.signature, Rule.statement, Rule.operand, Rule.infixOp, Peg.seqs,
        Peg.alts, Affirms])

theorem Cursor.Leads.isValid {source : String} {c : Cursor} (h : Cursor.Leads ⟨0, source.toList⟩ c) :
    String.Pos.Raw.IsValid source ⟨c.pos⟩ := by
  obtain ⟨before, text, pos⟩ := h
  refine String.Pos.Raw.isValid_iff_exists_append.2 ⟨String.ofList before, String.ofList c.rest, ?_, ?_⟩
  · rw [← String.ofList_append, ← text, String.ofList_toList]
  · have size := utf8Length_toList (String.ofList before)
    rw [String.toList_ofList] at size
    rw [pos, Nat.zero_add, size]
    rfl

namespace ParseError

theorem nodup_eraseDups (xs : List String) : xs.eraseDups.Nodup := by
  match xs with
  | [] => exact List.nodup_nil
  | x :: xs =>
    have once : x ∉ (xs.filter fun y => !y == x).eraseDups := by simp [List.mem_eraseDups]
    rw [List.eraseDups_cons]
    exact List.nodup_cons.2 ⟨once, nodup_eraseDups _⟩
termination_by xs.length
decreasing_by exact Nat.lt_succ_of_le (List.length_filter_le _ _)

theorem descriptions_ne_nil {expected : List Rule} (h : expected ≠ []) : descriptions expected ≠ [] := by
  obtain ⟨r, rs, rfl⟩ := List.exists_cons_of_ne_nil h
  have described : r.description ∈ descriptions (r :: rs) :=
    List.mem_eraseDups.2 (List.mem_map_of_mem (List.mem_filter.2 ⟨r.mem_all, by simp⟩))
  exact List.ne_nil_of_mem described

theorem message_noMatch {expected : List Rule} (h : expected ≠ []) (pos : Nat) :
    (noMatch pos expected).diagnostic.message =
      "Syntax error: " ++ ("expected " ++ String.intercalate ", " (descriptions expected)) := by
  have named : expectation expected = "expected " ++ String.intercalate ", " (descriptions expected) :=
    if_neg (by simpa using h)
  rw [← named]
  rfl

end ParseError

open ParseError (descriptions)

/-- A source that a rule does not match is answered with a place in it and with what is expected there. -/
theorem syntax_error_located (source : String) (r : Rule)
    (h : Matches grammar .spaced (.rule r) ⟨0, source.toList⟩ none) :
    ∃ pos expected, parseTree r source = .error (.noMatch pos expected) ∧
      (r = .program → Program.parse source = .error (.noMatch pos expected)) ∧
      (r = .expressionInput → Expr.parse source = .error (.noMatch pos expected)) ∧
      ({} : Attempts Rule).addCalls (grammar.parse r source.toList).calls = ⟨pos, expected, []⟩ ∧
      pos ≤ source.utf8ByteSize ∧ String.Pos.Raw.IsValid source ⟨pos⟩ ∧
      expected ≠ [] ∧ descriptions expected ≠ [] ∧ (descriptions expected).Nodup ∧
      (ParseError.noMatch pos expected).diagnostic.message =
        "Syntax error: " ++ ("expected " ++ String.intercalate ", " (descriptions expected)) := by
  have failed := Grammar.parse_eq_of_matches grammarBounds h
  have sound := Grammar.sound_attempts grammar_affirms failed
  have answer : parseTree r source = .error (noMatchOf (grammar.parse r source.toList).calls) := by
    simp only [parseTree, failed]
  simp only [noMatchOf] at answer
  generalize ({} : Attempts Rule).addCalls (grammar.parse r source.toList).calls = a at sound answer
  obtain ⟨⟨refused, ⟨c, reached, place⟩, -⟩, filled⟩ := sound
  have valid : String.Pos.Raw.IsValid source ⟨a.pos⟩ := place ▸ reached.isValid
  refine ⟨a.pos, a.expected, answer, ?_, ?_, by rw [← refused], valid.le_utf8ByteSize, valid, filled,
    ParseError.descriptions_ne_nil filled, ParseError.nodup_eraseDups _, ParseError.message_noMatch filled _⟩
  · rintro rfl
    rw [Program.parse, answer]
    rfl
  · rintro rfl
    rw [Expr.parse, answer]
    rfl

theorem syntax_error_located_paren :
    Matches grammar .spaced (.rule .program) ⟨0, ")".toList⟩ none ∧
      Matches grammar .spaced (.rule .expressionInput) ⟨0, ")".toList⟩ none ∧
      (∃ pos expected, Program.parse ")" = .error (.noMatch pos expected) ∧ expected ≠ []) ∧
      ∃ pos expected, Expr.parse ")" = .error (.noMatch pos expected) ∧ expected ≠ [] := by
  have program : Matches grammar .spaced (.rule .program) ⟨0, ")".toList⟩ none := by
    have run := Grammar.parse_matches grammarBounds .program ")".toList
    have failed : (grammar.parse .program ")".toList).outcome = none := by rfl
    rwa [failed] at run
  have expression : Matches grammar .spaced (.rule .expressionInput) ⟨0, ")".toList⟩ none := by
    have run := Grammar.parse_matches grammarBounds .expressionInput ")".toList
    have failed : (grammar.parse .expressionInput ")".toList).outcome = none := by rfl
    rwa [failed] at run
  obtain ⟨pos, expected, -, answer, -, -, -, -, filled, -⟩ := syntax_error_located ")" .program program
  obtain ⟨pos', expected', -, -, answer', -, -, -, filled', -⟩ :=
    syntax_error_located ")" .expressionInput expression
  exact ⟨program, expression, ⟨pos, expected, answer rfl, filled⟩, pos', expected', answer' rfl, filled'⟩

end ImpWasm
