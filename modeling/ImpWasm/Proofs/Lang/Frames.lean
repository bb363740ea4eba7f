import ImpWasm.Proofs.Lang.Shapes
set_option autoImplicit false

namespace ImpWasm

open Peg (Mode ParseTree)
open Grammar (Matches)

def isWhite (c : Char) : Bool :=
  let n := c.toNat
  (9 ≤ n && n ≤ 13) || n == 0x20 || n == 0x85 || n == 0xA0 || n == 0x1680 || (0x2000 ≤ n && n ≤ 0x200A) ||
    n == 0x2028 || n == 0x2029 || n == 0x202F || n == 0x205F || n == 0x3000

def isClosing (c : Char) : Prop := c = ';' ∨ c = '}'

def isSolid (c : Char) : Bool := 0x21 ≤ c.toNat && c.toNat ≤ 0x7E

theorem isWhite_of_isSolid {c : Char} (h : isSolid c = true) : isWhite c = false := by
  simp [isSolid] at h
  simp [isWhite]
  omega

theorem isSolid_of_range {c : Char} {low high : Char} (hc : low ≤ c ∧ c ≤ high)
    (h : 0x21 ≤ low.toNat ∧ high.toNat ≤ 0x7E) : isSolid c = true := by
  have first : low.toNat ≤ c.toNat := hc.1
  have second : c.toNat ≤ high.toNat := hc.2
  simp only [isSolid, Bool.and_eq_true, decide_eq_true_eq]
  omega

theorem isSolid_of_isDigit {c : Char} (h : isDigit c = true) : isSolid c = true :=
  isSolid_of_range (by simpa [isDigit] using h) (by decide)

theorem isSolid_of_isIdentStart {c : Char} (h : isIdentStart c = true) : isSolid c = true := by
  simp only [isIdentStart, isLetter, Bool.or_eq_true, Bool.and_eq_true, decide_eq_true_eq, beq_iff_eq] at h
  rcases h with (range | range) | rfl
  · exact isSolid_of_range range (by decide)
  · exact isSolid_of_range range (by decide)
  · decide

/-- The inside of a string apart, every rule begins with a character that can be seen. -/
theorem begins_body {r : Rule} (hr : r ≠ .stringContent) :
    (grammar.body r).Begins (fun c => isSolid c = true) (fun r => r ≠ .stringContent) grammarBounds.empties := by
  have digit : ∀ c, isDigit c = true → isSolid c = true := fun c => isSolid_of_isDigit
  have start : ∀ c, isIdentStart c = true → isSolid c = true := fun c => isSolid_of_isIdentStart
  cases r with
  | stringContent => exact absurd rfl hr
  | identifier => simpa [grammar, Rule.body, Peg.seqs, Peg.Begins, Peg.nullable] using start
  | intLiteral =>
    simpa [grammar, Rule.body, Peg.seqs, Peg.Begins, Peg.nullable] using ⟨by decide, digit⟩
  | _ =>
    simp [grammar, grammarBounds, Rule.empties, Rule.body, Rule.word, Rule.keywords, Rule.signature,
      Rule.statement, Rule.operand, Peg.seqs, Peg.alts, Peg.Begins, Peg.nullable, isSolid]

/-- The statements whose last character is such a mark, whatever they consist of. -/
def Rule.closed : List Rule :=
  [.externDecl, .functionDecl, .whileStmt, .returnStmt, .block, .varDecl, .assign, .exprStmt]

theorem ends_body {r : Rule} (hr : r ∈ Rule.closed) :
    (grammar.body r).Ends isClosing (· ∈ Rule.closed) := by
  simp only [Rule.closed, List.mem_cons, List.not_mem_nil, or_false] at hr
  rcases hr with rfl | rfl | rfl | rfl | rfl | rfl | rfl | rfl <;>
    simp [grammar, Rule.body, Rule.signature, Peg.seqs, Peg.Ends, isClosing, Rule.closed]

section Statements

variable {source : List Char} {c d : Cursor} {r : Rule} {ts : List (ParseTree Rule)}

theorem ends_of_matches {p : Peg Rule} (h : Matches grammar .spaced p c (some (ts, d)))
    (hp : p.Ends isClosing (· ∈ Rule.closed)) : ∃ k y, isClosing y ∧ c.rest = k ++ y :: d.rest :=
  h.ends_of_mem (fun _ => ends_body) hp _ rfl

theorem ends_ifStmt (h : Matches grammar .spaced (Rule.body .ifStmt) c (some (ts, d))) :
    ts.length = 3 ∨ ∃ k y, isClosing y ∧ c.rest = k ++ y :: d.rest := by
  obtain ⟨_, _, e₁, rfl, h₁, h⟩ := matches_seq h
  obtain ⟨_, _, e₂, rfl, h₂, h⟩ := matches_seq h
  obtain ⟨_, _, e₃, rfl, h₃, h⟩ := matches_seq h
  obtain ⟨_, _, e₄, rfl, h₄, h⟩ := matches_seq h
  obtain ⟨_, _, e₅, rfl, h₅, h⟩ := matches_seq h
  obtain ⟨rfl, -⟩ | other := matches_opt h
  · obtain ⟨_, rfl, -⟩ := matches_rule_tree h₁
    obtain ⟨rfl, -⟩ := matches_text h₂
    obtain ⟨_, rfl, -⟩ := matches_rule_tree h₃
    obtain ⟨rfl, -⟩ := matches_text h₄
    obtain ⟨_, rfl, -⟩ := matches_rule_tree h₅
    exact .inl rfl
  · have whole := Matches.seq h₁ (.seq h₂ (.seq h₃ (.seq h₄ (.seq h₅ other))))
    exact .inr (ends_of_matches whole (by simp [Peg.Ends, Rule.closed]))

/-- A statement stands in the source without space before it, and nothing is after its closing mark. -/
theorem Grown.framed {span : Span} (h : Grown source (.branch r span ts)) (hs : r ∈ Rule.statements) :
    ∃ w, span.Marks source w ∧ (∃ x ∈ w.head?, isWhite x = false) ∧
      (r = .ifStmt ∧ ts.length = 3 ∨ ∃ y ∈ w.getLast?, isClosing y) := by
  cases h with
  | string => simp [Rule.statements] at hs
  | @branch _ c d _ kind reached matched below =>
    obtain ⟨w, past⟩ := matched.leads.past
    have skip : (Mode.spaced.skip c).rest = c.rest := congrArg Cursor.rest reached.skip
    have full : r.body.nullable grammarBounds.empties = false := by
      revert hs
      cases r <;> decide
    have read := matched.shorter grammarBounds full
    refine ⟨w, past.marks reached.leads, ?_, ?_⟩
    · obtain same | ⟨x, first, solid⟩ := Matches.begins_of_mem grammarBounds (fun _ => begins_body) matched
        (begins_body (by rintro rfl; simp [Rule.statements] at hs)) skip _ rfl
      · rw [same] at read
        exact absurd read (Nat.lt_irrefl _)
      · refine ⟨x, ?_, isWhite_of_isSolid solid⟩
        cases w with
        | nil =>
          rw [past.text] at read
          exact absurd read (Nat.lt_irrefl _)
        | cons z w =>
          rw [past.text] at first
          exact first
    · have last {k : List Char} {y : Char} (hy : isClosing y) (text : c.rest = k ++ y :: d.rest) :
          ∃ y ∈ w.getLast?, isClosing y := by
        have same : w ++ d.rest = (k ++ [y]) ++ d.rest := by rw [← past.text, text, List.append_assoc]; rfl
        obtain rfl := List.append_cancel_right same
        exact ⟨y, by simp, hy⟩
      by_cases hr : r = .ifStmt
      · subst hr
        obtain three | ⟨k, y, hy, text⟩ := ends_ifStmt matched
        · exact .inl ⟨rfl, three⟩
        · exact .inr (last hy text)
      · have closed : r ∈ Rule.closed := by
          revert hs hr
          cases r <;> decide
        obtain ⟨k, y, hy, text⟩ := ends_of_matches matched (ends_body closed)
        exact .inr (last hy text)

end Statements

end ImpWasm
