import ImpWasm.Proofs.Lang.Tokens
set_option autoImplicit false

/-!
Where the grammar expects an operand. For each rule it is recorded whether an operand must have ended
before the rule is tried and whether one ends with it, and this is checked along the bodies of the
rules. So a number with a sign is tried only where no operand ends, and the operator only where one
does. Main statements: a rule for tokens takes a whole token or refuses the text, and which of these it
does can be told from the token alone.
-/
namespace ImpWasm

open Peg (Mode ParseTree)
open Grammar (Reads Refuses)

/-- What is known about a flag holds of it. -/
def Agrees (known : Option Bool) (b : Bool) : Prop := ∀ f ∈ known, b = f

def meet (a a' : Option Bool) : Option Bool := if a = a' then a else none

section Knowledge

variable {a a' : Option Bool} {b : Bool}

theorem exists_agrees (a : Option Bool) : ∃ b, Agrees a b := by
  cases a with
  | none => exact ⟨true, by simp [Agrees]⟩
  | some b => exact ⟨b, by simp [Agrees]⟩

theorem agrees_none (b : Bool) : Agrees none b := by simp [Agrees]

theorem agrees_some {f : Bool} : Agrees (some f) b ↔ b = f := by simp [Agrees]

theorem Agrees.left (h : Agrees a b) : Agrees (meet a a') b := by
  unfold meet
  split
  · exact h
  · exact agrees_none b

theorem Agrees.right (h : Agrees a' b) : Agrees (meet a a') b := by
  unfold meet
  split
  · rename_i same
    exact same ▸ h
  · exact agrees_none b

end Knowledge

namespace Rule

/-- Whether an operand must have ended where the rule is tried. -/
def wants : Rule → Option Bool
  | .program | .expressionInput | .exprStmt | .expression | .intLiteral => some false
  | .opSubtract => some true
  | _ => none

/-- Whether an operand ends with the rule. -/
def leaves : Rule → Option Bool
  | .identifier | .expression | .call | .intLiteral | .boolLiteral | .stringLiteral => some true
  | .endOfInput | .program | .expressionInput | .keyword | .stringContent => none
  | _ => some false

end Rule

def isSymbol : List Char → Bool
  | [c] => isMark c
  | w => symbolPairs.contains w

theorem isSymbol_cases {u : List Char} (h : isSymbol u = true) :
    (∃ c, u = [c] ∧ isMark c = true) ∨
      u ∈ symbolPairs ∧ ∃ c d, u = [c, d] ∧ isMark c = true ∧ isMark d = true ∧ d ≠ '/' ∧ d ≠ '-' := by
  have each : ∀ u ∈ symbolPairs,
      ∃ c d, u = [c, d] ∧ isMark c = true ∧ isMark d = true ∧ d ≠ '/' ∧ d ≠ '-' := by
    intro u hu
    simp only [symbolPairs, List.mem_cons, List.not_mem_nil, or_false] at hu
    rcases hu with rfl | rfl | rfl | rfl | rfl | rfl | rfl | rfl <;> exact ⟨_, _, rfl, by decide⟩
  match u with
  | [] => cases h
  | [c] => exact .inl ⟨c, rfl, h⟩
  | c :: d :: l =>
    have pair : c :: d :: l ∈ symbolPairs := by simpa [isSymbol] using h
    exact .inr ⟨pair, each _ pair⟩

namespace Peg

/-- What is known after a match, given what is known before. -/
def leaves : Peg Rule → Option Bool → Option Bool
  | .empty, a | .endOfInput, a | .not _, a | .star _, a => a
  | .text w, _ => some (w.getLast? == some ')')
  | .one _, _ => none
  | .rule r, _ => r.leaves
  | .seq p q, a => q.leaves (p.leaves a)
  | .alt p q, a => meet (p.leaves a) (q.leaves a)
  | .opt p, a => meet (p.leaves a) a

/-- The rules inside an expression are tried where they may be, it reads symbols only, and a minus sign
only after an operand. -/
def fits : Peg Rule → Option Bool → Bool
  | .empty, _ | .endOfInput, _ => true
  | .text w, a => isSymbol w && (w != ['-'] || a == some true)
  | .one _, _ => false
  | .rule r, a => r != .stringContent && (r.wants == none || r.wants == a)
  | .seq p q, a => p.fits a && q.fits (p.leaves a)
  | .alt p q, a => p.fits a && q.fits a
  | .opt p, a | .not p, a => p.fits a
  | .star p, a => p.fits a && p.leaves a == a

end Peg

/-- What is recorded of the rules is what their bodies do. -/
theorem Rule.fits_body (r : Rule) (h : r.kind = .plain) :
    r.body.fits r.wants = true ∧ r.body.leaves r.wants = r.leaves := by
  revert h
  cases r <;> decide

theorem enter_plain {r : Rule} (hk : r.kind = .plain) :
    Mode.spaced.enter (grammar.kind r) = .spaced := by
  rw [show grammar.kind r = .plain from hk]
  rfl

theorem Peg.agrees_wants {r : Rule} {a : Option Bool} {b : Bool} (h : (Peg.rule r).fits a = true)
    (hb : Agrees a b) : r ≠ .stringContent ∧ Agrees r.wants b := by
  simp only [fits, Bool.and_eq_true, bne_iff_ne, Bool.or_eq_true, beq_iff_eq] at h
  refine ⟨h.1, ?_⟩
  rcases h.2 with none | same
  · rw [none]
    exact agrees_none b
  · rw [same]
    exact hb

section Taking

variable {r : Rule} {t k : List Char} {b b' : Bool}

def Rule.accepts : Rule → List Char → Bool
  | .keyword, k => Rule.keywords.contains k
  | .identifier, k => isName k
  | .boolLiteral, k => k == boolChars true || k == boolChars false
  | .intLiteral, k => k.head?.any isDigit || (k.head? == some '-' && !k.tail.isEmpty)
  | .stringLiteral, k => k.head? == some '"'
  | r, k => r.spelling == some k

def Rule.tokenTree (r : Rule) (k : List Char) : ParseTree Rule :=
  match r with
  | .stringLiteral => .branch r {} [.leaf .stringContent {} k.tail.dropLast]
  | _ => .leaf r {} k

/-- A rule that looks at the word at the start of a text and at nothing else. -/
structure WordRule (r : Rule) : Prop where
  reads : ∀ k rest, r.accepts k = true → leadWord rest = [] →
    Reads grammar .spaced (.rule r) k rest [.leaf r {} k]
  refuses : ∀ cs, r.accepts (leadWord cs) = false → Refuses grammar .spaced (.rule r) cs
  start : ∀ k, r.accepts k = true → ∃ c l, k = c :: l ∧ isIdentStart c = true
  tokenTree : ∀ k, r.tokenTree k = .leaf r {} k
  leaves : ∀ k, r.accepts k = true → Agrees r.leaves (isOperandWord k)

theorem wordRule_keyword : WordRule .keyword where
  reads k rest hk hr := reads_word_rule (by simp) rfl rfl distinct_keywords (by simpa [Rule.accepts] using hk) hr
  refuses cs h := refuses_word_rule rfl rfl distinct_keywords (by simpa [Rule.accepts] using h)
  start k hk := by
    have each : ∀ k ∈ Rule.keywords, ∃ c l, k = c :: l ∧ isIdentStart c = true := by
      simp [Rule.keywords, isIdentStart, isLetter]
    exact each k (by simpa [Rule.accepts] using hk)
  tokenTree _ := rfl
  leaves _ _ := agrees_none _

theorem wordRule_identifier : WordRule .identifier where
  reads k rest hk hr := reads_identifier (by simp) hk hr
  refuses cs h := refuses_identifier h
  start k hk := by
    cases k with
    | nil => cases hk
    | cons c l => exact ⟨c, l, rfl, (isName_cons.1 hk).1⟩
  tokenTree _ := rfl
  leaves k hk := by
    have name : isName k = true := hk
    simp [Rule.leaves, agrees_some, isOperandWord, name]

theorem accepts_bool : Rule.accepts .boolLiteral k = true ↔ ∃ b, k = boolChars b := by
  simp [Rule.accepts, or_comm]

theorem wordRule_bool : WordRule .boolLiteral where
  reads k rest hk hr := by
    obtain ⟨b, rfl⟩ := accepts_bool.1 hk
    exact reads_bool (by simp) b hr
  refuses cs h := refuses_bool fun b hb => by
    rw [accepts_bool.2 ⟨b, hb⟩] at h
    cases h
  start k hk := by
    obtain ⟨b, rfl⟩ := accepts_bool.1 hk
    cases b <;> exact ⟨_, _, rfl, rfl⟩
  tokenTree _ := rfl
  leaves k hk := by
    obtain ⟨b, rfl⟩ := accepts_bool.1 hk
    cases b <;> exact agrees_some.2 rfl

theorem wordRule_spelled {w : List Char} (h : r.spelling = some w) : WordRule r := by
  have accepts : ∀ k, r.accepts k = true ↔ k = w := by
    intro k
    have same : r.accepts k = (r.spelling == some k) := by cases r <;> first | rfl | cases h
    rw [same, h, beq_iff_eq, Option.some.injEq, eq_comm]
  refine ⟨fun k rest hk hr => ?_, fun cs hc => refuses_spelled h fun hw => ?_, fun k hk => ?_, fun k => ?_,
    fun k hk => ?_⟩
  · obtain rfl := (accepts k).1 hk
    exact reads_spelled (by simp) h hr
  · rw [(accepts _).2 hw] at hc
    cases hc
  · obtain rfl := (accepts k).1 hk
    cases r <;> simp only [Rule.spelling, reduceCtorEq, Option.some.injEq] at h <;> subst h <;>
      exact ⟨_, _, rfl, rfl⟩
  · cases r <;> first | rfl | cases h
  · obtain rfl := (accepts k).1 hk
    cases r <;> simp only [Rule.spelling, reduceCtorEq, Option.some.injEq] at h <;> subst h <;>
      exact agrees_some.2 rfl

theorem wordRule (hk : r.kind ≠ .plain) (hc : r ≠ .stringContent) :
    r = .intLiteral ∨ r = .stringLiteral ∨ WordRule r := by
  cases r with
  | keyword => exact .inr (.inr wordRule_keyword)
  | identifier => exact .inr (.inr wordRule_identifier)
  | boolLiteral => exact .inr (.inr wordRule_bool)
  | intLiteral => exact .inl rfl
  | stringLiteral => exact .inr (.inl rfl)
  | stringContent => exact absurd rfl hc
  | kwFn | kwExtern | kwReturn | kwWhile | kwIf | kwElse | typeInt | typeString | typeBool =>
    exact .inr (.inr (wordRule_spelled rfl))
  | _ => exact absurd rfl hk

theorem Token.word_or (h : Token t b k b') :
    (leadWord (k ++ t) = k ∧ leadWord t = [] ∧ b' = isOperandWord k) ∨
      ∃ c l, k = c :: l ∧ isIdentStart c = false := by
  have other {c : Char} (hc : isIdentChar c = false) : isIdentStart c = false := by
    cases hs : isIdentStart c with
    | false => rfl
    | true =>
      rw [isIdentChar_of_isIdentStart hs] at hc
      cases hc
  cases h with
  | @word _ c l hc hl ht =>
    have inside : ∀ x ∈ c :: l, isIdentChar x = true :=
      List.forall_mem_cons.2 ⟨isIdentChar_of_isIdentStart hc, hl⟩
    exact .inl ⟨leadWord_append inside ht, ht, rfl⟩
  | @number _ c l hc _ _ =>
    refine .inr ⟨c, l, rfl, Bool.eq_false_iff.2 fun start => ?_⟩
    rw [not_isDigit_of_isIdentStart start] at hc
    cases hc
  | negative _ _ _ => exact .inr ⟨_, _, rfl, rfl⟩
  | string _ => exact .inr ⟨_, _, rfl, rfl⟩
  | @mark _ c hc _ _ => exact .inr ⟨c, [], rfl, other (isMark_iff.1 hc).2.1⟩

theorem WordRule.refuses_other (h : WordRule r) {c : Char} (hc : isIdentStart c = false) (cs : List Char) :
    Refuses grammar .spaced (.rule r) (c :: cs) := by
  refine h.refuses _ (Bool.eq_false_iff.2 fun accepted => ?_)
  obtain ⟨d, l, hd, start⟩ := h.start _ accepted
  obtain ⟨rest, same, -⟩ := exists_leadWord (c :: cs)
  rw [hd] at same
  cases same
  rw [start] at hc
  cases hc

/-- A number is taken whole. No other token is, unless its minus sign is tried where no operand ends. -/
theorem Token.fares_int (h : Token t b k b') :
    (Rule.accepts .intLiteral k = true ∧
        Reads grammar .spaced (.rule .intLiteral) k t [.leaf .intLiteral {} k] ∧ b' = true) ∨
      Rule.accepts .intLiteral k = false ∧
        (b = false → Refuses grammar .spaced (.rule .intLiteral) (k ++ t)) := by
  cases h with
  | @word _ c l hc _ _ =>
    obtain ⟨sign, -, digit⟩ := not_symbol_of_isIdentStart hc
    exact .inr ⟨by simp [Rule.accepts, sign, digit], fun _ => refuses_int sign digit⟩
  | number hc hk ht => exact .inl ⟨by simp [Rule.accepts, hc], reads_number (by simp) hc hk ht, rfl⟩
  | negative hc hk ht => exact .inl ⟨by simp [Rule.accepts], reads_negative (by simp) hc hk ht, rfl⟩
  | string _ => exact .inr ⟨by simp [Rule.accepts, isDigit], fun _ => refuses_int (by decide) rfl⟩
  | @mark _ c hc _ noSign =>
    have digit := not_isDigit_of_not_isIdentChar (isMark_iff.1 hc).2.1
    refine .inr ⟨by simp [Rule.accepts, digit], fun hb => ?_⟩
    by_cases sign : c = '-'
    · subst sign
      exact refuses_minus (noSign rfl hb)
    · exact refuses_int sign digit

theorem Token.fares_string (h : Token t b k b') :
    (Rule.accepts .stringLiteral k = true ∧ b' = true ∧
        Reads grammar .spaced (.rule .stringLiteral) k t [Rule.tokenTree .stringLiteral k]) ∨
      Rule.accepts .stringLiteral k = false ∧
        Refuses grammar .spaced (.rule .stringLiteral) (k ++ t) := by
  have other {c : Char} {l : List Char} (hc : c ≠ '"') :
      Rule.accepts .stringLiteral (c :: l) = false ∧
        Refuses grammar .spaced (.rule .stringLiteral) (c :: l ++ t) :=
    ⟨by simpa [Rule.accepts] using hc, refuses_string hc⟩
  cases h with
  | word hc _ _ => exact .inr (other (not_symbol_of_isIdentStart hc).2.1)
  | number hc _ _ =>
    refine .inr (other ?_)
    rintro rfl
    cases hc
  | negative _ _ _ => exact .inr (other (by decide))
  | @string _ l hk =>
    refine .inl ⟨rfl, rfl, ?_⟩
    simpa [Rule.tokenTree] using reads_quoted (m := .spaced) (by simp) hk t
  | mark hc _ _ => exact .inr (other (isMark_iff.1 hc).2.2)

theorem Token.fares (h : Token t b k b') (hk : r.kind ≠ .plain) (hc : r ≠ .stringContent) :
    (r.accepts k = true ∧ Reads grammar .spaced (.rule r) k t [r.tokenTree k] ∧ Agrees r.leaves b') ∨
      r.accepts k = false ∧ (Agrees r.wants b → Refuses grammar .spaced (.rule r) (k ++ t)) := by
  rcases wordRule hk hc with rfl | rfl | word
  · obtain ⟨accepted, read, rfl⟩ | ⟨rejected, refused⟩ := h.fares_int
    · exact .inl ⟨accepted, read, agrees_some.2 rfl⟩
    · exact .inr ⟨rejected, fun hb => refused (agrees_some.1 hb)⟩
  · obtain ⟨accepted, rfl, read⟩ | ⟨rejected, refused⟩ := h.fares_string
    · exact .inl ⟨accepted, read, agrees_some.2 rfl⟩
    · exact .inr ⟨rejected, fun _ => refused⟩
  · obtain ⟨lead, stop, rfl⟩ | ⟨c, l, rfl, other⟩ := h.word_or
    · cases ha : r.accepts k with
      | true =>
        rw [word.tokenTree]
        exact .inl ⟨rfl, word.reads k t ha stop, word.leaves k ha⟩
      | false => exact .inr ⟨rfl, fun _ => word.refuses _ (by rw [lead, ha])⟩
    · refine .inr ⟨Bool.eq_false_iff.2 fun accepted => ?_, fun _ => word.refuses_other other _⟩
      obtain ⟨d, m, same, start⟩ := word.start _ accepted
      cases same
      rw [start] at other
      cases other

end Taking

end ImpWasm
