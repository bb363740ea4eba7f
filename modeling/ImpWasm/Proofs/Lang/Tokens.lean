import ImpWasm.Proofs.Lang.Lexemes
set_option autoImplicit false

/-!
The tokens of a text, and the blanks and comments between them. A token is recognised in front of what
comes after it, so that a word or a number is not cut short. Main statement: a text that is cut only
between tokens still consists of these tokens when more blanks and comments are put at the cut.
-/
namespace ImpWasm

open Peg (Mode)
open Cursor (isBlank)

def symbolPairs : List (List Char) :=
  [['|', '|'], ['&', '&'], ['=', '='], ['!', '='], ['<', '='], ['>', '='], [':', '='], ['-', '>']]

/-- A character that is a token by itself, or half of one. -/
def isMark (c : Char) : Bool := !isBlank c && !isIdentChar c && c != '"'

def isOperandWord (k : List Char) : Bool := isName k || k == boolChars true || k == boolChars false

/-- A token in front of `t`. The flags tell whether an operand ends before the token and whether one
ends with it: a minus sign after an operand is an operator, elsewhere it is part of the number. -/
inductive Token (t : List Char) : Bool → List Char → Bool → Prop
  | word {b : Bool} {c : Char} {k : List Char} (hc : isIdentStart c = true)
    (hk : ∀ x ∈ k, isIdentChar x = true) (ht : leadWord t = []) :
    Token t b (c :: k) (isOperandWord (c :: k))
  | number {b : Bool} {c : Char} {k : List Char} (hc : isDigit c = true)
    (hk : ∀ x ∈ k, isDigit x = true) (ht : ∀ x ∈ t.head?, isDigit x = false) : Token t b (c :: k) true
  | negative {c : Char} {k : List Char} (hc : isDigit c = true) (hk : ∀ x ∈ k, isDigit x = true)
    (ht : ∀ x ∈ t.head?, isDigit x = false) : Token t false ('-' :: c :: k) true
  | string {b : Bool} {k : List Char} (hk : Content k) : Token t b ('"' :: (k ++ ['"'])) true
  | mark {b : Bool} {c : Char} (hc : isMark c = true) (noComment : c = '/' → ∀ x ∈ t.head?, x ≠ '/')
    (noSign : c = '-' → b = false → ∀ x ∈ t.head?, isDigit x = false) : Token t b [c] (c == ')')

inductive Piece (t : List Char) : Bool → List Char → Bool → Prop
  | token {b b' : Bool} {k : List Char} (hk : Token t b k b') : Piece t b k b'
  | blank {b : Bool} {c : Char} (hc : isBlank c = true) : Piece t b [c] b
  | comment {b : Bool} {k : List Char} (hk : ∀ c ∈ k, c ≠ '\n') (ends : ∀ c ∈ t.head?, c = '\n') :
    Piece t b ('/' :: '/' :: k) b

/-- A text in front of `v` that consists of whole pieces, with the flags before and after it. -/
inductive Lexes (v : List Char) : Bool → List Char → Bool → Prop
  | nil {b : Bool} : Lexes v b [] b
  | cons {b b' b'' : Bool} {k x : List Char} (hk : Piece (x ++ v) b k b') (hx : Lexes v b' x b'') :
    Lexes v b (k ++ x) b''

/-- The last character of `u` and the first of `v` make up a symbol. -/
def Parts (u v : List Char) : Prop := ∃ c ∈ u.getLast?, ∃ d ∈ v.head?, [c, d] ∈ symbolPairs

/-- The place between `u` and `v` is strictly inside a token or a comment of the text that they make
up. The flag is the one at the start of the text. -/
inductive Inside (b : Bool) : List Char → List Char → Prop
  | piece {b' b'' : Bool} {x k l y : List Char} (hx : Lexes (k ++ (l ++ y)) b x b')
    (hp : Piece y b' (k ++ l) b'') (hk : k ≠ []) (hl : l ≠ []) : Inside b (x ++ k) (l ++ y)
  | symbol {b' : Bool} {u v : List Char} (hu : Lexes v b u b') (hs : Parts u v) : Inside b u v

/-- Blanks, and comments up to the ends of their lines. -/
inductive Gap : List Char → Prop
  | nil : Gap []
  | blank {c : Char} {w : List Char} (hc : isBlank c = true) (hw : Gap w) : Gap (c :: w)
  | comment {k w : List Char} (hk : ∀ c ∈ k, c ≠ '\n') (hw : Gap w) : Gap ('/' :: '/' :: (k ++ '\n' :: w))

/-- A gap that can stand right after a token: a comment does not come first, as its slashes might
belong to an operator. -/
structure Spacing (w : List Char) : Prop where
  gap : Gap w
  first : ∃ c t, w = c :: t ∧ isBlank c = true

section Skipping

variable {v w : List Char}

theorem rest_skipFrom_plain {k : List Char} (hk : ∀ c ∈ k, c ≠ '\n') (pos pos' : Nat) (cs : List Char) :
    (Cursor.skipFrom true pos (k ++ cs)).rest = (Cursor.skipFrom true pos' cs).rest := by
  induction k generalizing pos with
  | nil => exact Cursor.rest_skipFrom true _ _ cs
  | cons c k ih =>
    obtain ⟨hc, hk⟩ := List.forall_mem_cons.1 hk
    have inside : (c != '\n') = true := by simpa using hc
    rw [List.cons_append, Cursor.skipFrom_comment, inside]
    exact ih hk _

theorem trim_comment {k t : List Char} (hk : ∀ c ∈ k, c ≠ '\n') (ends : ∀ c ∈ t.head?, c = '\n') :
    Mode.spaced.trim ('/' :: '/' :: (k ++ t)) = Mode.spaced.trim t := by
  simp only [Mode.trim, Mode.skip, Cursor.skip, Cursor.skipFrom_slashes]
  rw [rest_skipFrom_plain hk _ 0]
  cases t with
  | nil => rfl
  | cons c t =>
    obtain rfl : c = '\n' := ends c rfl
    rw [Cursor.skipFrom_comment, Cursor.skipFrom_blank _ rfl]
    exact Cursor.rest_skipFrom false _ _ t

theorem Gap.trim_append (h : Gap w) (v : List Char) :
    Mode.spaced.trim (w ++ v) = Mode.spaced.trim v := by
  induction h with
  | nil => rfl
  | blank hc _ ih => rw [List.cons_append, Mode.trim_blank hc, ih]
  | @comment k w hk _ ih =>
    have line := trim_comment (t := '\n' :: (w ++ v)) hk (by simp)
    simpa [Mode.trim_blank (show isBlank '\n' = true from rfl), ih] using line

/-- A gap at the end of a comment is taken for part of the comment, as far as its first line goes. -/
theorem Gap.rest_skipFrom_append (h : Gap w) (ends : ∀ c ∈ v.head?, c = '\n') (pos : Nat) :
    (Cursor.skipFrom true pos (w ++ v)).rest = Mode.spaced.trim v := by
  induction h generalizing pos with
  | nil =>
    cases v with
    | nil => rfl
    | cons c v =>
      obtain rfl : c = '\n' := ends c rfl
      rw [Mode.trim_blank rfl, List.nil_append, Cursor.skipFrom_comment]
      exact Cursor.rest_skipFrom false _ _ v
  | @blank c w hc hw ih =>
    rw [List.cons_append, Cursor.skipFrom_comment]
    cases hn : c != '\n' with
    | true => exact ih _
    | false => exact (Cursor.rest_skipFrom false _ 0 _).trans (hw.trim_append v)
  | @comment k w hk hw ih =>
    have line : ∀ c ∈ '/' :: '/' :: k, c ≠ '\n' := by simpa using hk
    have split : '/' :: '/' :: (k ++ '\n' :: w) ++ v = '/' :: '/' :: k ++ '\n' :: (w ++ v) := by simp
    rw [split, rest_skipFrom_plain line _ 0, Cursor.skipFrom_comment]
    exact (Cursor.rest_skipFrom false _ 0 _).trans (hw.trim_append v)

theorem Gap.trim_comment_append (h : Gap w) {k : List Char} (hk : ∀ c ∈ k, c ≠ '\n')
    (ends : ∀ c ∈ v.head?, c = '\n') :
    Mode.spaced.trim ('/' :: '/' :: (k ++ (w ++ v))) = Mode.spaced.trim v := by
  simp only [Mode.trim, Mode.skip, Cursor.skip, Cursor.skipFrom_slashes]
  rw [rest_skipFrom_plain hk _ 0]
  exact h.rest_skipFrom_append ends 0

end Skipping

section Tokens

variable {v w x t k : List Char} {b b' : Bool}

theorem Spacing.forall_head {p : Char → Prop} (h : Spacing w) (hp : ∀ c, isBlank c = true → p c)
    (hx : ∀ c ∈ (x ++ v).head?, p c) : ∀ c ∈ (x ++ (w ++ v)).head?, p c := by
  obtain ⟨c, w, rfl, hc⟩ := h.first
  cases x with
  | nil => simpa using hp c hc
  | cons d x => exact hx

theorem isMark_iff {c : Char} : isMark c = true ↔ isBlank c = false ∧ isIdentChar c = false ∧ c ≠ '"' := by
  simp [isMark, and_assoc]

theorem Token.ne_nil (h : Token t b k b') : k ≠ [] := by
  cases h <;> simp

theorem Token.trim_append (h : Token t b k b') : Mode.spaced.trim (k ++ t) = k ++ t := by
  have inside {c : Char} (hc : isIdentChar c = true) (cs : List Char) :
      Mode.spaced.trim (c :: cs) = c :: cs := by
    refine Mode.spaced.trim_cons cs (not_isBlank_of_isIdentChar hc) ?_
    rintro rfl
    cases hc
  cases h with
  | word hc _ _ => exact inside (isIdentChar_of_isIdentStart hc) _
  | number hc _ _ => exact inside (isIdentChar_of_isDigit hc) _
  | negative _ _ _ => exact Mode.spaced.trim_cons _ rfl (by decide)
  | string _ => exact Mode.spaced.trim_cons _ rfl (by decide)
  | @mark _ c hc noComment _ =>
    have solid := (isMark_iff.1 hc).1
    refine congrArg Cursor.rest (Cursor.skipFrom_solid 0 solid fun ds hs ht => ?_)
    subst ht
    exact noComment hs '/' rfl rfl

theorem Token.spread (h : Token (x ++ v) b k b') (hw : Spacing w) : Token (x ++ (w ++ v)) b k b' := by
  have noDigit : ∀ c, isBlank c = true → isDigit c = false :=
    fun c hc => not_isDigit_of_not_isIdentChar (not_isIdentChar_of_isBlank hc)
  cases h with
  | word hc hk ht =>
    refine .word hc hk ?_
    rw [leadWord_eq_nil_iff] at ht ⊢
    exact hw.forall_head (fun c => not_isIdentChar_of_isBlank) ht
  | number hc hk ht => exact .number hc hk (hw.forall_head noDigit ht)
  | negative hc hk ht => exact .negative hc hk (hw.forall_head noDigit ht)
  | string hk => exact .string hk
  | mark hc noComment noSign =>
    refine .mark hc (fun hs => hw.forall_head ?_ (noComment hs)) fun hs hb =>
      hw.forall_head noDigit (noSign hs hb)
    rintro c hc rfl
    cases hc

theorem Piece.ne_nil (h : Piece t b k b') : k ≠ [] := by
  cases h with
  | token h => exact h.ne_nil
  | blank _ => simp
  | comment _ _ => simp

theorem Piece.lexes (h : Piece t b k b') : Lexes t b k b' := by
  have one : Lexes t b (k ++ []) b' := .cons h .nil
  rwa [List.append_nil] at one

theorem Lexes.piece_of_singleton {c : Char} (h : Lexes v b [c] b') : Piece v b [c] b' := by
  generalize hz : [c] = z at h
  cases h with
  | nil => cases hz
  | @cons _ _ _ k x hk hx =>
    obtain ⟨rfl, rfl⟩ : k = [c] ∧ x = [] := by
      simpa [hk.ne_nil] using List.append_eq_singleton_iff.1 hz.symm
    generalize hz : [] = z at hx
    cases hx with
    | nil => exact hk
    | cons hk _ => exact absurd (List.append_eq_nil_iff.1 hz.symm).1 hk.ne_nil

theorem Lexes.append {y : List Char} {b'' : Bool} (h : Lexes (y ++ v) b x b') (h' : Lexes v b' y b'') :
    Lexes v b (x ++ y) b'' := by
  induction h with
  | nil => exact h'
  | cons hk _ ih =>
    rw [List.append_assoc]
    exact .cons (by rwa [List.append_assoc]) (ih h')

theorem Parts.append_left {u : List Char} (h : Parts u v) (k : List Char) : Parts (k ++ u) v := by
  obtain ⟨c, hc, rest⟩ := h
  refine ⟨c, ?_, rest⟩
  rw [Option.mem_def] at hc ⊢
  rw [List.getLast?_append, hc, Option.some_or]

theorem Inside.after {u y : List Char} (h : Inside b' u v) (hy : Lexes (u ++ v) b y b') :
    Inside b (y ++ u) v := by
  cases h with
  | piece hx hp hk hl =>
    rw [← List.append_assoc]
    exact .piece (.append (by rwa [List.append_assoc] at hy) hx) hp hk hl
  | symbol hu hs => exact .symbol (.append hy hu) (hs.append_left y)

/-- A place in a text that consists of whole pieces is between two of them or inside one. -/
theorem Lexes.cut (h : Lexes [] b (x ++ v) b') : (∃ b'', Lexes v b x b'') ∨ Inside b x v := by
  generalize same : x ++ v = s at h
  induction h generalizing x with
  | nil =>
    obtain rfl := (List.append_eq_nil_iff.1 same).1
    exact .inl ⟨_, .nil⟩
  | @cons b b' b'' k y hk _ ih =>
    rw [List.append_nil] at hk
    obtain ⟨z, rfl, rfl⟩ | ⟨z, rfl, rfl⟩ := List.append_eq_append_iff.1 same
    · -- the place is not after the end of the first piece
      cases x with
      | nil => exact .inl ⟨_, .nil⟩
      | cons c x =>
        cases z with
        | nil =>
          rw [List.append_nil] at hk
          exact .inl ⟨_, hk.lexes⟩
        | cons d z => exact .inr (.piece (x := []) .nil hk (by simp) (by simp))
    · obtain ⟨f, rest⟩ | inside := ih rfl
      · exact .inl ⟨f, .cons hk rest⟩
      · exact .inr (inside.after hk.lexes)

/-- Two texts to be read next, the second with the spacing `w` put in front of `v`, unless both runs
are past it. -/
inductive Near (v w : List Char) (b : Bool) : List Char → List Char → Prop
  | same {cs : List Char} : Near v w b cs cs
  | apart {k x : List Char} {b' b'' : Bool} (hk : Token (x ++ v) b k b') (hx : Lexes v b' x b'')
    (cut : ¬ Parts (k ++ x) v) : Near v w b (k ++ (x ++ v)) (k ++ (x ++ (w ++ v)))

theorem Lexes.near_trim (h : Lexes v b x b') (cut : ¬ Parts x v) (hw : Spacing w) :
    Near v w b (Mode.spaced.trim (x ++ v)) (Mode.spaced.trim (x ++ (w ++ v))) := by
  induction h with
  | nil =>
    rw [List.nil_append, List.nil_append, hw.gap.trim_append]
    exact .same
  | @cons b b' b'' k x hk hx ih =>
    have later : ¬ Parts x v := fun h => cut (h.append_left k)
    rw [List.append_assoc, List.append_assoc]
    cases hk with
    | token hk =>
      rw [hk.trim_append, (hk.spread hw).trim_append]
      exact .apart hk hx cut
    | blank hc =>
      simp only [List.cons_append, List.nil_append]
      rw [Mode.trim_blank hc, Mode.trim_blank hc]
      exact ih later
    | comment hk ends =>
      simp only [List.cons_append]
      rw [trim_comment hk ends]
      cases x with
      | nil =>
        rw [List.nil_append, List.nil_append, hw.gap.trim_comment_append (v := v) hk ends]
        exact .same
      | cons c x =>
        rw [trim_comment hk (t := c :: x ++ (w ++ v)) ends]
        exact ih later

theorem Near.trim {cs cs' : List Char} (h : Near v w b cs cs') (hw : Spacing w) :
    Near v w b (Mode.spaced.trim cs) (Mode.spaced.trim cs') := by
  cases h with
  | same => exact .same
  | apart hk hx cut =>
    rw [hk.trim_append, (hk.spread hw).trim_append]
    exact .apart hk hx cut

end Tokens

end ImpWasm
