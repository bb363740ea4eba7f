import ImpWasm.Lang.Printer
import ImpWasm.Lang.Grammar
import ImpWasm.Proofs.Peg.Reading
set_option autoImplicit false

/-!
The smallest parts of the grammar, each read back from its text: words, names, numbers, the inside of
a string, operators and types. Which word-like rule matches depends on the leading word of the text
alone.
-/
namespace ImpWasm

open Peg (Mode ParseTree)
open Grammar (Reads Refuses Idles)

namespace Rule

def empties : Rule → Bool
  | .endOfInput | .program | .stringContent => true
  | _ => false

def rank : Rule → Nat
  | .program => 6
  | .expressionInput | .exprStmt => 5
  | .expression | .paramList => 4
  | .call | .varDecl | .assign | .param => 3
  | .identifier | .primitiveType | .functionDecl | .externDecl | .whileStmt | .ifStmt
  | .returnStmt => 2
  | _ => 1

end Rule

/-- The grammar nests few rules before it reads, and repeats nothing that may be empty. -/
def grammarBounds : grammar.Bounds where
  empties := Rule.empties
  rank := Rule.rank
  empties_body := by
    intro r
    cases r <;> decide
  rank_body := by
    intro r
    cases r <;> decide
  rank_le := by
    intro r
    cases r <;> decide
  progresses := by
    intro r
    cases r <;> decide

def leadWord (cs : List Char) : List Char := cs.takeWhile isIdentChar

theorem leadWord_cons {c : Char} (cs : List Char) (h : isIdentChar c = false) : leadWord (c :: cs) = [] := by
  simp [leadWord, h]

theorem leadWord_append {w rest : List Char} (hw : ∀ c ∈ w, isIdentChar c = true)
    (hr : leadWord rest = []) : leadWord (w ++ rest) = w := by
  unfold leadWord at hr ⊢
  rw [List.takeWhile_append_of_pos hw, hr, List.append_nil]

theorem leadWord_prefix {w cs : List Char} (hw : ∀ c ∈ w, isIdentChar c = true) (h : w <+: cs) :
    w <+: leadWord cs := by
  obtain ⟨t, rfl⟩ := h
  unfold leadWord
  rw [List.takeWhile_append_of_pos hw]
  exact List.prefix_append _ _

theorem head_of_leadWord {cs : List Char} (h : leadWord cs = []) : ∀ c ∈ cs.head?, isIdentChar c = false := by
  cases cs with
  | nil => simp
  | cons c t => simpa [leadWord, List.takeWhile_cons] using h

theorem leadWord_eq_nil_iff {cs : List Char} : leadWord cs = [] ↔ ∀ c ∈ cs.head?, isIdentChar c = false := by
  refine ⟨head_of_leadWord, fun h => ?_⟩
  cases cs with
  | nil => rfl
  | cons c cs => exact leadWord_cons cs (h c rfl)

theorem not_isIdentChar_of_isBlank {c : Char} (h : Cursor.isBlank c = true) : isIdentChar c = false := by
  simp only [Cursor.isBlank, Bool.or_eq_true, beq_iff_eq] at h
  rcases h with ((rfl | rfl) | rfl) | rfl <;> rfl

theorem not_isBlank_of_isIdentChar {c : Char} (h : isIdentChar c = true) : Cursor.isBlank c = false := by
  cases hb : Cursor.isBlank c with
  | false => rfl
  | true =>
    rw [not_isIdentChar_of_isBlank hb] at h
    cases h

theorem exists_leadWord (cs : List Char) : ∃ rest, cs = leadWord cs ++ rest ∧ leadWord rest = [] := by
  induction cs with
  | nil => exact ⟨[], rfl, rfl⟩
  | cons c cs ih =>
    by_cases hc : isIdentChar c = true
    · obtain ⟨rest, hcs, hr⟩ := ih
      refine ⟨rest, ?_, hr⟩
      simpa [leadWord, hc] using hcs
    · have none := leadWord_cons cs (by simpa using hc)
      exact ⟨c :: cs, by rw [none]; rfl, none⟩

theorem leadWord_eq_nil_or (cs : List Char) :
    leadWord cs = [] ∨ ∃ c t, cs = c :: t ∧ isIdentChar c = true := by
  cases cs with
  | nil => exact .inl rfl
  | cons c t =>
    by_cases h : isIdentChar c = true
    · exact .inr ⟨c, t, rfl, h⟩
    · exact .inl (leadWord_cons t (by simpa using h))

section One

variable {m : Mode} {p : Char → Bool}

theorem reads_one {c : Char} (h : p c = true) (rest : List Char) : Reads grammar m (.one p) [c] rest [] :=
  fun _ => ⟨[], _, .one h, rfl, rfl⟩

theorem refuses_one {cs : List Char} (h : ∀ c ∈ cs.head?, p c = false) : Refuses grammar m (.one p) cs :=
  fun _ => .noOne h

/-- Repeating a character test inside a lexeme reads as far as the test holds. -/
theorem reads_star_one {w rest : List Char} (hw : ∀ c ∈ w, p c = true) (hr : ∀ c ∈ rest.head?, p c = false)
    (hne : w ≠ []) : Reads grammar .lexeme (.star (.one p)) w rest [] := by
  induction w with
  | nil => exact absurd rfl hne
  | cons c w ih =>
    have first := reads_one (m := .lexeme) (hw c (by simp)) (w ++ rest)
    cases w with
    | nil => exact first.starLast (refuses_one hr)
    | cons d w =>
      have more := ih (fun c hc => hw c (by simp [hc])) (by simp)
      have next := reads_one (m := .lexeme) (hw d (by simp)) (w ++ rest)
      exact first.starMore rfl next rfl more

theorem idles_star_one {cs : List Char} (h : ∀ c ∈ cs.head?, p c = false) :
    Idles grammar m (.star (.one p)) cs := (refuses_one h).star

theorem reads_one_star {q : Char → Bool} {c : Char} {w rest : List Char} (hc : q c = true)
    (hw : ∀ x ∈ w, p x = true) (hr : ∀ x ∈ rest.head?, p x = false) :
    Reads grammar .lexeme (.seq (.one q) (.star (.one p))) (c :: w) rest [] := by
  cases w with
  | nil => exact (reads_one hc rest).seq_idle (idles_star_one hr)
  | cons d w =>
    have tail := reads_star_one hw hr (by simp)
    exact (reads_one hc (d :: w ++ rest)).seq rfl tail

end One

section Words

variable {m : Mode} {ks : List (List Char)}

def words (ks : List (List Char)) : Peg Rule :=
  .seq (Peg.alts (ks.map .text)) (.not (.one isIdentChar))

/-- Words of identifier characters of which none starts another one. -/
def Distinct (ks : List (List Char)) : Prop :=
  (∀ k ∈ ks, k.all isIdentChar = true) ∧ ∀ k ∈ ks, ∀ l ∈ ks, k <+: l → k = l

instance (ks : List (List Char)) : Decidable (Distinct ks) := inferInstanceAs (Decidable (_ ∧ _))

theorem distinct_keywords : Distinct Rule.keywords := by decide

theorem reads_words {k rest : List Char} (hd : Distinct ks) (hk : k ∈ ks) (hr : leadWord rest = []) :
    Reads grammar .lexeme (words ks) k rest [] := by
  obtain ⟨l, t, hl, ht, read⟩ | ⟨none, -⟩ := Grammar.reads_or_refuses_alts (g := grammar) (m := .lexeme)
    (fun k rest => .text k rest) (fun k cs h => .text h) ks (k ++ rest)
  · have inside := leadWord_prefix (List.all_eq_true.1 (hd.1 l (List.mem_of_find?_eq_some hl))) ⟨t, ht.symm⟩
    rw [leadWord_append (List.all_eq_true.1 (hd.1 k hk)) hr] at inside
    have same := hd.2 l (List.mem_of_find?_eq_some hl) k hk inside
    subst same
    have same := List.append_cancel_left ht
    subst same
    exact read.seq_idle (refuses_one (head_of_leadWord hr)).not
  · have absent := List.find?_eq_none.1 none k hk
    simp at absent

theorem refuses_words {cs : List Char} (hd : Distinct ks) (hk : leadWord cs ∉ ks) :
    Refuses grammar .lexeme (words ks) cs := by
  obtain ⟨l, t, hl, rfl, read⟩ | ⟨-, refused⟩ := Grammar.reads_or_refuses_alts (g := grammar)
    (m := .lexeme) (fun k rest => .text k rest) (fun k cs h => .text h) ks cs
  · have member := List.mem_of_find?_eq_some hl
    obtain stop | ⟨c, t, rfl, hc⟩ := leadWord_eq_nil_or t
    · rw [leadWord_append (List.all_eq_true.1 (hd.1 l member)) stop] at hk
      exact absurd member hk
    · exact .seq_right read (.of_not (reads_one hc t))
  · exact refused.seq

variable {r : Rule}

theorem reads_word_rule (hm : m ≠ .lexeme) (hl : r.kind = .lexeme) (hb : r.body = words ks)
    (hd : Distinct ks) {k rest : List Char} (hk : k ∈ ks) (hr : leadWord rest = []) :
    Reads grammar m (.rule r) k rest [.leaf r {} k] :=
  .lexeme hl hm (show Reads grammar .lexeme r.body k rest [] from hb ▸ reads_words hd hk hr)

theorem refuses_word_rule (hl : r.kind = .lexeme) (hb : r.body = words ks) (hd : Distinct ks)
    {cs : List Char} (hk : leadWord cs ∉ ks) : Refuses grammar m (.rule r) cs :=
  .lexeme hl (show Refuses grammar .lexeme r.body cs from hb ▸ refuses_words hd hk)

/-- The word that a rule for a single word matches. -/
def Rule.spelling : Rule → Option (List Char)
  | .kwFn => some ['f', 'n']
  | .kwExtern => some ['e', 'x', 't', 'e', 'r', 'n']
  | .kwReturn => some ['r', 'e', 't', 'u', 'r', 'n']
  | .kwWhile => some ['w', 'h', 'i', 'l', 'e']
  | .kwIf => some ['i', 'f']
  | .kwElse => some ['e', 'l', 's', 'e']
  | .typeInt => some ['i', 'n', 't']
  | .typeString => some ['s', 't', 'r', 'i', 'n', 'g']
  | .typeBool => some ['b', 'o', 'o', 'l']
  | _ => none

theorem body_of_spelling {k : List Char} (h : r.spelling = some k) :
    r.body = words [k] ∧ r.kind = .lexeme ∧ Distinct [k] := by
  cases r <;> simp only [Rule.spelling, Option.some.injEq, reduceCtorEq] at h <;> subst h <;>
    exact ⟨rfl, rfl, by decide⟩

theorem reads_spelled (hm : m ≠ .lexeme) {k rest : List Char} (h : r.spelling = some k)
    (hr : leadWord rest = []) : Reads grammar m (.rule r) k rest [.leaf r {} k] := by
  obtain ⟨body, lexeme, distinct⟩ := body_of_spelling h
  exact reads_word_rule hm lexeme body distinct (by simp) hr

theorem refuses_spelled {k cs : List Char} (h : r.spelling = some k) (hk : leadWord cs ≠ k) :
    Refuses grammar m (.rule r) cs := by
  obtain ⟨body, lexeme, distinct⟩ := body_of_spelling h
  exact refuses_word_rule lexeme body distinct (by simpa using hk)

theorem distinct_bools : Distinct [boolChars true, boolChars false] := by decide

theorem reads_bool (hm : m ≠ .lexeme) (b : Bool) {rest : List Char} (hr : leadWord rest = []) :
    Reads grammar m (.rule .boolLiteral) (boolChars b) rest [.leaf .boolLiteral {} (boolChars b)] :=
  reads_word_rule hm rfl rfl distinct_bools (by cases b <;> simp) hr

theorem refuses_bool {cs : List Char} (h : ∀ b, leadWord cs ≠ boolChars b) :
    Refuses grammar m (.rule .boolLiteral) cs :=
  refuses_word_rule rfl rfl distinct_bools (by simpa using ⟨h true, h false⟩)

end Words

section Names

variable {m : Mode}

/-- A name begins with a letter or an underscore, goes on with these and digits, and is no keyword. -/
def isName : List Char → Bool
  | [] => false
  | c :: cs => isIdentStart c && cs.all isIdentChar && !Rule.keywords.contains (c :: cs)

theorem isIdentChar_of_isIdentStart {c : Char} (h : isIdentStart c = true) : isIdentChar c = true := by
  simp only [isIdentStart, isIdentChar, Bool.or_eq_true] at h ⊢
  cases h with
  | inl h => exact .inl (.inl h)
  | inr h => exact .inr h

theorem isName_cons {c : Char} {cs : List Char} :
    isName (c :: cs) = true ↔
      isIdentStart c = true ∧ (∀ x ∈ cs, isIdentChar x = true) ∧ c :: cs ∉ Rule.keywords := by
  simp [isName, and_assoc]

theorem isIdentChar_of_mem_name {w : List Char} (h : isName w = true) : ∀ c ∈ w, isIdentChar c = true := by
  cases w with
  | nil => simp
  | cons c cs =>
    obtain ⟨start, rest, -⟩ := isName_cons.1 h
    exact List.forall_mem_cons.2 ⟨isIdentChar_of_isIdentStart start, rest⟩

theorem not_keyword_of_isName {w : List Char} (h : isName w = true) : w ∉ Rule.keywords := by
  cases w with
  | nil => simp [isName] at h
  | cons c cs => exact (isName_cons.1 h).2.2

theorem reads_identifier (hm : m ≠ .lexeme) {w rest : List Char} (hw : isName w = true)
    (hr : leadWord rest = []) :
    Reads grammar m (.rule .identifier) w rest [.leaf .identifier {} w] := by
  have noKeyword : Refuses grammar .lexeme (.rule .keyword) (w ++ rest) := by
    refine refuses_word_rule rfl rfl distinct_keywords ?_
    rw [leadWord_append (isIdentChar_of_mem_name hw) hr]
    exact not_keyword_of_isName hw
  cases w with
  | nil => simp [isName] at hw
  | cons c cs =>
    obtain ⟨start, inside, -⟩ := isName_cons.1 hw
    exact .lexeme rfl hm (.idle_seq noKeyword.not rfl (reads_one_star start inside (head_of_leadWord hr)))

theorem refuses_identifier {cs : List Char} (h : isName (leadWord cs) = false) :
    Refuses grammar m (.rule .identifier) cs := by
  refine .lexeme rfl ?_
  by_cases hk : leadWord cs ∈ Rule.keywords
  · obtain ⟨rest, hcs, hr⟩ := exists_leadWord cs
    have read : Reads grammar .lexeme (.rule .keyword) (leadWord cs) rest [] :=
      .nested rfl (reads_words distinct_keywords hk hr)
    rw [hcs]
    exact (Refuses.of_not read).seq
  · have noKeyword : Refuses grammar .lexeme (.rule .keyword) cs :=
      refuses_word_rule rfl rfl distinct_keywords hk
    refine .idle_seq noKeyword.not (Refuses.seq (refuses_one ?_))
    intro c hc
    cases cs with
    | nil => simp at hc
    | cons x cs =>
      obtain rfl : x = c := by simpa [Mode.trim, Mode.skip] using hc
      by_cases start : isIdentStart x = true
      · have lead : leadWord (x :: cs) = x :: leadWord cs := by
          simp [leadWord, isIdentChar_of_isIdentStart start]
        rw [lead] at h hk
        have inside : ∀ y ∈ leadWord cs, isIdentChar y = true := List.all_eq_true.1 List.all_takeWhile
        rw [isName_cons.2 ⟨start, inside, hk⟩] at h
        cases h
      · simpa using start

end Names

section Literals

variable {m : Mode}

theorem isDigit_digit {n : Nat} (h : n < 10) : isDigit (Decimal.digit n) = true := by
  match n, h with
  | 0, _ | 1, _ | 2, _ | 3, _ | 4, _ | 5, _ | 6, _ | 7, _ | 8, _ | 9, _ => rfl

theorem digits_isDigit (n : Nat) :
    ∃ c cs, Decimal.digits n = c :: cs ∧ isDigit c = true ∧ ∀ x ∈ cs, isDigit x = true := by
  induction n using Nat.strongRecOn with
  | ind n ih =>
    rw [Decimal.digits]
    split
    · rename_i h
      exact ⟨_, [], rfl, isDigit_digit h, by simp⟩
    · rename_i h
      obtain ⟨c, cs, hq, hc, hcs⟩ := ih (n / 10) (by omega)
      have last := isDigit_digit (n := n % 10) (by omega)
      refine ⟨c, cs ++ [Decimal.digit (n % 10)], by simp [hq], hc, ?_⟩
      simpa [or_imp, forall_and] using ⟨hcs, last⟩

theorem isIdentChar_of_isDigit {c : Char} (h : isDigit c = true) : isIdentChar c = true := by
  simp [isIdentChar, h]

theorem not_isDigit_of_not_isIdentChar {c : Char} (h : isIdentChar c = false) : isDigit c = false := by
  simp only [isIdentChar, Bool.or_eq_false_iff] at h
  exact h.1.2

theorem not_isDigit_of_isIdentStart {c : Char} (h : isIdentStart c = true) : isDigit c = false := by
  cases hd : isDigit c with
  | false => rfl
  | true =>
    simp only [isIdentStart, isLetter, isDigit, Bool.or_eq_true, Bool.and_eq_true, decide_eq_true_eq,
      beq_iff_eq] at h hd
    rcases h with (low | up) | rfl
    · exact absurd (Char.le_trans low.1 hd.2) (by decide)
    · exact absurd (Char.le_trans up.1 hd.2) (by decide)
    · exact absurd hd.2 (by decide)

theorem not_symbol_of_isIdentStart {c : Char} (h : isIdentStart c = true) :
    c ≠ '-' ∧ c ≠ '"' ∧ isDigit c = false := by
  refine ⟨?_, ?_, not_isDigit_of_isIdentStart h⟩
  · rintro rfl
    cases h
  · rintro rfl
    cases h

section Numbers

variable {c : Char} {k rest : List Char}

theorem reads_number (hm : m ≠ .lexeme) (hc : isDigit c = true) (hk : ∀ x ∈ k, isDigit x = true)
    (hr : ∀ x ∈ rest.head?, isDigit x = false) :
    Reads grammar m (.rule .intLiteral) (c :: k) rest [.leaf .intLiteral {} (c :: k)] := by
  have unsigned : Refuses grammar .lexeme (.text ['-']) (c :: k ++ rest) := by
    refine .text ?_
    rw [List.cons_append, List.cons_prefix_cons]
    rintro ⟨rfl, -⟩
    cases hc
  exact .lexeme rfl hm (.idle_seq unsigned.opt rfl (reads_one_star hc hk hr))

theorem reads_negative (hm : m ≠ .lexeme) (hc : isDigit c = true) (hk : ∀ x ∈ k, isDigit x = true)
    (hr : ∀ x ∈ rest.head?, isDigit x = false) :
    Reads grammar m (.rule .intLiteral) ('-' :: c :: k) rest [.leaf .intLiteral {} ('-' :: c :: k)] :=
  .lexeme rfl hm ((Reads.text ['-'] _).opt.seq (u := ['-']) rfl (reads_one_star hc hk hr))

end Numbers

theorem reads_int (hm : m ≠ .lexeme) (i : Int) {rest : List Char} (hr : leadWord rest = []) :
    Reads grammar m (.rule .intLiteral) (Decimal.ofInt i) rest
      [.leaf .intLiteral {} (Decimal.ofInt i)] := by
  have stop : ∀ x ∈ rest.head?, isDigit x = false :=
    fun x hx => not_isDigit_of_not_isIdentChar (head_of_leadWord hr x hx)
  cases i with
  | ofNat n =>
    obtain ⟨c, cs, hn, hc, hcs⟩ := digits_isDigit n
    rw [Decimal.ofInt, hn]
    exact reads_number hm hc hcs stop
  | negSucc n =>
    obtain ⟨c, cs, hn, hc, hcs⟩ := digits_isDigit (n + 1)
    rw [Decimal.ofInt, hn]
    exact reads_negative hm hc hcs stop

theorem refuses_minus {cs : List Char} (h : ∀ x ∈ cs.head?, isDigit x = false) :
    Refuses grammar m (.rule .intLiteral) ('-' :: cs) :=
  .lexeme rfl (.seq_right (Reads.text ['-'] cs).opt (Refuses.seq (refuses_one h)))

theorem refuses_int {c : Char} {cs : List Char} (hs : c ≠ '-') (hd : isDigit c = false) :
    Refuses grammar m (.rule .intLiteral) (c :: cs) := by
  have unsigned : Refuses grammar .lexeme (.text ['-']) (c :: cs) := .text (by simpa using Ne.symm hs)
  refine .lexeme rfl (.idle_seq unsigned.opt (Refuses.seq (refuses_one ?_)))
  simpa [Mode.trim, Mode.skip] using hd

theorem int32?_ofInt (v : Int32) : Decimal.int32? (Decimal.ofInt v.toInt) = some v := by
  have value : Decimal.value (Decimal.ofInt v.toInt) = v.toInt := by
    cases v.toInt with
    | ofNat n =>
      obtain ⟨c, cs, hn, hc, -⟩ := digits_isDigit n
      have unsigned : c ≠ '-' := by
        rintro rfl
        cases hc
      have same := Decimal.natValue_digits n
      simp only [Decimal.ofInt, hn] at same ⊢
      simp [Decimal.value, unsigned, same]
    | negSucc n =>
      simp [Decimal.ofInt, Decimal.value, Decimal.natValue_digits]
      omega
  have low := v.le_toInt
  have high := v.toInt_lt
  simp only [Decimal.int32?, value, Int32.ofInt_toInt]
  rw [if_pos (by omega)]

/-- The inside of a string literal, where a backslash and the character after it belong together. -/
inductive Content : List Char → Prop
  | nil : Content []
  | plain {c : Char} {k : List Char} (hq : c ≠ '"') (hs : c ≠ '\\') (hk : Content k) : Content (c :: k)
  | escaped {c : Char} {k : List Char} (hk : Content k) : Content ('\\' :: c :: k)

theorem content_encode (cs : List Char) : Content (Escape.encode cs) := by
  induction cs with
  | nil => exact .nil
  | cons c cs ih =>
    cases hl : Escape.letter? c with
    | none =>
      have quote : c ≠ '"' := by
        rintro rfl
        cases hl
      have slash : c ≠ '\\' := by
        rintro rfl
        cases hl
      simpa only [Escape.encode, hl] using ih.plain quote slash
    | some l => simpa only [Escape.encode, hl] using ih.escaped

def contentItem : Peg Rule :=
  .alt (.one fun c => c != '"' && c != '\\') (.seq (.text ['\\']) (.one fun _ => true))

theorem reads_plain {c : Char} (hq : c ≠ '"') (hs : c ≠ '\\') (rest : List Char) :
    Reads grammar .lexeme contentItem [c] rest [] := (reads_one (by simp [hq, hs]) rest).left

theorem reads_escaped (c : Char) (rest : List Char) :
    Reads grammar .lexeme contentItem ['\\', c] rest [] :=
  .right (refuses_one (by simp)) ((Reads.text ['\\'] (c :: rest)).seq (w := [c]) rfl (reads_one rfl rest))

theorem Content.reads_first {k : List Char} (h : Content k) (hne : k ≠ []) :
    ∃ u l, k = u ++ l ∧ ∀ rest, Reads grammar .lexeme contentItem u (l ++ rest) [] := by
  cases h with
  | nil => exact absurd rfl hne
  | @plain c k hq hs _ => exact ⟨[c], k, rfl, fun rest => reads_plain hq hs (k ++ rest)⟩
  | @escaped c k _ => exact ⟨['\\', c], k, rfl, fun rest => reads_escaped c (k ++ rest)⟩

theorem reads_content (hm : m ≠ .lexeme) {k : List Char} (h : Content k) (rest : List Char) :
    Reads grammar m (.rule .stringContent) k ('"' :: rest) [.leaf .stringContent {} k] := by
  refine .lexeme rfl hm (?_ : Reads grammar .lexeme (.star contentItem) k ('"' :: rest) [])
  have closed : Refuses grammar .lexeme contentItem ('"' :: rest) :=
    (refuses_one (by simp)).alt (Refuses.seq (.text (by simp)))
  have more {u l : List Char} (read : Reads grammar .lexeme contentItem u (l ++ '"' :: rest) [])
      (hl : Content l) (ih : Reads grammar .lexeme (.star contentItem) l ('"' :: rest) []) :
      Reads grammar .lexeme (.star contentItem) (u ++ l) ('"' :: rest) [] := by
    cases l with
    | nil =>
      rw [List.append_nil]
      exact read.starLast closed
    | cons d l =>
      obtain ⟨x, after, same, next⟩ := hl.reads_first (by simp)
      exact read.starMore rfl (next ('"' :: rest)) (by rw [same, List.append_assoc]) ih
  induction h with
  | nil => exact closed.star.reads
  | plain hq hs hk ih => exact more (u := [_]) (reads_plain hq hs _) hk ih
  | escaped hk ih => exact more (u := ['\\', _]) (reads_escaped _ _) hk ih

theorem reads_quoted (hm : m ≠ .lexeme) {k : List Char} (h : Content k) (rest : List Char) :
    Reads grammar m (.rule .stringLiteral) ('"' :: (k ++ ['"'])) rest
      [.branch .stringLiteral {} [.leaf .stringContent {} k]] := by
  refine .token rfl hm ?_
  have closing := (reads_content (m := .token) (by simp) h rest).seq (w := ['"']) rfl (Reads.text ['"'] rest)
  exact (Reads.text ['"'] _).seq (u := ['"']) rfl closing

theorem reads_string (hm : m ≠ .lexeme) (value : String) (rest : List Char) :
    Reads grammar m (.rule .stringLiteral) (literalChars value) rest
      [.branch .stringLiteral {} [.leaf .stringContent {} (Escape.encode value.toList)]] :=
  reads_quoted hm (content_encode value.toList) rest

theorem refuses_string {c : Char} {t : List Char} (h : c ≠ '"') :
    Refuses grammar m (.rule .stringLiteral) (c :: t) :=
  .rule (Refuses.seq (.text (by simpa using Ne.symm h)))

end Literals

section Symbols

def Operator.rule : Operator → Rule
  | .or => .opOr
  | .and => .opAnd
  | .eq => .opEqual
  | .ne => .opNotEqual
  | .lt => .opLess
  | .le => .opLessEqual
  | .gt => .opGreater
  | .ge => .opGreaterEqual
  | .add => .opAdd
  | .sub => .opSubtract
  | .mul => .opMultiply
  | .div => .opDivide
  | .mod => .opModulo

theorem Operator.body_rule (op : Operator) : grammar.body op.rule = .text op.chars := by
  cases op <;> rfl

theorem Operator.kind_rule (op : Operator) : grammar.kind op.rule = .plain := by
  cases op <;> rfl

/-- The operators in the order in which they are tried: one that starts another comes after it. -/
def Operator.tried : List Operator :=
  [.or, .and, .eq, .ne, .le, .lt, .ge, .gt, .add, .sub, .mul, .div, .mod]

theorem infixOp_eq : Rule.infixOp = Peg.alts (Operator.tried.map fun op => .rule op.rule) := rfl

theorem reads_or_refuses_operator (cs : List Char) :
    (∃ op rest, Operator.tried.find? (fun op => op.chars.isPrefixOf cs) = some op ∧
      cs = op.chars ++ rest ∧
      Reads grammar .spaced Rule.infixOp op.chars rest [.branch op.rule {} []]) ∨
    Operator.tried.find? (fun op => op.chars.isPrefixOf cs) = none ∧
      Refuses grammar .spaced Rule.infixOp cs := by
  rw [infixOp_eq]
  refine Grammar.reads_or_refuses_alts (fun op rest => ?_) (fun op cs h => ?_) _ _
  · refine .plain op.kind_rule (by simp) ?_
    rw [op.body_rule]
    exact .text _ _
  · refine .rule ?_
    rw [op.body_rule]
    exact .text h

theorem reads_operator (op : Operator) (rest : List Char) :
    Reads grammar .spaced Rule.infixOp op.chars (' ' :: rest) [.branch op.rule {} []] := by
  have chosen : Operator.tried.find? (fun o => o.chars.isPrefixOf (op.chars ++ ' ' :: rest)) = some op := by
    cases op <;> rfl
  obtain ⟨o, t, ho, ht, read⟩ | ⟨none, -⟩ := reads_or_refuses_operator (op.chars ++ ' ' :: rest)
  · obtain rfl := Option.some.inj (ho.symm.trans chosen)
    obtain rfl := List.append_cancel_left ht
    exact read
  · rw [chosen] at none
    cases none

theorem refuses_operator {c : Char} (h : c = ';' ∨ c = ')' ∨ c = ',') (rest : List Char) :
    Refuses grammar .spaced Rule.infixOp (c :: rest) := by
  have none : Operator.tried.find? (fun o => o.chars.isPrefixOf (c :: rest)) = none := by
    rcases h with rfl | rfl | rfl <;> rfl
  obtain ⟨o, t, ho, -⟩ | ⟨-, refused⟩ := reads_or_refuses_operator (c :: rest)
  · rw [none] at ho
    cases ho
  · exact refused

theorem trim_operator (op : Operator) (rest : List Char) :
    Mode.spaced.trim (op.chars ++ ' ' :: rest) = op.chars ++ ' ' :: rest := by
  cases op <;> rfl

def PrimType.rule : PrimType → Rule
  | .int => .typeInt
  | .string => .typeString
  | .bool => .typeBool

theorem leadWord_type (t : PrimType) {rest : List Char} (hr : leadWord rest = []) :
    leadWord (t.chars ++ rest) = t.chars :=
  leadWord_append (List.all_eq_true.1 (by cases t <;> decide)) hr

theorem reads_type (t : PrimType) {rest : List Char} (hr : leadWord rest = []) :
    Reads grammar .spaced (.rule .primitiveType) t.chars rest
      [.branch .primitiveType {} [.leaf t.rule {} t.chars]] := by
  have lead := leadWord_type t hr
  refine .plain rfl (by simp) ?_
  cases t with
  | int => exact .left (reads_spelled (by simp) rfl hr)
  | string =>
    refine .right (refuses_spelled rfl (by rw [lead]; decide)) (.left ?_)
    exact reads_spelled (by simp) rfl hr
  | bool =>
    refine .right (refuses_spelled rfl (by rw [lead]; decide)) (.right ?_ ?_)
    · exact refuses_spelled rfl (by rw [lead]; decide)
    · exact reads_spelled (by simp) rfl hr

end Symbols

end ImpWasm
