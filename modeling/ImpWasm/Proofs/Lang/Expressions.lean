import ImpWasm.Proofs.Lang.Trees
import ImpWasm.Proofs.Lang.WellFormed
set_option autoImplicit false

namespace ImpWasm

open Peg (Mode ParseTree)
open Grammar (Reads Refuses Idles)

/-- What may follow an expression. -/
def EndsExpr (rest : List Char) : Prop := ∃ c t, rest = c :: t ∧ (c = ';' ∨ c = ')' ∨ c = ',')

def EndsOperand (rest : List Char) : Prop :=
  EndsExpr rest ∨ ∃ op t, rest = ' ' :: (Operator.chars op ++ ' ' :: t)

theorem endsExpr_semicolon (t : List Char) : EndsExpr (';' :: t) := ⟨_, t, rfl, .inl rfl⟩

theorem endsExpr_close (t : List Char) : EndsExpr (')' :: t) := ⟨_, t, rfl, .inr (.inl rfl)⟩

theorem EndsExpr.trim {rest : List Char} (h : EndsExpr rest) : Mode.spaced.trim rest = rest := by
  obtain ⟨c, t, rfl, rfl | rfl | rfl⟩ := h <;> rfl

theorem Operator.head_chars (op : Operator) :
    ∃ c w, op.chars = c :: w ∧ c ≠ '(' ∧ c ≠ ':' ∧ (c = '=' → w = ['=']) := by
  have head : op.chars.head? ≠ some '(' ∧ op.chars.head? ≠ some ':' ∧
      (op.chars.head? = some '=' → op.chars = ['=', '=']) ∧ op.chars ≠ [] := by
    cases op <;> decide
  obtain ⟨c, w, hw⟩ := List.exists_cons_of_ne_nil head.2.2.2
  simp only [hw, List.head?_cons, ne_eq, Option.some.injEq, List.cons.injEq] at head
  exact ⟨c, w, hw, head.1, head.2.1, fun h => (head.2.2.1 h).2⟩

/-- After an operand no word goes on; what comes next opens no call and declares nothing. -/
theorem EndsOperand.next {rest : List Char} (h : EndsOperand rest) :
    leadWord rest = [] ∧ ∃ c t, Mode.spaced.trim rest = c :: t ∧ c ≠ '(' ∧ c ≠ ':' ∧
      (c = '=' → ∃ u, t = '=' :: u) := by
  obtain ⟨c, t, rfl, rfl | rfl | rfl⟩ | ⟨op, t, rfl⟩ := h
  · exact ⟨rfl, ';', t, rfl, by simp⟩
  · exact ⟨rfl, ')', t, rfl, by simp⟩
  · exact ⟨rfl, ',', t, rfl, by simp⟩
  · refine ⟨rfl, ?_⟩
    obtain ⟨c, w, hw, paren, colon, equal⟩ := op.head_chars
    refine ⟨c, w ++ ' ' :: t, ?_, paren, colon, fun h => ⟨' ' :: t, by rw [equal h]; rfl⟩⟩
    rw [Mode.trim_space, trim_operator, hw]
    rfl

/-- A text that begins with something to read, and not with an equals sign. -/
def Opens (cs : List Char) : Prop :=
  ∃ c t, cs = c :: t ∧ Cursor.isBlank c = false ∧ c ≠ '/' ∧ c ≠ '='

theorem Opens.append {cs : List Char} (h : Opens cs) (ds : List Char) : Opens (cs ++ ds) := by
  obtain ⟨c, t, rfl, hc⟩ := h
  exact ⟨c, t ++ ds, rfl, hc⟩

theorem Opens.trim {cs : List Char} (h : Opens cs) (m : Mode) : m.trim cs = cs := by
  obtain ⟨c, t, rfl, hb, hs, -⟩ := h
  exact m.trim_cons t hb hs

theorem opens_of_isIdentChar {c : Char} (h : isIdentChar c = true) (t : List Char) : Opens (c :: t) := by
  refine ⟨c, t, rfl, not_isBlank_of_isIdentChar h, ?_, ?_⟩
  · rintro rfl
    cases h
  · rintro rfl
    cases h

theorem opens_name {w : List Char} (h : isName w = true) : Opens w := by
  cases w with
  | nil => cases h
  | cons c t => exact opens_of_isIdentChar (isIdentChar_of_mem_name h c (by simp)) t

section Refusals

variable {m : Mode} {c : Char} {t cs : List Char}

theorem refuses_call (h : isName (leadWord cs) = false) : Refuses grammar .spaced (.rule .call) cs :=
  .plain rfl (Refuses.seq (refuses_identifier h))

theorem refuses_words_of_symbol (h : isIdentChar c = false) :
    Refuses grammar .spaced (.rule .call) (c :: t) ∧
      Refuses grammar .spaced (.rule .boolLiteral) (c :: t) ∧
      Refuses grammar .spaced (.rule .identifier) (c :: t) := by
  have none := leadWord_cons t h
  refine ⟨refuses_call (by rw [none]; rfl), refuses_bool ?_, refuses_identifier (by rw [none]; rfl)⟩
  intro b
  rw [none]
  cases b <;> decide

theorem refuses_expression_of_close (h : c = ')' ∨ c = '}') :
    Refuses grammar .spaced (.rule .expression) (c :: t) := by
  have symbol : isIdentChar c = false ∧ c ≠ '-' ∧ c ≠ '"' ∧ c ≠ '(' := by
    rcases h with rfl | rfl <;> decide
  obtain ⟨call, bool, identifier⟩ := refuses_words_of_symbol (t := t) symbol.1
  have int : Refuses grammar .spaced (.rule .intLiteral) (c :: t) :=
    refuses_int symbol.2.1 (not_isDigit_of_not_isIdentChar symbol.1)
  have string := refuses_string (m := .spaced) (t := t) symbol.2.2.1
  have group : Refuses grammar .spaced (Peg.seqs [.text ['('], .rule .expression, .text [')']]) (c :: t) :=
    Refuses.seq (.text (by simpa using Ne.symm symbol.2.2.2))
  exact .plain rfl (Refuses.seq (call.alt (bool.alt (int.alt (string.alt (identifier.alt group))))))

end Refusals

section Commas

theorem joinWith_cons (separator x : List Char) (xs : List (List Char)) :
    joinWith separator (x :: xs) = x ++ xs.flatMap fun y => separator ++ y := by
  induction xs generalizing x with
  | nil => simp [joinWith]
  | cons y ys ih => simp [joinWith, ih]

variable {ι : Type} {p : Peg Rule} {f : ι → List Char} {t : ι → ParseTree Rule}

/-- What reads an item in front of a comma or a closing parenthesis. -/
def ReadsItem (p : Peg Rule) (w : List Char) (t : ParseTree Rule) : Prop :=
  Opens w ∧ ∀ c rest, c = ',' ∨ c = ')' → Reads grammar .spaced p w (c :: rest) [t]

theorem refuses_next_item (p : Peg Rule) (rest : List Char) :
    Refuses grammar .spaced (.seq (.text [',']) p) (Mode.spaced.trim (')' :: rest)) := by
  rw [Mode.trim_cons _ _ rfl (by decide)]
  exact Refuses.seq (.text (by simp))

theorem reads_more_items {xs : List ι} (hx : ∀ x ∈ xs, ReadsItem p (f x) (t x)) (hne : xs ≠ [])
    (rest : List Char) :
    Reads grammar .spaced (.star (.seq (.text [',']) p)) (xs.flatMap fun x => [',', ' '] ++ f x)
      (')' :: rest) (xs.map t) := by
  have item : ∀ x ∈ xs, ∀ c after, c = ',' ∨ c = ')' →
      Reads grammar .spaced (.seq (.text [',']) p) ([',', ' '] ++ f x) (c :: after) [t x] := by
    intro x hmem c after hc
    have skipped : Mode.spaced.trim ((' ' :: f x) ++ c :: after) = f x ++ c :: after := by
      rw [List.cons_append, Mode.trim_space, ((hx x hmem).1.append _).trim]
    exact (Reads.text [','] _).seq skipped ((hx x hmem).2 c after hc)
  -- what follows an item is the next comma or the end
  have follows : ∀ ys : List ι, ∃ c after, (c = ',' ∨ c = ')') ∧
      (ys.flatMap fun x => [',', ' '] ++ f x) ++ ')' :: rest = c :: after := by
    intro ys
    cases ys with
    | nil => exact ⟨')', rest, .inr rfl, rfl⟩
    | cons y ys => exact ⟨',', _, .inl rfl, rfl⟩
  induction xs with
  | nil => exact absurd rfl hne
  | cons x xs ih =>
    obtain ⟨c, after, hc, htail⟩ := follows xs
    have first := item x (by simp) c after hc
    rw [← htail] at first
    cases xs with
    | nil => simpa using first.starLast (refuses_next_item p rest)
    | cons y ys =>
      have more := ih (fun z hz => hx z (by simp [hz])) (by simp) (fun z hz => item z (by simp [hz]))
      obtain ⟨d, later, hd, hlater⟩ := follows ys
      have next := item y (by simp) d later hd
      rw [← hlater] at next
      exact first.starMore (Mode.trim_cons _ _ rfl (by decide)) next (by simp) more

theorem reads_items {xs : List ι} (hx : ∀ x ∈ xs, ReadsItem p (f x) (t x)) (hne : xs ≠ [])
    (rest : List Char) :
    Reads grammar .spaced (.seq p (.star (.seq (.text [',']) p))) (joinWith [',', ' '] (xs.map f))
      (')' :: rest) (xs.map t) := by
  cases xs with
  | nil => exact absurd rfl hne
  | cons x xs =>
    obtain ⟨hfirst, hmore⟩ := List.forall_mem_cons.1 hx
    rw [List.map_cons, joinWith_cons, List.flatMap_map]
    cases xs with
    | nil => simpa using (hfirst.2 ')' rest (.inr rfl)).seq_idle (refuses_next_item p rest).star
    | cons y ys =>
      have comma : ',' ≠ '/' := by decide
      have more := reads_more_items hmore (by simp) rest
      have solid : Mode.spaced.trim (((y :: ys).flatMap fun x => [',', ' '] ++ f x) ++ ')' :: rest) = _ :=
        Mode.trim_cons _ _ rfl comma
      exact Reads.seq (hfirst.2 ',' _ (.inl rfl)) solid more

end Commas

section Operands

variable {rest : List Char}

theorem isName_head {c : Char} {t : List Char} (h : isName (c :: t) = true) :
    c ≠ '-' ∧ c ≠ '"' ∧ isDigit c = false := not_symbol_of_isIdentStart (isName_cons.1 h).1

theorem leadWord_name {w : List Char} (h : isName w = true) (hr : leadWord rest = []) :
    leadWord (w ++ rest) = w := leadWord_append (isIdentChar_of_mem_name h) hr

theorem not_isName_bool (b : Bool) : isName (boolChars b) = false := by cases b <;> decide

theorem leadWord_bool (b : Bool) (hr : leadWord rest = []) : leadWord (boolChars b ++ rest) = boolChars b :=
  leadWord_append (List.all_eq_true.1 (by cases b <;> decide)) hr

theorem refuses_bool_of_name {cs : List Char} (h : isName (leadWord cs) = true) :
    Refuses grammar .spaced (.rule .boolLiteral) cs := by
  refine refuses_bool fun b hb => ?_
  rw [hb, not_isName_bool] at h
  cases h

theorem reads_name_operand {w : List Char} (hw : isName w = true) (hr : EndsOperand rest) :
    Reads grammar .spaced Rule.operand w rest [.leaf .identifier {} w] := by
  obtain ⟨stop, c, t, next, paren, -⟩ := hr.next
  have read := reads_identifier (m := .spaced) (by simp) hw stop
  have lead := leadWord_name hw stop
  have call : Refuses grammar .spaced (.rule .call) (w ++ rest) := by
    refine .plain rfl (Refuses.seq_right read (Refuses.seq (.text ?_)))
    rw [next]
    simpa using Ne.symm paren
  have bool : Refuses grammar .spaced (.rule .boolLiteral) (w ++ rest) :=
    refuses_bool_of_name (by rw [lead]; exact hw)
  cases w with
  | nil => cases hw
  | cons x w =>
    obtain ⟨sign, quote, digit⟩ := isName_head hw
    exact .right call (.right bool (.right (refuses_int sign digit) (.right (refuses_string quote)
      (.left read))))

theorem leadWord_int (i : Int) (hr : leadWord rest = []) :
    ∀ c ∈ (leadWord (Decimal.ofInt i ++ rest)).head?, isDigit c = true := by
  cases i with
  | ofNat n =>
    obtain ⟨c, cs, hn, hc, hcs⟩ := digits_isDigit n
    have lead : leadWord (c :: cs ++ rest) = c :: cs := leadWord_append
      (List.forall_mem_cons.2 ⟨isIdentChar_of_isDigit hc, fun x hx => isIdentChar_of_isDigit (hcs x hx)⟩) hr
    rw [Decimal.ofInt, hn, lead]
    simpa using hc
  | negSucc n =>
    have none : leadWord (Decimal.ofInt (.negSucc n) ++ rest) = [] := leadWord_cons _ rfl
    simp [none]

theorem not_isName_of_digit {w : List Char} (h : ∀ c ∈ w.head?, isDigit c = true) : isName w = false := by
  cases hw : isName w with
  | false => rfl
  | true =>
    cases w with
    | nil => cases hw
    | cons c t =>
      have digit := h c rfl
      rw [(isName_head hw).2.2] at digit
      cases digit

theorem reads_int_operand (i : Int) (hr : leadWord rest = []) :
    Reads grammar .spaced Rule.operand (Decimal.ofInt i) rest
      [.leaf .intLiteral {} (Decimal.ofInt i)] := by
  have digit := leadWord_int i hr
  have bool : Refuses grammar .spaced (.rule .boolLiteral) (Decimal.ofInt i ++ rest) := by
    refine refuses_bool fun b hb => ?_
    rw [hb] at digit
    cases b <;> cases digit _ rfl
  exact .right (refuses_call (not_isName_of_digit digit)) (.right bool (.left (reads_int (by simp) i hr)))

theorem reads_string_operand (value : String) :
    Reads grammar .spaced Rule.operand (literalChars value) rest
      [.branch .stringLiteral {} [.leaf .stringContent {} (Escape.encode value.toList)]] := by
  have read := reads_string (m := .spaced) (by simp) value rest
  obtain ⟨call, bool, -⟩ := refuses_words_of_symbol (c := '"')
    (t := Escape.encode value.toList ++ ['"'] ++ rest) rfl
  exact .right call (.right bool (.right (refuses_int (by decide) rfl) (.left read)))

theorem reads_bool_operand (b : Bool) (hr : leadWord rest = []) :
    Reads grammar .spaced Rule.operand (boolChars b) rest [.leaf .boolLiteral {} (boolChars b)] := by
  have lead := leadWord_bool b hr
  have call : Refuses grammar .spaced (.rule .call) (boolChars b ++ rest) :=
    refuses_call (by rw [lead]; exact not_isName_bool b)
  exact .right call (.left (reads_bool (by simp) b hr))

theorem reads_call_operand {name : List Char} (hn : isName name = true) {args : List Expr}
    (ha : ∀ e ∈ args, ReadsItem (.rule .expression) e.chars e.whole) :
    Reads grammar .spaced Rule.operand (name ++ '(' :: (joinWith [',', ' '] (args.map Expr.chars) ++ [')'])) rest
      [.branch .call {} (.leaf .identifier {} name :: args.map Expr.whole)] := by
  refine .left (.plain rfl (by simp) ?_)
  have arguments : Reads grammar .spaced
      (.seq (.opt (.seq (.rule .expression) (.star (.seq (.text [',']) (.rule .expression))))) (.text [')']))
      (joinWith [',', ' '] (args.map Expr.chars) ++ [')']) rest (args.map Expr.whole) := by
    cases args with
    | nil =>
      have none := refuses_expression_of_close (t := rest) (.inl rfl)
      exact .idle_seq none.seq.opt (endsExpr_close rest).trim (.text [')'] rest)
    | cons e es =>
      have items := reads_items ha (by simp) rest
      exact items.opt.seq_text (endsExpr_close rest).trim
  have opens : Opens (joinWith [',', ' '] (args.map Expr.chars) ++ [')']) := by
    cases args with
    | nil => exact ⟨')', [], rfl, rfl, by decide⟩
    | cons e es =>
      rw [List.map_cons, joinWith_cons]
      exact ((ha e (by simp)).1.append _).append _
  have inside := Reads.text_seq (u := ['(']) ((opens.append rest).trim _) arguments
  have paren : '(' ≠ '/' := by decide
  exact (reads_identifier (by simp) hn rfl).seq (Mode.trim_cons _ _ rfl paren) inside

theorem reads_group {w : List Char} {t : ParseTree Rule} (ho : Opens w)
    (hw : ∀ rest, EndsExpr rest → Reads grammar .spaced (.rule .expression) w rest [t]) :
    Reads grammar .spaced Rule.operand ('(' :: (w ++ [')'])) rest [t] := by
  obtain ⟨call, bool, identifier⟩ := refuses_words_of_symbol (c := '(') (t := w ++ [')'] ++ rest) rfl
  refine .right call (.right bool (.right (refuses_int (by decide) rfl)
    (.right (refuses_string (by decide)) (.right identifier ?_))))
  have inner := (hw _ (endsExpr_close rest)).seq_text (w := [')']) (endsExpr_close rest).trim
  exact .text_seq (u := ['(']) (((ho.append _).append _).trim _) inner

end Operands

section Whole

/-- How an expression is read in each of its places. -/
structure Expr.Readable (e : Expr) : Prop where
  opens : Opens e.chars
  operand : ∀ rest, EndsOperand rest →
    Reads grammar .spaced Rule.operand (parenthesized e.isBinary e.chars) rest [e.tree]
  whole : ∀ rest, EndsExpr rest → Reads grammar .spaced (.rule .expression) e.chars rest [e.whole]

theorem refuses_link {rest : List Char} (h : EndsExpr rest) :
    Refuses grammar .spaced (.seq Rule.infixOp Rule.operand) (Mode.spaced.trim rest) := by
  rw [h.trim]
  obtain ⟨c, t, rfl, hc⟩ := h
  exact (refuses_operator hc t).seq

theorem Expr.Readable.of_operand {e : Expr} (ho : Opens e.chars) (hb : e.isBinary = false)
    (h : ∀ rest, EndsOperand rest → Reads grammar .spaced Rule.operand e.chars rest [e.tree]) :
    e.Readable := by
  refine ⟨ho, ?_, ?_⟩
  · simpa [parenthesized, hb] using h
  · intro rest hr
    have whole : e.whole = .branch .expression {} [e.tree] := by simp [Expr.whole, expressionTree, hb]
    rw [whole]
    exact .plain rfl (by simp) ((h rest (.inl hr)).seq_idle (refuses_link hr).star)

theorem opens_parenthesized {wanted : Bool} {cs : List Char} (h : Opens cs) :
    Opens (parenthesized wanted cs) := by
  cases wanted with
  | false => exact h
  | true => exact ⟨'(', _, rfl, rfl, by decide⟩

theorem Expr.Readable.binary {op : Operator} {l r : Expr} (hl : l.Readable) (hr : r.Readable) (span : Span) :
    (Expr.binary op l r span).Readable := by
  have opens : Opens (Expr.binary op l r span).chars := (opens_parenthesized hl.opens).append _
  have whole : ∀ rest, EndsExpr rest → Reads grammar .spaced (.rule .expression)
      (Expr.binary op l r span).chars rest [(Expr.binary op l r span).tree] := by
    intro rest hrest
    have left := hl.operand (' ' :: (op.chars ++ ' ' :: parenthesized r.isBinary r.chars) ++ rest)
      (.inr ⟨op, parenthesized r.isBinary r.chars ++ rest, by simp⟩)
    have right := hr.operand rest (.inl hrest)
    have gap : Mode.spaced.trim (' ' :: parenthesized r.isBinary r.chars ++ rest)
        = parenthesized r.isBinary r.chars ++ rest := by
      rw [List.cons_append, Mode.trim_space, ((opens_parenthesized hr.opens).append _).trim]
    have link := ((reads_operator op _).seq gap right).starLast (refuses_link hrest)
    have before : Mode.spaced.trim (' ' :: (op.chars ++ ' ' :: parenthesized r.isBinary r.chars) ++ rest)
        = (op.chars ++ ' ' :: parenthesized r.isBinary r.chars) ++ rest := by
      rw [List.cons_append, Mode.trim_space, List.append_assoc, List.cons_append, trim_operator]
    exact .plain rfl (by simp) (left.seq before link)
  refine ⟨opens, fun rest _ => ?_, whole⟩
  exact reads_group opens whole

theorem opens_int (i : Int) : Opens (Decimal.ofInt i) := by
  cases i with
  | ofNat n =>
    obtain ⟨c, cs, hn, hc, -⟩ := digits_isDigit n
    rw [Decimal.ofInt, hn]
    exact opens_of_isIdentChar (isIdentChar_of_isDigit hc) cs
  | negSucc n => exact ⟨'-', _, rfl, rfl, by decide⟩

theorem Expr.charsAll_eq_map (es : List Expr) : Expr.charsAll es = es.map Expr.chars := by
  induction es with
  | nil => rfl
  | cons e es ih => simp [Expr.charsAll, ih]

theorem Expr.trees_eq_map (es : List Expr) : Expr.trees es = es.map Expr.whole := by
  induction es with
  | nil => rfl
  | cons e es ih => simp [Expr.trees, Expr.whole, ih]

mutual

theorem Expr.readable : (e : Expr) → e.WellFormed → e.Readable
  | .ident _ _, h => .of_operand (opens_name h) rfl fun _ hr => reads_name_operand h hr
  | .int value _, _ => by
    exact .of_operand (opens_int _) rfl fun _ hr => reads_int_operand _ hr.next.1
  | .string _ _, _ => .of_operand ⟨'"', _, rfl, rfl, by decide⟩ rfl fun _ _ => reads_string_operand _
  | .bool b _, _ => by
    refine .of_operand ?_ rfl fun _ hr => reads_bool_operand b hr.next.1
    cases b <;> exact ⟨_, _, rfl, rfl, by decide⟩
  | .binary _ l r span, h => (l.readable h.1).binary (r.readable h.2) span
  | .call callee args _, h => by
    have arguments := Expr.readable_all args h.2
    have items : ∀ e ∈ args, ReadsItem (.rule .expression) e.chars e.whole := by
      intro e he
      refine ⟨(arguments e he).opens, fun c rest hc => (arguments e he).whole _ ⟨c, rest, rfl, ?_⟩⟩
      exact .inr hc.symm
    refine .of_operand ((opens_name h.1).append _) rfl fun rest _ => ?_
    rw [Expr.chars, Expr.tree, Expr.charsAll_eq_map, Expr.trees_eq_map]
    exact reads_call_operand h.1 items

theorem Expr.readable_all : (es : List Expr) → Expr.AllWellFormed es → ∀ e ∈ es, e.Readable
  | [], _ => by simp
  | e :: es, h => List.forall_mem_cons.2 ⟨e.readable h.1, Expr.readable_all es h.2⟩

end

end Whole

end ImpWasm
