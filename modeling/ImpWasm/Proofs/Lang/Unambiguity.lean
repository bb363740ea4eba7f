import Mathlib
import ImpWasm.Proofs.Lang.Readings
set_option autoImplicit false

namespace ImpWasm

open Peg (Mode)
open Cursor (isBlank)

section Heads

def isTokenStart (x : Char) : Bool := isIdentStart x || isDigit x || x == '-' || x == '"'

theorem accepts_of_tokenExpr? {span : Span} {w : List Char} {e : Expr} (h : tokenExpr? span w = some e) :
    ∃ r ∈ [Rule.intLiteral, .stringLiteral, .identifier, .boolLiteral], r.accepts w = true := by
  simp only [tokenExpr?] at h
  split at h
  · exact ⟨.intLiteral, by simp, ‹_›⟩
  split at h
  · exact ⟨.stringLiteral, by simp, ‹_›⟩
  split at h
  · exact ⟨.identifier, by simp, ‹_›⟩
  split at h
  · exact ⟨.boolLiteral, by simp, accepts_bool.2 ⟨true, ‹_›⟩⟩
  split at h
  · exact ⟨.boolLiteral, by simp, accepts_bool.2 ⟨false, ‹_›⟩⟩
  · cases h

theorem head_of_tokenExpr? {span : Span} {w : List Char} {e : Expr} (h : tokenExpr? span w = some e) :
    ∃ x k, w = x :: k ∧ isTokenStart x = true := by
  obtain ⟨r, hr, accepted⟩ := accepts_of_tokenExpr? h
  simp only [List.mem_cons, List.not_mem_nil, or_false] at hr
  rcases hr with rfl | rfl | rfl | rfl
  · cases w with
    | nil => cases accepted
    | cons x k =>
      refine ⟨x, k, rfl, ?_⟩
      simp only [Rule.accepts, List.head?_cons, Option.any_some, Bool.or_eq_true, Bool.and_eq_true, beq_iff_eq,
        Option.some.injEq] at accepted
      obtain digit | ⟨rfl, -⟩ := accepted
      · simp [isTokenStart, digit]
      · rfl
  · cases w with
    | nil => cases accepted
    | cons x k =>
      obtain rfl : x = '"' := by simpa [Rule.accepts] using accepted
      exact ⟨_, k, rfl, rfl⟩
  · obtain ⟨x, k, rfl, start⟩ := wordRule_identifier.start w accepted
    exact ⟨x, k, rfl, by simp [isTokenStart, start]⟩
  · obtain ⟨x, k, rfl, start⟩ := wordRule_bool.start w accepted
    exact ⟨x, k, rfl, by simp [isTokenStart, start]⟩

theorem Operand.head {c d : Cursor} {e : Expr} (h : Operand c e d) :
    ∃ x cs, c.rest = x :: cs ∧ (x = '(' ∨ isTokenStart x = true) := by
  cases h with
  | token text _ value =>
    obtain ⟨x, k, rfl, start⟩ := head_of_tokenExpr? value
    exact ⟨x, _, text.text, .inr start⟩
  | call name text =>
    obtain ⟨x, k, rfl, start⟩ := head_of_tokenExpr? (tokenExpr?_name {} name)
    exact ⟨x, _, text.text, .inr start⟩
  | group opens _ _ => exact ⟨'(', _, opens.text, .inl rfl⟩

end Heads

section Unique

/-- Of two tokens at the start of a text, a rule that takes the one takes the other, with the same tree. -/
theorem Token.tokenTree_eq {r : Rule} {t t' k k' : List Char} {b b' : Bool} (h : Token t false k b)
    (h' : Token t' false k' b') (same : k ++ t = k' ++ t') (ha : r.accepts k = true) (hk : r.kind ≠ .plain)
    (hr : r ≠ .stringContent) (hw : Agrees r.wants false) :
    r.accepts k' = true ∧ r.tokenTree k = r.tokenTree k' := by
  obtain ⟨-, read, -⟩ | ⟨rejected, -⟩ := h.fares hk hr
  · obtain ⟨us, e, matched, bare, -⟩ := read 0
    rw [same] at matched
    obtain ⟨accepted, read', -⟩ | ⟨-, refused⟩ := h'.fares hk hr
    · obtain ⟨us', e', matched', bare', -⟩ := read' 0
      cases matched.unique matched'
      exact ⟨accepted, by simpa using bare.symm.trans bare'⟩
    · cases matched.unique (refused hw 0)
  · rw [ha] at rejected
    cases rejected

theorem Token.quoted {t k : List Char} {b b' : Bool} (h : Token t b k b')
    (ha : Rule.accepts .stringLiteral k = true) : ∃ l, k = '"' :: (l ++ ['"']) := by
  cases h with
  | string _ => exact ⟨_, rfl⟩
  | word hc _ _ => exact absurd (by simpa [Rule.accepts] using ha) (not_symbol_of_isIdentStart hc).2.1
  | number hc _ _ =>
    obtain rfl : _ = '"' := by simpa [Rule.accepts] using ha
    cases hc
  | negative _ _ _ => cases ha
  | mark hc _ _ => exact absurd (by simpa [Rule.accepts] using ha) (isMark_iff.1 hc).2.2

/-- Tokens for operands are cut in one way only. -/
theorem Token.operand_unique {t t' k k' : List Char} {span : Span} {e : Expr}
    (h : Token t false k true) (h' : Token t' false k' true) (he : tokenExpr? span k = some e)
    (same : k ++ t = k' ++ t') : k = k' := by
  obtain ⟨r, hr, ha⟩ := accepts_of_tokenExpr? he
  simp only [List.mem_cons, List.not_mem_nil, or_false] at hr
  rcases hr with rfl | rfl | rfl | rfl
  · have trees := h.tokenTree_eq h' same ha (by decide) (by decide) (agrees_some.2 rfl)
    simpa [Rule.tokenTree] using trees.2
  · obtain ⟨accepted, trees⟩ := h.tokenTree_eq h' same ha (by decide) (by decide) (agrees_none _)
    obtain ⟨l, rfl⟩ := h.quoted ha
    obtain ⟨l', rfl⟩ := h'.quoted accepted
    simpa [Rule.tokenTree] using trees
  · have trees := h.tokenTree_eq h' same ha (by decide) (by decide) (agrees_none _)
    simpa [Rule.tokenTree] using trees.2
  · have trees := h.tokenTree_eq h' same ha (by decide) (by decide) (agrees_none _)
    simpa [Rule.tokenTree] using trees.2

theorem Operator.head (op : Operator) : ∃ x k, op.chars = x :: k ∧ x ≠ '(' ∧ x ≠ ')' ∧ x ≠ ',' := by
  cases op <;> exact ⟨_, _, rfl, by decide⟩

theorem Operator.mem_tried (op : Operator) : op ∈ Operator.tried := by
  cases op <;> decide

theorem Operator.eq_or_equals {op op' : Operator} (h : op.chars <+: op'.chars) :
    op = op' ∨ op'.chars = op.chars ++ ['='] := by
  have each : ∀ op ∈ Operator.tried, ∀ op' ∈ Operator.tried, op.chars <+: op'.chars →
      op = op' ∨ op'.chars = op.chars ++ ['='] := by decide
  exact each op op.mem_tried op' op'.mem_tried h

/-- The longest operator is read where no equals sign comes next. -/
theorem Operator.unique {op op' : Operator} {k k' : List Char} (same : op.chars ++ k = op'.chars ++ k')
    (hk : k.head? ≠ some '=') (hk' : k'.head? ≠ some '=') : op = op' := by
  obtain ⟨between, longer, rest⟩ | ⟨between, longer, rest⟩ := List.append_eq_append_iff.1 same
  · obtain same | equals := Operator.eq_or_equals ⟨between, longer.symm⟩
    · exact same
    · rw [longer] at equals
      obtain rfl := List.append_cancel_left equals
      exact absurd (by rw [rest]; rfl) hk
  · obtain same | equals := Operator.eq_or_equals ⟨between, longer.symm⟩
    · exact same.symm
    · rw [longer] at equals
      obtain rfl := List.append_cancel_left equals
      exact absurd (by rw [rest]; rfl) hk'

def Cursor.next (c : Cursor) : Option Char := c.skip.rest.head?

@[simp] theorem Cursor.next_skip (c : Cursor) : c.skip.next = c.next := by
  rw [next, skip_skip, next]

theorem Cursor.Past.next {c d : Cursor} {x : Char} {k : List Char} (h : c.skip.Past (x :: k) d) :
    c.next = some x := by
  rw [Cursor.next, h.text, List.cons_append, List.head?_cons]

theorem Cursor.next_of_solid {c : Cursor} {x : Char} {cs : List Char} (h : c.rest = x :: cs)
    (blank : isBlank x = false) (slash : x ≠ '/') : c.next = some x := by
  have trimmed : c.skip.rest = Mode.spaced.trim c.rest := Mode.spaced.rest_skip c
  have same : c.skip.rest = x :: cs := by rw [trimmed, h, Mode.spaced.trim_cons cs blank slash]
  rw [Cursor.next, same, List.head?_cons]

theorem not_isBlank_of_isTokenStart {x : Char} (h : isTokenStart x = true) : Cursor.isBlank x = false := by
  simp only [isTokenStart, Bool.or_eq_true, beq_iff_eq] at h
  obtain ((start | digit) | rfl) | rfl := h
  · exact not_isBlank_of_isIdentChar (isIdentChar_of_isIdentStart start)
  · exact not_isBlank_of_isIdentChar (isIdentChar_of_isDigit digit)
  · rfl
  · rfl

theorem ne_of_isTokenStart {x y : Char} (h : isTokenStart x = true) (hy : isTokenStart y = false) : x ≠ y := by
  rintro rfl
  rw [h] at hy
  cases hy

/-- What may come next where an expression ends. -/
def Cursor.Closed (c : Cursor) : Prop := ∀ x ∈ c.next, x = ')' ∨ x = ','

theorem Cursor.Closed.of_next {c : Cursor} (h : c.next = some ')') : c.Closed :=
  fun _ hx => .inl (Option.some.inj (hx.symm.trans h))

theorem Operand.next {c d : Cursor} {e : Expr} (h : Operand c e d) :
    ∃ x, c.next = some x ∧ x ≠ '=' ∧ x ≠ ')' ∧ x ≠ ',' := by
  obtain ⟨x, cs, text, rfl | start⟩ := h.head
  · exact ⟨'(', Cursor.next_of_solid text rfl (by decide), by decide⟩
  · have other {y : Char} (hy : isTokenStart y = false) : x ≠ y := ne_of_isTokenStart start hy
    exact ⟨x, Cursor.next_of_solid text (not_isBlank_of_isTokenStart start) (other rfl), other rfl, other rfl, other rfl⟩

theorem Expression.next {c d : Cursor} {e : Expr} (h : Expression c e d) :
    ∃ x, c.next = some x ∧ x ≠ '=' ∧ x ≠ ')' ∧ x ≠ ',' := by
  cases h with
  | chain _ first _ => exact first.next

theorem Cursor.Closed.not_sign {c o : Cursor} {op : Operator} (h : c.Closed) (sign : c.skip.Past op.chars o) :
    False := by
  obtain ⟨x, k, chars, -, close, comma⟩ := op.head
  obtain rfl | rfl := h x (Cursor.Past.next (chars ▸ sign))
  · exact close rfl
  · exact comma rfl

theorem Links.not_open {c d : Cursor} {links : List (Operator × Expr)} (h : Links c links d) (hd : d.Closed) :
    c.next ≠ some '(' := by
  intro opens
  cases h with
  | done => simpa using hd '(' opens
  | @next _ _ _ _ op _ _ sign _ _ =>
    obtain ⟨x, k, chars, other, -⟩ := op.head
    exact other (Option.some.inj ((Cursor.Past.next (chars ▸ sign)).symm.trans opens))

theorem MoreArguments.closed {c d : Cursor} {es : List Expr} (h : MoreArguments c es d)
    (hd : d.next = some ')') : c.Closed := by
  intro x hx
  cases h with
  | done => exact Cursor.Closed.of_next hd x hx
  | next comma _ _ => exact .inr (Option.some.inj (hx.symm.trans comma.next))

theorem Operand.not_equals {c d : Cursor} {e : Expr} (h : Operand c.skip e d) : c.rest.head? ≠ some '=' := by
  intro equals
  obtain ⟨cs, text⟩ := List.head?_eq_some_iff.1 equals
  obtain ⟨x, hx, other, -⟩ := h.next
  rw [Cursor.next_skip, Cursor.next_of_solid text rfl (by decide)] at hx
  exact other (Option.some.inj hx).symm

theorem Cursor.Past.not_open {c d o : Cursor} {w : List Char} {span : Span} {e : Expr} (h : c.Past w d)
    (he : tokenExpr? span w = some e) (opens : c.Past ['('] o) : False := by
  obtain ⟨x, k, rfl, start⟩ := head_of_tokenExpr? he
  have same : x :: k ++ d.rest = ['('] ++ o.rest := h.text.symm.trans opens.text
  exact ne_of_isTokenStart start rfl (List.cons.inj same).1

-- Each reading is compared with another one by recursion on the first. What comes next makes both end at the same
-- place: no parenthesis opens after an operand, and an expression ends where no operator comes next.

mutual

theorem Operand.unique {c d d' : Cursor} {e e' : Expr} : Operand c e d → Operand c e' d' →
    d.next ≠ some '(' → d'.next ≠ some '(' → e = e' ∧ d = d'
  | .token text token value, h', hd, hd' => by
    cases h' with
    | token text' token' value' =>
      obtain rfl := token.operand_unique token' value (text.text.symm.trans text'.text)
      obtain rfl := text.unique text'
      exact ⟨Option.some.inj (value.symm.trans value'), rfl⟩
    | call name text' token' opens inner closes =>
      obtain rfl := token.operand_unique token' value (text.text.symm.trans text'.text)
      obtain rfl := text.unique text'
      exact absurd opens.next hd
    | group opens _ _ => exact (text.not_open value opens).elim
  | .call name text token opens inner closes, h', hd, hd' => by
    cases h' with
    | token text' token' value' =>
      obtain rfl := token'.operand_unique token value' (text'.text.symm.trans text.text)
      obtain rfl := text'.unique text
      exact absurd opens.next hd'
    | call name' text' token' opens' inner' closes' =>
      obtain rfl := token.operand_unique token' (tokenExpr?_name {} name) (text.text.symm.trans text'.text)
      obtain rfl := text.unique text'
      obtain rfl := opens.unique opens'
      obtain ⟨rfl, rfl⟩ := inner.unique inner' closes.next closes'.next
      obtain rfl := closes.unique closes'
      exact ⟨rfl, rfl⟩
    | group opens' _ _ => exact (text.not_open (tokenExpr?_name {} name) opens').elim
  | .group opens inner closes, h', hd, hd' => by
    cases h' with
    | token text' _ value' => exact (text'.not_open value' opens).elim
    | call name' text' _ _ _ _ => exact (text'.not_open (tokenExpr?_name {} name') opens).elim
    | group opens' inner' closes' =>
      obtain rfl := opens.unique opens'
      obtain ⟨rfl, rfl⟩ := inner.unique inner' (.of_next closes.next) (.of_next closes'.next)
      exact ⟨rfl, closes.unique closes'⟩
termination_by structural h => h

theorem Arguments.unique {c d d' : Cursor} {es es' : List Expr} : Arguments c es d → Arguments c es' d' →
    d.next = some ')' → d'.next = some ')' → es = es' ∧ d = d'
  | .none, h', hd, hd' => by
    cases h' with
    | none => exact ⟨rfl, rfl⟩
    | some first more =>
      obtain ⟨x, hx, -, close, -⟩ := first.next
      exact absurd (Option.some.inj (hx.symm.trans hd)) close
  | .some first more, h', hd, hd' => by
    cases h' with
    | none =>
      obtain ⟨x, hx, -, close, -⟩ := first.next
      exact absurd (Option.some.inj (hx.symm.trans hd')) close
    | some first' more' =>
      obtain ⟨rfl, rfl⟩ := first.unique first' (more.closed hd) (more'.closed hd')
      obtain ⟨rfl, rfl⟩ := more.unique more' hd hd'
      exact ⟨rfl, rfl⟩
termination_by structural h => h

theorem MoreArguments.unique {c d d' : Cursor} {es es' : List Expr} : MoreArguments c es d →
    MoreArguments c es' d' → d.next = some ')' → d'.next = some ')' → es = es' ∧ d = d'
  | .done, h', hd, hd' => by
    cases h' with
    | done => exact ⟨rfl, rfl⟩
    | next comma first more =>
      rw [comma.next] at hd
      cases hd
  | .next comma first more, h', hd, hd' => by
    cases h' with
    | done =>
      rw [comma.next] at hd'
      cases hd'
    | next comma' first' more' =>
      obtain rfl := comma.unique comma'
      obtain ⟨rfl, rfl⟩ := first.unique first' (more.closed hd) (more'.closed hd')
      obtain ⟨rfl, rfl⟩ := more.unique more' hd hd'
      exact ⟨rfl, rfl⟩
termination_by structural h => h

theorem Expression.unique {c d d' : Cursor} {e e' : Expr} : Expression c e d → Expression c e' d' →
    d.Closed → d'.Closed → e = e' ∧ d = d'
  | .chain climbs first links, h', hd, hd' => by
    cases h' with
    | chain climbs' first' links' =>
      obtain ⟨hfirst, rfl⟩ := first.unique first' (links.not_open hd) (links'.not_open hd')
      obtain ⟨hlinks, rfl⟩ := links.unique links' hd hd'
      obtain rfl := climbs.unique climbs' hfirst hlinks
      exact ⟨rfl, rfl⟩
termination_by structural h => h

theorem Links.unique {c d d' : Cursor} {links links' : List (Operator × Expr)} : Links c links d →
    Links c links' d' → d.Closed → d'.Closed → links = links' ∧ d = d'
  | .done, h', hd, hd' => by
    cases h' with
    | done => exact ⟨rfl, rfl⟩
    | next sign _ _ => exact (hd.not_sign sign).elim
  | .next sign operand more, h', hd, hd' => by
    cases h' with
    | done => exact (hd'.not_sign sign).elim
    | next sign' operand' more' =>
      obtain rfl := Operator.unique (sign.text.symm.trans sign'.text) operand.not_equals operand'.not_equals
      obtain rfl := sign.unique sign'
      obtain ⟨rfl, rfl⟩ := operand.unique operand' (more.not_open hd) (more'.not_open hd')
      obtain ⟨rfl, rfl⟩ := more.unique more' hd hd'
      exact ⟨rfl, rfl⟩
termination_by structural h => h

end

end Unique

/-- The text is an expression with blanks and comments around it. -/
def Expr.StandsIn (source : String) (e : Expr) : Prop :=
  ∃ d, Expression (⟨0, source.toList⟩ : Cursor).skip e d ∧ d.skip.rest = []

theorem Expr.StandsIn.unique {source : String} {e e' : Expr} (h : e.StandsIn source) (h' : e'.StandsIn source) :
    e = e' := by
  obtain ⟨d, hd, last⟩ := h
  obtain ⟨d', hd', last'⟩ := h'
  exact (hd.unique hd' (by simp [Cursor.Closed, Cursor.next, last]) (by simp [Cursor.Closed, Cursor.next, last'])).1

theorem Expr.standsIn_of_parse {source : String} {e : Expr} (h : Expr.parse source = .ok e) :
    e.StandsIn source := by
  simp only [Expr.parse, bind_eq_ok] at h
  obtain ⟨t, ht, he⟩ := h
  obtain ⟨d, matched⟩ := matches_of_parseTree ht
  obtain ⟨us, same, body⟩ := matches_plain rfl matched
  cases same
  obtain ⟨vs, ws, o, rfl, start, body⟩ := matches_seq body
  cases start
  obtain ⟨xs, ys, p, rfl, inner, last⟩ := matches_seq body
  obtain ⟨u, rfl, -⟩ := matches_rule_tree inner
  obtain ⟨q, hq, skip⟩ := (exprOf_stands_all.1 u e he).expression inner
  refine ⟨q, hq, skip ▸ ?_⟩
  cases last with
  | rule last =>
    cases last with
    | atEnd finished => exact finished

/-- An expression that is read from a text is the one expression that stands there. -/
theorem Expr.parse_stands {source : String} {e : Expr} (h : Expr.parse source = .ok e) (e' : Expr) :
    e'.StandsIn source ↔ e' = e := by
  have stands := Expr.standsIn_of_parse h
  refine ⟨fun h' => h'.unique stands, ?_⟩
  rintro rfl
  exact stands

def Expr.tiered : Expr :=
  .binary .lt
    (.binary .sub
      (.binary .sub (.ident "a" ⟨0, 1⟩) (.ident "b" ⟨4, 5⟩) ⟨0, 5⟩)
      (.binary .mul (.binary .or (.ident "c" ⟨9, 10⟩) (.ident "d" ⟨14, 15⟩) ⟨9, 15⟩)
        (.call ⟨"f", ⟨19, 20⟩⟩ [.int 2 ⟨21, 22⟩, .ident "e" ⟨24, 25⟩] ⟨19, 26⟩) ⟨9, 26⟩)
      ⟨0, 26⟩)
    (.int 9 ⟨29, 30⟩) ⟨0, 30⟩

theorem Expr.tiered_stands :
    Expr.parse "a - b - (c || d) * f(2, e) < 9" = .ok Expr.tiered ∧
      ∀ e, e.StandsIn "a - b - (c || d) * f(2, e) < 9" ↔ e = Expr.tiered := by
  have parsed : Expr.parse "a - b - (c || d) * f(2, e) < 9" = .ok Expr.tiered := by cbv
  exact ⟨parsed, Expr.parse_stands parsed⟩

end ImpWasm
