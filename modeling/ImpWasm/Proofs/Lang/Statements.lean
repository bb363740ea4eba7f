import ImpWasm.Proofs.Lang.Expressions
import ImpWasm.Proofs.Lang.Layout
set_option autoImplicit false

/-!
Printed statements, read back by the grammar. The forms of a statement are tried in a fixed order, so
that reading one includes that those before it fail on its text: by its first word, or by what stands
after a name.
-/
namespace ImpWasm

open Peg (Mode ParseTree)
open Grammar (Reads Refuses Idles)

def controlWords : List (List Char) :=
  [['e', 'x', 't', 'e', 'r', 'n'], ['f', 'n'], ['w', 'h', 'i', 'l', 'e'], ['i', 'f'],
    ['r', 'e', 't', 'u', 'r', 'n'], ['e', 'l', 's', 'e']]

theorem not_control_of_isName {w : List Char} (h : isName w = true) : w ∉ controlWords := by
  have inside : ∀ k ∈ controlWords, k ∈ Rule.keywords := by decide
  exact fun hw => not_keyword_of_isName h (inside w hw)

theorem not_control_of_digit {w : List Char} (h : ∀ c ∈ w.head?, isDigit c = true) : w ∉ controlWords := by
  have letters : ∀ k ∈ controlWords, k.head?.all isDigit = false := by decide
  intro hw
  have letter := letters w hw
  rw [(Option.all_eq_true _ _).2 h] at letter
  cases letter

/-- A text that only a statement made of an expression can begin with. -/
structure NotDeclaration (cs : List Char) : Prop where
  lead : leadWord cs ∉ controlWords
  block : Refuses grammar .spaced (.rule .block) cs
  var : Refuses grammar .spaced (.rule .varDecl) cs
  assign : Refuses grammar .spaced (.rule .assign) cs

theorem refuses_block {cs : List Char} (h : cs.head? ≠ some '{') :
    Refuses grammar .spaced (.rule .block) cs := by
  refine .plain rfl (Refuses.seq (.text ?_))
  cases cs with
  | nil => simp
  | cons c t => simpa using Ne.symm (by simpa using h)

theorem refuses_block_of_name {w rest : List Char} (hw : isName w = true) :
    Refuses grammar .spaced (.rule .block) (w ++ rest) := by
  cases w with
  | nil => cases hw
  | cons c w =>
    refine refuses_block ?_
    simp only [List.cons_append, List.head?_cons, ne_eq, Option.some.injEq]
    rintro rfl
    cases isIdentChar_of_mem_name hw '{' (by simp)

theorem refuses_var_of_name {w rest : List Char} (hw : isName w = true) (hr : leadWord rest = [])
    {c : Char} {t : List Char} (next : Mode.spaced.trim rest = c :: t) (hc : c ≠ ':') :
    Refuses grammar .spaced (.rule .varDecl) (w ++ rest) := by
  refine .plain rfl (Refuses.seq_right (reads_identifier (by simp) hw hr) (Refuses.seq ?_))
  rw [next]
  exact .alt (Refuses.seq (.text (by simp [Ne.symm hc]))) (Refuses.seq (.text (by simp [Ne.symm hc])))

theorem refuses_assign_of_name {w rest : List Char} (hw : isName w = true) (hr : leadWord rest = [])
    {c : Char} {t : List Char} (next : Mode.spaced.trim rest = c :: t)
    (hc : c = '=' → ∃ u, t = '=' :: u) : Refuses grammar .spaced (.rule .assign) (w ++ rest) := by
  refine .plain rfl (Refuses.seq_right (reads_identifier (by simp) hw hr) ?_)
  rw [next]
  by_cases equal : c = '='
  · obtain ⟨u, rfl⟩ := hc equal
    subst equal
    have solid : Mode.spaced.trim ('=' :: u) = '=' :: u := Mode.trim_cons _ _ rfl (by decide)
    refine Refuses.seq_right (Reads.text ['='] ('=' :: u)) ?_
    rw [solid]
    exact Refuses.seq (.of_not (Reads.text ['='] u))
  · exact Refuses.seq (.text (by simp [Ne.symm equal]))

theorem notDeclaration_of_name {w rest : List Char} (hw : isName w = true) (hr : leadWord rest = [])
    {c : Char} {t : List Char} (next : Mode.spaced.trim rest = c :: t) (colon : c ≠ ':')
    (equal : c = '=' → ∃ u, t = '=' :: u) : NotDeclaration (w ++ rest) where
  lead := by
    rw [leadWord_name hw hr]
    exact not_control_of_isName hw
  block := refuses_block_of_name hw
  var := refuses_var_of_name hw hr next colon
  assign := refuses_assign_of_name hw hr next equal

theorem notDeclaration_of_not_name {cs : List Char} (brace : cs.head? ≠ some '{')
    (name : isName (leadWord cs) = false) (lead : leadWord cs ∉ controlWords) : NotDeclaration cs where
  lead := lead
  block := refuses_block brace
  var := .plain rfl (Refuses.seq (refuses_identifier name))
  assign := .plain rfl (Refuses.seq (refuses_identifier name))

theorem notDeclaration_of_symbol {c : Char} {t : List Char} (brace : c ≠ '{') (h : isIdentChar c = false) :
    NotDeclaration (c :: t) := by
  have none := leadWord_cons t h
  exact notDeclaration_of_not_name (by simpa using brace) (by rw [none]; rfl) (by rw [none]; decide)

theorem notDeclaration_int (i : Int) {rest : List Char} (hr : leadWord rest = []) :
    NotDeclaration (Decimal.ofInt i ++ rest) := by
  have digit := leadWord_int i hr
  refine notDeclaration_of_not_name ?_ (not_isName_of_digit digit) (not_control_of_digit digit)
  cases i with
  | ofNat n =>
    obtain ⟨c, cs, hn, hc, -⟩ := digits_isDigit n
    simp only [Decimal.ofInt, hn, List.cons_append, List.head?_cons, ne_eq, Option.some.injEq]
    rintro rfl
    cases hc
  | negSucc n => simp [Decimal.ofInt]

theorem notDeclaration_bool (b : Bool) {rest : List Char} (hr : leadWord rest = []) :
    NotDeclaration (boolChars b ++ rest) := by
  have lead := leadWord_bool b hr
  refine notDeclaration_of_not_name ?_ (by rw [lead]; exact not_isName_bool b) ?_
  · cases b <;> simp [boolChars]
  · rw [lead]
    cases b <;> decide

theorem Expr.notDeclaration : (e : Expr) → e.WellFormed → ∀ rest, EndsOperand rest →
    NotDeclaration (e.chars ++ rest)
  | .ident _ _, h, rest, hr => by
    obtain ⟨stop, c, t, next, -, colon, equal⟩ := hr.next
    exact notDeclaration_of_name h stop next colon equal
  | .int value _, _, rest, hr => notDeclaration_int value.toInt hr.next.1
  | .string _ _, _, rest, _ => notDeclaration_of_symbol (by decide) rfl
  | .bool b _, _, rest, hr => notDeclaration_bool b hr.next.1
  | .call callee args _, h, rest, _ => by
    rw [Expr.chars, List.append_assoc]
    exact notDeclaration_of_name h.1 rfl (Mode.trim_cons _ _ rfl (by decide)) (by decide) (by simp)
  | .binary op l r _, h, rest, hr => by
    -- the first operand decides, or its parenthesis
    rw [Expr.chars, List.append_assoc]
    cases hl : l.isBinary with
    | true => exact notDeclaration_of_symbol (by decide) rfl
    | false => exact l.notDeclaration h.1 _ (.inr ⟨op, parenthesized r.isBinary r.chars ++ rest, by simp⟩)

section Forms

variable {rest : List Char}

/-- A form that begins with a word is refused where another word stands. -/
theorem refuses_led {r kw : Rule} {q : Peg Rule} {k cs : List Char} (hk : r.kind = .plain)
    (hb : r.body = .seq (.rule kw) q) (hs : kw.spelling = some k) (h : leadWord cs ≠ k) :
    Refuses grammar .spaced (.rule r) cs := by
  have first : Refuses grammar .spaced (.rule kw) cs := refuses_spelled hs h
  have body : Refuses grammar .spaced r.body cs := by
    rw [hb]
    exact first.seq
  exact .plain hk body

theorem refuses_all_led {cs : List Char} (h : leadWord cs ∉ controlWords) :
    Refuses grammar .spaced (.rule .externDecl) cs ∧ Refuses grammar .spaced (.rule .functionDecl) cs ∧
      Refuses grammar .spaced (.rule .whileStmt) cs ∧ Refuses grammar .spaced (.rule .ifStmt) cs ∧
      Refuses grammar .spaced (.rule .returnStmt) cs := by
  simp only [controlWords, List.mem_cons, not_or] at h
  obtain ⟨imported, function, while_, if_, return_, -⟩ := h
  exact ⟨refuses_led rfl rfl rfl imported, refuses_led rfl rfl rfl function, refuses_led rfl rfl rfl while_,
    refuses_led rfl rfl rfl if_, refuses_led rfl rfl rfl return_⟩

theorem reads_unled {w : List Char} {ts : List (ParseTree Rule)}
    (h : leadWord (w ++ rest) ∉ controlWords)
    (hr : Reads grammar .spaced
      (Peg.alts [.rule .block, .rule .varDecl, .rule .assign, .rule .exprStmt]) w rest ts) :
    Reads grammar .spaced Rule.statement w rest ts := by
  obtain ⟨imported, function, while_, if_, return_⟩ := refuses_all_led h
  exact .right imported (.right function (.right while_ (.right if_ (.right return_ hr))))

theorem trim_space_opens {w : List Char} (h : Opens w) (rest : List Char) :
    Mode.spaced.trim (' ' :: w ++ rest) = w ++ rest := by
  rw [List.cons_append, Mode.trim_space, (h.append rest).trim]

theorem trim_symbol {c : Char} (hb : Cursor.isBlank c = false) (hs : c ≠ '/') (w rest : List Char) :
    Mode.spaced.trim (c :: w ++ rest) = c :: w ++ rest := Mode.trim_cons _ _ hb hs

theorem trim_space_symbol {c : Char} (hb : Cursor.isBlank c = false) (hs : c ≠ '/') (w rest : List Char) :
    Mode.spaced.trim (' ' :: c :: w ++ rest) = c :: w ++ rest :=
  (Mode.trim_space _).trans (trim_symbol hb hs w rest)

theorem reads_word_then {r : Rule} {k : List Char} (hs : r.spelling = some k) {q : Peg Rule}
    {w : List Char} {ts : List (ParseTree Rule)} (ho : Opens w) (hq : Reads grammar .spaced q w rest ts) :
    Reads grammar .spaced (.seq (.rule r) q) (k ++ ' ' :: w) rest (.leaf r {} k :: ts) :=
  (reads_spelled (by simp) hs rfl).seq (trim_space_opens ho rest) hq

/-- A word, a condition in parentheses, and what comes after them. -/
theorem reads_condition {kw : Rule} {k : List Char} (hs : kw.spelling = some k) {e : Expr}
    (he : e.Readable) {q : Peg Rule} {w : List Char} {ts : List (ParseTree Rule)} (ho : Opens w)
    (hq : Reads grammar .spaced q w rest ts) :
    Reads grammar .spaced
      (.seq (.rule kw) (.seq (.text ['(']) (.seq (.rule .expression) (.seq (.text [')']) q))))
      (k ++ ' ' :: '(' :: (e.chars ++ ')' :: ' ' :: w)) rest (.leaf kw {} k :: e.whole :: ts) := by
  have closed := Reads.text_seq (u := [')']) (trim_space_opens ho rest) hq
  have test := (he.whole _ (endsExpr_close _)).seq (trim_symbol rfl (by decide) _ _) closed
  have opened := Reads.text_seq (u := ['(']) (((he.opens.append _).append _).trim _) test
  exact reads_word_then hs ⟨'(', _, rfl, rfl, by decide⟩ opened

theorem leadWord_word {k : List Char} (hk : k.all isIdentChar = true) (t : List Char) :
    leadWord (k ++ ' ' :: t ++ rest) = k := by
  rw [List.append_assoc]
  exact leadWord_append (List.all_eq_true.1 hk) rfl

theorem reads_while {e : Expr} (he : e.Readable) {w : List Char} {ts : List (ParseTree Rule)}
    (ho : Opens w) (hb : Reads grammar .spaced (.rule .block) w rest ts) :
    Reads grammar .spaced Rule.statement (whileHead e.chars ++ w) rest
      [.branch .whileStmt {} (Rule.leaf .kwWhile :: e.whole :: ts)] := by
  have text : whileHead e.chars ++ w =
      ['w', 'h', 'i', 'l', 'e'] ++ ' ' :: '(' :: (e.chars ++ ')' :: ' ' :: w) := by simp [whileHead]
  rw [text]
  have lead : ∀ t, leadWord (['w', 'h', 'i', 'l', 'e'] ++ ' ' :: t ++ rest) = ['w', 'h', 'i', 'l', 'e'] :=
    leadWord_word (by decide)
  exact .right (refuses_led rfl rfl rfl (by rw [lead]; decide))
    (.right (refuses_led rfl rfl rfl (by rw [lead]; decide))
      (.left (.plain rfl (by simp) (reads_condition rfl he ho hb))))

theorem reads_if {e : Expr} (he : e.Readable) {w : List Char} {ts : List (ParseTree Rule)} (ho : Opens w)
    (hb : Reads grammar .spaced
      (.seq (.rule .block) (.opt (.seq (.rule .kwElse) (.rule .block)))) w rest ts) :
    Reads grammar .spaced Rule.statement (ifHead e.chars ++ w) rest
      [.branch .ifStmt {} (Rule.leaf .kwIf :: e.whole :: ts)] := by
  have text : ifHead e.chars ++ w = ['i', 'f'] ++ ' ' :: '(' :: (e.chars ++ ')' :: ' ' :: w) := by
    simp [ifHead]
  rw [text]
  have lead : ∀ t, leadWord (['i', 'f'] ++ ' ' :: t ++ rest) = ['i', 'f'] := leadWord_word (by decide)
  exact .right (refuses_led rfl rfl rfl (by rw [lead]; decide))
    (.right (refuses_led rfl rfl rfl (by rw [lead]; decide))
      (.right (refuses_led rfl rfl rfl (by rw [lead]; decide))
        (.left (.plain rfl (by simp) (reads_condition rfl he ho hb)))))

theorem reads_then {w : List Char} {ts : List (ParseTree Rule)}
    (hb : Reads grammar .spaced (.rule .block) w rest ts)
    (hr : leadWord (Mode.spaced.trim rest) ≠ ['e', 'l', 's', 'e']) :
    Reads grammar .spaced (.seq (.rule .block) (.opt (.seq (.rule .kwElse) (.rule .block)))) w rest ts := by
  have other : Refuses grammar .spaced (.rule .kwElse) (Mode.spaced.trim rest) := refuses_spelled rfl hr
  exact hb.seq_idle other.seq.opt

theorem reads_else {w v : List Char} {ts us : List (ParseTree Rule)} (ho : Opens v)
    (hb : Reads grammar .spaced (.rule .block) w (elseHead ++ v ++ rest) ts)
    (hc : Reads grammar .spaced (.rule .block) v rest us) :
    Reads grammar .spaced (.seq (.rule .block) (.opt (.seq (.rule .kwElse) (.rule .block))))
      (w ++ (elseHead ++ v)) rest (ts ++ Rule.leaf .kwElse :: us) := by
  have other := (reads_word_then (r := .kwElse) rfl ho hc).opt
  exact hb.seq (trim_space_opens ⟨'e', _, rfl, rfl, by decide⟩ rest) other

theorem reads_return {e : Expr} (he : e.Readable) :
    Reads grammar .spaced Rule.statement (returnChars e.chars) rest
      [.branch .returnStmt {} [Rule.leaf .kwReturn, e.whole]] := by
  have text : returnChars e.chars = ['r', 'e', 't', 'u', 'r', 'n'] ++ ' ' :: (e.chars ++ [';']) := by
    simp [returnChars]
  rw [text]
  have lead : ∀ t, leadWord (['r', 'e', 't', 'u', 'r', 'n'] ++ ' ' :: t ++ rest) =
      ['r', 'e', 't', 'u', 'r', 'n'] := leadWord_word (by decide)
  have value := (he.whole _ (endsExpr_semicolon rest)).seq_text (w := [';']) (endsExpr_semicolon rest).trim
  have whole := reads_word_then (r := .kwReturn) rfl (he.opens.append _) value
  exact .right (refuses_led rfl rfl rfl (by rw [lead]; decide))
    (.right (refuses_led rfl rfl rfl (by rw [lead]; decide))
      (.right (refuses_led rfl rfl rfl (by rw [lead]; decide))
        (.right (refuses_led rfl rfl rfl (by rw [lead]; decide)) (.left (.plain rfl (by simp) whole)))))

theorem reads_expr {e : Expr} (he : e.Readable) (hw : e.WellFormed) :
    Reads grammar .spaced Rule.statement (e.chars ++ [';']) rest [.branch .exprStmt {} [e.whole]] := by
  have other := e.notDeclaration hw (';' :: rest) (.inl (endsExpr_semicolon rest))
  have text : e.chars ++ [';'] ++ rest = e.chars ++ ';' :: rest := by simp
  have value := (he.whole _ (endsExpr_semicolon rest)).seq_text (w := [';']) (endsExpr_semicolon rest).trim
  refine reads_unled (by rw [text]; exact other.lead) ?_
  exact .right (by rw [text]; exact other.block) (.right (by rw [text]; exact other.var)
    (.right (by rw [text]; exact other.assign) (.plain rfl (by simp) value)))

theorem lead_not_control {name : List Char} (hn : isName name = true) {w : List Char}
    (hw : leadWord (w ++ rest) = []) : leadWord (name ++ w ++ rest) ∉ controlWords := by
  rw [List.append_assoc, leadWord_name hn hw]
  exact not_control_of_isName hn

theorem reads_assign {name : List Char} (hn : isName name = true) {e : Expr} (he : e.Readable) :
    Reads grammar .spaced Rule.statement (name ++ ' ' :: '=' :: ' ' :: (e.chars ++ [';'])) rest
      [.branch .assign {} [.leaf .identifier {} name, e.whole]] := by
  have value := (he.whole _ (endsExpr_semicolon rest)).seq_text (w := [';']) (endsExpr_semicolon rest).trim
  have opens := he.opens.append [';']
  have single : Refuses grammar .spaced (.text ['=']) (e.chars ++ [';'] ++ rest) := by
    obtain ⟨c, t, hc, -, -, equal⟩ := opens
    rw [hc]
    exact .text (by simpa using Ne.symm equal)
  have checked := Reads.idle_seq single.not ((opens.append rest).trim _) value
  have signed := Reads.text_seq (u := ['=']) (trim_space_opens opens rest) checked
  have gap : Mode.spaced.trim (' ' :: '=' :: ' ' :: (e.chars ++ [';']) ++ rest) =
      '=' :: ' ' :: (e.chars ++ [';']) ++ rest := trim_space_symbol rfl (by decide) _ _
  have var : Refuses grammar .spaced (.rule .varDecl)
      (name ++ ' ' :: '=' :: ' ' :: (e.chars ++ [';']) ++ rest) := by
    rw [List.append_assoc]
    exact refuses_var_of_name hn rfl gap (by decide)
  have block : Refuses grammar .spaced (.rule .block)
      (name ++ ' ' :: '=' :: ' ' :: (e.chars ++ [';']) ++ rest) := by
    rw [List.append_assoc]
    exact refuses_block_of_name hn
  refine reads_unled (lead_not_control hn rfl) (.right block (.right var (.left ?_)))
  exact .plain rfl (by simp) ((reads_identifier (by simp) hn rfl).seq gap signed)

theorem opens_type (t : PrimType) : Opens t.chars := by
  cases t <;> exact ⟨_, _, rfl, rfl, by decide⟩

theorem reads_var {name : List Char} (hn : isName name = true) {w v : List Char}
    {ts : List (ParseTree Rule)} (hw : leadWord (w ++ rest) = [])
    (hv : Mode.spaced.trim (w ++ rest) = v ++ rest)
    (hr : Reads grammar .spaced
      (.seq (.alt (.seq (.text [':', '=']) (.rule .expression))
        (.seq (.text [':']) (.seq (.rule .primitiveType) (.opt (.seq (.text ['=']) (.rule .expression))))))
        (.text [';'])) v rest ts) :
    Reads grammar .spaced Rule.statement (name ++ w) rest
      [.branch .varDecl {} (.leaf .identifier {} name :: ts)] := by
  have block : Refuses grammar .spaced (.rule .block) (name ++ w ++ rest) := by
    rw [List.append_assoc]
    exact refuses_block_of_name hn
  refine reads_unled (lead_not_control hn hw) (.right block (.left ?_))
  exact .plain rfl (by simp) ((reads_identifier (by simp) hn hw).seq hv hr)

theorem reads_var_init {name : List Char} (hn : isName name = true) {e : Expr} (he : e.Readable) :
    Reads grammar .spaced Rule.statement (name ++ ' ' :: ':' :: '=' :: ' ' :: (e.chars ++ [';'])) rest
      [.branch .varDecl {} [.leaf .identifier {} name, e.whole]] := by
  have value := he.whole _ (endsExpr_semicolon rest)
  have declared := Reads.text_seq (u := [':', '=']) (trim_space_opens he.opens _) value
  exact reads_var hn rfl (trim_space_symbol rfl (by decide) _ _)
    (declared.left.seq_text (w := [';']) (endsExpr_semicolon rest).trim)

theorem reads_var_type {name : List Char} (hn : isName name = true) (t : PrimType) :
    Reads grammar .spaced Rule.statement (name ++ ':' :: ' ' :: (t.chars ++ [';'])) rest
      [.branch .varDecl {} [.leaf .identifier {} name, t.tree]] := by
  have type : Reads grammar .spaced (.rule .primitiveType) t.chars (';' :: rest) [t.tree] := reads_type t rfl
  have none : Refuses grammar .spaced (.text ['=']) (Mode.spaced.trim (';' :: rest)) := by
    rw [(endsExpr_semicolon rest).trim]
    exact .text (by simp)
  have declared := Reads.text_seq (u := [':']) (trim_space_opens (opens_type t) _)
    (type.seq_idle (none.seq (b := .rule .expression)).opt)
  have short : Refuses grammar .spaced (.text [':', '=']) (([':'] ++ ' ' :: t.chars) ++ ';' :: rest) :=
    .text (by simp)
  exact reads_var hn rfl (trim_symbol rfl (by decide) _ _)
    ((declared.right short.seq).seq_text (w := [';']) (endsExpr_semicolon rest).trim)

theorem reads_var_both {name : List Char} (hn : isName name = true) (t : PrimType) {e : Expr}
    (he : e.Readable) :
    Reads grammar .spaced Rule.statement
      (name ++ ':' :: ' ' :: (t.chars ++ ' ' :: '=' :: ' ' :: (e.chars ++ [';']))) rest
      [.branch .varDecl {} [.leaf .identifier {} name, t.tree, e.whole]] := by
  have value := he.whole _ (endsExpr_semicolon rest)
  have init := (Reads.text_seq (u := ['=']) (trim_space_opens he.opens _) value).opt
  have type : Reads grammar .spaced (.rule .primitiveType) t.chars
      (' ' :: '=' :: ' ' :: e.chars ++ ';' :: rest) [t.tree] := reads_type t rfl
  have typed := type.seq (trim_space_symbol rfl (by decide) _ _) init
  have declared := Reads.text_seq (u := [':'])
    (trim_space_opens ((opens_type t).append (' ' :: '=' :: ' ' :: e.chars)) (';' :: rest)) typed
  have short : Refuses grammar .spaced (.text [':', '='])
      (([':'] ++ ' ' :: (t.chars ++ ' ' :: '=' :: ' ' :: e.chars)) ++ ';' :: rest) := .text (by simp)
  have text : ':' :: ' ' :: (t.chars ++ ' ' :: '=' :: ' ' :: (e.chars ++ [';'])) =
      ([':'] ++ ' ' :: (t.chars ++ ' ' :: '=' :: ' ' :: e.chars)) ++ [';'] := by simp
  rw [text]
  exact reads_var hn rfl (trim_symbol rfl (by decide) _ _)
    ((declared.right short.seq).seq_text (w := [';']) (endsExpr_semicolon rest).trim)

theorem readsItem_param {p : Param} (hp : p.name.WellFormed) : ReadsItem (.rule .param) p.chars p.tree := by
  have text : p.chars = p.name.name.toList ++ ':' :: ' ' :: p.type.type.chars := by simp [Param.chars]
  rw [text]
  refine ⟨(opens_name hp).append _, fun c rest hc => .plain rfl (by simp) ?_⟩
  have stop : leadWord (c :: rest) = [] := by rcases hc with rfl | rfl <;> rfl
  have type : Reads grammar .spaced (.rule .primitiveType) p.type.type.chars (c :: rest) [p.type.type.tree] :=
    reads_type p.type.type stop
  have typed := Reads.text_seq (u := [':']) (trim_space_opens (opens_type p.type.type) (c :: rest)) type
  exact (reads_identifier (by simp) hp rfl).seq (trim_symbol rfl (by decide) _ _) typed

theorem reads_parameters {params : Option ParamList} (hp : ∀ l ∈ params, l.WellFormed) {q : Peg Rule}
    {w : List Char} {ts : List (ParseTree Rule)} (hq : Reads grammar .spaced q (')' :: w) rest ts) :
    Opens (joinWith [',', ' '] ((ParamList.toList params).map Param.chars) ++ ')' :: w) ∧
      Reads grammar .spaced (.seq (.opt (.rule .paramList)) q)
        (joinWith [',', ' '] ((ParamList.toList params).map Param.chars) ++ ')' :: w) rest
        (params.toList.map ParamList.tree ++ ts) := by
  cases params with
  | none =>
    have nothing : Refuses grammar .spaced (.rule .identifier) (')' :: (w ++ rest)) := refuses_identifier rfl
    have param : Refuses grammar .spaced (.rule .param) (')' :: (w ++ rest)) := .plain rfl nothing.seq
    have list : Refuses grammar .spaced (.rule .paramList) (')' :: (w ++ rest)) := .plain rfl param.seq
    exact ⟨⟨')', _, rfl, rfl, by decide⟩, .idle_seq list.opt (trim_symbol rfl (by decide) _ _) hq⟩
  | some l =>
    have params := hp l rfl
    obtain ⟨p, ps, hps⟩ := List.exists_cons_of_ne_nil params.nonempty
    have first := (readsItem_param (params.names p (by simp [hps]))).1
    have items := reads_items (fun p h => readsItem_param (params.names p h)) params.nonempty (w ++ rest)
    have list : Reads grammar .spaced (.rule .paramList) _ _ [l.tree] := .plain rfl (by simp) items
    refine ⟨?_, list.opt.seq (trim_symbol rfl (by decide) _ _) hq⟩
    simp only [ParamList.toList, hps, List.map_cons, joinWith_cons]
    exact (first.append _).append _

theorem reads_signature {name : Ident} (hn : name.WellFormed) {params : Option ParamList}
    (hp : ∀ l ∈ params, l.WellFormed) (result : TypeRef) {q : Peg Rule} {w v : List Char}
    {ts : List (ParseTree Rule)} (hw : leadWord (w ++ rest) = [])
    (hv : Mode.spaced.trim (w ++ rest) = v ++ rest) (hq : Reads grammar .spaced q v rest ts) :
    Reads grammar .spaced (Peg.seqs (Rule.signature [q]))
      (headChars name.name ((ParamList.toList params).map Param.chars) result.type ++ w) rest
      (signatureTrees name params result ++ ts) := by
  have type : Reads grammar .spaced (.rule .primitiveType) result.type.chars (w ++ rest) [result.type.tree] :=
    reads_type result.type hw
  have arrow := Reads.text_seq (u := ['-', '>'])
    (trim_space_opens ((opens_type result.type).append w) rest) (type.seq hv hq)
  have closed := Reads.text_seq (u := [')']) (trim_space_symbol rfl (by decide) _ _) arrow
  obtain ⟨opens, inside⟩ := reads_parameters hp closed
  have opened := Reads.text_seq (u := ['(']) ((opens.append rest).trim _) inside
  have whole := (reads_identifier (by simp) hn rfl).seq (trim_symbol rfl (by decide) _ _) opened
  simpa [Rule.signature, Peg.seqs, headChars, signatureTrees, Ident.tree] using whole

theorem opens_head {name : Ident} (hn : name.WellFormed) (params : List (List Char)) (result : PrimType) :
    Opens (headChars name.name params result) := by
  simp only [headChars, List.append_assoc]
  exact (opens_name hn).append _

theorem reads_function {name : Ident} (hn : name.WellFormed) {params : Option ParamList}
    (hp : ∀ l ∈ params, l.WellFormed) (result : TypeRef) {w : List Char} {ts : List (ParseTree Rule)}
    (ho : Opens w) (hb : Reads grammar .spaced (.rule .block) w rest ts) :
    Reads grammar .spaced Rule.statement
      (functionHead (headChars name.name ((ParamList.toList params).map Param.chars) result.type) ++ w) rest
      [.branch .functionDecl {} (Rule.leaf .kwFn :: (signatureTrees name params result ++ ts))] := by
  have signature := reads_signature hn hp result (w := ' ' :: w) rfl (trim_space_opens ho rest) hb
  have opens := (opens_head hn ((ParamList.toList params).map Param.chars) result.type).append (' ' :: w)
  have whole := reads_word_then (r := .kwFn) rfl opens signature
  have text : functionHead (headChars name.name ((ParamList.toList params).map Param.chars) result.type) ++ w =
      ['f', 'n'] ++ ' ' :: (headChars name.name ((ParamList.toList params).map Param.chars) result.type
        ++ ' ' :: w) := by simp [functionHead]
  rw [text]
  have lead : ∀ t, leadWord (['f', 'n'] ++ ' ' :: t ++ rest) = ['f', 'n'] := leadWord_word (by decide)
  exact .right (refuses_led rfl rfl rfl (by rw [lead]; decide)) (.left (.plain rfl (by simp) whole))

theorem reads_imported {name : Ident} (hn : name.WellFormed) {params : Option ParamList}
    (hp : ∀ l ∈ params, l.WellFormed) (result : TypeRef) :
    Reads grammar .spaced Rule.statement
      (importedChars (headChars name.name ((ParamList.toList params).map Param.chars) result.type)) rest
      [.branch .externDecl {} (Rule.leaf .kwExtern :: Rule.leaf .kwFn :: signatureTrees name params result)] := by
  have signature := reads_signature hn hp result (w := [';']) rfl (endsExpr_semicolon rest).trim
    (Reads.text [';'] rest)
  have opens := (opens_head hn ((ParamList.toList params).map Param.chars) result.type).append [';']
  have function := reads_word_then (r := .kwFn) rfl opens signature
  have whole := reads_word_then (r := .kwExtern) rfl ⟨'f', _, rfl, rfl, by decide⟩ function
  have text : importedChars (headChars name.name ((ParamList.toList params).map Param.chars) result.type) =
      ['e', 'x', 't', 'e', 'r', 'n'] ++ ' ' :: (['f', 'n'] ++ ' ' ::
        (headChars name.name ((ParamList.toList params).map Param.chars) result.type ++ [';'])) := by
    simp [importedChars]
  rw [text]
  rw [List.append_nil] at whole
  exact .left (.plain rfl (by simp) whole)

end Forms

section Blocks

theorem trim_newline (k : Nat) (cs : List Char) : Mode.spaced.trim (newline k ++ cs) = Mode.spaced.trim cs := by
  have spaces : ∀ n, Mode.spaced.trim (List.replicate n ' ' ++ cs) = Mode.spaced.trim cs := by
    intro n
    induction n with
    | zero => rfl
    | succ n ih => rw [List.replicate_succ, List.cons_append, Mode.trim_space, ih]
  rw [newline, List.cons_append, Mode.trim_blank rfl, spaces]

/-- A text that does not go on with the other branch of a condition. -/
def NoElse (rest : List Char) : Prop := leadWord (Mode.spaced.trim rest) ≠ ['e', 'l', 's', 'e']

/-- How a statement is read among others. -/
structure Stmt.Readable (s : Stmt) : Prop where
  opens : ∀ k, Opens (s.laidOut k)
  lead : ∀ k rest, leadWord (s.laidOut k ++ rest) ≠ ['e', 'l', 's', 'e']
  reads : ∀ k rest, NoElse rest → Reads grammar .spaced Rule.statement (s.laidOut k) rest [s.tree]

theorem Stmt.Readable.trim {s : Stmt} (h : s.Readable) (k : Nat) (ss : List Stmt) (rest : List Char) :
    Mode.spaced.trim (Stmt.linesLaidOut k (s :: ss) ++ rest) =
      (s.laidOut k ++ Stmt.linesLaidOut k ss) ++ rest := by
  rw [Stmt.linesLaidOut, List.append_assoc, trim_newline, (((h.opens k).append _).append _).trim]

theorem noElse_lines {ss : List Stmt} (h : ∀ s ∈ ss, s.Readable) (k : Nat) {rest : List Char}
    (hr : NoElse rest) : NoElse (Stmt.linesLaidOut k ss ++ rest) := by
  cases ss with
  | nil => exact hr
  | cons s ss =>
    have first := h s (by simp)
    unfold NoElse
    rw [first.trim, List.append_assoc]
    exact first.lead k _

/-- Statements on lines of their own, up to a text that begins no statement. -/
theorem reads_statements {s : Stmt} {ss : List Stmt} (h : ∀ x ∈ s :: ss, x.Readable) (k : Nat)
    {rest : List Char} (hn : Refuses grammar .spaced Rule.statement (Mode.spaced.trim rest))
    (he : NoElse rest) :
    Reads grammar .spaced (.star Rule.statement) (s.laidOut k ++ Stmt.linesLaidOut k ss) rest
      (Stmt.trees (s :: ss)) := by
  induction ss generalizing s with
  | nil =>
    rw [Stmt.linesLaidOut, List.append_nil]
    exact ((h s (by simp)).reads k rest he).starLast hn
  | cons x ss ih =>
    obtain ⟨hs, hrest⟩ := List.forall_mem_cons.1 h
    obtain ⟨hx, hss⟩ := List.forall_mem_cons.1 hrest
    have first := hs.reads k _ (noElse_lines hrest k he)
    have next := hx.reads k _ (noElse_lines hss k he)
    exact first.starMore (hx.trim k ss rest) next (by simp) (ih hrest)

theorem refuses_statement_of_close (t : List Char) : Refuses grammar .spaced Rule.statement ('}' :: t) := by
  have other : NotDeclaration ('}' :: t) := notDeclaration_of_symbol (by decide) rfl
  have expr : Refuses grammar .spaced (.rule .exprStmt) ('}' :: t) :=
    .plain rfl (refuses_expression_of_close (.inr rfl)).seq
  obtain ⟨imported, function, while_, if_, return_⟩ := refuses_all_led other.lead
  exact imported.alt (function.alt (while_.alt (if_.alt (return_.alt (other.block.alt (other.var.alt
    (other.assign.alt expr)))))))

theorem refuses_statement_nil : Refuses grammar .spaced Rule.statement [] := by
  have each : ∀ r, Rule.empties r = false → Refuses grammar .spaced (.rule r) [] :=
    fun r h => Grammar.refuses_nil grammarBounds h
  exact (each .externDecl rfl).alt ((each .functionDecl rfl).alt ((each .whileStmt rfl).alt
    ((each .ifStmt rfl).alt ((each .returnStmt rfl).alt ((each .block rfl).alt ((each .varDecl rfl).alt
      ((each .assign rfl).alt (each .exprStmt rfl))))))))

theorem opens_braces (k : Nat) (inside : List Char) : Opens (braces k inside) := by
  unfold braces
  split <;> exact ⟨'{', _, rfl, rfl, by decide⟩

theorem reads_block {ss : List Stmt} (h : ∀ s ∈ ss, s.Readable) (k : Nat) (rest : List Char) :
    Reads grammar .spaced (.rule .block) (braces k (Stmt.linesLaidOut (k + 1) ss)) rest
      [.branch .block {} (Stmt.trees ss)] := by
  refine .plain rfl (by simp) ?_
  have closing : Mode.spaced.trim (['}'] ++ rest) = ['}'] ++ rest := Mode.trim_cons _ _ rfl (by decide)
  cases ss with
  | nil =>
    have none := (refuses_statement_of_close rest).star
    exact .text_seq (u := ['{']) closing (.idle_seq none closing (.text ['}'] rest))
  | cons s ss =>
    have below : Mode.spaced.trim (newline k ++ ['}'] ++ rest) = ['}'] ++ rest := by
      rw [List.append_assoc, trim_newline]
      exact closing
    have stop : Refuses grammar .spaced Rule.statement (Mode.spaced.trim (newline k ++ ['}'] ++ rest)) := by
      rw [below]
      exact refuses_statement_of_close rest
    have noElse : NoElse (newline k ++ ['}'] ++ rest) := by
      unfold NoElse
      rw [below, List.cons_append, leadWord_cons _ rfl]
      decide
    have inside := (reads_statements h (k + 1) stop noElse).seq below (.text ['}'] rest)
    rw [List.append_nil] at inside
    have filled : braces k (Stmt.linesLaidOut (k + 1) (s :: ss)) =
        ['{'] ++ (Stmt.linesLaidOut (k + 1) (s :: ss) ++ (newline k ++ ['}'])) := by
      simp [braces, Stmt.linesLaidOut, newline]
    rw [filled]
    refine .text_seq ?_ inside
    rw [List.append_assoc, (h s (by simp)).trim, List.append_assoc _ (newline k ++ ['}']) rest]

end Blocks

end ImpWasm
