import ImpWasm.Proofs.Lang.WellFormed
set_option autoImplicit false

/-!
Where the lines of a printed program stand. Printing puts statements together line by line and moves
the lines of a block to the right; the text that comes out is a direct recursion over the statements
with the depth as a parameter. The two agree because no line is empty and none holds a line ending.
-/
namespace ImpWasm

def newline (k : Nat) : List Char := '\n' :: List.replicate (4 * k) ' '

def Plain (cs : List Char) : Prop := ∀ c ∈ cs, c ≠ '\n' ∧ c ≠ '\r'

instance (cs : List Char) : Decidable (Plain cs) := List.decidableBAll (fun c => c ≠ '\n' ∧ c ≠ '\r') cs

@[simp] theorem plain_nil : Plain [] := by simp [Plain]

@[simp] theorem plain_cons {c : Char} {cs : List Char} :
    Plain (c :: cs) ↔ (c ≠ '\n' ∧ c ≠ '\r') ∧ Plain cs := by
  simp [Plain]

@[simp] theorem plain_append {cs ds : List Char} : Plain (cs ++ ds) ↔ Plain cs ∧ Plain ds :=
  List.forall_mem_append

theorem not_mem_of_plain {cs : List Char} (h : Plain cs) : '\n' ∉ cs := fun inside => (h _ inside).1 rfl

namespace Line

/-- A line below the first, `k` steps further to the right. -/
def laidOut (k : Nat) (l : Line) : List Char := newline (l.depth + k) ++ l.text

theorem laidOut_indent (k : Nat) (l : Line) : l.indent.laidOut k = l.laidOut (k + 1) := by
  simp [laidOut, indent, Nat.add_assoc, Nat.add_comm 1 k]

theorem chars_of_depth {l : Line} (h : l.depth = 0) : l.chars = l.text := by
  simp [chars, margin, h]

end Line

namespace Lines

def laidOut (k : Nat) : Lines → List Char
  | [] => []
  | l :: ls => l.text ++ ls.flatMap (Line.laidOut k)

/-- Lines that can be indented and put after something else as they are. -/
structure Clean (ls : Lines) : Prop where
  first : ∃ l rest, ls = l :: rest ∧ l.depth = 0
  filled : ∀ l ∈ ls, l.text ≠ []
  plain : ∀ l ∈ ls, Plain l.text

theorem laidOut_append {ls : Lines} (h : ls ≠ []) (ms : Lines) (k : Nat) :
    laidOut k (ls ++ ms) = ls.laidOut k ++ ms.flatMap (Line.laidOut k) := by
  cases ls with
  | nil => exact absurd rfl h
  | cons l ls => simp [laidOut]

theorem indent_eq_map {ls : Lines} (hf : ∀ l ∈ ls, l.text ≠ []) (hp : ∀ l ∈ ls, Plain l.text) :
    ls.indent = ls.map Line.indent := by
  induction ls with
  | nil => rfl
  | cons l ls ih =>
    cases ls with
    | nil =>
      have filled : l.chars ≠ [] := by simp [Line.chars, hf l (by simp)]
      simp [indent, filled]
    | cons k ls =>
      have kept : l.dropReturn = l := by
        unfold Line.dropReturn
        split
        · rename_i last
          exact absurd rfl (hp l (by simp) '\r' (List.mem_of_getLast? last)).2
        · rfl
      have tail := ih (fun m hm => hf m (by simp [hm])) (fun m hm => hp m (by simp [hm]))
      rw [indent, kept, tail]
      rfl

theorem Clean.flatMap_laidOut {ls : Lines} (h : ls.Clean) (k : Nat) :
    ls.flatMap (Line.laidOut k) = newline k ++ ls.laidOut k := by
  obtain ⟨l, rest, rfl, depth⟩ := h.first
  simp only [List.flatMap_cons, laidOut, Line.laidOut, depth, Nat.zero_add, List.append_assoc]

theorem flatMap_flatten {items : List Lines} (h : ∀ ls ∈ items, ls.Clean) (k : Nat) :
    items.flatten.flatMap (Line.laidOut k) = items.flatMap fun ls => newline k ++ ls.laidOut k := by
  induction items with
  | nil => rfl
  | cons ls items ih =>
    obtain ⟨hls, hitems⟩ := List.forall_mem_cons.1 h
    simp only [List.flatten_cons, List.flatMap_append, List.flatMap_cons, hls.flatMap_laidOut, ih hitems]

theorem Clean.flatMap_indent {ls : Lines} (h : ls.Clean) (k : Nat) :
    ls.indent.flatMap (Line.laidOut k) = newline (k + 1) ++ ls.laidOut (k + 1) := by
  rw [indent_eq_map h.filled h.plain, List.flatMap_map, ← h.flatMap_laidOut]
  simp only [Line.laidOut_indent]

theorem Clean.chars_eq {ls : Lines} (h : ls.Clean) : ls.chars = ls.laidOut 0 := by
  obtain ⟨l, rest, rfl, depth⟩ := h.first
  have tail : ∀ (ls : Lines) (l : Line), chars (l :: ls) = l.chars ++ ls.flatMap (Line.laidOut 0) := by
    intro ls
    induction ls with
    | nil => simp [chars, joinWith]
    | cons k ls ih =>
      intro l
      rw [chars_cons l (by simp), ih k]
      simp [Line.laidOut, newline, Line.chars, Line.margin]
  rw [tail, Line.chars_of_depth depth]
  rfl

theorem laidOut_weld {ls ms : Lines} (hl : ls ≠ []) (hm : ms.Clean) (k : Nat) :
    (weld ls ms).laidOut k = ls.laidOut k ++ ms.laidOut k := by
  obtain ⟨m, rest, rfl, depth⟩ := hm.first
  have tail : ∀ ls : Lines, ls ≠ [] → (weld ls (m :: rest)).flatMap (Line.laidOut k) =
      ls.flatMap (Line.laidOut k) ++ laidOut k (m :: rest) := by
    intro ls hl
    induction ls with
    | nil => exact absurd rfl hl
    | cons l ls ih =>
      cases ls with
      | nil => simp [weld, laidOut, Line.laidOut, Line.chars_of_depth depth]
      | cons k ls => simp [weld, ih]
  cases ls with
  | nil => exact absurd rfl hl
  | cons l ls =>
    cases ls with
    | nil => simp [weld, laidOut, Line.chars_of_depth depth]
    | cons j ls =>
      have below := tail (j :: ls) (by simp)
      simp only [weld, laidOut, below, List.append_assoc]

theorem Clean.weld {ls ms : Lines} (hl : ls.Clean) (hm : ms.Clean) : (Lines.weld ls ms).Clean := by
  obtain ⟨m, rest, rfl, depth⟩ := hm.first
  have each : ∀ ls : Lines, (∀ l ∈ ls, l.text ≠ [] ∧ Plain l.text) →
      ∀ l ∈ Lines.weld ls (m :: rest), l.text ≠ [] ∧ Plain l.text := by
    have below : ∀ l ∈ m :: rest, l.text ≠ [] ∧ Plain l.text :=
      fun l h => ⟨hm.filled l h, hm.plain l h⟩
    intro ls hls
    induction ls with
    | nil => exact below
    | cons l ls ih =>
      cases ls with
      | nil =>
        have head := hls l (by simp)
        simp only [Lines.weld, Line.chars_of_depth depth]
        refine List.forall_mem_cons.2 ⟨⟨?_, ?_⟩, (List.forall_mem_cons.1 below).2⟩
        · simp [head.1]
        · exact plain_append.2 ⟨head.2, (below m (by simp)).2⟩
      | cons k ls =>
        obtain ⟨head, tail⟩ := List.forall_mem_cons.1 hls
        exact List.forall_mem_cons.2 ⟨head, ih tail⟩
  have all := each ls fun l h => ⟨hl.filled l h, hl.plain l h⟩
  refine ⟨?_, fun l h => (all l h).1, fun l h => (all l h).2⟩
  obtain ⟨l, below, rfl, top⟩ := hl.first
  cases below with
  | nil => exact ⟨_, _, rfl, top⟩
  | cons k below => exact ⟨_, _, rfl, top⟩

theorem ofChars_plain {cs : List Char} (h : Plain cs) : ofChars cs = [{ text := cs }] := by
  rw [ofChars, splitOn_of_not_mem (not_mem_of_plain h)]
  rfl

theorem clean_ofChars {cs : List Char} (h : Plain cs) (hne : cs ≠ []) : (ofChars cs).Clean := by
  rw [ofChars_plain h]
  exact ⟨⟨_, _, rfl, rfl⟩, by simpa using hne, by simpa using h⟩

theorem laidOut_ofChars {cs : List Char} (h : Plain cs) (k : Nat) : (ofChars cs).laidOut k = cs := by
  simp [ofChars_plain h, laidOut]

end Lines

section Printed

theorem plain_of_isIdentChar {w : List Char} (h : ∀ c ∈ w, isIdentChar c = true) : Plain w := by
  intro c hc
  have inside := h c hc
  constructor
  · rintro rfl
    cases inside
  · rintro rfl
    cases inside

theorem plain_name {w : List Char} (h : isName w = true) : Plain w :=
  plain_of_isIdentChar (isIdentChar_of_mem_name h)

theorem plain_digits (n : Nat) : Plain (Decimal.digits n) := by
  obtain ⟨c, cs, hn, hc, hcs⟩ := digits_isDigit n
  rw [hn]
  exact plain_of_isIdentChar (List.forall_mem_cons.2
    ⟨isIdentChar_of_isDigit hc, fun x hx => isIdentChar_of_isDigit (hcs x hx)⟩)

theorem plain_ofInt (i : Int) : Plain (Decimal.ofInt i) := by
  cases i with
  | ofNat n => exact plain_digits n
  | negSucc n => simpa [Decimal.ofInt] using plain_digits (n + 1)

/-- A character that has to be escaped and is no letter of an escape is not in an escaped text. -/
theorem Escape.not_mem_encode {x : Char} (escaped : letter? x ≠ none) (meaningless : meaning? x = none)
    (cs : List Char) : x ∉ encode cs := by
  induction cs with
  | nil => exact List.not_mem_nil
  | cons c cs ih =>
    cases hl : letter? c with
    | none =>
      have other : x ≠ c := by
        rintro rfl
        exact escaped hl
      simp [encode, hl, other, ih]
    | some l =>
      have slash : x ≠ '\\' := by
        rintro rfl
        cases meaningless
      have letter : x ≠ l := by
        rintro rfl
        rw [meaning?_of_letter? hl] at meaningless
        cases meaningless
      simp [encode, hl, slash, letter, ih]

theorem plain_encode (cs : List Char) : Plain (Escape.encode cs) := by
  intro c hc
  constructor
  · rintro rfl
    exact Escape.not_mem_encode (by decide) rfl cs hc
  · rintro rfl
    exact Escape.not_mem_encode (by decide) rfl cs hc

theorem plain_literal (value : String) : Plain (literalChars value) := by
  simpa [literalChars] using plain_encode value.toList

theorem plain_bool (b : Bool) : Plain (boolChars b) := by cases b <;> decide

theorem plain_operator (op : Operator) : Plain op.chars := by cases op <;> decide

theorem plain_type (t : PrimType) : Plain t.chars := by cases t <;> decide

theorem plain_parenthesized {wanted : Bool} {cs : List Char} (h : Plain cs) :
    Plain (parenthesized wanted cs) := by
  cases wanted <;> simp [parenthesized, h]

theorem plain_joinWith {xs : List (List Char)} (h : ∀ x ∈ xs, Plain x) :
    Plain (joinWith [',', ' '] xs) := by
  fun_induction joinWith [',', ' '] xs with
  | case1 => exact plain_nil
  | case2 x => exact h x (by simp)
  | case3 x y rest ih =>
    obtain ⟨hx, hrest⟩ := List.forall_mem_cons.1 h
    exact plain_append.2 ⟨plain_append.2 ⟨hx, by decide⟩, ih hrest⟩

mutual

theorem Expr.plain_chars : (e : Expr) → e.WellFormed → Plain e.chars
  | .ident _ _, h => plain_name h
  | .int _ _, _ => plain_ofInt _
  | .string _ _, _ => plain_literal _
  | .bool _ _, _ => plain_bool _
  | .binary op l r _, h => by
    have left := l.plain_chars h.1
    have right := r.plain_chars h.2
    simp [Expr.chars, plain_parenthesized left, plain_parenthesized right, plain_operator op]
  | .call callee args _, h => by
    have name : Plain callee.name.toList := plain_name h.1
    have inside := plain_joinWith (Expr.plain_charsAll args h.2)
    simp [Expr.chars, name, inside]

theorem Expr.plain_charsAll : (es : List Expr) → Expr.AllWellFormed es → ∀ x ∈ Expr.charsAll es, Plain x
  | [], _ => by simp [Expr.charsAll]
  | e :: es, h => List.forall_mem_cons.2 ⟨e.plain_chars h.1, Expr.plain_charsAll es h.2⟩

end

theorem plain_head {name : String} (hn : isName name.toList = true) {params : Option ParamList}
    (hp : ∀ l ∈ params, l.WellFormed) (result : PrimType) :
    Plain (headChars name ((ParamList.toList params).map Param.chars) result) := by
  have each : ∀ x ∈ (ParamList.toList params).map Param.chars, Plain x := by
    intro x hx
    obtain ⟨p, hp', rfl⟩ := List.mem_map.1 hx
    cases params with
    | none => simp [ParamList.toList] at hp'
    | some l =>
      have named : Plain p.name.name.toList := plain_name ((hp l rfl).names p hp')
      simp [Param.chars, named, plain_type]
  have inside := plain_joinWith each
  simp [headChars, plain_name hn, inside, plain_type]

end Printed

def braces (k : Nat) (inside : List Char) : List Char :=
  if inside.isEmpty then ['{', '}'] else '{' :: (inside ++ newline k ++ ['}'])

mutual

/-- The text of a statement at depth `k`, without the margin of its first line. -/
def Stmt.laidOut (k : Nat) : Stmt → List Char
  | .expr value _ => value.chars ++ [';']
  | .var name type init _ => varChars name.name (type.map TypeRef.type) (init.map Expr.chars)
  | .assign target value _ => assignChars target.name value.chars
  | .block body _ _ => braces k (Stmt.linesLaidOut (k + 1) body)
  | .function name params result body _ _ =>
    functionHead (headChars name.name ((ParamList.toList params).map Param.chars) result.type)
      ++ braces k (Stmt.linesLaidOut (k + 1) body)
  | .imported name params result _ =>
    importedChars (headChars name.name ((ParamList.toList params).map Param.chars) result.type)
  | .return_ value _ => returnChars value.chars
  | .while_ condition body _ _ =>
    whileHead condition.chars ++ braces k (Stmt.linesLaidOut (k + 1) body)
  | .ifThen condition yes _ _ => ifHead condition.chars ++ braces k (Stmt.linesLaidOut (k + 1) yes)
  | .ifElse condition yes _ no _ _ =>
    ifHead condition.chars ++ braces k (Stmt.linesLaidOut (k + 1) yes)
      ++ (elseHead ++ braces k (Stmt.linesLaidOut (k + 1) no))

def Stmt.linesLaidOut (k : Nat) : List Stmt → List Char
  | [] => []
  | s :: ss => newline k ++ (s.laidOut k ++ Stmt.linesLaidOut k ss)

end

theorem clean_blockLines {items : List Lines} (h : ∀ ls ∈ items, ls.Clean) : (blockLines items).Clean := by
  unfold blockLines
  split
  · exact ⟨⟨_, _, rfl, rfl⟩, by simp, by simp⟩
  · have inner : ∀ l ∈ items.flatMap Lines.indent, l.text ≠ [] ∧ Plain l.text := by
      intro l hl
      obtain ⟨ls, hls, hl⟩ := List.mem_flatMap.1 hl
      rw [Lines.indent_eq_map (h ls hls).filled (h ls hls).plain] at hl
      obtain ⟨m, hm, rfl⟩ := List.mem_map.1 hl
      exact ⟨(h ls hls).filled m hm, (h ls hls).plain m hm⟩
    refine ⟨⟨_, _, rfl, rfl⟩, ?_, ?_⟩
    · simp only [List.forall_mem_cons, List.forall_mem_append]
      exact ⟨by simp, fun l hl => (inner l hl).1, by simp⟩
    · simp only [List.forall_mem_cons, List.forall_mem_append]
      exact ⟨by simp, fun l hl => (inner l hl).2, by simp⟩

theorem laidOut_blockLines {items : List Lines} (h : ∀ ls ∈ items, ls.Clean) (k : Nat) :
    (blockLines items).laidOut k =
      braces k (items.flatMap fun ls => newline (k + 1) ++ ls.laidOut (k + 1)) := by
  have inner : (items.flatMap Lines.indent).flatMap (Line.laidOut k) =
      items.flatMap fun ls => newline (k + 1) ++ ls.laidOut (k + 1) := by
    rw [List.flatMap_assoc]
    induction items with
    | nil => rfl
    | cons ls items ih =>
      obtain ⟨hls, hitems⟩ := List.forall_mem_cons.1 h
      simp only [List.flatMap_cons, ih hitems, hls.flatMap_indent]
  cases items with
  | nil => simp [blockLines, braces, Lines.laidOut]
  | cons ls items =>
    have filled : ((ls :: items).flatMap fun ls => newline (k + 1) ++ ls.laidOut (k + 1)) ≠ [] := by
      simp [newline]
    have lines : blockLines (ls :: items) =
        { text := ['{'] } :: ((ls :: items).flatMap Lines.indent ++ [{ text := ['}'] }]) := rfl
    rw [lines, Lines.laidOut, List.flatMap_append, inner, braces, if_neg (by simpa using filled)]
    simp [Line.laidOut]

/-- Lines that stand for a text given by depth. -/
structure Lines.Shows (ls : Lines) (text : Nat → List Char) : Prop where
  clean : ls.Clean
  laidOut_eq : ∀ k, ls.laidOut k = text k

theorem shows_ofChars {cs : List Char} (h : Plain cs) (hne : cs ≠ []) :
    (Lines.ofChars cs).Shows fun _ => cs :=
  ⟨Lines.clean_ofChars h hne, Lines.laidOut_ofChars h⟩

theorem Lines.Shows.weld {ls ms : Lines} {f g : Nat → List Char} (hl : ls.Shows f) (hm : ms.Shows g) :
    (ls.weld ms).Shows fun k => f k ++ g k := by
  refine ⟨hl.clean.weld hm.clean, fun k => ?_⟩
  obtain ⟨l, rest, rfl, -⟩ := hl.clean.first
  rw [Lines.laidOut_weld (by simp) hm.clean, hl.laidOut_eq, hm.laidOut_eq]

theorem Lines.Shows.headed {head : List Char} {ls : Lines} {f : Nat → List Char} (h : Plain head)
    (hne : head ≠ []) (hl : ls.Shows f) : (ImpWasm.headed head ls).Shows fun k => head ++ f k :=
  (shows_ofChars h hne).weld hl

mutual

theorem Stmt.shows_lines : (s : Stmt) → s.WellFormed → s.lines.Shows fun k => s.laidOut k
  | .expr value _, h => by
    have inside := value.plain_chars h
    exact shows_ofChars (by simp [inside]) (by simp)
  | .var name type init _, h => by
    have named : Plain name.name.toList := plain_name h.1
    have filled : name.name.toList ≠ [] := by
      intro empty
      have := h.1
      simp [Ident.WellFormed, empty, isName] at this
    have inside : ∀ e ∈ init, Plain e.chars := fun e he => e.plain_chars (h.2.2 e he)
    refine shows_ofChars ?_ ?_
    · cases type <;> cases init <;> simp_all [varChars, plain_type]
    · cases type <;> cases init <;> simp [varChars, filled]
  | .assign target value _, h => by
    have named : Plain target.name.toList := plain_name h.1
    have inside := value.plain_chars h.2
    exact shows_ofChars (by simp [assignChars, named, inside]) (by simp [assignChars])
  | .block body _ _, h => Stmt.shows_block body h
  | .function name params result body _ _, h => by
    have head := plain_head h.1 h.2.1 result.type
    exact (Stmt.shows_block body h.2.2).headed (by simp [functionHead, head]) (by simp [functionHead])
  | .imported name params result _, h => by
    have head := plain_head h.1 h.2 result.type
    exact shows_ofChars (by simp [importedChars, head]) (by simp [importedChars])
  | .return_ value _, h => by
    have inside := value.plain_chars h
    exact shows_ofChars (by simp [returnChars, inside]) (by simp [returnChars])
  | .while_ condition body _ _, h => by
    have inside := condition.plain_chars h.1
    exact (Stmt.shows_block body h.2).headed (by simp [whileHead, inside]) (by simp [whileHead])
  | .ifThen condition yes _ _, h => by
    have inside := condition.plain_chars h.1
    exact (Stmt.shows_block yes h.2).headed (by simp [ifHead, inside]) (by simp [ifHead])
  | .ifElse condition yes _ no _ _, h => by
    have inside := condition.plain_chars h.1
    have head : Plain (ifHead condition.chars) := by simp [ifHead, inside]
    have first := (Stmt.shows_block yes h.2.1).headed head (by simp [ifHead])
    exact first.weld ((Stmt.shows_block no h.2.2).headed (by decide) (by decide))

theorem Stmt.shows_block : (ss : List Stmt) → Stmt.AllWellFormed ss →
    (blockLines (Stmt.linesAll ss)).Shows fun k => braces k (Stmt.linesLaidOut (k + 1) ss)
  | ss, h => by
    have inner := Stmt.shows_all ss h
    refine ⟨clean_blockLines inner.1, fun k => ?_⟩
    rw [laidOut_blockLines inner.1, inner.2]

theorem Stmt.shows_all : (ss : List Stmt) → Stmt.AllWellFormed ss →
    (∀ ls ∈ Stmt.linesAll ss, ls.Clean) ∧
      ∀ k, ((Stmt.linesAll ss).flatMap fun ls => newline k ++ ls.laidOut k) = Stmt.linesLaidOut k ss
  | [], _ => ⟨by simp [Stmt.linesAll], fun _ => rfl⟩
  | s :: ss, h => by
    have first := s.shows_lines h.1
    have rest := Stmt.shows_all ss h.2
    refine ⟨List.forall_mem_cons.2 ⟨first.clean, rest.1⟩, fun k => ?_⟩
    simp [Stmt.linesAll, Stmt.linesLaidOut, first.laidOut_eq, rest.2 k]

end

/-- The text of a program: its statements at depth zero, the first without a line feed before it. -/
theorem Program.chars_eq {p : Program} (h : p.WellFormed) {s : Stmt} {ss : List Stmt}
    (hb : p.body = s :: ss) : p.chars = s.laidOut 0 ++ Stmt.linesLaidOut 0 ss := by
  unfold Program.WellFormed at h
  rw [hb] at h
  have first := s.shows_lines h.1
  obtain ⟨clean, below⟩ := Stmt.shows_all ss h.2
  obtain ⟨l, ls, hl, depth⟩ := first.clean.first
  have tail : (Stmt.linesAll ss).flatten.flatMap (Line.laidOut 0) = Stmt.linesLaidOut 0 ss := by
    rw [← below, Lines.flatMap_flatten clean]
  have whole : (s.lines ++ (Stmt.linesAll ss).flatten).Clean := by
    refine ⟨⟨l, ls ++ (Stmt.linesAll ss).flatten, by simp [hl], depth⟩, ?_, ?_⟩
    · refine List.forall_mem_append.2 ⟨first.clean.filled, fun k hk => ?_⟩
      obtain ⟨ms, hms, hk⟩ := List.mem_flatten.1 hk
      exact (clean ms hms).filled k hk
    · refine List.forall_mem_append.2 ⟨first.clean.plain, fun k hk => ?_⟩
      obtain ⟨ms, hms, hk⟩ := List.mem_flatten.1 hk
      exact (clean ms hms).plain k hk
  have lines : p.chars = Lines.chars (s.lines ++ (Stmt.linesAll ss).flatten) := by
    simp [Program.chars, hb, Stmt.linesAll]
  rw [lines, whole.chars_eq, Lines.laidOut_append (by simp [hl]), first.laidOut_eq, tail]

end ImpWasm
