import ImpWasm.Proofs.Lang.Layout
import ImpWasm.Proofs.Lang.Lexing
set_option autoImplicit false

namespace ImpWasm

open Grammar (Matches Reads)

/-- A text with every line but the first four columns further right. A carriage return right before the end of a line
goes. -/
def indentedBelow : List Char → List Char
  | [] => []
  | c :: cs =>
    if c = '\n' then newline 1 ++ indentedBelow cs
    else if c = '\r' ∧ cs.head? = some '\n' then indentedBelow cs
    else c :: indentedBelow cs

section Below

variable {x : List Char} {c : Char}

theorem indentedBelow_feed (cs : List Char) : indentedBelow ('\n' :: cs) = newline 1 ++ indentedBelow cs := rfl

theorem indentedBelow_other (hc : c ≠ '\n') (cs : List Char) : indentedBelow (c :: cs) =
    if c = '\r' ∧ cs.head? = some '\n' then indentedBelow cs else c :: indentedBelow cs := by
  rw [indentedBelow, if_neg hc]

/-- Two texts are moved apart from each other unless a line ending reaches over both. -/
theorem indentedBelow_append {cs ds : List Char} (h : cs.getLast? = some '\r' → ds.head? ≠ some '\n') :
    indentedBelow (cs ++ ds) = indentedBelow cs ++ indentedBelow ds := by
  induction cs with
  | nil => rfl
  | cons c cs ih =>
    have rest : indentedBelow (cs ++ ds) = indentedBelow cs ++ indentedBelow ds := by
      refine ih fun last => h ?_
      rw [List.getLast?_cons, last]
      rfl
    by_cases hc : c = '\n'
    · subst hc
      rw [List.cons_append, indentedBelow_feed, indentedBelow_feed, rest, List.append_assoc]
    · have next : c = '\r' → ((cs ++ ds).head? = some '\n' ↔ cs.head? = some '\n') := by
        rintro rfl
        cases cs with
        | nil => simpa using h rfl
        | cons d cs => rfl
      rw [List.cons_append, indentedBelow_other hc, indentedBelow_other hc, rest]
      simp only [and_congr_right next]
      split <;> rfl

theorem indentedBelow_line (h : '\n' ∉ x) : indentedBelow x = x := by
  induction x with
  | nil => rfl
  | cons c x ih =>
    obtain ⟨hc, hx⟩ := List.ne_and_not_mem_of_not_mem_cons h
    have next : x.head? ≠ some '\n' := fun first => hx (List.mem_of_mem_head? first)
    rw [indentedBelow_other (Ne.symm hc), if_neg (fun turn => next turn.2), ih hx]

theorem indentedBelow_line_append (h : '\n' ∉ x) (cs : List Char) : indentedBelow (x ++ '\n' :: cs) =
    (if x.getLast? = some '\r' then x.dropLast else x) ++ newline 1 ++ indentedBelow cs := by
  split
  · rename_i last
    obtain ⟨y, rfl⟩ := List.getLast?_eq_some_iff.1 last
    have before : '\n' ∉ y := fun inside => h (List.mem_append_left _ inside)
    have turn : indentedBelow ('\r' :: '\n' :: cs) = newline 1 ++ indentedBelow cs := rfl
    rw [List.append_assoc, List.singleton_append, indentedBelow_append (by simp), turn, indentedBelow_line before,
      List.dropLast_concat, List.append_assoc]
  · rename_i last
    rw [indentedBelow_append (fun turn => absurd turn last), indentedBelow_line h, indentedBelow_feed,
      List.append_assoc]

theorem indentedBelow_literal (before after : List Char) (v : String) :
    indentedBelow (before ++ literalChars v ++ after) =
      indentedBelow before ++ literalChars v ++ indentedBelow after := by
  have opens : (literalChars v).head? = some '"' := rfl
  have closes : (literalChars v).getLast? = some '"' := List.getLast?_concat
  have left : (before ++ literalChars v).getLast? ≠ some '\r' := by
    rw [List.getLast?_append, closes]
    simp
  rw [indentedBelow_append (fun turn => absurd turn left), indentedBelow_append (fun _ => by simp [opens]),
    indentedBelow_line (not_mem_of_plain (plain_literal v))]

example : indentedBelow ['a', '\r', '\n', 'b'] = ['a', '\n', ' ', ' ', ' ', ' ', 'b'] := by decide

end Below

namespace Lines

/-- Lines of a text that ends in something else than a line feed. -/
structure Solid (ls : Lines) : Prop where
  unbroken : ∀ l ∈ ls, '\n' ∉ l.text
  ends : ∃ c, ls.chars.getLast? = some c ∧ c ≠ '\n'

theorem Solid.ne_nil {ls : Lines} (h : ls.Solid) : ls ≠ [] := by
  rintro rfl
  obtain ⟨c, last, -⟩ := h.ends
  cases last

theorem Solid.of_cons {l k : Line} {ls : Lines} (h : Solid (l :: k :: ls)) : Solid (k :: ls) := by
  obtain ⟨unbroken, c, last, hc⟩ := h
  refine ⟨(List.forall_mem_cons.1 unbroken).2, c, ?_, hc⟩
  rw [chars_cons l (by simp), List.getLast?_append] at last
  cases below : (chars (k :: ls)).getLast? with
  | none =>
    rw [below, Option.none_or, List.getLast?_concat] at last
    exact absurd (Option.some.inj last).symm hc
  | some d =>
    rw [below, Option.some_or] at last
    exact last

theorem unbroken_chars {l : Line} (h : '\n' ∉ l.text) : '\n' ∉ l.chars := by
  simp [Line.chars, Line.margin, h]

theorem chars_dropReturn (l : Line) :
    l.dropReturn.chars = if l.chars.getLast? = some '\r' then l.chars.dropLast else l.chars := by
  have same : l.chars.getLast? = some '\r' ↔ l.text.getLast? = some '\r' := by
    cases h : l.text.getLast? with
    | none =>
      have empty : l.text = [] := List.getLast?_eq_none_iff.1 h
      simp [Line.chars, Line.margin, empty, List.getLast?_replicate]
    | some c => simp [Line.chars, h]
  unfold Line.dropReturn
  split
  · rename_i last
    obtain ⟨y, text⟩ := List.getLast?_eq_some_iff.1 last
    rw [if_pos (same.2 last)]
    simp [Line.chars, Line.margin, text]
  · rename_i last
    rw [if_neg (fun turn => last (same.1 turn))]

theorem chars_indent {ls : Lines} (h : ls.Solid) :
    ls.indent.chars = [' ', ' ', ' ', ' '] ++ indentedBelow ls.chars := by
  induction ls with
  | nil => exact absurd rfl h.ne_nil
  | cons l ls ih =>
    have line : '\n' ∉ l.chars := unbroken_chars (h.unbroken l (by simp))
    cases ls with
    | nil =>
      have same : chars [l] = l.chars := rfl
      have filled : l.chars ≠ [] := by
        obtain ⟨c, last, -⟩ := h.ends
        rintro empty
        rw [same, empty] at last
        cases last
      have moved : indent [l] = [l.indent] := by simp [indent, filled]
      rw [moved, same, indentedBelow_line line]
      exact l.chars_indent
    | cons k ls =>
      have rest := ih h.of_cons
      have below : indent (k :: ls) ≠ [] := by
        intro empty
        rw [empty] at rest
        cases rest
      have moved := indentedBelow_line_append line (chars (k :: ls))
      rw [indent, Lines.chars_cons _ below, rest, Line.chars_indent, chars_dropReturn, Lines.chars_cons l (by simp),
        List.append_assoc l.chars, List.singleton_append, moved]
      simp [newline]

theorem Solid.indent {ls : Lines} (h : ls.Solid) : ls.indent.Solid := by
  have unbroken : ∀ ls : Lines, (∀ l ∈ ls, '\n' ∉ l.text) → ∀ l ∈ ls.indent, '\n' ∉ l.text := by
    intro ls hls
    fun_induction Lines.indent ls with
    | case1 => simp
    | case2 => simp
    | case3 l => simpa [Line.indent] using hls
    | case4 l k ls ih =>
      obtain ⟨head, tail⟩ := List.forall_mem_cons.1 hls
      refine List.forall_mem_cons.2 ⟨?_, ih tail⟩
      have kept : l.dropReturn.text ⊆ l.text := by
        unfold Line.dropReturn
        split
        · exact List.dropLast_subset l.text
        · exact fun c hc => hc
      exact fun inside => head (kept inside)
  refine ⟨unbroken ls h.unbroken, ?_⟩
  obtain ⟨c, last, hc⟩ := h.ends
  obtain ⟨before, text⟩ := List.getLast?_eq_some_iff.1 last
  refine ⟨c, ?_, hc⟩
  have apart : indentedBelow (before ++ [c]) = indentedBelow before ++ [c] := by
    rw [indentedBelow_append (by simp [hc]), indentedBelow_line (x := [c]) (by simpa using Ne.symm hc)]
  rw [chars_indent h, text, apart, ← List.append_assoc, List.getLast?_concat]

theorem Solid.weld {ls ms : Lines} (hl : ∀ l ∈ ls, '\n' ∉ l.text) (hm : ms.Solid) : (Lines.weld ls ms).Solid := by
  refine ⟨?_, ?_⟩
  · fun_induction Lines.weld ls ms with
    | case1 ms => exact hm.unbroken
    | case2 l => exact hl
    | case3 l m ms =>
      obtain ⟨first, rest⟩ := List.forall_mem_cons.1 hm.unbroken
      have joined : '\n' ∉ l.text ++ m.chars := by
        simp [hl l (by simp), unbroken_chars first]
      exact List.forall_mem_cons.2 ⟨joined, rest⟩
    | case4 l k ls ms ih =>
      obtain ⟨first, rest⟩ := List.forall_mem_cons.1 hl
      exact List.forall_mem_cons.2 ⟨first, ih rest hm⟩
  · obtain ⟨c, last, hc⟩ := hm.ends
    refine ⟨c, ?_, hc⟩
    rw [chars_weld, List.getLast?_append, last, Option.some_or]

theorem unbroken_ofChars (cs : List Char) : ∀ l ∈ ofChars cs, '\n' ∉ l.text := by
  intro l hl
  obtain ⟨x, piece, rfl⟩ := List.mem_map.1 hl
  exact not_mem_of_mem_splitOn piece

theorem solid_ofChars {cs : List Char} {c : Char} (last : cs.getLast? = some c) (hc : c ≠ '\n') :
    (ofChars cs).Solid := ⟨unbroken_ofChars cs, c, by rwa [chars_ofChars], hc⟩

/-- The lines of a text, each with its end. -/
def ended (ls : Lines) : List Char := ls.flatMap fun l => l.chars ++ ['\n']

theorem ended_append (ls ms : Lines) : ended (ls ++ ms) = ls.ended ++ ms.ended := List.flatMap_append

theorem ended_eq {ls : Lines} (h : ls ≠ []) : ls.ended = ls.chars ++ ['\n'] := by
  induction ls with
  | nil => exact absurd rfl h
  | cons l ls ih =>
    cases ls with
    | nil => exact List.append_nil _
    | cons k ls =>
      rw [chars_cons l (by simp), List.append_assoc, ← ih (by simp)]
      rfl

end Lines

/-- The text of a block: the texts of its statements, each moved to the right and on lines of its own. -/
theorem chars_blockLines {items : List Lines} (hne : items ≠ []) (h : ∀ ls ∈ items, ls.Solid) :
    (blockLines items).chars =
      ['{', '\n'] ++ (items.flatMap fun ls => [' ', ' ', ' ', ' '] ++ indentedBelow ls.chars ++ ['\n']) ++ ['}'] := by
  have inner : Lines.ended (items.flatMap Lines.indent) =
      items.flatMap fun ls => [' ', ' ', ' ', ' '] ++ indentedBelow ls.chars ++ ['\n'] := by
    clear hne
    induction items with
    | nil => rfl
    | cons ls items ih =>
      obtain ⟨first, rest⟩ := List.forall_mem_cons.1 h
      rw [List.flatMap_cons, Lines.ended_append, ih rest, Lines.ended_eq first.indent.ne_nil,
        Lines.chars_indent first, List.flatMap_cons]
  have lines : blockLines items = { text := ['{'] } :: (items.flatMap Lines.indent ++ [{ text := ['}'] }]) := by
    rw [blockLines, if_neg (by simpa using hne)]
  have whole : (blockLines items).chars ++ ['\n'] =
      ['{', '\n'] ++ Lines.ended (items.flatMap Lines.indent) ++ ['}', '\n'] := by
    rw [← Lines.ended_eq (by simp [lines]), lines]
    simp [Lines.ended, Line.chars, Line.margin]
  rw [← inner]
  exact List.append_cancel_right (whole.trans (by simp))

theorem solid_blockLines {items : List Lines} (h : ∀ ls ∈ items, ls.Solid) : (blockLines items).Solid := by
  cases items with
  | nil => exact ⟨by decide, '}', rfl, by decide⟩
  | cons ls items =>
    refine ⟨?_, '}', by rw [chars_blockLines (by simp) h, List.getLast?_concat], by decide⟩
    have inner : ∀ l ∈ (ls :: items).flatMap Lines.indent, '\n' ∉ l.text := by
      intro l hl
      obtain ⟨ms, hms, hl⟩ := List.mem_flatMap.1 hl
      exact (h ms hms).indent.unbroken l hl
    have lines : blockLines (ls :: items) =
        { text := ['{'] } :: ((ls :: items).flatMap Lines.indent ++ [{ text := ['}'] }]) := rfl
    rw [lines]
    exact List.forall_mem_cons.2 ⟨by decide, List.forall_mem_append.2 ⟨inner, by decide⟩⟩

section Literals

mutual

def Expr.literals : Expr → List String
  | .string value _ => [value]
  | .binary _ left right _ => left.literals ++ right.literals
  | .call _ args _ => Expr.literalsAll args
  | .ident _ _ | .int _ _ | .bool _ _ => []

def Expr.literalsAll : List Expr → List String
  | [] => []
  | e :: es => e.literals ++ Expr.literalsAll es

end

mutual

def Stmt.literals : Stmt → List String
  | .expr value _ | .assign _ value _ | .return_ value _ => value.literals
  | .var _ _ init _ => (init.map Expr.literals).getD []
  | .block body _ _ | .function _ _ _ body _ _ => Stmt.literalsAll body
  | .imported _ _ _ _ => []
  | .while_ condition body _ _ => condition.literals ++ Stmt.literalsAll body
  | .ifThen condition yes _ _ => condition.literals ++ Stmt.literalsAll yes
  | .ifElse condition yes _ no _ _ =>
    condition.literals ++ Stmt.literalsAll yes ++ Stmt.literalsAll no

def Stmt.literalsAll : List Stmt → List String
  | [] => []
  | s :: ss => s.literals ++ Stmt.literalsAll ss

end

/-- The literals of the values stand in the text, one after another and apart. -/
inductive Holds : List Char → List String → Prop
  | none (cs : List Char) : Holds cs []
  | more (before : List Char) (v : String) {after : List Char} {vs : List String} (h : Holds after vs) :
    Holds (before ++ literalChars v ++ after) (v :: vs)

variable {cs ds : List Char} {vs ws : List String}

theorem Holds.prepend (cs : List Char) (h : Holds ds vs) : Holds (cs ++ ds) vs := by
  cases h with
  | none => exact .none _
  | more before v h => simpa using h.more (cs ++ before) v

theorem Holds.append (h : Holds cs vs) (k : Holds ds ws) : Holds (cs ++ ds) (vs ++ ws) := by
  induction h with
  | none cs => exact k.prepend cs
  | more before v _ ih => simpa using ih.more before v

theorem Holds.extend (h : Holds cs vs) (ds : List Char) : Holds (cs ++ ds) vs := by
  simpa using h.append (.none ds)

theorem Holds.indentedBelow (h : Holds cs vs) : Holds (indentedBelow cs) vs := by
  induction h with
  | none cs => exact .none _
  | more before v _ ih =>
    rw [indentedBelow_literal]
    exact ih.more _ v

theorem Holds.parenthesized {wanted : Bool} (h : Holds cs vs) : Holds (parenthesized wanted cs) vs := by
  cases wanted with
  | false => exact h
  | true => exact (h.extend [')']).prepend ['(']

mutual

theorem Expr.holds_chars : (e : Expr) → Holds e.chars e.literals
  | .ident _ _ | .int _ _ | .bool _ _ => .none _
  | .string value _ => by simpa [Expr.chars, Expr.literals] using (Holds.none []).more [] value
  | .binary op l r _ => by
    have left : Holds (parenthesized l.isBinary l.chars) l.literals := l.holds_chars.parenthesized
    have right : Holds (parenthesized r.isBinary r.chars) r.literals := r.holds_chars.parenthesized
    exact left.append (((right.prepend [' ']).prepend op.chars).prepend [' '])
  | .call callee args _ => by
    exact ((Expr.holds_charsAll args).extend [')']).prepend ['('] |>.prepend callee.name.toList

theorem Expr.holds_charsAll : (es : List Expr) → Holds (joinWith [',', ' '] (Expr.charsAll es)) (Expr.literalsAll es)
  | [] => .none _
  | [e] => by simpa [Expr.charsAll, Expr.literalsAll, joinWith] using e.holds_chars
  | e :: f :: es => (e.holds_chars.extend _).append (Expr.holds_charsAll (f :: es))

end

structure Lines.Keeps (ls : Lines) (vs : List String) : Prop where
  solid : ls.Solid
  holds : Holds ls.chars vs

theorem keeps_ofChars (h : Holds cs vs) : (Lines.ofChars (cs ++ [';'])).Keeps vs :=
  ⟨Lines.solid_ofChars List.getLast?_concat (by decide), by simpa [Lines.chars_ofChars] using h.extend [';']⟩

theorem Lines.Keeps.weld {ls ms : Lines} (hl : ∀ l ∈ ls, '\n' ∉ l.text) (h : Holds ls.chars vs) (hm : ms.Keeps ws) :
    (ls.weld ms).Keeps (vs ++ ws) :=
  ⟨.weld hl hm.solid, by simpa [Lines.chars_weld] using h.append hm.holds⟩

theorem Lines.Keeps.headed {ls : Lines} (h : Holds cs vs) (hl : ls.Keeps ws) :
    (headed cs ls).Keeps (vs ++ ws) :=
  .weld (Lines.unbroken_ofChars cs) (by simpa [Lines.chars_ofChars] using h) hl

theorem keeps_blockLines {items : List Lines} (solid : ∀ ls ∈ items, ls.Solid)
    (h : Holds (items.flatMap fun ls => [' ', ' ', ' ', ' '] ++ indentedBelow ls.chars ++ ['\n']) vs) :
    (blockLines items).Keeps vs := by
  refine ⟨solid_blockLines solid, ?_⟩
  cases items with
  | nil =>
    generalize text : List.flatMap _ [] = cs at h
    cases h with
    | none => exact .none _
    | more before v h => simp [literalChars] at text
  | cons ls items =>
    rw [chars_blockLines (by simp) solid]
    exact (h.prepend _).extend _

mutual

theorem Stmt.keeps_lines : (s : Stmt) → s.lines.Keeps s.literals
  | .expr value _ => keeps_ofChars value.holds_chars
  | .var name type init _ => by
    cases init with
    | none => cases type <;> exact keeps_ofChars (.none _)
    | some value => cases type <;> exact keeps_ofChars (value.holds_chars.prepend _)
  | .assign target value _ => keeps_ofChars (value.holds_chars.prepend _)
  | .block body _ _ => Stmt.keeps_block body
  | .function name params result body _ _ => .headed (.none _) (Stmt.keeps_block body)
  | .imported name params result _ => keeps_ofChars (.none _)
  | .return_ value _ => keeps_ofChars (value.holds_chars.prepend _)
  | .while_ condition body _ _ => .headed ((condition.holds_chars.prepend _).extend _) (Stmt.keeps_block body)
  | .ifThen condition yes _ _ => .headed ((condition.holds_chars.prepend _).extend _) (Stmt.keeps_block yes)
  | .ifElse condition yes _ no _ _ => by
    have first : (headed (ifHead condition.chars) (blockLines (Stmt.linesAll yes))).Keeps
        (condition.literals ++ Stmt.literalsAll yes) :=
      .headed ((condition.holds_chars.prepend _).extend _) (Stmt.keeps_block yes)
    exact .weld first.solid.unbroken first.holds (.headed (.none elseHead) (Stmt.keeps_block no))

theorem Stmt.keeps_block (ss : List Stmt) : (blockLines (Stmt.linesAll ss)).Keeps (Stmt.literalsAll ss) :=
  have inside := Stmt.keeps_all ss
  keeps_blockLines inside.1 inside.2

theorem Stmt.keeps_all : (ss : List Stmt) → (∀ ls ∈ Stmt.linesAll ss, ls.Solid) ∧
    Holds ((Stmt.linesAll ss).flatMap fun ls => [' ', ' ', ' ', ' '] ++ indentedBelow ls.chars ++ ['\n'])
      (Stmt.literalsAll ss)
  | [] => ⟨by simp [Stmt.linesAll], .none _⟩
  | s :: ss => by
    have first := s.keeps_lines
    have rest := Stmt.keeps_all ss
    exact ⟨List.forall_mem_cons.2 ⟨first.solid, rest.1⟩,
      ((first.holds.indentedBelow.prepend _).extend _).append rest.2⟩

end

end Literals

theorem Lines.Solid.chars_repeat_indent {ls : Lines} (h : ls.Solid) (k : Nat) :
    (Nat.repeat Lines.indent k ls).Solid ∧ (Nat.repeat Lines.indent k ls).chars =
      List.replicate (4 * k) ' ' ++ Nat.repeat indentedBelow k ls.chars := by
  induction k with
  | zero => exact ⟨h, rfl⟩
  | succ k ih =>
    obtain ⟨solid, text⟩ := ih
    refine ⟨solid.indent, ?_⟩
    have margin : indentedBelow (List.replicate (4 * k) ' ') = List.replicate (4 * k) ' ' :=
      indentedBelow_line (by simp)
    have width : 4 * (k + 1) = 4 + 4 * k := by omega
    have apart : indentedBelow (List.replicate (4 * k) ' ' ++ Nat.repeat indentedBelow k ls.chars) =
        List.replicate (4 * k) ' ' ++ indentedBelow (Nat.repeat indentedBelow k ls.chars) := by
      rw [indentedBelow_append (by simp [List.getLast?_replicate]), margin]
    rw [Nat.repeat, Nat.repeat, Lines.chars_indent solid, text, apart, width, ← List.replicate_append_replicate,
      List.append_assoc]
    rfl

theorem repeat_indentedBelow_literal (before after : List Char) (v : String) (k : Nat) :
    Nat.repeat indentedBelow k (before ++ literalChars v ++ after) =
      Nat.repeat indentedBelow k before ++ literalChars v ++ Nat.repeat indentedBelow k after := by
  induction k with
  | zero => rfl
  | succ k ih => rw [Nat.repeat, ih, indentedBelow_literal]; rfl

theorem matches_literal (v : String) (pos : Nat) (rest : List Char) :
    Matches grammar .spaced (.rule .stringLiteral) ⟨pos, literalChars v ++ rest⟩
      (some ([.branch .stringLiteral ⟨pos, pos + utf8Length (literalChars v)⟩
          [.leaf .stringContent ⟨pos + 1, pos + 1 + utf8Length (Escape.encode v.toList)⟩ (Escape.encode v.toList)]],
        ⟨pos + utf8Length (literalChars v), rest⟩)) := by
  obtain ⟨ts, d, read, bare, -⟩ := reads_string (m := .spaced) (by decide) v rest pos
  obtain ⟨k, e, f, -, opens, inside, closes, rfl⟩ := matches_string read
  obtain rfl : k = Escape.encode v.toList := by simpa [Peg.ParseTree.bareAll, Peg.ParseTree.bare] using bare
  have whole : Cursor.Past ⟨pos, literalChars v ++ rest⟩ (literalChars v) d := (opens.trans inside).trans closes
  have stop : d = ⟨pos + utf8Length (literalChars v), rest⟩ := whole.unique ⟨rfl, rfl⟩
  have start : e.pos = pos + 1 := opens.pos
  rw [stop, inside.pos, start] at read
  exact read

/-- Every string comes back from its literal, which is read whole whatever follows it. The literals of a statement
stand in its text and stay there when its lines are moved to the right, as is everything written inside a block. -/
theorem literal_kept (v : String) :
    '\n' ∉ Escape.encode v.toList ∧ '\r' ∉ Escape.encode v.toList ∧ '\t' ∉ Escape.encode v.toList ∧
      Content (Escape.encode v.toList) ∧
      (∀ pos rest, Matches grammar .spaced (.rule .stringLiteral) ⟨pos, literalChars v ++ rest⟩
        (some ([.branch .stringLiteral ⟨pos, pos + utf8Length (literalChars v)⟩
            [.leaf .stringContent ⟨pos + 1, pos + 1 + utf8Length (Escape.encode v.toList)⟩ (Escape.encode v.toList)]],
          ⟨pos + utf8Length (literalChars v), rest⟩))) ∧
      (∀ offset, Escape.decode offset (Escape.encode v.toList) = .ok v.toList) ∧
      (∀ (s : Stmt) (k : Nat), Holds (Nat.repeat Lines.indent k s.lines).chars s.literals) ∧
      (∀ (s : Stmt) (k : Nat), (Nat.repeat Lines.indent k s.lines).chars =
        List.replicate (4 * k) ' ' ++ Nat.repeat indentedBelow k s.chars) ∧
      ∀ (before after : List Char) (k : Nat), Nat.repeat indentedBelow k (before ++ literalChars v ++ after) =
        Nat.repeat indentedBelow k before ++ literalChars v ++ Nat.repeat indentedBelow k after := by
  refine ⟨Escape.not_mem_encode (by decide) rfl _, Escape.not_mem_encode (by decide) rfl _,
    Escape.not_mem_encode (by decide) rfl _, content_encode _, matches_literal v,
    fun offset => Escape.decode_encode _ offset, fun s k => ?_,
    fun s k => (s.keeps_lines.solid.chars_repeat_indent k).2,
    fun before after k => repeat_indentedBelow_literal before after v k⟩
  have kept : Holds (Nat.repeat indentedBelow k s.lines.chars) s.literals := by
    induction k with
    | zero => exact s.keeps_lines.holds
    | succ k ih => exact ih.indentedBelow
  rw [(s.keeps_lines.solid.chars_repeat_indent k).2]
  exact kept.prepend _

end ImpWasm
