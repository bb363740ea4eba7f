import ImpWasm.Proofs.Lang.Faults
set_option autoImplicit false

namespace ImpWasm

open Peg (ParseTree)
open Grammar (Matches)

namespace Escape

/-- Every backslash begins an escape, or is the letter of one. -/
inductive Escaped : List Char → Prop
  | nil : Escaped []
  | plain {c : Char} {k : List Char} (hs : c ≠ '\\') (hk : Escaped k) : Escaped (c :: k)
  | escape {c : Char} {k : List Char} (hc : c ∈ letters) (hk : Escaped k) : Escaped ('\\' :: c :: k)

section Content

variable {w : List Char} {offset : Nat} {f : Fault}

theorem mem_faults_iff (h : Content w) : f ∈ faults offset w ↔
    ∃ k c l, w = k ++ '\\' :: c :: l ∧ Content k ∧ c ∉ letters ∧ f = ⟨offset + utf8Length k, ['\\', c]⟩ := by
  induction h generalizing offset with
  | nil => simp [faults]
  | @plain c k hq hs hk ih =>
    rw [faults_plain _ hs, ih]
    constructor
    · rintro ⟨x, d, y, rfl, hx, hd, rfl⟩
      exact ⟨c :: x, d, y, rfl, .plain hq hs hx, hd, by simp [utf8Length, Nat.add_assoc]⟩
    · rintro ⟨x, d, y, same, hx, hd, rfl⟩
      cases hx with
      | nil => exact absurd (List.cons.inj same).1 hs
      | plain _ _ hx =>
        obtain ⟨rfl, rfl⟩ := List.cons.inj same
        exact ⟨_, d, y, rfl, hx, hd, by simp [utf8Length, Nat.add_assoc]⟩
      | escaped _ => exact absurd (List.cons.inj same).1 hs
  | @escaped c k hk ih =>
    simp only [faults, List.mem_append, ih]
    constructor
    · rintro (hf | ⟨x, d, y, rfl, hx, hd, rfl⟩)
      · split at hf
        · cases hf
        · rename_i hc
          exact ⟨[], c, k, rfl, .nil, hc, List.mem_singleton.1 hf⟩
      · exact ⟨'\\' :: c :: x, d, y, rfl, .escaped hx, hd, by simp [utf8Length, Nat.add_assoc]; rfl⟩
    · rintro ⟨x, d, y, same, hx, hd, rfl⟩
      cases hx with
      | nil =>
        obtain ⟨rfl, rfl⟩ := List.cons.inj (List.cons.inj same).2
        exact .inl (by simp [hd, utf8Length])
      | plain _ hs _ => exact absurd (List.cons.inj same).1.symm hs
      | escaped hx =>
        obtain ⟨rfl, rfl⟩ := List.cons.inj (List.cons.inj same).2
        exact .inr ⟨_, d, y, rfl, hx, hd, by simp [utf8Length, Nat.add_assoc]; rfl⟩

theorem escaped_iff (h : Content w) : Escaped w ↔ faults offset w = [] := by
  induction h generalizing offset with
  | nil => exact ⟨fun _ => rfl, fun _ => .nil⟩
  | @plain c k hq hs hk ih =>
    rw [faults_plain _ hs, ← ih]
    constructor
    · intro hw
      cases hw with
      | plain _ hw => exact hw
      | escape _ _ => exact absurd rfl hs
    · exact .plain hs
  | @escaped c k hk ih =>
    simp only [faults, List.append_eq_nil_iff, ← ih]
    constructor
    · intro hw
      cases hw with
      | plain hs _ => exact absurd rfl hs
      | escape hc hw => exact ⟨by simp [hc], hw⟩
    · rintro ⟨letter, hw⟩
      refine .escape ?_ hw
      split at letter
      · assumption
      · cases letter

theorem le_of_mem_faults (h : f ∈ faults offset w) : offset ≤ f.offset := by
  fun_induction faults offset w with
  | case1 => cases h
  | case2 => cases List.mem_singleton.1 h; exact Nat.le.refl
  | case3 offset c k ih =>
    obtain h | h := List.mem_append.1 h
    · split at h
      · cases h
      · cases List.mem_singleton.1 h; exact Nat.le.refl
    · have after := ih h
      omega
  | case4 offset c k _ _ ih =>
    have after := ih h
    omega

theorem pairwise_faults (offset : Nat) (w : List Char) :
    (faults offset w).Pairwise fun f g => f.offset < g.offset := by
  fun_induction faults offset w with
  | case1 => exact .nil
  | case2 => exact List.pairwise_singleton _ _
  | case3 offset c k ih =>
    refine List.pairwise_append.2 ⟨?_, ih, fun f hf g hg => ?_⟩
    · split
      · exact .nil
      · exact List.pairwise_singleton _ _
    · have after := le_of_mem_faults hg
      split at hf
      · cases hf
      · obtain rfl := List.mem_singleton.1 hf
        show offset < g.offset
        omega
  | case4 offset c k _ _ ih => exact ih

end Content

end Escape

def Valued : ParseTree Rule → Prop
  | .leaf .intLiteral _ w => -2147483648 ≤ Decimal.value w ∧ Decimal.value w < 2147483648
  | .leaf .stringContent _ w => Escape.Escaped w
  | _ => True

/-- An integer that does not have 32 bits, or a backslash in a string that makes no escape, and its error. -/
inductive Offence : ParseTree Rule → ParseError → Prop
  | integer {span : Span} {w : List Char}
    (range : ¬ (-2147483648 ≤ Decimal.value w ∧ Decimal.value w < 2147483648)) :
    Offence (.leaf .intLiteral span w) (.invalidInteger span (String.ofList w))
  | escape {span : Span} {k l : List Char} {c : Char} (before : Content k) (letter : c ∉ Escape.letters) :
    Offence (.leaf .stringContent span (k ++ '\\' :: c :: l))
      (.invalidEscape ⟨span.start + utf8Length k, span.start + utf8Length k + utf8Length ['\\', c]⟩
        (String.ofList ['\\', c]))

/-- The one label of the error is the place of the text that it has found. -/
def ParseError.Points (source : String) (e : ParseError) (found : String) : Prop :=
  ∃ before after text, source.toList = before ++ found.toList ++ after ∧
    e.diagnostic.labels = [⟨text, utf8Length before, utf8Length found.toList⟩]

def ParseError.found? : ParseError → Option String
  | .invalidInteger _ found | .invalidEscape _ found => some found
  | _ => none

section Places

variable {source w : List Char} {l t : ParseTree Rule} {ts : List (ParseTree Rule)} {e : ParseError}

/-- A leaf whose span marks its text, which inside a string literal is the content of one. -/
inductive LeafAt (source : List Char) : ParseTree Rule → Prop
  | intro {r : Rule} {span : Span} {w : List Char} (marks : span.Marks source w)
    (content : r = .stringContent → Content w) : LeafAt source (.leaf r span w)

theorem content_of_leaf {c d : Cursor} {w : List Char}
    (h : Matches grammar .spaced (.rule .stringContent) c (some ([.leaf .stringContent ⟨c.pos, d.pos⟩ w], d))) :
    Content w := by
  obtain ⟨_, same, past⟩ := matches_lexeme rfl h
  cases same
  generalize [ParseTree.leaf Rule.stringContent ⟨c.pos, d.pos⟩ w] = us at h
  cases h with
  | rule inside =>
    obtain ⟨k, content, text⟩ := content_of_matches inside rfl rfl _ rfl
    rwa [List.append_cancel_right (past.text.symm.trans text)]

theorem inOrder_leaves {a b : Nat} (h : InOrder a (ts.map ParseTree.span) b)
    (each : ∀ t ∈ ts, InOrder t.span.start (t.leaves.map ParseTree.span) t.span.stop) :
    InOrder a ((ts.flatMap ParseTree.leaves).map ParseTree.span) b := by
  induction ts generalizing a with
  | nil => exact h
  | cons t ts ih =>
    obtain ⟨first, rest⟩ := List.forall_mem_cons.1 each
    rw [List.flatMap_cons, List.map_append]
    exact (first.mono h.1 Nat.le.refl).append (ih h.2.2 rest)

theorem Grown.leaves (h : Grown source t) :
    (∀ l ∈ t.leaves, LeafAt source l) ∧ InOrder t.span.start (t.leaves.map ParseTree.span) t.span.stop := by
  induction h with
  | leaf kind reached matched =>
    have marks := (Grown.leaf kind reached matched).marks_leaf
    refine ⟨fun l hl => ?_, Nat.le.refl, ?_, Nat.le.refl⟩
    · obtain rfl := List.mem_singleton.1 hl
      exact .intro marks fun hr => content_of_leaf (by subst hr; exact matched)
    · exact matched.leads.pos_le
  | string content reached opens inside closes =>
    have order := (Grown.string content reached opens inside closes).inOrder
    refine ⟨fun l hl => ?_, order⟩
    obtain rfl := List.mem_singleton.1 hl
    exact .intro (inside.marks (reached.leads.trans ⟨_, opens.text, opens.pos⟩)) fun _ => content
  | branch kind reached matched below ih =>
    have order := (Grown.branch kind reached matched below).inOrder
    rw [ParseTree.leaves_branch]
    refine ⟨fun l hl => ?_, inOrder_leaves order fun t ht => (ih t ht).2⟩
    obtain ⟨t, ht, hl⟩ := List.mem_flatMap.1 hl
    exact (ih t ht).1 l hl

theorem isSome_int32?_iff :
    (Decimal.int32? w).isSome = true ↔ -2147483648 ≤ Decimal.value w ∧ Decimal.value w < 2147483648 := by
  simp only [Decimal.int32?, ← Int.le_sub_one_iff]
  split <;> simp_all

theorem LeafAt.mem_faults_iff (h : LeafAt source l) : e ∈ leafFaults l ↔ Offence l e := by
  obtain @⟨r, span, w, marks, content⟩ := h
  constructor
  · intro he
    unfold leafFaults at he
    split at he
    · split at he
      · cases he
      · rename_i same range
        cases same
        obtain rfl := List.mem_singleton.1 he
        exact .integer (mt isSome_int32?_iff.2 range)
    · rename_i same
      cases same
      obtain ⟨f, hf, rfl⟩ := List.mem_map.1 he
      obtain ⟨k, c, m, rfl, hk, hc, rfl⟩ := (Escape.mem_faults_iff (content rfl)).1 hf
      exact .escape hk hc
    · cases he
  · intro he
    cases he with
    | integer range => simp [leafFaults, isSome_int32?_iff, range]
    | escape before letter =>
      exact List.mem_map.2 ⟨_, (Escape.mem_faults_iff (content rfl)).2 ⟨_, _, _, rfl, before, letter, rfl⟩, rfl⟩

theorem LeafAt.valued_iff (h : LeafAt source l) : Valued l ↔ leafFaults l = [] := by
  obtain @⟨r, span, w, marks, content⟩ := h
  cases r with
  | intLiteral => simp [Valued, leafFaults, ← isSome_int32?_iff, Option.isSome_iff_ne_none]
  | stringContent => simpa [Valued, leafFaults] using Escape.escaped_iff (content rfl)
  | _ => simp [Valued, leafFaults]

theorem utf8Length_pos {w : List Char} (h : w ≠ []) : 0 < utf8Length w := by
  cases w with
  | nil => exact absurd rfl h
  | cons c w => exact Nat.lt_of_lt_of_le c.utf8Size_pos (Nat.le_add_right _ _)

theorem LeafAt.offset_mem (h : LeafAt source l) (he : Offence l e) :
    l.span.start ≤ e.offset ∧ e.offset < l.span.stop := by
  obtain @⟨r, span, w, marks, content⟩ := h
  have length := marks.length_eq
  cases he with
  | integer range =>
    have some : 0 < utf8Length w := utf8Length_pos fun none => range (by simp [none, Decimal.value, Decimal.natValue])
    simp only [ParseTree.span, ParseError.offset, ParseError.span]
    omega
  | @escape _ k m c before letter =>
    have some : 0 < utf8Length ('\\' :: c :: m) := utf8Length_pos (by simp)
    rw [utf8Length_append] at length
    simp only [ParseTree.span, ParseError.offset, ParseError.span]
    omega

theorem LeafAt.pairwise (h : LeafAt source l) : (leafFaults l).Pairwise fun e e' => e.offset < e'.offset := by
  obtain @⟨r, span, w, marks, content⟩ := h
  unfold leafFaults
  split
  · split
    · exact .nil
    · exact List.pairwise_singleton _ _
  · exact List.pairwise_map.2 (Escape.pairwise_faults _ _)
  · exact .nil

theorem pairwise_flatMap_leafFaults {ls : List (ParseTree Rule)} {a b : Nat} (h : ∀ l ∈ ls, LeafAt source l)
    (order : InOrder a (ls.map ParseTree.span) b) :
    (ls.flatMap leafFaults).Pairwise fun e e' => e.offset < e'.offset := by
  refine List.pairwise_flatMap.2 ⟨fun l hl => (h l hl).pairwise, ?_⟩
  refine (List.pairwise_map.1 order.pairwise).imp_of_mem fun {l l'} hl hl' apart e he e' he' => ?_
  have before := (h l hl).offset_mem ((h l hl).mem_faults_iff.1 he)
  have after := (h l' hl').offset_mem ((h l' hl').mem_faults_iff.1 he')
  omega

end Places

theorem Span.Marks.points {source : String} {s : Span} {w : List Char} (h : s.Marks source.toList w)
    {e : ParseError} {text : String} (he : e.diagnostic.labels = [s.label text]) :
    e.Points source (String.ofList w) := by
  have length := h.length_eq
  obtain ⟨before, after, same, rfl⟩ := h
  have label : Span.label ⟨utf8Length before, utf8Length (before ++ w)⟩ text
      = ⟨text, utf8Length before, utf8Length w⟩ := by
    simp [Span.label, Span.length, utf8Length_append]
  unfold ParseError.Points
  rw [String.toList_ofList]
  exact ⟨before, after, text, same, he.trans (congrArg (fun l => [l]) label)⟩

theorem Offence.points {source : String} {l : ParseTree Rule} {e : ParseError} (h : Offence l e)
    (hl : LeafAt source.toList l) : ∃ found, e.found? = some found ∧ e.Points source found := by
  obtain @⟨r, span, w, marks, content⟩ := hl
  cases h with
  | integer range => exact ⟨_, rfl, marks.points rfl⟩
  | @escape _ k m c hk letter =>
    have part : span.Marks source.toList (k ++ ['\\', c] ++ m) := by
      rw [List.append_assoc]
      exact marks
    exact ⟨_, rfl, part.slice.points rfl⟩

theorem eq_or_offset_lt {e e' : ParseError} {es : List ParseError}
    (order : (e :: es).Pairwise fun e e' => e.offset < e'.offset) (h : e' ∈ e :: es) :
    e' = e ∨ e.offset < e'.offset := by
  obtain rfl | h := List.mem_cons.1 h
  · exact .inl rfl
  · exact .inr ((List.pairwise_cons.1 order).1 e' h)

/-- The faults of the statements of a source: those of its leaves, which are its offences, in their order. -/
theorem statements_faults {source : List Char} {ts : List (ParseTree Rule)} {a b : Nat}
    (h : ∀ t ∈ ts, Grown source t) (order : InOrder a (ts.map ParseTree.span) b) :
    (∀ l ∈ ts.flatMap ParseTree.leaves, LeafAt source l) ∧
      ts.flatMap ParseTree.faults = (ts.flatMap ParseTree.leaves).flatMap leafFaults ∧
      (ts.flatMap ParseTree.faults).Pairwise fun e e' => e.offset < e'.offset := by
  have leaves : ∀ l ∈ ts.flatMap ParseTree.leaves, LeafAt source l := by
    intro l hl
    obtain ⟨t, ht, hl⟩ := List.mem_flatMap.1 hl
    exact (h t ht).leaves.1 l hl
  have faults : ts.flatMap ParseTree.faults = (ts.flatMap ParseTree.leaves).flatMap leafFaults :=
    List.flatMap_assoc.symm
  refine ⟨leaves, faults, ?_⟩
  rw [faults]
  exact pairwise_flatMap_leafFaults leaves (inOrder_leaves order fun t ht => (h t ht).leaves.2)

/-- A source that the grammar matches is read if and only if all literals in it have values, and otherwise the error
is that of the offence with the smallest offset, on whose text its label is. What the grammar does not match is
reported as such. -/
theorem Program.parse_literals (source : String) :
    (∃ (t : ParseTree Rule) (d : Cursor),
      Matches grammar .spaced (.rule .program) ⟨0, source.toList⟩ (some ([t], d)) ∧
      (∀ l ∈ t.leaves, LeafAt source.toList l) ∧
      ((∃ p, Program.parse source = .ok p) ↔ ∀ l ∈ t.leaves, Valued l) ∧
      ∀ e, Program.parse source = .error e →
        (∃ l ∈ t.leaves, Offence l e) ∧
        (∀ l ∈ t.leaves, ∀ e', Offence l e' → e' = e ∨ e.offset < e'.offset) ∧
        ∃ found, e.found? = some found ∧ e.Points source found) ∨
    (Matches grammar .spaced (.rule .program) ⟨0, source.toList⟩ none ∧
      ∃ offset expected, Program.parse source = .error (.noMatch offset expected)) := by
  obtain ⟨ts, last, d, matched, grown, order, parsed⟩ | failed := Program.parse_cases source
  · obtain ⟨placed, faults, sorted⟩ := statements_faults (fun t ht => (grown t ht).1) order
    have leaves : (ParseTree.branch Rule.program ⟨0, source.utf8ByteSize⟩
        (ts ++ [.branch .endOfInput last []])).leaves = ts.flatMap ParseTree.leaves := by
      simp [ParseTree.leaves_branch]
    have reading : FailsFirst (Program.parse source) (ts.flatMap ParseTree.faults) := by
      rw [parsed]
      exact (stmtsOf_failsFirst fun t ht => (grown t ht).1.readsFirst.stmt (grown t ht).2).bind_pure
    have valued : (∀ l ∈ ts.flatMap ParseTree.leaves, Valued l) ↔ ts.flatMap ParseTree.faults = [] := by
      rw [faults, List.flatMap_eq_nil_iff]
      exact forall₂_congr fun l hl => (placed l hl).valued_iff
    have offences : ∀ e, e ∈ ts.flatMap ParseTree.faults ↔ ∃ l ∈ ts.flatMap ParseTree.leaves, Offence l e := by
      intro e
      rw [faults, List.mem_flatMap]
      exact exists_congr fun l => and_congr_right fun hl => (placed l hl).mem_faults_iff
    refine .inl ⟨_, d, matched, leaves ▸ placed, ?_, fun e he => ?_⟩
    · rw [leaves, valued]
      cases parse : Program.parse source with
      | ok p =>
        rw [parse] at reading
        exact ⟨fun _ => reading, fun _ => ⟨p, rfl⟩⟩
      | error e =>
        rw [parse] at reading
        obtain ⟨more, same⟩ := reading
        simp [same]
    · rw [he] at reading
      obtain ⟨more, same⟩ := reading
      rw [same] at sorted offences
      rw [leaves]
      obtain ⟨l, hl, offence⟩ := (offences e).1 List.mem_cons_self
      exact ⟨⟨l, hl, offence⟩, fun k hk e' he' => eq_or_offset_lt sorted ((offences e').2 ⟨k, hk, he'⟩),
        offence.points (placed l hl)⟩
  · exact .inr failed

/-- The escape comes before the integer, and offsets count bytes. -/
example : Program.parse "s := \"é\\q\" + 3000000000;" = .error (.invalidEscape ⟨8, 10⟩ "\\q") := by cbv

end ImpWasm
