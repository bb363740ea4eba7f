import ImpWasm.Proofs.Peg.Reading
set_option autoImplicit false

/-!
Where in a source the parts of a match stand. A span marks the text between two of the source's characters; the
trees that an expression yields are apart and in the order of the source. What a match begins and ends with is read
off the expression.
-/
namespace ImpWasm

theorem utf8Length_toList (s : String) : utf8Length s.toList = s.utf8ByteSize := by
  have bytes : ∀ cs : List Char, utf8Length cs = (String.ofList cs).utf8ByteSize := by
    intro cs
    induction cs with
    | nil => rfl
    | cons c cs ih =>
      have head : String.ofList (c :: cs) = String.singleton c ++ String.ofList cs := by simp
      rw [head, String.utf8ByteSize_append, String.utf8ByteSize_singleton, ← ih, utf8Length]
  rw [bytes, String.ofList_toList]

/-- The bytes of the span are those of the text, which stands in the source. -/
def Span.Marks (s : Span) (source w : List Char) : Prop :=
  ∃ before after, source = before ++ w ++ after ∧ s = ⟨utf8Length before, utf8Length (before ++ w)⟩

/-- The spans are apart, each is before the next, and all are between two offsets. -/
def InOrder : Nat → List Span → Nat → Prop
  | a, [], b => a ≤ b
  | a, s :: ss, b => a ≤ s.start ∧ s.start ≤ s.stop ∧ InOrder s.stop ss b

section Marks

variable {s t : Span} {source v w : List Char}

theorem Span.Marks.length_eq (h : s.Marks source w) : s.stop = s.start + utf8Length w := by
  obtain ⟨before, after, -, rfl⟩ := h
  exact utf8Length_append before w

theorem Span.Marks.slice {x y : List Char} (h : s.Marks source (x ++ w ++ y)) :
    Span.Marks ⟨s.start + utf8Length x, s.start + utf8Length x + utf8Length w⟩ source w := by
  obtain ⟨before, after, rfl, rfl⟩ := h
  refine ⟨before ++ x, y ++ after, by simp, ?_⟩
  simp only [utf8Length_append]

theorem Cursor.Past.marks {c d : Cursor} (h : c.Past w d) (reached : Cursor.Leads ⟨0, source⟩ c) :
    Span.Marks ⟨c.pos, d.pos⟩ source w := by
  obtain ⟨before, text, pos⟩ := reached
  have start : c.pos = utf8Length before := by simpa using pos
  refine ⟨before, d.rest, ?_, ?_⟩
  · rw [List.append_assoc, ← h.text]
    exact text
  · rw [h.pos, start, utf8Length_append]

/-- Of two texts that both begin a source, the one with fewer bytes begins the other. -/
theorem prefix_of_utf8Length_le {x y : List Char} (hx : x <+: source) (hy : y <+: source)
    (h : utf8Length x ≤ utf8Length y) : x <+: y := by
  obtain hxy | ⟨z, rfl⟩ := List.prefix_or_prefix_of_prefix hx hy
  · exact hxy
  · rw [utf8Length_append] at h
    cases z with
    | nil => simp
    | cons c z =>
      have size := Char.utf8Size_pos c
      simp only [utf8Length] at h
      omega

theorem Span.Marks.merge (hs : s.Marks source v) (ht : t.Marks source w) (h : s.stop ≤ t.start) :
    ∃ x, (s.merge t).Marks source x := by
  obtain ⟨before, after, text, rfl⟩ := hs
  obtain ⟨before', after', text', rfl⟩ := ht
  have first : before ++ v <+: source := ⟨after, text.symm⟩
  have second : before' <+: source := ⟨w ++ after', by rw [text', List.append_assoc]⟩
  obtain ⟨between, rfl⟩ := prefix_of_utf8Length_le first second h
  exact ⟨v ++ between ++ w, before, after', by rw [text']; simp, by simp [Span.merge]⟩

end Marks

namespace InOrder

variable {a a' b b' : Nat} {s : Span} {ss us : List Span}

theorem le (h : InOrder a ss b) : a ≤ b := by
  induction ss generalizing a with
  | nil => exact h
  | cons s ss ih => exact Nat.le_trans (Nat.le_trans h.1 h.2.1) (ih h.2.2)

theorem mono (h : InOrder a ss b) (ha : a' ≤ a) (hb : b ≤ b') : InOrder a' ss b' := by
  induction ss generalizing a a' with
  | nil => exact Nat.le_trans ha (Nat.le_trans h hb)
  | cons s ss ih => exact ⟨Nat.le_trans ha h.1, h.2.1, ih h.2.2 Nat.le.refl⟩

theorem append {m : Nat} (h : InOrder a ss m) (k : InOrder m us b) : InOrder a (ss ++ us) b := by
  induction ss generalizing a with
  | nil => exact k.mono h Nat.le.refl
  | cons s ss ih => exact ⟨h.1, h.2.1, ih h.2.2⟩

theorem split (h : InOrder a (ss ++ us) b) : ∃ m, InOrder a ss m ∧ InOrder m us b := by
  induction ss generalizing a with
  | nil => exact ⟨a, Nat.le.refl, h⟩
  | cons s ss ih =>
    obtain ⟨m, first, second⟩ := ih h.2.2
    exact ⟨m, ⟨h.1, h.2.1, first⟩, second⟩

theorem of_mem (h : InOrder a ss b) (hs : s ∈ ss) : a ≤ s.start ∧ s.start ≤ s.stop ∧ s.stop ≤ b := by
  induction ss generalizing a with
  | nil => cases hs
  | cons t ss ih =>
    obtain ⟨low, length, rest⟩ := h
    obtain rfl | hs := List.mem_cons.1 hs
    · exact ⟨low, length, rest.le⟩
    · obtain ⟨after, inside⟩ := ih rest hs
      exact ⟨by omega, inside⟩

theorem pairwise (h : InOrder a ss b) : ss.Pairwise fun s t => s.stop ≤ t.start := by
  induction ss generalizing a with
  | nil => exact .nil
  | cons s ss ih => exact .cons (fun t ht => (h.2.2.of_mem ht).1) (ih h.2.2)

end InOrder

theorem Cursor.Leads.pos_le {c d : Cursor} (h : c.Leads d) : c.pos ≤ d.pos := by
  obtain ⟨w, -, pos⟩ := h
  omega

namespace Grammar

open Peg

variable {R : Type} {g : Grammar R} {m : Mode}

theorem span_tree (r : R) (c d : Cursor) (ts : List (ParseTree R)) :
    (g.tree r c d ts).span = ⟨c.pos, d.pos⟩ := by
  unfold tree
  split <;> rfl

theorem Matches.inOrder_of_mem {p : Peg R} {c : Cursor} {o : Option (List (ParseTree R) × Cursor)}
    (h : Matches g m p c o) : ∀ x ∈ o, InOrder c.pos (x.1.map ParseTree.span) x.2.pos := by
  induction h with
  | empty | noOpt | starNone | not | atEnd => simp [InOrder]
  | noText | noOne | notAtEnd | noRule | noLeft | noRight | noNot => simp
  | text h hp => simp [InOrder, hp]
  | one h => simp [InOrder]
  | @rule m r c d ts h ih =>
    have moved : c.pos ≤ d.pos := h.leads.pos_le
    simp only [Option.mem_def, Option.some.injEq, forall_eq', trees]
    split
    · exact moved
    · simpa [InOrder, span_tree] using moved
  | seq ha hb iha ihb =>
    simp only [Option.mem_def, Option.some.injEq, forall_eq', List.map_append] at iha ihb ⊢
    exact iha.append (ihb.mono (Mode.leads_skip _ _).pos_le Nat.le.refl)
  | left ha iha => exact iha
  | right ha hb iha ihb => exact ihb
  | opt ha iha => exact iha
  | starLast ha hn iha ihn => exact iha
  | starMore ha hx hs iha ihx ihs =>
    simp only [Option.mem_def, Option.some.injEq, forall_eq', List.map_append] at iha ihs ⊢
    exact iha.append (ihs.mono (Mode.leads_skip _ _).pos_le Nat.le.refl)

theorem Matches.inOrder {p : Peg R} {c d : Cursor} {ts : List (ParseTree R)}
    (h : Matches g m p c (some (ts, d))) : InOrder c.pos (ts.map ParseTree.span) d.pos :=
  h.inOrder_of_mem _ rfl

end Grammar

namespace Peg

variable {R : Type}

/-- What is read begins with a character of the kind `P`. Of the rules it is known which do, and which may match
nothing. -/
def Begins (P : Char → Prop) (rules : R → Prop) (empties : R → Bool) : Peg R → Prop
  | .empty | .endOfInput | .not _ => True
  | .text w => ∀ x ∈ w.head?, P x
  | .one p => ∀ x, p x = true → P x
  | .rule r => rules r
  | .seq a b => Begins P rules empties a ∧ (nullable empties a = true → Begins P rules empties b)
  | .alt a b => Begins P rules empties a ∧ Begins P rules empties b
  | .opt a | .star a => Begins P rules empties a

/-- Something is read, and its last character is of the kind `P`. -/
def Ends (P : Char → Prop) (rules : R → Prop) : Peg R → Prop
  | .text w => ∃ x ∈ w.getLast?, P x
  | .rule r => rules r
  | .seq _ b => Ends P rules b
  | .alt a b => Ends P rules a ∧ Ends P rules b
  | _ => False

end Peg

namespace Grammar

open Peg

variable {R : Type} {g : Grammar R} {P : Char → Prop} {rules : R → Prop} {m : Mode}

/-- Where there is nothing to skip, a match that begins with a character of some kind reads such a character or
nothing. -/
theorem Matches.begins_of_mem (b : g.Bounds) (bodies : ∀ r, rules r → (g.body r).Begins P rules b.empties)
    {p : Peg R} {c : Cursor} {o : Option (List (ParseTree R) × Cursor)} (h : Matches g m p c o)
    (hp : p.Begins P rules b.empties) (hc : (m.skip c).rest = c.rest) :
    ∀ x ∈ o, x.2.rest = c.rest ∨ ∃ y ∈ c.rest.head?, P y := by
  induction h with
  | empty | noOpt | starNone | not | atEnd => simp
  | noText | noOne | notAtEnd | noRule | noLeft | noRight | noNot => simp
  | @text m w c d h _ =>
    simp only [Option.mem_def, Option.some.injEq, forall_eq', h]
    cases w with
    | nil => exact .inl rfl
    | cons y w => exact .inr ⟨y, rfl, hp y rfl⟩
  | @one m p pos x cs h =>
    simp only [Option.mem_def, Option.some.injEq, forall_eq']
    exact .inr ⟨x, rfl, hp x h⟩
  | @rule m r c d ts h ih =>
    simp only [Option.mem_def, Option.some.injEq, forall_eq'] at ih ⊢
    refine ih (bodies r hp) ?_
    -- the rule's own mode skips as its caller's does, or not at all
    cases hk : g.kind r <;> simp_all [Mode.enter, Mode.skip]
  | @seq m p q c d e _ _ ha hb iha ihb =>
    simp only [Option.mem_def, Option.some.injEq, forall_eq'] at iha ihb ⊢
    obtain same | first := iha hp.1 hc
    · have idle : (m.skip d).rest = c.rest := by rw [m.rest_skip_congr same, hc]
      -- the left part read nothing, so it may be empty, and the right one begins at the same text
      have empty : nullable b.empties p = true := by
        cases full : nullable b.empties p with
        | true => rfl
        | false =>
          have shorter := ha.shorter b full
          rw [same] at shorter
          exact absurd shorter (Nat.lt_irrefl _)
      rw [← idle]
      exact ihb (hp.2 empty) (by rw [m.rest_skip_congr idle, hc, idle])
    · exact .inr first
  | left ha iha => exact iha hp.1 hc
  | right ha hb iha ihb => exact ihb hp.2 hc
  | opt ha iha => exact iha hp hc
  | starLast ha hn iha ihn => exact iha hp hc
  | @starMore m p c d e _ _ _ ha hx hs iha ihx ihs =>
    simp only [Option.mem_def, Option.some.injEq, forall_eq'] at iha ihs ⊢
    obtain same | first := iha hp hc
    · have idle : (m.skip d).rest = c.rest := by rw [m.rest_skip_congr same, hc]
      rw [← idle]
      exact ihs hp (by rw [m.rest_skip_congr idle, hc, idle])
    · exact .inr first

theorem Matches.ends_of_mem (bodies : ∀ r, rules r → (g.body r).Ends P rules) {p : Peg R} {c : Cursor}
    {o : Option (List (ParseTree R) × Cursor)} (h : Matches g m p c o) (hp : p.Ends P rules) :
    ∀ x ∈ o, ∃ k y, P y ∧ c.rest = k ++ y :: x.2.rest := by
  induction h with
  | empty | one | atEnd | opt | noOpt | starNone | starLast | starMore | not => cases hp
  | noText | noOne | notAtEnd | noRule | noLeft | noRight | noNot => simp
  | @text m w c d h _ =>
    obtain ⟨y, last, hy⟩ := hp
    obtain ⟨k, rfl⟩ := List.getLast?_eq_some_iff.1 last
    simp only [Option.mem_def, Option.some.injEq, forall_eq']
    exact ⟨k, y, hy, by simpa using h⟩
  | @rule m r c d ts h ih =>
    simp only [Option.mem_def, Option.some.injEq, forall_eq'] at ih ⊢
    exact ih (bodies r hp)
  | @seq m p q c d e _ _ ha hb iha ihb =>
    simp only [Option.mem_def, Option.some.injEq, forall_eq'] at ihb ⊢
    obtain ⟨k, y, hy, text⟩ := ihb hp
    obtain ⟨v, first, -⟩ := ha.leads.trans (m.leads_skip d)
    exact ⟨v ++ k, y, hy, by rw [first, text, List.append_assoc]⟩
  | left ha iha => exact iha hp.1
  | right ha hb iha ihb => exact ihb hp.2

end Grammar

end ImpWasm
