import ImpWasm.Proofs.Lang.Operands
import ImpWasm.Lang.Parser
set_option autoImplicit false

namespace ImpWasm

open Peg (Mode ParseTree)
open Grammar (Matches Reads Refuses)
open Cursor (isBlank)

variable {r : Rule} {a a' : Option Bool} {b b' : Bool} {cs : List Char}

theorem lexes_gap (b : Bool) (cs : List Char) :
    ∃ g, cs = g ++ Mode.spaced.trim cs ∧ Lexes (Mode.spaced.trim cs) b g b := by
  -- inside a comment the text begins with the rest of it
  have split : ∀ (inside : Bool) (pos : Nat), ∃ k g,
      cs = k ++ (g ++ (Cursor.skipFrom inside pos cs).rest) ∧ (inside = false → k = []) ∧
      (∀ c ∈ k, c ≠ '\n') ∧
      (inside = true → ∀ c ∈ (g ++ (Cursor.skipFrom inside pos cs).rest).head?, c = '\n') ∧
      Lexes (Cursor.skipFrom inside pos cs).rest b g b := by
    intro inside pos
    fun_induction Cursor.skipFrom inside pos cs with
    | case1 => exact ⟨[], [], rfl, fun _ => rfl, by simp, by simp, .nil⟩
    | case2 pos c cs ih =>
      obtain ⟨k, g, hcs, empty, plain, ends, lexes⟩ := ih
      by_cases hc : c = '\n'
      · subst hc
        obtain rfl := empty rfl
        refine ⟨[], '\n' :: g, by simpa using hcs, by simp, by simp, by simp, ?_⟩
        exact .cons (k := ['\n']) (.blank rfl) lexes
      · exact ⟨c :: k, g, by simpa using hcs, by simp, List.forall_mem_cons.2 ⟨hc, plain⟩,
          fun _ => ends (by simpa using hc), lexes⟩
    | case3 inside pos c cs hi hc ih =>
      obtain ⟨k, g, hcs, empty, -, -, lexes⟩ := ih
      obtain rfl := empty rfl
      refine ⟨[], c :: g, by simpa using hcs, by simp, by simp, by simp [hi], ?_⟩
      exact .cons (k := [c]) (.blank hc) lexes
    | case4 inside pos hi ds _ ih =>
      obtain ⟨k, g, hcs, -, plain, ends, lexes⟩ := ih
      refine ⟨[], '/' :: '/' :: k ++ g, by simpa using hcs, by simp, by simp, by simp [hi], ?_⟩
      exact .cons (.comment plain (ends rfl)) lexes
    | case5 inside pos c cs hi hc _ => exact ⟨[], [], rfl, by simp, by simp, by simp [hi], .nil⟩
  obtain ⟨k, g, same, empty, -, -, lexes⟩ := split false 0
  obtain rfl := empty rfl
  exact ⟨g, same, lexes⟩

/-- From `cs` to `ds` the text consists of whole pieces, and what is known of the place after it. -/
def LexesTo (b : Bool) (a : Option Bool) (cs ds : List Char) : Prop :=
  ∃ y b', cs = y ++ ds ∧ Lexes ds b y b' ∧ Agrees a b'

theorem LexesTo.refl (h : Agrees a b) (cs : List Char) : LexesTo b a cs cs := ⟨[], b, rfl, .nil, h⟩

theorem LexesTo.trans {ds es : List Char} (h : LexesTo b a cs ds)
    (k : ∀ f, Agrees a f → LexesTo f a' ds es) : LexesTo b a' cs es := by
  obtain ⟨y, f, rfl, hy, agrees⟩ := h
  obtain ⟨z, f', rfl, hz, agrees'⟩ := k f agrees
  exact ⟨y ++ z, f', (List.append_assoc _ _ _).symm, hy.append hz, agrees'⟩

theorem LexesTo.mono {ds : List Char} (h : LexesTo b a cs ds) (k : ∀ f, Agrees a f → Agrees a' f) :
    LexesTo b a' cs ds := by
  obtain ⟨y, f, rfl, hy, agrees⟩ := h
  exact ⟨y, f, rfl, hy, k f agrees⟩

theorem Lexes.to_trim {y : List Char} (h : Lexes cs b y b') (ha : Agrees a b') :
    LexesTo b a (y ++ cs) (Mode.spaced.trim cs) := by
  obtain ⟨g, same, gap⟩ := lexes_gap b' cs
  refine ⟨y ++ g, b', by rw [List.append_assoc, ← same], .append (by rwa [← same]) gap, ha⟩

section Tokens

theorem exists_digits (cs : List Char) : ∃ k t, cs = k ++ t ∧ (∀ x ∈ k, isDigit x = true) ∧
    ∀ x ∈ t.head?, isDigit x = false := by
  induction cs with
  | nil => exact ⟨[], [], rfl, by simp, by simp⟩
  | cons c cs ih =>
    by_cases hc : isDigit c = true
    · obtain ⟨k, t, rfl, hk, ht⟩ := ih
      exact ⟨c :: k, t, rfl, List.forall_mem_cons.2 ⟨hc, hk⟩, ht⟩
    · exact ⟨[], c :: cs, rfl, by simp, by simpa using hc⟩

theorem lexes_word (hr : WordRule r) {pos : Nat} {d : Cursor} {ts : List (ParseTree Rule)}
    (h : Matches grammar .spaced (.rule r) ⟨pos, cs⟩ (some (ts, d))) :
    LexesTo b r.leaves cs (Mode.spaced.trim d.rest) := by
  cases ha : r.accepts (leadWord cs) with
  | false => cases h.unique (hr.refuses cs ha pos)
  | true =>
    obtain ⟨rest, same, stop⟩ := exists_leadWord cs
    obtain ⟨c, l, lead, start⟩ := hr.start _ ha
    have inside : ∀ x ∈ leadWord cs, isIdentChar x = true := List.all_eq_true.1 List.all_takeWhile
    rw [lead] at same inside ha
    subst same
    obtain ⟨us, e, read, -, trimmed⟩ := hr.reads _ rest ha stop pos
    cases h.unique read
    rw [trimmed]
    have token : Token rest b (c :: l) (isOperandWord (c :: l)) :=
      .word start (List.forall_mem_cons.1 inside).2 stop
    exact (Piece.token token).lexes.to_trim (hr.leaves _ ha)

theorem lexes_int {pos : Nat} {d : Cursor} {ts : List (ParseTree Rule)}
    (h : Matches grammar .spaced (.rule .intLiteral) ⟨pos, cs⟩ (some (ts, d))) :
    LexesTo false (some true) cs (Mode.spaced.trim d.rest) := by
  have read {k rest : List Char} (token : Token rest false k true)
      (hk : Reads grammar .spaced (.rule .intLiteral) k rest [.leaf .intLiteral {} k])
      (same : cs = k ++ rest) : LexesTo false (some true) cs (Mode.spaced.trim d.rest) := by
    subst same
    obtain ⟨us, e, read, -, trimmed⟩ := hk pos
    cases h.unique read
    rw [trimmed]
    exact (Piece.token token).lexes.to_trim (agrees_some.2 rfl)
  cases cs with
  | nil => cases h.unique (Grammar.refuses_nil grammarBounds rfl pos)
  | cons c cs =>
    obtain ⟨k, t, rfl, hk, ht⟩ := exists_digits cs
    by_cases hc : isDigit c = true
    · exact read (.number hc hk ht) (reads_number (by simp) hc hk ht) rfl
    · by_cases hs : c = '-'
      · subst hs
        cases k with
        | nil => cases h.unique (refuses_minus ht pos)
        | cons c k =>
          obtain ⟨hc, hk⟩ := List.forall_mem_cons.1 hk
          exact read (.negative hc hk ht) (reads_negative (by simp) hc hk ht) rfl
      · cases h.unique (refuses_int hs (by simpa using hc) pos)

theorem content_of_item {c d : Cursor} {ts : List (ParseTree Rule)}
    (h : Matches grammar .lexeme contentItem c (some (ts, d))) :
    ∃ u, c.rest = u ++ d.rest ∧ ∀ k, Content k → Content (u ++ k) := by
  cases h with
  | left h =>
    cases h with
    | @one _ _ _ x cs hx =>
      simp only [Bool.and_eq_true, bne_iff_ne] at hx
      exact ⟨[x], rfl, fun k hk => .plain hx.1 hx.2 hk⟩
  | right _ h =>
    cases h with
    | @seq _ _ _ _ e _ _ _ hs hx =>
      cases hs with
      | text hs _ =>
        have next : (Mode.lexeme.skip e).rest = e.rest := rfl
        generalize Mode.lexeme.skip e = f at hx next
        cases hx with
        | @one _ _ _ x cs _ =>
          refine ⟨['\\', x], ?_, fun k hk => .escaped hk⟩
          rw [hs, ← next]
          rfl

theorem content_of_matches {m : Mode} {p : Peg Rule} {c : Cursor}
    {o : Option (List (ParseTree Rule) × Cursor)} (h : Matches grammar m p c o) (hm : m = .lexeme)
    (hp : p = .star contentItem) : ∀ x ∈ o, ∃ k, Content k ∧ c.rest = k ++ x.2.rest := by
  induction h with
  | starNone _ =>
    intro x hx
    cases hx
    exact ⟨[], .nil, rfl⟩
  | starLast ha _ =>
    subst hm
    cases hp
    intro x hx
    cases hx
    obtain ⟨u, same, content⟩ := content_of_item ha
    exact ⟨u ++ [], content [] .nil, by rw [same, List.append_nil]⟩
  | starMore ha _ _ _ _ ihs =>
    subst hm
    cases hp
    intro x hx
    cases hx
    obtain ⟨u, same, content⟩ := content_of_item ha
    obtain ⟨k, hk, rest⟩ := ihs rfl rfl _ rfl
    exact ⟨u ++ k, content k hk, by rw [same, List.append_assoc, ← rest]; rfl⟩
  | _ => cases hp

theorem matches_string {c d : Cursor} {ts : List (ParseTree Rule)}
    (h : Matches grammar .spaced (.rule .stringLiteral) c (some (ts, d))) :
    ∃ k e f, Content k ∧ c.Past ['"'] e ∧ e.Past k f ∧ f.Past ['"'] d ∧
      ts = [.branch .stringLiteral ⟨c.pos, d.pos⟩ [.leaf .stringContent ⟨e.pos, f.pos⟩ k]] := by
  cases h with
  | @rule _ _ _ _ us h =>
    have body : Matches grammar .token (.seq (.text ['"']) (.seq (.rule .stringContent) (.text ['"']))) c
      (some (us, d)) := h
    cases body with
    | @seq _ _ _ _ e _ _ _ opens inner =>
      cases opens with
      | text opens opensPos =>
        cases inner with
        | @seq _ _ _ _ f _ _ _ inside closes =>
          obtain ⟨w, past⟩ := inside.leads.past
          cases inside with
          | @rule _ _ _ _ vs inside =>
            obtain ⟨k, content, same⟩ := content_of_matches inside rfl rfl _ rfl
            obtain rfl : w = k := List.append_cancel_right (past.text.symm.trans same)
            cases closes with
            | text closes closesPos =>
              have leaf : grammar.tree .stringContent e f vs = .leaf .stringContent ⟨e.pos, f.pos⟩ w :=
                congrArg (ParseTree.leaf _ _) past.takeBytes
              refine ⟨w, e, f, content, ⟨opens, opensPos⟩, past, ⟨closes, closesPos⟩, ?_⟩
              change [ParseTree.branch Rule.stringLiteral _ [grammar.tree .stringContent e f vs]] = _
              rw [leaf]

theorem lexes_string {pos : Nat} {d : Cursor} {ts : List (ParseTree Rule)}
    (h : Matches grammar .spaced (.rule .stringLiteral) ⟨pos, cs⟩ (some (ts, d))) :
    LexesTo b (some true) cs (Mode.spaced.trim d.rest) := by
  obtain ⟨k, e, f, content, opens, inside, closes, -⟩ := matches_string h
  have text : cs = '"' :: (k ++ ['"']) ++ d.rest := by
    have first : cs = '"' :: e.rest := opens.text
    simp [first, inside.text, closes.text]
  rw [text]
  exact (Piece.token (.string content)).lexes.to_trim (agrees_some.2 rfl)

end Tokens

section Matches

theorem trim_slashes_ne (cs : List Char) : Mode.spaced.trim ('/' :: '/' :: cs) ≠ '/' :: '/' :: cs := by
  intro same
  have short : (Cursor.skipFrom true 2 cs).rest.length ≤ cs.length :=
    (Cursor.leads_skipFrom true 2 cs).length_le
  have rest : Mode.spaced.trim ('/' :: '/' :: cs) = (Cursor.skipFrom true 2 cs).rest :=
    congrArg Cursor.rest (Cursor.skipFrom_slashes 0 cs)
  rw [← rest, same, List.length_cons, List.length_cons] at short
  omega

theorem lexes_text {u : List Char} (hf : (Peg.text u).fits a = true) (hb : Agrees a b)
    (ht : Mode.spaced.trim (u ++ cs) = u ++ cs) :
    LexesTo b ((Peg.text u).leaves a) (u ++ cs) (Mode.spaced.trim cs) := by
  simp only [Peg.fits, Bool.and_eq_true, Bool.or_eq_true, bne_iff_ne, beq_iff_eq] at hf
  obtain ⟨symbol, minus⟩ := hf
  obtain ⟨c, rfl, mark⟩ | ⟨-, c, d, rfl, mark, mark', slash, sign⟩ := isSymbol_cases symbol
  · have token : Token cs b [c] (c == ')') := by
      refine .mark mark ?_ ?_
      · rintro rfl x hx rfl
        cases cs with
        | nil => cases hx
        | cons y cs =>
          cases hx
          exact trim_slashes_ne cs ht
      · rintro rfl rfl
        obtain other | rfl := minus
        · exact absurd rfl other
        · cases agrees_some.1 hb
    exact (Piece.token token).lexes.to_trim (agrees_some.2 (by simp))
  · have digit : isDigit d = false := not_isDigit_of_not_isIdentChar (isMark_iff.1 mark').2.1
    have first : Token ([d] ++ cs) b [c] (c == ')') :=
      .mark mark (fun _ => by simpa using slash) fun _ _ => by simpa using digit
    have second : Token cs (c == ')') [d] (d == ')') :=
      .mark mark' (fun hs => absurd hs slash) fun hs => absurd hs sign
    have both : Lexes cs b ([c] ++ [d]) (d == ')') := .cons (.token first) (Piece.token second).lexes
    exact both.to_trim (agrees_some.2 (by simp))

theorem lexes_lexeme (hk : r.kind ≠ .plain) (hf : (Peg.rule r).fits a = true) (hb : Agrees a b) {pos : Nat}
    {d : Cursor} {ts : List (ParseTree Rule)}
    (h : Matches grammar .spaced (.rule r) ⟨pos, cs⟩ (some (ts, d))) :
    LexesTo b r.leaves cs (Mode.spaced.trim d.rest) := by
  obtain ⟨outer, wanted⟩ := Peg.agrees_wants hf hb
  rcases wordRule hk outer with rfl | rfl | word
  · obtain rfl := agrees_some.1 wanted
    exact lexes_int h
  · exact lexes_string h
  · exact lexes_word word h

/-- What an expression that fits its place reads consists of whole pieces. -/
theorem lexes_of_matches {m : Mode} {p : Peg Rule} {c : Cursor}
    {o : Option (List (ParseTree Rule) × Cursor)} (h : Matches grammar m p c o) (hm : m = .spaced)
    (hf : p.fits a = true) (hb : Agrees a b) (ht : Mode.spaced.trim c.rest = c.rest) :
    ∀ x ∈ o, LexesTo b (p.leaves a) c.rest (Mode.spaced.trim x.2.rest) := by
  -- By induction on the match: each part begins where blanks were skipped, and ends where they are skipped next.
  induction h generalizing a b with
  | empty | atEnd | starNone | not =>
    intro x hx
    cases hx
    rw [ht]
    exact .refl hb _
  | noOpt =>
    intro x hx
    cases hx
    rw [ht]
    exact .refl hb.right _
  | noText | noOne | notAtEnd | noRule | noLeft | noRight | noNot => simp
  | one => cases hf
  | text h hp =>
    intro x hx
    cases hx
    rw [h] at ht ⊢
    exact lexes_text hf hb ht
  | @rule m r c d ts h ih =>
    subst hm
    intro x hx
    cases hx
    by_cases hk : r.kind = .plain
    · obtain ⟨fits, leaves⟩ := r.fits_body hk
      have read : LexesTo b (r.body.leaves r.wants) c.rest (Mode.spaced.trim d.rest) :=
        ih (enter_plain hk) fits (Peg.agrees_wants hf hb).2 ht _ rfl
      rw [leaves] at read
      exact read
    · exact lexes_lexeme hk hf hb h.rule
  | @seq m p q c d e _ _ ha hc iha ihc =>
    subst hm
    intro x hx
    cases hx
    simp only [Peg.fits, Bool.and_eq_true] at hf
    have first := iha rfl hf.1 hb ht _ rfl
    refine first.trans fun f hf' => ?_
    have second := ihc rfl hf.2 hf' (by rw [Mode.rest_skip, Mode.trim_trim]) _ rfl
    rw [Mode.rest_skip] at second
    exact second
  | left _ iha =>
    intro x hx
    simp only [Peg.fits, Bool.and_eq_true] at hf
    exact (iha hm hf.1 hb ht x hx).mono fun _ => Agrees.left
  | right _ _ _ ihc =>
    intro x hx
    simp only [Peg.fits, Bool.and_eq_true] at hf
    exact (ihc hm hf.2 hb ht x hx).mono fun _ => Agrees.right
  | opt _ iha =>
    intro x hx
    exact (iha hm hf hb ht x hx).mono fun _ => Agrees.left
  | starLast _ _ iha _ =>
    intro x hx
    simp only [Peg.fits, Bool.and_eq_true, beq_iff_eq] at hf
    have read := iha hm hf.1 hb ht x hx
    rw [hf.2] at read
    exact read
  | starMore _ _ _ iha _ ihs =>
    subst hm
    intro x hx
    cases hx
    have fits := hf
    simp only [Peg.fits, Bool.and_eq_true, beq_iff_eq] at hf
    have first := iha rfl hf.1 hb ht _ rfl
    rw [hf.2] at first
    refine first.trans fun f hf' => ?_
    have more := ihs rfl fits hf' (by rw [Mode.rest_skip, Mode.trim_trim]) _ rfl
    rw [Mode.rest_skip] at more
    exact more

theorem matches_of_parseTree {source : String} {t : ParseTree Rule} (h : parseTree r source = .ok t) :
    ∃ d, Matches grammar .spaced (.rule r) ⟨0, source.toList⟩ (some ([t], d)) := by
  have run := Grammar.parse_matches grammarBounds r source.toList
  simp only [parseTree] at h
  split at h
  · rename_i u d ho
    rw [ho] at run
    cases h
    exact ⟨d, run⟩
  · cases h

/-- A text for which a rule for whole texts gives a tree consists of whole pieces. -/
theorem lexes_of_parseTree {q : Peg Rule} (hk : r.kind = .plain) (hr : r.wants = some false)
    (hb : r.body = .seq .empty (.seq q (.rule .endOfInput))) {source : String} {t : ParseTree Rule}
    (h : parseTree r source = .ok t) : ∃ b, Lexes [] false source.toList b := by
  obtain ⟨d, run⟩ := matches_of_parseTree h
  have fits := (r.fits_body hk).1
  simp only [hb, hr, Peg.fits, Peg.leaves, Bool.and_eq_true] at fits
  generalize [t] = ts at run
  cases run with
  | @rule _ _ _ _ us run =>
    have body : Matches grammar .spaced (.seq .empty (.seq q (.rule .endOfInput))) ⟨0, source.toList⟩
        (some (us, d)) := by
      rw [← hb, ← enter_plain hk]
      exact run
    cases body with
    | seq start inner =>
      cases start
      cases inner with
      | @seq _ _ _ _ e _ _ _ hq last =>
        have finished : Mode.spaced.trim e.rest = [] := by
          rw [← Mode.rest_skip]
          cases last with
          | rule last =>
            cases last with
            | atEnd done => exact done
        have read := lexes_of_matches hq rfl fits.2.1 (agrees_some.2 rfl)
          (by rw [Mode.rest_skip, Mode.trim_trim]) _ rfl
        rw [Mode.rest_skip, finished] at read
        obtain ⟨y, b, same, lexes, -⟩ := read
        obtain ⟨g, text, gap⟩ := lexes_gap false source.toList
        rw [same] at text gap
        rw [text, List.append_nil]
        exact ⟨b, .append gap lexes⟩

end Matches

end ImpWasm
