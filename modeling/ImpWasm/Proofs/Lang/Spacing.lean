import ImpWasm.Proofs.Lang.Lexing
import ImpWasm.Proofs.Lang.Spanless
set_option autoImplicit false

/-!
Matching a text with a spacing put between two of its tokens. Up to the cut both runs see the same
tokens, since none reaches over it; after the cut they see the same text. So each expression of the
grammar fares alike in both, in failed attempts as well as in successful ones. Main statement: layout
does not matter, a text is read the same, up to spans, with a spacing at any place that is not inside a
token or a comment.
-/
namespace ImpWasm

open Peg (Mode ParseTree)
open Peg.ParseTree (of_bare_branch of_bareAll_cons of_bareAll_singleton)
open Grammar (Matches Alike)

variable {v w x k u t : List Char} {b b' b'' : Bool} {a : Option Bool}

/-- Two cursors in front of the same tokens, with what is known of the place. -/
def NearAfter (v w : List Char) (a : Option Bool) (d e : Cursor) : Prop :=
  ∃ b, Agrees a b ∧ Near v w b (Mode.spaced.trim d.rest) (Mode.spaced.trim e.rest)

theorem NearAfter.skip {d e : Cursor} (h : NearAfter v w a d e) :
    ∃ b, Agrees a b ∧ Near v w b (Mode.spaced.skip d).rest (Mode.spaced.skip e).rest := by
  obtain ⟨b, hb, hn⟩ := h
  refine ⟨b, hb, ?_⟩
  rw [Mode.rest_skip, Mode.rest_skip]
  exact hn

theorem NearAfter.left {a' : Option Bool} {d e : Cursor} (h : NearAfter v w a d e) :
    NearAfter v w (meet a a') d e := by
  obtain ⟨b, hb, hn⟩ := h
  exact ⟨b, hb.left, hn⟩

theorem NearAfter.right {a' : Option Bool} {d e : Cursor} (h : NearAfter v w a' d e) :
    NearAfter v w (meet a a') d e := by
  obtain ⟨b, hb, hn⟩ := h
  exact ⟨b, hb.right, hn⟩

theorem nearAfter_of_rest_eq (a : Option Bool) {d e : Cursor} (h : e.rest = d.rest) :
    NearAfter v w a d e := by
  obtain ⟨b, hb⟩ := exists_agrees a
  exact ⟨b, hb, h ▸ .same⟩

section Symbols

theorem Token.of_mark {c : Char} {l : List Char} (h : Token t b (c :: l) b') (hc : isMark c = true) :
    (l = [] ∧ b' = (c == ')')) ∨ (c = '-' ∧ b = false ∧ ∃ d m, l = d :: m ∧ isDigit d = true) := by
  have outside := (isMark_iff.1 hc).2.1
  cases h with
  | word hs _ _ =>
    rw [isIdentChar_of_isIdentStart hs] at outside
    cases outside
  | number hd _ _ =>
    rw [isIdentChar_of_isDigit hd] at outside
    cases outside
  | negative hd _ _ => exact .inr ⟨rfl, rfl, _, _, rfl, hd⟩
  | string _ => cases hc
  | mark _ _ _ => exact .inl ⟨rfl, rfl⟩

theorem Lexes.of_mark {c : Char} (h : Lexes v b (c :: x) b') (hc : isMark c = true) (hs : c ≠ '/')
    (hm : c ≠ '-') : Lexes v (c == ')') x b' := by
  generalize same : c :: x = y at h
  cases h with
  | nil => cases same
  | @cons _ _ _ k y hk hy =>
    cases k with
    | nil => exact absurd rfl hk.ne_nil
    | cons d l =>
      cases same
      cases hk with
      | token hk =>
        obtain ⟨rfl, rfl⟩ | ⟨rfl, -⟩ := hk.of_mark hc
        · exact hy
        · exact absurd rfl hm
      | blank hb =>
        rw [(isMark_iff.1 hc).1] at hb
        cases hb
      | comment _ _ => exact absurd rfl hs

/-- A symbol stands in front of both runs or of neither. -/
theorem symbol_or (hk : Token (x ++ v) b k b') (hx : Lexes v b' x b'') (cut : ¬ Parts (k ++ x) v)
    (hw : Spacing w) (hu : isSymbol u = true) (minus : u = ['-'] → b = true) :
    (∃ y, k ++ x = u ++ y ∧ Lexes v (u.getLast? == some ')') y b'') ∨
      ¬ u <+: k ++ (x ++ v) ∧ ¬ u <+: k ++ (x ++ (w ++ v)) := by
  cases k with
  | nil => exact absurd rfl hk.ne_nil
  | cons e l =>
    obtain ⟨c, rfl, mark⟩ | ⟨pair, c, d, rfl, mark, mark', slash, sign⟩ := isSymbol_cases hu
    · by_cases he : c = e
      · subst he
        obtain ⟨rfl, rfl⟩ | ⟨rfl, rfl, -⟩ := hk.of_mark mark
        · exact .inl ⟨x, rfl, by simpa using hx⟩
        · cases minus rfl
      · exact .inr ⟨by simp [he], by simp [he]⟩
    · by_cases he : c = e
      · subst he
        obtain ⟨rfl, -⟩ | ⟨rfl, -, f, m, rfl, digit⟩ := hk.of_mark mark
        · cases x with
          | nil =>
            obtain ⟨g, w, rfl, blank⟩ := hw.first
            have apart : d ≠ g := by
              rintro rfl
              rw [(isMark_iff.1 mark').1] at blank
              cases blank
            refine .inr ⟨?_, by simp [apart]⟩
            cases v with
            | nil => simp
            | cons f v =>
              have other : d ≠ f := by
                rintro rfl
                exact cut ⟨c, rfl, d, rfl, pair⟩
              simp [other]
          | cons f x =>
            by_cases hf : d = f
            · subst hf
              exact .inl ⟨x, rfl, by simpa using hx.of_mark mark' slash sign⟩
            · exact .inr ⟨by simp [hf], by simp [hf]⟩
        · have other : d ≠ f := by
            rintro rfl
            have digit' := isIdentChar_of_isDigit digit
            rw [(isMark_iff.1 mark').2.1] at digit'
            cases digit'
          exact .inr ⟨by simp [other], by simp [other]⟩
      · exact .inr ⟨by simp [he], by simp [he]⟩

end Symbols

section Terminals

variable {pos pos' : Nat} {cs cs' : List Char} {o : Option (List (ParseTree Rule) × Cursor)}

/-- In front of the same text an expression fares alike. -/
theorem matches_same {p : Peg Rule} (h : Matches grammar .spaced p ⟨pos, cs⟩ o) (pos' : Nat)
    (a : Option Bool) :
    ∃ o', Matches grammar .spaced p ⟨pos', cs⟩ o' ∧ Alike (NearAfter v w a) o o' := by
  obtain ⟨o', h', alike⟩ := h.shift (show (Cursor.mk pos' cs).rest = cs from rfl)
  exact ⟨o', h', alike.mono fun _ _ => nearAfter_of_rest_eq a⟩

theorem Near.text (hn : Near v w b cs cs') (hw : Spacing w) (hf : (Peg.text u).fits a = true)
    (hb : Agrees a b) (h : Matches grammar .spaced (.text u) ⟨pos, cs⟩ o) :
    ∃ o', Matches grammar .spaced (.text u) ⟨pos', cs'⟩ o' ∧
      Alike (NearAfter v w ((Peg.text u).leaves a)) o o' := by
  cases hn with
  | same => exact matches_same h pos' _
  | @apart k x b' b'' hk hx cut =>
    simp only [Peg.fits, Bool.and_eq_true, Bool.or_eq_true, bne_iff_ne, beq_iff_eq] at hf
    have minus : u = ['-'] → b = true := by
      intro hu
      obtain other | rfl := hf.2
      · exact absurd hu other
      · exact agrees_some.1 hb
    obtain ⟨y, same, hy⟩ | ⟨no, no'⟩ := symbol_or hk hx cut hw hf.1 minus
    · have first : Matches grammar .spaced (.text u) ⟨pos, k ++ (x ++ v)⟩
          (some ([], ⟨pos + utf8Length u, y ++ v⟩)) :=
        .text (by simp only [← List.append_assoc, same]) rfl
      have second : Matches grammar .spaced (.text u) ⟨pos', k ++ (x ++ (w ++ v))⟩
          (some ([], ⟨pos' + utf8Length u, y ++ (w ++ v)⟩)) :=
        .text (by simp only [← List.append_assoc, same]) rfl
      cases h.unique first
      exact ⟨_, second, .some rfl ⟨_, agrees_some.2 rfl, hy.near_trim (fun h => cut (same ▸ h.append_left u)) hw⟩⟩
    · cases h.unique (.noText no)
      exact ⟨_, .noText no', .none⟩

theorem Near.lexeme {r : Rule} (hn : Near v w b cs cs') (hw : Spacing w) (hk : r.kind ≠ .plain)
    (hf : (Peg.rule r).fits a = true) (hb : Agrees a b)
    (h : Matches grammar .spaced (.rule r) ⟨pos, cs⟩ o) :
    ∃ o', Matches grammar .spaced (.rule r) ⟨pos', cs'⟩ o' ∧ Alike (NearAfter v w r.leaves) o o' := by
  obtain ⟨outer, wanted⟩ := Peg.agrees_wants hf hb
  cases hn with
  | same => exact matches_same h pos' _
  | @apart k x b' b'' token hx cut =>
    obtain ⟨accepted, read, agrees⟩ | ⟨rejected, refused⟩ := token.fares hk outer
    · obtain ⟨-, read', -⟩ | ⟨rejected, -⟩ := (token.spread hw).fares hk outer
      · obtain ⟨ts, d, first, ht, hd⟩ := read pos
        obtain ⟨us, e, second, hu, he⟩ := read' pos'
        cases h.unique first
        refine ⟨_, second, .some (hu.trans ht.symm) ⟨b', agrees, ?_⟩⟩
        rw [hd, he]
        exact hx.near_trim (fun h => cut (h.append_left k)) hw
      · rw [accepted] at rejected
        cases rejected
    · obtain ⟨accepted, -⟩ | ⟨-, refused'⟩ := (token.spread hw).fares hk outer
      · rw [accepted] at rejected
        cases rejected
      · cases h.unique (refused wanted pos)
        exact ⟨_, refused' wanted pos', .none⟩

theorem Near.endOfInput (hn : Near v w b cs cs') (h : Matches grammar .spaced .endOfInput ⟨pos, cs⟩ o) :
    ∃ o', Matches grammar .spaced .endOfInput ⟨pos', cs'⟩ o' ∧ Alike (NearAfter v w a) o o' := by
  cases hn with
  | same => exact matches_same h pos' _
  | apart hk _ _ =>
    cases h.unique (.notAtEnd (by simp [hk.ne_nil]))
    exact ⟨_, .notAtEnd (by simp [hk.ne_nil]), .none⟩

end Terminals

theorem exists_rule_of_plain {r : Rule} (hk : r.kind = .plain) (c : Cursor) {c' : Cursor}
    {o o' : Option (List (ParseTree Rule) × Cursor)} (h : Matches grammar .spaced r.body c' o')
    (ho : Alike (NearAfter v w r.leaves) o o') :
    ∃ o', Matches grammar .spaced (.rule r) c' o' ∧ Alike (NearAfter v w r.leaves)
      (o.map fun x => (grammar.trees .spaced r c x.2 x.1, x.2)) o' := by
  cases ho with
  | none => exact ⟨_, .noRule (by rw [enter_plain hk]; exact h), .none⟩
  | some ht hn =>
    refine ⟨_, .rule (by rw [enter_plain hk]; exact h), .some ?_ hn⟩
    simp [Grammar.trees, Grammar.tree, show grammar.kind r = .plain from hk, ParseTree.bareAll,
      ParseTree.bare, ht]

/-- An expression that fits its place fares alike in both runs. -/
theorem matches_near {m : Mode} {p : Peg Rule} {c c' : Cursor}
    {o : Option (List (ParseTree Rule) × Cursor)} (h : Matches grammar m p c o) (hm : m = .spaced)
    (hw : Spacing w) (hf : p.fits a = true) (hb : Agrees a b) (hn : Near v w b c.rest c'.rest) :
    ∃ o', Matches grammar .spaced p c' o' ∧ Alike (NearAfter v w (p.leaves a)) o o' := by
  -- By induction on the match in the first source: each part leaves the second source near what the next part needs.
  induction h generalizing a b c' with
  | empty => exact ⟨_, .empty, .some rfl ⟨b, hb, hn.trim hw⟩⟩
  | text h hp =>
    subst hm
    exact hn.text hw hf hb (.text h hp)
  | noText h =>
    subst hm
    exact hn.text hw hf hb (.noText h)
  | one h => cases hf
  | noOne h => cases hf
  | atEnd h =>
    subst hm
    exact hn.endOfInput (.atEnd h)
  | notAtEnd h =>
    subst hm
    exact hn.endOfInput (.notAtEnd h)
  | @rule m r c d ts h ih =>
    subst hm
    -- a plain rule skips as its caller does; any other one is a lexeme, in which nothing was inserted
    by_cases hk : r.kind = .plain
    · obtain ⟨fits, leaves⟩ := r.fits_body hk
      obtain ⟨o', h', alike⟩ := ih (enter_plain hk) fits (Peg.agrees_wants hf hb).2 hn
      exact exists_rule_of_plain hk c h' (leaves ▸ alike)
    · exact hn.lexeme hw hk hf hb (.rule h)
  | @noRule m r c h ih =>
    subst hm
    by_cases hk : r.kind = .plain
    · obtain ⟨fits, leaves⟩ := r.fits_body hk
      obtain ⟨o', h', alike⟩ := ih (enter_plain hk) fits (Peg.agrees_wants hf hb).2 hn
      exact exists_rule_of_plain hk c h' (leaves ▸ alike)
    · exact hn.lexeme hw hk hf hb (.noRule h)
  | seq ha hc iha ihc =>
    subst hm
    simp only [Peg.fits, Bool.and_eq_true] at hf
    obtain ⟨_, ha', alike⟩ := iha rfl hf.1 hb hn
    cases alike with
    | some ht near =>
      obtain ⟨f, agrees, near⟩ := near.skip
      obtain ⟨_, hc', alike⟩ := ihc rfl hf.2 agrees near
      cases alike with
      | some hu near =>
        exact ⟨_, .seq ha' hc', .some (by simp only [ParseTree.bareAll_append, ht, hu]) near⟩
  | noLeft ha iha =>
    subst hm
    simp only [Peg.fits, Bool.and_eq_true] at hf
    obtain ⟨_, ha', alike⟩ := iha rfl hf.1 hb hn
    cases alike with
    | none => exact ⟨_, .noLeft ha', .none⟩
  | noRight ha hc iha ihc =>
    subst hm
    simp only [Peg.fits, Bool.and_eq_true] at hf
    obtain ⟨_, ha', alike⟩ := iha rfl hf.1 hb hn
    cases alike with
    | some ht near =>
      obtain ⟨f, agrees, near⟩ := near.skip
      obtain ⟨_, hc', alike⟩ := ihc rfl hf.2 agrees near
      cases alike with
      | none => exact ⟨_, .noRight ha' hc', .none⟩
  | left ha iha =>
    subst hm
    simp only [Peg.fits, Bool.and_eq_true] at hf
    obtain ⟨_, ha', alike⟩ := iha rfl hf.1 hb hn
    cases alike with
    | some ht near => exact ⟨_, .left ha', .some ht near.left⟩
  | right ha hc iha ihc =>
    subst hm
    simp only [Peg.fits, Bool.and_eq_true] at hf
    obtain ⟨_, ha', alike⟩ := iha rfl hf.1 hb hn
    cases alike with
    | none =>
      obtain ⟨_, hc', alike⟩ := ihc rfl hf.2 hb hn
      exact ⟨_, .right ha' hc', alike.mono fun _ _ => NearAfter.right⟩
  | opt ha iha =>
    subst hm
    obtain ⟨_, ha', alike⟩ := iha rfl hf hb hn
    cases alike with
    | some ht near => exact ⟨_, .opt ha', .some ht near.left⟩
  | noOpt ha iha =>
    subst hm
    obtain ⟨_, ha', alike⟩ := iha rfl hf hb hn
    cases alike with
    | none => exact ⟨_, .noOpt ha', .some rfl ⟨b, hb.right, hn.trim hw⟩⟩
  | starNone ha iha =>
    subst hm
    simp only [Peg.fits, Bool.and_eq_true] at hf
    obtain ⟨_, ha', alike⟩ := iha rfl hf.1 hb hn
    cases alike with
    | none => exact ⟨_, .starNone ha', .some rfl ⟨b, hb, hn.trim hw⟩⟩
  | starLast ha hx iha ihx =>
    subst hm
    simp only [Peg.fits, Bool.and_eq_true, beq_iff_eq] at hf
    obtain ⟨_, ha', alike⟩ := iha rfl hf.1 hb hn
    -- an item leaves what an item needs, so the next one fits its place as well
    rw [hf.2] at alike
    cases alike with
    | some ht near =>
      obtain ⟨f, agrees, next⟩ := near.skip
      obtain ⟨_, hx', alike⟩ := ihx rfl hf.1 agrees next
      cases alike with
      | none => exact ⟨_, .starLast ha' hx', .some ht near⟩
  | starMore ha hx hs iha ihx ihs =>
    subst hm
    have fits := hf
    simp only [Peg.fits, Bool.and_eq_true, beq_iff_eq] at hf
    obtain ⟨_, ha', alike⟩ := iha rfl hf.1 hb hn
    rw [hf.2] at alike
    cases alike with
    | some ht near =>
      obtain ⟨f, agrees, next⟩ := near.skip
      obtain ⟨_, hx', alike⟩ := ihx rfl hf.1 agrees next
      cases alike with
      | some =>
        obtain ⟨_, hs', alike⟩ := ihs rfl fits agrees next
        cases alike with
        | some hu near =>
          exact ⟨_, .starMore ha' hx' hs', .some (by simp only [ParseTree.bareAll_append, ht, hu]) near⟩
  | not ha iha =>
    subst hm
    obtain ⟨_, ha', alike⟩ := iha rfl hf hb hn
    cases alike with
    | none => exact ⟨_, .not ha', .some rfl ⟨b, hb, hn.trim hw⟩⟩
  | noNot ha iha =>
    subst hm
    obtain ⟨_, ha', alike⟩ := iha rfl hf hb hn
    cases alike with
    | some => exact ⟨_, .noNot ha', .none⟩

section Whole

variable {r : Rule} {q : Peg Rule} {pos pos' : Nat} {o : Option (List (ParseTree Rule) × Cursor)}

theorem matches_start (hu : Lexes v false u b) (cut : ¬ Parts u v) (hw : Spacing w) (hf : q.fits (some false) = true)
    (h : Matches grammar .spaced (.seq .empty q) ⟨pos, u ++ v⟩ o) :
    ∃ o', Matches grammar .spaced (.seq .empty q) ⟨pos', u ++ (w ++ v)⟩ o' ∧
      Alike (NearAfter v w (q.leaves (some false))) o o' := by
  have near : Near v w false (Mode.spaced.skip ⟨pos, u ++ v⟩).rest
      (Mode.spaced.skip ⟨pos', u ++ (w ++ v)⟩).rest := by
    rw [Mode.rest_skip, Mode.rest_skip]
    exact hu.near_trim cut hw
  cases h with
  | noLeft ha => cases ha
  | seq ha hq =>
    cases ha
    obtain ⟨_, hq', alike⟩ := matches_near hq rfl hw hf (agrees_some.2 rfl) near
    cases alike with
    | some ht hn => exact ⟨_, .seq .empty hq', .some ht hn⟩
  | noRight ha hq =>
    cases ha
    obtain ⟨_, hq', alike⟩ := matches_near hq rfl hw hf (agrees_some.2 rfl) near
    cases alike with
    | none => exact ⟨_, .noRight .empty hq', .none⟩

theorem matches_whole (pos' : Nat) (hk : r.kind = .plain) (hr : r.wants = some false) (hb : r.body = .seq .empty q)
    (hu : Lexes v false u b) (cut : ¬ Parts u v) (hw : Spacing w)
    (h : Matches grammar .spaced (.rule r) ⟨pos, u ++ v⟩ o) :
    ∃ o', Matches grammar .spaced (.rule r) ⟨pos', u ++ (w ++ v)⟩ o' ∧
      Alike (NearAfter v w r.leaves) o o' := by
  obtain ⟨fits, leaves⟩ := r.fits_body hk
  have body {i : Option (List (ParseTree Rule) × Cursor)}
      (hi : Matches grammar (Mode.spaced.enter (grammar.kind r)) r.body ⟨pos, u ++ v⟩ i) :
      ∃ i', Matches grammar .spaced r.body ⟨pos', u ++ (w ++ v)⟩ i' ∧
        Alike (NearAfter v w r.leaves) i i' := by
    rw [← leaves, hr, hb]
    rw [enter_plain hk, hb] at hi
    rw [hr, hb] at fits
    exact matches_start hu cut hw (by simpa [Peg.fits, Peg.leaves] using fits) hi
  cases h with
  | rule h =>
    obtain ⟨i', h', alike⟩ := body h
    exact exists_rule_of_plain hk _ h' alike
  | noRule h =>
    obtain ⟨i', h', alike⟩ := body h
    exact exists_rule_of_plain hk ⟨pos, u ++ v⟩ h' alike

end Whole

section Sources

variable {u v w : String}

theorem parseTree_spaced {r : Rule} {q : Peg Rule} (hk : r.kind = .plain) (hr : r.wants = some false)
    (hb : r.body = .seq .empty (.seq q (.rule .endOfInput)))
    (between : ¬ Inside false u.toList v.toList) (hw : Spacing w.toList) {t : ParseTree Rule}
    (h : parseTree r (u ++ v) = .ok t) : ∃ t', parseTree r (u ++ w ++ v) = .ok t' ∧ t'.bare = t.bare := by
  have lexes : ∃ b, Lexes v.toList false u.toList b := by
    obtain ⟨b, whole⟩ := lexes_of_parseTree hk hr hb h
    rw [String.toList_append] at whole
    exact whole.cut.resolve_right between
  obtain ⟨b, hu⟩ := lexes
  have cut : ¬ Parts u.toList v.toList := fun parts => between (.symbol hu parts)
  have run := Grammar.parse_matches grammarBounds r (u ++ v).toList
  simp only [parseTree] at h
  split at h
  · rename_i t d ho
    cases h
    rw [ho, String.toList_append] at run
    obtain ⟨_, matched, alike⟩ := matches_whole 0 hk hr hb hu cut hw run
    cases alike with
    | some ht _ =>
      obtain ⟨t', rfl, same⟩ := of_bareAll_singleton ht
      have outcome := Grammar.parse_eq_of_matches grammarBounds matched
      refine ⟨t', ?_, same⟩
      simp only [parseTree, String.toList_append, List.append_assoc, outcome]
  · cases h

/-- Where a text is read as a program or as an expression, it is read the same, up to spans, with a
spacing put at a place that is not inside a token or a comment. -/
theorem parse_spaced (between : ¬ Inside false u.toList v.toList) (hw : Spacing w.toList) :
    (∀ p, Program.parse (u ++ v) = .ok p →
      ∃ q, Program.parse (u ++ w ++ v) = .ok q ∧ q.bare = p.bare) ∧
    ∀ e, Expr.parse (u ++ v) = .ok e → ∃ f, Expr.parse (u ++ w ++ v) = .ok f ∧ f.bare = e.bare := by
  constructor
  · intro p hp
    simp only [Program.parse, bind_eq_ok] at hp
    obtain ⟨t, ht, hp⟩ := hp
    obtain ⟨t', ht', same⟩ := parseTree_spaced rfl rfl rfl between hw ht
    split at hp
    · rename_i span items
      simp only [bind_eq_ok, pure_eq_ok] at hp
      obtain ⟨ss, hss, rfl⟩ := hp
      obtain ⟨span', items', rfl, hitems⟩ := of_bare_branch same
      have kept : ParseTree.bareAll (items'.filter fun t => t.rule ≠ .endOfInput) =
          ParseTree.bareAll (items.filter fun t => t.rule ≠ .endOfInput) := by
        have commutes := ParseTree.bareAll_filter_rule fun r : Rule => decide (r ≠ .endOfInput)
        rw [commutes items', commutes items, hitems]
      obtain ⟨ss', hss', body⟩ := stmtsOf_spanless hss kept
      refine ⟨⟨ss', span'⟩, ?_, by simp [Program.bare, body]⟩
      simp only [Program.parse, bind_eq_ok]
      refine ⟨_, ht', ?_⟩
      simp only [bind_eq_ok, pure_eq_ok]
      exact ⟨ss', hss', rfl⟩
    · cases hp
  · intro e he
    simp only [Expr.parse, bind_eq_ok] at he
    obtain ⟨t, ht, he⟩ := he
    obtain ⟨t', ht', same⟩ := parseTree_spaced rfl rfl rfl between hw ht
    split at he
    · rename_i span x items
      obtain ⟨span', _, rfl, hitems⟩ := of_bare_branch same
      obtain ⟨y, items', rfl, hy, -⟩ := of_bareAll_cons hitems
      obtain ⟨f, hf, equal⟩ := exprOf_readFrom he y hy
      refine ⟨f, ?_, equal⟩
      simp only [Expr.parse, bind_eq_ok]
      exact ⟨_, ht', hf⟩
    · cases he

end Sources

/-- After a number the sign is an operator, so the place behind it is between two tokens. -/
theorem not_inside_subtraction : ¬ Inside false "1-".toList "2;".toList := by
  intro h
  have listed : Inside false ['1', '-'] ['2', ';'] := h
  generalize hu : ['1', '-'] = u at listed
  generalize hv : ['2', ';'] = v at listed
  cases listed with
  | symbol _ hs =>
    subst hu hv
    obtain ⟨c, hc, d, hd, pair⟩ := hs
    cases hc
    cases hd
    exact absurd pair (by decide)
  | @piece b' b'' x k l y hx hp hk hl =>
    obtain ⟨e, l, rfl⟩ := List.exists_cons_of_ne_nil hl
    obtain rfl : '2' = e := List.head_eq_of_cons_eq hv
    rcases x with _ | ⟨c, _ | ⟨d, x⟩⟩
    · obtain rfl : ['1', '-'] = k := hu
      cases hp with
      | token hp =>
        cases hp with
        | word hc _ _ => cases hc
        | number _ hk _ => exact absurd (hk '-' (by simp)) (by decide)
    · obtain ⟨rfl, rfl⟩ : '1' = c ∧ ['-'] = k := by simpa using hu
      have number : b' = true := by
        cases hx.piece_of_singleton with
        | token hk =>
          cases hk with
          | word hc _ _ => cases hc
          | number _ _ _ => rfl
          | mark hc _ _ => cases hc
        | blank hc => cases hc
      subst number
      cases hp with
      | token hp =>
        cases hp with
        | word hc _ _ => cases hc
        | number hc _ _ => cases hc
    · simp only [List.cons_append, List.cons.injEq, List.nil_eq, List.append_eq_nil_iff] at hu
      exact hk hu.2.2.2

theorem parse_spaced_subtraction :
    ¬ Inside false "1-".toList "2;".toList ∧ Spacing " // \n".toList ∧
      ∃ p q, Program.parse ("1-" ++ "2;") = .ok p ∧
        Program.parse ("1-" ++ " // \n" ++ "2;") = .ok q ∧ q.bare = p.bare := by
  have spacing : Spacing " // \n".toList :=
    ⟨.blank rfl (.comment (k := [' ']) (by simp) .nil), ' ', "// \n".toList, rfl, rfl⟩
  have read : (Program.parse ("1-" ++ "2;")).isOk = true := by decide +kernel
  cases hp : Program.parse ("1-" ++ "2;") with
  | error e =>
    rw [hp] at read
    cases read
  | ok p =>
    obtain ⟨q, hq, same⟩ := (parse_spaced not_inside_subtraction spacing).1 p hp
    exact ⟨not_inside_subtraction, spacing, p, q, rfl, hq, same⟩

end ImpWasm
