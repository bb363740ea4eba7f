import ImpWasm.Proofs.Peg.Matching
set_option autoImplicit false

/-!
Reading a known text. An expression reads `w` in front of `rest` if it matches there, wherever that
is, and yields the given trees up to their spans; blanks after the match may be left or skipped. What
reads a text is put together from what reads its parts and what refuses it.
-/
namespace ImpWasm

namespace Cursor

theorem skipFrom_comment (pos : Nat) (c : Char) (cs : List Char) :
    skipFrom true pos (c :: cs) = skipFrom (c != '\n') (pos + c.utf8Size) cs := by
  rw [skipFrom.eq_def]
  rfl

theorem skipFrom_blank (pos : Nat) {c : Char} (h : isBlank c = true) (cs : List Char) :
    skipFrom false pos (c :: cs) = skipFrom false (pos + c.utf8Size) cs := by
  rw [skipFrom.eq_def]
  simp [h]

theorem skipFrom_slashes (pos : Nat) (cs : List Char) :
    skipFrom false pos ('/' :: '/' :: cs) = skipFrom true (pos + 2) cs := by
  rw [skipFrom.eq_def]
  rfl

theorem skipFrom_solid (pos : Nat) {c : Char} {cs : List Char} (h : isBlank c = false)
    (hs : ∀ ds, c = '/' → cs = '/' :: ds → False) : skipFrom false pos (c :: cs) = ⟨pos, c :: cs⟩ := by
  rw [skipFrom.eq_def]
  simp [h]

theorem rest_skipFrom (b : Bool) (pos pos' : Nat) (cs : List Char) :
    (skipFrom b pos cs).rest = (skipFrom b pos' cs).rest := by
  fun_induction skipFrom b pos cs generalizing pos' with
  | case1 => rfl
  | case2 pos c cs ih => simpa [skipFrom_comment] using ih _
  | case3 b pos c cs hb hc ih =>
    simp only [Bool.not_eq_true] at hb
    simpa [hb, skipFrom_blank _ hc] using ih _
  | case4 b pos hb ds hc ih =>
    simp only [Bool.not_eq_true] at hb
    simpa [hb, skipFrom_slashes] using ih _
  | case5 b pos c cs hb hc hs =>
    simp only [Bool.not_eq_true] at hb hc
    rw [hb, skipFrom_solid pos' hc hs]

theorem skipFrom_rest_skipFrom (b : Bool) (pos pos' : Nat) (cs : List Char) :
    (skipFrom false pos' (skipFrom b pos cs).rest).rest = (skipFrom b pos cs).rest := by
  fun_induction skipFrom b pos cs with
  | case1 => rfl
  | case2 pos c cs ih => exact ih
  | case3 b pos c cs hb hc ih => exact ih
  | case4 b pos hc ds hb ih => exact ih
  | case5 b pos c cs hb hc hs =>
    simp only [Bool.not_eq_true] at hc
    rw [skipFrom_solid pos' hc hs]

/-- From one cursor to the other is the text `w`. -/
structure Past (c : Cursor) (w : List Char) (d : Cursor) : Prop where
  text : c.rest = w ++ d.rest
  pos : d.pos = c.pos + utf8Length w

theorem Leads.past {c d : Cursor} (h : c.Leads d) : ∃ w, c.Past w d := by
  obtain ⟨w, text, pos⟩ := h
  exact ⟨w, text, pos⟩

theorem Past.trans {c d e : Cursor} {v w : List Char} (h : c.Past v d) (k : d.Past w e) : c.Past (v ++ w) e :=
  ⟨by rw [h.text, k.text, List.append_assoc], by rw [k.pos, h.pos, utf8Length_append, Nat.add_assoc]⟩

theorem Past.unique {c d d' : Cursor} {w : List Char} (h : c.Past w d) (h' : c.Past w d') : d = d' :=
  ext (h.pos.trans h'.pos.symm) (List.append_cancel_left (h.text.symm.trans h'.text))

theorem Past.takeBytes {c d : Cursor} {w : List Char} (h : c.Past w d) :
    takeBytes (d.pos - c.pos) c.rest = w := by
  have width : d.pos - c.pos = utf8Length w := by rw [h.pos, Nat.add_sub_cancel_left]
  rw [width, h.text, takeBytes_utf8Length]

theorem Leads.takeBytes_append {c d : Cursor} (h : c.Leads d) :
    takeBytes (d.pos - c.pos) c.rest ++ d.rest = c.rest := by
  obtain ⟨w, past⟩ := h.past
  rw [past.takeBytes, past.text]

end Cursor

namespace Peg

variable {R : Type}

def Mode.trim (m : Mode) (cs : List Char) : List Char := (m.skip ⟨0, cs⟩).rest

theorem Mode.rest_skip (m : Mode) (c : Cursor) : (m.skip c).rest = m.trim c.rest := by
  cases m with
  | spaced => exact Cursor.rest_skipFrom false _ _ _
  | token => rfl
  | lexeme => rfl

theorem Mode.rest_skip_congr (m : Mode) {c d : Cursor} (h : d.rest = c.rest) :
    (m.skip d).rest = (m.skip c).rest := by rw [m.rest_skip, h, m.rest_skip]

@[simp] theorem Mode.trim_trim (m : Mode) (cs : List Char) : m.trim (m.trim cs) = m.trim cs := by
  cases m with
  | spaced => exact Cursor.skipFrom_rest_skipFrom false 0 0 cs
  | token => rfl
  | lexeme => rfl

@[simp] theorem Mode.trim_nil (m : Mode) : m.trim [] = [] := by
  cases m <;> rfl

theorem Mode.trim_blank {c : Char} (h : Cursor.isBlank c = true) (cs : List Char) :
    Mode.spaced.trim (c :: cs) = Mode.spaced.trim cs := by
  simp only [Mode.trim, Mode.skip, Cursor.skip, Cursor.skipFrom_blank _ h]
  exact Cursor.rest_skipFrom false _ _ cs

@[simp] theorem Mode.trim_space (cs : List Char) : Mode.spaced.trim (' ' :: cs) = Mode.spaced.trim cs :=
  Mode.trim_blank rfl cs

theorem Mode.skip_eq {m : Mode} {c : Cursor} {cs : List Char} (h : m.trim c.rest = cs) :
    m.skip c = ⟨(m.skip c).pos, cs⟩ := Cursor.ext rfl (by rw [m.rest_skip, h])

theorem Mode.trim_cons (m : Mode) {c : Char} (cs : List Char) (h : Cursor.isBlank c = false)
    (hs : c ≠ '/') : m.trim (c :: cs) = c :: cs := by
  cases m with
  | spaced =>
    have solid : Cursor.skipFrom false 0 (c :: cs) = ⟨0, c :: cs⟩ :=
      Cursor.skipFrom_solid 0 h fun _ hc => absurd hc hs
    exact congrArg Cursor.rest solid
  | token => rfl
  | lexeme => rfl

mutual

/-- A tree without its spans. -/
def ParseTree.bare : ParseTree R → ParseTree R
  | .leaf r _ w => .leaf r {} w
  | .branch r _ children => .branch r {} (ParseTree.bareAll children)

def ParseTree.bareAll : List (ParseTree R) → List (ParseTree R)
  | [] => []
  | t :: ts => t.bare :: ParseTree.bareAll ts

end

theorem ParseTree.bareAll_append (ts us : List (ParseTree R)) :
    bareAll (ts ++ us) = bareAll ts ++ bareAll us := by
  induction ts with
  | nil => rfl
  | cons t ts ih => simp [bareAll, ih]

theorem ParseTree.of_bare_leaf {t : ParseTree R} {r : R} {w : List Char} (h : t.bare = .leaf r {} w) :
    ∃ span, t = .leaf r span w := by
  cases t with
  | leaf r span w =>
    cases h
    exact ⟨span, rfl⟩
  | branch r span ts => cases h

theorem ParseTree.of_bare_branch {t : ParseTree R} {r : R} {us : List (ParseTree R)}
    (h : t.bare = .branch r {} us) : ∃ span ts, t = .branch r span ts ∧ bareAll ts = us := by
  cases t with
  | leaf r span w => cases h
  | branch r span ts =>
    cases h
    exact ⟨span, ts, rfl, rfl⟩

theorem ParseTree.of_bareAll_nil {ts : List (ParseTree R)} (h : bareAll ts = []) : ts = [] := by
  cases ts with
  | nil => rfl
  | cons t ts => cases h

theorem ParseTree.of_bareAll_cons {ts us : List (ParseTree R)} {u : ParseTree R}
    (h : bareAll ts = u :: us) : ∃ v vs, ts = v :: vs ∧ v.bare = u ∧ bareAll vs = us := by
  cases ts with
  | nil => cases h
  | cons t ts =>
    cases h
    exact ⟨t, ts, rfl, rfl, rfl⟩

theorem ParseTree.of_bareAll_singleton {ts : List (ParseTree R)} {u : ParseTree R}
    (h : bareAll ts = [u]) : ∃ v, ts = [v] ∧ v.bare = u := by
  obtain ⟨v, vs, rfl, hv, hvs⟩ := of_bareAll_cons h
  obtain rfl := of_bareAll_nil hvs
  exact ⟨v, rfl, hv⟩

theorem ParseTree.of_bareAll_pair {ts : List (ParseTree R)} {u w : ParseTree R}
    (h : bareAll ts = [u, w]) : ∃ v x, ts = [v, x] ∧ v.bare = u ∧ x.bare = w := by
  obtain ⟨v, vs, rfl, hv, hvs⟩ := of_bareAll_cons h
  obtain ⟨x, rfl, hx⟩ := of_bareAll_singleton hvs
  exact ⟨v, x, rfl, hv, hx⟩

theorem ParseTree.rule_bare (t : ParseTree R) : t.bare.rule = t.rule := by
  cases t <;> rfl

mutual

theorem ParseTree.bare_bare : (t : ParseTree R) → t.bare.bare = t.bare
  | .leaf _ _ _ => rfl
  | .branch _ _ children => by simp only [bare, ParseTree.bareAll_bareAll children]

theorem ParseTree.bareAll_bareAll : (ts : List (ParseTree R)) → bareAll (bareAll ts) = bareAll ts
  | [] => rfl
  | t :: ts => by simp only [bareAll, t.bare_bare, ParseTree.bareAll_bareAll ts]

end

theorem ParseTree.bareAll_filter_rule (p : R → Bool) (ts : List (ParseTree R)) :
    bareAll (ts.filter fun t => p t.rule) = (bareAll ts).filter fun t => p t.rule := by
  induction ts with
  | nil => rfl
  | cons t ts ih =>
    simp only [bareAll, List.filter_cons, rule_bare]
    split
    · simp only [bareAll, ih]
    · exact ih

end Peg

namespace Grammar

open Peg

variable {R : Type} {g : Grammar R} {m : Mode} {a b : Peg R} {u v w rest : List Char}
  {ts us : List (ParseTree R)}

/-- The expression matches `w` in front of `rest`; what it yields is `ts` up to spans. -/
def Reads (g : Grammar R) (m : Mode) (p : Peg R) (w rest : List Char) (ts : List (ParseTree R)) : Prop :=
  ∀ pos, ∃ found d, g.Matches m p ⟨pos, w ++ rest⟩ (some (found, d)) ∧
    ParseTree.bareAll found = ts ∧ m.trim d.rest = m.trim rest

def Refuses (g : Grammar R) (m : Mode) (p : Peg R) (cs : List Char) : Prop :=
  ∀ pos, g.Matches m p ⟨pos, cs⟩ none

/-- The expression matches at the start of `cs` without reading anything. -/
def Idles (g : Grammar R) (m : Mode) (p : Peg R) (cs : List Char) : Prop :=
  ∀ pos, g.Matches m p ⟨pos, cs⟩ (some ([], ⟨pos, cs⟩))

namespace Refuses

theorem text {cs : List Char} (h : ¬ w <+: cs) : g.Refuses m (.text w) cs := fun _ => .noText h

theorem seq {cs : List Char} (h : g.Refuses m a cs) : g.Refuses m (.seq a b) cs :=
  fun pos => .noLeft (h pos)

theorem alt {cs : List Char} (h : g.Refuses m a cs) (k : g.Refuses m b cs) :
    g.Refuses m (.alt a b) cs := fun pos => .right (h pos) (k pos)

theorem rule {cs : List Char} {r : R} (h : g.Refuses (m.enter (g.kind r)) (g.body r) cs) :
    g.Refuses m (.rule r) cs := fun pos => .noRule (h pos)

theorem plain {cs : List Char} {r : R} (hk : g.kind r = .plain) (h : g.Refuses m (g.body r) cs) :
    g.Refuses m (.rule r) cs := by
  refine .rule ?_
  rw [hk]
  exact h

theorem lexeme {cs : List Char} {r : R} (hk : g.kind r = .lexeme) (h : g.Refuses .lexeme (g.body r) cs) :
    g.Refuses m (.rule r) cs := by
  refine .rule ?_
  rw [hk]
  exact h

theorem opt {cs : List Char} (h : g.Refuses m a cs) : g.Idles m (.opt a) cs := fun pos => .noOpt (h pos)

theorem star {cs : List Char} (h : g.Refuses m a cs) : g.Idles m (.star a) cs :=
  fun pos => .starNone (h pos)

theorem not {cs : List Char} (h : g.Refuses m a cs) : g.Idles m (.not a) cs := fun pos => .not (h pos)

end Refuses

namespace Reads

theorem text (w rest : List Char) : g.Reads m (.text w) w rest [] :=
  fun pos => ⟨[], ⟨pos + utf8Length w, rest⟩, .text rfl rfl, rfl, rfl⟩

theorem seq (ha : g.Reads m a u (w ++ rest) ts) (hw : m.trim (w ++ rest) = v ++ rest)
    (hb : g.Reads m b v rest us) : g.Reads m (.seq a b) (u ++ w) rest (ts ++ us) := by
  intro pos
  obtain ⟨xs, d, hd, rfl, he⟩ := ha pos
  obtain ⟨ys, e, hy, rfl, hr⟩ := hb (m.skip d).pos
  rw [← Mode.skip_eq (he.trans hw)] at hy
  refine ⟨xs ++ ys, e, ?_, ParseTree.bareAll_append xs ys, hr⟩
  rw [List.append_assoc]
  exact .seq hd hy

theorem seq_text (ha : g.Reads m a u (w ++ rest) ts) (hw : m.trim (w ++ rest) = w ++ rest) :
    g.Reads m (.seq a (.text w)) (u ++ w) rest ts := by
  simpa using ha.seq hw (.text w rest)

theorem text_seq (hw : m.trim (w ++ rest) = v ++ rest) (hb : g.Reads m b v rest ts) :
    g.Reads m (.seq (.text u) b) (u ++ w) rest ts := (Reads.text u _).seq hw hb

/-- A second part that reads nothing still lets the blanks in front of it be skipped. -/
theorem seq_idle (ha : g.Reads m a u rest ts) (hb : g.Idles m b (m.trim rest)) :
    g.Reads m (.seq a b) u rest ts := by
  intro pos
  obtain ⟨xs, d, hd, rfl, he⟩ := ha pos
  have hy := hb (m.skip d).pos
  rw [← Mode.skip_eq he] at hy
  refine ⟨xs ++ [], m.skip d, .seq hd hy, by simp, ?_⟩
  rw [m.rest_skip, he, m.trim_trim]

theorem idle_seq (ha : g.Idles m a (w ++ rest)) (hw : m.trim (w ++ rest) = w ++ rest)
    (hb : g.Reads m b w rest ts) : g.Reads m (.seq a b) w rest ts := by
  have none : g.Reads m a [] (w ++ rest) [] := fun pos => ⟨[], _, ha pos, rfl, rfl⟩
  simpa using none.seq hw hb

theorem left (h : g.Reads m a w rest ts) : g.Reads m (.alt a b) w rest ts := by
  intro pos
  obtain ⟨xs, d, hd, he⟩ := h pos
  exact ⟨xs, d, .left hd, he⟩

theorem right (ha : g.Refuses m a (w ++ rest)) (h : g.Reads m b w rest ts) :
    g.Reads m (.alt a b) w rest ts := by
  intro pos
  obtain ⟨xs, d, hd, he⟩ := h pos
  exact ⟨xs, d, .right (ha pos) hd, he⟩

theorem opt (h : g.Reads m a w rest ts) : g.Reads m (.opt a) w rest ts := by
  intro pos
  obtain ⟨xs, d, hd, he⟩ := h pos
  exact ⟨xs, d, .opt hd, he⟩

theorem starLast (h : g.Reads m a w rest ts) (hn : g.Refuses m a (m.trim rest)) :
    g.Reads m (.star a) w rest ts := by
  intro pos
  obtain ⟨xs, d, hd, rfl, he⟩ := h pos
  have hy := hn (m.skip d).pos
  rw [← Mode.skip_eq he] at hy
  exact ⟨xs, d, .starLast hd hy, rfl, he⟩

theorem starMore {x : List Char} {xs : List (ParseTree R)} {after : List Char}
    (ha : g.Reads m a u (w ++ rest) ts) (hw : m.trim (w ++ rest) = v ++ rest)
    (hx : g.Reads m a x after xs) (hv : v ++ rest = x ++ after)
    (hs : g.Reads m (.star a) v rest us) : g.Reads m (.star a) (u ++ w) rest (ts ++ us) := by
  intro pos
  obtain ⟨xs, d, hd, rfl, he⟩ := ha pos
  obtain ⟨ys, e, hy, rfl, hr⟩ := hs (m.skip d).pos
  obtain ⟨zs, f, hz, _⟩ := hx (m.skip d).pos
  rw [← Mode.skip_eq (he.trans hw)] at hy
  rw [← hv, ← Mode.skip_eq (he.trans hw)] at hz
  refine ⟨xs ++ ys, e, ?_, ParseTree.bareAll_append xs ys, hr⟩
  rw [List.append_assoc]
  exact .starMore hd hz hy

theorem plain {r : R} (hk : g.kind r = .plain) (hm : m ≠ .lexeme) (h : g.Reads m (g.body r) w rest ts) :
    g.Reads m (.rule r) w rest [.branch r {} ts] := by
  intro pos
  obtain ⟨xs, d, hd, rfl, he⟩ := h pos
  have entered : m.enter (g.kind r) = m := by rw [hk]; rfl
  refine ⟨_, d, .rule (by rw [entered]; exact hd), ?_, he⟩
  simp [trees, hm, tree, hk, ParseTree.bareAll, ParseTree.bare]

theorem token {r : R} (hk : g.kind r = .token) (hm : m ≠ .lexeme)
    (h : g.Reads .token (g.body r) w rest ts) : g.Reads m (.rule r) w rest [.branch r {} ts] := by
  intro pos
  obtain ⟨xs, d, hd, rfl, he⟩ := h pos
  have entered : m.enter (g.kind r) = .token := by rw [hk]; rfl
  have exact : d.rest = rest := he
  refine ⟨_, d, .rule (by rw [entered]; exact hd), ?_, by rw [exact]⟩
  simp [trees, hm, tree, hk, ParseTree.bareAll, ParseTree.bare]

theorem lexeme {r : R} (hk : g.kind r = .lexeme) (hm : m ≠ .lexeme)
    (h : g.Reads .lexeme (g.body r) w rest ts) : g.Reads m (.rule r) w rest [.leaf r {} w] := by
  intro pos
  obtain ⟨xs, d, hd, rfl, he⟩ := h pos
  have entered : m.enter (g.kind r) = .lexeme := by rw [hk]; rfl
  have exact : d.rest = rest := he
  have text : takeBytes (d.pos - pos) (w ++ rest) = w :=
    List.append_cancel_right (hd.leads.takeBytes_append.trans (by rw [exact]))
  refine ⟨_, d, .rule (by rw [entered]; exact hd), ?_, by rw [exact]⟩
  simp [trees, hm, tree, hk, ParseTree.bareAll, ParseTree.bare, text]

/-- Inside a lexeme a rule leaves no tree. -/
theorem nested {r : R} (hk : g.kind r = .lexeme) (h : g.Reads .lexeme (g.body r) w rest ts) :
    g.Reads .lexeme (.rule r) w rest [] := by
  intro pos
  obtain ⟨xs, d, hd, rfl, he⟩ := h pos
  have entered : Mode.lexeme.enter (g.kind r) = .lexeme := by rw [hk]; rfl
  exact ⟨_, d, .rule (by rw [entered]; exact hd), rfl, he⟩

end Reads

theorem Refuses.seq_right (ha : g.Reads m a u rest ts) (hb : g.Refuses m b (m.trim rest)) :
    g.Refuses m (.seq a b) (u ++ rest) := by
  intro pos
  obtain ⟨xs, d, hd, rfl, he⟩ := ha pos
  have hy := hb (m.skip d).pos
  rw [← Mode.skip_eq he] at hy
  exact .noRight hd hy

theorem Refuses.idle_seq {cs : List Char} (ha : g.Idles m a cs) (hb : g.Refuses m b (m.trim cs)) :
    g.Refuses m (.seq a b) cs := by
  have none : g.Reads m a [] cs [] := fun pos => ⟨[], _, ha pos, rfl, rfl⟩
  exact .seq_right none hb

theorem Idles.reads (h : g.Idles m a rest) : g.Reads m a [] rest [] :=
  fun pos => ⟨[], _, h pos, rfl, rfl⟩

theorem Refuses.of_not (h : g.Reads m a w rest ts) : g.Refuses m (.not a) (w ++ rest) := by
  intro pos
  obtain ⟨xs, d, hd, _⟩ := h pos
  exact .noNot hd

/-- Of alternatives that each read one text, the first whose text is there is taken. -/
theorem reads_or_refuses_alts {ι : Type} {f : ι → Peg R} {k : ι → List Char}
    {t : ι → List (ParseTree R)} (hr : ∀ i rest, g.Reads m (f i) (k i) rest (t i))
    (hn : ∀ i cs, ¬ k i <+: cs → g.Refuses m (f i) cs) (xs : List ι) (cs : List Char) :
    (∃ i rest, xs.find? (fun i => (k i).isPrefixOf cs) = some i ∧ cs = k i ++ rest ∧
      g.Reads m (alts (xs.map f)) (k i) rest (t i)) ∨
    xs.find? (fun i => (k i).isPrefixOf cs) = none ∧ g.Refuses m (alts (xs.map f)) cs := by
  induction xs with
  | nil => exact .inr ⟨rfl, fun _ => .noNot .empty⟩
  | cons i xs ih =>
    by_cases hi : k i <+: cs
    · obtain ⟨rest, rfl⟩ := hi
      refine .inl ⟨i, rest, by simp, rfl, ?_⟩
      cases xs with
      | nil => exact hr i rest
      | cons j xs => exact (hr i rest).left
    · have no : (k i).isPrefixOf cs = false :=
        Bool.eq_false_iff.2 fun h => hi (List.isPrefixOf_iff_prefix.1 h)
      simp only [List.find?_cons, no]
      cases xs with
      | nil => exact .inr ⟨rfl, hn i cs hi⟩
      | cons j xs =>
        obtain ⟨l, rest, hl, rfl, read⟩ | ⟨none, refused⟩ := ih
        · exact .inl ⟨l, rest, hl, rfl, read.right (hn i _ hi)⟩
        · exact .inr ⟨none, (hn i cs hi).alt refused⟩

theorem refuses_nil (b : g.Bounds) {r : R} (h : b.empties r = false) : g.Refuses m (.rule r) [] := by
  intro pos
  have matched : g.Matches m (.rule r) ⟨pos, []⟩ (g.outcome (b.rank r) 0 m false (.rule r) ⟨pos, []⟩) :=
    rule_matches b _ m false r _ (by simp) (by simp)
  cases ho : g.outcome (b.rank r) 0 m false (.rule r) ⟨pos, []⟩ with
  | none => exact ho ▸ matched
  | some x =>
    rw [ho] at matched
    have strict := matched.shorter b h
    simp at strict

section Offsets

/-- Outcomes with the same trees up to spans and with cursors that are related. -/
inductive Alike (near : Cursor → Cursor → Prop) :
    Option (List (ParseTree R) × Cursor) → Option (List (ParseTree R) × Cursor) → Prop
  | none : Alike near none none
  | some {ts us : List (ParseTree R)} {d e : Cursor}
    (ht : ParseTree.bareAll us = ParseTree.bareAll ts) (hn : near d e) :
    Alike near (some (ts, d)) (some (us, e))

theorem Alike.mono {near near' : Cursor → Cursor → Prop} {o o' : Option (List (ParseTree R) × Cursor)}
    (h : Alike near o o') (hn : ∀ d e, near d e → near' d e) : Alike near' o o' := by
  cases h with
  | none => exact .none
  | some ht hd => exact .some ht (hn _ _ hd)

theorem bareAll_trees (r : R) {c d c' d' : Cursor} {ts us : List (ParseTree R)} (h : c.Leads d)
    (h' : c'.Leads d') (hc : c'.rest = c.rest) (hd : d'.rest = d.rest)
    (ht : ParseTree.bareAll us = ParseTree.bareAll ts) :
    ParseTree.bareAll (g.trees m r c' d' us) = ParseTree.bareAll (g.trees m r c d ts) := by
  have whole : takeBytes (d'.pos - c'.pos) c'.rest ++ d.rest = takeBytes (d.pos - c.pos) c.rest ++ d.rest := by
    rw [h.takeBytes_append, ← hd, h'.takeBytes_append, hc]
  have text := List.append_cancel_right whole
  unfold trees tree
  split
  · rfl
  · split <;> simp [ParseTree.bareAll, ParseTree.bare, text, ht]

/-- How an expression fares depends on the text in front of the cursor, not on its offset. -/
theorem Matches.shift {p : Peg R} {c c' : Cursor} {o : Option (List (ParseTree R) × Cursor)}
    (h : Matches g m p c o) (hc : c'.rest = c.rest) :
    ∃ o', Matches g m p c' o' ∧ Alike (fun d e => e.rest = d.rest) o o' := by
  induction h generalizing c' with
  | empty => exact ⟨_, .empty, .some rfl hc⟩
  | @text m w c d h hp =>
    exact ⟨_, .text (d := ⟨c'.pos + utf8Length w, d.rest⟩) (hc.trans h) rfl, .some rfl rfl⟩
  | noText h => exact ⟨_, .noText (hc ▸ h), .none⟩
  | @one m p pos x cs h =>
    obtain ⟨pos', rest⟩ := c'
    cases hc
    exact ⟨_, .one h, .some rfl rfl⟩
  | noOne h => exact ⟨_, .noOne (hc ▸ h), .none⟩
  | atEnd h => exact ⟨_, .atEnd (hc.trans h), .some rfl hc⟩
  | notAtEnd h => exact ⟨_, .notAtEnd (hc ▸ h), .none⟩
  | rule h ih =>
    obtain ⟨_, h', alike⟩ := ih hc
    cases alike with
    | some ht hd => exact ⟨_, h'.rule, .some (bareAll_trees _ h.leads h'.leads hc hd ht) hd⟩
  | noRule h ih =>
    obtain ⟨_, h', alike⟩ := ih hc
    cases alike with
    | none => exact ⟨_, h'.noRule, .none⟩
  | @seq m _ _ _ d _ _ _ ha hb iha ihb =>
    obtain ⟨_, ha', alike⟩ := iha hc
    cases alike with
    | @some _ us _ d' ht hd =>
      obtain ⟨_, hb', alike⟩ := ihb (m.rest_skip_congr hd)
      cases alike with
      | some hu he =>
        exact ⟨_, .seq ha' hb', .some (by simp only [ParseTree.bareAll_append, ht, hu]) he⟩
  | noLeft ha iha =>
    obtain ⟨_, ha', alike⟩ := iha hc
    cases alike with
    | none => exact ⟨_, .noLeft ha', .none⟩
  | @noRight m _ _ _ d _ ha hb iha ihb =>
    obtain ⟨_, ha', alike⟩ := iha hc
    cases alike with
    | @some _ us _ d' ht hd =>
      obtain ⟨_, hb', alike⟩ := ihb (m.rest_skip_congr hd)
      cases alike with
      | none => exact ⟨_, .noRight ha' hb', .none⟩
  | left ha iha =>
    obtain ⟨_, ha', alike⟩ := iha hc
    cases alike with
    | some ht hd => exact ⟨_, .left ha', .some ht hd⟩
  | right ha hb iha ihb =>
    obtain ⟨_, ha', alike⟩ := iha hc
    cases alike with
    | none =>
      obtain ⟨_, hb', alike⟩ := ihb hc
      exact ⟨_, .right ha' hb', alike⟩
  | opt ha iha =>
    obtain ⟨_, ha', alike⟩ := iha hc
    cases alike with
    | some ht hd => exact ⟨_, .opt ha', .some ht hd⟩
  | noOpt ha iha =>
    obtain ⟨_, ha', alike⟩ := iha hc
    cases alike with
    | none => exact ⟨_, .noOpt ha', .some rfl hc⟩
  | starNone ha iha =>
    obtain ⟨_, ha', alike⟩ := iha hc
    cases alike with
    | none => exact ⟨_, .starNone ha', .some rfl hc⟩
  | @starLast m _ _ d _ ha hn iha ihn =>
    obtain ⟨_, ha', alike⟩ := iha hc
    cases alike with
    | @some _ us _ d' ht hd =>
      obtain ⟨_, hn', alike⟩ := ihn (m.rest_skip_congr hd)
      cases alike with
      | none => exact ⟨_, .starLast ha' hn', .some ht hd⟩
  | @starMore m _ _ d _ _ _ _ ha hx hs iha ihx ihs =>
    obtain ⟨_, ha', alike⟩ := iha hc
    cases alike with
    | @some _ us _ d' ht hd =>
      have skipped := m.rest_skip_congr hd
      obtain ⟨_, hx', alike⟩ := ihx skipped
      cases alike with
      | some =>
        obtain ⟨_, hs', alike⟩ := ihs skipped
        cases alike with
        | some hu he =>
          exact ⟨_, .starMore ha' hx' hs', .some (by simp only [ParseTree.bareAll_append, ht, hu]) he⟩
  | not ha iha =>
    obtain ⟨_, ha', alike⟩ := iha hc
    cases alike with
    | none => exact ⟨_, .not ha', .some rfl hc⟩
  | noNot ha iha =>
    obtain ⟨_, ha', alike⟩ := iha hc
    cases alike with
    | some => exact ⟨_, .noNot ha', .none⟩

end Offsets

end Grammar

end ImpWasm
