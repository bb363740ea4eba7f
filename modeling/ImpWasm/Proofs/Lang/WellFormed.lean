import ImpWasm.Lang.Parser
import ImpWasm.Proofs.Lang.Lexemes
import ImpWasm.Proofs.Outcome
set_option autoImplicit false

namespace ImpWasm

open Peg (Mode ParseTree)
open Grammar (Reads Refuses Matches)

def Ident.WellFormed (i : Ident) : Prop := isName i.name.toList = true

mutual

def Expr.WellFormed : Expr → Prop
  | .ident name _ => isName name.toList = true
  | .int .. | .string .. | .bool .. => True
  | .binary _ left right _ => left.WellFormed ∧ right.WellFormed
  | .call callee args _ => callee.WellFormed ∧ Expr.AllWellFormed args

def Expr.AllWellFormed : List Expr → Prop
  | [] => True
  | e :: es => e.WellFormed ∧ Expr.AllWellFormed es

end

structure ParamList.WellFormed (l : ParamList) : Prop where
  nonempty : l.params ≠ []
  names : ∀ p ∈ l.params, p.name.WellFormed

mutual

def Stmt.WellFormed : Stmt → Prop
  | .expr value _ | .return_ value _ => value.WellFormed
  | .var name type init _ =>
    name.WellFormed ∧ (type.isSome ∨ init.isSome) ∧ ∀ e ∈ init, e.WellFormed
  | .assign target value _ => target.WellFormed ∧ value.WellFormed
  | .block body _ _ => Stmt.AllWellFormed body
  | .function name params _ body _ _ =>
    name.WellFormed ∧ (∀ l ∈ params, l.WellFormed) ∧ Stmt.AllWellFormed body
  | .imported name params _ _ => name.WellFormed ∧ ∀ l ∈ params, l.WellFormed
  | .while_ condition body _ _ => condition.WellFormed ∧ Stmt.AllWellFormed body
  | .ifThen condition yes _ _ => condition.WellFormed ∧ Stmt.AllWellFormed yes
  | .ifElse condition yes _ no _ _ =>
    condition.WellFormed ∧ Stmt.AllWellFormed yes ∧ Stmt.AllWellFormed no

def Stmt.AllWellFormed : List Stmt → Prop
  | [] => True
  | s :: ss => s.WellFormed ∧ Stmt.AllWellFormed ss

end

def Program.WellFormed (p : Program) : Prop := Stmt.AllWellFormed p.body

namespace Peg

variable {R : Type}

/-- Which rules the trees that an expression yields may have, from left to right. -/
def Yields : Peg R → List R → Prop
  | .empty, rs | .text _, rs | .one _, rs | .endOfInput, rs | .not _, rs => rs = []
  | .rule r, rs => rs = [r]
  | .seq a b, rs => ∃ xs ys, rs = xs ++ ys ∧ Yields a xs ∧ Yields b ys
  | .alt a b, rs => Yields a rs ∨ Yields b rs
  | .opt a, rs => rs = [] ∨ Yields a rs
  | .star a, rs => ∃ parts : List (List R), rs = parts.flatten ∧ ∀ xs ∈ parts, Yields a xs

end Peg

/-- A tree as the grammar builds it: its leaves for identifiers hold names, and the trees below each
other one are those of its rule. -/
inductive Built : ParseTree Rule → Prop
  | leaf (r : Rule) (span : Span) (w : List Char) (hw : r = .identifier → isName w = true) :
    Built (.leaf r span w)
  | branch (r : Rule) (span : Span) (ts : List (ParseTree Rule)) (hr : r.body.Yields (ts.map ParseTree.rule))
    (ht : ∀ t ∈ ts, Built t) : Built (.branch r span ts)

namespace Grammar

variable {R : Type} (g : Grammar R) {r : R} (c d : Cursor) (ts : List (ParseTree R))

theorem tree_lexeme (h : g.kind r = .lexeme) :
    g.tree r c d ts = .leaf r ⟨c.pos, d.pos⟩ (takeBytes (d.pos - c.pos) c.rest) := by
  simp [tree, h]

theorem tree_branch (h : g.kind r ≠ .lexeme) : g.tree r c d ts = .branch r ⟨c.pos, d.pos⟩ ts := by
  unfold tree
  split
  · contradiction
  · rfl

theorem rule_tree : (g.tree r c d ts).rule = r := by
  unfold tree
  split <;> rfl

end Grammar

theorem Peg.Mode.enter_ne_lexeme {m : Mode} {k : Peg.Kind} (hm : m ≠ .lexeme) (hk : k ≠ .lexeme) :
    m.enter k ≠ .lexeme := by
  cases k <;> simp_all [Mode.enter]

theorem identifier_isName {m : Mode} (hm : m ≠ .lexeme) {c d : Cursor} {t : ParseTree Rule}
    (h : grammar.Matches m (.rule .identifier) c (some ([t], d))) :
    ∃ span w, t = .leaf .identifier span w ∧ isName w = true := by
  obtain ⟨pos, cs⟩ := c
  obtain ⟨rest, hcs, hr⟩ := exists_leadWord cs
  cases hn : isName (leadWord cs) with
  | false => cases h.unique (refuses_identifier hn pos)
  | true =>
    obtain ⟨found, e, read, bare, -⟩ := reads_identifier hm hn hr pos
    rw [← hcs] at read
    obtain ⟨rfl, rfl⟩ := Prod.mk.inj (Option.some.inj (read.unique h))
    cases t with
    | leaf r span w =>
      simp only [ParseTree.bareAll, ParseTree.bare, List.cons.injEq, ParseTree.leaf.injEq] at bare
      exact ⟨span, w, by rw [bare.1.1], by rw [bare.1.2.2]; exact hn⟩
    | branch r span ts => simp [ParseTree.bareAll, ParseTree.bare] at bare

/-- Every tree of a match is built by the grammar, and together they have the rules it allows. -/
theorem Grammar.Matches.built {m : Mode} {p : Peg Rule} {c : Cursor}
    {o : Option (List (ParseTree Rule) × Cursor)} (h : grammar.Matches m p c o) (hm : m ≠ .lexeme) :
    ∀ x ∈ o, p.Yields (x.1.map ParseTree.rule) ∧ ∀ t ∈ x.1, Built t := by
  induction h with
  | empty | text | one | atEnd | not => simp [Peg.Yields]
  | noOpt => simp [Peg.Yields]
  | starNone => exact fun x hx => Option.some.inj hx ▸ ⟨⟨[], rfl, by simp⟩, by simp⟩
  | noText | noOne | notAtEnd | noRule | noLeft | noRight | noNot => simp
  | @rule m r c d ts h ih =>
    simp only [Option.mem_def, Option.some.injEq, forall_eq', Grammar.trees, hm, if_false,
      List.map_cons, List.map_nil, Grammar.rule_tree, List.mem_singleton, Peg.Yields, true_and, forall_eq]
    by_cases hk : r.kind = .lexeme
    · have matched := h.rule
      simp only [Grammar.trees, hm, if_false] at matched
      rw [grammar.tree_lexeme _ _ _ hk] at matched ⊢
      refine .leaf _ _ _ fun hr => ?_
      subst hr
      obtain ⟨span, w, same, name⟩ := identifier_isName hm matched
      cases same
      exact name
    · have inner : m.enter (grammar.kind r) ≠ .lexeme := Mode.enter_ne_lexeme hm hk
      obtain ⟨yields, built⟩ := ih inner _ rfl
      rw [grammar.tree_branch _ _ _ hk]
      exact .branch _ _ _ yields built
  | seq ha hb iha ihb =>
    obtain ⟨ra, ba⟩ := iha hm _ rfl
    obtain ⟨rb, bb⟩ := ihb hm _ rfl
    simp only [Option.mem_def, Option.some.injEq, forall_eq', List.map_append]
    exact ⟨⟨_, _, rfl, ra, rb⟩, by simpa [or_imp, forall_and] using ⟨ba, bb⟩⟩
  | left ha iha =>
    intro x hx
    exact ⟨.inl (iha hm x hx).1, (iha hm x hx).2⟩
  | right ha hb iha ihb =>
    intro x hx
    exact ⟨.inr (ihb hm x hx).1, (ihb hm x hx).2⟩
  | opt ha iha =>
    intro x hx
    exact ⟨.inr (iha hm x hx).1, (iha hm x hx).2⟩
  | starLast ha hn iha ihn =>
    obtain ⟨ra, ba⟩ := iha hm _ rfl
    simp only [Option.mem_def, Option.some.injEq, forall_eq']
    exact ⟨⟨[_], (List.append_nil _).symm, by simpa using ra⟩, ba⟩
  | starMore ha hx hs iha ihx ihs =>
    obtain ⟨ra, ba⟩ := iha hm _ rfl
    obtain ⟨⟨parts, hp, hy⟩, bs⟩ := ihs hm _ rfl
    simp only [Option.mem_def, Option.some.injEq, forall_eq', List.map_append]
    refine ⟨⟨_ :: parts, by simp [hp], List.forall_mem_cons.2 ⟨ra, hy⟩⟩, ?_⟩
    simpa [or_imp, forall_and] using ⟨ba, bs⟩

namespace Chain

def WellFormed : Chain → Prop
  | .operand e => e.WellFormed
  | .node _ l r => l.WellFormed ∧ r.WellFormed

theorem WellFormed.attach {op : Operator} {e : Expr} (he : e.WellFormed) {t : Chain} (ht : t.WellFormed) :
    (t.attach op e).WellFormed := by
  induction t with
  | operand x => exact ⟨ht, he⟩
  | node o l r _ ihr =>
    simp only [Chain.attach]
    split
    · exact ⟨ht.1, ihr ht.2⟩
    · exact ⟨ht, he⟩

theorem WellFormed.toExpr {t : Chain} (ht : t.WellFormed) : t.toExpr.WellFormed := by
  induction t with
  | operand x => exact ht
  | node o l r ihl ihr => exact ⟨ihl ht.1, ihr ht.2⟩

theorem WellFormed.ofLinks {first : Expr} (hf : first.WellFormed) {links : List (Operator × Expr)}
    (hl : ∀ l ∈ links, l.2.WellFormed) : (Chain.ofLinks first links).WellFormed := by
  have fold : ∀ t : Chain, t.WellFormed →
      (links.foldl (fun t link => t.attach link.1 link.2) t).WellFormed := by
    induction links with
    | nil => exact fun t ht => ht
    | cons l links ih =>
      intro t ht
      exact ih (fun k hk => hl k (by simp [hk])) _ (.attach (hl l (by simp)) ht)
  exact fold (.operand first) hf

end Chain

theorem Built.children {r : Rule} {span : Span} {ts : List (ParseTree Rule)}
    (h : Built (.branch r span ts)) : ∀ t ∈ ts, Built t := by
  cases h with
  | branch _ _ _ _ ht => exact ht

theorem Built.yields {r : Rule} {span : Span} {ts : List (ParseTree Rule)}
    (h : Built (.branch r span ts)) : r.body.Yields (ts.map ParseTree.rule) := by
  cases h with
  | branch _ _ _ hr _ => exact hr

theorem Built.isName {span : Span} {w : List Char} (h : Built (.leaf .identifier span w)) :
    isName w = true := by
  cases h with
  | leaf _ _ _ hw => exact hw rfl

theorem exprOf_wellFormed_all :
    (∀ t, Built t → ∀ e, exprOf t = .ok e → e.WellFormed) ∧
    (∀ ts, (∀ t ∈ ts, Built t) → ∀ es, exprsOf ts = .ok es → Expr.AllWellFormed es) ∧
    (∀ ts, (∀ t ∈ ts, Built t) → ∀ ls, linksOf ts = .ok ls → ∀ l ∈ ls, l.2.WellFormed) := by
  apply exprOf.mutual_induct
  case case1 =>
    intro span _ e he
    simp [exprOf, Parsed.missing] at he
  case case2 =>
    intro span t rest iht ihl hb e he
    simp only [exprOf, bind_eq_ok, pure_eq_ok] at he
    obtain ⟨first, hf, links, hl, rfl⟩ := he
    have built := List.forall_mem_cons.1 hb.children
    exact (Chain.WellFormed.ofLinks (iht built.1 first hf) (ihl built.2 links hl)).toExpr
  case case3 =>
    intro span nameSpan name args iha hb e he
    simp only [exprOf, bind_eq_ok, pure_eq_ok] at he
    obtain ⟨es, hes, rfl⟩ := he
    have built := List.forall_mem_cons.1 hb.children
    exact ⟨by simpa [Ident.WellFormed] using built.1.isName, iha built.2 es hes⟩
  case case4 =>
    intro span w _ e he
    simp only [exprOf, Except.ok.injEq] at he
    subst he
    trivial
  case case5 =>
    intro span w _ e he
    simp only [exprOf, intOf] at he
    split at he
    · cases he
      trivial
    · cases he
  case case6 =>
    intro span content w _ e he
    simp only [exprOf, stringOf] at he
    split at he
    · cases he
      trivial
    · cases he
  case case7 =>
    intro span w hb e he
    simp only [exprOf, Except.ok.injEq] at he
    subst he
    simpa [Expr.WellFormed] using hb.isName
  case case8 =>
    intro t h1 h2 h3 h4 h5 h6 _ e he
    rw [exprOf.eq_8 t h1 h2 h3 h4 h5 h6] at he
    cases he
  case case9 =>
    intro _ es he
    simp only [exprsOf, Except.ok.injEq] at he
    subst he
    trivial
  case case10 =>
    intro t ts iht ihts hb es he
    simp only [exprsOf, bind_eq_ok, pure_eq_ok] at he
    obtain ⟨e, hte, es, hes, rfl⟩ := he
    have built := List.forall_mem_cons.1 hb
    exact ⟨iht built.1 e hte, ihts built.2 es hes⟩
  case case11 =>
    intro _ ls hl
    simp only [linksOf, Except.ok.injEq] at hl
    simp [← hl]
  case case12 =>
    intro t _ ls hl
    cases hl
  case case13 =>
    intro o t rest ho _ ls hl
    simp only [linksOf, ho] at hl
    cases hl
  case case14 =>
    intro o t rest op ho iht ihr hb ls hl
    simp only [linksOf, ho, bind_eq_ok, pure_eq_ok] at hl
    obtain ⟨e, he, ls, hls, rfl⟩ := hl
    have built := List.forall_mem_cons.1 (List.forall_mem_cons.1 hb).2
    exact List.forall_mem_cons.2 ⟨iht built.1 e he, ihr built.2 ls hls⟩

theorem exprOf_wellFormed {t : ParseTree Rule} {e : Expr} (h : Built t) (he : exprOf t = .ok e) :
    e.WellFormed := exprOf_wellFormed_all.1 t h e he

theorem identOf_wellFormed {t : ParseTree Rule} {i : Ident} (h : Built t) (hi : identOf t = .ok i) :
    i.WellFormed := by
  unfold identOf at hi
  split at hi
  · cases hi
    simpa [Ident.WellFormed] using h.isName
  · cases hi

theorem paramOf_wellFormed {t : ParseTree Rule} {p : Param} (h : Built t) (hp : paramOf t = .ok p) :
    p.name.WellFormed := by
  unfold paramOf at hp
  split at hp
  · simp only [bind_eq_ok, pure_eq_ok] at hp
    obtain ⟨name, hn, type, -, rfl⟩ := hp
    exact identOf_wellFormed (h.children _ (by simp)) hn
  · cases hp

theorem mapM_paramOf_wellFormed {ts : List (ParseTree Rule)} {ps : List Param} (h : ∀ t ∈ ts, Built t)
    (hp : ts.mapM paramOf = .ok ps) : (∀ p ∈ ps, p.name.WellFormed) ∧ ps.length = ts.length := by
  induction ts generalizing ps with
  | nil =>
    simp only [List.mapM_nil, pure_eq_ok] at hp
    simp [← hp]
  | cons t ts ih =>
    simp only [List.mapM_cons, bind_eq_ok, pure_eq_ok] at hp
    obtain ⟨p, hp, ps, hps, rfl⟩ := hp
    have built := List.forall_mem_cons.1 h
    obtain ⟨names, length⟩ := ih built.2 hps
    exact ⟨List.forall_mem_cons.2 ⟨paramOf_wellFormed built.1 hp, names⟩, by simp [length]⟩

theorem paramListOf_wellFormed {t : ParseTree Rule} {l : ParamList} (h : Built t)
    (hl : paramListOf t = .ok l) : l.WellFormed := by
  unfold paramListOf at hl
  split at hl
  · simp only [bind_eq_ok, pure_eq_ok] at hl
    obtain ⟨ps, hps, rfl⟩ := hl
    obtain ⟨names, length⟩ := mapM_paramOf_wellFormed h.children hps
    refine ⟨fun empty => ?_, names⟩
    -- the rule begins with a parameter
    obtain ⟨_, _, rules, first, -⟩ := h.yields
    have none : _ = [] := List.length_eq_zero_iff.1 (length.symm.trans (by simpa using empty))
    simp [none, Peg.Yields] at rules first
    simp [rules] at first
  · cases hl

theorem signatureOf_wellFormed {span : Span} {ts : List (ParseTree Rule)} {name : Ident}
    {params : Option ParamList} {result : TypeRef} (h : ∀ t ∈ ts, Built t)
    (hs : signatureOf span ts = .ok (name, params, result)) :
    name.WellFormed ∧ ∀ l ∈ params, l.WellFormed := by
  unfold signatureOf at hs
  split at hs
  · cases hs
  · rename_i n rest
    simp only [bind_eq_ok] at hs
    obtain ⟨i, hi, hs⟩ := hs
    have ident := identOf_wellFormed (h n (by simp)) hi
    split at hs
    · cases hs
    · rename_i t rest
      split at hs
      · simp only [bind_eq_ok] at hs
        obtain ⟨l, hl, hs⟩ := hs
        have list := paramListOf_wellFormed (h t (by simp)) hl
        split at hs
        · cases hs
        · simp only [bind_eq_ok, pure_eq_ok] at hs
          obtain ⟨type, -, same⟩ := hs
          cases same
          exact ⟨ident, by simpa using list⟩
      · simp only [bind_eq_ok, pure_eq_ok] at hs
        obtain ⟨type, -, same⟩ := hs
        cases same
        exact ⟨ident, by simp⟩
      · cases hs

theorem declaredOf_wellFormed {ts : List (ParseTree Rule)} {type : Option TypeRef} {init : Option Expr}
    (h : ∀ t ∈ ts, Built t) (hl : ts.length = 1 ∨ ts.length = 2)
    (hd : declaredOf ts = .ok (type, init)) :
    (type.isSome ∨ init.isSome) ∧ ∀ e ∈ init, e.WellFormed := by
  unfold declaredOf at hd
  split at hd
  · split at hd
    · simp only [bind_eq_ok, pure_eq_ok] at hd
      obtain ⟨t, -, same⟩ := hd
      cases same
      simp
    · simp only [bind_eq_ok, pure_eq_ok] at hd
      obtain ⟨e, he, same⟩ := hd
      cases same
      simpa using exprOf_wellFormed (h _ (by simp)) he
    · cases hd
  · simp only [bind_eq_ok, pure_eq_ok] at hd
    obtain ⟨t, -, e, he, same⟩ := hd
    cases same
    simpa using exprOf_wellFormed (h _ (by simp)) he
  · rename_i one two
    rcases ts with _ | ⟨t, _ | ⟨u, _ | ⟨v, ts⟩⟩⟩
    · simp at hl
    · exact absurd rfl (one t)
    · exact absurd rfl (two t u)
    · simp at hl

theorem Built.length_varDecl {span : Span} {t : ParseTree Rule} {ts : List (ParseTree Rule)}
    (h : Built (.branch .varDecl span (t :: ts))) : ts.length = 1 ∨ ts.length = 2 := by
  have yields := h.yields
  simp only [Rule.body, Peg.seqs, Peg.Yields, List.map_cons] at yields
  obtain ⟨_, ys, rules, rfl, _, _, rfl, hy, rfl⟩ := yields
  have length := congrArg List.length rules
  simp only [List.length_cons, List.length_map, List.length_append, List.length_nil] at length
  rcases hy with ⟨_, _, rfl, rfl, rfl⟩ | ⟨_, _, rfl, rfl, _, _, rfl, rfl, rfl | ⟨_, _, rfl, rfl, rfl⟩⟩ <;>
    simp at length <;> omega

theorem stmtOf_wellFormed_all :
    (∀ t, Built t → ∀ s, stmtOf t = .ok s → s.WellFormed) ∧
    (∀ ts, (∀ t ∈ ts, Built t) → ∀ ss, stmtsOf ts = .ok ss → Stmt.AllWellFormed ss) ∧
    (∀ span ts, (∀ t ∈ ts, Built t) → ∀ b, lastBlockOf span ts = .ok b →
      Stmt.AllWellFormed b.1) := by
  apply stmtOf.mutual_induct
  case case1 =>
    intro span first second parts hb s hs
    simp only [stmtOf, bind_eq_ok, pure_eq_ok] at hs
    obtain ⟨⟨name, params, result⟩, hsig, rfl⟩ := hs
    exact signatureOf_wellFormed (fun t ht => hb.children t (by simp [ht])) hsig
  case case2 =>
    intro span first parts ihb hb s hs
    simp only [stmtOf, bind_eq_ok, pure_eq_ok] at hs
    obtain ⟨⟨name, params, result⟩, hsig, ⟨body, bodySpan⟩, hbody, rfl⟩ := hs
    have built := (List.forall_mem_cons.1 hb.children).2
    obtain ⟨hname, hparams⟩ := signatureOf_wellFormed built hsig
    exact ⟨hname, hparams, ihb built _ hbody⟩
  case case3 =>
    intro span first condition bodySpan body ihb hb s hs
    simp only [stmtOf, bind_eq_ok, pure_eq_ok] at hs
    obtain ⟨c, hc, ss, hss, rfl⟩ := hs
    exact ⟨exprOf_wellFormed (hb.children _ (by simp)) hc,
      ihb (Built.children (hb.children (.branch .block bodySpan body) (by simp))) ss hss⟩
  case case4 =>
    intro span first condition yesSpan yes ihy hb s hs
    simp only [stmtOf, bind_eq_ok, pure_eq_ok] at hs
    obtain ⟨c, hc, ss, hss, rfl⟩ := hs
    exact ⟨exprOf_wellFormed (hb.children _ (by simp)) hc,
      ihy (Built.children (hb.children (.branch .block yesSpan yes) (by simp))) ss hss⟩
  case case5 =>
    intro span first condition yesSpan yes other noSpan no ihy ihn hb s hs
    simp only [stmtOf, bind_eq_ok, pure_eq_ok] at hs
    obtain ⟨c, hc, ss, hss, us, hus, rfl⟩ := hs
    exact ⟨exprOf_wellFormed (hb.children _ (by simp)) hc,
      ihy (Built.children (hb.children (.branch .block yesSpan yes) (by simp))) ss hss,
      ihn (Built.children (hb.children (.branch .block noSpan no) (by simp))) us hus⟩
  case case6 =>
    intro span first value hb s hs
    simp only [stmtOf, bind_eq_ok, pure_eq_ok] at hs
    obtain ⟨e, he, rfl⟩ := hs
    exact exprOf_wellFormed (hb.children _ (by simp)) he
  case case7 =>
    intro span body ihb hb s hs
    simp only [stmtOf, bind_eq_ok, pure_eq_ok] at hs
    obtain ⟨ss, hss, rfl⟩ := hs
    exact ihb hb.children ss hss
  case case8 =>
    intro span name parts hb s hs
    simp only [stmtOf, bind_eq_ok, pure_eq_ok] at hs
    obtain ⟨i, hi, ⟨type, init⟩, hd, rfl⟩ := hs
    have built := List.forall_mem_cons.1 hb.children
    exact ⟨identOf_wellFormed built.1 hi, declaredOf_wellFormed built.2 hb.length_varDecl hd⟩
  case case9 =>
    intro span target value hb s hs
    simp only [stmtOf, bind_eq_ok, pure_eq_ok] at hs
    obtain ⟨i, hi, e, he, rfl⟩ := hs
    exact ⟨identOf_wellFormed (hb.children _ (by simp)) hi, exprOf_wellFormed (hb.children _ (by simp)) he⟩
  case case10 =>
    intro span value hb s hs
    simp only [stmtOf, bind_eq_ok, pure_eq_ok] at hs
    obtain ⟨e, he, rfl⟩ := hs
    exact exprOf_wellFormed (hb.children _ (by simp)) he
  case case11 =>
    intro t h1 h2 h3 h4 h5 h6 h7 h8 h9 h10 _ s hs
    rw [stmtOf.eq_11 t h1 h2 h3 h4 h5 h6 h7 h8 h9 h10] at hs
    cases hs
  case case12 =>
    intro _ ss hs
    simp only [stmtsOf, Except.ok.injEq] at hs
    subst hs
    trivial
  case case13 =>
    intro t ts iht ihts hb ss hs
    simp only [stmtsOf, bind_eq_ok, pure_eq_ok] at hs
    obtain ⟨s, hts, ss, hss, rfl⟩ := hs
    have built := List.forall_mem_cons.1 hb
    exact ⟨iht built.1 s hts, ihts built.2 ss hss⟩
  case case14 =>
    intro span _ b hb
    cases hb
  case case15 =>
    intro span bodySpan body ihb hb b hs
    simp only [lastBlockOf, bind_eq_ok, pure_eq_ok] at hs
    obtain ⟨ss, hss, rfl⟩ := hs
    exact ihb (Built.children (hb _ List.mem_cons_self)) ss hss
  case case16 =>
    intro span t hne hb b hs
    rw [lastBlockOf.eq_3 span t hne] at hs
    cases hs
  case case17 =>
    intro span t u ts ih hb b hs
    rw [lastBlockOf] at hs
    exact ih (List.forall_mem_cons.1 hb).2 b hs

/-- Every program read from a text is well formed. -/
theorem wellFormed_of_parse {source : String} {p : Program} (h : Program.parse source = .ok p) :
    p.WellFormed := by
  simp only [Program.parse, bind_eq_ok] at h
  obtain ⟨t, ht, h⟩ := h
  have built : Built t := by
    unfold parseTree at ht
    simp only at ht
    split at ht
    · rename_i u d ho
      cases ht
      have matched := Grammar.parse_matches grammarBounds .program source.toList
      exact (matched.built (by simp) _ ho).2 _ (by simp)
    · cases ht
  split at h
  · simp only [bind_eq_ok, pure_eq_ok] at h
    obtain ⟨ss, hss, rfl⟩ := h
    exact stmtOf_wellFormed_all.2.1 _ (fun u hu => built.children u (List.mem_filter.1 hu).1) ss hss
  · cases h

end ImpWasm
