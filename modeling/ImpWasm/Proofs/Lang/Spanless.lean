import ImpWasm.Proofs.Lang.Trees
set_option autoImplicit false

/-!
Reading a tree looks at its spans only to keep them: from trees that are the same without spans come
programs that are. So a construct is read again, up to spans, from every tree that is its own without
spans.
-/
namespace ImpWasm

open Peg (ParseTree)
open Peg.ParseTree (of_bare_leaf of_bare_branch of_bareAll_nil of_bareAll_cons of_bareAll_singleton
  of_bareAll_pair rule_bare)

section Mirrors

variable {α β γ δ : Type} {view : α → β} {view' : γ → δ}

/-- Where the first gives something, the second gives something with the same view. -/
def Mirrors (view : α → β) (x y : Parsed α) : Prop :=
  ∀ a, x = .ok a → ∃ a', y = .ok a' ∧ view a' = view a

theorem Mirrors.pure {a a' : α} (h : view a' = view a) : Mirrors view (pure a) (pure a') := by
  intro b hb
  cases hb
  exact ⟨a', rfl, h⟩

theorem Mirrors.error (e : ParseError) (y : Parsed α) : Mirrors view (.error e) y := by
  intro a ha
  cases ha

theorem Mirrors.bind {x y : Parsed α} {f g : α → Parsed γ} (h : Mirrors view x y)
    (next : ∀ a a', view a' = view a → Mirrors view' (f a) (g a')) : Mirrors view' (x >>= f) (y >>= g) := by
  intro c hc
  obtain ⟨a, ha, hc⟩ := bind_eq_ok.1 hc
  obtain ⟨a', ha', same⟩ := h a ha
  obtain ⟨c', hc', last⟩ := next a a' same c hc
  exact ⟨c', bind_eq_ok.2 ⟨a', ha', hc'⟩, last⟩

end Mirrors

theorem Escape.decode_offset {offset : Nat} {cs k : List Char} (h : Escape.decode offset cs = .ok k)
    (offset' : Nat) : Escape.decode offset' cs = .ok k := by
  fun_induction Escape.decode offset cs generalizing k offset' with
  | case1 => exact h
  | case2 => cases h
  | case3 offset l cs c hl ih =>
    obtain ⟨k, hk, rfl⟩ := map_eq_ok.1 h
    simp [Escape.decode, hl, ih hk, Except.map]
  | case4 => cases h
  | case5 offset c cs one two ih =>
    obtain ⟨k, hk, rfl⟩ := map_eq_ok.1 h
    rw [Escape.decode.eq_4 _ _ _ one two, ih hk]
    rfl

section Chains

def Chain.bare : Chain → Chain
  | .operand e => .operand e.bare
  | .node op l r => .node op l.bare r.bare

theorem Chain.bare_attach (op : Operator) (e : Expr) (t : Chain) :
    (t.attach op e).bare = t.bare.attach op e.bare := by
  induction t with
  | operand x => rfl
  | node o l r _ ihr =>
    simp only [attach, bare]
    split
    · simp [bare, ihr]
    · rfl

theorem Chain.bare_ofLinks (first : Expr) (links : List (Operator × Expr)) :
    (Chain.ofLinks first links).bare =
      Chain.ofLinks first.bare (links.map fun link => (link.1, link.2.bare)) := by
  have fold : ∀ t : Chain, (links.foldl (fun t link => t.attach link.1 link.2) t).bare =
      (links.map fun link => (link.1, link.2.bare)).foldl (fun t link => t.attach link.1 link.2)
        t.bare := by
    induction links with
    | nil => exact fun t => rfl
    | cons l links ih =>
      intro t
      simp only [List.foldl_cons, List.map_cons, ih, Chain.bare_attach]
  exact fold (.operand first)

theorem Chain.bare_toExpr {s t : Chain} (h : s.bare = t.bare) : s.toExpr.bare = t.toExpr.bare := by
  induction s generalizing t with
  | operand e =>
    cases t with
    | operand e' => simpa [Chain.bare, Chain.toExpr] using h
    | node o l r => cases h
  | node o l r ihl ihr =>
    cases t with
    | operand e' => cases h
    | node o' l' r' =>
      simp only [Chain.bare, Chain.node.injEq] at h
      obtain ⟨rfl, hl, hr⟩ := h
      simp [Chain.toExpr, Expr.bare, ihl hl, ihr hr]

end Chains

theorem exprOf_mirrors_all :
    (∀ t u, u.bare = t.bare → Mirrors Expr.bare (exprOf t) (exprOf u)) ∧
    (∀ ts us, ParseTree.bareAll us = ParseTree.bareAll ts →
      Mirrors Expr.bareAll (exprsOf ts) (exprsOf us)) ∧
    (∀ ts us, ParseTree.bareAll us = ParseTree.bareAll ts →
      Mirrors (List.map fun l => (l.1, l.2.bare)) (linksOf ts) (linksOf us)) := by
  apply exprOf.mutual_induct
  case case1 =>
    intro span u hu
    exact .error _ _
  case case2 =>
    intro span t rest iht ihl u hu
    obtain ⟨span', us, rfl, hus⟩ := of_bare_branch hu
    obtain ⟨v, vs, rfl, hv, hvs⟩ := of_bareAll_cons hus
    simp only [exprOf]
    refine (iht v hv).bind fun first first' sameFirst => (ihl vs hvs).bind fun links links' sameLinks =>
      .pure (Chain.bare_toExpr ?_)
    rw [Chain.bare_ofLinks, Chain.bare_ofLinks, sameFirst, sameLinks]
  case case3 =>
    intro span nameSpan name args iha u hu
    obtain ⟨span', us, rfl, hus⟩ := of_bare_branch hu
    obtain ⟨v, vs, rfl, hv, hvs⟩ := of_bareAll_cons hus
    obtain ⟨nameSpan', rfl⟩ := of_bare_leaf hv
    simp only [exprOf]
    exact (iha vs hvs).bind fun es es' same => .pure (by simp [Expr.bare, Ident.bare, same])
  case case4 =>
    intro span w u hu
    obtain ⟨span', rfl⟩ := of_bare_leaf hu
    exact .pure rfl
  case case5 =>
    intro span w u hu
    obtain ⟨span', rfl⟩ := of_bare_leaf hu
    simp only [exprOf, intOf]
    split
    · exact .pure rfl
    · exact .error _ _
  case case6 =>
    intro span content w u hu
    obtain ⟨span', us, rfl, hus⟩ := of_bare_branch hu
    obtain ⟨v, rfl, hv⟩ := of_bareAll_singleton hus
    obtain ⟨content', rfl⟩ := of_bare_leaf hv
    simp only [exprOf, stringOf]
    split
    · rename_i value hd
      rw [Escape.decode_offset hd]
      exact .pure rfl
    · exact .error _ _
  case case7 =>
    intro span w u hu
    obtain ⟨span', rfl⟩ := of_bare_leaf hu
    exact .pure rfl
  case case8 =>
    intro t h1 h2 h3 h4 h5 h6 u hu
    rw [exprOf.eq_8 t h1 h2 h3 h4 h5 h6]
    exact .error _ _
  case case9 =>
    intro us hus
    obtain rfl := of_bareAll_nil hus
    exact .pure rfl
  case case10 =>
    intro t ts iht ihts us hus
    obtain ⟨v, vs, rfl, hv, hvs⟩ := of_bareAll_cons hus
    simp only [exprsOf]
    exact (iht v hv).bind fun e e' first => (ihts vs hvs).bind fun es es' rest =>
      .pure (by simp [Expr.bareAll, first, rest])
  case case11 =>
    intro us hus
    obtain rfl := of_bareAll_nil hus
    exact .pure rfl
  case case12 =>
    intro t us hus
    exact .error _ _
  case case13 =>
    intro o t rest ho us hus
    simp only [linksOf, ho]
    exact .error _ _
  case case14 =>
    intro o t rest op ho iht ihr us hus
    obtain ⟨x, xs, rfl, hx, hxs⟩ := of_bareAll_cons hus
    obtain ⟨v, vs, rfl, hv, hvs⟩ := of_bareAll_cons hxs
    have rule : x.rule.operator? = some op := by rw [← rule_bare, hx, rule_bare, ho]
    simp only [linksOf, ho, rule]
    exact (iht v hv).bind fun e e' first => (ihr vs hvs).bind fun ls ls' rest =>
      .pure (by simp [first, rest])

theorem exprOf_mirrors {t u : ParseTree Rule} (h : u.bare = t.bare) :
    Mirrors Expr.bare (exprOf t) (exprOf u) :=
  exprOf_mirrors_all.1 t u h

theorem exprOf_readFrom {t : ParseTree Rule} {e : Expr} (h : exprOf t = .ok e) : e.ReadFrom t.bare :=
  fun _ hu => exprOf_mirrors hu e h

/-- From trees that are the same without spans comes the same, without spans. -/
def Spanless {α : Type} (f : ParseTree Rule → Parsed α) (bare : α → α) : Prop :=
  ∀ t a, f t = .ok a → ∀ u, u.bare = t.bare → ∃ a', f u = .ok a' ∧ bare a' = bare a

theorem Spanless.mirrors {α : Type} {f : ParseTree Rule → Parsed α} {bare : α → α} (h : Spanless f bare)
    {t u : ParseTree Rule} (hu : u.bare = t.bare) : Mirrors bare (f t) (f u) :=
  fun a ha => h t a ha u hu

theorem Spanless.mapM {α : Type} {f : ParseTree Rule → Parsed α} {bare : α → α} (h : Spanless f bare)
    {ts us : List (ParseTree Rule)} (hus : ParseTree.bareAll us = ParseTree.bareAll ts) :
    Mirrors (List.map bare) (ts.mapM f) (us.mapM f) := by
  induction ts generalizing us with
  | nil =>
    obtain rfl := of_bareAll_nil hus
    exact .pure rfl
  | cons t ts ih =>
    obtain ⟨v, vs, rfl, hv, hvs⟩ := of_bareAll_cons hus
    simp only [List.mapM_cons]
    exact (h.mirrors hv).bind fun a a' first => (ih hvs).bind fun as as' rest =>
      .pure (by simp [first, rest])

theorem spanless_identOf : Spanless identOf Ident.bare := by
  intro t i hi u hu
  unfold identOf at hi
  split at hi
  · obtain ⟨span', rfl⟩ := of_bare_leaf hu
    cases hi
    exact ⟨_, rfl, rfl⟩
  · cases hi

theorem spanless_typeRefOf : Spanless typeRefOf TypeRef.bare := by
  intro t type ht u hu
  unfold typeRefOf at ht
  split at ht
  · rename_i span t
    obtain ⟨span', us, rfl, hus⟩ := of_bare_branch hu
    obtain ⟨v, rfl, hv⟩ := of_bareAll_singleton hus
    have rule : v.rule = t.rule := by rw [← rule_bare, hv, rule_bare]
    split at ht
    · rename_i type hp
      cases ht
      exact ⟨⟨type, span'⟩, by simp [typeRefOf, rule, hp], rfl⟩
    · cases ht
  · cases ht

theorem spanless_paramOf : Spanless paramOf Param.bare := by
  intro t p hp u hu
  unfold paramOf at hp
  split at hp
  · obtain ⟨span', us, rfl, hus⟩ := of_bare_branch hu
    obtain ⟨v, x, rfl, hv, hx⟩ := of_bareAll_pair hus
    refine Mirrors.bind (spanless_identOf.mirrors hv) (fun name name' sameName => ?_) p hp
    exact (spanless_typeRefOf.mirrors hx).bind fun type type' sameType =>
      .pure (by simp [Param.bare, sameName, sameType])
  · cases hp

theorem spanless_paramListOf : Spanless paramListOf ParamList.bare := by
  intro t l hl u hu
  unfold paramListOf at hl
  split at hl
  · obtain ⟨span', us, rfl, hus⟩ := of_bare_branch hu
    exact (spanless_paramOf.mapM hus).bind (fun ps ps' same => .pure (by simp [ParamList.bare, same])) l hl
  · cases hl

def signatureBare (s : Ident × Option ParamList × TypeRef) : Ident × Option ParamList × TypeRef :=
  (s.1.bare, s.2.1.map ParamList.bare, s.2.2.bare)

theorem signatureBare_eq_iff {s s' : Ident × Option ParamList × TypeRef} :
    signatureBare s' = signatureBare s ↔ s'.1.bare = s.1.bare ∧
      s'.2.1.map ParamList.bare = s.2.1.map ParamList.bare ∧ s'.2.2.bare = s.2.2.bare := by
  simp [signatureBare]

theorem signatureOf_mirrors (span span' : Span) {ts us : List (ParseTree Rule)}
    (hus : ParseTree.bareAll us = ParseTree.bareAll ts) :
    Mirrors signatureBare (signatureOf span ts) (signatureOf span' us) := by
  rcases ts with _ | ⟨n, _ | ⟨t, rest⟩⟩
  · exact .error _ _
  · obtain ⟨n', rfl, hn⟩ := of_bareAll_singleton hus
    exact (spanless_identOf.mirrors hn).bind fun _ _ _ => .error _ _
  · obtain ⟨n', _, rfl, hn, hus⟩ := of_bareAll_cons hus
    obtain ⟨t', rest', rfl, ht, hrest⟩ := of_bareAll_cons hus
    have rule : t'.rule = t.rule := by rw [← rule_bare, ht, rule_bare]
    refine (spanless_identOf.mirrors hn).bind fun i i' sameName => ?_
    simp only [rule]
    split
    · refine (spanless_paramListOf.mirrors ht).bind fun l l' sameParams => ?_
      rcases rest with _ | ⟨r, rest⟩
      · exact .error _ _
      · obtain ⟨r', rest', rfl, hr, -⟩ := of_bareAll_cons hrest
        exact (spanless_typeRefOf.mirrors hr).bind fun type type' sameType =>
          .pure (by simp [signatureBare, sameName, sameParams, sameType])
    · exact (spanless_typeRefOf.mirrors ht).bind fun type type' sameType =>
        .pure (by simp [signatureBare, sameName, sameType])
    · exact .error _ _

def declaredBare (d : Option TypeRef × Option Expr) : Option TypeRef × Option Expr :=
  (d.1.map TypeRef.bare, d.2.map Expr.bare)

theorem declaredBare_eq_iff {d d' : Option TypeRef × Option Expr} :
    declaredBare d' = declaredBare d ↔
      d'.1.map TypeRef.bare = d.1.map TypeRef.bare ∧ d'.2.map Expr.bare = d.2.map Expr.bare := by
  simp [declaredBare]

theorem declaredOf_mirrors {ts us : List (ParseTree Rule)}
    (hus : ParseTree.bareAll us = ParseTree.bareAll ts) :
    Mirrors declaredBare (declaredOf ts) (declaredOf us) := by
  rcases ts with _ | ⟨t, _ | ⟨e, _ | ⟨x, ts⟩⟩⟩
  · obtain rfl := of_bareAll_nil hus
    exact .pure rfl
  · obtain ⟨v, rfl, hv⟩ := of_bareAll_singleton hus
    have rule : v.rule = t.rule := by rw [← rule_bare, hv, rule_bare]
    simp only [declaredOf, rule]
    split
    · exact (spanless_typeRefOf.mirrors hv).bind fun type type' same =>
        .pure (by simp [declaredBare, same])
    · exact (exprOf_mirrors hv).bind fun init init' same => .pure (by simp [declaredBare, same])
    · exact .error _ _
  · obtain ⟨v, w, rfl, hv, hw⟩ := of_bareAll_pair hus
    simp only [declaredOf]
    exact (spanless_typeRefOf.mirrors hv).bind fun type type' sameType =>
      (exprOf_mirrors hw).bind fun init init' sameInit =>
        .pure (by simp [declaredBare, sameType, sameInit])
  · obtain ⟨_, _, rfl, -, hus⟩ := of_bareAll_cons hus
    obtain ⟨_, _, rfl, -, hus⟩ := of_bareAll_cons hus
    obtain ⟨_, _, rfl, -, -⟩ := of_bareAll_cons hus
    exact .pure rfl

theorem stmtOf_mirrors_all :
    (∀ t u, u.bare = t.bare → Mirrors Stmt.bare (stmtOf t) (stmtOf u)) ∧
    (∀ ts us, ParseTree.bareAll us = ParseTree.bareAll ts →
      Mirrors Stmt.bareAll (stmtsOf ts) (stmtsOf us)) ∧
    (∀ span ts span' us, ParseTree.bareAll us = ParseTree.bareAll ts →
      Mirrors (fun b => Stmt.bareAll b.1) (lastBlockOf span ts) (lastBlockOf span' us)) := by
  -- One case for each form that a reader knows; the other tree has the same form, since spans do not change it.
  apply stmtOf.mutual_induct
  case case1 =>
    intro span first second parts u hu
    obtain ⟨span', us, rfl, hus⟩ := of_bare_branch hu
    obtain ⟨v, _, rfl, -, hus⟩ := of_bareAll_cons hus
    obtain ⟨x, us, rfl, -, hus⟩ := of_bareAll_cons hus
    simp only [stmtOf]
    exact (signatureOf_mirrors _ _ hus).bind fun s s' same =>
      .pure (by simp [Stmt.bare, signatureBare_eq_iff.1 same])
  case case2 =>
    intro span first parts ihb u hu
    obtain ⟨span', us, rfl, hus⟩ := of_bare_branch hu
    obtain ⟨v, us, rfl, -, hus⟩ := of_bareAll_cons hus
    simp only [stmtOf]
    exact (signatureOf_mirrors _ _ hus).bind fun s s' same => (ihb span' us hus).bind fun b b' body =>
      .pure (by simp [Stmt.bare, signatureBare_eq_iff.1 same, body])
  case case3 =>
    intro span first condition bodySpan body ihb u hu
    obtain ⟨span', us, rfl, hus⟩ := of_bare_branch hu
    obtain ⟨k, _, rfl, -, hus⟩ := of_bareAll_cons hus
    obtain ⟨v, b, rfl, hv, hb⟩ := of_bareAll_pair hus
    obtain ⟨bodySpan', bs, rfl, hbs⟩ := of_bare_branch hb
    simp only [stmtOf]
    exact (exprOf_mirrors hv).bind fun c c' test => (ihb bs hbs).bind fun ss ss' same =>
      .pure (by simp [Stmt.bare, test, same])
  case case4 =>
    intro span first condition yesSpan yes ihy u hu
    obtain ⟨span', us, rfl, hus⟩ := of_bare_branch hu
    obtain ⟨k, _, rfl, -, hus⟩ := of_bareAll_cons hus
    obtain ⟨v, b, rfl, hv, hb⟩ := of_bareAll_pair hus
    obtain ⟨yesSpan', bs, rfl, hbs⟩ := of_bare_branch hb
    simp only [stmtOf]
    exact (exprOf_mirrors hv).bind fun c c' test => (ihy bs hbs).bind fun ss ss' same =>
      .pure (by simp [Stmt.bare, test, same])
  case case5 =>
    intro span first condition yesSpan yes other noSpan no ihy ihn u hu
    obtain ⟨span', us, rfl, hus⟩ := of_bare_branch hu
    obtain ⟨k, _, rfl, -, hus⟩ := of_bareAll_cons hus
    obtain ⟨v, _, rfl, hv, hus⟩ := of_bareAll_cons hus
    obtain ⟨b, _, rfl, hb, hus⟩ := of_bareAll_cons hus
    obtain ⟨l, d, rfl, -, hd⟩ := of_bareAll_pair hus
    obtain ⟨yesSpan', bs, rfl, hbs⟩ := of_bare_branch hb
    obtain ⟨noSpan', ds, rfl, hds⟩ := of_bare_branch hd
    simp only [stmtOf]
    exact (exprOf_mirrors hv).bind fun c c' test => (ihy bs hbs).bind fun ss ss' hyes =>
      (ihn ds hds).bind fun rs rs' hno => .pure (by simp [Stmt.bare, test, hyes, hno])
  case case6 =>
    intro span first value u hu
    obtain ⟨span', us, rfl, hus⟩ := of_bare_branch hu
    obtain ⟨k, v, rfl, -, hv⟩ := of_bareAll_pair hus
    simp only [stmtOf]
    exact (exprOf_mirrors hv).bind fun e e' same => .pure (by simp [Stmt.bare, same])
  case case7 =>
    intro span body ihb u hu
    obtain ⟨span', us, rfl, hus⟩ := of_bare_branch hu
    simp only [stmtOf]
    exact (ihb us hus).bind fun ss ss' same => .pure (by simp [Stmt.bare, same])
  case case8 =>
    intro span name parts u hu
    obtain ⟨span', us, rfl, hus⟩ := of_bare_branch hu
    obtain ⟨v, us, rfl, hv, hus⟩ := of_bareAll_cons hus
    simp only [stmtOf]
    exact (spanless_identOf.mirrors hv).bind fun i i' hname => (declaredOf_mirrors hus).bind fun d d' same =>
      .pure (by simp [Stmt.bare, hname, declaredBare_eq_iff.1 same])
  case case9 =>
    intro span target value u hu
    obtain ⟨span', us, rfl, hus⟩ := of_bare_branch hu
    obtain ⟨v, x, rfl, hv, hx⟩ := of_bareAll_pair hus
    simp only [stmtOf]
    exact (spanless_identOf.mirrors hv).bind fun i i' hname => (exprOf_mirrors hx).bind fun e e' same =>
      .pure (by simp [Stmt.bare, hname, same])
  case case10 =>
    intro span value u hu
    obtain ⟨span', us, rfl, hus⟩ := of_bare_branch hu
    obtain ⟨v, rfl, hv⟩ := of_bareAll_singleton hus
    simp only [stmtOf]
    exact (exprOf_mirrors hv).bind fun e e' same => .pure (by simp [Stmt.bare, same])
  case case11 =>
    -- no form that the reader knows: this tree is refused, so there is nothing to mirror
    intro t h1 h2 h3 h4 h5 h6 h7 h8 h9 h10 u hu
    rw [stmtOf.eq_11 t h1 h2 h3 h4 h5 h6 h7 h8 h9 h10]
    exact .error _ _
  case case12 =>
    intro us hus
    obtain rfl := of_bareAll_nil hus
    exact .pure rfl
  case case13 =>
    intro t ts iht ihts us hus
    obtain ⟨v, vs, rfl, hv, hvs⟩ := of_bareAll_cons hus
    simp only [stmtsOf]
    exact (iht v hv).bind fun s s' first => (ihts vs hvs).bind fun ss ss' rest =>
      .pure (by simp [Stmt.bareAll, first, rest])
  case case14 =>
    intro span span' us hus
    exact .error _ _
  case case15 =>
    intro span bodySpan body ihb span' us hus
    obtain ⟨v, rfl, hv⟩ := of_bareAll_singleton hus
    obtain ⟨bodySpan', bs, rfl, hbs⟩ := of_bare_branch hv
    simp only [lastBlockOf]
    exact (ihb bs hbs).bind fun ss ss' same => .pure same
  case case16 =>
    intro span t hne span' us hus
    rw [lastBlockOf.eq_3 span t hne]
    exact .error _ _
  case case17 =>
    intro span t u ts ih span' us hus
    obtain ⟨v, vs, rfl, -, hvs⟩ := of_bareAll_cons hus
    obtain ⟨x, xs, rfl, -, -⟩ := of_bareAll_cons hvs
    rw [lastBlockOf, lastBlockOf]
    exact ih span' (x :: xs) hvs

theorem stmtsOf_spanless {ts us : List (ParseTree Rule)} {ss : List Stmt} (h : stmtsOf ts = .ok ss)
    (hus : ParseTree.bareAll us = ParseTree.bareAll ts) :
    ∃ ss', stmtsOf us = .ok ss' ∧ Stmt.bareAll ss' = Stmt.bareAll ss :=
  stmtOf_mirrors_all.2.1 ts us hus ss h

theorem Stmt.readFrom_trees (ss : List Stmt) {us : List (ParseTree Rule)}
    (h : ParseTree.bareAll us = Stmt.trees ss) :
    ∃ ss', stmtsOf us = .ok ss' ∧ Stmt.bareAll ss' = Stmt.bareAll ss := by
  have alike : ParseTree.bareAll us = ParseTree.bareAll (Stmt.trees ss) := by
    rw [← h, ParseTree.bareAll_bareAll]
  obtain ⟨ss', hss', same⟩ := stmtsOf_spanless (Stmt.stmtsOf_trees ss) alike
  exact ⟨ss', hss', by rw [same, Stmt.bareAll_bareAll]⟩

end ImpWasm
