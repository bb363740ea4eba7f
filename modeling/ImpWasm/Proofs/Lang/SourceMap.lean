import Mathlib
import ImpWasm.Proofs.Lang.Frames
import ImpWasm.Proofs.Lang.Precedence
set_option autoImplicit false

namespace ImpWasm

open Peg (ParseTree)

inductive Node where
  | program (p : Program)
  | stmt (s : Stmt)
  | block (body : List Stmt) (span : Span)
  | params (l : ParamList)
  | param (p : Param)
  | type (t : TypeRef)
  | ident (i : Ident)
  | expr (e : Expr)

def Numeral (w : List Char) : Prop :=
  ∃ ds, ds ≠ [] ∧ (∀ c ∈ ds, isDigit c = true) ∧ (w = ds ∨ w = '-' :: ds)

/-- The text of a statement does not begin with white space, and it ends with a closing mark unless the statement is
an `if` without `else`. -/
structure Stmt.Framed (s : Stmt) (w : List Char) : Prop where
  first : ∃ c ∈ w.head?, isWhite c = false
  last : (∃ condition yes yesSpan span, s = .ifThen condition yes yesSpan span) ∨ ∃ c ∈ w.getLast?, isClosing c

namespace Node

def span : Node → Span
  | program p => p.span
  | stmt s => s.span
  | block _ s => s
  | params l => l.span
  | param p => p.span
  | type t => t.span
  | ident i => i.span
  | expr e => e.span

def children : Node → List Node
  | program p => p.body.map stmt
  | stmt (.expr value _) | stmt (.return_ value _) => [expr value]
  | stmt (.var name t init _) => ident name :: (t.toList.map type ++ init.toList.map expr)
  | stmt (.assign target value _) => [ident target, expr value]
  | stmt (.block body bodySpan _) => [block body bodySpan]
  | stmt (.function name ps result body bodySpan _) =>
    ident name :: (ps.toList.map params ++ [type result, block body bodySpan])
  | stmt (.imported name ps result _) => ident name :: (ps.toList.map params ++ [type result])
  | stmt (.while_ condition body bodySpan _) => [expr condition, block body bodySpan]
  | stmt (.ifThen condition yes yesSpan _) => [expr condition, block yes yesSpan]
  | stmt (.ifElse condition yes yesSpan no noSpan _) => [expr condition, block yes yesSpan, block no noSpan]
  | block body _ => body.map stmt
  | params l => l.params.map param
  | param p => [ident p.name, type p.type]
  | type _ | ident _ => []
  | expr (.binary _ left right _) => [expr left, expr right]
  | expr (.call callee args _) => ident callee :: args.map expr
  | expr (.ident ..) | expr (.int ..) | expr (.string ..) | expr (.bool ..) => []

def Reads (w : List Char) : Node → Prop
  | ident i => w = i.name.toList
  | expr (.ident name _) => w = name.toList
  | expr (.int value _) => Numeral w ∧ Decimal.value w = value.toInt
  | stmt s => s.Framed w
  | _ => True

/-- A node and all below it are where they were written. -/
inductive Mapped (source : List Char) : Node → Prop
  | intro {n : Node} {w : List Char} (place : n.span.Marks source w) (text : n.Reads w)
    (order : InOrder n.span.start (n.children.map span) n.span.stop) (below : ∀ k ∈ n.children, Mapped source k) :
    Mapped source n

end Node

section Maps

variable {source : List Char} {t : ParseTree Rule} {ts : List (ParseTree Rule)} {k : Node} {ks : List Node}

/-- The node of a tree is mapped, inside the tree. -/
structure MapsTo (source : List Char) (t : ParseTree Rule) (k : Node) : Prop where
  mapped : k.Mapped source
  low : t.span.start ≤ k.span.start
  high : k.span.stop ≤ t.span.stop

inductive Maps (source : List Char) : List (ParseTree Rule) → List Node → Prop
  | nil : Maps source [] []
  | skip {t : ParseTree Rule} {ts : List (ParseTree Rule)} {ks : List Node} (h : Maps source ts ks) :
    Maps source (t :: ts) ks
  | cons {t : ParseTree Rule} {k : Node} {ts : List (ParseTree Rule)} {ks : List Node} (hk : MapsTo source t k)
    (h : Maps source ts ks) : Maps source (t :: ts) (k :: ks)

theorem Node.Mapped.place (h : k.Mapped source) : ∃ w, k.span.Marks source w := by
  cases h with
  | intro place _ _ _ => exact ⟨_, place⟩

theorem Node.Mapped.start_le (h : k.Mapped source) : k.span.start ≤ k.span.stop := by
  obtain ⟨w, place⟩ := h.place
  rw [place.length_eq]
  exact Nat.le_add_right _ _

theorem Maps.inOrder {a b : Nat} (h : Maps source ts ks) (order : InOrder a (ts.map ParseTree.span) b) :
    InOrder a (ks.map Node.span) b := by
  induction h generalizing a with
  | nil => exact order
  | skip _ ih => exact (ih order.2.2).mono (Nat.le_trans order.1 order.2.1) Nat.le.refl
  | cons hk _ ih =>
    exact ⟨Nat.le_trans order.1 hk.low, hk.mapped.start_le, (ih order.2.2).mono hk.high Nat.le.refl⟩

theorem Maps.mapped (h : Maps source ts ks) : ∀ k ∈ ks, k.Mapped source := by
  induction h with
  | nil => simp
  | skip _ ih => exact ih
  | cons hk _ ih => exact List.forall_mem_cons.2 ⟨hk.mapped, ih⟩

/-- A node with the span of its tree, whose parts are those of the trees below. -/
theorem mapsTo_of_maps {w : List Char} (marks : t.span.Marks source w) (hs : k.span = t.span) (text : k.Reads w)
    (order : InOrder t.span.start (ts.map ParseTree.span) t.span.stop) (maps : Maps source ts k.children) :
    MapsTo source t k :=
  ⟨.intro (hs ▸ marks) text (hs ▸ maps.inOrder order) maps.mapped, hs ▸ Nat.le.refl, hs ▸ Nat.le.refl⟩

end Maps

section Expressions

variable {source w : List Char} {span : Span} {t : ParseTree Rule} {ts : List (ParseTree Rule)}

theorem Grown.numeral (h : Grown source (.leaf .intLiteral span w)) : Numeral w := by
  cases h with
  | leaf kind reached matched =>
    obtain ⟨_, same, past, accepted, token⟩ := matches_int matched
    cases same
    generalize hb : true = b at token
    cases token with
    | @word _ c k hc hk ht =>
      obtain ⟨sign, -, digit⟩ := not_symbol_of_isIdentStart hc
      simp [Rule.accepts, sign, digit] at accepted
    | @number _ c k hc hk ht => exact ⟨c :: k, by simp, List.forall_mem_cons.2 ⟨hc, hk⟩, .inl rfl⟩
    | @negative c k hc hk ht => exact ⟨c :: k, by simp, List.forall_mem_cons.2 ⟨hc, hk⟩, .inr rfl⟩
    | string hk => simp [Rule.accepts, isDigit] at accepted
    | @mark _ c hc _ _ =>
      have outside := (isMark_iff.1 hc).2.1
      have digit : isDigit c = true := by simpa [Rule.accepts] using accepted
      rw [isIdentChar_of_isDigit digit] at outside
      cases outside

theorem toInt_of_int32? {v : Int32} (h : Decimal.int32? w = some v) : Decimal.value w = v.toInt := by
  simp only [Decimal.int32?] at h
  split at h
  · rename_i range
    cases h
    exact (Int32.toInt_ofInt_of_le range.1 (Int.lt_add_one_of_le range.2)).symm
  · cases h

def Chain.operands (t : Chain) : List Expr := t.first :: t.links.map Prod.snd

theorem Chain.operands_node (op : Operator) (l r : Chain) : (node op l r).operands = l.operands ++ r.operands := by
  simp [operands, first, links]

/-- What a chain of mapped operands comes to, between the same offsets. -/
theorem Chain.mapped {t : Chain} {a b : Nat} (order : InOrder a (t.operands.map Expr.span) b)
    (mapped : ∀ e ∈ t.operands, (Node.expr e).Mapped source) :
    (Node.expr t.toExpr).Mapped source ∧ InOrder a [t.toExpr.span] b := by
  induction t generalizing a b with
  | operand e => exact ⟨mapped e (by simp [operands, first]), order⟩
  | node op l r ihl ihr =>
    rw [operands_node] at order mapped
    rw [List.map_append] at order
    obtain ⟨m, left, right⟩ := order.split
    obtain ⟨hl, left⟩ := ihl left fun e he => mapped e (List.mem_append_left _ he)
    obtain ⟨hr, right⟩ := ihr right fun e he => mapped e (List.mem_append_right _ he)
    obtain ⟨lowl, widel, highl⟩ := left
    obtain ⟨lowr, wider, highr⟩ := right
    have apart : l.toExpr.span.stop ≤ r.toExpr.span.start := Nat.le_trans highl lowr
    have whole : l.toExpr.span.start ≤ r.toExpr.span.stop := Nat.le_trans widel (Nat.le_trans apart wider)
    refine ⟨?_, lowl, whole, highr⟩
    obtain ⟨u, placel⟩ := hl.place
    obtain ⟨v, placer⟩ := hr.place
    obtain ⟨x, place⟩ := placel.merge placer apart
    exact .intro place trivial ⟨Nat.le.refl, widel, apart, wider, Nat.le.refl⟩
      (by simpa [Node.children, toExpr] using ⟨hl, hr⟩)

end Expressions

section Reading

variable {source w : List Char} {span : Span} {r : Rule} {t : ParseTree Rule} {ts : List (ParseTree Rule)}

theorem Maps.append {us : List (ParseTree Rule)} {ks js : List Node} (h : Maps source ts ks)
    (h' : Maps source us js) : Maps source (ts ++ us) (ks ++ js) := by
  induction h with
  | nil => exact h'
  | skip _ ih => exact .skip ih
  | cons hk _ ih => exact .cons hk ih

theorem Maps.one {k : Node} (h : MapsTo source t k) : Maps source [t] [k] := .cons h .nil

theorem mapsTo_of_leaf {k : Node} (h : Grown source (.leaf r span w)) (hs : k.span = span) (text : k.Reads w)
    (last : k.children = []) : MapsTo source (.leaf r span w) k := by
  have marks := h.marks_leaf
  have wide : span.start ≤ span.stop := marks.length_eq ▸ Nat.le_add_right _ _
  have order : InOrder span.start (([] : List (ParseTree Rule)).map ParseTree.span) span.stop := wide
  exact mapsTo_of_maps marks hs text order (last ▸ .nil)

theorem mapsTo_of_branch {k : Node} (h : Grown source (.branch r span ts)) (hs : k.span = span)
    (text : ∀ w, k.Reads w) (maps : Maps source ts k.children) : MapsTo source (.branch r span ts) k := by
  obtain ⟨w, marks⟩ := h.marks
  exact mapsTo_of_maps marks hs (text w) h.inOrder maps

theorem identOf_mapsTo {i : Ident} (h : Grown source t) (hi : identOf t = .ok i) : MapsTo source t (.ident i) := by
  unfold identOf at hi
  split at hi
  · cases hi
    exact mapsTo_of_leaf h rfl (by simp [Node.Reads]) rfl
  · cases hi

theorem typeRefOf_mapsTo {u : TypeRef} (h : Grown source t) (hu : typeRefOf t = .ok u) :
    MapsTo source t (.type u) := by
  unfold typeRefOf at hu
  split at hu
  · split at hu
    · cases hu
      exact mapsTo_of_branch h rfl (fun _ => trivial) (.skip .nil)
    · cases hu
  · cases hu

theorem paramOf_mapsTo {p : Param} (h : Grown source t) (hp : paramOf t = .ok p) : MapsTo source t (.param p) := by
  unfold paramOf at hp
  split at hp
  · simp only [bind_eq_ok, pure_eq_ok] at hp
    obtain ⟨name, hn, type, ht, rfl⟩ := hp
    have below := h.forall_below rfl
    exact mapsTo_of_branch h rfl (fun _ => trivial)
      (.cons (identOf_mapsTo (below _ (by simp)) hn) (.one (typeRefOf_mapsTo (below _ (by simp)) ht)))
  · cases hp

theorem maps_of_mapM {α : Type} {f : ParseTree Rule → Parsed α} {node : α → Node}
    (h : ∀ t ∈ ts, ∀ a, f t = .ok a → MapsTo source t (node a)) {as : List α} (ha : ts.mapM f = .ok as) :
    Maps source ts (as.map node) := by
  induction ts generalizing as with
  | nil =>
    simp only [List.mapM_nil, pure_eq_ok] at ha
    exact ha ▸ .nil
  | cons t ts ih =>
    simp only [List.mapM_cons, bind_eq_ok, pure_eq_ok] at ha
    obtain ⟨a, hta, as, has, rfl⟩ := ha
    obtain ⟨first, rest⟩ := List.forall_mem_cons.1 h
    exact .cons (first a hta) (ih rest has)

theorem paramListOf_mapsTo {l : ParamList} (h : Grown source t) (hl : paramListOf t = .ok l) :
    MapsTo source t (.params l) := by
  unfold paramListOf at hl
  split at hl
  · simp only [bind_eq_ok, pure_eq_ok] at hl
    obtain ⟨ps, hps, rfl⟩ := hl
    have below := h.forall_below rfl
    exact mapsTo_of_branch h rfl (fun _ => trivial) (maps_of_mapM (fun t ht p => paramOf_mapsTo (below t ht)) hps)
  · cases hl

def signatureNodes (name : Ident) (params : Option ParamList) (result : TypeRef) : List Node :=
  .ident name :: (params.toList.map .params ++ [.type result])

theorem signatureOf_maps {n u : ParseTree Rule} {name : Ident} {params : Option ParamList}
    {result : TypeRef} (hn : Grown source n) (hu : Grown source u) (hr : u.rule = .primitiveType)
    (h : signatureOf span (n :: u :: ts) = .ok (name, params, result)) :
    Maps source [n, u] (signatureNodes name params result) := by
  simp only [signatureOf, hr, bind_eq_ok, pure_eq_ok] at h
  obtain ⟨i, hi, type, ht, same⟩ := h
  cases same
  exact .cons (identOf_mapsTo hn hi) (.one (typeRefOf_mapsTo hu ht))

theorem signatureOf_params_maps {n l u : ParseTree Rule} {name : Ident} {params : Option ParamList}
    {result : TypeRef} (hn : Grown source n) (hl : Grown source l) (hp : l.rule = .paramList) (hu : Grown source u)
    (h : signatureOf span (n :: l :: u :: ts) = .ok (name, params, result)) :
    Maps source [n, l, u] (signatureNodes name params result) := by
  simp only [signatureOf, hp, bind_eq_ok, pure_eq_ok] at h
  obtain ⟨i, hi, ps, hps, type, ht, same⟩ := h
  cases same
  exact .cons (identOf_mapsTo hn hi) (.cons (paramListOf_mapsTo hl hps) (.one (typeRefOf_mapsTo hu ht)))

structure ReadsMapped (source : List Char) (t : ParseTree Rule) : Prop where
  expr : t.rule ∈ Rule.operands → ∀ e, exprOf t = .ok e → MapsTo source t (.expr e)
  stmt : t.rule ∈ Rule.statements → ∀ s, stmtOf t = .ok s → MapsTo source t (.stmt s)
  block : ∀ span ts body, t = .branch .block span ts → stmtsOf ts = .ok body → MapsTo source t (.block body span)

theorem linksOf_maps (trees : LinkTrees ts)
    (h : ∀ t ∈ ts, t.rule ∈ Rule.operands → ∀ e, exprOf t = .ok e → MapsTo source t (.expr e))
    {links : List (Operator × Expr)} (hl : linksOf ts = .ok links) :
    Maps source ts ((links.map Prod.snd).map .expr) := by
  induction trees generalizing links with
  | nil =>
    cases hl
    exact .nil
  | @cons o t ts op ho ht more ih =>
    have sign : o.rule.operator? = some op := ho ▸ op.operator?_rule
    simp only [linksOf, sign, bind_eq_ok, pure_eq_ok] at hl
    obtain ⟨e, he, links, hls, rfl⟩ := hl
    exact .skip (.cons (h t (by simp) ht e he) (ih (fun u hu => h u (by simp [hu])) hls))

theorem stmtsOf_maps (h : ∀ t ∈ ts, ∀ s, stmtOf t = .ok s → MapsTo source t (.stmt s)) {ss : List Stmt}
    (hss : stmtsOf ts = .ok ss) : Maps source ts (ss.map .stmt) := maps_of_mapM h (stmtsOf_eq_mapM ts ▸ hss)

theorem exprOf_token_mapsTo (h : Grown source (.leaf r span w)) (hr : r ∈ Rule.operands) (hk : r.kind = .lexeme)
    {e : Expr} (he : exprOf (.leaf r span w) = .ok e) : MapsTo source (.leaf r span w) (.expr e) := by
  obtain rfl | rfl | rfl := Rule.eq_of_operand_lexeme hr hk
  · cases he
    exact mapsTo_of_leaf h rfl trivial rfl
  · simp only [exprOf, intOf] at he
    split at he
    · rename_i v hv
      cases he
      exact mapsTo_of_leaf h rfl ⟨h.numeral, toInt_of_int32? hv⟩ rfl
    · cases he
  · cases he
    exact mapsTo_of_leaf h rfl (by simp [Node.Reads]) rfl

theorem exprOf_string_mapsTo {content : Span}
    (h : Grown source (.branch .stringLiteral span [.leaf .stringContent content w])) {e : Expr}
    (he : exprOf (.branch .stringLiteral span [.leaf .stringContent content w]) = .ok e) :
    MapsTo source (.branch .stringLiteral span [.leaf .stringContent content w]) (.expr e) := by
  simp only [exprOf, stringOf] at he
  split at he
  · cases he
    exact mapsTo_of_branch h rfl (fun _ => trivial) (.skip .nil)
  · cases he

theorem expression_mapsTo (h : Grown source (.branch .expression span ts)) (ih : ∀ t ∈ ts, ReadsMapped source t)
    {e : Expr} (he : exprOf (.branch .expression span ts) = .ok e) :
    MapsTo source (.branch .expression span ts) (.expr e) := by
  have order := h.inOrder
  cases h.shape (by simp [Rule.parts]) with
  | @expression t ts ht trees =>
    simp only [exprOf, bind_eq_ok, pure_eq_ok] at he
    obtain ⟨first, hf, links, hl, rfl⟩ := he
    obtain ⟨iht, ihts⟩ := List.forall_mem_cons.1 ih
    have maps : Maps source (t :: ts) ((first :: links.map Prod.snd).map .expr) :=
      .cons (iht.expr ht first hf) (linksOf_maps trees (fun u hu => (ihts u hu).expr) hl)
    obtain ⟨hfirst, hlinks, -⟩ := Chain.ofLinks_spec first links
    have operands : (Chain.ofLinks first links).operands = first :: links.map Prod.snd := by
      rw [Chain.operands, hfirst, hlinks]
    have spans : InOrder span.start ((Chain.ofLinks first links).operands.map Expr.span) span.stop := by
      have nodes := maps.inOrder order
      rw [List.map_map] at nodes
      exact operands ▸ nodes
    obtain ⟨mapped, low, -, high⟩ := Chain.mapped spans (by
      rw [operands]
      exact List.forall_mem_map.1 maps.mapped)
    exact ⟨mapped, low, high⟩

theorem call_mapsTo (h : Grown source (.branch .call span ts)) (ih : ∀ t ∈ ts, ReadsMapped source t)
    {e : Expr} (he : exprOf (.branch .call span ts) = .ok e) : MapsTo source (.branch .call span ts) (.expr e) := by
  have below := h.forall_below rfl
  cases h.shape (by simp [Rule.parts]) with
  | @call name args hn ha =>
    have grown := below name (by simp)
    obtain ⟨nameSpan, w, rfl⟩ := grown.exists_leaf hn rfl
    simp only [exprOf, bind_eq_ok, pure_eq_ok] at he
    obtain ⟨es, hes, rfl⟩ := he
    have callee : MapsTo source (.leaf .identifier nameSpan w) (.ident ⟨String.ofList w, nameSpan⟩) :=
      identOf_mapsTo grown rfl
    rw [exprsOf_eq_mapM] at hes
    refine mapsTo_of_branch h rfl (fun _ => trivial) (.cons callee (maps_of_mapM (fun t ht => ?_) hes))
    exact (ih t (List.mem_cons_of_mem _ ht)).expr (by simp [ha t ht, Rule.operands])

theorem lastBlockOf_mapsTo {body : List Stmt} {bodySpan : Span} (ih : ReadsMapped source t)
    (h : Grown source t) (hr : t.rule = .block) (hb : lastBlockOf span [t] = .ok (body, bodySpan)) :
    MapsTo source t (.block body bodySpan) := by
  obtain ⟨_, _, rfl, -⟩ := h.exists_branch hr rfl
  simp only [lastBlockOf, bind_eq_ok, pure_eq_ok] at hb
  obtain ⟨ss, hss, same⟩ := hb
  cases same
  exact ih.block _ _ _ rfl hss

theorem block_mapsTo (h : Grown source (.branch .block span ts)) (ih : ∀ t ∈ ts, ReadsMapped source t)
    {body : List Stmt} (hb : stmtsOf ts = .ok body) : MapsTo source (.branch .block span ts) (.block body span) := by
  cases h.shape (by simp [Rule.parts, Rule.statements]) with
  | block hs =>
    exact mapsTo_of_branch h rfl (fun _ => trivial) (stmtsOf_maps (fun t ht => (ih t ht).stmt (hs t ht)) hb)

theorem stmtOf_mapsTo (hs : r ∈ Rule.statements) (h : Grown source (.branch r span ts))
    (below : ∀ t ∈ ts, Grown source t) (ih : ∀ t ∈ ts, ReadsMapped source t) {s : Stmt}
    (hst : stmtOf (.branch r span ts) = .ok s) : MapsTo source (.branch r span ts) (.stmt s) := by
  have expr {t : ParseTree Rule} (ht : t ∈ ts) (hr : t.rule = .expression) {e : Expr} (he : exprOf t = .ok e) :
      MapsTo source t (.expr e) := (ih t ht).expr (by simp [hr, Rule.operands]) e he
  obtain ⟨w, marks, first, last⟩ := h.framed hs
  have framed (hc : ¬ (r = .ifStmt ∧ ts.length = 3)) (s : Stmt) : s.Framed w := ⟨first, .inr (last.resolve_left hc)⟩
  -- The shape of the tree says which children the reader goes to, and in which order they stand.
  have order := h.inOrder
  cases h.shape (List.mem_append_left _ hs) with
  | @imported u u' name result hw hw' hn hr =>
    simp only [stmtOf, bind_eq_ok, pure_eq_ok] at hst
    obtain ⟨⟨i, ps, type⟩, hsig, rfl⟩ := hst
    have sign := signatureOf_maps (below name (by simp)) (below result (by simp)) hr hsig
    exact mapsTo_of_maps marks rfl (framed (by simp) _) order (.skip (.skip sign))
  | @importedWith u u' name params result hw hw' hn hp hr =>
    simp only [stmtOf, bind_eq_ok, pure_eq_ok] at hst
    obtain ⟨⟨i, ps, type⟩, hsig, rfl⟩ := hst
    have sign := signatureOf_params_maps (below name (by simp)) (below params (by simp)) hp (below result (by simp))
      hsig
    exact mapsTo_of_maps marks rfl (framed (by simp) _) order (.skip (.skip sign))
  | @function u name result body hw hn hr hb =>
    simp only [stmtOf, lastBlockOf_cons_cons, bind_eq_ok, pure_eq_ok] at hst
    obtain ⟨⟨i, ps, type⟩, hsig, ⟨ss, bodySpan⟩, hbody, rfl⟩ := hst
    have sign := signatureOf_maps (below name (by simp)) (below result (by simp)) hr hsig
    have block := lastBlockOf_mapsTo (ih body (by simp)) (below body (by simp)) hb hbody
    refine mapsTo_of_maps marks rfl (framed (by simp) _) order (.skip ?_)
    simpa [Node.children, signatureNodes] using sign.append (.one block)
  | @functionWith u name params result body hw hn hp hr hb =>
    simp only [stmtOf, lastBlockOf_cons_cons, bind_eq_ok, pure_eq_ok] at hst
    obtain ⟨⟨i, ps, type⟩, hsig, ⟨ss, bodySpan⟩, hbody, rfl⟩ := hst
    have sign := signatureOf_params_maps (below name (by simp)) (below params (by simp)) hp (below result (by simp))
      hsig
    have block := lastBlockOf_mapsTo (ih body (by simp)) (below body (by simp)) hb hbody
    refine mapsTo_of_maps marks rfl (framed (by simp) _) order (.skip ?_)
    simpa [Node.children, signatureNodes] using sign.append (.one block)
  | @while_ u condition body hw hc hb =>
    obtain ⟨_, _, rfl, -⟩ := (below body (by simp)).exists_branch hb rfl
    simp only [stmtOf, bind_eq_ok, pure_eq_ok] at hst
    obtain ⟨c, hcond, ss, hss, rfl⟩ := hst
    exact mapsTo_of_maps marks rfl (framed (by simp) _) order
      (.skip (.cons (expr (by simp) hc hcond) (.one ((ih _ (by simp)).block _ _ _ rfl hss))))
  | @ifThen u condition yes hw hc hy =>
    obtain ⟨_, _, rfl, -⟩ := (below yes (by simp)).exists_branch hy rfl
    simp only [stmtOf, bind_eq_ok, pure_eq_ok] at hst
    obtain ⟨c, hcond, ss, hss, rfl⟩ := hst
    exact mapsTo_of_maps marks rfl ⟨first, .inl ⟨_, _, _, _, rfl⟩⟩ order
      (.skip (.cons (expr (by simp) hc hcond) (.one ((ih _ (by simp)).block _ _ _ rfl hss))))
  | @ifElse u condition yes u' no hw hc hy hw' hn =>
    obtain ⟨_, _, rfl, -⟩ := (below yes (by simp)).exists_branch hy rfl
    obtain ⟨_, _, rfl, -⟩ := (below no (by simp)).exists_branch hn rfl
    simp only [stmtOf, bind_eq_ok, pure_eq_ok] at hst
    obtain ⟨c, hcond, ss, hss, us, hus, rfl⟩ := hst
    exact mapsTo_of_maps marks rfl (framed (by simp) _) order
      (.skip (.cons (expr (by simp) hc hcond) (.cons ((ih _ (by simp)).block _ _ _ rfl hss)
        (.skip (.one ((ih _ (by simp)).block _ _ _ rfl hus))))))
  | @return_ u value hw hv =>
    simp only [stmtOf, bind_eq_ok, pure_eq_ok] at hst
    obtain ⟨e, he, rfl⟩ := hst
    exact mapsTo_of_maps marks rfl (framed (by simp) _) order (.skip (.one (expr (by simp) hv he)))
  | block hs =>
    simp only [stmtOf, bind_eq_ok, pure_eq_ok] at hst
    obtain ⟨ss, hss, rfl⟩ := hst
    have block := block_mapsTo h ih hss
    have alone : InOrder span.start ([ParseTree.branch Rule.block span ts].map ParseTree.span) span.stop :=
      ⟨Nat.le.refl, block.mapped.start_le, Nat.le.refl⟩
    exact mapsTo_of_maps marks rfl (framed (by simp) _) alone (.one block)
  | @inferred name init hn hi =>
    simp only [stmtOf, bind_eq_ok, pure_eq_ok] at hst
    obtain ⟨i, hident, ⟨type, value⟩, hd, rfl⟩ := hst
    simp only [declaredOf, hi, bind_eq_ok, pure_eq_ok] at hd
    obtain ⟨e, he, same⟩ := hd
    cases same
    exact mapsTo_of_maps marks rfl (framed (by simp) _) order
      (.cons (identOf_mapsTo (below name (by simp)) hident) (.one (expr (by simp) hi he)))
  | @declared name type hn ht =>
    simp only [stmtOf, bind_eq_ok, pure_eq_ok] at hst
    obtain ⟨i, hident, ⟨type, value⟩, hd, rfl⟩ := hst
    simp only [declaredOf, ht, bind_eq_ok, pure_eq_ok] at hd
    obtain ⟨u, hu, same⟩ := hd
    cases same
    exact mapsTo_of_maps marks rfl (framed (by simp) _) order
      (.cons (identOf_mapsTo (below name (by simp)) hident) (.one (typeRefOf_mapsTo (below _ (by simp)) hu)))
  | @initialised name type init hn ht hi =>
    simp only [stmtOf, bind_eq_ok, pure_eq_ok] at hst
    obtain ⟨i, hident, ⟨type, value⟩, hd, rfl⟩ := hst
    simp only [declaredOf, bind_eq_ok, pure_eq_ok] at hd
    obtain ⟨u, hu, e, he, same⟩ := hd
    cases same
    exact mapsTo_of_maps marks rfl (framed (by simp) _) order
      (.cons (identOf_mapsTo (below name (by simp)) hident)
        (.cons (typeRefOf_mapsTo (below _ (by simp)) hu) (.one (expr (by simp) hi he))))
  | @assign target value ht hv =>
    simp only [stmtOf, bind_eq_ok, pure_eq_ok] at hst
    obtain ⟨i, hident, e, he, rfl⟩ := hst
    exact mapsTo_of_maps marks rfl (framed (by simp) _) order
      (.cons (identOf_mapsTo (below target (by simp)) hident) (.one (expr (by simp) hv he)))
  | @exprStmt value hv =>
    simp only [stmtOf, bind_eq_ok, pure_eq_ok] at hst
    obtain ⟨e, he, rfl⟩ := hst
    exact mapsTo_of_maps marks rfl (framed (by simp) _) order (.one (expr (by simp) hv he))
  | _ => simp [Rule.statements] at hs

theorem Grown.readsMapped (h : Grown source t) : ReadsMapped source t := by
  induction h with
  | leaf kind reached matched =>
    have grown := Grown.leaf kind reached matched
    refine ⟨fun hr e he => exprOf_token_mapsTo grown hr kind he, fun hr => ?_, fun _ _ _ same => ?_⟩
    · cases kind.symm.trans (Rule.kind_of_mem_statements hr)
    · cases same
  | string content reached opens inside closes =>
    have grown := Grown.string content reached opens inside closes
    refine ⟨fun _ e he => exprOf_string_mapsTo grown he, fun hr => ?_, fun _ _ _ same => ?_⟩
    · cases Rule.kind_of_mem_statements hr
    · cases same
  | @branch r c d ts kind reached matched below ih =>
    have grown := Grown.branch kind reached matched below
    refine ⟨fun hr e he => ?_, fun hr s hs => stmtOf_mapsTo hr grown below ih hs, fun _ _ body same hb => ?_⟩
    · obtain rfl | rfl := Rule.eq_of_operand_plain hr kind
      · exact expression_mapsTo grown ih he
      · exact call_mapsTo grown ih he
    · cases same
      exact block_mapsTo grown ih hb

end Reading

/-- The spans of a program that is read map it to its source, which is the span of the whole. -/
theorem Program.mapped_of_parse {source : String} {p : Program} (h : Program.parse source = .ok p) :
    p.span = ⟨0, source.utf8ByteSize⟩ ∧ (Node.program p).Mapped source.toList := by
  obtain ⟨ts, last, d, matched, grown, order, parsed⟩ | ⟨-, offset, expected, failed⟩ := Program.parse_cases source
  · rw [parsed] at h
    simp only [bind_eq_ok, pure_eq_ok] at h
    obtain ⟨ss, hss, rfl⟩ := h
    have maps := stmtsOf_maps (fun t ht => (grown t ht).1.readsMapped.stmt (grown t ht).2) hss
    have whole : Span.Marks ⟨0, source.utf8ByteSize⟩ source.toList source.toList :=
      ⟨[], [], by simp, by simp [utf8Length, utf8Length_toList]⟩
    exact ⟨rfl, .intro whole trivial (maps.inOrder order) maps.mapped⟩
  · rw [failed] at h
    cases h

def Program.stretchedText : String :=
  "fn f(a: int) -> int \x7b return (a + -12) * 2; \x7d if (b) \x7b s := \"ü\"; \x7d // é\n"

def Program.stretched : Program where
  body :=
    [.function ⟨"f", ⟨3, 4⟩⟩ (some ⟨[⟨⟨"a", ⟨5, 6⟩⟩, ⟨.int, ⟨8, 11⟩⟩, ⟨5, 11⟩⟩], ⟨5, 11⟩⟩) ⟨.int, ⟨16, 19⟩⟩
        [.return_
          (.binary .mul (.binary .add (.ident "a" ⟨30, 31⟩) (.int (-12) ⟨34, 37⟩) ⟨30, 37⟩) (.int 2 ⟨41, 42⟩)
            ⟨30, 42⟩)
          ⟨22, 43⟩]
        ⟨20, 45⟩ ⟨0, 45⟩,
      .ifThen (.ident "b" ⟨50, 51⟩) [.var ⟨"s", ⟨55, 56⟩⟩ none (some (.string "ü" ⟨60, 64⟩)) ⟨55, 65⟩] ⟨53, 67⟩
        ⟨46, 74⟩]
  span := ⟨0, 74⟩

theorem Program.stretched_mapped :
    Program.parse stretchedText = .ok stretched ∧ stretched.span = ⟨0, stretchedText.utf8ByteSize⟩ ∧
      (Node.program stretched).Mapped stretchedText.toList := by
  have parsed : Program.parse stretchedText = .ok stretched := by cbv
  exact ⟨parsed, Program.mapped_of_parse parsed⟩

end ImpWasm
