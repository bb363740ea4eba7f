import ImpWasm.Proofs.Lang.Shapes
set_option autoImplicit false

namespace ImpWasm

open Peg (ParseTree)

section FailsFirst

variable {ε α β : Type}

/-- The computation succeeds if there are no faults, and otherwise fails with the first of them. -/
def FailsFirst (x : Except ε α) (faults : List ε) : Prop :=
  match x with
  | .ok _ => faults = []
  | .error e => ∃ more, faults = e :: more

theorem failsFirst_pure (a : α) : FailsFirst (pure a : Except ε α) [] := rfl

theorem FailsFirst.bind {x : Except ε α} {f : α → Except ε β} {es fs : List ε} (hx : FailsFirst x es)
    (hf : ∀ a, FailsFirst (f a) fs) : FailsFirst (x >>= f) (es ++ fs) := by
  cases x with
  | ok a =>
    obtain rfl : es = [] := hx
    exact hf a
  | error e =>
    obtain ⟨more, rfl⟩ := hx
    exact ⟨more ++ fs, rfl⟩

theorem FailsFirst.bind_pure {x : Except ε α} {f : α → β} {es : List ε} (hx : FailsFirst x es) :
    FailsFirst (x >>= fun a => pure (f a)) es := by
  simpa using hx.bind fun a => failsFirst_pure (f a)

theorem FailsFirst.map {x : Except ε α} {es : List ε} (hx : FailsFirst x es) (f : α → β) :
    FailsFirst (x.map f) es := by
  cases x with
  | ok a => exact hx
  | error e => exact hx

end FailsFirst

namespace Escape

def letters : List Char := ['n', 't', 'r', '\\', '"']

theorem mem_letters_iff {c : Char} : c ∈ letters ↔ ∃ x, meaning? c = some x := by
  unfold meaning?
  split <;> simp_all [letters]

/-- The backslashes of a text at an offset that make no escape with the characters after them. -/
def faults (offset : Nat) : List Char → List Fault
  | [] => []
  | ['\\'] => [⟨offset, ['\\']⟩]
  | '\\' :: c :: k =>
    (if c ∈ letters then [] else [⟨offset, ['\\', c]⟩]) ++ faults (offset + 1 + c.utf8Size) k
  | c :: k => faults (offset + c.utf8Size) k

theorem faults_plain (offset : Nat) {c : Char} (hc : c ≠ '\\') (k : List Char) :
    faults offset (c :: k) = faults (offset + c.utf8Size) k :=
  faults.eq_4 _ _ _ (fun h _ => hc h) fun _ _ h _ => hc h

theorem decode_failsFirst (offset : Nat) (w : List Char) : FailsFirst (decode offset w) (faults offset w) := by
  fun_induction decode offset w with
  | case1 => rfl
  | case2 offset => exact ⟨[], rfl⟩
  | case3 offset l cs c hc ih =>
    have letter : l ∈ letters := mem_letters_iff.2 ⟨c, hc⟩
    simpa [faults, letter] using ih.map (c :: ·)
  | case4 offset l cs hn =>
    have letter : l ∉ letters := fun hl => by
      obtain ⟨c, hc⟩ := mem_letters_iff.1 hl
      rw [hn] at hc
      cases hc
    simp [faults, letter, FailsFirst]
  | case5 offset c cs h1 h2 ih =>
    rw [faults.eq_4 offset c cs h1 h2]
    exact ih.map (c :: ·)

end Escape

namespace Peg.ParseTree

variable {R : Type}

mutual

def leaves : ParseTree R → List (ParseTree R)
  | .leaf r span w => [.leaf r span w]
  | .branch _ _ ts => leavesAll ts

def leavesAll : List (ParseTree R) → List (ParseTree R)
  | [] => []
  | t :: ts => t.leaves ++ leavesAll ts

end

theorem leavesAll_eq (ts : List (ParseTree R)) : leavesAll ts = ts.flatMap leaves := by
  induction ts with
  | nil => rfl
  | cons t ts ih => rw [leavesAll, ih, List.flatMap_cons]

theorem leaves_branch (r : R) (span : Span) (ts : List (ParseTree R)) :
    (branch r span ts).leaves = ts.flatMap leaves := leavesAll_eq ts

end Peg.ParseTree

section Faults

def escapeError (f : Escape.Fault) : ParseError :=
  .invalidEscape ⟨f.offset, f.offset + utf8Length f.found⟩ (String.ofList f.found)

def leafFaults : ParseTree Rule → List ParseError
  | .leaf .intLiteral span w => if (Decimal.int32? w).isSome then [] else [.invalidInteger span (String.ofList w)]
  | .leaf .stringContent span w => (Escape.faults span.start w).map escapeError
  | _ => []

def Peg.ParseTree.faults (t : ParseTree Rule) : List ParseError := t.leaves.flatMap leafFaults

variable {source : List Char} {r : Rule} {span : Span} {w : List Char} {t : ParseTree Rule}
  {ts : List (ParseTree Rule)} {e : ParseError}

theorem faults_leaf : (ParseTree.leaf r span w).faults = leafFaults (.leaf r span w) := by
  simp [ParseTree.faults, ParseTree.leaves]

theorem faults_branch : (ParseTree.branch r span ts).faults = ts.flatMap ParseTree.faults := by
  rw [ParseTree.faults, ParseTree.leaves_branch, List.flatMap_assoc]
  rfl

/-- Integers and strings apart, there is nothing in a token that can be wrong. -/
theorem Grown.faults_token (h : Grown source t) (hk : t.rule.kind = .lexeme) (hi : t.rule ≠ .intLiteral)
    (hc : t.rule ≠ .stringContent) : t.faults = [] := by
  obtain ⟨span, w, same⟩ := h.exists_leaf rfl hk
  generalize t.rule = r at same hi hc
  subst same
  rw [faults_leaf]
  cases r <;> first | rfl | contradiction

theorem Grown.faults_ident (h : Grown source t) (hr : t.rule = .identifier) : t.faults = [] :=
  h.faults_token (by rw [hr]; rfl) (by simp [hr]) (by simp [hr])

theorem Grown.faults_operator (h : Grown source t) {op : Operator} (ho : t.rule = op.rule) : t.faults = [] := by
  obtain ⟨span, ts, rfl, -⟩ := h.exists_branch ho op.kind_rule
  have none : (Peg.text op.chars).Yields (ts.map ParseTree.rule) := op.body_rule ▸ h.yields op.kind_rule
  rw [List.map_eq_nil_iff.1 none, faults_branch, List.flatMap_nil]

end Faults

section Reading

variable {source : List Char} {r : Rule} {span : Span} {w : List Char} {t : ParseTree Rule}
  {ts : List (ParseTree Rule)}

theorem identOf_failsFirst (h : Grown source t) (hr : t.rule = .identifier) : FailsFirst (identOf t) t.faults := by
  rw [h.faults_ident hr]
  obtain ⟨span, w, rfl⟩ := h.exists_leaf hr rfl
  rfl

theorem typeRefOf_failsFirst (h : Grown source t) (hr : t.rule = .primitiveType) :
    FailsFirst (typeRefOf t) t.faults := by
  obtain ⟨span, ts, rfl, below⟩ := h.exists_branch hr rfl
  cases h.shape (by simp [Rule.parts]) with
  | @primitiveType u type hu =>
    have quiet : u.faults = [] := by
      refine (below u (by simp)).faults_token ?_ ?_ ?_
      · revert hu; cases u.rule <;> simp [Rule.primType?, Rule.kind]
      · rintro same; simp [same, Rule.primType?] at hu
      · rintro same; simp [same, Rule.primType?] at hu
    simp [faults_branch, quiet, typeRefOf, hu, FailsFirst]

theorem paramOf_failsFirst (h : Grown source t) (hr : t.rule = .param) : FailsFirst (paramOf t) t.faults := by
  obtain ⟨span, ts, rfl, below⟩ := h.exists_branch hr rfl
  cases h.shape (by simp [Rule.parts]) with
  | @param name type hn ht =>
    have first := identOf_failsFirst (below name (by simp)) hn
    have second := typeRefOf_failsFirst (below type (by simp)) ht
    simpa [faults_branch, paramOf] using first.bind fun a => second.bind_pure

theorem mapM_failsFirst {α : Type} {f : ParseTree Rule → Parsed α} (h : ∀ t ∈ ts, FailsFirst (f t) t.faults) :
    FailsFirst (ts.mapM f) (ts.flatMap ParseTree.faults) := by
  induction ts with
  | nil => exact failsFirst_pure _
  | cons t ts ih =>
    obtain ⟨first, rest⟩ := List.forall_mem_cons.1 h
    rw [List.mapM_cons, List.flatMap_cons]
    exact first.bind fun a => (ih rest).bind_pure

theorem paramListOf_failsFirst (h : Grown source t) (hr : t.rule = .paramList) :
    FailsFirst (paramListOf t) t.faults := by
  obtain ⟨span, ts, rfl, below⟩ := h.exists_branch hr rfl
  cases h.shape (by simp [Rule.parts]) with
  | paramList hp =>
    have each := mapM_failsFirst fun t ht => paramOf_failsFirst (below t ht) (hp t ht)
    simpa [faults_branch, paramListOf] using each.bind_pure

theorem exprOf_token_failsFirst (hr : r ∈ Rule.operands) (hk : r.kind = .lexeme) :
    FailsFirst (exprOf (.leaf r span w)) (ParseTree.leaf r span w).faults := by
  rw [faults_leaf]
  obtain rfl | rfl | rfl := Rule.eq_of_operand_lexeme hr hk
  · rfl
  · simp only [exprOf, intOf, leafFaults]
    cases Decimal.int32? w with
    | none => exact ⟨[], rfl⟩
    | some v => rfl
  · rfl

theorem exprOf_string_failsFirst (content : Span) :
    FailsFirst (exprOf (.branch .stringLiteral span [.leaf .stringContent content w]))
      (ParseTree.branch .stringLiteral span [.leaf .stringContent content w]).faults := by
  have decoded := Escape.decode_failsFirst content.start w
  simp only [faults_branch, List.flatMap_cons, List.flatMap_nil, List.append_nil, faults_leaf, leafFaults, exprOf,
    stringOf]
  cases hd : Escape.decode content.start w with
  | ok value =>
    rw [hd] at decoded
    exact congrArg (List.map escapeError) decoded
  | error fault =>
    rw [hd] at decoded
    obtain ⟨more, same⟩ := decoded
    exact ⟨more.map escapeError, congrArg (List.map escapeError) same⟩

theorem linksOf_failsFirst (links : LinkTrees ts) (grown : ∀ t ∈ ts, Grown source t)
    (h : ∀ t ∈ ts, t.rule ∈ Rule.operands → FailsFirst (exprOf t) t.faults) :
    FailsFirst (linksOf ts) (ts.flatMap ParseTree.faults) := by
  induction links with
  | nil => exact failsFirst_pure _
  | @cons o t ts op ho ht more ih =>
    have quiet : o.faults = [] := (grown o (by simp)).faults_operator ho
    have first := h t (by simp) ht
    have rest := ih (fun u hu => grown u (by simp [hu])) fun u hu => h u (by simp [hu])
    have sign : o.rule.operator? = some op := ho ▸ op.operator?_rule
    simp only [linksOf, sign, List.flatMap_cons, quiet, List.nil_append]
    exact first.bind fun a => rest.bind_pure

theorem stmtsOf_failsFirst (h : ∀ t ∈ ts, FailsFirst (stmtOf t) t.faults) :
    FailsFirst (stmtsOf ts) (ts.flatMap ParseTree.faults) := stmtsOf_eq_mapM ts ▸ mapM_failsFirst h

/-- Reading the tree fails with its first fault, whatever it is read as. -/
structure ReadsFirst (t : ParseTree Rule) : Prop where
  expr : t.rule ∈ Rule.operands → FailsFirst (exprOf t) t.faults
  stmt : t.rule ∈ Rule.statements → FailsFirst (stmtOf t) t.faults
  block : t.rule = .block → ∃ span ts, t = .branch .block span ts ∧ FailsFirst (stmtsOf ts) t.faults

theorem expression_failsFirst (h : Grown source (.branch .expression span ts)) (below : ∀ t ∈ ts, Grown source t)
    (ih : ∀ t ∈ ts, ReadsFirst t) :
    FailsFirst (exprOf (.branch .expression span ts)) (ParseTree.branch .expression span ts).faults := by
  cases h.shape (by simp [Rule.parts]) with
  | @expression t ts ht links =>
    obtain ⟨first, rest⟩ := List.forall_mem_cons.1 ih
    have chain := linksOf_failsFirst links (fun u hu => below u (by simp [hu])) fun u hu hr => (rest u hu).expr hr
    rw [faults_branch, List.flatMap_cons, exprOf]
    exact (first.expr ht).bind fun a => chain.bind_pure

theorem call_failsFirst (h : Grown source (.branch .call span ts)) (below : ∀ t ∈ ts, Grown source t)
    (ih : ∀ t ∈ ts, ReadsFirst t) :
    FailsFirst (exprOf (.branch .call span ts)) (ParseTree.branch .call span ts).faults := by
  cases h.shape (by simp [Rule.parts]) with
  | @call name args hn ha =>
    have quiet := (below name (by simp)).faults_ident hn
    obtain ⟨span, w, rfl⟩ := (below name (by simp)).exists_leaf hn rfl
    have each := mapM_failsFirst fun t ht =>
      (ih t (List.mem_cons_of_mem _ ht)).expr (by simp [ha t ht, Rule.operands])
    rw [faults_branch, List.flatMap_cons, quiet, exprOf, exprsOf_eq_mapM]
    exact each.bind_pure

theorem signatureOf_failsFirst {name result : ParseTree Rule} (span : Span)
    (ts : List (ParseTree Rule)) (hn : Grown source name)
    (hn' : name.rule = .identifier) (hr : Grown source result) (hr' : result.rule = .primitiveType) :
    FailsFirst (signatureOf span (name :: result :: ts)) (name.faults ++ result.faults) := by
  have first := identOf_failsFirst hn hn'
  have second := typeRefOf_failsFirst hr hr'
  obtain ⟨_, _, rfl, -⟩ := hr.exists_branch hr' rfl
  exact first.bind fun a => second.bind_pure

theorem signatureOf_params_failsFirst {name params result : ParseTree Rule} (span : Span)
    (ts : List (ParseTree Rule)) (hn : Grown source name) (hn' : name.rule = .identifier) (hp : Grown source params)
    (hp' : params.rule = .paramList) (hr : Grown source result) (hr' : result.rule = .primitiveType) :
    FailsFirst (signatureOf span (name :: params :: result :: ts))
      (name.faults ++ (params.faults ++ result.faults)) := by
  have first := identOf_failsFirst hn hn'
  have second := paramListOf_failsFirst hp hp'
  have third := typeRefOf_failsFirst hr hr'
  obtain ⟨_, _, rfl, -⟩ := hp.exists_branch hp' rfl
  exact first.bind fun a => second.bind fun b => third.bind_pure

theorem Grown.faults_word (h : Grown source t)
    (hr : t.rule ∈ [Rule.kwFn, .kwExtern, .kwReturn, .kwWhile, .kwIf, .kwElse]) : t.faults = [] := by
  refine h.faults_token ?_ ?_ ?_ <;> revert hr <;> cases t.rule <;> simp [Rule.kind]

theorem lastBlockOf_failsFirst (span : Span) (ih : ReadsFirst t) (hr : t.rule = .block) :
    FailsFirst (lastBlockOf span [t]) t.faults := by
  obtain ⟨_, ts, rfl, reads⟩ := ih.block hr
  exact reads.bind_pure

theorem stmtOf_failsFirst (hs : r ∈ Rule.statements) (h : Grown source (.branch r span ts))
    (below : ∀ t ∈ ts, Grown source t) (ih : ∀ t ∈ ts, ReadsFirst t) :
    FailsFirst (stmtOf (.branch r span ts)) (ParseTree.branch r span ts).faults := by
  have expr {t : ParseTree Rule} (ht : t ∈ ts) (hr : t.rule = .expression) : FailsFirst (exprOf t) t.faults :=
    (ih t ht).expr (by simp [hr, Rule.operands])
  have word {t : ParseTree Rule} (ht : t ∈ ts)
      (hr : t.rule ∈ [Rule.kwFn, .kwExtern, .kwReturn, .kwWhile, .kwIf, .kwElse]) : t.faults = [] :=
    (below t ht).faults_word hr
  -- The reader goes through the children from left to right, and their faults are listed in this order.
  rw [faults_branch]
  cases h.shape (List.mem_append_left _ hs) with
  | @imported w w' name result hw hw' hn hr =>
    have sign := signatureOf_failsFirst span [] (below name (by simp)) hn
      (below result (by simp)) hr
    simpa [stmtOf, word (t := w) (by simp) (by simp [hw]), word (t := w') (by simp) (by simp [hw'])]
      using sign.bind_pure
  | @importedWith w w' name params result hw hw' hn hp hr =>
    have sign := signatureOf_params_failsFirst span [] (below name (by simp)) hn
      (below params (by simp)) hp (below result (by simp)) hr
    simpa [stmtOf, word (t := w) (by simp) (by simp [hw]), word (t := w') (by simp) (by simp [hw'])]
      using sign.bind_pure
  | @function w name result body hw hn hr hb =>
    have sign := signatureOf_failsFirst span [body] (below name (by simp)) hn
      (below result (by simp)) hr
    have last := lastBlockOf_failsFirst span (ih body (by simp)) hb
    simpa [stmtOf, lastBlockOf_cons_cons, word (t := w) (by simp) (by simp [hw])]
      using sign.bind fun a => last.bind_pure
  | @functionWith w name params result body hw hn hp hr hb =>
    have sign := signatureOf_params_failsFirst span [body] (below name (by simp)) hn
      (below params (by simp)) hp (below result (by simp)) hr
    have last := lastBlockOf_failsFirst span (ih body (by simp)) hb
    simpa [stmtOf, lastBlockOf_cons_cons, word (t := w) (by simp) (by simp [hw])]
      using sign.bind fun a => last.bind_pure
  | @while_ w condition body hw hc hb =>
    obtain ⟨_, _, rfl, reads⟩ := (ih body (by simp)).block hb
    simpa [stmtOf, word (t := w) (by simp) (by simp [hw])]
      using (expr (by simp) hc).bind fun a => reads.bind_pure
  | @ifThen w condition yes hw hc hy =>
    obtain ⟨_, _, rfl, reads⟩ := (ih yes (by simp)).block hy
    simpa [stmtOf, word (t := w) (by simp) (by simp [hw])]
      using (expr (by simp) hc).bind fun a => reads.bind_pure
  | @ifElse w condition yes w' no hw hc hy hw' hn =>
    obtain ⟨_, _, rfl, reads⟩ := (ih yes (by simp)).block hy
    obtain ⟨_, _, rfl, reads'⟩ := (ih no (by simp)).block hn
    simpa [stmtOf, word (t := w) (by simp) (by simp [hw]), word (t := w') (by simp) (by simp [hw'])]
      using (expr (by simp) hc).bind fun a => reads.bind fun b => reads'.bind_pure
  | @return_ w value hw hv =>
    simpa [stmtOf, word (t := w) (by simp) (by simp [hw])] using (expr (by simp) hv).bind_pure
  | block hs => exact (stmtsOf_failsFirst fun t ht => (ih t ht).stmt (hs t ht)).bind_pure
  | @inferred name init hn hi =>
    have first := identOf_failsFirst (below name (by simp)) hn
    have second : FailsFirst (declaredOf [init]) init.faults := by
      simpa [declaredOf, hi] using (expr (by simp) hi).bind_pure
    simpa [stmtOf] using first.bind fun a => second.bind_pure
  | @declared name type hn ht =>
    have first := identOf_failsFirst (below name (by simp)) hn
    have second : FailsFirst (declaredOf [type]) type.faults := by
      simpa [declaredOf, ht] using (typeRefOf_failsFirst (below type (by simp)) ht).bind_pure
    simpa [stmtOf] using first.bind fun a => second.bind_pure
  | @initialised name type init hn ht hi =>
    have first := identOf_failsFirst (below name (by simp)) hn
    have second : FailsFirst (declaredOf [type, init]) (type.faults ++ init.faults) :=
      (typeRefOf_failsFirst (below type (by simp)) ht).bind fun a => (expr (by simp) hi).bind_pure
    simpa [stmtOf] using first.bind fun a => second.bind_pure
  | @assign target value ht hv =>
    have first := identOf_failsFirst (below target (by simp)) ht
    simpa [stmtOf] using first.bind fun a => (expr (by simp) hv).bind_pure
  | @exprStmt value hv => simpa [stmtOf] using (expr (by simp) hv).bind_pure
  | _ => simp [Rule.statements] at hs

theorem Grown.readsFirst (h : Grown source t) : ReadsFirst t := by
  induction h with
  | leaf kind reached matched =>
    refine ⟨fun hr => exprOf_token_failsFirst hr kind, fun hr => ?_, fun hr => ?_⟩
    · cases kind.symm.trans (Rule.kind_of_mem_statements hr)
    · cases kind.symm.trans (congrArg Rule.kind hr)
  | string content reached opens inside closes =>
    refine ⟨fun _ => exprOf_string_failsFirst _, fun hr => ?_, fun hr => ?_⟩
    · cases Rule.kind_of_mem_statements hr
    · cases hr
  | @branch r c d ts kind reached matched below ih =>
    have grown := Grown.branch kind reached matched below
    refine ⟨fun hr => ?_, fun hr => stmtOf_failsFirst hr grown below ih, fun hr => ?_⟩
    · obtain rfl | rfl := Rule.eq_of_operand_plain hr kind
      · exact expression_failsFirst grown below ih
      · exact call_failsFirst grown below ih
    · obtain rfl : r = .block := hr
      cases grown.shape (by simp [Rule.parts, Rule.statements]) with
      | block hs => exact ⟨_, _, rfl, faults_branch ▸ stmtsOf_failsFirst fun t ht => (ih t ht).stmt (hs t ht)⟩

end Reading

end ImpWasm
