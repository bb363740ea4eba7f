import ImpWasm.Typing.Env
set_option autoImplicit false

/-!
Scopes as a reader of a program sees them: the names of the scopes in sight, the innermost first.
Entering a scope puts an empty one in front, a declaration adds to the first, and leaving takes it
away. Looking a name up and counting the depth are questions about this list.
-/
namespace ImpWasm

abbrev Names (α : Type) := String → Option α

namespace Names

variable {α β : Type}

def empty : Names α := fun _ => none

def insert (names : Names α) (name : String) (a : α) : Names α :=
  fun x => if x = name then some a else names x

def map (f : α → β) (names : Names α) : Names β := fun x => (names x).map f

@[simp] theorem insert_self (names : Names α) (name : String) (a : α) : names.insert name a name = some a := by
  simp [insert]

theorem insert_ne {names : Names α} {name x : String} {a : α} (h : x ≠ name) :
    names.insert name a x = names x := by
  simp [insert, h]

@[simp] theorem map_insert (f : α → β) (names : Names α) (name : String) (a : α) :
    (names.insert name a).map f = (names.map f).insert name (f a) := by
  funext x
  by_cases h : x = name <;> simp [map, insert, h]

end Names

namespace Env

/-- Every scope in sight exists, a scope lies inside one that was opened before it, symbols stand at
their numbers, and a bound name has a symbol of that name. -/
structure WellFormed (env : Env) : Prop where
  current : env.current < env.scopes.length
  parents : ∀ {i p : Nat}, env.parent? i = some p → p < i
  ids : ∀ {i : Nat} {s : Symbol}, env.symbols[i]? = some s → s.id = i
  bindings : ∀ {i : Nat} {sc : Scope}, env.scopes[i]? = some sc → ∀ b ∈ sc.bindings,
    ∃ s, env.symbols[b.2]? = some s ∧ s.name = b.1

theorem wellFormed_empty : ({} : Env).WellFormed where
  current := by decide
  parents {i p} h := by
    cases i with
    | zero => simp [parent?] at h
    | succ i => simp [parent?] at h
  ids h := by simp at h
  bindings {i sc} h := by
    cases i with
    | zero =>
      obtain rfl := Option.some.inj h
      simp
    | succ i => simp at h

/-- The names of a scope and of those around it, at most `n` in all. -/
def stackFrom (env : Env) : (n : Nat) → (scope : Nat) → List (Names Symbol)
  | 0, _ => []
  | n+1, scope =>
    env.bound? scope ::
      match env.parent? scope with
      | some p => env.stackFrom n p
      | none => []

def stack (env : Env) : List (Names Symbol) := env.stackFrom (env.current + 1) env.current

def innermost (env : Env) : Names Symbol := env.bound? env.current

def outer (env : Env) : List (Names Symbol) :=
  match env.parent? env.current with
  | some p => env.stackFrom env.current p
  | none => []

theorem stack_eq_cons (env : Env) : env.stack = env.innermost :: env.outer := rfl

theorem lookupFrom_eq (env : Env) (name : String) (n scope : Nat) :
    env.lookupFrom name n scope = (env.stackFrom n scope).findSome? (· name) := by
  induction n generalizing scope with
  | zero => rfl
  | succ n ih =>
    unfold lookupFrom stackFrom
    rw [List.findSome?_cons]
    cases env.bound? scope name with
    | some s => rfl
    | none =>
      cases env.parent? scope with
      | none => rfl
      | some p => exact ih p

theorem lookup_eq (env : Env) (name : String) : env.lookup name = env.stack.findSome? (· name) :=
  env.lookupFrom_eq name _ _

section WellFormed

variable {env env' : Env}

theorem WellFormed.depthFrom_eq (h : env.WellFormed) {n scope : Nat} (hn : scope < n) :
    env.depthFrom n scope + 1 = (env.stackFrom n scope).length := by
  induction n generalizing scope with
  | zero => omega
  | succ n ih =>
    unfold depthFrom stackFrom
    cases hp : env.parent? scope with
    | none => rfl
    | some p =>
      have hlt := h.parents hp
      simp [ih (show p < n by omega)]

theorem WellFormed.depth_eq (h : env.WellFormed) : env.depth = env.outer.length := by
  have hd := h.depthFrom_eq (Nat.lt_succ_self env.current)
  have hs : (env.stackFrom (env.current + 1) env.current).length = env.outer.length + 1 := rfl
  rw [hs] at hd
  exact Nat.succ.inj hd

/-- More steps than there are scopes find no more of them. -/
theorem WellFormed.stackFrom_enough (h : env.WellFormed) {n m scope : Nat} (hn : scope < n) (hm : scope < m) :
    env.stackFrom n scope = env.stackFrom m scope := by
  induction n generalizing m scope with
  | zero => omega
  | succ n ih =>
    cases m with
    | zero => omega
    | succ m =>
      unfold stackFrom
      cases hp : env.parent? scope with
      | none => rfl
      | some p =>
        have hlt := h.parents hp
        simp only [ih (show p < n by omega) (show p < m by omega)]

theorem WellFormed.stackFrom_congr (h : env.WellFormed) {n scope : Nat}
    (hb : ∀ i ≤ scope, env'.bound? i = env.bound? i) (hp : ∀ i ≤ scope, env'.parent? i = env.parent? i) :
    env'.stackFrom n scope = env.stackFrom n scope := by
  induction n generalizing scope with
  | zero => rfl
  | succ n ih =>
    unfold stackFrom
    rw [hb scope (Nat.le_refl _), hp scope (Nat.le_refl _)]
    cases hparent : env.parent? scope with
    | none => rfl
    | some p =>
      have hlt := h.parents hparent
      have hrest : env'.stackFrom n p = env.stackFrom n p :=
        ih (fun i hi => hb i (by omega)) (fun i hi => hp i (by omega))
      simp only [hrest]

theorem WellFormed.lookup_binding (h : env.WellFormed) {i id : Nat} {sc : Scope} {name : String}
    (hs : env.scopes[i]? = some sc) (hl : sc.bindings.lookup name = some id) :
    ∃ s, env.symbols[id]? = some s ∧ s.name = name := by
  obtain ⟨l₁, l₂, hmem, _⟩ := List.lookup_eq_some_iff.1 hl
  exact h.bindings hs (name, id) (by simp [hmem])

theorem WellFormed.bound_symbol (h : env.WellFormed) {i : Nat} {name : String} {s : Symbol}
    (hb : env.bound? i name = some s) : env.symbols[s.id]? = some s ∧ s.name = name := by
  obtain ⟨sc, hsc, hb⟩ := Option.bind_eq_some_iff.1 hb
  obtain ⟨id, hid, hs⟩ := Option.bind_eq_some_iff.1 hb
  obtain ⟨s', hs', hname⟩ := h.lookup_binding hsc hid
  obtain rfl := Option.some.inj (hs.symm.trans hs')
  rw [h.ids hs]
  exact ⟨hs, hname⟩

theorem WellFormed.lookupFrom_symbol (h : env.WellFormed) {name : String} {s : Symbol} {n scope : Nat}
    (hl : env.lookupFrom name n scope = some s) : env.symbols[s.id]? = some s ∧ s.name = name := by
  induction n generalizing scope with
  | zero => cases hl
  | succ n ih =>
    unfold lookupFrom at hl
    split at hl
    · rename_i s' hb
      obtain rfl := Option.some.inj hl
      exact h.bound_symbol hb
    · obtain ⟨p, _, hrest⟩ := Option.bind_eq_some_iff.1 hl
      exact ih hrest

theorem WellFormed.lookup_symbol (h : env.WellFormed) {name : String} {s : Symbol}
    (hl : env.lookup name = some s) : env.symbols[s.id]? = some s ∧ s.name = name :=
  h.lookupFrom_symbol hl

/-- A symbol that a scope binds stays the same as long as the scope does. -/
theorem WellFormed.bound_congr (h : env.WellFormed) {i : Nat} (hs : env'.scopes[i]? = env.scopes[i]?)
    (hsym : env.symbols <+: env'.symbols) : env'.bound? i = env.bound? i := by
  funext name
  obtain ⟨more, hmore⟩ := hsym
  unfold bound?
  rw [hs]
  cases hi : env.scopes[i]? with
  | none => rfl
  | some s =>
    cases hl : s.bindings.lookup name with
    | none => simp [hl]
    | some id =>
      obtain ⟨sym, hsym, _⟩ := h.lookup_binding hi hl
      have hid := (List.getElem?_eq_some_iff.1 hsym).1
      simp [hl, ← hmore, List.getElem?_append_left hid]

end WellFormed

/-- A later state of the same scope: it may have more names, and there may be more scopes. Symbols that
were added belong to the one or to the others. -/
structure After (env env' : Env) : Prop where
  current : env'.current = env.current
  parent : env'.parent? env.current = env.parent? env.current
  others : ∀ i < env.scopes.length, i ≠ env.current → env'.scopes[i]? = env.scopes[i]?
  scopes : env.scopes.length ≤ env'.scopes.length
  symbols : env.symbols <+: env'.symbols
  added : ∀ i s, env.symbols.length ≤ i → env'.symbols[i]? = some s →
    s.scope = env.current ∨ env.scopes.length ≤ s.scope

/-- A later state in which the current scope has the same names. -/
structure Quiet (env env' : Env) : Prop where
  current : env'.current = env.current
  scopes : env.scopes <+: env'.scopes
  symbols : env.symbols <+: env'.symbols
  added : ∀ i s, env.symbols.length ≤ i → env'.symbols[i]? = some s → env.scopes.length ≤ s.scope

section Later

variable {env env' env'' : Env}

theorem Quiet.refl (env : Env) : env.Quiet env :=
  ⟨rfl, List.prefix_rfl, List.prefix_rfl, fun _ _ hi hs => by simp [List.getElem?_eq_none hi] at hs⟩

theorem added_between {s : Symbol} {i : Nat} (h : env'.symbols <+: env''.symbols)
    (hs : env''.symbols[i]? = some s) : env'.symbols[i]? = some s ∨ env'.symbols.length ≤ i := by
  rcases Nat.lt_or_ge i env'.symbols.length with hi | hi
  · obtain ⟨more, hmore⟩ := h
    rw [← hmore, List.getElem?_append_left hi] at hs
    exact .inl hs
  · exact .inr hi

theorem Quiet.trans (h : env.Quiet env') (h' : env'.Quiet env'') : env.Quiet env'' where
  current := h'.current.trans h.current
  scopes := h.scopes.trans h'.scopes
  symbols := h.symbols.trans h'.symbols
  added i s hi hs := by
    rcases added_between h'.symbols hs with hmid | hge
    · exact h.added i s hi hmid
    · exact Nat.le_trans h.scopes.length_le (h'.added i s hge hs)

theorem After.trans (h : env.After env') (h' : env'.After env'') : env.After env'' where
  current := h'.current.trans h.current
  parent := by
    have hp := h'.parent
    rw [h.current] at hp
    exact hp.trans h.parent
  others i hi hne := by
    rw [h'.others i (Nat.lt_of_lt_of_le hi h.scopes) (h.current ▸ hne), h.others i hi hne]
  scopes := Nat.le_trans h.scopes h'.scopes
  symbols := h.symbols.trans h'.symbols
  added i s hi hs := by
    rcases added_between h'.symbols hs with hmid | hge
    · exact h.added i s hi hmid
    · rcases h'.added i s hge hs with hcur | hnew
      · exact .inl (hcur.trans h.current)
      · exact .inr (Nat.le_trans h.scopes hnew)

theorem Quiet.getElem?_scopes (h : env.Quiet env') {i : Nat} (hi : i < env.scopes.length) :
    env'.scopes[i]? = env.scopes[i]? := by
  obtain ⟨more, hmore⟩ := h.scopes
  rw [← hmore, List.getElem?_append_left hi]

theorem Quiet.after (h : env.Quiet env') (hlt : env.current < env.scopes.length) : env.After env' where
  current := h.current
  parent := by rw [parent?, parent?, h.getElem?_scopes hlt]
  others _ hi _ := h.getElem?_scopes hi
  scopes := h.scopes.length_le
  symbols := h.symbols
  added i s hi hs := .inr (h.added i s hi hs)

/-- Nothing that happens in a scope touches those around it. -/
theorem After.outer (h : env.After env') (hw : env.WellFormed) : env'.outer = env.outer := by
  unfold Env.outer
  rw [h.current, h.parent]
  cases hp : env.parent? env.current with
  | none => rfl
  | some p =>
    have hlt := hw.parents hp
    have hcur := hw.current
    have hsame : ∀ i ≤ p, env'.scopes[i]? = env.scopes[i]? :=
      fun i hi => h.others i (by omega) (by omega)
    refine hw.stackFrom_congr (fun i hi => hw.bound_congr (hsame i hi) h.symbols) fun i hi => ?_
    rw [parent?, parent?, hsame i hi]

theorem Quiet.stack (h : env.Quiet env') (hw : env.WellFormed) : env'.stack = env.stack := by
  have hin : env'.innermost = env.innermost := by
    rw [innermost, innermost, h.current, hw.bound_congr (h.getElem?_scopes hw.current) h.symbols]
  rw [stack_eq_cons, stack_eq_cons, (h.after hw.current).outer hw, hin]

theorem Quiet.lookup (h : env.Quiet env') (hw : env.WellFormed) (name : String) :
    env'.lookup name = env.lookup name := by
  rw [lookup_eq, lookup_eq, h.stack hw]

theorem After.depth (h : env.After env') (hw : env.WellFormed) (hw' : env'.WellFormed) :
    env'.depth = env.depth := by
  rw [hw.depth_eq, hw'.depth_eq, h.outer hw]

end Later

section Enter

variable {env inner : Env}

theorem parent?_enter_of_lt {i : Nat} (hi : i < env.scopes.length) : env.enter.parent? i = env.parent? i := by
  simp [enter, parent?, List.getElem?_append_left hi]

theorem parent?_enter_current (env : Env) : env.enter.parent? env.scopes.length = some env.current := by
  simp [enter, parent?]

theorem WellFormed.enter (h : env.WellFormed) : env.enter.WellFormed where
  current := by simp [Env.enter]
  parents {i p} hp := by
    rcases Nat.lt_trichotomy i env.scopes.length with hi | rfl | hi
    · exact h.parents ((parent?_enter_of_lt hi).symm.trans hp)
    · rw [parent?_enter_current] at hp
      obtain rfl := Option.some.inj hp
      exact h.current
    · simp [Env.enter, parent?, List.getElem?_append_right (Nat.le_of_lt hi),
        show i - env.scopes.length ≠ 0 by omega] at hp
  ids hs := h.ids hs
  bindings {i sc} hs := by
    rcases Nat.lt_or_ge i env.scopes.length with hi | hi
    · simp only [Env.enter, List.getElem?_append_left hi] at hs
      exact h.bindings hs
    · simp only [Env.enter, List.getElem?_append_right hi, List.getElem?_singleton] at hs
      split at hs
      · obtain rfl := Option.some.inj hs
        simp
      · cases hs

theorem WellFormed.stack_enter (h : env.WellFormed) : env.enter.stack = Names.empty :: env.stack := by
  have hlt := h.current
  have houter : env.enter.outer = env.enter.stackFrom env.scopes.length env.current := by
    unfold outer
    rw [show env.enter.current = env.scopes.length from rfl, parent?_enter_current]
  have hsame : ∀ i ≤ env.current, env.enter.scopes[i]? = env.scopes[i]? :=
    fun i hi => List.getElem?_append_left (by omega)
  have hrest : env.enter.stackFrom (env.current + 1) env.current = env.stack :=
    h.stackFrom_congr (fun i hi => h.bound_congr (hsame i hi) List.prefix_rfl)
      fun i hi => parent?_enter_of_lt (by omega)
  rw [stack_eq_cons, houter, ← hrest, h.enter.stackFrom_enough hlt (Nat.lt_succ_self _)]
  congr 1
  funext name
  simp [Env.enter, innermost, bound?, Names.empty]

/-- A scope that was entered can be left again, for the place it was entered from. -/
theorem After.leave (h : env.enter.After inner) :
    inner.leave = some { inner with current := env.current } := by
  have hp : inner.parent? inner.current = some env.current := by
    rw [h.current, h.parent]
    exact env.parent?_enter_current
  simp [Env.leave, hp]

theorem After.quiet (h : env.enter.After inner) : env.Quiet { inner with current := env.current } where
  current := rfl
  scopes := by
    rw [List.prefix_iff_getElem?]
    intro i hi
    have hne : i ≠ env.enter.current := by simp [Env.enter]; omega
    rw [h.others i (by simp [Env.enter]; omega) hne, Env.enter, List.getElem?_append_left hi,
      List.getElem?_eq_getElem hi]
  symbols := h.symbols
  added i s hi hs := by
    rcases h.added i s hi hs with hcur | hnew
    · exact Nat.le_of_eq hcur.symm
    · exact Nat.le_trans (by simp [Env.enter]) hnew

theorem WellFormed.withCurrent (h : inner.WellFormed) {i : Nat} (hi : i < inner.scopes.length) :
    ({ inner with current := i } : Env).WellFormed where
  current := hi
  parents hp := h.parents hp
  ids hs := h.ids hs
  bindings hs := h.bindings hs

theorem After.wellFormed_leave (h : env.enter.After inner) (hw : env.WellFormed) (hi : inner.WellFormed) :
    ({ inner with current := env.current } : Env).WellFormed := by
  refine hi.withCurrent (Nat.lt_of_lt_of_le hw.current (Nat.le_trans ?_ h.scopes))
  simp [Env.enter]

end Enter

section Declare

variable {env env' : Env} {name : String} {type : PrimType} {span : Option Span}

def newSymbol (env : Env) (name : String) (type : PrimType) (span : Option Span) : Symbol :=
  ⟨env.symbols.length, name, type, env.current, span⟩

theorem declare_eq_ok {s : Symbol} :
    env.declare name type span = .ok (env', s) ↔
      env.innermost name = none ∧ s = env.newSymbol name type span ∧
        env' = { env with scopes := env.bind name env.symbols.length, symbols := env.symbols ++ [s] } := by
  unfold declare innermost
  cases env.bound? env.current name with
  | some old => simp
  | none =>
    simp only [Except.ok.injEq, Prod.mk.injEq, newSymbol, true_and]
    constructor
    · rintro ⟨rfl, rfl⟩
      exact ⟨rfl, rfl⟩
    · rintro ⟨rfl, rfl⟩
      exact ⟨rfl, rfl⟩

theorem declare_of_fresh (type : PrimType) (span : Option Span) (h : env.innermost name = none) :
    ∃ env' s, env.declare name type span = .ok (env', s) := ⟨_, _, declare_eq_ok.2 ⟨h, rfl, rfl⟩⟩

theorem bind_getElem? (env : Env) (name : String) (id i : Nat) :
    (env.bind name id)[i]? =
      (env.scopes[i]?).map fun s =>
        if env.current = i then { s with bindings := (name, id) :: s.bindings } else s := by
  rw [bind, List.getElem?_modify]
  cases env.scopes[i]? with
  | none => rfl
  | some s => by_cases h : env.current = i <;> simp [h]

theorem parent?_bind (env : Env) (name : String) (id : Nat) (symbols : List Symbol) (i : Nat) :
    ({ env with scopes := env.bind name id, symbols } : Env).parent? i = env.parent? i := by
  simp only [parent?, bind_getElem?]
  cases env.scopes[i]? with
  | none => rfl
  | some s => by_cases h : env.current = i <;> simp [h]

theorem after_of_declare {s : Symbol} (h : env.declare name type span = .ok (env', s)) : env.After env' := by
  obtain ⟨-, rfl, rfl⟩ := declare_eq_ok.1 h
  refine ⟨rfl, parent?_bind .., fun i _ hne => ?_, by simp [bind], List.prefix_append _ _, fun i s hi hs => ?_⟩
  · rw [bind_getElem?]
    cases env.scopes[i]? with
    | none => rfl
    | some s => simp [Ne.symm hne]
  · rw [List.getElem?_append_right hi] at hs
    obtain rfl := List.mem_singleton.1 (List.mem_of_getElem? hs)
    exact .inl rfl

theorem WellFormed.declare {s : Symbol} (h : env.WellFormed)
    (hd : env.declare name type span = .ok (env', s)) : env'.WellFormed := by
  obtain ⟨-, rfl, rfl⟩ := declare_eq_ok.1 hd
  refine ⟨by simpa [bind] using h.current, fun hp => h.parents ((parent?_bind ..).symm.trans hp), ?_, ?_⟩
  · intro i t ht
    rcases Nat.lt_trichotomy i env.symbols.length with hi | rfl | hi
    · exact h.ids ((List.getElem?_append_left hi).symm.trans ht)
    · simp only [List.getElem?_concat_length, Option.some.injEq] at ht
      exact ht ▸ rfl
    · simp [List.getElem?_append_right (Nat.le_of_lt hi), show i - env.symbols.length ≠ 0 by omega] at ht
  · intro i t ht b hb
    rw [bind_getElem?] at ht
    obtain ⟨sc, hsc, rfl⟩ := Option.map_eq_some_iff.1 ht
    have hold : ∀ b ∈ sc.bindings,
        ∃ s, (env.symbols ++ [env.newSymbol name type span])[b.2]? = some s ∧ s.name = b.1 := by
      intro b hb
      obtain ⟨s, hs, hname⟩ := h.bindings hsc b hb
      exact ⟨s, by rw [List.getElem?_append_left (List.getElem?_eq_some_iff.1 hs).1, hs], hname⟩
    split at hb
    · cases List.mem_cons.1 hb with
      | inl hnew => exact ⟨env.newSymbol name type span, by simp [hnew], by rw [hnew]; rfl⟩
      | inr hrest => exact hold b hrest
    · exact hold b hb

theorem WellFormed.innermost_declare {s : Symbol} (h : env.WellFormed)
    (hd : env.declare name type span = .ok (env', s)) :
    env'.innermost = env.innermost.insert name s := by
  obtain ⟨-, rfl, rfl⟩ := declare_eq_ok.1 hd
  obtain ⟨sc, hsc⟩ : ∃ sc, env.scopes[env.current]? = some sc := ⟨_, List.getElem?_eq_getElem h.current⟩
  funext x
  by_cases hx : x = name
  · subst hx
    simp [innermost, bound?, bind_getElem?, hsc]
  · have hb : (x == name) = false := by simpa using hx
    have hl : ((name, env.symbols.length) :: sc.bindings).lookup x = sc.bindings.lookup x := by
      rw [List.lookup_cons, hb]
    rw [Names.insert_ne hx]
    simp only [innermost, bound?, bind_getElem?, hsc, Option.map_some, Option.bind_eq_bind, Option.bind_some,
      if_true, hl]
    cases hlook : sc.bindings.lookup x with
    | none => rfl
    | some id =>
      obtain ⟨sym, hsym, _⟩ := h.lookup_binding hsc hlook
      simp [List.getElem?_append_left (List.getElem?_eq_some_iff.1 hsym).1]

theorem WellFormed.stack_declare {s : Symbol} (h : env.WellFormed)
    (hd : env.declare name type span = .ok (env', s)) :
    env'.stack = env.innermost.insert name s :: env.outer := by
  rw [stack_eq_cons, h.innermost_declare hd, (after_of_declare hd).outer h]

theorem WellFormed.lookup_declare {s : Symbol} (h : env.WellFormed)
    (hd : env.declare name type span = .ok (env', s)) (x : String) :
    env'.lookup x = if x = name then some s else env.lookup x := by
  rw [lookup_eq, lookup_eq, h.stack_declare hd, stack_eq_cons, List.findSome?_cons, List.findSome?_cons]
  by_cases hx : x = name
  · simp [hx]
  · simp only [Names.insert_ne hx, if_neg hx]

end Declare

end Env

end ImpWasm
