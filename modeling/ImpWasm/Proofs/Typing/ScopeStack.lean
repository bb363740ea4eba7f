import ImpWasm.Proofs.Typing.Scopes
import ImpWasm.Typing.Error
import Mathlib.Data.Finmap
set_option autoImplicit false

/-!
The environment as a stack. It keeps every scope that was ever opened and finds its way by their
numbers. Whoever uses it may think of a stack of finite maps instead, and of one list at whose end
symbols are added: `refines_stack` says that no sequence of requests tells the two apart, and what holds
of the scopes and symbols on the way.
-/
namespace ImpWasm

inductive Request where
  | enter
  | leave
  | declare (name : String) (type : PrimType) (span : Option Span)
  | lookup (name : String)
  | symbol (id : Nat)
  | depth
  | isGlobal (id : Nat)
  deriving DecidableEq, Repr

inductive Answer where
  | entered (scope : Nat)
  | left (result : Except TypeError Unit)
  | declared (result : Except Symbol Symbol)
  | symbol (found : Option Symbol)
  | depth (scopes : Nat)
  | isGlobal (answer : Bool)

def serve {σ : Type} (answer : σ → Request → Answer × σ) : σ → List Request → List Answer × σ
  | s, [] => ([], s)
  | s, request :: requests =>
    let (a, s) := answer s request
    let (as, s) := serve answer s requests
    (a :: as, s)

/-- A request that fails leaves the environment as it is. -/
def Env.answer (env : Env) : Request → Answer × Env
  | .enter => (.entered env.enter.current, env.enter)
  | .leave =>
    match env.leave with
    | some outside => (.left (.ok ()), outside)
    | none => (.left (.error .scopeUnderflow), env)
  | .declare name type span =>
    match env.declare name type span with
    | .ok (env', s) => (.declared (.ok s), env')
    | .error s => (.declared (.error s), env)
  | .lookup name => (.symbol (env.lookup name), env)
  | .symbol id => (.symbol (env.symbol? id), env)
  | .depth => (.depth env.depth, env)
  | .isGlobal id => (.isGlobal (env.isGlobal id), env)

def Env.run (env : Env) (requests : List Request) : Env := (serve Env.answer env requests).2

/-- A scope on the stack: the number it was given when it was opened, and its names. -/
structure Frame where
  number : Nat
  names : Finmap fun _ : String => Symbol

/-- A stack of scopes that is never empty. Scopes are numbered as they are pushed, symbols as they are
declared. -/
structure ScopeStack where
  top : Frame := ⟨0, ∅⟩
  below : List Frame := []
  symbols : List Symbol := []
  pushed : Nat := 1

namespace ScopeStack

variable (stack : ScopeStack)

def frames : List Frame := stack.top :: stack.below

def bottom : Frame := stack.frames.getLast (List.cons_ne_nil _ _)

def push : ScopeStack :=
  { stack with top := ⟨stack.pushed, ∅⟩, below := stack.frames, pushed := stack.pushed + 1 }

def pop : Except TypeError ScopeStack :=
  match stack.below with
  | [] => .error .scopeUnderflow
  | top :: below => .ok { stack with top, below }

def declare (name : String) (type : PrimType) (span : Option Span) :
    Except Symbol (ScopeStack × Symbol) :=
  match stack.top.names.lookup name with
  | some s => .error s
  | none =>
    let s : Symbol := ⟨stack.symbols.length, name, type, stack.top.number, span⟩
    .ok ({ stack with
      top := { stack.top with names := stack.top.names.insert name s }
      symbols := stack.symbols ++ [s] }, s)

def lookup (name : String) : Option Symbol := stack.frames.findSome? (·.names.lookup name)

def isGlobal (id : Nat) : Bool := (stack.symbols[id]?).any (·.scope == stack.bottom.number)

def answer : Request → Answer × ScopeStack
  | .enter => (.entered stack.push.top.number, stack.push)
  | .leave =>
    match stack.pop with
    | .ok popped => (.left (.ok ()), popped)
    | .error e => (.left (.error e), stack)
  | .declare name type span =>
    match stack.declare name type span with
    | .ok (stack', s) => (.declared (.ok s), stack')
    | .error s => (.declared (.error s), stack)
  | .lookup name => (.symbol (stack.lookup name), stack)
  | .symbol id => (.symbol stack.symbols[id]?, stack)
  | .depth => (.depth (stack.frames.length - 1), stack)
  | .isGlobal id => (.isGlobal (stack.isGlobal id), stack)

end ScopeStack

namespace Env

/-- What holds of every environment that requests can lead to: a binding is to a symbol of its scope, a
symbol is what its scope binds its name to, and only the global scope lies inside no other. -/
structure Coherent (env : Env) : Prop extends WellFormed env where
  rooted : ∀ {i : Nat}, i < env.scopes.length → (env.parent? i = none ↔ i = 0)
  owned : ∀ {i : Nat} {sc : Scope}, env.scopes[i]? = some sc → ∀ b ∈ sc.bindings,
    ∃ s, env.symbols[b.2]? = some s ∧ s.name = b.1 ∧ s.scope = i
  declared : ∀ {i : Nat} {s : Symbol}, env.symbols[i]? = some s → env.bound? s.scope s.name = some s

theorem coherent_empty : ({} : Env).Coherent where
  toWellFormed := wellFormed_empty
  rooted {i} hi := by
    obtain rfl : i = 0 := by simpa using hi
    simp [parent?]
  owned {i sc} h := by
    cases i with
    | zero =>
      obtain rfl := Option.some.inj h
      simp
    | succ i => simp at h
  declared h := by simp at h

section Coherent

variable {env env' : Env}

theorem Coherent.distinct (h : env.Coherent) {i j : Nat} {s t : Symbol} (hs : env.symbols[i]? = some s)
    (ht : env.symbols[j]? = some t) (hscope : s.scope = t.scope) (hname : s.name = t.name) : i = j := by
  have hst : some s = some t := by rw [← h.declared hs, ← h.declared ht, hscope, hname]
  rw [← h.ids hs, ← h.ids ht, Option.some.inj hst]

theorem bound?_lt {i : Nat} {name : String} {s : Symbol} (h : env.bound? i name = some s) :
    i < env.scopes.length := by
  obtain ⟨sc, hsc, -⟩ := Option.bind_eq_some_iff.1 h
  exact (List.getElem?_eq_some_iff.1 hsc).1

theorem WellFormed.bound?_enter (h : env.WellFormed) {i : Nat} (hi : i < env.scopes.length) :
    env.enter.bound? i = env.bound? i :=
  h.bound_congr (List.getElem?_append_left hi) List.prefix_rfl

theorem Coherent.enter (h : env.Coherent) : env.enter.Coherent where
  toWellFormed := h.toWellFormed.enter
  rooted {i} hi := by
    rcases Nat.lt_or_ge i env.scopes.length with hlt | hge
    · rw [parent?_enter_of_lt hlt, h.rooted hlt]
    · obtain rfl : i = env.scopes.length := by simp [Env.enter] at hi; omega
      have hcur := h.current
      simp only [parent?_enter_current, reduceCtorEq, false_iff]
      omega
  owned {i sc} hs := by
    rcases Nat.lt_or_ge i env.scopes.length with hi | hi
    · simp only [Env.enter, List.getElem?_append_left hi] at hs
      exact h.owned hs
    · simp only [Env.enter, List.getElem?_append_right hi, List.getElem?_singleton] at hs
      split at hs
      · obtain rfl := Option.some.inj hs
        simp
      · cases hs
  declared hs := by
    have hb := h.declared hs
    rw [h.bound?_enter (bound?_lt hb)]
    exact hb

theorem Coherent.withCurrent (h : env.Coherent) {i : Nat} (hi : i < env.scopes.length) :
    ({ env with current := i } : Env).Coherent where
  toWellFormed := h.toWellFormed.withCurrent hi
  rooted := h.rooted
  owned := h.owned
  declared := h.declared

theorem Coherent.bound?_declare (h : env.Coherent) {name : String} {type : PrimType} {span : Option Span}
    {s : Symbol} (hd : env.declare name type span = .ok (env', s)) (i : Nat) :
    env'.bound? i = if i = env.current then env.innermost.insert name s else env.bound? i := by
  have hafter := after_of_declare hd
  split
  · rename_i hi
    rw [hi, ← hafter.current]
    exact h.innermost_declare hd
  · rename_i hi
    refine h.bound_congr ?_ hafter.symbols
    obtain ⟨-, rfl, rfl⟩ := declare_eq_ok.1 hd
    rw [bind_getElem?]
    cases env.scopes[i]? with
    | none => rfl
    | some sc => simp [Ne.symm hi]

theorem Coherent.declare (h : env.Coherent) {name : String} {type : PrimType} {span : Option Span}
    {s : Symbol} (hd : env.declare name type span = .ok (env', s)) : env'.Coherent where
  toWellFormed := h.toWellFormed.declare hd
  rooted {i} hi := by
    obtain ⟨-, rfl, rfl⟩ := declare_eq_ok.1 hd
    rw [parent?_bind, h.rooted (by simpa [bind] using hi)]
  owned {i sc} hs b hb := by
    obtain ⟨-, rfl, rfl⟩ := declare_eq_ok.1 hd
    have hold : ∀ sc, env.scopes[i]? = some sc → ∀ b ∈ sc.bindings,
        ∃ s, (env.symbols ++ [env.newSymbol name type span])[b.2]? = some s ∧ s.name = b.1 ∧ s.scope = i := by
      intro sc hsc b hb
      obtain ⟨s, hs, hname, hscope⟩ := h.owned hsc b hb
      exact ⟨s, by rw [List.getElem?_append_left (List.getElem?_eq_some_iff.1 hs).1, hs], hname, hscope⟩
    rw [bind_getElem?] at hs
    obtain ⟨sc, hsc, rfl⟩ := Option.map_eq_some_iff.1 hs
    split at hb
    · rename_i hcur
      cases List.mem_cons.1 hb with
      | inl hnew => exact ⟨env.newSymbol name type span, by simp [hnew], by rw [hnew]; rfl, hcur⟩
      | inr hrest => exact hold sc hsc b hrest
    · exact hold sc hsc b hb
  declared {i t} ht := by
    have hb := h.bound?_declare hd t.scope
    obtain ⟨hfresh, rfl, rfl⟩ := declare_eq_ok.1 hd
    rw [hb]
    rcases Nat.lt_or_ge i env.symbols.length with hi | hi
    · have hold : env.bound? t.scope t.name = some t :=
        h.declared ((List.getElem?_append_left hi).symm.trans ht)
      split
      · rename_i hcur
        rw [hcur] at hold
        -- the name of an older symbol is bound here already, so it is not the new one
        have hne : t.name ≠ name := by
          rintro rfl
          cases hold.symm.trans hfresh
        rw [Names.insert_ne hne]
        exact hold
      · exact hold
    · rw [List.getElem?_append_right hi] at ht
      obtain rfl := List.mem_singleton.1 (List.mem_of_getElem? ht)
      simp [newSymbol]

end Coherent

/-- The frames are scopes of the environment, each inside the next and the last one the global scope. -/
inductive Shows (env : Env) : List Frame → Prop where
  | bottom {frame : Frame} : frame.number = 0 →
      (∀ name, frame.names.lookup name = env.bound? frame.number name) → Shows env [frame]
  | inside {frame around : Frame} {rest : List Frame} : env.parent? frame.number = some around.number →
      (∀ name, frame.names.lookup name = env.bound? frame.number name) →
      Shows env (around :: rest) → Shows env (frame :: around :: rest)

section Shows

variable {env env' : Env} {frame : Frame} {rest : List Frame}

theorem Shows.names (h : env.Shows (frame :: rest)) (name : String) :
    frame.names.lookup name = env.bound? frame.number name := by
  cases h with
  | bottom _ hn => exact hn name
  | inside _ hn _ => exact hn name

theorem Shows.number_lt (h : env.Shows (frame :: rest)) (hw : env.WellFormed) :
    ∀ f ∈ rest, f.number < frame.number := by
  induction rest generalizing frame with
  | nil => simp
  | cons around rest ih =>
    cases h with
    | inside hp _ hrest =>
      have hlt := hw.parents hp
      intro f hf
      rcases List.mem_cons.1 hf with rfl | hf
      · exact hlt
      · exact Nat.lt_trans (ih hrest f hf) hlt

theorem Shows.congr (h : env.Shows (frame :: rest)) (hw : env.WellFormed)
    (hb : ∀ i ≤ frame.number, env'.bound? i = env.bound? i)
    (hp : ∀ i ≤ frame.number, env'.parent? i = env.parent? i) : env'.Shows (frame :: rest) := by
  induction rest generalizing frame with
  | nil =>
    cases h with
    | bottom hz hn => exact .bottom hz fun name => by rw [hn, hb _ (Nat.le_refl _)]
  | cons around rest ih =>
    cases h with
    | inside hpar hn hrest =>
      have hlt := hw.parents hpar
      refine .inside (by rw [hp _ (Nat.le_refl _), hpar]) (fun name => by rw [hn, hb _ (Nat.le_refl _)]) ?_
      exact ih hrest (fun i hi => hb i (by omega)) fun i hi => hp i (by omega)

theorem Shows.rename (h : env.Shows (frame :: rest)) (hw : env.WellFormed)
    {names : Finmap fun _ : String => Symbol}
    (hn : ∀ name, names.lookup name = env'.bound? frame.number name)
    (hb : ∀ i < frame.number, env'.bound? i = env.bound? i) (hp : ∀ i, env'.parent? i = env.parent? i) :
    env'.Shows ({ frame with names } :: rest) := by
  cases h with
  | bottom hz _ => exact .bottom hz hn
  | inside hpar _ hrest =>
    have hlt := hw.parents hpar
    exact .inside ((hp _).trans hpar) hn (hrest.congr hw (fun i hi => hb i (by omega)) fun i _ => hp i)

theorem Shows.last (h : env.Shows (frame :: rest)) :
    ((frame :: rest).getLast (List.cons_ne_nil _ _)).number = 0 := by
  induction rest generalizing frame with
  | nil =>
    cases h with
    | bottom hz _ => exact hz
  | cons around rest ih =>
    cases h with
    | inside _ _ hrest =>
      rw [List.getLast_cons_cons]
      exact ih hrest

theorem Shows.lookupFrom (h : env.Shows (frame :: rest)) (hc : env.Coherent) (hz : 0 < env.scopes.length)
    {n : Nat} (hn : frame.number < n) (name : String) :
    env.lookupFrom name n frame.number = (frame :: rest).findSome? (·.names.lookup name) := by
  induction n generalizing frame rest with
  | zero => omega
  | succ n ih =>
    unfold Env.lookupFrom
    rw [List.findSome?_cons, h.names]
    cases env.bound? frame.number name with
    | some s => rfl
    | none =>
      cases h with
      | bottom hfz _ => simp [hfz, (hc.rooted hz).2 rfl]
      | inside hp _ hrest =>
        have hlt := hc.parents hp
        simp only [hp, Option.bind_some]
        exact ih hrest (by omega)

theorem Shows.depthFrom (h : env.Shows (frame :: rest)) (hc : env.Coherent) (hz : 0 < env.scopes.length)
    {n : Nat} (hn : frame.number < n) : env.depthFrom n frame.number = rest.length := by
  induction n generalizing frame rest with
  | zero => omega
  | succ n ih =>
    unfold Env.depthFrom
    cases h with
    | bottom hfz _ => simp [hfz, (hc.rooted hz).2 rfl]
    | inside hp _ hrest =>
      have hlt := hc.parents hp
      simp only [hp, List.length_cons]
      rw [ih hrest (by omega)]

end Shows

/-- The environment and the stack stand for the same scopes and symbols. -/
structure Represents (env : Env) (stack : ScopeStack) : Prop where
  coherent : env.Coherent
  shows : env.Shows stack.frames
  current : stack.top.number = env.current
  symbols : stack.symbols = env.symbols
  pushed : stack.pushed = env.scopes.length

theorem represents_empty : ({} : Env).Represents {} where
  coherent := coherent_empty
  shows := .bottom rfl fun name => by simp [bound?]
  current := rfl
  symbols := rfl
  pushed := rfl

section Represents

variable {env : Env} {stack : ScopeStack}

theorem Represents.current_lt (h : env.Represents stack) : stack.top.number < env.scopes.length :=
  h.current ▸ h.coherent.current

theorem Represents.lookupFrom (h : env.Represents stack) (name : String) {n : Nat} (hn : env.current < n) :
    env.lookupFrom name n env.current = stack.lookup name := by
  rw [← h.current] at hn ⊢
  exact h.shows.lookupFrom h.coherent (Nat.zero_lt_of_lt h.current_lt) hn name

theorem Represents.depthFrom (h : env.Represents stack) {n : Nat} (hn : env.current < n) :
    env.depthFrom n env.current = stack.below.length := by
  rw [← h.current] at hn ⊢
  exact h.shows.depthFrom h.coherent (Nat.zero_lt_of_lt h.current_lt) hn

theorem Represents.lookup (h : env.Represents stack) (name : String) : env.lookup name = stack.lookup name :=
  h.lookupFrom name (Nat.lt_succ_self _)

theorem Represents.isGlobal (h : env.Represents stack) (id : Nat) : env.isGlobal id = stack.isGlobal id := by
  have hbottom : stack.bottom.number = 0 := h.shows.last
  unfold Env.isGlobal ScopeStack.isGlobal symbol?
  rw [h.symbols, hbottom]
  cases env.symbols[id]? <;> rfl

theorem Represents.push (h : env.Represents stack) : env.enter.Represents stack.push where
  coherent := h.coherent.enter
  shows := by
    have hw := h.coherent.toWellFormed
    have hlt := h.current_lt
    refine .inside ?_ (fun name => ?_) (h.shows.congr hw (fun i hi => hw.bound?_enter (by omega))
      fun i hi => parent?_enter_of_lt (by omega))
    · show env.enter.parent? stack.pushed = some stack.top.number
      rw [h.pushed, h.current, parent?_enter_current]
    · show (∅ : Finmap fun _ : String => Symbol).lookup name = env.enter.bound? stack.pushed name
      rw [h.pushed]
      simp [bound?, Env.enter]
  current := h.pushed
  symbols := h.symbols
  pushed := by simp [ScopeStack.push, Env.enter, h.pushed]

theorem Represents.pop (h : env.Represents stack) :
    (env.leave = none ∧ stack.pop = .error .scopeUnderflow) ∨
      ∃ env' stack', env.leave = some env' ∧ stack.pop = .ok stack' ∧ env'.Represents stack' := by
  obtain ⟨top, below, symbols, pushed⟩ := stack
  have hcur : top.number = env.current := h.current
  have hlt := h.coherent.current
  cases h.shows with
  | bottom hz _ =>
    refine .inl ⟨?_, rfl⟩
    rw [Env.leave, (h.coherent.rooted hlt).2 (hcur ▸ hz), Option.map_none]
  | @inside _ around rest hp _ hrest =>
    rw [hcur] at hp
    have hin : around.number < env.scopes.length := Nat.lt_trans (h.coherent.parents hp) hlt
    refine .inr ⟨{ env with current := around.number }, ⟨around, rest, symbols, pushed⟩, ?_, rfl, ?_⟩
    · rw [Env.leave, hp, Option.map_some]
    · have hcoh := h.coherent.withCurrent hin
      exact ⟨hcoh, hrest.congr h.coherent.toWellFormed (fun _ _ => rfl) (fun _ _ => rfl), rfl, h.symbols, h.pushed⟩

theorem Represents.declare (h : env.Represents stack) (name : String) (type : PrimType)
    (span : Option Span) :
    (∃ s, env.declare name type span = .error s ∧ stack.declare name type span = .error s) ∨
      ∃ env' stack' s, env.declare name type span = .ok (env', s) ∧
        stack.declare name type span = .ok (stack', s) ∧ env'.Represents stack' := by
  have hnames : ∀ x, stack.top.names.lookup x = env.innermost x := fun x => by
    rw [h.shows.names, h.current, innermost]
  cases hin : env.innermost name with
  | some s =>
    refine .inl ⟨s, ?_, ?_⟩
    · have hb : env.bound? env.current name = some s := hin
      simp [Env.declare, hb]
    · simp [ScopeStack.declare, hnames, hin]
  | none =>
    obtain ⟨env', s, hd⟩ := declare_of_fresh type span hin
    have hafter := after_of_declare hd
    have hbound := h.coherent.bound?_declare hd
    have hparent : ∀ i, env'.parent? i = env.parent? i := by
      obtain ⟨-, rfl, rfl⟩ := declare_eq_ok.1 hd
      exact parent?_bind env name _ _
    obtain ⟨-, hs, henv⟩ := declare_eq_ok.1 hd
    refine .inr ⟨env', { stack with
      top := { stack.top with names := stack.top.names.insert name s }, symbols := stack.symbols ++ [s] },
      s, hd, ?_, h.coherent.declare hd, ?_, ?_, ?_, ?_⟩
    · simp only [ScopeStack.declare, hnames, hin]
      rw [hs, newSymbol, h.symbols, h.current]
    · refine h.shows.rename h.coherent.toWellFormed (fun x => ?_) (fun i hi => ?_) hparent
      · rw [hbound, h.current, if_pos rfl]
        by_cases hx : x = name
        · rw [hx, Finmap.lookup_insert, Names.insert_self]
        · rw [Finmap.lookup_insert_of_ne _ hx, hnames, Names.insert_ne hx]
      · rw [hbound, if_neg (by rw [← h.current]; omega)]
    · exact h.current.trans hafter.current.symm
    · rw [henv, h.symbols]
    · rw [henv, h.pushed]
      simp [bind]

theorem Represents.answer (h : env.Represents stack) (request : Request) :
    (env.answer request).1 = (stack.answer request).1 ∧
      (env.answer request).2.Represents (stack.answer request).2 := by
  cases request with
  | enter => exact ⟨congrArg Answer.entered h.pushed.symm, h.push⟩
  | leave =>
    rcases h.pop with ⟨hl, hp⟩ | ⟨env', stack', hl, hp, h'⟩
    · simp only [Env.answer, ScopeStack.answer, hl, hp, true_and]
      exact h
    · simp only [Env.answer, ScopeStack.answer, hl, hp, true_and]
      exact h'
  | declare name type span =>
    rcases h.declare name type span with ⟨s, hd, hr⟩ | ⟨env', stack', s, hd, hr, h'⟩
    · simp only [Env.answer, ScopeStack.answer, hd, hr, true_and]
      exact h
    · simp only [Env.answer, ScopeStack.answer, hd, hr, true_and]
      exact h'
  | lookup name => exact ⟨congrArg Answer.symbol (h.lookup name), h⟩
  | symbol id => exact ⟨congrArg (fun symbols => Answer.symbol symbols[id]?) h.symbols.symm, h⟩
  | depth => exact ⟨congrArg Answer.depth (h.depthFrom (Nat.lt_succ_self _)), h⟩
  | isGlobal id => exact ⟨congrArg Answer.isGlobal (h.isGlobal id), h⟩

theorem Represents.serve (h : env.Represents stack) (requests : List Request) :
    (serve Env.answer env requests).1 = (serve ScopeStack.answer stack requests).1 ∧
      (serve Env.answer env requests).2.Represents (serve ScopeStack.answer stack requests).2 := by
  induction requests generalizing env stack with
  | nil => exact ⟨rfl, h⟩
  | cons request requests ih =>
    obtain ⟨ha, hs⟩ := h.answer request
    obtain ⟨has, hend⟩ := ih hs
    exact ⟨congrArg₂ List.cons ha has, hend⟩

end Represents

end Env

namespace ScopeStack

/-- The scope with the given number still lies on the given others, or it was popped and is gone for
good. -/
structure Keeps (number : Nat) (below : List Frame) (stack : ScopeStack) : Prop where
  old : number < stack.pushed
  around : ∀ f ∈ below, f.number < number
  kept : (∃ inner frame, stack.frames = inner ++ frame :: below ∧ frame.number = number ∧
      ∀ f ∈ inner, f.number ≠ number) ∨ ∀ f ∈ stack.frames, f.number ≠ number

variable {number : Nat} {below : List Frame} {stack : ScopeStack}

theorem Keeps.push (h : stack.Keeps number below) : stack.push.Keeps number below := by
  have hnew : stack.pushed ≠ number := Nat.ne_of_gt h.old
  refine ⟨Nat.lt_succ_of_lt h.old, h.around, ?_⟩
  rcases h.kept with ⟨inner, frame, hframes, hnumber, hinner⟩ | hgone
  · refine .inl ⟨⟨stack.pushed, ∅⟩ :: inner, frame, congrArg (_ :: ·) hframes, hnumber, ?_⟩
    exact List.forall_mem_cons.2 ⟨hnew, hinner⟩
  · exact .inr (List.forall_mem_cons.2 ⟨hnew, hgone⟩)

theorem Keeps.pop {popped : ScopeStack} (h : stack.Keeps number below) (hp : stack.pop = .ok popped) :
    popped.Keeps number below := by
  obtain ⟨top, under, symbols, pushed⟩ := stack
  obtain ⟨hold, haround, hkept⟩ := h
  cases under with
  | nil => cases hp
  | cons f fs =>
    obtain rfl := Except.ok.inj hp
    refine ⟨hold, haround, ?_⟩
    rcases hkept with ⟨inner, frame, hframes, hnumber, hinner⟩ | hgone
    · cases inner with
      | nil =>
        -- the scope itself is popped: what is left are the scopes around it, with smaller numbers
        obtain ⟨-, hrest⟩ := List.cons.inj hframes
        refine .inr fun g hg => Nat.ne_of_lt (haround g ?_)
        rw [← hrest]
        exact hg
      | cons g inner =>
        obtain ⟨-, hrest⟩ := List.cons.inj hframes
        exact .inl ⟨inner, frame, hrest, hnumber, fun f hf => hinner f (List.mem_cons_of_mem _ hf)⟩
    · exact .inr fun g hg => hgone g (List.mem_cons_of_mem _ hg)

theorem Keeps.declare {stack' : ScopeStack} {name : String} {type : PrimType} {span : Option Span} {s : Symbol}
    (h : stack.Keeps number below) (hd : stack.declare name type span = .ok (stack', s)) :
    stack'.Keeps number below := by
  unfold ScopeStack.declare at hd
  split at hd
  · cases hd
  · obtain ⟨rfl, -⟩ := Prod.mk.inj (Except.ok.inj hd)
    refine ⟨h.old, h.around, ?_⟩
    rcases h.kept with ⟨inner, frame, hframes, hnumber, hinner⟩ | hgone
    · cases inner with
      | nil =>
        obtain ⟨htop, hbelow⟩ := List.cons.inj hframes
        exact .inl ⟨[], _, congrArg (_ :: ·) hbelow, htop ▸ hnumber, by simp⟩
      | cons g inner =>
        obtain ⟨htop, hbelow⟩ := List.cons.inj hframes
        have hg : stack.top.number ≠ number := htop ▸ hinner g (by simp)
        refine .inl ⟨_ :: inner, frame, congrArg (_ :: ·) hbelow, hnumber, List.forall_mem_cons.2 ⟨hg, ?_⟩⟩
        exact fun f hf => hinner f (List.mem_cons_of_mem _ hf)
    · obtain ⟨htop, hbelow⟩ := List.forall_mem_cons.1 hgone
      exact .inr (List.forall_mem_cons.2 ⟨htop, hbelow⟩)

theorem Keeps.answer (h : stack.Keeps number below) (request : Request) :
    (stack.answer request).2.Keeps number below := by
  cases request with
  | enter => exact h.push
  | leave =>
    simp only [ScopeStack.answer]
    split
    · rename_i hp
      exact h.pop hp
    · exact h
  | declare name type span =>
    simp only [ScopeStack.answer]
    split
    · rename_i hd
      exact h.declare hd
    · exact h
  | lookup | symbol | depth | isGlobal => exact h

theorem Keeps.serve (h : stack.Keeps number below) (requests : List Request) :
    (serve ScopeStack.answer stack requests).2.Keeps number below := by
  induction requests generalizing stack with
  | nil => exact h
  | cons request requests ih => exact ih (h.answer request)

end ScopeStack

namespace Env

/-- However many requests a scope sees, leaving it puts back the names that were in sight before it was
entered. -/
theorem Represents.leave_restores {env : Env} {stack : ScopeStack} (h : env.Represents stack)
    {requests : List Request} (hcur : (env.enter.run requests).current = env.enter.current) :
    ∃ outside, (env.enter.run requests).leave = some outside ∧ outside.current = env.current ∧
      ∀ name, outside.lookup name = env.lookup name := by
  have hrep : (env.enter.run requests).Represents (ImpWasm.serve ScopeStack.answer stack.push requests).2 :=
    (h.push.serve requests).2
  have hkeeps : stack.push.Keeps stack.pushed stack.frames := by
    refine ⟨Nat.lt_succ_self _, fun f hf => ?_, .inl ⟨[], _, rfl, rfl, by simp⟩⟩
    have hlt := h.current_lt
    rw [h.pushed]
    rcases List.mem_cons.1 hf with rfl | hf
    · exact hlt
    · exact Nat.lt_trans (h.shows.number_lt h.coherent.toWellFormed f hf) hlt
  have hkept := (hkeeps.serve requests).kept
  revert hrep hkept
  generalize (ImpWasm.serve ScopeStack.answer stack.push requests).2 = stack'
  intro hrep hkept
  have htop : stack'.top.number = stack.pushed := by
    rw [hrep.current, hcur, h.pushed]
    rfl
  have hbelow : stack'.below = stack.frames := by
    rcases hkept with ⟨inner, frame, hframes, hnumber, hinner⟩ | hgone
    · cases inner with
      | nil => exact (List.cons.inj hframes).2
      | cons g rest => exact absurd ((List.cons.inj hframes).1 ▸ htop) (hinner g (by simp))
    · exact absurd htop (hgone stack'.top (by simp [ScopeStack.frames]))
  have hpop : stack'.pop = .ok { stack' with top := stack.top, below := stack.below } := by
    rw [ScopeStack.pop, hbelow, ScopeStack.frames]
  rcases hrep.pop with ⟨-, hunder⟩ | ⟨outside, popped, hl, hp, hout⟩
  · cases hpop.symm.trans hunder
  · obtain rfl := Except.ok.inj (hpop.symm.trans hp)
    refine ⟨outside, hl, hout.current.symm.trans h.current, fun name => ?_⟩
    rw [hout.lookup, h.lookup]
    rfl

end Env

/-- The environment answers every sequence of requests as a stack of finite maps does. Whatever was
asked of it before, its scopes and symbols fit together, no two symbols share a scope and a name, a walk
through the scopes ends within the steps that `lookup` and `depth` give it, and when a scope that was
entered is left, all names stand for what they stood for at its start. -/
theorem refines_stack (requests : List Request) :
    let env := ({} : Env).run requests
    (serve Env.answer {} requests).1 = (serve ScopeStack.answer {} requests).1 ∧
      env.Coherent ∧
      (∀ (i j : Nat) (s t : Symbol), env.symbols[i]? = some s → env.symbols[j]? = some t →
        s.scope = t.scope → s.name = t.name → i = j) ∧
      (∀ n, env.current < n → env.depthFrom n env.current = env.depth ∧
        ∀ name, env.lookupFrom name n env.current = env.lookup name) ∧
      ∀ inside, (env.enter.run inside).current = env.enter.current →
        ∃ outside, (env.enter.run inside).leave = some outside ∧ outside.current = env.current ∧
          ∀ name, outside.lookup name = env.lookup name := by
  obtain ⟨hanswers, hrep⟩ := Env.represents_empty.serve requests
  refine ⟨hanswers, hrep.coherent, fun _ _ _ _ => hrep.coherent.distinct, fun n hn => ⟨?_, fun name => ?_⟩,
    fun inside => hrep.leave_restores⟩
  · exact (hrep.depthFrom hn).trans (hrep.depthFrom (Nat.lt_succ_self _)).symm
  · exact (hrep.lookupFrom name hn).trans (hrep.lookup name).symm

theorem refines_stack_shadowed :
    let env := ({} : Env).run [.declare "x" .int none]
    let inner := env.enter.run [.declare "x" .bool none, .enter, .leave]
    inner.lookup "x" ≠ env.lookup "x" ∧ inner.current = env.enter.current ∧
      ∃ outside, inner.leave = some outside ∧ outside.current = env.current ∧
        ∀ name, outside.lookup name = env.lookup name := by
  have hcur : ((({} : Env).run [.declare "x" .int none]).enter.run
      [.declare "x" .bool none, .enter, .leave]).current =
      (({} : Env).run [.declare "x" .int none]).enter.current := by decide
  obtain ⟨-, -, -, -, hleave⟩ := refines_stack [.declare "x" .int none]
  exact ⟨by decide, hcur, hleave _ hcur⟩

end ImpWasm
