import ImpWasm.Proofs.Lowering.Simulation
set_option autoImplicit false

namespace ImpWasm

open Wasm (Instr Code Exec Exit Value)

theorem Wasm.Code.run_append (m : Wasm.Module) (call : UInt32 → Exec Unit) (n : Nat) (c d : Code) :
    (c.append d).run m call n = (do c.run m call n; d.run m call n) := by
  induction c with
  | done => simp [append, run]
  | plain i h rest ih => simp [append, run, ih]
  | block t body rest _ ih => simp [append, run, ih]
  | loop t body rest _ ih => simp [append, run, ih]
  | ifThen t yes rest _ ih =>
    simp only [append, run, ih, bind_assoc]
    refine bind_congr fun b => ?_
    cases b <;> simp
  | ifElse t yes no rest _ _ ih =>
    simp only [append, run, ih, bind_assoc]
    refine bind_congr fun b => ?_
    cases b <;> simp

/-- Calls of the functions in a table lead to code that does what they do, whoever calls them. -/
def Layout.Calls (y : Layout) (t : FunctionTable) (functions : List (String × UInt32))
    (run : String → List Int32 → Typed.Run Int32) (call : UInt32 → Exec Unit) : Prop :=
  ∀ name s i slots args base, t.get? name = some s → functions.lookup name = some i → args.length = s.arity →
    Sim (y.At slots ((args.map .i32).reverse ++ base)) (run name args) (call i)
      (fun v => y.At slots (.i32 v :: base)) y.Stops

/-- A place where lowered code runs: the program and the module around it, and how the variables lie. -/
structure Site where
  world : Typed.World
  module : Wasm.Module
  call : UInt32 → Exec Unit
  fuel : Nat
  table : FunctionTable
  indices : Indices
  layout : Layout
  slots : List Nat
  globals_nodup : layout.globals.Nodup
  globals_top : ∀ s ∈ layout.globals, world.top s = true
  slots_nodup : slots.Nodup
  slots_local : ∀ s ∈ slots, world.top s = false
  indices_globals : ∀ p ∈ indices.globals,
    layout.globals[p.2.toNat]? = some p.1 ∧ module.globalType p.2 = some ⟨.i32, true⟩
  calls : layout.Calls table indices.functions world.call call

namespace Site

variable {S : Site} {α β : Type} {c d : Code} {ins : List Value} {out : α → List Value}
  {x : Typed.Run α} {f : α → Typed.Run β} {out' : β → List Value}

/-- Code does what a computation does, with operands and values on top of whatever is on the stack. -/
def Runs (S : Site) (c : Code) (ins : List Value) (x : Typed.Run α) (out : α → List Value) : Prop :=
  ∀ base, Sim (S.layout.At S.slots (ins ++ base)) x (c.run S.module S.call S.fuel)
    (fun a => S.layout.At S.slots (out a ++ base)) S.layout.Stops

theorem Runs.bind (h : S.Runs c ins x out) (hf : ∀ a, Typed.Yields x a → S.Runs d (out a) (f a) out') :
    S.Runs (c.append d) ins (x >>= f) out' := by
  intro base
  rw [Code.run_append]
  exact (h base).bind fun a ha => hf a ha base

theorem Runs.under (h : S.Runs c [] x out) (ins : List Value) : S.Runs c ins x fun a => out a ++ ins := by
  intro base
  have hb := h (ins ++ base)
  simpa only [List.nil_append, List.append_assoc] using hb

theorem Runs.done {a : α} (h : out a = ins) : S.Runs .done ins (pure a) out :=
  fun _ => .ofPure fun _ w hp => ⟨w, rfl, h ▸ hp⟩

theorem Runs.map (h : S.Runs c ins x out) (g : α → β) (hg : ∀ a, out' (g a) = out a) :
    S.Runs c ins (x >>= fun a => pure (g a)) out' := by
  have hd : S.Runs (c.append .done) ins (x >>= fun a => pure (g a)) out' := h.bind fun a _ => .done (hg a)
  rwa [Code.append_done] at hd

theorem Runs.plain {i : Instr} (hi : i.isPlain = true)
    (h : ∀ base, Sim (S.layout.At S.slots (ins ++ base)) x (Exec.plain S.module S.call i)
      (fun a => S.layout.At S.slots (out a ++ base)) S.layout.Stops) :
    S.Runs (.plain i hi .done) ins x out := by
  intro base
  have he : Code.run S.module S.call S.fuel (.plain i hi .done) = Exec.plain S.module S.call i := by
    simp [Code.run]
  rw [he]
  exact h base

end Site

namespace Site

variable {S : Site} {l : Locals}

/-- The slots given so far lead to the locals of their symbols. -/
def Holds (S : Site) (l : Locals) : Prop := ∀ p ∈ l.slots, S.slots[p.2.toNat]? = some p.1

theorem access_ok {name : Typed.Ident} {onLocal onGlobal : UInt32 → Instr} {i : Instr} (hl : S.Holds l)
    (h : S.indices.access l name onLocal onGlobal = .ok i) :
    ∃ n, (i = onLocal n ∧ S.slots[n.toNat]? = some name.symbol ∧ S.world.top name.symbol = false) ∨
      (i = onGlobal n ∧ S.layout.globals[n.toNat]? = some name.symbol ∧ S.world.top name.symbol = true ∧
        S.module.globalType n = some ⟨.i32, true⟩) := by
  obtain ⟨n, hn, rfl⟩ | ⟨_, n, hn, rfl⟩ := Indices.access_ok h
  · have hs := hl _ (mem_of_lookup hn)
    exact ⟨n, .inl ⟨rfl, hs, S.slots_local _ (List.mem_of_getElem? hs)⟩⟩
  · obtain ⟨hs, ht⟩ := S.indices_globals _ (mem_of_lookup hn)
    exact ⟨n, .inr ⟨rfl, hs, S.globals_top _ (List.mem_of_getElem? hs), ht⟩⟩

theorem runs_get {name : Typed.Ident} {i : Instr} (hl : S.Holds l)
    (h : S.indices.access l name .localGet .globalGet = .ok i) :
    ∃ hi, S.Runs (.plain i hi .done) [] (do return (← get).read S.world.top name.symbol)
      fun v => [.i32 v] := by
  obtain ⟨n, ⟨rfl, hs, ht⟩ | ⟨rfl, hs, ht, _⟩⟩ := access_ok hl h
  · exact ⟨rfl, .plain rfl fun _ => .readLocal hs ht⟩
  · exact ⟨rfl, .plain rfl fun _ => .readGlobal hs ht⟩

theorem runs_set {name : Typed.Ident} {i : Instr} (hl : S.Holds l)
    (h : S.indices.access l name .localSet .globalSet = .ok i) :
    ∃ hi, ∀ v, S.Runs (.plain i hi .done) [.i32 v]
      (modify (Typed.State.write S.world.top name.symbol v)) fun _ => [] := by
  obtain ⟨n, ⟨rfl, hs, ht⟩ | ⟨rfl, hs, ht, hm⟩⟩ := access_ok hl h
  · exact ⟨rfl, fun v => .plain rfl fun _ => .writeLocal S.slots_nodup hs ht⟩
  · exact ⟨rfl, fun v => .plain rfl fun _ => .writeGlobal S.globals_nodup hs ht hm⟩

theorem runs_const (v : Int32) : S.Runs (.plain (.i32Const v) rfl .done) [] (pure v) fun v => [.i32 v] := by
  refine .plain rfl fun base => .ofPure fun σ w hp => ⟨{ w with stack := .i32 v :: base }, ?_, ?_⟩
  · rw [Exec.plain, Exec.outcome_push, hp.stack]
    rfl
  · exact hp.withStack _

theorem runs_operator (op : Operator) (a b : Int32) :
    S.Runs (.plain (.numeric op.lower) rfl .done) [.i32 b, .i32 a]
      (match op.eval a b with
        | some v => pure v
        | none => throw .trap)
      fun v => [.i32 v] := by
  refine .plain rfl fun base σ w hp => ?_
  have ho := Exec.outcome_operator op hp.stack
  rw [Exec.plain, ho]
  cases op.eval a b with
  | some v => exact ⟨_, rfl, hp.withStack _⟩
  | none => exact .inr ⟨_, rfl, hp.trace⟩

theorem runs_call {name : String} {s : Signature} {i : UInt32} {args : List Int32}
    (hs : S.table.get? name = some s) (hi : S.indices.functions.lookup name = some i)
    (ha : args.length = s.arity) :
    S.Runs (.plain (.call i) rfl .done) (args.map .i32).reverse (S.world.call name args) fun v => [.i32 v] :=
  .plain rfl fun base => S.calls name s i S.slots args base hs hi ha

end Site

namespace Typed

variable {S : Site} {l : Locals}

theorem yields_bind {α β : Type} {x : Run α} {f : α → Run β} {b : β} (h : Yields (x >>= f) b) :
    ∃ a, Yields x a ∧ Yields (f a) b := by
  obtain ⟨σ, σ', h⟩ := h
  rw [outcome_bind] at h
  rcases hr : outcome x σ with ⟨s | a, σ''⟩
  · simp [hr] at h
  · simp only [hr] at h
    exact ⟨a, ⟨σ, σ'', hr⟩, ⟨σ'', σ', h⟩⟩

theorem yields_pure {α : Type} {a b : α} (h : Yields (pure a) b) : a = b := by
  obtain ⟨_, _, h⟩ := h
  cases h
  rfl

theorem yields_evalAll {w : World} {es : List Expr} {vs : List Int32} (h : Yields (Expr.evalAll w es) vs) :
    vs.length = es.length := by
  induction es generalizing vs with
  | nil =>
    obtain rfl := yields_pure h
    rfl
  | cons e es ih =>
    obtain ⟨v, _, h⟩ := yields_bind h
    obtain ⟨rest, hr, h⟩ := yields_bind h
    obtain rfl := yields_pure h
    simp [ih hr]

mutual

theorem Expr.lower_runs (hl : S.Holds l) : {e : Expr} → {is : List Instr} →
    e.lower S.indices l = .ok is → e.Linked S.table →
    ∃ c : Code, c.instrs = is ∧ S.Runs c [] (e.eval S.world) fun v => [.i32 v]
  | .ident name _ _, is, h, _ => by
    obtain ⟨i, hi, rfl⟩ := Expr.lower_ident h
    obtain ⟨hplain, hrun⟩ := Site.runs_get hl hi
    exact ⟨_, rfl, hrun⟩
  | .int value _, is, h, _ => by
    cases h
    exact ⟨_, rfl, Site.runs_const value⟩
  | .bool value _, is, h, _ => by
    cases h
    exact ⟨_, rfl, Site.runs_const (boolConst value)⟩
  | .string .., is, h, _ => by cases h
  | .binary op left right _ _, is, h, hk => by
    obtain ⟨a, b, ha, hb, rfl⟩ := Expr.lower_binary h
    obtain ⟨c, rfl, hc⟩ := Expr.lower_runs hl ha hk.1
    obtain ⟨d, rfl, hd⟩ := Expr.lower_runs hl hb hk.2
    refine ⟨c.append (d.append (.plain (.numeric op.lower) rfl .done)), by simp [Code.instrs], ?_⟩
    exact hc.bind fun a _ => (hd.under [.i32 a]).bind fun b _ => Site.runs_operator op a b
  | .call callee args _ _, is, h, hk => by
    obtain ⟨code, i, hcode, hi, rfl⟩ := Expr.lower_call h
    obtain ⟨⟨s, hs, ha⟩, hargs⟩ := hk
    obtain ⟨c, rfl, hc⟩ := Expr.lowerAll_runs hl hcode hargs
    refine ⟨c.append (.plain (.call i) rfl .done), by simp [Code.instrs], ?_⟩
    exact hc.bind fun vs hvs => Site.runs_call hs hi ((yields_evalAll hvs).trans ha.symm)

theorem Expr.lowerAll_runs (hl : S.Holds l) : {es : List Expr} → {is : List Instr} →
    Expr.lowerAll S.indices l es = .ok is → Expr.AllLinked S.table es →
    ∃ c : Code, c.instrs = is ∧ S.Runs c [] (Expr.evalAll S.world es) fun vs => (vs.map .i32).reverse
  | [], is, h, _ => by
    cases h
    exact ⟨.done, rfl, .done rfl⟩
  | e :: es, is, h, hk => by
    obtain ⟨a, b, ha, hb, rfl⟩ := Expr.lowerAll_cons h
    obtain ⟨c, rfl, hc⟩ := Expr.lower_runs hl ha hk.1
    obtain ⟨d, rfl, hd⟩ := Expr.lowerAll_runs hl hb hk.2
    refine ⟨c.append d, by simp, ?_⟩
    exact hc.bind fun v _ => (hd.under [.i32 v]).map (v :: ·) fun vs => by simp

end

end Typed

namespace Locals

variable {l : Locals}

def symbols (l : Locals) : List Nat := (l.slots.map Prod.fst).reverse

theorem symbols_ofParams (params : List Typed.Param) :
    (Locals.ofParams params).symbols = params.map (·.name.symbol) := by
  have hm : ∀ ps : List Typed.Param, (ps.mapIdx fun i p => (p.name.symbol, i.toUInt32)).map Prod.fst =
      ps.map (·.name.symbol) := by
    intro ps
    refine List.ext_getElem? fun i => ?_
    simp [Function.comp_def]
  simp [symbols, ofParams, hm]

theorem symbols_declare (symbol : Nat) : (l.declare symbol .i32).1.symbols = l.symbols ++ [symbol] := by
  simp [symbols, declare]

theorem symbols_declareAll (symbols : List Nat) : (l.declareAll symbols).symbols = l.symbols ++ symbols := by
  induction symbols generalizing l with
  | nil => simp [declareAll]
  | cons s ss ih =>
    have hd := ih (l := (l.declare s .i32).1)
    rw [symbols_declare, List.append_assoc] at hd
    exact hd

/-- There is one slot for every local, at its place among the symbols. -/
structure Placed (l : Locals) : Prop where
  length : l.symbols.length = l.count
  slots : ∀ p ∈ l.slots, ∃ k : Nat, p.2 = k.toUInt32 ∧ l.symbols[k]? = some p.1

theorem placed_empty : ({} : Locals).Placed := ⟨rfl, by simp⟩

theorem placed_ofParams (params : List Typed.Param) : (Locals.ofParams params).Placed := by
  refine ⟨by rw [symbols_ofParams, List.length_map]; rfl, ?_⟩
  intro p hp
  obtain ⟨i, hi, rfl⟩ := List.mem_mapIdx.1 (List.mem_reverse.1 hp)
  refine ⟨i, rfl, ?_⟩
  rw [symbols_ofParams]
  simp [hi]

theorem Placed.declare (h : l.Placed) (symbol : Nat) : (l.declare symbol .i32).1.Placed := by
  have hc : (l.declare symbol .i32).1.count = l.count + 1 := by simp [Locals.declare, count, Nat.add_assoc]
  refine ⟨by simp [symbols_declare, hc, h.length], ?_⟩
  intro p hp
  rw [symbols_declare]
  cases List.mem_cons.1 hp with
  | inl hp => exact ⟨l.count, by rw [hp]; rfl, by rw [hp, ← h.length]; simp⟩
  | inr hp =>
    obtain ⟨k, hk, hs⟩ := h.slots p hp
    exact ⟨k, hk, getElem?_append_of_some hs [symbol]⟩

theorem Placed.declareAll (h : l.Placed) (symbols : List Nat) : (l.declareAll symbols).Placed := by
  induction symbols generalizing l with
  | nil => exact h
  | cons s ss ih => exact ih (h.declare s)

theorem Placed.found (h : l.Placed) (hn : l.count ≤ 2 ^ 32) {p : Nat × UInt32} (hp : p ∈ l.slots) :
    l.symbols[p.2.toNat]? = some p.1 := by
  obtain ⟨k, hk, hs⟩ := h.slots p hp
  have hlt : k < l.count := h.length ▸ (List.getElem?_eq_some_iff.1 hs).1
  rw [hk, toNat_toUInt32_of_lt (Nat.lt_of_lt_of_le hlt hn), hs]

theorem slots_declareAll (symbols : List Nat) : l.slots <:+ (l.declareAll symbols).slots := by
  induction symbols generalizing l with
  | nil => exact List.suffix_refl _
  | cons s ss ih => exact (List.suffix_cons _ _).trans (ih (l := (l.declare s .i32).1))

end Locals

namespace Site

variable {S : Site} {l l' : Locals} {is : List Instr}

theorem Holds.before {s : Typed.Stmt} (h : S.Holds l') (hs : s.lower S.indices l = .ok (is, l')) :
    S.Holds l := by
  obtain ⟨new, _, _, rfl⟩ := Typed.Stmt.lower_declares hs
  exact fun p hp => h p ((Locals.slots_declareAll new).mem hp)

theorem Holds.beforeAll {ss : List Typed.Stmt} (h : S.Holds l')
    (hs : Typed.Stmt.lowerAll S.indices ss l = .ok (is, l')) : S.Holds l := by
  obtain ⟨new, _, _, rfl⟩ := Typed.Stmt.lowerAll_declares hs
  exact fun p hp => h p ((Locals.slots_declareAll new).mem hp)

theorem runs_declare {symbol : Nat} (h : S.Holds (l.declare symbol .i32).1) (v : Int32) :
    S.Runs (.plain (.localSet (l.declare symbol .i32).2) rfl .done) [.i32 v]
      (modify (Typed.State.write S.world.top symbol v)) fun _ => [] := by
  have hs : S.slots[(l.declare symbol .i32).2.toNat]? = some symbol := h _ (List.mem_cons_self ..)
  exact .plain rfl fun _ => .writeLocal S.slots_nodup hs (S.slots_local _ (List.mem_of_getElem? hs))

theorem runs_drop (v : Int32) : S.Runs (.plain .drop rfl .done) [.i32 v] (pure ()) fun _ => [] := by
  refine .plain rfl fun base => .ofPure fun σ w hp => ⟨{ w with stack := base }, ?_, hp.withStack base⟩
  exact outcome_bind_ok (Exec.outcome_pop hp.stack)

theorem runs_return (v : Int32) :
    S.Runs (.plain .return_ rfl .done) [.i32 v] (throw (.returned v)) fun _ : Unit => [] :=
  .plain rfl fun base => .ofThrow fun _ w hp => ⟨w, rfl, hp.toAgrees, base, hp.stack⟩

theorem runs_ifThen {yes : Code} {x : Typed.Run Unit} (hy : S.Runs yes [] x fun _ => []) (v : Int32) :
    S.Runs (.ifThen .empty yes .done) [.i32 v] (if v ≠ 0 then x else pure ()) fun _ => [] := by
  intro base
  have he : Code.run S.module S.call S.fuel (.ifThen .empty yes .done) = (do
      if ← Exec.popTruth then Exec.inBlock 0 (yes.run S.module S.call S.fuel) else pure ()) := by
    simp [Code.run, Wasm.BlockType.results]
  rw [he]
  exact .branch (.inBlock (hy [])) (.ofPure fun _ w hp => ⟨w, rfl, hp⟩)

theorem runs_ifElse {yes no : Code} {x z : Typed.Run Unit} (hy : S.Runs yes [] x fun _ => [])
    (hn : S.Runs no [] z fun _ => []) (v : Int32) :
    S.Runs (.ifElse .empty yes no .done) [.i32 v] (if v ≠ 0 then x else z) fun _ => [] := by
  intro base
  have he : Code.run S.module S.call S.fuel (.ifElse .empty yes no .done) = (do
      if ← Exec.popTruth then Exec.inBlock 0 (yes.run S.module S.call S.fuel)
      else Exec.inBlock 0 (no.run S.module S.call S.fuel)) := by
    simp [Code.run, Wasm.BlockType.results]
  rw [he]
  exact .branch (.inBlock (hy [])) (.inBlock (hn []))

def loopCode (test body : Code) : Code :=
  test.append (.plain (.numeric (.eqz .w32)) rfl (.plain (.brIf 1) rfl
    (body.append (.plain (.br 0) rfl .done))))

theorem runs_while {test body : Code} {x : Typed.Run Int32} {z : Typed.Run Unit}
    (ht : S.Runs test [] x fun v => [.i32 v]) (hb : S.Runs body [] z fun _ => []) :
    S.Runs (.block .empty (.loop .empty (loopCode test body) .done) .done) []
      (Typed.whileLoop x z S.fuel) fun _ => [] := by
  intro base
  have hinside := SimTo.iteration S.module S.call (ht []) (hb [])
  have hloop : Sim (S.layout.At S.slots base) _ _ (fun _ => S.layout.At S.slots base) _ :=
    SimTo.loop hinside S.fuel
  simpa [Code.run, Code.run_append, loopCode, Wasm.BlockType.results] using hloop

end Site

namespace Typed

variable {S : Site}

theorem lowerInit_runs {l : Locals} {init : Option Expr} {is : List Instr} (hl : S.Holds l)
    (h : lowerInit S.indices l init = .ok is) (hk : ∀ e ∈ init, e.Linked S.table) :
    ∃ c : Code, c.instrs = is ∧ S.Runs c [] (evalInit S.world init) fun v => [.i32 v] := by
  cases init with
  | none =>
    cases h
    exact ⟨_, rfl, Site.runs_const 0⟩
  | some e => exact Expr.lower_runs hl h (hk e rfl)

mutual

theorem Stmt.lower_runs : {s : Stmt} → {l l' : Locals} → {is : List Instr} →
    s.lower S.indices l = .ok (is, l') → s.Linked S.table → S.Holds l' →
    ∃ c : Code, c.instrs = is ∧ S.Runs c [] (s.exec S.world S.fuel) fun _ => []
  | .expr value _, l, l', is, h, hk, hl => by
    obtain ⟨code, hv, rfl, rfl⟩ := Stmt.lower_expr h
    obtain ⟨c, rfl, hc⟩ := Expr.lower_runs hl hv hk
    refine ⟨c.append (.plain .drop rfl .done), by simp [Code.instrs], ?_⟩
    exact hc.bind fun v _ => Site.runs_drop v
  | .var name _ init _, l, l', is, h, hk, hl => by
    -- lowering only adds slots, so the value runs in the slots that were there before the variable's own
    have hbefore := hl.before h
    obtain ⟨code, hv, rfl, rfl⟩ := Stmt.lower_var h
    obtain ⟨c, rfl, hc⟩ := lowerInit_runs hbefore hv hk
    refine ⟨c.append (.plain (.localSet (l.declare name.symbol .i32).2) rfl .done), by simp [Code.instrs], ?_⟩
    exact hc.bind fun v _ => Site.runs_declare hl v
  | .assign target value _, l, l', is, h, hk, hl => by
    obtain ⟨code, i, hv, hi, rfl, rfl⟩ := Stmt.lower_assign h
    obtain ⟨c, rfl, hc⟩ := Expr.lower_runs hl hv hk
    obtain ⟨hplain, hset⟩ := Site.runs_set hl hi
    refine ⟨c.append (.plain i hplain .done), by simp [Code.instrs], ?_⟩
    exact hc.bind fun v _ => hset v
  | .block body _ _, l, l', is, h, hk, hl => by
    have hb : Stmt.lowerAll S.indices body l = .ok (is, l') := h
    exact Stmt.lowerAll_runs hb hk hl
  | .function .., l, l', is, h, _, _ => by
    cases h
    exact ⟨.done, rfl, .done rfl⟩
  | .imported .., l, l', is, h, _, _ => by
    cases h
    exact ⟨.done, rfl, .done rfl⟩
  | .return_ value _, l, l', is, h, hk, hl => by
    obtain ⟨code, hv, rfl, rfl⟩ := Stmt.lower_return h
    obtain ⟨c, rfl, hc⟩ := Expr.lower_runs hl hv hk
    refine ⟨c.append (.plain .return_ rfl .done), by simp [Code.instrs], ?_⟩
    exact hc.bind fun v _ => Site.runs_return v
  | .while_ condition body _ _, l, l', is, h, hk, hl => by
    obtain ⟨test, code, ht, hb, rfl⟩ := Stmt.lower_while h
    obtain ⟨c, rfl, hc⟩ := Expr.lower_runs (hl.beforeAll hb) ht hk.1
    obtain ⟨d, rfl, hd⟩ := Stmt.lowerAll_runs hb hk.2 hl
    refine ⟨.block .empty (.loop .empty (Site.loopCode c d) .done) .done, ?_, Site.runs_while hc hd⟩
    simp [Code.instrs, Site.loopCode]
  | .ifThen condition yes _ _, l, l', is, h, hk, hl => by
    obtain ⟨test, code, ht, hy, rfl⟩ := Stmt.lower_ifThen h
    obtain ⟨c, rfl, hc⟩ := Expr.lower_runs (hl.beforeAll hy) ht hk.1
    obtain ⟨d, rfl, hd⟩ := Stmt.lowerAll_runs hy hk.2 hl
    refine ⟨c.append (.ifThen .empty d .done), by simp [Code.instrs], ?_⟩
    exact hc.bind fun v _ => Site.runs_ifThen hd v
  | .ifElse condition yes _ no _ _, l, l', is, h, hk, hl => by
    obtain ⟨test, codeYes, codeNo, between, ht, hy, hno, rfl⟩ := Stmt.lower_ifElse h
    -- the slots grow from the condition to the first branch and on to the second
    have hbetween := hl.beforeAll hno
    obtain ⟨c, rfl, hc⟩ := Expr.lower_runs (hbetween.beforeAll hy) ht hk.1
    obtain ⟨d, rfl, hd⟩ := Stmt.lowerAll_runs hy hk.2.1 hbetween
    obtain ⟨e, rfl, he⟩ := Stmt.lowerAll_runs hno hk.2.2 hl
    refine ⟨c.append (.ifElse .empty d e .done), by simp [Code.instrs], ?_⟩
    exact hc.bind fun v _ => Site.runs_ifElse hd he v

theorem Stmt.lowerAll_runs : {ss : List Stmt} → {l l' : Locals} → {is : List Instr} →
    Stmt.lowerAll S.indices ss l = .ok (is, l') → Stmt.AllLinked S.table ss → S.Holds l' →
    ∃ c : Code, c.instrs = is ∧ S.Runs c [] (Stmt.execAll S.world S.fuel ss) fun _ => []
  | [], l, l', is, h, _, _ => by
    cases h
    exact ⟨.done, rfl, .done rfl⟩
  | s :: ss, l, l', is, h, hk, hl => by
    obtain ⟨a, b, between, ha, hb, rfl⟩ := Stmt.lowerAll_cons h
    obtain ⟨c, rfl, hc⟩ := Stmt.lower_runs ha hk.1 (hl.beforeAll hb)
    obtain ⟨d, rfl, hd⟩ := Stmt.lowerAll_runs hb hk.2 hl
    exact ⟨c.append d, by simp, hc.bind fun _ _ => hd⟩

end

end Typed

section Activation

variable {S : Site} {c : Code} {x : Typed.Run Unit}

/-- Code of a body does what the body does as a whole: the value that is returned lies on the stack,
however the code ends, and a body that does not return traps. -/
def Site.Answers (S : Site) (c : Code) (x : Typed.Run Unit) : Prop :=
  ∀ σ w, S.layout.At S.slots [] σ w →
    match outcome x σ with
    | (.ok _, σ') | (.error .trap, σ') =>
      ∃ w', outcome (c.run S.module S.call S.fuel) w = (.error .trap, w') ∧ S.layout.Stops .trap σ' w'
    | (.error (.returned v), σ') =>
      ∃ r w', outcome (c.run S.module S.call S.fuel) w = (r, w') ∧ (r = .ok () ∨ r = .error .return_) ∧
        S.layout.Stops (.returned v) σ' w'
    | (.error .undefined, _) => True

theorem Site.Runs.answers_unreachable (h : S.Runs c [] x fun _ => []) :
    S.Answers (c.append (.plain .unreachable rfl .done)) x := by
  intro σ w hp
  have hx := h [] σ w hp
  rw [Code.run_append, outcome_bind]
  rcases hr : outcome x σ with ⟨s | _, σ'⟩
  · simp only [hr] at hx ⊢
    cases s with
    | undefined => trivial
    | trap =>
      obtain ⟨w', hw, hs⟩ := hx.resolve_left nofun
      exact ⟨w', by rw [hw]; rfl, hs⟩
    | returned v =>
      obtain ⟨w', hw, hs⟩ := hx.resolve_left nofun
      exact ⟨_, w', by rw [hw]; rfl, .inr rfl, hs⟩
  · simp only [hr] at hx ⊢
    obtain ⟨w', hw, hs⟩ := hx
    exact ⟨w', by rw [hw]; rfl, hs.trace⟩

theorem Site.Runs.answers_return {z : Typed.Run Int32} (h : S.Runs c [] z fun v => [.i32 v]) :
    S.Answers c (z >>= fun v => throw (.returned v)) := by
  intro σ w hp
  have hz := h [] σ w hp
  rw [outcome_bind]
  rcases hr : outcome z σ with ⟨s | v, σ'⟩
  · simp only [hr] at hz ⊢
    cases s with
    | undefined => trivial
    | trap => exact hz.resolve_left nofun
    | returned v =>
      obtain ⟨w', hw, hs⟩ := hz.resolve_left nofun
      exact ⟨_, w', hw, .inr rfl, hs⟩
  · simp only [hr] at hz ⊢
    obtain ⟨w', hw, hs⟩ := hz
    exact ⟨_, w', hw, .inl rfl, hs.toAgrees, [], hs.stack⟩

theorem Typed.Stmt.execAll_append (w : Typed.World) (n : Nat) (xs ys : List Typed.Stmt) :
    Typed.Stmt.execAll w n (xs ++ ys) = (do Typed.Stmt.execAll w n xs; Typed.Stmt.execAll w n ys) := by
  induction xs with
  | nil => simp [execAll]
  | cons x xs ih => simp [execAll, ih]

theorem Typed.LowersBody.answers {params : List Typed.Param} {body : List Typed.Stmt} {code : List Instr}
    {l : Locals} (h : Typed.LowersBody S.indices params body code l)
    (hk : Typed.Stmt.AllLinked S.table body) (hl : S.Holds l) :
    ∃ c : Code, c.instrs = code ∧ S.Answers c (Typed.Stmt.execAll S.world S.fuel body) := by
  obtain ⟨front, value, span, is, result, rfl, hfront, hvalue, rfl⟩ | ⟨is, hbody, rfl⟩ := h
  · obtain ⟨hkfront, hkvalue, _⟩ := Typed.Stmt.allLinked_append.1 hk
    obtain ⟨c, rfl, hc⟩ := Typed.Stmt.lowerAll_runs hfront hkfront hl
    obtain ⟨d, rfl, hd⟩ := Typed.Expr.lower_runs hl hvalue hkvalue
    refine ⟨c.append d, by simp, ?_⟩
    have hreturn := (hc.bind fun _ _ => hd).answers_return
    have he : Typed.Stmt.execAll S.world S.fuel (front ++ [.return_ value span]) =
        ((Typed.Stmt.execAll S.world S.fuel front >>= fun _ => value.eval S.world) >>= fun v =>
          throw (.returned v)) := by
      rw [Typed.Stmt.execAll_append]
      simp only [Typed.Stmt.execAll, Typed.Stmt.exec, bind_assoc]
      refine bind_congr fun _ => bind_congr fun v => ?_
      rfl
    rw [he]
    exact hreturn
  · obtain ⟨c, rfl, hc⟩ := Typed.Stmt.lowerAll_runs hbody hk hl
    exact ⟨_, by simp [Code.instrs], hc.answers_unreachable⟩

theorem map_lookup_zip {xs : List Nat} {vs : List Int32} (hd : xs.Nodup) (hn : vs.length = xs.length) :
    xs.map (fun s => ((xs.zip vs).lookup s).getD 0) = vs := by
  induction xs generalizing vs with
  | nil => simpa using hn
  | cons x xs ih =>
    cases vs with
    | nil => simp at hn
    | cons v vs =>
      obtain ⟨hx, hd⟩ := List.nodup_cons.1 hd
      have hrest : xs.map (fun s => ((((x, v) :: xs.zip vs)).lookup s).getD 0) =
          xs.map fun s => ((xs.zip vs).lookup s).getD 0 := by
        refine List.map_congr_left fun s hs => ?_
        have hne : (s == x) = false := by
          simp only [beq_eq_false_iff_ne, ne_eq]
          exact fun he => hx (he ▸ hs)
        simp [List.lookup_cons, hne]
      simp only [List.zip_cons_cons, List.map_cons, hrest, ih hd (by simpa using hn)]
      simp

theorem map_bindParams {params : List Typed.Param} {args : List Int32} {new : List Nat}
    (hd : (params.map (·.name.symbol) ++ new).Nodup) (hn : args.length = params.length) :
    (params.map (·.name.symbol) ++ new).map (fun s => Value.i32 (Typed.bindParams params args s)) =
      args.map .i32 ++ List.replicate new.length (.i32 0) := by
  obtain ⟨hparams, _, hdisjoint⟩ := List.nodup_append.1 hd
  have hargs := congrArg (List.map Value.i32) (map_lookup_zip hparams (by simpa using hn))
  rw [List.map_map] at hargs
  have hnew : new.map (fun s => Value.i32 (Typed.bindParams params args s)) =
      List.replicate new.length (.i32 0) := by
    refine List.eq_replicate_iff.2 ⟨by simp, ?_⟩
    intro v hv
    obtain ⟨s, hs, rfl⟩ := List.mem_map.1 hv
    have hnone : ((params.map (·.name.symbol)).zip args).lookup s = none := by
      refine List.lookup_eq_none_iff.2 fun p hp => ?_
      have hmem := (List.of_mem_zip hp).1
      exact bne_iff_ne.2 fun he => hdisjoint _ hmem _ hs he.symm
    rw [Typed.bindParams, hnone]
    rfl
  rw [List.map_append, hnew, ← hargs]
  rfl

theorem Site.Answers.activate {params : List Typed.Param} {args : List Int32} {locals : List Value}
    {slots : List Nat} {base : List Value} (h : S.Answers c x)
    (hlocals : locals = S.slots.map fun s => .i32 (Typed.bindParams params args s)) :
    Sim (S.layout.At slots base) (Typed.activate params args x)
      (Wasm.Module.activate 1 locals (c.run S.module S.call S.fuel))
      (fun v => S.layout.At slots (.i32 v :: base)) S.layout.Stops := by
  intro σ w hp
  have hx := h { σ with locals := Typed.bindParams params args } { w with locals, stack := [] }
    ⟨⟨hp.globals, hp.trace⟩, hlocals, rfl⟩
  simp only [Typed.activate, Wasm.Module.activate, outcome_bind, outcome_get, outcome_set, outcome_attempt]
  rcases hr : outcome x { σ with locals := Typed.bindParams params args } with ⟨s | _, σ'⟩
  · simp only [hr] at hx ⊢
    cases s with
    | undefined => exact .inl rfl
    | trap =>
      obtain ⟨w', hw, hs⟩ := hx
      rw [hw]
      exact .inr ⟨w', rfl, hs⟩
    | returned v =>
      obtain ⟨r, w', hw, hends, ⟨hg, ht⟩, rest, hstack⟩ := hx
      refine ⟨{ w' with locals := w.locals, stack := .i32 v :: base }, ?_, ⟨hg, ht⟩, hp.locals, rfl⟩
      obtain rfl | rfl := hends <;> simp [hw, hstack, hp.stack]
  · simp only [hr] at hx ⊢
    obtain ⟨w', hw, hs⟩ := hx
    rw [hw]
    exact .inr ⟨w', rfl, hs⟩

end Activation

end ImpWasm
