import ImpWasm.Proofs.Outcome
import ImpWasm.Typing.Checker
set_option autoImplicit false

namespace ImpWasm

theorem Checked.both_eq_ok {α β : Type} {x : Checked α} {y : Checked β} {p : α × β} :
    x.both y = .ok p ↔ x = .ok p.1 ∧ y = .ok p.2 := by
  obtain ⟨a, b⟩ := p
  cases x with
  | error e => cases y <;> simp [both]
  | ok x => cases y <;> simp [both]

namespace FunctionTable

def Within (t u : FunctionTable) : Prop := ∀ name s, t.get? name = some s → u.get? name = some s

theorem within_append {t u : FunctionTable} {added : List Signature}
    (h : u.signatures = t.signatures ++ added) : t.Within u := by
  intro name s hs
  unfold get? at hs ⊢
  rw [h, List.find?_append, hs]
  rfl

theorem name_of_get? {t : FunctionTable} {name : String} {s : Signature} (h : t.get? name = some s) :
    s.name = name := by
  simpa using List.find?_some h

theorem mem_of_get? {t : FunctionTable} {name : String} {s : Signature} (h : t.get? name = some s) :
    s ∈ t.signatures := List.mem_of_find?_eq_some h

theorem get?_eq_none {t : FunctionTable} {name : String} : t.get? name = none ↔ name ∉ t.names := by
  rw [get?, List.find?_eq_none]
  simp [names]

theorem get?_of_mem {t : FunctionTable} (hd : t.names.Nodup) {s : Signature} (hs : s ∈ t.signatures) :
    t.get? s.name = some s := by
  obtain ⟨before, after, h⟩ := List.append_of_mem hs
  unfold get?
  rw [h, List.find?_append]
  have hn : before.find? (·.name == s.name) = none := by
    rw [List.find?_eq_none]
    intro x hx he
    have hne : s.name ∉ before.map Signature.name := by
      simp only [names, h, List.map_append, List.map_cons, List.nodup_append] at hd
      intro hm
      exact hd.2.2 _ hm _ (by simp) rfl
    exact hne (List.mem_map.2 ⟨x, hx, by simpa using he⟩)
  simp [hn]

end FunctionTable

namespace Typed

mutual

/-- Every call is of a function in the table, with as many arguments as it takes. -/
def Expr.Linked (t : FunctionTable) : Expr → Prop
  | .binary _ left right _ _ => left.Linked t ∧ right.Linked t
  | .call callee args _ _ =>
    (∃ s, t.get? callee = some s ∧ s.arity = args.length) ∧ Expr.AllLinked t args
  | .ident .. | .int .. | .string .. | .bool .. => True

def Expr.AllLinked (t : FunctionTable) : List Expr → Prop
  | [] => True
  | e :: es => e.Linked t ∧ Expr.AllLinked t es

end

mutual

def Stmt.Linked (t : FunctionTable) : Stmt → Prop
  | .expr value _ | .assign _ value _ | .return_ value _ => value.Linked t
  | .var _ _ init _ => ∀ e ∈ init, e.Linked t
  | .block body _ _ => Stmt.AllLinked t body
  | .function _ _ _ body _ _ => Stmt.AllLinked t body
  | .imported .. => True
  | .while_ condition body _ _ => condition.Linked t ∧ Stmt.AllLinked t body
  | .ifThen condition yes _ _ => condition.Linked t ∧ Stmt.AllLinked t yes
  | .ifElse condition yes _ no _ _ => condition.Linked t ∧ Stmt.AllLinked t yes ∧ Stmt.AllLinked t no

def Stmt.AllLinked (t : FunctionTable) : List Stmt → Prop
  | [] => True
  | s :: ss => s.Linked t ∧ Stmt.AllLinked t ss

end

variable {t u : FunctionTable}

mutual

theorem Expr.Linked.grow {e : Expr} (he : e.Linked t) (h : t.Within u) : e.Linked u := by
  cases e with
  | binary op left right => exact ⟨he.1.grow h, he.2.grow h⟩
  | call callee args =>
    obtain ⟨⟨s, hs, ha⟩, hargs⟩ := he
    exact ⟨⟨s, h callee s hs, ha⟩, hargs.grow h⟩
  | ident | int | string | bool => trivial

theorem Expr.AllLinked.grow {es : List Expr} (hes : Expr.AllLinked t es) (h : t.Within u) :
    Expr.AllLinked u es := by
  cases es with
  | nil => trivial
  | cons e es => exact ⟨hes.1.grow h, hes.2.grow h⟩

end

mutual

theorem Stmt.Linked.grow {s : Stmt} (hs : s.Linked t) (h : t.Within u) : s.Linked u := by
  cases s with
  | expr value => exact Expr.Linked.grow hs h
  | assign target value => exact Expr.Linked.grow hs h
  | return_ value => exact Expr.Linked.grow hs h
  | var name type init =>
    intro e he
    exact (hs e he).grow h
  | block body =>
    have hb : Stmt.AllLinked t body := hs
    exact hb.grow h
  | function name params result body =>
    have hb : Stmt.AllLinked t body := hs
    exact hb.grow h
  | imported => trivial
  | while_ condition body => exact ⟨hs.1.grow h, hs.2.grow h⟩
  | ifThen condition yes => exact ⟨hs.1.grow h, hs.2.grow h⟩
  | ifElse condition yes _ no => exact ⟨hs.1.grow h, hs.2.1.grow h, hs.2.2.grow h⟩

theorem Stmt.AllLinked.grow {ss : List Stmt} (hss : Stmt.AllLinked t ss) (h : t.Within u) :
    Stmt.AllLinked u ss := by
  cases ss with
  | nil => trivial
  | cons s ss => exact ⟨hss.1.grow h, hss.2.grow h⟩

end

theorem Stmt.allLinked_append {xs ys : List Stmt} :
    Stmt.AllLinked t (xs ++ ys) ↔ Stmt.AllLinked t xs ∧ Stmt.AllLinked t ys := by
  induction xs with
  | nil => simp [Stmt.AllLinked]
  | cons x xs ih => simp [Stmt.AllLinked, ih, and_assoc]

end Typed

end ImpWasm
