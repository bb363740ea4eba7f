import ImpWasm.Lang.Chain
set_option autoImplicit false

namespace ImpWasm

namespace Operator

def tiers : List (List Operator) :=
  [[.or], [.and], [.eq, .ne], [.lt, .le, .gt, .ge], [.add, .sub], [.mul, .div, .mod]]

def tier (op : Operator) : Nat := tiers.findIdx (·.contains op)

theorem level_eq (op : Operator) : op.level = op.tier + 1 := by
  cases op <;> rfl

end Operator

namespace Chain

def top? : Chain → Option Operator
  | .operand _ => none
  | .node op _ _ => some op

/-- On the left of every operator are operators of its tier or tighter ones, on its right tighter ones only. -/
def Climbs : Chain → Prop
  | .operand _ => True
  | .node op l r =>
    (∀ o ∈ l.top?, op.tier ≤ o.tier) ∧ (∀ o ∈ r.top?, op.tier < o.tier) ∧ l.Climbs ∧ r.Climbs

theorem top?_attach {op o : Operator} {e : Expr} {t : Chain} (h : o ∈ (t.attach op e).top?) :
    o ∈ t.top? ∨ o = op := by
  cases t with
  | operand x => exact .inr (Option.some.inj h).symm
  | node p l r =>
    rw [attach] at h
    split at h
    · exact .inl h
    · exact .inr (Option.some.inj h).symm

theorem Climbs.attach {t : Chain} (h : t.Climbs) (op : Operator) (e : Expr) : (t.attach op e).Climbs := by
  induction t with
  | operand x => exact ⟨by simp [top?], by simp [top?], trivial, trivial⟩
  | node o l r _ ihr =>
    obtain ⟨left, right, hl, hr⟩ := h
    rw [Chain.attach]
    simp only [Operator.level_eq, Nat.add_lt_add_iff_right]
    split
    · rename_i tighter
      refine ⟨left, fun p hp => ?_, hl, ihr hr⟩
      obtain hp | rfl := top?_attach hp
      · exact right p hp
      · exact tighter
    · rename_i looser
      refine ⟨fun p hp => ?_, by simp [top?], ⟨left, right, hl, hr⟩, trivial⟩
      obtain rfl := Option.some.inj hp
      exact Nat.le_of_not_lt looser

theorem climbs_foldl (links : List (Operator × Expr)) {t : Chain} (h : t.Climbs) :
    (links.foldl (fun t (op, e) => t.attach op e) t).Climbs := by
  induction links generalizing t with
  | nil => exact h
  | cons link links ih => exact ih (h.attach link.1 link.2)

theorem first_foldl (links : List (Operator × Expr)) (t : Chain) :
    (links.foldl (fun t (op, e) => t.attach op e) t).first = t.first := by
  induction links generalizing t with
  | nil => rfl
  | cons link links ih => rw [List.foldl_cons, ih, first_attach]

theorem links_foldl (links : List (Operator × Expr)) (t : Chain) :
    (links.foldl (fun t (op, e) => t.attach op e) t).links = t.links ++ links := by
  induction links generalizing t with
  | nil => exact (List.append_nil _).symm
  | cons link links ih => rw [List.foldl_cons, ih, links_attach, List.append_assoc, List.singleton_append]

theorem Climbs.le_links {t : Chain} (h : t.Climbs) {n : Nat} (top : ∀ o ∈ t.top?, n ≤ o.tier) :
    ∀ link ∈ t.links, n ≤ link.1.tier := by
  induction t generalizing n with
  | operand x => exact fun _ hlink => absurd hlink List.not_mem_nil
  | node op l r ihl ihr =>
    obtain ⟨left, right, hl, hr⟩ := h
    have root : n ≤ op.tier := top op rfl
    intro link hlink
    obtain hlink | hlink := List.mem_append.1 hlink
    · exact ihl hl (fun o ho => Nat.le_trans root (left o ho)) link hlink
    · obtain rfl | hlink := List.mem_cons.1 hlink
      · exact root
      · exact ihr hr (fun o ho => Nat.le_trans root (Nat.le_of_lt (right o ho))) link hlink

/-- Two ways to take one element out of a list: it is the same one, or each is on another side of the other. -/
theorem cut_cases {α : Type} {xs xs' ys ys' : List α} {a a' : α} (h : xs ++ a :: ys = xs' ++ a' :: ys') :
    (xs = xs' ∧ a = a' ∧ ys = ys') ∨ (a ∈ xs' ∧ a' ∈ ys) ∨ (a' ∈ xs ∧ a ∈ ys') := by
  obtain ⟨between, hxs', hys⟩ | ⟨between, hxs, hys'⟩ := List.append_eq_append_iff.1 h
  · cases between with
    | nil => simp_all
    | cons b between =>
      obtain ⟨rfl, rfl⟩ := List.cons.inj hys
      exact .inr (.inl (by simp [hxs']))
  · cases between with
    | nil => simp_all
    | cons b between =>
      obtain ⟨rfl, rfl⟩ := List.cons.inj hys'
      exact .inr (.inr (by simp [hxs]))

/-- The tree of a chain is the only one in which precedence holds. -/
theorem Climbs.unique {s t : Chain} (hs : s.Climbs) (ht : t.Climbs) (first : s.first = t.first)
    (links : s.links = t.links) : s = t := by
  induction s generalizing t with
  | operand x =>
    cases t with
    | operand y => exact congrArg operand first
    | node op l r => simp [Chain.links] at links
  | node op l r ihl ihr =>
    cases t with
    | operand y => simp [Chain.links] at links
    | node op' l' r' =>
      obtain ⟨left, right, hl, hr⟩ := hs
      obtain ⟨left', right', hl', hr'⟩ := ht
      obtain ⟨hlinks, hroot, hrest⟩ | ⟨hin, hin'⟩ | ⟨hin', hin⟩ := cut_cases links
      · obtain ⟨rfl, hfirst⟩ := Prod.mk.inj hroot
        rw [ihl hl hl' first hlinks, ihr hr hr' hfirst hrest]
      · -- One root is on the left of the other, which is on its right.
        have loose : op'.tier ≤ op.tier := hl'.le_links left' _ hin
        have tight : op.tier < op'.tier := hr.le_links right _ hin'
        omega
      · have loose : op.tier ≤ op'.tier := hl.le_links left _ hin'
        have tight : op'.tier < op.tier := hr'.le_links right' _ hin
        omega

/-- The tree built of a chain has the chain's operands and operators in their order, and precedence holds in it. -/
theorem ofLinks_spec (first : Expr) (links : List (Operator × Expr)) :
    (ofLinks first links).first = first ∧ (ofLinks first links).links = links ∧ (ofLinks first links).Climbs :=
  ⟨first_foldl links _, links_foldl links _, climbs_foldl links trivial⟩

end Chain

end ImpWasm
