import ImpWasm.Peg
set_option autoImplicit false

/-!
What an expression matches, said without bounds: a relation with one rule for each way a match can
go. It is a function of the cursor, and a run with large enough bounds computes it. How large is read
off a grammar once: which rules may match nothing, and how many rules are nested at most before a
character is read.
-/
namespace ImpWasm

theorem utf8Length_append (v w : List Char) : utf8Length (v ++ w) = utf8Length v + utf8Length w := by
  induction v with
  | nil => simp [utf8Length]
  | cons c v ih => simp [utf8Length, ih, Nat.add_assoc]

namespace Cursor

theorem ext {c d : Cursor} (hp : c.pos = d.pos) (hr : c.rest = d.rest) : c = d := by
  cases c
  cases d
  simp_all

/-- The second cursor is the first one moved over some text. -/
def Leads (c d : Cursor) : Prop := ∃ w, c.rest = w ++ d.rest ∧ d.pos = c.pos + utf8Length w

theorem Leads.refl (c : Cursor) : c.Leads c := ⟨[], by simp, by simp [utf8Length]⟩

theorem Leads.trans {c d e : Cursor} (h : c.Leads d) (k : d.Leads e) : c.Leads e := by
  obtain ⟨v, hv, hp⟩ := h
  obtain ⟨w, hw, hq⟩ := k
  exact ⟨v ++ w, by simp [hv, hw], by rw [utf8Length_append]; omega⟩

theorem Leads.length_le {c d : Cursor} (h : c.Leads d) : d.rest.length ≤ c.rest.length := by
  obtain ⟨w, hw, _⟩ := h
  simp [hw]

theorem leads_cons (pos : Nat) (x : Char) (cs : List Char) :
    Leads ⟨pos, x :: cs⟩ ⟨pos + x.utf8Size, cs⟩ := ⟨[x], rfl, by simp [utf8Length]⟩

theorem leads_skipFrom (b : Bool) (pos : Nat) (cs : List Char) : Leads ⟨pos, cs⟩ (skipFrom b pos cs) := by
  fun_induction skipFrom b pos cs with
  | case1 => exact .refl _
  | case2 pos c cs ih => exact (leads_cons pos c cs).trans ih
  | case3 _ pos c cs _ _ ih => exact (leads_cons pos c cs).trans ih
  | case4 _ pos _ ds _ ih =>
    have two : Leads ⟨pos, '/' :: '/' :: ds⟩ ⟨pos + 2, ds⟩ := ⟨['/', '/'], rfl, rfl⟩
    exact two.trans ih
  | case5 => exact .refl _

theorem leads_skip (c : Cursor) : c.Leads c.skip := leads_skipFrom false c.pos c.rest

theorem expect_eq_some_iff {pos : Nat} {w cs : List Char} {d : Cursor} :
    expect pos w cs = some d ↔ cs = w ++ d.rest ∧ d.pos = pos + utf8Length w := by
  induction w generalizing pos cs with
  | nil =>
    cases d
    simp [expect, utf8Length, eq_comm, and_comm]
  | cons x w ih =>
    cases cs with
    | nil => simp [expect]
    | cons c cs =>
      have size : utf8Length (x :: w) = x.utf8Size + utf8Length w := rfl
      by_cases hx : x = c
      · subst hx
        simp [expect, ih, size, Nat.add_assoc]
      · simp [expect, hx, Ne.symm hx]

theorem expect_eq_none_iff {pos : Nat} {w cs : List Char} : expect pos w cs = none ↔ ¬ w <+: cs := by
  constructor
  · intro h hp
    obtain ⟨t, rfl⟩ := hp
    have found := (expect_eq_some_iff (d := ⟨pos + utf8Length w, t⟩)).2 ⟨rfl, rfl⟩
    rw [h] at found
    cases found
  · intro h
    cases hd : expect pos w cs with
    | none => rfl
    | some d => exact absurd ⟨d.rest, (expect_eq_some_iff.1 hd).1.symm⟩ h

end Cursor

namespace Peg

variable {R : Type}

theorem Mode.leads_skip (m : Mode) (c : Cursor) : c.Leads (m.skip c) := by
  cases m with
  | spaced => exact c.leads_skip
  | token => exact .refl c
  | lexeme => exact .refl c

theorem Step.outcome_andThen (s : Step R) (next : Cursor → Step R) :
    (s.andThen next).outcome = s.outcome.bind fun x =>
      (next x.2).outcome.map fun y => (x.1 ++ y.1, y.2) := by
  unfold Step.andThen
  split <;> simp_all

theorem Step.outcome_orElse (s : Step R) (other : Unit → Step R) :
    (s.orElse other).outcome = s.outcome.or (other ()).outcome := by
  unfold Step.orElse
  split <;> simp_all

end Peg

namespace Grammar

open Peg

variable {R : Type} {g : Grammar R} {m : Mode}

def trees (g : Grammar R) (m : Mode) (r : R) (c d : Cursor) (children : List (ParseTree R)) :
    List (ParseTree R) :=
  if m = .lexeme then [] else [g.tree r c d children]

/-- How an expression fares at a cursor: it fails, or it yields trees and moves the cursor. -/
inductive Matches (g : Grammar R) :
    Mode → Peg R → Cursor → Option (List (ParseTree R) × Cursor) → Prop
  | empty {m : Mode} {c : Cursor} : Matches g m .empty c (some ([], c))
  | text {m : Mode} {w : List Char} {c d : Cursor} (h : c.rest = w ++ d.rest)
    (hp : d.pos = c.pos + utf8Length w) : Matches g m (.text w) c (some ([], d))
  | noText {m : Mode} {w : List Char} {c : Cursor} (h : ¬ w <+: c.rest) : Matches g m (.text w) c none
  | one {m : Mode} {p : Char → Bool} {pos : Nat} {x : Char} {cs : List Char} (h : p x = true) :
    Matches g m (.one p) ⟨pos, x :: cs⟩ (some ([], ⟨pos + x.utf8Size, cs⟩))
  | noOne {m : Mode} {p : Char → Bool} {c : Cursor} (h : ∀ x ∈ c.rest.head?, p x = false) :
    Matches g m (.one p) c none
  | atEnd {m : Mode} {c : Cursor} (h : c.rest = []) : Matches g m .endOfInput c (some ([], c))
  | notAtEnd {m : Mode} {c : Cursor} (h : c.rest ≠ []) : Matches g m .endOfInput c none
  | rule {m : Mode} {r : R} {c d : Cursor} {ts : List (ParseTree R)}
    (h : Matches g (m.enter (g.kind r)) (g.body r) c (some (ts, d))) :
    Matches g m (.rule r) c (some (g.trees m r c d ts, d))
  | noRule {m : Mode} {r : R} {c : Cursor}
    (h : Matches g (m.enter (g.kind r)) (g.body r) c none) : Matches g m (.rule r) c none
  | seq {m : Mode} {a b : Peg R} {c d e : Cursor} {ts us : List (ParseTree R)}
    (ha : Matches g m a c (some (ts, d))) (hb : Matches g m b (m.skip d) (some (us, e))) :
    Matches g m (.seq a b) c (some (ts ++ us, e))
  | noLeft {m : Mode} {a b : Peg R} {c : Cursor} (ha : Matches g m a c none) :
    Matches g m (.seq a b) c none
  | noRight {m : Mode} {a b : Peg R} {c d : Cursor} {ts : List (ParseTree R)}
    (ha : Matches g m a c (some (ts, d))) (hb : Matches g m b (m.skip d) none) :
    Matches g m (.seq a b) c none
  | left {m : Mode} {a b : Peg R} {c : Cursor} {x : List (ParseTree R) × Cursor}
    (ha : Matches g m a c (some x)) : Matches g m (.alt a b) c (some x)
  | right {m : Mode} {a b : Peg R} {c : Cursor} {o : Option (List (ParseTree R) × Cursor)}
    (ha : Matches g m a c none) (hb : Matches g m b c o) : Matches g m (.alt a b) c o
  | opt {m : Mode} {a : Peg R} {c : Cursor} {x : List (ParseTree R) × Cursor}
    (ha : Matches g m a c (some x)) : Matches g m (.opt a) c (some x)
  | noOpt {m : Mode} {a : Peg R} {c : Cursor} (ha : Matches g m a c none) :
    Matches g m (.opt a) c (some ([], c))
  | starNone {m : Mode} {a : Peg R} {c : Cursor} (ha : Matches g m a c none) :
    Matches g m (.star a) c (some ([], c))
  | starLast {m : Mode} {a : Peg R} {c d : Cursor} {ts : List (ParseTree R)}
    (ha : Matches g m a c (some (ts, d))) (hn : Matches g m a (m.skip d) none) :
    Matches g m (.star a) c (some (ts, d))
  | starMore {m : Mode} {a : Peg R} {c d e : Cursor} {ts us : List (ParseTree R)}
    {x : List (ParseTree R) × Cursor} (ha : Matches g m a c (some (ts, d)))
    (hx : Matches g m a (m.skip d) (some x)) (hs : Matches g m (.star a) (m.skip d) (some (us, e))) :
    Matches g m (.star a) c (some (ts ++ us, e))
  | not {m : Mode} {a : Peg R} {c : Cursor} (ha : Matches g m a c none) :
    Matches g m (.not a) c (some ([], c))
  | noNot {m : Mode} {a : Peg R} {c : Cursor} {x : List (ParseTree R) × Cursor}
    (ha : Matches g m a c (some x)) : Matches g m (.not a) c none

namespace Matches

theorem unique {p : Peg R} {c : Cursor} {o o' : Option (List (ParseTree R) × Cursor)}
    (h : Matches g m p c o) (h' : Matches g m p c o') : o = o' := by
  induction h generalizing o' with
  | empty => cases h'; rfl
  | text h hp =>
    cases h' with
    | text k kp =>
      have same := List.append_cancel_left (h.symm.trans k)
      exact congrArg (fun d => some ([], d)) (Cursor.ext (hp.trans kp.symm) same)
    | noText k => exact absurd ⟨_, h.symm⟩ k
  | noText h =>
    cases h' with
    | text k kp => exact absurd ⟨_, k.symm⟩ h
    | noText k => rfl
  | one h => cases h' <;> simp_all
  | noOne h => cases h' <;> simp_all
  | atEnd h => cases h' <;> simp_all
  | notAtEnd h => cases h' <;> simp_all
  | rule h ih =>
    cases h' with
    | rule k => cases ih k; rfl
    | noRule k => cases ih k
  | noRule h ih =>
    cases h' with
    | rule k => cases ih k
    | noRule k => rfl
  | seq ha hb iha ihb =>
    cases h' with
    | seq ka kb => cases iha ka; cases ihb kb; rfl
    | noLeft ka => cases iha ka
    | noRight ka kb => cases iha ka; cases ihb kb
  | noLeft ha iha =>
    cases h' with
    | seq ka kb => cases iha ka
    | noLeft ka => rfl
    | noRight ka kb => rfl
  | noRight ha hb iha ihb =>
    cases h' with
    | seq ka kb => cases iha ka; cases ihb kb
    | noLeft ka => rfl
    | noRight ka kb => rfl
  | left ha iha =>
    cases h' with
    | left ka => exact iha ka
    | right ka kb => cases iha ka
  | right ha hb iha ihb =>
    cases h' with
    | left ka => cases iha ka
    | right ka kb => exact ihb kb
  | opt ha iha =>
    cases h' with
    | opt ka => exact iha ka
    | noOpt ka => cases iha ka
  | noOpt ha iha =>
    cases h' with
    | opt ka => cases iha ka
    | noOpt ka => rfl
  | starNone ha iha =>
    cases h' with
    | starNone ka => rfl
    | starLast ka kn => cases iha ka
    | starMore ka kx ks => cases iha ka
  | starLast ha hn iha ihn =>
    cases h' with
    | starNone ka => cases iha ka
    | starLast ka kn => exact iha ka
    | starMore ka kx ks => cases iha ka; cases ihn kx
  | starMore ha hx hs iha ihx ihs =>
    cases h' with
    | starNone ka => cases iha ka
    | starLast ka kn => cases iha ka; cases ihx kn
    | starMore ka kx ks => cases iha ka; cases ihs ks; rfl
  | not ha iha =>
    cases h' with
    | not ka => rfl
    | noNot ka => cases iha ka
  | noNot ha iha =>
    cases h' with
    | not ka => cases iha ka
    | noNot ka => rfl

theorem leads_of_mem {p : Peg R} {c : Cursor} {o : Option (List (ParseTree R) × Cursor)}
    (h : Matches g m p c o) : ∀ x ∈ o, c.Leads x.2 := by
  induction h with
  | empty | noOpt | starNone | not | atEnd => simp [Cursor.Leads.refl]
  | noText | noOne | notAtEnd | noRule | noLeft | noRight | noNot => simp
  | text h hp => simpa using ⟨_, h, hp⟩
  | one h => simpa using Cursor.leads_cons _ _ _
  | rule h ih => simpa using ih
  | seq ha hb iha ihb =>
    simp only [Option.mem_def, Option.some.injEq, forall_eq'] at iha ihb ⊢
    exact iha.trans ((Mode.leads_skip _ _).trans ihb)
  | left ha iha => exact iha
  | right ha hb iha ihb => exact ihb
  | opt ha iha => exact iha
  | starLast ha hn iha ihn => exact iha
  | starMore ha hx hs iha ihx ihs =>
    simp only [Option.mem_def, Option.some.injEq, forall_eq'] at iha ihs ⊢
    exact iha.trans ((Mode.leads_skip _ _).trans ihs)

theorem leads {p : Peg R} {c d : Cursor} {ts : List (ParseTree R)}
    (h : Matches g m p c (some (ts, d))) : c.Leads d := h.leads_of_mem _ rfl

end Matches

end Grammar

namespace Peg

variable {R : Type}

def nullable (empties : R → Bool) : Peg R → Bool
  | .empty | .endOfInput | .opt _ | .star _ | .not _ => true
  | .text w => w.isEmpty
  | .one _ => false
  | .rule r => empties r
  | .seq a b => nullable empties a && nullable empties b
  | .alt a b => nullable empties a || nullable empties b

/-- How many rules are nested at most before a character is read, given how many are in each rule. -/
def reach (empties : R → Bool) (rank : R → Nat) : Peg R → Nat
  | .empty | .endOfInput | .text _ | .one _ => 0
  | .rule r => rank r
  | .seq a b =>
    if nullable empties a then max (reach empties rank a) (reach empties rank b)
    else reach empties rank a
  | .alt a b => max (reach empties rank a) (reach empties rank b)
  | .opt a | .star a | .not a => reach empties rank a

def progresses (empties : R → Bool) : Peg R → Bool
  | .empty | .endOfInput | .text _ | .one _ | .rule _ => true
  | .seq a b | .alt a b => progresses empties a && progresses empties b
  | .opt a | .not a => progresses empties a
  | .star a => !nullable empties a && progresses empties a

theorem reach_le {empties : R → Bool} {rank : R → Nat} {n : Nat} (h : ∀ r, rank r ≤ n) (p : Peg R) :
    p.reach empties rank ≤ n := by
  induction p with
  | empty | text | one | endOfInput => simp [reach]
  | rule r => exact h r
  | seq a b iha ihb =>
    simp only [reach]
    split <;> omega
  | alt a b iha ihb => simp only [reach]; omega
  | opt a ih | star a ih | not a ih => exact ih

end Peg

namespace Grammar

open Peg

variable {R : Type} {g : Grammar R} {m : Mode}

/-- Which rules may match nothing and how deep each one nests rules before it reads. -/
structure Bounds (g : Grammar R) where
  empties : R → Bool
  rank : R → Nat
  empties_body : ∀ r, (g.body r).nullable empties = true → empties r = true
  rank_body : ∀ r, (g.body r).reach empties rank < rank r
  rank_le : ∀ r, rank r ≤ 8
  progresses : ∀ r, (g.body r).progresses empties = true

theorem Matches.shorter_of_mem (b : g.Bounds) {p : Peg R} {c : Cursor}
    {o : Option (List (ParseTree R) × Cursor)} (h : Matches g m p c o)
    (hn : p.nullable b.empties = false) : ∀ x ∈ o, x.2.rest.length < c.rest.length := by
  induction h with
  | empty | noOpt | starNone | not | atEnd | opt | starLast | starMore => simp [nullable] at hn
  | noText | noOne | notAtEnd | noRule | noLeft | noRight | noNot => simp
  | @text m w c d h hp =>
    have length : 0 < w.length := List.length_pos_iff.2 (by simpa [nullable] using hn)
    simp only [Option.mem_def, Option.some.injEq, forall_eq', h, List.length_append]
    omega
  | one h => simp
  | @rule m r c d ts h ih =>
    have body : (g.body r).nullable b.empties = false := by
      cases hb : (g.body r).nullable b.empties with
      | false => rfl
      | true => exact absurd (b.empties_body r hb) (by simpa [nullable] using hn)
    simpa using ih body
  | @seq m _ _ c d e _ _ ha hb iha ihb =>
    simp only [Option.mem_def, Option.some.injEq, forall_eq'] at iha ihb ⊢
    have first := ha.leads.length_le
    have second := hb.leads.length_le
    have skipped := (m.leads_skip d).length_le
    simp only [nullable, Bool.and_eq_false_iff] at hn
    cases hn with
    | inl hn =>
      have strict := iha hn
      omega
    | inr hn =>
      have strict := ihb hn
      omega
  | left ha iha =>
    simp only [nullable, Bool.or_eq_false_iff] at hn
    exact iha hn.1
  | right ha hb iha ihb =>
    simp only [nullable, Bool.or_eq_false_iff] at hn
    exact ihb hn.2

theorem Matches.shorter (b : g.Bounds) {p : Peg R} {c d : Cursor} {ts : List (ParseTree R)}
    (h : Matches g m p c (some (ts, d))) (hn : p.nullable b.empties = false) :
    d.rest.length < c.rest.length := h.shorter_of_mem b hn _ rfl

theorem Matches.seq_reach (b : g.Bounds) {a q : Peg R} {c d : Cursor} {ts : List (ParseTree R)}
    (h : Matches g m a c (some (ts, d))) :
    8 * (m.skip d).rest.length + q.reach b.empties b.rank
      ≤ 8 * c.rest.length + (Peg.seq a q).reach b.empties b.rank := by
  have read := h.leads.length_le
  have skipped := (m.leads_skip d).length_le
  have low : q.reach b.empties b.rank ≤ 8 := reach_le b.rank_le q
  simp only [reach]
  split
  · omega
  · rename_i hn
    have strict := h.shorter b (by simpa using hn)
    omega

def outcome (g : Grammar R) (fuel limit : Nat) (m : Mode) (negated : Bool) (p : Peg R) (c : Cursor) :
    Option (List (ParseTree R) × Cursor) :=
  (Peg.run (g.run limit fuel) limit m negated p c).outcome

theorem iterate_matches (b : g.Bounds) {a : Peg R} (hn : a.nullable b.empties = false)
    {item : Cursor → Step R} (limit : Nat) (d : Cursor) (hl : d.rest.length ≤ limit)
    (hi : ∀ e, e.rest.length ≤ d.rest.length → Matches g m a (m.skip e) (item e).outcome) :
    ∃ us e, (iterate item limit d).outcome = some (us, e) ∧
      ((us = [] ∧ e = d ∧ Matches g m a (m.skip d) none) ∨
        (∃ x, Matches g m a (m.skip d) (some x)) ∧ Matches g m (.star a) (m.skip d) (some (us, e))) := by
  induction limit generalizing d with
  | zero =>
    have here := hi d (Nat.le_refl _)
    have skipped := (m.leads_skip d).length_le
    refine ⟨[], d, rfl, .inl ⟨rfl, rfl, ?_⟩⟩
    cases ho : (item d).outcome with
    | none => exact ho ▸ here
    | some x =>
      rw [ho] at here
      have strict := here.shorter b hn
      omega
  | succ limit ih =>
    have here := hi d (Nat.le_refl _)
    have skipped := (m.leads_skip d).length_le
    simp only [iterate, Step.outcome_orElse, Step.outcome_andThen]
    cases ho : (item d).outcome with
    | none => exact ⟨[], d, rfl, .inl ⟨rfl, rfl, ho ▸ here⟩⟩
    | some x =>
      rw [ho] at here
      obtain ⟨ts, e⟩ := x
      have strict := here.shorter b hn
      obtain ⟨us, f, hu, last | ⟨⟨y, more⟩, rest⟩⟩ :=
        ih e (by omega) (fun k hk => hi k (by omega))
      · obtain ⟨rfl, rfl, none⟩ := last
        exact ⟨ts, f, by simp [hu], .inr ⟨⟨_, here⟩, .starLast here none⟩⟩
      · exact ⟨ts ++ us, f, by simp [hu], .inr ⟨⟨_, here⟩, .starMore here more rest⟩⟩

end Grammar

namespace Grammar

open Peg

variable {R : Type} {g : Grammar R} {m : Mode}

/-- An expression runs as it matches if the rules in it do. -/
theorem outcome_matches_of_rules (b : g.Bounds) {limit fuel : Nat}
    (rules : ∀ (m : Mode) (negated : Bool) (r : R) (c : Cursor),
      8 * c.rest.length + b.rank r ≤ fuel → c.rest.length ≤ limit →
      Matches g m (.rule r) c (g.outcome fuel limit m negated (.rule r) c))
    (negated : Bool) (p : Peg R) (c : Cursor) (hp : p.progresses b.empties = true)
    (hf : 8 * c.rest.length + p.reach b.empties b.rank ≤ fuel) (hl : c.rest.length ≤ limit) :
    Matches g m p c (g.outcome fuel limit m negated p c) := by
  induction p generalizing c negated with
  | empty => exact .empty
  | text w =>
    simp only [outcome, Peg.run]
    cases he : Cursor.expect c.pos w c.rest with
    | none => exact .noText (Cursor.expect_eq_none_iff.1 he)
    | some d => exact .text (Cursor.expect_eq_some_iff.1 he).1 (Cursor.expect_eq_some_iff.1 he).2
  | one p =>
    obtain ⟨pos, cs⟩ := c
    cases cs with
    | nil => exact .noOne (by simp)
    | cons x cs =>
      by_cases hx : p x = true
      · simpa [outcome, Peg.run, hx, Step.matched] using Matches.one hx
      · simpa [outcome, Peg.run, hx] using Matches.noOne (by simpa using hx)
  | endOfInput =>
    by_cases he : c.rest = []
    · simpa [outcome, Peg.run, he, Step.matched] using Matches.atEnd he
    · simpa [outcome, Peg.run, he] using Matches.notAtEnd he
  | rule r => exact rules m negated r c hf hl
  | seq a q iha ihq =>
    simp only [progresses, Bool.and_eq_true] at hp
    -- the right part counts with its rank only where the left one may read nothing; else fewer characters are left
    have left : 8 * c.rest.length + a.reach b.empties b.rank ≤ fuel := by
      simp only [reach] at hf
      split at hf <;> omega
    have ha := iha negated c hp.1 left hl
    simp only [outcome, Peg.run, Step.outcome_andThen] at ha ⊢
    cases ho : (Peg.run (g.run limit fuel) limit m negated a c).outcome with
    | none => exact .noLeft (ho ▸ ha)
    | some x =>
      obtain ⟨ts, d⟩ := x
      rw [ho] at ha
      have enough := ha.seq_reach b (q := q)
      have read := ha.leads.length_le
      have skipped := (m.leads_skip d).length_le
      have hq := ihq negated (m.skip d) hp.2 (by omega) (by omega)
      simp only [outcome] at hq
      simp only [Option.bind_some]
      cases hoq : (Peg.run (g.run limit fuel) limit m negated q (m.skip d)).outcome with
      | none => exact .noRight ha (hoq ▸ hq)
      | some y => exact .seq ha (hoq ▸ hq)
  | alt a q iha ihq =>
    simp only [progresses, Bool.and_eq_true] at hp
    simp only [reach] at hf
    have ha := iha negated c hp.1 (by omega) hl
    have hq := ihq negated c hp.2 (by omega) hl
    simp only [outcome, Peg.run, Step.outcome_orElse] at ha hq ⊢
    cases ho : (Peg.run (g.run limit fuel) limit m negated a c).outcome with
    | none => simpa using Matches.right (ho ▸ ha) hq
    | some x => exact .left (ho ▸ ha)
  | opt a iha =>
    have ha := iha negated c hp hf hl
    simp only [outcome, Peg.run, Step.outcome_orElse] at ha ⊢
    cases ho : (Peg.run (g.run limit fuel) limit m negated a c).outcome with
    | none => exact .noOpt (ho ▸ ha)
    | some x => exact .opt (ho ▸ ha)
  | star a iha =>
    simp only [progresses, Bool.and_eq_true, Bool.not_eq_true'] at hp
    simp only [reach] at hf
    have ha := iha negated c hp.2 hf hl
    simp only [outcome, Peg.run, Step.outcome_orElse, Step.outcome_andThen] at ha ⊢
    cases ho : (Peg.run (g.run limit fuel) limit m negated a c).outcome with
    | none => exact .starNone (ho ▸ ha)
    | some x =>
      obtain ⟨ts, d⟩ := x
      rw [ho] at ha
      -- an item that repeats reads something, so the later ones have the fuel that this one had
      have read := ha.shorter b hp.1
      have items : ∀ e : Cursor, e.rest.length ≤ d.rest.length →
          Matches g m a (m.skip e) (g.outcome fuel limit m negated a (m.skip e)) := by
        intro e he
        have skipped := (m.leads_skip e).length_le
        exact iha negated _ hp.2 (by omega) (by omega)
      obtain ⟨us, e, hu, last | ⟨⟨y, more⟩, rest⟩⟩ :=
        iterate_matches b hp.1 limit d (by omega) items
      · obtain ⟨rfl, rfl, none⟩ := last
        simpa [hu] using Matches.starLast ha none
      · simpa [hu] using Matches.starMore ha more rest
  | not a iha =>
    have ha := iha (!negated) c hp hf hl
    simp only [outcome, Peg.run] at ha ⊢
    cases ho : (Peg.run (g.run limit fuel) limit m (!negated) a c).outcome with
    | none => simpa using Matches.not (ho ▸ ha)
    | some x => simpa using Matches.noNot (ho ▸ ha)

/-- A rule runs as it matches if there is fuel for the rules nested in it. -/
theorem rule_matches (b : g.Bounds) {limit : Nat} (fuel : Nat) (m : Mode) (negated : Bool) (r : R)
    (c : Cursor) (hf : 8 * c.rest.length + b.rank r ≤ fuel) (hl : c.rest.length ≤ limit) :
    Matches g m (.rule r) c (g.outcome fuel limit m negated (.rule r) c) := by
  induction fuel generalizing m negated r c with
  | zero =>
    have positive := b.rank_body r
    omega
  | succ fuel ih =>
    have deeper := b.rank_body r
    have body := outcome_matches_of_rules (m := m.enter (g.kind r)) b ih negated (g.body r) c
      (b.progresses r) (by omega) hl
    simp only [outcome, Peg.run, Grammar.run] at body ⊢
    cases ho : (Peg.run (g.run limit fuel) limit (m.enter (g.kind r)) negated (g.body r) c).outcome with
    | none => exact .noRule (ho ▸ body)
    | some x => exact .rule (ho ▸ body)

/-- What a rule makes of a whole text is what it matches at its start. -/
theorem parse_matches (b : g.Bounds) (r : R) (cs : List Char) :
    Matches g .spaced (.rule r) ⟨0, cs⟩ (g.parse r cs).outcome := by
  have small := b.rank_le r
  exact rule_matches b (8 * (cs.length + 1)) .spaced false r ⟨0, cs⟩ (by simp only; omega) (by simp)

theorem parse_eq_of_matches (b : g.Bounds) {r : R} {cs : List Char}
    {o : Option (List (ParseTree R) × Cursor)} (h : Matches g .spaced (.rule r) ⟨0, cs⟩ o) :
    (g.parse r cs).outcome = o :=
  (parse_matches b r cs).unique h

end Grammar

end ImpWasm
