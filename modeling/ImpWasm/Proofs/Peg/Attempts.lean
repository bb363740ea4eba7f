import ImpWasm.Proofs.Peg.Matching
set_option autoImplicit false

/-!
Where a failed run is reported. Every call that a run leaves is made at a place of the text, and wants a match as long
as no rule stands under a negation. What is gathered from such calls is at a place of the text again, none of it is
refused, and it is not empty once a call has failed. Main statement: this holds of every rule that does not match.
-/
namespace ImpWasm

namespace Peg

variable {R : Type}

/-- Every rule in an expression is wanted to match, given whether the expression itself is. -/
def Affirms (negated : Bool) : Peg R → Prop
  | .rule _ => negated = false
  | .seq a b | .alt a b => a.Affirms negated ∧ b.Affirms negated
  | .opt a | .star a => a.Affirms negated
  | .not a => a.Affirms (!negated)
  | .empty | .text _ | .one _ | .endOfInput => True

inductive Call.Within (o : Cursor) : Call R → Prop
  | mk {r : R} {c : Cursor} {thwarted : Bool} {inner : List (Call R)} (place : o.Leads c)
    (inside : ∀ k ∈ inner, Call.Within o k) : Call.Within o (.mk r c.pos false thwarted inner)

theorem Call.Within.of_mem {o : Cursor} {r : R} {pos : Nat} {negated thwarted : Bool} {inner : List (Call R)}
    (h : (Call.mk r pos negated thwarted inner).Within o) : ∀ k ∈ inner, k.Within o := by
  cases h with
  | mk _ inside => exact inside

/-- The end of a match is at a place after `o`. If `wanted`, all calls want a match there, too. -/
structure Step.Within (wanted : Prop) (o : Cursor) (s : Step R) : Prop where
  reached : ∀ x ∈ s.outcome, o.Leads x.2
  calls : wanted → ∀ k ∈ s.calls, k.Within o

namespace Step.Within

variable {o c : Cursor} {s : Step R} {wanted other : Prop}

theorem mono (h : s.Within wanted o) (hw : other → wanted) : s.Within other o :=
  ⟨h.reached, fun w => h.calls (hw w)⟩

theorem failed : ({} : Step R).Within wanted o := ⟨by simp, by simp⟩

theorem matched {ts : List (ParseTree R)} (hc : o.Leads c) : (Step.matched ts c).Within wanted o :=
  ⟨by simpa [Step.matched] using hc, by simp [Step.matched]⟩

theorem andThen {next : Cursor → Step R} (h : s.Within wanted o)
    (hn : ∀ d, o.Leads d → (next d).Within wanted o) : (s.andThen next).Within wanted o := by
  unfold Step.andThen
  split
  · exact h
  · rename_i ts d ho
    have after := hn d (h.reached _ ho)
    refine ⟨fun x hx => ?_, fun w => List.forall_mem_append.2 ⟨h.calls w, after.calls w⟩⟩
    obtain ⟨y, hy, rfl⟩ := Option.map_eq_some_iff.1 hx
    exact after.reached y hy

theorem orElse {next : Unit → Step R} (h : s.Within wanted o) (hn : (next ()).Within wanted o) :
    (s.orElse next).Within wanted o := by
  unfold Step.orElse
  split
  · exact h
  · exact ⟨hn.reached, fun w => List.forall_mem_append.2 ⟨h.calls w, hn.calls w⟩⟩

theorem iterate {item : Cursor → Step R} (hi : ∀ d, o.Leads d → (item d).Within wanted o) (n : Nat)
    (hc : o.Leads c) : (Peg.iterate item n c).Within wanted o := by
  induction n generalizing c with
  | zero => exact matched hc
  | succ n ih => exact ((hi c hc).andThen fun d hd => ih hd).orElse (matched hc)

end Step.Within

/-- An expression keeps to such calls if its rules do. Inside a lexeme none are left. -/
theorem run_within {call : Mode → Bool → R → Cursor → Step R} {limit : Nat} {m : Mode} {o : Cursor}
    (rules : ∀ negated r c, o.Leads c → (call m negated r c).Within (m = .lexeme ∨ negated = false) o)
    (p : Peg R) (negated : Bool) (c : Cursor) (hc : o.Leads c) :
    (run call limit m negated p c).Within (m = .lexeme ∨ p.Affirms negated) o := by
  induction p generalizing negated c with
  | empty => exact .matched hc
  | text w =>
    simp only [run]
    split
    · rename_i d hd
      obtain ⟨text, pos⟩ := Cursor.expect_eq_some_iff.1 hd
      exact .matched (hc.trans ⟨w, text, pos⟩)
    · exact .failed
  | one p =>
    obtain ⟨pos, cs⟩ := c
    cases cs with
    | nil => exact .failed
    | cons x cs =>
      simp only [run]
      split
      · exact .matched (hc.trans (Cursor.leads_cons pos x cs))
      · exact .failed
  | endOfInput =>
    simp only [run]
    split
    · exact .matched hc
    · exact .failed
  | rule r => exact rules negated r c hc
  | seq a b iha ihb =>
    exact ((iha negated c hc).mono (Or.imp_right And.left)).andThen fun d hd =>
      (ihb negated _ (hd.trans (m.leads_skip d))).mono (Or.imp_right And.right)
  | alt a b iha ihb =>
    exact ((iha negated c hc).mono (Or.imp_right And.left)).orElse ((ihb negated c hc).mono (Or.imp_right And.right))
  | opt a ih => exact (ih negated c hc).orElse (.matched hc)
  | star a ih =>
    have items : ∀ d, o.Leads d →
        (run call limit m negated a (m.skip d)).Within (m = .lexeme ∨ a.Affirms negated) o :=
      fun d hd => ih negated _ (hd.trans (m.leads_skip d))
    exact ((ih negated c hc).andThen fun d hd => .iterate items limit hd).orElse (.matched hc)
  | not a ih =>
    refine ⟨fun x hx => ?_, (ih (!negated) c hc).calls⟩
    simp only [run] at hx
    split at hx
    · cases hx
    · cases hx
      exact hc

end Peg

namespace Grammar

open Peg

variable {R : Type} {g : Grammar R}

def Affirms (g : Grammar R) : Prop := ∀ r, g.kind r = .lexeme ∨ (g.body r).Affirms false

theorem run_within (h : g.Affirms) (limit fuel : Nat) (m : Mode) (negated : Bool) (r : R) {o c : Cursor}
    (hc : o.Leads c) : (g.run limit fuel m negated r c).Within (m = .lexeme ∨ negated = false) o := by
  induction fuel generalizing m negated r c with
  | zero => exact .failed
  | succ fuel ih =>
    have body : (Peg.run (g.run limit fuel) limit (m.enter (g.kind r)) negated (g.body r) c).Within
        (m.enter (g.kind r) = .lexeme ∨ (g.body r).Affirms negated) o :=
      Peg.run_within (fun negated r c hc => ih _ negated r hc) (g.body r) negated c hc
    refine ⟨fun x hx => ?_, fun wanted => ?_⟩
    · obtain ⟨y, hy, rfl⟩ := Option.map_eq_some_iff.1 hx
      exact body.reached y hy
    · simp only [Grammar.run]
      split
      · simp
      · rename_i loud
        obtain rfl := wanted.resolve_left loud
        have inside : m.enter (g.kind r) = .lexeme ∨ (g.body r).Affirms false :=
          (h r).imp_left fun lexeme => by rw [lexeme]; rfl
        simpa using Call.Within.mk hc (body.calls inside)

end Grammar

namespace Attempts

variable {R : Type}

/-- Attempts at a place after `o`. Nothing is refused, and nothing was expected before there was a place. -/
structure Sound (o : Cursor) (a : Attempts R) : Prop where
  refused : a.refused = []
  place : ∃ c, o.Leads c ∧ c.pos = a.pos
  filled : a.expected = [] → a.pos = o.pos

variable {a : Attempts R} {o : Cursor}

/-- A failed rule changes nothing if one attempt made inside stands for it or something failed further on. Otherwise it
is expected, after rules expected before. -/
theorem note_cases (a : Attempts R) (r : R) (pos expected refused : Nat) :
    (a.note r pos false expected refused = a ∧ (0 < a.count ∨ pos < a.pos)) ∨
      ∃ before others, a.note r pos false expected refused = ⟨pos, before ++ [r], others⟩ ∧ others ⊆ a.refused := by
  by_cases here : a.pos = pos
  · by_cases one : a.count = expected + refused + 1
    · exact .inl ⟨by simp [note, here, one], .inl (by omega)⟩
    · exact .inr ⟨a.expected.take expected, a.refused.take refused, by simp [note, here, one], List.take_subset _ _⟩
  · by_cases further : pos < a.pos
    · exact .inl ⟨by simp [note, here, further], .inr further⟩
    · exact .inr ⟨[], [], by simp [note, here, further], List.nil_subset _⟩

theorem Sound.note (h : a.Sound o) {c : Cursor} (hc : o.Leads c) (r : R) (expected refused : Nat) :
    (a.note r c.pos false expected refused).Sound o ∧ (a.note r c.pos false expected refused).expected ≠ [] := by
  obtain ⟨same, filled⟩ | ⟨before, others, noted, kept⟩ := a.note_cases r c.pos expected refused
  · rw [same]
    refine ⟨h, fun empty => ?_⟩
    have start := h.filled empty
    have none : a.count = 0 := by simp [count, empty, h.refused]
    obtain ⟨w, -, pos⟩ := hc
    omega
  · rw [noted]
    rw [h.refused] at kept
    exact ⟨⟨List.subset_nil.1 kept, ⟨c, hc, rfl⟩, by simp⟩, by simp⟩

theorem sound_addCalls {ks : List (Peg.Call R)} (each : ∀ k ∈ ks, ∀ b : Attempts R, b.Sound o → (b.addCall k).Sound o)
    (h : a.Sound o) : (a.addCalls ks).Sound o := by
  induction ks generalizing a with
  | nil => exact h
  | cons k ks ih =>
    obtain ⟨first, rest⟩ := List.forall_mem_cons.1 each
    exact ih rest (first a h)

theorem Sound.addCall {k : Peg.Call R} (hk : k.Within o) (h : a.Sound o) : (a.addCall k).Sound o := by
  induction hk generalizing a with
  | mk place _ ih =>
    have inside := sound_addCalls (fun k hk b hb => ih k hk hb) h
    simp only [Attempts.addCall]
    split
    · exact (inside.note place _ _ _).1
    · exact inside

end Attempts

namespace Grammar

open Peg

variable {R : Type} {g : Grammar R} {r : R} {cs : List Char}

theorem calls_of_failed {limit fuel : Nat} {m : Mode} {c : Cursor} (hm : m ≠ .lexeme)
    (failed : (g.run limit (fuel + 1) m false r c).outcome = none) :
    ∃ inner, (g.run limit (fuel + 1) m false r c).calls = [.mk r c.pos false true inner] := by
  simp only [Grammar.run, Option.map_eq_none_iff] at failed
  simp only [Grammar.run, failed, if_neg hm]
  exact ⟨_, rfl⟩

/-- A rule that does not match a whole text fails at a place of the text and expects something there. -/
theorem sound_attempts (h : g.Affirms) (failed : (g.parse r cs).outcome = none) :
    (({} : Attempts R).addCalls (g.parse r cs).calls).Sound ⟨0, cs⟩ ∧
      (({} : Attempts R).addCalls (g.parse r cs).calls).expected ≠ [] := by
  have start : ({} : Attempts R).Sound ⟨0, cs⟩ := ⟨rfl, ⟨_, .refl _, rfl⟩, fun _ => rfl⟩
  have within : ∀ k ∈ (g.parse r cs).calls, k.Within ⟨0, cs⟩ :=
    (run_within h _ _ .spaced false r (.refl ⟨0, cs⟩)).calls (.inr rfl)
  obtain ⟨inner, calls⟩ : ∃ inner, (g.parse r cs).calls = [.mk r 0 false true inner] :=
    calls_of_failed (by decide) failed
  rw [calls] at within ⊢
  have inside := (within _ (List.mem_singleton_self _)).of_mem
  have before := Attempts.sound_addCalls (fun k hk b hb => hb.addCall (inside k hk)) start
  exact before.note (.refl ⟨0, cs⟩) r _ _

end Grammar

end ImpWasm
