import ImpWasm.Diagnostic
set_option autoImplicit false

/-!
Parsing expressions: ordered choice, greedy repetition, backtracking. Between the parts of a sequence
and the items of a repetition a spaced rule skips blanks and line comments. A run yields the trees of
the rules that matched and the calls it made on the way; from the calls of a failed run follow the
position to report and the rules expected there.
-/
namespace ImpWasm

/-- What is left of the input, and the byte offset where it begins. -/
structure Cursor where
  pos : Nat
  rest : List Char
  deriving DecidableEq, Repr

def utf8Length : List Char → Nat
  | [] => 0
  | c :: cs => c.utf8Size + utf8Length cs

def takeBytes : Nat → List Char → List Char
  | _, [] => []
  | n, c :: cs => if c.utf8Size ≤ n then c :: takeBytes (n - c.utf8Size) cs else []

theorem takeBytes_utf8Length (w cs : List Char) : takeBytes (utf8Length w) (w ++ cs) = w := by
  induction w with
  | nil =>
    cases cs with
    | nil => rfl
    | cons c cs =>
      have hc : ¬ c.utf8Size ≤ 0 := by have := Char.utf8Size_pos c; omega
      simp [utf8Length, takeBytes, hc]
  | cons c w ih =>
    simp [utf8Length, takeBytes, ih]

namespace Cursor

def isBlank (c : Char) : Bool := c == ' ' || c == '\t' || c == '\r' || c == '\n'

def skipFrom (inComment : Bool) (pos : Nat) : List Char → Cursor
  | [] => ⟨pos, []⟩
  | c :: cs =>
    if inComment then skipFrom (c != '\n') (pos + c.utf8Size) cs
    else if isBlank c then skipFrom false (pos + c.utf8Size) cs
    else
      match c, cs with
      | '/', '/' :: ds => skipFrom true (pos + 2) ds
      | _, _ => ⟨pos, c :: cs⟩

def skip (c : Cursor) : Cursor := skipFrom false c.pos c.rest

def expect (pos : Nat) : List Char → List Char → Option Cursor
  | [], cs => some ⟨pos, cs⟩
  | w :: ws, c :: cs => if w = c then expect (pos + c.utf8Size) ws cs else none
  | _ :: _, [] => none

end Cursor

inductive Peg (R : Type) where
  | empty
  | text (w : List Char)
  | one (p : Char → Bool)
  | endOfInput
  | rule (r : R)
  | seq (a b : Peg R)
  | alt (a b : Peg R)
  | opt (a : Peg R)
  | star (a : Peg R)
  | not (a : Peg R)

namespace Peg

variable {R : Type}

def seqs : List (Peg R) → Peg R
  | [] => .empty
  | [p] => p
  | p :: q :: ps => .seq p (seqs (q :: ps))

def alts : List (Peg R) → Peg R
  | [] => .not .empty
  | [p] => p
  | p :: q :: ps => .alt p (alts (q :: ps))

/-- A plain rule skips as its caller does. A token's parts are not skipped between, and a lexeme
also keeps what it is made of to itself. -/
inductive Kind where
  | plain | token | lexeme
  deriving DecidableEq, Repr

inductive Mode where
  | spaced | token | lexeme
  deriving DecidableEq, Repr

def Mode.enter (m : Mode) : Kind → Mode
  | .plain => m
  | .token => .token
  | .lexeme => .lexeme

inductive ParseTree (R : Type) where
  | leaf (rule : R) (span : Span) (text : List Char)
  | branch (rule : R) (span : Span) (children : List (ParseTree R))
  deriving Repr

def ParseTree.span : ParseTree R → Span
  | .leaf _ s _ | .branch _ s _ => s

def ParseTree.rule : ParseTree R → R
  | .leaf r _ _ | .branch r _ _ => r

/-- A rule tried at a position, the rules tried inside it, and whether it went against what was
wanted: it failed, or it matched where it must not. -/
inductive Call (R : Type) where
  | mk (rule : R) (pos : Nat) (negated : Bool) (thwarted : Bool) (inner : List (Call R))
  deriving Repr

structure Step (R : Type) where
  calls : List (Call R) := []
  outcome : Option (List (ParseTree R) × Cursor) := none

def Step.matched (trees : List (ParseTree R)) (c : Cursor) : Step R := { outcome := some (trees, c) }

def Step.andThen (s : Step R) (next : Cursor → Step R) : Step R :=
  match s.outcome with
  | none => s
  | some (trees, c) =>
    let t := next c
    { calls := s.calls ++ t.calls
      outcome := t.outcome.map fun (more, c) => (trees ++ more, c) }

def Step.orElse (s : Step R) (other : Unit → Step R) : Step R :=
  match s.outcome with
  | some _ => s
  | none =>
    let t := other ()
    { calls := s.calls ++ t.calls, outcome := t.outcome }

def iterate (item : Cursor → Step R) : Nat → Cursor → Step R
  | 0, c => .matched [] c
  | n+1, c => ((item c).andThen (iterate item n)).orElse fun _ => .matched [] c

def Mode.skip : Mode → Cursor → Cursor
  | .spaced, c => c.skip
  | _, c => c

/-- Runs an expression. `call` runs a rule, and `limit` bounds the repetitions. -/
def run (call : Mode → Bool → R → Cursor → Step R) (limit : Nat) (mode : Mode) (negated : Bool) :
    Peg R → Cursor → Step R
  | .empty, c => .matched [] c
  | .text w, c =>
    match Cursor.expect c.pos w c.rest with
    | some c => .matched [] c
    | none => {}
  | .one p, c =>
    match c.rest with
    | x :: rest => if p x then .matched [] ⟨c.pos + x.utf8Size, rest⟩ else {}
    | [] => {}
  | .endOfInput, c => if c.rest.isEmpty then .matched [] c else {}
  | .rule r, c => call mode negated r c
  | .seq a b, c =>
    (run call limit mode negated a c).andThen fun c => run call limit mode negated b (mode.skip c)
  | .alt a b, c => (run call limit mode negated a c).orElse fun _ => run call limit mode negated b c
  | .opt a, c => (run call limit mode negated a c).orElse fun _ => .matched [] c
  | .star a, c =>
    ((run call limit mode negated a c).andThen
      (iterate (fun c => run call limit mode negated a (mode.skip c)) limit)).orElse
      fun _ => .matched [] c
  | .not a, c =>
    let s := run call limit mode (!negated) a c
    { calls := s.calls, outcome := if s.outcome.isSome then none else some ([], c) }

end Peg

structure Grammar (R : Type) where
  body : R → Peg R
  kind : R → Peg.Kind

namespace Grammar

open Peg

variable {R : Type}

/-- The tree of a rule that matched from `c` to `d`. -/
def tree (g : Grammar R) (r : R) (c d : Cursor) (children : List (ParseTree R)) : ParseTree R :=
  match g.kind r with
  | .lexeme => .leaf r ⟨c.pos, d.pos⟩ (takeBytes (d.pos - c.pos) c.rest)
  | _ => .branch r ⟨c.pos, d.pos⟩ children

/-- Runs a rule, with at most `fuel` rules nested inside it. Inside a lexeme a rule leaves neither
tree nor call. -/
def run (g : Grammar R) (limit : Nat) : Nat → Mode → Bool → R → Cursor → Step R
  | 0, _, _, _, _ => {}
  | fuel+1, mode, negated, r, c =>
    let s := Peg.run (g.run limit fuel) limit (mode.enter (g.kind r)) negated (g.body r) c
    let thwarted := s.outcome.isSome == negated
    { calls := if mode = .lexeme then [] else [.mk r c.pos negated thwarted s.calls]
      outcome := s.outcome.map fun (trees, d) =>
        (if mode = .lexeme then [] else [g.tree r c d trees], d) }

/-- Runs a rule on a whole text. Eight rules at most are nested without a character being read, and
every repetition reads one. -/
def parse (g : Grammar R) (r : R) (cs : List Char) : Step R :=
  let n := cs.length + 1
  g.run n (8 * n) .spaced false r ⟨0, cs⟩

end Grammar

/-- The furthest position where a rule was thwarted, with the rules that failed there and those that
matched there against what was wanted. -/
structure Attempts (R : Type) where
  pos : Nat := 0
  expected : List R := []
  refused : List R := []
  deriving DecidableEq, Repr

namespace Attempts

variable {R : Type}

def count (a : Attempts R) : Nat := a.expected.length + a.refused.length

/-- Adds a thwarted rule. If exactly one was added inside it, at the same place, that one stands for
it; otherwise it takes the place of those inside it. -/
def note (a : Attempts R) (r : R) (pos : Nat) (negated : Bool) (expected refused : Nat) : Attempts R :=
  let seen := if a.pos = pos then a.count else 0
  if seen = expected + refused + 1 then a
  else if pos < a.pos then a
  else
    let a : Attempts R :=
      if a.pos = pos then ⟨pos, a.expected.take expected, a.refused.take refused⟩ else ⟨pos, [], []⟩
    if negated then { a with refused := a.refused ++ [r] } else { a with expected := a.expected ++ [r] }

mutual

def addCall (a : Attempts R) : Peg.Call R → Attempts R
  | .mk r pos negated thwarted inner =>
    let expected := if a.pos = pos then a.expected.length else 0
    let refused := if a.pos = pos then a.refused.length else 0
    let b := a.addCalls inner
    if thwarted then b.note r pos negated expected refused else b

def addCalls (a : Attempts R) : List (Peg.Call R) → Attempts R
  | [] => a
  | c :: cs => (a.addCall c).addCalls cs

end

end Attempts

end ImpWasm
