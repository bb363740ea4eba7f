import ImpWasm.Proofs.Wasm.Decoding
set_option autoImplicit false

namespace ImpWasm.Wasm

def Instr.isPlain : Instr → Bool
  | .block _ | .loop _ | .if_ _ | .else_ | .end_ => false
  | _ => true

inductive Code where
  | done
  | plain (i : Instr) (isPlain : i.isPlain = true) (rest : Code)
  | block (t : BlockType) (body rest : Code)
  | loop (t : BlockType) (body rest : Code)
  | ifThen (t : BlockType) (yes rest : Code)
  | ifElse (t : BlockType) (yes no rest : Code)
  deriving DecidableEq, Repr

namespace Code

def instrs : Code → List Instr
  | .done => []
  | .plain i _ rest => i :: rest.instrs
  | .block t body rest => .block t :: (body.instrs ++ .end_ :: rest.instrs)
  | .loop t body rest => .loop t :: (body.instrs ++ .end_ :: rest.instrs)
  | .ifThen t yes rest => .if_ t :: (yes.instrs ++ .end_ :: rest.instrs)
  | .ifElse t yes no rest => .if_ t :: (yes.instrs ++ .else_ :: (no.instrs ++ .end_ :: rest.instrs))

def append : Code → Code → Code
  | .done, d => d
  | .plain i h rest, d => .plain i h (rest.append d)
  | .block t body rest, d => .block t body (rest.append d)
  | .loop t body rest, d => .loop t body (rest.append d)
  | .ifThen t yes rest, d => .ifThen t yes (rest.append d)
  | .ifElse t yes no rest, d => .ifElse t yes no (rest.append d)

@[simp] theorem instrs_append (c d : Code) : (c.append d).instrs = c.instrs ++ d.instrs := by
  induction c with
  | done => rfl
  | plain i h rest ih => simp [append, instrs, ih]
  | block t body rest _ ih => simp [append, instrs, ih]
  | loop t body rest _ ih => simp [append, instrs, ih]
  | ifThen t yes rest _ ih => simp [append, instrs, ih]
  | ifElse t yes no rest _ _ ih => simp [append, instrs, ih]

@[simp] theorem append_done (c : Code) : c.append .done = c := by
  induction c with
  | done => rfl
  | plain i h rest ih => simp [append, ih]
  | block t body rest _ ih => simp [append, ih]
  | loop t body rest _ ih => simp [append, ih]
  | ifThen t yes rest _ ih => simp [append, ih]
  | ifElse t yes no rest _ _ ih => simp [append, ih]

end Code

/-- A block whose end has been seen, read from there towards its start: the code so far, and the
code after its `else` once that has been passed. -/
structure Pending where
  code : Code := .done
  other : Option Code := none
  deriving DecidableEq, Repr

namespace Pending

/-- Takes a bracket of the nesting in front of the blocks that are open, the innermost first. -/
def bracket : Instr → List Pending → Option (List Pending)
  | .end_, ps => some ({} :: ps)
  | .else_, ⟨c, none⟩ :: ps => some (⟨.done, some c⟩ :: ps)
  | .block t, ⟨body, none⟩ :: p :: ps => some ({ p with code := .block t body p.code } :: ps)
  | .loop t, ⟨body, none⟩ :: p :: ps => some ({ p with code := .loop t body p.code } :: ps)
  | .if_ t, ⟨yes, none⟩ :: p :: ps => some ({ p with code := .ifThen t yes p.code } :: ps)
  | .if_ t, ⟨yes, some no⟩ :: p :: ps => some ({ p with code := .ifElse t yes no p.code } :: ps)
  | _, _ => none

def step (i : Instr) (ps : List Pending) : Option (List Pending) :=
  if h : i.isPlain = true then
    match ps with
    | p :: ps => some ({ p with code := .plain i h p.code } :: ps)
    | [] => none
  else bracket i ps

def ofInstrs : List Instr → Option (List Pending)
  | [] => some []
  | i :: is => (ofInstrs is).bind (step i)

def instrs (p : Pending) : List Instr :=
  match p.other with
  | none => p.code.instrs ++ [.end_]
  | some no => p.code.instrs ++ .else_ :: (no.instrs ++ [.end_])

theorem instrs_of_bracket {i : Instr} {ps qs : List Pending} (h : bracket i ps = some qs) :
    qs.flatMap instrs = i :: ps.flatMap instrs := by
  revert h
  fun_cases bracket i ps with
  | case1 ps => rintro ⟨⟩; rfl
  | case2 c ps => rintro ⟨⟩; simp [instrs, Code.instrs]
  | case3 t body p ps => rintro ⟨⟩; cases hp : p.other <;> simp [instrs, Code.instrs, hp]
  | case4 t body p ps => rintro ⟨⟩; cases hp : p.other <;> simp [instrs, Code.instrs, hp]
  | case5 t yes p ps => rintro ⟨⟩; cases hp : p.other <;> simp [instrs, Code.instrs, hp]
  | case6 t yes no p ps => rintro ⟨⟩; cases hp : p.other <;> simp [instrs, Code.instrs, hp]
  | case7 => simp

theorem instrs_of_step {i : Instr} {ps qs : List Pending} (h : step i ps = some qs) :
    qs.flatMap instrs = i :: ps.flatMap instrs := by
  unfold step at h
  split at h
  · cases ps with
    | nil => simp at h
    | cons p ps =>
      simp only [Option.some.injEq] at h
      subst h
      cases hp : p.other <;> simp [instrs, Code.instrs, hp]
  · exact instrs_of_bracket h

theorem instrs_of_ofInstrs {is : List Instr} {ps : List Pending} (h : ofInstrs is = some ps) :
    is = ps.flatMap instrs := by
  induction is generalizing ps with
  | nil => simp_all [ofInstrs]
  | cons i is ih =>
    obtain ⟨qs, hq, hs⟩ := Option.bind_eq_some_iff.1 h
    rw [instrs_of_step hs, ih hq]

theorem ofInstrs_end {is : List Instr} {ps : List Pending} (h : ofInstrs is = some ps) :
    ofInstrs (.end_ :: is) = some ({} :: ps) := by
  simp [ofInstrs, h, step, Instr.isPlain, bracket]

theorem ofInstrs_else {is : List Instr} {c : Code} {ps : List Pending}
    (h : ofInstrs is = some (⟨c, none⟩ :: ps)) :
    ofInstrs (.else_ :: is) = some (⟨.done, some c⟩ :: ps) := by
  simp [ofInstrs, h, step, Instr.isPlain, bracket]

/-- Whole code in front of what has been read goes in front of the innermost block. -/
theorem ofInstrs_append (c : Code) {is : List Instr} {p : Pending} {ps : List Pending}
    (h : ofInstrs is = some (p :: ps)) :
    ofInstrs (c.instrs ++ is) = some ({ p with code := c.append p.code } :: ps) := by
  induction c generalizing is p ps with
  | done => simpa [Code.instrs, Code.append] using h
  | plain i hi rest ih => simp [Code.instrs, Code.append, ofInstrs, ih h, step, hi]
  | block t body rest ihb ih =>
    have he := ofInstrs_end (ih h)
    simp [Code.instrs, Code.append, ofInstrs, ihb he, step, Instr.isPlain, bracket]
  | loop t body rest ihb ih =>
    have he := ofInstrs_end (ih h)
    simp [Code.instrs, Code.append, ofInstrs, ihb he, step, Instr.isPlain, bracket]
  | ifThen t yes rest ihy ih =>
    have he := ofInstrs_end (ih h)
    simp [Code.instrs, Code.append, ofInstrs, ihy he, step, Instr.isPlain, bracket]
  | ifElse t yes no rest ihy ihn ih =>
    have he := ofInstrs_end (ih h)
    have hn := ofInstrs_else (ihn he)
    simp [Code.instrs, Code.append, ofInstrs, ihy hn, step, Instr.isPlain, bracket]

end Pending

namespace Code

def ofInstrs? (is : List Instr) : Option Code :=
  match Pending.ofInstrs is with
  | some [⟨c, none⟩] => some c
  | _ => none

theorem ofInstrs?_eq_some_iff {is : List Instr} {c : Code} :
    ofInstrs? is = some c ↔ is = c.instrs ++ [.end_] := by
  constructor
  · intro h
    unfold ofInstrs? at h
    split at h
    · rename_i hp
      cases h
      simpa [Pending.instrs] using Pending.instrs_of_ofInstrs hp
    · cases h
  · rintro rfl
    have he : Pending.ofInstrs [.end_] = some [{}] := Pending.ofInstrs_end rfl
    simp [ofInstrs?, Pending.ofInstrs_append c he]

def ofBytes? (bytes : Bytes) : Option Code := (Listing.ofBytes 0 bytes).instrs?.bind ofInstrs?

theorem ofBytes?_eq_some_iff {bytes : Bytes} {c : Code} :
    ofBytes? bytes = some c ↔ Decodes bytes (c.instrs ++ [.end_]) := by
  simp only [ofBytes?, Option.bind_eq_some_iff, ofInstrs?_eq_some_iff, decodes_iff_instrs? 0]
  constructor
  · rintro ⟨is, h, rfl⟩
    exact h
  · intro h
    exact ⟨_, h, rfl⟩

end Code

end ImpWasm.Wasm
