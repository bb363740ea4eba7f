import ImpWasm.Proofs.Wasm.Validation
set_option autoImplicit false

namespace ImpWasm.Wasm

/-- An instruction at the head of the code is the first one of its listing; the listing goes on behind it. -/
theorem Listing.ofBytes_encode (i : Instr) (offset : Nat) (rest : Bytes) :
    ofBytes offset (i.encode ++ rest) = .instr offset i (ofBytes (offset + i.encode.length) rest) := by
  have head : Instr.read offset i.opcode.byte (i.immediate ++ rest) = .ok (i, i.immediate.length) :=
    Instr.read_form i.immediateForm_immediate offset rest
  have width : offset + i.encode.length = offset + 1 + i.immediate.length := by
    simp only [Instr.encode, List.length_cons]; omega
  rw [width, Instr.encode, List.cons_append, ofBytes, head]
  simp

theorem Check.listing_of_steps? {ctx : Context} {l : Listing} {xs : List (Nat × Instr)} (h : l.steps? = some xs) :
    listing ctx l = (do steps ctx xs; listing ctx .done) := by
  induction l generalizing xs with
  | done =>
    obtain rfl := Option.some.inj h
    simp [steps]
  | broken offset cause => cases h
  | instr offset i rest ih =>
    obtain ⟨ys, hys, rfl⟩ := Option.map_eq_some_iff.1 h
    simp [listing, steps, ih hys]

namespace Body

variable (b : Body) (is : List Instr)

/-- Where instructions go that are written to a body in this order: each to the end of the code there is by then. -/
def places (b : Body) : List Instr → List (Nat × Instr)
  | [] => []
  | i :: is => (b.code.length, i) :: (b.emit i).places is

theorem code_foldl_emit : (is.foldl emit b).code = b.code ++ Instr.encodeAll is := by
  induction is generalizing b with
  | nil => simp [Instr.encodeAll]
  | cons i is ih => simp [ih, emit, Instr.encodeAll]

theorem steps?_encodeAll :
    (Listing.ofBytes b.code.length (Instr.encodeAll is)).steps? = some (b.places is) := by
  induction is generalizing b with
  | nil => simp [Instr.encodeAll, Listing.ofBytes, Listing.steps?, places]
  | cons i is ih =>
    have next : b.code.length + i.encode.length = (b.emit i).code.length := by simp [emit]
    rw [Instr.encodeAll, List.flatMap_cons, Listing.ofBytes_encode, next, Listing.steps?, ← Instr.encodeAll, ih]
    rfl

theorem map_snd_places : (b.places is).map Prod.snd = is := by
  induction is generalizing b with
  | nil => rfl
  | cons i is ih => simp [places, ih]

/-- Instructions that are written to an empty body are read back from its code: the places that reading goes through
are those they were written to, in that order, with the same instruction at each. The validator checks them there
one by one, and no other instructions give the same code. -/
theorem emitted_read_back (locals : List ValType) :
    let b := is.foldl emit { locals }
    (Listing.ofBytes 0 b.code).steps? = some (places { locals } is) ∧
      (∀ ctx, Check.code ctx b.code =
        (do Check.steps ctx (places { locals } is); Check.listing ctx .done)) ∧
      ∀ (locals' : List ValType) (js : List Instr),
        (js.foldl emit { locals := locals' }).code = b.code ↔ js = is := by
  intro b
  have read (locals : List ValType) (is : List Instr) :
      (Listing.ofBytes 0 (is.foldl emit { locals }).code).steps? = some (places { locals } is) := by
    rw [code_foldl_emit]
    exact steps?_encodeAll { locals } is
  refine ⟨read locals is, fun ctx => Check.listing_of_steps? (read locals is), fun locals' js => ?_⟩
  constructor
  · intro same
    have places_eq : some (places { locals := locals' } js) = some (places { locals } is) := by
      rw [← read, ← read, same]
    have instrs := congrArg (List.map Prod.snd) (Option.some.inj places_eq)
    rwa [map_snd_places, map_snd_places] at instrs
  · rintro rfl
    simp only [b, code_foldl_emit]

end Body

end ImpWasm.Wasm
