import ImpWasm.Cli.Memory
import ImpWasm.Cli.Run
import ImpWasm.Proofs.Cli.Places
set_option autoImplicit false

namespace ImpWasm.Cli

section Leading

variable {R : Memory → Memory → Prop} {α β : Type}

/-- Whatever happens, an operation leaves the memory so. -/
def Leads (R : Memory → Memory → Prop) (x : StateM Memory α) : Prop := ∀ d, R d (x d).2

theorem Leads.pure (hrefl : ∀ d, R d d) (a : α) : Leads R (pure a : StateM Memory α) := fun d => hrefl d

theorem Leads.bind (htrans : ∀ {d e f}, R d e → R e f → R d f) {x : StateM Memory α} {k : α → StateM Memory β}
    (hx : Leads R x) (hk : ∀ a, Leads R (k a)) : Leads R (x >>= k) := fun d =>
  htrans (hx d) (hk (x d).1 (x d).2)

def Gives (P : α → Prop) (x : StateM Memory α) : Prop := ∀ d, P (x d).1

theorem Gives.bind {P : β → Prop} {Q : α → Prop} {x : StateM Memory α} {k : α → StateM Memory β} (hx : Gives Q x)
    (hk : ∀ a, Q a → Gives P (k a)) : Gives P (x >>= k) := fun d => hk _ (hx d) _

end Leading

/-- There may be more directories, and nothing else is new. -/
def Memory.Grown (d e : Memory) : Prop := ∃ folder, d.folder.Within folder ∧ e = { d with folder }

namespace Memory

def complained (d : Memory) (diagnostic : Diagnostic) : Memory :=
  { d with complaints := d.complaints ++ [diagnostic] }

def put (d : Memory) (p : Place) (bytes : Wasm.Bytes) : Memory :=
  { d with files := (p, bytes) :: d.files.filter (·.1 != p) }

variable {d e f : Memory} {path : String} {bytes : Wasm.Bytes}

theorem Grown.refl (d : Memory) : d.Grown d := ⟨d.folder, .refl _, rfl⟩

theorem Grown.trans (h : d.Grown e) (h' : e.Grown f) : d.Grown f := by
  obtain ⟨folder, hw, rfl⟩ := h
  obtain ⟨folder', hw', rfl⟩ := h'
  exact ⟨folder', hw.trans hw', rfl⟩

theorem grown_of_makeDirectory (h : d.makeDirectory path = some e) : d.Grown e := by
  unfold makeDirectory at h
  split at h
  · cases h
  · split at h
    · cases h
    · cases h
      exact ⟨_, Folder.within_add _ _, rfl⟩

theorem write_eq_some (h : d.write path bytes = some e) :
    ∃ p, d.spot? path = some ⟨p, none⟩ ∧ e = d.put p bytes := by
  unfold write at h
  split at h
  · cases h
  · rename_i p folder hspot
    split at h
    · cases h
    · rename_i hfree
      cases h
      cases folder with
      | none => exact ⟨p, hspot, rfl⟩
      | some f => simp at hfree

end Memory

theorem makeMissing_grown (paths : List String) : Leads Memory.Grown (memoryHost.makeMissing paths) := by
  have make : ∀ path, Leads Memory.Grown (memoryHost.makeDirectory path) := by
    intro path d
    change Memory.Grown d (settle (·.makeDirectory path) d).2
    unfold settle
    split
    · rename_i e h
      exact Memory.grown_of_makeDirectory h
    · exact .refl d
  induction paths with
  | nil => exact .pure Memory.Grown.refl true
  | cons path paths ih =>
    have rest : ∀ ready : Bool, Leads Memory.Grown (if ready then memoryHost.makeMissing paths else pure false) := by
      rintro (_ | _)
      · exact .pure Memory.Grown.refl false
      · exact ih
    refine .bind .trans (fun d => .refl d) fun there => ?_
    cases there with
    | true => exact rest true
    | false => exact .bind .trans (make path) rest

theorem makeDirectories_grown (path : String) : Leads Memory.Grown (memoryHost.makeDirectories path) :=
  makeMissing_grown _

section Finding

variable {d : Memory} {path : String} {found paths : List String}

theorem mem_insertName {name n : String} {names : List String} :
    n ∈ insertName name names ↔ n = name ∨ n ∈ names := by
  induction names with
  | nil => simp [insertName]
  | cons m names ih =>
    rw [insertName]
    split
    · rw [List.mem_cons, ih, List.mem_cons, or_left_comm]
    · rw [List.mem_cons]

theorem mem_sortNames {n : String} {names : List String} : n ∈ sortNames names ↔ n ∈ names := by
  induction names with
  | nil => rfl
  | cons name names ih => rw [sortNames, List.foldr_cons, mem_insertName, List.mem_cons, ← sortNames, ih]

inductive Stands (path : String) : List String → Prop
  | itself (h : isInput path = true ∨ isSource path = true) : Stands path [path]
  | directory {names : List String} (hinput : isInput path = false) (h : ∀ n ∈ names, isSource n = true) :
      Stands path (names.map (Path.join path))

theorem expand_keeps (path : String) : Leads (fun d e => e = d) (memoryHost.expand path) := by
  unfold Host.expand
  cases isInput path with
  | true => exact fun _ => rfl
  | false =>
    refine .bind (fun h h' => h'.trans h) (fun _ => rfl) fun there => ?_
    cases there with
    | true =>
      refine .bind (fun h h' => h'.trans h) (fun _ => rfl) fun names => ?_
      cases names <;> exact fun _ => rfl
    | false =>
      refine .bind (fun h h' => h'.trans h) (fun _ => rfl) fun there => ?_
      cases there with
      | false => exact fun _ => rfl
      | true => cases isSource path <;> exact fun _ => rfl

theorem expand_stands (path : String) :
    Gives (fun r => ∀ found, r = .ok found → Stands path found) (memoryHost.expand path) := by
  have done {r : Except ExpandError (List String)} (h : ∀ found, r = .ok found → Stands path found) :
      Gives (fun r => ∀ found, r = .ok found → Stands path found) (pure r) := fun _ => h
  unfold Host.expand
  cases hinput : isInput path with
  | true =>
    refine done ?_
    rintro _ ⟨⟩
    exact .itself (.inl hinput)
  | false =>
    refine Gives.bind (Q := fun _ => True) (fun _ => trivial) fun there _ => ?_
    cases there with
    | true =>
      refine Gives.bind (Q := fun _ => True) (fun _ => trivial) fun names _ => ?_
      cases names with
      | none => exact done (by rintro _ ⟨⟩)
      | some names =>
        refine done ?_
        rintro _ ⟨⟩
        exact .directory hinput fun n hn => (List.mem_filter.1 (mem_sortNames.1 hn)).2
    | false =>
      refine Gives.bind (Q := fun _ => True) (fun _ => trivial) fun there _ => ?_
      cases there with
      | false => exact done (by rintro _ ⟨⟩)
      | true =>
        cases hsource : isSource path with
        | false => exact done (by rintro _ ⟨⟩)
        | true =>
          refine done ?_
          rintro _ ⟨⟩
          exact .itself (.inr hsource)

theorem expandAll_keeps (paths : List String) : Leads (fun d e => e = d) (memoryHost.expandAll paths) := by
  induction paths with
  | nil => exact fun _ => rfl
  | cons path paths ih =>
    refine .bind (fun h h' => h'.trans h) (expand_keeps path) fun found => ?_
    cases found with
    | error e => exact fun _ => rfl
    | ok found =>
      refine .bind (fun h h' => h'.trans h) ih fun more => ?_
      cases more <;> exact fun _ => rfl

/-- What is found are sources, and standard input as often as it is asked for. -/
structure Sources (paths found : List String) : Prop where
  inputs : found.filter isInput = paths.filter isInput
  endings : ∀ path ∈ found, isInput path = true ∨ ∃ stem, Path.EndsIn (stem ++ ".ref".toList) path.toList

theorem isInput_of_endsIn {stem : List Char} (h : Path.EndsIn (stem ++ ".ref".toList) path.toList) :
    isInput path = false := by
  refine Bool.eq_false_iff.2 fun hinput => ?_
  rw [beq_iff_eq.1 hinput] at h
  obtain ⟨-, above, voids, hsegments, -⟩ := h
  have hs : stem ++ ".ref".toList ∈ [['-']] := by
    rw [show [['-']] = above ++ (stem ++ ".ref".toList) :: voids from hsegments]
    simp
  simpa using congrArg List.length (List.mem_singleton.1 hs)

theorem Stands.sources (h : Stands path found) : Sources [path] found := by
  cases h with
  | itself h =>
    refine ⟨rfl, fun p hp => ?_⟩
    rw [List.mem_singleton.1 hp]
    exact h.imp_right endsIn_of_isSource
  | @directory names hinput h =>
    have ends : ∀ p ∈ names.map (Path.join path), ∃ stem, Path.EndsIn (stem ++ ".ref".toList) p.toList := by
      intro p hp
      obtain ⟨n, hn, rfl⟩ := List.mem_map.1 hp
      obtain ⟨stem, hs⟩ := endsIn_of_isSource (h n hn)
      exact ⟨stem, hs.join path⟩
    refine ⟨?_, fun p hp => .inr (ends p hp)⟩
    rw [List.filter_eq_nil_iff.2, List.filter_eq_nil_iff.2]
    · simp [hinput]
    · intro p hp
      obtain ⟨stem, hs⟩ := ends p hp
      simp [isInput_of_endsIn hs]

theorem expandAll_sources (paths : List String) :
    Gives (fun r => ∀ found, r = .ok found → Sources paths found) (memoryHost.expandAll paths) := by
  induction paths with
  | nil =>
    rintro d _ ⟨⟩
    exact ⟨rfl, by simp⟩
  | cons path paths ih =>
    refine Gives.bind (expand_stands path) fun found hfound => ?_
    cases found with
    | error e => exact fun _ _ h => by cases h
    | ok found =>
      refine Gives.bind ih fun more hmore => ?_
      cases more with
      | error e => exact fun _ _ h => by cases h
      | ok more =>
        rintro d _ ⟨⟩
        have first := (hfound found rfl).sources
        have rest := hmore more rfl
        refine ⟨?_, fun p hp => ?_⟩
        · rw [List.filter_append, first.inputs, rest.inputs, ← List.filter_append]
          rfl
        · exact (List.mem_append.1 hp).elim (first.endings p) (rest.endings p)

end Finding

namespace Memory

def unit? (d : Memory) (path : String) : Option SourceUnit := (memoryHost.load path d).1

def loaded (d : Memory) (path : String) : Memory := (memoryHost.load path d).2

theorem loaded_input {path : String} (h : isInput path = true) (d : Memory) :
    d.loaded path = { d with input := [] } := by
  unfold loaded Host.load
  rw [h]
  rfl

theorem loaded_file {path : String} (h : isInput path = false) (d : Memory) : d.loaded path = d := by
  unfold loaded Host.load
  rw [h]
  rfl

theorem unit?_input {path : String} (h : isInput path = true) (d : Memory) :
    d.unit? path = (textOf d.input).map fun source => ⟨none, "<stdin>", source⟩ := by
  unfold unit? Host.load
  rw [h]
  rfl

theorem unit?_file {path : String} (h : isInput path = false) (d : Memory) :
    d.unit? path = ((d.read? path).bind textOf).map fun source => ⟨some path, path, source⟩ := by
  unfold unit? Host.load
  rw [h]
  rfl

theorem file?_put (d : Memory) (p q : Place) (bytes : Wasm.Bytes) :
    (d.put p bytes).file? q = if q == p then some bytes else d.file? q :=
  lookup_put p bytes d.files q

end Memory

section Delivering

variable {s : Memory} {dir : Option String} {out : String} {bytes : Wasm.Bytes}

theorem deliver_file_eq (dir : Option String) (out : String) (bytes : Wasm.Bytes) (s : Memory) :
    ∃ (ready : Bool) (t : Memory), s.Grown t ∧ deliver memoryHost (.file dir out bytes) s =
      match if ready then t.write out bytes else none with
      | some e => (true, e)
      | none => (false, t.complained { message := "Cannot write " ++ out }) := by
  have rest (ready : Bool) (t : Memory) :
      (do
        let written ← if ready then memoryHost.writeFile out bytes else pure false
        if !written then memoryHost.complain { message := "Cannot write " ++ out }
        return written : StateM Memory Bool) t =
      match if ready then t.write out bytes else none with
      | some e => (true, e)
      | none => (false, t.complained { message := "Cannot write " ++ out }) := by
    cases ready with
    | false => rfl
    | true =>
      cases hwrite : t.write out bytes with
      | none =>
        have hput : memoryHost.writeFile out bytes t = (false, t) := by simp [memoryHost, settle, hwrite]
        simp only [if_true, bind, StateT.bind, hput]
        rfl
      | some e =>
        have hput : memoryHost.writeFile out bytes t = (true, e) := by simp [memoryHost, settle, hwrite]
        simp only [if_true, bind, StateT.bind, hput]
        rfl
  cases dir with
  | none => exact ⟨true, s, .refl s, rest true s⟩
  | some dir =>
    exact ⟨(memoryHost.makeDirectories dir s).1, (memoryHost.makeDirectories dir s).2, makeDirectories_grown dir s,
      rest _ _⟩

/-- A file that is delivered is put where its path leads, once there are directories enough. -/
theorem deliver_file (h : (deliver memoryHost (.file dir out bytes) s).1 = true) :
    ∃ folder p, s.folder.Within folder ∧ { s with folder }.spot? out = some ⟨p, none⟩ ∧
      deliver memoryHost (.file dir out bytes) s = (true, { s with folder }.put p bytes) := by
  obtain ⟨ready, t, hgrown, hdeliver⟩ := deliver_file_eq dir out bytes s
  rw [hdeliver] at h ⊢
  split at h
  · rename_i e hwritten
    obtain ⟨-, hwrite⟩ := Option.ite_none_right_eq_some.1 hwritten
    obtain ⟨folder, hw, rfl⟩ := hgrown
    obtain ⟨p, hspot, rfl⟩ := Memory.write_eq_some hwrite
    exact ⟨folder, p, hw, hspot, rfl⟩
  · cases h

end Delivering

def Memory.marked (d : Memory) (name : String) : Memory := { d with finished := d.finished ++ [name] }

def SourceUnit.compile (settings : CompileSettings) (unit : SourceUnit) : Except CompileError Compiled :=
  compileSource (settings.options unit) unit.source

/-- What the turn of a unit does, which can end in two ways. -/
inductive Turn (settings : CompileSettings) (several : Bool) (unit : SourceUnit) (s : Memory) : Bool → Memory → Prop
  | failed {e : CompileError} (h : unit.compile settings = .error e) :
      Turn settings several unit s false (s.complained e.diagnostic)
  | compiled {c : Compiled} {folder : Folder} {p : Place} (h : unit.compile settings = .ok c)
      (within : s.folder.Within folder)
      (spot : { s with folder }.spot? (outputPath unit.path settings.output) = some ⟨p, none⟩) :
      Turn settings several unit s true
        (let written := { s with folder }.put p c.bytes
          if several then written.marked unit.name else written)

section Running

variable {settings : CompileSettings} {several : Bool} {d e s : Memory} {path : String} {unit : SourceUnit}

theorem runUnit_eq {work : SourceUnit → Product} (h : d.unit? path = some unit) :
    runUnit memoryHost work several path d =
      let (delivered, e) := deliver memoryHost (work unit) (d.loaded path)
      (delivered, if delivered && several then e.marked unit.name else e) := by
  have hload : memoryHost.load path d = (some unit, d.loaded path) := Prod.ext h rfl
  unfold runUnit
  simp only [bind, StateT.bind, hload]
  rcases deliver memoryHost (work unit) (d.loaded path) with ⟨delivered, e⟩
  cases delivered <;> cases several <;> rfl

theorem compileUnit_of_error {e : CompileError} (h : unit.compile settings = .error e) :
    compileUnit settings unit = .failure e.diagnostic := by
  unfold compileUnit
  rw [show compileSource (settings.options unit) unit.source = .error e from h]

theorem compileUnit_of_ok {c : Compiled} (hhex : settings.hex = false) (h : unit.compile settings = .ok c) :
    compileUnit settings unit = .file settings.output (outputPath unit.path settings.output) c.bytes := by
  unfold compileUnit
  rw [show compileSource (settings.options unit) unit.source = .ok c from h, hhex]
  rfl

/-- As hexadecimal text a unit fails as it does otherwise, and the line printed in the place of a file is read back
to the bytes of that file. -/
theorem compileUnit_hex (settings : CompileSettings) (unit : SourceUnit) :
    (∀ d, compileUnit { settings with hex := true } unit = .failure d ↔
      compileUnit { settings with hex := false } unit = .failure d) ∧
    ∀ dir path bytes, compileUnit { settings with hex := false } unit = .file dir path bytes →
      ∃ line, compileUnit { settings with hex := true } unit = .text line ∧
        line.length = 2 * bytes.length ∧ Hex.decode line = some bytes := by
  have same : ({ settings with hex := true } : CompileSettings).options unit =
      ({ settings with hex := false } : CompileSettings).options unit := rfl
  unfold compileUnit
  rw [same]
  cases compileSource (({ settings with hex := false } : CompileSettings).options unit) unit.source with
  | error e => simp
  | ok c =>
    refine ⟨fun d => by simp, fun dir path bytes h => ⟨c.hex, rfl, ?_⟩⟩
    obtain ⟨-, -, rfl⟩ : _ ∧ _ ∧ c.bytes = bytes := Product.file.inj h
    exact ⟨Hex.length_encode c.bytes, Hex.decode_encode c.bytes⟩

theorem runUnit_turn (several : Bool) (hhex : settings.hex = false) (h : d.unit? path = some unit)
    (hserved : ∀ c, unit.compile settings = .ok c →
      (deliver memoryHost (compileUnit settings unit) (d.loaded path)).1 = true) :
    Turn settings several unit (d.loaded path) (runUnit memoryHost (compileUnit settings) several path d).1
      (runUnit memoryHost (compileUnit settings) several path d).2 := by
  rw [runUnit_eq h]
  cases hc : unit.compile settings with
  | error e =>
    rw [compileUnit_of_error hc]
    exact .failed hc
  | ok c =>
    have hserved := hserved c hc
    rw [compileUnit_of_ok hhex hc] at hserved ⊢
    obtain ⟨folder, p, hw, hspot, hdeliver⟩ := deliver_file hserved
    rw [hdeliver]
    exact .compiled hc hw hspot

end Running

end ImpWasm.Cli
