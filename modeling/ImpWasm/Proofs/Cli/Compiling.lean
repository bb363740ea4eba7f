import ImpWasm.Proofs.Cli.Turns
set_option autoImplicit false

namespace ImpWasm.Cli

def Place.IsOutput (p : Place) : Prop := ∃ stem : List Char, p.head? = some (stem ++ ".wasm".toList)

/-- The turns of units one after the other, before each of which input may be read. -/
inductive Turns (settings : CompileSettings) (several : Bool) : List SourceUnit → Memory → Bool → Memory → Prop
  | done (s : Memory) : Turns settings several [] s true s
  | next {unit : SourceUnit} {units : List SourceUnit} {s t e : Memory} {input : Wasm.Bytes} {ok oks : Bool}
      (first : Turn settings several unit { s with input } ok t) (rest : Turns settings several units t oks e) :
      Turns settings several (unit :: units) s (ok && oks) e

def SourceUnit.success? (settings : CompileSettings) (unit : SourceUnit) : Option String :=
  match unit.compile settings with
  | .ok _ => some unit.name
  | .error _ => none

def SourceUnit.failure? (settings : CompileSettings) (unit : SourceUnit) : Option Diagnostic :=
  match unit.compile settings with
  | .ok _ => none
  | .error e => some e.diagnostic

section Outcomes

variable {settings : CompileSettings} {unit : SourceUnit}

theorem SourceUnit.outcome_of_ok {c : Compiled} (h : unit.compile settings = .ok c) :
    unit.success? settings = some unit.name ∧ unit.failure? settings = none := by
  unfold success? failure?
  rw [h]
  exact ⟨rfl, rfl⟩

theorem SourceUnit.outcome_of_error {e : CompileError} (h : unit.compile settings = .error e) :
    unit.success? settings = none ∧ unit.failure? settings = some e.diagnostic := by
  unfold success? failure?
  rw [h]
  exact ⟨rfl, rfl⟩

end Outcomes

section Turns

variable {settings : CompileSettings} {several ok oks : Bool} {unit : SourceUnit} {units before after : List SourceUnit}
variable {s t e : Memory}

namespace Turn

theorem within (h : Turn settings several unit s ok t) : s.folder.Within t.folder := by
  cases h with
  | failed _ => exact .refl _
  | compiled _ within _ => cases several <;> exact within

theorem input (h : Turn settings several unit s ok t) : t.input = s.input := by
  cases h with
  | failed _ => rfl
  | compiled _ _ _ => cases several <;> rfl

theorem writes {c : Compiled} (h : Turn settings several unit s ok t) (hc : unit.compile settings = .ok c) :
    ∃ p, p.IsOutput ∧
      (∀ e : Memory, t.folder.Within e.folder →
        (e.spot? (outputPath unit.path settings.output)).map Spot.place = some p) ∧
      ∀ q, t.file? q = if q == p then some c.bytes else s.file? q := by
  cases h with
  | failed h =>
    rw [hc] at h
    cases h
  | @compiled c' folder p h _ spot =>
    cases Except.ok.inj (hc.symm.trans h)
    refine ⟨p, ⟨_, Memory.head?_of_spotOf? (endsIn_outputPath unit.path settings.output) spot⟩, fun e hw => ?_,
      fun q => ?_⟩
    · exact Memory.place_within (by cases several <;> exact hw) spot
    · have hput := Memory.file?_put { s with folder } p q c.bytes
      cases several <;> exact hput

theorem writes_nothing {e : CompileError} (h : Turn settings several unit s ok t)
    (he : unit.compile settings = .error e) (q : Place) : t.file? q = s.file? q := by
  cases h with
  | failed _ => rfl
  | compiled h _ _ =>
    rw [he] at h
    cases h

theorem file? (h : Turn settings several unit s ok t) {q : Place} (hq : ¬q.IsOutput) : t.file? q = s.file? q := by
  cases hc : unit.compile settings with
  | error e => exact h.writes_nothing hc q
  | ok c =>
    obtain ⟨p, hp, -, hfile⟩ := h.writes hc
    rw [hfile, if_neg]
    rintro hqp
    exact hq (beq_iff_eq.1 hqp ▸ hp)

end Turn

namespace Turns

theorem within (h : Turns settings several units s ok e) : s.folder.Within e.folder := by
  induction h with
  | done s => exact .refl _
  | next first _ ih => exact Folder.Within.trans first.within ih

theorem succeed_iff (h : Turns settings several units s ok e) :
    ok = true ↔ ∀ unit ∈ units, ∃ c, unit.compile settings = .ok c := by
  induction h with
  | done s => simp
  | next first _ ih =>
    rw [Bool.and_eq_true, ih, List.forall_mem_cons]
    refine and_congr_left' ?_
    cases first with
    | failed h => simp [h]
    | compiled h _ _ => simp [h]

theorem finished (h : Turns settings several units s ok e) :
    e.finished = s.finished ++ if several then units.filterMap (SourceUnit.success? settings) else [] := by
  induction h with
  | done s => cases several <;> simp
  | next first _ ih =>
    rw [ih, List.filterMap_cons]
    cases first with
    | failed h =>
      rw [(SourceUnit.outcome_of_error h).1]
      rfl
    | compiled h _ _ =>
      rw [(SourceUnit.outcome_of_ok h).1]
      cases several <;> simp [Memory.marked, Memory.put]

theorem complaints (h : Turns settings several units s ok e) :
    e.complaints = s.complaints ++ units.filterMap (SourceUnit.failure? settings) := by
  induction h with
  | done s => simp
  | next first _ ih =>
    rw [ih, List.filterMap_cons]
    cases first with
    | failed h =>
      rw [(SourceUnit.outcome_of_error h).2]
      simp [Memory.complained]
    | compiled h _ _ =>
      rw [(SourceUnit.outcome_of_ok h).2]
      cases several <;> rfl

/-- A file stays as it is if nothing else is written to it. -/
theorem file?_kept (h : Turns settings several units s ok e) {p : Place} {bytes : Wasm.Bytes}
    (hp : s.file? p = some bytes)
    (hsame : ∀ unit ∈ units, ∀ c, unit.compile settings = .ok c →
      (e.spot? (outputPath unit.path settings.output)).map Spot.place = some p → c.bytes = bytes) :
    e.file? p = some bytes := by
  induction h with
  | done s => exact hp
  | @next unit units s t e input ok oks first rest ih =>
    refine ih ?_ fun u hu => hsame u (List.mem_cons_of_mem _ hu)
    cases hc : unit.compile settings with
    | error error =>
      rw [first.writes_nothing hc]
      exact hp
    | ok c =>
      obtain ⟨q, -, hplace, hfile⟩ := first.writes hc
      rw [hfile]
      split
      · rename_i hpq
        have hplace := hplace e rest.within
        rw [← beq_iff_eq.1 hpq] at hplace
        rw [hsame unit (List.mem_cons_self ..) c hc hplace]
      · exact hp

theorem split (h : Turns settings several (before ++ unit :: after) s ok e) :
    ∃ s₁ s₂ ok₁ ok₂, Turn settings several unit s₁ ok₁ s₂ ∧ Turns settings several after s₂ ok₂ e := by
  induction before generalizing s ok with
  | nil =>
    cases h with
    | next first rest => exact ⟨_, _, _, _, first, rest⟩
  | cons _ before ih =>
    cases h with
    | next _ rest => exact ih rest

/-- The output of a unit that compiles is read back, unless other bytes are written to the file later. -/
theorem read?_output (h : Turns settings several (before ++ unit :: after) s ok e) {c : Compiled}
    (hc : unit.compile settings = .ok c)
    (hsame : ∀ later ∈ after, ∀ c', later.compile settings = .ok c' →
      (e.spot? (outputPath later.path settings.output)).map Spot.place =
        (e.spot? (outputPath unit.path settings.output)).map Spot.place → c'.bytes = c.bytes) :
    e.read? (outputPath unit.path settings.output) = some c.bytes := by
  obtain ⟨s₁, s₂, ok₁, ok₂, turn, rest⟩ := h.split
  obtain ⟨p, -, hplace, hfile⟩ := turn.writes hc
  have hplace := hplace e rest.within
  have hkept : e.file? p = some c.bytes := by
    refine rest.file?_kept ?_ fun later hl c' hc' hp => ?_
    · rw [hfile, if_pos (beq_self_eq_true p)]
    · exact hsame later hl c' hc' (hp.trans hplace.symm)
  obtain ⟨spot, hspot, rfl⟩ := Option.map_eq_some_iff.1 hplace
  rw [Memory.read?, hspot, Option.bind_some]
  exact hkept

end Turns

end Turns

namespace Memory

def expanded (d : Memory) (paths : List String) : Except ExpandError (List String) :=
  (memoryHost.expandAll paths d).1

def units (d : Memory) (found : List String) : List SourceUnit := found.filterMap d.unit?

def afterTurns (d : Memory) (settings : CompileSettings) (several : Bool) (paths : List String) : Memory :=
  (runUnits memoryHost (compileUnit settings) several paths d).2

/-- Every file that is found can be read, and every module can be written in its turn. -/
structure Serves (d : Memory) (settings : CompileSettings) (found : List String) : Prop where
  reads : ∀ path ∈ found, (d.unit? path).isSome = true
  writes : ∀ before path after unit c, found = before ++ path :: after → d.unit? path = some unit →
    unit.compile settings = .ok c →
    (deliver memoryHost (compileUnit settings unit)
      ((d.afterTurns settings (1 < found.length) before).loaded path)).1 = true

/-- What the turns of the units before leave as it was. -/
structure Undisturbed (d s : Memory) (before : List String) : Prop where
  folder : d.folder.Within s.folder
  sources : ∀ p : Place, ¬p.IsOutput → s.file? p = d.file? p
  input : (∀ path ∈ before, isInput path = false) → s.input = d.input

variable {d s t : Memory} {settings : CompileSettings} {several ok : Bool} {before : List String} {path : String}
variable {unit : SourceUnit}

theorem not_isOutput {p : Place} {stem : List Char} (h : p.head? = some (stem ++ ".ref".toList)) : ¬p.IsOutput := by
  rintro ⟨stem', h'⟩
  have same := congrArg List.getLast? (Option.some.inj (h.symm.trans h'))
  simp at same

theorem Undisturbed.read? (h : d.Undisturbed s before) {stem : List Char} {bytes : Wasm.Bytes}
    (hpath : Path.EndsIn (stem ++ ".ref".toList) path.toList) (hread : d.read? path = some bytes) :
    s.read? path = some bytes := by
  obtain ⟨spot, hspot, hfile⟩ := Option.bind_eq_some_iff.1 hread
  obtain ⟨spot', hspot', hplace⟩ := spotOf?_within h.folder hspot
  have hsource := h.sources spot.place (not_isOutput (head?_of_spotOf? hpath hspot))
  refine Option.bind_eq_some_iff.2 ⟨spot', hspot', ?_⟩
  rw [hplace, hsource, hfile]

theorem Undisturbed.unit? (h : d.Undisturbed s before) (hunit : d.unit? path = some unit)
    (hpath : isInput path = true ∨ ∃ stem, Path.EndsIn (stem ++ ".ref".toList) path.toList)
    (hinput : isInput path = true → ∀ q ∈ before, isInput q = false) : s.unit? path = some unit := by
  cases hi : isInput path with
  | true =>
    rw [unit?_input hi] at hunit ⊢
    rw [h.input (hinput hi), hunit]
  | false =>
    obtain ⟨stem, hends⟩ := hpath.resolve_left (by simp [hi])
    rw [unit?_file hi] at hunit ⊢
    cases hread : d.read? path with
    | none =>
      rw [hread] at hunit
      cases hunit
    | some bytes => rw [h.read? hends hread, ← hread, hunit]

theorem loaded_eq (s : Memory) (path : String) : ∃ input, s.loaded path = { s with input } ∧
    (isInput path = false → input = s.input) := by
  cases hi : isInput path with
  | true => exact ⟨[], loaded_input hi s, by simp⟩
  | false => exact ⟨s.input, loaded_file hi s, fun _ => rfl⟩

theorem Undisturbed.refl (d : Memory) : d.Undisturbed d [] := ⟨.refl _, fun _ _ => rfl, fun _ => rfl⟩

theorem Undisturbed.turn (h : d.Undisturbed s before) (hturn : Turn settings several unit (s.loaded path) ok t) :
    d.Undisturbed t (before ++ [path]) := by
  obtain ⟨input, hloaded, hinput⟩ := s.loaded_eq path
  rw [hloaded] at hturn
  refine ⟨h.folder.trans hturn.within, fun p hp => (hturn.file? hp).trans (h.sources p hp), fun hfiles => ?_⟩
  have hbefore := h.input fun q hq => hfiles q (List.mem_append_left _ hq)
  rw [hturn.input, ← hbefore]
  exact hinput (hfiles path (by simp))

theorem afterTurns_snoc : d.afterTurns settings several (before ++ [path]) =
    (runUnit memoryHost (compileUnit settings) several path (d.afterTurns settings several before)).2 := by
  unfold afterTurns
  induction before generalizing d with
  | nil => rfl
  | cons first before ih => exact ih

theorem Serves.turns {paths found rest : List String} (before : List String) (hserves : d.Serves settings found)
    (hhex : settings.hex = false) (hfound : Sources paths found) (honce : (paths.filter isInput).length ≤ 1)
    (hsplit : found = before ++ rest)
    (h : d.Undisturbed (d.afterTurns settings (1 < found.length) before) before) :
    Turns settings (1 < found.length) (d.units rest) (d.afterTurns settings (1 < found.length) before)
      (runUnits memoryHost (compileUnit settings) (1 < found.length) rest
        (d.afterTurns settings (1 < found.length) before)).1
      (runUnits memoryHost (compileUnit settings) (1 < found.length) rest
        (d.afterTurns settings (1 < found.length) before)).2 := by
  induction rest generalizing before with
  | nil => exact .done _
  | cons path rest ih =>
    have hmem : path ∈ found := by simp [hsplit]
    obtain ⟨unit, hunit⟩ := Option.isSome_iff_exists.1 (hserves.reads path hmem)
    have hlater : isInput path = true → ∀ q ∈ before, isInput q = false := by
      intro hpath q hq
      refine Bool.eq_false_iff.2 fun hinput => ?_
      have hpos := List.length_pos_of_mem (List.mem_filter.2 ⟨hq, hinput⟩)
      rw [← hfound.inputs, hsplit, List.filter_append, List.filter_cons_of_pos hpath, List.length_append,
        List.length_cons] at honce
      omega
    have hnow := h.unit? hunit (hfound.endings path hmem) hlater
    have turn := runUnit_turn (1 < found.length) hhex hnow fun c hc =>
      hserves.writes before path rest unit c hsplit hunit hc
    have next := h.turn turn
    rw [← afterTurns_snoc] at next
    have hrest := ih (before ++ [path]) (by rw [hsplit, List.append_cons]) next
    rw [afterTurns_snoc] at hrest
    obtain ⟨input, hloaded, -⟩ := (d.afterTurns settings (1 < found.length) before).loaded_eq path
    rw [hloaded] at turn
    rw [units, List.filterMap_cons_some hunit]
    exact .next turn hrest

theorem inputs_le_one {paths : List String} (h : paths.Nodup) : (paths.filter isInput).length ≤ 1 := by
  have all : ∀ path ∈ paths.filter isInput, path = "-" := fun path hp => beq_iff_eq.1 (List.mem_filter.1 hp).2
  have hnodup := h.filter isInput
  rw [List.eq_replicate_of_mem all] at hnodup
  exact List.nodup_replicate.1 hnodup

end Memory

structure Memory.Kept (d : Memory) (settings : CompileSettings) (found : List String) (e : Memory) : Prop where
  finished : e.finished =
    d.finished ++ if 1 < found.length then (d.units found).filterMap (SourceUnit.success? settings) else []
  complaints : e.complaints = d.complaints ++ (d.units found).filterMap (SourceUnit.failure? settings)
  /-- The output of a unit holds its module, unless a later unit has another module in the same file. -/
  outputs : ∀ before unit after c, d.units found = before ++ unit :: after → unit.compile settings = .ok c →
    (∀ later ∈ after, ∀ c', later.compile settings = .ok c' →
      (e.spot? (outputPath later.path settings.output)).map Spot.place =
        (e.spot? (outputPath unit.path settings.output)).map Spot.place → c'.bytes = c.bytes) →
    e.read? (outputPath unit.path settings.output) = some c.bytes

theorem runPaths_eq (work : SourceUnit → Product) (paths : List String) (d : Memory) :
    runPaths memoryHost work paths d =
      match d.expanded paths with
      | .error e => (1, d.complained { message := e.message })
      | .ok found =>
        let (ok, e) := runUnits memoryHost work (1 < found.length) found d
        (if ok then 0 else 1, e) := by
  have hexpand : memoryHost.expandAll paths d = (d.expanded paths, d) := Prod.ext rfl (expandAll_keeps paths d)
  unfold runPaths
  simp only [bind, StateT.bind, hexpand]
  cases d.expanded paths <;> rfl

/-- A run that compiles takes the units as they are at the start, one after the other, and none matters for another
but where they share an output file: there the last module stays. -/
theorem run_compile_keeps {d : Memory} {args paths : List String} {settings : CompileSettings}
    (hargs : Request.ofArgs args = some (.compile paths settings)) (hhex : settings.hex = false)
    (hpaths : paths.Nodup) (hserves : ∀ found, d.expanded paths = .ok found → d.Serves settings found) :
    (((run memoryHost args).run d).1 = 0 ↔ ∃ found, d.expanded paths = .ok found ∧
      ∀ unit ∈ d.units found, ∃ c, unit.compile settings = .ok c) ∧
    ∀ found, d.expanded paths = .ok found → d.Kept settings found ((run memoryHost args).run d).2 := by
  have hrun : (run memoryHost args).run d = runPaths memoryHost (compileUnit settings) paths d := by
    rw [run, hargs]
    rfl
  rw [hrun, runPaths_eq]
  cases hfound : d.expanded paths with
  | error e => simp
  | ok found =>
    have served := hserves found hfound
    have turns : Turns settings (1 < found.length) (d.units found) d
        (runUnits memoryHost (compileUnit settings) (1 < found.length) found d).1
        (runUnits memoryHost (compileUnit settings) (1 < found.length) found d).2 :=
      served.turns [] hhex (expandAll_sources paths d found hfound) (Memory.inputs_le_one hpaths) rfl (.refl d)
    dsimp only
    generalize runUnits memoryHost (compileUnit settings) (1 < found.length) found d = outcome at turns ⊢
    obtain ⟨ok, e⟩ := outcome
    refine ⟨?_, ?_⟩
    · have hcode : (if ok = true then 0 else 1 : UInt32) = 0 ↔ ok = true := by cases ok <;> decide
      rw [hcode, turns.succeed_iff]
      simp
    · rintro _ ⟨⟩
      refine ⟨by simpa using turns.finished, turns.complaints, fun before unit after c hunits hc hsame => ?_⟩
      rw [hunits] at turns
      exact turns.read?_output hc hsame

def Memory.namesakes : Memory where
  files := [(["m.ref".toList, ['a']], []), (["m.ref".toList, ['b']], [120, 32, 58, 61, 32, 49, 59])]
  folder := .mk [(['a'], .empty), (['b'], .empty)]

theorem Memory.namesakes_unit?_first : namesakes.unit? "a/m.ref" = some ⟨some "a/m.ref", "a/m.ref", ""⟩ := by
  decide +kernel

theorem Memory.namesakes_unit?_second :
    namesakes.unit? "b/m.ref" = some ⟨some "b/m.ref", "b/m.ref", "x := 1;"⟩ := by
  decide +kernel

theorem Memory.namesakes_expanded : namesakes.expanded ["a/m.ref", "b/m.ref"] = .ok ["a/m.ref", "b/m.ref"] := by
  decide +kernel

theorem Memory.namesakes_serves : namesakes.Serves { output := some "out" } ["a/m.ref", "b/m.ref"] where
  reads := by decide +kernel
  writes before path after unit c hfound hunit hc := by
    match before, hfound with
    | [], h =>
      obtain ⟨rfl, -⟩ := List.cons.inj h
      cases hunit.symm.trans namesakes_unit?_first
      decide +kernel
    | [_], h =>
      obtain ⟨rfl, hrest⟩ := List.cons.inj h
      obtain ⟨rfl, -⟩ := List.cons.inj hrest
      cases hunit.symm.trans namesakes_unit?_second
      decide +kernel
    | _ :: _ :: _, h => simp at h

theorem run_compile_keeps_namesakes :
    ∃ c, SourceUnit.compile { output := some "out" } ⟨some "b/m.ref", "b/m.ref", "x := 1;"⟩ = .ok c ∧
      ((run memoryHost ["compile", "-o", "out", "a/m.ref", "b/m.ref"]).run Memory.namesakes).2.read? "out/m.wasm" =
        some c.bytes := by
  have hargs : Request.ofArgs ["compile", "-o", "out", "a/m.ref", "b/m.ref"] =
      some (.compile ["a/m.ref", "b/m.ref"] { output := some "out" }) := by decide +kernel
  have hserves : ∀ found, Memory.namesakes.expanded ["a/m.ref", "b/m.ref"] = .ok found →
      Memory.namesakes.Serves { output := some "out" } found := by
    intro found hfound
    cases hfound.symm.trans Memory.namesakes_expanded
    exact Memory.namesakes_serves
  have hkept := (run_compile_keeps hargs rfl (by decide) hserves).2 _ Memory.namesakes_expanded
  have hunits : Memory.namesakes.units ["a/m.ref", "b/m.ref"] =
      [⟨some "a/m.ref", "a/m.ref", ""⟩] ++ ⟨some "b/m.ref", "b/m.ref", "x := 1;"⟩ :: [] := by decide +kernel
  have hcompiles : (SourceUnit.compile { output := some "out" }
      ⟨some "b/m.ref", "b/m.ref", "x := 1;"⟩).toOption.isSome = true := by decide +kernel
  cases hc : SourceUnit.compile { output := some "out" } ⟨some "b/m.ref", "b/m.ref", "x := 1;"⟩ with
  | error e =>
    rw [hc] at hcompiles
    cases hcompiles
  | ok c =>
    have hread := hkept.outputs _ _ _ c hunits hc fun later hl => absurd hl List.not_mem_nil
    have hout : outputPath (some "b/m.ref") (some "out") = "out/m.wasm" := by decide +kernel
    rw [hout] at hread
    exact ⟨c, rfl, hread⟩

/-- Where two units share an output file, the module of the first is lost, and nothing tells of it. -/
theorem run_compile_loses_namesake : ¬∀ (d : Memory) (args paths found : List String) (settings : CompileSettings),
    Request.ofArgs args = some (.compile paths settings) → settings.hex = false → paths.Nodup →
    d.expanded paths = .ok found → d.Serves settings found → ∀ unit ∈ d.units found, ∀ c,
      unit.compile settings = .ok c →
      ((run memoryHost args).run d).2.read? (outputPath unit.path settings.output) = some c.bytes := by
  intro h
  have hfirst := h Memory.namesakes ["compile", "-o", "out", "a/m.ref", "b/m.ref"] ["a/m.ref", "b/m.ref"]
    ["a/m.ref", "b/m.ref"] { output := some "out" } (by decide +kernel) rfl (by decide) Memory.namesakes_expanded
    Memory.namesakes_serves ⟨some "a/m.ref", "a/m.ref", ""⟩ (by decide +kernel)
  have hdiffers : (SourceUnit.compile { output := some "out" } ⟨some "a/m.ref", "a/m.ref", ""⟩).toOption.map
      Compiled.bytes ≠ none ∧ (SourceUnit.compile { output := some "out" }
        ⟨some "a/m.ref", "a/m.ref", ""⟩).toOption.map Compiled.bytes ≠
      ((run memoryHost ["compile", "-o", "out", "a/m.ref", "b/m.ref"]).run Memory.namesakes).2.read? "out/m.wasm" := by
    decide +kernel
  cases hc : SourceUnit.compile { output := some "out" } ⟨some "a/m.ref", "a/m.ref", ""⟩ with
  | error e =>
    rw [hc] at hdiffers
    exact hdiffers.1 rfl
  | ok c =>
    have hread := hfirst c hc
    have hout : outputPath (some "a/m.ref") (some "out") = "out/m.wasm" := by decide +kernel
    rw [hout] at hread
    rw [hc, hread] at hdiffers
    exact hdiffers.2 rfl

end ImpWasm.Cli
