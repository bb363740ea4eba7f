import ImpWasm.Cli.Host
import Mathlib
set_option autoImplicit false

namespace ImpWasm

namespace Path

def isName (s : List Char) : Bool := !(isVoid s || isUp s)

/-- The last segment of a path, but for void ones, is a name. -/
def EndsIn (s path : List Char) : Prop :=
  isName s = true ∧ ∃ above voids, segments path = above ++ s :: voids ∧ ∀ v ∈ voids, isVoid v = true

variable {s path : List Char}

theorem EndsIn.not_mem (h : EndsIn s path) : '/' ∉ s := by
  obtain ⟨-, above, voids, hs, -⟩ := h
  have segment : s ∈ splitOn '/' path := by simp [← segments.eq_def, hs]
  exact not_mem_of_mem_splitOn segment

theorem endsIn_of_not_mem (hn : isName s = true) (h : '/' ∉ s) : EndsIn s s :=
  ⟨hn, [], [], splitOn_of_not_mem h, by simp⟩

theorem EndsIn.prepend (h : EndsIn s path) (above : List Char) : EndsIn s (above ++ '/' :: path) := by
  obtain ⟨hn, before, voids, hs, hv⟩ := h
  refine ⟨hn, segments above ++ before, voids, ?_, hv⟩
  rw [segments, splitOn_append_cons, ← segments, ← segments, hs, List.append_assoc]

theorem getLast?_trim {above voids : List (List Char)} (hs : isVoid s = false)
    (hv : ∀ v ∈ voids, isVoid v = true) : (trim (above ++ s :: voids)).getLast? = some s := by
  have hvoids : voids.reverse.dropWhile isVoid = [] := List.dropWhile_eq_nil_iff.2 (by simpa using hv)
  cases above with
  | nil => simp [trim, hvoids]
  | cons a as =>
    rw [List.cons_append, trim, List.reverse_append, List.reverse_cons, List.append_assoc,
      List.dropWhile_append_of_pos (by simpa using hv)]
    simp [hs, List.getLast?_cons]

theorem of_getLast?_trim {segments : List (List Char)} (hs : (trim segments).getLast? = some s) :
    ∃ above voids, segments = above ++ s :: voids ∧ ∀ v ∈ voids, isVoid v = true := by
  cases segments with
  | nil => simp [trim] at hs
  | cons x xs =>
    obtain ⟨above, ha⟩ := List.getLast?_eq_some_iff.1 hs
    refine ⟨above, (xs.reverse.takeWhile isVoid).reverse, ?_, ?_⟩
    · have hxs : xs = (xs.reverse.dropWhile isVoid).reverse ++ (xs.reverse.takeWhile isVoid).reverse := by
        rw [← List.reverse_append, List.takeWhile_append_dropWhile, List.reverse_reverse]
      rw [List.append_cons, ← ha, trim, List.cons_append, ← hxs]
    · exact fun v hv => List.mem_takeWhile_imp (List.mem_reverse.1 hv)

theorem fileName?_eq_some_iff {path name : String} :
    fileName? path = some name ↔ EndsIn name.toList path.toList := by
  unfold fileName? EndsIn isName
  constructor
  · intro h
    split at h
    · rename_i s hs
      obtain ⟨above, voids, hsegments, hv⟩ := of_getLast?_trim hs
      split at h
      · cases h
      · rename_i hn
        cases h
        exact ⟨by simpa using hn, above, voids, by simpa using hsegments, hv⟩
    · cases h
  · rintro ⟨hn, above, voids, hsegments, hv⟩
    rw [hsegments, getLast?_trim (by simp_all) hv]
    simp_all

theorem EndsIn.join {s : List Char} {name : String} (h : EndsIn s name.toList) (dir : String) :
    EndsIn s (join dir name).toList := by
  unfold Path.join
  split
  · exact h
  · rename_i c hc
    obtain ⟨above, habove⟩ := List.getLast?_eq_some_iff.1 hc
    split
    · rename_i hslash
      rw [String.toList_append, habove, hslash, List.append_assoc]
      exact h.prepend above
    · rw [String.toList_append, String.toList_append, List.append_assoc]
      exact h.prepend dir.toList

theorem extension_splitName {name : String} {extension : List Char}
    (h : (splitName name).2 = some (String.ofList extension)) :
    ∃ stem, name.toList = stem ++ '.' :: extension := by
  have hsplit := List.takeWhile_append_dropWhile (p := (· != '.')) (l := name.toList.reverse)
  simp only [splitName] at h
  split at h
  · rename_i dot before hbefore
    split at h
    · cases h
    · have hext : (name.toList.reverse.takeWhile (· != '.')).reverse = extension :=
        String.ofList_injective (Option.some.inj h)
      have hdot : dot = '.' := by
        have hhead := List.head?_dropWhile_not (· != '.') name.toList.reverse
        simpa [hbefore] using hhead
      refine ⟨before.reverse, ?_⟩
      rw [← List.reverse_reverse name.toList, ← hsplit, hbefore, List.reverse_append, hext, hdot]
      simp
  · cases h

/-- A source has a name that ends in the extension of sources. -/
theorem endsIn_of_extension? {path extension : String} (h : extension? path = some extension) :
    ∃ stem, EndsIn (stem ++ '.' :: extension.toList) path.toList := by
  obtain ⟨name, hname, h⟩ := Option.bind_eq_some_iff.1 h
  obtain ⟨stem, hstem⟩ := extension_splitName (h.trans (congrArg some String.ofList_toList.symm))
  exact ⟨stem, hstem ▸ fileName?_eq_some_iff.1 hname⟩

theorem mem_of_mem_stem {name : String} {c : Char} (h : c ∈ (splitName name).1.toList) : c ∈ name.toList := by
  simp only [splitName] at h
  split at h
  · rename_i dot before hbefore
    split at h
    · exact h
    · have hc : c ∈ name.toList.reverse.dropWhile (· != '.') := by
        rw [hbefore]
        exact List.mem_cons_of_mem _ (by simpa using h)
      exact List.mem_reverse.1 ((List.dropWhile_sublist _).subset hc)
  · exact h

theorem isName_of_length {s : List Char} (h : 2 < s.length) : isName s = true := by
  match s with
  | [] | [_] | [_, _] => simp at h
  | a :: b :: c :: cs => simp [isName, isVoid, isUp]

end Path

namespace Cli

theorem not_mem_stemOf (path : Option String) : '/' ∉ (stemOf path).toList := by
  unfold stemOf
  cases h : path.bind Path.stem? with
  | none => decide
  | some stem =>
    obtain ⟨path, -, h⟩ := Option.bind_eq_some_iff.1 h
    obtain ⟨name, hname, rfl⟩ := Option.map_eq_some_iff.1 h
    exact fun hc => (Path.fileName?_eq_some_iff.1 hname).not_mem (Path.mem_of_mem_stem hc)

theorem endsIn_outputPath (path dir : Option String) :
    Path.EndsIn ((stemOf path).toList ++ ".wasm".toList) (outputPath path dir).toList := by
  have hslash : '/' ∉ (stemOf path).toList ++ ".wasm".toList :=
    List.not_mem_append (not_mem_stemOf path) (by decide)
  have hfile : Path.EndsIn ((stemOf path).toList ++ ".wasm".toList) (stemOf path ++ ".wasm").toList := by
    rw [String.toList_append]
    exact Path.endsIn_of_not_mem (Path.isName_of_length (by simp)) hslash
  unfold outputPath
  split
  · exact hfile.join _
  · exact hfile.join _
  · exact hfile

theorem endsIn_of_isSource {path : String} (h : isSource path = true) :
    ∃ stem, Path.EndsIn (stem ++ ".ref".toList) path.toList :=
  Path.endsIn_of_extension? (beq_iff_eq.1 h)

end Cli

end ImpWasm
