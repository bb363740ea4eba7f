import ImpWasm.Cli.Memory
import ImpWasm.Proofs.Cli.Paths
set_option autoImplicit false

/-!
Where paths lead. A path that leads to a place leads there still when there are more directories, and the place
has the name that the path ends in. So no path of a source leads where one of an output does.
-/
namespace ImpWasm.Cli

theorem lookup_put {α β : Type} [BEq α] [LawfulBEq α] (a : α) (b : β) (xs : List (α × β)) (k : α) :
    ((a, b) :: xs.filter (·.1 != a)).lookup k = if k == a then some b else xs.lookup k := by
  rw [List.lookup_cons]
  cases hk : k == a with
  | true => rfl
  | false =>
    change (xs.filter (·.1 != a)).lookup k = xs.lookup k
    induction xs with
    | nil => rfl
    | cons x xs ih =>
      obtain ⟨c, d⟩ := x
      by_cases hc : c = a
      · subst hc
        simpa [List.lookup_cons, hk] using ih
      · simp [hc, List.lookup_cons, ih]

namespace Folder

def reaches : Folder → List (List Char) → Bool
  | _, [] => true
  | f, s :: ss =>
    match f.get? s with
    | none => false
    | some g => g.reaches ss

/-- Every directory of one folder is in the other. -/
def Within (f g : Folder) : Prop := ∀ way, f.reaches way = true → g.reaches way = true

variable {f g : Folder} {s : List Char}

theorem Within.refl (f : Folder) : f.Within f := fun _ h => h

theorem Within.trans {k : Folder} (h : f.Within g) (h' : g.Within k) : f.Within k := fun way hway => h' way (h way hway)

theorem empty_within (f : Folder) : empty.Within f
  | [], _ => rfl
  | _ :: _, h => by cases h

theorem Within.get? (h : f.Within g) {f' : Folder} (hf : f.get? s = some f') :
    ∃ g', g.get? s = some g' ∧ f'.Within g' := by
  have hs := h [s] (by simp [reaches, hf])
  cases hg : g.get? s with
  | none => simp [reaches, hg] at hs
  | some g' => exact ⟨g', rfl, fun way hway => by simpa [reaches, hf, hg] using h (s :: way) (by simpa [reaches, hf])⟩

theorem Within.getD (h : f.Within g) : ((f.get? s).getD .empty).Within ((g.get? s).getD .empty) := by
  cases hf : f.get? s with
  | none => exact empty_within _
  | some f' =>
    obtain ⟨g', hg, hfg⟩ := h.get? hf
    rw [hg]
    exact hfg

theorem get?_add (way : List (List Char)) (f : Folder) (t : List Char) :
    (f.add (s :: way)).get? t = if t == s then some (add way ((f.get? s).getD empty)) else f.get? t := by
  obtain ⟨folders⟩ := f
  exact lookup_put s _ folders t

theorem within_add (way : List (List Char)) (f : Folder) : f.Within (f.add way) := by
  induction way generalizing f with
  | nil => exact .refl f
  | cons s way ih =>
    rintro (_ | ⟨t, ts⟩) h
    · rfl
    · rw [reaches, get?_add]
      rw [reaches] at h
      cases hf : f.get? t with
      | none => simp [hf] at h
      | some f' =>
        rw [hf] at h
        by_cases ht : t = s
        · subst ht
          simpa [hf] using ih f' ts h
        · simpa [ht] using h

end Folder

section Walking

theorem walk_cons (p : Place) (f : Folder) (outer : List Folder) (s : List Char) (ss : List (List Char)) :
    walk p (some f) outer (s :: ss) =
      if Path.isVoid s then walk p (some f) outer ss
      else if Path.isUp s then
        match outer with
        | g :: outer => walk p.tail (some g) outer ss
        | [] =>
          if p = Place.root then walk p (some f) [] ss
          else walk (s :: p) (some ((f.get? s).getD .empty)) [] ss
      else walk (s :: p) (f.get? s) (f :: outer) ss :=
  walk.eq_def p (some f) outer (s :: ss)

theorem Folder.Within.some {f g : Folder} (h : f.Within g) :
    ∀ x, Option.some f = Option.some x → ∃ y, Option.some g = Option.some y ∧ x.Within y := by
  rintro _ ⟨⟩
  exact ⟨g, rfl, h⟩

variable {p : Place} {outer outer' : List Folder} {ss : List (List Char)} {spot : Spot}

/-- A walk leads to the same place when there are more directories. -/
theorem walk_within {f f' : Option Folder} (hf : ∀ x, f = some x → ∃ y, f' = some y ∧ x.Within y)
    (ho : List.Forall₂ Folder.Within outer outer') (h : walk p f outer ss = some spot) :
    ∃ spot', walk p f' outer' ss = some spot' ∧ spot'.place = spot.place := by
  induction ss generalizing p f f' outer outer' with
  | nil =>
    cases h
    exact ⟨_, rfl, rfl⟩
  | cons s ss ih =>
    cases f with
    | none => cases h
    | some x =>
      obtain ⟨y, rfl, hxy⟩ := hf x rfl
      rw [walk_cons] at h ⊢
      by_cases hvoid : Path.isVoid s
      · rw [if_pos hvoid] at h ⊢
        exact ih hxy.some ho h
      rw [if_neg hvoid] at h ⊢
      by_cases hup : Path.isUp s
      · rw [if_pos hup] at h ⊢
        cases ho with
        | cons hg ho => exact ih hg.some ho h
        | nil =>
          by_cases hroot : p = Place.root
          · simp only [hroot, if_true] at h ⊢
            exact ih hxy.some .nil h
          · simp only [hroot, if_false] at h ⊢
            exact ih hxy.getD.some .nil h
      · rw [if_neg hup] at h ⊢
        exact ih (fun _ hx => hxy.get? hx) (.cons hxy ho) h

theorem place_of_voids {f : Option Folder} {voids : List (List Char)} (hv : ∀ v ∈ voids, Path.isVoid v = true)
    (h : walk p f outer voids = some spot) : spot.place = p := by
  induction voids generalizing f outer with
  | nil =>
    cases h
    rfl
  | cons v voids ih =>
    cases f with
    | none => cases h
    | some x =>
      rw [walk_cons, if_pos (hv v (List.mem_cons_self ..))] at h
      exact ih (fun v hv' => hv v (List.mem_cons_of_mem _ hv')) h

theorem head?_of_walk {f : Option Folder} {s : List Char} {above voids : List (List Char)}
    (hs : Path.isName s = true) (hv : ∀ v ∈ voids, Path.isVoid v = true)
    (h : walk p f outer (above ++ s :: voids) = some spot) : spot.place.head? = some s := by
  induction above generalizing p f outer with
  | nil =>
    cases f with
    | none => cases h
    | some x =>
      obtain ⟨hvoid, hup⟩ : Path.isVoid s = false ∧ Path.isUp s = false := by simpa [Path.isName] using hs
      rw [List.nil_append, walk_cons, hvoid, hup] at h
      rw [place_of_voids hv h]
      rfl
  | cons t above ih =>
    cases f with
    | none => cases h
    | some x =>
      rw [List.cons_append, walk_cons] at h
      split at h
      · exact ih h
      split at h
      · cases outer with
        | cons g outer => exact ih h
        | nil =>
          dsimp only at h
          split at h <;> exact ih h
      · exact ih h

end Walking

namespace Memory

variable {d e : Memory} {path : List Char} {spot : Spot}

/-- Where a path led it leads. -/
theorem spotOf?_within (hw : d.folder.Within e.folder) (h : d.spotOf? path = some spot) :
    ∃ spot', e.spotOf? path = some spot' ∧ spot'.place = spot.place := by
  unfold spotOf? at h ⊢
  by_cases hlength : 4095 < utf8Length path
  · rw [if_pos hlength] at h
    cases h
  rw [if_neg hlength] at h ⊢
  split at h
  · cases h
  · exact walk_within hw.getD.some .nil h
  · exact walk_within hw.some .nil h

theorem place_within {path : String} (hw : d.folder.Within e.folder) (h : d.spot? path = some spot) :
    (e.spot? path).map Spot.place = some spot.place := by
  obtain ⟨spot', h', hplace⟩ := spotOf?_within hw h
  rw [spot?, h', Option.map_some, hplace]

theorem head?_of_spotOf? {s : List Char} (hpath : Path.EndsIn s path) (h : d.spotOf? path = some spot) :
    spot.place.head? = some s := by
  obtain ⟨hs, above, voids, hsegments, hv⟩ := hpath
  unfold spotOf? at h
  split at h
  · cases h
  split at h
  · cases h
  · rename_i cs _
    -- The root is named by an empty segment, which the walk from it does not go through again.
    have hroot : [] :: Path.segments cs = above ++ s :: voids := hsegments
    cases above with
    | nil =>
      obtain ⟨rfl, -⟩ := List.cons.inj hroot
      cases hs
    | cons x above =>
      obtain ⟨-, hsegments⟩ := List.cons.inj hroot
      rw [hsegments] at h
      exact head?_of_walk hs hv h
  · rw [hsegments] at h
    exact head?_of_walk hs hv h

end Memory

end ImpWasm.Cli
