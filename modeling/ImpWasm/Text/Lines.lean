set_option autoImplicit false

/-!
Texts in pieces. A text with a separator between its pieces is the pieces joined again, and the
pieces at line feeds are its lines. Indenting moves lines and leaves what they hold alone.
-/
namespace ImpWasm

def joinWith (separator : List Char) : List (List Char) → List Char
  | [] => []
  | [x] => x
  | x :: y :: rest => x ++ separator ++ joinWith separator (y :: rest)

/-- The pieces between the separators, one more than there are separators. -/
def splitOn (separator : Char) : List Char → List (List Char)
  | [] => [[]]
  | c :: cs =>
    if c = separator then [] :: splitOn separator cs
    else
      match splitOn separator cs with
      | [] => [[c]]
      | x :: xs => (c :: x) :: xs

theorem splitOn_ne_nil (separator : Char) (cs : List Char) : splitOn separator cs ≠ [] := by
  cases cs with
  | nil => simp [splitOn]
  | cons c cs =>
    simp only [splitOn]
    split
    · simp
    · split <;> simp

theorem joinWith_splitOn (separator : Char) (cs : List Char) :
    joinWith [separator] (splitOn separator cs) = cs := by
  induction cs with
  | nil => rfl
  | cons c cs ih =>
    obtain ⟨x, xs, hx⟩ := List.exists_cons_of_ne_nil (splitOn_ne_nil separator cs)
    rw [hx] at ih
    simp only [splitOn, hx]
    split
    · rename_i hc
      simp [joinWith, ih, hc]
    · cases xs with
      | nil => simpa [joinWith] using ih
      | cons y ys => simpa [joinWith] using ih

section Splitting

variable {c : Char} {cs ds : List Char}

theorem splitOn_of_not_mem (h : c ∉ cs) : splitOn c cs = [cs] := by
  induction cs with
  | nil => rfl
  | cons d cs ih =>
    obtain ⟨hd, hcs⟩ := not_or.1 (mt List.mem_cons.2 h)
    rw [splitOn, if_neg (Ne.symm hd), ih hcs]

theorem splitOn_append_cons : splitOn c (cs ++ c :: ds) = splitOn c cs ++ splitOn c ds := by
  induction cs with
  | nil => simp [splitOn]
  | cons d cs ih =>
    rw [List.cons_append, splitOn, splitOn, ih]
    split
    · rfl
    · cases h : splitOn c cs with
      | nil => exact absurd h (splitOn_ne_nil c cs)
      | cons x xs => rfl

theorem not_mem_of_mem_splitOn {x : List Char} (h : x ∈ splitOn c cs) : c ∉ x := by
  induction cs generalizing x with
  | nil => simp_all [splitOn]
  | cons d cs ih =>
    rw [splitOn] at h
    split at h
    · obtain rfl | h := List.mem_cons.1 h
      · exact List.not_mem_nil
      · exact ih h
    · rename_i hd
      cases hs : splitOn c cs with
      | nil => exact absurd hs (splitOn_ne_nil c cs)
      | cons y ys =>
        rw [hs] at h ih
        obtain rfl | h := List.mem_cons.1 h
        · exact mt List.mem_cons.1 (not_or.2 ⟨Ne.symm hd, ih (List.mem_cons_self ..)⟩)
        · exact ih (List.mem_cons_of_mem _ h)

end Splitting

structure Line where
  depth : Nat := 0
  text : List Char
  deriving DecidableEq, Repr

namespace Line

def margin (l : Line) : List Char := List.replicate (4 * l.depth) ' '

def chars (l : Line) : List Char := l.margin ++ l.text

/-- A carriage return right before the end of a line belongs to the ending. -/
def dropReturn (l : Line) : Line :=
  if l.text.getLast? = some '\r' then { l with text := l.text.dropLast } else l

def indent (l : Line) : Line := { l with depth := l.depth + 1 }

theorem chars_indent (l : Line) : l.indent.chars = [' ', ' ', ' ', ' '] ++ l.chars := by
  have h : 4 * (l.depth + 1) = 4 * l.depth + 1 + 1 + 1 + 1 := by omega
  simp [chars, margin, indent, h, List.replicate_succ]

end Line

abbrev Lines := List Line

namespace Lines

def ofChars (cs : List Char) : Lines := (splitOn '\n' cs).map fun text => { text }

def chars (ls : Lines) : List Char := joinWith ['\n'] (ls.map Line.chars)

theorem chars_ofChars (cs : List Char) : chars (ofChars cs) = cs := by
  have h : (Line.chars ∘ fun text => { text }) = fun text => text := by
    funext text
    simp [Line.chars, Line.margin]
  simp [chars, ofChars, h, joinWith_splitOn]

/-- One text right after another: the first line of the second goes on in the last of the first. -/
def weld : Lines → Lines → Lines
  | [], ms => ms
  | [l], [] => [l]
  | [l], m :: ms => { l with text := l.text ++ m.chars } :: ms
  | l :: k :: ls, ms => l :: weld (k :: ls) ms

theorem chars_cons (l : Line) {ls : Lines} (h : ls ≠ []) :
    chars (l :: ls) = l.chars ++ ['\n'] ++ chars ls := by
  cases ls with
  | nil => exact absurd rfl h
  | cons m ms => rfl

theorem weld_ne_nil {ls ms : Lines} (h : ls ≠ []) : weld ls ms ≠ [] := by
  fun_cases weld ls ms <;> simp_all

theorem chars_weld (ls ms : Lines) : chars (weld ls ms) = chars ls ++ chars ms := by
  induction ls with
  | nil => rfl
  | cons l ls ih =>
    cases ls with
    | cons k ls =>
      have hw : weld (k :: ls) ms ≠ [] := weld_ne_nil (by simp)
      have hl : chars (l :: k :: ls) = l.chars ++ ['\n'] ++ chars (k :: ls) := rfl
      have hm : weld (l :: k :: ls) ms = l :: weld (k :: ls) ms := rfl
      rw [hm, chars_cons l hw, ih, hl]
      simp
    | nil =>
      cases ms with
      | nil => simp [weld, chars, joinWith]
      | cons m ms =>
        cases ms with
        | nil => simp [weld, chars, joinWith, Line.chars, Line.margin]
        | cons k ms => simp [weld, chars, joinWith, Line.chars, Line.margin]

/-- Every line four columns further right. What follows the last line feed is a line only if it is
not empty. -/
def indent : Lines → Lines
  | [] => []
  | [l] => if l.chars.isEmpty then [] else [l.indent]
  | l :: k :: ls => l.dropReturn.indent :: indent (k :: ls)

end Lines

end ImpWasm
