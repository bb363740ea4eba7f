set_option autoImplicit false

namespace ImpWasm.Decimal

def digit (n : Nat) : Char := Char.ofNat (48 + n)

def digits (n : Nat) : List Char :=
  if n < 10 then [digit n] else digits (n / 10) ++ [digit (n % 10)]
termination_by n
decreasing_by omega

def ofInt : Int → List Char
  | .ofNat n => digits n
  | .negSucc n => '-' :: digits (n + 1)

def natValue (cs : List Char) : Nat := cs.foldl (fun n c => 10 * n + (c.toNat - 48)) 0

def value : List Char → Int
  | '-' :: cs => -(natValue cs : Int)
  | cs => natValue cs

theorem natValue_append_singleton (cs : List Char) (c : Char) :
    natValue (cs ++ [c]) = 10 * natValue cs + (c.toNat - 48) := by
  simp [natValue]

theorem toNat_digit {n : Nat} (h : n < 10) : (digit n).toNat - 48 = n := by
  match n, h with
  | 0, _ | 1, _ | 2, _ | 3, _ | 4, _ | 5, _ | 6, _ | 7, _ | 8, _ | 9, _ => rfl

theorem natValue_digits (n : Nat) : natValue (digits n) = n := by
  induction n using Nat.strongRecOn with
  | ind n ih =>
    rw [digits]
    split
    · rename_i h
      simpa [natValue] using toNat_digit h
    · rename_i h
      have hq : n / 10 < n := by omega
      rw [natValue_append_singleton, ih _ hq, toNat_digit (by omega)]
      omega

/-- The 32-bit integer that the text stands for, if it is in range. -/
def int32? (cs : List Char) : Option Int32 :=
  let v := value cs
  if -2147483648 ≤ v ∧ v ≤ 2147483647 then some (Int32.ofInt v) else none

end ImpWasm.Decimal
