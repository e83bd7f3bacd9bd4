import Mathlib.Data.Nat.Digits.Defs
import Mathlib.Tactic.Ring

/-! Numbers as rows of bytes, the lowest byte first. -/
namespace OsTasks.Lib

/-- The number in `w` bytes. -/
def littleEndian : ℕ → ℕ → List UInt8
  | 0, _ => []
  | w + 1, n => UInt8.ofNat n :: littleEndian w (n / 256)

def ofLittleEndian (bytes : List UInt8) : ℕ := Nat.ofDigits 256 (bytes.map UInt8.toNat)

@[simp] theorem length_littleEndian (w n : ℕ) : (littleEndian w n).length = w := by
  induction w generalizing n with
  | zero => rfl
  | succ w ih => rw [littleEndian, List.length_cons, ih]

theorem ofLittleEndian_littleEndian (w n : ℕ) :
    ofLittleEndian (littleEndian w n) = n % 256 ^ w := by
  induction w generalizing n with
  | zero => rw [littleEndian, pow_zero, Nat.mod_one]; rfl
  | succ w ih =>
    have hrest : Nat.ofDigits 256 ((littleEndian w (n / 256)).map UInt8.toNat) =
        n / 256 % 256 ^ w := ih (n / 256)
    have hfirst : (UInt8.ofNat n).toNat = n % 256 := by simp
    rw [ofLittleEndian, littleEndian, List.map_cons, Nat.ofDigits_cons, hrest, hfirst, pow_succ',
      Nat.mod_mul]

end OsTasks.Lib
