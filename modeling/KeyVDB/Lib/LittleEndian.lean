import Mathlib.Data.Nat.ModEq
import Mathlib.Data.List.Basic

/-!
# Words over byte lists

Fixed-width unsigned words as byte lists, least significant byte first, with the round trip
`leNat_leBytes` and the way a read at a known offset sees one field of a longer buffer
(`take_append_field`, `drop_append_add`); signed words, and words in network order.
-/

namespace KeyVDB

/-- A byte string. -/
abbrev Bytes := List UInt8

/-! ## Words -/

/-- The `w` low bytes of `n`, least significant first. -/
def leBytes : Nat → Nat → Bytes
  | 0, _ => []
  | w + 1, n => UInt8.ofNat n :: leBytes w (n / 256)

/-- The number a little-endian byte string denotes. -/
def leNat : Bytes → Nat
  | [] => 0
  | b :: bs => b.toNat + 256 * leNat bs

@[simp] theorem length_leBytes (w n : Nat) : (leBytes w n).length = w := by
  induction w generalizing n with
  | zero => rfl
  | succ w ih => simp [leBytes, ih]

theorem leNat_leBytes (w n : Nat) : leNat (leBytes w n) = n % 256 ^ w := by
  induction w generalizing n with
  | zero => simp [leBytes, leNat, Nat.mod_one]
  | succ w ih =>
    have byte : (UInt8.ofNat n).toNat = n % 256 := by simp
    rw [leBytes, leNat, ih, byte, Nat.pow_succ, Nat.mul_comm (256 ^ w) 256, Nat.mod_mul]

/-- A word that fits its width is read back. -/
theorem leNat_leBytes_of_lt {w n : Nat} (h : n < 256 ^ w) : leNat (leBytes w n) = n := by
  rw [leNat_leBytes, Nat.mod_eq_of_lt h]

/-! ## Signed words -/

/-- An integer that fits a signed word of `w` bytes. -/
def InWord (w : Nat) (x : Int) : Prop := x.bmod (256 ^ w) = x

instance (w : Nat) (x : Int) : Decidable (InWord w x) := inferInstanceAs (Decidable (_ = _))

/-- The `w` low bytes of `x` in two's complement. -/
def intBytes (w : Nat) (x : Int) : Bytes := leBytes w (x % (256 ^ w : Nat)).toNat

/-- The integer a little-endian byte string denotes in two's complement. -/
def leInt (bs : Bytes) : Int := Int.bmod (leNat bs) (256 ^ bs.length)

@[simp] theorem length_intBytes (w : Nat) (x : Int) : (intBytes w x).length = w :=
  length_leBytes _ _

/-- An integer that fits its width is read back. -/
theorem leInt_intBytes {w : Nat} {x : Int} (h : InWord w x) : leInt (intBytes w x) = x := by
  have hpos : (0 : Int) < (256 ^ w : Nat) := by exact_mod_cast Nat.pow_pos (by decide)
  have hmod : ((x % (256 ^ w : Nat)).toNat : Int) = x % (256 ^ w : Nat) :=
    Int.toNat_of_nonneg (Int.emod_nonneg x hpos.ne')
  have hlt : (x % (256 ^ w : Nat)).toNat < 256 ^ w := by
    have hlt := Int.emod_lt_of_pos x hpos
    omega
  rw [leInt, length_intBytes, intBytes, leNat_leBytes_of_lt hlt, hmod, Int.emod_bmod, h]

/-! ## Network order -/

/-- The `w` low bytes of `n`, most significant first. -/
def beBytes (w n : Nat) : Bytes := (leBytes w n).reverse

/-- The number a big-endian byte string denotes. -/
def beNat (bs : Bytes) : Nat := leNat bs.reverse

@[simp] theorem length_beBytes (w n : Nat) : (beBytes w n).length = w := by
  simp [beBytes]

theorem beNat_beBytes_of_lt {w n : Nat} (h : n < 256 ^ w) : beNat (beBytes w n) = n := by
  rw [beNat, beBytes, List.reverse_reverse, leNat_leBytes_of_lt h]

/-! ## Reading a field out of a buffer -/

theorem take_append_field {a b : Bytes} {n : Nat} (h : a.length = n) : (a ++ b).take n = a := by
  subst h; simp

theorem drop_append_field {a b : Bytes} {n : Nat} (h : a.length = n) : (a ++ b).drop n = b := by
  subst h; simp

theorem drop_append_add {a b : Bytes} {n : Nat} (h : a.length = n) (m : Nat) :
    (a ++ b).drop (n + m) = b.drop m := by
  subst h; simp

end KeyVDB
