import KeyVDB.Lib.LittleEndian

/-!
# Byte buffers

A buffer of a fixed number of bytes that is read and written at offsets, as with `memcpy`. What a
read sees depends on the bytes it covers (`readAt_congr`), so a write is read back where it was made
(`readAt_writeAt`) and not seen anywhere else (`readAt_writeAt_of_disjoint`). An array of words of
one width can be shifted by one element to make or to close a gap.
-/

namespace KeyVDB

/-- `n` bytes. -/
structure Buffer (n : Nat) where
  byte : Fin n → UInt8

namespace Buffer

variable {n : Nat}

/-- All bytes are zero. -/
def zero : Buffer n := ⟨fun _ => 0⟩

/-- The byte at an offset; past the end there is none, and 0 stands for it. -/
def get (b : Buffer n) (i : Nat) : UInt8 := if h : i < n then b.byte ⟨i, h⟩ else 0

/-- `memcpy` out of the buffer. -/
def readAt (b : Buffer n) (off len : Nat) : Bytes := (List.range len).map fun i => b.get (off + i)

/-- `memcpy` into the buffer; what goes past the end is dropped. -/
def writeAt (b : Buffer n) (off : Nat) (bs : Bytes) : Buffer n :=
  ⟨fun i => if off ≤ i.val then (bs[i.val - off]?).getD (b.byte i) else b.byte i⟩

/-! ## Single bytes -/

theorem get_writeAt_of_outside {b : Buffer n} {off i : Nat} {bs : Bytes}
    (h : i < off ∨ off + bs.length ≤ i) : (b.writeAt off bs).get i = b.get i := by
  unfold get
  split
  · simp only [writeAt]
    rcases h with hlt | hge
    · rw [if_neg (Nat.not_le.mpr hlt)]
    · have hle : off ≤ i := Nat.le_trans (Nat.le_add_right _ _) hge
      rw [if_pos hle, List.getElem?_eq_none (by omega), Option.getD_none]
  · rfl

theorem get_writeAt_of_lt {b : Buffer n} {off i : Nat} {bs : Bytes} (hi : i < bs.length)
    (hn : off + bs.length ≤ n) : (b.writeAt off bs).get (off + i) = bs[i] := by
  have hlt : off + i < n := by omega
  simp only [get, dif_pos hlt, writeAt, if_pos (Nat.le_add_right off i), Nat.add_sub_cancel_left,
    List.getElem?_eq_getElem hi, Option.getD_some]

@[simp] theorem get_zero (i : Nat) : (zero : Buffer n).get i = 0 := by
  unfold get
  split
  · rfl
  · rfl

/-! ## Reads -/

@[simp] theorem length_readAt (b : Buffer n) (off len : Nat) : (b.readAt off len).length = len := by
  simp [readAt]

/-- A read depends on the bytes it covers. -/
theorem readAt_congr {b b' : Buffer n} {off len : Nat}
    (h : ∀ i, off ≤ i → i < off + len → b.get i = b'.get i) :
    b.readAt off len = b'.readAt off len := by
  refine List.map_congr_left fun i hi => h _ (Nat.le_add_right _ _) ?_
  exact Nat.add_lt_add_left (List.mem_range.mp hi) off

/-- A read in two parts. -/
theorem readAt_add (b : Buffer n) (off m k : Nat) :
    b.readAt off (m + k) = b.readAt off m ++ b.readAt (off + m) k := by
  simp only [readAt, List.range_add, List.map_append, List.map_map, Function.comp_def,
    Nat.add_assoc]

/-- What is read as a whole is read in parts. -/
theorem readAt_append {b : Buffer n} {off : Nat} {xs ys : Bytes}
    (h : b.readAt off (xs ++ ys).length = xs ++ ys) :
    b.readAt off xs.length = xs ∧ b.readAt (off + xs.length) ys.length = ys := by
  rw [List.length_append, readAt_add] at h
  exact List.append_inj h (length_readAt _ _ _)

theorem readAt_writeAt {b : Buffer n} {off : Nat} {bs : Bytes} (h : off + bs.length ≤ n) :
    (b.writeAt off bs).readAt off bs.length = bs := by
  refine List.ext_getElem (length_readAt _ _ _) fun i hi hi' => ?_
  simp only [readAt, List.getElem_map, List.getElem_range]
  exact get_writeAt_of_lt hi' h

theorem readAt_writeAt_of_length {b : Buffer n} {off len : Nat} {bs : Bytes}
    (hlen : bs.length = len) (h : off + len ≤ n) : (b.writeAt off bs).readAt off len = bs := by
  subst hlen
  exact readAt_writeAt h

theorem readAt_writeAt_of_disjoint {b : Buffer n} {off off' len : Nat} {bs : Bytes}
    (h : off' + len ≤ off ∨ off + bs.length ≤ off') :
    (b.writeAt off bs).readAt off' len = b.readAt off' len :=
  readAt_congr fun _ hlo hhi => get_writeAt_of_outside (by omega)

/-- A write over the middle of what is stored changes the middle. -/
theorem readAt_writeAt_middle {b : Buffer n} {off : Nat} {xs ys ys' zs : Bytes}
    (hlen : ys'.length = ys.length) (hn : off + (xs ++ (ys ++ zs)).length ≤ n)
    (h : b.readAt off (xs ++ (ys ++ zs)).length = xs ++ (ys ++ zs)) :
    (b.writeAt (off + xs.length) ys').readAt off (xs ++ (ys' ++ zs)).length =
      xs ++ (ys' ++ zs) := by
  obtain ⟨hxs, hrest⟩ := readAt_append h
  obtain ⟨-, hzs⟩ := readAt_append hrest
  simp only [List.length_append] at hn
  rw [List.length_append, List.length_append, readAt_add, readAt_add,
    readAt_writeAt_of_disjoint (Or.inl (Nat.le_refl _)), hxs, readAt_writeAt (by omega),
    readAt_writeAt_of_disjoint (Or.inr (Nat.le_refl _)), hlen, hzs]

/-! ## Words -/

/-- The unsigned word of `w` bytes at an offset. -/
def word (w : Nat) (b : Buffer n) (off : Nat) : Nat := leNat (b.readAt off w)

/-- Stores the low `w` bytes of a number. -/
def setWord (w : Nat) (b : Buffer n) (off x : Nat) : Buffer n := b.writeAt off (leBytes w x)

/-- The signed word of `w` bytes at an offset. -/
def int (w : Nat) (b : Buffer n) (off : Nat) : Int := leInt (b.readAt off w)

/-- Stores the low `w` bytes of an integer in two's complement. -/
def setInt (w : Nat) (b : Buffer n) (off : Nat) (x : Int) : Buffer n := b.writeAt off (intBytes w x)

section Words

variable {w off off' x : Nat} {b : Buffer n}

theorem word_setWord (h : off + w ≤ n) (hx : x < 256 ^ w) : word w (setWord w b off x) off = x := by
  rw [word, setWord, readAt_writeAt_of_length (length_leBytes w x) h, leNat_leBytes_of_lt hx]

theorem int_setInt {x : Int} (h : off + w ≤ n) (hx : InWord w x) :
    int w (setInt w b off x) off = x := by
  rw [int, setInt, readAt_writeAt_of_length (length_intBytes w x) h, leInt_intBytes hx]

/-- A signed word that was read is in range. -/
theorem inWord_int (b : Buffer n) (w off : Nat) : InWord w (int w b off) := by
  rw [InWord, int, leInt, length_readAt, Int.bmod_bmod]

theorem word_congr {b' : Buffer n} (h : ∀ i, off ≤ i → i < off + w → b.get i = b'.get i) :
    word w b off = word w b' off := by
  rw [word, word, readAt_congr h]

theorem int_congr {b' : Buffer n} (h : ∀ i, off ≤ i → i < off + w → b.get i = b'.get i) :
    int w b off = int w b' off := by
  rw [int, int, readAt_congr h]

theorem get_setWord_of_outside {i : Nat} (h : i < off ∨ off + w ≤ i) :
    (setWord w b off x).get i = b.get i :=
  get_writeAt_of_outside (by rwa [length_leBytes])

theorem word_setWord_of_disjoint {w' : Nat} (h : off' + w ≤ off ∨ off + w' ≤ off') :
    word w (setWord w' b off x) off' = word w b off' := by
  rw [word, setWord, readAt_writeAt_of_disjoint (by simpa using h), word]

end Words

/-! ## Arrays of words -/

/-- `k` signed words of `w` bytes in a row. -/
def ints (w : Nat) (b : Buffer n) (off k : Nat) : List Int :=
  (List.range k).map fun i => b.int w (off + w * i)

theorem ints_succ (w : Nat) (b : Buffer n) (off k : Nat) :
    b.ints w off (k + 1) = b.int w off :: b.ints w (off + w) k := by
  have hoff : ∀ i, off + w * (i + 1) = off + w + w * i := fun i => by rw [Nat.mul_succ]; omega
  simp [ints, List.range_succ_eq_map, Function.comp_def, hoff]

/-- The words that the bytes of a list of integers give. -/
theorem ints_of_readAt {w off : Nat} {b : Buffer n} {l : List Int} (hl : ∀ x ∈ l, InWord w x)
    (h : b.readAt off (l.flatMap (intBytes w)).length = l.flatMap (intBytes w)) :
    b.ints w off l.length = l := by
  induction l generalizing off with
  | nil => rfl
  | cons x l ih =>
    rw [List.flatMap_cons] at h
    obtain ⟨hx, hrest⟩ := readAt_append h
    rw [length_intBytes] at hx hrest
    rw [List.length_cons, ints_succ, ih (fun y hy => hl y (List.mem_cons_of_mem _ hy)) hrest, int,
      hx, leInt_intBytes (hl x List.mem_cons_self)]

theorem ints_congr {w off k : Nat} {b b' : Buffer n}
    (h : ∀ i, off ≤ i → i < off + w * k → b.get i = b'.get i) : b.ints w off k = b'.ints w off k := by
  refine List.map_congr_left fun i hi => ?_
  have hle : w * i + w ≤ w * k := by
    rw [← Nat.mul_succ]
    exact Nat.mul_le_mul_left w (List.mem_range.mp hi)
  rw [int, int, readAt_congr fun j hlo hhi => h j (by omega) (by omega)]

/-! ## Shifting the elements of an array -/

section Shift

variable {w off first : Nat}

/-- Moves the elements `first .. k - 1` of an array one place up, last element first. -/
def shiftUp (w off first : Nat) : Nat → Buffer n → Buffer n
  | 0, b => b
  | k + 1, b =>
    if first < k + 1 then
      shiftUp w off first k (b.writeAt (off + w * (k + 1)) (b.readAt (off + w * k) w))
    else b

/-- Moves `k` elements, the first of them at place `i + 1`, one place down. -/
def shiftDown (w off : Nat) : Nat → Nat → Buffer n → Buffer n
  | 0, _, b => b
  | k + 1, i, b =>
    shiftDown w off k (i + 1) (b.writeAt (off + w * i) (b.readAt (off + w * (i + 1)) w))

theorem get_shiftUp_of_outside {b : Buffer n} {k i : Nat}
    (h : i < off + w * (first + 1) ∨ off + w * (k + 1) ≤ i) :
    (shiftUp w off first k b).get i = b.get i := by
  induction k generalizing b with
  | zero => rfl
  | succ k ih =>
    rw [shiftUp]
    split
    · next hlt =>
      have hfrom : w * (first + 1) ≤ w * (k + 1) := Nat.mul_le_mul_left w hlt
      have hnext : w * (k + 1 + 1) = w * (k + 1) + w := Nat.mul_succ w (k + 1)
      have hk : w * (k + 1) = w * k + w := Nat.mul_succ w k
      rw [ih (by omega), get_writeAt_of_outside (by rw [length_readAt]; omega)]
    · rfl

theorem readAt_shiftUp {b : Buffer n} {k j : Nat} (hn : off + w * (k + 1) ≤ n) (hj : first < j)
    (hk : j ≤ k) : (shiftUp w off first k b).readAt (off + w * j) w =
      b.readAt (off + w * (j - 1)) w := by
  induction k generalizing b with
  | zero => omega
  | succ k ih =>
    have hnext : w * (k + 1 + 1) = w * (k + 1) + w := Nat.mul_succ w (k + 1)
    rw [shiftUp, if_pos (by omega)]
    by_cases hlast : j = k + 1
    · subst hlast
      rw [readAt_congr fun i hlo hhi => get_shiftUp_of_outside (Or.inr hlo), Nat.add_sub_cancel]
      exact readAt_writeAt_of_length (length_readAt _ _ _) (by omega)
    · have hlt : w * (j - 1) + w ≤ w * (k + 1) := by
        rw [← Nat.mul_succ]
        exact Nat.mul_le_mul_left w (by omega)
      rw [ih (by omega) (by omega), readAt_writeAt_of_disjoint (Or.inl (by omega))]

theorem get_shiftDown_of_outside {b : Buffer n} {k i j : Nat}
    (h : j < off + w * i ∨ off + w * (i + k) ≤ j) : (shiftDown w off k i b).get j = b.get j := by
  induction k generalizing b i with
  | zero => rfl
  | succ k ih =>
    have hnext : w * (i + 1) = w * i + w := Nat.mul_succ w i
    have hle : w * (i + 1) ≤ w * (i + (k + 1)) := Nat.mul_le_mul_left w (by omega)
    have hend : i + 1 + k = i + (k + 1) := by omega
    rw [shiftDown, ih (by rw [hend]; omega),
      get_writeAt_of_outside (by rw [length_readAt]; omega)]

theorem readAt_shiftDown {b : Buffer n} {k i j : Nat} (hn : off + w * (i + k) ≤ n) (hj : i ≤ j)
    (hk : j < i + k) : (shiftDown w off k i b).readAt (off + w * j) w =
      b.readAt (off + w * (j + 1)) w := by
  induction k generalizing b i with
  | zero => omega
  | succ k ih =>
    have hnext : w * (i + 1) = w * i + w := Nat.mul_succ w i
    have hle : w * (i + 1) ≤ w * (i + (k + 1)) := Nat.mul_le_mul_left w (by omega)
    have hend : i + 1 + k = i + (k + 1) := by omega
    rw [shiftDown]
    by_cases hfirst : j = i
    · subst hfirst
      rw [readAt_congr fun l hlo hhi => get_shiftDown_of_outside (Or.inl (by omega))]
      exact readAt_writeAt_of_length (length_readAt _ _ _) (by omega)
    · have hlt : w * (i + 1) ≤ w * (j + 1) := Nat.mul_le_mul_left w (by omega)
      rw [ih (by rw [hend]; exact hn) (by omega) (by omega),
        readAt_writeAt_of_disjoint (Or.inr (by rw [length_readAt]; omega))]

end Shift

theorem length_flatMap_intBytes (w : Nat) (l : List Int) :
    (l.flatMap (intBytes w)).length = w * l.length := by
  induction l with
  | nil => rfl
  | cons x l ih =>
    rw [List.flatMap_cons, List.length_append, ih, length_intBytes, List.length_cons, Nat.mul_succ]
    omega

end Buffer

end KeyVDB
