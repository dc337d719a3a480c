/-!
# Sparse bytes

`SparseBytes` gives every natural number a byte, zero unless another one was
stored.  It takes space for the stored bytes only, so a region of the address
space can be as large as the space itself.  The bytes hang in a binary tree.
The root holds byte 0, and bytes `2 i + 1` and `2 i + 2` are byte `i` of its
left and right subtree.

The one law of the structure is `get_set`: a store changes one byte, and the
others stay.
-/

namespace X86Listing

/-- A byte for every natural number, zero for all but finitely many. -/
inductive SparseBytes where
  /-- All bytes are zero. -/
  | blank
  /-- Byte 0, the bytes at odd numbers, and the bytes at the other even
  numbers. -/
  | node (here : UInt8) (odd even : SparseBytes)
deriving DecidableEq, Inhabited

namespace SparseBytes

/-- The byte at a number. -/
def get : SparseBytes → Nat → UInt8
  | blank, _ => 0
  | node here _ _, 0 => here
  | node _ odd even, i + 1 => if i % 2 = 0 then odd.get (i / 2) else even.get (i / 2)

/-- The bytes with one of them replaced. -/
def set (bytes : SparseBytes) (i : Nat) (value : UInt8) : SparseBytes :=
  match i, bytes with
  | 0, blank => if value = 0 then blank else node value blank blank
  | 0, node _ odd even => node value odd even
  | i + 1, blank =>
    if value = 0 then blank
    else if i % 2 = 0 then node 0 (set blank (i / 2) value) blank
    else node 0 blank (set blank (i / 2) value)
  | i + 1, node here odd even =>
    if i % 2 = 0 then node here (set odd (i / 2) value) even
    else node here odd (set even (i / 2) value)
termination_by i

/-- The `size` bytes from `start` on. -/
def slice (bytes : SparseBytes) (start size : Nat) : List UInt8 :=
  (List.range' start size).map bytes.get

/-- The bytes with the bytes of a list written from `start` on. -/
def write (bytes : SparseBytes) (start : Nat) : List UInt8 → SparseBytes
  | [] => bytes
  | value :: rest => write (bytes.set start value) (start + 1) rest

/-- The bytes with `size` zeros written from `start` on. -/
def clear (bytes : SparseBytes) (start : Nat) : Nat → SparseBytes
  | 0 => bytes
  | size + 1 => clear (bytes.set start 0) (start + 1) size

/-- A store changes one byte. -/
theorem get_set (bytes : SparseBytes) (i j : Nat) (value : UInt8) :
    (bytes.set i value).get j = if j = i then value else bytes.get j := by
  fun_induction set bytes i value generalizing j <;> cases j <;> simp_all [get] <;> grind

@[simp]
theorem get_set_self (bytes : SparseBytes) (i : Nat) (value : UInt8) :
    (bytes.set i value).get i = value := by
  simp [get_set]

theorem get_set_of_ne (bytes : SparseBytes) {i j : Nat} (value : UInt8) (h : j ≠ i) :
    (bytes.set i value).get j = bytes.get j := by
  simp [get_set, h]

@[simp]
theorem get_blank (i : Nat) : blank.get i = 0 := by
  cases i <;> rfl

/-- What a list of bytes leaves behind. -/
theorem get_write (bytes : SparseBytes) (start : Nat) (values : List UInt8) (j : Nat) :
    (bytes.write start values).get j =
      if start ≤ j then values[j - start]?.getD (bytes.get j) else bytes.get j := by
  induction values generalizing bytes start with
  | nil => simp [write]
  | cons value rest ih =>
    rw [write, ih]
    by_cases hlt : start + 1 ≤ j
    · have hj : j - start = (j - (start + 1)) + 1 := by omega
      have hne : j ≠ start := by omega
      have hle : start ≤ j := by omega
      simp [hlt, hle, hj, get_set, hne]
    · by_cases he : j = start
      · subst he
        simp [hlt]
      · have hle : ¬ start ≤ j := by omega
        simp [hlt, hle, get_set, he]

/-- What a run of zeros leaves behind. -/
theorem get_clear (bytes : SparseBytes) (start size j : Nat) :
    (bytes.clear start size).get j =
      if start ≤ j ∧ j < start + size then 0 else bytes.get j := by
  induction size generalizing bytes start with
  | zero =>
    rw [clear, if_neg (by omega)]
  | succ size ih =>
    rw [clear, ih, get_set]
    grind

@[simp]
theorem length_slice (bytes : SparseBytes) (start size : Nat) :
    (bytes.slice start size).length = size := by
  simp [slice]

end SparseBytes

end X86Listing
