import KeyVDB.Exn
import KeyVDB.Lib.LittleEndian

/-!
# Sizes

The constants of `page.h` and `btree_defs.h`, and the size check with which `BTree::insert` starts.
-/

namespace KeyVDB

/-- `PAGE_SIZE`. -/
def PAGE_SIZE : Nat := 4096

/-- `Page::HEADER_SIZE`, that is `sizeof(PageHeader)`. -/
def HEADER_SIZE : Nat := 24

/-- `Page::DATA_SIZE`. -/
def DATA_SIZE : Nat := PAGE_SIZE - HEADER_SIZE

/-- `NODE_HEADER_SIZE`, that is `sizeof(NodeHeader)`. -/
def NODE_HEADER_SIZE : Nat := 32

def SLOT_ARRAY_START : Nat := NODE_HEADER_SIZE

def NODE_DATA_SIZE : Nat := DATA_SIZE

def NODE_USABLE_SIZE : Nat := DATA_SIZE - NODE_HEADER_SIZE

/-- `sizeof(slot_offset_t)`. -/
def SLOT_SIZE : Nat := 2

/-- `leaf_cell_size`: two length fields, the key and the value. -/
def leafCellSize (keyLen valLen : Nat) : Nat := 2 + keyLen + (2 + valLen)

/-- `internal_cell_size`: a length field, the key and a child's page id. -/
def internalCellSize (keyLen : Nat) : Nat := 2 + keyLen + 4

/-- `total_cell_cost`: the slot entry and the payload. -/
def totalCellCost (payload : Nat) : Nat := SLOT_SIZE + payload

/-- The pair passes the size check of `BTree::insert`. -/
def Fits (key value : Bytes) : Prop :=
  leafCellSize key.length value.length + SLOT_SIZE ≤ NODE_USABLE_SIZE

instance (key value : Bytes) : Decidable (Fits key value) :=
  inferInstanceAs (Decidable (_ ≤ _))

/-- What `BTree::insert` throws otherwise. -/
def tooLarge (key value : Bytes) : Exn :=
  .invalidArgument ("BTree::insert: key+value too large to fit in one page (" ++
    toString (leafCellSize key.length value.length) ++ " bytes, max " ++
    toString NODE_USABLE_SIZE ++ ")")

theorem Fits.key_length_lt {key value : Bytes} (h : Fits key value) : key.length < 2 ^ 32 := by
  simp only [Fits, leafCellSize, SLOT_SIZE, NODE_USABLE_SIZE, DATA_SIZE, PAGE_SIZE, HEADER_SIZE,
    NODE_HEADER_SIZE] at h
  omega

theorem Fits.value_length_lt {key value : Bytes} (h : Fits key value) :
    value.length < 2 ^ 32 := by
  simp only [Fits, leafCellSize, SLOT_SIZE, NODE_USABLE_SIZE, DATA_SIZE, PAGE_SIZE, HEADER_SIZE,
    NODE_HEADER_SIZE] at h
  omega

end KeyVDB
