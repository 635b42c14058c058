import SqliteObjs.Azure.Auth

/-!
# The names of the blocks of an upload

A block of a parallel upload is named by its index, printed with at least four digits into 16
bytes and encoded in base64. The list that commits the blocks is an XML text in a buffer whose
size is estimated from their number.
-/

set_option autoImplicit false

namespace SqliteObjs

/-- The bytes of a text. -/
def bytesOf (s : List Char) : List UInt8 := s.map fun c => UInt8.ofNat c.toNat

/-- `%04d`. -/
def decimal4 (n : Nat) : List Char :=
  List.replicate (4 - (Nat.toDigits 10 n).length) '0' ++ Nat.toDigits 10 n

/-- `raw[16]` of `block_make_id`. -/
def blockRawId (chunkIdx : Nat) : List Char := snprintf 16 ("block-".toList ++ decimal4 chunkIdx)

/-- `block_make_id` into a buffer of `size` bytes. -/
def blockMakeId (chunkIdx size : Nat) : Option (List Char) :=
  azureBase64Encode (bytesOf (blockRawId chunkIdx)) size

/-- The id of a block. -/
def blockId (chunkIdx : Nat) : List Char := Base64.encode (bytesOf (blockRawId chunkIdx))

theorem length_blockRawId_le (chunkIdx : Nat) : (blockRawId chunkIdx).length ≤ 15 := by
  unfold blockRawId snprintf
  rw [List.length_take]
  omega

theorem length_blockRawId_ge (chunkIdx : Nat) : 10 ≤ (blockRawId chunkIdx).length := by
  have hblock : "block-".toList.length = 6 := rfl
  unfold blockRawId snprintf decimal4
  rw [List.length_take, List.length_append, List.length_append, List.length_replicate]
  omega

theorem length_bytesOf (s : List Char) : (bytesOf s).length = s.length := List.length_map _

/-- An id can be made for every chunk, and has at most 20 characters. -/
theorem length_blockId_le (chunkIdx : Nat) : (blockId chunkIdx).length ≤ 20 := by
  have hraw := length_blockRawId_le chunkIdx
  unfold blockId
  rw [Base64.length_encode, length_bytesOf]
  omega

theorem blockMakeId_eq (chunkIdx : Nat) : blockMakeId chunkIdx 32 = some (blockId chunkIdx) := by
  have hle := length_blockId_le chunkIdx
  have hne : bytesOf (blockRawId chunkIdx) ≠ [] := by
    intro h
    have hlength := length_bytesOf (blockRawId chunkIdx)
    have hge := length_blockRawId_ge chunkIdx
    rw [h, List.length_nil] at hlength
    omega
  unfold blockMakeId azureBase64Encode
  rw [if_neg hne, if_neg (by unfold blockId at hle; omega)]
  rfl

end SqliteObjs
