import Mathlib.Tactic.Common

/-!
# Sparse files

A file is a size and a cell for every position, where the cells past the size are
zero by construction. Growing a file is then only a change of its size, two files
are equal as soon as they agree cell by cell, and reading past the end needs no
case of its own.

The operations are the ones of a POSIX file: `truncate` sets the size in either
direction, `pwrite` overwrites a range and extends the file if it must, `slice`
is a positioned read that stops at the end of the file.
-/

set_option autoImplicit false

namespace Data

/-- A file over cells of type `α`, zero past its size. -/
structure SparseFile (α : Type) [Zero α] where
  size : Nat
  get : Nat → α
  get_past : ∀ i, size ≤ i → get i = 0

namespace SparseFile

variable {α : Type} [Zero α]

@[ext] theorem ext {f g : SparseFile α} (hs : f.size = g.size) (hg : ∀ i, f.get i = g.get i) :
    f = g := by
  obtain ⟨n, u, hu⟩ := f
  obtain ⟨m, v, hv⟩ := g
  obtain rfl : n = m := hs
  obtain rfl : u = v := funext hg
  rfl

/-- The file of size `n` with the given cells. -/
def ofFn (n : Nat) (u : Nat → α) : SparseFile α where
  size := n
  get i := if i < n then u i else 0
  get_past _ hi := if_neg (Nat.not_lt.mpr hi)

@[simp] theorem ofFn_size (n : Nat) (u : Nat → α) : (ofFn n u).size = n := rfl

theorem ofFn_get (n : Nat) (u : Nat → α) (i : Nat) :
    (ofFn n u).get i = if i < n then u i else 0 := rfl

/-- The empty file. -/
def empty : SparseFile α := ofFn 0 fun _ => 0

@[simp] theorem empty_size : (empty : SparseFile α).size = 0 := rfl

@[simp] theorem empty_get (i : Nat) : (empty : SparseFile α).get i = 0 := by
  simp [empty, ofFn]

theorem eq_empty {f : SparseFile α} (h : f.size = 0) : f = empty :=
  ext h fun i => (f.get_past i (by omega)).trans (empty_get i).symm

/-- Set the size, discarding a tail or extending with zeros. -/
def truncate (f : SparseFile α) (n : Nat) : SparseFile α := ofFn n f.get

@[simp] theorem truncate_size (f : SparseFile α) (n : Nat) : (f.truncate n).size = n := rfl

theorem truncate_get (f : SparseFile α) (n i : Nat) :
    (f.truncate n).get i = if i < n then f.get i else 0 := rfl

/-- Growing a file changes no cell. -/
theorem truncate_get_of_le (f : SparseFile α) {n : Nat} (h : f.size ≤ n) (i : Nat) :
    (f.truncate n).get i = f.get i := by
  rw [truncate_get]
  split
  · rfl
  · exact (f.get_past i (by omega)).symm

@[simp] theorem truncate_self (f : SparseFile α) : f.truncate f.size = f :=
  ext rfl (f.truncate_get_of_le (Nat.le_refl _))

/-- Overwrite the cells from `off` on with `d`, extending the file if it is too
short. An empty write leaves the size alone. -/
def pwrite (f : SparseFile α) (off : Nat) (d : SparseFile α) : SparseFile α where
  size := if d.size = 0 then f.size else max f.size (off + d.size)
  get i := if off ≤ i ∧ i < off + d.size then d.get (i - off) else f.get i
  get_past i hi := by
    split at hi
    · rw [if_neg (by omega)]
      exact f.get_past i hi
    · rw [if_neg (by omega)]
      exact f.get_past i (by omega)

theorem pwrite_get (f : SparseFile α) (off : Nat) (d : SparseFile α) (i : Nat) :
    (f.pwrite off d).get i =
      if off ≤ i ∧ i < off + d.size then d.get (i - off) else f.get i := rfl

theorem pwrite_get_of_mem (f d : SparseFile α) {off i : Nat} (h : off ≤ i)
    (h' : i < off + d.size) : (f.pwrite off d).get i = d.get (i - off) := by
  rw [pwrite_get, if_pos ⟨h, h'⟩]

theorem pwrite_get_of_not_mem (f d : SparseFile α) {off i : Nat}
    (h : ¬ (off ≤ i ∧ i < off + d.size)) : (f.pwrite off d).get i = f.get i := by
  rw [pwrite_get, if_neg h]

theorem pwrite_size (f : SparseFile α) (off : Nat) (d : SparseFile α) :
    (f.pwrite off d).size = if d.size = 0 then f.size else max f.size (off + d.size) := rfl

/-- A write inside the file keeps its size. -/
theorem pwrite_size_of_le (f d : SparseFile α) {off : Nat} (h : off + d.size ≤ f.size) :
    (f.pwrite off d).size = f.size := by
  rw [pwrite_size]
  split <;> omega

theorem empty_pwrite (d : SparseFile α) : empty.pwrite 0 d = d := by
  refine ext ?_ fun i => ?_
  · rw [pwrite_size, empty_size]
    split <;> omega
  · rw [pwrite_get]
    split
    · rfl
    · rw [empty_get, d.get_past i (by omega)]

/-- The cells from `off` on, at most `len` of them and none past the end. -/
def slice (f : SparseFile α) (off len : Nat) : SparseFile α :=
  ofFn (min len (f.size - off)) fun i => f.get (off + i)

@[simp] theorem slice_size (f : SparseFile α) (off len : Nat) :
    (f.slice off len).size = min len (f.size - off) := rfl

theorem slice_get (f : SparseFile α) (off len i : Nat) :
    (f.slice off len).get i = if i < min len (f.size - off) then f.get (off + i) else 0 := rfl

/-- A slice shows the file's cells, zero past its end, up to its length. -/
theorem slice_get_of_lt (f : SparseFile α) {off len i : Nat} (h : i < len) :
    (f.slice off len).get i = f.get (off + i) := by
  rw [slice_get]
  split
  · rfl
  · exact (f.get_past _ (by omega)).symm

/-- A slice of no more than its length is itself. -/
theorem slice_slice_zero (f : SparseFile α) (off len : Nat) :
    (f.slice off len).slice 0 len = f.slice off len := by
  refine ext (by simp) fun i => ?_
  rw [slice_get, slice_size, Nat.sub_zero, Nat.zero_add]
  split
  · rfl
  · exact ((f.slice off len).get_past i (by rw [slice_size]; omega)).symm

end SparseFile
end Data
