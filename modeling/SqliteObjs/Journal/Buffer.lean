import SqliteObjs.Vfs.Alone

/-!
# Buffered files

A journal or WAL lives in a heap buffer of which a prefix is its logical content.
The buffer grows by doubling, so its size stays a power of two below `2 ^ 63`. That
is what makes every content that was written loadable again.
-/

set_option autoImplicit false

namespace SqliteObjs

open Data CS CS.Program

/-- The logical content of a journal or WAL. -/
def ObjsFile.content (p : ObjsFile) : Bytes :=
  match p.eFileType with
  | .wal => p.aWalData.truncate p.nWalData
  | .mainJournal => p.aJrnlData.truncate p.nJrnlData
  | .mainDb => .empty

/-- A buffer with a logical size, as growth by doubling leaves it. -/
structure Buffered (data : Bytes) (n : Nat) : Prop where
  le : n ≤ data.size
  pow : data.size = 0 ∨ data.size.isPowerOfTwo
  lt : data.size < 2 ^ 63

theorem buffered_empty : Buffered .empty 0 := ⟨by simp, Or.inl rfl, by simp⟩

/-- A power of two below `2 ^ 63` is at most `2 ^ 62`. -/
theorem Buffered.size_le {data : Bytes} {n : Nat} (h : Buffered data n) :
    data.size ≤ 2 ^ 62 := by
  rcases h.pow with h0 | ⟨k, hk⟩
  · omega
  · have hlt := h.lt
    rw [hk] at hlt ⊢
    have : k < 63 := (Nat.pow_lt_pow_iff_right (by omega : 1 < 2)).mp hlt
    exact Nat.pow_le_pow_right (by omega) (by omega)

theorem Buffered.of_le {data : Bytes} {n m : Nat} (h : Buffered data n) (hm : m ≤ data.size) :
    Buffered data m := ⟨hm, h.pow, h.lt⟩

theorem Buffered.of_size {data data' : Bytes} {n : Nat} (h : Buffered data n)
    (hs : data'.size = data.size) {m : Nat} (hm : m ≤ data.size) : Buffered data' m :=
  ⟨by omega, by rw [hs]; exact h.pow, by rw [hs]; exact h.lt⟩

/-! ## Doubling -/

theorem doubleUntil_isPowerOfTwo (m : Nat) : ∀ (n : Nat) {alloc : Nat},
    alloc.isPowerOfTwo → (doubleUntil m n alloc).isPowerOfTwo
  | 0, _, h => h
  | n + 1, alloc, h => by
    unfold doubleUntil
    split
    · exact doubleUntil_isPowerOfTwo m n (Nat.isPowerOfTwo_mul_two_of_isPowerOfTwo h)
    · exact h

theorem le_doubleUntil (m : Nat) : ∀ (n alloc : Nat), alloc ≤ doubleUntil m n alloc
  | 0, _ => Nat.le_refl _
  | n + 1, alloc => by
    unfold doubleUntil
    split
    · have := le_doubleUntil m n (alloc * 2)
      omega
    · exact Nat.le_refl _

/-- Doubling reaches the wanted size unless it runs out of rounds. -/
theorem doubleUntil_reaches (m : Nat) : ∀ (n alloc : Nat),
    m ≤ doubleUntil m n alloc ∨ alloc * 2 ^ n ≤ doubleUntil m n alloc
  | 0, alloc => by simp [doubleUntil]
  | n + 1, alloc => by
    unfold doubleUntil
    split
    · have h := doubleUntil_reaches m n (alloc * 2)
      rwa [Nat.mul_assoc, ← Nat.pow_succ'] at h
    · next h => exact Or.inl (by omega)

/-- Doubling stops below twice the wanted size. -/
theorem doubleUntil_lt (m : Nat) : ∀ (n alloc : Nat),
    doubleUntil m n alloc = alloc ∨ doubleUntil m n alloc < 2 * m
  | 0, _ => Or.inl rfl
  | n + 1, alloc => by
    unfold doubleUntil
    split
    · rcases doubleUntil_lt m n (alloc * 2) with h | h
      · exact Or.inr (by omega)
      · exact Or.inr h
    · exact Or.inl rfl

/-- The first allocation of `bufferEnsure`. -/
theorem initialAlloc_isPowerOfTwo : initialAlloc.isPowerOfTwo := ⟨16, rfl⟩

section Ensure

variable {W α : Type} {E : Setting W Ans} {w : W} {buf : Bytes} {n m : Nat}
  {f : Bytes × Rc → Prog α} {Q : α → W → Prop}

/-- `bufferEnsure` fails and keeps the buffer, or grows it with zeros. -/
theorem wp_bufferEnsure_bind (hE : Quiet E) (hb : Buffered buf n)
    (hfail : wp E (f (buf, .nomem)) Q w)
    (hgrow : ∀ buf' : Bytes, Buffered buf' m → buf.size ≤ buf'.size →
      (∀ i, buf'.get i = buf.get i) → wp E (f (buf', .ok)) Q w) :
    wp E (bufferEnsure buf m >>= f) Q w := by
  unfold bufferEnsure
  split
  · next h => exact hgrow buf (hb.of_le h) (Nat.le_refl _) fun _ => rfl
  next hm =>
  generalize hstart : (if buf.size = 0 then initialAlloc else buf.size) = start
  have hpow : start.isPowerOfTwo := by
    rw [← hstart]
    split
    · exact initialAlloc_isPowerOfTwo
    · next h0 => exact hb.pow.resolve_left h0
  have hge : buf.size ≤ start := by
    rw [← hstart]
    split
    · omega
    · exact Nat.le_refl _
  have hle := le_doubleUntil m 64 start
  dsimp only
  split
  · exact hfail
  next hlt =>
  rw [wp_bind]
  refine wp_quiet_bind hE rfl fun x _ => ?_
  split
  · exact fun w₁ hw => wp_stable hw hfail
  · have hreach : m ≤ doubleUntil m 64 start := by
      have hpos := Nat.pos_of_isPowerOfTwo hpow
      rcases doubleUntil_reaches m 64 start with h | h
      · exact h
      · omega
    have hbuf : Buffered (buf.truncate (doubleUntil m 64 start)) m :=
      ⟨hreach, Or.inr (doubleUntil_isPowerOfTwo m 64 hpow), by simpa using hlt⟩
    have hgrown := hgrow _ hbuf (by rw [SparseFile.truncate_size]; omega)
      (buf.truncate_get_of_le (by omega))
    exact fun w₁ hw => wp_stable hw hgrown

end Ensure

/-- Loading a content into a fresh buffer does not fail for its size. -/
theorem doubleUntil_initial_lt {m : Nat} (h : m ≤ 2 ^ 62) :
    ∀ n, doubleUntil m n initialAlloc < 2 ^ 63 := by
  intro n
  rcases doubleUntil_lt m n initialAlloc with h' | h'
  · rw [h']
    decide
  · omega

end SqliteObjs
