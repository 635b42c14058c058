import SqliteObjs.Journal.Durability

/-!
# Buffers as files

The calls of a journal or WAL that concern its bytes, and the same calls on an ideal file:
a size and bytes that are zero until they are written. A journal's buffer is zero past its
logical size at all times, as growth and truncation leave it. A WAL's is not: a truncation
to a size other than zero only lowers the size, and the bytes that were there before show
again when a write leaves a gap behind it.

A run of successful calls has the results of the ideal file as long as no write to a WAL
leaves such a gap; for one write this is also necessary.
-/

set_option autoImplicit false

namespace SqliteObjs

open Data CS CS.Program

/-! ## Calls and results -/

/-- The calls about the bytes of a file. -/
inductive FileCall
  | read (iAmt iOfst : Nat)
  | write (buf : Bytes) (iOfst : Nat)
  | truncate (size : Nat)
  | fileSize

/-- What a call hands back: a code, the bytes of a read, or the size. -/
inductive FileResult
  | data (rc : Rc) (bytes : Bytes)
  | code (rc : Rc)
  | size (n : Nat)

/-- A short read counts as a success. -/
def FileResult.Succeeded : FileResult → Prop
  | .data rc _ => rc = .ok ∨ rc = .ioerrShortRead
  | .code rc => rc = .ok
  | .size _ => True

def FileCall.code : FileCall → ObjsFile → Prog (ObjsFile × FileResult)
  | .read iAmt iOfst, p => do
    let (p, rc, bytes) ← sqliteObjsRead p iAmt iOfst
    return (p, .data rc bytes)
  | .write buf iOfst, p => do
    let (p, rc) ← sqliteObjsWrite p buf iOfst
    return (p, .code rc)
  | .truncate size, p => do
    let (p, rc) ← sqliteObjsTruncate p size
    return (p, .code rc)
  | .fileSize, p => return (p, .size (sqliteObjsFileSize p))

/-! ## The ideal file -/

namespace IdealFile

/-- A write reaches to the end of its range. -/
def write (f buf : Bytes) (iOfst : Nat) : Bytes :=
  (f.truncate (max f.size (iOfst + buf.size))).pwrite iOfst buf

def step (f : Bytes) : FileCall → Bytes × FileResult
  | .read iAmt iOfst =>
    (f, .data (if f.size < iOfst + iAmt then .ioerrShortRead else .ok)
      (SparseFile.ofFn iAmt fun i => f.get (iOfst + i)))
  | .write buf iOfst => (write f buf iOfst, .code .ok)
  | .truncate size => (f.truncate size, .code .ok)
  | .fileSize => (f, .size f.size)

/-- The file and the results after a list of calls. -/
def run : Bytes → List FileCall → Bytes × List FileResult
  | f, [] => (f, [])
  | f, c :: cs =>
    let (f, r) := step f c
    let (f, rs) := run f cs
    (f, r :: rs)

theorem write_size (f buf : Bytes) (iOfst : Nat) :
    (write f buf iOfst).size = max f.size (iOfst + buf.size) := by
  unfold write
  rw [SparseFile.pwrite_size_of_le _ _ (by rw [SparseFile.truncate_size]; omega),
    SparseFile.truncate_size]

theorem write_get (f buf : Bytes) (iOfst i : Nat) : (write f buf iOfst).get i =
    if iOfst ≤ i ∧ i < iOfst + buf.size then buf.get (i - iOfst) else f.get i := by
  unfold write
  rw [SparseFile.pwrite_get, SparseFile.truncate_get_of_le _ (Nat.le_max_left _ _)]

end IdealFile

/-! ## One call -/

/-- What holds of a journal or WAL at all times. Only a journal is zero past its size. -/
structure FileInv (p : ObjsFile) : Prop where
  kind : p.eFileType ≠ .mainDb
  jrnl : Buffered p.aJrnlData p.nJrnlData
  wal : Buffered p.aWalData p.nWalData
  zeroed : ∀ i, p.nJrnlData ≤ i → p.aJrnlData.get i = 0

/-- The gap before a write to a WAL holds no bytes of earlier contents. -/
def GapClear (p : ObjsFile) (iOfst : Nat) : Prop :=
  p.eFileType = .wal → ∀ i, p.nWalData ≤ i → i < iOfst → p.aWalData.get i = 0

section Buffers

variable {data buf : Bytes} {n iOfst : Nat}

/-- A write in a buffer is a write to a file exactly when the gap before it is zero. -/
theorem write_truncate_iff :
    (data.pwrite iOfst buf).truncate (max n (iOfst + buf.size)) =
      IdealFile.write (data.truncate n) buf iOfst ↔
      ∀ i, n ≤ i → i < iOfst → data.get i = 0 := by
  constructor
  · intro h i hle hlt
    have hi := congrArg (SparseFile.get · i) h
    simp only [SparseFile.truncate_get, IdealFile.write_get, SparseFile.pwrite_get] at hi
    rw [if_pos (by omega), if_neg (by omega), if_neg (by omega), if_neg (by omega)] at hi
    exact hi
  · intro h
    refine SparseFile.ext ?_ fun i => ?_
    · rw [SparseFile.truncate_size, IdealFile.write_size, SparseFile.truncate_size]
    · rw [SparseFile.truncate_get, IdealFile.write_get, SparseFile.truncate_get,
        SparseFile.pwrite_get]
      by_cases hin : iOfst ≤ i ∧ i < iOfst + buf.size
      · rw [if_pos hin, if_pos hin, if_pos (by omega)]
      · rw [if_neg hin, if_neg hin]
        rcases Nat.lt_or_ge i n with hlt | hge
        · rw [if_pos (by omega), if_pos hlt]
        · rw [if_neg (Nat.not_lt.mpr hge)]
          split
          · next hlt => exact h i hge (by omega)
          · rfl

/-- A read is that of a file, but for a read of nothing at the very end. -/
theorem bufferRead_eq (hn : n ≤ data.size) {iAmt : Nat} (hread : 0 < iAmt ∨ iOfst ≠ n) :
    bufferRead data n iAmt iOfst =
      (if n < iOfst + iAmt then .ioerrShortRead else .ok,
        SparseFile.ofFn iAmt fun i => (data.truncate n).get (iOfst + i)) := by
  unfold bufferRead
  split
  · next h =>
    have hpast : n ≤ iOfst := by omega
    rw [if_pos (by omega)]
    refine Prod.ext rfl (SparseFile.ext rfl fun i => ?_)
    simp only [zeroFill, SparseFile.truncate_get, SparseFile.ofFn_get, SparseFile.empty_get,
      if_neg (show ¬ iOfst + i < n by omega)]
  split
  · next h hle =>
    rw [if_neg (by omega)]
    refine Prod.ext rfl (SparseFile.ext rfl fun i => ?_)
    rw [SparseFile.truncate_get, SparseFile.ofFn_get]
    split
    · next hi => rw [SparseFile.slice_get_of_lt _ hi, SparseFile.truncate_get, if_pos (by omega)]
    · rfl
  · next h hlt =>
    rw [if_pos (by omega)]
    refine Prod.ext rfl (SparseFile.ext rfl fun i => ?_)
    simp only [SparseFile.truncate_get, SparseFile.ofFn_get, SparseFile.slice_get]
    split
    · split
      · rw [if_pos (by omega)]
      · rw [if_neg (by omega)]
    · rfl

end Buffers

/-! ## What the calls return -/

section Returns

variable {p : ObjsFile}

abbrev always : (r : Req) → Ans r → Prop := fun _ _ => True

/-- `bufferEnsure` fails, or grows the buffer with zeros, whatever it is answered. -/
theorem returns_bufferEnsure {buf : Bytes} {n m : Nat} (hb : Buffered buf n) :
    Returns always (fun r => r.2 = .ok → Buffered r.1 m ∧ buf.size ≤ r.1.size ∧
      ∀ i, r.1.get i = buf.get i) (bufferEnsure buf m) := by
  apply returns_iff_wp.mpr
  have hquiet : Quiet (.alone fun _ (_ : Unit) _ _ => True) := fun _ _ _ _ _ _ => ⟨rfl, trivial⟩
  rw [← bind_pure (bufferEnsure buf m)]
  refine wp_bufferEnsure_bind hquiet hb ?_ ?_
  · exact wp_alone_ret.mpr fun h => by cases h
  · exact fun buf' hb' hle hget => wp_alone_ret.mpr fun _ => ⟨hb', hle, hget⟩

/-- The buffer after a write. -/
theorem returns_bufferWrite {data : Bytes} {n : Nat} (hb : Buffered data n) (buf : Bytes)
    (iOfst : Nat) : Returns always (fun r => r.2.2 = .ok → Buffered r.1 r.2.1 ∧
      r.2.1 = max n (iOfst + buf.size) ∧
      (∀ i, r.1.get i =
        if iOfst ≤ i ∧ i < iOfst + buf.size then buf.get (i - iOfst) else data.get i) ∧
      ((∀ i, n ≤ i → i < iOfst → data.get i = 0) →
        r.1.truncate r.2.1 = IdealFile.write (data.truncate n) buf iOfst))
      (bufferWrite data n buf iOfst) := by
  unfold bufferWrite
  refine (returns_bufferEnsure hb).bind ?_
  rintro ⟨data', rc⟩ h
  dsimp only at h ⊢
  split
  · next hrc => exact returns_ret.mpr fun hok => absurd hok hrc
  next hrc =>
  obtain ⟨hb', hle, hget⟩ := h (Decidable.not_not.mp hrc)
  have hn := hb.le
  have hend := hb'.le
  refine returns_ret.mpr fun _ => ⟨?_, rfl, fun i => ?_, fun hgap => ?_⟩
  · exact hb'.of_size (SparseFile.pwrite_size_of_le _ _ hend) (Nat.max_le.mpr ⟨by omega, hend⟩)
  · rw [SparseFile.pwrite_get, hget]
  · have hcut : data'.truncate n = data.truncate n :=
      SparseFile.ext rfl fun i => by rw [SparseFile.truncate_get, SparseFile.truncate_get, hget]
    rw [← hcut]
    exact write_truncate_iff.mpr fun i h1 h2 => (hget i).trans (hgap i h1 h2)

theorem FileInv.content_size (h : FileInv p) : p.content.size = sqliteObjsFileSize p := by
  have hk := h.kind
  unfold ObjsFile.content sqliteObjsFileSize
  cases hft : p.eFileType with
  | mainDb => exact absurd hft hk
  | mainJournal => rfl
  | wal => rfl

/-- When a call on a file does what it does on the ideal file: a read of no bytes does not start at
the end, a write to a WAL leaves no gap over earlier bytes. -/
def FileCall.Clear : FileCall → ObjsFile → Prop
  | .read iAmt iOfst, p => 0 < iAmt ∨ iOfst ≠ sqliteObjsFileSize p
  | .write _ iOfst, p => GapClear p iOfst
  | _, _ => True

/-- A truncation does not go above the size. -/
def FileCall.Shrinks : FileCall → ObjsFile → Prop
  | .truncate size, p => size ≤ sqliteObjsFileSize p
  | _, _ => True

/-- One call: the file stays in order, and a call that succeeds and is clear is that of the ideal
file. -/
def LikeFile (c : FileCall) (p : ObjsFile) (r : ObjsFile × FileResult) : Prop :=
  r.2.Succeeded → FileInv r.1 ∧
    (c.Clear p → (r.1.content, r.2) = IdealFile.step p.content c)

theorem returns_read (h : FileInv p) (iAmt iOfst : Nat) :
    Returns always (LikeFile (.read iAmt iOfst) p) ((FileCall.read iAmt iOfst).code p) := by
  have hk := h.kind
  show Returns always _
    (sqliteObjsRead p iAmt iOfst >>= fun r => pure (r.1, FileResult.data r.2.1 r.2.2))
  unfold sqliteObjsRead
  cases hft : p.eFileType with
  | mainDb => exact absurd hft hk
  | mainJournal =>
    refine fun _ => ⟨h, fun hclear => ?_⟩
    simp only [FileCall.Clear, sqliteObjsFileSize, hft] at hclear
    simp only [ObjsFile.content, hft, IdealFile.step, bufferRead_eq h.jrnl.le hclear,
      SparseFile.truncate_size]
  | wal =>
    refine fun _ => ⟨h, fun hclear => ?_⟩
    simp only [FileCall.Clear, sqliteObjsFileSize, hft] at hclear
    simp only [ObjsFile.content, hft, IdealFile.step, bufferRead_eq h.wal.le hclear,
      SparseFile.truncate_size]

theorem returns_write (h : FileInv p) (buf : Bytes) (iOfst : Nat) :
    Returns always (LikeFile (.write buf iOfst) p) ((FileCall.write buf iOfst).code p) := by
  have hk := h.kind
  show Returns always _ (sqliteObjsWrite p buf iOfst >>= fun r => pure (r.1, FileResult.code r.2))
  unfold sqliteObjsWrite
  cases hft : p.eFileType with
  | mainDb => exact absurd hft hk
  | mainJournal =>
    dsimp only
    rw [LawfulMonad.bind_assoc]
    refine (returns_bufferWrite h.jrnl buf iOfst).bind ?_
    rintro ⟨data, n, rc⟩ hw hok
    obtain ⟨hb, hn, hget, hlike⟩ := hw hok
    dsimp only at hb hn hget hlike
    refine ⟨{ h with kind := by simp, jrnl := hb, zeroed := fun i hi => ?_ }, fun _ => ?_⟩
    · have hi : n ≤ i := hi
      show data.get i = 0
      rw [hget, if_neg (by omega)]
      exact h.zeroed i (by omega)
    · obtain rfl : rc = .ok := hok
      simp only [ObjsFile.content, hft, IdealFile.step, hlike fun i hi _ => h.zeroed i hi]
  | wal =>
    dsimp only
    rw [LawfulMonad.bind_assoc]
    refine (returns_bufferWrite h.wal buf iOfst).bind ?_
    rintro ⟨data, n, rc⟩ hw hok
    obtain ⟨hb, -, -, hlike⟩ := hw hok
    refine ⟨{ h with kind := by simp, wal := hb }, fun hclear => ?_⟩
    obtain rfl : rc = .ok := hok
    simp only [ObjsFile.content, hft, IdealFile.step]
    rw [← hlike (hclear hft)]

theorem returns_truncate (h : FileInv p) {size : Nat} (hle : size ≤ sqliteObjsFileSize p) :
    Returns always (LikeFile (.truncate size) p) ((FileCall.truncate size).code p) := by
  have hk := h.kind
  show Returns always _ (sqliteObjsTruncate p size >>= fun r => pure (r.1, FileResult.code r.2))
  unfold sqliteObjsTruncate
  unfold sqliteObjsFileSize at hle
  cases hft : p.eFileType with
  | mainDb => exact absurd hft hk
  | mainJournal =>
    simp only [hft] at hle
    dsimp only
    split
    · next hlt =>
      have hjrnl := h.jrnl.le
      have hbuf : size < p.aJrnlData.size := by omega
      rw [if_pos hbuf]
      refine fun _ => ⟨{ h with kind := by simp, jrnl := ?_, zeroed := fun i hi => ?_ },
        fun _ => ?_⟩
      · exact h.jrnl.of_size (SparseFile.truncate_size _ _) (show size ≤ p.aJrnlData.size by omega)
      · have hi : size ≤ i := hi
        show ((p.aJrnlData.truncate size).truncate p.aJrnlData.size).get i = 0
        rw [SparseFile.truncate_get_of_le _ (by rw [SparseFile.truncate_size]; omega),
          SparseFile.truncate_get, if_neg (by omega)]
      · simp only [ObjsFile.content, hft, IdealFile.step]
        refine Prod.ext (SparseFile.ext rfl fun i => ?_) rfl
        simp only [SparseFile.truncate_get]
        split
        · rw [if_pos (by omega), if_pos (by omega)]
        · rfl
    · next hge =>
      obtain rfl : size = p.nJrnlData := by omega
      refine fun _ => ⟨h, fun _ => ?_⟩
      simp only [ObjsFile.content, hft, IdealFile.step]
      exact Prod.ext (SparseFile.truncate_self _).symm rfl
  | wal =>
    simp only [hft] at hle
    dsimp only
    split
    · next h0 =>
      rw [LawfulMonad.bind_assoc]
      refine returns_bind _ fun _ => ?_
      refine fun _ => ⟨{ h with kind := by simp, wal := ?_ }, fun _ => ?_⟩
      · exact h.wal.of_size (by simp) (Nat.zero_le _)
      · subst h0
        simp only [ObjsFile.content, hft, IdealFile.step]
        exact Prod.ext ((SparseFile.eq_empty rfl).trans (SparseFile.eq_empty rfl).symm) rfl
    split
    · next hlt =>
      have hwal := h.wal.le
      refine fun _ => ⟨{ h with kind := by simp, wal := h.wal.of_le (show size ≤ _ by omega) },
        fun _ => ?_⟩
      simp only [ObjsFile.content, hft, IdealFile.step]
      refine Prod.ext (SparseFile.ext rfl fun i => ?_) rfl
      simp only [SparseFile.truncate_get]
      split
      · rw [if_pos (by omega)]
      · rfl
    · next hge =>
      obtain rfl : size = p.nWalData := by omega
      refine fun _ => ⟨h, fun _ => ?_⟩
      simp only [ObjsFile.content, hft, IdealFile.step]
      exact Prod.ext (SparseFile.truncate_self _).symm rfl

theorem returns_fileCall (h : FileInv p) (c : FileCall) (hc : c.Shrinks p) :
    Returns always (LikeFile c p) (c.code p) := by
  cases c with
  | read iAmt iOfst => exact returns_read h iAmt iOfst
  | write buf iOfst => exact returns_write h buf iOfst
  | truncate size => exact returns_truncate h hc
  | fileSize =>
    exact fun _ => ⟨h, fun _ => Prod.ext rfl (congrArg FileResult.size h.content_size.symm)⟩

/-! ## Opening -/

variable {v : VfsData} {uri : UriParams}

theorem fileInv_newFile {ops : AzureOps} {ctx : Nat} {name : String} {ft : FileType}
    (hft : ft ≠ .mainDb) : FileInv (newFile ops ctx name uri ft) where
  kind := hft
  jrnl := buffered_empty
  wal := buffered_empty
  zeroed _ _ := SparseFile.empty_get _

/-- A new buffer that a blob is loaded into. -/
theorem returns_bufferEnsure_load (body : Bytes) :
    Returns always (fun r => r.2 = .ok → Buffered (r.1.pwrite 0 body) body.size ∧
      ∀ i, body.size ≤ i → (r.1.pwrite 0 body).get i = 0) (bufferEnsure .empty body.size) := by
  refine (returns_bufferEnsure buffered_empty).mono fun r h hok => ?_
  obtain ⟨hb, -, hget⟩ := h hok
  have hend := hb.le
  refine ⟨hb.of_size (SparseFile.pwrite_size_of_le _ _ (by omega)) hend, fun i hi => ?_⟩
  rw [SparseFile.pwrite_get, if_neg (by omega), hget]
  exact SparseFile.empty_get _

theorem returns_openJournal (h : FileInv p) (hnew : p.aJrnlData = .empty) :
    Returns always (fun r => ∀ p', r.2 = .ok p' → FileInv p') (openJournal v p) := by
  have hok : ∀ v' : VfsData, Returns always (fun r : VfsData × Except Rc ObjsFile =>
      ∀ p', r.2 = .ok p' → FileInv p') (pure (v', .ok p)) := by
    rintro v' _ ⟨⟩
    exact h
  unfold openJournal
  refine returns_bind _ fun ⟨v', ex⟩ => ?_
  refine Returns.ite (returns_bind _ fun buf => Returns.ite ?_ (hok _)) (hok _)
  rw [hnew]
  refine (returns_bufferEnsure_load buf.body).bind fun r hr => ?_
  dsimp only
  split
  · rintro _ ⟨⟩
  · next hrc =>
    rintro _ ⟨⟩
    obtain ⟨hb, hz⟩ := hr (Decidable.not_not.mp hrc)
    exact { h with jrnl := hb, zeroed := hz }

theorem returns_openWal (h : FileInv p) (hnew : p.aWalData = .empty) :
    Returns always (fun r => ∀ p', r = .ok p' → FileInv p') (openWal p) := by
  have herr : ∀ rc : Rc, Returns always (fun r : Except Rc ObjsFile =>
      ∀ p', r = .ok p' → FileInv p') (pure (.error rc)) := by
    rintro rc _ ⟨⟩
  have hok : Returns always (fun r : Except Rc ObjsFile => ∀ p', r = .ok p' → FileInv p')
      (pure (.ok p)) := by
    rintro _ ⟨⟩
    exact h
  unfold openWal
  refine Returns.ite (herr _) (returns_bind _ fun ⟨arc, ex⟩ => ?_)
  refine Returns.ite (herr _) (Returns.ite hok (returns_bind _ fun buf => ?_))
  refine Returns.ite (herr _) (Returns.ite hok ?_)
  rw [hnew]
  refine (returns_bufferEnsure_load buf.body).bind fun r hr => ?_
  dsimp only
  split
  · exact herr _
  · next hrc =>
    rintro _ ⟨⟩
    obtain ⟨hb, -⟩ := hr (Decidable.not_not.mp hrc)
    exact { h with wal := hb }

/-- A journal or WAL is in order when it has been opened. -/
theorem returns_open {ft : FileType} (hft : ft ≠ .mainDb) (name : String) (create : Bool) :
    Returns always (fun r => ∀ p, r.2 = .ok p → FileInv p)
    (sqliteObjsOpen v name uri ft create) := by
  have herr : ∀ rc : Rc, Returns always (fun r : VfsData × Except Rc ObjsFile =>
      ∀ p, r.2 = .ok p → FileInv p) (pure (v, .error rc)) := by
    rintro rc _ ⟨⟩
  unfold sqliteObjsOpen
  refine Returns.ite (herr _) (returns_bind _ fun m => Returns.ite (herr _) (returns_bind _ ?_))
  rintro (_ | ⟨ops, ctx⟩)
  · exact herr _
  have hnew : FileInv (newFile ops ctx name uri ft) := fileInv_newFile hft
  cases ft with
  | mainDb => exact absurd rfl hft
  | mainJournal => exact returns_openJournal hnew rfl
  | wal => exact (returns_openWal hnew rfl).bind fun r hr => hr

end Returns

/-! ## Runs -/

section Runs

variable {serve : (r : Req) → World → Ans r → World → Prop}

/-- The calls `cs` on a file all succeed and return `rs`; each satisfies `K` in the state it is made
in. -/
inductive Plays (serve : (r : Req) → World → Ans r → World → Prop)
    (K : FileCall → ObjsFile → Prop) :
    ObjsFile → World → List FileCall → List FileResult → ObjsFile → World → Prop
  | nil (p : ObjsFile) (w : World) : Plays serve K p w [] [] p w
  | cons {p p' p'' : ObjsFile} {w w' w'' : World} {c : FileCall} {r : FileResult}
      {cs : List FileCall} {rs : List FileResult} : K c p → Runs serve (c.code p) w (p', r) w' →
      r.Succeeded → Plays serve K p' w' cs rs p'' w'' →
      Plays serve K p w (c :: cs) (r :: rs) p'' w''

/-- From any state in order the results are those of the ideal file. -/
theorem Plays.run_eq {p p' : ObjsFile} {w w' : World} {cs : List FileCall} {rs : List FileResult}
    (h : Plays serve (fun c p => c.Shrinks p ∧ c.Clear p) p w cs rs p' w') (hp : FileInv p) :
    IdealFile.run p.content cs = (p'.content, rs) := by
  induction h with
  | nil p w => rfl
  | @cons p p' p'' w w' w'' c r cs rs hK hr hok _ ih =>
    have hlike := (returns_fileCall hp c hK.1).of_runs (fun _ _ _ _ _ => trivial) hr
    obtain ⟨hp', hstep⟩ := hlike hok
    unfold IdealFile.run
    rw [← hstep hK.2]
    dsimp only
    rw [ih hp']

/-- **Journals and WALs are files**, in every run of successful calls in which every write to a WAL
that starts past the end finds the gap clear, and no read of nothing starts at the end. -/
theorem buffers_are_files {v v' : VfsData} {name : String} {uri : UriParams} {ft : FileType}
    {create : Bool} {w w₁ w' : World} {p p' : ObjsFile} {cs : List FileCall} {rs : List FileResult}
    (hft : ft ≠ .mainDb)
    (hopen : Runs serve (sqliteObjsOpen v name uri ft create) w (v', .ok p) w₁)
    (h : Plays serve (fun c p => c.Shrinks p ∧ c.Clear p) p w₁ cs rs p' w') :
    IdealFile.run p.content cs = (p'.content, rs) :=
  h.run_eq ((returns_open hft name create).of_runs (fun _ _ _ _ _ => trivial) hopen p rfl)

/-- Two bytes are written, the second is cut off, and a write leaves a gap where it was. -/
def gapCalls : List FileCall :=
  [.write (SparseFile.ofFn 2 fun _ => 7) 0, .truncate 1, .write (SparseFile.ofFn 1 fun _ => 9) 2,
    .read 3 0]

/-- The byte that was cut off is written again before a write leaves a gap. -/
def clearGapCalls : List FileCall :=
  [.write (SparseFile.ofFn 2 fun _ => 7) 0, .truncate 1, .write (SparseFile.ofFn 1 fun _ => 9) 1,
    .write (SparseFile.ofFn 1 fun _ => 9) 3, .read 4 0]

/-- A journal with a gap over the byte that was cut off, and a WAL with a gap past it. -/
theorem buffers_are_files_gaps :
    (∃ v p w₁ rs p' w',
      Runs (World.served Healthy) (sqliteObjsOpen (.new 0) "db-journal" {} .mainJournal true) .new
        (v, .ok p) w₁ ∧
      Plays (World.served Healthy) (fun c p => c.Shrinks p ∧ c.Clear p) p w₁ gapCalls rs p' w' ∧
      IdealFile.run p.content gapCalls = (p'.content, rs)) ∧
    ∃ v p w₁ rs p' w',
      Runs (World.served Healthy) (sqliteObjsOpen (.new 0) "db-wal" {} .wal true) .new
        (v, .ok p) w₁ ∧
      Plays (World.served Healthy) (fun c p => c.Shrinks p ∧ c.Clear p) p w₁
        clearGapCalls rs p' w' ∧ IdealFile.run p.content clearGapCalls = (p'.content, rs) := by
  constructor
  · obtain ⟨v, p, w₁, rs, p', w', hopen, hplay⟩ : ∃ v p w₁ rs p' w',
        Runs (World.served Healthy) (sqliteObjsOpen (.new 0) "db-journal" {} .mainJournal true) .new
          (v, .ok p) w₁ ∧
        Plays (World.served Healthy) (fun c p => c.Shrinks p ∧ c.Clear p) p w₁
          gapCalls rs p' w' := by
      exact ⟨_, _, _, _, _, _, World.runs_of_exec 3 rfl,
        .cons ⟨trivial, fun h => by cases h⟩ (World.runs_of_exec 3 rfl) rfl
          (.cons ⟨(by decide : (1 : Nat) ≤ 2), trivial⟩ (World.runs_of_exec 3 rfl) rfl
            (.cons ⟨trivial, fun h => by cases h⟩ (World.runs_of_exec 3 rfl) rfl
              (.cons ⟨trivial, .inl (by decide)⟩ (World.runs_of_exec 3 rfl) (.inl rfl)
                (.nil _ _))))⟩
    exact ⟨v, p, w₁, rs, p', w', hopen, hplay, buffers_are_files (by decide) hopen hplay⟩
  · have hgap : ∀ {p : ObjsFile} {n iOfst : Nat}, p.nWalData = n → n = iOfst →
        GapClear p iOfst := by
      rintro p n iOfst hn rfl - i h₁ h₂
      omega
    obtain ⟨v, p, w₁, rs, p', w', hopen, hplay⟩ : ∃ v p w₁ rs p' w',
        Runs (World.served Healthy) (sqliteObjsOpen (.new 0) "db-wal" {} .wal true) .new
          (v, .ok p) w₁ ∧
        Plays (World.served Healthy) (fun c p => c.Shrinks p ∧ c.Clear p) p w₁ clearGapCalls rs p'
          w' := by
      refine ⟨_, _, _, _, _, _, World.runs_of_exec 3 rfl,
        .cons ⟨trivial, hgap rfl rfl⟩ (World.runs_of_exec 3 rfl) rfl
          (.cons ⟨(by decide : (1 : Nat) ≤ 2), trivial⟩ (World.runs_of_exec 3 rfl) rfl
            (.cons ⟨trivial, hgap rfl rfl⟩ (World.runs_of_exec 3 rfl) rfl
              (.cons ⟨trivial, fun _ i h₁ h₂ => ?_⟩ (World.runs_of_exec 3 rfl) rfl
                (.cons ⟨trivial, .inl (by decide)⟩ (World.runs_of_exec 3 rfl) (.inl rfl)
                  (.nil _ _)))))⟩
      obtain rfl : i = 2 := Nat.le_antisymm (Nat.le_of_lt_succ h₂) h₁
      rfl
    exact ⟨v, p, w₁, rs, p', w', hopen, hplay, buffers_are_files (by decide) hopen hplay⟩

/-- The calls with a gap over the cut byte on a WAL: that byte is read again. -/
theorem wal_shows_stale_byte : ∃ v p w₁ rs p' w',
    Runs (World.served Healthy) (sqliteObjsOpen (.new 0) "db-wal" {} .wal true) .new
      (v, .ok p) w₁ ∧
    Plays (World.served Healthy) (fun c p => c.Shrinks p) p w₁ gapCalls rs p' w' ∧
    (IdealFile.run p.content gapCalls).2 ≠ rs := by
  refine ⟨_, _, _, _, _, _, World.runs_of_exec 3 rfl,
    .cons trivial (World.runs_of_exec 3 rfl) rfl
      (.cons (by decide : (1 : Nat) ≤ 2) (World.runs_of_exec 3 rfl) rfl
        (.cons trivial (World.runs_of_exec 3 rfl) rfl
          (.cons trivial (World.runs_of_exec 3 rfl) (.inl rfl) (.nil _ _)))), fun h => ?_⟩
  have hread := Option.some.inj (congrArg (fun rs : List FileResult => rs[3]?) h)
  injection hread with _ hbytes
  exact absurd (congrArg (fun bytes : Bytes => bytes.get 1) hbytes) (by decide)

end Runs

end SqliteObjs
