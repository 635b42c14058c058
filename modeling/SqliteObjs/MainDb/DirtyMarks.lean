import SqliteObjs.MainDb.Durability

/-!
# Dirty marks

A write marks its pages in the dirty bitmap, and a mark past the end of the bitmap is
dropped. `xWrite` grows the bitmap only together with the cache file: when the cache
file is long enough already, because `xTruncate` made it longer or because an earlier
write failed for want of memory after it did, the bitmap stays as it is.

A session of writes, truncations and syncs keeps the bitmap as long as the file, and
every page written since the last sync marked, when each write that makes the file
longer ends past the end of the cache file, or on a page the bitmap has a bit for.
-/

set_option autoImplicit false

namespace SqliteObjs

open Data CS CS.Program

/-! ## What the marks depend on -/

/-- The fields of an open file that its dirty marks depend on. -/
structure Marks where
  eFileType : FileType
  nData : Nat
  pageSize : Nat
  dirty : Bitmap

def ObjsFile.marks (p : ObjsFile) : Marks where
  eFileType := p.eFileType
  nData := p.nData
  pageSize := p.pageSize
  dirty := p.dirty

namespace Marks

/-- A database with a page size. -/
structure Paged (m : Marks) : Prop where
  kind : m.eFileType = .mainDb
  page : 0 < m.pageSize

/-- The dirty bitmap has a bit for every page. -/
def Covered (m : Marks) : Prop := pagesOf m.nData m.pageSize ≤ 8 * m.dirty.nAlloc

/-- A file that was opened: its bitmap is large enough as far as an `int` counts. -/
structure Opened (m : Marks) : Prop extends Paged m where
  covered : pagesOf m.nData m.pageSize ≤ maxPages → m.Covered

/-- A file in use. -/
structure Intact (m : Marks) : Prop extends Paged m where
  covered : m.Covered
  counted : m.dirty.Counted

theorem opened_empty {m : Marks} (h : m.Paged) (h0 : m.nData = 0) : m.Opened := by
  refine { h with covered := fun _ => ?_ }
  have hpos := h.page
  unfold Covered pagesOf
  rw [h0, Nat.div_eq_of_lt (by omega)]
  exact Nat.zero_le _

theorem Opened.clear {m : Marks} (h : m.Opened) :
    Opened { m with dirty := bitmapClearAll m.dirty } :=
  { h with
    covered := fun hsmall => by
      unfold Covered
      rw [Bitmap.nAlloc_clearAll]
      exact h.covered hsmall }

theorem Intact.clear {m : Marks} (h : m.Intact) :
    Intact { m with dirty := bitmapClearAll m.dirty } :=
  { h with
    covered := by
      unfold Covered
      rw [Bitmap.nAlloc_clearAll]
      exact h.covered
    counted := Bitmap.counted_clearAll _ }

end Marks

/-! ## Growing the bitmaps -/

/-- Answers in which no allocation fails. -/
def Allocating (A : (r : Req) → Ans r → Prop) : Prop :=
  ∀ n (x : SysReply), A (.sys (.malloc n)) x → x.ok = true

section Open

variable {A : (r : Req) → Ans r → Prop} {p : ObjsFile} {fd : Fd}

theorem returns_sys_bind {α : Type} {Q : α → Prop} {r : SysReq} {f : SysReply → Prog α}
    (hf : ∀ x, A (.sys r) x → Returns A Q (f x)) : Returns A Q (sys r >>= f) := hf

theorem returns_bitmapEnsureCapacity (bm : Bitmap) (fileSize ps : Nat) :
    Returns A (fun r => bm.Extends r.1 ∧ (Allocating A → r.2 = .ok) ∧
      (r.2 = .ok → bitmapSize fileSize ps ≤ r.1.nAlloc)) (bitmapEnsureCapacity bm fileSize ps) := by
  unfold bitmapEnsureCapacity
  dsimp only
  split
  · next hle => exact ⟨.refl bm, fun _ => rfl, fun _ => by dsimp only; omega⟩
  split
  · next hle => exact ⟨.refl bm, fun _ => rfl, fun _ => hle⟩
  refine returns_sys_bind fun m hm => ?_
  split
  · next hno =>
    refine ⟨.refl bm, fun hal => ?_, fun h => by cases h⟩
    rw [hal _ m hm] at hno
    cases hno
  · refine ⟨bm.extends_grow (bitmapSize fileSize ps).toNat, fun _ => rfl, fun _ => ?_⟩
    have hn := bm.nAlloc_grow (bitmapSize fileSize ps).toNat
    unfold Bitmap.grow at hn
    rw [hn]
    omega

theorem returns_bitmapsEnsureCapacity (p : ObjsFile) :
    Returns A (fun r => Grown p r.1 ∧ (Allocating A → r.2 = .ok) ∧
      (r.2 = .ok → bitmapSize p.nData p.pageSize ≤ r.1.dirty.nAlloc))
      (bitmapsEnsureCapacity p) := by
  unfold bitmapsEnsureCapacity
  refine (returns_bitmapEnsureCapacity p.dirty _ _).bind fun (dirty, rc) ⟨hext, hal, hroom⟩ => ?_
  dsimp only at hext hal hroom ⊢
  split
  · next hne => exact ⟨⟨rfl, hext, .refl _, fun _ => rfl⟩, hal, fun h => absurd h hne⟩
  next heq =>
  have hroom' := hroom (by simpa using heq)
  split
  · next hlazy =>
    refine (returns_bitmapEnsureCapacity p.valid _ _).bind fun (valid, rc') ⟨hext', hal', _⟩ => ?_
    exact ⟨⟨rfl, hext, hext', fun hm => absurd hlazy hm⟩, hal', fun _ => hroom'⟩
  · exact ⟨⟨rfl, hext, .refl _, fun _ => rfl⟩, fun _ => rfl, fun _ => hroom'⟩

theorem Grown.marks {p' : ObjsFile} (h : Grown p p') :
    p'.marks = { p.marks with dirty := p'.dirty } := by
  rw [h.eq]
  rfl

theorem Grown.opened {p' : ObjsFile} (h : Grown p p') (hp : p.marks.Paged)
    (hroom : bitmapSize p.nData p.pageSize ≤ p'.dirty.nAlloc) : p'.marks.Opened := by
  rw [h.marks]
  exact { hp with covered := fun hsmall => room_of_bitmapSize hp.page hsmall hroom }

/-! ## Opening -/

/-- What a failed or finished piece of `xOpen` returns. -/
def OpensCovered : Except Rc ObjsFile → Prop
  | .error _ => True
  | .ok p => p.marks.Opened

theorem returns_redetectPageSize (hp : p.marks.Paged) :
    Returns A (fun p' => p'.marks.Paged ∧ p'.nData = p.nData) (redetectPageSize p fd) := by
  unfold redetectPageSize
  refine returns_sys_bind fun x _ => ?_
  split
  · dsimp only
    split
    · next hpos => exact ⟨⟨hp.kind, hpos⟩, rfl⟩
    · exact ⟨hp, rfl⟩
  · exact ⟨hp, rfl⟩

theorem OnlyValid.marks {p' : ObjsFile} (h : OnlyValid p p') : p'.marks = p.marks := by
  rw [show p' = _ from h]
  rfl

/-- A cache file was made for the file. -/
def CacheOf (p : ObjsFile) : Except Rc (ObjsFile × Fd) → Prop
  | .error _ => True
  | .ok q => q.1.marks = p.marks

theorem returns_openTempCache (uri : UriParams) : Returns A (CacheOf p) (openTempCache p uri) := by
  unfold openTempCache
  refine returns_sys_bind fun _ _ => .ite trivial ?_
  exact returns_sys_bind fun _ _ => .ite trivial rfl

theorem returns_openFreshCache (path : Path) :
    Returns A (CacheOf p) (openFreshCache p path) := by
  unfold openFreshCache
  exact returns_sys_bind fun _ _ => .ite trivial rfl

theorem returns_failDownload (rc : Rc) : Returns A OpensCovered (failDownload p rc) := by
  unfold failDownload
  split
  · trivial
  · exact returns_sys_bind fun _ _ => trivial

variable (hal : Allocating A)
include hal

/-- The end of every download: the page size from the header, then the bitmaps. -/
theorem returns_redetect_bind {α : Type} {Q : α → Prop} {f : ObjsFile × Rc → Prog α}
    (hp : p.marks.Paged) (hf : ∀ p' rc, p'.marks.Opened → Returns A Q (f (p', rc))) :
    Returns A Q (do
      let p ← redetectPageSize p fd
      let r ← bitmapsEnsureCapacity p
      f r) := by
  refine (returns_redetectPageSize hp).bind fun p₁ ⟨hp₁, _⟩ => ?_
  refine (returns_bitmapsEnsureCapacity p₁).bind fun (p₂, rc) ⟨hgrown, hok, hroom⟩ => ?_
  exact hf p₂ rc (hgrown.opened hp₁ (hroom (hok hal)))

theorem returns_lazyDownload (hp : p.marks.Paged) (n : Nat) :
    Returns A OpensCovered (lazyDownload p fd n) := by
  unfold lazyDownload
  refine returns_sys_bind fun _ _ => .ite (returns_failDownload _) ?_
  refine returns_bind _ fun bbuf => .ite (returns_failDownload _) ?_
  refine returns_sys_bind fun _ _ => .ite (returns_failDownload _) ?_
  refine returns_redetect_bind hal (p := { p with nData := n }) ⟨hp.kind, hp.page⟩ fun p' rc h => ?_
  dsimp only
  have hv := (onlyValid_validMarkRange { p' with valid := bitmapClearAll p'.valid } 0
    (bbuf.body.slice 0 (min page1Bootstrap n)).size).marks
  generalize validMarkRange _ _ _ = q at hv ⊢
  have hq : q.marks = p'.marks := hv
  show q.marks.Opened
  rw [hq]
  exact h

theorem returns_eagerDownload (hp : p.marks.Paged) (n : Nat) :
    Returns A OpensCovered (eagerDownload p fd n) := by
  unfold eagerDownload
  refine returns_sys_bind fun _ _ => .ite (returns_failDownload _) ?_
  refine returns_bind _ fun (arc, data) => ?_
  dsimp only
  refine .ite (returns_failDownload _) ?_
  refine returns_bind _ fun written => .ite (returns_failDownload _) ?_
  refine returns_sys_bind fun _ _ => .ite (returns_failDownload _) ?_
  exact returns_redetect_bind hal (p := { p with nData := n }) ⟨hp.kind, hp.page⟩ fun _ _ h => h

theorem returns_cacheDownload (hp : p.marks.Paged) (n : Nat) :
    Returns A OpensCovered (cacheDownload p fd n) := by
  unfold cacheDownload
  split
  · exact Marks.opened_empty ⟨hp.kind, hp.page⟩ rfl
  · exact .ite (returns_lazyDownload hal hp n) (returns_eagerDownload hal hp n)

omit hal in
theorem returns_clearValid : Returns A (fun p' => p'.marks = p.marks) (do
    let (valid, _) ← bitmapEnsureCapacity p.valid p.nData p.pageSize
    return { p with valid := bitmapClearAll valid }) :=
  returns_bind _ fun _ => rfl

omit hal in
theorem returns_loadValid (path : Path) :
    Returns A (fun p' => p'.marks = p.marks) (loadValid p path) := by
  unfold loadValid
  split
  · rfl
  dsimp only
  refine returns_bind _ fun r => ?_
  split
  · exact returns_clearValid
  · exact .ite rfl returns_clearValid

theorem returns_adoptCache (hp : p.marks.Paged) (path : Path) (n : Nat) :
    Returns A (fun p' => p'.marks.Opened) (adoptCache p path fd n) := by
  unfold adoptCache
  refine returns_redetect_bind hal ?_ fun p' rc h => ?_
  · exact ⟨hp.kind, hp.page⟩
  refine returns_bind _ fun snapshot => ?_
  refine (returns_loadValid path).mono fun p'' hm => ?_
  rw [hm]
  exact h

omit hal in
theorem returns_applyDiffRanges : ∀ (rs : List DiffRange) {p : ObjsFile},
    Returns A (fun r => r.1.marks = p.marks) (applyDiffRanges fd rs p)
  | [], _ => rfl
  | r :: rs, p => by
    have hstore : ∀ start data, Returns A (fun r => r.1.marks = p.marks)
        (storeDiff p fd start data) := by
      intro start data
      unfold storeDiff
      refine returns_sys_bind fun _ _ => .ite rfl (.ite ?_ rfl)
      exact (onlyValid_validMarkRange p _ _).marks
    unfold applyDiffRanges
    dsimp only
    refine .ite (returns_applyDiffRanges rs) (.ite ?_ ?_)
    · refine returns_sys_bind fun _ _ => .ite rfl ?_
      refine (hstore _ _).bind ?_
      rintro ⟨p', ok⟩ hm
      dsimp only at hm ⊢
      refine .ite hm ((returns_applyDiffRanges rs).mono fun _ h => h.trans hm)
    · refine returns_bind _ fun _ => .ite rfl ?_
      refine (hstore _ _).bind ?_
      rintro ⟨p', ok⟩ hm
      dsimp only at hm ⊢
      refine .ite hm ((returns_applyDiffRanges rs).mono fun _ h => h.trans hm)

theorem returns_applyIncrementalDiff (hp : p.marks.Paged) (n : Nat) :
    Returns A (fun r => r.1.marks.Paged ∧ (r.2 = true → r.1.marks.Opened))
      (applyIncrementalDiff p fd n) := by
  have hno : ∀ {p' : ObjsFile}, p'.marks.Paged →
      p'.marks.Paged ∧ (false = true → p'.marks.Opened) := fun h => ⟨h, fun h' => by cases h'⟩
  unfold applyIncrementalDiff
  split
  · exact hno hp
  refine .ite (hno hp) ?_
  refine returns_bind _ fun diff => .ite (hno hp) ?_
  refine returns_bind _ fun grown => .ite (hno hp) ?_
  refine (returns_applyDiffRanges _).bind fun (p₁, ok) hm => ?_
  have hp₁ : p₁.marks.Paged := by
    rw [show p₁.marks = p.marks from hm]
    exact hp
  dsimp only
  refine .ite (hno hp₁) ?_
  refine returns_bind _ fun _ => returns_sys_bind fun _ _ => ?_
  refine returns_redetect_bind hal (p := { p₁ with nData := n }) ⟨hp₁.kind, hp₁.page⟩
    fun p' rc h => ?_
  exact ⟨h.clear.toPaged, fun _ => h.clear⟩

theorem returns_openStaleCache (hp : p.marks.Paged) (path : Path) (s : Snapshot) (n : Nat) :
    Returns A OpensCovered (openStaleCache p path fd s n) := by
  unfold openStaleCache
  refine returns_sys_bind fun x _ => ?_
  dsimp only
  refine (returns_bitmapsEnsureCapacity _).bind fun (p₁, rc) ⟨hgrown, _⟩ => ?_
  have hp₁ : p₁.marks.Paged := by
    rw [hgrown.marks]
    exact ⟨hp.kind, hp.page⟩
  refine (returns_applyIncrementalDiff hal (p := { p₁ with lastSyncedSize := p₁.nData })
    ⟨hp₁.kind, hp₁.page⟩ n).bind fun (p₂, ok) ⟨hp₂, hok⟩ => ?_
  dsimp only at hp₂ hok ⊢
  split
  · next h => exact hok h
  refine returns_sys_bind fun _ _ => returns_sys_bind fun _ _ => ?_
  exact returns_cacheDownload hal (p := { p₂ with nData := 0, snapshot := none })
    ⟨hp₂.kind, hp₂.page⟩ n

theorem returns_freshDownload (hp : p.marks.Paged) (path : Path) (n : Nat) :
    Returns A OpensCovered (do
      match ← openFreshCache p path with
      | .error rc => return .error rc
      | .ok (p, fd) => cacheDownload p fd n) := by
  refine (returns_openFreshCache path).bind fun r hr => ?_
  split
  · trivial
  · exact returns_cacheDownload hal (hr.symm ▸ hp) n

theorem returns_openMismatch (hp : p.marks.Paged) (path : Path) (n : Nat) :
    Returns A OpensCovered (openMismatch p path n) := by
  have hfresh := returns_freshDownload hal hp path n
  unfold openMismatch
  dsimp only
  refine returns_bind _ fun snapshot => ?_
  split
  · exact hfresh
  · refine returns_sys_bind fun f _ => .ite hfresh ?_
    exact returns_openStaleCache hal hp path _ n

theorem returns_openReuse (hp : p.marks.Paged) (path : Path) (n : Nat) :
    Returns A OpensCovered (openReuse p path n) := by
  have hmis := returns_openMismatch hal hp path n
  unfold openReuse
  refine returns_bind _ fun stored => .ite ?_ hmis
  refine returns_sys_bind fun f _ => .ite hmis ?_
  refine returns_sys_bind fun cachedSize _ => .ite ?_ hmis
  exact (returns_adoptCache hal hp path n).bind fun _ h => h

theorem returns_openTemp (hp : p.marks.Paged) (uri : UriParams) (n : Nat) :
    Returns A OpensCovered (openTemp p uri n) := by
  unfold openTemp
  refine (returns_openTempCache uri).bind fun r hr => ?_
  split
  · trivial
  · exact returns_cacheDownload hal (hr.symm ▸ hp) n

theorem returns_openExisting (hp : p.marks.Paged) (uri : UriParams) :
    Returns A OpensCovered (openExisting p uri) := by
  unfold openExisting
  refine returns_bind _ fun head => .ite trivial ?_
  have hp' : ObjsFile.marks { p with etag := head.etag } |>.Paged := ⟨hp.kind, hp.page⟩
  dsimp only
  refine .ite ?_ (returns_openTemp hal hp' uri _)
  refine returns_bind _ fun path => ?_
  split
  · exact returns_openTemp hal hp' uri _
  · exact returns_openReuse hal hp' _ _

omit hal in
theorem returns_openCreated (hp : p.marks.Paged) (uri : UriParams) :
    Returns A OpensCovered (openCreated p uri) := by
  have hcache : Returns A (CacheOf p) (newCache p uri) := by
    unfold newCache
    refine .ite (returns_bind _ fun path => ?_) (returns_openTempCache uri)
    split
    · exact returns_openTempCache uri
    · exact returns_openFreshCache _
  unfold openCreated
  refine returns_bind _ fun arc => .ite trivial ?_
  refine hcache.bind fun r hr => ?_
  split
  · trivial
  · next q _ =>
    have hq : q.marks.Paged := hr.symm ▸ hp
    exact Marks.opened_empty ⟨hq.kind, hq.page⟩ rfl

theorem returns_openMainDb (hp : p.marks.Paged) (h0 : p.nData = 0) (uri : UriParams)
    (create : Bool) : Returns A OpensCovered (openMainDb p uri create) := by
  unfold openMainDb
  refine returns_bind _ fun (arc, found) => ?_
  dsimp only
  refine .ite trivial (.ite (returns_openExisting hal hp uri) (.ite ?_ (.ite ?_ trivial)))
  · exact Marks.opened_empty hp h0
  · exact returns_openCreated hp uri

/-- A database opens with a bitmap for all its pages and no dirty page. -/
theorem returns_sqliteObjsOpen (v : VfsData) (name : String) (uri : UriParams) (create : Bool) :
    Returns A (fun r => ∀ p, r.2 = .ok p → p.marks.Opened ∧ p.dirty.Counted)
      (sqliteObjsOpen v name uri .mainDb create) := by
  have herr : ∀ rc : Rc, ∀ p : ObjsFile, (Except.error rc : Except Rc ObjsFile) = .ok p →
      p.marks.Opened ∧ p.dirty.Counted := fun rc p h => by cases h
  unfold sqliteObjsOpen
  refine .ite (herr _) ?_
  refine returns_sys_bind fun _ _ => .ite (herr _) ?_
  refine returns_bind _ fun sel => ?_
  split
  · exact herr _
  next ops ctx =>
  dsimp only
  refine (returns_openMainDb hal (p := newFile ops ctx name uri .mainDb) ⟨rfl, ?_⟩ rfl uri
    create).bind fun r hr => ?_
  · exact legalPageSize_default.pos
  intro p hp
  cases r with
  | error rc => cases hp
  | ok q =>
    obtain rfl := Except.ok.inj hp
    exact ⟨hr.clear, Bitmap.counted_clearAll _⟩

end Open

/-! ## Truncating and syncing -/

section Calls

variable {A : (r : Req) → Ans r → Prop} {p : ObjsFile}

theorem returns_leaseRenewIfNeeded :
    Returns A (fun r => r.1.marks = p.marks) (leaseRenewIfNeeded p) := by
  unfold leaseRenewIfNeeded
  split
  · rfl
  refine returns_sys_bind fun now _ => .ite rfl ?_
  exact returns_bind _ fun x => .ite rfl rfl

theorem marks_forgetPastEnd (p : ObjsFile) (size : Nat) :
    (forgetPastEnd p size).marks = { p.marks with nData := min size p.nData } := by
  rcases Nat.le_total size p.nData with hle | hle
  · rw [forgetPastEnd_eq p hle, Nat.min_eq_left hle]
    rfl
  · unfold forgetPastEnd
    rw [if_neg (by omega), Nat.min_eq_right hle]
    rfl

/-- A truncation shortens the file or leaves it, and keeps its marks. -/
theorem returns_mainDbTruncate (size : Nat) :
    Returns A (fun r => r.1.marks = p.marks ∨
      r.1.marks = { p.marks with nData := min size p.nData }) (mainDbTruncate p size) := by
  have hresize : Returns A (fun r => r.1.marks = p.marks) (resizeForTruncate p size) := by
    unfold resizeForTruncate
    exact .ite (returns_bind _ fun x => .ite rfl rfl) rfl
  have hforget : ∀ {q : ObjsFile}, q.marks = p.marks →
      (forgetPastEnd q size).marks = { p.marks with nData := min size p.nData } := by
    intro q hq
    rw [marks_forgetPastEnd, hq, show q.nData = p.nData from congrArg Marks.nData hq]
  unfold mainDbTruncate
  refine hresize.bind fun (q, rc) hq => ?_
  dsimp only at hq ⊢
  refine .ite (Or.inl hq) ?_
  split
  · exact Or.inr (hforget hq)
  · exact returns_sys_bind fun t _ => .ite (Or.inl hq) (Or.inr (hforget hq))

theorem returns_writeSequential : ∀ (rs : List PageRange) (i : Nat) (e : Option ETag)
    {p : ObjsFile}, Returns A (fun r => r.1.marks = p.marks) (writeSequential rs i e p)
  | [], _, _, _ => rfl
  | r :: rs, i, e, p => by
    have hrenew : Returns A (fun r => r.1.marks = p.marks) (renewEvery50 p i) := by
      unfold renewEvery50
      exact .ite returns_leaseRenewIfNeeded rfl
    unfold writeSequential
    refine hrenew.bind ?_
    rintro ⟨q, rc⟩ hq
    dsimp only at hq ⊢
    refine .ite hq (returns_bind _ fun x => .ite hq (.ite hq ?_))
    exact (returns_writeSequential rs _ _).mono fun _ h => h.trans hq

/-- A sync keeps the marks, or succeeds and clears them. -/
theorem returns_mainDbSync :
    Returns A (fun r => r.1.marks = p.marks ∨
      r.2 = .ok ∧ r.1.marks = { p.marks with dirty := bitmapClearAll p.dirty }) (mainDbSync p) := by
  have hresize : ∀ {q : ObjsFile}, Returns A (fun r => r.1.marks = q.marks) (resizeForSync q) := by
    intro q
    unfold resizeForSync
    exact .ite (returns_bind _ fun x => .ite rfl rfl) rfl
  have hwrite : ∀ {q : ObjsFile} (rs : List PageRange) (aerr : Option (Option ETag)),
      Returns A (fun r => r.1.marks = q.marks) (writeRanges q rs aerr) := by
    intro q rs aerr
    unfold writeRanges
    refine .ite (returns_bind _ fun x => .ite rfl (.ite rfl rfl)) ?_
    exact returns_bind _ fun e => returns_writeSequential rs 0 e
  have hfinish : ∀ {q : ObjsFile} (n : Int) (e : Option ETag), Returns A
      (fun q' => q'.marks = { q.marks with dirty := bitmapClearAll q.dirty })
      (finishFlush q n e) := by
    intro q n e
    unfold finishFlush
    split
    · rfl
    · exact returns_bind _ fun _ => rfl
  have hsnap : ∀ {q : ObjsFile}, Returns A (fun q' => q'.marks = q.marks) (takeSnapshot q) := by
    intro q
    unfold takeSnapshot
    refine .ite (returns_bind _ fun x => ?_) rfl
    split
    · rfl
    · rfl
  unfold mainDbSync
  refine .ite (Or.inl rfl) (.ite (Or.inl rfl) ?_)
  dsimp only
  refine returns_leaseRenewIfNeeded.bind fun (p₁, rc) h₁ => ?_
  dsimp only at h₁ ⊢
  refine .ite (Or.inl h₁) (hresize.bind fun (p₂, rc, aerr) h₂ => ?_)
  dsimp only at h₂ ⊢
  have h₂' : p₂.marks = p.marks := h₂.trans h₁
  refine .ite (Or.inl h₂') (returns_bind _ fun ranges => ?_)
  split
  · exact Or.inl h₂'
  refine returns_bind _ fun loaded => ?_
  split
  · exact Or.inl h₂'
  refine (hwrite _ aerr).bind fun (p₃, res) h₃ => ?_
  have h₃' : p₃.marks = p.marks := h₃.trans h₂'
  cases res with
  | error rc => exact Or.inl h₃'
  | ok etag =>
    dsimp only
    refine (hfinish _ etag).bind fun p₄ h₄ => hsnap.bind fun p₅ h₅ => returns_bind _ fun _ => ?_
    refine Or.inr ⟨rfl, ?_⟩
    rw [h₅, h₄, h₃', show p₃.dirty = p.dirty from congrArg Marks.dirty h₃']

end Calls

/-! ## Writing -/

section Write

variable {p : ObjsFile} {w : World} {fd : Fd}

/-- Whatever the environment decides. -/
abbrev anyAnswer : (r : Req) → World → Ans r → World → Prop := World.served fun _ => True

theorem seen_anyAnswer : Seen (.alone anyAnswer) id fun _ _ => True :=
  seen_alone fun _ _ _ _ h => h

theorem fact_true : Fact (.alone anyAnswer) fun _ => True where
  stable _ _ _ _ := trivial
  sys _ _ _ _ _ _ := trivial

/-- A successful growth leaves the cache file long enough; if the cache file was not, the
bitmap is. -/
theorem wp_extendCache (hfd : p.cacheFd = some fd) {prev fin : Nat} :
    wp (.alone anyAnswer) (extendCache p prev fin) (fun r _ => Grown p r.1 ∧ (r.2 = .ok →
      prev < fin → (w.disk.inode fd).size < fin →
      bitmapSize p.nData p.pageSize ≤ r.1.dirty.nAlloc)) w := by
  have hk : Knows id (fun _ => True) w.disk w := ⟨trivial, rfl⟩
  unfold extendCache
  split
  · unfold cacheEnsureSize
    rw [hfd]
    refine hk.wp_sys_bind seen_anyAnswer fact_true fun c w₁ _ hk₁ => ?_
    cases hc : c.sysFails with
    | true =>
      simp only [Disk.serve, hc, if_true, Bool.not_false]
      exact wp_alone_ret.mpr ⟨.refl p, fun h => by cases h⟩
    | false =>
      simp only [Disk.serve, hc, Bool.false_eq_true, if_false, Bool.not_true] at hk₁ ⊢
      split
      · next hle => exact wp_alone_ret.mpr ⟨.refl p, fun _ _ hlt => by omega⟩
      refine hk₁.wp_sys_bind seen_anyAnswer fact_true fun c' w₂ _ _ => ?_
      split
      · exact wp_alone_ret.mpr ⟨.refl p, fun h => by cases h⟩
      · refine wp_mono ?_ ((returns_bitmapsEnsureCapacity (A := fun _ _ => True) p).wp_alone
          fun _ _ _ _ _ => trivial)
        rintro r _ ⟨hgrown, -, hroom⟩
        exact ⟨hgrown, fun hok _ _ => hroom hok⟩
  · next hnot => exact wp_alone_ret.mpr ⟨.refl p, fun _ hlt => absurd hlt hnot⟩

/-- A write the bitmap can follow: its pages can be counted, and if it makes the file
longer it ends past the end of the cache file or on a page that has a bit. -/
def WriteFits (p : ObjsFile) (buf : Bytes) (iOfst : Nat) (w : World) : Prop :=
  pagesOf (iOfst + buf.size) p.pageSize ≤ maxPages ∧
  ∀ fd, p.cacheFd = some fd → p.nData < iOfst + buf.size →
    (w.disk.inode fd).size < iOfst + buf.size ∨
    pagesOf (iOfst + buf.size) p.pageSize ≤ 8 * p.dirty.nAlloc

/-- The pages of a write of `n` bytes. -/
def pagesWritten (ps iOfst n : Nat) (k : Nat) : Bool := iOfst / ps ≤ k ∧ k * ps < iOfst + n

/-- What a write leaves: the old marks, and those of its own pages if it succeeds. -/
structure Marked (p : ObjsFile) (iOfst n : Nat) (r : ObjsFile × Rc) : Prop where
  intact : r.1.marks.Intact
  pageSize : r.1.pageSize = p.pageSize
  kept : ∀ k, p.dirty.bit k = true → r.1.dirty.bit k = true
  written : r.2 = .ok → ∀ k, pagesWritten p.pageSize iOfst n k = true → r.1.dirty.bit k = true

/-- A write the bitmap can follow keeps it as long as the file and marks its pages. -/
theorem wp_mainDbWrite_marks (hi : p.marks.Intact) {buf : Bytes} {iOfst : Nat}
    (hfits : WriteFits p buf iOfst w) :
    wp (.alone anyAnswer) (mainDbWrite p buf iOfst) (fun r _ => Marked p iOfst buf.size r) w := by
  obtain ⟨hsmall, hroom⟩ := hfits
  have hpos : 0 < p.pageSize := hi.page
  -- a write that fails before the marks: the file is what it was, its bitmap no shorter
  have hfail : ∀ {q : ObjsFile} {rc : Rc} {n : Nat}, p.dirty.Extends q.dirty →
      q.marks = { p.marks with nData := n, dirty := q.dirty } →
      pagesOf n p.pageSize ≤ 8 * q.dirty.nAlloc → rc ≠ .ok → Marked p iOfst buf.size (q, rc) := by
    intro q rc n hext hq hcov hrc
    refine ⟨?_, congrArg Marks.pageSize hq, fun k hk => ?_, fun h => absurd h hrc⟩
    · rw [hq]
      exact { hi with covered := hcov, counted := hext.counted hi.counted }
    · rw [hext.bits]
      exact hk
  unfold mainDbWrite
  split
  · exact wp_alone_ret.mpr (hfail (.refl _) rfl hi.covered (by simp))
  next fd hfd =>
  dsimp only
  rw [wp_bind]
  refine wp_mono ?_ (wp_extendCache (p := { p with nData := max p.nData (iOfst + buf.size) }) hfd)
  rintro ⟨q, rc⟩ w₁ ⟨hgrown, hgrew⟩
  have hext : p.dirty.Extends q.dirty := hgrown.dirty
  have hq : q.marks =
      { p.marks with nData := max p.nData (iOfst + buf.size), dirty := q.dirty } := hgrown.marks
  have hold : pagesOf p.nData p.pageSize ≤ 8 * q.dirty.nAlloc :=
    Nat.le_trans hi.covered (Nat.mul_le_mul_left 8 hext.nAlloc)
  have hback : ObjsFile.marks { q with nData := p.nData } =
      { p.marks with nData := p.nData, dirty := q.dirty } :=
    congrArg (fun m : Marks => { m with nData := p.nData }) hq
  refine Returns.wp_alone (A := fun _ _ => True) ?_ fun _ _ _ _ _ => trivial
  dsimp only
  split
  · next hne => exact hfail (q := { q with nData := p.nData }) hext hback hold hne
  next hok =>
  have hnew : pagesOf (max p.nData (iOfst + buf.size)) p.pageSize ≤ 8 * q.dirty.nAlloc := by
    rcases Nat.lt_or_ge p.nData (iOfst + buf.size) with hlt | hge
    · rw [Nat.max_eq_right (Nat.le_of_lt hlt)]
      rcases hroom fd hfd hlt with hshort | hbits
      · have hsize := hgrew (by simpa using hok) hlt hshort
        rw [Nat.max_eq_right (Nat.le_of_lt hlt)] at hsize
        exact room_of_bitmapSize hpos hsmall hsize
      · exact Nat.le_trans hbits (Nat.mul_le_mul_left 8 hext.nAlloc)
    · rw [Nat.max_eq_left hge]
      exact hold
  refine returns_sys_bind fun x _ => ?_
  split
  · exact hfail (q := { q with nData := p.nData }) hext hback hold (by simp)
  refine returns_leaseRenewIfNeeded.bind fun (q₁, rc₁) h₁ => ?_
  dsimp only at h₁ ⊢
  have hq₁ : q₁.marks =
      { p.marks with nData := max p.nData (iOfst + buf.size), dirty := q₁.dirty } := by
    rw [h₁, hq, show q₁.dirty = q.dirty from congrArg Marks.dirty h₁]
  have hd₁ : q₁.dirty = q.dirty := congrArg Marks.dirty h₁
  have hps₁ : q₁.pageSize = p.pageSize := congrArg Marks.pageSize hq₁
  split
  · next hne =>
    exact hfail (by rw [hd₁]; exact hext) hq₁ (by rw [hd₁]; exact hnew) hne
  rw [if_pos (by rw [hps₁]; exact hpos)]
  obtain ⟨honly, hcounted, hbit⟩ := markWritten_span (q := q₁) (by rw [hps₁]; exact hpos)
    (Nat.le_add_right iOfst buf.size) (by rw [hps₁]; exact hsmall)
    (by rw [hd₁]; exact hext.counted hi.counted)
  generalize markWritten q₁ _ _ = q₂ at honly hcounted hbit ⊢
  have hps₂ : q₂.pageSize = p.pageSize := honly.pageSize.trans hps₁
  rw [hps₁, hd₁] at hbit
  refine ⟨⟨⟨?_, ?_⟩, ?_, hcounted⟩, hps₂, fun k hk => ?_, fun _ k hk => ?_⟩
  · show q₂.eFileType = .mainDb
    rw [honly.eq]
    exact (congrArg Marks.eFileType hq₁).trans hi.kind
  · show 0 < q₂.pageSize
    rw [hps₂]
    exact hpos
  · show pagesOf q₂.nData q₂.pageSize ≤ 8 * q₂.dirty.nAlloc
    rw [hps₂, honly.nData, honly.nAlloc, hd₁,
      show q₁.nData = max p.nData (iOfst + buf.size) from congrArg Marks.nData hq₁]
    exact hnew
  · exact (hbit k).mpr (Or.inl (by rw [hext.bits]; exact hk))
  · obtain ⟨hk₁, hk₂⟩ := of_decide_eq_true hk
    refine (hbit k).mpr (Or.inr ⟨hk₁, hk₂, ?_⟩)
    have hlt := div_lt_pagesOf hpos (Nat.lt_of_lt_of_le hk₂ (Nat.le_max_right p.nData _))
    rw [Nat.mul_div_cancel _ hpos] at hlt
    omega

end Write

/-! ## The session -/

/-- An open database, the pages written since its last successful sync, and the result
of the last call. -/
structure Tracked where
  file : ObjsFile
  touched : Nat → Bool
  rc : Rc

/-- A database that was just opened. -/
def Tracked.opened (p : ObjsFile) : Tracked := { file := p, touched := fun _ => false, rc := .ok }

/-- Writes, truncations and syncs of one database in any order. The environment may let
any request fail, and between two calls anything may happen to the service and the
disk. -/
def trackedSession (v : VfsData) : Session World Ans Tracked DbCall where
  code
    | .write buf iOfst, s => do
      let (p, rc) ← sqliteObjsWrite s.file buf iOfst
      return {
        file := p
        touched := if rc = .ok
          then fun k => s.touched k || pagesWritten s.file.pageSize iOfst buf.size k else s.touched
        rc := rc }
    | .truncate size, s => do
      let (p, rc) ← sqliteObjsTruncate s.file size
      return { s with file := p, rc := rc }
    | .sync, s => do
      let (_, p, rc) ← sqliteObjsSync v s.file
      return { file := p, touched := if rc = .ok then fun _ => false else s.touched, rc := rc }
  may
    | .write buf _, _, _ => 0 < buf.size
    | _, _, _ => True
  serve _ _ := anyAnswer
  outside _ _ := True

/-- Every write is one the bitmap can follow. -/
def DbCall.fits : DbCall → Tracked → World → Prop
  | .write buf iOfst, s, w => WriteFits s.file buf iOfst w
  | _, _, _ => True

/-- The dirty bitmap has a bit for every page, and the pages written are marked. -/
structure Tracked.Kept (s : Tracked) : Prop where
  covered : pagesOf s.file.nData s.file.pageSize ≤ 8 * s.file.dirty.nAlloc
  marked : ∀ k, s.touched k = true → s.file.dirty.bit k = true

/-- The invariant of the session. -/
structure Tracked.Inv (s : Tracked) : Prop where
  intact : s.file.marks.Intact
  marked : ∀ k, s.touched k = true → s.file.dirty.bit k = true

section Session

variable {v : VfsData} {s : Tracked} {w : World}

theorem Tracked.Inv.wp_write (hi : s.Inv) {buf : Bytes} {iOfst : Nat}
    (hfits : WriteFits s.file buf iOfst w) :
    wp (.alone anyAnswer) ((trackedSession v).code (.write buf iOfst) s)
    (fun s' _ => s'.Inv) w := by
  show wp _ (sqliteObjsWrite s.file buf iOfst >>= _) _ w
  unfold sqliteObjsWrite
  rw [show s.file.eFileType = .mainDb from hi.intact.kind, wp_bind]
  refine wp_mono ?_ (wp_mainDbWrite_marks hi.intact hfits)
  rintro ⟨p, rc⟩ w' hm
  refine wp_alone_ret.mpr ⟨hm.intact, fun k hk => ?_⟩
  dsimp only at hk ⊢
  split at hk
  · next hok =>
    rcases (Bool.or_eq_true _ _).mp hk with hold | hnew
    · exact hm.kept k (hi.marked k hold)
    · exact hm.written hok k hnew
  · exact hm.kept k (hi.marked k hk)

theorem Tracked.Inv.wp_truncate (hi : s.Inv) (size : Nat) :
    wp (.alone anyAnswer) ((trackedSession v).code (.truncate size) s) (fun s' _ => s'.Inv) w := by
  show wp _ (sqliteObjsTruncate s.file size >>= _) _ w
  unfold sqliteObjsTruncate
  rw [show s.file.eFileType = .mainDb from hi.intact.kind]
  refine Returns.wp_alone (A := fun _ _ => True) ?_ fun _ _ _ _ _ => trivial
  refine (returns_mainDbTruncate size).bind fun (p, rc) hp => ?_
  -- either way the bitmap is the same, and the file no longer
  have hd : p.dirty = s.file.dirty := by
    rcases hp with hp | hp
    · exact congrArg Marks.dirty hp
    · exact congrArg Marks.dirty hp
  refine ⟨?_, fun k hk => by rw [hd]; exact hi.marked k hk⟩
  rcases hp with hp | hp
  · rw [hp]
    exact hi.intact
  · rw [hp]
    refine { hi.intact with covered := ?_ }
    exact Nat.le_trans (pagesOf_mono (Nat.min_le_right _ _)) hi.intact.covered

theorem Tracked.Inv.wp_sync (hi : s.Inv) :
    wp (.alone anyAnswer) ((trackedSession v).code .sync s) (fun s' _ => s'.Inv) w := by
  show wp _ (sqliteObjsSync v s.file >>= _) _ w
  unfold sqliteObjsSync
  rw [show s.file.eFileType = .mainDb from hi.intact.kind]
  refine Returns.wp_alone (A := fun _ _ => True) ?_ fun _ _ _ _ _ => trivial
  have hsync : Returns (fun _ _ => True) (fun r : VfsData × ObjsFile × Rc =>
      r.2.1.marks = s.file.marks ∨ r.2.2 = .ok ∧
      r.2.1.marks = { s.file.marks with dirty := bitmapClearAll s.file.dirty }) (do
        let (p, rc) ← mainDbSync s.file
        return (v, p, rc)) :=
    returns_mainDbSync.bind fun (p, rc) hp => returns_ret.mpr hp
  refine hsync.bind fun (v', p, rc) hp => ?_
  dsimp only at hp ⊢
  rcases hp with hp | ⟨rfl, hp⟩
  · refine ⟨by rw [hp]; exact hi.intact, fun k hk => ?_⟩
    rw [show p.dirty = s.file.dirty from congrArg Marks.dirty hp]
    dsimp only at hk
    split at hk
    · cases hk
    · exact hi.marked k hk
  · refine ⟨by rw [hp]; exact hi.intact.clear, fun k hk => ?_⟩
    rw [if_pos rfl] at hk
    cases hk

theorem Tracked.inv_of_reach {p : ObjsFile} {w₀ : World} (hp : p.marks.Intact)
    (h : ((trackedSession v).restrict DbCall.fits).Reach (.opened p) w₀ s w) : s.Inv := by
  refine Session.inv_of_reach (fun s _ => s.Inv) ⟨hp, fun k hk => by cases hk⟩ ?_ ?_ h
  · intro c s w hi hm
    refine wp_mono (fun _ _ h _ => h) ?_
    cases c with
    | write buf iOfst => exact hi.wp_write (v := v) hm.2
    | truncate size => exact hi.wp_truncate (v := v) size
    | sync => exact hi.wp_sync (v := v)
  · exact fun _ _ _ hi _ => hi

/-- The allocations succeed. -/
def allocated : (r : Req) → Ans r → Prop
  | .sys (.malloc _), x => x.ok = true
  | _, _ => True

/-- A database opened without a failing allocation, then used with writes the bitmap can
follow: whatever fails meanwhile, no mark is lost. -/
theorem dirty_marks_kept {uri : UriParams} {name : String} {create : Bool} {v' : VfsData}
    {p : ObjsFile} {w₀ w₁ : World}
    (hopen : Runs (fun r w x w' => anyAnswer r w x w' ∧ allocated r x)
      (sqliteObjsOpen v name uri .mainDb create) w₀ (v', .ok p) w₁)
    (hsmall : pagesOf p.nData p.pageSize ≤ maxPages)
    (hreach : ((trackedSession v).restrict DbCall.fits).Reach (.opened p) w₁ s w) : s.Kept := by
  have hal : Allocating allocated := fun n x hx => hx
  obtain ⟨hp, hc⟩ := (returns_sqliteObjsOpen hal v name uri create).of_runs
    (fun _ _ _ _ h => h.2) hopen p rfl
  have hi := Tracked.inv_of_reach { hp with covered := hp.covered hsmall, counted := hc } hreach
  exact ⟨hi.intact.covered, hi.marked⟩

/-- No allocation fails where no system call does. -/
theorem runs_allocated {α : Type} {m : Prog α} {a : α} {w w' : World}
    (h : Runs (World.served Sound) m w a w') :
    Runs (fun r w x w' => anyAnswer r w x w' ∧ allocated r x) m w a w' := by
  refine h.mono fun r w x w' hs => ⟨hs.imp fun c hc => ⟨trivial, hc.2⟩, ?_⟩
  unfold allocated
  split
  · obtain ⟨c, hc, rfl, -⟩ := served_sys hs
    simp [Disk.serve, hc.2]
  · trivial

theorem runs_any {α : Type} {m : Prog α} {a : α} {w w' : World} (n : Nat)
    (h : exec World.respond (List.replicate n {}) m w = some (a, w')) : Runs anyAnswer m w a w' :=
  (runs_sound n h).mono fun _ _ _ _ ⟨c, _, hs⟩ => ⟨c, trivial, hs⟩

set_option maxRecDepth 8000 in
/-- A new database and a write of one page. -/
theorem dirty_marks_kept_new : ∃ p w₁ s w,
    Runs (World.served Sound) (sqliteObjsOpen (.new 0) "db" {} .mainDb true) .new
      (.new 0, .ok p) w₁ ∧
    ((trackedSession (.new 0)).restrict DbCall.fits).Reach (.opened p) w₁ s w ∧
    s.touched 0 = true ∧ s.Kept := by
  obtain ⟨p, w₁, s, w, hopen, hsmall, hfits, hwrite, ht⟩ : ∃ p w₁ s w,
      Runs (World.served Sound) (sqliteObjsOpen (.new 0) "db" {} .mainDb true) .new
        (.new 0, .ok p) w₁ ∧
      pagesOf p.nData p.pageSize ≤ maxPages ∧
      WriteFits p (SparseFile.empty.truncate 4096) 0 w₁ ∧
      Runs anyAnswer ((trackedSession (.new 0)).code (.write (SparseFile.empty.truncate 4096) 0)
        (.opened p)) w₁ s w ∧ s.touched 0 = true :=
    ⟨_, _, _, _, runs_sound 5 rfl, by decide, ⟨by decide, fun fd hfd _ => Or.inl (by
      obtain rfl := Option.some.inj hfd
      decide)⟩, runs_any 4 rfl, rfl⟩
  have hreach : ((trackedSession (.new 0)).restrict DbCall.fits).Reach (.opened p) w₁ s w :=
    .call (.write (SparseFile.empty.truncate 4096) 0) .refl
      ⟨show 0 < 4096 by omega, hfits⟩ hwrite trivial
  exact ⟨p, w₁, s, w, hopen, hreach, ht, dirty_marks_kept (runs_allocated hopen) hsmall hreach⟩

set_option maxRecDepth 8000 in
/-- A new database truncated to one page and then written there. Every call succeeds; the
cache file was long enough, so the bitmap has no bits, and the page is not marked. -/
theorem write_after_truncate_unmarked : ∃ p w₁ s w,
    Runs (World.served Sound) (sqliteObjsOpen (.new 0) "db" {} .mainDb true) .new
      (.new 0, .ok p) w₁ ∧
    ((trackedSession (.new 0)).within fun _ _ _ s' _ => s'.rc = .ok).Reach (.opened p) w₁ s w ∧
    s.touched 0 = true ∧ s.file.dirty.bit 0 = false ∧ s.file.dirty.nAlloc = 0 ∧
    pagesOf s.file.nData s.file.pageSize = 1 ∧ ¬ s.Kept := by
  obtain ⟨p, w₁, s₁, w₂, s, w, hopen, htrunc, hrc₁, hwrite, hrc, ht, hd, hn, hpages⟩ :
      ∃ p w₁ s₁ w₂ s w,
      Runs (World.served Sound) (sqliteObjsOpen (.new 0) "db" {} .mainDb true) .new
        (.new 0, .ok p) w₁ ∧
      Runs anyAnswer ((trackedSession (.new 0)).code (.truncate 4096) (.opened p)) w₁ s₁ w₂ ∧
      s₁.rc = .ok ∧
      Runs anyAnswer ((trackedSession (.new 0)).code (.write (SparseFile.empty.truncate 4096) 0) s₁)
        w₂ s w ∧ s.rc = .ok ∧
      s.touched 0 = true ∧ s.file.dirty.bit 0 = false ∧ s.file.dirty.nAlloc = 0 ∧
      pagesOf s.file.nData s.file.pageSize = 1 :=
    ⟨_, _, _, _, _, _, runs_sound 5 rfl, runs_any 2 rfl, rfl, runs_any 2 rfl, rfl, rfl,
      rfl, rfl, rfl⟩
  refine ⟨p, w₁, s, w, hopen, ?_, ht, hd, hn, hpages, fun hk => ?_⟩
  · refine .call (.write (SparseFile.empty.truncate 4096) 0) ?_
      (show 0 < 4096 by omega) hwrite ⟨trivial, hrc⟩
    exact .call (.truncate 4096) .refl trivial htrunc ⟨trivial, hrc₁⟩
  · have hmark := hk.marked 0 ht
    rw [hd] at hmark
    cases hmark

end Session
end SqliteObjs
