import SqliteObjs.MainDb.Download

/-!
# What `xOpen` hands over

`Ready` are the fields of a database file that was just opened for its blob: the size
of the blob, a legal page size, bitmaps that cover the file. Whether the cache file holds
the blob's bytes depends on where they come from: a download (`wp_eagerDownload`), or a
cache file of an earlier session, about which `xOpen` knows no more than the sidecar says.
-/

set_option autoImplicit false

namespace SqliteObjs

open Data CS CS.Program

/-- What opening sets in the record. -/
def OnlyCache (p p' : ObjsFile) : Prop :=
  p' = { p with
    cacheFd := p'.cacheFd, zCachePath := p'.zCachePath, nData := p'.nData, dirty := p'.dirty
    pageSize := p'.pageSize, valid := p'.valid, lastSyncedSize := p'.lastSyncedSize
    etag := p'.etag, snapshot := p'.snapshot, cacheReuse := p'.cacheReuse }

theorem OnlyCache.trans {p p' p'' : ObjsFile} (h : OnlyCache p p') (h' : OnlyCache p' p'') :
    OnlyCache p p'' := by
  unfold OnlyCache at *
  rw [h', h]

/-- A database of `n` bytes that was just opened. -/
structure Ready {W : Type} (E : Setting W Ans) (p p' : ObjsFile) (fd : Fd) (n : Nat) : Prop where
  only : OnlyCache p p'
  etag : p'.etag = p.etag
  cacheFd : p'.cacheFd = some fd
  nData : p'.nData = n
  synced : p'.lastSyncedSize ≤ n
  page : LegalPageSize p'.pageSize
  room : Allocates E → pagesOf n p'.pageSize ≤ maxPages →
    pagesOf n p'.pageSize ≤ 8 * p'.dirty.nAlloc

section Opening

variable {W α : Type} {E : Setting W Ans} {view : W → World} {ok : Req → Choice → Prop}
  {B Cur : W → Prop} {C : Bytes} {d : Disk} {w : W} {p : ObjsFile} {fd : Fd} {uri : UriParams}

theorem Ready.clearDirty {p' : ObjsFile} {n : Nat} (h : Ready E p p' fd n) :
    Ready E p { p' with dirty := bitmapClearAll p'.dirty } fd n :=
  { h with
    only := h.only.trans rfl
    room := fun ha hs => by
      rw [Bitmap.nAlloc_clearAll]
      exact h.room ha hs }

/-! ## The download -/

/-- How a database is opened from its blob: with an error, or ready. `trusted` says that
the bytes are the blob's. -/
def OpenEnds (E : Setting W Ans) (view : W → World) (B Cur : W → Prop) (C : Bytes) (trusted : Prop)
    (p : ObjsFile) (r : Except Rc ObjsFile) (w : W) : Prop :=
  B w ∧ ∀ p', r = .ok p' → ∃ fd d, Ready E p p' fd C.size ∧
    Knows view (fun w => B w ∧ (Cur w → trusted → d.inode fd = C)) d w

/-- The same over a file `f` that need not be empty: the blob's bytes come over it. -/
def OpenEndsOver (E : Setting W Ans) (view : W → World) (B Cur : W → Prop) (C f : Bytes) (fd : Fd)
    (p : ObjsFile) (r : Except Rc ObjsFile) (w : W) : Prop :=
  B w ∧ ∀ p', r = .ok p' → ∃ d, Ready E p p' fd C.size ∧
    Knows view (fun w => B w ∧ (Cur w → d.inode fd = f.pwrite 0 C)) d w

theorem OpenEndsOver.openEnds {f : Bytes} {trusted : Prop} {r : Except Rc ObjsFile}
    (h : OpenEndsOver E view B Cur C f fd p r w) (hempty : trusted → f = .empty) :
    OpenEnds E view B Cur C trusted p r w := by
  refine ⟨h.1, fun p' hp' => ?_⟩
  obtain ⟨d, hready, ⟨hB, hfile⟩, hd⟩ := h.2 p' hp'
  refine ⟨fd, d, hready, ⟨hB, fun hc ht => ?_⟩, hd⟩
  rw [hfile hc, hempty ht]
  exact SparseFile.empty_pwrite C

theorem wp_failDownload (hE : Seen E view ok) (hB : Fact E B) (hk : Knows view B d w) {rc : Rc}
    {q : ObjsFile} {f : Bytes} :
    wp E (failDownload q rc) (OpenEndsOver E view B Cur C f fd p) w := by
  have hret : ∀ {d : Disk} {w : W}, Knows view B d w →
      wp E (.ret (.error rc)) (OpenEndsOver E view B Cur C f fd p) w :=
    fun hk => hk.wp_ret hE hB fun w' hk' => ⟨hk'.1, fun _ h => by cases h⟩
  unfold failDownload
  split
  · exact hret hk
  · exact hk.wp_sys_bind hE hB fun c w' _ hk' => hret hk'

/-- The end of every way to open: page size, bitmaps, last synced size. -/
theorem wp_openFinish {P : Prop} (hE : Seen E view ok) (hR : Reading E p.blob B Cur C)
    {q : ObjsFile} (hq : OnlyCache p q) (he : q.etag = p.etag) (hpage : LegalPageSize q.pageSize)
    (hfd : q.cacheFd = some fd) (hn : q.nData = C.size)
    (hk : Knows view (fun w => B w ∧ (Cur w → P)) d w) {f : ObjsFile × Rc → Prog α}
    {Q : α → W → Prop}
    (h : ∀ p' rc w', Ready E p { p' with lastSyncedSize := p'.nData } fd C.size →
      Knows view (fun w => B w ∧ (Cur w → P)) d w' → wp E (f (p', rc)) Q w') :
    wp E (redetectPageSize q fd >>= fun p => bitmapsEnsureCapacity p >>= f) Q w := by
  refine hk.wp_redetectPageSize_bind hE (hR.fact_cur P) fun ps w₁ hps hk₁ => ?_
  refine wp_bitmapsEnsureCapacity_bind hE.quiet fun p' rc hgrown hrc => ?_
  refine h p' rc w₁ ?_ hk₁
  have hlegal := hps hpage
  have hnData : p'.nData = C.size := by rw [hgrown.eq]; exact hn
  have hpsize : p'.pageSize = ps := by rw [hgrown.eq]
  refine {
    only := hq.trans ?_
    etag := by rw [← he, hgrown.eq]
    cacheFd := by rw [← hfd, hgrown.eq]
    nData := hnData
    synced := Nat.le_of_eq hnData
    page := by rw [hpsize]; exact hlegal
    room := fun hal hsmall => ?_ }
  · unfold OnlyCache
    rw [hgrown.eq]
  · rw [← hn] at hsmall ⊢
    rw [hpsize] at hsmall ⊢
    exact ((hrc hal).2 hlegal.pos hsmall).1

theorem wp_eagerDownload (hE : Seen E view ok) (hR : Reading E p.blob B Cur C)
    (hpos : 0 < C.size) {q : ObjsFile} (hq : OnlyCache p q) (he : q.etag = p.etag)
    (hpage : LegalPageSize q.pageSize) (hfd : q.cacheFd = some fd) (hk : Knows view B d w) :
    wp E (eagerDownload q fd C.size) (OpenEndsOver E view B Cur C (d.inode fd) fd p) w := by
  have hblob : q.blob = p.blob := by
    unfold OnlyCache at hq
    rw [hq]
    rfl
  unfold eagerDownload
  refine hk.wp_sys_bind hE hR.fact fun c w₁ _ hk₁ => ?_
  have hd : (d.serve c (.malloc C.size)).2 = d := by
    simp only [Disk.serve]
    split <;> rfl
  rw [hd] at hk₁
  split
  · exact wp_failDownload hE hR.fact hk₁
  next hmalloc =>
  have hsize : (d.serve c (.malloc C.size)).1.data.size = C.size := by
    simp only [Disk.serve] at hmalloc ⊢
    split
    · next hf => simp [hf] at hmalloc
    · rfl
  rw [wp_bind]
  rw [← hblob] at hR
  refine wp_mono ?_ (hR.wp_downloadBlob hE hpos hsize hk₁)
  rintro ⟨arc, data⟩ w₂ ⟨hs, hk₂⟩
  dsimp only at hs hk₂ ⊢
  split
  · exact wp_failDownload hE hR.fact ⟨hk₂.1.1, hk₂.2⟩
  next harc =>
  have hdata : Knows view (fun w => B w ∧ (Cur w → data = C))
      (d.setInode fd ((d.inode fd).pwrite 0 (data.slice 0 0))) w₂ := by
    refine ⟨⟨hk₂.1.1, fun hc => hk₂.1.2 hc (by simpa using harc)⟩, ?_⟩
    have hzero : (d.inode fd).pwrite 0 (data.slice 0 0) = d.inode fd :=
      SparseFile.ext (by simp [SparseFile.pwrite_size]) fun k => by simp [SparseFile.pwrite_get]
    rw [hzero, Disk.setInode_self]
    exact hk₂.2
  rw [wp_bind]
  refine wp_mono ?_ (Knows.wp_writeAll hE (hR.fact_cur _) (d.inode fd) data C.size 0
    (Nat.zero_le _) (by omega) hdata)
  rintro written w₃ ⟨-, file, hk₃, hfile⟩
  split
  · exact wp_failDownload hE hR.fact ⟨hk₃.1.1, hk₃.2⟩
  next hwritten =>
  obtain rfl := hfile (by simpa using hwritten)
  refine hk₃.wp_sys_bind hE (hR.fact_cur _) fun c' w₄ _ hk₄ => ?_
  split
  · exact wp_failDownload hE hR.fact ⟨hk₄.1.1, hk₄.2⟩
  rw [hblob] at hR
  refine wp_openFinish (q := { q with nData := C.size }) hE hR ?_ he hpage hfd rfl hk₄
    fun p' _ w₅ hready hk₅ => ?_
  · unfold OnlyCache at hq ⊢
    rw [hq]
  refine hk₅.wp_ret hE (hR.fact_cur _) fun w' hk' => ⟨hk'.1.1, ?_⟩
  rintro _ ⟨⟩
  refine ⟨_, hready, ⟨hk'.1.1, fun hc => ?_⟩, hk'.2⟩
  simp only [Disk.serve, Disk.setInode_inode_self]
  rw [hk'.1.2 hc]

theorem wp_cacheDownload_over (hE : Seen E view ok) (hR : Reading E p.blob B Cur C)
    {q : ObjsFile} (hq : OnlyCache p q) (he : q.etag = p.etag) (hmode : p.prefetchMode = .all)
    (hpage : LegalPageSize q.pageSize) (hfd : q.cacheFd = some fd)
    (hsynced : C.size = 0 → q.lastSyncedSize = 0) (hk : Knows view B d w) :
    wp E (cacheDownload q fd C.size) (OpenEndsOver E view B Cur C (d.inode fd) fd p) w := by
  unfold cacheDownload
  split
  · next h0 =>
    refine hk.wp_ret hE hR.fact fun w' hk' => ⟨hk'.1, ?_⟩
    rintro _ ⟨⟩
    refine ⟨d, ?_, ⟨hk'.1, fun _ => ?_⟩, hk'.2⟩
    · refine ⟨?_, he, hfd, h0.symm, Nat.le_of_eq ((hsynced h0).trans h0.symm), hpage, fun _ _ => ?_⟩
      · unfold OnlyCache at hq ⊢
        rw [hq]
      · rw [h0, pagesOf_le_iff hpage.pos]
        exact Nat.zero_le _
    · rw [SparseFile.eq_empty h0]
      exact (SparseFile.ext (by simp [SparseFile.pwrite_size])
        fun k => by simp [SparseFile.pwrite_get])
  next hpos =>
  have hall : q.prefetchMode = .all := by
    unfold OnlyCache at hq
    rw [hq]
    exact hmode
  rw [if_neg (by rw [hall]; decide)]
  exact wp_eagerDownload hE hR (Nat.pos_of_ne_zero hpos) hq he hpage hfd hk

theorem wp_cacheDownload (hE : Seen E view ok) (hR : Reading E p.blob B Cur C) {trusted : Prop}
    {q : ObjsFile} (hq : OnlyCache p q) (he : q.etag = p.etag) (hmode : p.prefetchMode = .all)
    (hpage : LegalPageSize q.pageSize) (hfd : q.cacheFd = some fd)
    (hempty : trusted → d.inode fd = .empty)
    (hsynced : C.size = 0 → q.lastSyncedSize = 0) (hk : Knows view B d w) :
    wp E (cacheDownload q fd C.size) (OpenEnds E view B Cur C trusted p) w :=
  wp_mono (fun _ _ h => h.openEnds hempty)
    (wp_cacheDownload_over hE hR hq he hmode hpage hfd hsynced hk)

/-! ## A new cache file -/

theorem Knows.wp_openTempCache_bind (hk : Knows view B d w) (hE : Seen E view ok) (hB : Fact E B)
    {f : Except Rc (ObjsFile × Fd) → Prog α} {Q : α → W → Prop}
    (hfail : ∀ rc w', Knows view B d w' → wp E (f (.error rc)) Q w')
    (h : ∀ path w', Knows view B (d.newFile path) w' →
      wp E (f (.ok ({ p with cacheFd := some d.nextInode, zCachePath := some path }, d.nextInode)))
        Q w') : wp E (openTempCache p uri >>= f) Q w := by
  rw [wp_bind]
  unfold openTempCache
  refine wp_quiet_bind hE.quiet rfl fun m _ => ?_
  split
  · exact hk.wp_ret hE hB fun w' hk' => hfail _ w' hk'
  refine hk.wp_sys_bind hE hB fun c w₁ _ hk₁ => ?_
  cases hf : c.sysFails with
  | true =>
    simp only [Disk.serve, hf, if_true, Bool.not_false] at hk₁ ⊢
    exact hk₁.wp_ret hE hB fun w' hk' => hfail _ w' hk'
  | false =>
    simp only [Disk.serve, hf, Bool.false_eq_true, if_false, Bool.not_true] at hk₁ ⊢
    exact hk₁.wp_ret hE hB fun w' hk' => h _ w' hk'

theorem Disk.newFile_inode (d : Disk) (path : Path) :
    (d.newFile path).inode d.nextInode = .empty := by
  simp [Disk.newFile]

/-- The file under a name, emptied or made. -/
theorem Knows.wp_openFreshCache_bind (hk : Knows view B d w) (hE : Seen E view ok) (hB : Fact E B)
    {path : Path} {f : Except Rc (ObjsFile × Fd) → Prog α} {Q : α → W → Prop}
    (hfail : ∀ rc w', Knows view B d w' → wp E (f (.error rc)) Q w')
    (h : ∀ fd d' w', d'.inode fd = .empty → Knows view B d' w' →
      wp E (f (.ok ({ p with
        cacheFd := some fd, zCachePath := some path, cacheReuse := true }, fd)))
        Q w') : wp E (openFreshCache p path >>= f) Q w := by
  rw [wp_bind]
  unfold openFreshCache
  refine hk.wp_sys_bind hE hB fun c w₁ _ hk₁ => ?_
  cases hf : c.sysFails with
  | true =>
    simp only [Disk.serve, hf, if_true, Bool.not_false] at hk₁ ⊢
    exact hk₁.wp_ret hE hB fun w' hk' => hfail _ w' hk'
  | false =>
    cases hdir : d.dir path with
    | none =>
      simp only [Disk.serve, hf, hdir, Bool.false_eq_true, if_false, Bool.not_true] at hk₁ ⊢
      exact hk₁.wp_ret hE hB fun w' hk' => h _ _ w' (d.newFile_inode path) hk'
    | some fd =>
      simp only [Disk.serve, hf, hdir, Bool.false_eq_true, if_false, Bool.not_true] at hk₁ ⊢
      exact hk₁.wp_ret hE hB fun w' hk' => h _ _ w' (d.setInode_inode_self fd .empty) hk'

/-- `xOpen` without cache reuse. -/
theorem wp_openTemp (hE : Seen E view ok) (hR : Reading E p.blob B Cur C) {trusted : Prop}
    (hmode : p.prefetchMode = .all) (hpage : LegalPageSize p.pageSize) (h0 : p.lastSyncedSize = 0)
    (hk : Knows view B d w) :
    wp E (openTemp p uri C.size) (OpenEnds E view B Cur C trusted p) w := by
  unfold openTemp
  refine hk.wp_openTempCache_bind hE hR.fact ?_ fun path w₁ hk₁ => ?_
  · exact fun rc w₁ hk₁ => hk₁.wp_ret hE hR.fact fun w' hk' => ⟨hk'.1, fun _ h => by cases h⟩
  · exact wp_cacheDownload hE hR rfl rfl hmode hpage rfl (fun _ => d.newFile_inode path)
      (fun _ => h0) hk₁

/-! ## A cache file of an earlier session -/

/-- Only the valid bits differ. -/
def OnlyValid (p p' : ObjsFile) : Prop := p' = { p with valid := p'.valid }

theorem onlyValid_validMarkRange (p : ObjsFile) (i j : Nat) :
    OnlyValid p (validMarkRange p i j) := by
  unfold OnlyValid validMarkRange
  generalize bitmapSetRange p.valid _ _ = valid
  split <;> rfl

theorem OnlyValid.trans {p p' p'' : ObjsFile} (h : OnlyValid p p') (h' : OnlyValid p' p'') :
    OnlyValid p p'' := by
  unfold OnlyValid at *
  rw [h', h]

theorem OnlyValid.blob {p p' : ObjsFile} (h : OnlyValid p p') : p'.blob = p.blob := by
  unfold OnlyValid at h
  rw [h]
  rfl

theorem Knows.wp_readSidecar_bind (hk : Knows view B d w) (hE : Seen E view ok) (hB : Fact E B)
    {path : Path} {ext : Ext} {f : SysReply → Prog α} {Q : α → W → Prop}
    (h : ∀ x w', Knows view B d w' → wp E (f x) Q w') :
    wp E (sys (.sidecarRead path ext) >>= f) Q w := by
  refine hk.wp_sys_bind hE hB fun c w₁ _ hk₁ => h _ w₁ ?_
  have hd : (d.serve c (.sidecarRead path ext)).2 = d := by
    simp only [Disk.serve]
    split
    · rfl
    split <;> rfl
  rw [hd] at hk₁
  exact hk₁

theorem Knows.wp_readSnapshotFile_bind (hk : Knows view B d w) (hE : Seen E view ok)
    (hB : Fact E B) {path : Path} {f : Option Snapshot → Prog α} {Q : α → W → Prop}
    (h : ∀ s w', Knows view B d w' → wp E (f s) Q w') :
    wp E (readSnapshotFile path >>= f) Q w := by
  rw [wp_bind]
  unfold readSnapshotFile
  refine hk.wp_readSidecar_bind hE hB fun x w₁ hk₁ => ?_
  split <;> exact hk₁.wp_ret hE hB fun w' hk' => h _ w' hk'

theorem Knows.wp_readEtagFile_bind (hk : Knows view B d w) (hE : Seen E view ok)
    (hB : Fact E B) {path : Path} {f : Option ETag → Prog α} {Q : α → W → Prop}
    (h : ∀ s w', Knows view B d w' → wp E (f s) Q w') :
    wp E (readEtagFile path >>= f) Q w := by
  rw [wp_bind]
  unfold readEtagFile
  refine hk.wp_readSidecar_bind hE hB fun x w₁ hk₁ => ?_
  split <;> exact hk₁.wp_ret hE hB fun w' hk' => h _ w' hk'

/-! ## The changes since a snapshot -/

/-- The range has position `j`. -/
def DiffRange.Has (r : DiffRange) (j : Nat) : Prop := r.start ≤ j ∧ j ≤ r.stop

/-- Outside the ranges the file has the bytes of `C`. -/
def OutsideDiff (C : Bytes) (rs : List DiffRange) (f : Bytes) : Prop :=
  ∀ j, j < C.size → (∀ r ∈ rs, ¬ r.Has j) → f.get j = C.get j

/-- The cleared ranges are zero in `C`. -/
def ClearedIn (C : Bytes) (rs : List DiffRange) : Prop :=
  ∀ r ∈ rs, r.isClear = true → ∀ j, r.Has j → C.get j = 0

/-- The ranges were applied to a file `f`: if they are what makes the difference between it and
`C`, the difference is gone. `n` is the size `f` was taken to have. -/
structure Diffed (C : Bytes) (rs : List DiffRange) (n : Nat) (f f' : Bytes) : Prop where
  size : n ≤ f.size → C.size ≤ f'.size
  bytes : ClearedIn C rs → OutsideDiff C rs f → ∀ j, j < C.size → f'.get j = C.get j

theorem outsideDiff_truncate {rs : List DiffRange} {f : Bytes} (h : OutsideDiff C rs f) :
    OutsideDiff C rs (f.truncate C.size) := by
  intro j hj hno
  rw [SparseFile.truncate_get, if_pos hj]
  exact h j hj hno

/-- One range that is stored as it is in `C`. -/
theorem OutsideDiff.pwrite {r : DiffRange} {rs : List DiffRange} {f data : Bytes}
    (h : OutsideDiff C (r :: rs) f) (hsize : data.size = r.stop + 1 - r.start)
    (hdata : ∀ j, r.Has j → j < C.size → data.get (j - r.start) = C.get j) :
    OutsideDiff C rs (f.pwrite r.start data) := by
  intro j hj hno
  by_cases hr : r.Has j
  · have hr' := hr
    unfold DiffRange.Has at hr'
    rw [SparseFile.pwrite_get_of_mem _ _ hr'.1 (by omega)]
    exact hdata j hr hj
  · have hr' := hr
    unfold DiffRange.Has at hr'
    rw [SparseFile.pwrite_get_of_not_mem _ _ (by omega)]
    refine h j hj fun r' hr'' => ?_
    rcases List.mem_cons.mp hr'' with rfl | hr''
    · exact hr
    · exact hno r' hr''

theorem size_le_pwrite (f data : Bytes) (off : Nat) : f.size ≤ (f.pwrite off data).size := by
  rw [SparseFile.pwrite_size]
  split <;> omega

/-- One range of a diff is stored, or not; only valid bits change in the record. -/
theorem Knows.wp_storeDiff_bind (hk : Knows view B d w) (hE : Seen E view ok) (hB : Fact E B)
    {start : Nat} {data : Bytes} {f : ObjsFile × Bool → Prog α} {Q : α → W → Prop}
    (h : ∀ p' stored d' w', OnlyValid p p' →
      (stored = true → d'.inode fd = (d.inode fd).pwrite start data) → Knows view B d' w' →
      wp E (f (p', stored)) Q w') :
    wp E (storeDiff p fd start data >>= f) Q w := by
  rw [wp_bind]
  unfold storeDiff
  refine hk.wp_sys_bind hE hB fun c w₁ _ hk₁ => ?_
  split
  · exact hk₁.wp_ret hE hB fun w' hk' => h _ _ _ w' rfl (fun h => by cases h) hk'
  next hok =>
  have hfile : (d.serve c (.pwrite fd start data)).2.inode fd = (d.inode fd).pwrite start data := by
    cases hf : c.sysFails with
    | true => simp [Disk.serve, hf] at hok
    | false => simp [Disk.serve, hf]
  split
  · exact hk₁.wp_ret hE hB fun w' hk' => h _ _ _ w' (onlyValid_validMarkRange _ _ _)
      (fun _ => hfile) hk'
  · exact hk₁.wp_ret hE hB fun w' hk' => h _ _ _ w' rfl (fun _ => hfile) hk'

/-- The ranges one after the other: what the range in hand stores is what `C` has there. -/
theorem Reading.wp_applyDiffRanges (hE : Seen E view ok) {P : Prop} :
    ∀ (rs : List DiffRange) {p : ObjsFile} {d : Disk} {w : W}, Reading E p.blob B Cur C →
      Knows view (fun w => B w ∧ (Cur w → P)) d w → wp E (applyDiffRanges fd rs p)
        (fun r w' => OnlyValid p r.1 ∧ ∃ d', Knows view (fun w => B w ∧ (Cur w → P ∧ (r.2 = true →
          (d.inode fd).size ≤ (d'.inode fd).size ∧ (ClearedIn C rs →
            OutsideDiff C rs (d.inode fd) → OutsideDiff C [] (d'.inode fd))))) d' w') w
  | [], p, d, w, hR, hk => by
    refine hk.wp_ret hE (hR.fact_cur _) fun w' hk' =>
      ⟨rfl, d, ⟨hk'.1.1, fun hc => ⟨hk'.1.2 hc, ?_⟩⟩, hk'.2⟩
    exact fun _ => ⟨Nat.le_refl _, fun _ h => h⟩
  | r :: rs, p, d, w, hR, hk => by
    -- the rest of the ranges, once this one is stored
    have hrest : ∀ {data : Bytes} {w : W}, Knows view (fun w => B w ∧ (Cur w → P ∧
          (ClearedIn C (r :: rs) → OutsideDiff C (r :: rs) (d.inode fd) →
            OutsideDiff C rs ((d.inode fd).pwrite r.start data)))) d w →
        wp E (storeDiff p fd r.start data >>= fun x =>
          if !x.2 then .ret (x.1, false) else applyDiffRanges fd rs x.1)
          (fun r' w' => OnlyValid p r'.1 ∧
          ∃ d', Knows view (fun w => B w ∧ (Cur w → P ∧ (r'.2 = true →
            (d.inode fd).size ≤ (d'.inode fd).size ∧ (ClearedIn C (r :: rs) →
              OutsideDiff C (r :: rs) (d.inode fd) → OutsideDiff C [] (d'.inode fd))))) d' w')
              w := by
      intro data w hk
      refine hk.wp_storeDiff_bind hE (hR.fact_cur _) fun p' stored d' w' hv hfile hk' => ?_
      split
      · refine hk'.wp_ret hE (hR.fact_cur _) fun w' hk' => ⟨hv, d', ⟨hk'.1.1, fun hc => ?_⟩, hk'.2⟩
        exact ⟨(hk'.1.2 hc).1, fun h => by cases h⟩
      · next hstored =>
        have hfile := hfile (by simpa using hstored)
        refine wp_mono ?_ (Reading.wp_applyDiffRanges hE rs (hv.blob ▸ hR) hk')
        rintro x w'' ⟨hx, d'', ⟨hB, hcur⟩, hd⟩
        refine ⟨hv.trans hx, d'', ⟨hB, fun hc => ?_⟩, hd⟩
        obtain ⟨⟨hP, hstep⟩, hdone⟩ := hcur hc
        refine ⟨hP, fun hok => ?_⟩
        rw [hfile] at hdone
        obtain ⟨hsize, hbytes⟩ := hdone hok
        refine ⟨Nat.le_trans (size_le_pwrite _ _ _) hsize, fun hclear hout => ?_⟩
        exact hbytes (fun r' hr' => hclear r' (List.mem_cons_of_mem _ hr')) (hstep hclear hout)
    have hstop : ∀ {w : W}, Knows view (fun w => B w ∧ (Cur w → P)) d w →
        wp E (.ret (p, false)) (fun r' w' => OnlyValid p r'.1 ∧ ∃ d', Knows view (fun w => B w ∧
          (Cur w → P ∧ (r'.2 = true → (d.inode fd).size ≤ (d'.inode fd).size ∧
          (ClearedIn C (r :: rs) →
            OutsideDiff C (r :: rs) (d.inode fd) → OutsideDiff C [] (d'.inode fd))))) d' w') w :=
      fun hk => hk.wp_ret hE (hR.fact_cur _) fun w' hk' => ⟨rfl, d, ⟨hk'.1.1, fun hc =>
        ⟨hk'.1.2 hc, fun h => by cases h⟩⟩, hk'.2⟩
    unfold applyDiffRanges
    dsimp only
    split
    · next hzero =>
      -- an empty range
      have hnone : ∀ j, ¬ r.Has j := by
        unfold DiffRange.Has
        omega
      refine wp_mono ?_ (Reading.wp_applyDiffRanges hE rs hR hk)
      rintro x w' ⟨hv, d', ⟨hB, hcur⟩, hd⟩
      refine ⟨hv, d', ⟨hB, fun hc => ⟨(hcur hc).1, fun hok => ?_⟩⟩, hd⟩
      obtain ⟨hsize, hbytes⟩ := (hcur hc).2 hok
      refine ⟨hsize, fun hclear hout =>
        hbytes (fun r' hr' => hclear r' (List.mem_cons_of_mem _ hr')) ?_⟩
      intro j hj hno
      refine hout j hj fun r' hr' => ?_
      rcases List.mem_cons.mp hr' with rfl | hr'
      · exact hnone j
      · exact hno r' hr'
    next hlen =>
    split
    · next hclear =>
      refine wp_quiet_bind hE.quiet rfl fun m _ => ?_
      split
      · exact hstop hk
      · refine hrest ⟨⟨hk.1.1, fun hc => ⟨hk.1.2 hc, fun hzero hout => ?_⟩⟩, hk.2⟩
        refine hout.pwrite rfl fun j hj _ => ?_
        rw [SparseFile.truncate_get, SparseFile.empty_get, ite_self]
        exact (hzero r List.mem_cons_self hclear j hj).symm
    · refine hR.wp_azPageBlobRead_bind hE hk fun x w₁ hk₁ => ?_
      split
      · exact hstop ⟨⟨hk₁.1.1, fun hc => (hk₁.1.2 hc).1⟩, hk₁.2⟩
      · next hx =>
        obtain ⟨herr, hsize⟩ := not_or.mp hx
        refine hrest ⟨⟨hk₁.1.1, fun hc => ⟨(hk₁.1.2 hc).1, fun _ hout => ?_⟩⟩, hk₁.2⟩
        have hbody := (hk₁.1.2 hc).2 (by simpa using herr)
        refine hout.pwrite ?_ fun j hj _ => ?_
        · rw [SparseFile.slice_size]
          omega
        · unfold DiffRange.Has at hj
          rw [SparseFile.slice_get_of_lt _ (by omega), hbody,
            SparseFile.slice_get_of_lt _ (by omega)]
          congr 1
          omega

/-- The diff was answered with these ranges. -/
def DiffAnswer (E : Setting W Ans) (i : BlobId) (B : W → Prop) (rs : List DiffRange) : Prop :=
  ∃ s w, ∃ x : AzReply, ∃ w', B w ∧ E.serve (.azure (.blobGetPageRangesDiff i s)) w x w' ∧
    x.err = .ok ∧ x.ranges = rs

/-- The changes since a snapshot, or nothing. Where they are applied the file is ready,
and its bytes are what the diff made of the cache file. -/
theorem Reading.wp_applyIncrementalDiff_bind (hR : Reading E p.blob B Cur C) (hE : Seen E view ok)
    {q : ObjsFile} (hq : OnlyCache p q) (he : q.etag = p.etag) (hpage : LegalPageSize q.pageSize)
    (hfd : q.cacheFd = some fd) (hk : Knows view B d w) {f : ObjsFile × Bool → Prog α}
    {Q : α → W → Prop}
    (hfail : ∀ q' d' w', OnlyValid q q' → Knows view B d' w' → wp E (f (q', false)) Q w')
    (h : ∀ rs p' d' w', DiffAnswer E p.blob B rs → Ready E p p' fd C.size →
      p'.lastSyncedSize = C.size → (∃ bm, p'.dirty = bitmapClearAll bm) →
      Knows view (fun w => B w ∧ (Cur w → Diffed C rs q.nData (d.inode fd) (d'.inode fd))) d' w' →
      wp E (f (p', true)) Q w') :
    wp E (applyIncrementalDiff q fd C.size >>= f) Q w := by
  have hblob : q.blob = p.blob := by
    unfold OnlyCache at hq
    rw [hq]
    rfl
  have hno : ∀ {q' : ObjsFile} {d : Disk} {w : W}, OnlyValid q q' → Knows view B d w →
      wp E (.ret (q', false)) (fun r w => wp E (f r) Q w) w :=
    fun hv hk => hk.wp_ret hE hR.fact fun w' hk' => hfail _ _ w' hv hk'
  rw [wp_bind]
  unfold applyIncrementalDiff
  split
  · exact hno rfl hk
  split
  · exact hno rfl hk
  unfold azBlobGetPageRangesDiff
  rw [hblob]
  refine SqliteObjs.wp_execute_bind (hR.fact.knows_stable hE) hk fun w diff w₁ hk hs => ?_
  obtain ⟨hg, hB⟩ := hR.diff _ w diff w₁ hk.1 hs
  have hk₁ : Knows view B d w₁ := ⟨hB, (hE.azure_disk hs).trans hk.2⟩
  refine ⟨hg, fun _ => hk₁, ?_⟩
  split
  · exact hno rfl hk₁
  next hdiff =>
  have hanswer : DiffAnswer E p.blob B diff.ranges :=
    ⟨_, w, diff, w₁, hk.1, hs, by simpa using hdiff, rfl⟩
  rw [wp_bind]
  have hgrow : wp E (growForDiff q fd C.size) (fun g w' => ∃ d', Knows view B d' w' ∧ (g.ok = true →
      (q.nData ≤ (d.inode fd).size → C.size ≤ (d'.inode fd).size) ∧
      (OutsideDiff C diff.ranges (d.inode fd) → OutsideDiff C diff.ranges (d'.inode fd)))) w₁ := by
    unfold growForDiff
    split
    · rw [← bind_pure (SqliteObjs.sys _)]
      refine hk₁.wp_sys_bind hE hR.fact fun c w' _ hk' => hk'.wp_ret hE hR.fact fun w' hk' =>
        ⟨_, hk', ?_⟩
      intro hok
      cases hf : c.sysFails with
      | true => simp [Disk.serve, hf] at hok
      | false =>
        simp only [Disk.serve, hf, Bool.false_eq_true, if_false, Disk.setInode_inode_self]
        exact ⟨fun _ => Nat.le_refl _, outsideDiff_truncate⟩
    · next hge =>
      exact hk₁.wp_ret hE hR.fact fun w' hk' => ⟨d, hk', fun _ => ⟨fun _ => by omega, id⟩⟩
  refine wp_mono ?_ hgrow
  rintro grown w₂ ⟨d₂, hk₂, hgrown⟩
  split
  · exact hno rfl hk₂
  next hgok =>
  obtain ⟨hgsize, hgbytes⟩ := hgrown (by simpa using hgok)
  rw [wp_bind]
  refine wp_mono ?_ (Reading.wp_applyDiffRanges hE diff.ranges (P := True) (hblob.symm ▸ hR)
    ⟨⟨hk₂.1, fun _ => trivial⟩, hk₂.2⟩)
  rintro ⟨q₁, applied⟩ w₃ ⟨hv, d₃, hk₃⟩
  dsimp only at hv hk₃ ⊢
  split
  · exact hno hv ⟨hk₃.1.1, hk₃.2⟩
  next happlied =>
  have hk₃' : Knows view (fun w => B w ∧
      (Cur w → Diffed C diff.ranges q.nData (d.inode fd) (d₃.inode fd))) d₃ w₃ := by
    refine ⟨⟨hk₃.1.1, fun hc => ?_⟩, hk₃.2⟩
    obtain ⟨hsize, hbytes⟩ := (hk₃.1.2 hc).2 (by simpa using happlied)
    refine ⟨fun hn => Nat.le_trans (hgsize hn) hsize, fun hclear hout j hj => ?_⟩
    exact hbytes hclear (hgbytes hout) j hj fun r hr => absurd hr List.not_mem_nil
  rw [wp_bind]
  have hshrink : wp E (shrinkForDiff q₁ fd C.size) (fun _ w' => ∃ d', Knows view (fun w => B w ∧
      (Cur w → Diffed C diff.ranges q.nData (d.inode fd) (d'.inode fd))) d' w') w₃ := by
    unfold shrinkForDiff
    split
    · refine hk₃'.wp_sys_bind hE (hR.fact_cur _) fun c w' _ hk' =>
        hk'.wp_ret hE (hR.fact_cur _) fun w' hk' => ⟨_, ⟨hk'.1.1, fun hc => ?_⟩, hk'.2⟩
      have hdone := hk'.1.2 hc
      cases hf : c.sysFails with
      | true =>
        simp only [Disk.serve, hf, if_true]
        exact hdone
      | false =>
        simp only [Disk.serve, hf, Bool.false_eq_true, if_false, Disk.setInode_inode_self]
        refine ⟨fun _ => Nat.le_refl _, fun hclear hout j hj => ?_⟩
        rw [SparseFile.truncate_get, if_pos hj]
        exact hdone.bytes hclear hout j hj
    · exact hk₃'.wp_ret hE (hR.fact_cur _) fun w' hk' => ⟨d₃, hk'⟩
  refine wp_mono ?_ hshrink
  rintro _ w₄ ⟨d₄, hk₄⟩
  refine hk₄.wp_sys_bind hE (hR.fact_cur _) fun c w₅ _ hk₅ => ?_
  unfold OnlyValid at hv
  refine wp_openFinish (q := { q₁ with nData := C.size }) hE hR ?_ ?_ ?_ ?_ rfl hk₅
    fun p' _ w₆ hready hk₆ => ?_
  · unfold OnlyCache at hq ⊢
    rw [hv, hq]
  · rw [hv]
    exact he
  · rw [hv]
    exact hpage
  · rw [hv]
    exact hfd
  refine hk₆.wp_ret hE (hR.fact_cur _) fun w' hk' => ?_
  exact h diff.ranges _ _ w' hanswer hready.clearDirty hready.nData ⟨_, rfl⟩ hk'

/-- The bytes of a cache file that was brought up to date from `f`: by the ranges of a diff, or
by a download over what was there. -/
def UpToDate (E : Setting W Ans) (i : BlobId) (B : W → Prop) (C f f' : Bytes) : Prop :=
  (∃ rs n, DiffAnswer E i B rs ∧ n ≤ f.size ∧ Diffed C rs n f f') ∨ ∃ g : Bytes, f' = g.pwrite 0 C

/-- A cache file of an earlier session is brought up to date, or opening fails. -/
theorem wp_openStaleCache_over (hE : Seen E view ok) (hR : Reading E p.blob B Cur C)
    (hmode : p.prefetchMode = .all) (hpage : LegalPageSize p.pageSize) (hpos : 0 < C.size)
    {path : Path} {snapshot : Snapshot} (hk : Knows view B d w) :
    wp E (openStaleCache p path fd snapshot C.size) (fun r w' => B w' ∧ ∀ p', r = .ok p' →
      ∃ d', Ready E p p' fd C.size ∧ Knows view (fun w => B w ∧
        (Cur w → UpToDate E p.blob B C (d.inode fd) (d'.inode fd))) d' w') w := by
  unfold openStaleCache
  refine hk.wp_sys_bind hE hR.fact fun c w₁ _ hk₁ => ?_
  obtain ⟨n, hn, hsize⟩ : ∃ n, n ≤ (d.inode fd).size ∧ (d.serve c (.fileSize fd)).1.n = n := by
    refine ⟨_, ?_, rfl⟩
    simp only [Disk.serve]
    split
    · exact Nat.zero_le _
    · exact Nat.le_refl _
  have hd : (d.serve c (.fileSize fd)).2 = d := by
    simp only [Disk.serve]
    split <;> rfl
  rw [hsize]
  rw [hd] at hk₁
  refine wp_bitmapsEnsureCapacity_bind hE.quiet fun q rc hgrown _ => ?_
  have hq : OnlyCache p { q with lastSyncedSize := q.nData } := by
    unfold OnlyCache
    rw [hgrown.eq]
  have hqpage : LegalPageSize q.pageSize := by rw [hgrown.eq]; exact hpage
  have hqfd : q.cacheFd = some fd := by rw [hgrown.eq]
  have hqetag : q.etag = p.etag := by rw [hgrown.eq]
  have hqn : q.nData = n := by rw [hgrown.eq]
  refine hR.wp_applyIncrementalDiff_bind hE hq hqetag hqpage hqfd hk₁ ?_ ?_
  · intro q' d' w' hv hk'
    unfold OnlyValid at hv
    dsimp only
    rw [if_neg (by simp)]
    refine hk'.wp_sys_bind hE hR.fact fun c' w₂ _ hk₂ => ?_
    refine hk₂.wp_sys_bind hE hR.fact fun c'' w₃ _ hk₃ => ?_
    refine wp_mono ?_ (wp_cacheDownload_over hE hR ?_ ?_ hmode ?_ ?_ (fun h => by omega) hk₃)
    · rintro r w₄ ⟨hB, hend⟩
      refine ⟨hB, fun p' hp' => ?_⟩
      obtain ⟨d₄, hready, ⟨hB, hfile⟩, hd₄⟩ := hend p' hp'
      exact ⟨d₄, hready, ⟨hB, fun hc => Or.inr ⟨_, hfile hc⟩⟩, hd₄⟩
    · unfold OnlyCache at hq ⊢
      rw [hv, hgrown.eq]
    · rw [hv]
      exact hqetag
    · rw [hv]
      exact hqpage
    · rw [hv]
      exact hqfd
  · intro rs p' d' w' hanswer hready _ _ hk'
    dsimp only
    rw [if_pos rfl]
    refine hk'.wp_ret hE (hR.fact_cur _) fun w' hk' => ⟨hk'.1.1, ?_⟩
    rintro _ ⟨⟩
    refine ⟨d', hready, ⟨hk'.1.1, fun hc => Or.inl ⟨rs, n, hanswer, hn, ?_⟩⟩, hk'.2⟩
    have hdone := hk'.1.2 hc
    dsimp only at hdone
    rwa [hqn] at hdone

theorem wp_openStaleCache (hE : Seen E view ok) (hR : Reading E p.blob B Cur C)
    (hmode : p.prefetchMode = .all) (hpage : LegalPageSize p.pageSize) (hpos : 0 < C.size)
    {path : Path} {snapshot : Snapshot} (hk : Knows view B d w) :
    wp E (openStaleCache p path fd snapshot C.size) (OpenEnds E view B Cur C False p) w := by
  refine wp_mono ?_ (wp_openStaleCache_over hE hR hmode hpage hpos hk)
  rintro r w' ⟨hB, hend⟩
  refine ⟨hB, fun p' hp' => ?_⟩
  obtain ⟨d', hready, ⟨hB, -⟩, hd'⟩ := hend p' hp'
  exact ⟨fd, d', hready, ⟨hB, fun _ => False.elim⟩, hd'⟩

theorem wp_freshDownload (hE : Seen E view ok) (hR : Reading E p.blob B Cur C)
    (hmode : p.prefetchMode = .all) (hpage : LegalPageSize p.pageSize) (hpos : 0 < C.size)
    {path : Path} (hk : Knows view B d w) :
    wp E (do
      match ← openFreshCache p path with
      | .error rc => return .error rc
      | .ok (p, fd) => cacheDownload p fd C.size) (OpenEnds E view B Cur C False p) w := by
  refine hk.wp_openFreshCache_bind hE hR.fact ?_ fun fd d' w' hempty hk' => ?_
  · exact fun rc w' hk' => hk'.wp_ret hE hR.fact fun w' hk' => ⟨hk'.1, fun _ h => by cases h⟩
  · exact wp_cacheDownload hE hR rfl rfl hmode hpage rfl (fun _ => hempty) (fun h => by omega) hk'

theorem wp_openMismatch (hE : Seen E view ok) (hR : Reading E p.blob B Cur C)
    (hmode : p.prefetchMode = .all) (hpage : LegalPageSize p.pageSize) (hpos : 0 < C.size)
    {path : Path} (hk : Knows view B d w) :
    wp E (openMismatch p path C.size) (OpenEnds E view B Cur C False p) w := by
  unfold openMismatch
  refine hk.wp_readSnapshotFile_bind hE hR.fact fun s w₁ hk₁ => ?_
  cases s with
  | none => exact wp_freshDownload hE hR hmode hpage hpos hk₁
  | some snapshot =>
    refine hk₁.wp_sys_bind hE hR.fact fun c w₂ _ hk₂ => ?_
    have hd : (d.serve c (.openRdwr path)).2 = d := by
      simp only [Disk.serve]
      split
      · rfl
      split <;> rfl
    rw [hd] at hk₂
    split
    · exact wp_freshDownload hE hR hmode hpage hpos hk₂
    · exact wp_openStaleCache hE hR hmode hpage hpos hk₂

theorem wp_adoptCache_bind (hE : Seen E view ok) (hR : Reading E p.blob B Cur C)
    (hmode : p.prefetchMode = .all) (hpage : LegalPageSize p.pageSize) {path : Path}
    (hk : Knows view B d w) {f : ObjsFile → Prog α} {Q : α → W → Prop}
    (h : ∀ p' w', Ready E p p' fd C.size → Knows view B d w' → wp E (f p') Q w') :
    wp E (adoptCache p path fd C.size >>= f) Q w := by
  rw [wp_bind]
  unfold adoptCache
  refine wp_openFinish (P := True) (q := { p with
    cacheFd := some fd, zCachePath := some path, cacheReuse := true, nData := C.size })
    hE hR rfl rfl
    hpage rfl rfl ⟨⟨hk.1, fun _ => trivial⟩, hk.2⟩ fun p' _ w₁ hready hk₁ => ?_
  dsimp only
  refine Knows.wp_readSnapshotFile_bind ⟨hk₁.1.1, hk₁.2⟩ hE hR.fact fun s w₂ hk₂ => ?_
  have hall : p'.prefetchMode = .all := by
    have honly := hready.only
    unfold OnlyCache at honly
    exact (congrArg ObjsFile.prefetchMode honly).trans hmode
  unfold loadValid
  rw [if_pos (by rw [hall]; decide)]
  refine hk₂.wp_ret hE hR.fact fun w' hk' => h _ w' ?_ hk'
  exact { hready with only := hready.only.trans rfl }

theorem wp_openReuse (hE : Seen E view ok) (hR : Reading E p.blob B Cur C)
    (hmode : p.prefetchMode = .all) (hpage : LegalPageSize p.pageSize) (hpos : 0 < C.size)
    {path : Path} (hk : Knows view B d w) :
    wp E (openReuse p path C.size) (OpenEnds E view B Cur C False p) w := by
  unfold openReuse
  refine hk.wp_readEtagFile_bind hE hR.fact fun stored w₁ hk₁ => ?_
  split
  · refine hk₁.wp_sys_bind hE hR.fact fun c w₂ _ hk₂ => ?_
    split
    · exact wp_openMismatch hE hR hmode hpage hpos hk₂
    refine hk₂.wp_sys_bind hE hR.fact fun c' w₃ _ hk₃ => ?_
    split
    · refine wp_adoptCache_bind hE hR hmode hpage hk₃ fun p' w' hready hk' => ?_
      refine hk'.wp_ret hE hR.fact fun w' hk' => ⟨hk'.1, ?_⟩
      rintro _ ⟨⟩
      exact ⟨_, _, hready, ⟨hk'.1, fun _ => False.elim⟩, hk'.2⟩
    · exact wp_openMismatch hE hR hmode hpage hpos hk₃
  · exact wp_openMismatch hE hR hmode hpage hpos hk₁

theorem OpenEnds.mono {trusted trusted' : Prop} (ht : trusted' → trusted) {r : Except Rc ObjsFile}
    (h : OpenEnds E view B Cur C trusted p r w) : OpenEnds E view B Cur C trusted' p r w := by
  refine ⟨h.1, fun p' hr => ?_⟩
  obtain ⟨fd, d, hready, hk⟩ := h.2 p' hr
  exact ⟨fd, d, hready, ⟨hk.1.1, fun hc h => hk.1.2 hc (ht h)⟩, hk.2⟩

/-! ## The blob -/

/-- A `HEAD` names the current version: what is read from then on is its content, as
long as it stays the current one. -/
def HeadNames (E : Setting W Ans) (b : BlobId) (B : W → Prop) (Cur : ETag → Bytes → W → Prop)
    (B' : ETag → Bytes → W → Prop) : Prop :=
  ∀ w (x : AzReply) w', B w → E.serve (.azure (.blobGetProperties b)) w x w' →
    E.guar w w' ∧ B w' ∧ (x.err = .ok → ∃ e C, x.etag = some e ∧ x.size = C.size ∧
      B' e C w' ∧ Reading E b (B' e C) (Cur e C) C)

/-- `xOpen` of a database whose blob is there. -/
theorem wp_openExisting {CurV : ETag → Bytes → W → Prop} {B' : ETag → Bytes → W → Prop}
    (hE : Seen E view ok) (hB : Fact E B) (hhead : HeadNames E p.blob B CurV B')
    (hmode : p.prefetchMode = .all) (hpage : LegalPageSize p.pageSize) (h0 : p.lastSyncedSize = 0)
    (hk : Knows view B d w) {Q : Except Rc ObjsFile → W → Prop}
    (hfail : ∀ rc w', B w' → Q (.error rc) w')
    (h : ∀ e C r w', OpenEnds E view (B' e C) (CurV e C) C (uri.cacheReuse = false)
      { p with etag := some e } r w' → Q r w') :
    wp E (openExisting p uri) Q w := by
  unfold openExisting azBlobGetProperties
  refine SqliteObjs.wp_execute_bind (hB.knows_stable hE) hk fun w x w₁ hk hs => ?_
  obtain ⟨hg, hB₁, hnames⟩ := hhead w x w₁ hk.1 hs
  have hd : (view w₁).disk = d := (hE.azure_disk hs).trans hk.2
  refine ⟨hg, fun _ => ⟨hB₁, hd⟩, ?_⟩
  split
  · exact Knows.wp_ret ⟨hB₁, hd⟩ hE hB fun w' hk' => hfail _ w' hk'.1
  next hx =>
  obtain ⟨e, C, hetag, hsize, hB', hR⟩ := hnames (by simpa using hx)
  rw [hetag, hsize]
  have hk' : Knows view (B' e C) d w₁ := ⟨hB', hd⟩
  have htemp : ∀ {w : W}, Knows view (B' e C) d w →
      wp E (openTemp { p with etag := some e } uri C.size) Q w :=
    fun hk => wp_mono (fun r w' hr => h e C r w' hr)
      (wp_openTemp (p := { p with etag := some e }) hE hR hmode hpage h0 hk)
  dsimp only
  split
  · next hreuse =>
    unfold buildCachePath
    refine wp_bind.mpr (wp_quiet_bind hE.quiet rfl fun m _ => ?_)
    split
    · refine hk'.wp_ret hE hR.fact fun w₂ hk₂ => ?_
      refine wp_mono (fun r w' hr => h e C r w' (hr.mono ?_))
        (wp_openReuse (p := { p with etag := some e }) hE hR hmode hpage hreuse.2 hk₂)
      intro hno
      rw [hno] at hreuse
      exact Bool.noConfusion hreuse.1
    · exact hk'.wp_ret hE hR.fact fun w₂ hk₂ => htemp hk₂
  · exact htemp hk'

theorem Knows.wp_newCache_bind (hk : Knows view B d w) (hE : Seen E view ok) (hB : Fact E B)
    {f : Except Rc (ObjsFile × Fd) → Prog α} {Q : α → W → Prop}
    (hfail : ∀ rc w', Knows view B d w' → wp E (f (.error rc)) Q w')
    (h : ∀ p' fd d' w', OnlyCache p p' → p'.etag = p.etag → p'.cacheFd = some fd →
      p'.pageSize = p.pageSize → p'.lastSyncedSize = p.lastSyncedSize → p'.dirty = p.dirty →
      d'.inode fd = .empty → Knows view B d' w' → wp E (f (.ok (p', fd))) Q w') :
    wp E (newCache p uri >>= f) Q w := by
  have htemp : ∀ {w : W}, Knows view B d w →
      wp E (openTempCache p uri) (fun r w => wp E (f r) Q w) w :=
    fun hk => wp_bind.mp (hk.wp_openTempCache_bind hE hB hfail fun path w' hk' =>
      h _ _ _ w' rfl rfl rfl rfl rfl rfl (d.newFile_inode path) hk')
  rw [wp_bind]
  unfold newCache
  split
  · unfold buildCachePath
    rw [wp_bind]
    refine wp_quiet_bind hE.quiet rfl fun m _ => ?_
    split
    · refine hk.wp_ret hE hB fun w₁ hk₁ => wp_bind.mp ?_
      exact hk₁.wp_openFreshCache_bind hE hB hfail fun fd d' w' hempty hk' =>
        h _ fd d' w' rfl rfl rfl rfl rfl rfl hempty hk'
    · exact hk.wp_ret hE hB fun w₁ hk₁ => htemp hk₁
  · exact htemp hk

/-- `xOpen` of a database that is created: an empty file and an empty cache file. -/
theorem wp_openCreated {N : W → Prop} (hE : Seen E view ok) (hB : Fact E B) (hN : Fact E N)
    (hops : p.ops.Complete)
    (hcreate : ∀ w (x : AzReply) w', N w → E.serve (.azure (.pageBlobCreate p.blob 0)) w x w' →
      E.guar w w' ∧ (x.err ≠ .ok → N w') ∧ (x.err = .ok → B w'))
    (hpage : LegalPageSize p.pageSize) (h0 : p.lastSyncedSize = 0)
    (hk : Knows view N d w) {Q : Except Rc ObjsFile → W → Prop}
    (hfail : ∀ rc w', N w' ∨ B w' → Q (.error rc) w')
    (h : ∀ p' fd d' w', Ready E p p' fd 0 → d'.inode fd = .empty → Knows view B d' w' →
      Q (.ok p') w') :
    wp E (openCreated p uri) Q w := by
  have hop : p.ops.pageBlobCreate = true := by rw [hops]; rfl
  unfold openCreated createBlob azPageBlobCreate
  rw [if_pos hop, if_neg (by decide), wp_bind]
  refine SqliteObjs.wp_execute_bind (hN.knows_stable hE) hk fun w x w₁ hk hs => ?_
  obtain ⟨hg, hbad, hgood⟩ := hcreate w x w₁ hk.1 hs
  have hd : (view w₁).disk = d := (hE.azure_disk hs).trans hk.2
  refine ⟨hg, fun hretry => ⟨hbad fun he => ?_, hd⟩, ?_⟩
  · rw [he] at hretry
    exact Bool.noConfusion hretry
  by_cases hx : x.err = .ok
  rotate_left
  · refine Knows.wp_ret ⟨hbad hx, hd⟩ hE hN fun w₂ hk₂ => ?_
    rw [if_pos hx]
    exact hk₂.wp_ret hE hN fun w' hk' => hfail _ w' (Or.inl hk'.1)
  refine Knows.wp_ret ⟨hgood hx, hd⟩ hE hB fun w₂ hk₂ => ?_
  rw [if_neg (by simpa using hx)]
  refine hk₂.wp_newCache_bind hE hB ?_ ?_
  · exact fun rc w' hk' => hk'.wp_ret hE hB fun w' hk' => hfail _ w' (Or.inr hk'.1)
  intro p' fd d' w' hp' hetag hfd hps hls hdirty hempty hk'
  refine hk'.wp_ret hE hB fun w' hk' => h _ fd d' w' ?_ hempty hk'
  refine ⟨hp'.trans rfl, hetag, hfd, rfl, Nat.le_of_eq (hls.trans h0), hps ▸ hpage, fun _ _ => ?_⟩
  rw [pagesOf_le_iff (hps ▸ hpage.pos)]
  exact Nat.zero_le _

/-- `xOpen` of a database. `N` is what is known when the blob was found missing. -/
theorem wp_openMainDb (CurV : ETag → Bytes → W → Prop) (B' : ETag → Bytes → W → Prop)
    (N B₂ : W → Prop) (hE : Seen E view ok) (hB : Fact E B) (hN : Fact E N) (hB₂ : Fact E B₂)
    (hops : p.ops.Complete) (hhead : HeadNames E p.blob B CurV B')
    (hmissing : ∀ w (x : AzReply) w', B w → E.serve (.azure (.blobGetProperties p.blob)) w x w' →
      x.err = .notFound → N w')
    (hcreate : ∀ w (x : AzReply) w', N w → E.serve (.azure (.pageBlobCreate p.blob 0)) w x w' →
      E.guar w w' ∧ (x.err ≠ .ok → N w') ∧ (x.err = .ok → B₂ w'))
    (hmode : p.prefetchMode = .all) (hpage : LegalPageSize p.pageSize) (h0 : p.lastSyncedSize = 0)
    (hk : Knows view B d w) {create : Bool} {Q : Except Rc ObjsFile → W → Prop}
    (hfail : ∀ rc w', B w' ∨ N w' ∨ B₂ w' → Q (.error rc) w')
    (hfound : ∀ e C r w', OpenEnds E view (B' e C) (CurV e C) C (uri.cacheReuse = false)
      { p with etag := some e } r w' → Q r w')
    (hcreated : ∀ p' fd d' w', Ready E p p' fd 0 → d'.inode fd = .empty → Knows view B₂ d' w' →
      Q (.ok p') w') :
    wp E (openMainDb p uri create) Q w := by
  have hex : p.ops.blobExists = true := by rw [hops]; rfl
  have hprops : p.ops.blobGetProperties = true := by rw [hops]; rfl
  unfold openMainDb checkExists azBlobExists azBlobGetProperties
  rw [if_pos hex, wp_bind]
  refine SqliteObjs.wp_execute_bind (hB.knows_stable hE) hk fun w x w₁ hk hs => ?_
  obtain ⟨hg, hB₁, -⟩ := hhead w x w₁ hk.1 hs
  have hd : (view w₁).disk = d := (hE.azure_disk hs).trans hk.2
  refine ⟨hg, fun _ => ⟨hB₁, hd⟩, ?_⟩
  have hk₁ : Knows view B d w₁ := ⟨hB₁, hd⟩
  split
  · -- the blob is there
    refine hk₁.wp_ret hE hB fun w₂ hk₂ => ?_
    simp only [hprops, Bool.and_true, ne_eq, not_true_eq_false, false_and, if_false, if_true]
    exact wp_openExisting hE hB hhead hmode hpage h0 hk₂
      (fun rc w' hB' => hfail rc w' (Or.inl hB')) hfound
  next hok =>
  split
  · next hnf =>
    have hkN : Knows view N d w₁ := ⟨hmissing w x w₁ hk.1 hs hnf, hd⟩
    refine hkN.wp_ret hE hN fun w₂ hk₂ => ?_
    simp only [Bool.false_and, Bool.false_eq_true, ne_eq, not_true_eq_false, false_and, if_false]
    split
    · refine wp_openCreated hE hB₂ hN hops hcreate hpage h0 hk₂ ?_ hcreated
      exact fun rc w' h => hfail rc w' (Or.inr h)
    · exact hk₂.wp_ret hE hN fun w' hk' => hfail _ w' (Or.inr (Or.inl hk'.1))
  · next hnf =>
    refine hk₁.wp_ret hE hB fun w₂ hk₂ => ?_
    dsimp only
    rw [if_pos ⟨hok, hnf⟩]
    exact hk₂.wp_ret hE hB fun w' hk' => hfail _ w' (Or.inl hk'.1)

/-- `xOpen` of a database, up to the client it selects. -/
theorem wp_sqliteObjsOpen_mainDb (hq : Quiet E) {v : VfsData} {name : String} {create : Bool}
    {Q : VfsData × Except Rc ObjsFile → W → Prop} (hQ : ∀ rc, Stable E (Q (v, .error rc)))
    (hfail : ∀ rc, Q (v, .error rc) w)
    (h : ∀ ops ctx, selectedOps v uri = some (ops, ctx) →
      wp E (openMainDb (newFile ops ctx name uri .mainDb) uri create)
        (fun r w' => wp E (.ret (v, r.map fun p => { p with dirty := bitmapClearAll p.dirty }))
          Q w') w) :
    wp E (sqliteObjsOpen v name uri .mainDb create) Q w := by
  have hret : ∀ rc, wp E (.ret (v, .error rc)) Q w :=
    fun rc => wp_ret_of (hfail rc) (hQ rc) fun _ h => h
  unfold sqliteObjsOpen
  split
  · exact hret _
  refine wp_quiet_bind hq rfl fun m _ => ?_
  split
  · exact hret _
  refine wp_selectOps_bind hq (fun _ => hret _) fun ops ctx hsel => ?_
  exact wp_bind.mpr (h ops ctx hsel)

end Opening
end SqliteObjs
