import SqliteObjs.MainDb.Mirror
import SqliteObjs.Vfs.Alone

/-!
# A client and its machine

A client's machine is its own: whatever the others do, the disk the client sees is
what its own calls made of it. `Seen E view ok` says that a program running in the
setting `E` sees a world through `view`, with answers by choices that satisfy `ok`.
`Knows view A d` is what such a program knows between two requests: its disk exactly,
and of the service a fact `A` that survives the moves of the others.

The rules below are for the parts of the VFS that work on the cache file.
-/

set_option autoImplicit false

namespace SqliteObjs

open Data CS CS.Program

/-- A program in `E` sees one machine and the service. -/
structure Seen {W : Type} (E : Setting W Ans) (view : W → World) (ok : Req → Choice → Prop) :
    Prop where
  rely_disk : ∀ w w', E.rely w w' → (view w').disk = (view w).disk
  serve : ∀ r w (x : Ans r) w', E.serve r w x w' →
    ∃ c, ok r c ∧ World.respond c r (view w) = some (x, view w')
  guar_sys : ∀ (r : SysReq) w (x : SysReply) w', E.serve (.sys r) w x w' → E.guar w w'
  quiet : Quiet E

/-- A fact that the others and the client's own system calls keep. -/
structure Fact {W : Type} (E : Setting W Ans) (A : W → Prop) : Prop where
  stable : Stable E A
  sys : ∀ (r : SysReq) w (x : SysReply) w', E.serve (.sys r) w x w' → A w → A w'

/-- The fact `A` holds and the disk is `d`. -/
def Knows {W : Type} (view : W → World) (A : W → Prop) (d : Disk) (w : W) : Prop :=
  A w ∧ (view w).disk = d

/-- No system call fails, but for allocations. -/
def DiskWorks (ok : Req → Choice → Prop) : Prop :=
  ∀ (r : SysReq) c, (∀ n, r ≠ .malloc n) → ok (.sys r) c → c.sysFails = false

theorem Disk.setInode_self (d : Disk) (fd : Fd) : d.setInode fd (d.inode fd) = d := by
  simp [Disk.setInode]

theorem Disk.setInode_setInode (d : Disk) (fd : Fd) (f g : Bytes) :
    (d.setInode fd f).setInode fd g = d.setInode fd g := by
  simp [Disk.setInode]

section Local

variable {W α : Type} {E : Setting W Ans} {view : W → World} {ok : Req → Choice → Prop}
  {A : W → Prop} {d : Disk} {w : W}

theorem Seen.serve_sys (hE : Seen E view ok) {r : SysReq} {x : SysReply} {w' : W}
    (h : E.serve (.sys r) w x w') :
    ∃ c, ok (.sys r) c ∧ x = ((view w).disk.serve c r).1 ∧
      view w' = { view w with disk := ((view w).disk.serve c r).2 } := by
  obtain ⟨c, hc, hs⟩ := hE.serve (.sys r) w x w' h
  cases r with
  | relock => simp [World.respond] at hs
  | _ =>
    simp only [World.respond, Option.some.injEq, Prod.mk.injEq] at hs
    exact ⟨c, hc, hs.1.symm, hs.2.symm⟩

/-- A request to the service leaves the disk alone. -/
theorem Seen.azure_disk (hE : Seen E view ok) {r : AzReq} {x : AzReply} {w' : W}
    (h : E.serve (.azure r) w x w') : (view w').disk = (view w).disk := by
  obtain ⟨c, -, hs⟩ := hE.serve (.azure r) w x w' h
  simp only [World.respond, Option.map_eq_some_iff, Prod.mk.injEq] at hs
  obtain ⟨⟨x', a⟩, -, -, hw⟩ := hs
  rw [← hw]

theorem Fact.knows_stable (hE : Seen E view ok) (hA : Fact E A) : Stable E (Knows view A d) :=
  fun w w' hw h => ⟨hA.stable w w' hw h.1, (hE.rely_disk w w' hw).trans h.2⟩

theorem Fact.and {B : W → Prop} (hA : Fact E A) (hB : Fact E B) : Fact E fun w => A w ∧ B w :=
  ⟨stable_and hA.stable hB.stable, fun r w x w' hs h =>
    ⟨hA.sys r w x w' hs h.1, hB.sys r w x w' hs h.2⟩⟩

/-- One system call, from a known disk. -/
theorem Knows.wp_sys_bind (hk : Knows view A d w) (hE : Seen E view ok) (hA : Fact E A) {r : SysReq}
    {f : SysReply → Prog α} {Q : α → W → Prop}
    (h : ∀ c w', ok (.sys r) c → Knows view A (d.serve c r).2 w' →
      wp E (f (d.serve c r).1) Q w') : wp E (sys r >>= f) Q w := by
  apply SqliteObjs.wp_sys_bind hk (hA.knows_stable hE)
  intro w x w' hk hs
  obtain ⟨c, hc, rfl, hw'⟩ := hE.serve_sys hs
  refine ⟨hE.guar_sys r w _ w' hs, ?_⟩
  rw [hk.2] at hs hw' ⊢
  exact h c w' hc ⟨hA.sys r w _ w' hs hk.1, by rw [hw']⟩

theorem Knows.wp_ret (hk : Knows view A d w) (hE : Seen E view ok) (hA : Fact E A) {a : α}
    {Q : α → W → Prop} (h : ∀ w', Knows view A d w' → Q a w') : wp E (.ret a) Q w :=
  wp_ret_of hk (hA.knows_stable hE) h

/-- One request to the service that keeps the fact. -/
theorem Knows.wp_execute_bind (hk : Knows view A d w) (hE : Seen E view ok) (hA : Fact E A)
    {r : AzReq} {f : AzReply → Prog α} {Q : α → W → Prop}
    (h : ∀ w (x : AzReply) w', A w → E.serve (.azure r) w x w' → E.guar w w' ∧ A w')
    (hf : ∀ (x : AzReply) w', Knows view A d w' → wp E (f x) Q w') :
    wp E (execute r >>= f) Q w := by
  apply SqliteObjs.wp_execute_bind (hA.knows_stable hE) hk
  intro w x w' hk hs
  obtain ⟨hg, hA'⟩ := h w x w' hk.1 hs
  have hk' : Knows view A d w' := ⟨hA', (hE.azure_disk hs).trans hk.2⟩
  exact ⟨hg, fun _ => hk', hf x w' hk'⟩

/-! ## Bitmaps -/

/-- The bitmap has at least as many bytes and the same bits. -/
structure Bitmap.Extends (bm bm' : Bitmap) : Prop where
  bits : ∀ j, bm'.bit j = bm.bit j
  nSet : bm'.nSet = bm.nSet
  nAlloc : bm.nAlloc ≤ bm'.nAlloc

theorem Bitmap.Extends.refl (bm : Bitmap) : bm.Extends bm := ⟨fun _ => rfl, rfl, Nat.le_refl _⟩

theorem Bitmap.extends_grow (bm : Bitmap) (n : Nat) : bm.Extends (bm.grow n) :=
  ⟨bm.bit_grow n, rfl, by rw [bm.nAlloc_grow]; exact Nat.le_max_left _ _⟩

theorem Bitmap.Extends.counted {bm bm' : Bitmap} (h : bm.Extends bm') (hc : bm.Counted) :
    bm'.Counted :=
  ⟨by rw [h.nSet]; exact hc.nonneg, fun h0 j => by
    rw [h.bits]
    exact hc.none_of_zero (by rw [← h.nSet]; exact h0) j⟩

/-- Growing a bitmap touches nothing, and fails only for want of memory. -/
theorem wp_bitmapEnsureCapacity_bind (hq : Quiet E) {bm : Bitmap} {fileSize ps : Nat}
    {f : Bitmap × Rc → Prog α} {Q : α → W → Prop}
    (h : ∀ bm' rc, bm.Extends bm' → (Allocates E → rc = .ok) →
      (rc = .ok → bitmapSize fileSize ps ≤ bm'.nAlloc) → wp E (f (bm', rc)) Q w) :
    wp E (bitmapEnsureCapacity bm fileSize ps >>= f) Q w := by
  have hret : ∀ {bm' : Bitmap} {rc : Rc}, bm.Extends bm' → (Allocates E → rc = .ok) →
      (rc = .ok → bitmapSize fileSize ps ≤ bm'.nAlloc) →
      wp E (.ret (bm', rc)) (fun r w => wp E (f r) Q w) w :=
    fun h₁ h₂ h₃ w₁ hw => wp_stable hw (h _ _ h₁ h₂ h₃)
  rw [wp_bind]
  unfold bitmapEnsureCapacity
  dsimp only
  split
  · next hle => exact hret (.refl bm) (fun _ => rfl) fun _ => by omega
  split
  · next hle => exact hret (.refl bm) (fun _ => rfl) fun _ => hle
  next h₁ h₂ =>
  refine wp_quiet_bind hq rfl fun m hm => ?_
  split
  · next hno =>
    refine hret (.refl bm) (fun ha => ?_) fun he => by simp at he
    rw [ha.ok hm] at hno
    exact Bool.noConfusion hno
  · refine hret (bm.extends_grow (bitmapSize fileSize ps).toNat) (fun _ => rfl) fun _ => ?_
    have hn := bm.nAlloc_grow (bitmapSize fileSize ps).toNat
    unfold Bitmap.grow at hn
    rw [hn]
    omega

/-- The file after its bitmaps have grown. -/
structure Grown (p p' : ObjsFile) : Prop where
  eq : p' = { p with dirty := p'.dirty, valid := p'.valid }
  dirty : p.dirty.Extends p'.dirty
  valid : p.valid.Extends p'.valid
  eager : p.prefetchMode ≠ .none → p'.valid = p.valid

theorem Grown.refl (p : ObjsFile) : Grown p p :=
  ⟨rfl, .refl _, .refl _, fun _ => rfl⟩

theorem room_of_bitmapSize {n ps a : Nat} (hps : 0 < ps) (hsmall : pagesOf n ps ≤ maxPages)
    (h : bitmapSize n ps ≤ a) : pagesOf n ps ≤ 8 * a := by
  rw [bitmapSize_of_le hps hsmall] at h
  unfold pagesOf at hsmall ⊢
  generalize (n + ps - 1) / ps = q at *
  omega

theorem wp_bitmapsEnsureCapacity_bind (hq : Quiet E) {p : ObjsFile} {f : ObjsFile × Rc → Prog α}
    {Q : α → W → Prop}
    (h : ∀ p' rc, Grown p p' → (Allocates E → rc = .ok ∧ (0 < p.pageSize →
      pagesOf p.nData p.pageSize ≤ maxPages →
      pagesOf p.nData p.pageSize ≤ 8 * p'.dirty.nAlloc ∧
      (p.prefetchMode = .none → pagesOf p.nData p.pageSize ≤ 8 * p'.valid.nAlloc))) →
      wp E (f (p', rc)) Q w) :
    wp E (bitmapsEnsureCapacity p >>= f) Q w := by
  rw [wp_bind]
  unfold bitmapsEnsureCapacity
  refine wp_bitmapEnsureCapacity_bind hq fun dirty rc hext hal hroom => ?_
  dsimp only
  split
  · next hne =>
    exact fun w₁ hw => wp_stable hw (h _ _ ⟨rfl, hext, .refl _, fun _ => rfl⟩ fun ha =>
      absurd (hal ha) hne)
  next heq =>
  have hdirty : 0 < p.pageSize → pagesOf p.nData p.pageSize ≤ maxPages →
      pagesOf p.nData p.pageSize ≤ 8 * dirty.nAlloc :=
    fun hps hsmall => room_of_bitmapSize hps hsmall (hroom (by simpa using heq))
  split
  · next hlazy =>
    refine wp_bitmapEnsureCapacity_bind hq fun valid rc' hext' hal' hroom' => ?_
    refine fun w₁ hw => wp_stable hw (h _ _ ⟨rfl, hext, hext', fun hm => absurd hlazy hm⟩
      fun ha => ⟨hal' ha, ?_⟩)
    exact fun hps hsmall =>
      ⟨hdirty hps hsmall, fun _ => room_of_bitmapSize hps hsmall (hroom' (hal' ha))⟩
  · next hmode =>
    refine fun w₁ hw => wp_stable hw (h _ _ ⟨rfl, hext, .refl _, fun _ => rfl⟩ fun _ => ⟨rfl, ?_⟩)
    exact fun hps hsmall => ⟨hdirty hps hsmall, fun hm => absurd hm hmode⟩

end Local
end SqliteObjs
