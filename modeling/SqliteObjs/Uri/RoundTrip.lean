import Mathlib.Data.List.Nodup
import Mathlib.Data.List.TakeWhile
import SqliteObjs.Uri.Text

/-!
# What SQLite reads in a built URI

The values of a builder are arbitrary texts without zero bytes. What `percent_encode` leaves is
neither a separator nor the beginning of an escape, so the decoder finds the end of each part
where the builder put it.
-/

set_option autoImplicit false

namespace SqliteObjs

open PercentEncoding

/-! ## What a builder says -/

/-- The parameters that a builder can write. -/
inductive UriKey
  | account | container | sas | key | endpoint | cacheDir | cacheReuse | prefetch
  deriving DecidableEq

namespace UriKey

def text : UriKey → List Char
  | account => "azure_account".toList
  | container => "azure_container".toList
  | sas => "azure_sas".toList
  | key => "azure_key".toList
  | endpoint => "azure_endpoint".toList
  | cacheDir => "cache_dir".toList
  | cacheReuse => "cache_reuse".toList
  | prefetch => "prefetch".toList

def all : List UriKey :=
  [account, container, sas, key, endpoint, cacheDir, cacheReuse, prefetch]

theorem mem_all (k : UriKey) : k ∈ all := by
  cases k <;> decide

theorem nodup_all : all.Nodup := by decide

theorem text_injective : Function.Injective text := by
  intro k k' h
  have hall : ∀ k ∈ all, ∀ k' ∈ all, k.text = k'.text → k = k' := by decide
  exact hall k (mem_all k) k' (mem_all k') h

theorem text_keep (k : UriKey) : ∀ c ∈ k.text, rfcUnreserved c = true := by
  apply List.all_eq_true.mp
  cases k <;> rfl

theorem text_ne_nil (k : UriKey) : k.text ≠ [] := by
  cases k <;> exact List.cons_ne_nil _ _

end UriKey

/-- What is set for a parameter; a SAS token takes the place of the account key. -/
def UriBuilder.value (b : UriBuilder) : UriKey → Option (List Char)
  | .account => some (utf8 b.account)
  | .container => some (utf8 b.container)
  | .sas => b.sasToken.map utf8
  | .key => if b.sasToken.isSome then none else b.accountKey.map utf8
  | .endpoint => b.endpoint.map utf8
  | .cacheDir => b.cacheDir.map utf8
  | .cacheReuse => if b.cacheReuse then some "1".toList else none
  | .prefetch => b.prefetch.map UriBuilder.PrefetchMode.asUriValue

/-- The parameters that are set. -/
def UriBuilder.parameters (b : UriBuilder) : List (UriKey × List Char) :=
  UriKey.all.filterMap fun k => (b.value k).map fun v => (k, v)

/-- A builder without the field that `build` ignores. -/
def UriBuilder.effective (b : UriBuilder) : UriBuilder :=
  { b with accountKey := if b.sasToken.isSome then none else b.accountKey }

/-- A byte as a character. -/
theorem toNat_ofNat_byte (x : UInt8) : (Char.ofNat x.toNat).toNat = x.toNat := by
  have hvalid : x.toNat.isValidChar := .inl (Nat.lt_trans x.toNat_lt (by decide))
  unfold Char.ofNat
  rw [dif_pos hvalid]
  rfl

theorem utf8_injective : Function.Injective utf8 := by
  intro s t h
  have hmap : s.toUTF8.data.toList = t.toUTF8.data.toList := by
    refine List.map_inj_right ?_ |>.mp h
    intro x y hxy
    apply UInt8.toNat_inj.mp
    rw [← toNat_ofNat_byte x, ← toNat_ofNat_byte y]
    exact congrArg Char.toNat hxy
  apply String.toByteArray_inj.mp
  apply ByteArray.ext
  exact Array.toList_inj.mp hmap

theorem utf8_lt (s : String) : ∀ c ∈ utf8 s, c.toNat < 256 := by
  intro c hc
  obtain ⟨x, -, rfl⟩ := List.mem_map.mp hc
  exact lt_of_eq_of_lt (toNat_ofNat_byte x) x.toNat_lt

theorem mem_parameters {b : UriBuilder} {k : UriKey} {v : List Char} :
    (k, v) ∈ b.parameters ↔ b.value k = some v := by
  unfold UriBuilder.parameters
  rw [List.mem_filterMap]
  constructor
  · rintro ⟨k', -, hk'⟩
    obtain ⟨v', hv', heq⟩ := Option.map_eq_some_iff.mp hk'
    cases heq
    exact hv'
  · intro hv
    exact ⟨k, UriKey.mem_all k, Option.map_eq_some_iff.mpr ⟨v, hv, rfl⟩⟩

/-- The parameters tell the values. -/
theorem value_eq_of_parameters {b b' : UriBuilder} (h : b.parameters = b'.parameters) :
    b.value = b'.value := by
  funext k
  apply Option.ext
  intro v
  rw [← mem_parameters, ← mem_parameters, h]

/-- No parameter is written twice. -/
theorem nodup_parameters (b : UriBuilder) : (b.parameters.map Prod.fst).Nodup := by
  have hsublist : (b.parameters.map Prod.fst).Sublist UriKey.all := by
    unfold UriBuilder.parameters
    induction UriKey.all with
    | nil => exact .slnil
    | cons k keys ih =>
      rw [List.filterMap_cons]
      cases b.value k with
      | none => exact ih.cons k
      | some v => exact ih.cons_cons k
  exact hsublist.nodup UriKey.nodup_all

theorem asUriValue_injective : Function.Injective UriBuilder.PrefetchMode.asUriValue := by
  intro m m' h
  cases m <;> cases m' <;> first | rfl | exact absurd h (by decide)

/-- The values tell the fields that `build` reads. -/
theorem effective_eq_of_value {b b' : UriBuilder} (hdatabase : b.database = b'.database)
    (h : b.value = b'.value) : b.effective = b'.effective := by
  have haccount : b.account = b'.account :=
    utf8_injective (Option.some.inj (congrFun h .account))
  have hcontainer : b.container = b'.container :=
    utf8_injective (Option.some.inj (congrFun h .container))
  have hsas : b.sasToken = b'.sasToken :=
    Option.map_injective utf8_injective (congrFun h .sas)
  have hkey : b.effective.accountKey = b'.effective.accountKey := by
    apply Option.map_injective utf8_injective
    have hvalue : ∀ b : UriBuilder, b.effective.accountKey.map utf8 = b.value .key := by
      intro b
      unfold UriBuilder.effective UriBuilder.value
      split <;> rfl
    rw [hvalue, hvalue, h]
  have hendpoint : b.endpoint = b'.endpoint :=
    Option.map_injective utf8_injective (congrFun h .endpoint)
  have hcacheDir : b.cacheDir = b'.cacheDir :=
    Option.map_injective utf8_injective (congrFun h .cacheDir)
  have hcacheReuse : b.cacheReuse = b'.cacheReuse := by
    have hreuse : ∀ b : UriBuilder, (b.value .cacheReuse).isSome = b.cacheReuse := by
      intro b
      unfold UriBuilder.value
      cases b.cacheReuse <;> rfl
    rw [← hreuse, ← hreuse, h]
  have hprefetch : b.prefetch = b'.prefetch :=
    Option.map_injective asUriValue_injective (congrFun h .prefetch)
  exact UriBuilder.ext hdatabase haccount hcontainer hsas hkey hendpoint hcacheDir hcacheReuse
    hprefetch

/-! ## The text of a URI -/

/-- A parameter in a URI, after its separator. -/
def written (p : UriKey × List Char) : List Char := p.1.text ++ '=' :: encode rfcUnreserved p.2

def writtenRest (ps : List (UriKey × List Char)) : List Char := ps.flatMap fun p => '&' :: written p

/-- What `build` adds for a parameter. -/
def writtenValue (k : UriKey) (v : Option (List Char)) : List Char :=
  match v with
  | some v => '&' :: written (k, v)
  | none => []

theorem writtenRest_filterMap (b : UriBuilder) (ks : List UriKey) :
    writtenRest (ks.filterMap fun k => (b.value k).map fun v => (k, v)) =
      ks.flatMap fun k => writtenValue k (b.value k) := by
  unfold writtenRest
  induction ks with
  | nil => rfl
  | cons k ks ih =>
    rw [List.filterMap_cons, List.flatMap_cons]
    cases b.value k with
    | none => exact ih
    | some v => exact (List.flatMap_cons ..).trans (congrArg (writtenValue k (some v) ++ ·) ih)

/-- A name between its separators. -/
def UriKey.pushed (k : UriKey) : List Char := '&' :: (k.text ++ ['='])

theorem pushParam_encode (k : UriKey) (uri : List Char) (value : Option (List Char)) :
    pushParam uri k.pushed (value.map (encode rfcUnreserved)) = uri ++ writtenValue k value := by
  cases value with
  | none => exact (List.append_nil uri).symm
  | some v =>
    simp only [pushParam, Option.map_some, UriKey.pushed, writtenValue, written, List.append_assoc,
      List.cons_append, List.nil_append]

theorem pushParam_percentEncode (k : UriKey) (uri : List Char) (value : Option String) :
    pushParam uri k.pushed (value.map percentEncode) = uri ++ writtenValue k (value.map utf8) := by
  rw [← pushParam_encode, Option.map_map]
  rfl

theorem asUriValue_keep (m : UriBuilder.PrefetchMode) :
    ∀ c ∈ m.asUriValue, rfcUnreserved c = true := by
  apply List.all_eq_true.mp
  cases m <;> rfl

/-- The names of the modes need no escapes. -/
theorem encode_asUriValue (m : UriBuilder.PrefetchMode) :
    encode rfcUnreserved m.asUriValue = m.asUriValue := by
  apply encode_of_forall
  exact asUriValue_keep m

theorem pushParam_prefetch (uri : List Char) (mode : Option UriBuilder.PrefetchMode) :
    pushParam uri UriKey.prefetch.pushed (mode.map UriBuilder.PrefetchMode.asUriValue) =
      uri ++ writtenValue .prefetch (mode.map UriBuilder.PrefetchMode.asUriValue) := by
  rw [← pushParam_encode, Option.map_map]
  apply congrArg
  cases mode with
  | none => rfl
  | some mode => exact congrArg some (encode_asUriValue mode).symm

theorem pushCredential_eq (b : UriBuilder) (uri : List Char) :
    b.pushCredential uri =
      uri ++ (writtenValue .sas (b.value .sas) ++ writtenValue .key (b.value .key)) := by
  have hsas : "&azure_sas=".toList = UriKey.sas.pushed := rfl
  have hkey : "&azure_key=".toList = UriKey.key.pushed := rfl
  unfold UriBuilder.pushCredential UriBuilder.value
  rw [hsas, hkey]
  cases b.sasToken with
  | none => exact pushParam_percentEncode .key uri b.accountKey
  | some sas =>
    exact (pushParam_percentEncode .sas uri (some sas)).trans
      (congrArg (uri ++ ·) (List.append_nil _).symm)

theorem pushReuse_eq (b : UriBuilder) (uri : List Char) :
    (if b.cacheReuse then uri ++ "&cache_reuse=1".toList else uri) =
      uri ++ writtenValue .cacheReuse (b.value .cacheReuse) := by
  have htext : "&cache_reuse=1".toList = writtenValue .cacheReuse (some "1".toList) := rfl
  unfold UriBuilder.value
  cases b.cacheReuse with
  | false => exact (List.append_nil uri).symm
  | true => exact congrArg (uri ++ ·) htext

/-- `build` writes the parameters one after another. -/
theorem build_eq (b : UriBuilder) :
    b.build = "file:".toList ++ (encode rfcUnreserved (utf8 b.database) ++
      '?' :: (written (.account, utf8 b.account) ++ writtenRest b.parameters.tail)) := by
  have hrest : writtenRest b.parameters.tail =
      writtenValue .container (b.value .container) ++ (writtenValue .sas (b.value .sas) ++
        (writtenValue .key (b.value .key) ++ (writtenValue .endpoint (b.value .endpoint) ++
          (writtenValue .cacheDir (b.value .cacheDir) ++
            (writtenValue .cacheReuse (b.value .cacheReuse) ++
              (writtenValue .prefetch (b.value .prefetch) ++ [])))))) :=
    writtenRest_filterMap b UriKey.all.tail
  have hbase : "file:".toList ++ percentEncode b.database ++ "?azure_account=".toList ++
      percentEncode b.account ++ "&azure_container=".toList ++ percentEncode b.container =
      "file:".toList ++ (encode rfcUnreserved (utf8 b.database) ++
        '?' :: (written (.account, utf8 b.account) ++
          writtenValue .container (b.value .container))) := by
    have haccount : "?azure_account=".toList = '?' :: (UriKey.account.text ++ ['=']) := rfl
    have hcontainer : "&azure_container=".toList = UriKey.container.pushed := rfl
    rw [haccount, hcontainer]
    simp only [percentEncode, UriKey.pushed, written, writtenValue, UriBuilder.value,
      List.append_assoc, List.cons_append, List.nil_append]
  have hendpoint : "&azure_endpoint=".toList = UriKey.endpoint.pushed := rfl
  have hcacheDir : "&cache_dir=".toList = UriKey.cacheDir.pushed := rfl
  have hprefetch : "&prefetch=".toList = UriKey.prefetch.pushed := rfl
  unfold UriBuilder.build
  dsimp only
  rw [hbase, pushCredential_eq, hendpoint, pushParam_percentEncode, hcacheDir,
    pushParam_percentEncode, pushReuse_eq, hprefetch, pushParam_prefetch, hrest]
  simp only [List.append_assoc, List.cons_append, List.append_nil]
  rfl

/-! ## Reading a part -/

/-- The loop reads the piece and is in the second state at what follows it. -/
def Reads (piece : List Char) (state : UriState) (out : List Char) (state' : UriState)
    (out' : List Char) : Prop :=
  ∀ (rest : List Char) (fuel : Nat), (piece ++ rest).length < fuel →
    ∃ fuel', rest.length < fuel' ∧
      parseUriLoop fuel state (piece ++ rest) out = parseUriLoop fuel' state' rest out'

namespace Reads

variable {s t : List Char} {state state' state'' : UriState} {out out' out'' : List Char}

theorem nil (state : UriState) (out : List Char) : Reads [] state out state out :=
  fun _ fuel hfuel => ⟨fuel, hfuel, rfl⟩

theorem append (h : Reads s state out state' out') (h' : Reads t state' out' state'' out'') :
    Reads (s ++ t) state out state'' out'' := by
  intro rest fuel hfuel
  rw [List.append_assoc] at hfuel ⊢
  obtain ⟨fuel', hfuel', heq⟩ := h (t ++ rest) fuel hfuel
  obtain ⟨fuel'', hfuel'', heq'⟩ := h' rest fuel' hfuel'
  exact ⟨fuel'', hfuel'', heq.trans heq'⟩

/-- A character that the loop reads in one round. -/
theorem of_round {c : Char}
    (h : ∀ (fuel : Nat) (rest : List Char),
      parseUriLoop (fuel + 1) state (c :: rest) out = parseUriLoop fuel state' rest out') :
    Reads [c] state out state' out' := by
  intro rest fuel hfuel
  obtain ⟨fuel, rfl⟩ : ∃ n, fuel = n + 1 :=
    Nat.exists_eq_succ_of_ne_zero (Nat.ne_zero_of_lt hfuel)
  refine ⟨fuel, ?_, h fuel rest⟩
  simp only [List.singleton_append, List.length_cons] at hfuel
  omega

end Reads

theorem octet_of_ne {c : Char} (hc : c ≠ '%') (input : List Char) : octet (c :: input) = none := by
  unfold octet
  split
  · next h => exact absurd (List.cons.inj h).1 hc
  · rfl

theorem octet_percent {c : Char} (hc : c.toNat < 256) (input : List Char) :
    octet (percent c ++ input) = some (c.toNat, input) := by
  have hsum : c.toNat / 16 % 16 * 16 + c.toNat % 16 = c.toNat := by omega
  unfold percent octet
  simp only [List.cons_append, List.nil_append]
  rw [hexValue_hexDigit (Nat.mod_lt _ (by decide)), hexValue_hexDigit (Nat.mod_lt _ (by decide))]
  exact congrArg (fun n => some (n, input)) hsum

/-- What is not encoded separates nothing. -/
theorem ne_of_rfcUnreserved {c : Char} (hc : rfcUnreserved c = true) :
    c ≠ '#' ∧ c ≠ '%' ∧ c ≠ '&' ∧ c ≠ '=' ∧ c ≠ '?' := by
  refine ⟨?_, ?_, ?_, ?_, ?_⟩ <;> rintro rfl <;> exact absurd hc (by decide)

theorem reads_kept {c : Char} (hc : rfcUnreserved c = true) (state : UriState) (out : List Char) :
    Reads [c] state out state (out ++ [c]) := by
  obtain ⟨hhash, hpercent, hamp, heq, hmark⟩ := ne_of_rfcUnreserved hc
  apply Reads.of_round
  intro fuel rest
  rw [parseUriLoop, if_neg hhash, octet_of_ne hpercent]
  dsimp only
  rw [if_neg (fun h => h.2.elim hamp heq), if_neg (fun h => h.elim (hmark ·.2) (hamp ·.2))]

theorem reads_percent {c : Char} (hc : c.toNat < 256) (hzero : c ≠ '\x00') (state : UriState)
    (out : List Char) : Reads (percent c) state out state (out ++ [c]) := by
  intro rest fuel hfuel
  obtain ⟨fuel, rfl⟩ : ∃ n, fuel = n + 1 :=
    Nat.exists_eq_succ_of_ne_zero (Nat.ne_zero_of_lt hfuel)
  refine ⟨fuel, ?_, ?_⟩
  · simp only [percent, List.cons_append, List.nil_append, List.length_cons] at hfuel
    omega
  · have hoctet := octet_percent hc rest
    have hnat : c.toNat ≠ 0 := fun h => hzero (Char.toNat_inj.mp h)
    obtain ⟨n, hn⟩ := Nat.exists_eq_succ_of_ne_zero hnat
    rw [hn] at hoctet
    unfold percent at hoctet ⊢
    simp only [List.cons_append, List.nil_append] at hoctet ⊢
    rw [parseUriLoop, if_neg (by decide), hoctet]
    have hchar : Char.ofNat (n + 1) = c := (congrArg Char.ofNat hn).symm.trans (Char.ofNat_toNat c)
    exact congrArg (fun d => parseUriLoop fuel state rest (out ++ [d])) hchar

/-- A value comes out as it was. -/
theorem reads_encode {v : List Char} (hbytes : ∀ c ∈ v, c.toNat < 256)
    (hzero : ∀ c ∈ v, c ≠ '\x00') (state : UriState) (out : List Char) :
    Reads (encode rfcUnreserved v) state out state (out ++ v) := by
  induction v generalizing out with
  | nil =>
    rw [encode_nil, List.append_nil]
    exact .nil state out
  | cons c v ih =>
    obtain ⟨hc, hv⟩ := List.forall_mem_cons.mp hbytes
    obtain ⟨hcz, hvz⟩ := List.forall_mem_cons.mp hzero
    have hhead : Reads (if rfcUnreserved c then [c] else percent c) state out state
        (out ++ [c]) := by
      split
      · next hkeep => exact reads_kept hkeep state out
      · exact reads_percent hc hcz state out
    have hsplit : out ++ c :: v = out ++ [c] ++ v := (List.append_cons out c v)
    rw [encode_cons, hsplit]
    exact hhead.append (ih hv hvz (out ++ [c]))

theorem reads_text (k : UriKey) (state : UriState) (out : List Char) :
    Reads k.text state out state (out ++ k.text) := by
  have hkept : ∀ t : List Char, (∀ c ∈ t, rfcUnreserved c = true) → ∀ out : List Char,
      Reads t state out state (out ++ t) := by
    intro t
    induction t with
    | nil =>
      intro _ out
      rw [List.append_nil]
      exact .nil state out
    | cons c t ih =>
      intro ht out
      obtain ⟨hc, ht⟩ := List.forall_mem_cons.mp ht
      rw [List.append_cons]
      exact (reads_kept hc state out).append (ih ht (out ++ [c]))
  exact hkept k.text k.text_keep out

/-! ## Reading the separators -/

theorem reads_mark (out : List Char) : Reads ['?'] .path out .name (out ++ ['\x00']) := by
  apply Reads.of_round
  intro fuel rest
  rw [parseUriLoop, if_neg (by decide), octet_of_ne (by decide)]
  rfl

theorem reads_ampersand (out : List Char) : Reads ['&'] .value out .name (out ++ ['\x00']) := by
  apply Reads.of_round
  intro fuel rest
  rw [parseUriLoop, if_neg (by decide), octet_of_ne (by decide)]
  rfl

theorem reads_equals {out : List Char} (hout : out.getLast? ≠ some '\x00') :
    Reads ['='] .name out .value (out ++ ['\x00']) := by
  apply Reads.of_round
  intro fuel rest
  rw [parseUriLoop, if_neg (by decide), octet_of_ne (by decide)]
  dsimp only
  rw [if_pos ⟨rfl, .inr rfl⟩, if_neg hout, if_neg (by decide)]

/-- A parameter in the buffer, before its terminator. -/
def stored (p : UriKey × List Char) : List Char := p.1.text ++ '\x00' :: p.2

/-- The parameters in the buffer, each after the terminator of what is before it. -/
def storedAll (ps : List (UriKey × List Char)) : List Char := ps.flatMap fun p => '\x00' :: stored p

/-- Bytes without zero. -/
def NulFree (v : List Char) : Prop := (∀ c ∈ v, c.toNat < 256) ∧ ∀ c ∈ v, c ≠ '\x00'

/-- What needs no escapes is a text. -/
theorem nulFree_of_rfcUnreserved {v : List Char} (h : ∀ c ∈ v, rfcUnreserved c = true) :
    NulFree v := by
  have hlt : ∀ c, rfcUnreserved c = true → c.toNat < 256 := by
    intro c hc
    unfold rfcUnreserved at hc
    simp only [Bool.or_eq_true, Bool.and_eq_true, decide_eq_true_eq, beq_iff_eq, Char.le_def,
      UInt32.le_iff_toNat_le] at hc
    change c.val.toNat < 256
    rcases hc with (((((hc | hc) | hc) | rfl) | rfl) | rfl) | rfl
    · exact Nat.lt_of_le_of_lt hc.2 (by decide)
    · exact Nat.lt_of_le_of_lt hc.2 (by decide)
    · exact Nat.lt_of_le_of_lt hc.2 (by decide)
    all_goals decide
  constructor
  · exact fun c hc => hlt c (h c hc)
  · rintro c hc rfl
    exact absurd (h _ hc) (by decide)

theorem text_nulFree (k : UriKey) : NulFree k.text := nulFree_of_rfcUnreserved k.text_keep

theorem reads_written {p : UriKey × List Char} (hp : NulFree p.2) (out : List Char) :
    Reads (written p) .name out .value (out ++ stored p) := by
  have hlast : (out ++ p.1.text).getLast? ≠ some '\x00' := by
    rw [List.getLast?_append, List.getLast?_eq_some_getLast p.1.text_ne_nil, Option.some_or]
    intro h
    exact (text_nulFree p.1).2 _ (List.getLast_mem p.1.text_ne_nil) (Option.some.inj h)
  have hread := ((reads_text p.1 .name out).append (reads_equals hlast)).append
    (reads_encode hp.1 hp.2 .value _)
  unfold written stored
  simpa only [List.append_assoc, List.cons_append, List.nil_append] using hread

theorem reads_writtenRest {ps : List (UriKey × List Char)} (hps : ∀ p ∈ ps, NulFree p.2)
    (out : List Char) : Reads (writtenRest ps) .value out .value (out ++ storedAll ps) := by
  unfold writtenRest storedAll
  induction ps generalizing out with
  | nil =>
    rw [List.flatMap_nil, List.flatMap_nil, List.append_nil]
    exact .nil .value out
  | cons p ps ih =>
    obtain ⟨hp, hps⟩ := List.forall_mem_cons.mp hps
    have hread := ((reads_ampersand out).append (reads_written hp _)).append (ih hps _)
    rw [List.flatMap_cons, List.flatMap_cons]
    simpa only [List.append_assoc, List.cons_append, List.nil_append] using hread

/-- The whole of a URI is read to the end of its last value. -/
theorem decodeUri_of_reads {input out : List Char} (h : Reads input .path [] .value out) :
    decodeUri input = out := by
  obtain ⟨fuel, hfuel, heq⟩ := h [] (input.length + 1) (by rw [List.append_nil]; omega)
  rw [List.append_nil] at heq
  unfold decodeUri
  rw [heq]
  cases fuel with
  | zero => exact absurd hfuel (Nat.lt_irrefl 0)
  | succ fuel => rfl

/-! ## Reading the buffer -/

/-- A text ends at the first zero byte. -/
theorem readCString_append {v : List Char} (hv : ∀ c ∈ v, c ≠ '\x00') (rest : List Char) :
    readCString (v ++ '\x00' :: rest) = (v, rest) := by
  unfold readCString
  have hall : ∀ c ∈ v, (decide (c ≠ '\x00')) = true := fun c hc => decide_eq_true (hv c hc)
  rw [List.takeWhile_append_of_pos hall, List.dropWhile_append_of_pos hall]
  simp

theorem readCString_self {v : List Char} (hv : ∀ c ∈ v, c ≠ '\x00') : readCString v = (v, []) := by
  unfold readCString
  have hall : ∀ c ∈ v, (decide (c ≠ '\x00')) = true := fun c hc => decide_eq_true (hv c hc)
  rw [List.takeWhile_eq_self_iff.mpr hall, List.dropWhile_eq_nil_iff.mpr hall]
  rfl

theorem readCString_storedAll {v : List Char} (hv : ∀ c ∈ v, c ≠ '\x00')
    (ps : List (UriKey × List Char)) :
    readCString (v ++ storedAll ps) = (v, (storedAll ps).drop 1) := by
  cases ps with
  | nil =>
    have hnil : storedAll [] = [] := rfl
    rw [hnil, List.append_nil]
    exact readCString_self hv
  | cons p ps => exact readCString_append hv _

/-- The name and the value of a parameter, as SQLite tells them. -/
def UriKey.option (p : UriKey × List Char) : List Char × List Char := (p.1.text, p.2)

theorem uriOptions_storedAll {ps : List (UriKey × List Char)} (hps : ∀ p ∈ ps, NulFree p.2)
    {fuel : Nat} (hfuel : ps.length < fuel) :
    uriOptions fuel ((storedAll ps).drop 1) = ps.map UriKey.option := by
  induction ps generalizing fuel with
  | nil =>
    cases fuel with
    | zero => rfl
    | succ fuel => rfl
  | cons p ps ih =>
    obtain ⟨hp, hps⟩ := List.forall_mem_cons.mp hps
    cases fuel with
    | zero => exact absurd hfuel (Nat.not_lt_zero _)
    | succ fuel =>
      have hbuffer : (storedAll (p :: ps)).drop 1 =
          p.1.text ++ '\x00' :: (p.2 ++ storedAll ps) := by
        unfold storedAll stored
        simp only [List.flatMap_cons, List.cons_append, List.append_assoc, List.drop_succ_cons,
          List.drop_zero]
      rw [hbuffer, uriOptions, readCString_append (text_nulFree p.1).2]
      dsimp only
      rw [if_neg p.1.text_ne_nil, readCString_storedAll hp.2]
      dsimp only
      rw [ih hps (Nat.lt_of_succ_lt_succ hfuel)]
      rfl

theorem length_le_storedAll (ps : List (UriKey × List Char)) :
    ps.length ≤ ((storedAll ps).drop 1).length := by
  have hlength : 2 * ps.length ≤ (storedAll ps).length := by
    unfold storedAll stored
    induction ps with
    | nil => exact Nat.le_refl 0
    | cons p ps ih =>
      simp only [List.flatMap_cons, List.length_append, List.length_cons]
      omega
  rw [List.length_drop]
  omega

theorem uriContent_stored {database : List Char} (hdatabase : NulFree database)
    {ps : List (UriKey × List Char)} (hps : ∀ p ∈ ps, NulFree p.2) :
    uriContent (database ++ storedAll ps) = (database, ps.map UriKey.option) := by
  unfold uriContent
  rw [readCString_storedAll hdatabase.2]
  dsimp only
  rw [uriOptions_storedAll hps (Nat.lt_succ_of_le (length_le_storedAll ps))]

/-! ## The round trip -/

/-- No field holds a zero byte. -/
structure UriBuilder.NulFree (b : UriBuilder) : Prop where
  database : '\x00' ∉ utf8 b.database
  account : '\x00' ∉ utf8 b.account
  container : '\x00' ∉ utf8 b.container
  sasToken : ∀ s ∈ b.sasToken, '\x00' ∉ utf8 s
  accountKey : ∀ s ∈ b.accountKey, '\x00' ∉ utf8 s
  endpoint : ∀ s ∈ b.endpoint, '\x00' ∉ utf8 s
  cacheDir : ∀ s ∈ b.cacheDir, '\x00' ∉ utf8 s

theorem utf8_nulFree {s : String} (h : '\x00' ∉ utf8 s) : NulFree (utf8 s) :=
  ⟨utf8_lt s, fun _ hc heq => h (heq ▸ hc)⟩

theorem UriBuilder.NulFree.value {b : UriBuilder} (hb : b.NulFree) {k : UriKey} {v : List Char}
    (h : b.value k = some v) : SqliteObjs.NulFree v := by
  have hfield : ∀ o : Option String, (∀ s ∈ o, '\x00' ∉ utf8 s) → o.map utf8 = some v →
      SqliteObjs.NulFree v := by
    intro o ho hv
    obtain ⟨s, hs, rfl⟩ := Option.map_eq_some_iff.mp hv
    exact utf8_nulFree (ho s hs)
  cases k with
  | account => exact Option.some.inj h ▸ utf8_nulFree hb.account
  | container => exact Option.some.inj h ▸ utf8_nulFree hb.container
  | sas => exact hfield _ hb.sasToken h
  | key =>
    have hkey : (if b.sasToken.isSome then none else b.accountKey.map utf8) = some v := h
    split at hkey
    · cases hkey
    · exact hfield _ hb.accountKey hkey
  | endpoint => exact hfield _ hb.endpoint h
  | cacheDir => exact hfield _ hb.cacheDir h
  | cacheReuse =>
    have hreuse : (if b.cacheReuse then some "1".toList else none) = some v := h
    split at hreuse
    · rw [← Option.some.inj hreuse]
      exact nulFree_of_rfcUnreserved (List.all_eq_true.mp rfl)
    · cases hreuse
  | prefetch =>
    obtain ⟨mode, -, rfl⟩ := Option.map_eq_some_iff.mp h
    exact nulFree_of_rfcUnreserved (asUriValue_keep mode)

/-- A relative URI has no authority. -/
theorem sqlite3ParseUri_file {input : List Char} (h : input.head? ≠ some '/') :
    sqlite3ParseUri ("file:".toList ++ input) = .ok (decodeUri input) := by
  have hfile : "file:".toList ++ input = 'f' :: 'i' :: 'l' :: 'e' :: ':' :: input := rfl
  rw [hfile, sqlite3ParseUri]
  intro rest heq
  exact h (congrArg List.head? heq)

theorem head_encode_ne (v rest : List Char) :
    (encode rfcUnreserved v ++ '?' :: rest).head? ≠ some '/' := by
  cases v with
  | nil => exact fun h => absurd (Option.some.inj h) (by decide)
  | cons c v =>
    rw [encode_cons]
    split
    · next hc =>
      intro h
      have hslash : c = '/' := Option.some.inj h
      rw [hslash] at hc
      exact absurd hc (by decide)
    · exact fun h => absurd (Option.some.inj h) (by decide)

/-- SQLite reads in a built URI what the builder says. -/
theorem parse_build {b : UriBuilder} (hb : b.NulFree) :
    ∃ zFile, sqlite3ParseUri b.build = .ok zFile ∧
      uriContent zFile = (utf8 b.database, b.parameters.map UriKey.option) := by
  have hps : ∀ p ∈ b.parameters, NulFree p.2 := fun p hp => hb.value (mem_parameters.mp hp)
  have hdatabase := utf8_nulFree hb.database
  have hstored : storedAll b.parameters =
      '\x00' :: stored (.account, utf8 b.account) ++ storedAll b.parameters.tail := rfl
  have hread : Reads (encode rfcUnreserved (utf8 b.database) ++
      '?' :: (written (.account, utf8 b.account) ++ writtenRest b.parameters.tail)) .path [] .value
      (utf8 b.database ++ storedAll b.parameters) := by
    have hrest := (((reads_encode hdatabase.1 hdatabase.2 .path []).append (reads_mark _)).append
      (reads_written (p := (.account, utf8 b.account)) (utf8_nulFree hb.account) _)).append
      (reads_writtenRest (fun p hp => hps p (List.mem_of_mem_tail hp)) _)
    rw [hstored]
    simpa only [List.append_assoc, List.cons_append, List.nil_append] using hrest
  refine ⟨utf8 b.database ++ storedAll b.parameters, ?_, uriContent_stored hdatabase hps⟩
  rw [build_eq, sqlite3ParseUri_file (head_encode_ne _ _), decodeUri_of_reads hread]

/-- A URI tells the builder that built it, up to the field that `build` ignores. -/
theorem effective_eq_of_build {b b' : UriBuilder} (hb : b.NulFree) (hb' : b'.NulFree)
    (h : b.build = b'.build) : b.effective = b'.effective := by
  obtain ⟨zFile, hparse, hcontent⟩ := parse_build hb
  obtain ⟨zFile', hparse', hcontent'⟩ := parse_build hb'
  rw [h, hparse'] at hparse
  cases hparse
  rw [hcontent] at hcontent'
  obtain ⟨hdatabase, hoptions⟩ := Prod.mk.inj hcontent'
  have hinjective : Function.Injective UriKey.option := by
    rintro ⟨k, v⟩ ⟨k', v'⟩ heq
    obtain ⟨htext, hv⟩ := Prod.mk.inj heq
    exact Prod.ext (UriKey.text_injective htext) hv
  have hparameters : b.parameters = b'.parameters := List.map_inj_right hinjective |>.mp hoptions
  exact effective_eq_of_value (utf8_injective hdatabase) (value_eq_of_parameters hparameters)

/-- A built URI cannot be injected into: SQLite reads the database as file name and the parameters
that were set, each once and no other, with their values; the key of the account only without a
SAS token. Different builders build different URIs. -/
theorem uri_builder_round_trip (b : UriBuilder) (hb : b.NulFree) :
    (∃ zFile, sqlite3ParseUri b.build = .ok zFile ∧
      uriContent zFile = (utf8 b.database, b.parameters.map fun p => (p.1.text, p.2))) ∧
    (b.parameters.map fun p => p.1.text).Nodup ∧
    (∀ k v, (k, v) ∈ b.parameters ↔ b.value k = some v) ∧
    ((b.value .key).isSome ↔ b.sasToken = none ∧ b.accountKey.isSome) ∧
    (∀ b' : UriBuilder, b'.NulFree → b.effective ≠ b'.effective → b.build ≠ b'.build) := by
  refine ⟨parse_build hb, ?_, fun k v => mem_parameters, ?_, ?_⟩
  · have hnames := List.Nodup.map UriKey.text_injective (nodup_parameters b)
    rwa [List.map_map] at hnames
  · unfold UriBuilder.value
    cases b.sasToken <;> cases b.accountKey <;> simp
  · exact fun b' hb' hne h => hne (effective_eq_of_build hb hb' h)

/-- A database whose name and token hold reserved characters. -/
def reservedBuilder : UriBuilder :=
  { database := "a?b#c/é.db", account := "acct", container := "cont",
    sasToken := some "sv=1&sig=x%3D", accountKey := some "key", endpoint := none,
    cacheDir := some "", cacheReuse := true, prefetch := some .none }

theorem reservedBuilder_nulFree : reservedBuilder.NulFree where
  database := by decide +kernel
  account := by decide +kernel
  container := by decide +kernel
  sasToken := by rintro _ ⟨rfl⟩; decide +kernel
  accountKey := by rintro _ ⟨rfl⟩; decide +kernel
  endpoint := by rintro _ ⟨⟩
  cacheDir := by rintro _ ⟨rfl⟩; decide +kernel

/-- The SAS token of the example stays one parameter. -/
theorem uri_builder_round_trip_reserved :
    ∃ zFile, sqlite3ParseUri reservedBuilder.build = .ok zFile ∧
      uriContent zFile = (utf8 "a?b#c/é.db",
        [("azure_account".toList, utf8 "acct"), ("azure_container".toList, utf8 "cont"),
          ("azure_sas".toList, utf8 "sv=1&sig=x%3D"), ("cache_dir".toList, []),
          ("cache_reuse".toList, "1".toList), ("prefetch".toList, "none".toList)]) := by
  obtain ⟨zFile, hparse, hcontent⟩ :=
    (uri_builder_round_trip reservedBuilder reservedBuilder_nulFree).1
  exact ⟨zFile, hparse, hcontent.trans (by decide +kernel)⟩

end SqliteObjs
