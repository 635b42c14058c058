import SqliteObjs.Data.LittleEndian
import SqliteObjs.Data.TableCrc

/-!
# The `.state` sidecar file

The valid bitmap of a cache file is kept beside it in a file of its own: a magic word, a
version, the page size, the file size and the length of the bitmap, then the bitmap and a
checksum of all that precedes it, every number with its least significant byte first. The
writer fills a temporary file and renames it; the reader checks each field and gives up on
the first that is not as it should be.

Files are byte strings by their paths. A call to the system or to the allocator that may
fail is a flag of the caller's, set when the call succeeds.
-/

set_option autoImplicit false

namespace SqliteObjs.StateFile

/-! ## Checksum -/

/-- The lookup table of `stateCrc32`, as the source lists it. -/
def stateCrcTable : List UInt32 := [
  0x00000000, 0x77073096, 0xEE0E612C, 0x990951BA, 0x076DC419, 0x706AF48F,
  0xE963A535, 0x9E6495A3, 0x0EDB8832, 0x79DCB8A4, 0xE0D5E91B, 0x97D2D988,
  0x09B64C2B, 0x7EB17CBB, 0xE7B82D09, 0x90BF1D91, 0x1DB71064, 0x6AB020F2,
  0xF3B97148, 0x84BE41DE, 0x1ADAD47D, 0x6DDDE4EB, 0xF4D4B551, 0x83D385C7,
  0x136C9856, 0x646BA8C0, 0xFD62F97A, 0x8A65C9EC, 0x14015C4F, 0x63066CD9,
  0xFA0F3D63, 0x8D080DF5, 0x3B6E20C8, 0x4C69105E, 0xD56041E4, 0xA2677172,
  0x3C03E4D1, 0x4B04D447, 0xD20D85FD, 0xA50AB56B, 0x35B5A8FA, 0x42B2986C,
  0xDBBDB8D6, 0xACBCBEC8, 0x32D86CE3, 0x45DF5C75, 0xDCD60DCF, 0xABD13D59,
  0x26D930AC, 0x51DE003A, 0xC8D75180, 0xBFD06116, 0x21B4F4B5, 0x56B3C423,
  0xCFBA9599, 0xB8BDA50F, 0x2802B89E, 0x5F058808, 0xC60CD9B2, 0xB10BE924,
  0x2F6F7C87, 0x58684C11, 0xC1611DAB, 0xB6662D3D, 0x76DC4190, 0x01DB7106,
  0x98D220BC, 0xEFD5102A, 0x71B18589, 0x06B6B51F, 0x9FBFE4A5, 0xE8B8D433,
  0x7807C9A2, 0x0F00F934, 0x9609A88E, 0xE10E9818, 0x7F6A0D69, 0x086D3D2B,
  0x91646C97, 0xE6635C01, 0x6B6B51F4, 0x1C6C6162, 0x856530D8, 0xF262004E,
  0x6C0695ED, 0x1B01A57B, 0x8208F4C1, 0xF50FC457, 0x65B0D9C6, 0x12B7E950,
  0x8BBEB8EA, 0xFCB9887C, 0x62DD1DDF, 0x15DA2D49, 0x8CD37CF3, 0xFBD44C65,
  0x4DB26158, 0x3AB551CE, 0xA3BC0074, 0xD4BB30E2, 0x4ADFA541, 0x3DD895D7,
  0xA4D1C46D, 0xD3D6F4DB, 0x4369E96A, 0x346ED9FC, 0xAD678846, 0xDA60B8D0,
  0x44042D73, 0x33031DE5, 0xAA0A4C5F, 0xDD0D7822, 0x3B6E20C8, 0x4C69105E,
  0xD56041E4, 0xA2677172, 0x3C03E4D1, 0x4B04D447, 0xD20D85FD, 0xA50AB56B,
  0x35B5A8FA, 0x42B2986C, 0xDBBDB8D6, 0xACBCBEC8, 0x32D86CE3, 0x45DF5C75,
  0xDCD60DCF, 0xABD13D59, 0x26D930AC, 0x51DE003A, 0xC8D75180, 0xBFD06116,
  0x21B4F4B5, 0x56B3C423, 0xCFBA9599, 0xB8BDA50F, 0x2802B89E, 0x5F058808,
  0xC60CD9B2, 0xB10BE924, 0x2F6F7C87, 0x58684C11, 0xC1611DAB, 0xB6662D3D,
  0x76DC4190, 0x01DB7106, 0x98D220BC, 0xEFD5102A, 0x71B18589, 0x06B6B51F,
  0x9FBFE4A5, 0xE8B8D433, 0x7807C9A2, 0x0F00F934, 0x9609A88E, 0xE10E9818,
  0x7F6A0D69, 0x086D3D2B, 0x91646C97, 0xE6635C01, 0x6B6B51F4, 0x1C6C6162,
  0x856530D8, 0xF262004E, 0x6C0695ED, 0x1B01A57B, 0x8208F4C1, 0xF50FC457,
  0x65B0D9C6, 0x12B7E950, 0x8BBEB8EA, 0xFCB9887C, 0x62DD1DDF, 0x15DA2D49,
  0x8CD37CF3, 0xFBD44C65, 0x4DB26158, 0x3AB551CE, 0xA3BC0074, 0xD4BB30E2,
  0x4ADFA541, 0x3DD895D7, 0xA4D1C46D, 0xD3D6F4DB, 0x4369E96A, 0x346ED9FC,
  0xAD678846, 0xDA60B8D0, 0x44042D73, 0x33031DE5, 0xAA0A4C5F, 0xDD0D7822,
  0x9B64C2B0, 0xEC63F226, 0x756AA39C, 0x026D930A, 0x9C0906A9, 0xEB0E363F,
  0x72076785, 0x05005713, 0x95BF4A82, 0xE2B87A14, 0x7BB12BAE, 0x0CB61B38,
  0x92D28E9B, 0xE5D5BE0D, 0x7CDCEFB7, 0x0BDBDF21, 0x86D3D2D4, 0xF1D4E242,
  0x68DDB3F6, 0x1FDA836E, 0x81BE16CD, 0xF6B9265B, 0x6FB077E1, 0x18B74777,
  0x88085AE6, 0xFF0F6B70, 0x66063BCA, 0x11010B5C, 0x8F659EFF, 0xF862AE69,
  0x616BFFD3, 0x166CCF45, 0xA00AE278, 0xD70DD2EE, 0x4E048354, 0x3903B3C2,
  0xA7672661, 0xD06016F7, 0x4969474D, 0x3E6E77DB, 0xAED16A4A, 0xD9D65ADC,
  0x40DF0B66, 0x37D83BF0, 0xA9BCAE53, 0xDEBB9EC5, 0x47B2CF7F, 0x30B5FFE9,
  0xBDBDF21C, 0xCABAC28A, 0x53B39330, 0x24B4A3A6, 0xBAD03605, 0xCDD706FF,
  0x54DE5729, 0x23D967BF, 0xB3667A2E, 0xC4614AB8, 0x5D681B02, 0x2A6F2B94,
  0xB40BBE37, 0xC30C8EA1, 0x5A05DF1B, 0x2D02EF8D]

def stateCrcEntry (i : UInt8) : UInt32 := stateCrcTable.getD i.toNat 0

/-- The checksum register before the first byte. -/
def crcInit : UInt32 := 0xFFFFFFFF

def stateCrc32 (data : List UInt8) : UInt32 :=
  TableCrc.run stateCrcEntry crcInit data ^^^ 0xFFFFFFFF

/-! ## Numbers -/

def writeLE32 (v : Nat) : List UInt8 :=
  [UInt8.ofNat v, UInt8.ofNat (v >>> 8), UInt8.ofNat (v >>> 16), UInt8.ofNat (v >>> 24)]

def readLE32 (p : List UInt8) : Nat :=
  (p.getD 0 0).toNat ||| ((p.getD 1 0).toNat <<< 8) ||| ((p.getD 2 0).toNat <<< 16) |||
    ((p.getD 3 0).toNat <<< 24)

def writeLE64 (v : Nat) : List UInt8 := (List.range 8).map fun i => UInt8.ofNat (v >>> (i * 8))

def readLE64 (p : List UInt8) : Nat :=
  (List.range 8).foldl (fun v i => v ||| ((p.getD i 0).toNat <<< (i * 8))) 0

/-- The conversion of an `int` to `uint32_t`. -/
def toUint32 (v : Int) : Nat := (v % 2 ^ 32).toNat

/-- The conversion of an `sqlite3_int64` to `uint64_t`. -/
def toUint64 (v : Int) : Nat := (v % 2 ^ 64).toNat

/-- The conversion of a `uint64_t` to `sqlite3_int64`. -/
def ofUint64 (v : Nat) : Int := if v < 2 ^ 63 then v else v - 2 ^ 64

/-! ## Files -/

abbrev Files := String → Option (List UInt8)

def Files.set (files : Files) (path : String) (content : Option (List UInt8)) : Files :=
  fun p => if p = path then content else files p

/-- The path of a sidecar file: the extension takes the place of `.cache`, or follows the path. -/
def buildSidecarPath (cachePath ext : String) : String :=
  if cachePath.endsWith ".cache" then (cachePath.dropEnd 6).toString ++ ext else cachePath ++ ext

def buildStatePath (cachePath : String) : String := buildSidecarPath cachePath ".state"

/-! ## Writing -/

/-- `SQLITE_OBJS_STATE_MAGIC`: the letters of `SQOS`. -/
def stateMagic : List UInt8 := [83, 81, 79, 83]

/-- `SQLITE_OBJS_STATE_VERSION`. -/
def stateVersion : Nat := 1

/-- The 24 bytes before the bitmap. -/
def stateHeader (pageSize fileSize : Int) (nValidBytes : Nat) : List UInt8 :=
  stateMagic ++ writeLE32 stateVersion ++ writeLE32 (toUint32 pageSize) ++
    writeLE64 (toUint64 fileSize) ++ writeLE32 nValidBytes

/-- The whole file. -/
def stateBytes (pageSize fileSize : Int) (aValid : List UInt8) : List UInt8 :=
  let buf := stateHeader pageSize fileSize aValid.length ++ aValid
  buf ++ writeLE32 (stateCrc32 buf).toNat

/-- The calls of `writeStateFile` that may fail. -/
structure WriteCalls where
  statePath : Bool := true
  tmpPath : Bool := true
  buf : Bool := true
  opened : Bool := true
  /-- `write` took the whole buffer. -/
  written : Bool := true
  fsynced : Bool := true
  renamed : Bool := true

/-- Write the sidecar file of a cache file. A bitmap that is absent is one of no bytes. -/
def writeStateFile (c : WriteCalls) (files : Files) (cachePath : Option String)
    (pageSize fileSize : Int) (aValid : List UInt8) : Int × Files :=
  match cachePath with
  | none => (-1, files)
  | some cachePath =>
    if aValid.length = 0 then (-1, files)
    else if !c.statePath || !c.tmpPath || !c.buf then (-1, files)
    else
      let statePath := buildStatePath cachePath
      let tmpPath := statePath ++ ".tmp"
      let buf := stateBytes pageSize fileSize aValid
      if !c.opened then (-1, files)
      -- the temporary file is removed again after a failure
      else if !c.written || !c.fsynced || !c.renamed then (-1, files.set tmpPath none)
      else (0, (files.set tmpPath none).set statePath (some buf))

/-! ## Reading -/

structure SavedState where
  pageSize : Int
  fileSize : Int
  bitmap : List UInt8
  deriving DecidableEq

/-- The calls of `readStateFile` that may fail. -/
structure ReadCalls where
  statePath : Bool := true
  opened : Bool := true
  /-- The two calls of `read` deliver what the file holds. -/
  headerRead : Bool := true
  payloadRead : Bool := true
  payload : Bool := true
  crcBuf : Bool := true
  bitmap : Bool := true

/-- The page sizes that the reader takes. -/
def saneSize (ps : Nat) : Bool := 512 ≤ ps && ps ≤ 65536 && ps &&& (ps - 1) == 0

/-- What `readStateFile` does once the file is open. -/
def readState (c : ReadCalls) (file : List UInt8) : Option SavedState :=
  let header := file.take 24
  if !c.headerRead || header.length ≠ 24 then none
  else if header.take 4 ≠ stateMagic then none
  else if readLE32 (header.drop 4) ≠ stateVersion then none
  else
    let ps := readLE32 (header.drop 8)
    let fs := readLE64 (header.drop 12)
    let bitmapSize := readLE32 (header.drop 20)
    if !saneSize ps then none
    else if bitmapSize = 0 ∨ 1024 * 1024 < bitmapSize then none
    else if !c.payload then none
    else
      let payload := (file.drop 24).take (bitmapSize + 4)
      if !c.payloadRead || payload.length ≠ bitmapSize + 4 then none
      else
        let storedCrc := readLE32 (payload.drop bitmapSize)
        if !c.crcBuf then none
        else
          let computedCrc := stateCrc32 (header ++ payload.take bitmapSize)
          if storedCrc ≠ computedCrc.toNat then none
          else if !c.bitmap then none
          else some ⟨ps, ofUint64 fs, payload.take bitmapSize⟩

def readStateFile (c : ReadCalls) (files : Files) (cachePath : Option String) : Option SavedState :=
  match cachePath with
  | none => none
  | some cachePath =>
    if !c.statePath then none
    else
      match files (buildStatePath cachePath) with
      | none => none
      | some file => if !c.opened then none else readState c file

end SqliteObjs.StateFile
