import Mathlib.Algebra.Group.Int.Defs
import SqliteObjs.Data.Text

/-!
# The metrics text

The C side prints the counters of a connection as lines `key=value`, through one format string
with a slot for each counter; the Rust side cuts the text into lines and stores each number
in the field that its key names.
-/

set_option autoImplicit false

namespace SqliteObjs.Metrics

open Text

/-- The counters, of one name in `sqlite_objs_metrics` and in `VfsMetrics`. -/
structure VfsMetrics where
  diskReads : Int64 := 0
  diskWrites : Int64 := 0
  diskBytesRead : Int64 := 0
  diskBytesWritten : Int64 := 0
  blobReads : Int64 := 0
  blobWrites : Int64 := 0
  blobBytesRead : Int64 := 0
  blobBytesWritten : Int64 := 0
  cacheHits : Int64 := 0
  cacheMisses : Int64 := 0
  cacheMissPages : Int64 := 0
  prefetchPages : Int64 := 0
  leaseAcquires : Int64 := 0
  leaseRenewals : Int64 := 0
  leaseReleases : Int64 := 0
  syncs : Int64 := 0
  dirtyPagesSynced : Int64 := 0
  blobResizes : Int64 := 0
  revalidations : Int64 := 0
  revalidationDownloads : Int64 := 0
  revalidationDiffs : Int64 := 0
  revalidationBusy : Int64 := 0
  pagesInvalidated : Int64 := 0
  journalUploads : Int64 := 0
  journalBytesUploaded : Int64 := 0
  walUploads : Int64 := 0
  walBytesUploaded : Int64 := 0
  azureErrors : Int64 := 0
  deriving DecidableEq

/-! ## Printing -/

/-- The keys of the format string, in its order. -/
def formatKeys : List String := [
  "disk_reads", "disk_writes", "disk_bytes_read", "disk_bytes_written", "blob_reads", "blob_writes",
  "blob_bytes_read", "blob_bytes_written", "cache_hits", "cache_misses", "cache_miss_pages",
  "prefetch_pages", "lease_acquires", "lease_renewals", "lease_releases", "syncs",
  "dirty_pages_synced", "blob_resizes", "revalidations", "revalidation_downloads",
  "revalidation_diffs", "revalidation_busy", "pages_invalidated", "journal_uploads",
  "journal_bytes_uploaded", "wal_uploads", "wal_bytes_uploaded", "azure_errors"]

/-- The arguments of the format string, in their order. -/
def formatArgs (m : VfsMetrics) : List Int64 := [
  m.diskReads, m.diskWrites, m.diskBytesRead, m.diskBytesWritten, m.blobReads, m.blobWrites,
  m.blobBytesRead, m.blobBytesWritten, m.cacheHits, m.cacheMisses, m.cacheMissPages,
  m.prefetchPages, m.leaseAcquires, m.leaseRenewals, m.leaseReleases, m.syncs, m.dirtyPagesSynced,
  m.blobResizes, m.revalidations, m.revalidationDownloads, m.revalidationDiffs, m.revalidationBusy,
  m.pagesInvalidated, m.journalUploads, m.journalBytesUploaded, m.walUploads, m.walBytesUploaded,
  m.azureErrors]

/-- A line of the text: what stands before and after its first equals sign. -/
structure Line where
  key : List Char
  value : List Char

def Line.text (l : Line) : List Char := l.key ++ '=' :: l.value

/-- The lines of the format string with its slots filled. -/
def formatLines (m : VfsMetrics) : List Line :=
  (formatKeys.zip (formatArgs m)).map fun kv => ⟨kv.1.toList, printInt kv.2.toInt⟩

/-- The last line has no line feed. -/
def formatMetrics (m : VfsMetrics) : List Char := join ((formatLines m).map Line.text)

/-! ## Parsing -/

structure ParseError where
  message : String

/-- `str::parse::<i64>`. -/
def parseI64 (s : List Char) : Option Int64 :=
  match readInt s with
  | none => none
  | some v => if -2 ^ 63 ≤ v ∧ v < 2 ^ 63 then some (Int64.ofInt v) else none

/-- Store a value in the field of its key. Unknown keys are ignored. -/
def setCounter (m : VfsMetrics) (key : String) (v : Int64) : VfsMetrics :=
  match key with
  | "disk_reads" => { m with diskReads := v }
  | "disk_writes" => { m with diskWrites := v }
  | "disk_bytes_read" => { m with diskBytesRead := v }
  | "disk_bytes_written" => { m with diskBytesWritten := v }
  | "blob_reads" => { m with blobReads := v }
  | "blob_writes" => { m with blobWrites := v }
  | "blob_bytes_read" => { m with blobBytesRead := v }
  | "blob_bytes_written" => { m with blobBytesWritten := v }
  | "cache_hits" => { m with cacheHits := v }
  | "cache_misses" => { m with cacheMisses := v }
  | "cache_miss_pages" => { m with cacheMissPages := v }
  | "prefetch_pages" => { m with prefetchPages := v }
  | "lease_acquires" => { m with leaseAcquires := v }
  | "lease_renewals" => { m with leaseRenewals := v }
  | "lease_releases" => { m with leaseReleases := v }
  | "syncs" => { m with syncs := v }
  | "dirty_pages_synced" => { m with dirtyPagesSynced := v }
  | "blob_resizes" => { m with blobResizes := v }
  | "revalidations" => { m with revalidations := v }
  | "revalidation_downloads" => { m with revalidationDownloads := v }
  | "revalidation_diffs" => { m with revalidationDiffs := v }
  | "revalidation_busy" => { m with revalidationBusy := v }
  | "pages_invalidated" => { m with pagesInvalidated := v }
  | "journal_uploads" => { m with journalUploads := v }
  | "journal_bytes_uploaded" => { m with journalBytesUploaded := v }
  | "wal_uploads" => { m with walUploads := v }
  | "wal_bytes_uploaded" => { m with walBytesUploaded := v }
  | "azure_errors" => { m with azureErrors := v }
  | _ => m

/-- One round of the loop over the lines. -/
def parseLine (m : VfsMetrics) (line : List Char) : Except ParseError VfsMetrics :=
  let line := trim line
  if line = [] then .ok m
  else
    match splitOnce '=' line with
    | none => .error ⟨"expected key=value, got: " ++ String.ofList line⟩
    | some (key, value) =>
      let key := trim key
      let value := trim value
      match parseI64 value with
      | none =>
        .error ⟨"invalid integer for key '" ++ String.ofList key ++ "': " ++ String.ofList value⟩
      | some v => .ok (setCounter m (String.ofList key) v)

def parseLines : VfsMetrics → List (List Char) → Except ParseError VfsMetrics
  | m, [] => .ok m
  | m, line :: rest =>
    match parseLine m line with
    | .error e => .error e
    | .ok m => parseLines m rest

def parse (text : List Char) : Except ParseError VfsMetrics := parseLines {} (lines text)

end SqliteObjs.Metrics
