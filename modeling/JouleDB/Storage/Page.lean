import JouleDB.Error
import JouleDB.Lib.Bytes
import JouleDB.Lib.Exec

/-!
# Pages

A page is the unit of storage: a type, flags and data.  On disk it is a 32-byte header
(magic, version, type, flags, id, data length, CRC-32) followed by the data, padded with
zeros to the page size.
-/

namespace JouleDB.Storage

/-- Default page size: 64 KiB. -/
def defaultPageSize : Nat := 64 * 1024

/-- Page header size in bytes. -/
def pageHeaderSize : Nat := 32

/-- Magic number for page validation. -/
def pageMagic : Nat := 0x57444250

/-- Current page format version. -/
def pageVersion : Byte := 1

/-- Page types. -/
inductive PageType where
  | free
  | bTreeInternal
  | bTreeLeaf
  | overflow
  | freeList
  | metadata
  | extentHeader
  | extentData
  deriving DecidableEq, Repr

/-- The byte that stands for a page type. -/
def PageType.code : PageType → Byte
  | .free => 0
  | .bTreeInternal => 1
  | .bTreeLeaf => 2
  | .overflow => 3
  | .freeList => 4
  | .metadata => 5
  | .extentHeader => 6
  | .extentData => 7

/-- A page without its id. -/
structure PageBody where
  pageType : PageType
  flags : BitVec 16
  data : Bytes
  deriving DecidableEq

namespace PageBody

/-- A page with data and no flags. -/
def withData (pageType : PageType) (data : Bytes) : PageBody := ⟨pageType, 0#16, data⟩

end PageBody

/-- A database page. -/
structure Page extends PageBody where
  id : U64

namespace Page

/-- The header bytes of a page; the last eight are reserved. -/
def header (page : Page) : Bytes :=
  toLe 4 pageMagic ++ [pageVersion, page.pageType.code] ++ toLe 2 page.flags.toNat ++
    toLe 8 page.id.val ++ toLe 4 page.data.length ++ toLe 4 (crc32 page.data) ++ toLe 8 0

/-- Encode a page: header and data, padded to the page size. -/
def encode (page : Page) (pageSize : Nat) : Outcome StorageError Bytes :=
  let totalSize := pageHeaderSize + page.data.length
  if totalSize > pageSize then
    .err (.pageSizeExceeded pageSize totalSize)
  else
    .ok (page.header ++ page.data ++ List.replicate (pageSize - totalSize) 0)

theorem encode_length {page : Page} {pageSize : Nat} {bytes : Bytes}
    (encoded : page.encode pageSize = .ok bytes) : bytes.length = pageSize := by
  simp only [encode] at encoded
  split at encoded
  · cases encoded
  next fits =>
    injection encoded with same
    rw [← same]
    simp [header, pageHeaderSize] at fits ⊢
    omega

end Page

end JouleDB.Storage
