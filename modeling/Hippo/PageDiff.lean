import Hippo.ByteReader

/-!
# Page hashes and page diffs

The page-hash file, the diff file and the two readers of a diff: one rebuilds the new database,
the other one its page hashes.
-/
namespace Hippo.PageDiff

open Hippo.ByteReader

inductive PageError where
  | unexpectedEof
  | badMagic
  | baseIdTooLong
  | invalidUtf8
  | conversion
  | notSqlite
  | badLength
  | truncatedPage
  | trailingBytes
  | pageSizeChanged
  | zeroPageSize
  | truncatedRecord
  | pageSizeMismatch
  | basePageCountMismatch
  | lacksPage (i : ℕ)
  | excessRecords
  | beyondNewPageCount
deriving DecidableEq

abbrev Page := List UInt8

/-- A SHA-256 digest. -/
structure Digest where
  bytes : List UInt8
  length_eq : bytes.length = 32
deriving DecidableEq

/-- A file; its length is a `u64`. -/
structure DbFile where
  bytes : List UInt8
  length_lt : bytes.length < 2 ^ 64

structure PageHashes where
  baseId : String
  pageSize : UInt32
  hashes : List Digest
deriving DecidableEq

structure DiffSummary where
  changedPages : ℕ
  newPageCount : ℕ

/-- `HIPPOPH1`. -/
def hashMagic : List UInt8 := [0x48, 0x49, 0x50, 0x50, 0x4F, 0x50, 0x48, 0x31]

/-- `HIPPOPD1`. -/
def diffMagic : List UInt8 := [0x48, 0x49, 0x50, 0x50, 0x4F, 0x50, 0x44, 0x31]

/-- `SQLite format 3` and a zero byte. -/
def sqliteHeader : List UInt8 :=
  [0x53, 0x51, 0x4C, 0x69, 0x74, 0x65, 0x20, 0x66, 0x6F, 0x72, 0x6D, 0x61, 0x74, 0x20, 0x33, 0x00]

def utf8 (s : String) : List UInt8 := s.toUTF8.data.toList

def readU32 : Reader PageError UInt32 := do
  return UInt32.ofNat (leValue (← readExact 4 .unexpectedEof))

/-- A `u64` as a number. -/
def readU64 : Reader PageError ℕ := do
  return leValue (← readExact 8 .unexpectedEof)

def readMagic (want : List UInt8) : Reader PageError Unit := do
  let m ← readExact 8 .unexpectedEof
  ensure (m = want) .badMagic

def readString : Reader PageError String := do
  let len ← readU32
  ensure (len.toNat ≤ 4096) .baseIdTooLong
  let b ← readExact len.toNat .unexpectedEof
  match String.fromUTF8? ⟨b.toArray⟩ with
  | some s => return s
  | none => fail .invalidUtf8

def writeU32 (n : UInt32) : List UInt8 := leBytes 4 n.toNat

/-- `u64::try_from(n)?` and its bytes. -/
def writeU64 (n : ℕ) : Except PageError (List UInt8) :=
  if n < 2 ^ 64 then .ok (leBytes 8 n) else .error .conversion

def writeString (s : String) : Except PageError (List UInt8) :=
  if (utf8 s).length < 2 ^ 32 then .ok (leBytes 4 (utf8 s).length ++ utf8 s)
  else .error .conversion

/-- The page size and the page count from the SQLite header and the length of the file. -/
def dbGeometry (db : DbFile) : Except PageError (UInt32 × ℕ) :=
  if db.bytes.length < 18 then .error .unexpectedEof
  else if db.bytes.take 16 ≠ sqliteHeader then .error .notSqlite
  else
    let raw := 256 * (db.bytes.getD 16 0).toNat + (db.bytes.getD 17 0).toNat
    let pageSize := if raw = 1 then 65536 else raw
    if 0 < pageSize ∧ db.bytes.length % pageSize = 0 then
      .ok (UInt32.ofNat pageSize, db.bytes.length / pageSize)
    else .error .badLength

/-- A full buffer, or `none` at a clean end of the file. -/
def readPageOrEof (size : ℕ) (error : PageError) : Reader PageError (Option Page) := fun s =>
  if 0 < size ∧ s = [] then .ok (none, s)
  else (readExact size error s).map fun (page, rest) => (some page, rest)

/-- The loop over the pages of a file. Each takes a byte at least, so `fuel` may be the length
of the file. -/
def readPages (pageSize : ℕ) : ℕ → Reader PageError (List Page)
  | 0 => return []
  | fuel + 1 => do
    match ← readPageOrEof pageSize .truncatedPage with
    | none => return []
    | some page => return page :: (← readPages pageSize fuel)

def pagesOf (pageSize : UInt32) (bytes : List UInt8) : Except PageError (List Page) :=
  (readPages pageSize.toNat bytes.length).run' bytes

section Hashes

variable (sha256 : Page → Digest)

/-- `PageHashes::compute`. -/
def PageHashes.compute (db : DbFile) (baseId : String) : Except PageError PageHashes := do
  let (pageSize, _) ← dbGeometry db
  let pages ← pagesOf pageSize db.bytes
  return { baseId := baseId, pageSize := pageSize, hashes := pages.map sha256 }

/-- `PageHashes::write`: the content of the file. -/
def PageHashes.write (h : PageHashes) : Except PageError (List UInt8) := do
  let baseId ← writeString h.baseId
  let count ← writeU64 h.hashes.length
  return hashMagic ++ (writeU32 h.pageSize ++ (baseId ++ (count ++ h.hashes.flatMap Digest.bytes)))

/-- `count` digests. -/
def readDigests : ℕ → Reader PageError (List Digest)
  | 0 => return []
  | count + 1 => do
    let b ← readExact 32 .unexpectedEof
    if h : b.length = 32 then return ⟨b, h⟩ :: (← readDigests count) else fail .unexpectedEof

/-- `PageHashes::read`. -/
def PageHashes.read (bytes : List UInt8) : Except PageError PageHashes :=
  StateT.run' (s := bytes) do
    readMagic hashMagic
    let pageSize ← readU32
    let baseId ← readString
    let count ← readU64
    let hashes ← readDigests count
    let rest ← get
    ensure (rest = []) .trailingBytes
    return { baseId := baseId, pageSize := pageSize, hashes := hashes }

/-- The records of the pages from number `i` on that differ from the base. -/
def diffRecords (base : PageHashes) (i : ℕ) : List Page → List (ℕ × Page)
  | [] => []
  | page :: pages =>
    if base.hashes[i]? ≠ some (sha256 page) then (i, page) :: diffRecords base (i + 1) pages
    else diffRecords base (i + 1) pages

def encodeRecord (record : ℕ × Page) : List UInt8 := leBytes 8 record.1 ++ record.2

/-- `write_diff`: the content of the diff file. -/
def writeDiff (base : PageHashes) (newDb : DbFile) :
    Except PageError (List UInt8 × DiffSummary) := do
  let (pageSize, newCount) ← dbGeometry newDb
  if pageSize ≠ base.pageSize then .error .pageSizeChanged
  else
    let baseCount ← writeU64 base.hashes.length
    let newCountBytes ← writeU64 newCount
    let baseId ← writeString base.baseId
    let pages ← pagesOf pageSize newDb.bytes
    let records := diffRecords sha256 base 0 pages
    return (diffMagic ++ (writeU32 pageSize ++ (baseCount ++ (newCountBytes ++ (baseId ++
        records.flatMap encodeRecord)))),
      { changedPages := records.length, newPageCount := newCount })

structure DiffHeader where
  pageSize : UInt32
  basePageCount : ℕ
  newPageCount : ℕ

/-- `DiffReader::open`. -/
def openDiff : Reader PageError DiffHeader := do
  readMagic diffMagic
  let pageSize ← readU32
  let basePageCount ← readU64
  let newPageCount ← readU64
  let _ ← readString
  ensure (0 < pageSize.toNat) .zeroPageSize
  return { pageSize := pageSize, basePageCount := basePageCount, newPageCount := newPageCount }

/-- `DiffReader::next_record`: the next record, or `none` at the end of the file. -/
def nextRecord (pageSize : ℕ) : Reader PageError (Option (ℕ × Page)) := do
  match ← readPageOrEof 8 .truncatedPage with
  | none => return none
  | some no => return some (leValue no, ← readExact pageSize .truncatedRecord)

/-- The page of the base, which is read even when it is replaced, to keep the cursor aligned. -/
def basePage (pageSize baseCount i : ℕ) (base : List UInt8) :
    Reader PageError (Page × List UInt8) :=
  if i < baseCount then lift (readExact pageSize .unexpectedEof base) else pure ([], base)

/-- The loop of `apply_diff` over the `count` pages from number `i` on. `base` is what is left of
the base file, `next` the record that was read ahead, `out` what was written. -/
def applyPages (pageSize baseCount : ℕ) :
    ℕ → ℕ → List UInt8 → Option (ℕ × Page) → List UInt8 → Reader PageError (List UInt8)
  | 0, _, _, next, out => do
    ensure (next = none) .excessRecords
    return out
  | count + 1, i, base, next, out => do
    let (page, base) ← basePage pageSize baseCount i base
    match next.filter fun record => record.1 = i with
    | some record => do
      let next ← nextRecord pageSize
      applyPages pageSize baseCount count (i + 1) base next (out ++ record.2)
    | none => do
      ensure (i < baseCount) (.lacksPage i)
      applyPages pageSize baseCount count (i + 1) base next (out ++ page)

/-- `apply_diff`: the content of the rebuilt database. -/
def applyDiff (baseDb : DbFile) (diff : List UInt8) : Except PageError (List UInt8) :=
  StateT.run' (s := diff) do
    let d ← openDiff
    let (basePageSize, baseCount) ← lift (dbGeometry baseDb)
    ensure (basePageSize = d.pageSize) .pageSizeMismatch
    ensure (baseCount = d.basePageCount) .basePageCountMismatch
    let next ← nextRecord d.pageSize.toNat
    applyPages d.pageSize.toNat baseCount d.newPageCount 0 baseDb.bytes next []

/-- The loop of `hashes_after_diff` over the records. Each takes a byte at least. -/
def hashRecords (pageSize : ℕ) : ℕ → List (Option Digest) → Reader PageError (List (Option Digest))
  | 0, out => return out
  | fuel + 1, out => do
    match ← nextRecord pageSize with
    | none => return out
    | some (no, page) => do
      ensure (no < out.length) .beyondNewPageCount
      hashRecords pageSize fuel (out.set no (some (sha256 page)))

/-- All digests, or the number of the first one that is missing. -/
def collect (i : ℕ) : List (Option Digest) → Except PageError (List Digest)
  | [] => .ok []
  | none :: _ => .error (.lacksPage i)
  | some h :: rest => (collect (i + 1) rest).map (h :: ·)

/-- `hashes_after_diff`. -/
def hashesAfterDiff (base : PageHashes) (diff : List UInt8) : Except PageError (List Digest) :=
  StateT.run' (s := diff) do
    let d ← openDiff
    ensure (d.pageSize = base.pageSize) .pageSizeMismatch
    ensure (d.basePageCount = base.hashes.length) .basePageCountMismatch
    let out ← hashRecords sha256 d.pageSize.toNat (diff.length + 1)
      ((List.range d.newPageCount).map fun i => base.hashes[i]?)
    lift (collect 0 out)

end Hashes

end Hippo.PageDiff
