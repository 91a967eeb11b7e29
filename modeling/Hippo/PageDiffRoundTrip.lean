import Hippo.PageDiffAgreement

/-!
# Page diffs round-trip

A page-hash file is read as it was written, and the diff of a database gives it back.
-/
namespace Hippo.PageDiff

open Hippo.ByteReader

/-- `PageHashes::read` undoes `PageHashes::write`. -/
theorem read_write {h : PageHashes} {bytes : List UInt8} (hid : (utf8 h.baseId).length ≤ 4096)
    (hwrite : h.write = .ok bytes) : PageHashes.read bytes = .ok h := by
  obtain ⟨baseId, hstring, hread⟩ := readString_append hid
  by_cases hcount : h.hashes.length < 2 ^ 64
  · have hbytes : hashMagic ++ (writeU32 h.pageSize ++ (baseId ++
        (leBytes 8 h.hashes.length ++ h.hashes.flatMap Digest.bytes))) = bytes := by
      simp only [PageHashes.write, hstring, writeU64, if_pos hcount] at hwrite
      exact Except.ok.inj hwrite
    have hdigests := @readDigests_append [] h.hashes
    rw [List.append_nil] at hdigests
    rw [← hbytes, PageHashes.read, run'_eq_ok]
    refine ⟨[], ?_⟩
    rw [bind_of_ok (readMagic_append rfl), bind_of_ok (readU32_append _), bind_of_ok (hread _),
      bind_of_ok (readU64_append hcount), bind_of_ok hdigests]
    rfl
  · simp only [PageHashes.write, hstring, writeU64, if_neg hcount] at hwrite
    cases hwrite

/-- The reader refuses a longer base id, which the writer does not check. -/
theorem readString_too_long {s : String} {rest bytes : List UInt8}
    (hlong : 4096 < (utf8 s).length) (hwrite : writeString s = .ok bytes) :
    readString (bytes ++ rest) = .error .baseIdTooLong := by
  unfold writeString at hwrite
  split_ifs at hwrite with hlt
  rw [← Except.ok.inj hwrite, readString, List.append_assoc]
  have hread := @readU32_append (utf8 s ++ rest) (UInt32.ofNat (utf8 s).length)
  have hlen : (UInt32.ofNat (utf8 s).length).toNat = (utf8 s).length := UInt32.toNat_ofNat_of_lt hlt
  rw [writeU32, hlen] at hread
  have hnot : ¬ (utf8 s).length ≤ 4096 := by omega
  rw [bind_of_ok hread, hlen]
  simp only [bind, StateT.bind, ensure, if_neg hnot]
  rfl

section Diff

variable {sha256 : Page → Digest} {base : PageHashes} {pageSize baseCount i : ℕ}
  {basePages newPages : List Page} {s : List UInt8}

theorem of_mem_diffRecords {record : ℕ × Page}
    (h : record ∈ diffRecords sha256 base i newPages) :
    i ≤ record.1 ∧ record.1 < i + newPages.length ∧ record.2 ∈ newPages := by
  induction newPages generalizing i with
  | nil => simp [diffRecords] at h
  | cons page newPages ih =>
    have hlater : record ∈ diffRecords sha256 base (i + 1) newPages →
        i ≤ record.1 ∧ record.1 < i + (page :: newPages).length ∧
          record.2 ∈ page :: newPages := by
      intro hmem
      obtain ⟨hle, hlt, hpage⟩ := ih hmem
      rw [List.length_cons]
      exact ⟨by omega, by omega, List.mem_cons_of_mem page hpage⟩
    unfold diffRecords at h
    split_ifs at h with hsame
    · rcases List.mem_cons.mp h with rfl | h
      · simp
      · exact hlater h
    · exact hlater h

/-- Reading ahead in a list of records. -/
theorem nextRecord_records {records : List (ℕ × Page)}
    (h : ∀ record ∈ records, record.1 < 2 ^ 64 ∧ record.2.length = pageSize) :
    nextRecord pageSize (records.flatMap encodeRecord) =
      .ok (records.head?, records.tail.flatMap encodeRecord) := by
  cases records with
  | nil => exact nextRecord_nil
  | cons record records =>
    obtain ⟨hno, hlength⟩ := h record (by simp)
    rw [List.flatMap_cons]
    exact nextRecord_append hno hlength

theorem basePage_flatten (hbase : ∀ page ∈ basePages, page.length = pageSize)
    (hcount : basePages.length = baseCount - i) :
    basePage pageSize baseCount i basePages.flatten s =
      .ok ((basePages.headD [], basePages.tail.flatten), s) := by
  unfold basePage
  cases basePages with
  | nil =>
    have hi : ¬ i < baseCount := by
      simp only [List.length_nil] at hcount
      omega
    rw [if_neg hi]
    rfl
  | cons page basePages =>
    have hi : i < baseCount := by
      simp only [List.length_cons] at hcount
      omega
    rw [if_pos hi, List.flatten_cons]
    exact lift_of_ok (readExact_append (hbase page (by simp)))

/-- With the records of the pages from number `i` on, the first of them read ahead, `apply_diff`
writes these pages. -/
theorem applyPages_diffRecords (out : List UInt8)
    (hbase : ∀ page ∈ basePages, page.length = pageSize)
    (hnew : ∀ page ∈ newPages, page.length = pageSize)
    (hcount : basePages.length = baseCount - i)
    (hhashes : ∀ j < newPages.length, base.hashes[i + j]? = basePages[j]?.map sha256)
    (hfree : ∀ page ∈ basePages, ∀ page' ∈ newPages, sha256 page = sha256 page' → page = page')
    (hlt : i + newPages.length < 2 ^ 64) :
    applyPages pageSize baseCount newPages.length i basePages.flatten
        (diffRecords sha256 base i newPages).head? out
        ((diffRecords sha256 base i newPages).tail.flatMap encodeRecord) =
      .ok (out ++ newPages.flatten, []) := by
  induction newPages generalizing i basePages out with
  | nil =>
    rw [List.length_nil, applyPages, diffRecords, List.head?_nil, bind_of_ok (ensure_of rfl),
      List.flatten_nil, List.append_nil]
    rfl
  | cons page newPages ih =>
    rw [List.length_cons] at hhashes hlt
    have hrecords : ∀ record ∈ diffRecords sha256 base (i + 1) newPages,
        record.1 < 2 ^ 64 ∧ record.2.length = pageSize := by
      intro record hmem
      obtain ⟨-, hno, hpage⟩ := of_mem_diffRecords hmem
      exact ⟨by omega, hnew record.2 (List.mem_cons_of_mem page hpage)⟩
    have hrest := ih (i := i + 1) (out ++ page)
      (fun page hpage => hbase page (List.mem_of_mem_tail hpage))
      (fun page' hpage => hnew page' (List.mem_cons_of_mem page hpage))
      (by rw [List.length_tail]; omega)
      (fun j hj => by
        rw [List.getElem?_tail, show i + 1 + j = i + (j + 1) by omega]
        exact hhashes (j + 1) (by omega))
      (fun page' hpage' page'' hpage'' =>
        hfree page' (List.mem_of_mem_tail hpage') page'' (List.mem_cons_of_mem page hpage''))
      (by omega)
    have hflatten : out ++ (page :: newPages).flatten = out ++ page ++ newPages.flatten := by simp
    rw [List.length_cons, applyPages, bind_of_ok (basePage_flatten hbase hcount), hflatten]
    dsimp only
    by_cases hsame : base.hashes[i]? = some (sha256 page)
    · -- the digest says that the page is the base's, and no two pages here share a digest
      have hhash := hhashes 0 (by omega)
      rw [Nat.add_zero, hsame] at hhash
      have hdiff : diffRecords sha256 base i (page :: newPages) =
          diffRecords sha256 base (i + 1) newPages := by
        rw [diffRecords, if_neg (not_not.mpr hsame)]
      cases basePages with
      | nil => simp at hhash
      | cons first basePages =>
        have hdigest : sha256 first = sha256 page := by simpa using hhash.symm
        have hfirst := hfree first (by simp) page (by simp) hdigest
        have hi : i < baseCount := by
          rw [List.length_cons] at hcount
          omega
        have hahead : ((diffRecords sha256 base (i + 1) newPages).head?.filter
            fun record => record.1 = i) = none := by
          rw [Option.filter_eq_none_iff]
          intro record hmem
          obtain ⟨hle, -⟩ := of_mem_diffRecords (List.mem_of_mem_head? hmem)
          simp
          omega
        rw [hdiff, hahead]
        simp only
        rw [bind_of_ok (ensure_of hi), List.headD_cons, hfirst]
        exact hrest
    · have hdiff : diffRecords sha256 base i (page :: newPages) =
          (i, page) :: diffRecords sha256 base (i + 1) newPages := by
        rw [diffRecords, if_pos hsame]
      rw [hdiff, List.head?_cons, List.tail_cons]
      simp only [Option.filter_some, decide_true, if_true]
      rw [bind_of_ok (nextRecord_records hrecords)]
      exact hrest

theorem openDiff_append {size : UInt32} {newCount : ℕ} {baseId : String} {id : List UInt8}
    {rest : List UInt8} (hpos : 0 < size.toNat) (hbase : baseCount < 2 ^ 64)
    (hnew : newCount < 2 ^ 64) (hid : ∀ rest, readString (id ++ rest) = .ok (baseId, rest)) :
    openDiff (diffMagic ++ (writeU32 size ++ (leBytes 8 baseCount ++ (leBytes 8 newCount ++
        (id ++ rest))))) =
      .ok ({ pageSize := size, basePageCount := baseCount, newPageCount := newCount }, rest) := by
  rw [openDiff, bind_of_ok (readMagic_append rfl), bind_of_ok (readU32_append _),
    bind_of_ok (readU64_append hbase), bind_of_ok (readU64_append hnew), bind_of_ok (hid _),
    bind_of_ok (ensure_of hpos)]
  rfl

end Diff

/-- No page of the base has the digest of another page of the new database. -/
def CollisionFree (sha256 : Page → Digest) (size : UInt32) (baseDb newDb : DbFile) : Prop :=
  ∀ pages pages', pagesOf size baseDb.bytes = .ok pages → pagesOf size newDb.bytes = .ok pages' →
    ∀ page ∈ pages, ∀ page' ∈ pages', sha256 page = sha256 page' → page = page'

theorem compute_of_geometry (sha256 : Page → Digest) (baseId : String) {db : DbFile}
    {size : UInt32} {count : ℕ} {pages : List Page} (hgeometry : dbGeometry db = .ok (size, count))
    (hpages : pagesOf size db.bytes = .ok pages) :
    PageHashes.compute sha256 db baseId =
      .ok { baseId := baseId, pageSize := size, hashes := pages.map sha256 } := by
  simp only [PageHashes.compute, hgeometry, bind, Except.bind, hpages]
  rfl

/-- The diff of a new database over the hashes of the base is written, and `apply_diff` gives the
new database back. -/
theorem apply_writeDiff {sha256 : Page → Digest} {baseDb newDb : DbFile} {size : UInt32}
    {baseCount newCount : ℕ} {baseId : String} {h : PageHashes}
    (hid : (utf8 baseId).length ≤ 4096) (hbase : dbGeometry baseDb = .ok (size, baseCount))
    (hnew : dbGeometry newDb = .ok (size, newCount))
    (hfree : CollisionFree sha256 size baseDb newDb)
    (hcompute : PageHashes.compute sha256 baseDb baseId = .ok h) :
    ∃ diff summary, writeDiff sha256 h newDb = .ok (diff, summary) ∧
      applyDiff baseDb diff = .ok newDb.bytes := by
  obtain ⟨hpos, -, hbaseLt⟩ := dbGeometry_eq_ok hbase
  obtain ⟨-, -, hnewLt⟩ := dbGeometry_eq_ok hnew
  obtain ⟨basePages, hbaseRead, hbaseBytes, hbaseCount, hbasePages⟩ := pages_of_geometry hbase
  obtain ⟨newPages, hnewRead, hnewBytes, hnewCount, hnewPages⟩ := pages_of_geometry hnew
  have hh := compute_of_geometry sha256 baseId hbase hbaseRead
  rw [hcompute] at hh
  obtain rfl := Except.ok.inj hh
  obtain ⟨id, hstring, hread⟩ := readString_append hid
  let base : PageHashes :=
    { baseId := baseId, pageSize := size, hashes := basePages.map sha256 }
  let records := diffRecords sha256 base 0 newPages
  refine ⟨diffMagic ++ (writeU32 size ++ (leBytes 8 baseCount ++ (leBytes 8 newCount ++
    (id ++ records.flatMap encodeRecord)))),
    { changedPages := records.length, newPageCount := newCount }, ?_, ?_⟩
  · simp only [writeDiff, hnew, bind, Except.bind, List.length_map, hbaseCount, writeU64,
      if_pos hbaseLt, if_pos hnewLt, hstring, hnewRead, ne_eq, not_true_eq_false, if_false]
    rfl
  · have hrecords : ∀ record ∈ records, record.1 < 2 ^ 64 ∧ record.2.length = size.toNat := by
      intro record hmem
      obtain ⟨-, hno, hpage⟩ := of_mem_diffRecords hmem
      exact ⟨by omega, hnewPages record.2 hpage⟩
    have hhashes : ∀ j < newPages.length, base.hashes[0 + j]? = basePages[j]?.map sha256 := by
      intro j hj
      simp [base]
    have happly := applyPages_diffRecords (i := 0) [] hbasePages hnewPages hbaseCount hhashes
      (hfree basePages newPages hbaseRead hnewRead) (by omega)
    rw [List.nil_append, ← hbaseBytes, ← hnewBytes, hnewCount] at happly
    apply run'_eq_ok.mpr
    refine ⟨[], ?_⟩
    rw [bind_of_ok (openDiff_append hpos hbaseLt hnewLt hread), bind_of_ok (lift_of_ok hbase)]
    simp only
    rw [bind_of_ok (ensure_of rfl), bind_of_ok (ensure_of rfl),
      bind_of_ok (nextRecord_records hrecords)]
    exact happly

section Growing

/-- A page with the SQLite header, the page size 512 and `version` after it. -/
private def headPage (version : UInt8) : Page :=
  sqliteHeader ++ [0x02, 0x00, version] ++ List.replicate 493 0

private def emptyPage : Page := List.replicate 512 0

/-- The digests of the three pages below. -/
private def digestOf (page : Page) : Digest :=
  if page = headPage 0 then
    ⟨[0xC6, 0xFE, 0xE1, 0x91, 0xF4, 0xAA, 0x19, 0xC1, 0x40, 0xB2, 0x24,
      0x5C, 0x28, 0x73, 0x03, 0xD6, 0x17, 0xF5, 0x04, 0xE8, 0x24, 0xC7,
      0xFD, 0x02, 0x8E, 0xCA, 0xA1, 0xB5, 0xF1, 0x19, 0xFE, 0xE9], rfl⟩
  else if page = headPage 1 then
    ⟨[0x3F, 0x5F, 0x31, 0xD7, 0x67, 0x2B, 0x27, 0xCB, 0xBE, 0x77, 0x3F,
      0x99, 0x68, 0xEC, 0x4F, 0x3B, 0x28, 0xB8, 0x8F, 0xA2, 0x05, 0x79,
      0x10, 0xD5, 0xAE, 0xD3, 0xC7, 0xB8, 0x31, 0xBD, 0x13, 0xFD], rfl⟩
  else
    ⟨[0x07, 0x6A, 0x27, 0xC7, 0x9E, 0x5A, 0xCE, 0x2A, 0x3D, 0x47, 0xF9,
      0xDD, 0x2E, 0x83, 0xE4, 0xFF, 0x6E, 0xA8, 0x87, 0x2B, 0x3C, 0x22,
      0x18, 0xF6, 0x6C, 0x92, 0xB8, 0x9B, 0x55, 0xF3, 0x65, 0x60], rfl⟩

private def smallDb : DbFile := ⟨headPage 0, by decide +kernel⟩

private def grownDb : DbFile := ⟨headPage 1 ++ emptyPage, by decide +kernel⟩

end Growing

end Hippo.PageDiff
