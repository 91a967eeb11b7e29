import Hippo.PageDiff

/-!
# Reading fields, pages and records

What the readers return on the bytes of a field, a page or a record, in front of any rest.
-/
namespace Hippo.PageDiff

open Hippo.ByteReader

section Fields

variable {rest : List UInt8} {n : ℕ} {s : String} {bytes : List UInt8}

theorem readU32_append (n : UInt32) : readU32 (writeU32 n ++ rest) = .ok (n, rest) := by
  have hlt : n.toNat < 256 ^ 4 := n.toNat_lt
  have hbytes : readExact 4 PageError.unexpectedEof (leBytes 4 n.toNat ++ rest) =
      .ok (leBytes 4 n.toNat, rest) := readExact_append (length_leBytes 4 n.toNat)
  rw [readU32, writeU32, bind_of_ok hbytes, leValue_leBytes hlt, UInt32.ofNat_toNat]
  rfl

theorem readU64_append (h : n < 2 ^ 64) : readU64 (leBytes 8 n ++ rest) = .ok (n, rest) := by
  have hbytes : readExact 8 PageError.unexpectedEof (leBytes 8 n ++ rest) =
      .ok (leBytes 8 n, rest) := readExact_append (length_leBytes 8 n)
  rw [readU64, bind_of_ok hbytes, leValue_leBytes h]
  rfl

theorem readMagic_append {magic : List UInt8} (h : magic.length = 8) :
    readMagic magic (magic ++ rest) = .ok ((), rest) := by
  rw [readMagic, bind_of_ok (readExact_append h)]
  exact ensure_of rfl

theorem fromUTF8_utf8 (s : String) : String.fromUTF8? ⟨(utf8 s).toArray⟩ = some s := by
  have hbytes : (⟨(utf8 s).toArray⟩ : ByteArray) = s.toUTF8 := by simp [utf8]
  rw [hbytes, String.fromUTF8?, String.toUTF8_eq_toByteArray, dif_pos s.isValidUTF8]
  rfl

theorem readString_append (h : (utf8 s).length ≤ 4096) :
    ∃ bytes, writeString s = .ok bytes ∧
      ∀ rest, readString (bytes ++ rest) = .ok (s, rest) := by
  refine ⟨leBytes 4 (utf8 s).length ++ utf8 s, if_pos (by omega), fun rest => ?_⟩
  have hlt : (utf8 s).length < 2 ^ 32 := by omega
  have hlen : (UInt32.ofNat (utf8 s).length).toNat = (utf8 s).length := UInt32.toNat_ofNat_of_lt hlt
  have hread : readU32 (leBytes 4 (utf8 s).length ++ (utf8 s ++ rest)) =
      .ok (UInt32.ofNat (utf8 s).length, utf8 s ++ rest) := by
    have hread := @readU32_append (utf8 s ++ rest) (UInt32.ofNat (utf8 s).length)
    rwa [writeU32, hlen] at hread
  rw [readString, List.append_assoc, bind_of_ok hread, hlen, bind_of_ok (ensure_of h),
    bind_of_ok (readExact_append rfl), fromUTF8_utf8]
  rfl

theorem readDigests_append (hashes : List Digest) :
    readDigests hashes.length (hashes.flatMap Digest.bytes ++ rest) = .ok (hashes, rest) := by
  induction hashes with
  | nil => rfl
  | cons h hashes ih =>
    have hexact : readExact 32 PageError.unexpectedEof
        (h.bytes ++ (hashes.flatMap Digest.bytes ++ rest)) =
        .ok (h.bytes, hashes.flatMap Digest.bytes ++ rest) := readExact_append h.length_eq
    rw [List.flatMap_cons, List.append_assoc, List.length_cons, readDigests, bind_of_ok hexact,
      dif_pos h.length_eq, bind_of_ok ih]
    rfl

end Fields

section Pages

variable {pageSize : ℕ} {pages : List Page} {page : Page} {rest s s' : List UInt8}

theorem readPageOrEof_nil {e : PageError} (h : 0 < pageSize) :
    readPageOrEof pageSize e [] = .ok (none, []) := by
  simp [readPageOrEof, h]

theorem readPageOrEof_append {e : PageError} (h : 0 < pageSize) (hpage : page.length = pageSize) :
    readPageOrEof pageSize e (page ++ rest) = .ok (some page, rest) := by
  have hne : page ++ rest ≠ [] := by
    intro hnil
    rw [List.append_eq_nil_iff] at hnil
    rw [hnil.1] at hpage
    simp at hpage
    omega
  simp only [readPageOrEof, hne, and_false, if_false, readExact_append hpage]
  rfl

/-- A file of whole pages is read page by page. -/
theorem readPages_flatten (h : 0 < pageSize) {fuel : ℕ} (hfuel : pages.length ≤ fuel)
    (hpages : ∀ page ∈ pages, page.length = pageSize) :
    readPages pageSize fuel pages.flatten = .ok (pages, []) := by
  induction pages generalizing fuel with
  | nil =>
    cases fuel with
    | zero => rfl
    | succ fuel =>
      rw [readPages, List.flatten_nil, bind_of_ok (readPageOrEof_nil h)]
      rfl
  | cons page pages ih =>
    cases fuel with
    | zero => simp at hfuel
    | succ fuel =>
      have hrest := ih (by simpa using hfuel) fun page' hpage' =>
        hpages page' (List.mem_cons_of_mem page hpage')
      rw [readPages, List.flatten_cons,
        bind_of_ok (readPageOrEof_append h (hpages page (by simp)))]
      show (readPages pageSize fuel >>= fun pages => pure (page :: pages)) pages.flatten = _
      rw [bind_of_ok hrest]
      rfl

theorem length_flatten_of_forall (h : ∀ page ∈ pages, page.length = pageSize) :
    pages.flatten.length = pages.length * pageSize := by
  rw [List.length_flatten, List.eq_replicate_of_mem (l := pages.map List.length) (a := pageSize)]
  · simp
  · simpa using h

/-- The pages of a file whose length is a multiple of the page size. -/
theorem exists_pages (n : ℕ) (hlength : s.length = pageSize * n) :
    ∃ pages : List Page, s = pages.flatten ∧ pages.length = n ∧
      ∀ page ∈ pages, page.length = pageSize := by
  induction n generalizing s with
  | zero =>
    have hnil : s = [] := List.eq_nil_of_length_eq_zero (by simpa using hlength)
    exact ⟨[], by simp [hnil], rfl, by simp⟩
  | succ n ih =>
    rw [Nat.mul_succ] at hlength
    obtain ⟨pages, hs, hn, hpages⟩ := ih (s := s.drop pageSize) (by rw [List.length_drop]; omega)
    refine ⟨s.take pageSize :: pages, ?_, by simp [hn], ?_⟩
    · rw [List.flatten_cons, ← hs, List.take_append_drop]
    · intro page hpage
      rcases List.mem_cons.mp hpage with rfl | hpage
      · rw [List.length_take]
        omega
      · exact hpages page hpage

theorem dbGeometry_eq_ok {db : DbFile} {size : UInt32} {count : ℕ}
    (h : dbGeometry db = .ok (size, count)) :
    0 < size.toNat ∧ db.bytes.length = size.toNat * count ∧ count < 2 ^ 64 := by
  unfold dbGeometry at h
  dsimp only at h
  generalize hraw : 256 * (db.bytes.getD 16 0).toNat + (db.bytes.getD 17 0).toNat = raw at h
  have hlt : raw < 65536 := by
    have h16 := (db.bytes.getD 16 0).toNat_lt
    have h17 := (db.bytes.getD 17 0).toNat_lt
    omega
  have hsize : (if raw = 1 then 65536 else raw) < 2 ^ 32 := by
    split_ifs <;> omega
  generalize (if raw = 1 then 65536 else raw) = ps at h hsize
  split_ifs at h with h1 h2 h3
  obtain ⟨rfl, rfl⟩ := Prod.mk.inj (Except.ok.inj h)
  have hps : (UInt32.ofNat ps).toNat = ps := UInt32.toNat_ofNat_of_lt hsize
  rw [hps]
  refine ⟨h3.1, ?_, ?_⟩
  · exact (Nat.mul_div_cancel' (Nat.dvd_of_mod_eq_zero h3.2)).symm
  · have := Nat.div_le_self db.bytes.length ps
    have := db.length_lt
    omega

/-- The pages of a database. -/
theorem pages_of_geometry {db : DbFile} {size : UInt32} {count : ℕ}
    (h : dbGeometry db = .ok (size, count)) :
    ∃ pages : List Page, pagesOf size db.bytes = .ok pages ∧ db.bytes = pages.flatten ∧
      pages.length = count ∧ ∀ page ∈ pages, page.length = size.toNat := by
  obtain ⟨hpos, hlength, -⟩ := dbGeometry_eq_ok h
  obtain ⟨pages, hbytes, hcount, hpages⟩ := exists_pages count hlength
  refine ⟨pages, ?_, hbytes, hcount, hpages⟩
  have hfuel : pages.length ≤ db.bytes.length := by
    rw [hcount, hlength]
    exact Nat.le_mul_of_pos_left count hpos
  have hread := readPages_flatten hpos hfuel hpages
  rw [← hbytes] at hread
  exact run'_eq_ok.mpr ⟨[], hread⟩

end Pages

section Records

variable {pageSize : ℕ} {page : Page} {rest s s' : List UInt8} {i : ℕ}

theorem nextRecord_nil : nextRecord pageSize [] = .ok (none, []) := by
  rw [nextRecord, bind_of_ok (readPageOrEof_nil (by omega))]
  rfl

theorem nextRecord_append (hi : i < 2 ^ 64) (hpage : page.length = pageSize) :
    nextRecord pageSize (encodeRecord (i, page) ++ rest) = .ok (some (i, page), rest) := by
  rw [nextRecord, encodeRecord, List.append_assoc,
    bind_of_ok (readPageOrEof_append (by omega) (length_leBytes 8 i))]
  show (readExact pageSize PageError.truncatedRecord >>= fun buf =>
    pure (some (leValue (leBytes 8 i), buf))) (page ++ rest) = _
  rw [bind_of_ok (readExact_append hpage), leValue_leBytes hi]
  rfl

/-- Reading stops at the end of the file only. -/
theorem nextRecord_none (h : nextRecord pageSize s = .ok (none, s')) : s = [] ∧ s' = [] := by
  rw [nextRecord, bind_eq_ok] at h
  obtain ⟨found, rest, hread, h⟩ := h
  by_cases hs : s = []
  · subst hs
    rw [readPageOrEof_nil (by omega)] at hread
    obtain ⟨rfl, rfl⟩ := Prod.mk.inj (Except.ok.inj hread)
    exact ⟨rfl, (Prod.mk.inj (Except.ok.inj h)).2.symm⟩
  · cases found with
    | none =>
      simp only [readPageOrEof, hs, and_false, if_false] at hread
      cases hexact : readExact 8 PageError.truncatedPage s <;> simp [hexact, Except.map] at hread
    | some no =>
      rw [bind_eq_ok] at h
      obtain ⟨buf, rest', -, h⟩ := h
      cases (Prod.mk.inj (Except.ok.inj h)).1

/-- A record takes its bytes from the file. -/
theorem nextRecord_some {no : ℕ} (h : nextRecord pageSize s = .ok (some (no, page), s')) :
    s'.length < s.length ∧ page.length = pageSize := by
  rw [nextRecord, bind_eq_ok] at h
  obtain ⟨found, rest, hread, h⟩ := h
  by_cases hs : s = []
  · subst hs
    rw [readPageOrEof_nil (by omega)] at hread
    obtain ⟨rfl, rfl⟩ := Prod.mk.inj (Except.ok.inj hread)
    cases (Prod.mk.inj (Except.ok.inj h)).1
  · simp only [readPageOrEof, hs, and_false, if_false] at hread
    cases hexact : readExact 8 PageError.truncatedPage s with
    | error e => simp [hexact, Except.map] at hread
    | ok p =>
      obtain ⟨bytes, tail⟩ := p
      rw [hexact] at hread
      obtain ⟨rfl, rfl⟩ := Prod.mk.inj (Except.ok.inj hread)
      obtain ⟨rfl, hlength⟩ := readExact_eq_ok.mp hexact
      rw [bind_eq_ok] at h
      obtain ⟨buf, rest', hbuf, h⟩ := h
      obtain ⟨hsome, rfl⟩ := Prod.mk.inj (Except.ok.inj h)
      obtain ⟨rfl, hpage⟩ := readExact_eq_ok.mp hbuf
      have hbufeq : buf = page := (Prod.mk.inj (Option.some.inj hsome)).2
      rw [hbufeq] at hpage
      refine ⟨?_, hpage⟩
      simp only [List.length_append]
      omega

end Records

end Hippo.PageDiff
