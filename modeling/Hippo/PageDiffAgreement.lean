import Hippo.PageDiffReading

/-!
# The two readers of a diff agree

On any diff file that `apply_diff` accepts, `hashes_after_diff` returns the page hashes of the
database it rebuilds.
-/
namespace Hippo.PageDiff

open Hippo.ByteReader

section Agreement

variable {sha256 : Page → Digest} {pageSize fuel i : ℕ} {next : Option (ℕ × Page)}
  {s s' out out' : List UInt8} {basePages : List Page}

/-- What the hash reader does once the record `next` was read. -/
def hashFrom (sha256 : Page → Digest) (pageSize fuel : ℕ) (next : Option (ℕ × Page))
    (slots : List (Option Digest)) : Reader PageError (List (Option Digest)) := do
  match next with
  | none => return slots
  | some (no, page) => do
    ensure (no < slots.length) .beyondNewPageCount
    hashRecords sha256 pageSize fuel (slots.set no (some (sha256 page)))

theorem hashRecords_succ (slots : List (Option Digest)) :
    hashRecords sha256 pageSize (fuel + 1) slots =
      nextRecord pageSize >>= fun next => hashFrom sha256 pageSize fuel next slots := rfl

theorem basePage_eq_ok {baseCount : ℕ} {page : Page} {base : List UInt8}
    (hbase : ∀ page ∈ basePages, page.length = pageSize)
    (hcount : basePages.length = baseCount - i)
    (h : basePage pageSize baseCount i basePages.flatten s = .ok ((page, base), s')) :
    s' = s ∧ base = basePages.tail.flatten ∧
      (i < baseCount → basePages = page :: basePages.tail) := by
  unfold basePage at h
  by_cases hi : i < baseCount
  · rw [if_pos hi] at h
    obtain ⟨hexact, rfl⟩ := lift_eq_ok.mp h
    cases basePages with
    | nil =>
      simp only [List.length_nil] at hcount
      omega
    | cons first rest =>
      rw [List.flatten_cons, readExact_append (hbase first (by simp))] at hexact
      obtain ⟨rfl, rfl⟩ := Prod.mk.inj (Except.ok.inj hexact)
      exact ⟨rfl, rfl, fun _ => rfl⟩
  · rw [if_neg hi] at h
    obtain ⟨hpair, rfl⟩ := Prod.mk.inj (Except.ok.inj h)
    obtain ⟨-, rfl⟩ := Prod.mk.inj hpair
    have hnil : basePages = [] := List.eq_nil_of_length_eq_zero (by omega)
    exact ⟨rfl, by simp [hnil], fun hlt => absurd hlt hi⟩

/-- While `apply_diff` writes the pages from number `i` on, the hash reader fills their slots: a
slot has the base's digest until then, and the slots before are not touched any more. -/
theorem hashFrom_of_apply {baseCount : ℕ} (count : ℕ) {slots : List (Option Digest)}
    (hbase : ∀ page ∈ basePages, page.length = pageSize)
    (hcount : basePages.length = baseCount - i)
    (hnext : ∀ record ∈ next, record.2.length = pageSize)
    (hfuel : next = none ∨ s.length < fuel) (hlength : slots.length = i + count)
    (hslots : ∀ j < count, slots[i + j]? = some (basePages[j]?.map sha256))
    (happly : applyPages pageSize baseCount count i basePages.flatten next out s =
      .ok (out', s')) :
    ∃ pages : List Page, out' = out ++ pages.flatten ∧ pages.length = count ∧
      (∀ page ∈ pages, page.length = pageSize) ∧
      hashFrom sha256 pageSize fuel next slots s =
        .ok (slots.take i ++ pages.map fun page => some (sha256 page), s') := by
  induction count generalizing i basePages next fuel s out slots with
  | zero =>
    rw [applyPages, bind_eq_ok] at happly
    obtain ⟨_, _, hensure, hout⟩ := happly
    obtain ⟨hnone, hs⟩ := ensure_eq_ok.mp hensure
    obtain ⟨-, rfl⟩ := Prod.mk.inj hs
    obtain ⟨rfl, rfl⟩ := Prod.mk.inj (Except.ok.inj hout)
    refine ⟨[], by simp, rfl, by simp, ?_⟩
    rw [hnone, List.map_nil, List.append_nil, List.take_of_length_le (by omega)]
    rfl
  | succ count ih =>
    rw [applyPages, bind_eq_ok] at happly
    obtain ⟨⟨page, base⟩, s₁, hpage, happly⟩ := happly
    obtain ⟨rfl, rfl, hfirst⟩ := basePage_eq_ok hbase hcount hpage
    have htail : ∀ page ∈ basePages.tail, page.length = pageSize :=
      fun page hpage => hbase page (List.mem_of_mem_tail hpage)
    have htailCount : basePages.tail.length = baseCount - (i + 1) := by
      rw [List.length_tail]
      omega
    have htailSlots : ∀ j < count, slots[i + 1 + j]? = some (basePages.tail[j]?.map sha256) := by
      intro j hj
      rw [List.getElem?_tail, show i + 1 + j = i + (j + 1) by omega]
      exact hslots (j + 1) (by omega)
    dsimp only at happly
    cases hmatch : next.filter fun record => record.1 = i with
    | some record =>
      obtain ⟨hrecord, hi⟩ := Option.filter_eq_some_iff.mp hmatch
      have hno : record.1 = i := by simpa using hi
      rw [hmatch, bind_eq_ok] at happly
      obtain ⟨next', s₂, hread, happly⟩ := happly
      have hshort : s₁.length < fuel := by
        rcases hfuel with hnone | hlt
        · rw [hnone] at hrecord
          cases hrecord
        · exact hlt
      obtain ⟨fuel, rfl⟩ : ∃ n, fuel = n + 1 := ⟨fuel - 1, by omega⟩
      have hrest : (next' = none ∨ s₂.length < fuel) ∧
          ∀ record ∈ next', record.2.length = pageSize := by
        cases next' with
        | none => simp
        | some record' =>
          have hsome : s₂.length < s₁.length ∧ record'.2.length = pageSize :=
            nextRecord_some hread
          refine ⟨Or.inr (by omega), fun found hfound => ?_⟩
          rw [← Option.some.inj hfound]
          exact hsome.2
      have hsetLength : (slots.set i (some (sha256 record.2))).length = i + 1 + count := by
        rw [List.length_set]
        omega
      have hsetSlots : ∀ j < count, (slots.set i (some (sha256 record.2)))[i + 1 + j]? =
          some (basePages.tail[j]?.map sha256) := by
        intro j hj
        rw [List.getElem?_set_ne (by omega)]
        exact htailSlots j hj
      obtain ⟨pages, hout, hpages, hall, hhash⟩ :=
        ih htail htailCount hrest.2 hrest.1 hsetLength hsetSlots happly
      refine ⟨record.2 :: pages, by simp [hout], by simp [hpages], ?_, ?_⟩
      · intro page hmem
        rcases List.mem_cons.mp hmem with rfl | hmem
        · exact hnext record hrecord
        · exact hall page hmem
      · have htake : (slots.set i (some (sha256 record.2))).take (i + 1) =
            slots.take i ++ [some (sha256 record.2)] := by
          rw [List.take_add_one, List.take_set_of_le (by omega),
            List.getElem?_set_self (by omega), Option.toList_some]
        rw [hrecord]
        simp only [hashFrom]
        rw [bind_of_ok (ensure_of (by omega)), hashRecords_succ, hno, bind_of_ok hread, hhash,
          htake]
        simp
    | none =>
      rw [hmatch, bind_eq_ok] at happly
      obtain ⟨_, s₂, hensure, happly⟩ := happly
      obtain ⟨hi, hs⟩ := ensure_eq_ok.mp hensure
      obtain ⟨-, rfl⟩ := Prod.mk.inj hs
      have hpages := hfirst hi
      have htailLength : slots.length = i + 1 + count := by omega
      obtain ⟨pages, hout, hcount', hall, hhash⟩ :=
        ih htail htailCount hnext hfuel htailLength htailSlots happly
      refine ⟨page :: pages, by simp [hout], by simp [hcount'], ?_, ?_⟩
      · intro page' hmem
        rcases List.mem_cons.mp hmem with rfl | hmem
        · exact hbase page' (by rw [hpages]; simp)
        · exact hall page' hmem
      · have hslot : slots[i]? = some (some (sha256 page)) := by
          have h0 := hslots 0 (by omega)
          rw [hpages] at h0
          simpa using h0
        have htake : slots.take (i + 1) = slots.take i ++ [some (sha256 page)] := by
          rw [List.take_add_one, hslot, Option.toList_some]
        rw [hhash, htake]
        simp

theorem collect_map_some (i : ℕ) (hashes : List Digest) :
    collect i (hashes.map some) = .ok hashes := by
  induction hashes generalizing i with
  | nil => rfl
  | cons h hashes ih =>
    rw [List.map_cons, collect, ih]
    rfl

theorem compute_eq_ok {db : DbFile} {baseId : String} {h : PageHashes}
    (hcompute : PageHashes.compute sha256 db baseId = .ok h) :
    ∃ size count, ∃ pages : List Page, dbGeometry db = .ok (size, count) ∧
      db.bytes = pages.flatten ∧ pages.length = count ∧
      (∀ page ∈ pages, page.length = size.toNat) ∧
      h = { baseId := baseId, pageSize := size, hashes := pages.map sha256 } := by
  simp only [PageHashes.compute] at hcompute
  cases hgeometry : dbGeometry db with
  | error e =>
    rw [hgeometry] at hcompute
    cases hcompute
  | ok geometry =>
    obtain ⟨size, count⟩ := geometry
    obtain ⟨pages, hread, hbytes, hcount, hpages⟩ := pages_of_geometry hgeometry
    rw [hgeometry] at hcompute
    simp only [bind, Except.bind, hread] at hcompute
    exact ⟨size, count, pages, rfl, hbytes, hcount, hpages, (Except.ok.inj hcompute).symm⟩

theorem readU64_eq_ok {n : ℕ} (h : readU64 s = .ok (n, s')) : s'.length ≤ s.length := by
  obtain ⟨b, rest, hread, hpure⟩ := bind_eq_ok.mp h
  obtain ⟨hs, -⟩ := readExact_eq_ok.mp hread
  obtain ⟨-, rfl⟩ := Prod.mk.inj (pure_eq_ok.mp hpure)
  rw [hs, List.length_append]
  omega

theorem readU32_eq_ok {n : UInt32} (h : readU32 s = .ok (n, s')) : s'.length ≤ s.length := by
  obtain ⟨b, rest, hread, hpure⟩ := bind_eq_ok.mp h
  obtain ⟨hs, -⟩ := readExact_eq_ok.mp hread
  obtain ⟨-, rfl⟩ := Prod.mk.inj (pure_eq_ok.mp hpure)
  rw [hs, List.length_append]
  omega

theorem readMagic_eq_ok {magic : List UInt8} {u : Unit} (h : readMagic magic s = .ok (u, s')) :
    s'.length ≤ s.length := by
  obtain ⟨m, rest, hread, hensure⟩ := bind_eq_ok.mp h
  obtain ⟨hs, -⟩ := readExact_eq_ok.mp hread
  obtain ⟨-, hpair⟩ := ensure_eq_ok.mp hensure
  obtain ⟨-, rfl⟩ := Prod.mk.inj hpair
  rw [hs, List.length_append]
  omega

theorem readString_eq_ok {string : String} (h : readString s = .ok (string, s')) :
    s'.length ≤ s.length := by
  obtain ⟨len, rest₁, hlen, h₁⟩ := bind_eq_ok.mp h
  obtain ⟨u, rest₂, hensure, h₂⟩ := bind_eq_ok.mp h₁
  obtain ⟨-, hpair⟩ := ensure_eq_ok.mp hensure
  obtain ⟨-, rfl⟩ := Prod.mk.inj hpair
  obtain ⟨b, rest₃, hread, h₃⟩ := bind_eq_ok.mp h₂
  obtain ⟨hs, -⟩ := readExact_eq_ok.mp hread
  have hshort := readU32_eq_ok hlen
  rw [hs, List.length_append] at hshort
  cases hutf8 : String.fromUTF8? ⟨b.toArray⟩ with
  | none =>
    rw [hutf8] at h₃
    cases h₃
  | some decoded =>
    rw [hutf8] at h₃
    obtain ⟨-, rfl⟩ := Prod.mk.inj (pure_eq_ok.mp h₃)
    omega

/-- The header takes its bytes from the front of the file. -/
theorem openDiff_eq_ok {d : DiffHeader} (h : openDiff s = .ok (d, s')) :
    s'.length ≤ s.length := by
  obtain ⟨u₁, s₁, hmagic, h₁⟩ := bind_eq_ok.mp h
  obtain ⟨pageSize, s₂, hsize, h₂⟩ := bind_eq_ok.mp h₁
  obtain ⟨baseCount, s₃, hbase, h₃⟩ := bind_eq_ok.mp h₂
  obtain ⟨newCount, s₄, hnew, h₄⟩ := bind_eq_ok.mp h₃
  obtain ⟨baseId, s₅, hid, h₅⟩ := bind_eq_ok.mp h₄
  obtain ⟨u₂, s₆, hensure, h₆⟩ := bind_eq_ok.mp h₅
  obtain ⟨-, hpair⟩ := ensure_eq_ok.mp hensure
  obtain ⟨-, rfl⟩ := Prod.mk.inj hpair
  obtain ⟨-, rfl⟩ := Prod.mk.inj (pure_eq_ok.mp h₆)
  have hle₁ := readMagic_eq_ok hmagic
  have hle₂ := readU32_eq_ok hsize
  have hle₃ := readU64_eq_ok hbase
  have hle₄ := readU64_eq_ok hnew
  have hle₅ := readString_eq_ok hid
  omega

/-- Whatever `apply_diff` accepts the hash reader accepts, with the digests of the output. -/
theorem hashes_of_apply {baseDb : DbFile} {baseId : String} {h : PageHashes} {diff out : List UInt8}
    (hcompute : PageHashes.compute sha256 baseDb baseId = .ok h)
    (happly : applyDiff baseDb diff = .ok out) :
    ∃ pages, pagesOf h.pageSize out = .ok pages ∧
      hashesAfterDiff sha256 h diff = .ok (pages.map sha256) := by
  obtain ⟨size, count, basePages, hgeometry, hbytes, hcount, hbase, rfl⟩ := compute_eq_ok hcompute
  obtain ⟨hpos, -, -⟩ := dbGeometry_eq_ok hgeometry
  obtain ⟨s', happly₀⟩ := run'_eq_ok.mp happly
  obtain ⟨d, s₁, hopen, happly₁⟩ := bind_eq_ok.mp happly₀
  rw [bind_of_ok (lift_of_ok hgeometry)] at happly₁
  obtain ⟨u₁, s₂, hensure₁, happly₂⟩ := bind_eq_ok.mp happly₁
  obtain ⟨hsize, hpair₁⟩ := ensure_eq_ok.mp hensure₁
  obtain ⟨-, rfl⟩ := Prod.mk.inj hpair₁
  obtain ⟨u₂, s₃, hensure₂, happly₃⟩ := bind_eq_ok.mp happly₂
  obtain ⟨hbaseCount, hpair₂⟩ := ensure_eq_ok.mp hensure₂
  obtain ⟨-, rfl⟩ := Prod.mk.inj hpair₂
  obtain ⟨next, s₄, hnext, happly₄⟩ := bind_eq_ok.mp happly₃
  rw [← hsize, hbytes] at happly₄
  rw [← hsize] at hnext
  let slots := (List.range d.newPageCount).map fun i => (basePages.map sha256)[i]?
  have hheader := openDiff_eq_ok hopen
  have hrest : (next = none ∨ s₄.length < diff.length) ∧
      ∀ record ∈ next, record.2.length = size.toNat := by
    cases next with
    | none => simp
    | some record =>
      have hsome : s₄.length < s₃.length ∧ record.2.length = size.toNat := nextRecord_some hnext
      obtain ⟨hshort, hlength⟩ := hsome
      refine ⟨Or.inr (by omega), fun found hfound => ?_⟩
      rw [← Option.some.inj hfound]
      exact hlength
  have hlength : slots.length = 0 + d.newPageCount := by simp [slots]
  have hslots : ∀ j < d.newPageCount, slots[0 + j]? = some (basePages[j]?.map sha256) := by
    intro j hj
    simp [slots, hj]
  obtain ⟨pages, hout, hpages, hall, hhash⟩ := hashFrom_of_apply d.newPageCount hbase (by omega)
    hrest.2 hrest.1 hlength hslots happly₄
  rw [List.nil_append] at hout
  refine ⟨pages, ?_, ?_⟩
  · have hfuel : pages.length ≤ out.length := by
      rw [hout, length_flatten_of_forall hall]
      exact Nat.le_mul_of_pos_right pages.length hpos
    have hread := readPages_flatten hpos hfuel hall
    rw [← hout] at hread
    exact run'_eq_ok.mpr ⟨[], hread⟩
  · have hrecords : hashRecords sha256 size.toNat (diff.length + 1) slots s₃ =
        .ok (pages.map fun page => some (sha256 page), s') := by
      rw [hashRecords_succ, bind_of_ok hnext, hhash, List.take_zero, List.nil_append]
    have hcollect := collect_map_some 0 (pages.map sha256)
    rw [List.map_map] at hcollect
    apply run'_eq_ok.mpr
    refine ⟨s', ?_⟩
    rw [bind_of_ok hopen, ← hsize, bind_of_ok (ensure_of rfl),
      bind_of_ok (ensure_of (by rw [List.length_map]; omega)), bind_of_ok hrecords]
    exact lift_of_ok hcollect

end Agreement

end Hippo.PageDiff
