import Hippo.Backup

/-!
# What a backup run keeps

An artifact moves from the outbox to the destination: copied, removed from the outbox,
recorded, and only then its sidecar is dropped. `Core` holds whatever fails. `Sound` also says
that nothing is lost; it holds as long as no operation fails. One lemma for each write.
-/
namespace Hippo.Backup

variable {η : Type}

/-- The manifest on the disk. -/
def World.entries (w : World η) : List (ManifestEntry η) := w.manifest.getD []

/-- The artifact with this id is listed on the disk. -/
def World.Listed (w : World η) (id : String) : Prop := ∃ e ∈ w.entries, e.id = id

/-- Two records of one artifact. -/
structure Same (e e' : ManifestEntry η) : Prop where
  id : e'.id = e.id
  kind : e'.kind = e.kind
  sum : e'.ciphertextSha256 = e.ciphertextSha256
  verified : e'.verified = e.verified
  baseId : e'.baseId = e.baseId
  file : e'.file = e.file

/-- The base of a Delta is a verified Full of the list. -/
def HasBase (entries : List (ManifestEntry η)) (e : ManifestEntry η) : Prop :=
  ∃ f ∈ entries, f.kind = .full ∧ f.verified = true ∧ e.baseId = some f.id

/-- Every record is valid, and the Deltas have their bases. -/
def Based (entries : List (ManifestEntry η)) : Prop :=
  ∀ e ∈ entries, validEntry e = true ∧
    (e.verified = true → e.kind = .delta → HasBase entries e)

/-- Whatever fails: listed artifacts are in the destination, ids are unique, and the artifact of
a sidecar is in the outbox, in the destination, or gone. -/
structure Core (w : World η) : Prop where
  listed : ∀ e ∈ w.entries, w.dest.get? e.id = some e.ciphertextSha256
  nodup : (w.entries.map ManifestEntry.id).Nodup
  named : ∀ n e, w.sidecars.get? n = some e → e.id = n
  backed : ∀ n e, w.sidecars.get? n = some e →
    w.artifacts.get? n = some e.ciphertextSha256 ∨
      (w.artifacts.get? n = none ∧
        (w.dest.get? n = none ∨ w.dest.get? n = some e.ciphertextSha256))

/-- The artifacts that need no record: some old ones, and those whose removal was committed after
`before`. -/
structure Exempt (η : Type) where
  old : String × η → Prop
  before : List (String × η)

def Exempt.Allows (X : Exempt η) (w : World η) (artifact : String × η) : Prop :=
  X.old artifact ∨ ∃ gone, w.pruned = gone ++ X.before ∧ artifact ∈ gone

/-- Every artifact in the destination is listed, has a sidecar, or is exempt. -/
structure Accounted (X : Exempt η) (w : World η) : Prop where
  grown : ∃ gone, w.pruned = gone ++ X.before
  place : ∀ id sum, w.dest.get? id = some sum →
    w.Listed id ∨ (w.sidecars.get? id).isSome ∨ X.Allows w (id, sum)

/-- An artifact that was reported `Done` is recorded, or its sidecar is in the outbox with the
artifact in the outbox or in the destination, or it was pruned. -/
def Held (w : World η) (id : String) (sum : η) : Prop :=
  (∃ e ∈ w.entries, e.id = id ∧ e.ciphertextSha256 = sum) ∨
    (∃ e, w.sidecars.get? id = some e ∧ e.ciphertextSha256 = sum ∧
      (w.artifacts.get? id = some sum ∨ w.dest.get? id = some sum)) ∨
    (id, sum) ∈ w.pruned

/-- As long as nothing fails: Deltas have their base, also those in the outbox; nothing that
was reported is lost, and no sidecar is without its artifact. -/
structure Strong (w : World η) : Prop where
  based : Based w.entries
  pending : ∀ n e, w.sidecars.get? n = some e → validEntry e = true → e.kind = .delta →
    (w.dest.get? n = none ∨ w.dest.get? n = some e.ciphertextSha256) ∧ HasBase w.entries e
  held : ∀ id sum, (id, sum) ∈ w.done → Held w id sum
  kept : ∀ n e, w.sidecars.get? n = some e → w.artifacts.get? n = some e.ciphertextSha256 ∨
    (validEntry e = true ∧ w.dest.get? n = some e.ciphertextSha256)

/-- What holds of the files in the middle of a run, when `c` says that nothing failed. -/
structure Inv (X : Exempt η) (c : Bool) (w : World η) : Prop where
  core : Core w
  accounted : Accounted X w
  strong : c = true → Strong w

/-- The manifest in memory: it lists what the disk lists, and more only while it is saved. -/
structure Loaded (c : Bool) (w : World η) (m : List (ManifestEntry η)) : Prop where
  memory : w.memory = some m
  listed : ∀ e ∈ m, w.dest.get? e.id = some e.ciphertextSha256
  nodup : (m.map ManifestEntry.id).Nodup
  covers : ∀ e ∈ w.entries, ∃ e' ∈ m, Same e e'
  exact : c = true → ∀ e' ∈ m, ∃ e ∈ w.entries, Same e e'

theorem Same.refl (e : ManifestEntry η) : Same e e := ⟨rfl, rfl, rfl, rfl, rfl, rfl⟩

theorem Same.trans {e e' e'' : ManifestEntry η} (h : Same e e') (h' : Same e' e'') :
    Same e e'' :=
  ⟨h'.id.trans h.id, h'.kind.trans h.kind, h'.sum.trans h.sum, h'.verified.trans h.verified,
    h'.baseId.trans h.baseId, h'.file.trans h.file⟩

theorem Same.valid {e e' : ManifestEntry η} (h : Same e e') : validEntry e' = validEntry e := by
  simp only [validEntry, h.id, h.file]

/-- A base is still there in a list that covers the first. -/
theorem HasBase.covered {entries entries' : List (ManifestEntry η)} {e e' : ManifestEntry η}
    (h : HasBase entries e) (hsame : Same e e')
    (hcovers : ∀ f ∈ entries, ∃ f' ∈ entries', Same f f') : HasBase entries' e' := by
  obtain ⟨f, hf, hkind, hverified, hbase⟩ := h
  obtain ⟨f', hf', hsame'⟩ := hcovers f hf
  refine ⟨f', hf', hsame'.kind.trans hkind, hsame'.verified.trans hverified, ?_⟩
  rw [hsame.baseId, hbase, hsame'.id]

/-- A manifest that lists the same artifacts has the bases of its Deltas. -/
theorem Based.covered {entries entries' : List (ManifestEntry η)} (h : Based entries)
    (hcovers : ∀ e ∈ entries, ∃ e' ∈ entries', Same e e')
    (hexact : ∀ e' ∈ entries', ∃ e ∈ entries, Same e e') : Based entries' := by
  intro e' he'
  obtain ⟨e, he, hsame⟩ := hexact e' he'
  obtain ⟨hvalid, hbased⟩ := h e he
  refine ⟨hsame.valid.trans hvalid, fun hverified hkind => ?_⟩
  have hbase : HasBase entries e :=
    hbased (hsame.verified.symm.trans hverified) (hsame.kind.symm.trans hkind)
  exact hbase.covered hsame hcovers

section Writes

variable {X : Exempt η} {c : Bool} {w : World η} {id : String} {e : ManifestEntry η}

theorem Inv.weaken (h : Inv X c w) : Inv X false w :=
  ⟨h.core, h.accounted, by simp⟩

theorem Loaded.weaken {m : List (ManifestEntry η)} (h : Loaded c w m) : Loaded false w m :=
  ⟨h.memory, h.listed, h.nodup, h.covers, by simp⟩

/-- The other files, and what the run holds in memory, do not matter. -/
theorem Inv.same {w' : World η} (h : Inv X c w) (hdest : w'.dest = w.dest)
    (hmanifest : w'.manifest = w.manifest) (hartifacts : w'.artifacts = w.artifacts)
    (hsidecars : w'.sidecars = w.sidecars) (hpruned : w'.pruned = w.pruned)
    (hdone : w'.done = w.done) : Inv X c w' := by
  cases w
  cases w'
  simp only at hdest hmanifest hartifacts hsidecars hpruned hdone
  subst hdest hmanifest hartifacts hsidecars hpruned hdone
  refine ⟨⟨h.core.listed, h.core.nodup, h.core.named, h.core.backed⟩, ⟨h.accounted.grown, h.accounted.place⟩, fun hc => ?_⟩
  have hs := h.strong hc
  exact ⟨hs.based, hs.pending, hs.held, hs.kept⟩

/-- Artifacts of the outbox without a sidecar do not matter. -/
theorem Inv.setArtifacts (h : Inv X c w) (artifacts : Table String η)
    (hkeep : ∀ n e, w.sidecars.get? n = some e → artifacts.get? n = w.artifacts.get? n) :
    Inv X c { w with artifacts := artifacts } := by
  refine ⟨⟨h.core.listed, h.core.nodup, h.core.named, ?_⟩, ⟨h.accounted.grown, h.accounted.place⟩, fun hc => ?_⟩
  · intro n e hn
    simp only [hkeep n e hn]
    exact h.core.backed n e hn
  · have hs := h.strong hc
    refine ⟨hs.based, hs.pending, ?_, ?_⟩
    · intro n sum hdone
      rcases hs.held n sum hdone with hlisted | ⟨e, hn, hsum, hplace⟩ | hpruned
      · exact Or.inl hlisted
      · refine Or.inr (Or.inl ⟨e, hn, hsum, ?_⟩)
        simp only [hkeep n e hn]
        exact hplace
      · exact Or.inr (Or.inr hpruned)
    · intro n e hn
      simp only [hkeep n e hn]
      exact hs.kept n e hn

theorem ne_of_sidecar (hsidecar : w.sidecars.get? id = none) {n : String}
    (hn : w.sidecars.get? n = some e) : n ≠ id := by
  rintro rfl
  simp [hsidecar] at hn

/-- An artifact without a sidecar leaves the outbox. -/
theorem Inv.removeArtifact (h : Inv X c w) (hsidecar : w.sidecars.get? id = none) :
    Inv X c { w with artifacts := w.artifacts.erase id } :=
  h.setArtifacts _ fun n e hn => by
    rw [Table.get?_erase, if_neg (ne_of_sidecar hsidecar hn)]

/-- A new artifact in the outbox, under a name without a sidecar. -/
theorem Inv.addArtifact (h : Inv X c w) (sum : η) (hsidecar : w.sidecars.get? id = none) :
    Inv X c { w with artifacts := w.artifacts.put id sum } :=
  h.setArtifacts _ fun n e hn => by
    rw [Table.get?_put, if_neg (ne_of_sidecar hsidecar hn)]

theorem Core.not_listed (h : Core w) (hdest : w.dest.get? id = none) : ¬ w.Listed id := by
  rintro ⟨e, he, rfl⟩
  have hfound := h.listed e he
  simp [hdest] at hfound

/-- The staged copy of an artifact with a sidecar is renamed into place. -/
theorem Inv.place (h : Inv X c w) (hsidecar : w.sidecars.get? id = some e)
    (hdest : w.dest.get? id = none) :
    Inv X c { w with dest := w.dest.put id e.ciphertextSha256 } := by
  have hlisted : ∀ f ∈ w.entries, f.id ≠ id := by
    rintro f hf rfl
    exact h.core.not_listed hdest ⟨f, hf, rfl⟩
  refine ⟨⟨?_, h.core.nodup, h.core.named, ?_⟩, ?_, fun hc => ?_⟩
  · intro f hf
    simp only [Table.get?_put, if_neg (hlisted f hf)]
    exact h.core.listed f hf
  · intro n e' hn
    by_cases hid : n = id
    · subst hid
      obtain rfl : e = e' := Option.some.inj (hsidecar.symm.trans hn)
      rcases h.core.backed n e hn with hplace | ⟨hgone, _⟩
      · exact Or.inl hplace
      · exact Or.inr ⟨hgone, Or.inr (by simp)⟩
    · simp only [Table.get?_put, if_neg hid]
      exact h.core.backed n e' hn
  · refine ⟨h.accounted.grown, ?_⟩
    intro n sum hn
    by_cases hid : n = id
    · subst hid
      exact Or.inr (Or.inl (by simp [hsidecar]))
    · simp only [Table.get?_put, if_neg hid] at hn
      exact h.accounted.place n sum hn
  · have hs := h.strong hc
    refine ⟨hs.based, ?_, ?_, ?_⟩
    · intro n e' hn hvalid hkind
      obtain ⟨hplace, hbase⟩ := hs.pending n e' hn hvalid hkind
      refine ⟨?_, hbase⟩
      by_cases hid : n = id
      · subst hid
        obtain rfl : e = e' := Option.some.inj (hsidecar.symm.trans hn)
        exact Or.inr (by simp)
      · simp only [Table.get?_put, if_neg hid]
        exact hplace
    · intro n sum hdone
      rcases hs.held n sum hdone with hlisted | ⟨e', hn, hsum, hplace⟩ | hpruned
      · exact Or.inl hlisted
      · refine Or.inr (Or.inl ⟨e', hn, hsum, ?_⟩)
        by_cases hid : n = id
        · subst hid
          obtain rfl : e = e' := Option.some.inj (hsidecar.symm.trans hn)
          exact Or.inr (by simp [hsum])
        · simp only [Table.get?_put, if_neg hid]
          exact hplace
      · exact Or.inr (Or.inr hpruned)
    · intro n e' hn
      rcases hs.kept n e' hn with hartifact | ⟨hvalid, hplace⟩
      · exact Or.inl hartifact
      · right
        have hne : n ≠ id := by
          rintro rfl
          simp [hdest] at hplace
        simp only [Table.get?_put, if_neg hne]
        exact ⟨hvalid, hplace⟩

/-- An artifact stays held when a file of the destination goes that no sidecar needs. -/
theorem Held.removeDest {n : String} {sum : η} (h : Held w n sum)
    (hkept : ∀ e, w.sidecars.get? id = some e →
      w.artifacts.get? id = some e.ciphertextSha256) :
    Held { w with dest := w.dest.erase id } n sum := by
  rcases h with hlisted | ⟨e, hn, hsum, hplace⟩ | hpruned
  · exact Or.inl hlisted
  · refine Or.inr (Or.inl ⟨e, hn, hsum, ?_⟩)
    by_cases hid : n = id
    · subst hid
      exact Or.inl (by rw [hkept e hn, hsum])
    · simp only [Table.get?_erase, if_neg hid]
      exact hplace
  · exact Or.inr (Or.inr hpruned)

/-- A file of the destination goes that is not listed, and that no sidecar needs. -/
theorem Inv.removeDest (h : Inv X c w) (hlisted : ¬ w.Listed id)
    (hkept : ∀ e, w.sidecars.get? id = some e →
      w.artifacts.get? id = some e.ciphertextSha256 ∨ (w.artifacts.get? id = none ∧ c = false)) :
    Inv X c { w with dest := w.dest.erase id } := by
  refine ⟨⟨?_, h.core.nodup, h.core.named, ?_⟩, ?_, fun hc => ?_⟩
  · intro f hf
    have hne : f.id ≠ id := by
      rintro rfl
      exact hlisted ⟨f, hf, rfl⟩
    simp only [Table.get?_erase, if_neg hne]
    exact h.core.listed f hf
  · intro n e hn
    by_cases hid : n = id
    · subst hid
      rcases hkept e hn with hplace | ⟨hgone, _⟩
      · exact Or.inl hplace
      · exact Or.inr ⟨hgone, Or.inl (by simp)⟩
    · simp only [Table.get?_erase, if_neg hid]
      exact h.core.backed n e hn
  · refine ⟨h.accounted.grown, ?_⟩
    intro n sum hn
    by_cases hid : n = id
    · simp [hid] at hn
    · simp only [Table.get?_erase, if_neg hid] at hn
      exact h.accounted.place n sum hn
  · have hs := h.strong hc
    have hartifact : ∀ e, w.sidecars.get? id = some e →
        w.artifacts.get? id = some e.ciphertextSha256 := by
      intro e hn
      rcases hkept e hn with hplace | ⟨_, hfalse⟩
      · exact hplace
      · simp [hc] at hfalse
    refine ⟨hs.based, ?_, ?_, ?_⟩
    · intro n e hn hvalid hkind
      obtain ⟨hplace, hbase⟩ := hs.pending n e hn hvalid hkind
      refine ⟨?_, hbase⟩
      by_cases hid : n = id
      · exact Or.inl (by simp [hid])
      · simp only [Table.get?_erase, if_neg hid]
        exact hplace
    · exact fun n sum hdone => (hs.held n sum hdone).removeDest hartifact
    · intro n e hn
      by_cases hid : n = id
      · subst hid
        exact Or.inl (hartifact e hn)
      · simp only [Table.get?_erase, if_neg hid]
        exact hs.kept n e hn

/-- The outbox file goes when its copy is in the destination. -/
theorem Inv.removeOutbox (h : Inv X c w) (hsidecar : w.sidecars.get? id = some e)
    (hvalid : validEntry e = true) (hdest : w.dest.get? id = some e.ciphertextSha256) :
    Inv X c { w with artifacts := w.artifacts.erase id } := by
  refine ⟨⟨h.core.listed, h.core.nodup, h.core.named, ?_⟩, ⟨h.accounted.grown, h.accounted.place⟩, fun hc => ?_⟩
  · intro n e' hn
    by_cases hid : n = id
    · subst hid
      obtain rfl : e = e' := Option.some.inj (hsidecar.symm.trans hn)
      exact Or.inr ⟨by simp, Or.inr hdest⟩
    · simp only [Table.get?_erase, if_neg hid]
      exact h.core.backed n e' hn
  · have hs := h.strong hc
    refine ⟨hs.based, hs.pending, ?_, ?_⟩
    · intro n sum hdone
      rcases hs.held n sum hdone with hlisted | ⟨e', hn, hsum, hplace⟩ | hpruned
      · exact Or.inl hlisted
      · refine Or.inr (Or.inl ⟨e', hn, hsum, ?_⟩)
        by_cases hid : n = id
        · subst hid
          obtain rfl : e = e' := Option.some.inj (hsidecar.symm.trans hn)
          exact Or.inr (by rw [← hsum]; exact hdest)
        · simp only [Table.get?_erase, if_neg hid]
          exact hplace
      · exact Or.inr (Or.inr hpruned)
    · intro n e' hn
      by_cases hid : n = id
      · subst hid
        obtain rfl : e = e' := Option.some.inj (hsidecar.symm.trans hn)
        exact Or.inr ⟨hvalid, hdest⟩
      · simp only [Table.get?_erase, if_neg hid]
        exact hs.kept n e' hn

/-- The manifest in memory replaces the one on the disk. -/
theorem Inv.save {m : List (ManifestEntry η)} (h : Inv X c w)
    (hlisted : ∀ e ∈ m, w.dest.get? e.id = some e.ciphertextSha256)
    (hnodup : (m.map ManifestEntry.id).Nodup) (hcovers : ∀ e ∈ w.entries, ∃ e' ∈ m, Same e e')
    (hbased : c = true → Based m) : Inv X c { w with manifest := some m } := by
  refine ⟨⟨hlisted, hnodup, h.core.named, h.core.backed⟩, ?_, fun hc => ?_⟩
  · refine ⟨h.accounted.grown, ?_⟩
    intro n sum hn
    rcases h.accounted.place n sum hn with ⟨e, he, hid⟩ | hrest
    · obtain ⟨e', he', hsame⟩ := hcovers e he
      exact Or.inl ⟨e', he', hsame.id.trans hid⟩
    · exact Or.inr hrest
  · have hs := h.strong hc
    refine ⟨hbased hc, ?_, ?_, hs.kept⟩
    · intro n e hn hvalid hkind
      obtain ⟨hplace, hbase⟩ := hs.pending n e hn hvalid hkind
      exact ⟨hplace, hbase.covered (Same.refl e) hcovers⟩
    · intro n sum hdone
      rcases hs.held n sum hdone with ⟨e, he, hid, hsum⟩ | hrest
      · obtain ⟨e', he', hsame⟩ := hcovers e he
        exact Or.inl ⟨e', he', hsame.id.trans hid, hsame.sum.trans hsum⟩
      · exact Or.inr hrest

/-- A sidecar goes: its artifact is listed, or it is not in the destination. -/
theorem Inv.removeSidecar (h : Inv X c w)
    (hdest : w.Listed id ∨ w.dest.get? id = none)
    (hheld : c = true → ∀ sum, (id, sum) ∈ w.done →
      (∃ e ∈ w.entries, e.id = id ∧ e.ciphertextSha256 = sum) ∨ (id, sum) ∈ w.pruned) :
    Inv X c { w with sidecars := w.sidecars.erase id } := by
  have hfound : ∀ n e, (w.sidecars.erase id).get? n = some e →
      n ≠ id ∧ w.sidecars.get? n = some e := by
    intro n e hn
    by_cases hid : n = id
    · simp [hid] at hn
    · rw [Table.get?_erase, if_neg hid] at hn
      exact ⟨hid, hn⟩
  refine ⟨⟨h.core.listed, h.core.nodup, ?_, ?_⟩, ?_, fun hc => ?_⟩
  · exact fun n e hn => h.core.named n e (hfound n e hn).2
  · exact fun n e hn => h.core.backed n e (hfound n e hn).2
  · refine ⟨h.accounted.grown, ?_⟩
    intro n sum hn
    by_cases hid : n = id
    · subst hid
      rcases hdest with hlisted | hgone
      · exact Or.inl hlisted
      · simp [hgone] at hn
    · simp only [Table.get?_erase, if_neg hid]
      exact h.accounted.place n sum hn
  · have hs := h.strong hc
    refine ⟨hs.based, ?_, ?_, ?_⟩
    · exact fun n e hn => hs.pending n e (hfound n e hn).2
    · intro n sum hdone
      by_cases hid : n = id
      · subst hid
        rcases hheld hc sum hdone with hlisted | hpruned
        · exact Or.inl hlisted
        · exact Or.inr (Or.inr hpruned)
      · rcases hs.held n sum hdone with hlisted | ⟨e, hn, hrest⟩ | hpruned
        · exact Or.inl hlisted
        · refine Or.inr (Or.inl ⟨e, ?_, hrest⟩)
          simp only [Table.get?_erase, if_neg hid]
          exact hn
        · exact Or.inr (Or.inr hpruned)
    · exact fun n e hn => hs.kept n e (hfound n e hn).2

/-- A sidecar is written for an artifact in the outbox. -/
theorem Inv.addSidecar (h : Inv X c w) (hartifact : w.artifacts.get? e.id = some e.ciphertextSha256)
    (hsidecar : w.sidecars.get? e.id = none)
    (hdelta : c = true → e.kind = .delta → w.dest.get? e.id = none ∧ HasBase w.entries e) :
    Inv X c { w with sidecars := w.sidecars.put e.id e } := by
  have hfound : ∀ n e', (w.sidecars.put e.id e).get? n = some e' →
      (n = e.id ∧ e' = e) ∨ (n ≠ e.id ∧ w.sidecars.get? n = some e') := by
    intro n e' hn
    by_cases hid : n = e.id
    · rw [Table.get?_put, if_pos hid] at hn
      exact Or.inl ⟨hid, (Option.some.inj hn).symm⟩
    · rw [Table.get?_put, if_neg hid] at hn
      exact Or.inr ⟨hid, hn⟩
  refine ⟨⟨h.core.listed, h.core.nodup, ?_, ?_⟩, ?_, fun hc => ?_⟩
  · intro n e' hn
    rcases hfound n e' hn with ⟨rfl, rfl⟩ | ⟨_, hold⟩
    · rfl
    · exact h.core.named n e' hold
  · intro n e' hn
    rcases hfound n e' hn with ⟨rfl, rfl⟩ | ⟨_, hold⟩
    · exact Or.inl hartifact
    · exact h.core.backed n e' hold
  · refine ⟨h.accounted.grown, ?_⟩
    intro n sum hn
    rcases h.accounted.place n sum hn with hlisted | hold | hexempt
    · exact Or.inl hlisted
    · refine Or.inr (Or.inl ?_)
      by_cases hid : n = e.id
      · simp [hid]
      · simpa [hid] using hold
    · exact Or.inr (Or.inr hexempt)
  · have hs := h.strong hc
    refine ⟨hs.based, ?_, ?_, ?_⟩
    · intro n e' hn hvalid hkind
      rcases hfound n e' hn with ⟨rfl, rfl⟩ | ⟨_, hold⟩
      · exact ⟨Or.inl (hdelta hc hkind).1, (hdelta hc hkind).2⟩
      · exact hs.pending n e' hold hvalid hkind
    · intro n sum hdone
      rcases hs.held n sum hdone with hlisted | ⟨e', hn, hrest⟩ | hpruned
      · exact Or.inl hlisted
      · refine Or.inr (Or.inl ⟨e', ?_, hrest⟩)
        have hne : n ≠ e.id := ne_of_sidecar hsidecar hn
        simp only [Table.get?_put, if_neg hne]
        exact hn
      · exact Or.inr (Or.inr hpruned)
    · intro n e' hn
      rcases hfound n e' hn with ⟨rfl, rfl⟩ | ⟨_, hold⟩
      · exact Or.inl hartifact
      · exact hs.kept n e' hold

/-- What a prune takes from the manifest in memory, with the SHA-256. -/
def goneWith (p : ManifestEntry η → Bool) (m : List (ManifestEntry η)) : List (String × η) :=
  (m.filter p).map fun e => (e.id, e.ciphertextSha256)

/-- The files once the manifest is saved without what a prune takes from it. -/
def World.savePruned (w : World η) (p : ManifestEntry η → Bool) (m : List (ManifestEntry η)) :
    World η :=
  { w with
    manifest := some (m.filter fun e => !p e)
    pruned := goneWith p m ++ w.pruned }

/-- What was listed is still listed, or it goes. -/
theorem Loaded.split {m : List (ManifestEntry η)} (h : Loaded c w m) (p : ManifestEntry η → Bool)
    (he : e ∈ w.entries) : (∃ e' ∈ m.filter fun e => !p e, Same e e') ∨
      (e.id, e.ciphertextSha256) ∈ goneWith p m := by
  obtain ⟨e', he', hsame⟩ := h.covers e he
  by_cases hp : p e' = true
  · right
    rw [← hsame.id, ← hsame.sum]
    exact List.mem_map.mpr ⟨e', List.mem_filter.mpr ⟨he', hp⟩, rfl⟩
  · left
    exact ⟨e', List.mem_filter.mpr ⟨he', by simpa using hp⟩, hsame⟩

theorem Held.savePruned {m : List (ManifestEntry η)} {n : String} {sum : η} (h : Held w n sum)
    (hm : Loaded c w m) (p : ManifestEntry η → Bool) : Held (w.savePruned p m) n sum := by
  rcases h with ⟨e, he, hid, hsum⟩ | hsidecar | hpruned
  · rcases hm.split p he with ⟨e', he', hsame⟩ | hgone
    · exact Or.inl ⟨e', he', hsame.id.trans hid, hsame.sum.trans hsum⟩
    · rw [hid, hsum] at hgone
      exact Or.inr (Or.inr (List.mem_append_left _ hgone))
  · exact Or.inr (Or.inl hsidecar)
  · exact Or.inr (Or.inr (List.mem_append_right _ hpruned))

/-- The manifest without what a prune removes replaces the one on the disk. -/
theorem Inv.savePruned {m : List (ManifestEntry η)} (p : ManifestEntry η → Bool)
    (h : Inv X c w) (hm : Loaded c w m)
    (hbased : c = true → Based (m.filter fun e => !p e))
    (hcleared : c = true → ∀ n e, w.sidecars.get? n = some e → validEntry e = true →
      e.kind ≠ .delta) :
    Inv X c (w.savePruned p m) := by
  refine ⟨⟨?_, ?_, h.core.named, h.core.backed⟩, ?_, fun hc => ?_⟩
  · exact fun e he => hm.listed e (List.mem_of_mem_filter he)
  · exact hm.nodup.sublist (List.filter_sublist.map _)
  · obtain ⟨earlier, hgrown⟩ := h.accounted.grown
    have hpruned : goneWith p m ++ w.pruned = (goneWith p m ++ earlier) ++ X.before := by
      rw [hgrown, List.append_assoc]
    refine ⟨⟨_, hpruned⟩, ?_⟩
    intro n sum hn
    rcases h.accounted.place n sum hn with ⟨e, he, hid⟩ | hsidecar | hexempt
    · have hsum : e.ciphertextSha256 = sum := by
        have hfound := h.core.listed e he
        rw [hid] at hfound
        exact Option.some.inj (hfound.symm.trans hn)
      rcases hm.split p he with ⟨e', he', hsame⟩ | hgone
      · exact Or.inl ⟨e', he', hsame.id.trans hid⟩
      · rw [hid, hsum] at hgone
        exact Or.inr (Or.inr (Or.inr ⟨_, hpruned, List.mem_append_left _ hgone⟩))
    · exact Or.inr (Or.inl hsidecar)
    · refine Or.inr (Or.inr ?_)
      rcases hexempt with hold | ⟨earlier', hgrown', hmem⟩
      · exact Or.inl hold
      · have hsame : earlier' = earlier :=
          List.append_cancel_right (hgrown'.symm.trans hgrown)
        rw [hsame] at hmem
        exact Or.inr ⟨_, hpruned, List.mem_append_right _ hmem⟩
  · have hs := h.strong hc
    refine ⟨hbased hc, ?_, ?_, hs.kept⟩
    · exact fun n e hn hvalid hkind => absurd hkind (hcleared hc n e hn hvalid)
    · exact fun n sum hdone => (hs.held n sum hdone).savePruned hm p

end Writes

end Hippo.Backup
