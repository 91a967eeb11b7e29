import Hippo.EventIngest

/-!
# Fallback files

A fallback file holds one JSON envelope a line. A write that is cut short leaves part of
a line, and may leave part of a character, so the content below is a list of characters
with marks for such parts; a file with a mark is not UTF-8.
-/
namespace Hippo

/-- One character of a file, or what a torn write left of one. -/
inductive Sym where
  | char (c : Char)
  | broken
deriving DecidableEq

abbrev Content := List Sym

namespace Content

/-- `read_to_string`; `none` when the content is not UTF-8. -/
def readToString : Content → Option (List Char)
  | [] => some []
  | .broken :: _ => none
  | .char c :: cs => (readToString cs).map (c :: ·)

theorem readToString_eq_some {cs : Content} {text : List Char} :
    cs.readToString = some text ↔ cs = text.map .char := by
  induction cs generalizing text with
  | nil =>
    rw [readToString, Option.some.injEq]
    cases text <;> simp
  | cons s cs ih =>
    cases s with
    | broken => cases text <;> simp [readToString]
    | char c =>
      rw [readToString]
      cases text with
      | nil => simp
      | cons d text => simp [ih, and_comm]

/-- What follows begins a line. -/
def StartsLine (cs : Content) : Prop :=
  cs = [] ∨ cs.getLast? = some (.char '\n')

instance (cs : Content) : Decidable cs.StartsLine := by
  unfold StartsLine
  infer_instance

end Content

section Lines

/-- The end of a line that ends in `\r\n`. -/
def stripCr (l : List Char) : List Char :=
  if l.getLast? = some '\r' then l.dropLast else l

/-- `str::lines` after the characters `cur` of the current line. A last line without `\n`
counts if it is not empty, and keeps a `\r`. -/
def linesAfter (cur : List Char) : List Char → List (List Char)
  | [] => if cur = [] then [] else [cur]
  | c :: cs => if c = '\n' then stripCr cur :: linesAfter [] cs else linesAfter (cur ++ [c]) cs

/-- `str::lines`. -/
def lines (text : List Char) : List (List Char) := linesAfter [] text

/-- `char::is_whitespace`. -/
def isWhitespace (c : Char) : Bool :=
  let n := c.toNat
  (9 ≤ n ∧ n ≤ 13) ∨ n = 32 ∨ n = 0x85 ∨ n = 0xA0 ∨ n = 0x1680 ∨
    (0x2000 ≤ n ∧ n ≤ 0x200A) ∨ n = 0x2028 ∨ n = 0x2029 ∨ n = 0x202F ∨ n = 0x205F ∨ n = 0x3000

/-- `line.trim().is_empty()`. -/
def isBlank (l : List Char) : Bool := l.all isWhitespace

theorem linesAfter_line {l : List Char} (h : '\n' ∉ l) (cur rest : List Char) :
    linesAfter cur (l ++ '\n' :: rest) = stripCr (cur ++ l) :: linesAfter [] rest := by
  induction l generalizing cur with
  | nil => rw [List.nil_append, linesAfter, if_pos rfl, List.append_nil]
  | cons c l ih =>
    have hc : c ≠ '\n' := fun heq => h (heq ▸ List.mem_cons_self)
    have hl : '\n' ∉ l := fun hmem => h (List.mem_cons_of_mem c hmem)
    rw [List.cons_append, linesAfter, if_neg hc, ih hl, List.append_assoc]
    rfl

/-- The lines after a line break do not depend on what stands before it. -/
theorem linesAfter_break (pre rest cur : List Char) :
    ∃ before, linesAfter cur (pre ++ '\n' :: rest) = before ++ linesAfter [] rest := by
  induction pre generalizing cur with
  | nil => exact ⟨[stripCr cur], by rw [List.nil_append, linesAfter, if_pos rfl]; rfl⟩
  | cons c pre ih =>
    rw [List.cons_append, linesAfter]
    split
    · obtain ⟨before, h⟩ := ih []
      exact ⟨stripCr cur :: before, by rw [h]; rfl⟩
    · exact ih (cur ++ [c])

/-- A line between two line breaks is one of the lines. -/
theorem mem_lines {pre l rest : List Char} (hpre : pre = [] ∨ pre.getLast? = some '\n')
    (hl : '\n' ∉ l) (hcr : l.getLast? ≠ some '\r') : l ∈ lines (pre ++ l ++ '\n' :: rest) := by
  have hstrip : stripCr l = l := if_neg hcr
  rcases hpre with rfl | hlast
  · rw [lines, List.nil_append, linesAfter_line hl, List.nil_append, hstrip]
    exact List.mem_cons_self
  · obtain ⟨front, rfl⟩ := List.getLast?_eq_some_iff.mp hlast
    obtain ⟨before, h⟩ := linesAfter_break front (l ++ '\n' :: rest) []
    have hsplit : front ++ ['\n'] ++ l ++ '\n' :: rest =
        front ++ '\n' :: (l ++ '\n' :: rest) := by simp
    rw [lines, hsplit, h, linesAfter_line hl, List.nil_append, hstrip]
    exact List.mem_append_right _ List.mem_cons_self

end Lines

/-- `serde_json` on envelopes. -/
structure JsonCodec where
  encode : EventEnvelope → List Char
  decode : List Char → Option EventEnvelope

namespace JsonCodec

/-- The JSON text of an envelope is an object on one line, and reads back. -/
structure RoundTrips (codec : JsonCodec) (e : EventEnvelope) : Prop where
  decode_encode : codec.decode (codec.encode e) = some e
  newline : '\n' ∉ codec.encode e
  object : ∃ body, codec.encode e = '{' :: body ++ ['}']

/-- `writeln!(file, "{}", json)`. -/
def lineOf (codec : JsonCodec) (e : EventEnvelope) : Content :=
  (codec.encode e ++ ['\n']).map .char

/-- The envelope's line was written completely, on a line of its own. -/
def HasLine (codec : JsonCodec) (cs : Content) (e : EventEnvelope) : Prop :=
  ∃ pre post, cs = pre ++ codec.lineOf e ++ post ∧ pre.StartsLine

variable {codec : JsonCodec} {e : EventEnvelope} {cs : Content}

theorem HasLine.append (h : codec.HasLine cs e) (new : Content) : codec.HasLine (cs ++ new) e := by
  obtain ⟨pre, post, rfl, hpre⟩ := h
  exact ⟨pre, post ++ new, by simp only [List.append_assoc], hpre⟩

theorem hasLine_lineOf (h : cs.StartsLine) : codec.HasLine (cs ++ codec.lineOf e) e :=
  ⟨cs, [], (List.append_nil _).symm, h⟩

theorem RoundTrips.not_blank (h : codec.RoundTrips e) : isBlank (codec.encode e) = false := by
  obtain ⟨body, hbody⟩ := h.object
  have hbrace : isWhitespace '{' = false := by decide
  rw [hbody]
  simp [isBlank, hbrace]

/-- A recovery that can read the file sees the envelope's line. -/
theorem HasLine.mem_lines (h : codec.HasLine cs e) (he : codec.RoundTrips e) {text : List Char}
    (htext : cs.readToString = some text) : codec.encode e ∈ lines text := by
  obtain ⟨pre, post, hcs, hpre⟩ := h
  rw [Content.readToString_eq_some] at htext
  have hsplit : text.map Sym.char = pre ++ codec.lineOf e ++ post := by rw [← htext, hcs]
  obtain ⟨front, back, rfl, hfront, hback⟩ := List.map_eq_append_iff.mp hsplit
  obtain ⟨start, line, rfl, hstart, hline⟩ := List.map_eq_append_iff.mp hfront
  have hinj : Function.Injective Sym.char := fun _ _ => Sym.char.inj
  rw [lineOf, (List.map_injective_iff.mpr hinj).eq_iff] at hline
  subst hline
  have hbreak : start = [] ∨ start.getLast? = some '\n' := by
    rcases hpre with hnil | hlast
    · rw [← hstart] at hnil
      exact Or.inl (List.map_eq_nil_iff.mp hnil)
    · rw [← hstart, List.getLast?_map, Option.map_eq_some_iff] at hlast
      obtain ⟨c, hc, hnl⟩ := hlast
      cases hnl
      exact Or.inr hc
  have hcr : (codec.encode e).getLast? ≠ some '\r' := by
    obtain ⟨body, hbody⟩ := he.object
    rw [hbody, List.getLast?_append, List.getLast?_singleton, Option.some_or]
    decide
  have hmem : codec.encode e ∈ Hippo.lines (start ++ codec.encode e ++ '\n' :: back) :=
    Hippo.mem_lines hbreak he.newline hcr
  simpa only [List.append_assoc, List.singleton_append] using hmem

end JsonCodec

/-- The extension of a fallback file. -/
inductive FileExt where
  | jsonl
  /-- Claimed by a recovery. -/
  | recovering
  /-- `.done`: every line was recovered. -/
  | done
  /-- `.partial`: some line was not, and the file is kept for inspection. -/
  | partials
deriving DecidableEq

/-- `<date>.jsonl`, or `<date>.<uuid>.jsonl.<ext>` from its first recovery on. -/
structure FileName where
  date : String
  uuid : Option ℕ := none
  ext : FileExt := .jsonl
deriving DecidableEq

/-- The path, for the order in which a recovery takes the files. -/
def FileName.render (name : FileName) : String :=
  let stem := name.date ++ (name.uuid.elim "" fun u => "." ++ toString u) ++ ".jsonl"
  match name.ext with
  | .jsonl => stem
  | .recovering => stem ++ ".recovering"
  | .done => stem ++ ".done"
  | .partials => stem ++ ".partial"

structure FallbackFile where
  name : FileName
  content : Content

/-- The files of the fallback directory, keyed by inode. -/
abbrev FallbackDir := Table ℕ FallbackFile

namespace FallbackDir

/-- The file that today's envelopes are appended to. -/
def today? (dir : FallbackDir) (date : String) : Option (ℕ × FallbackFile) :=
  dir.entries.find? fun f => f.2.name = ⟨date, none, .jsonl⟩

def todayContent (dir : FallbackDir) (date : String) : Content :=
  ((dir.today? date).map fun f => f.2.content).getD []

/-- Appends to today's file, which is created if it is not there. -/
def append (dir : FallbackDir) (date : String) (new : Content) : FallbackDir :=
  match dir.today? date with
  | some f => dir.modify f.1 fun file => { file with content := file.content ++ new }
  | none => dir.insert dir.nextRowid ⟨⟨date, none, .jsonl⟩, new⟩

/-- `write_fallback_jsonl`. -/
def writeFallbackJsonl (codec : JsonCodec) (dir : FallbackDir) (date : String)
    (e : EventEnvelope) : FallbackDir :=
  dir.append date (codec.lineOf e)

/-- What is left of a write that stopped after `n` characters, in the middle of the next one
if `mid`. -/
def tornLine (codec : JsonCodec) (e : EventEnvelope) (n : ℕ) (mid : Bool) : Content :=
  ((codec.encode e).take n).map .char ++ if mid then [.broken] else []

/-- `list_fallback_files`: the files a recovery takes, in the order of their paths. -/
def listFallbackFiles (dir : FallbackDir) : List ℕ :=
  ((dir.select fun _ f => f.name.ext = .jsonl ∨ f.name.ext = .recovering).insertionSort
    fun f g => f.2.name.render ≤ g.2.name.render).map Prod.fst

/-- `rename`, which replaces a file that has the new name. -/
def rename (dir : FallbackDir) (i : ℕ) (name : FileName) : FallbackDir :=
  (dir.delete fun j f => j ≠ i ∧ f.name = name).modify i fun f => { f with name := name }

variable {dir : FallbackDir} {i j : ℕ} {f : FallbackFile}

theorem today?_eq_some {date : String} {file : ℕ × FallbackFile}
    (h : dir.today? date = some file) :
    dir.get? file.1 = some file.2 ∧ file.2.name = ⟨date, none, .jsonl⟩ := by
  have hname := List.find?_some h
  rw [decide_eq_true_eq] at hname
  exact ⟨Table.get?_eq_some.mpr (List.mem_of_find?_eq_some h), hname⟩

/-- An append extends today's file, and changes no other file. -/
theorem get?_append_cases (dir : FallbackDir) (date : String) (new : Content) :
    (∃ i f, dir.get? i = some f ∧ f.name = ⟨date, none, .jsonl⟩ ∧
        f.content = dir.todayContent date ∧ ∀ j, (dir.append date new).get? j =
          if j = i then some { f with content := f.content ++ new } else dir.get? j) ∨
      (dir.todayContent date = [] ∧ ∀ j, (dir.append date new).get? j =
        if j = dir.nextRowid then some ⟨⟨date, none, .jsonl⟩, new⟩ else dir.get? j) := by
  cases h : dir.today? date with
  | none =>
    refine Or.inr ⟨by rw [todayContent, h]; rfl, fun j => ?_⟩
    rw [append, h]
    exact Table.get?_insert_nextRowid _ _ _
  | some file =>
    obtain ⟨hget, hname⟩ := today?_eq_some h
    refine Or.inl ⟨file.1, file.2, hget, hname, by rw [todayContent, h]; rfl, fun j => ?_⟩
    rw [append, h]
    dsimp only
    rw [Table.get?_modify]
    split
    · rename_i hj
      rw [hj, hget, Option.map_some]
    · rfl

theorem mem_listFallbackFiles : i ∈ dir.listFallbackFiles ↔
    ∃ f, dir.get? i = some f ∧ (f.name.ext = .jsonl ∨ f.name.ext = .recovering) := by
  simp only [listFallbackFiles, List.mem_map, List.mem_insertionSort]
  constructor
  · rintro ⟨⟨k, f⟩, hf, rfl⟩
    exact ⟨f, Table.mem_select.mp hf⟩
  · rintro ⟨f, hf⟩
    exact ⟨(i, f), Table.mem_select.mpr hf, rfl⟩

/-- When no other file has the new name, a rename changes one name and nothing else. -/
theorem get?_rename (dir : FallbackDir) (i : ℕ) (name : FileName)
    (hfree : ∀ j f, dir.get? j = some f → f.name = name → j = i) (j : ℕ) :
    (dir.rename i name).get? j =
      if j = i then (dir.get? j).map (fun f => { f with name := name }) else dir.get? j := by
  have hkept : ∀ j, (dir.delete fun j f => j ≠ i ∧ f.name = name).get? j = dir.get? j := by
    intro j
    cases h : dir.get? j with
    | some f =>
      refine Table.get?_delete_eq_some.mpr ⟨h, fun hdel => ?_⟩
      exact hdel.1 (hfree j f h hdel.2)
    | none =>
      cases h' : (dir.delete fun j f => j ≠ i ∧ f.name = name).get? j with
      | none => rfl
      | some f =>
        rw [(Table.get?_delete_eq_some.mp h').1] at h
        cases h
  rw [rename, Table.get?_modify, hkept]

end FallbackDir

end Hippo
