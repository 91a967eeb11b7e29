import Hippo.SelfDelimiting
import Hippo.SkipSoundness
import Mathlib.Tactic.IntervalCases

/-!
# What the content hash of a segment is computed from

`compute_segment_content_hash` feeds the JSON of the tool calls, the JSON of the user prompts and
the joined assistant text to the digest, with a bar between them. The JSON arrays show where they
end, so the bars need not be told apart from those in the texts.
-/
namespace Hippo.ContentHash

section Json

def hexDigit (n : ℕ) : Char := "0123456789abcdef".toList.getD n '0'

/-- The escape of a control character. -/
def escapeControl (n : ℕ) : List Char :=
  match n with
  | 0x08 => ['\\', 'b']
  | 0x09 => ['\\', 't']
  | 0x0A => ['\\', 'n']
  | 0x0C => ['\\', 'f']
  | 0x0D => ['\\', 'r']
  | n => ['\\', 'u', '0', '0', hexDigit (n / 16), hexDigit (n % 16)]

/-- A character in the JSON of a string. -/
def escapeChar (c : Char) : List Char :=
  if c = '"' then ['\\', '"']
  else if c = '\\' then ['\\', '\\']
  else if c.toNat < 0x20 then escapeControl c.toNat
  else [c]

def stringJson (s : String) : List Char := ['"'] ++ (s.toList.flatMap escapeChar ++ ['"'])

/-- The fields of `ToolCallSummary` in the order of their declaration. -/
def toolCallJson (t : ToolCall) : List Char :=
  "\x7b\"name\":".toList ++ (stringJson t.name ++
    (",\"summary\":".toList ++ stringJson t.summary ++ "\x7d".toList))

/-- `serde_json::to_string` of a vector. -/
def arrayJson {α : Type*} (item : α → List Char) (items : List α) : List Char :=
  ['['] ++ SelfDelimiting.separated item ',' ']' items

end Json

section Preimage

def utf8 (text : List Char) : ByteArray := (String.ofList text).toByteArray

/-- The bytes of the updates of the digest, one update after the other. -/
def preimageOf (toolCalls : List ToolCall) (userPrompts : List String) (assistantText : String) :
    ByteArray :=
  [utf8 (arrayJson toolCallJson toolCalls), utf8 ['|'], utf8 (arrayJson stringJson userPrompts),
    utf8 ['|'], assistantText.toByteArray].foldl (fun fed update => fed ++ update) ByteArray.empty

/-- What `compute_segment_content_hash` feeds to the digest. -/
def preimage (seg : SessionSegment) : ByteArray :=
  preimageOf seg.toolCalls seg.userPrompts ("\n".intercalate seg.assistantTexts)

end Preimage

section Delimiters

def hexValue (c : Char) : ℕ := if c.toNat < 0x3A then c.toNat - 0x30 else c.toNat - 0x57

/-- The character an escape of one letter stands for. -/
def unescape (c : Char) : Char :=
  match c with
  | 'b' => '\x08'
  | 't' => '\t'
  | 'n' => '\n'
  | 'f' => '\x0c'
  | 'r' => '\r'
  | c => c

/-- One character of the JSON of a string, and what follows it. -/
def readChar : List Char → Option (Char × List Char)
  | '\\' :: 'u' :: _ :: _ :: a :: b :: rest =>
    some (Char.ofNat (16 * hexValue a + hexValue b), rest)
  | '\\' :: c :: rest => some (unescape c, rest)
  | c :: rest => some (c, rest)
  | [] => none

theorem readChar_control {n : ℕ} (h : n < 0x20) (rest : List Char) :
    readChar (escapeControl n ++ rest) = some (Char.ofNat n, rest) := by
  interval_cases n <;> rfl

theorem readChar_escapeChar (c : Char) (rest : List Char) :
    readChar (escapeChar c ++ rest) = some (c, rest) := by
  unfold escapeChar
  split_ifs with hquote hslash hcontrol
  · rw [hquote]
    rfl
  · rw [hslash]
    rfl
  · rw [readChar_control hcontrol, Char.ofNat_toNat]
  · rw [List.singleton_append]
    unfold readChar
    split
    · rename_i heq
      exact absurd (List.cons.inj heq).1 hslash
    · rename_i heq
      exact absurd (List.cons.inj heq).1 hslash
    · rename_i heq
      cases heq
      rfl
    · rename_i heq
      cases heq

theorem neverStarts_escapeChar : NeverStarts '"' escapeChar := by
  intro c rest rest' heq
  unfold escapeChar at heq
  split_ifs at heq with hquote hslash hcontrol
  · cases heq
  · cases heq
  · generalize c.toNat = n at heq hcontrol
    interval_cases n <;> cases heq
  · exact hquote (List.cons.inj heq).1

theorem selfDelimiting_stringJson : SelfDelimiting stringJson := by
  have hchar : SelfDelimiting escapeChar := SelfDelimiting.of_reader readChar readChar_escapeChar
  have hinj : Function.Injective String.toList := fun s t h => String.toList_injective h
  exact ((hchar.upTo neverStarts_escapeChar).comap hinj).opened ['"']

theorem selfDelimiting_toolCallJson : SelfDelimiting toolCallJson := by
  have hsummary : SelfDelimiting fun s =>
      ",\"summary\":".toList ++ stringJson s ++ "\x7d".toList :=
    (selfDelimiting_stringJson.opened _).closed _
  have hparts : SelfDelimiting fun p : String × String => "\x7b\"name\":".toList ++
      (stringJson p.1 ++ (",\"summary\":".toList ++ stringJson p.2 ++ "\x7d".toList)) :=
    (selfDelimiting_stringJson.pair hsummary).opened _
  intro ⟨name, summary⟩ ⟨name', summary'⟩ rest rest' heq
  obtain ⟨hpair, hrest⟩ := hparts (name, summary) (name', summary') rest rest' heq
  cases hpair
  exact ⟨rfl, hrest⟩

theorem selfDelimiting_arrayJson {α : Type*} {item : α → List Char} (h : SelfDelimiting item)
    (hmark : NeverStarts ']' item) : SelfDelimiting (arrayJson item) :=
  (h.list hmark (by decide)).opened ['[']

end Delimiters

section Injectivity

theorem preimageOf_eq (calls : List ToolCall) (prompts : List String) (text : String) :
    preimageOf calls prompts text = utf8 (arrayJson toolCallJson calls ++
      (['|'] ++ (arrayJson stringJson prompts ++ (['|'] ++ text.toList)))) := by
  simp only [preimageOf, utf8, List.foldl_cons, List.foldl_nil, String.ofList_append,
    String.toByteArray_append, String.ofList_toList, ByteArray.empty_append, ByteArray.append_assoc]

theorem preimageOf_inj {calls calls' : List ToolCall} {prompts prompts' : List String}
    {text text' : String} (h : preimageOf calls prompts text = preimageOf calls' prompts' text') :
    calls = calls' ∧ prompts = prompts' ∧ text = text' := by
  rw [preimageOf_eq, preimageOf_eq, utf8, utf8, String.toByteArray_inj, String.ofList_inj] at h
  have hcallMark : NeverStarts ']' toolCallJson := by
    intro t rest rest' heq
    cases heq
  have hstringMark : NeverStarts ']' stringJson := by
    intro s rest rest' heq
    cases heq
  obtain ⟨hcalls, hrest⟩ := selfDelimiting_arrayJson selfDelimiting_toolCallJson hcallMark _ _ _ _ h
  obtain ⟨hprompts, htext⟩ := selfDelimiting_arrayJson selfDelimiting_stringJson hstringMark _ _ _ _
    (List.append_cancel_left hrest)
  exact ⟨hcalls, hprompts, String.toList_injective (List.append_cancel_left htext)⟩

/-- **The pre-image of the content hash.** Two segments feed the same bytes to the digest exactly if
their tool calls, their prompts and their joined texts are the same. -/
theorem preimage_eq_iff (seg seg' : SessionSegment) :
    preimage seg = preimage seg' ↔
      seg.toolCalls = seg'.toolCalls ∧ seg.userPrompts = seg'.userPrompts ∧
        "\n".intercalate seg.assistantTexts = "\n".intercalate seg'.assistantTexts := by
  constructor
  · exact preimageOf_inj
  · intro ⟨hcalls, hprompts, htext⟩
    rw [preimage, preimage, hcalls, hprompts, htext]

/-- The digest of the pre-image tells segments apart if the digest has no collisions. -/
theorem digest_segment {H : Type} {env : Rendering H} {sha256 : ByteArray → H}
    (henv : ∀ calls prompts text,
      env.segmentHash calls prompts text = sha256 (preimageOf calls prompts text))
    (hsha : Function.Injective sha256)
    (hopencode : ∀ {s s'}, env.opencodeHash s = env.opencodeHash s' ↔ s.hashed = s'.hashed) :
    env.Digest where
  segment h := by
    rw [henv, henv] at h
    exact preimageOf_inj (hsha h)
  opencode := hopencode

end Injectivity

end Hippo.ContentHash
