import Hippo.ByteReader
import Mathlib.Tactic.Common

/-!
# Length-prefixed messages

The daemon's socket and the browser's native messaging carry messages behind a length of four
bytes, big-endian on the one and native-endian on the other, each with its own limit. A stream can
end anywhere: the other side is killed in the middle of a write.
-/
namespace Hippo.Framing

open ByteReader

/-- `to_be_bytes` and `to_le_bytes`. -/
inductive Endian where
  | big
  | little
deriving DecidableEq, Repr

namespace Endian

def encode (e : Endian) (n : ℕ) : List UInt8 :=
  match e with
  | big => (leBytes 4 n).reverse
  | little => leBytes 4 n

def decode (e : Endian) (bytes : List UInt8) : ℕ :=
  match e with
  | big => leValue bytes.reverse
  | little => leValue bytes

@[simp] theorem length_encode (e : Endian) (n : ℕ) : (e.encode n).length = 4 := by
  cases e <;> simp [encode]

theorem decode_encode (e : Endian) {n : ℕ} (h : n < 2 ^ 32) : e.decode (e.encode n) = n := by
  have hle : leValue (leBytes 4 n) = n := leValue_leBytes (by omega)
  cases e <;> simp [encode, decode, hle]

end Endian

/-- A framing: the order of the length's bytes and the largest message that a reader takes. -/
structure Protocol where
  endian : Endian
  maxBytes : ℕ
deriving DecidableEq, Repr

/-- `framing.rs`. -/
def daemon : Protocol := ⟨.big, 10 * 1024 * 1024⟩

/-- `native_messaging.rs`, where `native` is the machine's own order. -/
def nativeMessaging (native : Endian) : Protocol := ⟨native, 1024 * 1024⟩

variable (p : Protocol)

/-- `write_frame` and `write_native_message`: what they write, or an error before the first byte. -/
def write (data : List UInt8) : Option (List UInt8) :=
  if data.length < 2 ^ 32 then some (p.endian.encode data.length ++ data) else none

inductive ReadError where
  | tooLarge (len : ℕ)
  | unexpectedEof
deriving DecidableEq, Repr

/-- `read_frame` and `read_native_message` on what is left of a stream: a message, the end, or an
error, and what is left then. An end within the length counts as the end of the stream. -/
def read (s : List UInt8) : Except ReadError (Option (List UInt8)) × List UInt8 :=
  if s.length < 4 then (.ok none, [])
  else
    let len := p.endian.decode (s.take 4)
    let rest := s.drop 4
    if p.maxBytes < len then (.error (.tooLarge len), rest)
    else if rest.length < len then (.error .unexpectedEof, [])
    else (.ok (some (rest.take len)), rest.drop len)

/-- What is left is less than before, while there are messages or errors. -/
theorem read_length {s : List UInt8} (h : (read p s).1 ≠ .ok none) :
    (read p s).2.length < s.length := by
  simp only [read] at h ⊢
  split_ifs at h ⊢
  · exact absurd rfl h
  all_goals simp only [List.length_drop, List.length_nil]
  all_goals omega

/-- The loop of `handle_connection`: the frames before the end, and the error that closed the
connection. -/
def frames (s : List UInt8) : List (List UInt8) × Option ReadError :=
  match _h : (read p s).1 with
  | .ok none => ([], none)
  | .error e => ([], some e)
  | .ok (some data) =>
    let r := frames (read p s).2
    (data :: r.1, r.2)
termination_by s.length
decreasing_by exact read_length p (by simp_all)

/-- The loop of the native-messaging host, which answers an error and goes on. -/
def messages (s : List UInt8) : List (Except ReadError (List UInt8)) :=
  match _h : (read p s).1 with
  | .ok none => []
  | .error e => .error e :: messages (read p s).2
  | .ok (some data) => .ok data :: messages (read p s).2
termination_by s.length
decreasing_by all_goals exact read_length p (by simp_all)

section Streams

variable {p : Protocol} {data rest s : List UInt8} {sent : List (List UInt8)} {n : ℕ}

/-- The bytes of messages that were written one after the other. -/
def stream (p : Protocol) (sent : List (List UInt8)) : List UInt8 :=
  sent.flatMap fun data => p.endian.encode data.length ++ data

/-- Messages that the other side takes. -/
def Fits (p : Protocol) (data : List UInt8) : Prop :=
  data.length ≤ p.maxBytes ∧ data.length < 2 ^ 32

theorem write_fits (h : Fits p data) : write p data = some (stream p [data]) := by
  rw [write, if_pos h.2]
  simp [stream]

theorem read_header (rest : List UInt8) (hlen : data.length < 2 ^ 32) (hlarge : p.maxBytes < data.length) :
    read p (p.endian.encode data.length ++ rest) = (.error (.tooLarge data.length), rest) := by
  simp [read, List.take_left', List.drop_left', Endian.decode_encode _ hlen, hlarge]

theorem read_frame (rest : List UInt8) (h : Fits p data) :
    read p (p.endian.encode data.length ++ (data ++ rest)) = (.ok (some data), rest) := by
  have hsmall : ¬ p.maxBytes < data.length := by have := h.1; omega
  simp [read, List.take_left', List.drop_left', Endian.decode_encode _ h.2, hsmall]

/-- A frame that ends within its message. -/
theorem read_cut (h : Fits p data) (hn : n < data.length) :
    read p (p.endian.encode data.length ++ data.take n) = (.error .unexpectedEof, []) := by
  have hsmall : ¬ p.maxBytes < data.length := by have := h.1; omega
  have hcut : min n data.length < data.length := by omega
  simp [read, List.take_left', List.drop_left', Endian.decode_encode _ h.2, hsmall, hcut]

theorem read_short (h : s.length < 4) : read p s = (.ok none, []) := by
  simp [read, h]

theorem frames_of_message (h : read p s = (.ok (some data), rest)) :
    frames p s = (data :: (frames p rest).1, (frames p rest).2) := by
  rw [frames]
  split <;> simp_all

theorem frames_of_end (h : (read p s).1 = .ok none) : frames p s = ([], none) := by
  rw [frames]
  split <;> simp_all

theorem frames_of_error {e : ReadError} (h : (read p s).1 = .error e) :
    frames p s = ([], some e) := by
  rw [frames]
  split <;> simp_all

theorem messages_of_message (h : read p s = (.ok (some data), rest)) :
    messages p s = .ok data :: messages p rest := by
  rw [messages]
  split <;> simp_all

theorem messages_of_end (h : (read p s).1 = .ok none) : messages p s = [] := by
  rw [messages]
  split <;> simp_all

theorem messages_of_error {e : ReadError} (h : read p s = (.error e, rest)) :
    messages p s = .error e :: messages p rest := by
  rw [messages]
  split <;> simp_all

/-- The messages whose frames end within the first `n` bytes. -/
def whole : ℕ → List (List UInt8) → List (List UInt8)
  | _, [] => []
  | n, data :: rest =>
    if 4 + data.length ≤ n then data :: whole (n - (4 + data.length)) rest else []

/-- How many of the first `n` bytes belong to a frame that does not end there. -/
def leftover : ℕ → List (List UInt8) → ℕ
  | _, [] => 0
  | n, data :: rest => if 4 + data.length ≤ n then leftover (n - (4 + data.length)) rest else n

theorem stream_cons (data : List UInt8) (sent : List (List UInt8)) :
    stream p (data :: sent) = p.endian.encode data.length ++ (data ++ stream p sent) := by
  simp [stream]

/-- Messages in front of anything are read as they are. -/
theorem messages_append (h : ∀ data ∈ sent, Fits p data) (rest : List UInt8) :
    messages p (stream p sent ++ rest) = sent.map .ok ++ messages p rest := by
  induction sent with
  | nil => rfl
  | cons data sent ih =>
    have hread := read_frame (stream p sent ++ rest) (h data List.mem_cons_self)
    have hhead : messages p (stream p (data :: sent) ++ rest) =
        .ok data :: messages p (stream p sent ++ rest) := by
      refine messages_of_message ?_
      simpa [stream_cons] using hread
    rw [hhead, ih fun d hd => h d (List.mem_cons_of_mem _ hd)]
    rfl

theorem frames_append (h : ∀ data ∈ sent, Fits p data) (rest : List UInt8) :
    frames p (stream p sent ++ rest) = (sent ++ (frames p rest).1, (frames p rest).2) := by
  induction sent with
  | nil => rfl
  | cons data sent ih =>
    have hread := read_frame (stream p sent ++ rest) (h data List.mem_cons_self)
    have hhead : frames p (stream p (data :: sent) ++ rest) =
        (data :: (frames p (stream p sent ++ rest)).1, (frames p (stream p sent ++ rest)).2) := by
      refine frames_of_message ?_
      simpa [stream_cons] using hread
    rw [hhead, ih fun d hd => h d (List.mem_cons_of_mem _ hd)]
    rfl

/-- A stream that ends after `n` bytes is the whole messages and what is left of one more. -/
theorem take_stream (n : ℕ) (sent : List (List UInt8)) :
    ∃ tail, (stream p sent).take n = stream p (whole n sent) ++ tail ∧
      (tail = [] ∧ leftover n sent = 0 ∨ ∃ data ∈ sent, leftover n sent < 4 + data.length ∧
        tail = (p.endian.encode data.length ++ data).take (leftover n sent)) := by
  induction sent generalizing n with
  | nil => exact ⟨[], by simp [stream, whole], Or.inl ⟨rfl, rfl⟩⟩
  | cons data sent ih =>
    by_cases hn : 4 + data.length ≤ n
    · obtain ⟨tail, htake, htail⟩ := ih (n - (4 + data.length))
      refine ⟨tail, ?_, ?_⟩
      · have hframe : (p.endian.encode data.length ++ data).length ≤ n := by
          simpa using hn
        rw [stream_cons, ← List.append_assoc, List.take_append, List.take_of_length_le hframe]
        simp [whole, hn, stream_cons, htake]
      · simp only [leftover, if_pos hn]
        rcases htail with hnil | ⟨d, hd, hrest⟩
        · exact Or.inl hnil
        · exact Or.inr ⟨d, List.mem_cons_of_mem _ hd, hrest⟩
    · refine ⟨(p.endian.encode data.length ++ data).take n, ?_, Or.inr ⟨data,
        List.mem_cons_self, ?_, ?_⟩⟩
      · have hframe : n - (p.endian.encode data.length ++ data).length = 0 := by
          rw [List.length_append, Endian.length_encode]
          omega
        rw [stream_cons, ← List.append_assoc, List.take_append, hframe]
        simp [whole, hn, stream]
      · simp only [leftover, if_neg hn]
        omega
      · simp only [leftover, if_neg hn]

/-- What is left of a message reads as the end, if not even its length is complete. -/
theorem read_leftover (h : Fits p data) (hn : n < 4 + data.length) :
    read p ((p.endian.encode data.length ++ data).take n) =
      (if 4 ≤ n then .error .unexpectedEof else .ok none, []) := by
  by_cases hfour : 4 ≤ n
  · have htake : (p.endian.encode data.length ++ data).take n =
        p.endian.encode data.length ++ data.take (n - 4) := by
      rw [List.take_append, List.take_of_length_le (by simpa using hfour), Endian.length_encode]
    rw [htake, read_cut h (by omega), if_pos hfour]
  · rw [read_short (by simp only [List.length_take]; omega), if_neg hfour]

end Streams

end Hippo.Framing
