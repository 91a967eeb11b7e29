import Mathlib.Data.List.Basic
import Mathlib.Algebra.Order.Ring.Nat
import Mathlib.Tactic.Ring

/-!
# Readers of byte strings

A reader takes bytes from the front of its input or fails. What was written by an encoder is read
back in front of any rest.
-/
namespace Hippo.ByteReader

abbrev Reader (ε α : Type) : Type := StateT (List UInt8) (Except ε) α

variable {ε α β : Type}

section Readers

variable {m : Reader ε α} {f : α → Reader ε β} {s s' rest bytes : List UInt8} {a : α} {e : ε}
  {n : ℕ}

def fail (e : ε) : Reader ε α := fun _ => .error e

def ensure (p : Prop) [Decidable p] (e : ε) : Reader ε Unit :=
  fun s => if p then .ok ((), s) else .error e

/-- A computation that reads nothing. -/
def lift (r : Except ε α) : Reader ε α := fun s => r.map fun a => (a, s)

/-- `read_exact` into a buffer of `n` bytes. -/
def readExact (n : ℕ) (e : ε) : Reader ε (List UInt8) :=
  fun s => if s.length < n then .error e else .ok (s.take n, s.drop n)

theorem pure_eq_ok {r : α × List UInt8} : (pure a : Reader ε α) s = .ok r ↔ r = (a, s) := by
  constructor
  · intro h
    exact (Except.ok.inj h).symm
  · rintro rfl
    rfl

theorem bind_of_ok (h : m s = .ok (a, s')) : (m >>= f) s = f a s' := by
  simp only [bind, StateT.bind, h]
  rfl

theorem bind_eq_ok {r : β × List UInt8} :
    (m >>= f) s = .ok r ↔ ∃ a s', m s = .ok (a, s') ∧ f a s' = .ok r := by
  constructor
  · intro h
    cases hm : m s with
    | error e =>
      have hbind : (m >>= f) s = .error e := by
        simp only [bind, StateT.bind, hm]
        rfl
      rw [hbind] at h
      cases h
    | ok p => exact ⟨p.1, p.2, rfl, by rwa [bind_of_ok hm] at h⟩
  · rintro ⟨a, s', hm, hf⟩
    rwa [bind_of_ok hm]

theorem run'_eq_ok : m.run' s = .ok a ↔ ∃ s', m s = .ok (a, s') := by
  simp only [StateT.run', Functor.map, Except.map]
  cases h : m s with
  | error e => simp
  | ok p =>
    simp only [Except.ok.injEq]
    constructor
    · rintro rfl
      exact ⟨p.2, rfl⟩
    · rintro ⟨s', rfl⟩
      rfl

theorem ensure_eq_ok {p : Prop} [Decidable p] {r : Unit × List UInt8} :
    (ensure p e) s = .ok r ↔ p ∧ r = ((), s) := by
  by_cases h : p <;> simp [ensure, h, eq_comm]

theorem ensure_of {p : Prop} [Decidable p] (h : p) : (ensure p e) s = .ok ((), s) :=
  ensure_eq_ok.mpr ⟨h, rfl⟩

theorem lift_eq_ok {r : Except ε α} {p : α × List UInt8} :
    (lift r) s = .ok p ↔ r = .ok p.1 ∧ p.2 = s := by
  cases r with
  | error e => simp [lift, Except.map]
  | ok a =>
    simp only [lift, Except.map, Except.ok.injEq]
    constructor
    · rintro rfl
      exact ⟨rfl, rfl⟩
    · rintro ⟨rfl, rfl⟩
      rfl

theorem lift_of_ok {r : Except ε α} (h : r = .ok a) : (lift r) s = .ok (a, s) :=
  lift_eq_ok.mpr ⟨h, rfl⟩

theorem readExact_append (h : bytes.length = n) :
    readExact n e (bytes ++ rest) = .ok (bytes, rest) := by
  have hlength : ¬ (bytes ++ rest).length < n := by
    rw [List.length_append]
    omega
  simp only [readExact, if_neg hlength, List.take_left' h, List.drop_left' h]

theorem readExact_eq_ok :
    readExact n e s = .ok (bytes, rest) ↔ s = bytes ++ rest ∧ bytes.length = n := by
  constructor
  · intro h
    simp only [readExact] at h
    split_ifs at h with hlength
    obtain ⟨rfl, rfl⟩ := Prod.mk.inj (Except.ok.inj h)
    exact ⟨(List.take_append_drop n s).symm, by rw [List.length_take]; omega⟩
  · rintro ⟨rfl, hlength⟩
    exact readExact_append hlength

end Readers

section LittleEndian

/-- The little-endian bytes of a number, `width` of them. -/
def leBytes : ℕ → ℕ → List UInt8
  | 0, _ => []
  | width + 1, n => UInt8.ofNat n :: leBytes width (n / 256)

def leValue : List UInt8 → ℕ
  | [] => 0
  | b :: rest => b.toNat + 256 * leValue rest

@[simp] theorem length_leBytes (width n : ℕ) : (leBytes width n).length = width := by
  induction width generalizing n with
  | zero => rfl
  | succ width ih => rw [leBytes, List.length_cons, ih]

theorem leValue_leBytes {width n : ℕ} (h : n < 256 ^ width) : leValue (leBytes width n) = n := by
  induction width generalizing n with
  | zero =>
    have hn : n = 0 := by simpa using h
    rw [hn]
    rfl
  | succ width ih =>
    have hquotient : n / 256 < 256 ^ width := by
      rw [pow_succ] at h
      omega
    have hbyte : (UInt8.ofNat n).toNat = n % 256 := UInt8.toNat_ofNat'
    rw [leBytes, leValue, ih hquotient, hbyte]
    omega

end LittleEndian

end Hippo.ByteReader
