import Mathlib.Data.Nat.Notation

/-!
# Processes that fail or are killed between two operations

A process works on a disk, one operation after the other. A list of fates says what becomes
of each: it goes through or it fails, as long as the budget of failures lasts; the process
is killed when the list ends. A specification therefore has three conditions: for the value
returned, for an error, and for the disk that a killed process leaves.
-/
namespace Hippo.Interruption

/-- What becomes of one operation. -/
inductive Fate where
  | goes
  | fails
deriving DecidableEq

/-- The disk, how many operations may still fail, and which ones did. -/
structure Machine (ν σ : Type) where
  disk : σ
  budget : ℕ
  failed : List ν := []

inductive Outcome (ε α : Type) where
  | ok (a : α)
  | error (e : ε)
  | killed
deriving DecidableEq

def Proc (ν σ ε α : Type) : Type :=
  List Fate → Machine ν σ → Outcome ε α × List Fate × Machine ν σ

namespace Machine

variable {ν σ : Type}

def fail (m : Machine ν σ) (name : ν) : Machine ν σ :=
  { m with budget := m.budget - 1, failed := name :: m.failed }

def put (m : Machine ν σ) (disk : σ) : Machine ν σ := { m with disk := disk }

@[simp] theorem fail_disk (m : Machine ν σ) (name : ν) : (m.fail name).disk = m.disk := rfl

@[simp] theorem put_disk (m : Machine ν σ) (disk : σ) : (m.put disk).disk = disk := rfl

@[simp] theorem put_budget (m : Machine ν σ) (disk : σ) : (m.put disk).budget = m.budget := rfl

@[simp] theorem put_failed (m : Machine ν σ) (disk : σ) : (m.put disk).failed = m.failed := rfl

@[simp] theorem fail_failed (m : Machine ν σ) (name : ν) :
    (m.fail name).failed = name :: m.failed := rfl

@[simp] theorem fail_budget (m : Machine ν σ) (name : ν) :
    (m.fail name).budget = m.budget - 1 := rfl

end Machine

namespace Proc

variable {ν σ ε ε' α β : Type}

instance : Monad (Proc ν σ ε) where
  pure a := fun fates m => (.ok a, fates, m)
  bind c f := fun fates m =>
    match c fates m with
    | (.ok a, fates, m) => f a fates m
    | (.error e, fates, m) => (.error e, fates, m)
    | (.killed, fates, m) => (.killed, fates, m)

def throw (e : ε) : Proc ν σ ε α := fun fates m => (.error e, fates, m)

def ensure (p : Prop) [Decidable p] (e : ε) : Proc ν σ ε Unit :=
  if p then pure () else throw e

/-- A look at the disk that cannot fail. -/
def look (f : σ → α) : Proc ν σ ε α := fun fates m => (.ok (f m.disk), fates, m)

/-- A change of what the process holds in memory. -/
def modify (f : σ → σ) : Proc ν σ ε Unit := fun fates m => (.ok (), fates, m.put (f m.disk))

/-- An operation, which fails with `error` when it is its fate, and may have its own errors. -/
def op (name : ν) (error : ε) (act : σ → Except ε α × σ) : Proc ν σ ε α
  | [], m => (.killed, [], m)
  | fate :: fates, m =>
    if fate = .fails ∧ 0 < m.budget then (.error error, fates, m.fail name)
    else match act m.disk with
      | (.ok a, disk) => (.ok a, fates, m.put disk)
      | (.error e, disk) => (.error e, fates, m.put disk)

/-- An operation that writes. -/
def write (name : ν) (error : ε) (f : σ → σ) : Proc ν σ ε Unit :=
  op name error fun disk => (.ok (), f disk)

/-- An operation that reads, and may refuse what it finds. -/
def fetch (name : ν) (error : ε) (f : σ → Except ε α) : Proc ν σ ε α :=
  op name error fun disk => (f disk, disk)

/-- The error becomes a value. -/
def attempt (c : Proc ν σ ε α) : Proc ν σ ε' (Except ε α) := fun fates m =>
  match c fates m with
  | (.ok a, fates, m) => (.ok (.ok a), fates, m)
  | (.error e, fates, m) => (.ok (.error e), fates, m)
  | (.killed, fates, m) => (.killed, fates, m)

/-- Best effort: `let _ = …`. -/
def ignore (c : Proc ν σ ε α) : Proc ν σ ε Unit := do
  let _ ← (c.attempt : Proc ν σ ε (Except ε α))
  return ()

end Proc

section Specifications

variable {ν σ ε ε' α β : Type} {P P' D D' : Machine ν σ → Prop} {Q Q' : α → Machine ν σ → Prop}
  {E E' : ε → Machine ν σ → Prop} {c : Proc ν σ ε α}

/-- From a state in `P` the process returns a value in `Q`, an error in `E`, or is killed in
`D`. -/
def Spec (P : Machine ν σ → Prop) (c : Proc ν σ ε α) (Q : α → Machine ν σ → Prop)
    (E : ε → Machine ν σ → Prop) (D : Machine ν σ → Prop) : Prop :=
  ∀ fates m, P m → match c fates m with
    | (.ok a, _, m') => Q a m'
    | (.error e, _, m') => E e m'
    | (.killed, _, m') => D m'

theorem Spec.mono (h : Spec P c Q E D) (hP : ∀ m, P' m → P m) (hQ : ∀ a m, Q a m → Q' a m)
    (hE : ∀ e m, E e m → E' e m) (hD : ∀ m, D m → D' m) : Spec P' c Q' E' D' := by
  intro fates m hm
  have hrun := h fates m (hP m hm)
  revert hrun
  rcases c fates m with ⟨outcome, rest, m'⟩
  cases outcome with
  | ok a => exact hQ a m'
  | error e => exact hE e m'
  | killed => exact hD m'

theorem Spec.pre (h : Spec P c Q E D) (hP : ∀ m, P' m → P m) : Spec P' c Q E D :=
  h.mono hP (fun _ _ hq => hq) (fun _ _ he => he) (fun _ hd => hd)

theorem Spec.post (h : Spec P c Q E D) (hQ : ∀ a m, Q a m → Q' a m) : Spec P c Q' E D :=
  h.mono (fun _ hp => hp) hQ (fun _ _ he => he) (fun _ hd => hd)

theorem Spec.pure {a : α} (h : ∀ m, P m → Q a m) : Spec P (pure a) Q E D :=
  fun _ m hm => h m hm

theorem Spec.throw {e : ε} (h : ∀ m, P m → E e m) :
    Spec P (Proc.throw e : Proc ν σ ε α) Q E D :=
  fun _ m hm => h m hm

theorem Spec.look {f : σ → α} (h : ∀ m, P m → Q (f m.disk) m) :
    Spec P (Proc.look f) Q E D :=
  fun _ m hm => h m hm

theorem Spec.modify {f : σ → σ} {Q : Unit → Machine ν σ → Prop}
    (h : ∀ m, P m → Q () (m.put (f m.disk))) :
    Spec P (Proc.modify f : Proc ν σ ε Unit) Q E D :=
  fun _ m hm => h m hm

theorem Spec.bind {f : α → Proc ν σ ε β} {R : β → Machine ν σ → Prop}
    (h : Spec P c Q E D) (hf : ∀ a, Spec (Q a) (f a) R E D) : Spec P (c >>= f) R E D := by
  intro fates m hm
  have hrun := h fates m hm
  change match (match c fates m with
    | (.ok a, fates, m) => f a fates m
    | (.error e, fates, m) => (.error e, fates, m)
    | (.killed, fates, m) => (.killed, fates, m)) with
    | (.ok a, _, m') => R a m'
    | (.error e, _, m') => E e m'
    | (.killed, _, m') => D m'
  revert hrun
  rcases c fates m with ⟨outcome, rest, m'⟩
  cases outcome with
  | ok a => exact hf a rest m'
  | error e => exact fun he => he
  | killed => exact fun hd => hd

/-- An operation: it fails, goes through, or the process is killed before it. -/
theorem Spec.op {name : ν} {error : ε} {act : σ → Except ε α × σ} (hkill : ∀ m, P m → D m)
    (hfail : ∀ m, P m → 0 < m.budget → E error (m.fail name))
    (hgo : ∀ m, P m → match act m.disk with
      | (.ok a, disk) => Q a (m.put disk)
      | (.error e, disk) => E e (m.put disk)) :
    Spec P (Proc.op name error act) Q E D := by
  intro fates m hm
  cases fates with
  | nil => exact hkill m hm
  | cons fate fates =>
    by_cases hfate : fate = .fails ∧ 0 < m.budget
    · simp only [Proc.op, if_pos hfate]
      exact hfail m hm hfate.2
    · have hrun := hgo m hm
      revert hrun
      simp only [Proc.op, if_neg hfate]
      rcases act m.disk with ⟨result, disk⟩
      cases result with
      | ok a => exact fun hq => hq
      | error e => exact fun he => he

theorem Spec.write {name : ν} {error : ε} {f : σ → σ} {Q : Unit → Machine ν σ → Prop}
    (hkill : ∀ m, P m → D m) (hfail : ∀ m, P m → 0 < m.budget → E error (m.fail name))
    (hgo : ∀ m, P m → Q () (m.put (f m.disk))) : Spec P (Proc.write name error f) Q E D :=
  Spec.op hkill hfail hgo

theorem Spec.fetch {name : ν} {error : ε} {f : σ → Except ε α} (hkill : ∀ m, P m → D m)
    (hfail : ∀ m, P m → 0 < m.budget → E error (m.fail name))
    (hok : ∀ m a, P m → f m.disk = .ok a → Q a m)
    (herror : ∀ m e, P m → f m.disk = .error e → E e m) :
    Spec P (Proc.fetch name error f) Q E D := by
  refine Spec.op hkill hfail fun m hm => ?_
  cases hf : f m.disk with
  | ok a => exact hok m a hm hf
  | error e => exact herror m e hm hf

theorem Spec.attempt {R : Except ε α → Machine ν σ → Prop} {E' : ε' → Machine ν σ → Prop}
    (h : Spec P c (fun a => R (.ok a)) (fun e => R (.error e)) D) :
    Spec P (c.attempt : Proc ν σ ε' (Except ε α)) R E' D := by
  intro fates m hm
  have hrun := h fates m hm
  revert hrun
  simp only [Proc.attempt]
  rcases c fates m with ⟨outcome, rest, m'⟩
  cases outcome with
  | ok a => exact fun hr => hr
  | error e => exact fun hr => hr
  | killed => exact fun hd => hd

/-- An attempted process goes on at one point after its result and at another after its error. -/
theorem Spec.attempt_bind {F : ε → Machine ν σ → Prop} {E' : ε' → Machine ν σ → Prop}
    {f : Except ε α → Proc ν σ ε' β} {R : β → Machine ν σ → Prop} (h : Spec P c Q F D)
    (hok : ∀ a, Spec (Q a) (f (.ok a)) R E' D) (herror : ∀ e, Spec (F e) (f (.error e)) R E' D) :
    Spec P ((c.attempt : Proc ν σ ε' (Except ε α)) >>= f) R E' D := by
  apply Spec.bind
  · apply Spec.attempt
      (R := fun result m => (∀ a, result = .ok a → Q a m) ∧ ∀ e, result = .error e → F e m)
    refine h.mono (fun _ hp => hp) (fun a m hq => ⟨fun a' ha => ?_, by simp⟩)
      (fun e m he => ⟨by simp, fun e' he' => ?_⟩) (fun _ hd => hd)
    · rwa [← Except.ok.inj ha]
    · rwa [← Except.error.inj he']
  intro result
  cases result with
  | ok a => exact (hok a).pre fun m hm => hm.1 a rfl
  | error e => exact (herror e).pre fun m hm => hm.2 e rfl

theorem Spec.ignore {R : Unit → Machine ν σ → Prop}
    (h : Spec P c (fun _ => R ()) (fun _ => R ()) D) : Spec P c.ignore R E D :=
  Spec.bind (Spec.attempt (R := fun _ => R ()) h) fun _ => Spec.pure fun _ hr => hr

/-- The state at the start may be named. -/
theorem Spec.from (h : ∀ m₀, P m₀ → Spec (fun m => m = m₀) c Q E D) : Spec P c Q E D :=
  fun fates m hm => h m hm fates m rfl

/-- The specification of a conditional is that of its branches. -/
theorem Spec.ite {p : Prop} [Decidable p] {c' : Proc ν σ ε α}
    (h : p → Spec P c Q E D) (h' : ¬ p → Spec P c' Q E D) :
    Spec P (if p then c else c') Q E D := by
  split
  · rename_i hp
    exact h hp
  · rename_i hp
    exact h' hp

/-- A pure fact of the precondition may be used for the process. -/
theorem Spec.of_fact {p : Prop} (h : p → Spec P c Q E D) :
    Spec (fun m => p ∧ P m) c Q E D := by
  intro fates m hm
  exact h hm.1 fates m hm.2

end Specifications

section Disks

variable {ν σ ε ε' α β : Type} {I I' E E' K : σ → Prop} {Q Q' : α → σ → Prop}
  {c : Proc ν σ ε α}

/-- From a disk in `I` the process returns a value in `Q`, or leaves a disk in `E` when it
stops on an error or is killed. -/
def Leaves (I : σ → Prop) (c : Proc ν σ ε α) (Q : α → σ → Prop) (E : σ → Prop) : Prop :=
  Spec (fun m => I m.disk) c (fun a m => Q a m.disk) (fun _ m => E m.disk) (fun m => E m.disk)

theorem Leaves.mono (h : Leaves I c Q E) (hI : ∀ d, I' d → I d) (hQ : ∀ a d, Q a d → Q' a d)
    (hE : ∀ d, E d → E' d) : Leaves I' c Q' E' :=
  Spec.mono h (fun m => hI m.disk) (fun a m => hQ a m.disk) (fun _ m => hE m.disk)
    (fun m => hE m.disk)

theorem Leaves.pure {a : α} (h : ∀ d, I d → Q a d) :
    Leaves I (Pure.pure a : Proc ν σ ε α) Q E :=
  Spec.pure fun m => h m.disk

theorem Leaves.throw {e : ε} (h : ∀ d, I d → E d) :
    Leaves I (Proc.throw e : Proc ν σ ε α) Q E :=
  Spec.throw fun m => h m.disk

theorem Leaves.look {f : σ → α} (h : ∀ d, I d → Q (f d) d) :
    Leaves I (Proc.look f : Proc ν σ ε α) Q E :=
  Spec.look fun m => h m.disk

theorem Leaves.bind {f : α → Proc ν σ ε β} {R : β → σ → Prop} (h : Leaves I c Q E)
    (hf : ∀ a, Leaves (Q a) (f a) R E) : Leaves I (c >>= f) R E :=
  Spec.bind h hf

theorem Leaves.op {name : ν} {error : ε} {act : σ → Except ε α × σ} (hE : ∀ d, I d → E d)
    (hgo : ∀ d, I d → match act d with
      | (.ok a, d') => Q a d'
      | (.error _, d') => E d') :
    Leaves I (Proc.op name error act) Q E :=
  Spec.op (fun m => hE m.disk) (fun m hm _ => hE m.disk hm) fun m hm => by
    have hrun := hgo m.disk hm
    revert hrun
    rcases act m.disk with ⟨result, disk⟩
    cases result with
    | ok a => exact fun hq => hq
    | error e => exact fun he => he

theorem Leaves.write {name : ν} {error : ε} {f : σ → σ} {Q : Unit → σ → Prop}
    (hE : ∀ d, I d → E d) (hgo : ∀ d, I d → Q () (f d)) :
    Leaves I (Proc.write name error f) Q E :=
  Leaves.op hE hgo

/-- What stopped the inner process is a value of the outer one. -/
theorem Leaves.attempt (h : Leaves I c Q K) (hK : ∀ d, K d → E d) :
    Leaves I (c.attempt : Proc ν σ ε' (Except ε α))
      (fun result d => match result with
        | .ok a => Q a d
        | .error _ => K d) E :=
  Spec.attempt (Spec.mono h (fun _ hm => hm) (fun _ _ hq => hq) (fun _ _ he => he)
    fun m => hK m.disk)

theorem Leaves.ignore (h : Leaves I c Q K) (hQ : ∀ a d, Q a d → K d) (hK : ∀ d, K d → E d) :
    Leaves I c.ignore (fun _ d => K d) E :=
  Leaves.bind (Leaves.attempt h hK) fun result => Leaves.pure fun d hd => by
    cases result with
    | ok a => exact hQ a d hd
    | error e => exact hd

/-- The specification of a conditional is that of its branches. -/
theorem Leaves.ite {p : Prop} [Decidable p] {c' : Proc ν σ ε α} (h : p → Leaves I c Q E)
    (h' : ¬ p → Leaves I c' Q E) : Leaves I (if p then c else c') Q E := by
  split
  · rename_i hp
    exact h hp
  · rename_i hp
    exact h' hp

/-- The disk at the start may be named. -/
theorem Leaves.from (h : ∀ d, I d → Leaves (fun d' => d' = d) c Q E) : Leaves I c Q E :=
  fun fates m hm => h m.disk hm fates m rfl

theorem Leaves.ensure {p : Prop} [Decidable p] {e : ε} {Q : Unit → σ → Prop}
    (h : p → ∀ d, I d → Q () d) (h' : ¬ p → ∀ d, I d → E d) :
    Leaves I (Proc.ensure p e : Proc ν σ ε Unit) Q E :=
  Leaves.ite (fun hp => Leaves.pure (h hp)) fun hp => Leaves.throw (h' hp)

/-- The disk that the run leaves. -/
theorem Leaves.disk (h : Leaves I c Q E) (hQ : ∀ a d, Q a d → E d) (fates : List Fate)
    {m : Machine ν σ} (hm : I m.disk) : E (c fates m).2.2.disk := by
  have hrun := h fates m hm
  revert hrun
  rcases c fates m with ⟨outcome, rest, m'⟩
  cases outcome with
  | ok a => exact hQ a m'.disk
  | error e => exact fun he => he
  | killed => exact fun he => he

end Disks

end Hippo.Interruption
