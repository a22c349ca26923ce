import MessagePass.LabelledRuns
import Mathlib.Data.Int.Basic

/-!
# Semaphores that rarely enter the kernel

A `LightweightSemaphore` counts in an atomic number and keeps a kernel semaphore for the thread that
has to sleep. One thread waits and one signals. A waiter that finds no unit announces itself by
taking the count below zero; when its time is up it takes the announcement back, and if a signal has
come in between it must also take the unit that the signal posted to the kernel. A step performs one
access to the count or to the kernel semaphore.
-/
namespace MessagePass.LightSemaphores
open LabelledRuns

/-- A negative timeout waits for ever. -/
inductive WaitOp | tryWait | wait (timeout : ℤ) deriving DecidableEq

inductive WaiterPc where
  | idle
  | returned (success : Bool)
  | load (op : WaitOp)
  | take
  | spin (timeout : ℤ) (rounds : ℕ)
  | kernelWait (timeout : ℤ)
  | restore
  | retake
  | tryKernel
  deriving DecidableEq

/-- Where `signal` stands: before it adds to the count, or before it posts to the kernel. It asserts
that what it adds is not negative. -/
inductive SignallerPc | idle | add (count : ℕ) | post deriving DecidableEq

/-- The semaphore and its two threads, the units given and taken, and both numbers at the end of
each wait that took none. -/
structure State where
  count : ℤ
  kernel : ℕ := 0
  waiter : WaiterPc := .idle
  signaller : SignallerPc := .idle
  assertionFailed : Bool := false
  signalled : ℕ
  taken : ℕ := 0
  refused : List (ℕ × ℕ) := []

/-- The constructor, with the assertion that the initial count is not negative. -/
def make (initialCount : ℕ) : State where
  count := initialCount
  signalled := initialCount

namespace State

def startWait (s : State) (op : WaitOp) : State := { s with waiter := .load op }
def startSignal (s : State) (count : ℕ) : State := { s with signaller := .add count }

def succeed (s : State) : State := { s with waiter := .returned true, taken := s.taken + 1 }

def refuse (s : State) : State :=
  { s with waiter := .returned false, refused := s.refused ++ [(s.signalled, s.taken)] }

/-- The next step of the waiter; `expired` says that its time is up, where it sleeps. -/
def waiterStep (expired : Bool) (s : State) : Option State :=
  match s.waiter with
  | .idle | .returned _ => none
  | .load op =>
      if 0 < s.count then some { s with waiter := .take }
      else match op with
        | .tryWait => some s.refuse
        | .wait timeout => some { s with waiter := .spin timeout 1024 }
  | .take => some { s with count := s.count - 1 }.succeed
  | .spin timeout (rounds + 1) =>
      some { s with waiter := if 0 < s.count then .take else .spin timeout rounds }
  | .spin timeout 0 =>
      if 0 < s.count then some { s with count := s.count - 1 }.succeed
      else some { s with
        count := s.count - 1
        waiter := if timeout = 0 then .restore else .kernelWait timeout }
  | .kernelWait timeout =>
      if expired then
        if 0 < timeout then some { s with waiter := .restore } else none
      else if 0 < s.kernel then some { s with kernel := s.kernel - 1 }.succeed else none
  | .restore =>
      if s.count < 0 then some { s with count := s.count + 1 }.refuse
      else some { s with count := s.count + 1, waiter := .retake }
  | .retake =>
      some { s with
        count := s.count - 1
        waiter := if 0 < s.count then .tryKernel else .restore }
  | .tryKernel =>
      if 0 < s.kernel then some { s with kernel := s.kernel - 1 }.succeed
      else some { s with waiter := .restore }

/-- The next step of the signaller. Whatever it adds, it posts one unit to the kernel. -/
def signallerStep (s : State) : Option State :=
  match s.signaller with
  | .idle => none
  | .add count =>
      some { s with
        count := s.count + count
        signalled := s.signalled + count
        assertionFailed := s.assertionFailed || decide (s.count < -1)
        signaller := if s.count < 0 then .post else .idle }
  | .post => some { s with kernel := s.kernel + 1, signaller := .idle }

def availableApprox (s : State) : ℕ := if 0 < s.count then s.count.toNat else 0

end State

inductive Label where
  | wait (op : WaitOp)
  | waiter (expired : Bool)
  | signal (count : ℕ)
  | signaller
  deriving DecidableEq

def next (s : State) : Label → Option State
  | .wait op =>
      match s.waiter with
      | .idle | .returned _ => some (s.startWait op)
      | _ => none
  | .waiter expired => s.waiterStep expired
  | .signal count =>
      match s.signaller with
      | .idle => some (s.startSignal count)
      | _ => none
  | .signaller => s.signallerStep

def Gives (_ : State) : Label → Prop
  | .signal count => 0 < count
  | _ => True

instance (s : State) : ∀ label, Decidable (Gives s label)
  | .signal count => inferInstanceAs (Decidable (0 < count))
  | .wait _ | .waiter _ | .signaller => inferInstanceAs (Decidable True)

def WaiterPc.announced : WaiterPc → ℕ
  | .kernelWait _ | .restore | .tryKernel => 1
  | _ => 0

/-- The waiter may have a unit waiting for it in the kernel. -/
def WaiterPc.Engaged : WaiterPc → Prop
  | .kernelWait _ | .restore | .retake | .tryKernel => True
  | _ => False

/-- The waiter has seen a unit that nobody else takes. -/
def WaiterPc.Promised : WaiterPc → Prop
  | .take | .retake | .tryKernel => True
  | _ => False

def SignallerPc.posting : SignallerPc → ℕ
  | .post => 1
  | _ => 0

/-- The count is the units that are left, less the waiter's announcement. The kernel semaphore holds
a unit, or is about to, exactly when there is one for a waiter that may sleep. -/
structure Balanced (s : State) : Prop where
  assertion : s.assertionFailed = false
  taken_le : s.taken ≤ s.signalled
  giving : ∀ count, s.signaller = .add count → 0 < count
  count : s.count = s.signalled - s.taken - s.waiter.announced
  posted : s.waiter.Engaged → s.taken < s.signalled → s.kernel + s.signaller.posting = 1
  clean : (s.waiter.Engaged → s.taken = s.signalled) → s.kernel + s.signaller.posting = 0
  promised : s.waiter.Promised → s.taken < s.signalled
  refused : ∀ entry ∈ s.refused, entry.1 = entry.2

theorem balanced_make (initialCount : ℕ) : Balanced (make initialCount) where
  assertion := rfl
  taken_le := Nat.zero_le _
  giving := by simp [make]
  count := by simp [make, WaiterPc.announced]
  posted := fun h => h.elim
  clean := fun _ => rfl
  promised := fun h => h.elim
  refused := by simp [make]

namespace Balanced
variable {s t : State}

theorem startWait (h : Balanced s)
    (hpc : s.waiter = .idle ∨ ∃ success, s.waiter = .returned success) (op : WaitOp) :
    Balanced (s.startWait op) := by
  have hcount := h.count
  have hclean := h.clean
  rcases hpc with hpc | ⟨success, hpc⟩ <;> rw [hpc] at hcount hclean <;>
    exact { h with
      count := hcount
      posted := fun hengaged => hengaged.elim
      clean := fun _ => hclean fun hengaged => hengaged.elim
      promised := fun hpromised => hpromised.elim }

theorem succeed (h : Balanced s) {u : State} (hassert : u.assertionFailed = s.assertionFailed)
    (hsignalled : u.signalled = s.signalled) (htaken : u.taken = s.taken)
    (hrefused : u.refused = s.refused) (hsignaller : u.signaller = s.signaller)
    (hlt : s.taken < s.signalled)
    (hcount : u.count = s.signalled - s.taken - 1)
    (hclean : u.kernel + u.signaller.posting = 0) : Balanced u.succeed where
  assertion := hassert.trans h.assertion
  taken_le := by
    simp only [State.succeed, hsignalled, htaken]
    exact hlt
  giving := by
    simp only [State.succeed, hsignaller]
    exact h.giving
  count := by
    simp only [State.succeed, hsignalled, htaken, WaiterPc.announced]
    omega
  posted := fun hengaged => hengaged.elim
  clean := fun _ => hclean
  promised := fun hpromised => hpromised.elim
  refused := by
    simp only [State.succeed, hrefused]
    exact h.refused

theorem refuse (h : Balanced s) {u : State} (hassert : u.assertionFailed = s.assertionFailed)
    (hsignalled : u.signalled = s.signalled) (htaken : u.taken = s.taken)
    (hrefused : u.refused = s.refused) (hsignaller : u.signaller = s.signaller)
    (heq : s.taken = s.signalled) (hcount : u.count = 0)
    (hclean : u.kernel + u.signaller.posting = 0) : Balanced u.refuse where
  assertion := hassert.trans h.assertion
  taken_le := by
    simp only [State.refuse, hsignalled, htaken]
    exact h.taken_le
  giving := by
    simp only [State.refuse, hsignaller]
    exact h.giving
  count := by
    simp only [State.refuse, hcount, hsignalled, htaken, WaiterPc.announced]
    omega
  posted := fun hengaged => hengaged.elim
  clean := fun _ => hclean
  promised := fun hpromised => hpromised.elim
  refused := by
    simp only [State.refuse, hrefused, hsignalled, htaken]
    exact forall_mem_concat h.refused heq.symm

theorem move (h : Balanced s) {pc : WaiterPc} {count : ℤ}
    (hcount : count = s.signalled - s.taken - pc.announced)
    (hposted : pc.Engaged → s.taken < s.signalled → s.kernel + s.signaller.posting = 1)
    (hclean : (pc.Engaged → s.taken = s.signalled) → s.kernel + s.signaller.posting = 0)
    (hpromised : pc.Promised → s.taken < s.signalled) :
    Balanced { s with count := count, waiter := pc } where
  assertion := h.assertion
  taken_le := h.taken_le
  giving := h.giving
  count := hcount
  posted := hposted
  clean := hclean
  promised := hpromised
  refused := h.refused

theorem waiterStep (h : Balanced s) {expired : Bool} (hs : s.waiterStep expired = some t) :
    Balanced t := by
  have hle := h.taken_le
  have hcount := h.count
  have hposted := h.posted
  have hclean := h.clean
  have hpromised := h.promised
  unfold State.waiterStep at hs
  cases hpc : s.waiter with
  | idle => simp [hpc] at hs
  | returned success => simp [hpc] at hs
  | load op =>
    simp only [hpc, WaiterPc.announced] at hs hcount
    have hempty := hclean (by simp [hpc, WaiterPc.Engaged])
    split at hs
    · cases hs
      exact h.move hcount (fun hengaged => hengaged.elim) (fun _ => hempty) fun _ => by omega
    · split at hs <;> cases hs
      · exact h.refuse rfl rfl rfl rfl rfl (by omega) (by omega) hempty
      · exact h.move hcount (fun hengaged => hengaged.elim) (fun _ => hempty)
          fun hpromised => hpromised.elim
  | take =>
    simp only [hpc, WaiterPc.announced] at hs hcount
    have hempty := hclean (by simp [hpc, WaiterPc.Engaged])
    have hlt := hpromised (by simp [hpc, WaiterPc.Promised])
    cases hs
    exact h.succeed rfl rfl rfl rfl rfl hlt (by simp only; omega) hempty
  | spin timeout rounds =>
    simp only [hpc, WaiterPc.announced] at hs hcount
    have hempty := hclean (by simp [hpc, WaiterPc.Engaged])
    cases rounds with
    | zero =>
      simp only at hs
      split at hs <;> cases hs
      · exact h.succeed rfl rfl rfl rfl rfl (by omega) (by simp only; omega) hempty
      · -- none is left, so the kernel has none for the waiter that announces itself
        split
        · exact h.move (by simp only [WaiterPc.announced]; omega) (fun _ _ => by omega)
            (fun _ => hempty) fun hpromised => hpromised.elim
        · exact h.move (by simp only [WaiterPc.announced]; omega) (fun _ _ => by omega)
            (fun _ => hempty) fun hpromised => hpromised.elim
    | succ rounds =>
      cases hs
      split
      · exact h.move hcount (fun hengaged => hengaged.elim) (fun _ => hempty) fun _ => by omega
      · exact h.move hcount (fun hengaged => hengaged.elim) (fun _ => hempty)
          fun hpromised => hpromised.elim
  | kernelWait timeout =>
    simp only [hpc, WaiterPc.announced] at hs hcount
    have hengaged : s.waiter.Engaged := by simp [hpc, WaiterPc.Engaged]
    split at hs
    · split at hs <;> cases hs
      exact h.move hcount (fun _ => hposted hengaged) (fun heq => hclean fun _ => heq trivial)
        fun hpromised => hpromised.elim
    · split at hs <;> cases hs
      have hlt : s.taken < s.signalled := by
        by_contra hnot
        have hzero := hclean fun _ => by omega
        omega
      have hone := hposted hengaged hlt
      exact h.succeed rfl rfl rfl rfl rfl hlt (by simp only; omega) (by simp only; omega)
  | restore =>
    simp only [hpc, WaiterPc.announced] at hs hcount
    have hengaged : s.waiter.Engaged := by simp [hpc, WaiterPc.Engaged]
    split at hs <;> cases hs
    · exact h.refuse rfl rfl rfl rfl rfl (by omega) (by simp only; omega) (hclean fun _ => by omega)
    · exact h.move (by simp only [WaiterPc.announced]; omega) (fun _ => hposted hengaged)
        (fun heq => hclean fun _ => heq trivial) fun _ => by omega
  | retake =>
    simp only [hpc, WaiterPc.announced] at hs hcount
    have hengaged : s.waiter.Engaged := by simp [hpc, WaiterPc.Engaged]
    have hlt := hpromised (by simp [hpc, WaiterPc.Promised])
    cases hs
    rw [if_pos (by omega)]
    exact h.move (by simp only [WaiterPc.announced]; omega) (fun _ => hposted hengaged)
      (fun heq => hclean fun _ => heq trivial) fun _ => hlt
  | tryKernel =>
    simp only [hpc, WaiterPc.announced] at hs hcount
    have hengaged : s.waiter.Engaged := by simp [hpc, WaiterPc.Engaged]
    have hlt := hpromised (by simp [hpc, WaiterPc.Promised])
    have hone := hposted hengaged hlt
    split at hs <;> cases hs
    · exact h.succeed rfl rfl rfl rfl rfl hlt (by simp only; omega) (by simp only; omega)
    · exact h.move (by simp only [WaiterPc.announced]; omega) (fun _ => hposted hengaged)
        (fun heq => hclean fun _ => heq trivial) fun hpromised => hpromised.elim

theorem signallerStep (h : Balanced s) (hs : s.signallerStep = some t) : Balanced t := by
  have hle := h.taken_le
  have hcount := h.count
  have hposted := h.posted
  have hclean := h.clean
  have hone : s.waiter.announced ≤ 1 := by
    cases s.waiter <;> simp [WaiterPc.announced]
  unfold State.signallerStep at hs
  cases hpc : s.signaller with
  | idle => simp [hpc] at hs
  | add more =>
    have hmore := h.giving more hpc
    simp only [hpc, SignallerPc.posting, Nat.add_zero, Option.some.injEq] at hs hposted hclean
    subst hs
    have hlow : s.count < 0 → s.waiter.announced = 1 ∧ s.taken = s.signalled := by
      intro hneg
      omega
    refine ⟨?_, Nat.le_add_right_of_le hle, ?_, ?_, ?_, ?_, ?_, h.refused⟩
    · simp only [h.assertion, Bool.false_or, decide_eq_false_iff_not]
      omega
    · simp only
      split <;> simp
    · simp only
      push_cast
      omega
    · -- the first unit for a waiter that has announced itself goes to the kernel
      intro hengaged hlt
      change s.kernel + SignallerPc.posting (if s.count < 0 then .post else .idle) = 1
      by_cases hneg : s.count < 0
      · rw [if_pos hneg, hclean fun _ => (hlow hneg).2]
        rfl
      · rw [if_neg hneg]
        refine hposted hengaged ?_
        by_contra hnot
        have hannounced : s.waiter.announced = 1 := by
          cases hwaiter : s.waiter with
          | retake =>
            have hpromised := h.promised
            rw [hwaiter] at hpromised
            exact absurd (hpromised trivial) hnot
          | kernelWait | restore | tryKernel => rfl
          | _ => simp [hwaiter, WaiterPc.Engaged] at hengaged
        omega
    · intro himp
      change s.kernel + SignallerPc.posting (if s.count < 0 then .post else .idle) = 0
      have hfree : ¬ s.waiter.Engaged := by
        intro hengaged
        have heq : s.taken = s.signalled + more := himp hengaged
        omega
      have hzero : s.waiter.announced = 0 := by
        cases hwaiter : s.waiter <;> simp_all [WaiterPc.Engaged, WaiterPc.announced]
      rw [if_neg (by omega)]
      exact hclean fun hengaged => absurd hengaged hfree
    · exact fun hpromised => Nat.lt_add_right more (h.promised hpromised)
  | post =>
    simp only [hpc, SignallerPc.posting, Option.some.injEq] at hs hposted hclean
    subst hs
    exact ⟨h.assertion, hle, by simp, hcount, hposted, hclean, h.promised, h.refused⟩

theorem startSignal (h : Balanced s) (hpc : s.signaller = .idle) {count : ℕ} (hcount : 0 < count) :
    Balanced (s.startSignal count) := by
  have hposted := h.posted
  have hclean := h.clean
  rw [hpc] at hposted hclean
  refine { h with giving := ?_, posted := hposted, clean := hclean }
  rintro _ ⟨rfl⟩
  exact hcount

theorem next {label : Label} (h : Balanced s) (hgives : Gives s label)
    (hs : next s label = some t) : Balanced t := by
  cases label with
  | wait op =>
    simp only [LightSemaphores.next] at hs
    split at hs <;> rename_i hpc <;> cases hs
    · exact h.startWait (.inl hpc) op
    · exact h.startWait (.inr ⟨_, hpc⟩) op
  | waiter expired => exact h.waiterStep hs
  | signal count =>
    simp only [LightSemaphores.next] at hs
    split at hs <;> rename_i hpc <;> cases hs
    exact h.startSignal hpc hgives
  | signaller => exact h.signallerStep hs

end Balanced

theorem waiterStep_cases {s t : State} {expired : Bool} (hs : s.waiterStep expired = some t) :
    t.signaller = s.signaller ∧ t.signalled = s.signalled ∧
      (t.waiter = .returned true ∧ t.taken = s.taken + 1 ∨
        t.waiter = .returned false ∧ t.taken = s.taken ∧ (t.signalled, t.taken) ∈ t.refused ∨
        (∀ success, t.waiter ≠ .returned success) ∧ t.waiter ≠ .idle ∧ t.taken = s.taken) := by
  unfold State.waiterStep at hs
  split at hs
  · cases hs
  · cases hs
  · split at hs
    · cases hs
      simp
    · split at hs <;> cases hs <;> simp [State.refuse]
  · cases hs
    simp [State.succeed]
  · cases hs
    simp only
    split <;> simp
  · split at hs <;> cases hs
    · simp [State.succeed]
    · simp only
      split <;> simp
  · split at hs
    · split at hs <;> cases hs
      simp
    · split at hs <;> cases hs
      simp [State.succeed]
  · split at hs <;> cases hs <;> simp [State.refuse]
  · cases hs
    simp only
    split <;> simp
  · split at hs <;> cases hs <;> simp [State.succeed]

theorem signallerStep_cases {s t : State} (hs : s.signallerStep = some t) :
    t.waiter = s.waiter ∧ t.taken = s.taken ∧
      ((∃ count, s.signaller = .add count ∧ t.signalled = s.signalled + count) ∧
          (∀ count, t.signaller ≠ .add count) ∨
        s.signaller = .post ∧ t.signalled = s.signalled ∧ t.signaller = .idle) := by
  unfold State.signallerStep at hs
  split at hs <;> rename_i hpc <;> cases hs
  · refine ⟨rfl, rfl, .inl ⟨⟨_, hpc, rfl⟩, ?_⟩⟩
    simp only
    split <;> simp
  · exact ⟨rfl, rfl, .inr ⟨hpc, rfl, rfl⟩⟩

theorem balanced_reachable {initialCount : ℕ} {s : State}
    (h : Reachable (guarded Gives next) (make initialCount) s) : Balanced s :=
  h.invariant (balanced_make initialCount) fun _ _ _ hu hv =>
    have ⟨hgives, hnext⟩ := guarded_eq_some.mp hv
    hu.next hgives hnext

/-- A wait spins in vain, and sleeps until its time is up. The unit that comes in between is still
taken, and there is none for the call after it. -/
private def wokenSchedule : List Label :=
  .wait (.wait 5) :: List.replicate 1026 (.waiter false) ++
    [.signal 1, .signaller, .waiter true, .waiter false, .waiter false, .signaller, .waiter false,
      .wait .tryWait, .waiter false]

/-- A signal of no unit posts one all the same when it finds a sleeper, which takes it. -/
example : (run next (make 0) (wokenSchedule.take 1027 ++
    [.signal 0, .signaller, .signaller, .waiter false])).map (fun s => (s.taken, s.signalled)) =
      some (1, 0) := by decide +kernel

theorem waiter_stuck {s : State} (h : Balanced s) (hsignaller : s.signaller ≠ .post)
    (hidle : s.waiter ≠ .idle) (hbusy : ∀ success, s.waiter ≠ .returned success)
    (hstuck : s.waiterStep false = none) : s.taken = s.signalled := by
  by_contra hne
  have hposting : s.signaller.posting = 0 := by
    cases hpc : s.signaller <;> simp_all [SignallerPc.posting]
  have hkernel : s.waiter.Engaged → 0 < s.kernel := by
    intro hengaged
    have hone := h.posted hengaged (Nat.lt_of_le_of_ne h.taken_le hne)
    omega
  unfold State.waiterStep at hstuck
  cases hpc : s.waiter with
  | idle => exact hidle hpc
  | returned success => exact hbusy success hpc
  | load op =>
    simp only [hpc] at hstuck
    split at hstuck
    · cases hstuck
    · split at hstuck <;> cases hstuck
  | spin timeout rounds =>
    cases rounds with
    | zero =>
      simp only [hpc] at hstuck
      split at hstuck <;> cases hstuck
    | succ rounds => simp [hpc] at hstuck
  | kernelWait timeout =>
    have hpos := hkernel (by simp [hpc, WaiterPc.Engaged])
    simp [hpc, hpos] at hstuck
  | restore =>
    simp only [hpc] at hstuck
    split at hstuck <;> cases hstuck
  | tryKernel =>
    simp only [hpc] at hstuck
    split at hstuck <;> cases hstuck
  | _ => simp [hpc] at hstuck

def WaiterPc.Limited : WaiterPc → Prop
  | .load (.wait timeout) => 0 ≤ timeout
  | .spin timeout rounds => 0 ≤ timeout ∧ rounds ≤ 1024
  | .kernelWait timeout => 0 < timeout
  | _ => True

def WaiterPc.remaining : WaiterPc → ℕ
  | .idle | .returned _ => 0
  | .take | .tryKernel => 1
  | .retake => 2
  | .restore => 3
  | .kernelWait _ => 4
  | .spin _ rounds => rounds + 5
  | .load _ => 1030

theorem WaiterPc.Limited.remaining_le {pc : WaiterPc} (h : pc.Limited) : pc.remaining ≤ 1030 := by
  cases pc with
  | spin timeout rounds =>
    have hle := h.2
    simp only [WaiterPc.remaining]
    omega
  | _ => simp [WaiterPc.remaining]

theorem WaiterPc.remaining_ne_zero {pc : WaiterPc} (hidle : pc ≠ .idle)
    (hbusy : ∀ success, pc ≠ .returned success) : pc.remaining ≠ 0 := by
  cases pc with
  | idle => exact absurd rfl hidle
  | returned success => exact absurd rfl (hbusy success)
  | _ => simp [WaiterPc.remaining]

theorem waiterStep_limited {s t : State} {expired : Bool} (hlimited : s.waiter.Limited)
    (hs : s.waiterStep expired = some t) : t.waiter.Limited := by
  unfold State.waiterStep at hs
  split at hs <;> rename_i hpc <;> rw [hpc] at hlimited
  · cases hs
  · cases hs
  · split at hs
    · cases hs
      trivial
    · split at hs <;> cases hs
      · trivial
      · exact ⟨hlimited, Nat.le_refl _⟩
  · cases hs
    trivial
  · cases hs
    simp only
    split
    · trivial
    · exact ⟨hlimited.1, Nat.le_of_succ_le hlimited.2⟩
  · split at hs <;> cases hs
    · trivial
    · simp only
      split
      · trivial
      · rename_i timeout _ hne
        have hnonneg : 0 ≤ timeout := hlimited.1
        exact show 0 < timeout by omega
  · split at hs
    · split at hs <;> cases hs
      trivial
    · split at hs <;> cases hs
      trivial
  · split at hs <;> cases hs <;> trivial
  · cases hs
    simp only
    split <;> trivial
  · split at hs <;> cases hs <;> trivial

/-- A step of a wait whose time is up: while the signaller is not about to post, it brings the wait
nearer to its end, which is a unit when there is one left. -/
theorem Balanced.waiterStep_ends {s : State} (h : Balanced s) (hsignaller : s.signaller ≠ .post)
    (hlimited : s.waiter.Limited) (hrest : s.waiter.remaining ≠ 0) :
    ∃ t, s.waiterStep true = some t ∧ t.waiter.Limited ∧
      t.waiter.remaining < s.waiter.remaining ∧
      (t.waiter.remaining = 0 → t.waiter = .returned (decide (s.taken < s.signalled))) := by
  have hcount := h.count
  have hle := h.taken_le
  have hposting : s.signaller.posting = 0 := by
    cases hpc : s.signaller <;> simp_all [SignallerPc.posting]
  have hkernel : s.taken < s.signalled → s.waiter.Engaged → 0 < s.kernel := by
    intro hlt hengaged
    have hone := h.posted hengaged hlt
    omega
  have hpromised := h.promised
  unfold State.waiterStep
  cases hpc : s.waiter with
  | idle => simp [hpc, WaiterPc.remaining] at hrest
  | returned success => simp [hpc, WaiterPc.remaining] at hrest
  | load op =>
    simp only [hpc, WaiterPc.announced] at hcount
    by_cases hpos : 0 < s.count
    · refine ⟨_, if_pos hpos, trivial, ?_, ?_⟩ <;> simp [WaiterPc.remaining]
    · cases op with
      | tryWait =>
        have hnone : ¬ s.taken < s.signalled := by omega
        refine ⟨s.refuse, if_neg hpos, trivial, ?_, ?_⟩ <;>
          simp [State.refuse, WaiterPc.remaining, hnone]
      | wait timeout =>
        rw [hpc] at hlimited
        refine ⟨_, if_neg hpos, ⟨hlimited, Nat.le_refl _⟩, ?_, ?_⟩ <;> simp [WaiterPc.remaining]
  | take =>
    have hlt := hpromised (by simp [hpc, WaiterPc.Promised])
    refine ⟨_, rfl, trivial, ?_, ?_⟩ <;> simp [State.succeed, WaiterPc.remaining, hlt]
  | spin timeout rounds =>
    simp only [hpc, WaiterPc.announced] at hcount
    rw [hpc] at hlimited
    cases rounds with
    | zero =>
      by_cases hpos : 0 < s.count
      · have hlt : s.taken < s.signalled := by omega
        refine ⟨_, if_pos hpos, trivial, ?_, ?_⟩ <;> simp [State.succeed, WaiterPc.remaining, hlt]
      · refine ⟨_, if_neg hpos, ?_, ?_, ?_⟩
        · simp only
          split
          · trivial
          · have hnonneg : 0 ≤ timeout := hlimited.1
            exact show 0 < timeout by omega
        · simp only
          split <;> simp [WaiterPc.remaining]
        · simp only
          split <;> simp [WaiterPc.remaining]
    | succ rounds =>
      refine ⟨_, rfl, ?_, ?_, ?_⟩
      · simp only
        split
        · trivial
        · exact ⟨hlimited.1, Nat.le_of_succ_le hlimited.2⟩
      · simp only
        split <;> simp [WaiterPc.remaining]
      · simp only
        split <;> simp [WaiterPc.remaining]
  | kernelWait timeout =>
    rw [hpc] at hlimited
    refine ⟨{ s with waiter := .restore }, ?_, trivial, ?_, ?_⟩
    · have hpos : 0 < timeout := hlimited
      simp [hpos]
    · simp [WaiterPc.remaining]
    · simp [WaiterPc.remaining]
  | restore =>
    simp only [hpc, WaiterPc.announced] at hcount
    by_cases hneg : s.count < 0
    · have hnone : ¬ s.taken < s.signalled := by omega
      refine ⟨_, if_pos hneg, trivial, ?_, ?_⟩ <;> simp [State.refuse, WaiterPc.remaining, hnone]
    · refine ⟨_, if_neg hneg, trivial, ?_, ?_⟩ <;> simp [WaiterPc.remaining]
  | retake =>
    have hlt := hpromised (by simp [hpc, WaiterPc.Promised])
    simp only [hpc, WaiterPc.announced] at hcount
    have hpos : 0 < s.count := by omega
    refine ⟨_, rfl, ?_, ?_, ?_⟩ <;> simp [hpos, WaiterPc.remaining, WaiterPc.Limited]
  | tryKernel =>
    have hlt := hpromised (by simp [hpc, WaiterPc.Promised])
    have hpos := hkernel hlt (by simp [hpc, WaiterPc.Engaged])
    refine ⟨_, if_pos hpos, trivial, ?_, ?_⟩ <;> simp [State.succeed, WaiterPc.remaining, hlt]

structure Ending (s u : State) : Prop where
  balanced : Balanced u
  signaller : u.signaller ≠ .post
  limited : u.waiter.Limited
  same : u.waiter.remaining ≠ 0 → u.taken = s.taken ∧ u.signalled = s.signalled
  outcome : u.waiter.remaining = 0 → u.waiter = .returned (decide (s.taken < s.signalled))

theorem Ending.step {s u : State} (h : Ending s u) (hne : u.waiter.remaining ≠ 0) :
    ∃ v, next u (.waiter true) = some v ∧ Ending s v ∧ v.waiter.remaining < u.waiter.remaining := by
  obtain ⟨v, hv, hlimited, hlt, hend⟩ := h.balanced.waiterStep_ends h.signaller h.limited hne
  obtain ⟨htaken, hsignalled⟩ := h.same hne
  obtain ⟨hkept, hsame, heffect⟩ := waiterStep_cases hv
  have hnext : next u (.waiter true) = some v := hv
  refine ⟨v, hnext, ⟨h.balanced.waiterStep hv, hkept ▸ h.signaller, hlimited, ?_, ?_⟩, hlt⟩
  · intro hrest
    rcases heffect with ⟨hret, -⟩ | ⟨hret, -, -⟩ | ⟨-, -, htaken'⟩
    · simp [hret, WaiterPc.remaining] at hrest
    · simp [hret, WaiterPc.remaining] at hrest
    · exact ⟨htaken'.trans htaken, hsame.trans hsignalled⟩
  · intro hrest
    rw [hend hrest, htaken, hsignalled]

end MessagePass.LightSemaphores
