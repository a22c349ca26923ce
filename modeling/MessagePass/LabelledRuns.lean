import Mathlib.Data.List.Infix
import Mathlib.Data.Nat.Find
import Mathlib.Logic.Function.Iterate

/-!
# Runs of partial labelled machines

A machine is a partial step function driven by labels. The label says which party moves and
settles every choice the party has, so a schedule is a list of labels and a state is reachable
when some schedule leads to it. Programs, channels and failures are all labels of one machine;
a law about every interleaving is an invariant of the step function.
-/
namespace MessagePass.LabelledRuns

variable {σ α : Type*}

/-- The state after a whole schedule, provided every label was enabled when its turn came. -/
def run (next : σ → α → Option σ) (s : σ) : List α → Option σ
  | [] => some s
  | a :: as => (next s a).bind fun t => run next t as

@[simp] theorem run_nil (next : σ → α → Option σ) (s : σ) : run next s [] = some s := rfl

@[simp] theorem run_cons (next : σ → α → Option σ) (s : σ) (a : α) (as : List α) :
    run next s (a :: as) = (next s a).bind fun t => run next t as := rfl

theorem run_append (next : σ → α → Option σ) (s : σ) (as bs : List α) :
    run next s (as ++ bs) = (run next s as).bind fun t => run next t bs := by
  induction as generalizing s with
  | nil => rfl
  | cons a as ih =>
    cases h : next s a with
    | none => simp [h]
    | some t => simp [h, ih]

theorem run_concat_eq_some {next : σ → α → Option σ} {s u : σ} {as : List α} {a : α} :
    run next s (as ++ [a]) = some u ↔ ∃ t, run next s as = some t ∧ next t a = some u := by
  simp [run_append, Option.bind_eq_some_iff]

/-- Some schedule leads from the first state to the second. -/
def Reachable (next : σ → α → Option σ) (s t : σ) : Prop := ∃ as, run next s as = some t

namespace Reachable
variable {next : σ → α → Option σ} {s t u : σ}

theorem refl (s : σ) : Reachable next s s := ⟨[], rfl⟩

theorem tail {a : α} (h : Reachable next s t) (hs : next t a = some u) : Reachable next s u := by
  obtain ⟨as, hr⟩ := h
  exact ⟨as ++ [a], run_concat_eq_some.mpr ⟨t, hr, hs⟩⟩

theorem trans (h : Reachable next s t) (h' : Reachable next t u) : Reachable next s u := by
  obtain ⟨as, hr⟩ := h
  obtain ⟨bs, hr'⟩ := h'
  exact ⟨as ++ bs, by simp [run_append, hr, hr']⟩

/-- What holds at the start and is kept by every step holds in every reachable state. -/
theorem invariant {I : σ → Prop} (h : Reachable next s t) (h0 : I s)
    (hstep : ∀ u a v, I u → next u a = some v → I v) : I t := by
  obtain ⟨as, hr⟩ := h
  induction as using List.reverseRecOn generalizing t with
  | nil => cases hr; exact h0
  | append_singleton as a ih =>
    obtain ⟨u, hu, ha⟩ := run_concat_eq_some.mp hr
    exact hstep u a t (ih hu) ha

theorem invariant_with {J I : σ → Prop} (h : Reachable next s t)
    (hJ : ∀ u, Reachable next s u → J u) (h0 : I s)
    (hstep : ∀ u a v, J u → I u → next u a = some v → I v) : I t := by
  have hboth : I t ∧ Reachable next s t :=
    h.invariant (I := fun u => I u ∧ Reachable next s u) ⟨h0, .refl s⟩
      fun u a v hu hv => ⟨hstep u a v (hJ u hu.2) hu.1 hv, hu.2.tail hv⟩
  exact hboth.1

end Reachable

/-- The machine restricted to the steps that meet a condition on the state before them. -/
def guarded (G : σ → α → Prop) [∀ s a, Decidable (G s a)] (next : σ → α → Option σ) :
    σ → α → Option σ :=
  fun s a => if G s a then next s a else none

section Guarded
variable {G : σ → α → Prop} [∀ s a, Decidable (G s a)] {next : σ → α → Option σ}

theorem guarded_eq_some {s t : σ} {a : α} :
    guarded G next s a = some t ↔ G s a ∧ next s a = some t := by
  by_cases h : G s a <;> simp [guarded, h]

theorem Reachable.of_guarded {s t : σ} (h : Reachable (guarded G next) s t) :
    Reachable next s t :=
  h.invariant (.refl s) fun _ _ _ hu hv => hu.tail (guarded_eq_some.mp hv).2

end Guarded

theorem forall_mem_concat {P : α → Prop} {log : List α} {entry : α} (h : ∀ a ∈ log, P a)
    (hentry : P entry) : ∀ a ∈ log ++ [entry], P a :=
  List.forall_mem_append.mpr ⟨h, List.forall_mem_singleton.mpr hentry⟩

/-- Forward simulation: when every concrete step is matched by some abstract schedule that
restores the relation, every reachable concrete state is related to a reachable abstract one. -/
theorem Reachable.simulates {τ γ : Type*} {next : σ → α → Option σ} {next' : τ → γ → Option τ}
    {R : σ → τ → Prop} {s t : σ} {s' : τ} (h : Reachable next s t) (h0 : R s s')
    (hstep : ∀ u a v u', R u u' → next u a = some v → ∃ v', Reachable next' u' v' ∧ R v v') :
    ∃ t', Reachable next' s' t' ∧ R t t' := by
  refine h.invariant (I := fun u => ∃ u', Reachable next' s' u' ∧ R u u') ⟨s', .refl s', h0⟩ ?_
  rintro u a v ⟨u', hu', hR⟩ hv
  obtain ⟨v', hv', hR'⟩ := hstep u a v u' hR hv
  exact ⟨v', hu'.trans hv', hR'⟩

/-- A measure that every step of one party lowers until it is zero bounds the steps it takes to get
there. -/
theorem exists_run_to_zero (next : σ → α → Option σ) (a : α) (I : σ → Prop) (μ : σ → ℕ) {s : σ}
    (hstep : ∀ u, I u → μ u ≠ 0 → ∃ v, next u a = some v ∧ I v ∧ μ v < μ u) (hs : I s) :
    ∃ steps ≤ μ s, ∃ t, run next s (List.replicate steps a) = some t ∧ I t ∧ μ t = 0 := by
  induction hμ : μ s using Nat.strong_induction_on generalizing s with
  | _ m ih =>
    subst hμ
    by_cases hzero : μ s = 0
    · exact ⟨0, Nat.zero_le _, s, rfl, hs, hzero⟩
    · obtain ⟨u, hnext, hu, hlt⟩ := hstep s hs hzero
      obtain ⟨steps, hsteps, t, hrun, ht⟩ := ih _ hlt hu rfl
      exact ⟨steps + 1, by omega, t, by simp [List.replicate_succ, hnext, hrun], ht⟩

section Ranked
variable {τ : Type*} {next : σ → α → Option σ} {labels : ℕ → α} {prompt : ℕ → Bool}
variable {f : σ → τ} {g : τ → τ} {I : σ → Prop} {rank : σ → ℕ} {s : σ}

/-- A step shows as a step of the abstract function, or it shows as nothing and lowers the rank. -/
def Moves (f : σ → τ) (g : τ → τ) (rank : σ → ℕ) (u v : σ) : Prop :=
  f v = g (f u) ∨ f v = f u ∧ rank v < rank u

theorem exists_run_to_move
    (hstep : ∀ u m, I u → ∃ v, next u (labels m) = some v ∧ I v ∧
      (Moves f g rank u v ∨ v = u ∧ prompt m = false))
    (hprompt : ∀ m, ∃ k ≥ m, prompt k = true) (hs : I s) (m : ℕ) :
    ∃ waits u, (List.range' m waits).countP prompt = 0 ∧
      run next s ((List.range' m waits).map labels) = some s ∧
      next s (labels (m + waits)) = some u ∧ I u ∧ Moves f g rank s u := by
  obtain ⟨k, hle, hk⟩ := hprompt m
  obtain ⟨distance, rfl⟩ := Nat.exists_eq_add_of_le hle
  clear hle
  induction distance generalizing m with
  | zero =>
    obtain ⟨u, hnext, hu, hmove | ⟨-, hwait⟩⟩ := hstep s m hs
    · exact ⟨0, u, rfl, rfl, hnext, hu, hmove⟩
    · simp [hwait] at hk
  | succ distance ih =>
    obtain ⟨u, hnext, hu, hmove | ⟨rfl, hwait⟩⟩ := hstep s m hs
    · exact ⟨0, u, rfl, rfl, hnext, hu, hmove⟩
    · obtain ⟨waits, v, hcount, hrun, hnext', hv⟩ := ih (m + 1) (by rwa [Nat.add_right_comm])
      refine ⟨waits + 1, v, ?_, ?_, ?_, hv⟩
      · simp [List.range'_succ, hwait, hcount]
      · simp [List.range'_succ, hnext, hrun]
      · rwa [Nat.add_assoc, Nat.add_comm 1] at hnext'

/-- A step of the function is reached within the rank, the turns at which the party waits apart. -/
theorem exists_run_to_step
    (hstep : ∀ u m, I u → ∃ v, next u (labels m) = some v ∧ I v ∧
      (Moves f g rank u v ∨ v = u ∧ prompt m = false))
    (hprompt : ∀ m, ∃ k ≥ m, prompt k = true) (hs : I s) (m : ℕ) :
    ∃ steps t, (List.range' m steps).countP prompt ≤ rank s + 1 ∧
      run next s ((List.range' m steps).map labels) = some t ∧ I t ∧ f t = g (f s) := by
  induction hr : rank s using Nat.strong_induction_on generalizing s m with
  | _ r ih =>
    subst hr
    obtain ⟨waits, u, hcount, hrun, hnext, hu, hmove⟩ := exists_run_to_move hstep hprompt hs m
    have hcount' : (List.range' m (waits + 1)).countP prompt ≤ 1 := by
      rw [List.range'_1_concat, List.countP_append, hcount, Nat.zero_add]
      exact List.countP_le_length
    have hrun' : run next s ((List.range' m (waits + 1)).map labels) = some u := by
      rw [List.range'_1_concat, List.map_append, run_append, hrun]
      simp [hnext]
    rcases hmove with hdone | ⟨hsame, hlt⟩
    · exact ⟨waits + 1, u, by omega, hrun', hu, hdone⟩
    · obtain ⟨steps, t, hless, hrest, ht, hdone⟩ := ih _ hlt hu (m + (waits + 1)) rfl
      refine ⟨waits + 1 + steps, t, ?_, ?_, ht, hdone.trans (by rw [hsame])⟩
      · rw [← List.range'_append_1, List.countP_append]
        omega
      · rw [← List.range'_append_1, List.map_append, run_append, hrun']
        exact hrest

theorem exists_run_to_iterate {bound : ℕ}
    (hstep : ∀ u m, I u → ∃ v, next u (labels m) = some v ∧ I v ∧
      (Moves f g rank u v ∨ v = u ∧ prompt m = false))
    (hprompt : ∀ m, ∃ k ≥ m, prompt k = true) (hrank : ∀ u, I u → rank u ≤ bound) (hs : I s)
    (n : ℕ) :
    ∃ steps t, (List.range steps).countP prompt ≤ n * (bound + 1) ∧
      run next s ((List.range steps).map labels) = some t ∧ I t ∧ f t = g^[n] (f s) := by
  induction n with
  | zero => exact ⟨0, s, Nat.zero_le _, rfl, hs, rfl⟩
  | succ n ih =>
    obtain ⟨steps, u, hcount, hrun, hu, hdone⟩ := ih
    obtain ⟨more, t, hcount', hrun', ht, hdone'⟩ := exists_run_to_step hstep hprompt hu steps
    have hbound := hrank u hu
    have hsplit : List.range (steps + more) = List.range steps ++ List.range' steps more := by
      simp only [List.range_eq_range', ← List.range'_append_1, Nat.zero_add]
    refine ⟨steps + more, t, ?_, ?_, ht, ?_⟩
    · rw [hsplit, List.countP_append, Nat.succ_mul]
      omega
    · rw [hsplit, List.map_append, run_append, hrun]
      exact hrun'
    · rw [hdone', hdone, Function.iterate_succ_apply']

end Ranked

/-- An infinite run of a machine under a schedule. -/
def Execution (next : σ → α → Option σ) (states : ℕ → σ) (labels : ℕ → α) : Prop :=
  ∀ n, next (states n) (labels n) = some (states (n + 1))

/-- What holds now and is kept until the turn of a party comes still holds when it comes. -/
theorem exists_turn {states : ℕ → σ} {P : σ → Prop} {turn : ℕ → Prop} {m : ℕ}
    (hkeep : ∀ n ≥ m, ¬ turn n → P (states n) → P (states (n + 1)))
    (hturn : ∃ n ≥ m, turn n) (hm : P (states m)) : ∃ n ≥ m, turn n ∧ P (states n) := by
  classical
  obtain ⟨hle, hnow⟩ := Nat.find_spec hturn
  refine ⟨Nat.find hturn, hle, hnow, ?_⟩
  have hbefore : ∀ n ≥ m, n ≤ Nat.find hturn → P (states n) := by
    intro n hn
    induction n, hn using Nat.le_induction with
    | base => exact fun _ => hm
    | succ n hn ih =>
      intro hlt
      exact hkeep n hn (fun hearlier => Nat.find_min hturn hlt ⟨hn, hearlier⟩)
        (ih (Nat.le_of_succ_le hlt))
  exact hbefore _ hle (Nat.le_refl _)

end MessagePass.LabelledRuns
