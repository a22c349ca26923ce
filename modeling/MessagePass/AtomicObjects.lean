import MessagePass.LabelledRuns
import Mathlib.Logic.Function.Basic

/-!
# Atomic objects

An object that several parties use at once, as they would like it to be: each call takes effect in
one step between its invocation and its response, by the rules of a sequential specification. A
concurrent program implements the object when every history of invocations and responses that it
shows is a history of the object.
-/
namespace MessagePass.AtomicObjects
open LabelledRuns

variable {ι σ τ α γ Call Result : Type*}

inductive Event (ι Call Result : Type*)
  | invoke (p : ι) (call : Call)
  | respond (p : ι) (result : Result)

/-- Where a party stands: the effect of its call is still to come, or only the response is. -/
inductive Port (Call Result : Type*)
  | idle
  | called (call : Call)
  | done (result : Result)

structure State (ι σ Call Result : Type*) where
  object : σ
  port : ι → Port Call Result
  history : List (Event ι Call Result)

def initial (object : σ) : State ι σ Call Result where
  object := object
  port := fun _ => .idle
  history := []

inductive Label (ι Call γ : Type*)
  | invoke (p : ι) (call : Call)
  | perform (p : ι) (choice : γ)
  | respond (p : ι)

/-- The specification gives the next state of the object and the result, or says that the call must
wait. -/
def next [DecidableEq ι] (spec : σ → Call → γ → Option (σ × Result)) (s : State ι σ Call Result) :
    Label ι Call γ → Option (State ι σ Call Result)
  | .invoke p call =>
      match s.port p with
      | .idle =>
          some { s with
            port := Function.update s.port p (.called call)
            history := s.history ++ [.invoke p call] }
      | _ => none
  | .perform p choice =>
      match s.port p with
      | .called call => (spec s.object call choice).map fun out =>
          { s with object := out.1, port := Function.update s.port p (.done out.2) }
      | _ => none
  | .respond p =>
      match s.port p with
      | .done result =>
          some { s with
            port := Function.update s.port p .idle
            history := s.history ++ [.respond p result] }
      | _ => none

section Steps
variable [DecidableEq ι] {spec : σ → Call → γ → Option (σ × Result)}
variable {object object' : σ} {port : ι → Port Call Result}
variable {history : List (Event ι Call Result)} {p : ι} {call : Call} {result : Result}

theorem reachable_invoke (hport : port p = .idle) :
    Reachable (next spec) ⟨object, port, history⟩
      ⟨object, Function.update port p (.called call), history ++ [.invoke p call]⟩ :=
  ⟨[.invoke p call], by simp [next, hport]⟩

theorem reachable_perform (choice : γ) (hport : port p = .called call)
    (hspec : spec object call choice = some (object', result)) :
    Reachable (next spec) ⟨object, port, history⟩
      ⟨object', Function.update port p (.done result), history⟩ :=
  ⟨[.perform p choice], by simp [next, hport, hspec]⟩

theorem reachable_respond (hport : port p = .done result) :
    Reachable (next spec) ⟨object, port, history⟩
      ⟨object, Function.update port p .idle, history ++ [.respond p result]⟩ :=
  ⟨[.respond p], by simp [next, hport]⟩

theorem reachable_perform_respond (choice : γ) (hport : port p = .called call)
    (hspec : spec object call choice = some (object', result)) :
    Reachable (next spec) ⟨object, port, history⟩
      ⟨object', Function.update port p .idle, history ++ [.respond p result]⟩ := by
  have hdone : Reachable (next spec) ⟨object', Function.update port p (.done result), history⟩
      ⟨object', Function.update (Function.update port p (.done result)) p .idle,
        history ++ [.respond p result]⟩ := reachable_respond (Function.update_self ..)
  rw [Function.update_idem] at hdone
  exact (reachable_perform choice hport hspec).trans hdone

end Steps

def observed {ε : Type*} (next : τ → α → Option τ) (event : τ → α → τ → Option ε)
    (s : τ × List ε) (a : α) : Option (τ × List ε) :=
  (next s.1 a).map fun t => (t, s.2 ++ (event s.1 a t).toList)

/-- Every history that the machine shows is a history of the atomic object. -/
def Implements [DecidableEq ι] (next' : τ → α → Option τ)
    (event : τ → α → τ → Option (Event ι Call Result)) (start : τ)
    (spec : σ → Call → γ → Option (σ × Result)) (object : σ) : Prop :=
  ∀ s history, Reachable (observed next' event) (start, []) (s, history) →
    ∃ a : State ι σ Call Result, Reachable (next spec) (initial object) a ∧ a.history = history

/-- The rule for implementations: the machine keeps an invariant, under which each of its steps is a
run of the object from what it represents before to what it represents afterwards. -/
theorem implements_of_view [DecidableEq ι] {next' : τ → α → Option τ}
    {event : τ → α → τ → Option (Event ι Call Result)} {start : τ}
    {spec : σ → Call → γ → Option (σ × Result)} {object : σ} {I : τ → Prop} {content : τ → σ}
    {port : τ → ι → Port Call Result} (hstart : I start) (hcontent : content start = object)
    (hport : port start = fun _ => .idle)
    (hkept : ∀ s a t, I s → next' s a = some t → I t)
    (hstep : ∀ s a t history, I s → next' s a = some t →
      Reachable (next spec) ⟨content s, port s, history⟩
        ⟨content t, port t, history ++ (event s a t).toList⟩) :
    Implements next' event start spec object := by
  intro s history h
  have hboth := h.invariant
    (I := fun u => I u.1 ∧ Reachable (next spec) (initial object) ⟨content u.1, port u.1, u.2⟩)
    ⟨hstart, by rw [hcontent, hport]; exact .refl _⟩ ?_
  · exact ⟨_, hboth.2, rfl⟩
  · rintro u a v ⟨hu, hrun⟩ hv
    obtain ⟨t, hnext, rfl⟩ := Option.map_eq_some_iff.mp hv
    exact ⟨hkept _ _ _ hu hnext, hrun.trans (hstep _ _ _ _ hu hnext)⟩

end MessagePass.AtomicObjects
