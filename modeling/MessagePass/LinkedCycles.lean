import Mathlib.Data.List.Basic
import Mathlib.Logic.Function.Basic

/-!
# Circular linked lists

Nodes that each point to the next one, the last one back to the first. Where the circle is cut open
is free to change: turning it, and linking a new node in, keep the links.
-/
namespace MessagePass.LinkedCycles

variable {α : Type*}

/-- Every node of a list points to the one behind it, the last one to the given node. -/
def Linked (next : α → Option α) (last : α) : List α → Prop
  | [] => True
  | a :: as => next a = some (as.headD last) ∧ Linked next last as

variable {next next' : α → Option α} {last a b : α} {as bs : List α}

theorem linked_append :
    Linked next last (as ++ bs) ↔ Linked next (bs.headD last) as ∧ Linked next last bs := by
  induction as with
  | nil => simp [Linked]
  | cons a as ih =>
    have hhead : (as ++ bs).headD last = as.headD (bs.headD last) := by
      cases as <;> simp
    simp only [List.cons_append, Linked, hhead, ih, and_assoc]

namespace Linked

theorem congr (h : Linked next last as) (hsame : ∀ a ∈ as, next' a = next a) :
    Linked next' last as := by
  induction as with
  | nil => trivial
  | cons a as ih =>
    obtain ⟨ha, has⟩ := List.forall_mem_cons.mp hsame
    exact ⟨ha.trans h.1, ih h.2 has⟩

theorem rotate (h : Linked next a (a :: as)) : Linked next (as.headD a) (as ++ [a]) :=
  linked_append.mpr ⟨h.2, h.1, trivial⟩

theorem next_eq (h : Linked next last (as ++ a :: bs)) : next a = some (bs.headD last) :=
  (linked_append.mp h).2.1

theorem insert [DecidableEq α] (h : Linked next last (as ++ a :: bs))
    (hnodup : (as ++ a :: bs).Nodup)
    (hnew : next b = next a) (hfresh : b ∉ as ++ a :: bs) :
    Linked (Function.update next a (some b)) last (as ++ a :: b :: bs) := by
  obtain ⟨has, ha, hbs⟩ := linked_append.mp h
  obtain ⟨-, hrest, hdisjoint⟩ := List.nodup_append.mp hnodup
  have hne : b ≠ a := by
    rintro rfl
    exact hfresh (by simp)
  have hnotin : a ∉ as := fun hmem => hdisjoint a hmem a List.mem_cons_self rfl
  refine linked_append.mpr ⟨?_, ?_, ?_, ?_⟩
  · exact has.congr fun c hc => Function.update_of_ne (ne_of_mem_of_not_mem hc hnotin) ..
  · simp
  · rw [Function.update_of_ne hne, hnew, ha]
  · refine hbs.congr fun c hc => Function.update_of_ne ?_ ..
    exact ne_of_mem_of_not_mem hc (List.nodup_cons.mp hrest).1

end Linked

/-- `do { visit(node); node = node->next; } while (node != start)`: the nodes visited, unless a
null pointer is followed or the steps do not suffice. -/
def walk [DecidableEq α] (next : α → Option α) (start : α) : ℕ → α → Option (List α)
  | 0, _ => none
  | fuel + 1, a => (next a).bind fun b =>
      if b = start then some [a] else (walk next start fuel b).map (a :: ·)

/-- A walk along the links ends where it comes back to its start. -/
theorem walk_eq [DecidableEq α] (h : Linked next last (a :: as)) (hnotin : last ∉ as) {fuel : ℕ}
    (hfuel : as.length < fuel) : walk next last fuel a = some (a :: as) := by
  induction as generalizing a fuel with
  | nil =>
    obtain ⟨fuel, rfl⟩ := Nat.exists_eq_succ_of_ne_zero (Nat.ne_zero_of_lt hfuel)
    have hnext : next a = some last := h.1
    simp [walk, hnext]
  | cons b bs ih =>
    obtain ⟨fuel, rfl⟩ := Nat.exists_eq_succ_of_ne_zero (Nat.ne_zero_of_lt hfuel)
    rw [List.mem_cons, not_or] at hnotin
    have hnext : next a = some b := h.1
    have hrest := ih h.2 hnotin.2 (Nat.lt_of_succ_lt_succ hfuel)
    simp [walk, hnext, Ne.symm hnotin.1, hrest]

end MessagePass.LinkedCycles
