import Mathlib.Data.List.Basic

/-!
# Groups of items closed by a flag

A stream whose items say whether more of their group follow falls into closed groups and an open
rest. This is how parts are put together to multipart messages.
-/
namespace MessagePass.FlaggedGroups

variable {α : Type*} (more : α → Bool)

/-- The closed groups of a stream, in order, and the group that is still open at its end. -/
def groups : List α → List (List α) × List α
  | [] => ([], [])
  | a :: as => match more a, groups as with
    | false, (gs, rest) => ([a] :: gs, rest)
    | true, ([], rest) => ([], a :: rest)
    | true, (g :: gs, rest) => ((a :: g) :: gs, rest)

theorem flatten_groups (as : List α) : (groups more as).1.flatten ++ (groups more as).2 = as := by
  induction as with
  | nil => rfl
  | cons a as ih =>
    rw [groups]
    generalize groups more as = grouped at ih
    obtain ⟨gs, rest⟩ := grouped
    cases more a with
    | false => simpa using ih
    | true =>
      cases gs with
      | nil => simpa using ih
      | cons g gs => simpa using ih

theorem groups_pair {a b : α} (ha : more a = true) (hb : more b = false) (as : List α) :
    groups more (a :: b :: as) = ([a, b] :: (groups more as).1, (groups more as).2) := by
  simp [groups, ha, hb]

end MessagePass.FlaggedGroups
