import Mathlib.Data.List.Perm.Basic
import Std.Data.ExtTreeMap

/-!
# Ordered maps and the values they hold

`std::map` is an ordered tree map. Mathlib's standard library has the map and its look-ups;
this file adds what ownership arguments need: the list of the values held, in key order, and
how it changes, up to order, when an entry is inserted, replaced or erased. A map of maps holds
the values of its inner maps.
-/
namespace MessagePass.OrderedMaps
open Std

variable {α β γ : Type*} [Ord α] [TransOrd α] [LawfulEqOrd α]
variable [Ord β] [TransOrd β]

/-- The values of a map in ascending key order, as a loop over the map visits them. -/
def values (m : ExtTreeMap α γ) : List γ := m.toList.map Prod.snd

/-- The values of a map of maps, as the nested loop over it visits them. -/
def nestedValues (m : ExtTreeMap α (ExtTreeMap β γ)) : List γ :=
  m.toList.flatMap fun p => values p.2

omit [LawfulEqOrd α] in
@[simp] theorem values_empty : values (∅ : ExtTreeMap α γ) = [] := by simp [values]

omit [LawfulEqOrd α] in
@[simp] theorem nestedValues_empty : nestedValues (∅ : ExtTreeMap α (ExtTreeMap β γ)) = [] := by
  simp [nestedValues]

theorem mem_values {m : ExtTreeMap α γ} {v : γ} : v ∈ values m ↔ ∃ k : α, m[k]? = some v := by
  simp [values, ExtTreeMap.mem_toList_iff_getElem?_eq_some]

omit [LawfulEqOrd α] in
theorem toList_sorted (m : ExtTreeMap α γ) :
    (m.toList.map Prod.fst).Pairwise fun a b => compare a b = .lt := by
  rw [List.pairwise_map]
  exact ExtTreeMap.ordered_keys_toList

omit [LawfulEqOrd α] in
theorem toList_nodup (m : ExtTreeMap α γ) : m.toList.Nodup := by
  have h := ExtTreeMap.distinct_keys_toList (t := m)
  apply h.imp
  rintro a _ hab rfl
  simp at hab

theorem toList_insert_perm (m : ExtTreeMap α γ) (k : α) (v : γ) :
    (m.insert k v).toList.Perm ((k, v) :: (m.erase k).toList) := by
  have hfresh : (k, v) ∉ (m.erase k).toList := by
    simp [ExtTreeMap.mem_toList_iff_getElem?_eq_some]
  refine (List.perm_ext_iff_of_nodup (toList_nodup _)
    (List.nodup_cons.mpr ⟨hfresh, toList_nodup _⟩)).mpr ?_
  rintro ⟨a, b⟩
  simp only [List.mem_cons, ExtTreeMap.mem_toList_iff_getElem?_eq_some,
    ExtTreeMap.getElem?_insert, ExtTreeMap.getElem?_erase, LawfulEqOrd.compare_eq_iff_eq,
    Prod.mk.injEq]
  by_cases h : k = a
  · simp [h, eq_comm]
  · simp [h, Ne.symm h]

theorem toList_erase_perm {m : ExtTreeMap α γ} {k : α} {v : γ} (h : m[k]? = some v) :
    m.toList.Perm ((k, v) :: (m.erase k).toList) := by
  have hsame : m.insert k v = m := by
    apply ExtTreeMap.ext_getElem?
    intro a
    by_cases ha : k = a
    · subst ha; simp [h]
    · simp [ExtTreeMap.getElem?_insert, ha]
  simpa only [hsame] using toList_insert_perm m k v

theorem erase_eq_self {m : ExtTreeMap α γ} {k : α} (h : m[k]? = none) : m.erase k = m := by
  apply ExtTreeMap.ext_getElem?
  intro a
  by_cases ha : k = a
  · subst ha; simp [h]
  · simp [ExtTreeMap.getElem?_erase, ha]

theorem values_insert_fresh {m : ExtTreeMap α γ} {k : α} (v : γ) (h : m[k]? = none) :
    (values (m.insert k v)).Perm (v :: values m) := by
  have hp := (toList_insert_perm m k v).map Prod.snd
  rwa [erase_eq_self h] at hp

theorem values_erase {m : ExtTreeMap α γ} {k : α} {v : γ} (h : m[k]? = some v) :
    (values m).Perm (v :: values (m.erase k)) := (toList_erase_perm h).map Prod.snd

theorem nestedValues_insert (m : ExtTreeMap α (ExtTreeMap β γ)) (k : α) (t : ExtTreeMap β γ) :
    (nestedValues (m.insert k t)).Perm (values t ++ nestedValues (m.erase k)) := by
  have hp := (toList_insert_perm m k t).flatMap_right fun p : α × ExtTreeMap β γ => values p.2
  rwa [List.flatMap_cons] at hp

theorem nestedValues_split (m : ExtTreeMap α (ExtTreeMap β γ)) (k : α) :
    (nestedValues m).Perm (values (m.getD k ∅) ++ nestedValues (m.erase k)) := by
  cases h : m[k]? with
  | none => simp [ExtTreeMap.getD_eq_getD_getElem?, h, erase_eq_self h]
  | some t =>
    have hp := (toList_erase_perm h).flatMap_right fun p : α × ExtTreeMap β γ => values p.2
    rw [List.flatMap_cons] at hp
    simp only [ExtTreeMap.getD_eq_getD_getElem?, h, Option.getD_some]
    exact hp

/-- Replacing an inner map by one with the same values, up to one value more, adds that value. -/
theorem nestedValues_insert_cons {m : ExtTreeMap α (ExtTreeMap β γ)} {k : α} {t : ExtTreeMap β γ}
    {v : γ} (h : (values t).Perm (v :: values (m.getD k ∅))) :
    (nestedValues (m.insert k t)).Perm (v :: nestedValues m) :=
  calc nestedValues (m.insert k t)
    _ |>.Perm (values t ++ nestedValues (m.erase k)) := nestedValues_insert m k t
    _ |>.Perm (v :: values (m.getD k ∅) ++ nestedValues (m.erase k)) := h.append_right _
    _ |>.Perm (v :: nestedValues m) := (nestedValues_split m k).symm.cons v

theorem nestedValues_insert_same (m : ExtTreeMap α (ExtTreeMap β γ)) {k : α} {t : ExtTreeMap β γ}
    (h : (values t).Perm (values (m.getD k ∅))) :
    (nestedValues (m.insert k t)).Perm (nestedValues m) :=
  (nestedValues_insert m k t).trans ((h.append_right _).trans (nestedValues_split m k).symm)

theorem mem_nestedValues [LawfulEqOrd β] {m : ExtTreeMap α (ExtTreeMap β γ)} {v : γ} :
    v ∈ nestedValues m ↔ ∃ (a : α) (b : β), (m.getD a ∅)[b]? = some v := by
  simp only [nestedValues, List.mem_flatMap, mem_values]
  constructor
  · rintro ⟨⟨a, t⟩, hm, b, hb⟩
    rw [ExtTreeMap.mem_toList_iff_getElem?_eq_some] at hm
    exact ⟨a, b, by simpa [ExtTreeMap.getD_eq_getD_getElem?, hm] using hb⟩
  · rintro ⟨a, b, hb⟩
    cases h : m[a]? with
    | none => simp [ExtTreeMap.getD_eq_getD_getElem?, h] at hb
    | some t =>
      refine ⟨(a, t), ExtTreeMap.mem_toList_iff_getElem?_eq_some.mpr h, b, ?_⟩
      simpa [ExtTreeMap.getD_eq_getD_getElem?, h] using hb

end MessagePass.OrderedMaps
