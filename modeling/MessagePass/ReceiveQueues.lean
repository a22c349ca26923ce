import Mathlib.Data.List.Basic
import Mathlib.Logic.Function.Basic
import Std.Data.ExtTreeMap

/-!
# Tables of receive queues

A sink keeps, for each topic, a `std::map` from the hash of a source to a pointer to its receive
queue. Queue objects are numbered in the order they are created; `none` is a null pointer.
-/
namespace MessagePass.ReceiveQueues
open Std

abbrev QueueMap := ExtTreeMap UInt64 (Option ℕ)

/-- A map of queues, and how many queue objects have been created. -/
structure QueueTable where
  queues : QueueMap := ∅
  created : ℕ := 0

namespace QueueTable

def insertNew (t : QueueTable) (source : UInt64) : QueueTable where
  queues := t.queues.insert source (some t.created)
  created := t.created + 1

/-- The loop of `prepare_sources` over the hashes of the sources. -/
def prepareSources (t : QueueTable) (sources : List UInt64) : QueueTable :=
  sources.foldl insertNew t

/-- The look-up in `recv_message`: an unknown source gets a queue of its own. -/
def findOrInsert (t : QueueTable) (source : UInt64) : QueueTable :=
  if source ∈ t.queues then t else t.insertNew source

def queueOf (t : QueueTable) (source : UInt64) : Option ℕ := t.queues[source]?.join

structure Wired (t : QueueTable) : Prop where
  object : ∀ (source : UInt64) q, t.queues[source]? = some q → ∃ n, q = some n ∧ n < t.created
  distinct : ∀ a b n, t.queueOf a = some n → t.queueOf b = some n → a = b

variable {t : QueueTable}

theorem queueOf_eq_some {source : UInt64} {n : ℕ} :
    t.queueOf source = some n ↔ t.queues[source]? = some (some n) := by
  simp [queueOf, Option.join_eq_some_iff]

theorem wired_empty : Wired {} where
  object := by simp
  distinct := by simp [queueOf]

theorem queueOf_insertNew (source other : UInt64) : (t.insertNew source).queueOf other =
    if source = other then some t.created else t.queueOf other := by
  by_cases h : source = other
  · simp [queueOf, insertNew, h]
  · simp [queueOf, insertNew, ExtTreeMap.getElem?_insert, h]

namespace Wired

theorem queueOf_lt (h : Wired t) {source : UInt64} {n : ℕ} (hn : t.queueOf source = some n) :
    n < t.created := by
  obtain ⟨m, hm, hlt⟩ := h.object source _ (queueOf_eq_some.mp hn)
  cases hm
  exact hlt

theorem exists_queueOf (h : Wired t) {source : UInt64} (hs : source ∈ t.queues) :
    ∃ n, t.queueOf source = some n := by
  obtain ⟨q, hq⟩ := Option.isSome_iff_exists.mp (ExtTreeMap.mem_iff_isSome_getElem?.mp hs)
  obtain ⟨n, rfl, -⟩ := h.object source q hq
  exact ⟨n, queueOf_eq_some.mpr hq⟩

theorem insertNew (h : Wired t) (source : UInt64) : Wired (t.insertNew source) where
  object := by
    intro other q hq
    simp only [QueueTable.insertNew, ExtTreeMap.getElem?_insert] at hq
    split at hq
    · cases hq
      exact ⟨t.created, rfl, Nat.lt_succ_self _⟩
    · obtain ⟨n, rfl, hn⟩ := h.object other q hq
      exact ⟨n, rfl, Nat.lt_succ_of_lt hn⟩
  distinct := by
    intro a b n ha hb
    rw [queueOf_insertNew] at ha hb
    -- the new queue is none of the old ones
    split at ha <;> split at hb
    · exact (‹source = a›).symm.trans ‹source = b›
    · cases ha
      exact (Nat.lt_irrefl _ (h.queueOf_lt hb)).elim
    · cases hb
      exact (Nat.lt_irrefl _ (h.queueOf_lt ha)).elim
    · exact h.distinct a b n ha hb

theorem prepareSources (h : Wired t) (sources : List UInt64) :
    Wired (t.prepareSources sources) := by
  induction sources generalizing t with
  | nil => exact h
  | cons source sources ih => exact ih (h.insertNew source)

theorem findOrInsert (h : Wired t) (source : UInt64) : Wired (t.findOrInsert source) := by
  unfold QueueTable.findOrInsert
  split
  · exact h
  · exact h.insertNew source

end Wired

theorem queueOf_findOrInsert {source other : UInt64} {n : ℕ} (h : t.queueOf other = some n) :
    (t.findOrInsert source).queueOf other = some n := by
  unfold findOrInsert
  split <;> rename_i hs
  · exact h
  · rw [queueOf_insertNew, if_neg]
    · exact h
    · rintro rfl
      exact hs (ExtTreeMap.mem_iff_isSome_getElem?.mpr (by simp [queueOf_eq_some.mp h]))

theorem mem_findOrInsert (source : UInt64) : source ∈ (t.findOrInsert source).queues := by
  unfold findOrInsert
  split
  · assumption
  · simp [insertNew]

theorem mem_prepareSources {sources : List UInt64} {source : UInt64}
    (h : source ∈ sources ∨ source ∈ t.queues) : source ∈ (t.prepareSources sources).queues := by
  induction sources generalizing t with
  | nil => simpa [prepareSources] using h
  | cons s sources ih =>
    apply ih
    rcases h with h | h
    · rcases List.mem_cons.mp h with rfl | h
      · exact .inr (by simp [insertNew])
      · exact .inl h
    · exact .inr (by simp [insertNew, h])

theorem findOrInsert_of_queueOf {source : UInt64} {n : ℕ} (h : t.queueOf source = some n) :
    t.findOrInsert source = t :=
  if_pos (ExtTreeMap.mem_iff_isSome_getElem?.mpr (by simp [queueOf_eq_some.mp h]))

theorem queueOf_prepareSources_of_notMem {sources : List UInt64} {source : UInt64}
    (h : source ∉ sources) : (t.prepareSources sources).queueOf source = t.queueOf source := by
  induction sources generalizing t with
  | nil => rfl
  | cons s sources ih =>
    rw [List.mem_cons, not_or] at h
    exact (ih h.2).trans ((queueOf_insertNew _ _).trans (if_neg (Ne.symm h.1)))

/-- A source that is prepared again has a new queue, not the one it had. -/
theorem queueOf_prepareSources_of_mem {sources : List UInt64} {source : UInt64}
    (h : source ∈ sources) :
    ∃ n, t.created ≤ n ∧ (t.prepareSources sources).queueOf source = some n := by
  induction sources generalizing t with
  | nil => simp at h
  | cons s sources ih =>
    by_cases hmem : source ∈ sources
    · obtain ⟨n, hn, hq⟩ := ih (t := t.insertNew s) hmem
      exact ⟨n, Nat.le_trans (Nat.le_succ _) hn, hq⟩
    · obtain rfl : source = s := (List.mem_cons.mp h).resolve_right hmem
      refine ⟨t.created, Nat.le_refl _, ?_⟩
      exact (queueOf_prepareSources_of_notMem hmem).trans
        ((queueOf_insertNew _ _).trans (if_pos rfl))

end QueueTable

/-- Every queue of the map has been created and belongs to the given name with its source. -/
def Owns {α : Type*} (owner : ℕ → α × UInt64) (name : α) (t : QueueTable) : Prop :=
  ∀ source queue, t.queueOf source = some queue → queue < t.created ∧ owner queue = (name, source)

namespace Owns
variable {α : Type*} {owner owner' : ℕ → α × UInt64} {name : α} {t : QueueTable}

theorem mono (h : Owns owner name t) {created : ℕ} (hle : t.created ≤ created)
    (hsame : ∀ queue < t.created, owner' queue = owner queue) :
    Owns owner' name ⟨t.queues, created⟩ := by
  intro source queue hq
  obtain ⟨hlt, hown⟩ := h source queue hq
  exact ⟨Nat.lt_of_lt_of_le hlt hle, (hsame queue hlt).trans hown⟩

theorem insertNew (h : Owns owner name t) (source : UInt64) :
    Owns (Function.update owner t.created (name, source)) name (t.insertNew source) := by
  intro other queue hq
  rw [QueueTable.queueOf_insertNew] at hq
  split at hq <;> rename_i hs
  · cases hq
    subst hs
    exact ⟨Nat.lt_succ_self _, Function.update_self ..⟩
  · obtain ⟨hlt, hown⟩ := h other queue hq
    exact ⟨Nat.lt_succ_of_lt hlt, (Function.update_of_ne (Nat.ne_of_lt hlt) ..).trans hown⟩

theorem findOrInsert (h : Owns owner name t) (source : UInt64) :
    t.created ≤ (t.findOrInsert source).created ∧
      ∃ owner' : ℕ → α × UInt64, Owns owner' name (t.findOrInsert source) ∧
        ∀ queue < t.created, owner' queue = owner queue := by
  unfold QueueTable.findOrInsert
  split
  · exact ⟨Nat.le_refl _, owner, h, fun _ _ => rfl⟩
  · exact ⟨Nat.le_succ _, _, h.insertNew source, fun queue hlt =>
      Function.update_of_ne (Nat.ne_of_lt hlt) ..⟩

theorem insertNull (h : Owns owner name t) (source : UInt64) :
    Owns owner name ⟨t.queues.insert source none, t.created⟩ := by
  intro other queue hq
  apply h other queue
  simp only [QueueTable.queueOf, ExtTreeMap.getElem?_insert] at hq ⊢
  split at hq
  · simp at hq
  · exact hq

theorem prepareSources (h : Owns owner name t) (sources : List UInt64) :
    t.created ≤ (t.prepareSources sources).created ∧
      ∃ owner' : ℕ → α × UInt64, Owns owner' name (t.prepareSources sources) ∧
        ∀ queue < t.created, owner' queue = owner queue := by
  induction sources generalizing t owner with
  | nil => exact ⟨Nat.le_refl _, owner, h, fun _ _ => rfl⟩
  | cons source sources ih =>
    obtain ⟨hle, owner', hown, hsame⟩ := ih (h.insertNew source)
    refine ⟨Nat.le_trans (Nat.le_succ _) hle, owner', hown, fun queue hlt => ?_⟩
    exact (hsame queue (Nat.lt_succ_of_lt hlt)).trans
      (Function.update_of_ne (Nat.ne_of_lt hlt) ..)

end Owns
end MessagePass.ReceiveQueues
