import Mathlib.Data.List.Nodup

/-!
# References and their users

A table of references, each of which may refer to a node, and for each node the list of the references to it.
-/

namespace ShadPS4

open Function

variable {κ ν : Type} {ref : κ → Option ν} {users : ν → List κ}

structure Referenced (ref : κ → Option ν) (users : ν → List κ) : Prop where
  nodup : ∀ x, (users x).Nodup
  mem_iff : ∀ x k, k ∈ users x ↔ ref k = some x

theorem Referenced.ne_of_nil (h : Referenced ref users) {x : ν} (hx : users x = []) (k : κ) : ref k ≠ some x := by
  intro hk
  rw [← h.mem_iff, hx] at hk
  cases hk

theorem Referenced.eq_nil (h : Referenced ref users) {x : ν} (hx : ∀ k, ref k ≠ some x) : users x = [] := by
  rw [List.eq_nil_iff_forall_not_mem]
  intro k
  rw [h.mem_iff]
  exact hx k

theorem Referenced.perm (h : Referenced ref users) {users' : ν → List κ} (hperm : ∀ x, (users x).Perm (users' x)) :
    Referenced ref users' :=
  ⟨fun x => (hperm x).nodup_iff.mp (h.nodup x), fun x k => (hperm x).mem_iff.symm.trans (h.mem_iff x k)⟩

variable [DecidableEq κ] [DecidableEq ν]

theorem Referenced.unlink (h : Referenced ref users) {k : κ} {x : ν} (hk : ref k = some x) :
    Referenced (update ref k none) (update users x ((users x).filter (· ≠ k))) := by
  constructor
  case nodup =>
    intro y
    rcases eq_or_ne y x with rfl | hy
    · rw [update_self]
      exact (h.nodup y).filter _
    · rw [update_of_ne hy]
      exact h.nodup y
  case mem_iff =>
    intro y j
    rcases eq_or_ne j k with rfl | hj
    · rw [update_self]
      refine iff_of_false (fun hin => ?_) fun hsome => by cases hsome
      rcases eq_or_ne y x with rfl | hy
      · rw [update_self] at hin
        exact of_decide_eq_true (List.mem_filter.mp hin).2 rfl
      · rw [update_of_ne hy, h.mem_iff, hk] at hin
        exact hy (Option.some.inj hin).symm
    · rw [update_of_ne hj, ← h.mem_iff]
      rcases eq_or_ne y x with rfl | hy
      · rw [update_self, List.mem_filter]
        exact and_iff_left (decide_eq_true hj)
      · rw [update_of_ne hy]

theorem Referenced.link (h : Referenced ref users) {k : κ} (x : ν) (hk : ref k = none) :
    Referenced (update ref k (some x)) (update users x (k :: users x)) := by
  have hnot (y : ν) : k ∉ users y := by
    rw [h.mem_iff, hk]
    exact fun hsome => by cases hsome
  constructor
  case nodup =>
    intro y
    rcases eq_or_ne y x with rfl | hy
    · rw [update_self]
      exact (h.nodup y).cons (hnot y)
    · rw [update_of_ne hy]
      exact h.nodup y
  case mem_iff =>
    intro y j
    rcases eq_or_ne j k with rfl | hj
    · rw [update_self]
      rcases eq_or_ne y x with rfl | hy
      · rw [update_self]
        exact iff_of_true List.mem_cons_self rfl
      · rw [update_of_ne hy]
        exact iff_of_false (hnot y) fun hsome => hy (Option.some.inj hsome).symm
    · rw [update_of_ne hj, ← h.mem_iff]
      rcases eq_or_ne y x with rfl | hy
      · rw [update_self, List.mem_cons]
        exact or_iff_right hj
      · rw [update_of_ne hy]

end ShadPS4
