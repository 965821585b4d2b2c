import Mathlib.Tactic

/-!
# Majorities of a finite membership

A quorum is more than half of the members, each once.  Two quorums share a member.
-/

namespace Lib

variable {ν : Type*}

structure IsQuorum (members quorum : List ν) : Prop where
  nodup : quorum.Nodup
  sub : quorum ⊆ members
  half : members.length < 2 * quorum.length

theorem IsQuorum.inter [DecidableEq ν] {members q q' : List ν} (h : IsQuorum members q)
    (h' : IsQuorum members q') : ∃ v, v ∈ q ∧ v ∈ q' := by
  by_contra hno
  have hdis : q.Disjoint q' := fun v hv hv' => hno ⟨v, hv, hv'⟩
  have hnd : (q ++ q').Nodup := List.nodup_append'.mpr ⟨h.nodup, h'.nodup, hdis⟩
  have hsub : q ++ q' ⊆ members := List.append_subset.mpr ⟨h.sub, h'.sub⟩
  have hle := (List.subperm_of_subset hnd hsub).length_le
  have hhalf := h.half
  have hhalf' := h'.half
  rw [List.length_append] at hle
  omega

end Lib
