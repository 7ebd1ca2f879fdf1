import Mathlib.Data.List.Nodup
import Mathlib.Data.List.Perm.Subperm
import Mathlib.Tactic.Common

/-! # Deduplication

A consumer that may be handed any message any number of times and in any order, and acts on those
whose key it has not seen, acts once for each key (`Once`). What it has counted is then no more than
there are messages (`countP_le`), and exactly that many when it has seen all their keys
(`countP_eq`). -/

namespace Dedup

variable {μ κ : Type} {key : μ → κ}

/-- The keys `seen` are those of the messages acted on, each once, which have all been sent. -/
structure Once (key : μ → κ) (sent : List μ) (seen : List κ) (acted : List μ) : Prop where
  nodup : (acted.map key).Nodup
  subset : acted ⊆ sent
  seen : seen = acted.map key

variable {sent sent' all acted : List μ} {seen : List κ} {m : μ}

/-- At the start nothing has been seen. -/
theorem Once.nil : Once key sent [] [] := ⟨List.nodup_nil, List.nil_subset _, rfl⟩

/-- More may be sent. -/
theorem Once.mono (h : Once key sent seen acted) (hsent : sent ⊆ sent') :
    Once key sent' seen acted :=
  ⟨h.nodup, List.Subset.trans h.subset hsent, h.seen⟩

/-- **One more message**, whose key is new. -/
theorem Once.snoc (h : Once key sent seen acted) (hm : m ∈ sent) (hnew : key m ∉ seen) :
    Once key sent (seen ++ [key m]) (acted ++ [m]) := by
  rw [h.seen] at hnew
  refine ⟨?_, ?_, ?_⟩
  · rw [List.map_append, List.map_singleton, List.nodup_append]
    refine ⟨h.nodup, List.nodup_singleton _, fun k hk k' hk' hkk => hnew ?_⟩
    rw [← List.mem_singleton.mp hk', ← hkk]
    exact hk
  · exact List.append_subset.mpr ⟨h.subset, fun x hx => List.mem_singleton.mp hx ▸ hm⟩
  · rw [h.seen, List.map_append, List.map_singleton]

/-- Nothing is counted that was not there. -/
theorem Once.countP_le (h : Once key sent seen acted) (hsent : sent ⊆ all) (p : μ → Bool) :
    acted.countP p ≤ all.countP p :=
  ((List.Nodup.of_map key h.nodup).subperm (List.Subset.trans h.subset hsent)).countP_le p

/-- **All is counted** when all keys have been seen. -/
theorem Once.countP_eq (h : Once key sent seen acted) (hsent : sent ⊆ all)
    (hall : (all.map key).Nodup) (hseen : ∀ m ∈ all, key m ∈ seen) (p : μ → Bool) :
    acted.countP p = all.countP p := by
  have hmem : ∀ m, m ∈ acted ↔ m ∈ all := by
    intro m
    constructor
    · exact fun hm => hsent (h.subset hm)
    · intro hm
      have hkey : key m ∈ acted.map key := h.seen ▸ hseen m hm
      obtain ⟨m', hm', heq⟩ := List.mem_map.mp hkey
      -- two messages with one key are one
      obtain rfl := List.inj_on_of_nodup_map hall (hsent (h.subset hm')) hm heq
      exact hm'
  exact ((List.perm_ext_iff_of_nodup (.of_map key h.nodup) (.of_map key hall)).mpr hmem).countP_eq p

end Dedup
