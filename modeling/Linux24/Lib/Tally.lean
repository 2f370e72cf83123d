import Mathlib

/-!
# A sum over a table of which one entry changes

A counter that is kept next to a table is right if it is the sum, over the table, of what each entry
counts for.  The table is a function, a change to it is `update`, and the sum then changes
by the difference of what the new entry and the old one count for.
-/

set_option autoImplicit false

namespace Tally

open Finset Function

variable {ι β : Type*} [DecidableEq ι] {s : Finset ι} {i : ι}

/-- **One entry changes.** -/
theorem sum_update (hi : i ∈ s) (f : ι → β) (v : β) (g : β → ℤ) :
    ∑ j ∈ s, g (update f i v j) = ∑ j ∈ s, g (f j) + (g v - g (f i)) := by
  have hrest : ∑ j ∈ s.erase i, g (update f i v j) = ∑ j ∈ s.erase i, g (f j) := by
    refine sum_congr rfl fun j hj ↦ ?_
    rw [update_of_ne (ne_of_mem_erase hj)]
  rw [← add_sum_erase s _ hi, ← add_sum_erase s (fun j ↦ g (f j)) hi, hrest, update_self]
  ring

end Tally
