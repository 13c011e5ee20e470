import Mathlib

/-! Order in a history of calls: calls that need an earlier call to have been made. -/

namespace MemoryMappingModule.CallOrder

variable {α : Type*} {needs enables : α → Prop} {h h' : List α} {c : α}

/-- Each call that needs one comes after a call that enables it. -/
def Preceded (needs enables : α → Prop) (h : List α) : Prop :=
  ∀ before c after, h = before ++ c :: after → needs c → ∃ d ∈ before, enables d

theorem preceded_of_forall_not (hnot : ∀ c ∈ h, ¬ needs c) : Preceded needs enables h := by
  rintro before c after rfl hc
  exact absurd hc (hnot c (by simp))

theorem Preceded.append (hfirst : Preceded needs enables h) (henables : ∃ d ∈ h, enables d) :
    Preceded needs enables (h ++ h') := by
  intro before c after hsplit hc
  rcases List.append_eq_append_iff.mp hsplit with ⟨more, rfl, hmore⟩ | ⟨rest, rfl, hrest⟩
  · obtain ⟨d, hd, hdc⟩ := henables
    exact ⟨d, List.mem_append_left _ hd, hdc⟩
  · cases rest with
    | nil =>
      rw [List.append_nil] at henables
      exact henables
    | cons x rest =>
      obtain ⟨rfl, _⟩ := List.cons.inj hrest
      exact hfirst before c rest rfl hc

theorem Preceded.exists_mem (hall : Preceded needs enables h) (hmem : c ∈ h) (hc : needs c) :
    ∃ d ∈ h, enables d := by
  obtain ⟨before, after, rfl⟩ := List.append_of_mem hmem
  obtain ⟨d, hd, hdc⟩ := hall before c after rfl hc
  exact ⟨d, List.mem_append_left _ hd, hdc⟩

end MemoryMappingModule.CallOrder
