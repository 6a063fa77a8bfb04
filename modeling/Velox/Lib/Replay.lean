import Mathlib.Tactic

/-!
# Replaying a log of assignments

A log sets keys to values, one after the other. What a key holds in the end is decided by the last
assignment to it, so that reading a stretch of the log a second time changes nothing. A reader may
therefore start from a copy of the values made at one point and read the log from an earlier point
on (`replay_late`): the copy has to be right only for the keys that the reader hears nothing about.
-/

namespace Velox.Replay

variable {K V : Type} [DecidableEq K] {σ σ' : K → V} {k : K} {A B C : List (K × V)}

/-- The values after the assignments of a log. -/
def replay (σ : K → V) (log : List (K × V)) : K → V :=
  log.foldl (fun σ a => Function.update σ a.1 a.2) σ

@[simp] theorem replay_nil : replay σ [] = σ := rfl

theorem replay_cons (a : K × V) (B : List (K × V)) :
    replay σ (a :: B) = replay (Function.update σ a.1 a.2) B := rfl

theorem replay_append (A B : List (K × V)) : replay σ (A ++ B) = replay (replay σ A) B :=
  List.foldl_append

theorem replay_of_not_mem (h : ∀ a ∈ B, a.1 ≠ k) : replay σ B k = σ k := by
  induction B generalizing σ with
  | nil => rfl
  | cons a B ih =>
    rw [replay_cons, ih fun b hb => h b (List.mem_cons_of_mem _ hb),
      Function.update_of_ne (Ne.symm (h a List.mem_cons_self))]

/-- The values before an assignment do not matter after it. -/
theorem replay_of_mem (h : ∃ a ∈ B, a.1 = k) : replay σ B k = replay σ' B k := by
  induction B generalizing σ σ' with
  | nil => exact absurd h (by simp)
  | cons a B ih =>
    by_cases hB : ∃ b ∈ B, b.1 = k
    · exact ih hB
    · have hnone : ∀ b ∈ B, b.1 ≠ k := fun b hb hk => hB ⟨b, hb, hk⟩
      have ha : a.1 = k := by
        obtain ⟨b, hb, hk⟩ := h
        rcases List.mem_cons.1 hb with rfl | hb
        · exact hk
        · exact absurd hk (hnone b hb)
      subst ha
      rw [replay_cons, replay_cons, replay_of_not_mem hnone, replay_of_not_mem hnone,
        Function.update_self, Function.update_self]

/-- What holds of all values that were ever set holds of the values in the end. -/
theorem replay_forall {P : V → Prop} (hσ : ∀ k, P (σ k)) (h : ∀ a ∈ B, P a.2) (k : K) :
    P (replay σ B k) := by
  induction B generalizing σ with
  | nil => exact hσ k
  | cons a B ih =>
    rw [replay_cons]
    refine ih (fun l => ?_) fun b hb => h b (List.mem_cons_of_mem _ hb)
    by_cases hl : l = a.1
    · rw [hl, Function.update_self]
      exact h a List.mem_cons_self
    · rw [Function.update_of_ne hl]
      exact hσ l

/-- **A late reader**, who starts from a copy made after `A ++ B` and then reads the log from `B`
on, ends up with the right values. -/
theorem replay_late (h : ∀ k, (∀ a ∈ B ++ C, a.1 ≠ k) → σ' k = replay σ (A ++ B) k) :
    replay σ' (B ++ C) = replay σ (A ++ B ++ C) := by
  funext k
  by_cases hk : ∃ a ∈ B ++ C, a.1 = k
  · rw [List.append_assoc, replay_append A]
    exact replay_of_mem hk
  · have hnone : ∀ a ∈ B ++ C, a.1 ≠ k := fun a ha hak => hk ⟨a, ha, hak⟩
    rw [replay_of_not_mem hnone, h k hnone, replay_append (A ++ B),
      replay_of_not_mem fun a ha => hnone a (List.mem_append_right _ ha)]

end Velox.Replay
