set_option autoImplicit false

namespace Variability

variable {α κ : Type} [DecidableEq κ]

/-- Puts an entry in the place of the one with its key, or at the end. -/
def putBy (key : α → κ) (a : α) : List α → List α
  | [] => [a]
  | b :: bs => if key b = key a then a :: bs else b :: putBy key a bs

/-- The last entry of each key, in the order of the first ones. -/
def lastByKey (key : α → κ) (as : List α) : List α := as.foldl (fun acc a => putBy key a acc) []

theorem keys_putBy (key : α → κ) (a : α) (as : List α) :
    (putBy key a as).map key = if key a ∈ as.map key then as.map key else as.map key ++ [key a] := by
  induction as with
  | nil => simp [putBy]
  | cons b bs ih =>
    by_cases h : key b = key a
    · simp [putBy, h]
    · have h' : ¬ key a = key b := fun e => h e.symm
      simp only [putBy, h, if_false, List.map_cons, ih, List.mem_cons, h', false_or]
      split <;> simp

theorem nodup_keys_putBy {key : α → κ} {a : α} {as : List α} (h : (as.map key).Nodup) :
    ((putBy key a as).map key).Nodup := by
  rw [keys_putBy]
  split
  · exact h
  · next ha =>
    refine List.nodup_append.2 ⟨h, by simp, ?_⟩
    intro x hx y hy
    simp only [List.mem_singleton] at hy
    rintro rfl
    exact ha (hy ▸ hx)

theorem find_putBy_self (key : α → κ) (a : α) (as : List α) :
    (putBy key a as).find? (key · = key a) = some a := by
  induction as with
  | nil => simp [putBy]
  | cons b bs ih => by_cases h : key b = key a <;> simp [putBy, h, ih]

theorem find_putBy_other (key : α → κ) {a : α} {k : κ} (hk : key a ≠ k) (as : List α) :
    (putBy key a as).find? (key · = k) = as.find? (key · = k) := by
  induction as with
  | nil => simp [putBy, hk]
  | cons b bs ih =>
    by_cases h : key b = key a
    · have : key b ≠ k := h ▸ hk
      simp [putBy, h, hk]
    · rw [putBy, if_neg h]
      by_cases hb : key b = k <;> simp [hb, ih]

theorem nodup_keys_lastByKey (key : α → κ) (as : List α) : ((lastByKey key as).map key).Nodup := by
  suffices h : ∀ acc : List α, (acc.map key).Nodup →
      ((as.foldl (fun acc a => putBy key a acc) acc).map key).Nodup from h [] (by simp)
  induction as with
  | nil => exact fun _ h => h
  | cons a as ih => exact fun acc h => ih _ (nodup_keys_putBy h)

end Variability
