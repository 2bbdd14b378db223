/-!
# Counting what remains

How many of the numbers below a bound still satisfy a condition. Searches through a graph end because
every step takes a number away: `remaining_lt` is the decrease they all rest on.
-/

namespace Monomorph

/-- How many of the numbers below `n` satisfy `p`. -/
def remaining (n : Nat) (p : Nat → Bool) : Nat := (List.range n).countP p

theorem remaining_le {n : Nat} {p q : Nat → Bool} (h : ∀ i < n, q i = true → p i = true) :
    remaining n q ≤ remaining n p :=
  List.countP_mono_left fun i hi => h i (List.mem_range.1 hi)

/-- Strictly fewer numbers satisfy a condition that is stronger and excludes one of them. -/
theorem remaining_lt {n : Nat} {p q : Nat → Bool} {r : Nat} (hr : r < n)
    (hp : p r = true) (hq : q r = false) (h : ∀ i < n, q i = true → p i = true) :
    remaining n q < remaining n p := by
  unfold remaining
  induction n with
  | zero => exact absurd hr (Nat.not_lt_zero r)
  | succ n ih =>
    simp only [List.range_succ, List.countP_append, List.countP_singleton]
    rcases Nat.lt_succ_iff_lt_or_eq.1 hr with hlt | rfl
    · have hrest := ih hlt fun i hi => h i (Nat.lt_succ_of_lt hi)
      have hlast := h n (Nat.lt_succ_self n)
      split <;> split <;> simp_all
      omega
    · have hrest : remaining r q ≤ remaining r p :=
        remaining_le fun i hi => h i (Nat.lt_succ_of_lt hi)
      unfold remaining at hrest
      simp [hp, hq]
      omega

end Monomorph
