/-
# The longest prefix

A table from bit strings to values, and the value that it has at the longest
prefix of a string (`longest`). Bit strings stand for numbers with the highest
bit first (`bits`), and two numbers have the same prefix exactly if they are
equal after division by a power of two (`bits_prefix_iff`).

Key definitions: `longest`, `bits`.
Key theorems: `longest_eq_some_iff`, `longest_eq_none_iff`, `bits_prefix_iff`.
-/
import Mathlib.Data.Nat.Bitwise
import Mathlib.Data.List.Basic
import Mathlib.Order.Basic

namespace OpsScripts
namespace Prefixes

/-! ### The longest one -/

section Longest

variable {α : Type*}

/-- The value of the table at the longest prefix of a string. -/
def longest (m : List Bool → Option α) : List Bool → Option α
  | [] => m []
  | b :: k => (longest (fun p => m (b :: p)) k).or (m [])

theorem longest_congr {m m' : List Bool → Option α} {k : List Bool} (h : ∀ p, p <+: k → m p = m' p) :
    longest m k = longest m' k := by
  induction k generalizing m m' with
  | nil => exact h [] List.nil_prefix
  | cons b k ih =>
    have htail : longest (fun p => m (b :: p)) k = longest (fun p => m' (b :: p)) k := by
      apply ih
      intro p hp
      exact h _ (List.cons_prefix_cons.mpr ⟨rfl, hp⟩)
    rw [longest, longest, htail, h [] List.nil_prefix]

theorem longest_eq_none_iff {m : List Bool → Option α} {k : List Bool} :
    longest m k = none ↔ ∀ p, p <+: k → m p = none := by
  induction k generalizing m with
  | nil =>
    constructor
    · intro h p hp
      rw [List.prefix_nil.mp hp]
      exact h
    · intro h
      exact h [] List.nil_prefix
  | cons b k ih =>
    rw [longest, Option.or_eq_none_iff, ih]
    constructor
    · rintro ⟨htail, hnil⟩ p hp
      rcases p with _ | ⟨c, p⟩
      · exact hnil
      · obtain ⟨rfl, hrest⟩ := List.cons_prefix_cons.mp hp
        exact htail p hrest
    · intro h
      exact ⟨fun p hp => h _ (List.cons_prefix_cons.mpr ⟨rfl, hp⟩), h [] List.nil_prefix⟩

/-- **The value at the longest prefix**, and nothing at a longer one. -/
theorem longest_eq_some_iff {m : List Bool → Option α} {k : List Bool} {v : α} :
    longest m k = some v ↔ ∃ p, p <+: k ∧ m p = some v ∧ ∀ q, q <+: k → p.length < q.length → m q = none := by
  induction k generalizing m with
  | nil =>
    constructor
    · intro h
      refine ⟨[], List.nil_prefix, h, fun q hq hlen => ?_⟩
      rw [List.prefix_nil.mp hq] at hlen
      exact absurd hlen (lt_irrefl _)
    · rintro ⟨p, hp, hv, -⟩
      rw [List.prefix_nil.mp hp] at hv
      exact hv
  | cons b k ih =>
    rw [longest, Option.or_eq_some_iff, ih]
    constructor
    · rintro (⟨p, hp, hv, hmax⟩ | ⟨hnone, hv⟩)
      · refine ⟨b :: p, List.cons_prefix_cons.mpr ⟨rfl, hp⟩, hv, fun q hq hlen => ?_⟩
        rcases q with _ | ⟨c, q⟩
        · exact absurd hlen (Nat.not_lt_zero _)
        · obtain ⟨rfl, hrest⟩ := List.cons_prefix_cons.mp hq
          exact hmax q hrest (Nat.lt_of_succ_lt_succ hlen)
      · refine ⟨[], List.nil_prefix, hv, fun q hq hlen => ?_⟩
        rcases q with _ | ⟨c, q⟩
        · exact absurd hlen (lt_irrefl _)
        · obtain ⟨rfl, hrest⟩ := List.cons_prefix_cons.mp hq
          exact longest_eq_none_iff.mp hnone q hrest
    · rintro ⟨p, hp, hv, hmax⟩
      rcases p with _ | ⟨c, p⟩
      · refine Or.inr ⟨longest_eq_none_iff.mpr fun q hq => ?_, hv⟩
        exact hmax (b :: q) (List.cons_prefix_cons.mpr ⟨rfl, hq⟩) (Nat.zero_lt_succ _)
      · obtain ⟨rfl, hrest⟩ := List.cons_prefix_cons.mp hp
        refine Or.inl ⟨p, hrest, hv, fun q hq hlen => ?_⟩
        exact hmax _ (List.cons_prefix_cons.mpr ⟨rfl, hq⟩) (Nat.succ_lt_succ hlen)

end Longest

/-! ### Numbers -/

/-- The `n` lowest bits of a number, the highest one first. -/
def bits : ℕ → ℕ → List Bool
  | 0, _ => []
  | n + 1, x => x.testBit n :: bits n x

@[simp] theorem length_bits (n x : ℕ) : (bits n x).length = n := by
  induction n with
  | zero => rfl
  | succ n ih => rw [bits, List.length_cons, ih]

/-- The first bits are those of a quotient. -/
theorem take_bits (s l x : ℕ) : (bits (s + l) x).take s = bits s (x / 2 ^ l) := by
  induction s with
  | zero => rfl
  | succ s ih =>
    rw [Nat.succ_add, bits, List.take_succ_cons, ih, bits, Nat.testBit_div_two_pow]

theorem testBit_of_bits_eq {n x y : ℕ} (h : bits n x = bits n y) : ∀ i < n, x.testBit i = y.testBit i := by
  induction n with
  | zero =>
    intro i hi
    exact absurd hi (Nat.not_lt_zero i)
  | succ n ih =>
    intro i hi
    obtain ⟨hhead, htail⟩ := List.cons.inj h
    rcases Nat.lt_succ_iff_lt_or_eq.mp hi with hlt | rfl
    · exact ih htail i hlt
    · exact hhead

theorem bits_inj {n x y : ℕ} (hx : x < 2 ^ n) (hy : y < 2 ^ n) (h : bits n x = bits n y) : x = y := by
  apply Nat.eq_of_testBit_eq
  intro i
  rcases Nat.lt_or_ge i n with hi | hi
  · exact testBit_of_bits_eq h i hi
  · have hpow : 2 ^ n ≤ 2 ^ i := Nat.pow_le_pow_right Nat.two_pos hi
    rw [Nat.testBit_lt_two_pow (hx.trans_le hpow), Nat.testBit_lt_two_pow (hy.trans_le hpow)]

/-- **A number has the first `s` bits of another one exactly if they are equal
after division.** -/
theorem bits_prefix_iff {s l x y : ℕ} (hx : x < 2 ^ (s + l)) (hy : y < 2 ^ (s + l)) :
    (bits (s + l) y).take s <+: bits (s + l) x ↔ x / 2 ^ l = y / 2 ^ l := by
  have hdiv : ∀ {z}, z < 2 ^ (s + l) → z / 2 ^ l < 2 ^ s := by
    intro z hz
    apply Nat.div_lt_of_lt_mul
    rwa [← Nat.pow_add, Nat.add_comm]
  have hlen : ((bits (s + l) y).take s).length = s := by simp
  rw [List.prefix_iff_eq_take, hlen, take_bits, take_bits]
  constructor
  · intro h
    exact (bits_inj (hdiv hy) (hdiv hx) h).symm
  · intro h
    rw [h]

end Prefixes
end OpsScripts
