/-
# Taking turns by weight

In each turn every member earns its share, and a member that is then richest
pays what all of them earned together. The credits of all members add up to
the same before and after (`sum_turn`), and nobody ever owes a whole turn
(`lt_turn`). So a member is never ahead of its share of the turns by one or
more, it is behind by at most the number of the others, and after as many
turns as the shares add up to, or a multiple of them, each has had exactly its
share (`count_eq_weight`).

Key definitions: `turn`, `Richest`, `turns`, `Proper`.
Key theorems: `turns_apply`, `count_lt`, `lt_count`, `count_eq_weight`.
-/
import Mathlib.Algebra.BigOperators.Group.Finset.Piecewise
import Mathlib.Algebra.BigOperators.Ring.Finset
import Mathlib.Algebra.Order.BigOperators.Group.Finset
import Mathlib.Algebra.Order.Ring.Int
import Mathlib.Tactic.Linarith
import Mathlib.Tactic.Ring

namespace OpsScripts
namespace Turns

variable {ι : Type*}

/-- Nobody has more than `b`, once everyone has earned `e`. -/
def Richest (s : Finset ι) (e c : ι → ℤ) (b : ι) : Prop := b ∈ s ∧ ∀ i ∈ s, c i + e i ≤ c b + e b

variable [DecidableEq ι]

/-- Everyone earns `e`, and `b` pays what the members `s` earned. -/
def turn (s : Finset ι) (e : ι → ℤ) (c : ι → ℤ) (b : ι) : ι → ℤ :=
  fun i => c i + e i - if i = b then ∑ j ∈ s, e j else 0

/-- The credits after the turns of `bs`. -/
def turns (s : Finset ι) (e : ι → ℤ) : (ι → ℤ) → List ι → (ι → ℤ)
  | c, [] => c
  | c, b :: bs => turns s e (turn s e c b) bs

/-- Each turn is taken by one of the richest. -/
def Proper (s : Finset ι) (e : ι → ℤ) : (ι → ℤ) → List ι → Prop
  | _, [] => True
  | c, b :: bs => Richest s e c b ∧ Proper s e (turn s e c b) bs

section Turn

variable {s : Finset ι} {e c : ι → ℤ} {b : ι}

theorem sum_turn (hb : b ∈ s) : ∑ i ∈ s, turn s e c b i = ∑ i ∈ s, c i := by
  have hpay : ∑ i ∈ s, (if i = b then ∑ j ∈ s, e j else 0) = ∑ j ∈ s, e j := by
    rw [Finset.sum_ite_eq' s b, if_pos hb]
  calc ∑ i ∈ s, turn s e c b i = ∑ i ∈ s, (c i + e i) - ∑ i ∈ s, (if i = b then ∑ j ∈ s, e j else 0) := by
        simp only [turn, Finset.sum_sub_distrib]
    _ = ∑ i ∈ s, c i := by
        rw [hpay, Finset.sum_add_distrib]
        ring

omit [DecidableEq ι] in
/-- The richest one has something, if the credits add up to nothing. -/
theorem Richest.pos (hb : Richest s e c b) (hsum : ∑ i ∈ s, c i = 0) (he : 0 < ∑ i ∈ s, e i) : 0 < c b + e b := by
  by_contra hle
  have hall : ∑ i ∈ s, (c i + e i) ≤ 0 := by
    apply Finset.sum_nonpos
    intro i hi
    exact (hb.2 i hi).trans (not_lt.mp hle)
  rw [Finset.sum_add_distrib, hsum] at hall
  omega

/-- Nobody gets to owe a whole turn. -/
theorem lt_turn (hb : Richest s e c b) (hsum : ∑ i ∈ s, c i = 0) (he : 0 < ∑ i ∈ s, e i) (hpos : ∀ i ∈ s, 0 ≤ e i)
    (hlow : ∀ i ∈ s, -(∑ j ∈ s, e j) < c i) : ∀ i ∈ s, -(∑ j ∈ s, e j) < turn s e c b i := by
  intro i hi
  unfold turn
  by_cases hib : i = b
  · have hrich := hb.pos hsum he
    rw [if_pos hib, hib]
    omega
  · have hown := hlow i hi
    have hearn := hpos i hi
    rw [if_neg hib]
    omega

end Turn

/-! ### Many turns -/

section Turns

variable {s : Finset ι} {e : ι → ℤ}

theorem turns_append (c : ι → ℤ) (bs cs : List ι) : turns s e c (bs ++ cs) = turns s e (turns s e c bs) cs := by
  induction bs generalizing c with
  | nil => rfl
  | cons b bs ih => exact ih (turn s e c b)

theorem proper_append {c : ι → ℤ} {bs cs : List ι} :
    Proper s e c (bs ++ cs) ↔ Proper s e c bs ∧ Proper s e (turns s e c bs) cs := by
  induction bs generalizing c with
  | nil => exact ⟨fun h => ⟨trivial, h⟩, fun h => h.2⟩
  | cons b bs ih =>
    constructor
    · rintro ⟨hb, h⟩
      exact ⟨⟨hb, (ih.mp h).1⟩, (ih.mp h).2⟩
    · rintro ⟨⟨hb, h⟩, h'⟩
      exact ⟨hb, ih.mpr ⟨h, h'⟩⟩

/-- A member's credit is what it has earned less what it has paid. -/
theorem turns_apply (c : ι → ℤ) (bs : List ι) (i : ι) :
    turns s e c bs i = c i + bs.length * e i - bs.count i * ∑ j ∈ s, e j := by
  induction bs generalizing c with
  | nil => simp [turns]
  | cons b bs ih =>
    rw [turns, ih]
    by_cases hib : i = b
    · subst hib
      rw [turn, if_pos rfl, List.count_cons_self, List.length_cons]
      push_cast
      ring
    · rw [turn, if_neg hib, List.count_cons_of_ne (Ne.symm hib), List.length_cons]
      push_cast
      ring

variable (hpos : ∀ i ∈ s, 0 ≤ e i) (he : 0 < ∑ i ∈ s, e i)
include hpos he

/-- What holds of the credits at any time. -/
theorem turns_spec {c : ι → ℤ} {bs : List ι} (h : Proper s e c bs) (hsum : ∑ i ∈ s, c i = 0)
    (hlow : ∀ i ∈ s, -(∑ j ∈ s, e j) < c i) :
    ∑ i ∈ s, turns s e c bs i = 0 ∧ ∀ i ∈ s, -(∑ j ∈ s, e j) < turns s e c bs i := by
  induction bs generalizing c with
  | nil => exact ⟨hsum, hlow⟩
  | cons b bs ih =>
    apply ih h.2
    · rw [sum_turn h.1.1, hsum]
    · exact lt_turn h.1 hsum he hpos hlow

theorem turns_zero_spec {bs : List ι} (h : Proper s e (fun _ => 0) bs) :
    ∑ i ∈ s, turns s e (fun _ => 0) bs i = 0 ∧ ∀ i ∈ s, -(∑ j ∈ s, e j) < turns s e (fun _ => 0) bs i := by
  apply turns_spec hpos he h
  · exact Finset.sum_const_zero
  · intro i _
    omega

/-- **Nobody is ahead of its share by a turn.** -/
theorem count_lt {bs : List ι} (h : Proper s e (fun _ => 0) bs) {i : ι} (hi : i ∈ s) :
    bs.count i * ∑ j ∈ s, e j < bs.length * e i + ∑ j ∈ s, e j := by
  have hlow := (turns_zero_spec hpos he h).2 i hi
  rw [turns_apply] at hlow
  omega

/-- **Nobody is behind its share by more turns than there are others.** -/
theorem lt_count {bs : List ι} (h : Proper s e (fun _ => 0) bs) {i : ι} (hi : i ∈ s) :
    bs.length * e i ≤ (bs.count i + (s.card - 1)) * ∑ j ∈ s, e j := by
  obtain ⟨hsum, hlow⟩ := turns_zero_spec hpos he h
  have hrest : ∑ j ∈ s.erase i, -(∑ j ∈ s, e j) ≤ ∑ j ∈ s.erase i, turns s e (fun _ => 0) bs j := by
    apply Finset.sum_le_sum
    intro j hj
    exact (hlow j (Finset.mem_of_mem_erase hj)).le
  have hcard : ((s.erase i).card : ℤ) = s.card - 1 := by
    rw [Finset.card_erase_of_mem hi, Nat.cast_sub (Finset.card_pos.mpr ⟨i, hi⟩), Nat.cast_one]
  rw [Finset.sum_const, nsmul_eq_mul, hcard] at hrest
  have hsplit := Finset.add_sum_erase s (turns s e (fun _ => 0) bs) hi
  rw [hsum, turns_apply] at hsplit
  linarith

/-- **After a multiple of the turns that the shares add up to, each has had
that multiple of its share**, and the credits are what they were. -/
theorem count_eq_weight {bs : List ι} (h : Proper s e (fun _ => 0) bs) (hmem : ∀ b ∈ bs, b ∈ s) {k : ℕ}
    (hlen : (bs.length : ℤ) = k * ∑ j ∈ s, e j) :
    (∀ i ∈ s, (bs.count i : ℤ) = k * e i) ∧ ∀ i ∈ s, turns s e (fun _ => 0) bs i = 0 := by
  have hle : ∀ i ∈ s, (bs.count i : ℤ) ≤ k * e i := by
    intro i hi
    have hlt := count_lt hpos he h hi
    rw [hlen] at hlt
    nlinarith
  have htotal : ∑ i ∈ s, (bs.count i : ℤ) = ∑ i ∈ s, k * e i := by
    have hcount := Multiset.sum_count_eq_card (m := (bs : Multiset ι)) hmem
    simp only [Multiset.coe_count, Multiset.coe_card] at hcount
    rw [← Finset.mul_sum, ← hlen, ← Nat.cast_sum, hcount]
  have heq : ∀ i ∈ s, (bs.count i : ℤ) = k * e i := (Finset.sum_eq_sum_iff_of_le hle).mp htotal
  refine ⟨heq, fun i hi => ?_⟩
  rw [turns_apply, heq i hi, hlen]
  ring

end Turns

end Turns
end OpsScripts
