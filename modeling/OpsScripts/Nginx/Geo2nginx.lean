/-
# Ranges of addresses as networks

`contrib/geo2nginx.pl` turns a table of ranges of addresses and countries into
the entries of a geo block: `print_subnets` cuts a range into networks, each
time the largest one that begins at the address reached and ends in the range.

The networks of a range are just its addresses (`mem_subnets`,
`exists_subnet`), so the variable of a block made from a table is the country
of the row that has the address (`geo_country`). A row that is 255.255.255.255 alone makes a
block that is refused, since that network cannot be read.

The rows come as numbers; the regular expression that finds them in a line is
not modelled.

Key definitions: `sizeFrom`, `subnets`, `long2ip`, `Row.entries`.
Key theorems: `mem_subnets`, `exists_subnet`, `meaning_entry`, `geo_country`.
-/
import OpsScripts.Nginx.Geo

namespace OpsScripts
namespace Nginx

/-! ### The networks of a range -/

/-- The inner loop of `print_subnets`. -/
def sizeFrom (a1 a2 l : ℕ) : ℕ :=
  if a1 &&& 1 <<< l = 0 ∧ a1 + (1 <<< (l + 1) - 1) ≤ a2 then sizeFrom a1 a2 (l + 1) else l
termination_by a2 - l
decreasing_by
  rename_i h
  have hlt : l + 1 < 1 <<< (l + 1) := by
    rw [Nat.one_shiftLeft]
    exact Nat.lt_two_pow_self
  omega

/-- The outer loop of `print_subnets`: an address and the number of low bits. -/
def subnets (a1 a2 : ℕ) : List (ℕ × ℕ) :=
  if a1 ≤ a2 then (a1, sizeFrom a1 a2 0) :: subnets (a1 + 1 <<< sizeFrom a1 a2 0) a2 else []
termination_by a2 + 1 - a1
decreasing_by
  have hpos : 0 < 1 <<< sizeFrom a1 a2 0 := by
    rw [Nat.one_shiftLeft]
    exact Nat.two_pow_pos _
  omega

/-- `long2ip`. -/
def long2ip (ip : ℕ) : IPv4 :=
  .of (ip >>> 8 >>> 8 >>> 8 &&& 255) (ip >>> 8 >>> 8 &&& 255) (ip >>> 8 &&& 255) (ip &&& 255)

/-- A line of the table, up to the country. -/
structure Row where
  lo : ℕ
  hi : ℕ
  country : Text
  hi_lt : hi < 2 ^ 32

/-- What `print_subnets` prints for a network. -/
def Row.entry (r : Row) (p : ℕ × ℕ) : Text × Text := (networkText (long2ip p.1) (32 - p.2), r.country)

/-- `print_subnets`. -/
def Row.entries (r : Row) : List (Text × Text) := (subnets r.lo r.hi).map r.entry

/-- The row has an address. -/
def Row.Has (r : Row) (y : BitVec 32) : Prop := r.lo ≤ y.toNat ∧ y.toNat ≤ r.hi

/-! ### They are the range -/

theorem dvd_succ_of_and_eq_zero {a l : ℕ} (h : 2 ^ l ∣ a) (hbit : a &&& 1 <<< l = 0) : 2 ^ (l + 1) ∣ a := by
  obtain ⟨m, rfl⟩ := h
  have htest : (2 ^ l * m).testBit l = false := by
    have hand := congrArg (fun n => n.testBit l) hbit
    simpa [Nat.one_shiftLeft, Nat.testBit_and, Nat.testBit_two_pow_self] using hand
  rw [Nat.testBit_two_pow_mul, Nat.sub_self] at htest
  have heven : m % 2 = 0 := by simpa using htest
  obtain ⟨k, rfl⟩ := Nat.dvd_of_mod_eq_zero heven
  exact ⟨k, by ring⟩

theorem sizeFrom_spec {a1 a2 l : ℕ} (hdvd : 2 ^ l ∣ a1) (hle : a1 + 2 ^ l ≤ a2 + 1) :
    l ≤ sizeFrom a1 a2 l ∧ 2 ^ sizeFrom a1 a2 l ∣ a1 ∧ a1 + 2 ^ sizeFrom a1 a2 l ≤ a2 + 1 := by
  fun_induction sizeFrom a1 a2 l with
  | case1 l h ih =>
    have hnext : a1 + 2 ^ (l + 1) ≤ a2 + 1 := by
      have := h.2
      rw [Nat.one_shiftLeft] at this
      omega
    obtain ⟨hl, hspec⟩ := ih (dvd_succ_of_and_eq_zero hdvd h.1) hnext
    exact ⟨by omega, hspec⟩
  | case2 l h => exact ⟨le_rfl, hdvd, hle⟩

theorem sizeFrom_zero {a1 a2 : ℕ} (h : a1 ≤ a2) :
    2 ^ sizeFrom a1 a2 0 ∣ a1 ∧ a1 + 2 ^ sizeFrom a1 a2 0 ≤ a2 + 1 :=
  (sizeFrom_spec (by simp) (by simpa using h)).2

/-- The networks are aligned and in the range. -/
theorem mem_subnets {a1 a2 : ℕ} {p : ℕ × ℕ} (h : p ∈ subnets a1 a2) :
    2 ^ p.2 ∣ p.1 ∧ a1 ≤ p.1 ∧ p.1 + 2 ^ p.2 ≤ a2 + 1 := by
  fun_induction subnets a1 a2 with
  | case1 a1 hle ih =>
    rcases List.mem_cons.mp h with rfl | hmem
    · obtain ⟨hdvd, hend⟩ := sizeFrom_zero hle
      exact ⟨hdvd, le_rfl, hend⟩
    · obtain ⟨hdvd, hlo, hend⟩ := ih hmem
      exact ⟨hdvd, (Nat.le_add_right _ _).trans hlo, hend⟩
  | case2 a1 hlt => cases h

/-- Every address of the range is in one. -/
theorem exists_subnet {a1 a2 y : ℕ} (hlo : a1 ≤ y) (hhi : y ≤ a2) :
    ∃ p ∈ subnets a1 a2, p.1 ≤ y ∧ y < p.1 + 2 ^ p.2 := by
  fun_induction subnets a1 a2 with
  | case1 a1 hle ih =>
    rcases Nat.lt_or_ge y (a1 + 2 ^ sizeFrom a1 a2 0) with hin | hout
    · exact ⟨_, List.mem_cons_self, hlo, hin⟩
    · rw [← Nat.one_shiftLeft] at hout
      obtain ⟨p, hp, hy⟩ := ih hout
      exact ⟨p, List.mem_cons_of_mem _ hp, hy⟩
  | case2 a1 hlt => omega

/-- An odd number that ends the range begins a network only if it begins the range. -/
theorem start_ne {m a1 a2 : ℕ} (hodd : m % 2 = 1) (hhi : a2 ≤ m) (hlo : a1 ≠ m) {p : ℕ × ℕ} (h : p ∈ subnets a1 a2) :
    p.1 ≠ m := by
  fun_induction subnets a1 a2 with
  | case1 a1 hle ih =>
    rcases List.mem_cons.mp h with rfl | hmem
    · exact hlo
    · refine ih ?_ hmem
      rw [Nat.one_shiftLeft]
      intro heq
      -- the network before it has one address, but two would fit
      obtain ⟨hdvd, hend⟩ := sizeFrom_zero hle
      obtain ⟨hnext, -⟩ := mem_subnets hmem
      have hm : m ≤ a2 := by
        have := (mem_subnets hmem).2
        rw [Nat.one_shiftLeft, heq] at this
        have := Nat.two_pow_pos p.2
        omega
      rcases hsize : sizeFrom a1 a2 0 with _ | k
      · rw [hsize] at heq
        have hstep : sizeFrom a1 a2 0 = sizeFrom a1 a2 1 := by
          rw [sizeFrom, if_pos]
          refine ⟨?_, ?_⟩
          · rw [Nat.shiftLeft_zero, Nat.and_one_is_mod]
            omega
          · show a1 + 1 ≤ a2
            omega
        have hone := (sizeFrom_spec (show 2 ^ 1 ∣ a1 by omega) (show a1 + 2 ^ 1 ≤ a2 + 1 by omega)).1
        omega
      · rw [hsize, pow_succ] at hdvd heq
        have heven : 2 ∣ a1 := (Dvd.intro_left _ rfl).trans hdvd
        omega
  | case2 a1 hlt => cases h

/-! ### The block of a table -/

theorem inaddr_long2ip {n : ℕ} (h : n < 2 ^ 32) : inaddr (long2ip n) = n := by
  have hand : ∀ k, k &&& 255 = k % 256 := fun k => Nat.and_two_pow_sub_one_eq_mod k 8
  simp only [inaddr, long2ip, IPv4.of, hand, Nat.shiftRight_eq_div_pow, Fin.val_ofNat]
  omega

theorem long2ip_eq_broadcast {n : ℕ} (h : n < 2 ^ 32) : long2ip n = .of 255 255 255 255 ↔ n = 2 ^ 32 - 1 := by
  constructor
  · intro heq
    have hnum := congrArg inaddr heq
    rw [inaddr_long2ip h] at hnum
    exact hnum
  · rintro rfl
    decide

theorem div_eq_div_iff_of_dvd {a y l : ℕ} (h : 2 ^ l ∣ a) : y / 2 ^ l = a / 2 ^ l ↔ a ≤ y ∧ y < a + 2 ^ l := by
  obtain ⟨m, rfl⟩ := h
  have hpos := Nat.two_pow_pos l
  rw [Nat.mul_div_cancel_left m hpos, Nat.div_eq_iff hpos]
  rw [Nat.mul_comm m]
  omega

/-- An entry of a row is its network with the country. -/
theorem meaning_entry {r : Row} {p : ℕ × ℕ} (hp : p ∈ subnets r.lo r.hi) (hne : p.1 ≠ 2 ^ 32 - 1) :
    ∃ c, meaning (r.entry p) = some (c, some r.country) ∧
      ∀ s y, c.has s y = true ↔ s = 32 - p.2 ∧ p.1 ≤ y.toNat ∧ y.toNat < p.1 + 2 ^ p.2 := by
  obtain ⟨hdvd, -, hend⟩ := mem_subnets hp
  have hpos := Nat.two_pow_pos p.2
  have hlt : p.1 < 2 ^ 32 := by
    have := r.hi_lt
    omega
  have hsize : p.2 ≤ 32 := by
    have hpow : 2 ^ p.2 ≤ 2 ^ 32 := by
      have := r.hi_lt
      omega
    exact (Nat.pow_le_pow_iff_right (by norm_num)).mp hpow
  have hback : 32 - (32 - p.2) = p.2 := by omega
  obtain ⟨c, tidy, hread, hshift, haddr, -⟩ :=
    cidrValue_networkText (s := 32 - p.2) (by omega) (mt (long2ip_eq_broadcast hlt).mp hne)
  refine ⟨c, ?_, fun s y => ?_⟩
  · rw [Row.entry, meaning_networkText, hread, Option.map_some]
  · rw [hback, inaddr_long2ip hlt, Nat.div_mul_cancel hdvd] at haddr
    rw [Cidr.has, decide_eq_true_iff, hshift, haddr, eq_comm]
    constructor
    · rintro ⟨rfl, h⟩
      rw [hback] at h
      exact ⟨rfl, (div_eq_div_iff_of_dvd hdvd).mp h⟩
    · rintro ⟨rfl, h⟩
      rw [hback]
      exact ⟨rfl, (div_eq_div_iff_of_dvd hdvd).mpr h⟩

theorem valueOf_eq_some {es : List (Text × Text)} {s : ℕ} {y : BitVec 32} {v : Text} (h : valueOf es s y = some v) :
    ∃ e ∈ es, ∃ c, meaning e = some (c, some v) ∧ c.has s y = true := by
  obtain ⟨⟨c, w⟩, hlast, rfl⟩ := Option.bind_eq_some_iff.mp h
  obtain ⟨hmem, hhas⟩ := List.mem_filter.mp (List.mem_of_getLast? hlast)
  obtain ⟨e, he, hmeaning⟩ := List.mem_filterMap.mp hmem
  exact ⟨e, he, c, hmeaning, hhas⟩

theorem valueOf_ne_none {es : List (Text × Text)} {s : ℕ} {y : BitVec 32} (hkept : ∀ e ∈ es, ¬ Deletes e)
    {e : Text × Text} (he : e ∈ es) {c : Cidr} {w : Option Text} (hm : meaning e = some (c, w))
    (hhas : c.has s y = true) : valueOf es s y ≠ none := by
  have hmem : (c, w) ∈ (es.filterMap meaning).filter fun m => m.1.has s y :=
    List.mem_filter.mpr ⟨List.mem_filterMap.mpr ⟨e, he, hm⟩, hhas⟩
  rcases hlast : ((es.filterMap meaning).filter fun m => m.1.has s y).getLast? with _ | ⟨c', w'⟩
  · rw [List.getLast?_eq_none_iff.mp hlast] at hmem
    cases hmem
  · rw [valueOf, hlast, Option.bind_some]
    rintro rfl
    obtain ⟨e', he', hm'⟩ := List.mem_filterMap.mp (List.mem_filter.mp (List.mem_of_getLast? hlast)).1
    exact hkept e' he' ⟨c', hm'⟩

/-- The entries of a table. -/
def tableEntries (rows : List Row) : List (Text × Text) := rows.flatMap Row.entries

theorem mem_tableEntries {rows : List Row} {e : Text × Text} (h : e ∈ tableEntries rows) :
    ∃ r ∈ rows, ∃ p ∈ subnets r.lo r.hi, e = r.entry p := by
  obtain ⟨r, hr, he⟩ := List.mem_flatMap.mp h
  obtain ⟨p, hp, rfl⟩ := List.mem_map.mp he
  exact ⟨r, hr, p, hp, rfl⟩

theorem entry_mem {rows : List Row} {r : Row} {p : ℕ × ℕ} (hr : r ∈ rows) (hp : p ∈ subnets r.lo r.hi) :
    r.entry p ∈ tableEntries rows :=
  List.mem_flatMap.mpr ⟨r, hr, List.mem_map.mpr ⟨p, hp, rfl⟩⟩

theorem not_deletes {rows : List Row} {e : Text × Text} (h : e ∈ tableEntries rows) : ¬ Deletes e := by
  obtain ⟨r, -, p, -, rfl⟩ := mem_tableEntries h
  rintro ⟨c, hc⟩
  rw [Row.entry, meaning_networkText] at hc
  obtain ⟨x, -, hx⟩ := Option.map_eq_some_iff.mp hc
  cases (Prod.mk.inj hx).2

/-- No row is 255.255.255.255 alone. -/
def Readable (rows : List Row) : Prop := ∀ r ∈ rows, ¬ (r.lo = 2 ^ 32 - 1 ∧ r.hi = 2 ^ 32 - 1)

theorem start_readable {rows : List Row} (h : Readable rows) {r : Row} (hr : r ∈ rows) {p : ℕ × ℕ}
    (hp : p ∈ subnets r.lo r.hi) : p.1 ≠ 2 ^ 32 - 1 := by
  have hhi : r.hi ≤ 2 ^ 32 - 1 := Nat.le_sub_one_of_lt r.hi_lt
  by_cases hlo : r.lo = 2 ^ 32 - 1
  · obtain ⟨-, -, hend⟩ := mem_subnets hp
    have hpos := Nat.two_pow_pos p.2
    have hne : r.hi ≠ 2 ^ 32 - 1 := fun heq => h r hr ⟨hlo, heq⟩
    omega
  · exact start_ne (by norm_num) hhi hlo hp

theorem meaning_of_readable {rows : List Row} (h : Readable rows) {e : Text × Text} (he : e ∈ tableEntries rows) :
    ∃ r ∈ rows, ∃ p ∈ subnets r.lo r.hi, ∃ c, meaning e = some (c, some r.country) ∧
      ∀ s y, c.has s y = true ↔ s = 32 - p.2 ∧ p.1 ≤ y.toNat ∧ y.toNat < p.1 + 2 ^ p.2 := by
  obtain ⟨r, hr, p, hp, rfl⟩ := mem_tableEntries he
  exact ⟨r, hr, p, hp, meaning_entry hp (start_readable h hr hp)⟩

/-- A value that the entries give an address is the country of a row that has it. -/
theorem row_of_valueOf {rows : List Row} (h : Readable rows) {s : ℕ} {y : BitVec 32} {v : Text}
    (hv : valueOf (tableEntries rows) s y = some v) : ∃ r ∈ rows, r.Has y ∧ v = r.country := by
  obtain ⟨e, he, c, hm, hhas⟩ := valueOf_eq_some hv
  obtain ⟨r, hr, p, hp, c', hm', hiff⟩ := meaning_of_readable h he
  obtain ⟨rfl, hcountry⟩ := Prod.mk.inj (Option.some.inj (hm.symm.trans hm'))
  obtain ⟨-, hlo, hhi⟩ := (hiff s y).mp hhas
  obtain ⟨-, hstart, hend⟩ := mem_subnets hp
  refine ⟨r, hr, ⟨by omega, by omega⟩, Option.some.inj hcountry⟩

/-- An address of a row has a value. -/
theorem valueOf_of_row {rows : List Row} (h : Readable rows) {r : Row} (hr : r ∈ rows) {y : BitVec 32} (hy : r.Has y) :
    ∃ s ≤ 32, valueOf (tableEntries rows) s y ≠ none := by
  obtain ⟨p, hp, hlo, hhi⟩ := exists_subnet hy.1 hy.2
  obtain ⟨c, hm, hiff⟩ := meaning_entry hp (start_readable h hr hp)
  refine ⟨32 - p.2, Nat.sub_le _ _, ?_⟩
  apply valueOf_ne_none (fun e he => not_deletes he) (entry_mem hr hp) hm
  exact (hiff _ y).mpr ⟨rfl, hlo, hhi⟩

/-- Rows with an address in common have the same country. -/
def Agree (rows : List Row) : Prop :=
  ∀ r ∈ rows, ∀ q ∈ rows, r.lo ≤ q.hi → q.lo ≤ r.hi → r.country = q.country

/-- What the table says about an address. -/
structure Country (rows : List Row) (y : BitVec 32) (v : Text) : Prop where
  row (r : Row) (hr : r ∈ rows) (hy : r.Has y) : v = r.country
  nothing (hnone : ∀ r ∈ rows, ¬ r.Has y) : v = []

theorem country_of_answer {rows : List Row} (h : Readable rows) (hagree : Agree rows) {y : BitVec 32} {v : Text}
    (hv : Answer (tableEntries rows) y v) : Country rows y v := by
  rcases hv with ⟨s, hs, hvalue, -⟩ | ⟨rfl, hnone⟩
  · obtain ⟨q, hq, hy, rfl⟩ := row_of_valueOf h hvalue
    refine ⟨fun r hr hy' => ?_, fun hnone => absurd hy (hnone q hq)⟩
    exact hagree q hq r hr (hy.1.trans hy'.2) (hy'.1.trans hy.2)
  · refine ⟨fun r hr hy => ?_, fun _ => rfl⟩
    obtain ⟨s, hs, hne⟩ := valueOf_of_row h hr hy
    exact absurd (hnone s hs) hne

/-- The line in the comment of the script. -/
def russia : Row := ⟨1041253376, 1041268735, "RU".toList, by decide⟩

end Nginx
end OpsScripts
