/-
# Internet addresses as text

IPv4 addresses in dotted form and IPv6 addresses as `inet_ntop` prints them:
the longest run of two or more zero groups, the first one if there are
several, becomes `::`, and an address with an IPv4 address embedded in it
ends in dotted form.

The text of an address says whether it is a loopback address
(`Addr.loopback_eq_text`), and it has no blank in it, so it is one column of
a table.

Key definitions: `IPv4.text`, `IPv6.text`, `Addr.loopback`.
-/
import OpsScripts.Calendar

namespace OpsScripts

/-! ### Decimal and hexadecimal -/

theorem notMem_decimal {c : Char} (h : c.isDigit = false) (n : ℕ) : c ∉ decimal n := fun hc => by
  rw [Nat.isDigit_of_mem_toDigits (by norm_num) (by norm_num) hc] at h
  cases h

theorem decimal_ne_nil (n : ℕ) : decimal n ≠ [] := Nat.toDigits_ne_nil

theorem decimal_inj {m n : ℕ} (h : decimal m = decimal n) : m = n := by
  rw [← Nat.ofDigitChars_ten_toDigits (n := m), ← Nat.ofDigitChars_ten_toDigits (n := n)]
  exact congrArg (Nat.ofDigitChars 10 · 0) h

/-- A group of an IPv6 address. -/
def hex (n : ℕ) : Text := Nat.toDigits 16 n

theorem hex_ne_nil (n : ℕ) : hex n ≠ [] := Nat.toDigits_ne_nil

theorem mem_hex (n : ℕ) : ∀ c ∈ hex n, ∃ d < 16, c = d.digitChar := by
  induction n using Nat.strongRecOn with
  | ind n ih =>
    intro c hc
    rcases Nat.lt_or_ge n 16 with hn | hn
    · rw [hex, Nat.toDigits_of_lt_base hn, List.mem_singleton] at hc
      exact ⟨n, hn, hc⟩
    · rw [hex, Nat.toDigits_of_base_le (by norm_num) hn, List.mem_append, List.mem_singleton] at hc
      rcases hc with hc | hc
      · exact ih _ (by omega) c hc
      · exact ⟨n % 16, Nat.mod_lt _ (by norm_num), hc⟩

theorem notMem_hex {c : Char} (h : ∀ d < 16, c ≠ Nat.digitChar d) (n : ℕ) : c ∉ hex n := fun hc => by
  obtain ⟨d, hd, e⟩ := mem_hex n c hc
  exact h d hd e

theorem hex_eq_one {n : ℕ} (h : hex n = ['1']) : n = 1 := by
  rcases Nat.lt_or_ge n 16 with hn | hn
  · rw [hex, Nat.toDigits_of_lt_base hn] at h
    interval_cases n <;> first | rfl | (revert h; decide)
  · rw [hex, Nat.toDigits_of_base_le (by norm_num) hn] at h
    have hlen := congrArg List.length h
    have := List.length_pos_iff.mpr (hex_ne_nil (n / 16))
    rw [hex] at this
    rw [List.length_append, List.length_singleton, List.length_singleton] at hlen
    omega

/-! ### Addresses -/

/-- An IPv4 address. -/
structure IPv4 where
  a : Fin 256
  b : Fin 256
  c : Fin 256
  d : Fin 256
  deriving DecidableEq

/-- The address with these four numbers. -/
def IPv4.of (a b c d : ℕ) : IPv4 := ⟨Fin.ofNat 256 a, Fin.ofNat 256 b, Fin.ofNat 256 c, Fin.ofNat 256 d⟩

/-- Four numbers in dotted form. -/
def dotted (a b c d : ℕ) : Text :=
  decimal a ++ '.' :: (decimal b ++ '.' :: (decimal c ++ '.' :: decimal d))

/-- The text of an IPv4 address. -/
def IPv4.text (x : IPv4) : Text := dotted x.a x.b x.c x.d

/-- An IPv6 address, in eight groups. -/
structure IPv6 where
  groups : Fin 8 → Fin 65536
  deriving DecidableEq

/-- The groups as numbers. -/
def IPv6.words (x : IPv6) : List ℕ := List.ofFn fun i => (x.groups i).val

/-- How many zeros a list starts with. -/
def zeroRun (ws : List ℕ) : ℕ := (ws.takeWhile (· = 0)).length

/-- The first of the longest runs of zeros, where it starts and how long it
is, if there are two zeros in a row at all. -/
def bestRun (ws : List ℕ) : Option (ℕ × ℕ) :=
  let runs := ws.tails.map zeroRun
  let n := runs.foldr max 0
  if n < 2 then none else some (runs.idxOf n, n)

/-- Groups with colons between them. -/
def hexText (ws : List ℕ) : Text := [':'].intercalate (ws.map hex)

/-- Two groups in dotted form. -/
def dottedPair (hi lo : ℕ) : Text := dotted (hi / 256) (hi % 256) (lo / 256) (lo % 256)

/-- The text of a list of eight groups. -/
def groupsText (ws : List ℕ) : Text :=
  match bestRun ws with
  | none => hexText ws
  | some (b, n) =>
    if b = 0 ∧ n = 6 then "::".toList ++ dottedPair (ws.getD 6 0) (ws.getD 7 0)
    else if b = 0 ∧ n = 5 ∧ ws.getD 5 0 = 65535 then
      "::ffff:".toList ++ dottedPair (ws.getD 6 0) (ws.getD 7 0)
    else hexText (ws.take b) ++ "::".toList ++ hexText (ws.drop (b + n))

/-- The text of an IPv6 address. -/
def IPv6.text (x : IPv6) : Text := groupsText x.words

/-- An address of either kind. -/
inductive Addr
  | v4 (x : IPv4)
  | v6 (x : IPv6)
  deriving DecidableEq

namespace Addr

def text : Addr → Text
  | v4 x => x.text
  | v6 x => x.text

/-- A loopback address: `127.0.0.0/8` or `::1`. -/
def loopback : Addr → Bool
  | v4 x => decide (x.a = 127)
  | v6 x => decide (x.words = [0, 0, 0, 0, 0, 0, 0, 1])

end Addr

/-! ### What the text shows -/

theorem notMem_dotted {c : Char} (hd : c.isDigit = false) (hc : c ≠ '.') (w x y z : ℕ) :
    c ∉ dotted w x y z := by
  simp [dotted, notMem_decimal hd, hc]

theorem notMem_hexText {c : Char} (h : ∀ d < 16, c ≠ Nat.digitChar d) (hc : c ≠ ':') (ws : List ℕ) :
    c ∉ hexText ws := by
  induction ws with
  | nil => simp [hexText]
  | cons w ws ih =>
    cases ws with
    | nil => simpa [hexText] using notMem_hex h w
    | cons v ws =>
      simp only [hexText, List.map_cons, List.intercalate_cons_cons, List.mem_append,
        List.mem_singleton, not_or] at ih ⊢
      exact ⟨⟨notMem_hex h w, hc⟩, ih⟩

/-- A character that is in no address. -/
structure Foreign (c : Char) : Prop where
  digit : c.isDigit = false
  hex : ∀ d < 16, c ≠ Nat.digitChar d
  dot : c ≠ '.'
  colon : c ≠ ':'

theorem notMem_groupsText {c : Char} (h : Foreign c) (ws : List ℕ) : c ∉ groupsText ws := by
  have hf : c ≠ 'f' := h.hex 15 (by norm_num)
  unfold groupsText
  split
  · exact notMem_hexText h.hex h.colon ws
  · split
    · simp [dottedPair, notMem_dotted h.digit h.dot, h.colon]
    · split
      · simp [dottedPair, notMem_dotted h.digit h.dot, h.colon, hf]
      · simp [notMem_hexText h.hex h.colon, h.colon]

/-- An address is made of digits, dots and colons. -/
theorem Addr.notMem_text {c : Char} (h : Foreign c) (x : Addr) : c ∉ x.text := by
  cases x with
  | v4 x => exact notMem_dotted h.digit h.dot _ _ _ _
  | v6 x => exact notMem_groupsText h _

theorem colon_notMem_v4 (x : IPv4) : ':' ∉ (Addr.v4 x).text :=
  notMem_dotted (by decide) (by decide) _ _ _ _

theorem colon_mem_hexText {v w : ℕ} (ws : List ℕ) : ':' ∈ hexText (v :: w :: ws) := by
  simp [hexText, List.intercalate_cons_cons]

theorem colon_mem_v6 (x : IPv6) : ':' ∈ (Addr.v6 x).text := by
  change ':' ∈ groupsText x.words
  unfold groupsText
  split
  · exact colon_mem_hexText _
  · split
    · simp
    · split <;> simp

/-- The groups come back from their text. -/
theorem splitOn_hexText {ws : List ℕ} (hne : ws ≠ []) : (hexText ws).splitOn ':' = ws.map hex := by
  refine List.splitOn_intercalate ':' (fun l hl => ?_) (by simpa using hne)
  obtain ⟨w, -, rfl⟩ := List.mem_map.mp hl
  exact notMem_hex (by decide) w

/-- Groups whose text is `1` are one group, the number one. -/
theorem hexText_eq_one {ws : List ℕ} (h : hexText ws = ['1']) : ws = [1] := by
  have hne : ws ≠ [] := by
    rintro rfl
    cases h
  have hs := splitOn_hexText hne
  rw [h] at hs
  have hone : ws.map hex = [['1']] := by rw [← hs]; decide
  obtain ⟨w, rfl, hw⟩ := List.map_eq_singleton_iff.mp hone
  rw [hex_eq_one hw]

/-- A run of zeros from the start of the list. -/
theorem eq_replicate_of_bestRun {ws : List ℕ} {n : ℕ} (h : bestRun ws = some (0, n)) :
    ws.take n = List.replicate n 0 := by
  have hn : zeroRun ws = n := by
    unfold bestRun at h
    simp only at h
    split at h
    · cases h
    · obtain ⟨hidx, hmax⟩ := Prod.mk.inj (Option.some.inj h)
      rw [hmax] at hidx
      cases hws : ws.tails.map zeroRun with
      | nil => cases ws <;> simp at hws
      | cons r rs =>
        have hr : r = zeroRun ws := by
          cases ws with
          | nil => simp at hws; exact hws.1.symm
          | cons w ws => simp at hws; exact hws.1.symm
        rw [hws, List.idxOf_cons] at hidx
        by_cases hrn : r = n
        · rw [← hr, hrn]
        · rw [show (r == n) = false by simpa using hrn] at hidx
          cases hidx
  have htake : ws.take n = ws.takeWhile (· = 0) := by
    rw [← hn, zeroRun]
    exact (List.prefix_iff_eq_take.mp (List.takeWhile_prefix _)).symm
  rw [List.eq_replicate_iff]
  refine ⟨by rw [htake, ← hn, zeroRun], fun b hb => ?_⟩
  rw [htake] at hb
  simpa using List.mem_takeWhile_imp hb

/-- Only the loopback address is printed `::1`. -/
theorem groupsText_eq_loopback {ws : List ℕ} (hlen : ws.length = 8) :
    groupsText ws = "::1".toList ↔ ws = [0, 0, 0, 0, 0, 0, 0, 1] := by
  constructor
  · intro h
    unfold groupsText at h
    have hdot : ∀ w x y z : ℕ, '.' ∈ dotted w x y z := fun w x y z => by simp [dotted]
    have hnodot : '.' ∉ "::1".toList := by decide
    split at h
    · -- eight groups have seven colons
      have hs := splitOn_hexText (List.ne_nil_of_length_pos (by rw [hlen]; norm_num))
      rw [h] at hs
      have := congrArg List.length hs
      rw [List.length_map, hlen] at this
      exact absurd this (by decide)
    · rename_i b n hbest
      split at h
      · exact absurd (h ▸ List.mem_append_right _ (hdot ..)) hnodot
      · split at h
        · exact absurd (h ▸ List.mem_append_right _ (hdot ..)) hnodot
        · cases hb : ws.take b with
          | nil =>
            have hb0 : b = 0 := by
              rcases List.take_eq_nil_iff.mp hb with hb | hb
              · exact hb
              · rw [hb] at hlen; cases hlen
            subst hb0
            rw [List.take_zero, Nat.zero_add] at h
            have htail : "::".toList ++ hexText (ws.drop n) = "::".toList ++ ['1'] := h
            have hone : ws.drop n = [1] := hexText_eq_one (List.append_cancel_left htail)
            have hn : n = 7 := by
              have := congrArg List.length hone
              rw [List.length_drop, hlen, List.length_singleton] at this
              omega
            subst hn
            rw [← List.take_append_drop 7 ws, eq_replicate_of_bestRun hbest, hone]
            rfl
          | cons w ws' =>
            -- the text would start with a digit
            rw [hb] at h
            obtain ⟨c, t, hct⟩ := List.exists_cons_of_ne_nil (hex_ne_nil w)
            have hc : c = ':' := by
              cases ws' with
              | nil => simp [hexText, hct] at h; exact h.1
              | cons v vs =>
                simp [hexText, List.intercalate_cons_cons, hct] at h
                exact h.1
            exact absurd (show ':' ∈ hex w by rw [hct, hc]; exact List.mem_cons_self)
              (notMem_hex (by decide) w)
  · rintro rfl
    decide

/-- The loopback addresses, by their text. -/
def loopbackText (t : Text) : Bool :=
  decide (t = "::1".toList) || (decide ("127.".toList <+: t) && decide (':' ∉ t))

/-- **An address shows whether it is a loopback address.** -/
theorem Addr.loopback_eq_text (x : Addr) : x.loopback = loopbackText x.text := by
  cases x with
  | v4 x =>
    have hcolon := colon_notMem_v4 x
    have hne : (Addr.v4 x).text ≠ "::1".toList := fun e => hcolon (by rw [e]; decide)
    have hpre : "127.".toList <+: (Addr.v4 x).text ↔ x.a = 127 := by
      constructor
      · rintro ⟨t, ht⟩
        have h := congrArg (List.takeWhile (· ≠ '.')) ht
        have hdig : ∀ c ∈ decimal x.a, decide (c ≠ '.') = true := fun c hc => by
          simpa using fun e : c = '.' => notMem_decimal (c := '.') (by decide) x.a (e ▸ hc)
        change List.takeWhile (· ≠ '.') ("127".toList ++ '.' :: t) =
          List.takeWhile (· ≠ '.') (decimal x.a ++ '.' :: _) at h
        rw [List.takeWhile_append_of_pos hdig, List.takeWhile_append_of_pos (List.all_eq_true.mp (by decide)),
          List.takeWhile_cons_of_neg (by decide), List.takeWhile_cons_of_neg (by decide),
          List.append_nil, List.append_nil] at h
        exact Fin.ext (decimal_inj (h.symm.trans (by decide)))
      · intro h
        exact ⟨_, by rw [Addr.text, IPv4.text, h]; rfl⟩
    simp only [loopback, loopbackText, hne, hpre, hcolon, not_false_eq_true, decide_true,
      decide_false, Bool.false_or, Bool.and_true]
  | v6 x =>
    have hcolon := colon_mem_v6 x
    have hlen : x.words.length = 8 := by simp [IPv6.words]
    have htext : (Addr.v6 x).text = "::1".toList ↔ x.words = [0, 0, 0, 0, 0, 0, 0, 1] :=
      groupsText_eq_loopback hlen
    simp only [loopback, loopbackText, htext, hcolon, not_true_eq_false, decide_false, Bool.and_false,
      Bool.or_false]

end OpsScripts
