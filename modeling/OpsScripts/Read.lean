/-
# `while read usage mount; do ...` and what the shell takes for a number

`read` without `-r` takes backslashes away: one before a newline joins two
lines, one before any other character makes that character ordinary, blanks
included. The first blank-separated word goes to the first variable, the
rest of the line to the last one. A last line without a newline, which a
joined last line always is, ends the loop without a turn.

A line is read on its own (`readLine`) unless it ends in a backslash that is
not itself escaped; then it runs into the next one. `readAll_unlines` says
the loop reads lines one by one when each of them is read on its own, and
`readAll_dangling` what happens otherwise.

Key definitions: `escapes`, `readLine`, `readAll`, `legalNumber`.
-/
import OpsScripts.Text

namespace OpsScripts

/-- A character as `read` sees it, and whether a backslash stood before it. -/
abbrev Read := Char × Bool

/-- A blank that separates words. -/
def Read.isSep (c : Read) : Bool := !c.2 && isBlank c.1

/-- A line without its backslashes; `none` if it ends in one that joins the
next line to it. The characters before that backslash are `dangling`'s. -/
def escapes : Text → List Read × Bool
  | [] => ([], false)
  | '\\' :: [] => ([], true)
  | '\\' :: c :: t => ((c, true) :: (escapes t).1, (escapes t).2)
  | c :: t => ((c, false) :: (escapes t).1, (escapes t).2)

theorem escapes_cons {c : Char} (hc : c ≠ '\\') (t : Text) :
    escapes (c :: t) = ((c, false) :: (escapes t).1, (escapes t).2) := by
  rw [escapes]
  · exact fun h _ => hc h
  · exact fun _ _ h _ => hc h

/-- A line, backslash by backslash. -/
theorem escapes_induct {P : Text → Prop} (nil : P []) (joining : P ['\\'])
    (escaped : ∀ c t, P t → P ('\\' :: c :: t)) (plain : ∀ c t, c ≠ '\\' → P t → P (c :: t)) :
    ∀ t, P t := by
  intro t
  induction t using escapes.induct with
  | case1 => exact nil
  | case2 => exact joining
  | case3 c t ih => exact escaped c t ih
  | case4 c t h1 h2 ih =>
    refine plain c t ?_ ih
    rintro rfl
    cases t with
    | nil => exact h1 rfl rfl
    | cons d t => exact h2 d t rfl rfl

/-- The first word and the rest of a line. -/
def readFields (cs : List Read) : Text × Text :=
  let cs := cs.dropWhile Read.isSep
  let rest := (cs.dropWhile fun c => !c.isSep).dropWhile Read.isSep
  ((cs.takeWhile fun c => !c.isSep).map Prod.fst, (rest.rdropWhile Read.isSep).map Prod.fst)

/-- What `read` makes of a line that is not joined to the next one. -/
def readLine (l : Text) : Option (Text × Text) :=
  if (escapes l).2 then none else some (readFields (escapes l).1)

/-- The turns of the loop on the rest of its input; `acc` is what was read of
the current line, reversed. -/
def readAllFrom : List Read → Text → List (Text × Text)
  | _, [] => []
  | acc, '\n' :: t => readFields acc.reverse :: readAllFrom [] t
  | _, '\\' :: [] => []
  | acc, '\\' :: '\n' :: t => readAllFrom acc t
  | acc, '\\' :: c :: t => readAllFrom ((c, true) :: acc) t
  | acc, c :: t => readAllFrom ((c, false) :: acc) t

/-- The turns of the loop on an input. -/
def readAll (t : Text) : List (Text × Text) := readAllFrom [] t

/-- A line and its newline: it is read on its own, or it stays for the next
one. -/
theorem readAllFrom_line : ∀ (l : Text) (acc : List Read) (t : Text), '\n' ∉ l →
    readAllFrom acc (l ++ '\n' :: t) =
      if (escapes l).2 then readAllFrom ((escapes l).1.reverse ++ acc) t
      else readFields (acc.reverse ++ (escapes l).1) :: readAllFrom [] t := by
  intro l
  induction l using escapes_induct with
  | nil => intro acc t _; simp [readAllFrom, escapes]
  | joining => intro acc t _; simp [readAllFrom, escapes]
  | escaped c l ih =>
    intro acc t h
    simp only [List.mem_cons, not_or] at h
    have hc : c ≠ '\n' := fun e => h.2.1 e.symm
    rw [List.cons_append, List.cons_append, readAllFrom, ih _ t h.2.2]
    · simp [escapes]
    · simpa using hc
  | plain c l hb ih =>
    intro acc t h
    simp only [List.mem_cons, not_or] at h
    have hc : c ≠ '\n' := fun e => h.1 e.symm
    rw [List.cons_append, readAllFrom, ih _ t h.2, escapes_cons hb]
    · simp
    · exact hc
    · intro e
      exact absurd e hb
    · intro _ e
      exact absurd e hb
    · intro _ _ e
      exact absurd e hb

/-- Lines that are each read on their own are read one by one. -/
theorem readAll_unlines : ∀ (ls : List Text) (rs : List (Text × Text)),
    (∀ l ∈ ls, '\n' ∉ l) → ls.map readLine = rs.map some → readAll (unlines ls) = rs
  | [], rs, _, h => by
    cases rs with
    | nil => rfl
    | cons r rs => simp at h
  | l :: ls, rs, hn, h => by
    cases rs with
    | nil => simp at h
    | cons r rs =>
      rw [List.map_cons, List.map_cons, List.cons.injEq] at h
      have ih := readAll_unlines ls rs (fun x hx => hn x (List.mem_cons_of_mem _ hx)) h.2
      have hl := h.1
      unfold readLine at hl
      split at hl
      · cases hl
      · rename_i hd
        rw [unlines_cons, readAll, readAllFrom_line _ _ _ (hn l List.mem_cons_self), if_neg hd]
        rw [← readAll, ih]
        simpa using hl

/-- A line that ends in a joining backslash runs into the next line. -/
theorem readAll_dangling {k l : Text} (hk : '\n' ∉ k) (hl : '\n' ∉ l) (hd : (escapes k).2 = true)
    (he : (escapes l).2 = false) :
    readAll (unlines [k, l]) = [readFields ((escapes k).1 ++ (escapes l).1)] := by
  simp only [unlines_cons, unlines_nil, readAll]
  rw [readAllFrom_line _ _ _ hk, if_pos hd, readAllFrom_line _ _ _ hl, he]
  simp [readAllFrom]

/-- At the end of the input such a line is not read at all. -/
theorem readAll_dangling_last {k : Text} (hk : '\n' ∉ k) (hd : (escapes k).2 = true) :
    readAll (unlines [k]) = [] := by
  simp only [unlines_cons, unlines_nil, readAll]
  rw [readAllFrom_line _ _ _ hk, if_pos hd, readAllFrom]

/-! ### Which characters come through -/

theorem of_mem_readFields {cs : List Read} {c : Char} (h : c ∈ (readFields cs).1 ∨ c ∈ (readFields cs).2) :
    ∃ b, (c, b) ∈ cs := by
  have hdrop : ∀ {p : Read → Bool} {ds : List Read} {d : Read}, d ∈ ds.dropWhile p → d ∈ ds := fun hd =>
    (List.dropWhile_suffix _).subset hd
  simp only [readFields, List.mem_map] at h
  rcases h with ⟨⟨d, b⟩, hd, rfl⟩ | ⟨⟨d, b⟩, hd, rfl⟩
  · exact ⟨b, hdrop ((List.takeWhile_prefix _).subset hd)⟩
  · exact ⟨b, hdrop (hdrop (hdrop ((List.rdropWhile_prefix _ _).subset hd)))⟩

theorem of_mem_cons_read {acc : List Read} {t : Text} {c d : Char} {b : Bool} (hd : d ≠ '\n')
    (h : (∃ b', (c, b') ∈ (d, b) :: acc) ∨ (c ∈ t ∧ c ≠ '\n')) : (∃ b', (c, b') ∈ acc) ∨ (c ∈ d :: t ∧ c ≠ '\n') := by
  rcases h with ⟨b', h⟩ | ⟨ht, hn⟩
  · rcases List.mem_cons.mp h with h | h
    · obtain rfl := (Prod.mk.inj h).1
      exact Or.inr ⟨List.mem_cons_self, hd⟩
    · exact Or.inl ⟨b', h⟩
  · exact Or.inr ⟨List.mem_cons_of_mem _ ht, hn⟩

/-- What the loop reads is characters of its input, and no newlines. -/
theorem of_mem_readAllFrom {c : Char} {r : Text × Text} : ∀ (acc : List Read) (t : Text), r ∈ readAllFrom acc t →
    (c ∈ r.1 ∨ c ∈ r.2) → (∃ b, (c, b) ∈ acc) ∨ (c ∈ t ∧ c ≠ '\n') := by
  intro acc t
  induction acc, t using readAllFrom.induct with
  | case1 acc => intro hr _; cases hr
  | case2 acc t ih =>
    intro hr hc
    rw [readAllFrom] at hr
    rcases List.mem_cons.mp hr with rfl | hr
    · obtain ⟨b, hb⟩ := of_mem_readFields hc
      exact Or.inl ⟨b, List.mem_reverse.mp hb⟩
    · rcases ih hr hc with ⟨b, hb⟩ | ⟨ht, hn⟩
      · cases hb
      · exact Or.inr ⟨List.mem_cons_of_mem _ ht, hn⟩
  | case3 acc => intro hr _; simp [readAllFrom] at hr
  | case4 acc t ih =>
    intro hr hc
    rw [readAllFrom] at hr
    refine (ih hr hc).imp id fun h => ⟨by simp [h.1], h.2⟩
  | case5 acc d t hd ih =>
    intro hr hc
    rw [readAllFrom] at hr
    · exact (of_mem_cons_read hd (ih hr hc)).imp id fun h => ⟨List.mem_cons_of_mem _ h.1, h.2⟩
    · exact hd
  | case6 acc d t h1 h2 h3 h4 ih =>
    intro hr hc
    rw [readAllFrom] at hr
    · exact of_mem_cons_read h1 (ih hr hc)
    all_goals assumption

theorem of_mem_readAll {t : Text} {r : Text × Text} (hr : r ∈ readAll t) {c : Char} (hc : c ∈ r.1 ∨ c ∈ r.2) :
    c ∈ t ∧ c ≠ '\n' :=
  (of_mem_readAllFrom [] t hr hc).resolve_left fun ⟨_, h⟩ => by cases h

/-! ### How many characters come through -/

/-- The characters of a line that are not separators. -/
def solid (cs : List Read) : ℕ := cs.countP fun c => !c.isSep

theorem solid_append (as bs : List Read) : solid (as ++ bs) = solid as + solid bs :=
  List.countP_append

theorem solid_le_length (cs : List Read) : solid cs ≤ cs.length := List.countP_le_length

theorem solid_dropWhile_isSep : ∀ cs : List Read, solid (cs.dropWhile Read.isSep) = solid cs
  | [] => rfl
  | c :: cs => by
    by_cases h : c.isSep = true
    · rw [List.dropWhile_cons_of_pos h, solid_dropWhile_isSep cs]
      simp [solid, h]
    · rw [List.dropWhile_cons_of_neg h]

theorem solid_rdropWhile_isSep (cs : List Read) : solid (cs.rdropWhile Read.isSep) = solid cs := by
  have h := solid_dropWhile_isSep cs.reverse
  unfold List.rdropWhile
  simp only [solid, List.countP_reverse] at h ⊢
  exact h

/-- Every character that is no separator reaches one of the two variables. -/
theorem solid_le_readFields (cs : List Read) :
    solid cs ≤ (readFields cs).1.length + (readFields cs).2.length := by
  simp only [readFields, List.length_map]
  have h1 := solid_dropWhile_isSep cs
  generalize cs.dropWhile Read.isSep = ds at h1 ⊢
  have h2 : solid ds = solid (ds.takeWhile fun c => !c.isSep) + solid (ds.dropWhile fun c => !c.isSep) := by
    rw [← solid_append, List.takeWhile_append_dropWhile]
  have h3 := solid_dropWhile_isSep (ds.dropWhile fun c => !c.isSep)
  have h4 := solid_rdropWhile_isSep ((ds.dropWhile fun c => !c.isSep).dropWhile Read.isSep)
  have h5 := solid_le_length (ds.takeWhile fun c => !c.isSep)
  have h6 := solid_le_length
    (((ds.dropWhile fun c => !c.isSep).dropWhile Read.isSep).rdropWhile Read.isSep)
  omega

/-- A line with one separator at most: nothing else is dropped. -/
theorem readFields_le_solid (cs : List Read) (h : cs.countP Read.isSep ≤ 1) :
    (readFields cs).1.length + (readFields cs).2.length ≤ solid cs := by
  have hlen : ∀ l : List Read, l.countP Read.isSep = 0 → l.length ≤ solid l := fun l hl => by
    have := List.length_eq_countP_add_countP Read.isSep (l := l)
    simp only [solid]
    simp only [Bool.decide_eq_false, Bool.not_eq_true] at this
    simpa [hl] using this.le
  simp only [readFields, List.length_map]
  have h1 := solid_dropWhile_isSep cs
  have hsub : (cs.dropWhile Read.isSep).countP Read.isSep ≤ 1 :=
    ((List.dropWhile_sublist _).countP_le).trans h
  generalize cs.dropWhile Read.isSep = ds at h1 hsub ⊢
  have h2 : solid ds = solid (ds.takeWhile fun c => !c.isSep) + solid (ds.dropWhile fun c => !c.isSep) := by
    rw [← solid_append, List.takeWhile_append_dropWhile]
  have h3 : (ds.takeWhile fun c => !c.isSep).length ≤ solid (ds.takeWhile fun c => !c.isSep) :=
    hlen _ (List.countP_eq_zero.mpr fun c hc => by simpa using List.mem_takeWhile_imp hc)
  have hsub' : (ds.dropWhile fun c => !c.isSep).countP Read.isSep ≤ 1 :=
    ((List.dropWhile_sublist _).countP_le).trans hsub
  cases hr : ds.dropWhile fun c => !c.isSep with
  | nil => simp [hr] at h2 ⊢; omega
  | cons s rest =>
    -- the word ends at the separator, and no second one follows
    have hs : s.isSep = true := by
      have := List.head?_dropWhile_not (fun c : Read => !c.isSep) ds
      rw [hr] at this
      simpa using this
    rw [hr, List.countP_cons_of_pos hs] at hsub'
    have hrest := hlen rest (by omega)
    have hdrop : (((s :: rest).dropWhile Read.isSep).rdropWhile Read.isSep).length ≤ rest.length := by
      refine (List.rdropWhile_prefix _ _).length_le.trans ?_
      rw [List.dropWhile_cons_of_pos hs]
      exact (List.dropWhile_sublist _).length_le
    have hsol : solid (s :: rest) = solid rest := List.countP_cons_of_neg (by simp [hs])
    rw [hr, hsol] at h2
    omega

/-- The separators of a line are among its blanks. -/
theorem countP_isSep_escapes : ∀ t : Text, (escapes t).1.countP Read.isSep ≤ t.countP isBlank := by
  intro t
  induction t using escapes_induct with
  | nil => simp [escapes]
  | joining => simp [escapes]
  | escaped c t ih =>
    rw [escapes, List.countP_cons_of_neg (by simp [Read.isSep]), List.countP_cons, List.countP_cons]
    omega
  | plain c t hb ih =>
    have hc : Read.isSep (c, false) = isBlank c := by simp [Read.isSep]
    rw [escapes_cons hb, List.countP_cons, List.countP_cons, hc]
    omega

/-- A line that is joined to the next one ends in a backslash. -/
theorem getLast?_of_joining : ∀ t : Text, (escapes t).2 = true → t.getLast? = some '\\' := by
  intro t
  induction t using escapes_induct with
  | nil => simp [escapes]
  | joining => simp
  | escaped c t ih =>
    intro h
    rw [List.getLast?_cons_cons, List.getLast?_cons, ih h]
    rfl
  | plain c t hb ih =>
    intro h
    rw [escapes_cons hb] at h
    rw [List.getLast?_cons, ih h]
    rfl

/-- A first character that is no blank comes through, itself or, if it is a
backslash, the one behind it. -/
theorem solid_escapes_pos {c d : Char} (t : Text) (hc : isBlank c = false) :
    0 < solid (escapes (c :: d :: t)).1 := by
  by_cases hb : c = '\\'
  · subst hb
    rw [escapes, solid, List.countP_cons_of_pos (by simp [Read.isSep])]
    exact Nat.succ_pos _
  · rw [escapes_cons hb, solid, List.countP_cons_of_pos (by simp [Read.isSep, hc])]
    exact Nat.succ_pos _

/-! ### Lines that are read as they stand -/

/-- Without a backslash every character stands for itself. -/
theorem escapes_of_notMem : ∀ t : Text, '\\' ∉ t → escapes t = (t.map fun c => (c, false), false)
  | [], _ => rfl
  | c :: t, h => by
    rw [List.mem_cons, not_or] at h
    rw [escapes_cons (fun e => h.1 e.symm), escapes_of_notMem t h.2]
    rfl

/-- Two words with a separator between them. -/
theorem readFields_words {us ps : List Read} {s : Read} (hu : ∀ r ∈ us, r.isSep = false)
    (hp : ∀ r ∈ ps, r.isSep = false) (hs : s.isSep = true) (hne : us ≠ []) :
    readFields (us ++ s :: ps) = (us.map Prod.fst, ps.map Prod.fst) := by
  have hfront : (us ++ s :: ps).dropWhile Read.isSep = us ++ s :: ps := by
    cases us with
    | nil => exact absurd rfl hne
    | cons u us => exact List.dropWhile_cons_of_neg (by simp [hu u List.mem_cons_self])
  have hrest : ps.dropWhile Read.isSep = ps := by
    cases ps with
    | nil => rfl
    | cons p ps => exact List.dropWhile_cons_of_neg (by simp [hp p List.mem_cons_self])
  have htrail : ps.rdropWhile Read.isSep = ps := by
    rw [List.rdropWhile_eq_self_iff]
    intro h
    rw [hp _ (List.getLast_mem h)]
    exact Bool.false_ne_true
  have hu' : ∀ r ∈ us, (!r.isSep) = true := fun r hr => by simp [hu r hr]
  simp only [readFields, hfront]
  rw [List.takeWhile_append_of_pos hu', List.dropWhile_append_of_pos hu',
    List.takeWhile_cons_of_neg (by simp [hs]), List.dropWhile_cons_of_neg (by simp [hs]),
    List.dropWhile_cons_of_pos hs, hrest, htrail, List.append_nil]

theorem readLine_words {u p : Text} (hu : ∀ c ∈ u, isBlank c = false) (hp : ∀ c ∈ p, isBlank c = false)
    (hne : u ≠ []) (hb : '\\' ∉ u ∧ '\\' ∉ p) : readLine (u ++ ' ' :: p) = some (u, p) := by
  have hsolid : ∀ w : Text, (∀ c ∈ w, isBlank c = false) →
      ∀ r : Read, r ∈ w.map (fun c => (c, false)) → r.isSep = false := by
    intro w hw r hr
    obtain ⟨c, hc, rfl⟩ := List.mem_map.mp hr
    simp [Read.isSep, hw c hc]
  have hfst : ∀ w : Text, (w.map fun c => ((c, false) : Read)).map Prod.fst = w := fun w => by
    rw [List.map_map]
    exact List.map_id w
  rw [readLine, escapes_of_notMem _ (by simp [hb.1, hb.2])]
  simp only [Bool.false_eq_true, if_false, List.map_append, List.map_cons]
  rw [readFields_words (hsolid u hu) (hsolid p hp) (by decide) (by simpa using hne), hfst, hfst]

/-! ### Numbers -/

/-- White space that `strtol` skips. -/
def isSpace (c : Char) : Bool := c = ' ' || ('\t' ≤ c && c ≤ '\r')

/-- The integer `[ x -gt y ]` takes a word for: blanks around it, a sign, the
digits, in the range of a 64-bit integer. -/
def legalNumber (w : Text) : Option ℤ :=
  let w := w.dropWhile isSpace
  let neg := w.head? = some '-'
  let ds := if w.head? = some '-' ∨ w.head? = some '+' then w.tail else w
  let digits := ds.takeWhile Char.isDigit
  let n : ℤ := Nat.ofDigitChars 10 digits 0
  let n := if neg then -n else n
  if digits = [] ∨ (ds.dropWhile Char.isDigit).any (fun c => !isBlank c) then none
  else if -2 ^ 63 ≤ n ∧ n < 2 ^ 63 then some n
  else none

/-- A number in decimal is taken for itself. -/
theorem legalNumber_decimal (n : ℕ) (h : n < 2 ^ 63) : legalNumber (Nat.toDigits 10 n) = some (n : ℤ) := by
  obtain ⟨c, t, hc⟩ := List.exists_cons_of_ne_nil (Nat.toDigits_ne_nil (n := n) (b := 10))
  have hdig : ∀ x ∈ Nat.toDigits 10 n, x.isDigit = true :=
    fun x hx => Nat.isDigit_of_mem_toDigits (by norm_num) (by norm_num) hx
  have hcd : c.isDigit = true := hdig c (by rw [hc]; exact List.mem_cons_self)
  have hrange : '0' ≤ c ∧ c ≤ '9' := by
    simp only [Char.isDigit, Bool.and_eq_true, decide_eq_true_eq] at hcd
    exact hcd
  have hsp : isSpace c = false := by
    have h1 : c ≠ ' ' := by rintro rfl; exact absurd hrange.1 (by decide)
    have h2 : ¬ c ≤ '\r' := fun h => absurd (hrange.1.trans h) (by decide)
    simp [isSpace, h1, h2]
  have hm : c ≠ '-' := by rintro rfl; exact absurd hrange.1 (by decide)
  have hp : c ≠ '+' := by rintro rfl; exact absurd hrange.1 (by decide)
  have htake : (Nat.toDigits 10 n).takeWhile Char.isDigit = Nat.toDigits 10 n :=
    List.takeWhile_eq_self_iff.mpr hdig
  have hdrop : (Nat.toDigits 10 n).dropWhile Char.isDigit = [] :=
    List.dropWhile_eq_nil_iff.mpr hdig
  have hfront : (Nat.toDigits 10 n).dropWhile isSpace = Nat.toDigits 10 n := by
    rw [hc, List.dropWhile_cons_of_neg (by simp [hsp])]
  have hhead : (Nat.toDigits 10 n).head? = some c := by rw [hc]; rfl
  have hin : -2 ^ 63 ≤ (n : ℤ) ∧ (n : ℤ) < 2 ^ 63 := by
    have : (0 : ℤ) ≤ n := Int.natCast_nonneg n
    exact ⟨by omega, by exact_mod_cast h⟩
  simp only [legalNumber, hfront, hhead, Option.some.injEq, hm, hp, or_self, if_false, htake, hdrop,
    Nat.ofDigitChars_ten_toDigits, Nat.toDigits_ne_nil, List.any_nil, Bool.false_eq_true]
  rw [if_pos hin]

end OpsScripts
