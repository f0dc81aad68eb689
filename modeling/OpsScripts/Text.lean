/-
# Text, as the standard tools read and write it

The scripts pass data between programs as text, and every program cuts the
text up again: `tail` into lines, `awk` and `read` into blank-separated
words, a command substitution into what stands before the trailing
newlines. This file has those cuts and the round trips that hold for them:
text written one line at a time is read back as the same lines
(`lines_unlines`) as long as no line holds a newline itself, and dropping
lines of a text drops the lines (`lines_dropLines`, `dropLines_unlines`).

Key definitions: `lines`, `unlines`, `dropLines`, `tailLines`, `words`, `chomp`.
-/
import Mathlib

namespace OpsScripts

/-- Text: the characters a program reads or writes. -/
abbrev Text := List Char

/-- The bytes of a text in UTF-8. -/
def byteSize (t : Text) : ℕ := (t.map Char.utf8Size).sum

theorem byteSize_append (s t : Text) : byteSize (s ++ t) = byteSize s + byteSize t := by
  simp [byteSize]

theorem byteSize_replicate (n : ℕ) (c : Char) (hc : c.utf8Size = 1) :
    byteSize (List.replicate n c) = n := by
  simp [byteSize, hc]

/-! ### Lines -/

/-- The lines of a text, without their newlines. A last line that is not
ended by a newline counts. -/
def lines : Text → List Text
  | [] => []
  | c :: t =>
    if c = '\n' then [] :: lines t
    else
      match lines t with
      | [] => [[c]]
      | l :: ls => (c :: l) :: ls

/-- The text with these lines, each ended by a newline. -/
def unlines (ls : List Text) : Text := ls.flatMap (· ++ ['\n'])

@[simp] theorem unlines_nil : unlines [] = [] := rfl

@[simp] theorem unlines_cons (l : Text) (ls : List Text) :
    unlines (l :: ls) = l ++ '\n' :: unlines ls := by
  simp [unlines]

theorem unlines_append (as bs : List Text) : unlines (as ++ bs) = unlines as ++ unlines bs := by
  simp [unlines]

@[simp] theorem lines_nil : lines [] = [] := rfl

@[simp] theorem lines_newline (t : Text) : lines ('\n' :: t) = [] :: lines t := by
  simp [lines]

/-- A line without a newline, then the rest: the line comes off whole. -/
theorem lines_append_newline : ∀ (l : Text) (t : Text), '\n' ∉ l →
    lines (l ++ '\n' :: t) = l :: lines t
  | [], t, _ => by simp
  | c :: l, t, h => by
    have hc : c ≠ '\n' := fun e => h (by simp [e])
    have ih := lines_append_newline l t fun e => h (List.mem_cons_of_mem _ e)
    simp [lines, hc, ih]

/-- Lines written one by one are read back. -/
theorem lines_unlines : ∀ ls : List Text, (∀ l ∈ ls, '\n' ∉ l) → lines (unlines ls) = ls
  | [], _ => rfl
  | l :: ls, h => by
    rw [unlines_cons, lines_append_newline l _ (h l List.mem_cons_self),
      lines_unlines ls fun x hx => h x (List.mem_cons_of_mem _ hx)]

/-- No line of a text holds a newline. -/
theorem newline_notMem_of_mem_lines : ∀ (t : Text), ∀ l ∈ lines t, '\n' ∉ l
  | [], l, hl => by simp at hl
  | c :: t, l, hl => by
    have ih := newline_notMem_of_mem_lines t
    by_cases hc : c = '\n'
    · subst hc
      rcases List.mem_cons.mp (lines_newline t ▸ hl) with rfl | hl
      · simp
      · exact ih l hl
    · simp only [lines, hc, if_false] at hl
      cases ht : lines t with
      | nil =>
        rw [ht] at hl
        simp only [List.mem_singleton] at hl
        subst hl
        simpa using Ne.symm hc
      | cons k ks =>
        rw [ht] at ih hl
        rcases List.mem_cons.mp hl with rfl | hl
        · simpa using ⟨Ne.symm hc, ih k List.mem_cons_self⟩
        · exact ih l (List.mem_cons_of_mem _ hl)

/-- A line is made of characters of the text. -/
theorem mem_of_mem_lines : ∀ {t l : Text}, l ∈ lines t → ∀ {c : Char}, c ∈ l → c ∈ t
  | [], l, hl, _, _ => by cases hl
  | d :: t, l, hl, c, hc => by
    have ih : ∀ {l}, l ∈ lines t → c ∈ l → c ∈ t := fun hl hc => mem_of_mem_lines hl hc
    rw [List.mem_cons]
    rw [lines] at hl
    split at hl
    · rcases List.mem_cons.mp hl with rfl | hl
      · cases hc
      · exact Or.inr (ih hl hc)
    · split at hl
      · rw [List.mem_singleton] at hl
        subst hl
        exact Or.inl (List.mem_singleton.mp hc)
      · rename_i k ks hk
        rcases List.mem_cons.mp hl with rfl | hl
        · exact (List.mem_cons.mp hc).imp id fun hc => ih (hk ▸ List.mem_cons_self) hc
        · exact Or.inr (ih (hk ▸ List.mem_cons_of_mem _ hl) hc)

/-- A last line without its newline is a line. -/
theorem lines_unlines_append : ∀ (ls : List Text) (l : Text), (∀ k ∈ ls, '\n' ∉ k) → '\n' ∉ l → l ≠ [] →
    lines (unlines ls ++ l) = ls ++ [l]
  | [], [], _, _, h => absurd rfl h
  | [], [c], _, h, _ => by
    have hc : c ≠ '\n' := fun e => h (by simp [e])
    simp [lines, hc]
  | [], c :: d :: l, hls, h, _ => by
    have hc : c ≠ '\n' := fun e => h (by simp [e])
    have ih := lines_unlines_append [] (d :: l) hls (fun e => h (List.mem_cons_of_mem _ e)) (List.cons_ne_nil _ _)
    simp only [unlines_nil, List.nil_append] at ih ⊢
    rw [lines, if_neg hc, ih]
  | k :: ls, l, hls, h, hne => by
    rw [unlines_cons, List.append_assoc, List.cons_append, lines_append_newline k _ (hls k List.mem_cons_self),
      lines_unlines_append ls l (fun k hk => hls k (List.mem_cons_of_mem _ hk)) h hne, List.cons_append]

/-- A text that ends its last line is its lines. -/
theorem unlines_lines_append (t : Text) : unlines (lines (t ++ ['\n'])) = t ++ ['\n'] := by
  induction t with
  | nil => rfl
  | cons c t ih =>
    by_cases hc : c = '\n'
    · subst hc; simp [ih]
    · cases hl : lines (t ++ ['\n']) with
      | nil => rw [hl] at ih; simp at ih
      | cons k ks =>
        rw [hl] at ih
        simp only [List.cons_append, lines, hc, if_false, hl, unlines_cons] at ih ⊢
        rw [ih]

/-- What stands after the first `k` lines: the output of `tail -n +(k+1)`. -/
def dropLines : ℕ → Text → Text
  | 0, t => t
  | _ + 1, [] => []
  | k + 1, c :: t => if c = '\n' then dropLines k t else dropLines (k + 1) t

@[simp] theorem dropLines_zero (t : Text) : dropLines 0 t = t := by
  cases t <;> rfl

theorem dropLines_append_newline (k : ℕ) : ∀ (l : Text) (t : Text), '\n' ∉ l →
    dropLines (k + 1) (l ++ '\n' :: t) = dropLines k t
  | [], t, _ => by simp [dropLines]
  | c :: l, t, h => by
    have hc : c ≠ '\n' := fun e => h (by simp [e])
    simp only [List.cons_append, dropLines, hc, if_false]
    exact dropLines_append_newline k l t fun e => h (List.mem_cons_of_mem _ e)

/-- `tail -n +(k+1)` of lines written one by one. -/
theorem dropLines_unlines : ∀ (k : ℕ) (ls : List Text), (∀ l ∈ ls, '\n' ∉ l) →
    dropLines k (unlines ls) = unlines (ls.drop k)
  | 0, ls, _ => by simp
  | k + 1, [], _ => rfl
  | k + 1, l :: ls, h => by
    rw [unlines_cons, dropLines_append_newline k l _ (h l List.mem_cons_self), List.drop_succ_cons]
    exact dropLines_unlines k ls fun x hx => h x (List.mem_cons_of_mem _ hx)

/-- The last `n` lines: the output of `tail -n n`. -/
def tailLines (n : ℕ) (t : Text) : Text := dropLines ((lines t).length - n) t

theorem tailLines_unlines (n : ℕ) (ls : List Text) (h : ∀ l ∈ ls, '\n' ∉ l) :
    tailLines n (unlines ls) = unlines (ls.drop (ls.length - n)) := by
  rw [tailLines, lines_unlines ls h, dropLines_unlines _ ls h]

/-! ### The end of a list -/

/-- The last `k` of a list are the last `k` of an end that has as many. -/
theorem rtake_of_suffix {α : Type} {l m : List α} (h : m <:+ l) {k : ℕ} (hk : k ≤ m.length) :
    l.rtake k = m.rtake k := by
  obtain ⟨p, rfl⟩ := h
  rw [List.rtake, List.rtake, List.length_append, Nat.add_sub_assoc hk, List.drop_append,
    List.drop_of_length_le (by omega), List.nil_append]
  congr 1
  omega

/-- In a sorted list what lies past a bound is at the end. -/
theorem filter_suffix {α : Type} {R : α → α → Prop} {p : α → Bool} (hp : ∀ a b, R a b → p a = true → p b = true) :
    ∀ l : List α, l.Pairwise R → l.filter p <:+ l
  | [], _ => List.suffix_refl _
  | a :: l, h => by
    obtain ⟨ha, hl⟩ := List.pairwise_cons.mp h
    by_cases hpa : p a = true
    · rw [List.filter_eq_self.mpr]
      intro b hb
      rcases List.mem_cons.mp hb with rfl | hb
      · exact hpa
      · exact hp a b (ha b hb) hpa
    · rw [List.filter_cons_of_neg hpa]
      exact (filter_suffix hp l hl).trans (List.suffix_cons _ _)

/-! ### What a command substitution keeps -/

/-- A text without its trailing newlines. -/
def chomp (t : Text) : Text := t.rdropWhile (· = '\n')

theorem chomp_append_newline (t : Text) : chomp (t ++ ['\n']) = chomp t := by
  simp [chomp]

theorem chomp_eq_self (t : Text) (h : '\n' ∉ t) : chomp t = t := by
  rw [chomp, List.rdropWhile_eq_self_iff]
  intro hl he
  have he' : t.getLast hl = '\n' := by simpa using he
  exact h (he' ▸ List.getLast_mem hl)

/-- Lines lose the newline of the last one. -/
theorem chomp_unlines_append (ls : List Text) {l : Text} (h : '\n' ∉ l) (hne : l ≠ []) :
    chomp (unlines (ls ++ [l])) = unlines ls ++ l := by
  have hsplit : unlines (ls ++ [l]) = (unlines ls ++ l) ++ ['\n'] := by simp [unlines]
  rw [hsplit, chomp_append_newline, chomp, List.rdropWhile_eq_self_iff]
  intro hl
  rw [List.getLast_append_of_ne_nil hl hne]
  simp only [decide_eq_true_eq]
  exact fun e => h (e ▸ List.getLast_mem hne)

/-! ### Blank-separated words -/

/-- A blank: a space or a tab. -/
def isBlank (c : Char) : Bool := c = ' ' || c = '\t'

/-- The blank-separated words of a line: the fields of `awk`. -/
def words (t : Text) : List Text := (t.splitOnP isBlank).filter (· ≠ [])

@[simp] theorem words_nil : words [] = [] := rfl

theorem words_blank_cons (c : Char) (t : Text) (hc : isBlank c = true) :
    words (c :: t) = words t := by
  simp [words, List.splitOnP_cons_eq_if_modifyHead, hc]

/-- A word in front, ended by a blank, comes off whole. -/
theorem words_append_blank (w : Text) (c : Char) (t : Text) (hw : ∀ x ∈ w, isBlank x = false)
    (hne : w ≠ []) (hc : isBlank c = true) : words (w ++ c :: t) = w :: words t := by
  rw [words, List.splitOnP_append_cons_of_forall_mem hw _ hc, List.filter_cons_of_pos (by simpa using hne)]
  rfl

theorem words_eq_self (w : Text) (hw : ∀ x ∈ w, isBlank x = false) (hne : w ≠ []) :
    words w = [w] := by
  rw [words, List.splitOnP_eq_singleton hw]
  simp [hne]

/-- The blanks between two columns: one, and `n` more. -/
def blanks (n : ℕ) : Text := ' ' :: List.replicate n ' '

theorem mem_blanks {n : ℕ} {c : Char} (h : c ∈ blanks n) : c = ' ' := by
  rcases List.mem_cons.mp h with h | h
  · exact h
  · exact (List.mem_replicate.mp h).2

/-- A column in front comes off whole. -/
theorem words_blanks (n : ℕ) (w t : Text) (hw : ∀ c ∈ w, isBlank c = false) (hne : w ≠ []) :
    words (w ++ blanks n ++ t) = w :: words t := by
  have hrep : ∀ n, words (List.replicate n ' ' ++ t) = words t := by
    intro n
    induction n with
    | zero => rfl
    | succ n ih => rw [List.replicate_succ, List.cons_append, words_blank_cons _ _ (by decide), ih]
  rw [blanks, List.append_assoc, List.cons_append, words_append_blank w _ _ hw hne (by decide), hrep]

theorem mem_of_mem_splitOnP {t : Text} : ∀ {w : Text}, w ∈ t.splitOnP isBlank → ∀ c ∈ w,
    c ∈ t ∧ isBlank c = false := by
  induction t with
  | nil => intro w hw c hc; simp_all
  | cons d t ih =>
    intro w hw c hc
    rw [List.splitOnP_cons_eq_if_modifyHead] at hw
    split at hw
    · rcases List.mem_cons.mp hw with rfl | hw
      · cases hc
      · exact (ih hw c hc).imp (List.mem_cons_of_mem _) id
    · rename_i hd
      cases hs : t.splitOnP isBlank with
      | nil => exact absurd hs (List.splitOnP_ne_nil _ _)
      | cons v vs =>
        rw [hs, List.modifyHead_cons] at hw
        rcases List.mem_cons.mp hw with rfl | hw
        · rcases List.mem_cons.mp hc with rfl | hc
          · exact ⟨List.mem_cons_self, by simpa using hd⟩
          · exact (ih (hs ▸ List.mem_cons_self) c hc).imp (List.mem_cons_of_mem _) id
        · exact (ih (hs ▸ List.mem_cons_of_mem _ hw) c hc).imp (List.mem_cons_of_mem _) id

/-- A word is made of characters of the line that are no blanks. -/
theorem mem_of_mem_words {t w : Text} (hw : w ∈ words t) {c : Char} (hc : c ∈ w) :
    c ∈ t ∧ isBlank c = false :=
  mem_of_mem_splitOnP (List.mem_of_mem_filter hw) c hc

theorem ne_nil_of_mem_words {t w : Text} (hw : w ∈ words t) : w ≠ [] := by
  simpa using (List.mem_filter.mp hw).2

end OpsScripts
